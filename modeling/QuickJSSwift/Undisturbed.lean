/-
When the operations of `Pending.lean` leave nothing pending.

The condition is on what an operation finds: none of the functions of the engine that it
calls, with the arguments that it calls them with, leaves an exception uncaught. Decoding
an array comes to its elements one by one, so its condition follows the loop, and for the
elements the depth of the type. `call` is the one operation that looks: a function may
throw, and then it is the conversion of what was thrown that must not.

An exception that one call leaves can still be swept away by JS code with a `try` of its
own that a later call runs. The condition does not count on that.
-/
import QuickJSSwift.Pending

set_option autoImplicit false

namespace QuickJSSwift.Pending

open Decode Engine Exception ModuleDef ModuleExports Ownership Utf

variable {ω : Type}

/-! ## The condition -/

variable (H : Host ω)

variable (swift : Stdlib)

variable {H}

end QuickJSSwift.Pending
