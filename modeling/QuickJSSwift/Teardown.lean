/-
The order of teardown: strong references between `JSRuntime`, `JSContext`,
`JSContextWrapper`, `JSModule`, `JSValue` and the blocks of timers (`JSRuntime.swift`,
`JSContext.swift`, `JSContextWrapper.swift`, `JSModule.swift`, `JSValue.swift`,
`JSRunloop.swift`).

A `JSContext` keeps its wrapper, its runtime and the modules in its dictionary; a module,
the functions in it and a `JSValue` keep the wrapper; the block of a timer keeps the
wrapper and a handle on its callback; the wrapper keeps nothing. The deinitialiser of the
wrapper is `JS_FreeContext`, that of the runtime is `JS_FreeRuntime`. So a value, a module
or a timer prolongs the life of the engine's context and not that of the runtime, which
goes with the last `JSContext` or the user's last reference to it. The fields of a
`JSContext` go in the order in which they are declared: `core`, `runtime`, `modules`.

The engine's context knows its `JSContext` by an opaque pointer that keeps nothing and is
never cleared. `opaqueContext` returns it to native callbacks, the init callback of
modules, the observer of the run loop and firing timers.

`JS_FreeContext` gives up one reference. Functions and pending jobs have references to the
context of their realm, so the engine can run native code for a context after that, as the
jobs of a runtime are flushed together, until the collector has taken the context.

A state has a runtime with its contexts, and what the user and the run loop hold of each;
an object is there as long as something holds it. `violated` records that something was
freed in the wrong order, or that the opaque pointer led to a `JSContext` that is gone.
-/
import QuickJSSwift.Lib.Run

set_option autoImplicit false

namespace QuickJSSwift.Teardown

/-! ## Objects -/

/-- A `JSModule`: the user's references, whether the dictionary of its `JSContext` has it,
and the number of its functions. -/
structure JSModule where
  users : ℕ
  registered : Bool
  functions : ℕ
  deriving DecidableEq, Repr

/-- A context of the engine, with what keeps its wrapper. -/
structure Context where
  /-- References to the `JSContext`. -/
  users : ℕ
  modules : List JSModule
  /-- `JSValue` objects, each with the number of references to it. -/
  values : List ℕ
  /-- Blocks of timers that have not been released. -/
  timers : ℕ
  /-- `JS_FreeContext` has been called. -/
  freed : Bool
  /-- The engine has no reference to the context any more. -/
  gone : Bool
  deriving DecidableEq, Repr

/-- Something holds the wrapper. -/
def Context.held (ctx : Context) : Bool :=
  decide (0 < ctx.users) || !ctx.modules.isEmpty || !ctx.values.isEmpty || decide (0 < ctx.timers)

/-- A runtime with its contexts. -/
structure State where
  /-- The user's references to the `JSRuntime`. -/
  users : ℕ
  contexts : List Context
  /-- `JS_FreeRuntime` has been called. -/
  freed : Bool
  violated : Bool
  deriving DecidableEq, Repr

namespace State

/-- Something holds the `JSRuntime`. -/
def held (s : State) : Bool := decide (0 < s.users) || s.contexts.any (fun ctx => decide (0 < ctx.users))

/-! ## Deinitialisers -/

/-- `JS_FreeValue` on a context of the runtime. -/
def JS_FreeValue (s : State) : State := { s with violated := s.violated || s.freed }

/-- What is left of a context; without a reference to its wrapper, `JS_FreeContext`. -/
def putContext (s : State) (c : ℕ) (ctx : Context) : State :=
  if ctx.held || ctx.freed then { s with contexts := s.contexts.set c ctx }
  else
    { s with
      contexts := s.contexts.set c { ctx with freed := true }
      violated := s.violated || s.freed }

/-- Without a reference to the `JSRuntime`, `JS_FreeRuntime`. -/
def putRuntime (s : State) : State :=
  if s.held || s.freed then s
  else
    { s with
      freed := true
      violated := s.violated || s.contexts.any (fun ctx => !ctx.freed) }

/-- The dictionary of a `JSContext` goes, and with it the modules that nobody else has. -/
def releaseModules (s : State) (c : ℕ) : State :=
  match s.contexts[c]? with
  | none => s
  | some ctx =>
    let kept := (ctx.modules.filter (fun m => 0 < m.users)).map (fun m => { m with registered := false })
    let s := if ctx.modules.any (fun m => m.users = 0 && 0 < m.functions) then s.JS_FreeValue else s
    s.putContext c { ctx with modules := kept }

/-- The deinitialiser of a `JSContext`. -/
def deinitContext (s : State) (c : ℕ) (ctx : Context) : State :=
  -- `core`, `runtime`, `modules`
  ((s.putContext c { ctx with users := 0 }).putRuntime).releaseModules c

/-- A module that nobody has any more goes with its functions. -/
def putModule (s : State) (c : ℕ) (ctx : Context) (i : ℕ) (m : JSModule) : State :=
  if 0 < m.users || m.registered then s.putContext c { ctx with modules := ctx.modules.set i m }
  else
    let s := if 0 < m.functions then s.JS_FreeValue else s
    s.putContext c { ctx with modules := ctx.modules.eraseIdx i }

/-- `opaqueContext` of a context. -/
def opaqueContext (s : State) (ctx : Context) : State :=
  { s with violated := s.violated || decide (ctx.users = 0) }

/-- The engine can run code for a context, before or after `JS_FreeContext`. -/
def Runs (s : State) (ctx : Context) : Prop := s.freed = false ∧ ctx.gone = false

instance (s : State) (ctx : Context) : Decidable (s.Runs ctx) :=
  inferInstanceAs (Decidable (s.freed = false ∧ ctx.gone = false))

end State

/-! ## Runs -/

/-- What the user, the engine and the run loop do. -/
inductive Step
  | retainRuntime
  | dropRuntime
  | createContext
  | retainContext (c : ℕ)
  | dropContext (c : ℕ)
  /-- `module(_:_:)`, with the references to the result that the user keeps. -/
  | module (c : ℕ) (functions users : ℕ)
  | function (c i : ℕ)
  | retainModule (c i : ℕ)
  | dropModule (c i : ℕ)
  /-- A new `JSValue`, as `eval` returns it. -/
  | value (c : ℕ)
  | retainValue (c v : ℕ)
  | dropValue (c v : ℕ)
  /-- JS code calls the native `setTimeout`. -/
  | setTimeout (c : ℕ)
  | fire (c : ℕ)
  /-- The block of a timer is released. -/
  | finish (c : ℕ)
  /-- Native code runs for a context, or the observer does. -/
  | callback (c : ℕ)
  /-- The collector takes the context of the engine, after `JS_FreeContext`. -/
  | collect (c : ℕ)
  deriving DecidableEq, Repr

/-- Work on a context, if it is there. -/
def State.onContext (s : State) (c : ℕ) (f : Context → State) : State :=
  match s.contexts[c]? with
  | some ctx => f ctx
  | none => s

/-- One step. What needs an object is done only if somebody has it. -/
def step (s : State) : Step → State
  | .retainRuntime => if 0 < s.users then { s with users := s.users + 1 } else s
  | .dropRuntime => if 0 < s.users then { s with users := s.users - 1 }.putRuntime else s
  | .createContext =>
    if s.held then { s with contexts := s.contexts ++ [⟨1, [], [], 0, false, false⟩] } else s
  | .retainContext c => s.onContext c fun ctx =>
    if 0 < ctx.users then s.putContext c { ctx with users := ctx.users + 1 } else s
  | .dropContext c => s.onContext c fun ctx =>
    if 1 < ctx.users then s.putContext c { ctx with users := ctx.users - 1 }
    else if ctx.users = 1 then s.deinitContext c ctx
    else s
  | .module c functions users => s.onContext c fun ctx =>
    if 0 < ctx.users then s.putContext c { ctx with modules := ctx.modules ++ [⟨users, true, functions⟩] }
    else s
  | .function c i => s.onContext c fun ctx =>
    match ctx.modules[i]? with
    | some m => s.putModule c ctx i { m with functions := m.functions + 1 }
    | none => s
  | .retainModule c i => s.onContext c fun ctx =>
    match ctx.modules[i]? with
    | some m => if 0 < m.users then s.putModule c ctx i { m with users := m.users + 1 } else s
    | none => s
  | .dropModule c i => s.onContext c fun ctx =>
    match ctx.modules[i]? with
    | some m => if 0 < m.users then s.putModule c ctx i { m with users := m.users - 1 } else s
    | none => s
  | .value c => s.onContext c fun ctx =>
    if 0 < ctx.users then s.putContext c { ctx with values := ctx.values ++ [1] } else s
  | .retainValue c v => s.onContext c fun ctx =>
    match ctx.values[v]? with
    | some n => s.putContext c { ctx with values := ctx.values.set v (n + 1) }
    | none => s
  | .dropValue c v => s.onContext c fun ctx =>
    match ctx.values[v]? with
    | some n =>
      if 1 < n then s.putContext c { ctx with values := ctx.values.set v (n - 1) }
      -- the handle frees its value, and then lets go of the wrapper
      else s.JS_FreeValue.putContext c { ctx with values := ctx.values.eraseIdx v }
    | none => s
  | .setTimeout c => s.onContext c fun ctx =>
    if s.Runs ctx then
      let s := s.opaqueContext ctx
      if ctx.held then s.putContext c { ctx with timers := ctx.timers + 1 } else s
    else s
  | .fire c => s.onContext c fun ctx => if 0 < ctx.timers then s.opaqueContext ctx else s
  -- the handle on the callback is freed, as the block has it
  | .finish c => s.onContext c fun ctx =>
    if 0 < ctx.timers then s.JS_FreeValue.putContext c { ctx with timers := ctx.timers - 1 } else s
  | .callback c => s.onContext c fun ctx => if s.Runs ctx then s.opaqueContext ctx else s
  | .collect c => s.onContext c fun ctx =>
    if ctx.freed then { s with contexts := s.contexts.set c { ctx with gone := true } } else s

/-- A new runtime. -/
def State.start : State := ⟨1, [], false, false⟩

/-! ## Conditions -/

/-- Neither a module nor a value nor a timer holds the wrapper. -/
def Context.Clear (ctx : Context) : Prop := ctx.modules = [] ∧ ctx.values = [] ∧ ctx.timers = 0

/-- When a step keeps the order. With the last reference to the runtime, the user's or that
of the last `JSContext`, nothing may hold a wrapper but a `JSContext`; the modules in its
own dictionary count, as they go after the runtime. And a timer fires, and native code
runs, `setTimeout` included, only for a context whose `JSContext` is there, whether or not
`JS_FreeContext` has been called. -/
def StepOk (s : State) : Step → Prop
  | .dropRuntime =>
    s.users = 1 → (∀ ctx ∈ s.contexts, ctx.users = 0) → ∀ ctx ∈ s.contexts, ctx.Clear
  | .dropContext c =>
    ∀ ctx, s.contexts[c]? = some ctx → ctx.users = 1 → s.users = 0 →
      (∀ i ctx', i ≠ c → s.contexts[i]? = some ctx' → ctx'.users = 0) →
      ∀ ctx' ∈ s.contexts, ctx'.Clear
  | .fire c => ∀ ctx, s.contexts[c]? = some ctx → 0 < ctx.timers → 0 < ctx.users
  | .setTimeout c => ∀ ctx, s.contexts[c]? = some ctx → s.Runs ctx → 0 < ctx.users
  | .callback c => ∀ ctx, s.contexts[c]? = some ctx → s.Runs ctx → 0 < ctx.users
  | _ => True

/-- What holds in every state: a context is freed when nothing holds its wrapper, the
runtime when nothing holds it, and, while nothing has gone wrong, the runtime only after
its contexts. -/
structure WF (s : State) : Prop where
  contexts : ∀ ctx ∈ s.contexts, ctx.freed = !ctx.held
  runtime : s.freed = !s.held
  order : s.violated = false → s.freed = true → ∀ ctx ∈ s.contexts, ctx.freed = true

/-- A step that cannot go wrong. -/
def Keeps (s s' : State) : Prop := WF s' ∧ (s.violated = false → s'.violated = false)

/-! ## Lists -/

section Lists

variable {α : Type} {l : List α} {c : ℕ} {a b : α} {Q : α → Prop}

end Lists

/-! ## What holds what -/

/-- A context that something holds is not freed, and while nothing has gone wrong the
runtime is not freed either. -/
theorem WF.alive {s : State} (hs : WF s) {c : ℕ} {ctx : Context} (hget : s.contexts[c]? = some ctx)
    (hheld : ctx.held = true) : ctx.freed = false ∧ (s.violated = false → s.freed = false) := by
  have hmem := List.mem_of_getElem? hget
  have hfreed : ctx.freed = false := by
    rw [hs.contexts ctx hmem, hheld]
    rfl
  refine ⟨hfreed, fun hviolated => ?_⟩
  cases hruntime : s.freed with
  | false => rfl
  | true =>
    have := hs.order hviolated hruntime ctx hmem
    rw [hfreed] at this
    cases this

theorem Keeps.refl {s : State} (hs : WF s) : Keeps s s := ⟨hs, id⟩

theorem Keeps.trans {s s' s'' : State} (h : Keeps s s') (h' : Keeps s' s'') : Keeps s s'' :=
  ⟨h'.1, fun hv => h'.2 (h.2 hv)⟩

/-- A job of a context that has been dropped runs with those of its sibling, before the
collector has come. -/
example :
    (Run.exec step .start
      [.createContext, .createContext, .module 0 1 0, .dropContext 0, .callback 0]).violated = true ∧
    (Run.exec step .start
      [.createContext, .createContext, .module 0 1 0, .dropContext 0, .collect 0,
        .callback 0]).violated = false := by
  decide

end QuickJSSwift.Teardown
