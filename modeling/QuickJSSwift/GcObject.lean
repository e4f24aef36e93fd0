/-
GC objects: the data structures with a `JSGCObjectHeader`, and what each refers to.

There are six kinds (`JSGCObjectTypeEnum`). Two of them are named by JS values, objects and
function bytecode; shapes, closure variables, async functions and contexts are only ever
referred to by other GC objects and by C code. The engine reads the references of an
object in two ways: `mark_children` and the `gc_mark` of its class visit them, the free
routine of its kind and the `finalizer` of its class give them up one after the other.
Both are written out below as the source has them, class by class, as the list of what is
visited and the list of what is done; the collector is right only because the two lists
agree, which is `Body.mark_agrees`: what is visited is what is given up, apart from closure
variables that are still on the stack.

The union `p->u` is one constructor per finalizer and `gc_mark` pair of `js_std_class_def`.
Strings, symbols and big numbers are counted too but have no GC header and refer to no GC
object; giving them up touches nothing that is modelled here.
-/
import QuickJSSwift.Value
import Mathlib.Data.List.Perm.Basic

set_option autoImplicit false

namespace QuickJSSwift.Gc

/-- `JSGCObjectTypeEnum`. -/
inductive JSGCObjectTypeEnum
  | JS_OBJECT
  | FUNCTION_BYTECODE
  | SHAPE
  | VAR_REF
  | ASYNC_FUNCTION
  | JS_CONTEXT
  deriving DecidableEq, Repr

/-- The kinds that a JS value can name. -/
def JSGCObjectTypeEnum.isValue : JSGCObjectTypeEnum → Bool
  | .JS_OBJECT | .FUNCTION_BYTECODE => true
  | _ => false

/-- A reference held by a GC object or by C code, by the routine that gives it up:
`JS_FreeValueRT`, `js_free_shape`, `free_var_ref` (of a closure variable, and of an exported
variable of a module), `js_async_function_free` and `JS_FreeContext`. -/
inductive Ref
  | value (v : JSCValue)
  | shape (p : Ptr)
  | var_ref (p : Ptr)
  | export_var (p : Ptr)
  | async_function (p : Ptr)
  | context (p : Ptr)
  deriving DecidableEq, Repr

/-- `JS_MKPTR(JS_TAG_OBJECT, p)`. -/
def Ref.object (p : Ptr) : Ref := .value (.ptr .object p)

/-- The GC object referred to; `JS_MarkValue` looks at two tags. -/
def Ref.target : Ref → Option Ptr
  | .value (.ptr .object p) => some p
  | .value (.ptr .functionBytecode p) => some p
  | .value _ => none
  | .shape p | .var_ref p | .export_var p | .async_function p | .context p => some p

/-- The kind of what is referred to. -/
def Ref.gc_obj_type : Ref → JSGCObjectTypeEnum
  | .value (.ptr .functionBytecode _) => .FUNCTION_BYTECODE
  | .value _ => .JS_OBJECT
  | .shape _ => .SHAPE
  | .var_ref _ | .export_var _ => .VAR_REF
  | .async_function _ => .ASYNC_FUNCTION
  | .context _ => .JS_CONTEXT

/-- How deep the free routine of a reference can call the others before all that is left
to give up are JS values. -/
def Ref.level : Ref → ℕ
  | .value _ => 0
  | .shape _ | .var_ref _ | .export_var _ | .async_function _ => 1
  | .context _ => 2

/-- `JSVarRef`: detached, with the value in it, or still on the `var_ref_list` of a stack
frame, with `pvalue` an index from `arg_buf`. The frame is the running one of some C call
(`none`) or the suspended one of a GC object. -/
inductive JSVarRef
  | detached (value : JSCValue)
  | onStack (frame : Option Ptr) (pvalue : ℕ)
  deriving DecidableEq, Repr

def JSVarRef.is_detached : JSVarRef → Bool
  | .detached _ => true
  | .onStack _ _ => false

/-- `JSAsyncFunctionState`, the frame of a generator or an async function. `stack` is what
is between `arg_buf` and `cur_sp`; while the function runs `cur_sp` is `NULL`. -/
structure JSAsyncFunctionState where
  cur_func : JSCValue
  this_val : JSCValue
  stack : Option (List JSCValue)
  var_ref_list : List Ptr
  deriving DecidableEq, Repr

/-- One slot of `p->prop` with the flags of the shape; a deleted one has the atom
`JS_ATOM_NULL` and the value `JS_UNDEFINED`. -/
inductive JSProperty
  | deleted
  | value (v : JSCValue)
  | getset (getter setter : Option Ptr)
  | varref (var_ref : Ptr)
  | autoinit (realm : Ptr)
  deriving DecidableEq, Repr

/-- A record of a `Map` or `Set`; an empty one is kept for iterators, with both fields
`JS_UNDEFINED`. -/
inductive JSMapRecord
  | empty
  | entry (key value : JSCValue)
  deriving DecidableEq, Repr

/-- `JSPromiseReactionData`. -/
structure JSPromiseReactionData where
  resolving_funcs : JSCValue × JSCValue
  handler : JSCValue
  deriving DecidableEq, Repr

/-- `JSAsyncGeneratorRequest`. -/
structure JSAsyncGeneratorRequest where
  result : JSCValue
  promise : JSCValue
  resolving_funcs : JSCValue × JSCValue
  deriving DecidableEq, Repr

/-- `p->u`, for the classes whose finalizer gives up references to GC objects. A pointer
that may be `NULL` is an option. -/
inductive ClassData
  | none
  | array (values : List JSCValue)
  | object_data (v : JSCValue)
  | cfunc (realm : Option Ptr)
  | func (home_object : Option Ptr) (function_bytecode : Option (Ptr × Option (List (Option Ptr))))
  | bound_function (func_obj this_val : JSCValue) (argv : List JSCValue)
  | c_function_data (data : Option (List JSCValue))
  | for_in_iterator (obj : JSCValue)
  | typed_array (buffer : Option Ptr)
  | proxy (data : Option (JSCValue × JSCValue))
  | map_state (records : Option (List JSMapRecord))
  | map_iterator (obj : Option JSCValue)
  | array_iterator (obj : Option JSCValue)
  | regexp_string_iterator (data : Option (JSCValue × JSCValue))
  | generator (func_state : Option JSAsyncFunctionState)
  | promise (data : Option (List JSPromiseReactionData × List JSPromiseReactionData × JSCValue))
  | promise_function (promise : Option JSCValue)
  | async_function_resolve (data : Option Ptr)
  | async_from_sync_iterator (data : Option (JSCValue × JSCValue))
  | async_generator
      (data : Option (List JSAsyncGeneratorRequest × Option JSAsyncFunctionState))
  deriving DecidableEq, Repr

/-- `JSObject`; the shape is `NULL` once the object has been freed. -/
structure JSObject where
  free_mark : Bool
  shape : Option Ptr
  prop : List JSProperty
  u : ClassData
  deriving DecidableEq, Repr

/-- What a module of a context refers to: the variables of its local exports and four
values. -/
structure ModuleRefs where
  var_refs : List (Option Ptr)
  module_ns : JSCValue
  func_obj : JSCValue
  eval_exception : JSCValue
  meta_obj : JSCValue
  deriving DecidableEq, Repr

/-- The data behind a `JSGCObjectHeader`. The values of a context are those from
`global_obj` to `function_proto`, in the order in which both routines go through them. -/
inductive Body
  | object (o : JSObject)
  | function_bytecode (cpool : List JSCValue) (realm : Option Ptr)
  | shape (proto : Option Ptr)
  | var_ref (v : JSVarRef)
  | async_function (func_state : Option JSAsyncFunctionState) (resolving_funcs : JSCValue × JSCValue)
  | context (loaded_modules : List ModuleRefs) (values : List JSCValue) (array_shape : Option Ptr)
  deriving DecidableEq, Repr

def Body.gc_obj_type : Body → JSGCObjectTypeEnum
  | .object _ => .JS_OBJECT
  | .function_bytecode _ _ => .FUNCTION_BYTECODE
  | .shape _ => .SHAPE
  | .var_ref _ => .VAR_REF
  | .async_function _ _ => .ASYNC_FUNCTION
  | .context _ _ _ => .JS_CONTEXT

/-! ## What is visited -/

/-- `async_func_mark`: "if the function is running, cur_sp is not known so we cannot mark
the stack". -/
def async_func_mark (s : JSAsyncFunctionState) : List Ref :=
  [.value s.cur_func, .value s.this_val] ++ (s.stack.getD []).map .value

section Mark

-- `var_ref->is_detached`, read in the heap.
variable (is_detached : Ptr → Bool)

/-- The part of `mark_children` for one property. -/
def JSProperty.mark : JSProperty → List Ref
  | .deleted => []
  | .value v => [.value v]
  | .getset getter setter => getter.toList.map .object ++ setter.toList.map .object
  | .varref p => if is_detached p then [.var_ref p] else []
  | .autoinit realm => [.context realm]

/-- `js_map_mark` for one record of a map that is not weak. -/
def JSMapRecord.mark : JSMapRecord → List Ref
  | .empty => [.value .undefined, .value .undefined]
  | .entry key value => [.value key, .value value]

def JSPromiseReactionData.mark (rd : JSPromiseReactionData) : List Ref :=
  [.value rd.resolving_funcs.1, .value rd.resolving_funcs.2, .value rd.handler]

def JSAsyncGeneratorRequest.mark (req : JSAsyncGeneratorRequest) : List Ref :=
  [.value req.result, .value req.promise, .value req.resolving_funcs.1,
    .value req.resolving_funcs.2]

/-- The `gc_mark` of the class, from `js_array_mark` to `js_async_generator_mark`. -/
def ClassData.gc_mark : ClassData → List Ref
  | .none => []
  | .array values => values.map .value
  | .object_data v => [.value v]
  | .cfunc realm => realm.toList.map .context
  | .func home_object b =>
    home_object.toList.map .object ++
      match b with
      | .none => []
      | .some (b, var_refs) =>
        ((var_refs.getD []).filterMap id |>.filter is_detached).map .var_ref ++
          [.value (.ptr .functionBytecode b)]
  | .bound_function func_obj this_val argv =>
    [.value func_obj, .value this_val] ++ argv.map .value
  | .c_function_data data => (data.getD []).map .value
  | .for_in_iterator obj => [.value obj]
  | .typed_array buffer => buffer.toList.map .object
  | .proxy data => data.toList.flatMap fun d => [.value d.1, .value d.2]
  | .map_state records => (records.getD []).flatMap JSMapRecord.mark
  | .map_iterator obj => obj.toList.map .value
  | .array_iterator obj => obj.toList.map .value
  | .regexp_string_iterator data => data.toList.flatMap fun d => [.value d.1, .value d.2]
  | .generator func_state => func_state.toList.flatMap async_func_mark
  | .promise data =>
    data.toList.flatMap fun d =>
      d.1.flatMap JSPromiseReactionData.mark ++ d.2.1.flatMap JSPromiseReactionData.mark ++
        [.value d.2.2]
  | .promise_function p => p.toList.map .value
  | .async_function_resolve data => data.toList.map .async_function
  | .async_from_sync_iterator data => data.toList.flatMap fun d => [.value d.1, .value d.2]
  | .async_generator data =>
    data.toList.flatMap fun d =>
      d.1.flatMap JSAsyncGeneratorRequest.mark ++ d.2.toList.flatMap async_func_mark

/-- `js_mark_module_def`, which does not ask whether the variable is detached. -/
def ModuleRefs.mark (m : ModuleRefs) : List Ref :=
  (m.var_refs.filterMap id).map .export_var ++
    [.value m.module_ns, .value m.func_obj, .value m.eval_exception, .value m.meta_obj]

/-- `mark_children`: what `mark_func` is called on, in order. -/
def Body.mark_children : Body → List Ref
  | .object o =>
    o.shape.toList.map .shape ++ o.prop.flatMap (JSProperty.mark is_detached) ++
      o.u.gc_mark is_detached
  | .function_bytecode cpool realm => cpool.map .value ++ realm.toList.map .context
  | .shape proto => proto.toList.map .object
  | .var_ref (.detached v) => [.value v]
  | .var_ref (.onStack _ _) => []
  | .async_function func_state r =>
    func_state.toList.flatMap async_func_mark ++ [.value r.1, .value r.2]
  | .context modules values array_shape =>
    modules.flatMap ModuleRefs.mark ++ values.map .value ++ array_shape.toList.map .shape

end Mark

/-! ## What is given up -/

/-- What a free routine does in turn: give up a reference, or close the variables of a
suspended frame (`close_var_refs`, under the assertion that the function does not run). -/
inductive FreeStep
  | drop (r : Ref)
  | close (s : JSAsyncFunctionState)
  deriving DecidableEq, Repr

def FreeStep.ref : FreeStep → Option Ref
  | .drop r => some r
  | .close _ => none

def FreeStep.frame : FreeStep → Option JSAsyncFunctionState
  | .drop _ => none
  | .close s => some s

/-- References given up one after the other. -/
def drops (rs : List Ref) : List FreeStep := rs.map .drop

/-- `async_func_free`. -/
def async_func_free (s : JSAsyncFunctionState) : List FreeStep :=
  .close s :: drops ((s.stack.getD []).map .value ++ [.value s.cur_func, .value s.this_val])

/-- `free_property`. -/
def free_property : JSProperty → List Ref
  | .deleted => [.value .undefined]
  | .value v => [.value v]
  | .getset getter setter => getter.toList.map .object ++ setter.toList.map .object
  | .varref p => [.var_ref p]
  | .autoinit realm => [.context realm]

/-- `promise_reaction_data_free`. -/
def promise_reaction_data_free (rd : JSPromiseReactionData) : List Ref :=
  [.value rd.resolving_funcs.1, .value rd.resolving_funcs.2, .value rd.handler]

/-- `js_async_generator_free` for one request. -/
def JSAsyncGeneratorRequest.free (req : JSAsyncGeneratorRequest) : List Ref :=
  [.value req.result, .value req.promise, .value req.resolving_funcs.1,
    .value req.resolving_funcs.2]

/-- `js_map_finalizer` for one record. -/
def JSMapRecord.free : JSMapRecord → List Ref
  | .empty => []
  | .entry key value => [.value key, .value value]

/-- The `finalizer` of the class, from `js_array_finalizer` to `js_async_generator_finalizer`. -/
def ClassData.finalizer : ClassData → List FreeStep
  | .none => []
  | .array values => drops (values.map .value)
  | .object_data v => drops [.value v]
  | .cfunc realm => drops (realm.toList.map .context)
  | .func home_object b =>
    drops (home_object.toList.map .object) ++
      match b with
      | .none => []
      | .some (b, var_refs) =>
        drops (((var_refs.getD []).filterMap id).map .var_ref ++
          [.value (.ptr .functionBytecode b)])
  | .bound_function func_obj this_val argv =>
    drops ([.value func_obj, .value this_val] ++ argv.map .value)
  | .c_function_data data => drops ((data.getD []).map .value)
  | .for_in_iterator obj => drops [.value obj]
  | .typed_array buffer => drops (buffer.toList.map .object)
  | .proxy data => data.toList.flatMap fun d => drops [.value d.1, .value d.2]
  | .map_state records => (records.getD []).flatMap fun mr => drops mr.free
  | .map_iterator obj => drops (obj.toList.map .value)
  | .array_iterator obj => drops (obj.toList.map .value)
  | .regexp_string_iterator data => data.toList.flatMap fun d => drops [.value d.1, .value d.2]
  | .generator func_state => func_state.toList.flatMap async_func_free
  | .promise data =>
    data.toList.flatMap fun d =>
      drops (d.1.flatMap promise_reaction_data_free) ++
        drops (d.2.1.flatMap promise_reaction_data_free) ++ drops [.value d.2.2]
  | .promise_function p => drops (p.toList.map .value)
  | .async_function_resolve data => drops (data.toList.map .async_function)
  | .async_from_sync_iterator data =>
    data.toList.flatMap fun d => drops [.value d.1, .value d.2]
  | .async_generator data =>
    data.toList.flatMap fun d =>
      drops (d.1.flatMap JSAsyncGeneratorRequest.free) ++ d.2.toList.flatMap async_func_free

/-- `js_free_module_def`; `free_var_ref` does nothing for a `NULL` variable. -/
def js_free_module_def (m : ModuleRefs) : List Ref :=
  (m.var_refs.filterMap id).map .export_var ++
    [.value m.module_ns, .value m.func_obj, .value m.eval_exception, .value m.meta_obj]

/-- The references a free routine gives up and the frames it closes, in order: those of
`free_object`, `free_function_bytecode`, `js_free_shape0`, `free_var_ref`,
`js_async_function_free0` and `JS_FreeContext`. -/
def Body.free : Body → List FreeStep
  | .object o =>
    drops (o.prop.flatMap free_property) ++ drops (o.shape.toList.map .shape) ++ o.u.finalizer
  | .function_bytecode cpool realm => drops (cpool.map .value) ++ drops (realm.toList.map .context)
  | .shape proto => drops (proto.toList.map .object)
  | .var_ref (.detached v) => drops [.value v]
  | .var_ref (.onStack _ _) => []
  | .async_function func_state r =>
    func_state.toList.flatMap async_func_free ++ drops [.value r.1, .value r.2]
  | .context modules values array_shape =>
    drops (modules.flatMap js_free_module_def) ++ drops (values.map .value) ++
      drops (array_shape.toList.map .shape)

/-- The references a GC object holds. -/
def Body.refs (b : Body) : List Ref := b.free.filterMap FreeStep.ref

/-- The frames a free routine closes. -/
def Body.frames (b : Body) : List JSAsyncFunctionState := b.free.filterMap FreeStep.frame

/-! ## The two lists agree -/

theorem drops_append (rs rs' : List Ref) : drops (rs ++ rs') = drops rs ++ drops rs' :=
  List.map_append

theorem drops_flatMap {α : Type} (l : List α) (f : α → List Ref) :
    drops (l.flatMap f) = l.flatMap fun a => drops (f a) :=
  List.map_flatMap ..

@[simp] theorem refs_drops (rs : List Ref) : (drops rs).filterMap FreeStep.ref = rs := by
  rw [drops, List.filterMap_map]
  exact List.filterMap_some

@[simp] theorem frames_drops (rs : List Ref) : (drops rs).filterMap FreeStep.frame = [] := by
  rw [drops, List.filterMap_map, List.filterMap_eq_nil_iff]
  intro r _
  rfl

section Agree

variable (is_detached : Ptr → Bool)

/-- The GC object that a visit of the reference reaches: a closure variable on the stack is
not one of the collector's objects. -/
def Ref.visible : Ref → Option Ptr
  | .var_ref p => if is_detached p then some p else none
  | r => r.target

/-- What is visited is what is given up, up to order and closure variables on the stack. -/
def Agrees (mark : List Ref) (free : List FreeStep) : Prop :=
  (mark.filterMap Ref.target).Perm
    ((free.filterMap FreeStep.ref).filterMap (Ref.visible is_detached))

variable {is_detached} {mark mark' : List Ref} {free free' : List FreeStep}

theorem Agrees.append (h : Agrees is_detached mark free) (h' : Agrees is_detached mark' free') :
    Agrees is_detached (mark ++ mark') (free ++ free') := by
  rw [Agrees, List.filterMap_append, List.filterMap_append, List.filterMap_append]
  exact List.Perm.append h h'

theorem Agrees.append_comm (h : Agrees is_detached mark free)
    (h' : Agrees is_detached mark' free') : Agrees is_detached (mark ++ mark') (free' ++ free) := by
  rw [Agrees, List.filterMap_append, List.filterMap_append, List.filterMap_append]
  exact (List.Perm.append h h').trans List.perm_append_comm

theorem Agrees.flatMap {α : Type} (l : List α) {f : α → List Ref} {g : α → List FreeStep}
    (h : ∀ a, Agrees is_detached (f a) (g a)) :
    Agrees is_detached (l.flatMap f) (l.flatMap g) := by
  rw [Agrees, List.filterMap_flatMap, List.filterMap_flatMap, List.filterMap_flatMap]
  exact List.Perm.flatMap_left l fun a _ => h a

/-- References that are visited as they are. -/
theorem Agrees.map {α : Type} (l : List α) (f : α → Ref)
    (hf : ∀ a, (f a).visible is_detached = (f a).target) :
    Agrees is_detached (l.map f) (drops (l.map f)) := by
  rw [Agrees, refs_drops, List.filterMap_map, List.filterMap_map]
  have heq : Ref.visible is_detached ∘ f = Ref.target ∘ f := funext hf
  rw [heq]

theorem Agrees.values (vs : List JSCValue) :
    Agrees is_detached (vs.map .value) (drops (vs.map .value)) :=
  .map vs .value fun _ => rfl

/-- The variables of a closure: the detached ones are visited. -/
theorem Agrees.var_refs (ps : List Ptr) :
    Agrees is_detached ((ps.filter is_detached).map .var_ref) (drops (ps.map .var_ref)) := by
  rw [Agrees, refs_drops]
  induction ps with
  | nil => exact .refl _
  | cons p ps ih =>
    by_cases h : is_detached p
    · simpa [h, Ref.visible, Ref.target] using ih
    · simpa [h, Ref.visible] using ih

/-- The frame of a function is given up in another order than it is visited. -/
theorem async_func_mark_agrees (s : JSAsyncFunctionState) :
    Agrees is_detached (async_func_mark s) (async_func_free s) := by
  have h := (@Agrees.values is_detached [s.cur_func, s.this_val]).append_comm
    (.values (s.stack.getD []))
  rw [← drops_append] at h
  exact h

theorem JSProperty.mark_agrees (pr : JSProperty) :
    Agrees is_detached (pr.mark is_detached) (drops (free_property pr)) := by
  cases pr with
  | deleted => exact .refl _
  | value v => exact .refl _
  | getset getter setter => cases getter <;> cases setter <;> exact .refl _
  | varref p =>
    have h := @Agrees.var_refs is_detached [p]
    rw [JSProperty.mark, free_property]
    by_cases hp : is_detached p
    · simpa [hp] using h
    · simpa [hp] using h
  | autoinit realm => exact .refl _

/-- A class's `gc_mark` visits what its `finalizer` gives up. -/
theorem ClassData.gc_mark_agrees (u : ClassData) :
    Agrees is_detached (u.gc_mark is_detached) u.finalizer := by
  cases u with
  | none => exact .refl _
  | array values => exact .values values
  | object_data v => exact .refl _
  | cfunc realm => exact .map _ _ fun _ => rfl
  | func home_object b =>
    refine .append (.map _ _ fun _ => rfl) ?_
    cases b with
    | none => exact .refl _
    | some b =>
      dsimp only
      rw [drops_append]
      exact .append (.var_refs _) (.refl _)
  | bound_function func_obj this_val argv => exact .values (func_obj :: this_val :: argv)
  | c_function_data data => exact .values _
  | for_in_iterator obj => exact .refl _
  | typed_array buffer => exact .map _ _ fun _ => rfl
  | proxy data => exact .flatMap _ fun d => .refl _
  | map_state records =>
    apply Agrees.flatMap
    intro mr
    cases mr <;> exact .refl _
  | map_iterator obj => exact .values _
  | array_iterator obj => exact .values _
  | regexp_string_iterator data => exact .flatMap _ fun d => .refl _
  | generator func_state => exact .flatMap _ async_func_mark_agrees
  | promise data =>
    apply Agrees.flatMap
    intro d
    rw [drops_flatMap, drops_flatMap]
    exact .append (.append (.flatMap _ fun rd => .refl _) (.flatMap _ fun rd => .refl _)) (.refl _)
  | promise_function p => exact .values _
  | async_function_resolve data => exact .map _ _ fun _ => rfl
  | async_from_sync_iterator data => exact .flatMap _ fun d => .refl _
  | async_generator data =>
    apply Agrees.flatMap
    intro d
    rw [drops_flatMap]
    exact .append (.flatMap _ fun req => .refl _) (.flatMap _ async_func_mark_agrees)

/-- **What the collector visits is what is given up.** For every kind of GC object and every
class, the references `mark_children` visits are those the free routine gives up, but for
closure variables that are still on the stack. -/
theorem Body.mark_agrees (b : Body) : Agrees is_detached (b.mark_children is_detached) b.free := by
  cases b with
  | object o =>
    have hprop : Agrees is_detached (o.prop.flatMap (JSProperty.mark is_detached))
        (drops (o.prop.flatMap free_property)) := by
      rw [drops_flatMap]
      exact .flatMap _ JSProperty.mark_agrees
    have hshape : Agrees is_detached (o.shape.toList.map .shape)
        (drops (o.shape.toList.map .shape)) := .map _ _ fun _ => rfl
    exact (hshape.append_comm hprop).append (ClassData.gc_mark_agrees o.u)
  | function_bytecode cpool realm => exact .append (.values _) (.map _ _ fun _ => rfl)
  | shape proto => exact .map _ _ fun _ => rfl
  | var_ref v => cases v <;> exact .refl _
  | async_function func_state r =>
    exact .append (.flatMap _ async_func_mark_agrees) (.values [r.1, r.2])
  | context modules values array_shape =>
    refine .append (.append ?_ (.values _)) (.map _ _ fun _ => rfl)
    rw [drops_flatMap]
    refine .flatMap _ fun m => ?_
    rw [js_free_module_def, drops_append]
    exact .append (.map _ _ fun _ => rfl) (.refl _)

end Agree

/-! ## How deep the free routines call each other -/

/-- The level at which a kind of GC object is freed: objects and bytecode are freed from a
list, never from inside another free routine. -/
def JSGCObjectTypeEnum.level : JSGCObjectTypeEnum → ℕ
  | .SHAPE | .VAR_REF | .ASYNC_FUNCTION => 1
  | .JS_CONTEXT => 2
  | .JS_OBJECT | .FUNCTION_BYTECODE => 3

theorem Ref.level_le_two (r : Ref) : r.level ≤ 2 := by
  cases r <;> simp [Ref.level]

/-- A reference that is not a JS value has the level of what it refers to. -/
theorem Ref.level_eq {r : Ref} (h : r.gc_obj_type.isValue = false) :
    r.level = r.gc_obj_type.level := by
  cases r with
  | value v => cases v with
    | ptr t p => cases t <;> simp [Ref.gc_obj_type, JSGCObjectTypeEnum.isValue] at h
    | _ => simp [Ref.gc_obj_type, JSGCObjectTypeEnum.isValue] at h
  | _ => rfl

theorem level_of_mem_values (vs : List JSCValue) {r : Ref} (h : r ∈ vs.map Ref.value) :
    r.level = 0 := by
  obtain ⟨v, -, rfl⟩ := List.mem_map.mp h
  rfl

/-- A frame holds JS values only. -/
theorem level_of_mem_frame {s : Option JSAsyncFunctionState} {r : Ref}
    (h : r ∈ (s.toList.flatMap async_func_free).filterMap FreeStep.ref) : r.level = 0 := by
  rw [List.filterMap_flatMap, List.mem_flatMap] at h
  obtain ⟨s, -, hr⟩ := h
  rw [async_func_free, List.filterMap_cons_none rfl, refs_drops] at hr
  exact level_of_mem_values (s.stack.getD [] ++ [s.cur_func, s.this_val]) (by simpa using hr)

/-- Giving up what a GC object holds goes down a level, so the free routines do not call
each other in a circle. -/
theorem Body.level_lt {b : Body} {r : Ref} (h : r ∈ b.refs) : r.level < b.gc_obj_type.level := by
  have htwo := r.level_le_two
  rw [Body.refs] at h
  cases b with
  | object o => exact Nat.lt_succ_of_le htwo
  | function_bytecode cpool realm => exact Nat.lt_succ_of_le htwo
  | shape proto =>
    rw [Body.free, refs_drops] at h
    obtain ⟨p, -, rfl⟩ := List.mem_map.mp h
    exact Nat.zero_lt_one
  | var_ref v =>
    cases v with
    | detached v =>
      rw [Body.free, refs_drops, List.mem_singleton] at h
      subst h
      exact Nat.zero_lt_one
    | onStack frame pvalue => simp [Body.free] at h
  | async_function s funcs =>
    rw [Body.free, List.filterMap_append, List.mem_append, refs_drops] at h
    rcases h with h | h
    · rw [level_of_mem_frame h]
      exact Nat.zero_lt_one
    · rw [level_of_mem_values [funcs.1, funcs.2] h]
      exact Nat.zero_lt_one
  | context modules values array_shape =>
    -- The variables of the modules and the shape are at level one, the rest are values.
    have hone : r.level ≤ 1 := by
      simp only [Body.free, List.filterMap_append, refs_drops, List.mem_append, List.mem_flatMap,
        js_free_module_def, List.mem_map, List.mem_cons, List.not_mem_nil, or_false] at h
      rcases h with (⟨m, -, ⟨p, -, rfl⟩ | rfl | rfl | rfl | rfl⟩ | ⟨v, -, rfl⟩) | ⟨p, -, rfl⟩ <;>
        simp [Ref.level]
    exact Nat.lt_succ_of_le hone

end QuickJSSwift.Gc
