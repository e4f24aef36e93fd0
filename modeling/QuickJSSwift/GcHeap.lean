/-
Giving up references: `JS_FreeValueRT` and the free routines of the GC objects.

An object whose last reference goes is not freed on the spot. It is put on
`gc_zero_ref_count_list`, and the outermost call empties that list (`free_zero_refcount`,
phase `DECREF`), so that a long chain of objects does not become a deep recursion. Shapes,
closure variables, async functions and contexts are freed at once, from inside the routine
that gives up their last reference. While the collector removes cycles (phase
`REMOVE_CYCLES`) an object that is freed but still referred to stays allocated, and an
object whose count reaches zero is left alone, since the collector has it on its own list.

Memory is a partial map from addresses to GC objects. A routine that reads an address that
is not allocated, or fails an assertion, has no result. The lists are lists of addresses;
`list_del` takes an address off the list it is on.
-/
import QuickJSSwift.GcObject
import QuickJSSwift.Lib.RefGraph

set_option autoImplicit false

namespace QuickJSSwift.Gc

/-- `JSGCObjectHeader` with the data behind it. -/
structure JSGCObject where
  ref_count : ℤ
  mark : Bool
  body : Body
  deriving DecidableEq, Repr

/-- `JSGCPhaseEnum`. -/
inductive JSGCPhaseEnum
  | NONE
  | DECREF
  | REMOVE_CYCLES
  deriving DecidableEq, Repr

/-- The fields of `JSRuntime` that concern GC objects, and the memory they are in. -/
structure JSRuntime where
  mem : Ptr → Option JSGCObject
  gc_obj_list : List Ptr
  tmp_obj_list : List Ptr
  gc_zero_ref_count_list : List Ptr
  gc_phase : JSGCPhaseEnum

namespace JSRuntime

def store (rt : JSRuntime) (p : Ptr) (o : JSGCObject) : JSRuntime :=
  { rt with mem := Function.update rt.mem p (some o) }

/-- `js_free_rt` of a GC object. -/
def js_free_rt (rt : JSRuntime) (p : Ptr) : JSRuntime :=
  { rt with mem := Function.update rt.mem p none }

/-- `var_ref->is_detached`. -/
def is_detached (rt : JSRuntime) (p : Ptr) : Bool :=
  match rt.mem p with
  | some { body := .var_ref v, .. } => v.is_detached
  | _ => false

/-- `list_del(&p->link)`, of an element of one of the lists of the runtime. -/
def list_del (rt : JSRuntime) (p : Ptr) : JSRuntime :=
  { rt with
    gc_obj_list := rt.gc_obj_list.erase p
    tmp_obj_list := rt.tmp_obj_list.erase p
    gc_zero_ref_count_list := rt.gc_zero_ref_count_list.erase p }

/-- `list_del(&p->link); list_add(&p->link, &rt->gc_zero_ref_count_list)`. -/
def queue_zero (rt : JSRuntime) (p : Ptr) : JSRuntime :=
  { rt.list_del p with
    gc_zero_ref_count_list := p :: (rt.list_del p).gc_zero_ref_count_list }

/-- `list_del`, then `list_add_tail` to `gc_zero_ref_count_list`. -/
def move_to_zero (rt : JSRuntime) (p : Ptr) : JSRuntime :=
  { rt.list_del p with
    gc_zero_ref_count_list := (rt.list_del p).gc_zero_ref_count_list ++ [p] }

/-- `list_del`, then `list_add_tail` to `tmp_obj_list`. -/
def move_to_tmp (rt : JSRuntime) (p : Ptr) : JSRuntime :=
  { rt.list_del p with tmp_obj_list := (rt.list_del p).tmp_obj_list ++ [p] }

/-- `list_del`, then `list_add_tail` to `gc_obj_list`. -/
def move_to_gc (rt : JSRuntime) (p : Ptr) : JSRuntime :=
  { rt.list_del p with gc_obj_list := (rt.list_del p).gc_obj_list ++ [p] }

/-- The GC objects on the lists of the runtime. -/
def listed (rt : JSRuntime) : List Ptr :=
  rt.gc_obj_list ++ rt.tmp_obj_list ++ rt.gc_zero_ref_count_list

section Fields

variable (rt : JSRuntime) (p : Ptr) (o : JSGCObject)

@[simp] theorem store_mem_self : (rt.store p o).mem p = some o := Function.update_self ..

@[simp] theorem store_mem_of_ne {q : Ptr} (h : q ≠ p) : (rt.store p o).mem q = rt.mem q :=
  Function.update_of_ne h ..

@[simp] theorem js_free_rt_mem_self : (rt.js_free_rt p).mem p = none := Function.update_self ..

@[simp] theorem js_free_rt_mem_of_ne {q : Ptr} (h : q ≠ p) :
    (rt.js_free_rt p).mem q = rt.mem q :=
  Function.update_of_ne h ..

@[simp] theorem store_gc_obj_list : (rt.store p o).gc_obj_list = rt.gc_obj_list := rfl
@[simp] theorem store_tmp_obj_list : (rt.store p o).tmp_obj_list = rt.tmp_obj_list := rfl
@[simp] theorem store_gc_zero_ref_count_list :
    (rt.store p o).gc_zero_ref_count_list = rt.gc_zero_ref_count_list := rfl
@[simp] theorem store_gc_phase : (rt.store p o).gc_phase = rt.gc_phase := rfl
@[simp] theorem list_del_mem : (rt.list_del p).mem = rt.mem := rfl
@[simp] theorem list_del_gc_phase : (rt.list_del p).gc_phase = rt.gc_phase := rfl
@[simp] theorem queue_zero_mem : (rt.queue_zero p).mem = rt.mem := rfl
@[simp] theorem queue_zero_gc_phase : (rt.queue_zero p).gc_phase = rt.gc_phase := rfl
@[simp] theorem js_free_rt_gc_phase : (rt.js_free_rt p).gc_phase = rt.gc_phase := rfl

end Fields

/-- The header's count, one less. -/
def decref (rt : JSRuntime) (p : Ptr) : Option (ℤ × JSRuntime) := do
  let o ← rt.mem p
  return (o.ref_count - 1, rt.store p { o with ref_count := o.ref_count - 1 })

end JSRuntime

/-- `JS_DupValueRT`. -/
def JS_DupValueRT (v : JSCValue) (rt : JSRuntime) : Option JSRuntime :=
  match (Ref.value v).target with
  | none => some rt
  | some p => do
    let o ← rt.mem p
    return rt.store p { o with ref_count := o.ref_count + 1 }

/-- `add_gc_object`. -/
def add_gc_object (p : Ptr) (o : JSGCObject) (rt : JSRuntime) : JSRuntime :=
  let rt := rt.store p { o with mark := false }
  { rt with gc_obj_list := rt.gc_obj_list ++ [p] }

/-- `close_var_refs`: the variables of the frame get a value of their own and become GC
objects. -/
def close_var_refs (s : JSAsyncFunctionState) : List Ptr → JSRuntime → Option JSRuntime
  | [], rt => some rt
  | v :: vs, rt => do
    let o ← rt.mem v
    match o.body with
    | .var_ref (.onStack _ pvalue) =>
      let value ← (s.stack.getD [])[pvalue]?
      let rt ← JS_DupValueRT value rt
      close_var_refs s vs (add_gc_object v { o with body := .var_ref (.detached value) } rt)
    | _ => none

/-- `list_del` of a closure variable that is "still on the stack", from the list of its
frame. -/
def JSAsyncFunctionState.list_del (v : Ptr) (s : JSAsyncFunctionState) : JSAsyncFunctionState :=
  { s with var_ref_list := s.var_ref_list.erase v }

def ClassData.list_del (v : Ptr) : ClassData → ClassData
  | .generator s => .generator (s.map (·.list_del v))
  | .async_generator d => .async_generator (d.map fun d => (d.1, d.2.map (·.list_del v)))
  | u => u

def Body.list_del (v : Ptr) : Body → Body
  | .object o => .object { o with u := o.u.list_del v }
  | .async_function s r => .async_function (s.map (·.list_del v)) r
  | b => b

/-- The frame of a C call is not a GC object, and its list is not kept here. -/
def frame_list_del (v : Ptr) (frame : Option Ptr) (rt : JSRuntime) : Option JSRuntime :=
  match frame with
  | none => some rt
  | some g => do
    let o ← rt.mem g
    return rt.store g { o with body := o.body.list_del v }

/-! ## The free routines -/

/-- `JS_FreeValueRT` and, where the count reaches zero, `__JS_FreeValueRT`. -/
def JS_FreeValueRT (free_zero_refcount : JSRuntime → Option JSRuntime) (v : JSCValue)
    (rt : JSRuntime) : Option JSRuntime :=
  match (Ref.value v).target with
  | none => some rt
  | some p => do
    let (ref_count, rt) ← rt.decref p
    if ref_count ≤ 0 ∧ rt.gc_phase ≠ .REMOVE_CYCLES then
      let rt := rt.queue_zero p
      if rt.gc_phase = .NONE then free_zero_refcount rt else some rt
    else some rt

/-- The steps of a free routine, in turn. -/
def run_free (drop : Ref → JSRuntime → Option JSRuntime) :
    List FreeStep → JSRuntime → Option JSRuntime
  | [], rt => some rt
  | .drop r :: steps, rt => do
    let rt ← drop r rt
    run_free drop steps rt
  | .close s :: steps, rt => do
    let rt ← close_var_refs s s.var_ref_list rt
    guard s.stack.isSome
    run_free drop steps rt

section Routines

-- The routine for the references that are given up in turn.
variable (drop : Ref → JSRuntime → Option JSRuntime)

/-- What the routines below do once the count is zero: `js_free_shape0`,
`js_async_function_free0` and the rest of `JS_FreeContext` and of `free_var_ref`. -/
def free_contents (p : Ptr) (rt : JSRuntime) : Option JSRuntime := do
  let o ← rt.mem p
  let rt ← run_free drop o.body.free rt
  return (rt.list_del p).js_free_rt p

def js_free_shape (p : Ptr) (rt : JSRuntime) : Option JSRuntime := do
  let (ref_count, rt) ← rt.decref p
  if ref_count ≤ 0 then
    guard (ref_count = 0)
    free_contents drop p rt
  else return rt

def free_var_ref (p : Ptr) (rt : JSRuntime) : Option JSRuntime := do
  let o ← rt.mem p
  guard (0 < o.ref_count)
  let (ref_count, rt) ← rt.decref p
  if ref_count = 0 then
    match o.body with
    | .var_ref (.onStack frame _) => do
      let rt ← frame_list_del p frame rt
      return rt.js_free_rt p
    | _ => free_contents drop p rt
  else return rt

def js_async_function_free (p : Ptr) (rt : JSRuntime) : Option JSRuntime := do
  let (ref_count, rt) ← rt.decref p
  if ref_count = 0 then free_contents drop p rt else return rt

def JS_FreeContext (p : Ptr) (rt : JSRuntime) : Option JSRuntime := do
  let (ref_count, rt) ← rt.decref p
  if 0 < ref_count then return rt
  guard (ref_count = 0)
  free_contents drop p rt

end Routines

/-- The routine that gives up a reference, with the routines it calls in turn a level
further down; two levels are enough (`Body.level_lt`). -/
def free_ref (free_value : JSCValue → JSRuntime → Option JSRuntime) :
    ℕ → Ref → JSRuntime → Option JSRuntime
  | _, .value v, rt => free_value v rt
  | n + 1, .shape p, rt => js_free_shape (free_ref free_value n) p rt
  | n + 1, .var_ref p, rt => free_var_ref (free_ref free_value n) p rt
  | n + 1, .export_var p, rt => free_var_ref (free_ref free_value n) p rt
  | n + 1, .async_function p, rt => js_async_function_free (free_ref free_value n) p rt
  | n + 1, .context p, rt => JS_FreeContext (free_ref free_value n) p rt
  | 0, _, _ => none

/-- Inside `free_zero_refcount` and the collector the phase is not `NONE`, so the list is
not emptied from inside. -/
def free_ref_inner : Ref → JSRuntime → Option JSRuntime :=
  free_ref (JS_FreeValueRT fun _ => none) 2

/-- The end of `free_object` and of `free_function_bytecode`. -/
def dispose (p : Ptr) (rt : JSRuntime) : Option JSRuntime := do
  let o ← rt.mem p
  if rt.gc_phase = .REMOVE_CYCLES ∧ o.ref_count ≠ 0 then return rt.move_to_zero p
  else return (rt.list_del p).js_free_rt p

/-- `free_object`. The fields are cleared as a fail safe. -/
def free_object (p : Ptr) (o : JSObject) (rt : JSRuntime) : Option JSRuntime := do
  let h ← rt.mem p
  let rt := rt.store p { h with body := .object { o with free_mark := true } }
  let rt ← run_free free_ref_inner (Body.object o).free rt
  let h ← rt.mem p
  let rt := rt.store p
    { h with body := .object { free_mark := true, shape := none, prop := [], u := .none } }
  dispose p rt

def free_function_bytecode (p : Ptr) (cpool : List JSCValue) (realm : Option Ptr) (rt : JSRuntime) :
    Option JSRuntime := do
  let rt ← run_free free_ref_inner (Body.function_bytecode cpool realm).free rt
  dispose p rt

def free_gc_object (p : Ptr) (rt : JSRuntime) : Option JSRuntime := do
  let o ← rt.mem p
  match o.body with
  | .object o => free_object p o rt
  | .function_bytecode cpool realm => free_function_bytecode p cpool realm rt
  | _ => none

/-- The loop of `free_zero_refcount`. Every turn frees an object, so that as many turns as
there are objects on the lists are enough. -/
def free_zero_refcount_loop : ℕ → JSRuntime → Option JSRuntime
  | 0, rt => if rt.gc_zero_ref_count_list = [] then some rt else none
  | n + 1, rt =>
    match rt.gc_zero_ref_count_list with
    | [] => some rt
    | p :: _ => do
      let o ← rt.mem p
      guard (o.ref_count = 0)
      let rt ← free_gc_object p rt
      free_zero_refcount_loop n rt

/-- `free_zero_refcount`. -/
def free_zero_refcount (rt : JSRuntime) : Option JSRuntime := do
  let rt ← free_zero_refcount_loop rt.listed.length { rt with gc_phase := .DECREF }
  return { rt with gc_phase := .NONE }

/-- Giving up a reference from outside the collector. -/
def free_ref_outer : Ref → JSRuntime → Option JSRuntime :=
  free_ref (JS_FreeValueRT free_zero_refcount) 2

end QuickJSSwift.Gc
