/-
Timers of the run loop: `JSRunloop.scheduleTimer` (`JSRunloop.swift`) and the block of its
`Timer`, over the handles of `JSValue.swift` and the argument buffer of a native call
(`js_c_function_data_call`, `quickjs.c`).

The block captures four things: the wrapper of the context, a handle on the callback, the
number of arguments, and the address of the argument buffer. The handle has a reference
of its own and gives it back when the block is released. The address has nothing behind
it once the native call has returned: the words at it belong to whatever uses the frame
next.

A state has the words of memory, the reference counts with who holds them, and the timers
whose block exists. Memory can be written and references can come and go at any time, as
the engine likes. A count that falls to zero frees the value; `generation` counts how
often that has happened at an address, so that a value is told from a later one at the
same address.

A `Timer` that does not repeat fires once and then releases its block. The `JSRunloop` is
there, as its context keeps it, and so is the context.
-/
import QuickJSSwift.Decode
import QuickJSSwift.Lib.RefCount
import QuickJSSwift.Lib.Run
import Mathlib.Data.Fintype.Option

set_option autoImplicit false

namespace QuickJSSwift.Runloop

open RefCount

/-! ## States -/

/-- Who holds references: the handles of the run loop, and everybody else. -/
inductive Holder
  | engine
  | runloop
  deriving DecidableEq, Repr

instance : Fintype Holder where
  elems := {.engine, .runloop}
  complete := by
    intro o
    cases o <;> decide

/-- A timer with its block: what the block has captured, and whether it is running. -/
structure Timer where
  id : ℕ
  /-- `interval`, before it is divided by 1000. -/
  interval : BitVec 64
  /-- The value of the handle `function`. -/
  function : JSCValue
  argc : ℕ
  arguments : ℕ
  firing : Bool
  /-- The generation of the callback when the handle was made. -/
  generation : ℕ

/-- The timer called `id` is firing. -/
def Timer.mark (id : ℕ) (t : Timer) : Timer := if t.id = id then { t with firing := true } else t

/-- What `JSContext.call` was given at a firing. -/
structure Call where
  timer : Timer
  argv : List JSCValue
  /-- The generation of the callback at the call. -/
  generation : ℕ
  /-- The callback has a reference at the call. -/
  live : Bool

structure State where
  memory : ℕ → JSCValue
  heap : Ledger Holder Ptr
  generation : Ptr → ℕ
  timers : List Timer
  next : ℕ
  calls : List Call
  /-- A handle gave back a reference that it did not have. -/
  fault : Bool

namespace State

/-- The generation of a value. -/
def generationOf (s : State) (v : JSCValue) : ℕ := ((JS_VALUE_GET_PTR v).map s.generation).getD 0

/-- A value that has a reference count is there. -/
def liveValue (s : State) (v : JSCValue) : Bool :=
  match JS_VALUE_GET_PTR v with
  | some p => s.heap.Live p
  | none => true

/-- `JSContextWrapper.dup` of a handle. -/
def dup (s : State) (v : JSCValue) : State :=
  match JS_VALUE_GET_PTR v with
  | some p => { s with heap := s.heap.acquire .runloop p }
  | none => s

/-- `o` gives back a reference; the last one frees the value. -/
def release (s : State) (o : Holder) (p : Ptr) : Option State :=
  (s.heap.release o p).map (fun heap => { s with
    heap := heap
    generation := fun q => if q = p ∧ heap.count p = 0 then s.generation q + 1 else s.generation q })

/-- `JSContextWrapper.free` in the `deinit` of a handle. -/
def free (s : State) (v : JSCValue) : State :=
  match JS_VALUE_GET_PTR v with
  | some p => (s.release .runloop p).getD { s with fault := true }
  | none => s

/-- The words from an address on. -/
def read (s : State) (address n : ℕ) : List JSCValue := (List.range n).map (fun i => s.memory (address + i))

/-- Some words are written. -/
def write (s : State) (address : ℕ) (words : List JSCValue) : State :=
  { s with memory := fun a =>
      if address ≤ a then (words[a - address]?).getD (s.memory a) else s.memory a }

/-! ## The run loop -/

/-- `scheduleTimer(_:_:)`; `callable` is whether the object in the first argument is a
function. -/
def scheduleTimer (s : State) (callable : Bool) (argc : ℕ) (argv : Option ℕ) : State :=
  match argv with
  | none => s
  | some arguments =>
    if 2 ≤ argc then
      let function := s.memory arguments
      let s := s.dup function
      -- `isFunction`; without it the handle goes again
      if JS_IsObject function && callable then
        -- the handle on the delay lives as long as the expression
        let s := s.dup (s.memory (arguments + 1))
        let interval := (Decode.Double.initValue (s.memory (arguments + 1))).getD 0#64
        let s := s.free (s.memory (arguments + 1))
        { s with
          timers := s.timers ++ [⟨s.next, interval, function, argc, arguments, false,
            s.generationOf function⟩]
          next := s.next + 1 }
      else s.free function
    else s

/-- A call of `setTimeout`: the arguments are in the buffer, which is filled up to the two
that the function declares. -/
def setTimeout (s : State) (argv : ℕ) (args : List JSCValue) (callable : Bool) : State :=
  (s.write argv (args ++ List.replicate (2 - args.length) .undefined)).scheduleTimer callable
    args.length (some argv)

/-- The block runs: `context.opaque?.call(function:argc:argv:)`. -/
def fire (s : State) (id : ℕ) : State :=
  match s.timers.find? (fun t => t.id = id ∧ t.firing = false) with
  | none => s
  | some t =>
    -- the words are read now, from the address that the block has kept
    { s with
      timers := s.timers.map (Timer.mark id)
      calls := s.calls ++ [⟨t, s.read (t.arguments + 2) (t.argc - 2), s.generationOf t.function,
        s.liveValue t.function⟩] }

/-- The block is released after the firing, and the handle with it. -/
def finish (s : State) (id : ℕ) : State :=
  match s.timers.find? (fun t => t.id = id ∧ t.firing = true) with
  | none => s
  | some t => { s with timers := s.timers.filter (fun u => u.id ≠ id) }.free t.function

end State

/-- What can happen: calls of `setTimeout` with any arguments, firings, and what the engine
does with its memory and its references. -/
inductive Step
  | setTimeout (argv : ℕ) (args : List JSCValue) (callable : Bool)
  | fire (id : ℕ)
  | finish (id : ℕ)
  | write (address : ℕ) (v : JSCValue)
  | dupValue (p : Ptr)
  | freeValue (p : Ptr)

def step (s : State) : Step → State
  | .setTimeout argv args callable => s.setTimeout argv args callable
  | .fire id => s.fire id
  | .finish id => s.finish id
  | .write address v => s.write address [v]
  | .dupValue p => { s with heap := s.heap.acquire .engine p }
  | .freeValue p => (s.release .engine p).getD s

/-- No timers, and nothing is allocated. -/
def State.start (memory : ℕ → JSCValue) : State :=
  ⟨memory, Ledger.empty, fun _ => 0, [], 0, [], false⟩

/-! ## What is invariant -/

/-- The timers whose callback is at `p`. -/
def pendingOn (timers : List Timer) (p : Ptr) : ℕ :=
  timers.countP (fun t => JS_VALUE_GET_PTR t.function = some p)

/-- What holds in every state. -/
structure Good (s : State) : Prop where
  refs : ∀ p, s.heap.refs .runloop p = pendingOn s.timers p
  callback : ∀ t ∈ s.timers, ∃ p, t.function = .ptr .object p ∧ t.generation = s.generation p
  calls : ∀ c ∈ s.calls, c.live = true ∧ c.generation = c.timer.generation
  ids : (s.timers.map Timer.id).Nodup
  bound : ∀ t ∈ s.timers, t.id < s.next
  fault : s.fault = false

/-- A callback has a reference. -/
theorem Good.live {s : State} (h : Good s) {t : Timer} (ht : t ∈ s.timers) {p : Ptr}
    (hp : t.function = .ptr .object p) : s.heap.Live p := by
  have hpos : 0 < pendingOn s.timers p := by
    refine List.countP_pos_iff.mpr ⟨t, ht, ?_⟩
    rw [hp]
    exact decide_eq_true rfl
  have hle := s.heap.refs_le_count .runloop p
  rw [h.refs p] at hle
  exact Nat.lt_of_lt_of_le hpos hle

/-- From `s` to `s'` nothing has changed but what is in memory and what has no
reference. -/
structure Leaves (s s' : State) : Prop where
  refs : ∀ p, s'.heap.refs .runloop p = s.heap.refs .runloop p
  generation : ∀ p, 0 < s.heap.refs .runloop p → s'.generation p = s.generation p
  timers : s'.timers = s.timers
  next : s'.next = s.next
  calls : s'.calls = s.calls
  fault : s'.fault = s.fault

theorem Good.of_leaves {s s' : State} (hs : Good s) (h : Leaves s s') : Good s' where
  refs := by
    intro p
    rw [h.refs, hs.refs, h.timers]
  callback := by
    intro t ht
    rw [h.timers] at ht
    obtain ⟨p, hp, hgen⟩ := hs.callback t ht
    refine ⟨p, hp, hgen.trans (h.generation p ?_).symm⟩
    rw [hs.refs p]
    exact List.countP_pos_iff.mpr ⟨t, ht, by rw [hp]; exact decide_eq_true rfl⟩
  calls := by
    rw [h.calls]
    exact hs.calls
  ids := by
    rw [h.timers]
    exact hs.ids
  bound := by
    rw [h.timers, h.next]
    exact hs.bound
  fault := h.fault.trans hs.fault

/-! ## References -/

/-- Everything that giving back a reference does: the value is freed only if none is left. -/
theorem release_spec {s s' : State} {o : Holder} {p : Ptr} (h : s.release o p = some s') :
    (∀ o' q, s'.heap.refs o' q + Ledger.unit o p o' q = s.heap.refs o' q) ∧
      (∀ q, 0 < s'.heap.refs .runloop q → s'.generation q = s.generation q) ∧
      s'.timers = s.timers ∧ s'.next = s.next ∧ s'.calls = s.calls ∧ s'.fault = s.fault ∧
      s'.memory = s.memory := by
  obtain ⟨heap, hheap, rfl⟩ := Option.map_eq_some_iff.mp h
  refine ⟨(Ledger.release_spec hheap).2, ?_, rfl, rfl, rfl, rfl, rfl⟩
  intro q hq
  -- What has a reference left has not been freed.
  have hle := heap.refs_le_count .runloop q
  refine if_neg ?_
  rintro ⟨rfl, hzero⟩
  dsimp only at hq
  omega

/-- The engine's own references. -/
theorem leaves_engine_release {s s' : State} {p : Ptr} (h : s.release .engine p = some s') :
    Leaves s s' := by
  obtain ⟨hrefs, hgen, htimers, hnext, hcalls, hfault, -⟩ := release_spec h
  have hsame : ∀ q, s'.heap.refs .runloop q = s.heap.refs .runloop q := by
    intro q
    have := hrefs .runloop q
    rw [Ledger.unit, if_neg (by simp)] at this
    exact this
  refine ⟨hsame, fun q hq => hgen q ?_, htimers, hnext, hcalls, hfault⟩
  rw [hsame]
  exact hq

/-- A handle that has its reference gives it back. -/
theorem free_of_held {s : State} {v : JSCValue} {p : Ptr} (hp : JS_VALUE_GET_PTR v = some p)
    (h : 0 < s.heap.refs .runloop p) : s.release .runloop p = some (s.free v) := by
  obtain ⟨heap, hheap⟩ := Ledger.release_isSome h
  unfold State.free State.release
  rw [hp]
  dsimp only
  rw [hheap]
  rfl

theorem refs_dup (s : State) {v : JSCValue} {p : Ptr} (hp : JS_VALUE_GET_PTR v = some p) (q : Ptr) :
    (s.dup v).heap.refs .runloop q = s.heap.refs .runloop q + Ledger.unit Holder.runloop p .runloop q := by
  unfold State.dup
  rw [hp]
  exact Ledger.refs_acquire _ _ _ _ _

theorem dup_fields (s : State) (v : JSCValue) :
    (s.dup v).timers = s.timers ∧ (s.dup v).next = s.next ∧ (s.dup v).calls = s.calls ∧
      (s.dup v).fault = s.fault ∧ (s.dup v).generation = s.generation ∧
      (s.dup v).memory = s.memory := by
  unfold State.dup
  split
  · exact ⟨rfl, rfl, rfl, rfl, rfl, rfl⟩
  · exact ⟨rfl, rfl, rfl, rfl, rfl, rfl⟩

/-- A handle that is made and goes away. -/
theorem leaves_dup_free (s : State) (v : JSCValue) : Leaves s ((s.dup v).free v) := by
  cases hp : JS_VALUE_GET_PTR v with
  | none =>
    unfold State.dup State.free
    rw [hp]
    exact ⟨fun _ => rfl, fun _ _ => rfl, rfl, rfl, rfl, rfl⟩
  | some p =>
    have hheld : 0 < (s.dup v).heap.refs .runloop p := by
      rw [refs_dup s hp, Ledger.unit, if_pos ⟨rfl, rfl⟩]
      exact Nat.succ_pos _
    obtain ⟨hrefs, hgen, htimers, hnext, hcalls, hfault, -⟩ :=
      release_spec (free_of_held hp hheld)
    obtain ⟨htimers', hnext', hcalls', hfault', hgen', -⟩ := dup_fields s v
    have hsame : ∀ q, ((s.dup v).free v).heap.refs .runloop q = s.heap.refs .runloop q := by
      intro q
      have hq := hrefs .runloop q
      rw [refs_dup s hp] at hq
      omega
    refine ⟨hsame, fun q hq => ?_, htimers.trans htimers', hnext.trans hnext',
      hcalls.trans hcalls', hfault.trans hfault'⟩
    rw [hgen q (by rw [hsame]; exact hq), hgen']

/-! ## One step -/

theorem good_write {s : State} (h : Good s) (address : ℕ) (words : List JSCValue) :
    Good (s.write address words) :=
  h.of_leaves ⟨fun _ => rfl, fun _ _ => rfl, rfl, rfl, rfl, rfl⟩

theorem pendingOn_append (timers : List Timer) {t : Timer} {p : Ptr}
    (hp : JS_VALUE_GET_PTR t.function = some p) (q : Ptr) :
    pendingOn (timers ++ [t]) q =
      pendingOn timers q + Ledger.unit Holder.runloop p .runloop q := by
  unfold pendingOn
  rw [List.countP_append, List.countP_singleton, hp, Ledger.unit]
  by_cases hq : q = p
  · simp [hq]
  · simp [hq, Ne.symm hq]

/-- A timer with a handle of its own is added. -/
theorem good_addTimer {s s' : State} (h : Good s) {t : Timer} {p : Ptr}
    (hfunction : t.function = .ptr .object p) (hleaves : Leaves (s.dup t.function) s')
    (hid : t.id = s'.next) (hgen : t.generation = s'.generation p) :
    Good { s' with
      timers := s'.timers ++ [t]
      next := s'.next + 1 } := by
  have hp : JS_VALUE_GET_PTR t.function = some p := by
    rw [hfunction]
    rfl
  obtain ⟨htimers, hnext, hcalls, hfault, hgeneration, -⟩ := dup_fields s t.function
  have htimers' : s'.timers = s.timers := hleaves.timers.trans htimers
  have hnext' : s'.next = s.next := hleaves.next.trans hnext
  -- One more reference, and one more timer on the same callback.
  constructor
  · intro q
    dsimp only
    rw [pendingOn_append s'.timers hp, hleaves.refs, refs_dup s hp, h.refs q, htimers']
  · intro u hu
    rcases List.mem_append.mp hu with hold | hnew
    · rw [htimers'] at hold
      obtain ⟨q, hq, hgq⟩ := h.callback u hold
      refine ⟨q, hq, ?_⟩
      -- The callbacks of the other timers have references too, so they are not freed.
      have hpos : 0 < (s.dup t.function).heap.refs .runloop q := by
        rw [refs_dup s hp, h.refs q]
        have hpending : 0 < pendingOn s.timers q :=
          List.countP_pos_iff.mpr ⟨u, hold, by rw [hq]; exact decide_eq_true rfl⟩
        omega
      change u.generation = s'.generation q
      rw [hleaves.generation q hpos, hgeneration]
      exact hgq
    · rw [List.mem_singleton.mp hnew]
      exact ⟨p, hfunction, hgen⟩
  · intro c hc
    rw [hleaves.calls, hcalls] at hc
    exact h.calls c hc
  · rw [List.map_append, htimers']
    refine List.nodup_append.mpr ⟨h.ids, List.nodup_singleton _, ?_⟩
    intro i hi j hj
    obtain ⟨u, hu, rfl⟩ := List.mem_map.mp hi
    rw [List.mem_singleton.mp hj, hid, hnext']
    exact (h.bound u hu).ne
  · intro u hu
    rcases List.mem_append.mp hu with hold | hnew
    · rw [htimers'] at hold
      have := h.bound u hold
      change u.id < s'.next + 1
      omega
    · rw [List.mem_singleton.mp hnew, hid]
      exact Nat.lt_succ_self _
  · exact (hleaves.fault.trans hfault).trans h.fault

theorem object_of_isObject {v : JSCValue} (h : JS_IsObject v = true) : ∃ p, v = .ptr .object p := by
  cases v with
  | ptr t p =>
    cases t with
    | object => exact ⟨p, rfl⟩
    | _ => exact absurd h Bool.false_ne_true
  | _ => exact absurd h Bool.false_ne_true

/-- Whatever the arguments: a call that is rejected leaves no reference, and one that is
accepted leaves the one of the timer. -/
theorem good_scheduleTimer {s : State} (h : Good s) (callable : Bool) (argc : ℕ)
    (argv : Option ℕ) : Good (s.scheduleTimer callable argc argv) := by
  unfold State.scheduleTimer
  cases argv with
  | none => exact h
  | some arguments =>
    dsimp only
    split_ifs with hargc hcallable
    · obtain ⟨p, hp⟩ := object_of_isObject (Bool.and_eq_true_iff.mp hcallable).1
      -- The handle on the delay comes and goes after the one on the callback.
      set s₁ := s.dup (s.memory arguments) with hs₁
      obtain ⟨-, -, -, -, -, hmemory⟩ := dup_fields s₁ (s₁.memory (arguments + 1))
      rw [hmemory]
      have hleaves := leaves_dup_free s₁ (s₁.memory (arguments + 1))
      refine good_addTimer h hp hleaves rfl ?_
      change State.generationOf _ (s.memory arguments) = _
      rw [hp]
      rfl
    · exact h.of_leaves (leaves_dup_free s (s.memory arguments))
    · exact h

theorem mem_of_find {timers : List Timer} {id : ℕ} {b : Bool} {t : Timer}
    (h : timers.find? (fun t => t.id = id ∧ t.firing = b) = some t) :
    t ∈ timers ∧ t.id = id ∧ t.firing = b := by
  have hprop := List.find?_some h
  exact ⟨List.mem_of_find?_eq_some h, of_decide_eq_true hprop⟩

theorem Timer.mark_function (id : ℕ) (t : Timer) : (t.mark id).function = t.function := by
  unfold Timer.mark
  split_ifs <;> rfl

theorem Timer.mark_generation (id : ℕ) (t : Timer) : (t.mark id).generation = t.generation := by
  unfold Timer.mark
  split_ifs <;> rfl

theorem Timer.mark_id (id : ℕ) (t : Timer) : (t.mark id).id = t.id := by
  unfold Timer.mark
  split_ifs <;> rfl

/-- A callback is there at its firing, and is the one that was scheduled. -/
theorem good_fire {s : State} (h : Good s) (id : ℕ) : Good (s.fire id) := by
  unfold State.fire
  split
  · exact h
  · next t hfind =>
    obtain ⟨ht, -, -⟩ := mem_of_find hfind
    obtain ⟨p, hp, hgen⟩ := h.callback t ht
    constructor
    · intro q
      dsimp only
      rw [h.refs q, pendingOn, pendingOn, List.countP_map]
      refine List.countP_congr fun u _ => ?_
      rw [Function.comp_apply, Timer.mark_function]
    · intro u hu
      obtain ⟨u', hu', rfl⟩ := List.mem_map.mp hu
      rw [Timer.mark_function, Timer.mark_generation]
      exact h.callback u' hu'
    · intro c hc
      rcases List.mem_append.mp hc with hold | hnew
      · exact h.calls c hold
      · rw [List.mem_singleton.mp hnew]
        dsimp only
        rw [State.liveValue, State.generationOf, hp, hgen]
        exact ⟨decide_eq_true (h.live ht hp), rfl⟩
    · have hids : Timer.id ∘ Timer.mark id = Timer.id := funext (Timer.mark_id id)
      dsimp only
      rw [List.map_map, hids]
      exact h.ids
    · intro u hu
      obtain ⟨u', hu', rfl⟩ := List.mem_map.mp hu
      rw [Timer.mark_id]
      exact h.bound u' hu'
    · exact h.fault

/-- Without a timer, its callback has one timer less. -/
theorem pendingOn_filter {timers : List Timer} (hids : (timers.map Timer.id).Nodup) {t : Timer}
    (ht : t ∈ timers) {p : Ptr} (hp : JS_VALUE_GET_PTR t.function = some p) (q : Ptr) :
    pendingOn (timers.filter (fun u => u.id ≠ t.id)) q + Ledger.unit Holder.runloop p .runloop q =
      pendingOn timers q := by
  induction timers with
  | nil => cases ht
  | cons u timers ih =>
    rw [List.map_cons, List.nodup_cons] at hids
    rcases List.mem_cons.mp ht with rfl | ht
    · -- The ids of the others differ, so they all stay.
      have hrest : timers.filter (fun u => u.id ≠ t.id) = timers := by
        refine List.filter_eq_self.mpr fun u hu => decide_eq_true ?_
        intro heq
        exact hids.1 (List.mem_map.mpr ⟨u, hu, heq⟩)
      rw [List.filter_cons_of_neg (by simp), hrest, pendingOn, pendingOn, List.countP_cons, hp,
        Ledger.unit]
      by_cases hq : q = p
      · simp [hq]
      · simp [hq, Ne.symm hq]
    · have hne : u.id ≠ t.id := fun heq => hids.1 (List.mem_map.mpr ⟨t, ht, heq.symm⟩)
      have hih := ih hids.2 ht
      unfold pendingOn at hih ⊢
      rw [List.filter_cons_of_pos (by simpa using hne), List.countP_cons, List.countP_cons]
      omega

/-- The block and its handle go. -/
theorem good_finish {s : State} (h : Good s) (id : ℕ) : Good (s.finish id) := by
  unfold State.finish
  split
  · exact h
  · next t hfind =>
    obtain ⟨ht, rfl, -⟩ := mem_of_find hfind
    obtain ⟨p, hfunction, -⟩ := h.callback t ht
    have hp : JS_VALUE_GET_PTR t.function = some p := by
      rw [hfunction]
      rfl
    have hcount := pendingOn_filter h.ids ht hp
    -- The timer itself is one of those that the references are for.
    have hheld : 0 < s.heap.refs .runloop p := by
      have := hcount p
      rw [Ledger.unit, if_pos ⟨rfl, rfl⟩] at this
      rw [h.refs p]
      omega
    set s₁ := { s with timers := s.timers.filter (fun u => u.id ≠ t.id) } with hs₁
    obtain ⟨hrefs, hgen, htimers, hnext, hcalls, hfault, -⟩ :=
      release_spec (@free_of_held s₁ _ _ hp hheld)
    have hafter : ∀ q, (s₁.free t.function).heap.refs .runloop q =
        pendingOn (s₁.free t.function).timers q := by
      intro q
      have hq := hrefs .runloop q
      have hq' := hcount q
      have hold : s₁.heap.refs .runloop q = pendingOn s.timers q := h.refs q
      rw [htimers]
      change _ = pendingOn (s.timers.filter (fun u => u.id ≠ t.id)) q
      omega
    have hsub : ∀ u ∈ (s₁.free t.function).timers, u ∈ s.timers := by
      intro u hu
      rw [htimers] at hu
      exact (List.mem_filter.mp hu).1
    constructor
    · exact hafter
    · intro u hu
      obtain ⟨q, hq, hgq⟩ := h.callback u (hsub u hu)
      refine ⟨q, hq, hgq.trans (hgen q ?_).symm⟩
      rw [hafter q]
      exact List.countP_pos_iff.mpr ⟨u, hu, by rw [hq]; exact decide_eq_true rfl⟩
    · rw [hcalls]
      exact h.calls
    · rw [htimers]
      exact (List.filter_sublist.map Timer.id).nodup h.ids
    · intro u hu
      rw [hnext]
      exact h.bound u (hsub u hu)
    · rw [hfault]
      exact h.fault

theorem good_step (s : State) (a : Step) (h : Good s) : Good (step s a) := by
  cases a with
  | setTimeout argv args callable =>
    unfold step State.setTimeout
    exact good_scheduleTimer (good_write h _ _) _ _ _
  | fire id => exact good_fire h id
  | finish id => exact good_finish h id
  | write address v => exact good_write h _ _
  | dupValue p =>
    refine h.of_leaves ⟨fun q => ?_, fun _ _ => rfl, rfl, rfl, rfl, rfl⟩
    change (s.heap.acquire .engine p).refs .runloop q = _
    rw [Ledger.refs_acquire, Ledger.unit, if_neg (by simp)]
    rfl
  | freeValue p =>
    change Good ((s.release .engine p).getD s)
    cases hr : s.release .engine p with
    | none => exact h
    | some s' => exact h.of_leaves (leaves_engine_release hr)

theorem good_start (memory : ℕ → JSCValue) : Good (.start memory) where
  refs := fun _ => rfl
  callback := fun _ ht => absurd ht List.not_mem_nil
  calls := fun _ hc => absurd hc List.not_mem_nil
  ids := List.nodup_nil
  bound := fun _ ht => absurd ht List.not_mem_nil
  fault := rfl

/-! ## Timers come and go -/

/-- `setTimeout` is called with a function and a delay. -/
def Accepted (args : List JSCValue) (callable : Bool) : Prop :=
  callable = true ∧ ∃ f d rest, args = .ptr .object f :: d :: rest

/-- The timer that the call schedules. -/
structure Scheduled (s : State) (argv : ℕ) (f : Ptr) (n : ℕ) (t : Timer) : Prop where
  id : t.id = s.next
  function : t.function = .ptr .object f
  argc : t.argc = n + 2
  arguments : t.arguments = argv
  firing : t.firing = false

theorem free_timers (s : State) (v : JSCValue) : (s.free v).timers = s.timers := by
  unfold State.free
  split
  · next p _ =>
    cases hr : s.release .runloop p with
    | none => rfl
    | some s' =>
      obtain ⟨-, -, htimers, -⟩ := release_spec hr
      exact htimers
  · rfl

/-- `scheduleTimer` adds a timer, or none. -/
theorem mem_scheduleTimer {s : State} {t : Timer} (ht : t ∈ s.timers) (callable : Bool) (argc : ℕ)
    (argv : Option ℕ) : t ∈ (s.scheduleTimer callable argc argv).timers := by
  have htemporary : ∀ (s : State) (v w : JSCValue), ((s.dup v).free w).timers = s.timers := by
    intro s v w
    rw [free_timers, (dup_fields s v).1]
  unfold State.scheduleTimer
  cases argv with
  | none => exact ht
  | some arguments =>
    dsimp only
    split_ifs
    · refine List.mem_append_left _ ?_
      rw [htemporary, (dup_fields s _).1]
      exact ht
    · rw [htemporary]
      exact ht
    · exact ht

theorem free_next (s : State) (v : JSCValue) : (s.free v).next = s.next := by
  unfold State.free
  split
  · next p _ =>
    cases hr : s.release .runloop p with
    | none => rfl
    | some s' =>
      obtain ⟨-, -, -, hnext, -⟩ := release_spec hr
      exact hnext
  · rfl

theorem scheduleTimer_accepts {s : State} {argv n : ℕ} {f : Ptr}
    (hfirst : s.memory argv = .ptr .object f) :
    ∃ t, (s.scheduleTimer true (n + 2) (some argv)).timers = s.timers ++ [t] ∧
      Scheduled s argv f n t := by
  have hcallable : (JS_IsObject (.ptr .object f) && true) = true := rfl
  unfold State.scheduleTimer
  dsimp only
  rw [if_pos (Nat.le_add_left 2 n), hfirst, if_pos hcallable]
  rw [free_timers, (dup_fields _ _).1, (dup_fields _ _).1]
  refine ⟨_, rfl, ?_, rfl, rfl, rfl, rfl⟩
  rw [free_next, (dup_fields _ _).2.1, (dup_fields _ _).2.1]

theorem write_first (s : State) (argv : ℕ) (v : JSCValue) (words : List JSCValue) :
    (s.write argv (v :: words)).memory argv = v := by
  unfold State.write
  dsimp only
  rw [if_pos le_rfl, Nat.sub_self]
  rfl

/-- A function and a delay make one timer. -/
theorem setTimeout_accepts (s : State) (argv : ℕ) (f : Ptr) (d : JSCValue) (args : List JSCValue) :
    ∃ t, (s.setTimeout argv (.ptr .object f :: d :: args) true).timers = s.timers ++ [t] ∧
      Scheduled s argv f args.length t := by
  obtain ⟨t, htimers, hscheduled⟩ :=
    @scheduleTimer_accepts (s.write argv (.ptr .object f :: d :: args ++ List.replicate 0 .undefined))
      argv args.length f (write_first s argv _ _)
  refine ⟨t, ?_, ⟨hscheduled.id, hscheduled.function, hscheduled.argc, hscheduled.arguments,
    hscheduled.firing⟩⟩
  unfold State.setTimeout
  rw [List.length_cons, List.length_cons, Nat.sub_eq_zero_of_le (Nat.le_add_left 2 _)]
  exact htimers

/-- Anything else makes none. -/
theorem setTimeout_rejects {s : State} {argv : ℕ} {args : List JSCValue} {callable : Bool}
    (h : ¬ Accepted args callable) : (s.setTimeout argv args callable).timers = s.timers := by
  unfold State.setTimeout State.scheduleTimer
  dsimp only
  split_ifs with hargc hboth
  · obtain ⟨hobject, hcallable⟩ := Bool.and_eq_true_iff.mp hboth
    obtain ⟨f, hf⟩ := object_of_isObject hobject
    match args, hargc, hf, h with
    | v :: d :: rest, _, hf, h =>
      have hv : v = .ptr .object f := (write_first s argv v _).symm.trans hf
      exact absurd ⟨hcallable, f, d, rest, by rw [hv]⟩ h
  · rw [free_timers, (dup_fields _ _).1]
    rfl
  · rfl

/-- A timer that has not fired stays, whatever happens besides its own firing. -/
theorem mem_step {s : State} (h : Good s) {t : Timer} (ht : t ∈ s.timers) (hfiring : t.firing = false)
    {a : Step} (ha : a ≠ .fire t.id) : t ∈ (step s a).timers := by
  cases a with
  | setTimeout argv args callable =>
    have hwritten : t ∈ (s.write argv (args ++ List.replicate (2 - args.length) .undefined)).timers := ht
    exact mem_scheduleTimer hwritten callable _ _
  | fire id =>
    change t ∈ (s.fire id).timers
    unfold State.fire
    split
    · exact ht
    · have hne : t.id ≠ id := by
        rintro rfl
        exact ha rfl
      have hmark : t.mark id = t := if_neg hne
      exact List.mem_map.mpr ⟨t, ht, hmark⟩
  | finish id =>
    change t ∈ (s.finish id).timers
    unfold State.finish
    split
    · exact ht
    · next u hfind =>
      obtain ⟨hu, rfl, hfiring'⟩ := mem_of_find hfind
      rw [free_timers]
      refine List.mem_filter.mpr ⟨ht, decide_eq_true ?_⟩
      -- The one that goes is firing, and ids are unique.
      intro heq
      rw [List.inj_on_of_nodup_map h.ids ht hu heq, hfiring'] at hfiring
      cases hfiring
  | write address v => exact ht
  | dupValue p => exact ht
  | freeValue p =>
    change t ∈ ((s.release .engine p).getD s).timers
    cases hr : s.release .engine p with
    | none => exact ht
    | some s' =>
      obtain ⟨-, -, htimers, -⟩ := release_spec hr
      change t ∈ s'.timers
      rw [htimers]
      exact ht

theorem mem_exec {s : State} (h : Good s) {t : Timer} (ht : t ∈ s.timers) (hfiring : t.firing = false)
    {activity : List Step} (ha : .fire t.id ∉ activity) : t ∈ (Run.exec step s activity).timers := by
  induction activity generalizing s with
  | nil => exact ht
  | cons a activity ih =>
    rw [List.mem_cons, not_or] at ha
    obtain ⟨hne, hrest⟩ := ha
    rw [Run.exec_cons]
    exact ih (good_step s a h) (mem_step h ht hfiring (Ne.symm hne)) hrest

/-- A timer is the one with its id. -/
theorem find_of_mem {s : State} (h : Good s) {t : Timer} (ht : t ∈ s.timers) {b : Bool}
    (hfiring : t.firing = b) :
    s.timers.find? (fun u => u.id = t.id ∧ u.firing = b) = some t := by
  cases hf : s.timers.find? (fun u => u.id = t.id ∧ u.firing = b) with
  | none =>
    rw [List.find?_eq_none] at hf
    exact absurd (decide_eq_true ⟨rfl, hfiring⟩) (hf t ht)
  | some u =>
    obtain ⟨hu, hid, -⟩ := mem_of_find hf
    rw [List.inj_on_of_nodup_map h.ids hu ht hid]

/-- What a firing hands over: the callback, and what is in memory now. -/
theorem fire_calls {s : State} (h : Good s) {t : Timer} (ht : t ∈ s.timers)
    (hfiring : t.firing = false) :
    (s.fire t.id).calls = s.calls ++ [⟨t, s.read (t.arguments + 2) (t.argc - 2),
      s.generationOf t.function, s.liveValue t.function⟩] := by
  unfold State.fire
  rw [find_of_mem h ht hfiring]

/-- The block goes, and no other. -/
theorem finish_timers {s : State} (h : Good s) {t : Timer} (ht : t ∈ s.timers)
    (hfiring : t.firing = true) :
    (s.finish t.id).timers = s.timers.filter (fun u => u.id ≠ t.id) := by
  unfold State.finish
  rw [find_of_mem h ht hfiring]
  exact free_timers _ _

/-! ## Callbacks -/

/-- The run loop has one reference for each timer on its callback and no other; every
callback that was handed to `call` was there and was the one that was scheduled; and no
handle gave back more than it had. A call of `setTimeout` adds one timer, on its function,
or none if it is rejected; a firing hands its callback to `call`; and the timer is pending
until its block is released. -/
structure HoldsCallbacks (s : State) : Prop where
  refs : ∀ p, s.heap.refs .runloop p = pendingOn s.timers p
  handed : ∀ c ∈ s.calls, c.live = true ∧ c.generation = c.timer.generation
  fault : s.fault = false
  accepts : ∀ argv f d args, ∃ t,
    (step s (.setTimeout argv (.ptr .object f :: d :: args) true)).timers = s.timers ++ [t] ∧
      Scheduled s argv f args.length t
  rejects : ∀ argv args callable, ¬ Accepted args callable →
    (step s (.setTimeout argv args callable)).timers = s.timers
  fires : ∀ t ∈ s.timers, t.firing = false → ∃ c,
    (step s (.fire t.id)).calls = s.calls ++ [c] ∧ c.timer = t ∧ c.live = true ∧
      c.generation = t.generation
  finishes : ∀ t ∈ s.timers, t.firing = true →
    (step s (.finish t.id)).timers = s.timers.filter (fun u => u.id ≠ t.id)

theorem holdsCallbacks_of_good {s : State} (h : Good s) : HoldsCallbacks s where
  refs := h.refs
  handed := h.calls
  fault := h.fault
  accepts := setTimeout_accepts s
  rejects := fun _ _ _ => setTimeout_rejects
  fires := by
    intro t ht hfiring
    refine ⟨_, fire_calls h ht hfiring, rfl, ?_⟩
    obtain ⟨p, hp, hgen⟩ := h.callback t ht
    rw [State.liveValue, State.generationOf, hp, hgen]
    exact ⟨decide_eq_true (h.live ht hp), rfl⟩
  finishes := fun _ => finish_timers h

/-- **A pending timer keeps exactly its callback alive**, in every state that calls of
`setTimeout`, firings and the engine can reach. -/
theorem timers_hold_callbacks (memory : ℕ → JSCValue) (steps : List Step) :
    HoldsCallbacks (Run.exec step (.start memory) steps) :=
  holdsCallbacks_of_good (Run.exec_invariant good_step (good_start memory) steps)

/-! ## Arguments -/

/-- A call of `setTimeout` on a function `f` with a delay `d` and more arguments, then some
activity, and then the firing: `f` is called with the arguments, and they have been there
all the time. -/
def Delivers (s : State) (argv : ℕ) (f : Ptr) (d : JSCValue) (args : List JSCValue)
    (activity : List Step) : Prop :=
  let scheduled := s.setTimeout argv (.ptr .object f :: d :: args) true
  let later := Run.exec step scheduled activity
  (∃ c, (later.fire s.next).calls = later.calls ++ [c] ∧ c.timer.function = .ptr .object f ∧
      c.argv = args) ∧
    Run.Always step (fun s' => ∀ v ∈ args, s'.liveValue v = true ∧
      s'.generationOf v = scheduled.generationOf v) scheduled activity

/-- The firing, after some activity. -/
theorem fire_scheduled {s : State} (h : Good s) (argv : ℕ) (f : Ptr) (d : JSCValue)
    (args : List JSCValue) {activity : List Step} (ha : .fire s.next ∉ activity) :
    ∃ c, ((Run.exec step (s.setTimeout argv (.ptr .object f :: d :: args) true) activity).fire
        s.next).calls =
        (Run.exec step (s.setTimeout argv (.ptr .object f :: d :: args) true) activity).calls ++ [c] ∧
      c.timer.function = .ptr .object f ∧
      c.argv = (Run.exec step (s.setTimeout argv (.ptr .object f :: d :: args) true) activity).read
        (argv + 2) args.length := by
  -- The timer is there until it fires, and its `arguments` are still the address `argv`.
  obtain ⟨t, htimers, hid, hfunction, hargc, harguments, hfiring⟩ := setTimeout_accepts s argv f d args
  have ht : t ∈ (s.setTimeout argv (.ptr .object f :: d :: args) true).timers := by
    rw [htimers]
    exact List.mem_append_right _ (List.mem_singleton.mpr rfl)
  have hgood : Good (s.setTimeout argv (.ptr .object f :: d :: args) true) :=
    good_step s (.setTimeout argv (.ptr .object f :: d :: args) true) h
  have hlater := Run.exec_invariant good_step hgood activity
  rw [← hid] at ha ⊢
  have hcalls := fire_calls hlater (mem_exec hgood ht hfiring ha) hfiring
  rw [harguments, hargc] at hcalls
  exact ⟨_, hcalls, hfunction, rfl⟩

/-- **`setTimeout` delivers its arguments**, whatever the engine does in between, exactly
if there are none besides the function and the delay. -/
theorem setTimeout_delivers_iff (memory : ℕ → JSCValue) (before : List Step) (argv : ℕ) (f : Ptr)
    (d : JSCValue) (args : List JSCValue) :
    (∀ activity, .fire (Run.exec step (.start memory) before).next ∉ activity →
        Delivers (Run.exec step (.start memory) before) argv f d args activity) ↔ args = [] := by
  have hgood := Run.exec_invariant good_step (good_start memory) before
  generalize Run.exec step (.start memory) before = s at hgood ⊢
  constructor
  · intro h
    by_contra hne
    obtain ⟨a, rest, rfl⟩ := List.exists_cons_of_ne_nil hne
    -- The frame is used again, and another value is where the first argument was.
    obtain ⟨other, hother⟩ : ∃ other : JSCValue, other ≠ a := by
      by_cases hnull : a = .null
      · exact ⟨.undefined, by simp [hnull]⟩
      · exact ⟨.null, Ne.symm hnull⟩
    have hwrite : .fire s.next ∉ [Step.write (argv + 2) other] := by simp
    obtain ⟨⟨c, hcalls, -, hargv⟩, -⟩ := h [.write (argv + 2) other] hwrite
    obtain ⟨c', hcalls', -, hargv'⟩ := fire_scheduled hgood argv f d (a :: rest) hwrite
    have hc : c = c' := by
      rw [hcalls] at hcalls'
      exact List.singleton_inj.mp (List.append_cancel_left hcalls')
    rw [← hc, hargv] at hargv'
    have hhead := congrArg List.head? hargv'
    rw [State.read, List.length_cons, List.range_succ_eq_map] at hhead
    simp [Run.exec, step, State.write] at hhead
    exact hother hhead.symm
  · rintro rfl activity ha
    obtain ⟨c, hcalls, hfunction, hargv⟩ := fire_scheduled hgood argv f d [] ha
    refine ⟨⟨c, hcalls, hfunction, hargv⟩, Run.always_of_forall ?_ _ _⟩
    exact fun _ v hv => absurd hv List.not_mem_nil

/-- `setTimeout(f, 0, 7)`, and the frame is used again: `f` is called with `9`. -/
theorem setTimeout_loses_argument :
    ¬ Delivers (.start (fun _ => .undefined)) 0 1 (.int 0) [.int 7] [.write 2 (.int 9)] := by
  rintro ⟨⟨c, hcalls, -, hargv⟩, -⟩
  have hc : [[.int 9]] = [c.argv] := congrArg (List.map Call.argv) hcalls
  rw [hargv] at hc
  exact absurd hc (by decide)

end QuickJSSwift.Runloop
