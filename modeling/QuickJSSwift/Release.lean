/-
What giving up a reference does to the heap.

`Core` is the state of the counts between two operations of the engine: `A` are the
objects whose references count, `P` those that a free routine has begun to take apart, and
`ext p` is how many references to `p` are held from outside the heap, by C and Swift code.
The count of every address is `ext` plus the references from `A`, and the count of an
address that is not allocated is zero; so nothing that is referred to is unallocated.

The references of an object that is being taken apart are held by the routine that does
it. Taking apart therefore moves them into `ext`, and every step of a free routine is the
one step of giving up a reference held from outside. That step is specified once
(`Drops`), for values, and from there level by level for the routines that call each other.

Two conditions come from the source. A function that runs is referred to by whoever runs
it (`Pinned`), which is what the assertion in `async_func_free` relies on; and no suspended
frame has a closure variable open (`Body.Closed`). The second one is not checked anywhere.
-/
import QuickJSSwift.GcHeap

set_option autoImplicit false

namespace QuickJSSwift.Gc

open RefGraph

/-- A closure variable that is still on the stack is on no list of the runtime. -/
def Body.isOnStack : Body → Bool
  | .var_ref v => !v.is_detached
  | _ => false

theorem Body.isOnStack_of_isValue {b : Body} (h : b.gc_obj_type.isValue = true) :
    b.isOnStack = false := by
  cases b with
  | var_ref v => simp [Body.gc_obj_type, JSGCObjectTypeEnum.isValue] at h
  | _ => rfl

/-- The data of the allocated objects. -/
abbrev Bodies := Ptr → Option Body

namespace JSRuntime

def body (rt : JSRuntime) : Bodies := fun p => (rt.mem p).map JSGCObject.body

/-- The count; an address that is not allocated has none. -/
def rc (rt : JSRuntime) : Ptr → ℤ := fun p => (rt.mem p).elim 0 JSGCObject.ref_count

end JSRuntime

namespace Bodies

/-- The references the object holds. -/
def refs (body : Bodies) (p : Ptr) : List Ref := (body p).elim [] Body.refs

/-- The objects it refers to. -/
def out (body : Bodies) (p : Ptr) : List Ptr := (body.refs p).filterMap Ref.target

/-- The reference is of the kind of what it refers to. An exported variable was never on
a stack (`js_create_module_var`). -/
def Typed (body : Bodies) (r : Ref) : Prop :=
  ∀ p b, r.target = some p → body p = some b →
    b.gc_obj_type = r.gc_obj_type ∧ (r = .export_var p → b.isOnStack = false)

theorem refs_of_some {body : Bodies} {p : Ptr} {b : Body} (h : body p = some b) :
    body.refs p = b.refs := by
  rw [refs, h]
  rfl

end Bodies

/-- No closure variable of a suspended frame is still on its stack. -/
def Body.Closed (b : Body) : Prop :=
  (∀ s ∈ b.frames, s.var_ref_list = []) ∧ ∀ f i, b = .var_ref (.onStack f i) → f = none

/-- A function of this object runs. -/
def Body.Running (b : Body) : Prop := ∃ s ∈ b.frames, s.stack = none

/-- The objects that run are referred to from outside. -/
def Pinned (body : Bodies) (A : Finset Ptr) (ext : Ptr → ℕ) : Prop :=
  ∀ p ∈ A, ∀ b, body p = some b → b.Running → 0 < ext p

/-- One more reference held from outside. -/
def hold (r : Ref) (ext : Ptr → ℕ) : Ptr → ℕ :=
  fun q => ext q + if r.target = some q then 1 else 0

/-- More references held from outside. -/
def holds (rs : List Ref) (ext : Ptr → ℕ) : Ptr → ℕ :=
  fun q => ext q + (rs.filterMap Ref.target).count q

@[simp] theorem holds_nil (ext : Ptr → ℕ) : holds [] ext = ext := rfl

theorem holds_cons (r : Ref) (rs : List Ref) (ext : Ptr → ℕ) :
    holds (r :: rs) ext = hold r (holds rs ext) := by
  funext q
  rw [hold, holds, holds]
  cases h : r.target with
  | none => simp [List.filterMap_cons_none h]
  | some p =>
    rw [List.filterMap_cons_some h, List.count_cons]
    by_cases hpq : p = q
    · simp [hpq]
      omega
    · simp [hpq]

theorem le_holds (rs : List Ref) (ext : Ptr → ℕ) (q : Ptr) : ext q ≤ holds rs ext q :=
  Nat.le_add_right _ _

/-- The counts of the heap. -/
structure Core (body : Bodies) (rc : Ptr → ℤ) (phase : JSGCPhaseEnum) (A P : Finset Ptr)
    (ext : Ptr → ℕ) : Prop where
  alive : ∀ p, (body p).isSome ↔ p ∈ A ∨ p ∈ P
  disjoint : Disjoint A P
  counted : ∀ q, rc q = ext q + indeg body.out A q
  typed : ∀ p ∈ A, ∀ r ∈ body.refs p, body.Typed r
  closed : ∀ p ∈ A, ∀ b, body p = some b → b.Closed
  /-- What no JS value names is freed as soon as its count is zero. -/
  positive : ∀ p ∈ A, ∀ b, body p = some b → b.gc_obj_type.isValue = false → 0 < rc p
  /-- What is being taken apart is not referred to, apart from objects in a cycle. -/
  idle : ∀ p ∈ P, ∀ b, body p = some b →
    (phase = .REMOVE_CYCLES → b.gc_obj_type.isValue = false) → rc p = 0
  unallocated : ∀ p, body p = none → rc p = 0

namespace Core

variable {body : Bodies} {rc : Ptr → ℤ} {phase : JSGCPhaseEnum} {A P : Finset Ptr}
  {ext : Ptr → ℕ}

theorem exists_of_pos (h : Core body rc phase A P ext) {p : Ptr} (hp : 0 < rc p) :
    ∃ b, body p = some b := by
  cases hb : body p with
  | none =>
    have := h.unallocated p hb
    omega
  | some b => exact ⟨b, rfl⟩

theorem exists_of_mem (h : Core body rc phase A P ext) {p : Ptr} (hp : p ∈ A) :
    ∃ b, body p = some b :=
  Option.isSome_iff_exists.mp ((h.alive p).mpr (.inl hp))

theorem pos_of_ext (h : Core body rc phase A P ext) {p : Ptr} (hp : 0 < ext p) : 0 < rc p := by
  have := h.counted p
  omega

theorem pos_of_out (h : Core body rc phase A P ext) {p q : Ptr} (hp : p ∈ A)
    (hq : q ∈ body.out p) : 0 < rc q := by
  have hc := h.counted q
  have hd : 0 < indeg body.out A q := indeg_pos.mpr ⟨p, hp, hq⟩
  omega

/-- What a reference that is held from outside refers to is allocated; and its own
references count, unless it is an object in a cycle that is being removed. -/
theorem of_hold {r : Ref} (h : Core body rc phase A P (hold r ext)) {p : Ptr}
    (hr : r.target = some p) : ∃ b, body p = some b ∧ 0 < rc p ∧
      (¬ (phase = .REMOVE_CYCLES ∧ b.gc_obj_type.isValue = true) → p ∈ A) := by
  have hpos : 0 < rc p := h.pos_of_ext (by simp [hold, hr])
  obtain ⟨b, hb⟩ := h.exists_of_pos hpos
  refine ⟨b, hb, hpos, fun hne => ?_⟩
  rcases (h.alive p).mp (by simp [hb]) with hA | hP
  · exact hA
  · have hzero := h.idle p hP b hb (by
      intro hphase
      by_contra hv
      exact hne ⟨hphase, by simpa using hv⟩)
    omega

theorem counted_decref {r : Ref} (h : Core body rc phase A P (hold r ext)) {p : Ptr}
    (hr : r.target = some p) (q : Ptr) :
    Function.update rc p (rc p - 1) q = ext q + indeg body.out A q := by
  have hq := h.counted q
  by_cases hqp : q = p
  · subst hqp
    simp only [hold, hr, if_pos] at hq
    rw [Function.update_self]
    omega
  · have hne : r.target ≠ some q := by
      rw [hr]
      exact fun e => hqp (Option.some.inj e).symm
    simp only [hold, if_neg hne] at hq
    rw [Function.update_of_ne hqp, hq]
    simp

/-- A reference is given up and its object stays. -/
theorem decref {r : Ref} (h : Core body rc phase A P (hold r ext)) {p : Ptr}
    (hr : r.target = some p) {b : Body} (hb : body p = some b)
    (hpos : b.gc_obj_type.isValue = false → 1 < rc p) :
    Core body (Function.update rc p (rc p - 1)) phase A P ext where
  alive := h.alive
  disjoint := h.disjoint
  counted := h.counted_decref hr
  typed := h.typed
  closed := h.closed
  positive := by
    intro q hq bq hbq hv
    by_cases hqp : q = p
    · subst hqp
      rw [Function.update_self]
      have := hpos (by rw [hb] at hbq; exact Option.some.inj hbq ▸ hv)
      omega
    · rw [Function.update_of_ne hqp]
      exact h.positive q hq bq hbq hv
  idle := by
    intro q hq bq hbq hv
    by_cases hqp : q = p
    · -- An idle object is not referred to, and this one is.
      subst hqp
      have hzero := h.idle q hq bq hbq hv
      have hone : 0 < rc q := h.pos_of_ext (by simp [hold, hr])
      omega
    · rw [Function.update_of_ne hqp]
      exact h.idle q hq bq hbq hv
  unallocated := by
    intro q hq
    have hqp : q ≠ p := fun e => by simp [e, hb] at hq
    rw [Function.update_of_ne hqp]
    exact h.unallocated q hq

/-- An object is taken apart: its references are held by the routine that does so. Where
that gives up the last reference to it, its count changes at the same time. -/
theorem dismantle {ext₀ : Ptr → ℕ} {rc₀ : Ptr → ℤ} (h : Core body rc₀ phase A P ext₀) {p : Ptr}
    (hp : p ∈ A) {b : Body} (hb : body p = some b) (hrc : ∀ q, q ≠ p → rc q = rc₀ q)
    (hcounted : ∀ q, rc q = ext q + indeg body.out A q)
    (hidle : (phase = .REMOVE_CYCLES → b.gc_obj_type.isValue = false) → rc p = 0) :
    Core body rc phase (A.erase p) (insert p P) (holds b.refs ext) where
  alive := by
    intro q
    rw [h.alive q, Finset.mem_erase, Finset.mem_insert]
    by_cases hqp : q = p
    · simp [hqp, hp]
    · simp [hqp]
  disjoint := by
    rw [Finset.disjoint_insert_right]
    exact ⟨Finset.notMem_erase p A, h.disjoint.mono_left (Finset.erase_subset p A)⟩
  counted := by
    intro q
    have hout : body.out p = b.refs.filterMap Ref.target := by
      rw [Bodies.out, Bodies.refs_of_some hb]
    rw [hcounted q, indeg_erase hp, hout, holds]
    push_cast
    omega
  typed := fun q hq => h.typed q (Finset.mem_of_mem_erase hq)
  closed := fun q hq => h.closed q (Finset.mem_of_mem_erase hq)
  positive := by
    intro q hq bq hbq hv
    rw [hrc q (Finset.ne_of_mem_erase hq)]
    exact h.positive q (Finset.mem_of_mem_erase hq) bq hbq hv
  idle := by
    intro q hq bq hbq hv
    by_cases hqp : q = p
    · subst hqp
      rw [hb] at hbq
      exact hidle (Option.some.inj hbq ▸ hv)
    · rw [hrc q hqp]
      exact h.idle q (Finset.mem_of_mem_insert_of_ne hq hqp) bq hbq hv
  unallocated := by
    intro q hq
    rw [hrc q fun e => by simp [e, hb] at hq]
    exact h.unallocated q hq

theorem ne_of_mem (h : Core body rc phase A P ext) {p q : Ptr} (hq : q ∈ A) (hp : p ∈ P) :
    q ≠ p := by
  rintro rfl
  exact Finset.disjoint_left.mp h.disjoint hq hp

/-- References of the others are not affected by what happens to an address they do not
stand at. -/
theorem out_update {p q : Ptr} (hqp : q ≠ p) (b : Option Body) :
    Bodies.out (Function.update body p b) q = body.out q := by
  rw [Bodies.out, Bodies.refs, Function.update_of_ne hqp]
  rfl

/-- The data of what is being taken apart may be overwritten, or freed once it is not
referred to. -/
theorem update (h : Core body rc phase A P ext) {p : Ptr} (hp : p ∈ P) {b : Option Body}
    (hb : ∀ b', b = some b' →
      ∃ b₀, body p = some b₀ ∧ b'.gc_obj_type = b₀.gc_obj_type ∧ b'.isOnStack = b₀.isOnStack)
    (hnone : b = none → rc p = 0) :
    Core (Function.update body p b) rc phase A (if b = none then P.erase p else P) ext where
  alive := by
    intro q
    by_cases hqp : q = p
    · subst hqp
      rw [Function.update_self]
      have hA : q ∉ A := Finset.disjoint_right.mp h.disjoint hp
      cases b with
      | none => simp [hA]
      | some b => simp [hp]
    · rw [Function.update_of_ne hqp, h.alive q]
      split
      · simp [hqp]
      · rfl
  disjoint := by
    split
    · exact h.disjoint.mono_right (Finset.erase_subset p P)
    · exact h.disjoint
  counted := by
    intro q
    rw [h.counted q]
    congr 2
    apply indeg_congr
    intro a ha
    rw [out_update (h.ne_of_mem ha hp)]
  typed := by
    intro q hq r hr a ba hra hba
    have hqp := h.ne_of_mem hq hp
    rw [Bodies.refs, Function.update_of_ne hqp] at hr
    by_cases hap : a = p
    · subst hap
      rw [Function.update_self] at hba
      obtain ⟨b₀, hb₀, htype, hstack⟩ := hb ba hba
      rw [htype, hstack]
      exact h.typed q hq r hr a b₀ hra hb₀
    · rw [Function.update_of_ne hap] at hba
      exact h.typed q hq r hr a ba hra hba
  closed := by
    intro q hq bq hbq
    have hqp := h.ne_of_mem hq hp
    rw [Function.update_of_ne hqp] at hbq
    exact h.closed q hq bq hbq
  positive := by
    intro q hq bq hbq
    have hqp := h.ne_of_mem hq hp
    rw [Function.update_of_ne hqp] at hbq
    exact h.positive q hq bq hbq
  idle := by
    intro q hq bq hbq hv
    by_cases hqp : q = p
    · subst hqp
      rw [Function.update_self] at hbq
      obtain ⟨b₀, hb₀, htype, -⟩ := hb bq hbq
      exact h.idle q hp b₀ hb₀ (htype ▸ hv)
    · rw [Function.update_of_ne hqp] at hbq
      refine h.idle q ?_ bq hbq hv
      split at hq
      · exact Finset.mem_of_mem_erase hq
      · exact hq
  unallocated := by
    intro q hq
    by_cases hqp : q = p
    · subst hqp
      rw [Function.update_self] at hq
      exact hnone hq
    · rw [Function.update_of_ne hqp] at hq
      exact h.unallocated q hq

/-- All that was taken apart is freed at once. -/
theorem clear (h : Core body rc phase A P ext) {body' : Bodies} {phase' : JSGCPhaseEnum}
    (hbody : ∀ q, body' q = if q ∈ P then none else body q) (hrc : ∀ q ∈ P, rc q = 0) :
    Core body' rc phase' A ∅ ext := by
  have hA : ∀ q ∈ A, body' q = body q := fun q hq => by
    rw [hbody q, if_neg fun hP => h.ne_of_mem hq hP rfl]
  have hof : ∀ q b, body' q = some b → body q = some b := by
    intro q b hb
    rw [hbody q] at hb
    split at hb
    · exact absurd hb (by simp)
    · exact hb
  refine ⟨?_, Finset.disjoint_empty_right A, ?_, ?_, ?_, ?_, by simp, ?_⟩
  · intro q
    rw [hbody q]
    by_cases hP : q ∈ P
    · have hnot : q ∉ A := fun hq => h.ne_of_mem hq hP rfl
      simp [hP, hnot]
    · rw [if_neg hP, h.alive q]
      simp [hP]
  · intro q
    rw [h.counted q]
    congr 2
    apply indeg_congr
    intro a ha
    rw [Bodies.out, Bodies.out, Bodies.refs, Bodies.refs, hA a ha]
  · intro q hq r hr a b hra hb
    rw [Bodies.refs, hA q hq] at hr
    exact h.typed q hq r hr a b hra (hof a b hb)
  · exact fun q hq b hb => h.closed q hq b (hof q b hb)
  · exact fun q hq b hb => h.positive q hq b (hof q b hb)
  · intro q hq
    rw [hbody q] at hq
    split at hq
    · next hP => exact hrc q hP
    · exact h.unallocated q hq

end Core

/-! ## The runtime -/

namespace JSRuntime

variable {rt : JSRuntime} {p q : Ptr} {o : JSGCObject} {b : Body}

theorem body_eq (h : rt.mem p = some o) : rt.body p = some o.body := by
  rw [body, h]
  rfl

theorem rc_eq (h : rt.mem p = some o) : rt.rc p = o.ref_count := by
  rw [rc, h]
  rfl

theorem mem_of_body (h : rt.body p = some b) : ∃ o, rt.mem p = some o ∧ o.body = b :=
  Option.map_eq_some_iff.mp h

theorem decref_eq (h : rt.mem p = some o) :
    rt.decref p =
      some (rt.rc p - 1, rt.store p { o with ref_count := rt.rc p - 1 }) := by
  rw [decref, h, rc_eq h]
  rfl

/-- Writing a count. -/
theorem body_store_count (h : rt.mem p = some o) (c : ℤ) :
    (rt.store p { o with ref_count := c }).body = rt.body := by
  funext q
  by_cases hqp : q = p
  · subst hqp
    simp [body, store, h]
  · simp [body, store, hqp]

theorem rc_store (o : JSGCObject) : (rt.store p o).rc = Function.update rt.rc p o.ref_count := by
  funext q
  by_cases hqp : q = p
  · subst hqp
    simp [rc, store]
  · simp [rc, store, hqp]

theorem body_store (o : JSGCObject) :
    (rt.store p o).body = Function.update rt.body p (some o.body) := by
  funext q
  by_cases hqp : q = p
  · subst hqp
    simp [body, store]
  · simp [body, store, hqp]

theorem body_js_free_rt : (rt.js_free_rt p).body = Function.update rt.body p none := by
  funext q
  by_cases hqp : q = p
  · subst hqp
    simp [body, js_free_rt]
  · simp [body, js_free_rt, hqp]

theorem rc_js_free_rt : (rt.js_free_rt p).rc = Function.update rt.rc p 0 := by
  funext q
  by_cases hqp : q = p
  · subst hqp
    simp [rc, js_free_rt]
  · simp [rc, js_free_rt, hqp]

/-- Taking an address off the lists. -/
theorem mem_listed_list_del (h : rt.listed.Nodup) :
    q ∈ (rt.list_del p).listed ↔ q ≠ p ∧ q ∈ rt.listed := by
  simp only [listed, List.nodup_append, List.mem_append, list_del] at h ⊢
  rw [h.1.1.mem_erase_iff, h.1.2.1.mem_erase_iff, h.2.1.mem_erase_iff]
  tauto

theorem tmp_list_del (h : rt.tmp_obj_list = []) : (rt.list_del p).tmp_obj_list = [] := by
  rw [list_del, h]
  rfl

theorem nodup_list_del (h : rt.listed.Nodup) : (rt.list_del p).listed.Nodup := by
  refine h.sublist ?_
  exact (List.erase_sublist.append List.erase_sublist).append List.erase_sublist

end JSRuntime

namespace JSRuntime

variable {rt : JSRuntime} {p q : Ptr}

theorem mem_listed_queue_zero (h : rt.listed.Nodup) (hp : p ∈ rt.listed) :
    q ∈ (rt.queue_zero p).listed ↔ q ∈ rt.listed := by
  have hdel := @mem_listed_list_del rt p q h
  have hcons : q ∈ (rt.queue_zero p).listed ↔ q = p ∨ q ∈ (rt.list_del p).listed := by
    simp only [listed, queue_zero, List.mem_append, List.mem_cons]
    tauto
  rw [hcons, hdel]
  by_cases hqp : q = p
  · simp [hqp, hp]
  · simp [hqp]

theorem nodup_queue_zero (h : rt.listed.Nodup) : (rt.queue_zero p).listed.Nodup := by
  have hdel := @nodup_list_del rt p h
  have hnot : p ∉ (rt.list_del p).listed := fun hp => ((mem_listed_list_del h).mp hp).1 rfl
  have hperm : (rt.queue_zero p).listed.Perm (p :: (rt.list_del p).listed) := List.perm_middle
  exact hperm.nodup_iff.mpr (List.nodup_cons.mpr ⟨hnot, hdel⟩)

theorem mem_zero_queue_zero (h : rt.listed.Nodup) :
    q ∈ (rt.queue_zero p).gc_zero_ref_count_list ↔ q = p ∨ q ∈ rt.gc_zero_ref_count_list := by
  have hz : rt.gc_zero_ref_count_list.Nodup := (List.nodup_append.mp h).2.1
  simp only [queue_zero, list_del, List.mem_cons, hz.mem_erase_iff]
  tauto

end JSRuntime

/-- The heap between two steps of a free routine: the counts, and every GC object on one of
the lists. Outside the removal of cycles, the objects that await freeing are on
`gc_zero_ref_count_list`. -/
structure Inv (rt : JSRuntime) (A P : Finset Ptr) (ext : Ptr → ℕ) : Prop where
  core : Core rt.body rt.rc rt.gc_phase A P ext
  nodup : rt.listed.Nodup
  mem_listed : ∀ p, p ∈ rt.listed ↔ ∃ b, rt.body p = some b ∧ b.isOnStack = false
  zero : rt.gc_phase ≠ .REMOVE_CYCLES →
    ∀ p ∈ A, (rt.rc p = 0 ↔ p ∈ rt.gc_zero_ref_count_list)
  rest : rt.gc_phase = .NONE → rt.gc_zero_ref_count_list = []

/-- What giving up references does to the rest of the heap: objects go, the data and the
marks of those that stay do not change. -/
structure Shrinks (rt : JSRuntime) (A : Finset Ptr) (rt' : JSRuntime) (A' : Finset Ptr) :
    Prop where
  sub : A' ⊆ A
  phase : rt'.gc_phase = rt.gc_phase
  same : ∀ p o', rt'.mem p = some o' → ∃ o, rt.mem p = some o ∧ o.body = o'.body ∧ o.mark = o'.mark
  /-- Inside the loops objects and bytecode are not freed by giving up references. -/
  freed : rt.gc_phase ≠ .NONE → ∀ p ∈ A, p ∉ A' →
    ∃ b, rt.body p = some b ∧ b.gc_obj_type.isValue = false
  zero : rt.gc_phase ≠ .NONE →
    ∀ q ∈ rt'.gc_zero_ref_count_list, q ∈ rt.gc_zero_ref_count_list ∨ q ∈ A
  tmp : rt.tmp_obj_list = [] → rt'.tmp_obj_list = []
  /-- While cycles are removed the lists lose what is freed and keep their order. -/
  filtered : rt.gc_phase = .REMOVE_CYCLES →
    rt'.gc_obj_list = rt.gc_obj_list.filter (fun q => (rt'.mem q).isSome) ∧
    rt'.tmp_obj_list = rt.tmp_obj_list.filter (fun q => (rt'.mem q).isSome) ∧
    rt'.gc_zero_ref_count_list =
      rt.gc_zero_ref_count_list.filter (fun q => (rt'.mem q).isSome)

section Steps

variable {rt rt' rt'' : JSRuntime} {A A' A'' P : Finset Ptr} {ext : Ptr → ℕ} {r : Ref} {p : Ptr}
  {o : JSGCObject}

theorem Inv.alive_of_listed (h : Inv rt A P ext) (hp : p ∈ rt.listed) : (rt.mem p).isSome := by
  obtain ⟨b, hb, -⟩ := (h.mem_listed p).mp hp
  obtain ⟨o, ho, -⟩ := rt.mem_of_body hb
  simp [ho]

theorem Inv.filter_listed (h : Inv rt A P ext) {l : List Ptr} (hl : ∀ q ∈ l, q ∈ rt.listed) :
    l.filter (fun q => (rt.mem q).isSome) = l :=
  List.filter_eq_self.mpr fun q hq => h.alive_of_listed (hl q hq)

theorem Shrinks.refl (h : Inv rt A P ext) : Shrinks rt A rt A where
  sub := Finset.Subset.refl A
  phase := rfl
  same := fun _ o' ho' => ⟨o', ho', rfl, rfl⟩
  freed := fun _ _ hp hnot => absurd hp hnot
  zero := fun _ _ hq => .inl hq
  tmp := id
  filtered := by
    intro _
    refine ⟨(h.filter_listed ?_).symm, (h.filter_listed ?_).symm, (h.filter_listed ?_).symm⟩ <;>
      · intro q hq
        simp [JSRuntime.listed, hq]

theorem Shrinks.body (h : Shrinks rt A rt' A') {q : Ptr} {b : Body} (hb : rt'.body q = some b) :
    rt.body q = some b := by
  obtain ⟨o', ho', rfl⟩ := rt'.mem_of_body hb
  obtain ⟨o, ho, hbody, -⟩ := h.same q o' ho'
  rw [rt.body_eq ho, hbody]

theorem Shrinks.isSome (h : Shrinks rt A rt' A') {q : Ptr} (hq : (rt'.mem q).isSome) :
    (rt.mem q).isSome := by
  obtain ⟨o', ho'⟩ := Option.isSome_iff_exists.mp hq
  obtain ⟨o, ho, -⟩ := h.same q o' ho'
  simp [ho]

/-- A list that loses what is freed, twice. -/
theorem Shrinks.filter_filter (h : Shrinks rt' A' rt'' A'') (l : List Ptr) :
    (l.filter fun q => (rt'.mem q).isSome).filter (fun q => (rt''.mem q).isSome) =
      l.filter fun q => (rt''.mem q).isSome := by
  rw [List.filter_filter]
  apply List.filter_congr
  intro q _
  by_cases hq : (rt''.mem q).isSome
  · simp [hq, h.isSome hq]
  · simp [hq]

theorem Shrinks.trans (h : Shrinks rt A rt' A') (h' : Shrinks rt' A' rt'' A'') :
    Shrinks rt A rt'' A'' where
  sub := h'.sub.trans h.sub
  phase := h'.phase.trans h.phase
  same := by
    intro q o'' ho''
    obtain ⟨o', ho', hb', hm'⟩ := h'.same q o'' ho''
    obtain ⟨o, ho, hb, hm⟩ := h.same q o' ho'
    exact ⟨o, ho, hb.trans hb', hm.trans hm'⟩
  freed := by
    intro hphase q hq hnot
    by_cases hq' : q ∈ A'
    · obtain ⟨b, hb, hv⟩ := h'.freed (h.phase ▸ hphase) q hq' hnot
      exact ⟨b, h.body hb, hv⟩
    · exact h.freed hphase q hq hq'
  zero := by
    intro hphase q hq
    rcases h'.zero (h.phase ▸ hphase) q hq with hq' | hq'
    · exact h.zero hphase q hq'
    · exact .inr (h.sub hq')
  tmp := fun hnil => h'.tmp (h.tmp hnil)
  filtered := by
    intro hphase
    obtain ⟨hgc, htmp, hzero⟩ := h.filtered hphase
    obtain ⟨hgc', htmp', hzero'⟩ := h'.filtered (h.phase.trans hphase)
    rw [hgc', htmp', hzero', hgc, htmp, hzero]
    exact ⟨h'.filter_filter _, h'.filter_filter _, h'.filter_filter _⟩

/-- A count is written: nothing else changes. -/
theorem Shrinks.of_count (h : Inv rt A P ext) (ho : rt.mem p = some o) (c : ℤ) :
    Shrinks rt A (rt.store p { o with ref_count := c }) A := by
  have hsome : ∀ q, ((rt.store p { o with ref_count := c }).mem q).isSome = (rt.mem q).isSome := by
    intro q
    have := congrFun (rt.body_store_count ho c) q
    simpa [JSRuntime.body] using congrArg Option.isSome this
  have hrefl := Shrinks.refl h
  refine ⟨hrefl.sub, rfl, ?_, hrefl.freed, hrefl.zero, hrefl.tmp, ?_⟩
  · intro q o' ho'
    by_cases hqp : q = p
    · subst hqp
      rw [JSRuntime.store_mem_self] at ho'
      obtain rfl := Option.some.inj ho'
      exact ⟨o, ho, rfl, rfl⟩
    · rw [JSRuntime.store_mem_of_ne _ _ _ hqp] at ho'
      exact ⟨o', ho', rfl, rfl⟩
  · intro hphase
    simp only [hsome]
    exact hrefl.filtered hphase

/-- A reference is given up, and what it refers to is neither freed nor put on a list. -/
theorem Inv.decref (h : Inv rt A P (hold r ext)) (hr : r.target = some p) (ho : rt.mem p = some o)
    (hpos : o.body.gc_obj_type.isValue = false → 1 < rt.rc p)
    (hzero : rt.gc_phase ≠ .REMOVE_CYCLES → rt.rc p ≠ 1) :
    Inv (rt.store p { o with ref_count := rt.rc p - 1 }) A P ext where
  core := by
    rw [rt.body_store_count ho, JSRuntime.rc_store]
    exact h.core.decref hr (rt.body_eq ho) hpos
  nodup := h.nodup
  mem_listed := by
    intro q
    rw [rt.body_store_count ho]
    exact h.mem_listed q
  zero := by
    intro hphase q hq
    rw [JSRuntime.rc_store]
    by_cases hqp : q = p
    · subst hqp
      have hpos : 0 < rt.rc q := h.core.pos_of_ext (by simp [hold, hr])
      have hne := hzero hphase
      rw [Function.update_self, JSRuntime.store_gc_zero_ref_count_list, ← h.zero hphase q hq]
      constructor <;> intro hz
      · exact absurd (by simpa using hz) (by omega : ¬ rt.rc q - 1 = 0)
      · omega
    · rw [Function.update_of_ne hqp]
      exact h.zero hphase q hq
  rest := h.rest

/-- The last reference to an object is given up: it is put on `gc_zero_ref_count_list`. -/
theorem Inv.enqueue (h : Inv rt A P (hold r ext)) (hr : r.target = some p) (ho : rt.mem p = some o)
    (hv : o.body.gc_obj_type.isValue = true) (hone : rt.rc p = 1)
    (hphase : rt.gc_phase = .DECREF) :
    Inv ((rt.store p { o with ref_count := rt.rc p - 1 }).queue_zero p) A P ext := by
  have hne : rt.gc_phase ≠ .REMOVE_CYCLES := by simp [hphase]
  have hlisted : p ∈ rt.listed :=
    (h.mem_listed p).mpr ⟨o.body, rt.body_eq ho, Body.isOnStack_of_isValue hv⟩
  have hbody := rt.body_store_count ho (rt.rc p - 1)
  have hrc := @JSRuntime.rc_store rt p { o with ref_count := rt.rc p - 1 }
  have hcore := h.core.decref hr (rt.body_eq ho) (by simp [hv])
  rw [← hbody, ← hrc] at hcore
  have hnodup : (rt.store p { o with ref_count := rt.rc p - 1 }).listed.Nodup := h.nodup
  refine ⟨hcore, JSRuntime.nodup_queue_zero hnodup, ?_, ?_, fun hnone => ?_⟩
  · intro q
    rw [JSRuntime.mem_listed_queue_zero hnodup hlisted]
    refine (h.mem_listed q).trans ?_
    rw [← hbody]
    rfl
  · intro _ q hq
    rw [JSRuntime.mem_zero_queue_zero hnodup]
    change (rt.store p { o with ref_count := rt.rc p - 1 }).rc q = 0 ↔ _
    rw [hrc]
    by_cases hqp : q = p
    · subst hqp
      simp [hone]
    · rw [Function.update_of_ne hqp, h.zero hne q hq]
      simp [hqp]
  · exact absurd (hphase.symm.trans hnone) (by decide)

theorem Ref.isValue_of_value (v : JSCValue) : (Ref.value v).gc_obj_type.isValue = true := by
  cases v with
  | ptr t p => cases t <;> rfl
  | _ => rfl

/-- `JS_FreeValueRT` inside the loops. -/
theorem JS_FreeValueRT_inner (free_zero : JSRuntime → Option JSRuntime) {v : JSCValue}
    (hphase : rt.gc_phase ≠ .NONE) (h : Inv rt A P (hold (.value v) ext))
    (htyped : rt.body.Typed (.value v)) :
    ∃ rt', JS_FreeValueRT free_zero v rt = some rt' ∧ Inv rt' A P ext ∧ Shrinks rt A rt' A := by
  cases ht : (Ref.value v).target with
  | none =>
    have hsame : hold (.value v) ext = ext := by
      funext q
      simp [hold, ht]
    refine ⟨rt, by simp [JS_FreeValueRT, ht], hsame ▸ h, .refl h⟩
  | some p =>
    obtain ⟨b, hb, hpos, hmem⟩ := h.core.of_hold ht
    obtain ⟨o, ho, rfl⟩ := rt.mem_of_body hb
    have hv : o.body.gc_obj_type.isValue = true := by
      rw [(htyped p o.body ht hb).1]
      exact Ref.isValue_of_value v
    have hrun : JS_FreeValueRT free_zero v rt =
        if rt.rc p - 1 ≤ 0 ∧ rt.gc_phase ≠ .REMOVE_CYCLES then
          some ((rt.store p { o with ref_count := rt.rc p - 1 }).queue_zero p)
        else some (rt.store p { o with ref_count := rt.rc p - 1 }) := by
      simp [JS_FreeValueRT, ht, JSRuntime.decref_eq ho, hphase]
    have hcount := Shrinks.of_count h ho (rt.rc p - 1)
    rw [hrun]
    split
    · next hz =>
      have hdec : rt.gc_phase = .DECREF := by
        cases hph : rt.gc_phase with
        | NONE => exact absurd hph hphase
        | DECREF => rfl
        | REMOVE_CYCLES => exact absurd hph hz.2
      refine ⟨_, rfl, h.enqueue ht ho hv (by omega) hdec, ?_⟩
      refine ⟨hcount.sub, rfl, hcount.same, hcount.freed, ?_,
        fun hnil => JSRuntime.tmp_list_del hnil, fun e => absurd e hz.2⟩
      intro _ q hq
      have hnodup : (rt.store p { o with ref_count := rt.rc p - 1 }).listed.Nodup := h.nodup
      rcases (JSRuntime.mem_zero_queue_zero hnodup).mp hq with rfl | hq
      · exact .inr (hmem fun e => hz.2 e.1)
      · exact .inl hq
    · next hz =>
      refine ⟨_, rfl, h.decref ht ho (by simp [hv]) ?_, hcount⟩
      intro hne heq
      exact hz ⟨by omega, hne⟩

/-! ## From one reference to the free routines -/

theorem Shrinks.typed (h : Shrinks rt A rt' A') (hr : rt.body.Typed r) : rt'.body.Typed r :=
  fun p b hp hb => hr p b hp (h.body hb)

/-- What no value names may be taken apart inside the loops. -/
theorem Shrinks.erase (h : Shrinks rt A rt' A) {b : Body} (hb : rt.body p = some b)
    (hv : b.gc_obj_type.isValue = false) : Shrinks rt A rt' (A.erase p) where
  sub := Finset.erase_subset p A
  phase := h.phase
  same := h.same
  freed := by
    intro _ q hq hnot
    have hqp : q = p := by
      by_contra hne
      exact hnot (Finset.mem_erase.mpr ⟨hne, hq⟩)
    exact ⟨b, hqp ▸ hb, hv⟩
  zero := h.zero
  tmp := h.tmp
  filtered := h.filtered

/-- The last reference to something that no value names is given up: it is taken apart. -/
theorem Inv.dismantle_last (h : Inv rt A P (hold r ext)) (hr : r.target = some p)
    (ho : rt.mem p = some o) (hp : p ∈ A) (hone : rt.rc p = 1) :
    Inv (rt.store p { o with ref_count := rt.rc p - 1 }) (A.erase p) (insert p P)
      (holds o.body.refs ext) where
  core := by
    rw [rt.body_store_count ho, JSRuntime.rc_store]
    refine h.core.dismantle hp (rt.body_eq ho) (fun q hq => Function.update_of_ne hq ..)
      (h.core.counted_decref hr) fun _ => ?_
    rw [Function.update_self]
    simp [hone]
  nodup := h.nodup
  mem_listed := by
    intro q
    rw [rt.body_store_count ho]
    exact h.mem_listed q
  zero := by
    intro hphase q hq
    rw [JSRuntime.rc_store, Function.update_of_ne (Finset.ne_of_mem_erase hq)]
    exact h.zero hphase q (Finset.mem_of_mem_erase hq)
  rest := h.rest

/-- What was taken apart, and is not referred to, is freed. -/
theorem Inv.finish (h : Inv rt A (insert p P) ext) (hp : p ∉ P) (hrc : rt.rc p = 0) :
    Inv ((rt.list_del p).js_free_rt p) A P ext where
  core := by
    have hcore := h.core.update (Finset.mem_insert_self p P) (b := none) (by simp) fun _ => hrc
    rw [if_pos rfl, Finset.erase_insert hp] at hcore
    have hsame : Function.update rt.rc p 0 = rt.rc := by
      rw [← hrc, Function.update_eq_self]
    rw [JSRuntime.body_js_free_rt, JSRuntime.rc_js_free_rt]
    change Core _ (Function.update rt.rc p 0) _ _ _ _
    rw [hsame]
    exact hcore
  nodup := JSRuntime.nodup_list_del h.nodup
  mem_listed := by
    intro q
    rw [JSRuntime.body_js_free_rt]
    refine (JSRuntime.mem_listed_list_del h.nodup).trans ?_
    by_cases hqp : q = p
    · simp [hqp]
    · rw [Function.update_of_ne hqp]
      exact (and_iff_right hqp).trans (h.mem_listed q)
  zero := by
    intro hphase q hq
    have hqp : q ≠ p := h.core.ne_of_mem hq (Finset.mem_insert_self p P)
    have hz : rt.gc_zero_ref_count_list.Nodup := (List.nodup_append.mp h.nodup).2.1
    rw [JSRuntime.rc_js_free_rt, Function.update_of_ne hqp]
    refine (h.zero hphase q hq).trans ?_
    change _ ↔ q ∈ rt.gc_zero_ref_count_list.erase p
    rw [hz.mem_erase_iff]
    exact (and_iff_right hqp).symm
  rest := by
    intro hnone
    change rt.gc_zero_ref_count_list.erase p = []
    rw [h.rest hnone]
    rfl

theorem Shrinks.finish (h : Inv rt A (insert p P) ext) :
    Shrinks rt A ((rt.list_del p).js_free_rt p) A where
  sub := Finset.Subset.refl A
  phase := rfl
  same := by
    intro q o' ho'
    have hqp : q ≠ p := by
      rintro rfl
      simp at ho'
    rw [JSRuntime.js_free_rt_mem_of_ne _ _ hqp] at ho'
    exact ⟨o', ho', rfl, rfl⟩
  freed := fun _ _ hp hnot => absurd hp hnot
  zero := fun _ q hq => .inl (List.mem_of_mem_erase hq)
  tmp := fun hnil => JSRuntime.tmp_list_del hnil
  filtered := by
    intro _
    -- Each list is free of repetitions, and the others on it are allocated.
    have herase : ∀ l : List Ptr, l.Nodup → (∀ q ∈ l, q ∈ rt.listed) →
        l.erase p = l.filter fun q => (((rt.list_del p).js_free_rt p).mem q).isSome := by
      intro l hl hsub
      rw [hl.erase_eq_filter]
      apply List.filter_congr
      intro q hq
      by_cases hqp : q = p
      · simp [hqp]
      · simp [hqp, h.alive_of_listed (hsub q hq)]
    have hnd := h.nodup
    simp only [JSRuntime.listed, List.nodup_append] at hnd
    refine ⟨herase _ hnd.1.1 ?_, herase _ hnd.1.2.1 ?_, herase _ hnd.2.1 ?_⟩ <;>
      · intro q hq
        simp [JSRuntime.listed, hq]

theorem Shrinks.pinned (h : Shrinks rt A rt' A') (hp : Pinned rt.body A ext) :
    Pinned rt'.body A' ext :=
  fun p hA b hb => hp p (h.sub hA) b (h.body hb)

end Steps

/-- The routine gives up a reference of the level: it has a result, the counts are right
again, and nothing else changes. -/
def Drops (ok : JSGCPhaseEnum → Prop) (drop : Ref → JSRuntime → Option JSRuntime) (n : ℕ) : Prop :=
  ∀ (r : Ref) (rt : JSRuntime) (A P : Finset Ptr) (ext : Ptr → ℕ), r.level ≤ n → ok rt.gc_phase →
    Inv rt A P (hold r ext) → Pinned rt.body A ext → rt.body.Typed r →
    ∃ rt' A', drop r rt = some rt' ∧ Inv rt' A' P ext ∧ Shrinks rt A rt' A'

section Routines

variable {ok : JSGCPhaseEnum → Prop} {drop : Ref → JSRuntime → Option JSRuntime} {n : ℕ}
  {rt : JSRuntime} {A P : Finset Ptr} {ext : Ptr → ℕ}

/-- The steps of a free routine give up all the references it holds. -/
theorem Drops.run_free (hd : Drops ok drop n) {steps : List FreeStep}
    (hlevel : ∀ r ∈ steps.filterMap FreeStep.ref, r.level ≤ n)
    (hframe : ∀ s ∈ steps.filterMap FreeStep.frame, s.var_ref_list = [] ∧ s.stack.isSome)
    (hok : ok rt.gc_phase) (h : Inv rt A P (holds (steps.filterMap FreeStep.ref) ext))
    (hpin : Pinned rt.body A ext) (htyped : ∀ r ∈ steps.filterMap FreeStep.ref, rt.body.Typed r) :
    ∃ rt' A', run_free drop steps rt = some rt' ∧ Inv rt' A' P ext ∧ Shrinks rt A rt' A' := by
  induction steps generalizing rt A with
  | nil => exact ⟨rt, A, rfl, h, .refl h⟩
  | cons step steps ih =>
    cases step with
    | drop r =>
      have hrefs : (FreeStep.drop r :: steps).filterMap FreeStep.ref =
          r :: steps.filterMap FreeStep.ref := rfl
      rw [hrefs] at hlevel h htyped
      rw [holds_cons] at h
      have hpin' : Pinned rt.body A (holds (steps.filterMap FreeStep.ref) ext) :=
        fun p hp b hb hrun => (hpin p hp b hb hrun).trans_le (le_holds _ _ _)
      obtain ⟨rt₁, A₁, hrun, hinv, hsh⟩ := hd r rt A P _ (hlevel r (by simp)) hok h hpin'
        (htyped r (by simp))
      obtain ⟨rt', A', hrun', hinv', hsh'⟩ := ih (fun r hr => hlevel r (by simp [hr])) hframe
        (hsh.phase ▸ hok) hinv (hsh.pinned hpin) (fun r hr => hsh.typed (htyped r (by simp [hr])))
      exact ⟨rt', A', by rw [Gc.run_free, hrun]; exact hrun', hinv', hsh.trans hsh'⟩
    | close s =>
      have hframes : (FreeStep.close s :: steps).filterMap FreeStep.frame =
          s :: steps.filterMap FreeStep.frame := rfl
      rw [hframes] at hframe
      obtain ⟨hopen, hstack⟩ := hframe s (by simp)
      obtain ⟨rt', A', hrun', hinv', hsh'⟩ := ih hlevel (fun s hs => hframe s (by simp [hs])) hok h
        hpin htyped
      refine ⟨rt', A', ?_, hinv', hsh'⟩
      rw [Gc.run_free, hopen, close_var_refs]
      simpa [hstack] using hrun'

/-- Something that no value names and that nothing else refers to is taken apart and freed. -/
theorem Drops.free_contents (hd : Drops ok drop n) {r : Ref} {p : Ptr} {o : JSGCObject}
    (hr : r.target = some p) (ho : rt.mem p = some o) (hlevel : o.body.gc_obj_type.level ≤ n + 1)
    (hv : o.body.gc_obj_type.isValue = false) (hok : ok rt.gc_phase)
    (h : Inv rt A P (hold r ext)) (hpin : Pinned rt.body A ext) (hp : p ∈ A) (hone : rt.rc p = 1) :
    ∃ rt' A', free_contents drop p (rt.store p { o with ref_count := rt.rc p - 1 }) = some rt' ∧
      Inv rt' A' P ext ∧ Shrinks rt A rt' A' := by
  have hb := rt.body_eq ho
  have hpP : p ∉ P := fun hP => h.core.ne_of_mem hp hP rfl
  have hdis := h.dismantle_last hr ho hp hone
  have hsh := (Shrinks.of_count h ho (rt.rc p - 1)).erase hb hv
  -- The reference given up was the last, so nothing outside holds one and nothing runs.
  have hext : ext p = 0 := by
    have := h.core.counted p
    simp only [hold, hr, if_pos] at this
    omega
  have hframe : ∀ s ∈ o.body.frames, s.var_ref_list = [] ∧ s.stack.isSome := by
    intro s hs
    refine ⟨(h.core.closed p hp o.body hb).1 s hs, ?_⟩
    by_contra hstack
    have := hpin p hp o.body hb ⟨s, hs, by simpa using hstack⟩
    omega
  have htyped : ∀ r ∈ o.body.refs, rt.body.Typed r := by
    intro r' hr'
    exact h.core.typed p hp r' (by rw [Bodies.refs_of_some hb]; exact hr')
  have hok' : ok (rt.store p { o with ref_count := rt.rc p - 1 }).gc_phase := hok
  obtain ⟨rt₂, A₂, hrun, hinv, hsh₂⟩ := hd.run_free
    (fun r' hr' => by have := Body.level_lt hr'; omega) hframe hok' hdis (hsh.pinned hpin)
    (fun r' hr' => hsh.typed (htyped r' hr'))
  have hrc : rt₂.rc p = 0 := by
    cases hmem : rt₂.mem p with
    | none => simp [JSRuntime.rc, hmem]
    | some o₂ =>
      refine hinv.core.idle p (Finset.mem_insert_self p P) o₂.body (rt₂.body_eq hmem) fun _ => ?_
      have hsame := hsh.body (hsh₂.body (rt₂.body_eq hmem))
      rw [hb] at hsame
      exact Option.some.inj hsame ▸ hv
  refine ⟨_, A₂, ?_, hinv.finish hpP hrc, hsh.trans (hsh₂.trans (.finish hinv))⟩
  simp [Gc.free_contents, hrun]

/-- A routine that does what it has to once the count is known gives up a reference. -/
theorem Drops.of_release (hd : Drops ok drop n) {r : Ref} {p : Ptr} (hr : r.target = some p)
    (hlevel : r.level ≤ n + 1) (hvalue : r.gc_obj_type.isValue = false) (hok : ok rt.gc_phase)
    (h : Inv rt A P (hold r ext)) (hpin : Pinned rt.body A ext) (htyped : rt.body.Typed r)
    {res : Option JSRuntime}
    (hres : ∀ o, rt.mem p = some o → p ∈ A → 0 < rt.rc p →
      res = if rt.rc p = 1 then
          Gc.free_contents drop p (rt.store p { o with ref_count := rt.rc p - 1 })
        else some (rt.store p { o with ref_count := rt.rc p - 1 })) :
    ∃ rt' A', res = some rt' ∧ Inv rt' A' P ext ∧ Shrinks rt A rt' A' := by
  obtain ⟨b, hb, hpos, hmem⟩ := h.core.of_hold hr
  obtain ⟨o, ho, rfl⟩ := rt.mem_of_body hb
  have htype : o.body.gc_obj_type = r.gc_obj_type := (htyped p o.body hr hb).1
  have hp : p ∈ A := hmem (by simp [htype, hvalue])
  rw [hres o ho hp hpos]
  split
  · next hone =>
    refine hd.free_contents hr ho ?_ (by rw [htype, hvalue]) hok h hpin hp hone
    rw [htype, ← Ref.level_eq hvalue]
    exact hlevel
  · next hone =>
    have hgt : 1 < rt.rc p := by omega
    exact ⟨_, A, rfl, h.decref hr ho (fun _ => hgt) (fun _ => hone), .of_count h ho _⟩

/-- A closure variable on the stack of a C call: nothing is given up and it is on no list. -/
theorem free_contents_onStack {p : Ptr} {o : JSGCObject} {i : ℕ} (h : Inv rt A P ext)
    (ho : rt.mem p = some o) (hb : o.body = .var_ref (.onStack none i)) (c : ℤ) :
    Gc.free_contents drop p (rt.store p { o with ref_count := c }) =
      some ((rt.store p { o with ref_count := c }).js_free_rt p) := by
  have hnot : p ∉ rt.listed := by
    rw [h.mem_listed p, rt.body_eq ho, hb]
    rintro ⟨b, hb', hon⟩
    obtain rfl := Option.some.inj hb'
    simp [Body.isOnStack, JSVarRef.is_detached] at hon
  simp only [JSRuntime.listed, List.mem_append, not_or] at hnot
  have hdel : (rt.store p { o with ref_count := c }).list_del p =
      rt.store p { o with ref_count := c } := by
    simp [JSRuntime.list_del, JSRuntime.store, List.erase_of_not_mem hnot.1.1,
      List.erase_of_not_mem hnot.1.2, List.erase_of_not_mem hnot.2]
  have hfree : o.body.free = [] := by
    rw [hb]
    rfl
  rw [Gc.free_contents, JSRuntime.store_mem_self]
  change (Gc.run_free drop o.body.free _).bind _ = _
  rw [hfree]
  change some (JSRuntime.js_free_rt (JSRuntime.list_del _ p) p) = _
  rw [hdel]

theorem free_var_ref_eq {p : Ptr} {o : JSGCObject} (h : Inv rt A P ext) (ho : rt.mem p = some o)
    (hp : p ∈ A) (hpos : 0 < rt.rc p) :
    Gc.free_var_ref drop p rt = if rt.rc p = 1 then
        Gc.free_contents drop p (rt.store p { o with ref_count := rt.rc p - 1 })
      else some (rt.store p { o with ref_count := rt.rc p - 1 }) := by
  have hrc := rt.rc_eq ho
  have hzero : rt.rc p - 1 = 0 ↔ rt.rc p = 1 := by omega
  simp only [Gc.free_var_ref, ho, Option.bind_eq_bind, Option.bind_some, ← hrc, hpos, guard,
    if_pos, JSRuntime.decref_eq ho, hzero]
  split
  · split
    · next frame i hb =>
      -- Of a frame that is not the frame of a C call no variable is open.
      obtain rfl := (h.core.closed p hp o.body (rt.body_eq ho)).2 frame i hb
      rw [free_contents_onStack h ho hb]
      rfl
    · rfl
  · rfl

/-- The routines that give up a reference to something that no value names. -/
theorem Drops.succ {free_value : JSCValue → JSRuntime → Option JSRuntime}
    (hd : Drops ok (free_ref free_value n) n) : Drops ok (free_ref free_value (n + 1)) (n + 1) := by
  intro r rt A P ext hlevel hok h hpin htyped
  cases r with
  | value v =>
    have hv := hd (.value v) rt A P ext (Nat.zero_le n) hok h hpin htyped
    cases n <;> exact hv
  | shape p =>
    refine hd.of_release rfl hlevel rfl hok h hpin htyped fun o ho _ hpos => ?_
    have hle : rt.rc p - 1 ≤ 0 ↔ rt.rc p = 1 := by omega
    simp only [free_ref, js_free_shape, JSRuntime.decref_eq ho]
    split <;> simp_all [guard]
  | var_ref p =>
    exact hd.of_release rfl hlevel rfl hok h hpin htyped fun o ho hp hpos =>
      free_var_ref_eq h ho hp hpos
  | export_var p =>
    exact hd.of_release rfl hlevel rfl hok h hpin htyped fun o ho hp hpos =>
      free_var_ref_eq h ho hp hpos
  | async_function p =>
    refine hd.of_release rfl hlevel rfl hok h hpin htyped fun o ho _ hpos => ?_
    have hle : rt.rc p - 1 = 0 ↔ rt.rc p = 1 := by omega
    simp [free_ref, js_async_function_free, JSRuntime.decref_eq ho, hle]
  | context p =>
    refine hd.of_release rfl hlevel rfl hok h hpin htyped fun o ho _ hpos => ?_
    have hle : 0 < rt.rc p - 1 ↔ rt.rc p ≠ 1 := by omega
    simp only [free_ref, JS_FreeContext, JSRuntime.decref_eq ho]
    split <;> simp_all [guard]

/-- Inside the loops every routine gives up its reference. -/
theorem drops_inner (free_zero : JSRuntime → Option JSRuntime) (n : ℕ) :
    Drops (· ≠ .NONE) (free_ref (JS_FreeValueRT free_zero) n) n := by
  induction n with
  | zero =>
    intro r rt A P ext hlevel hphase h hpin htyped
    cases r with
    | value v =>
      obtain ⟨rt', hrun, hinv, hsh⟩ := JS_FreeValueRT_inner free_zero hphase h htyped
      exact ⟨rt', A, hrun, hinv, hsh⟩
    | _ => simp [Ref.level] at hlevel
  | succ n ih => exact ih.succ

end Routines

/-! ## Freeing an object -/

section Objects

variable {rt rt' : JSRuntime} {A A' P P' : Finset Ptr} {ext : Ptr → ℕ} {p : Ptr} {o : JSGCObject}

/-- What freeing an object does to the rest of the heap. -/
structure Frees (p : Ptr) (rt : JSRuntime) (A P : Finset Ptr) (rt' : JSRuntime)
    (A' P' : Finset Ptr) : Prop where
  sub : A' ⊆ A.erase p
  phase : rt'.gc_phase = rt.gc_phase
  same : ∀ q, q ≠ p → ∀ o', rt'.mem q = some o' →
    ∃ o, rt.mem q = some o ∧ o.body = o'.body ∧ o.mark = o'.mark
  freed : ∀ q ∈ A, q ≠ p → q ∉ A' → ∃ b, rt.body q = some b ∧ b.gc_obj_type.isValue = false
  tmp : rt.tmp_obj_list = [] → rt'.tmp_obj_list = []
  /-- Without a cycle the object is gone. -/
  decref : rt.gc_phase = .DECREF → P' = P ∧
    ∀ q ∈ rt'.gc_zero_ref_count_list, q ≠ p ∧ (q ∈ rt.gc_zero_ref_count_list ∨ q ∈ A)
  /-- In a cycle it may stay allocated, on `gc_zero_ref_count_list`. -/
  cycles : rt.gc_phase = .REMOVE_CYCLES →
    (P' = P ∧ rt'.mem p = none ∨ P' = insert p P ∧ p ∈ rt'.gc_zero_ref_count_list ∧
      ∀ b, rt'.body p = some b → b.gc_obj_type.isValue = true) ∧
    rt'.gc_obj_list = (rt.gc_obj_list.filter (fun q => (rt'.mem q).isSome)).erase p ∧
    rt'.tmp_obj_list = (rt.tmp_obj_list.filter (fun q => (rt'.mem q).isSome)).erase p ∧
    ∀ q, q ≠ p → (q ∈ rt'.gc_zero_ref_count_list ↔
      q ∈ rt.gc_zero_ref_count_list ∧ (rt'.mem q).isSome)

/-- The data of what is being taken apart is overwritten. -/
theorem Inv.rebody (h : Inv rt A P ext) (hp : p ∈ P) (ho : rt.mem p = some o) {b : Body}
    (htype : b.gc_obj_type = o.body.gc_obj_type) (hstack : b.isOnStack = o.body.isOnStack) :
    Inv (rt.store p { o with body := b }) A P ext := by
  have hrc : (rt.store p { o with body := b }).rc = rt.rc := by
    rw [JSRuntime.rc_store]
    change Function.update rt.rc p o.ref_count = rt.rc
    rw [← rt.rc_eq ho, Function.update_eq_self]
  refine ⟨?_, h.nodup, ?_, ?_, h.rest⟩
  · have hcore := h.core.update hp (b := some b)
      (fun b' hb' => ⟨o.body, rt.body_eq ho, by rw [← Option.some.inj hb', htype],
        by rw [← Option.some.inj hb', hstack]⟩) (by simp)
    rw [hrc, JSRuntime.body_store]
    exact hcore
  · intro q
    refine (h.mem_listed q).trans ?_
    rw [JSRuntime.body_store]
    by_cases hqp : q = p
    · subst hqp
      simp [rt.body_eq ho, hstack]
    · rw [Function.update_of_ne hqp]
  · rw [hrc]
    exact h.zero

theorem Inv.move_to_zero (h : Inv rt A P ext) (hp : p ∈ rt.listed) (hphase : rt.gc_phase = .REMOVE_CYCLES) :
    Inv (rt.move_to_zero p) A P ext := by
  have hassoc : (rt.move_to_zero p).listed = (rt.list_del p).listed ++ [p] := (List.append_assoc ..).symm
  have hnot : p ∉ (rt.list_del p).listed :=
    fun hmem => ((JSRuntime.mem_listed_list_del h.nodup).mp hmem).1 rfl
  refine ⟨h.core, ?_, ?_, fun hne => absurd hphase hne, fun hnone => ?_⟩
  · rw [hassoc, List.nodup_append]
    refine ⟨JSRuntime.nodup_list_del h.nodup, List.nodup_singleton p, ?_⟩
    intro a ha b hb
    rw [List.mem_singleton] at hb
    rintro rfl
    exact hnot (hb ▸ ha)
  · intro q
    rw [hassoc, List.mem_append, JSRuntime.mem_listed_list_del h.nodup, List.mem_singleton]
    refine Iff.trans ?_ (h.mem_listed q)
    by_cases hqp : q = p
    · simp [hqp, hp]
    · simp [hqp]
  · exact absurd (hphase.symm.trans hnone) (by decide)

theorem filter_move_to_zero (h : Inv rt A P ext) (l : List Ptr) (hl : ∀ q ∈ l, q ∈ rt.listed) :
    l.filter (fun q => ((rt.move_to_zero p).mem q).isSome) = l :=
  h.filter_listed hl

/-- The end of `free_object`: the object is freed, or kept for those that still refer to
it. -/
theorem Inv.dispose (h : Inv rt A (insert p P) ext) (hp : p ∉ P) (ho : rt.mem p = some o)
    (hv : o.body.gc_obj_type.isValue = true) (hzero : rt.gc_phase = .DECREF → rt.rc p = 0)
    (hphase : rt.gc_phase ≠ .NONE) :
    ∃ rt' P', Gc.dispose p rt = some rt' ∧ Inv rt' A P' ext ∧ Frees p rt (insert p A) P rt' A P' := by
  have hrc := rt.rc_eq ho
  have hpA : p ∉ A := fun hA => h.core.ne_of_mem hA (Finset.mem_insert_self p P) rfl
  have hnd := h.nodup
  simp only [JSRuntime.listed, List.nodup_append] at hnd
  have hlisted : p ∈ rt.listed :=
    (h.mem_listed p).mpr ⟨o.body, rt.body_eq ho, Body.isOnStack_of_isValue hv⟩
  have hsub : A ⊆ (insert p A).erase p := by
    rw [Finset.erase_insert hpA]
  have hfreed : ∀ q ∈ insert p A, q ≠ p → q ∉ A →
      ∃ b, rt.body q = some b ∧ b.gc_obj_type.isValue = false :=
    fun q hq hqp hnot => absurd (Finset.mem_of_mem_insert_of_ne hq hqp) hnot
  by_cases hkeep : rt.gc_phase = .REMOVE_CYCLES ∧ o.ref_count ≠ 0
  · -- The object stays allocated, on the list of those that await the end of the phase.
    refine ⟨rt.move_to_zero p, insert p P, by simp [Gc.dispose, ho, hkeep, JSRuntime.move_to_zero],
      h.move_to_zero hlisted hkeep.1, hsub, rfl, fun q _ o' ho' => ⟨o', ho', rfl, rfl⟩, hfreed, ?_, ?_, ?_⟩
    · intro hnil
      simp [JSRuntime.move_to_zero, JSRuntime.list_del, hnil]
    · intro hdec
      rw [hkeep.1] at hdec
      exact absurd hdec (by decide)
    · intro _
      have hvalue : ∀ b, rt.body p = some b → b.gc_obj_type.isValue = true := by
        intro b hb
        rw [rt.body_eq ho] at hb
        exact Option.some.inj hb ▸ hv
      refine ⟨.inr ⟨rfl, by simp [JSRuntime.move_to_zero], hvalue⟩, ?_, ?_, ?_⟩
      · rw [filter_move_to_zero h _ fun q hq => by simp [JSRuntime.listed, hq]]
        rfl
      · rw [filter_move_to_zero h _ fun q hq => by simp [JSRuntime.listed, hq]]
        rfl
      · intro q hqp
        have hmem : q ∈ rt.gc_zero_ref_count_list → (rt.mem q).isSome := fun hq =>
          h.alive_of_listed (by simp [JSRuntime.listed, hq])
        simp only [JSRuntime.move_to_zero, JSRuntime.list_del, List.mem_append, hnd.2.1.mem_erase_iff,
          List.mem_singleton, hqp, or_false, ne_eq, not_false_eq_true, true_and]
        exact ⟨fun hq => ⟨hq, hmem hq⟩, And.left⟩
  · have hgone : rt.rc p = 0 := by
      cases hph : rt.gc_phase with
      | NONE => exact absurd hph hphase
      | DECREF => exact hzero hph
      | REMOVE_CYCLES =>
        by_contra hne
        exact hkeep ⟨hph, hrc ▸ hne⟩
    have hfin := Shrinks.finish h
    refine ⟨(rt.list_del p).js_free_rt p, P, by simp [Gc.dispose, ho, hkeep], h.finish hp hgone,
      hsub, rfl, fun q _ => hfin.same q, hfreed, hfin.tmp, ?_, ?_⟩
    · intro _
      refine ⟨rfl, fun q hq => ?_⟩
      have hq' := hnd.2.1.mem_erase_iff.mp hq
      exact ⟨hq'.1, .inl hq'.2⟩
    · intro hcyc
      obtain ⟨hgc, htmp, hz⟩ := hfin.filtered hcyc
      have hnot : ∀ l : List Ptr,
          p ∉ l.filter fun q => (((rt.list_del p).js_free_rt p).mem q).isSome := by
        intro l hmem
        simpa using (List.mem_filter.mp hmem).2
      refine ⟨.inl ⟨rfl, by simp⟩, ?_, ?_, ?_⟩
      · rw [List.erase_of_not_mem (hnot _)]
        exact hgc
      · rw [List.erase_of_not_mem (hnot _)]
        exact htmp
      · intro q _
        rw [hz, List.mem_filter]

/-- The same heap, but for what is at one address. -/
structure Alike (p : Ptr) (rt rt' : JSRuntime) : Prop where
  mem : ∀ q, q ≠ p → rt'.mem q = rt.mem q
  gc_obj_list : rt'.gc_obj_list = rt.gc_obj_list
  tmp_obj_list : rt'.tmp_obj_list = rt.tmp_obj_list
  gc_zero_ref_count_list : rt'.gc_zero_ref_count_list = rt.gc_zero_ref_count_list
  gc_phase : rt'.gc_phase = rt.gc_phase

theorem Alike.refl (p : Ptr) (rt : JSRuntime) : Alike p rt rt := ⟨fun _ _ => rfl, rfl, rfl, rfl, rfl⟩

theorem Alike.store (p : Ptr) (rt : JSRuntime) (o : JSGCObject) : Alike p rt (rt.store p o) :=
  ⟨fun _ hq => rt.store_mem_of_ne p o hq, rfl, rfl, rfl, rfl⟩

/-- Taking an object apart: its references are given up, and it is disposed of. -/
theorem Frees.of_shrinks {rt₁ rt₂ rt₃ rt₄ : JSRuntime} {A₂ : Finset Ptr} (h₁ : Alike p rt rt₁)
    (h₂ : Shrinks rt₁ (A.erase p) rt₂ A₂) (h₃ : Alike p rt₂ rt₃)
    (h₄ : Frees p rt₃ (insert p A₂) P rt₄ A₂ P') (hp₂ : (rt₂.mem p).isSome)
    (hphase : rt.gc_phase ≠ .NONE) : Frees p rt A P rt₄ A₂ P' := by
  have hph₁ : rt₁.gc_phase = rt.gc_phase := h₁.gc_phase
  have hph₃ : rt₃.gc_phase = rt.gc_phase := h₃.gc_phase.trans (h₂.phase.trans hph₁)
  have halive : ∀ q, (rt₄.mem q).isSome → (rt₂.mem q).isSome := by
    intro q hs
    by_cases hqp : q = p
    · rw [hqp]
      exact hp₂
    · obtain ⟨o₄, ho₄⟩ := Option.isSome_iff_exists.mp hs
      obtain ⟨o₃, ho₃, -⟩ := h₄.same q hqp o₄ ho₄
      rw [← h₃.mem q hqp, ho₃]
      rfl
  have hfilter : ∀ l : List Ptr,
      (l.filter fun q => (rt₂.mem q).isSome).filter (fun q => (rt₄.mem q).isSome) =
        l.filter fun q => (rt₄.mem q).isSome := by
    intro l
    rw [List.filter_filter]
    apply List.filter_congr
    intro q _
    by_cases hs : (rt₄.mem q).isSome
    · simp [hs, halive q hs]
    · simp [hs]
  refine ⟨h₂.sub, h₄.phase.trans hph₃, ?_, ?_, ?_, ?_, ?_⟩
  · intro q hqp o' ho'
    obtain ⟨o₃, ho₃, hb₃, hm₃⟩ := h₄.same q hqp o' ho'
    rw [h₃.mem q hqp] at ho₃
    obtain ⟨o₁, ho₁, hb₁, hm₁⟩ := h₂.same q o₃ ho₃
    rw [h₁.mem q hqp] at ho₁
    exact ⟨o₁, ho₁, hb₁.trans hb₃, hm₁.trans hm₃⟩
  · intro q hq hqp hnot
    obtain ⟨b, hb, hv⟩ := h₂.freed (hph₁ ▸ hphase) q (Finset.mem_erase.mpr ⟨hqp, hq⟩) hnot
    refine ⟨b, ?_, hv⟩
    rwa [JSRuntime.body, h₁.mem q hqp] at hb
  · intro hnil
    rw [← h₁.tmp_obj_list] at hnil
    exact h₄.tmp (h₃.tmp_obj_list.trans (h₂.tmp hnil))
  · intro hdec
    obtain ⟨hP, hz⟩ := h₄.decref (hph₃.trans hdec)
    refine ⟨hP, fun q hq => ?_⟩
    obtain ⟨hqp, hq' | hq'⟩ := hz q hq
    · rw [h₃.gc_zero_ref_count_list] at hq'
      refine ⟨hqp, ?_⟩
      rcases h₂.zero (hph₁ ▸ hphase) q hq' with hz₁ | hA
      · exact .inl (h₁.gc_zero_ref_count_list ▸ hz₁)
      · exact .inr (Finset.mem_of_mem_erase hA)
    · exact ⟨hqp, .inr (Finset.mem_of_mem_erase (h₂.sub (Finset.mem_of_mem_insert_of_ne hq' hqp)))⟩
  · intro hcyc
    obtain ⟨hP, hgc, htmp, hz⟩ := h₄.cycles (hph₃.trans hcyc)
    obtain ⟨hgc₂, htmp₂, hz₂⟩ := h₂.filtered (hph₁.trans hcyc)
    refine ⟨hP, ?_, ?_, ?_⟩
    · rw [hgc, h₃.gc_obj_list, hgc₂, hfilter, h₁.gc_obj_list]
    · rw [htmp, h₃.tmp_obj_list, htmp₂, hfilter, h₁.tmp_obj_list]
    · intro q hqp
      rw [hz q hqp, h₃.gc_zero_ref_count_list, hz₂, List.mem_filter, h₁.gc_zero_ref_count_list]
      constructor
      · rintro ⟨⟨hq, -⟩, hs⟩
        exact ⟨hq, hs⟩
      · rintro ⟨hq, hs⟩
        exact ⟨⟨hq, halive q hs⟩, hs⟩

/-- The references of an object are given up. -/
theorem Inv.take_apart (h : Inv rt A P ext) (hp : p ∈ A) (ho : rt.mem p = some o)
    (hv : o.body.gc_obj_type.isValue = true) (hphase : rt.gc_phase ≠ .NONE)
    (hzero : rt.gc_phase = .DECREF → rt.rc p = 0) (hext : ext p = 0)
    (hpin : Pinned rt.body A ext) {b : Body} (htype : b.gc_obj_type = o.body.gc_obj_type) :
    ∃ rt₂ A₂ o₂, run_free free_ref_inner o.body.free (rt.store p { o with body := b }) = some rt₂ ∧
      Inv rt₂ A₂ (insert p P) ext ∧
      Shrinks (rt.store p { o with body := b }) (A.erase p) rt₂ A₂ ∧
      rt₂.mem p = some o₂ ∧ o₂.body = b := by
  have hb := rt.body_eq ho
  have hstack : b.isOnStack = o.body.isOnStack := by
    rw [Body.isOnStack_of_isValue hv, Body.isOnStack_of_isValue (htype ▸ hv)]
  have hdis : Inv rt (A.erase p) (insert p P) (holds o.body.refs ext) := by
    refine ⟨?_, h.nodup, h.mem_listed, fun hne q hq => h.zero hne q (Finset.mem_of_mem_erase hq),
      h.rest⟩
    refine h.core.dismantle hp hb (fun _ _ => rfl) h.core.counted fun hidle => ?_
    cases hph : rt.gc_phase with
    | NONE => exact absurd hph hphase
    | DECREF => exact hzero hph
    | REMOVE_CYCLES => simp [hv, hph] at hidle
  have hre := hdis.rebody (Finset.mem_insert_self p P) ho htype hstack
  have hframe : ∀ s ∈ o.body.frames, s.var_ref_list = [] ∧ s.stack.isSome := by
    intro s hs
    refine ⟨(h.core.closed p hp o.body hb).1 s hs, ?_⟩
    by_contra hnone
    have := hpin p hp o.body hb ⟨s, hs, by simpa using hnone⟩
    omega
  have hpin' : Pinned (rt.store p { o with body := b }).body (A.erase p) ext := by
    intro q hq bq hbq
    rw [JSRuntime.body_store, Function.update_of_ne (Finset.ne_of_mem_erase hq)] at hbq
    exact hpin q (Finset.mem_of_mem_erase hq) bq hbq
  have htyped : ∀ r ∈ o.body.refs, (rt.store p { o with body := b }).body.Typed r := by
    intro r hr q bq hq hbq
    have ht := h.core.typed p hp r (by rw [Bodies.refs_of_some hb]; exact hr) q
    rw [JSRuntime.body_store] at hbq
    by_cases hqp : q = p
    · subst hqp
      rw [Function.update_self] at hbq
      rw [← Option.some.inj hbq, htype, hstack]
      exact ht o.body hq hb
    · rw [Function.update_of_ne hqp] at hbq
      exact ht bq hq hbq
  have hphase' : (rt.store p { o with body := b }).gc_phase ≠ .NONE := hphase
  obtain ⟨rt₂, A₂, hrun, hinv, hsh⟩ := (drops_inner (fun _ => none) 2).run_free
    (fun r _ => r.level_le_two) hframe hphase' hre hpin' htyped
  obtain ⟨b₂, hb₂⟩ := Option.isSome_iff_exists.mp
    ((hinv.core.alive p).mpr (.inr (Finset.mem_insert_self p P)))
  obtain ⟨o₂, ho₂, rfl⟩ := rt₂.mem_of_body hb₂
  have hsame := hsh.body hb₂
  rw [JSRuntime.body_store, Function.update_self] at hsame
  exact ⟨rt₂, A₂, o₂, hrun, hinv, hsh, ho₂, (Option.some.inj hsame).symm⟩

/-- `free_gc_object` of an object that nothing outside refers to. -/
theorem Inv.free_gc_object (h : Inv rt A P ext) (hp : p ∈ A) (ho : rt.mem p = some o)
    (hv : o.body.gc_obj_type.isValue = true) (hphase : rt.gc_phase ≠ .NONE)
    (hzero : rt.gc_phase = .DECREF → rt.rc p = 0) (hext : ext p = 0)
    (hpin : Pinned rt.body A ext) :
    ∃ rt' A' P', Gc.free_gc_object p rt = some rt' ∧ Inv rt' A' P' ext ∧
      Frees p rt A P rt' A' P' := by
  have hpP : p ∉ P := fun hP => h.core.ne_of_mem hp hP rfl
  have hidle : ∀ {rt₂ : JSRuntime} {A₂ : Finset Ptr} {o₂ : JSGCObject},
      Inv rt₂ A₂ (insert p P) ext → rt₂.mem p = some o₂ → rt₂.gc_phase = .DECREF →
      rt₂.rc p = 0 := by
    intro rt₂ A₂ o₂ hinv ho₂ hdec
    refine hinv.core.idle p (Finset.mem_insert_self p P) o₂.body (rt₂.body_eq ho₂) ?_
    intro hcyc
    rw [hdec] at hcyc
    exact absurd hcyc (by decide)
  cases hb : o.body with
  | object ob =>
    obtain ⟨rt₂, A₂, o₂, hrun, hinv, hsh, ho₂, hb₂⟩ := h.take_apart hp ho hv hphase hzero hext hpin
      (b := .object { ob with free_mark := true }) (by rw [hb]; rfl)
    have hclear := hinv.rebody (Finset.mem_insert_self p P) ho₂
      (b := .object { free_mark := true, shape := none, prop := [], u := .none })
      (by rw [hb₂]; rfl) (by rw [hb₂]; rfl)
    have hph : rt₂.gc_phase = rt.gc_phase := hsh.phase
    obtain ⟨rt', P', hdisp, hinv', hfrees⟩ := hclear.dispose hpP (rt₂.store_mem_self p _) rfl
      (hidle hclear (rt₂.store_mem_self p _)) (hph ▸ hphase)
    refine ⟨rt', A₂, P', ?_, hinv', .of_shrinks (.store p rt _) hsh (.store p rt₂ _) hfrees
      (by simp [ho₂]) hphase⟩
    rw [hb] at hrun
    simp [Gc.free_gc_object, ho, hb, free_object, hrun, ho₂, hdisp]
  | function_bytecode cpool realm =>
    obtain ⟨rt₂, A₂, o₂, hrun, hinv, hsh, ho₂, hb₂⟩ := h.take_apart hp ho hv hphase hzero hext hpin
      (b := o.body) rfl
    have hph : rt₂.gc_phase = rt.gc_phase := hsh.phase
    obtain ⟨rt', P', hdisp, hinv', hfrees⟩ := hinv.dispose hpP ho₂ (by rw [hb₂]; exact hv)
      (hidle hinv ho₂) (hph ▸ hphase)
    refine ⟨rt', A₂, P', ?_, hinv', .of_shrinks (.store p rt _) hsh (.refl p rt₂) hfrees
      (by simp [ho₂]) hphase⟩
    have hself : rt.store p { o with body := o.body } = rt := by
      simp [JSRuntime.store, ← ho]
    rw [hself, hb] at hrun
    simp [Gc.free_gc_object, ho, hb, free_function_bytecode, hrun, hdisp]
  | _ => simp [hb, Body.gc_obj_type, JSGCObjectTypeEnum.isValue] at hv

/-! ## `free_zero_refcount` -/

/-- The phases outside the removal of cycles differ in what the list may hold. -/
theorem Core.phase_congr {body : Bodies} {rc : Ptr → ℤ} {phase phase' : JSGCPhaseEnum}
    (h : Core body rc phase A P ext) (hne : phase ≠ .REMOVE_CYCLES) : Core body rc phase' A P ext :=
  ⟨h.alive, h.disjoint, h.counted, h.typed, h.closed, h.positive,
    fun p hp b hb _ => h.idle p hp b hb fun e => absurd e hne, h.unallocated⟩

/-- What is on the list of a heap in which it is being emptied is an object that nothing
refers to. -/
theorem Inv.of_zero (h : Inv rt A P ext) (hdec : rt.gc_phase = .DECREF) (hp : p ∈ A)
    (hz : p ∈ rt.gc_zero_ref_count_list) :
    ∃ o, rt.mem p = some o ∧ o.body.gc_obj_type.isValue = true ∧ rt.rc p = 0 ∧ ext p = 0 := by
  have hrc : rt.rc p = 0 := (h.zero (by simp [hdec]) p hp).mpr hz
  obtain ⟨b, hb⟩ := h.core.exists_of_mem hp
  obtain ⟨o, ho, rfl⟩ := rt.mem_of_body hb
  refine ⟨o, ho, ?_, hrc, ?_⟩
  · by_contra hv
    have := h.core.positive p hp o.body hb (by simpa using hv)
    omega
  · have := h.core.counted p
    omega

theorem Frees.body (hf : Frees p rt A P rt' A' P') {q : Ptr} (hqp : q ≠ p) {b : Body}
    (hb : rt'.body q = some b) : rt.body q = some b := by
  obtain ⟨o', ho', rfl⟩ := rt'.mem_of_body hb
  obtain ⟨o, ho, hbody, -⟩ := hf.same q hqp o' ho'
  exact hbody ▸ rt.body_eq ho

theorem Frees.pinned (hf : Frees p rt A P rt' A' P') (hpin : Pinned rt.body A ext) :
    Pinned rt'.body A' ext := by
  intro q hq b hb
  have hqe := hf.sub hq
  exact hpin q (Finset.mem_of_mem_erase hqe) b (hf.body (Finset.ne_of_mem_erase hqe) hb)

theorem Frees.gone (hf : Frees p rt A P rt' A' P) (h : Inv rt A P ext) (h' : Inv rt' A' P ext)
    (hp : p ∈ A) : rt'.mem p = none := by
  cases hmem : rt'.mem p with
  | none => rfl
  | some o =>
    rcases (h'.core.alive p).mp (by simp [JSRuntime.body, hmem]) with hA | hP
    · exact absurd rfl (Finset.ne_of_mem_erase (hf.sub hA))
    · exact absurd rfl (h.core.ne_of_mem hp hP)

/-- Every turn of the loop frees an object that was on a list. -/
theorem Frees.listed_lt (hf : Frees p rt A P rt' A' P) (h : Inv rt A P ext)
    (h' : Inv rt' A' P ext) (hp : p ∈ A) (hl : p ∈ rt.listed) :
    rt'.listed.length < rt.listed.length := by
  have hgone := hf.gone h h' hp
  have hsub : rt'.listed ⊆ rt.listed.erase p := by
    intro q hq
    obtain ⟨b, hb, hs⟩ := (h'.mem_listed q).mp hq
    obtain ⟨o', ho', rfl⟩ := rt'.mem_of_body hb
    have hqp : q ≠ p := by
      rintro rfl
      simp [hgone] at ho'
    obtain ⟨o, ho, hbody, -⟩ := hf.same q hqp o' ho'
    rw [h.nodup.mem_erase_iff]
    exact ⟨hqp, (h.mem_listed q).mpr ⟨o.body, rt.body_eq ho, hbody ▸ hs⟩⟩
  have hlen := (h'.nodup.subperm hsub).length_le
  rw [List.length_erase_of_mem hl] at hlen
  have hpos := List.length_pos_of_mem hl
  omega

/-- The loop of `free_zero_refcount` ends, with an empty list. -/
theorem free_zero_refcount_loop_spec (n : ℕ) (h : Inv rt A P ext) (hdec : rt.gc_phase = .DECREF)
    (hpin : Pinned rt.body A ext) (hz : ∀ q ∈ rt.gc_zero_ref_count_list, q ∈ A)
    (hn : rt.listed.length ≤ n) :
    ∃ rt' A', free_zero_refcount_loop n rt = some rt' ∧ Inv rt' A' P ext ∧
      rt'.gc_phase = .DECREF ∧ rt'.gc_zero_ref_count_list = [] ∧ A' ⊆ A ∧
      (rt.tmp_obj_list = [] → rt'.tmp_obj_list = []) ∧
      ∀ p o', rt'.mem p = some o' → ∃ o, rt.mem p = some o ∧ o.body = o'.body ∧ o.mark = o'.mark := by
  induction n generalizing rt A with
  | zero =>
    have hempty : rt.listed = [] := List.length_eq_zero_iff.mp (by omega)
    have hnil : rt.gc_zero_ref_count_list = [] := (List.append_eq_nil_iff.mp hempty).2
    refine ⟨rt, A, ?_, h, hdec, hnil, Finset.Subset.refl A, id, fun p o' ho' => ⟨o', ho', rfl, rfl⟩⟩
    rw [free_zero_refcount_loop, if_pos hnil]
  | succ n ih =>
    cases hlist : rt.gc_zero_ref_count_list with
    | nil =>
      refine ⟨rt, A, ?_, h, hdec, hlist, Finset.Subset.refl A, id, fun p o' ho' => ⟨o', ho', rfl, rfl⟩⟩
      rw [free_zero_refcount_loop, hlist]
    | cons p l =>
      have hmem : p ∈ rt.gc_zero_ref_count_list := by simp [hlist]
      have hp : p ∈ A := hz p hmem
      obtain ⟨o, ho, hv, hrc, hext⟩ := h.of_zero hdec hp hmem
      obtain ⟨rt₁, A₁, P₁, hrun, hinv, hf⟩ := h.free_gc_object hp ho hv (by simp [hdec])
        (fun _ => hrc) hext hpin
      obtain ⟨rfl, hz₁⟩ := hf.decref hdec
      -- What came onto the list was allocated before and is not being taken apart.
      have hz' : ∀ q ∈ rt₁.gc_zero_ref_count_list, q ∈ A₁ := by
        intro q hq
        obtain ⟨hqp, hfrom⟩ := hz₁ q hq
        have hqA : q ∈ A := hfrom.elim (hz q) id
        have hlisted : q ∈ rt₁.listed := by simp [JSRuntime.listed, hq]
        obtain ⟨b, hb, -⟩ := (hinv.mem_listed q).mp hlisted
        rcases (hinv.core.alive q).mp (by simp [hb]) with hA | hP
        · exact hA
        · exact absurd rfl (h.core.ne_of_mem hqA hP)
      have hpin' := hf.pinned hpin
      have hlt := hf.listed_lt h hinv hp (by simp [JSRuntime.listed, hmem])
      obtain ⟨rt', A', hrun', hinv', hph', hnil', hsub', htmp', hsame'⟩ := ih hinv (hf.phase.trans hdec)
        hpin' hz' (by omega)
      refine ⟨rt', A', ?_, hinv', hph', hnil', hsub'.trans (hf.sub.trans (Finset.erase_subset _ _)),
        fun hnil => htmp' (hf.tmp hnil), ?_⟩
      · have hguard : o.ref_count = 0 := rt.rc_eq ho ▸ hrc
        rw [free_zero_refcount_loop, hlist]
        simp [ho, hguard, hrun, hrun']
      · intro q o' ho'
        obtain ⟨o₁, ho₁, hb₁, hm₁⟩ := hsame' q o' ho'
        have hqp : q ≠ p := by
          rintro rfl
          simp [hf.gone h hinv hp] at ho₁
        obtain ⟨o₀, ho₀, hb₀, hm₀⟩ := hf.same q hqp o₁ ho₁
        exact ⟨o₀, ho₀, hb₀.trans hb₁, hm₀.trans hm₁⟩

/-- Giving up a value from outside: the list is emptied before the call returns. -/
theorem JS_FreeValueRT_outer {v : JSCValue} (hphase : rt.gc_phase = .NONE)
    (h : Inv rt A P (hold (.value v) ext)) (hpin : Pinned rt.body A ext)
    (htyped : rt.body.Typed (.value v)) :
    ∃ rt' A', JS_FreeValueRT free_zero_refcount v rt = some rt' ∧ Inv rt' A' P ext ∧
      Shrinks rt A rt' A' := by
  cases ht : (Ref.value v).target with
  | none =>
    have hsame : hold (.value v) ext = ext := by
      funext q
      simp [hold, ht]
    exact ⟨rt, A, by simp [JS_FreeValueRT, ht], hsame ▸ h, .refl h⟩
  | some p =>
    obtain ⟨b, hb, hpos, hmem⟩ := h.core.of_hold ht
    obtain ⟨o, ho, rfl⟩ := rt.mem_of_body hb
    have hp : p ∈ A := hmem (by simp [hphase])
    have hv : o.body.gc_obj_type.isValue = true := by
      rw [(htyped p o.body ht hb).1]
      exact Ref.isValue_of_value v
    have hcount := Shrinks.of_count h ho (rt.rc p - 1)
    by_cases hone : rt.rc p = 1
    · -- The last reference: the object goes onto the list and the loop starts.
      have hdec : Inv { rt with gc_phase := .DECREF } A P (hold (.value v) ext) :=
        ⟨h.core.phase_congr (by simp [hphase]), h.nodup, h.mem_listed,
          fun _ => h.zero (by simp [hphase]), fun e => absurd e (by simp)⟩
      have hq : Inv (({ rt with gc_phase := .DECREF }.store p
          { o with ref_count := rt.rc p - 1 }).queue_zero p) A P ext :=
        hdec.enqueue ht ho hv hone rfl
      have hnil : rt.gc_zero_ref_count_list = [] := h.rest hphase
      generalize hrt₁ : ({ rt with gc_phase := .DECREF }.store p
        { o with ref_count := rt.rc p - 1 }).queue_zero p = rt₁ at hq
      have hz : ∀ q ∈ rt₁.gc_zero_ref_count_list, q ∈ A := by
        intro q hmem
        have hlist : rt₁.gc_zero_ref_count_list = p :: rt.gc_zero_ref_count_list.erase p := by
          rw [← hrt₁]
          rfl
        rw [hlist, hnil] at hmem
        obtain rfl := List.mem_singleton.mp hmem
        exact hp
      have hsame₁ : ∀ q o', rt₁.mem q = some o' →
          ∃ o, rt.mem q = some o ∧ o.body = o'.body ∧ o.mark = o'.mark := by
        rw [← hrt₁]
        exact hcount.same
      have hpin₁ : Pinned rt₁.body A ext := by
        rw [← hrt₁]
        exact hcount.pinned hpin
      have htmp₁ : rt.tmp_obj_list = [] → rt₁.tmp_obj_list = [] := by
        rw [← hrt₁]
        exact fun hnil => JSRuntime.tmp_list_del hnil
      have hph₁ : rt₁.gc_phase = .DECREF := by
        rw [← hrt₁]
        rfl
      obtain ⟨rt', A', hrun, hinv, hph, hempty, hsub, htmp, hsame⟩ :=
        free_zero_refcount_loop_spec rt₁.listed.length hq hph₁ hpin₁ hz (Nat.le_refl _)
      refine ⟨{ rt' with gc_phase := .NONE }, A', ?_, ?_, ?_⟩
      · have hstart : JS_FreeValueRT free_zero_refcount v rt = free_zero_refcount
            ((rt.store p { o with ref_count := rt.rc p - 1 }).queue_zero p) := by
          simp [JS_FreeValueRT, ht, JSRuntime.decref_eq ho, hone, hphase]
        have hloop : free_zero_refcount
            ((rt.store p { o with ref_count := rt.rc p - 1 }).queue_zero p) =
            (free_zero_refcount_loop rt₁.listed.length rt₁).bind
              fun rt => some { rt with gc_phase := .NONE } := by
          rw [← hrt₁]
          rfl
        rw [hstart, hloop, hrun]
        rfl
      · exact ⟨hinv.core.phase_congr (by simp [hph]), hinv.nodup, hinv.mem_listed,
          fun _ => hinv.zero (by simp [hph]), fun _ => hempty⟩
      · refine ⟨hsub, hphase.symm, ?_, fun hne => absurd hphase hne, fun hne => absurd hphase hne,
          htmp ∘ htmp₁, fun hcyc => absurd (hphase.symm.trans hcyc) (by decide)⟩
        intro q o' ho'
        obtain ⟨o₁, ho₁, hb₁, hm₁⟩ := hsame q o' ho'
        obtain ⟨o₀, ho₀, hb₀, hm₀⟩ := hsame₁ q o₁ ho₁
        exact ⟨o₀, ho₀, hb₀.trans hb₁, hm₀.trans hm₁⟩
    · refine ⟨_, A, ?_, h.decref ht ho (by simp [hv]) (fun _ => hone), hcount⟩
      have hnot : ¬ (rt.rc p - 1 ≤ 0) := by omega
      simp [JS_FreeValueRT, ht, JSRuntime.decref_eq ho, hnot]

/-- Outside the loops every routine gives up its reference. -/
theorem drops_outer (n : ℕ) : Drops (· = .NONE) (free_ref (JS_FreeValueRT free_zero_refcount) n) n := by
  induction n with
  | zero =>
    intro r rt A P ext hlevel hphase h hpin htyped
    cases r with
    | value v => exact JS_FreeValueRT_outer hphase h hpin htyped
    | _ => simp [Ref.level] at hlevel
  | succ n ih => exact ih.succ

end Objects

end QuickJSSwift.Gc
