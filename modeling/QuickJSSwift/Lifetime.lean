/-
The heap over whole runs.

`Collect`, `Release` and `Cycles` take one operation at a time. Here C code works with the
heap: it takes and gives up references, allocates, overwrites the fields of an object,
leaves a frame whose variables were captured, and lets the collector run. `held p` counts
the references to `p` that it owns.

The rules it has to keep are those of the engine's API (`Op.Allowed`): it uses what it can
reach, it gives up what it owns and with the routine for it, what it stores it gives away,
and whoever runs a function owns a reference to it. A run that keeps the rules keeps the
heap `Settled`, so no operation of it touches freed memory or fails an assertion, and what
can be reached is never freed. `JS_FreeRuntime` comes last: its assertion holds exactly if
nothing is owned any more.
-/
import QuickJSSwift.Cycles
import QuickJSSwift.Lib.Run

set_option autoImplicit false

namespace QuickJSSwift.Gc

open RefGraph

/-! ## The heap between two operations, spelled out -/

/-- `Settled`, with the sets that no object is in taken out. -/
structure Sound (rt : JSRuntime) (A : Finset Ptr) (ext : Ptr → ℕ) : Prop where
  phase : rt.gc_phase = .NONE
  tmp : rt.tmp_obj_list = []
  zero : rt.gc_zero_ref_count_list = []
  nodup : rt.gc_obj_list.Nodup
  listed : ∀ p, p ∈ rt.gc_obj_list ↔ ∃ b, rt.body p = some b ∧ b.isOnStack = false
  unmarked : ∀ p ∈ rt.gc_obj_list, rt.marked p = false
  alive : ∀ p, (rt.body p).isSome ↔ p ∈ A
  counted : ∀ q, rt.rc q = ext q + indeg rt.body.out A q
  positive : ∀ p ∈ A, 0 < rt.rc p
  typed : ∀ p ∈ A, ∀ r ∈ rt.body.refs p, rt.body.Typed r
  closed : ∀ p b, rt.body p = some b → b.Closed
  pinned : ∀ p b, rt.body p = some b → b.Running → 0 < ext p

section Sound

variable {rt : JSRuntime} {A : Finset Ptr} {ext : Ptr → ℕ} {p : Ptr}

theorem Sound.rc_of_none (h : rt.body p = none) : rt.rc p = 0 := by
  have hmem : rt.mem p = none := Option.map_eq_none_iff.mp h
  rw [JSRuntime.rc, hmem]
  rfl

theorem Sound.settled (h : Sound rt A ext) : Settled rt ext where
  phase := h.phase
  tmp := h.tmp
  unmarked := h.unmarked
  heap := by
    have hlisted : rt.listed = rt.gc_obj_list := by simp [JSRuntime.listed, h.tmp, h.zero]
    refine ⟨A, ⟨⟨?_, Finset.disjoint_empty_right A, h.counted, h.typed, fun p _ => h.closed p,
      fun p hp _ _ _ => h.positive p hp, by simp, fun p => Sound.rc_of_none⟩, hlisted ▸ h.nodup,
      hlisted ▸ h.listed, ?_, fun _ => h.zero⟩, fun p _ => h.pinned p⟩
    · intro p
      simpa using h.alive p
    · intro _ p hp
      have hpos := h.positive p hp
      rw [h.zero]
      exact iff_of_false (by omega) (by simp)

theorem Settled.sound (h : Settled rt ext) : ∃ A, Sound rt A ext := by
  obtain ⟨A, hinv, hpin⟩ := h.heap
  have hzero := hinv.rest h.phase
  have hlisted : rt.listed = rt.gc_obj_list := by simp [JSRuntime.listed, h.tmp, hzero]
  have halive : ∀ p, (rt.body p).isSome ↔ p ∈ A := by
    intro p
    simpa using hinv.core.alive p
  have hmem : ∀ p b, rt.body p = some b → p ∈ A := fun p b hb => (halive p).mp (by simp [hb])
  refine ⟨A, h.phase, h.tmp, hzero, hlisted ▸ hinv.nodup, hlisted ▸ hinv.mem_listed, h.unmarked,
    halive, hinv.core.counted, ?_, hinv.core.typed, fun p b hb => hinv.core.closed p (hmem p b hb) b hb,
    fun p b hb => hpin p (hmem p b hb) b hb⟩
  intro p hp
  have hne : rt.rc p ≠ 0 := by
    rw [ne_eq, hinv.zero (by simp [h.phase]) p hp, hzero]
    simp
  have hcounted := hinv.core.counted p
  omega

theorem Sound.ext_of_none (h : Sound rt A ext) (hp : rt.body p = none) :
    ext p = 0 ∧ ∀ a ∈ A, p ∉ rt.body.out a := by
  have hrc := h.counted p
  rw [Sound.rc_of_none hp] at hrc
  exact ⟨by omega, fun a ha => mem_of_indeg_eq_zero (by omega) ha⟩

theorem Sound.out_of_none (hp : rt.body p = none) : rt.body.out p = [] := by
  rw [Bodies.out, Bodies.refs, hp]
  rfl

theorem Bodies.out_of_some {body : Bodies} {b : Body} (hb : body p = some b) :
    body.out p = b.refs.filterMap Ref.target := by
  rw [Bodies.out, Bodies.refs_of_some hb]

/-- The references from one address, apart from the others. -/
theorem Sound.counted_at (h : Sound rt A ext) (p q : Ptr) :
    rt.rc q = ext q + (indeg rt.body.out (A.erase p) q + (rt.body.out p).count q) := by
  rw [h.counted q]
  by_cases hp : p ∈ A
  · rw [indeg_erase hp]
    push_cast
    rfl
  · have hnone : rt.body p = none := by
      rw [← h.alive, Option.not_isSome_iff_eq_none] at hp
      exact hp
    rw [Finset.erase_eq_of_notMem hp, Sound.out_of_none hnone]
    simp

end Sound

/-! ## Writing one object -/

/-- What it takes to put an object at an address: `c` references more to it, and what it
refers to paid for by what is owned and by what was there before. -/
structure Puts (rt : JSRuntime) (ext : Ptr → ℕ) (p : Ptr) (o : JSGCObject) (c : ℕ)
    (ext' : Ptr → ℕ) : Prop where
  count : o.ref_count = rt.rc p + c
  positive : 0 < o.ref_count
  paid : ∀ q, ext' q + (o.body.refs.filterMap Ref.target).count q =
    ext q + (rt.body.out p).count q + if q = p then c else 0
  kind : ∀ b, rt.body p = some b →
    o.body.gc_obj_type = b.gc_obj_type ∧ (b.isOnStack = false → o.body.isOnStack = false)
  typed : ∀ r ∈ o.body.refs, Bodies.Typed (Function.update rt.body p (some o.body)) r
  closed : o.body.Closed
  pinned : ∀ q b, Function.update rt.body p (some o.body) q = some b → b.Running → 0 < ext' q
  mark : o.body.isOnStack = false → o.mark = false

section Puts

variable {rt rt' : JSRuntime} {A : Finset Ptr} {ext ext' : Ptr → ℕ} {p : Ptr} {o : JSGCObject}
  {c : ℕ}

/-- A reference of another object keeps its kind. -/
theorem Puts.typed_of_typed (hp : Puts rt ext p o c ext') {r : Ref} (hr : rt.body.Typed r)
    (hnone : rt.body p = none → r.target ≠ some p) :
    Bodies.Typed (Function.update rt.body p (some o.body)) r := by
  intro q b hq hb
  by_cases hqp : q = p
  · subst hqp
    rw [Function.update_self] at hb
    obtain rfl := Option.some.inj hb
    cases hold : rt.body q with
    | none => exact absurd hq (hnone hold)
    | some b₀ =>
      obtain ⟨htype, hstack⟩ := hp.kind b₀ hold
      obtain ⟨ht, hs⟩ := hr q b₀ hq hold
      exact ⟨htype.trans ht, fun he => hstack (hs he)⟩
  · rw [Function.update_of_ne hqp] at hb
    exact hr q b hq hb

/-- **Writing one object.** The lists change in one place at most: an object that was not on
`gc_obj_list` and belongs there is added at the end. -/
theorem Sound.put (h : Sound rt A ext) (hp : Puts rt ext p o c ext')
    (hmem : rt'.mem = (rt.store p o).mem) (hphase : rt'.gc_phase = rt.gc_phase)
    (htmp : rt'.tmp_obj_list = rt.tmp_obj_list)
    (hzero : rt'.gc_zero_ref_count_list = rt.gc_zero_ref_count_list)
    (hlist : rt'.gc_obj_list = rt.gc_obj_list ∧ (p ∈ rt.gc_obj_list ↔ o.body.isOnStack = false) ∨
      rt'.gc_obj_list = rt.gc_obj_list ++ [p] ∧ p ∉ rt.gc_obj_list ∧ o.body.isOnStack = false) :
    Sound rt' (insert p A) ext' := by
  have hbody : rt'.body = Function.update rt.body p (some o.body) := by
    rw [← rt.body_store o]
    exact congrArg (fun m p => (m p).map JSGCObject.body) hmem
  have hrc : rt'.rc = Function.update rt.rc p o.ref_count := by
    rw [← rt.rc_store o]
    exact congrArg (fun m p => (m p).elim 0 JSGCObject.ref_count) hmem
  have hmark : rt'.marked = Function.update rt.marked p o.mark := by
    rw [← rt.marked_store p o]
    exact congrArg (fun m p => (m p).elim false JSGCObject.mark) hmem
  have hmem_list : ∀ q, q ∈ rt'.gc_obj_list ↔
      (q ≠ p ∧ q ∈ rt.gc_obj_list) ∨ (q = p ∧ o.body.isOnStack = false) := by
    intro q
    by_cases hqp : q = p
    · rcases hlist with ⟨hl, hs⟩ | ⟨hl, -, hs⟩
      · simp [hl, hqp, hs]
      · simp [hl, hqp, hs]
    · rcases hlist with ⟨hl, -⟩ | ⟨hl, -⟩ <;> simp [hl, hqp]
  have hother : ∀ a, a ≠ p → rt'.body.out a = rt.body.out a := by
    intro a ha
    rw [hbody]
    exact Core.out_update ha _
  have hself : rt'.body.out p = o.body.refs.filterMap Ref.target :=
    Bodies.out_of_some (by rw [hbody, Function.update_self])
  refine ⟨hphase.trans h.phase, htmp.trans h.tmp, hzero.trans h.zero, ?_, ?_, ?_, ?_, ?_, ?_, ?_, ?_, ?_⟩
  · rcases hlist with ⟨hl, -⟩ | ⟨hl, hnot, -⟩
    · rw [hl]
      exact h.nodup
    · rw [hl]
      exact h.nodup.append (List.nodup_singleton p) (by simpa using hnot)
  · intro q
    rw [hmem_list, hbody]
    by_cases hqp : q = p
    · simp [hqp]
    · rw [Function.update_of_ne hqp, ← h.listed]
      simp [hqp]
  · intro q hq
    rw [hmark]
    rcases (hmem_list q).mp hq with ⟨hqp, hq⟩ | ⟨rfl, hs⟩
    · rw [Function.update_of_ne hqp]
      exact h.unmarked q hq
    · rw [Function.update_self]
      exact hp.mark hs
  · intro q
    rw [hbody, Finset.mem_insert]
    by_cases hqp : q = p
    · simp [hqp]
    · rw [Function.update_of_ne hqp, h.alive]
      simp [hqp]
  · intro q
    have hold := h.counted_at p q
    have hpaid := hp.paid q
    have hsame : indeg rt'.body.out (A.erase p) q = indeg rt.body.out (A.erase p) q := by
      apply indeg_congr
      intro a ha
      rw [hother a (Finset.ne_of_mem_erase ha)]
    have hnew : indeg rt'.body.out (insert p A) q =
        indeg rt.body.out (A.erase p) q + (o.body.refs.filterMap Ref.target).count q := by
      rw [indeg_erase (Finset.mem_insert_self p A), Finset.erase_insert_eq_erase, hsame, hself]
    rw [hrc, hnew]
    by_cases hqp : q = p
    · subst hqp
      rw [Function.update_self, hp.count]
      simp only [if_true] at hpaid
      omega
    · rw [Function.update_of_ne hqp]
      simp only [hqp, if_false] at hpaid
      omega
  · intro q hq
    rw [hrc]
    by_cases hqp : q = p
    · rw [hqp, Function.update_self]
      exact hp.positive
    · rw [Function.update_of_ne hqp]
      exact h.positive q (Finset.mem_of_mem_insert_of_ne hq hqp)
  · intro a ha r hr
    rw [hbody] at hr ⊢
    by_cases hap : a = p
    · subst hap
      rw [Bodies.refs_of_some (Function.update_self ..)] at hr
      exact hp.typed r hr
    · have haA := Finset.mem_of_mem_insert_of_ne ha hap
      rw [Bodies.refs, Function.update_of_ne hap] at hr
      refine hp.typed_of_typed (h.typed a haA r hr) fun hnone ht => ?_
      exact (h.ext_of_none hnone).2 a haA (List.mem_filterMap.mpr ⟨r, hr, ht⟩)
  · intro q b hb
    rw [hbody] at hb
    by_cases hqp : q = p
    · rw [hqp, Function.update_self] at hb
      exact Option.some.inj hb ▸ hp.closed
    · rw [Function.update_of_ne hqp] at hb
      exact h.closed q b hb
  · intro q b hb
    rw [hbody] at hb
    exact hp.pinned q b hb

end Puts

/-! ## What C code does -/

/-- One reference more: `JS_DupValueRT`, `js_dup_shape`, `JS_DupContext`, and `ref_count++` of
a closure variable or an async function. -/
def dup_ref (r : Ref) (rt : JSRuntime) : Option JSRuntime :=
  match r.target with
  | none => some rt
  | some p => do
    let o ← rt.mem p
    return rt.store p { o with ref_count := o.ref_count + 1 }

/-- A new object with one reference to it. A variable on a stack goes on the list of its
frame (`get_var_ref`), everything else on `gc_obj_list`. -/
def new_gc_object (p : Ptr) (b : Body) (rt : JSRuntime) : JSRuntime :=
  let o : JSGCObject := { ref_count := 1, mark := false, body := b }
  if b.isOnStack then rt.store p o else add_gc_object p o rt

theorem new_gc_object_mem (p : Ptr) (b : Body) (rt : JSRuntime) :
    (new_gc_object p b rt).mem =
      Function.update rt.mem p (some { ref_count := 1, mark := false, body := b }) := by
  rw [new_gc_object]
  split <;> rfl

/-- The fields of an object are overwritten. -/
def set_body (p : Ptr) (b : Body) (rt : JSRuntime) : Option JSRuntime := do
  let o ← rt.mem p
  return rt.store p { o with body := b }

/-- An operation of C code on the heap. `close s` is `close_var_refs` at the end of a C call,
with `s` the frame. -/
inductive Op
  | dup (r : Ref)
  | free (r : Ref)
  | create (p : Ptr) (b : Body)
  | write (p : Ptr) (b : Body)
  | close (s : JSAsyncFunctionState)
  | gc

def Op.run : Op → JSRuntime → Option JSRuntime
  | .dup r => dup_ref r
  | .free r => free_ref_outer r
  | .create p b => fun rt => some (new_gc_object p b rt)
  | .write p b => set_body p b
  | .close s => close_var_refs s s.var_ref_list
  | .gc => JS_RunGC

/-- What is owned, less one. -/
def unhold (r : Ref) (held : Ptr → ℕ) : Ptr → ℕ :=
  fun q => held q - if r.target = some q then 1 else 0

/-- What is owned, less what is stored. -/
def give (rs : List Ref) (held : Ptr → ℕ) : Ptr → ℕ :=
  fun q => held q - (rs.filterMap Ref.target).count q

/-- What is owned after an operation. -/
def Op.held (rt : JSRuntime) (held : Ptr → ℕ) : Op → Ptr → ℕ
  | .dup r => hold r held
  | .free r => unhold r held
  | .create p b => fun q => give b.refs held q + if q = p then 1 else 0
  | .write p b => give b.refs (holds (rt.body.refs p) held)
  | .close _ => held
  | .gc => held

/-- Whoever runs a function owns a reference to it. -/
def RunsHeld (body : Bodies) (held : Ptr → ℕ) : Prop :=
  ∀ p b, body p = some b → b.Running → 0 < held p

/-- A captured variable of the frame, and its value. -/
def Captured (rt : JSRuntime) (held : Ptr → ℕ) (s : JSAsyncFunctionState) (v : Ptr) : Prop :=
  ∃ i value, rt.body v = some (.var_ref (.onStack none i)) ∧ (s.stack.getD [])[i]? = some value ∧
    (∀ p, (Ref.value value).target = some p → 0 < held p) ∧ rt.body.Typed (.value value)

/-- The rules. -/
def Op.Allowed (rt : JSRuntime) (held : Ptr → ℕ) : Op → Prop
  | .dup r => ∀ p, r.target = some p → Reachable rt.body.out held p
  | .free r => (∀ p, r.target = some p → 0 < held p) ∧ rt.body.Typed r ∧
      RunsHeld rt.body (unhold r held)
  | .create p b => rt.mem p = none ∧ b.Closed ∧ (∀ r ∈ b.refs, rt.body.Typed r) ∧
      (∀ q, (b.refs.filterMap Ref.target).count q ≤ held q) ∧
      RunsHeld (Function.update rt.body p (some b)) ((Op.create p b).held rt held)
  | .write p b => Reachable rt.body.out held p ∧ b.Closed ∧
      (∀ b₀, rt.body p = some b₀ → b.gc_obj_type = b₀.gc_obj_type ∧ b.isOnStack = b₀.isOnStack) ∧
      (∀ r ∈ b.refs, rt.body.Typed r) ∧
      (∀ q, (b.refs.filterMap Ref.target).count q ≤ holds (rt.body.refs p) held q) ∧
      RunsHeld (Function.update rt.body p (some b)) ((Op.write p b).held rt held)
  | .close s => s.var_ref_list.Nodup ∧ ∀ v ∈ s.var_ref_list, Captured rt held s v
  | .gc => True

section Ops

variable {rt : JSRuntime} {A : Finset Ptr} {held : Ptr → ℕ} {p : Ptr} {b : Body} {r : Ref}

theorem Sound.exists_of_reachable (h : Sound rt A held) (hp : Reachable rt.body.out held p) :
    ∃ o, rt.mem p = some o :=
  Option.isSome_iff_exists.mp (h.settled.alive hp)

/-- One more reference to what can be reached. -/
theorem Sound.dup (h : Sound rt A held)
    (hr : ∀ p, r.target = some p → Reachable rt.body.out held p) :
    ∃ rt', dup_ref r rt = some rt' ∧ Sound rt' A (hold r held) ∧ rt'.body = rt.body := by
  cases ht : r.target with
  | none =>
    have hsame : hold r held = held := by
      funext q
      simp [hold, ht]
    exact ⟨rt, by simp [dup_ref, ht], by rwa [hsame], rfl⟩
  | some p =>
    obtain ⟨o, ho⟩ := h.exists_of_reachable (hr p ht)
    have hb := rt.body_eq ho
    have hpA : p ∈ A := (h.alive p).mp (by simp [hb])
    have hsame : Function.update rt.body p (some o.body) = rt.body := by
      rw [← hb, Function.update_eq_self]
    have hputs : Puts rt held p { o with ref_count := o.ref_count + 1 } 1 (hold r held) := by
      have hpos := h.positive p hpA
      rw [rt.rc_eq ho] at hpos
      refine ⟨by simp [rt.rc_eq ho], by simp only; omega, ?_, ?_, ?_, h.closed p _ hb, ?_, ?_⟩
      · intro q
        have heq : (r.target = some q) = (q = p) := by
          rw [ht, Option.some.injEq]
          exact propext eq_comm
        rw [hold, Bodies.out_of_some hb]
        simp only [heq]
        omega
      · intro b hb'
        obtain rfl := Option.some.inj (hb.symm.trans hb')
        exact ⟨rfl, id⟩
      · simp only [hsame]
        exact fun r' hr' => h.typed p hpA r' (by rwa [Bodies.refs_of_some hb])
      · simp only [hsame]
        exact fun q b hb' hrun => (h.pinned q b hb' hrun).trans_le (Nat.le_add_right _ _)
      · intro hs
        have := h.unmarked p ((h.listed p).mpr ⟨_, hb, hs⟩)
        rwa [rt.marked_eq ho] at this
    refine ⟨rt.store p { o with ref_count := o.ref_count + 1 }, by simp [dup_ref, ht, ho], ?_,
      rt.body_store_count ho _⟩
    rw [← Finset.insert_eq_of_mem hpA]
    refine h.put hputs rfl rfl rfl rfl (.inl ⟨rfl, ?_⟩)
    rw [h.listed p, hb]
    simp

/-- A new object, with the references that it holds given to it. -/
theorem Sound.create (h : Sound rt A held) (ha : (Op.create p b).Allowed rt held) :
    Sound (new_gc_object p b rt) (insert p A) ((Op.create p b).held rt held) := by
  obtain ⟨hmem, hclosed, htyped, hpaid, hruns⟩ := ha
  have hnone : rt.body p = none := by simp [JSRuntime.body, hmem]
  have hrc := Sound.rc_of_none hnone
  have hext := (h.ext_of_none hnone).1
  have hnot : p ∉ rt.gc_obj_list := by
    rw [h.listed, hnone]
    simp
  have htarget : ∀ r ∈ b.refs, r.target ≠ some p := by
    intro r hr ht
    have hle := hpaid p
    have hpos : 0 < (b.refs.filterMap Ref.target).count p :=
      List.count_pos_iff.mpr (List.mem_filterMap.mpr ⟨r, hr, ht⟩)
    omega
  have hputs : Puts rt held p { ref_count := 1, mark := false, body := b } 1
      ((Op.create p b).held rt held) := by
    refine ⟨by simp [hrc], by simp, ?_, by simp [hnone], ?_, hclosed, hruns, fun _ => rfl⟩
    · intro q
      have hle := hpaid q
      rw [Sound.out_of_none hnone]
      simp only [Op.held, give, List.count_nil]
      omega
    · intro r hr q b' hq hb'
      have hqp : q ≠ p := by
        rintro rfl
        exact htarget r hr hq
      rw [Function.update_of_ne hqp] at hb'
      exact htyped r hr q b' hq hb'
  rw [new_gc_object]
  split
  · next hs => exact h.put hputs rfl rfl rfl rfl (.inl ⟨rfl, iff_of_false hnot (by simp [hs])⟩)
  · next hs => exact h.put hputs rfl rfl rfl rfl (.inr ⟨rfl, hnot, by simpa using hs⟩)

/-- The fields of an object are overwritten: what was in them is owned now. -/
theorem Sound.write (h : Sound rt A held) (ha : (Op.write p b).Allowed rt held) :
    ∃ rt', set_body p b rt = some rt' ∧ Sound rt' A ((Op.write p b).held rt held) ∧
      rt'.body = Function.update rt.body p (some b) := by
  obtain ⟨hreach, hclosed, hkind, htyped, hpaid, hruns⟩ := ha
  obtain ⟨o, ho⟩ := h.exists_of_reachable hreach
  have hb := rt.body_eq ho
  obtain ⟨htype, hstack⟩ := hkind _ hb
  have hpA : p ∈ A := (h.alive p).mp (by simp [hb])
  have hkind' : ∀ b₀, rt.body p = some b₀ →
      b.gc_obj_type = b₀.gc_obj_type ∧ (b₀.isOnStack = false → b.isOnStack = false) := by
    intro b₀ hb₀
    obtain ⟨h₁, h₂⟩ := hkind b₀ hb₀
    exact ⟨h₁, fun hs => h₂.trans hs⟩
  have hputs : Puts rt held p { o with body := b } 0 ((Op.write p b).held rt held) := by
    have hpos := h.positive p hpA
    rw [rt.rc_eq ho] at hpos
    refine ⟨by simp [rt.rc_eq ho], hpos, ?_, hkind', ?_, hclosed, hruns, ?_⟩
    · intro q
      have hle := hpaid q
      have hout : (rt.body.refs p).filterMap Ref.target = rt.body.out p := rfl
      simp only [Op.held, give, holds, hout] at hle ⊢
      split <;> omega
    · intro r hr q b' hq hb'
      by_cases hqp : q = p
      · subst hqp
        rw [Function.update_self] at hb'
        obtain rfl := Option.some.inj hb'
        obtain ⟨h₁, h₂⟩ := htyped r hr q _ hq hb
        exact ⟨htype.trans h₁, fun he => hstack.trans (h₂ he)⟩
      · rw [Function.update_of_ne hqp] at hb'
        exact htyped r hr q b' hq hb'
    · intro hs
      have := h.unmarked p ((h.listed p).mpr ⟨_, hb, hstack.symm.trans hs⟩)
      rwa [rt.marked_eq ho] at this
  refine ⟨rt.store p { o with body := b }, by simp [set_body, ho], ?_, rt.body_store _⟩
  rw [← Finset.insert_eq_of_mem hpA]
  refine h.put hputs rfl rfl rfl rfl (.inl ⟨rfl, ?_⟩)
  rw [h.listed p, hb]
  simp [hstack]

/-- `close_var_refs`, one variable: it has a value of its own now and is on `gc_obj_list`. -/
theorem Sound.close_one (h : Sound rt A held) {s : JSAsyncFunctionState} {v : Ptr}
    (hv : Captured rt held s v) :
    ∃ rt' i value o, rt.mem v = some o ∧ o.body = .var_ref (.onStack none i) ∧
      (s.stack.getD [])[i]? = some value ∧
      (JS_DupValueRT value rt).map (add_gc_object v { o with body := .var_ref (.detached value) }) =
        some rt' ∧ Sound rt' A held ∧
      rt'.body = Function.update rt.body v (some (.var_ref (.detached value))) ∧
      ∀ v : JSCValue, rt.body.Typed (.value v) → rt'.body.Typed (.value v) := by
  obtain ⟨i, value, hb, hval, hheld, htyped⟩ := hv
  obtain ⟨o, ho, hbody⟩ := rt.mem_of_body hb
  have hvA : v ∈ A := (h.alive v).mp (by simp [hb])
  obtain ⟨rt₁, hdup, h₁, hsame⟩ := h.dup (r := .value value) fun p hp => .root (hheld p hp)
  -- A value names an object or bytecode, so it is not the variable.
  have hne : ∀ u : JSCValue, rt.body.Typed (.value u) → (Ref.value u).target ≠ some v := by
    intro u hu ht
    have hkind := (hu v _ ht hb).1
    have hvalue := Ref.isValue_of_value u
    rw [← hkind] at hvalue
    simp [Body.gc_obj_type, JSGCObjectTypeEnum.isValue] at hvalue
  have hmem : rt₁.mem v = some o := by
    rw [dup_ref] at hdup
    cases ht : (Ref.value value).target with
    | none =>
      simp only [ht, Option.some.injEq] at hdup
      rw [← hdup, ho]
    | some p =>
      obtain ⟨op, hop⟩ := h.exists_of_reachable (.root (hheld p ht))
      have hvp : v ≠ p := fun e => hne value htyped (e ▸ ht)
      simp only [ht, hop] at hdup
      rw [← Option.some.inj hdup, JSRuntime.store_mem_of_ne _ _ _ hvp, ho]
  have hb₁ : rt₁.body v = some (.var_ref (.onStack none i)) := by rw [hsame, hb]
  have hnot : v ∉ rt₁.gc_obj_list := by
    rw [h₁.listed, hb₁]
    simp [Body.isOnStack, JSVarRef.is_detached]
  have hputs : Puts rt₁ (hold (.value value) held) v
      { o with mark := false, body := .var_ref (.detached value) } 0 held := by
    have hpos := h.positive v hvA
    rw [rt.rc_eq ho] at hpos
    refine ⟨by simp [rt₁.rc_eq hmem], hpos, ?_, ?_, ?_, ?_, ?_, fun _ => rfl⟩
    · intro q
      have hout : rt₁.body.out v = [] := by
        rw [Bodies.out_of_some hb₁]
        rfl
      rw [hout, hold]
      cases ht : (Ref.value value).target with
      | none => simp [Body.refs, Body.free, ht]
      | some p =>
        by_cases hpq : p = q
        · simp [Body.refs, Body.free, ht, hpq]
        · simp [Body.refs, Body.free, ht, hpq]
    · intro b₀ hb₀
      obtain rfl := Option.some.inj (hb₁.symm.trans hb₀)
      exact ⟨rfl, fun _ => rfl⟩
    · intro r hr q b hq hb'
      obtain rfl : r = .value value := by simpa [Body.refs, Body.free] using hr
      have hqv : q ≠ v := by
        rintro rfl
        exact hne value htyped hq
      rw [Function.update_of_ne hqv, hsame] at hb'
      exact htyped q b hq hb'
    · exact ⟨by simp [Body.frames, Body.free], by simp⟩
    · intro q b hb' hrun
      by_cases hqv : q = v
      · rw [hqv, Function.update_self] at hb'
        obtain rfl := Option.some.inj hb'
        obtain ⟨f, hf, -⟩ := hrun
        simp [Body.frames, Body.free] at hf
      · rw [Function.update_of_ne hqv, hsame] at hb'
        exact h.pinned q b hb' hrun
  have h₂ : Sound (add_gc_object v { o with body := .var_ref (.detached value) } rt₁) A held := by
    rw [← Finset.insert_eq_of_mem hvA]
    exact h₁.put hputs rfl rfl rfl rfl (.inr ⟨rfl, hnot, rfl⟩)
  have hbody₂ : (add_gc_object v { o with body := .var_ref (.detached value) } rt₁).body =
      Function.update rt.body v (some (.var_ref (.detached value))) := by
    rw [← hsame]
    exact rt₁.body_store _
  refine ⟨_, i, value, o, ho, hbody, hval, ?_, h₂, hbody₂, fun u hu => ?_⟩
  · have hrun : JS_DupValueRT value rt = some rt₁ := hdup
    rw [hrun]
    rfl
  · rw [hbody₂, ← hsame]
    exact hputs.typed_of_typed (hsame ▸ hu) fun hnone => absurd hnone (by simp [hb₁])

/-- `close_var_refs` of a C frame. -/
theorem Sound.close {s : JSAsyncFunctionState} {vs : List Ptr} (h : Sound rt A held)
    (hnodup : vs.Nodup) (hvs : ∀ v ∈ vs, Captured rt held s v) :
    ∃ rt', close_var_refs s vs rt = some rt' ∧ Sound rt' A held ∧
      ∀ p, p ∉ vs → rt'.body p = rt.body p := by
  induction vs generalizing rt with
  | nil => exact ⟨rt, rfl, h, fun _ _ => rfl⟩
  | cons v vs ih =>
    obtain ⟨hnot, hnodup⟩ := List.nodup_cons.mp hnodup
    obtain ⟨rt₁, i, value, o, ho, hbody, hval, hrun, h₁, hbody₁, htyped⟩ :=
      h.close_one (hvs v (by simp))
    obtain ⟨rt', hrun', h', hsame⟩ := ih h₁ hnodup (by
      intro w hw
      obtain ⟨j, u, hb, hu, hheld, hty⟩ := hvs w (by simp [hw])
      have hwv : w ≠ v := fun e => hnot (e ▸ hw)
      exact ⟨j, u, by rw [hbody₁, Function.update_of_ne hwv, hb], hu, hheld, htyped u hty⟩)
    refine ⟨rt', ?_, h', fun p hp => ?_⟩
    · obtain ⟨rt₀, hdup, hadd⟩ := Option.map_eq_some_iff.mp hrun
      simp only [close_var_refs, ho, hbody, hval, hdup, Option.bind_eq_bind, Option.bind_some]
      rw [hadd]
      exact hrun'
    · rw [List.mem_cons, not_or] at hp
      rw [hsame p hp.2, hbody₁, Function.update_of_ne hp.1]

/-- Giving up a reference. -/
theorem Settled.free {ext : Ptr → ℕ} (h : Settled rt (hold r ext)) (htyped : rt.body.Typed r)
    (hruns : RunsHeld rt.body ext) :
    ∃ rt', free_ref_outer r rt = some rt' ∧ Settled rt' ext ∧
      ∀ p b, rt'.body p = some b → rt.body p = some b := by
  obtain ⟨A, hinv, -⟩ := h.heap
  have hzero := hinv.rest h.phase
  obtain ⟨rt', A', hrun, hinv', hsh⟩ := drops_outer 2 r rt A ∅ ext r.level_le_two h.phase hinv
    (fun p _ => hruns p) htyped
  refine ⟨rt', hrun, ⟨hsh.phase.trans h.phase, hsh.tmp h.tmp, ?_, A', hinv', ?_⟩,
    fun p b => hsh.body⟩
  · intro p hp
    obtain ⟨b, hb, hs⟩ := (hinv'.mem_listed p).mp (by simp [JSRuntime.listed, hp])
    obtain ⟨o', ho', rfl⟩ := rt'.mem_of_body hb
    obtain ⟨o, ho, hbody, hmark⟩ := hsh.same p o' ho'
    have hlisted : p ∈ rt.listed := (hinv.mem_listed p).mpr ⟨_, rt.body_eq ho, hbody ▸ hs⟩
    have hgc : p ∈ rt.gc_obj_list := by
      simpa [JSRuntime.listed, h.tmp, hzero] using hlisted
    rw [rt'.marked_eq ho', ← hmark, ← rt.marked_eq ho]
    exact h.unmarked p hgc
  · exact hsh.pinned fun p _ => hruns p

/-- The operation overwrites the object. -/
def Op.writes (p : Ptr) : Op → Prop
  | .write q _ => q = p
  | .close s => p ∈ s.var_ref_list
  | _ => False

/-- **The step.** An operation that keeps the rules succeeds and leaves the heap settled; the
objects that it leaves allocated and does not overwrite are as they were. -/
theorem Op.settled {op : Op} (h : Settled rt held) (ha : op.Allowed rt held) :
    ∃ rt', op.run rt = some rt' ∧ Settled rt' (op.held rt held) ∧
      ∀ p, ¬ op.writes p → (rt.body p).isSome → (rt'.body p).isSome → rt'.body p = rt.body p := by
  obtain ⟨A, hs⟩ := h.sound
  have hkept : ∀ {rt' : JSRuntime}, (∀ p b, rt'.body p = some b → rt.body p = some b) →
      ∀ p, (rt'.body p).isSome → rt'.body p = rt.body p := by
    intro rt' hsub p hsome
    obtain ⟨b, hb⟩ := Option.isSome_iff_exists.mp hsome
    rw [hb, hsub p b hb]
  cases op with
  | dup r =>
    obtain ⟨rt', hrun, h', hsame⟩ := hs.dup ha
    exact ⟨rt', hrun, h'.settled, fun p _ _ _ => congrFun hsame p⟩
  | free r =>
    obtain ⟨hheld, htyped, hruns⟩ := ha
    have hback : hold r (unhold r held) = held := by
      funext q
      by_cases hq : r.target = some q
      · have := hheld q hq
        simp only [hold, unhold, hq, if_true]
        omega
      · simp [hold, unhold, hq]
    have hsettled : Settled rt (hold r (unhold r held)) := by rwa [hback]
    obtain ⟨rt', hrun, h', hsub⟩ := hsettled.free htyped hruns
    exact ⟨rt', hrun, h', fun p _ _ => hkept hsub p⟩
  | create q b =>
    refine ⟨_, rfl, (hs.create ha).settled, fun p _ hsome _ => ?_⟩
    have hpq : p ≠ q := by
      rintro rfl
      simp [JSRuntime.body, ha.1] at hsome
    simp [JSRuntime.body, new_gc_object_mem, hpq]
  | write q b =>
    obtain ⟨rt', hrun, h', hsame⟩ := hs.write ha
    refine ⟨rt', hrun, h'.settled, fun p hw _ _ => ?_⟩
    rw [hsame, Function.update_of_ne fun e => hw e.symm]
  | close s =>
    obtain ⟨rt', hrun, h', hsame⟩ := hs.close ha.1 ha.2
    exact ⟨rt', hrun, h'.settled, fun p hw _ _ => hsame p hw⟩
  | gc =>
    obtain ⟨rt', hrun, h', -, hsub⟩ := JS_RunGC_spec h
    exact ⟨rt', hrun, h', fun p _ _ => hkept hsub p⟩

end Ops

/-! ## Runs -/

/-- The heap with what C code owns; nothing, once an operation has touched freed memory or
failed an assertion. -/
abbrev Heap := Option (JSRuntime × (Ptr → ℕ))

def Op.step (s : Heap) (op : Op) : Heap :=
  s.bind fun h => (op.run h.1).map fun rt => (rt, op.held h.1 h.2)

/-- The operation keeps the rules. -/
def Op.Keeps (s : Heap) (op : Op) : Prop := ∀ rt held, s = some (rt, held) → op.Allowed rt held

/-- The heap after `JS_NewRuntime`, in which nothing is allocated. -/
def JS_NewRuntime : JSRuntime where
  mem := fun _ => none
  gc_obj_list := []
  tmp_obj_list := []
  gc_zero_ref_count_list := []
  gc_phase := .NONE

theorem JS_NewRuntime_settled : Settled JS_NewRuntime fun _ => 0 := by
  have hbody : ∀ p, JS_NewRuntime.body p = none := fun _ => rfl
  refine Sound.settled (A := ∅) ⟨rfl, rfl, rfl, List.nodup_nil, ?_, ?_, ?_, ?_, ?_, ?_, ?_, ?_⟩
  · intro p
    rw [hbody p]
    simp [JS_NewRuntime]
  · simp [JS_NewRuntime]
  · simp [hbody]
  · intro q
    rw [Sound.rc_of_none (hbody q)]
    rfl
  · simp
  · simp
  · simp [hbody]
  · simp [hbody]

/-- No operation has gone wrong, and the heap is settled. -/
def Heap.Settled (s : Heap) : Prop := ∃ rt held, s = some (rt, held) ∧ Gc.Settled rt held

/-- What the object holds. -/
def Heap.body (s : Heap) (p : Ptr) : Option Body := s.bind fun h => h.1.body p

section Runs

variable {s : Heap} {op : Op} {ops : List Op} {p : Ptr}

theorem Heap.Settled.step (h : s.Settled) (hk : op.Keeps s) : (Op.step s op).Settled := by
  obtain ⟨rt, held, rfl, hs⟩ := h
  obtain ⟨rt', hrun, hs', -⟩ := Op.settled hs (hk rt held rfl)
  exact ⟨rt', _, by simp [Op.step, hrun], hs'⟩

/-- A run of operations that keep the rules. -/
theorem Heap.Settled.run (h : s.Settled) (hk : Run.Meets Op.step Op.Keeps s ops) :
    Run.Always Op.step Heap.Settled s ops :=
  Run.always_of_meets (fun _ _ hs hk => hs.step hk) h hk

end Runs

/-! ## From a new runtime on -/

/-- A new runtime. -/
def Heap.new : Heap := some (JS_NewRuntime, fun _ => 0)

theorem Heap.new_settled : Heap.new.Settled := ⟨_, _, rfl, JS_NewRuntime_settled⟩

/-- The guarantees of a heap: what can be reached is allocated, a count is what is owned plus
the references from objects, and nothing is left whose count is zero. -/
def Heap.Safe (s : Heap) : Prop :=
  ∃ rt held A, s = some (rt, held) ∧ (∀ p, Reachable rt.body.out held p → p ∈ A) ∧
    (∀ p, (rt.mem p).isSome ↔ p ∈ A) ∧ (∀ p, rt.rc p = held p + indeg rt.body.out A p) ∧
    ∀ p ∈ A, 0 < rt.rc p

section New

variable {ops : List Op}

end New

/-! ## `JS_FreeRuntime` -/

section FreeRuntime

variable {rt : JSRuntime} {held : Ptr → ℕ}

end FreeRuntime

end QuickJSSwift.Gc
