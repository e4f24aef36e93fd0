/-
Freeing what the collector found, and `JS_RunGC` as a whole.

Once the counts are back to what they were, `gc_free_cycles` frees the objects of
`tmp_obj_list` one by one. An object in a cycle is still referred to when it is freed, so
it stays allocated as a zombie until all are done. What no JS value names is not freed by
the loop: it goes when the last object that refers to it does. That nothing of it is left
at the end, as the assertion there has it, is an argument about levels: what is left would
be referred to by something that is left and of a higher level.
-/
import QuickJSSwift.Collect

set_option autoImplicit false

namespace QuickJSSwift.Gc

open RefGraph

/-! ## Reachability, with and without the variables on a stack -/

section

variable {rt : JSRuntime} {A : Finset Ptr} {ext : Ptr → ℕ} {L : List Ptr}

/-- A variable on a stack leads nowhere, so leaving it out changes nothing for the others. -/
theorem Inv.reachable_vis_iff (h : Inv rt A ∅ ext) (hg : Graph rt.body L) {q : Ptr} (hq : q ∈ L) :
    Reachable rt.body.vis ext q ↔ Reachable rt.body.out ext q := by
  have hmem : ∀ p b, rt.body p = some b → p ∈ A := fun p b hb => by
    simpa using (h.core.alive p).mp (by simp [hb])
  constructor
  · intro hr
    refine hr.mem_of_closed (fun p hp => .root hp) fun p x hp hx => hp.tail ?_
    cases hb : rt.body p with
    | none => simp [Bodies.vis, hb] at hx
    | some b =>
      obtain ⟨r, hr', hv⟩ := List.mem_filterMap.mp ((Bodies.vis_perm hb).subset hx)
      have hrefs : r ∈ rt.body.refs p := by rwa [Bodies.refs_of_some hb]
      have hxL := hg.closed p (by
        by_contra hnot
        simp [hg.vis_eq_nil hnot] at hx) x hx
      obtain ⟨bx, hbx, -⟩ := (hg.tracked x).mp hxL
      exact List.mem_filterMap.mpr
        ⟨r, hrefs, ((h.core.typed p (hmem p b hb) r hrefs).of_visible hv hbx).1⟩
  · intro hr
    refine hr.mem_of_closed (S := fun x => x ∈ L → Reachable rt.body.vis ext x)
      (fun p hp _ => .root hp) ?_ hq
    intro p x hp hx hxL
    obtain ⟨bx, hbx, hsx⟩ := (hg.tracked x).mp hxL
    obtain ⟨r, hrefs, ht⟩ := List.mem_filterMap.mp hx
    cases hb : rt.body p with
    | none => simp [Bodies.refs, hb] at hrefs
    | some b =>
      have hpL : p ∈ L := by
        refine (hg.tracked p).mpr ⟨b, hb, ?_⟩
        by_contra hs
        simp [Bodies.out_of_onStack hb (by simpa using hs)] at hx
      refine (hp hpL).tail ((Bodies.vis_perm hb).symm.subset (List.mem_filterMap.mpr ⟨r, ?_, ?_⟩))
      · rwa [Bodies.refs_of_some hb] at hrefs
      · exact (h.core.typed p (hmem p b hb) r hrefs).visible ht hbx hsx

end

/-! ## The loop over the garbage -/

/-- The heap while cycles are removed. `P` are the zombies; everything that can be reached is
as it was, and of the rest the objects are before the loop, on `tmp_obj_list`. -/
structure FreeInv (body₀ : Bodies) (ext : Ptr → ℕ) (D : List Ptr) (rt : JSRuntime)
    (A P : Finset Ptr) : Prop where
  inv : Inv rt A P ext
  phase : rt.gc_phase = .REMOVE_CYCLES
  pinned : Pinned rt.body A ext
  same : ∀ p ∈ A, rt.body p = body₀ p
  garbage : ∀ p ∈ P, ¬ Reachable body₀.out ext p
  tmp : ∀ p ∈ rt.tmp_obj_list, p ∈ A ∧ ¬ Reachable body₀.out ext p
  values : ∀ p ∈ A, ¬ Reachable body₀.out ext p → ∀ b, body₀ p = some b →
    b.gc_obj_type.isValue = true → p ∈ rt.tmp_obj_list
  zombies : ∀ p ∈ P, p ∈ rt.gc_zero_ref_count_list ∧
    ∀ b, rt.body p = some b → b.gc_obj_type.isValue = true
  zero : ∀ p ∈ rt.gc_zero_ref_count_list,
    p ∈ P ∨ p ∈ A ∧ ¬ Reachable body₀.out ext p
  gc : rt.gc_obj_list = D
  unmarked : ∀ p ∈ D, rt.marked p = false

section Loop

variable {body₀ : Bodies} {ext : Ptr → ℕ} {D : List Ptr} {rt : JSRuntime} {A P : Finset Ptr}
  {p : Ptr}

/-- What can be reached is not touched. -/
theorem mem_of_reachable (hinv : Inv rt A P ext) (hsame : ∀ x ∈ A, rt.body x = body₀ x)
    (hgarbage : ∀ x ∈ P, ¬ Reachable body₀.out ext x) (hp : Reachable body₀.out ext p) : p ∈ A := by
  have hmem : ∀ x, 0 < rt.rc x → Reachable body₀.out ext x → x ∈ A := by
    intro x hpos hx
    obtain ⟨b, hb⟩ := hinv.core.exists_of_pos hpos
    rcases (hinv.core.alive x).mp (by simp [hb]) with hA | hP
    · exact hA
    · exact absurd hx (hgarbage x hP)
  have hboth : p ∈ A ∧ Reachable body₀.out ext p := by
    refine hp.mem_of_closed (S := fun x => x ∈ A ∧ Reachable body₀.out ext x) ?_ ?_
    · intro x hx
      exact ⟨hmem x (hinv.core.pos_of_ext hx) (.root hx), .root hx⟩
    · rintro x y ⟨hxA, hx⟩ hy
      have hyx : y ∈ rt.body.out x := by
        rw [Bodies.out, Bodies.refs, hsame x hxA]
        exact hy
      exact ⟨hmem y (hinv.core.pos_of_out hxA hyx) (hx.tail hy), hx.tail hy⟩
  exact hboth.1

/-- Once no object is before the loop, all that counts can be reached. -/
theorem FreeInv.reachable_of_mem (h : FreeInv body₀ ext D rt A P) (hnil : rt.tmp_obj_list = [])
    (hp : p ∈ A) : Reachable body₀.out ext p := by
  classical
  by_contra hnot
  have hempty : A.filter (fun x => ¬ Reachable body₀.out ext x) = ∅ := by
    refine eq_empty_of_ranked (fun x => (rt.body x).elim 0 fun b => b.gc_obj_type.level) ?_
    intro q hq
    obtain ⟨hqA, hqg⟩ := Finset.mem_filter.mp hq
    obtain ⟨b, hb⟩ := h.inv.core.exists_of_mem hqA
    have hv : b.gc_obj_type.isValue = false := by
      by_contra hv
      have := h.values q hqA hqg b (h.same q hqA ▸ hb) (by simpa using hv)
      simp [hnil] at this
    -- Its count is positive, nothing outside refers to it, so something else does.
    have hpos := h.inv.core.positive q hqA b hb hv
    have hext : ext q = 0 := by
      by_contra hne
      exact hqg (.root (Nat.pos_of_ne_zero hne))
    have hcounted := h.inv.core.counted q
    obtain ⟨x, hxA, hx⟩ := indeg_pos.mp (by omega : 0 < indeg rt.body.out A q)
    obtain ⟨bx, hbx⟩ := h.inv.core.exists_of_mem hxA
    obtain ⟨r, hr, ht⟩ := List.mem_filterMap.mp hx
    have hxg : ¬ Reachable body₀.out ext x := by
      intro hreach
      refine hqg (hreach.tail ?_)
      rw [Bodies.out, Bodies.refs, ← h.same x hxA]
      exact hx
    refine ⟨x, Finset.mem_filter.mpr ⟨hxA, hxg⟩, ?_⟩
    have htype := (h.inv.core.typed x hxA r hr q b ht hb).1
    have hlevel := Body.level_lt (b := bx) (by rwa [Bodies.refs_of_some hbx] at hr)
    rw [Ref.level_eq (htype ▸ hv), ← htype] at hlevel
    simpa [hb, hbx] using hlevel
  have hpG : p ∈ A.filter (fun x => ¬ Reachable body₀.out ext x) := Finset.mem_filter.mpr ⟨hp, hnot⟩
  simp [hempty] at hpG

/-- One turn for an object or bytecode: it is freed, or becomes a zombie. -/
theorem FreeInv.turn_value (h : FreeInv body₀ ext D rt A P) (hD : ∀ q ∈ D, Reachable body₀.out ext q)
    {o : JSGCObject} (hp : p ∈ rt.tmp_obj_list) (ho : rt.mem p = some o)
    (hv : o.body.gc_obj_type.isValue = true) :
    ∃ rt' A' P', free_gc_object p rt = some rt' ∧ FreeInv body₀ ext D rt' A' P' ∧
      rt'.tmp_obj_list.length < rt.tmp_obj_list.length := by
  obtain ⟨hpA, hpg⟩ := h.tmp p hp
  have hext : ext p = 0 := by
    by_contra hne
    exact hpg (.root (Nat.pos_of_ne_zero hne))
  obtain ⟨rt', A', P', hrun, hinv, hf⟩ := h.inv.free_gc_object hpA ho hv (by simp [h.phase])
    (by simp [h.phase]) hext h.pinned
  obtain ⟨hP, hgc, htmp, hzero⟩ := hf.cycles h.phase
  have hnd := h.inv.nodup
  simp only [JSRuntime.listed, List.nodup_append] at hnd
  -- What was counted and is still allocated is still counted, and nothing new is a zombie
  -- but the object itself.
  have hPsub : ∀ q ∈ P', q = p ∨ q ∈ P := by
    intro q hq
    rcases hP with ⟨rfl, -⟩ | ⟨rfl, -⟩
    · exact .inr hq
    · exact Finset.mem_insert.mp hq
  have hsubP : ∀ q ∈ P, q ∈ P' := by
    intro q hq
    rcases hP with ⟨rfl, -⟩ | ⟨rfl, -⟩
    · exact hq
    · exact Finset.mem_insert_of_mem hq
  have hstay : ∀ q ∈ A, q ≠ p → (rt'.mem q).isSome → q ∈ A' := by
    intro q hq hqp hs
    rcases (hinv.core.alive q).mp (by simpa [JSRuntime.body] using hs) with hA | hP'
    · exact hA
    · rcases hPsub q hP' with hqp' | hqP
      · exact absurd hqp' hqp
      · exact absurd rfl (h.inv.core.ne_of_mem hq hqP)
  have hsome : ∀ q, q ∈ A' ∨ q ∈ P' → (rt'.mem q).isSome := by
    intro q hq
    simpa [JSRuntime.body] using (hinv.core.alive q).mpr hq
  have hsame : ∀ q ∈ A', rt'.body q = body₀ q := by
    intro q hq
    have hqe := hf.sub hq
    obtain ⟨b, hb⟩ := hinv.core.exists_of_mem hq
    rw [hb, ← h.same q (Finset.mem_of_mem_erase hqe), hf.body (Finset.ne_of_mem_erase hqe) hb]
  have hgarbage : ∀ q ∈ P', ¬ Reachable body₀.out ext q := by
    intro q hq
    rcases hPsub q hq with rfl | hqP
    · exact hpg
    · exact h.garbage q hqP
  have hDalive : ∀ q ∈ D, (rt'.mem q).isSome := fun q hq =>
    hsome q (.inl (mem_of_reachable hinv hsame hgarbage (hD q hq)))
  have hpD : p ∉ D := fun hmem => hpg (hD p hmem)
  have htmp' : ∀ q, q ∈ rt'.tmp_obj_list ↔ q ≠ p ∧ q ∈ rt.tmp_obj_list ∧ (rt'.mem q).isSome := by
    intro q
    rw [htmp, (hnd.1.2.1.filter _).mem_erase_iff, List.mem_filter]
  refine ⟨rt', A', P', hrun, ⟨hinv, hf.phase.trans h.phase, hf.pinned h.pinned, hsame, hgarbage,
    ?_, ?_, ?_, ?_, ?_, ?_⟩, ?_⟩
  · intro q hq
    obtain ⟨hqp, hqt, hs⟩ := (htmp' q).mp hq
    exact ⟨hstay q (h.tmp q hqt).1 hqp hs, (h.tmp q hqt).2⟩
  · intro q hq hqg b hb hbv
    have hqe := hf.sub hq
    exact (htmp' q).mpr ⟨Finset.ne_of_mem_erase hqe,
      h.values q (Finset.mem_of_mem_erase hqe) hqg b hb hbv, hsome q (.inl hq)⟩
  · intro q hq
    by_cases hqp : q = p
    · subst hqp
      rcases hP with ⟨rfl, hnone⟩ | ⟨-, hmem, hval⟩
      · have hs := hsome q (.inr hq)
        simp [hnone] at hs
      · exact ⟨hmem, hval⟩
    · have hqP := (hPsub q hq).resolve_left hqp
      obtain ⟨hz, hval⟩ := h.zombies q hqP
      exact ⟨(hzero q hqp).mpr ⟨hz, hsome q (.inr hq)⟩, fun b hb => hval b (hf.body hqp hb)⟩
  · intro q hq
    have hs : (rt'.mem q).isSome := hinv.alive_of_listed (by simp [JSRuntime.listed, hq])
    by_cases hqp : q = p
    · subst hqp
      rcases hP with ⟨-, hnone⟩ | ⟨rfl, -⟩
      · simp [hnone] at hs
      · exact .inl (Finset.mem_insert_self _ _)
    · rcases h.zero q ((hzero q hqp).mp hq).1 with hqP | ⟨hqA, hqg⟩
      · exact .inl (hsubP q hqP)
      · exact .inr ⟨hstay q hqA hqp hs, hqg⟩
  · have hfilter : rt.gc_obj_list.filter (fun q => (rt'.mem q).isSome) = D := by
      rw [h.gc, List.filter_eq_self]
      exact hDalive
    rw [hgc, hfilter, List.erase_of_not_mem hpD]
  · intro q hq
    obtain ⟨o', ho'⟩ := Option.isSome_iff_exists.mp (hDalive q hq)
    have hqp : q ≠ p := by
      rintro rfl
      exact hpD hq
    obtain ⟨o₀, ho₀, -, hm⟩ := hf.same q hqp o' ho'
    rw [rt'.marked_eq ho', ← hm, ← rt.marked_eq ho₀]
    exact h.unmarked q hq
  · have hsub : rt'.tmp_obj_list.Sublist (rt.tmp_obj_list.erase p) := by
      rw [htmp]
      exact List.Sublist.erase p List.filter_sublist
    have hlen := hsub.length_le
    rw [List.length_erase_of_mem hp] at hlen
    have hpos := List.length_pos_of_mem hp
    omega

/-- One turn for what no value names: it is put aside. -/
theorem FreeInv.turn_other (h : FreeInv body₀ ext D rt A P)
    (hD : ∀ q ∈ D, Reachable body₀.out ext q) {o : JSGCObject} (hp : p ∈ rt.tmp_obj_list)
    (ho : rt.mem p = some o) (hv : o.body.gc_obj_type.isValue = false) :
    FreeInv body₀ ext D (rt.move_to_zero p) A P ∧
      (rt.move_to_zero p).tmp_obj_list.length < rt.tmp_obj_list.length := by
  obtain ⟨hpA, hpg⟩ := h.tmp p hp
  have hlisted : p ∈ rt.listed := by simp [JSRuntime.listed, hp]
  have hnd := h.inv.nodup
  simp only [JSRuntime.listed, List.nodup_append] at hnd
  have hpD : p ∉ D := fun hmem => hpg (hD p hmem)
  have htmp : ∀ q, q ∈ (rt.move_to_zero p).tmp_obj_list ↔ q ≠ p ∧ q ∈ rt.tmp_obj_list :=
    fun q => hnd.1.2.1.mem_erase_iff
  have hzero : ∀ q, q ∈ (rt.move_to_zero p).gc_zero_ref_count_list ↔
      q = p ∨ q ∈ rt.gc_zero_ref_count_list := by
    intro q
    simp only [JSRuntime.move_to_zero, JSRuntime.list_del, List.mem_append, List.mem_singleton,
      hnd.2.1.mem_erase_iff]
    tauto
  refine ⟨⟨h.inv.move_to_zero hlisted h.phase, h.phase, h.pinned, h.same, h.garbage, ?_, ?_, ?_, ?_,
    ?_, h.unmarked⟩, ?_⟩
  · intro q hq
    exact h.tmp q ((htmp q).mp hq).2
  · intro q hq hqg b hb hbv
    refine (htmp q).mpr ⟨?_, h.values q hq hqg b hb hbv⟩
    rintro rfl
    rw [← h.same q hq, rt.body_eq ho] at hb
    rw [← Option.some.inj hb, hv] at hbv
    exact absurd hbv (by decide)
  · intro q hq
    obtain ⟨hz, hval⟩ := h.zombies q hq
    exact ⟨(hzero q).mpr (.inr hz), hval⟩
  · intro q hq
    rcases (hzero q).mp hq with rfl | hz
    · exact .inr ⟨hpA, hpg⟩
    · exact h.zero q hz
  · change rt.gc_obj_list.erase p = D
    rw [h.gc, List.erase_of_not_mem hpD]
  · change (rt.tmp_obj_list.erase p).length < _
    rw [List.length_erase_of_mem hp]
    have hpos := List.length_pos_of_mem hp
    omega

/-- The loop runs until `tmp_obj_list` is empty. -/
theorem gc_free_cycles_loop_spec (hD : ∀ q ∈ D, Reachable body₀.out ext q) (n : ℕ)
    (h : FreeInv body₀ ext D rt A P) (hn : rt.tmp_obj_list.length ≤ n) :
    ∃ rt' A' P', gc_free_cycles_loop n rt = some rt' ∧ FreeInv body₀ ext D rt' A' P' ∧
      rt'.tmp_obj_list = [] := by
  induction n generalizing rt A P with
  | zero =>
    have hnil := List.length_eq_zero_iff.mp (Nat.le_zero.mp hn)
    exact ⟨rt, A, P, by rw [gc_free_cycles_loop, if_pos hnil], h, hnil⟩
  | succ n ih =>
    cases hlist : rt.tmp_obj_list with
    | nil => exact ⟨rt, A, P, by rw [gc_free_cycles_loop, hlist], h, hlist⟩
    | cons p l =>
      have hp : p ∈ rt.tmp_obj_list := by simp [hlist]
      obtain ⟨b, hb⟩ := h.inv.core.exists_of_mem (h.tmp p hp).1
      obtain ⟨o, ho, rfl⟩ := rt.mem_of_body hb
      by_cases hv : o.body.gc_obj_type.isValue = true
      · obtain ⟨rt₁, A₁, P₁, hrun, h₁, hlt⟩ := h.turn_value hD hp ho hv
        obtain ⟨rt', A', P', hrun', h', hnil⟩ := ih h₁ (by omega)
        refine ⟨rt', A', P', ?_, h', hnil⟩
        rw [gc_free_cycles_loop, hlist]
        simp [ho, hv, hrun, hrun']
      · obtain ⟨h₁, hlt⟩ := h.turn_other hD hp ho (by simpa using hv)
        obtain ⟨rt', A', P', hrun', h', hnil⟩ := ih h₁ (by omega)
        refine ⟨rt', A', P', ?_, h', hnil⟩
        rw [gc_free_cycles_loop, hlist]
        simp [ho, hv, hrun']

/-- The zombies are freed. -/
theorem free_zombies_spec {rt : JSRuntime} {ps : List Ptr} (hnd : ps.Nodup)
    (h : ∀ p ∈ ps, ∃ b, rt.body p = some b ∧ b.gc_obj_type.isValue = true) :
    ∃ rt', free_zombies ps rt = some rt' ∧ rt'.gc_obj_list = rt.gc_obj_list ∧
      rt'.tmp_obj_list = rt.tmp_obj_list ∧ rt'.gc_phase = rt.gc_phase ∧
      ∀ q, rt'.mem q = if q ∈ ps then none else rt.mem q := by
  induction ps generalizing rt with
  | nil => exact ⟨rt, rfl, rfl, rfl, rfl, fun q => by simp⟩
  | cons p ps ih =>
    obtain ⟨hnot, hnd⟩ := List.nodup_cons.mp hnd
    obtain ⟨b, hb, hv⟩ := h p (by simp)
    obtain ⟨o, ho, rfl⟩ := rt.mem_of_body hb
    have hrest : ∀ q ∈ ps, ∃ b, (rt.js_free_rt p).body q = some b ∧ b.gc_obj_type.isValue = true := by
      intro q hq
      obtain ⟨b, hb, hv⟩ := h q (by simp [hq])
      refine ⟨b, ?_, hv⟩
      rw [JSRuntime.body_js_free_rt, Function.update_of_ne]
      · exact hb
      · rintro rfl
        exact hnot hq
    obtain ⟨rt', hrun, hgc, htmp, hph, hmem⟩ := ih hnd hrest
    refine ⟨rt', by simp [free_zombies, ho, hv, hrun], hgc, htmp, hph, fun q => ?_⟩
    rw [hmem q]
    by_cases hqp : q = p
    · simp [hqp]
    · by_cases hq : q ∈ ps <;> simp [hq, hqp]

end Loop

/-! ## The collection -/

/-- The heap between two operations: nothing is being freed, the counts are right, and no
object is marked. `ext` are the references held from outside. -/
structure Settled (rt : JSRuntime) (ext : Ptr → ℕ) : Prop where
  phase : rt.gc_phase = .NONE
  tmp : rt.tmp_obj_list = []
  unmarked : ∀ p ∈ rt.gc_obj_list, rt.marked p = false
  heap : ∃ A, Inv rt A ∅ ext ∧ Pinned rt.body A ext

section Collection

variable {rt : JSRuntime} {ext : Ptr → ℕ}

/-- What is referred to from outside, directly or not, is allocated. -/
theorem Settled.alive (h : Settled rt ext) {p : Ptr} (hp : Reachable rt.body.out ext p) :
    (rt.mem p).isSome := by
  obtain ⟨A, hinv, -⟩ := h.heap
  have hpA := mem_of_reachable hinv (fun _ _ => rfl) (by simp) hp
  simpa [JSRuntime.body] using (hinv.core.alive p).mpr (.inl hpA)

/-- The state in which `gc_free_cycles` starts. -/
theorem FreeInv.start {A : Finset Ptr} (h : Inv rt A ∅ ext) (htmp : rt.tmp_obj_list = [])
    (hphase : rt.gc_phase = .NONE) (hpin : Pinned rt.body A ext) {rt₁ : JSRuntime}
    (hbody : rt₁.body = rt.body) (hrc : rt₁.rc = rt.rc) (hzero : rt₁.gc_zero_ref_count_list = [])
    (hperm : (rt₁.gc_obj_list ++ rt₁.tmp_obj_list).Perm rt.gc_obj_list)
    (hmark : ∀ p ∈ rt₁.gc_obj_list, rt₁.marked p = false)
    (hreach : ∀ p ∈ rt.gc_obj_list, (p ∈ rt₁.gc_obj_list ↔ Reachable rt.body.out ext p)) :
    FreeInv rt.body ext rt₁.gc_obj_list { rt₁ with gc_phase := .REMOVE_CYCLES } A ∅ := by
  have hlisted : rt.listed = rt.gc_obj_list := by simp [JSRuntime.listed, htmp, h.rest hphase]
  have hlisted₁ : rt₁.listed = rt₁.gc_obj_list ++ rt₁.tmp_obj_list := by
    rw [JSRuntime.listed, hzero, List.append_nil]
  have hnd : (rt₁.gc_obj_list ++ rt₁.tmp_obj_list).Nodup :=
    hperm.nodup_iff.mpr (hlisted ▸ h.nodup)
  have hmem : ∀ p ∈ rt₁.tmp_obj_list, p ∈ rt.gc_obj_list := fun p hp =>
    hperm.subset (List.mem_append_right _ hp)
  have hA : ∀ p ∈ rt.gc_obj_list, p ∈ A := by
    intro p hp
    obtain ⟨b, hb, -⟩ := (h.mem_listed p).mp (hlisted ▸ hp)
    simpa using (h.core.alive p).mp (by simp [hb])
  refine ⟨⟨?_, hlisted₁ ▸ hnd, ?_, fun hne => absurd rfl hne, fun hnone => absurd hnone (by simp)⟩,
    rfl, ?_, ?_, by simp, ?_, ?_, by simp, ?_, rfl, hmark⟩
  · have hcore : Core rt.body rt.rc .REMOVE_CYCLES A ∅ ext := h.core.phase_congr (by simp [hphase])
    rw [← hbody, ← hrc] at hcore
    exact hcore
  · intro p
    change p ∈ rt₁.listed ↔ ∃ b, rt₁.body p = some b ∧ b.isOnStack = false
    rw [hlisted₁, hperm.mem_iff, hbody, ← hlisted]
    exact h.mem_listed p
  · change Pinned rt₁.body A ext
    rw [hbody]
    exact hpin
  · intro p _
    exact congrFun hbody p
  · intro p hp
    refine ⟨hA p (hmem p hp), fun hr => ?_⟩
    exact (List.nodup_append.mp hnd).2.2 p ((hreach p (hmem p hp)).mpr hr) p hp rfl
  · intro p hp hg b hb hv
    have hpL : p ∈ rt.gc_obj_list := by
      rw [← hlisted]
      exact (h.mem_listed p).mpr ⟨b, hb, Body.isOnStack_of_isValue hv⟩
    rcases List.mem_append.mp (hperm.symm.subset hpL) with hgc | ht
    · exact absurd ((hreach p hpL).mp hgc) hg
    · exact ht
  · intro p hp
    simp [hzero] at hp

/-- `gc_free_cycles` frees what is before it and nothing else, and passes its assertion. -/
theorem gc_free_cycles_spec {body₀ : Bodies} {D : List Ptr} {A : Finset Ptr}
    (hD : ∀ q ∈ D, Reachable body₀.out ext q)
    (h : FreeInv body₀ ext D { rt with gc_phase := .REMOVE_CYCLES } A ∅) :
    ∃ rt', gc_free_cycles rt = some rt' ∧ Settled rt' ext ∧
      (∀ p, (rt'.mem p).isSome ↔ Reachable body₀.out ext p) ∧
      ∀ p b, rt'.body p = some b → body₀ p = some b := by
  obtain ⟨rt₂, A₂, P₂, hrun₂, h₂, hnil⟩ := gc_free_cycles_loop_spec hD _ h (Nat.le_refl _)
  -- The list now holds the zombies and nothing else.
  have hA₂ : ∀ p, p ∈ A₂ ↔ Reachable body₀.out ext p := fun p =>
    ⟨h₂.reachable_of_mem hnil, mem_of_reachable h₂.inv h₂.same h₂.garbage⟩
  have hP₂ : ∀ p, p ∈ rt₂.gc_zero_ref_count_list ↔ p ∈ P₂ := by
    intro p
    refine ⟨fun hp => ?_, fun hp => (h₂.zombies p hp).1⟩
    rcases h₂.zero p hp with hP | ⟨hpA, hpg⟩
    · exact hP
    · exact absurd ((hA₂ p).mp hpA) hpg
  have hrc₂ : ∀ p ∈ P₂, rt₂.rc p = 0 := by
    intro p hp
    have hpg := h₂.garbage p hp
    have hext : ext p = 0 := by
      by_contra hne
      exact hpg (.root (Nat.pos_of_ne_zero hne))
    have hdeg : indeg rt₂.body.out A₂ p = 0 := by
      by_contra hne
      obtain ⟨x, hx, hxp⟩ := indeg_pos.mp (Nat.pos_of_ne_zero hne)
      refine hpg (((hA₂ x).mp hx).tail ?_)
      rw [Bodies.out, Bodies.refs, ← h₂.same x hx]
      exact hxp
    rw [h₂.inv.core.counted p, hext, hdeg]
    rfl
  have hnd := h₂.inv.nodup
  simp only [JSRuntime.listed, List.nodup_append] at hnd
  have hvalues : ∀ p ∈ rt₂.gc_zero_ref_count_list,
      ∃ b, ({ rt₂ with gc_phase := .NONE } : JSRuntime).body p = some b ∧
        b.gc_obj_type.isValue = true := by
    intro p hp
    have hpP := (hP₂ p).mp hp
    obtain ⟨b, hb⟩ := Option.isSome_iff_exists.mp ((h₂.inv.core.alive p).mpr (.inr hpP))
    exact ⟨b, hb, (h₂.zombies p hpP).2 b hb⟩
  obtain ⟨rt₃, hrun₃, hgc, htmp, hph, hmem⟩ := free_zombies_spec hnd.2.1 hvalues
  have hmem₃ : ∀ q, rt₃.mem q = if q ∈ P₂ then none else rt₂.mem q := by
    intro q
    rw [hmem q]
    simp only [hP₂]
  have hbody₃ : ∀ q, rt₃.body q = if q ∈ P₂ then none else rt₂.body q := by
    intro q
    rw [JSRuntime.body, hmem₃ q]
    split <;> rfl
  have hrc₃ : rt₃.rc = rt₂.rc := by
    funext q
    rw [JSRuntime.rc, hmem₃ q]
    split
    · next hq => exact (hrc₂ q hq).symm
    · rfl
  have hcore : Core rt₃.body rt₃.rc .NONE A₂ ∅ ext := by
    rw [hrc₃]
    exact h₂.inv.core.clear hbody₃ hrc₂
  have hsub : ∀ p b, rt₃.body p = some b → rt₂.body p = some b := by
    intro p b hb
    rw [hbody₃ p] at hb
    split at hb
    · exact absurd hb (by simp)
    · exact hb
  have halive : ∀ p, (rt₃.body p).isSome ↔ p ∈ A₂ := by
    intro p
    simpa using hcore.alive p
  have hgcD : rt₃.gc_obj_list = D := hgc.trans h₂.gc
  have hlisted : ∀ p, p ∈ D ↔ ∃ b, rt₃.body p = some b ∧ b.isOnStack = false := by
    intro p
    have hl := h₂.inv.mem_listed p
    rw [JSRuntime.listed, hnil, h₂.gc, List.append_nil, List.mem_append, hP₂ p] at hl
    constructor
    · intro hp
      obtain ⟨b, hb, hs⟩ := hl.mp (.inl hp)
      refine ⟨b, ?_, hs⟩
      rw [hbody₃ p, if_neg fun hP => h₂.garbage p hP (hD p hp)]
      exact hb
    · rintro ⟨b, hb, hs⟩
      refine (hl.mpr ⟨b, hsub p b hb, hs⟩).resolve_right fun hP => ?_
      rw [hbody₃ p, if_pos hP] at hb
      simp at hb
  refine ⟨{ rt₃ with gc_zero_ref_count_list := [] }, ?_, ⟨hph, htmp.trans hnil, ?_, A₂, ?_, ?_⟩, ?_, ?_⟩
  · have hloop : gc_free_cycles rt = (gc_free_cycles_loop rt.tmp_obj_list.length
        { rt with gc_phase := .REMOVE_CYCLES }).bind fun rt =>
          (free_zombies rt.gc_zero_ref_count_list { rt with gc_phase := .NONE }).bind
            fun rt => some { rt with gc_zero_ref_count_list := [] } := rfl
    rw [hloop, hrun₂, Option.bind_some, hrun₃]
    rfl
  · intro p hp
    have hpD : p ∈ D := hgcD ▸ hp
    change rt₃.marked p = false
    rw [JSRuntime.marked, hmem₃ p, if_neg fun hP => h₂.garbage p hP (hD p hpD)]
    exact h₂.unmarked p hpD
  · have hl : ({ rt₃ with gc_zero_ref_count_list := [] } : JSRuntime).listed = D := by
      simp [JSRuntime.listed, hgcD, htmp, hnil]
    refine ⟨hph ▸ hcore, ?_, ?_, ?_, fun _ => rfl⟩
    · rw [hl, ← h₂.gc]
      exact hnd.1.1
    · intro p
      rw [hl]
      exact hlisted p
    · intro _ p hp
      refine iff_of_false (fun hz => ?_) (by simp)
      -- What can be reached is referred to from outside or by something that is left.
      have hcounted := hcore.counted p
      change rt₃.rc p = 0 at hz
      rcases ((hA₂ p).mp hp).root_or_tail with hext | ⟨x, hx, hxp⟩
      · omega
      · have hxA := (hA₂ x).mpr hx
        have hpos : 0 < indeg rt₃.body.out A₂ p := by
          refine indeg_pos.mpr ⟨x, hxA, ?_⟩
          rw [Bodies.out, Bodies.refs, hbody₃ x, if_neg fun hP => h₂.garbage x hP hx, h₂.same x hxA]
          exact hxp
        omega
  · intro p hp b hb
    exact h₂.pinned p hp b (hsub p b hb)
  · intro p
    rw [← hA₂ p, ← halive p]
    simp [JSRuntime.body]
  · intro p b hb
    have hpA := (halive p).mp (by
      change rt₃.body p = some b at hb
      simp [hb])
    rw [← h₂.same p hpA]
    exact hsub p b hb

/-- **`JS_RunGC`.** From any heap between two operations the collection succeeds: no assertion
fails and nothing unallocated is touched. What is left is what can be reached from outside,
with its data as it was, and the counts are right again. -/
theorem JS_RunGC_spec (h : Settled rt ext) :
    ∃ rt', JS_RunGC rt = some rt' ∧ Settled rt' ext ∧
      (∀ p, (rt'.mem p).isSome ↔ Reachable rt.body.out ext p) ∧
      ∀ p b, rt'.body p = some b → rt.body p = some b := by
  obtain ⟨A, hinv, hpin⟩ := h.heap
  obtain ⟨rt₁, hrun, hbody, hrc, hph, hzero, hperm, hmark, hreach⟩ :=
    gc_decref_gc_scan_spec hinv h.tmp h.phase h.unmarked
  have hg := hinv.graph h.tmp h.phase
  have hout : ∀ p ∈ rt.gc_obj_list, (p ∈ rt₁.gc_obj_list ↔ Reachable rt.body.out ext p) :=
    fun p hp => (hreach p hp).trans (hinv.reachable_vis_iff hg hp)
  have hD : ∀ q ∈ rt₁.gc_obj_list, Reachable rt.body.out ext q := fun q hq =>
    (hout q (hperm.subset (List.mem_append_left _ hq))).mp hq
  obtain ⟨rt', hfree, hrest⟩ := gc_free_cycles_spec hD
    (.start hinv h.tmp h.phase hpin hbody hrc hzero hperm hmark hout)
  refine ⟨rt', ?_, hrest⟩
  have hall : JS_RunGC rt = ((gc_decref rt).bind gc_scan).bind gc_free_cycles := by
    rw [Option.bind_assoc]
    rfl
  rw [hall, hrun]
  exact hfree

end Collection

/-- A heap that is not `Settled` because a suspended frame has an open variable. The generator
0 and what it holds are garbage; the variable 2 of its frame has the object 1 in it and is
captured by the object 3, which is owned. -/
def openFrame : JSRuntime where
  mem := fun
    | 0 => some
        { ref_count := 1, mark := false
          body := .object
            { free_mark := false, shape := none, prop := []
              u := .generator (some
                { cur_func := .undefined, this_val := .undefined
                  stack := some [.ptr .object 1, .ptr .object 0], var_ref_list := [2] }) } }
    | 1 => some
        { ref_count := 1, mark := false
          body := .object { free_mark := false, shape := none, prop := [], u := .none } }
    | 2 => some { ref_count := 1, mark := false, body := .var_ref (.onStack (some 0) 0) }
    | 3 => some
        { ref_count := 1, mark := false
          body := .object { free_mark := false, shape := none, prop := [.varref 2], u := .none } }
    | _ => none
  gc_obj_list := [1, 0, 3]
  tmp_obj_list := []
  gc_zero_ref_count_list := []
  gc_phase := .NONE

-- The variable is not visited, so closing it gives it a value that is freed with the garbage.
example : (JS_RunGC openFrame).map (fun rt => (rt.body 1, rt.body 2)) =
    some (none, some (.var_ref (.detached (.ptr .object 1)))) := by
  decide

end QuickJSSwift.Gc
