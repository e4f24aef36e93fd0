/-
The collector, `JS_RunGC`, by trial deletion.

`gc_decref` takes every reference between GC objects off the counts, so that what is left
of the count of an object are the references from outside, and puts the objects that have
none on `tmp_obj_list`. `gc_scan` gives the references of the others back, and an object
whose count becomes positive that way joins the end of `gc_obj_list`, the list the loop is
walking; what remains on `tmp_obj_list` is referred to from nowhere else. `gc_free_cycles`
frees it.

"Only need to free the GC object associated with JS values. The rest will be automatically
removed because they must be referenced by them": the shapes, variables, async functions
and contexts among the garbage are moved to `gc_zero_ref_count_list`, and each has to be
gone from it, freed with the last object that refers to it, before the assertion at the end
looks at that list.
-/
import QuickJSSwift.Release

set_option autoImplicit false

namespace QuickJSSwift.Gc

open RefGraph

/-! ## The algorithm -/

/-- A visitor is called on one object after the other. -/
def visit (mark_func : Ptr → JSRuntime → Option JSRuntime) :
    List Ptr → JSRuntime → Option JSRuntime
  | [], rt => some rt
  | q :: qs, rt => do
    let rt ← mark_func q rt
    visit mark_func qs rt

/-- `mark_children`, with the assertion that a variable on a list is detached. -/
def mark_children (mark_func : Ptr → JSRuntime → Option JSRuntime) (p : Ptr) (rt : JSRuntime) :
    Option JSRuntime := do
  let o ← rt.mem p
  guard (o.body.isOnStack = false)
  visit mark_func ((o.body.mark_children rt.is_detached).filterMap Ref.target) rt

def gc_decref_child (p : Ptr) (rt : JSRuntime) : Option JSRuntime := do
  let o ← rt.mem p
  guard (0 < o.ref_count)
  let rt := rt.store p { o with ref_count := o.ref_count - 1 }
  if o.ref_count - 1 = 0 ∧ o.mark = true then return rt.move_to_tmp p else return rt

/-- `el->next` of an element of a list. -/
def next (l : List Ptr) (el : Ptr) : Option Ptr := (l.dropWhile (· ≠ el)).tail.head?

/-- The loop of `gc_decref`, a `list_for_each_safe`: the element after `el` is read before
the body runs. -/
def gc_decref_loop : ℕ → Option Ptr → JSRuntime → Option JSRuntime
  | _, none, rt => some rt
  | 0, some _, _ => none
  | n + 1, some p, rt => do
    let el1 := next rt.gc_obj_list p
    let o ← rt.mem p
    guard (o.mark = false)
    let rt ← mark_children gc_decref_child p rt
    let o ← rt.mem p
    let rt := rt.store p { o with mark := true }
    gc_decref_loop n el1 (if o.ref_count = 0 then rt.move_to_tmp p else rt)

def gc_decref (rt : JSRuntime) : Option JSRuntime :=
  gc_decref_loop rt.gc_obj_list.length rt.gc_obj_list.head? { rt with tmp_obj_list := [] }

def gc_scan_incref_child (p : Ptr) (rt : JSRuntime) : Option JSRuntime := do
  let o ← rt.mem p
  if o.ref_count + 1 = 1 then
    return (rt.store p { o with ref_count := o.ref_count + 1, mark := false }).move_to_gc p
  else return rt.store p { o with ref_count := o.ref_count + 1 }

def gc_scan_incref_child2 (p : Ptr) (rt : JSRuntime) : Option JSRuntime := do
  let o ← rt.mem p
  return rt.store p { o with ref_count := o.ref_count + 1 }

/-- The first loop of `gc_scan`, a `list_for_each`: the element after `el` is read after
the body has run. -/
def gc_scan_loop : ℕ → Option Ptr → JSRuntime → Option JSRuntime
  | _, none, rt => some rt
  | 0, some _, _ => none
  | n + 1, some p, rt => do
    let o ← rt.mem p
    guard (0 < o.ref_count)
    let rt ← mark_children gc_scan_incref_child p (rt.store p { o with mark := false })
    gc_scan_loop n (next rt.gc_obj_list p) rt

/-- `gc_scan`. The visitor of the second loop moves nothing. -/
def gc_scan (rt : JSRuntime) : Option JSRuntime := do
  let rt ← gc_scan_loop rt.listed.length rt.gc_obj_list.head? rt
  visit (mark_children gc_scan_incref_child2) rt.tmp_obj_list rt

/-- The first loop of `gc_free_cycles`; every turn takes an object off the list. -/
def gc_free_cycles_loop : ℕ → JSRuntime → Option JSRuntime
  | 0, rt => if rt.tmp_obj_list = [] then some rt else none
  | n + 1, rt =>
    match rt.tmp_obj_list with
    | [] => some rt
    | p :: _ => do
      let o ← rt.mem p
      let rt ← if o.body.gc_obj_type.isValue then free_gc_object p rt else some (rt.move_to_zero p)
      gc_free_cycles_loop n rt

/-- The last loop of `gc_free_cycles`. -/
def free_zombies : List Ptr → JSRuntime → Option JSRuntime
  | [], rt => some rt
  | p :: ps, rt => do
    let o ← rt.mem p
    guard (o.body.gc_obj_type.isValue = true)
    free_zombies ps (rt.js_free_rt p)

def gc_free_cycles (rt : JSRuntime) : Option JSRuntime := do
  let rt ← gc_free_cycles_loop rt.tmp_obj_list.length { rt with gc_phase := .REMOVE_CYCLES }
  let rt ← free_zombies rt.gc_zero_ref_count_list { rt with gc_phase := .NONE }
  return { rt with gc_zero_ref_count_list := [] }

def JS_RunGC (rt : JSRuntime) : Option JSRuntime := do
  let rt ← gc_decref rt
  let rt ← gc_scan rt
  gc_free_cycles rt

/-! ## What is visited -/

namespace Bodies

def is_detached (body : Bodies) (p : Ptr) : Bool :=
  match body p with
  | some (.var_ref v) => v.is_detached
  | _ => false

/-- The objects that `mark_children` calls its visitor on. -/
def vis (body : Bodies) (p : Ptr) : List Ptr :=
  (body p).elim [] fun b => (b.mark_children body.is_detached).filterMap Ref.target

variable {body : Bodies} {p q : Ptr} {b : Body} {r : Ref}

theorem vis_perm (hb : body p = some b) :
    (body.vis p).Perm (b.refs.filterMap (Ref.visible body.is_detached)) := by
  rw [vis, hb]
  exact Body.mark_agrees b

/-- A visible reference is a reference, and what it shows is not on a stack. -/
theorem Typed.of_visible (hr : body.Typed r) (hv : r.visible body.is_detached = some q)
    (hb : body q = some b) : r.target = some q ∧ b.isOnStack = false := by
  cases r with
  | var_ref p =>
    by_cases hd : body.is_detached p
    · simp only [Ref.visible, hd, if_true, Option.some.injEq] at hv
      subst hv
      refine ⟨rfl, ?_⟩
      rw [is_detached, hb] at hd
      cases b with
      | var_ref v => simpa [Body.isOnStack] using hd
      | _ => rfl
    · simp [Ref.visible, hd] at hv
  | export_var p =>
    obtain rfl : p = q := Option.some.inj hv
    exact ⟨rfl, (hr p b rfl hb).2 rfl⟩
  | value v =>
    refine ⟨hv, Body.isOnStack_of_isValue ?_⟩
    rw [(hr q b hv hb).1]
    exact Ref.isValue_of_value v
  | _ =>
    refine ⟨hv, ?_⟩
    have htype := (hr q b hv hb).1
    cases b with
    | var_ref v => simp [Body.gc_obj_type, Ref.gc_obj_type] at htype
    | _ => rfl

/-- A reference to something that is not on a stack is visible. -/
theorem Typed.visible (hr : body.Typed r) (ht : r.target = some q) (hb : body q = some b)
    (hs : b.isOnStack = false) : r.visible body.is_detached = some q := by
  cases r with
  | var_ref p =>
    obtain rfl : p = q := Option.some.inj ht
    have htype := (hr p b rfl hb).1
    cases b with
    | var_ref v =>
      have hd : body.is_detached p = true := by simpa [is_detached, hb, Body.isOnStack] using hs
      simp [Ref.visible, hd]
    | _ => simp [Body.gc_obj_type, Ref.gc_obj_type] at htype
  | _ => exact ht

/-- What is visible of the references to an object on a list are all of them. -/
theorem count_visible (rs : List Ref) (hr : ∀ r ∈ rs, body.Typed r) (hb : body q = some b)
    (hs : b.isOnStack = false) :
    (rs.filterMap (Ref.visible body.is_detached)).count q = (rs.filterMap Ref.target).count q := by
  induction rs with
  | nil => rfl
  | cons r rs ih =>
    have ih := ih fun r hmem => hr r (List.mem_cons_of_mem _ hmem)
    have hiff : r.visible body.is_detached = some q ↔ r.target = some q :=
      ⟨fun h => ((hr r (by simp)).of_visible h hb).1, fun h => (hr r (by simp)).visible h hb hs⟩
    rw [List.filterMap_cons, List.filterMap_cons]
    cases hv : r.visible body.is_detached with
    | none =>
      cases ht : r.target with
      | none => exact ih
      | some t =>
        have hne : t ≠ q := by
          rintro rfl
          simp [hiff.mpr ht] at hv
        simpa [List.count_cons, hne] using ih
    | some a =>
      by_cases haq : a = q
      · subst haq
        simp [hiff.mp hv, ih]
      · cases ht : r.target with
        | none => simpa [List.count_cons, haq] using ih
        | some t =>
          have hne : t ≠ q := by
            rintro rfl
            rw [hiff.mpr ht] at hv
            exact haq (Option.some.inj hv).symm
          simpa [List.count_cons, haq, hne] using ih

/-- A variable on a stack holds no reference. -/
theorem out_of_onStack (hb : body p = some b) (hs : b.isOnStack = true) : body.out p = [] := by
  rw [out, refs_of_some hb]
  cases b with
  | var_ref v =>
    cases v with
    | detached v => simp [Body.isOnStack, JSVarRef.is_detached] at hs
    | onStack f i => rfl
  | _ => simp [Body.isOnStack] at hs

end Bodies

theorem JSRuntime.is_detached_eq (rt : JSRuntime) : rt.is_detached = rt.body.is_detached := by
  funext p
  rw [JSRuntime.is_detached, Bodies.is_detached, JSRuntime.body]
  cases rt.mem p with
  | none => rfl
  | some o =>
    obtain ⟨c, m, b⟩ := o
    cases b <;> rfl

theorem mark_children_eq {rt : JSRuntime} {p : Ptr} {b : Body} (hb : rt.body p = some b)
    (hs : b.isOnStack = false) (f : Ptr → JSRuntime → Option JSRuntime) :
    mark_children f p rt = visit f (rt.body.vis p) rt := by
  obtain ⟨o, ho, rfl⟩ := rt.mem_of_body hb
  rw [mark_children, ho, rt.is_detached_eq, Bodies.vis, hb]
  simp [hs]

/-- The objects the collector works on, by the list they start on. -/
structure Graph (body : Bodies) (L : List Ptr) : Prop where
  nodup : L.Nodup
  tracked : ∀ p, p ∈ L ↔ ∃ b, body p = some b ∧ b.isOnStack = false
  closed : ∀ p ∈ L, ∀ q ∈ body.vis p, q ∈ L

section

variable {rt : JSRuntime} {A : Finset Ptr} {ext : Ptr → ℕ}

theorem Inv.graph (h : Inv rt A ∅ ext) (htmp : rt.tmp_obj_list = []) (hphase : rt.gc_phase = .NONE) :
    Graph rt.body rt.gc_obj_list := by
  have hlisted : rt.listed = rt.gc_obj_list := by
    simp [JSRuntime.listed, htmp, h.rest hphase]
  have htracked : ∀ p, p ∈ rt.gc_obj_list ↔ ∃ b, rt.body p = some b ∧ b.isOnStack = false := by
    rw [← hlisted]
    exact h.mem_listed
  refine ⟨hlisted ▸ h.nodup, htracked, ?_⟩
  intro p hp q hq
  obtain ⟨b, hb, hs⟩ := (htracked p).mp hp
  have hpA : p ∈ A := by simpa using (h.core.alive p).mp (by simp [hb])
  obtain ⟨r, hr, hv⟩ := List.mem_filterMap.mp ((Bodies.vis_perm hb).subset hq)
  have hrefs : r ∈ rt.body.refs p := by rwa [Bodies.refs_of_some hb]
  have htyped := h.core.typed p hpA r hrefs
  -- What is visible is allocated: it is detached, or its count is positive.
  have hex : ∃ bq, rt.body q = some bq := by
    cases hbq : rt.body q with
    | some bq => exact ⟨bq, rfl⟩
    | none =>
      have ht : r.target = some q := by
        cases r with
        | var_ref p' =>
          by_cases hd : rt.body.is_detached p'
          · simpa [Ref.visible, Ref.target, hd] using hv
          · simp [Ref.visible, hd] at hv
        | _ => exact hv
      have hpos := h.core.pos_of_out hpA (List.mem_filterMap.mpr ⟨r, hrefs, ht⟩)
      have := h.core.unallocated q hbq
      omega
  obtain ⟨bq, hbq⟩ := hex
  exact (htracked q).mpr ⟨bq, hbq, (htyped.of_visible hv hbq).2⟩

/-- The references the collector sees to one of its objects are all there are. -/
theorem Inv.indeg_vis (h : Inv rt A ∅ ext) {L : List Ptr} (hg : Graph rt.body L) {q : Ptr}
    (hq : q ∈ L) : indeg rt.body.vis L.toFinset q = indeg rt.body.out A q := by
  obtain ⟨bq, hbq, hsq⟩ := (hg.tracked q).mp hq
  have hsub : L.toFinset ⊆ A := by
    intro p hp
    obtain ⟨b, hb, -⟩ := (hg.tracked p).mp (List.mem_toFinset.mp hp)
    simpa using (h.core.alive p).mp (by simp [hb])
  have hsame : indeg rt.body.vis L.toFinset q = indeg rt.body.out L.toFinset q := by
    apply indeg_congr
    intro p hp
    obtain ⟨b, hb, -⟩ := (hg.tracked p).mp (List.mem_toFinset.mp hp)
    rw [(Bodies.vis_perm hb).count_eq, Bodies.out, Bodies.refs_of_some hb]
    refine Bodies.count_visible _ (fun r hr => ?_) hbq hsq
    exact h.core.typed p (hsub hp) r (by rwa [Bodies.refs_of_some hb])
  rw [hsame]
  refine Finset.sum_subset hsub fun p hpA hnot => ?_
  obtain ⟨b, hb⟩ := h.core.exists_of_mem hpA
  have hs : b.isOnStack = true := by
    by_contra hne
    exact hnot (List.mem_toFinset.mpr ((hg.tracked p).mpr ⟨b, hb, by simpa using hne⟩))
  rw [Bodies.out_of_onStack hb hs]
  rfl

end

/-! ## Trial deletion -/

namespace JSRuntime

def marked (rt : JSRuntime) (p : Ptr) : Bool := (rt.mem p).elim false JSGCObject.mark

theorem marked_eq {rt : JSRuntime} {p : Ptr} {o : JSGCObject} (h : rt.mem p = some o) :
    rt.marked p = o.mark := by
  rw [marked, h]
  rfl

theorem marked_store (rt : JSRuntime) (p : Ptr) (o : JSGCObject) :
    (rt.store p o).marked = Function.update rt.marked p o.mark := by
  funext q
  by_cases hqp : q = p
  · subst hqp
    simp [marked]
  · simp [marked, hqp]

end JSRuntime

/-- A header is written: the count and the mark at one address change. -/
structure Header (p : Ptr) (c : ℤ) (k : Bool) (rt rt' : JSRuntime) : Prop where
  body : rt'.body = rt.body
  rc : rt'.rc = Function.update rt.rc p c
  marked : rt'.marked = Function.update rt.marked p k
  gc_obj_list : rt'.gc_obj_list = rt.gc_obj_list
  tmp_obj_list : rt'.tmp_obj_list = rt.tmp_obj_list
  zero : rt'.gc_zero_ref_count_list = rt.gc_zero_ref_count_list
  phase : rt'.gc_phase = rt.gc_phase

theorem Header.store {rt : JSRuntime} {p : Ptr} {o : JSGCObject} (h : rt.mem p = some o) (c : ℤ)
    (k : Bool) : Header p c k rt (rt.store p { o with ref_count := c, mark := k }) := by
  refine ⟨?_, JSRuntime.rc_store _, JSRuntime.marked_store _ _ _, rfl, rfl, rfl, rfl⟩
  rw [JSRuntime.body_store, ← rt.body_eq h, Function.update_eq_self]

theorem Header.rc_of_ne {p q : Ptr} {c : ℤ} {k : Bool} {rt rt' : JSRuntime}
    (h : Header p c k rt rt') (hq : q ≠ p) : rt'.rc q = rt.rc q := by
  rw [h.rc, Function.update_of_ne hq]

theorem Header.rc_self {p : Ptr} {c : ℤ} {k : Bool} {rt rt' : JSRuntime}
    (h : Header p c k rt rt') : rt'.rc p = c := by
  rw [h.rc, Function.update_self]

section Decref

variable {body : Bodies} {L : List Ptr} {ext : Ptr → ℕ} {rc₀ : Ptr → ℤ} {rt : JSRuntime}
  {K R : List Ptr} {c : Ptr → ℕ}

/-- The heap while `gc_decref` runs: `K` have been visited, `R` have not, and `c` references
between the objects are still counted. -/
structure DecInv (body : Bodies) (L : List Ptr) (ext : Ptr → ℕ) (rc₀ : Ptr → ℤ) (rt : JSRuntime)
    (K R : List Ptr) (c : Ptr → ℕ) : Prop where
  body : rt.body = body
  rc : ∀ q, rt.rc q = if q ∈ L then (ext q + c q : ℤ) else rc₀ q
  marked : ∀ q ∈ L, (rt.marked q = true ↔ q ∈ K)
  gc : rt.gc_obj_list = K.filter (fun q => rt.rc q ≠ 0) ++ R
  tmp_nodup : rt.tmp_obj_list.Nodup
  tmp : ∀ q, q ∈ rt.tmp_obj_list ↔ q ∈ K ∧ rt.rc q = 0
  zero : rt.gc_zero_ref_count_list = []
  phase : rt.gc_phase = .NONE

theorem Graph.exists_obj (hg : Graph body L) {q : Ptr} (hq : q ∈ L) (hbody : rt.body = body) :
    ∃ o, rt.mem q = some o ∧ o.body.isOnStack = false := by
  obtain ⟨b, hb, hs⟩ := (hg.tracked q).mp hq
  rw [← hbody] at hb
  obtain ⟨o, ho, rfl⟩ := rt.mem_of_body hb
  exact ⟨o, ho, hs⟩

theorem DecInv.of_header (h : DecInv body L ext rc₀ rt K R c) {rt₁ : JSRuntime} {p : Ptr} {k : Bool}
    {v : ℤ} (hw : Header p v k rt rt₁) : rt₁.body = body ∧ rt₁.gc_zero_ref_count_list = [] ∧
      rt₁.gc_phase = .NONE :=
  ⟨hw.body.trans h.body, hw.zero.trans h.zero, hw.phase.trans h.phase⟩

/-- A visited object whose count has become zero leaves `gc_obj_list` for `tmp_obj_list`. -/
theorem DecInv.move {rt₁ : JSRuntime} {q : Ptr} (hK : K.Nodup) (hqK : q ∈ K)
    (hgc : rt₁.gc_obj_list = K.filter (fun x => rt.rc x ≠ 0) ++ R) (hqrc : rt.rc q ≠ 0)
    (hzero : rt₁.rc q = 0) (hother : ∀ x, x ≠ q → rt₁.rc x = rt.rc x)
    (hnd : rt₁.tmp_obj_list.Nodup) (htmp : ∀ x, x ∈ rt₁.tmp_obj_list ↔ x ∈ K ∧ rt.rc x = 0) :
    (rt₁.move_to_tmp q).gc_obj_list = K.filter (fun x => rt₁.rc x ≠ 0) ++ R ∧
      (rt₁.move_to_tmp q).tmp_obj_list.Nodup ∧
      ∀ x, x ∈ (rt₁.move_to_tmp q).tmp_obj_list ↔ x ∈ K ∧ rt₁.rc x = 0 := by
  have hqtmp : q ∉ rt₁.tmp_obj_list := fun hmem => hqrc ((htmp q).mp hmem).2
  refine ⟨?_, ?_, ?_⟩
  · have hmem : q ∈ K.filter fun x => rt.rc x ≠ 0 := List.mem_filter.mpr ⟨hqK, by simpa using hqrc⟩
    change rt₁.gc_obj_list.erase q = _
    rw [hgc, List.erase_append_left _ hmem, (hK.filter _).erase_eq_filter, List.filter_filter]
    congr 1
    apply List.filter_congr
    intro x _
    by_cases hx : x = q
    · subst hx
      simp [hzero]
    · simp [hx, hother x hx]
  · change (rt₁.tmp_obj_list.erase q ++ [q]).Nodup
    rw [List.erase_of_not_mem hqtmp, ← List.concat_eq_append]
    exact hnd.concat hqtmp
  · intro x
    change x ∈ rt₁.tmp_obj_list.erase q ++ [q] ↔ x ∈ K ∧ rt₁.rc x = 0
    rw [List.erase_of_not_mem hqtmp, List.mem_append, List.mem_singleton, htmp x]
    by_cases hx : x = q
    · subst hx
      simp [hqK, hzero]
    · simp [hx, hother x hx]

/-- `gc_decref_child` takes one reference off. -/
theorem DecInv.child (hg : Graph body L) (hL : L = K ++ R) {q : Ptr} (hq : q ∈ L)
    (h : DecInv body L ext rc₀ rt K R fun x => c x + if x = q then 1 else 0) :
    ∃ rt', gc_decref_child q rt = some rt' ∧ DecInv body L ext rc₀ rt' K R c := by
  obtain ⟨o, ho, -⟩ := hg.exists_obj hq h.body
  have hrc : o.ref_count = ext q + c q + 1 := by
    have := h.rc q
    rw [if_pos hq, rt.rc_eq ho, if_pos rfl] at this
    push_cast at this
    omega
  have hw := Header.store ho (o.ref_count - 1) o.mark
  generalize hrt₁ : rt.store q { o with ref_count := o.ref_count - 1 } = rt₁ at hw
  obtain ⟨hbody₁, hzero₁, hphase₁⟩ := h.of_header hw
  have hcount : ∀ x, rt₁.rc x = if x ∈ L then (ext x + c x : ℤ) else rc₀ x := by
    intro x
    by_cases hx : x = q
    · subst hx
      rw [hw.rc_self, if_pos hq]
      omega
    · rw [hw.rc_of_ne hx, h.rc x]
      simp [hx]
  have hmarked : ∀ x ∈ L, (rt₁.marked x = true ↔ x ∈ K) := by
    rw [hw.marked, ← rt.marked_eq ho, Function.update_eq_self]
    exact h.marked
  have hqrc : rt.rc q ≠ 0 := by
    rw [rt.rc_eq ho]
    omega
  have hpos : 0 < o.ref_count := by omega
  have hrun : gc_decref_child q rt =
      some (if o.ref_count - 1 = 0 ∧ o.mark = true then rt₁.move_to_tmp q else rt₁) := by
    simp only [gc_decref_child, ho, Option.bind_eq_bind, Option.bind_some, guard, hpos, if_pos,
      hrt₁]
    split <;> rfl
  rw [hrun]
  refine ⟨_, rfl, ?_⟩
  by_cases hmove : o.ref_count - 1 = 0 ∧ o.mark = true
  · -- The last of the references is gone, and the object was visited before.
    have hqK : q ∈ K := (h.marked q hq).mp (by rw [rt.marked_eq ho, hmove.2])
    obtain ⟨hgc, hnd, htmp⟩ := DecInv.move (List.nodup_append.mp (hL ▸ hg.nodup)).1 hqK
      (hw.gc_obj_list.trans h.gc) hqrc (hw.rc_self.trans hmove.1) (fun x hx => hw.rc_of_ne hx)
      (hw.tmp_obj_list ▸ h.tmp_nodup) (hw.tmp_obj_list ▸ h.tmp)
    rw [if_pos hmove]
    refine ⟨hbody₁, hcount, hmarked, hgc, hnd, htmp, ?_, hphase₁⟩
    change rt₁.gc_zero_ref_count_list.erase q = []
    rw [hzero₁]
    rfl
  · have hstay : q ∈ K → rt₁.rc q ≠ 0 := by
      intro hqK hz
      refine hmove ⟨hw.rc_self ▸ hz, ?_⟩
      rw [← rt.marked_eq ho]
      exact (h.marked q hq).mpr hqK
    have hsame : ∀ x ∈ K, (rt₁.rc x = 0 ↔ rt.rc x = 0) := by
      intro x hx
      by_cases hxq : x = q
      · subst hxq
        exact iff_of_false (hstay hx) hqrc
      · rw [hw.rc_of_ne hxq]
    rw [if_neg hmove]
    refine ⟨hbody₁, hcount, hmarked, ?_, hw.tmp_obj_list ▸ h.tmp_nodup, ?_, hzero₁, hphase₁⟩
    · rw [hw.gc_obj_list, h.gc]
      congr 1
      apply List.filter_congr
      intro x hx
      simp [hsame x hx]
    · intro x
      rw [hw.tmp_obj_list, h.tmp x]
      exact and_congr_right fun hx => (hsame x hx).symm

theorem DecInv.congr (h : DecInv body L ext rc₀ rt K R c) {c' : Ptr → ℕ} (hc : ∀ x, c x = c' x) :
    DecInv body L ext rc₀ rt K R c' := by
  obtain rfl : c = c' := funext hc
  exact h

/-- All references of an object are taken off. -/
theorem DecInv.children (hg : Graph body L) (hL : L = K ++ R) {qs : List Ptr}
    (hqs : ∀ q ∈ qs, q ∈ L) (h : DecInv body L ext rc₀ rt K R fun x => c x + qs.count x) :
    ∃ rt', visit gc_decref_child qs rt = some rt' ∧ DecInv body L ext rc₀ rt' K R c := by
  induction qs generalizing rt with
  | nil => exact ⟨rt, rfl, h.congr fun x => by simp⟩
  | cons q qs ih =>
    obtain ⟨rt₁, hrun₁, h₁⟩ := DecInv.child (c := fun x => c x + qs.count x) hg hL
      (hqs q (by simp)) (h.congr fun x => by
        rw [List.count_cons]
        by_cases hx : x = q
        · simp [hx, Nat.add_assoc]
        · simp [hx, Ne.symm hx])
    obtain ⟨rt', hrun', h'⟩ := ih (fun x hx => hqs x (by simp [hx])) h₁
    exact ⟨rt', by rw [visit, hrun₁]; exact hrun', h'⟩

theorem next_append {K R : List Ptr} {p : Ptr} (hp : p ∉ K) : next (K ++ p :: R) p = R.head? := by
  have hdrop : (K ++ p :: R).dropWhile (· ≠ p) = p :: R := by
    rw [List.dropWhile_append_of_pos]
    · simp
    · intro x hx
      have hne : x ≠ p := by
        rintro rfl
        exact hp hx
      simpa using hne
  rw [next, hdrop]
  rfl

/-- One turn of `gc_decref`. -/
theorem DecInv.turn (hg : Graph body L) {p : Ptr} (hL : L = K ++ p :: R)
    (h : DecInv body L ext rc₀ rt K (p :: R) (indeg body.vis (p :: R).toFinset)) :
    ∃ rt₁ o₁, mark_children gc_decref_child p rt = some rt₁ ∧ rt₁.mem p = some o₁ ∧
      DecInv body L ext rc₀
        (if o₁.ref_count = 0 then (rt₁.store p { o₁ with mark := true }).move_to_tmp p
          else rt₁.store p { o₁ with mark := true })
        (K ++ [p]) R (indeg body.vis R.toFinset) := by
  have hpL : p ∈ L := by simp [hL]
  have hnd := List.nodup_append.mp (hL ▸ hg.nodup)
  have hpR : p ∉ R := (List.nodup_cons.mp hnd.2.1).1
  have hpK : p ∉ K := fun hpK => hnd.2.2 p hpK p (by simp) rfl
  obtain ⟨b, hb, hs⟩ := (hg.tracked p).mp hpL
  rw [mark_children_eq (h.body.symm ▸ hb) hs, h.body]
  obtain ⟨rt₁, hrun, h₁⟩ := DecInv.children (c := indeg body.vis R.toFinset) hg hL
    (hg.closed p hpL) (h.congr fun x => by
      rw [List.toFinset_cons, indeg_insert (by simpa using hpR), Nat.add_comm])
  obtain ⟨o₁, ho₁, -⟩ := hg.exists_obj hpL h₁.body
  refine ⟨rt₁, o₁, hrun, ho₁, ?_⟩
  have hw := Header.store ho₁ o₁.ref_count true
  generalize rt₁.store p { o₁ with mark := true } = rt₂ at hw
  rw [← rt₁.rc_eq ho₁] at hw
  have hrc : rt₂.rc = rt₁.rc := by rw [hw.rc, Function.update_eq_self]
  obtain ⟨hbody, hzero, hphase⟩ := h₁.of_header hw
  have hcount : ∀ x, rt₂.rc x = if x ∈ L then (ext x + indeg body.vis R.toFinset x : ℤ) else rc₀ x := by
    rw [hrc]
    exact h₁.rc
  have hmarked : ∀ x ∈ L, (rt₂.marked x = true ↔ x ∈ K ++ [p]) := by
    intro x hx
    rw [hw.marked, List.mem_append, List.mem_singleton]
    by_cases hxp : x = p
    · simp [hxp]
    · simp [hxp, h₁.marked x hx]
  have hptmp : p ∉ rt₂.tmp_obj_list := by
    rw [hw.tmp_obj_list, h₁.tmp p]
    exact fun hmem => hpK hmem.1
  have hpfilter : p ∉ K.filter fun x => rt₁.rc x ≠ 0 := fun hmem => hpK (List.mem_of_mem_filter hmem)
  rw [← rt₁.rc_eq ho₁]
  by_cases hz : rt₁.rc p = 0
  · -- Only the references that were just taken off referred to it.
    rw [if_pos hz]
    refine ⟨hbody, hcount, hmarked, ?_, ?_, ?_, ?_, hphase⟩
    · change rt₂.gc_obj_list.erase p = (K ++ [p]).filter (fun x => rt₂.rc x ≠ 0) ++ R
      rw [hw.gc_obj_list, h₁.gc, List.erase_append_right _ hpfilter, List.erase_cons_head,
        List.filter_append, hrc]
      simp [hz]
    · change (rt₂.tmp_obj_list.erase p ++ [p]).Nodup
      rw [List.erase_of_not_mem hptmp, ← List.concat_eq_append]
      exact List.Nodup.concat hptmp (hw.tmp_obj_list ▸ h₁.tmp_nodup)
    · intro x
      change x ∈ rt₂.tmp_obj_list.erase p ++ [p] ↔ x ∈ K ++ [p] ∧ rt₂.rc x = 0
      rw [List.erase_of_not_mem hptmp, hw.tmp_obj_list, hrc]
      simp only [List.mem_append, List.mem_singleton, h₁.tmp x]
      by_cases hxp : x = p
      · simp [hxp, hz]
      · simp [hxp]
    · change rt₂.gc_zero_ref_count_list.erase p = []
      rw [hzero]
      rfl
  · rw [if_neg hz]
    refine ⟨hbody, hcount, hmarked, ?_, hw.tmp_obj_list ▸ h₁.tmp_nodup, ?_, hzero, hphase⟩
    · rw [hw.gc_obj_list, h₁.gc, List.filter_append, hrc]
      simp [hz]
    · intro x
      rw [hw.tmp_obj_list, hrc, h₁.tmp x]
      by_cases hxp : x = p
      · simp [hxp, hz]
      · simp [hxp]

/-- The loop visits the objects in the order of the list, and what it moves lies behind it. -/
theorem gc_decref_loop_spec (hg : Graph body L) {n : ℕ} (hL : L = K ++ R) (hn : R.length ≤ n)
    (h : DecInv body L ext rc₀ rt K R (indeg body.vis R.toFinset)) :
    ∃ rt', gc_decref_loop n R.head? rt = some rt' ∧ DecInv body L ext rc₀ rt' L [] fun _ => 0 := by
  induction R generalizing K rt n with
  | nil =>
    obtain rfl : L = K := by simpa using hL
    refine ⟨rt, by cases n <;> rfl, h.congr fun x => rfl⟩
  | cons p R ih =>
    obtain ⟨n, rfl⟩ : ∃ m, n = m + 1 := ⟨n - 1, by simp at hn; omega⟩
    have hnd := List.nodup_append.mp (hL ▸ hg.nodup)
    have hpK : p ∉ K := fun hpK => hnd.2.2 p hpK p (by simp) rfl
    obtain ⟨o, ho, -⟩ := hg.exists_obj (by simp [hL] : p ∈ L) h.body
    have hmark : o.mark = false := by
      rw [← rt.marked_eq ho]
      by_contra hm
      exact hpK ((h.marked p (by simp [hL])).mp (by simpa using hm))
    have hnext : next rt.gc_obj_list p = R.head? := by
      rw [h.gc]
      exact next_append fun hmem => hpK (List.mem_of_mem_filter hmem)
    obtain ⟨rt₁, o₁, hrun, ho₁, h₁⟩ := h.turn hg hL
    obtain ⟨rt', hrun', h'⟩ := ih (n := n) (by simp [hL]) (by simpa using hn) h₁
    refine ⟨rt', ?_, h'⟩
    rw [List.head?_cons, gc_decref_loop]
    simp [ho, hmark, hrun, ho₁, hnext, hrun']

/-- After `gc_decref` the count of an object is the number of references to it from outside,
and the objects without any are on `tmp_obj_list`. -/
theorem gc_decref_spec {A : Finset Ptr} (h : Inv rt A ∅ ext) (htmp : rt.tmp_obj_list = [])
    (hphase : rt.gc_phase = .NONE) (hmark : ∀ p ∈ rt.gc_obj_list, rt.marked p = false) :
    ∃ rt', gc_decref rt = some rt' ∧
      DecInv rt.body rt.gc_obj_list ext rt.rc rt' rt.gc_obj_list [] fun _ => 0 := by
  have hg := h.graph htmp hphase
  refine gc_decref_loop_spec (K := []) hg rfl (Nat.le_refl _) ?_
  refine ⟨rfl, ?_, ?_, rfl, List.nodup_nil, by simp, h.rest hphase, hphase⟩
  · intro q
    split
    · next hq =>
      rw [h.indeg_vis hg hq]
      exact h.core.counted q
    · rfl
  · intro q hq
    change rt.marked q = true ↔ q ∈ []
    simp [hmark q hq]

end Decref

/-! ## Scanning -/

section Scan

variable {body : Bodies} {L : List Ptr} {ext : Ptr → ℕ} {rc₀ : Ptr → ℤ} {rt : JSRuntime}
  {D T : List Ptr} {c : Ptr → ℕ}

/-- The heap while `gc_scan` walks `gc_obj_list`: `D` are behind it and `T` before it, and `c`
references between the objects are counted again. What is on the list is reachable, and
what is not has no count. -/
structure ScanInv (body : Bodies) (L : List Ptr) (ext : Ptr → ℕ) (rc₀ : Ptr → ℤ) (rt : JSRuntime)
    (D T : List Ptr) (c : Ptr → ℕ) : Prop where
  data : rt.body = body
  rc : ∀ q, rt.rc q = if q ∈ L then (ext q + c q : ℤ) else rc₀ q
  gc : rt.gc_obj_list = D ++ T
  gc_nodup : (D ++ T).Nodup
  mem_gc : ∀ q, q ∈ D ++ T ↔ q ∈ L ∧ rt.rc q ≠ 0
  tmp_nodup : rt.tmp_obj_list.Nodup
  tmp : ∀ q, q ∈ rt.tmp_obj_list ↔ q ∈ L ∧ rt.rc q = 0
  unmarked : ∀ q ∈ D, rt.marked q = false
  reach : ∀ q ∈ D ++ T, Reachable body.vis ext q
  zero : rt.gc_zero_ref_count_list = []
  phase : rt.gc_phase = .NONE

/-- `gc_scan_incref_child` gives one reference back. -/
theorem ScanInv.child (hg : Graph body L) {q : Ptr} (hq : q ∈ L) (hreach : Reachable body.vis ext q)
    (h : ScanInv body L ext rc₀ rt D T c) :
    ∃ rt' T', gc_scan_incref_child q rt = some rt' ∧
      ScanInv body L ext rc₀ rt' D T' fun x => c x + if x = q then 1 else 0 := by
  obtain ⟨o, ho, -⟩ := hg.exists_obj hq h.data
  have hrc : o.ref_count = ext q + c q := by
    have := h.rc q
    rwa [if_pos hq, rt.rc_eq ho] at this
  -- The two branches write the same count, and differ in the mark and the list.
  have hcount : ∀ {rt₁ : JSRuntime} {k : Bool}, Header q (o.ref_count + 1) k rt rt₁ → ∀ x,
      rt₁.rc x = if x ∈ L then (ext x + (c x + if x = q then 1 else 0 : ℕ) : ℤ) else rc₀ x := by
    intro rt₁ k hw x
    by_cases hx : x = q
    · subst hx
      rw [hw.rc_self, if_pos hq, if_pos rfl]
      push_cast
      omega
    · rw [hw.rc_of_ne hx, h.rc x]
      simp [hx]
  have hunmarked : ∀ {rt₁ : JSRuntime} {k : Bool}, Header q (o.ref_count + 1) k rt rt₁ →
      (k = false ∨ k = o.mark) → ∀ x ∈ D, rt₁.marked x = false := by
    intro rt₁ k hw hk x hx
    rw [hw.marked]
    by_cases hxq : x = q
    · subst hxq
      rw [Function.update_self]
      rcases hk with rfl | rfl
      · rfl
      · rw [← rt.marked_eq ho]
        exact h.unmarked x hx
    · rw [Function.update_of_ne hxq]
      exact h.unmarked x hx
  by_cases hz : o.ref_count = 0
  · -- It had no reference from what is kept, and is kept now.
    have hw := Header.store ho (o.ref_count + 1) false
    have hrun : gc_scan_incref_child q rt =
        some ((rt.store q { o with ref_count := o.ref_count + 1, mark := false }).move_to_gc q) := by
      simp [gc_scan_incref_child, ho, hz]
    generalize rt.store q { o with ref_count := o.ref_count + 1, mark := false } = rt₁ at hw hrun
    have hqtmp : q ∈ rt.tmp_obj_list := (h.tmp q).mpr ⟨hq, (rt.rc_eq ho).trans hz⟩
    have hqgc : q ∉ D ++ T := fun hmem => ((h.mem_gc q).mp hmem).2 ((rt.rc_eq ho).trans hz)
    refine ⟨rt₁.move_to_gc q, T ++ [q], hrun, hw.body.trans h.data, fun x => hcount hw x, ?_, ?_, ?_, ?_, ?_,
      fun x hx => hunmarked hw (.inl rfl) x hx, ?_, ?_, hw.phase.trans h.phase⟩
    · change rt₁.gc_obj_list.erase q ++ [q] = _
      rw [hw.gc_obj_list, h.gc, List.erase_of_not_mem hqgc, List.append_assoc]
    · rw [← List.append_assoc, ← List.concat_eq_append]
      exact h.gc_nodup.concat hqgc
    · intro x
      change x ∈ D ++ (T ++ [q]) ↔ x ∈ L ∧ rt₁.rc x ≠ 0
      rw [← List.append_assoc, List.mem_append, List.mem_singleton, h.mem_gc x]
      by_cases hx : x = q
      · subst hx
        simp [hq, hw.rc_self, hz]
      · simp [hx, hw.rc_of_ne hx]
    · change (rt₁.tmp_obj_list.erase q).Nodup
      rw [hw.tmp_obj_list]
      exact h.tmp_nodup.erase q
    · intro x
      change x ∈ rt₁.tmp_obj_list.erase q ↔ x ∈ L ∧ rt₁.rc x = 0
      rw [hw.tmp_obj_list, h.tmp_nodup.mem_erase_iff, h.tmp x]
      by_cases hx : x = q
      · subst hx
        simp [hw.rc_self, hz]
      · simp [hx, hw.rc_of_ne hx]
    · intro x hx
      rw [← List.append_assoc, List.mem_append, List.mem_singleton] at hx
      rcases hx with hx | rfl
      · exact h.reach x hx
      · exact hreach
    · change rt₁.gc_zero_ref_count_list.erase q = []
      rw [hw.zero, h.zero]
      rfl
  · have hw := Header.store ho (o.ref_count + 1) o.mark
    have hrun : gc_scan_incref_child q rt =
        some (rt.store q { o with ref_count := o.ref_count + 1 }) := by
      simp [gc_scan_incref_child, ho, hz]
    generalize rt.store q { o with ref_count := o.ref_count + 1 } = rt₁ at hw hrun
    have hsame : ∀ x, (rt₁.rc x = 0 ↔ rt.rc x = 0) := by
      intro x
      by_cases hx : x = q
      · subst hx
        rw [hw.rc_self, rt.rc_eq ho]
        omega
      · rw [hw.rc_of_ne hx]
    refine ⟨rt₁, T, hrun, hw.body.trans h.data, hcount hw, hw.gc_obj_list.trans h.gc, h.gc_nodup, ?_,
      hw.tmp_obj_list ▸ h.tmp_nodup, ?_, hunmarked hw (.inr rfl), h.reach, hw.zero.trans h.zero,
      hw.phase.trans h.phase⟩
    · intro x
      rw [h.mem_gc x, Ne, Ne, hsame x]
    · intro x
      rw [hw.tmp_obj_list, h.tmp x, hsame x]

theorem ScanInv.congr (h : ScanInv body L ext rc₀ rt D T c) {c' : Ptr → ℕ} (hc : ∀ x, c x = c' x) :
    ScanInv body L ext rc₀ rt D T c' := by
  obtain rfl : c = c' := funext hc
  exact h

theorem ScanInv.children (hg : Graph body L) {qs : List Ptr} (hqs : ∀ q ∈ qs, q ∈ L)
    (hreach : ∀ q ∈ qs, Reachable body.vis ext q) (h : ScanInv body L ext rc₀ rt D T c) :
    ∃ rt' T', visit gc_scan_incref_child qs rt = some rt' ∧
      ScanInv body L ext rc₀ rt' D T' fun x => c x + qs.count x := by
  induction qs generalizing rt T c with
  | nil => exact ⟨rt, T, rfl, h.congr fun x => by simp⟩
  | cons q qs ih =>
    obtain ⟨rt₁, T₁, hrun₁, h₁⟩ := h.child hg (hqs q (by simp)) (hreach q (by simp))
    obtain ⟨rt', T', hrun', h'⟩ := ih (fun x hx => hqs x (by simp [hx]))
      (fun x hx => hreach x (by simp [hx])) h₁
    refine ⟨rt', T', by rw [visit, hrun₁]; exact hrun', h'.congr fun x => ?_⟩
    rw [List.count_cons]
    by_cases hx : x = q
    · simp [hx]
      omega
    · simp [hx, Ne.symm hx]

/-- One turn of the first loop: the object is passed, and its references are given back. -/
theorem ScanInv.turn (hg : Graph body L) {p : Ptr}
    (h : ScanInv body L ext rc₀ rt D (p :: T) (indeg body.vis D.toFinset)) :
    ∃ o rt' T', rt.mem p = some o ∧ 0 < o.ref_count ∧
      mark_children gc_scan_incref_child p (rt.store p { o with mark := false }) = some rt' ∧
      ScanInv body L ext rc₀ rt' (D ++ [p]) T' (indeg body.vis (D ++ [p]).toFinset) := by
  have hpgc : p ∈ D ++ p :: T := by simp
  obtain ⟨hpL, hrc⟩ := (h.mem_gc p).mp hpgc
  have hpD : p ∉ D := fun hpD => (List.nodup_append.mp h.gc_nodup).2.2 p hpD p (by simp) rfl
  obtain ⟨o, ho, hs⟩ := hg.exists_obj hpL h.data
  have hpos : 0 < o.ref_count := by
    have := h.rc p
    rw [if_pos hpL] at this
    rw [← rt.rc_eq ho]
    omega
  have hw := Header.store ho o.ref_count false
  have hchildren : mark_children gc_scan_incref_child p (rt.store p { o with mark := false }) =
      visit gc_scan_incref_child (body.vis p) (rt.store p { o with mark := false }) := by
    have hb : (rt.store p { o with mark := false }).body p = some o.body := by
      rw [hw.body]
      exact rt.body_eq ho
    rw [mark_children_eq hb hs, hw.body, h.data]
  refine ⟨o, ?_⟩
  rw [hchildren]
  generalize rt.store p { o with mark := false } = rt₁ at hw
  have hrc₁ : rt₁.rc = rt.rc := by rw [hw.rc, ← rt.rc_eq ho, Function.update_eq_self]
  have hassoc : D ++ [p] ++ T = D ++ p :: T := by simp
  have h₁ : ScanInv body L ext rc₀ rt₁ (D ++ [p]) T (indeg body.vis D.toFinset) := by
    refine ⟨hw.body.trans h.data, hrc₁ ▸ h.rc, ?_, ?_, ?_, hw.tmp_obj_list ▸ h.tmp_nodup, ?_, ?_, ?_,
      hw.zero.trans h.zero, hw.phase.trans h.phase⟩
    · rw [hassoc, hw.gc_obj_list, h.gc]
    · rw [hassoc]
      exact h.gc_nodup
    · rw [hassoc, hrc₁]
      exact h.mem_gc
    · rw [hw.tmp_obj_list, hrc₁]
      exact h.tmp
    · intro q hq
      rw [hw.marked]
      by_cases hqp : q = p
      · simp [hqp]
      · rw [Function.update_of_ne hqp]
        exact h.unmarked q (by simpa [hqp] using hq)
    · rw [hassoc]
      exact h.reach
  obtain ⟨rt', T', hrun, h'⟩ := h₁.children hg (hg.closed p hpL)
    fun q hq => (h.reach p hpgc).tail hq
  refine ⟨rt', T', ho, hpos, hrun, h'.congr fun x => ?_⟩
  have hset : (D ++ [p]).toFinset = insert p D.toFinset := by
    ext x
    simp
  rw [hset, indeg_insert (by simpa using hpD), Nat.add_comm]

/-- The first loop ends at the end of the list, having passed all that came onto it. -/
theorem gc_scan_loop_spec (hg : Graph body L) {n : ℕ} (hn : L.length ≤ D.length + n)
    (h : ScanInv body L ext rc₀ rt D T (indeg body.vis D.toFinset)) :
    ∃ rt' D', gc_scan_loop n T.head? rt = some rt' ∧
      ScanInv body L ext rc₀ rt' D' [] (indeg body.vis D'.toFinset) := by
  induction n generalizing D T rt with
  | zero =>
    cases T with
    | nil => exact ⟨rt, D, rfl, h⟩
    | cons p T =>
      -- All of `L` is behind the loop, so nothing can be before it.
      have hsub : D ++ p :: T ⊆ L := fun q hq => ((h.mem_gc q).mp hq).1
      have hlen := (h.gc_nodup.subperm hsub).length_le
      simp at hlen
      omega
  | succ n ih =>
    cases T with
    | nil => exact ⟨rt, D, rfl, h⟩
    | cons p T =>
      obtain ⟨o, rt₁, T₁, ho, hpos, hrun, h₁⟩ := h.turn hg
      have hpD : p ∉ D := fun hpD => (List.nodup_append.mp h.gc_nodup).2.2 p hpD p (by simp) rfl
      have hnext : next rt₁.gc_obj_list p = T₁.head? := by
        rw [h₁.gc, List.append_assoc]
        exact next_append hpD
      obtain ⟨rt', D', hrun', h'⟩ := ih (by simp; omega) h₁
      refine ⟨rt', D', ?_, h'⟩
      rw [List.head?_cons, gc_scan_loop]
      simp [ho, hpos, hrun, hnext, hrun']

/-- What is visited from outside the lists is nothing. -/
theorem Graph.vis_eq_nil (hg : Graph body L) {p : Ptr} (hp : p ∉ L) : body.vis p = [] := by
  cases hb : body p with
  | none => simp [Bodies.vis, hb]
  | some b =>
    have hs : b.isOnStack = true := by
      by_contra hne
      exact hp ((hg.tracked p).mpr ⟨b, hb, by simpa using hne⟩)
    have hperm := Bodies.vis_perm hb
    cases b with
    | var_ref v =>
      cases v with
      | detached v => simp [Body.isOnStack, JSVarRef.is_detached] at hs
      | onStack f i => simp [Bodies.vis, hb, Body.mark_children]
    | _ => simp [Body.isOnStack] at hs

/-- What the first loop has kept is what can be reached. -/
theorem ScanInv.mem_iff (hg : Graph body L)
    (h : ScanInv body L ext rc₀ rt D [] (indeg body.vis D.toFinset)) {q : Ptr} (hq : q ∈ L) :
    q ∈ D ↔ Reachable body.vis ext q := by
  have hgc : ∀ x, x ∈ D ↔ x ∈ L ∧ rt.rc x ≠ 0 := by simpa using h.mem_gc
  constructor
  · intro hqD
    exact h.reach q (by simpa using hqD)
  · intro hreach
    have hS : q ∈ D ∨ q ∉ L := by
      refine hreach.mem_of_closed (S := fun x => x ∈ D ∨ x ∉ L) ?_ ?_
      · intro p hp
        by_cases hpL : p ∈ L
        · refine .inl ((hgc p).mpr ⟨hpL, ?_⟩)
          have := h.rc p
          rw [if_pos hpL] at this
          omega
        · exact .inr hpL
      · intro p x hp hx
        rcases hp with hp | hp
        · have hxL := hg.closed p ((hgc p).mp hp).1 x hx
          refine .inl ((hgc x).mpr ⟨hxL, ?_⟩)
          have hd : 0 < indeg body.vis D.toFinset x := indeg_pos.mpr ⟨p, by simpa using hp, hx⟩
          have := h.rc x
          rw [if_pos hxL] at this
          omega
        · simp [hg.vis_eq_nil hp] at hx
    exact hS.resolve_right fun hnot => hnot hq

/-- Counts are given back and nothing else changes. -/
structure Restores (rt rt' : JSRuntime) (f : Ptr → ℕ) : Prop where
  body : rt'.body = rt.body
  rc : ∀ q, rt'.rc q = rt.rc q + f q
  marked : rt'.marked = rt.marked
  gc_obj_list : rt'.gc_obj_list = rt.gc_obj_list
  tmp_obj_list : rt'.tmp_obj_list = rt.tmp_obj_list
  zero : rt'.gc_zero_ref_count_list = rt.gc_zero_ref_count_list
  phase : rt'.gc_phase = rt.gc_phase

theorem Restores.refl (rt : JSRuntime) : Restores rt rt fun _ => 0 :=
  ⟨rfl, fun _ => by simp, rfl, rfl, rfl, rfl, rfl⟩

theorem Restores.trans {rt' rt'' : JSRuntime} {f g : Ptr → ℕ} (h : Restores rt rt' f)
    (h' : Restores rt' rt'' g) : Restores rt rt'' fun q => f q + g q where
  body := h'.body.trans h.body
  rc := by
    intro q
    rw [h'.rc q, h.rc q]
    push_cast
    omega
  marked := h'.marked.trans h.marked
  gc_obj_list := h'.gc_obj_list.trans h.gc_obj_list
  tmp_obj_list := h'.tmp_obj_list.trans h.tmp_obj_list
  zero := h'.zero.trans h.zero
  phase := h'.phase.trans h.phase

/-- `gc_scan_incref_child2`, on one object after the other. -/
theorem visit_restores (hg : Graph body L) (hbody : rt.body = body) {qs : List Ptr}
    (hqs : ∀ q ∈ qs, q ∈ L) :
    ∃ rt', visit gc_scan_incref_child2 qs rt = some rt' ∧ Restores rt rt' fun q => qs.count q := by
  induction qs generalizing rt with
  | nil => exact ⟨rt, rfl, .refl rt⟩
  | cons q qs ih =>
    obtain ⟨o, ho, -⟩ := hg.exists_obj (hqs q (by simp)) hbody
    have hw := Header.store ho (o.ref_count + 1) o.mark
    have hstep : Restores rt (rt.store q { o with ref_count := o.ref_count + 1 })
        fun x => if x = q then 1 else 0 := by
      refine ⟨hw.body, ?_, ?_, rfl, rfl, rfl, rfl⟩
      · intro x
        by_cases hx : x = q
        · subst hx
          rw [hw.rc_self, rt.rc_eq ho, if_pos rfl]
          rfl
        · rw [hw.rc_of_ne hx]
          simp [hx]
      · rw [hw.marked, ← rt.marked_eq ho, Function.update_eq_self]
    obtain ⟨rt', hrun, h'⟩ := ih (hstep.body.trans hbody) fun x hx => hqs x (by simp [hx])
    refine ⟨rt', by simp [visit, gc_scan_incref_child2, ho, hrun], ?_⟩
    have hfun : (fun x => (q :: qs).count x) = fun x => (if x = q then 1 else 0) + qs.count x := by
      funext x
      rw [List.count_cons]
      by_cases hx : x = q
      · simp [hx, Nat.add_comm]
      · simp [hx, Ne.symm hx]
    rw [hfun]
    exact hstep.trans h'

/-- The second loop of `gc_scan`. -/
theorem visit_children_restores (hg : Graph body L) (hbody : rt.body = body) {ps : List Ptr}
    (hnd : ps.Nodup) (hps : ∀ p ∈ ps, p ∈ L) :
    ∃ rt', visit (mark_children gc_scan_incref_child2) ps rt = some rt' ∧
      Restores rt rt' (indeg body.vis ps.toFinset) := by
  induction ps generalizing rt with
  | nil => exact ⟨rt, rfl, .refl rt⟩
  | cons p ps ih =>
    obtain ⟨hnot, hnd⟩ := List.nodup_cons.mp hnd
    have hpL : p ∈ L := hps p (by simp)
    obtain ⟨b, hb, hs⟩ := (hg.tracked p).mp hpL
    obtain ⟨rt₁, hrun₁, h₁⟩ := visit_restores hg hbody (hg.closed p hpL)
    obtain ⟨rt', hrun', h'⟩ := ih (h₁.body.trans hbody) hnd fun x hx => hps x (by simp [hx])
    refine ⟨rt', ?_, ?_⟩
    · rw [visit, mark_children_eq (hbody.symm ▸ hb) hs, hbody, hrun₁]
      exact hrun'
    · have hfun : indeg body.vis (p :: ps).toFinset =
          fun q => (body.vis p).count q + indeg body.vis ps.toFinset q := by
        funext q
        rw [List.toFinset_cons, indeg_insert (by simpa using hnot)]
      rw [hfun]
      exact h₁.trans h'

end Scan

section Scanned

variable {rt rt₁ : JSRuntime} {L D : List Ptr} {ext : Ptr → ℕ} {body : Bodies} {rc₀ : Ptr → ℤ}

/-- Where `gc_decref` ends `gc_scan` begins. -/
theorem DecInv.scan (h : DecInv body L ext rc₀ rt L [] fun _ => 0) (hg : Graph body L) :
    ScanInv body L ext rc₀ rt [] rt.gc_obj_list (indeg body.vis (List.toFinset [])) := by
  have hgc : rt.gc_obj_list = L.filter fun q => rt.rc q ≠ 0 := by simpa using h.gc
  refine ⟨h.body, h.rc, rfl, ?_, ?_, h.tmp_nodup, h.tmp, by simp, ?_, h.zero, h.phase⟩
  · rw [List.nil_append, hgc]
    exact hg.nodup.filter _
  · intro q
    simp [hgc]
  · intro q hq
    rw [List.nil_append, hgc, List.mem_filter] at hq
    have hrc := h.rc q
    rw [if_pos hq.1] at hrc
    have hne : rt.rc q ≠ 0 := by simpa using hq.2
    refine .root ?_
    push_cast at hrc
    omega

theorem DecInv.length_le (h : DecInv body L ext rc₀ rt L [] fun _ => 0) (hg : Graph body L) :
    L.length ≤ rt.listed.length := by
  refine (hg.nodup.subperm fun q hq => ?_).length_le
  have hgc : rt.gc_obj_list = L.filter fun q => rt.rc q ≠ 0 := by simpa using h.gc
  by_cases hz : rt.rc q = 0
  · have hmem := (h.tmp q).mpr ⟨hq, hz⟩
    simp [JSRuntime.listed, hmem]
  · have hmem : q ∈ rt.gc_obj_list := by simp [hgc, hq, hz]
    simp [JSRuntime.listed, hmem]

/-- The two lists are the objects the collection started with. -/
theorem ScanInv.perm {c : Ptr → ℕ} (h : ScanInv body L ext rc₀ rt D [] c) (hg : Graph body L) :
    (D ++ rt.tmp_obj_list).Perm L := by
  have hmem : ∀ x, x ∈ D ↔ x ∈ L ∧ rt.rc x ≠ 0 := by simpa using h.mem_gc
  have hnd : D.Nodup := by simpa using h.gc_nodup
  refine (List.perm_ext_iff_of_nodup ?_ hg.nodup).mpr fun x => ?_
  · refine List.nodup_append.mpr ⟨hnd, h.tmp_nodup, ?_⟩
    rintro x hx y hy rfl
    exact ((hmem x).mp hx).2 ((h.tmp x).mp hy).2
  · rw [List.mem_append, hmem x, h.tmp x]
    by_cases hz : rt.rc x = 0 <;> simp [hz]

/-- Giving back the references of what is on `tmp_obj_list` as well restores every count. -/
theorem ScanInv.restored (h : ScanInv body L ext rc₀ rt D [] (indeg body.vis D.toFinset))
    (hg : Graph body L) (h₁ : Restores rt rt₁ (indeg body.vis rt.tmp_obj_list.toFinset))
    (hrc₀ : ∀ q ∈ L, rc₀ q = ext q + indeg body.vis L.toFinset q) : rt₁.rc = rc₀ := by
  funext q
  rw [h₁.rc q, h.rc q]
  by_cases hq : q ∈ L
  · have hperm := h.perm hg
    have hnd := List.nodup_append.mp (hperm.nodup_iff.mpr hg.nodup)
    have hdis : Disjoint D.toFinset rt.tmp_obj_list.toFinset := by
      rw [Finset.disjoint_left]
      intro x hx hx'
      exact hnd.2.2 x (List.mem_toFinset.mp hx) x (List.mem_toFinset.mp hx') rfl
    have hset : L.toFinset = D.toFinset ∪ rt.tmp_obj_list.toFinset := by
      rw [← List.toFinset_append, List.toFinset_eq_of_perm _ _ hperm]
    rw [if_pos hq, hrc₀ q hq, hset, indeg_union_of_disjoint hdis]
    push_cast
    omega
  · have hzero : indeg body.vis rt.tmp_obj_list.toFinset q = 0 := by
      by_contra hne
      obtain ⟨p, hp, hmem⟩ := indeg_pos.mp (Nat.pos_of_ne_zero hne)
      exact hq (hg.closed p ((h.tmp p).mp (List.mem_toFinset.mp hp)).1 q hmem)
    rw [if_neg hq, hzero]
    simp

/-- After `gc_scan` the counts are what they were before the collection, and the objects are
on two lists: those that can be reached from outside, unmarked, and the others. -/
theorem gc_decref_gc_scan_spec {A : Finset Ptr} (h : Inv rt A ∅ ext) (htmp : rt.tmp_obj_list = [])
    (hphase : rt.gc_phase = .NONE) (hmark : ∀ p ∈ rt.gc_obj_list, rt.marked p = false) :
    ∃ rt', (gc_decref rt).bind gc_scan = some rt' ∧ rt'.body = rt.body ∧ rt'.rc = rt.rc ∧
      rt'.gc_phase = .NONE ∧ rt'.gc_zero_ref_count_list = [] ∧
      (rt'.gc_obj_list ++ rt'.tmp_obj_list).Perm rt.gc_obj_list ∧
      (∀ p ∈ rt'.gc_obj_list, rt'.marked p = false) ∧
      ∀ p ∈ rt.gc_obj_list, (p ∈ rt'.gc_obj_list ↔ Reachable rt.body.vis ext p) := by
  have hg := h.graph htmp hphase
  obtain ⟨rt₁, hrun₁, h₁⟩ := gc_decref_spec h htmp hphase hmark
  obtain ⟨rt₂, D, hrun₂, h₂⟩ := gc_scan_loop_spec (n := rt₁.listed.length) hg
    (by simpa using h₁.length_le hg) (h₁.scan hg)
  obtain ⟨rt₃, hrun₃, h₃⟩ := visit_children_restores hg h₂.data h₂.tmp_nodup
    fun p hp => ((h₂.tmp p).mp hp).1
  have hD : rt₃.gc_obj_list = D := by rw [h₃.gc_obj_list, h₂.gc, List.append_nil]
  refine ⟨rt₃, ?_, h₃.body.trans h₂.data, h₂.restored hg h₃ ?_, h₃.phase.trans h₂.phase,
    h₃.zero.trans h₂.zero, ?_, ?_, ?_⟩
  · rw [hrun₁, Option.bind_some, gc_scan, hrun₂]
    exact hrun₃
  · intro q hq
    rw [h.indeg_vis hg hq]
    exact h.core.counted q
  · rw [hD, h₃.tmp_obj_list]
    exact h₂.perm hg
  · rw [hD, h₃.marked]
    exact h₂.unmarked
  · intro p hp
    rw [hD]
    exact h₂.mem_iff hg hp

end Scanned

end QuickJSSwift.Gc
