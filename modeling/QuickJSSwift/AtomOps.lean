/-
The operations on atoms.

Each is specified by what it does to the entries: a count changes, an entry goes, an entry
comes. Whether the table had to grow on the way, and which chains were changed, does not
show. `__JS_NewAtom` gives the entry that has the text and the type already, or a new one.

There is one restriction. The new size of the array is computed with a C `int`, and from
715827883 entries on the multiplication overflows, the maximum is 211 again and the array
is cut off.
-/
import QuickJSSwift.AtomChains

set_option autoImplicit false
set_option linter.style.nameCheck false

namespace QuickJSSwift.Atom

open Linked Text

section Count

variable {info : ℕ → Option Info} {n i : ℕ} {x : Info}

theorem filter_update_none (info : ℕ → Option Info) (n i : ℕ) :
    ((Finset.range n).filter fun j => (Function.update info i none j).isSome) =
      ((Finset.range n).filter fun j => (info j).isSome).erase i := by
  ext j
  by_cases hj : j = i
  · simp [hj]
  · simp [hj]

theorem filter_update_some (hi : i < n) :
    ((Finset.range n).filter fun j => (Function.update info i (some x) j).isSome) =
      insert i ((Finset.range n).filter fun j => (info j).isSome) := by
  ext j
  by_cases hj : j = i
  · simp [hj, hi]
  · simp [hj]

end Count

section Entries

variable {info : ℕ → Option Info} {i : ℕ} {x : Info}

/-- An entry goes. -/
theorem Entries.erase (h : Entries info) (i : ℕ) : Entries (Function.update info i none) := by
  have hsub : ∀ j y, Function.update info i none j = some y → info j = some y := by
    intro j y hy
    by_cases hj : j = i
    · simp [hj] at hy
    · rwa [Function.update_of_ne hj] at hy
  exact ⟨fun y hy => h.zero y (hsub 0 y hy), fun j y hy => h.stored j y (hsub j y hy),
    fun j y hy => h.hashed j y (hsub j y hy),
    fun j k y z hy hz => h.unique j k y z (hsub j y hy) (hsub k z hz)⟩

/-- An entry comes, or is replaced by one that differs in the count. -/
theorem Entries.insert (h : Entries info) (hzero : i = 0 → x.atom_type = .SYMBOL)
    (hst : x.atom_type ≠ .PRIVATE)
    (hhash : x.atom_type ≠ .SYMBOL → x.hash = atom_hash x.str x.atom_type)
    (hnew : x.atom_type ≠ .SYMBOL → ∀ j y, info j = some y → y.atom_type = x.atom_type →
      y.str.units = x.str.units → j = i) : Entries (Function.update info i (some x)) where
  zero := by
    intro y hy
    by_cases hi : 0 = i
    · rw [← hi, Function.update_self] at hy
      exact Option.some.inj hy ▸ hzero hi.symm
    · rw [Function.update_of_ne hi] at hy
      exact h.zero y hy
  stored := by
    intro j y hy
    by_cases hj : j = i
    · rw [hj, Function.update_self] at hy
      exact Option.some.inj hy ▸ hst
    · rw [Function.update_of_ne hj] at hy
      exact h.stored j y hy
  hashed := by
    intro j y hy ht
    by_cases hj : j = i
    · rw [hj, Function.update_self] at hy
      obtain rfl := Option.some.inj hy
      exact hhash ht
    · rw [Function.update_of_ne hj] at hy
      exact h.hashed j y hy ht
  unique := by
    intro j k y z hy hz ht heq hu
    by_cases hj : j = i
    · rw [hj, Function.update_self] at hy
      obtain rfl := Option.some.inj hy
      by_cases hk : k = i
      · rw [hj, hk]
      · rw [Function.update_of_ne hk] at hz
        rw [hj]
        exact (hnew ht k z hz heq.symm hu.symm).symm
    · rw [Function.update_of_ne hj] at hy
      by_cases hk : k = i
      · rw [hk, Function.update_self] at hz
        obtain rfl := Option.some.inj hz
        rw [hk]
        exact hnew (heq ▸ ht) j y hy heq hu
      · rw [Function.update_of_ne hk] at hz
        exact h.unique j k y z hy hz ht heq hu

end Entries

/-- What an operation has done, apart from the entries: the array is no smaller, and there is
still a free entry where there was one. -/
structure Steady (rt rt' : JSRuntime) : Prop where
  wf : WF rt'
  atom_size : rt'.atom_size = rt.atom_size
  free : rt.atom_free_index ≠ 0 → rt'.atom_free_index ≠ 0

section Ops

variable {rt : JSRuntime} {a i : ℕ} {p : JSAtomStruct}

theorem Steady.refl (h : WF rt) : Steady rt rt := ⟨h, rfl, id⟩

theorem Steady.trans {rt' rt'' : JSRuntime} (h : Steady rt rt') (h' : Steady rt' rt'') :
    Steady rt rt'' :=
  ⟨h'.wf, h'.atom_size.trans h.atom_size, h'.free ∘ h.free⟩

/-- A count changes. -/
theorem add_ref_spec (h : WF rt) (hp : rt.atom a = some p) (n : ℤ) :
    ∃ rt', rt.add_ref a n = some rt' ∧ Steady rt rt' ∧
      rt'.info = Function.update rt.info a (some { p.info with ref_count := p.ref_count + n }) := by
  have hx := rt.info_eq hp
  have hlt := JSRuntime.lt_of_info h hx
  have hinfo : (rt.put a (.used { p with ref_count := p.ref_count + n })).info =
      Function.update rt.info a (some { p.info with ref_count := p.ref_count + n }) :=
    JSRuntime.info_put_used
  have hnexts : (rt.put a (.used { p with ref_count := p.ref_count + n })).nexts = rt.nexts := by
    rw [JSRuntime.nexts_put_used]
    refine (Function.update_eq_self_iff ..).mpr ?_
    rw [JSRuntime.nexts, Linked.nexts, hp]
    rfl
  have hfree : (rt.put a (.used { p with ref_count := p.ref_count + n })).atom_get_free =
      rt.atom_get_free := by
    rw [JSRuntime.atom_get_free_put_used]
    refine (Function.update_eq_self_iff ..).mpr ?_
    cases hf : rt.atom_get_free a with
    | none => rfl
    | some k =>
      rw [JSRuntime.info_of_free (by simp [hf])] at hx
      simp at hx
  refine ⟨rt.put a (.used { p with ref_count := p.ref_count + n }), by simp [JSRuntime.add_ref, hp],
    ⟨⟨h.size, ?_, ?_, ?_, ?_, h.max, ?_, ?_⟩, rfl, id⟩, hinfo⟩
  · intro b hb
    obtain ⟨l, hl, hmem⟩ := h.chains b hb
    refine ⟨l, by rw [hnexts]; exact hl, fun i => (hmem i).trans ?_⟩
    unfold JSRuntime.InChain
    rw [hinfo]
    by_cases hi : i = a
    · subst hi
      rw [hx, Function.update_self]
      constructor
      · rintro ⟨y, hy, hrest⟩
        obtain rfl := Option.some.inj hy
        exact ⟨_, rfl, hrest⟩
      · rintro ⟨y, hy, hrest⟩
        obtain rfl := Option.some.inj hy
        exact ⟨_, rfl, hrest⟩
    · rw [Function.update_of_ne hi]
      rfl
  · intro i q hq hi ht
    rw [JSRuntime.atom_put_used] at hq
    by_cases hia : i = a
    · subst hia
      rw [Function.update_self] at hq
      obtain rfl := Option.some.inj hq
      exact h.symbol i p hp hi ht
    · rw [Function.update_of_ne hia] at hq
      exact h.symbol i q hq hi ht
  · rw [hinfo]
    refine h.entries.insert (fun ha => h.entries.zero p.info (ha ▸ hx)) (h.entries.stored a p.info hx)
      (h.entries.hashed a p.info hx) fun ht j y hy heq hu => ?_
    exact h.entries.unique j a y p.info hy hx (heq ▸ ht) heq hu
  · intro i
    rw [JSRuntime.isSome_atom_array, hinfo, hfree]
    by_cases hi : i = a
    · subst hi
      rw [Function.update_self]
      exact iff_of_true (.inl rfl) hlt
    · rw [Function.update_of_ne hi, ← JSRuntime.isSome_atom_array]
      exact h.bound i
  · rw [hfree]
    exact h.free
  · have hmem : a ∈ (Finset.range rt.atom_size).filter fun j => (rt.info j).isSome := by
      simp [hlt, hx]
    rw [hinfo]
    refine h.count.trans ?_
    change _ = ((((Finset.range rt.atom_size).filter _).card : ℕ) : ℤ)
    rw [filter_update_some hlt, Finset.insert_eq_of_mem hmem]

/-- **`JS_FreeAtomStruct`.** The entry goes, and its place is the first free one. -/
theorem JS_FreeAtomStruct_spec (h : WF rt) (hp : rt.atom a = some p) (ha : a ≠ 0) :
    ∃ rt', JS_FreeAtomStruct rt a = some rt' ∧ Steady rt rt' ∧
      rt'.info = Function.update rt.info a none := by
  have hx := rt.info_eq hp
  have hlt := JSRuntime.lt_of_info h hx
  obtain ⟨rt₁, hrun₁, hr, hsize₁, hchains₁⟩ : ∃ rt₁,
      leave_chain rt a p = some rt₁ ∧ Relinked rt rt₁ ∧
      rt₁.atom_hash_size = rt.atom_hash_size ∧
      ∀ b < rt.atom_hash_size, ∃ l, Links rt₁.nexts (rt₁.atom_hash b) l ∧
        ∀ i, i ∈ l ↔ rt.InChain b i ∧ i ≠ a := by
    by_cases ht : p.atom_type = .SYMBOL
    · refine ⟨rt, by simp [leave_chain, ht], .refl rt, rfl, fun b hb => ?_⟩
      obtain ⟨l, hl, hmem⟩ := h.chains b hb
      refine ⟨l, hl, fun i => (hmem i).trans (iff_self_and.mpr ?_)⟩
      rintro ⟨y, hy, hyt, -⟩ rfl
      obtain rfl := Option.some.inj (hy.symm.trans hx)
      exact hyt ht
    · obtain ⟨rt₁, hrun, hr, hs, hc⟩ := unchain_spec h hp ht
      exact ⟨rt₁, by simp [leave_chain, ht, hrun], hr, hs, hc⟩
  have hindex : (if p.atom_type ≠ .SYMBOL then a else p.hash_next) = a := by
    by_cases ht : p.atom_type = .SYMBOL
    · simp [ht, h.symbol a p hp ha ht]
    · simp [ht]
  have hmem : a ∈ (Finset.range rt.atom_size).filter fun j => (rt.info j).isSome := by
    simp [hlt, hx]
  have hcard := Finset.card_erase_add_one hmem
  have hcount := h.count
  let rt' : JSRuntime := { rt₁.put a (.free rt₁.atom_free_index) with
    atom_free_index := a, atom_count := rt₁.atom_count - 1 }
  have hinfo : rt'.info = Function.update rt.info a none := by
    rw [← hr.info]
    exact JSRuntime.info_put_free
  have hget : rt'.atom_get_free = Function.update rt.atom_get_free a (some rt.atom_free_index) := by
    rw [← hr.free, ← hr.atom_free_index]
    exact JSRuntime.atom_get_free_put_free
  have hnexts : rt'.nexts = Function.update rt₁.nexts a none := JSRuntime.nexts_put_free
  have hrun : JS_FreeAtomStruct rt a = some rt' := by
    have hpos : 1 ≤ rt₁.atom_count := by
      rw [hr.atom_count]
      omega
    simp only [JS_FreeAtomStruct, hp, Option.bind_eq_bind, Option.bind_some, hrun₁, hindex]
    simp [guard, hpos, rt']
  refine ⟨rt', hrun, ⟨⟨?_, ?_, ?_, ?_, ?_, ?_, ?_, ?_⟩, hr.atom_size, fun _ => ha⟩, hinfo⟩
  · change ∃ k, rt₁.atom_hash_size = 2 ^ k
    rw [hsize₁]
    exact h.size
  · intro b hb
    change b < rt₁.atom_hash_size at hb
    obtain ⟨l, hl, hml⟩ := hchains₁ b (hsize₁ ▸ hb)
    refine ⟨l, ?_, fun i => (hml i).trans ?_⟩
    · rw [hnexts]
      exact hl.update (fun hal => ((hml a).mp hal).2 rfl) _
    · have hbucket : ∀ n, rt'.bucket n = rt.bucket n := by
        intro n
        change n &&& (rt₁.atom_hash_size - 1) = _
        rw [hsize₁]
        rfl
      rw [JSRuntime.InChain, JSRuntime.InChain, hinfo]
      by_cases hi : i = a
      · simp [hi]
      · simp [hi, hbucket]
  · intro i q hq hi ht
    have hq' : (Function.update rt₁.atom a none) i = some q := by
      rw [← JSRuntime.atom_put_free]
      exact hq
    by_cases hia : i = a
    · simp [hia] at hq'
    · rw [Function.update_of_ne hia] at hq'
      exact h.symbol i q (hr.symbol i q hq' ht) hi ht
  · rw [hinfo]
    exact h.entries.erase a
  · intro i
    change _ ↔ i < rt₁.atom_size
    rw [JSRuntime.isSome_atom_array, hinfo, hget, hr.atom_size]
    by_cases hi : i = a
    · simp [hi, hlt]
    · rw [Function.update_of_ne hi, Function.update_of_ne hi, ← JSRuntime.isSome_atom_array]
      exact h.bound i
  · change (rt₁.atom_size : ℤ) ≤ _
    rw [hr.atom_size]
    exact h.max
  · obtain ⟨l, hl, hml⟩ := h.free
    have hal : a ∉ l := by
      rw [hml]
      intro hs
      rw [JSRuntime.info_of_free hs] at hx
      simp at hx
    refine ⟨a :: l, ?_, fun i => ?_⟩
    · rw [hget]
      exact hl.push hal ha
    · rw [hget, List.mem_cons, hml]
      by_cases hi : i = a
      · simp [hi]
      · simp [hi]
  · change rt₁.atom_count - 1 = (((Finset.range rt₁.atom_size).filter _).card : ℕ)
    rw [hr.atom_count, hr.atom_size, hinfo, filter_update_none]
    omega

/-- **`__JS_FreeAtom`.** The count goes down, and with it the entry where it was the last. -/
theorem __JS_FreeAtom_spec (h : WF rt) (hp : rt.atom a = some p) (ha : a ≠ 0) :
    ∃ rt', __JS_FreeAtom rt a = some rt' ∧ Steady rt rt' ∧ rt'.info = Function.update rt.info a
      (if p.ref_count ≤ 1 then none else some { p.info with ref_count := p.ref_count - 1 }) := by
  obtain ⟨rt₁, hrun₁, hs₁, hinfo₁⟩ := add_ref_spec h hp (-1)
  obtain ⟨q, hq, hqi⟩ : ∃ q, rt₁.atom a = some q ∧
      q.info = { p.info with ref_count := p.ref_count + -1 } :=
    JSRuntime.exists_atom (by rw [hinfo₁, Function.update_self])
  have hqc : q.ref_count = p.ref_count + -1 := congrArg Info.ref_count hqi
  by_cases hlast : p.ref_count ≤ 1
  · obtain ⟨rt', hrun, hs, hinfo⟩ := JS_FreeAtomStruct_spec hs₁.wf hq ha
    refine ⟨rt', ?_, hs₁.trans hs, ?_⟩
    · have hle : q.ref_count ≤ 0 := by omega
      simp [__JS_FreeAtom, hrun₁, hq, hle, hrun]
    · rw [hinfo, hinfo₁, Function.update_idem, if_pos hlast]
  · refine ⟨rt₁, ?_, hs₁, ?_⟩
    · have hgt : ¬ q.ref_count ≤ 0 := by omega
      simp [__JS_FreeAtom, hrun₁, hq, hgt]
    · rw [hinfo₁, if_neg hlast]
      rfl

/-! ## New entries -/

/-- The bound below which the new size is computed as it is meant. -/
def Growable (rt : JSRuntime) : Prop := rt.atom_size ≤ 715827882

theorem new_atom_size_eq (hg : Growable rt) :
    new_atom_size rt = max 211 ((rt.atom_size * 3 / 2 : ℕ) : ℤ) := by
  have hle : rt.atom_size ≤ 715827882 := hg
  rw [new_atom_size, cInt_eq_self (by omega) (by omega), Int.tdiv_eq_ediv_of_nonneg (by omega)]
  push_cast
  rfl

/-- The free entries of a grown array. -/
theorem links_range {next : ℕ → Option ℕ} {n : ℕ} (k s : ℕ) (hs : 0 < s) (hn : s + k = n) (hk : 0 < k)
    (hnext : ∀ i, s ≤ i → i < n → next i = some (if i = n - 1 then 0 else i + 1)) :
    Links next s (List.range' s k) := by
  induction k generalizing s with
  | zero => omega
  | succ k ih =>
    rw [List.range'_succ]
    refine ⟨rfl, by omega, _, hnext s (Nat.le_refl s) (by omega), ?_⟩
    by_cases hlast : k = 0
    · subst hlast
      rw [if_pos (by omega)]
      rfl
    · rw [if_neg (by omega)]
      exact ih (s + 1) (by omega) (by omega) (by omega) fun i hi => hnext i (by omega)

/-- Entry 0 the first time, and free entries: what was there stays. -/
theorem grow_atom (h : WF rt) {n : ℕ} (hlt : rt.atom_size < n) {i : ℕ} (hi : i ≠ 0 ∨ 0 < rt.atom_size) :
    (grow rt n).atom i = rt.atom i := by
  by_cases hsize : i < rt.atom_size
  · have h₁ : ¬ n ≤ i := by omega
    have h₂ : ¬ (1 ≤ i ∧ rt.atom_size ≤ i) := by omega
    have h₃ : rt.atom_size ≠ 0 := by omega
    simp [JSRuntime.atom, grow, h₁, h₂, h₃]
  · have hnone : rt.atom_array i = none := by
      rw [← Option.not_isSome_iff_eq_none, h.bound]
      exact hsize
    have hpos : 1 ≤ i := by omega
    by_cases hout : n ≤ i
    · simp [JSRuntime.atom, grow, hout, hnone]
    · have hle : rt.atom_size ≤ i := by omega
      simp [JSRuntime.atom, grow, hout, hnone, hpos, hle]

theorem grow_atom_get_free (h : WF rt) (hfull : rt.atom_free_index = 0) (n i : ℕ) :
    (grow rt n).atom_get_free i =
      if max 1 rt.atom_size ≤ i ∧ i < n then
        some (if i = n - 1 then 0 else i + 1)
      else none := by
  have hnone : rt.atom_get_free i = none := by
    obtain ⟨l, hl, hmem⟩ := h.free
    rw [hfull] at hl
    have hz : Links rt.atom_get_free 0 [] := rfl
    obtain rfl := hl.unique hz
    rw [← Option.not_isSome_iff_eq_none, ← hmem]
    simp
  by_cases hout : n ≤ i
  · have hnot : ¬ i < n := by omega
    simp [JSRuntime.atom_get_free, grow, hout, hnot]
  · have hlt : i < n := by omega
    by_cases hstart : max 1 rt.atom_size ≤ i
    · rw [if_pos ⟨hstart, hlt⟩]
      simp only [JSRuntime.atom_get_free, grow, if_neg hout, if_pos hstart]
    · rw [if_neg fun hc => hstart hc.1]
      rw [JSRuntime.atom_get_free] at hnone ⊢
      simp only [grow, if_neg hout, if_neg hstart]
      split
      · next n hs =>
        split at hs
        · simp at hs
        · simp [hs] at hnone
      · rfl

/-- Growing adds free entries, and entry 0 the first time. -/
theorem grow_spec (h : WF rt) (hfull : rt.atom_free_index = 0) {n : ℕ} (hlt : rt.atom_size < n)
    (hone : 1 < n) (hmax : (n : ℤ) ≤ JS_ATOM_MAX) :
    WF (grow rt n) ∧ (grow rt n).atom_free_index ≠ 0 ∧ ∀ i, i ≠ 0 → (grow rt n).info i = rt.info i := by
  have hatom : ∀ i, i ≠ 0 → (grow rt n).atom i = rt.atom i := fun i hi =>
    grow_atom h hlt (.inl hi)
  have hinfo : ∀ i, i ≠ 0 → (grow rt n).info i = rt.info i := by
    intro i hi
    rw [JSRuntime.info, hatom i hi]
    rfl
  have hzero : ∀ x, (grow rt n).info 0 = some x → x.atom_type = .SYMBOL ∧
      (rt.atom_size ≠ 0 → rt.info 0 = some x) := by
    intro x hx
    by_cases hs : rt.atom_size = 0
    · have hnull : ¬ n ≤ 0 := by omega
      simp only [JSRuntime.info, JSRuntime.atom, grow, hs, hnull, if_false, if_true] at hx
      exact ⟨by rw [← Option.some.inj hx]; rfl, fun hne => absurd hs hne⟩
    · have hsame : (grow rt n).info 0 = rt.info 0 := by
        rw [JSRuntime.info, grow_atom h hlt (.inr (Nat.pos_of_ne_zero hs))]
        rfl
      rw [hsame] at hx
      exact ⟨h.entries.zero x hx, fun _ => hx⟩
  -- What is on a chain is not entry 0.
  have hhashed : ∀ i x, x.atom_type ≠ .SYMBOL →
      ((grow rt n).info i = some x ↔ rt.info i = some x) := by
    intro i x ht
    by_cases hi : i = 0
    · subst hi
      exact iff_of_false (fun hx => ht (hzero x hx).1) fun hx => ht (h.entries.zero x hx)
    · rw [hinfo i hi]
  refine ⟨⟨h.size, ?_, ?_, ⟨fun x hx => (hzero x hx).1, ?_, ?_, ?_⟩, ?_, ?_, ?_, ?_⟩, ?_, hinfo⟩
  · intro b hb
    obtain ⟨l, hl, hmem⟩ := h.chains b hb
    refine ⟨l, hl.congr fun i hi => ?_, fun i => (hmem i).trans ?_⟩
    · rw [JSRuntime.nexts, Linked.nexts, hatom i (hl.ne_zero hi)]
      rfl
    · constructor
      · rintro ⟨x, hx, ht, hb⟩
        exact ⟨x, (hhashed i x ht).mpr hx, ht, hb⟩
      · rintro ⟨x, hx, ht, hb⟩
        exact ⟨x, (hhashed i x ht).mp hx, ht, hb⟩
  · intro i p hp hi ht
    rw [hatom i hi] at hp
    exact h.symbol i p hp hi ht
  · intro i x hx
    by_cases hi : i = 0
    · rw [(hzero x (hi ▸ hx)).1]
      decide
    · exact h.entries.stored i x (hinfo i hi ▸ hx)
  · intro i x hx ht
    exact h.entries.hashed i x ((hhashed i x ht).mp hx) ht
  · intro i j x y hx hy ht hty hu
    exact h.entries.unique i j x y ((hhashed i x ht).mp hx) ((hhashed j y (hty ▸ ht)).mp hy) ht hty hu
  · intro i
    change _ ↔ i < n
    by_cases hout : n ≤ i
    · simp [grow, hout]
    · refine iff_of_true ?_ (by omega)
      simp only [grow, if_neg hout]
      split
      · rfl
      · next hs =>
        split
        · rfl
        · exact (h.bound i).mpr (by omega)
  · exact hmax
  · change ∃ l, Links _ (max 1 rt.atom_size) l ∧ _
    have hget := grow_atom_get_free h hfull n
    refine ⟨List.range' (max 1 rt.atom_size) (n - max 1 rt.atom_size),
      links_range _ _ (by omega) (Nat.add_sub_of_le (by omega)) (by omega) fun i hi hn => ?_, fun i => ?_⟩
    · rw [hget, if_pos ⟨hi, hn⟩]
    · rw [List.mem_range'_1, hget]
      split
      · next hc => exact iff_of_true (by omega) rfl
      · next hc => exact iff_of_false (by omega) (by simp)
  · change (if rt.atom_size = 0 then rt.atom_count + 1 else rt.atom_count) =
      (((Finset.range n).filter _).card : ℕ)
    have hcount := h.count
    by_cases hs : rt.atom_size = 0
    · have hset : ((Finset.range n).filter fun i => ((grow rt n).info i).isSome) = {0} := by
        ext i
        by_cases hi : i = 0
        · subst hi
          have hnull : ¬ n ≤ 0 := by omega
          have hpos : 0 < n := by omega
          simp [JSRuntime.info, JSRuntime.atom, grow, hs, hnull, hpos]
        · have hnone : rt.info i = none := by
            rw [← Option.not_isSome_iff_eq_none]
            intro hx
            obtain ⟨x, hx⟩ := Option.isSome_iff_exists.mp hx
            have := JSRuntime.lt_of_info h hx
            omega
          simp [hinfo i hi, hnone, hi]
      rw [if_pos hs, hset, hcount, hs]
      rfl
    · have hset : ((Finset.range n).filter fun i => ((grow rt n).info i).isSome) =
          (Finset.range rt.atom_size).filter fun i => (rt.info i).isSome := by
        ext i
        have hsame : (grow rt n).info i = rt.info i := by
          rw [JSRuntime.info, grow_atom h hlt (.inr (Nat.pos_of_ne_zero hs))]
          rfl
        rw [Finset.mem_filter, Finset.mem_filter, Finset.mem_range, Finset.mem_range, hsame]
        constructor
        · rintro ⟨-, hx⟩
          obtain ⟨x, hx'⟩ := Option.isSome_iff_exists.mp hx
          exact ⟨JSRuntime.lt_of_info h hx', hx⟩
        · rintro ⟨hi, hx⟩
          exact ⟨by omega, hx⟩
      rw [if_neg hs, hset, hcount]
  · change max 1 rt.atom_size ≠ 0
    omega

/-- The entry that is used is the first free one. -/
structure Taken (rt : JSRuntime) (i : ℕ) (rt' : JSRuntime) : Prop where
  index : rt.atom_free_index = i
  next : rt.atom_get_free i = some rt'.atom_free_index
  free : rt'.atom_get_free = Function.update rt.atom_get_free i none
  atom_size : rt'.atom_size = rt.atom_size

/-- The first free entry is used. -/
theorem use_entry_spec (h : WF rt) (hfree : rt.atom_free_index ≠ 0) {c : ℤ} {s : JSString} {n : ℕ}
    {ty : JSAtomType} (hty : ty ≠ .PRIVATE) (hhash : ty ≠ .SYMBOL → n = atom_hash s ty)
    (hnew : ty ≠ .SYMBOL → ∀ j x, rt.info j = some x → x.atom_type = ty → x.str.units ≠ s.units) :
    ∃ i rt', use_entry rt c s n ty = some (i, rt') ∧ i ≠ 0 ∧ rt.info i = none ∧ WF rt' ∧
      rt'.info = Function.update rt.info i (some
        { ref_count := c, atom_type := ty, hash := n, str := s }) ∧ Taken rt i rt' := by
  obtain ⟨l, hl, hmem⟩ := h.free
  obtain ⟨l, rfl⟩ : ∃ l', l = rt.atom_free_index :: l' := by
    cases l with
    | nil => exact absurd hl hfree
    | cons i l => exact ⟨l, by rw [hl.head]⟩
  generalize hi : rt.atom_free_index = i at hl hfree hmem
  obtain ⟨-, -, next, hget, hrest⟩ := id hl
  have hil : i ∉ l := (List.nodup_cons.mp hl.nodup).1
  have hnone : rt.info i = none := JSRuntime.info_of_free (by simp [hget])
  have hlt : i < rt.atom_size := by
    rw [← h.bound, JSRuntime.isSome_atom_array]
    exact .inr (by simp [hget])
  let p : JSAtomStruct :=
    { ref_count := c, atom_type := ty, hash := n, str := s
      hash_next := if ty ≠ .SYMBOL then rt.atom_hash (rt.bucket n) else i }
  let rt₁ : JSRuntime := { rt.put i (.used p) with
    atom_free_index := next, atom_count := rt.atom_count + 1
    atom_hash := if ty ≠ .SYMBOL then Function.update rt.atom_hash (rt.bucket n) i else rt.atom_hash }
  have hinfo : rt₁.info = Function.update rt.info i (some p.info) := JSRuntime.info_put_used
  have hnexts : rt₁.nexts = Function.update rt.nexts i (some p.hash_next) := JSRuntime.nexts_put_used
  have hfree₁ : rt₁.atom_get_free = Function.update rt.atom_get_free i none :=
    JSRuntime.atom_get_free_put_used
  have hwf : WF rt₁ := by
    refine ⟨h.size, ?_, ?_, ?_, ?_, h.max, ⟨l, ?_, ?_⟩, ?_⟩
    · intro b hb
      obtain ⟨lb, hlb, hmemb⟩ := h.chains b hb
      have hnot : i ∉ lb := by
        rw [hmemb]
        rintro ⟨x, hx, -⟩
        rw [hnone] at hx
        simp at hx
      have hin : ∀ j, rt₁.InChain b j ↔ rt.InChain b j ∨ (j = i ∧ ty ≠ .SYMBOL ∧ rt.bucket n = b) := by
        intro j
        unfold JSRuntime.InChain
        rw [hinfo]
        by_cases hj : j = i
        · subst hj
          rw [Function.update_self, hnone]
          constructor
          · rintro ⟨x, hx, ht, hb⟩
            obtain rfl := Option.some.inj hx
            exact .inr ⟨rfl, ht, hb⟩
          · rintro (⟨x, hx, -⟩ | ⟨-, ht, hb⟩)
            · simp at hx
            · exact ⟨p.info, rfl, ht, hb⟩
        · rw [Function.update_of_ne hj]
          constructor
          · exact .inl
          · rintro (hx | ⟨hj', -⟩)
            · exact hx
            · exact absurd hj' hj
      by_cases hown : ty ≠ .SYMBOL ∧ b = rt.bucket n
      · obtain ⟨ht, rfl⟩ := hown
        refine ⟨i :: lb, ?_, fun j => ?_⟩
        · change Links rt₁.nexts ((if ty ≠ .SYMBOL then _ else _ : ℕ → ℕ) _) _
          rw [hnexts, if_pos ht, Function.update_self]
          have hnext : p.hash_next = rt.atom_hash (rt.bucket n) := if_pos ht
          rw [hnext]
          exact hlb.push hnot hfree
        · rw [hin, List.mem_cons, hmemb]
          constructor
          · rintro (hj | hj)
            · exact .inr ⟨hj, ht, rfl⟩
            · exact .inl hj
          · rintro (hj | ⟨hj, -⟩)
            · exact .inr hj
            · exact .inl hj
      · refine ⟨lb, ?_, fun j => ?_⟩
        · have hhead : rt₁.atom_hash b = rt.atom_hash b := by
            by_cases ht : ty = .SYMBOL
            · simp [rt₁, ht]
            · have hb' : b ≠ rt.bucket n := fun e => hown ⟨ht, e⟩
              simp [rt₁, ht, hb']
          rw [hhead, hnexts]
          exact hlb.update hnot _
        · rw [hin, hmemb, iff_self_or]
          rintro ⟨-, ht, hb'⟩
          exact absurd ⟨ht, hb'.symm⟩ hown
    · intro j q hq hj ht
      have hq' : Function.update rt.atom i (some p) j = some q := by
        rw [← JSRuntime.atom_put_used]
        exact hq
      by_cases hji : j = i
      · rw [hji, Function.update_self] at hq'
        obtain rfl := Option.some.inj hq'
        rw [hji]
        exact if_neg (not_not.mpr ht)
      · rw [Function.update_of_ne hji] at hq'
        exact h.symbol j q hq' hj ht
    · rw [hinfo]
      exact h.entries.insert (fun hz => absurd hz hfree) hty hhash
        fun ht j y hy heq hu => absurd hu (hnew ht j y hy heq)
    · intro j
      change _ ↔ j < rt.atom_size
      rw [JSRuntime.isSome_atom_array, hinfo, hfree₁]
      by_cases hj : j = i
      · simp [hj, hlt]
      · rw [Function.update_of_ne hj, Function.update_of_ne hj, ← JSRuntime.isSome_atom_array]
        exact h.bound j
    · rw [hfree₁]
      exact hrest.update hil _
    · intro j
      have hm := hmem j
      rw [List.mem_cons] at hm
      rw [hfree₁]
      by_cases hj : j = i
      · simp [hj, hil]
      · rw [Function.update_of_ne hj, ← hm]
        simp [hj]
    · change rt.atom_count + 1 = (((Finset.range rt.atom_size).filter _).card : ℕ)
      have hnotmem : i ∉ (Finset.range rt.atom_size).filter fun j => (rt.info j).isSome := by
        simp [hnone]
      rw [hinfo, filter_update_some hlt, Finset.card_insert_of_notMem hnotmem, h.count]
      push_cast
      rfl
  have hrun : use_entry rt c s n ty =
      (if ty ≠ .SYMBOL ∧ rt₁.atom_count_resize ≤ rt₁.atom_count then
        JS_ResizeAtomHash rt₁ (rt₁.atom_hash_size * 2)
      else some rt₁).map fun rt => (i, rt) := by
    simp only [use_entry, hi, hget, Option.bind_eq_bind, Option.bind_some]
    exact (Option.map_eq_bind ..).symm
  by_cases hgrow : ty ≠ .SYMBOL ∧ rt₁.atom_count_resize ≤ rt₁.atom_count
  · obtain ⟨k, hk⟩ := hwf.size
    obtain ⟨rt', hrun', hwf', hrel⟩ := JS_ResizeAtomHash_spec hwf (k + 1)
    refine ⟨i, rt', ?_, hfree, hnone, hwf', hrel.info.trans hinfo,
      ⟨hi, ?_, hrel.free.trans hfree₁, hrel.atom_size⟩⟩
    · rw [hrun, if_pos hgrow, hk, ← pow_succ, hrun']
      rfl
    · rw [hrel.atom_free_index]
      exact hget
  · refine ⟨i, rt₁, ?_, hfree, hnone, hwf, hinfo, ⟨hi, hget, hfree₁, rfl⟩⟩
    rw [hrun, if_neg hgrow]
    rfl

end Ops

/-! ## `__JS_NewAtom` -/

/-- A reference less. -/
def unref (info : ℕ → Option Info) (a : ℕ) : ℕ → Option Info :=
  Function.update info a ((info a).bind fun x =>
    if x.ref_count ≤ 1 then none else some { x with ref_count := x.ref_count - 1 })

/-- The string is given up. -/
def StringPtr.drop (info : ℕ → Option Info) : StringPtr → ℕ → Option Info
  | .atom a => unref info a
  | _ => info

/-- What the string is. -/
def StringPtr.text (info : ℕ → Option Info) : StringPtr → Option JSString
  | .null => none
  | .string _ s => some s
  | .atom a => (info a).map Info.str

/-- A pointer to an entry is one. -/
def StringPtr.Valid (info : ℕ → Option Info) : StringPtr → Prop
  | .atom a => a ≠ 0 ∧ (info a).isSome
  | _ => True

/-- The count of an entry that the string becomes. -/
def StringPtr.count : StringPtr → ℤ
  | .string n _ => n
  | _ => 1

section NewAtom

variable {rt : JSRuntime} {str : StringPtr} {ty : JSAtomType}

theorem unref_eq {a : ℕ} {p : JSAtomStruct} (hp : rt.atom a = some p) :
    unref rt.info a = Function.update rt.info a
      (if p.ref_count ≤ 1 then none else some { p.info with ref_count := p.ref_count - 1 }) := by
  rw [unref, rt.info_eq hp]
  rfl

theorem js_free_string_spec (h : WF rt) (hv : str.Valid rt.info) :
    ∃ rt', js_free_string rt str = some rt' ∧ Steady rt rt' ∧ rt'.info = str.drop rt.info := by
  cases str with
  | null => exact ⟨rt, rfl, .refl h, rfl⟩
  | string n s => exact ⟨rt, rfl, .refl h, rfl⟩
  | atom a =>
    obtain ⟨ha, hx⟩ := hv
    obtain ⟨x, hx⟩ := Option.isSome_iff_exists.mp hx
    obtain ⟨p, hp, -⟩ := JSRuntime.exists_atom hx
    obtain ⟨rt', hrun, hs, hinfo⟩ := __JS_FreeAtom_spec h hp ha
    exact ⟨rt', hrun, hs, hinfo.trans (unref_eq hp).symm⟩

/-- What goes into the new entry is read before the string is given up. -/
theorem take_string_spec (h : WF rt) (hv : str.Valid rt.info) :
    ∃ rt', take_string rt str = some ((str.count, (str.text rt.info).getD (.str16 [])), rt') ∧
      Steady rt rt' ∧ rt'.info = str.drop rt.info := by
  obtain ⟨rt', hrun, hs, hinfo⟩ := js_free_string_spec h hv
  refine ⟨rt', ?_, hs, hinfo⟩
  cases str with
  | null =>
    obtain rfl := Option.some.inj hrun
    rfl
  | string n s =>
    obtain rfl := Option.some.inj hrun
    rfl
  | atom a =>
    obtain ⟨x, hx⟩ := Option.isSome_iff_exists.mp hv.2
    obtain ⟨p, hp, rfl⟩ := JSRuntime.exists_atom hx
    have hfree : __JS_FreeAtom rt a = some rt' := hrun
    simp only [take_string, hp, hfree, Option.bind_eq_bind, Option.bind_some]
    simp [StringPtr.count, StringPtr.text, hx, JSAtomStruct.info]

/-- There is a free entry, or the array can grow. -/
def HasRoom (rt : JSRuntime) : Prop := rt.atom_free_index ≠ 0 ∨ Growable rt

theorem drop_text (info : ℕ → Option Info) (str : StringPtr) (i : ℕ) (x : Info)
    (hx : str.drop info i = some x) :
    ∃ y, info i = some y ∧ y.atom_type = x.atom_type ∧ y.str = x.str := by
  cases str with
  | atom a =>
    rw [StringPtr.drop, unref] at hx
    by_cases hi : i = a
    · subst hi
      rw [Function.update_self] at hx
      obtain ⟨y, hy, hyx⟩ := Option.bind_eq_some_iff.mp hx
      split at hyx
      · simp at hyx
      · obtain rfl := Option.some.inj hyx
        exact ⟨y, hy, rfl, rfl⟩
    · rw [Function.update_of_ne hi] at hx
      exact ⟨x, hx, rfl, rfl⟩
  | _ => exact ⟨x, hx, rfl, rfl⟩

theorem StringPtr.drop_congr {info info' : ℕ → Option Info} (h : ∀ i, i ≠ 0 → info' i = info i)
    (hv : str.Valid info) {i : ℕ} (hi : i ≠ 0) : str.drop info' i = str.drop info i := by
  cases str with
  | atom a =>
    rw [StringPtr.drop, StringPtr.drop, unref, unref, h a hv.1]
    by_cases hia : i = a
    · rw [hia, Function.update_self, Function.update_self]
    · rw [Function.update_of_ne hia, Function.update_of_ne hia, h i hi]
  | _ => exact h i hi

theorem StringPtr.text_congr {info info' : ℕ → Option Info} (h : ∀ i, i ≠ 0 → info' i = info i)
    (hv : str.Valid info) : str.text info' = str.text info := by
  cases str with
  | atom a => rw [StringPtr.text, StringPtr.text, h a hv.1]
  | _ => rfl

theorem StringPtr.Valid.congr {info info' : ℕ → Option Info} (h : ∀ i, i ≠ 0 → info' i = info i)
    (hv : str.Valid info) : str.Valid info' := by
  cases str with
  | atom a => exact ⟨hv.1, by rw [h a hv.1]; exact hv.2⟩
  | _ => trivial

/-- Where the array is full it grows, and then there is a free entry. -/
theorem make_room (h : WF rt) (hroom : HasRoom rt) :
    ¬ (rt.atom_free_index = 0 ∧ JS_ATOM_MAX < new_atom_size rt) ∧ ∃ rt₁,
      (if rt.atom_free_index = 0 then grow rt (new_atom_size rt).toNat else rt) = rt₁ ∧ WF rt₁ ∧
      rt₁.atom_free_index ≠ 0 ∧ ∀ i, i ≠ 0 → rt₁.info i = rt.info i := by
  by_cases hfull : rt.atom_free_index = 0
  · have hg : Growable rt := hroom.resolve_left (not_not.mpr hfull)
    have hle : rt.atom_size ≤ 715827882 := hg
    have heq := new_atom_size_eq hg
    have hmax : new_atom_size rt ≤ JS_ATOM_MAX := by
      rw [heq, JS_ATOM_MAX]
      omega
    have hnat : (((new_atom_size rt).toNat : ℕ) : ℤ) = new_atom_size rt := by omega
    obtain ⟨hwf, hfree, hinfo⟩ := grow_spec h hfull (by omega) (by omega) (hnat ▸ hmax)
    exact ⟨fun hc => absurd hc.2 (by omega), _, if_pos hfull, hwf, hfree, hinfo⟩
  · exact ⟨fun hc => hfull hc.1, rt, if_neg hfull, h, hfull, fun _ _ => rfl⟩

/-- A new atom. It may get the place that the string leaves. -/
theorem new_entry_spec (h : WF rt) (hroom : HasRoom rt) (hv : str.Valid rt.info) {n : ℕ}
    (hty : ty ≠ .PRIVATE)
    (htext : ty ≠ .SYMBOL → ∃ s, str.text rt.info = some s ∧ n = atom_hash s ty ∧
      ∀ j x, rt.info j = some x → x.atom_type = ty → x.str.units ≠ s.units) :
    ∃ i rt', new_entry rt str n ty = some (i, rt') ∧ i ≠ 0 ∧ WF rt' ∧ str.drop rt.info i = none ∧
      ∀ k, k ≠ 0 → rt'.info k = Function.update (str.drop rt.info) i (some
        { ref_count := str.count, atom_type := ty, hash := n
          str := (str.text rt.info).getD (.str16 []) }) k := by
  obtain ⟨hfits, rt₁, hgrow, hwf₁, hfree₁, hinfo₁⟩ := make_room h hroom
  have hv₁ := hv.congr hinfo₁
  obtain ⟨rt₂, htake, hs₂, hinfo₂⟩ := take_string_spec hwf₁ hv₁
  rw [StringPtr.text_congr hinfo₁ hv] at htake
  obtain ⟨i, rt', huse, hi, hnone, hwf', hinfo', -⟩ := use_entry_spec hs₂.wf (hs₂.free hfree₁) (c := str.count)
    (s := (str.text rt.info).getD (.str16 [])) (n := n) hty (fun ht => by
      obtain ⟨s, hs, hn, -⟩ := htext ht
      rw [hs]
      exact hn) fun ht j x hx hxt => by
      obtain ⟨s, hs, -, hnew⟩ := htext ht
      obtain ⟨y, hy, hyt, hys⟩ := drop_text rt₁.info str j x (hinfo₂ ▸ hx)
      have hj : j ≠ 0 := by
        rintro rfl
        exact ht (hxt.symm.trans (hyt.symm.trans (hwf₁.entries.zero y hy)))
      rw [hs, ← hys]
      exact hnew j y (hinfo₁ j hj ▸ hy) (hyt.trans hxt)
  have hdrop : ∀ k, k ≠ 0 → rt₂.info k = str.drop rt.info k := fun k hk => by
    rw [hinfo₂, StringPtr.drop_congr hinfo₁ hv hk]
  refine ⟨i, rt', ?_, hi, hwf', hdrop i hi ▸ hnone, fun k hk => ?_⟩
  · rw [new_entry, if_neg hfits, hgrow]
    simp only [htake, Option.bind_eq_bind, Option.bind_some]
    exact huse
  · rw [hinfo']
    by_cases hki : k = i
    · rw [hki, Function.update_self, Function.update_self]
    · rw [Function.update_of_ne hki, Function.update_of_ne hki, hdrop k hk]

/-- What `__JS_NewAtom` has done: the entry `i` has the text and the type of the atom, and
apart from that one reference has moved. -/
inductive Interned (JS_ATOM_END : ℕ) (info : ℕ → Option Info) (str : StringPtr) (ty : JSAtomType)
    (i : ℕ) (info' : ℕ → Option Info) : Prop
  /-- The string is the atom. -/
  | same (x : Info) (hty : ty = .STRING ∨ ty = .GLOBAL_SYMBOL) (hstr : str = .atom i)
      (hx : info i = some x) (ht : x.atom_type = ty)
      (hinfo : ∀ k, k ≠ 0 → info' k = Function.update info i (some
        { x with ref_count := x.ref_count - if __JS_AtomIsConst JS_ATOM_END i then 1 else 0 }) k)
  /-- Another entry has the text. -/
  | found (x : Info) (s : JSString) (hty : ty = .STRING ∨ ty = .GLOBAL_SYMBOL)
      (hstr : str ≠ .atom i) (hs : str.text info = some s)
      (hx : info i = some x) (ht : x.atom_type = ty) (hu : x.str.units = s.units)
      (hinfo : ∀ k, k ≠ 0 → info' k = str.drop (Function.update info i (some
        { x with ref_count := x.ref_count + if __JS_AtomIsConst JS_ATOM_END i then 0 else 1 })) k)
  /-- The entry is new. -/
  | new (x : Info) (hnone : str.drop info i = none) (hc : x.ref_count = str.count)
      (ht : x.atom_type = if ty = .PRIVATE then .SYMBOL else ty)
      (hs : x.str = (str.text info).getD (.str16 []))
      (hinfo : ∀ k, k ≠ 0 → info' k = Function.update (str.drop info) i (some x) k)

/-- An atom that is registered already, or a new one. -/
theorem locate_spec (JS_ATOM_END : ℕ) (h : WF rt) (hroom : HasRoom rt) (hv : str.Valid rt.info)
    (hty : ty = .STRING ∨ ty = .GLOBAL_SYMBOL) {s : JSString} (hs : str.text rt.info = some s)
    (hne : ∀ a x, str = .atom a → rt.info a = some x → x.atom_type ≠ ty) :
    ∃ i rt', locate_atom JS_ATOM_END rt str s ty = some (i, rt') ∧ i ≠ 0 ∧ WF rt' ∧
      Interned JS_ATOM_END rt.info str ty i rt'.info := by
  have hsym : ty ≠ .SYMBOL := by rcases hty with rfl | rfl <;> decide
  have hpriv : ty ≠ .PRIVATE := by rcases hty with rfl | rfl <;> decide
  obtain ⟨i, hfind, hfound, hmissing⟩ := find_atom_spec h hsym s
  by_cases hi : i = 0
  · obtain ⟨k, rt', hrun, hk, hwf, hnone, hinfo⟩ := new_entry_spec h hroom hv (n := atom_hash s ty)
      hpriv fun _ => ⟨s, hs, rfl, hmissing hi⟩
    refine ⟨k, rt', ?_, hk, hwf, .new _ hnone rfl (if_neg hpriv).symm rfl hinfo⟩
    simp [locate_atom, hfind, hi, hrun]
  · obtain ⟨p, hp, ht, hu⟩ := hfound hi
    have hx := rt.info_eq hp
    have hstr : str ≠ .atom i := fun e => hne i p.info e hx ht
    obtain ⟨rt₁, href, hwf₁, hinfo₁⟩ : ∃ rt₁,
        (if __JS_AtomIsConst JS_ATOM_END i then some rt else rt.add_ref i 1) = some rt₁ ∧ WF rt₁ ∧
        rt₁.info = Function.update rt.info i (some { p.info with
          ref_count := p.ref_count + if __JS_AtomIsConst JS_ATOM_END i then 0 else 1 }) := by
      by_cases hc : __JS_AtomIsConst JS_ATOM_END i
      · refine ⟨rt, if_pos hc, h, ?_⟩
        rw [if_pos hc, add_zero]
        exact ((Function.update_eq_self_iff ..).mpr hx.symm).symm
      · obtain ⟨rt₁, hrun, hs₁, hinfo⟩ := add_ref_spec h hp 1
        exact ⟨rt₁, by rw [if_neg hc, hrun], hs₁.wf, by rw [if_neg hc, hinfo]⟩
    have hv₁ : str.Valid rt₁.info := by
      cases str with
      | atom a =>
        refine ⟨hv.1, ?_⟩
        rw [hinfo₁]
        by_cases hai : a = i
        · simp [hai]
        · simpa [hai] using hv.2
      | _ => trivial
    obtain ⟨rt', hfree, hs', hinfo'⟩ := js_free_string_spec hwf₁ hv₁
    refine ⟨i, rt', ?_, hi, hs'.wf, .found p.info s hty hstr hs hx ht hu fun k _ => ?_⟩
    · simp only [locate_atom, hfind, Option.bind_eq_bind, Option.bind_some, ne_eq, hi,
        not_false_eq_true, if_true, href, hfree]
      rfl
    · rw [hinfo', hinfo₁]
      rfl

theorem intern_atom_spec (JS_ATOM_END : ℕ) (h : WF rt) (hroom : HasRoom rt) (hv : str.Valid rt.info)
    (hty : ty = .STRING ∨ ty = .GLOBAL_SYMBOL) (hstr : str ≠ .null) :
    ∃ i rt', intern_atom JS_ATOM_END rt str ty = some (i, rt') ∧ i ≠ 0 ∧ WF rt' ∧
      Interned JS_ATOM_END rt.info str ty i rt'.info := by
  cases str with
  | null => exact absurd rfl hstr
  | string n s => exact locate_spec JS_ATOM_END h hroom hv hty rfl (by simp)
  | atom a =>
    obtain ⟨x, hx⟩ := Option.isSome_iff_exists.mp hv.2
    obtain ⟨p, hp, rfl⟩ := JSRuntime.exists_atom hx
    by_cases ht : p.atom_type = ty
    · have hindex := js_get_atom_index_spec h hp hv.1
      obtain ⟨rt', hrun, hwf, hinfo⟩ : ∃ rt',
          (if __JS_AtomIsConst JS_ATOM_END a then rt.add_ref a (-1) else some rt) = some rt' ∧ WF rt' ∧
          rt'.info = Function.update rt.info a (some { p.info with
            ref_count := p.ref_count - if __JS_AtomIsConst JS_ATOM_END a then 1 else 0 }) := by
        by_cases hc : __JS_AtomIsConst JS_ATOM_END a
        · obtain ⟨rt', hrun, hs, hinfo⟩ := add_ref_spec h hp (-1)
          exact ⟨rt', by rw [if_pos hc, hrun], hs.wf, by rw [if_pos hc, hinfo, sub_eq_add_neg]⟩
        · refine ⟨rt, if_neg hc, h, ?_⟩
          rw [if_neg hc, sub_zero]
          exact ((Function.update_eq_self_iff ..).mpr hx.symm).symm
      refine ⟨a, rt', ?_, hv.1, hwf, .same p.info hty rfl hx ht fun k _ => congrFun hinfo k⟩
      rw [intern_atom]
      simp only [hp, Option.bind_eq_bind, Option.bind_some]
      rw [if_pos ht, hindex, Option.bind_some, hrun, Option.bind_some, Option.pure_def]
    · have hne : ∀ b x, StringPtr.atom a = .atom b → rt.info b = some x → x.atom_type ≠ ty := by
        rintro b y he hy rfl
        obtain rfl := StringPtr.atom.inj he
        obtain rfl := Option.some.inj (hx.symm.trans hy)
        exact ht rfl
      have htext : (StringPtr.atom a).text rt.info = some p.str := by
        simp [StringPtr.text, hx, JSAtomStruct.info]
      obtain ⟨i, rt', hrun, hrest⟩ := locate_spec JS_ATOM_END h hroom hv hty htext hne
      refine ⟨i, rt', ?_, hrest⟩
      simp only [intern_atom, hp, Option.bind_eq_bind, Option.bind_some, if_neg ht, hrun]

/-- **`__JS_NewAtom`.** It succeeds, and gives an entry with the text and the type. -/
theorem __JS_NewAtom_spec (JS_ATOM_END : ℕ) (h : WF rt) (hroom : HasRoom rt)
    (hv : str.Valid rt.info) (hstr : ty = .STRING ∨ ty = .GLOBAL_SYMBOL → str ≠ .null) :
    ∃ i rt', __JS_NewAtom JS_ATOM_END rt str ty = some (i, rt') ∧ i ≠ 0 ∧ WF rt' ∧
      Interned JS_ATOM_END rt.info str ty i rt'.info := by
  have hsymbol : ∀ n, (ty = .SYMBOL ∨ ty = .PRIVATE) → ∃ i rt',
      new_entry rt str n .SYMBOL = some (i, rt') ∧ i ≠ 0 ∧ WF rt' ∧
      Interned JS_ATOM_END rt.info str ty i rt'.info := by
    intro n hty
    obtain ⟨i, rt', hrun, hi, hwf, hnone, hinfo⟩ := new_entry_spec h hroom hv
      (by decide : JSAtomType.SYMBOL ≠ .PRIVATE) fun hne => absurd rfl hne
    refine ⟨i, rt', hrun, hi, hwf, .new _ hnone rfl ?_ rfl hinfo⟩
    rcases hty with rfl | rfl <;> rfl
  cases ty with
  | STRING => exact intern_atom_spec JS_ATOM_END h hroom hv (.inl rfl) (hstr (.inl rfl))
  | GLOBAL_SYMBOL => exact intern_atom_spec JS_ATOM_END h hroom hv (.inr rfl) (hstr (.inr rfl))
  | SYMBOL => exact hsymbol _ (.inl rfl)
  | PRIVATE => exact hsymbol _ (.inr rfl)

end NewAtom

end QuickJSSwift.Atom
