/-
The counts of atoms.

C code owns references to atoms and pointers to entries, as string or symbol values. What it
owns is followed beside the table. The invariant is that the count of an entry is the number
of the references to it, and that an entry with no reference is free; a predefined atom counts
once for the table itself and is not counted as an atom.

An operation that makes an atom may give a string up, which may have been the last pointer to
an entry, and the new atom may get the place of that entry. So it is specified by what is left
once the string is given up: whatever there is still a reference to is kept.
-/
import QuickJSSwift.AtomNames

set_option autoImplicit false
set_option linter.style.nameCheck false

namespace QuickJSSwift.Atom

open Text

/-- The predefined atoms. -/
structure Predefined where
  JS_ATOM_END : ℕ
  JS_ATOM_empty_string : ℕ
  pos : 0 < JS_ATOM_empty_string
  lt : JS_ATOM_empty_string < JS_ATOM_END

/-- What C code owns: references to atoms, and pointers to entries. -/
structure Owned where
  atoms : ℕ → ℕ
  strings : ℕ → ℕ

namespace Owned

variable (P : Predefined)

def dupAtom (o : Owned) (v : ℕ) : Owned :=
  if __JS_AtomIsConst P.JS_ATOM_END v then o
  else { o with atoms := Function.update o.atoms v (o.atoms v + 1) }

def freeAtom (o : Owned) (v : ℕ) : Owned :=
  if __JS_AtomIsConst P.JS_ATOM_END v then o
  else { o with atoms := Function.update o.atoms v (o.atoms v - 1) }

def dupString (o : Owned) (a : ℕ) : Owned :=
  { o with strings := Function.update o.strings a (o.strings a + 1) }

def freeString (o : Owned) (a : ℕ) : Owned :=
  { o with strings := Function.update o.strings a (o.strings a - 1) }

/-- The string is given up. -/
def give (o : Owned) : StringPtr → Owned
  | .atom a => o.freeString a
  | _ => o

/-- The string may have become the entry `v`; then the other pointers to it are pointers to
the entry. -/
def adopt (o : Owned) (info : ℕ → Option Info) (p : StringPtr) (v : ℕ) : Owned :=
  if info v = none ∧ ¬ __JS_AtomIsConst P.JS_ATOM_END v then
    { o with strings := Function.update o.strings v (o.strings v + (p.count - 1).toNat) }
  else o

/-- A string has been made into the atom `v`. -/
def named (o : Owned) (info : ℕ → Option Info) (p : StringPtr) (v : ℕ) : Owned :=
  ((o.give p).adopt P info p v).dupAtom P v

/-- It has been made into a symbol. -/
def symbol (o : Owned) (info : ℕ → Option Info) (p : StringPtr) (v : ℕ) : Owned :=
  ((o.give p).adopt P info p v).dupString v

/-- The references to an entry. -/
def count (o : Owned) (i : ℕ) : ℕ :=
  o.strings i + if __JS_AtomIsConst P.JS_ATOM_END i then 1 else o.atoms i

/-- There is a reference to the entry. -/
def Has (o : Owned) (i : ℕ) : Prop := i ≠ 0 ∧ i < 2 ^ 31 ∧ 0 < o.count P i

/-- The string may be given up. -/
def Owns (o : Owned) : StringPtr → Prop
  | .null => True
  | .string n _ => 1 ≤ n
  | .atom a => a ≠ 0 ∧ 0 < o.strings a

end Owned

/-- The counts are right. -/
structure Counted (P : Predefined) (info : ℕ → Option Info) (o : Owned) : Prop where
  count : ∀ i x, i ≠ 0 → info i = some x → x.ref_count = o.count P i ∧ 0 < o.count P i
  missing : ∀ i, i ≠ 0 → info i = none → o.strings i = 0 ∧ o.atoms i = 0
  const : ∀ i, i ≠ 0 → i < P.JS_ATOM_END → (info i).isSome

/-- The invariant. -/
structure Settled (P : Predefined) (rt : JSRuntime) (o : Owned) : Prop where
  wf : WF rt
  counted : Counted P rt.info o
  canonical : Canonical rt.info
  registry : ∀ i x, i < P.JS_ATOM_END → rt.info i = some x → x.atom_type ≠ .GLOBAL_SYMBOL

section Counts

variable {P : Predefined} {info info' : ℕ → Option Info} {o o' : Owned} {i : ℕ} {x : Info}
  {str : StringPtr} {ty : JSAtomType}

theorem isConst_iff (P : Predefined) (hi : i < 2 ^ 31) :
    __JS_AtomIsConst P.JS_ATOM_END i ↔ i < P.JS_ATOM_END := by
  rw [__JS_AtomIsConst, cInt_eq_self (by omega) (by omega)]
  omega

/-- The entry `i` and what is owned of it change. -/
theorem Counted.put (h : Counted P info o) (hother : ∀ k, k ≠ 0 → k ≠ i → info' k = info k)
    (hs : ∀ k, k ≠ i → o'.strings k = o.strings k) (ha : ∀ k, k ≠ i → o'.atoms k = o.atoms k)
    (hx : info' i = some x) (hcount : x.ref_count = o'.count P i) (hpos : 0 < o'.count P i) :
    Counted P info' o' where
  count := by
    intro k y hk hy
    by_cases hki : k = i
    · subst hki
      obtain rfl := Option.some.inj (hx.symm.trans hy)
      exact ⟨hcount, hpos⟩
    · rw [hother k hk hki] at hy
      rw [Owned.count, hs k hki, ha k hki]
      exact h.count k y hk hy
  missing := by
    intro k hk hnone
    by_cases hki : k = i
    · rw [hki, hx] at hnone
      simp at hnone
    · rw [hother k hk hki] at hnone
      rw [hs k hki, ha k hki]
      exact h.missing k hk hnone
  const := by
    intro k hk hlt
    by_cases hki : k = i
    · rw [hki, hx]
      rfl
    · rw [hother k hk hki]
      exact h.const k hk hlt

theorem Counted.congr (h : Counted P info o) (hinfo : ∀ k, k ≠ 0 → info' k = info k) :
    Counted P info' o where
  count := fun k y hk hy => h.count k y hk (hinfo k hk ▸ hy)
  missing := fun k hk hnone => h.missing k hk (hinfo k hk ▸ hnone)
  const := fun k hk hlt => by
    rw [hinfo k hk]
    exact h.const k hk hlt

/-- What there is a reference to is there. -/
theorem Counted.isSome (h : Counted P info o) (hi : o.Has P i) : (info i).isSome := by
  obtain ⟨hne, hlt, hpos⟩ := hi
  by_contra hnone
  rw [Option.not_isSome_iff_eq_none] at hnone
  obtain ⟨hs, ha⟩ := h.missing i hne hnone
  rw [Owned.count, hs, ha] at hpos
  by_cases hc : __JS_AtomIsConst P.JS_ATOM_END i
  · have hsome := h.const i hne ((isConst_iff P hlt).mp hc)
    simp [hnone] at hsome
  · simp [hc] at hpos

/-- A reference to an entry is given up. -/
theorem Counted.unref (h : Counted P info o) (hi : i ≠ 0) (hbound : ∀ k, (info k).isSome → k < 2 ^ 31)
    (hs : ∀ k, k ≠ i → o'.strings k = o.strings k) (ha : ∀ k, k ≠ i → o'.atoms k = o.atoms k)
    (hcount : o.count P i = o'.count P i + 1) (hx : (info i).isSome) :
    Counted P (unref info i) o' := by
  obtain ⟨x, hx⟩ := Option.isSome_iff_exists.mp hx
  obtain ⟨href, -⟩ := h.count i x hi hx
  by_cases hlast : x.ref_count ≤ 1
  · have hnone : Atom.unref info i = Function.update info i none := by
      simp [Atom.unref, hx, hlast]
    have hzero : o'.count P i = 0 := by omega
    have hlt := hbound i (by simp [hx])
    rw [Owned.count] at hzero
    -- the reference of the table itself is never given up, so the entry is not predefined
    have hnot : ¬ __JS_AtomIsConst P.JS_ATOM_END i := by
      intro hc
      rw [if_pos hc] at hzero
      omega
    rw [if_neg hnot] at hzero
    rw [hnone]
    refine ⟨fun k y hk hy => ?_, fun k hk hy => ?_, fun k hk hlt' => ?_⟩
    · by_cases hki : k = i
      · rw [hki, Function.update_self] at hy
        simp at hy
      · rw [Function.update_of_ne hki] at hy
        rw [Owned.count, hs k hki, ha k hki]
        exact h.count k y hk hy
    · by_cases hki : k = i
      · rw [hki]
        omega
      · rw [Function.update_of_ne hki] at hy
        rw [hs k hki, ha k hki]
        exact h.missing k hk hy
    · have hki : k ≠ i := by
        rintro rfl
        exact hnot ((isConst_iff P hlt).mpr hlt')
      rw [Function.update_of_ne hki]
      exact h.const k hk hlt'
  · have hsome : Atom.unref info i =
        Function.update info i (some { x with ref_count := x.ref_count - 1 }) := by
      simp [Atom.unref, hx, hlast]
    rw [hsome]
    refine h.put (fun k _ hki => Function.update_of_ne hki ..) hs ha (Function.update_self ..) ?_ ?_
    · change x.ref_count - 1 = _
      omega
    · omega

/-- The string is given up. -/
theorem Counted.drop (h : Counted P info o) (hbound : ∀ k, (info k).isSome → k < 2 ^ 31)
    (hv : str.Valid info) (hown : o.Owns str) : Counted P (str.drop info) (o.give str) := by
  cases str with
  | atom a =>
    refine h.unref hv.1 hbound (fun k hk => Function.update_of_ne hk ..) (fun _ _ => rfl) ?_ hv.2
    have hpos := hown.2
    simp only [Owned.give, Owned.freeString, Owned.count, Function.update_self]
    omega
  | _ => exact h

/-- The count of the entry that an atom is. -/
theorem Interned.count (h : Interned P.JS_ATOM_END info str ty i info') (hc : Counted P info o)
    (hbound : ∀ k, (info k).isSome → k < 2 ^ 31) (hv : str.Valid info) (hown : o.Owns str)
    (hi : i ≠ 0) (hlt : i < 2 ^ 31) : ∃ y, info' i = some y ∧ 0 < y.ref_count ∧
      y.ref_count = (o.give str).count P i +
        (if __JS_AtomIsConst P.JS_ATOM_END i then 0 else 1) +
        if info i = none ∧ ¬ __JS_AtomIsConst P.JS_ATOM_END i then (str.count - 1).toNat else 0 := by
  have hd := hc.drop hbound hv hown
  cases h with
  | same x hty hstr hx ht hinfo =>
    -- the string is the entry: its pointer becomes the reference, except where atoms do not count
    subst hstr
    obtain ⟨href, -⟩ := hc.count i x hi hx
    have hgive : o.count P i = (o.give (.atom i)).count P i + 1 := by
      have hpos := hown.2
      simp only [Owned.give, Owned.freeString, Owned.count, Function.update_self]
      omega
    have hcpos : __JS_AtomIsConst P.JS_ATOM_END i → 0 < (o.give (.atom i)).count P i := by
      intro hc
      rw [Owned.count, if_pos hc]
      omega
    refine ⟨{ x with ref_count := x.ref_count - if __JS_AtomIsConst P.JS_ATOM_END i then 1 else 0 },
      by rw [hinfo i hi, Function.update_self], ?_, ?_⟩
    · change 0 < x.ref_count - _
      split
      · next hc =>
        have := hcpos hc
        omega
      · omega
    · have hold : ¬ (info i = none ∧ ¬ __JS_AtomIsConst P.JS_ATOM_END i) := by simp [hx]
      change x.ref_count - _ = _
      rw [if_neg hold, href, hgive]
      split <;> push_cast <;> omega
  | found x s hty hstr hs hx ht hu hinfo =>
    -- the entry is another one: the string is given up and the entry gets a reference
    have hdx : str.drop info i = some x := by rw [StringPtr.drop_of_ne info hstr, hx]
    obtain ⟨href, hpos⟩ := hd.count i x hi hdx
    refine ⟨{ x with ref_count := x.ref_count + if __JS_AtomIsConst P.JS_ATOM_END i then 0 else 1 },
      by rw [hinfo i hi, StringPtr.drop_of_ne _ hstr, Function.update_self], ?_, ?_⟩
    · change 0 < x.ref_count + _
      split <;> omega
    · have hold : ¬ (info i = none ∧ ¬ __JS_AtomIsConst P.JS_ATOM_END i) := by simp [hx]
      change x.ref_count + _ = _
      rw [if_neg hold, href]
      split <;> push_cast <;> omega
  | new x hnone hcount ht hs hinfo =>
    -- the string becomes the entry, with the pointers that there are to it
    obtain ⟨hs₀, ha₀⟩ := hd.missing i hi hnone
    have hnot : ¬ __JS_AtomIsConst P.JS_ATOM_END i := by
      intro hcst
      have hsome := hd.const i hi ((isConst_iff P hlt).mp hcst)
      simp [hnone] at hsome
    have hzero : (o.give str).count P i = 0 := by
      rw [Owned.count, hs₀, if_neg hnot, ha₀]
    have hone : 1 ≤ str.count := by
      cases str with
      | string n s => exact hown
      | _ => exact le_refl _
    -- an entry that was in use is free now: its last pointer was the string that was given up
    have hfresh : info i ≠ none → str.count = 1 := by
      intro hsome
      by_cases he : str = .atom i
      · rw [he]
        rfl
      · rw [StringPtr.drop_of_ne info he] at hnone
        exact absurd hnone hsome
    refine ⟨x, by rw [hinfo i hi, Function.update_self], by omega, ?_⟩
    rw [hzero, if_neg hnot, hcount]
    by_cases hin : info i = none
    · rw [if_pos ⟨hin, hnot⟩]
      push_cast
      omega
    · rw [if_neg fun hc => hin hc.1, hfresh hin]
      rfl

/-- A string has been made into an atom or into a symbol. -/
theorem Interned.counted (h : Interned P.JS_ATOM_END info str ty i info') (hc : Counted P info o)
    (hbound : ∀ k, (info k).isSome → k < 2 ^ 31) (hv : str.Valid info) (hown : o.Owns str)
    (hi : i ≠ 0) (hlt : i < 2 ^ 31)
    (hs : ∀ k, k ≠ i → o'.strings k = (o.give str).strings k)
    (ha : ∀ k, k ≠ i → o'.atoms k = (o.give str).atoms k)
    (hcount : o'.count P i = (o.give str).count P i +
      (if __JS_AtomIsConst P.JS_ATOM_END i then 0 else 1) +
      if info i = none ∧ ¬ __JS_AtomIsConst P.JS_ATOM_END i then (str.count - 1).toNat else 0) :
    Counted P info' o' := by
  obtain ⟨y, hy, hpos, href⟩ := h.count hc hbound hv hown hi hlt
  have heq : y.ref_count = o'.count P i := by
    rw [href, hcount]
    push_cast
    rfl
  exact (hc.drop hbound hv hown).put (fun k hk hki => h.of_ne hk hki) hs ha hy heq (by omega)

theorem Owned.adopt_strings_of_ne (o : Owned) (info : ℕ → Option Info) (p : StringPtr) {k v : ℕ}
    (hk : k ≠ v) : (o.adopt P info p v).strings k = o.strings k := by
  rw [Owned.adopt]
  split
  · exact Function.update_of_ne hk ..
  · rfl

theorem Owned.adopt_atoms (o : Owned) (info : ℕ → Option Info) (p : StringPtr) (v : ℕ) :
    (o.adopt P info p v).atoms = o.atoms := by
  rw [Owned.adopt]
  split <;> rfl

theorem Owned.adopt_count (o : Owned) (info : ℕ → Option Info) (p : StringPtr) (v : ℕ) :
    (o.adopt P info p v).count P v = o.count P v +
      if info v = none ∧ ¬ __JS_AtomIsConst P.JS_ATOM_END v then (p.count - 1).toNat else 0 := by
  by_cases hc : info v = none ∧ ¬ __JS_AtomIsConst P.JS_ATOM_END v
  · rw [Owned.adopt, if_pos hc, if_pos hc]
    simp only [Owned.count, Function.update_self]
    omega
  · rw [Owned.adopt, if_neg hc, if_neg hc, Nat.add_zero]

theorem Owned.freeString_dupString (o : Owned) (a : ℕ) : (o.dupString a).freeString a = o := by
  have hstrings : Function.update (Function.update o.strings a (o.strings a + 1)) a
      (o.strings a + 1 - 1) = o.strings := by
    rw [Function.update_idem, Nat.add_sub_cancel, Function.update_eq_self]
  simp only [Owned.freeString, Owned.dupString, Function.update_self, hstrings]

theorem Owned.dupAtom_strings (o : Owned) (v : ℕ) : (o.dupAtom P v).strings = o.strings := by
  rw [Owned.dupAtom]
  split <;> rfl

theorem Owned.dupAtom_atoms_of_ne (o : Owned) {k v : ℕ} (hk : k ≠ v) :
    (o.dupAtom P v).atoms k = o.atoms k := by
  rw [Owned.dupAtom]
  split
  · rfl
  · exact Function.update_of_ne hk ..

theorem Owned.dupAtom_count (o : Owned) (v : ℕ) : (o.dupAtom P v).count P v =
    o.count P v + if __JS_AtomIsConst P.JS_ATOM_END v then 0 else 1 := by
  by_cases hc : __JS_AtomIsConst P.JS_ATOM_END v
  · rw [Owned.dupAtom, if_pos hc, if_pos hc, Nat.add_zero]
  · rw [Owned.dupAtom, if_neg hc, if_neg hc]
    simp only [Owned.count, if_neg hc, Function.update_self]
    omega

theorem Interned.named (h : Interned P.JS_ATOM_END info str ty i info') (hc : Counted P info o)
    (hbound : ∀ k, (info k).isSome → k < 2 ^ 31) (hv : str.Valid info) (hown : o.Owns str)
    (hi : i ≠ 0) (hlt : i < 2 ^ 31) : Counted P info' (o.named P info str i) := by
  refine h.counted hc hbound hv hown hi hlt (fun k hk => ?_) (fun k hk => ?_) ?_
  · rw [Owned.named, Owned.dupAtom_strings, Owned.adopt_strings_of_ne _ info str hk]
  · rw [Owned.named, Owned.dupAtom_atoms_of_ne _ hk, Owned.adopt_atoms]
  · rw [Owned.named, Owned.dupAtom_count, Owned.adopt_count]
    omega

theorem Interned.symbol (h : Interned P.JS_ATOM_END info str ty i info') (hc : Counted P info o)
    (hbound : ∀ k, (info k).isSome → k < 2 ^ 31) (hv : str.Valid info) (hown : o.Owns str)
    (hi : i ≠ 0) (hlt : i < 2 ^ 31) (hnot : ¬ __JS_AtomIsConst P.JS_ATOM_END i) :
    Counted P info' (o.symbol P info str i) := by
  refine h.counted hc hbound hv hown hi hlt (fun k hk => ?_) (fun k _ => ?_) ?_
  · exact (Function.update_of_ne hk ..).trans (Owned.adopt_strings_of_ne _ info str hk)
  · rw [Owned.symbol, Owned.dupString, Owned.adopt_atoms]
  · rw [if_neg hnot, ← Nat.add_right_comm, ← Owned.adopt_count]
    simp only [Owned.symbol, Owned.dupString, Owned.count, Function.update_self]
    omega

end Counts

/-! ## What an operation keeps -/

/-- The entry is the same string or symbol as before. -/
def Kept (info info' : ℕ → Option Info) (k : ℕ) : Prop :=
  ∃ x y, info k = some x ∧ info' k = some y ∧ y.atom_type = x.atom_type ∧ y.str = x.str

/-- An entry of a table is an old one, or a new one that is not predefined and not the text of
a number. -/
def Origin (P : Predefined) (info info' : ℕ → Option Info) : Prop :=
  ∀ k y, k ≠ 0 → info' k = some y → Kept info info' k ∨ P.JS_ATOM_END ≤ k ∧
    ∀ n, n ≤ JS_ATOM_MAX_INT → y.atom_type = .STRING → y.str.units ≠ widen (decimal n)

section Steps

variable {P : Predefined} {rt rt' : JSRuntime} {info info' : ℕ → Option Info} {o o' : Owned}
  {a i k v : ℕ} {p : JSAtomStruct} {str : StringPtr} {ty : JSAtomType}

theorem Kept.key (h : Kept info info' k) : Atom.key info' k = Atom.key info k := by
  obtain ⟨x, y, hx, hy, ht, hs⟩ := h
  rw [Atom.key, Atom.key, hx, hy, Option.map_some, Option.map_some, Info.key, Info.key, ht, hs]

theorem Kept.refl (h : (info k).isSome) (hinfo : info' k = info k) : Kept info info' k := by
  obtain ⟨x, hx⟩ := Option.isSome_iff_exists.mp h
  exact ⟨x, x, hx, hinfo.trans hx, rfl, rfl⟩

theorem Kept.trans {info'' : ℕ → Option Info} (h : Kept info info' k) (h' : Kept info' info'' k) :
    Kept info info'' k := by
  obtain ⟨x, y, hx, hy, ht, hs⟩ := h
  obtain ⟨y', z, hy', hz, ht', hs'⟩ := h'
  obtain rfl := Option.some.inj (hy.symm.trans hy')
  exact ⟨x, z, hx, hz, ht'.trans ht, hs'.trans hs⟩

theorem kept_of_drop (hinfo : info' k = str.drop info k) (h : (info' k).isSome) :
    Kept info info' k := by
  obtain ⟨y, hy⟩ := Option.isSome_iff_exists.mp h
  obtain ⟨x, hx, ht, hs⟩ := drop_text info str k y (hinfo ▸ hy)
  exact ⟨x, y, hx, hy, ht.symm, hs.symm⟩

/-- Making an atom keeps what is not given up for it. -/
theorem Interned.kept (h : Interned P.JS_ATOM_END info str ty i info') (hk : k ≠ 0)
    (hd : (str.drop info k).isSome) : Kept info info' k := by
  by_cases hki : k = i
  · subst hki
    cases h with
    | same x hty hstr hx ht hinfo =>
      exact ⟨x, _, hx, (hinfo k hk).trans (Function.update_self ..), rfl, rfl⟩
    | found x s hty hstr hs hx ht hu hinfo =>
      have hdrop := (hinfo k hk).trans (StringPtr.drop_of_ne _ hstr)
      exact ⟨x, _, hx, hdrop.trans (Function.update_self ..), rfl, rfl⟩
    | new x hnone hc ht hs hinfo => simp [hnone] at hd
  · have hinfo := h.of_ne hk hki
    exact kept_of_drop hinfo (hinfo ▸ hd)

theorem Settled.bound (h : Settled P rt o) (k : ℕ) (hk : (rt.info k).isSome) : k < 2 ^ 31 :=
  h.wf.lt_two_pow k hk

/-- The invariant holds again if the counts are right. -/
theorem Settled.next (h : Settled P rt o) (hwf : WF rt') (hc : Counted P rt'.info o')
    (horigin : Origin P rt.info rt'.info) : Settled P rt' o' where
  wf := hwf
  counted := hc
  canonical := by
    intro k y n hy ht hn
    by_cases hk : k = 0
    · subst hk
      have hs := hwf.entries.zero y hy
      simp [hs] at ht
    · rcases horigin k y hk hy with ⟨x, y', hx, hy', hxt, hxs⟩ | ⟨-, hnew⟩
      · obtain rfl := Option.some.inj (hy.symm.trans hy')
        rw [hxs]
        exact h.canonical k x n hx (hxt ▸ ht) hn
      · exact hnew n hn ht
  registry := by
    intro k y hlt hy
    by_cases hk : k = 0
    · subst hk
      rw [hwf.entries.zero y hy]
      decide
    · rcases horigin k y hk hy with ⟨x, y', hx, hy', hxt, -⟩ | ⟨hge, -⟩
      · obtain rfl := Option.some.inj (hy.symm.trans hy')
        rw [hxt]
        exact h.registry k x hlt hx
      · omega

theorem Settled.has (h : Settled P rt o) (hi : o.Has P i) :
    ∃ p, rt.atom i = some p := by
  obtain ⟨x, hx⟩ := Option.isSome_iff_exists.mp (h.counted.isSome hi)
  obtain ⟨p, hp, -⟩ := JSRuntime.exists_atom hx
  exact ⟨p, hp⟩

/-- One more reference to an entry. -/
theorem Settled.add_ref (h : Settled P rt o) (ha : o.Has P a)
    (hs : ∀ k, k ≠ a → o'.strings k = o.strings k) (hat : ∀ k, k ≠ a → o'.atoms k = o.atoms k)
    (hcount : o'.count P a = o.count P a + 1) :
    ∃ rt', rt.add_ref a 1 = some rt' ∧ Steady rt rt' ∧ Settled P rt' o' ∧
      ∀ k, (rt.info k).isSome → Kept rt.info rt'.info k := by
  obtain ⟨p, hp⟩ := h.has ha
  have hx := rt.info_eq hp
  obtain ⟨rt', hrun, hst, hinfo⟩ := add_ref_spec h.wf hp 1
  have hkept : ∀ k, (rt.info k).isSome → Kept rt.info rt'.info k := by
    intro k hk
    by_cases hka : k = a
    · subst hka
      exact ⟨p.info, _, hx, (congrFun hinfo k).trans (Function.update_self ..), rfl, rfl⟩
    · exact .refl hk (by rw [hinfo, Function.update_of_ne hka])
  refine ⟨rt', hrun, hst, h.next hst.wf ?_ fun k y _ hy => .inl (hkept k ?_), hkept⟩
  · obtain ⟨href, -⟩ := h.counted.count a _ ha.1 hx
    refine h.counted.put (fun k _ hka => by rw [hinfo, Function.update_of_ne hka]) hs hat
      (by rw [hinfo, Function.update_self]) ?_ (by omega)
    change p.info.ref_count + 1 = _
    rw [href, hcount]
    push_cast
    rfl
  · by_cases hka : k = a
    · rw [hka, hx]
      rfl
    · rw [hinfo, Function.update_of_ne hka] at hy
      simp [hy]

/-- A reference less. -/
theorem Settled.free (h : Settled P rt o) (ha : o.Has P a)
    (hs : ∀ k, k ≠ a → o'.strings k = o.strings k) (hat : ∀ k, k ≠ a → o'.atoms k = o.atoms k)
    (hcount : o.count P a = o'.count P a + 1) :
    ∃ rt', __JS_FreeAtom rt a = some rt' ∧ Settled P rt' o' ∧
      ∀ k, o'.Has P k → Kept rt.info rt'.info k := by
  obtain ⟨p, hp⟩ := h.has ha
  obtain ⟨rt', hrun, hst, hinfo⟩ := @js_free_string_spec rt (.atom a) h.wf
    ⟨ha.1, by simp [rt.info_eq hp]⟩
  have hc : Counted P rt'.info o' := by
    rw [hinfo]
    exact h.counted.unref ha.1 h.bound hs hat hcount (by simp [rt.info_eq hp])
  refine ⟨rt', hrun, h.next hst.wf hc fun k y _ hy => .inl (kept_of_drop (congrFun hinfo k) ?_),
    fun k hk => kept_of_drop (congrFun hinfo k) (hc.isSome hk)⟩
  simp [hy]

theorem Settled.origin_of_interned (h : Settled P rt o)
    (hint : Interned P.JS_ATOM_END rt.info str ty i rt'.info) (hv : str.Valid rt.info)
    (hown : o.Owns str) (hnum : ty = .STRING → ∃ s, str.text rt.info = some s ∧
      ∀ n, n ≤ JS_ATOM_MAX_INT → s.units ≠ widen (decimal n)) : Origin P rt.info rt'.info := by
  have hd := h.counted.drop h.bound hv hown
  intro k y hk hy
  by_cases hki : k = i
  · subst hki
    cases hint with
    | same x hty hstr hx ht hinfo =>
      exact .inl ⟨x, _, hx, (hinfo k hk).trans (Function.update_self ..), rfl, rfl⟩
    | found x s hty hstr hs hx ht hu hinfo =>
      have hdrop := (hinfo k hk).trans (StringPtr.drop_of_ne _ hstr)
      exact .inl ⟨x, _, hx, hdrop.trans (Function.update_self ..), rfl, rfl⟩
    | new x hnone hc ht hs hinfo =>
      obtain rfl := Option.some.inj (((hinfo k hk).trans (Function.update_self ..)).symm.trans hy)
      refine .inr ⟨?_, fun n hn hxt => ?_⟩
      · -- predefined entries are never free
        by_contra hlt
        have hsome := hd.const k hk (by omega)
        simp [hnone] at hsome
      · have hstr : ty = .STRING := by
          rw [ht] at hxt
          split at hxt
          · simp at hxt
          · exact hxt
        obtain ⟨s, htext, hne⟩ := hnum hstr
        rw [hs, htext]
        exact hne n hn
  · exact .inl (kept_of_drop (hint.of_ne hk hki) (by simp [hy]))

/-- What is not given up is kept. -/
theorem Settled.kept_of_interned (h : Settled P rt o)
    (hint : Interned P.JS_ATOM_END rt.info str ty i rt'.info) (hv : str.Valid rt.info)
    (hown : o.Owns str) (hk : (o.give str).Has P k) : Kept rt.info rt'.info k :=
  hint.kept hk.1 ((h.counted.drop h.bound hv hown).isSome hk)

theorem isConst_fromUInt32 (P : Predefined) {n : ℕ} (hn : n ≤ JS_ATOM_MAX_INT) :
    __JS_AtomIsConst P.JS_ATOM_END (__JS_AtomFromUInt32 n) := by
  have hmask : JS_ATOM_MAX_INT = 2 ^ 31 - 1 := rfl
  rw [hmask] at hn
  rw [__JS_AtomIsConst, fromUInt32_eq hn, cInt, Int.bmod_def]
  split <;> omega

/-- There are no other pointers. -/
theorem Owned.adopt_eq (o : Owned) (info : ℕ → Option Info) (hp : str.count = 1) (v : ℕ) :
    o.adopt P info str v = o := by
  rw [Owned.adopt, hp]
  split
  · have hsame : Function.update o.strings v (o.strings v + 0) = o.strings :=
      Function.update_eq_self ..
    exact congrArg (Owned.mk o.atoms) hsame
  · rfl

/-- A string has been made into an atom. -/
theorem Settled.named (h : Settled P rt o) (hwf : WF rt')
    (hn : Named P.JS_ATOM_END rt.info str v rt'.info) (hv : str.Valid rt.info) (hown : o.Owns str) :
    Settled P rt' (o.named P rt.info str v) ∧
      ∀ k, (o.give str).Has P k → Kept rt.info rt'.info k := by
  have hd := h.counted.drop h.bound hv hown
  cases hn with
  | number n s hs hle hu hvn hinfo =>
    subst hvn
    have hconst := isConst_fromUInt32 P hle
    have hgive : o.named P rt.info str (__JS_AtomFromUInt32 n) = o.give str := by
      rw [Owned.named, Owned.dupAtom, if_pos hconst, Owned.adopt, if_neg fun hc => hc.2 hconst]
    rw [hgive]
    have hkept : ∀ k, k ≠ 0 → (rt'.info k).isSome → Kept rt.info rt'.info k := fun k hk hsome =>
      kept_of_drop (hinfo k hk) hsome
    refine ⟨h.next hwf (hd.congr hinfo) fun k y hk hy => .inl (hkept k hk (by simp [hy])),
      fun k hk => hkept k hk.1 ((hd.congr hinfo).isSome hk)⟩
  | entry s hs hnum hne hint =>
    obtain ⟨x, hx, -⟩ := hint.entry hne hs
    have hc := hint.named h.counted h.bound hv hown hne (hwf.lt_two_pow v (by simp [hx]))
    exact ⟨h.next hwf hc (h.origin_of_interned hint hv hown fun _ => ⟨s, hs, hnum⟩),
      fun k hk => h.kept_of_interned hint hv hown hk⟩

/-- A string, or nothing, has been made into a symbol. -/
theorem Settled.symbol (h : Settled P rt o) (hwf : WF rt') (hty : ty ≠ .STRING)
    (hint : Interned P.JS_ATOM_END rt.info str ty i rt'.info) (hi : i ≠ 0) (hv : str.Valid rt.info)
    (hown : o.Owns str) :
    Settled P rt' (o.symbol P rt.info str i) ∧
      ∀ k, (o.give str).Has P k → Kept rt.info rt'.info k := by
  have hd := h.counted.drop h.bound hv hown
  obtain ⟨y, hy⟩ : ∃ y, rt'.info i = some y := by
    cases hint with
    | same x hty hstr hx ht hinfo => exact ⟨_, (hinfo i hi).trans (Function.update_self ..)⟩
    | found x s hty hstr hs hx ht hu hinfo =>
      have hdrop := (hinfo i hi).trans (StringPtr.drop_of_ne _ hstr)
      exact ⟨_, hdrop.trans (Function.update_self ..)⟩
    | new x hnone hc ht hs hinfo => exact ⟨_, (hinfo i hi).trans (Function.update_self ..)⟩
  have hlt := hwf.lt_two_pow i (by simp [hy])
  -- A predefined symbol is not one of the registry, so it is not found.
  have hnot : ¬ __JS_AtomIsConst P.JS_ATOM_END i := by
    rw [isConst_iff P hlt]
    intro hconst
    cases hint with
    | same x hty' hstr hx ht hinfo =>
      exact h.registry i x hconst hx (ht.trans (hty'.resolve_left hty))
    | found x s hty' hstr hs hx ht hu hinfo =>
      exact h.registry i x hconst hx (ht.trans (hty'.resolve_left hty))
    | new x hnone hc ht hs hinfo =>
      have hsome := hd.const i hi hconst
      simp [hnone] at hsome
  have hc := hint.symbol h.counted h.bound hv hown hi hlt hnot
  exact ⟨h.next hwf hc (h.origin_of_interned hint hv hown fun he => absurd he hty),
    fun k hk => h.kept_of_interned hint hv hown hk⟩

theorem Settled.valid (h : Settled P rt o) (hown : o.Owns str) : str.Valid rt.info := by
  cases str with
  | atom a =>
    refine ⟨hown.1, ?_⟩
    by_contra hnone
    rw [Option.not_isSome_iff_eq_none] at hnone
    have hzero := (h.counted.missing a hown.1 hnone).1
    have hpos := hown.2
    omega
  | _ => trivial

end Steps

end QuickJSSwift.Atom
