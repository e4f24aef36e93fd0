/-
What C code does with atoms.

Each function of the table is an operation, with what C code has to own before it, what it
gives up and what it owns after it. An operation that keeps the rules succeeds, leaves the
counts right, keeps what is not given up, and gives an atom that stands for what was asked
for; that is one statement for all of them.
-/
import QuickJSSwift.AtomCounts

set_option autoImplicit false
set_option linter.style.nameCheck false

namespace QuickJSSwift.Atom

open Text

/-! ## Operations -/

/-- An operation on the table. -/
inductive Op
  | newAtomStr (p : StringPtr)
  | newAtomLen (str : List UInt8)
  | newAtomUInt32 (n : ℕ)
  | newAtomInt64 (n : ℤ)
  | newSymbol (p : StringPtr) (atom_type : JSAtomType)
  | newSymbolFromAtom (descr : ℕ) (atom_type : JSAtomType)
  | dupAtom (v : ℕ)
  | freeAtom (v : ℕ)
  | atomToValue (v : ℕ) (force_string : Bool)
  | dupValue (a : ℕ)
  | freeValue (a : ℕ)
  | symbolToAtom (a : ℕ)

/-- The entry that a value is a pointer to. -/
def AtomValue.entry : Option AtomValue → ℕ
  | some (.string a) => a
  | some (.symbol a) => a
  | _ => 0

namespace Op

variable (P : Predefined)

/-- The operation, with the atom or the entry that it gives. -/
def run (op : Op) (rt : JSRuntime) : Option (ℕ × JSRuntime) :=
  match op with
  | newAtomStr p => JS_NewAtomStr P.JS_ATOM_END rt p
  | newAtomLen str => JS_NewAtomLen P.JS_ATOM_END rt str
  | newAtomUInt32 n => JS_NewAtomUInt32 P.JS_ATOM_END rt n
  | newAtomInt64 n => JS_NewAtomInt64 P.JS_ATOM_END rt n
  | newSymbol p atom_type => JS_NewSymbol P.JS_ATOM_END rt p atom_type
  | newSymbolFromAtom descr atom_type => JS_NewSymbolFromAtom P.JS_ATOM_END rt descr atom_type
  | dupAtom v => (JS_DupAtom P.JS_ATOM_END rt v).map (v, ·)
  | freeAtom v => (JS_FreeAtom P.JS_ATOM_END rt v).map (0, ·)
  | atomToValue v force_string =>
    (__JS_AtomToValue P.JS_ATOM_empty_string rt v force_string).map fun (val, rt) =>
      (AtomValue.entry val, rt)
  | dupValue a => (rt.add_ref a 1).map (a, ·)
  | freeValue a => (__JS_FreeAtom rt a).map (0, ·)
  | symbolToAtom a => (js_symbol_to_atom rt a).map (·, rt)

/-- What C code has given up before the operation makes anything. -/
def gives (op : Op) (o : Owned) : Owned :=
  match op with
  | newAtomStr p => o.give p
  | newSymbol p _ => o.give p
  | freeAtom v => o.freeAtom P v
  | freeValue a => o.freeString a
  | _ => o

/-- What C code owns after the operation. A symbol that is predefined is never given up again
once it has been made into an atom. -/
def held (op : Op) (rt : JSRuntime) (r : ℕ) (o : Owned) : Owned :=
  match op with
  | newAtomStr p => o.named P rt.info p r
  | newAtomLen _ => o.dupAtom P r
  | newAtomUInt32 _ => o.dupAtom P r
  | newAtomInt64 _ => o.dupAtom P r
  | newSymbol p _ => o.symbol P rt.info p r
  | newSymbolFromAtom descr _ => (o.dupString descr).symbol P rt.info (.atom descr) r
  | dupAtom v => o.dupAtom P v
  | freeAtom v => o.freeAtom P v
  | atomToValue _ _ => if r = 0 then o else o.dupString r
  | dupValue a => o.dupString a
  | freeValue a => o.freeString a
  | symbolToAtom a =>
    if __JS_AtomIsConst P.JS_ATOM_END a then o else (o.freeString a).dupAtom P a

/-- The operation may need a new entry. -/
def makes : Op → Bool
  | newAtomStr _ | newAtomLen _ | newAtomUInt32 _ | newAtomInt64 _ | newSymbol _ _
  | newSymbolFromAtom _ _ => true
  | _ => false

/-- The rules for C code. -/
def Ruled (op : Op) (o : Owned) : Prop :=
  match op with
  | newAtomStr p => p ≠ .null ∧ o.Owns p
  | newAtomLen _ => True
  | newAtomUInt32 n => n < 2 ^ 32
  | newAtomInt64 n => -2 ^ 63 ≤ n ∧ n < 2 ^ 63
  | newSymbol p atom_type =>
    atom_type ≠ .STRING ∧ (p = .null → atom_type ≠ .GLOBAL_SYMBOL) ∧ o.Owns p
  | newSymbolFromAtom descr atom_type => atom_type ≠ .STRING ∧ o.Has P descr
  | dupAtom v => v < 2 ^ 32 ∧ (__JS_AtomIsConst P.JS_ATOM_END v ∨ 0 < o.atoms v)
  | freeAtom v => __JS_AtomIsConst P.JS_ATOM_END v ∨ 0 < o.atoms v
  | atomToValue v _ => __JS_AtomIsTaggedInt v ∨ o.Has P v
  | dupValue a => o.Has P a
  | freeValue a => a ≠ 0 ∧ 0 < o.strings a
  | symbolToAtom a => a ≠ 0 ∧ 0 < o.strings a

/-- The rules, and there is room. -/
def Allowed (op : Op) (rt : JSRuntime) (o : Owned) : Prop :=
  (op.makes = true → HasRoom rt) ∧ op.Ruled P o

/-- The key that is asked for. -/
def key (op : Op) (rt : JSRuntime) : Option Key :=
  match op with
  | newAtomStr p => (p.text rt.info).map fun s => .string s.units
  | newAtomLen str => (Text.JS_NewAtomLen (interned rt) str).map .string
  | newAtomUInt32 n => some (.string (widen (decimal n)))
  | newAtomInt64 n => some (.string (widen (signedDecimal n)))
  | newSymbol p .GLOBAL_SYMBOL => (p.text rt.info).map fun s => .registered s.units
  | dupAtom v => Atom.key rt.info v
  | symbolToAtom a => Atom.key rt.info a
  | _ => none

end Op

section Ops

variable {P : Predefined} {rt : JSRuntime} {o : Owned} {op : Op} {a v k : ℕ} {str : StringPtr}

/-- What an operation does. -/
structure Done (P : Predefined) (op : Op) (rt : JSRuntime) (o : Owned) (r : ℕ) (rt' : JSRuntime) :
    Prop where
  run : op.run P rt = some (r, rt')
  settled : Settled P rt' (op.held P rt r o)
  kept : ∀ k, (op.gives P o).Has P k → Kept rt.info rt'.info k
  key : ∀ k, op.key rt = some k → Atom.key rt'.info r = some k ∧ r < 2 ^ 32

/-- What is owned as an atom or as a string is in use. -/
theorem Settled.has_of_owned (h : Settled P rt o) (ha : a ≠ 0) (hpos : 0 < o.strings a ∨ 0 < o.atoms a)
    (hnot : 0 < o.strings a ∨ ¬ __JS_AtomIsConst P.JS_ATOM_END a) : o.Has P a := by
  have hsome : (rt.info a).isSome := by
    by_contra hnone
    rw [Option.not_isSome_iff_eq_none] at hnone
    have hzero := h.counted.missing a ha hnone
    omega
  refine ⟨ha, h.bound a hsome, ?_⟩
  rw [Owned.count]
  rcases hnot with hs | hc
  · omega
  · rw [if_neg hc]
    omega

theorem Settled.has_const (h : Settled P rt o) (ha : a ≠ 0) (hlt : a < P.JS_ATOM_END) : o.Has P a := by
  have hb := h.bound a (h.counted.const a ha hlt)
  refine ⟨ha, hb, ?_⟩
  rw [Owned.count, if_pos ((isConst_iff P hb).mpr hlt)]
  omega

theorem isConst_zero (P : Predefined) : __JS_AtomIsConst P.JS_ATOM_END 0 :=
  (isConst_iff P (by omega)).mpr (Nat.lt_of_le_of_lt (Nat.zero_le _) P.lt)

/-- What is kept where nothing is given up. -/
theorem Settled.kept_refl (h : Settled P rt o) (hk : o.Has P k) : Kept rt.info rt.info k :=
  .refl (h.counted.isSome hk) rfl

theorem Steady.hasRoom {rt' : JSRuntime} (h : Steady rt rt') (hroom : HasRoom rt) : HasRoom rt' := by
  rcases hroom with hfree | hg
  · exact .inl (h.free hfree)
  · refine .inr ?_
    rw [Growable, h.atom_size]
    exact hg

theorem done_newAtomStr (h : Settled P rt o) (hroom : HasRoom rt) (hnull : str ≠ .null)
    (hown : o.Owns str) : ∃ r rt', Done P (.newAtomStr str) rt o r rt' := by
  have hv := h.valid hown
  obtain ⟨r, rt', hrun, hwf, hn⟩ := JS_NewAtomStr_spec P.JS_ATOM_END h.wf hroom hv hnull
  obtain ⟨hs, hkept⟩ := h.named hwf hn hv hown
  refine ⟨r, rt', hrun, hs, hkept, fun k hk => ?_⟩
  obtain ⟨s, hs, rfl⟩ := Option.map_eq_some_iff.mp hk
  exact hn.key hwf.lt_two_pow hs

/-- A new string that has no other pointers is made into an atom. -/
theorem Settled.named_string {rt' : JSRuntime} {s : JSString} (h : Settled P rt o) (hwf : WF rt')
    (hn : Named P.JS_ATOM_END rt.info (.string 1 s) v rt'.info) :
    Settled P rt' (o.dupAtom P v) ∧ ∀ k, o.Has P k → Kept rt.info rt'.info k := by
  obtain ⟨hs, hkept⟩ := h.named hwf hn trivial (le_refl (1 : ℤ))
  have hgive : o.give (.string 1 s) = o := rfl
  rw [Owned.named, hgive, Owned.adopt_eq o rt.info rfl] at hs
  exact ⟨hs, hkept⟩

/-- One more pointer to an entry. -/
theorem Settled.dupString (h : Settled P rt o) (ha : o.Has P a) :
    ∃ rt', rt.add_ref a 1 = some rt' ∧ Steady rt rt' ∧ Settled P rt' (o.dupString a) ∧
      ∀ k, (rt.info k).isSome → Kept rt.info rt'.info k := by
  refine h.add_ref ha (fun k hk => Function.update_of_ne hk ..) (fun _ _ => rfl) ?_
  simp only [Owned.dupString, Owned.count, Function.update_self]
  omega

theorem done_newAtomLen (h : Settled P rt o) (hroom : HasRoom rt) (u : List UInt8) :
    ∃ r rt', Done P (.newAtomLen u) rt o r rt' := by
  obtain ⟨r, rt', hrun, hwf, ⟨hnone, hr, rfl⟩ | ⟨s, hs, hn⟩⟩ :=
    JS_NewAtomLen_spec P.JS_ATOM_END h.wf hroom u
  · -- refused bytes: the result is `JS_ATOM_NULL`, which is not counted
    subst hr
    refine ⟨_, rt', hrun, ?_, fun k hk => h.kept_refl hk, fun k hk => ?_⟩
    · have hzero : o.dupAtom P JS_ATOM_NULL = o := if_pos (isConst_zero P)
      rw [Op.held, hzero]
      exact h
    · simp [Op.key, hnone] at hk
  · obtain ⟨hset, hkept⟩ := h.named_string hwf hn
    refine ⟨r, rt', hrun, hset, hkept, fun k hk => ?_⟩
    rw [Op.key, hs] at hk
    rw [← hk]
    exact hn.key hwf.lt_two_pow rfl

theorem done_newAtomUInt32 (h : Settled P rt o) (hroom : HasRoom rt) {n : ℕ} (hn : n < 2 ^ 32) :
    ∃ r rt', Done P (.newAtomUInt32 n) rt o r rt' := by
  obtain ⟨r, rt', hrun, hwf, hn⟩ := JS_NewAtomUInt32_spec P.JS_ATOM_END h.wf hroom hn
  obtain ⟨hset, hkept⟩ := h.named_string hwf hn
  refine ⟨r, rt', hrun, hset, hkept, fun k hk => ?_⟩
  rw [← hk]
  exact hn.key hwf.lt_two_pow rfl

theorem done_newAtomInt64 (h : Settled P rt o) (hroom : HasRoom rt) {n : ℤ} (hlo : -2 ^ 63 ≤ n)
    (hhi : n < 2 ^ 63) : ∃ r rt', Done P (.newAtomInt64 n) rt o r rt' := by
  obtain ⟨r, rt', hrun, hwf, hn⟩ := JS_NewAtomInt64_spec P.JS_ATOM_END h.wf hroom hlo hhi
  obtain ⟨hset, hkept⟩ := h.named_string hwf hn
  refine ⟨r, rt', hrun, hset, hkept, fun k hk => ?_⟩
  rw [← hk]
  exact hn.key hwf.lt_two_pow rfl

theorem done_newSymbol (h : Settled P rt o) (hroom : HasRoom rt) {ty : JSAtomType}
    (hty : ty ≠ .STRING) (hnull : str = .null → ty ≠ .GLOBAL_SYMBOL) (hown : o.Owns str) :
    ∃ r rt', Done P (.newSymbol str ty) rt o r rt' := by
  have hv := h.valid hown
  obtain ⟨r, rt', hrun, hr, hwf, hint⟩ := __JS_NewAtom_spec P.JS_ATOM_END h.wf hroom hv
    fun hc he => hnull he (hc.resolve_left hty)
  obtain ⟨hset, hkept⟩ := h.symbol hwf hty hint hr hv hown
  refine ⟨r, rt', hrun, hset, hkept, fun k hk => ?_⟩
  -- only the symbols of the registry have a key that can be asked for
  cases ty with
  | GLOBAL_SYMBOL =>
    obtain ⟨s, hs, rfl⟩ := Option.map_eq_some_iff.mp hk
    obtain ⟨x, hx, ht, hu⟩ := hint.entry hr hs
    have hglobal : x.atom_type = .GLOBAL_SYMBOL := by
      rcases ht with ht | ⟨ht, -⟩
      · exact ht
      · simp at ht
    have hlt := hwf.lt_two_pow r (by simp [hx])
    rw [key_entry hlt, hx, Option.map_some, Info.key, hglobal]
    exact ⟨by simp only [hu], by omega⟩
  | _ => simp [Op.key] at hk

theorem done_newSymbolFromAtom (h : Settled P rt o) (hroom : HasRoom rt) {ty : JSAtomType}
    (hty : ty ≠ .STRING) (ha : o.Has P a) :
    ∃ r rt', Done P (.newSymbolFromAtom a ty) rt o r rt' := by
  obtain ⟨rt₁, hrun₁, hst, h₁, hkept₁⟩ := h.dupString ha
  have hown : (o.dupString a).Owns (.atom a) := ⟨ha.1, by simp [Owned.dupString]⟩
  obtain ⟨r, rt', hrun, hset, hkept, -⟩ := done_newSymbol h₁ (hst.hasRoom hroom) hty (by simp) hown
  obtain ⟨p, hp⟩ := h.has ha
  have hlt := JSRuntime.lt_of_info h.wf (rt.info_eq hp)
  -- the pointer that was added for the call is the one that the call gives up
  have hback : (o.dupString a).give (.atom a) = o := o.freeString_dupString a
  refine ⟨r, rt', ?_, ?_, fun k hk => ?_, fun k hk => by simp [Op.key] at hk⟩
  · have htag : ¬ __JS_AtomIsTaggedInt a := not_isTaggedInt ha.2.1
    have hrun' : JS_NewSymbol P.JS_ATOM_END rt₁ (.atom a) ty = some (r, rt') := hrun
    simp [Op.run, JS_NewSymbolFromAtom, htag, hlt, guard, hrun₁, hrun']
  · have hone : (StringPtr.atom a).count = 1 := rfl
    rw [Op.held, Owned.symbol, hback, Owned.adopt_eq o rt₁.info hone] at hset
    rw [Op.held, Owned.symbol, hback, Owned.adopt_eq o rt.info hone]
    exact hset
  · have hk₁ := hkept₁ k (h.counted.isSome hk)
    refine hk₁.trans (hkept k ?_)
    change ((o.dupString a).give (.atom a)).Has P k
    rw [hback]
    exact hk

/-- An atom that is not counted, or one that is owned. -/
theorem Settled.has_of_atom (h : Settled P rt o) (hc : ¬ __JS_AtomIsConst P.JS_ATOM_END v)
    (hv : __JS_AtomIsConst P.JS_ATOM_END v ∨ 0 < o.atoms v) : o.Has P v := by
  have hne : v ≠ 0 := by
    rintro rfl
    exact hc (isConst_zero P)
  exact h.has_of_owned hne (.inr (hv.resolve_left hc)) (.inr hc)

theorem done_dupAtom (h : Settled P rt o) (hlt : v < 2 ^ 32)
    (hv : __JS_AtomIsConst P.JS_ATOM_END v ∨ 0 < o.atoms v) :
    ∃ r rt', Done P (.dupAtom v) rt o r rt' := by
  by_cases hc : __JS_AtomIsConst P.JS_ATOM_END v
  · refine ⟨v, rt, ?_, ?_, fun k hk => h.kept_refl hk, fun k hk => ⟨hk, hlt⟩⟩
    · rw [Op.run, JS_DupAtom, if_pos hc]
      rfl
    · rw [Op.held, Owned.dupAtom, if_pos hc]
      exact h
  · have ha := h.has_of_atom hc hv
    obtain ⟨rt', hrun, -, hset, hkept⟩ : ∃ rt', rt.add_ref v 1 = some rt' ∧ Steady rt rt' ∧
        Settled P rt' (o.dupAtom P v) ∧ ∀ k, (rt.info k).isSome → Kept rt.info rt'.info k := by
      refine h.add_ref ha (fun k _ => by rw [Owned.dupAtom_strings])
        (fun k hk => Owned.dupAtom_atoms_of_ne o hk) ?_
      rw [Owned.dupAtom_count, if_neg hc]
    refine ⟨v, rt', ?_, hset, fun k hk => hkept k (h.counted.isSome hk), fun k hk => ?_⟩
    · rw [Op.run, JS_DupAtom, if_neg hc, hrun]
      rfl
    · rw [(hkept v (h.counted.isSome ha)).key]
      exact ⟨hk, hlt⟩

theorem done_freeAtom (h : Settled P rt o)
    (hv : __JS_AtomIsConst P.JS_ATOM_END v ∨ 0 < o.atoms v) :
    ∃ r rt', Done P (.freeAtom v) rt o r rt' := by
  by_cases hc : __JS_AtomIsConst P.JS_ATOM_END v
  · have hsame : o.freeAtom P v = o := if_pos hc
    refine ⟨0, rt, ?_, ?_, fun k hk => h.kept_refl ?_, fun k hk => by simp [Op.key] at hk⟩
    · rw [Op.run, JS_FreeAtom, if_pos hc]
      rfl
    · rw [Op.held, hsame]
      exact h
    · rwa [Op.gives, hsame] at hk
  · have ha := h.has_of_atom hc hv
    obtain ⟨rt', hrun, hset, hkept⟩ : ∃ rt', __JS_FreeAtom rt v = some rt' ∧
        Settled P rt' (o.freeAtom P v) ∧ ∀ k, (o.freeAtom P v).Has P k → Kept rt.info rt'.info k := by
      have hpos := hv.resolve_left hc
      have hfree : o.freeAtom P v =
          { o with atoms := Function.update o.atoms v (o.atoms v - 1) } := if_neg hc
      rw [hfree]
      refine h.free ha (fun _ _ => rfl) (fun k hk => Function.update_of_ne hk ..) ?_
      simp only [Owned.count, if_neg hc, Function.update_self]
      omega
    refine ⟨0, rt', ?_, hset, hkept, fun k hk => by simp [Op.key] at hk⟩
    rw [Op.run, JS_FreeAtom, if_neg hc, hrun]
    rfl

theorem done_dupValue (h : Settled P rt o) (ha : o.Has P a) :
    ∃ r rt', Done P (.dupValue a) rt o r rt' := by
  obtain ⟨rt', hrun, -, hset, hkept⟩ := h.dupString ha
  refine ⟨a, rt', ?_, hset, fun k hk => hkept k (h.counted.isSome hk),
    fun k hk => by simp [Op.key] at hk⟩
  rw [Op.run, hrun]
  rfl

theorem done_freeValue (h : Settled P rt o) (ha : a ≠ 0) (hpos : 0 < o.strings a) :
    ∃ r rt', Done P (.freeValue a) rt o r rt' := by
  have hhas := h.has_of_owned ha (.inl hpos) (.inl hpos)
  obtain ⟨rt', hrun, hset, hkept⟩ : ∃ rt', __JS_FreeAtom rt a = some rt' ∧
      Settled P rt' (o.freeString a) ∧ ∀ k, (o.freeString a).Has P k → Kept rt.info rt'.info k := by
    refine h.free hhas (fun k hk => Function.update_of_ne hk ..) (fun _ _ => rfl) ?_
    simp only [Owned.freeString, Owned.count, Function.update_self]
    omega
  refine ⟨0, rt', ?_, hset, hkept, fun k hk => by simp [Op.key] at hk⟩
  rw [Op.run, hrun]
  rfl

theorem done_atomToValue (h : Settled P rt o) (hv : __JS_AtomIsTaggedInt v ∨ o.Has P v)
    (force_string : Bool) : ∃ r rt', Done P (.atomToValue v force_string) rt o r rt' := by
  by_cases ht : __JS_AtomIsTaggedInt v
  · refine ⟨0, rt, ?_, ?_, fun k hk => h.kept_refl hk, fun k hk => by simp [Op.key] at hk⟩
    · rw [Op.run, __JS_AtomToValue, if_pos ht]
      cases JS_NewString (decimal (__JS_AtomToUInt32 v)) <;> rfl
    · rw [Op.held, if_pos rfl]
      exact h
  · have hhas := hv.resolve_left ht
    obtain ⟨p, hp⟩ := h.has hhas
    have hlt := JSRuntime.lt_of_info h.wf (rt.info_eq hp)
    -- The value is a pointer to the entry, or to the one of the empty string.
    obtain ⟨a, ha, hrun⟩ : ∃ a, o.Has P a ∧ ∀ rt', rt.add_ref a 1 = some rt' →
        (Op.atomToValue v force_string).run P rt = some (a, rt') := by
      have hempty : o.Has P P.JS_ATOM_empty_string := h.has_const (Nat.ne_of_gt P.pos) P.lt
      by_cases hs : p.atom_type = .STRING
      · refine ⟨v, hhas, fun rt' hadd => ?_⟩
        simp [Op.run, __JS_AtomToValue, ht, hlt, guard, hp, hs, hadd, AtomValue.entry]
      · cases force_string with
        | false =>
          refine ⟨v, hhas, fun rt' hadd => ?_⟩
          simp [Op.run, __JS_AtomToValue, ht, hlt, guard, hp, hs, hadd, AtomValue.entry]
        | true =>
          by_cases hd : p.str = .str16 []
          · refine ⟨_, hempty, fun rt' hadd => ?_⟩
            simp [Op.run, __JS_AtomToValue, ht, hlt, guard, hp, hs, hd, hadd, AtomValue.entry]
          · refine ⟨v, hhas, fun rt' hadd => ?_⟩
            simp [Op.run, __JS_AtomToValue, ht, hlt, guard, hp, hs, hd, hadd, AtomValue.entry]
    obtain ⟨rt', hadd, -, hset, hkept⟩ := h.dupString ha
    refine ⟨a, rt', hrun rt' hadd, ?_, fun k hk => hkept k (h.counted.isSome hk),
      fun k hk => by simp [Op.key] at hk⟩
    rw [Op.held, if_neg ha.1]
    exact hset

theorem done_symbolToAtom (h : Settled P rt o) (ha : a ≠ 0) (hpos : 0 < o.strings a) :
    ∃ r rt', Done P (.symbolToAtom a) rt o r rt' := by
  have hhas := h.has_of_owned ha (.inl hpos) (.inl hpos)
  obtain ⟨p, hp⟩ := h.has hhas
  have hindex := js_get_atom_index_spec h.wf hp ha
  have hlt : a < 2 ^ 32 := by
    have := hhas.2.1
    omega
  refine ⟨a, rt, ?_, ?_, fun k hk => h.kept_refl hk, fun k hk => ⟨hk, hlt⟩⟩
  · rw [Op.run, js_symbol_to_atom, hindex]
    rfl
  · rw [Op.held]
    by_cases hc : __JS_AtomIsConst P.JS_ATOM_END a
    · rw [if_pos hc]
      exact h
    · rw [if_neg hc]
      have hx := rt.info_eq hp
      obtain ⟨href, hcpos⟩ := h.counted.count a _ ha hx
      have hcount : ((o.freeString a).dupAtom P a).count P a = o.count P a := by
        rw [Owned.dupAtom_count, if_neg hc]
        simp only [Owned.freeString, Owned.count, Function.update_self]
        omega
      refine h.next h.wf (h.counted.put (fun _ _ _ => rfl) (fun k hk => ?_) (fun k hk => ?_) hx
        (by rw [hcount, href]) (by rw [hcount]; exact hcpos)) fun k y _ hy =>
          .inl (.refl (by simp [hy]) rfl)
      · rw [Owned.dupAtom_strings]
        exact Function.update_of_ne hk ..
      · rw [Owned.dupAtom_atoms_of_ne _ hk]
        rfl

/-- **The step.** An operation that keeps the rules succeeds, leaves the counts right, keeps
what is not given up, and gives an atom that stands for what was asked for. -/
theorem Op.done (h : Settled P rt o) (ha : op.Allowed P rt o) : ∃ r rt', Done P op rt o r rt' := by
  obtain ⟨hroom, ha⟩ := ha
  cases op with
  | newAtomStr p => exact done_newAtomStr h (hroom rfl) ha.1 ha.2
  | newAtomLen u => exact done_newAtomLen h (hroom rfl) u
  | newAtomUInt32 n => exact done_newAtomUInt32 h (hroom rfl) ha
  | newAtomInt64 n => exact done_newAtomInt64 h (hroom rfl) ha.1 ha.2
  | newSymbol p ty => exact done_newSymbol h (hroom rfl) ha.1 ha.2.1 ha.2.2
  | newSymbolFromAtom a ty => exact done_newSymbolFromAtom h (hroom rfl) ha.1 ha.2
  | dupAtom v => exact done_dupAtom h ha.1 ha.2
  | freeAtom v => exact done_freeAtom h ha
  | atomToValue v f => exact done_atomToValue h ha f
  | dupValue a => exact done_dupValue h ha
  | freeValue a => exact done_freeValue h ha.1 ha.2
  | symbolToAtom a => exact done_symbolToAtom h ha.1 ha.2

end Ops

end QuickJSSwift.Atom
