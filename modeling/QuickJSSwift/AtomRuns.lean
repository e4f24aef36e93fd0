/-
The atom table over whole runs.

C code works with the table of a new runtime. As long as it keeps the rules, no operation
reads a free entry or fails an assertion, an entry is in use exactly if there is a reference
to it, and equal names are the same atom for as long as a reference to it is kept. What
`JS_NewAtomLen` makes of a C string is then what `Text` says without a table, given the
narrow strings that are interned at the time.

The rules ask for room in the table. A table has room while fewer than 715827882 entries are
in use, so a run that is shorter than that need not ask.
-/
import QuickJSSwift.AtomInit
import QuickJSSwift.Lib.Run

set_option autoImplicit false
set_option linter.style.nameCheck false

namespace QuickJSSwift.Atom

open Linked Text

/-! ## Room -/

section Room

variable {P : Predefined} {rt rt' : JSRuntime} {o o' : Owned} {op : Op} {r : ℕ}

/-- Without a free entry, every entry is in use. -/
theorem WF.hasRoom (h : WF rt) (hcount : rt.atom_count ≤ 715827882) : HasRoom rt := by
  by_cases hfree : rt.atom_free_index = 0
  · refine .inr ?_
    obtain ⟨l, hl, hmem⟩ := h.free
    have hnil : l = [] := by
      cases l with
      | nil => rfl
      | cons i l => exact absurd (hl.head.symm.trans hfree) (hl.ne_zero List.mem_cons_self)
    -- the list of free entries is empty, so the count is the size of the array
    have hused : ((Finset.range rt.atom_size).filter fun i => (rt.info i).isSome) =
        Finset.range rt.atom_size := by
      refine Finset.filter_true_of_mem fun i hi => ?_
      have hsome := (h.bound i).mpr (Finset.mem_range.mp hi)
      rcases JSRuntime.isSome_atom_array.mp hsome with hinfo | hget
      · exact hinfo
      · have := (hmem i).mpr hget
        simp [hnil] at this
    have hsize := h.count
    rw [hused, Finset.card_range] at hsize
    rw [Growable]
    omega
  · exact .inl hfree

/-- The entries that C code has a reference to are in `S`. -/
def Owned.Within (o : Owned) (S : Finset ℕ) : Prop :=
  ∀ i, 0 < o.strings i ∨ 0 < o.atoms i → i ∈ S

/-- What is in use is predefined or referred to. -/
theorem Settled.hasRoom (h : Settled P rt o) {S : Finset ℕ} (hS : o.Within S)
    (hcard : P.JS_ATOM_END + S.card ≤ 715827882) : HasRoom rt := by
  refine h.wf.hasRoom ?_
  have hsub : ((Finset.range rt.atom_size).filter fun i => (rt.info i).isSome) ⊆
      Finset.range P.JS_ATOM_END ∪ S := by
    intro i hi
    obtain ⟨-, hsome⟩ := Finset.mem_filter.mp hi
    rw [Finset.mem_union, Finset.mem_range]
    by_cases hlt : i < P.JS_ATOM_END
    · exact .inl hlt
    · -- any other entry is counted, and only references of C code count
      obtain ⟨x, hx⟩ := Option.isSome_iff_exists.mp hsome
      have hne : i ≠ 0 := by
        rintro rfl
        exact hlt (P.pos.trans P.lt)
      obtain ⟨-, hpos⟩ := h.counted.count i x hne hx
      rw [Owned.count, if_neg fun hc => hlt ((isConst_iff P (h.bound i hsome)).mp hc)] at hpos
      exact .inr (hS i (by omega))
  have hle := (Finset.card_le_card hsub).trans (Finset.card_union_le _ _)
  rw [Finset.card_range] at hle
  have hcount := h.wf.count
  omega

/-- An operation makes references to the entry that it gives and to no other. -/
structure Owned.Adds (o : Owned) (r : ℕ) (o' : Owned) : Prop where
  strings : ∀ i, i ≠ r → o'.strings i ≤ o.strings i
  atoms : ∀ i, i ≠ r → o'.atoms i ≤ o.atoms i

theorem Owned.Adds.refl (o : Owned) (r : ℕ) : o.Adds r o :=
  ⟨fun _ _ => le_rfl, fun _ _ => le_rfl⟩

theorem Owned.Adds.trans {o'' : Owned} (h : o.Adds r o') (h' : o'.Adds r o'') : o.Adds r o'' :=
  ⟨fun i hi => (h'.strings i hi).trans (h.strings i hi),
    fun i hi => (h'.atoms i hi).trans (h.atoms i hi)⟩

theorem Owned.Adds.within (h : o.Adds r o') {S : Finset ℕ} (hS : o.Within S) :
    o'.Within (insert r S) := by
  intro i hi
  rw [Finset.mem_insert]
  by_cases hir : i = r
  · exact .inl hir
  · have hs := h.strings i hir
    have ha := h.atoms i hir
    exact .inr (hS i (by omega))

section Adds

variable (P : Predefined) (o : Owned) (r : ℕ)

theorem Owned.adds_dupAtom : o.Adds r (o.dupAtom P r) :=
  ⟨fun _ _ => by rw [Owned.dupAtom_strings], fun _ hi => by rw [Owned.dupAtom_atoms_of_ne o hi]⟩

theorem Owned.adds_dupString : o.Adds r (o.dupString r) :=
  ⟨fun _ hi => (Function.update_of_ne hi ..).le, fun _ _ => le_rfl⟩

theorem Owned.adds_freeString (a : ℕ) : o.Adds r (o.freeString a) := by
  refine ⟨fun i _ => ?_, fun _ _ => le_rfl⟩
  by_cases hia : i = a
  · simp only [Owned.freeString, hia, Function.update_self]
    omega
  · exact (Function.update_of_ne hia ..).le

theorem Owned.adds_freeAtom (v : ℕ) : o.Adds r (o.freeAtom P v) := by
  rw [Owned.freeAtom]
  split
  · exact .refl o r
  · refine ⟨fun _ _ => le_rfl, fun i _ => ?_⟩
    by_cases hiv : i = v
    · simp only [hiv, Function.update_self]
      omega
    · exact (Function.update_of_ne hiv ..).le

theorem Owned.adds_give (p : StringPtr) : o.Adds r (o.give p) := by
  cases p with
  | atom a => exact o.adds_freeString r a
  | _ => exact .refl o r

theorem Owned.adds_adopt (info : ℕ → Option Info) (p : StringPtr) : o.Adds r (o.adopt P info p r) :=
  ⟨fun _ hi => (Owned.adopt_strings_of_ne o info p hi).le, fun i _ => by rw [Owned.adopt_atoms]⟩

theorem Owned.adds_named (info : ℕ → Option Info) (p : StringPtr) : o.Adds r (o.named P info p r) :=
  ((o.adds_give r p).trans (Owned.adds_adopt P _ r info p)).trans (Owned.adds_dupAtom P _ r)

theorem Owned.adds_symbol (info : ℕ → Option Info) (p : StringPtr) :
    o.Adds r (o.symbol P info p r) :=
  ((o.adds_give r p).trans (Owned.adds_adopt P _ r info p)).trans (Owned.adds_dupString _ r)

end Adds

/-- Only the entry that an operation gives has more references after it. -/
theorem Op.adds (h : Settled P rt o) (hruled : op.Ruled P o) (hrun : op.run P rt = some (r, rt')) :
    o.Adds r (op.held P rt r o) := by
  cases op with
  | newAtomStr p => exact Owned.adds_named P o r rt.info p
  | newAtomLen u => exact Owned.adds_dupAtom P o r
  | newAtomUInt32 n => exact Owned.adds_dupAtom P o r
  | newAtomInt64 n => exact Owned.adds_dupAtom P o r
  | newSymbol p ty => exact Owned.adds_symbol P o r rt.info p
  | newSymbolFromAtom a ty =>
    -- the pointer that `JS_DupValue` makes is the one that `JS_NewSymbol` takes over
    have hsymbol : (o.dupString a).symbol P rt.info (.atom a) r =
        (o.adopt P rt.info (.atom a) r).dupString r := by
      rw [Owned.symbol, Owned.give, o.freeString_dupString]
    rw [Op.held, hsymbol]
    exact (Owned.adds_adopt P o r rt.info (.atom a)).trans
      (Owned.adds_dupString (o.adopt P rt.info (.atom a) r) r)
  | dupAtom v =>
    rw [Op.run] at hrun
    obtain ⟨rt₁, -, heq⟩ := Option.map_eq_some_iff.mp hrun
    obtain ⟨rfl, -⟩ := Prod.mk.inj heq
    exact Owned.adds_dupAtom P o v
  | freeAtom v => exact Owned.adds_freeAtom P o r v
  | atomToValue v f =>
    rw [Op.held]
    split
    · exact .refl o r
    · exact Owned.adds_dupString o r
  | dupValue a =>
    rw [Op.run] at hrun
    obtain ⟨rt₁, -, heq⟩ := Option.map_eq_some_iff.mp hrun
    obtain ⟨rfl, -⟩ := Prod.mk.inj heq
    exact Owned.adds_dupString o a
  | freeValue a => exact Owned.adds_freeString o r a
  | symbolToAtom a =>
    -- the pointer becomes a reference to the same entry
    obtain ⟨p, hp⟩ := h.has (h.has_of_owned hruled.1 (.inl hruled.2) (.inl hruled.2))
    rw [Op.run] at hrun
    obtain ⟨i, hi, heq⟩ := Option.map_eq_some_iff.mp hrun
    obtain ⟨rfl, -⟩ := Prod.mk.inj heq
    obtain rfl := Option.some.inj ((js_get_atom_index_spec h.wf hp hruled.1).symm.trans hi)
    rw [Op.held]
    split
    · exact .refl o a
    · exact (o.adds_freeString a a).trans (Owned.adds_dupAtom P _ a)

end Room

/-! ## Runs -/

/-- The table with what C code owns; nothing, once an operation has read a free entry or failed
an assertion. -/
abbrev Table := Option (JSRuntime × Owned)

/-- What an atom stands for. -/
def Table.key (s : Table) (v : ℕ) : Option Key := s.bind fun t => Atom.key t.1.info v

section Runs

variable (P : Predefined)

def Op.step (s : Table) (op : Op) : Table :=
  s.bind fun t => (op.run P t.1).map fun r => (r.2, op.held P t.1 r.1 t.2)

/-- The operation keeps the rules. -/
def Op.Keeps (s : Table) (op : Op) : Prop := ∀ rt o, s = some (rt, o) → op.Allowed P rt o

/-- The operation keeps the rules, and there may be no room for it. -/
def Op.Rules (s : Table) (op : Op) : Prop := ∀ rt o, s = some (rt, o) → op.Ruled P o

/-- C code keeps a reference to `v` through the operation. -/
def Op.Retains (v : ℕ) (s : Table) (op : Op) : Prop :=
  ∀ rt o, s = some (rt, o) → (op.gives P o).Has P v

/-- No operation has gone wrong, and the table is settled. -/
def Table.Settled (s : Table) : Prop := ∃ rt o, s = some (rt, o) ∧ Atom.Settled P rt o

/-- The guarantees of a table: an entry is in use exactly if there is a reference to it, its
count is that of the references, and a key has one atom. -/
def Table.Safe (s : Table) : Prop :=
  ∃ rt o, s = some (rt, o) ∧ (∀ i, i ≠ 0 → ((rt.atom i).isSome ↔ o.Has P i)) ∧
    (∀ i p, i ≠ 0 → rt.atom i = some p → p.ref_count = o.count P i) ∧
    ∀ v w k, v < 2 ^ 32 → w < 2 ^ 32 → s.key v = some k → s.key w = some k → v = w

end Runs

section Runs

variable {P : Predefined} {s : Table} {op : Op} {ops : List Op} {rt rt' : JSRuntime} {o : Owned}
  {r v : ℕ} {k k' : Key}

theorem Op.step_some (h : op.run P rt = some (r, rt')) :
    op.step P (some (rt, o)) = some (rt', op.held P rt r o) := by
  rw [Op.step, Option.bind_some, h]
  rfl

theorem Op.of_step {o' : Owned} (h : op.step P (some (rt, o)) = some (rt', o')) :
    ∃ r, o' = op.held P rt r o := by
  rw [Op.step, Option.bind_some] at h
  obtain ⟨⟨r, rt₁⟩, -, heq⟩ := Option.map_eq_some_iff.mp h
  exact ⟨r, (Prod.mk.inj heq).2.symm⟩

theorem Op.held_dupAtom : (Op.dupAtom v).held P rt r o = o.dupAtom P v := rfl

theorem Op.held_freeAtom : (Op.freeAtom v).held P rt r o = o.freeAtom P v := rfl

theorem Table.Settled.step (h : s.Settled P) (hk : op.Keeps P s) : (op.step P s).Settled P := by
  obtain ⟨rt, o, rfl, hs⟩ := h
  obtain ⟨r, rt', hdone⟩ := Op.done hs (hk rt o rfl)
  exact ⟨rt', _, Op.step_some hdone.run, hdone.settled⟩

theorem Table.Settled.of_some (h : Table.Settled P (some (rt, o))) : Atom.Settled P rt o := by
  obtain ⟨rt₁, o₁, heq, hs⟩ := h
  obtain ⟨rfl, rfl⟩ := Prod.mk.inj (Option.some.inj heq)
  exact hs

/-- A run of operations that keep the rules. -/
theorem Table.Settled.run (h : s.Settled P) (hk : Run.Meets (Op.step P) (Op.Keeps P) s ops) :
    Run.Always (Op.step P) (Table.Settled P) s ops :=
  Run.always_of_meets (fun _ _ hs hk => hs.step hk) h hk

theorem Table.Settled.safe (h : s.Settled P) : s.Safe P := by
  obtain ⟨rt, o, rfl, hs⟩ := h
  refine ⟨rt, o, rfl, fun i hi => ?_, fun i p hi hp => ?_, fun v w k hv hw hkv hkw => ?_⟩
  · have hinfo : (rt.info i).isSome = (rt.atom i).isSome := by
      rw [JSRuntime.info, Option.isSome_map]
    rw [← hinfo]
    constructor
    · intro hsome
      obtain ⟨x, hx⟩ := Option.isSome_iff_exists.mp hsome
      exact ⟨hi, hs.bound i hsome, (hs.counted.count i x hi hx).2⟩
    · exact hs.counted.isSome
  · exact (hs.counted.count i _ hi (rt.info_eq hp)).1
  · exact key_injective hs.wf.entries hs.canonical hv hw hkv hkw

/-- An atom of a number needs no entry. -/
theorem Table.key_of_tagged (ht : __JS_AtomIsTaggedInt v) (rt : JSRuntime) (o : Owned) :
    Table.key (some (rt, o)) v = some (.string (widen (decimal (__JS_AtomToUInt32 v)))) := by
  rw [Table.key, Option.bind_some, Atom.key, if_pos ht]

/-- An operation leaves an atom what it is, if a reference to it is kept. -/
theorem Table.Settled.step_key (h : s.Settled P) (hk : op.Keeps P s)
    (hr : __JS_AtomIsTaggedInt v ∨ op.Retains P v s) : (op.step P s).key v = s.key v := by
  obtain ⟨rt, o, rfl, hs⟩ := h
  obtain ⟨r, rt', hdone⟩ := Op.done hs (hk rt o rfl)
  rw [Op.step_some hdone.run]
  rcases hr with ht | hr
  · rw [Table.key_of_tagged ht, Table.key_of_tagged ht]
  · exact (hdone.kept v (hr rt o rfl)).key

end Runs

/-! ## From a new runtime on -/

section New

variable (CONFIG_BIGNUM CONFIG_ATOMICS : Bool)

/-- The table of a new runtime. -/
def Table.new : Table :=
  (JS_InitAtoms (js_atom_init CONFIG_BIGNUM CONFIG_ATOMICS)).map (·, Owned.nothing)

theorem Table.new_settled : (Table.new CONFIG_BIGNUM CONFIG_ATOMICS).Settled
    (predefined CONFIG_BIGNUM CONFIG_ATOMICS) := by
  obtain ⟨rt, hrun, hset, -⟩ := JS_InitAtoms_settled CONFIG_BIGNUM CONFIG_ATOMICS
  exact ⟨rt, .nothing, by rw [Table.new, hrun]; rfl, hset⟩

variable {CONFIG_BIGNUM CONFIG_ATOMICS} {P : Predefined} {s : Table} {ops : List Op}

/-- A table with references to few entries. -/
def Table.Few (P : Predefined) (n : ℕ) (s : Table) : Prop :=
  ∃ rt o S, s = some (rt, o) ∧ Atom.Settled P rt o ∧ o.Within S ∧ S.card ≤ n

/-- There is room for a run that is not too long. -/
theorem Table.Few.meets {n : ℕ} (h : s.Few P n) (hk : Run.Meets (Op.step P) (Op.Rules P) s ops)
    (hlen : P.JS_ATOM_END + n + ops.length ≤ 715827882) :
    Run.Meets (Op.step P) (Op.Keeps P) s ops := by
  induction ops generalizing s n with
  | nil => trivial
  | cons op ops ih =>
    rw [List.length_cons] at hlen
    obtain ⟨rt, o, S, rfl, hs, hS, hcard⟩ := h
    have hruled := hk.1 rt o rfl
    have hallowed : op.Allowed P rt o := ⟨fun _ => hs.hasRoom hS (by omega), hruled⟩
    -- an operation adds one entry at most, and the rest of the run is one shorter
    refine ⟨?_, ih (n := n + 1) ?_ hk.2 (by omega)⟩
    · intro rt₁ o₁ heq
      obtain ⟨rfl, rfl⟩ := Prod.mk.inj (Option.some.inj heq)
      exact hallowed
    · obtain ⟨r, rt', hdone⟩ := Op.done hs hallowed
      refine ⟨rt', _, insert r S, Op.step_some hdone.run, hdone.settled,
        (Op.adds hs hruled hdone.run).within hS, ?_⟩
      exact (Finset.card_insert_le r S).trans (by omega)

/-- **Room.** A run of fewer than 715 million operations has room from the start to the end. -/
theorem Table.new_meets (hk : Run.Meets (Op.step (predefined CONFIG_BIGNUM CONFIG_ATOMICS))
      (Op.Rules (predefined CONFIG_BIGNUM CONFIG_ATOMICS)) (Table.new CONFIG_BIGNUM CONFIG_ATOMICS) ops)
    (hlen : ops.length < 715000000) :
    Run.Meets (Op.step (predefined CONFIG_BIGNUM CONFIG_ATOMICS))
      (Op.Keeps (predefined CONFIG_BIGNUM CONFIG_ATOMICS)) (Table.new CONFIG_BIGNUM CONFIG_ATOMICS)
      ops := by
  obtain ⟨rt, hrun, hset, -⟩ := JS_InitAtoms_settled CONFIG_BIGNUM CONFIG_ATOMICS
  have hfew : (Table.new CONFIG_BIGNUM CONFIG_ATOMICS).Few (predefined CONFIG_BIGNUM CONFIG_ATOMICS) 0 := by
    refine ⟨rt, .nothing, ∅, by rw [Table.new, hrun]; rfl, hset, ?_, le_rfl⟩
    intro i hi
    simp [Owned.nothing] at hi
  have hend : (predefined CONFIG_BIGNUM CONFIG_ATOMICS).JS_ATOM_END ≤ 225 := by
    cases CONFIG_BIGNUM <;> cases CONFIG_ATOMICS <;> decide +kernel
  exact hfew.meets hk (by omega)

/-! A name that is not predefined: made into an atom, shared, given up once, and asked for
again. -/

/-- The name. -/
def answer : List UInt8 := bytes "answer"

def shareAnswer (v : ℕ) : List Op := [.dupAtom v, .freeAtom v, .newAtomLen answer]

theorem JS_NewAtomLen_answer (interned : AtomTable) :
    Text.JS_NewAtomLen interned answer = some (widen answer) := by
  have hnew : JS_NewStringLen answer = some (.str8 answer) := by decide +kernel
  -- whether it is interned makes no difference
  unfold Text.JS_NewAtomLen
  split
  · rfl
  · rw [hnew]
    rfl

/-- The first time. -/
theorem newAtomLen_answer : ∃ v rt, v ≠ 0 ∧ v < 2 ^ 32 ∧
    Op.step (predefined true true) (Table.new true true) (.newAtomLen answer) =
      some (rt, Owned.nothing.dupAtom (predefined true true) v) ∧
    Atom.key rt.info v = some (.string (widen answer)) := by
  have hmeets := @Table.new_meets true true [.newAtomLen answer] ⟨fun _ _ _ => trivial, trivial⟩
    (by decide)
  obtain ⟨rt₀, hrun₀, hset, -⟩ := JS_InitAtoms_settled true true
  have hnew : Table.new true true = some (rt₀, .nothing) := by rw [Table.new, hrun₀]; rfl
  obtain ⟨v, rt, hdone⟩ := Op.done hset (hmeets.1 rt₀ .nothing hnew)
  have hasked : (Op.newAtomLen answer).key rt₀ = some (.string (widen answer)) := by
    rw [Op.key, JS_NewAtomLen_answer]
    rfl
  obtain ⟨hkey, hlt⟩ := hdone.key _ hasked
  refine ⟨v, rt, hdone.settled.wf.entries.ne_zero hkey, hlt, ?_, hkey⟩
  rw [hnew]
  exact Op.step_some hdone.run

/-- An atom that has just been made can be given up. -/
theorem Owned.dupAtom_pos (P : Predefined) (o : Owned) (v : ℕ) :
    __JS_AtomIsConst P.JS_ATOM_END v ∨ 0 < (o.dupAtom P v).atoms v := by
  by_cases hc : __JS_AtomIsConst P.JS_ATOM_END v
  · exact .inl hc
  · refine .inr ?_
    rw [Owned.dupAtom, if_neg hc]
    simp

/-- The rules on the way. -/
theorem shareAnswer_rules {v : ℕ} {rt : JSRuntime} {o : Owned} (hv : v < 2 ^ 32)
    (hstep : Op.step P s (.newAtomLen answer) = some (rt, o.dupAtom P v)) :
    Run.Meets (Op.step P) (Op.Rules P) s (.newAtomLen answer :: shareAnswer v) := by
  refine ⟨fun _ _ _ => trivial, ?_, ?_, fun _ _ _ => trivial, trivial⟩
  · rw [hstep]
    intro rt₁ o₁ heq
    obtain ⟨-, rfl⟩ := Prod.mk.inj (Option.some.inj heq)
    rw [Op.Ruled]
    exact ⟨hv, o.dupAtom_pos P v⟩
  · rw [hstep]
    intro rt₁ o₁ heq
    obtain ⟨r, ho⟩ := Op.of_step heq
    rw [ho, Op.Ruled, Op.held_dupAtom]
    exact (o.dupAtom P v).dupAtom_pos P v

/-- And the counts stay positive. -/
theorem shareAnswer_retains {v : ℕ} {rt : JSRuntime} {o : Owned} (hv : v ≠ 0) (hlt : v < 2 ^ 31) :
    Run.Meets (Op.step P) (Op.Retains P v) (some (rt, o.dupAtom P v)) (shareAnswer v) := by
  have hhas : ∀ o : Owned, (o.dupAtom P v).Has P v := by
    intro o
    refine ⟨hv, hlt, ?_⟩
    rw [Owned.dupAtom_count]
    split
    · next hc =>
      rw [Owned.count, if_pos hc]
      omega
    · omega
  have hback : ∀ o : Owned, (o.dupAtom P v).freeAtom P v = o := by
    intro o
    rw [Owned.dupAtom, Owned.freeAtom]
    split
    · rfl
    · simp
  refine ⟨?_, ?_, ?_, trivial⟩
  · intro rt₁ o₁ heq
    obtain ⟨-, rfl⟩ := Prod.mk.inj (Option.some.inj heq)
    exact hhas o
  · intro rt₁ o₁ heq
    obtain ⟨r, ho⟩ := Op.of_step heq
    rw [ho, Op.gives, Op.held_dupAtom, hback]
    exact hhas o
  · intro rt₁ o₁ heq
    obtain ⟨⟨rt₂, o₂⟩, hfirst, -⟩ := Option.bind_eq_some_iff.mp heq
    rw [hfirst] at heq
    obtain ⟨r, ho⟩ := Op.of_step heq
    obtain ⟨r', ho₂⟩ := Op.of_step hfirst
    change o₁.Has P v
    rw [ho, ho₂, Op.held_freeAtom, Op.held_dupAtom, hback]
    exact hhas o

/-- The state after the first time, and the rest of the run. -/
theorem exists_shareAnswer : ∃ v rt, v ≠ 0 ∧ v < 2 ^ 32 ∧
    Op.step (predefined true true) (Table.new true true) (.newAtomLen answer) =
      some (rt, Owned.nothing.dupAtom (predefined true true) v) ∧
    Atom.key rt.info v = some (.string (widen answer)) ∧
    Run.Meets (Op.step (predefined true true)) (Op.Keeps (predefined true true)) (Table.new true true)
      (.newAtomLen answer :: shareAnswer v) := by
  obtain ⟨v, rt, hne, hlt, hstep, hkey⟩ := newAtomLen_answer
  exact ⟨v, rt, hne, hlt, hstep, hkey,
    Table.new_meets (shareAnswer_rules hlt hstep) (by simp [shareAnswer])⟩

/-- A reference is kept all along, if a number does not need one. -/
theorem shareAnswer_kept {v : ℕ} {rt : JSRuntime} {o : Owned} (hs : Atom.Settled P rt (o.dupAtom P v))
    (hv : v ≠ 0) (hkey : (Atom.key rt.info v).isSome) : __JS_AtomIsTaggedInt v ∨
      Run.Meets (Op.step P) (Op.Retains P v) (some (rt, o.dupAtom P v)) (shareAnswer v) := by
  by_cases ht : __JS_AtomIsTaggedInt v
  · exact .inl ht
  · rw [Atom.key, if_neg ht, Option.isSome_map] at hkey
    exact .inr (shareAnswer_retains hv (hs.bound v hkey))

/-- **Safety.** In a run that keeps the rules no operation reads a free entry or fails an
assertion, and every state has the guarantees. -/
theorem table_safe (hk : Run.Meets (Op.step (predefined CONFIG_BIGNUM CONFIG_ATOMICS))
      (Op.Keeps (predefined CONFIG_BIGNUM CONFIG_ATOMICS)) (Table.new CONFIG_BIGNUM CONFIG_ATOMICS) ops) :
    Run.Always (Op.step (predefined CONFIG_BIGNUM CONFIG_ATOMICS))
      (Table.Safe (predefined CONFIG_BIGNUM CONFIG_ATOMICS)) (Table.new CONFIG_BIGNUM CONFIG_ATOMICS)
      ops :=
  ((Table.new_settled CONFIG_BIGNUM CONFIG_ATOMICS).run hk).imp fun _ hs => hs.safe

theorem table_safe_answer : ∃ v, v ≠ 0 ∧
    Run.Always (Op.step (predefined true true)) (Table.Safe (predefined true true))
      (Table.new true true) (.newAtomLen answer :: shareAnswer v) := by
  obtain ⟨v, rt, hne, -, -, -, hk⟩ := exists_shareAnswer
  exact ⟨v, hne, table_safe hk⟩

end New

section Kept

variable {P : Predefined} {s : Table} {op : Op} {ops : List Op} {rt rt' : JSRuntime} {o : Owned}
  {r v : ℕ} {k k' : Key}

/-- An atom keeps its key along a run in which a reference to it is kept. -/
theorem Table.Settled.run_key (h : s.Settled P) (hk : Run.Meets (Op.step P) (Op.Keeps P) s ops)
    (hr : __JS_AtomIsTaggedInt v ∨ Run.Meets (Op.step P) (Op.Retains P v) s ops) :
    (Run.exec (Op.step P) s ops).key v = s.key v := by
  induction ops generalizing s with
  | nil => rfl
  | cons op ops ih =>
    rw [Run.exec_cons, ih (h.step hk.1) hk.2 (hr.imp_right And.right)]
    exact h.step_key hk.1 (hr.imp_right And.left)

/-- What is asked for the second time, in a table where the name has been made into an atom. -/
theorem shareAnswer_again (hs : Atom.Settled P rt (o.dupAtom P v)) (hv : v ≠ 0)
    (hkey : Atom.key rt.info v = some k)
    (hk : Run.Meets (Op.step P) (Op.Keeps P) (some (rt, o.dupAtom P v)) (shareAnswer v)) :
    Run.Meets (Op.step P) (Op.Keeps P) (some (rt, o.dupAtom P v))
        ([.dupAtom v, .freeAtom v] ++ [.newAtomLen answer]) ∧
      (__JS_AtomIsTaggedInt v ∨ Run.Meets (Op.step P) (Op.Retains P v) (some (rt, o.dupAtom P v))
        ([.dupAtom v, .freeAtom v] ++ [.newAtomLen answer])) ∧
      ∃ rt₁ o₁ r rt₂, Run.exec (Op.step P) (some (rt, o.dupAtom P v)) [.dupAtom v, .freeAtom v] =
          some (rt₁, o₁) ∧
        (Op.newAtomLen answer).run P rt₁ = some (r, rt₂) ∧
        (Op.newAtomLen answer).key rt₁ = some (.string (widen answer)) := by
  have hsplit : Run.Meets (Op.step P) (Op.Keeps P) (some (rt, o.dupAtom P v))
      ([.dupAtom v, .freeAtom v] ++ [.newAtomLen answer]) := hk
  refine ⟨hsplit, shareAnswer_kept hs hv (by rw [hkey]; rfl), ?_⟩
  obtain ⟨hbefore, hlast⟩ := Run.meets_append.mp hsplit
  obtain ⟨rt₁, o₁, hend, hs₁⟩ := (Table.Settled.run ⟨_, _, rfl, hs⟩ hbefore).last
  rw [hend] at hlast
  obtain ⟨r, rt₂, hdone⟩ := Op.done hs₁ (hlast.1 rt₁ o₁ rfl)
  exact ⟨rt₁, o₁, r, rt₂, hend, hdone.run, by rw [Op.key, JS_NewAtomLen_answer]; rfl⟩

/-- **The same atom.** What is made of a key later is an atom that has been kept exactly if
that one is the atom of the key. -/
theorem Table.Settled.same_atom (h : s.Settled P)
    (hk : Run.Meets (Op.step P) (Op.Keeps P) s (ops ++ [op]))
    (hr : __JS_AtomIsTaggedInt v ∨ Run.Meets (Op.step P) (Op.Retains P v) s (ops ++ [op]))
    (hv : v < 2 ^ 32) (hkey : s.key v = some k)
    (hend : Run.exec (Op.step P) s ops = some (rt, o)) (hrun : op.run P rt = some (r, rt'))
    (hasked : op.key rt = some k') : r = v ↔ k' = k := by
  have hlast : Run.exec (Op.step P) s (ops ++ [op]) = some (rt', op.held P rt r o) := by
    rw [Run.exec_append, hend]
    exact Op.step_some hrun
  obtain ⟨hbefore, hstep⟩ := Run.meets_append.mp hk
  rw [hend] at hstep
  obtain ⟨rt₀, o₀, heq, hset⟩ := (h.run hbefore).last
  obtain ⟨rfl, rfl⟩ := Prod.mk.inj (Option.some.inj (hend.symm.trans heq))
  obtain ⟨r', rt'', hdone⟩ := Op.done hset (hstep.1 rt o rfl)
  obtain ⟨rfl, rfl⟩ := Prod.mk.inj (Option.some.inj (hrun.symm.trans hdone.run))
  -- Both are atoms of the last table.
  obtain ⟨hkr, hlt⟩ := hdone.key k' hasked
  have hkv : Atom.key rt'.info v = some k := by
    have hkept := h.run_key hk hr
    rwa [hlast, hkey] at hkept
  constructor
  · rintro rfl
    exact Option.some.inj (hkr.symm.trans hkv)
  · -- a key has one atom
    rintro rfl
    exact key_injective hdone.settled.wf.entries hdone.settled.canonical hlt hv hkr hkv

/-- The second time it is the same atom. -/
theorem same_atom_answer : ∃ v rt o rt',
    Run.exec (Op.step (predefined true true)) (Table.new true true)
      [.newAtomLen answer, .dupAtom v, .freeAtom v] = some (rt, o) ∧
    (Op.newAtomLen answer).run (predefined true true) rt = some (v, rt') := by
  obtain ⟨v, rt, hne, hlt, hstep, hkey, hk⟩ := exists_shareAnswer
  have hset := (Table.new_settled true true).step hk.1
  have hrest := hk.2
  rw [hstep] at hset hrest
  obtain ⟨hkeeps, hkept, rt₁, o₁, r, rt₂, hend, hrun, hasked⟩ :=
    shareAnswer_again hset.of_some hne hkey hrest
  have hsame := (hset.same_atom hkeeps hkept hlt hkey hend hrun hasked).mpr rfl
  subst hsame
  refine ⟨r, rt₁, o₁, rt₂, ?_, hrun⟩
  rw [Run.exec_cons, hstep]
  exact hend

end Kept

section Later

variable {CONFIG_BIGNUM CONFIG_ATOMICS : Bool} {ops : List Op} {rt : JSRuntime} {o : Owned}

/-- **Array indices.** In a run that keeps the rules, `JS_AtomIsArrayIndex` is true of the atoms
of the decimal forms of the numbers below `2 ^ 32 - 1`, with a tag or without. -/
theorem arrayIndex_iff {v : ℕ} {k : Key}
    (hk : Run.Meets (Op.step (predefined CONFIG_BIGNUM CONFIG_ATOMICS))
      (Op.Keeps (predefined CONFIG_BIGNUM CONFIG_ATOMICS)) (Table.new CONFIG_BIGNUM CONFIG_ATOMICS) ops)
    (hend : Run.exec (Op.step (predefined CONFIG_BIGNUM CONFIG_ATOMICS))
      (Table.new CONFIG_BIGNUM CONFIG_ATOMICS) ops = some (rt, o))
    (hkey : Atom.key rt.info v = some k) :
    ∃ index, JS_AtomIsArrayIndex rt v = some index ∧
      ∀ n, index = some n ↔ n < 2 ^ 32 - 1 ∧ k = .string (widen (decimal n)) := by
  obtain ⟨rt₀, o₀, heq, hset⟩ := ((Table.new_settled CONFIG_BIGNUM CONFIG_ATOMICS).run hk).last
  obtain ⟨rfl, rfl⟩ := Prod.mk.inj (Option.some.inj (hend.symm.trans heq))
  obtain ⟨index, hrun, hiff⟩ := JS_AtomIsArrayIndex_spec hset.wf (by rw [hkey]; rfl)
  refine ⟨index, hrun, fun n => ?_⟩
  rw [hiff n, hkey, Option.some_inj]

/-- A number that is too large for a tag. -/
theorem arrayIndex_three_billion : ∃ v rt o,
    Run.exec (Op.step (predefined true true)) (Table.new true true) [.newAtomInt64 3000000000] =
      some (rt, o) ∧
    JS_AtomIsArrayIndex rt v = some (some 3000000000) := by
  -- it fits into an `int64_t` and not into a tag
  have hk := @Table.new_meets true true [.newAtomInt64 3000000000]
    ⟨fun _ _ _ => ⟨by norm_num, by norm_num⟩, trivial⟩ (by decide)
  obtain ⟨rt₀, o₀, hnew, hset⟩ := Table.new_settled true true
  obtain ⟨v, rt, hdone⟩ := Op.done hset (hk.1 rt₀ o₀ hnew)
  have hend : Run.exec (Op.step (predefined true true)) (Table.new true true)
      [.newAtomInt64 3000000000] =
        some (rt, (Op.newAtomInt64 3000000000).held (predefined true true) rt₀ v o₀) := by
    rw [Run.exec_cons, hnew]
    exact Op.step_some hdone.run
  obtain ⟨hkey, -⟩ := hdone.key (.string (widen (decimal 3000000000))) rfl
  obtain ⟨index, hrun, hiff⟩ := arrayIndex_iff hk hend hkey
  have hindex := (hiff 3000000000).mpr ⟨by norm_num, rfl⟩
  exact ⟨v, rt, _, hend, hindex ▸ hrun⟩

end Later

end QuickJSSwift.Atom
