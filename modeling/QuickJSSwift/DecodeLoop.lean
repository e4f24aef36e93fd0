/-
The loop of `Array.init?(_:value:)`, turn by turn, for any engine (`JSValue.swift`).

`firstElements` is what the first turns give. How the loop ends is told in terms of it:
with a list (`arrayLoop_returned_iff`), or with a trap (`arrayLoop_trapped_iff`). What it
does to the runtime on the way is the sum of what its turns do (`arrayLoop_along` and
`arrayLoop_along_iff`).
-/
import QuickJSSwift.Decode

set_option autoImplicit false

namespace QuickJSSwift.Decode

open Engine

variable {ω : Type}

/-! ## The turns -/

variable {α : Type} (E : Engine ω) (element : Runtime ω → JSCValue → Outcome ω α)
  (value : JSCValue)

/-- The element at `index`, read and decoded. -/
def elementAt (index : ℕ) (rt : Runtime ω) : Outcome ω α :=
  let (v, rt) := E.getPropertyUint32 rt value (UInt32.ofNat index)
  element rt v

/-- The elements of the first turns and the runtime after them, if all of them decode. -/
def firstElements (rt : Runtime ω) : ℕ → Option (List α × Runtime ω)
  | 0 => some ([], rt)
  | index + 1 =>
    match firstElements rt index with
    | none => none
    | some (self, rt) =>
      match elementAt E element value index rt with
      | .returned (some ele) rt => some (self ++ [ele], rt)
      | _ => none

theorem arrayLoop_succ (turns index : ℕ) (self : List α) (rt : Runtime ω) :
    arrayLoop E element value (turns + 1) index self rt =
      if index < 2 ^ 32 then
        match elementAt E element value index rt with
        | .returned (some ele) rt => arrayLoop E element value turns (index + 1) (self ++ [ele]) rt
        | .returned none rt => .returned none rt
        | .trapped => .trapped
      else .trapped := rfl

variable {E element value}

/-- The first elements of fewer turns. -/
theorem firstElements_mono {rt : Runtime ω} {m n : ℕ} (hmn : m ≤ n)
    (h : firstElements E element value rt m = none) :
    firstElements E element value rt n = none := by
  induction n, hmn using Nat.le_induction with
  | base => exact h
  | succ n _ ih => rw [firstElements, ih]

theorem firstElements_succ {rt rt' : Runtime ω} {index : ℕ} {self : List α}
    (h : firstElements E element value rt index = some (self, rt')) :
    firstElements E element value rt (index + 1) =
      match elementAt E element value index rt' with
      | .returned (some ele) rt => some (self ++ [ele], rt)
      | _ => none := by
  rw [firstElements, h]

/-! ## How the loop ends -/

/-- **The loop returns a list** if its turns fit into the index type, and then the list of
the first elements. -/
theorem arrayLoop_returned_iff {rt₀ : Runtime ω} (turns : ℕ) {index : ℕ} {self : List α}
    {rt : Runtime ω} (hself : firstElements E element value rt₀ index = some (self, rt))
    (hindex : index ≤ 2 ^ 32) (l : List α) (rt' : Runtime ω) :
    arrayLoop E element value turns index self rt = .returned (some l) rt' ↔
      index + turns ≤ 2 ^ 32 ∧
        firstElements E element value rt₀ (index + turns) = some (l, rt') := by
  induction turns generalizing index self rt with
  | zero =>
    rw [arrayLoop, Nat.add_zero, hself]
    constructor
    · rintro ⟨⟩
      exact ⟨hindex, rfl⟩
    · rintro ⟨-, h⟩
      cases h
      rfl
  | succ turns ih =>
    rw [arrayLoop_succ]
    split_ifs with hlt
    · have hnext := firstElements_succ hself
      split
      · next ele rt₁ hele =>
        rw [hele] at hnext
        rw [ih hnext hlt, show index + 1 + turns = index + (turns + 1) by omega]
      · next rt₁ hele =>
        -- An element that does not decode ends the loop, and the first elements with it.
        rw [hele] at hnext
        rw [firstElements_mono (by omega : index + 1 ≤ index + (turns + 1)) hnext]
        exact iff_of_false (by simp) (by simp)
      · next hele =>
        rw [hele] at hnext
        rw [firstElements_mono (by omega : index + 1 ≤ index + (turns + 1)) hnext]
        exact iff_of_false (by simp) (by simp)
    · exact iff_of_false (by simp) (by omega)

/-- **The loop traps** at the first turn behind the index type, or in an element. -/
theorem arrayLoop_trapped_iff {rt₀ : Runtime ω} (turns : ℕ) {index : ℕ} {self : List α}
    {rt : Runtime ω} (hself : firstElements E element value rt₀ index = some (self, rt)) :
    arrayLoop E element value turns index self rt = .trapped ↔
      ∃ i l rt', index ≤ i ∧ i < index + turns ∧
        firstElements E element value rt₀ i = some (l, rt') ∧
        (2 ^ 32 ≤ i ∨ elementAt E element value i rt' = .trapped) := by
  induction turns generalizing index self rt with
  | zero =>
    refine iff_of_false (by simp [arrayLoop]) ?_
    rintro ⟨i, l, rt', hge, hlt, -⟩
    omega
  | succ turns ih =>
    rw [arrayLoop_succ]
    split_ifs with hlt
    · have hnext := firstElements_succ hself
      -- Unless this element traps, what goes wrong goes wrong in a later turn.
      have hlater : elementAt E element value index rt ≠ .trapped → ∀ i l rt', index ≤ i →
          firstElements E element value rt₀ i = some (l, rt') →
          (2 ^ 32 ≤ i ∨ elementAt E element value i rt' = .trapped) → index + 1 ≤ i := by
        intro hele i l rt' hge hfirst hbad
        by_contra hle
        have heq : i = index := by omega
        subst heq
        rw [hself] at hfirst
        cases hfirst
        rcases hbad with hout | htrap
        · omega
        · exact hele htrap
      split
      · next ele rt₁ hele =>
        rw [hele] at hnext hlater
        rw [ih hnext]
        constructor
        · rintro ⟨i, l, rt', hge, hi, hfirst, hbad⟩
          exact ⟨i, l, rt', by omega, by omega, hfirst, hbad⟩
        · rintro ⟨i, l, rt', hge, hi, hfirst, hbad⟩
          exact ⟨i, l, rt', hlater (by simp) i l rt' hge hfirst hbad, by omega, hfirst, hbad⟩
      · next rt₁ hele =>
        rw [hele] at hnext hlater
        refine iff_of_false (by simp) ?_
        rintro ⟨i, l, rt', hge, hi, hfirst, hbad⟩
        rw [firstElements_mono (hlater (by simp) i l rt' hge hfirst hbad) hnext] at hfirst
        cases hfirst
      · next hele =>
        exact iff_of_true rfl ⟨index, self, rt, le_rfl, by omega, hself, .inr hele⟩
    · exact iff_of_true rfl ⟨index, self, rt, le_rfl, by omega, hself, .inl (by omega)⟩

/-! ## What the loop does to the runtime -/

/-- The turns of a loop are the first one and the others. -/
theorem forall_turns_succ {Q : ℕ → Prop} (index turns : ℕ) :
    (∀ i, index ≤ i → i < index + (turns + 1) → Q i) ↔
      Q index ∧ ∀ i, index + 1 ≤ i → i < index + 1 + turns → Q i := by
  constructor
  · intro h
    exact ⟨h index le_rfl (by omega), fun i hle hlt => h i (by omega) (by omega)⟩
  · rintro ⟨hfirst, hothers⟩ i hle hlt
    rcases Nat.eq_or_lt_of_le hle with rfl | hlt'
    · exact hfirst
    · exact hothers i hlt' (by omega)

/-- Something holds of every turn that the loop comes to, over the runtimes before and
after it. -/
def EachTurn (E : Engine ω) (element : Runtime ω → JSCValue → Outcome ω α) (value : JSCValue)
    (rt₀ : Runtime ω) (P : Runtime ω → Runtime ω → Prop) (i : ℕ) : Prop :=
  ∀ l rt₁, firstElements E element value rt₀ i = some (l, rt₁) →
    ∀ a rt₂, elementAt E element value i rt₁ = .returned a rt₂ → P rt₁ rt₂

/-- A turn that is come to has one runtime before it, and one after it. -/
theorem eachTurn_iff {rt₀ rt rt' : Runtime ω} {P : Runtime ω → Runtime ω → Prop} {index : ℕ}
    {self : List α} {a : Option α}
    (hself : firstElements E element value rt₀ index = some (self, rt))
    (hele : elementAt E element value index rt = .returned a rt') :
    EachTurn E element value rt₀ P index ↔ P rt rt' := by
  constructor
  · intro h
    exact h self rt hself a rt' hele
  · intro h l rt₁ hfirst a' rt₂ hele'
    rw [hself] at hfirst
    cases hfirst
    rw [hele] at hele'
    cases hele'
    exact h

/-- No turn is come to after an element that does not decode. -/
theorem eachTurn_of_none {rt₀ : Runtime ω} {P : Runtime ω → Runtime ω → Prop} {index i : ℕ}
    (h : firstElements E element value rt₀ index = none) (hle : index ≤ i) :
    EachTurn E element value rt₀ P i := by
  intro l rt₁ hfirst
  rw [firstElements_mono hle h] at hfirst
  cases hfirst

/-- **What every turn does, the loop does**, if it can be done any number of times. -/
theorem arrayLoop_along {R : Runtime ω → Runtime ω → Prop} (hrefl : ∀ rt, R rt rt)
    (htrans : ∀ rt rt' rt'', R rt rt' → R rt' rt'' → R rt rt'') {rt₀ : Runtime ω} (turns : ℕ)
    {index : ℕ} {self : List α} {rt : Runtime ω}
    (hself : firstElements E element value rt₀ index = some (self, rt))
    (hturns : ∀ i, index ≤ i → i < index + turns → EachTurn E element value rt₀ R i)
    {a : Option (List α)} {rt' : Runtime ω}
    (h : arrayLoop E element value turns index self rt = .returned a rt') : R rt rt' := by
  induction turns generalizing index self rt with
  | zero =>
    cases h
    exact hrefl _
  | succ turns ih =>
    obtain ⟨hfirst, hothers⟩ := (forall_turns_succ index turns).mp hturns
    have hnext := firstElements_succ hself
    rw [arrayLoop_succ] at h
    split_ifs at h
    split at h
    -- The element decodes, and the loop goes on from there.
    · next ele rt₁ hele =>
      rw [hele] at hnext
      exact htrans _ _ _ ((eachTurn_iff hself hele).mp hfirst) (ih hnext hothers h)
    · next rt₁ hele =>
      cases h
      exact (eachTurn_iff hself hele).mp hfirst
    · cases h

/-- **What the loop does, every turn does**, if nothing that is done can be undone: `P` holds
of a run exactly if it holds of its parts, as long as the parts are in `S`. -/
theorem arrayLoop_along_iff {S P : Runtime ω → Runtime ω → Prop} (hS : ∀ rt, S rt rt)
    (hStrans : ∀ rt rt' rt'', S rt rt' → S rt' rt'' → S rt rt'') (hP : ∀ rt, P rt rt)
    (hparts : ∀ rt rt' rt'', S rt rt' → S rt' rt'' → (P rt rt'' ↔ P rt rt' ∧ P rt' rt''))
    {rt₀ : Runtime ω} (turns : ℕ) {index : ℕ} {self : List α} {rt : Runtime ω}
    (hself : firstElements E element value rt₀ index = some (self, rt))
    (hturns : ∀ i, EachTurn E element value rt₀ S i) {a : Option (List α)} {rt' : Runtime ω}
    (h : arrayLoop E element value turns index self rt = .returned a rt') :
    P rt rt' ↔ ∀ i, index ≤ i → i < index + turns → EachTurn E element value rt₀ P i := by
  induction turns generalizing index self rt with
  | zero =>
    cases h
    refine iff_of_true (hP _) (fun i hle hlt => ?_)
    omega
  | succ turns ih =>
    have hnext := firstElements_succ hself
    rw [forall_turns_succ]
    rw [arrayLoop_succ] at h
    split_ifs at h
    split at h
    · next ele rt₁ hele =>
      rw [hele] at hnext
      -- The turns to come are one part, this turn is the other.
      have hrest : S rt₁ rt' := arrayLoop_along hS hStrans turns hnext (fun i _ _ => hturns i) h
      rw [hparts _ _ _ ((eachTurn_iff hself hele).mp (hturns index)) hrest, ih hnext h,
        eachTurn_iff hself hele]
    · next rt₁ hele =>
      cases h
      rw [hele] at hnext
      rw [eachTurn_iff hself hele]
      exact (and_iff_left fun i hle _ => eachTurn_of_none hnext hle).symm
    · cases h

/-! ## The initialiser -/

/-- **How `Array.init?` returns**: at once for what is no object, with `nil` if the object
is no index, and else with what the loop returns. The `length` that was read is freed. -/
theorem array_returned {rt rt' : Runtime ω} {a : Option (List α)}
    (h : Array.initValue E element rt value = .returned a rt') :
    (JS_IsObject value = false ∧ rt' = rt) ∨
      (JS_IsObject value = true ∧ ∃ rt₁,
        E.toIndex (E.getPropertyStr rt value "length").2 value = (none, rt₁) ∧
        rt' = rt₁.JS_FreeValue (E.getPropertyStr rt value "length").1) ∨
      (JS_IsObject value = true ∧ ∃ size rt₁ rt₂,
        E.toIndex (E.getPropertyStr rt value "length").2 value = (some size, rt₁) ∧
        arrayLoop E element value size 0 [] rt₁ = .returned a rt₂ ∧
        rt' = rt₂.JS_FreeValue (E.getPropertyStr rt value "length").1) := by
  unfold Array.initValue at h
  split_ifs at h with hobj
  · refine .inr ?_
    generalize E.getPropertyStr rt value "length" = read at h ⊢
    obtain ⟨length, rt₀⟩ := read
    dsimp only at h ⊢
    cases hindex : E.toIndex rt₀ value with
    | mk size rt₁ =>
      rw [hindex] at h
      cases size with
      | none =>
        cases h
        exact .inl ⟨hobj, rt₁, rfl, rfl⟩
      | some size =>
        dsimp only at h
        cases hloop : arrayLoop E element value size 0 [] rt₁ with
        | trapped =>
          rw [hloop] at h
          cases h
        | returned a' rt₂ =>
          rw [hloop] at h
          cases h
          exact .inr ⟨hobj, size, rt₁, rt₂, rfl, hloop, rfl⟩
  · cases h
    exact .inl ⟨Bool.eq_false_iff.mpr hobj, rfl⟩

end QuickJSSwift.Decode
