/-
Reference counts with owners.

A reference count says how many references to a cell there are, not who holds them.
A `Ledger` keeps both: the count of each cell, and for each owner the number of
references it holds, with the proof that the counts are the totals. An owner can gain
a reference, give one up, or hand one over to another owner; it cannot give up one it
does not hold, so `release` and `transfer` are partial.

A cell is live while its count is positive. What one owner does leaves the tallies of
the others alone, which is what makes statements of the form "the count is the number
of the other owners plus one" provable step by step.
-/
import Mathlib.Algebra.BigOperators.Group.Finset.Basic
import Mathlib.Algebra.BigOperators.Group.Finset.Piecewise
import Mathlib.Algebra.Order.BigOperators.Group.Finset
import Mathlib.Tactic.Common

set_option autoImplicit false

namespace RefCount

variable {Owner Cell : Type*} [Fintype Owner]

/-- Counts and the owners that account for them. -/
structure Ledger (Owner Cell : Type*) [Fintype Owner] where
  count : Cell → ℕ
  refs : Owner → Cell → ℕ
  accounted : ∀ c, count c = ∑ o, refs o c

namespace Ledger

/-- A cell is live while some reference to it exists. -/
def Live (L : Ledger Owner Cell) (c : Cell) : Prop := 0 < L.count c

instance (L : Ledger Owner Cell) (c : Cell) : Decidable (L.Live c) :=
  inferInstanceAs (Decidable (0 < L.count c))

/-- Nothing is allocated. -/
def empty : Ledger Owner Cell where
  count := fun _ => 0
  refs := fun _ _ => 0
  accounted := by simp

theorem refs_le_count (L : Ledger Owner Cell) (o : Owner) (c : Cell) : L.refs o c ≤ L.count c := by
  rw [L.accounted c]
  exact Finset.single_le_sum (f := fun o => L.refs o c) (fun _ _ => Nat.zero_le _)
    (Finset.mem_univ o)

section

variable [DecidableEq Owner]

/-- The references to a cell that are not `o`'s. -/
def others (L : Ledger Owner Cell) (o : Owner) (c : Cell) : ℕ :=
  ∑ o' ∈ Finset.univ.erase o, L.refs o' c

theorem count_eq_others_add (L : Ledger Owner Cell) (o : Owner) (c : Cell) :
    L.count c = L.others o c + L.refs o c := by
  rw [L.accounted c, others, Finset.sum_erase_add _ _ (Finset.mem_univ o)]

end

variable [DecidableEq Owner] [DecidableEq Cell]

/-- One at `(o, c)`. -/
def unit (o : Owner) (c : Cell) (o' : Owner) (c' : Cell) : ℕ := if o' = o ∧ c' = c then 1 else 0

theorem sum_unit (o : Owner) (c c' : Cell) :
    ∑ o', unit o c o' c' = if c' = c then 1 else 0 := by
  by_cases hc : c' = c
  · simp [unit, hc]
  · simp [unit, hc]

/-- `o` gains a reference to `c`. -/
def acquire (L : Ledger Owner Cell) (o : Owner) (c : Cell) : Ledger Owner Cell where
  count := fun c' => L.count c' + if c' = c then 1 else 0
  refs := fun o' c' => L.refs o' c' + unit o c o' c'
  accounted := by
    intro c'
    rw [Finset.sum_add_distrib, sum_unit, L.accounted c']

/-- `o` gives a reference to `c` up, if it holds one. -/
def release (L : Ledger Owner Cell) (o : Owner) (c : Cell) : Option (Ledger Owner Cell) :=
  if h : 0 < L.refs o c then
    some
      { count := fun c' => L.count c' - if c' = c then 1 else 0
        refs := fun o' c' => L.refs o' c' - unit o c o' c'
        accounted := by
          intro c'
          have hle : ∀ o' ∈ Finset.univ, unit o c o' c' ≤ L.refs o' c' := by
            intro o' _
            unfold unit
            split_ifs with heq
            · rw [heq.1, heq.2]
              exact h
            · exact Nat.zero_le _
          rw [Finset.sum_tsub_distrib _ hle, sum_unit, L.accounted c'] }
  else none

/-- `o` hands a reference to `c` over to `o'`. -/
def transfer (L : Ledger Owner Cell) (o o' : Owner) (c : Cell) : Option (Ledger Owner Cell) :=
  (L.release o c).map (fun L' => L'.acquire o' c)

variable {L L' : Ledger Owner Cell} {o : Owner} {c : Cell}

/-! ## What the operations change -/

theorem count_acquire (L : Ledger Owner Cell) (o : Owner) (c c' : Cell) :
    (L.acquire o c).count c' = L.count c' + if c' = c then 1 else 0 := rfl

theorem refs_acquire (L : Ledger Owner Cell) (o o' : Owner) (c c' : Cell) :
    (L.acquire o c).refs o' c' = L.refs o' c' + unit o c o' c' := rfl

/-- Everything a release does. -/
theorem release_spec (h : L.release o c = some L') :
    (∀ c', L'.count c' + (if c' = c then 1 else 0) = L.count c') ∧
      ∀ o' c', L'.refs o' c' + unit o c o' c' = L.refs o' c' := by
  unfold release at h
  split_ifs at h with hpos
  rw [← Option.some_inj.mp h]
  constructor
  · intro c'
    have hle := L.refs_le_count o c
    dsimp only
    split_ifs with heq
    · rw [heq]
      omega
    · omega
  · intro o' c'
    dsimp only
    unfold unit
    split_ifs with heq
    · rw [heq.1, heq.2]
      omega
    · omega

/-- A release succeeds for an owner that holds a reference. -/
theorem release_isSome (h : 0 < L.refs o c) : ∃ L', L.release o c = some L' := by
  unfold release
  rw [dif_pos h]
  exact ⟨_, rfl⟩

/-- Everything a transfer does: the counts stay. -/
theorem transfer_spec {o' : Owner} (h : L.transfer o o' c = some L') :
    (∀ c', L'.count c' = L.count c') ∧
      ∀ o'' c', L'.refs o'' c' + unit o c o'' c' = L.refs o'' c' + unit o' c o'' c' := by
  obtain ⟨L₁, hL₁, rfl⟩ := Option.map_eq_some_iff.mp h
  obtain ⟨hcount, hrefs⟩ := release_spec hL₁
  constructor
  · intro c'
    rw [count_acquire, hcount]
  · intro o'' c'
    have := hrefs o'' c'
    rw [refs_acquire]
    omega

end Ledger

end RefCount
