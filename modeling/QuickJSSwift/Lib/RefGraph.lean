/-
References as a finite multigraph.

A node holds a list of references, repetitions included, to other nodes; `indeg A q` is
how many of them, over the nodes of a finite set `A`, point to `q`. Counting them is what
a reference count does for the references inside a heap, and the rest of the count is the
references held from outside, the `ext` of a node.

`Reachable` is reachability from the nodes that are referred to from outside. Two facts
connect the counts with it. A set that contains the roots and is closed under references
contains all that is reachable; and a set of nodes outside a closed set is referred to
only from outside that closed set, so where every node of it has a reference, a node of
greatest rank in it has one from a node of no greater rank.
-/
import Mathlib.Algebra.BigOperators.Group.Finset.Basic
import Mathlib.Algebra.Order.BigOperators.Group.Finset
import Mathlib.Data.Finset.Max
import Mathlib.Logic.Relation
import Mathlib.Tactic.Common

set_option autoImplicit false

namespace RefGraph

variable {V : Type*} [DecidableEq V] {out : V → List V} {A B : Finset V} {p q : V}

/-- The references to `q` held by the nodes of `A`. -/
def indeg (out : V → List V) (A : Finset V) (q : V) : ℕ := ∑ p ∈ A, (out p).count q

@[simp] theorem indeg_empty (out : V → List V) (q : V) : indeg out ∅ q = 0 := rfl

/-- The references of one node, taken out of the sum. -/
theorem indeg_erase (hp : p ∈ A) :
    indeg out A q = indeg out (A.erase p) q + (out p).count q :=
  (Finset.sum_erase_add A (fun p => (out p).count q) hp).symm

theorem indeg_insert (hp : p ∉ A) :
    indeg out (insert p A) q = (out p).count q + indeg out A q :=
  Finset.sum_insert hp

theorem indeg_congr {out' : V → List V} (h : ∀ p ∈ A, (out p).count q = (out' p).count q) :
    indeg out A q = indeg out' A q :=
  Finset.sum_congr rfl h

theorem indeg_pos : 0 < indeg out A q ↔ ∃ p ∈ A, q ∈ out p := by
  rw [indeg, Nat.pos_iff_ne_zero, Ne, Finset.sum_eq_zero_iff]
  simp only [List.count_eq_zero, not_forall, not_not, exists_prop]

theorem mem_of_indeg_eq_zero (h : indeg out A q = 0) (hp : p ∈ A) : q ∉ out p := by
  intro hq
  have := indeg_pos.mpr ⟨p, hp, hq⟩
  omega

theorem indeg_union_of_disjoint (h : Disjoint A B) :
    indeg out (A ∪ B) q = indeg out A q + indeg out B q :=
  Finset.sum_union h

/-! ## Reachability from outside -/

/-- Reachable from a node that is referred to from outside. -/
def Reachable (out : V → List V) (ext : V → ℕ) (q : V) : Prop :=
  ∃ r, 0 < ext r ∧ Relation.ReflTransGen (fun p q => q ∈ out p) r q

omit [DecidableEq V] in
theorem Reachable.root {ext : V → ℕ} (h : 0 < ext p) : Reachable out ext p := ⟨p, h, .refl⟩

omit [DecidableEq V] in
theorem Reachable.tail {ext : V → ℕ} (h : Reachable out ext p) (hq : q ∈ out p) :
    Reachable out ext q := by
  obtain ⟨r, hr, hpath⟩ := h
  exact ⟨r, hr, hpath.tail hq⟩

omit [DecidableEq V] in
/-- What is reachable is referred to from outside or by something reachable. -/
theorem Reachable.root_or_tail {ext : V → ℕ} (h : Reachable out ext q) :
    0 < ext q ∨ ∃ p, Reachable out ext p ∧ q ∈ out p := by
  obtain ⟨r, hr, hpath⟩ := h
  cases hpath with
  | refl => exact .inl hr
  | tail hbefore hedge => exact .inr ⟨_, ⟨r, hr, hbefore⟩, hedge⟩

omit [DecidableEq V] in
/-- What contains the roots and is closed under references contains all that is reachable. -/
theorem Reachable.mem_of_closed {ext : V → ℕ} {S : V → Prop} (h : Reachable out ext q)
    (hroot : ∀ p, 0 < ext p → S p) (hclosed : ∀ p q, S p → q ∈ out p → S q) : S q := by
  obtain ⟨r, hr, hpath⟩ := h
  induction hpath with
  | refl => exact hroot r hr
  | tail _ hedge ih => exact hclosed _ _ ih hedge

omit [DecidableEq V] in
/-- Reachability looks only at the references of what is reachable. -/
theorem Reachable.congr {out' : V → List V} {ext : V → ℕ}
    (h : ∀ p, Reachable out ext p → out p = out' p) (hq : Reachable out ext q) :
    Reachable out' ext q := by
  obtain ⟨r, hr, hpath⟩ := hq
  induction hpath with
  | refl => exact .root hr
  | tail hbefore hedge ih =>
    refine ih.tail ?_
    rw [← h _ ⟨r, hr, hbefore⟩]
    exact hedge

/-- A finite set in which every node is referred to by one of greater rank is empty. -/
theorem eq_empty_of_ranked {G : Finset V} (rank : V → ℕ)
    (h : ∀ q ∈ G, ∃ p ∈ G, rank q < rank p) : G = ∅ := by
  by_contra hne
  obtain ⟨p, hp, hmax⟩ := G.exists_max_image rank (Finset.nonempty_iff_ne_empty.mpr hne)
  obtain ⟨p', hp', hlt⟩ := h p hp
  have := hmax p' hp'
  omega

end RefGraph
