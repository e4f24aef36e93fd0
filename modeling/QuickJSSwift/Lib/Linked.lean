/-
Singly linked lists in an array.

A node is an index, its successor is kept in the node, and 0 is the end of a list and no
node. `Links next h l` says that the list that starts at `h` has the nodes `l`. The list is
determined by its start, and so it has no repetitions.

The operations are those of a hash table with chains and of a list of free slots: a node
is put in front, the first node is taken off, a node further down is taken out by its
predecessor. Each changes one successor, and a list that does not have the changed node in
it stays as it is. The two loops follow a list until a node is found; they are bounded, and
as many turns as the list has nodes are enough.
-/
import Mathlib.Data.List.Nodup
import Mathlib.Data.List.Perm.Subperm
import Mathlib.Logic.Function.Basic
import Mathlib.Tactic.Common

set_option autoImplicit false

namespace Linked

/-- The nodes of the list that starts at an index. -/
def Links (next : ℕ → Option ℕ) : ℕ → List ℕ → Prop
  | h, [] => h = 0
  | h, i :: l => h = i ∧ i ≠ 0 ∧ ∃ j, next i = some j ∧ Links next j l

section Lists

variable {next next' : ℕ → Option ℕ} {h i j p : ℕ} {l l' a b : List ℕ}

theorem Links.head (hl : Links next h (i :: l)) : h = i := hl.1

theorem Links.ne_zero (hl : Links next h l) (hi : i ∈ l) : i ≠ 0 := by
  induction l generalizing h with
  | nil => simp at hi
  | cons x l ih =>
    obtain ⟨-, hx, j, -, hrest⟩ := hl
    rcases List.mem_cons.mp hi with rfl | hi
    · exact hx
    · exact ih hrest hi

theorem Links.tail (hl : Links next h (i :: l)) (hj : next i = some j) : Links next j l := by
  obtain ⟨-, -, j', hj', hrest⟩ := hl
  obtain rfl := Option.some.inj (hj'.symm.trans hj)
  exact hrest

/-- A list is determined by its start. -/
theorem Links.unique (hl : Links next h l) (hl' : Links next h l') : l = l' := by
  induction l generalizing h l' with
  | nil =>
    cases l' with
    | nil => rfl
    | cons i l' => exact absurd (hl'.1.symm.trans hl) hl'.2.1
  | cons i l ih =>
    cases l' with
    | nil => exact absurd (hl.1.symm.trans hl') hl.2.1
    | cons i' l' =>
      obtain ⟨rfl, -, j, hj, hrest⟩ := hl
      have hi := hl'.head
      rw [← hi] at hl' ⊢
      rw [ih hrest (hl'.tail hj)]

/-- What follows a node of the list. -/
theorem Links.suffix (hl : Links next h (a ++ i :: b)) : Links next i (i :: b) := by
  induction a generalizing h with
  | nil =>
    obtain ⟨rfl, hrest⟩ := hl
    exact ⟨rfl, hrest⟩
  | cons x a ih =>
    obtain ⟨-, -, j, -, hrest⟩ := hl
    exact ih hrest

theorem Links.nodup (hl : Links next h l) : l.Nodup := by
  induction l generalizing h with
  | nil => exact List.nodup_nil
  | cons i l ih =>
    obtain ⟨rfl, hne, j, hj, hrest⟩ := hl
    refine List.nodup_cons.mpr ⟨fun hi => ?_, ih hrest⟩
    -- The list from a node that comes again would be shorter than itself.
    obtain ⟨a, b, rfl⟩ := List.append_of_mem hi
    have hself : Links next h (h :: (a ++ h :: b)) := ⟨rfl, hne, j, hj, hrest⟩
    have heq := hself.unique hrest.suffix
    have hlen := congrArg List.length heq
    simp at hlen
    omega

/-- Where the successors of the nodes are the same, so is the list. -/
theorem Links.congr (hl : Links next h l) (hsame : ∀ i ∈ l, next' i = next i) :
    Links next' h l := by
  induction l generalizing h with
  | nil => exact hl
  | cons i l ih =>
    obtain ⟨hh, hne, j, hj, hrest⟩ := hl
    refine ⟨hh, hne, j, ?_, ih hrest fun x hx => hsame x (List.mem_cons_of_mem i hx)⟩
    rw [hsame i (by simp), hj]

/-- The successor of something that is not in the list is changed. -/
theorem Links.update (hl : Links next h l) (hi : i ∉ l) (v : Option ℕ) :
    Links (Function.update next i v) h l :=
  hl.congr fun x hx => Function.update_of_ne (fun e => hi (by rwa [← e])) _ _

/-- A node is put in front. -/
theorem Links.push (hl : Links next h l) (hi : i ∉ l) (hne : i ≠ 0) :
    Links (Function.update next i (some h)) i (i :: l) :=
  ⟨rfl, hne, h, Function.update_self .., hl.update hi _⟩

/-- A node is taken out: its predecessor gets its successor. -/
theorem Links.unlink (hl : Links next h (a ++ p :: i :: b)) (hj : next i = some j) :
    Links (Function.update next p (some j)) h (a ++ p :: b) := by
  induction a generalizing h with
  | nil =>
    have hnd := hl.nodup
    obtain ⟨hh, hne, k, hk, hrest⟩ := hl
    have hp : p ∉ b := by
      simp only [List.nil_append, List.nodup_cons, List.mem_cons, not_or] at hnd
      exact hnd.1.2
    exact ⟨hh, hne, j, Function.update_self .., (hrest.tail hj).update hp _⟩
  | cons x a ih =>
    have hnd := hl.nodup
    obtain ⟨hh, hne, k, hk, hrest⟩ := hl
    have hxp : x ≠ p := by
      rintro rfl
      simp at hnd
    exact ⟨hh, hne, k, by rw [Function.update_of_ne hxp, hk], ih hrest⟩

/-- A list of indices below a bound is no longer than the bound. -/
theorem Links.length_le {n : ℕ} (hl : Links next h l) (hn : ∀ i ∈ l, i < n) : l.length ≤ n := by
  have hsub : l ⊆ List.range n := fun i hi => List.mem_range.mpr (hn i hi)
  have hle := (hl.nodup.subperm hsub).length_le
  rwa [List.length_range] at hle

end Lists

/-! ## Following a list -/

section Walk

variable {β : Type} (get : ℕ → Option β) (succ : β → ℕ)

/-- The successors. -/
def nexts : ℕ → Option ℕ := fun i => (get i).map succ

/-- The loop `while (i != 0) { p = a[i]; if (stop) break; i = p->next; }`, with the `i` at
which it ends. -/
def walk (stop : ℕ → β → Bool) : ℕ → ℕ → Option ℕ
  | n, i =>
    if i = 0 then some 0
    else match n with
      | 0 => none
      | n + 1 => do
        let p ← get i
        if stop i p then some i else walk stop n (succ p)

/-- The loop that looks for the predecessor of a node, from the node `i` on; running into the
end is an error. -/
def walkBefore (target : ℕ) : ℕ → ℕ → Option ℕ
  | 0, _ => none
  | n + 1, i => do
    let p ← get i
    if succ p = target then some i
    else if succ p = 0 then none
    else walkBefore target n (succ p)

variable {get succ} {h : ℕ} {l a b : List ℕ}

/-- The loop finds the first node at which it stops, or the end. -/
theorem walk_eq (stop : ℕ → β → Bool) (hl : Links (nexts get succ) h l) {n : ℕ}
    (hn : l.length ≤ n) :
    walk get succ stop n h = some ((l.find? fun i => (get i).any (stop i)).getD 0) := by
  induction l generalizing h n with
  | nil =>
    obtain rfl : h = 0 := hl
    unfold walk
    rfl
  | cons i l ih =>
    obtain ⟨rfl, hne, j, hj, hrest⟩ := hl
    obtain ⟨p, hp, rfl⟩ := Option.map_eq_some_iff.mp hj
    cases n with
    | zero => simp at hn
    | succ n =>
      have hany : (get h).any (stop h) = stop h p := by
        rw [hp]
        rfl
      rw [walk, if_neg hne, List.find?_cons, hany, hp]
      by_cases hstop : stop h p
      · simp [hstop]
      · simp only [Option.bind_eq_bind, Option.bind_some, hstop, Bool.false_eq_true, if_false]
        exact ih hrest (by simpa using hn)

/-- What the end of the loop says. -/
theorem walk_spec (stop : ℕ → β → Bool) (hl : Links (nexts get succ) h l) {n : ℕ}
    (hn : l.length ≤ n) : ∃ i, walk get succ stop n h = some i ∧
      (i ≠ 0 → i ∈ l ∧ ∃ x, get i = some x ∧ stop i x) ∧
      (i = 0 → ∀ j ∈ l, ∀ x, get j = some x → ¬ stop j x) := by
  refine ⟨_, walk_eq stop hl hn, ?_⟩
  cases hf : l.find? fun i => (get i).any (stop i) with
  | none =>
    refine ⟨fun hne => absurd rfl hne, fun _ j hj x hx hs => ?_⟩
    have hnot := List.find?_eq_none.mp hf j hj
    rw [hx] at hnot
    exact hnot hs
  | some i =>
    have hi := List.mem_of_find?_eq_some hf
    refine ⟨fun _ => ⟨hi, ?_⟩, fun hz => absurd hz (hl.ne_zero hi)⟩
    have hs := List.find?_some hf
    cases hx : get i with
    | none => simp [hx] at hs
    | some x =>
      rw [hx] at hs
      exact ⟨x, hx, hs⟩

/-- The loop finds the predecessor. -/
theorem walkBefore_eq {p t : ℕ} (hl : Links (nexts get succ) h (a ++ p :: t :: b)) {n : ℕ}
    (hn : a.length < n) : walkBefore get succ t n h = some p := by
  induction a generalizing h n with
  | nil =>
    obtain ⟨rfl, -, j, hj, hrest⟩ := hl
    obtain ⟨x, hx, rfl⟩ := Option.map_eq_some_iff.mp hj
    obtain ⟨n, rfl⟩ := Nat.exists_eq_succ_of_ne_zero (Nat.ne_of_gt hn)
    simp [walkBefore, hx, hrest.head]
  | cons y a ih =>
    have hnd := hl.nodup
    obtain ⟨rfl, -, j, hj, hrest⟩ := hl
    obtain ⟨x, hx, rfl⟩ := Option.map_eq_some_iff.mp hj
    cases n with
    | zero => simp at hn
    | succ n =>
      -- The successor is in the list and before the target.
      have hmem : succ x ∈ a ++ [p] := by
        cases a with
        | nil =>
          rw [hrest.head]
          simp
        | cons z a =>
          rw [hrest.head]
          simp
      have hne : succ x ≠ t := by
        intro e
        rw [e] at hmem
        simp only [List.cons_append, List.nodup_cons, List.nodup_append, List.mem_append,
          List.mem_cons] at hnd hmem
        rcases hmem with hmem | hmem
        · exact hnd.2.2.2 t hmem t (.inr (.inl rfl)) rfl
        · have htp : t = p := by simpa using hmem
          exact hnd.2.2.1.1 (.inl htp.symm)
      have hzero : succ x ≠ 0 := by
        refine hrest.ne_zero ?_
        rcases List.mem_append.mp hmem with hm | hm
        · exact List.mem_append_left _ hm
        · refine List.mem_append_right _ ?_
          rw [List.mem_singleton] at hm
          simp [hm]
      simp only [walkBefore, hx, Option.bind_eq_bind, Option.bind_some, if_neg hne, if_neg hzero]
      exact ih hrest (by simpa using hn)

end Walk

end Linked
