/-
Runs of a state machine.

A run is a list of steps taken from a state; `step` is total. `Always P` says that `P`
holds in every state along the run, the first and the last included, and `Meets C` that
every step meets its condition `C` in the state in which it is taken.

The rules go from one step to whole runs. `always_of_meets` is the usual rule of
invariants. `always_iff_meets` is the exact form: where, in a good state, a step leads to
a good state exactly if it meets its condition, a run stays good exactly if all of its
steps meet theirs. Facts that hold of every reachable state no matter what the steps do
are carried along as a second invariant `W`.
-/
import Mathlib.Tactic.Common

set_option autoImplicit false

namespace Run

variable {σ α : Type*} {step : σ → α → σ} {P W : σ → Prop} {C : σ → α → Prop}

/-- The state after a run. -/
def exec (step : σ → α → σ) (s : σ) (as : List α) : σ := as.foldl step s

/-- `P` holds in every state along the run. -/
def Always (step : σ → α → σ) (P : σ → Prop) : σ → List α → Prop
  | s, [] => P s
  | s, a :: as => P s ∧ Always step P (step s a) as

/-- Every step of the run meets its condition. -/
def Meets (step : σ → α → σ) (C : σ → α → Prop) : σ → List α → Prop
  | _, [] => True
  | s, a :: as => C s a ∧ Meets step C (step s a) as

theorem exec_cons (s : σ) (a : α) (as : List α) :
    exec step s (a :: as) = exec step (step s a) as := rfl

theorem exec_append (s : σ) (as bs : List α) :
    exec step s (as ++ bs) = exec step (exec step s as) bs := List.foldl_append

theorem meets_append {s : σ} {as bs : List α} :
    Meets step C s (as ++ bs) ↔ Meets step C s as ∧ Meets step C (exec step s as) bs := by
  induction as generalizing s with
  | nil => exact (and_iff_right trivial).symm
  | cons a as ih =>
    rw [List.cons_append, Meets, Meets, ih, exec_cons, and_assoc]

theorem Always.last {s : σ} {as : List α} (h : Always step P s as) : P (exec step s as) := by
  induction as generalizing s with
  | nil => exact h
  | cons a as ih => exact ih h.2

theorem Always.imp {Q : σ → Prop} (h : ∀ s, P s → Q s) {s : σ} {as : List α}
    (hs : Always step P s as) : Always step Q s as := by
  induction as generalizing s with
  | nil => exact h s hs
  | cons a as ih => exact ⟨h s hs.1, ih hs.2⟩

theorem always_of_forall (h : ∀ s, P s) (s : σ) (as : List α) : Always step P s as := by
  induction as generalizing s with
  | nil => exact h s
  | cons a as ih => exact ⟨h s, ih (step s a)⟩

/-- What every step preserves holds after every run. -/
theorem exec_invariant (hstep : ∀ s a, W s → W (step s a)) {s : σ} (hs : W s) (as : List α) :
    W (exec step s as) := by
  induction as generalizing s with
  | nil => exact hs
  | cons a as ih => exact ih (hstep s a hs)

/-- A run whose steps meet their conditions keeps the invariant. -/
theorem always_of_meets (hstep : ∀ s a, P s → C s a → P (step s a)) {s : σ} {as : List α}
    (hs : P s) (h : Meets step C s as) : Always step P s as := by
  induction as generalizing s with
  | nil => exact hs
  | cons a as ih => exact ⟨hs, ih (hstep s a hs h.1) h.2⟩

/-- A run stays good exactly if its first state is and all of its steps meet their
conditions. -/
theorem always_iff_meets (hwf : ∀ s a, W s → W (step s a))
    (hstep : ∀ s a, W s → P s → (P (step s a) ↔ C s a)) {s : σ} {as : List α} (hs : W s) :
    Always step P s as ↔ P s ∧ Meets step C s as := by
  induction as generalizing s with
  | nil => exact ⟨fun h => ⟨h, trivial⟩, fun h => h.1⟩
  | cons a as ih =>
    rw [Always, Meets, ih (hwf s a hs)]
    constructor
    · rintro ⟨hP, hnext, hrest⟩
      exact ⟨hP, (hstep s a hs hP).mp hnext, hrest⟩
    · rintro ⟨hP, hC, hrest⟩
      exact ⟨hP, (hstep s a hs hP).mpr hC, hrest⟩

/-- A loss that no step makes good. Where a step that meets its condition leads from a
good state to a good one, and any other step loses something, a run that starts well ends
without a loss exactly if all of its steps meet their conditions; and then it ends well. -/
theorem not_lost_iff_meets {L : σ → Prop} (hwf : ∀ s a, W s → W (step s a))
    (hlost : ∀ s a, W s → L s → L (step s a))
    (hstep : ∀ s a, W s → P s → C s a → P (step s a))
    (hfail : ∀ s a, W s → P s → ¬ C s a → L (step s a))
    (hgood : ∀ s, P s → ¬ L s) {s : σ} (hs : W s) (hP : P s) (as : List α) :
    (¬ L (exec step s as) ↔ Meets step C s as) ∧ (Meets step C s as → P (exec step s as)) := by
  induction as generalizing s with
  | nil => exact ⟨iff_of_true (hgood s hP) trivial, fun _ => hP⟩
  | cons a as ih =>
    rw [exec_cons, Meets]
    by_cases hC : C s a
    · obtain ⟨hiff, hend⟩ := ih (hwf s a hs) (hstep s a hs hP hC)
      exact ⟨hiff.trans (and_iff_right hC).symm, fun h => hend h.2⟩
    · -- What this step loses stays lost.
      refine ⟨iff_of_false (fun hnot => hnot ?_) (fun h => hC h.1), fun h => absurd h.1 hC⟩
      have hstays := exec_invariant (fun s a (h : W s ∧ L s) => ⟨hwf s a h.1, hlost s a h.1 h.2⟩)
        ⟨hwf s a hs, hfail s a hs hP hC⟩ as
      exact hstays.2

end Run
