/-
What a stateful computation leaves of its state.

Imperative code that fails half way leaves the state it had reached. `EStateM` is such
code: it ends with a value or a failure, and with a state in both cases. `Respects R x`
says that, however `x` ends, the state it ends with is related by `R` to the state it
began with. For a reflexive and transitive `R` the rules follow the shape of the code, so
a two-state fact about a large recursive program is proved one construct at a time.

`Extends R` is the relation for code that keeps a list of records: what was in the list
is still there, in the same order, each record related by `R` to what it was, and what is
new stands behind it.
-/
import Mathlib.Data.List.Forall2
import Mathlib.Order.Defs.Unbundled

set_option autoImplicit false

namespace Evolution

/-! ## Computations -/

section Respects

variable {ε σ α β : Type} {R : σ → σ → Prop}

/-- The state a computation ends with. -/
def final (x : EStateM ε σ α) (s : σ) : σ :=
  match x s with
  | .ok _ s' => s'
  | .error _ s' => s'

/-- However the computation ends, its last state is related to its first. -/
def Respects (R : σ → σ → Prop) (x : EStateM ε σ α) : Prop := ∀ s, R s (final x s)

/-- `x`, and `cleanup` where `x` fails in a way that is caught. -/
def onFailure (x : EStateM ε σ α) (caught : ε → Bool) (cleanup : σ → σ) : EStateM ε σ α :=
  fun s =>
    match x s with
    | .ok a s' => .ok a s'
    | .error e s' => .error e (if caught e then cleanup s' else s')

theorem final_of_ok {x : EStateM ε σ α} {s s' : σ} {a : α} (h : x s = .ok a s') :
    final x s = s' := by
  unfold final
  rw [h]

theorem final_of_error {x : EStateM ε σ α} {s s' : σ} {e : ε} (h : x s = .error e s') :
    final x s = s' := by
  unfold final
  rw [h]

theorem bind_of_ok {x : EStateM ε σ α} {s s' : σ} {a : α} (h : x s = .ok a s')
    (f : α → EStateM ε σ β) : (x >>= f) s = f a s' := by
  change EStateM.bind x f s = _
  unfold EStateM.bind
  rw [h]

theorem bind_of_error {x : EStateM ε σ α} {s s' : σ} {e : ε} (h : x s = .error e s')
    (f : α → EStateM ε σ β) : (x >>= f) s = .error e s' := by
  change EStateM.bind x f s = _
  unfold EStateM.bind
  rw [h]

theorem final_bind (x : EStateM ε σ α) (f : α → EStateM ε σ β) (s : σ) :
    final (x >>= f) s =
      match x s with
      | .ok a s' => final (f a) s'
      | .error _ s' => s' := by
  cases h : x s with
  | ok a s' =>
    unfold final
    rw [bind_of_ok h]
  | error e s' =>
    unfold final
    rw [bind_of_error h]

theorem final_bind_pure (x : EStateM ε σ α) (f : α → β) (s : σ) :
    final (x >>= fun a => pure (f a)) s = final x s := by
  rw [final_bind]
  unfold final
  cases x s <;> rfl

theorem onFailure_of_ok {x : EStateM ε σ α} {s s' : σ} {a : α} (h : x s = .ok a s')
    (caught : ε → Bool) (cleanup : σ → σ) : onFailure x caught cleanup s = .ok a s' := by
  unfold onFailure
  rw [h]

theorem onFailure_of_error {x : EStateM ε σ α} {s s' : σ} {e : ε} (h : x s = .error e s')
    (caught : ε → Bool) (cleanup : σ → σ) :
    onFailure x caught cleanup s = .error e (if caught e then cleanup s' else s') := by
  unfold onFailure
  rw [h]

theorem final_onFailure (x : EStateM ε σ α) (caught : ε → Bool) (cleanup : σ → σ) (s : σ) :
    final (onFailure x caught cleanup) s = final x s ∨
      final (onFailure x caught cleanup) s = cleanup (final x s) := by
  unfold final onFailure
  cases x s with
  | ok a s' => exact Or.inl rfl
  | error e s' =>
    dsimp only
    split_ifs
    · exact Or.inr rfl
    · exact Or.inl rfl

theorem respects_pure [Std.Refl R] (a : α) : Respects R (pure a : EStateM ε σ α) := by
  intro s
  exact refl_of R s

theorem respects_throw [Std.Refl R] (e : ε) : Respects R (throw e : EStateM ε σ α) := by
  intro s
  exact refl_of R s

theorem respects_bind [IsTrans σ R] {x : EStateM ε σ α} {f : α → EStateM ε σ β} (hx : Respects R x)
    (hf : ∀ a, Respects R (f a)) : Respects R (x >>= f) := by
  intro s
  rw [final_bind]
  have hxs := hx s
  cases h : x s with
  | ok a s' =>
    rw [final_of_ok h] at hxs
    exact trans_of R hxs (hf a s')
  | error e s' =>
    rw [final_of_error h] at hxs
    exact hxs

theorem respects_ite {c : Prop} [Decidable c] {x y : EStateM ε σ α} (hx : Respects R x)
    (hy : Respects R y) : Respects R (if c then x else y) := by
  split_ifs
  · exact hx
  · exact hy

/-- A loop respects what its body respects. -/
theorem respects_forM [Std.Refl R] [IsTrans σ R] {l : List β} {f : β → EStateM ε σ PUnit}
    (hf : ∀ b, Respects R (f b)) : Respects R (l.forM f) := by
  induction l with
  | nil => exact respects_pure PUnit.unit
  | cons b l ih => exact respects_bind (hf b) (fun _ => ih)

theorem respects_onFailure [IsTrans σ R] {x : EStateM ε σ α} {caught : ε → Bool}
    {cleanup : σ → σ} (hx : Respects R x) (hc : ∀ s, R s (cleanup s)) :
    Respects R (onFailure x caught cleanup) := by
  intro s
  rcases final_onFailure x caught cleanup s with h | h
  · rw [h]
    exact hx s
  · rw [h]
    exact trans_of R (hx s) (hc _)

end Respects

/-! ## Lists that grow -/

section Extends

variable {α : Type} {R : α → α → Prop}

/-- The old records, changed at most as `R` allows, and new ones behind them. -/
def Extends (R : α → α → Prop) (l l' : List α) : Prop :=
  ∃ old new, l' = old ++ new ∧ List.Forall₂ R l old

theorem Extends.append [Std.Refl R] (l r : List α) : Extends R l (l ++ r) :=
  ⟨l, r, rfl, List.forall₂_refl l⟩

theorem Extends.refl [Std.Refl R] (l : List α) : Extends R l l :=
  ⟨l, [], (List.append_nil l).symm, List.forall₂_refl l⟩

theorem Extends.trans [IsTrans α R] {l₁ l₂ l₃ : List α} (h : Extends R l₁ l₂)
    (h' : Extends R l₂ l₃) : Extends R l₁ l₃ := by
  obtain ⟨old, new, rfl, hold⟩ := h
  obtain ⟨old', new', rfl, hold'⟩ := h'
  refine ⟨old'.take old.length, old'.drop old.length ++ new', ?_, ?_⟩
  · rw [← List.append_assoc, List.take_append_drop]
  · have hfirst : List.Forall₂ R old (old'.take old.length) := by
      have := List.forall₂_take old.length hold'
      rwa [List.take_left] at this
    clear hold'
    induction hold generalizing old' with
    | nil => exact List.Forall₂.nil
    | cons hab _ ih =>
      cases old' with
      | nil => cases hfirst
      | cons c old' =>
        rw [List.length_cons, List.take_succ_cons] at hfirst ⊢
        cases hfirst with
        | cons hbc hrest => exact List.Forall₂.cons (trans_of R hab hbc) (ih old' hrest)

theorem Extends.map {f : α → α} (hf : ∀ a, R a (f a)) (l : List α) :
    Extends R l (l.map f) := by
  refine ⟨l.map f, [], (List.append_nil _).symm, ?_⟩
  rw [List.forall₂_map_right_iff]
  exact List.forall₂_same.mpr (fun a _ => hf a)

/-- Changing only new records. -/
theorem Extends.map_new {l l' : List α} (h : Extends R l l') {f : α → α}
    (hf : ∀ a ∈ l, ∀ b, R a b → f b = b) : Extends R l (l'.map f) := by
  obtain ⟨old, new, rfl, hold⟩ := h
  refine ⟨old, new.map f, ?_, hold⟩
  rw [List.map_append]
  congr 1
  induction hold with
  | nil => rfl
  | cons hab _ ih =>
    rw [List.map_cons, hf _ List.mem_cons_self _ hab,
      ih (fun a ha => hf a (List.mem_cons_of_mem _ ha))]

/-- Removing only new records. -/
theorem Extends.filter_new {l l' : List α} (h : Extends R l l') {q : α → Bool}
    (hq : ∀ a ∈ l, ∀ b, R a b → q b = true) : Extends R l (l'.filter q) := by
  obtain ⟨old, new, rfl, hold⟩ := h
  refine ⟨old, new.filter q, ?_, hold⟩
  rw [List.filter_append]
  congr 1
  induction hold with
  | nil => rfl
  | cons hab _ ih =>
    rw [List.filter_cons_of_pos (hq _ List.mem_cons_self _ hab),
      ih (fun a ha => hq a (List.mem_cons_of_mem _ ha))]

/-- The first record of a kind stays the first of its kind. -/
theorem Extends.find? {l l' : List α} (h : Extends R l l') {q : α → Bool}
    (hq : ∀ a b, R a b → q b = q a) {a : α} (ha : l.find? q = some a) :
    ∃ b, l'.find? q = some b ∧ R a b := by
  obtain ⟨old, new, rfl, hold⟩ := h
  induction hold with
  | nil => exact absurd ha (by simp)
  | @cons a₀ b₀ l₀ old₀ hab _ ih =>
    rw [List.cons_append]
    by_cases hpos : q a₀ = true
    · rw [List.find?_cons_of_pos hpos, Option.some_inj] at ha
      subst ha
      exact ⟨b₀, List.find?_cons_of_pos ((hq _ _ hab).trans hpos), hab⟩
    · rw [List.find?_cons_of_neg hpos] at ha
      obtain ⟨b, hb, hR⟩ := ih ha
      refine ⟨b, ?_, hR⟩
      rw [List.find?_cons_of_neg (by rwa [hq _ _ hab])]
      exact hb

end Extends

end Evolution
