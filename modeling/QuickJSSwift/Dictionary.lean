/-
Swift dictionaries with string keys, as `JSModule.properties` is one.

Two strings are the same key when they are canonically equivalent, and a dictionary is
enumerated in an order that nothing promises. Both are parameters: everything that is
proved about dictionaries holds for every notion of equivalence and every order.
-/
import Mathlib.Data.List.Nodup

set_option autoImplicit false

namespace QuickJSSwift

variable {α : Type}

/-- A dictionary from strings. -/
abbrev Dictionary (α : Type) := List (List Char × α)

/-- What the Swift library leaves open or takes from Unicode: two strings are equal when
their normal forms are, and a dictionary is enumerated in some order. -/
structure Stdlib where
  normalize : List Char → List Char
  order : {α : Type} → Dictionary α → Dictionary α
  order_perm : ∀ {α : Type} (d : Dictionary α), (order d).Perm d

namespace Stdlib

variable (swift : Stdlib)

/-- The dictionary has a key. -/
def HasKey (d : Dictionary α) (key : List Char) : Prop :=
  ∃ kv ∈ d, swift.normalize kv.1 = swift.normalize key

instance (d : Dictionary α) (key : List Char) : Decidable (swift.HasKey d key) :=
  inferInstanceAs (Decidable (∃ kv ∈ d, swift.normalize kv.1 = swift.normalize key))

/-- `d[key] = value`. A key that is present stays as it is spelled. -/
def set : Dictionary α → List Char → α → Dictionary α
  | [], key, value => [(key, value)]
  | (k, v) :: d, key, value =>
    if swift.normalize k = swift.normalize key then (k, value) :: d
    else (k, v) :: set d key value

/-- The keys of a dictionary differ. -/
def KeysNodup (d : Dictionary α) : Prop := (d.map (fun kv => swift.normalize kv.1)).Nodup

variable {swift}

/-- Enumerating a dictionary in order of insertion. -/
theorem perm_id (d : Dictionary α) : (id d).Perm d :=
  List.Perm.refl d

/-- Setting a key that is present replaces its value in place. -/
theorem set_of_present {d : Dictionary α} {key : List Char} (value : α)
    (h : swift.HasKey d key) :
    ∃ l k v r, d = l ++ (k, v) :: r ∧ swift.normalize k = swift.normalize key ∧
      swift.set d key value = l ++ (k, value) :: r := by
  induction d with
  | nil => exact absurd h (by simp [HasKey])
  | cons kv d ih =>
    obtain ⟨k, v⟩ := kv
    rw [set]
    by_cases hk : swift.normalize k = swift.normalize key
    · rw [if_pos hk]
      exact ⟨[], k, v, d, rfl, hk, rfl⟩
    · rw [if_neg hk]
      have hrest : swift.HasKey d key := by
        obtain ⟨kv, hmem, heq⟩ := h
        rcases List.mem_cons.mp hmem with rfl | hmem
        · exact absurd heq hk
        · exact ⟨kv, hmem, heq⟩
      obtain ⟨l, k', v', r, hd, hk', hset⟩ := ih hrest
      exact ⟨(k, v) :: l, k', v', r, by rw [hd]; rfl, hk', by rw [hset]; rfl⟩

/-- Setting a new key adds it. -/
theorem set_of_new {d : Dictionary α} {key : List Char} (value : α)
    (h : ¬ swift.HasKey d key) : swift.set d key value = d ++ [(key, value)] := by
  induction d with
  | nil => rfl
  | cons kv d ih =>
    obtain ⟨k, v⟩ := kv
    have hk : swift.normalize k ≠ swift.normalize key :=
      fun heq => h ⟨_, List.mem_cons_self, heq⟩
    rw [set, if_neg hk,
      ih (fun ⟨kv, hmem, heq⟩ => h ⟨kv, List.mem_cons_of_mem _ hmem, heq⟩)]
    rfl

theorem keysNodup_set {d : Dictionary α} (h : swift.KeysNodup d) (key : List Char) (value : α) :
    swift.KeysNodup (swift.set d key value) := by
  unfold KeysNodup at h ⊢
  by_cases hp : swift.HasKey d key
  · obtain ⟨l, k, v, r, hd, hk, hset⟩ := set_of_present value hp
    rw [hset]
    rw [hd] at h
    simpa using h
  · rw [set_of_new value hp, List.map_append, List.nodup_append]
    refine ⟨h, by simp, ?_⟩
    rintro a ha b hb rfl
    obtain ⟨kv, hkv, rfl⟩ := List.mem_map.mp ha
    exact hp ⟨kv, hkv, by simpa using hb⟩

/-- What is in a dictionary after a key has been set was there under another key, or is
the value. -/
theorem mem_set {d : Dictionary α} (hnodup : swift.KeysNodup d) {key : List Char} {value : α}
    {kv : List Char × α} (h : kv ∈ swift.set d key value) :
    (kv ∈ d ∧ swift.normalize kv.1 ≠ swift.normalize key) ∨
      (kv.2 = value ∧ swift.normalize kv.1 = swift.normalize key) := by
  by_cases hp : swift.HasKey d key
  · obtain ⟨l, k, v, r, hd, hk, hset⟩ := set_of_present value hp
    rw [hset] at h
    rw [KeysNodup, hd, List.map_append, List.map_cons, List.nodup_append, List.nodup_cons] at hnodup
    rw [hd]
    simp only [List.mem_append, List.mem_cons] at h ⊢
    rcases h with h | h | h
    · refine Or.inl ⟨Or.inl h, fun heq => ?_⟩
      exact hnodup.2.2 _ (List.mem_map.mpr ⟨kv, h, rfl⟩) _ List.mem_cons_self (heq.trans hk.symm)
    · exact Or.inr (by rw [h]; exact ⟨rfl, hk⟩)
    · refine Or.inl ⟨Or.inr (Or.inr h), fun heq => ?_⟩
      exact hnodup.2.1.1 (List.mem_map.mpr ⟨kv, h, heq.trans hk.symm⟩)
  · rw [set_of_new value hp] at h
    rcases List.mem_append.mp h with h | h
    · exact Or.inl ⟨h, fun heq => hp ⟨kv, h, heq⟩⟩
    · exact Or.inr (by rw [List.mem_singleton.mp h]; exact ⟨rfl, rfl⟩)

/-- Other keys keep their values. -/
theorem mem_set_of_ne {d : Dictionary α} {key : List Char} (value : α) {kv : List Char × α}
    (h : kv ∈ d) (hne : swift.normalize kv.1 ≠ swift.normalize key) :
    kv ∈ swift.set d key value := by
  by_cases hp : swift.HasKey d key
  · obtain ⟨l, k, v, r, hd, hk, hset⟩ := set_of_present value hp
    rw [hd] at h
    rw [hset]
    simp only [List.mem_append, List.mem_cons] at h ⊢
    rcases h with h | rfl | h
    · exact Or.inl h
    · exact absurd hk hne
    · exact Or.inr (Or.inr h)
  · rw [set_of_new value hp]
    exact List.mem_append_left _ h

/-- No new spelling of a key that is present appears. -/
theorem key_of_mem_set {d : Dictionary α} {key : List Char} {value : α} {kv : List Char × α}
    (h : kv ∈ swift.set d key value) : (∃ v, (kv.1, v) ∈ d) ∨ kv.1 = key := by
  by_cases hp : swift.HasKey d key
  · obtain ⟨l, k, v, r, hd, -, hset⟩ := set_of_present value hp
    left
    rw [hset] at h
    rw [hd]
    simp only [List.mem_append, List.mem_cons] at h ⊢
    rcases h with h | h | h
    · exact ⟨kv.2, Or.inl h⟩
    · exact ⟨v, Or.inr (Or.inl (by rw [h]))⟩
    · exact ⟨kv.2, Or.inr (Or.inr h)⟩
  · rw [set_of_new value hp] at h
    rcases List.mem_append.mp h with h | h
    · exact Or.inl ⟨kv.2, h⟩
    · exact Or.inr (by rw [List.mem_singleton.mp h])

/-- The value is there under its key. -/
theorem exists_mem_set (d : Dictionary α) (key : List Char) (value : α) :
    ∃ kv ∈ swift.set d key value, kv.2 = value ∧ swift.normalize kv.1 = swift.normalize key := by
  by_cases hp : swift.HasKey d key
  · obtain ⟨l, k, v, r, -, hk, hset⟩ := set_of_present value hp
    exact ⟨(k, value), by rw [hset]; simp, rfl, hk⟩
  · exact ⟨(key, value), by rw [set_of_new value hp]; simp, rfl, rfl⟩

/-- A dictionary filled with named values has different keys, and each value is under its
own name. -/
theorem foldl_set_spec (name : α → List Char) (values : List α) :
    swift.KeysNodup (values.foldl (fun d v => swift.set d (name v) v) []) ∧
      ∀ kv ∈ values.foldl (fun d v => swift.set d (name v) v) [],
        kv.2 ∈ values ∧ swift.normalize kv.1 = swift.normalize (name kv.2) := by
  -- The fold, over any start whose values are among the given ones.
  have hfold : ∀ (todo : List α) (d : Dictionary α), (∀ v ∈ todo, v ∈ values) →
      swift.KeysNodup d →
      (∀ kv ∈ d, kv.2 ∈ values ∧ swift.normalize kv.1 = swift.normalize (name kv.2)) →
      swift.KeysNodup (todo.foldl (fun d v => swift.set d (name v) v) d) ∧
        ∀ kv ∈ todo.foldl (fun d v => swift.set d (name v) v) d,
          kv.2 ∈ values ∧ swift.normalize kv.1 = swift.normalize (name kv.2) := by
    intro todo
    induction todo with
    | nil => exact fun d _ hk hd => ⟨hk, hd⟩
    | cons v todo ih =>
      intro d hsub hk hd
      apply ih _ (fun o ho => hsub o (List.mem_cons_of_mem _ ho)) (keysNodup_set hk _ _)
      intro kv hkv
      rcases mem_set hk hkv with ⟨hold, -⟩ | ⟨hval, hkey⟩
      · exact hd kv hold
      · rw [hval]
        exact ⟨hsub v List.mem_cons_self, hkey⟩
  exact hfold values [] (fun _ h => h) List.nodup_nil (by simp)

end Stdlib

end QuickJSSwift
