/-
The chains of the atom table.

What an operation does to the chains is kept apart from what it does to the entries. An
entry without its link is its `info`; a table is well-formed if every chain has the entries
of its hash and no others, the free entries form a list, and the entries are right: the
hash is the hash of the text, and no two of them have the same text and type.

Looking an atom up, taking an entry out of its chain and moving all entries to the chains
of a larger table only change links, so they are specified by saying that the `info` of
every entry is what it was. The loops end because a chain has no repetitions.
-/
import QuickJSSwift.AtomTable
import Mathlib.Data.Finset.Card
import Mathlib.Data.Finset.Range
import Mathlib.Data.Nat.Bitwise

set_option autoImplicit false
set_option linter.style.nameCheck false

namespace QuickJSSwift.Atom

open Linked Text

/-- An entry without its link. -/
structure Info where
  ref_count : ℤ
  atom_type : JSAtomType
  hash : ℕ
  str : JSString

def JSAtomStruct.info (p : JSAtomStruct) : Info where
  ref_count := p.ref_count
  atom_type := p.atom_type
  hash := p.hash
  str := p.str

namespace JSRuntime

/-- The entries in use. -/
def info (rt : JSRuntime) (i : ℕ) : Option Info := (rt.atom i).map JSAtomStruct.info

/-- The links of the chains. -/
def nexts (rt : JSRuntime) : ℕ → Option ℕ := Linked.nexts rt.atom (·.hash_next)

/-- The entry belongs on the chain. -/
def InChain (rt : JSRuntime) (b i : ℕ) : Prop :=
  ∃ x, rt.info i = some x ∧ x.atom_type ≠ .SYMBOL ∧ rt.bucket x.hash = b

variable {rt : JSRuntime} {i n : ℕ} {p : JSAtomStruct}

theorem info_eq (h : rt.atom i = some p) : rt.info i = some p.info := by
  rw [info, h]
  rfl

theorem atom_put_used : (rt.put i (.used p)).atom = Function.update rt.atom i (some p) := by
  funext j
  by_cases hj : j = i
  · simp [atom, put, hj]
  · simp [atom, put, hj]

theorem atom_put_free : (rt.put i (.free n)).atom = Function.update rt.atom i none := by
  funext j
  by_cases hj : j = i
  · simp [atom, put, hj]
  · simp [atom, put, hj]

theorem atom_get_free_put_used :
    (rt.put i (.used p)).atom_get_free = Function.update rt.atom_get_free i none := by
  funext j
  by_cases hj : j = i
  · simp [atom_get_free, put, hj]
  · simp [atom_get_free, put, hj]

theorem atom_get_free_put_free :
    (rt.put i (.free n)).atom_get_free = Function.update rt.atom_get_free i (some n) := by
  funext j
  by_cases hj : j = i
  · simp [atom_get_free, put, hj]
  · simp [atom_get_free, put, hj]

theorem info_put_used : (rt.put i (.used p)).info = Function.update rt.info i (some p.info) := by
  funext j
  rw [info, atom_put_used]
  by_cases hj : j = i
  · simp [hj]
  · simp [info, hj]

theorem info_put_free : (rt.put i (.free n)).info = Function.update rt.info i none := by
  funext j
  rw [info, atom_put_free]
  by_cases hj : j = i
  · simp [hj]
  · simp [info, hj]

theorem nexts_put_used :
    (rt.put i (.used p)).nexts = Function.update rt.nexts i (some p.hash_next) := by
  funext j
  rw [nexts, atom_put_used]
  by_cases hj : j = i
  · simp [Linked.nexts, hj]
  · simp [nexts, Linked.nexts, hj]

theorem nexts_put_free : (rt.put i (.free n)).nexts = Function.update rt.nexts i none := by
  funext j
  rw [nexts, atom_put_free]
  by_cases hj : j = i
  · simp [Linked.nexts, hj]
  · simp [nexts, Linked.nexts, hj]

/-- An element of the array is free or in use. -/
theorem isSome_atom_array :
    (rt.atom_array i).isSome ↔ (rt.info i).isSome ∨ (rt.atom_get_free i).isSome := by
  rw [info, atom, atom_get_free]
  cases rt.atom_array i with
  | none => simp
  | some s => cases s <;> simp

theorem info_of_free (h : (rt.atom_get_free i).isSome) : rt.info i = none := by
  rw [atom_get_free] at h
  rw [info, atom]
  cases hs : rt.atom_array i with
  | none => simp [hs] at h
  | some s => cases s <;> simp_all

end JSRuntime

/-- What holds of the entries as such. -/
structure Entries (info : ℕ → Option Info) : Prop where
  zero : ∀ x, info 0 = some x → x.atom_type = .SYMBOL
  stored : ∀ i x, info i = some x → x.atom_type ≠ .PRIVATE
  hashed : ∀ i x, info i = some x → x.atom_type ≠ .SYMBOL → x.hash = atom_hash x.str x.atom_type
  unique : ∀ i j x y, info i = some x → info j = some y → x.atom_type ≠ .SYMBOL →
    x.atom_type = y.atom_type → x.str.units = y.str.units → i = j

/-- The table. -/
structure WF (rt : JSRuntime) : Prop where
  size : ∃ k, rt.atom_hash_size = 2 ^ k
  chains : ∀ b < rt.atom_hash_size, ∃ l, Links rt.nexts (rt.atom_hash b) l ∧
    ∀ i, i ∈ l ↔ rt.InChain b i
  symbol : ∀ i p, rt.atom i = some p → i ≠ 0 → p.atom_type = .SYMBOL → p.hash_next = i
  entries : Entries rt.info
  bound : ∀ i, (rt.atom_array i).isSome ↔ i < rt.atom_size
  max : (rt.atom_size : ℤ) ≤ JS_ATOM_MAX
  free : ∃ l, Links rt.atom_get_free rt.atom_free_index l ∧
    ∀ i, i ∈ l ↔ (rt.atom_get_free i).isSome
  count : rt.atom_count = ((Finset.range rt.atom_size).filter fun i => (rt.info i).isSome).card

/-- Only links have changed, and none of an entry that is not on a chain. -/
structure Relinked (rt rt' : JSRuntime) : Prop where
  info : rt'.info = rt.info
  free : rt'.atom_get_free = rt.atom_get_free
  symbol : ∀ i p, rt'.atom i = some p → p.atom_type = .SYMBOL → rt.atom i = some p
  atom_size : rt'.atom_size = rt.atom_size
  atom_count : rt'.atom_count = rt.atom_count
  atom_free_index : rt'.atom_free_index = rt.atom_free_index

section Relinked

variable {rt rt' rt'' : JSRuntime} {a b i : ℕ} {p : JSAtomStruct}

theorem Relinked.refl (rt : JSRuntime) : Relinked rt rt :=
  ⟨rfl, rfl, fun _ _ h _ => h, rfl, rfl, rfl⟩

theorem Relinked.trans (h : Relinked rt rt') (h' : Relinked rt' rt'') : Relinked rt rt'' where
  info := h'.info.trans h.info
  free := h'.free.trans h.free
  symbol := fun i p hp ht => h.symbol i p (h'.symbol i p hp ht) ht
  atom_size := h'.atom_size.trans h.atom_size
  atom_count := h'.atom_count.trans h.atom_count
  atom_free_index := h'.atom_free_index.trans h.atom_free_index

/-- One link changes. -/
theorem Relinked.put (hp : rt.atom i = some p) (ht : p.atom_type ≠ .SYMBOL) (n : ℕ) :
    Relinked rt (rt.put i (.used { p with hash_next := n })) where
  info := by
    rw [JSRuntime.info_put_used]
    refine (Function.update_eq_self_iff ..).mpr ?_
    exact (rt.info_eq hp).symm
  free := by
    rw [JSRuntime.atom_get_free_put_used]
    refine (Function.update_eq_self_iff ..).mpr ?_
    rw [JSRuntime.atom] at hp
    rw [JSRuntime.atom_get_free]
    cases hs : rt.atom_array i with
    | none => rfl
    | some s => cases s <;> simp_all
  symbol := by
    intro j q hq hs
    rw [JSRuntime.atom_put_used] at hq
    by_cases hj : j = i
    · rw [hj, Function.update_self] at hq
      obtain rfl := Option.some.inj hq
      exact absurd hs ht
    · rwa [Function.update_of_ne hj] at hq
  atom_size := rfl
  atom_count := rfl
  atom_free_index := rfl

/-- A table whose links have changed is well-formed if its chains are. -/
theorem WF.relinked (h : WF rt) (hr : Relinked rt rt') (hsize : ∃ k, rt'.atom_hash_size = 2 ^ k)
    (hchains : ∀ b < rt'.atom_hash_size, ∃ l, Links rt'.nexts (rt'.atom_hash b) l ∧
      ∀ i, i ∈ l ↔ rt'.InChain b i) : WF rt' where
  size := hsize
  chains := hchains
  symbol := fun i p hp hi ht => h.symbol i p (hr.symbol i p hp ht) hi ht
  entries := hr.info ▸ h.entries
  bound := by
    intro i
    rw [JSRuntime.isSome_atom_array, hr.info, hr.free, ← JSRuntime.isSome_atom_array, hr.atom_size]
    exact h.bound i
  max := hr.atom_size ▸ h.max
  free := by
    rw [hr.free, hr.atom_free_index]
    exact h.free
  count := by
    rw [hr.atom_count, hr.atom_size, hr.info]
    exact h.count

end Relinked

/-! ## Looking up -/

section Lookup

variable {rt : JSRuntime} {a i : ℕ} {p : JSAtomStruct}

theorem and_pred_lt {n k : ℕ} (h : ℕ) (hn : n = 2 ^ k) : h &&& (n - 1) < n := by
  rw [hn, Nat.and_two_pow_sub_one_eq_mod]
  exact Nat.mod_lt h (Nat.two_pow_pos k)

theorem WF.bucket_lt (h : WF rt) (n : ℕ) : rt.bucket n < rt.atom_hash_size := by
  obtain ⟨k, hk⟩ := h.size
  exact and_pred_lt n hk

theorem JSRuntime.inChain (hp : rt.atom i = some p) (ht : p.atom_type ≠ .SYMBOL) :
    rt.InChain (rt.bucket p.hash) i :=
  ⟨p.info, rt.info_eq hp, ht, rfl⟩

theorem JSRuntime.lt_of_info (h : WF rt) {x : Info} (hx : rt.info i = some x) : i < rt.atom_size := by
  rw [← h.bound, JSRuntime.isSome_atom_array]
  exact .inl (by simp [hx])

theorem JSRuntime.exists_atom {x : Info} (hx : rt.info i = some x) :
    ∃ p, rt.atom i = some p ∧ p.info = x :=
  Option.map_eq_some_iff.mp hx

/-- A chain is no longer than the array. -/
theorem WF.chain (h : WF rt) (n : ℕ) : ∃ l, Links rt.nexts (rt.atom_hash (rt.bucket n)) l ∧
    l.length ≤ rt.atom_size ∧ ∀ i, i ∈ l ↔ rt.InChain (rt.bucket n) i := by
  obtain ⟨l, hl, hmem⟩ := h.chains _ (h.bucket_lt n)
  refine ⟨l, hl, hl.length_le fun i hi => ?_, hmem⟩
  obtain ⟨x, hx, -⟩ := (hmem i).mp hi
  exact JSRuntime.lt_of_info h hx

theorem memcmp16_eq_zero_iff {u v : List UInt16} (h : u.length = v.length) :
    memcmp16 u v v.length = 0 ↔ u = v := by
  induction u generalizing v with
  | nil =>
    obtain rfl := List.length_eq_zero_iff.mp h.symm
    simp [memcmp16]
  | cons c u ih =>
    cases v with
    | nil => simp at h
    | cons d v =>
      rw [List.length_cons, memcmp16]
      by_cases hcd : c = d
      · simp only [hcd, ne_eq, not_true_eq_false, if_false, List.cons.injEq, true_and]
        exact ih (by simpa using h)
      · have hne : (c.toNat : ℤ) - d.toNat ≠ 0 := by
          intro hz
          exact hcd (UInt16.toNat_inj.mp (by omega))
        simp [hcd, hne]

/-- The comparison in the loops is one of the texts. -/
theorem js_string_memcmp_iff (s t : JSString) :
    (JSString_len s = JSString_len t ∧ js_string_memcmp s t (JSString_len t) = 0) ↔
      s.units = t.units := by
  constructor
  · rintro ⟨hlen, hcmp⟩
    exact (memcmp16_eq_zero_iff hlen).mp hcmp
  · intro h
    have hlen : s.units.length = t.units.length := by rw [h]
    exact ⟨hlen, (memcmp16_eq_zero_iff hlen).mpr h⟩

theorem hash_string_eq (s : JSString) (h : UInt32) :
    hash_string s h = s.units.foldl (fun h c => h * 263 + c.toUInt32) h := by
  cases s with
  | str8 u =>
    rw [hash_string, JSString.units, List.foldl_map]
    rfl
  | str16 u => rfl

/-- The hash is one of the text, however it is stored. -/
theorem atom_hash_congr {s t : JSString} (h : s.units = t.units) (ty : JSAtomType) :
    atom_hash s ty = atom_hash t ty := by
  rw [atom_hash, atom_hash, hash_string_eq, hash_string_eq, h]

/-- The entry with a text and a type, or 0. -/
structure Located (rt : JSRuntime) (units : List UInt16) (ty : JSAtomType) (i : ℕ) : Prop where
  found : i ≠ 0 → ∃ p, rt.atom i = some p ∧ p.atom_type = ty ∧ p.str.units = units
  missing : i = 0 → ∀ j x, rt.info j = some x → x.atom_type = ty → x.str.units ≠ units

/-- The lookup finds the entry. -/
theorem find_atom_spec (h : WF rt) {ty : JSAtomType} (hty : ty ≠ .SYMBOL) (s : JSString) :
    ∃ i, find_atom rt s (atom_hash s ty) ty = some i ∧ Located rt s.units ty i := by
  obtain ⟨l, hl, hlen, hmem⟩ := h.chain (atom_hash s ty)
  obtain ⟨i, hwalk, hfound, hmissing⟩ := walk_spec (fun _ p => decide (p.hash = atom_hash s ty ∧
    p.atom_type = ty ∧ JSString_len p.str = JSString_len s ∧
    js_string_memcmp p.str s (JSString_len s) = 0)) hl hlen
  refine ⟨i, hwalk, fun hne => ?_, fun hz j x hx hxt hu => ?_⟩
  · obtain ⟨-, p, hp, hs⟩ := hfound hne
    obtain ⟨-, ht, hcmp⟩ := of_decide_eq_true hs
    exact ⟨p, hp, ht, (js_string_memcmp_iff p.str s).mp hcmp⟩
  · obtain ⟨p, hp, rfl⟩ := JSRuntime.exists_atom hx
    have hpt : p.atom_type = ty := hxt
    have hne : p.atom_type ≠ .SYMBOL := hpt ▸ hty
    have hhash : p.hash = atom_hash s ty := by
      rw [← hpt, ← atom_hash_congr hu]
      exact h.entries.hashed j _ hx hne
    have hj : j ∈ l := by
      rw [hmem, ← hhash]
      exact JSRuntime.inChain hp hne
    exact hmissing hz j hj p hp
      (decide_eq_true ⟨hhash, hpt, (js_string_memcmp_iff p.str s).mpr hu⟩)

/-- `js_get_atom_index` finds the index of the entry it is given. -/
theorem js_get_atom_index_spec (h : WF rt) (hp : rt.atom a = some p) (ha : a ≠ 0) :
    js_get_atom_index rt a = some a := by
  by_cases ht : p.atom_type = .SYMBOL
  · simp [js_get_atom_index, hp, ht, h.symbol a p hp ha ht]
  · obtain ⟨l, hl, hlen, hmem⟩ := h.chain p.hash
    have hal : a ∈ l := (hmem a).mpr (JSRuntime.inChain hp ht)
    obtain ⟨i, hwalk, hfound, hmissing⟩ := walk_spec (fun i _ => decide (i = a)) hl hlen
    have hi : i ≠ 0 := fun hz => hmissing hz a hal p hp (decide_eq_true rfl)
    obtain ⟨-, -, -, hs⟩ := hfound hi
    obtain rfl := of_decide_eq_true hs
    simp [js_get_atom_index, hp, ht, hwalk, guard, hi]

end Lookup

/-! ## Taking an entry out of its chain -/

section Unchain

variable {rt : JSRuntime} {a i : ℕ} {p : JSAtomStruct}

/-- An entry is on one chain. -/
theorem JSRuntime.InChain.unique {b c : ℕ} (h : rt.InChain b i) (h' : rt.InChain c i) : b = c := by
  obtain ⟨x, hx, -, rfl⟩ := h
  obtain ⟨y, hy, -, rfl⟩ := h'
  obtain rfl := Option.some.inj (hx.symm.trans hy)
  rfl

theorem unchain_spec (h : WF rt) (hp : rt.atom a = some p) (ht : p.atom_type ≠ .SYMBOL) :
    ∃ rt', unchain rt a p = some rt' ∧ Relinked rt rt' ∧ rt'.atom_hash_size = rt.atom_hash_size ∧
      ∀ b < rt.atom_hash_size, ∃ l, Links rt'.nexts (rt'.atom_hash b) l ∧
        ∀ i, i ∈ l ↔ rt.InChain b i ∧ i ≠ a := by
  obtain ⟨l, hl, hlen, hmem⟩ := h.chain p.hash
  have hal : a ∈ l := (hmem a).mpr (JSRuntime.inChain hp ht)
  have hnext : rt.nexts a = some p.hash_next := by
    rw [JSRuntime.nexts, Linked.nexts, hp]
    rfl
  have hnd := hl.nodup
  by_cases hhead : rt.atom_hash (rt.bucket p.hash) = a
  · -- It is the first.
    refine ⟨_, if_pos hhead, ⟨rfl, rfl, fun _ _ h _ => h, rfl, rfl, rfl⟩, rfl, fun b hb => ?_⟩
    by_cases hbp : b = rt.bucket p.hash
    · subst hbp
      cases l with
      | nil => simp at hal
      | cons x l =>
        obtain rfl : a = x := hhead.symm.trans hl.head
        refine ⟨l, ?_, fun i => ?_⟩
        · change Links rt.nexts (Function.update rt.atom_hash (rt.bucket p.hash) p.hash_next _) l
          rw [Function.update_self]
          exact hl.tail hnext
        · rw [← hmem, List.mem_cons]
          have hnot := (List.nodup_cons.mp hnd).1
          constructor
          · intro hi
            exact ⟨.inr hi, fun e => hnot (by rwa [← e])⟩
          · rintro ⟨hi, hne⟩
            exact hi.resolve_left hne
    · obtain ⟨lb, hlb, hmemb⟩ := h.chains b hb
      refine ⟨lb, ?_, fun i => ?_⟩
      · change Links rt.nexts (Function.update rt.atom_hash (rt.bucket p.hash) p.hash_next b) lb
        rw [Function.update_of_ne hbp]
        exact hlb
      · rw [hmemb, iff_self_and]
        rintro hi rfl
        exact hbp (hi.unique (JSRuntime.inChain hp ht))
  · -- Its predecessor gets its link.
    obtain ⟨l₁, l₂, rfl⟩ := List.append_of_mem hal
    have hne : l₁ ≠ [] := by
      rintro rfl
      exact hhead hl.head
    obtain ⟨l₀, q, rfl⟩ := List.eq_nil_or_concat l₁ |>.resolve_left hne
    rw [List.concat_append] at hl hlen hmem hnd
    have hq : rt.InChain (rt.bucket p.hash) q := (hmem q).mp (by simp)
    obtain ⟨x, hx, hxt, -⟩ := id hq
    obtain ⟨p0, hp0, rfl⟩ := JSRuntime.exists_atom hx
    have hwalk := walkBefore_eq hl (n := rt.atom_size) (by
      simp only [List.length_append, List.length_cons] at hlen
      omega)
    have hrun : unchain rt a p = some (rt.put q (.used { p0 with hash_next := p.hash_next })) := by
      rw [unchain, if_neg hhead, hwalk]
      simp [hp0]
    refine ⟨_, hrun, .put hp0 hxt _, rfl, fun b hb => ?_⟩
    rw [JSRuntime.nexts_put_used]
    by_cases hbp : b = rt.bucket p.hash
    · subst hbp
      refine ⟨l₀ ++ q :: l₂, hl.unlink hnext, fun i => ?_⟩
      rw [← hmem]
      simp only [List.nodup_append, List.nodup_cons, List.mem_cons, List.mem_append] at hnd ⊢
      constructor
      · rintro (hi | rfl | hi)
        · exact ⟨.inl hi, fun e => hnd.2.2 i hi a (.inr (.inl rfl)) e⟩
        · exact ⟨.inr (.inl rfl), fun e => hnd.2.1.1 (.inl e)⟩
        · exact ⟨.inr (.inr (.inr hi)), fun e => hnd.2.1.2.1 (e ▸ hi)⟩
      · rintro ⟨hi | rfl | rfl | hi, hia⟩
        · exact .inl hi
        · exact .inr (.inl rfl)
        · exact absurd rfl hia
        · exact .inr (.inr hi)
    · obtain ⟨lb, hlb, hmemb⟩ := h.chains b hb
      refine ⟨lb, hlb.update ?_ _, fun i => ?_⟩
      · rw [hmemb]
        exact fun hqb => hbp (hqb.unique hq)
      · rw [hmemb, iff_self_and]
        rintro hi rfl
        exact hbp (hi.unique (JSRuntime.inChain hp ht))

end Unchain

/-! ## A larger table -/

section Resize

variable {rt : JSRuntime}

/-- What holds while entries are moved: `new_hash` has the chains `done`, and what is still to
be moved is chained as before. -/
structure Moving (rt : JSRuntime) (mask : ℕ) (new_hash : ℕ → ℕ) (done : ℕ → List ℕ) : Prop where
  links : ∀ j, Links rt.nexts (new_hash j) (done j)
  mem : ∀ j, ∀ i ∈ done j, ∃ x, rt.info i = some x ∧ x.atom_type ≠ .SYMBOL ∧ x.hash &&& mask = j

theorem Moving.relinked {rt' : JSRuntime} {mask : ℕ} {new_hash : ℕ → ℕ} {done : ℕ → List ℕ}
    (h : Moving rt mask new_hash done) (hr : rt'.info = rt.info)
    (hl : ∀ j, Links rt'.nexts (new_hash j) (done j)) : Moving rt' mask new_hash done where
  links := hl
  mem := by
    rw [hr]
    exact h.mem

/-- One chain is moved; chains that have nothing in common with it stay. -/
theorem rehash_chain_spec {mask : ℕ} {new_hash : ℕ → ℕ} {done : ℕ → List ℕ} {h n : ℕ} {l : List ℕ}
    {S : ℕ → Prop} {heads : ℕ → ℕ} {chain : ℕ → List ℕ} (hm : Moving rt mask new_hash done)
    (hl : Links rt.nexts h l) (hn : l.length ≤ n)
    (hinfo : ∀ i ∈ l, ∃ x, rt.info i = some x ∧ x.atom_type ≠ .SYMBOL)
    (hfresh : ∀ i ∈ l, ∀ j, i ∉ done j) (hS : ∀ b, S b → Links rt.nexts (heads b) (chain b))
    (hdisj : ∀ i ∈ l, ∀ b, S b → i ∉ chain b) :
    ∃ rt' new_hash' done', rehash_chain mask n h (rt, new_hash) = some (rt', new_hash') ∧
      Relinked rt rt' ∧ Moving rt' mask new_hash' done' ∧
      (∀ i, (∃ j, i ∈ done' j) ↔ (∃ j, i ∈ done j) ∨ i ∈ l) ∧
      ∀ b, S b → Links rt'.nexts (heads b) (chain b) := by
  induction l generalizing rt new_hash done h n with
  | nil =>
    obtain rfl : h = 0 := hl
    refine ⟨rt, new_hash, done, ?_, .refl rt, hm, by simp, hS⟩
    unfold rehash_chain
    rfl
  | cons i l ih =>
    have hnd := hl.nodup
    obtain ⟨x, hx, ht⟩ := hinfo i (by simp)
    obtain ⟨p, hp, rfl⟩ := JSRuntime.exists_atom hx
    have hnext : rt.nexts i = some p.hash_next := by
      rw [JSRuntime.nexts, Linked.nexts, hp]
      rfl
    have hrest := hl.tail hnext
    obtain ⟨rfl, hne, -⟩ := hl
    have hil : h ∉ l := (List.nodup_cons.mp hnd).1
    cases n with
    | zero => simp at hn
    | succ n =>
      generalize hj : p.hash &&& mask = j
      have hr := Relinked.put hp ht (new_hash j)
      -- The first entry goes to the front of its new chain, and no other list has it.
      have hm' : Moving (rt.put h (.used { p with hash_next := new_hash j })) mask
          (Function.update new_hash j h) (Function.update done j (h :: done j)) := by
        refine ⟨fun k => ?_, fun k y hy => ?_⟩
        · rw [JSRuntime.nexts_put_used]
          by_cases hk : k = j
          · subst hk
            rw [Function.update_self, Function.update_self]
            exact (hm.links k).push (hfresh h (by simp) k) hne
          · rw [Function.update_of_ne hk, Function.update_of_ne hk]
            exact (hm.links k).update (hfresh h (by simp) k) _
        · rw [hr.info]
          by_cases hk : k = j
          · subst hk
            rw [Function.update_self, List.mem_cons] at hy
            rcases hy with rfl | hy
            · exact ⟨p.info, rt.info_eq hp, ht, hj⟩
            · exact hm.mem k y hy
          · rw [Function.update_of_ne hk] at hy
            exact hm.mem k y hy
      have hfresh' : ∀ y ∈ l, ∀ k, y ∉ Function.update done j (h :: done j) k := by
        intro y hy k
        have hyh : y ≠ h := fun e => hil (e ▸ hy)
        by_cases hk : k = j
        · rw [hk, Function.update_self, List.mem_cons, not_or]
          exact ⟨hyh, hfresh y (by simp [hy]) j⟩
        · rw [Function.update_of_ne hk]
          exact hfresh y (by simp [hy]) k
      obtain ⟨rt', new', done', hrun, hrel, hmov, hmem, hS'⟩ := ih hm'
        (by rw [JSRuntime.nexts_put_used]; exact hrest.update hil _)
        (Nat.le_of_succ_le_succ hn)
        (fun y hy => by rw [hr.info]; exact hinfo y (by simp [hy])) hfresh'
        (fun b hb => by rw [JSRuntime.nexts_put_used]; exact (hS b hb).update (hdisj h (by simp) b hb) _)
        (fun y hy => hdisj y (by simp [hy]))
      refine ⟨rt', new', done', ?_, hr.trans hrel, hmov, fun y => ?_, hS'⟩
      · rw [rehash_chain, if_neg hne, hp]
        simpa [hj] using hrun
      · rw [hmem, List.mem_cons]
        constructor
        · rintro (⟨k, hy⟩ | hy)
          · by_cases hk : k = j
            · rw [hk, Function.update_self, List.mem_cons] at hy
              rcases hy with hy | hy
              · exact .inr (.inl hy)
              · exact .inl ⟨j, hy⟩
            · rw [Function.update_of_ne hk] at hy
              exact .inl ⟨k, hy⟩
          · exact .inr (.inr hy)
        · rintro (⟨k, hy⟩ | rfl | hy)
          · refine .inl ⟨k, ?_⟩
            by_cases hk : k = j
            · rw [hk, Function.update_self]
              exact List.mem_cons_of_mem _ (hk ▸ hy)
            · rwa [Function.update_of_ne hk]
          · exact .inl ⟨j, by simp⟩
          · exact .inr hy

/-- All chains are moved, one after the other. -/
theorem rehash_buckets_spec {mask : ℕ} {new_hash : ℕ → ℕ} {done : ℕ → List ℕ} {n : ℕ} {bs : List ℕ}
    {heads : ℕ → ℕ} {chain : ℕ → List ℕ} (hm : Moving rt mask new_hash done) (hbs : bs.Nodup)
    (hl : ∀ b ∈ bs, Links rt.nexts (heads b) (chain b)) (hn : ∀ b ∈ bs, (chain b).length ≤ n)
    (hinfo : ∀ b ∈ bs, ∀ i ∈ chain b, ∃ x, rt.info i = some x ∧ x.atom_type ≠ .SYMBOL)
    (hfresh : ∀ b ∈ bs, ∀ i ∈ chain b, ∀ j, i ∉ done j)
    (hdisj : ∀ b ∈ bs, ∀ c ∈ bs, b ≠ c → ∀ i ∈ chain b, i ∉ chain c) :
    ∃ rt' new_hash' done', bs.foldlM (fun s b => rehash_chain mask n (heads b) s) (rt, new_hash) =
        some (rt', new_hash') ∧ Relinked rt rt' ∧ Moving rt' mask new_hash' done' ∧
      ∀ i, (∃ j, i ∈ done' j) ↔ (∃ j, i ∈ done j) ∨ ∃ b ∈ bs, i ∈ chain b := by
  induction bs generalizing rt new_hash done with
  | nil => exact ⟨rt, new_hash, done, rfl, .refl rt, hm, by simp⟩
  | cons b bs ih =>
    obtain ⟨hb, hbs⟩ := List.nodup_cons.mp hbs
    obtain ⟨rt₁, new₁, done₁, hrun₁, hr₁, hm₁, hmem₁, hl₁⟩ := rehash_chain_spec (S := (· ∈ bs)) hm
      (hl b (by simp)) (hn b (by simp)) (hinfo b (by simp)) (hfresh b (by simp))
      (fun c hc => hl c (by simp [hc]))
      (fun i hi c hc => hdisj b (by simp) c (by simp [hc]) (fun e => hb (e ▸ hc)) i hi)
    have hfresh₁ : ∀ c ∈ bs, ∀ i ∈ chain c, ∀ j, i ∉ done₁ j := by
      intro c hc i hi j hj
      rcases (hmem₁ i).mp ⟨j, hj⟩ with ⟨k, hk⟩ | hib
      · exact hfresh c (by simp [hc]) i hi k hk
      · exact hdisj c (by simp [hc]) b (by simp) (fun e => hb (e ▸ hc)) i hi hib
    obtain ⟨rt', new', done', hrun, hr, hm', hmem⟩ := ih hm₁ hbs hl₁
      (fun c hc => hn c (by simp [hc]))
      (fun c hc => by rw [hr₁.info]; exact hinfo c (by simp [hc])) hfresh₁
      (fun c hc d hd => hdisj c (by simp [hc]) d (by simp [hd]))
    refine ⟨rt', new', done', ?_, hr₁.trans hr, hm', fun i => ?_⟩
    · rw [List.foldlM_cons, hrun₁]
      exact hrun
    · rw [hmem, hmem₁]
      simp only [List.mem_cons, exists_eq_or_imp, or_assoc]

/-- **`JS_ResizeAtomHash`.** Every entry is on the chain of its hash again. -/
theorem JS_ResizeAtomHash_spec (h : WF rt) (k : ℕ) :
    ∃ rt', JS_ResizeAtomHash rt (2 ^ k) = some rt' ∧ WF rt' ∧ Relinked rt rt' := by
  have hchains : ∀ b, ∃ l, b < rt.atom_hash_size → Links rt.nexts (rt.atom_hash b) l ∧
      ∀ i, i ∈ l ↔ rt.InChain b i := by
    intro b
    by_cases hb : b < rt.atom_hash_size
    · obtain ⟨l, hl⟩ := h.chains b hb
      exact ⟨l, fun _ => hl⟩
    · exact ⟨[], fun hlt => absurd hlt hb⟩
  choose chain hchain using hchains
  have hstart : Moving rt (2 ^ k - 1) (fun _ => 0) (fun _ => []) := ⟨fun _ => rfl, by simp⟩
  have hinfo : ∀ b ∈ List.range rt.atom_hash_size, ∀ i ∈ chain b, rt.InChain b i :=
    fun b hb i => ((hchain b (List.mem_range.mp hb)).2 i).mp
  obtain ⟨rt', new', done', hrun, hr, hm, hmem⟩ := rehash_buckets_spec hstart List.nodup_range
    (fun b hb => (hchain b (List.mem_range.mp hb)).1)
    (fun b hb => (hchain b (List.mem_range.mp hb)).1.length_le fun i hi => by
      obtain ⟨x, hx, -⟩ := hinfo b hb i hi
      exact JSRuntime.lt_of_info h hx)
    (fun b hb i hi => by
      obtain ⟨x, hx, ht, -⟩ := hinfo b hb i hi
      exact ⟨x, hx, ht⟩)
    (by simp) (fun b hb c hc hne i hi hic => hne ((hinfo b hb i hi).unique (hinfo c hc i hic)))
  have hpow : 2 ^ k &&& (2 ^ k - 1) = 0 := by rw [Nat.and_two_pow_sub_one_eq_mod, Nat.mod_self]
  have hrel : Relinked rt { rt' with
      atom_hash := new', atom_hash_size := 2 ^ k, atom_count_resize := JS_ATOM_COUNT_RESIZE (2 ^ k) } :=
    ⟨hr.info, hr.free, hr.symbol, hr.atom_size, hr.atom_count, hr.atom_free_index⟩
  refine ⟨_, ?_, h.relinked hrel ⟨k, rfl⟩ fun b _ => ⟨done' b, hm.links b, fun i => ⟨hm.mem b i, ?_⟩⟩,
    hrel⟩
  · simp [JS_ResizeAtomHash, hpow, hrun, guard]
  · rintro ⟨x, hx, ht, hb⟩
    -- It was on one of the old chains, so it is on a new one, and its hash says on which.
    have hx₀ : rt.info i = some x := hr.info ▸ hx
    have hold : rt.InChain (rt.bucket x.hash) i := ⟨x, hx₀, ht, rfl⟩
    have hlt := h.bucket_lt x.hash
    obtain ⟨j, hj⟩ := (hmem i).mpr
      (.inr ⟨_, List.mem_range.mpr hlt, ((hchain _ hlt).2 i).mpr hold⟩)
    obtain ⟨y, hy, -, hyj⟩ := hm.mem j i hj
    obtain rfl := Option.some.inj (hx.symm.trans hy)
    have hbj : b = j := hb.symm.trans hyj
    exact hbj ▸ hj

end Resize

end QuickJSSwift.Atom
