/-
Who owns the value a native callback returns: `JSFunction.callRealFunction`
(`JSFunction.swift`), the handles of `JSValue` (`JSValue.swift`) and the conversions
that make them.

The heap is a ledger: a reference count for each heap value and, behind it, the
holders of the references. Three holders outlive a call: the engine (properties,
stacks, jobs), the `JSValue` handles that Swift code keeps, and nobody, for a reference
that a raw `JSCValue` carries (`raw`): what a constructor or `JS_DupValue` has just
returned and no handle has taken over. The handles that `callRealFunction` itself makes
are a holder of their own for the time of the call.

The caller takes what the callback returns as a reference of its own, so the value must
come with exactly one reference that nobody else holds. A block is given by what it
does to the ledger, step by step, and by the value it returns; every such behaviour is
covered, those of user-defined conversions included.
-/
import QuickJSSwift.Lib.RefCount
import QuickJSSwift.Number
import QuickJSSwift.Text
import Mathlib.Data.Fintype.Option

set_option autoImplicit false

namespace QuickJSSwift.Ownership

open RefCount Number

/-! ## The heap -/

/-- Where a reference can be after a call. -/
inductive Holder
  | engine
  | handle
  | raw
  deriving DecidableEq, Repr

instance : Fintype Holder where
  elems := {.engine, .handle, .raw}
  complete := by
    intro o
    cases o <;> decide

/-- A holder, or `none` for the temporary handles of a running `callRealFunction`. -/
abbrev Owner := Option Holder

abbrev temporary : Owner := none

abbrev raw : Owner := some .raw

/-- The reference counts. -/
abbrev Heap := Ledger Owner Ptr

/-- `JS_DupValue`, on behalf of `o`. Only a live value can be duplicated. -/
def JS_DupValue (h : Heap) (o : Owner) (v : JSCValue) : Option Heap :=
  match JS_VALUE_GET_PTR v with
  | none => some h
  | some p => if h.Live p then some (h.acquire o p) else none

/-- `JS_FreeValue` of a reference of `o`. -/
def JS_FreeValue (h : Heap) (o : Owner) (v : JSCValue) : Option Heap :=
  match JS_VALUE_GET_PTR v with
  | none => some h
  | some p => h.release o p

/-- The reference that goes with a value changes its owner; no count does. -/
def give (h : Heap) (o o' : Owner) (v : JSCValue) : Option Heap :=
  match JS_VALUE_GET_PTR v with
  | none => some h
  | some p => h.transfer o o' p

/-! ## Handles -/

/-- A `JSValue` handle. -/
structure JSValue where
  cValue : JSCValue
  hasContext : Bool
  autoFree : Bool
  deriving DecidableEq, Repr

/-- The handle frees its value when it goes. -/
def JSValue.owns (x : JSValue) : Bool := x.autoFree && x.hasContext

/-- A handle that will free its value takes over the reference that comes with it. -/
def JSValue.takeOver (h : Heap) (x : JSValue) : Option Heap :=
  if x.owns then give h raw temporary x.cValue else some h

/-- `JSValue.init(_:value:dup:autoFree:)`, for a temporary handle. -/
def JSValue.init (h : Heap) (hasContext : Bool) (value : JSCValue) (dup autoFree : Bool) :
    Option (Heap × JSValue) :=
  let x : JSValue := ⟨value, hasContext, autoFree⟩
  if dup then
    (JS_DupValue h raw value).bind (fun h => (x.takeOver h).map (fun h => (h, x)))
  else
    (x.takeOver h).map (fun h => (h, x))

/-- `JSValue.deinit`, for a temporary handle. -/
def JSValue.deinit (h : Heap) (x : JSValue) : Option Heap :=
  if x.owns then JS_FreeValue h temporary x.cValue else some h

/-- The end of a temporary: it is deinitialised, unless some code has kept the handle. -/
def JSValue.endTemporary (h : Heap) (x : JSValue) (kept : Bool) : Option Heap :=
  if kept then
    if x.owns then give h temporary (some .handle) x.cValue else some h
  else x.deinit h

/-! ## Blocks and conversions -/

/-- One step of Swift or JS code on the heap: an allocation, another reference, a
reference given up, or one handed over (a handle wraps a raw value, a property takes
one over). -/
inductive Action
  | alloc (p : Ptr)
  | dup (o : Holder) (p : Ptr)
  | free (o : Holder) (p : Ptr)
  | move (o o' : Holder) (p : Ptr)
  deriving DecidableEq, Repr

/-- A step is possible where the reference it uses exists. -/
def exec (h : Heap) : Action → Option Heap
  | .alloc p => if h.Live p then none else some (h.acquire raw p)
  | .dup o p => if h.Live p then some (h.acquire (some o) p) else none
  | .free o p => h.release (some o) p
  | .move o o' p => h.transfer (some o) (some o') p

/-- The steps of one execution. -/
def run (h : Heap) : List Action → Option Heap
  | [] => some h
  | a :: as => (exec h a).bind (fun h => run h as)

/-- A value of a type that conforms to `ConvertibleWithJavascript`. For a type from
elsewhere: what its `jsValue` does, the handle that it returns, and whether that handle
is also kept somewhere. -/
inductive Convertible
  | string (s : List Char)
  | int (A : IntType) (n : A.Carrier)
  | double (d : BitVec 64)
  | jsError
  | array
  | custom (trace : List Action) (x : JSValue) (kept : Bool)

/-- One execution of a `Block`: what it does, whether it keeps the handle it gets for
`this`, and what it returns. -/
structure Behaviour where
  trace : List Action
  keepsThis : Bool
  result : Option Convertible

/-- The end of a native computation: it returns, or Swift stops the program. -/
inductive Outcome (α : Type)
  | returned (h : Heap) (a : α)
  | trapped

/-- `JS_NewFloat64`. -/
def JS_NewFloat64 (d : BitVec 64) : JSCValue :=
  let val := Int32.ofInt (Binary64.trunc d)
  if Binary64.ofInt val.toInt = d then .int val else .float64 d

/-- The addresses a call depends on: where the allocator puts a new string, and where
the string of `JS_ATOM_empty_string` is. -/
structure Addresses where
  fresh : Ptr
  JS_ATOM_empty_string : Ptr

/-- `JS_NewString` on the heap: an exception, the shared empty string, or a new one. -/
def JS_NewString (addr : Addresses) (h : Heap) (s : List Char) : Option (Heap × JSCValue) :=
  match Text.JS_NewString (Utf.utf8 s) with
  | none => some (h, .exception)
  | some js =>
    if js.units = [] then
      let v := JSCValue.ptr .string addr.JS_ATOM_empty_string
      (JS_DupValue h raw v).map (fun h => (h, v))
    else
      (exec h (.alloc addr.fresh)).map (fun h => (h, .ptr .string addr.fresh))

/-- `jsValue(_:)`: the temporary handle, and whether it is kept. -/
def Convertible.jsValue (addr : Addresses) (h : Heap) :
    Convertible → Option (Outcome (JSValue × Bool))
  | .string s => do
    let (h, v) ← JS_NewString addr h s
    let (h, x) ← JSValue.init h true v false true
    some (.returned h (x, false))
  | .int A n =>
    match A.jsValue n with
    | none => some .trapped
    | some v => (JSValue.init h true v false true).map (fun (h, x) => .returned h (x, false))
  | .double d =>
    (JSValue.init h true (JS_NewFloat64 d) false true).map (fun (h, x) => .returned h (x, false))
  | .jsError =>
    -- The default of the protocol: `.undefined`, a handle without a context.
    (JSValue.init h false .undefined false true).map (fun (h, x) => .returned h (x, false))
  | .array => some .trapped
  | .custom trace x kept => do
    let h ← run h trace
    let h ← if x.owns then give h (some .handle) temporary x.cValue else some h
    some (.returned h (x, kept))

/-- `JSFunction.callRealFunction`. `none` means that the block uses a reference it does
not have. -/
def callRealFunction (addr : Addresses) (h : Heap) (opaqueContext : Bool) (this : JSCValue)
    (block : Behaviour) : Option (Outcome JSCValue) :=
  if opaqueContext then do
    let (h, thisObj) ← JSValue.init h true this true true
    let h ← run h block.trace
    match block.result with
    | some result =>
      match ← result.jsValue addr h with
      | .trapped => some .trapped
      | .returned h (x, kept) =>
        let cValue := x.cValue
        -- The handle of the result is a temporary of the `return` expression.
        let h ← x.endTemporary h kept
        let h ← thisObj.endTemporary h block.keepsThis
        some (.returned h cValue)
    | none =>
      let h ← thisObj.endTemporary h block.keepsThis
      some (.returned h .undefined)
  else some (.returned h .undefined)

/-! ## Bookkeeping

Two numbers per address describe a computation on the heap: how far the count moves,
and how far the references that nobody holds move. They add up along a run. -/

/-- The computation from `h` to `h'` moves the counts by `δ` and the raw references
by `ρ`. -/
structure Moves (h h' : Heap) (δ ρ : Ptr → ℤ) : Prop where
  count : ∀ p, (h'.count p : ℤ) = h.count p + δ p
  raw : ∀ p, (h'.refs raw p : ℤ) = h.refs raw p + ρ p

theorem Moves.refl (h : Heap) : Moves h h 0 0 := ⟨fun p => by simp, fun p => by simp⟩

theorem Moves.trans {h₁ h₂ h₃ : Heap} {δ ρ δ' ρ' : Ptr → ℤ} (h : Moves h₁ h₂ δ ρ)
    (h' : Moves h₂ h₃ δ' ρ') : Moves h₁ h₃ (δ + δ') (ρ + ρ') := by
  refine ⟨fun p => ?_, fun p => ?_⟩
  · rw [h'.count p, h.count p, Pi.add_apply, add_assoc]
  · rw [h'.raw p, h.raw p, Pi.add_apply, add_assoc]

/-- One at the address `q`. -/
def one (q p : Ptr) : ℤ := if p = q then 1 else 0

/-- One at the address of a reference-counted value. -/
def oneAt (v : JSCValue) (p : Ptr) : ℤ :=
  match JS_VALUE_GET_PTR v with
  | none => 0
  | some q => one q p

/-- One for the references that nobody holds. -/
def ofRaw (o : Owner) : ℤ := if o = raw then 1 else 0

theorem unit_raw (o : Owner) (q p : Ptr) :
    ((Ledger.unit o q raw p : ℕ) : ℤ) = ofRaw o * one q p := by
  unfold Ledger.unit ofRaw one
  by_cases ho : o = raw
  · by_cases hp : p = q
    · simp [ho, hp]
    · simp [hp]
  · have ho' : raw ≠ o := fun h => ho h.symm
    simp [ho, ho']

theorem acquire_moves (h : Heap) (o : Owner) (q : Ptr) :
    Moves h (h.acquire o q) (one q) (fun p => ofRaw o * one q p) := by
  refine ⟨fun p => ?_, fun p => ?_⟩
  · rw [Ledger.count_acquire, one]
    push_cast
    rfl
  · rw [Ledger.refs_acquire, ← unit_raw]
    push_cast
    rfl

theorem release_moves {h h' : Heap} {o : Owner} {q : Ptr} (hr : h.release o q = some h') :
    Moves h h' (fun p => -one q p) (fun p => -(ofRaw o * one q p)) := by
  obtain ⟨hcount, hrefs⟩ := Ledger.release_spec hr
  refine ⟨fun p => ?_, fun p => ?_⟩
  · have := hcount p
    unfold one
    split_ifs at this ⊢ <;> omega
  · have := hrefs raw p
    rw [← unit_raw]
    omega

theorem transfer_moves {h h' : Heap} {o o' : Owner} {q : Ptr} (ht : h.transfer o o' q = some h') :
    Moves h h' 0 (fun p => ofRaw o' * one q p - ofRaw o * one q p) := by
  obtain ⟨hcount, hrefs⟩ := Ledger.transfer_spec ht
  refine ⟨fun p => by rw [hcount p]; simp, fun p => ?_⟩
  have := hrefs raw p
  rw [← unit_raw, ← unit_raw]
  omega

theorem JS_DupValue_moves {h h' : Heap} {o : Owner} {v : JSCValue}
    (hd : JS_DupValue h o v = some h') :
    Moves h h' (oneAt v) (fun p => ofRaw o * oneAt v p) := by
  unfold JS_DupValue at hd
  unfold oneAt
  split at hd
  · rw [← Option.some_inj.mp hd]
    exact ⟨fun p => by simp, fun p => by simp⟩
  · split_ifs at hd
    rw [← Option.some_inj.mp hd]
    exact acquire_moves h o _

theorem JS_FreeValue_moves {h h' : Heap} {o : Owner} {v : JSCValue}
    (hf : JS_FreeValue h o v = some h') :
    Moves h h' (fun p => -oneAt v p) (fun p => -(ofRaw o * oneAt v p)) := by
  unfold JS_FreeValue at hf
  unfold oneAt
  split at hf
  · rw [← Option.some_inj.mp hf]
    exact ⟨fun p => by simp, fun p => by simp⟩
  · exact release_moves hf

theorem give_moves {h h' : Heap} {o o' : Owner} {v : JSCValue} (hg : give h o o' v = some h') :
    Moves h h' 0 (fun p => ofRaw o' * oneAt v p - ofRaw o * oneAt v p) := by
  unfold give at hg
  unfold oneAt
  split at hg
  · rw [← Option.some_inj.mp hg]
    exact ⟨fun p => by simp, fun p => by simp⟩
  · exact transfer_moves hg

/-- How far a step moves the counts. -/
def Action.moved : Action → Ptr → ℤ
  | .alloc q => one q
  | .dup _ q => one q
  | .free _ q => fun p => -one q p
  | .move _ _ _ => 0

/-- How far a step moves the references that nobody holds. -/
def Action.rawMoved : Action → Ptr → ℤ
  | .alloc q => one q
  | .dup o q => fun p => ofRaw (some o) * one q p
  | .free o q => fun p => -(ofRaw (some o) * one q p)
  | .move o o' q => fun p => ofRaw (some o') * one q p - ofRaw (some o) * one q p

theorem exec_moves {h h' : Heap} {a : Action} (he : exec h a = some h') :
    Moves h h' a.moved a.rawMoved := by
  cases a with
  | alloc q =>
    rw [exec] at he
    split_ifs at he
    rw [← Option.some_inj.mp he]
    obtain ⟨hcount, hraw⟩ := acquire_moves h raw q
    exact ⟨hcount, fun p => by rw [hraw p, ofRaw, if_pos rfl, one_mul]; rfl⟩
  | dup o q =>
    rw [exec] at he
    split_ifs at he
    rw [← Option.some_inj.mp he]
    exact acquire_moves h (some o) q
  | free o q => exact release_moves he
  | move o o' q => exact transfer_moves he

/-- The movements of a run are the sums of those of its steps. -/
theorem run_moves {h h' : Heap} {as : List Action} (hr : run h as = some h') :
    Moves h h' (as.map Action.moved).sum (as.map Action.rawMoved).sum := by
  induction as generalizing h with
  | nil =>
    rw [run, Option.some_inj] at hr
    rw [← hr]
    exact Moves.refl h
  | cons a as ih =>
    obtain ⟨h₁, ha, hrest⟩ := Option.bind_eq_some_iff.mp hr
    exact (exec_moves ha).trans (ih hrest)

/-! ## Temporaries

Making a temporary moves no raw reference when it duplicates its value, and takes one
over when it does not; ending it gives the count back unless it is kept. -/

/-- A handle that frees its value counts for one reference to it. -/
def JSValue.holds (x : JSValue) (p : Ptr) : ℤ := if x.owns then oneAt x.cValue p else 0

theorem takeOver_moves {h h' : Heap} {x : JSValue} (ht : x.takeOver h = some h') :
    Moves h h' 0 (fun p => -x.holds p) := by
  unfold JSValue.takeOver at ht
  unfold JSValue.holds
  split_ifs at ht with howns
  · have hmoves := give_moves ht
    refine ⟨hmoves.count, fun p => ?_⟩
    rw [hmoves.raw p, if_pos howns]
    simp [ofRaw]
  · rw [← Option.some_inj.mp ht]
    exact ⟨fun p => by simp, fun p => by rw [if_neg howns]; simp⟩

theorem init_dup_moves {h h' : Heap} {v : JSCValue} {x : JSValue}
    (hi : JSValue.init h true v true true = some (h', x)) :
    Moves h h' (oneAt v) 0 ∧ x = ⟨v, true, true⟩ := by
  unfold JSValue.init at hi
  rw [if_pos rfl] at hi
  obtain ⟨h₁, hd, hi⟩ := Option.bind_eq_some_iff.mp hi
  obtain ⟨h₂, ht, heq⟩ := Option.map_eq_some_iff.mp hi
  obtain ⟨rfl, rfl⟩ := Prod.mk.injEq .. ▸ heq
  have hmoves := (JS_DupValue_moves hd).trans (takeOver_moves ht)
  refine ⟨⟨fun p => ?_, fun p => ?_⟩, rfl⟩
  · rw [hmoves.count p]
    simp
  · rw [hmoves.raw p]
    simp [ofRaw, JSValue.holds, JSValue.owns]

theorem init_moves {h h' : Heap} {v : JSCValue} {hasContext : Bool} {x : JSValue}
    (hi : JSValue.init h hasContext v false true = some (h', x)) :
    Moves h h' 0 (fun p => -x.holds p) ∧ x = ⟨v, hasContext, true⟩ := by
  unfold JSValue.init at hi
  rw [if_neg Bool.false_ne_true] at hi
  obtain ⟨h₁, ht, heq⟩ := Option.map_eq_some_iff.mp hi
  obtain ⟨rfl, rfl⟩ := Prod.mk.injEq .. ▸ heq
  exact ⟨takeOver_moves ht, rfl⟩

theorem endTemporary_moves {h h' : Heap} {x : JSValue} {kept : Bool}
    (he : x.endTemporary h kept = some h') :
    Moves h h' (fun p => if kept then 0 else -x.holds p) 0 := by
  unfold JSValue.endTemporary JSValue.deinit at he
  unfold JSValue.holds
  cases kept with
  | true =>
    rw [if_pos rfl] at he
    simp only [if_true]
    split_ifs at he with howns
    · have hmoves := give_moves he
      exact ⟨hmoves.count, fun p => by rw [hmoves.raw p]; simp [ofRaw]⟩
    · rw [← Option.some_inj.mp he]
      exact Moves.refl h
  | false =>
    rw [if_neg Bool.false_ne_true] at he
    simp only [Bool.false_eq_true, if_false]
    split_ifs at he with howns
    · have hmoves := JS_FreeValue_moves he
      refine ⟨fun p => ?_, fun p => ?_⟩
      · rw [hmoves.count p, if_pos howns]
      · rw [hmoves.raw p]
        simp [ofRaw]
    · rw [← Option.some_inj.mp he]
      exact ⟨fun p => by rw [if_neg howns]; simp, fun p => by simp⟩

/-! ## One call -/

/-- How far the conversion of a result moves the counts, its handle included. The
conversions of the library come out even. -/
def Convertible.moved : Convertible → Ptr → ℤ
  | .custom trace x kept =>
    fun p => (trace.map Action.moved).sum p + if kept then 0 else -x.holds p
  | _ => 0

/-- How far the conversion moves the references that nobody holds. -/
def Convertible.rawMoved : Convertible → Ptr → ℤ
  | .custom trace _ _ => (trace.map Action.rawMoved).sum
  | _ => 0

theorem JS_NewString_moves {addr : Addresses} {h h' : Heap} {s : List Char} {v : JSCValue}
    (hn : JS_NewString addr h s = some (h', v)) : Moves h h' (oneAt v) (oneAt v) := by
  have hself : ∀ p, ofRaw raw * oneAt v p = oneAt v p := fun p => by simp [ofRaw]
  unfold JS_NewString at hn
  split at hn
  · rw [Option.some_inj, Prod.mk.injEq] at hn
    rw [← hn.1, ← hn.2]
    exact ⟨fun p => by simp [oneAt, JS_VALUE_GET_PTR], fun p => by simp [oneAt, JS_VALUE_GET_PTR]⟩
  · split_ifs at hn
    · obtain ⟨h₁, hd, heq⟩ := Option.map_eq_some_iff.mp hn
      rw [Prod.mk.injEq] at heq
      rw [← heq.1]
      rw [heq.2] at hd
      have hmoves := JS_DupValue_moves hd
      exact ⟨hmoves.count, fun p => by rw [hmoves.raw p, hself p]⟩
    · obtain ⟨h₁, ha, heq⟩ := Option.map_eq_some_iff.mp hn
      rw [Prod.mk.injEq] at heq
      rw [← heq.1, ← heq.2]
      exact exec_moves ha

/-- The encoded integers are not reference counted. -/
theorem get_ptr_int {A : IntType} {n : A.Carrier} {v : JSCValue} (h : A.jsValue n = some v) :
    JS_VALUE_GET_PTR v = none := by
  have hnew64 : ∀ n : Int64, JS_VALUE_GET_PTR (JS_NewInt64 n) = none := by
    intro n
    unfold JS_NewInt64
    split_ifs <;> rfl
  have hnew32 : ∀ n : UInt32, JS_VALUE_GET_PTR (JS_NewUint32 n) = none := by
    intro n
    unfold JS_NewUint32
    split_ifs <;> rfl
  cases A with
  | int32 => rw [← Option.some_inj.mp h]; rfl
  | uint32 => rw [← Option.some_inj.mp h]; exact hnew32 n
  | int64 => rw [← Option.some_inj.mp h]; exact hnew64 n
  | int => rw [← Option.some_inj.mp h]; exact hnew64 n
  | uint =>
    rw [IntType.jsValue, UInt.jsValue] at h
    split_ifs at h
    rw [← Option.some_inj.mp h]
    exact hnew32 _

theorem get_ptr_double (d : BitVec 64) : JS_VALUE_GET_PTR (JS_NewFloat64 d) = none := by
  unfold JS_NewFloat64
  dsimp only
  split_ifs <;> rfl

/-- A conversion and the end of its handle. -/
theorem jsValue_moves {addr : Addresses} {h h₁ h₂ : Heap} {r : Convertible} {x : JSValue}
    {kept : Bool} (hj : r.jsValue addr h = some (.returned h₁ (x, kept)))
    (he : x.endTemporary h₁ kept = some h₂) : Moves h h₂ r.moved r.rawMoved := by
  have hend := endTemporary_moves he
  -- A value without a reference count is wrapped and dropped without a trace.
  have hplain : ∀ {v : JSCValue} {hasContext : Bool}, JS_VALUE_GET_PTR v = none →
      (JSValue.init h hasContext v false true).map (fun y => Outcome.returned y.1 (y.2, false))
        = some (.returned h₁ (x, kept)) → Moves h h₂ 0 0 := by
    intro v hasContext hv hmap
    obtain ⟨⟨h', y⟩, hi, heq⟩ := Option.map_eq_some_iff.mp hmap
    simp only [Outcome.returned.injEq, Prod.mk.injEq] at heq
    obtain ⟨rfl, rfl, rfl⟩ := heq
    obtain ⟨hinit, rfl⟩ := init_moves hi
    have hzero : ∀ p, JSValue.holds ⟨v, hasContext, true⟩ p = 0 := by
      intro p
      simp [JSValue.holds, oneAt, hv]
    refine ⟨fun p => ?_, fun p => ?_⟩
    · rw [(hinit.trans hend).count p]
      simp [hzero]
    · rw [(hinit.trans hend).raw p]
      simp [hzero]
  cases r with
  | string s =>
    simp only [Convertible.jsValue, Option.bind_eq_bind, Option.bind_eq_some_iff, Prod.exists,
      Option.some_inj, Outcome.returned.injEq, Prod.mk.injEq] at hj
    obtain ⟨h', v, hn, h'', y, hi, rfl, rfl, rfl⟩ := hj
    obtain ⟨hinit, rfl⟩ := init_moves hi
    have hall := ((JS_NewString_moves hn).trans hinit).trans hend
    have hholds : ∀ p, JSValue.holds ⟨v, true, true⟩ p = oneAt v p := fun p => rfl
    refine ⟨fun p => ?_, fun p => ?_⟩
    · rw [hall.count p]
      simp [hholds, Convertible.moved]
    · rw [hall.raw p]
      simp [hholds, Convertible.rawMoved]
  | int A n =>
    rw [Convertible.jsValue] at hj
    split at hj
    · exact absurd hj (by simp)
    · next v hv => exact hplain (get_ptr_int hv) hj
  | double d => exact hplain (get_ptr_double d) hj
  | jsError => exact @hplain .undefined false rfl hj
  | array => exact absurd hj (by simp [Convertible.jsValue])
  | custom trace y k =>
    have hgive : ∃ h', run h trace = some h' ∧ y = x ∧ k = kept ∧ Moves h' h₁ 0 0 := by
      rw [Convertible.jsValue] at hj
      obtain ⟨h', hr, hj⟩ := Option.bind_eq_some_iff.mp hj
      refine ⟨h', hr, ?_⟩
      split_ifs at hj with howns
      · obtain ⟨h'', hg, heq⟩ := Option.bind_eq_some_iff.mp hj
        simp only [Option.some_inj, Outcome.returned.injEq, Prod.mk.injEq] at heq
        obtain ⟨rfl, rfl, rfl⟩ := heq
        have hmoves := give_moves hg
        exact ⟨rfl, rfl, hmoves.count, fun p => by rw [hmoves.raw p]; simp [ofRaw]⟩
      · obtain ⟨rfl, rfl, rfl⟩ : h' = h₁ ∧ y = x ∧ k = kept := by simpa using hj
        exact ⟨rfl, rfl, Moves.refl _⟩
    obtain ⟨h', hr, rfl, rfl, hmid⟩ := hgive
    have hall := ((run_moves hr).trans hmid).trans hend
    refine ⟨fun p => ?_, fun p => ?_⟩
    · rw [hall.count p]
      simp [Convertible.moved]
    · rw [hall.raw p]
      simp [Convertible.rawMoved]

/-- The references to `p` that the block and the conversion of its result leave behind,
as a difference to what was there: handles kept, properties set, values freed. -/
def Behaviour.kept (block : Behaviour) (this : JSCValue) (p : Ptr) : ℤ :=
  (block.trace.map Action.moved).sum p + (block.result.elim 0 (fun r => r.moved p)) +
    if block.keepsThis then oneAt this p else 0

/-- What a call does, by the way it ends. -/
theorem callRealFunction_cases {addr : Addresses} {h : Heap} {this : JSCValue}
    {block : Behaviour} {out : Outcome JSCValue}
    (hc : callRealFunction addr h true this block = some out) :
    (block.result = none ∧ ∃ h', out = .returned h' .undefined ∧
      Moves h h' (block.kept this) (block.trace.map Action.rawMoved).sum) ∨
    ∃ r h₁, block.result = some r ∧
      (∀ p, (h₁.refs raw p : ℤ) = h.refs raw p + (block.trace.map Action.rawMoved).sum p) ∧
      ((out = .trapped ∧ r.jsValue addr h₁ = some .trapped) ∨
        ∃ h₂ x k h', r.jsValue addr h₁ = some (.returned h₂ (x, k)) ∧ out = .returned h' x.cValue ∧
          Moves h h' (block.kept this)
            ((block.trace.map Action.rawMoved).sum + r.rawMoved)) := by
  unfold callRealFunction at hc
  rw [if_pos rfl] at hc
  obtain ⟨⟨h₀, thisObj⟩, hi, hc⟩ := Option.bind_eq_some_iff.mp hc
  obtain ⟨h₁, hr, hc⟩ := Option.bind_eq_some_iff.mp hc
  obtain ⟨hinit, rfl⟩ := init_dup_moves hi
  have hbefore := hinit.trans (run_moves hr)
  have hthis : JSValue.holds ⟨this, true, true⟩ = oneAt this := rfl
  cases hres : block.result with
  | none =>
    rw [hres] at hc
    obtain ⟨h', he, hout⟩ := Option.bind_eq_some_iff.mp hc
    have hall := hbefore.trans (endTemporary_moves he)
    refine Or.inl ⟨rfl, h', (Option.some_inj.mp hout).symm, fun p => ?_, fun p => ?_⟩
    · rw [hall.count p, Behaviour.kept, hres, hthis]
      simp only [Pi.add_apply, Option.elim_none]
      split_ifs <;> ring
    · rw [hall.raw p]
      simp
  | some r =>
    rw [hres] at hc
    obtain ⟨o, hj, hc⟩ := Option.bind_eq_some_iff.mp hc
    refine Or.inr ⟨r, h₁, rfl, fun p => ?_, ?_⟩
    · rw [hbefore.raw p]
      simp
    cases o with
    | trapped => exact Or.inl ⟨(Option.some_inj.mp hc).symm, hj⟩
    | returned h₂ y =>
      obtain ⟨x, k⟩ := y
      obtain ⟨h₃, he, hc⟩ := Option.bind_eq_some_iff.mp hc
      obtain ⟨h', he', hout⟩ := Option.bind_eq_some_iff.mp hc
      have hall := (hbefore.trans (jsValue_moves hj he)).trans (endTemporary_moves he')
      refine Or.inr ⟨h₂, x, k, h', hj, (Option.some_inj.mp hout).symm, fun p => ?_, fun p => ?_⟩
      · rw [hall.count p, Behaviour.kept, hres, hthis]
        simp only [Pi.add_apply, Option.elim_some]
        split_ifs <;> ring
      · rw [hall.raw p]
        simp

/-! ## The contract of a callback -/

/-- The value comes with exactly one reference besides those of its owners, and is
live. -/
def OwnedByCaller (h : Heap) (v : JSCValue) : Prop :=
  ∀ p, JS_VALUE_GET_PTR v = some p → h.Live p ∧ h.count p = h.others raw p + 1

/-- The contract of one call: it returns, the caller owns a reference to the value, and
the counts of `this` and of the arguments are as before, up to what the block itself
keeps. -/
def CallContract (h : Heap) (this : JSCValue) (args : List JSCValue) (block : Behaviour) :
    Outcome JSCValue → Prop
  | .trapped => False
  | .returned h' v =>
    OwnedByCaller h' v ∧
      ∀ a ∈ this :: args, ∀ p, JS_VALUE_GET_PTR a = some p → block.kept this p = 0 →
        h'.count p = h.count p

theorem ownedByCaller_iff (h : Heap) (v : JSCValue) :
    OwnedByCaller h v ↔ ∀ p, JS_VALUE_GET_PTR v = some p → h.refs raw p = 1 := by
  refine forall_congr' fun p => forall_congr' fun _ => ?_
  have hsum := h.count_eq_others_add raw p
  unfold Ledger.Live
  omega

/-- The results that hand a reference over. `rawAfter` is the number of references to
each address that nobody holds when the block returns. A string is freed by its own
handle before the caller gets it; a value without a reference count cannot go wrong; a
handle from elsewhere must leave one reference to its value that no handle frees. -/
def Convertible.HandsOver (addr : Addresses) (rawAfter : Ptr → ℤ) : Convertible → Prop
  | .string s =>
    Text.JS_NewString (Utf.utf8 s) = none ∨
      (Text.JS_NewString (Utf.utf8 s)).map Text.JSString.units = some [] ∧
        rawAfter addr.JS_ATOM_empty_string = 1
  | .int A n => (A.jsValue n).isSome
  | .double _ => True
  | .jsError => True
  | .array => False
  | .custom trace x _ =>
    ∀ p, JS_VALUE_GET_PTR x.cValue = some p →
      rawAfter p + (trace.map Action.rawMoved).sum p = 1

/-- A conversion that stops the program hands nothing over. -/
theorem not_handsOver_of_trapped {addr : Addresses} {h : Heap} {r : Convertible}
    (hj : r.jsValue addr h = some .trapped) (rawAfter : Ptr → ℤ) :
    ¬ r.HandsOver addr rawAfter := by
  cases r with
  | string s =>
    simp only [Convertible.jsValue, Option.bind_eq_bind, Option.bind_eq_some_iff, Prod.exists,
      Option.some_inj] at hj
    obtain ⟨h₁, v, -, h₂, y, -, hret⟩ := hj
    exact absurd hret (by simp)
  | int A n =>
    rw [Convertible.jsValue] at hj
    rw [Convertible.HandsOver]
    split at hj
    · next hv => simp [hv]
    · exact absurd hj (by simp)
  | double d => exact absurd hj (by simp [Convertible.jsValue])
  | jsError => exact absurd hj (by simp [Convertible.jsValue])
  | array => exact fun h => h
  | custom trace x k =>
    rw [Convertible.jsValue] at hj
    obtain ⟨h', -, hj⟩ := Option.bind_eq_some_iff.mp hj
    split_ifs at hj
    · obtain ⟨h'', -, hj⟩ := Option.bind_eq_some_iff.mp hj
      exact absurd hj (by simp)
    · exact absurd hj (by simp)

/-- A string is handed over if it is the shared empty one, with a reference to spare, or
none at all. -/
theorem handsOver_string_iff {addr : Addresses} {h h' : Heap} {s : List Char} {x : JSValue} {k : Bool}
    (hj : (Convertible.string s).jsValue addr h = some (.returned h' (x, k))) :
    (Convertible.string s).HandsOver addr (fun p => h.refs raw p) ↔
      ∀ p, JS_VALUE_GET_PTR x.cValue = some p →
        (h.refs raw p : ℤ) + (Convertible.string s).rawMoved p = 1 := by
  simp only [Convertible.jsValue, Option.bind_eq_bind, Option.bind_eq_some_iff, Prod.exists,
    Option.some_inj, Outcome.returned.injEq, Prod.mk.injEq] at hj
  obtain ⟨h₁, v, hn, h₂, y, hi, rfl, rfl, rfl⟩ := hj
  rw [(init_moves hi).2, Convertible.HandsOver]
  unfold JS_NewString at hn
  split at hn
  · next hnone =>
    rw [Option.some_inj, Prod.mk.injEq] at hn
    rw [← hn.2, hnone]
    simp [JS_VALUE_GET_PTR]
  · next js hsome =>
    rw [hsome]
    split_ifs at hn with hempty
    · obtain ⟨h₃, -, heq⟩ := Option.map_eq_some_iff.mp hn
      rw [Prod.mk.injEq] at heq
      rw [← heq.2]
      simp [hempty, JS_VALUE_GET_PTR, Convertible.rawMoved]
    · -- The address of a new string had no references at all.
      obtain ⟨h₃, ha, heq⟩ := Option.map_eq_some_iff.mp hn
      rw [Prod.mk.injEq] at heq
      rw [exec] at ha
      split_ifs at ha with hlive
      have hzero : h.refs raw addr.fresh = 0 := by
        have := h.refs_le_count raw addr.fresh
        unfold Ledger.Live at hlive
        omega
      rw [← heq.2]
      simp [hempty, JS_VALUE_GET_PTR, Convertible.rawMoved, hzero]

/-- A custom conversion returns its own handle. -/
theorem custom_returned {addr : Addresses} {h h' : Heap} {trace : List Action} {x y : JSValue} {k k' : Bool}
    (hj : (Convertible.custom trace y k').jsValue addr h = some (.returned h' (x, k))) : y = x := by
  rw [Convertible.jsValue] at hj
  obtain ⟨h₁, -, hj⟩ := Option.bind_eq_some_iff.mp hj
  split_ifs at hj
  · obtain ⟨h₂, -, hj⟩ := Option.bind_eq_some_iff.mp hj
    simp only [Option.some_inj, Outcome.returned.injEq, Prod.mk.injEq] at hj
    exact hj.2.1
  · have : h₁ = h' ∧ y = x ∧ k' = k := by simpa using hj
    exact this.2.1

/-- A conversion that returns hands a reference over exactly if one is left that nobody
holds. -/
theorem handsOver_iff {addr : Addresses} {h h' : Heap} {r : Convertible} {x : JSValue} {k : Bool}
    (hj : r.jsValue addr h = some (.returned h' (x, k))) :
    r.HandsOver addr (fun p => h.refs raw p) ↔
      ∀ p, JS_VALUE_GET_PTR x.cValue = some p → (h.refs raw p : ℤ) + r.rawMoved p = 1 := by
  -- A value without a reference count satisfies both sides.
  have hplain : ∀ {v : JSCValue} {hasContext : Bool}, JS_VALUE_GET_PTR v = none →
      (JSValue.init h hasContext v false true).map (fun y => Outcome.returned y.1 (y.2, false))
        = some (.returned h' (x, k)) → ∀ p, JS_VALUE_GET_PTR x.cValue ≠ some p := by
    intro v hasContext hv hmap p
    obtain ⟨⟨h₁, y⟩, hi, heq⟩ := Option.map_eq_some_iff.mp hmap
    simp only [Outcome.returned.injEq, Prod.mk.injEq] at heq
    obtain ⟨rfl, rfl, rfl⟩ := heq
    rw [(init_moves hi).2, hv]
    simp
  cases r with
  | string s => exact handsOver_string_iff hj
  | int A n =>
    rw [Convertible.jsValue] at hj
    split at hj
    · exact absurd hj (by simp)
    · next v hv =>
      refine iff_of_true ?_ fun p hp => absurd hp (hplain (get_ptr_int hv) hj p)
      rw [Convertible.HandsOver, hv]
      rfl
  | double d =>
    exact iff_of_true trivial fun p hp => absurd hp (hplain (get_ptr_double d) hj p)
  | jsError =>
    exact iff_of_true trivial fun p hp =>
      absurd hp (@hplain .undefined false rfl hj p)
  | array => exact absurd hj (by simp [Convertible.jsValue])
  | custom trace y k' =>
    rw [custom_returned hj]
    exact Iff.rfl

/-- **When a callback meets its contract.** A call meets it exactly if the context is
gone, or the block returns nothing, or its result hands a reference over. -/
theorem callRealFunction_contract_iff (addr : Addresses) (h : Heap) (opaqueContext : Bool)
    (this : JSCValue) (args : List JSCValue) (block : Behaviour) (out : Outcome JSCValue)
    (hc : callRealFunction addr h opaqueContext this block = some out) :
    CallContract h this args block out ↔
      opaqueContext = false ∨ ∀ r, block.result = some r →
        r.HandsOver addr
          (fun p => h.refs raw p + (block.trace.map Action.rawMoved).sum p) := by
  cases opaqueContext with
  | false =>
    rw [callRealFunction, if_neg Bool.false_ne_true, Option.some_inj] at hc
    rw [← hc]
    refine iff_of_true ⟨?_, fun a _ p _ _ => rfl⟩ (Or.inl rfl)
    intro p hp
    exact absurd hp (by simp [JS_VALUE_GET_PTR])
  | true =>
    have hcounts : ∀ {h' : Heap} {ρ : Ptr → ℤ}, Moves h h' (block.kept this) ρ →
        ∀ a ∈ this :: args, ∀ p, JS_VALUE_GET_PTR a = some p → block.kept this p = 0 →
          h'.count p = h.count p := by
      intro h' ρ hm a _ p _ hkept
      have := hm.count p
      rw [hkept] at this
      omega
    rcases callRealFunction_cases hc with
      ⟨hres, h', rfl, hm⟩ | ⟨r, h₁, hres, hraw, ⟨rfl, hj⟩ | ⟨h₂, x, k, h', hj, rfl, hm⟩⟩
    · -- The block returned nothing.
      refine iff_of_true ⟨?_, hcounts hm⟩ (Or.inr fun r hr => ?_)
      · intro p hp
        exact absurd hp (by simp [JS_VALUE_GET_PTR])
      · rw [hres] at hr
        exact absurd hr (by simp)
    · refine iff_of_false (fun hcon => hcon) ?_
      rintro (hfalse | hover)
      · exact absurd hfalse (by simp)
      · exact not_handsOver_of_trapped hj _ (hover r hres)
    · have hafter : (fun p => (h.refs raw p : ℤ) + (block.trace.map Action.rawMoved).sum p)
          = fun p => (h₁.refs raw p : ℤ) := funext fun p => (hraw p).symm
      have hover : (true = false ∨ ∀ r, block.result = some r →
          r.HandsOver addr (fun p => h.refs raw p + (block.trace.map Action.rawMoved).sum p)) ↔
          r.HandsOver addr (fun p => h₁.refs raw p) := by
        rw [hafter, hres]
        simp
      rw [hover, handsOver_iff hj, CallContract, ownedByCaller_iff]
      rw [and_iff_left (hcounts hm)]
      refine forall_congr' fun p => forall_congr' fun _ => ?_
      have := hm.raw p
      rw [Pi.add_apply, ← add_assoc, ← hraw p] at this
      omega

/-- A callback with an object for `this` and two arguments, which stores the second one.
Its result is of a type whose conversion makes an object and a second reference to it: one
goes with the handle, the other is left to the caller. -/
theorem callRealFunction_contract_duplicate :
    let h := ((Ledger.empty.acquire (some .engine) 5).acquire (some .engine) 6).acquire
      (some .engine) 7
    let block : Behaviour := ⟨[.dup .handle 6, .dup .engine 7, .free .handle 6], false,
      some (.custom [.alloc 1, .dup .raw 1, .move .raw .handle 1]
        ⟨.ptr .object 1, true, true⟩ false)⟩
    ∃ h', callRealFunction ⟨1, 0⟩ h true (.ptr .object 5) block
        = some (.returned h' (.ptr .object 1)) ∧
      CallContract h (.ptr .object 5) [.ptr .object 6, .ptr .string 7] block
        (.returned h' (.ptr .object 1)) ∧
      h'.count 1 = 1 ∧ h'.count 5 = 1 ∧ h'.count 6 = 1 ∧ h'.count 7 = 2 := by
  intro h block
  refine ⟨_, rfl, ?_, rfl, rfl, rfl, rfl⟩
  refine (callRealFunction_contract_iff ⟨1, 0⟩ h true _ _ block _ rfl).mpr (Or.inr ?_)
  intro r hr
  rw [← Option.some_inj.mp hr]
  intro p hp
  obtain rfl : 1 = p := Option.some_inj.mp hp
  decide

/-- A callback that returns the string `a` hands out an address that has been freed. -/
theorem callRealFunction_string_dangles :
    ∃ h', callRealFunction ⟨1, 0⟩ Ledger.empty true .undefined ⟨[], false, some (.string ['a'])⟩
        = some (.returned h' (.ptr .string 1)) ∧ h'.count 1 = 0 ∧
      ¬ CallContract Ledger.empty .undefined [] ⟨[], false, some (.string ['a'])⟩
        (.returned h' (.ptr .string 1)) := by
  refine ⟨_, rfl, rfl, ?_⟩
  rintro ⟨howned, -⟩
  exact absurd (howned 1 rfl).1 (by decide)

end QuickJSSwift.Ownership
