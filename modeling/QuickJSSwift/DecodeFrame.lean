/-
What decoding leaves behind: references, and a pending exception.

`Runs` is an account of a computation. What is in the exception slot is what was put there
last, as the log has it, and the reference counts have moved by the references that are
still in hand. It composes, so it is proved call by call and then follows for the
initialisers, over the turns of the array loop and the depth of the type. What the array
loop keeps in hand is one reference to every element that it has read.

The counts that are compared leave out the reference by which the runtime itself holds
its pending exception: that one moves when code throws, and is no matter of the decoder.
-/
import QuickJSSwift.DecodeLoop

set_option autoImplicit false

namespace QuickJSSwift.Decode

open Number Engine Ownership

variable {ω : Type}

/-! ## The account -/

/-- The counts without the reference of the exception slot. -/
def kept (rt : Runtime ω) (p : Ptr) : ℤ := rt.ref_count p - oneAt rt.current_exception p

/-- What is in the slot after some events. -/
def slotAfter : List Event → JSCValue → JSCValue
  | [], slot => slot
  | .threw x :: new, _ => slotAfter new x
  | .cleared :: new, _ => slotAfter new .null

theorem slotAfter_append (l l' : List Event) (slot : JSCValue) :
    slotAfter (l ++ l') slot = slotAfter l' (slotAfter l slot) := by
  induction l generalizing slot with
  | nil => rfl
  | cons e l ih => cases e <;> exact ih _

/-- From `rt` to `rt'` the log has grown by what explains the slot, and the counts by the
references `δ` in hand. -/
def Runs (rt rt' : Runtime ω) (δ : Ptr → ℤ) : Prop :=
  ∃ new, rt'.log = rt.log ++ new ∧
    rt'.current_exception = slotAfter new rt.current_exception ∧
    ∀ p, kept rt' p = kept rt p + δ p

theorem Runs.refl (rt : Runtime ω) : Runs rt rt 0 := by
  refine ⟨[], (List.append_nil _).symm, rfl, fun p => ?_⟩
  rw [Pi.zero_apply]
  omega

theorem Runs.trans {rt rt' rt'' : Runtime ω} {δ δ' δ'' : Ptr → ℤ} (h : Runs rt rt' δ)
    (h' : Runs rt' rt'' δ') (hδ : ∀ p, δ'' p = δ p + δ' p) : Runs rt rt'' δ'' := by
  obtain ⟨new, hlog, hslot, hkept⟩ := h
  obtain ⟨new', hlog', hslot', hkept'⟩ := h'
  refine ⟨new ++ new', ?_, ?_, ?_⟩
  · rw [hlog', hlog, List.append_assoc]
  · rw [hslot', hslot, slotAfter_append]
  · intro p
    rw [hkept', hkept, hδ]
    omega

/-- The events of a computation. -/
def events (rt rt' : Runtime ω) : List Event := rt'.log.drop rt.log.length

theorem Runs.slot {rt rt' : Runtime ω} {δ : Ptr → ℤ} (h : Runs rt rt' δ) :
    rt'.current_exception = slotAfter (events rt rt') rt.current_exception := by
  obtain ⟨new, hlog, hslot, -⟩ := h
  have hnew : events rt rt' = new := by
    unfold events
    rw [hlog, List.drop_left]
  rw [hnew]
  exact hslot

theorem Runs.kept {rt rt' : Runtime ω} {δ : Ptr → ℤ} (h : Runs rt rt' δ) (p : Ptr) :
    kept rt' p = Decode.kept rt p + δ p := by
  obtain ⟨new, -, -, hkept⟩ := h
  exact hkept p

/-! ## Calls -/

/-- The world is not part of the account. -/
theorem runs_world (rt : Runtime ω) (w : ω) : Runs rt { rt with world := w } 0 := by
  obtain ⟨new, hlog, hslot, hkept⟩ := Runs.refl rt
  exact ⟨new, hlog, hslot, hkept⟩

theorem runs_JS_Throw (rt : Runtime ω) (x : JSCValue) : Runs rt (rt.JS_Throw x) 0 := by
  refine ⟨[.threw x], rfl, rfl, fun p => ?_⟩
  unfold kept Runtime.JS_Throw
  dsimp only
  rw [Pi.zero_apply]
  omega

theorem oneAt_null (p : Ptr) : oneAt .null p = 0 := rfl

theorem runs_catchException (rt : Runtime ω) : Runs rt rt.catchException 0 := by
  refine ⟨[.cleared], rfl, rfl, fun p => ?_⟩
  unfold kept Runtime.catchException
  dsimp only
  rw [oneAt_null, Pi.zero_apply]
  omega

/-- The pending exception goes into the caller's hands. -/
theorem runs_JS_GetException (rt : Runtime ω) :
    Runs rt rt.JS_GetException.2 (oneAt rt.current_exception) := by
  refine ⟨[.cleared], rfl, rfl, fun p => ?_⟩
  unfold kept Runtime.JS_GetException
  dsimp only
  rw [oneAt_null]
  omega

/-- A count that moves is a reference in hand. -/
theorem runs_refs (rt : Runtime ω) (δ : Ptr → ℤ) :
    Runs rt { rt with ref_count := fun p => rt.ref_count p + δ p } δ := by
  refine ⟨[], (List.append_nil _).symm, rfl, fun p => ?_⟩
  unfold kept
  dsimp only
  omega

theorem runs_JS_FreeValue (rt : Runtime ω) (v : JSCValue) :
    Runs rt (rt.JS_FreeValue v) (fun p => -oneAt v p) := by
  obtain ⟨new, hlog, hslot, hkept⟩ := runs_refs rt (fun p => -oneAt v p)
  exact ⟨new, hlog, hslot, hkept⟩

theorem runs_JS_FreeCString (rt : Runtime ω) (c : CString) :
    Runs rt (rt.JS_FreeCString c) (fun p => -one c.cell p) := by
  obtain ⟨new, hlog, hslot, hkept⟩ := runs_refs rt (fun p => -one c.cell p)
  exact ⟨new, hlog, hslot, hkept⟩

/-- What a call puts into the caller's hands. -/
def inHand {α : Type} (held : α → Ptr → ℤ) : Option α → Ptr → ℤ
  | some a => held a
  | none => 0

/-- A call leaves what it returns in hand, and nothing if it fails. -/
theorem runs_call {α : Type} (rt : Runtime ω) (held : α → Ptr → ℤ) (f : ω → ω × Reply α) :
    Runs rt (rt.call held f).2 (inHand held (rt.call held f).1) := by
  unfold Runtime.call
  obtain ⟨w, r⟩ := f rt.world
  have hworld := runs_world rt w
  cases r with
  | value a caught =>
    dsimp only
    refine Runs.trans (Runs.trans hworld ?_ (fun _ => (Int.zero_add _).symm)) (runs_refs _ (held a))
      (fun _ => (Int.zero_add _).symm)
    split_ifs
    · exact runs_catchException _
    · exact Runs.refl _
  | throws x => exact hworld.trans (runs_JS_Throw _ x) (fun _ => (Int.zero_add _).symm)
  | fails => exact hworld

theorem runs_JS_ThrowError (E : Engine ω) (rt : Runtime ω) (error_num : JSErrorEnum)
    (message : String) : Runs rt (E.JS_ThrowError rt error_num message) 0 :=
  (runs_world rt _).trans (runs_JS_Throw _ _) (fun _ => (Int.zero_add _).symm)

theorem runs_toCString (E : Engine ω) (rt : Runtime ω) (val : JSCValue) :
    Runs rt (E.toCString rt val).2 (inHand (fun c => one c.cell) (E.toCString rt val).1) := by
  unfold Engine.toCString
  split
  · exact Runs.refl rt
  · exact runs_JS_ThrowError E rt _ _
  · split
    · exact runs_call rt _ _
    · exact runs_call rt _ _

theorem runs_getPropertyStr (E : Engine ω) (rt : Runtime ω) (this_obj : JSCValue)
    (prop : String) :
    Runs rt (E.getPropertyStr rt this_obj prop).2 (oneAt (E.getPropertyStr rt this_obj prop).1) := by
  have hcall := runs_call rt oneAt (fun w => E.JS_GetPropertyStr w this_obj prop)
  unfold Engine.getPropertyStr
  split
  · next h =>
    rw [h] at hcall
    exact hcall
  · next h =>
    rw [h] at hcall
    exact hcall

theorem runs_getPropertyUint32 (E : Engine ω) (rt : Runtime ω) (this_obj : JSCValue)
    (idx : UInt32) :
    Runs rt (E.getPropertyUint32 rt this_obj idx).2
      (oneAt (E.getPropertyUint32 rt this_obj idx).1) := by
  have hcall := runs_call rt oneAt (fun w => E.JS_GetPropertyUint32 w this_obj idx)
  unfold Engine.getPropertyUint32
  split
  · next h =>
    rw [h] at hcall
    exact hcall
  · next h =>
    rw [h] at hcall
    exact hcall

/-! ## Conversion to an index -/

/-- Taking a C string and freeing it. -/
theorem Runs.freeCString {rt rt' : Runtime ω} {c : CString}
    (h : Runs rt rt' (inHand (fun c : CString => one c.cell) (some c))) :
    Runs rt (rt'.JS_FreeCString c) 0 := by
  apply h.trans (runs_JS_FreeCString rt' c)
  intro p
  change (0 : ℤ) = one c.cell p + -one c.cell p
  omega

theorem numberOfPrimitive_string (E : Engine ω) (rt : Runtime ω) (p : Ptr) :
    E.numberOfPrimitive rt (.ptr .string p) =
      match E.toCString rt (.ptr .string p) with
      | (some c, rt) => (some (numberOfText E.js_strtod c.bytes), rt.JS_FreeCString c)
      | (none, rt) => (none, rt) := rfl

theorem runs_numberOfPrimitive (E : Engine ω) (rt : Runtime ω) (val : JSCValue) :
    Runs rt (E.numberOfPrimitive rt val).2 0 := by
  cases val with
  | ptr t p =>
    cases t with
    | string =>
      have hcstr := runs_toCString E rt (.ptr .string p)
      rw [numberOfPrimitive_string]
      split
      · next h =>
        rw [h] at hcstr
        exact hcstr.freeCString
      · next h =>
        rw [h] at hcstr
        exact hcstr
    | symbol => exact runs_JS_ThrowError E rt _ _
    | _ => exact Runs.refl rt
  | _ => exact Runs.refl rt

/-- An object becomes a primitive, whose reference is given back in the end. -/
theorem runs_toNumber_object (E : Engine ω) (rt : Runtime ω) (p : Ptr) :
    Runs rt (E.toNumber rt (.ptr .object p)).2 0 := by
  have hcall := runs_call rt oneAt (fun w => E.JS_ToPrimitive w (.ptr .object p))
  rw [Engine.toNumber]
  split
  · next h =>
    rw [h] at hcall
    exact hcall
  · next prim rt' h =>
    rw [h] at hcall
    apply (hcall.trans (runs_numberOfPrimitive E rt' prim) (fun _ => (Int.add_zero _).symm)).trans
      (runs_JS_FreeValue _ prim)
    intro q
    change (0 : ℤ) = oneAt prim q + -oneAt prim q
    omega

theorem runs_toNumber (E : Engine ω) (rt : Runtime ω) (val : JSCValue) :
    Runs rt (E.toNumber rt val).2 0 := by
  cases val with
  | ptr t p =>
    cases t with
    | object => exact runs_toNumber_object E rt p
    | _ => exact runs_numberOfPrimitive E rt _
  | _ => exact runs_numberOfPrimitive E rt _

/-- `JS_ToInt64Sat` of a value on the heap goes through the number. -/
theorem toInt64Sat_ptr (E : Engine ω) (rt : Runtime ω) (t : HeapTag) (p : Ptr) :
    E.toInt64Sat rt (.ptr t p) =
      ((E.toNumber rt (.ptr t p)).1.map satOfNumber, (E.toNumber rt (.ptr t p)).2) := by
  delta Engine.toInt64Sat
  dsimp only
  obtain ⟨num, rt'⟩ := E.toNumber rt (.ptr t p)
  cases num <;> rfl

/-- That of any other value is there at once. -/
theorem toInt64Sat_of_not_ptr (E : Engine ω) {val : JSCValue} (h : ∀ t p, val ≠ .ptr t p) :
    ∃ v, ∀ rt, E.toInt64Sat rt val = (v, rt) := by
  cases val with
  | ptr t p => exact absurd rfl (h t p)
  | _ => exact ⟨_, fun _ => rfl⟩

theorem runs_toInt64Sat (E : Engine ω) (rt : Runtime ω) (val : JSCValue) :
    Runs rt (E.toInt64Sat rt val).2 0 := by
  by_cases hptr : ∃ t p, val = .ptr t p
  · obtain ⟨t, p, rfl⟩ := hptr
    rw [toInt64Sat_ptr]
    exact runs_toNumber E rt _
  · push Not at hptr
    obtain ⟨v, h⟩ := toInt64Sat_of_not_ptr E hptr
    rw [h]
    exact Runs.refl rt

theorem runs_toIndex (E : Engine ω) (rt : Runtime ω) (val : JSCValue) :
    Runs rt (E.toIndex rt val).2 0 := by
  have hsat := runs_toInt64Sat E rt val
  unfold Engine.toIndex
  split
  · next h =>
    rw [h] at hsat
    exact hsat
  · next rt' h =>
    rw [h] at hsat
    split_ifs
    · exact hsat.trans (runs_JS_ThrowError E rt' _ _) (fun _ => (Int.zero_add _).symm)
    · exact hsat

/-! ## The initialisers -/

theorem oneAt_nonneg (v : JSCValue) (p : Ptr) : 0 ≤ oneAt v p := by
  unfold oneAt one
  split
  · exact le_rfl
  · split_ifs <;> omega

/-- What is in hand are references. -/
def Grows (rt rt' : Runtime ω) : Prop := ∃ δ : Ptr → ℤ, (∀ p, 0 ≤ δ p) ∧ Runs rt rt' δ

theorem Runs.grows {rt rt' : Runtime ω} (h : Runs rt rt' 0) : Grows rt rt' :=
  ⟨0, fun _ => le_rfl, h⟩

theorem Grows.refl (rt : Runtime ω) : Grows rt rt := (Runs.refl rt).grows

theorem Grows.trans (rt rt' rt'' : Runtime ω) (h : Grows rt rt') (h' : Grows rt' rt'') :
    Grows rt rt'' := by
  obtain ⟨δ, hδ, hruns⟩ := h
  obtain ⟨δ', hδ', hruns'⟩ := h'
  exact ⟨fun p => δ p + δ' p, fun p => Int.add_nonneg (hδ p) (hδ' p), hruns.trans hruns' (fun _ => rfl)⟩

theorem Grows.kept_le {rt rt' : Runtime ω} (h : Grows rt rt') (p : Ptr) : kept rt p ≤ kept rt' p := by
  obtain ⟨δ, hδ, hruns⟩ := h
  rw [hruns.kept]
  have := hδ p
  omega

/-- The account of an initialiser, if it returns. -/
def Accounts {α : Type} (rt : Runtime ω) : Outcome ω α → Prop
  | .returned _ rt' => Grows rt rt'
  | .trapped => True

theorem Accounts.of_grows {α : Type} {rt rt' : Runtime ω} (h : Grows rt rt') {o : Outcome ω α}
    (ho : Accounts rt' o) : Accounts rt o := by
  cases o with
  | returned a rt'' => exact Grows.trans _ _ _ h ho
  | trapped => trivial

/-- A value that is in hand, and freed in the end. -/
theorem Accounts.free {α : Type} {rt rt' : Runtime ω} {o : Outcome ω α} (ho : Accounts rt' o)
    {v : JSCValue} (h : Runs rt rt' (oneAt v)) : Accounts rt (o.free v) := by
  cases o with
  | trapped => trivial
  | returned a rt'' =>
    -- The reference to `v` comes and goes, and what is in hand besides stays.
    obtain ⟨δ, hδ, hruns⟩ : Grows rt' rt'' := ho
    refine ⟨δ, hδ, (h.trans hruns (fun _ => rfl)).trans (runs_JS_FreeValue rt'' v) (fun p => ?_)⟩
    omega

theorem runs_string (E : Engine ω) {rt rt' : Runtime ω} {value : JSCValue}
    {a : Option (List Char)} (h : String.initValue E rt value = .returned a rt') :
    Runs rt rt' 0 := by
  have hcstr := runs_toCString E rt value
  unfold String.initValue at h
  split at h
  · next heq =>
    cases h
    rw [heq] at hcstr
    exact hcstr.freeCString
  · next heq =>
    cases h
    rw [heq] at hcstr
    exact hcstr

theorem accounts_string (E : Engine ω) (rt : Runtime ω) (value : JSCValue) :
    Accounts rt (String.initValue E rt value) := by
  cases h : String.initValue E rt value with
  | trapped => trivial
  | returned a rt' => exact (runs_string E h).grows

section Loop

variable {α : Type} {E : Engine ω} {element : Runtime ω → JSCValue → Outcome ω α}

/-- An element that was read is in hand. -/
theorem grows_elementAt (helement : ∀ rt v, Accounts rt (element rt v)) {value : JSCValue} {i : ℕ}
    {rt rt' : Runtime ω} {a : Option α} (h : elementAt E element value i rt = .returned a rt') :
    Grows rt rt' := by
  have hacc := helement (E.getPropertyUint32 rt value (UInt32.ofNat i)).2
    (E.getPropertyUint32 rt value (UInt32.ofNat i)).1
  change Accounts _ (elementAt E element value i rt) at hacc
  rw [h] at hacc
  exact Grows.trans _ _ _ ⟨_, oneAt_nonneg _, runs_getPropertyUint32 E rt value (UInt32.ofNat i)⟩ hacc

theorem accounts_array (helement : ∀ rt v, Accounts rt (element rt v)) (rt : Runtime ω)
    (value : JSCValue) : Accounts rt (Array.initValue E element rt value) := by
  unfold Array.initValue
  split_ifs
  swap
  · exact Grows.refl rt
  have hlength := runs_getPropertyStr E rt value "length"
  generalize E.getPropertyStr rt value "length" = read at hlength ⊢
  obtain ⟨length, rt₁⟩ := read
  -- The rest comes between the read of `length` and its release.
  refine Accounts.free ?_ hlength
  have hindex := runs_toIndex E rt₁ value
  split
  · next h =>
    rw [h] at hindex
    exact hindex.grows
  · next size rt₂ h =>
    rw [h] at hindex
    apply Accounts.of_grows hindex.grows
    cases hloop : arrayLoop E element value size 0 [] rt₂ with
    | trapped => trivial
    | returned a rt' =>
      exact arrayLoop_along Grows.refl Grows.trans size rfl
        (fun i _ _ _ _ _ _ _ hele => grows_elementAt helement hele) hloop

end Loop

/-- **Every initialiser** keeps the account. -/
theorem accounts_initValue (E : Engine ω) (T : Conforming) (rt : Runtime ω) (value : JSCValue) :
    Accounts rt (initValue E T rt value) := by
  induction T generalizing rt value with
  | string => exact accounts_string E rt value
  | array T ih => exact accounts_array (fun rt v => ih rt v) rt value
  | _ => exact Grows.refl rt

/-! ## Neutrality -/

/-- The counts are what they were. -/
def Neutral (rt rt' : Runtime ω) : Prop := ∀ p, kept rt' p = kept rt p

theorem Runs.neutral {rt rt' : Runtime ω} (h : Runs rt rt' 0) : Neutral rt rt' := by
  intro p
  rw [h.kept, Pi.zero_apply]
  omega

/-- References do not cancel. -/
theorem neutral_parts (rt rt' rt'' : Runtime ω) (h : Grows rt rt') (h' : Grows rt' rt'') :
    Neutral rt rt'' ↔ Neutral rt rt' ∧ Neutral rt' rt'' := by
  constructor
  · intro hall
    -- The counts only grow, so what is the same in the end has been so all the time.
    have hsame : Neutral rt rt' := by
      intro p
      have := h.kept_le p
      have := h'.kept_le p
      have := hall p
      omega
    exact ⟨hsame, fun p => (hall p).trans (hsame p).symm⟩
  · rintro ⟨hfirst, hsecond⟩ p
    rw [hsecond, hfirst]

/-- No reference is one of a value without a count. -/
theorem oneAt_eq_zero_iff (v : JSCValue) :
    (∀ p, oneAt v p = 0) ↔ JS_VALUE_HAS_REF_COUNT v = false := by
  rw [has_ref_count_eq]
  unfold oneAt
  cases JS_VALUE_GET_PTR v with
  | none => simp
  | some q =>
    refine iff_of_false (fun h => ?_) (by simp)
    have hone := h q
    simp [one] at hone

theorem has_ref_count_of_object {v : JSCValue} (h : JS_IsObject v = true) :
    JS_VALUE_HAS_REF_COUNT v = true := by
  have htag : JS_VALUE_GET_TAG v = -1 := by simpa [JS_IsObject] using h
  unfold JS_VALUE_HAS_REF_COUNT
  rw [htag]
  decide

/-- A value without a reference count is no object, so no initialiser reads elements of
it. -/
theorem neutral_of_uncounted (E : Engine ω) (T : Conforming) {rt rt' : Runtime ω} {v : JSCValue}
    {a : Option T.Carrier} (hv : JS_VALUE_HAS_REF_COUNT v = false)
    (h : initValue E T rt v = .returned a rt') : Neutral rt rt' := by
  cases T with
  | string => exact (runs_string E h).neutral
  | array T =>
    have hobj : JS_IsObject v ≠ true := by
      intro hobj
      rw [has_ref_count_of_object hobj] at hv
      cases hv
    rcases array_returned h with ⟨-, rfl⟩ | ⟨hobj', -⟩ | ⟨hobj', -⟩
    · exact fun _ => rfl
    · exact absurd hobj' hobj
    · exact absurd hobj' hobj
  | int A => cases h; exact fun _ => rfl
  | double => cases h; exact fun _ => rfl
  | error => cases h; exact fun _ => rfl

/-- One turn of the loop is neutral exactly if the element has no reference count. -/
theorem neutral_elementAt_iff (E : Engine ω) (T : Conforming) {value : JSCValue} {i : ℕ}
    {rt rt' : Runtime ω} {a : Option T.Carrier}
    (h : elementAt E (initValue E T) value i rt = .returned a rt') :
    Neutral rt rt' ↔
      JS_VALUE_HAS_REF_COUNT (E.getPropertyUint32 rt value (UInt32.ofNat i)).1 = false := by
  have hread := runs_getPropertyUint32 E rt value (UInt32.ofNat i)
  have hele : initValue E T (E.getPropertyUint32 rt value (UInt32.ofNat i)).2
      (E.getPropertyUint32 rt value (UInt32.ofNat i)).1 = .returned a rt' := h
  generalize E.getPropertyUint32 rt value (UInt32.ofNat i) = read at hread hele ⊢
  obtain ⟨v, rt₁⟩ := read
  dsimp only at hread hele ⊢
  have hgrows : Grows rt₁ rt' := by
    have hacc := accounts_initValue E T rt₁ v
    rw [hele] at hacc
    exact hacc
  rw [neutral_parts rt rt₁ rt' ⟨_, oneAt_nonneg v, hread⟩ hgrows, ← oneAt_eq_zero_iff]
  -- The read leaves its reference behind; decoding a value without one is neutral.
  have hsame : Neutral rt rt₁ ↔ ∀ p, oneAt v p = 0 := by
    refine forall_congr' fun p => ?_
    rw [hread.kept]
    omega
  rw [hsame]
  exact and_iff_left_of_imp fun hv => neutral_of_uncounted E T ((oneAt_eq_zero_iff v).mp hv) hele

/-- No element that the array loop comes to has a reference count. -/
def Uncounted (E : Engine ω) : Conforming → Runtime ω → JSCValue → Prop
  | .array T, rt, value =>
    JS_IsObject value → ∀ size rt',
      E.toIndex (E.getPropertyStr rt value "length").2 value = (some size, rt') →
      ∀ i < size, ∀ l rt₁, firstElements E (initValue E T) value rt' i = some (l, rt₁) →
        JS_VALUE_HAS_REF_COUNT (E.getPropertyUint32 rt₁ value (UInt32.ofNat i)).1 = false
  | _, _, _ => True

/-- **The loop is neutral** exactly if no element that it comes to has a reference
count. -/
theorem neutral_arrayLoop_iff (E : Engine ω) (T : Conforming) {value : JSCValue} {size : ℕ}
    {rt rt' : Runtime ω} {a : Option (List T.Carrier)}
    (h : arrayLoop E (initValue E T) value size 0 [] rt = .returned a rt') :
    Neutral rt rt' ↔ ∀ i < size, ∀ l rt₁,
      firstElements E (initValue E T) value rt i = some (l, rt₁) →
        JS_VALUE_HAS_REF_COUNT (E.getPropertyUint32 rt₁ value (UInt32.ofNat i)).1 = false := by
  have hgrows : ∀ i, EachTurn E (initValue E T) value rt Grows i :=
    fun i _ _ _ _ _ hele => grows_elementAt (accounts_initValue E T) hele
  rw [arrayLoop_along_iff Grows.refl Grows.trans (fun _ _ => rfl) neutral_parts size rfl hgrows h,
    Nat.zero_add]
  refine forall_congr' fun i => ?_
  rw [forall_prop_of_true (Nat.zero_le i)]
  refine imp_congr_right fun hi => forall_congr' fun l => forall_congr' fun rt₁ =>
    imp_congr_right fun hfirst => ?_
  -- The loop returns, so this element does.
  cases hele : elementAt E (initValue E T) value i rt₁ with
  | trapped =>
    have htrap := (arrayLoop_trapped_iff size rfl).mpr
      ⟨i, l, rt₁, Nat.zero_le i, by omega, hfirst, .inr hele⟩
    rw [h] at htrap
    cases htrap
  | returned a' rt₂ =>
    rw [← neutral_elementAt_iff E T hele]
    constructor
    · exact fun hturn => hturn a' rt₂ rfl
    · rintro hneutral a'' rt₃ ⟨⟩
      exact hneutral

/-- **Decoding is neutral** for the reference counts exactly if no element that the array
loop comes to is a reference-counted value. -/
theorem decode_neutral_iff (E : Engine ω) (T : Conforming) (rt rt' : Runtime ω) (value : JSCValue)
    (a : Option T.Carrier) (h : initValue E T rt value = .returned a rt') :
    (∀ p, kept rt' p = kept rt p) ↔ Uncounted E T rt value := by
  change Neutral rt rt' ↔ _
  cases T with
  | string => exact iff_of_true (runs_string E h).neutral trivial
  | array T =>
    -- Up to the loop, only `length` is in hand.
    have hlength : ∀ size rt₁,
        E.toIndex (E.getPropertyStr rt value "length").2 value = (size, rt₁) →
        Runs rt rt₁ (oneAt (E.getPropertyStr rt value "length").1) := by
      intro size rt₁ hindex
      have hruns := runs_toIndex E (E.getPropertyStr rt value "length").2 value
      rw [hindex] at hruns
      exact (runs_getPropertyStr E rt value "length").trans hruns (fun _ => (Int.add_zero _).symm)
    rcases array_returned h with ⟨hobj, rfl⟩ | ⟨-, rt₁, hindex, rfl⟩ |
      ⟨hobj, size, rt₁, rt₂, hindex, hloop, rfl⟩
    · refine iff_of_true (fun _ => rfl) (fun hobj' => ?_)
      rw [hobj] at hobj'
      cases hobj'
    · refine iff_of_true (fun p => ?_) (fun _ size rt₂ hindex' => ?_)
      · rw [(runs_JS_FreeValue rt₁ _).kept, (hlength none rt₁ hindex).kept]
        omega
      · rw [hindex] at hindex'
        cases hindex'
    · have hneutral : Neutral rt (rt₂.JS_FreeValue (E.getPropertyStr rt value "length").1) ↔
          Neutral rt₁ rt₂ := by
        refine forall_congr' fun p => ?_
        rw [(runs_JS_FreeValue rt₂ _).kept, (hlength (some size) rt₁ hindex).kept]
        omega
      rw [hneutral, neutral_arrayLoop_iff E T hloop]
      constructor
      · intro hele _ size' rt₃ hindex'
        rw [hindex] at hindex'
        cases hindex'
        exact hele
      · exact fun hele => hele hobj size rt₁ hindex
  | int A => cases h; exact iff_of_true (fun _ => rfl) trivial
  | double => cases h; exact iff_of_true (fun _ => rfl) trivial
  | error => cases h; exact iff_of_true (fun _ => rfl) trivial

/-- An engine with one array of one element, at address 1. The array as a string, at
address 3, is `1`. -/
def oneElement (v : JSCValue) : Engine Unit where
  JS_ToCString := fun w val => (w, .value ⟨(JS_VALUE_GET_PTR val).getD 0, [0x31]⟩ false)
  JS_ToPrimitive := fun w _ => (w, .value (.ptr .string 3) false)
  JS_GetPropertyStr := fun w _ _ => (w, .value (.int 1) false)
  JS_GetPropertyUint32 := fun w _ idx => (w, .value (if idx = 0 then v else .undefined) false)
  JS_IsError := fun _ _ => false
  errorObject := fun w _ _ => (w, .ptr .object 4)
  JS_AtomToString := fun _ => 5
  js_strtod := fun _ _ _ => 0x3ff0000000000000#64

/-- Nothing is pending, and every value has one reference. -/
def quietRuntime : Runtime Unit := ⟨(), .null, fun _ => 1, []⟩

/-- Decoding `[1]` as `[Int32]` is neutral. -/
theorem decode_neutral_number : ∃ rt' a,
    initValue (oneElement (.int 1)) (.array (.int .int32)) quietRuntime (.ptr .object 1)
        = .returned a rt' ∧
      ∀ p, kept rt' p = kept quietRuntime p := by
  refine ⟨_, _, rfl, (decode_neutral_iff (oneElement (.int 1)) (.array (.int .int32)) quietRuntime _
    (.ptr .object 1) _ rfl).mpr ?_⟩
  intro _ size rt' _ i _ l rt₁ _
  -- Every element is a number or `undefined`.
  have hread : ((oneElement (.int 1)).getPropertyUint32 rt₁ (.ptr .object 1) (UInt32.ofNat i)).1 =
      if UInt32.ofNat i = 0 then .int 1 else .undefined := rfl
  rw [hread]
  split_ifs <;> rfl

/-- Decoding `["1"]` as `[String]` leaves the element, at address 2, with one reference too
many. -/
theorem decode_leaks_element :
    ¬ ∀ rt' a, initValue (oneElement (.ptr .string 2)) (.array .string) quietRuntime
        (.ptr .object 1) = .returned a rt' → ∀ p, rt'.ref_count p = quietRuntime.ref_count p := by
  intro h
  have hcount := h _ _ rfl 2
  exact absurd hcount (by decide +kernel)

end QuickJSSwift.Decode
