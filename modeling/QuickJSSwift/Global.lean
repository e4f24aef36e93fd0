/-
Global properties from Swift: `JSContext.setGlobalProperty` and
`JSContext.hasGlobalProperty` (`JSContext.swift`).

The two functions turn a Swift name into a C string separately. The writer asks for
UTF-8, the reader for ASCII, and a string that is not ASCII has no ASCII C string: the
reader then passes a null pointer to `JS_GetPropertyStr`, which takes its length. Both
C strings end at the first U+0000 of the name.

The global object is an ordinary map from atoms to values. `MapLaw` is what one expects
of a writer and a reader of such a map, for one choice of names and value;
`global_map_law` says for which choices it holds.
-/
import QuickJSSwift.Value
import QuickJSSwift.TextRoundTrip

set_option autoImplicit false

namespace QuickJSSwift.Global

open Utf Text

/-! ## The global object -/

/-- What a property holds: a string, by its content, or any other value. -/
inductive PropertyValue
  | string (s : JSString)
  | value (v : JSCValue)
  deriving DecidableEq, Repr

/-- `JS_IsException`. -/
def PropertyValue.isException : PropertyValue → Bool
  | .string _ => false
  | .value v => JS_IsException v

/-- `JS_IsUndefined`. -/
def PropertyValue.isUndefined : PropertyValue → Bool
  | .string _ => false
  | .value v => JS_IsUndefined v

/-- The atom table and the global object of a context. -/
structure GlobalState where
  interned : AtomTable
  props : JSAtom → Option PropertyValue

/-- The property called `name`. -/
def GlobalState.property (st : GlobalState) (name : List Char) : Option PropertyValue :=
  st.props (some (utf16 name))

/-- A name that became the key of a property is in the atom table, among the narrow
strings if it is one. -/
def internAtom (interned : AtomTable) : JSAtom → AtomTable
  | some u => if u.all (· < 0x100) then u.map UInt16.toUInt8 :: interned else interned
  | none => interned

/-- `JS_GetPropertyStr` on the global object. -/
def JS_GetPropertyStr (st : GlobalState) (prop : List UInt8) : PropertyValue :=
  (st.props (JS_NewAtom st.interned prop)).getD (.value .undefined)

/-- `JS_SetPropertyStr` on the global object. -/
def JS_SetPropertyStr (st : GlobalState) (prop : List UInt8) (val : PropertyValue) : GlobalState :=
  let atom := JS_NewAtom st.interned prop
  { interned := internAtom st.interned atom
    props := fun a => if a = atom then some val else st.props a }

/-! ## The Swift functions -/

/-- `String.cString(using: .ascii)`: nothing for a string that is not ASCII. -/
def cStringAscii (s : List Char) : Option (List UInt8) :=
  if s.all (fun c => c.toNat < 0x80) then some (s.map (fun c => UInt8.ofNat c.toNat)) else none

/-- The `JSCValue` that `JS_NewString` returns. -/
def newStringValue (str : List UInt8) : PropertyValue :=
  match JS_NewString str with
  | some s => .string s
  | none => .value .exception

/-- `setGlobalProperty(name:value:)`; `cString(using: .utf8)` always succeeds. -/
def setGlobalProperty (st : GlobalState) (name value : List Char) : GlobalState :=
  JS_SetPropertyStr st (utf8 name) (newStringValue (utf8 value))

/-- `hasGlobalProperty(name:)`; `none` when the null pointer is dereferenced. -/
def hasGlobalProperty (st : GlobalState) (name : List Char) : Option Bool :=
  match cStringAscii name with
  | none => none
  | some cName =>
    let jsValue := JS_GetPropertyStr st cName
    if jsValue.isException || jsValue.isUndefined then some false else some true

/-! ## The law of the map -/

/-- The reader returns, and its answer is whether the property exists with a value
other than `undefined`. -/
def HasAnswers (st : GlobalState) (name : List Char) : Prop :=
  ∃ b, hasGlobalProperty st name = some b ∧
    (b = true ↔ ∃ v, st.property name = some v ∧ v.isUndefined = false)

/-- A global object between calls: no property under the null atom, and no property
holds an exception. -/
structure GlobalState.Ordinary (st : GlobalState) : Prop where
  no_null : st.props none = none
  no_exception : ∀ a v, st.props a = some v → v.isException = false

/-- The law for one name, one value and one other name, in every context whose global
object has no property called `name`. -/
def MapLaw (name value other : List Char) : Prop :=
  ∀ st : GlobalState, st.Ordinary → st.property name = none →
    (hasGlobalProperty (setGlobalProperty st name value) name = some true ∧
      ∃ s, (setGlobalProperty st name value).property name = some (.string s) ∧
        String.initValue s = some value) ∧
    (other ≠ name →
      hasGlobalProperty (setGlobalProperty st name value) other = hasGlobalProperty st other) ∧
    HasAnswers st name ∧ HasAnswers st other ∧
    HasAnswers (setGlobalProperty st name value) other

/-- A name that both functions turn into the same atom, its own. -/
structure PlainName (name : List Char) : Prop where
  ascii : ∀ c ∈ name, c.toNat < 0x80
  no_nul : '\x00' ∉ name
  length_le : name.length ≤ JS_STRING_LEN_MAX

/-! ## The atom of a name -/

theorem cStringAscii_eq_utf8 {name : List Char} (h : ∀ c ∈ name, c.toNat < 0x80) :
    cStringAscii name = some (utf8 name) := by
  unfold cStringAscii
  rw [if_pos (List.all_eq_true.mpr (fun c hc => by simpa using h c hc)), utf8_of_ascii h]

theorem ascii_of_cStringAscii {name : List Char} (h : cStringAscii name ≠ none) :
    ∀ c ∈ name, c.toNat < 0x80 := by
  intro c hc
  by_contra hge
  apply h
  unfold cStringAscii
  rw [if_neg]
  intro hall
  exact hge (by simpa using List.all_eq_true.mp hall c hc)

/-- Whatever is interned, the C string of a plain name gives the atom of its units: the
bytes of an ASCII name are its units, so a match in the atom table is no other name. -/
theorem JS_NewAtom_plain {name : List Char} (h : PlainName name) (interned : AtomTable) :
    JS_NewAtom interned (utf8 name) = some (utf16 name) := by
  have hcut : cString (utf8 name) = utf8 name := by
    rw [cString, takeWhile_utf8, (takeWhile_ne_nul_eq_self name).mpr h.no_nul]
  unfold JS_NewAtom JS_NewAtomLen
  rw [hcut]
  split_ifs
  · rw [utf16_of_ascii h.ascii]
  · rw [JS_NewStringLen_ascii h.ascii h.length_le, Option.map_some, utf16_of_ascii h.ascii]
    rfl

/-- With an empty atom table the name of an atom is never longer than the C string. -/
theorem JS_NewAtom_nil {name u : List Char}
    (h : JS_NewAtom [] (utf8 name) = some (utf16 u)) : u = name.takeWhile (· ≠ '\x00') := by
  have hnew : (JS_NewStringLen (utf8 (name.takeWhile (· ≠ '\x00')))).map JSString.units
      = some (utf16 u) := by
    rw [JS_NewAtom, JS_NewAtomLen, cString, takeWhile_utf8] at h
    simpa using h
  cases hjs : JS_NewStringLen (utf8 (name.takeWhile (· ≠ '\x00'))) with
  | none => rw [hjs, Option.map_none] at hnew; exact absurd hnew (by simp)
  | some js =>
    obtain ⟨js', hjs', hunits, -⟩ := JS_NewStringLen_utf8 (encodable_of_JS_NewStringLen hjs)
    rw [hjs', Option.map_some, Option.some_inj, hunits] at hnew
    exact (utf16_injective hnew).symm

/-- An ASCII name that the empty atom table turns into its own atom is plain. -/
theorem plainName_of_atom {name : List Char} (hascii : ∀ c ∈ name, c.toNat < 0x80)
    (h : JS_NewAtom [] (utf8 name) = some (utf16 name)) : PlainName name := by
  have hcut : name.takeWhile (· ≠ '\x00') = name := (JS_NewAtom_nil h).symm
  refine ⟨hascii, (takeWhile_ne_nul_eq_self name).mp hcut, ?_⟩
  have hall : name.takeWhile (fun c => c.toNat < 0x80) = name :=
    List.takeWhile_eq_self_iff.mpr (fun c hc => by simpa using hascii c hc)
  by_contra hlong
  -- The ASCII start is the whole name, and `JS_NewStringLen` refuses it.
  have hnone : JS_NewStringLen (utf8 name) = none := by
    rw [JS_NewStringLen, takeWhile_ascii, hall]
    dsimp only
    rw [if_pos (by rw [List.length_map]; omega)]
  rw [JS_NewAtom, JS_NewAtomLen, cString, takeWhile_utf8, hcut, hnone] at h
  exact absurd h (by simp)

/-! ## The two functions on plain names -/

theorem property_setGlobalProperty {name : List Char} (h : PlainName name) (st : GlobalState)
    (value u : List Char) :
    (setGlobalProperty st name value).property u
      = if u = name then some (newStringValue (utf8 value)) else st.property u := by
  unfold setGlobalProperty JS_SetPropertyStr GlobalState.property
  dsimp only
  rw [JS_NewAtom_plain h]
  by_cases hu : u = name
  · rw [if_pos hu, if_pos (by rw [hu])]
  · have hne : some (utf16 u) ≠ some (utf16 name) := by
      intro heq
      exact hu (utf16_injective (Option.some_inj.mp heq))
    rw [if_neg hu, if_neg hne]

theorem hasGlobalProperty_plain {name : List Char} (h : PlainName name) (st : GlobalState) :
    hasGlobalProperty st name =
      some ((st.property name).any (fun v => !v.isException && !v.isUndefined)) := by
  unfold hasGlobalProperty
  rw [cStringAscii_eq_utf8 h.ascii]
  dsimp only
  rw [JS_GetPropertyStr, JS_NewAtom_plain h, GlobalState.property]
  cases st.props (some (utf16 name)) with
  | none => rfl
  | some v =>
    rw [Option.getD_some, Option.any_some]
    cases v.isException <;> cases v.isUndefined <;> rfl

theorem hasAnswers_plain {name : List Char} (h : PlainName name) {st : GlobalState}
    (hex : ∀ v, st.property name = some v → v.isException = false) : HasAnswers st name := by
  refine ⟨_, hasGlobalProperty_plain h st, ?_⟩
  rw [Option.any_eq_true]
  constructor
  · rintro ⟨v, hv, hand⟩
    rw [Bool.and_eq_true, Bool.not_eq_true', Bool.not_eq_true'] at hand
    exact ⟨v, hv, hand.2⟩
  · rintro ⟨v, hv, hdef⟩
    exact ⟨v, hv, by rw [hex v hv, hdef]; rfl⟩

/-- The law on plain names and a value that the string conversions keep. -/
theorem mapLaw_plain {name value other : List Char} (hname : PlainName name)
    (hother : PlainName other) (hnul : '\x00' ∉ value) (hval : Storable value) :
    MapLaw name value other := by
  intro st hord hnone
  have hround : String.roundTrip value = some value := by
    rw [roundTrip_eq_some_iff, (takeWhile_ne_nul_eq_self value).mpr hnul]
    exact ⟨hval, rfl⟩
  obtain ⟨s, hs, hread⟩ := Option.bind_eq_some_iff.mp hround
  have hstored : newStringValue (utf8 value) = .string s := by
    rw [newStringValue, show JS_NewString (utf8 value) = some s from hs]
  have hprop := property_setGlobalProperty hname st value
  rw [hstored] at hprop
  have hself := hprop name
  rw [if_pos rfl] at hself
  refine ⟨⟨?_, s, hself, hread⟩, ?_, ?_, ?_, ?_⟩
  · rw [hasGlobalProperty_plain hname, hself]
    rfl
  · intro hne
    rw [hasGlobalProperty_plain hother, hasGlobalProperty_plain hother, hprop other, if_neg hne]
  · apply hasAnswers_plain hname
    intro v hv
    exact hord.no_exception _ v hv
  · apply hasAnswers_plain hother
    intro v hv
    exact hord.no_exception _ v hv
  · apply hasAnswers_plain hother
    intro v hv
    rw [hprop other] at hv
    split_ifs at hv
    · rw [← Option.some_inj.mp hv]
      rfl
    · exact hord.no_exception _ v hv

/-! ## The two functions on other names -/

/-- A context with one global property, or none. -/
def singleProperty (a : Option (List Char)) : GlobalState where
  interned := []
  props := fun k => if k = a.map utf16 ∧ a ≠ none then some (.string (.str8 [])) else none

theorem singleProperty_ordinary (a : Option (List Char)) : (singleProperty a).Ordinary := by
  constructor
  · unfold singleProperty
    dsimp only
    rw [if_neg]
    rintro ⟨hnone, hsome⟩
    exact hsome (Option.map_eq_none_iff.mp hnone.symm)
  · intro k v hv
    unfold singleProperty at hv
    dsimp only at hv
    split_ifs at hv
    rw [← Option.some_inj.mp hv]
    rfl

theorem singleProperty_property (a : Option (List Char)) (u : List Char) :
    (singleProperty a).property u = if some u = a then some (.string (.str8 [])) else none := by
  unfold singleProperty GlobalState.property
  dsimp only
  cases a with
  | none => simp
  | some w =>
    by_cases h : u = w
    · simp [h]
    · have hne : utf16 u ≠ utf16 w := fun heq => h (utf16_injective heq)
      simp [h, hne]

/-- Reading a property back forces its name to be plain. -/
theorem plainName_of_mapLaw {name value other : List Char} (h : MapLaw name value other) :
    PlainName name := by
  obtain ⟨⟨htrue, s, hs, -⟩, -⟩ := h (singleProperty none) (singleProperty_ordinary none)
    (by rw [singleProperty_property, if_neg (by simp)])
  have hascii : ∀ c ∈ name, c.toNat < 0x80 := by
    apply ascii_of_cStringAscii
    intro hnil
    rw [hasGlobalProperty, hnil] at htrue
    exact absurd htrue (by simp)
  apply plainName_of_atom hascii
  by_contra hatom
  have hsame : (setGlobalProperty (singleProperty none) name value).property name
      = (singleProperty none).property name := by
    unfold setGlobalProperty JS_SetPropertyStr GlobalState.property
    dsimp only
    rw [if_neg]
    intro heq
    exact hatom heq.symm
  rw [hsame, singleProperty_property, if_neg (by simp)] at hs
  exact absurd hs (by simp)

/-- Finding an existing property forces its name to be plain. -/
theorem plainName_of_hasAnswers {other : List Char}
    (h : HasAnswers (singleProperty (some other)) other) : PlainName other := by
  obtain ⟨b, hb, hiff⟩ := h
  have hascii : ∀ c ∈ other, c.toNat < 0x80 := by
    apply ascii_of_cStringAscii
    intro hnil
    rw [hasGlobalProperty, hnil] at hb
    exact absurd hb (by simp)
  apply plainName_of_atom hascii
  by_contra hatom
  have htrue : b = true :=
    hiff.mpr ⟨.string (.str8 []), by rw [singleProperty_property, if_pos rfl], rfl⟩
  -- The property sits under another atom than the one looked up.
  have hmiss : (singleProperty (some other)).props (JS_NewAtom [] (utf8 other)) = none := by
    unfold singleProperty
    dsimp only
    rw [if_neg]
    rintro ⟨heq, -⟩
    exact hatom heq
  have hget : JS_GetPropertyStr (singleProperty (some other)) (utf8 other)
      = .value .undefined := by
    rw [JS_GetPropertyStr, show (singleProperty (some other)).interned = [] from rfl, hmiss]
    rfl
  rw [hasGlobalProperty, cStringAscii_eq_utf8 hascii] at hb
  dsimp only at hb
  rw [hget, htrue] at hb
  exact absurd hb (by decide)

/-- **When the global properties behave as a map**: exactly for ASCII names without
U+0000 that a JS string can hold, and for values that the string conversions keep. -/
theorem global_map_law (name value other : List Char) :
    MapLaw name value other ↔
      PlainName name ∧ PlainName other ∧ '\x00' ∉ value ∧ Storable value := by
  constructor
  swap
  · rintro ⟨hname, hother, hnul, hval⟩
    exact mapLaw_plain hname hother hnul hval
  intro h
  have hname := plainName_of_mapLaw h
  have hother : PlainName other := by
    by_cases hne : other = name
    · rw [hne]
      exact hname
    · obtain ⟨-, -, -, hans, -⟩ := h (singleProperty (some other)) (singleProperty_ordinary _)
        (by rw [singleProperty_property, if_neg]; intro heq; exact hne (Option.some_inj.mp heq).symm)
      exact plainName_of_hasAnswers hans
  have hround : String.roundTrip value = some value := by
    obtain ⟨⟨-, s, hs, hread⟩, -⟩ := h (singleProperty none) (singleProperty_ordinary none)
      (by rw [singleProperty_property, if_neg (by simp)])
    rw [property_setGlobalProperty hname, if_pos rfl, Option.some_inj, newStringValue] at hs
    cases hjs : JS_NewString (utf8 value) with
    | none => rw [hjs] at hs; exact absurd hs (by simp)
    | some js =>
      rw [hjs] at hs
      obtain rfl : js = s := by simpa using hs
      rw [String.roundTrip, String.jsValue, hjs, Option.bind_some, hread]
  obtain ⟨hval, hcut⟩ := (roundTrip_eq_some_iff value value).mp hround
  rw [← hcut] at hval
  exact ⟨hname, hother, (takeWhile_ne_nul_eq_self value).mp hcut.symm, hval⟩

/-- Setting `é` makes the reader dereference a null pointer. -/
theorem has_non_ascii_traps :
    ¬ MapLaw ['é'] ['1'] ['b'] ∧
      hasGlobalProperty (setGlobalProperty (singleProperty none) ['é'] ['1']) ['é'] = none := by
  constructor
  · intro h
    exact absurd ((plainName_of_mapLaw h).ascii 'é' (by simp)) (by decide)
  · rfl

end QuickJSSwift.Global
