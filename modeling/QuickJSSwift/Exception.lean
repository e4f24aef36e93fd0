/-
`JSContext.getException` (`JSContext.swift`), over the one exception slot of the runtime
(`JS_Throw`, `JS_GetException` in `quickjs.c`).

The engine has no word for *nothing pending*: the slot then holds `null`, the same as
after `throw null`. `getException` takes what is in the slot, converts it to a string, and
so returns `"null"` when there is nothing to report. The conversion, and for an error the
read of `stack` and its conversion, can run JS code; what that throws goes into the slot
that has just been emptied, and nobody takes it out.
-/
import QuickJSSwift.DecodeFrame

set_option autoImplicit false

namespace QuickJSSwift.Exception

open Decode Engine Ownership

variable {ω : Type}

/-! ## The function -/

/-- `JS_IsError`. The class of an object is the engine's. -/
def JS_IsError (E : Engine ω) (rt : Runtime ω) (val : JSCValue) : Bool :=
  JS_IsObject val && E.JS_IsError rt.world val

/-- What `getException` makes of the two strings of an error. -/
def report : Option (List Char) → Option (List Char) → Option (List Char)
  | none, stackStr => stackStr
  | some description, none => some description
  | some description, some stackStr => some (description ++ '\n' :: stackStr)

/-- `getException()`. -/
def getException (E : Engine ω) (rt : Runtime ω) : Outcome ω (List Char) :=
  let (x, rt) := rt.JS_GetException
  -- the `defer`
  Outcome.free x <|
    match String.initValue E rt x with
    | .trapped => .trapped
    | .returned description rt =>
      if JS_IsError E rt x then
        let (stack, rt) := E.getPropertyStr rt x "stack"
        Outcome.free stack <|
          match String.initValue E rt stack with
          | .trapped => .trapped
          | .returned stackStr rt => .returned (report description stackStr) rt
      else .returned description rt

/-! ## What it is to do -/

/-- A runtime with an exception pending, or none. -/
def withPending (rt : Runtime ω) (pending : Option JSCValue) : Runtime ω :=
  { rt with current_exception := pending.getD .null }

/-- The string to be returned: none if nothing is pending, the conversion of what is not an
error, and for an error its conversion and that of its stack, as far as there are any. -/
def Reports (E : Engine ω) (rt : Runtime ω) : Option JSCValue → Option (List Char) → Prop
  | none, r => r = none
  | some x, r =>
    ∀ description rt₁, String.initValue E rt x = .returned description rt₁ →
      if JS_IsError E rt₁ x then
        ∀ stackStr rt₂, String.initValue E (E.getPropertyStr rt₁ x "stack").2
            (E.getPropertyStr rt₁ x "stack").1 = .returned stackStr rt₂ →
          r = report description stackStr
      else r = description

/-- One call returns what it should, and nothing is pending after it. -/
def Clears (E : Engine ω) (rt : Runtime ω) (pending : Option JSCValue) : Prop :=
  ∃ r rt', getException E (withPending rt pending) = .returned r rt' ∧
    Reports E (withPending rt pending).JS_GetException.2 pending r ∧
    rt'.current_exception = .null

/-- And so the next call returns nothing. -/
def ReadsAndClears (E : Engine ω) (rt : Runtime ω) (pending : Option JSCValue) : Prop :=
  Clears E rt pending ∧ ∀ r rt', getException E (withPending rt pending) = .returned r rt' →
    ∃ rt'', getException E rt' = .returned none rt''

/-! ## Exceptions that nobody takes -/

/-- What the last event that touches the slot leaves there, if one does. -/
def lastInSlot : List Event → Option JSCValue
  | [] => none
  | .threw x :: later => some ((lastInSlot later).getD x)
  | .cleared :: later => some ((lastInSlot later).getD .null)

/-- An exception is thrown that nobody catches or takes: it is the last to come into the
slot. -/
def Uncaught (new : List Event) : Prop := ∃ x, lastInSlot new = some x ∧ x ≠ .null

instance (new : List Event) : Decidable (Uncaught new) :=
  decidable_of_iff ((lastInSlot new).getD .null ≠ .null) (by
    unfold Uncaught
    cases lastInSlot new with
    | none => simp
    | some x => simp)

theorem slotAfter_eq (new : List Event) (slot : JSCValue) :
    slotAfter new slot = (lastInSlot new).getD slot := by
  induction new generalizing slot with
  | nil => rfl
  | cons e new ih =>
    cases e with
    | threw x => exact ih x
    | cleared => exact ih .null

/-- An empty slot stays empty exactly if no exception is uncaught. -/
theorem slotAfter_null_iff (new : List Event) : slotAfter new .null = .null ↔ ¬ Uncaught new := by
  rw [slotAfter_eq]
  unfold Uncaught
  cases lastInSlot new with
  | none => simp
  | some x => simp

/-! ## Stretches without uncaught exceptions -/

/-- A function of the engine leaves no exception uncaught. -/
def Calm (rt rt' : Runtime ω) : Prop := ¬ Uncaught (events rt rt')

/-- The account of `Runs`, whatever references are in hand. -/
def Tracks (rt rt' : Runtime ω) : Prop := ∃ δ, Runs rt rt' δ

theorem Tracks.refl (rt : Runtime ω) : Tracks rt rt := ⟨0, Runs.refl rt⟩

theorem Tracks.trans {rt rt' rt'' : Runtime ω} (h : Tracks rt rt') (h' : Tracks rt' rt'') :
    Tracks rt rt'' := by
  obtain ⟨δ, h⟩ := h
  obtain ⟨δ', h'⟩ := h'
  exact ⟨fun p => δ p + δ' p, h.trans h' (fun _ => rfl)⟩

theorem tracks_call {α : Type} (rt : Runtime ω) (held : α → Ptr → ℤ) (f : ω → ω × Reply α) :
    Tracks rt (rt.call held f).2 := ⟨_, runs_call rt held f⟩

theorem lastInSlot_append (l l' : List Event) :
    lastInSlot (l ++ l') = (lastInSlot l').or (lastInSlot l) := by
  induction l with
  | nil => exact Option.or_none.symm
  | cons e l ih =>
    cases e with
    | threw x =>
      rw [List.cons_append, lastInSlot, lastInSlot, ih]
      cases lastInSlot l' <;> rfl
    | cleared =>
      rw [List.cons_append, lastInSlot, lastInSlot, ih]
      cases lastInSlot l' <;> rfl

theorem uncaught_append {l l' : List Event} (h : Uncaught (l ++ l')) :
    Uncaught l ∨ Uncaught l' := by
  obtain ⟨x, hx, hne⟩ := h
  rw [lastInSlot_append] at hx
  -- The later events decide, if one of them touches the slot.
  cases hlast : lastInSlot l' with
  | none =>
    rw [hlast] at hx
    exact .inl ⟨x, hx, hne⟩
  | some y =>
    rw [hlast] at hx
    exact .inr ⟨x, hlast.trans hx, hne⟩

/-- From `rt` to `rt'` the log has grown by events that leave nothing uncaught. -/
def Clean (rt rt' : Runtime ω) : Prop := ∃ new, rt'.log = rt.log ++ new ∧ ¬ Uncaught new

theorem Clean.calm {rt rt' : Runtime ω} (h : Clean rt rt') : Calm rt rt' := by
  obtain ⟨new, hlog, hcaught⟩ := h
  unfold Calm events
  rw [hlog, List.drop_left]
  exact hcaught

theorem Calm.clean {rt rt' : Runtime ω} (h : Calm rt rt') (htracks : Tracks rt rt') :
    Clean rt rt' := by
  obtain ⟨δ, new, hlog, -⟩ := htracks
  refine ⟨new, hlog, ?_⟩
  unfold Calm events at h
  rw [hlog, List.drop_left] at h
  exact h

theorem clean_of_log {rt rt' : Runtime ω} (h : rt'.log = rt.log) : Clean rt rt' := by
  refine ⟨[], by rw [h, List.append_nil], ?_⟩
  rintro ⟨x, ⟨⟩, -⟩

theorem Clean.refl (rt : Runtime ω) : Clean rt rt := clean_of_log rfl

theorem Clean.trans (rt rt' rt'' : Runtime ω) (h : Clean rt rt') (h' : Clean rt' rt'') :
    Clean rt rt'' := by
  obtain ⟨new, hlog, hcaught⟩ := h
  obtain ⟨new', hlog', hcaught'⟩ := h'
  refine ⟨new ++ new', by rw [hlog', hlog, List.append_assoc], fun huncaught => ?_⟩
  rcases uncaught_append huncaught with hbad | hbad
  · exact hcaught hbad
  · exact hcaught' hbad

/-- Where something returns, it leaves nothing uncaught. -/
def CleanOutcome {α : Type} (rt : Runtime ω) (o : Outcome ω α) : Prop :=
  ∀ a rt', o = .returned a rt' → Clean rt rt'

theorem CleanOutcome.of_clean {α : Type} {rt rt' : Runtime ω} {o : Outcome ω α}
    (h : Clean rt rt') (ho : CleanOutcome rt' o) : CleanOutcome rt o := by
  intro a rt'' heq
  exact Clean.trans _ _ _ h (ho a rt'' heq)

theorem CleanOutcome.free {α : Type} {rt : Runtime ω} {o : Outcome ω α}
    (ho : CleanOutcome rt o) (v : JSCValue) : CleanOutcome rt (o.free v) := by
  cases o with
  | trapped => rintro a rt' ⟨⟩
  | returned a rt₁ =>
    rintro _ _ ⟨⟩
    exact Clean.trans _ _ _ (ho a rt₁ rfl) (clean_of_log rfl)

theorem cleanOutcome_returned {α : Type} {rt rt' : Runtime ω} {a : Option α} (h : Clean rt rt') :
    CleanOutcome rt (.returned a rt') := by
  rintro _ _ ⟨⟩
  exact h

theorem cleanOutcome_trapped {α : Type} (rt : Runtime ω) :
    CleanOutcome rt (Outcome.trapped : Outcome ω α) := by
  rintro _ _ ⟨⟩

/-! ## Conversions -/

theorem string_returns (E : Engine ω) (rt : Runtime ω) (value : JSCValue) :
    ∃ description rt', String.initValue E rt value = .returned description rt' := by
  unfold String.initValue
  split
  · exact ⟨_, _, rfl⟩
  · exact ⟨_, _, rfl⟩

/-- `String(null)` is there, and nothing runs for it. -/
theorem string_null (E : Engine ω) (rt : Runtime ω) :
    ∃ rt', String.initValue E rt .null = .returned (some ['n', 'u', 'l', 'l']) rt' := by
  have htext : Text.String.initCString (Utf.utf8 ['n', 'u', 'l', 'l']) = ['n', 'u', 'l', 'l'] := by
    decide +kernel
  rw [← htext]
  exact ⟨_, rfl⟩

/-- A call returns, with what is to be reported. -/
theorem getException_reports (E : Engine ω) (rt : Runtime ω) :
    ∃ r rt', getException E rt = .returned r rt' ∧
      Reports E rt.JS_GetException.2 (some rt.current_exception) r := by
  obtain ⟨description, rt₁, hdescription⟩ :=
    string_returns E rt.JS_GetException.2 rt.current_exception
  obtain ⟨stackStr, rt₂, hstack⟩ := string_returns E
    (E.getPropertyStr rt₁ rt.current_exception "stack").2
    (E.getPropertyStr rt₁ rt.current_exception "stack").1
  have hx : rt.JS_GetException = (rt.current_exception, rt.JS_GetException.2) := rfl
  unfold getException
  rw [hx]
  dsimp only
  rw [hdescription]
  dsimp only
  by_cases herror : JS_IsError E rt₁ rt.current_exception = true
  · rw [if_pos herror, hstack]
    refine ⟨_, _, rfl, ?_⟩
    -- The conversions that are reported are the ones that were made.
    intro d rt₁' hd
    rw [hdescription] at hd
    cases hd
    rw [if_pos herror]
    intro s rt₂' hs
    rw [hstack] at hs
    cases hs
    rfl
  · rw [if_neg herror]
    refine ⟨_, _, rfl, ?_⟩
    intro d rt₁' hd
    rw [hdescription] at hd
    cases hd
    rw [if_neg herror]

/-- With nothing in the slot, the report is `null`. -/
theorem getException_null (E : Engine ω) (rt : Runtime ω) (h : rt.current_exception = .null) :
    ∃ rt', getException E rt = .returned (some ['n', 'u', 'l', 'l']) rt' := by
  obtain ⟨r, rt', hcall, hreports⟩ := getException_reports E rt
  rw [h] at hreports
  obtain ⟨rt₁, hnull⟩ := string_null E rt.JS_GetException.2
  have hr := hreports _ rt₁ hnull
  rw [if_neg (by simp [JS_IsError, JS_IsObject, JS_VALUE_GET_TAG])] at hr
  rw [← hr]
  exact ⟨rt', hcall⟩

/-! ## The account of a call -/

/-- What comes between the read of the slot and the release of what was in it. -/
theorem getException_body (E : Engine ω) (rt : Runtime ω) :
    ∃ body : Outcome ω (List Char), getException E rt = body.free rt.current_exception ∧
      Accounts rt.JS_GetException.2 body := by
  refine ⟨_, rfl, ?_⟩
  have hdescription := accounts_string E rt.JS_GetException.2 rt.JS_GetException.1
  split
  · trivial
  · next description rt₁ h =>
    have hruns : Accounts rt.JS_GetException.2 (.returned description rt₁) := h ▸ hdescription
    apply Accounts.of_grows hruns
    split_ifs
    · have hread := runs_getPropertyStr E rt₁ rt.current_exception "stack"
      generalize E.getPropertyStr rt₁ rt.current_exception "stack" = read at hread ⊢
      obtain ⟨stack, rt₂⟩ := read
      have hstack := accounts_string E rt₂ stack
      refine Accounts.free ?_ hread
      split
      · trivial
      · next h' =>
        rw [h'] at hstack
        exact hstack
    · exact Grows.refl rt₁

/-- `getException` frees what it takes. -/
theorem accounts_getException (E : Engine ω) (rt : Runtime ω) : Accounts rt (getException E rt) := by
  obtain ⟨body, hbody, haccounts⟩ := getException_body E rt
  rw [hbody]
  exact haccounts.free (runs_JS_GetException rt)

/-- After a call the slot is empty exactly if the conversions leave no exception
uncaught. -/
theorem getException_slot_iff (E : Engine ω) (rt : Runtime ω) {r : Option (List Char)}
    {rt' : Runtime ω} (h : getException E rt = .returned r rt') :
    rt'.current_exception = .null ↔ ¬ Uncaught (events rt.JS_GetException.2 rt') := by
  obtain ⟨body, hbody, haccounts⟩ := getException_body E rt
  rw [h] at hbody
  cases body with
  | trapped => cases hbody
  | returned a rt₁ =>
    injection hbody with _ hrt
    obtain ⟨δ, -, hruns⟩ : Grows rt.JS_GetException.2 rt₁ := haccounts
    rw [hrt, (hruns.trans (runs_JS_FreeValue rt₁ rt.current_exception) (fun _ => rfl)).slot]
    exact slotAfter_null_iff _

/-! ## Calm conversions -/

/-- `getException`: the conversion of what is pending, and for an error the read of its
stack and the conversion of that. -/
def ReadsCalmly (E : Engine ω) (rt : Runtime ω) : Prop :=
  Calm rt.JS_GetException.2 (E.toCString rt.JS_GetException.2 rt.current_exception).2 ∧
    ∀ description rt₁,
      String.initValue E rt.JS_GetException.2 rt.current_exception = .returned description rt₁ →
      JS_IsError E rt₁ rt.current_exception = true →
        Calm rt₁ (E.getPropertyStr rt₁ rt.current_exception "stack").2 ∧
        Calm (E.getPropertyStr rt₁ rt.current_exception "stack").2
          (E.toCString (E.getPropertyStr rt₁ rt.current_exception "stack").2
            (E.getPropertyStr rt₁ rt.current_exception "stack").1).2

theorem clean_string {E : Engine ω} {rt : Runtime ω} {value : JSCValue}
    (h : Calm rt (E.toCString rt value).2) : CleanOutcome rt (String.initValue E rt value) := by
  have hclean := h.clean ⟨_, runs_toCString E rt value⟩
  unfold String.initValue
  split
  · next heq =>
    rw [heq] at hclean
    exact cleanOutcome_returned (Clean.trans _ _ _ hclean (clean_of_log rfl))
  · next heq =>
    rw [heq] at hclean
    exact cleanOutcome_returned hclean

/-- After the read of the slot. -/
theorem clean_getException_body {E : Engine ω} {rt : Runtime ω} (h : ReadsCalmly E rt) :
    CleanOutcome rt.JS_GetException.2 (getException E rt) := by
  obtain ⟨hdescription, hstack⟩ := h
  unfold getException
  refine CleanOutcome.free ?_ _
  split
  · exact cleanOutcome_trapped _
  · next description rt₁ heq =>
    apply CleanOutcome.of_clean (clean_string hdescription _ _ heq)
    split_ifs with herror
    · obtain ⟨hread, hconvert⟩ := hstack description rt₁ heq herror
      apply CleanOutcome.of_clean (hread.clean ⟨_, runs_getPropertyStr E rt₁ _ "stack"⟩)
      refine CleanOutcome.free ?_ _
      have hclean := clean_string hconvert
      split
      · exact cleanOutcome_trapped _
      · next heq' => exact cleanOutcome_returned (hclean _ _ heq')
    · exact cleanOutcome_returned (Clean.refl rt₁)

/-- One call does what it should exactly if something is pending and the conversions leave
no exception uncaught. -/
theorem clears_iff (E : Engine ω) (rt : Runtime ω) (pending : Option JSCValue) :
    Clears E rt pending ↔ pending ≠ none ∧
      ∀ r rt', getException E (withPending rt pending) = .returned r rt' →
        ¬ Uncaught (events (withPending rt pending).JS_GetException.2 rt') := by
  constructor
  · rintro ⟨r, rt', hcall, hreports, hslot⟩
    constructor
    · rintro rfl
      -- Nothing is pending, and the report is a string.
      obtain ⟨rt₁, hnull⟩ := getException_null E (withPending rt none) rfl
      have hr : r = none := hreports
      rw [hcall, hr] at hnull
      cases hnull
    · intro r' rt₁ hcall'
      rw [hcall] at hcall'
      cases hcall'
      exact (getException_slot_iff E _ hcall).mp hslot
  · rintro ⟨hpending, hcaught⟩
    obtain ⟨x, rfl⟩ := Option.ne_none_iff_exists'.mp hpending
    obtain ⟨r, rt', hcall, hreports⟩ := getException_reports E (withPending rt (some x))
    exact ⟨r, rt', hcall, hreports, (getException_slot_iff E _ hcall).mpr (hcaught r rt' hcall)⟩

/-- Calm conversions are enough, where something is pending. -/
theorem clears_of_calm {E : Engine ω} {rt : Runtime ω} {pending : Option JSCValue}
    (hpending : pending ≠ none) (h : ReadsCalmly E (withPending rt pending)) :
    Clears E rt pending := by
  refine (clears_iff E rt pending).mpr ⟨hpending, fun r rt' hcall => ?_⟩
  exact (clean_getException_body h r rt' hcall).calm

/-- **`getException` never reads and clears as it should**: where it leaves nothing
pending, the next call reports `null`. One call by itself does what it should if something
is pending and neither the conversions nor the read of the stack leave an exception
uncaught; and exactly if the last of them to throw or to catch anything does not. -/
theorem getException_reads_and_clears (E : Engine ω) (rt : Runtime ω)
    (pending : Option JSCValue) :
    ¬ ReadsAndClears E rt pending ∧
      (pending ≠ none → ReadsCalmly E (withPending rt pending) → Clears E rt pending) ∧
      (Clears E rt pending ↔ pending ≠ none ∧
        ∀ r rt', getException E (withPending rt pending) = .returned r rt' →
          ¬ Uncaught (events (withPending rt pending).JS_GetException.2 rt')) := by
  refine ⟨?_, clears_of_calm, clears_iff E rt pending⟩
  rintro ⟨⟨r, rt', hcall, -, hslot⟩, hnext⟩
  -- The slot is empty, which the second call takes for the value `null`.
  obtain ⟨rt₁, hnull⟩ := getException_null E rt' hslot
  obtain ⟨rt₂, hnone⟩ := hnext r rt' hcall
  rw [hnull] at hnone
  cases hnone

/-- With nothing pending, the call returns `"null"`. -/
theorem getException_quiet : ∃ rt',
    getException (oneElement .undefined) (withPending quietRuntime none) =
      .returned (some ['n', 'u', 'l', 'l']) rt' ∧
    ¬ Reports (oneElement .undefined) (withPending quietRuntime none).JS_GetException.2 none
      (some ['n', 'u', 'l', 'l']) := by
  obtain ⟨rt', h⟩ := getException_null (oneElement .undefined) (withPending quietRuntime none) rfl
  exact ⟨rt', h, Option.some_ne_none _⟩

end QuickJSSwift.Exception
