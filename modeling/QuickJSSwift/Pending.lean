/-
Exceptions that the Swift API swallows (`JSContext.swift`, `JSModule.swift`,
`JSValue.swift`).

Apart from `eval`, the operations look at return values only: a decoder returns `nil`,
`hasGlobalProperty` returns `false`, `setGlobalProperty`, `JSModule.function` and
`flushPendingJobs` return nothing, and `call` asks for the exception and prints it. What a
failed engine call has left in the exception slot stays there, and a later `getException`
reports it.

A run is any sequence of operations, with an engine that does as it likes. The state
remembers whether the exception in the slot is one with which an `eval` has ended.
-/
import QuickJSSwift.Exception
import QuickJSSwift.Global
import QuickJSSwift.ModuleExports
import QuickJSSwift.Lib.Run

set_option autoImplicit false

namespace QuickJSSwift.Pending

open Decode Engine Exception ModuleDef ModuleExports Ownership Utf

variable {ω : Type}

/-! ## Operations -/

/-- `EvalType`. -/
inductive EvalType
  | global
  | module
  deriving DecidableEq, Repr

/-- The calls of the engine that the operations make besides those of the decoders. -/
structure Host (ω : Type) extends Engine ω where
  global_obj : JSCValue
  JS_Eval : ω → List UInt8 → EvalType → ω × Reply JSCValue
  JS_Call : ω → JSCValue → List JSCValue → ω × Reply JSCValue
  JS_NewString : ω → List UInt8 → ω × Reply JSCValue
  JS_SetPropertyStr : ω → JSCValue → List UInt8 → JSCValue → ω × Reply Unit
  JS_NewAtom : ω → List UInt8 → ω × Reply (List UInt16)
  /-- What running the first job of the list does, if there is one. -/
  firstJob : ω → Option (ω × Reply JSCValue)

variable (H : Host ω)

/-- `JS_GetGlobalObject`. -/
def JS_GetGlobalObject (rt : Runtime ω) : JSCValue × Runtime ω :=
  (H.global_obj, { rt with ref_count := fun p => rt.ref_count p + oneAt H.global_obj p })

/-- `hasGlobalProperty(name:)`. A name that is not ASCII has no C string. -/
def hasGlobalProperty (rt : Runtime ω) (name : String) : Outcome ω Bool :=
  let (globalObj, rt) := JS_GetGlobalObject H rt
  Outcome.free globalObj <|
    match Global.cStringAscii name.toList with
    | none => .trapped
    | some _ =>
      let (jsValue, rt) := H.getPropertyStr rt globalObj name
      Outcome.free jsValue (.returned (some (!(JS_IsException jsValue || JS_IsUndefined jsValue))) rt)

/-- `setGlobalProperty(name:value:)`. The value goes to the engine. -/
def setGlobalProperty (rt : Runtime ω) (name value : List Char) : Runtime ω :=
  let (globalObj, rt) := JS_GetGlobalObject H rt
  let (jsValue, rt) := rt.call oneAt (fun w => H.JS_NewString w (utf8 value))
  let (_, rt) := rt.call 0 (fun w => H.JS_SetPropertyStr w globalObj (utf8 name) (jsValue.getD .exception))
  rt.JS_FreeValue globalObj

/-- `JS_AddModuleExport`; a name that is taken is a `SyntaxError`. -/
def JS_AddModuleExport (rt : Runtime ω) (entries : List JSExportEntry) (export_name : List UInt8) :
    List JSExportEntry × Runtime ω :=
  match rt.call 0 (fun w => H.JS_NewAtom w export_name) with
  | (none, rt) => (entries, rt)
  | (some name, rt) =>
    match add_export_entry2 entries name with
    | none => (entries, H.JS_ThrowError rt .JS_SYNTAX_ERROR "duplicate exported name '%s'")
    | some entries => (entries, rt)

/-- The `addExport` of all keys in `JSModule.init`. -/
def addExports : List (List Char) → List JSExportEntry → Runtime ω → List JSExportEntry × Runtime ω
  | [], entries, rt => (entries, rt)
  | key :: keys, entries, rt =>
    let (entries, rt) := JS_AddModuleExport H rt entries (utf8 key)
    addExports keys entries rt

/-- `module(_:_:)`: the export entries of the new module, or `nil`. A `JSRunloop` is such a
module, and then a function `setTimeout`. -/
def module (swift : Stdlib) (rt : Runtime ω) (name : List Char) (builder : Builder) :
    Option (List JSExportEntry) × Runtime ω :=
  match rt.call 0 (fun w => H.JS_NewAtom w (utf8 name)) with
  | (none, rt) => (none, rt)
  | (some _, rt) =>
    let properties := builderProperties swift builder.property
    -- the result of `addExport` is not looked at
    let (entries, rt) := addExports H ((swift.order properties).map Prod.fst) [] rt
    (some entries, rt)

/-- `call(function:argc:argv:)`. -/
def call (rt : Runtime ω) (function : JSCValue) (argv : List JSCValue) : Outcome ω JSCValue :=
  match rt.call oneAt (fun w => H.JS_Call w function argv) with
  | (some result, rt) => .returned (some result) rt
  | (none, rt) =>
    -- `isException`: the exception is taken and printed
    match getException H.toEngine rt with
    | .returned _ rt => .returned (some .exception) rt
    | .trapped => .trapped

/-- `flushPendingJobs()`, for so many turns of its loop. It ends with the first job that
fails, and with the list. -/
def flushPendingJobs : ℕ → Runtime ω → Runtime ω
  | 0, rt => rt
  | turns + 1, rt =>
    match H.firstJob rt.world with
    | none => rt
    | some job =>
      match rt.call oneAt (fun _ => job) with
      | (some res, rt) => flushPendingJobs turns (rt.JS_FreeValue res)
      | (none, rt) => rt

/-! ## Runs -/

/-- What the user can do. -/
inductive Op
  | eval (jsCode : List Char) (type : EvalType)
  | getException
  | getValue (T : Conforming) (value : JSCValue)
  | hasGlobalProperty (name : String)
  | setGlobalProperty (name value : List Char)
  | module (name : List Char) (builder : Builder)
  | function (module : ℕ) (name : List Char)
  | call (function : JSCValue) (argv : List JSCValue)
  | flushPendingJobs (turns : ℕ)

/-- `eval` tells its caller about an exception. -/
def Op.reportsException : Op → Bool
  | .eval _ _ => true
  | _ => false

/-- A runtime with the export entries of its modules. -/
structure State (ω : Type) where
  rt : Runtime ω
  modules : List (List JSExportEntry)
  /-- The exception in the slot is one with which an `eval` has ended. -/
  fromEval : Bool
  /-- Swift has stopped the program. -/
  stopped : Bool

/-- What an operation leaves. -/
structure Answer (ω : Type) where
  rt : Runtime ω
  modules : List (List JSExportEntry)
  /-- An `eval` has returned an exception value. -/
  evalFailed : Bool

variable (swift : Stdlib)

/-- One operation; `none` is a trap. -/
def perform (rt : Runtime ω) (modules : List (List JSExportEntry)) : Op → Option (Answer ω)
  | .eval jsCode type =>
    let (value, rt) := rt.call oneAt (fun w => H.JS_Eval w (utf8 jsCode) type)
    some ⟨rt, modules, value.isNone⟩
  | .getException => ofOutcome (Exception.getException H.toEngine rt)
  | .getValue T value => ofOutcome (initValue H.toEngine T rt value)
  | .hasGlobalProperty name => ofOutcome (Pending.hasGlobalProperty H rt name)
  | .setGlobalProperty name value =>
    some ⟨Pending.setGlobalProperty H rt name value, modules, false⟩
  | .module name builder =>
    match Pending.module H swift rt name builder with
    | (none, rt) => some ⟨rt, modules, false⟩
    | (some entries, rt) => some ⟨rt, modules ++ [entries], false⟩
  -- the export is the only part of `function` that can throw
  | .function k name =>
    match modules[k]? with
    | none => some ⟨rt, modules, false⟩
    | some entries =>
      let (entries, rt) := JS_AddModuleExport H rt entries (utf8 name)
      some ⟨rt, modules.set k entries, false⟩
  | .call function argv => ofOutcome (Pending.call H rt function argv)
  | .flushPendingJobs turns => some ⟨Pending.flushPendingJobs H turns rt, modules, false⟩
where
  ofOutcome {α : Type} : Outcome ω α → Option (Answer ω)
    | .returned _ rt => some ⟨rt, modules, false⟩
    | .trapped => none

/-- One step. -/
def step (s : State ω) (op : Op) : State ω :=
  if s.stopped then s
  else
    match perform H swift s.rt s.modules op with
    | none => { s with stopped := true }
    | some a =>
      { s with
        rt := a.rt
        modules := a.modules
        fromEval := if Uncaught (events s.rt a.rt) then a.evalFailed else s.fromEval }

/-- What is pending comes from an `eval` that returned an exception. -/
def Stems (s : State ω) : Prop := s.rt.current_exception ≠ .null → s.fromEval = true

/-- None of the exceptions that the engine throws during the operation is left uncaught,
unless it is an `eval`, which reports it. -/
def Swallows (s : State ω) (op : Op) : Prop :=
  s.stopped = false → op.reportsException = false →
    ∀ a, perform H swift s.rt s.modules op = some a → ¬ Uncaught (events s.rt a.rt)

/-! ## The slot and the log

What an operation leaves in the slot is what its events put there. -/

/-- Where an initialiser or an operation returns, its account is that of the slot. -/
def OutcomeTracks {α : Type} (rt : Runtime ω) (o : Outcome ω α) : Prop :=
  ∀ a rt', o = .returned a rt' → Tracks rt rt'

theorem OutcomeTracks.of_accounts {α : Type} {rt : Runtime ω} {o : Outcome ω α}
    (h : Accounts rt o) : OutcomeTracks rt o := by
  rintro a rt' rfl
  obtain ⟨δ, -, hruns⟩ : Grows rt rt' := h
  exact ⟨δ, hruns⟩

theorem tracks_setGlobalProperty (rt : Runtime ω) (name value : List Char) :
    Tracks rt (setGlobalProperty H rt name value) := by
  have hglobal : Tracks rt (JS_GetGlobalObject H rt).2 := ⟨_, runs_refs rt _⟩
  unfold setGlobalProperty
  dsimp only
  refine Tracks.trans ?_ ⟨_, runs_JS_FreeValue _ _⟩
  refine Tracks.trans ?_ (tracks_call _ _ _)
  exact hglobal.trans (tracks_call _ _ _)

theorem accounts_hasGlobalProperty (rt : Runtime ω) (name : String) :
    Accounts rt (hasGlobalProperty H rt name) := by
  refine Accounts.free ?_ (runs_refs rt (oneAt H.global_obj))
  split
  · trivial
  · refine Accounts.free ?_ (runs_getPropertyStr H.toEngine _ _ name)
    exact Grows.refl _

theorem tracks_JS_AddModuleExport (rt : Runtime ω) (entries : List JSExportEntry)
    (export_name : List UInt8) : Tracks rt (JS_AddModuleExport H rt entries export_name).2 := by
  have hatom := tracks_call rt 0 (fun w => H.JS_NewAtom w export_name)
  unfold JS_AddModuleExport
  split
  · next h =>
    rw [h] at hatom
    exact hatom
  · next h =>
    rw [h] at hatom
    split
    · exact hatom.trans ⟨0, runs_JS_ThrowError H.toEngine _ _ _⟩
    · exact hatom

theorem tracks_addExports (keys : List (List Char)) (entries : List JSExportEntry)
    (rt : Runtime ω) : Tracks rt (addExports H keys entries rt).2 := by
  induction keys generalizing entries rt with
  | nil => exact Tracks.refl rt
  | cons key keys ih => exact (tracks_JS_AddModuleExport H rt entries (utf8 key)).trans (ih _ _)

theorem tracks_module (rt : Runtime ω) (name : List Char) (builder : Builder) :
    Tracks rt (module H swift rt name builder).2 := by
  have hatom := tracks_call rt 0 (fun w => H.JS_NewAtom w (utf8 name))
  unfold module
  split
  · next h =>
    rw [h] at hatom
    exact hatom
  · next h =>
    rw [h] at hatom
    exact hatom.trans (tracks_addExports H _ [] _)

theorem tracks_callFunction (rt : Runtime ω) (function : JSCValue) (argv : List JSCValue) :
    OutcomeTracks rt (call H rt function argv) := by
  have hcall := tracks_call rt oneAt (fun w => H.JS_Call w function argv)
  unfold call
  split
  · next h =>
    rw [h] at hcall
    rintro a rt' ⟨⟩
    exact hcall
  · next rt₁ h =>
    rw [h] at hcall
    have hget := OutcomeTracks.of_accounts (accounts_getException H.toEngine rt₁)
    split
    · next h' =>
      rintro a rt' ⟨⟩
      exact hcall.trans (hget _ _ h')
    · rintro a rt' ⟨⟩

/-- Turn by turn. -/
theorem tracks_flushPendingJobs (turns : ℕ) (rt : Runtime ω) :
    Tracks rt (flushPendingJobs H turns rt) := by
  induction turns generalizing rt with
  | zero => exact Tracks.refl rt
  | succ turns ih =>
    rw [flushPendingJobs]
    split
    · exact Tracks.refl rt
    · next job hjob =>
      have hcall := tracks_call rt oneAt (fun _ => job)
      split
      · next h =>
        rw [h] at hcall
        exact (hcall.trans ⟨_, runs_JS_FreeValue _ _⟩).trans (ih _)
      · next h =>
        rw [h] at hcall
        exact hcall

theorem tracks_ofOutcome {α : Type} {rt : Runtime ω} {modules : List (List JSExportEntry)}
    {o : Outcome ω α} (ho : OutcomeTracks rt o) {a : Answer ω}
    (h : perform.ofOutcome modules o = some a) : Tracks rt a.rt ∧ a.evalFailed = false := by
  cases o with
  | trapped => cases h
  | returned v rt' =>
    cases h
    exact ⟨ho v rt' rfl, rfl⟩

/-- An `eval` that leaves an exception uncaught has returned one. -/
theorem call_uncaught {α : Type} {rt : Runtime ω} {held : α → Ptr → ℤ} {f : ω → ω × Reply α}
    (h : Uncaught (events rt (rt.call held f).2)) : (rt.call held f).1 = none := by
  revert h
  unfold Runtime.call
  obtain ⟨w, r⟩ := f rt.world
  cases r with
  | throws x => exact fun _ => rfl
  | fails => exact fun _ => rfl
  | value a caught =>
    -- With a value, the call has thrown nothing, or it has caught what was thrown.
    rintro ⟨x, hx, hne⟩
    exfalso
    cases caught with
    | false =>
      have hnil : events rt { rt with world := w } = [] := List.drop_length
      have hx' : lastInSlot (events rt { rt with world := w }) = some x := hx
      rw [hnil] at hx'
      cases hx'
    | true =>
      have hcleared : events rt (Runtime.catchException { rt with world := w }) = [.cleared] :=
        List.drop_left
      have hx' : lastInSlot (events rt (Runtime.catchException { rt with world := w })) = some x := hx
      rw [hcleared] at hx'
      cases hx'
      exact hne rfl

/-- **What every operation does to the slot**: what its events say. An `eval` returns an
exception if it leaves one uncaught; no other operation does. -/
theorem perform_spec {rt : Runtime ω} {modules : List (List JSExportEntry)} {op : Op}
    {a : Answer ω} (h : perform H swift rt modules op = some a) :
    Tracks rt a.rt ∧ (op.reportsException = false → a.evalFailed = false) ∧
      (op.reportsException = true → Uncaught (events rt a.rt) → a.evalFailed = true) := by
  -- For all operations but `eval` two facts are enough.
  have hswallowing : op.reportsException = false → Tracks rt a.rt ∧ a.evalFailed = false →
      Tracks rt a.rt ∧ (op.reportsException = false → a.evalFailed = false) ∧
        (op.reportsException = true → Uncaught (events rt a.rt) → a.evalFailed = true) := by
    intro hop ha
    exact ⟨ha.1, fun _ => ha.2, fun h => absurd (hop.symm.trans h) Bool.false_ne_true⟩
  cases op with
  | eval jsCode type =>
    set result := rt.call oneAt (fun w => H.JS_Eval w (utf8 jsCode) type) with hresult
    obtain rfl : a = ⟨result.2, modules, result.1.isNone⟩ := (Option.some.inj h).symm
    refine ⟨tracks_call _ _ _, fun h => Bool.noConfusion h, fun _ huncaught => ?_⟩
    change result.1.isNone = true
    rw [hresult, call_uncaught huncaught]
    rfl
  | getException =>
    exact hswallowing rfl
      (tracks_ofOutcome (OutcomeTracks.of_accounts (accounts_getException H.toEngine rt)) h)
  | getValue T value =>
    exact hswallowing rfl
      (tracks_ofOutcome (OutcomeTracks.of_accounts (accounts_initValue H.toEngine T rt value)) h)
  | hasGlobalProperty name =>
    exact hswallowing rfl
      (tracks_ofOutcome (OutcomeTracks.of_accounts (accounts_hasGlobalProperty H rt name)) h)
  | setGlobalProperty name value =>
    cases h
    exact hswallowing rfl ⟨tracks_setGlobalProperty H rt name value, rfl⟩
  | module name builder =>
    have hmodule := tracks_module H swift rt name builder
    rw [perform] at h
    split at h
    · next heq =>
      cases h
      rw [heq] at hmodule
      exact hswallowing rfl ⟨hmodule, rfl⟩
    · next heq =>
      cases h
      rw [heq] at hmodule
      exact hswallowing rfl ⟨hmodule, rfl⟩
  | function k name =>
    rw [perform] at h
    split at h
    · cases h
      exact hswallowing rfl ⟨Tracks.refl rt, rfl⟩
    · next entries _ =>
      cases h
      exact hswallowing rfl ⟨tracks_JS_AddModuleExport H rt entries (utf8 name), rfl⟩
  | call function argv =>
    exact hswallowing rfl (tracks_ofOutcome (tracks_callFunction H rt function argv) h)
  | flushPendingJobs turns =>
    cases h
    exact hswallowing rfl ⟨tracks_flushPendingJobs H turns rt, rfl⟩

/-- The slot after an operation. -/
theorem slot_of_tracks {rt rt' : Runtime ω} (h : Tracks rt rt') :
    rt'.current_exception = (lastInSlot (events rt rt')).getD rt.current_exception := by
  obtain ⟨δ, h⟩ := h
  rw [h.slot, slotAfter_eq]

/-- From an empty slot. -/
theorem slot_null_iff {rt rt' : Runtime ω} (h : Tracks rt rt') (hquiet : rt.current_exception = .null) :
    rt'.current_exception = .null ↔ ¬ Uncaught (events rt rt') := by
  obtain ⟨δ, h⟩ := h
  rw [h.slot, hquiet]
  exact slotAfter_null_iff _

theorem slot_ne_null_of_uncaught {rt rt' : Runtime ω} (h : Tracks rt rt')
    (huncaught : Uncaught (events rt rt')) : rt'.current_exception ≠ .null := by
  obtain ⟨x, hx, hne⟩ := huncaught
  rw [slot_of_tracks h, hx]
  exact hne

/-- Without an uncaught exception, what is pending was pending before. -/
theorem slot_of_not_uncaught {rt rt' : Runtime ω} (h : Tracks rt rt')
    (hcaught : ¬ Uncaught (events rt rt')) (hslot : rt'.current_exception ≠ .null) :
    rt.current_exception ≠ .null := by
  rw [slot_of_tracks h] at hslot
  unfold Uncaught at hcaught
  cases hlast : lastInSlot (events rt rt') with
  | none =>
    rw [hlast] at hslot
    exact hslot
  | some x =>
    rw [hlast] at hslot
    exact absurd ⟨x, hlast, hslot⟩ hcaught

/-! ## Runs -/

theorem step_of_stopped {s : State ω} (op : Op) (h : s.stopped = true) : step H swift s op = s :=
  if_pos h

theorem step_of_perform {s : State ω} {op : Op} {a : Answer ω} (hrun : s.stopped = false)
    (h : perform H swift s.rt s.modules op = some a) :
    step H swift s op = { s with
      rt := a.rt
      modules := a.modules
      fromEval := if Uncaught (events s.rt a.rt) then a.evalFailed else s.fromEval } := by
  unfold step
  rw [if_neg (by rw [hrun]; exact Bool.false_ne_true), h]

theorem step_of_trap {s : State ω} {op : Op} (hrun : s.stopped = false)
    (h : perform H swift s.rt s.modules op = none) :
    step H swift s op = { s with stopped := true } := by
  unfold step
  rw [if_neg (by rw [hrun]; exact Bool.false_ne_true), h]

/-- Where an operation is performed, it keeps the origin of what is pending exactly if it
is an `eval` or leaves no exception uncaught. -/
theorem stems_of_perform {s : State ω} {op : Op} {a : Answer ω} (hrun : s.stopped = false)
    (h : perform H swift s.rt s.modules op = some a) (hstems : Stems s) :
    Stems (step H swift s op) ↔
      (op.reportsException = false → ¬ Uncaught (events s.rt a.rt)) := by
  obtain ⟨htracks, hother, heval⟩ := perform_spec H swift h
  rw [step_of_perform H swift hrun h]
  unfold Stems
  dsimp only
  by_cases huncaught : Uncaught (events s.rt a.rt)
  · -- What is pending now is new, and only an `eval` may leave it.
    rw [if_pos huncaught]
    constructor
    · intro hafter hop
      have hfailed := hafter (slot_ne_null_of_uncaught htracks huncaught)
      rw [hother hop] at hfailed
      exact absurd hfailed Bool.false_ne_true
    · intro hop _
      cases hreports : op.reportsException with
      | true => exact heval hreports huncaught
      | false => exact absurd huncaught (hop hreports)
  · -- What is pending was pending before, or nothing is.
    rw [if_neg huncaught]
    exact iff_of_true (fun hslot => hstems (slot_of_not_uncaught htracks huncaught hslot))
      (fun _ => huncaught)

/-- The condition on an operation that is performed. -/
theorem swallows_of_perform {s : State ω} {op : Op} {a : Answer ω} (hrun : s.stopped = false)
    (h : perform H swift s.rt s.modules op = some a) :
    Swallows H swift s op ↔ (op.reportsException = false → ¬ Uncaught (events s.rt a.rt)) := by
  constructor
  · intro hop hreports
    exact hop hrun hreports a h
  · intro hop _ hreports a' ha'
    rw [h] at ha'
    cases ha'
    exact hop hreports

/-- Nothing is asked of a program that has stopped, or stops. -/
theorem swallows_of_stopped {s : State ω} {op : Op}
    (h : s.stopped = false → perform H swift s.rt s.modules op = none) : Swallows H swift s op := by
  intro hrun _ a ha
  rw [h hrun] at ha
  cases ha

/-- One step: the program has stopped, or stops, or the operation is performed. -/
theorem step_cases (s : State ω) (op : Op) :
    ((step H swift s op).rt = s.rt ∧ (step H swift s op).fromEval = s.fromEval ∧
        Swallows H swift s op) ∨
      ∃ a, s.stopped = false ∧ perform H swift s.rt s.modules op = some a := by
  cases hrun : s.stopped with
  | true =>
    rw [step_of_stopped H swift op hrun]
    exact .inl ⟨rfl, rfl, swallows_of_stopped H swift (fun h => by rw [hrun] at h; cases h)⟩
  | false =>
    cases h : perform H swift s.rt s.modules op with
    | none =>
      rw [step_of_trap H swift hrun h]
      exact .inl ⟨rfl, rfl, swallows_of_stopped H swift (fun _ => h)⟩
    | some a => exact .inr ⟨a, rfl, rfl⟩

theorem stems_step_iff (s : State ω) (op : Op) (hstems : Stems s) :
    Stems (step H swift s op) ↔ Swallows H swift s op := by
  rcases step_cases H swift s op with ⟨hrt, heval, hswallows⟩ | ⟨a, hrun, h⟩
  · refine iff_of_true ?_ hswallows
    unfold Stems
    rw [hrt, heval]
    exact hstems
  · rw [stems_of_perform H swift hrun h hstems, swallows_of_perform H swift hrun h]

/-- A new runtime. -/
def State.start (world : ω) (ref_count : Ptr → ℤ) : State ω :=
  ⟨⟨world, .null, ref_count, []⟩, [], false, false⟩

/-- The operation leaves nothing pending. -/
def StaysQuiet (s : State ω) (op : Op) : Prop :=
  op.reportsException = false → (step H swift s op).rt.current_exception = .null

/-- From a state with nothing pending. -/
theorem staysQuiet_iff {s : State ω} (op : Op) (hquiet : s.rt.current_exception = .null) :
    StaysQuiet H swift s op ↔ Swallows H swift s op := by
  unfold StaysQuiet
  rcases step_cases H swift s op with ⟨hrt, -, hswallows⟩ | ⟨a, hrun, h⟩
  · rw [hrt]
    exact iff_of_true (fun _ => hquiet) hswallows
  · rw [step_of_perform H swift hrun h, swallows_of_perform H swift hrun h]
    dsimp only
    rw [slot_null_iff (perform_spec H swift h).1 hquiet]

/-- **Swallowed exceptions**: along a run, all that is pending stems from an `eval` that
returned an exception exactly if every other operation leaves none uncaught. And in every
state that a run reaches with nothing pending, an operation leaves nothing pending exactly
if it leaves none uncaught. -/
theorem pending_stems_iff (H : Host ω) (swift : Stdlib) (world : ω) (ref_count : Ptr → ℤ)
    (ops : List Op) :
    (Run.Always (step H swift) Stems (.start world ref_count) ops ↔
        Run.Meets (step H swift) (Swallows H swift) (.start world ref_count) ops) ∧
      ∀ op, (Run.exec (step H swift) (.start world ref_count) ops).rt.current_exception = .null →
        (StaysQuiet H swift (Run.exec (step H swift) (.start world ref_count) ops) op ↔
          Swallows H swift (Run.exec (step H swift) (.start world ref_count) ops) op) := by
  constructor
  · refine (Run.always_iff_meets (W := fun _ => True) (fun _ _ _ => trivial)
      (fun s op _ h => stems_step_iff H swift s op h) trivial).trans (and_iff_right ?_)
    -- Nothing is pending in a new runtime.
    exact fun h => absurd rfl h
  · exact fun op hquiet => staysQuiet_iff H swift op hquiet

end QuickJSSwift.Pending
