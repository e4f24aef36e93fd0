/-
Native dispatch: whom a call of an exported function reaches.

The engine calls a function value through the unretained pointer in its function-data
object. `Dispatches` says that every value JS code can have got hold of leads to an
object that still exists, so that the block that runs is the one the value was built
with. The objects are kept alive by dictionaries and by the user, the values by JS code,
and neither knows of the other. `dispatch_reaches_iff` says for which runs that goes
well.
-/
import QuickJSSwift.Session
import QuickJSSwift.Lib.Run

set_option autoImplicit false

namespace QuickJSSwift.Session

open Utf Text ModuleDef

variable {swift : Stdlib}

/-! ## What a call must do -/

/-- Nothing has crashed, and a call of any exported function, from any engine context and
with any `this` and arguments, runs the block the function was built with, on them. -/
structure Dispatches (s : State) : Prop where
  running : s.crashed = false
  reaches : ∀ v < s.valueCount, (s.values v).exported = true → ∀ ctx this argv, ∃ args,
    js_c_function_data_call s v ctx this argv
        = .runs (s.values v).block ctx this argv.length args ∧
      args.take argv.length = argv

/-- The object has a strong reference other than `lost` of the user's and those of the
properties that are dropped. -/
def HeldBesides (s : State) (o lost : ℕ) (dropped : ℕ → List Char → Prop) : Prop :=
  lost < (s.objects o).users ∨ ∃ i < s.moduleCount, (s.modules i).held = true ∧
    ∃ kv ∈ (s.modules i).properties, kv.2 = o ∧ ¬ dropped i kv.1

/-- The step leaves the object a strong reference. A new registration under a name drops
the property that has the name; a module drops its properties when its last holder goes,
and the registry is a holder until the module's address is used again. -/
def Keeps (swift : Stdlib) (s : State) : Step → ℕ → Prop
  | .release o', o => HeldBesides s o (if o = o' then 1 else 0) (fun _ _ => False)
  | .module _ _ (some j), o => HeldBesides s o 0 (fun i _ =>
      i = j ∧ (s.modules j).live = false ∧ (s.modules j).users = 0)
  | .releaseModule j, o => HeldBesides s o 0 (fun i _ =>
      i = j ∧ (s.modules j).registered = false ∧ (s.modules j).users = 1)
  | .function j _ name _ _, o => HeldBesides s o 0 (fun i key =>
      i = j ∧ swift.normalize key = swift.normalize name)
  | _, o => HeldBesides s o 0 (fun _ _ => False)

/-- When a step is good for dispatch: it leaves a strong reference to the object of every
exported function, it registers no function with a definition that has been freed, and it
loads no property whose export has no variable. -/
def KeepsExported (swift : Stdlib) (s : State) (a : Step) : Prop :=
  (∀ v < s.valueCount, (s.values v).exported = true → Keeps swift s a (s.values v).data) ∧
    match a with
    | .function i _ _ _ _ => i < s.moduleCount → (s.modules i).held = true →
        (s.modules i).live = true
    | .evaluate i interned =>
        (s.modules i).live = true → (s.modules i).func_created = true →
        (s.modules i).loaded = false → ∀ kv ∈ (s.modules i).properties,
          settable interned (s.modules i).export_entries kv.1 = true
    | _ => True

/-! ## Holders -/

theorem holds_eq_heldBesides (s : State) (o : ℕ) :
    s.holds o = true ↔ HeldBesides s o 0 (fun _ _ => False) := by
  rw [holds_iff]
  unfold HeldBesides
  simp only [not_false_eq_true, and_true]

/-- The arguments of the call come first. -/
theorem take_arg_buf (length : ℤ) (argv : List JSCValue) :
    (arg_buf length argv).take argv.length = argv := by
  unfold arg_buf
  split_ifs
  · exact List.take_left
  · exact List.take_length

/-- Dispatch is a matter of holders. -/
theorem dispatches_iff {s : State} (h : Coherent swift s []) :
    Dispatches s ↔ s.crashed = false ∧
      ∀ v < s.valueCount, (s.values v).exported = true → s.holds (s.values v).data = true := by
  constructor
  · intro hd
    refine ⟨hd.running, fun v hv hexp => ?_⟩
    obtain ⟨args, hcall, -⟩ := hd.reaches v hv hexp 0 .undefined []
    unfold js_c_function_data_call dataFunction at hcall
    by_contra hholds
    rw [if_neg hholds] at hcall
    cases hcall
  · rintro ⟨hrun, hholds⟩
    refine ⟨hrun, fun v hv hexp ctx this argv => ?_⟩
    refine ⟨arg_buf (s.values v).length argv, ?_, take_arg_buf _ _⟩
    unfold js_c_function_data_call dataFunction callRealFunction
    rw [if_pos (hholds v hv hexp), (h.origin v hv).2]

/-- A state with the same users, modules held and properties has the same holders. -/
theorem holds_congr {s s' : State} {o : ℕ} (huser : (s'.objects o).users = (s.objects o).users)
    (hcount : s'.moduleCount = s.moduleCount)
    (hmod : ∀ i, (s'.modules i).held = (s.modules i).held ∧
      (s'.modules i).properties = (s.modules i).properties) : s'.holds o = s.holds o := by
  rw [Bool.eq_iff_iff, holds_iff, holds_iff, huser, hcount]
  simp only [(hmod _).1, (hmod _).2]

theorem held_builds {s s' : State} {os : List ℕ} (hb : Builds s s' os) (i : ℕ) :
    (s'.modules i).held = (s.modules i).held := by
  unfold JSModule.held
  rw [(hb.modules i).registered, (hb.modules i).users]

theorem holds_builds {s s' : State} {os : List ℕ} (hb : Builds s s' os) (o : ℕ) :
    s'.holds o = s.holds o :=
  holds_congr (hb.objects o).users hb.moduleCount
    (fun i => ⟨held_builds hb i, (hb.modules i).properties⟩)

/-- Giving up one reference of the user's. -/
theorem holds_release (s : State) (o' o : ℕ) :
    (step swift s (.release o')).holds o = true ↔ Keeps swift s (.release o') o := by
  rw [holds_iff, Keeps, HeldBesides, step]
  refine or_congr ?_ ?_
  · by_cases ho : o = o'
    · rw [if_pos ho, ho]
      unfold State.setObject
      dsimp only
      rw [Function.update_self]
      dsimp only
      omega
    · rw [if_neg ho]
      unfold State.setObject
      dsimp only
      rw [Function.update_of_ne ho]
  · unfold State.setObject
    simp only [not_false_eq_true, and_true]

/-- Taking a reference. -/
theorem holds_retain (s : State) (o' o : ℕ) :
    (step swift s (.retain o')).holds o = true ↔ s.holds o = true := by
  rw [step]
  split_ifs with ho'
  swap
  · exact Iff.rfl
  by_cases ho : o = o'
  · rw [ho]
    refine iff_of_true ?_ ho'
    rw [holds_iff]
    refine Or.inl ?_
    unfold State.setObject
    dsimp only
    rw [Function.update_self]
    exact Nat.succ_pos _
  · have husers : ((s.setObject o' (fun f => { f with users := f.users + 1 })).objects o).users
        = (s.objects o).users := congrArg JSFunction.users (Function.update_of_ne ho _ _)
    rw [holds_congr husers rfl (fun i => ⟨rfl, rfl⟩)]

/-- Changing one module: its properties count as long as somebody holds it. -/
theorem holds_setModule (s : State) (j : ℕ) (f : JSModule → JSModule) (o : ℕ) :
    (s.setModule j f).holds o = true ↔ 0 < (s.objects o).users ∨
      ∃ i < s.moduleCount, if i = j then (f (s.modules j)).held = true ∧
          ∃ kv ∈ (f (s.modules j)).properties, kv.2 = o
        else (s.modules i).held = true ∧ ∃ kv ∈ (s.modules i).properties, kv.2 = o := by
  rw [holds_iff]
  refine or_congr Iff.rfl (exists_congr fun i => and_congr_right fun _ => ?_)
  unfold State.setModule
  dsimp only
  split_ifs with hi
  · rw [hi, Function.update_self]
  · rw [Function.update_of_ne hi]

/-- A module that stays as held as it was, with its properties. -/
theorem holds_setModule_same {s : State} {j : ℕ} {f : JSModule → JSModule}
    (hheld : (f (s.modules j)).held = (s.modules j).held)
    (hprops : (f (s.modules j)).properties = (s.modules j).properties) (o : ℕ) :
    (s.setModule j f).holds o = s.holds o := by
  refine @holds_congr s (s.setModule j f) o rfl rfl ?_
  intro i
  unfold State.setModule
  dsimp only
  by_cases hi : i = j
  · rw [hi, Function.update_self]
    exact ⟨hheld, hprops⟩
  · rw [Function.update_of_ne hi]
    exact ⟨rfl, rfl⟩

/-- A module whose holders change but not its properties. -/
theorem holds_setHolders {s : State} {j : ℕ} {f : JSModule → JSModule} {lost : Prop}
    (hprops : (f (s.modules j)).properties = (s.modules j).properties)
    (hheld : (f (s.modules j)).held = true ↔ (s.modules j).held = true ∧ ¬ lost) (o : ℕ) :
    (s.setModule j f).holds o = true ↔ HeldBesides s o 0 (fun i _ => i = j ∧ lost) := by
  rw [holds_setModule, HeldBesides]
  refine or_congr Iff.rfl (exists_congr fun i => and_congr_right fun _ => ?_)
  split_ifs with hi
  · rw [hi, hprops, hheld]
    constructor
    · rintro ⟨⟨h, hlost⟩, kv, hkv, ho⟩
      exact ⟨h, kv, hkv, ho, fun hand => hlost hand.2⟩
    · rintro ⟨h, kv, hkv, ho, hlost⟩
      exact ⟨⟨h, fun hl => hlost ⟨rfl, hl⟩⟩, kv, hkv, ho⟩
  · simp only [hi, false_and, not_false_eq_true, and_true]

theorem holds_releaseModule (s : State) (j o : ℕ) :
    (step swift s (.releaseModule j)).holds o = true ↔ Keeps swift s (.releaseModule j) o := by
  rw [step, Keeps]
  refine holds_setHolders rfl ?_ o
  unfold JSModule.held
  dsimp only
  rw [Bool.or_eq_true, Bool.or_eq_true, decide_eq_true_iff, decide_eq_true_iff]
  cases (s.modules j).registered with
  | true => simp
  | false =>
    simp only [Bool.false_eq_true, false_or, true_and]
    omega

theorem holds_unregister (s : State) (j o : ℕ) :
    (s.unregister (some j)).holds o = true ↔ HeldBesides s o 0 (fun i _ =>
      i = j ∧ (s.modules j).live = false ∧ (s.modules j).users = 0) := by
  rw [State.unregister]
  split_ifs with hlive
  · rw [holds_eq_heldBesides, hlive]
    simp only [Bool.true_eq_false, false_and, and_false]
  · refine holds_setHolders rfl ?_ o
    have hdead : (s.modules j).live = false := by simpa using hlive
    unfold JSModule.held
    rw [hdead]
    dsimp only
    rw [Bool.or_eq_true, Bool.or_eq_true, decide_eq_true_iff]
    simp only [Bool.false_eq_true, false_or, true_and]
    omega

theorem holds_module (s : State) (interned : AtomTable) (children : List ℕ) (o : ℕ) :
    (s.module swift interned children).holds o = true ↔ s.holds o = true := by
  rw [holds_builds (builds_module s interned children), holds_iff, holds_iff]
  constructor
  · rintro (hu | ⟨i, hi, hheld, kv, hkv, ho⟩)
    · exact Or.inl hu
    · by_cases hnew : i = s.moduleCount
      · -- A property of the new module is an object of the user's.
        rw [hnew, newModule_self] at hkv
        have := ((@builderProperties_spec swift s children).2 kv hkv).2.1
        rw [ho] at this
        exact Or.inl this
      · rw [newModule_of_ne hnew] at hheld hkv
        change i < s.moduleCount + 1 at hi
        exact Or.inr ⟨i, by omega, hheld, kv, hkv, ho⟩
  · rintro (hu | ⟨i, hi, hheld, kv, hkv, ho⟩)
    · exact Or.inl hu
    · refine Or.inr ⟨i, Nat.lt_succ_of_lt hi, ?_⟩
      rw [newModule_of_ne (Nat.ne_of_lt hi)]
      exact ⟨hheld, kv, hkv, ho⟩

/-- A registration drops the property that has the name. -/
theorem holds_placeFunction {s : State} (h : Coherent swift s []) (j : ℕ) (name : List Char)
    (argc : ℤ) (block : ℕ) {o : ℕ} (ho : o < s.objectCount) :
    (s.placeFunction swift j name argc block).holds o = true ↔
      HeldBesides s o 0 (fun i key => i = j ∧ swift.normalize key = swift.normalize name) := by
  have husers : (((s.newFunction name argc block 0).buildFunction s.objectCount).objects o).users
      = (s.objects o).users := by
    rw [((builds_buildFunction _ _).objects o).users]
    exact congrArg JSFunction.users (Function.update_of_ne (Nat.ne_of_lt ho) _ _)
  unfold State.placeFunction
  rw [holds_setModule, HeldBesides, husers]
  refine or_congr Iff.rfl (exists_congr fun i => and_congr_right fun _ => ?_)
  change (if i = j then (s.modules j).held = true ∧
      ∃ kv ∈ swift.set (s.modules j).properties name s.objectCount, kv.2 = o
    else (s.modules i).held = true ∧ ∃ kv ∈ (s.modules i).properties, kv.2 = o) ↔ _
  split_ifs with hi
  · rw [hi]
    refine and_congr_right fun _ => ?_
    constructor
    · rintro ⟨kv, hkv, hval⟩
      rcases Stdlib.mem_set (h.keys j) hkv with ⟨hold, hne⟩ | ⟨hnew, -⟩
      · exact ⟨kv, hold, hval, fun hand => hne hand.2⟩
      · omega
    · rintro ⟨kv, hkv, hval, hne⟩
      exact ⟨kv, Stdlib.mem_set_of_ne _ hkv (fun heq => hne ⟨rfl, heq⟩), hval⟩
  · simp only [hi, false_and, not_false_eq_true, and_true]

theorem holds_addExport (s : State) (i : ℕ) (interned : AtomTable) (name : List Char) (o : ℕ) :
    (s.addExport i interned name).holds o = s.holds o := by
  by_cases hlive : (s.modules i).live = true
  · exact holds_builds (builds_addExport s i hlive interned name) o
  · unfold State.addExport
    rw [if_neg hlive]
    rfl

theorem holds_load (s : State) (j : ℕ) (interned : AtomTable) (o : ℕ) :
    (s.load swift j interned).holds o = s.holds o := by
  have hl := @loads_load swift s j interned
  apply holds_congr (by rw [hl.objects]) hl.moduleCount
  intro i
  by_cases hi : i = j
  · obtain ⟨e, he⟩ := hl.loaded
    rw [hi, he]
    exact ⟨rfl, rfl⟩
  · rw [hl.other i hi]
    exact ⟨rfl, rfl⟩

/-- The holders after a step. -/
theorem holds_step_iff {s : State} (h : Coherent swift s []) (a : Step) {o : ℕ}
    (ho : o < s.objectCount) : (step swift s a).holds o = true ↔ Keeps swift s a o := by
  cases a with
  | newFunction name argc block =>
    have husers : ((s.newFunction name argc block 1).objects o).users = (s.objects o).users :=
      congrArg JSFunction.users (Function.update_of_ne (Nat.ne_of_lt ho) _ _)
    rw [step, holds_congr husers rfl (fun i => ⟨rfl, rfl⟩)]
    exact holds_eq_heldBesides s o
  | retain o' => exact (holds_retain s o' o).trans (holds_eq_heldBesides s o)
  | release o' => exact holds_release s o' o
  | module interned children reuses =>
    rw [step, holds_module]
    cases reuses with
    | none => exact holds_eq_heldBesides s o
    | some j => exact holds_unregister s j o
  | retainModule j =>
    rw [step]
    split_ifs with hheld
    · have hstay : ({ s.modules j with users := (s.modules j).users + 1 } : JSModule).held
          = (s.modules j).held := by
        rw [hheld]
        unfold JSModule.held
        simp
      rw [holds_setModule_same hstay rfl]
      exact holds_eq_heldBesides s o
    · exact holds_eq_heldBesides s o
  | releaseModule j => exact holds_releaseModule s j o
  | function j interned name argc block =>
    rw [step]
    split_ifs with hif
    · unfold State.function
      rw [holds_addExport, holds_placeFunction h j name argc block ho, Keeps]
    · -- Nobody holds the module, so its properties hold nothing.
      rw [Keeps, holds_iff, HeldBesides]
      refine or_congr Iff.rfl (exists_congr fun i => and_congr_right fun hi =>
        and_congr_right fun hheld => ?_)
      have hne : i ≠ j := fun heq => hif (heq ▸ ⟨hi, hheld⟩)
      simp only [hne, false_and, not_false_eq_true, and_true]
  | resolve j =>
    rw [step]
    split_ifs
    · rw [holds_setModule_same rfl rfl]
      exact holds_eq_heldBesides s o
    · exact holds_eq_heldBesides s o
  | instantiate j =>
    rw [step]
    split_ifs
    · rw [holds_setModule_same rfl rfl]
      exact holds_eq_heldBesides s o
    · exact holds_eq_heldBesides s o
  | evaluate j interned =>
    rw [step]
    split_ifs
    · rw [holds_load]
      exact holds_eq_heldBesides s o
    · exact holds_eq_heldBesides s o
  | freeNotResolved =>
    rw [step, holds_congr rfl rfl (fun i => ⟨rfl, rfl⟩)]
    exact holds_eq_heldBesides s o
  | freeNotEvaluated =>
    rw [step, holds_congr rfl rfl (fun i => ⟨rfl, rfl⟩)]
    exact holds_eq_heldBesides s o

/-! ## One step -/

/-- Steps that break nothing and export nothing: what they make is not exported. -/
theorem dispatches_quiet {s : State} (h : Coherent swift s []) (hd : Dispatches s) {a : Step}
    (hcount : s.valueCount ≤ (step swift s a).valueCount)
    (hold : ∀ v < s.valueCount, (step swift s a).values v = s.values v)
    (hnew : ∀ v, s.valueCount ≤ v → v < (step swift s a).valueCount →
      ((step swift s a).values v).exported = false)
    (hcrashed : (step swift s a).crashed = s.crashed) :
    Dispatches (step swift s a) ↔
      ∀ v < s.valueCount, (s.values v).exported = true → Keeps swift s a (s.values v).data := by
  rw [dispatches_iff (coherent_step s a h), hcrashed, and_iff_right hd.running]
  constructor
  · intro hholds v hv hexp
    rw [← holds_step_iff h a (h.origin v hv).1, ← hold v hv]
    exact hholds v (Nat.lt_of_lt_of_le hv hcount) (by rw [hold v hv]; exact hexp)
  · intro hkeeps v hv hexp
    rcases Nat.lt_or_ge v s.valueCount with hlt | hge
    · rw [hold v hlt] at hexp ⊢
      exact (holds_step_iff h a (h.origin v hlt).1).mpr (hkeeps v hlt hexp)
    · rw [hnew v hge hv] at hexp
      exact absurd hexp (by simp)

/-- Steps that do not touch the values. -/
theorem dispatches_still {s : State} (h : Coherent swift s []) (hd : Dispatches s) {a : Step}
    (hcount : (step swift s a).valueCount = s.valueCount)
    (hvalues : (step swift s a).values = s.values)
    (hcrashed : (step swift s a).crashed = s.crashed) :
    Dispatches (step swift s a) ↔
      ∀ v < s.valueCount, (s.values v).exported = true → Keeps swift s a (s.values v).data := by
  refine dispatches_quiet h hd hcount.ge (fun v _ => by rw [hvalues]) ?_ hcrashed
  intro v hge hlt
  rw [hcount] at hlt
  omega

/-- `function` with a definition that has been freed is a crash. -/
theorem dispatches_function_iff {s : State} (h : Coherent swift s []) (hd : Dispatches s) (i : ℕ)
    (interned : AtomTable) (name : List Char) (argc : ℤ) (block : ℕ) :
    Dispatches (step swift s (.function i interned name argc block)) ↔
      KeepsExported swift s (.function i interned name argc block) := by
  unfold KeepsExported
  by_cases hif : i < s.moduleCount ∧ (s.modules i).held = true
  · have hstep : step swift s (.function i interned name argc block)
        = (s.placeFunction swift i name argc block).addExport i interned name := if_pos hif
    have hlive : ((s.placeFunction swift i name argc block).modules i).live
        = (s.modules i).live := by rw [placeFunction_self]
    by_cases hl : (s.modules i).live = true
    · rw [and_iff_left (fun _ _ => hl)]
      have hb := builds_buildFunction (s.newFunction name argc block 0) s.objectCount
      have hadd := builds_addExport (s.placeFunction swift i name argc block) i
        (hlive.trans hl) interned name
      have hvalues := values_addExport (s.placeFunction swift i name argc block) i interned name
      rw [← hstep] at hvalues hadd
      refine dispatches_quiet h hd ?_ ?_ ?_ hadd.crashed
      · rw [hvalues.2]
        exact hb.valueCount
      · intro v hv
        rw [hvalues.1]
        exact hb.old v hv
      · intro v hge hlt
        rw [hvalues.2] at hlt
        rw [hvalues.1]
        exact congrArg FunctionValue.exported (hb.new v hge hlt).2
    · refine iff_of_false ?_ (fun hok => hl (hok.2 hif.1 hif.2))
      intro hdis
      have hcr := hdis.running
      rw [hstep] at hcr
      unfold State.addExport at hcr
      rw [if_neg (by rw [hlive]; exact hl)] at hcr
      exact absurd hcr (by simp)
  · rw [and_iff_left (fun hi hheld => absurd ⟨hi, hheld⟩ hif)]
    have hstep : step swift s (.function i interned name argc block) = s := if_neg hif
    apply dispatches_still h hd <;> rw [hstep]

/-- `load()` exports functions of objects that its module holds. -/
theorem dispatches_evaluate_iff {s : State} (h : Coherent swift s []) (hd : Dispatches s) (i : ℕ)
    (interned : AtomTable) :
    Dispatches (step swift s (.evaluate i interned)) ↔
      KeepsExported swift s (.evaluate i interned) := by
  unfold KeepsExported
  by_cases hif : ((s.modules i).live && (s.modules i).func_created && !(s.modules i).loaded) = true
  swap
  · have hstep : step swift s (.evaluate i interned) = s := if_neg hif
    rw [and_iff_left]
    · apply dispatches_still h hd <;> rw [hstep]
    · intro hl hc hn
      exact absurd (by rw [hl, hc, hn]; rfl) hif
  have hstep : step swift s (.evaluate i interned) = s.load swift i interned := if_pos hif
  obtain ⟨⟨hlive, hcreated⟩, hloaded⟩ : ((s.modules i).live = true ∧
      (s.modules i).func_created = true) ∧ (s.modules i).loaded = false := by simpa using hif
  have hl := @loads_load swift s i interned
  have hmem : ∀ kv, kv ∈ swift.order (s.modules i).properties ↔ kv ∈ (s.modules i).properties :=
    fun kv => (swift.order_perm _).mem_iff
  rw [dispatches_iff (coherent_step s _ h), hstep, hl.crashed, hd.running, Bool.false_or,
    hl.valueCount, List.any_eq_false]
  constructor
  · rintro ⟨hset, hholds⟩
    refine ⟨fun v hv hexp => ?_, fun _ _ _ kv hkv => by simpa using hset kv ((hmem kv).mpr hkv)⟩
    obtain ⟨b, n, hvalue, hstill, -⟩ := hl.values v
    have := hholds v hv (by rw [hvalue]; exact hstill hexp)
    rw [hvalue, holds_load] at this
    exact (holds_eq_heldBesides _ _).mp this
  · rintro ⟨hkeeps, hset⟩
    refine ⟨fun kv hkv => ?_, fun v hv hexp => ?_⟩
    · rw [hset hlive hcreated hloaded kv ((hmem kv).mp hkv)]
      simp
    · obtain ⟨b, n, hvalue, -, horigin, -⟩ := hl.values v
      rw [hvalue] at hexp ⊢
      rw [holds_load]
      dsimp only at hexp ⊢
      rcases horigin hexp with hold | ⟨me, hme, hvar⟩ | ⟨kv, hkv, hcur⟩
      · exact (holds_eq_heldBesides _ _).mpr (hkeeps v hv hold)
      · exact absurd hvar (h.unread i hloaded me hme v)
      · -- A property of the module, which the registry holds.
        rw [(h.current _ v hcur).2, holds_iff]
        have hheld : (s.modules i).held = true := by
          unfold JSModule.held
          rw [h.listed i hlive]
          rfl
        refine Or.inr ⟨i, ?_, hheld, kv, (hmem kv).mp hkv, rfl⟩
        by_contra hge
        rw [(h.modulesBeyond i (Nat.not_lt.mp hge)).1] at hheld
        exact absurd hheld (by simp)

/-- **One step** keeps dispatch right exactly if it meets its condition. -/
theorem dispatches_step_iff (s : State) (a : Step) (h : Coherent swift s [])
    (hd : Dispatches s) : Dispatches (step swift s a) ↔ KeepsExported swift s a := by
  cases a with
  | function i interned name argc block => exact dispatches_function_iff h hd i interned name argc block
  | evaluate i interned => exact dispatches_evaluate_iff h hd i interned
  | module interned children reuses =>
    unfold KeepsExported
    rw [and_iff_left trivial]
    have hb := @builds_module swift (s.unregister reuses) interned children
    have hsame := unregister_frame s reuses
    refine dispatches_quiet h hd ?_ ?_ ?_ (hb.crashed.trans hsame.2.2)
    · exact hsame.2.1.ge.trans hb.valueCount
    · intro v hv
      rw [← hsame.1]
      exact hb.old v (hv.trans_eq hsame.2.1.symm)
    · intro v hge hlt
      exact congrArg FunctionValue.exported (hb.new v (hsame.2.1.le.trans hge) hlt).2
  | retain o =>
    unfold KeepsExported
    rw [and_iff_left trivial]
    apply dispatches_still h hd <;> rw [step] <;> split_ifs <;> rfl
  | retainModule i =>
    unfold KeepsExported
    rw [and_iff_left trivial]
    apply dispatches_still h hd <;> rw [step] <;> split_ifs <;> rfl
  | resolve i =>
    unfold KeepsExported
    rw [and_iff_left trivial]
    apply dispatches_still h hd <;> rw [step] <;> split_ifs <;> rfl
  | instantiate i =>
    unfold KeepsExported
    rw [and_iff_left trivial]
    apply dispatches_still h hd <;> rw [step] <;> split_ifs <;> rfl
  | _ =>
    unfold KeepsExported
    rw [and_iff_left trivial]
    exact dispatches_still h hd rfl rfl rfl

/-- **Native dispatch** is right in every state of a run exactly if every step of it
leaves a strong reference to the object of every exported function, registers no function
with a freed definition, and loads no export without a variable. -/
theorem dispatch_reaches_iff (steps : List Step) :
    Run.Always (step swift) Dispatches State.empty steps ↔
      Run.Meets (step swift) (KeepsExported swift) State.empty steps := by
  have hfirst : Dispatches State.empty :=
    ⟨rfl, fun v hv => absurd hv (Nat.not_lt_zero v)⟩
  rw [Run.always_iff_meets coherent_step dispatches_step_iff coherent_empty]
  exact and_iff_right hfirst

/-- `f` is imported from a module, and `function` registers another function under its
name. -/
def registerAgain : List Step :=
  [.newFunction ['f'] 0 7, .module [] [0] none, .release 0, .resolve 0, .instantiate 0,
    .evaluate 0 [], .function 0 [] ['f'] 0 8]

/-- A call of the imported function then reads a dangling pointer. -/
theorem dispatch_dangling_after_function :
    ¬ Run.Always (step inOrder) Dispatches State.empty registerAgain := by
  intro h
  obtain ⟨args, hcall, -⟩ := h.last.reaches 0 (by decide +kernel) (by decide +kernel) 0
    .undefined []
  have hdangling : js_c_function_data_call (Run.exec (step inOrder) State.empty registerAgain) 0 0
      .undefined [] = .dangling := by decide +kernel
  rw [hdangling] at hcall
  cases hcall

end QuickJSSwift.Session
