/-
The job queue of a runtime: `JS_EnqueueJob` and `JS_ExecutePendingJob` (`quickjs.c`), and
the loop of `flushPendingJobs` (`JSContext.swift`) that the run-loop observer starts
before timers (`JSRunloop.swift`).

The engine takes a job off the list before it runs it, and what the job enqueues goes to
the tail, so the list grows while it is drained. The loop of `flushPendingJobs` ends on
`<= 0`, which is an empty list (`0`) as well as a failed job (`-1`).

Jobs are known by what they do: from a state of the JS world a job makes another one,
a list of new jobs, and a success or a failure. A flush need not return, as jobs can
spawn jobs for ever; so a flush is a sequence of turns of its loop, and what is claimed of
every moment is claimed of every state that any sequence of steps can reach.

The queue keeps no record of itself. What was enqueued and what was run is written down in
the world: by a job when it runs, and by the code that enqueues from outside of jobs.
-/
import QuickJSSwift.Lib.Run
import Mathlib.Data.Int.Notation

set_option autoImplicit false

namespace QuickJSSwift.Jobs

variable {Job ω : Type}

/-! ## The queue -/

/-- The job list of a runtime, and what its jobs work on. -/
structure Runtime (Job ω : Type) where
  job_list : List Job
  world : ω

/-- `JS_EnqueueJob`: `list_add_tail`. -/
def JS_EnqueueJob (rt : Runtime Job ω) (e : Job) : Runtime Job ω :=
  { rt with job_list := rt.job_list ++ [e] }

/-- What running a job does: the new state of the world, the jobs it enqueues in order,
and whether it returns without an exception. -/
structure Effect (Job ω : Type) where
  world : ω
  jobs : List Job
  succeeds : Bool

/-- `JS_ExecutePendingJob`, with its return value. -/
def JS_ExecutePendingJob (job_func : ω → Job → Effect Job ω) (rt : Runtime Job ω) :
    Runtime Job ω × ℤ :=
  match rt.job_list with
  | [] => (rt, 0)
  | e :: rest =>
    -- `list_del` comes before the job runs
    let rt := { rt with job_list := rest }
    let res := job_func rt.world e
    (res.jobs.foldl JS_EnqueueJob { rt with world := res.world }, if res.succeeds then 1 else -1)

/-! ## Flushing -/

/-- A world in which the jobs are written down. -/
structure History (Job ω : Type) where
  world : ω
  executed : List Job
  enqueued : List Job

variable (job_func : ω → Job → Effect Job ω)

/-- A job that writes down that it ran, and what it has enqueued. -/
def recorded (w : History Job ω) (e : Job) : Effect Job (History Job ω) :=
  let res := job_func w.world e
  ⟨⟨res.world, w.executed ++ [e], w.enqueued ++ res.jobs⟩, res.jobs, res.succeeds⟩

/-- A runtime, and whether a `flushPendingJobs` is under way. -/
structure State (Job ω : Type) where
  rt : Runtime Job (History Job ω)
  flushing : Bool

/-- What can happen: code outside of jobs changes the world or enqueues a job, a flush
begins, or the loop of the flush takes a turn. -/
inductive Step (Job ω : Type)
  | code (world : ω)
  | enqueue (e : Job)
  | flush
  | turn

/-- One turn of `while true` in `flushPendingJobs`. -/
def turn (s : State Job ω) : State Job ω :=
  let (rt, ret) := JS_ExecutePendingJob (recorded job_func) s.rt
  ⟨rt, !decide (ret ≤ 0)⟩

/-- One step. A loop takes turns only while it is under way. -/
def step (s : State Job ω) : Step Job ω → State Job ω
  | .code world => { s with rt := { s.rt with world := { s.rt.world with world := world } } }
  | .enqueue e =>
    let w := { s.rt.world with enqueued := s.rt.world.enqueued ++ [e] }
    { s with rt := JS_EnqueueJob { s.rt with world := w } e }
  | .flush => { s with flushing := true }
  | .turn => if s.flushing then turn job_func s else s

/-- Some jobs are in the list, and nothing has run. -/
def State.start (job_list : List Job) (world : ω) : State Job ω :=
  ⟨⟨job_list, ⟨world, [], job_list⟩⟩, false⟩

/-! ## What one call does -/

theorem enqueueJobs (jobs : List Job) (rt : Runtime Job ω) :
    jobs.foldl JS_EnqueueJob rt = { rt with job_list := rt.job_list ++ jobs } := by
  induction jobs generalizing rt with
  | nil => simp
  | cons e jobs ih =>
    rw [List.foldl_cons, ih]
    simp [JS_EnqueueJob]

/-- With a job in the list, the first one runs and is gone, and what it enqueues is at the
tail. -/
theorem executePendingJob_cons {rt : Runtime Job ω} {e : Job} {rest : List Job}
    (h : rt.job_list = e :: rest) :
    JS_ExecutePendingJob job_func rt =
      (⟨rest ++ (job_func rt.world e).jobs, (job_func rt.world e).world⟩,
        if (job_func rt.world e).succeeds then 1 else -1) := by
  unfold JS_ExecutePendingJob
  rw [h]
  dsimp only
  rw [enqueueJobs]

theorem executePendingJob_nil {rt : Runtime Job ω} (h : rt.job_list = []) :
    JS_ExecutePendingJob job_func rt = (rt, 0) := by
  unfold JS_ExecutePendingJob
  rw [h]

/-- The loop goes on exactly after a job that succeeded. -/
theorem turn_cons {s : State Job ω} {e : Job} {rest : List Job} (h : s.rt.job_list = e :: rest) :
    turn job_func s =
      ⟨⟨rest ++ (job_func s.rt.world.world e).jobs, (recorded job_func s.rt.world e).world⟩,
        (job_func s.rt.world.world e).succeeds⟩ := by
  have hsucceeds : (!decide ((if (job_func s.rt.world.world e).succeeds then (1 : ℤ) else -1) ≤ 0))
      = (job_func s.rt.world.world e).succeeds := by
    cases (job_func s.rt.world.world e).succeeds <;> rfl
  unfold turn
  rw [executePendingJob_cons (recorded job_func) h]
  exact congrArg (State.mk _) hsucceeds

theorem turn_nil {s : State Job ω} (h : s.rt.job_list = []) :
    turn job_func s = ⟨s.rt, false⟩ := by
  unfold turn
  rw [executePendingJob_nil (recorded job_func) h]
  rfl

/-! ## Every moment -/

/-- What was run, followed by what is queued, is what was enqueued. -/
def Accounted (s : State Job ω) : Prop :=
  s.rt.world.executed ++ s.rt.job_list = s.rt.world.enqueued

theorem accounted_step (s : State Job ω) (a : Step Job ω) (h : Accounted s) :
    Accounted (step job_func s a) := by
  unfold Accounted at h ⊢
  cases a with
  | code world => exact h
  | enqueue e =>
    change s.rt.world.executed ++ (s.rt.job_list ++ [e]) = s.rt.world.enqueued ++ [e]
    rw [← h, List.append_assoc]
  | flush => exact h
  | turn =>
    rw [step]
    split_ifs
    · cases hq : s.rt.job_list with
      | nil =>
        rw [turn_nil job_func hq]
        exact h
      | cons e rest =>
        -- the head moves to what was run, and the new jobs are behind the rest
        rw [turn_cons job_func hq]
        change (s.rt.world.executed ++ [e]) ++ (rest ++ (job_func s.rt.world.world e).jobs)
          = s.rt.world.enqueued ++ (job_func s.rt.world.world e).jobs
        rw [← h, hq]
        simp
    · exact h

/-- What a state owes the jobs. A turn of a flush runs the first job in the world as it is,
and the loop goes on with its jobs at the tail exactly if it succeeded; a turn with nothing
to run ends the flush. So a flush returns only when the list was empty, or when a job has
just failed and those behind it are at the head of the list; and whatever happens after
that outside of jobs, the next flush starts with the head. -/
structure Orderly (s : State Job ω) : Prop where
  accounted : Accounted s
  inOrder : s.rt.world.executed <+: s.rt.world.enqueued
  turns : s.flushing = true → ∀ e rest, s.rt.job_list = e :: rest →
    (step job_func s .turn).rt.job_list = rest ++ (job_func s.rt.world.world e).jobs ∧
      (step job_func s .turn).rt.world.world = (job_func s.rt.world.world e).world ∧
      (step job_func s .turn).rt.world.executed = s.rt.world.executed ++ [e] ∧
      (step job_func s .turn).flushing = (job_func s.rt.world.world e).succeeds
  ends : s.flushing = true → s.rt.job_list = [] →
    step job_func s .turn = { s with flushing := false }
  returns : s.flushing = true → (step job_func s .turn).flushing = false →
    ((step job_func s .turn).rt.job_list = [] ∧ s.rt.job_list = []) ∨
      ∃ e rest, s.rt.job_list = e :: rest ∧ (job_func s.rt.world.world e).succeeds = false ∧
        (step job_func s .turn).rt.world.executed = s.rt.world.executed ++ [e] ∧
        rest <+: (step job_func s .turn).rt.job_list
  resumes : s.flushing = false → ∀ e rest, s.rt.job_list = e :: rest →
    ∀ (later : List Job) (world : ω),
      (Run.exec (step job_func) s
          (later.map Step.enqueue ++ [.code world, .flush, .turn])).rt.world.executed
        = s.rt.world.executed ++ [e]

/-- Enqueueing leaves the head and the record of what was run. -/
theorem exec_enqueue (s : State Job ω) (later : List Job) :
    Run.exec (step job_func) s (later.map Step.enqueue) =
      { s with rt :=
        ⟨s.rt.job_list ++ later,
          { s.rt.world with enqueued := s.rt.world.enqueued ++ later }⟩ } := by
  induction later generalizing s with
  | nil => simp [Run.exec]
  | cons e later ih =>
    rw [List.map_cons, Run.exec_cons, ih]
    simp [step, JS_EnqueueJob]

theorem orderly_of_accounted {s : State Job ω} (h : Accounted s) : Orderly job_func s := by
  refine ⟨h, ⟨s.rt.job_list, h⟩, ?_, ?_, ?_, ?_⟩
  · intro hf e rest hq
    have hstep : step job_func s .turn = turn job_func s := if_pos hf
    rw [hstep, turn_cons job_func hq]
    exact ⟨rfl, rfl, rfl, rfl⟩
  · intro hf hq
    have hstep : step job_func s .turn = turn job_func s := if_pos hf
    rw [hstep, turn_nil job_func hq]
  · intro hf hret
    have hstep : step job_func s .turn = turn job_func s := if_pos hf
    rw [hstep] at hret ⊢
    cases hq : s.rt.job_list with
    | nil =>
      rw [turn_nil job_func hq]
      exact Or.inl ⟨hq, rfl⟩
    | cons e rest =>
      rw [turn_cons job_func hq] at hret ⊢
      exact Or.inr ⟨e, rest, rfl, hret, rfl, List.prefix_append _ _⟩
  · intro _ e rest hq later world
    rw [Run.exec_append, exec_enqueue]
    -- the head is the same, so the first turn of the flush runs it
    have hhead : s.rt.job_list ++ later = e :: (rest ++ later) := by rw [hq]; rfl
    change (turn job_func _).rt.world.executed = _
    rw [turn_cons job_func hhead]
    rfl

/-- **Pending jobs** are neither lost, repeated nor reordered: in every state that any
sequence of enqueues, flushes and turns of their loops can reach, from any queue and with
any behaviour of the jobs. -/
theorem jobs_in_order (job_list : List Job) (world : ω) (steps : List (Step Job ω)) :
    Orderly job_func (Run.exec (step job_func) (State.start job_list world) steps) := by
  apply orderly_of_accounted
  apply Run.exec_invariant (accounted_step job_func)
  exact List.nil_append _

end QuickJSSwift.Jobs
