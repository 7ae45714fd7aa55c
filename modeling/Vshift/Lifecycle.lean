import Vshift.Alone
import Vshift.Runs

/- Workers and the server taking whole use cases as steps.

   A `Fleet` is the server's store and, for each worker, how far it is in
   `ProcessNextJob`: it is idle, holds the job it claimed, or is inside
   `transcode()`. Each move runs one use case alone on the store, with
   `ProcessNextJob` cut where it waits for the transcoder (`processNextJob_eq`
   says the pieces are the whole). `step_cases` lists all a move can do. -/
namespace Vshift
open Command Program

section
variable (ctx : Context) (workerId : Uuid)

/-- The `except VShiftException` clause of `ProcessNextJob.execute`, given how a part of its
    `try` block ended: an error the handler took care of gives the updated job. -/
def handled {α : Type} (job : TranscodeJob) : Except Exn α → Prog (Except TranscodeJob α)
  | .error (.vshift message) => do
    let updated ← handleError ctx workerId job message
    pure (.error updated)
  | .error e => .raise e
  | .ok a => pure (.ok a)

/-- A part of the `try` block with the clause around it. -/
def guarded {α : Type} (job : TranscodeJob) (p : Prog α) : Prog (Except TranscodeJob α) :=
  p.attempt >>= handled ctx workerId job

/-- `ProcessNextJob.execute` from the claim to the call of the transcoder. -/
def beginJob (job : TranscodeJob) : Prog (Except TranscodeJob TranscodeJob) :=
  guarded ctx workerId job (startTranscode ctx workerId job)

/-- `ProcessNextJob.execute` from the transcoder's outcome to the end of the `try` block. -/
def endJob (job processing : TranscodeJob) (outcome : Except Exn TranscodeResult) :
    Prog (Except TranscodeJob JobSummary) :=
  guarded ctx workerId job do
    let result ← Program.ofExcept outcome
    writeSummary ctx processing result

/-- `ProcessNextJob.execute` in pieces. -/
def processInSteps : Prog (Option TranscodeJob) := do
  let claimed ← claimJob ctx workerId
  match claimed with
  | none => pure none
  | some job => do
    let begun ← beginJob ctx workerId job
    match begun with
    | .error updated => pure (some updated)
    | .ok processing => do
      let outcome ← cmd (.transcode processing)
      let ended ← endJob ctx workerId job processing outcome
      match ended with
      | .error updated => pure (some updated)
      | .ok _ => do
        let completed ← getJob job.id
        pure (some (completed.getD job))

/-- Handling an error and returning the updated job, or going on. -/
theorem handled_bind {α : Type} (job : TranscodeJob) (r : Except Exn α)
    (f : Except TranscodeJob α → Prog (Option TranscodeJob))
    (hf : ∀ updated, f (.error updated) = pure (some updated)) :
    handled ctx workerId job r >>= f =
      match r with
      | .error (.vshift message) => do
        let updated ← handleError ctx workerId job message
        pure (some updated)
      | .error e => .raise e
      | .ok a => f (.ok a) := by
  rcases r with (message | name) | a
  · simp only [handled, bind_assoc, pure_bind, hf]
  · rfl
  · rfl

theorem processNextJob_eq : processNextJob ctx workerId = processInSteps ctx workerId := by
  unfold processNextJob processInSteps
  congr 1
  funext claimed
  cases claimed with
  | none => rfl
  | some job =>
    simp only [beginJob, endJob, guarded, processJob, executeTranscode, attempt_bind, bind_assoc]
    congr 1
    funext begun
    rw [handled_bind _ _ _ _ _ (fun _ => rfl)]
    rcases begun with (message | name) | processing
    · rfl
    · rfl
    · refine congrArg (Program.ask (Cmd.transcode processing)) (funext fun outcome => ?_)
      show _ = (Program.ofExcept outcome).attempt >>= _
      cases outcome with
      | error e =>
        show _ = handled ctx workerId job (.error e) >>= _
        rw [handled_bind _ _ _ _ _ (fun _ => rfl)]
        cases e <;> rfl
      | ok result =>
        show (writeSummary ctx processing result).attempt >>= _ =
          (writeSummary ctx processing result).attempt >>= _
        congr 1
        funext r
        rw [handled_bind _ _ _ _ _ (fun _ => rfl)]
        rcases r with (message | name) | summary <;> rfl

end

/-! The fleet. -/

/-- How far a worker is in `ProcessNextJob`. Inside `transcode()` it holds the job it claimed
    and the copy it stored as processing. -/
inductive Phase where
  | idle
  | claimed (job : TranscodeJob)
  | transcoding (job processing : TranscodeJob)
  | stopped

/-- The job in a worker's hands, as the worker last stored it. -/
def Phase.copy : Phase → Option TranscodeJob
  | claimed job => some job
  | transcoding _ processing => some processing
  | _ => none

structure Fleet where
  world : World
  phase : Uuid → Phase
  /-- How often `transcode()` was started for a job; no move reads it. -/
  starts : Uuid → Nat

inductive Move where
  | enqueue (probed : ProbedInput) (chosen : ProfileMatch) (id : Uuid)
  | claim (worker : Uuid)
  | start (worker : Uuid)
  /-- `transcode()` ends with `outcome`; `built` is what `build_summary` would do then. -/
  | finish (worker : Uuid) (outcome : Except Exn TranscodeResult) (built : Except Exn JobSummary)
  | crash (worker : Uuid)
  | recover (tape : List Choice)
  | expire (id : Uuid)
  | clock (t : DateTime)

namespace Fleet

/-- An empty server and idle workers. -/
def initial : Fleet := ⟨.empty, fun _ => .idle, fun _ => 0⟩

def setPhase (s : Fleet) (worker : Uuid) (phase : Phase) : Fleet :=
  { s with phase := Function.update s.phase worker phase }

/-- The use cases that the moves run. -/
structure Pieces where
  enqueue : ProbedInput → ProfileMatch → Prog (Option TranscodeJob)
  claim : Uuid → Prog (Option TranscodeJob)
  start : Uuid → TranscodeJob → Prog (Except TranscodeJob TranscodeJob)
  finish : Uuid → TranscodeJob → TranscodeJob → Except Exn TranscodeResult →
    Prog (Except TranscodeJob JobSummary)
  recover : Prog (List TranscodeJob)

def pieces (ctx : Context) : Pieces where
  enqueue := enqueueJob ctx
  claim := claimJob ctx
  start := beginJob ctx
  finish := endJob ctx
  recover := recoverStaleJobs ctx

/-- A use case that raises ends its worker; a move that is not possible changes nothing. -/
def stepBy (pieces : Pieces) (s : Fleet) : Move → Fleet
  | .enqueue probed chosen id =>
    match redis.run (pieces.enqueue probed chosen) [.go, .id id] s.world with
    | some (_, world) => { s with world }
    | none => s
  | .claim worker =>
    match s.phase worker with
    | .idle =>
      match redis.run (pieces.claim worker) [] s.world with
      | some (.ok (some job), world) => { s with world }.setPhase worker (.claimed job)
      | some (.ok none, world) => { s with world }
      | some (.error _, world) => { s with world }.setPhase worker .stopped
      | none => s
    | _ => s
  | .start worker =>
    match s.phase worker with
    | .claimed job =>
      match redis.run (pieces.start worker job) [] s.world with
      | some (.ok (.ok processing), world) =>
        { s with
          world
          starts := Function.update s.starts job.id (s.starts job.id + 1) }.setPhase worker
            (.transcoding job processing)
      | some (.ok (.error _), world) => { s with world }.setPhase worker .idle
      | some (.error _, world) => { s with world }.setPhase worker .stopped
      | none => s
    | _ => s
  | .finish worker outcome built =>
    match s.phase worker with
    | .transcoding job processing =>
      match redis.run (pieces.finish worker job processing outcome) [.summarised built] s.world with
      | some (.ok _, world) => { s with world }.setPhase worker .idle
      | some (.error _, world) => { s with world }.setPhase worker .stopped
      | none => s
    | _ => s
  | .crash worker => s.setPhase worker .stopped
  | .recover tape =>
    match redis.run pieces.recover tape s.world with
    | some (_, world) => { s with world }
    | none => s
  | .expire id => { s with world := s.world.expire (.jobHeartbeat id) }
  | .clock t => { s with world := { s.world with clock := t } }

def step (ctx : Context) : Fleet → Move → Fleet := stepBy (pieces ctx)

theorem step_crash (ctx : Context) (s : Fleet) (worker : Uuid) :
    step ctx s (.crash worker) = s.setPhase worker .stopped := rfl

/-- The store after the start of a transcode. -/
def startedWorld (ctx : Context) (w : World) (worker : Uuid) (job : TranscodeJob) : World :=
  (w.saved ctx (job.started w.clock)).attended ctx job.id worker

/-- The store after the end of a transcode. -/
def finishedWorld (ctx : Context) (w : World) (processing : TranscodeJob) (summary : JobSummary) :
    World :=
  (w.summarised ctx summary).saved ctx (processing.completed w.clock)

/-- The store after a claim. -/
def claimedWorld (ctx : Context) (w : World) (worker : Uuid) (job : TranscodeJob) : World :=
  ((w.popped.saved ctx (job.claimedBy worker w.clock)).attended ctx job.id worker).beaten ctx worker

/-- The store after an enqueue. -/
def enqueuedWorld (ctx : Context) (w : World) (path : String) (job : TranscodeJob) : World :=
  (((w.numbered job.id).saved ctx job).marked path job.id).queued job.id

end Fleet

/-! What the pieces of `ProcessNextJob` do when they run alone. -/

section
variable {ctx : Context} {w : World} {worker : Uuid} {job processing : TranscodeJob}

theorem saveJob_settled : redis.Settled (saveJob ctx job) := by
  refine .bind (.call fun _ _ => rfl) fun existing => .bind ?_ fun _ =>
    .bind (.call fun _ _ => rfl) fun _ => .call fun _ _ => rfl
  unfold leaveIndex
  split
  · split
    · exact .call fun _ _ => rfl
    · exact .pure ()
  · exact .pure ()

theorem failJob_settled (error : String) : redis.Settled (failJob ctx job error) :=
  .bind (.ofExcept _) fun _ => .bind (.call fun _ _ => rfl) fun _ => .bind saveJob_settled fun _ =>
    .bind (.call fun _ _ => rfl) fun _ => .pure _

theorem requeueJob_settled (error : String) : redis.Settled (requeueJob ctx job error) :=
  .bind (.ofExcept _) fun _ => .bind saveJob_settled fun _ =>
    .bind (.call fun _ _ => rfl) fun _ => .pure _

theorem handled_settled {α : Type} (r : Except Exn α) :
    redis.Settled (handled ctx worker job r) := by
  unfold handled
  split
  · refine .bind (.bind (.call fun _ _ => rfl) fun stored => ?_) fun _ => .pure _
    unfold handleJobFailure
    split
    · exact .raise _
    · split
      · exact .raise _
      · split
        · exact failJob_settled _
        · exact requeueJob_settled _
  · exact .raise _
  · exact .pure _

theorem startTranscode_settled : redis.Settled (startTranscode ctx worker job) := by
  refine .bind ?_ fun _ => .bind (.ofExcept _) fun _ => .bind (.call fun _ _ => rfl) fun _ =>
    .bind saveJob_settled fun _ => .bind (.call fun _ _ => rfl) fun _ => .pure _
  unfold assertWorkerOwnsJob
  split
  · exact .raise _
  · split
    · exact .raise _
    · exact .pure ()

theorem recordSummary_settled (outcome : Except Exn JobSummary) :
    redis.Settled (recordSummary ctx job outcome) :=
  .bind (.ofExcept _) fun _ => .bind (.call fun _ _ => rfl) fun _ => .bind (.ofExcept _) fun _ =>
    .bind (.call fun _ _ => rfl) fun _ => .bind saveJob_settled fun _ => .pure _

/-- A worker that holds the job as claimed starts to transcode it. -/
theorem run_beginJob (hw : job.workerId = some worker) (hc : job.state = .claimed) :
    redis.run (beginJob ctx worker job) [] w =
      some (.ok (.ok (job.started w.clock)), Fleet.startedWorld ctx w worker job) := by
  have hsettled : redis.Settled (beginJob ctx worker job) :=
    .bind startTranscode_settled.attempt fun r => handled_settled r
  obtain ⟨r, w', hrun⟩ := hsettled.run [] w
  have hspec : (beginJob ctx worker job).Obeys redis.protocol
      (fun r w' => r = .ok (.ok (job.started w.clock)) ∧ w' = Fleet.startedWorld ctx w worker job)
      w := by
    unfold beginJob guarded
    rw [obeys_bind, obeys_attempt, obeys_startTranscode hw hc, andThen_ok]
    exact ⟨rfl, rfl⟩
  obtain ⟨rfl, rfl⟩ := Machine.run_obeys hrun hspec
  exact hrun

/-- Any other job goes to the failure handler before anything is stored. -/
theorem beginJob_refused (ctx : Context) (h : job.workerId ≠ some worker ∨ job.state ≠ .claimed) :
    ∃ e, beginJob ctx worker job = handled ctx worker job (.error e) := by
  obtain ⟨message, hm⟩ := startTranscode_refused ctx h
  exact ⟨.vshift message, by rw [beginJob, guarded, hm]; rfl⟩

/-- With a result to write, the end of a transcode is `build_summary` and what follows it. -/
theorem endJob_eq (hs : processing.state = .processing) (result : TranscodeResult) :
    endJob ctx worker job processing (.ok result) =
      .ask (Cmd.buildSummary processing result)
        (fun reply => guarded ctx worker job (recordSummary ctx processing reply)) := by
  unfold endJob
  simp only [writeSummary_eq hs]
  rfl

/-- When `build_summary` succeeds, the summary and the completed job are stored. -/
theorem run_endJob_ok {result : TranscodeResult} {summary : JobSummary}
    (hs : processing.state = .processing) (hid : summary.jobId = processing.id) :
    redis.run (endJob ctx worker job processing (.ok result)) [.summarised (.ok summary)] w =
      some (.ok (.ok summary), Fleet.finishedWorld ctx w processing summary) := by
  have ha : redis.answer w (.buildSummary processing result) (.summarised (.ok summary)) =
      some (.ok summary) := if_pos hid
  rw [endJob_eq hs, Machine.run,
    show [Choice.summarised (.ok summary)].head! = .summarised (.ok summary) from rfl, ha]
  have hsettled : redis.Settled
      (guarded ctx worker job (recordSummary ctx processing (.ok summary))) :=
    .bind (recordSummary_settled _).attempt fun r => handled_settled r
  obtain ⟨r, w', hrec⟩ := hsettled.run [] w
  have hspec : (guarded ctx worker job (recordSummary ctx processing (.ok summary))).Obeys
      redis.protocol (fun r w' => r = .ok (.ok summary) ∧
        w' = Fleet.finishedWorld ctx w processing summary) w := by
    unfold guarded
    rw [obeys_bind, obeys_attempt, obeys_recordSummary hs, andThen_ok]
    exact ⟨rfl, rfl⟩
  obtain ⟨rfl, rfl⟩ := Machine.run_obeys hrec hspec
  exact hrec

/-- Otherwise an error goes to the failure handler, or the outcome is impossible. -/
theorem run_endJob (outcome : Except Exn TranscodeResult) (built : Except Exn JobSummary) :
    (∃ result summary, outcome = .ok result ∧ built = .ok summary ∧
      processing.state = .processing ∧ summary.jobId = processing.id) ∨
    (∃ e tape, redis.run (endJob ctx worker job processing outcome) [.summarised built] w =
      redis.run (handled ctx worker job (.error e : Except Exn JobSummary)) tape w) ∨
    redis.run (endJob ctx worker job processing outcome) [.summarised built] w = none := by
  cases outcome with
  | error e => exact .inr (.inl ⟨e, _, rfl⟩)
  | ok result =>
    by_cases hs : processing.state = .processing
    · cases built with
      | error e =>
        rw [endJob_eq hs]
        exact .inr (.inl ⟨e, [], rfl⟩)
      | ok summary =>
        by_cases hid : summary.jobId = processing.id
        · exact .inl ⟨result, summary, rfl, rfl, hs, hid⟩
        · have ha : redis.answer w (.buildSummary processing result) (.summarised (.ok summary)) =
              none := if_neg hid
          rw [endJob_eq hs, Machine.run,
            show [Choice.summarised (.ok summary)].head! = .summarised (.ok summary) from rfl, ha]
          exact .inr (.inr rfl)
    · obtain ⟨message, hm⟩ := writeSummary_refused ctx hs result
      refine .inr (.inl ⟨.vshift message, [.summarised built], ?_⟩)
      rw [show endJob ctx worker job processing (.ok result) =
        guarded ctx worker job (writeSummary ctx processing result) from rfl, hm]
      rfl

/-- The failure handler gives the updated job after `HandleJobFailure` changed the store, or
    raises and leaves the store alone. -/
theorem handled_alone {α : Type} (e : Exn) :
    (handled ctx worker job (.error e : Except Exn α)).Obeys redis.protocol
      (fun r w' => (∃ e', r = .error e' ∧ w' = w) ∨ (∃ updated message, r = .ok (.error updated) ∧
        Failure ctx worker w ((w.jobs job.id).getD job) message (.ok updated) w')) w := by
  cases e with
  | other name => exact .inl ⟨_, rfl, rfl⟩
  | vshift message =>
    unfold handled
    rw [obeys_bind]
    apply (handleError_alone worker job message).mono
    intro r w' hf
    cases r with
    | error e' =>
      cases hf
      exact .inl ⟨_, rfl, rfl⟩
    | ok updated => exact .inr ⟨updated, message, rfl, hf⟩

end

/-! Everything a move can do. -/

/-- The job a busy worker was given. -/
def Phase.job : Phase → Option TranscodeJob
  | claimed job => some job
  | transcoding job _ => some job
  | _ => none

namespace Fleet

/-- The record a failing worker works on. -/
def current (s : Fleet) (job : TranscodeJob) : TranscodeJob := (s.world.jobs job.id).getD job

/-- What a move can come to. -/
inductive Outcome (ctx : Context) (s : Fleet) : Move → Fleet → Prop
  | same (m) : Outcome ctx s m s
  | enqueued {probed chosen id₀} {id : Uuid}
      (hp : s.world.processed (ctx.py.canonicalPath probed.path) = none)
      (hid : id ∉ s.world.issued) :
      Outcome ctx s (.enqueue probed chosen id₀)
        { s with
          world := enqueuedWorld ctx s.world (ctx.py.canonicalPath probed.path)
            (newJob ctx probed chosen id s.world.clock) }
  | unclaimed {worker} (hi : s.phase worker = .idle)
      (h : ∀ id job, s.world.pendingQueue.head? = some id → s.world.jobs id = some job →
        job.state ≠ .pending) :
      Outcome ctx s (.claim worker) { s with world := s.world.popped }
  | claimed {worker id job} (hi : s.phase worker = .idle)
      (hq : s.world.pendingQueue.head? = some id) (hj : s.world.jobs id = some job)
      (hp : job.state = .pending) :
      Outcome ctx s (.claim worker)
        ({ s with world := claimedWorld ctx s.world worker job }.setPhase worker
          (.claimed (job.claimedBy worker s.world.clock)))
  | started {worker job} (hc : s.phase worker = .claimed job) (hw : job.workerId = some worker)
      (hs : job.state = .claimed) :
      Outcome ctx s (.start worker)
        ({ s with
          world := startedWorld ctx s.world worker job
          starts := Function.update s.starts job.id (s.starts job.id + 1) }.setPhase worker
            (.transcoding job (job.started s.world.clock)))
  | finished {worker job processing result summary}
      (ht : s.phase worker = .transcoding job processing) (hs : processing.state = .processing)
      (hid : summary.jobId = processing.id) :
      Outcome ctx s (.finish worker (.ok result) (.ok summary))
        ({ s with world := finishedWorld ctx s.world processing summary }.setPhase worker .idle)
  | failed {m worker job message} (hc : (s.phase worker).job = some job)
      (hw : (s.current job).workerId = some worker) (hs : (s.current job).state.Held)
      (ha : ctx.maxRetries ≤ (s.current job).attempt) :
      Outcome ctx s m
        ({ s with
          world := (s.world.saved ctx ((s.current job).failed message s.world.clock)).buried
            (s.current job).id }.setPhase worker .idle)
  | requeued {m worker job message} (hc : (s.phase worker).job = some job)
      (hw : (s.current job).workerId = some worker) (hs : (s.current job).state.Held)
      (ha : (s.current job).attempt < ctx.maxRetries) :
      Outcome ctx s m
        ({ s with
          world := (s.world.saved ctx ((s.current job).requeued message)).queued
            (s.current job).id }.setPhase worker .idle)
  | stopped {m worker} : Outcome ctx s m (s.setPhase worker .stopped)
  | recovered {tape w'} (h : Recovered ctx s.world w') :
      Outcome ctx s (.recover tape) { s with world := w' }
  | expired (id) :
      Outcome ctx s (.expire id) { s with world := s.world.expire (.jobHeartbeat id) }
  | ticked (t) : Outcome ctx s (.clock t) { s with world := { s.world with clock := t } }

variable {ctx : Context} {s : Fleet}

/-- The failure handler of a busy worker, whichever piece it runs in. -/
theorem handled_outcome {α : Type} {m : Move} {worker : Uuid} {job : TranscodeJob} {e : Exn}
    {tape : List Choice} {r : Except Exn (Except TranscodeJob α)} {world : World}
    (hc : (s.phase worker).job = some job)
    (hrun : redis.run (handled ctx worker job (.error e)) tape s.world = some (r, world)) :
    (∃ e', r = .error e' ∧ Outcome ctx s m ({ s with world }.setPhase worker .stopped)) ∨
      (∃ updated, r = .ok (.error updated) ∧
        Outcome ctx s m ({ s with world }.setPhase worker .idle)) := by
  rcases Machine.run_obeys hrun (handled_alone e) with ⟨e', rfl, rfl⟩ | ⟨updated, message, rfl, hf⟩
  · exact .inl ⟨e', rfl, .stopped⟩
  · refine .inr ⟨updated, rfl, ?_⟩
    cases hf with
    | failed hw hs ha => exact .failed hc hw hs ha
    | requeued hw hs ha => exact .requeued hc hw hs ha

/-- A worker that holds a job as claimed starts to transcode it, whatever is stored by now. -/
theorem step_start {worker : Uuid} {job : TranscodeJob} (hc : s.phase worker = .claimed job)
    (hw : job.workerId = some worker) (hs : job.state = .claimed) :
    step ctx s (.start worker) = { s with
      world := startedWorld ctx s.world worker job
      starts := Function.update s.starts job.id (s.starts job.id + 1) }.setPhase worker
        (.transcoding job (job.started s.world.clock)) := by
  simp only [step, stepBy, pieces, hc, run_beginJob hw hs]

/-- A worker whose transcode succeeded completes its copy, whatever is stored by now. -/
theorem step_finish {worker : Uuid} {job processing : TranscodeJob} {result : TranscodeResult}
    {summary : JobSummary} (ht : s.phase worker = .transcoding job processing)
    (hs : processing.state = .processing) (hid : summary.jobId = processing.id) :
    step ctx s (.finish worker (.ok result) (.ok summary)) =
      { s with world := finishedWorld ctx s.world processing summary }.setPhase worker .idle := by
  simp only [step, stepBy, pieces, ht, run_endJob_ok hs hid]

theorem start_outcome (worker : Uuid) :
    Outcome ctx s (.start worker) (step ctx s (.start worker)) := by
  cases hc : s.phase worker with
  | claimed job =>
    by_cases h : job.workerId = some worker ∧ job.state = .claimed
    · rw [step_start hc h.1 h.2]
      exact .started hc h.1 h.2
    · obtain ⟨e, he⟩ := beginJob_refused ctx (not_and_or.mp h)
      have hjob : (s.phase worker).job = some job := by rw [hc]; rfl
      simp only [step, stepBy, pieces, hc, he]
      split
      · next hrun =>
        rcases handled_outcome (m := .start worker) hjob hrun with ⟨_, h, _⟩ | ⟨_, h, _⟩ <;> cases h
      · next hrun =>
        rcases handled_outcome hjob hrun with ⟨_, h, _⟩ | ⟨_, h, ho⟩
        · cases h
        · exact ho
      · next hrun =>
        rcases handled_outcome hjob hrun with ⟨_, h, ho⟩ | ⟨_, h, _⟩
        · exact ho
        · cases h
      · exact .same _
  | _ =>
    simp only [step, stepBy, hc]
    exact .same _

theorem finish_outcome (worker : Uuid) (outcome : Except Exn TranscodeResult)
    (built : Except Exn JobSummary) :
    Outcome ctx s (.finish worker outcome built) (step ctx s (.finish worker outcome built)) := by
  cases ht : s.phase worker with
  | transcoding job processing =>
    have hjob : (s.phase worker).job = some job := by rw [ht]; rfl
    rcases @run_endJob ctx s.world worker job processing outcome built with
      ⟨result, summary, rfl, rfl, hs, hid⟩ | ⟨e, tape, hrun⟩ | hrun
    · rw [step_finish ht hs hid]
      exact .finished ht hs hid
    · simp only [step, stepBy, pieces, ht, hrun]
      split
      · next hrun' =>
        rcases handled_outcome hjob hrun' with ⟨_, h, _⟩ | ⟨_, h, ho⟩
        · cases h
        · exact ho
      · next hrun' =>
        rcases handled_outcome hjob hrun' with ⟨_, h, ho⟩ | ⟨_, h, _⟩
        · exact ho
        · cases h
      · exact .same _
    · simp only [step, stepBy, pieces, ht, hrun]
      exact .same _
  | _ =>
    simp only [step, stepBy, ht]
    exact .same _

theorem claim_outcome (worker : Uuid) :
    Outcome ctx s (.claim worker) (step ctx s (.claim worker)) := by
  simp only [step, stepBy, pieces]
  split
  · next hi =>
    split
    · next job world hrun =>
      cases Machine.run_obeys hrun (claimJob_alone worker) with
      | claimed hq hj hp => exact .claimed hi hq hj hp
    · next world hrun =>
      cases Machine.run_obeys hrun (claimJob_alone worker) with
      | nothing h => exact .unclaimed hi h
    · next hrun => cases Machine.run_obeys hrun (claimJob_alone worker)
    · exact .same _
  · exact .same _

theorem step_cases (ctx : Context) (ht : s.world.Tidy) (m : Move) :
    Outcome ctx s m (step ctx s m) := by
  cases m with
  | enqueue probed chosen id =>
    simp only [step, stepBy, pieces]
    split
    · next r world hrun =>
      cases Machine.run_obeys hrun (enqueueJob_alone probed chosen) with
      | known h => exact .same _
      | enqueued hp hid => exact .enqueued hp hid
    · exact .same _
  | claim worker => exact claim_outcome worker
  | start worker => exact start_outcome worker
  | finish worker outcome built => exact finish_outcome worker outcome built
  | crash worker => exact .stopped
  | recover tape =>
    simp only [step, stepBy, pieces]
    split
    · next r world hrun => exact .recovered (Machine.run_obeys hrun (recoverStaleJobs_alone ht))
    · exact .same _
  | expire id => exact .expired id
  | clock t => exact .ticked t

end Fleet
end Vshift
