import Vshift.Loops
import Vshift.Lifecycle
import Vshift.Processes
import Vshift.Registry
import Mathlib.Data.Finset.Sort
import Mathlib.Data.String.Basic

/- The worker process: `application/worker/main.py` and `RegisterWorker`.

   `main` registers the worker, runs `ProcessNextJob` in a loop or once, and
   deregisters. `Round` lists everything one `ProcessNextJob` running alone can do,
   given which exceptions the transcoder may raise; what is proved about the loop
   never opens a use case again. -/
namespace Vshift
open Command Program

/-- What `RegisterWorker` reads of its host. Finding the encoders and the version runs ffmpeg. -/
structure WorkerHost where
  hostname : String
  ffmpegVersion : Except Exn String
  /-- The encoders an `EncoderResolver` finds when it is built. -/
  encoders : Except Exn (Finset String)
  platform : String
  architecture : String

section
variable (ctx : Context) (host : WorkerHost) (workerId : Uuid)

/-- `RegisterWorker.execute`, with the `EncoderResolver` it is built with. -/
def registerWorker : Prog WorkerInfo := do
  let available ← Program.ofExcept host.encoders
  let now ← cmd .now
  let ffmpegVersion ← Program.ofExcept host.ffmpegVersion
  let worker : WorkerInfo := {
    workerId
    hostname := host.hostname
    createdAt := now
    lastSeenAt := now
    status := .idle
    capabilities := { ffmpegVersion, encoders := available.sort (· ≤ ·) }
    hardware := { platform := host.platform, architecture := host.architecture } }
  register ctx worker
  pure worker

/-- The body of the `while` loop of `main`, where `stop_event.wait(idle_sleep)` would return
    `stopped`. -/
def workerTurn (stopped : Bool) : Prog Bool := do
  let job ← processNextJob ctx workerId
  heartbeat ctx workerId
  pure (job.isNone && stopped)

/-- `main`. Each of `turns` is one time `stop_event.is_set()` is found false, with what
    `stop_event.wait` would then return; at their end the event is set. -/
def workerMain (settings : WorkerRuntimeSettings) (turns : List Bool) : Prog Unit := do
  let _ ← registerWorker ctx host workerId
  if settings.oneShot then do
    let _ ← processNextJob ctx workerId
    deregister workerId
  else do
    Program.loop (workerTurn ctx workerId) turns
    deregister workerId

end

/-! One round. -/

/-- The transcoder port raises nothing but exceptions in `raises`. -/
def PortRaises (raises : Exn → Prop) : (c : Cmd) → Reply c → Prop
  | .transcode _, .error e => raises e
  | .buildSummary _ _, .error e => raises e
  | _, _ => True

/-- The server as a process alone on it sees it, with that transcoder. The time the process takes is
    left out: the clock stands still and no key lapses. Records are read as they were saved. -/
def redisPort (raises : Exn → Prop) : Protocol Cmd Reply World :=
  redis.protocol.assuming (PortRaises raises)

/-- A choice that makes the transcoder raise nothing else. -/
def Choice.Raises (raises : Exn → Prop) : Choice → Prop
  | .transcoded (.error e) => raises e
  | .summarised (.error e) => raises e
  | _ => True

theorem answer_raises {raises : Exn → Prop} (w : World) (c : Cmd) (x : Choice) (r : Reply c)
    (hx : x.Raises raises) (hr : w.answer c x = some r) : PortRaises raises c r := by
  cases c with
  | transcode job =>
    cases r with
    | ok result => trivial
    | error e =>
      cases x with
      | transcoded outcome =>
        cases hr
        exact hx
      | _ => cases hr
  | buildSummary job result =>
    cases r with
    | ok summary => trivial
    | error e =>
      cases x with
      | summarised outcome =>
        cases outcome with
        | ok summary =>
          obtain ⟨-, h⟩ := Option.ite_none_right_eq_some.mp hr
          cases h
        | error e' =>
          cases hr
          exact hx
      | _ => cases hr
  | _ => trivial

/-- The job at the head of the queue, if it can be claimed. -/
structure World.Next (w : World) (job : TranscodeJob) : Prop where
  head : w.pendingQueue.head? = some job.id
  stored : w.jobs job.id = some job
  pending : job.state = .pending

/-- The copy a worker hands to the transcoder. -/
def TranscodeJob.processedBy (job : TranscodeJob) (worker : Uuid) (now : DateTime) : TranscodeJob :=
  (job.claimedBy worker now).started now

/-- The store while the job is being transcoded. -/
def World.begun (ctx : Context) (w : World) (worker : Uuid) (job : TranscodeJob) : World :=
  Fleet.startedWorld ctx (Fleet.claimedWorld ctx w worker job) worker (job.claimedBy worker w.clock)

section
variable (ctx : Context) (w : World) (worker : Uuid) (job : TranscodeJob)

@[simp] theorem begun_jobs : (w.begun ctx worker job).jobs =
    Function.update w.jobs job.id (some (job.processedBy worker w.clock)) :=
  Function.update_idem ..

@[simp] theorem begun_pendingQueue :
    (w.begun ctx worker job).pendingQueue = w.pendingQueue.tail := rfl

@[simp] theorem begun_deadLetterQueue :
    (w.begun ctx worker job).deadLetterQueue = w.deadLetterQueue := rfl

@[simp] theorem begun_summaries : (w.begun ctx worker job).summaries = w.summaries := rfl

@[simp] theorem begun_processed : (w.begun ctx worker job).processed = w.processed := rfl

@[simp] theorem begun_clock : (w.begun ctx worker job).clock = w.clock := rfl

theorem World.Tidy.popped {w : World} (h : w.Tidy) : w.popped.Tidy := h.congr rfl rfl

theorem World.Tidy.begun {w : World} (h : w.Tidy) : (w.begun ctx worker job).Tidy := by
  have hclaimed : (w.popped.saved ctx (job.claimedBy worker w.clock)).Tidy := h.popped.saved _
  have hstarted : ((Fleet.claimedWorld ctx w worker job).saved ctx
      ((job.claimedBy worker w.clock).started w.clock)).Tidy :=
    (hclaimed.congr rfl rfl : (Fleet.claimedWorld ctx w worker job).Tidy).saved _
  exact hstarted.congr rfl rfl

end

/-- Everything `ProcessNextJob` can do when it runs alone. -/
inductive Round (ctx : Context) (worker : Uuid) (raises : Exn → Prop) (w : World) :
    Except Exn (Option TranscodeJob) → World → Prop
  | nothing (h : ∀ job, ¬ w.Next job) : Round ctx worker raises w (.ok none) w.popped
  | completed {job : TranscodeJob} {summary : JobSummary} (h : w.Next job)
      (hid : summary.jobId = job.id) :
      Round ctx worker raises w (.ok (some ((job.processedBy worker w.clock).completed w.clock)))
        (Fleet.finishedWorld ctx (w.begun ctx worker job) (job.processedBy worker w.clock) summary)
  | failed {job : TranscodeJob} {message : String} (h : w.Next job) (hr : raises (.vshift message))
      (ha : ctx.maxRetries ≤ job.attempt) :
      Round ctx worker raises w
        (.ok (some ((job.processedBy worker w.clock).failed message w.clock)))
        (((w.begun ctx worker job).saved ctx
          ((job.processedBy worker w.clock).failed message w.clock)).buried job.id)
  | requeued {job : TranscodeJob} {message : String} (h : w.Next job)
      (hr : raises (.vshift message)) (ha : job.attempt < ctx.maxRetries) :
      Round ctx worker raises w (.ok (some ((job.processedBy worker w.clock).requeued message)))
        (((w.begun ctx worker job).saved ctx
          ((job.processedBy worker w.clock).requeued message)).queued job.id)
  | crashed {job : TranscodeJob} {name : String} (h : w.Next job) (hr : raises (.other name)) :
      Round ctx worker raises w (.error (.other name)) (w.begun ctx worker job)

section
variable {ctx : Context} {w : World} {worker : Uuid} {raises : Exn → Prop}

/-- The failure handler right after the start of the transcode. -/
theorem handleError_round {job : TranscodeJob} {message : String} (h : w.Next job)
    (hr : raises (.vshift message)) :
    (handleError ctx worker (job.claimedBy worker w.clock) message).Obeys (redisPort raises)
      (fun r => Round ctx worker raises w (r.map some)) (w.begun ctx worker job) := by
  refine ((handleError_alone worker (job.claimedBy worker w.clock) message).mono ?_).assuming
  intro r t hfailure
  have hstored : ((w.begun ctx worker job).jobs (job.claimedBy worker w.clock).id).getD
      (job.claimedBy worker w.clock) = job.processedBy worker w.clock := by
    rw [begun_jobs]
    show (Function.update w.jobs job.id _ job.id).getD _ = _
    rw [Function.update_self, Option.getD_some]
  rw [hstored] at hfailure
  cases hfailure with
  | refused text hrefused =>
    rcases hrefused with hworker | hheld
    · exact absurd rfl hworker
    · exact absurd (Or.inr rfl) hheld
  | failed hw hs ha => exact .failed h hr ha
  | requeued hw hs ha => exact .requeued h hr ha

theorem processNextJob_round (ht : w.Tidy) :
    (processNextJob ctx worker).Obeys (redisPort raises) (Round ctx worker raises w) w := by
  apply processNextJob_obeysTo
    (fun job t => ∃ next, w.Next next ∧ job = next.claimedBy worker w.clock ∧
      t = Fleet.claimedWorld ctx w worker next)
    (fun job processing t => ∃ next, w.Next next ∧ job = next.claimedBy worker w.clock ∧
      processing = next.processedBy worker w.clock ∧ t = w.begun ctx worker next)
    (fun job e t => ∃ next, w.Next next ∧ job = next.claimedBy worker w.clock ∧ raises e ∧
      t = w.begun ctx worker next)
    (fun job t => ∃ next summary, w.Next next ∧ job = next.claimedBy worker w.clock ∧
      summary.jobId = next.id ∧ t = Fleet.finishedWorld ctx (w.begun ctx worker next)
        (next.processedBy worker w.clock) summary)
  · refine ((claimJob_alone worker).mono ?_).assuming
    intro r t hclaim
    cases hclaim with
    | nothing h =>
      exact .nothing fun job hnext => h job.id job hnext.head hnext.stored hnext.pending
    | @claimed id job hq hj hp =>
      have hid := ht.ids hj
      subst hid
      exact ⟨job, ⟨hq, hj, hp⟩, rfl, rfl⟩
  · rintro job t ⟨next, hnext, rfl, rfl⟩
    apply Obeys.assuming
    rw [obeys_startTranscode rfl rfl]
    exact ⟨next, hnext, rfl, rfl, rfl⟩
  · rintro job processing t ⟨next, hnext, rfl, rfl, rfl⟩
    refine ⟨trivial, ?_⟩
    rintro r ⟨-, hgood⟩
    cases r with
    | ok result => exact ⟨next, hnext, rfl, rfl, rfl⟩
    | error e => exact ⟨next, hnext, rfl, hgood, rfl⟩
  · rintro job processing result t ⟨next, hnext, rfl, rfl, rfl⟩
    rw [writeSummary_eq rfl]
    refine obeys_call_assuming.mpr ⟨trivial, ?_⟩
    intro built ⟨x, hx⟩ hgood
    cases built with
    | error e => exact ⟨next, hnext, rfl, hgood, rfl⟩
    | ok summary =>
      have hid : summary.jobId = (next.processedBy worker w.clock).id :=
        World.answer_buildSummary hx
      apply Obeys.assuming
      rw [obeys_recordSummary rfl]
      exact ⟨next, summary, hnext, rfl, hid, rfl⟩
  · rintro job message t ⟨next, hnext, rfl, hr, rfl⟩
    exact handleError_round hnext hr
  · rintro job name t ⟨next, hnext, rfl, hr, rfl⟩
    exact .crashed hnext hr
  · rintro job t ⟨next, summary, hnext, rfl, hid, rfl⟩
    refine ⟨trivial, ?_⟩
    rintro r ⟨⟨x, hx⟩, -⟩
    have hr : r = some ((next.processedBy worker w.clock).completed w.clock) := by
      have hreply : (Fleet.finishedWorld ctx (w.begun ctx worker next)
          (next.processedBy worker w.clock) summary).jobs next.id = r := Option.some.inj hx
      rw [← hreply]
      exact Function.update_self ..
    subst hr
    exact .completed hnext hid

end
end Vshift
