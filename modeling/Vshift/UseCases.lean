import Vshift.Stores

/- The use cases: `application/worker/use_cases` and `application/server/use_cases`.

   Each is the program its `execute` method runs. Log lines are left out; every
   message a use case raises or stores is the source's. -/
namespace Vshift
open Command

/-- `JobStateMachine.transition` where a use case calls it. -/
def transitionTo (fromState toState : JobState) : Prog JobState :=
  Program.ofExcept (fromState.transition toState)

section
variable (ctx : Context)

/-! The worker. -/

section
variable (workerId : Uuid)

/-- `ClaimJob.execute` -/
def claimJob : Prog (Option TranscodeJob) := do
  let jobId ← dequeue
  match jobId with
  | none => pure none
  | some jobId => do
    let stored ← getJob jobId
    match stored with
    | none => pure none
    | some job =>
      if job.state ≠ .pending then pure none
      else do
        let state ← transitionTo job.state .claimed
        let now ← cmd .now
        let claimed := { job with state, workerId := some workerId, claimedAt := some now }
        saveJob ctx claimed
        setJobHeartbeat ctx claimed.id workerId
        heartbeat ctx workerId
        pure (some claimed)

def showWorkerId : Option Uuid → String
  | some id => Uuid.str id
  | none => "None"

/-- `ExecuteTranscode._assert_worker_owns_job` -/
def assertWorkerOwnsJob (job : TranscodeJob) : Prog Unit :=
  if job.workerId ≠ some workerId then
    .raise (.vshift ("worker " ++ Uuid.str workerId ++ " cannot transcode job " ++
      Uuid.str job.id ++ " owned by " ++ showWorkerId job.workerId))
  else if job.state ≠ .claimed ∧ job.state ≠ .processing then
    .raise (.vshift ("job " ++ Uuid.str job.id ++ " is not ready for transcoding (state=" ++
      job.state.value ++ ")"))
  else pure ()

/-- `ExecuteTranscode.execute` up to the call of the transcoder. -/
def startTranscode (job : TranscodeJob) : Prog TranscodeJob := do
  assertWorkerOwnsJob workerId job
  let state ← transitionTo job.state .processing
  let now ← cmd .now
  let processing := { job with state, startedAt := some now }
  saveJob ctx processing
  setJobHeartbeat ctx processing.id workerId
  pure processing

/-- `ExecuteTranscode.execute` -/
def executeTranscode (job : TranscodeJob) : Prog TranscodeExecution := do
  let processing ← startTranscode ctx workerId job
  let outcome ← cmd (.transcode processing)
  let result ← Program.ofExcept outcome
  pure ⟨processing, result⟩

/-- `WriteSummary.execute` -/
def writeSummary (job : TranscodeJob) (result : TranscodeResult) : Prog JobSummary := do
  if job.state ≠ .processing then
    .raise (.vshift ("job " ++ Uuid.str job.id ++ " must be processing to write summary (state=" ++
      job.state.value ++ ")"))
  else do
    let outcome ← cmd (.buildSummary job result)
    let summary ← Program.ofExcept outcome
    saveSummary ctx summary
    let state ← transitionTo job.state .completed
    let now ← cmd .now
    saveJob ctx { job with state, completedAt := some now, errorMessage := none }
    pure summary

/-- `HandleJobFailure._fail_job` -/
def failJob (job : TranscodeJob) (error : String) : Prog TranscodeJob := do
  let state ← transitionTo job.state .failed
  let now ← cmd .now
  let failed := { job with
    state, workerId := none, errorMessage := some error, completedAt := some now }
  saveJob ctx failed
  pushToDeadLetter failed.id
  pure failed

/-- `HandleJobFailure._requeue_job` -/
def requeueJob (job : TranscodeJob) (error : String) : Prog TranscodeJob := do
  let state ← transitionTo job.state .pending
  let pending := { job with
    state, workerId := none, claimedAt := none, startedAt := none,
    attempt := job.attempt + 1, errorMessage := some error }
  saveJob ctx pending
  enqueue pending.id
  pure pending

/-- `HandleJobFailure.execute` -/
def handleJobFailure (job : TranscodeJob) (error : String) : Prog TranscodeJob :=
  if job.workerId ≠ some workerId then
    .raise (.vshift ("worker " ++ Uuid.str workerId ++ " cannot fail job " ++ Uuid.str job.id ++
      " owned by another worker"))
  else if job.state ≠ .claimed ∧ job.state ≠ .processing then
    .raise (.vshift ("job " ++ Uuid.str job.id ++ " cannot fail from state " ++ job.state.value))
  else if job.attempt ≥ ctx.maxRetries then failJob ctx job error
  else requeueJob ctx job error

/-- The `except VShiftException` branch of `ProcessNextJob.execute`. -/
def handleError (job : TranscodeJob) (message : String) : Prog TranscodeJob := do
  let stored ← getJob job.id
  handleJobFailure ctx workerId (stored.getD job) message

/-- The `try` block of `ProcessNextJob.execute`. -/
def processJob (job : TranscodeJob) : Prog JobSummary := do
  let execution ← executeTranscode ctx workerId job
  writeSummary ctx execution.job execution.result

/-- `ProcessNextJob.execute` -/
def processNextJob : Prog (Option TranscodeJob) := do
  let claimed ← claimJob ctx workerId
  match claimed with
  | none => pure none
  | some job => do
    let outcome ← (processJob ctx workerId job).attempt
    match outcome with
    | .error (.vshift message) => do
      let updated ← handleError ctx workerId job message
      pure (some updated)
    | .error e => .raise e
    | .ok _ => do
      let completed ← getJob job.id
      pure (some (completed.getD job))

end

/-! The server. -/

/-- `RecoverStaleJobs._recover_job` -/
def recoverJob (job : TranscodeJob) : Prog TranscodeJob :=
  if job.attempt ≥ ctx.maxRetries then failJob ctx job "worker heartbeat expired"
  else requeueJob ctx job "worker heartbeat expired; requeued"

/-- The inner loop of `RecoverStaleJobs.execute`. -/
def recoverJobs : List TranscodeJob → Prog (List TranscodeJob)
  | [] => pure []
  | job :: jobs => do
    let alive ← isJobAlive job.id
    if alive then recoverJobs jobs
    else do
      let updated ← recoverJob ctx job
      let recovered ← recoverJobs jobs
      pure (updated :: recovered)

/-- `RecoverStaleJobs.execute` -/
def recoverStaleJobs : Prog (List TranscodeJob) := do
  let claimed ← listByState .claimed
  let recoveredClaimed ← recoverJobs ctx claimed
  let processing ← listByState .processing
  let recoveredProcessing ← recoverJobs ctx processing
  pure (recoveredClaimed ++ recoveredProcessing)

/-- `_build_output_path` -/
def buildOutputPath (outputDir inputPath : Path) (profile : VshiftProfile) : Path :=
  outputDir.join (.ofChars (inputPath.stem ++ '.' :: profile.format.toList))

/-- The job `EnqueueJob.execute` builds. -/
def newJob (probed : ProbedInput) (chosen : ProfileMatch) (id : Uuid) (now : DateTime) :
    TranscodeJob where
  id := id
  inputPath := probed.path
  outputPath := buildOutputPath ctx.config.directories.output probed.path chosen.profile
  profileName := chosen.profileName
  profileSnapshot := chosen.profile
  state := .pending
  createdAt := now
  matchRuleId := chosen.ruleId

/-- `EnqueueJob.execute` -/
def enqueueJob (probed : ProbedInput) (chosen : ProfileMatch) : Prog (Option TranscodeJob) := do
  let known ← isProcessed ctx probed.path
  if known then pure none
  else do
    let id ← cmd .uuid4
    let now ← cmd .now
    let job := newJob ctx probed chosen id now
    saveJob ctx job
    markProcessed ctx probed.path job.id
    enqueue job.id
    pure (some job)

/-- `path.suffix.lstrip(".").lower()` -/
def extensionOf (path : Path) : String :=
  ctx.py.lower (String.ofList (path.suffix.dropWhile (· = '.')))

/-- The field constraints of `ProbedInput`. -/
def validateProbed (probed : ProbedInput) : Except Exn ProbedInput :=
  if probed.width.all (1 ≤ ·) && probed.height.all (1 ≤ ·) &&
      probed.durationSeconds.all (fun d => d ≠ .nan && !d.isNegative) then .ok probed
  else .error (.other "ValidationError")

/-- `FfmpegMediaProber.probe` -/
def mediaProberProbe (path : Path) : Prog ProbedInput := do
  let outcome ← cmd (.probe path)
  let media ← Program.ofExcept outcome
  Program.ofExcept (validateProbed
    { path, extension := extensionOf ctx path, width := media.width, height := media.height,
      bitDepth := media.bitDepth, hdr := media.hdr, durationSeconds := media.durationSeconds })

/-- `ProbeInputFile.execute` -/
def probeInputFile (candidate : ProbedInput) : Prog ProbedInput := do
  let probed ← mediaProberProbe ctx candidate.path
  if candidate.extension ≠ "" then pure { probed with extension := candidate.extension }
  else pure probed

/-- The loop of `ScanInputFolder.execute` over the scanner's candidates. -/
def scanInputFolder : List ProbedInput → Prog (List TranscodeJob)
  | [] => pure []
  | candidate :: candidates => do
    let probed ← probeInputFile ctx candidate
    let chosen ← Program.ofExcept (matchProfile ctx.py ctx.config.toRawConfig probed)
    match chosen with
    | none => scanInputFolder candidates
    | some chosen => do
      let job ← enqueueJob ctx probed chosen
      let enqueued ← scanInputFolder candidates
      pure (job.toList ++ enqueued)

end

/-! A small deployment: one profile for `mp4` files, two attempts. -/

/-- Paths in canonical form and lower-case names stand for themselves; no rule has a glob. -/
def posix : Platform where
  lower text := text
  fnmatch _ _ := false
  canonicalPath path := path.str

def inlineProfile : VshiftProfile where
  name := "Inline"
  format := "mp4"
  video := { codec := "h264" }

def smallConfig : VshiftConfig where
  behavior := { fileStabilitySeconds := 5, maxRetries := 2 }
  directories := ⟨.parse "/tmp/input", .parse "/tmp/output", .parse "/tmp/temp"⟩
  profiles := [("inline_profile", inlineProfile)]
  rules := [{ id := "default", criteria := { extensions := ["mp4"] }, profile := "inline_profile" }]
  accepted := by decide

def smallContext : Context := ⟨{}, smallConfig, posix⟩

def mp4File (path : String) : ProbedInput := { path := .parse path, extension := "mp4" }

def quickResult (path : String) : TranscodeResult :=
  ⟨.parse path, .finite 60, "7.0", "h264", none⟩

def summaryOf (id : Uuid) : JobSummary where
  jobId := id
  inputPath := .parse "/tmp/input/a.mp4"
  outputPath := .parse "/tmp/output/a.mp4"
  profileName := "inline_profile"
  inputSizeBytes := 1000
  outputSizeBytes := 500
  inputDurationSeconds := none
  compressionRatio := none
  wallClockSeconds := .finite 60
  ffmpegVersion := "7.0"
  startedAt := 0
  completedAt := 0
  videoCodecIn := none
  videoCodecOut := "h264"
  resolutionIn := none
  resolutionOut := none

def defaultMatch : ProfileMatch := ⟨"default", "inline_profile", inlineProfile⟩

example : matchProfile posix smallConfig.toRawConfig (mp4File "/tmp/input/a.mp4") =
    .ok (some defaultMatch) := by decide

end Vshift
