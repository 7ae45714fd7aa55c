import Vshift.Encoding
import Vshift.Persistence
import Vshift.Queues

/- The deployment over a server of JSON documents.

   Redis holds no records but the documents they are dumped to. A process that reads one
   validates it again, and may raise. Here every run of the deployment is a run of a server that
   holds documents and ids under the names of `RedisKeys`: each call gets a document of which
   its store makes just the record that the process got in the run (`documents_carry`). For
   that it is enough that the profiles have finite floats and that the transcoder port hands
   out summaries that are kept; then every record a process saves is kept by its codec, as
   long as those it reads are (`code_keeps`). -/
namespace Vshift
open Command Program Document

/-! The models that are not jobs. -/

def WorkerStatus.members : List WorkerStatus := [.idle, .busy, .draining]

def WorkerStatus.value : WorkerStatus → String
  | .idle => "idle"
  | .busy => "busy"
  | .draining => "draining"

namespace Json

/-- `Field(ge=0)` -/
def natural : JsonCodec Nat where
  write n := .atom (.int n)
  read
    | .atom (.int n) => if 0 ≤ n then .ok n.toNat else .error .invalid
    | _ => .error .invalid
  Kept _ := True
  read_write n := by simp

/-- `Field(ge=0)` of a float -/
def nonNegative : JsonCodec PyFloat :=
  float.checked fun x => if x ≠ .nan ∧ !x.isNegative then .ok () else .error .invalid

def optionalNonNegative : JsonCodec (Option PyFloat) :=
  nonNegative.optional fun x h => by
    obtain ⟨q, rfl⟩ := h.1
    exact atom_ne_null (.float q)

def optionalPositive : JsonCodec (Option Nat) :=
  positive.optional fun n _ => atom_ne_null (.int n)

/-- `Field(ge=1, le=1)` -/
def one : JsonCodec Nat := positive.checked fun n => if n ≤ 1 then .ok () else .error .invalid

def workerStatus : JsonCodec WorkerStatus :=
  enum WorkerStatus.members WorkerStatus.value fun a => by cases a <;> decide

/-- `JobSummary` -/
def jobSummary : JsonCodec JobSummary :=
  Fields.record
    (.and (.field "job_id" uuid (·.jobId) none) <|
      .and (.field "input_path" path (·.inputPath) none) <|
      .and (.field "output_path" path (·.outputPath) none) <|
      .and (.field "profile_name" text (·.profileName) none) <|
      .and (.field "input_size_bytes" natural (·.inputSizeBytes) none) <|
      .and (.field "output_size_bytes" natural (·.outputSizeBytes) none) <|
      .and (.field "input_duration_seconds" optionalNonNegative (·.inputDurationSeconds)
        (some none)) <|
      .and (.field "compression_ratio" optionalFloat (·.compressionRatio) (some none)) <|
      .and (.field "wall_clock_seconds" nonNegative (·.wallClockSeconds) none) <|
      .and (.field "ffmpeg_version" text (·.ffmpegVersion) none) <|
      .and (.field "started_at" datetime (·.startedAt) none) <|
      .and (.field "completed_at" datetime (·.completedAt) none) <|
      .and (.field "video_codec_in" optionalText (·.videoCodecIn) (some none)) <|
      .and (.field "video_codec_out" text (·.videoCodecOut) none) <|
      .and (.field "resolution_in" optionalText (·.resolutionIn) (some none)) <|
      .field "resolution_out" optionalText (·.resolutionOut) (some none))
    (fun (jobId, inputPath, outputPath, profileName, inputSizeBytes, outputSizeBytes,
        inputDurationSeconds, compressionRatio, wallClockSeconds, ffmpegVersion, startedAt,
        completedAt, videoCodecIn, videoCodecOut, resolutionIn, resolutionOut) =>
      { jobId, inputPath, outputPath, profileName, inputSizeBytes, outputSizeBytes,
        inputDurationSeconds, compressionRatio, wallClockSeconds, ffmpegVersion, startedAt,
        completedAt, videoCodecIn, videoCodecOut, resolutionIn, resolutionOut })
    (fun _ => rfl) (fun _ => rfl) (by decide)

/-- `WorkerCapabilities` -/
def workerCapabilities : JsonCodec WorkerCapabilities :=
  Fields.record
    (.and (.field "ffmpeg_version" text (·.ffmpegVersion) none) <|
      .and (.field "encoders" text.list (·.encoders) (some [])) <|
      .field "max_concurrent_jobs" one (·.maxConcurrentJobs) (some 1))
    (fun (ffmpegVersion, encoders, maxConcurrentJobs) =>
      { ffmpegVersion, encoders, maxConcurrentJobs })
    (fun _ => rfl) (fun _ => rfl) (by decide)

/-- `WorkerHardwareInfo` -/
def workerHardwareInfo : JsonCodec WorkerHardwareInfo :=
  Fields.record
    (.and (.field "platform" text (·.platform) none) <|
      .and (.field "architecture" text (·.architecture) none) <|
      .and (.field "cpu_model" optionalText (·.cpuModel) (some none)) <|
      .and (.field "cpu_cores" optionalPositive (·.cpuCores) (some none)) <|
      .and (.field "memory_total_bytes" optionalPositive (·.memoryTotalBytes) (some none)) <|
      .field "gpu_devices" text.list (·.gpuDevices) (some []))
    (fun (platform, architecture, cpuModel, cpuCores, memoryTotalBytes, gpuDevices) =>
      { platform, architecture, cpuModel, cpuCores, memoryTotalBytes, gpuDevices })
    (fun _ => rfl) (fun _ => rfl) (by decide)

/-- `WorkerInfo` -/
def workerInfo : JsonCodec WorkerInfo :=
  Fields.record
    (.and (.field "worker_id" uuid (·.workerId) none) <|
      .and (.field "hostname" text (·.hostname) none) <|
      .and (.field "created_at" datetime (·.createdAt) none) <|
      .and (.field "last_seen_at" datetime (·.lastSeenAt) none) <|
      .and (.field "status" workerStatus (·.status) none) <|
      .and (.field "capabilities" workerCapabilities (·.capabilities) none) <|
      .field "hardware" workerHardwareInfo (·.hardware) none)
    (fun (workerId, hostname, createdAt, lastSeenAt, status, capabilities, hardware) =>
      { workerId, hostname, createdAt, lastSeenAt, status, capabilities, hardware })
    (fun _ => rfl) (fun _ => rfl) (by decide)

theorem nonNegative_kept {x : PyFloat} : nonNegative.Kept x ↔ ∃ q, 0 ≤ q ∧ x = .finite q := by
  constructor
  · rintro ⟨⟨q, rfl⟩, hcheck⟩
    refine ⟨q, ?_, rfl⟩
    by_contra hneg
    have hlt : q < 0 := Rat.not_le.mp hneg
    simp [PyFloat.isNegative, hlt] at hcheck
  · rintro ⟨q, hq, rfl⟩
    refine ⟨⟨q, rfl⟩, ?_⟩
    have hlt : ¬ q < 0 := Rat.not_lt.mpr hq
    simp [PyFloat.isNegative, hlt]

/-- A summary is read back as it was written exactly when its floats are numbers, and those that
    must not be negative are not. -/
theorem jobSummary_kept {summary : JobSummary} : jobSummary.Kept summary ↔
    (∀ x, summary.inputDurationSeconds = some x → ∃ q, 0 ≤ q ∧ x = .finite q) ∧
      (∀ x, summary.compressionRatio = some x → x.Finite) ∧
      ∃ q, 0 ≤ q ∧ summary.wallClockSeconds = .finite q := by
  simp only [jobSummary, Fields.record, Fields.and, Fields.field, uuid, path, text, natural,
    datetime, optionalNonNegative, optionalFloat, float, optionalText, Codec.scalar,
    Codec.optional, nonNegative_kept, true_and, and_true, implies_true]

theorem workerInfo_kept {worker : WorkerInfo} : workerInfo.Kept worker ↔
    worker.capabilities.maxConcurrentJobs = 1 ∧
      (∀ n, worker.hardware.cpuCores = some n → 1 ≤ n) ∧
      ∀ n, worker.hardware.memoryTotalBytes = some n → 1 ≤ n := by
  have hone : ∀ {n : Nat}, one.Kept n ↔ n = 1 := by
    intro n
    by_cases h : n ≤ 1 <;> simp [one, Codec.checked, positive, h] <;> omega
  simp only [workerInfo, workerCapabilities, workerHardwareInfo, Fields.record, Fields.and,
    Fields.field, uuid, text, datetime, workerStatus, enum, optionalPositive, positive,
    optionalText, Codec.scalar, Codec.list, Codec.optional, hone, true_and, and_true,
    implies_true]

end Json

/-! What the server holds. -/

namespace Payload

/-- A model as it is dumped, or the text of an id. -/
def json : Payload → Json
  | job j => dumpJob j
  | summary s => Json.jobSummary.write s
  | worker w => Json.workerInfo.write w
  | id i => Json.uuid.write i

def IsId : Payload → Prop
  | id _ => True
  | _ => False

end Payload

namespace RedisKey

/-- What is kept under a key: a model that is read back as it was written, or an id. -/
def Keeps : RedisKey → Payload → Prop
  | job _, .job j => Json.transcodeJob.Kept j
  | job _, _ => False
  | jobSummary _, .summary s => Json.jobSummary.Kept s
  | jobSummary _, _ => False
  | worker _, .worker w => Json.workerInfo.Kept w
  | worker _, _ => False
  | _, payload => payload.IsId

/-- What the stores make of a document under a key. -/
def load : RedisKey → Json → Except Exn Payload
  | job _, d => (loadJob d).map .job
  | jobSummary _, d => ((Json.jobSummary.read d).mapError Rejected).map .summary
  | worker _, d => ((Json.workerInfo.read d).mapError Rejected).map .worker
  | _, d => ((Json.uuid.read d).mapError Rejected).map .id

theorem load_json {key : RedisKey} {p : Payload} (h : key.Keeps p) : key.load p.json = .ok p := by
  have hread : ∀ {α : Type} {c : JsonCodec α} {a : α} (f : α → Payload), c.Kept a →
      ((c.read (c.write a)).mapError Rejected).map f = .ok (f a) := by
    intro α c a f ha
    rw [(c.read_write a).mpr ha]
    rfl
  have hid : ∀ {p : Payload}, p.IsId →
      ((Json.uuid.read p.json).mapError Rejected).map .id = .ok p := by
    intro p hp
    cases p with
    | id a => rfl
    | _ => exact hp.elim
  cases key with
  | job i =>
    cases p with
    | job j => exact hread .job h
    | _ => exact h.elim
  | jobSummary i =>
    cases p with
    | summary s => exact hread .summary h
    | _ => exact h.elim
  | worker i =>
    cases p with
    | worker w => exact hread .worker h
    | _ => exact h.elim
  | _ => exact hid h

/-- The stores make `reply` of a reply in documents. -/
def Reads (key : RedisKey) : Keyspace.Reply Json → Keyspace.Reply Payload → Prop
  | .payload d, .payload p => d.map key.load = p.map .ok
  | .members ds, .members ps =>
    (∀ d ∈ ds, ∃ p ∈ ps, key.load d = .ok p) ∧ ∀ p ∈ ps, ∃ d ∈ ds, key.load d = .ok p
  | .done, .done => True
  | .flag b, .flag b' => b = b'
  | .count n, .count n' => n = n'
  | _, _ => False

theorem reads_map {key : RedisKey} {reply : Keyspace.Reply Payload}
    (h : reply.Fits key.Keeps key.Keeps) : key.Reads (reply.map Payload.json) reply := by
  cases reply with
  | payload p =>
    cases p with
    | none => rfl
    | some p => exact congrArg some (load_json (h p rfl))
  | members ps =>
    refine ⟨fun d hd => ?_, fun p hp => ?_⟩
    · obtain ⟨p, hp, rfl⟩ := Finset.mem_image.mp hd
      exact ⟨p, hp, load_json (h p hp)⟩
    · exact ⟨p.json, Finset.mem_image_of_mem _ hp, load_json (h p hp)⟩
  | done => trivial
  | flag b => rfl
  | count n => rfl

end RedisKey

/-- What the call stores is kept by its codec. -/
def StoreCall.Keeps : StoreCall → Prop
  | setJob j => Json.transcodeJob.Kept j
  | setSummary s => Json.jobSummary.Kept s
  | setWorker w => Json.workerInfo.Kept w
  | _ => True

theorem StoreCall.fits {call : StoreCall} (h : call.Keeps) :
    call.access.2.Fits call.access.1.Keeps call.access.1.Keeps := by
  cases call with
  | setJob job => exact h
  | setSummary summary => exact h
  | setWorker worker => exact h
  | _ => trivial

/-! Every record a process saves is kept, as long as those it reads are. -/

/-- What the command stores is kept by its codec. -/
def Cmd.Keeps : Cmd → Prop
  | setJob job _ => Json.transcodeJob.Kept job
  | setSummary summary _ => Json.jobSummary.Kept summary
  | setWorker worker _ => Json.workerInfo.Kept worker
  | _ => True

/-- So is what the reply holds. -/
def Cmd.Kept : (c : Cmd) → Reply c → Prop
  | getJob _, job => ∀ j ∈ job, Json.transcodeJob.Kept j
  | getWorker _, worker => ∀ w ∈ worker, Json.workerInfo.Kept w
  | buildSummary _ _, built => ∀ summary, built = .ok summary → Json.jobSummary.Kept summary
  | _, _ => True

def keeping : Protocol Cmd Reply Unit where
  allows _ c := c.Keeps
  expects _ c r := c.Kept r
  next _ _ _ := ()

section
variable {ctx : Context} {worker : Uuid} {job : TranscodeJob} {t : Unit}

/-- A save and what follows it. -/
theorem save_keeps_then {α : Type} {f : Unit → Prog α} {Q : Except Exn α → Unit → Prop}
    (hjob : Json.transcodeJob.Kept job) (hrest : (f ()).Obeys keeping Q ()) :
    (saveJob ctx job >>= f).Obeys keeping Q t := by
  have hreplace : Replaces keeping ctx job (andThen keeping f Q) () :=
    ⟨hjob, fun _ _ => ⟨trivial, fun _ _ => hrest⟩⟩
  exact (obeys_bind _ _ _).mpr
    (saveJob_obeys trivial (fun _ _ _ => hreplace) fun _ _ _ => ⟨trivial, fun _ _ => hreplace⟩)

/-- A copy stamped with the time is saved. -/
theorem stamp_keeps_then {α : Type} (copy : DateTime → TranscodeJob) {f : DateTime → Prog α}
    {Q : Except Exn α → Unit → Prop} (hcopy : ∀ now, Json.transcodeJob.Kept (copy now))
    (hrest : ∀ now, (f now).Obeys keeping Q ()) :
    (cmd .now >>= fun now => saveJob ctx (copy now) >>= fun _ => f now).Obeys keeping Q t :=
  ⟨trivial, fun now _ => save_keeps_then (hcopy now) (hrest now)⟩

theorem heartbeat_keeps : (heartbeat ctx worker).Obeys keeping (fun _ _ => True) t := by
  refine (obeys_call_bind _ _ _).mpr ⟨trivial, fun payload hpayload => ?_⟩
  cases payload with
  | none => trivial
  | some info =>
    have hkept := Json.workerInfo_kept.mp (hpayload info rfl)
    exact ⟨trivial, fun now _ => ⟨Json.workerInfo_kept.mpr hkept, fun _ _ => trivial⟩⟩

theorem claimJob_keeps : (claimJob ctx worker).Obeys keeping (fun r _ =>
    match r with
    | .ok (some job) => Json.transcodeJob.Kept job
    | _ => True) t := by
  refine (obeys_call_bind _ _ _).mpr ⟨trivial, fun popped _ => ?_⟩
  cases popped with
  | none => trivial
  | some id =>
    refine (obeys_call_bind _ _ _).mpr ⟨trivial, fun stored hstored => ?_⟩
    cases stored with
    | none => trivial
    | some job =>
      dsimp only
      split
      · trivial
      · have hclaimed : ∀ now, Json.transcodeJob.Kept (job.claimedBy worker now) := fun now =>
          (Copy.created.claimed worker now).kept (hstored job rfl)
        refine transitionTo_obeys (fun _ => ?_) (fun _ => trivial)
        refine stamp_keeps_then (job.claimedBy worker) hclaimed fun now => ?_
        refine (obeys_call_bind _ _ _).mpr ⟨trivial, fun _ _ => ?_⟩
        exact heartbeat_keeps.seq (fun _ _ _ => hclaimed now) (fun _ _ _ => trivial)

theorem startTranscode_keeps (hjob : Json.transcodeJob.Kept job) :
    (startTranscode ctx worker job).Obeys keeping (fun r _ =>
      match r with
      | .ok processing => Json.transcodeJob.Kept processing
      | .error _ => True) t := by
  have hstarted : ∀ now, Json.transcodeJob.Kept (job.started now) := fun now =>
    (Copy.created.started now).kept hjob
  unfold startTranscode assertWorkerOwnsJob
  rw [obeys_bind]
  split
  · trivial
  · split
    · trivial
    · refine transitionTo_obeys (fun _ => ?_) (fun _ => trivial)
      refine stamp_keeps_then job.started hstarted fun now => ?_
      exact (obeys_call_bind _ _ _).mpr ⟨trivial, fun _ _ => hstarted now⟩

theorem writeSummary_keeps (hjob : Json.transcodeJob.Kept job) (result : TranscodeResult) :
    (writeSummary ctx job result).Obeys keeping (fun _ _ => True) t := by
  unfold writeSummary
  split
  · trivial
  · refine ⟨trivial, fun built hbuilt => ?_⟩
    cases built with
    | error e => trivial
    | ok summary =>
      refine ⟨hbuilt summary rfl, fun _ _ => ?_⟩
      refine transitionTo_obeys (fun _ => ?_) (fun _ => trivial)
      exact stamp_keeps_then job.completed (fun now => (Copy.created.completed now).kept hjob)
        fun _ => trivial

theorem failJob_keeps (hjob : Json.transcodeJob.Kept job) (error : String) :
    (failJob ctx job error).Obeys keeping (fun _ _ => True) t := by
  refine transitionTo_obeys (fun _ => ?_) (fun _ => trivial)
  refine stamp_keeps_then (job.failed error)
    (fun now => (Copy.created.failed error now).kept hjob) fun _ => ?_
  exact (obeys_call_bind _ _ _).mpr ⟨trivial, fun _ _ => trivial⟩

theorem requeueJob_keeps (hjob : Json.transcodeJob.Kept job) (error : String) :
    (requeueJob ctx job error).Obeys keeping (fun _ _ => True) t := by
  refine transitionTo_obeys (fun _ => ?_) (fun _ => trivial)
  have hrequeued : Json.transcodeJob.Kept (job.requeued error) :=
    (Copy.created.requeued error).kept hjob
  refine save_keeps_then hrequeued ?_
  exact (obeys_call_bind _ _ _).mpr ⟨trivial, fun _ _ => trivial⟩

theorem handleError_keeps (hjob : Json.transcodeJob.Kept job) (message : String) :
    (handleError ctx worker job message).Obeys keeping (fun _ _ => True) t := by
  refine (obeys_call_bind _ _ _).mpr ⟨trivial, fun stored hstored => ?_⟩
  have hcurrent : Json.transcodeJob.Kept (stored.getD job) := by
    cases stored with
    | none => exact hjob
    | some current => exact hstored current rfl
  unfold handleJobFailure
  split
  · trivial
  · split
    · trivial
    · split
      · exact failJob_keeps hcurrent message
      · exact requeueJob_keeps hcurrent message

theorem processNextJob_keeps :
    (processNextJob ctx worker).Obeys keeping (fun _ _ => True) t := by
  refine @processNextJob_obeys _ _ _ _ _ (fun _ => True) (fun job _ => Json.transcodeJob.Kept job)
    (fun job processing _ => Json.transcodeJob.Kept job ∧ Json.transcodeJob.Kept processing)
    (fun job _ => Json.transcodeJob.Kept job) (fun _ _ => True) ?_ ?_ ?_ ?_ ?_ ?_ ?_ ?_
  · exact claimJob_keeps
  · intro job t hjob
    refine (startTranscode_keeps hjob).mono fun r _ hr => ?_
    cases r with
    | ok processing => exact ⟨hjob, hr⟩
    | error e => exact hjob
  · exact fun _ _ _ h => ⟨trivial, fun _ _ => h⟩
  · intro job processing result t h
    refine (writeSummary_keeps h.2 result).mono fun r _ _ => ?_
    cases r with
    | ok summary => trivial
    | error e => exact h.1
  · exact fun _ _ _ h => h.1
  · exact fun _ message _ h => handleError_keeps h message
  · exact fun _ _ _ => trivial
  · exact fun _ _ _ => ⟨trivial, fun _ _ => trivial⟩

theorem recoverStaleJobs_keeps : (recoverStaleJobs ctx).Obeys keeping (fun _ _ => True) t := by
  refine recoverStaleJobs_obeys (fun _ => True) (fun job _ => Json.transcodeJob.Kept job)
    (fun _ _ _ _ h => h) ?_ ?_ trivial
  · intro state t _ _
    exact listByState_obeys (fun _ _ => True) (fun _ _ _ _ h => h) (fun _ _ _ => trivial) trivial
      fun ids _ => ⟨trivial, fun id _ t _ => ⟨trivial, fun stored hstored => ⟨trivial, hstored⟩⟩⟩
  · intro job t _ hjob
    refine ⟨trivial, fun alive _ => ⟨trivial, fun _ => ?_⟩⟩
    unfold recoverJob
    split
    · exact failJob_keeps hjob _
    · exact requeueJob_keeps hjob _

/-! Enqueued jobs. -/

/-- The floats of all profiles are numbers. -/
def VshiftConfig.Finite (config : VshiftConfig) : Prop :=
  ∀ entry ∈ config.profiles, entry.2.video.Finite

/-- `MatchProfile` chose the profile. -/
def Matched (ctx : Context) (probed : ProbedInput) (chosen : ProfileMatch) : Prop :=
  matchProfile ctx.py ctx.config.toRawConfig probed = .ok (some chosen)

instance (ctx : Context) (probed : ProbedInput) (chosen : ProfileMatch) :
    Decidable (Matched ctx probed chosen) := inferInstanceAs (Decidable (_ = _))

/-- A job enqueued for a match is kept. -/
theorem newJob_readsBack (hfinite : ctx.config.Finite) {probed : ProbedInput}
    {chosen : ProfileMatch}
    (h : Matched ctx probed chosen) (id : Uuid) (now : DateTime) :
    Json.transcodeJob.Kept (newJob ctx probed chosen id now) := by
  obtain ⟨name, hprofile⟩ := chosen_profile h
  obtain ⟨entry, hmem, heq⟩ := mem_of_profile? hprofile
  have hprofile : chosen.profile.video.Finite := heq ▸ hfinite entry hmem
  exact Json.transcodeJob_kept.mpr ⟨hprofile, chosen_valid h, Nat.le_refl 1⟩

theorem enqueueJob_keeps (hfinite : ctx.config.Finite) {probed : ProbedInput}
    {chosen : ProfileMatch} (h : Matched ctx probed chosen) :
    (enqueueJob ctx probed chosen).Obeys keeping (fun _ _ => True) t := by
  refine (obeys_call_bind _ _ _).mpr ⟨trivial, fun known _ => ?_⟩
  cases known with
  | true => trivial
  | false =>
    refine ⟨trivial, fun id _ => ⟨trivial, fun now _ => ?_⟩⟩
    exact save_keeps_then (newJob_readsBack hfinite h id now)
      ⟨trivial, fun _ _ => ⟨trivial, fun _ _ => trivial⟩⟩

theorem mediaProberProbe_keeps {path : Path} :
    (mediaProberProbe ctx path).Obeys keeping (fun _ _ => True) t := by
  refine ⟨trivial, fun outcome _ => ?_⟩
  cases outcome with
  | error e => trivial
  | ok media => exact (obeys_ofExcept _ _).mpr trivial

theorem scanInputFolder_keeps (hfinite : ctx.config.Finite) (candidates : List ProbedInput) :
    ∀ t, (scanInputFolder ctx candidates).Obeys keeping (fun _ _ => True) t := by
  induction candidates with
  | nil => exact fun _ => trivial
  | cons candidate candidates ih =>
    intro t
    have hprobe : (probeInputFile ctx candidate).Obeys keeping (fun _ _ => True) t := by
      refine mediaProberProbe_keeps.seq (fun probed _ _ => ?_) (fun _ _ _ => trivial)
      show (ite _ _ _ : Prog ProbedInput).Obeys keeping _ _
      split <;> trivial
    refine hprobe.seq (fun probed t' _ => ?_) (fun _ _ _ => trivial)
    rw [obeys_bind, obeys_ofExcept]
    cases hmatch : matchProfile ctx.py ctx.config.toRawConfig probed with
    | error e => trivial
    | ok chosen =>
      cases chosen with
      | none => exact ih t'
      | some chosen =>
        refine (enqueueJob_keeps hfinite hmatch).seq (fun job t'' _ => ?_) (fun _ _ _ => trivial)
        exact (ih t'').seq (fun _ _ _ => trivial) (fun _ _ _ => trivial)

/-- Single enqueues are for matches. -/
def Label.Matched (ctx : Context) : Label → Prop
  | .enqueueJob probed chosen => Vshift.Matched ctx probed chosen
  | _ => True

theorem code_keeps (hfinite : ctx.config.Finite) {l : Label} (h : l.Matched ctx) :
    (code ctx l).Obeys keeping (fun _ _ => True) t := by
  cases l with
  | enqueueJob probed chosen => exact (obeys_discard _ _).mpr (enqueueJob_keeps hfinite h)
  | scanInputFolder candidates =>
    exact (obeys_discard _ _).mpr (scanInputFolder_keeps hfinite candidates t)
  | recoverStaleJobs => exact (obeys_discard _ _).mpr recoverStaleJobs_keeps
  | processNextJob worker => exact (obeys_discard _ _).mpr processNextJob_keeps

end

/-! Runs. -/

/-- The records that processes read are kept. -/
structure World.ReadsBack (w : World) : Prop where
  jobs : ∀ id, ∀ job ∈ w.jobs id, Json.transcodeJob.Kept job
  workers : ∀ id, ∀ worker ∈ w.workers id, Json.workerInfo.Kept worker

/-- Single enqueues are for matches, and the port's summaries are kept. -/
def Proper (ctx : Context) (_ : Cluster) : Act → Prop
  | .spawn l => l.Matched ctx
  | .exec _ (.summarised built) => ∀ summary, built = .ok summary → Json.jobSummary.Kept summary
  | _ => True

section
variable {w : World}

theorem update_kept {α : Type} {Kept : α → Prop} {records : Uuid → Option α}
    (h : ∀ id, ∀ a ∈ records id, Kept a) {id : Uuid} {v : Option α} (hv : ∀ a ∈ v, Kept a) :
    ∀ id', ∀ a ∈ Function.update records id v id', Kept a := by
  intro id'
  by_cases hid : id' = id
  · rw [hid, Function.update_self]
    exact hv
  · rw [Function.update_of_ne hid]
    exact h id'

theorem some_kept {α : Type} {Kept : α → Prop} {a : α} (h : Kept a) : ∀ a' ∈ some a, Kept a' :=
  fun _ ha => Option.mem_some.mp ha ▸ h

theorem none_kept {α : Type} {Kept : α → Prop} : ∀ a ∈ (none : Option α), Kept a :=
  fun _ ha => by cases ha

theorem World.ReadsBack.effect (h : w.ReadsBack) {c : Cmd} (hc : c.Keeps) (r : Reply c) :
    (w.effect c r).ReadsBack := by
  cases c with
  | setJob job ex => exact ⟨update_kept h.jobs (some_kept hc), h.workers⟩
  | setWorker worker ex => exact ⟨h.jobs, update_kept h.workers (some_kept hc)⟩
  | delWorker id => exact ⟨h.jobs, update_kept h.workers none_kept⟩
  | _ => exact ⟨h.jobs, h.workers⟩

theorem World.ReadsBack.answer (h : w.ReadsBack) {c : Cmd} {x : Choice} {r : Reply c}
    (hx : ∀ built, x = .summarised built → ∀ summary, built = .ok summary →
      Json.jobSummary.Kept summary) (hr : w.answer c x = some r) : c.Kept r := by
  cases c with
  | getJob id =>
    cases hr
    exact h.jobs id
  | getWorker id =>
    cases hr
    exact h.workers id
  | buildSummary job result =>
    intro summary hok
    subst hok
    cases x with
    | summarised built =>
      cases built with
      | ok summary' =>
        obtain ⟨-, heq⟩ := Option.ite_none_right_eq_some.mp hr
        cases heq
        exact hx _ rfl summary rfl
      | error e => cases hr
    | _ => cases hr
  | _ => trivial

theorem World.ReadsBack.environment (h : w.ReadsBack) (e : EnvEvent) :
    (World.environment e w).ReadsBack := by
  cases e with
  | clock t => exact ⟨h.jobs, h.workers⟩
  | media path outcome => exact ⟨h.jobs, h.workers⟩
  | expire key =>
    cases key with
    | job id => exact ⟨update_kept h.jobs none_kept, h.workers⟩
    | worker id => exact ⟨h.jobs, update_kept h.workers none_kept⟩
    | _ => exact ⟨h.jobs, h.workers⟩

end
namespace Cluster
variable {ctx : Context} {s : Cluster}

/-- Every process saves only what is kept, and has read nothing else. -/
def Keeping (s : Cluster) : Prop :=
  Obeying keeping (fun _ => ()) (fun _ => True) s ∧ s.store.ReadsBack

theorem Keeping.initial : Keeping Cluster.initial :=
  ⟨fun _ hp => (by cases hp), fun _ => none_kept, fun _ => none_kept⟩

theorem Keeping.step (hfinite : ctx.config.Finite) (h : Keeping s) {a : Act}
    (ha : Proper ctx s a) : Keeping ((deployment ctx).step s a) := by
  refine pool_step (fun w _ => w.ReadsBack) h.1 h.2 ?_ ?_ ?_ ?_
  · rintro l rfl
    exact code_keeps hfinite ha
  · exact fun _ _ _ _ => h.2
  · rintro pid x l past c k r rfl - - hallows hr
    refine ⟨h.2.answer (x := x) ?_ hr, h.2.effect hallows r⟩
    rintro built rfl
    exact ha
  · exact fun e _ => h.2.environment e

theorem call_keeps {c : Cmd} (hc : c.Keeps) {call : StoreCall} (hcall : c.call? = some call) :
    call.Keeps := by
  cases c <;> cases hcall <;> exact hc

/-- What a step stores is kept. -/
theorem Keeping.stores (h : Keeping s) (a : Act) : ∀ t ∈ turn s a, t.1.Keeps := by
  intro t ht
  cases a with
  | spawn l => cases ht
  | kill pid => cases ht
  | env e =>
    cases e with
    | expire key =>
      rw [List.mem_singleton.mp ht]
      trivial
    | _ => cases ht
  | exec pid x =>
    rw [Cluster.turn] at ht
    split at ht
    · next c hnext =>
      split at ht
      · next r hr =>
        obtain ⟨p, hp, hc⟩ := Option.bind_eq_some_iff.mp hnext
        obtain ⟨call, hcall, rfl⟩ := Option.map_eq_some_iff.mp (Option.mem_toList.mp ht)
        exact call_keeps (h.1.allows (List.mem_of_getElem? hp) hc) hcall
      · cases ht
    · cases ht

/-- On a server of documents under the names of the keys, empty at the start: of what it answers
    to a call its store makes just what the process got, no read raises, and in the end it holds
    the documents of the records. -/
theorem documents_carry (keys : RedisKeys) (hfinite : ctx.config.Finite) (acts : List Act)
    (h : Meets (deployment ctx).step (Proper ctx) Cluster.initial acts) : ∃ replies server',
    Keyspace.run (fun _ => none) ((turns ctx .initial acts).map fun turn =>
        (keys.access turn.1).map id (Keyspace.Op.map Payload.json)) = some (replies, server') ∧
    List.Forall₂ (fun turn reply => turn.1.access.1.Reads reply turn.2)
      (turns ctx .initial acts) replies ∧
    server' ∘ keys.name =
      Keyspace.Server.map Payload.json ((deployment ctx).run Cluster.initial acts).store.slots := by
  have hkeeps : ∀ turn ∈ turns ctx .initial acts, turn.1.Keeps := by
    rw [turns_eq_emitted]
    exact emitted_forall Keeping (fun _ _ hs ha => hs.step hfinite ha) (fun _ a hs => hs.stores a)
      .initial h
  have haccesses : ∀ access ∈ (turns ctx .initial acts).map fun turn => turn.1.access,
      access.2.Fits access.1.Keeps access.1.Keeps := by
    intro access haccess
    obtain ⟨turn, hturn, rfl⟩ := List.mem_map.mp haccess
    exact StoreCall.fits (hkeeps turn hturn)
  have hempty : Cluster.initial.store.slots = fun _ => none := by
    funext key
    cases key <;> rfl
  have hslots : Keyspace.Server.Fits RedisKey.Keeps RedisKey.Keeps
      Cluster.initial.store.slots := by
    rw [hempty]
    exact fun _ _ hvalue => by cases hvalue
  have hrun := turns_carried ctx .initial acts
  have hfits := Keyspace.run_fits hslots haccesses hrun
  -- the stores tell apart what they can read back
  have hinj : ∀ (key : RedisKey) p q, key.Keeps p → key.Keeps q → p.json = q.json → p = q := by
    intro key p q hp hq heq
    have hload := RedisKey.load_json hp
    rw [heq, RedisKey.load_json hq] at hload
    exact (Except.ok.inj hload).symm
  have hdocuments := Keyspace.run_map hinj hslots haccesses hrun
  have hnone : (fun _ => none : Keyspace.Server String Json) ∘ keys.name =
      Keyspace.Server.map Payload.json Cluster.initial.store.slots := by
    rw [hempty]
    rfl
  rw [← hnone] at hdocuments
  obtain ⟨server', hnamed, hend⟩ := Keyspace.run_named keys.name_injective hdocuments
  rw [List.map_map, List.map_map] at hnamed
  refine ⟨_, server', hnamed, ?_, hend⟩
  rw [List.map_map, List.forall₂_map_right_iff, List.forall₂_same]
  rw [List.forall₂_map_left_iff, List.forall₂_map_right_iff, List.forall₂_same] at hfits
  exact fun turn hturn => RedisKey.reads_map (hfits turn hturn)

end Cluster

/-- A job is enqueued, and claimed by a worker. -/
def enqueuedAndClaimed : List Act :=
  [.spawn (.enqueueJob (mp4File "/tmp/input/a.mp4") defaultMatch), .exec 0 .go, .exec 0 (.id 1)] ++
    List.replicate 6 (.exec 0 .go) ++ [.spawn (.processNextJob 7)] ++
    List.replicate 12 (.exec 1 .go)

theorem smallConfig_finite : smallConfig.Finite := by
  intro entry hentry
  rw [List.mem_singleton.mp hentry]
  exact ⟨⟨22, rfl⟩, fun rate h => by cases h⟩

theorem enqueuedAndClaimed_proper : ∀ a ∈ enqueuedAndClaimed, ∀ s, Proper smallContext s a := by
  have hmatch : Matched smallContext (mp4File "/tmp/input/a.mp4") defaultMatch := by decide
  simp [enqueuedAndClaimed, Proper, Label.Matched, hmatch]

theorem documents_carry_enqueuedAndClaimed : ∃ replies server',
    Keyspace.run (fun _ => none)
        ((Cluster.turns smallContext Cluster.initial enqueuedAndClaimed).map fun turn =>
          ((RedisKeys.mk "vshift").access turn.1).map id (Keyspace.Op.map Payload.json)) =
      some (replies, server') ∧
    List.Forall₂ (fun turn reply => turn.1.access.1.Reads reply turn.2)
      (Cluster.turns smallContext Cluster.initial enqueuedAndClaimed) replies ∧
    server' ∘ (RedisKeys.mk "vshift").name = Keyspace.Server.map Payload.json
      ((deployment smallContext).run Cluster.initial enqueuedAndClaimed).store.slots :=
  Cluster.documents_carry ⟨"vshift"⟩ smallConfig_finite enqueuedAndClaimed
    (meets_of_forall enqueuedAndClaimed_proper _)

end Vshift
