import Vshift.Path
import Vshift.Profile

/- Jobs: `domain/job`, `domain/transcoding` and `domain/worker`.

   `JobState.transition` is `JobStateMachine.transition` with its table. The data
   classes carry every field of the source; `model_copy(update=...)` is a record
   update. -/
namespace Vshift

inductive JobState where
  | pending | claimed | processing | completed | failed
  deriving DecidableEq, Repr

namespace JobState

/-- `str(state)` -/
def value : JobState → String
  | pending => "pending"
  | claimed => "claimed"
  | processing => "processing"
  | completed => "completed"
  | failed => "failed"

def members : List JobState := [pending, claimed, processing, completed, failed]

/-- `_VALID_TRANSITIONS` -/
def validTransitions : JobState → List JobState
  | pending => [claimed, failed]
  | claimed => [processing, pending, failed]
  | processing => [completed, pending, failed]
  | completed => []
  | failed => []

def canTransition (fromState toState : JobState) : Bool := toState ∈ fromState.validTransitions

def transition (fromState toState : JobState) : Except Exn JobState :=
  if canTransition fromState toState then .ok toState
  else .error (.vshift
    ("invalid job state transition: " ++ fromState.value ++ " -> " ++ toState.value))

/-- The states no transition leaves. -/
def Terminal (s : JobState) : Prop := s = completed ∨ s = failed

instance (s : JobState) : Decidable s.Terminal := inferInstanceAs (Decidable (_ ∨ _))

theorem terminal_iff (s : JobState) : s.Terminal ↔ ∀ s', canTransition s s' = false := by
  constructor
  · rintro (rfl | rfl) s' <;> rfl
  · intro h
    cases s with
    | pending => exact absurd (h claimed) (by decide)
    | claimed => exact absurd (h processing) (by decide)
    | processing => exact absurd (h completed) (by decide)
    | completed => exact .inl rfl
    | failed => exact .inr rfl

end JobState

structure TranscodeJob where
  id : Uuid
  inputPath : Path
  outputPath : Path
  profileName : String
  profileSnapshot : VshiftProfile
  state : JobState
  workerId : Option Uuid := none
  createdAt : DateTime
  claimedAt : Option DateTime := none
  startedAt : Option DateTime := none
  completedAt : Option DateTime := none
  attempt : Nat := 1
  errorMessage : Option String := none
  matchRuleId : String
  deriving DecidableEq

structure JobSummary where
  jobId : Uuid
  inputPath : Path
  outputPath : Path
  profileName : String
  inputSizeBytes : Nat
  outputSizeBytes : Nat
  inputDurationSeconds : Option PyFloat
  compressionRatio : Option PyFloat
  wallClockSeconds : PyFloat
  ffmpegVersion : String
  startedAt : DateTime
  completedAt : DateTime
  videoCodecIn : Option String
  videoCodecOut : String
  resolutionIn : Option String
  resolutionOut : Option String
  deriving DecidableEq

structure TranscodeResult where
  outputPath : Path
  wallClockSeconds : PyFloat
  ffmpegVersion : String
  videoCodecOut : String
  resolutionOut : Option String := none
  deriving DecidableEq

/-- What `ExecuteTranscode` hands to `WriteSummary`. -/
structure TranscodeExecution where
  job : TranscodeJob
  result : TranscodeResult
  deriving DecidableEq

inductive WorkerStatus where
  | idle | busy | draining
  deriving DecidableEq, Repr

structure WorkerCapabilities where
  ffmpegVersion : String
  encoders : List String := []
  maxConcurrentJobs : Nat := 1
  deriving DecidableEq, Repr

structure WorkerHardwareInfo where
  platform : String
  architecture : String
  cpuModel : Option String := none
  cpuCores : Option Nat := none
  memoryTotalBytes : Option Nat := none
  gpuDevices : List String := []
  deriving DecidableEq, Repr

structure WorkerInfo where
  workerId : Uuid
  hostname : String
  createdAt : DateTime
  lastSeenAt : DateTime
  status : WorkerStatus
  capabilities : WorkerCapabilities
  hardware : WorkerHardwareInfo
  deriving DecidableEq, Repr

end Vshift
