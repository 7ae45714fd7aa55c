import Vshift.Redis

/- The stores: `infrastructure/redis`, each method as the commands it issues.

   A record is read here as it was saved, and a read does not raise. That is so for records whose
   documents `model_validate_json` reads back; `loading` puts the validation around each read. -/
namespace Vshift
open Command

section
variable (ctx : Context)

/-! `RedisJobRepository` -/

/-- `GET` of the record; its validation is `loads` in `loading`. -/
def getJob (id : Uuid) : Prog (Option TranscodeJob) := cmd (.getJob id)

/-- `if existing is not None and existing.state != job.state: srem(...)` -/
def leaveIndex (existing : Option TranscodeJob) (job : TranscodeJob) : Prog Unit :=
  match existing with
  | some old => if old.state ≠ job.state then cmd (.sremState old.state job.id) else pure ()
  | none => pure ()

def saveJob (job : TranscodeJob) : Prog Unit := do
  let existing ← getJob job.id
  leaveIndex existing job
  cmd (.setJob job ctx.queue.ttl.val)
  cmd (.saddState job.state job.id)

/-- The records of the listed ids that are stored, in the order listed. -/
def getJobs : List Uuid → Prog (List TranscodeJob)
  | [] => pure []
  | id :: ids => do
    let job ← getJob id
    let jobs ← getJobs ids
    pure (job.toList ++ jobs)

/-- `jobs.sort(key=lambda item: item.created_at, reverse=True)`, a stable sort. -/
def newestFirst (jobs : List TranscodeJob) : List TranscodeJob :=
  jobs.insertionSort (fun a b => b.createdAt ≤ a.createdAt)

def listByState (state : JobState) (limit : Nat := 100) (offset : Nat := 0) :
    Prog (List TranscodeJob) := do
  let ids ← cmd (.smembersState state)
  let jobs ← getJobs ids
  pure (((newestFirst jobs).drop offset).take limit)

def saveSummary (summary : JobSummary) : Prog Unit := cmd (.setSummary summary ctx.queue.ttl.val)

/-! `RedisTaskQueue` -/

def enqueue (id : Uuid) : Prog Unit := cmd (.lpushPending id)

/-- `dequeue` with a positive timeout, as the worker calls it. -/
def dequeue : Prog (Option Uuid) := cmd .brpopPending

def pushToDeadLetter (id : Uuid) : Prog Unit := cmd (.lpushDeadLetter id)

/-! `RedisProcessedFileStore` -/

def isProcessed (inputPath : Path) : Prog Bool :=
  cmd (.existsProcessed (ctx.py.canonicalPath inputPath))

def markProcessed (inputPath : Path) (id : Uuid) : Prog Unit :=
  cmd (.setProcessed (ctx.py.canonicalPath inputPath) id)

/-! `RedisWorkerRegistry` -/

def register (worker : WorkerInfo) : Prog Unit := do
  cmd (.setWorker worker ctx.queue.workerTtlSeconds.val)
  cmd (.saddWorkers worker.workerId)

def heartbeat (workerId : Uuid) : Prog Unit := do
  let payload ← cmd (.getWorker workerId)
  match payload with
  | none => pure ()
  | some worker => do
    let now ← cmd .now
    cmd (.setWorker { worker with lastSeenAt := now } ctx.queue.workerTtlSeconds.val)

def deregister (workerId : Uuid) : Prog Unit := do
  cmd (.delWorker workerId)
  cmd (.sremWorkers workerId)

/-- The records of the listed ids, in the order listed; an id without one leaves the index. -/
def liveWorkers : List Uuid → Prog (List WorkerInfo)
  | [] => pure []
  | id :: ids => do
    let payload ← cmd (.getWorker id)
    match payload with
    | none => do
      cmd (.sremWorkers id)
      liveWorkers ids
    | some worker => do
      let workers ← liveWorkers ids
      pure (worker :: workers)

def listWorkers : Prog (List WorkerInfo) := do
  let ids ← cmd .smembersWorkers
  liveWorkers ids

def setJobHeartbeat (id workerId : Uuid) : Prog Unit :=
  cmd (.setHeartbeat id workerId ctx.queue.jobHeartbeatTtlSeconds.val)

def isJobAlive (id : Uuid) : Prog Bool := cmd (.existsHeartbeat id)

end
end Vshift
