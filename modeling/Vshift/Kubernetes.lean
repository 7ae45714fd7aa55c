import Vshift.Pool
import Vshift.Settings

/- Worker Jobs: `infrastructure/kubernetes/worker_pod_launcher.py`, with the name and the labels
   of `worker_pod_factory.py`, and `application/server/use_cases/ensure_worker_capacity.py`.

   A `KubeState` is the queue of pending jobs and the Jobs of the namespace. What Kubernetes
   reports of a Job agrees with whether it has ended (`Reports`, a field of `V1Job`), and
   then `_is_active_job` tells exactly the unfinished ones (`isActiveJob_eq`). The API may
   fail at any command, and a creation that fails may have been carried out all the same. -/
namespace Vshift
open Command

/-- `V1JobStatus`, with the fields `_is_active_job` reads. -/
structure V1JobStatus where
  active : Option Int
  succeeded : Option Int
  failed : Option Int
  completionTime : Option DateTime
  deriving DecidableEq

/-- `count is not None and count > 0` -/
def somePods (count : Option Int) : Bool := count.any (0 < ·)

/-- `_is_active_job` -/
def isActiveJob : Option V1JobStatus → Bool
  | none => true
  | some status =>
    if somePods status.active then true
    else if somePods status.succeeded then false
    else if somePods status.failed then false
    else status.completionTime.isNone

/-- What Kubernetes reports of an unfinished Job and of a finished one. -/
def Reports (finished : Bool) : Option V1JobStatus → Prop
  | none => finished = false
  | some status =>
    if finished then
      ¬ somePods status.active ∧ (somePods status.succeeded ∨ somePods status.failed)
    else
      ¬ somePods status.succeeded ∧ ¬ somePods status.failed ∧ status.completionTime = none

instance (finished : Bool) : (status : Option V1JobStatus) → Decidable (Reports finished status)
  | none => inferInstanceAs (Decidable (finished = false))
  | some _ => by
    unfold Reports
    infer_instance

/-- Whatever is reported, the Jobs taken for active are the unfinished ones. -/
theorem isActiveJob_eq {finished : Bool} {status : Option V1JobStatus}
    (h : Reports finished status) : isActiveJob status = !finished := by
  cases status with
  | none => rw [show finished = false from h]; rfl
  | some status =>
    cases finished with
    | false =>
      obtain ⟨hsucceeded, hfailed, hcompletion⟩ := h
      simp [isActiveJob, hsucceeded, hfailed, hcompletion]
    | true =>
      obtain ⟨hactive, hended⟩ := h
      rcases hended with hended | hended <;> simp [isActiveJob, hactive, hended]

structure V1Job where
  name : String
  labels : List (String × String)
  finished : Bool
  status : Option V1JobStatus
  /-- The id its worker has claimed. -/
  claimed : Option Uuid
  reports : Reports finished status

/-- The labels `build_job` gives a Job, which `count_active_workers` selects by. -/
def workerLabels : List (String × String) :=
  [("app.kubernetes.io/name", "vshift"), ("app.kubernetes.io/component", "worker"),
    ("app.kubernetes.io/managed-by", "vshift-server")]

namespace V1Job
variable (job : V1Job)

/-- The label selector selects the Job. -/
def selected (selector : List (String × String)) : Bool := selector.all (· ∈ job.labels)

/-- Just created, with no status yet. -/
def created (name : String) (labels : List (String × String)) : V1Job where
  name := name
  labels := labels
  finished := false
  status := none
  claimed := none
  reports := rfl

end V1Job

/-- The queue of pending jobs, and the Jobs of the namespace. -/
structure KubeState where
  pendingQueue : List Uuid
  jobs : List V1Job

/-- What the client of the Kubernetes API raises: `ApiException` with its reason, or another
    exception by its class name. -/
inductive ApiError where
  | api (reason : String)
  | other (name : String)
  deriving DecidableEq

/-- An `ApiException` is raised again as a `VShiftException`. -/
def ApiError.toExn (message : String) : ApiError → Exn
  | .api reason => .vshift (message ++ ": " ++ reason)
  | .other name => .other name

inductive ScaleCmd where
  /-- `LLEN {prefix}:queue:pending` -/
  | llenPending
  /-- `list_namespaced_job(label_selector=...)` -/
  | listJobs (selector : List (String × String))
  /-- `create_namespaced_job` of a Job with this name and these labels. -/
  | createJob (name : String) (labels : List (String × String))
  /-- `uuid4()` -/
  | uuid4

/-- A creation is carried out, or raises, and then may have been carried out or not. -/
inductive Creation where
  | done
  | failed (error : ApiError) (created : Bool)

/-- A listing shows the status of every Job selected. -/
abbrev ScaleReply : ScaleCmd → Type
  | .llenPending => Nat
  | .listJobs _ => Except ApiError (List (Option V1JobStatus))
  | .createJob _ _ => Creation
  | .uuid4 => Uuid

inductive ScaleChoice where
  | go
  | id (id : Uuid)
  | fails (error : ApiError) (created : Bool)

instance : Inhabited ScaleChoice := ⟨.go⟩

namespace KubeState
variable (c : KubeState)

/-- The Jobs a selector selects. -/
def listed (selector : List (String × String)) : List V1Job := c.jobs.filter (·.selected selector)

/-- The unfinished worker Jobs. -/
def unfinished : Nat := (c.listed workerLabels).countP fun job => !job.finished

/-- The worker Jobs `count_active_workers` counts. -/
def active : Nat := (c.listed workerLabels).countP fun job => isActiveJob job.status

def answer : (cmd : ScaleCmd) → ScaleChoice → Option (ScaleReply cmd)
  | .llenPending, _ => some c.pendingQueue.length
  | .listJobs _, .fails error _ => some (.error error)
  | .listJobs selector, _ => some (.ok ((c.listed selector).map V1Job.status))
  | .createJob _ _, .fails error created => some (.failed error created)
  | .createJob name _, _ =>
    if name ∈ c.jobs.map V1Job.name then some (.failed (.api "Conflict") false) else some .done
  | .uuid4, .id id => some id
  | .uuid4, _ => none

def effect : (cmd : ScaleCmd) → ScaleReply cmd → KubeState
  | .createJob name labels, .done => { c with jobs := c.jobs ++ [.created name labels] }
  | .createJob name labels, .failed _ true => { c with jobs := c.jobs ++ [.created name labels] }
  | _, _ => c

end KubeState

def kubernetes : Machine KubeState ScaleCmd ScaleChoice ScaleReply where
  answer := KubeState.answer
  effect := KubeState.effect

/-- What happens around the server. -/
inductive ClusterEvent where
  | enqueue (id : Uuid)
  /-- The worker of Job number `i` claims the oldest id, its only one. -/
  | claim (i : Nat)
  /-- A worker outside the cluster claims the oldest id. -/
  | claimElsewhere
  /-- Kubernetes reports of Job number `i`, which may have ended. -/
  | report (i : Nat) (finished : Bool) (status : Option V1JobStatus)
  /-- The time to live of a finished Job is over. -/
  | remove (i : Nat)

namespace KubeState

def environment (e : ClusterEvent) (c : KubeState) : KubeState :=
  match e with
  | .enqueue id => { c with pendingQueue := c.pendingQueue ++ [id] }
  | .claim i =>
    match c.pendingQueue.head?, c.jobs[i]? with
    | some id, some job =>
      if !job.finished ∧ job.claimed = none then
        { pendingQueue := c.pendingQueue.tail
          jobs := c.jobs.set i { job with claimed := some id } }
      else c
    | _, _ => c
  | .claimElsewhere => { c with pendingQueue := c.pendingQueue.tail }
  | .report i finished status =>
    match c.jobs[i]? with
    | some job =>
      -- a finished Job stays finished
      if h : Reports finished status ∧ (job.finished → finished) then
        { c with jobs := c.jobs.set i { job with finished, status, reports := h.1 } }
      else c
    | none => c
  | .remove i =>
    match c.jobs[i]? with
    | some job => if job.finished then { c with jobs := c.jobs.eraseIdx i } else c
    | none => c

/-- No Job yet. -/
def start (pendingQueue : List Uuid) : KubeState := ⟨pendingQueue, []⟩

end KubeState

abbrev ScaleProg := Program ScaleCmd ScaleReply Exn

def scale (cmd : ScaleCmd) : ScaleProg (ScaleReply cmd) := .call cmd

/-! `K8sWorkerPodLauncher` -/

def countActiveWorkers : ScaleProg Nat := do
  let listing ← scale (.listJobs workerLabels)
  match listing with
  | .error error => .raise (error.toExn "failed to list worker jobs")
  | .ok jobs => pure (jobs.countP isActiveJob)

/-- `build_job_name`, with its UUID. -/
def jobName (id : Uuid) : String := "vshift-worker-" ++ String.ofList ((Uuid.hex id).take 8)

def launchWorker : ScaleProg String := do
  let id ← scale .uuid4
  let creation ← scale (.createJob (jobName id) workerLabels)
  match creation with
  | .failed error _ => .raise (error.toExn ("failed to create worker job " ++ jobName id))
  | .done => pure (jobName id)

/-! `EnsureWorkerCapacity` -/

/-- `for _ in range(to_launch): launched.append(...)` -/
def launchWorkers : Nat → ScaleProg (List String)
  | 0 => pure []
  | n + 1 => do
    let name ← launchWorker
    let launched ← launchWorkers n
    pure (name :: launched)

/-- `to_launch`; subtraction stops at 0, as `max(0, ...)` does. -/
def toLaunch (k8s : KubernetesSettings) (queueDepth activeWorkers : Nat) : Nat :=
  min queueDepth k8s.maxConcurrentPods.val - activeWorkers

def ensureWorkerCapacity (k8s : KubernetesSettings) : ScaleProg (List String) := do
  if !k8s.enabled then pure []
  else do
    let queueDepth ← scale .llenPending
    if queueDepth = 0 then pure []
    else do
      let activeWorkers ← countActiveWorkers
      launchWorkers (toLaunch k8s queueDepth activeWorkers)

end Vshift
