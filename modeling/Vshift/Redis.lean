import Vshift.Pool
import Vshift.Config
import Vshift.Settings
import Mathlib.Data.Finset.Basic

/- The Redis server as the processes see it, one command at a time.

   `World` has one field for each family of keys of `RedisKeys`, with the value
   the program keeps there; keys of different families never meet. A key with a
   TTL has the instant it lapses at in `expiresAt`; that the server removes it is
   a move of the environment (`EnvEvent.expire`), as are the passing of time and
   what `ffprobe` makes of a file. `Cmd` lists the commands the stores issue,
   together with what a use case asks of the rest of the system: the clock, fresh
   UUIDs, `ffprobe` and the transcoder port. -/
namespace Vshift
open Command

/-- What `FfmpegProbe.probe` reads from a media file. -/
structure MediaProbe where
  sizeBytes : Int
  durationSeconds : Option PyFloat
  videoCodec : Option String
  width : Option Int
  height : Option Int
  bitDepth : Option Int
  hdr : Option Bool
  deriving DecidableEq

/-- The keys that are set with `EX`. -/
inductive VolatileKey where
  | job (id : Uuid)
  | jobSummary (id : Uuid)
  | jobHeartbeat (id : Uuid)
  | worker (id : Uuid)
  deriving DecidableEq

structure World where
  jobs : Uuid → Option TranscodeJob
  stateIndex : JobState → Finset Uuid
  /-- Oldest first: `LPUSH` adds at the end, `BRPOP` takes from the front. -/
  pendingQueue : List Uuid
  deadLetterQueue : List Uuid
  heartbeats : Uuid → Option Uuid
  summaries : Uuid → Option JobSummary
  workers : Uuid → Option WorkerInfo
  workersIndex : Finset Uuid
  processed : String → Option Uuid
  expiresAt : VolatileKey → DateTime
  clock : DateTime
  /-- The UUIDs handed out so far. -/
  issued : Finset Uuid
  media : Path → Except Exn MediaProbe

inductive Cmd where
  /-- `GET {prefix}:job:{id}` -/
  | getJob (id : Uuid)
  /-- `SET {prefix}:job:{job.id} <json> EX ex` -/
  | setJob (job : TranscodeJob) (ex : Nat)
  /-- `SREM {prefix}:jobs:state:{state} id` -/
  | sremState (state : JobState) (id : Uuid)
  /-- `SADD {prefix}:jobs:state:{state} id` -/
  | saddState (state : JobState) (id : Uuid)
  /-- `SMEMBERS {prefix}:jobs:state:{state}` -/
  | smembersState (state : JobState)
  /-- `SET {prefix}:job:{summary.job_id}:summary <json> EX ex` -/
  | setSummary (summary : JobSummary) (ex : Nat)
  /-- `LPUSH {prefix}:queue:pending id` -/
  | lpushPending (id : Uuid)
  /-- `BRPOP {prefix}:queue:pending` -/
  | brpopPending
  /-- `LPUSH {prefix}:dlq id` -/
  | lpushDeadLetter (id : Uuid)
  /-- `EXISTS {prefix}:processed:{path}` -/
  | existsProcessed (path : String)
  /-- `SET {prefix}:processed:{path} id` -/
  | setProcessed (path : String) (id : Uuid)
  /-- `GET {prefix}:workers:{id}` -/
  | getWorker (id : Uuid)
  /-- `SET {prefix}:workers:{worker.worker_id} <json> EX ex` -/
  | setWorker (worker : WorkerInfo) (ex : Nat)
  /-- `DEL {prefix}:workers:{id}` -/
  | delWorker (id : Uuid)
  /-- `SADD {prefix}:workers:index id` -/
  | saddWorkers (id : Uuid)
  /-- `SREM {prefix}:workers:index id` -/
  | sremWorkers (id : Uuid)
  /-- `SMEMBERS {prefix}:workers:index` -/
  | smembersWorkers
  /-- `SET {prefix}:job:{id}:heartbeat worker EX ex` -/
  | setHeartbeat (id worker : Uuid) (ex : Nat)
  /-- `EXISTS {prefix}:job:{id}:heartbeat` -/
  | existsHeartbeat (id : Uuid)
  /-- `datetime.now(tz=UTC)` -/
  | now
  /-- `uuid4()` -/
  | uuid4
  /-- `FfmpegProbe.probe(path)` -/
  | probe (path : Path)
  /-- `Transcoder.transcode(job)` -/
  | transcode (job : TranscodeJob)
  /-- `Transcoder.build_summary(job, result)` -/
  | buildSummary (job : TranscodeJob) (result : TranscodeResult)
  deriving DecidableEq

abbrev Reply : Cmd → Type
  | .getJob _ => Option TranscodeJob
  | .smembersState _ => List Uuid
  | .brpopPending => Option Uuid
  | .existsProcessed _ => Bool
  | .getWorker _ => Option WorkerInfo
  | .smembersWorkers => List Uuid
  | .existsHeartbeat _ => Bool
  | .now => DateTime
  | .uuid4 => Uuid
  | .probe _ => Except Exn MediaProbe
  | .transcode _ => Except Exn TranscodeResult
  | .buildSummary _ _ => Except Exn JobSummary
  | _ => Unit

/-- What a command leaves open: which UUID, which order of a set, which outcome of the
    transcoder. -/
inductive Choice where
  | go
  | id (id : Uuid)
  | order (ids : List Uuid)
  | transcoded (outcome : Except Exn TranscodeResult)
  | summarised (outcome : Except Exn JobSummary)

instance : Inhabited Choice := ⟨.go⟩

inductive EnvEvent where
  | clock (t : DateTime)
  | expire (key : VolatileKey)
  | media (path : Path) (outcome : Except Exn MediaProbe)

namespace World

/-- The reply to a command. `SMEMBERS` lists the set in any order, `uuid4` returns a UUID not
    handed out before, and the port's `build_summary` copies the job's id. -/
def answer (w : World) : (c : Cmd) → Choice → Option (Reply c)
  | .getJob id, _ => some (w.jobs id)
  | .smembersState s, .order ids =>
    if ids.Nodup ∧ ids.toFinset = w.stateIndex s then some ids else none
  | .smembersState _, _ => none
  | .smembersWorkers, .order ids =>
    if ids.Nodup ∧ ids.toFinset = w.workersIndex then some ids else none
  | .smembersWorkers, _ => none
  | .brpopPending, _ => some w.pendingQueue.head?
  | .existsProcessed path, _ => some (w.processed path).isSome
  | .getWorker id, _ => some (w.workers id)
  | .existsHeartbeat id, _ => some (w.heartbeats id).isSome
  | .now, _ => some w.clock
  | .uuid4, .id id => if id ∉ w.issued then some id else none
  | .uuid4, _ => none
  | .probe path, _ => some (w.media path)
  | .transcode _, .transcoded outcome => some outcome
  | .transcode _, _ => none
  | .buildSummary job _, .summarised (.ok summary) =>
    if summary.jobId = job.id then some (.ok summary) else none
  | .buildSummary _ _, .summarised (.error e) => some (.error e)
  | .buildSummary _ _, _ => none
  | .setJob _ _, _ => some ()
  | .sremState _ _, _ => some ()
  | .saddState _ _, _ => some ()
  | .setSummary _ _, _ => some ()
  | .lpushPending _, _ => some ()
  | .lpushDeadLetter _, _ => some ()
  | .setProcessed _ _, _ => some ()
  | .setWorker _ _, _ => some ()
  | .delWorker _, _ => some ()
  | .saddWorkers _, _ => some ()
  | .sremWorkers _, _ => some ()
  | .setHeartbeat _ _ _, _ => some ()

theorem answer_uuid4 {w : World} {x : Choice} {id : Uuid} (h : w.answer .uuid4 x = some id) :
    id ∉ w.issued := by
  cases x with
  | id chosen =>
    obtain ⟨hfresh, hchosen⟩ := Option.ite_none_right_eq_some.mp h
    cases hchosen
    exact hfresh
  | _ => cases h

theorem answer_smembers {w : World} {s : JobState} {x : Choice} {ids : List Uuid}
    (h : w.answer (.smembersState s) x = some ids) :
    ids.Nodup ∧ ids.toFinset = w.stateIndex s := by
  cases x with
  | order order =>
    obtain ⟨hlists, horder⟩ := Option.ite_none_right_eq_some.mp h
    cases horder
    exact hlists
  | _ => cases h

theorem answer_smembersWorkers {w : World} {x : Choice} {ids : List Uuid}
    (h : w.answer .smembersWorkers x = some ids) :
    ids.Nodup ∧ ids.toFinset = w.workersIndex := by
  cases x with
  | order order =>
    obtain ⟨hlists, horder⟩ := Option.ite_none_right_eq_some.mp h
    cases horder
    exact hlists
  | _ => cases h

/-- The port's `build_summary` copies the job's id. -/
theorem answer_buildSummary {w : World} {job : TranscodeJob} {result : TranscodeResult}
    {x : Choice} {summary : JobSummary}
    (h : w.answer (.buildSummary job result) x = some (.ok summary)) : summary.jobId = job.id := by
  cases x with
  | summarised outcome =>
    cases outcome with
    | ok built =>
      obtain ⟨hid, hbuilt⟩ := Option.ite_none_right_eq_some.mp h
      cases hbuilt
      exact hid
    | error e => cases h
  | _ => cases h

/-- The instant a key set now with `EX ex` lapses at. -/
def deadline (w : World) (ex : Nat) : DateTime := w.clock + seconds ex

def effect (w : World) : (c : Cmd) → Reply c → World
  | .setJob job ex, _ =>
    { w with
      jobs := Function.update w.jobs job.id (some job)
      expiresAt := Function.update w.expiresAt (.job job.id) (w.deadline ex) }
  | .sremState s id, _ =>
    { w with stateIndex := Function.update w.stateIndex s ((w.stateIndex s).erase id) }
  | .saddState s id, _ =>
    { w with stateIndex := Function.update w.stateIndex s (insert id (w.stateIndex s)) }
  | .setSummary summary ex, _ =>
    { w with
      summaries := Function.update w.summaries summary.jobId (some summary)
      expiresAt := Function.update w.expiresAt (.jobSummary summary.jobId) (w.deadline ex) }
  | .lpushPending id, _ => { w with pendingQueue := w.pendingQueue ++ [id] }
  | .brpopPending, _ => { w with pendingQueue := w.pendingQueue.tail }
  | .lpushDeadLetter id, _ => { w with deadLetterQueue := w.deadLetterQueue ++ [id] }
  | .setProcessed path id, _ =>
    { w with processed := Function.update w.processed path (some id) }
  | .setWorker worker ex, _ =>
    { w with
      workers := Function.update w.workers worker.workerId (some worker)
      expiresAt := Function.update w.expiresAt (.worker worker.workerId) (w.deadline ex) }
  | .delWorker id, _ => { w with workers := Function.update w.workers id none }
  | .saddWorkers id, _ => { w with workersIndex := insert id w.workersIndex }
  | .sremWorkers id, _ => { w with workersIndex := w.workersIndex.erase id }
  | .setHeartbeat id worker ex, _ =>
    { w with
      heartbeats := Function.update w.heartbeats id (some worker)
      expiresAt := Function.update w.expiresAt (.jobHeartbeat id) (w.deadline ex) }
  | .uuid4, id => { w with issued := insert id w.issued }
  | _, _ => w

section
variable {w : World}

theorem jobs_setJob (job : TranscodeJob) (ex : Nat) (r : Reply (.setJob job ex)) (id : Uuid) :
    (w.effect (.setJob job ex) r).jobs id = if id = job.id then some job else w.jobs id :=
  Function.update_apply ..

theorem processed_setProcessed (path : String) (id : Uuid) (r : Reply (.setProcessed path id))
    (path' : String) : (w.effect (.setProcessed path id) r).processed path' =
      if path' = path then some id else w.processed path' :=
  Function.update_apply ..

theorem mem_sremState {s s' : JobState} {id id' : Uuid} (r : Reply (.sremState s id)) :
    id' ∈ (w.effect (.sremState s id) r).stateIndex s' ↔
      id' ∈ w.stateIndex s' ∧ ¬ (s' = s ∧ id' = id) := by
  show id' ∈ Function.update w.stateIndex s ((w.stateIndex s).erase id) s' ↔ _
  rw [Function.update_apply]
  split
  · next hs =>
    subst hs
    simp [and_comm]
  · next hs => simp [hs]

theorem mem_saddState {s s' : JobState} {id id' : Uuid} (r : Reply (.saddState s id)) :
    id' ∈ (w.effect (.saddState s id) r).stateIndex s' ↔
      id' ∈ w.stateIndex s' ∨ s' = s ∧ id' = id := by
  show id' ∈ Function.update w.stateIndex s (insert id (w.stateIndex s)) s' ↔ _
  rw [Function.update_apply]
  split
  · next hs =>
    subst hs
    simp [or_comm]
  · next hs => simp [hs]

end

/-- The server removes a key. -/
def expire (w : World) : VolatileKey → World
  | .job id => { w with jobs := Function.update w.jobs id none }
  | .jobSummary id => { w with summaries := Function.update w.summaries id none }
  | .jobHeartbeat id => { w with heartbeats := Function.update w.heartbeats id none }
  | .worker id => { w with workers := Function.update w.workers id none }

def environment : EnvEvent → World → World
  | .clock t, w => { w with clock := t }
  | .expire key, w => w.expire key
  | .media path outcome, w => { w with media := Function.update w.media path outcome }

/-- A server with nothing stored, where no file can be probed. -/
def empty : World where
  jobs _ := none
  stateIndex _ := ∅
  pendingQueue := []
  deadLetterQueue := []
  heartbeats _ := none
  summaries _ := none
  workers _ := none
  workersIndex := ∅
  processed _ := none
  expiresAt _ := 0
  clock := 0
  issued := ∅
  media _ := .error (.vshift "media file not found")

end World

def redis : Machine World Cmd Choice Reply where
  answer := World.answer
  effect := World.effect

abbrev Prog (α : Type) := Program Cmd Reply Exn α

/-- One command. -/
abbrev cmd (c : Cmd) : Prog (Reply c) := Program.call c

/-- What the server and the workers of one deployment share. -/
structure Context where
  queue : QueueSettings
  config : VshiftConfig
  py : Platform

/-- `config_repository.get_max_retries()` -/
def Context.maxRetries (ctx : Context) : Nat := ctx.config.behavior.maxRetries.val

end Vshift
