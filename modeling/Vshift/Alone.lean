import Vshift.UseCases
import Mathlib.Logic.Relation

/- Every store method and use case run alone on the server.

   Run alone, a program knows the whole server: it follows `redis.protocol`, whose
   knowledge is the `World`. The `obeys_*` lemmas say what each method of the
   stores replies and leaves behind; from them, each use case gets one theorem
   that says what it leaves behind, or lists all it can do where there are several
   ways (`Claim`, `Failure`, `Recovered`, `Enqueue`). What follows about runs of
   whole use cases is derived from these and never opens a use case again. -/
namespace Vshift
open Command Program

/-! The stores. -/

namespace World
variable (ctx : Context) (w : World)

/-- After `RedisJobRepository.save`. -/
@[simps] def saved (job : TranscodeJob) : World :=
  { w with
    jobs := Function.update w.jobs job.id (some job)
    stateIndex := fun s =>
      if s = job.state then insert job.id (w.stateIndex s)
      else if (w.jobs job.id).map (·.state) = some s then (w.stateIndex s).erase job.id
      else w.stateIndex s
    expiresAt := Function.update w.expiresAt (.job job.id) (w.deadline ctx.queue.ttl.val) }

/-- After `RedisTaskQueue.enqueue`. -/
@[simps] def queued (id : Uuid) : World := { w with pendingQueue := w.pendingQueue ++ [id] }

/-- After `RedisTaskQueue.dequeue`. -/
@[simps] def popped : World := { w with pendingQueue := w.pendingQueue.tail }

/-- After `RedisTaskQueue.push_to_dead_letter`. -/
@[simps] def buried (id : Uuid) : World :=
  { w with deadLetterQueue := w.deadLetterQueue ++ [id] }

/-- After `RedisWorkerRegistry.set_job_heartbeat`. -/
@[simps] def attended (id worker : Uuid) : World :=
  { w with
    heartbeats := Function.update w.heartbeats id (some worker)
    expiresAt := Function.update w.expiresAt (.jobHeartbeat id)
      (w.deadline ctx.queue.jobHeartbeatTtlSeconds.val) }

/-- After `RedisWorkerRegistry.heartbeat`. -/
@[simps] def beaten (worker : Uuid) : World :=
  { w with
    workers := match w.workers worker with
      | none => w.workers
      | some info =>
        Function.update w.workers info.workerId (some { info with lastSeenAt := w.clock })
    expiresAt := match w.workers worker with
      | none => w.expiresAt
      | some info => Function.update w.expiresAt (.worker info.workerId)
        (w.deadline ctx.queue.workerTtlSeconds.val) }

/-- After `RedisJobRepository.save_summary`. -/
@[simps] def summarised (summary : JobSummary) : World :=
  { w with
    summaries := Function.update w.summaries summary.jobId (some summary)
    expiresAt := Function.update w.expiresAt (.jobSummary summary.jobId)
      (w.deadline ctx.queue.ttl.val) }

/-- After `RedisProcessedFileStore.mark_processed`. -/
@[simps] def marked (path : String) (id : Uuid) : World :=
  { w with processed := Function.update w.processed path (some id) }

/-- After `uuid4()` returned `id`. -/
@[simps] def numbered (id : Uuid) : World := { w with issued := insert id w.issued }

end World

section
variable {ctx : Context} {w : World}

theorem obeys_getJob {id : Uuid} {Q : Except Exn (Option TranscodeJob) → World → Prop} :
    (getJob id).Obeys redis.protocol Q w ↔ Q (.ok (w.jobs id)) w := by
  constructor
  · exact fun h => h.2 _ ⟨.go, rfl⟩
  · refine fun h => ⟨trivial, ?_⟩
    intro r ⟨x, hx⟩
    cases hx
    exact h

/-- A command whose reply the state of the server settles. -/
theorem obeys_cmd (c : Cmd) (r : Reply c) {Q : Except Exn (Reply c) → World → Prop}
    (hc : ∀ x, World.answer w c x = some r) :
    (cmd c).Obeys redis.protocol Q w ↔ Q (.ok r) (w.effect c r) := by
  constructor
  · exact fun h => h.2 _ ⟨.go, hc .go⟩
  · refine fun h => ⟨trivial, ?_⟩
    intro r' ⟨x, hx⟩
    have hr : World.answer w c x = some r' := hx
    rw [hc x, Option.some.injEq] at hr
    subst hr
    exact h

variable {id worker : Uuid} {path : String}

theorem obeys_saveJob {job : TranscodeJob} {Q : Except Exn Unit → World → Prop} :
    (saveJob ctx job).Obeys redis.protocol Q w ↔ Q (.ok ()) (w.saved ctx job) := by
  have hfinal : ∀ w' : World,
      (cmd (.setJob job ctx.queue.ttl.val) >>= fun _ => cmd (.saddState job.state job.id)).Obeys
        redis.protocol Q w' ↔ Q (.ok ()) ((w'.effect (.setJob job ctx.queue.ttl.val) ()).effect
          (.saddState job.state job.id) ()) := by
    intro w'
    rw [obeys_bind, obeys_cmd _ () (fun _ => rfl), andThen_ok]
    exact obeys_cmd (.saddState job.state job.id) () (fun _ => rfl)
  unfold saveJob leaveIndex
  rw [obeys_bind, obeys_getJob, andThen_ok, obeys_bind]
  cases hold : w.jobs job.id with
  | none =>
    rw [obeys_pure, andThen_ok, hfinal]
    apply iff_of_eq
    congr 1
    simp only [World.effect, World.saved, World.deadline, hold]
    congr 1
    funext s
    by_cases hs : s = job.state
    · subst hs
      simp
    · simp [hs]
  | some old =>
    by_cases hne : old.state = job.state
    · simp only [hne, ne_eq, not_true_eq_false, if_false]
      rw [obeys_pure, andThen_ok, hfinal]
      apply iff_of_eq
      congr 1
      simp only [World.effect, World.saved, World.deadline, hold]
      congr 1
      funext s
      by_cases hs : s = job.state
      · subst hs
        simp
      · simp [hs, hne, Ne.symm hs]
    · simp only [ne_eq, hne, not_false_eq_true, if_true]
      rw [obeys_cmd _ () (fun _ => rfl), andThen_ok, hfinal]
      apply iff_of_eq
      congr 1
      simp only [World.effect, World.saved, World.deadline, hold]
      congr 1
      funext s
      by_cases hs : s = job.state
      · subst hs
        simp [Function.update_of_ne (Ne.symm hne)]
      · by_cases ho : s = old.state
        · subst ho
          simp [hs]
        · simp [hs, ho, Ne.symm ho]

theorem obeys_dequeue {Q : Except Exn (Option Uuid) → World → Prop} :
    dequeue.Obeys redis.protocol Q w ↔ Q (.ok w.pendingQueue.head?) w.popped :=
  obeys_cmd .brpopPending w.pendingQueue.head? (fun _ => rfl)

theorem obeys_enqueue {Q : Except Exn Unit → World → Prop} :
    (enqueue id).Obeys redis.protocol Q w ↔ Q (.ok ()) (w.queued id) :=
  obeys_cmd (.lpushPending id) () (fun _ => rfl)

theorem obeys_pushToDeadLetter {Q : Except Exn Unit → World → Prop} :
    (pushToDeadLetter id).Obeys redis.protocol Q w ↔ Q (.ok ()) (w.buried id) :=
  obeys_cmd (.lpushDeadLetter id) () (fun _ => rfl)

theorem obeys_setJobHeartbeat {Q : Except Exn Unit → World → Prop} :
    (setJobHeartbeat ctx id worker).Obeys redis.protocol Q w ↔
      Q (.ok ()) (w.attended ctx id worker) :=
  obeys_cmd (.setHeartbeat id worker _) () (fun _ => rfl)

theorem obeys_isJobAlive {Q : Except Exn Bool → World → Prop} :
    (isJobAlive id).Obeys redis.protocol Q w ↔ Q (.ok (w.heartbeats id).isSome) w :=
  obeys_cmd (.existsHeartbeat id) (w.heartbeats id).isSome (fun _ => rfl)

theorem obeys_saveSummary {summary : JobSummary} {Q : Except Exn Unit → World → Prop} :
    (saveSummary ctx summary).Obeys redis.protocol Q w ↔ Q (.ok ()) (w.summarised ctx summary) :=
  obeys_cmd (.setSummary summary _) () (fun _ => rfl)

theorem obeys_now {Q : Except Exn DateTime → World → Prop} :
    (cmd .now : Prog DateTime).Obeys redis.protocol Q w ↔ Q (.ok w.clock) w :=
  obeys_cmd .now w.clock (fun _ => rfl)

theorem obeys_heartbeat {Q : Except Exn Unit → World → Prop} :
    (heartbeat ctx worker).Obeys redis.protocol Q w ↔ Q (.ok ()) (w.beaten ctx worker) := by
  unfold heartbeat
  rw [obeys_bind, obeys_cmd _ (w.workers worker) (fun _ => rfl), andThen_ok]
  simp only [World.effect]
  cases hw : w.workers worker with
  | none =>
    rw [obeys_pure]
    apply iff_of_eq
    congr 1
    simp [World.beaten, hw]
  | some info =>
    show ((cmd .now : Prog DateTime) >>= _).Obeys redis.protocol Q w ↔ _
    rw [obeys_bind, obeys_now, andThen_ok, obeys_cmd _ () (fun _ => rfl)]
    apply iff_of_eq
    congr 1
    simp [World.effect, World.beaten, hw]

theorem obeys_transitionTo {s s' : JobState} {Q : Except Exn JobState → World → Prop} :
    (transitionTo s s').Obeys redis.protocol Q w ↔ Q (s.transition s') w :=
  obeys_ofExcept _ _

/-- A transition the table allows succeeds. -/
theorem transition_eq {s s' : JobState} (h : s.canTransition s' = true) :
    s.transition s' = .ok s' := by
  rw [JobState.transition, if_pos h]

/-! The copies the use cases store. -/

def TranscodeJob.claimedBy (job : TranscodeJob) (worker : Uuid) (now : DateTime) : TranscodeJob :=
  { job with state := .claimed, workerId := some worker, claimedAt := some now }

def TranscodeJob.started (job : TranscodeJob) (now : DateTime) : TranscodeJob :=
  { job with state := .processing, startedAt := some now }

def TranscodeJob.completed (job : TranscodeJob) (now : DateTime) : TranscodeJob :=
  { job with state := .completed, completedAt := some now, errorMessage := none }

def TranscodeJob.failed (job : TranscodeJob) (error : String) (now : DateTime) : TranscodeJob :=
  { job with
    state := .failed, workerId := none, errorMessage := some error, completedAt := some now }

def TranscodeJob.requeued (job : TranscodeJob) (error : String) : TranscodeJob :=
  { job with
    state := .pending, workerId := none, claimedAt := none, startedAt := none,
    attempt := job.attempt + 1, errorMessage := some error }

/-! The use cases. -/

/-- Everything `ClaimJob` can do. -/
inductive Claim (ctx : Context) (worker : Uuid) (w : World) :
    Except Exn (Option TranscodeJob) → World → Prop
  | nothing (h : ∀ id job, w.pendingQueue.head? = some id → w.jobs id = some job →
      job.state ≠ .pending) : Claim ctx worker w (.ok none) w.popped
  | claimed {id job} (hq : w.pendingQueue.head? = some id) (hj : w.jobs id = some job)
      (hp : job.state = .pending) :
      Claim ctx worker w (.ok (some (job.claimedBy worker w.clock)))
        (((w.popped.saved ctx (job.claimedBy worker w.clock)).attended ctx job.id worker).beaten
          ctx worker)

theorem claimJob_alone (worker : Uuid) :
    (claimJob ctx worker).Obeys redis.protocol (Claim ctx worker w) w := by
  unfold claimJob
  rw [obeys_bind, obeys_dequeue, andThen_ok]
  cases hq : w.pendingQueue.head? with
  | none => exact .nothing (fun id job h => by rw [hq] at h; cases h)
  | some id =>
    rw [obeys_bind, obeys_getJob, andThen_ok, World.popped_jobs]
    cases hj : w.jobs id with
    | none =>
      refine .nothing (fun id' job h hj' => ?_)
      rw [hq, Option.some.injEq] at h
      subst h
      rw [hj] at hj'
      cases hj'
    | some job =>
      by_cases hp : job.state = .pending
      · simp only [hp, ne_eq, not_true_eq_false, if_false]
        rw [obeys_bind, obeys_transitionTo, transition_eq rfl, andThen_ok, obeys_bind, obeys_now,
          andThen_ok, obeys_bind, obeys_saveJob, andThen_ok, obeys_bind, obeys_setJobHeartbeat,
          andThen_ok, obeys_bind, obeys_heartbeat, andThen_ok]
        exact .claimed hq hj hp
      · simp only [ne_eq, hp, not_false_eq_true, if_true]
        refine .nothing (fun id' job' h hj' => ?_)
        rw [hq, Option.some.injEq] at h
        subst h
        rw [hj, Option.some.injEq] at hj'
        subst hj'
        exact hp

/-- `ExecuteTranscode` refuses a job its worker does not hold as claimed, before any command. -/
theorem startTranscode_refused (ctx : Context) {worker : Uuid} {job : TranscodeJob}
    (h : job.workerId ≠ some worker ∨ job.state ≠ .claimed) :
    ∃ message, startTranscode ctx worker job = .raise (.vshift message) := by
  unfold startTranscode assertWorkerOwnsJob
  by_cases hw : job.workerId = some worker
  · have hc : job.state ≠ .claimed := h.resolve_left (not_not_intro hw)
    rw [if_neg (not_not_intro hw)]
    by_cases hp : job.state = .processing
    · -- `processing` passes the ownership check, and the transition table refuses it.
      rw [if_neg (fun h => h.2 hp), hp]
      exact ⟨_, rfl⟩
    · rw [if_pos ⟨hc, hp⟩]
      exact ⟨_, rfl⟩
  · rw [if_pos hw]
    exact ⟨_, rfl⟩

theorem obeys_startTranscode {worker : Uuid} {job : TranscodeJob}
    {Q : Except Exn TranscodeJob → World → Prop} (hw : job.workerId = some worker)
    (hc : job.state = .claimed) :
    (startTranscode ctx worker job).Obeys redis.protocol Q w ↔
      Q (.ok (job.started w.clock))
        ((w.saved ctx (job.started w.clock)).attended ctx job.id worker) := by
  unfold startTranscode assertWorkerOwnsJob
  rw [obeys_bind, if_neg (not_not_intro hw), if_neg (fun h => h.1 hc), obeys_pure, andThen_ok,
    obeys_bind, obeys_transitionTo, transition_eq (by rw [hc]; rfl), andThen_ok, obeys_bind,
    obeys_now, andThen_ok, obeys_bind, obeys_saveJob, andThen_ok, obeys_bind, obeys_setJobHeartbeat,
    andThen_ok]
  rfl

/-- `WriteSummary.execute` once `build_summary` has returned. -/
def recordSummary (ctx : Context) (job : TranscodeJob) (outcome : Except Exn JobSummary) :
    Prog JobSummary := do
  let summary ← Program.ofExcept outcome
  saveSummary ctx summary
  let state ← transitionTo job.state .completed
  let now ← cmd .now
  saveJob ctx { job with state, completedAt := some now, errorMessage := none }
  pure summary

theorem writeSummary_eq {job : TranscodeJob} (hs : job.state = .processing)
    (result : TranscodeResult) :
    writeSummary ctx job result = cmd (.buildSummary job result) >>= recordSummary ctx job := by
  rw [writeSummary, if_neg (not_not_intro hs)]
  rfl

theorem writeSummary_refused (ctx : Context) {job : TranscodeJob} (hs : job.state ≠ .processing)
    (result : TranscodeResult) :
    ∃ message, writeSummary ctx job result = .raise (.vshift message) := by
  rw [writeSummary, if_pos hs]
  exact ⟨_, rfl⟩

theorem obeys_recordSummary {job : TranscodeJob} {summary : JobSummary}
    {Q : Except Exn JobSummary → World → Prop} (hs : job.state = .processing) :
    (recordSummary ctx job (.ok summary)).Obeys redis.protocol Q w ↔
      Q (.ok summary) ((w.summarised ctx summary).saved ctx (job.completed w.clock)) := by
  unfold recordSummary
  rw [obeys_bind, obeys_ofExcept, andThen_ok, obeys_bind, obeys_saveSummary, andThen_ok, obeys_bind,
    obeys_transitionTo, transition_eq (by rw [hs]; rfl), andThen_ok, obeys_bind, obeys_now,
    andThen_ok, obeys_bind, obeys_saveJob, andThen_ok]
  rfl

theorem obeys_failJob {job : TranscodeJob} {error : String}
    {Q : Except Exn TranscodeJob → World → Prop} (h : job.state.canTransition .failed = true) :
    (failJob ctx job error).Obeys redis.protocol Q w ↔
      Q (.ok (job.failed error w.clock))
        ((w.saved ctx (job.failed error w.clock)).buried job.id) := by
  unfold failJob
  rw [obeys_bind, obeys_transitionTo, transition_eq h, andThen_ok, obeys_bind, obeys_now,
    andThen_ok, obeys_bind, obeys_saveJob, andThen_ok, obeys_bind, obeys_pushToDeadLetter,
    andThen_ok]
  rfl

theorem obeys_requeueJob {job : TranscodeJob} {error : String}
    {Q : Except Exn TranscodeJob → World → Prop} (h : job.state.canTransition .pending = true) :
    (requeueJob ctx job error).Obeys redis.protocol Q w ↔
      Q (.ok (job.requeued error)) ((w.saved ctx (job.requeued error)).queued job.id) := by
  unfold requeueJob
  rw [obeys_bind, obeys_transitionTo, transition_eq h, andThen_ok, obeys_bind, obeys_saveJob,
    andThen_ok, obeys_bind, obeys_enqueue, andThen_ok]
  rfl

/-- The states of a job that is in a worker's hands. -/
def JobState.Held (s : JobState) : Prop := s = claimed ∨ s = processing

instance (s : JobState) : Decidable s.Held := inferInstanceAs (Decidable (_ ∨ _))

theorem JobState.Held.to_pending {s : JobState} (h : s.Held) : s.canTransition .pending = true := by
  rcases h with rfl | rfl <;> rfl

theorem JobState.Held.to_failed {s : JobState} (h : s.Held) : s.canTransition .failed = true := by
  rcases h with rfl | rfl <;> rfl

/-- Everything `HandleJobFailure` can do with `job`. -/
inductive Failure (ctx : Context) (worker : Uuid) (w : World) (job : TranscodeJob)
    (message : String) : Except Exn TranscodeJob → World → Prop
  | refused (text : String) (h : job.workerId ≠ some worker ∨ ¬ job.state.Held) :
      Failure ctx worker w job message (.error (.vshift text)) w
  | failed (hw : job.workerId = some worker) (hs : job.state.Held)
      (ha : ctx.maxRetries ≤ job.attempt) :
      Failure ctx worker w job message (.ok (job.failed message w.clock))
        ((w.saved ctx (job.failed message w.clock)).buried job.id)
  | requeued (hw : job.workerId = some worker) (hs : job.state.Held)
      (ha : job.attempt < ctx.maxRetries) :
      Failure ctx worker w job message (.ok (job.requeued message))
        ((w.saved ctx (job.requeued message)).queued job.id)

theorem handleJobFailure_alone (worker : Uuid) (job : TranscodeJob) (message : String) :
    (handleJobFailure ctx worker job message).Obeys redis.protocol
      (Failure ctx worker w job message) w := by
  unfold handleJobFailure
  by_cases hw : job.workerId = some worker
  · rw [if_neg (not_not_intro hw)]
    by_cases hs : job.state.Held
    · rw [if_neg (fun h => hs.elim h.1 h.2)]
      by_cases ha : ctx.maxRetries ≤ job.attempt
      · rw [if_pos ha, obeys_failJob hs.to_failed]
        exact .failed hw hs ha
      · rw [if_neg ha, obeys_requeueJob hs.to_pending]
        exact .requeued hw hs (by omega)
    · rw [if_pos (not_or.mp hs)]
      exact .refused _ (.inr hs)
  · rw [if_pos hw]
    exact .refused _ (.inl hw)

/-- The handler works on the stored record, or on the claimed copy when there is none. -/
theorem handleError_alone (worker : Uuid) (job : TranscodeJob) (message : String) :
    (handleError ctx worker job message).Obeys redis.protocol
      (Failure ctx worker w ((w.jobs job.id).getD job) message) w := by
  unfold handleError
  rw [obeys_bind, obeys_getJob, andThen_ok]
  exact handleJobFailure_alone worker _ message

/-! Recovery. -/

/-- Records are stored under their own id, and each index holds the ids of the records in
    its state. -/
structure World.Tidy (w : World) : Prop where
  ids : ∀ {id job}, w.jobs id = some job → job.id = id
  index : ∀ s id, id ∈ w.stateIndex s ↔ ∃ job, w.jobs id = some job ∧ job.state = s

theorem World.empty_tidy : World.empty.Tidy := by
  constructor
  · intro id job h
    cases h
  · intro s id
    simp [World.empty]

theorem World.Tidy.saved (h : w.Tidy) (job : TranscodeJob) : (w.saved ctx job).Tidy := by
  constructor
  · intro id job' hj
    rw [World.saved_jobs] at hj
    by_cases hid : id = job.id
    · subst hid
      rw [Function.update_self, Option.some.injEq] at hj
      rw [hj]
    · rw [Function.update_of_ne hid] at hj
      exact h.ids hj
  · intro s id
    rw [World.saved_jobs, World.saved_stateIndex]
    by_cases hid : id = job.id
    · subst hid
      rw [Function.update_self]
      split
      · next hs => simp [hs]
      · next hs =>
        have hsome : (∃ job', some job = some job' ∧ job'.state = s) ↔ False := by
          simp [Ne.symm hs]
        rw [hsome]
        split
        · simp
        · next hold =>
          simp only [h.index, iff_false, not_exists, not_and]
          intro old ho hs'
          exact hold (by rw [ho, ← hs', Option.map_some])
    · rw [Function.update_of_ne hid]
      have hmem : id ∈ (if s = job.state then insert job.id (w.stateIndex s)
          else if (w.jobs job.id).map (·.state) = some s then (w.stateIndex s).erase job.id
          else w.stateIndex s) ↔ id ∈ w.stateIndex s := by
        split
        · simp [hid]
        · split <;> simp [hid]
      rw [hmem]
      exact h.index s id

/-- A field of the server that `Tidy` does not speak of changes. -/
theorem World.Tidy.congr {w' : World} (h : w.Tidy) (hj : w'.jobs = w.jobs)
    (hi : w'.stateIndex = w.stateIndex) : w'.Tidy :=
  ⟨fun hjob => h.ids (by rwa [hj] at hjob), fun s id => by rw [hj, hi]; exact h.index s id⟩

/-- `RecoverStaleJobs` takes up one job: it was in a worker's hands without a heartbeat. -/
inductive RecoverOne (ctx : Context) (w : World) : World → Prop
  | failed {job} (hj : w.jobs job.id = some job) (hs : job.state.Held)
      (hb : w.heartbeats job.id = none) (ha : ctx.maxRetries ≤ job.attempt) :
      RecoverOne ctx w
        ((w.saved ctx (job.failed "worker heartbeat expired" w.clock)).buried job.id)
  | requeued {job} (hj : w.jobs job.id = some job) (hs : job.state.Held)
      (hb : w.heartbeats job.id = none) (ha : job.attempt < ctx.maxRetries) :
      RecoverOne ctx w
        ((w.saved ctx (job.requeued "worker heartbeat expired; requeued")).queued job.id)

/-- A recovery pass takes up any number of jobs, one after another. -/
abbrev Recovered (ctx : Context) : World → World → Prop := Relation.ReflTransGen (RecoverOne ctx)

theorem RecoverOne.tidy {w' : World} (h : RecoverOne ctx w w') (ht : w.Tidy) : w'.Tidy := by
  cases h with
  | @failed job =>
    have h : (w.saved ctx (job.failed "worker heartbeat expired" w.clock)).Tidy := ht.saved _
    exact h.congr rfl rfl
  | @requeued job =>
    have h : (w.saved ctx (job.requeued "worker heartbeat expired; requeued")).Tidy := ht.saved _
    exact h.congr rfl rfl

theorem Recovered.tidy {w' : World} (h : Recovered ctx w w') (ht : w.Tidy) : w'.Tidy := by
  induction h with
  | refl => exact ht
  | tail _ hone ih => exact hone.tidy ih

theorem obeys_getJobs {ids : List Uuid} {Q : Except Exn (List TranscodeJob) → World → Prop} :
    (getJobs ids).Obeys redis.protocol Q w ↔ Q (.ok (ids.filterMap w.jobs)) w := by
  induction ids generalizing Q with
  | nil => rfl
  | cons id ids ih =>
    unfold getJobs
    rw [obeys_bind, obeys_getJob, andThen_ok, obeys_bind, ih, andThen_ok, obeys_pure,
      List.filterMap_cons]
    cases w.jobs id <;> rfl

/-- What `list_by_state` returns: stored jobs of that state, each once. -/
structure Listed (w : World) (s : JobState) (jobs : List TranscodeJob) : Prop where
  stored : ∀ job ∈ jobs, w.jobs job.id = some job ∧ job.state = s
  nodup : (jobs.map (·.id)).Nodup

theorem ids_nodup (ht : w.Tidy) {ids : List Uuid} (h : ids.Nodup) :
    ((ids.filterMap w.jobs).map (·.id)).Nodup := by
  have hsub : ((ids.filterMap w.jobs).map (·.id)).Sublist ids := by
    clear h
    induction ids with
    | nil => exact .slnil
    | cons id ids ih =>
      rw [List.filterMap_cons]
      cases hj : w.jobs id with
      | none => exact ih.cons id
      | some job =>
        rw [List.map_cons, ht.ids hj]
        exact ih.cons_cons id
  exact h.sublist hsub

theorem obeys_listByState (ht : w.Tidy) {s : JobState} {limit offset : Nat}
    {Q : Except Exn (List TranscodeJob) → World → Prop}
    (h : ∀ jobs, Listed w s jobs → Q (.ok jobs) w) :
    (listByState s limit offset).Obeys redis.protocol Q w := by
  unfold listByState
  rw [obeys_bind]
  refine ⟨trivial, ?_⟩
  intro ids ⟨x, hx⟩
  have hids := World.answer_smembers hx
  rw [Obeys, andThen_ok, obeys_bind, obeys_getJobs, andThen_ok]
  apply h
  have hsub : (((newestFirst (ids.filterMap w.jobs)).drop offset).take limit).Sublist
      (newestFirst (ids.filterMap w.jobs)) := (List.take_sublist _ _).trans (List.drop_sublist _ _)
  have hperm : (newestFirst (ids.filterMap w.jobs)).Perm (ids.filterMap w.jobs) :=
    List.perm_insertionSort _ _
  constructor
  · intro job hjob
    obtain ⟨id, hid, hj⟩ := List.mem_filterMap.mp (hperm.subset (hsub.subset hjob))
    have hself : job.id = id := ht.ids hj
    obtain ⟨job', hj', hs'⟩ := (ht.index s id).mp
      (by rw [← hids.2]; exact List.mem_toFinset.mpr hid)
    rw [hj, Option.some.injEq] at hj'
    subst hj'
    exact ⟨by rw [hself]; exact hj, hs'⟩
  · apply List.Nodup.sublist (hsub.map _)
    exact (hperm.map _).nodup_iff.mpr (ids_nodup ht hids.1)

theorem recoverJobs_alone {s : JobState} (hs : s.Held) {jobs : List TranscodeJob} :
    ∀ {w : World}, Listed w s jobs → (recoverJobs ctx jobs).Obeys redis.protocol
      (fun r w' => (∃ recovered, r = .ok recovered) ∧ Recovered ctx w w') w := by
  induction jobs with
  | nil => exact fun _ => ⟨⟨[], rfl⟩, .refl⟩
  | cons job jobs ih =>
    intro w hl
    obtain ⟨hj, hstate⟩ := hl.stored job (List.mem_cons_self ..)
    have hheld : job.state.Held := by rw [hstate]; exact hs
    have hnodup := hl.nodup
    rw [List.map_cons, List.nodup_cons] at hnodup
    -- Saving the head leaves the records of the others as they were listed.
    have hrest : ∀ w' : World, (∀ id, id ≠ job.id → w'.jobs id = w.jobs id) → Listed w' s jobs := by
      intro w' hw'
      refine ⟨fun other ho => ?_, hnodup.2⟩
      rw [hw' other.id (fun he => hnodup.1 (he ▸ List.mem_map_of_mem ho))]
      exact hl.stored other (List.mem_cons_of_mem _ ho)
    unfold recoverJobs
    rw [obeys_bind, obeys_isJobAlive, andThen_ok]
    by_cases hb : (w.heartbeats job.id).isSome
    · rw [if_pos hb]
      exact ih (hrest w (fun _ _ => rfl))
    · rw [if_neg hb, obeys_bind]
      rw [Bool.not_eq_true, Option.isSome_eq_false_iff, Option.isNone_iff_eq_none] at hb
      unfold recoverJob
      by_cases ha : ctx.maxRetries ≤ job.attempt
      · rw [if_pos ha, obeys_failJob hheld.to_failed, andThen_ok, obeys_bind]
        refine (ih (hrest _ fun id hid => Function.update_of_ne hid _ _)).mono ?_
        intro r w' ⟨⟨recovered, hr⟩, hw'⟩
        subst hr
        exact ⟨⟨_, rfl⟩, .head (.failed hj hheld hb ha) hw'⟩
      · rw [if_neg ha, obeys_requeueJob hheld.to_pending, andThen_ok, obeys_bind]
        refine (ih (hrest _ fun id hid => Function.update_of_ne hid _ _)).mono ?_
        intro r w' ⟨⟨recovered, hr⟩, hw'⟩
        subst hr
        exact ⟨⟨_, rfl⟩, .head (.requeued hj hheld hb (by omega)) hw'⟩

theorem recoverStaleJobs_alone (ht : w.Tidy) :
    (recoverStaleJobs ctx).Obeys redis.protocol (fun _ w' => Recovered ctx w w') w := by
  unfold recoverStaleJobs
  rw [obeys_bind]
  refine obeys_listByState ht fun claimed hc => ?_
  rw [andThen_ok, obeys_bind]
  apply (recoverJobs_alone (.inl rfl) hc).mono
  intro r w₁ ⟨⟨recovered, hr⟩, hr₁⟩
  subst hr
  rw [andThen_ok, obeys_bind]
  refine obeys_listByState (hr₁.tidy ht) fun processing hp => ?_
  rw [andThen_ok, obeys_bind]
  apply (recoverJobs_alone (.inr rfl) hp).mono
  intro r w₂ ⟨⟨recovered', hr⟩, hr₂⟩
  subst hr
  exact hr₁.trans hr₂

/-! Enqueueing. -/

/-- Everything `EnqueueJob` can do. -/
inductive Enqueue (ctx : Context) (probed : ProbedInput) (chosen : ProfileMatch) (w : World) :
    Except Exn (Option TranscodeJob) → World → Prop
  | known (h : w.processed (ctx.py.canonicalPath probed.path) ≠ none) :
      Enqueue ctx probed chosen w (.ok none) w
  | enqueued {id : Uuid} (hp : w.processed (ctx.py.canonicalPath probed.path) = none)
      (hid : id ∉ w.issued) :
      Enqueue ctx probed chosen w (.ok (some (newJob ctx probed chosen id w.clock)))
        ((((w.numbered id).saved ctx (newJob ctx probed chosen id w.clock)).marked
          (ctx.py.canonicalPath probed.path) id).queued id)

theorem enqueueJob_alone (probed : ProbedInput) (chosen : ProfileMatch) :
    (enqueueJob ctx probed chosen).Obeys redis.protocol (Enqueue ctx probed chosen w) w := by
  unfold enqueueJob isProcessed markProcessed
  rw [obeys_bind, obeys_cmd _ (w.processed (ctx.py.canonicalPath probed.path)).isSome
    (fun _ => rfl), andThen_ok]
  cases hp : w.processed (ctx.py.canonicalPath probed.path) with
  | some id => exact .known (by rw [hp]; exact Option.some_ne_none id)
  | none =>
    simp only [Option.isSome_none, Bool.false_eq_true, if_false, World.effect]
    rw [obeys_bind]
    refine ⟨trivial, ?_⟩
    intro id ⟨x, hx⟩
    have hid := World.answer_uuid4 hx
    rw [Obeys, andThen_ok, obeys_bind, obeys_now, andThen_ok, obeys_bind, obeys_saveJob, andThen_ok,
      obeys_bind, obeys_cmd _ () (fun _ => rfl), andThen_ok, obeys_bind, obeys_enqueue, andThen_ok]
    exact .enqueued hp hid

end
end Vshift
