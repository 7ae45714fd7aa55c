import Vshift.Worker
import Vshift.Accounting
import Vshift.Scan
import Mathlib.Algebra.Order.BigOperators.Group.List
import Mathlib.Algebra.Ring.Nat

/- A worker alone with the queue empties it.

   `World.workLeft` counts the rounds the queue can still take: every entry takes one,
   and one more for each attempt its job has left. A round takes it down
   (`Round.workLeft`): an entry that goes back to the queue has one attempt less.
   `Draining` is what has become of the jobs that waited in the queue; with it,
   `workerMain_drains` says that a worker left alone for that many rounds ends every
   one of them and touches no other job. -/
namespace Vshift
open Command Program

/-- What a job asks for; no use case changes it. -/
def TranscodeJob.request (job : TranscodeJob) : TranscodeJob :=
  { job with
    state := .pending, workerId := none, claimedAt := none, startedAt := none, completedAt := none,
    attempt := 1, errorMessage := none }

/-- The job is stored as pending and in the queue. -/
structure World.Waiting (w : World) (job : TranscodeJob) : Prop where
  stored : w.jobs job.id = some job
  pending : job.state = .pending
  queued : job.id ∈ w.pendingQueue

/-- The same job, some attempts later. -/
structure Carried (ctx : Context) (job updated : TranscodeJob) : Prop where
  request : updated.request = job.request
  later : job.attempt ≤ updated.attempt
  bounded : updated.attempt ≤ max job.attempt ctx.maxRetries

/-- The job has come to its end between `w` and `t`. -/
inductive Ended (ctx : Context) (raises : Exn → Prop) (w t : World) (updated : TranscodeJob) : Prop
  | completed (summary : JobSummary) (hs : updated.state = .completed)
      (hsummary : t.summaries updated.id = some summary)
  | failed (message : String) (hs : updated.state = .failed) (hr : raises (.vshift message))
      (he : updated.errorMessage = some message) (ha : ctx.maxRetries ≤ updated.attempt)
      (hsummary : t.summaries updated.id = w.summaries updated.id)

/-- What has become of the jobs that waited in `w`, once a worker alone has taken rounds. -/
structure Draining (ctx : Context) (raises : Exn → Prop) (w t : World) : Prop where
  tidy : t.Tidy
  queue : ∀ id ∈ t.pendingQueue, id ∈ w.pendingQueue
  waiting : ∀ job, w.Waiting job → ∃ updated, t.jobs job.id = some updated ∧
    Carried ctx job updated ∧
      (t.Waiting updated ∧ t.summaries job.id = w.summaries job.id ∨ Ended ctx raises w t updated)
  dead : ∃ ids, t.deadLetterQueue = w.deadLetterQueue ++ ids ∧ ids.Nodup ∧ ∀ id, id ∈ ids ↔
    ∃ job, w.Waiting job ∧ job.id = id ∧ t.state? id = some .failed
  others : ∀ id, (∀ job, w.Waiting job → job.id ≠ id) →
    t.jobs id = w.jobs id ∧ t.summaries id = w.summaries id
  processed : t.processed = w.processed

/-- Every job that waited in `w` has come to its end, and no other was touched. -/
structure Drained (ctx : Context) (raises : Exn → Prop) (w t : World) : Prop where
  tidy : t.Tidy
  queue : t.pendingQueue = []
  ended : ∀ job, w.Waiting job → ∃ updated, t.jobs job.id = some updated ∧
    Carried ctx job updated ∧ Ended ctx raises w t updated
  dead : ∃ ids, t.deadLetterQueue = w.deadLetterQueue ++ ids ∧ ids.Nodup ∧ ∀ id, id ∈ ids ↔
    ∃ job, w.Waiting job ∧ job.id = id ∧ t.state? id = some .failed
  others : ∀ id, (∀ job, w.Waiting job → job.id ≠ id) →
    t.jobs id = w.jobs id ∧ t.summaries id = w.summaries id
  processed : t.processed = w.processed

section
variable {ctx : Context} {raises : Exn → Prop} {w t t' : World} {job : TranscodeJob}

theorem Carried.refl (job : TranscodeJob) : Carried ctx job job :=
  ⟨rfl, le_refl _, le_max_left _ _⟩

theorem Carried.trans {job₁ job₂ job₃ : TranscodeJob} (h : Carried ctx job₁ job₂)
    (h' : Carried ctx job₂ job₃) : Carried ctx job₁ job₃ where
  request := h'.request.trans h.request
  later := h.later.trans h'.later
  bounded := by
    have := h.bounded
    have := h'.bounded
    omega

theorem World.Tidy.enqueued (h : w.Tidy) (probed : ProbedInput) (chosen : ProfileMatch)
    (id : Uuid) : (w.enqueued ctx probed chosen id).Tidy := by
  have hsaved : ((w.numbered id).saved ctx (newJob ctx probed chosen id w.clock)).Tidy :=
    (h.congr rfl rfl : (w.numbered id).Tidy).saved _
  exact hsaved.congr rfl rfl

theorem state?_waiting (h : w.Waiting job) : w.state? job.id = some .pending := by
  rw [World.state?, h.stored, Option.map_some, h.pending]

theorem Draining.start (h : w.Tidy) : Draining ctx raises w w where
  tidy := h
  queue _ hid := hid
  waiting job hjob := ⟨job, hjob.stored, .refl job, .inl ⟨hjob, rfl⟩⟩
  dead := by
    refine ⟨[], (List.append_nil _).symm, .nil, fun id => ⟨nofun, ?_⟩⟩
    rintro ⟨job, hjob, rfl, hstate⟩
    rw [state?_waiting hjob] at hstate
    cases hstate
  others _ _ := ⟨rfl, rfl⟩
  processed := rfl

/-- Only jobs that waited in `w` are taken. -/
theorem Draining.next (h : Draining ctx raises w t) (hnext : t.Next job) :
    ∃ before, w.Waiting before ∧ before.id = job.id ∧ Carried ctx before job ∧
      t.summaries job.id = w.summaries job.id := by
  have hqueued : job.id ∈ w.pendingQueue := h.queue _ (List.mem_of_mem_head? hnext.head)
  by_cases hwaited : ∃ before, w.Waiting before ∧ before.id = job.id
  · obtain ⟨before, hbefore, hid⟩ := hwaited
    obtain ⟨updated, hupdated, hcarried, hfate⟩ := h.waiting before hbefore
    rw [hid, hnext.stored, Option.some.injEq] at hupdated
    subst hupdated
    refine ⟨before, hbefore, hid, hcarried, ?_⟩
    rcases hfate with ⟨_, hsummary⟩ | hended
    · rw [← hid]
      exact hsummary
    · cases hended with
      | completed _ hs => exact absurd (hnext.pending.symm.trans hs) nofun
      | failed _ hs => exact absurd (hnext.pending.symm.trans hs) nofun
  · have hsame := h.others job.id fun before hbefore hid => hwaited ⟨before, hbefore, hid⟩
    exact absurd ⟨job, ⟨hsame.1 ▸ hnext.stored, hnext.pending, hqueued⟩, rfl⟩ hwaited

/-- An end stays one as long as the job's summary is left. -/
theorem Ended.keep (h : Ended ctx raises w t job)
    (hsummary : t'.summaries job.id = t.summaries job.id) : Ended ctx raises w t' job := by
  cases h with
  | completed summary hs hsum => exact .completed summary hs (hsummary.trans hsum)
  | failed message hs hr he ha hsum => exact .failed message hs hr he ha (hsummary.trans hsum)

theorem state?_update {new : TranscodeJob}
    (hjobs : t'.jobs = Function.update t.jobs job.id (some new)) (id : Uuid) :
    t'.state? id = if id = job.id then some new.state else t.state? id := by
  unfold World.state?
  rw [hjobs, Function.update_apply]
  split <;> rfl

/-- The dead-letter queue gets the taken job exactly if it has failed. -/
theorem Draining.bury (h : Draining ctx raises w t) (hnext : t.Next job) {new : TranscodeJob}
    (hjobs : t'.jobs = Function.update t.jobs job.id (some new))
    (hdead : t'.deadLetterQueue =
      t.deadLetterQueue ++ if new.state = .failed then [job.id] else []) :
    ∃ ids, t'.deadLetterQueue = w.deadLetterQueue ++ ids ∧ ids.Nodup ∧ ∀ id, id ∈ ids ↔
      ∃ job, w.Waiting job ∧ job.id = id ∧ t'.state? id = some .failed := by
  obtain ⟨before, hbefore, hid, -, -⟩ := h.next hnext
  obtain ⟨ids, hids, hnodup, hmem⟩ := h.dead
  have hfresh : job.id ∉ ids := by
    intro hin
    obtain ⟨_, _, _, hfailed⟩ := (hmem job.id).mp hin
    rw [World.state?, hnext.stored, Option.map_some, hnext.pending] at hfailed
    cases hfailed
  have hothers : ∀ id, id ≠ job.id → (id ∈ ids ↔
      ∃ job, w.Waiting job ∧ job.id = id ∧ t'.state? id = some .failed) := by
    intro id hne
    rw [state?_update hjobs, if_neg hne]
    exact hmem id
  have hself : t'.state? job.id = some new.state := by rw [state?_update hjobs, if_pos rfl]
  rw [hdead, hids, List.append_assoc]
  by_cases hfailed : new.state = .failed
  · rw [if_pos hfailed]
    refine ⟨ids ++ [job.id], rfl, ?_, fun id => ?_⟩
    · exact List.nodup_append.mpr ⟨hnodup, List.nodup_singleton _, fun a ha b hb hab =>
        hfresh (List.mem_singleton.mp hb ▸ hab ▸ ha)⟩
    · rw [List.mem_append, List.mem_singleton]
      by_cases hne : id = job.id
      · subst hne
        exact ⟨fun _ => ⟨before, hbefore, hid, by rw [hself, hfailed]⟩, fun _ => .inr rfl⟩
      · rw [← hothers id hne]
        exact ⟨fun hin => hin.resolve_right hne, .inl⟩
  · rw [if_neg hfailed, List.append_nil]
    refine ⟨ids, rfl, hnodup, fun id => ?_⟩
    by_cases hne : id = job.id
    · subst hne
      refine ⟨fun hin => absurd hin hfresh, ?_⟩
      rintro ⟨_, _, _, hstate⟩
      rw [hself, Option.some.injEq] at hstate
      exact absurd hstate hfailed
    · exact hothers id hne

/-- The taken job is stored as `new`; everything kept beside the other jobs is as it was. -/
theorem Draining.store (h : Draining ctx raises w t) (hnext : t.Next job) {new : TranscodeJob}
    (hid : new.id = job.id) (hcarried : Carried ctx job new)
    (hjobs : t'.jobs = Function.update t.jobs job.id (some new)) (htidy : t'.Tidy)
    (hqueue : ∀ id ∈ t'.pendingQueue, id ∈ t.pendingQueue)
    (hstill : ∀ id ∈ t.pendingQueue, id ≠ job.id → id ∈ t'.pendingQueue)
    (hdead : t'.deadLetterQueue =
      t.deadLetterQueue ++ if new.state = .failed then [job.id] else [])
    (hsummaries : ∀ id, id ≠ job.id → t'.summaries id = t.summaries id)
    (hfate : t'.Waiting new ∧ t'.summaries job.id = t.summaries job.id ∨ Ended ctx raises t t' new)
    (hprocessed : t'.processed = t.processed) : Draining ctx raises w t' := by
  obtain ⟨before, hbefore, hbid, hcarry, hsummary⟩ := h.next hnext
  refine ⟨htidy, fun id hmem => h.queue id (hqueue id hmem), ?_, h.bury hnext hjobs hdead, ?_,
    hprocessed.trans h.processed⟩
  · intro other hother
    by_cases hsame : other.id = job.id
    · have hother' : other = before := by
        have hstored := hbefore.stored
        rw [hbid, ← hsame, hother.stored, Option.some.injEq] at hstored
        exact hstored
      subst hother'
      refine ⟨new, by rw [hjobs, hsame, Function.update_self], hcarry.trans hcarried, ?_⟩
      rw [hsame, ← hsummary]
      refine hfate.imp_right fun hended => ?_
      cases hended with
      | completed summary hs hsum => exact .completed summary hs hsum
      | failed message hs hr he ha hsum =>
        exact .failed message hs hr he ha (hsum.trans (by rw [hid]; exact hsummary))
    · obtain ⟨updated, hupdated, hcarried', hfate'⟩ := h.waiting other hother
      have huid : updated.id = other.id := h.tidy.ids hupdated
      have hne : updated.id ≠ job.id := by rwa [huid]
      have hkept : t'.jobs updated.id = t.jobs updated.id := by
        rw [hjobs, Function.update_of_ne hne]
      refine ⟨updated, by rw [← huid, hkept, huid]; exact hupdated, hcarried', ?_⟩
      rcases hfate' with ⟨hwaits, hsum⟩ | hended
      · exact .inl ⟨⟨hkept.trans hwaits.stored, hwaits.pending, hstill _ hwaits.queued hne⟩,
          (hsummaries _ hsame).trans hsum⟩
      · exact .inr (hended.keep (hsummaries _ hne))
  · intro id hother
    have hne : id ≠ job.id := fun he => hother before hbefore (hbid.trans he.symm)
    rw [hjobs, Function.update_of_ne hne, hsummaries id hne]
    exact h.others id hother

/-! One round. -/

theorem queue_cons {id : Uuid} (h : t.pendingQueue.head? = some id) :
    t.pendingQueue = id :: t.pendingQueue.tail :=
  List.eq_cons_of_mem_head? h

/-- A round on a queue whose head cannot be claimed. -/
theorem Draining.pop (h : Draining ctx raises w t) (hnone : ∀ job, ¬ t.Next job) :
    Draining ctx raises w t.popped where
  tidy := h.tidy.popped
  queue id hid := h.queue id (List.mem_of_mem_tail hid)
  waiting job hjob := by
    obtain ⟨updated, hupdated, hcarried, hfate⟩ := h.waiting job hjob
    refine ⟨updated, hupdated, hcarried, hfate.imp ?_ (fun hended => hended.keep rfl)⟩
    rintro ⟨hwaits, hsummary⟩
    refine ⟨⟨hwaits.stored, hwaits.pending, ?_⟩, hsummary⟩
    -- the head does not wait, or it could be claimed
    cases hq : t.pendingQueue with
    | nil => exact absurd hwaits.queued (by rw [hq]; exact List.not_mem_nil)
    | cons id rest =>
      have hmem := hwaits.queued
      rw [hq, List.mem_cons] at hmem
      rw [World.popped_pendingQueue, hq]
      refine hmem.resolve_left fun he => hnone updated ⟨?_, hwaits.stored, hwaits.pending⟩
      rw [hq, List.head?_cons, he]
  dead := h.dead
  others := h.others
  processed := h.processed

/-- The store after the round, at the taken job. -/
theorem begun_saved_jobs (ctx : Context) (t : World) (worker : Uuid) {new : TranscodeJob}
    (hid : new.id = job.id) : ((t.begun ctx worker job).saved ctx new).jobs =
      Function.update t.jobs job.id (some new) := by
  show Function.update (t.begun ctx worker job).jobs new.id (some new) = _
  rw [begun_jobs, hid, Function.update_idem]

theorem Draining.round {worker : Uuid} {r : Option TranscodeJob} (h : Draining ctx raises w t)
    (hround : Round ctx worker raises t (.ok r) t') : Draining ctx raises w t' := by
  have hrest : ∀ {job : TranscodeJob}, t.Next job →
      ∀ id ∈ t.pendingQueue, id ≠ job.id → id ∈ t.pendingQueue.tail := by
    intro job hnext id hid hne
    rw [queue_cons hnext.head, List.mem_cons] at hid
    exact hid.resolve_left hne
  cases hround with
  | nothing hnone => exact h.pop hnone
  | @completed job summary hnext hid =>
    have hnew : ((job.processedBy worker t.clock).completed t.clock).id = job.id := rfl
    have hjobs := begun_saved_jobs ctx t worker hnew
    have htidy : ((t.begun ctx worker job).summarised ctx summary).Tidy :=
      (h.tidy.begun ctx worker job).congr rfl rfl
    refine h.store hnext hnew ⟨rfl, le_refl _, le_max_left _ _⟩ hjobs (htidy.saved _)
      (fun id => List.mem_of_mem_tail) (hrest hnext) (List.append_nil _).symm ?_
      (.inr (.completed summary rfl ?_)) rfl
    · intro id hne
      exact Function.update_of_ne (by rw [hid]; exact hne) ..
    · show Function.update _ summary.jobId _ job.id = _
      rw [hid, Function.update_self]
  | @failed job message hnext hr ha =>
    have hnew : ((job.processedBy worker t.clock).failed message t.clock).id = job.id := rfl
    have hjobs := begun_saved_jobs ctx t worker hnew
    have htidy : ((t.begun ctx worker job).saved ctx
        ((job.processedBy worker t.clock).failed message t.clock)).Tidy :=
      (h.tidy.begun ctx worker job).saved _
    exact h.store hnext hnew ⟨rfl, le_refl _, le_max_left _ _⟩ hjobs (htidy.congr rfl rfl)
      (fun id => List.mem_of_mem_tail) (hrest hnext) rfl (fun _ _ => rfl)
      (.inr (.failed message rfl hr rfl ha rfl)) rfl
  | @requeued job message hnext hr ha =>
    have hnew : ((job.processedBy worker t.clock).requeued message).id = job.id := rfl
    have hjobs := begun_saved_jobs ctx t worker hnew
    have htidy : ((t.begun ctx worker job).saved ctx
        ((job.processedBy worker t.clock).requeued message)).Tidy :=
      (h.tidy.begun ctx worker job).saved _
    have hcarried : Carried ctx job ((job.processedBy worker t.clock).requeued message) :=
      ⟨rfl, Nat.le_succ _, le_max_of_le_right ha⟩
    refine h.store hnext hnew hcarried hjobs (htidy.congr rfl rfl) ?_
      (fun id hid hne => List.mem_append_left _ (hrest hnext id hid hne)) (List.append_nil _).symm
      (fun _ _ => rfl) (.inl ⟨⟨?_, rfl, List.mem_append_right _ List.mem_cons_self⟩, rfl⟩) rfl
    · intro id hid
      rcases List.mem_append.mp hid with hid | hid
      · exact List.mem_of_mem_tail hid
      · rw [List.mem_singleton.mp hid]
        exact List.mem_of_mem_head? hnext.head
    · exact (congrFun hjobs job.id).trans (Function.update_self ..)

/-! The rounds the queue can take. -/

/-- How often a job can go back to the queue. -/
def World.retriesLeft (ctx : Context) (w : World) (id : Uuid) : Nat :=
  match w.jobs id with
  | some job => if job.state = .pending then ctx.maxRetries - job.attempt else 0
  | none => 0

/-- The rounds the queue can take: one for each entry and each time it can come back. -/
def World.workLeft (ctx : Context) (w : World) : Nat :=
  (w.pendingQueue.map fun id => w.retriesLeft ctx id + 1).sum

theorem retriesLeft_of_ne_pending {id : Uuid} (hj : t.jobs id = some job)
    (hs : job.state ≠ .pending) : t.retriesLeft ctx id = 0 := by
  rw [World.retriesLeft, hj]
  exact if_neg hs

theorem retriesLeft_of_pending {id : Uuid} (hj : t.jobs id = some job)
    (hs : job.state = .pending) : t.retriesLeft ctx id = ctx.maxRetries - job.attempt := by
  rw [World.retriesLeft, hj]
  exact if_pos hs

/-- The head leaves; what comes to the end of the queue costs less than the head did. -/
theorem workLeft_step {id : Uuid} {extra : List Uuid} (hq : t.pendingQueue.head? = some id)
    (hq' : t'.pendingQueue = t.pendingQueue.tail ++ extra)
    (hless : ∀ id, t'.retriesLeft ctx id ≤ t.retriesLeft ctx id)
    (hextra : (extra.map fun id => t'.retriesLeft ctx id + 1).sum ≤ t.retriesLeft ctx id) :
    t'.workLeft ctx ≤ t.workLeft ctx - 1 := by
  unfold World.workLeft
  have htail : (t.pendingQueue.tail.map fun id => t'.retriesLeft ctx id + 1).sum ≤
      (t.pendingQueue.tail.map fun id => t.retriesLeft ctx id + 1).sum :=
    List.sum_le_sum fun id _ => Nat.add_le_add_right (hless id) 1
  rw [hq', queue_cons hq, List.tail_cons, List.map_append, List.sum_append, List.map_cons,
    List.sum_cons]
  omega

/-- Storing one job changes no other job's retries. -/
theorem retriesLeft_update {new : TranscodeJob}
    (hjobs : t'.jobs = Function.update t.jobs job.id (some new))
    (hless : t'.retriesLeft ctx job.id ≤ t.retriesLeft ctx job.id) (id : Uuid) :
    t'.retriesLeft ctx id ≤ t.retriesLeft ctx id := by
  by_cases hid : id = job.id
  · rw [hid]
    exact hless
  · rw [World.retriesLeft, hjobs, Function.update_of_ne hid]
    exact le_refl _

/-- A round takes the work down, or there is none. -/
theorem Round.workLeft {worker : Uuid} {r : Option TranscodeJob}
    (hround : Round ctx worker raises t (.ok r) t') : t'.workLeft ctx ≤ t.workLeft ctx - 1 := by
  have hended : ∀ {job new : TranscodeJob} {t' : World}, t.Next job → new.id = job.id →
      new.state ≠ .pending → t'.pendingQueue = t.pendingQueue.tail →
      t'.jobs = Function.update t.jobs job.id (some new) →
      t'.workLeft ctx ≤ t.workLeft ctx - 1 := by
    intro job new t' hnext hid hs hq hjobs
    refine workLeft_step hnext.head (hq.trans (List.append_nil _).symm)
      (retriesLeft_update hjobs ?_) (Nat.zero_le _)
    rw [retriesLeft_of_ne_pending (by rw [hjobs, Function.update_self]) hs]
    exact Nat.zero_le _
  cases hround with
  | nothing hnone =>
    cases hq : t.pendingQueue with
    | nil => simp [World.workLeft, hq]
    | cons id rest =>
      exact workLeft_step (by rw [hq, List.head?_cons]) (List.append_nil _).symm
        (fun _ => le_refl _) (Nat.zero_le _)
  | @completed job summary hnext hid =>
    have hnew : ((job.processedBy worker t.clock).completed t.clock).id = job.id := rfl
    exact hended hnext hnew JobState.noConfusion rfl (begun_saved_jobs ctx t worker hnew)
  | @failed job message hnext hr ha =>
    have hnew : ((job.processedBy worker t.clock).failed message t.clock).id = job.id := rfl
    exact hended hnext hnew JobState.noConfusion rfl (begun_saved_jobs ctx t worker hnew)
  | @requeued job message hnext hr ha =>
    have hid : ((job.processedBy worker t.clock).requeued message).id = job.id := rfl
    have hjobs := begun_saved_jobs ctx t worker hid
    have hnew : (((t.begun ctx worker job).saved ctx
        ((job.processedBy worker t.clock).requeued message)).queued job.id).retriesLeft ctx job.id =
        ctx.maxRetries - (job.attempt + 1) :=
      retriesLeft_of_pending ((congrFun hjobs job.id).trans (Function.update_self ..)) rfl
    have hold : t.retriesLeft ctx job.id = ctx.maxRetries - job.attempt :=
      retriesLeft_of_pending hnext.stored hnext.pending
    refine workLeft_step hnext.head rfl (retriesLeft_update hjobs ?_) ?_
    · rw [hnew, hold]
      omega
    · rw [List.map_singleton, List.sum_singleton, hnew, hold]
      omega

/-! The loop. -/

/-- Nothing about the jobs differs. -/
structure World.SameJobs (t t' : World) : Prop where
  jobs : t'.jobs = t.jobs
  stateIndex : t'.stateIndex = t.stateIndex
  pendingQueue : t'.pendingQueue = t.pendingQueue
  deadLetterQueue : t'.deadLetterQueue = t.deadLetterQueue
  summaries : t'.summaries = t.summaries
  processed : t'.processed = t.processed

theorem Draining.congr (h : Draining ctx raises w t) (hsame : t.SameJobs t') :
    Draining ctx raises w t' where
  tidy := h.tidy.congr hsame.jobs hsame.stateIndex
  queue := by
    rw [hsame.pendingQueue]
    exact h.queue
  waiting job hjob := by
    obtain ⟨updated, hupdated, hcarried, hfate⟩ := h.waiting job hjob
    refine ⟨updated, by rw [hsame.jobs]; exact hupdated, hcarried, hfate.imp ?_ ?_⟩
    · rintro ⟨hwaits, hsummary⟩
      exact ⟨⟨by rw [hsame.jobs]; exact hwaits.stored, hwaits.pending,
        by rw [hsame.pendingQueue]; exact hwaits.queued⟩, by rw [hsame.summaries]; exact hsummary⟩
    · exact fun hended => hended.keep (by rw [hsame.summaries])
  dead := by
    obtain ⟨ids, hids, hnodup, hmem⟩ := h.dead
    refine ⟨ids, by rw [hsame.deadLetterQueue]; exact hids, hnodup, fun id => ?_⟩
    rw [World.state?, hsame.jobs]
    exact hmem id
  others id hother := by
    rw [hsame.jobs, hsame.summaries]
    exact h.others id hother
  processed := hsame.processed.trans h.processed

theorem workLeft_congr (hsame : t.SameJobs t') : t'.workLeft ctx = t.workLeft ctx := by
  unfold World.workLeft World.retriesLeft
  rw [hsame.pendingQueue, hsame.jobs]

theorem workLeft_eq_zero (h : t.workLeft ctx = 0) : t.pendingQueue = [] := by
  cases hq : t.pendingQueue with
  | nil => rfl
  | cons id rest =>
    rw [World.workLeft, hq, List.map_cons, List.sum_cons] at h
    omega

/-- Once the queue is empty nothing waits. -/
theorem Draining.drained (h : Draining ctx raises w t) (hwork : t.workLeft ctx = 0) :
    Drained ctx raises w t where
  tidy := h.tidy
  queue := workLeft_eq_zero hwork
  ended job hjob := by
    obtain ⟨updated, hupdated, hcarried, ⟨hwaits, -⟩ | hended⟩ := h.waiting job hjob
    · exact absurd hwaits.queued (by rw [workLeft_eq_zero hwork]; exact List.not_mem_nil)
    · exact ⟨updated, hupdated, hcarried, hended⟩
  dead := h.dead
  others := h.others
  processed := h.processed

theorem Drained.congr (h : Drained ctx raises w t) (hsame : t.SameJobs t') :
    Drained ctx raises w t' := by
  have hdraining : Draining ctx raises w t :=
    ⟨h.tidy, fun id hid => absurd hid (by rw [h.queue]; exact List.not_mem_nil),
      fun job hjob => by
        obtain ⟨updated, hupdated, hcarried, hended⟩ := h.ended job hjob
        exact ⟨updated, hupdated, hcarried, .inr hended⟩, h.dead, h.others, h.processed⟩
  refine (hdraining.congr hsame).drained ?_
  rw [workLeft_congr hsame, World.workLeft, h.queue]
  rfl

/-- One turn of the worker's loop. -/
theorem workerTurn_drains {worker : Uuid} (hraises : ∀ name, ¬ raises (.other name))
    (stopped : Bool) (h : Draining ctx raises w t) :
    (workerTurn ctx worker stopped).Obeys (redisPort raises) (fun r t' =>
      (∃ stop, r = .ok stop ∧ (stop = true → stopped = true)) ∧ Draining ctx raises w t' ∧
        t'.workLeft ctx ≤ t.workLeft ctx - 1) t := by
  refine (processNextJob_round h.tidy).seq ?_ ?_
  · intro job t' hround
    have hbeaten : t'.SameJobs (t'.beaten ctx worker) := ⟨rfl, rfl, rfl, rfl, rfl, rfl⟩
    apply (obeys_bind _ _ _).mpr
    apply Obeys.assuming
    rw [obeys_heartbeat, andThen_ok]
    refine ⟨⟨_, rfl, fun hstop => ?_⟩, (h.round hround).congr hbeaten, ?_⟩
    · exact (Bool.and_eq_true_iff.mp hstop).2
    · rw [workLeft_congr hbeaten]
      exact hround.workLeft
  · intro e t' hround
    cases hround with
    | crashed _ hr => exact absurd hr (hraises _)

/-- The host has an ffmpeg that runs. -/
def WorkerHost.Works (host : WorkerHost) : Prop :=
  (∃ available, host.encoders = .ok available) ∧ ∃ version, host.ffmpegVersion = .ok version

theorem registerWorker_enrolls {host : WorkerHost} (hhost : host.Works) (ctx : Context) (w : World)
    (worker : Uuid) :
    (registerWorker ctx host worker).Obeys redis.protocol (fun r t =>
      ∃ info : WorkerInfo, r = .ok info ∧ info.workerId = worker ∧ t = w.enrolled ctx info) w := by
  obtain ⟨⟨available, havailable⟩, version, hversion⟩ := hhost
  unfold registerWorker
  rw [havailable, hversion, obeys_bind, obeys_ofExcept, andThen_ok, obeys_bind, obeys_now,
    andThen_ok, obeys_bind, obeys_ofExcept, andThen_ok, obeys_bind, obeys_register, andThen_ok]
  exact ⟨_, rfl, rfl, rfl⟩

/-- A worker alone with the queue, whose transcoder raises nothing but `VShiftException`. Given
    turns for all the work left before it is stopped, it ends every job that waits and no other,
    and deregisters. -/
theorem workerMain_drains {host : WorkerHost} {worker : Uuid} {settings : WorkerRuntimeSettings}
    {turns : List Bool} (ht : w.Tidy) (hhost : host.Works) (hloop : settings.oneShot = false)
    (hraises : ∀ name, ¬ raises (.other name)) (henough : w.workLeft ctx ≤ turns.length)
    (hstay : ∀ stopped ∈ turns.take (w.workLeft ctx), stopped = false) :
    (workerMain ctx host worker settings turns).Obeys (redisPort raises) (fun r t =>
      r = .ok () ∧ Drained ctx raises w t ∧ t.workers worker = none ∧ worker ∉ t.workersIndex)
      w := by
  unfold workerMain
  rw [hloop]
  refine (registerWorker_enrolls hhost ctx w worker).assuming.seq ?_ ?_
  · rintro info t ⟨info', heq, hid, rfl⟩
    cases heq
    have henrolled : w.SameJobs (w.enrolled ctx info) := ⟨rfl, rfl, rfl, rfl, rfl, rfl⟩
    have hwork : (w.enrolled ctx info).workLeft ctx = w.workLeft ctx := workLeft_congr henrolled
    refine (loop_exhausts (World.workLeft ctx) (fun stopped => stopped = true)
      (fun stopped _ t h => workerTurn_drains hraises stopped h)
      ((Draining.start ht).congr henrolled) (by rw [hwork]; exact henough) ?_).seq ?_ ?_
    · intro stopped hmem
      rw [hwork] at hmem
      rw [hstay stopped hmem]
      exact Bool.false_ne_true
    · rintro - t ⟨-, hdraining, hzero⟩
      apply Obeys.assuming
      rw [obeys_deregister]
      refine ⟨rfl, (hdraining.drained hzero).congr ⟨rfl, rfl, rfl, rfl, rfl, rfl⟩,
        Function.update_self .., ?_⟩
      exact Finset.notMem_erase _ _
    · rintro e t ⟨h, -⟩
      cases h
  · rintro e t ⟨info, h, -⟩
    cases h

/-- A one-shot worker takes one round. -/
theorem oneShot_drains {host : WorkerHost} {worker : Uuid} {settings : WorkerRuntimeSettings}
    (hhost : host.Works) (hshot : settings.oneShot = true)
    (hraises : ∀ name, ¬ raises (.other name)) (turns : List Bool)
    (h : Draining ctx raises w t) :
    (workerMain ctx host worker settings turns).Obeys (redisPort raises) (fun r t' =>
      r = .ok () ∧ Draining ctx raises w t' ∧ t'.workLeft ctx ≤ t.workLeft ctx - 1) t := by
  unfold workerMain
  rw [hshot]
  refine (registerWorker_enrolls hhost ctx t worker).assuming.seq ?_ ?_
  · rintro info t' ⟨info', heq, hid, rfl⟩
    cases heq
    have henrolled : t.SameJobs (t.enrolled ctx info) := ⟨rfl, rfl, rfl, rfl, rfl, rfl⟩
    have h' := h.congr henrolled
    refine (processNextJob_round h'.tidy).seq ?_ ?_
    · intro job t' hround
      have hwithdrawn : t'.SameJobs (t'.withdrawn worker) := ⟨rfl, rfl, rfl, rfl, rfl, rfl⟩
      apply Obeys.assuming
      rw [obeys_deregister]
      refine ⟨rfl, (h'.round hround).congr hwithdrawn, ?_⟩
      rw [workLeft_congr hwithdrawn, ← workLeft_congr henrolled]
      exact hround.workLeft
    · intro e t' hround
      cases hround with
      | crashed _ hr => exact absurd hr (hraises _)
  · rintro e t' ⟨info, h, -⟩
    cases h

/-- One-shot workers started one after another, each once the one before has ended. -/
def podsMain (ctx : Context) (settings : WorkerRuntimeSettings) (pods : List (WorkerHost × Uuid)) :
    Prog Unit :=
  Program.loop (fun pod => do
    workerMain ctx pod.1 pod.2 settings []
    pure false) pods

/-- As many one-shot workers as there is work left end every job that waits. -/
theorem podsMain_drains {settings : WorkerRuntimeSettings} {pods : List (WorkerHost × Uuid)}
    (ht : w.Tidy) (hhosts : ∀ pod ∈ pods, pod.1.Works) (hshot : settings.oneShot = true)
    (hraises : ∀ name, ¬ raises (.other name)) (henough : w.workLeft ctx ≤ pods.length) :
    (podsMain ctx settings pods).Obeys (redisPort raises) (fun r t =>
      r = .ok () ∧ Drained ctx raises w t) w := by
  have hpod : ∀ pod ∈ pods, ∀ t, Draining ctx raises w t →
      (workerMain ctx pod.1 pod.2 settings [] >>= fun _ => pure false : Prog Bool).Obeys
        (redisPort raises) (fun r t' => (∃ stop, r = .ok stop ∧ (stop = true → False)) ∧
          Draining ctx raises w t' ∧ t'.workLeft ctx ≤ t.workLeft ctx - 1) t := by
    intro pod hmem t h
    refine (oneShot_drains (hhosts pod hmem) hshot hraises [] h).seq ?_ ?_
    · rintro - t' ⟨-, h', hwork⟩
      exact ⟨⟨false, rfl, nofun⟩, h', hwork⟩
    · rintro e t' ⟨h, -⟩
      cases h
  refine (loop_exhausts (World.workLeft ctx) (fun _ => False) hpod (.start ht) henough
    (fun _ _ h => h)).mono ?_
  rintro r t ⟨hr, hdraining, hzero⟩
  exact ⟨hr, hdraining.drained hzero⟩

end

/-! A job whose first attempt fails. -/

def plainHost : WorkerHost := ⟨"worker", .ok "7.0", .ok ∅, "linux", "x86_64"⟩

theorem plainHost_works : plainHost.Works := ⟨⟨_, rfl⟩, _, rfl⟩

/-- One file in the queue. -/
def oneQueued : World :=
  World.empty.enqueued smallContext (mp4File "/tmp/input/a.mp4") defaultMatch 1

theorem oneQueued_tidy : oneQueued.Tidy := World.empty_tidy.enqueued _ _ _

def ffmpegFails (e : Exn) : Prop := e = .vshift "ffmpeg failed"

def transcodes : List Choice :=
  [.transcoded (.ok (quickResult "/tmp/output/a.mp4")), .summarised (.ok (summaryOf 1))]

/-- The transcoder fails the first time. -/
def failsOnce : List Choice :=
  List.replicate 20 .go ++ .transcoded (.error (.vshift "ffmpeg failed")) ::
    List.replicate 26 .go ++ transcodes

theorem failsOnce_fair : ∀ x ∈ failsOnce, x.Raises ffmpegFails := by
  simp [failsOnce, transcodes, Choice.Raises, ffmpegFails]

theorem workerMain_drains_oneQueued : ∃ t,
    redis.run (workerMain smallContext plainHost 7 {} [false, false]) failsOnce oneQueued =
      some (.ok (), t) ∧ Drained smallContext ffmpegFails oneQueued t := by
  have hrun : (redis.run (workerMain smallContext plainHost 7 {} [false, false]) failsOnce
      oneQueued).isSome = true := rfl
  obtain ⟨⟨r, t⟩, hrun⟩ := Option.isSome_iff_exists.mp hrun
  have hdrains : (workerMain smallContext plainHost 7 {} [false, false]).Obeys
      (redisPort ffmpegFails) _ oneQueued :=
    workerMain_drains oneQueued_tidy plainHost_works rfl (fun _ h => Exn.noConfusion h) (by decide)
      (by decide)
  obtain ⟨rfl, hdrained, -⟩ :=
    Machine.run_assuming answer_raises trivial hrun failsOnce_fair hdrains
  exact ⟨t, hrun, hdrained⟩

/-- A pod that fails and one that completes the job. -/
def pods : List (WorkerHost × Uuid) := [(plainHost, 7), (plainHost, 8)]

theorem podsMain_drains_oneQueued : (podsMain smallContext { oneShot := true } pods).Obeys
    (redisPort ffmpegFails) (fun r t => r = .ok () ∧ Drained smallContext ffmpegFails oneQueued t)
    oneQueued := by
  refine podsMain_drains oneQueued_tidy (fun pod hpod => ?_) rfl (fun _ h => Exn.noConfusion h)
    (by decide)
  rcases List.mem_cons.mp hpod with rfl | hpod
  · exact plainHost_works
  · rw [List.mem_singleton.mp hpod]
    exact plainHost_works

end Vshift
