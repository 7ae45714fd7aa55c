import Vshift.Crashes

/- Jobs at their end, and where they are filed.

   A worker stores the summary of a job it has transcoded before the record says completed, and
   whoever fails a job pushes its id to the dead-letter queue after the record says failed. So
   whatever order the processes take their commands in, and wherever they are killed, a completed
   job has a result of the transcoder and a summary; a failed job is in the dead-letter queue, or
   some process stands, or was stopped, right between its save and its push (`ended_filed`).
   `failed_unfiled` is a run where one was. -/
namespace Vshift
open Command Program

/-- The last thing the process did was to save the job as failed: it has stored the record, or
    added the id to the set too. -/
def Proc.Unfiled (p : Proc) (id : Uuid) : Prop :=
  ∃ job ex past, job.id = id ∧ job.state = .failed ∧
    (p.past = ⟨.setJob job ex, ()⟩ :: past ∨
      p.past = ⟨.saddState .failed id, ()⟩ :: ⟨.setJob job ex, ()⟩ :: past)

/-- The transcoder has returned a result for this job to the process. -/
def Proc.Transcoded (p : Proc) (job : TranscodeJob) : Prop :=
  ∃ result, ⟨.transcode job, .ok result⟩ ∈ p.past

/-- Jobs at their end are filed, as far as no process is about to. -/
structure EndsFiled (s : Cluster) : Prop where
  completed : ∀ id job, s.store.jobs id = some job → job.state = .completed →
    ∃ summary, s.store.summaries id = some summary ∧ summary.jobId = id
  transcoded : ∀ id job, s.store.jobs id = some job → job.state = .completed →
    ∃ p ∈ s.procs, ∃ before, Proc.Transcoded p before ∧ before.id = id ∧
      before.outputPath = job.outputPath
  failed : ∀ id job, s.store.jobs id = some job → job.state = .failed →
    id ∈ s.store.deadLetterQueue ∨ ∃ p ∈ s.procs, Proc.Unfiled p id
  dead : ∀ id ∈ s.store.deadLetterQueue, ∃ p ∈ s.procs, ∃ job, Proc.Wrote p job ∧ job.id = id ∧
    job.state = .failed

/-! What a process has done towards the ends of jobs. -/

/-- Where a process is in failing a job. -/
inductive FailStage where
  | still
  /-- It has stored the record. -/
  | stored (id : Uuid)
  /-- It has added the id to the set of failed jobs. -/
  | indexed (id : Uuid)
  deriving DecidableEq

/-- The id the process is about to push. -/
def FailStage.owes : FailStage → Option Uuid
  | still => none
  | stored id => some id
  | indexed id => some id

structure Clerk where
  /-- The jobs the transcoder has returned a result for. -/
  transcoded : List TranscodeJob
  /-- The jobs whose summaries it has stored. -/
  summaries : List Uuid
  /-- The jobs it has stored as failed. -/
  failed : List Uuid
  failing : FailStage

namespace Clerk

def initial : Clerk := ⟨[], [], [], .still⟩

def Still (t : Clerk) : Prop := t.failing = .still

/-- The output of the job has been made. -/
def Made (t : Clerk) (job : TranscodeJob) : Prop :=
  ∃ before ∈ t.transcoded, before.id = job.id ∧ before.outputPath = job.outputPath

/-- The job may be stored as completed. -/
def Complete (t : Clerk) (job : TranscodeJob) : Prop := t.Made job ∧ job.id ∈ t.summaries

/-- After a record has been stored. -/
def stored (t : Clerk) (job : TranscodeJob) : Clerk :=
  if job.state = .failed then
    { t with failed := job.id :: t.failed, failing := .stored job.id }
  else t

/-- After the whole save. -/
def saved (t : Clerk) (job : TranscodeJob) : Clerk :=
  if job.state = .failed then
    { t with failed := job.id :: t.failed, failing := .indexed job.id }
  else t

end Clerk

def filing : Protocol Cmd Reply Clerk where
  allows t
    | .setJob job _ => t.Still ∧ (job.state = .completed → t.Complete job)
    | .saddState state id => t.Still ∨ t.failing = .stored id ∧ state = .failed
    | .lpushDeadLetter id => t.failing = .indexed id
    | _ => t.Still
  expects _
    | .buildSummary job _, built => ∀ summary, built = .ok summary → summary.jobId = job.id
    | _, _ => True
  next t
    | .transcode job, .ok _ => { t with transcoded := job :: t.transcoded }
    | .setSummary summary _, _ => { t with summaries := summary.jobId :: t.summaries }
    | .setJob job _, _ => t.stored job
    | .saddState _ id, _ =>
      if t.failing = .stored id then { t with failing := .indexed id } else t
    | .lpushDeadLetter _, _ => { t with failing := .still }
    | _, _ => t

/-- The commands that have nothing to do with the ends of jobs. -/
def Cmd.Aside : Cmd → Prop
  | .setJob _ _ | .saddState _ _ | .lpushDeadLetter _ | .setSummary _ _ => False
  | .transcode _ | .buildSummary _ _ => False
  | _ => True

section
variable {ctx : Context} {t : Clerk} {job : TranscodeJob} {worker : Uuid}

theorem aside_next {c : Cmd} (hc : c.Aside) (t : Clerk) (r : Reply c) : filing.next t c r = t := by
  cases c <;> first | rfl | exact hc.elim

theorem aside_allows {c : Cmd} (hc : c.Aside) (h : t.Still) : filing.allows t c := by
  cases c <;> first | exact h | exact hc.elim

theorem aside_bind {β : Type} {c : Cmd} {f : Reply c → Prog β} {Q : Except Exn β → Clerk → Prop}
    (hc : c.Aside) (h : t.Still) (hf : ∀ r, (f r).Obeys filing Q t) :
    (cmd c >>= f).Obeys filing Q t := by
  refine (obeys_call_bind _ _ _).mpr ⟨aside_allows hc h, fun r _ => ?_⟩
  rw [aside_next hc]
  exact hf r

theorem aside_call {c : Cmd} (hc : c.Aside) (h : t.Still) :
    (cmd c).Obeys filing (fun _ t' => t'.Still) t := by
  refine ⟨aside_allows hc h, fun r _ => ?_⟩
  rw [aside_next hc]
  exact h

/-- A save of a failed record leaves its id to be pushed. -/
theorem filing_saveJob (h : t.Still) (hdone : job.state = .completed → t.Complete job) :
    (saveJob ctx job).Obeys filing (fun r t' => r = .ok () ∧ t' = t.saved job) t := by
  have hreplaces : Replaces filing ctx job (fun r t' => r = .ok () ∧ t' = t.saved job) t := by
    refine (obeys_call_bind _ _ _).mpr ⟨⟨h, hdone⟩, fun _ _ => ?_⟩
    show (cmd (.saddState job.state job.id)).Obeys filing _ (t.stored job)
    unfold Clerk.stored Clerk.saved
    by_cases hs : job.state = .failed
    · rw [if_pos hs, if_pos hs]
      exact ⟨.inr ⟨rfl, hs⟩, fun _ _ => ⟨rfl, if_pos rfl⟩⟩
    · rw [if_neg hs, if_neg hs]
      refine ⟨.inl h, fun _ _ => ⟨rfl, if_neg ?_⟩⟩
      rw [show t.failing = .still from h]
      exact FailStage.noConfusion
  exact saveJob_obeys h (fun _ _ _ => hreplaces) fun _ _ _ => ⟨h, fun _ _ => hreplaces⟩

theorem filing_save_then {α : Type} {f : Unit → Prog α} {Q : Except Exn α → Clerk → Prop}
    (h : t.Still) (hdone : job.state = .completed → t.Complete job)
    (hrest : (f ()).Obeys filing Q (t.saved job)) : (saveJob ctx job >>= f).Obeys filing Q t :=
  (filing_saveJob h hdone).seq (fun _ _ h => h.2 ▸ hrest) (fun _ _ h => by cases h.1)

/-- A save of a record in another state leaves nothing to be done. -/
theorem filing_open_then {α : Type} {f : Unit → Prog α} {Q : Except Exn α → Clerk → Prop}
    (h : t.Still) (hs : ¬ job.state.Terminal) (hrest : (f ()).Obeys filing Q t) :
    (saveJob ctx job >>= f).Obeys filing Q t := by
  refine filing_save_then h (fun hc => absurd (.inl hc) hs) ?_
  rw [Clerk.saved, if_neg fun hf => hs (.inr hf)]
  exact hrest

theorem filing_heartbeat (h : t.Still) :
    (heartbeat ctx worker).Obeys filing (fun _ t' => t'.Still) t := by
  refine aside_bind trivial h fun payload => ?_
  cases payload with
  | none => exact h
  | some info => exact aside_bind trivial h fun now => aside_call trivial h

theorem filing_claimJob (h : t.Still) :
    (claimJob ctx worker).Obeys filing (fun _ t' => t'.Still) t := by
  refine aside_bind trivial h fun popped => ?_
  cases popped with
  | none => exact h
  | some id =>
    refine aside_bind trivial h fun stored => ?_
    cases stored with
    | none => exact h
    | some job =>
      dsimp only
      split
      · exact h
      · refine transitionTo_obeys (fun _ => ?_) (fun _ => h)
        refine aside_bind trivial h fun now => filing_open_then h (by simp [JobState.Terminal]) ?_
        exact aside_bind trivial h fun _ => (filing_heartbeat h).seq (fun _ _ h => h) fun _ _ h => h

theorem filing_startTranscode (h : t.Still) :
    (startTranscode ctx worker job).Obeys filing (fun _ t' => t'.Still) t := by
  have hassert : (assertWorkerOwnsJob worker job).Obeys filing (fun _ t' => t'.Still) t := by
    unfold assertWorkerOwnsJob
    split
    · exact h
    · split <;> exact h
  refine hassert.seq (fun _ t₁ h₁ => ?_) (fun _ _ h => h)
  refine transitionTo_obeys (fun _ => ?_) (fun _ => h₁)
  refine aside_bind trivial h₁ fun now => filing_open_then h₁ (by simp [JobState.Terminal]) ?_
  exact aside_bind trivial h₁ fun _ => h₁

/-- The summary is stored first, for the job whose record is completed then. -/
theorem filing_writeSummary (result : TranscodeResult) (h : t.Still) (hjob : job ∈ t.transcoded) :
    (writeSummary ctx job result).Obeys filing (fun _ t' => t'.Still) t := by
  unfold writeSummary
  split
  · exact h
  · refine (obeys_call_bind _ _ _).mpr ⟨h, fun outcome hid => ?_⟩
    refine (obeys_bind _ _ _).mpr ((obeys_ofExcept _ _).mpr ?_)
    cases outcome with
    | error e => exact h
    | ok summary =>
      refine (obeys_call_bind _ _ _).mpr ⟨h, fun _ _ => ?_⟩
      refine transitionTo_obeys (fun _ => ?_) (fun _ => h)
      refine aside_bind trivial h fun now => filing_save_then h (fun _ => ?_) ?_
      · exact ⟨⟨job, hjob, rfl, rfl⟩, List.mem_cons.mpr (.inl (hid summary rfl).symm)⟩
      · exact h

theorem filing_failJob (error : String) (h : t.Still) :
    (failJob ctx job error).Obeys filing (fun _ t' => t'.Still) t := by
  refine transitionTo_obeys (fun _ => ?_) (fun _ => h)
  refine aside_bind trivial h fun now => filing_save_then h (fun hc => by cases hc) ?_
  exact ⟨rfl, fun _ _ => rfl⟩

theorem filing_requeueJob (error : String) (h : t.Still) :
    (requeueJob ctx job error).Obeys filing (fun _ t' => t'.Still) t := by
  refine transitionTo_obeys (fun _ => ?_) (fun _ => h)
  refine filing_open_then h (by simp [JobState.Terminal]) ?_
  exact aside_bind trivial h fun _ => h

theorem filing_handleError (message : String) (h : t.Still) :
    (handleError ctx worker job message).Obeys filing (fun _ t' => t'.Still) t := by
  refine aside_bind trivial h fun stored => ?_
  unfold handleJobFailure
  split
  · exact h
  · split
    · exact h
    · split
      · exact filing_failJob message h
      · exact filing_requeueJob message h

theorem filing_processNextJob (h : t.Still) :
    (processNextJob ctx worker).Obeys filing (fun _ t' => t'.Still) t := by
  refine processNextJob_parts (fun _ => Clerk.Still) (fun _ _ => Clerk.Still)
    (fun _ processing _ t => t.Still ∧ processing ∈ t.transcoded) (fun _ _ => Clerk.Still)
    (fun _ => Clerk.Still) ?_ ?_ ?_ ?_ ?_ ?_ ?_
  · refine (filing_claimJob h).mono fun r t' h => ?_
    cases r with
    | ok claimed => cases claimed <;> exact h
    | error e => exact h
  · intro job t h
    refine (filing_startTranscode h).mono fun r t' h => ?_
    cases r <;> exact h
  · refine fun job processing t h => ⟨h, fun r _ => ?_⟩
    cases r with
    | ok result => exact ⟨h, List.mem_cons_self⟩
    | error e => exact h
  · intro job processing result t h
    refine (filing_writeSummary result h.1 h.2).mono fun r t' h => ?_
    cases r <;> exact h
  · intro job message t h
    exact (filing_handleError message h).mono fun _ _ h => h
  · exact fun job name t h => h
  · exact fun job t h => ⟨h, fun _ _ => h⟩

theorem filing_recoverStaleJobs (h : t.Still) :
    (recoverStaleJobs ctx).Obeys filing (fun _ t' => t'.Still) t := by
  have hkeep : ∀ (job : TranscodeJob) (t : Clerk) (c : Cmd) (r : Reply c), True → True :=
    fun _ _ _ _ h => h
  refine recoverStaleJobs_obeys Clerk.Still (fun _ _ => True) hkeep ?_ ?_ h
  · intro state t _ h
    refine listByState_obeys (fun _ => Clerk.Still) hkeep (fun _ _ h => h) h fun ids _ => ⟨h, ?_⟩
    exact fun id _ t h => ⟨h, fun _ _ => ⟨h, fun _ _ => trivial⟩⟩
  · intro job t h _
    refine ⟨h, fun alive _ => ⟨h, fun _ => ?_⟩⟩
    unfold recoverJob
    split
    · exact filing_failJob _ h
    · exact filing_requeueJob _ h

theorem filing_enqueueJob (probed : ProbedInput) (chosen : ProfileMatch) (h : t.Still) :
    (enqueueJob ctx probed chosen).Obeys filing (fun _ t' => t'.Still) t := by
  refine aside_bind trivial h fun known => ?_
  cases known with
  | true => exact h
  | false =>
    refine aside_bind trivial h fun id => aside_bind trivial h fun now => ?_
    refine filing_open_then h (by simp [newJob, JobState.Terminal]) ?_
    exact aside_bind trivial h fun _ => aside_bind trivial h fun _ => h

theorem code_filing (ctx : Context) (l : Label) :
    (code ctx l).Obeys filing (fun _ t => t.Still) Clerk.initial := by
  have hstill : Clerk.initial.Still := rfl
  cases l with
  | enqueueJob probed chosen =>
    exact (obeys_discard _ _).mpr (filing_enqueueJob probed chosen hstill)
  | scanInputFolder candidates =>
    exact (obeys_discard _ _).mpr (scanInputFolder_obeys (fun path t h => ⟨h, fun r _ => h⟩)
      (fun probed chosen t h => filing_enqueueJob probed chosen h) Clerk.initial hstill)
  | recoverStaleJobs => exact (obeys_discard _ _).mpr (filing_recoverStaleJobs hstill)
  | processNextJob worker => exact (obeys_discard _ _).mpr (filing_processNextJob hstill)

end

/-! The invariant. -/

/-- The job has a summary, and it is its own. -/
def World.Summed (w : World) (id : Uuid) : Prop :=
  ∃ summary, w.summaries id = some summary ∧ summary.jobId = id

/-- What is not filed yet, some process has still to push. -/
structure Shelved (w : World) (K : Nat → Option Clerk) : Prop where
  ids : ∀ {id job}, w.jobs id = some job → job.id = id
  completed : ∀ {id job}, w.jobs id = some job → job.state = .completed → w.Summed id
  made : ∀ {id job}, w.jobs id = some job → job.state = .completed →
    ∃ i t, K i = some t ∧ t.Made job
  failed : ∀ {id job}, w.jobs id = some job → job.state = .failed →
    Backed (id ∈ w.deadLetterQueue) (fun t => t.failing.owes = some id) K
  dead : ∀ id ∈ w.deadLetterQueue, ∃ i t, K i = some t ∧ id ∈ t.failed
  summaries : Each (fun t => ∀ id ∈ t.summaries, w.Summed id) K
  owed : Each (fun t => ∀ id, t.failing.owes = some id → id ∈ t.failed) K

section
variable {w w' : World} {K : Nat → Option Clerk} {pid : Nat} {t t' : Clerk} {id : Uuid}

/-- What some process knows, and what is not forgotten in a step, some process knows after it. -/
theorem known_step {Φ : Clerk → Prop} (hk : K pid = some t) (hmore : Φ t → Φ t')
    (h : ∃ i u, K i = some u ∧ Φ u) :
    ∃ i u, Function.update K pid (some t') i = some u ∧ Φ u := by
  have hbacked : Backed False Φ K := .inr h
  exact (hbacked.step hk False.elim fun hΦ => .inr (hmore hΦ)).resolve_left id

/-- The same for a new process. -/
theorem known_start {Φ : Clerk → Prop} (hk : K pid = none) (h : ∃ i u, K i = some u ∧ Φ u) :
    ∃ i u, Function.update K pid (some t') i = some u ∧ Φ u := by
  have hbacked : Backed False Φ K := .inr h
  exact (hbacked.start hk).resolve_left id

theorem Clerk.Made.more {job : TranscodeJob} (h : t.Made job)
    (hmore : t.transcoded ⊆ t'.transcoded) : t'.Made job := by
  obtain ⟨before, hmem, hbefore⟩ := h
  exact ⟨before, hmore hmem, hbefore⟩

/-- A step that leaves the records, the summaries and the dead-letter queue. -/
theorem Shelved.same (h : Shelved w K) (hk : K pid = some t) (hjobs : w'.jobs = w.jobs)
    (hsummaries : w'.summaries = w.summaries) (hdead : w'.deadLetterQueue = w.deadLetterQueue)
    (hmade : t.transcoded ⊆ t'.transcoded) (hsummed : t'.summaries = t.summaries)
    (hfailed : t'.failed = t.failed) (howes : t'.failing.owes = t.failing.owes) :
    Shelved w' (Function.update K pid (some t')) := by
  have hsame : ∀ id, w.Summed id → w'.Summed id := by
    rintro id ⟨summary, hs, hid⟩
    exact ⟨summary, hsummaries ▸ hs, hid⟩
  refine ⟨fun hj => h.ids (hjobs ▸ hj), fun hj hs => hsame _ (h.completed (hjobs ▸ hj) hs),
    fun hj hs => known_step hk (·.more hmade) (h.made (hjobs ▸ hj) hs), fun hj hs => ?_,
    fun id hid => ?_, ?_, ?_⟩
  · refine (h.failed (hjobs ▸ hj) hs).step hk (fun hq => .inl (hdead ▸ hq)) fun hq => .inr ?_
    rw [howes]
    exact hq
  · exact known_step hk (fun hmem => hfailed ▸ hmem) (h.dead id (hdead ▸ hid))
  · refine Each.set (fun id hid => ?_) fun i u _ hu id hid => hsame id (h.summaries i u hu id hid)
    exact hsame id (h.summaries pid t hk id (hsummed ▸ hid))
  · refine Each.set (fun id hid => ?_) fun i u _ hu => h.owed i u hu
    rw [hfailed]
    exact h.owed pid t hk id (howes ▸ hid)

/-- The environment changes something else. -/
theorem Shelved.congr (h : Shelved w K) (hjobs : w'.jobs = w.jobs)
    (hsummaries : w'.summaries = w.summaries) (hdead : w'.deadLetterQueue = w.deadLetterQueue) :
    Shelved w' K := by
  have hsame : ∀ id, w.Summed id → w'.Summed id := by
    rintro id ⟨summary, hs, hid⟩
    exact ⟨summary, hsummaries ▸ hs, hid⟩
  exact ⟨fun hj => h.ids (hjobs ▸ hj), fun hj hs => hsame _ (h.completed (hjobs ▸ hj) hs),
    fun hj hs => h.made (hjobs ▸ hj) hs, fun hj hs => hdead ▸ h.failed (hjobs ▸ hj) hs,
    fun id hid => h.dead id (hdead ▸ hid), h.summaries.mono fun u hu id hid => hsame id (hu id hid),
    h.owed⟩

theorem Shelved.setJob (h : Shelved w K) (hk : K pid = some t) {job : TranscodeJob} {ex : Nat}
    (ha : filing.allows t (.setJob job ex)) :
    Shelved (w.effect (.setJob job ex) ()) (Function.update K pid (some (t.stored job))) := by
  obtain ⟨hstill, hdone⟩ := ha
  have hcases : ∀ {id stored}, (w.effect (.setJob job ex) ()).jobs id = some stored →
      id = job.id ∧ stored = job ∨ w.jobs id = some stored := by
    intro id stored hj
    have hj' : Function.update w.jobs job.id (some job) id = some stored := hj
    rw [Function.update_apply] at hj'
    split at hj'
    · next hid => exact .inl ⟨hid, (Option.some.inj hj').symm⟩
    · exact .inr hj'
  have hnone : t.failing.owes = none := by
    rw [show t.failing = .still from hstill]
    rfl
  have howes : job.state = .failed → (t.stored job).failing.owes = some job.id := by
    intro hs
    rw [Clerk.stored, if_pos hs]
    rfl
  have hmore : t.failed ⊆ (t.stored job).failed := by
    unfold Clerk.stored
    split
    · exact List.subset_cons_self ..
    · exact List.Subset.refl _
  have hsame : (t.stored job).transcoded = t.transcoded := by
    unfold Clerk.stored
    split <;> rfl
  refine ⟨fun hj => ?_, fun hj hs => ?_, fun hj hs => ?_, fun hj hs => ?_, fun id hid => ?_, ?_, ?_⟩
  · rcases hcases hj with ⟨rfl, rfl⟩ | hold
    · rfl
    · exact h.ids hold
  · rcases hcases hj with ⟨rfl, rfl⟩ | hold
    · exact h.summaries pid t hk _ (hdone hs).2
    · exact h.completed hold hs
  · have hmade : t.transcoded ⊆ (t.stored job).transcoded := hsame ▸ List.Subset.refl _
    rcases hcases hj with ⟨rfl, rfl⟩ | hold
    · exact ⟨pid, _, Function.update_self .., (hdone hs).1.more hmade⟩
    · exact known_step hk (·.more hmade) (h.made hold hs)
  · rcases hcases hj with ⟨rfl, rfl⟩ | hold
    · exact .inr ⟨pid, _, Function.update_self .., howes hs⟩
    · refine (h.failed hold hs).step hk .inl fun hq => ?_
      rw [hnone] at hq
      cases hq
  · exact known_step hk (fun hmem => hmore hmem) (h.dead id hid)
  · refine Each.set (fun id hid => ?_) fun i u _ hu => h.summaries i u hu
    refine h.summaries pid t hk id ?_
    unfold Clerk.stored at hid
    split at hid <;> exact hid
  · refine Each.set (fun id hid => ?_) fun i u _ hu => h.owed i u hu
    unfold Clerk.stored at hid ⊢
    split at hid
    · next hs =>
      rw [if_pos hs]
      cases hid
      exact List.mem_cons_self
    · rw [hnone] at hid
      cases hid

theorem Shelved.setSummary (h : Shelved w K) (hk : K pid = some t) (summary : JobSummary)
    (ex : Nat) : Shelved (w.effect (.setSummary summary ex) ())
      (Function.update K pid (some { t with summaries := summary.jobId :: t.summaries })) := by
  have hself : (w.effect (.setSummary summary ex) ()).Summed summary.jobId :=
    ⟨summary, Function.update_self .., rfl⟩
  have hkeep : ∀ id, w.Summed id → (w.effect (.setSummary summary ex) ()).Summed id := by
    rintro id ⟨before, hs, hid⟩
    by_cases he : id = summary.jobId
    · exact he ▸ hself
    · exact ⟨before, (Function.update_of_ne he ..).trans hs, hid⟩
  refine ⟨h.ids, fun hj hs => hkeep _ (h.completed hj hs),
    fun hj hs => known_step hk (fun hmade => hmade) (h.made hj hs), fun hj hs => ?_,
    fun id hid => ?_, ?_, ?_⟩
  · exact (h.failed hj hs).step hk .inl .inr
  · exact known_step hk (fun hmem => hmem) (h.dead id hid)
  · refine Each.set (fun id hid => ?_) fun i u _ hu id hid => hkeep id (h.summaries i u hu id hid)
    rcases List.mem_cons.mp hid with rfl | hid
    · exact hself
    · exact hkeep id (h.summaries pid t hk id hid)
  · exact Each.set (h.owed pid t hk) fun i u _ hu => h.owed i u hu

theorem Shelved.lpushDeadLetter (h : Shelved w K) (hk : K pid = some t)
    (ha : filing.allows t (.lpushDeadLetter id)) :
    Shelved (w.effect (.lpushDeadLetter id) ())
      (Function.update K pid (some { t with failing := .still })) := by
  have howes : t.failing.owes = some id := by
    rw [show t.failing = .indexed id from ha]
    rfl
  have hqueue : ∀ other, other ∈ (w.effect (.lpushDeadLetter id) ()).deadLetterQueue ↔
      other ∈ w.deadLetterQueue ∨ other = id := by
    intro other
    show other ∈ w.deadLetterQueue ++ [id] ↔ _
    rw [List.mem_append, List.mem_singleton]
  refine ⟨h.ids, h.completed, fun hj hs => known_step hk (fun hmade => hmade) (h.made hj hs),
    fun hj hs => ?_, fun other hother => ?_, ?_, ?_⟩
  · refine (h.failed hj hs).step hk (fun hq => .inl ((hqueue _).mpr (.inl hq))) fun hq => .inl ?_
    rw [howes, Option.some.injEq] at hq
    exact (hqueue _).mpr (.inr hq.symm)
  · rcases (hqueue other).mp hother with hold | rfl
    · exact known_step hk (fun hmem => hmem) (h.dead other hold)
    · exact ⟨pid, _, Function.update_self .., h.owed pid t hk other howes⟩
  · exact Each.set (h.summaries pid t hk) fun i u _ hu => h.summaries i u hu
  · refine Each.set (fun other hq => ?_) fun i u _ hu => h.owed i u hu
    cases hq

theorem Shelved.exec (h : Shelved w K) {c : Cmd} {x : Choice} {r : Reply c}
    (hk : K pid = some t) (ha : filing.allows t c) (hr : World.answer w c x = some r) :
    filing.expects t c r ∧
      Shelved (w.effect c r) (Function.update K pid (some (filing.next t c r))) := by
  cases c with
  | setJob job ex => exact ⟨trivial, h.setJob hk ha⟩
  | setSummary summary ex => exact ⟨trivial, h.setSummary hk summary ex⟩
  | lpushDeadLetter id => exact ⟨trivial, h.lpushDeadLetter hk ha⟩
  | saddState state id =>
    -- the id it owes stays the same
    have hnext : filing.next t (.saddState state id) r =
        if t.failing = .stored id then { t with failing := .indexed id } else t := rfl
    rw [hnext]
    split
    · next hstored =>
      refine ⟨trivial, h.same hk rfl rfl rfl (List.Subset.refl _) rfl rfl ?_⟩
      rw [hstored]
      rfl
    · exact ⟨trivial, h.same hk rfl rfl rfl (List.Subset.refl _) rfl rfl rfl⟩
  | buildSummary job result =>
    refine ⟨fun summary hbuilt => ?_, h.same hk rfl rfl rfl (List.Subset.refl _) rfl rfl rfl⟩
    subst hbuilt
    exact World.answer_buildSummary hr
  | transcode job =>
    cases r with
    | ok result => exact ⟨trivial, h.same hk rfl rfl rfl (List.subset_cons_self ..) rfl rfl rfl⟩
    | error e => exact ⟨trivial, h.same hk rfl rfl rfl (List.Subset.refl _) rfl rfl rfl⟩
  | _ => exact ⟨trivial, h.same hk rfl rfl rfl (List.Subset.refl _) rfl rfl rfl⟩

end

/-! Runs. -/

/-- What a process knows of its own past. -/
structure Clerk.Recalls (past : List (Event Cmd Reply)) (t : Clerk) : Prop where
  transcoded : ∀ job ∈ t.transcoded, ∃ result, ⟨.transcode job, .ok result⟩ ∈ past
  failed : ∀ id ∈ t.failed, ∃ job ex, ⟨.setJob job ex, ()⟩ ∈ past ∧ job.id = id ∧
    job.state = .failed
  stored : ∀ id, t.failing = .stored id → ∃ job ex rest, job.id = id ∧ job.state = .failed ∧
    past = ⟨.setJob job ex, ()⟩ :: rest
  indexed : ∀ id, t.failing = .indexed id → ∃ job ex rest, job.id = id ∧ job.state = .failed ∧
    past = ⟨.saddState .failed id, ()⟩ :: ⟨.setJob job ex, ()⟩ :: rest

theorem clerk_recalls_step {past : List (Event Cmd Reply)} {t : Clerk} {c : Cmd} {r : Reply c}
    (h : t.Recalls past) (ha : filing.allows t c) :
    (filing.next t c r).Recalls (⟨c, r⟩ :: past) := by
  have hmade : ∀ job ∈ t.transcoded, ∃ result,
      ⟨.transcode job, .ok result⟩ ∈ (⟨c, r⟩ :: past : List _) := by
    intro job hjob
    obtain ⟨result, hmem⟩ := h.transcoded job hjob
    exact ⟨result, List.mem_cons_of_mem _ hmem⟩
  have hfailed : ∀ id ∈ t.failed, ∃ job ex, ⟨.setJob job ex, ()⟩ ∈ (⟨c, r⟩ :: past : List _) ∧
      job.id = id ∧ job.state = .failed := by
    intro id hid
    obtain ⟨job, ex, hmem, hjob⟩ := h.failed id hid
    exact ⟨job, ex, List.mem_cons_of_mem _ hmem, hjob⟩
  have hnone : t.Still → ∀ id, t.failing ≠ .stored id ∧ t.failing ≠ .indexed id := by
    intro hs
    rw [show t.failing = .still from hs]
    exact fun id => ⟨FailStage.noConfusion, FailStage.noConfusion⟩
  have hstill : t.Still → t.Recalls (⟨c, r⟩ :: past) := fun hs =>
    ⟨hmade, hfailed, fun id hid => absurd hid (hnone hs id).1,
      fun id hid => absurd hid (hnone hs id).2⟩
  cases c with
  | transcode job =>
    cases r with
    | error e => exact hstill ha
    | ok result =>
      have hrecalls := hstill ha
      refine ⟨fun job' hjob => ?_, hrecalls.failed, hrecalls.stored, hrecalls.indexed⟩
      rcases List.mem_cons.mp hjob with rfl | hjob
      · exact ⟨result, List.mem_cons_self⟩
      · exact hmade job' hjob
  | setJob job ex =>
    show (t.stored job).Recalls _
    unfold Clerk.stored
    split
    · next hs =>
      refine ⟨hmade, fun id hid => ?_, fun id hid => ?_, fun id hid => (by cases hid)⟩
      · rcases List.mem_cons.mp hid with rfl | hid
        · exact ⟨job, ex, List.mem_cons_self, rfl, hs⟩
        · exact hfailed id hid
      · cases hid
        exact ⟨job, ex, past, rfl, hs, rfl⟩
    · exact hstill ha.1
  | saddState state id =>
    show (if t.failing = .stored id then { t with failing := .indexed id } else t : Clerk).Recalls _
    split
    · next hstored =>
      refine ⟨hmade, hfailed, fun id' hid => (by cases hid), fun id' hid => ?_⟩
      cases hid
      obtain ⟨job, ex, rest, hid, hs, hpast⟩ := h.stored id hstored
      rcases ha with hnone | ⟨-, hstate⟩
      · cases hstored.symm.trans hnone
      · subst hstate
        exact ⟨job, ex, rest, hid, hs, by rw [hpast]⟩
    · next hother =>
      exact hstill (ha.resolve_right fun hstored => hother hstored.1)
  | setSummary summary ex =>
    have hrecalls := hstill ha
    exact ⟨hrecalls.transcoded, hrecalls.failed, hrecalls.stored, hrecalls.indexed⟩
  | lpushDeadLetter id =>
    exact ⟨hmade, hfailed, fun _ hid => (by cases hid), fun _ hid => (by cases hid)⟩
  | _ => exact hstill ha

/-- Every process keeps to the order of filing, and what is not filed yet is its to push. -/
def Cluster.Kept (s : Cluster) : Prop :=
  Obeying filing (fun _ => Clerk.initial) Clerk.Still s ∧
    Shelved s.store (s.knows filing fun _ => Clerk.initial)

theorem kept_initial : Cluster.Kept Cluster.initial := by
  refine ⟨fun p hp => (by cases hp), ?_⟩
  exact ⟨fun hj => (by cases hj), fun hj => (by cases hj), fun hj => (by cases hj),
    fun hj => (by cases hj), fun id hid => (by cases hid), fun i t ht => (by cases ht),
    fun i t ht => (by cases ht)⟩

theorem kept_step {ctx : Context} (s : Cluster) (a : Act) (h : s.Kept)
    (ha : OnlyHeartbeatsLapse a) : Cluster.Kept ((deployment ctx).step s a) := by
  refine pool_step Shelved h.1 h.2 (S := deployment ctx) (fun l _ => code_filing ctx l) ?_ ?_ ?_
  · intro l pid _ hnone
    refine ⟨h.2.ids, h.2.completed, fun hj hs => known_start hnone (h.2.made hj hs),
      fun hj hs => (h.2.failed hj hs).start hnone,
      fun id hid => known_start hnone (h.2.dead id hid), ?_, ?_⟩
    · exact Each.set (fun id hid => (by cases hid)) fun i u _ hu => h.2.summaries i u hu
    · exact Each.set (fun id hid => (by cases hid)) fun i u _ hu => h.2.owed i u hu
  · exact fun pid x l past c k r _ _ hk hallow hr => h.2.exec hk hallow hr
  · rintro e rfl
    -- the clock, the files and the heartbeats are no concern of the filing
    cases e with
    | clock now => exact h.2.congr rfl rfl rfl
    | media path outcome => exact h.2.congr rfl rfl rfl
    | expire key =>
      cases key with
      | jobHeartbeat id => exact h.2.congr rfl rfl rfl
      | _ => exact ha.elim

theorem Cluster.Kept.filed {s : Cluster} (h : s.Kept) : EndsFiled s := by
  have hrecalls : ∀ p ∈ s.procs,
      (filing.after Clerk.initial p.past).Recalls p.past := by
    intro p hp
    refine Protocol.Kept.after (P := filing) (fun past t => t.Recalls past) ?_
      (fun past t c r hrecalls hallows _ => clerk_recalls_step hrecalls hallows) (h.1 p hp).1
    exact ⟨fun _ hid => (by cases hid), fun _ hid => (by cases hid), fun _ hid => (by cases hid),
      fun _ hid => (by cases hid)⟩
  refine ⟨fun id job hj hs => h.2.completed hj hs, fun id job hj hs => ?_, fun id job hj hs => ?_,
    fun id hid => ?_⟩
  · obtain ⟨pid, t, ht, before, hbefore, hid, hpath⟩ := h.2.made hj hs
    obtain ⟨p, hp, rfl⟩ := Pool.knows_iff.mp ht
    have hmem := List.mem_of_getElem? hp
    exact ⟨p, hmem, before, (hrecalls p hmem).transcoded before hbefore,
      hid.trans (h.2.ids hj), hpath⟩
  · rcases h.2.failed hj hs with hdead | ⟨pid, t, ht, howes⟩
    · exact .inl hdead
    · obtain ⟨p, hp, rfl⟩ := Pool.knows_iff.mp ht
      have hmem := List.mem_of_getElem? hp
      refine .inr ⟨p, hmem, ?_⟩
      cases hf : (filing.after Clerk.initial p.past).failing with
      | still =>
        rw [hf] at howes
        cases howes
      | stored id' =>
        rw [hf] at howes
        cases howes
        obtain ⟨job, ex, rest, hjob, hfailed, hpast⟩ := (hrecalls p hmem).stored id hf
        exact ⟨job, ex, rest, hjob, hfailed, .inl hpast⟩
      | indexed id' =>
        rw [hf] at howes
        cases howes
        obtain ⟨job, ex, rest, hjob, hfailed, hpast⟩ := (hrecalls p hmem).indexed id hf
        exact ⟨job, ex, rest, hjob, hfailed, .inr hpast⟩
  · obtain ⟨pid, t, ht, hfailed⟩ := h.2.dead id hid
    obtain ⟨p, hp, rfl⟩ := Pool.knows_iff.mp ht
    have hmem := List.mem_of_getElem? hp
    obtain ⟨job, ex, hwrote, hjob, hs⟩ := (hrecalls p hmem).failed id hfailed
    exact ⟨p, hmem, job, ⟨ex, hwrote⟩, hjob, hs⟩

/-- At any time in any run in which only heartbeats lapse, completed jobs have been transcoded and
    have their summaries, and failed ones are in the dead-letter queue, unless some process stands
    or was stopped right before it pushes the id. -/
theorem ended_filed (ctx : Context) (acts : List Act) (h : ∀ a ∈ acts, OnlyHeartbeatsLapse a) :
    EndsFiled ((deployment ctx).run Cluster.initial acts) := by
  have hmeets : Meets (deployment ctx).step (fun _ => OnlyHeartbeatsLapse) Cluster.initial acts :=
    meets_of_forall (fun a ha _ => h a ha) _
  exact (run_invariant Cluster.Kept kept_step kept_initial hmeets).filed

/-- Worker 8 claims the job again and is killed as soon as its record says claimed, and the pass
    that fails the job is killed before it pushes the id. -/
def killedBeforePush : List Act := killedWhileTranscoding ++
  [.spawn (.processNextJob 8), .exec 3 .go, .exec 3 .go, .exec 3 .go, .exec 3 .go, .exec 3 .go,
    .exec 3 .go, .exec 3 .go, .kill 3, .spawn .recoverStaleJobs, .exec 4 (.order [1]),
    .exec 4 .go, .exec 4 .go, .exec 4 .go, .exec 4 .go, .exec 4 .go, .exec 4 .go,
    .exec 4 .go, .kill 4]

theorem ended_filed_killedBeforePush :
    EndsFiled ((deployment smallContext).run Cluster.initial killedBeforePush) :=
  ended_filed _ _ (by simp [killedBeforePush, killedWhileTranscoding, OnlyHeartbeatsLapse])

set_option maxRecDepth 2000 in
/-- Its record stays failed, and nobody is left to push the id. -/
theorem failed_unfiled : ∃ as : List Act, (∀ a ∈ as, OnlyHeartbeatsLapse a) ∧
    (∀ p ∈ ((deployment smallContext).run Cluster.initial as).procs, p.Ended) ∧
    ∃ job, ((deployment smallContext).run Cluster.initial as).store.jobs 1 = some job ∧
      job.state = .failed ∧
      ((deployment smallContext).run Cluster.initial as).store.deadLetterQueue = [] := by
  refine ⟨killedBeforePush, ?_, fun p hp => ?_, _, rfl, rfl, rfl⟩
  · simp [killedBeforePush, killedWhileTranscoding, OnlyHeartbeatsLapse]
  · rcases hp with _ | ⟨_, _ | ⟨_, _ | ⟨_, _ | ⟨_, _ | ⟨_, hp⟩⟩⟩⟩⟩
    · trivial
    · trivial
    · trivial
    · trivial
    · trivial
    · cases hp

end Vshift
