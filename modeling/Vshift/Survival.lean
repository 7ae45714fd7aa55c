import Vshift.Processes

/- A round of a worker's loop under every outcome of the transcoder port.

   `ProcessNextJob.execute` handles `VShiftException` only, and its handler raises
   when the record it reads is no longer the worker's. `Untroubled` says of the
   exchanges of a process that neither happened. `processNextJob_accounts` follows
   a round with all its exchanges in view; `claimed_job_accounted` reads off it
   that, in every run of a deployment, a round returns exactly when it was
   untroubled, and that a job left to it is then, and only then, out of its hands. -/
namespace Vshift
open Command Program

abbrev Past := List (Event Cmd Reply)

/-- What a call of the transcoder port raised. -/
def portRaised : (c : Cmd) → Reply c → Option Exn
  | .transcode _, .error e => some e
  | .buildSummary _ _, .error e => some e
  | _, _ => none

/-- A record was read that the worker cannot fail or requeue. -/
def Foreign (worker : Uuid) : (c : Cmd) → Reply c → Prop
  | .getJob _, some job => job.workerId ≠ some worker ∨ ¬ job.state.Held
  | _, _ => False

/-- The last exchange was a call of the port that raised a `VShiftException`. -/
def Failing : Past → Prop
  | [] => False
  | e :: _ => ∃ message, portRaised e.cmd e.reply = some (.vshift message)

/-- The port raised nothing but `VShiftException`s, and a record read right after one was absent
    or the worker's still. -/
def Untroubled (worker : Uuid) : Past → Prop
  | [] => True
  | e :: past => Untroubled worker past ∧ (∀ name, portRaised e.cmd e.reply ≠ some (.other name)) ∧
      (Failing past → ¬ Foreign worker e.cmd e.reply)

/-- The record the process saved last. -/
def lastRecord : Past → Option TranscodeJob
  | [] => none
  | ⟨.setJob job _, _⟩ :: _ => some job
  | _ :: past => lastRecord past

/-- The id of the record a command saves. -/
def saves? : Cmd → Option Uuid
  | .setJob job _ => some job.id
  | _ => none

/-- The ids of the records the process has saved. -/
def savedIds (past : Past) : List Uuid := past.filterMap (fun e => saves? e.cmd)

/-- The job is in no worker's hands. -/
def JobState.Settled (s : JobState) : Prop := s = completed ∨ s = pending ∨ s = failed

theorem JobState.settled_iff {s : JobState} : s.Settled ↔ ¬ s.Held := by
  cases s <;> simp [Settled, Held]

/-- All that a process knows is what it has exchanged; a record is stored under its id. -/
def history : Protocol Cmd Reply Past where
  allows _ _ := True
  expects _
    | .getJob id, r => ∀ job ∈ r, job.id = id
    | _, _ => True
  next past c r := ⟨c, r⟩ :: past

/-- What a round has to show for itself: it returns if it was untroubled, and then the record it
    saved last is settled; if it was not, it raises, and leaves the job in its hands. -/
def Accounts {α : Type} (worker : Uuid) (r : Except Exn α) (past : Past) : Prop :=
  ((∃ a, r = .ok a) ↔ Untroubled worker past) ∧ ∀ id ∈ savedIds past,
    ∃ last, lastRecord past = some last ∧ last.id = id ∧
      (last.state.Settled ↔ Untroubled worker past)

/-! What an exchange changes. -/

section
variable {ctx : Context} {worker id : Uuid} {past : Past} {c : Cmd} {r : Reply c}

/-- Nothing has gone wrong, and only this job was saved. -/
structure Smooth (worker id : Uuid) (past : Past) : Prop where
  untroubled : Untroubled worker past
  steady : ¬ Failing past
  same : ∀ saved ∈ savedIds past, saved = id

theorem savedIds_cons (hc : saves? c = none) : savedIds (⟨c, r⟩ :: past) = savedIds past :=
  List.filterMap_cons_none hc

theorem lastRecord_cons (hc : saves? c = none) :
    lastRecord (⟨c, r⟩ :: past) = lastRecord past := by
  cases c with
  | setJob job ex => cases hc
  | _ => rfl

/-- Any exchange that is not a failure of the port. -/
theorem Smooth.cons (h : Smooth worker id past) (hport : portRaised c r = none)
    (hsame : ∀ saved, saves? c = some saved → saved = id) : Smooth worker id (⟨c, r⟩ :: past) := by
  refine ⟨⟨h.untroubled, ?_, fun hf => absurd hf h.steady⟩, ?_, ?_⟩
  · intro name hraised
    rw [hport] at hraised
    cases hraised
  · intro ⟨message, hraised⟩
    rw [hport] at hraised
    cases hraised
  · intro saved hsaved
    obtain ⟨e, he, hid⟩ := List.mem_filterMap.mp hsaved
    rcases List.mem_cons.mp he with heq | he
    · rw [heq] at hid
      exact hsame saved hid
    · exact h.same saved (List.mem_filterMap.mpr ⟨e, he, hid⟩)

/-- A command that saves no job and is no call of the port. -/
def Plain : Cmd → Bool
  | .setJob _ _ => false
  | .transcode _ => false
  | .buildSummary _ _ => false
  | _ => true

theorem Smooth.plain (h : Smooth worker id past) (hc : Plain c = true) :
    Smooth worker id (⟨c, r⟩ :: past) := by
  apply h.cons
  · cases c <;> first | rfl | cases hc
  · intro saved hsaved
    cases c <;> first | cases hc; done | cases hsaved

/-- A save, the record saved being the last one then. -/
theorem smooth_saveJob (ctx : Context) (job : TranscodeJob) (h : Smooth worker job.id past) :
    (saveJob ctx job).Obeys history (fun r past' =>
      r = .ok () ∧ Smooth worker job.id past' ∧ lastRecord past' = some job) past := by
  have hset : ∀ past, Smooth worker job.id past → Replaces history ctx job (fun r past' =>
      r = .ok () ∧ Smooth worker job.id past' ∧ lastRecord past' = some job) past := by
    intro past h
    refine ⟨trivial, fun _ _ => ⟨trivial, fun _ _ => ⟨rfl, ?_, rfl⟩⟩⟩
    apply (h.cons rfl ?_).plain rfl
    intro saved hsaved
    exact (Option.some.inj hsaved).symm
  apply saveJob_obeys trivial
  · exact fun _ _ _ => hset _ (h.plain rfl)
  · intro old _ _
    refine ⟨trivial, fun _ _ => hset _ ?_⟩
    exact (h.plain rfl).plain rfl

theorem smooth_nil : Smooth worker id [] :=
  ⟨trivial, not_false, fun _ h => by cases h⟩

/-- A transition the table has goes on with the new state. -/
theorem obeys_transitionTo_ok {α : Type} {fromState toState : JobState} {f : JobState → Prog α}
    {Q : Except Exn α → Past → Prop} (h : fromState.canTransition toState = true) :
    (transitionTo fromState toState >>= f).Obeys history Q past ↔
      (f toState).Obeys history Q past := by
  unfold transitionTo
  rw [JobState.transition, if_pos h]
  rfl

/-- Beating a worker's heart changes nothing. -/
theorem smooth_heartbeat {job : TranscodeJob} (h : Smooth worker id past)
    (hlast : lastRecord past = some job) : (heartbeat ctx worker).Obeys history (fun r past' =>
      r = .ok () ∧ Smooth worker id past' ∧ lastRecord past' = some job) past := by
  refine (obeys_call_bind _ _ _).mpr ⟨trivial, fun payload _ => ?_⟩
  have h₁ := h.plain (c := .getWorker worker) (r := payload) rfl
  cases payload with
  | none => exact ⟨rfl, h₁, hlast⟩
  | some info =>
    refine ⟨trivial, fun now _ => ⟨trivial, fun _ _ => ⟨rfl, ?_, hlast⟩⟩⟩
    exact (h₁.plain rfl).plain rfl

end

/-! The parts of a round. -/

section
variable {ctx : Context} {worker : Uuid} {job processing : TranscodeJob} {past : Past}

/-- The job is claimed. -/
structure Owns (worker : Uuid) (job : TranscodeJob) (past : Past) : Prop where
  smooth : Smooth worker job.id past
  last : lastRecord past = some job
  owner : job.workerId = some worker
  state : job.state = .claimed

/-- The transcode of the claimed job has started. -/
structure Transcodes (worker : Uuid) (job processing : TranscodeJob) (past : Past) : Prop where
  smooth : Smooth worker job.id past
  last : lastRecord past = some processing
  owner : job.workerId = some worker
  claimed : job.state = .claimed
  id : processing.id = job.id
  state : processing.state = .processing

/-- The port raised. -/
structure Breaks (worker : Uuid) (job : TranscodeJob) (e : Exn) (past : Past) : Prop where
  same : ∀ saved ∈ savedIds past, saved = job.id
  last : ∃ processing, lastRecord past = some processing ∧ processing.id = job.id ∧
    processing.state = .processing
  owner : job.workerId = some worker
  claimed : job.state = .claimed
  escaped : ∀ name, e = .other name → ¬ Untroubled worker past
  failing : ∀ message, e = .vshift message → Untroubled worker past ∧ Failing past

/-- The job is completed. -/
structure Finishes (worker : Uuid) (job : TranscodeJob) (past : Past) : Prop where
  smooth : Smooth worker job.id past
  last : ∃ completed, lastRecord past = some completed ∧ completed.id = job.id ∧
    completed.state = .completed

/-- A round that claimed nothing. -/
theorem Accounts.unsaved {α : Type} {a : α} {id : Uuid} (h : Smooth worker id past)
    (hnone : savedIds past = []) : Accounts worker (.ok a) past := by
  refine ⟨⟨fun _ => h.untroubled, fun _ => ⟨a, rfl⟩⟩, ?_⟩
  rw [hnone]
  exact fun id h => by cases h

/-- A round that handled its job. -/
theorem Accounts.handled {α : Type} {a : α} {last : TranscodeJob} (h : Smooth worker job.id past)
    (hlast : lastRecord past = some last) (hid : last.id = job.id) (hs : last.state.Settled) :
    Accounts worker (.ok a) past := by
  refine ⟨⟨fun _ => h.untroubled, fun _ => ⟨a, rfl⟩⟩, ?_⟩
  intro saved hsaved
  exact ⟨last, hlast, hid.trans (h.same saved hsaved).symm, fun _ => h.untroubled, fun _ => hs⟩

/-- A round that was troubled leaves its job in hand. -/
theorem Accounts.escaped {α : Type} {e : Exn} {last : TranscodeJob}
    (hsame : ∀ saved ∈ savedIds past, saved = job.id) (hlast : lastRecord past = some last)
    (hid : last.id = job.id) (hs : last.state = .processing) (h : ¬ Untroubled worker past) :
    Accounts worker (.error e : Except Exn α) past := by
  have herror : ¬ ∃ a : α, (.error e : Except Exn α) = .ok a := fun ⟨a, ha⟩ => by cases ha
  refine ⟨⟨fun ha => absurd ha herror, fun hu => absurd hu h⟩, ?_⟩
  intro saved hsaved
  refine ⟨last, hlast, hid.trans (hsame saved hsaved).symm, fun hsettled => ?_,
    fun hu => absurd hu h⟩
  rw [hs] at hsettled
  exact absurd (.inr rfl) (JobState.settled_iff.mp hsettled)

theorem accounts_claimJob : (claimJob ctx worker).Obeys history (fun r past' =>
    match r with
    | .ok (some job) => Owns worker job past'
    | .ok none => Accounts worker (.ok none : Except Exn (Option TranscodeJob)) past'
    | .error e => Accounts worker (.error e : Except Exn (Option TranscodeJob)) past') [] := by
  refine (obeys_call_bind _ _ _).mpr ⟨trivial, fun popped _ => ?_⟩
  have hpopped : ∀ id, Smooth worker id [⟨.brpopPending, popped⟩] :=
    fun id => smooth_nil.plain rfl
  cases popped with
  | none => exact Accounts.unsaved (hpopped 0) rfl
  | some id =>
    refine (obeys_call_bind _ _ _).mpr ⟨trivial, fun stored hstored => ?_⟩
    have hread : Smooth worker id [⟨.getJob id, stored⟩, ⟨.brpopPending, some id⟩] :=
      (hpopped id).plain rfl
    have hnone : Accounts worker (.ok none : Except Exn (Option TranscodeJob))
        [⟨.getJob id, stored⟩, ⟨.brpopPending, some id⟩] :=
      Accounts.unsaved hread rfl
    cases stored with
    | none => exact hnone
    | some job =>
      obtain rfl : job.id = id := hstored job rfl
      dsimp only
      split
      · exact hnone
      · next hp =>
        rw [obeys_transitionTo_ok (by rw [not_not.mp hp]; rfl)]
        refine (obeys_call_bind _ _ _).mpr ⟨trivial, fun now _ => ?_⟩
        have hnow := hread.plain (c := .now) (r := now) rfl
        have hsave := smooth_saveJob ctx (job.claimedBy worker now) hnow
        refine hsave.seq (fun _ past' h => ?_) (fun e past' h => by cases h.1)
        refine (obeys_call_bind _ _ _).mpr ⟨trivial, fun _ _ => ?_⟩
        have hbeat := h.2.1.plain
          (c := .setHeartbeat job.id worker ctx.queue.jobHeartbeatTtlSeconds.val) (r := ()) rfl
        refine (smooth_heartbeat hbeat h.2.2).seq (fun _ past' h => ?_)
          (fun e past' h => by cases h.1)
        exact ⟨h.2.1, h.2.2, rfl, rfl⟩

theorem accounts_startTranscode (h : Owns worker job past) :
    (startTranscode ctx worker job).Obeys history (fun r past' =>
      match r with
      | .ok processing => Transcodes worker job processing past'
      | .error e => Breaks worker job e past') past := by
  -- the copy just claimed passes the guard
  have hassert : assertWorkerOwnsJob worker job = pure () := by
    unfold assertWorkerOwnsJob
    rw [if_neg (not_not.mpr h.owner), if_neg fun hs => hs.1 h.state]
  unfold startTranscode
  rw [hassert, pure_bind, obeys_transitionTo_ok (by rw [h.state]; rfl)]
  refine (obeys_call_bind _ _ _).mpr ⟨trivial, fun now _ => ?_⟩
  have hnow := h.smooth.plain (c := .now) (r := now) rfl
  have hsave := smooth_saveJob ctx (job.started now) hnow
  refine hsave.seq (fun _ past' hs => ?_) (fun e past' hs => by cases hs.1)
  refine ⟨trivial, fun _ _ => ?_⟩
  exact ⟨hs.2.1.plain rfl, hs.2.2, h.owner, h.state, rfl, rfl⟩

/-- A call of the port. -/
theorem Transcodes.call (h : Transcodes worker job processing past) {c : Cmd} {r : Reply c}
    (hc : saves? c = none) (hforeign : ¬ Foreign worker c r) :
    (portRaised c r = none → Transcodes worker job processing (⟨c, r⟩ :: past)) ∧
      ∀ e, portRaised c r = some e → Breaks worker job e (⟨c, r⟩ :: past) := by
  have hlast : lastRecord (⟨c, r⟩ :: past) = some processing := (lastRecord_cons hc).trans h.last
  constructor
  · intro hport
    have hsmooth := h.smooth.cons hport (fun saved hs => by rw [hc] at hs; cases hs)
    exact ⟨hsmooth, hlast, h.owner, h.claimed, h.id, h.state⟩
  · intro e hport
    -- only a `VShiftException` leaves the round untroubled so far
    refine ⟨(savedIds_cons hc).symm ▸ h.smooth.same,
      ⟨processing, hlast, h.id, h.state⟩, h.owner, h.claimed, ?_, ?_⟩
    · intro name he hu
      exact hu.2.1 name (he ▸ hport)
    · intro message he
      refine ⟨⟨h.smooth.untroubled, fun name hname => ?_, fun _ => hforeign⟩, message, he ▸ hport⟩
      rw [hport, he, Option.some.injEq] at hname
      cases hname

theorem accounts_writeSummary (h : Transcodes worker job processing past)
    (result : TranscodeResult) : (writeSummary ctx processing result).Obeys history (fun r past' =>
      match r with
      | .ok _ => Finishes worker job past'
      | .error e => Breaks worker job e past') past := by
  unfold writeSummary
  rw [if_neg (not_not.mpr h.state)]
  refine (obeys_call_bind _ _ _).mpr ⟨trivial, fun outcome _ => ?_⟩
  have hcall := h.call (c := .buildSummary processing result) (r := outcome) rfl not_false
  refine (obeys_bind _ _ _).mpr ((obeys_ofExcept _ _).mpr ?_)
  cases outcome with
  | error e => exact hcall.2 e rfl
  | ok summary =>
    have h' := hcall.1 rfl
    refine (obeys_call_bind _ _ _).mpr ⟨trivial, fun _ _ => ?_⟩
    rw [obeys_transitionTo_ok (by rw [h.state]; rfl)]
    refine (obeys_call_bind _ _ _).mpr ⟨trivial, fun now _ => ?_⟩
    have hsummary := h'.smooth.plain (c := .setSummary summary ctx.queue.ttl.val) (r := ()) rfl
    have hnow := hsummary.plain (c := .now) (r := now) rfl
    rw [← h.id] at hnow
    have hsave := smooth_saveJob ctx (processing.completed now) hnow
    refine hsave.seq (fun _ past' hs => ?_) (fun e past' hs => by cases hs.1)
    exact ⟨h.id ▸ hs.2.1, _, hs.2.2, h.id, rfl⟩

theorem accounts_failJob {α : Type} {a : TranscodeJob → α} {error : String}
    (h : Smooth worker job.id past) (hs : job.state.Held) : (failJob ctx job error).Obeys history
      (fun r => Accounts worker (r.map a)) past := by
  unfold failJob
  rw [obeys_transitionTo_ok hs.to_failed]
  refine (obeys_call_bind _ _ _).mpr ⟨trivial, fun now _ => ?_⟩
  have hnow := h.plain (c := .now) (r := now) rfl
  have hsave := smooth_saveJob ctx (job.failed error now) hnow
  refine hsave.seq (fun _ past' hs => ?_) (fun e past' hs => by cases hs.1)
  refine ⟨trivial, fun _ _ => ?_⟩
  exact Accounts.handled (hs.2.1.plain rfl) hs.2.2 rfl (.inr (.inr rfl))

theorem accounts_requeueJob {α : Type} {a : TranscodeJob → α} {error : String}
    (h : Smooth worker job.id past) (hs : job.state.Held) : (requeueJob ctx job error).Obeys history
      (fun r => Accounts worker (r.map a)) past := by
  unfold requeueJob
  rw [obeys_transitionTo_ok hs.to_pending]
  have hsave := smooth_saveJob ctx (job.requeued error) h
  refine hsave.seq (fun _ past' hs => ?_) (fun e past' hs => by cases hs.1)
  refine ⟨trivial, fun _ _ => ?_⟩
  exact Accounts.handled (hs.2.1.plain rfl) hs.2.2 rfl (.inr (.inl rfl))

/-- The handler, from the record it reads. -/
theorem accounts_handleError {message : String} (h : Breaks worker job (.vshift message) past) :
    (handleError ctx worker job message).Obeys history
      (fun r => Accounts worker (r.map some)) past := by
  obtain ⟨hun, hfailing⟩ := h.failing message rfl
  obtain ⟨last, hlast, hid, hprocessing⟩ := h.last
  refine (obeys_call_bind _ _ _).mpr ⟨trivial, fun stored hstored => ?_⟩
  have hsame : ∀ saved ∈ savedIds (⟨.getJob job.id, stored⟩ :: past), saved = job.id := h.same
  have hcurrent : (stored.getD job).id = job.id := by
    cases stored with
    | none => rfl
    | some current => exact hstored current rfl
  have hmine : ¬ Foreign worker (.getJob job.id) stored ↔
      (stored.getD job).workerId = some worker ∧ (stored.getD job).state.Held := by
    cases stored with
    | none => simp [Foreign, h.owner, h.claimed, JobState.Held]
    | some current => simp [Foreign]
  by_cases hforeign : Foreign worker (.getJob job.id) stored
  · -- the record is another worker's, or in nobody's hands
    have hescaped : ∀ e, Accounts worker (.error e : Except Exn (Option TranscodeJob))
        (⟨.getJob job.id, stored⟩ :: past) :=
      fun e => Accounts.escaped hsame hlast hid hprocessing fun hu => hu.2.2 hfailing hforeign
    unfold handleJobFailure
    split
    · exact hescaped _
    · split
      · exact hescaped _
      · next howner hstate =>
        refine absurd hforeign (hmine.mpr ⟨not_not.mp howner, ?_⟩)
        unfold JobState.Held
        tauto
  · obtain ⟨howner, hheld⟩ := hmine.mp hforeign
    have huntroubled : Untroubled worker (⟨.getJob job.id, stored⟩ :: past) := by
      refine ⟨hun, ?_, fun _ => hforeign⟩
      intro name hname
      cases hname
    have hsteady : ¬ Failing (⟨.getJob job.id, stored⟩ :: past) := by
      intro ⟨message, hm⟩
      cases hm
    have hsmooth : Smooth worker (stored.getD job).id (⟨.getJob job.id, stored⟩ :: past) :=
      ⟨huntroubled, hsteady, hcurrent.symm ▸ hsame⟩
    have hready :
        ¬ ((stored.getD job).state ≠ .claimed ∧ (stored.getD job).state ≠ .processing) := by
      unfold JobState.Held at hheld
      tauto
    unfold handleJobFailure
    rw [if_neg (not_not.mpr howner), if_neg hready]
    split
    · exact accounts_failJob hsmooth hheld
    · exact accounts_requeueJob hsmooth hheld

theorem accounts_processNextJob (ctx : Context) (worker : Uuid) :
    (processNextJob ctx worker).Obeys history (fun r => Accounts worker r) [] := by
  apply processNextJob_obeysTo (Owns worker) (Transcodes worker) (Breaks worker) (Finishes worker)
  · exact accounts_claimJob
  · exact fun _ _ h => accounts_startTranscode h
  · intro job processing past h
    refine ⟨trivial, fun outcome _ => ?_⟩
    have hcall := h.call (c := .transcode processing) (r := outcome) rfl not_false
    cases outcome with
    | ok result => exact hcall.1 rfl
    | error e => exact hcall.2 e rfl
  · exact fun _ _ result _ h => accounts_writeSummary h result
  · exact fun _ _ _ h => accounts_handleError h
  · intro job name past h
    obtain ⟨last, hlast, hid, hs⟩ := h.last
    exact Accounts.escaped h.same hlast hid hs (h.escaped name rfl)
  · intro job past h
    obtain ⟨last, hlast, hid, hs⟩ := h.last
    refine ⟨trivial, fun r _ => ?_⟩
    exact Accounts.handled (h.smooth.plain rfl) hlast hid (.inl hs)

end
/-! Runs. -/

theorem after_history (past : Past) : history.after [] past = past := by
  induction past with
  | nil => rfl
  | cons e past ih =>
    show (⟨e.cmd, e.reply⟩ : Event Cmd Reply) :: history.after [] past = e :: past
    rw [ih]

/-- What the processes of a deployment have to show in the end: a round its account. -/
def Shows : Label → Except Exn Unit → Past → Prop
  | .processNextJob worker, r, past => Accounts worker r past
  | _, _, _ => True

theorem code_shows (ctx : Context) (l : Label) : (code ctx l).Obeys history (Shows l) [] := by
  have hany : ∀ (p : Prog Unit) past, p.Obeys history (fun _ _ => True) past := by
    intro p
    induction p with
    | done a => exact fun _ => trivial
    | raise e => exact fun _ => trivial
    | ask c k ih => exact fun past => ⟨trivial, fun r _ => ih r _⟩
  cases l with
  | processNextJob worker =>
    refine (obeys_discard _ _).mpr ((accounts_processNextJob ctx worker).mono ?_)
    intro r past h
    refine ⟨?_, h.2⟩
    rw [← h.1]
    cases r <;> simp [Except.map]
  | _ => exact hany _ _

/-- Every process is accounted for, and records are stored under their own id. -/
structure Recalls (s : Cluster) : Prop where
  obeying : ObeyingTo history (fun _ => []) Shows s
  keyed : ∀ {id job}, s.store.jobs id = some job → job.id = id

/-- Only a save of a job changes its record. -/
theorem jobs_effect_of_ne {w : World} {c : Cmd} {r : Reply c} {id : Uuid}
    (h : saves? c ≠ some id) : (w.effect c r).jobs id = w.jobs id := by
  cases c with
  | setJob job ex =>
    have hne : id ≠ job.id := fun he => h (congrArg some he.symm)
    rw [World.jobs_setJob, if_neg hne]
  | _ => rfl

theorem recalls_step {ctx : Context} (s : Cluster) (a : Act) (h : Recalls s) :
    Recalls ((deployment ctx).step s a) := by
  have hstep := pool_stepTo (fun w _ => ∀ {id job}, w.jobs id = some job → job.id = id) h.obeying
    h.keyed (S := deployment ctx) (a := a) (fun l _ => code_shows ctx l) ?_ ?_ ?_
  · exact ⟨hstep.1, hstep.2⟩
  · exact fun _ _ _ _ => h.keyed
  · intro pid x l past c k r _ _ _ _ hr
    constructor
    · cases c with
      | getJob id =>
        cases hr
        exact fun job hjob => h.keyed hjob
      | _ => trivial
    · intro id job hj
      cases c with
      | setJob saved ex =>
        have hj' : (s.store.effect (.setJob saved ex) r).jobs id = some job := hj
        rw [World.jobs_setJob] at hj'
        split at hj'
        · next hid =>
          cases hj'
          exact hid.symm
        · exact h.keyed hj'
      | _ => exact h.keyed hj
  · intro e _ id job hj
    cases e with
    | media path outcome => exact h.keyed hj
    | clock t => exact h.keyed hj
    | expire key =>
      cases key with
      | job gone =>
        have hj' : Function.update s.store.jobs gone none id = some job := hj
        rw [Function.update_apply] at hj'
        split at hj'
        · cases hj'
        · exact h.keyed hj'
      | _ => exact h.keyed hj

/-- No other process saves a job that process `pid` has saved, and its record does not lapse. -/
def LeavesJobsOf (pid : Nat) (s : Cluster) : Act → Prop
  | .exec other _ => other ≠ pid → ∀ q ∈ s.procs[other]?, ∀ id ∈ q.next?.bind saves?,
      ∀ p ∈ s.procs[pid]?, id ∉ savedIds p.past
  | .env (.expire (.job id)) => ∀ p ∈ s.procs[pid]?, id ∉ savedIds p.past
  | _ => True

/-- The record process `pid` has saved last is the one that is stored. -/
def StoresLastOf (pid : Nat) (s : Cluster) : Prop :=
  ∀ p, s.procs[pid]? = some p → ∀ last, lastRecord p.past = some last →
    s.store.jobs last.id = some last

theorem lastRecord_saved {past : Past} {last : TranscodeJob} (h : lastRecord past = some last) :
    last.id ∈ savedIds past := by
  induction past with
  | nil => cases h
  | cons e past ih =>
    obtain ⟨c, r⟩ := e
    cases hc : saves? c with
    | none =>
      rw [lastRecord_cons hc] at h
      rw [savedIds_cons hc]
      exact ih h
    | some id =>
      cases c with
      | setJob job ex =>
        cases h
        exact List.mem_cons_self
      | _ => cases hc

/-- A process goes on: the record it has saved last is still the one that is stored. -/
theorem lastRecord_effect {w : World} {c : Cmd} {r : Reply c} {past : Past}
    (h : ∀ last, lastRecord past = some last → w.jobs last.id = some last) :
    ∀ last, lastRecord (⟨c, r⟩ :: past) = some last →
      (w.effect c r).jobs last.id = some last := by
  intro last hlast
  cases hc : saves? c with
  | none =>
    rw [lastRecord_cons hc] at hlast
    rw [jobs_effect_of_ne (by rw [hc]; exact nofun)]
    exact h last hlast
  | some id =>
    cases c with
    | setJob job ex =>
      cases hlast
      exact (World.jobs_setJob last ex r last.id).trans (if_pos rfl)
    | _ => cases hc

theorem storesLastOf_step {ctx : Context} {pid : Nat} (s : Cluster) (a : Act)
    (h : StoresLastOf pid s) (hok : LeavesJobsOf pid s a) :
    StoresLastOf pid ((deployment ctx).step s a) := by
  intro p hp last hlast
  have hs := (deployment ctx).step_cases (s := s) a
  generalize (deployment ctx).step s a = s' at hs hp
  cases hs with
  | idle => exact h p hp last hlast
  | spawn l =>
    by_cases hpid : pid < s.procs.length
    · rw [List.getElem?_append_left hpid] at hp
      exact h p hp last hlast
    · rw [List.getElem?_append_right (by omega)] at hp
      rw [List.mem_singleton.mp (List.mem_of_getElem? hp)] at hlast
      cases hlast
  | @exec other x l past c k r hproc hr =>
    by_cases hpid : other = pid
    · subst hpid
      rw [List.getElem?_set_self (List.getElem?_eq_some_iff.mp hproc).1, Option.some.injEq] at hp
      subst hp
      exact lastRecord_effect (h _ hproc) last hlast
    · rw [List.getElem?_set_ne hpid] at hp
      have hne : saves? c ≠ some last.id := fun hc =>
        hok hpid _ hproc last.id (Option.mem_def.mpr hc) p hp (lastRecord_saved hlast)
      exact (jobs_effect_of_ne hne).trans (h p hp last hlast)
  | @kill other q hproc =>
    by_cases hpid : other = pid
    · subst hpid
      rw [List.getElem?_set_self (List.getElem?_eq_some_iff.mp hproc).1, Option.some.injEq] at hp
      subst hp
      exact h q hproc last hlast
    · rw [List.getElem?_set_ne hpid] at hp
      exact h p hp last hlast
  | env e =>
    have hold := h p hp last hlast
    cases e with
    | media path outcome => exact hold
    | clock t => exact hold
    | expire key =>
      cases key with
      | job gone =>
        have hne : last.id ≠ gone := fun he => hok p hp (he ▸ lastRecord_saved hlast)
        show Function.update s.store.jobs gone none last.id = some last
        rw [Function.update_of_ne hne, hold]
      | _ => exact hold

/-- In every run of a deployment, whatever the transcoder port does and the other processes do
    meanwhile, a round that has ended returned exactly when it was untroubled; and a job it has
    claimed, left to it, is then and only then stored as completed, pending or failed. -/
theorem claimed_job_accounted (ctx : Context) (as : List Act) {pid : Nat} {p : Proc}
    {worker : Uuid} (hp : ((deployment ctx).run Cluster.initial as).procs[pid]? = some p)
    (hl : p.label = .processNextJob worker) (hended : p.Ended) (hlive : p.rest ≠ none) :
    (p.Returned ↔ Untroubled worker p.past) ∧
      (Meets (deployment ctx).step (LeavesJobsOf pid) Cluster.initial as → ∀ id ∈ savedIds p.past,
        ((∃ job, ((deployment ctx).run Cluster.initial as).store.jobs id = some job ∧
          job.state.Settled) ↔ Untroubled worker p.past)) := by
  have hrecalls : Recalls ((deployment ctx).run Cluster.initial as) := by
    have hmeets : Meets (deployment ctx).step (fun _ _ => True) Cluster.initial as :=
      meets_of_forall (fun _ _ _ => trivial) _
    refine run_invariant Recalls (fun s a h _ => recalls_step s a h) ⟨?_, ?_⟩ hmeets
    · exact fun p hp => nomatch hp
    · exact fun hj => nomatch hj
  have hshows := (hrecalls.obeying p (List.mem_of_getElem? hp)).2
  rw [after_history, hl] at hshows
  -- the account of the result it ended in
  have haccount : ∃ r : Except Exn Unit, Accounts worker r p.past ∧
      (p.Returned ↔ ∃ a, r = .ok a) := by
    unfold Process.Ended at hended
    unfold Process.Returned
    cases hrest : p.rest with
    | none => exact absurd hrest hlive
    | some prog =>
      rw [hrest] at hended
      cases prog with
      | done a => exact ⟨.ok a, hshows _ hrest, fun _ => ⟨a, rfl⟩, fun _ => trivial⟩
      | raise e =>
        refine ⟨.error e, hshows _ hrest, fun h => h.elim, ?_⟩
        intro ⟨a, ha⟩
        cases ha
      | ask c k => exact hended.elim
  obtain ⟨r, ⟨hreturned, hsaved⟩, hr⟩ := haccount
  refine ⟨hr.trans hreturned, ?_⟩
  intro hmeets id hid
  obtain ⟨last, hlast, hlastid, hsettled⟩ := hsaved id hid
  have hstores : StoresLastOf pid ((deployment ctx).run Cluster.initial as) :=
    run_invariant (StoresLastOf pid) storesLastOf_step (fun p hp => nomatch hp) hmeets
  have hstored := hstores p hp last hlast
  rw [hlastid] at hstored
  rw [← hsettled, hstored]
  constructor
  · intro ⟨job, hjob, hs⟩
    cases hjob
    exact hs
  · exact fun hs => ⟨last, rfl, hs⟩

/-- A job is enqueued. -/
def oneEnqueued : List Act :=
  [.spawn (.enqueueJob (mp4File "/tmp/input/a.mp4") defaultMatch), .exec 0 .go, .exec 0 (.id 1),
    .exec 0 .go, .exec 0 .go, .exec 0 .go, .exec 0 .go, .exec 0 .go, .exec 0 .go]

/-- Worker 7 claims it and calls the transcoder, with this outcome; the round goes on. -/
def oneRound (outcome : Except Exn TranscodeResult) : List Act :=
  .spawn (.processNextJob 7) :: List.replicate 15 (.exec 1 .go) ++
    .exec 1 (.transcoded outcome) :: List.replicate 6 (.exec 1 .go)

theorem claimed_job_accounted_failedOnce :
    let s := (deployment smallContext).run Cluster.initial
      (oneEnqueued ++ oneRound (.error (.vshift "ffmpeg failed")))
    ∃ p, s.procs[1]? = some p ∧ p.Returned ∧
      ∃ job, s.store.jobs 1 = some job ∧ job.state.Settled := by
  have hp : ((deployment smallContext).run Cluster.initial
      (oneEnqueued ++ oneRound (.error (.vshift "ffmpeg failed")))).procs[1]? = some _ := rfl
  obtain ⟨hreturned, hstored⟩ := claimed_job_accounted smallContext
    (oneEnqueued ++ oneRound (.error (.vshift "ffmpeg failed"))) hp rfl trivial
    (Option.some_ne_none _)
  have hleaves : Meets (deployment smallContext).step (LeavesJobsOf 1) Cluster.initial
      (oneEnqueued ++ oneRound (.error (.vshift "ffmpeg failed"))) := by
    apply (meets_append _ _ _).mpr
    constructor
    · -- there is no round yet
      have hnone : ∀ x s, s.procs.length = 1 → LeavesJobsOf 1 s (.exec 0 x) := by
        intro x s hlen _ q _ id _ p hp
        rw [List.getElem?_eq_none (by omega)] at hp
        cases hp
      exact ⟨trivial, hnone _ _ rfl, hnone _ _ rfl, hnone _ _ rfl, hnone _ _ rfl, hnone _ _ rfl,
        hnone _ _ rfl, hnone _ _ rfl, hnone _ _ rfl, trivial⟩
    · -- only the round itself takes steps
      apply meets_of_forall
      intro a ha s
      simp only [oneRound, List.cons_append, List.mem_cons, List.mem_append,
        List.mem_replicate] at ha
      rcases ha with rfl | ⟨_, rfl⟩ | rfl | ⟨_, rfl⟩
      · trivial
      · exact fun h => absurd rfl h
      · exact fun h => absurd rfl h
      · exact fun h => absurd rfl h
  exact ⟨_, hp, trivial, (hstored hleaves 1 List.mem_cons_self).mpr (hreturned.mp trivial)⟩

/-- `mkdir` or `replace` fails inside `transcode`. -/
theorem os_error_escapes : ¬ ∀ (as : List Act) (pid : Nat) (p : Proc) (worker : Uuid),
    ((deployment smallContext).run Cluster.initial as).procs[pid]? = some p →
    p.label = .processNextJob worker → p.Ended → p.rest ≠ none →
      p.Returned ∧ (Meets (deployment smallContext).step (LeavesJobsOf pid) Cluster.initial as →
        ∀ id ∈ savedIds p.past, ∃ job,
          ((deployment smallContext).run Cluster.initial as).store.jobs id = some job ∧
          job.state.Settled) := by
  intro h
  have hp : ((deployment smallContext).run Cluster.initial
    (oneEnqueued ++ oneRound (.error (.other "OSError")))).procs[1]? = some _ := rfl
  exact (h _ 1 _ 7 hp rfl trivial (Option.some_ne_none _)).1

end Vshift
