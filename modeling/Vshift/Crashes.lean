import Vshift.Processes

/- Crash safety: what a process leaves behind that stops between two commands.

   Four operations move a job by separate commands: enqueueing, claiming,
   requeueing after a failure and requeueing after a lost heartbeat. In between,
   the only trace of what is still to come is the process itself: it has popped
   the id of a pending job or stored a pending record and must push the id
   (`Debt.owes`), or it is replacing a record and must add the id to the set of the
   new state (`Debt.moving`). Everything else is on the server (`Accounted`).
   `crash_safe` says that no job is lost as long as no process stops with such a
   debt that is its alone; `lost_between_mark_and_push` is a run where one does. -/
namespace Vshift
open Command Program

/-! The property and the condition. -/

/-- Every pending job can be claimed, and the job a file is marked with is stored and is queued,
    in the set a recovery pass looks at, or finished. -/
structure CrashSafe (w : World) : Prop where
  queued : ∀ {id job}, w.jobs id = some job → job.state = .pending → id ∈ w.pendingQueue
  handled : ∀ {path id}, w.processed path = some id → ∃ job, w.jobs id = some job ∧
    (job.state = .pending ∧ id ∈ w.pendingQueue ∨
      job.state.Held ∧ id ∈ w.stateIndex job.state ∨ job.state.Terminal)

/-- Keys other than job heartbeats never lapse. Any process may be killed at any time. -/
def OnlyHeartbeatsLapse : Act → Prop
  | .env (.expire (.jobHeartbeat _)) => True
  | .env (.expire _) => False
  | _ => True

/-- Where a process is in saving a record. -/
inductive Moving where
  | still
  /-- It has removed the id from the set of the old state. -/
  | leaving (id : Uuid)
  /-- It has stored the record in this state, and has not added the id to its set. -/
  | entering (state : JobState) (id : Uuid)
  deriving DecidableEq

/-- What a process has begun and not finished. -/
structure Debt where
  /-- The id it popped or stored as pending, until it pushes it or finds or puts the record in
      another state. -/
  owes : Option Uuid
  moving : Moving
  /-- The ids it has saved. -/
  saved : List Uuid

namespace Debt

def initial : Debt := ⟨none, .still, []⟩

/-- Nothing is open. -/
def Clear (t : Debt) : Prop := t.owes = none ∧ t.moving = .still

/-- The process is about to put the id into the set of this state. -/
def Moves (t : Debt) (state : JobState) (id : Uuid) : Prop :=
  t.moving = .leaving id ∨ t.moving = .entering state id

end Debt

/-- After a record is stored: recovery looks at the sets of claimed and processing jobs only. -/
def Moving.stored (state : JobState) (id : Uuid) : Moving :=
  if state.Held then .entering state id else .still

/-- How a debt comes and goes, command by command. -/
def debts : Protocol Cmd Reply Debt where
  allows t
    | .brpopPending => t.Clear
    | .getJob id => ∀ id' ∈ t.owes, id' = id
    | .sremState _ _ => t.moving = .still
    | .setJob job _ =>
      (t.moving = .still ∨ t.moving = .leaving job.id) ∧ ∀ id' ∈ t.owes, id' = job.id
    | .saddState state id => t.moving = .stored state id
    | .setProcessed _ id => id ∈ t.saved
    | .lpushPending id => t.owes = some id
    | _ => True
  expects _
    | .getJob id, stored => ∀ job ∈ stored, job.id = id
    | _, _ => True
  next t
    | .brpopPending, id => { t with owes := id }
    | .getJob _, stored =>
      { t with owes := if stored.any (·.state = .pending) then t.owes else none }
    | .sremState _ id, _ => { t with moving := .leaving id }
    | .setJob job _, _ =>
      { owes := if job.state = .pending then some job.id else none
        moving := .stored job.state job.id
        saved := job.id :: t.saved }
    | .saddState _ _, _ => { t with moving := .still }
    | .lpushPending _, _ => { t with owes := none }
    | _, _ => t

/-- What each live process has open. -/
def Cluster.debts (s : Cluster) : Nat → Option Debt :=
  s.knowsLive Vshift.debts fun _ => Debt.initial

/-- Nothing is lost when the process stops here: a job it owes or moves is no longer in the
    state that takes the next command, or is where it belongs already, or another live process
    owes or moves it too. -/
def Spares (s : Cluster) (pid : Nat) : Prop :=
  ∀ t, s.debts pid = some t → ∀ id job, s.store.jobs id = some job →
    (job.state = .pending → t.owes = some id →
      id ∈ s.store.pendingQueue ∨
        ∃ i u, i ≠ pid ∧ s.debts i = some u ∧ u.owes = some id) ∧
    (job.state.Held → t.Moves job.state id →
      id ∈ s.store.stateIndex job.state ∨
        ∃ i u, i ≠ pid ∧ s.debts i = some u ∧ u.Moves job.state id)

/-- No process stops that does not spare the jobs. -/
def StopsClear (s : Cluster) : Act → Prop
  | .kill pid => Spares s pid
  | a => OnlyHeartbeatsLapse a

/-! Every use case starts and ends with nothing open. -/

variable {ctx : Context}

section
variable {t : Debt} {job : TranscodeJob} {worker : Uuid}

/-- What a save leaves open: the id of a pending record. -/
structure Debt.Saved (job : TranscodeJob) (t : Debt) : Prop where
  owes : t.owes = if job.state = .pending then some job.id else none
  moving : t.moving = .still
  saved : job.id ∈ t.saved

theorem Debt.Saved.clear (h : t.Saved job) (hs : job.state ≠ .pending) : t.Clear :=
  ⟨by rw [h.owes, if_neg hs], h.moving⟩

theorem Debt.Saved.owed (h : t.Saved job) (hs : job.state = .pending) : t.owes = some job.id := by
  rw [h.owes, if_pos hs]

theorem debts_saveJob (hmoving : t.moving = .still) (howes : ∀ id ∈ t.owes, id = job.id) :
    (saveJob ctx job).Obeys debts (fun r t' => r = .ok () ∧ t'.Saved job) t := by
  have hsave : ∀ t : Debt, (t.moving = .still ∨ t.moving = .leaving job.id) →
      (∀ id ∈ t.owes, id = job.id) →
      Replaces debts ctx job (fun r t' => r = .ok () ∧ t'.Saved job) t := fun t hm ho =>
    ⟨⟨hm, ho⟩, fun _ _ => ⟨rfl, fun _ _ => ⟨rfl, rfl, rfl, List.mem_cons_self⟩⟩⟩
  -- a look at the record can only end a debt
  have hlook : ∀ stored : Option TranscodeJob,
      ∀ id ∈ (debts.next t (.getJob job.id) stored).owes, id = job.id := by
    intro stored id hid
    have hid' : id ∈ (if stored.any (·.state = .pending) then t.owes else none) := hid
    split at hid'
    · exact howes id hid'
    · cases hid'
  apply saveJob_obeys howes
  · exact fun existing _ _ => hsave _ (.inl hmoving) (hlook existing)
  · exact fun old _ _ => ⟨hmoving, fun _ _ => hsave _ (.inr rfl) (hlook (some old))⟩

theorem debts_save_then {α : Type} {f : Unit → Prog α} {Q : Except Exn α → Debt → Prop}
    (hmoving : t.moving = .still) (howes : ∀ id ∈ t.owes, id = job.id)
    (hrest : ∀ t' : Debt, t'.Saved job → (f ()).Obeys debts Q t') :
    (saveJob ctx job >>= f).Obeys debts Q t :=
  (debts_saveJob hmoving howes).seq (fun _ t' h => hrest t' h.2) (fun _ _ h => by cases h.1)

theorem Debt.Clear.owes_nothing (h : t.Clear) (id : Uuid) : ∀ id' ∈ t.owes, id' = id := by
  rw [h.1]
  exact fun id' hid => absurd hid (Option.not_mem_none id')

/-- From nothing open, a look at a record leaves nothing open. -/
theorem Debt.Clear.look (h : t.Clear) (id : Uuid) : debts.allows t (.getJob id) ∧
    ∀ stored, (debts.next t (.getJob id) stored).Clear := by
  refine ⟨h.owes_nothing id, fun stored => ⟨?_, h.2⟩⟩
  show (if stored.any (·.state = .pending) then t.owes else none) = none
  rw [h.1, ite_self]

theorem debts_heartbeat (h : t.Clear) :
    (heartbeat ctx worker).Obeys debts (fun _ t' => t'.Clear) t := by
  refine (obeys_call_bind _ _ _).mpr ⟨trivial, fun payload _ => ?_⟩
  cases payload with
  | none => exact h
  | some info => exact ⟨trivial, fun now _ => ⟨trivial, fun _ _ => h⟩⟩

theorem debts_claimJob (h : t.Clear) :
    (claimJob ctx worker).Obeys debts (fun _ t' => t'.Clear) t := by
  refine (obeys_call_bind _ _ _).mpr ⟨h, fun popped _ => ?_⟩
  cases popped with
  | none => exact ⟨rfl, h.2⟩
  | some id =>
    have hlook : ∀ id' ∈ some id, id' = id := fun id' hid => (Option.some.inj hid).symm
    refine (obeys_call_bind _ _ _).mpr ⟨hlook, fun stored hstored => ?_⟩
    cases stored with
    | none => exact ⟨rfl, h.2⟩
    | some job =>
      have hid : job.id = id := hstored job rfl
      subst hid
      dsimp only
      split
      · next hs =>
        -- the record is no longer pending: the popped id may go
        refine ⟨if_neg ?_, h.2⟩
        rw [Option.any_some, decide_eq_true_eq]
        exact hs
      · next hs =>
        have hpending : job.state = .pending := not_not.mp hs
        have howes : ∀ id' ∈ (debts.next { t with owes := some job.id } (.getJob job.id)
            (some job)).owes, id' = job.id := by
          intro id' hid
          have hid' : id' ∈ (if (some job).any (·.state = .pending) then some job.id else none) :=
            hid
          rw [Option.any_some, if_pos (decide_eq_true hpending)] at hid'
          exact hlook id' hid'
        have hclaim : transitionTo job.state .claimed = pure .claimed := by
          rw [hpending]
          rfl
        rw [hclaim, pure_bind]
        refine (obeys_call_bind _ _ _).mpr ⟨trivial, fun now _ => ?_⟩
        refine debts_save_then h.2 howes fun t' hsaved => ?_
        have hclear := hsaved.clear (by simp)
        refine (obeys_call_bind _ _ _).mpr ⟨trivial, fun _ _ => ?_⟩
        exact (debts_heartbeat hclear).seq (fun _ _ h => h) (fun _ _ h => h)

theorem debts_startTranscode (h : t.Clear) :
    (startTranscode ctx worker job).Obeys debts (fun _ t' => t'.Clear) t := by
  have hassert : (assertWorkerOwnsJob worker job).Obeys debts (fun _ t' => t'.Clear) t := by
    unfold assertWorkerOwnsJob
    split
    · exact h
    · split <;> exact h
  refine hassert.seq (fun _ t₁ h₁ => ?_) (fun _ _ h => h)
  refine transitionTo_obeys (fun _ => ?_) (fun _ => h₁)
  refine (obeys_call_bind _ _ _).mpr ⟨trivial, fun now _ => ?_⟩
  refine debts_save_then h₁.2 (h₁.owes_nothing _) fun t' hsaved => ?_
  exact ⟨trivial, fun _ _ => hsaved.clear (by simp)⟩

theorem debts_writeSummary (result : TranscodeResult) (h : t.Clear) :
    (writeSummary ctx job result).Obeys debts (fun _ t' => t'.Clear) t := by
  unfold writeSummary
  split
  · exact h
  · refine (obeys_call_bind _ _ _).mpr ⟨trivial, fun outcome _ => ?_⟩
    refine (obeys_bind _ _ _).mpr ((obeys_ofExcept _ _).mpr ?_)
    cases outcome with
    | error e => exact h
    | ok summary =>
      refine (obeys_call_bind _ _ _).mpr ⟨trivial, fun _ _ => ?_⟩
      refine transitionTo_obeys (fun _ => ?_) (fun _ => h)
      refine (obeys_call_bind _ _ _).mpr ⟨trivial, fun now _ => ?_⟩
      exact debts_save_then h.2 (h.owes_nothing _) fun t' hsaved => hsaved.clear (by simp)

theorem debts_failJob (error : String) (h : t.Clear) :
    (failJob ctx job error).Obeys debts (fun _ t' => t'.Clear) t := by
  refine transitionTo_obeys (fun _ => ?_) (fun _ => h)
  refine (obeys_call_bind _ _ _).mpr ⟨trivial, fun now _ => ?_⟩
  refine debts_save_then h.2 (h.owes_nothing _) fun t' hsaved => ?_
  exact ⟨trivial, fun _ _ => hsaved.clear (by simp)⟩

/-- Between the save and the push the id is owed. -/
theorem debts_requeueJob (error : String) (h : t.Clear) :
    (requeueJob ctx job error).Obeys debts (fun _ t' => t'.Clear) t := by
  refine transitionTo_obeys (fun _ => ?_) (fun _ => h)
  refine debts_save_then h.2 (h.owes_nothing _) fun t' hsaved => ?_
  exact ⟨hsaved.owed rfl, fun _ _ => ⟨rfl, hsaved.moving⟩⟩

theorem debts_handleError (message : String) (h : t.Clear) :
    (handleError ctx worker job message).Obeys debts (fun _ t' => t'.Clear) t := by
  refine (obeys_call_bind _ _ _).mpr ⟨(h.look job.id).1, fun stored _ => ?_⟩
  have hclear := (h.look job.id).2 stored
  unfold handleJobFailure
  split
  · exact hclear
  · split
    · exact hclear
    · split
      · exact debts_failJob message hclear
      · exact debts_requeueJob message hclear

theorem debts_processNextJob (h : t.Clear) :
    (processNextJob ctx worker).Obeys debts (fun _ t' => t'.Clear) t := by
  refine processNextJob_obeys (fun _ => Debt.Clear) (fun _ _ => Debt.Clear) (fun _ => Debt.Clear)
    (fun _ => Debt.Clear) ?_ ?_ ?_ ?_ ?_ ?_ ?_ ?_
  · refine (debts_claimJob h).mono fun r t' h => ?_
    cases r with
    | ok claimed => cases claimed <;> exact h
    | error e => exact h
  · intro job t h
    refine (debts_startTranscode h).mono fun r t' h => ?_
    cases r <;> exact h
  · exact fun job processing t h => ⟨trivial, fun _ _ => h⟩
  · intro job processing result t h
    refine (debts_writeSummary result h).mono fun r t' h => ?_
    cases r <;> exact h
  · exact fun job processing t h => h
  · exact fun job message t h => debts_handleError message h
  · exact fun job t h => h
  · exact fun job t h => ⟨(h.look job.id).1, fun r _ => (h.look job.id).2 r⟩

theorem debts_recoverStaleJobs (h : t.Clear) :
    (recoverStaleJobs ctx).Obeys debts (fun _ t' => t'.Clear) t := by
  have hkeep : ∀ (job : TranscodeJob) (t : Debt) (c : Cmd) (r : Reply c), True → True :=
    fun _ _ _ _ h => h
  refine recoverStaleJobs_obeys Debt.Clear (fun _ _ => True) hkeep ?_ ?_ h
  · intro state t _ h
    refine listByState_obeys (fun _ => Debt.Clear) hkeep (fun _ _ h => h) trivial
      fun ids _ => ⟨h, ?_⟩
    exact fun id _ t h => ⟨(h.look id).1, fun r _ => ⟨(h.look id).2 r, fun _ _ => trivial⟩⟩
  · intro job t h _
    refine ⟨trivial, fun alive _ => ⟨h, fun _ => ?_⟩⟩
    unfold recoverJob
    split
    · exact debts_failJob _ h
    · exact debts_requeueJob _ h

/-- The file is marked with an id that is stored, while the id is owed. -/
theorem debts_enqueueJob (probed : ProbedInput) (chosen : ProfileMatch) (h : t.Clear) :
    (enqueueJob ctx probed chosen).Obeys debts (fun _ t' => t'.Clear) t := by
  refine (obeys_call_bind _ _ _).mpr ⟨trivial, fun known _ => ?_⟩
  cases known with
  | true => exact h
  | false =>
    refine (obeys_call_bind _ _ _).mpr ⟨trivial, fun id _ => ?_⟩
    refine (obeys_call_bind _ _ _).mpr ⟨trivial, fun now _ => ?_⟩
    refine debts_save_then h.2 (h.owes_nothing _) fun t' hsaved => ?_
    refine (obeys_call_bind _ _ _).mpr ⟨hsaved.saved, fun _ _ => ?_⟩
    exact ⟨hsaved.owed rfl, fun _ _ => ⟨rfl, hsaved.moving⟩⟩

theorem code_debts (ctx : Context) (l : Label) :
    (code ctx l).Obeys debts (fun _ t => t.Clear) Debt.initial := by
  have hclear : Debt.initial.Clear := ⟨rfl, rfl⟩
  cases l with
  | enqueueJob probed chosen =>
    exact (obeys_discard _ _).mpr (debts_enqueueJob probed chosen hclear)
  | scanInputFolder candidates =>
    exact (obeys_discard _ _).mpr (scanInputFolder_obeys (fun path t h => ⟨trivial, fun r _ => h⟩)
      (fun probed chosen t h => debts_enqueueJob probed chosen h) Debt.initial hclear)
  | recoverStaleJobs => exact (obeys_discard _ _).mpr (debts_recoverStaleJobs hclear)
  | processNextJob worker => exact (obeys_discard _ _).mpr (debts_processNextJob hclear)

end

/-! The invariant. -/

/-- What is not on the server is open in a live process. -/
structure Accounted (w : World) (K : Nat → Option Debt) : Prop where
  ids : ∀ {id job}, w.jobs id = some job → job.id = id
  pending : ∀ {id job}, w.jobs id = some job → job.state = .pending →
    Backed (id ∈ w.pendingQueue) (fun t => t.owes = some id) K
  held : ∀ {id job}, w.jobs id = some job → job.state.Held →
    Backed (id ∈ w.stateIndex job.state) (fun t => t.Moves job.state id) K
  processed : ∀ {path id}, w.processed path = some id → w.jobs id ≠ none
  saved : Each (fun t => ∀ id ∈ t.saved, w.jobs id ≠ none) K

section
variable {w w' : World} {K : Nat → Option Debt} {pid : Nat} {t t' : Debt}

/-- One process moves on, while the server changes: it answers for a record, or the record is the
    old one and what was on the server or its own to do still is. -/
theorem Accounted.step (h : Accounted w K) (hk : K pid = some t)
    (hstored : ∀ id, w.jobs id ≠ none → w'.jobs id ≠ none)
    (hids : ∀ id job, w'.jobs id = some job → job.id = id)
    (hpending : ∀ id job, w'.jobs id = some job → job.state = .pending →
      t'.owes = some id ∨ w.jobs id = some job ∧
        (id ∈ w.pendingQueue ∨ t.owes = some id → id ∈ w'.pendingQueue ∨ t'.owes = some id))
    (hheld : ∀ id job, w'.jobs id = some job → job.state.Held →
      t'.Moves job.state id ∨ w.jobs id = some job ∧
        (id ∈ w.stateIndex job.state ∨ t.Moves job.state id →
          id ∈ w'.stateIndex job.state ∨ t'.Moves job.state id))
    (hprocessed : ∀ path id, w'.processed path = some id → w.jobs id ≠ none)
    (hsaved : ∀ id ∈ t'.saved, w'.jobs id ≠ none) :
    Accounted w' (Function.update K pid (some t')) where
  ids := hids _ _
  pending := by
    intro id job hj hs
    rcases hpending id job hj hs with howes | ⟨hold, hkeep⟩
    · exact .inr ⟨pid, t', Function.update_self .., howes⟩
    · exact (h.pending hold hs).step hk (fun hq => hkeep (.inl hq)) (fun ho => hkeep (.inr ho))
  held := by
    intro id job hj hs
    rcases hheld id job hj hs with hmoves | ⟨hold, hkeep⟩
    · exact .inr ⟨pid, t', Function.update_self .., hmoves⟩
    · exact (h.held hold hs).step hk (fun hm => hkeep (.inl hm)) (fun hm => hkeep (.inr hm))
  processed := fun hp => hstored _ (hprocessed _ _ hp)
  saved := Each.set hsaved fun i u _ hu id hid => hstored id (h.saved i u hu id hid)

/-- The server changes in nothing that is accounted for. -/
theorem Accounted.congr (h : Accounted w K) (hjobs : w'.jobs = w.jobs)
    (hqueue : w'.pendingQueue = w.pendingQueue) (hsets : w'.stateIndex = w.stateIndex)
    (hprocessed : w'.processed = w.processed) : Accounted w' K := by
  constructor
  · rw [hjobs]
    exact h.ids
  · rw [hjobs, hqueue]
    exact h.pending
  · rw [hjobs, hsets]
    exact h.held
  · rw [hjobs, hprocessed]
    exact h.processed
  · rw [hjobs]
    exact h.saved

/-- A process starts with nothing open. -/
theorem Accounted.start (h : Accounted w K) (hk : K pid = none) :
    Accounted w (Function.update K pid (some Debt.initial)) where
  ids := h.ids
  pending := fun hj hs => (h.pending hj hs).start hk
  held := fun hj hs => (h.held hj hs).start hk
  processed := h.processed
  saved := Each.set (fun _ hid => absurd hid List.not_mem_nil) fun i u _ hu => h.saved i u hu

/-- A process stops that spares the jobs. -/
theorem Accounted.forget (h : Accounted w K)
    (hspares : ∀ t, K pid = some t → ∀ id job, w.jobs id = some job →
      (job.state = .pending → t.owes = some id →
        id ∈ w.pendingQueue ∨ ∃ i u, i ≠ pid ∧ K i = some u ∧ u.owes = some id) ∧
      (job.state.Held → t.Moves job.state id →
        id ∈ w.stateIndex job.state ∨ ∃ i u, i ≠ pid ∧ K i = some u ∧ u.Moves job.state id)) :
    Accounted w (Function.update K pid none) where
  ids := h.ids
  pending := fun hj hs => (h.pending hj hs).forget fun t ht ho => (hspares t ht _ _ hj).1 hs ho
  held := fun hj hs => (h.held hj hs).forget fun t ht hm => (hspares t ht _ _ hj).2 hs hm
  processed := h.processed
  saved := by
    intro i u hu
    by_cases hi : i = pid
    · rw [hi, Function.update_self] at hu
      cases hu
    · rw [Function.update_of_ne hi] at hu
      exact h.saved i u hu

/-- A command that leaves the records and the marks alone, and what the process has saved. -/
theorem Accounted.same (h : Accounted w K) (hk : K pid = some t) (hjobs : w'.jobs = w.jobs)
    (hprocessed : w'.processed = w.processed) (hsaves : t'.saved = t.saved)
    (hpending : ∀ id job, w.jobs id = some job → job.state = .pending →
      id ∈ w.pendingQueue ∨ t.owes = some id → id ∈ w'.pendingQueue ∨ t'.owes = some id)
    (hheld : ∀ id (s : JobState), s.Held → id ∈ w.stateIndex s ∨ t.Moves s id →
      id ∈ w'.stateIndex s ∨ t'.Moves s id) :
    Accounted w' (Function.update K pid (some t')) := by
  apply h.step hk
  · rw [hjobs]
    exact fun id hj => hj
  · rw [hjobs]
    exact fun id job => h.ids
  · rw [hjobs]
    exact fun id job hj hs => .inr ⟨hj, hpending id job hj hs⟩
  · rw [hjobs]
    exact fun id job hj hs => .inr ⟨hj, hheld id job.state hs⟩
  · rw [hprocessed]
    exact fun path id => h.processed
  · rw [hjobs, hsaves]
    exact h.saved pid t hk

/-- A debt ends only when the record is seen not to be pending. -/
theorem Accounted.getJob {id : Uuid} (h : Accounted w K) (hk : K pid = some t)
    (ha : debts.allows t (.getJob id)) : Accounted (w.effect (.getJob id) (w.jobs id))
      (Function.update K pid (some (debts.next t (.getJob id) (w.jobs id)))) := by
  refine h.same hk rfl rfl rfl ?_ (fun _ _ _ hm => hm)
  intro id' job hj hs hq
  refine hq.imp (fun hq => hq) (fun ho => ?_)
  have hid : id' = id := ha id' ho
  subst hid
  show (if (w.jobs id').any (·.state = .pending) then t.owes else none) = some id'
  rw [hj, Option.any_some, if_pos (decide_eq_true hs)]
  exact ho

/-- The head of the queue becomes a debt of the process. -/
theorem Accounted.brpopPending (h : Accounted w K) (hk : K pid = some t)
    (ha : debts.allows t .brpopPending) :
    Accounted (w.effect .brpopPending w.pendingQueue.head?)
      (Function.update K pid (some (debts.next t .brpopPending w.pendingQueue.head?))) := by
  refine h.same hk rfl rfl rfl ?_ (fun _ _ _ hm => hm)
  have hpop : ∀ queue : List Uuid, ∀ id ∈ queue, id ∈ queue.tail ∨ queue.head? = some id := by
    intro queue id hq
    cases hq with
    | head rest => exact .inr rfl
    | tail first hq => exact .inl hq
  intro id job _ _ hq
  rcases hq with hq | ho
  · exact hpop w.pendingQueue id hq
  · rw [ha.1] at ho
    cases ho

theorem Accounted.lpushPending {id : Uuid} (h : Accounted w K) (hk : K pid = some t) {r : Unit}
    (howes : t.owes = some id) : Accounted (w.effect (.lpushPending id) r)
      (Function.update K pid (some (debts.next t (.lpushPending id) r))) := by
  refine h.same hk rfl rfl rfl ?_ (fun _ _ _ hm => hm)
  intro id' job _ _ hq
  refine .inl (List.mem_append.mpr (hq.imp (fun hq => hq) (fun ho => ?_)))
  rw [howes, Option.some.injEq] at ho
  exact List.mem_singleton.mpr ho.symm

theorem Accounted.sremState {id : Uuid} (h : Accounted w K) (hk : K pid = some t) {s : JobState}
    {r : Unit} (hstill : t.moving = .still) : Accounted (w.effect (.sremState s id) r)
      (Function.update K pid (some (debts.next t (.sremState s id) r))) := by
  refine h.same hk rfl rfl rfl (fun _ _ _ _ hq => hq) ?_
  intro id' s' _ hm
  by_cases hid : id' = id
  · exact .inr (.inl (by rw [hid]; rfl))
  · rcases hm with hm | hm
    · exact .inl ((World.mem_sremState r).mpr ⟨hm, fun he => hid he.2⟩)
    · rw [Debt.Moves, hstill] at hm
      exact hm.elim (fun he => by cases he) (fun he => by cases he)

theorem Accounted.saddState {id : Uuid} (h : Accounted w K) (hk : K pid = some t) {s : JobState}
    {r : Unit} (hmoving : t.moving = .stored s id) : Accounted (w.effect (.saddState s id) r)
      (Function.update K pid (some (debts.next t (.saddState s id) r))) := by
  refine h.same hk rfl rfl rfl (fun _ _ _ _ hq => hq) ?_
  intro id' s' _ hm
  refine .inl ((World.mem_saddState r).mpr (hm.imp (fun hm => hm) (fun hm => ?_)))
  rw [Debt.Moves, hmoving, Moving.stored] at hm
  split at hm
  · rcases hm with he | he <;> cases he
    exact ⟨rfl, rfl⟩
  · rcases hm with he | he <;> cases he

/-- A record written pending is a debt of the process, one written to a worker is on its way into
    the set of its state. -/
theorem Accounted.setJob (h : Accounted w K) (hk : K pid = some t) {job : TranscodeJob} {ex : Nat}
    {r : Unit} (ha : debts.allows t (.setJob job ex)) : Accounted (w.effect (.setJob job ex) r)
      (Function.update K pid (some (debts.next t (.setJob job ex) r))) := by
  have hjobs := w.jobs_setJob job ex r
  have hstored : ∀ id, w.jobs id ≠ none → (w.effect (.setJob job ex) r).jobs id ≠ none := by
    intro id hj
    rw [hjobs]
    split
    · exact Option.some_ne_none _
    · exact hj
  refine h.step hk hstored ?_ ?_ ?_ (fun path id hp => h.processed hp) ?_
  · intro id job' hj
    rw [hjobs] at hj
    split at hj
    · next hid =>
      cases hj
      exact hid.symm
    · exact h.ids hj
  · intro id job' hj hs
    rw [hjobs] at hj
    split at hj
    · next hid =>
      cases hj
      refine .inl ?_
      show (if job.state = .pending then some job.id else none) = some id
      rw [if_pos hs, hid]
    · next hid =>
      refine .inr ⟨hj, fun hq => .inl (hq.resolve_right fun ho => hid ?_)⟩
      exact ha.2 id ho
  · intro id job' hj hs
    rw [hjobs] at hj
    split at hj
    · next hid =>
      cases hj
      refine .inl (.inr ?_)
      show Moving.stored job.state job.id = .entering job.state id
      rw [Moving.stored, if_pos hs, hid]
    · next hid =>
      refine .inr ⟨hj, fun hm => .inl (hm.resolve_right fun hmoves => ?_)⟩
      -- the process is in no other save
      rcases ha.1 with hstill | hleaving
      · rw [Debt.Moves, hstill] at hmoves
        rcases hmoves with he | he <;> cases he
      · rw [Debt.Moves, hleaving] at hmoves
        rcases hmoves with he | he
        · cases he
          exact hid rfl
        · cases he
  · intro id hid
    rcases List.mem_cons.mp hid with he | hid
    · rw [hjobs, if_pos he]
      exact Option.some_ne_none _
    · exact hstored id (h.saved pid t hk id hid)

theorem Accounted.setProcessed {id : Uuid} (h : Accounted w K) (hk : K pid = some t)
    {path : String} {r : Unit} (ha : debts.allows t (.setProcessed path id)) :
    Accounted (w.effect (.setProcessed path id) r)
      (Function.update K pid (some (debts.next t (.setProcessed path id) r))) := by
  have hsaved := h.saved pid t hk
  refine h.step hk (fun _ hj => hj) (fun _ _ => h.ids)
    (fun _ _ hj _ => .inr ⟨hj, fun hq => hq⟩) (fun _ _ hj _ => .inr ⟨hj, fun hm => hm⟩) ?_ hsaved
  intro path' id' hp
  rw [World.processed_setProcessed] at hp
  split at hp
  · cases hp
    exact hsaved id ha
  · exact h.processed hp

theorem Accounted.exec (h : Accounted w K) {c : Cmd} {x : Choice} {r : Reply c}
    (hk : K pid = some t) (ha : debts.allows t c) (hr : World.answer w c x = some r) :
    debts.expects t c r ∧
      Accounted (w.effect c r) (Function.update K pid (some (debts.next t c r))) := by
  cases c with
  | getJob id =>
    cases hr
    exact ⟨fun job hj => h.ids hj, h.getJob hk ha⟩
  | brpopPending =>
    cases hr
    exact ⟨trivial, h.brpopPending hk ha⟩
  | lpushPending id => exact ⟨trivial, h.lpushPending hk ha⟩
  | sremState s id => exact ⟨trivial, h.sremState hk ha⟩
  | saddState s id => exact ⟨trivial, h.saddState hk ha⟩
  | setJob job ex => exact ⟨trivial, h.setJob hk ha⟩
  | setProcessed path id => exact ⟨trivial, h.setProcessed hk ha⟩
  | _ =>
    exact ⟨trivial, h.same hk rfl rfl rfl (fun _ _ _ _ hq => hq) (fun _ _ _ hm => hm)⟩

end

/-! Runs. -/

/-- All processes pay their debts, and what is not on the server is among the open ones. -/
structure Solvent (s : Cluster) : Prop where
  obeying : Obeying debts (fun _ => Debt.initial) Debt.Clear s
  accounted : Accounted s.store s.debts

theorem solvent_initial : Solvent Cluster.initial := by
  refine ⟨?_, ?_, ?_, ?_, ?_, ?_⟩
  · exact fun p hp => by cases hp
  · exact fun hj => by cases hj
  · exact fun hj => by cases hj
  · exact fun hj => by cases hj
  · exact fun hp => by cases hp
  · exact fun i t h => by cases h

theorem solvent_step (s : Cluster) (a : Act) (h : Solvent s) (hok : StopsClear s a) :
    Solvent ((deployment ctx).step s a) := by
  have hnext := pool_step_live Accounted h.obeying h.accounted (S := deployment ctx) (a := a)
    (fun l _ => code_debts ctx l) ?_ ?_ ?_ ?_
  · exact ⟨hnext.1, hnext.2⟩
  · exact fun l pid _ hnone => h.accounted.start hnone
  · exact fun pid x l past c k r _ _ hk hallow hr => h.accounted.exec hk hallow hr
  · intro pid p ha _
    subst ha
    exact h.accounted.forget hok
  · intro e he
    subst he
    -- the clock, the files and the heartbeats are no concern of the debts
    cases e with
    | clock now => exact h.accounted.congr rfl rfl rfl rfl
    | media path outcome => exact h.accounted.congr rfl rfl rfl rfl
    | expire key =>
      cases key with
      | jobHeartbeat id => exact h.accounted.congr rfl rfl rfl rfl
      | _ => exact hok.elim

theorem solvent_run {as : List Act}
    (h : Meets (deployment ctx).step StopsClear Cluster.initial as) :
    Solvent ((deployment ctx).run Cluster.initial as) :=
  run_invariant Solvent solvent_step solvent_initial h

/-- Once every process has ended, nothing is open. -/
theorem Solvent.clear {s : Cluster} (h : Solvent s) (hended : ∀ p ∈ s.procs, p.Ended) :
    Each Debt.Clear s.debts := by
  intro i t ht
  obtain ⟨p, hp, hlive, hdebt⟩ := Pool.knowsLive_iff.mp ht
  have hmem := List.mem_of_getElem? hp
  rw [← hdebt]
  exact h.obeying.ended hmem (hended p hmem) hlive

theorem Solvent.crashSafe {s : Cluster} (h : Solvent s) (hended : ∀ p ∈ s.procs, p.Ended) :
    CrashSafe s.store := by
  have hclear := h.clear hended
  have hqueued : ∀ id job, s.store.jobs id = some job → job.state = .pending →
      id ∈ s.store.pendingQueue := by
    intro id job hj hs
    rcases h.accounted.pending hj hs with hq | ⟨i, t, ht, howes⟩
    · exact hq
    · rw [(hclear i t ht).1] at howes
      cases howes
  have hindexed : ∀ id job, s.store.jobs id = some job → job.state.Held →
      id ∈ s.store.stateIndex job.state := by
    intro id job hj hs
    rcases h.accounted.held hj hs with hm | ⟨i, t, ht, hmoves⟩
    · exact hm
    · rw [Debt.Moves, (hclear i t ht).2] at hmoves
      rcases hmoves with he | he <;> cases he
  refine ⟨hqueued _ _, fun hp => ?_⟩
  obtain ⟨job, hj⟩ := Option.ne_none_iff_exists'.mp (h.accounted.processed hp)
  refine ⟨job, hj, ?_⟩
  cases hs : job.state with
  | pending => exact .inl ⟨rfl, hqueued _ job hj hs⟩
  | claimed =>
    have hheld : job.state.Held := .inl hs
    rw [← hs]
    exact .inr (.inl ⟨hheld, hindexed _ job hj hheld⟩)
  | processing =>
    have hheld : job.state.Held := .inr hs
    rw [← hs]
    exact .inr (.inl ⟨hheld, hindexed _ job hj hheld⟩)
  | completed => exact .inr (.inr (.inl rfl))
  | failed => exact .inr (.inr (.inr rfl))

/-- Along every run in which processes may be killed between any two commands, but none while it
    alone answers for a job, no job is lost. -/
theorem crash_safe (ctx : Context) (as : List Act)
    (h : Meets (deployment ctx).step StopsClear Cluster.initial as)
    (hended : ∀ p ∈ ((deployment ctx).run Cluster.initial as).procs, p.Ended) :
    CrashSafe ((deployment ctx).run Cluster.initial as).store :=
  (solvent_run h).crashSafe hended

/-- A job is enqueued, worker 7 claims it and is killed while it transcodes, the heartbeat
    lapses, and a pass requeues the job. -/
def killedWhileTranscoding : List Act :=
  [.spawn (.enqueueJob (mp4File "/tmp/input/a.mp4") defaultMatch), .exec 0 .go, .exec 0 (.id 1),
    .exec 0 .go, .exec 0 .go, .exec 0 .go, .exec 0 .go, .exec 0 .go, .exec 0 .go,
    .spawn (.processNextJob 7), .exec 1 .go, .exec 1 .go, .exec 1 .go, .exec 1 .go, .exec 1 .go,
    .exec 1 .go, .exec 1 .go, .exec 1 .go, .exec 1 .go, .exec 1 .go, .exec 1 .go, .exec 1 .go,
    .exec 1 .go, .exec 1 .go, .exec 1 .go, .kill 1, .env (.expire (.jobHeartbeat 1)),
    .spawn .recoverStaleJobs, .exec 2 (.order []), .exec 2 (.order [1]), .exec 2 .go, .exec 2 .go,
    .exec 2 .go, .exec 2 .go, .exec 2 .go, .exec 2 .go, .exec 2 .go]

theorem crash_safe_recovered :
    CrashSafe ((deployment smallContext).run Cluster.initial killedWhileTranscoding).store := by
  refine crash_safe _ _ ⟨trivial, trivial, trivial, trivial, trivial, trivial, trivial, trivial,
    trivial, trivial, trivial, trivial, trivial, trivial, trivial, trivial, trivial, trivial,
    trivial, trivial, trivial, trivial, trivial, trivial, trivial, ?_, trivial, trivial, trivial,
    trivial, trivial, trivial, trivial, trivial, trivial, trivial, trivial, trivial⟩ ?_
  · -- the worker has nothing open inside `transcode()`
    intro t ht id job _
    cases ht
    refine ⟨fun _ howes => ?_, fun _ hmoves => ?_⟩
    · cases howes
    · rcases hmoves with he | he <;> cases he
  · intro p hp
    rcases hp with _ | ⟨_, _ | ⟨_, _ | ⟨_, hp⟩⟩⟩
    · trivial
    · trivial
    · trivial
    · cases hp

/-- `EnqueueJob` is killed after it has marked the file and before it pushes the id. -/
def killedAfterMark : List Act :=
  [.spawn (.enqueueJob (mp4File "/tmp/input/a.mp4") defaultMatch), .exec 0 .go, .exec 0 (.id 1),
    .exec 0 .go, .exec 0 .go, .exec 0 .go, .exec 0 .go, .exec 0 .go, .kill 0]

theorem lost_between_mark_and_push : ¬ ∀ as : List Act, (∀ a ∈ as, OnlyHeartbeatsLapse a) →
    (∀ p ∈ ((deployment smallContext).run Cluster.initial as).procs, p.Ended) →
      CrashSafe ((deployment smallContext).run Cluster.initial as).store := by
  intro h
  have hsafe := h killedAfterMark (by simp [killedAfterMark, OnlyHeartbeatsLapse]) ?_
  · -- the record is pending, the queue is empty
    have hqueued : (1 : Uuid) ∈ ([] : List Uuid) := hsafe.queued rfl rfl
    cases hqueued
  · intro p hp
    rcases hp with _ | ⟨_, hp⟩
    · trivial
    · cases hp

end Vshift
