import Vshift.Processes

/- Well-formed records: what is stored for a job, whatever runs, crashes or
   expires.

   A record's fields follow from its state (`Shape`), its attempt stays within
   `max_retries`, its timestamps are in order, and what `EnqueueJob` wrote once is
   never changed (`Origin`). Every process works on copies it has read earlier, so
   the property is kept as knowledge: a `Memory` holds the records a process has
   read and the instants it has seen, and a process may only save a record that
   is a well-formed copy of one of them (`Holds`). -/
namespace Vshift
open Command Program

/-! Well-formed records. -/

/-- What `EnqueueJob` writes once for all. -/
structure Origin where
  id : Uuid
  inputPath : Path
  outputPath : Path
  profileName : String
  profileSnapshot : VshiftProfile
  createdAt : DateTime
  matchRuleId : String

namespace TranscodeJob

def origin (job : TranscodeJob) : Origin where
  id := job.id
  inputPath := job.inputPath
  outputPath := job.outputPath
  profileName := job.profileName
  profileSnapshot := job.profileSnapshot
  createdAt := job.createdAt
  matchRuleId := job.matchRuleId

/-- The timestamps that are set, in the order they should be in. -/
def timestamps (job : TranscodeJob) : List DateTime :=
  job.createdAt :: (job.claimedAt.toList ++ (job.startedAt.toList ++ job.completedAt.toList))

/-- The fields that are set in each state. -/
def Shape (job : TranscodeJob) : Prop :=
  match job.state with
  | .pending => job.workerId = none ∧ job.claimedAt = none ∧ job.startedAt = none ∧
    job.completedAt = none
  | .claimed => job.workerId ≠ none ∧ job.claimedAt ≠ none ∧ job.startedAt = none ∧
    job.completedAt = none
  | .processing => job.workerId ≠ none ∧ job.claimedAt ≠ none ∧ job.startedAt ≠ none ∧
    job.completedAt = none
  | .completed => job.workerId ≠ none ∧ job.claimedAt ≠ none ∧ job.startedAt ≠ none ∧
    job.completedAt ≠ none ∧ job.errorMessage = none
  | .failed => job.workerId = none ∧ job.completedAt ≠ none ∧ job.errorMessage ≠ none

structure WellFormed (maxRetries : Nat) (job : TranscodeJob) : Prop where
  attempt_pos : 1 ≤ job.attempt
  attempt_le : job.attempt ≤ maxRetries
  shape : job.Shape
  ordered : job.timestamps.Pairwise (· ≤ ·)

end TranscodeJob

/-! The copies the use cases save. -/

namespace TranscodeJob.WellFormed
variable {n : Nat} {job : TranscodeJob} {now : DateTime}

/-- A job that can still fail or be requeued has not ended. -/
theorem not_completed (h : job.WellFormed n) (hs : job.state.canTransition .failed = true) :
    job.completedAt = none := by
  have hshape := h.shape
  unfold Shape at hshape
  cases hstate : job.state <;> rw [hstate] at hs hshape
  · exact hshape.2.2.2
  · exact hshape.2.2.2
  · exact hshape.2.2.2
  · cases hs
  · cases hs

/-- An instant no earlier than the timestamps set so far comes last. -/
theorem ordered_append (h : job.WellFormed n) (hnow : ∀ x ∈ job.timestamps, x ≤ now) :
    (job.timestamps ++ [now]).Pairwise (· ≤ ·) := by
  rw [List.pairwise_append]
  refine ⟨h.ordered, List.pairwise_singleton _ _, ?_⟩
  intro x hx y hy
  rw [List.mem_singleton.mp hy]
  exact hnow x hx

theorem timestamps_claimedBy (h : job.WellFormed n) (hs : job.state = .pending) (worker : Uuid) :
    (job.claimedBy worker now).timestamps = job.timestamps ++ [now] := by
  have hshape := h.shape
  simp only [Shape, hs] at hshape
  simp [timestamps, TranscodeJob.claimedBy, hshape]

theorem timestamps_started (h : job.WellFormed n) (hs : job.state = .claimed) :
    (job.started now).timestamps = job.timestamps ++ [now] := by
  have hshape := h.shape
  simp only [Shape, hs] at hshape
  simp [timestamps, TranscodeJob.started, hshape]

theorem timestamps_completed (h : job.WellFormed n) (hs : job.state = .processing) :
    (job.completed now).timestamps = job.timestamps ++ [now] := by
  have hcompleted := h.not_completed (by rw [hs]; rfl)
  simp [timestamps, TranscodeJob.completed, hcompleted]

theorem timestamps_failed (h : job.WellFormed n) (hs : job.state.canTransition .failed = true)
    (error : String) : (job.failed error now).timestamps = job.timestamps ++ [now] := by
  have hcompleted := h.not_completed hs
  simp [timestamps, TranscodeJob.failed, hcompleted]

theorem timestamps_requeued (h : job.WellFormed n)
    (hs : job.state.canTransition .failed = true) (error : String) :
    (job.requeued error).timestamps = [job.createdAt] := by
  have hcompleted := h.not_completed hs
  simp [timestamps, TranscodeJob.requeued, hcompleted]

theorem claimedBy (h : job.WellFormed n) (hs : job.state = .pending) (worker : Uuid)
    (hnow : ∀ x ∈ job.timestamps, x ≤ now) : (job.claimedBy worker now).WellFormed n := by
  refine ⟨h.attempt_pos, h.attempt_le, ?_, ?_⟩
  · have hshape := h.shape
    simp only [Shape, hs] at hshape
    simp [Shape, TranscodeJob.claimedBy, hshape]
  · rw [h.timestamps_claimedBy hs]
    exact h.ordered_append hnow

theorem started (h : job.WellFormed n) (hs : job.state = .claimed)
    (hnow : ∀ x ∈ job.timestamps, x ≤ now) : (job.started now).WellFormed n := by
  refine ⟨h.attempt_pos, h.attempt_le, ?_, ?_⟩
  · have hshape := h.shape
    simp only [Shape, hs] at hshape
    simp [Shape, TranscodeJob.started, hshape]
  · rw [h.timestamps_started hs]
    exact h.ordered_append hnow

theorem completed (h : job.WellFormed n) (hs : job.state = .processing)
    (hnow : ∀ x ∈ job.timestamps, x ≤ now) : (job.completed now).WellFormed n := by
  refine ⟨h.attempt_pos, h.attempt_le, ?_, ?_⟩
  · have hshape := h.shape
    simp only [Shape, hs] at hshape
    simp [Shape, TranscodeJob.completed, hshape]
  · rw [h.timestamps_completed hs]
    exact h.ordered_append hnow

theorem failed (h : job.WellFormed n) (hs : job.state.canTransition .failed = true)
    (error : String) (hnow : ∀ x ∈ job.timestamps, x ≤ now) :
    (job.failed error now).WellFormed n := by
  refine ⟨h.attempt_pos, h.attempt_le, ?_, ?_⟩
  · simp [Shape, TranscodeJob.failed]
  · rw [h.timestamps_failed hs]
    exact h.ordered_append hnow

theorem requeued (h : job.WellFormed n) (hs : job.state.canTransition .failed = true)
    (error : String) (ha : job.attempt < n) : (job.requeued error).WellFormed n := by
  have hcompleted := h.not_completed hs
  refine ⟨?_, ha, ?_, ?_⟩
  · exact Nat.le_add_left 1 job.attempt
  · simp [Shape, TranscodeJob.requeued, hcompleted]
  · rw [h.timestamps_requeued hs]
    exact List.pairwise_singleton _ _

end TranscodeJob.WellFormed

/-- What `EnqueueJob` builds. -/
theorem wellFormed_newJob (ctx : Context) (probed : ProbedInput) (chosen : ProfileMatch)
    (id : Uuid) (now : DateTime) :
    (newJob ctx probed chosen id now).WellFormed ctx.maxRetries := by
  refine ⟨Nat.le_refl 1, ctx.config.behavior.maxRetries.2, ?_, ?_⟩
  · exact ⟨rfl, rfl, rfl, rfl⟩
  · exact List.pairwise_singleton _ _

/-! What a process remembers. -/

structure Memory where
  /-- It is one of the processes that create jobs. -/
  enqueues : Bool
  /-- The UUID it has been given and not used yet. -/
  fresh : Option Uuid
  /-- The records it has read. -/
  known : List TranscodeJob
  /-- The records it has saved as an enqueuing process. -/
  wrote : List TranscodeJob
  /-- The ids it has popped. -/
  popped : List Uuid
  /-- The clock's answers and the timestamps in the records it has read. -/
  seen : List DateTime

namespace Memory

def initial (l : Label) : Memory := ⟨l.Enqueues, none, [], [], [], []⟩

/-- A well-formed copy of a record that was read, with timestamps that were seen. -/
structure Holds (ctx : Context) (job : TranscodeJob) (t : Memory) : Prop where
  wellFormed : job.WellFormed ctx.maxRetries
  seen : ∀ x ∈ job.timestamps, x ∈ t.seen
  origin : ∃ old ∈ t.known, old.origin = job.origin

end Memory

def memory (ctx : Context) : Protocol Cmd Reply Memory where
  allows t
    | .setJob job _ => job.WellFormed ctx.maxRetries ∧ (∀ x ∈ job.timestamps, x ∈ t.seen) ∧
      if t.enqueues then t.fresh = some job.id else ∃ old ∈ t.known, old.origin = job.origin
    | .setProcessed path id => ∃ job ∈ t.wrote, job.id = id ∧
      ctx.py.canonicalPath job.inputPath = path
    | .lpushPending id => (∃ job ∈ t.wrote, job.id = id) ∨ ∃ old ∈ t.known, old.id = id
    | _ => True
  expects t
    | .getJob _, r => ∀ job ∈ r, job.WellFormed ctx.maxRetries
    | .now, r => ∀ x ∈ t.seen, x ≤ r
    | _, _ => True
  next t
    | .getJob _, r => { t with
      known := r.toList ++ t.known
      seen := r.toList.flatMap TranscodeJob.timestamps ++ t.seen }
    | .now, r => { t with seen := r :: t.seen }
    | .uuid4, id => { t with fresh := some id }
    | .setJob job _, _ =>
      if t.enqueues then { t with fresh := none, wrote := job :: t.wrote } else t
    | .brpopPending, r => { t with popped := r.toList ++ t.popped }
    | _, _ => t

variable {ctx : Context}

/-! Every program keeps to it. -/

theorem Memory.Holds.next {job : TranscodeJob} (t : Memory) (c : Cmd) (r : Reply c)
    (h : Holds ctx job t) : Holds ctx job ((memory ctx).next t c r) := by
  obtain ⟨old, hold, horigin⟩ := h.origin
  cases c with
  | getJob id =>
    exact ⟨h.wellFormed, fun x hx => List.mem_append_right _ (h.seen x hx),
      old, List.mem_append_right _ hold, horigin⟩
  | now => exact ⟨h.wellFormed, fun x hx => List.mem_cons_of_mem _ (h.seen x hx), h.origin⟩
  | setJob saved ex =>
    simp only [memory]
    split
    · exact ⟨h.wellFormed, h.seen, h.origin⟩
    · exact h
  | uuid4 => exact ⟨h.wellFormed, h.seen, h.origin⟩
  | brpopPending => exact ⟨h.wellFormed, h.seen, h.origin⟩
  | _ => exact h

theorem Memory.role_next (t : Memory) (c : Cmd) (r : Reply c) :
    ((memory ctx).next t c r).enqueues = t.enqueues := by
  cases c with
  | setJob saved ex =>
    simp only [memory]
    split <;> rfl
  | _ => rfl

/-- Reading a record, one holds it. -/
theorem Memory.holds_read (ctx : Context) (t : Memory) {id : Uuid} {job : TranscodeJob}
    (h : job.WellFormed ctx.maxRetries) :
    Holds ctx job ((memory ctx).next t (.getJob id) (some job)) where
  wellFormed := h
  seen := fun _ hx => List.mem_append_left _ (List.mem_flatMap.mpr ⟨job, List.mem_cons_self, hx⟩)
  origin := ⟨job, List.mem_cons_self, rfl⟩

/-- A copy that adds the instant just asked for. -/
theorem Memory.Holds.stamped {t : Memory} {job copy : TranscodeJob} {now : DateTime}
    (h : Holds ctx job t) (hwf : copy.WellFormed ctx.maxRetries)
    (horigin : copy.origin = job.origin)
    (hts : copy.timestamps = job.timestamps ++ [now]) :
    Holds ctx copy ((memory ctx).next t .now now) := by
  refine ⟨hwf, fun x hx => ?_, ?_⟩
  · rw [hts] at hx
    rcases List.mem_append.mp hx with hx | hx
    · exact List.mem_cons_of_mem _ (h.seen x hx)
    · rw [List.mem_singleton.mp hx]
      exact List.mem_cons_self
  · obtain ⟨old, hold, ho⟩ := h.origin
    exact ⟨old, hold, ho.trans horigin.symm⟩

/-- A worker or a recovery pass, holding these records. -/
def Memory.Keeps (ctx : Context) (jobs : List TranscodeJob) (t : Memory) : Prop :=
  t.enqueues = false ∧ ∀ job ∈ jobs, t.Holds ctx job

section
variable {t : Memory} {job : TranscodeJob} {jobs : List TranscodeJob} {worker : Uuid}

theorem Memory.Keeps.next (t : Memory) (c : Cmd) (r : Reply c) (h : Keeps ctx jobs t) :
    Keeps ctx jobs ((memory ctx).next t c r) :=
  ⟨(role_next t c r).trans h.1, fun job hj => (h.2 job hj).next t c r⟩

theorem Memory.Keeps.cons (h : Keeps ctx jobs t) (hj : Holds ctx job t) :
    Keeps ctx (job :: jobs) t :=
  ⟨h.1, List.forall_mem_cons.mpr ⟨hj, h.2⟩⟩

theorem Memory.Keeps.mono {jobs' : List TranscodeJob} (h : Keeps ctx jobs t) (hs : jobs' ⊆ jobs) :
    Keeps ctx jobs' t :=
  ⟨h.1, fun job hj => h.2 job (hs hj)⟩

open Memory

theorem memory_saveJob (h : Keeps ctx jobs t) (hj : job ∈ jobs) :
    (saveJob ctx job).Obeys (memory ctx) (fun r t' => r = .ok () ∧ Keeps ctx jobs t') t := by
  -- a held record may be saved, whatever was read before
  have hsave : ∀ t, Keeps ctx jobs t →
      Replaces (memory ctx) ctx job (fun r t' => r = .ok () ∧ Keeps ctx jobs t') t := by
    intro t h
    have hold := h.2 job hj
    refine ⟨⟨hold.wellFormed, hold.seen, ?_⟩,
      fun _ _ => ⟨trivial, fun _ _ => ⟨rfl, (h.next t _ _).next _ _ _⟩⟩⟩
    rw [if_neg (by rw [h.1]; exact Bool.false_ne_true)]
    exact hold.origin
  exact saveJob_obeys trivial (fun existing _ _ => hsave _ (h.next t _ _))
    (fun old _ _ => ⟨trivial, fun _ _ => hsave _ ((h.next t _ _).next _ _ _)⟩)

/-- A save and what follows it. -/
theorem memory_save_then {α : Type} {f : Unit → Prog α} {Q : Except Exn α → Memory → Prop}
    (h : Keeps ctx jobs t) (hj : job ∈ jobs)
    (hrest : ∀ t', Keeps ctx jobs t' → (f ()).Obeys (memory ctx) Q t') :
    (saveJob ctx job >>= f).Obeys (memory ctx) Q t :=
  (memory_saveJob h hj).seq (fun _ t' h' => hrest t' h'.2) (fun e t' h' => by cases h'.1)

/-- A copy stamped with the time is saved and held. -/
theorem memory_stamp_then {α : Type} (copy : DateTime → TranscodeJob) {f : DateTime → Prog α}
    {Q : Except Exn α → Memory → Prop} (h : Keeps ctx jobs t) (hj : job ∈ jobs)
    (hcopy : ∀ now, (∀ x ∈ job.timestamps, x ≤ now) → (copy now).WellFormed ctx.maxRetries ∧
      (copy now).origin = job.origin ∧ (copy now).timestamps = job.timestamps ++ [now])
    (hrest : ∀ now t', Keeps ctx (copy now :: jobs) t' → (f now).Obeys (memory ctx) Q t') :
    (cmd .now >>= fun now => saveJob ctx (copy now) >>= fun _ => f now).Obeys (memory ctx) Q t := by
  refine (obeys_call_bind _ _ _).mpr ⟨trivial, fun now hnow => ?_⟩
  have hold := h.2 job hj
  obtain ⟨hwf, horigin, hts⟩ := hcopy now (fun x hx => hnow x (hold.seen x hx))
  have hnew := (h.next t .now now).cons (hold.stamped hwf horigin hts)
  exact memory_save_then hnew List.mem_cons_self (hrest now)

/-- Beating a worker's heart changes nothing one remembers but the time. -/
theorem memory_heartbeat (h : Keeps ctx jobs t) :
    (heartbeat ctx worker).Obeys (memory ctx) (fun _ => Keeps ctx jobs) t := by
  refine (obeys_call_bind _ _ _).mpr ⟨trivial, fun payload _ => ?_⟩
  cases payload with
  | none => exact h.next t _ _
  | some info =>
    exact ⟨trivial, fun now _ => ⟨trivial, fun _ _ => ((h.next t _ _).next _ _ _).next _ _ _⟩⟩

theorem memory_claimJob (h : Keeps ctx [] t) :
    (claimJob ctx worker).Obeys (memory ctx) (fun r t' =>
      match r with
      | .ok (some job) => Keeps ctx [job] t'
      | _ => t'.enqueues = false) t := by
  refine (obeys_call_bind _ _ _).mpr ⟨trivial, fun popped _ => ?_⟩
  cases popped with
  | none => exact h.1
  | some id =>
    refine (obeys_call_bind _ _ _).mpr ⟨trivial, fun stored hstored => ?_⟩
    have hread := (h.next t .brpopPending (some id)).next _ (.getJob id) stored
    cases stored with
    | none => exact hread.1
    | some job =>
      dsimp only
      split
      · exact hread.1
      · next hp =>
        have hs : job.state = .pending := not_not.mp hp
        have hholds := hread.cons (holds_read ctx _ (hstored job rfl))
        refine transitionTo_obeys (fun _ => ?_) (fun _ => hread.1)
        apply memory_stamp_then (job.claimedBy worker) hholds List.mem_cons_self
        · intro now hnow
          have hwf := hstored job rfl
          exact ⟨hwf.claimedBy hs worker hnow, rfl, hwf.timestamps_claimedBy hs worker⟩
        · intro now t' ht
          refine (obeys_call_bind _ _ _).mpr ⟨trivial, fun _ _ => ?_⟩
          refine (memory_heartbeat (ht.next t' _ _)).seq (fun _ t'' ht => ?_) (fun _ _ ht => ht.1)
          have hclaimed : Keeps ctx [job.claimedBy worker now] t'' := ht.mono (by simp)
          exact hclaimed

theorem memory_startTranscode (h : Keeps ctx [job] t) :
    (startTranscode ctx worker job).Obeys (memory ctx) (fun r t' =>
      match r with
      | .ok processing => Keeps ctx [processing, job] t'
      | .error _ => Keeps ctx [job] t') t := by
  unfold startTranscode
  have hassert : (assertWorkerOwnsJob worker job).Obeys (memory ctx)
      (fun _ => Keeps ctx [job]) t := by
    unfold assertWorkerOwnsJob
    split
    · exact h
    · split <;> exact h
  refine hassert.seq (fun _ t' h => ?_) (fun _ _ h => h)
  refine transitionTo_obeys (fun hs => ?_) (fun _ => h)
  have hclaimed : job.state = .claimed := by
    cases hstate : job.state <;> rw [hstate] at hs <;> first | rfl | cases hs
  apply memory_stamp_then job.started h List.mem_cons_self
  · intro now hnow
    have hwf := (h.2 job List.mem_cons_self).wellFormed
    exact ⟨hwf.started hclaimed hnow, rfl, hwf.timestamps_started hclaimed⟩
  · exact fun now t' ht => ⟨trivial, fun _ _ => ht.next t' _ _⟩

theorem memory_writeSummary {processing : TranscodeJob} (h : Keeps ctx [processing, job] t)
    (result : TranscodeResult) :
    (writeSummary ctx processing result).Obeys (memory ctx) (fun _ => Keeps ctx [job]) t := by
  have hback : ∀ {t}, Keeps ctx [processing, job] t → Keeps ctx [job] t :=
    fun h => h.mono (by simp)
  unfold writeSummary
  split
  · exact hback h
  · next hp =>
    have hs : processing.state = .processing := not_not.mp hp
    refine (obeys_call_bind _ _ _).mpr ⟨trivial, fun outcome _ => ?_⟩
    refine (obeys_bind _ _ _).mpr ((obeys_ofExcept _ _).mpr ?_)
    have h' := h.next t (.buildSummary processing result) outcome
    cases outcome with
    | error e => exact hback h'
    | ok summary =>
      refine (obeys_call_bind _ _ _).mpr ⟨trivial, fun _ _ => ?_⟩
      refine transitionTo_obeys (fun _ => ?_) (fun _ => hback (h'.next _ _ _))
      apply memory_stamp_then processing.completed (h'.next _ _ _) List.mem_cons_self
      · intro now hnow
        have hwf := (h.2 processing List.mem_cons_self).wellFormed
        exact ⟨hwf.completed hs hnow, rfl, hwf.timestamps_completed hs⟩
      · exact fun now t' ht => ht.mono (by simp)

theorem memory_failJob (h : Keeps ctx [job] t) (error : String) :
    (failJob ctx job error).Obeys (memory ctx) (fun _ t' => t'.enqueues = false) t := by
  refine transitionTo_obeys (fun hs => ?_) (fun _ => h.1)
  apply memory_stamp_then (job.failed error) h List.mem_cons_self
  · intro now hnow
    have hwf := (h.2 job List.mem_cons_self).wellFormed
    exact ⟨hwf.failed hs error hnow, rfl, hwf.timestamps_failed hs error⟩
  · exact fun now t' ht => ⟨trivial, fun _ _ => ht.1⟩

theorem memory_requeueJob (h : Keeps ctx [job] t) (error : String)
    (ha : job.attempt < ctx.maxRetries) :
    (requeueJob ctx job error).Obeys (memory ctx) (fun _ t' => t'.enqueues = false) t := by
  refine transitionTo_obeys (fun hs => ?_) (fun _ => h.1)
  have hfail : job.state.canTransition .failed = true := by
    cases hstate : job.state <;> rw [hstate] at hs <;> first | rfl | cases hs
  have hold := h.2 job List.mem_cons_self
  have hnew : t.Holds ctx (job.requeued error) := by
    refine ⟨hold.wellFormed.requeued hfail error ha, fun x hx => ?_, hold.origin⟩
    rw [hold.wellFormed.timestamps_requeued hfail] at hx
    rw [List.mem_singleton.mp hx]
    exact hold.seen _ List.mem_cons_self
  refine memory_save_then (h.cons hnew) List.mem_cons_self (fun t' ht => ?_)
  obtain ⟨old, hmem, horigin⟩ := (ht.2 _ List.mem_cons_self).origin
  exact ⟨.inr ⟨old, hmem, congrArg Origin.id horigin⟩, fun _ _ => ht.1⟩

theorem memory_handleError (h : Keeps ctx [job] t) (message : String) :
    (handleError ctx worker job message).Obeys (memory ctx)
      (fun _ t' => t'.enqueues = false) t := by
  refine (obeys_call_bind _ _ _).mpr ⟨trivial, fun stored hstored => ?_⟩
  have hnext := h.next t (.getJob job.id) stored
  -- the handler works on the record read, or on the copy when there is none
  have hcurrent : Keeps ctx [stored.getD job]
      ((memory ctx).next t (.getJob job.id) stored) := by
    cases stored with
    | none => exact hnext
    | some current =>
      exact ⟨hnext.1, List.forall_mem_singleton.mpr (holds_read ctx t (hstored _ rfl))⟩
  generalize stored.getD job = current at hcurrent
  unfold handleJobFailure
  split
  · exact hnext.1
  · split
    · exact hnext.1
    · split
      · exact memory_failJob hcurrent message
      · next ha => exact memory_requeueJob hcurrent message (not_le.mp ha)

theorem memory_processNextJob (h : Keeps ctx [] t) :
    (processNextJob ctx worker).Obeys (memory ctx) (fun _ t' => t'.enqueues = false) t := by
  refine processNextJob_obeys (fun job => Keeps ctx [job])
    (fun job processing => Keeps ctx [processing, job]) (fun job => Keeps ctx [job])
    (fun job => Keeps ctx [job]) (memory_claimJob h) ?_ ?_ ?_ ?_ ?_ ?_ ?_
  · exact fun job t h => memory_startTranscode h
  · exact fun job processing t h => ⟨trivial, fun r _ => h.next t _ r⟩
  · intro job processing result t h
    refine (memory_writeSummary h result).mono fun r t' h => ?_
    cases r <;> exact h
  · exact fun job processing t h => h.mono (by simp)
  · exact fun job message t h => memory_handleError h message
  · exact fun job t h => h.1
  · exact fun job t h => ⟨trivial, fun r _ => (h.next t (.getJob job.id) r).1⟩

theorem memory_recoverJob (h : Keeps ctx [job] t) :
    (recoverJob ctx job).Obeys (memory ctx) (fun _ t' => t'.enqueues = false) t := by
  unfold recoverJob
  split
  · exact memory_failJob h _
  · next ha => exact memory_requeueJob h _ (not_le.mp ha)

theorem memory_recoverStaleJobs (h : Keeps ctx [] t) :
    (recoverStaleJobs ctx).Obeys (memory ctx) (fun _ t' => t'.enqueues = false) t := by
  have hkeep : ∀ (job : TranscodeJob) (t : Memory) c r, Holds ctx job t →
      Holds ctx job ((memory ctx).next t c r) := fun job t c r h => h.next t c r
  have hrole : ∀ (t : Memory) c r, t.enqueues = false →
      ((memory ctx).next t c r).enqueues = false := fun t c r h => (role_next t c r).trans h
  refine recoverStaleJobs_obeys (fun t => t.enqueues = false) _ hkeep ?_ ?_ h.1
  · intro state t _ h
    refine listByState_obeys (fun _ t => t.enqueues = false) hkeep (fun _ _ h => h) trivial
      (fun ids _ => ⟨hrole t _ ids h, ?_⟩)
    intro id _ t h
    refine ⟨trivial, fun stored hstored => ⟨hrole t _ stored h, fun job hj => ?_⟩⟩
    rw [Option.mem_def.mp hj]
    exact holds_read ctx t (hstored job hj)
  · intro job t h hj
    refine ⟨trivial, fun alive _ => ⟨hrole t _ alive h, fun _ => memory_recoverJob ⟨?_, ?_⟩⟩⟩
    · exact hrole t _ alive h
    · exact List.forall_mem_singleton.mpr (hkeep job t _ alive hj)

/-! The enqueuing processes. -/

theorem memory_enqueueJob (probed : ProbedInput) (chosen : ProfileMatch) (h : t.enqueues = true) :
    (enqueueJob ctx probed chosen).Obeys (memory ctx) (fun _ t' => t'.enqueues = true) t := by
  refine (obeys_call_bind _ _ _).mpr ⟨trivial, fun known _ => ?_⟩
  cases known with
  | true => exact h
  | false =>
    refine ⟨trivial, fun id _ => ⟨trivial, fun now _ => ?_⟩⟩
    apply (obeys_bind (saveJob ctx (newJob ctx probed chosen id now)) _ _).mpr
    have hsave : ∀ t : Memory, t.enqueues = true → t.fresh = some id → now ∈ t.seen →
        Replaces (memory ctx) ctx (newJob ctx probed chosen id now)
          (andThen (memory ctx) (fun _ => markProcessed ctx probed.path id >>= fun _ =>
            enqueue id >>= fun _ => pure (some (newJob ctx probed chosen id now)))
            (fun _ t => t.enqueues = true)) t := by
      intro t h hfresh hseen
      have hwrote : newJob ctx probed chosen id now ∈
            ((memory ctx).next t (.setJob (newJob ctx probed chosen id now) ctx.queue.ttl.val)
              ()).wrote ∧
          ((memory ctx).next t (.setJob (newJob ctx probed chosen id now) ctx.queue.ttl.val)
            ()).enqueues = true := by
        simp only [memory, if_pos h]
        exact ⟨List.mem_cons_self, h⟩
      refine ⟨⟨wellFormed_newJob .., ?_, ?_⟩, fun _ _ => ⟨trivial, fun _ _ => ?_⟩⟩
      · intro x hx
        rw [List.mem_singleton.mp (show x ∈ [now] from hx)]
        exact hseen
      · rw [if_pos h]
        exact hfresh
      · exact ⟨⟨_, hwrote.1, rfl, rfl⟩, fun _ _ => ⟨.inl ⟨_, hwrote.1, rfl⟩, fun _ _ => hwrote.2⟩⟩
    have hseen : ∀ seen : List DateTime, now ∈ seen ++ now :: t.seen :=
      fun seen => List.mem_append_right seen List.mem_cons_self
    exact saveJob_obeys trivial (fun _ _ _ => hsave _ h rfl (hseen _))
      (fun _ _ _ => ⟨trivial, fun _ _ => hsave _ h rfl (hseen _)⟩)

/-- Every process keeps to what it remembers. -/
theorem code_memory (ctx : Context) (l : Label) :
    (code ctx l).Obeys (memory ctx) (fun _ _ => True) (Memory.initial l) := by
  cases l with
  | enqueueJob probed chosen =>
    refine (obeys_discard _ _).mpr ((memory_enqueueJob probed chosen ?_).mono fun _ _ _ => trivial)
    rfl
  | scanInputFolder candidates =>
    have hscan : ∀ t : Memory, t.enqueues = true → (scanInputFolder ctx candidates).Obeys
        (memory ctx) (fun _ t => t.enqueues = true) t :=
      scanInputFolder_obeys (fun path t h => ⟨trivial, fun r _ => h⟩)
        (fun probed chosen t h => memory_enqueueJob probed chosen h)
    exact (obeys_discard _ _).mpr ((hscan _ rfl).mono fun _ _ _ => trivial)
  | recoverStaleJobs =>
    refine (obeys_discard _ _).mpr ((memory_recoverStaleJobs ⟨rfl, ?_⟩).mono fun _ _ _ => trivial)
    exact fun job hj => by cases hj
  | processNextJob worker =>
    refine (obeys_discard _ _).mpr ((memory_processNextJob ⟨rfl, ?_⟩).mono fun _ _ _ => trivial)
    exact fun job hj => by cases hj

end

/-! The invariant. -/

/-- The records the enqueuing processes have saved. -/
def written (K : Nat → Option Memory) : Set TranscodeJob :=
  {job | ∃ i t, K i = some t ∧ job ∈ t.wrote}

/-- A record of a job that was enqueued, with what was written then. -/
def Original (W : Set TranscodeJob) (job : TranscodeJob) : Prop :=
  ∃ first ∈ W, first.origin = job.origin

/-- What one process remembers is true of the server and of the records written. -/
structure Memory.Backed (issued : Finset Uuid) (clock : DateTime) (W : Set TranscodeJob)
    (t : Memory) : Prop where
  fresh : ∀ id ∈ t.fresh, id ∈ issued ∧ ∀ job ∈ W, job.id ≠ id
  seen : ∀ x ∈ t.seen, x ≤ clock
  known : ∀ old ∈ t.known, Original W old
  popped : ∀ id ∈ t.popped, ∃ job ∈ W, job.id = id

structure Stored (ctx : Context) (clock : DateTime) (W : Set TranscodeJob) (id : Uuid)
    (job : TranscodeJob) : Prop where
  key : job.id = id
  wellFormed : job.WellFormed ctx.maxRetries
  past : ∀ x ∈ job.timestamps, x ≤ clock
  original : Original W job

structure Recorded (ctx : Context) (w : World) (K : Nat → Option Memory) : Prop where
  stored : ∀ {id job}, w.jobs id = some job → Stored ctx w.clock (written K) id job
  once : ∀ {job job'}, job ∈ written K → job' ∈ written K → job.id = job'.id → job = job'
  issued : ∀ {job}, job ∈ written K → job.id ∈ w.issued
  backed : Each (Memory.Backed w.issued w.clock (written K)) K
  apart : EachTwo (fun t u => ∀ id ∈ t.fresh, id ∉ u.fresh) K
  queued : ∀ {id}, id ∈ w.pendingQueue → ∃ job ∈ written K, job.id = id
  marked : ∀ {path id}, w.processed path = some id →
    ∃ job ∈ written K, job.id = id ∧ ctx.py.canonicalPath job.inputPath = path

section
variable {w w' : World} {K : Nat → Option Memory} {pid : Nat} {t t' : Memory}

theorem written_learn (hk : K pid = some t) (hwrote : t'.wrote = t.wrote) :
    written (Function.update K pid (some t')) = written K := by
  ext job
  constructor
  · intro ⟨i, u, hu, hj⟩
    rcases known_update hu with ⟨-, hut⟩ | ⟨-, hu⟩
    · exact ⟨pid, t, hk, by rw [← hwrote, ← hut]; exact hj⟩
    · exact ⟨i, u, hu, hj⟩
  · intro ⟨i, u, hu, hj⟩
    by_cases hi : i = pid
    · subst hi
      rw [hk, Option.some.injEq] at hu
      exact ⟨i, t', Function.update_self .., by rw [hwrote, hu]; exact hj⟩
    · exact ⟨i, u, by rw [Function.update_of_ne hi]; exact hu, hj⟩

theorem written_start (hk : K pid = none) (hwrote : t'.wrote = []) :
    written (Function.update K pid (some t')) = written K := by
  ext job
  constructor
  · intro ⟨i, u, hu, hj⟩
    rcases known_update hu with ⟨-, hut⟩ | ⟨-, hu⟩
    · rw [hut, hwrote] at hj
      cases hj
    · exact ⟨i, u, hu, hj⟩
  · intro ⟨i, u, hu, hj⟩
    have hi : i ≠ pid := fun hi => by rw [hi, hk] at hu; cases hu
    exact ⟨i, u, by rw [Function.update_of_ne hi]; exact hu, hj⟩

theorem written_write (hk : K pid = some t) (t' : Memory) {job : TranscodeJob}
    (hwrote : t'.wrote = job :: t.wrote) :
    written (Function.update K pid (some t')) = insert job (written K) := by
  ext job'
  constructor
  · intro ⟨i, u, hu, hj⟩
    rcases known_update hu with ⟨-, hut⟩ | ⟨-, hu⟩
    · rw [hut, hwrote] at hj
      rcases List.mem_cons.mp hj with hj | hj
      · exact .inl hj
      · exact .inr ⟨pid, t, hk, hj⟩
    · exact .inr ⟨i, u, hu, hj⟩
  · intro hj
    rcases hj with hj | ⟨i, u, hu, hj⟩
    · exact ⟨pid, t', Function.update_self .., by rw [hwrote, hj]; exact List.mem_cons_self⟩
    · by_cases hi : i = pid
      · subst hi
        rw [hk, Option.some.injEq] at hu
        exact ⟨i, t', Function.update_self .., by rw [hwrote, hu]; exact List.mem_cons_of_mem _ hj⟩
      · exact ⟨i, u, by rw [Function.update_of_ne hi]; exact hu, hj⟩

theorem Memory.Backed.mono {W W' : Set TranscodeJob} (h : t.Backed w.issued w.clock W)
    (hissued : w.issued ⊆ w'.issued) (hclock : w.clock ≤ w'.clock) (hW : W ⊆ W')
    (hfresh : ∀ id ∈ t.fresh, ∀ job ∈ W', job ∉ W → job.id ≠ id) :
    t.Backed w'.issued w'.clock W' where
  fresh := fun id hid => ⟨hissued (h.fresh id hid).1, fun job hj => by
    by_cases hold : job ∈ W
    · exact (h.fresh id hid).2 job hold
    · exact hfresh id hid job hj hold⟩
  seen := fun x hx => Nat.le_trans (h.seen x hx) hclock
  known := fun old hold => (h.known old hold).imp fun _ hf => ⟨hW hf.1, hf.2⟩
  popped := fun id hid => (h.popped id hid).imp fun _ hf => ⟨hW hf.1, hf.2⟩

/-- A process learns something and the server changes, but no job is enqueued. -/
theorem Recorded.learn (h : Recorded ctx w K)
    (hwritten : written (Function.update K pid (some t')) = written K)
    (hissued : w.issued ⊆ w'.issued) (hclock : w.clock ≤ w'.clock)
    (hstored : ∀ id job, w'.jobs id = some job → Stored ctx w'.clock (written K) id job)
    (hself : t'.Backed w'.issued w'.clock (written K))
    (hapart : ∀ i u, i ≠ pid → K i = some u → ∀ id ∈ t'.fresh, id ∉ u.fresh)
    (hqueued : ∀ id ∈ w'.pendingQueue, ∃ job ∈ written K, job.id = id)
    (hmarked : ∀ path id, w'.processed path = some id →
      ∃ job ∈ written K, job.id = id ∧ ctx.py.canonicalPath job.inputPath = path) :
    Recorded ctx w' (Function.update K pid (some t')) := by
  constructor <;> try rw [hwritten]
  · exact hstored _ _
  · exact h.once
  · exact fun hj => hissued (h.issued hj)
  · exact Each.set hself fun i u _ hu =>
      (h.backed i u hu).mono hissued hclock (Set.Subset.refl _) (fun _ _ _ hj hn => absurd hj hn)
  · exact h.apart.set fun i u hi hu =>
      ⟨hapart i u hi hu, fun id hid hid' => hapart i u hi hu id hid' hid⟩
  · exact hqueued _
  · exact hmarked _ _

theorem Stored.mono {W W' : Set TranscodeJob} {id : Uuid} {job : TranscodeJob}
    (h : Stored ctx w.clock W id job) (hclock : w.clock ≤ w'.clock) (hW : W ⊆ W') :
    Stored ctx w'.clock W' id job where
  key := h.key
  wellFormed := h.wellFormed
  past := fun x hx => Nat.le_trans (h.past x hx) hclock
  original := h.original.imp fun _ hf => ⟨hW hf.1, hf.2⟩

/-- What is stored after a save: the record saved, under its own id, and what was there. -/
theorem Recorded.saved (h : Recorded ctx w K) {W : Set TranscodeJob} (hW : written K ⊆ W)
    {job : TranscodeJob} {ex : Nat} (hwf : job.WellFormed ctx.maxRetries)
    (hpast : ∀ x ∈ job.timestamps, x ≤ w.clock) (horiginal : Original W job) (id : Uuid)
    (job' : TranscodeJob) (hj : (w.effect (.setJob job ex) ()).jobs id = some job') :
    Stored ctx w.clock W id job' := by
  rw [World.jobs_setJob] at hj
  split at hj
  · next hid =>
    cases hj
    exact ⟨hid.symm, hwf, hpast, horiginal⟩
  · exact (h.stored hj).mono (Nat.le_refl _) hW

/-- An enqueuing process saves its job under the UUID it was given. -/
theorem Recorded.write (h : Recorded ctx w K) (hk : K pid = some t) {job : TranscodeJob}
    {ex : Nat} (hwf : job.WellFormed ctx.maxRetries) (hpast : ∀ x ∈ job.timestamps, x ≤ w.clock)
    (hfresh : t.fresh = some job.id) :
    Recorded ctx (w.effect (.setJob job ex) ())
      (Function.update K pid (some { t with fresh := none, wrote := job :: t.wrote })) := by
  have hwritten := written_write hk { t with fresh := none, wrote := job :: t.wrote } rfl
  have hsub : written K ⊆ insert job (written K) := Set.subset_insert _ _
  obtain ⟨hissued, hunused⟩ := (h.backed pid t hk).fresh job.id hfresh
  have hbacked : ∀ i u, i ≠ pid → K i = some u →
      u.Backed w.issued w.clock (insert job (written K)) := by
    intro i u hi hu
    apply (h.backed i u hu).mono (Finset.Subset.refl _) (Nat.le_refl _) hsub
    intro id hid job' hj' hnew he
    rcases hj' with rfl | hj'
    · exact h.apart pid i t u (Ne.symm hi) hk hu id (he ▸ hfresh) hid
    · exact hnew hj'
  constructor <;> try rw [hwritten]
  · exact h.saved hsub hwf hpast ⟨job, .inl rfl, rfl⟩ _ _
  · intro a b ha hb hid
    rcases ha with rfl | ha
    · rcases hb with rfl | hb
      · rfl
      · exact absurd hid.symm (hunused b hb)
    · rcases hb with rfl | hb
      · exact absurd hid (hunused a ha)
      · exact h.once ha hb hid
  · intro a ha
    rcases ha with rfl | ha
    · exact hissued
    · exact h.issued ha
  · refine Each.set ?_ hbacked
    have hself := h.backed pid t hk
    exact ⟨fun id hid => absurd hid (Option.not_mem_none id), hself.seen,
      fun old hold => (hself.known old hold).imp fun _ hf => ⟨hsub hf.1, hf.2⟩,
      fun id hid => (hself.popped id hid).imp fun _ hf => ⟨hsub hf.1, hf.2⟩⟩
  · exact h.apart.set fun i u _ _ => ⟨fun id hid => absurd hid (Option.not_mem_none id),
      fun id _ => Option.not_mem_none id⟩
  · exact fun hq => (h.queued hq).imp fun _ hf => ⟨hsub hf.1, hf.2⟩
  · exact fun hp => (h.marked hp).imp fun _ hf => ⟨hsub hf.1, hf.2⟩

theorem Recorded.others (h : Recorded ctx w K) (hk : K pid = some t) :
    ∀ i u, i ≠ pid → K i = some u → ∀ id ∈ t.fresh, id ∉ u.fresh :=
  fun i u hi hu => h.apart pid i t u (Ne.symm hi) hk hu

/-- A command after which the process remembers no more than before. -/
theorem Recorded.same (h : Recorded ctx w K) (hk : K pid = some t) (hjobs : w'.jobs = w.jobs)
    (hissued : w'.issued = w.issued) (hclock : w'.clock = w.clock)
    (hqueue : w'.pendingQueue = w.pendingQueue) (hprocessed : w'.processed = w.processed) :
    Recorded ctx w' (Function.update K pid (some t)) := by
  refine h.learn (written_learn hk rfl) hissued.symm.subset hclock.ge ?_ ?_ (h.others hk) ?_ ?_
  · intro id job hj
    exact (h.stored (by rw [← hjobs]; exact hj)).mono hclock.ge (Set.Subset.refl _)
  · exact (h.backed pid t hk).mono hissued.symm.subset hclock.ge (Set.Subset.refl _)
      (fun _ _ _ hj hn => absurd hj hn)
  · exact fun id hid => h.queued (by rw [← hqueue]; exact hid)
  · exact fun path id hp => h.marked (by rw [← hprocessed]; exact hp)

theorem Recorded.getJob (h : Recorded ctx w K) (hk : K pid = some t) (id : Uuid) :
    Recorded ctx (w.effect (.getJob id) (w.jobs id))
      (Function.update K pid (some ((memory ctx).next t (.getJob id) (w.jobs id)))) := by
  have hself := h.backed pid t hk
  have hothers := h.others hk
  refine h.learn (written_learn hk rfl) (Finset.Subset.refl _) (Nat.le_refl _)
    (fun _ _ hj => h.stored hj) ⟨hself.fresh, fun x hx => ?_, fun old hold => ?_, hself.popped⟩
    hothers (fun _ hq => h.queued hq) (fun _ _ hp => h.marked hp)
  · rcases List.mem_append.mp hx with hx | hx
    · obtain ⟨job, hj, hx⟩ := List.mem_flatMap.mp hx
      exact (h.stored (Option.mem_toList.mp hj)).past x hx
    · exact hself.seen x hx
  · rcases List.mem_append.mp hold with hj | hold
    · exact (h.stored (Option.mem_toList.mp hj)).original
    · exact hself.known old hold

theorem Recorded.now (h : Recorded ctx w K) (hk : K pid = some t) :
    Recorded ctx (w.effect .now w.clock)
      (Function.update K pid (some ((memory ctx).next t .now w.clock))) := by
  have hself := h.backed pid t hk
  have hothers := h.others hk
  refine h.learn (written_learn hk rfl) (Finset.Subset.refl _) (Nat.le_refl _)
    (fun _ _ hj => h.stored hj) ⟨hself.fresh, ?_, hself.known, hself.popped⟩ hothers
    (fun _ hq => h.queued hq) (fun _ _ hp => h.marked hp)
  exact List.forall_mem_cons.mpr ⟨Nat.le_refl _, hself.seen⟩

theorem Recorded.uuid4 (h : Recorded ctx w K) (hk : K pid = some t) {id : Uuid}
    (hnew : id ∉ w.issued) : Recorded ctx (w.effect .uuid4 id)
      (Function.update K pid (some ((memory ctx).next t .uuid4 id))) := by
  have hself := h.backed pid t hk
  refine h.learn (written_learn hk rfl) (Finset.subset_insert _ _) (Nat.le_refl _)
    (fun _ _ hj => h.stored hj) ⟨?_, hself.seen, hself.known, hself.popped⟩ ?_
    (fun _ hq => h.queued hq) (fun _ _ hp => h.marked hp)
  · intro id hid
    cases hid
    exact ⟨Finset.mem_insert_self _ _, fun job hj he => hnew (he ▸ h.issued hj)⟩
  · intro i u hi hu id hid hid'
    cases hid
    exact hnew ((h.backed i u hu).fresh _ hid').1

theorem Recorded.brpopPending (h : Recorded ctx w K) (hk : K pid = some t) :
    Recorded ctx (w.effect .brpopPending w.pendingQueue.head?)
      (Function.update K pid
        (some ((memory ctx).next t .brpopPending w.pendingQueue.head?))) := by
  have hself := h.backed pid t hk
  have hothers := h.others hk
  refine h.learn (written_learn hk rfl) (Finset.Subset.refl _) (Nat.le_refl _)
    (fun _ _ hj => h.stored hj) ⟨hself.fresh, hself.seen, hself.known, fun id hid => ?_⟩ hothers
    (fun _ hq => h.queued (List.mem_of_mem_tail hq)) (fun _ _ hp => h.marked hp)
  rcases List.mem_append.mp hid with hid | hid
  · exact h.queued (List.mem_of_mem_head? (Option.mem_toList.mp hid))
  · exact hself.popped id hid

/-- What is queued is a job the process wrote or read. -/
theorem Recorded.lpushPending (h : Recorded ctx w K) (hk : K pid = some t) {id : Uuid} {r : Unit}
    (ha : (memory ctx).allows t (.lpushPending id)) :
    Recorded ctx (w.effect (.lpushPending id) r)
      (Function.update K pid (some ((memory ctx).next t (.lpushPending id) r))) := by
  have hself := h.backed pid t hk
  refine h.learn (written_learn hk rfl) (Finset.Subset.refl _) (Nat.le_refl _)
    (fun _ _ hj => h.stored hj) hself (h.others hk) (fun id' hq => ?_) (fun _ _ hp => h.marked hp)
  rcases List.mem_append.mp hq with hq | hq
  · exact h.queued hq
  · rw [List.mem_singleton.mp hq]
    rcases ha with ⟨job, hj, hid⟩ | ⟨old, hold, hid⟩
    · exact ⟨job, ⟨pid, t, hk, hj⟩, hid⟩
    · obtain ⟨first, hfirst, horigin⟩ := hself.known old hold
      exact ⟨first, hfirst, (congrArg Origin.id horigin).trans hid⟩

/-- A record is written by the process that creates the job, or goes on from one it has read. -/
theorem Recorded.setJob (h : Recorded ctx w K) (hk : K pid = some t) {job : TranscodeJob}
    {ex : Nat} {r : Unit} (ha : (memory ctx).allows t (.setJob job ex)) :
    Recorded ctx (w.effect (.setJob job ex) r)
      (Function.update K pid (some ((memory ctx).next t (.setJob job ex) r))) := by
  have hself := h.backed pid t hk
  obtain ⟨hwf, hseen, hsource⟩ := ha
  have hpast : ∀ x ∈ job.timestamps, x ≤ w.clock := fun x hx => hself.seen x (hseen x hx)
  simp only [memory]
  split at hsource
  · next hrole =>
    rw [if_pos hrole]
    exact h.write hk hwf hpast hsource
  · next hrole =>
    rw [if_neg hrole]
    obtain ⟨old, hold, ho⟩ := hsource
    have horiginal : Original (written K) job :=
      (hself.known old hold).imp fun _ hf => ⟨hf.1, hf.2.trans ho⟩
    exact h.learn (written_learn hk rfl) (Finset.Subset.refl _) (Nat.le_refl _)
      (h.saved (Set.Subset.refl _) hwf hpast horiginal) hself (h.others hk)
      (fun _ hq => h.queued hq) (fun _ _ hp => h.marked hp)

theorem Recorded.setProcessed (h : Recorded ctx w K) (hk : K pid = some t) {path : String}
    {id : Uuid} {r : Unit} (ha : (memory ctx).allows t (.setProcessed path id)) :
    Recorded ctx (w.effect (.setProcessed path id) r)
      (Function.update K pid (some ((memory ctx).next t (.setProcessed path id) r))) := by
  refine h.learn (written_learn hk rfl) (Finset.Subset.refl _) (Nat.le_refl _)
    (fun _ _ hj => h.stored hj) (h.backed pid t hk) (h.others hk) (fun _ hq => h.queued hq)
    (fun path' id' hp => ?_)
  rw [World.processed_setProcessed] at hp
  split at hp
  · next he =>
    cases hp
    obtain ⟨job, hj, hid, hpath⟩ := ha
    exact ⟨job, ⟨pid, t, hk, hj⟩, hid, hpath.trans he.symm⟩
  · exact h.marked hp

theorem Recorded.exec (h : Recorded ctx w K) {c : Cmd} {x : Choice} {r : Reply c}
    (hk : K pid = some t) (ha : (memory ctx).allows t c) (hr : World.answer w c x = some r) :
    (memory ctx).expects t c r ∧
      Recorded ctx (w.effect c r) (Function.update K pid (some ((memory ctx).next t c r))) := by
  cases c with
  | getJob id =>
    cases hr
    exact ⟨fun job hj => (h.stored hj).wellFormed, h.getJob hk id⟩
  | now =>
    cases hr
    exact ⟨(h.backed pid t hk).seen, h.now hk⟩
  | uuid4 => exact ⟨trivial, h.uuid4 hk (World.answer_uuid4 hr)⟩
  | brpopPending =>
    cases hr
    exact ⟨trivial, h.brpopPending hk⟩
  | lpushPending id => exact ⟨trivial, h.lpushPending hk ha⟩
  | setJob job ex => exact ⟨trivial, h.setJob hk ha⟩
  | setProcessed path id => exact ⟨trivial, h.setProcessed hk ha⟩
  | _ => exact ⟨trivial, h.same hk rfl rfl rfl rfl rfl⟩

end

/-! Runs. -/

/-- The clock does not go back. -/
def TimeFlows (s : Cluster) : Act → Prop
  | .env (.clock t) => s.store.clock ≤ t
  | _ => True

instance (s : Cluster) : ∀ a, Decidable (TimeFlows s a)
  | .env (.clock t) => inferInstanceAs (Decidable (s.store.clock ≤ t))
  | .env (.expire _) => isTrue trivial
  | .env (.media _ _) => isTrue trivial
  | .spawn _ => isTrue trivial
  | .exec _ _ => isTrue trivial
  | .kill _ => isTrue trivial

/-- One of the processes that create jobs has saved this record. -/
def Cluster.Enqueued (s : Cluster) (job : TranscodeJob) : Prop :=
  ∃ p ∈ s.procs, p.label.Enqueues ∧ Proc.Wrote p job

/-- All processes keep to what they remember, and it is true. -/
def Recording (ctx : Context) (s : Cluster) : Prop :=
  Obeying (memory ctx) Memory.initial (fun _ => True) s ∧
    Recorded ctx s.store (s.knows (memory ctx) Memory.initial)

theorem recording_initial : Recording ctx Cluster.initial := by
  have hnone : ∀ job, job ∉ written (Cluster.initial.knows (memory ctx) Memory.initial) := by
    intro job ⟨i, t, h, _⟩
    cases h
  refine ⟨?_, ?_⟩
  · exact fun p hp => by cases hp
  constructor
  · exact fun h => by cases h
  · exact fun h => absurd h (hnone _)
  · exact fun h => absurd h (hnone _)
  · exact fun i t h => by cases h
  · exact fun i j t u _ h => by cases h
  · exact fun h => by cases h
  · exact fun h => by cases h

/-- The environment removes records, but changes none. -/
theorem Recorded.environment {w : World} {K : Nat → Option Memory} (h : Recorded ctx w K)
    {w' : World} (hjobs : ∀ id job, w'.jobs id = some job → w.jobs id = some job)
    (hissued : w'.issued = w.issued) (hclock : w.clock ≤ w'.clock)
    (hqueue : w'.pendingQueue = w.pendingQueue) (hprocessed : w'.processed = w.processed) :
    Recorded ctx w' K where
  stored := fun hj => (h.stored (hjobs _ _ hj)).mono hclock (Set.Subset.refl _)
  once := h.once
  issued := fun hj => by rw [hissued]; exact h.issued hj
  backed := h.backed.mono fun t ht => ht.mono hissued.symm.subset hclock (Set.Subset.refl _)
    (fun _ _ _ hj hn => absurd hj hn)
  apart := h.apart
  queued := fun hid => h.queued (by rw [← hqueue]; exact hid)
  marked := fun hp => h.marked (by rw [← hprocessed]; exact hp)

theorem recording_step (s : Cluster) (a : Act) (h : Recording ctx s) (hok : TimeFlows s a) :
    Recording ctx ((deployment ctx).step s a) := by
  obtain ⟨hob, hrec⟩ := h
  refine pool_step (Recorded ctx) hob hrec (fun l _ => code_memory ctx l) ?_ ?_ ?_
  · intro l pid _ hnone
    refine hrec.learn (written_start hnone rfl) (Finset.Subset.refl _) (Nat.le_refl _)
      (fun _ _ hj => hrec.stored hj) ⟨?_, ?_, ?_, ?_⟩ ?_ (fun _ hq => hrec.queued hq)
      (fun _ _ hp => hrec.marked hp)
    · exact fun id hid => absurd hid (Option.not_mem_none id)
    · exact fun x hx => absurd hx List.not_mem_nil
    · exact fun old hold => absurd hold List.not_mem_nil
    · exact fun id hid => absurd hid List.not_mem_nil
    · exact fun i u _ _ id hid => absurd hid (Option.not_mem_none id)
  · exact fun pid x l past c k r _ _ hk ha hr => hrec.exec hk ha hr
  · intro e he
    subst he
    cases e with
    | clock t => exact hrec.environment (fun _ _ hj => hj) rfl hok rfl rfl
    | media path outcome => exact hrec.environment (fun _ _ hj => hj) rfl (Nat.le_refl _) rfl rfl
    | expire key =>
      cases key with
      | job gone =>
        refine hrec.environment (fun id job hj => ?_) rfl (Nat.le_refl _) rfl rfl
        have hj' : Function.update s.store.jobs gone none id = some job := hj
        by_cases hid : id = gone
        · rw [hid, Function.update_self] at hj'
          cases hj'
        · rwa [Function.update_of_ne hid] at hj'
      | _ => exact hrec.environment (fun _ _ hj => hj) rfl (Nat.le_refl _) rfl rfl

theorem recording_run {as : List Act}
    (h : Meets (deployment ctx).step TimeFlows Cluster.initial as) :
    Recording ctx ((deployment ctx).run Cluster.initial as) :=
  run_invariant (Recording ctx) recording_step recording_initial h

/-- What is remembered as written, and as popped, is what the executed commands show. -/
theorem memory_after (ctx : Context) (l : Label) (past : List (Event Cmd Reply)) :
    ((memory ctx).after (Memory.initial l) past).enqueues = decide l.Enqueues ∧
    (∀ job, job ∈ ((memory ctx).after (Memory.initial l) past).wrote ↔
      l.Enqueues ∧ ∃ ex, ⟨.setJob job ex, ()⟩ ∈ past) ∧
    ∀ id, id ∈ ((memory ctx).after (Memory.initial l) past).popped ↔
      ⟨.brpopPending, some id⟩ ∈ past := by
  induction past with
  | nil => simp [Protocol.after, Memory.initial]
  | cons e past ih =>
    obtain ⟨hrole, hwrote, hpopped⟩ := ih
    obtain ⟨c, r⟩ := e
    rw [Protocol.after]
    generalize (memory ctx).after (Memory.initial l) past = t at hrole hwrote hpopped
    refine ⟨(Memory.role_next t c r).trans hrole, ?_, ?_⟩
    · intro job
      cases c with
      | setJob saved ex =>
        by_cases hl : l.Enqueues
        · have ht : t.enqueues = true := by rw [hrole, decide_eq_true hl]
          simp only [memory, ht, if_true, List.mem_cons, hwrote]
          constructor
          · intro hj
            rcases hj with hj | ⟨-, ex', hj⟩
            · exact ⟨hl, ex, .inl (by rw [hj])⟩
            · exact ⟨hl, ex', .inr hj⟩
          · intro ⟨_, ex', hj⟩
            rcases hj with hj | hj
            · cases hj
              exact .inl rfl
            · exact .inr ⟨hl, ex', hj⟩
        · have ht : t.enqueues = false := by rw [hrole, decide_eq_false hl]
          simp [memory, ht, hwrote, hl]
      | _ =>
        refine (hwrote job).trans (and_congr_right fun _ => exists_congr fun ex => ?_)
        exact (Event.mem_cons_of_ne (by simp)).symm
    · intro id
      cases c with
      | brpopPending =>
        simp only [memory, List.mem_append, Option.mem_toList, List.mem_cons, hpopped]
        constructor
        · intro hid
          exact hid.imp (fun he => by rw [Option.mem_def.mp he]) (fun he => he)
        · intro hid
          refine hid.imp (fun he => ?_) (fun he => he)
          cases he
          rfl
      | setJob saved ex =>
        refine Iff.trans ?_ ((hpopped id).trans (Event.mem_cons_of_ne (by simp)).symm)
        simp only [memory]
        split <;> rfl
      | _ => exact (hpopped id).trans (Event.mem_cons_of_ne (by simp)).symm

theorem enqueued_iff {s : Cluster} {job : TranscodeJob} :
    s.Enqueued job ↔ job ∈ written (s.knows (memory ctx) Memory.initial) := by
  constructor
  · intro ⟨p, hp, hl, hj⟩
    obtain ⟨pid, -, hk⟩ := Pool.knows_of (memory ctx) Memory.initial hp
    exact ⟨pid, _, hk, ((memory_after ctx p.label p.past).2.1 job).mpr ⟨hl, hj⟩⟩
  · intro ⟨pid, t, hk, hj⟩
    obtain ⟨p, hp, rfl⟩ := Pool.knows_iff.mp hk
    obtain ⟨hl, hj⟩ := ((memory_after ctx p.label p.past).2.1 job).mp hj
    exact ⟨p, List.mem_of_getElem? hp, hl, hj⟩

/-- The record stored under an id is well formed, and still what was enqueued under it. -/
structure Faithful (ctx : Context) (s : Cluster) (id : Uuid) (job : TranscodeJob) : Prop where
  key : job.id = id
  wellFormed : job.WellFormed ctx.maxRetries
  enqueued : ∃ first, s.Enqueued first ∧ first.origin = job.origin
  unchanged : ∀ first, s.Enqueued first → first.id = id → first.origin = job.origin

/-- Along every run on a clock that does not go back, whatever crashes or expires, every stored
    record is well formed and what was enqueued. -/
theorem stored_well_formed (ctx : Context) (as : List Act)
    (h : Meets (deployment ctx).step TimeFlows Cluster.initial as) (id : Uuid) (job : TranscodeJob)
    (hj : ((deployment ctx).run Cluster.initial as).store.jobs id = some job) :
    Faithful ctx ((deployment ctx).run Cluster.initial as) id job := by
  have hrec := (recording_run h).2
  obtain ⟨hkey, hwf, -, first, hfirst, horigin⟩ := hrec.stored hj
  refine ⟨hkey, hwf, ⟨first, enqueued_iff.mpr hfirst, horigin⟩, ?_⟩
  intro other hother hid
  have hsame : other.id = first.id := hid.trans (hkey.symm.trans (congrArg Origin.id horigin).symm)
  rw [hrec.once (enqueued_iff.mp hother) hfirst hsame]
  exact horigin

/-- A job is enqueued and claimed; its worker dies while transcoding, the heartbeat expires, and
    a recovery pass requeues it. -/
def crashedAndRecovered : List Act :=
  [.env (.clock 5), .spawn (.enqueueJob (mp4File "/tmp/input/a.mp4") defaultMatch),
    .exec 0 .go, .exec 0 (.id 1)] ++ List.replicate 7 (.exec 0 .go) ++
  [.env (.clock 9), .spawn (.processNextJob 7)] ++ List.replicate 9 (.exec 1 .go) ++
  [.kill 1, .env (.clock 100), .env (.expire (.jobHeartbeat 1)), .spawn .recoverStaleJobs,
    .exec 2 (.order [1])] ++ List.replicate 7 (.exec 2 .go)

def requeuedJob : TranscodeJob :=
  (newJob smallContext (mp4File "/tmp/input/a.mp4") defaultMatch 1 5).requeued
    "worker heartbeat expired; requeued"

theorem stored_well_formed_requeued : Faithful smallContext
    ((deployment smallContext).run Cluster.initial crashedAndRecovered) 1 requeuedJob :=
  stored_well_formed _ _ (by decide) _ _ (by decide)

end Vshift
