import Vshift.Listing

/- One recovery pass running alone, for every population of the store.

   `World.recover` is what the pass does to one stale job. Recovering a job changes
   neither heartbeats nor the clock nor the records of other jobs, so the pass is a
   fold over the stale jobs it was handed (`obeys_recoverStaleJobs`), and those are
   among the first hundred of each of the two listings.

   A pass reads no record but those of the two states (`reading`), so that over
   documents it is the same pass if these can be read, and raises if one cannot
   (`obeys_loading_recoverStaleJobs`, `heldReadable_of_pass`). `recovery_exact_iff` is
   the consequence: the pass recovers all it should exactly when it can read the
   records in workers' hands, and no stale job can have a hundred jobs of its state
   before it. -/
namespace Vshift
open Command Program

/-- A job in a worker's hands whose heartbeat has lapsed. -/
structure World.Stale (w : World) (job : TranscodeJob) : Prop where
  stored : w.jobs job.id = some job
  held : job.state.Held
  silent : w.heartbeats job.id = none

/-- What a stale job is to become. -/
def TranscodeJob.recovered (job : TranscodeJob) (maxRetries : Nat) (now : DateTime) :
    TranscodeJob :=
  if maxRetries ≤ job.attempt then job.failed "worker heartbeat expired" now
  else job.requeued "worker heartbeat expired; requeued"

/-- A pass recovered every stale job, and did nothing else. -/
structure RecoveredExactly (ctx : Context) (w : World) (r : Except Exn (List TranscodeJob))
    (w' : World) : Prop where
  returned : ∃ jobs, r = .ok jobs ∧ (jobs.map (·.id)).Nodup ∧ ∀ updated, updated ∈ jobs ↔
    ∃ job, w.Stale job ∧ updated = job.recovered ctx.maxRetries w.clock
  noneLeft : ∀ job, ¬ w'.Stale job
  stored : ∀ job, w.Stale job → w'.jobs job.id = some (job.recovered ctx.maxRetries w.clock)
  others : ∀ id, (∀ job, w.Stale job → job.id ≠ id) → w'.jobs id = w.jobs id
  pending : ∃ ids, w'.pendingQueue = w.pendingQueue ++ ids ∧ ids.Nodup ∧ ∀ id, id ∈ ids ↔
    ∃ job, w.Stale job ∧ job.id = id ∧ job.attempt < ctx.maxRetries
  dead : ∃ ids, w'.deadLetterQueue = w.deadLetterQueue ++ ids ∧ ids.Nodup ∧ ∀ id, id ∈ ids ↔
    ∃ job, w.Stale job ∧ job.id = id ∧ ctx.maxRetries ≤ job.attempt
  heartbeats : w'.heartbeats = w.heartbeats
  tidy : w'.Tidy

/-! One job. -/

/-- After `RecoverStaleJobs._recover_job`. -/
def World.recover (ctx : Context) (w : World) (job : TranscodeJob) : World :=
  if ctx.maxRetries ≤ job.attempt then
    (w.saved ctx (job.recovered ctx.maxRetries w.clock)).buried job.id
  else (w.saved ctx (job.recovered ctx.maxRetries w.clock)).queued job.id

section
variable {ctx : Context} {w : World} {job : TranscodeJob}

theorem recovered_id (n : Nat) (now : DateTime) : (job.recovered n now).id = job.id := by
  unfold TranscodeJob.recovered
  split <;> rfl

theorem recovered_not_held (n : Nat) (now : DateTime) : ¬ (job.recovered n now).state.Held := by
  unfold TranscodeJob.recovered
  split
  · exact fun h => by cases h <;> contradiction
  · exact fun h => by cases h <;> contradiction

theorem recover_jobs (ctx : Context) (w : World) (job : TranscodeJob) :
    (w.recover ctx job).jobs =
      Function.update w.jobs job.id (some (job.recovered ctx.maxRetries w.clock)) := by
  have hsaved : (w.saved ctx (job.recovered ctx.maxRetries w.clock)).jobs =
      Function.update w.jobs job.id (some (job.recovered ctx.maxRetries w.clock)) := by
    show Function.update w.jobs (job.recovered ctx.maxRetries w.clock).id _ = _
    rw [recovered_id]
  unfold World.recover
  split <;> exact hsaved

theorem recover_heartbeats (ctx : Context) (w : World) (job : TranscodeJob) :
    (w.recover ctx job).heartbeats = w.heartbeats := by
  unfold World.recover
  split <;> rfl

theorem recover_clock (ctx : Context) (w : World) (job : TranscodeJob) :
    (w.recover ctx job).clock = w.clock := by
  unfold World.recover
  split <;> rfl

theorem recover_pendingQueue (ctx : Context) (w : World) (job : TranscodeJob) :
    (w.recover ctx job).pendingQueue =
      w.pendingQueue ++ (if job.attempt < ctx.maxRetries then [job.id] else []) := by
  unfold World.recover
  split
  · rw [if_neg (by omega), List.append_nil]
    rfl
  · rw [if_pos (by omega)]
    rfl

theorem recover_deadLetterQueue (ctx : Context) (w : World) (job : TranscodeJob) :
    (w.recover ctx job).deadLetterQueue =
      w.deadLetterQueue ++ (if ctx.maxRetries ≤ job.attempt then [job.id] else []) := by
  unfold World.recover
  split
  · rfl
  · rw [List.append_nil]
    rfl

theorem World.Tidy.recover (h : w.Tidy) (job : TranscodeJob) : (w.recover ctx job).Tidy := by
  have hsaved : (w.saved ctx (job.recovered ctx.maxRetries w.clock)).Tidy := h.saved _
  unfold World.recover
  split <;> exact hsaved.congr rfl rfl

theorem obeys_recoverJob (hs : job.state.Held) {Q : Except Exn TranscodeJob → World → Prop} :
    (recoverJob ctx job).Obeys redis.protocol Q w ↔
      Q (.ok (job.recovered ctx.maxRetries w.clock)) (w.recover ctx job) := by
  unfold recoverJob World.recover TranscodeJob.recovered
  by_cases ha : ctx.maxRetries ≤ job.attempt
  · rw [if_pos ha, if_pos ha, if_pos ha, obeys_failJob hs.to_failed]
  · rw [if_neg ha, if_neg ha, if_neg ha, obeys_requeueJob hs.to_pending]

end

/-! A list of jobs. -/

section
variable {ctx : Context}

/-- After recovering the jobs one by one. -/
def World.recoverAll (ctx : Context) (w : World) (jobs : List TranscodeJob) : World :=
  jobs.foldl (World.recover ctx) w

theorem recoverAll_heartbeats (jobs : List TranscodeJob) : ∀ w : World,
    (w.recoverAll ctx jobs).heartbeats = w.heartbeats := by
  induction jobs with
  | nil => exact fun w => rfl
  | cons job jobs ih => exact fun w => (ih _).trans (recover_heartbeats ctx w job)

theorem recoverAll_clock (jobs : List TranscodeJob) : ∀ w : World,
    (w.recoverAll ctx jobs).clock = w.clock := by
  induction jobs with
  | nil => exact fun w => rfl
  | cons job jobs ih => exact fun w => (ih _).trans (recover_clock ctx w job)

theorem recoverAll_pendingQueue (jobs : List TranscodeJob) : ∀ w : World,
    (w.recoverAll ctx jobs).pendingQueue =
      w.pendingQueue ++ (jobs.filter (·.attempt < ctx.maxRetries)).map (·.id) := by
  induction jobs with
  | nil => exact fun w => (List.append_nil _).symm
  | cons job jobs ih =>
    intro w
    refine (ih _).trans ?_
    rw [recover_pendingQueue, List.append_assoc]
    congr 1
    by_cases ha : job.attempt < ctx.maxRetries <;> simp [ha]

theorem recoverAll_deadLetterQueue (jobs : List TranscodeJob) : ∀ w : World,
    (w.recoverAll ctx jobs).deadLetterQueue =
      w.deadLetterQueue ++ (jobs.filter (ctx.maxRetries ≤ ·.attempt)).map (·.id) := by
  induction jobs with
  | nil => exact fun w => (List.append_nil _).symm
  | cons job jobs ih =>
    intro w
    refine (ih _).trans ?_
    rw [recover_deadLetterQueue, List.append_assoc]
    congr 1
    by_cases ha : ctx.maxRetries ≤ job.attempt <;> simp [ha]

theorem World.Tidy.recoverAll {jobs : List TranscodeJob} : ∀ {w : World}, w.Tidy →
    (w.recoverAll ctx jobs).Tidy := by
  induction jobs with
  | nil => exact fun h => h
  | cons job jobs ih => exact fun h => ih (h.recover job)

/-- The records of the others are left. -/
theorem recoverAll_jobs_of_notMem {id : Uuid} {jobs : List TranscodeJob} : ∀ {w : World},
    id ∉ jobs.map (·.id) → (w.recoverAll ctx jobs).jobs id = w.jobs id := by
  induction jobs with
  | nil => exact fun _ => rfl
  | cons job jobs ih =>
    intro w h
    rw [List.map_cons, List.mem_cons, not_or] at h
    refine (ih h.2).trans ?_
    rw [recover_jobs, Function.update_of_ne h.1]

/-- Each recovered job is replaced by what it is to become. -/
theorem recoverAll_jobs_of_mem {job : TranscodeJob} {jobs : List TranscodeJob} : ∀ {w : World},
    (jobs.map (·.id)).Nodup → job ∈ jobs →
      (w.recoverAll ctx jobs).jobs job.id = some (job.recovered ctx.maxRetries w.clock) := by
  induction jobs with
  | nil => exact fun _ h => by cases h
  | cons head jobs ih =>
    intro w hn hmem
    rw [List.map_cons, List.nodup_cons] at hn
    rcases List.mem_cons.mp hmem with heq | hmem
    · subst heq
      refine (recoverAll_jobs_of_notMem hn.1).trans ?_
      rw [recover_jobs, Function.update_self]
    · have hrest := ih (w := w.recover ctx head) hn.2 hmem
      rw [recover_clock] at hrest
      exact hrest

/-- The jobs of a listing that the pass recovers. -/
def staleOf (w : World) (jobs : List TranscodeJob) : List TranscodeJob :=
  jobs.filter (fun job => (w.heartbeats job.id).isNone)

theorem obeys_recoverJobs {jobs : List TranscodeJob} : ∀ {w : World}
    {Q : Except Exn (List TranscodeJob) → World → Prop}, (∀ job ∈ jobs, job.state.Held) →
    ((recoverJobs ctx jobs).Obeys redis.protocol Q w ↔
      Q (.ok ((staleOf w jobs).map (·.recovered ctx.maxRetries w.clock)))
        (w.recoverAll ctx (staleOf w jobs))) := by
  induction jobs with
  | nil => exact fun _ => Iff.rfl
  | cons job jobs ih =>
    intro w Q hheld
    have hrest : ∀ other ∈ jobs, other.state.Held :=
      fun other ho => hheld other (List.mem_cons_of_mem _ ho)
    unfold recoverJobs
    rw [obeys_bind, obeys_isJobAlive, andThen_ok]
    cases hb : w.heartbeats job.id with
    | some worker =>
      have hskip : staleOf w (job :: jobs) = staleOf w jobs := by
        rw [staleOf, List.filter_cons_of_neg (by simp [hb])]
        rfl
      rw [Option.isSome_some, if_pos rfl, ih hrest, hskip]
    | none =>
      have htake : staleOf w (job :: jobs) = job :: staleOf w jobs := by
        rw [staleOf, List.filter_cons_of_pos (by simp [hb])]
        rfl
      have hsame : staleOf (w.recover ctx job) jobs = staleOf w jobs := by
        unfold staleOf
        rw [recover_heartbeats]
      rw [Option.isSome_none, if_neg Bool.false_ne_true, obeys_bind,
        obeys_recoverJob (hheld job List.mem_cons_self), andThen_ok, obeys_bind, ih hrest,
        andThen_ok, obeys_pure, hsame, recover_clock, htake]
      rfl

end

/-! The whole pass. -/

section
variable {ctx : Context} {w : World}

/-- What `list_by_state(state)` returns of the jobs of a state, given in some order. -/
def firstPage (jobs : List TranscodeJob) : List TranscodeJob :=
  Sorting.slice 0 100 (newestFirst jobs)

/-- The listed jobs that the pass recovers. -/
def staleListed (w : World) (jobs : List TranscodeJob) : List TranscodeJob :=
  staleOf w (firstPage jobs)

theorem mem_of_mem_firstPage {jobs : List TranscodeJob} {job : TranscodeJob}
    (h : job ∈ firstPage jobs) : job ∈ jobs :=
  Sorting.mem_descending.mp (List.mem_of_mem_drop (List.mem_of_mem_take h))

theorem staleListed_mem {s : JobState} (hs : s.Held) {jobs : List TranscodeJob}
    (hm : Members w s jobs) {job : TranscodeJob} (h : job ∈ staleListed w jobs) :
    w.Stale job ∧ job.state = s := by
  obtain ⟨hlisted, hsilent⟩ := List.mem_filter.mp h
  obtain ⟨hstored, hstate⟩ := (hm.mem job).mp (mem_of_mem_firstPage hlisted)
  exact ⟨⟨hstored, hstate ▸ hs, Option.isNone_iff_eq_none.mp hsilent⟩, hstate⟩

theorem staleListed_ids (ht : w.Tidy) {s : JobState} {jobs : List TranscodeJob}
    (hm : Members w s jobs) : ((staleListed w jobs).map (·.id)).Nodup := by
  have hsub : (staleListed w jobs).Sublist (newestFirst jobs) :=
    List.filter_sublist.trans ((List.take_sublist _ _).trans (List.drop_sublist _ _))
  have hperm : ((newestFirst jobs).map (·.id)).Perm (jobs.map (·.id)) :=
    (Sorting.descending_perm jobs).map _
  exact (hperm.nodup_iff.mpr (hm.ids ht).1).sublist (hsub.map _)

/-- Recovering claimed jobs leaves the listing of the processing ones. -/
theorem members_recoverAll {jobs processing : List TranscodeJob}
    (hclaimed : ∀ job ∈ jobs, w.Stale job ∧ job.state = .claimed) (hn : (jobs.map (·.id)).Nodup) :
    Members (w.recoverAll ctx jobs) .processing processing ↔
      Members w .processing processing := by
  have hsame : ∀ job : TranscodeJob, ((w.recoverAll ctx jobs).jobs job.id = some job ∧
      job.state = .processing) ↔ (w.jobs job.id = some job ∧ job.state = .processing) := by
    intro job
    by_cases hid : job.id ∈ jobs.map (·.id)
    · obtain ⟨other, hother, heq⟩ := List.mem_map.mp hid
      obtain ⟨hstale, hstate⟩ := hclaimed other hother
      have hnow : (w.recoverAll ctx jobs).jobs other.id =
          some (other.recovered ctx.maxRetries w.clock) := recoverAll_jobs_of_mem hn hother
      constructor
      · intro ⟨hj, hs⟩
        rw [← heq, hnow, Option.some.injEq] at hj
        have hnot : ¬ (other.recovered ctx.maxRetries w.clock).state.Held :=
          recovered_not_held _ _
        rw [hj] at hnot
        exact absurd (.inr hs) hnot
      · intro ⟨hj, hs⟩
        rw [← heq, hstale.stored, Option.some.injEq] at hj
        rw [← hj, hstate] at hs
        cases hs
    · rw [recoverAll_jobs_of_notMem hid]
  constructor
  · exact fun h => ⟨h.nodup, fun job => (h.mem job).trans (hsame job)⟩
  · exact fun h => ⟨h.nodup, fun job => (h.mem job).trans (hsame job).symm⟩

/-- A pass recovers the stale jobs among the first hundred of each listing. -/
theorem obeys_recoverStaleJobs (ht : w.Tidy)
    {Q : Except Exn (List TranscodeJob) → World → Prop} :
    (recoverStaleJobs ctx).Obeys redis.protocol Q w ↔
      ∀ claimed processing, Members w .claimed claimed → Members w .processing processing →
        Q (.ok ((staleListed w claimed ++ staleListed w processing).map
            (·.recovered ctx.maxRetries w.clock)))
          (w.recoverAll ctx (staleListed w claimed ++ staleListed w processing)) := by
  have hheld : ∀ {w : World} {s : JobState} {jobs : List TranscodeJob}, s.Held → Members w s jobs →
      ∀ job ∈ Sorting.slice 0 100 (newestFirst jobs), job.state.Held := by
    intro w s jobs hs hm job hjob
    rw [((hm.mem job).mp (mem_of_mem_firstPage hjob)).2]
    exact hs
  unfold recoverStaleJobs
  rw [obeys_bind, obeys_listByState_iff ht]
  refine forall_congr' fun claimed => Iff.trans (forall_congr' fun hc => ?_) forall_comm
  have hfirst : ∀ job ∈ staleListed w claimed, w.Stale job ∧ job.state = .claimed :=
    fun job hjob => staleListed_mem (.inl rfl) hc hjob
  -- the second listing is taken after the claimed jobs were recovered
  have hsame : ∀ processing, staleOf (w.recoverAll ctx (staleListed w claimed))
      (firstPage processing) = staleListed w processing := by
    intro processing
    unfold staleListed staleOf
    rw [recoverAll_heartbeats]
  rw [andThen_ok, obeys_bind, obeys_recoverJobs (hheld (.inl rfl) hc), andThen_ok, obeys_bind,
    obeys_listByState_iff ht.recoverAll]
  refine forall_congr' fun processing => ?_
  have hclaimed : Sorting.slice 0 100 (newestFirst claimed) = firstPage claimed := rfl
  have hprocessing : Sorting.slice 0 100 (newestFirst processing) = firstPage processing := rfl
  have hboth : ∀ w' : World, (w'.recoverAll ctx (staleListed w claimed)).recoverAll ctx
      (staleListed w processing) =
      w'.recoverAll ctx (staleListed w claimed ++ staleListed w processing) :=
    fun w' => List.foldl_append.symm
  have hmembers : Members (w.recoverAll ctx (staleListed w claimed)) .processing processing ↔
      Members w .processing processing := members_recoverAll hfirst (staleListed_ids ht hc)
  rw [hclaimed, hprocessing, show staleOf w (firstPage claimed) = staleListed w claimed from rfl,
    hmembers]
  refine forall_congr' fun hp => ?_
  have hp' := hmembers.mpr hp
  rw [andThen_ok, obeys_bind, ← hprocessing, obeys_recoverJobs (hheld (.inr rfl) hp'), hprocessing,
    andThen_ok, obeys_pure, recoverAll_clock, hsame, hboth, List.map_append]

/-- Recovering a list of jobs leaves stale what is not on it. -/
theorem stale_recoverAll_iff {jobs : List TranscodeJob} (hn : (jobs.map (·.id)).Nodup)
    {job : TranscodeJob} :
    (w.recoverAll ctx jobs).Stale job ↔ w.Stale job ∧ job.id ∉ jobs.map (·.id) := by
  constructor
  · intro hjob
    have hstored := hjob.stored
    have hsilent := hjob.silent
    rw [recoverAll_heartbeats] at hsilent
    -- what is on the list is in nobody's hands afterwards
    have hnot : job.id ∉ jobs.map (·.id) := by
      intro hid
      obtain ⟨other, hother, heq⟩ := List.mem_map.mp hid
      rw [← heq, recoverAll_jobs_of_mem hn hother, Option.some.injEq] at hstored
      have hheld : ¬ (other.recovered ctx.maxRetries w.clock).state.Held := recovered_not_held _ _
      rw [hstored] at hheld
      exact hheld hjob.held
    rw [recoverAll_jobs_of_notMem hnot] at hstored
    exact ⟨⟨hstored, hjob.held, hsilent⟩, hnot⟩
  · intro ⟨hjob, hnot⟩
    refine ⟨?_, hjob.held, ?_⟩
    · rw [recoverAll_jobs_of_notMem hnot]
      exact hjob.stored
    · rw [recoverAll_heartbeats]
      exact hjob.silent

/-- A stale job is on a list of stale jobs if its id is. -/
theorem mem_of_stale {jobs : List TranscodeJob} (hstale : ∀ job ∈ jobs, w.Stale job)
    {job : TranscodeJob} (hjob : w.Stale job) (hid : job.id ∈ jobs.map (·.id)) : job ∈ jobs := by
  obtain ⟨other, hother, heq⟩ := List.mem_map.mp hid
  have hstored := (hstale other hother).stored
  rw [heq, hjob.stored, Option.some.injEq] at hstored
  exact hstored ▸ hother

theorem map_recovered_id (n : Nat) (now : DateTime) (jobs : List TranscodeJob) :
    (jobs.map (·.recovered n now)).map (·.id) = jobs.map (·.id) := by
  rw [List.map_map]
  exact List.map_congr_left fun job _ => recovered_id n now

/-- What goes to one of the queues: the ids of the stale jobs that `p` sends there. -/
theorem mem_queued_iff {jobs : List TranscodeJob} (hall : ∀ job, w.Stale job ↔ job ∈ jobs)
    (p : TranscodeJob → Prop) [DecidablePred p] (id : Uuid) :
    id ∈ (jobs.filter p).map (·.id) ↔ ∃ job, w.Stale job ∧ job.id = id ∧ p job := by
  rw [List.mem_map]
  constructor
  · intro ⟨job, hjob, hid⟩
    obtain ⟨hin, hp⟩ := List.mem_filter.mp hjob
    exact ⟨job, (hall job).mpr hin, hid, of_decide_eq_true hp⟩
  · intro ⟨job, hjob, hid, hp⟩
    exact ⟨job, List.mem_filter.mpr ⟨(hall job).mp hjob, decide_eq_true hp⟩, hid⟩

/-- Recovering a list of stale jobs is exact when the list has all of them. -/
theorem recoveredExactly_iff (ht : w.Tidy) {jobs : List TranscodeJob}
    (hstale : ∀ job ∈ jobs, w.Stale job) (hn : (jobs.map (·.id)).Nodup) :
    RecoveredExactly ctx w (.ok (jobs.map (·.recovered ctx.maxRetries w.clock)))
        (w.recoverAll ctx jobs) ↔
      ∀ job, w.Stale job → job ∈ jobs := by
  constructor
  · intro h job hjob
    by_contra hnot
    have hleft : (w.recoverAll ctx jobs).Stale job :=
      (stale_recoverAll_iff hn).mpr ⟨hjob, fun hid => hnot (mem_of_stale hstale hjob hid)⟩
    exact h.noneLeft job hleft
  · intro hall
    have hiff : ∀ job, w.Stale job ↔ job ∈ jobs := fun job => ⟨hall job, hstale job⟩
    have hnodup : ∀ p : TranscodeJob → Bool, ((jobs.filter p).map (·.id)).Nodup :=
      fun p => hn.sublist (List.filter_sublist.map _)
    refine ⟨⟨_, rfl, ?_, ?_⟩, ?_, ?_, ?_, ?_, ?_, recoverAll_heartbeats jobs w, ht.recoverAll⟩
    · rw [map_recovered_id]
      exact hn
    · intro updated
      rw [List.mem_map]
      constructor
      · exact fun ⟨job, hjob, heq⟩ => ⟨job, hstale job hjob, heq.symm⟩
      · exact fun ⟨job, hjob, heq⟩ => ⟨job, hall job hjob, heq.symm⟩
    · intro job hjob
      obtain ⟨hbefore, hnot⟩ := (stale_recoverAll_iff hn).mp hjob
      exact hnot (List.mem_map_of_mem (hall job hbefore))
    · exact fun job hjob => recoverAll_jobs_of_mem hn (hall job hjob)
    · intro id hid
      apply recoverAll_jobs_of_notMem
      intro hin
      obtain ⟨job, hjob, heq⟩ := List.mem_map.mp hin
      exact hid job (hstale job hjob) heq
    · exact ⟨_, recoverAll_pendingQueue jobs w, hnodup _, mem_queued_iff hiff _⟩
    · exact ⟨_, recoverAll_deadLetterQueue jobs w, hnodup _, mem_queued_iff hiff _⟩

/-- A stale job is on the first page of its listing, whatever order its set is read in, exactly
    when fewer than a hundred jobs may go before it. -/
theorem listed_iff (ht : w.Tidy) {job : TranscodeJob} (hjob : w.Stale job) :
    (∀ jobs, Members w job.state jobs → job ∈ staleListed w jobs) ↔
      (w.ahead job).card < 100 := by
  have hstale : ∀ jobs, job ∈ staleListed w jobs ↔ job ∈ (newestFirst jobs).take 100 := by
    intro jobs
    rw [staleListed, staleOf, List.mem_filter, hjob.silent]
    exact and_iff_left rfl
  simp only [hstale]
  constructor
  · intro h
    by_contra hnot
    -- read the set with this job last
    have hm := Members.of_ids (s := job.state) ht (Finset.nodup_toList _)
      (Finset.toList_toFinset _)
    generalize (w.stateIndex job.state).toList.filterMap w.jobs = jobs at hm
    have hin : job ∈ jobs := (hm.mem job).mpr ⟨hjob.stored, rfl⟩
    have hperm : jobs.Perm (jobs.erase job ++ [job]) :=
      (List.perm_cons_erase hin).trans (List.perm_append_singleton _ _).symm
    have hlast : Members w job.state (jobs.erase job ++ [job]) :=
      ⟨hperm.nodup_iff.mp hm.nodup, fun other => by rw [← hm.mem other, hperm.mem_iff]⟩
    refine Sorting.notMem_take_of_ahead hlast.nodup ?_ (h _ hlast)
    rw [ahead_eq ht hlast (by simp)]
    omega
  · intro h jobs hm
    have hin : job ∈ jobs := (hm.mem job).mpr ⟨hjob.stored, rfl⟩
    have hperm : (newestFirst jobs).Perm jobs := Sorting.descending_perm jobs
    have hsorted : Members w job.state (newestFirst jobs) :=
      ⟨hperm.nodup_iff.mpr hm.nodup, fun other => by rw [← hm.mem other, hperm.mem_iff]⟩
    have hin' : job ∈ newestFirst jobs := hperm.mem_iff.mpr hin
    apply Sorting.mem_take_of_ahead (Sorting.descending_falls jobs) hsorted.nodup hin'
    calc Sorting.ahead (·.createdAt) job (newestFirst jobs)
      _ = (w.ahead job).card := ahead_eq ht hsorted hin'
      _ < 100 := h

end

section
variable {ctx : Context} {w : World}

theorem exists_members_order (ht : w.Tidy) (s : JobState) : ∃ jobs, Members w s jobs :=
  ⟨_, Members.of_ids ht (Finset.nodup_toList _) (Finset.toList_toFinset (w.stateIndex s))⟩

/-- With given listings the pass is exact when they have all stale jobs. -/
theorem listings_exact_iff (ht : w.Tidy) {claimed processing : List TranscodeJob}
    (hc : Members w .claimed claimed) (hp : Members w .processing processing) :
    RecoveredExactly ctx w (.ok ((staleListed w claimed ++ staleListed w processing).map
        (·.recovered ctx.maxRetries w.clock)))
      (w.recoverAll ctx (staleListed w claimed ++ staleListed w processing)) ↔
    ∀ job, w.Stale job → job ∈ staleListed w claimed ++ staleListed w processing := by
  apply recoveredExactly_iff ht
  · intro job hjob
    rcases List.mem_append.mp hjob with hjob | hjob
    · exact (staleListed_mem (.inl rfl) hc hjob).1
    · exact (staleListed_mem (.inr rfl) hp hjob).1
  · rw [List.map_append, List.nodup_append]
    refine ⟨staleListed_ids ht hc, staleListed_ids ht hp, ?_⟩
    intro id hid id' hid' heq
    obtain ⟨a, ha, hida⟩ := List.mem_map.mp hid
    obtain ⟨b, hb, hidb⟩ := List.mem_map.mp hid'
    obtain ⟨hastale, hastate⟩ := staleListed_mem (.inl rfl) hc ha
    obtain ⟨hbstale, hbstate⟩ := staleListed_mem (.inr rfl) hp hb
    have hstored := hastale.stored
    rw [hida, heq, ← hidb, hbstale.stored, Option.some.injEq] at hstored
    rw [hstored, hastate] at hbstate
    cases hbstate

/-- An exact pass needs every stale job on the first page of its listing. -/
theorem few_ahead_of_exact (ht : w.Tidy)
    (h : ∀ tape r w', redis.run (recoverStaleJobs ctx) tape w = some (r, w') →
      RecoveredExactly ctx w r w') {job : TranscodeJob} (hjob : w.Stale job) :
    (w.ahead job).card < 100 := by
  rw [← Machine.obeys_iff_run (Q := RecoveredExactly ctx w), obeys_recoverStaleJobs ht] at h
  apply (listed_iff ht hjob).mp
  intro jobs hm
  rcases hjob.held with hstate | hstate
  · rw [hstate] at hm
    obtain ⟨processing, hp⟩ := exists_members_order ht .processing
    have hin := (listings_exact_iff ht hm hp).mp (h jobs processing hm hp) job hjob
    rcases List.mem_append.mp hin with hin | hin
    · exact hin
    · rw [(staleListed_mem (.inr rfl) hp hin).2] at hstate
      cases hstate
  · rw [hstate] at hm
    obtain ⟨claimed, hc⟩ := exists_members_order ht .claimed
    have hin := (listings_exact_iff ht hc hm).mp (h claimed jobs hc hm) job hjob
    rcases List.mem_append.mp hin with hin | hin
    · rw [(staleListed_mem (.inl rfl) hc hin).2] at hstate
      cases hstate
    · exact hin

theorem exact_of_few_ahead (ht : w.Tidy) (h : ∀ job, w.Stale job → (w.ahead job).card < 100) :
    ∀ tape r w', redis.run (recoverStaleJobs ctx) tape w = some (r, w') →
      RecoveredExactly ctx w r w' := by
  rw [← Machine.obeys_iff_run (Q := RecoveredExactly ctx w), obeys_recoverStaleJobs ht]
  intro claimed processing hc hp
  apply (listings_exact_iff ht hc hp).mpr
  intro job hjob
  have hlisted := (listed_iff ht hjob).mpr (h job hjob)
  rcases hjob.held with hstate | hstate
  · exact List.mem_append_left _ (hlisted claimed (hstate ▸ hc))
  · exact List.mem_append_right _ (hlisted processing (hstate ▸ hp))

end

/-! Documents. -/

/-- Only records with ids in `K` are read, and the ids in the sets of the states in `S` are among
    them; only kept records are saved, and into other states. -/
def reading (S : JobState → Prop) (K : Uuid → Prop) : Protocol Cmd Reply Unit where
  allows _
    | .getJob id => K id
    | .setJob job _ => Json.transcodeJob.Kept job
    | .smembersState s => S s
    | .saddState s _ => ¬ S s
    | _ => True
  expects _
    | .getJob id, r => ∀ job ∈ r, Json.transcodeJob.Kept job ∧ job.id = id
    | .smembersState _, ids => ∀ id ∈ ids, K id
    | _, _ => True
  next t _ _ := t

/-- The records with ids in `K` can be read, and the sets of the states in `S` hold such ids. -/
structure World.Covers (w : World) (S : JobState → Prop) (K : Uuid → Prop) : Prop where
  listed : ∀ s, S s → ∀ id ∈ w.stateIndex s, K id
  read : ∀ id job, K id → w.jobs id = some job → Json.transcodeJob.Kept job ∧ job.id = id

section
variable {ctx : Context} {w : World} {S : JobState → Prop} {K : Uuid → Prop} {job : TranscodeJob}

theorem World.Covers.effect (h : w.Covers S K) {c : Cmd} (r : Reply c)
    (hc : (reading S K).allows () c) : (w.effect c r).Covers S K := by
  cases c with
  | setJob saved ex =>
    refine ⟨h.listed, fun id job hid hj => ?_⟩
    rw [World.jobs_setJob] at hj
    split at hj
    · next heq =>
      cases hj
      exact ⟨hc, heq.symm⟩
    · exact h.read id job hid hj
  | sremState s id =>
    refine ⟨fun s' hs' id' hid' => ?_, h.read⟩
    exact h.listed s' hs' id' ((World.mem_sremState r).mp hid').1
  | saddState s id =>
    refine ⟨fun s' hs' id' hid' => ?_, h.read⟩
    rcases (World.mem_saddState r).mp hid' with hold | ⟨rfl, -⟩
    · exact h.listed s' hs' id' hold
    · exact absurd hs' hc
  | _ => exact ⟨h.listed, h.read⟩

theorem obeys_faithful_of_reading {α : Type} {p : Prog α} {Q : Except Exn α → Unit → Prop}
    (hp : p.Obeys (reading S K) Q ()) (hw : w.Covers S K) :
    p.Obeys (redis.within fun w c => c.Faithful w) (fun r w' => ∃ t, Q r t ∧ w'.Covers S K) w := by
  refine Machine.obeys_within (I := fun _ v => World.Covers v S K) ?_ hp hw
  intro _ v c hv hc
  refine ⟨?_, fun x r hr => ⟨?_, hv.effect r hc⟩⟩
  · cases c with
    | getJob id => exact fun job hj => (hv.read id job hc hj).1
    | setJob job ex => exact hc
    | _ => trivial
  · cases c with
    | getJob id =>
      cases hr
      exact fun job hj => hv.read id job hc hj
    | smembersState s =>
      intro id hid
      have hids := (World.answer_smembers hr).2
      exact hv.listed s hc id (hids ▸ List.mem_toFinset.mpr hid)
    | _ => trivial

theorem saveJob_reads (hid : K job.id) (hjob : Json.transcodeJob.Kept job) (hs : ¬ S job.state) :
    (saveJob ctx job).Obeys (reading S K) (fun _ _ => True) () := by
  have hset : Replaces (reading S K) ctx job (fun _ _ => True) () :=
    ⟨hjob, fun _ _ => ⟨hs, fun _ _ => trivial⟩⟩
  apply saveJob_obeys hid
  · exact fun _ _ _ => hset
  · exact fun _ _ _ => ⟨trivial, fun _ _ => hset⟩

theorem recoverJob_reads (hheld : ∀ s, S s → s.Held) (hid : K job.id)
    (hjob : Json.transcodeJob.Kept job) :
    (recoverJob ctx job).Obeys (reading S K) (fun _ _ => True) () := by
  have hpending : ¬ S .pending := fun h => (hheld _ h).elim nofun nofun
  have hfailed : ¬ S .failed := fun h => (hheld _ h).elim nofun nofun
  unfold recoverJob
  split
  · refine transitionTo_obeys (fun _ => ⟨trivial, fun now _ => ?_⟩) (fun _ => trivial)
    have hcopy : Json.transcodeJob.Kept (job.failed "worker heartbeat expired" now) :=
      (Copy.created.failed _ now).kept hjob
    have hsave : (saveJob ctx (job.failed "worker heartbeat expired" now)).Obeys (reading S K)
        (fun _ _ => True) () := saveJob_reads hid hcopy hfailed
    exact hsave.seq (fun _ _ _ => ⟨trivial, fun _ _ => trivial⟩) (fun _ _ _ => trivial)
  · refine transitionTo_obeys (fun _ => ?_) (fun _ => trivial)
    have hcopy : Json.transcodeJob.Kept
        (job.requeued "worker heartbeat expired; requeued") :=
      (Copy.created.requeued _).kept hjob
    have hsave : (saveJob ctx (job.requeued "worker heartbeat expired; requeued")).Obeys
        (reading S K) (fun _ _ => True) () := saveJob_reads hid hcopy hpending
    exact hsave.seq (fun _ _ _ => ⟨trivial, fun _ _ => trivial⟩) (fun _ _ _ => trivial)

/-- One of the two halves of a pass. -/
theorem recoverListed_reads (hheld : ∀ s, S s → s.Held) {s : JobState} (hs : S s) :
    (listByState s >>= recoverJobs ctx).Obeys (reading S K) (fun _ _ => True) () := by
  have hlist : (listByState s).Obeys (reading S K) (fun r _ => True ∧ ∀ jobs, r = .ok jobs →
      ∀ job ∈ jobs, Json.transcodeJob.Kept job ∧ K job.id) () := by
    refine listByState_obeys (fun ids _ => ∀ id ∈ ids, K id) (fun _ _ _ _ h => h)
      (fun _ _ _ => trivial) hs ?_
    intro ids hids
    refine ⟨hids, fun id hid t _ => ⟨hids id hid, fun r hr => ⟨hids, fun job hj => ?_⟩⟩⟩
    obtain ⟨hkept, heq⟩ := hr job hj
    exact ⟨hkept, heq ▸ hids id hid⟩
  refine hlist.seq (fun jobs t h => ?_) (fun _ _ _ => trivial)
  refine @recoverJobs_obeys _ _ _ (fun _ => True)
    (fun job _ => Json.transcodeJob.Kept job ∧ K job.id) (fun _ _ _ _ h => h) ?_ _ t trivial
    (h.2 jobs rfl)
  intro job _ _ hjob
  exact ⟨trivial, fun _ _ => ⟨trivial, fun _ => recoverJob_reads hheld hjob.2 hjob.1⟩⟩

theorem recoverStaleJobs_eq : recoverStaleJobs ctx =
    listByState .claimed >>= recoverJobs ctx >>= fun claimed =>
      listByState .processing >>= recoverJobs ctx >>= fun processing =>
        pure (claimed ++ processing) := by
  simp only [recoverStaleJobs, bind_assoc]

theorem recoverStaleJobs_reads : (recoverStaleJobs ctx).Obeys (reading JobState.Held K)
    (fun _ _ => True) () := by
  rw [recoverStaleJobs_eq]
  refine (recoverListed_reads (fun _ h => h) (.inl rfl)).seq (fun _ _ _ => ?_)
    (fun _ _ _ => trivial)
  exact (recoverListed_reads (fun _ h => h) (.inr rfl)).seq (fun _ _ _ => trivial)
    (fun _ _ _ => trivial)

end

/-! Which passes are exact. -/

section
variable {ctx : Context} {w : World}

/-- Every record in a worker's hands can be read. -/
def World.HeldReadable (w : World) : Prop :=
  ∀ job, w.jobs job.id = some job → job.state.Held → job.Readable

/-- The records in some of the states, if they can all be read. -/
theorem covers_dumped (ht : w.Tidy) {S : JobState → Prop}
    (hread : ∀ job, w.jobs job.id = some job → S job.state → job.Readable) :
    w.dumped.Covers S fun id => ∃ job, w.dumped.jobs id = some job ∧ S job.state := by
  constructor
  · intro s hs id hid
    obtain ⟨job, hj, rfl⟩ := (ht.dumped.index s id).mp hid
    exact ⟨job, hj, hs⟩
  · rintro id job ⟨other, hother, hs⟩ hj
    rw [hj, Option.some.injEq] at hother
    subst hother
    obtain ⟨stored, hstored, rfl⟩ := Option.map_eq_some_iff.mp hj
    have hid : stored.id = id := ht.ids hstored
    exact ⟨readable_iff.mp (hread stored (hid ▸ hstored) hs), hid⟩

/-- A pass that can read the held records does what it does on records. -/
theorem obeys_loading_recoverStaleJobs (ht : w.Tidy) (hread : w.HeldReadable)
    {Q : Except Exn (List TranscodeJob) → World → Prop} :
    (loading (recoverStaleJobs ctx)).Obeys redis.protocol (fun r w' => Q r w'.dumped) w ↔
      (recoverStaleJobs ctx).Obeys redis.protocol Q w.dumped :=
  obeys_loading_iff (obeys_faithful_of_reading recoverStaleJobs_reads (covers_dumped ht hread))

/-- The first half of a pass leaves the records in processing. -/
theorem recoverClaimed_others (ht : w.Tidy) {job : TranscodeJob} (hj : w.jobs job.id = some job)
    (hs : job.state = .processing) :
    (listByState .claimed >>= recoverJobs ctx).Obeys redis.protocol
      (fun _ w' => w'.Tidy ∧ w'.jobs job.id = some job) w := by
  rw [obeys_bind, obeys_listByState_iff ht]
  intro claimed hc
  have hheld : ∀ other ∈ Sorting.slice 0 100 (newestFirst claimed), other.state.Held := by
    intro other hother
    rw [((hc.mem other).mp (mem_of_mem_firstPage hother)).2]
    exact .inl rfl
  rw [andThen_ok, obeys_recoverJobs hheld]
  refine ⟨ht.recoverAll, ?_⟩
  rw [recoverAll_jobs_of_notMem]
  · exact hj
  · intro hid
    obtain ⟨other, hother, heq⟩ := List.mem_map.mp hid
    obtain ⟨hstale, hclaimed⟩ := staleListed_mem (.inl rfl) hc hother
    have hstored := hstale.stored
    rw [heq, hj, Option.some.injEq] at hstored
    rw [← hstored, hs] at hclaimed
    cases hclaimed

/-- A pass that raises nothing has read every held record. -/
theorem heldReadable_of_pass (ht : w.Tidy) {Q : Except Exn (List TranscodeJob) → World → Prop}
    (hQ : ∀ e w', ¬ Q (.error e) w')
    (h : (loading (recoverStaleJobs ctx)).Obeys redis.protocol Q w) : w.HeldReadable := by
  rw [recoverStaleJobs_eq, loading_bind, obeys_bind] at h
  have hclaimed : ∀ job, w.jobs job.id = some job → job.state = .claimed → job.Readable := by
    intro job hj hs
    by_contra hrefused
    rw [loading_bind, obeys_bind] at h
    obtain ⟨e, he⟩ := listByState_refused ht hj hs hrefused h
    exact hQ e w he
  intro job hj hheld
  rcases hheld with hs | hs
  · exact hclaimed job hj hs
  · by_contra hrefused
    have hreads : (listByState .claimed >>= recoverJobs ctx).Obeys
        (redis.within fun w c => c.Faithful w) _ w.dumped :=
      obeys_faithful_of_reading (recoverListed_reads (fun _ h => .inl h) rfl)
        (covers_dumped (S := (· = .claimed)) ht hclaimed)
    have hdumped : w.dumped.jobs job.dumped.id = some job.dumped :=
      congrArg (Option.map TranscodeJob.dumped) hj
    have hothers := (obeys_loading_iff (Q := fun _ w' => w'.Tidy ∧
      w'.jobs job.dumped.id = some job.dumped) hreads).mpr
        (@recoverClaimed_others ctx _ ht.dumped _ hdumped hs)
    -- the listing of the other half finds the record, whatever the first half did
    have hnone : (loading (listByState .claimed >>= recoverJobs ctx)).Obeys redis.protocol
        (fun _ _ => False) w := by
      apply Machine.obeys_iff_run.mpr
      intro tape r w' hrun
      obtain ⟨htidy, hj'⟩ := Machine.run_obeys hrun hothers
      obtain ⟨stored, hstored, heq⟩ := Option.map_eq_some_iff.mp hj'
      have hid : stored.id = job.id := (congrArg TranscodeJob.id heq :)
      have hstate : stored.state = .processing := (congrArg TranscodeJob.state heq :).trans hs
      have hkept : w'.jobs stored.id = some stored := by
        rw [hid]
        exact hstored
      have hunread : ¬ stored.Readable := by
        rw [readable_iff, heq, ← readable_iff]
        exact hrefused
      have hrest := Machine.run_obeys hrun h
      cases r with
      | error e => exact hQ e w' hrest
      | ok claimed =>
        rw [andThen_ok, loading_bind, obeys_bind, loading_bind, obeys_bind] at hrest
        obtain ⟨e, he⟩ := listByState_refused htidy.of_dumped hkept hstate hunread hrest
        exact hQ e w' he
    have hplain := (obeys_loading_iff (Q := fun _ _ => False) hreads).mp hnone
    obtain ⟨claimed, hc⟩ := exists_members_order ht.dumped .claimed
    rw [obeys_bind, obeys_listByState_iff ht.dumped] at hplain
    have hfirst := hplain claimed hc
    rw [andThen_ok, obeys_recoverJobs] at hfirst
    · exact hfirst
    · intro other hother
      rw [((hc.mem other).mp (mem_of_mem_firstPage hother)).2]
      exact .inl rfl

end

/-- A recovery pass running alone recovers all stale jobs, and changes nothing else, exactly when
    the records in workers' hands can be read, and every stale job has fewer than a hundred jobs of
    its state that may be listed before it. -/
theorem recovery_exact_iff {ctx : Context} {w : World} (ht : w.Tidy) :
    (∀ tape r w', redis.run (loading (recoverStaleJobs ctx)) tape w = some (r, w') →
      RecoveredExactly ctx w.dumped r w'.dumped) ↔
    w.HeldReadable ∧ ∀ job, w.dumped.Stale job → (w.dumped.ahead job).card < 100 := by
  rw [← Machine.obeys_iff_run (Q := fun r (w' : World) =>
    RecoveredExactly ctx w.dumped r w'.dumped)]
  constructor
  · intro h
    have hread : w.HeldReadable := by
      refine heldReadable_of_pass ht (fun e w' hexact => ?_) h
      obtain ⟨jobs, he, -⟩ := hexact.returned
      cases he
    rw [obeys_loading_recoverStaleJobs ht hread, Machine.obeys_iff_run] at h
    exact ⟨hread, fun job hjob => few_ahead_of_exact ht.dumped h hjob⟩
  · rintro ⟨hread, hfew⟩
    rw [obeys_loading_recoverStaleJobs ht hread, Machine.obeys_iff_run]
    exact exact_of_few_ahead ht.dumped hfew

/-- One claimed job without a heartbeat. -/
def onePass : List Choice := [.order [0]] ++ List.replicate 7 .go ++ [.order []]

theorem recovery_exact_crowd : ∃ r w',
    redis.run (loading (recoverStaleJobs smallContext)) onePass (crowd .claimed 1) =
      some (r, w') ∧
      RecoveredExactly smallContext (crowd .claimed 1).dumped r w'.dumped := by
  have ht : (crowd .claimed 1).Tidy := crowd_tidy (by decide)
  have hrun : (redis.run (loading (recoverStaleJobs smallContext)) onePass
      (crowd .claimed 1)).isSome = true := rfl
  obtain ⟨⟨r, w'⟩, hrun⟩ := Option.isSome_iff_exists.mp hrun
  refine ⟨r, w', hrun, (recovery_exact_iff ht).mpr ⟨?_, ?_⟩ _ _ _ hrun⟩
  · exact fun job hj _ => crowd_readable job.id job hj
  · intro job hjob
    rw [dumped_eq crowd_kept] at hjob ⊢
    have hstate : job.state = .claimed := by
      rw [← (crowd_jobs.mp hjob.stored).2]
      rfl
    calc ((crowd .claimed 1).ahead job).card
      _ ≤ ((crowd .claimed 1).stateIndex job.state).card := Finset.card_filter_le _ _
      _ = 1 := by rw [hstate, crowd_card (by decide)]
      _ < 100 := by decide

/-- Of 101 claimed jobs without a heartbeat the oldest is left. -/
theorem recovery_misses_oldest :
    ¬ ∀ w : World, w.Tidy → ∀ tape r w',
      redis.run (loading (recoverStaleJobs smallContext)) tape w = some (r, w') →
        RecoveredExactly smallContext w.dumped r w'.dumped := by
  intro h
  have ht : (crowd .claimed 101).Tidy := crowd_tidy (by decide)
  have hread : (crowd .claimed 101).HeldReadable := fun job hj _ => crowd_readable job.id job hj
  have hexact := h _ ht
  rw [← Machine.obeys_iff_run (Q := fun r (w' : World) =>
    RecoveredExactly smallContext (crowd .claimed 101).dumped r w'.dumped),
    obeys_loading_recoverStaleJobs ht hread, Machine.obeys_iff_run,
    dumped_eq crowd_kept] at hexact
  have hstored : (crowd .claimed 101).jobs 0 = some (crowdJob .claimed 0) := rfl
  have hstale : (crowd .claimed 101).Stale (crowdJob .claimed 0) :=
    ⟨hstored, .inl rfl, rfl⟩
  have hfew := few_ahead_of_exact ht hexact hstale
  have hindex : (0 : Uuid) ∈ (crowd .claimed 101).stateIndex .claimed :=
    (ht.index .claimed 0).mpr ⟨_, hstored, rfl⟩
  -- all the others were created later
  have hsub : ((crowd .claimed 101).stateIndex .claimed).erase 0 ⊆
      (crowd .claimed 101).ahead (crowdJob .claimed 0) := by
    intro id hid
    obtain ⟨hne, hin⟩ := Finset.mem_erase.mp hid
    obtain ⟨job, hj, -⟩ := (ht.index .claimed id).mp hin
    refine Finset.mem_filter.mpr ⟨hin, hne, ?_⟩
    rw [hj, Option.any_some, decide_eq_true_eq]
    exact Nat.zero_le _
  have hmany := Finset.card_le_card hsub
  rw [Finset.card_erase_of_mem hindex, crowd_card (by decide)] at hmany
  omega

end Vshift
