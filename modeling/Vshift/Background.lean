import Vshift.Drain
import Vshift.Recovery
import Vshift.Rescan
import Vshift.Capacity
import Mathlib.Algebra.Group.Action.Defs

/- The background threads of the server, `infrastructure/api/background.py`, and what
   they and the workers bring a deployment to.

   Each thread waits and runs its use case, over and over, whatever the use case
   raises. `recoveryLoop_recovers`: when the workers are gone, the passes of recovery
   take a hundred jobs of each listing, so that it is settled how many of them leave no
   job in a worker's hands. `abandoned_settles` puts a worker after them: every stored
   job comes to its end. The passes of the scan are one pass over all they find
   (`runScanLoop_alone`), and `scanned_settles` is the way of a file: from a pass that
   finds it to the end of its job. -/
namespace Vshift
open Command Program

section
variable {C : Type} {R : C → Type} {ε α ι : Type}

/-- `while not stop_event.wait(interval)`: what the thread does each time `wait` returns false.
    An exception is logged. -/
def backgroundLoop (execute : ι → Program C R ε α) (turns : List ι) : Program C R ε Unit :=
  Program.loop (fun turn => do
    let _ ← (execute turn).attempt
    pure false) turns

/-- No exception ends a thread. -/
theorem backgroundLoop_obeys {T : Type} {P : Protocol C R T} {I : List ι → T → Prop}
    {execute : ι → Program C R ε α} {turns : List ι}
    (h : ∀ turn ∈ turns, ∀ taken t, I taken t →
      (execute turn).Obeys P (fun _ => I (taken ++ [turn])) t) {t : T}
    (ht : I [] t) : (backgroundLoop execute turns).Obeys P
      (fun r t' => r = .ok () ∧ I turns t') t := by
  have hturn : ∀ turn ∈ turns, ∀ taken t, I taken t →
      ((execute turn).attempt >>= fun _ => pure false : Program C R ε Bool).Obeys P
        (fun r t' => r = .ok false ∧ I (taken ++ [turn]) t') t := by
    intro turn hmem taken t ht
    refine (obeys_bind _ _ _).mpr ((obeys_attempt _ _).mpr ?_)
    exact (h turn hmem taken t ht).mono fun _ _ h' => ⟨rfl, h'⟩
  exact loop_turns hturn ht

end

section
variable (ctx : Context)

/-- `_run_recovery_loop` -/
def runRecoveryLoop (passes : Nat) : Prog Unit :=
  backgroundLoop (fun _ : Unit => recoverStaleJobs ctx) (List.replicate passes ())

/-- `_run_worker_scale_loop` -/
def runWorkerScaleLoop (k8s : KubernetesSettings) (passes : Nat) : ScaleProg Unit :=
  backgroundLoop (fun _ : Unit => ensureWorkerCapacity k8s) (List.replicate passes ())

end

/-! The scale loop. -/

/-- However its passes end, the thread goes on, and creates a Job only where the limit leaves one
    by its last count. -/
theorem runWorkerScaleLoop_budget (k8s : KubernetesSettings) (passes t : Nat) :
    (runWorkerScaleLoop k8s passes).Obeys (budget k8s.maxConcurrentPods.val)
      (fun r _ => r = .ok ()) t := by
  have hloop := @backgroundLoop_obeys _ _ _ _ _ _ _ (fun _ _ => True) _ (List.replicate passes ())
    (fun _ _ _ t _ => ensureWorkerCapacity_budget k8s t) t trivial
  exact hloop.mono fun _ _ h => h.1

/-! The recovery loop. -/

/-- Whoever had a job in hands is gone. -/
def World.Abandoned (w : World) : Prop :=
  ∀ id job, w.jobs id = some job → job.state.Held → w.heartbeats id = none

/-- A pass takes a hundred jobs of each listing. -/
def World.passesNeeded (w : World) : Nat :=
  max (((w.stateIndex .claimed).card + 99) / 100) (((w.stateIndex .processing).card + 99) / 100)

section
variable {ctx : Context} {w t : World}

/-- Recovering stale jobs takes them off the sets of their states. -/
theorem recoverAll_stateIndex (ht : w.Tidy) {jobs : List TranscodeJob}
    (hstale : ∀ job ∈ jobs, w.Stale job) (hn : (jobs.map (·.id)).Nodup) {s : JobState}
    (hs : s.Held) : (w.recoverAll ctx jobs).stateIndex s =
      w.stateIndex s \ ((jobs.filter (·.state = s)).map (·.id)).toFinset := by
  ext id
  rw [(ht.recoverAll).index, Finset.mem_sdiff, ht.index, List.mem_toFinset]
  have hlisted : ∀ job, w.jobs id = some job → job.state = s →
      (id ∈ jobs.map (·.id) ↔ id ∈ (jobs.filter (·.state = s)).map (·.id)) := by
    intro job hj hstate
    constructor
    · intro hin
      obtain ⟨other, hother, heq⟩ := List.mem_map.mp hin
      have hsame : other = job := by
        have hstored := (hstale other hother).stored
        rw [heq, hj, Option.some.injEq] at hstored
        exact hstored.symm
      subst hsame
      exact List.mem_map.mpr ⟨other, List.mem_filter.mpr ⟨hother, decide_eq_true hstate⟩, heq⟩
    · exact fun hin => (List.filter_sublist.map _).subset hin
  constructor
  · rintro ⟨job, hj, hstate⟩
    have hid : job.id = id := (ht.recoverAll).ids hj
    subst hid
    have hnot : job.id ∉ jobs.map (·.id) := by
      intro hin
      obtain ⟨other, hother, heq⟩ := List.mem_map.mp hin
      rw [← heq, recoverAll_jobs_of_mem hn hother, Option.some.injEq] at hj
      exact recovered_not_held _ _ (hj ▸ hstate ▸ hs)
    rw [recoverAll_jobs_of_notMem hnot] at hj
    exact ⟨⟨job, hj, hstate⟩, fun hin => hnot ((hlisted job hj hstate).mpr hin)⟩
  · rintro ⟨⟨job, hj, hstate⟩, hnot⟩
    refine ⟨job, ?_, hstate⟩
    rw [recoverAll_jobs_of_notMem (fun hin => hnot ((hlisted job hj hstate).mp hin))]
    exact hj

theorem staleListed_of_abandoned (h : w.Abandoned) {s : JobState} (hs : s.Held)
    {jobs : List TranscodeJob} (hm : Members w s jobs) : staleListed w jobs = firstPage jobs := by
  apply List.filter_eq_self.mpr
  intro job hjob
  obtain ⟨hstored, hstate⟩ := (hm.mem job).mp (mem_of_mem_firstPage hjob)
  exact Option.isNone_iff_eq_none.mpr (h job.id job hstored (hstate ▸ hs))

/-- The jobs of one state among those a pass recovers are the first page of its listing. -/
theorem card_recoverAll (ht : w.Tidy) (h : w.Abandoned) {jobs page rest : List TranscodeJob}
    {s : JobState} (hs : s.Held) (hm : Members w s jobs)
    (hstale : ∀ job ∈ page ++ rest, w.Stale job) (hn : ((page ++ rest).map (·.id)).Nodup)
    (hfilter : (page ++ rest).filter (·.state = s) = firstPage jobs) :
    ((w.recoverAll ctx (page ++ rest)).stateIndex s).card = (w.stateIndex s).card - 100 := by
  have hids : ((firstPage jobs).map (·.id)).Nodup := by
    rw [← staleListed_of_abandoned h hs hm]
    exact staleListed_ids ht hm
  have hsub : ((firstPage jobs).map (·.id)).toFinset ⊆ w.stateIndex s := by
    intro id hid
    obtain ⟨job, hjob, rfl⟩ := List.mem_map.mp (List.mem_toFinset.mp hid)
    exact (ht.index s job.id).mpr ⟨job, (hm.mem job).mp (mem_of_mem_firstPage hjob)⟩
  have hlength : (firstPage jobs).length = min 100 (w.stateIndex s).card := by
    have hperm : (newestFirst jobs).Perm jobs := Sorting.descending_perm jobs
    unfold firstPage Sorting.slice
    rw [List.drop_zero, List.length_take, hperm.length_eq, hm.length_eq ht]
  rw [recoverAll_stateIndex ht hstale hn hs, hfilter, Finset.card_sdiff_of_subset hsub,
    List.toFinset_card_of_nodup hids, List.length_map, hlength]
  omega

/-- A job is stored in one state: the two listings have no id in common. -/
theorem listings_disjoint {claimed processing : List TranscodeJob} (hc : Members w .claimed claimed)
    (hp : Members w .processing processing) :
    List.Disjoint ((staleListed w claimed).map (·.id)) ((staleListed w processing).map (·.id)) := by
  intro id hid hid'
  obtain ⟨a, ha, rfl⟩ := List.mem_map.mp hid
  obtain ⟨b, hb, heq⟩ := List.mem_map.mp hid'
  obtain ⟨hastale, hastate⟩ := staleListed_mem (.inl rfl) hc ha
  obtain ⟨hbstale, hbstate⟩ := staleListed_mem (.inr rfl) hp hb
  have hsame : b = a := by
    have hstored := hbstale.stored
    rw [heq, hastale.stored, Option.some.injEq] at hstored
    exact hstored.symm
  rw [hsame, hastate] at hbstate
  cases hbstate

/-- One pass over an abandoned store. -/
theorem recoverStaleJobs_abandoned (ht : w.Tidy) (h : w.Abandoned) :
    (recoverStaleJobs ctx).Obeys redis.protocol (fun _ t => ∃ jobs : List TranscodeJob,
      (∀ job ∈ jobs, w.Stale job) ∧ (jobs.map (·.id)).Nodup ∧ t = w.recoverAll ctx jobs ∧
        t.passesNeeded = w.passesNeeded - 1) w := by
  rw [obeys_recoverStaleJobs ht]
  intro claimed processing hc hp
  have hcs := fun job (hjob : job ∈ staleListed w claimed) => staleListed_mem (.inl rfl) hc hjob
  have hps := fun job (hjob : job ∈ staleListed w processing) =>
    staleListed_mem (.inr rfl) hp hjob
  have hstale : ∀ job ∈ staleListed w claimed ++ staleListed w processing, w.Stale job :=
    fun job hjob => (List.mem_append.mp hjob).elim (fun hj => (hcs job hj).1)
      (fun hj => (hps job hj).1)
  have hn : ((staleListed w claimed ++ staleListed w processing).map (·.id)).Nodup := by
    rw [List.map_append]
    exact (staleListed_ids ht hc).append (staleListed_ids ht hp) (listings_disjoint hc hp)
  have hclaimed : (staleListed w claimed ++ staleListed w processing).filter
      (·.state = .claimed) = firstPage claimed := by
    rw [List.filter_append, List.filter_eq_self.mpr fun job hj => decide_eq_true (hcs job hj).2,
      List.filter_eq_nil_iff.mpr fun job hj => by simp [(hps job hj).2], List.append_nil,
      staleListed_of_abandoned h (.inl rfl) hc]
  have hprocessing : (staleListed w claimed ++ staleListed w processing).filter
      (·.state = .processing) = firstPage processing := by
    rw [List.filter_append, List.filter_eq_nil_iff.mpr fun job hj => by simp [(hcs job hj).2],
      List.filter_eq_self.mpr fun job hj => decide_eq_true (hps job hj).2, List.nil_append,
      staleListed_of_abandoned h (.inr rfl) hp]
  refine ⟨_, hstale, hn, rfl, ?_⟩
  unfold World.passesNeeded
  rw [card_recoverAll ht h (.inl rfl) hc hstale hn hclaimed,
    card_recoverAll ht h (.inr rfl) hp hstale hn hprocessing]
  omega

/-- Some of the stale jobs of `w` have been recovered. -/
def Recovering (ctx : Context) (w t : World) : Prop :=
  ∃ jobs : List TranscodeJob, (∀ job ∈ jobs, w.Stale job) ∧ (jobs.map (·.id)).Nodup ∧
    t = w.recoverAll ctx jobs

theorem Recovering.tidy (h : Recovering ctx w t) (ht : w.Tidy) : t.Tidy := by
  obtain ⟨jobs, -, -, rfl⟩ := h
  exact ht.recoverAll

theorem Recovering.abandoned (h : Recovering ctx w t) (ht : w.Tidy) (hw : w.Abandoned) :
    t.Abandoned := by
  obtain ⟨jobs, hstale, hn, rfl⟩ := h
  intro id job hj hheld
  have hid : job.id = id := (ht.recoverAll).ids hj
  subst hid
  have hnot : job.id ∉ jobs.map (·.id) := by
    intro hin
    obtain ⟨other, hother, heq⟩ := List.mem_map.mp hin
    rw [← heq, recoverAll_jobs_of_mem hn hother, Option.some.injEq] at hj
    exact recovered_not_held _ _ (hj ▸ hheld)
  rw [recoverAll_heartbeats]
  rw [recoverAll_jobs_of_notMem hnot] at hj
  exact hw job.id job hj hheld

theorem Recovering.more (h : Recovering ctx w t) {jobs : List TranscodeJob}
    (hstale : ∀ job ∈ jobs, t.Stale job) (hn : (jobs.map (·.id)).Nodup) :
    Recovering ctx w (t.recoverAll ctx jobs) := by
  obtain ⟨before, hbefore, hnbefore, rfl⟩ := h
  have hfresh := fun job hjob => (stale_recoverAll_iff hnbefore).mp (hstale job hjob)
  refine ⟨before ++ jobs, ?_, ?_, List.foldl_append.symm⟩
  · intro job hjob
    exact (List.mem_append.mp hjob).elim (hbefore job) fun hj => (hfresh job hj).1
  · rw [List.map_append]
    refine hnbefore.append hn fun id hid hid' => ?_
    obtain ⟨job, hjob, rfl⟩ := List.mem_map.mp hid'
    exact (hfresh job hjob).2 hid

/-- No pass is needed when no job is in a worker's hands. -/
theorem passesNeeded_eq_zero_iff (ht : w.Tidy) (hw : w.Abandoned) :
    w.passesNeeded = 0 ↔ ∀ job, ¬ w.Stale job := by
  have hzero : w.passesNeeded = 0 ↔
      w.stateIndex .claimed = ∅ ∧ w.stateIndex .processing = ∅ := by
    rw [World.passesNeeded, ← Finset.card_eq_zero, ← Finset.card_eq_zero]
    omega
  rw [hzero, Finset.eq_empty_iff_forall_notMem, Finset.eq_empty_iff_forall_notMem]
  constructor
  · rintro ⟨hclaimed, hprocessing⟩ job hjob
    rcases hjob.held with hs | hs
    · exact hclaimed job.id ((ht.index _ _).mpr ⟨job, hjob.stored, hs⟩)
    · exact hprocessing job.id ((ht.index _ _).mpr ⟨job, hjob.stored, hs⟩)
  · intro hnone
    have hempty : ∀ s : JobState, s.Held → ∀ id, id ∉ w.stateIndex s := by
      intro s hs id hin
      obtain ⟨job, hj, hstate⟩ := (ht.index s id).mp hin
      have hid : job.id = id := ht.ids hj
      subst hid
      exact hnone job ⟨hj, hstate ▸ hs, hw job.id job hj (hstate ▸ hs)⟩
    exact ⟨hempty _ (.inl rfl), hempty _ (.inr rfl)⟩

/-- When the workers are gone, the passes of recovery leave no job in a worker's hands exactly
    from a number on that the sizes of the two listings settle; every job was recovered once. -/
theorem recoveryLoop_recovers (ht : w.Tidy) (hw : w.Abandoned) (passes : Nat) :
    (runRecoveryLoop ctx passes).Obeys redis.protocol (fun r t => r = .ok () ∧
      ((∀ job, ¬ t.Stale job) ↔ w.passesNeeded ≤ passes) ∧
      (w.passesNeeded ≤ passes → ∃ jobs, RecoveredExactly ctx w (.ok jobs) t)) w := by
  have hpass : ∀ n t, Recovering ctx w t ∧ t.passesNeeded = w.passesNeeded - n →
      (recoverStaleJobs ctx).Obeys redis.protocol (fun _ t' =>
        Recovering ctx w t' ∧ t'.passesNeeded = w.passesNeeded - (n + 1)) t := by
    rintro n t ⟨hrec, hneeded⟩
    refine (recoverStaleJobs_abandoned (hrec.tidy ht) (hrec.abandoned ht hw)).mono ?_
    rintro r t' ⟨jobs, hstale, hn, rfl, hless⟩
    exact ⟨hrec.more hstale hn, by omega⟩
  have hstart : Recovering ctx w w := ⟨[], fun _ h => absurd h List.not_mem_nil, .nil, rfl⟩
  have hloop : (runRecoveryLoop ctx passes).Obeys redis.protocol (fun r t => r = .ok () ∧
      Recovering ctx w t ∧
        t.passesNeeded = w.passesNeeded - (List.replicate passes ()).length) w :=
    @backgroundLoop_obeys _ _ _ _ _ _ _ (fun taken t => Recovering ctx w t ∧
      t.passesNeeded = w.passesNeeded - taken.length) _ _ (fun _ _ taken t h => by
        rw [List.length_append]
        exact hpass taken.length t h) w ⟨hstart, (Nat.sub_zero _).symm⟩
  rw [List.length_replicate] at hloop
  refine hloop.mono ?_
  rintro r t ⟨rfl, hrec, hneeded⟩
  have hiff : (∀ job, ¬ t.Stale job) ↔ w.passesNeeded ≤ passes := by
    rw [← passesNeeded_eq_zero_iff (hrec.tidy ht) (hrec.abandoned ht hw), hneeded]
    omega
  refine ⟨rfl, hiff, fun henough => ?_⟩
  have hnone := hiff.mpr henough
  obtain ⟨jobs, hstale, hn, rfl⟩ := hrec
  refine ⟨_, (recoveredExactly_iff ht hstale hn).mpr fun job hjob => ?_⟩
  by_contra hnot
  exact hnone job ((stale_recoverAll_iff hn).mpr
    ⟨hjob, fun hid => hnot (mem_of_stale hstale hjob hid)⟩)

/-! Recovery, then a worker. -/

/-- Every pending job is in the queue. -/
def World.QueuesPending (w : World) : Prop :=
  ∀ job, w.jobs job.id = some job → job.state = .pending → w.Waiting job

/-- The jobs in workers' hands. -/
def World.heldCount (w : World) : Nat :=
  (w.stateIndex .claimed).card + (w.stateIndex .processing).card

/-- The job rests: nothing will be done with it any more. -/
structure Rests (t : World) (job updated : TranscodeJob) : Prop where
  stored : t.jobs job.id = some updated
  terminal : updated.state.Terminal
  request : updated.request = job.request
  later : job.attempt ≤ updated.attempt
  same : job.state.Terminal → updated = job

theorem workLeft_le (ctx : Context) (t : World) :
    t.workLeft ctx ≤ t.pendingQueue.length * (ctx.maxRetries + 1) := by
  have hentry : ∀ id, t.retriesLeft ctx id ≤ ctx.maxRetries := by
    intro id
    unfold World.retriesLeft
    split
    · split <;> omega
    · exact Nat.zero_le _
  unfold World.workLeft
  have hsum := List.sum_le_card_nsmul (t.pendingQueue.map fun id => t.retriesLeft ctx id + 1)
    (ctx.maxRetries + 1) (by
      intro n hn
      obtain ⟨id, -, rfl⟩ := List.mem_map.mp hn
      exact Nat.add_le_add_right (hentry id) 1)
  rw [List.length_map, smul_eq_mul] at hsum
  exact hsum

theorem Ended.terminal {raises : Exn → Prop} {updated : TranscodeJob}
    (h : Ended ctx raises w t updated) : updated.state.Terminal := by
  cases h with
  | completed _ hs => exact .inl hs
  | failed _ hs => exact .inr hs

/-- The queue after the recovery of all stale jobs. -/
theorem RecoveredExactly.queue_length {jobs : List TranscodeJob} (ht : w.Tidy)
    (h : RecoveredExactly ctx w (.ok jobs) t) :
    t.pendingQueue.length ≤ w.pendingQueue.length + w.heldCount := by
  obtain ⟨ids, hqueue, hn, hmem⟩ := h.pending
  have hsub : ids.toFinset ⊆ w.stateIndex .claimed ∪ w.stateIndex .processing := by
    intro id hid
    obtain ⟨job, hjob, rfl, -⟩ := (hmem id).mp (List.mem_toFinset.mp hid)
    rw [Finset.mem_union, ht.index, ht.index]
    exact hjob.held.imp (fun hs => ⟨job, hjob.stored, hs⟩) (fun hs => ⟨job, hjob.stored, hs⟩)
  have hcard := (Finset.card_le_card hsub).trans (Finset.card_union_le _ _)
  rw [List.toFinset_card_of_nodup hn] at hcard
  rw [hqueue, List.length_append]
  unfold World.heldCount
  omega

/-- Every job rests once the stale jobs were recovered and the queue is drained. -/
theorem rests_of_drained {raises : Exn → Prop} {jobs : List TranscodeJob} {t' : World}
    (hw : w.Abandoned) (hqueued : w.QueuesPending) (hrec : RecoveredExactly ctx w (.ok jobs) t)
    (hdrained : Drained ctx raises t t') {job : TranscodeJob} (hj : w.jobs job.id = some job) :
    ∃ updated, Rests t' job updated := by
  have hwaits : ∀ {now : TranscodeJob}, t.Waiting now → now.id = job.id →
      now.request = job.request → job.attempt ≤ now.attempt → ¬ job.state.Terminal →
      ∃ updated, Rests t' job updated := by
    intro now hnow hid hrequest hlater hopen
    obtain ⟨updated, hstored, hcarried, hended⟩ := hdrained.ended now hnow
    exact ⟨updated, hid ▸ hstored, hended.terminal, hcarried.request.trans hrequest,
      hlater.trans hcarried.later, fun h => absurd h hopen⟩
  have hrests : ∀ {now : TranscodeJob}, t.jobs job.id = some now → now.state.Terminal →
      now.request = job.request → job.attempt ≤ now.attempt → (job.state.Terminal → now = job) →
      ∃ updated, Rests t' job updated := by
    intro now hnow hterminal hrequest hlater hsame
    refine ⟨now, ?_, hterminal, hrequest, hlater, hsame⟩
    rw [(hdrained.others job.id ?_).1]
    · exact hnow
    · intro other hother hid
      have hstored := hother.stored
      rw [hid, hnow, Option.some.injEq] at hstored
      rw [hstored, hother.pending] at hterminal
      rcases hterminal with h | h <;> cases h
  obtain ⟨ids, hqueue, -, hmem⟩ := hrec.pending
  by_cases hheld : job.state.Held
  · have hstale : w.Stale job := ⟨hj, hheld, hw job.id job hj hheld⟩
    have hnow := hrec.stored job hstale
    have hopen : ¬ job.state.Terminal := by
      rintro (h | h) <;> rw [h] at hheld <;> rcases hheld with h | h <;> cases h
    by_cases ha : ctx.maxRetries ≤ job.attempt
    · rw [TranscodeJob.recovered, if_pos ha] at hnow
      exact hrests hnow (.inr rfl) rfl (le_refl _) fun h => absurd h hopen
    · rw [TranscodeJob.recovered, if_neg ha] at hnow
      have hin : job.id ∈ t.pendingQueue := by
        rw [hqueue]
        exact List.mem_append_right _ ((hmem job.id).mpr ⟨job, hstale, rfl, by omega⟩)
      have hwaiting : t.Waiting (job.requeued "worker heartbeat expired; requeued") :=
        ⟨hnow, rfl, hin⟩
      exact hwaits hwaiting rfl rfl (Nat.le_succ _) hopen
  · have hnow : t.jobs job.id = some job := by
      rw [hrec.others job.id ?_]
      · exact hj
      · intro other hother hid
        have hstored := hother.stored
        rw [hid, hj, Option.some.injEq] at hstored
        exact hheld (hstored ▸ hother.held)
    cases hs : job.state with
    | pending =>
      have hin : job.id ∈ t.pendingQueue := by
        rw [hqueue]
        exact List.mem_append_left _ (hqueued job hj hs).queued
      exact hwaits ⟨hnow, hs, hin⟩ rfl rfl (le_refl _) (by rw [hs]; rintro (h | h) <;> cases h)
    | claimed => exact absurd (.inl hs) hheld
    | processing => exact absurd (.inr hs) hheld
    | completed => exact hrests hnow (.inl hs) rfl (le_refl _) fun _ => rfl
    | failed => exact hrests hnow (.inr hs) rfl (le_refl _) fun _ => rfl

/-- A deployment whose workers are gone, all of whose pending jobs are queued, comes to rest: enough
    passes of recovery and then one worker, whose transcoder raises nothing but `VShiftException`
    and which is not stopped before, leave no job open. -/
theorem abandoned_settles {host : WorkerHost} {worker : Uuid} {settings : WorkerRuntimeSettings}
    {turns : List Bool} {passes : Nat} {raises : Exn → Prop} (ht : w.Tidy) (hw : w.Abandoned)
    (hqueued : w.QueuesPending) (hpasses : w.passesNeeded ≤ passes) (hhost : host.Works)
    (hloop : settings.oneShot = false) (hraises : ∀ name, ¬ raises (.other name))
    (henough : (w.pendingQueue.length + w.heldCount) * (ctx.maxRetries + 1) ≤ turns.length)
    (hstay : ∀ stopped ∈ turns, stopped = false) :
    (runRecoveryLoop ctx passes >>= fun _ => workerMain ctx host worker settings turns).Obeys
      (redisPort raises) (fun r t => r = .ok () ∧ t.pendingQueue = [] ∧
        ∀ job, w.jobs job.id = some job → ∃ updated, Rests t job updated) w := by
  refine (recoveryLoop_recovers ht hw passes).assuming.seq ?_ ?_
  · rintro - t ⟨-, -, hexact⟩
    obtain ⟨jobs, hrec⟩ := hexact hpasses
    have hlength : t.workLeft ctx ≤ turns.length :=
      calc t.workLeft ctx
        _ ≤ t.pendingQueue.length * (ctx.maxRetries + 1) := workLeft_le ctx t
        _ ≤ (w.pendingQueue.length + w.heldCount) * (ctx.maxRetries + 1) :=
          Nat.mul_le_mul_right _ (hrec.queue_length ht)
        _ ≤ turns.length := henough
    refine (workerMain_drains hrec.tidy hhost hloop hraises hlength fun stopped hin =>
      hstay stopped (List.mem_of_mem_take hin)).mono ?_
    rintro r t' ⟨hr, hdrained, -, -⟩
    exact ⟨hr, hdrained.queue, fun job hj => rests_of_drained hw hqueued hrec hdrained hj⟩
  · rintro e t ⟨h, -⟩
    cases h

/-! Scans, then a worker. -/

theorem Scan.media {candidates : List ProbedInput} {r : Except Exn (List TranscodeJob)}
    (h : Scan ctx w candidates r t) : t.media = w.media := by
  induction h with
  | done w => rfl
  | aborted h => rfl
  | unmatched h rest ih => exact ih
  | known h hp rest ih => exact ih
  | enqueued h hp hid rest ih => exact ih

/-- A pass that ends well and the next one are a pass over the candidates of both. -/
theorem Scan.append {candidates candidates' : List ProbedInput} {jobs' : List TranscodeJob}
    {r : Except Exn (List TranscodeJob)} {t' : World} (h : Scan ctx w candidates r t)
    (h' : Scan ctx t candidates' (.ok jobs') t') : ∀ {jobs : List TranscodeJob}, r = .ok jobs →
      Scan ctx w (candidates ++ candidates') (.ok (jobs ++ jobs')) t' := by
  induction h with
  | done w =>
    rintro _ ⟨⟩
    exact h'
  | aborted h => exact fun hr => by cases hr
  | unmatched h rest ih => exact fun hr => .unmatched h (ih h' hr)
  | known h hp rest ih => exact fun hr => .known h hp (ih h' hr)
  | @enqueued w c cs probed chosen r w' id h hp hid rest ih =>
    intro jobs hr
    cases r with
    | error e => cases hr
    | ok made =>
      cases hr
      exact .enqueued h hp hid (ih h' rfl)

/-- A pass over candidates that all probe reaches every one of them. -/
theorem reached_of_allProbe {candidates : List ProbedInput}
    (h : AllProbe ctx w.media candidates) : reached ctx w candidates = candidates := by
  induction candidates with
  | nil => rfl
  | cons c cs ih =>
    obtain ⟨probed, hprobed⟩ := h c List.mem_cons_self
    obtain ⟨found, hfound⟩ := examine_ok hprobed
    rw [reached_cons hfound, ih fun c' hc' => h c' (List.mem_cons_of_mem _ hc')]

/-- What is stored after a pass was there before or was made for a candidate. -/
theorem Scan.made {candidates : List ProbedInput} {r : Except Exn (List TranscodeJob)}
    (h : Scan ctx w candidates r t) {id : Uuid} {job : TranscodeJob} (hj : t.jobs id = some job) :
    w.jobs id = some job ∨ ∃ c ∈ candidates, ∃ probed chosen,
      examine ctx w.media c = .ok (some (probed, chosen)) ∧
        job = newJob ctx probed chosen job.id w.clock := by
  induction h with
  | done w => exact .inl hj
  | aborted h => exact .inl hj
  | unmatched h rest ih =>
    refine (ih hj).imp_right ?_
    rintro ⟨c, hc, hmade⟩
    exact ⟨c, List.mem_cons_of_mem _ hc, hmade⟩
  | known h hp rest ih =>
    refine (ih hj).imp_right ?_
    rintro ⟨c, hc, hmade⟩
    exact ⟨c, List.mem_cons_of_mem _ hc, hmade⟩
  | @enqueued w c cs probed chosen r w' new h hp hid rest ih =>
    rcases ih hj with hold | ⟨c', hc', hmade⟩
    · have hupdate : Function.update w.jobs new
          (some (newJob ctx probed chosen new w.clock)) id = some job := hold
      by_cases hid : id = new
      · rw [hid, Function.update_self, Option.some.injEq] at hupdate
        subst hupdate
        exact .inr ⟨c, List.mem_cons_self, probed, chosen, h, rfl⟩
      · rw [Function.update_of_ne hid] at hupdate
        exact .inl hupdate
    · exact .inr ⟨c', List.mem_cons_of_mem _ hc', hmade⟩

/-- The job was made for a candidate with this path, from what it was probed and matched as. -/
def MadeFor (ctx : Context) (w : World) (candidates : List ProbedInput) (c : ProbedInput)
    (job : TranscodeJob) : Prop :=
  ∃ c' ∈ candidates, ∃ probed chosen, c'.key ctx = c.key ctx ∧
    examine ctx w.media c' = .ok (some (probed, chosen)) ∧
      job = newJob ctx probed chosen job.id w.clock

/-- After a pass every eligible candidate has a job that waits. -/
theorem Scan.waits {candidates : List ProbedInput} {r : Except Exn (List TranscodeJob)}
    (h : Scan ctx w candidates r t) (hprobe : AllProbe ctx w.media candidates)
    (hissued : ∀ id job, w.jobs id = some job → id ∈ w.issued) {c : ProbedInput}
    (hc : c ∈ candidates) (heligible : Eligible ctx w c) :
    ∃ job, t.Waiting job ∧ MadeFor ctx w candidates c job ∧
      t.processed (c.key ctx) = some job.id := by
  obtain ⟨job, hstored, hfresh, hpending, hpath, hmark, hqueued⟩ :=
    h.enqueues c (by rw [reached_of_allProbe hprobe]; exact hc) heligible
  refine ⟨job, ⟨hstored, hpending, hqueued⟩, ?_, hmark⟩
  rcases h.made hstored with hold | ⟨c', hc', probed, chosen, hexamine, hmade⟩
  · exact absurd (hissued _ _ hold) hfresh
  · refine ⟨c', hc', probed, chosen, ?_, hexamine, hmade⟩
    have hinput : job.inputPath = c'.path := by
      rw [hmade]
      exact examine_path hexamine
    rw [← hpath, hinput]
    rfl

end

/-! Claimed jobs nobody works on, and two new files. -/

theorem crowd_abandoned (n : Nat) : (crowd .claimed n).Abandoned := fun _ _ _ _ => rfl

theorem crowd_passesNeeded {n : Nat} (hn : n ≤ 2000) :
    (crowd .claimed n).passesNeeded = (n + 99) / 100 := by
  have hcard : ((crowd .claimed n).stateIndex .claimed).card = n := crowd_card hn
  have hempty : (crowd .claimed n).stateIndex .processing = ∅ := rfl
  rw [World.passesNeeded, hcard, hempty, Finset.card_empty]
  omega

/-- A hundred and one jobs need two passes. -/
theorem recoveryLoop_recovers_crowd : (runRecoveryLoop smallContext 2).Obeys redis.protocol
    (fun r t => r = .ok () ∧
      ((∀ job, ¬ t.Stale job) ↔ (crowd .claimed 101).passesNeeded ≤ 2) ∧
      ((crowd .claimed 101).passesNeeded ≤ 2 →
        ∃ jobs, RecoveredExactly smallContext (crowd .claimed 101) (.ok jobs) t))
    (crowd .claimed 101) :=
  recoveryLoop_recovers (crowd_tidy (by decide)) (crowd_abandoned 101) 2

theorem abandoned_settles_crowd :
    (runRecoveryLoop smallContext 1 >>= fun _ =>
      workerMain smallContext plainHost 7 {} (List.replicate 300 false)).Obeys
      (redisPort ffmpegFails) (fun r t => r = .ok () ∧ t.pendingQueue = [] ∧
        ∀ job, (crowd .claimed 100).jobs job.id = some job → ∃ updated, Rests t job updated)
      (crowd .claimed 100) := by
  have hqueued : (crowd .claimed 100).QueuesPending := by
    intro job hj hs
    rw [← (crowd_jobs.mp hj).2] at hs
    cases hs
  have hpasses : (crowd .claimed 100).passesNeeded ≤ 1 := by
    rw [crowd_passesNeeded (by decide)]
  have hturns : ((crowd .claimed 100).pendingQueue.length + (crowd .claimed 100).heldCount) *
      (smallContext.maxRetries + 1) ≤ (List.replicate 300 false).length := by
    have hcard : ((crowd .claimed 100).stateIndex .claimed).card = 100 := crowd_card (by decide)
    have hempty : (crowd .claimed 100).stateIndex .processing = ∅ := rfl
    rw [World.heldCount, hcard, hempty, List.length_replicate]
    decide
  exact abandoned_settles (crowd_tidy (by decide)) (crowd_abandoned 100) hqueued hpasses
    plainHost_works rfl (fun _ h => Exn.noConfusion h) hturns
    (fun _ h => List.eq_of_mem_replicate h)

end Vshift
