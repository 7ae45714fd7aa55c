import Vshift.Accounting
import Vshift.Fairness
import Vshift.Recovery
import Mathlib.Data.Prod.Lex

/- Every job comes to its end.

   Any number of workers and the server take their moves in any order, jobs are enqueued without
   end, workers crash between their moves. What is left of one job (`World.left`) are the moves
   its attempts still take and, while it waits, the jobs before it in the queue; no move makes it
   more (`step_advances`). A scheduler is `Fair` if it lets the workers, the transcoder, the lapse
   of heartbeats and the recovery each take their turn again. Then a job that is not at its end
   gets on (`waiting_advances`, `busy_advances`, `abandoned_advances`), and `every_job_ends`. -/
namespace Vshift
open Command

/-! What is left of a job. -/

/-- Three moves for every attempt, as far as they have not been taken. -/
def TranscodeJob.movesLeft (maxRetries : Nat) (job : TranscodeJob) : Nat :=
  match job.state with
  | .pending => 3 * (maxRetries - job.attempt) + 3
  | .claimed => 3 * (maxRetries - job.attempt) + 2
  | .processing => 3 * (maxRetries - job.attempt) + 1
  | .completed | .failed => 0

/-- The jobs before a job that waits. -/
def World.before (w : World) (job : TranscodeJob) : Nat :=
  if job.state = .pending then w.pendingQueue.idxOf job.id else 0

def World.left (ctx : Context) (w : World) (id : Uuid) : Nat ×ₗ Nat :=
  (w.jobs id).elim (toLex (0, 0)) fun job => toLex (job.movesLeft ctx.maxRetries, w.before job)

theorem not_lt_zero (x : Nat ×ₗ Nat) : ¬ x < toLex (0, 0) := by
  rw [Prod.Lex.lt_iff]
  rintro (h | ⟨-, h⟩) <;> exact Nat.not_lt_zero _ h

section
variable {n : Nat} {job : TranscodeJob}

theorem movesLeft_claimedBy (h : job.state = .pending) (worker : Uuid) (now : DateTime) :
    (job.claimedBy worker now).movesLeft n < job.movesLeft n := by
  simp only [TranscodeJob.movesLeft, TranscodeJob.claimedBy, h]
  omega

theorem movesLeft_started (h : job.state = .claimed) (now : DateTime) :
    (job.started now).movesLeft n < job.movesLeft n := by
  simp only [TranscodeJob.movesLeft, TranscodeJob.started, h]
  omega

theorem movesLeft_pos_of_held (h : job.state.Held) : 0 < job.movesLeft n := by
  unfold TranscodeJob.movesLeft
  rcases h with h | h <;> rw [h] <;> exact Nat.succ_pos _

theorem movesLeft_requeued (h : job.state.Held) (ha : job.attempt < n) (error : String) :
    (job.requeued error).movesLeft n < job.movesLeft n := by
  rcases h with h | h <;> simp only [TranscodeJob.movesLeft, TranscodeJob.requeued, h] <;> omega

theorem movesLeft_recovered (h : job.state.Held) (now : DateTime) :
    (job.recovered n now).movesLeft n < job.movesLeft n := by
  unfold TranscodeJob.recovered
  split
  · exact movesLeft_pos_of_held h
  · next ha => exact movesLeft_requeued h (Nat.lt_of_not_le ha) _

end

/-- What can happen to one job: its record stays and it is no further back, or it gets on. -/
def Advances (ctx : Context) (w w' : World) (job : TranscodeJob) : Prop :=
  (w'.jobs job.id = some job ∧ w'.left ctx job.id ≤ w.left ctx job.id) ∨
    ∃ after, w'.jobs job.id = some after ∧ w'.left ctx job.id < w.left ctx job.id

section
variable {ctx : Context} {w w' w'' : World} {job : TranscodeJob}

theorem left_of_stored {id : Uuid} (hj : w.jobs id = some job) :
    w.left ctx id = toLex (job.movesLeft ctx.maxRetries, w.before job) := by
  rw [World.left, hj, Option.elim_some]

theorem left_lt {after : TranscodeJob} (hj : w.jobs job.id = some job)
    (hafter : w'.jobs job.id = some after)
    (h : after.movesLeft ctx.maxRetries < job.movesLeft ctx.maxRetries) :
    w'.left ctx job.id < w.left ctx job.id := by
  rw [left_of_stored hj, left_of_stored hafter, Prod.Lex.toLex_lt_toLex]
  exact .inl h

theorem Advances.changed {after : TranscodeJob} (hj : w.jobs job.id = some job)
    (hafter : w'.jobs job.id = some after)
    (h : after.movesLeft ctx.maxRetries < job.movesLeft ctx.maxRetries) : Advances ctx w w' job :=
  .inr ⟨after, hafter, left_lt hj hafter h⟩

theorem Advances.same (hj : w.jobs job.id = some job) (hj' : w'.jobs job.id = some job)
    (hbefore : w'.before job ≤ w.before job) : Advances ctx w w' job := by
  refine .inl ⟨hj', ?_⟩
  rw [left_of_stored hj, left_of_stored hj', Prod.Lex.toLex_le_toLex]
  exact .inr ⟨rfl, hbefore⟩

theorem before_le (h : job.state = .pending →
    w'.pendingQueue.idxOf job.id ≤ w.pendingQueue.idxOf job.id) : w'.before job ≤ w.before job := by
  unfold World.before
  split
  · next hp => exact h hp
  · exact Nat.le_refl 0

/-- One record is saved, which if it is the job's gets it on, and ids may be added to the queue. -/
theorem Advances.saved (saved : TranscodeJob) {ids : List Uuid} (hj : w.jobs job.id = some job)
    (hwaits : job.state = .pending → job.id ∈ w.pendingQueue)
    (hjobs : w'.jobs = Function.update w.jobs saved.id (some saved))
    (hqueue : w'.pendingQueue = w.pendingQueue ++ ids)
    (hsaved : saved.id = job.id → saved.movesLeft ctx.maxRetries < job.movesLeft ctx.maxRetries) :
    Advances ctx w w' job := by
  by_cases hid : saved.id = job.id
  · refine .changed hj ?_ (hsaved hid)
    rw [hjobs, hid, Function.update_self]
  · refine .same hj ?_ (before_le fun hp => ?_)
    · rw [hjobs, Function.update_of_ne (Ne.symm hid), hj]
    · rw [hqueue, List.idxOf_append_of_mem (hwaits hp)]

theorem Advances.trans (h : Advances ctx w w' job) (ht : w'.Tidy)
    (h' : ∀ after, after.id = job.id → w'.jobs after.id = some after → Advances ctx w' w'' after) :
    Advances ctx w w'' job := by
  rcases h with ⟨hj, hle⟩ | ⟨after, hafter, hlt⟩
  · rcases h' job rfl hj with ⟨hj', hle'⟩ | ⟨later, hlater, hlt'⟩
    · exact .inl ⟨hj', hle'.trans hle⟩
    · exact .inr ⟨later, hlater, hlt'.trans_le hle⟩
  · have hid : after.id = job.id := ht.ids hafter
    have hnext := h' after hid (hid ▸ hafter)
    rw [Advances, hid] at hnext
    rcases hnext with ⟨hj', hle'⟩ | ⟨later, hlater, hlt'⟩
    · exact .inr ⟨after, hj', hle'.trans_lt hlt⟩
    · exact .inr ⟨later, hlater, hlt'.trans hlt⟩

/-- Nothing is saved and the queue keeps what it holds. -/
theorem Advances.kept (hj : w.jobs job.id = some job) (hjobs : w'.jobs = w.jobs)
    (hqueue : w'.pendingQueue = w.pendingQueue) : Advances ctx w w' job := by
  refine .same hj (hjobs ▸ hj) (before_le fun _ => ?_)
  rw [hqueue]

end

namespace Fleet
variable {ctx : Context} {s : Fleet} {m : Move} {job : TranscodeJob}

/-- A pending job waits in the queue. -/
theorem Balanced.waits (h : Balanced ctx s) (hj : s.world.jobs job.id = some job)
    (hp : job.state = .pending) : job.id ∈ s.world.pendingQueue :=
  h.pending.mem_iff.mpr (World.state?_eq_some.mpr ⟨job, hj, hp⟩)

/-- The first id in the queue is that of a pending job. -/
theorem Balanced.head_pending (h : Balanced ctx s) {id : Uuid}
    (hq : s.world.pendingQueue.head? = some id) :
    ∃ job, s.world.jobs id = some job ∧ job.state = .pending :=
  World.state?_eq_some.mp (h.pending.mem_iff.mp (List.mem_of_head? hq))

/-- A claim takes the job itself or one before it. -/
theorem Balanced.claim_advances (h : Balanced ctx s) {worker id : Uuid} {first : TranscodeJob}
    (hq : s.world.pendingQueue.head? = some id) (hf : s.world.jobs id = some first)
    (hp : first.state = .pending) (hj : s.world.jobs job.id = some job) :
    Advances ctx s.world (claimedWorld ctx s.world worker first) job ∧
      (job.state = .pending →
        (claimedWorld ctx s.world worker first).left ctx job.id < s.world.left ctx job.id) := by
  have hid : first.id = id := h.coherent.tidy.ids hf
  subst hid
  have hjobs : (claimedWorld ctx s.world worker first).jobs =
      Function.update s.world.jobs first.id (some (first.claimedBy worker s.world.clock)) := rfl
  by_cases hsame : first.id = job.id
  · have hfirst : first = job := Option.some.inj (hf.symm.trans (hsame ▸ hj))
    subst hfirst
    have hafter : (claimedWorld ctx s.world worker first).jobs first.id =
        some (first.claimedBy worker s.world.clock) := by rw [hjobs, Function.update_self]
    have hmoves := movesLeft_claimedBy (n := ctx.maxRetries) hp worker s.world.clock
    exact ⟨.changed hj hafter hmoves, fun _ => left_lt hj hafter hmoves⟩
  · have hkept : (claimedWorld ctx s.world worker first).jobs job.id = some job := by
      rw [hjobs, Function.update_of_ne (Ne.symm hsame), hj]
    have hbefore : job.state = .pending →
        (claimedWorld ctx s.world worker first).before job < s.world.before job := by
      intro hpending
      obtain ⟨rest, hrest⟩ := List.head?_eq_some_iff.mp hq
      have hqueue : (claimedWorld ctx s.world worker first).pendingQueue = rest := by
        show s.world.pendingQueue.tail = rest
        rw [hrest, List.tail_cons]
      rw [World.before, World.before, if_pos hpending, if_pos hpending, hqueue, hrest,
        List.idxOf_cons_ne rest hsame]
      exact Nat.lt_succ_self _
    refine ⟨.same hj hkept ?_, fun hpending => ?_⟩
    · by_cases hpending : job.state = .pending
      · exact Nat.le_of_lt (hbefore hpending)
      · rw [World.before, if_neg hpending]
        exact Nat.zero_le _
    · rw [left_of_stored hj, left_of_stored hkept, Prod.Lex.toLex_lt_toLex]
      exact .inr ⟨rfl, hbefore hpending⟩

/-- A job that is given up, by its worker or by recovery. -/
theorem Balanced.givenUp_advances (h : Balanced ctx s) (saved : TranscodeJob) {w' : World}
    {before : TranscodeJob} {ids : List Uuid} (hb : s.world.jobs before.id = some before)
    (hid : saved.id = before.id)
    (hless : saved.movesLeft ctx.maxRetries < before.movesLeft ctx.maxRetries)
    (hjobs : w'.jobs = Function.update s.world.jobs saved.id (some saved))
    (hqueue : w'.pendingQueue = s.world.pendingQueue ++ ids)
    (hj : s.world.jobs job.id = some job) : Advances ctx s.world w' job := by
  refine .saved saved hj (h.waits hj) hjobs hqueue fun hsame => ?_
  have hbefore : before = job := Option.some.inj (hb.symm.trans ((hid.symm.trans hsame) ▸ hj))
  exact hbefore ▸ hless

theorem recovered_advances (h : Balanced ctx s) {w' : World} (hr : Recovered ctx s.world w')
    (hj : s.world.jobs job.id = some job) : Advances ctx s.world w' job := by
  induction hr with
  | refl => exact .kept hj rfl rfl
  | @tail w₁ w₂ hr₁ hone ih =>
    have hmid : Balanced ctx { s with world := w₁ } := h.recover hr₁
    refine ih.trans hmid.coherent.tidy fun after _ hafter => ?_
    cases hone with
    | @failed stale hstored hheld hb ha =>
      exact hmid.givenUp_advances (stale.failed "worker heartbeat expired" w₁.clock) hstored
        rfl (movesLeft_pos_of_held hheld) rfl (List.append_nil _).symm hafter
    | @requeued stale hstored hheld hb ha =>
      exact hmid.givenUp_advances (stale.requeued "worker heartbeat expired; requeued")
        hstored rfl (movesLeft_requeued hheld ha _) rfl rfl hafter

/-- No move makes more what is left of a stored job. -/
theorem step_advances (h : Balanced ctx s) (hj : s.world.jobs job.id = some job) :
    Advances ctx s.world (step ctx s m).world job := by
  have ho := step_cases ctx h.coherent.tidy m
  generalize step ctx s m = s' at ho
  cases ho with
  | same => exact .kept hj rfl rfl
  | @enqueued probed chosen id₀ id hp hid =>
    refine .saved (newJob ctx probed chosen id s.world.clock) hj (h.waits hj) rfl rfl
      fun hsame => ?_
    have hissued : job.id ∈ s.world.issued := h.coherent.issued hj
    rw [← hsame] at hissued
    exact absurd hissued hid
  | unclaimed hi hn =>
    refine .kept hj rfl ?_
    show s.world.pendingQueue.tail = s.world.pendingQueue
    rw [h.empty_of_unclaimed hn]
    rfl
  | claimed hi hq hstored hp => exact (h.claim_advances hq hstored hp hj).1
  | @started worker copy hc hw hs =>
    have hstored := (h.held (show (s.phase worker).copy = some copy by rw [hc]; rfl)).1
    exact h.givenUp_advances (copy.started s.world.clock) hstored rfl
      (movesLeft_started hs _) rfl (List.append_nil _).symm hj
  | @finished worker copy processing result summary ht hs hid =>
    have hstored := (h.held (show (s.phase worker).copy = some processing by rw [ht]; rfl)).1
    exact h.givenUp_advances (processing.completed s.world.clock) hstored rfl
      (movesLeft_pos_of_held (.inr hs)) rfl (List.append_nil _).symm hj
  | @failed _ worker copy message hc hw hs ha =>
    obtain ⟨hstored, hid⟩ := h.coherent.current hc
    rw [← hid] at hstored
    exact h.givenUp_advances ((s.current copy).failed message s.world.clock) hstored rfl
      (movesLeft_pos_of_held hs) rfl (List.append_nil _).symm hj
  | @requeued _ worker copy message hc hw hs ha =>
    obtain ⟨hstored, hid⟩ := h.coherent.current hc
    rw [← hid] at hstored
    exact h.givenUp_advances ((s.current copy).requeued message) hstored rfl
      (movesLeft_requeued hs ha _) rfl rfl hj
  | stopped => exact .kept hj rfl rfl
  | recovered hr => exact recovered_advances h hr hj
  | expired => exact .kept hj rfl rfl
  | ticked => exact .kept hj rfl rfl

/-! Who has a job in hands. -/

/-- A running worker has the job in hands, as it is stored. -/
def Holds (s : Fleet) (job : TranscodeJob) : Prop := ∃ worker, (s.phase worker).copy = some job

theorem Balanced.holder (h : Balanced ctx s) (hj : s.world.jobs job.id = some job) {worker : Uuid}
    {copy : TranscodeJob} (hc : (s.phase worker).copy = some copy) (hid : copy.id = job.id) :
    copy = job ∧ job.workerId = some worker := by
  have hstored := (h.held hc).1
  rw [hid, hj, Option.some.injEq] at hstored
  exact ⟨hstored.symm, hstored ▸ (sound_copy (h.coherent.sound worker) hc).1⟩

/-- A job is not held once its worker has let it go. -/
theorem Balanced.not_holds (h : Balanced ctx s) (hj : s.world.jobs job.id = some job)
    {worker : Uuid} (hw : job.workerId = some worker) (hnone : (s.phase worker).copy = none) :
    ¬ Holds s job := by
  rintro ⟨other, hc⟩
  have hown := (h.holder hj hc rfl).2
  rw [hw, Option.some.injEq] at hown
  rw [← hown, hnone] at hc
  cases hc

/-- What the worker of a claimed job, and that of a processing one, is at. -/
theorem Balanced.phase_claimed (h : Balanced ctx s) {worker : Uuid}
    (hc : (s.phase worker).copy = some job) (hs : job.state = .claimed) :
    s.phase worker = .claimed job := by
  have hsound := h.coherent.sound worker
  cases hp : s.phase worker with
  | claimed copy =>
    rw [hp] at hc
    cases hc
    rfl
  | transcoding copy processing =>
    rw [hp] at hc hsound
    cases hc
    cases hs.symm.trans hsound.2.1
  | _ =>
    rw [hp] at hc
    cases hc

theorem Balanced.phase_transcoding (h : Balanced ctx s) {worker : Uuid}
    (hc : (s.phase worker).copy = some job) (hs : job.state = .processing) :
    ∃ claimed, s.phase worker = .transcoding claimed job := by
  have hsound := h.coherent.sound worker
  cases hp : s.phase worker with
  | claimed copy =>
    rw [hp] at hc hsound
    cases hc
    cases hs.symm.trans hsound.2
  | transcoding copy processing =>
    rw [hp] at hc
    cases hc
    exact ⟨copy, rfl⟩
  | _ =>
    rw [hp] at hc
    cases hc

theorem not_holds_setPhase (hn : ¬ Holds s job) (world : World) (starts : Uuid → Nat)
    {worker : Uuid} {phase : Phase} (hphase : phase.copy ≠ some job) :
    ¬ Holds ({ s with world, starts }.setPhase worker phase) job := by
  rintro ⟨other, hc⟩
  rw [setPhase_phase] at hc
  split at hc
  · exact hphase hc
  · exact hn ⟨other, hc⟩

theorem recovered_heartbeats {w w' : World} (hr : Recovered ctx w w') :
    w'.heartbeats = w.heartbeats := by
  induction hr with
  | refl => rfl
  | tail _ hone ih => cases hone <;> exact ih

/-- A job in nobody's hands stays there, and its heartbeat is not set again. -/
theorem abandoned_step (h : Balanced ctx s) (hj : s.world.jobs job.id = some job)
    (hheld : job.state.Held) (hn : ¬ Holds s job) : ¬ Holds (step ctx s m) job ∧
      (s.world.heartbeats job.id = none → (step ctx s m).world.heartbeats job.id = none) := by
  have ho := step_cases ctx h.coherent.tidy m
  generalize step ctx s m = s' at ho
  cases ho with
  | same => exact ⟨hn, id⟩
  | enqueued => exact ⟨hn, id⟩
  | unclaimed => exact ⟨hn, id⟩
  | @claimed worker id first hi hq hf hp =>
    have hid : first.id = id := h.coherent.tidy.ids hf
    have hne : first.id ≠ job.id := by
      intro hsame
      rw [← hid, hsame, hj, Option.some.injEq] at hf
      rw [hf, hp] at hheld
      rcases hheld with hh | hh <;> cases hh
    refine ⟨not_holds_setPhase hn _ _ fun hc => ?_, fun hb => ?_⟩
    · have hcopy : first.claimedBy worker s.world.clock = job := Option.some.inj hc
      have hsame : (first.claimedBy worker s.world.clock).id = job.id := by rw [hcopy]
      exact hne hsame
    · exact (Function.update_of_ne (Ne.symm hne) ..).trans hb
  | @started worker copy hc hw hs =>
    have hcopy : (s.phase worker).copy = some copy := by rw [hc]; rfl
    have hne : copy.id ≠ job.id := fun hsame =>
      hn ⟨worker, (h.holder hj hcopy hsame).1 ▸ hcopy⟩
    refine ⟨not_holds_setPhase hn _ _ fun hc => ?_, fun hb => ?_⟩
    · have hprocessing : copy.started s.world.clock = job := Option.some.inj hc
      have hsame : (copy.started s.world.clock).id = job.id := by rw [hprocessing]
      exact hne hsame
    · exact (Function.update_of_ne (Ne.symm hne) ..).trans hb
  | finished => exact ⟨not_holds_setPhase hn _ _ nofun, id⟩
  | failed => exact ⟨not_holds_setPhase hn _ _ nofun, id⟩
  | requeued => exact ⟨not_holds_setPhase hn _ _ nofun, id⟩
  | stopped => exact ⟨not_holds_setPhase hn s.world s.starts nofun, id⟩
  | recovered hr => exact ⟨hn, fun hb => by rw [← hb]; exact congrFun (recovered_heartbeats hr) _⟩
  | expired id =>
    refine ⟨hn, fun hb => ?_⟩
    show Function.update s.world.heartbeats id none job.id = none
    rw [Function.update_apply, hb, ite_self]
  | ticked => exact ⟨hn, id⟩

/-! What each party does when it takes its turn. -/

theorem claimJob_settled {worker : Uuid} : redis.Settled (claimJob ctx worker) := by
  refine .bind (.call fun _ _ => rfl) fun id => ?_
  cases id with
  | none => exact .pure _
  | some id =>
    refine .bind (.call fun _ _ => rfl) fun stored => ?_
    cases stored with
    | none => exact .pure _
    | some job =>
      dsimp only
      split
      · exact .pure _
      · refine .bind (.ofExcept _) fun _ => .bind (.call fun _ _ => rfl) fun _ =>
          .bind saveJob_settled fun _ => .bind (.call fun _ _ => rfl) fun _ => .bind ?_ fun _ =>
            .pure _
        refine .bind (.call fun _ _ => rfl) fun info => ?_
        cases info with
        | none => exact .pure _
        | some info => exact .bind (.call fun _ _ => rfl) fun _ => .call fun _ _ => rfl

/-- A claim by an idle worker gets some waiting job on, and every other one nearer to its turn. -/
theorem claim_left (h : Balanced ctx s) {worker : Uuid} (hi : s.phase worker = .idle)
    (hj : s.world.jobs job.id = some job) (hp : job.state = .pending) :
    (step ctx s (.claim worker)).world.left ctx job.id < s.world.left ctx job.id := by
  have hsettled : redis.Settled (claimJob ctx worker) := claimJob_settled
  obtain ⟨r, w', hrun⟩ := hsettled.run [] s.world
  have hclaim := Machine.run_obeys hrun (claimJob_alone worker)
  have hne : s.world.pendingQueue ≠ [] := List.ne_nil_of_mem (h.waits hj hp)
  obtain ⟨id, rest, hq⟩ := List.exists_cons_of_ne_nil hne
  have hhead : s.world.pendingQueue.head? = some id := by rw [hq]; rfl
  obtain ⟨first, hf, hfp⟩ := h.head_pending hhead
  cases hclaim with
  | nothing hnothing => exact absurd hfp (hnothing id first hhead hf)
  | @claimed id' first' hq' hf' hp' =>
    simp only [step, stepBy, pieces, hi, hrun]
    exact (h.claim_advances hq' hf' hp' hj).2 hp

/-- With no job in the queue a claim changes nothing. -/
theorem claim_nothing {worker : Uuid} (hi : s.phase worker = .idle)
    (hq : s.world.pendingQueue = []) : step ctx s (.claim worker) = s := by
  have hsettled : redis.Settled (claimJob ctx worker) := claimJob_settled
  obtain ⟨r, w', hrun⟩ := hsettled.run [] s.world
  have hclaim := Machine.run_obeys hrun (claimJob_alone worker)
  cases hclaim with
  | nothing =>
    have hpopped : s.world.popped = s.world := by rw [World.popped, hq, List.tail_nil, ← hq]
    simp only [step, stepBy, pieces, hi, hrun, hpopped]
  | claimed hhead =>
    rw [hq] at hhead
    cases hhead

theorem start_left (h : Balanced ctx s) {worker : Uuid} (hc : s.phase worker = .claimed job)
    (hj : s.world.jobs job.id = some job) :
    (step ctx s (.start worker)).world.left ctx job.id < s.world.left ctx job.id := by
  have hsound := h.coherent.sound worker
  rw [hc] at hsound
  rw [step_start hc hsound.1 hsound.2]
  exact left_lt hj (Function.update_self ..) (movesLeft_started hsound.2 s.world.clock)

/-- Where `build_summary` copies the job's id, what follows the transcoder runs to its end. -/
theorem endJob_runs {w : World} {worker : Uuid} {claimed processing : TranscodeJob}
    (outcome : Except Exn TranscodeResult) {built : Except Exn JobSummary}
    (hbuilt : ∀ summary, built = .ok summary → summary.jobId = processing.id) :
    ∃ r w', redis.run (endJob ctx worker claimed processing outcome) [.summarised built] w =
      some (r, w') := by
  cases outcome with
  | error e =>
    exact (Machine.Settled.bind (Machine.Settled.ofExcept (Except.error e)).attempt
      fun r => handled_settled r).run _ _
  | ok result =>
    by_cases hs : processing.state = .processing
    · have ha : redis.answer w (.buildSummary processing result) (.summarised built) =
          some built := by
        cases built with
        | error e => rfl
        | ok summary => exact if_pos (hbuilt summary rfl)
      have hsettled : redis.Settled (guarded ctx worker claimed
          (recordSummary ctx processing built)) :=
        .bind (recordSummary_settled built).attempt fun r => handled_settled r
      rw [endJob_eq hs, Machine.run,
        show [Choice.summarised built].head! = .summarised built from rfl, ha]
      exact hsettled.run _ _
    · obtain ⟨message, hm⟩ := writeSummary_refused ctx hs result
      have hsettled : redis.Settled (endJob ctx worker claimed processing (.ok result)) := by
        rw [show endJob ctx worker claimed processing (.ok result) =
          guarded ctx worker claimed (writeSummary ctx processing result) from rfl, hm]
        exact .bind (Machine.Settled.raise _).attempt fun r => handled_settled r
      exact hsettled.run _ _

/-- The end of a transcode leaves nothing in the worker's hands. -/
theorem finish_lets_go {worker : Uuid} {claimed processing : TranscodeJob}
    {outcome : Except Exn TranscodeResult} {built : Except Exn JobSummary}
    (ht : s.phase worker = .transcoding claimed processing)
    (hbuilt : ∀ summary, built = .ok summary → summary.jobId = processing.id) :
    ((step ctx s (.finish worker outcome built)).phase worker).copy = none := by
  have hruns : ∃ r w', redis.run (endJob ctx worker claimed processing outcome)
      [.summarised built] s.world = some (r, w') := endJob_runs outcome hbuilt
  obtain ⟨r, w', hrun⟩ := hruns
  simp only [step, stepBy, pieces, ht, hrun]
  cases r <;> simp [setPhase, Phase.copy]

/-- A pass of recovery that finds at most a hundred jobs in each state in workers' hands. -/
def Sweeps (ctx : Context) (s : Fleet) : Move → Prop
  | .recover tape => (redis.run (recoverStaleJobs ctx) tape s.world).isSome ∧
    ∀ state : JobState, state.Held → (s.world.stateIndex state).card ≤ 100
  | _ => False

theorem sweep_left (h : Balanced ctx s) (hj : s.world.jobs job.id = some job)
    (hheld : job.state.Held) (hb : s.world.heartbeats job.id = none) (hm : Sweeps ctx s m) :
    (step ctx s m).world.left ctx job.id < s.world.left ctx job.id := by
  cases m with
  | recover tape =>
    obtain ⟨hruns, hfew⟩ := hm
    obtain ⟨⟨r, w'⟩, hrun⟩ := Option.isSome_iff_exists.mp hruns
    have hahead : ∀ job, s.world.Stale job → (s.world.ahead job).card < 100 := by
      intro job hstale
      have hin : job.id ∈ s.world.stateIndex job.state :=
        (h.coherent.tidy.index _ _).mpr ⟨job, hstale.stored, rfl⟩
      have hsub : s.world.ahead job ⊆ (s.world.stateIndex job.state).erase job.id := by
        intro id hid
        obtain ⟨hmem, hne, -⟩ := Finset.mem_filter.mp hid
        exact Finset.mem_erase.mpr ⟨hne, hmem⟩
      have hcard := Finset.card_le_card hsub
      have hpos := Finset.card_pos.mpr ⟨job.id, hin⟩
      have hmany := hfew job.state hstale.held
      rw [Finset.card_erase_of_mem hin] at hcard
      omega
    have hexact := exact_of_few_ahead h.coherent.tidy hahead tape r w' hrun
    simp only [step, stepBy, pieces, hrun]
    exact left_lt hj (hexact.stored job ⟨hj, hheld, hb⟩) (movesLeft_recovered hheld s.world.clock)
  | _ => exact hm.elim

/-- With no job in a worker's hands a pass changes nothing. -/
theorem run_recoverStaleJobs_none {w : World}
    (h : ∀ state : JobState, state.Held → w.stateIndex state = ∅) :
    redis.run (recoverStaleJobs ctx) [.order [], .order []] w = some (.ok [], w) := by
  have hanswer : ∀ state : JobState, state.Held →
      redis.answer w (.smembersState state) (.order []) = some [] := fun state hs =>
    if_pos ⟨List.nodup_nil, by rw [h state hs, List.toFinset_nil]⟩
  have hclaimed := hanswer .claimed (.inl rfl)
  have hprocessing := hanswer .processing (.inr rfl)
  show redis.run (.ask (.smembersState .claimed) _) _ w = _
  rw [Machine.run, show [Choice.order [], .order []].head! = .order [] from rfl, hclaimed]
  show redis.run (.ask (.smembersState .processing) _) _ w = _
  rw [Machine.run, show [Choice.order [], .order []].tail.head! = .order [] from rfl, hprocessing]
  rfl

theorem sweep_nothing (h : ∀ state : JobState, state.Held → s.world.stateIndex state = ∅) :
    step ctx s (.recover [.order [], .order []]) = s := by
  simp only [step, stepBy, pieces, run_recoverStaleJobs_none h]

/-! Endless runs. -/

/-- The fleet before turn `n`. -/
abbrev fleetAt (ctx : Context) (moves : Nat → Move) (n : Nat) : Fleet :=
  stateAt (step ctx) initial moves n

/-- Whoever has begun goes on: a worker that claimed a job starts it and a transcode ends, unless
    their worker crashes; the heartbeat of a job in nobody's hands lapses; recovery passes over
    all jobs in workers' hands. -/
structure Diligent (ctx : Context) (moves : Nat → Move) : Prop where
  attended : ∀ n, (fleetAt ctx moves n).Attended (moves n)
  starts : ∀ n worker job, (fleetAt ctx moves n).phase worker = .claimed job →
    ∃ m, n ≤ m ∧ (moves m = .start worker ∨ moves m = .crash worker)
  ends : ∀ n worker job processing,
    (fleetAt ctx moves n).phase worker = .transcoding job processing →
      ∃ m, n ≤ m ∧ (moves m = .crash worker ∨ ∃ outcome built,
        moves m = .finish worker outcome built ∧
          ∀ summary, built = .ok summary → summary.jobId = processing.id)
  lapses : ∀ n id, (fleetAt ctx moves n).world.heartbeats id ≠ none →
    ∃ m, n ≤ m ∧ (moves m = .expire id ∨
      ∃ worker copy, ((fleetAt ctx moves m).phase worker).copy = some copy ∧ copy.id = id)
  sweeps : ∀ n, ∃ m, n ≤ m ∧ Sweeps ctx (fleetAt ctx moves m) (moves m)

/-- And again and again an idle worker asks for a job, if one waits. -/
structure Fair (ctx : Context) (moves : Nat → Move) : Prop extends Diligent ctx moves where
  claims : ∀ n, ∃ m, n ≤ m ∧ ((fleetAt ctx moves m).world.pendingQueue = [] ∨ ∃ worker,
    moves m = .claim worker ∧ (fleetAt ctx moves m).phase worker = .idle)

/-- The job is over, and filed as what it has come to. -/
structure Over (s : Fleet) (job : TranscodeJob) : Prop where
  stored : s.world.jobs job.id = some job
  filed : job.state = .completed ∧ (s.world.summaries job.id).isSome ∨
    job.state = .failed ∧ job.id ∈ s.world.deadLetterQueue

/-- Since turn `n` the job's record is the same and the job is no further back. -/
def Stays (ctx : Context) (moves : Nat → Move) (n : Nat) (job : TranscodeJob) (m : Nat) : Prop :=
  (fleetAt ctx moves m).world.jobs job.id = some job ∧
    (fleetAt ctx moves m).world.left ctx job.id ≤ (fleetAt ctx moves n).world.left ctx job.id

/-- Since turn `n` the job has got on. -/
def GotOn (ctx : Context) (moves : Nat → Move) (n : Nat) (job : TranscodeJob) (m : Nat) : Prop :=
  (fleetAt ctx moves m).world.left ctx job.id < (fleetAt ctx moves n).world.left ctx job.id

/-- Nobody has the job in hands, with and without a heartbeat that is left. -/
def Deserted (ctx : Context) (moves : Nat → Move) (job : TranscodeJob) (m : Nat) : Prop :=
  ¬ Holds (fleetAt ctx moves m) job

def Silent (ctx : Context) (moves : Nat → Move) (job : TranscodeJob) (m : Nat) : Prop :=
  Deserted ctx moves job m ∧ (fleetAt ctx moves m).world.heartbeats job.id = none

theorem Diligent.balanced {moves : Nat → Move} (hd : Diligent ctx moves) (n : Nat) :
    Balanced ctx (fleetAt ctx moves n) :=
  stateAt_invariant (Balanced ctx) (fun _ _ hb hm => balanced_step hb hm) (balanced_initial ctx)
    hd.attended n

section
variable {moves : Nat → Move} {n : Nat} (hf : Fair ctx moves)
include hf

theorem Fair.stays_step {m : Nat} (h : Stays ctx moves n job m) :
    Stays ctx moves n job (m + 1) ∨ GotOn ctx moves n job (m + 1) := by
  obtain ⟨hj, hle⟩ := h
  rcases step_advances (m := moves m) (hf.balanced m) hj with ⟨hj', hle'⟩ | ⟨_, _, hlt⟩
  · exact .inl ⟨hj', hle'.trans hle⟩
  · exact .inr (hlt.trans_le hle)

/-- The turn a worker that holds the job takes: the job gets on or is let go. -/
theorem Fair.holder_turn {worker : Uuid}
    (hc : ((fleetAt ctx moves n).phase worker).copy = some job) :
    ∃ m, n ≤ m ∧ ((fleetAt ctx moves m).world.jobs job.id = some job →
      ((fleetAt ctx moves m).phase worker).copy = some job →
        GotOn ctx moves m job (m + 1) ∨
          ((fleetAt ctx moves (m + 1)).phase worker).copy = none) := by
  have hcrash : ∀ m, moves m = .crash worker →
      ((fleetAt ctx moves (m + 1)).phase worker).copy = none := by
    intro m hmove
    show ((step ctx (fleetAt ctx moves m) (moves m)).phase worker).copy = none
    rw [hmove, step_crash, setPhase_phase, if_pos rfl]
    rfl
  rcases (sound_copy ((hf.balanced n).coherent.sound worker) hc).2 with hs | hs
  · obtain ⟨m, hm, hmove⟩ := hf.starts n worker job ((hf.balanced n).phase_claimed hc hs)
    refine ⟨m, hm, fun hjm hcm => ?_⟩
    rcases hmove with hmove | hmove
    · left
      have hless := start_left (hf.balanced m) ((hf.balanced m).phase_claimed hcm hs) hjm
      rw [← hmove] at hless
      exact hless
    · exact .inr (hcrash m hmove)
  · obtain ⟨claimed, ht⟩ := (hf.balanced n).phase_transcoding hc hs
    obtain ⟨m, hm, hmove⟩ := hf.ends n worker claimed job ht
    refine ⟨m, hm, fun hjm hcm => ?_⟩
    rcases hmove with hmove | ⟨outcome, built, hmove, hbuilt⟩
    · exact .inr (hcrash m hmove)
    · right
      obtain ⟨claimed', ht'⟩ := (hf.balanced m).phase_transcoding hcm hs
      show ((step ctx (fleetAt ctx moves m) (moves m)).phase worker).copy = none
      rw [hmove]
      exact finish_lets_go ht' hbuilt

/-- A job in nobody's hands stays there or gets on, and its heartbeat is not set again. -/
theorem Fair.deserted_step (hheld : job.state.Held) {m : Nat} (hs : Stays ctx moves n job m)
    (hd : Deserted ctx moves job m) :
    (Stays ctx moves n job (m + 1) ∧ Deserted ctx moves job (m + 1) ∧
      (Silent ctx moves job m → Silent ctx moves job (m + 1))) ∨ GotOn ctx moves n job (m + 1) := by
  obtain ⟨hd', hsilent⟩ := abandoned_step (m := moves m) (hf.balanced m) hs.1 hheld hd
  rcases hf.stays_step hs with hs' | hgot
  · exact .inl ⟨hs', hd', fun hb => ⟨hd', hsilent hb.2⟩⟩
  · exact .inr hgot

variable (hj : (fleetAt ctx moves n).world.jobs job.id = some job)
include hj

theorem Fair.waiting_advances (hp : job.state = .pending) :
    ∃ m, n ≤ m ∧ GotOn ctx moves n job m := by
  refine helped (p := Stays ctx moves n job) ⟨hj, le_refl _⟩ (fun m _ h => hf.stays_step h) ?_
  obtain ⟨m, hm, hempty | ⟨worker, hmove, hidle⟩⟩ := hf.claims n
  · refine ⟨m, hm, fun hs => ?_⟩
    have hwaits := (hf.balanced m).waits hs.1 hp
    rw [hempty] at hwaits
    cases hwaits
  · refine ⟨m, hm, fun hs => ?_⟩
    have hless := claim_left (hf.balanced m) hidle hs.1 hp
    rw [← hmove] at hless
    exact hless.trans_le hs.2

theorem Fair.busy_advances (hh : Holds (fleetAt ctx moves n) job) : ∃ m, n ≤ m ∧
    (GotOn ctx moves n job m ∨ Stays ctx moves n job m ∧ Deserted ctx moves job m) := by
  obtain ⟨worker, hc⟩ := hh
  have hown := ((hf.balanced n).holder hj hc rfl).2
  refine helped (p := fun m => Stays ctx moves n job m ∧ Holds (fleetAt ctx moves m) job)
    ⟨⟨hj, le_refl _⟩, worker, hc⟩ ?_ ?_
  · rintro m - ⟨hs, -⟩
    rcases hf.stays_step hs with hs' | hgot
    · by_cases hh' : Holds (fleetAt ctx moves (m + 1)) job
      · exact .inl ⟨hs', hh'⟩
      · exact .inr (.inr ⟨hs', hh'⟩)
    · exact .inr (.inl hgot)
  · obtain ⟨m, hm, hturn⟩ := hf.holder_turn hc
    refine ⟨m, hm, ?_⟩
    rintro ⟨hs, other, hother⟩
    have hsame : other = worker := by
      have hown' := ((hf.balanced m).holder hs.1 hother rfl).2
      exact Option.some.inj (hown'.symm.trans hown)
    rcases hturn hs.1 (hsame ▸ hother) with hgot | hnone
    · exact .inl (hgot.trans_le hs.2)
    · rcases hf.stays_step hs with hs' | hgot
      · exact .inr ⟨hs', (hf.balanced (m + 1)).not_holds hs'.1 hown hnone⟩
      · exact .inl hgot

/-- The heartbeat of a job in nobody's hands lapses. -/
theorem Fair.deserted_falls_silent (hheld : job.state.Held) (hd : Deserted ctx moves job n) :
    ∃ m, n ≤ m ∧ (GotOn ctx moves n job m ∨ Stays ctx moves n job m ∧ Silent ctx moves job m) := by
  by_cases hb : (fleetAt ctx moves n).world.heartbeats job.id = none
  · exact ⟨n, le_refl n, .inr ⟨⟨hj, le_refl _⟩, hd, hb⟩⟩
  · refine helped (p := fun m => Stays ctx moves n job m ∧ Deserted ctx moves job m)
      ⟨⟨hj, le_refl _⟩, hd⟩ ?_ ?_
    · rintro m - ⟨hs, hd'⟩
      rcases hf.deserted_step hheld hs hd' with ⟨hs', hd', -⟩ | hgot
      · exact .inl ⟨hs', hd'⟩
      · exact .inr (.inl hgot)
    · obtain ⟨m, hm, hlapse⟩ := hf.lapses n job.id hb
      refine ⟨m, hm, ?_⟩
      rintro ⟨hs, hd'⟩
      rcases hlapse with hmove | ⟨worker, copy, hc, hid⟩
      · rcases hf.deserted_step hheld hs hd' with ⟨hs', hd'', -⟩ | hgot
        · refine .inr ⟨hs', hd'', ?_⟩
          show (step ctx (fleetAt ctx moves m) (moves m)).world.heartbeats job.id = none
          rw [hmove]
          exact Function.update_self ..
        · exact .inl hgot
      · exact absurd ⟨worker, ((hf.balanced m).holder hs.1 hc hid).1 ▸ hc⟩ hd'

theorem Fair.silent_advances (hheld : job.state.Held) (hb : Silent ctx moves job n) :
    ∃ m, n ≤ m ∧ GotOn ctx moves n job m := by
  refine helped (p := fun m => Stays ctx moves n job m ∧ Silent ctx moves job m)
    ⟨⟨hj, le_refl _⟩, hb⟩ ?_ ?_
  · rintro m - ⟨hs, hsilent⟩
    rcases hf.deserted_step hheld hs hsilent.1 with ⟨hs', -, hkeep⟩ | hgot
    · exact .inl ⟨hs', hkeep hsilent⟩
    · exact .inr hgot
  · obtain ⟨m, hm, hsweep⟩ := hf.sweeps n
    refine ⟨m, hm, fun ⟨hs, hsilent⟩ => ?_⟩
    exact (sweep_left (hf.balanced m) hs.1 hheld hsilent.2 hsweep).trans_le hs.2

theorem Fair.deserted_advances (hheld : job.state.Held) (hd : Deserted ctx moves job n) :
    ∃ m, n ≤ m ∧ GotOn ctx moves n job m := by
  obtain ⟨m, hm, hgot | ⟨hs, hsilent⟩⟩ := hf.deserted_falls_silent hj hheld hd
  · exact ⟨m, hm, hgot⟩
  · obtain ⟨k, hk, hgot⟩ := hf.silent_advances hs.1 hheld hsilent
    exact ⟨k, hm.trans hk, hgot.trans_le hs.2⟩

/-- A job that is not at its end gets on. -/
theorem Fair.gets_on (hopen : ¬ job.state.Terminal) : ∃ m, n ≤ m ∧ GotOn ctx moves n job m := by
  by_cases hp : job.state = .pending
  · exact hf.waiting_advances hj hp
  · have hheld : job.state.Held := by
      cases hs : job.state with
      | pending => exact absurd hs hp
      | claimed => exact .inl rfl
      | processing => exact .inr rfl
      | completed => exact absurd (.inl hs) hopen
      | failed => exact absurd (.inr hs) hopen
    by_cases hh : Holds (fleetAt ctx moves n) job
    · obtain ⟨m, hm, hgot | ⟨hs, hd⟩⟩ := hf.busy_advances hj hh
      · exact ⟨m, hm, hgot⟩
      · obtain ⟨k, hk, hgot⟩ := hf.deserted_advances hs.1 hheld hd
        exact ⟨k, hm.trans hk, hgot.trans_le hs.2⟩
    · exact hf.deserted_advances hj hheld hh

/-- A stored job stays stored. -/
theorem Fair.stored {m : Nat} (hm : n ≤ m) :
    ∃ after, (fleetAt ctx moves m).world.jobs job.id = some after := by
  refine lasts (p := fun m => ∃ after, (fleetAt ctx moves m).world.jobs job.id = some after)
    ⟨job, hj⟩ ?_ m hm
  rintro m - ⟨after, hafter⟩
  have hid : after.id = job.id := (hf.balanced m).coherent.tidy.ids hafter
  rw [← hid] at hafter ⊢
  rcases step_advances (m := moves m) (hf.balanced m) hafter with ⟨hkept, -⟩ | ⟨later, hlater, -⟩
  · exact ⟨after, hkept⟩
  · exact ⟨later, hlater⟩

/-- A record at its end is not touched any more. -/
theorem Fair.stays_over (hover : job.state.Terminal) {m : Nat} (hm : n ≤ m) :
    Over (fleetAt ctx moves m) job := by
  have hstored : (fleetAt ctx moves m).world.jobs job.id = some job := by
    refine lasts (p := fun m => (fleetAt ctx moves m).world.jobs job.id = some job) hj ?_ m hm
    intro m _ hjm
    rcases step_advances (m := moves m) (hf.balanced m) hjm with ⟨hkept, -⟩ | ⟨after, -, hlt⟩
    · exact hkept
    · have hnone : (fleetAt ctx moves m).world.left ctx job.id = toLex (0, 0) := by
        rw [left_of_stored hjm]
        rcases hover with hs | hs <;> simp [TranscodeJob.movesLeft, World.before, hs]
      rw [hnone] at hlt
      exact absurd hlt (not_lt_zero _)
  refine ⟨hstored, ?_⟩
  have hb := hf.balanced m
  rcases hover with hs | hs
  · exact .inl ⟨hs, (hb.summaries job.id).mpr (World.state?_eq_some.mpr ⟨job, hstored, hs⟩)⟩
  · exact .inr ⟨hs, hb.dead.mem_iff.mpr (World.state?_eq_some.mpr ⟨job, hstored, hs⟩)⟩

/-- Under a fair scheduler every job that is enqueued comes to its end, whatever the other jobs,
    crashes, failures and enqueues without end: it is completed and has a summary, or has failed
    and is in the dead-letter queue, and so it stays. -/
theorem every_job_ends : ∃ m, n ≤ m ∧ ∃ ended, ended.id = job.id ∧
    ∀ k, m ≤ k → Over (fleetAt ctx moves k) ended := by
  have hends : ∃ m, n ≤ m ∧ ∃ ended,
      (fleetAt ctx moves m).world.jobs job.id = some ended ∧ ended.state.Terminal := by
    refine exhausts (fun m => (fleetAt ctx moves m).world.left ctx job.id) fun m hm hopen => ?_
    obtain ⟨after, hafter⟩ := hf.stored hj hm
    have hid : after.id = job.id := (hf.balanced m).coherent.tidy.ids hafter
    obtain ⟨k, hk, hgot⟩ := hf.gets_on (hid ▸ hafter) fun hover => hopen ⟨after, hafter, hover⟩
    rw [GotOn, hid] at hgot
    exact ⟨k, hk, hgot⟩
  obtain ⟨m, hm, ended, hended, hover⟩ := hends
  have hid : ended.id = job.id := (hf.balanced m).coherent.tidy.ids hended
  exact ⟨m, hm, ended, hid, fun k hk => hf.stays_over (hid ▸ hended) hover hk⟩

end
/-! One job, and turns without end after it. -/

/-- One job is enqueued and done; then worker 7 asks and recovery passes by turns. -/
def oneJobRun : Nat → Move
  | 0 => .enqueue (mp4File "/tmp/input/a.mp4") defaultMatch 1
  | 1 => .claim 7
  | 2 => .start 7
  | 3 => .finish 7 (.ok (quickResult "/tmp/output/a.mp4")) (.ok (summaryOf 1))
  | 4 => .expire 1
  | n + 5 => if n % 2 = 0 then .claim 7 else .recover [.order [], .order []]

/-- What it comes to. -/
def oneJobDone : Fleet := fleetAt smallContext oneJobRun 5

theorem oneJobDone_jobs {id : Uuid} {job : TranscodeJob}
    (hj : oneJobDone.world.jobs id = some job) : job.state = .completed := by
  have hjobs : ∃ a b c d : TranscodeJob, oneJobDone.world.jobs = Function.update (Function.update
      (Function.update (Function.update (fun _ => none) 1 (some a)) 1 (some b)) 1 (some c)) 1
        (some d) ∧ d.state = .completed := ⟨_, _, _, _, rfl, rfl⟩
  obtain ⟨a, b, c, d, hjobs, hd⟩ := hjobs
  rw [hjobs, Function.update_idem, Function.update_idem, Function.update_idem,
    Function.update_apply] at hj
  split at hj
  · cases hj
    exact hd
  · cases hj

theorem oneJobDone_phase (worker : Uuid) : oneJobDone.phase worker = .idle := by
  have hphase : ∃ a b, oneJobDone.phase = Function.update (Function.update (Function.update
    (fun _ => .idle) 7 a) 7 b) 7 .idle := ⟨_, _, rfl⟩
  obtain ⟨a, b, hphase⟩ := hphase
  rw [hphase, Function.update_idem, Function.update_idem, Function.update_apply, ite_self]

theorem oneJobRun_attended (n : Nat) :
    (fleetAt smallContext oneJobRun n).Attended (oneJobRun n) := by
  rcases n with _ | _ | _ | _ | _ | n
  case succ.succ.succ.succ.zero =>
    intro worker copy hc
    rw [show (fleetAt smallContext oneJobRun 4).phase worker = .idle from oneJobDone_phase worker]
      at hc
    cases hc
  case succ.succ.succ.succ.succ =>
    show (fleetAt smallContext oneJobRun (n + 5)).Attended (if n % 2 = 0 then _ else _)
    split <;> trivial
  all_goals trivial

theorem oneJobDone_index {state : JobState} (hs : state.Held) :
    oneJobDone.world.stateIndex state = ∅ := by
  have hb : Balanced smallContext oneJobDone :=
    stateAt_invariant (Balanced smallContext) (fun _ _ hb hm => balanced_step hb hm)
      (balanced_initial smallContext) oneJobRun_attended 5
  rw [Finset.eq_empty_iff_forall_notMem]
  intro id hid
  obtain ⟨job, hj, hstate⟩ := (hb.coherent.tidy.index state id).mp hid
  rw [← hstate, oneJobDone_jobs hj] at hs
  rcases hs with hs | hs <;> cases hs

/-- From turn 5 on nothing changes. -/
theorem oneJobRun_done (n : Nat) : fleetAt smallContext oneJobRun (n + 5) = oneJobDone := by
  refine stateAt_stays (n := 5) rfl (fun m hm => ?_) (n + 5) (Nat.le_add_left 5 n)
  obtain ⟨k, rfl⟩ := Nat.exists_eq_add_of_le' hm
  rw [oneJobRun]
  split
  · exact claim_nothing (oneJobDone_phase 7) rfl
  · exact sweep_nothing fun _ => oneJobDone_index

theorem oneJobRun_phase (n : Nat) (worker : Uuid) :
    (fleetAt smallContext oneJobRun n).phase worker = .idle ∨ worker = 7 ∧
      (n = 2 ∧ (∃ job, (fleetAt smallContext oneJobRun n).phase worker = .claimed job) ∨
        n = 3 ∧ ∃ job processing, processing.id = 1 ∧
          (fleetAt smallContext oneJobRun n).phase worker = .transcoding job processing) := by
  rcases n with _ | _ | _ | _ | _ | n
  · exact .inl rfl
  · exact .inl rfl
  · by_cases hw : worker = 7
    · subst hw
      exact .inr ⟨rfl, .inl ⟨rfl, _, rfl⟩⟩
    · exact .inl (Function.update_of_ne hw ..)
  · by_cases hw : worker = 7
    · subst hw
      exact .inr ⟨rfl, .inr ⟨rfl, _, _, rfl, rfl⟩⟩
    · left
      exact (Function.update_of_ne hw ..).trans (Function.update_of_ne hw ..)
  · exact .inl (oneJobDone_phase worker)
  · rw [oneJobRun_done]
    exact .inl (oneJobDone_phase worker)

/-- Only job 1 has a heartbeat, which lapses. -/
theorem oneJobRun_heartbeats {n : Nat} {id : Uuid}
    (h : (fleetAt smallContext oneJobRun n).world.heartbeats id ≠ none) : n ≤ 4 ∧ id = 1 := by
  have hbeats : ∀ worker worker' : Uuid, Function.update (Function.update (fun _ => none) 1
      (some worker)) 1 (some worker') id ≠ none → id = 1 := by
    intro worker worker' hne
    by_contra hid
    rw [Function.update_of_ne hid, Function.update_of_ne hid] at hne
    exact hne rfl
  rcases n with _ | _ | _ | _ | _ | n
  · exact absurd rfl h
  · exact absurd rfl h
  · refine ⟨by decide, hbeats 7 7 ?_⟩
    rw [Function.update_idem]
    exact h
  · exact ⟨by decide, hbeats 7 7 h⟩
  · exact ⟨by decide, hbeats 7 7 h⟩
  · rw [oneJobRun_done] at h
    have hlapsed : ∃ a b : Option Uuid, oneJobDone.world.heartbeats = Function.update
      (Function.update (Function.update (fun _ => none) 1 a) 1 b) 1 none := ⟨_, _, rfl⟩
    obtain ⟨a, b, hlapsed⟩ := hlapsed
    rw [hlapsed, Function.update_idem, Function.update_idem, Function.update_apply, ite_self] at h
    exact absurd rfl h

theorem sweeps_done :
    Sweeps smallContext oneJobDone (.recover [.order [], .order []]) := by
  refine ⟨?_, fun state hs => ?_⟩
  · rw [run_recoverStaleJobs_none fun _ => oneJobDone_index]
    rfl
  · rw [oneJobDone_index hs]
    exact Nat.zero_le 100

theorem oneJobRun_fair : Fair smallContext oneJobRun where
  attended := oneJobRun_attended
  claims n := by
    refine ⟨2 * n + 5, by omega, .inr ⟨7, if_pos (Nat.mul_mod_right 2 n), ?_⟩⟩
    rw [oneJobRun_done]
    exact oneJobDone_phase 7
  starts n worker job hc := by
    rcases oneJobRun_phase n worker with hi | ⟨rfl, ⟨rfl, -⟩ | ⟨rfl, _, _, -, ht⟩⟩
    · cases hi.symm.trans hc
    · exact ⟨2, le_refl 2, .inl rfl⟩
    · cases ht.symm.trans hc
  ends n worker job processing ht := by
    rcases oneJobRun_phase n worker with hi | ⟨rfl, ⟨rfl, _, hc⟩ | ⟨rfl, _, _, hid, ht'⟩⟩
    · cases hi.symm.trans ht
    · cases hc.symm.trans ht
    · cases ht'.symm.trans ht
      refine ⟨3, le_refl 3, .inr ⟨_, _, rfl, ?_⟩⟩
      rintro summary ⟨⟩
      exact hid.symm
  lapses n id h := by
    obtain ⟨hn, rfl⟩ := oneJobRun_heartbeats h
    exact ⟨4, hn, .inl rfl⟩
  sweeps n := by
    refine ⟨2 * n + 1 + 5, by omega, ?_⟩
    rw [oneJobRun_done, show oneJobRun (2 * n + 1 + 5) = .recover [.order [], .order []] from
      if_neg (by omega)]
    exact sweeps_done

/-- The job of the first turn. -/
def oneJob : TranscodeJob := newJob smallContext (mp4File "/tmp/input/a.mp4") defaultMatch 1 0

theorem every_job_ends_oneJob : ∃ m, 1 ≤ m ∧ ∃ ended, ended.id = oneJob.id ∧
    ∀ k, m ≤ k → Over (fleetAt smallContext oneJobRun k) ended := by
  have hj : (fleetAt smallContext oneJobRun 1).world.jobs oneJob.id = some oneJob := rfl
  exact every_job_ends oneJobRun_fair hj

end Fleet
end Vshift
