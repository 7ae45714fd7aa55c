import Vshift.Overwrite
import Vshift.Tally
import Vshift.Loading

/- What the queue, the dead-letter queue, the summaries and the attempt counters
   say about the records, as long as heartbeats expire only for workers that have
   crashed.

   The invariant, `Balanced`, adds that a running worker's copy is what is stored and
   that its heartbeat is there: recovery then takes up abandoned jobs only.

   The moves of `loadStep` validate every record they read, and may raise. As long as
   the enqueued records can be read back, they are moves of `step` on what the
   documents say (`dumped_loadStep`), and `accounts_balance` is the statement about
   their runs. A record that is refused is popped and lost (`refused_unqueued`). -/
namespace Vshift
open Command

/-- The state a job is stored in. -/
def World.state? (w : World) (id : Uuid) : Option JobState := (w.jobs id).map (·.state)

theorem World.state?_eq_some {w : World} {id : Uuid} {t : JobState} :
    w.state? id = some t ↔ ∃ job, w.jobs id = some job ∧ job.state = t :=
  Option.map_eq_some_iff

namespace Fleet

structure Accounted (ctx : Context) (s : Fleet) : Prop where
  pending : Tallies s.world.pendingQueue s.world.state? .pending
  dead : Tallies s.world.deadLetterQueue s.world.state? .failed
  summaries : ∀ id, (s.world.summaries id).isSome ↔ s.world.state? id = some .completed
  starts : ∀ {id job}, s.world.jobs id = some job →
    s.starts id ≤ job.attempt ∧ job.attempt ≤ ctx.maxRetries
  unstored : ∀ id, s.world.jobs id = none → s.starts id = 0

/-- A heartbeat expires only when no running worker has the job in hands. -/
def Attended (s : Fleet) : Move → Prop
  | .expire id => ∀ worker copy, (s.phase worker).copy = some copy → copy.id ≠ id
  | _ => True

/-- The invariant. -/
structure Balanced (ctx : Context) (s : Fleet) : Prop extends Accounted ctx s where
  coherent : Coherent s
  held : ∀ {worker copy}, (s.phase worker).copy = some copy →
    s.world.jobs copy.id = some copy ∧ s.world.heartbeats copy.id ≠ none
  unbegun : ∀ {id job}, s.world.jobs id = some job → job.state = .pending ∨ job.state = .claimed →
    s.starts id < job.attempt

variable {ctx : Context} {s : Fleet} {m : Move}

/-- The copy a move would save is a running worker's. -/
theorem saves_copy {copy : TranscodeJob} (h : s.saves m = some copy) :
    ∃ worker, (s.phase worker).copy = some copy := by
  cases m with
  | start worker =>
    refine ⟨worker, ?_⟩
    simp only [saves] at h
    split at h
    · next hc =>
      rw [hc]
      exact h
    · cases h
  | finish worker outcome built =>
    refine ⟨worker, ?_⟩
    cases outcome with
    | error e => cases h
    | ok result =>
      cases built with
      | error e => cases h
      | ok summary =>
        simp only [saves] at h
        split at h
        · next hc =>
          split at h
          · rw [hc]
            exact h
          · cases h
        · cases h
  | _ => cases h

theorem Balanced.current (h : Balanced ctx s) : s.Current m := by
  intro copy hc
  obtain ⟨worker, hw⟩ := saves_copy hc
  exact (h.held hw).1

/-- One record changes; what is to be shown of everything kept beside it. -/
theorem Balanced.save (h : Balanced ctx s) (job : TranscodeJob) {s' : Fleet} (hco : Coherent s')
    (hjobs : s'.world.jobs = Function.update s.world.jobs job.id (some job))
    (hpending : Tallies s'.world.pendingQueue
      (Function.update s.world.state? job.id (some job.state)) .pending)
    (hdead : Tallies s'.world.deadLetterQueue
      (Function.update s.world.state? job.id (some job.state)) .failed)
    (hsummary : (s'.world.summaries job.id).isSome ↔ job.state = .completed)
    (hsummaries : ∀ id, id ≠ job.id → s'.world.summaries id = s.world.summaries id)
    (hstart : s'.starts job.id ≤ job.attempt) (hmax : job.attempt ≤ ctx.maxRetries)
    (hunbegun : job.state = .pending ∨ job.state = .claimed → s'.starts job.id < job.attempt)
    (hstarts : ∀ id, id ≠ job.id → s'.starts id = s.starts id)
    (hheartbeats : ∀ id, id ≠ job.id → s'.world.heartbeats id = s.world.heartbeats id)
    (hheld : ∀ worker copy, (s'.phase worker).copy = some copy →
      (copy = job ∧ s'.world.heartbeats job.id ≠ none) ∨
      (copy.id ≠ job.id ∧ (s.phase worker).copy = some copy)) : Balanced ctx s' := by
  have hstate : s'.world.state? = Function.update s.world.state? job.id (some job.state) := by
    funext id
    rw [World.state?, hjobs]
    by_cases hid : id = job.id
    · rw [hid, Function.update_self, Function.update_self, Option.map_some]
    · rw [Function.update_of_ne hid, Function.update_of_ne hid, World.state?]
  have hold : ∀ {id job'}, s'.world.jobs id = some job' →
      (id = job.id ∧ job' = job) ∨ (id ≠ job.id ∧ s.world.jobs id = some job') := by
    intro id job' hj
    rw [hjobs] at hj
    by_cases hid : id = job.id
    · rw [hid, Function.update_self, Option.some.injEq] at hj
      exact .inl ⟨hid, hj.symm⟩
    · rw [Function.update_of_ne hid] at hj
      exact .inr ⟨hid, hj⟩
  refine ⟨⟨?_, ?_, ?_, ?_, ?_⟩, hco, ?_, ?_⟩
  · rw [hstate]
    exact hpending
  · rw [hstate]
    exact hdead
  · intro id
    rw [hstate]
    by_cases hid : id = job.id
    · rw [hid, Function.update_self, Option.some.injEq]
      exact hsummary
    · rw [Function.update_of_ne hid, hsummaries id hid]
      exact h.summaries id
  · intro id job' hj
    rcases hold hj with ⟨rfl, rfl⟩ | ⟨hid, hj⟩
    · exact ⟨hstart, hmax⟩
    · rw [hstarts id hid]
      exact h.starts hj
  · intro id hj
    rw [hjobs] at hj
    have hid : id ≠ job.id := by
      intro he
      subst he
      rw [Function.update_self] at hj
      cases hj
    rw [Function.update_of_ne hid] at hj
    rw [hstarts id hid]
    exact h.unstored id hj
  · intro worker copy hc
    rcases hheld worker copy hc with ⟨rfl, hb⟩ | ⟨hid, hc⟩
    · exact ⟨by rw [hjobs, Function.update_self], hb⟩
    · rw [hjobs, Function.update_of_ne hid, hheartbeats copy.id hid]
      exact h.held hc
  · intro id job' hj hs
    rcases hold hj with ⟨rfl, rfl⟩ | ⟨hid, hj⟩
    · exact hunbegun hs
    · rw [hstarts id hid]
      exact h.unbegun hj hs

/-- A record in its worker's hands is in nobody else's. -/
theorem Balanced.alone (h : Balanced ctx s) {worker other : Uuid} {before copy : TranscodeJob}
    (hb : s.world.jobs before.id = some before) (hw : before.workerId = some worker)
    (ho : other ≠ worker) (hc : (s.phase other).copy = some copy) : copy.id ≠ before.id := by
  intro he
  have hstored := (h.held hc).1
  rw [he, hb, Option.some.injEq] at hstored
  exact h.coherent.ne_copy hw ho hc hstored

/-- The stored state of a job is that of its record. -/
theorem state?_of_stored {w : World} {id : Uuid} {job : TranscodeJob} (hj : w.jobs id = some job)
    (t : JobState) : w.state? id = some t ↔ job.state = t := by
  rw [World.state?, hj, Option.map_some, Option.some.injEq]

theorem state?_ne {w : World} {id : Uuid} {job : TranscodeJob} {t t' : JobState}
    (hj : w.jobs id = some job) (ht : job.state = t) (hne : t ≠ t') : w.state? id ≠ some t' := by
  rw [Ne, state?_of_stored hj, ht]
  exact hne

theorem state?_ne_of_held {w : World} {id : Uuid} {job : TranscodeJob} {t : JobState}
    (hj : w.jobs id = some job) (hheld : job.state.Held) (ht : ¬ t.Held) :
    w.state? id ≠ some t := by
  apply state?_ne hj rfl
  intro he
  rw [he] at hheld
  exact ht hheld

theorem Balanced.enqueue (h : Balanced ctx s) {id : Uuid} (hid : id ∉ s.world.issued)
    (path : String) {job : TranscodeJob} (hj : job.id = id) (hs : job.state = .pending)
    (ha : job.attempt = 1) :
    Balanced ctx { s with world := enqueuedWorld ctx s.world path job } := by
  subst hj
  have hnone : s.world.jobs job.id = none := by
    cases hold : s.world.jobs job.id with
    | none => rfl
    | some old => exact absurd (h.coherent.issued hold) hid
  have hstate : s.world.state? job.id = none := by rw [World.state?, hnone]; rfl
  have hstarts := h.unstored job.id hnone
  have hmax : 1 ≤ ctx.maxRetries := ctx.config.behavior.maxRetries.property
  refine h.save job (h.coherent.enqueue hid path rfl) rfl ?_ ?_ ?_ (fun _ _ => rfl) ?_ ?_ ?_
    (fun _ _ => rfl) (fun _ _ => rfl) ?_
  · rw [hs]
    exact h.pending.push (by rw [hstate]; nofun)
  · exact h.dead.keep (by rw [hstate]; nofun) (by rw [hs]; nofun)
  · have hsum := h.summaries job.id
    rw [hstate] at hsum
    show (s.world.summaries job.id).isSome ↔ _
    rw [hsum, hs]
    simp
  · show s.starts job.id ≤ _
    omega
  · omega
  · intro _
    show s.starts job.id < _
    omega
  · intro worker copy hc
    refine .inr ⟨?_, hc⟩
    intro he
    have hstored := (h.held hc).1
    rw [he, hnone] at hstored
    cases hstored

theorem Balanced.claim (h : Balanced ctx s) {worker id : Uuid} {job : TranscodeJob}
    (hq : s.world.pendingQueue.head? = some id) (hj : s.world.jobs id = some job)
    (hp : job.state = .pending) :
    Balanced ctx ({ s with world := claimedWorld ctx s.world worker job }.setPhase worker
      (.claimed (job.claimedBy worker s.world.clock))) := by
  have hid : job.id = id := h.coherent.tidy.ids hj
  subst hid
  have hunbegun := h.unbegun hj (.inl hp)
  refine h.save (job.claimedBy worker s.world.clock) (h.coherent.claim hj hp) rfl ?_ ?_ ?_
    (fun _ _ => rfl) (h.starts hj).1 (h.starts hj).2 (fun _ => hunbegun) (fun _ _ => rfl)
     (fun id hid => Function.update_of_ne hid ..) ?_
  · exact h.pending.pop hq nofun
  · exact h.dead.keep (state?_ne hj hp nofun) nofun
  · have hsum := h.summaries job.id
    rw [state?_of_stored hj, hp] at hsum
    exact hsum.trans ⟨nofun, nofun⟩
  · intro other copy hc
    rw [setPhase_phase] at hc
    split at hc
    · cases hc
      refine .inl ⟨rfl, ?_⟩
      show Function.update s.world.heartbeats job.id (some worker) job.id ≠ none
      rw [Function.update_self]
      nofun
    · refine .inr ⟨?_, hc⟩
      intro he
      have hstored := (h.held hc).1
      rw [he] at hstored
      have hheld := (sound_copy (h.coherent.sound other) hc).2
      have hsame : copy = job := Option.some.inj (hstored.symm.trans hj)
      rw [hsame, hp] at hheld
      rcases hheld with hh | hh <;> cases hh

theorem Balanced.start (h : Balanced ctx s) {worker : Uuid} {job : TranscodeJob}
    (hc : s.phase worker = .claimed job) :
    Balanced ctx ({ s with
      world := startedWorld ctx s.world worker job
      starts := Function.update s.starts job.id (s.starts job.id + 1) }.setPhase worker
        (.transcoding job (job.started s.world.clock))) := by
  have hsound := h.coherent.sound worker
  rw [hc] at hsound
  have hj : s.world.jobs job.id = some job :=
    (h.held (show (s.phase worker).copy = _ by rw [hc]; rfl)).1
  have hbegun : s.starts job.id + 1 ≤ job.attempt := h.unbegun hj (.inr hsound.2)
  refine h.save (job.started s.world.clock) (h.coherent.start hc hj) rfl ?_ ?_ ?_ (fun _ _ => rfl)
    ?_ (h.starts hj).2 nofun ?_ (fun id hid => Function.update_of_ne hid ..) ?_
  · exact h.pending.keep (state?_ne hj hsound.2 nofun) nofun
  · exact h.dead.keep (state?_ne hj hsound.2 nofun) nofun
  · have hsum := h.summaries job.id
    rw [state?_of_stored hj, hsound.2] at hsum
    exact hsum.trans ⟨nofun, nofun⟩
  · show Function.update s.starts job.id (s.starts job.id + 1) job.id ≤ _
    rw [Function.update_self]
    exact hbegun
  · exact fun id hid => Function.update_of_ne hid ..
  · intro other copy hother
    rw [setPhase_phase] at hother
    split at hother
    · cases hother
      refine .inl ⟨rfl, ?_⟩
      show Function.update s.world.heartbeats job.id (some worker) job.id ≠ none
      rw [Function.update_self]
      nofun
    · next ho =>
      have hne := h.alone hj hsound.1 ho hother
      exact .inr ⟨hne, hother⟩

theorem Balanced.finish (h : Balanced ctx s) {worker : Uuid} {job processing : TranscodeJob}
    {summary : JobSummary} (hc : s.phase worker = .transcoding job processing)
    (hid : summary.jobId = processing.id) :
    Balanced ctx ({ s with world := finishedWorld ctx s.world processing summary }.setPhase worker
      .idle) := by
  have hsound := h.coherent.sound worker
  rw [hc] at hsound
  have hj : s.world.jobs processing.id = some processing :=
    (h.held (show (s.phase worker).copy = _ by rw [hc]; rfl)).1
  refine h.save (processing.completed s.world.clock) (h.coherent.finish hc hj) rfl ?_ ?_ ?_ ?_
    (h.starts hj).1 (h.starts hj).2 nofun (fun _ _ => rfl) (fun _ _ => rfl) ?_
  · exact h.pending.keep (state?_ne hj hsound.2.1 nofun) nofun
  · exact h.dead.keep (state?_ne hj hsound.2.1 nofun) nofun
  · show (Function.update s.world.summaries summary.jobId (some summary) processing.id).isSome ↔ _
    rw [hid, Function.update_self]
    exact ⟨fun _ => rfl, fun _ => rfl⟩
  · intro id hne
    show Function.update s.world.summaries summary.jobId (some summary) id = _
    rw [hid]
    exact Function.update_of_ne hne ..
  · intro other copy hother
    rw [setPhase_phase] at hother
    split at hother
    · cases hother
    · next ho =>
      have hne := h.alone hj hsound.1 ho hother
      exact .inr ⟨hne, hother⟩

/-- A job in a worker's hands is given up, by its worker or by recovery: to the dead-letter
    queue after the last attempt. -/
theorem Balanced.fail (h : Balanced ctx s) (job : TranscodeJob) {s' : Fleet}
    {before : TranscodeJob}
    (hco : Coherent s') (hb : s.world.jobs job.id = some before) (hheld : before.state.Held)
    (hs : job.state = .failed) (ha : job.attempt = before.attempt)
    (hw : s'.world = (s.world.saved ctx job).buried job.id) (hstarts : s'.starts = s.starts)
    (hphase : ∀ worker copy, (s'.phase worker).copy = some copy →
      copy.id ≠ job.id ∧ (s.phase worker).copy = some copy) : Balanced ctx s' := by
  have hne : ∀ t : JobState, ¬ t.Held → s.world.state? job.id ≠ some t :=
    fun _ ht => state?_ne_of_held hb hheld ht
  have hsum := h.summaries job.id
  refine h.save job hco (by rw [hw]; rfl) ?_ ?_ ?_ (fun _ _ => by rw [hw]; rfl) ?_ ?_ ?_
    (fun _ _ => by rw [hstarts]) (fun _ _ => by rw [hw]; rfl)
    (fun worker copy hc => .inr (hphase worker copy hc))
  · rw [hw, hs]
    exact h.pending.keep (hne _ (by decide)) nofun
  · rw [hw, hs]
    exact h.dead.push (hne _ (by decide))
  · rw [hw, hs]
    show (s.world.summaries job.id).isSome ↔ _
    rw [hsum]
    exact ⟨fun he => absurd he (hne _ (by decide)), nofun⟩
  · rw [hstarts, ha]
    exact (h.starts hb).1
  · rw [ha]
    exact (h.starts hb).2
  · rw [hs]
    intro h
    rcases h with h | h <;> cases h

/-- Or back to the queue for another attempt. -/
theorem Balanced.requeue (h : Balanced ctx s) (job : TranscodeJob) {s' : Fleet}
    {before : TranscodeJob}
    (hco : Coherent s') (hb : s.world.jobs job.id = some before) (hheld : before.state.Held)
    (hs : job.state = .pending) (ha : job.attempt = before.attempt + 1)
    (hmax : before.attempt < ctx.maxRetries)
    (hw : s'.world = (s.world.saved ctx job).queued job.id) (hstarts : s'.starts = s.starts)
    (hphase : ∀ worker copy, (s'.phase worker).copy = some copy →
      copy.id ≠ job.id ∧ (s.phase worker).copy = some copy) : Balanced ctx s' := by
  have hne : ∀ t : JobState, ¬ t.Held → s.world.state? job.id ≠ some t :=
    fun _ ht => state?_ne_of_held hb hheld ht
  have hsum := h.summaries job.id
  have hbegun := (h.starts hb).1
  refine h.save job hco (by rw [hw]; rfl) ?_ ?_ ?_ (fun _ _ => by rw [hw]; rfl) ?_ ?_ ?_
    (fun _ _ => by rw [hstarts]) (fun _ _ => by rw [hw]; rfl)
    (fun worker copy hc => .inr (hphase worker copy hc))
  · rw [hw, hs]
    exact h.pending.push (hne _ (by decide))
  · rw [hw, hs]
    exact h.dead.keep (hne _ (by decide)) nofun
  · rw [hw, hs]
    show (s.world.summaries job.id).isSome ↔ _
    rw [hsum]
    exact ⟨fun he => absurd he (hne _ (by decide)), nofun⟩
  · rw [hstarts, ha]
    omega
  · rw [ha]
    omega
  · rw [hstarts, ha]
    omega

/-- A job without a heartbeat is in no running worker's hands. -/
theorem Balanced.abandoned (h : Balanced ctx s) {id : Uuid} (hb : s.world.heartbeats id = none)
    {worker : Uuid} {copy : TranscodeJob} (hc : (s.phase worker).copy = some copy) :
    copy.id ≠ id ∧ (s.phase worker).copy = some copy := by
  refine ⟨?_, hc⟩
  intro he
  subst he
  exact (h.held hc).2 hb

theorem Balanced.recover (h : Balanced ctx s) {w' : World} (hr : Recovered ctx s.world w') :
    Balanced ctx { s with world := w' } := by
  have hall : Balanced ctx { s with world := w' } ∧ w'.heartbeats = s.world.heartbeats := by
    induction hr with
    | refl => exact ⟨h, rfl⟩
    | @tail w₁ w₂ hr₁ hone ih =>
      obtain ⟨ih, hbeats⟩ := ih
      have hco := ih.coherent.recover (.single hone)
      refine ⟨?_, ?_⟩
      · cases hone with
        | @failed job hj hs hb ha =>
          exact ih.fail (job.failed "worker heartbeat expired" w₁.clock) hco hj hs rfl rfl rfl rfl
            fun worker copy hc => ih.abandoned hb hc
        | @requeued job hj hs hb ha =>
          exact ih.requeue (job.requeued "worker heartbeat expired; requeued") hco hj hs rfl rfl ha
            rfl rfl fun worker copy hc => ih.abandoned hb hc
      · cases hone <;> exact hbeats
  exact hall.1

/-- Workers stop, or nothing but heartbeats of unheld jobs and the clock changes. -/
theorem Balanced.withdraw (h : Balanced ctx s) {s' : Fleet} (hco : Coherent s')
    (hjobs : s'.world.jobs = s.world.jobs) (hq : s'.world.pendingQueue = s.world.pendingQueue)
    (hd : s'.world.deadLetterQueue = s.world.deadLetterQueue)
    (hs : s'.world.summaries = s.world.summaries) (hstarts : s'.starts = s.starts)
    (hheld : ∀ worker copy, (s'.phase worker).copy = some copy →
      (s.phase worker).copy = some copy ∧
        s'.world.heartbeats copy.id = s.world.heartbeats copy.id) : Balanced ctx s' := by
  have hstate : s'.world.state? = s.world.state? := by
    funext id
    rw [World.state?, hjobs, World.state?]
  refine ⟨⟨?_, ?_, ?_, ?_, ?_⟩, hco, ?_, ?_⟩
  · rw [hq, hstate]
    exact h.pending
  · rw [hd, hstate]
    exact h.dead
  · intro id
    rw [hs, hstate]
    exact h.summaries id
  · intro id job hj
    rw [hstarts]
    exact h.starts (by rwa [hjobs] at hj)
  · intro id hj
    rw [hstarts]
    exact h.unstored id (by rwa [hjobs] at hj)
  · intro worker copy hc
    obtain ⟨hc', hb⟩ := hheld worker copy hc
    rw [hjobs, hb]
    exact h.held hc'
  · intro id job hj hst
    rw [hstarts]
    exact h.unbegun (by rwa [hjobs] at hj) hst

/-- The queue holds stored pending jobs only, so a claim of anything else finds it empty. -/
theorem Balanced.empty_of_unclaimed (h : Balanced ctx s)
    (hn : ∀ id job, s.world.pendingQueue.head? = some id → s.world.jobs id = some job →
      job.state ≠ .pending) : s.world.pendingQueue = [] := by
  cases hq : s.world.pendingQueue with
  | nil => rfl
  | cons id rest =>
    have hmem : id ∈ s.world.pendingQueue := by
      rw [hq]
      exact List.mem_cons_self ..
    obtain ⟨job, hj, hs⟩ := World.state?_eq_some.mp (h.pending.mem_iff.mp hmem)
    exact absurd hs (hn id job (by rw [hq]; rfl) hj)

theorem balanced_step (h : Balanced ctx s) (hm : s.Attended m) : Balanced ctx (step ctx s m) := by
  have hco : Coherent (step ctx s m) := coherent_step h.coherent h.current
  have ho := step_cases ctx h.coherent.tidy m
  generalize step ctx s m = s' at ho hco
  -- A worker that gives its job up holds nothing, and nobody else holds that job.
  have hleft : ∀ {worker : Uuid} {before : TranscodeJob} (phase : Phase),
      s.world.jobs before.id = some before → before.workerId = some worker → phase.copy = none →
      ∀ (world : World) (other : Uuid) (copy : TranscodeJob),
        (({ s with world }.setPhase worker phase).phase other).copy = some copy →
        copy.id ≠ before.id ∧ (s.phase other).copy = some copy := by
    intro worker before phase hb hw hnone world other copy hc
    rw [setPhase_phase] at hc
    split at hc
    · rw [hnone] at hc
      cases hc
    · next hne => exact ⟨h.alone hb hw hne hc, hc⟩
  cases ho with
  | same => exact h
  | enqueued hp hid => exact h.enqueue hid _ rfl rfl rfl
  | unclaimed hi hn =>
    refine h.withdraw hco rfl ?_ rfl rfl rfl fun _ _ hc => ⟨hc, rfl⟩
    show s.world.pendingQueue.tail = s.world.pendingQueue
    rw [h.empty_of_unclaimed hn]
    rfl
  | claimed hi hq hj hp => exact h.claim hq hj hp
  | started hc hw hs => exact h.start hc
  | finished ht hs hid => exact h.finish ht hid
  | @failed _ worker job message hc hw hs ha =>
    obtain ⟨hb, hid⟩ := h.coherent.current hc
    rw [← hid] at hb
    exact h.fail ((s.current job).failed message s.world.clock) hco hb hs rfl rfl rfl rfl
      (hleft .idle hb hw rfl _)
  | @requeued _ worker job message hc hw hs ha =>
    obtain ⟨hb, hid⟩ := h.coherent.current hc
    rw [← hid] at hb
    exact h.requeue ((s.current job).requeued message) hco hb hs rfl rfl ha rfl rfl
      (hleft .idle hb hw rfl _)
  | stopped =>
    refine h.withdraw hco rfl rfl rfl rfl rfl fun other copy hc => ?_
    rw [setPhase_phase] at hc
    split at hc
    · cases hc
    · exact ⟨hc, rfl⟩
  | recovered hr => exact h.recover hr
  | expired id =>
    refine h.withdraw hco rfl rfl rfl rfl rfl fun worker copy hc => ⟨hc, ?_⟩
    exact Function.update_of_ne (hm worker copy hc) ..
  | ticked => exact h.withdraw hco rfl rfl rfl rfl rfl fun _ _ hc => ⟨hc, rfl⟩

theorem balanced_initial (ctx : Context) : Balanced ctx initial where
  pending := .nil nofun
  dead := .nil nofun
  summaries := fun _ => ⟨nofun, nofun⟩
  starts := nofun
  unstored := fun _ _ => rfl
  coherent := coherent_initial
  held := nofun
  unbegun := nofun

/-! Use cases whose reads may raise. -/

/-- A part of the `try` block, with the reads in it and in the clause around it. -/
def loadingGuarded {α : Type} (ctx : Context) (worker : Uuid) (job : TranscodeJob) (p : Prog α) :
    Prog (Except TranscodeJob α) :=
  (loading p).attempt >>= fun r => loading (handled ctx worker job r)

/-- The use cases with every record they read validated. -/
def loadingPieces (ctx : Context) : Pieces where
  enqueue probed chosen := loading (enqueueJob ctx probed chosen)
  claim worker := loading (claimJob ctx worker)
  start worker job := loadingGuarded ctx worker job (startTranscode ctx worker job)
  finish worker job processing outcome := loadingGuarded ctx worker job do
    let result ← Program.ofExcept outcome
    writeSummary ctx processing result
  recover := loading (recoverStaleJobs ctx)

def loadStep (ctx : Context) : Fleet → Move → Fleet := stepBy (loadingPieces ctx)

/-- The record of an enqueued job can be read back. -/
def Loadable : Move → Prop
  | .enqueue _ chosen _ => chosen.profile.Readable
  | _ => True

/-- What the documents say is stored. Workers hold what they have read. -/
def dumped (s : Fleet) : Fleet := { s with world := s.world.dumped }

/-- Every record stored or in a worker's hands is read back as it was written. -/
structure Kept (s : Fleet) : Prop where
  world : s.world.Kept
  job : ∀ {worker job}, (s.phase worker).job = some job → Json.transcodeJob.Kept job
  copy : ∀ {worker copy}, (s.phase worker).copy = some copy → Json.transcodeJob.Kept copy

theorem state?_dumped (w : World) : w.dumped.state? = w.state? := by
  funext id
  rw [World.state?, World.dumped_jobs, Option.map_map]
  rfl

theorem Accounted.of_dumped (h : Accounted ctx s.dumped) : Accounted ctx s where
  pending := state?_dumped s.world ▸ h.pending
  dead := state?_dumped s.world ▸ h.dead
  summaries := state?_dumped s.world ▸ h.summaries
  starts := by
    intro id job hj
    have hdumped : s.dumped.world.jobs id = some job.dumped :=
      congrArg (Option.map TranscodeJob.dumped) hj
    exact (h.starts hdumped :)
  unstored id hj := h.unstored id (congrArg (Option.map TranscodeJob.dumped) hj)

theorem Kept.setPhase (h : s.Kept) {s' : Fleet} (hw : s'.world.Kept) {worker : Uuid}
    {phase : Phase} (hphase : s'.phase = Function.update s.phase worker phase)
    (hjob : ∀ job, phase.job = some job → Json.transcodeJob.Kept job)
    (hcopy : ∀ copy, phase.copy = some copy → Json.transcodeJob.Kept copy) : s'.Kept := by
  refine ⟨hw, ?_, ?_⟩
  · intro other job hother
    rw [hphase, Function.update_apply] at hother
    split at hother
    · exact hjob job hother
    · exact h.job hother
  · intro other copy hother
    rw [hphase, Function.update_apply] at hother
    split at hother
    · exact hcopy copy hother
    · exact h.copy hother

theorem Kept.current (h : s.Kept) {worker : Uuid} {job : TranscodeJob}
    (hc : (s.phase worker).job = some job) : Json.transcodeJob.Kept (s.current job) := by
  unfold Fleet.current
  cases hj : s.world.jobs job.id with
  | none => exact h.job hc
  | some stored => exact h.world job.id stored hj

theorem kept_recovered {w w' : World} (h : w.Kept) (hr : Recovered ctx w w') : w'.Kept := by
  induction hr with
  | refl => exact h
  | tail _ hone ih =>
    cases hone with
    | failed hj => exact ih.update (kept_inherited.failed _ _ (ih _ _ hj)) rfl
    | requeued hj => exact ih.update (kept_inherited.requeued _ (ih _ _ hj)) rfl

theorem kept_step (ht : s.world.Tidy) (h : s.Kept) (hm : ∀ probed chosen id,
    m ≠ .enqueue probed chosen id) : (step ctx s m).Kept := by
  have hnone : ∀ {job : TranscodeJob}, (none : Option TranscodeJob) = some job →
      Json.transcodeJob.Kept job := fun hj => by cases hj
  have ho := step_cases ctx ht m
  generalize step ctx s m = s' at ho
  cases ho with
  | same => exact h
  | enqueued => exact absurd rfl (hm _ _ _)
  | unclaimed => exact ⟨h.world, h.job, h.copy⟩
  | @claimed worker id job hi hq hj =>
    have hjob := kept_inherited.claimed worker s.world.clock (h.world id job hj)
    refine h.setPhase (h.world.update hjob rfl) rfl ?_ ?_
    all_goals rintro _ ⟨⟩; exact hjob
  | @started worker job hc =>
    have hold := h.job (show (s.phase worker).job = some job by rw [hc]; rfl)
    have hjob := kept_inherited.started s.world.clock hold
    refine h.setPhase (h.world.update hjob rfl) rfl ?_ ?_
    · rintro _ ⟨⟩
      exact hold
    · rintro _ ⟨⟩
      exact hjob
  | @finished worker job processing _ _ hc =>
    have hold := h.copy (show (s.phase worker).copy = some processing by rw [hc]; rfl)
    have hjob := kept_inherited.completed s.world.clock hold
    exact h.setPhase (h.world.update hjob rfl) rfl (fun _ => hnone) (fun _ => hnone)
  | @failed _ worker job message hc =>
    have hjob := kept_inherited.failed message s.world.clock (h.current hc)
    exact h.setPhase (h.world.update hjob rfl) rfl (fun _ => hnone) (fun _ => hnone)
  | @requeued _ worker job message hc =>
    have hjob := kept_inherited.requeued message (h.current hc)
    exact h.setPhase (h.world.update hjob rfl) rfl (fun _ => hnone) (fun _ => hnone)
  | stopped => exact h.setPhase h.world rfl (fun _ => hnone) (fun _ => hnone)
  | recovered hr => exact ⟨kept_recovered h.world hr, h.job, h.copy⟩
  | expired => exact ⟨h.world, h.job, h.copy⟩
  | ticked => exact ⟨h.world, h.job, h.copy⟩

theorem handled_saves {α : Type} {worker : Uuid} {job : TranscodeJob}
    (hjob : Json.transcodeJob.Kept job) (r : Except Exn α) :
    (handled ctx worker job r).Obeys (passing Json.transcodeJob.Kept) (fun _ _ => True) () := by
  cases r with
  | error e =>
    cases e with
    | vshift message =>
      exact (handleError_saves kept_inherited hjob message).seq (fun _ _ _ => trivial)
        (fun _ _ _ => trivial)
    | other name => trivial
  | ok a => trivial

/-- A part of the `try` block, run over documents and over what they say. -/
theorem run_loadingGuarded {α : Type} (ctx : Context) (worker : Uuid) {w : World}
    (hw : w.dumped.Kept) {job : TranscodeJob} (hjob : Json.transcodeJob.Kept job) {p : Prog α}
    {Q : Except Exn α → Unit → Prop} (hp : p.Obeys (passing Json.transcodeJob.Kept) Q ())
    (tape : List Choice) :
    (redis.run (loadingGuarded ctx worker job p) tape w).map (Prod.map id World.dumped) =
      redis.run (guarded ctx worker job p) tape w.dumped := by
  apply Machine.run_attempt_through redis_clear (Q := fun _ _ => True)
  apply (obeys_faithful hp hw).mono
  intro r w' ⟨_, hw'⟩
  exact (obeys_faithful (handled_saves hjob r) hw').mono fun _ _ _ => trivial

theorem dumped_loadStep (h : s.dumped.Kept) (hm : ∀ probed chosen id,
    m ≠ .enqueue probed chosen id) : (loadStep ctx s m).dumped = step ctx s.dumped m := by
  cases m with
  | enqueue probed chosen id => exact absurd rfl (hm _ _ _)
  | claim worker =>
    have hsaves := @claimJob_saves ctx Json.transcodeJob.Kept worker kept_inherited
    have hrun := run_loading (obeys_faithful hsaves h.world) []
    simp only [loadStep, step, stepBy, loadingPieces, pieces, dumped, ← hrun]
    cases s.phase worker with
    | idle => rcases redis.run _ _ _ with _ | ⟨_ | _ | job, w⟩ <;> rfl
    | _ => rfl
  | start worker =>
    simp only [loadStep, step, stepBy, loadingPieces, pieces, dumped]
    cases hc : s.phase worker with
    | claimed job =>
      have hjob := h.job (show (s.phase worker).job = some job by rw [hc]; rfl)
      have hsaves := @startTranscode_saves ctx Json.transcodeJob.Kept job worker kept_inherited hjob
      have hrun := run_loadingGuarded ctx worker h.world hjob hsaves []
      simp only [beginJob, ← hrun]
      rcases redis.run _ _ _ with _ | ⟨_ | _ | job, w⟩ <;> rfl
    | _ => rfl
  | finish worker outcome built =>
    simp only [loadStep, step, stepBy, loadingPieces, pieces, dumped]
    cases hc : s.phase worker with
    | transcoding job processing =>
      have hjob := h.job (show (s.phase worker).job = some job by rw [hc]; rfl)
      have hcopy := h.copy (show (s.phase worker).copy = some processing by rw [hc]; rfl)
      have hsaves : (Program.ofExcept outcome >>= fun result =>
          writeSummary ctx processing result).Obeys (passing Json.transcodeJob.Kept)
            (fun _ _ => True) () := by
        rw [Program.obeys_bind, Program.obeys_ofExcept]
        cases outcome with
        | error e => trivial
        | ok result => exact writeSummary_saves kept_inherited hcopy result
      have hrun := run_loadingGuarded ctx worker h.world hjob hsaves [.summarised built]
      simp only [endJob, ← hrun]
      rcases redis.run _ _ _ with _ | ⟨_ | _, w⟩ <;> rfl
    | _ => rfl
  | crash worker => rfl
  | recover tape =>
    have hrun := run_loading (obeys_faithful (recoverStaleJobs_saves ctx kept_inherited) h.world)
      tape
    simp only [loadStep, step, stepBy, loadingPieces, pieces, dumped, ← hrun]
    rcases redis.run _ _ _ with _ | ⟨_, w⟩ <;> rfl
  | expire id => rfl
  | clock t => rfl

theorem dumped_initial : initial.dumped = initial := by
  have hempty : World.dumped .empty = .empty := dumped_eq fun _ _ h => by cases h
  show { initial with world := World.dumped .empty } = _
  rw [hempty]
  rfl

theorem dumped_enqueued {w : World} {path : String} {job : TranscodeJob} :
    (enqueuedWorld ctx w path job).dumped = enqueuedWorld ctx w.dumped path job.dumped := by
  have hsaved : ((w.numbered job.id).saved ctx job).dumped =
      (w.dumped.numbered job.id).saved ctx job.dumped := dumped_saved
  show ((((w.numbered job.id).saved ctx job).dumped.marked path job.id).queued job.id) = _
  rw [hsaved]
  rfl

/-- The invariant of runs over documents. -/
structure BalancedDocuments (ctx : Context) (s : Fleet) : Prop where
  balanced : Balanced ctx s.dumped
  kept : s.dumped.Kept

theorem balancedDocuments_step (h : BalancedDocuments ctx s) (hm : s.Attended m)
    (hload : Loadable m) : BalancedDocuments ctx (loadStep ctx s m) := by
  by_cases henq : ∃ probed chosen id, m = .enqueue probed chosen id
  · obtain ⟨probed, chosen, id₀, rfl⟩ := henq
    have hread : s.world.Readable := readable_iff_kept.mpr h.kept.world
    simp only [loadStep, stepBy, loadingPieces]
    split
    · next r world hrun =>
      cases Machine.run_obeys hrun (loading_enqueueJob_alone hread probed chosen) with
      | known hk => exact h
      | @enqueued id hp hid =>
        let path := ctx.py.canonicalPath probed.path
        let job := newJob ctx probed chosen id s.world.clock
        have hworld : (enqueuedWorld ctx s.world path job).dumped =
            enqueuedWorld ctx s.dumped.world path job.dumped := dumped_enqueued
        have hjob : Json.transcodeJob.Kept job.dumped :=
          readable_iff.mp (newJob_readable_iff.mpr hload)
        constructor
        · have hbalanced := @Balanced.enqueue _ _ h.balanced id hid path job.dumped rfl rfl rfl
          rw [← hworld] at hbalanced
          exact hbalanced
        · refine ⟨?_, h.kept.job, h.kept.copy⟩
          show (enqueuedWorld ctx s.world path job).dumped.Kept
          rw [hworld]
          exact h.kept.world.update hjob rfl
    · exact h
  · simp only [not_exists] at henq
    have hstep := @dumped_loadStep ctx s m h.kept henq
    constructor
    · rw [hstep]
      exact balanced_step h.balanced hm
    · rw [hstep]
      exact kept_step h.balanced.coherent.tidy h.kept henq

theorem balancedDocuments_initial (ctx : Context) : BalancedDocuments ctx initial := by
  have hkept : initial.Kept :=
    ⟨fun _ _ h => (nomatch h), fun h => (nomatch h), fun h => (nomatch h)⟩
  constructor
  · rw [dumped_initial]
    exact balanced_initial ctx
  · rw [dumped_initial]
    exact hkept

/-- In every state a run reaches, the queues hold the pending and the failed jobs once each, the
    summaries are those of the completed jobs, and no job was started more often than it was
    attempted, or attempted more often than configured. -/
theorem accounts_balance (ctx : Context) (moves : List Move)
    (h : Meets (loadStep ctx) (fun s m => s.Attended m ∧ Loadable m) initial moves) :
    Accounted ctx (runFrom (loadStep ctx) initial moves) := by
  have hrun := run_invariant (BalancedDocuments ctx)
    (fun _ _ hb hm => balancedDocuments_step hb hm.1 hm.2) (balancedDocuments_initial ctx) h
  exact hrun.balanced.toAccounted.of_dumped

/-- Worker 7 crashes inside `transcode()`, its heartbeat expires, and worker 8 does the second
    attempt. -/
def crashedRun : List Move :=
  [.enqueue (mp4File "/tmp/input/a.mp4") defaultMatch 1, .claim 7, .start 7, .crash 7, .expire 1,
    .recover [.order [], .order [1]], .claim 8, .start 8,
    .finish 8 (.ok (quickResult "/tmp/output/a.mp4")) (.ok (summaryOf 1))]

theorem accounts_balance_crashedRun :
    Accounted smallContext (runFrom (loadStep smallContext) initial crashedRun) := by
  refine accounts_balance smallContext crashedRun
    ⟨⟨trivial, ?_⟩, ⟨trivial, trivial⟩, ⟨trivial, trivial⟩, ⟨trivial, trivial⟩, ⟨?_, trivial⟩,
      ⟨trivial, trivial⟩, ⟨trivial, trivial⟩, ⟨trivial, trivial⟩, ⟨trivial, trivial⟩, trivial⟩
  · exact ⟨rfl, ⟨22, rfl⟩, nofun⟩
  intro worker copy hc
  -- Only worker 7 ever left its idle phase, and it has stopped.
  change (Function.update (Function.update (Function.update (fun _ => Phase.idle) 7 _) 7 _) 7
    Phase.stopped worker).copy = some copy at hc
  by_cases hw : worker = 7
  · rw [hw, Function.update_self] at hc
    cases hc
  · rw [Function.update_of_ne hw, Function.update_of_ne hw, Function.update_of_ne hw] at hc
    cases hc

/-- A job whose quality is NaN is popped, and no claim of it gets further. -/
def refusedRun : List Move := [.enqueue (mp4File "/tmp/input/a.mp4") nanMatch 1, .claim 7]

theorem refused_unqueued : ¬ ∀ (ctx : Context) (moves : List Move),
    (∀ probed chosen id, .enqueue probed chosen id ∈ moves →
      matchProfile ctx.py ctx.config.toRawConfig probed = .ok (some chosen)) →
    Meets (loadStep ctx) Attended initial moves →
    Accounted ctx (runFrom (loadStep ctx) initial moves) := by
  intro h
  have hmatched : ∀ probed chosen id, .enqueue probed chosen id ∈ refusedRun →
      matchProfile nanContext.py nanContext.config.toRawConfig probed = .ok (some chosen) := by
    intro probed chosen id hmem
    simp only [refusedRun, List.mem_cons, List.not_mem_nil, Move.enqueue.injEq, reduceCtorEq,
      or_false] at hmem
    obtain ⟨rfl, rfl, rfl⟩ := hmem
    exact nanMatch_matched
  have hs := h nanContext refusedRun hmatched ⟨trivial, trivial, trivial⟩
  have hpending : (runFrom (loadStep nanContext) initial refusedRun).world.state? 1 =
      some .pending := by decide +kernel
  have hqueue : (runFrom (loadStep nanContext) initial refusedRun).world.pendingQueue = [] := by
    decide +kernel
  have hmem := hs.pending.mem_iff.mpr hpending
  rw [hqueue] at hmem
  cases hmem

end Fleet
end Vshift
