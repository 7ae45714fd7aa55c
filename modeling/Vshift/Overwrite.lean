import Vshift.Lifecycle

/- Lost updates: what moves do to the records already stored.

   The transition table is checked on the copy a worker holds, while every save
   replaces the whole record. `changes_lawful_iff` says when that is enough: along
   a run from the empty server every change of a stored record is lawful exactly
   when each start of a transcode and each summary finds the worker's copy still
   stored. `stale_completion` is a run where a summary does not. The
   invariant is `Coherent`: a copy that is no longer stored was overtaken, by a
   later attempt or by the final failure of the job. -/
namespace Vshift
open Command

namespace Fleet

/-! The property and the condition. -/

/-- One stored record replaced by another, as the transition table intends it. -/
structure Allowed (m : Move) (before after : TranscodeJob) : Prop where
  transition : after.state ≠ before.state → before.state.canTransition after.state = true
  attempt : before.attempt ≤ after.attempt
  terminal : before.state.Terminal → after.state = before.state
  completed : after.state = .completed → before.state ≠ .completed →
    ∃ worker outcome built, m = .finish worker outcome built ∧ before.state = .processing ∧
      before.workerId = some worker

/-- A move keeps every stored job stored and changes it only as allowed. -/
def Lawful (ctx : Context) (s : Fleet) (m : Move) : Prop :=
  ∀ id before, s.world.jobs id = some before →
    ∃ after, (step ctx s m).world.jobs id = some after ∧ Allowed m before after

/-- The copy a move saves over the record without reading it again. -/
def saves (s : Fleet) : Move → Option TranscodeJob
  | .start worker =>
    match s.phase worker with
    | .claimed job => some job
    | _ => none
  | .finish worker (.ok _) (.ok summary) =>
    match s.phase worker with
    | .transcoding _ processing => if summary.jobId = processing.id then some processing else none
    | _ => none
  | _ => none

/-- Such a copy is still what is stored. -/
def Current (s : Fleet) (m : Move) : Prop :=
  ∀ copy, s.saves m = some copy → s.world.jobs copy.id = some copy

/-! The invariant. -/

/-- What is stored, seen from a worker's copy: the copy itself, or a record that has left the
    worker for a later attempt or failed for good. -/
def Tracks (worker : Uuid) (copy stored : TranscodeJob) : Prop :=
  stored = copy ∨ stored.workerId ≠ some worker ∧
    (copy.attempt < stored.attempt ∨ stored.state = .failed)

/-- A busy worker's copies are its own and in the state it left them in. -/
def Sound (worker : Uuid) : Phase → Prop
  | .claimed job => job.workerId = some worker ∧ job.state = .claimed
  | .transcoding job processing =>
    processing.workerId = some worker ∧ processing.state = .processing ∧ processing.id = job.id
  | _ => True

structure Coherent (s : Fleet) : Prop where
  tidy : s.world.Tidy
  issued : ∀ {id job}, s.world.jobs id = some job → id ∈ s.world.issued
  sound : ∀ worker, Sound worker (s.phase worker)
  tracks : ∀ {worker copy}, (s.phase worker).copy = some copy →
    ∃ stored, s.world.jobs copy.id = some stored ∧ Tracks worker copy stored

variable {ctx : Context} {s : Fleet} {m : Move}

theorem sound_copy {worker : Uuid} {phase : Phase} {copy : TranscodeJob} (h : Sound worker phase)
    (hc : phase.copy = some copy) : copy.workerId = some worker ∧ copy.state.Held := by
  cases phase with
  | claimed job =>
    cases hc
    exact ⟨h.1, .inl h.2⟩
  | transcoding job processing =>
    cases hc
    exact ⟨h.1, .inr h.2.1⟩
  | _ => cases hc

/-- The record changes hands: a copy that was not what was stored stays overtaken. -/
theorem Tracks.overtaken {worker : Uuid} {copy before after : TranscodeJob}
    (h : Tracks worker copy before) (hne : before ≠ copy) (hf : before.state ≠ .failed)
    (ha : before.attempt ≤ after.attempt) (hw : after.workerId ≠ some worker) :
    Tracks worker copy after := by
  rcases h with h | ⟨-, hlt | h⟩
  · exact absurd h hne
  · exact .inr ⟨hw, .inl (by omega)⟩
  · exact absurd h hf

/-- The record is given up for a later attempt or for good: every copy is overtaken. -/
theorem Tracks.released {worker : Uuid} {copy before after : TranscodeJob}
    (h : Tracks worker copy before) (hf : before.state ≠ .failed)
    (ha : before.attempt < after.attempt ∨ before.attempt = after.attempt ∧ after.state = .failed)
    (hw : after.workerId = none) : Tracks worker copy after := by
  have hw' : after.workerId ≠ some worker := by simp [hw]
  rcases h with rfl | ⟨-, hlt | h⟩
  · exact .inr ⟨hw', ha.imp id And.right⟩
  · exact .inr ⟨hw', .inl (by omega)⟩
  · exact absurd h hf

/-- What is to be shown of a move that saves `job` over the record `before`. -/
theorem Coherent.save (h : Coherent s) (ctx : Context) (job : TranscodeJob) {s' : Fleet}
    {before : TranscodeJob}
    (hb : s.world.jobs job.id = some before)
    (hjobs : s'.world.jobs = (s.world.saved ctx job).jobs)
    (hindex : s'.world.stateIndex = (s.world.saved ctx job).stateIndex)
    (hissued : s'.world.issued = s.world.issued)
    (hsound : ∀ worker, Sound worker (s'.phase worker))
    (htracks : ∀ worker copy, (s'.phase worker).copy = some copy →
      (copy.id = job.id ∧ Tracks worker copy job) ∨
      ((s.phase worker).copy = some copy ∧
        (copy.id = job.id → Tracks worker copy before → Tracks worker copy job))) :
    Coherent s' where
  tidy := (World.Tidy.saved h.tidy job).congr hjobs hindex
  issued := by
    intro id job' hj
    rw [hissued]
    rw [hjobs, World.saved_jobs] at hj
    by_cases hid : id = job.id
    · rw [hid]
      exact h.issued hb
    · rw [Function.update_of_ne hid] at hj
      exact h.issued hj
  sound := hsound
  tracks := by
    intro worker copy hc
    rw [hjobs, World.saved_jobs]
    rcases htracks worker copy hc with ⟨hid, ht⟩ | ⟨hc', ht⟩
    · exact ⟨job, by rw [hid, Function.update_self], ht⟩
    · by_cases hid : copy.id = job.id
      · obtain ⟨stored, hstored, hold⟩ := h.tracks hc'
        rw [hid, hb, Option.some.injEq] at hstored
        subst hstored
        exact ⟨job, by rw [hid, Function.update_self], ht hid hold⟩
      · rw [Function.update_of_ne hid]
        exact h.tracks hc'

/-- A move that only takes workers out of their phases, or leaves them there. -/
theorem Coherent.withdraw (h : Coherent s) {s' : Fleet} (hjobs : s'.world.jobs = s.world.jobs)
    (hindex : s'.world.stateIndex = s.world.stateIndex)
    (hissued : s.world.issued ⊆ s'.world.issued)
    (hphase : ∀ worker, s'.phase worker = s.phase worker ∨ s'.phase worker = .stopped) :
    Coherent s' where
  tidy := h.tidy.congr hjobs hindex
  issued := fun hj => hissued (h.issued (by rwa [hjobs] at hj))
  sound := by
    intro worker
    rcases hphase worker with hp | hp <;> rw [hp]
    · exact h.sound worker
    · trivial
  tracks := by
    intro worker copy hc
    rcases hphase worker with hp | hp <;> rw [hp] at hc
    · rw [hjobs]
      exact h.tracks hc
    · cases hc

theorem setPhase_phase (s : Fleet) (worker other : Uuid) (phase : Phase) :
    (s.setPhase worker phase).phase other = if other = worker then phase else s.phase other := by
  simp only [setPhase, Function.update_apply]

/-- A worker's own save moves its copy along with the record. -/
theorem Coherent.own (h : Coherent s) (ctx : Context) (job : TranscodeJob) {s' : Fleet}
    {worker : Uuid} {before : TranscodeJob} {phase : Phase} (hb : s.world.jobs job.id = some before)
    (hjobs : s'.world.jobs = (s.world.saved ctx job).jobs)
    (hindex : s'.world.stateIndex = (s.world.saved ctx job).stateIndex)
    (hissued : s'.world.issued = s.world.issued)
    (hphase : s'.phase = Function.update s.phase worker phase) (hsound : Sound worker phase)
    (hcopy : ∀ copy, phase.copy = some copy → copy = job)
    (hothers : ∀ other copy, other ≠ worker → (s.phase other).copy = some copy →
      copy.id = job.id → Tracks other copy before → Tracks other copy job) : Coherent s' := by
  apply h.save ctx job hb hjobs hindex hissued
  · intro other
    rw [hphase, Function.update_apply]
    split
    · next ho =>
      rw [ho]
      exact hsound
    · exact h.sound other
  · intro other copy hc
    rw [hphase, Function.update_apply] at hc
    split at hc
    · have he := hcopy copy hc
      exact .inl ⟨by rw [he], .inl he.symm⟩
    · next ho => exact .inr ⟨hc, fun hid => hothers other copy ho hc hid⟩

/-- While the record names its worker, nobody else's copy is stored. -/
theorem Coherent.ne_copy (h : Coherent s) {worker other : Uuid} {before copy : TranscodeJob}
    (hw : before.workerId = some worker) (ho : other ≠ worker)
    (hc : (s.phase other).copy = some copy) : before ≠ copy := by
  intro he
  subst he
  have hown := (sound_copy (h.sound other) hc).1
  rw [hw, Option.some.injEq] at hown
  exact ho hown.symm

theorem Coherent.enqueue (h : Coherent s) {id : Uuid} (hid : id ∉ s.world.issued) (path : String)
    {job : TranscodeJob} (hj : job.id = id) :
    Coherent { s with world := enqueuedWorld ctx s.world path job } := by
  subst hj
  have hnone : s.world.jobs job.id = none := by
    cases hs : s.world.jobs job.id with
    | none => rfl
    | some old => exact absurd (h.issued hs) hid
  have hn : (s.world.numbered job.id).Tidy := h.tidy.congr rfl rfl
  have ht : ((s.world.numbered job.id).saved ctx job).Tidy := hn.saved job
  refine ⟨ht.congr rfl rfl, ?_, h.sound, ?_⟩
  · intro id' job' hj'
    have hj'' : Function.update s.world.jobs job.id (some job) id' = some job' := hj'
    show id' ∈ insert job.id s.world.issued
    by_cases he : id' = job.id
    · exact Finset.mem_insert.mpr (.inl he)
    · rw [Function.update_of_ne he] at hj''
      exact Finset.mem_insert.mpr (.inr (h.issued hj''))
  · intro worker copy hc
    obtain ⟨stored, hs, htr⟩ := h.tracks hc
    have hne : copy.id ≠ job.id := by
      intro he
      rw [he, hnone] at hs
      cases hs
    refine ⟨stored, ?_, htr⟩
    show Function.update _ _ _ _ = _
    rw [Function.update_of_ne hne]
    exact hs

theorem Coherent.claim (h : Coherent s) {worker id : Uuid} {job : TranscodeJob}
    (hj : s.world.jobs id = some job) (hp : job.state = .pending) :
    Coherent ({ s with world := claimedWorld ctx s.world worker job }.setPhase worker
      (.claimed (job.claimedBy worker s.world.clock))) := by
  have hid : job.id = id := h.tidy.ids hj
  subst hid
  refine h.own ctx (job.claimedBy worker s.world.clock) hj rfl rfl rfl rfl ⟨rfl, rfl⟩
    (fun copy hc => (Option.some.inj hc).symm) ?_
  intro other copy ho hc _ ht
  have hheld := (sound_copy (h.sound other) hc).2
  refine ht.overtaken ?_ (by rw [hp]; decide) (Nat.le_refl _) ?_
  · intro he
    subst he
    rw [hp] at hheld
    rcases hheld with h | h <;> cases h
  · exact fun he => ho (Option.some.inj he).symm

theorem Coherent.start (h : Coherent s) {worker : Uuid} {job : TranscodeJob}
    (hc : s.phase worker = .claimed job) (hs : s.world.jobs job.id = some job) :
    Coherent ({ s with
      world := startedWorld ctx s.world worker job
      starts := Function.update s.starts job.id (s.starts job.id + 1) }.setPhase worker
        (.transcoding job (job.started s.world.clock))) := by
  have hsound := h.sound worker
  rw [hc] at hsound
  refine h.own ctx (job.started s.world.clock) hs rfl rfl rfl rfl ⟨hsound.1, rfl, rfl⟩
    (fun copy hc => (Option.some.inj hc).symm) ?_
  intro other copy ho hother _ ht
  refine ht.overtaken (h.ne_copy hsound.1 ho hother) (by rw [hsound.2]; decide) (Nat.le_refl _) ?_
  show job.workerId ≠ some other
  rw [hsound.1]
  exact fun he => ho (Option.some.inj he).symm

theorem Coherent.finish (h : Coherent s) {worker : Uuid} {job processing : TranscodeJob}
    {summary : JobSummary} (hc : s.phase worker = .transcoding job processing)
    (hs : s.world.jobs processing.id = some processing) :
    Coherent ({ s with world := finishedWorld ctx s.world processing summary }.setPhase worker
      .idle) := by
  have hsound := h.sound worker
  rw [hc] at hsound
  refine h.own ctx (processing.completed s.world.clock) hs rfl rfl rfl rfl trivial
    (fun copy hc => by cases hc) ?_
  intro other copy ho hother _ ht
  refine ht.overtaken (h.ne_copy hsound.1 ho hother) (by rw [hsound.2.1]; decide) (Nat.le_refl _) ?_
  show processing.workerId ≠ some other
  rw [hsound.1]
  exact fun he => ho (Option.some.inj he).symm

/-- The record of a busy worker's job is there. -/
theorem Coherent.current (h : Coherent s) {worker : Uuid} {job : TranscodeJob}
    (hc : (s.phase worker).job = some job) :
    s.world.jobs job.id = some (s.current job) ∧ (s.current job).id = job.id := by
  have hcopy : ∃ copy, (s.phase worker).copy = some copy ∧ copy.id = job.id := by
    have hsound := h.sound worker
    cases hp : s.phase worker with
    | claimed claimed =>
      rw [hp] at hc
      cases hc
      exact ⟨job, rfl, rfl⟩
    | transcoding claimed processing =>
      rw [hp] at hc hsound
      cases hc
      exact ⟨processing, rfl, hsound.2.2⟩
    | _ =>
      rw [hp] at hc
      cases hc
  obtain ⟨copy, hcopy, hid⟩ := hcopy
  obtain ⟨stored, hs, -⟩ := h.tracks hcopy
  rw [hid] at hs
  have he : s.current job = stored := by rw [Fleet.current, hs]; rfl
  rw [he]
  exact ⟨hs, h.tidy.ids hs⟩

/-- The failure handler's save: the worker that owns the record gives the job up. -/
theorem Coherent.giveUp (h : Coherent s) (ctx : Context) (job : TranscodeJob) {s' : Fleet}
    {worker : Uuid} {before : TranscodeJob}
    (hb : s.world.jobs job.id = some before) (hw : before.workerId = some worker)
    (hheld : before.state.Held)
    (hjobs : s'.world.jobs = (s.world.saved ctx job).jobs)
    (hindex : s'.world.stateIndex = (s.world.saved ctx job).stateIndex)
    (hissued : s'.world.issued = s.world.issued)
    (hphase : s'.phase = Function.update s.phase worker .idle)
    (ha : before.attempt ≤ job.attempt) (hnone : job.workerId = none) : Coherent s' := by
  refine h.own ctx job hb hjobs hindex hissued hphase trivial (fun copy hc => by cases hc) ?_
  intro other copy ho hother _ ht
  refine ht.overtaken (h.ne_copy hw ho hother) ?_ ha
    (by rw [hnone]; exact Option.some_ne_none _ |>.symm)
  rcases hheld with hs | hs <;> rw [hs] <;> decide

/-- A recovery step's save: the job is taken from whoever held it. -/
theorem Coherent.release (h : Coherent s) (ctx : Context) (job : TranscodeJob) {s' : Fleet}
    {before : TranscodeJob}
    (hb : s.world.jobs job.id = some before) (hheld : before.state.Held)
    (hjobs : s'.world.jobs = (s.world.saved ctx job).jobs)
    (hindex : s'.world.stateIndex = (s.world.saved ctx job).stateIndex)
    (hissued : s'.world.issued = s.world.issued) (hphase : s'.phase = s.phase)
    (ha : before.attempt < job.attempt ∨ before.attempt = job.attempt ∧ job.state = .failed)
    (hnone : job.workerId = none) : Coherent s' := by
  refine h.save ctx job hb hjobs hindex hissued
    (fun worker => by rw [hphase]; exact h.sound worker) ?_
  intro worker copy hc
  rw [hphase] at hc
  refine .inr ⟨hc, fun _ ht => ht.released ?_ ha hnone⟩
  rcases hheld with hs | hs <;> rw [hs] <;> decide

theorem Coherent.recover (h : Coherent s) {w' : World} (hr : Recovered ctx s.world w') :
    Coherent { s with world := w' } := by
  induction hr with
  | refl => exact h
  | tail _ hone ih =>
    cases hone with
    | @failed job hj hs hb ha =>
      exact ih.release ctx (job.failed "worker heartbeat expired" _) hj hs rfl rfl rfl rfl
        (.inr ⟨rfl, rfl⟩) rfl
    | @requeued job hj hs hb ha =>
      exact ih.release ctx (job.requeued _) hj hs rfl rfl rfl rfl (.inl (Nat.lt_succ_self _)) rfl

theorem coherent_step (h : Coherent s) (hm : s.Current m) : Coherent (step ctx s m) := by
  have ho := step_cases ctx h.tidy m
  generalize step ctx s m = s' at ho
  cases ho with
  | same => exact h
  | enqueued hp hid => exact h.enqueue hid _ rfl
  | unclaimed hi hq => exact h.withdraw rfl rfl (Finset.Subset.refl _) fun _ => .inl rfl
  | claimed hi hq hj hp => exact h.claim hj hp
  | @started worker job hc hw hs =>
    refine h.start hc (hm job ?_)
    simp only [saves, hc]
  | @finished worker job processing result summary ht hs hid =>
    refine h.finish ht (hm processing ?_)
    simp only [saves, ht, hid, if_true]
  | @failed _ worker job message hc hw hs ha =>
    obtain ⟨hb, hid⟩ := h.current hc
    rw [← hid] at hb
    exact h.giveUp ctx ((s.current job).failed message s.world.clock) hb hw hs rfl rfl rfl rfl
      (Nat.le_refl _) rfl
  | @requeued _ worker job message hc hw hs ha =>
    obtain ⟨hb, hid⟩ := h.current hc
    rw [← hid] at hb
    exact h.giveUp ctx ((s.current job).requeued message) hb hw hs rfl rfl rfl rfl
      (Nat.le_succ _) rfl
  | @stopped worker =>
    refine h.withdraw rfl rfl (Finset.Subset.refl _) fun other => ?_
    rw [setPhase_phase]
    split
    · exact .inr rfl
    · exact .inl rfl
  | recovered hr => exact h.recover hr
  | expired => exact h.withdraw rfl rfl (Finset.Subset.refl _) fun _ => .inl rfl
  | ticked => exact h.withdraw rfl rfl (Finset.Subset.refl _) fun _ => .inl rfl

/-! Lawful changes. -/

theorem Allowed.refl (job : TranscodeJob) : Allowed m job job :=
  ⟨fun h => absurd rfl h, Nat.le_refl _, fun _ => rfl, fun h hn => absurd h hn⟩

/-- A change along the table that is no completion. -/
theorem allowed_of_transition {before after : TranscodeJob}
    (ht : before.state.canTransition after.state = true) (ha : before.attempt ≤ after.attempt)
    (hc : after.state = .completed → ∃ worker outcome built, m = .finish worker outcome built ∧
      before.state = .processing ∧ before.workerId = some worker) : Allowed m before after := by
  refine ⟨fun _ => ht, ha, fun hterm => ?_, fun h _ => hc h⟩
  rw [(JobState.terminal_iff _).mp hterm] at ht
  cases ht

/-- The records after one save. -/
theorem allowed_save (ctx : Context) (job : TranscodeJob) {w w' : World} {before : TranscodeJob}
    (hb : w.jobs job.id = some before)
    (hjobs : w'.jobs = (w.saved ctx job).jobs) (ha : Allowed m before job) :
    ∀ id before, w.jobs id = some before →
      ∃ after, w'.jobs id = some after ∧ Allowed m before after := by
  intro id old hold
  rw [hjobs, World.saved_jobs]
  by_cases hid : id = job.id
  · rw [hid, hb, Option.some.injEq] at hold
    subst hold
    exact ⟨job, by rw [hid, Function.update_self], ha⟩
  · exact ⟨old, by rw [Function.update_of_ne hid]; exact hold, .refl old⟩

/-- A recovery pass leaves a record alone or takes it from its worker. -/
theorem recovered_records {w w' : World} (h : Recovered ctx w w') {id : Uuid}
    {before : TranscodeJob}
    (hb : w.jobs id = some before) :
    ∃ after, w'.jobs id = some after ∧ (after = before ∨ before.state.Held ∧
      (after.state = .pending ∨ after.state = .failed) ∧ before.attempt ≤ after.attempt) := by
  induction h with
  | refl => exact ⟨before, hb, .inl rfl⟩
  | @tail w₁ w₂ _ hone ih =>
    obtain ⟨mid, hmid, hcase⟩ := ih
    -- Recovery takes up a job in a worker's hands, so only one that this pass left alone so far.
    have hfirst : ∀ job : TranscodeJob, w₁.jobs job.id = some job → job.state.Held → id = job.id →
        job = before := by
      intro job hj hheld hid
      rw [← hid, hmid, Option.some.injEq] at hj
      subst hj
      rcases hcase with he | ⟨-, hs, -⟩
      · exact he
      · rcases hheld with hh | hh <;> rcases hs with hs | hs <;> rw [hh] at hs <;> cases hs
    cases hone with
    | @failed job hj hs _ ha =>
      by_cases hid : id = job.id
      · obtain rfl := hfirst job hj hs hid
        exact ⟨job.failed "worker heartbeat expired" w₁.clock,
          by rw [hid]; exact Function.update_self .., .inr ⟨hs, .inr rfl, Nat.le_refl _⟩⟩
      · exact ⟨mid, by rw [← hmid]; exact Function.update_of_ne hid .., hcase⟩
    | @requeued job hj hs _ ha =>
      by_cases hid : id = job.id
      · obtain rfl := hfirst job hj hs hid
        exact ⟨job.requeued "worker heartbeat expired; requeued",
          by rw [hid]; exact Function.update_self .., .inr ⟨hs, .inl rfl, Nat.le_succ _⟩⟩
      · exact ⟨mid, by rw [← hmid]; exact Function.update_of_ne hid .., hcase⟩

theorem lawful_of_current (h : Coherent s) (hm : s.Current m) : Lawful ctx s m := by
  unfold Lawful
  have ho := step_cases ctx h.tidy m
  generalize step ctx s m = s' at ho
  cases ho with
  | same => exact fun id before hb => ⟨before, hb, .refl before⟩
  | @enqueued probed chosen id₀ id hp hid =>
    intro id' before hb
    refine ⟨before, ?_, .refl before⟩
    have hne : id' ≠ id := by
      intro he
      subst he
      exact hid (h.issued hb)
    rw [← hb]
    exact Function.update_of_ne hne ..
  | unclaimed => exact fun id before hb => ⟨before, hb, .refl before⟩
  | @claimed worker id job hi hq hj hp =>
    have hid : job.id = id := h.tidy.ids hj
    subst hid
    exact allowed_save ctx (job.claimedBy worker s.world.clock) hj rfl
      (allowed_of_transition (by rw [hp]; rfl) (Nat.le_refl _) (fun h => by cases h))
  | @started worker job hc hw hs =>
    have hj := hm job (by simp only [saves, hc])
    exact allowed_save ctx (job.started s.world.clock) hj rfl
      (allowed_of_transition (by rw [hs]; rfl) (Nat.le_refl _) (fun h => by cases h))
  | @finished worker job processing result summary ht hs hid =>
    have hj := hm processing (by simp only [saves, ht, hid, if_true])
    have hsound := h.sound worker
    rw [ht] at hsound
    exact allowed_save ctx (processing.completed s.world.clock) hj rfl
      (allowed_of_transition (by rw [hs]; rfl) (Nat.le_refl _)
        (fun _ => ⟨worker, _, _, rfl, hs, hsound.1⟩))
  | @failed _ worker job message hc hw hs ha =>
    obtain ⟨hb, hid⟩ := h.current hc
    rw [← hid] at hb
    exact allowed_save ctx ((s.current job).failed message s.world.clock) hb rfl
      (allowed_of_transition hs.to_failed (Nat.le_refl _) (fun h => by cases h))
  | @requeued _ worker job message hc hw hs ha =>
    obtain ⟨hb, hid⟩ := h.current hc
    rw [← hid] at hb
    exact allowed_save ctx ((s.current job).requeued message) hb rfl
      (allowed_of_transition hs.to_pending (Nat.le_succ _) (fun h => by cases h))
  | stopped => exact fun id before hb => ⟨before, hb, .refl before⟩
  | recovered hr =>
    intro id before hb
    obtain ⟨after, hafter, hcase⟩ := recovered_records hr hb
    refine ⟨after, hafter, ?_⟩
    rcases hcase with rfl | ⟨hheld, hs | hs, ha⟩
    · exact .refl _
    · exact allowed_of_transition (by rw [hs]; exact hheld.to_pending) ha
        (fun h => by rw [hs] at h; cases h)
    · exact allowed_of_transition (by rw [hs]; exact hheld.to_failed) ha
        (fun h => by rw [hs] at h; cases h)
  | expired => exact fun id before hb => ⟨before, hb, .refl before⟩
  | ticked => exact fun id before hb => ⟨before, hb, .refl before⟩

/-- A copy saved after it was overtaken: the change is not allowed. -/
theorem not_allowed_of_overtaken {stored after : TranscodeJob}
    (h : after.attempt < stored.attempt ∨ stored.state = .failed) (hs : after.state ≠ .failed) :
    ¬ Allowed m stored after := by
  intro ha
  rcases h with hlt | hf
  · have hle := ha.attempt
    omega
  · exact hs ((ha.terminal (.inr hf)).trans hf)

theorem current_of_lawful (h : Coherent s) (hl : Lawful ctx s m) : s.Current m := by
  intro copy hsaves
  -- Either the copy is stored, or the save replaces a record that overtook it.
  have hover : ∀ (worker : Uuid) (after : TranscodeJob), (s.phase worker).copy = some copy →
      (step ctx s m).world.jobs copy.id = some after → after.attempt = copy.attempt →
      after.state ≠ .failed → s.world.jobs copy.id = some copy := by
    intro worker after hc hafter ha hs
    obtain ⟨stored, hstored, rfl | ⟨-, hlt⟩⟩ := h.tracks hc
    · exact hstored
    · obtain ⟨after', hafter', hallowed⟩ := hl _ _ hstored
      rw [hafter, Option.some.injEq] at hafter'
      subst hafter'
      exact absurd hallowed (not_allowed_of_overtaken (by rw [ha]; exact hlt) hs)
  cases m with
  | start worker =>
    cases hc : s.phase worker with
    | claimed job =>
      simp only [saves, hc, Option.some.injEq] at hsaves
      subst hsaves
      have hsound := h.sound worker
      rw [hc] at hsound
      refine hover worker (job.started s.world.clock) (by rw [hc]; rfl) ?_ rfl nofun
      rw [step_start hc hsound.1 hsound.2]
      exact Function.update_self ..
    | _ =>
      simp only [saves, hc] at hsaves
      cases hsaves
  | finish worker outcome built =>
    cases outcome with
    | error e => cases hsaves
    | ok result =>
      cases built with
      | error e => cases hsaves
      | ok summary =>
        cases hc : s.phase worker with
        | transcoding job processing =>
          simp only [saves, hc] at hsaves
          split at hsaves
          · next hid =>
            cases hsaves
            have hsound := h.sound worker
            rw [hc] at hsound
            refine hover worker (copy.completed s.world.clock) (by rw [hc]; rfl) ?_ rfl nofun
            rw [step_finish hc hsound.2.1 hid]
            exact Function.update_self ..
          · cases hsaves
        | _ =>
          simp only [saves, hc] at hsaves
          cases hsaves
  | _ => cases hsaves

theorem coherent_initial : Coherent initial where
  tidy := by
    refine ⟨fun h => ?_, fun s id => ?_⟩
    · cases h
    · simp [initial, World.empty]
  issued := nofun
  sound := fun _ => trivial
  tracks := nofun

/-- Along a run from the empty server all changes of stored records are lawful exactly when
    every start of a transcode and every summary finds its worker's copy still stored. -/
theorem changes_lawful_iff (ctx : Context) (moves : List Move) :
    Meets (step ctx) (Lawful ctx) initial moves ↔ Meets (step ctx) Current initial moves :=
  (meets_congr Coherent (fun _ _ => coherent_step)
    (fun _ _ h => ⟨lawful_of_current h, current_of_lawful h⟩) coherent_initial).symm

/-- Worker 7 transcodes for longer than its heartbeat lives, and the job is requeued. -/
def overtakenRun : List Move :=
  [.enqueue (mp4File "/tmp/input/a.mp4") defaultMatch 1, .claim 7, .start 7, .expire 1,
    .recover [.order [], .order [1]]]

def staleFinish : Move := .finish 7 (.ok (quickResult "/tmp/output/a.mp4")) (.ok (summaryOf 1))

/-- The worker then completes the job from its old copy: pending becomes completed, and the
    second attempt becomes the first. -/
theorem stale_completion :
    ¬ Meets (step smallContext) (Lawful smallContext) initial (overtakenRun ++ [staleFinish]) := by
  intro h
  have hl : Lawful smallContext (runFrom (step smallContext) initial overtakenRun) staleFinish :=
    ((meets_append _ _ _).mp h).2.1
  have hbefore : ((runFrom (step smallContext) initial overtakenRun).world.jobs 1).map
      (·.attempt) = some 2 := by decide
  have hafter : ((step smallContext (runFrom (step smallContext) initial overtakenRun)
      staleFinish).world.jobs 1).map (·.attempt) = some 1 := by decide
  obtain ⟨before, hb, hb2⟩ := Option.map_eq_some_iff.mp hbefore
  obtain ⟨after, ha, hallowed⟩ := hl 1 before hb
  rw [ha, Option.map_some, Option.some.injEq] at hafter
  have hle := hallowed.attempt
  omega

end Fleet
end Vshift
