import Vshift.Processes

/- Saves of different processes, interleaved at single commands.

   A save reads the record, leaves the set of the state it read, writes the record
   and joins the set of its own state. `SaveStage` is how far a save has come. As long
   as no record is read while another save of the job, to another state, is under
   way, the saves of one job under way at once all lead to one state, and the sets
   are never wrong, only late (`InStep`): an id missing from the set of its record
   is that of a save that has left a set or written and has yet to join.
   `concurrent_saves_tidy` is what is left when all have returned, and
   `saves_overlap` a run where two saves overlap. -/
namespace Vshift
open Command Program

abbrev Savers := Pool World TranscodeJob Cmd Reply Exn

abbrev Saver := Process TranscodeJob Cmd Reply Exn

/-- A process is one call of `RedisJobRepository.save`; nothing else happens. -/
def saving (ctx : Context) : System World TranscodeJob Cmd Choice Empty Reply Exn where
  machine := redis
  code := saveJob ctx
  env e _ := nomatch e

/-- The save has read the record and has not returned. -/
def Saver.Midway (p : Saver) : Prop := p.past ≠ [] ∧ ¬ p.Returned

instance (p : Saver) : Decidable p.Midway := inferInstanceAs (Decidable (_ ∧ _))

/-- The id of each stored job is in the set of its state and in no other. -/
def World.Indexed (w : World) : Prop :=
  ∀ id job, w.jobs id = some job → ∀ s, id ∈ w.stateIndex s ↔ s = job.state

/-- No save reads the record of a job while another save of it, to another state, is under way. -/
def ReadsApart (s : Savers) : Action TranscodeJob Choice Empty → Prop
  | .exec pid _ => ∀ p ∈ s.procs[pid]?, p.past = [] → ∀ q ∈ s.procs, Saver.Midway q →
      q.label.id = p.label.id → q.label.state = p.label.state
  | _ => True

instance (s : Savers) : ∀ a, Decidable (ReadsApart s a)
  | .exec pid _ => inferInstanceAs (Decidable (∀ p ∈ s.procs[pid]?, p.past = [] →
      ∀ q ∈ s.procs, Saver.Midway q → q.label.id = p.label.id → q.label.state = p.label.state))
  | .spawn _ => isTrue trivial
  | .kill _ => isTrue trivial
  | .env _ => isTrue trivial

/-! The protocol. -/

inductive SaveStage where
  | idle
  /-- It has read a record in this state, or none. -/
  | read (old : Option JobState)
  | left
  | stored
  | done
  deriving DecidableEq

/-- The record a save is to store, and how far it has come. -/
structure Progress where
  job : TranscodeJob
  stage : SaveStage

namespace Progress

def initial (job : TranscodeJob) : Progress := ⟨job, .idle⟩

def Underway (t : Progress) : Prop := t.stage ≠ .idle ∧ t.stage ≠ .done

theorem underway_of {t : Progress}
    (h : (∃ old, t.stage = .read old) ∨ t.stage = .left ∨ t.stage = .stored) : t.Underway := by
  unfold Underway
  obtain ⟨old, h⟩ | h | h := h <;> rw [h] <;> exact ⟨SaveStage.noConfusion, SaveStage.noConfusion⟩

/-- It has left a set, or written, and has yet to join the set of its state. -/
def Owes (id : Uuid) (t : Progress) : Prop := t.job.id = id ∧ (t.stage = .left ∨ t.stage = .stored)

end Progress

def stages : Protocol Cmd Reply Progress where
  allows t c := match t.stage, c with
    | .idle, .getJob id => id = t.job.id
    | .read old, .sremState s id => old = some s ∧ s ≠ t.job.state ∧ id = t.job.id
    | .read old, .setJob job _ => job = t.job ∧ ∀ s, old = some s → s = t.job.state
    | .left, .setJob job _ => job = t.job
    | .stored, .saddState s id => s = t.job.state ∧ id = t.job.id
    | _, _ => False
  expects _ _ _ := True
  next t
    | .getJob _, existing => { t with stage := .read (existing.map (·.state)) }
    | .sremState _ _, _ => { t with stage := .left }
    | .setJob _ _, _ => { t with stage := .stored }
    | .saddState _ _, _ => { t with stage := .done }
    | _, _ => t

variable {ctx : Context}

theorem saveJob_stages (job : TranscodeJob) :
    (saveJob ctx job).Obeys stages (fun _ t => t.stage = .done) (.initial job) := by
  have hset : ∀ stage, stages.allows ⟨job, stage⟩ (.setJob job ctx.queue.ttl.val) →
      Replaces stages ctx job (fun _ t => t.stage = .done) ⟨job, stage⟩ := by
    intro stage h
    exact ⟨h, fun _ _ => ⟨⟨rfl, rfl⟩, fun _ _ => rfl⟩⟩
  apply saveJob_obeys
  · exact rfl
  · intro existing _ hsame
    apply hset
    refine ⟨rfl, ?_⟩
    intro s hs
    obtain ⟨old, hold, hstate⟩ := Option.map_eq_some_iff.mp hs
    rw [← hstate, hsame old hold]
  · intro old _ hne
    refine ⟨⟨rfl, hne, rfl⟩, ?_⟩
    intro r _
    exact hset .left rfl

/-! The invariant. -/

/-- What a save under way knows of the store, as long as the others lead to its own state. -/
def Progress.Truthful (w : World) (t : Progress) : Prop :=
  match t.stage with
  | .read old => (w.jobs t.job.id).map (·.state) = old ∨
      (w.jobs t.job.id).map (·.state) = some t.job.state
  | .left => (∀ s, t.job.id ∉ w.stateIndex s) ∨
      (w.jobs t.job.id).map (·.state) = some t.job.state
  | .stored => (w.jobs t.job.id).map (·.state) = some t.job.state
  | _ => True

/-- A save keeps what it knows while the record of its job stays and its id joins no set. -/
theorem Progress.Truthful.mono {w w' : World} {t : Progress} (h : t.Truthful w)
    (hjob : w'.jobs t.job.id = w.jobs t.job.id)
    (hsets : ∀ s, t.job.id ∈ w'.stateIndex s → t.job.id ∈ w.stateIndex s) : t.Truthful w' := by
  obtain ⟨job, stage⟩ := t
  unfold Progress.Truthful at h ⊢
  rw [hjob]
  cases stage with
  | left => exact h.imp_left fun hnone s hin => hnone s (hsets s hin)
  | _ => exact h

/-- What a save knows, whatever it has read, is right of a record in the state it leads to. -/
theorem Progress.truthful_of_state {w : World} {t : Progress}
    (h : t.Underway → (w.jobs t.job.id).map (·.state) = some t.job.state) : t.Truthful w := by
  unfold Progress.Truthful
  split
  · next old hstage => exact .inr (h (underway_of (.inl ⟨old, hstage⟩)))
  · next hstage => exact .inr (h (underway_of (.inr (.inl hstage))))
  · next hstage => exact h (underway_of (.inr (.inr hstage)))
  · trivial

/-- Saves of one job that are under way lead to one state. -/
def Progress.Alike (t u : Progress) : Prop :=
  t.Underway → u.Underway → t.job.id = u.job.id → t.job.state = u.job.state

structure InStep (w : World) (K : Nat → Option Progress) : Prop where
  ids : ∀ {id job}, w.jobs id = some job → job.id = id
  sound : ∀ s id, id ∈ w.stateIndex s → (w.jobs id).map (·.state) = some s
  complete : ∀ id job, w.jobs id = some job →
    Backed (id ∈ w.stateIndex job.state) (Progress.Owes id) K
  truthful : Each (Progress.Truthful w) K
  alike : EachTwo Progress.Alike K

section
variable {w : World} {K : Nat → Option Progress} {pid : Nat} {t : Progress}

theorem inStep_initial (ht : w.Tidy) : InStep w (fun _ => none) := by
  refine ⟨ht.ids, ?_, ?_, ?_, ?_⟩
  · intro s id h
    obtain ⟨job, hj, hs⟩ := (ht.index s id).mp h
    rw [hj, ← hs, Option.map_some]
  · intro id job hj
    exact .inl ((ht.index _ id).mpr ⟨job, hj, rfl⟩)
  · intro i u h
    cases h
  · intro i j u v _ h
    cases h

theorem InStep.spawn (h : InStep w K) (hnone : K pid = none) (job : TranscodeJob) :
    InStep w (Function.update K pid (some (.initial job))) := by
  refine ⟨h.ids, h.sound, fun id job hj => (h.complete id job hj).start hnone, ?_, ?_⟩
  · exact Each.set trivial fun i u _ hu => h.truthful i u hu
  · apply h.alike.set
    intro i u _ _
    exact ⟨fun ht => absurd rfl ht.1, fun _ ht => absurd rfl ht.1⟩

/-- The record is read. -/
theorem InStep.get (h : InStep w K) (hk : K pid = some t) (hidle : t.stage = .idle)
    (hapart : ∀ i u, i ≠ pid → K i = some u → u.Underway → u.job.id = t.job.id →
      u.job.state = t.job.state) :
    InStep w (Function.update K pid
      (some { t with stage := .read ((w.jobs t.job.id).map (·.state)) })) := by
  refine ⟨h.ids, h.sound, ?_, ?_, ?_⟩
  · intro id job hj
    refine (h.complete id job hj).step hk .inl ?_
    intro ⟨_, howes⟩
    rw [hidle] at howes
    rcases howes with h | h <;> cases h
  · exact Each.set (.inl rfl) fun i u _ hu => h.truthful i u hu
  -- the others under way lead to the state of the one that reads now
  · apply h.alike.set
    intro i u hi hu
    exact ⟨fun _ hunder hid => (hapart i u hi hu hunder hid.symm).symm,
      fun hunder _ hid => hapart i u hi hu hunder hid⟩

/-- A save under way goes on. -/
theorem InStep.alike_next (h : InStep w K) (hk : K pid = some t) (hunder : t.Underway)
    (stage : SaveStage) :
    EachTwo Progress.Alike (Function.update K pid (some { t with stage })) := by
  apply h.alike.set
  intro i u hi hu
  exact ⟨fun _ hu' hid => h.alike pid i t u (Ne.symm hi) hk hu hunder hu' hid,
    fun hu' _ hid => h.alike i pid u t hi hu hk hu' hunder hid⟩

/-- The set of the state read is left. -/
theorem InStep.leave (h : InStep w K) (hk : K pid = some t) {s : JobState}
    (hread : t.stage = .read (some s)) (r : Reply (.sremState s t.job.id)) :
    InStep (w.effect (.sremState s t.job.id) r)
      (Function.update K pid (some { t with stage := .left })) := by
  have hunder : t.Underway := Progress.underway_of (.inl ⟨_, hread⟩)
  have hsub : ∀ {s' id}, id ∈ (w.effect (.sremState s t.job.id) r).stateIndex s' →
      id ∈ w.stateIndex s' := fun hid => ((World.mem_sremState r).mp hid).1
  refine ⟨h.ids, fun s' id hid => h.sound s' id (hsub hid), ?_, ?_, h.alike_next hk hunder _⟩
  · intro id job hj
    refine (h.complete id job hj).step hk ?_ ?_
    · intro hin
      by_cases hid : id = t.job.id
      · exact .inr ⟨hid.symm, .inl rfl⟩
      · exact .inl ((World.mem_sremState r).mpr ⟨hin, fun hsame => hid hsame.2⟩)
    · intro ⟨_, howes⟩
      rw [hread] at howes
      rcases howes with h | h <;> cases h
  · apply Each.set
    · -- the set left was the only one that could hold the id, if no one else has written
      have htrue := h.truthful pid t hk
      unfold Progress.Truthful at htrue
      rw [hread] at htrue
      refine htrue.imp_left fun hold s' hin => ?_
      obtain ⟨hin, hnot⟩ := (World.mem_sremState r).mp hin
      have hs := h.sound s' _ hin
      rw [hold, Option.some.injEq] at hs
      exact hnot ⟨hs.symm, rfl⟩
    · exact fun i u _ hu => (h.truthful i u hu).mono rfl fun _ => hsub

/-- A save that has left the set it was to leave finds the id in no set but its own. -/
theorem InStep.only_own (h : InStep w K) (hk : K pid = some t)
    (hready : t.stage = .left ∨ ∃ old, t.stage = .read old ∧ ∀ s, old = some s → s = t.job.state)
    {s : JobState} (hin : t.job.id ∈ w.stateIndex s) : s = t.job.state := by
  have hs := h.sound s _ hin
  have htrue := h.truthful pid t hk
  unfold Progress.Truthful at htrue
  rcases hready with hstage | ⟨old, hstage, hold⟩
  · rw [hstage] at htrue
    rcases htrue with hnone | hnow
    · exact absurd hin (hnone s)
    · rw [hs, Option.some.injEq] at hnow
      exact hnow
  · rw [hstage] at htrue
    rcases htrue with hread | hnow
    · exact hold s (hread.symm.trans hs)
    · rw [hs, Option.some.injEq] at hnow
      exact hnow

/-- The record is written. -/
theorem InStep.store (h : InStep w K) (hk : K pid = some t)
    (hready : t.stage = .left ∨ ∃ old, t.stage = .read old ∧ ∀ s, old = some s → s = t.job.state)
    {ex : Nat} (r : Reply (.setJob t.job ex)) :
    InStep (w.effect (.setJob t.job ex) r)
      (Function.update K pid (some { t with stage := .stored })) := by
  have hunder : t.Underway := by
    apply Progress.underway_of
    rcases hready with hs | ⟨old, hs, -⟩
    · exact .inr (.inl hs)
    · exact .inl ⟨old, hs⟩
  have hself : (w.effect (.setJob t.job ex) r).jobs t.job.id = some t.job := by
    rw [World.jobs_setJob, if_pos rfl]
  have hother : ∀ id, id ≠ t.job.id → (w.effect (.setJob t.job ex) r).jobs id = w.jobs id := by
    intro id hid
    rw [World.jobs_setJob, if_neg hid]
  refine ⟨?_, ?_, ?_, ?_, h.alike_next hk hunder _⟩
  · intro id job hj
    by_cases hid : id = t.job.id
    · rw [hid, hself, Option.some.injEq] at hj
      rw [← hj, hid]
    · rw [hother id hid] at hj
      exact h.ids hj
  · intro s id hin
    by_cases hid : id = t.job.id
    · subst hid
      rw [hself, Option.map_some, h.only_own hk hready hin]
    · rw [hother id hid]
      exact h.sound s id hin
  · intro id job hj
    by_cases hid : id = t.job.id
    -- from now on this save owes the id to the set of the new state
    · exact .inr ⟨pid, _, Function.update_self .., hid.symm, .inr rfl⟩
    · rw [hother id hid] at hj
      exact (h.complete id job hj).step hk .inl fun howes => absurd howes.1.symm hid
  · apply Each.set
    · show ((w.effect (.setJob t.job ex) r).jobs t.job.id).map (·.state) = some t.job.state
      rw [hself, Option.map_some]
    · intro i u hi hu
      by_cases hid : u.job.id = t.job.id
      · apply Progress.truthful_of_state
        intro hu'
        have halike := h.alike pid i t u (Ne.symm hi) hk hu hunder hu' hid.symm
        rw [hid, hself, Option.map_some, halike]
      · exact (h.truthful i u hu).mono (hother _ hid) fun _ => id

/-- The set of the new state is joined. -/
theorem InStep.join (h : InStep w K) (hk : K pid = some t) (hstored : t.stage = .stored)
    (r : Reply (.saddState t.job.state t.job.id)) :
    InStep (w.effect (.saddState t.job.state t.job.id) r)
      (Function.update K pid (some { t with stage := .done })) := by
  have hunder : t.Underway := Progress.underway_of (.inr (.inr hstored))
  have hnow : (w.jobs t.job.id).map (·.state) = some t.job.state := by
    have htrue := h.truthful pid t hk
    unfold Progress.Truthful at htrue
    rw [hstored] at htrue
    exact htrue
  refine ⟨h.ids, ?_, ?_, ?_, h.alike_next hk hunder _⟩
  · intro s id hin
    rcases (World.mem_saddState r).mp hin with hin | ⟨hs, hid⟩
    · exact h.sound s id hin
    · rw [hs, hid]
      exact hnow
  · intro id job hj
    refine (h.complete id job hj).step hk ?_ ?_
    · exact fun hin => .inl ((World.mem_saddState r).mpr (.inl hin))
    -- what was owed is paid
    · intro ⟨hid, _⟩
      have hj' : w.jobs id = some job := hj
      rw [hid, hj', Option.map_some, Option.some.injEq] at hnow
      exact .inl ((World.mem_saddState r).mpr (.inr ⟨hnow, hid.symm⟩))
  · apply Each.set
    · trivial
    · intro i u hi hu
      by_cases hid : u.job.id = t.job.id
      · apply Progress.truthful_of_state
        intro hu'
        have halike := h.alike pid i t u (Ne.symm hi) hk hu hunder hu' hid.symm
        show (w.jobs u.job.id).map (·.state) = some u.job.state
        rw [hid, hnow, halike]
      · refine (h.truthful i u hu).mono rfl fun s hin => ?_
        rcases (World.mem_saddState r).mp hin with hin | ⟨_, hsame⟩
        · exact hin
        · exact absurd hsame hid

end

/-! Runs. -/

/-- What has not begun has executed nothing. -/
theorem past_of_idle {job : TranscodeJob} {past : List (Event Cmd Reply)}
    (h : stages.Kept (.initial job) past) :
    (stages.after (.initial job) past).stage = .idle → past = [] := by
  apply Protocol.Kept.after (fun past t => t.stage = .idle → past = []) ?_ ?_ h
  · exact fun _ => rfl
  · intro past t c r _ hallow _ hidle
    obtain ⟨job, stage⟩ := t
    cases stage <;> cases c <;> first | exact hallow.elim | cases hidle

theorem job_after (job : TranscodeJob) (past : List (Event Cmd Reply)) :
    (stages.after (.initial job) past).job = job := by
  induction past with
  | nil => rfl
  | cons e past ih =>
    obtain ⟨c, r⟩ := e
    cases c <;> exact ih

abbrev Keeping (s : Savers) : Prop :=
  Obeying stages Progress.initial (fun t => t.stage = .done) s ∧
    InStep s.store (s.knows stages Progress.initial)

/-- A save under way has read a record and has not returned. -/
theorem midway_of {s : Savers} (hob : Obeying stages Progress.initial (fun t => t.stage = .done) s)
    {q : Saver} (hq : q ∈ s.procs)
    (h : (stages.after (.initial q.label) q.past).Underway) : Saver.Midway q := by
  refine ⟨fun hnil => h.1 ?_, fun hreturned => h.2 ?_⟩
  · rw [hnil]
    rfl
  · unfold Process.Returned at hreturned
    split at hreturned
    · next hrest => exact (hob q hq).2 _ hrest
    · exact hreturned.elim

theorem keeping_step (s : Savers) (a : Action TranscodeJob Choice Empty) (h : Keeping s)
    (hapart : ReadsApart s a) : Keeping ((saving ctx).step s a) := by
  obtain ⟨hob, hI⟩ := h
  apply pool_step InStep hob hI (S := saving ctx)
  · exact fun job _ => saveJob_stages job
  · exact fun job pid _ hnone => hI.spawn hnone job
  · intro pid x job past c k r ha hproc hk hallow hr
    have hjob := job_after job past
    have hidle := past_of_idle (hob _ (List.mem_of_getElem? hproc)).1
    generalize stages.after (.initial job) past = t at *
    refine ⟨trivial, ?_⟩
    obtain ⟨stored, stage⟩ := t
    subst hjob ha
    cases stage <;> cases c <;> try exact hallow.elim
    · -- the condition speaks of the processes, the invariant of what they know
      cases hallow
      cases hr
      apply hI.get hk rfl
      intro i u _ hu hunder hid
      obtain ⟨q, hq, rfl⟩ := Pool.knows_iff.mp hu
      have hmid := midway_of hob (List.mem_of_getElem? hq) hunder
      rw [job_after] at hid ⊢
      exact hapart _ hproc (hidle rfl) q (List.mem_of_getElem? hq) hmid hid
    · next old job ex =>
      obtain ⟨rfl, hstay⟩ := hallow
      exact hI.store hk (.inr ⟨old, rfl, hstay⟩) r
    · next old s' id =>
      obtain ⟨rfl, -, rfl⟩ := hallow
      exact hI.leave hk rfl r
    · next job ex =>
      cases hallow
      exact hI.store hk (.inl rfl) r
    · next s' id =>
      obtain ⟨rfl, rfl⟩ := hallow
      exact hI.join hk rfl r
  · exact fun e => nomatch e

theorem Keeping.indexed {s : Savers} (h : Keeping s)
    (hall : ∀ p ∈ s.procs, p.Returned) : s.store.Indexed := by
  obtain ⟨hob, hI⟩ := h
  intro id job hj s'
  constructor
  · intro hin
    have hs := hI.sound s' id hin
    rw [hj, Option.map_some, Option.some.injEq] at hs
    exact hs.symm
  · intro hs
    subst hs
    rcases hI.complete id job hj with hin | ⟨pid, t, hk, howes⟩
    · exact hin
    · -- who has returned has joined the set
      obtain ⟨q, hq, rfl⟩ := Pool.knows_iff.mp hk
      have hmem := List.mem_of_getElem? hq
      exact absurd (hall q hmem) (midway_of hob hmem (Progress.underway_of (.inr howes.2))).2

/-- Whatever the saves and however their commands interleave: as long as no record is read
    while another save of the job, to another state, is under way, the sets are those of the
    records once all saves have returned. -/
theorem concurrent_saves_indexed (ctx : Context) {w : World} (ht : w.Tidy)
    (as : List (Action TranscodeJob Choice Empty))
    (h : Meets (saving ctx).step ReadsApart ⟨w, []⟩ as)
    (hall : ∀ p ∈ ((saving ctx).run ⟨w, []⟩ as).procs, p.Returned) :
    ((saving ctx).run ⟨w, []⟩ as).store.Indexed := by
  apply Keeping.indexed ?_ hall
  refine run_invariant Keeping keeping_step ⟨?_, inStep_initial ht⟩ h
  exact fun p hp => nomatch hp

/-- One job is claimed while another one is enqueued. -/
def savesApart : List (Action TranscodeJob Choice Empty) :=
  let first := newJob smallContext (mp4File "/tmp/input/a.mp4") defaultMatch 1 10
  let second := newJob smallContext (mp4File "/tmp/input/b.mp4") defaultMatch 2 20
  [.spawn first, .exec 0 .go, .exec 0 .go, .exec 0 .go,
    .spawn { first with state := .claimed }, .spawn second,
    .exec 1 .go, .exec 2 .go, .exec 1 .go, .exec 2 .go, .exec 1 .go, .exec 2 .go, .exec 1 .go]

/-- A worker completes a job while the server requeues it: both read `processing`, and the id is
    left in two sets. -/
def savesOverlap : List (Action TranscodeJob Choice Empty) :=
  let job := newJob smallContext (mp4File "/tmp/input/a.mp4") defaultMatch 1 10
  [.spawn { job with state := .processing }, .exec 0 .go, .exec 0 .go, .exec 0 .go,
    .spawn { job with state := .completed }, .spawn job,
    .exec 1 .go, .exec 2 .go, .exec 1 .go, .exec 1 .go, .exec 1 .go, .exec 2 .go, .exec 2 .go,
    .exec 2 .go]

theorem concurrent_saves_indexed_apart :
    ((saving smallContext).run ⟨.empty, []⟩ savesApart).store.Indexed :=
  concurrent_saves_indexed smallContext World.empty_tidy savesApart (by decide) (by decide)

theorem saves_overlap : ¬ ∀ (ctx : Context) (w : World), w.Tidy →
    ∀ as : List (Action TranscodeJob Choice Empty),
      (∀ p ∈ ((saving ctx).run ⟨w, []⟩ as).procs, p.Returned) →
      ((saving ctx).run ⟨w, []⟩ as).store.Indexed := by
  intro h
  have hindexed := h smallContext .empty World.empty_tidy savesOverlap (by decide)
  have hin := (hindexed 1 _ rfl .completed).mp (by decide)
  cases hin

end Vshift
