import Vshift.Records

/- Lifetimes: what the passing of time does to the records of jobs.

   A job's record is set with `EX queue.ttl` at every save, while the queue, the
   state indexes and the processed keys never lapse. So a record that is not
   saved again for `queue.ttl` seconds is gone, finished or not, and what still
   names the job is left behind: `lost_in_queue`. `none_lost_unless_lapsed`
   says that nothing else is ever lost. -/
namespace Vshift
open Command Program

/-- The clock does not go back, and a key is removed once its TTL has elapsed since it was
    last set. -/
def KeepsTime (s : Cluster) : Act → Prop
  | .env (.clock t) => s.store.clock ≤ t
  | .env (.expire key) => s.store.expiresAt key ≤ s.store.clock
  | _ => True

instance (s : Cluster) : ∀ a, Decidable (KeepsTime s a)
  | .env (.clock t) => inferInstanceAs (Decidable (s.store.clock ≤ t))
  | .env (.expire key) => inferInstanceAs (Decidable (s.store.expiresAt key ≤ s.store.clock))
  | .env (.media _ _) => isTrue trivial
  | .spawn _ => isTrue trivial
  | .exec _ _ => isTrue trivial
  | .kill _ => isTrue trivial

/-- The job was stored as completed or failed at some time. -/
def Cluster.Finished (s : Cluster) (id : Uuid) : Prop :=
  ∃ p ∈ s.procs, ∃ job, Proc.Wrote p job ∧ job.id = id ∧ job.state.Terminal

/-- `ClaimJob` has popped this id and is about to read its record. -/
def Proc.Claims (p : Proc) (id : Uuid) : Prop :=
  (∃ past, p.past = ⟨.brpopPending, some id⟩ :: past) ∧ p.next? = some (.getJob id)

/-- No unfinished job is missing from the store, no claim finds its id unknown, and no path is
    marked with a job that is gone before it finished, except for excused ids. -/
structure NoneLost (s : Cluster) (excused : Uuid → Prop) : Prop where
  stored : ∀ first, s.Enqueued first → ¬ s.Finished first.id →
    s.store.jobs first.id ≠ none ∨ excused first.id
  claimed : ∀ p ∈ s.procs, ∀ id, Proc.Claims p id → s.store.jobs id ≠ none ∨ excused id
  marked : ∀ path id, s.store.processed path = some id → ¬ s.Finished id →
    s.store.jobs id ≠ none ∨ excused id

/-- `queue.ttl` seconds have passed since the record of this job was last saved. -/
def World.Lapsed (w : World) (id : Uuid) : Prop := w.expiresAt (.job id) ≤ w.clock

/-- The job was enqueued, and its record has lapsed since it was last saved. -/
def Cluster.EnqueuedAndLapsed (s : Cluster) (id : Uuid) : Prop :=
  (∃ first, s.Enqueued first ∧ first.id = id) ∧ s.store.Lapsed id

/-- A record is there, or it was not saved for its TTL. -/
def World.Lasts (w : World) (id : Uuid) : Prop := w.jobs id ≠ none ∨ w.Lapsed id

variable {ctx : Context} {w : World} {K : Nat → Option Memory}

/-- Setting another key leaves the deadline of a record. -/
theorem World.Lapsed.set {id : Uuid} (h : w.Lapsed id) (key : VolatileKey) {lapse : DateTime}
    (hkey : key ≠ .job id) {w' : World}
    (hexpires : w'.expiresAt = Function.update w.expiresAt key lapse)
    (hclock : w'.clock = w.clock) : w'.Lapsed id := by
  unfold World.Lapsed
  rw [hexpires, hclock, Function.update_of_ne (Ne.symm hkey)]
  exact h

/-- No command removes a record or shortens its life. -/
theorem World.Lasts.effect {id : Uuid} (h : w.Lasts id) (c : Cmd) (r : Reply c) :
    (w.effect c r).Lasts id := by
  cases c with
  | setJob job ex =>
    by_cases hid : id = job.id
    · subst hid
      exact .inl (by simp [World.jobs_setJob])
    · rcases h with hj | hl
      · exact .inl (by rw [World.jobs_setJob, if_neg hid]; exact hj)
      · exact .inr (hl.set (.job job.id) (fun he => hid (VolatileKey.job.inj he).symm) rfl rfl)
  | setSummary summary ex =>
    exact h.imp (fun hj => hj) fun hl => hl.set (.jobSummary summary.jobId) (by simp) rfl rfl
  | setWorker worker ex =>
    exact h.imp (fun hj => hj) fun hl => hl.set (.worker worker.workerId) (by simp) rfl rfl
  | setHeartbeat other worker ex =>
    exact h.imp (fun hj => hj) fun hl => hl.set (.jobHeartbeat other) (by simp) rfl rfl
  | _ => exact h

/-- Time passes and keys lapse, but no record goes before its time. -/
theorem World.Lasts.environment {id : Uuid} (h : w.Lasts id) {e : EnvEvent}
    (hclock : ∀ t, e = .clock t → w.clock ≤ t)
    (hexpire : ∀ key, e = .expire key → w.expiresAt key ≤ w.clock) :
    (World.environment e w).Lasts id := by
  cases e with
  | media path outcome => exact h
  | clock t => exact h.imp (fun hj => hj) (fun hl => Nat.le_trans hl (hclock t rfl))
  | expire key =>
    cases key with
    | job gone =>
      by_cases hid : id = gone
      · subst hid
        exact .inr (hexpire _ rfl)
      · rcases h with hj | hl
        · refine .inl (fun hnone => hj ?_)
          exact (Function.update_of_ne hid ..).symm.trans hnone
        · exact .inr hl
    | _ => exact h

/-- Only a save of an enqueuing process adds to what was written. -/
theorem written_next {pid : Nat} {t : Memory} {c : Cmd} {r : Reply c} (hk : K pid = some t)
    {job : TranscodeJob}
    (hj : job ∈ written (Function.update K pid (some ((memory ctx).next t c r)))) :
    job ∈ written K ∨ ∃ ex, c = .setJob job ex := by
  obtain ⟨i, u, hu, hj⟩ := hj
  rcases known_update hu with ⟨-, hut⟩ | ⟨-, hu⟩
  · subst hut
    cases c with
    | setJob saved ex =>
      simp only [memory] at hj
      split at hj
      · rcases List.mem_cons.mp hj with hj | hj
        · exact .inr ⟨ex, by rw [hj]⟩
        · exact .inl ⟨pid, t, hk, hj⟩
      · exact .inl ⟨pid, t, hk, hj⟩
    | _ => exact .inl ⟨pid, t, hk, hj⟩
  · exact .inl ⟨i, u, hu, hj⟩

/-- Every job written lasts. -/
structure Lasting (ctx : Context) (w : World) (K : Nat → Option Memory) : Prop where
  recorded : Recorded ctx w K
  lasts : ∀ job ∈ written K, w.Lasts job.id

/-- Every process keeps to what it remembers, and every job written lasts. -/
def Lasts (ctx : Context) (s : Cluster) : Prop :=
  Obeying (memory ctx) Memory.initial (fun _ => True) s ∧
    Lasting ctx s.store (s.knows (memory ctx) Memory.initial)

theorem KeepsTime.timeFlows {s : Cluster} {a : Act} (h : KeepsTime s a) : TimeFlows s a := by
  cases a with
  | env e =>
    cases e with
    | clock t => exact h
    | _ => trivial
  | _ => trivial

theorem lasts_step (s : Cluster) (a : Act) (h : Lasts ctx s) (hok : KeepsTime s a) :
    Lasts ctx ((deployment ctx).step s a) := by
  obtain ⟨hob, hlasting⟩ := h
  -- the records are those of `recording_step`; what is left is that they last
  have hrec := recording_step s a ⟨hob, hlasting.recorded⟩ hok.timeFlows
  have hlasts := pool_step (fun w K => ∀ job ∈ written K, w.Lasts job.id) hob hlasting.lasts
    (S := deployment ctx) (a := a) (fun l _ => code_memory ctx l) ?_ ?_ ?_
  · exact ⟨hrec.1, hrec.2, hlasts.2⟩
  · intro l pid _ hnone job hj
    rw [written_start hnone rfl] at hj
    exact hlasting.lasts job hj
  · intro pid x l past c k r _ _ hk ha hr
    refine ⟨(hlasting.recorded.exec hk ha hr).1, fun job hj => ?_⟩
    rcases written_next hk hj with hj | ⟨ex, rfl⟩
    · exact (hlasting.lasts job hj).effect c r
    · exact .inl (by simp [deployment, redis, World.effect])
  · intro e he job hj
    subst he
    refine (hlasting.lasts job hj).environment (fun t ht => ?_) (fun key hkey => ?_)
    · subst ht
      exact hok
    · subst hkey
      exact hok

theorem lasts_initial : Lasts ctx Cluster.initial :=
  ⟨recording_initial.1, recording_initial.2, fun job ⟨i, t, h, _⟩ => by cases h⟩

/-- Along every run in which keys are removed by their TTL only, a job is lost, its id found
    unknown, or its path left behind only when it was enqueued and its record was not saved for
    `queue.ttl` seconds. -/
theorem none_lost_unless_lapsed (ctx : Context) (as : List Act)
    (h : Meets (deployment ctx).step KeepsTime Cluster.initial as) :
    NoneLost ((deployment ctx).run Cluster.initial as)
      (Cluster.EnqueuedAndLapsed ((deployment ctx).run Cluster.initial as)) := by
  obtain ⟨hob, hrec, hlasts⟩ := run_invariant (Lasts ctx) lasts_step lasts_initial h
  have hid : ∀ {id}, (∃ job ∈ written (((deployment ctx).run Cluster.initial as).knows
      (memory ctx) Memory.initial), job.id = id) →
      ((deployment ctx).run Cluster.initial as).store.jobs id ≠ none ∨
        Cluster.EnqueuedAndLapsed ((deployment ctx).run Cluster.initial as) id := by
    intro id hjob
    obtain ⟨job, hj, rfl⟩ := hjob
    exact (hlasts job hj).imp_right fun hlapsed => ⟨⟨job, enqueued_iff.mpr hj, rfl⟩, hlapsed⟩
  constructor
  · exact fun first hfirst _ => hid ⟨first, enqueued_iff.mp hfirst, rfl⟩
  · -- an id that was popped is the id of a job that was written
    intro p hp id ⟨⟨past, hpast⟩, _⟩
    obtain ⟨pid, -, hk⟩ := Pool.knows_of (memory ctx) Memory.initial hp
    have hpopped := ((memory_after ctx p.label p.past).2.2 id).mpr
      (by rw [hpast]; exact List.mem_cons_self)
    exact hid ((hrec.backed pid _ hk).popped id hpopped)
  · intro path id hmark _
    obtain ⟨job, hj, hjob, -⟩ := hrec.marked hmark
    exact hid ⟨job, hj, hjob⟩

/-- A job is enqueued; no worker is free for a day, and its record lapses in the queue; then a
    worker pops its id. -/
def expiredInQueue : List Act :=
  [.env (.clock 5), .spawn (.enqueueJob (mp4File "/tmp/input/a.mp4") defaultMatch),
    .exec 0 .go, .exec 0 (.id 1)] ++ List.replicate 6 (.exec 0 .go) ++
  [.env (.clock (5 + seconds 86400)), .env (.expire (.job 1)), .spawn (.processNextJob 7),
    .exec 1 .go]

theorem none_lost_unless_lapsed_inQueue :
    NoneLost ((deployment smallContext).run Cluster.initial expiredInQueue)
      (Cluster.EnqueuedAndLapsed ((deployment smallContext).run Cluster.initial expiredInQueue)) :=
  none_lost_unless_lapsed _ _ (by decide)

theorem lost_in_queue : ¬ ∀ as : List Act,
    Meets (deployment smallContext).step KeepsTime Cluster.initial as →
    NoneLost ((deployment smallContext).run Cluster.initial as) (fun _ => False) := by
  intro h
  have hlost := h expiredInQueue (by decide)
  have hjob := hlost.stored (newJob smallContext (mp4File "/tmp/input/a.mp4") defaultMatch 1 5)
    ⟨_, List.mem_of_getElem? (i := 0) rfl, trivial, _, by repeat constructor⟩ ?_
  · exact hjob.elim (fun hj => hj rfl) id
  · intro ⟨p, hp, job, ⟨ex, hwrote⟩, _, hs⟩
    obtain ⟨pid, hpid⟩ := List.getElem?_of_mem hp
    match pid with
    | 0 =>
      cases hpid
      simp only [List.mem_cons, Event.mk.injEq, Cmd.setJob.injEq, reduceCtorEq, false_and, false_or,
        or_false, List.not_mem_nil] at hwrote
      rw [hwrote.1.1] at hs
      exact hs.elim (fun he => by cases he) (fun he => by cases he)
    | 1 =>
      cases hpid
      simp at hwrote
    | n + 2 => cases hpid

end Vshift
