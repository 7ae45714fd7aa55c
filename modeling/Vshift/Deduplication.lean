import Vshift.Processes

/- Deduplication: any number of `EnqueueJob` calls at once.

   A call asks whether its path is marked processed and marks it four commands
   later, so two calls can both find it unmarked. `one_job_per_path` says that
   this is the only way to a second job: as long as no call asks while another
   one for the same canonical path stands between its answer "not marked" and its
   mark, every path gets at most one job, and its id is queued once.
   `enqueued_twice` is a run where two calls overlap. A call's place is its
   `Stage`; the invariant is `Exclusive`: one call at most is ahead for each path,
   and the mark names the job that call stored. -/
namespace Vshift
open Command Program

/-! The property and the condition, read off the commands a process has executed. -/

/-- The process has been told that `path` is not marked and has not marked it yet. -/
def Proc.Undecided (p : Proc) (path : String) : Prop :=
  ⟨.existsProcessed path, false⟩ ∈ p.past ∧ ∀ id, ⟨.setProcessed path id, ()⟩ ∉ p.past

/-- The actions of a run of `EnqueueJob` calls: they start, execute commands and return. -/
def Calling : Act → Prop
  | .spawn (.enqueueJob _ _) => True
  | .spawn _ => False
  | .kill _ => False
  | _ => True

/-- Only `EnqueueJob` calls run, and none asks for a path while another one is undecided
    about it. -/
def AsksAlone (s : Cluster) (a : Act) : Prop :=
  Calling a ∧ ∀ pid x p path, a = .exec pid x → s.procs[pid]? = some p →
    p.next? = some (.existsProcessed path) →
    ∀ other q, other ≠ pid → s.procs[other]? = some q → ¬ Proc.Undecided q path

/-- One job at most was ever saved for each path, and once every call has returned, the path
    of each is marked with its job, which is queued once. -/
structure OneJobPerPath (ctx : Context) (s : Cluster) : Prop where
  stored : ∀ p ∈ s.procs, ∀ q ∈ s.procs, ∀ job job', Proc.Wrote p job → Proc.Wrote q job' →
    ctx.py.canonicalPath job.inputPath = ctx.py.canonicalPath job'.inputPath → job = job'
  returned : (∀ p ∈ s.procs, p.Ended) → ∀ p ∈ s.procs, ∀ probed chosen,
    p.label = .enqueueJob probed chosen → ∃ q ∈ s.procs, ∃ job, Proc.Wrote q job ∧
      ctx.py.canonicalPath job.inputPath = ctx.py.canonicalPath probed.path ∧
      s.store.processed (ctx.py.canonicalPath probed.path) = some job.id ∧
      s.store.pendingQueue.count job.id = 1

/-! The protocol of a call. -/

/-- How far a call has come: it has been told its path is marked, or that it is not; it has a
    UUID, has saved its job, marked the path, and queued the id. -/
inductive Stage where
  | start
  | skipped
  | missing
  | numbered (id : Uuid)
  | stored (job : TranscodeJob)
  | marked (job : TranscodeJob)
  | queued (job : TranscodeJob)

structure Call where
  path : String
  stage : Stage

namespace Stage

/-- The UUID the call uses. -/
def id? : Stage → Option Uuid
  | numbered id => some id
  | stored job => some job.id
  | marked job => some job.id
  | queued job => some job.id
  | _ => none

/-- Told that the path is not marked, and it is not marked by this call. -/
def Open : Stage → Prop
  | missing => True
  | numbered _ => True
  | stored _ => True
  | _ => False

/-- The job whose id this call marked the path with. -/
def marker? : Stage → Option TranscodeJob
  | marked job => some job
  | queued job => some job
  | _ => none

/-- The job the call saved. -/
def job? : Stage → Option TranscodeJob
  | stored job => some job
  | marked job => some job
  | queued job => some job
  | _ => none

/-- The call goes ahead with its path. -/
def Ahead (stage : Stage) : Prop := stage.Open ∨ stage.marker?.isSome

def Final : Stage → Prop
  | skipped => True
  | queued _ => True
  | _ => False

end Stage

def calls (ctx : Context) : Protocol Cmd Reply Call where
  allows t
    | .existsProcessed path => path = t.path ∧ t.stage = .start
    | .uuid4 => t.stage = .missing
    | .now => True
    | .getJob _ => True
    | .sremState _ _ => True
    | .saddState _ _ => True
    | .setJob job _ => t.stage = .numbered job.id ∧ ctx.py.canonicalPath job.inputPath = t.path
    | .setProcessed path id => path = t.path ∧ ∃ job, t.stage = .stored job ∧ job.id = id
    | .lpushPending id => ∃ job, t.stage = .marked job ∧ job.id = id
    | _ => False
  expects _ _ _ := True
  next t c r := { t with
    stage := match c, r, t.stage with
      | .existsProcessed _, known, _ => if known then .skipped else .missing
      | .uuid4, id, _ => .numbered id
      | .setJob job _, _, _ => .stored job
      | .setProcessed _ _, _, .stored job => .marked job
      | .lpushPending _, _, .marked job => .queued job
      | _, _, stage => stage }

def Call.initial (ctx : Context) : Label → Call
  | .enqueueJob probed _ => ⟨ctx.py.canonicalPath probed.path, .start⟩
  | _ => ⟨"", .start⟩

variable {ctx : Context}

theorem obeys_calls (probed : ProbedInput) (chosen : ProfileMatch) :
    (code ctx (.enqueueJob probed chosen)).Obeys (calls ctx) (fun _ t => t.stage.Final)
      (Call.initial ctx (.enqueueJob probed chosen)) := by
  refine (obeys_discard _ _).mpr ⟨⟨rfl, rfl⟩, fun known _ => ?_⟩
  cases known with
  | true => trivial
  | false =>
    refine ⟨rfl, fun id _ => ⟨trivial, fun now _ => ?_⟩⟩
    apply (obeys_bind (saveJob ctx (newJob ctx probed chosen id now)) _ _).mpr
    -- a save keeps the stage until the record is replaced
    have hrest : ∀ t : Call, t = ⟨ctx.py.canonicalPath probed.path, .numbered id⟩ →
        Replaces (calls ctx) ctx (newJob ctx probed chosen id now)
          (andThen (calls ctx) (fun _ => markProcessed ctx probed.path id >>= fun _ =>
            enqueue id >>= fun _ => pure (some (newJob ctx probed chosen id now)))
            (fun _ t => t.stage.Final)) t := by
      intro t ht
      subst ht
      exact ⟨⟨rfl, rfl⟩, fun _ _ => ⟨trivial, fun _ _ => ⟨⟨rfl, _, rfl, rfl⟩, fun _ _ =>
        ⟨⟨_, rfl, rfl⟩, fun _ _ => trivial⟩⟩⟩⟩
    exact saveJob_obeys trivial (fun _ _ _ => hrest _ rfl)
      (fun _ _ _ => ⟨trivial, fun _ _ => hrest _ rfl⟩)

/-! What the commands executed say of the stage. -/

/-- The stage as the executed commands show it. -/
structure Call.Shown (ctx : Context) (past : List (Event Cmd Reply)) (t : Call) : Prop where
  wrote : ∀ job ex, ⟨.setJob job ex, ()⟩ ∈ past → t.stage.job? = some job
  saved : ∀ job, t.stage.job? = some job →
    (∃ ex, ⟨.setJob job ex, ()⟩ ∈ past) ∧ ctx.py.canonicalPath job.inputPath = t.path
  asked : t.stage.Open → ⟨.existsProcessed t.path, false⟩ ∈ past
  unmarked : t.stage.marker? = none → ∀ path id, ⟨.setProcessed path id, ()⟩ ∉ past

/-- A command that neither saves nor marks, and leaves the stage. -/
theorem Call.Shown.other {past : List (Event Cmd Reply)} {t : Call} (h : Call.Shown ctx past t)
    {c : Cmd} (r : Reply c) (hset : ∀ job ex, c ≠ .setJob job ex)
    (hmark : ∀ path id, c ≠ .setProcessed path id) : Call.Shown ctx (⟨c, r⟩ :: past) t where
  wrote := fun job ex hmem => h.wrote job ex ((Event.mem_cons_of_ne (hset job ex).symm).mp hmem)
  saved := fun job hj =>
    ⟨(h.saved job hj).1.imp fun _ => List.mem_cons_of_mem _, (h.saved job hj).2⟩
  asked := fun ho => List.mem_cons_of_mem _ (h.asked ho)
  unmarked := fun hm path id hmem =>
    h.unmarked hm path id ((Event.mem_cons_of_ne (hmark path id).symm).mp hmem)

/-- A new stage with the same job and mark. -/
theorem Call.Shown.restage {past : List (Event Cmd Reply)} {t : Call} {stage : Stage}
    (h : Call.Shown ctx past t) (hjob : stage.job? = t.stage.job?)
    (hmark : stage.marker? = t.stage.marker?)
    (hopen : stage.Open → ⟨.existsProcessed t.path, false⟩ ∈ past) :
    Call.Shown ctx past { t with stage } where
  wrote := fun job ex hmem => hjob.trans (h.wrote job ex hmem)
  saved := fun job hj => h.saved job (hjob.symm.trans hj)
  asked := hopen
  unmarked := fun hm => h.unmarked (hmark.symm.trans hm)

theorem Call.Shown.next {past : List (Event Cmd Reply)} {t : Call} {c : Cmd} {r : Reply c}
    (h : Call.Shown ctx past t) (ha : (calls ctx).allows t c) :
    Call.Shown ctx (⟨c, r⟩ :: past) ((calls ctx).next t c r) := by
  obtain ⟨path, stage⟩ := t
  cases c with
  | existsProcessed asked =>
    obtain ⟨rfl, rfl⟩ := ha
    apply (h.other r (by simp) (by simp)).restage
    · cases r <;> rfl
    · cases r <;> rfl
    · intro ho
      cases r with
      | true => exact ho.elim
      | false => exact List.mem_cons_self
  | uuid4 =>
    obtain rfl := ha
    exact (h.other r (by simp) (by simp)).restage rfl rfl
      (fun _ => List.mem_cons_of_mem _ (h.asked trivial))
  | setJob job ex =>
    obtain ⟨rfl, hpath⟩ := ha
    refine ⟨?_, ?_, ?_, ?_⟩
    · intro job' ex' hmem
      rcases List.mem_cons.mp hmem with he | hmem
      · cases he
        rfl
      · cases h.wrote job' ex' hmem
    · intro job' hj
      cases hj
      exact ⟨⟨ex, List.mem_cons_self⟩, hpath⟩
    · exact fun _ => List.mem_cons_of_mem _ (h.asked trivial)
    · intro _ path id hmem
      rcases List.mem_cons.mp hmem with he | hmem
      · cases he
      · exact h.unmarked rfl path id hmem
  | setProcessed marked id =>
    obtain ⟨rfl, job, rfl, rfl⟩ := ha
    refine ⟨?_, ?_, ?_, ?_⟩
    · intro job' ex' hmem
      rcases List.mem_cons.mp hmem with he | hmem
      · cases he
      · exact h.wrote job' ex' hmem
    · intro job' hj
      have hs := h.saved job' hj
      exact ⟨hs.1.imp fun _ => List.mem_cons_of_mem _, hs.2⟩
    · exact fun ho => ho.elim
    · exact fun hm => by cases hm
  | lpushPending id =>
    obtain ⟨job, rfl, rfl⟩ := ha
    exact (h.other r (by simp) (by simp)).restage rfl rfl (fun ho => ho.elim)
  | getJob => exact h.other r (by simp) (by simp)
  | sremState => exact h.other r (by simp) (by simp)
  | saddState => exact h.other r (by simp) (by simp)
  | now => exact h.other r (by simp) (by simp)
  | _ => exact ha.elim

theorem Call.shown {l : Label} {past : List (Event Cmd Reply)}
    (h : (calls ctx).Kept (Call.initial ctx l) past) :
    Call.Shown ctx past ((calls ctx).after (Call.initial ctx l) past) := by
  refine h.after (Call.Shown ctx) ?_ (fun _ _ _ _ hm ha _ => hm.next ha)
  have hstart : (Call.initial ctx l).stage = .start := by cases l <;> rfl
  refine ⟨fun _ _ hmem => by simp at hmem, ?_, ?_, fun _ _ _ hmem => by simp at hmem⟩
  · intro job hj
    rw [hstart] at hj
    cases hj
  · intro ho
    rw [hstart] at ho
    exact ho.elim

/-- A call stays with its path. -/
theorem Call.path_after (ctx : Context) (t : Call) (past : List (Event Cmd Reply)) :
    ((calls ctx).after t past).path = t.path := by
  induction past with
  | nil => rfl
  | cons e past ih => exact ih

/-! The invariant. -/

/-- What the server holds for a call at its stage. -/
def Call.Consistent (w : World) (t : Call) : Prop :=
  match t.stage with
  | .start => True
  | .skipped => (w.processed t.path).isSome
  | .missing => w.processed t.path = none
  | .numbered id => w.processed t.path = none ∧ id ∈ w.issued ∧ w.pendingQueue.count id = 0
  | .stored job =>
    w.processed t.path = none ∧ job.id ∈ w.issued ∧ w.pendingQueue.count job.id = 0
  | .marked job =>
    w.processed t.path = some job.id ∧ job.id ∈ w.issued ∧ w.pendingQueue.count job.id = 0
  | .queued job =>
    w.processed t.path = some job.id ∧ job.id ∈ w.issued ∧ w.pendingQueue.count job.id = 1

/-- Two calls do not both go ahead with one path, and use different UUIDs. -/
def Call.Apart (t u : Call) : Prop :=
  (t.stage.Ahead → u.stage.Ahead → t.path ≠ u.path) ∧ ∀ id ∈ t.stage.id?, id ∉ u.stage.id?

structure Exclusive (w : World) (K : Nat → Option Call) : Prop where
  consistent : Each (Call.Consistent w) K
  apart : EachTwo Call.Apart K
  marker : ∀ {path id}, w.processed path = some id →
    ∃ i t job, K i = some t ∧ t.path = path ∧ t.stage.marker? = some job ∧ job.id = id
  queue : ∀ {id}, id ∈ w.pendingQueue → id ∈ w.issued

variable {w : World} {K : Nat → Option Call}

theorem Call.Consistent.congr {w' : World} {t : Call} (h : Call.Consistent w t)
    (hprocessed : w'.processed t.path = w.processed t.path) (hissued : w.issued ⊆ w'.issued)
    (hqueue : ∀ id ∈ t.stage.id?, w'.pendingQueue.count id = w.pendingQueue.count id) :
    Call.Consistent w' t := by
  unfold Call.Consistent at h ⊢
  split at h
  · trivial
  · rwa [hprocessed]
  · rwa [hprocessed]
  all_goals
    next hs =>
      rw [hprocessed, hqueue _ (by rw [hs]; rfl)]
      exact ⟨h.1, hissued h.2.1, h.2.2⟩

theorem Call.Consistent.marked {t : Call} {job : TranscodeJob} (h : Call.Consistent w t)
    (hm : t.stage.marker? = some job) : w.processed t.path = some job.id := by
  obtain ⟨path, stage⟩ := t
  cases stage with
  | marked job' =>
    cases hm
    exact h.1
  | queued job' =>
    cases hm
    exact h.1
  | _ => cases hm

theorem Call.Consistent.issued {t : Call} {id : Uuid} (h : Call.Consistent w t)
    (hid : id ∈ t.stage.id?) : id ∈ w.issued := by
  obtain ⟨path, stage⟩ := t
  cases stage with
  | start => cases hid
  | skipped => cases hid
  | missing => cases hid
  | _ =>
    cases hid
    exact h.2.1

theorem Call.Apart.symm {t u : Call} (h : Call.Apart t u) : Call.Apart u t :=
  ⟨fun hu ht he => h.1 ht hu he.symm, fun id hu ht => h.2 id ht hu⟩

/-- A stage that goes ahead no more than the old one and uses its UUID. -/
theorem Call.Apart.restage {t u : Call} {stage : Stage} (h : Call.Apart t u)
    (hahead : stage.Ahead → t.stage.Ahead) (hid : stage.id? = t.stage.id?) :
    Call.Apart { t with stage } u :=
  ⟨fun ht => h.1 (hahead ht), fun id ht => h.2 id (hid ▸ ht)⟩

/-- One call moves to a new stage, while the server changes. -/
theorem Exclusive.move (h : Exclusive w K) {w' : World} {pid : Nat} {t : Call}
    (hself : Call.Consistent w' t)
    (hothers : ∀ i u, i ≠ pid → K i = some u → Call.Consistent w' u ∧ Call.Apart t u)
    (hmarker : ∀ path id, w'.processed path = some id →
      ∃ i u job, Function.update K pid (some t) i = some u ∧ u.path = path ∧
        u.stage.marker? = some job ∧ job.id = id)
    (hqueue : ∀ id ∈ w'.pendingQueue, id ∈ w'.issued) :
    Exclusive w' (Function.update K pid (some t)) where
  consistent := Each.set hself (fun i u hi hu => (hothers i u hi hu).1)
  apart := h.apart.set (fun i u hi hu => ⟨(hothers i u hi hu).2, (hothers i u hi hu).2.symm⟩)
  marker := fun hp => hmarker _ _ hp
  queue := fun hid => hqueue _ hid

/-- The mark of a path stays with the call that made it when that call does not lose it. -/
theorem Exclusive.marker_move (h : Exclusive w K) {pid : Nat} {t : Call} (hk : K pid = some t)
    (t' : Call) (hpath : t'.path = t.path)
    (hmark : ∀ job, t.stage.marker? = some job → t'.stage.marker? = some job) {path : String}
    {id : Uuid} (hp : w.processed path = some id) :
    ∃ i u job, Function.update K pid (some t') i = some u ∧ u.path = path ∧
      u.stage.marker? = some job ∧ job.id = id := by
  obtain ⟨i, u, job, hu, hpu, hm, hid⟩ := h.marker hp
  by_cases hi : i = pid
  · subst hi
    rw [hk, Option.some.injEq] at hu
    subst hu
    exact ⟨i, t', job, Function.update_self .., hpath.trans hpu, hmark job hm, hid⟩
  · exact ⟨i, u, job, by rw [Function.update_of_ne hi]; exact hu, hpu, hm, hid⟩

section
variable {pid : Nat} {path : String} {job : TranscodeJob} {id : Uuid}

theorem Exclusive.others {t : Call} (h : Exclusive w K) (hk : K pid = some t) :
    ∀ i u, i ≠ pid → K i = some u → Call.Consistent w u ∧ Call.Apart t u :=
  fun i u hi hu => ⟨h.consistent i u hu, h.apart pid i t u (Ne.symm hi) hk hu⟩

/-- A command that changes neither the stage nor what the invariant is about. -/
theorem Exclusive.idle {t : Call} (h : Exclusive w K) (hk : K pid = some t) {w' : World}
    (hprocessed : w'.processed = w.processed) (hissued : w'.issued = w.issued)
    (hqueue : w'.pendingQueue = w.pendingQueue) :
    Exclusive w' (Function.update K pid (some t)) := by
  rw [Function.update_eq_self_iff.mpr hk.symm]
  refine ⟨h.consistent.mono fun u hu => hu.congr (by rw [hprocessed]) (by rw [hissued]) ?_,
    h.apart, fun hp => h.marker (by rw [← hprocessed]; exact hp),
    fun hid => by rw [hissued]; exact h.queue (by rw [← hqueue]; exact hid)⟩
  intro id _
  rw [hqueue]

/-- The path is marked: the call skips it. -/
theorem Exclusive.skips (h : Exclusive w K) (hk : K pid = some ⟨path, .start⟩)
    (hp : w.processed path = some id) :
    Exclusive w (Function.update K pid (some ⟨path, .skipped⟩)) := by
  refine h.move ?_ ?_ (fun other id hpath => ?_) (fun id => h.queue)
  · simp [Call.Consistent, hp]
  · intro i u hi hu
    exact ⟨(h.others hk i u hi hu).1, (h.others hk i u hi hu).2.restage
      (by simp [Stage.Ahead, Stage.Open, Stage.marker?]) rfl⟩
  · exact h.marker_move hk ⟨path, .skipped⟩ rfl (fun job hj => by cases hj) hpath

/-- The path is not marked: the call goes ahead, and no other call has. -/
theorem Exclusive.goesAhead (h : Exclusive w K) (hk : K pid = some ⟨path, .start⟩)
    (hp : w.processed path = none)
    (halone : ∀ i u, i ≠ pid → K i = some u → u.stage.Open → u.path ≠ path) :
    Exclusive w (Function.update K pid (some ⟨path, .missing⟩)) := by
  refine h.move hp ?_ (fun other id hpath => ?_) (fun id => h.queue)
  · intro i u hi hu
    refine ⟨(h.others hk i u hi hu).1, fun _ hahead he => ?_, fun id hid => by cases hid⟩
    -- the other call would be undecided, or have marked the path
    rcases hahead with hopen | hmark
    · exact halone i u hi hu hopen he.symm
    · obtain ⟨job, hjob⟩ := Option.isSome_iff_exists.mp hmark
      have hm := (h.others hk i u hi hu).1.marked hjob
      rw [show u.path = path from he.symm, hp] at hm
      cases hm
  · exact h.marker_move hk ⟨path, .missing⟩ rfl (fun job hj => by cases hj) hpath

theorem Exclusive.numbered (h : Exclusive w K) (hk : K pid = some ⟨path, .missing⟩)
    (hnew : id ∉ w.issued) : Exclusive { w with issued := insert id w.issued }
      (Function.update K pid (some ⟨path, .numbered id⟩)) := by
  refine h.move ?_ ?_ (fun other id' hpath => ?_) ?_
  · exact ⟨h.consistent pid _ hk, Finset.mem_insert_self _ _,
      List.count_eq_zero.mpr (fun hq => hnew (h.queue hq))⟩
  · intro i u hi hu
    obtain ⟨hcons, hapart⟩ := h.others hk i u hi hu
    refine ⟨hcons.congr rfl (Finset.subset_insert _ _) (fun _ _ => rfl),
      fun _ => hapart.1 (.inl trivial), ?_⟩
    intro id' hid hu'
    cases hid
    exact hnew (hcons.issued hu')
  · exact h.marker_move hk ⟨_, .numbered id⟩ rfl (fun job hj => by cases hj) hpath
  · exact fun id' hid => Finset.mem_insert_of_mem (h.queue hid)

theorem Exclusive.stored (h : Exclusive w K) (hk : K pid = some ⟨path, .numbered job.id⟩)
    (ex : Nat) (r : Unit) : Exclusive (w.effect (.setJob job ex) r)
      (Function.update K pid (some ⟨path, .stored job⟩)) := by
  refine h.move (h.consistent pid _ hk) ?_ (fun other id hp => ?_) (fun id => h.queue)
  · intro i u hi hu
    obtain ⟨hcons, hapart⟩ := h.others hk i u hi hu
    exact ⟨hcons.congr rfl (Finset.Subset.refl _) (fun _ _ => rfl),
      hapart.restage (fun _ => .inl trivial) rfl⟩
  · exact h.marker_move hk ⟨_, .stored job⟩ rfl (fun job hj => by cases hj) hp

theorem Exclusive.marked (h : Exclusive w K) (hk : K pid = some ⟨path, .stored job⟩) :
    Exclusive { w with processed := Function.update w.processed path (some job.id) }
      (Function.update K pid (some ⟨path, .marked job⟩)) := by
  have hself := h.consistent pid _ hk
  refine h.move ?_ ?_ (fun other id hp => ?_) (fun id => h.queue)
  · exact ⟨Function.update_self .., hself.2⟩
  · intro i u hi hu
    obtain ⟨hcons, hapart⟩ := h.others hk i u hi hu
    refine ⟨?_, hapart.restage (fun _ => .inl trivial) rfl⟩
    by_cases he : u.path = path
    · -- a call for the same path has not gone ahead with it
      obtain ⟨upath, ustage⟩ := u
      have hbehind := fun ha => hapart.1 (.inl trivial) ha he.symm
      cases ustage with
      | start => trivial
      | skipped => simp [Call.Consistent, show upath = path from he]
      | marked _ => exact (hbehind (.inr rfl)).elim
      | queued _ => exact (hbehind (.inr rfl)).elim
      | _ => exact (hbehind (.inl trivial)).elim
    · exact hcons.congr (Function.update_of_ne he ..) (Finset.Subset.refl _) (fun _ _ => rfl)
  · by_cases he : other = path
    · subst he
      have hid : job.id = id := by simpa using hp
      exact ⟨pid, _, job, Function.update_self .., rfl, rfl, hid⟩
    · refine h.marker_move hk ⟨path, .marked job⟩ rfl (fun job hj => by cases hj) ?_
      exact (Function.update_of_ne he ..).symm.trans hp

theorem Exclusive.queued (h : Exclusive w K) (hk : K pid = some ⟨path, .marked job⟩) :
    Exclusive { w with pendingQueue := w.pendingQueue ++ [job.id] }
      (Function.update K pid (some ⟨path, .queued job⟩)) := by
  have hself := h.consistent pid _ hk
  refine h.move ?_ ?_ (fun other id hp => ?_) ?_
  · refine ⟨hself.1, hself.2.1, ?_⟩
    rw [List.count_append, hself.2.2, List.count_singleton_self]
  · intro i u hi hu
    obtain ⟨hcons, hapart⟩ := h.others hk i u hi hu
    refine ⟨hcons.congr rfl (Finset.Subset.refl _) ?_, hapart.restage (fun _ => .inr rfl) rfl⟩
    intro id hid
    have hne : job.id ≠ id := fun he => hapart.2 job.id rfl (he ▸ hid)
    rw [List.count_append, List.count_cons_of_ne hne, List.count_nil, Nat.add_zero]
  · exact h.marker_move hk ⟨_, .queued job⟩ rfl (fun job hj => hj) hp
  · intro id hid
    rcases List.mem_append.mp hid with hid | hid
    · exact h.queue hid
    · rw [List.mem_singleton.mp hid]
      exact hself.2.1

end

theorem Exclusive.exec (h : Exclusive w K) {pid : Nat} {t : Call} {c : Cmd} {x : Choice}
    {r : Reply c} (hk : K pid = some t) (ha : (calls ctx).allows t c)
    (hr : World.answer w c x = some r)
    (halone : ∀ path, c = .existsProcessed path →
      ∀ i u, i ≠ pid → K i = some u → u.stage.Open → u.path ≠ path) :
    Exclusive (w.effect c r) (Function.update K pid (some ((calls ctx).next t c r))) := by
  obtain ⟨path, stage⟩ := t
  cases c with
  | existsProcessed asked =>
    obtain ⟨rfl, rfl⟩ := ha
    cases hr
    cases hp : w.processed asked with
    | some id => exact h.skips hk hp
    | none => exact h.goesAhead hk hp (halone asked rfl)
  | uuid4 =>
    obtain rfl := ha
    exact h.numbered hk (World.answer_uuid4 hr)
  | setJob job ex =>
    obtain ⟨rfl, hpath⟩ := ha
    exact h.stored hk ex r
  | setProcessed marked id =>
    obtain ⟨rfl, job, rfl, rfl⟩ := ha
    exact h.marked hk
  | lpushPending id =>
    obtain ⟨job, rfl, rfl⟩ := ha
    exact h.queued hk
  | getJob => exact h.idle hk rfl rfl rfl
  | sremState => exact h.idle hk rfl rfl rfl
  | saddState => exact h.idle hk rfl rfl rfl
  | now => exact h.idle hk rfl rfl rfl
  | _ => exact ha.elim

/-! Runs. -/

/-- The calls started so far are live, and keep to the protocol, exclusively. -/
structure Deduplicating (ctx : Context) (s : Cluster) : Prop where
  live : ∀ p ∈ s.procs, p.rest ≠ none
  obeying : Obeying (calls ctx) (Call.initial ctx) (fun t => t.stage.Final) s
  exclusive : Exclusive s.store (s.knows (calls ctx) (Call.initial ctx))

theorem deduplicating_initial : Deduplicating ctx Cluster.initial := by
  refine ⟨?_, ?_, ?_, ?_, ?_, ?_⟩
  · exact fun p hp => by cases hp
  · exact fun p hp => by cases hp
  · exact fun i t h => by cases h
  · exact fun i j t u _ h => by cases h
  · exact fun h => by cases h
  · exact fun h => by cases h

theorem environment_keeps (e : EnvEvent) (w : World) :
    (World.environment e w).processed = w.processed ∧
    (World.environment e w).issued = w.issued ∧
    (World.environment e w).pendingQueue = w.pendingQueue := by
  cases e with
  | expire key => cases key <;> exact ⟨rfl, rfl, rfl⟩
  | _ => exact ⟨rfl, rfl, rfl⟩

theorem deduplicating_step (s : Cluster) (a : Act) (h : Deduplicating ctx s)
    (hok : AsksAlone s a) : Deduplicating ctx ((deployment ctx).step s a) := by
  obtain ⟨hlive, hob, hex⟩ := h
  have hkill : ∀ pid, a ≠ .kill pid := fun pid ha => by
    rw [ha] at hok
    exact hok.1
  have hnext := pool_step Exclusive hob hex (S := deployment ctx) (a := a) ?_ ?_ ?_ ?_
  · exact ⟨System.live_step hlive hkill, hnext.1, hnext.2⟩
  · intro l ha
    subst ha
    cases l with
    | enqueueJob probed chosen => exact obeys_calls probed chosen
    | _ => exact hok.1.elim
  · intro l pid ha hnone
    subst ha
    cases l with
    | enqueueJob probed chosen =>
      refine hex.move trivial (fun i u _ hu => ⟨hex.consistent i u hu, ?_⟩) ?_ (fun id => hex.queue)
      · exact ⟨fun ha => by simp [Call.initial, Stage.Ahead, Stage.Open, Stage.marker?] at ha,
          fun id hid => by cases hid⟩
      · intro path id hp
        obtain ⟨i, t, job, hi, hrest⟩ := hex.marker hp
        have hne : i ≠ pid := fun he => by rw [he, hnone] at hi; cases hi
        exact ⟨i, t, job, by rw [Function.update_of_ne hne]; exact hi, hrest⟩
    | _ => exact hok.1.elim
  · intro pid x l past c k r ha hproc hk hallow hr
    subst ha
    refine ⟨trivial, hex.exec hk hallow hr ?_⟩
    -- a call that has been told "not marked" shows it in its past
    intro path hc i u hi hu hopen hpath
    subst hc
    obtain ⟨q, hq, rfl⟩ := Pool.knows_iff.mp hu
    have hshown := Call.shown (hob q (List.mem_of_getElem? hq)).1
    refine hok.2 pid x _ path rfl hproc rfl i q hi hq ⟨hpath ▸ hshown.asked hopen, fun id => ?_⟩
    refine hshown.unmarked ?_ path id
    generalize ((calls ctx).after (Call.initial ctx q.label) q.past).stage = stage at hopen
    cases stage with
    | marked job => exact hopen.elim
    | queued job => exact hopen.elim
    | _ => rfl
  · intro e he
    subst he
    obtain ⟨hprocessed, hissued, hqueue⟩ := environment_keeps e s.store
    refine ⟨hex.consistent.mono fun u hu => hu.congr ?_ ?_ ?_, hex.apart, ?_, ?_⟩
    · exact congrFun hprocessed _
    · exact hissued.symm.subset
    · exact fun id _ => congrArg (List.count id) hqueue
    · exact fun hp => hex.marker ((congrFun hprocessed _).symm.trans hp)
    · intro id hid
      rw [show ((deployment ctx).env e s.store).issued = s.store.issued from hissued]
      exact hex.queue (hqueue ▸ hid)

theorem Stage.ahead_of_job {stage : Stage} {job : TranscodeJob} (h : stage.job? = some job) :
    stage.Ahead := by
  cases stage with
  | stored job' => exact .inl trivial
  | marked job' => exact .inr rfl
  | queued job' => exact .inr rfl
  | _ => cases h

section
variable {s : Cluster} {p q : Proc}

/-- What a process knows of its call. -/
abbrev callOf (ctx : Context) (p : Proc) : Call :=
  (calls ctx).after (Call.initial ctx p.label) p.past

/-- Two jobs saved for one path are one job. -/
theorem Deduplicating.same_job (h : Deduplicating ctx s) (hp : p ∈ s.procs) (hq : q ∈ s.procs)
    {job job' : TranscodeJob} (hjob : p.Wrote job) (hjob' : q.Wrote job')
    (hpath : ctx.py.canonicalPath job.inputPath = ctx.py.canonicalPath job'.inputPath) :
    job = job' := by
  obtain ⟨ex, hjob⟩ := hjob
  obtain ⟨ex', hjob'⟩ := hjob'
  have hshown := Call.shown (h.obeying p hp).1
  have hshown' := Call.shown (h.obeying q hq).1
  have hj := hshown.wrote job ex hjob
  have hj' := hshown'.wrote job' ex' hjob'
  obtain ⟨i, hi, hki⟩ := Pool.knows_of (calls ctx) (Call.initial ctx) hp
  obtain ⟨j, hi', hkj⟩ := Pool.knows_of (calls ctx) (Call.initial ctx) hq
  by_cases hij : i = j
  · subst hij
    rw [hi, Option.some.injEq] at hi'
    subst hi'
    exact Option.some.inj (hj.symm.trans hj')
  · refine absurd ?_ ((h.exclusive.apart i j _ _ hij hki hkj).1 (Stage.ahead_of_job hj)
      (Stage.ahead_of_job hj'))
    rw [← (hshown.saved job hj).2, hpath, (hshown'.saved job' hj').2]

/-- The path of a call that has queued its job is marked with it. -/
theorem Deduplicating.queued_job (h : Deduplicating ctx s) (hq : q ∈ s.procs) {job : TranscodeJob}
    (hstage : (callOf ctx q).stage = .queued job) :
    q.Wrote job ∧ ctx.py.canonicalPath job.inputPath = (callOf ctx q).path ∧
      s.store.processed (callOf ctx q).path = some job.id ∧
      s.store.pendingQueue.count job.id = 1 := by
  obtain ⟨i, -, hk⟩ := Pool.knows_of (calls ctx) (Call.initial ctx) hq
  have hcons := h.exclusive.consistent i _ hk
  unfold Call.Consistent at hcons
  rw [hstage] at hcons
  have hsaved := (Call.shown (h.obeying q hq).1).saved job (by rw [hstage]; rfl)
  exact ⟨hsaved.1, hsaved.2, hcons.1, hcons.2.2⟩

/-- Once all calls have returned, a call that was told its path is marked has another call to
    point to, which has queued its job for the path. -/
theorem Deduplicating.queued_of_skipped (h : Deduplicating ctx s)
    (hfinal : ∀ q ∈ s.procs, (callOf ctx q).stage.Final) (hp : p ∈ s.procs)
    (hstage : (callOf ctx p).stage = .skipped) :
    ∃ q ∈ s.procs, ∃ job, (callOf ctx q).stage = .queued job ∧
      (callOf ctx q).path = (callOf ctx p).path := by
  obtain ⟨i, -, hk⟩ := Pool.knows_of (calls ctx) (Call.initial ctx) hp
  have hcons := h.exclusive.consistent i _ hk
  unfold Call.Consistent at hcons
  rw [hstage] at hcons
  obtain ⟨id, hid⟩ := Option.isSome_iff_exists.mp hcons
  obtain ⟨j, t, job, hj, htpath, hm, -⟩ := h.exclusive.marker hid
  obtain ⟨q, hq, rfl⟩ := Pool.knows_iff.mp hj
  have hqmem := List.mem_of_getElem? hq
  refine ⟨q, hqmem, job, ?_, htpath⟩
  have hq_final := hfinal q hqmem
  revert hm hq_final
  generalize (callOf ctx q).stage = stage
  intro hm hq_final
  cases stage with
  | queued job' => exact congrArg Stage.queued (Option.some.inj hm)
  | skipped => cases hm
  | _ => exact hq_final.elim

/-- What the invariant says of jobs saved and calls returned. -/
theorem Deduplicating.one_job (h : Deduplicating ctx s) : OneJobPerPath ctx s := by
  constructor
  · exact fun p hp q hq job job' hjob hjob' hpath => h.same_job hp hq hjob hjob' hpath
  · intro hended p hp probed chosen hlabel
    have hfinal : ∀ q ∈ s.procs, (callOf ctx q).stage.Final :=
      fun q hq => h.obeying.ended hq (hended q hq) (h.live q hq)
    have hpath : (callOf ctx p).path = ctx.py.canonicalPath probed.path := by
      have hafter := Call.path_after ctx (Call.initial ctx p.label) p.past
      rw [hlabel] at hafter
      rw [callOf, hlabel]
      exact hafter
    -- a call that queued its job for this path is what we look for
    have hqueued : ∃ q ∈ s.procs, ∃ job, (callOf ctx q).stage = .queued job ∧
        (callOf ctx q).path = (callOf ctx p).path := by
      have hp_final := hfinal p hp
      cases hstage : (callOf ctx p).stage with
      | queued job => exact ⟨p, hp, job, hstage, rfl⟩
      | skipped => exact h.queued_of_skipped hfinal hp hstage
      | _ =>
        rw [hstage] at hp_final
        exact hp_final.elim
    obtain ⟨q, hq, job, hstage, hsame⟩ := hqueued
    obtain ⟨hwrote, hinput, hmark, hcount⟩ := h.queued_job hq hstage
    rw [hsame, hpath] at hinput hmark
    exact ⟨q, hq, job, hwrote, hinput, hmark, hcount⟩

end

/-- Along every run in which no call asks for a path another one is undecided about, every path
    gets one job. -/
theorem one_job_per_path (ctx : Context) (as : List Act)
    (h : Meets (deployment ctx).step AsksAlone Cluster.initial as) :
    OneJobPerPath ctx ((deployment ctx).run Cluster.initial as) :=
  (run_invariant (Deduplicating ctx) deduplicating_step deduplicating_initial h).one_job

def aFile : ProbedInput := mp4File "/tmp/input/a.mp4"

/-- Two calls for one file, one after the other: the second one finds the mark. -/
def enqueuedInTurn : List Act :=
  [.spawn (.enqueueJob aFile defaultMatch), .spawn (.enqueueJob aFile defaultMatch),
    .exec 0 .go, .exec 0 (.id 1), .exec 0 .go, .exec 0 .go, .exec 0 .go, .exec 0 .go, .exec 0 .go,
    .exec 0 .go, .exec 1 .go]

theorem one_job_per_path_inTurn :
    OneJobPerPath smallContext ((deployment smallContext).run Cluster.initial enqueuedInTurn) := by
  refine one_job_per_path _ _ ⟨⟨trivial, fun _ _ _ _ h => by cases h⟩,
    ⟨trivial, fun _ _ _ _ h => by cases h⟩, ⟨trivial, ?_⟩, ⟨trivial, ?_⟩, ⟨trivial, ?_⟩,
    ⟨trivial, ?_⟩, ⟨trivial, ?_⟩, ⟨trivial, ?_⟩, ⟨trivial, ?_⟩, ⟨trivial, ?_⟩, ⟨trivial, ?_⟩,
    trivial⟩
  all_goals
    intro pid x p path ha hp hn other q ho hq hu
    cases ha
    cases hp
    cases hn
  · -- the first call asks: the second one has executed nothing
    match other with
    | 1 =>
      cases hq
      cases hu.1
    | n + 2 => cases hq
  · -- the second call asks: the first one has marked the path
    match other with
    | 0 =>
      cases hq
      exact hu.2 1 (by repeat constructor)
    | n + 2 => cases hq

/-- Two calls for one file, both asking before either marks. -/
def enqueuedAtOnce : List Act :=
  [.spawn (.enqueueJob aFile defaultMatch), .spawn (.enqueueJob aFile defaultMatch),
    .exec 0 .go, .exec 1 .go,
    .exec 0 (.id 1), .exec 0 .go, .exec 0 .go, .exec 0 .go, .exec 0 .go, .exec 0 .go, .exec 0 .go,
    .exec 1 (.id 2), .exec 1 .go, .exec 1 .go, .exec 1 .go, .exec 1 .go, .exec 1 .go, .exec 1 .go]

theorem enqueued_twice : ¬ ∀ as : List Act, (∀ a ∈ as, Calling a) →
    OneJobPerPath smallContext ((deployment smallContext).run Cluster.initial as) := by
  intro h
  have hone := (h enqueuedAtOnce (by simp [enqueuedAtOnce, Calling])).stored
  have hsame := hone _ (List.mem_of_getElem? (i := 0) rfl) _ (List.mem_of_getElem? (i := 1) rfl)
    (newJob smallContext aFile defaultMatch 1 0) (newJob smallContext aFile defaultMatch 2 0)
    ⟨_, by repeat constructor⟩ ⟨_, by repeat constructor⟩ rfl
  exact absurd (congrArg TranscodeJob.id hsame) (by decide)

end Vshift
