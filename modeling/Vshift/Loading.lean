import Vshift.Filters
import Vshift.Copies

/- Use cases that validate the job records they get.

   Redis holds a job as the document it was dumped to, and `RedisJobRepository.get`
   validates that document again: it may raise. `loading p` is the program `p` with
   this done to every record it reads. A document cannot tell a frame rate that is
   not a number from none, so what is stored is told by `World.dumped`.

   A program that reads only records that can be read back and saves only records
   that are kept runs as it does without the validation, on the store as dumped
   (`run_loading`). -/
namespace Vshift
open Command Program Document

/-! What a document is read back as. -/

/-- The profile as its document says it: a frame rate that is not a number is written as null. -/
def VideoProfile.dumped (video : VideoProfile) : VideoProfile :=
  { video with frameRate := video.frameRate.filter (·.Finite) }

def TranscodeJob.dumped (job : TranscodeJob) : TranscodeJob :=
  { job with
    profileSnapshot := { job.profileSnapshot with video := job.profileSnapshot.video.dumped } }

/-- `TranscodeJob.model_validate_json(job.model_dump_json())` -/
def TranscodeJob.reload (job : TranscodeJob) : Except Exn TranscodeJob := loadJob (dumpJob job)

/-- The document of the job is accepted when it is read. -/
def TranscodeJob.Readable (job : TranscodeJob) : Prop := ∃ loaded, job.reload = .ok loaded

section
variable {video : VideoProfile} {job : TranscodeJob}

theorem videoProfile_write_dumped :
    Json.videoProfile.write video.dumped = Json.videoProfile.write video := by
  have hrate : Json.optionalFloat.write (video.frameRate.filter (·.Finite)) =
      Json.optionalFloat.write video.frameRate := by
    cases video.frameRate with
    | none => rfl
    | some rate => cases rate <;> rfl
  simp only [Json.videoProfile, Codec.checked, Fields.record, Fields.and, Fields.field,
    VideoProfile.dumped, hrate]

theorem dumpJob_dumped : dumpJob job.dumped = dumpJob job := by
  simp only [dumpJob, Json.transcodeJob, Json.vshiftProfile, Codec.checked, Fields.record,
    Fields.and, Fields.field, TranscodeJob.dumped, videoProfile_write_dumped]

theorem reload_dumped : job.dumped.reload = job.reload := by
  rw [TranscodeJob.reload, dumpJob_dumped]
  rfl

/-- What is read back of a profile without strange frame rates is that profile. -/
theorem videoProfile_definite (h : ∀ rate, video.frameRate = some rate → rate.Finite) :
    Json.videoProfile.Definite video := by
  have hquality : Json.float.Definite video.quality := by
    intro x hread
    cases hx : video.quality with
    | finite q => exact Codec.definite_of_kept (c := Json.float) ⟨q, rfl⟩ x (hx ▸ hread)
    | _ =>
      rw [hx] at hread
      cases hread
  apply Codec.Definite.checked
  apply Fields.Definite.record
  repeat' apply Fields.Definite.and
  all_goals apply Fields.Definite.field
  all_goals first
    | exact hquality
    | exact Codec.definite_of_kept h
    | exact Codec.definite_of_kept trivial
    | exact Codec.definite_of_kept fun _ _ => trivial

theorem dumpJob_definite : Json.transcodeJob.Definite job.dumped := by
  have hvideo : Json.videoProfile.Definite job.profileSnapshot.video.dumped := by
    apply videoProfile_definite
    intro rate hrate
    exact of_decide_eq_true (Option.filter_eq_some_iff.mp hrate).2
  have hprofile : Json.vshiftProfile.Definite job.dumped.profileSnapshot := by
    apply Codec.Definite.checked
    apply Fields.Definite.record
    repeat' apply Fields.Definite.and
    all_goals apply Fields.Definite.field
    all_goals first
      | exact hvideo
      | exact Codec.definite_of_kept trivial
      | exact Codec.definite_of_kept fun _ _ => trivial
      | exact Codec.definite_of_kept fun _ _ => Json.audioTrack_kept _
      | exact Codec.definite_of_kept fun _ _ => Json.subtitleTrack_kept _
  have hattempt : Json.positive.Definite job.dumped.attempt := by
    intro n hread
    by_cases h : 1 ≤ job.dumped.attempt
    · exact Codec.definite_of_kept (c := Json.positive) h n hread
    · rw [Nat.lt_one_iff.mp (Nat.lt_of_not_le h)] at hread
      cases hread
  apply Fields.Definite.record
  repeat' apply Fields.Definite.and
  all_goals apply Fields.Definite.field
  all_goals first
    | exact hprofile
    | exact hattempt
    | exact Codec.definite_of_kept trivial
    | exact Codec.definite_of_kept fun _ _ => trivial

/-- A document is read as what it says, if what it says is kept, and refused otherwise. -/
theorem reload_ok_iff {loaded : TranscodeJob} :
    job.reload = .ok loaded ↔ loaded = job.dumped ∧ Json.transcodeJob.Kept job.dumped := by
  rw [← reload_dumped, ← JobDocuments.loadJob_dumpJob]
  constructor
  · intro hloaded
    have heq : loaded = job.dumped := dumpJob_definite loaded (loadJob_ok.mp hloaded)
    exact ⟨heq, heq ▸ hloaded⟩
  · rintro ⟨rfl, hloaded⟩
    exact hloaded

theorem readable_iff : job.Readable ↔ Json.transcodeJob.Kept job.dumped := by
  constructor
  · rintro ⟨loaded, hloaded⟩
    exact (reload_ok_iff.mp hloaded).2
  · exact fun h => ⟨_, reload_ok_iff.mpr ⟨rfl, h⟩⟩

theorem TranscodeJob.Readable.reload (h : job.Readable) : job.reload = .ok job.dumped :=
  reload_ok_iff.mpr ⟨rfl, readable_iff.mp h⟩

/-- A document that is not refused is that of the record, unless a frame rate is no number. -/
theorem dumped_of_kept (h : Json.transcodeJob.Kept job) : job.dumped = job := by
  have hload := JobDocuments.loadJob_dumpJob.mpr h
  exact (reload_ok_iff.mp hload).1.symm

theorem readable_of_kept (h : Json.transcodeJob.Kept job) : job.Readable :=
  ⟨job, JobDocuments.loadJob_dumpJob.mpr h⟩

end

/-! Programs that read documents. -/

/-- What a use case gets of a reply: the document of a job is validated. -/
def loads : (c : Cmd) → Reply c → Except Exn (Reply c)
  | .getJob _, none => .ok none
  | .getJob _, some job => job.reload.map some
  | _, reply => .ok reply

def loading {α : Type} (p : Prog α) : Prog α := p.through loads

/-- The store as its documents say it. -/
@[simps] def World.dumped (w : World) : World :=
  { w with jobs := fun id => (w.jobs id).map TranscodeJob.dumped }

/-- No read of a job raises. -/
def World.Readable (w : World) : Prop := ∀ id job, w.jobs id = some job → job.Readable

/-- The command reads no record that is refused, and saves none that is not read back. -/
def Cmd.Faithful (w : World) : Cmd → Prop
  | .getJob id => ∀ job, w.jobs id = some job → Json.transcodeJob.Kept job
  | .setJob job _ => Json.transcodeJob.Kept job
  | _ => True

section
variable {w : World}

theorem readable_iff_kept : w.Readable ↔ w.dumped.Kept := by
  constructor
  · intro h id job hj
    obtain ⟨stored, hstored, rfl⟩ := Option.map_eq_some_iff.mp hj
    exact readable_iff.mp (h id stored hstored)
  · intro h id job hj
    exact readable_iff.mpr (h id job.dumped (congrArg (Option.map TranscodeJob.dumped) hj))

theorem World.Tidy.dumped (h : w.Tidy) : w.dumped.Tidy := by
  constructor
  · intro id job hj
    obtain ⟨stored, hstored, rfl⟩ := Option.map_eq_some_iff.mp hj
    have hid : stored.id = id := h.ids hstored
    exact hid
  · intro s id
    rw [World.dumped_stateIndex, h.index]
    constructor
    · exact fun ⟨job, hj, hs⟩ => ⟨job.dumped, congrArg (Option.map TranscodeJob.dumped) hj, hs⟩
    · rintro ⟨job, hj, hs⟩
      obtain ⟨stored, hstored, rfl⟩ := Option.map_eq_some_iff.mp hj
      exact ⟨stored, hstored, hs⟩

theorem World.Tidy.of_dumped (h : w.dumped.Tidy) : w.Tidy := by
  constructor
  · intro id job hj
    have hid : job.dumped.id = id := h.ids (congrArg (Option.map TranscodeJob.dumped) hj)
    exact hid
  · intro s id
    rw [← World.dumped_stateIndex, h.index]
    constructor
    · rintro ⟨job, hj, hs⟩
      obtain ⟨stored, hstored, rfl⟩ := Option.map_eq_some_iff.mp hj
      exact ⟨stored, hstored, hs⟩
    · exact fun ⟨job, hj, hs⟩ => ⟨job.dumped, congrArg (Option.map TranscodeJob.dumped) hj, hs⟩

theorem dumped_eq (h : w.Kept) : w.dumped = w := by
  have hjobs : w.dumped.jobs = w.jobs := by
    funext id
    cases hj : w.jobs id with
    | none => simp [hj]
    | some job => simp [hj, dumped_of_kept (h id job hj)]
  show { w with jobs := w.dumped.jobs } = w
  rw [hjobs]

theorem redis_clear (w : World) (c : Cmd) (h : c.Faithful w.dumped) :
    redis.Clear loads World.dumped w c := by
  cases c with
  | getJob id =>
    refine ⟨fun x hx => (nomatch hx), fun x r hr => ?_⟩
    cases hr
    refine ⟨w.dumped.jobs id, ?_, rfl, rfl⟩
    cases hj : w.jobs id with
    | none =>
      rw [World.dumped_jobs, hj]
      rfl
    | some job =>
      have hread : job.Readable :=
        readable_iff.mpr (h job.dumped (congrArg (Option.map TranscodeJob.dumped) hj))
      rw [World.dumped_jobs, hj]
      show job.reload.map some = _
      rw [hread.reload]
      rfl
  | setJob job ex =>
    refine ⟨fun x hx => (nomatch hx), fun x r hr => ⟨(), rfl, rfl, ?_⟩⟩
    have hjobs : (World.dumped (w.effect (.setJob job ex) r)).jobs =
        (w.dumped.effect (.setJob job ex) ()).jobs := by
      funext id
      show Option.map _ (Function.update w.jobs job.id (some job) id) =
        Function.update w.dumped.jobs job.id (some job) id
      rw [Function.update_apply, Function.update_apply]
      split
      · rw [Option.map_some, dumped_of_kept h]
      · rfl
    show { w.dumped.effect (.setJob job ex) () with
      jobs := (World.dumped (w.effect (.setJob job ex) r)).jobs } = _
    rw [hjobs]
    rfl
  | buildSummary job result =>
    have hsame : ∀ x, w.dumped.answer (.buildSummary job result) x =
        w.answer (.buildSummary job result) x := by
      rintro (_ | _ | _ | _ | (_ | _)) <;> rfl
    refine ⟨fun x hx => (hsame x).trans hx, fun x r hr => ⟨r, rfl, (hsame x).trans hr, rfl⟩⟩
  | _ =>
    refine ⟨fun x hx => ?_, fun x r hr => ⟨r, rfl, ?_, rfl⟩⟩
    · cases x <;> exact hx
    · cases x <;> exact hr

/-- A program that saves kept records only, on a store that holds kept records only. -/
theorem obeys_faithful {α : Type} {p : Prog α} {Q : Except Exn α → Unit → Prop}
    (hp : p.Obeys (passing Json.transcodeJob.Kept) Q ()) (hw : w.Kept) :
    p.Obeys (redis.within fun w c => c.Faithful w) (fun r w' => Q r () ∧ w'.Kept) w := by
  refine (Machine.obeys_within (I := fun _ v => World.Kept v) ?_ hp hw).mono ?_
  · intro _ v c hv hc
    refine ⟨?_, fun x r hr => ⟨?_, hv.effect r hc⟩⟩
    · cases c with
      | getJob id => exact hv id
      | setJob job ex => exact hc
      | _ => trivial
    · cases c with
      | getJob id =>
        cases hr
        exact fun job hjob => hv id job hjob
      | _ => trivial
  · exact fun r w' ⟨_, hQ, hw'⟩ => ⟨hQ, hw'⟩

theorem run_loading {α : Type} {p : Prog α} {Q : Except Exn α → World → Prop}
    (h : p.Obeys (redis.within fun w c => c.Faithful w) Q w.dumped) (tape : List Choice) :
    (redis.run (loading p) tape w).map (Prod.map id World.dumped) =
      redis.run p tape w.dumped :=
  Machine.run_through redis_clear h tape

theorem obeys_loading_iff {α : Type} {p : Prog α} {Q' Q : Except Exn α → World → Prop}
    (h : p.Obeys (redis.within fun w c => c.Faithful w) Q' w.dumped) :
    (loading p).Obeys redis.protocol (fun r w' => Q r w'.dumped) w ↔
      p.Obeys redis.protocol Q w.dumped :=
  Machine.obeys_through_iff redis_clear h

end

/-! The repository. -/

/-- The documents that Redis holds. -/
def World.documents (w : World) : JobDocuments where
  documents id := (w.jobs id).map dumpJob
  stateIndex := w.stateIndex

theorem loads_getJob (w : World) (id : Uuid) :
    loads (.getJob id) (w.jobs id) = w.documents.get id := by
  have hdocument : w.documents.documents id = (w.jobs id).map dumpJob := rfl
  rw [JobDocuments.get, hdocument]
  cases w.jobs id <;> rfl

section
variable {ctx : Context} {w : World} {job : TranscodeJob} {id : Uuid}

theorem loading_bind {α β : Type} (p : Prog α) (f : α → Prog β) :
    loading (p >>= f) = loading p >>= fun a => loading (f a) := through_bind p f

theorem get_some (h : w.jobs id = some job) : w.documents.get id = job.reload.map some := by
  rw [← loads_getJob, h]
  rfl

theorem get_readable (h : ∀ job, w.jobs id = some job → job.Readable) :
    w.documents.get id = .ok (w.dumped.jobs id) := by
  cases hj : w.jobs id with
  | none =>
    rw [← loads_getJob, hj, World.dumped_jobs, hj]
    rfl
  | some job =>
    rw [get_some hj, (h job hj).reload, World.dumped_jobs, hj]
    rfl

theorem get_refused (hj : w.jobs id = some job) (h : ¬ job.Readable) :
    ∃ e, w.documents.get id = .error e := by
  rw [get_some hj]
  cases hload : job.reload with
  | ok loaded => exact absurd ⟨loaded, hload⟩ h
  | error e => exact ⟨e, rfl⟩

theorem getAll_readable {ids : List Uuid}
    (h : ∀ id ∈ ids, ∀ job, w.jobs id = some job → job.Readable) :
    w.documents.getAll ids = .ok (ids.filterMap w.dumped.jobs) := by
  induction ids with
  | nil => rfl
  | cons id ids ih =>
    rw [JobDocuments.getAll, get_readable (h id List.mem_cons_self),
      ih fun id hid => h id (List.mem_cons_of_mem _ hid), List.filterMap_cons]
    cases w.dumped.jobs id <;> rfl

/-- One record that cannot be read makes every list with its id fail. -/
theorem getAll_refused {ids : List Uuid} (hid : id ∈ ids) (hj : w.jobs id = some job)
    (h : ¬ job.Readable) : ∃ e, w.documents.getAll ids = .error e := by
  induction ids with
  | nil => cases hid
  | cons head ids ih =>
    rw [JobDocuments.getAll]
    cases hhead : w.documents.get head with
    | error e => exact ⟨e, rfl⟩
    | ok stored =>
      have hrest : id ∈ ids := by
        refine (List.mem_cons.mp hid).resolve_left fun heq => ?_
        obtain ⟨e, herror⟩ := get_refused hj h
        rw [heq, hhead] at herror
        cases herror
      obtain ⟨e, herror⟩ := ih hrest
      exact ⟨e, by rw [herror]; rfl⟩

theorem obeys_loading_getJob {Q : Except Exn (Option TranscodeJob) → World → Prop} :
    (loading (getJob id)).Obeys redis.protocol Q w ↔ Q (w.documents.get id) w := by
  refine obeys_through_call.trans ⟨?_, ?_⟩
  · intro h
    rw [← loads_getJob]
    exact h.2 _ ⟨.go, rfl⟩
  · refine fun h => ⟨trivial, ?_⟩
    intro r ⟨x, hx⟩
    cases hx
    rw [loads_getJob]
    exact h

theorem obeys_loading_getJobs {ids : List Uuid}
    {Q : Except Exn (List TranscodeJob) → World → Prop} :
    (loading (getJobs ids)).Obeys redis.protocol Q w ↔ Q (w.documents.getAll ids) w := by
  induction ids generalizing Q with
  | nil => exact Iff.rfl
  | cons id ids ih =>
    rw [getJobs, loading_bind, obeys_bind, obeys_loading_getJob, JobDocuments.getAll]
    cases w.documents.get id with
    | error e => exact Iff.rfl
    | ok stored =>
      rw [andThen_ok, loading_bind, obeys_bind, ih]
      cases w.documents.getAll ids <;> exact Iff.rfl

/-- A listing reads the documents of the set in any order. -/
theorem obeys_loading_listByState {s : JobState} {limit offset : Nat}
    {Q : Except Exn (List TranscodeJob) → World → Prop} :
    (loading (listByState s limit offset)).Obeys redis.protocol Q w ↔
      ∀ ids : List Uuid, ids.Nodup → ids.toFinset = w.stateIndex s →
        Q (w.documents.listByState ids limit offset) w := by
  have hget : ∀ ids : List Uuid, (loading (getJobs ids >>= fun jobs =>
      (pure (((newestFirst jobs).drop offset).take limit) : Prog (List TranscodeJob)))).Obeys
        redis.protocol Q w ↔ Q (w.documents.listByState ids limit offset) w := by
    intro ids
    rw [loading_bind, obeys_bind, obeys_loading_getJobs, JobDocuments.listByState]
    cases w.documents.getAll ids <;> exact Iff.rfl
  unfold listByState
  rw [loading_bind, obeys_bind]
  refine obeys_through_call.trans ⟨?_, ?_⟩
  · intro h ids hn hids
    exact (hget ids).mp (h.2 ids ⟨.order ids, if_pos ⟨hn, hids⟩⟩)
  · refine fun h => ⟨trivial, ?_⟩
    rintro ids ⟨x, hx⟩
    obtain ⟨hn, hids⟩ := World.answer_smembers hx
    exact (hget ids).mpr (h ids hn hids)

/-- A save reads the record it replaces, and raises if that cannot be read. -/
theorem obeys_loading_saveJob {Q : Except Exn Unit → World → Prop} :
    (loading (saveJob ctx job)).Obeys redis.protocol Q w ↔
      match w.documents.get job.id with
      | .ok _ => Q (.ok ()) (w.saved ctx job)
      | .error e => Q (.error e) w := by
  have hrest : ∀ existing : Option TranscodeJob,
      (loading (leaveIndex (existing.map TranscodeJob.dumped) job >>= fun _ =>
        cmd (.setJob job ctx.queue.ttl.val) >>= fun _ => cmd (.saddState job.state job.id))) =
      leaveIndex existing job >>= fun _ =>
        cmd (.setJob job ctx.queue.ttl.val) >>= fun _ => cmd (.saddState job.state job.id) := by
    intro existing
    cases existing with
    | none => rfl
    | some old =>
      have hstate : old.dumped.state = old.state := rfl
      unfold leaveIndex
      simp only [Option.map_some, hstate]
      split <;> rfl
  have hsave := @obeys_saveJob ctx w job Q
  unfold saveJob at hsave ⊢
  rw [obeys_bind, obeys_getJob, andThen_ok] at hsave
  rw [loading_bind, obeys_bind, obeys_loading_getJob]
  by_cases hread : ∀ old, w.jobs job.id = some old → old.Readable
  · rw [get_readable hread, andThen_ok, World.dumped_jobs, hrest]
    exact hsave
  · simp only [not_forall] at hread
    obtain ⟨old, hold, hrefused⟩ := hread
    obtain ⟨e, herror⟩ := get_refused hold hrefused
    rw [herror]
    exact Iff.rfl

/-- What is stored as dumped is what is dumped of the record. -/
theorem dumped_saved : (w.saved ctx job).dumped = w.dumped.saved ctx job.dumped := by
  have hjobs : (fun id => (Function.update w.jobs job.id (some job) id).map TranscodeJob.dumped) =
      Function.update w.dumped.jobs job.id (some job.dumped) := by
    funext id
    rw [Function.update_apply, Function.update_apply]
    split <;> rfl
  simp only [World.saved, World.dumped, hjobs, Option.map_map]
  rfl

/-- A command whose reply is no record. -/
theorem loading_cmd_bind {α : Type} {c : Cmd} (hc : ∀ r, loads c r = .ok r)
    (f : Reply c → Prog α) : loading (cmd c >>= f) = cmd c >>= fun r => loading (f r) := by
  have hcmd : loading (cmd c) = cmd c := by
    refine congrArg (Program.ask c) (funext fun r => ?_)
    show (Program.ofExcept (loads c r)).bind _ = _
    rw [hc]
    rfl
  rw [loading_bind, hcmd]

theorem loading_saveJob_readable {job : TranscodeJob} (hread : w.Readable)
    {Q : Except Exn Unit → World → Prop} (h : Q (.ok ()) (w.saved ctx job)) :
    (loading (saveJob ctx job)).Obeys redis.protocol Q w := by
  rw [obeys_loading_saveJob, get_readable (hread job.id)]
  exact h

/-- Enqueueing reads no record but the one that its save replaces. -/
theorem loading_enqueueJob_alone (hread : w.Readable) (probed : ProbedInput)
    (chosen : ProfileMatch) :
    (loading (enqueueJob ctx probed chosen)).Obeys redis.protocol (Enqueue ctx probed chosen w)
      w := by
  unfold enqueueJob isProcessed markProcessed enqueue
  rw [loading_cmd_bind fun _ => rfl, obeys_bind, obeys_cmd _
    (w.processed (ctx.py.canonicalPath probed.path)).isSome (fun _ => rfl), andThen_ok]
  cases hp : w.processed (ctx.py.canonicalPath probed.path) with
  | some id => exact .known (by rw [hp]; exact Option.some_ne_none id)
  | none =>
    simp only [Option.isSome_none, Bool.false_eq_true, if_false, World.effect]
    rw [loading_cmd_bind fun _ => rfl, obeys_bind]
    refine ⟨trivial, ?_⟩
    rintro id ⟨x, hx⟩
    have hid := World.answer_uuid4 hx
    rw [Obeys, andThen_ok, loading_cmd_bind fun _ => rfl, obeys_bind, obeys_now, andThen_ok,
      loading_bind, obeys_bind]
    have hnumbered : (w.numbered id).Readable := hread
    refine loading_saveJob_readable hnumbered ?_
    rw [andThen_ok, loading_cmd_bind fun _ => rfl, obeys_bind, obeys_cmd _ () (fun _ => rfl),
      andThen_ok, loading_cmd_bind fun _ => rfl, obeys_bind, obeys_cmd _ () (fun _ => rfl),
      andThen_ok]
    exact Enqueue.enqueued hp hid
/-- The profile is valid, and the floats it needs are numbers. -/
structure VshiftProfile.Readable (profile : VshiftProfile) : Prop where
  valid : profile.validate = .ok ()
  quality : profile.video.quality.Finite
  frameRate : profile.video.frameRateType = .custom →
    ∀ rate, profile.video.frameRate = some rate → rate.Finite

theorem validateFrameRate_ok {video : VideoProfile} : video.validateFrameRate = .ok () ↔
    (video.frameRateType = .custom → video.frameRate ≠ none) := by
  unfold VideoProfile.validateFrameRate
  split <;> simp_all

theorem dumped_frameRate_ne_none {video : VideoProfile} : video.dumped.frameRate ≠ none ↔
    video.frameRate ≠ none ∧ ∀ rate, video.frameRate = some rate → rate.Finite := by
  cases h : video.frameRate <;> simp [VideoProfile.dumped, h]

/-- The record of an enqueued job can be read back exactly if that can be said of its profile. -/
theorem newJob_readable_iff {probed : ProbedInput} {chosen : ProfileMatch} {now : DateTime} :
    (newJob ctx probed chosen id now).Readable ↔ chosen.profile.Readable := by
  have hvalid : ∀ profile : VshiftProfile, profile.validate = .ok () ↔
      (profile.video.validateFrameRate = .ok () ∧ profile.video.validateQuality = .ok ()) ∧
        profile.validateProfile = .ok () :=
    fun profile => Json.except_seq_ok.trans (and_congr_left fun _ => Json.except_seq_ok)
  rw [readable_iff, Json.transcodeJob_kept, hvalid, validateFrameRate_ok]
  constructor
  · rintro ⟨hfinite, ⟨⟨hdumped, hquality⟩, hprofile⟩, -⟩
    have hrate := fun hcustom => dumped_frameRate_ne_none.mp (hdumped hcustom)
    refine ⟨?_, hfinite.quality, fun hcustom => (hrate hcustom).2⟩
    rw [hvalid, validateFrameRate_ok]
    exact ⟨⟨fun hcustom => (hrate hcustom).1, hquality⟩, hprofile⟩
  · intro h
    obtain ⟨⟨hrate, hquality⟩, hprofile⟩ := (hvalid chosen.profile).mp h.valid
    refine ⟨⟨h.quality, fun rate hr => ?_⟩, ⟨⟨fun hcustom => ?_, hquality⟩, hprofile⟩,
      Nat.le_refl 1⟩
    · exact of_decide_eq_true (Option.filter_eq_some_iff.mp hr).2
    · apply dumped_frameRate_ne_none.mpr
      exact ⟨validateFrameRate_ok.mp hrate hcustom, h.frameRate hcustom⟩

end

/-! A job that is stored and never read. -/

def nanContext : Context := ⟨{}, nanConfig, posix⟩

/-- The match of a file whose profile has the quality `.nan`. -/
def nanMatch : ProfileMatch where
  ruleId := "default"
  profileName := "inline_profile"
  profile := { inlineProfile with video := { codec := "h264", quality := .nan } }

def nanJob : TranscodeJob := newJob nanContext (mp4File "/tmp/input/a.mp4") nanMatch 1 0

theorem defaultMatch_kept : Json.vshiftProfile.Kept defaultMatch.profile :=
  Json.vshiftProfile_kept.mpr ⟨⟨⟨22, rfl⟩, fun _ h => nomatch h⟩, rfl⟩

theorem nanMatch_matched : matchProfile nanContext.py nanContext.config.toRawConfig
    (mp4File "/tmp/input/a.mp4") = .ok (some nanMatch) := by decide

theorem nanJob_refused : ¬ nanJob.Readable := by
  intro h
  obtain ⟨q, hq⟩ := (newJob_readable_iff.mp h).quality
  cases hq

end Vshift
