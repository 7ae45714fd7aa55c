import Vshift.Codec
import Vshift.Alone

/- Job records as the documents that Redis holds.

   Each model has a codec with the field names, defaults and validators of the
   source, so that `model_dump_json` and `model_validate_json` are its two sides.
   A non-finite float is written as null; every other value is read back as it was
   written. `JobDocuments` is `RedisJobRepository` over such documents, and
   `documents_refine` says that it stores what the record store of the other
   modules stores, as long as the jobs are kept by the codec. `persists_iff` is
   which jobs are: those whose profile has finite floats. -/
namespace Vshift
open Document

/-- What a JSON scalar stands for. -/
inductive Atom where
  | bool (b : Bool)
  | int (n : Int)
  | float (q : Rat)
  | text (s : String)
  | uuid (id : Uuid)
  | path (p : Path)
  | datetime (t : DateTime)
  deriving DecidableEq

/-- The floats of a profile are numbers. -/
structure VideoProfile.Finite (video : VideoProfile) : Prop where
  quality : video.quality.Finite
  frameRate : ∀ rate, video.frameRate = some rate → rate.Finite

abbrev Json := Doc Atom

abbrev JsonCodec (α : Type) := Codec Atom Exn α

/-! Scalars. -/

namespace Json

def bool : JsonCodec Bool :=
  .scalar .bool (fun | .bool b => some b | _ => none) fun _ => rfl

def int : JsonCodec Int :=
  .scalar .int (fun | .int n => some n | _ => none) fun _ => rfl

def text : JsonCodec String :=
  .scalar .text (fun | .text s => some s | _ => none) fun _ => rfl

def uuid : JsonCodec Uuid :=
  .scalar .uuid (fun | .uuid id => some id | _ => none) fun _ => rfl

def path : JsonCodec Path :=
  .scalar .path (fun | .path p => some p | _ => none) fun _ => rfl

def datetime : JsonCodec DateTime :=
  .scalar .datetime (fun | .datetime t => some t | _ => none) fun _ => rfl

/-- NaN and infinity are written as null, which is not a number. -/
def float : JsonCodec PyFloat where
  write
    | .finite q => .atom (.float q)
    | _ => .null
  read
    | .atom (.float q) => .ok (.finite q)
    -- an integer is a valid float
    | .atom (.int n) => .ok (.finite n)
    | _ => .error .invalid
  Kept x := x.Finite
  read_write x := by cases x <;> simp [PyFloat.Finite]

/-- What is written as an atom is not null. -/
theorem atom_ne_null (a : Atom) : (Doc.atom a : Json) ≠ .null := by simp

def optionalInt : JsonCodec (Option Int) := int.optional fun n _ => atom_ne_null (.int n)

def optionalText : JsonCodec (Option String) := text.optional fun s _ => atom_ne_null (.text s)

def optionalUuid : JsonCodec (Option Uuid) := uuid.optional fun id _ => atom_ne_null (.uuid id)

def optionalDatetime : JsonCodec (Option DateTime) :=
  datetime.optional fun t _ => atom_ne_null (.datetime t)

def optionalFloat : JsonCodec (Option PyFloat) :=
  float.optional fun x h => by
    obtain ⟨q, hq⟩ := h
    rw [hq]
    exact atom_ne_null (.float q)

/-- A `StrEnum`, by the values of its members. -/
def enum {α : Type} (members : List α) (value : α → String)
    (h : ∀ a, members.find? (fun b => value b == value a) = some a) : JsonCodec α :=
  .scalar (fun a => .text (value a))
    (fun | .text s => members.find? (fun b => value b == s) | _ => none) h

/-- A `Literal` of integers. -/
def literal {α : Type} (members : List α) (value : α → Int)
    (h : ∀ a, members.find? (fun b => value b == value a) = some a) : JsonCodec α :=
  .scalar (fun a => .int (value a))
    (fun | .int n => members.find? (fun b => value b == n) | _ => none) h

/-- `Field(ge=1)` -/
def positive : JsonCodec Nat where
  write n := .atom (.int n)
  read
    | .atom (.int n) => if 1 ≤ n then .ok n.toNat else .error .invalid
    | _ => .error .invalid
  Kept n := 1 ≤ n
  read_write n := by
    by_cases h : 1 ≤ n
    · have hint : (1 : Int) ≤ n := by omega
      simp [h, hint]
    · have hint : ¬ (1 : Int) ≤ n := by omega
      simp [h, hint]

/-- Validators that run on load as they do when the value is built. -/
def validator (result : Except Exn Unit) : Except (Rejection Exn) Unit :=
  match result with
  | .ok () => .ok ()
  | .error e => .error (.raised e)

theorem validator_ok {result : Except Exn Unit} : validator result = .ok () ↔ result = .ok () := by
  cases result <;> simp [validator]

end Json

/-! Models. -/

namespace Json

def frameRateType : JsonCodec FrameRateType :=
  enum FrameRateType.members FrameRateType.value fun a => by cases a <;> decide

def qualityMode : JsonCodec QualityMode :=
  enum QualityMode.members QualityMode.value fun a => by cases a <;> decide

def framerateMode : JsonCodec FramerateMode :=
  enum FramerateMode.members FramerateMode.value fun a => by cases a <;> decide

def audioSelectionMode : JsonCodec AudioSelectionMode :=
  enum AudioSelectionMode.members AudioSelectionMode.value fun a => by cases a <;> decide

def subtitleSelectionMode : JsonCodec SubtitleSelectionMode :=
  enum SubtitleSelectionMode.members SubtitleSelectionMode.value fun a => by cases a <;> decide

def videoEncoder : JsonCodec VideoEncoder :=
  enum VideoEncoder.members VideoEncoder.value fun a => by cases a <;> decide

def bitDepth : JsonCodec BitDepth :=
  literal BitDepth.members BitDepth.value fun a => by cases a <;> decide

def jobState : JsonCodec JobState :=
  enum JobState.members JobState.value fun a => by cases a <;> decide

/-- `VideoProfile` -/
def videoProfile : JsonCodec VideoProfile :=
  (Fields.record
    (.and (.field "codec" text (·.codec) none) <|
      .and (.field "encoder" videoEncoder (·.encoder) (some .auto)) <|
      .and (.field "color_space" text (·.colorSpace) (some "yuv420p")) <|
      .and (.field "bit_depth" bitDepth (·.bitDepth) (some .eight)) <|
      .and (.field "frame_rate_type" frameRateType (·.frameRateType) (some .sameAsSource)) <|
      .and (.field "frame_rate" optionalFloat (·.frameRate) (some none)) <|
      .and (.field "framerate_mode" framerateMode (·.framerateMode) (some .vfr)) <|
      .and (.field "width" optionalInt (·.width) (some none)) <|
      .and (.field "height" optionalInt (·.height) (some none)) <|
      .and (.field "quality_mode" qualityMode (·.qualityMode) (some .constant)) <|
      .and (.field "quality" float (·.quality) (some (.finite 22))) <|
      .and (.field "average_bitrate" optionalInt (·.averageBitrate) (some none)) <|
      .and (.field "encoder_preset" text (·.encoderPreset) (some "medium")) <|
      .and (.field "encoder_tune" text (·.encoderTune) (some "")) <|
      .and (.field "encoder_profile" text (·.encoderProfile) (some "auto")) <|
      .and (.field "encoder_level" text (·.encoderLevel) (some "auto")) <|
      .and (.field "multi_pass" bool (·.multiPass) (some false)) <|
      .and (.field "turbo_multi_pass" bool (·.turboMultiPass) (some false)) <|
      .field "grayscale" bool (·.grayscale) (some false))
    (fun (codec, encoder, colorSpace, bitDepth, frameRateType, frameRate, framerateMode, width,
        height, qualityMode, quality, averageBitrate, encoderPreset, encoderTune, encoderProfile,
        encoderLevel, multiPass, turboMultiPass, grayscale) =>
      { codec, encoder, colorSpace, bitDepth, frameRateType, frameRate, framerateMode, width,
        height, qualityMode, quality, averageBitrate, encoderPreset, encoderTune, encoderProfile,
        encoderLevel, multiPass, turboMultiPass, grayscale })
    (fun _ => rfl) (fun _ => rfl) (by decide)).checked fun video => validator video.validate

/-- `AudioTrack` -/
def audioTrack : JsonCodec AudioTrack :=
  Fields.record
    (.and (.field "codec" text (·.codec) none) <|
      .and (.field "bit_rate" int (·.bitRate) none) <|
      .and (.field "sample_rate" optionalInt (·.sampleRate) (some none)) <|
      .and (.field "mixdown" text (·.mixdown) (some "stereo")) <|
      .field "copy_track" bool (·.copyTrack) (some false))
    (fun (codec, bitRate, sampleRate, mixdown, copyTrack) =>
      { codec, bitRate, sampleRate, mixdown, copyTrack })
    (fun _ => rfl) (fun _ => rfl) (by decide)

/-- `SubtitleTrack` -/
def subtitleTrack : JsonCodec SubtitleTrack :=
  Fields.record
    (.and (.field "language" text (·.language) (some "und")) <|
      .and (.field "codec" text (·.codec) (some "copy")) <|
      .and (.field "copy_track" bool (·.copyTrack) (some true)) <|
      .and (.field "burn_in" bool (·.burnIn) (some false)) <|
      .field "is_default" bool (·.isDefault) (some false))
    (fun (language, codec, copyTrack, burnIn, isDefault) =>
      { language, codec, copyTrack, burnIn, isDefault })
    (fun _ => rfl) (fun _ => rfl) (by decide)

/-- `VshiftProfile` -/
def vshiftProfile : JsonCodec VshiftProfile :=
  (Fields.record
    (.and (.field "name" text (·.name) none) <|
      .and (.field "description" text (·.description) (some "")) <|
      .and (.field "format" text (·.format) none) <|
      .and (.field "video" videoProfile (·.video) none) <|
      .and (.field "audio_tracks" audioTrack.list (·.audioTracks) (some [])) <|
      .and (.field "audio_selection_mode" audioSelectionMode (·.audioSelectionMode)
        (some .auto)) <|
      .and (.field "audio_language_list" text.list (·.audioLanguageList) (some [])) <|
      .and (.field "audio_passthrough" bool (·.audioPassthrough) (some false)) <|
      .and (.field "subtitle_tracks" subtitleTrack.list (·.subtitleTracks) (some [])) <|
      .and (.field "subtitle_selection_mode" subtitleSelectionMode (·.subtitleSelectionMode)
        (some .auto)) <|
      .and (.field "subtitle_language_list" text.list (·.subtitleLanguageList) (some [])) <|
      .and (.field "subtitle_passthrough" bool (·.subtitlePassthrough) (some false)) <|
      .and (.field "chapter_markers" bool (·.chapterMarkers) (some true)) <|
      .field "optimize" bool (·.optimize) (some false))
    (fun (name, description, format, video, audioTracks, audioSelectionMode, audioLanguageList,
        audioPassthrough, subtitleTracks, subtitleSelectionMode, subtitleLanguageList,
        subtitlePassthrough, chapterMarkers, optimize) =>
      { name, description, format, video, audioTracks, audioSelectionMode, audioLanguageList,
        audioPassthrough, subtitleTracks, subtitleSelectionMode, subtitleLanguageList,
        subtitlePassthrough, chapterMarkers, optimize })
    (fun _ => rfl) (fun _ => rfl) (by decide)).checked
      fun profile => validator profile.validateProfile

/-- `TranscodeJob` -/
def transcodeJob : JsonCodec TranscodeJob :=
  Fields.record
    (.and (.field "id" uuid (·.id) none) <|
      .and (.field "input_path" path (·.inputPath) none) <|
      .and (.field "output_path" path (·.outputPath) none) <|
      .and (.field "profile_name" text (·.profileName) none) <|
      .and (.field "profile_snapshot" vshiftProfile (·.profileSnapshot) none) <|
      .and (.field "state" jobState (·.state) none) <|
      .and (.field "worker_id" optionalUuid (·.workerId) (some none)) <|
      .and (.field "created_at" datetime (·.createdAt) none) <|
      .and (.field "claimed_at" optionalDatetime (·.claimedAt) (some none)) <|
      .and (.field "started_at" optionalDatetime (·.startedAt) (some none)) <|
      .and (.field "completed_at" optionalDatetime (·.completedAt) (some none)) <|
      .and (.field "attempt" positive (·.attempt) (some 1)) <|
      .and (.field "error_message" optionalText (·.errorMessage) (some none)) <|
      .field "match_rule_id" text (·.matchRuleId) none)
    (fun (id, inputPath, outputPath, profileName, profileSnapshot, state, workerId, createdAt,
        claimedAt, startedAt, completedAt, attempt, errorMessage, matchRuleId) =>
      { id, inputPath, outputPath, profileName, profileSnapshot, state, workerId, createdAt,
        claimedAt, startedAt, completedAt, attempt, errorMessage, matchRuleId })
    (fun _ => rfl) (fun _ => rfl) (by decide)

/-! Which values are kept. -/

theorem except_seq_ok {ε β : Type} {x : Except ε Unit} {y : Except ε β} {b : β} :
    (x >>= fun _ => y) = .ok b ↔ x = .ok () ∧ y = .ok b := by
  cases x <;> simp [bind, Except.bind]

theorem videoProfile_kept {video : VideoProfile} :
    videoProfile.Kept video ↔ video.Finite ∧ video.validate = .ok () := by
  simp only [videoProfile, Codec.checked, Fields.record, Fields.and, Fields.field, text, bool,
    videoEncoder, bitDepth, frameRateType, optionalFloat, framerateMode, optionalInt, int,
    qualityMode, float, enum, literal, Codec.scalar, Codec.optional, validator_ok, true_and,
    and_true, implies_true]
  refine and_congr_left fun _ => ⟨fun h => ⟨h.2, h.1⟩, fun h => ⟨h.frameRate, h.quality⟩⟩

theorem audioTrack_kept (track : AudioTrack) : audioTrack.Kept track := by
  simp [audioTrack, Fields.record, Fields.and, Fields.field, text, bool, int, optionalInt,
    Codec.scalar, Codec.optional]

theorem subtitleTrack_kept (track : SubtitleTrack) : subtitleTrack.Kept track := by
  simp [subtitleTrack, Fields.record, Fields.and, Fields.field, text, bool, Codec.scalar]

theorem vshiftProfile_kept {profile : VshiftProfile} :
    vshiftProfile.Kept profile ↔ profile.video.Finite ∧ profile.validate = .ok () := by
  have hvalidate : profile.validate = .ok () ↔
      profile.video.validate = .ok () ∧ profile.validateProfile = .ok () := except_seq_ok
  simp only [vshiftProfile, Codec.checked, Fields.record, Fields.and, Fields.field, text, bool,
    audioSelectionMode, subtitleSelectionMode, enum, Codec.scalar, Codec.list, validator_ok,
    videoProfile_kept, audioTrack_kept, subtitleTrack_kept, hvalidate, true_and, and_true,
    implies_true, and_assoc]

/-- A job is read back as it was written exactly when its profile has finite floats, and passes
    the validators, which run again. -/
theorem transcodeJob_kept {job : TranscodeJob} :
    transcodeJob.Kept job ↔ job.profileSnapshot.video.Finite ∧
      job.profileSnapshot.validate = .ok () ∧ 1 ≤ job.attempt := by
  simp only [transcodeJob, Fields.record, Fields.and, Fields.field, uuid, path, text, datetime,
    jobState, optionalUuid, optionalDatetime, optionalText, positive, enum, Codec.scalar,
    Codec.optional, vshiftProfile_kept, true_and, and_true, implies_true, and_assoc]

end Json

/-! `RedisJobRepository` over documents. -/

structure JobDocuments where
  documents : Uuid → Option Json
  stateIndex : JobState → Finset Uuid

/-- What a failed load raises. -/
def Rejected : Rejection Exn → Exn
  | .invalid => .other "ValidationError"
  | .raised e => e

/-- `TranscodeJob.model_validate_json(payload)` -/
def loadJob (payload : Json) : Except Exn TranscodeJob :=
  (Json.transcodeJob.read payload).mapError Rejected

theorem loadJob_ok {payload : Json} {job : TranscodeJob} :
    loadJob payload = .ok job ↔ Json.transcodeJob.read payload = .ok job := by
  unfold loadJob
  cases Json.transcodeJob.read payload <;> simp [Except.mapError]

/-- `job.model_dump_json()` -/
def dumpJob (job : TranscodeJob) : Json := Json.transcodeJob.write job

namespace JobDocuments

def get (r : JobDocuments) (id : Uuid) : Except Exn (Option TranscodeJob) :=
  match r.documents id with
  | none => .ok none
  | some payload => (loadJob payload).map some

/-- `if existing is not None and existing.state != job.state: srem(...)` -/
def leave (r : JobDocuments) (existing : Option TranscodeJob) (job : TranscodeJob) :
    JobDocuments :=
  match existing with
  | some old =>
    if old.state ≠ job.state then
      { r with stateIndex :=
          Function.update r.stateIndex old.state ((r.stateIndex old.state).erase job.id) }
    else r
  | none => r

/-- `SET`, then `SADD` -/
def put (r : JobDocuments) (job : TranscodeJob) : JobDocuments where
  documents := Function.update r.documents job.id (some (dumpJob job))
  stateIndex := Function.update r.stateIndex job.state (insert job.id (r.stateIndex job.state))

def save (r : JobDocuments) (job : TranscodeJob) : Except Exn JobDocuments := do
  let existing ← r.get job.id
  pure ((r.leave existing job).put job)

/-- The records of the listed ids that are stored, in the order listed. -/
def getAll (r : JobDocuments) : List Uuid → Except Exn (List TranscodeJob)
  | [] => .ok []
  | id :: ids => do
    let job ← r.get id
    let jobs ← r.getAll ids
    pure (job.toList ++ jobs)

/-- `list_by_state`, with the members of the set in the order `SMEMBERS` yields. -/
def listByState (r : JobDocuments) (ids : List Uuid) (limit offset : Nat) :
    Except Exn (List TranscodeJob) := do
  let jobs ← r.getAll ids
  pure (((newestFirst jobs).drop offset).take limit)

/-- No read raises. -/
def Readable (r : JobDocuments) : Prop := ∀ id, ∃ stored, r.get id = .ok stored

section
variable {r : JobDocuments}

/-- A job the codec keeps is read back as it was saved. -/
theorem loadJob_dumpJob {job : TranscodeJob} :
    loadJob (dumpJob job) = .ok job ↔ Json.transcodeJob.Kept job :=
  loadJob_ok.trans (Json.transcodeJob.read_write job)

theorem leave_documents (existing : Option TranscodeJob) (job : TranscodeJob) :
    (r.leave existing job).documents = r.documents := by
  unfold leave
  split
  · split <;> rfl
  · rfl

theorem save_eq {job : TranscodeJob} {existing : Option TranscodeJob}
    (h : r.get job.id = .ok existing) : r.save job = .ok ((r.leave existing job).put job) := by
  unfold save
  rw [h]
  rfl

theorem get_put_self (job : TranscodeJob) :
    (r.put job).get job.id = (loadJob (dumpJob job)).map some := by
  simp [get, put]

theorem get_put_of_ne {job : TranscodeJob} {id : Uuid} (h : id ≠ job.id) :
    (r.put job).get id = r.get id := by
  simp [get, put, Function.update_of_ne h]

theorem get_leave (existing : Option TranscodeJob) (job : TranscodeJob) (id : Uuid) :
    (r.leave existing job).get id = r.get id := by
  unfold get
  rw [leave_documents]

theorem Readable.getAll (h : r.Readable) (ids : List Uuid) : ∃ jobs, r.getAll ids = .ok jobs := by
  induction ids with
  | nil => exact ⟨[], rfl⟩
  | cons id ids ih =>
    obtain ⟨stored, hstored⟩ := h id
    obtain ⟨jobs, hjobs⟩ := ih
    refine ⟨stored.toList ++ jobs, ?_⟩
    rw [JobDocuments.getAll, hstored, hjobs]
    rfl

theorem Readable.listByState (h : r.Readable) (ids : List Uuid) (limit offset : Nat) :
    ∃ jobs, r.listByState ids limit offset = .ok jobs := by
  obtain ⟨jobs, hjobs⟩ := h.getAll ids
  refine ⟨((newestFirst jobs).drop offset).take limit, ?_⟩
  rw [JobDocuments.listByState, hjobs]
  rfl

/-- Saving a job that the codec keeps. -/
theorem Readable.save (h : r.Readable) {job : TranscodeJob} (hjob : Json.transcodeJob.Kept job) :
    ∃ r', r.save job = .ok r' ∧ r'.get job.id = .ok (some job) ∧ r'.Readable := by
  obtain ⟨existing, hexisting⟩ := h job.id
  have hself : ((r.leave existing job).put job).get job.id = .ok (some job) := by
    rw [get_put_self, loadJob_dumpJob.mpr hjob]
    rfl
  refine ⟨_, save_eq hexisting, hself, ?_⟩
  intro id
  by_cases hid : id = job.id
  · exact ⟨some job, hid ▸ hself⟩
  · rw [get_put_of_ne hid, get_leave]
    exact h id

end
end JobDocuments

/-! The documents of a record store. -/

/-- The documents are those of the records, and the sets are the same. -/
structure JobDocuments.Represents (r : JobDocuments) (w : World) : Prop where
  documents : ∀ id, r.documents id = (w.jobs id).map dumpJob
  stateIndex : r.stateIndex = w.stateIndex

/-- Every record is read back as it was written. -/
def World.Kept (w : World) : Prop :=
  ∀ id job, w.jobs id = some job → Json.transcodeJob.Kept job

section
variable {r : JobDocuments} {w : World}

theorem JobDocuments.Represents.get (h : r.Represents w) (hw : w.Kept) (id : Uuid) :
    r.get id = .ok (w.jobs id) := by
  unfold JobDocuments.get
  rw [h.documents]
  cases hj : w.jobs id with
  | none => rfl
  | some job =>
    show (loadJob (dumpJob job)).map some = .ok (some job)
    rw [loadJob_dumpJob.mpr (hw id job hj)]
    rfl

/-- As long as the jobs are kept, reads and saves of documents are those of records. -/
theorem documents_refine (ctx : Context) (h : r.Represents w) (hw : w.Kept) {job : TranscodeJob}
    (hjob : Json.transcodeJob.Kept job) :
    (∀ id, r.get id = .ok (w.jobs id)) ∧
      ∃ r', r.save job = .ok r' ∧ r'.Represents (w.saved ctx job) ∧ (w.saved ctx job).Kept := by
  refine ⟨h.get hw, _, JobDocuments.save_eq (h.get hw job.id), ⟨?_, ?_⟩, ?_⟩
  · intro id
    show Function.update (r.leave (w.jobs job.id) job).documents job.id (some (dumpJob job)) id =
      (Function.update w.jobs job.id (some job) id).map dumpJob
    rw [JobDocuments.leave_documents]
    by_cases hid : id = job.id
    · rw [hid, Function.update_self, Function.update_self, Option.map_some]
    · rw [Function.update_of_ne hid, Function.update_of_ne hid, h.documents]
  · funext s
    rw [World.saved_stateIndex]
    show Function.update (r.leave (w.jobs job.id) job).stateIndex job.state _ s = _
    have hindex := h.stateIndex
    by_cases hs : s = job.state
    · subst hs
      rw [Function.update_self, if_pos rfl]
      cases hold : w.jobs job.id with
      | none => simp [JobDocuments.leave, hindex]
      | some old =>
        by_cases hstate : old.state = job.state
        · simp [JobDocuments.leave, hindex, hstate]
        · simp [JobDocuments.leave, hindex, hstate, Function.update_of_ne (Ne.symm hstate)]
    · rw [Function.update_of_ne hs, if_neg hs]
      cases hold : w.jobs job.id with
      | none => simp [JobDocuments.leave, hindex]
      | some old =>
        by_cases hstate : old.state = job.state
        · simp [JobDocuments.leave, hindex, hstate, Ne.symm hs]
        · by_cases hso : s = old.state
          · simp [JobDocuments.leave, hindex, hstate, hso]
          · simp [JobDocuments.leave, hindex, hstate, Function.update_of_ne hso, Ne.symm hso]
  · intro id stored hstored
    rw [World.saved_jobs] at hstored
    by_cases hid : id = job.id
    · rw [hid, Function.update_self, Option.some.injEq] at hstored
      exact hstored ▸ hjob
    · rw [Function.update_of_ne hid] at hstored
      exact hw id stored hstored

end

/-! Jobs of an accepted configuration. -/

theorem collect_ok {results : List (Except Exn Unit)} (h : collect results = .ok ()) :
    ∀ result ∈ results, result = .ok () := by
  induction results with
  | nil => exact fun _ h => by cases h
  | cons head rest ih =>
    cases head with
    | ok u => exact List.forall_mem_cons.mpr ⟨rfl, ih h⟩
    | error e =>
      cases e with
      | vshift message => cases h
      | other name =>
        rw [collect] at h
        split at h <;> cases h

theorem mem_of_profile? {config : RawConfig} {name : String} {profile : VshiftProfile}
    (h : config.profile? name = some profile) : ∃ entry ∈ config.profiles, entry.2 = profile := by
  unfold RawConfig.profile? at h
  exact ⟨(name, profile), mem_of_lookup h, rfl⟩

theorem chosen_profile {py : Platform} {config : RawConfig} {probed : ProbedInput}
    {chosen : ProfileMatch} (h : matchProfile py config probed = .ok (some chosen)) :
    ∃ name, config.profile? name = some chosen.profile := by
  unfold matchProfile at h
  split at h
  · split at h
    · next rule _ profile hprofile =>
      cases h
      exact ⟨_, hprofile⟩
    · cases h
  · split at h
    · cases h
    · cases h
    · split at h
      · cases h
      · split at h
        · next name profile hprofile =>
          cases h
          exact ⟨_, hprofile⟩
        · cases h

/-- The profile of a match passed its validators. -/
theorem chosen_valid {py : Platform} {config : VshiftConfig} {probed : ProbedInput}
    {chosen : ProfileMatch} (h : matchProfile py config.toRawConfig probed = .ok (some chosen)) :
    chosen.profile.validate = .ok () := by
  obtain ⟨name, hprofile⟩ := chosen_profile h
  obtain ⟨entry, hmem, heq⟩ := mem_of_profile? hprofile
  obtain ⟨_, hfields, -⟩ := except_bind_ok config.accepted
  rw [← heq]
  apply collect_ok hfields
  apply List.mem_cons_of_mem
  exact List.mem_append_left _ (List.mem_map.mpr ⟨entry, hmem, rfl⟩)

/-- The job `EnqueueJob` builds, and the copies of it that the use cases save. -/
inductive Copy (job : TranscodeJob) : TranscodeJob → Prop
  | created : Copy job job
  | claimed {copy} (worker : Uuid) (now : DateTime) (h : Copy job copy) :
      Copy job (copy.claimedBy worker now)
  | started {copy} (now : DateTime) (h : Copy job copy) : Copy job (copy.started now)
  | completed {copy} (now : DateTime) (h : Copy job copy) : Copy job (copy.completed now)
  | failed {copy} (error : String) (now : DateTime) (h : Copy job copy) :
      Copy job (copy.failed error now)
  | requeued {copy} (error : String) (h : Copy job copy) : Copy job (copy.requeued error)

/-- No copy loses what the codec asks of the job. -/
theorem Copy.kept {job copy : TranscodeJob} (h : Copy job copy)
    (hjob : Json.transcodeJob.Kept job) : Json.transcodeJob.Kept copy := by
  have hkept := Json.transcodeJob_kept.mp hjob
  apply Json.transcodeJob_kept.mpr
  induction h with
  | created => exact hkept
  | claimed worker now h ih => exact ih
  | started now h ih => exact ih
  | completed now h ih => exact ih
  | failed error now h ih => exact ih
  | requeued error h ih => exact ⟨ih.1, ih.2.1, Nat.le_add_left 1 _⟩

/-- Every copy of the job is read back right after it is saved, whatever readable records there
    are, and no read raises then. -/
def Persists (job : TranscodeJob) : Prop :=
  ∀ copy, Copy job copy → ∀ r : JobDocuments, r.Readable →
    ∃ r', r.save copy = .ok r' ∧ r'.get copy.id = .ok (some copy) ∧
      r'.Readable ∧ ∀ ids limit offset, ∃ jobs, r'.listByState ids limit offset = .ok jobs

theorem persists_of_kept {job : TranscodeJob} (h : Json.transcodeJob.Kept job) : Persists job := by
  intro copy hcopy r hr
  obtain ⟨r', hsave, hget, hreadable⟩ := hr.save (hcopy.kept h)
  exact ⟨r', hsave, hget, hreadable, hreadable.listByState⟩

theorem kept_of_persists {job : TranscodeJob} (h : Persists job) : Json.transcodeJob.Kept job := by
  -- one save into an empty store and one read decide
  have hempty : JobDocuments.Readable ⟨fun _ => none, fun _ => ∅⟩ := fun _ => ⟨none, rfl⟩
  obtain ⟨r', hsave, hget, -⟩ := h job .created _ hempty
  rw [JobDocuments.save_eq rfl, Except.ok.injEq] at hsave
  rw [← hsave, JobDocuments.get_put_self] at hget
  apply JobDocuments.loadJob_dumpJob.mp
  cases hload : loadJob (dumpJob job) with
  | error e =>
    rw [hload] at hget
    cases hget
  | ok loaded =>
    rw [hload] at hget
    cases hget
    rfl

/-- The job of a match persists exactly when the profile's floats are numbers. -/
theorem persists_iff (ctx : Context) (probed : ProbedInput) {chosen : ProfileMatch}
    (h : matchProfile ctx.py ctx.config.toRawConfig probed = .ok (some chosen)) (id : Uuid)
    (now : DateTime) :
    Persists (newJob ctx probed chosen id now) ↔ chosen.profile.video.Finite := by
  have hkept : Json.transcodeJob.Kept (newJob ctx probed chosen id now) ↔
      chosen.profile.video.Finite := by
    rw [Json.transcodeJob_kept]
    constructor
    · exact fun hjob => hjob.1
    · exact fun hfinite => ⟨hfinite, chosen_valid h, Nat.le_refl 1⟩
  rw [← hkept]
  exact ⟨kept_of_persists, persists_of_kept⟩

theorem persists_default :
    Persists (newJob smallContext (mp4File "/tmp/input/a.mp4") defaultMatch 1 0) := by
  have hmatch : matchProfile posix smallConfig.toRawConfig (mp4File "/tmp/input/a.mp4") =
      .ok (some defaultMatch) := by decide
  apply (persists_iff smallContext (mp4File "/tmp/input/a.mp4") hmatch 1 0).mpr
  exact ⟨⟨22, rfl⟩, fun rate h => by cases h⟩

/-- `quality: .nan`, which is not negative. -/
def nanConfig : VshiftConfig where
  behavior := { fileStabilitySeconds := 5, maxRetries := 2 }
  directories := ⟨.parse "/tmp/input", .parse "/tmp/output", .parse "/tmp/temp"⟩
  profiles := [("inline_profile", { inlineProfile with
    video := { codec := "h264", quality := .nan } })]
  rules := [{ id := "default", criteria := { extensions := ["mp4"] }, profile := "inline_profile" }]
  accepted := by decide

theorem nan_not_persisted : ¬ ∀ (ctx : Context) (probed : ProbedInput) (chosen : ProfileMatch),
    matchProfile ctx.py ctx.config.toRawConfig probed = .ok (some chosen) →
    ∀ id now, Persists (newJob ctx probed chosen id now) := by
  intro h
  have hpersists := h ⟨{}, nanConfig, posix⟩ (mp4File "/tmp/input/a.mp4")
    ⟨"default", "inline_profile", { inlineProfile with
      video := { codec := "h264", quality := .nan } }⟩ (by decide) 1 0
  obtain ⟨q, hq⟩ := (Json.transcodeJob_kept.mp (kept_of_persists hpersists)).1.quality
  cases hq

end Vshift
