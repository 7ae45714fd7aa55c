import Vshift.Extensions
import Vshift.Reader

/- `VshiftConfig.model_validate`: the configuration models read from a YAML document.

   Each model of `domain/config` and `domain/transcoding_profile` is a `Reader` with the
   names, defaults, constraints and validators of its fields, in their order. What pydantic
   makes of a value where a field asks for a text, a number or a list is a parameter
   (`Lax`). A `VShiftException` of a validator escapes at once; every other failure is
   reported at the end. -/
namespace Vshift
open Document

abbrev YamlDict := List (Yaml × Yaml)

/-- The key is this text. -/
def Yaml.isStr (text : String) : Yaml → Bool
  | .str key => key == text
  | _ => false

/-- `d.get(key)` -/
def YamlDict.get (d : YamlDict) (key : String) : Option Yaml :=
  (d.find? fun entry => entry.1.isStr key).map Prod.snd

/-- pydantic's conversions in lax mode; `none` where a value is not valid. -/
structure Lax where
  str : Yaml → Option String
  int : Yaml → Option Int
  float : Yaml → Option PyFloat
  bool : Yaml → Option Bool
  /-- The items of what is taken for a list. -/
  items : Yaml → Option (List Yaml)
  /-- The integer a value equals. -/
  literal : Yaml → Option Int

abbrev Reading (α : Type) := Except (Rejection Exn) α

abbrev Model (α : Type) := Reader Yaml Exn α

/-- A validator raises a `VShiftException`, or pydantic reports a failure. -/
def validated : Except Exn Unit → Reading Unit
  | .ok () => .ok ()
  | .error (.vshift message) => .error (.raised (.vshift message))
  | .error (.other _) => .error .invalid

theorem validated_ok {result : Except Exn Unit} : validated result = .ok () ↔ result = .ok () := by
  cases result with
  | ok u => simp [validated]
  | error e => cases e <;> simp [validated]

/-- A value that is a dictionary, read as a model. -/
def ofDict {α : Type} (model : Model α) : Yaml → Reading α
  | .map entries => model.read (YamlDict.get entries)
  | _ => .error .invalid

namespace Lax
variable (lax : Lax)

/-! Values. -/

def text (value : Yaml) : Reading String := orInvalid (lax.str value)

def number (value : Yaml) : Reading Int := orInvalid (lax.int value)

def real (value : Yaml) : Reading PyFloat := orInvalid (lax.float value)

def flag (value : Yaml) : Reading Bool := orInvalid (lax.bool value)

def path (value : Yaml) : Reading Path := (lax.text value).map Path.parse

/-- `PositiveInt` -/
def positive (value : Yaml) : Reading PositiveInt := do
  let n ← lax.number value
  if h : 1 ≤ n.toNat then pure ⟨n.toNat, h⟩ else .error .invalid

/-- `T | None` -/
def optional {α : Type} (read : Yaml → Reading α) : Yaml → Reading (Option α)
  | .null => .ok none
  | value => (read value).map some

/-- `list[T]` -/
def list {α : Type} (read : Yaml → Reading α) (value : Yaml) : Reading (List α) := do
  let items ← orInvalid (lax.items value)
  readAll read items

/-- A `StrEnum`, by the values of its members. -/
def enum {α : Type} (members : List α) (of : α → String) (value : Yaml) : Reading α := do
  let text ← lax.text value
  orInvalid (members.find? fun a => of a == text)

/-- `Literal[8, 10, 12]` -/
def bitDepth (value : Yaml) : Reading BitDepth :=
  orInvalid ((lax.literal value).bind fun n => BitDepth.members.find? fun a => a.value == n)

/-! `domain/transcoding_profile` -/

def videoProfile : Model VideoProfile :=
  ((.and (.field "codec" lax.text none) <|
    .and (.field "encoder" (lax.enum VideoEncoder.members VideoEncoder.value) (some .auto)) <|
    .and (.field "color_space" lax.text (some "yuv420p")) <|
    .and (.field "bit_depth" lax.bitDepth (some .eight)) <|
    .and (.field "frame_rate_type" (lax.enum FrameRateType.members FrameRateType.value)
      (some .sameAsSource)) <|
    .and (.field "frame_rate" (optional lax.real) (some none)) <|
    .and (.field "framerate_mode" (lax.enum FramerateMode.members FramerateMode.value)
      (some .vfr)) <|
    .and (.field "width" (optional lax.number) (some none)) <|
    .and (.field "height" (optional lax.number) (some none)) <|
    .and (.field "quality_mode" (lax.enum QualityMode.members QualityMode.value)
      (some .constant)) <|
    .and (.field "quality" lax.real (some (.finite 22))) <|
    .and (.field "average_bitrate" (optional lax.number) (some none)) <|
    .and (.field "encoder_preset" lax.text (some "medium")) <|
    .and (.field "encoder_tune" lax.text (some "")) <|
    .and (.field "encoder_profile" lax.text (some "auto")) <|
    .and (.field "encoder_level" lax.text (some "auto")) <|
    .and (.field "multi_pass" lax.flag (some false)) <|
    .and (.field "turbo_multi_pass" lax.flag (some false)) <|
    .field "grayscale" lax.flag (some false) : Model _).map
    fun (codec, encoder, colorSpace, bitDepth, frameRateType, frameRate, framerateMode, width,
        height, qualityMode, quality, averageBitrate, encoderPreset, encoderTune, encoderProfile,
        encoderLevel, multiPass, turboMultiPass, grayscale) =>
      { codec, encoder, colorSpace, bitDepth, frameRateType, frameRate, framerateMode, width,
        height, qualityMode, quality, averageBitrate, encoderPreset, encoderTune, encoderProfile,
        encoderLevel, multiPass, turboMultiPass, grayscale }).checked
    fun video => validated video.validate

def audioTrack : Model AudioTrack :=
  (.and (.field "codec" lax.text none) <|
    .and (.field "bit_rate" lax.number none) <|
    .and (.field "sample_rate" (optional lax.number) (some none)) <|
    .and (.field "mixdown" lax.text (some "stereo")) <|
    .field "copy_track" lax.flag (some false) : Model _).map
    fun (codec, bitRate, sampleRate, mixdown, copyTrack) =>
      { codec, bitRate, sampleRate, mixdown, copyTrack }

def subtitleTrack : Model SubtitleTrack :=
  (.and (.field "language" lax.text (some "und")) <|
    .and (.field "codec" lax.text (some "copy")) <|
    .and (.field "copy_track" lax.flag (some true)) <|
    .and (.field "burn_in" lax.flag (some false)) <|
    .field "is_default" lax.flag (some false) : Model _).map
    fun (language, codec, copyTrack, burnIn, isDefault) =>
      { language, codec, copyTrack, burnIn, isDefault }

def vshiftProfile : Model VshiftProfile :=
  ((.and (.field "name" lax.text none) <|
    .and (.field "description" lax.text (some "")) <|
    .and (.field "format" lax.text none) <|
    .and (.field "video" (ofDict lax.videoProfile) none) <|
    .and (.field "audio_tracks" (lax.list (ofDict lax.audioTrack)) (some [])) <|
    .and (.field "audio_selection_mode"
      (lax.enum AudioSelectionMode.members AudioSelectionMode.value) (some .auto)) <|
    .and (.field "audio_language_list" (lax.list lax.text) (some [])) <|
    .and (.field "audio_passthrough" lax.flag (some false)) <|
    .and (.field "subtitle_tracks" (lax.list (ofDict lax.subtitleTrack)) (some [])) <|
    .and (.field "subtitle_selection_mode"
      (lax.enum SubtitleSelectionMode.members SubtitleSelectionMode.value) (some .auto)) <|
    .and (.field "subtitle_language_list" (lax.list lax.text) (some [])) <|
    .and (.field "subtitle_passthrough" lax.flag (some false)) <|
    .and (.field "chapter_markers" lax.flag (some true)) <|
    .field "optimize" lax.flag (some false) : Model _).map
    fun (name, description, format, video, audioTracks, audioSelectionMode, audioLanguageList,
        audioPassthrough, subtitleTracks, subtitleSelectionMode, subtitleLanguageList,
        subtitlePassthrough, chapterMarkers, optimize) =>
      { name, description, format, video, audioTracks, audioSelectionMode, audioLanguageList,
        audioPassthrough, subtitleTracks, subtitleSelectionMode, subtitleLanguageList,
        subtitlePassthrough, chapterMarkers, optimize }).checked
    fun profile => validated profile.validateProfile

/-! `domain/config` -/

def behaviorSettings : Model BehaviorSettings :=
  ((.and (.field "no_match" (lax.enum NoMatchAction.members NoMatchAction.value)
      (some .ignore)) <|
    .and (.field "default_profile" (optional lax.text) (some none)) <|
    .and (.field "input_after_success"
      (lax.enum InputAfterSuccess.members InputAfterSuccess.value) (some .keep)) <|
    .and (.field "input_move_dir" (optional lax.path) (some none)) <|
    .and (.field "file_stability_seconds" lax.positive (some 10)) <|
    .field "max_retries" lax.positive (some 3) : Model _).map
    fun (noMatch, defaultProfile, inputAfterSuccess, inputMoveDir, fileStabilitySeconds,
        maxRetries) =>
      { noMatch, defaultProfile, inputAfterSuccess, inputMoveDir, fileStabilitySeconds,
        maxRetries }).checked
    fun behavior => validated behavior.validate

def configDirectories : Model ConfigDirectories :=
  (.and (.field "input" lax.path none) <|
    .and (.field "output" lax.path none) <|
    .field "temp" lax.path none : Model _).map fun (input, output, temp) => { input, output, temp }

/-- The bounds of the fields are part of `MatchCriteria.validate`. -/
def matchCriteria (py : Platform) (repr : Yaml → String) : Model MatchCriteria :=
  ((.and (.field "extensions" (fun value => .ok (normalizeExtensions py repr value))
      (some [])) <|
    .and (.field "min_width" (optional lax.number) (some none)) <|
    .and (.field "max_width" (optional lax.number) (some none)) <|
    .and (.field "min_height" (optional lax.number) (some none)) <|
    .and (.field "max_height" (optional lax.number) (some none)) <|
    .and (.field "min_bit_depth" (optional lax.number) (some none)) <|
    .and (.field "max_bit_depth" (optional lax.number) (some none)) <|
    .and (.field "hdr" (optional lax.flag) (some none)) <|
    .field "filename_glob" (optional lax.text) (some none) : Model _).map
    fun (extensions, minWidth, maxWidth, minHeight, maxHeight, minBitDepth, maxBitDepth, hdr,
        filenameGlob) =>
      { extensions, minWidth, maxWidth, minHeight, maxHeight, minBitDepth, maxBitDepth, hdr,
        filenameGlob }).checked
    fun criteria => validated criteria.validate

/-- `Field(ge=0)` -/
def priority : Yaml → Reading Int :=
  withCheck lax.number fun n => if n < 0 then .error .invalid else .ok ()

/-- `Field(min_length=1)` and `validate_non_blank` -/
def nonBlank : Yaml → Reading String :=
  withCheck lax.text fun value => validated (MatchRule.validateNonBlank value)

def matchRule (py : Platform) (repr : Yaml → String) : Model MatchRule :=
  (.and (.field "id" lax.nonBlank none) <|
    .and (.field "priority" lax.priority (some 100)) <|
    .and (.field "match" (ofDict (lax.matchCriteria py repr)) none) <|
    .field "profile" lax.nonBlank none : Model _).map
    fun (id, priority, criteria, profile) => { id, priority, criteria, profile }

/-- A profile under its name. -/
def profileItem (entry : Yaml × Yaml) : Reading (String × VshiftProfile) :=
  both (lax.text entry.1) (ofDict lax.vshiftProfile entry.2)

/-- `d[name] = profile` for each item, from an empty dictionary. -/
def namedProfiles (items : List (String × VshiftProfile)) : List (String × VshiftProfile) :=
  items.foldl (fun d item => assign (· == item.1) item.1 item.2 d) []

/-- `dict[str, VshiftProfile]` -/
def profiles : Yaml → Reading (List (String × VshiftProfile))
  | .map entries => (readAll lax.profileItem entries).map namedProfiles
  | _ => .error .invalid

/-- `VshiftConfig` but for `validate_config`. -/
def rawConfig (py : Platform) (repr : Yaml → String) : Model RawConfig :=
  (.and (.field "version" lax.text (some "1")) <|
    .and (.field "behavior" (ofDict lax.behaviorSettings) (some {})) <|
    .and (.field "directories" (ofDict lax.configDirectories) none) <|
    .and (.field "profiles" lax.profiles none) <|
    .field "rules" (lax.list (ofDict (lax.matchRule py repr))) (some []) : Model _).map
    fun (version, behavior, directories, profiles, rules) =>
      { version, behavior, directories, profiles, rules }

/-! The models inside a configuration are valid. -/

section
variable {lax : Lax} {py : Platform} {repr : Yaml → String}

theorem ofDict_gives {α : Type} {model : Model α} {P : α → Prop} (h : model.Gives P) :
    ∀ value a, ofDict model value = .ok a → P a := by
  intro value a hread
  cases value with
  | map entries => exact h _ a hread
  | _ => cases hread

theorem list_gives {α : Type} {read : Yaml → Reading α} {P : α → Prop}
    (h : ∀ value a, read value = .ok a → P a) {value : Yaml} {as : List α}
    (hread : lax.list read value = .ok as) : ∀ a ∈ as, P a := by
  obtain ⟨items, -, hitems⟩ := except_bind_ok hread
  exact readAll_forall h hitems

theorem videoProfile_valid : lax.videoProfile.Gives fun video => video.validate = .ok () := by
  intro get video hread
  exact validated_ok.mp (withCheck_ok.mp hread).2

theorem vshiftProfile_valid :
    lax.vshiftProfile.Gives fun profile => profile.validate = .ok () := by
  have hvideo : (Reader.field "video" (ofDict lax.videoProfile) none).Gives
      fun video => video.validate = .ok () :=
    .field (ofDict_gives videoProfile_valid) fun _ h => nomatch h
  intro get profile hread
  have hprofile := Reader.Gives.checked (.map (Q := fun profile : VshiftProfile =>
    profile.video.validate = .ok ()) (.right (.right (.right (.left hvideo)))) fun _ h => h)
    get profile hread
  unfold VshiftProfile.validate
  rw [hprofile.1]
  exact validated_ok.mp hprofile.2

theorem behaviorSettings_valid :
    lax.behaviorSettings.Gives fun behavior => behavior.validate = .ok () := by
  intro get behavior hread
  exact validated_ok.mp (withCheck_ok.mp hread).2

theorem matchCriteria_valid :
    (lax.matchCriteria py repr).Gives fun criteria => criteria.validate = .ok () := by
  intro get criteria hread
  exact validated_ok.mp (withCheck_ok.mp hread).2

theorem matchRule_valid : (lax.matchRule py repr).Gives fun rule => rule.validate = .ok () := by
  have hnonBlank : ∀ name, (Reader.field name lax.nonBlank none).Gives
      fun value => MatchRule.validateNonBlank value = .ok () :=
    fun _ => .field (fun _ _ h => validated_ok.mp (withCheck_ok.mp h).2) fun _ h => nomatch h
  have hpriority : (Reader.field "priority" lax.priority (some 100)).Gives fun n => ¬ n < 0 := by
    refine .field ?_ ?_
    · intro value n h hneg
      have hcheck := (withCheck_ok.mp h).2
      rw [if_pos hneg] at hcheck
      cases hcheck
    · intro n h
      cases h
      decide
  have hcriteria : (Reader.field "match" (ofDict (lax.matchCriteria py repr)) none).Gives
      fun criteria => criteria.validate = .ok () :=
    .field (ofDict_gives matchCriteria_valid) fun _ h => nomatch h
  refine .map (.and (hnonBlank "id") (.and hpriority (.and hcriteria (hnonBlank "profile")))) ?_
  intro ⟨id, priority, criteria, profile⟩ ⟨hid, hpriority, hcriteria, hprofile⟩
  apply collect_of_ok
  simp only [List.forall_mem_cons, List.not_mem_nil, false_implies, implies_true, and_true]
  exact ⟨hid, if_neg hpriority, hcriteria, hprofile⟩

theorem namedProfiles_forall {P : VshiftProfile → Prop} {items : List (String × VshiftProfile)}
    (h : ∀ item ∈ items, P item.2) : ∀ entry ∈ namedProfiles items, P entry.2 := by
  suffices ∀ d : List (String × VshiftProfile), (∀ entry ∈ d, P entry.2) →
      ∀ entry ∈ items.foldl (fun d item => assign (· == item.1) item.1 item.2 d) d, P entry.2 from
    this [] fun _ hentry => absurd hentry List.not_mem_nil
  induction items with
  | nil => exact fun d hd => hd
  | cons item items ih =>
    obtain ⟨hitem, hitems⟩ := List.forall_mem_cons.mp h
    exact fun d hd => ih hitems _ (assign_forall hd hitem)

theorem profiles_valid {value : Yaml} {profiles : List (String × VshiftProfile)}
    (hread : lax.profiles value = .ok profiles) :
    ∀ entry ∈ profiles, entry.2.validate = .ok () := by
  cases value with
  | map entries =>
    obtain ⟨items, hitems, rfl⟩ := map_ok.mp hread
    apply namedProfiles_forall (P := fun profile => profile.validate = .ok ())
    apply readAll_forall (P := fun item : String × VshiftProfile => item.2.validate = .ok ())
      ?_ hitems
    intro entry item hitem
    exact ofDict_gives vshiftProfile_valid _ _ (both_ok.mp hitem).2
  | _ => cases hread

/-- What is left of the validators, once the fields are read, is `validate_config`. -/
theorem rawConfig_validate :
    (lax.rawConfig py repr).Gives fun config => config.validate = config.validateConfig := by
  have hbehavior : (Reader.field "behavior" (ofDict lax.behaviorSettings) (some {})).Gives
      fun behavior => behavior.validate = .ok () :=
    .field (ofDict_gives behaviorSettings_valid) fun _ h => by cases h; decide
  have hprofiles : (Reader.field "profiles" lax.profiles none).Gives
      fun profiles => ∀ entry ∈ profiles, entry.2.validate = .ok () :=
    .field (fun _ _ => profiles_valid) fun _ h => nomatch h
  have hrules : (Reader.field "rules" (lax.list (ofDict (lax.matchRule py repr)))
      (some [])).Gives fun rules => ∀ rule ∈ rules, rule.validate = .ok () :=
    .field (fun _ _ => list_gives (ofDict_gives matchRule_valid)) fun _ h => by cases h; simp
  refine .map (.right (.and hbehavior (.right (.and hprofiles hrules)))) ?_
  intro ⟨version, behavior, directories, profiles, rules⟩ ⟨hbehavior, hprofiles, hrules⟩
  have hfields : collect (behavior.validate ::
      (profiles.map (fun entry => entry.2.validate) ++ rules.map MatchRule.validate)) =
      .ok () := by
    apply collect_of_ok
    rw [List.forall_mem_cons, List.forall_mem_append, List.forall_mem_map, List.forall_mem_map]
    exact ⟨hbehavior, hprofiles, hrules⟩
  simp only [RawConfig.validate, hfields]
  rfl

end

end Lax

/-- `validate_config`, once the fields are read. -/
def accept (fields : Reading RawConfig)
    (h : ∀ config, fields = .ok config → config.validate = config.validateConfig) :
    Reading VshiftConfig :=
  match fields, h with
  | .error e, _ => .error e
  | .ok config, h =>
    match hconfig : config.validateConfig with
    | .error e => .error (.raised e)
    | .ok () => .ok ⟨config, (h config rfl).trans hconfig⟩

/-- `VshiftConfig.model_validate(data)` -/
def modelValidate (lax : Lax) (py : Platform) (repr : Yaml → String) (data : YamlDict) :
    Reading VshiftConfig :=
  accept ((lax.rawConfig py repr).read data.get) (Lax.rawConfig_validate data.get)

theorem modelValidate_congr {lax : Lax} {py : Platform} {repr : Yaml → String}
    {data data' : YamlDict} (h : (lax.rawConfig py repr).read data.get =
      (lax.rawConfig py repr).read data'.get) :
    modelValidate lax py repr data = modelValidate lax py repr data' := by
  unfold modelValidate
  congr 1

end Vshift
