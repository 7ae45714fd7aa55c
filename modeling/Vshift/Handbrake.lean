import Vshift.Ffmpeg
import Vshift.Probe

/- HandBrake presets: `infrastructure/handbrake/importer.py`.

   A document is what `json.loads` makes of it; a dictionary is the list of its entries, of
   which `get` finds the first with a key. `Conversions` holds what Python's `str`, `int`
   and `float` make of values whose conversion is no matter of this program. -/
namespace Vshift
open Document

abbrev JsonValue := Doc Scalar

abbrev JsonDict := List (String × JsonValue)

/-- `d.get(key, default)` -/
def JsonDict.get (d : JsonDict) (key : String) (default : JsonValue) : JsonValue :=
  (d.lookup key).getD default

/-- `bool(value)` -/
def truthy : JsonValue → Bool
  | .null => false
  | .atom (.bool b) => b
  | .atom (.int n) => n ≠ 0
  | .atom (.float x) => x ≠ .finite 0
  | .atom (.str text) => text ≠ ""
  | .list items => !items.isEmpty
  | .obj fields => !fields.isEmpty

/-- What Python's conversions make of values; `none` where they raise. -/
structure Conversions where
  /-- `str(value)` of what is no string -/
  repr : JsonValue → String
  /-- `int(text)`, which raises `ValueError` -/
  parseInt : String → Option Int
  /-- `float(text)`, which raises `ValueError` -/
  parseFloat : String → Option PyFloat
  /-- `float(n)`, which raises `OverflowError` -/
  floatOfInt : Int → Option PyFloat

/-- The value, or the exception of a conversion that has none. -/
def orRaise {α : Type} (name : String) : Option α → Except Exn α
  | some a => .ok a
  | none => .error (.other name)

namespace Conversions
variable (py : Conversions)

/-- `str(value)` -/
def str : JsonValue → String
  | .atom (.str text) => text
  | value => py.repr value

/-- `int(value)` -/
def int : JsonValue → Except Exn Int
  | .atom (.int n) => .ok n
  | .atom (.bool b) => .ok (if b then 1 else 0)
  | .atom (.float x) => x.truncate
  | .atom (.str text) => orRaise "ValueError" (py.parseInt text)
  | _ => .error (.other "TypeError")

/-- `float(value)` -/
def float : JsonValue → Except Exn PyFloat
  | .atom (.float x) => .ok x
  | .atom (.bool b) => .ok (.finite (if b then 1 else 0))
  | .atom (.int n) => orRaise "OverflowError" (py.floatOfInt n)
  | .atom (.str text) => orRaise "ValueError" (py.parseFloat text)
  | _ => .error (.other "TypeError")

end Conversions

/-! The keys of older presets. -/

/-- An old key's value under the new key, unless the new one is there. -/
def migrate (legacy modern : String) (normalized : JsonDict) : JsonDict :=
  match normalized.lookup legacy, normalized.lookup modern with
  | some value, none => normalized ++ [(modern, value)]
  | _, _ => normalized

/-- `_normalize_handbrake_dict` -/
def normalizeHandbrakeDict (data : JsonDict) : JsonDict :=
  migrate "Mp4HttpOptimize" "Optimize"
    (migrate "VideoTurboTwoPass" "VideoTurboMultiPass"
      (migrate "VideoTwoPass" "VideoMultiPass" data))

/-! One preset. -/

def videoEncoderMap : List (String × String) := [
  ("x264", "h264"), ("x265", "h265"), ("x265_10bit", "h265"), ("x265_12bit", "h265"),
  ("svt_av1", "av1"), ("svt_av1_10bit", "av1"), ("svt_av1_12bit", "av1"), ("vp8", "vp8"),
  ("vp9", "vp9"), ("vp9_10bit", "vp9"), ("theora", "theora"), ("mpeg4", "mpeg4"),
  ("mpeg2", "mpeg2"), ("ffv1", "ffv1")]

def formatMap : List (String × String) := [
  ("mp4", "mp4"), ("av_mp4", "mp4"), ("mkv", "mkv"), ("av_mkv", "mkv"), ("webm", "webm"),
  ("avi", "avi"), ("mov", "mov")]

def mapBitDepth (encoder : String) : BitDepth :=
  if contains encoder "12bit" then .twelve
  else if contains encoder "10bit" then .ten
  else .eight

def mapVideoEncoder (encoder : String) : String × BitDepth :=
  ((videoEncoderMap.lookup encoder).getD encoder, mapBitDepth encoder)

def mapContainerFormat (fileFormat : String) : String :=
  (formatMap.lookup fileFormat).getD fileFormat

/-- A `bool` is an `int`, which the profile's field stores as one. -/
def parseDimension : JsonValue → Option Int
  | .atom (.int n) => if n = 0 then none else some n
  | .atom (.bool b) => if b then some 1 else none
  | _ => none

def audioSelectionModes : List (String × AudioSelectionMode) :=
  [("auto", .auto), ("first", .first), ("all", .all), ("none", .none)]

def subtitleSelectionModes : List (String × SubtitleSelectionMode) :=
  [("auto", .auto), ("first", .first), ("all", .all), ("none", .none), ("foreign", .foreign)]

def parseAudioSelectionMode (value : String) : AudioSelectionMode :=
  (audioSelectionModes.lookup value).getD .auto

def parseSubtitleSelectionMode (value : String) : SubtitleSelectionMode :=
  (subtitleSelectionModes.lookup value).getD .auto

/-- `FramerateMode(value)`, or VFR where that raises. -/
def parseFramerateMode (value : String) : FramerateMode :=
  (FramerateMode.members.find? (·.value = value)).getD .vfr

/-- `text.removeprefix(part)` -/
def removePrefix (text part : String) : String :=
  if part.toList <+: text.toList then String.ofList (text.toList.drop part.toList.length)
  else text

/-- The dictionaries among the items of a list. -/
def dicts (items : List JsonValue) : List JsonDict :=
  items.filterMap fun
    | .obj fields => some fields
    | _ => none

section
variable (py : Conversions)

def parseFramerate (framerate : String) : FrameRateType × Option PyFloat :=
  if framerate ∈ ["auto", ""] then (.sameAsSource, none)
  else
    match py.parseFloat framerate with
    | some rate => (.custom, some rate)
    | none => (.sameAsSource, none)

def parseQuality (hb : JsonDict) : Except Exn (QualityMode × PyFloat × Option Int) := do
  let qualityType ← py.int (hb.get "VideoQualityType" (.atom (.int 2)))
  let slider ← py.float (hb.get "VideoQualitySlider" (.atom (.float (.finite 22))))
  let bitrateKbps ←
    match hb.get "VideoAvgBitrate" .null with
    | .null => pure none
    | avgBitrate => some <$> py.int avgBitrate
  if qualityType = 1 then pure (.averageBitrate, slider, bitrateKbps)
  else if qualityType = 2 then pure (.constant, slider, none)
  -- `slider >= 0`
  else if slider ≠ .nan ∧ !slider.isNegative then pure (.constant, slider, none)
  else pure (.averageBitrate, slider, bitrateKbps)

/-- The sample rate of a track; what `int` raises but `OverflowError` is caught. -/
def parseSamplerate (samplerateRaw : JsonValue) : Except Exn (Option Int) :=
  match samplerateRaw with
  | .null => .ok none
  | .atom (.str "auto") => .ok none
  | .atom (.str "") => .ok none
  | value =>
    match py.int value with
    | .ok rate => .ok (some rate)
    | .error e =>
      if e ∈ [.other "TypeError", .other "ValueError"] then .ok none else .error e

def parseAudioTrack (entry : JsonDict) : Except Exn AudioTrack := do
  let encoder := py.str (entry.get "AudioEncoder" (.atom (.str "aac")))
  let copyTrack : Bool := encoder = "copy" ∨ "copy:".toList <+: encoder.toList
  let codec := if copyTrack then removePrefix encoder "copy:" else encoder
  let sampleRate ← parseSamplerate py (entry.get "AudioSamplerate" (.atom (.str "auto")))
  let bitRate ← py.int (entry.get "AudioBitrate" (.atom (.int 160)))
  pure {
    codec := codec
    bitRate := bitRate
    sampleRate := sampleRate
    mixdown := py.str (entry.get "AudioMixdown" (.atom (.str "stereo")))
    copyTrack := copyTrack }

/-- The loop over `AudioList`. -/
def parseAudioTracks : JsonValue → Except Exn (List AudioTrack)
  | .list items => (dicts items).mapM (parseAudioTrack py)
  | _ => .ok []

def parseLanguageList : JsonValue → List String
  | .list items => items.map py.str
  | _ => []

def parseSubtitleTracks (hb : JsonDict) : List SubtitleTrack :=
  let languageList := parseLanguageList py (hb.get "SubtitleLanguageList" (.list []))
  let burnBehavior := py.str (hb.get "SubtitleBurnBehavior" (.atom (.str "none")))
  languageList.zipIdx.map fun (language, index) =>
    { language := language, codec := "copy", copyTrack := true,
      burnIn := burnBehavior ∈ ["all", "foreign"], isDefault := index = 0 }

/-- The `VideoProfile` of a preset, given its quality. -/
def presetVideo (hb : JsonDict) (qualityMode : QualityMode) (quality : PyFloat)
    (averageBitrate : Option Int) : VideoProfile :=
  let encoder := mapVideoEncoder (py.str (hb.get "VideoEncoder" (.atom (.str "x264"))))
  let framerate := parseFramerate py (py.str (hb.get "VideoFramerate" (.atom (.str "auto"))))
  { codec := encoder.1
    bitDepth := encoder.2
    frameRateType := framerate.1
    frameRate := framerate.2
    framerateMode :=
      parseFramerateMode (py.str (hb.get "VideoFramerateMode" (.atom (.str "vfr"))))
    width := parseDimension (hb.get "PictureWidth" .null)
    height := parseDimension (hb.get "PictureHeight" .null)
    qualityMode := qualityMode
    quality := quality
    averageBitrate := averageBitrate
    encoderPreset := py.str (hb.get "VideoPreset" (.atom (.str "medium")))
    encoderTune := py.str (hb.get "VideoTune" (.atom (.str "")))
    encoderProfile := py.str (hb.get "VideoProfile" (.atom (.str "auto")))
    encoderLevel := py.str (hb.get "VideoLevel" (.atom (.str "auto")))
    multiPass := truthy (hb.get "VideoMultiPass" (.atom (.bool false)))
    turboMultiPass := truthy (hb.get "VideoTurboMultiPass" (.atom (.bool false)))
    grayscale := truthy (hb.get "VideoGrayScale" (.atom (.bool false))) }

/-- The `VshiftProfile` of a preset, given its video settings and audio tracks. -/
def presetProfile (hb : JsonDict) (video : VideoProfile) (audioTracks : List AudioTrack) :
    VshiftProfile :=
  let subtitleTracks := parseSubtitleTracks py hb
  let description := hb.get "PresetDescription" .null
  { name := py.str (hb.get "PresetName" (.atom (.str "Unnamed")))
    description := if truthy description then py.str description else ""
    format := mapContainerFormat (py.str (hb.get "FileFormat" (.atom (.str "mp4"))))
    video := video
    audioTracks := audioTracks
    audioSelectionMode := parseAudioSelectionMode
      (py.str (hb.get "AudioTrackSelectionBehavior" (.atom (.str "auto"))))
    audioLanguageList := parseLanguageList py (hb.get "AudioLanguageList" (.list []))
    audioPassthrough := truthy (hb.get "AudioCopyMask" .null) || audioTracks.any (·.copyTrack)
    subtitleTracks := subtitleTracks
    subtitleSelectionMode := parseSubtitleSelectionMode
      (py.str (hb.get "SubtitleTrackSelectionBehavior" (.atom (.str "auto"))))
    subtitleLanguageList := parseLanguageList py (hb.get "SubtitleLanguageList" (.list []))
    subtitlePassthrough := truthy (hb.get "SubtitleTrackNamePassthru" (.atom (.bool false))) ||
      subtitleTracks.any (·.copyTrack)
    chapterMarkers := truthy (hb.get "ChapterMarkers" (.atom (.bool true)))
    optimize := truthy (hb.get "Optimize" (.atom (.bool false))) }

/-- What `parse_preset` makes of a dictionary with its keys brought up to date. -/
def parseNormalized (hb : JsonDict) : Except Exn VshiftProfile := do
  let (qualityMode, quality, averageBitrate) ← parseQuality py hb
  let audioTracks ← parseAudioTracks py (hb.get "AudioList" (.list []))
  let video := presetVideo py hb qualityMode quality averageBitrate
  video.validate
  let profile := presetProfile py hb video audioTracks
  profile.validateProfile
  pure profile

/-- `HandBrakeImporter.parse_preset` -/
def parsePreset (data : JsonDict) : Except Exn VshiftProfile :=
  parseNormalized py (normalizeHandbrakeDict data)

end

/-! A document of presets. -/

/-- `_handbrake_root_nodes` -/
def handbrakeRootNodes : JsonValue → Except Exn (List JsonDict)
  | .list items => .ok (dicts items)
  | .obj parsed =>
    match JsonDict.get parsed "PresetList" .null with
    | .list items => .ok (dicts items)
    | _ => .error (.other "ValueError")
  | _ => .error (.other "ValueError")

theorem lookup_migrate (legacy modern : String) (d : JsonDict) (key : String) :
    (migrate legacy modern d).lookup key =
      (d.lookup key).or (if key = modern then d.lookup legacy else none) := by
  unfold migrate
  split
  · next value hlegacy hmodern =>
    rw [List.lookup_append, List.lookup_cons, hlegacy]
    by_cases hkey : key = modern
    · rw [hkey, beq_self_eq_true, if_pos rfl]
    · rw [beq_false_of_ne hkey, if_neg hkey]
      rfl
  · next hno =>
    by_cases hkey : key = modern
    · subst hkey
      cases hmodern : d.lookup key with
      | some value => rfl
      | none =>
        cases hlegacy : d.lookup legacy with
        | some value => exact absurd hmodern (hno value hlegacy)
        | none => rw [if_pos rfl]; rfl
    · rw [if_neg hkey, Option.or_none]

def modernKeys : List String := ["VideoMultiPass", "VideoTurboMultiPass", "Optimize"]

/-- A dictionary brought up to date has its old entries under every key but the new ones. -/
theorem lookup_normalize {key : String} (h : key ∉ modernKeys) (d : JsonDict) :
    (normalizeHandbrakeDict d).lookup key = d.lookup key := by
  simp only [modernKeys, List.mem_cons, List.not_mem_nil, or_false, not_or] at h
  unfold normalizeHandbrakeDict
  rw [lookup_migrate, if_neg h.2.2, lookup_migrate, if_neg h.2.1, lookup_migrate, if_neg h.1]
  simp only [Option.or_none]

theorem get_normalize {key : String} (h : key ∉ modernKeys) (d : JsonDict) (default : JsonValue) :
    (normalizeHandbrakeDict d).get key default = d.get key default := by
  rw [JsonDict.get, lookup_normalize h]
  rfl

theorem sizeOf_lookup {d : JsonDict} {key : String} {value : JsonValue}
    (h : d.lookup key = some value) : sizeOf value < sizeOf d := by
  induction d with
  | nil => cases h
  | cons entry d ih =>
    obtain ⟨k, v⟩ := entry
    rw [List.lookup_cons] at h
    simp only [List.cons.sizeOf_spec, Prod.mk.sizeOf_spec]
    split at h
    · cases h
      omega
    · have := ih h
      omega

theorem sizeOf_dicts (items : List JsonValue) : sizeOf (dicts items) ≤ sizeOf items := by
  induction items with
  | nil => exact Nat.le_refl _
  | cons item items ih =>
    cases item with
    | obj fields =>
      show sizeOf (fields :: dicts items) ≤ _
      simp only [List.cons.sizeOf_spec, Doc.obj.sizeOf_spec]
      omega
    | _ =>
      show sizeOf (dicts items) ≤ _
      simp only [List.cons.sizeOf_spec]
      omega

/-- What is in a folder. -/
def JsonDict.children (node : JsonDict) : List JsonValue :=
  match node.get "ChildrenArray" (.list []) with
  | .list children => children
  | _ => []

theorem sizeOf_children (node : JsonDict) : sizeOf node.children ≤ sizeOf node := by
  have hempty : sizeOf ([] : List JsonValue) ≤ sizeOf node := by
    cases node <;> simp only [List.nil.sizeOf_spec, List.cons.sizeOf_spec] <;> omega
  unfold JsonDict.children JsonDict.get
  cases hlookup : node.lookup "ChildrenArray" with
  | none => exact hempty
  | some value =>
    have hsize := sizeOf_lookup hlookup
    cases value with
    | list children =>
      simp only [Doc.list.sizeOf_spec] at hsize
      show sizeOf children ≤ _
      omega
    | _ => exact hempty

theorem children_normalize (node : JsonDict) :
    (normalizeHandbrakeDict node).children = node.children := by
  unfold JsonDict.children
  rw [get_normalize (by decide)]

/-- `_iter_handbrake_leaf_presets` -/
def iterHandbrakeLeafPresets : List JsonDict → List JsonDict
  | [] => []
  | rawNode :: nodes =>
    let node := normalizeHandbrakeDict rawNode
    if truthy (node.get "Folder" (.atom (.bool false))) then
      iterHandbrakeLeafPresets (dicts node.children) ++ iterHandbrakeLeafPresets nodes
    else node :: iterHandbrakeLeafPresets nodes
termination_by nodes => sizeOf nodes
decreasing_by
  · have hdicts := sizeOf_dicts rawNode.children
    have hchildren := sizeOf_children rawNode
    simp only [List.cons.sizeOf_spec, children_normalize]
    omega
  · simp only [List.cons.sizeOf_spec]
    omega
  · simp only [List.cons.sizeOf_spec]
    omega

/-- `parse_presets_from_json`, where `loads` is `json.loads`. -/
def parsePresetsFromJson (py : Conversions) (loads : String → Except Exn JsonValue)
    (data : String) : Except Exn (List VshiftProfile) := do
  let parsed ← loads data
  let roots ← handbrakeRootNodes parsed
  (iterHandbrakeLeafPresets roots).mapM (parsePreset py)

end Vshift
