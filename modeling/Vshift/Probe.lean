import Vshift.Redis
import Vshift.Codec

/- What ffprobe says of a file: `infrastructure/ffmpeg/probe.py` and
   `video_stream_info.py`. -/
namespace Vshift
open Document

/-- What is no container in a stream dictionary. -/
inductive Scalar where
  | bool (b : Bool)
  | int (n : Int)
  | float (x : PyFloat)
  | str (text : String)
  deriving DecidableEq

/-- A value of a stream dictionary; `None` is `null`. -/
abbrev StreamValue := Doc Scalar

abbrev StreamDict := List (String × StreamValue)

/-- `stream.get(key)` -/
def StreamDict.get (stream : StreamDict) (key : String) : StreamValue :=
  (List.lookup key stream).getD .null

/-- `value if isinstance(value, str) else None` -/
def asText : StreamValue → Option String
  | .atom (.str text) => some text
  | _ => none

/-- `value if isinstance(value, int) else None`; a `bool` is an `int`. -/
def asInt : StreamValue → Option Int
  | .atom (.int n) => some n
  | .atom (.bool b) => some (if b then 1 else 0)
  | _ => none

/-! `video_stream_info.py` -/

structure VideoStreamInfo where
  codecName : Option String
  width : Option Int
  height : Option Int
  bitDepth : Int
  hdr : Bool
  deriving DecidableEq

def hdrTransfers : List String := ["smpte2084", "arib-std-b67"]

def hdrPrimaries : List String := ["bt2020", "bt2020nc"]

def sdrTransfers : List String := ["bt709", "bt601", "smpte170m", "iec61966-2-1"]

/-- `part in text` -/
def contains (text part : String) : Bool := part.toList <:+: text.toList

section
/- `text.lower()` -/
variable (lower : String → String)

def bitDepthFromPixFmt : Option String → Int
  | none => 8
  | some pixFmt =>
    if pixFmt = "" then 8
    else if contains (lower pixFmt) "12" then 12
    else if contains (lower pixFmt) "10" ∨ lower pixFmt ∈ ["p010le", "p010be"] then 10
    else 8

def normalizeColorValue (value : StreamValue) : String :=
  match asText value with
  | some text => strip (lower text)
  | none => ""

/-- `entry.get("side_data_type") == "HDR Dynamic Metadata"` of a dictionary. -/
def isDynamicMetadata : StreamValue → Bool
  | .obj entry => asText (StreamDict.get entry "side_data_type") = some "HDR Dynamic Metadata"
  | _ => false

def hasDynamicMetadata : StreamValue → Bool
  | .list entries => entries.any isDynamicMetadata
  | _ => false

def isHdrStream (stream : StreamDict) (bitDepth : Int) : Bool :=
  let transfer := normalizeColorValue lower (stream.get "color_transfer")
  let primaries := normalizeColorValue lower (stream.get "color_primaries")
  if transfer ∈ hdrTransfers then true
  else if primaries ∈ hdrPrimaries ∧ transfer ∉ sdrTransfers then true
  else if hasDynamicMetadata (stream.get "side_data_list") then true
  else 10 ≤ bitDepth ∧ primaries ∈ hdrPrimaries

def parseVideoStream (stream : StreamDict) : VideoStreamInfo :=
  let bitDepth := bitDepthFromPixFmt lower (asText (stream.get "pix_fmt"))
  { codecName := asText (stream.get "codec_name")
    width := asInt (stream.get "width")
    height := asInt (stream.get "height")
    bitDepth
    hdr := isHdrStream lower stream bitDepth }

/-! `probe.py` -/

structure ProbeFormat where
  size : Option Int
  duration : Option PyFloat

structure ProbeStream where
  codecType : Option String
  codecName : Option String
  width : Option Int
  height : Option Int
  pixFmt : Option String
  colorTransfer : Option String
  colorPrimaries : Option String
  sideDataList : Option (List StreamDict)

/-- `probe_obj` gives no streams, a `streams` object without any, or their tuple. -/
structure ProbeResult where
  format : Option ProbeFormat
  streams : Option (Option (List ProbeStream))

/-- `_stream_to_dict` -/
def ProbeStream.toDict (stream : ProbeStream) : StreamDict :=
  let text (value : Option String) : StreamValue := value.elim .null (fun t => .atom (.str t))
  let int (value : Option Int) : StreamValue := value.elim .null (fun n => .atom (.int n))
  [("codec_type", text stream.codecType), ("codec_name", text stream.codecName),
    ("width", int stream.width), ("height", int stream.height), ("pix_fmt", text stream.pixFmt),
    ("color_transfer", text stream.colorTransfer),
    ("color_primaries", text stream.colorPrimaries)] ++
  match stream.sideDataList with
  | some entries => [("side_data_list", .list (entries.map .obj))]
  | none => []

/-- The size in the format section if it is positive, else 0. -/
def formatSize (result : ProbeResult) : Int :=
  ((result.format.bind ProbeFormat.size).filter (0 < ·)).getD 0

/-- The first video stream. -/
def videoStream (result : ProbeResult) : Option VideoStreamInfo :=
  ((result.streams.bind id).getD []).find? (·.codecType = some "video") |>.map
    (fun stream => parseVideoStream lower stream.toDict)

/-- `_to_media_probe`, with the size it settled on. -/
def toMediaProbe (result : ProbeResult) (sizeBytes : Int) : MediaProbe where
  sizeBytes := sizeBytes
  durationSeconds := result.format.bind ProbeFormat.duration
  videoCodec := (videoStream lower result).bind VideoStreamInfo.codecName
  width := (videoStream lower result).bind VideoStreamInfo.width
  height := (videoStream lower result).bind VideoStreamInfo.height
  bitDepth := (videoStream lower result).map VideoStreamInfo.bitDepth
  hdr := (videoStream lower result).map VideoStreamInfo.hdr

/-- No field is lost on the way through the dictionary. -/
theorem parseVideoStream_toDict (stream : ProbeStream) :
    (parseVideoStream lower stream.toDict).codecName = stream.codecName ∧
      (parseVideoStream lower stream.toDict).width = stream.width ∧
      (parseVideoStream lower stream.toDict).height = stream.height ∧
      (parseVideoStream lower stream.toDict).bitDepth =
        bitDepthFromPixFmt lower stream.pixFmt := by
  have htext : ∀ value : Option String,
      asText (value.elim .null (fun t => .atom (.str t))) = value := by
    intro value
    cases value <;> rfl
  have hint : ∀ value : Option Int,
      asInt (value.elim .null (fun n => .atom (.int n))) = value := by
    intro value
    cases value <;> rfl
  refine ⟨htext _, hint _, hint _, ?_⟩
  exact congrArg (bitDepthFromPixFmt lower) (htext _)

theorem bitDepthFromPixFmt_mem (pixFmt : Option String) :
    bitDepthFromPixFmt lower pixFmt ∈ BitDepth.members.map BitDepth.value := by
  unfold bitDepthFromPixFmt
  split
  · decide
  · split_ifs <;> decide

end

end Vshift
