import Vshift.Values

/- Transcoding profiles: `domain/transcoding_profile`.

   A profile is copied into every job as its snapshot. An enumeration's `value` is
   its text in documents and on the command line. `validate` is each model's
   own validators, in their order; a `VshiftProfile` value may be any, an accepted
   one satisfies `validate p = .ok ()`. -/
namespace Vshift

inductive FrameRateType where
  | sameAsSource | custom
  deriving DecidableEq, Repr

namespace FrameRateType

def value : FrameRateType → String
  | sameAsSource => "same_as_source"
  | custom => "custom"

def members : List FrameRateType := [sameAsSource, custom]

end FrameRateType

inductive QualityMode where
  | constant | averageBitrate
  deriving DecidableEq, Repr

namespace QualityMode

def value : QualityMode → String
  | constant => "constant"
  | averageBitrate => "average_bitrate"

def members : List QualityMode := [constant, averageBitrate]

end QualityMode

inductive FramerateMode where
  | vfr | pfr | cfr
  deriving DecidableEq, Repr

namespace FramerateMode

def value : FramerateMode → String
  | vfr => "vfr"
  | pfr => "pfr"
  | cfr => "cfr"

def members : List FramerateMode := [vfr, pfr, cfr]

end FramerateMode

inductive AudioSelectionMode where
  | auto | first | all | none
  deriving DecidableEq, Repr

namespace AudioSelectionMode

def value : AudioSelectionMode → String
  | auto => "auto"
  | first => "first"
  | all => "all"
  | none => "none"

def members : List AudioSelectionMode := [auto, first, all, none]

end AudioSelectionMode

inductive SubtitleSelectionMode where
  | auto | first | all | none | foreign
  deriving DecidableEq, Repr

namespace SubtitleSelectionMode

def value : SubtitleSelectionMode → String
  | auto => "auto"
  | first => "first"
  | all => "all"
  | none => "none"
  | foreign => "foreign"

def members : List SubtitleSelectionMode := [auto, first, all, none, foreign]

end SubtitleSelectionMode

inductive VideoEncoder where
  | auto
  | libx264 | libx265 | libsvtav1
  | h264Nvenc | hevcNvenc | av1Nvenc
  | h264Qsv | hevcQsv
  | h264Vaapi | hevcVaapi
  | h264Videotoolbox | hevcVideotoolbox
  deriving DecidableEq, Repr

namespace VideoEncoder

def value : VideoEncoder → String
  | auto => "auto"
  | libx264 => "libx264"
  | libx265 => "libx265"
  | libsvtav1 => "libsvtav1"
  | h264Nvenc => "h264_nvenc"
  | hevcNvenc => "hevc_nvenc"
  | av1Nvenc => "av1_nvenc"
  | h264Qsv => "h264_qsv"
  | hevcQsv => "hevc_qsv"
  | h264Vaapi => "h264_vaapi"
  | hevcVaapi => "hevc_vaapi"
  | h264Videotoolbox => "h264_videotoolbox"
  | hevcVideotoolbox => "hevc_videotoolbox"

def members : List VideoEncoder :=
  [auto, libx264, libx265, libsvtav1, h264Nvenc, hevcNvenc, av1Nvenc, h264Qsv, hevcQsv,
    h264Vaapi, hevcVaapi, h264Videotoolbox, hevcVideotoolbox]

end VideoEncoder

/-- `Literal[8, 10, 12]` -/
inductive BitDepth where
  | eight | ten | twelve
  deriving DecidableEq, Repr

namespace BitDepth

def value : BitDepth → Int
  | eight => 8
  | ten => 10
  | twelve => 12

def members : List BitDepth := [eight, ten, twelve]

end BitDepth

structure VideoProfile where
  codec : String
  encoder : VideoEncoder := .auto
  colorSpace : String := "yuv420p"
  bitDepth : BitDepth := .eight
  frameRateType : FrameRateType := .sameAsSource
  frameRate : Option PyFloat := none
  framerateMode : FramerateMode := .vfr
  width : Option Int := none
  height : Option Int := none
  qualityMode : QualityMode := .constant
  quality : PyFloat := .finite 22
  averageBitrate : Option Int := none
  encoderPreset : String := "medium"
  encoderTune : String := ""
  encoderProfile : String := "auto"
  encoderLevel : String := "auto"
  multiPass : Bool := false
  turboMultiPass : Bool := false
  grayscale : Bool := false
  deriving DecidableEq, Repr

namespace VideoProfile

def validateFrameRate (video : VideoProfile) : Except Exn Unit :=
  if video.frameRateType = .custom ∧ video.frameRate = none then
    .error (.vshift "frame_rate is required when frame_rate_type is custom")
  else .ok ()

def validateQuality (video : VideoProfile) : Except Exn Unit :=
  if video.qualityMode = .constant ∧ video.quality.isNegative then
    .error (.vshift "quality must be >= 0 for constant-quality mode")
  else if video.qualityMode = .averageBitrate ∧ video.averageBitrate.all (· ≤ 0) then
    .error (.vshift "average_bitrate must be > 0 for average-bitrate mode")
  else .ok ()

def validate (video : VideoProfile) : Except Exn Unit := do
  video.validateFrameRate
  video.validateQuality

end VideoProfile

structure AudioTrack where
  codec : String
  bitRate : Int
  sampleRate : Option Int := none
  mixdown : String := "stereo"
  copyTrack : Bool := false
  deriving DecidableEq, Repr

structure SubtitleTrack where
  language : String := "und"
  codec : String := "copy"
  copyTrack : Bool := true
  burnIn : Bool := false
  isDefault : Bool := false
  deriving DecidableEq, Repr

structure VshiftProfile where
  name : String
  description : String := ""
  format : String
  video : VideoProfile
  audioTracks : List AudioTrack := []
  audioSelectionMode : AudioSelectionMode := .auto
  audioLanguageList : List String := []
  audioPassthrough : Bool := false
  subtitleTracks : List SubtitleTrack := []
  subtitleSelectionMode : SubtitleSelectionMode := .auto
  subtitleLanguageList : List String := []
  subtitlePassthrough : Bool := false
  chapterMarkers : Bool := true
  optimize : Bool := false
  deriving DecidableEq, Repr

namespace VshiftProfile

def validateProfile (profile : VshiftProfile) : Except Exn Unit :=
  if isBlank profile.name then .error (.vshift "name is required")
  else if isBlank profile.format then .error (.vshift "format is required")
  else .ok ()

def validate (profile : VshiftProfile) : Except Exn Unit := do
  profile.video.validate
  profile.validateProfile

end VshiftProfile
end Vshift
