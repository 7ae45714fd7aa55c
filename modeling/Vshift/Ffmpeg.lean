import Vshift.Job
import Mathlib.Tactic.SplitIfs

/- The ffmpeg command line: `infrastructure/ffmpeg/encoder_resolver.py`, `profile_mapper.py`,
   `container_format.py` and `command_builder.py`.

   What the resolver knows of its host (the encoders ffmpeg lists, the devices it
   finds) is a field of `EncoderResolver`. Only the truncation of a quality that is no
   number can raise while the arguments are put together (`build_error`). -/
namespace Vshift

/-! `encoder_resolver.py` -/

def softwareEncoders : List VideoEncoder := [.libx264, .libx265, .libsvtav1]

def codecEncoderPriority : List (String × List VideoEncoder) := [
  ("h264", [.h264Videotoolbox, .h264Nvenc, .h264Qsv, .h264Vaapi, .libx264]),
  ("h265", [.hevcVideotoolbox, .hevcNvenc, .hevcQsv, .hevcVaapi, .libx265]),
  ("hevc", [.hevcVideotoolbox, .hevcNvenc, .hevcQsv, .hevcVaapi, .libx265]),
  ("av1", [.av1Nvenc, .libsvtav1])]

def softwareFallbacks : List (String × VideoEncoder) :=
  [("h264", .libx264), ("h265", .libx265), ("hevc", .libx265), ("av1", .libsvtav1)]

structure EncoderResolver where
  /-- `text.lower()` -/
  lower : String → String
  availableEncoders : List String
  /-- `sys.platform == "darwin"` -/
  darwin : Bool
  /-- `/dev/dri` holds a `renderD*` device. -/
  intelGpuAvailable : Bool
  /-- `/dev/nvidia0` exists. -/
  nvidiaGpuAvailable : Bool

namespace EncoderResolver

def isHardwareEncoder (encoder : VideoEncoder) : Bool := encoder ∉ softwareEncoders

def encoderUsable (resolver : EncoderResolver) : VideoEncoder → Bool
  | .libx264 | .libx265 | .libsvtav1 => true
  | .h264Videotoolbox | .hevcVideotoolbox => resolver.darwin
  | .h264Qsv | .hevcQsv | .h264Vaapi | .hevcVaapi => resolver.intelGpuAvailable
  | .h264Nvenc | .hevcNvenc | .av1Nvenc => resolver.nvidiaGpuAvailable
  | .auto => false

def resolve (resolver : EncoderResolver) (video : VideoProfile) : Except Exn VideoEncoder :=
  if video.encoder ≠ .auto then
    if video.encoder.value ∉ resolver.availableEncoders then
      .error (.vshift ("encoder '" ++ video.encoder.value ++ "' is not available in ffmpeg"))
    else if !resolver.encoderUsable video.encoder then
      .error (.vshift ("encoder '" ++ video.encoder.value ++
        "' is not usable on this host (missing GPU device)"))
    else .ok video.encoder
  else
    -- the first encoder of the codec that is listed and usable, then the software one if listed
    let codec := resolver.lower video.codec
    let msg := "no available ffmpeg encoder found for codec '" ++ video.codec ++ "'"
    match ((codecEncoderPriority.lookup codec).getD []).find? (fun encoder =>
        encoder.value ∈ resolver.availableEncoders && resolver.encoderUsable encoder) with
    | some encoder => .ok encoder
    | none =>
      match softwareFallbacks.lookup codec with
      | some fallback =>
        if fallback.value ∈ resolver.availableEncoders then .ok fallback
        else .error (.vshift msg)
      | none => .error (.vshift msg)

def softwareFallback (resolver : EncoderResolver) (codec : String) : Except Exn VideoEncoder :=
  match softwareFallbacks.lookup (resolver.lower codec) with
  | none => .error (.vshift ("no software fallback encoder for codec '" ++ codec ++ "'"))
  | some fallback =>
    if fallback.value ∉ resolver.availableEncoders then
      .error (.vshift ("software encoder '" ++ fallback.value ++ "' is not available in ffmpeg"))
    else .ok fallback

end EncoderResolver

/-! `profile_mapper.py` -/

structure MappedFfmpegCommand where
  maps : List String
  videoArgs : List String
  videoFilter : Option String
  audioArgs : List String
  outputArgs : List String
  inputArgs : List String
  deriving DecidableEq

/-- `int(value)` -/
def PyFloat.truncate : PyFloat → Except Exn Int
  | .finite q => .ok (q.num.tdiv q.den)
  | .infinity _ => .error (.other "OverflowError")
  | .nan => .error (.other "ValueError")

def videoQualityArgs (encoder : VideoEncoder) (video : VideoProfile) :
    Except Exn (List String) := do
  if video.qualityMode = .averageBitrate then
    pure ["-b:v", toString (video.averageBitrate.getD 0) ++ "k"]
  else
    let truncated ← video.quality.truncate
    let quality := toString truncated
    match encoder with
    | .libx264 | .libx265 | .libsvtav1 => pure ["-crf", quality]
    | .h264Nvenc | .hevcNvenc | .av1Nvenc => pure ["-rc:v", "constqp", "-qp:v", quality]
    | .h264Qsv | .hevcQsv => pure ["-global_quality", quality]
    | .h264Videotoolbox | .hevcVideotoolbox => pure ["-q:v", quality]
    | .h264Vaapi | .hevcVaapi => pure ["-qp:v", quality]
    -- `AUTO` falls through every branch of the source to its last line
    | .auto => pure ["-crf", quality]

def nvencPresets : List (String × String) :=
  [("ultrafast", "p1"), ("superfast", "p2"), ("veryfast", "p3"), ("faster", "p4"), ("fast", "p5"),
    ("medium", "p6"), ("slow", "p7"), ("slower", "p8"), ("veryslow", "p9")]

def mapNvencPreset (preset : String) : String := (nvencPresets.lookup preset).getD "p6"

/-- The preset and tune of an encoder that has them. -/
def presetArgs (video : VideoProfile) : VideoEncoder → List String
  | .libx264 =>
    ["-preset", video.encoderPreset] ++
      if video.encoderTune ≠ "" then ["-tune", video.encoderTune] else []
  | .libx265 => ["-preset", video.encoderPreset]
  | .h264Nvenc | .hevcNvenc | .av1Nvenc => ["-preset", mapNvencPreset video.encoderPreset]
  | _ => []

/-- `filters` never has more than one entry, so that joining it with commas changes nothing. -/
def buildVideoFilter (video : VideoProfile) : Option String :=
  match video.width, video.height with
  | some width, some height => some ("scale=" ++ toString width ++ ":" ++ toString height)
  | some width, none => some ("scale=" ++ toString width ++ ":-2")
  | none, some height => some ("scale=-2:" ++ toString height)
  | none, none => none

def appendFilter (existing : Option String) (extra : String) : String :=
  match existing with
  | none => extra
  | some existing => existing ++ "," ++ extra

section
/- `text.lower()` and `str` of a float. -/
variable (lower : String → String) (floatText : PyFloat → String)

def videoEncoderTuningArgs (encoder : VideoEncoder) (video : VideoProfile) : List String :=
  presetArgs video encoder ++
    match video.frameRateType, video.frameRate with
    | .custom, some rate => ["-r", floatText rate]
    | _, _ => []

def pixFmt (video : VideoProfile) : String :=
  if video.grayscale then "gray"
  else if video.bitDepth = .ten ∧ lower video.codec ∈ ["h265", "hevc", "av1"] then "yuv420p10le"
  else video.colorSpace

/-- An argument that is left to ffmpeg when it is empty or `auto`. -/
def unlessAuto (flag value : String) : List String :=
  if value ∉ ["", "auto"] then [flag, value] else []

def trackArgs (track : AudioTrack) (index : Nat) : List String :=
  if track.copyTrack then ["-c:a:" ++ toString index, "copy"]
  else
    ["-c:a:" ++ toString index, track.codec, "-b:a:" ++ toString index,
      toString track.bitRate ++ "k"] ++
    track.sampleRate.elim [] (fun rate => ["-ar:a:" ++ toString index, toString rate])

def audioMaps (profile : VshiftProfile) : List String :=
  if profile.audioSelectionMode = .none then []
  else if profile.audioTracks.isEmpty then ["-map", "0:a:0?"]
  else profile.audioTracks.zipIdx.flatMap (fun (_, index) => ["-map", "0:a:" ++ toString index])

def audioArgs (profile : VshiftProfile) : List String :=
  if profile.audioSelectionMode = .none then []
  else if profile.audioTracks.isEmpty then ["-c:a", "aac", "-b:a", "160k"]
  else profile.audioTracks.zipIdx.flatMap (fun (track, index) => trackArgs track index)

/-- `ProfileMapper.map_profile` -/
def mapProfile (profile : VshiftProfile) (encoder : VideoEncoder) :
    Except Exn MappedFfmpegCommand := do
  let video := profile.video
  let qualityArgs ← videoQualityArgs encoder video
  let vaapi := encoder = .h264Vaapi ∨ encoder = .hevcVaapi
  pure {
    maps := ["-map", "0:v:0"] ++ audioMaps profile
    videoArgs := ["-c:v", encoder.value] ++ qualityArgs ++
      videoEncoderTuningArgs floatText encoder video ++
      unlessAuto "-profile:v" video.encoderProfile ++
      unlessAuto "-level:v" video.encoderLevel ++ ["-pix_fmt", pixFmt lower video]
    videoFilter :=
      if vaapi then some (appendFilter (buildVideoFilter video) "format=nv12,hwupload")
      else buildVideoFilter video
    audioArgs := audioArgs profile
    outputArgs :=
      if profile.format = "mp4" ∧ profile.optimize then ["-movflags", "+faststart"] else []
    inputArgs := if vaapi then ["-vaapi_device", "/dev/dri/renderD128"] else [] }

/-! `container_format.py` -/

def ffmpegMuxerFormats : List (String × String) :=
  [("mkv", "matroska"), ("mp4", "mp4"), ("webm", "webm"), ("avi", "avi"), ("mov", "mov")]

def ffmpegMuxerFormat (containerFormat : String) : String :=
  (ffmpegMuxerFormats.lookup (lower containerFormat)).getD containerFormat

end

/-! `command_builder.py` -/

structure FfmpegCommandBuilder where
  ffmpeg : String := "ffmpeg"
  resolver : EncoderResolver
  /-- `str` of a float -/
  floatText : PyFloat → String
  threadCount : Option Int

namespace FfmpegCommandBuilder
variable (builder : FfmpegCommandBuilder)

def resolveEncoder (job : TranscodeJob) : Except Exn VideoEncoder :=
  builder.resolver.resolve job.profileSnapshot.video

def softwareFallback (codec : String) : Except Exn VideoEncoder :=
  builder.resolver.softwareFallback codec

def threadArgs : List String :=
  builder.threadCount.elim [] (fun count => if 0 < count then ["-threads", toString count] else [])

def build (job : TranscodeJob) (outputPath : Path) (videoEncoder : Option VideoEncoder) :
    Except Exn (List String) := do
  let profile := job.profileSnapshot
  let resolvedEncoder ←
    match videoEncoder with
    | some encoder => pure encoder
    | none => builder.resolveEncoder job
  let mapped ← mapProfile builder.resolver.lower builder.floatText profile resolvedEncoder
  pure ([builder.ffmpeg, "-hide_banner", "-nostdin", "-y"] ++ builder.threadArgs ++
    mapped.inputArgs ++ ["-i", job.inputPath.str] ++ mapped.maps ++ mapped.videoArgs ++
    mapped.videoFilter.elim [] (fun videoFilter => ["-vf", videoFilter]) ++
    mapped.audioArgs ++ mapped.outputArgs ++
    ["-f", ffmpegMuxerFormat builder.resolver.lower profile.format, outputPath.str])

end FfmpegCommandBuilder

/-! What can raise. -/

section
variable {resolver : EncoderResolver}

/-- The resolver raises nothing but its own exception. -/
theorem resolve_error {video : VideoProfile} {e : Exn} (h : resolver.resolve video = .error e) :
    ∃ message, e = .vshift message := by
  unfold EncoderResolver.resolve at h
  split at h
  · split_ifs at h <;> cases h <;> exact ⟨_, rfl⟩
  · dsimp only at h
    split at h
    · cases h
    · split at h
      · split_ifs at h
        cases h
        exact ⟨_, rfl⟩
      · cases h
        exact ⟨_, rfl⟩

theorem softwareFallback_error {codec : String} {e : Exn}
    (h : resolver.softwareFallback codec = .error e) : ∃ message, e = .vshift message := by
  unfold EncoderResolver.softwareFallback at h
  split at h
  · cases h
    exact ⟨_, rfl⟩
  · split_ifs at h
    cases h
    exact ⟨_, rfl⟩

end

/-- The quality of the profile can be put on the command line. -/
def VideoProfile.Encodable (video : VideoProfile) : Prop :=
  video.qualityMode = .averageBitrate ∨ video.quality.Finite

instance (video : VideoProfile) : Decidable video.Encodable :=
  inferInstanceAs (Decidable (_ ∨ _))

theorem videoQualityArgs_ok {video : VideoProfile} (h : video.Encodable) (encoder : VideoEncoder) :
    ∃ args, videoQualityArgs encoder video = .ok args := by
  unfold videoQualityArgs
  rcases h with hmode | ⟨q, hq⟩
  · rw [if_pos hmode]
    exact ⟨_, rfl⟩
  · split
    · exact ⟨_, rfl⟩
    · rw [hq]
      cases encoder <;> exact ⟨_, rfl⟩

theorem videoQualityArgs_error {video : VideoProfile} (h : ¬ video.Encodable)
    (encoder : VideoEncoder) : ∃ name, videoQualityArgs encoder video = .error (.other name) := by
  unfold VideoProfile.Encodable at h
  rw [not_or] at h
  unfold videoQualityArgs
  rw [if_neg h.1]
  cases hquality : video.quality with
  | finite q => exact absurd ⟨q, hquality⟩ h.2
  | infinity negative => exact ⟨_, rfl⟩
  | nan => exact ⟨_, rfl⟩

section
variable {builder : FfmpegCommandBuilder} {job : TranscodeJob}

theorem build_ok (h : job.profileSnapshot.video.Encodable) (outputPath : Path)
    (encoder : VideoEncoder) :
    ∃ argv, builder.build job outputPath (some encoder) = .ok argv := by
  obtain ⟨args, hargs⟩ := videoQualityArgs_ok h encoder
  simp [FfmpegCommandBuilder.build, mapProfile, hargs, bind, Except.bind, pure, Except.pure]

/-- Whatever raises while the arguments are put together, it is no `VShiftException`. -/
theorem build_error (h : ¬ job.profileSnapshot.video.Encodable) (outputPath : Path)
    (encoder : VideoEncoder) :
    ∃ name, builder.build job outputPath (some encoder) = .error (.other name) := by
  obtain ⟨name, hname⟩ := videoQualityArgs_error h encoder
  simp [FfmpegCommandBuilder.build, mapProfile, hname, bind, Except.bind, pure, Except.pure]

end

end Vshift
