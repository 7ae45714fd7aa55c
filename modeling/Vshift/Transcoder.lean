import Vshift.Ffmpeg
import Vshift.Probe

/- The transcoder: `infrastructure/ffmpeg/transcoder.py`, with `FfmpegProbe.probe` and
   `version.py`, as programs over the files of its host.

   A `Host` settles what ffmpeg and ffprobe do: how each run ends and what it leaves at the path
   it writes to. A `Site` is the regular files and the runs made so far; directories are not
   part of it. -/
namespace Vshift
open Command

abbrev Bytes := List UInt8

/-- What `subprocess.run` returns. -/
structure Completed where
  returncode : Int
  stderr : String
  deriving DecidableEq

/-- A run of ffmpeg: what is at its output path afterwards, and how `subprocess.run` ends (with the
    class name of what it raises). -/
structure FfmpegRun where
  wrote : Option Bytes
  result : Except String Completed

/-- What `ffmpeg.probe_obj` does: it raises `FFMpegExecuteError` or something else, or returns
    nothing or a result. -/
inductive ProbeReply where
  | executeError (stderr : String)
  | raised (name : String)
  | empty
  | result (result : ProbeResult)

/-- What `ffmpeg -version` prints. -/
structure VersionOutput where
  returncode : Int
  stdout : String

inductive HostCmd where
  /-- `path.is_file()` -/
  | isFile (path : Path)
  /-- `path.exists()` -/
  | fileExists (path : Path)
  /-- `path.stat().st_size` -/
  | fileSize (path : Path)
  /-- `path.mkdir(parents=True, exist_ok=True)` -/
  | mkdir (path : Path)
  /-- `path.unlink()` -/
  | unlink (path : Path)
  /-- `subprocess.run(argv)`, where the last argument names `output`. -/
  | run (argv : List String) (output : Path)
  /-- `source.replace(target)` -/
  | replace (source target : Path)
  /-- `ffmpeg.probe_obj(path, cmd=ffprobe)` -/
  | probeObj (path : Path)
  /-- `subprocess.run([ffmpeg, "-version"])` -/
  | version
  /-- `time.perf_counter()` -/
  | perfCounter

abbrev HostReply : HostCmd → Type
  | .isFile _ => Bool
  | .fileExists _ => Bool
  | .fileSize _ => Nat
  | .mkdir _ => Unit
  | .unlink _ => Unit
  | .run _ _ => Except String Completed
  | .replace _ _ => Except String Unit
  | .probeObj _ => ProbeReply
  | .version => Except String VersionOutput
  | .perfCounter => Rat

abbrev HostProg := Program HostCmd HostReply Exn

def host (c : HostCmd) : HostProg (HostReply c) := .call c

/-- What the host leaves open; runs are numbered from the first one of a transcoding. -/
structure Host where
  ffmpeg : Nat → FfmpegRun
  probeObj : Path → ProbeReply
  version : Except String VersionOutput
  /-- The clock after a number of runs. -/
  perfCounter : Nat → Rat

/-- The regular files, and the command lines run so far. -/
structure Site where
  files : Path → Option Bytes
  runs : List (List String)

namespace Host
variable (h : Host)

def reply (s : Site) : (c : HostCmd) → HostReply c
  | .isFile path => (s.files path).isSome
  | .fileExists path => (s.files path).isSome
  | .fileSize path => ((s.files path).getD []).length
  | .mkdir _ => ()
  | .unlink _ => ()
  | .run _ _ => (h.ffmpeg s.runs.length).result
  | .replace source _ => if (s.files source).isSome then .ok () else .error "FileNotFoundError"
  | .probeObj path => h.probeObj path
  | .version => h.version
  | .perfCounter => h.perfCounter s.runs.length

/-- The effect of a command; renaming a file to itself does nothing. -/
def effect (s : Site) : HostCmd → Site
  | .unlink path => { s with files := Function.update s.files path none }
  | .run argv output =>
    { files := Function.update s.files output (h.ffmpeg s.runs.length).wrote
      runs := s.runs ++ [argv] }
  | .replace source target =>
    match s.files source with
    | some bytes =>
      { s with files := Function.update (Function.update s.files source none) target (some bytes) }
    | none => s
  | _ => s

def machine : Machine Site HostCmd Unit HostReply where
  answer s c _ := some (h.reply s c)
  effect s c _ := h.effect s c

end Host

/-! `version.py` -/

def versionPrefix : List Char := "ffmpeg version ".toList

/-- `re.search(r"ffmpeg version (\S+)", line)` -/
def searchVersion : List Char → Option (List Char)
  | [] => none
  | c :: cs =>
    let word := ((c :: cs).drop versionPrefix.length).takeWhile (fun c => !isSpace c)
    if versionPrefix <+: c :: cs ∧ word ≠ [] then some word else searchVersion cs

/-- Where `splitlines` ends a line. -/
def isLineBoundary (c : Char) : Bool :=
  c.toNat ∈ [0x0a, 0x0b, 0x0c, 0x0d, 0x1c, 0x1d, 0x1e, 0x85, 0x2028, 0x2029]

def versionOf (output : VersionOutput) : String :=
  if output.returncode ≠ 0 then "unknown"
  else
    match searchVersion (output.stdout.toList.takeWhile (fun c => !isLineBoundary c)) with
    | some word => String.ofList word
    | none => "unknown"

/-- What a library raises is never a `VShiftException`. -/
def raising {α : Type} : Except String α → HostProg α
  | .ok a => pure a
  | .error name => .raise (.other name)

def ffmpegVersion : HostProg String := do
  let outcome ← host .version
  let output ← raising outcome
  pure (versionOf output)

/-! `probe.py` -/

section
variable (lower : String → String) (path : Path)

/-- What `FfmpegProbe.probe` makes of ffprobe's reply. -/
def readProbe : ProbeReply → HostProg MediaProbe
  | .executeError stderr =>
    .raise (.vshift ("ffprobe failed for " ++ path.str ++ ": " ++ strip stderr))
  | .raised name => .raise (.other name)
  | .empty => .raise (.vshift ("unexpected empty ffprobe response for " ++ path.str))
  | .result result =>
    if formatSize result ≤ 0 then do
      let size ← host (.fileSize path)
      pure (toMediaProbe lower result size)
    else pure (toMediaProbe lower result (formatSize result))

/-- `FfmpegProbe.probe` -/
def ffmpegProbe : HostProg MediaProbe := do
  let present ← host (.isFile path)
  if !present then .raise (.vshift ("media file not found: " ++ path.str))
  else do
    let probed ← host (.probeObj path)
    readProbe lower path probed

end

/-! `transcoder.py` -/

def hardwareEncoderFailureMarkers : List String :=
  ["Error creating a MFX session", "Cannot load libcuda", "Cannot load nvcuda",
    "Failed to initialise VAAPI", "No VA display", "Error while opening encoder"]

/-- `_should_retry_with_software` -/
def shouldRetryWithSoftware (stderr : String) (videoEncoder profileEncoder : VideoEncoder) : Bool :=
  if profileEncoder ≠ .auto then false
  else if !EncoderResolver.isHardwareEncoder videoEncoder then false
  else hardwareEncoderFailureMarkers.any (contains stderr)

/-- `_format_resolution` -/
def formatResolution (width height : Option Int) : Option String :=
  match width, height with
  | some width, some height => some (toString width ++ "x" ++ toString height)
  | _, _ => none

structure FfmpegTranscoder where
  commandBuilder : FfmpegCommandBuilder
  tempDir : Option Path

namespace FfmpegTranscoder
variable (transcoder : FfmpegTranscoder) (job : TranscodeJob)

def tempDirOf : Path := transcoder.tempDir.getD job.outputPath.parent

/-- The path `_temporary_output_path` returns. -/
def temporaryOutputPath : Path :=
  let suffix := if job.outputPath.suffix ≠ [] then job.outputPath.suffix
    else '.' :: job.profileSnapshot.format.toList
  (transcoder.tempDirOf job).join
    (.ofChars ((Uuid.str job.id).toList ++ suffix ++ ".partial".toList))

/-- `if path.exists(): path.unlink()` -/
def removeFile (path : Path) : HostProg Unit := do
  let present ← host (.fileExists path)
  if present then host (.unlink path) else pure ()

/-- One run of ffmpeg to the temporary path. -/
def runFfmpeg (command : List String) (temp : Path) : HostProg Completed := do
  let outcome ← host (.run command temp)
  raising outcome

/-- The second run, if the first one calls for it. -/
def retry (temp : Path) (videoEncoder : VideoEncoder) (completed : Completed) :
    HostProg Completed := do
  let profile := job.profileSnapshot
  if completed.returncode ≠ 0 ∧
      shouldRetryWithSoftware completed.stderr videoEncoder profile.video.encoder then
    -- an exception here leaves what the first run wrote
    let fallback ← Program.ofExcept (transcoder.commandBuilder.softwareFallback profile.video.codec)
    removeFile temp
    let command ← Program.ofExcept (transcoder.commandBuilder.build job temp (some fallback))
    runFfmpeg command temp
  else pure completed

/-- From the finished file at the temporary path to the result. -/
def publish (temp : Path) (wallClockSeconds : Rat) : HostProg TranscodeResult := do
  let renamed ← host (.replace temp job.outputPath)
  raising renamed
  let outputProbe ← ffmpegProbe transcoder.commandBuilder.resolver.lower job.outputPath
  let version ← ffmpegVersion
  -- `Field(ge=0)` of `TranscodeResult`
  if wallClockSeconds < 0 then .raise (.other "ValidationError")
  else pure {
    outputPath := job.outputPath
    wallClockSeconds := .finite wallClockSeconds
    ffmpegVersion := version
    videoCodecOut := job.profileSnapshot.video.codec
    resolutionOut := formatResolution outputProbe.width outputProbe.height }

/-- What follows the last run. -/
def finish (temp : Path) (started : Rat) (completed : Completed) : HostProg TranscodeResult := do
  let finished ← host .perfCounter
  if completed.returncode ≠ 0 then do
    removeFile temp
    .raise (.vshift ("ffmpeg failed for job " ++ Uuid.str job.id ++ ": " ++
      strip completed.stderr))
  else transcoder.publish job temp (finished - started)

def transcode : HostProg TranscodeResult := do
  let present ← host (.isFile job.inputPath)
  if !present then .raise (.vshift ("input file not found: " ++ job.inputPath.str))
  else do
    host (.mkdir job.outputPath.parent)
    host (.mkdir (transcoder.tempDirOf job))
    let temp := transcoder.temporaryOutputPath job
    removeFile temp
    let videoEncoder ← Program.ofExcept (transcoder.commandBuilder.resolveEncoder job)
    let command ← Program.ofExcept (transcoder.commandBuilder.build job temp (some videoEncoder))
    let started ← host .perfCounter
    let first ← runFfmpeg command temp
    let completed ← transcoder.retry job temp videoEncoder first
    transcoder.finish job temp started completed

end FfmpegTranscoder

end Vshift
