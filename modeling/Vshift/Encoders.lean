import Vshift.CommandLine
import Vshift.Publication

/- The encoder of each run, and the codec that is recorded.

   A transcoding runs ffmpeg once, with the encoder that was resolved, or a second time
   with the software encoder of the profile's codec (`transcode_choices`). The codec it
   records is the profile's, whatever encoder ran, and `build_summary` copies it
   (`buildSummary_codec`). An automatic encoder is looked up under that codec, so the
   record is true of it; an explicit encoder need not have anything to do with the codec
   of its profile (`summary_truthful_iff`). -/
namespace Vshift
open Command Program Options Document

/-! Families of codecs. -/

inductive CodecFamily where
  | h264 | h265 | av1
  deriving DecidableEq, Repr

/-- What an encoder produces. -/
def encoderFamily : VideoEncoder → Option CodecFamily
  | .auto => none
  | .libx264 | .h264Nvenc | .h264Qsv | .h264Vaapi | .h264Videotoolbox => some .h264
  | .libx265 | .hevcNvenc | .hevcQsv | .hevcVaapi | .hevcVideotoolbox => some .h265
  | .libsvtav1 | .av1Nvenc => some .av1

/-- The family a codec is the name of, in lower case. -/
def codecFamily (codec : String) : Option CodecFamily :=
  if codec = "h264" then some .h264
  else if codec = "h265" ∨ codec = "hevc" then some .h265
  else if codec = "av1" then some .av1
  else none

/-- The encoder named by `-c:v` on a command line. -/
def encoderOf (argv : List String) : Option VideoEncoder :=
  ((pairs (argv.drop 4)).lookup "-c:v").bind fun name =>
    VideoEncoder.members.find? (·.value = name)

/-! `build_summary` of `transcoder.py` -/

/-- The clock and the arithmetic of a summary. -/
structure Measures where
  /-- `datetime.now(tz=UTC)` -/
  completedAt : DateTime
  /-- `completed_at - timedelta(seconds=wall_clock_seconds)` -/
  startedAt : PyFloat → Except Exn DateTime
  /-- `input_size / output_size` -/
  ratio : Int → Int → Except Exn PyFloat

namespace FfmpegTranscoder
variable (transcoder : FfmpegTranscoder) (measures : Measures)

def compressionRatio (inputSize outputSize : Int) : Except Exn (Option PyFloat) :=
  if 0 < outputSize then (measures.ratio inputSize outputSize).map some else .ok none

/-- The `Field(ge=0)` checks of `JobSummary`; NaN is not `ge` anything. -/
def summaryFieldsOk (inputProbe outputProbe : MediaProbe) (wallClockSeconds : PyFloat) : Bool :=
  0 ≤ inputProbe.sizeBytes ∧ 0 ≤ outputProbe.sizeBytes ∧
    inputProbe.durationSeconds.all (fun d => d ≠ .nan && !d.isNegative) ∧
    wallClockSeconds ≠ .nan ∧ ¬ wallClockSeconds.isNegative

def buildSummary (job : TranscodeJob) (result : TranscodeResult) : HostProg JobSummary := do
  let inputProbe ← ffmpegProbe transcoder.commandBuilder.resolver.lower job.inputPath
  let outputProbe ← ffmpegProbe transcoder.commandBuilder.resolver.lower result.outputPath
  let startedAt ← Program.ofExcept (measures.startedAt result.wallClockSeconds)
  let ratio ← Program.ofExcept
    (compressionRatio measures inputProbe.sizeBytes outputProbe.sizeBytes)
  if summaryFieldsOk inputProbe outputProbe result.wallClockSeconds then
    pure {
      jobId := job.id
      inputPath := job.inputPath
      outputPath := result.outputPath
      profileName := job.profileName
      inputSizeBytes := inputProbe.sizeBytes.toNat
      outputSizeBytes := outputProbe.sizeBytes.toNat
      inputDurationSeconds := inputProbe.durationSeconds
      compressionRatio := ratio
      wallClockSeconds := result.wallClockSeconds
      ffmpegVersion := result.ffmpegVersion
      startedAt
      completedAt := measures.completedAt
      videoCodecIn := inputProbe.videoCodec
      videoCodecOut := result.videoCodecOut
      resolutionIn := formatResolution inputProbe.width inputProbe.height
      resolutionOut := result.resolutionOut }
  else .raise (.other "ValidationError")

end FfmpegTranscoder

/-- Whatever the probes say, a summary repeats the codec of the result. -/
theorem buildSummary_codec (transcoder : FfmpegTranscoder) (measures : Measures)
    (job : TranscodeJob) (result : TranscodeResult) :
    (transcoder.buildSummary measures job result).Returns
      (fun summary => summary.videoCodecOut = result.videoCodecOut) := by
  apply Returns.bind
  intro inputProbe
  apply Returns.bind
  intro outputProbe
  apply Returns.bind
  intro startedAt
  apply Returns.bind
  intro ratio
  split
  · exact rfl
  · trivial

section
variable (transcoder : FfmpegTranscoder) (job : TranscodeJob)

theorem publish_codec (temp : Path) (wallClockSeconds : Rat) :
    (transcoder.publish job temp wallClockSeconds).Returns
      (fun result => result.videoCodecOut = job.profileSnapshot.video.codec) := by
  unfold FfmpegTranscoder.publish
  apply Returns.bind
  intro renamed
  apply Returns.bind
  intro _
  apply Returns.bind
  intro outputProbe
  apply Returns.bind
  intro version
  split
  · trivial
  · exact rfl

theorem finish_codec (temp : Path) (started : Rat) (completed : Completed) :
    (transcoder.finish job temp started completed).Returns
      (fun result => result.videoCodecOut = job.profileSnapshot.video.codec) := by
  unfold FfmpegTranscoder.finish
  apply Returns.bind
  intro finished
  split
  · apply Returns.bind
    intro _
    trivial
  · exact publish_codec transcoder job _ _

/-- A result carries the codec of the profile, whatever ran. -/
theorem transcode_codec : (transcoder.transcode job).Returns
    (fun result => result.videoCodecOut = job.profileSnapshot.video.codec) := by
  unfold FfmpegTranscoder.transcode
  apply Returns.bind
  intro present
  split
  · trivial
  · dsimp only
    apply Returns.bind
    intro _
    apply Returns.bind
    intro _
    apply Returns.bind
    intro _
    apply Returns.bind
    intro videoEncoder
    apply Returns.bind
    intro command
    apply Returns.bind
    intro started
    apply Returns.bind
    intro first
    apply Returns.bind
    exact finish_codec transcoder job _ _

end

/-! The encoder on the command line. -/

theorem find_value (encoder : VideoEncoder) :
    VideoEncoder.members.find? (·.value = encoder.value) = some encoder := by
  cases encoder <;> rfl

section
variable {builder : FfmpegCommandBuilder} {job : TranscodeJob} {outputPath : Path}
  {encoder : VideoEncoder} {argv : List String}

theorem mapProfile_videoArgs {lower : String → String} {floatText : PyFloat → String}
    {profile : VshiftProfile} {mapped : MappedFfmpegCommand}
    (h : mapProfile lower floatText profile encoder = .ok mapped) :
    ∃ rest, mapped.videoArgs = "-c:v" :: encoder.value :: rest := by
  obtain ⟨qualityArgs, -, hmapped⟩ := except_bind_ok h
  cases hmapped
  exact ⟨_, rfl⟩

/-- A command line names the encoder it was put together for. -/
theorem encoderOf_build (h : builder.build job outputPath (some encoder) = .ok argv) :
    encoderOf argv = some encoder := by
  obtain ⟨_, mapped, hresolved, hmapped, rfl⟩ := build_parts h
  cases hresolved
  obtain ⟨rest, hvideo⟩ := mapProfile_videoArgs hmapped
  obtain ⟨⟨maps, hmaps, honly⟩, -, hinput, -, -⟩ := mapProfile_follows hmapped
  obtain ⟨before, hbefore, hflags⟩ := (((threadArgs_follows builder).append hinput).append
    (.pair "-i" job.inputPath.str)).append hmaps
  have habsent : "-c:v" ∉ flags before := by
    intro hmem
    have htemplate := hflags.subset hmem
    simp only [List.mem_append, List.mem_singleton] at htemplate
    obtain ((h | h) | h) | h := htemplate
    · exact absurd h (by decide)
    · exact absurd h (by decide)
    · exact absurd h (by decide)
    · exact absurd (honly _ h) (by decide)
  have hlookup : ∀ tail, (pairs (builder.threadArgs ++ mapped.inputArgs ++
      ["-i", job.inputPath.str] ++ mapped.maps ++ (mapped.videoArgs ++ tail))).lookup "-c:v" =
        some encoder.value := by
    intro tail
    rw [hbefore, hvideo]
    exact lookup_pairs habsent _ _
  unfold encoderOf
  simp only [List.append_assoc, List.cons_append, List.nil_append, List.drop_succ_cons,
    List.drop_zero] at hlookup ⊢
  rw [hlookup, Option.bind_some, find_value]

end

/-! What a transcoding runs. -/

/-- The command lines of a transcoding that returns. -/
inductive Choices (transcoder : FfmpegTranscoder) (job : TranscodeJob) :
    List (List String) → Prop
  | once {encoder : VideoEncoder} {argv : List String}
      (hresolve : transcoder.commandBuilder.resolveEncoder job = .ok encoder)
      (hargv : encoderOf argv = some encoder) : Choices transcoder job [argv]
  | twice {encoder fallback : VideoEncoder} {first second : List String}
      (hresolve : transcoder.commandBuilder.resolveEncoder job = .ok encoder)
      (hfirst : encoderOf first = some encoder)
      (hauto : job.profileSnapshot.video.encoder = .auto)
      (hfallback : transcoder.commandBuilder.softwareFallback
        job.profileSnapshot.video.codec = .ok fallback)
      (hsecond : encoderOf second = some fallback) : Choices transcoder job [first, second]

section
variable {h : Host} {transcoder : FfmpegTranscoder} {job : TranscodeJob} {s : Site}

theorem ffmpegProbe_ran {P : List (List String) → Prop} (lower : String → String) (path : Path)
    (hP : P s.runs) :
    (ffmpegProbe lower path).Obeys h.machine.protocol (fun _ t => P t.runs) s := by
  unfold ffmpegProbe
  rw [obeys_host_bind]
  split
  · exact hP
  · rw [obeys_host_bind]
    unfold readProbe
    split
    · exact hP
    · exact hP
    · exact hP
    · split
      · exact obeys_host_bind.mpr hP
      · exact hP

theorem publish_ran {P : List (List String) → Prop} {temp : Path} {wallClockSeconds : Rat}
    (hP : P s.runs) : (transcoder.publish job temp wallClockSeconds).Obeys h.machine.protocol
      (fun _ t => P t.runs) s := by
  have hrename : (h.effect s (.replace temp job.outputPath)).runs = s.runs := by
    unfold Host.effect
    dsimp only
    split <;> rfl
  rw [← hrename] at hP
  unfold FfmpegTranscoder.publish
  rw [obeys_host_bind, obeys_bind, obeys_raising]
  cases h.reply s (.replace temp job.outputPath) with
  | error name => exact hP
  | ok _ =>
    show Obeys _ (ffmpegProbe _ _ >>= _) _ _
    apply (ffmpegProbe_ran _ _ hP).seq
    · intro outputProbe t hP'
      unfold ffmpegVersion
      rw [bind_assoc, obeys_host_bind, bind_assoc, obeys_bind, obeys_raising]
      cases h.reply t .version with
      | error name => exact hP'
      | ok output =>
        show Obeys _ (if _ then _ else _) _ _
        split <;> exact hP'
    · exact fun e t hP' => hP'

/-- Nothing after the last run runs ffmpeg again. -/
theorem finish_ran {P : List (List String) → Prop} {temp : Path} {started : Rat}
    {completed : Completed} (hP : P s.runs) :
    (transcoder.finish job temp started completed).Obeys h.machine.protocol
      (fun _ t => P t.runs) s := by
  unfold FfmpegTranscoder.finish
  rw [obeys_host_bind]
  split
  · rw [obeys_bind, obeys_removeFile, andThen_ok]
    exact hP
  · exact publish_ran hP

theorem shouldRetryWithSoftware_auto {stderr : String} {videoEncoder profileEncoder : VideoEncoder}
    (hretry : shouldRetryWithSoftware stderr videoEncoder profileEncoder = true) :
    profileEncoder = .auto := by
  unfold shouldRetryWithSoftware at hretry
  split at hretry
  · cases hretry
  · next hauto => exact not_not.mp hauto

/-- A second run is made for an automatic encoder only. -/
theorem retry_choices {temp : Path} {encoder : VideoEncoder} {first : List String}
    {completed : Completed} (hruns : s.runs = [first])
    (hresolve : transcoder.commandBuilder.resolveEncoder job = .ok encoder)
    (hfirst : encoderOf first = some encoder) :
    (transcoder.retry job temp encoder completed).Obeys h.machine.protocol
      (Ensures fun _ s => Choices transcoder job s.runs) s := by
  unfold FfmpegTranscoder.retry
  dsimp only
  split
  · next hretry =>
    cases hfallback : transcoder.commandBuilder.softwareFallback
        job.profileSnapshot.video.codec with
    | error e => exact ensures_error
    | ok fallback =>
      rw [obeys_bind, obeys_ofExcept, andThen_ok, obeys_bind, obeys_removeFile, andThen_ok]
      cases hbuild : transcoder.commandBuilder.build job temp (some fallback) with
      | error e => exact ensures_error
      | ok second =>
        rw [obeys_bind, obeys_ofExcept, andThen_ok, obeys_runFfmpeg]
        apply ensures_of
        dsimp only
        rw [hruns]
        exact .twice hresolve hfirst (shouldRetryWithSoftware_auto hretry.2) hfallback
          (encoderOf_build hbuild)
  · apply ensures_of
    rw [hruns]
    exact .once hresolve hfirst

theorem transcode_choices (files : Path → Option Bytes) :
    (transcoder.transcode job).Obeys h.machine.protocol
      (Ensures fun _ s => Choices transcoder job s.runs) (.before files) := by
  unfold FfmpegTranscoder.transcode
  rw [obeys_host_bind]
  split
  · exact ensures_error
  · dsimp only
    rw [obeys_host_bind, obeys_host_bind, obeys_bind, obeys_removeFile, andThen_ok]
    cases hresolve : transcoder.commandBuilder.resolveEncoder job with
    | error e => exact ensures_error
    | ok encoder =>
      rw [obeys_bind, obeys_ofExcept, andThen_ok]
      cases hbuild : transcoder.commandBuilder.build job (transcoder.temporaryOutputPath job)
          (some encoder) with
      | error e => exact ensures_error
      | ok command =>
        rw [obeys_bind, obeys_ofExcept, andThen_ok, obeys_host_bind, obeys_bind, obeys_runFfmpeg]
        generalize hresult : (h.ffmpeg _).result = outcome
        cases outcome with
        | error name => exact ensures_error
        | ok first =>
          show Obeys _ (transcoder.retry job _ encoder first >>= _) _ _
          apply (retry_choices rfl hresolve (encoderOf_build hbuild)).seq
          · intro completed t hran
            apply (finish_ran (hran completed rfl)).mono
            exact fun r t hchoices => ensures_of hchoices r
          · exact fun e t _ => ensures_error

end

/-! What the resolver chooses. -/

theorem encoderFamily_eq_none {encoder : VideoEncoder} (h : encoderFamily encoder = none) :
    encoder = .auto := by
  cases encoder <;> first | rfl | cases h

theorem priority_family {codec : String} {encoders : List VideoEncoder}
    (h : codecEncoderPriority.lookup codec = some encoders) :
    ∀ encoder ∈ encoders, encoderFamily encoder = codecFamily codec := by
  have htable : ∀ entry ∈ codecEncoderPriority, ∀ encoder ∈ entry.2,
      encoderFamily encoder = codecFamily entry.1 := by decide
  exact htable _ (mem_of_lookup h)

/-- The software encoder of a codec is the last resort of its priority list. -/
theorem software_listed {codec : String} {fallback : VideoEncoder}
    (h : softwareFallbacks.lookup codec = some fallback) :
    fallback ∈ softwareEncoders ∧ fallback ∈ (codecEncoderPriority.lookup codec).getD [] := by
  have htable : ∀ entry ∈ softwareFallbacks, entry.2 ∈ softwareEncoders ∧
      entry.2 ∈ (codecEncoderPriority.lookup entry.1).getD [] := by decide
  exact htable _ (mem_of_lookup h)

theorem software_family {codec : String} {fallback : VideoEncoder}
    (h : softwareFallbacks.lookup codec = some fallback) :
    encoderFamily fallback = codecFamily codec := by
  have hmem := (software_listed h).2
  cases hlist : codecEncoderPriority.lookup codec with
  | none =>
    rw [hlist] at hmem
    cases hmem
  | some encoders =>
    rw [hlist] at hmem
    exact priority_family hlist fallback hmem

namespace EncoderResolver
variable {resolver : EncoderResolver} {video : VideoProfile} {encoder : VideoEncoder}

/-- Listed by ffmpeg, with the device it needs. -/
def Ready (resolver : EncoderResolver) (encoder : VideoEncoder) : Prop :=
  encoder.value ∈ resolver.availableEncoders ∧ resolver.encoderUsable encoder

/-- `encoder` is the first of the priority list of `codec` that is ready. -/
def FirstReady (resolver : EncoderResolver) (codec : String) (encoder : VideoEncoder) : Prop :=
  ∃ before after, codecEncoderPriority.lookup codec = some (before ++ encoder :: after) ∧
    resolver.Ready encoder ∧ ∀ other ∈ before, ¬ resolver.Ready other

theorem software_usable (h : encoder ∈ softwareEncoders) : resolver.encoderUsable encoder := by
  simp only [softwareEncoders, List.mem_cons, List.not_mem_nil, or_false] at h
  obtain rfl | rfl | rfl := h <;> rfl

theorem resolve_explicit (hexplicit : video.encoder ≠ .auto)
    (h : resolver.resolve video = .ok encoder) :
    encoder = video.encoder ∧ resolver.Ready encoder := by
  unfold resolve at h
  rw [if_pos hexplicit] at h
  split_ifs at h with hlisted husable
  cases h
  exact ⟨rfl, hlisted, by simpa using husable⟩

theorem resolve_auto (hauto : video.encoder = .auto) (h : resolver.resolve video = .ok encoder) :
    resolver.FirstReady (resolver.lower video.codec) encoder := by
  unfold resolve at h
  rw [if_neg (not_not.mpr hauto)] at h
  dsimp only at h
  generalize resolver.lower video.codec = codec at h ⊢
  split at h
  · next found hfind =>
    cases h
    obtain ⟨hready, before, after, hlist, hbefore⟩ := List.find?_eq_some_iff_append.mp hfind
    cases hlookup : codecEncoderPriority.lookup codec with
    | none =>
      rw [hlookup] at hlist
      exact absurd hlist (by simp)
    | some encoders =>
      rw [hlookup, Option.getD_some] at hlist
      refine ⟨before, after, hlookup.trans (congrArg some hlist), ?_, ?_⟩
      · simpa [Ready] using hready
      · intro other hmem hother
        simpa [hother.1, hother.2] using hbefore other hmem
  · next hfind =>
    -- the software encoder is in the list that was searched, and always usable
    split at h
    · next fallback hfallback =>
      split_ifs at h with hlisted
      have hmem := software_listed hfallback
      have hnone := List.find?_eq_none.mp hfind fallback hmem.2
      simp [hlisted, software_usable hmem.1] at hnone
    · cases h

/-- An encoder from the list of a codec produces that codec. -/
theorem FirstReady.family {codec : String} (h : resolver.FirstReady codec encoder) :
    ∃ family, encoderFamily encoder = some family ∧ codecFamily codec = some family := by
  obtain ⟨before, after, hlist, ⟨-, husable⟩, -⟩ := h
  have hfamily : encoderFamily encoder = codecFamily codec :=
    priority_family hlist encoder (List.mem_append_right _ List.mem_cons_self)
  cases henc : encoderFamily encoder with
  | none =>
    rw [encoderFamily_eq_none henc] at husable
    cases husable
  | some family => exact ⟨family, rfl, hfamily ▸ henc⟩

theorem softwareFallback_eq {codec : String} (h : resolver.softwareFallback codec = .ok encoder) :
    softwareFallbacks.lookup (resolver.lower codec) = some encoder ∧
      encoder.value ∈ resolver.availableEncoders := by
  unfold softwareFallback at h
  split at h
  · cases h
  · next fallback hfallback =>
    split_ifs at h with hlisted
    cases h
    exact ⟨hfallback, hlisted⟩

end EncoderResolver

/-! What is recorded. -/

/-- The record of an encoding is true of the runs that made it. -/
structure TellsTruth (resolver : EncoderResolver) (video : VideoProfile)
    (runs : List (List String)) (recorded : String) : Prop where
  last : ∃ argv ∈ runs.getLast?, ∃ encoder, encoderOf argv = some encoder ∧
    encoder.value ∈ resolver.availableEncoders ∧
    ∃ family, encoderFamily encoder = some family ∧
      codecFamily (resolver.lower recorded) = some family
  automatic : video.encoder = .auto → ∃ first later, runs = first :: later ∧ later.length ≤ 1 ∧
    (∃ encoder, encoderOf first = some encoder ∧
      resolver.FirstReady (resolver.lower video.codec) encoder) ∧
    ∀ argv ∈ later, ∃ fallback ∈ softwareEncoders, encoderOf argv = some fallback ∧
      encoderFamily fallback = codecFamily (resolver.lower video.codec)

/-- The profile's encoder, if it names one, produces the profile's codec. -/
def Consistent (resolver : EncoderResolver) (video : VideoProfile) : Prop :=
  video.encoder = .auto ∨ encoderFamily video.encoder = codecFamily (resolver.lower video.codec)

section
variable {transcoder : FfmpegTranscoder} {job : TranscodeJob} {runs : List (List String)}

theorem tellsTruth_iff (hchoices : Choices transcoder job runs) :
    TellsTruth transcoder.commandBuilder.resolver job.profileSnapshot.video runs
        job.profileSnapshot.video.codec ↔
      Consistent transcoder.commandBuilder.resolver job.profileSnapshot.video := by
  cases hchoices with
  | @once encoder argv hresolve hargv =>
    by_cases hauto : job.profileSnapshot.video.encoder = .auto
    · have hfirst := EncoderResolver.resolve_auto hauto hresolve
      have hready := hfirst
      obtain ⟨-, -, -, ⟨hlisted, -⟩, -⟩ := hready
      apply iff_of_true _ (.inl hauto)
      exact {
        last := ⟨argv, rfl, encoder, hargv, hlisted, hfirst.family⟩
        automatic := fun _ => ⟨argv, [], rfl, Nat.zero_le 1, ⟨encoder, hargv, hfirst⟩,
          List.forall_mem_nil _⟩ }
    · obtain ⟨rfl, hlisted, -⟩ := EncoderResolver.resolve_explicit hauto hresolve
      constructor
      · rintro ⟨⟨_, ⟨⟩, encoder, hencoder, -, family, hfamily, hrecorded⟩, -⟩
        cases hargv.symm.trans hencoder
        exact .inr (hfamily.trans hrecorded.symm)
      · intro hconsistent
        have hfamily := hconsistent.resolve_left hauto
        refine ⟨⟨argv, rfl, _, hargv, hlisted, ?_⟩, fun h => absurd h hauto⟩
        -- an explicit encoder has a family
        cases henc : encoderFamily job.profileSnapshot.video.encoder with
        | none => exact absurd (encoderFamily_eq_none henc) hauto
        | some family => exact ⟨family, rfl, hfamily ▸ henc⟩
  | @twice encoder fallback first second hresolve hfirst hauto hfallback hsecond =>
    have hchosen := EncoderResolver.resolve_auto hauto hresolve
    obtain ⟨hlookup, hlisted⟩ := EncoderResolver.softwareFallback_eq hfallback
    have hfamily := software_family hlookup
    apply iff_of_true _ (.inl hauto)
    obtain ⟨family, -, hcodec⟩ := hchosen.family
    exact {
      last := ⟨second, rfl, fallback, hsecond, hlisted, family, hfamily.trans hcodec, hcodec⟩
      automatic := fun _ => ⟨first, [second], rfl, Nat.le_refl 1, ⟨encoder, hfirst, hchosen⟩,
        List.forall_mem_singleton.mpr
          ⟨fallback, (software_listed hlookup).1, hsecond, hfamily⟩⟩ }

/-- The result and every summary made from it tell the truth about the runs. -/
def RecordsTruth (transcoder : FfmpegTranscoder) (job : TranscodeJob) (result : TranscodeResult)
    (runs : List (List String)) : Prop :=
  TellsTruth transcoder.commandBuilder.resolver job.profileSnapshot.video runs
    result.videoCodecOut ∧
  ∀ (h : Host) (measures : Measures) (processing : TranscodeJob) (tape : List Unit) (s : Site)
    (summary : JobSummary) (s' : Site),
    h.machine.run (transcoder.buildSummary measures processing result) tape s =
      some (.ok summary, s') →
    TellsTruth transcoder.commandBuilder.resolver job.profileSnapshot.video runs
      summary.videoCodecOut

theorem recordsTruth_iff {result : TranscodeResult} (hchoices : Choices transcoder job runs)
    (hcodec : result.videoCodecOut = job.profileSnapshot.video.codec) :
    RecordsTruth transcoder job result runs ↔
      Consistent transcoder.commandBuilder.resolver job.profileSnapshot.video := by
  unfold RecordsTruth
  rw [hcodec, tellsTruth_iff hchoices]
  apply and_iff_left_of_imp
  intro hconsistent h measures processing tape s summary s' hrun
  have hsummary := Machine.run_returns hrun
    (buildSummary_codec transcoder measures processing result)
  rw [hsummary, hcodec]
  exact (tellsTruth_iff hchoices).mpr hconsistent

end

/-- The record is true exactly when the profile's own encoder and codec agree. -/
theorem summary_truthful_iff (h : Host) (transcoder : FfmpegTranscoder) (job : TranscodeJob)
    (files : Path → Option Bytes) {tape : List Unit} {result : TranscodeResult} {s : Site}
    (hrun : h.machine.run (transcoder.transcode job) tape (.before files) =
      some (.ok result, s)) :
    RecordsTruth transcoder job result s.runs ↔
      Consistent transcoder.commandBuilder.resolver job.profileSnapshot.video := by
  have hchoices : Choices transcoder job s.runs :=
    Machine.run_obeys hrun (transcode_choices files) result rfl
  have hcodec := Machine.run_returns hrun (transcode_codec transcoder job)
  exact recordsTruth_iff hchoices hcodec

/-! A profile for H.264 that names an encoder for H.265. -/

/-- A host whose ffmpeg has software encoders only, and always succeeds. -/
def steady : Host where
  ffmpeg _ := ⟨some [0], .ok ⟨0, ""⟩⟩
  probeObj _ := .result ⟨none, none⟩
  version := .ok ⟨0, "ffmpeg version 7.0"⟩
  perfCounter _ := 0

def softwareOnly : FfmpegTranscoder where
  commandBuilder := {
    resolver := {
      lower := id
      availableEncoders := ["libx264", "libx265", "libsvtav1"]
      darwin := false
      intelGpuAvailable := false
      nvidiaGpuAvailable := false }
    floatText := fun _ => "30.0"
    threadCount := none }
  tempDir := none

def mislabelledJob : TranscodeJob :=
  { movieJob with
    profileSnapshot := {
      name := "Fast"
      format := "mp4"
      video := { codec := "h264", encoder := .libx265 } } }

theorem mislabelled_input : (inputOnly mislabelledJob.inputPath).isSome := input_there

theorem mislabelled_ending : ending steady softwareOnly mislabelledJob = .published [0] := by
  show (if (0 : Rat) - 0 < 0 then Ending.broken else .published [0]) = _
  simp

theorem mislabelled_result : ∃ result s,
    steady.machine.run (softwareOnly.transcode mislabelledJob) [] (.before inputOnly) =
      some (.ok result, s) := by
  have hsettled : steady.machine.Settled (softwareOnly.transcode mislabelledJob) :=
    host_settled _
  obtain ⟨r, s, hrun⟩ := hsettled.run [] (.before inputOnly)
  have hleaves : Ending.Leaves steady (softwareOnly.temporaryOutputPath mislabelledJob)
      mislabelledJob.outputPath inputOnly (.published [0]) r s :=
    mislabelled_ending ▸ run_leaves mislabelled_input hrun
  obtain ⟨⟨result, rfl⟩, -⟩ := hleaves
  exact ⟨result, s, hrun⟩

theorem summary_truthful_iff_mislabelled : ∃ result s,
    steady.machine.run (softwareOnly.transcode mislabelledJob) [] (.before inputOnly) =
      some (.ok result, s) ∧
    (RecordsTruth softwareOnly mislabelledJob result s.runs ↔
      Consistent softwareOnly.commandBuilder.resolver mislabelledJob.profileSnapshot.video) := by
  obtain ⟨result, s, hrun⟩ := mislabelled_result
  exact ⟨result, s, hrun, summary_truthful_iff steady softwareOnly mislabelledJob inputOnly hrun⟩

/-- The encoder is libx265, and the codec recorded is H.264. -/
theorem mislabelled_record : ¬ ∀ (h : Host) (transcoder : FfmpegTranscoder) (job : TranscodeJob)
    (files : Path → Option Bytes) (tape : List Unit) (result : TranscodeResult) (s : Site),
    job.profileSnapshot.validate = .ok () →
    h.machine.run (transcoder.transcode job) tape (.before files) = some (.ok result, s) →
    RecordsTruth transcoder job result s.runs := by
  intro htruth
  obtain ⟨result, s, hrun⟩ := mislabelled_result
  have hrecord := htruth steady softwareOnly mislabelledJob inputOnly [] result s (by rfl) hrun
  have hchoices : Choices softwareOnly mislabelledJob s.runs :=
    Machine.run_obeys hrun (transcode_choices inputOnly) result rfl
  have hcodec := Machine.run_returns hrun (transcode_codec softwareOnly mislabelledJob)
  have hconsistent := (recordsTruth_iff hchoices hcodec).mp hrecord
  exact absurd hconsistent (not_or.mpr ⟨by decide, by decide⟩)

end Vshift
