import Vshift.Transcoder
import Vshift.UseCases

/- What a transcoding leaves at the output path and at the temporary path.

   `ending` says from the outcomes alone how a transcoding ends: by which exit, and with which
   bytes written last. `transcode_ends` is the program against it, one lemma for each stage.
   Two exits leave something behind: a software encoder that is not there after a run that left
   a partial file, and a published file that ffprobe does not read. `transcode_atomic_iff` says
   when a transcoding is atomic. -/
namespace Vshift
open Command Program

/-! Commands on a host. -/

section
variable {h : Host} {s : Site}

@[simp] theorem obeys_host {c : HostCmd} {Q : Except Exn (HostReply c) → Site → Prop} :
    (host c).Obeys h.machine.protocol Q s ↔ Q (.ok (h.reply s c)) (h.effect s c) := by
  constructor
  · exact fun hq => hq.2 _ ⟨(), rfl⟩
  · refine fun hq => ⟨trivial, fun r ⟨_, hr⟩ => ?_⟩
    cases hr
    exact hq

@[simp] theorem obeys_host_bind {β : Type} {c : HostCmd} {f : HostReply c → HostProg β}
    {Q : Except Exn β → Site → Prop} : (host c >>= f).Obeys h.machine.protocol Q s ↔
      (f (h.reply s c)).Obeys h.machine.protocol Q (h.effect s c) := by
  rw [obeys_bind, obeys_host, andThen_ok]

/-- A host answers everything: every program on it runs to its end. -/
theorem host_settled {α : Type} (p : HostProg α) : h.machine.Settled p :=
  .of_total (fun _ _ _ => rfl) p

end

/-! How a transcoding ends. -/

/-- A `VShiftException` with nothing left, one with a partial file left, another exception, a
    `VShiftException` after the file was published, and a result. -/
inductive Ending where
  | rejected
  | leftover
  | broken
  | unverified (bytes : Bytes)
  | published (bytes : Bytes)

section
variable (h : Host) (transcoder : FfmpegTranscoder) (job : TranscodeJob)

/-- The ending once `bytes` are at the output path. -/
def publishEnding (bytes : Bytes) (wallClockSeconds : Rat) : Ending :=
  match h.probeObj job.outputPath with
  | .executeError _ => .unverified bytes
  | .empty => .unverified bytes
  | .raised _ => .broken
  | .result _ =>
    match h.version with
    | .error _ => .broken
    | .ok _ => if wallClockSeconds < 0 then .broken else .published bytes

/-- The ending once run number `n` was the last one. -/
def lastEnding (n : Nat) (completed : Completed) : Ending :=
  if completed.returncode ≠ 0 then .rejected
  else
    match (h.ffmpeg n).wrote with
    | none => .broken
    | some bytes => publishEnding h job bytes (h.perfCounter (n + 1) - h.perfCounter 0)

/-- The ending once the first run is over. -/
def firstEnding (videoEncoder : VideoEncoder) (first : Completed) : Ending :=
  let profile := job.profileSnapshot
  if first.returncode ≠ 0 ∧
      shouldRetryWithSoftware first.stderr videoEncoder profile.video.encoder then
    match transcoder.commandBuilder.softwareFallback profile.video.codec with
    | .error _ => if (h.ffmpeg 0).wrote.isSome then .leftover else .rejected
    | .ok _ =>
      match (h.ffmpeg 1).result with
      | .error _ => .broken
      | .ok second => lastEnding h job 1 second
  else lastEnding h job 0 first

/-- The ending of a transcoding whose input is there. -/
def ending : Ending :=
  match transcoder.commandBuilder.resolveEncoder job with
  | .error _ => .rejected
  | .ok videoEncoder =>
    if ¬ job.profileSnapshot.video.Encodable then .broken
    else
      match (h.ffmpeg 0).result with
      | .error _ => .broken
      | .ok first => firstEnding h transcoder job videoEncoder first

/-- What an ending leaves of the files there were. -/
def Ending.Leaves (temp output : Path) (files : Path → Option Bytes) :
    Ending → Except Exn TranscodeResult → Site → Prop
  | rejected, r, s => (∃ message, r = .error (.vshift message)) ∧
      s.files = Function.update files temp none
  | leftover, r, s => (∃ message, r = .error (.vshift message)) ∧ s.files temp ≠ none
  | broken, r, _ => ∃ name, r = .error (.other name)
  | unverified bytes, r, s => (∃ message, r = .error (.vshift message)) ∧
      s.files = Function.update (Function.update files temp none) output (some bytes)
  | published bytes, r, s => (∃ result, r = .ok result) ∧
      s.files = Function.update (Function.update files temp none) output (some bytes) ∧
      ∃ n completed, n < 2 ∧ s.runs.length = n + 1 ∧ (h.ffmpeg n).result = .ok completed ∧
        completed.returncode = 0 ∧ (h.ffmpeg n).wrote = some bytes

end

/-! The stages. -/

section
variable {h : Host} {transcoder : FfmpegTranscoder} {job : TranscodeJob} {s : Site}

@[simp] theorem obeys_removeFile {path : Path} {Q : Except Exn Unit → Site → Prop} :
    (FfmpegTranscoder.removeFile path).Obeys h.machine.protocol Q s ↔
      Q (.ok ()) { s with files := Function.update s.files path none } := by
  unfold FfmpegTranscoder.removeFile
  rw [obeys_host_bind]
  by_cases hfile : (s.files path).isSome
  · simp only [Host.reply, hfile, if_true]
    exact obeys_host
  · have hsame : Function.update s.files path none = s.files := by
      rw [← Option.not_isSome_iff_eq_none.mp hfile, Function.update_eq_self]
    simp only [Host.reply, hfile, if_neg Bool.false_ne_true, hsame]
    exact obeys_pure () Q

@[simp] theorem obeys_raising {α : Type} {x : Except String α} {Q : Except Exn α → Site → Prop} :
    (raising x).Obeys h.machine.protocol Q s ↔ Q (x.mapError .other) s := by
  cases x <;> rfl

theorem obeys_runFfmpeg {command : List String} {temp : Path}
    {Q : Except Exn Completed → Site → Prop} :
    (FfmpegTranscoder.runFfmpeg command temp).Obeys h.machine.protocol Q s ↔
      Q ((h.ffmpeg s.runs.length).result.mapError .other)
        { files := Function.update s.files temp (h.ffmpeg s.runs.length).wrote
          runs := s.runs ++ [command] } := by
  unfold FfmpegTranscoder.runFfmpeg
  rw [obeys_host_bind, obeys_raising]
  rfl

/-- Probing a file that is there ends as ffprobe does. -/
theorem exists_obeys_ffmpegProbe {path : Path} {bytes : Bytes} (hfile : s.files path = some bytes)
    (lower : String → String) : ∃ r : Except Exn MediaProbe,
      (∀ Q, (ffmpegProbe lower path).Obeys h.machine.protocol Q s ↔ Q r s) ∧
      match h.probeObj path with
      | .executeError _ => ∃ message, r = .error (.vshift message)
      | .empty => ∃ message, r = .error (.vshift message)
      | .raised name => r = .error (.other name)
      | .result _ => ∃ media, r = .ok media := by
  have hpresent : (!(s.files path).isSome) = false := by simp [hfile]
  have hstep : ∀ Q, (ffmpegProbe lower path).Obeys h.machine.protocol Q s ↔
      (readProbe lower path (h.probeObj path)).Obeys h.machine.protocol Q s := by
    intro Q
    unfold ffmpegProbe
    rw [obeys_host_bind]
    simp only [Host.reply, hpresent, if_neg Bool.false_ne_true]
    exact obeys_host_bind
  simp only [hstep]
  cases h.probeObj path with
  | executeError stderr => exact ⟨_, fun Q => Iff.rfl, _, rfl⟩
  | raised name => exact ⟨_, fun Q => Iff.rfl, rfl⟩
  | empty => exact ⟨_, fun Q => Iff.rfl, _, rfl⟩
  | result result =>
    unfold readProbe
    dsimp only
    split
    · exact ⟨_, fun Q => obeys_host_bind, _, rfl⟩
    · exact ⟨_, fun Q => Iff.rfl, _, rfl⟩

/-- The stage after the rename. -/
theorem publish_leaves {files : Path → Option Bytes} {temp : Path} {n : Nat} {bytes : Bytes}
    {completed : Completed} (hfiles : s.files = Function.update files temp (some bytes))
    (hn : n < 2) (hruns : s.runs.length = n + 1) (hresult : (h.ffmpeg n).result = .ok completed)
    (hcode : completed.returncode = 0) (hwrote : (h.ffmpeg n).wrote = some bytes)
    (wallClockSeconds : Rat) :
    (transcoder.publish job temp wallClockSeconds).Obeys h.machine.protocol
      ((publishEnding h job bytes wallClockSeconds).Leaves h temp job.outputPath files) s := by
  have htemp : s.files temp = some bytes := by rw [hfiles, Function.update_self]
  let published : Site := { s with
    files := Function.update (Function.update files temp none) job.outputPath (some bytes) }
  -- the rename moves the bytes and clears the temporary path at once
  have heffect : h.effect s (.replace temp job.outputPath) = published := by
    simp only [Host.effect, htemp, published]
    rw [hfiles, Function.update_idem]
  unfold FfmpegTranscoder.publish
  rw [obeys_host_bind, heffect]
  have hreply : h.reply s (.replace temp job.outputPath) = .ok () := by simp [Host.reply, htemp]
  rw [hreply, obeys_bind, obeys_raising]
  show Obeys _ (ffmpegProbe _ _ >>= _) _ _
  have hthere : published.files job.outputPath = some bytes := Function.update_self ..
  have hleaves : published.files =
      Function.update (Function.update files temp none) job.outputPath (some bytes) := rfl
  obtain ⟨r, hobeys, hprobe⟩ : ∃ r : Except Exn MediaProbe, _ :=
    exists_obeys_ffmpegProbe hthere transcoder.commandBuilder.resolver.lower
  rw [obeys_bind, hobeys]
  unfold publishEnding
  cases hreply : h.probeObj job.outputPath with
  | executeError stderr =>
    rw [hreply] at hprobe
    obtain ⟨message, rfl⟩ := hprobe
    exact ⟨⟨message, rfl⟩, hleaves⟩
  | raised name =>
    rw [hreply] at hprobe
    cases hprobe
    exact ⟨name, rfl⟩
  | empty =>
    rw [hreply] at hprobe
    obtain ⟨message, rfl⟩ := hprobe
    exact ⟨⟨message, rfl⟩, hleaves⟩
  | result result =>
    rw [hreply] at hprobe
    obtain ⟨media, rfl⟩ := hprobe
    unfold ffmpegVersion
    rw [andThen_ok, bind_assoc, obeys_host_bind, bind_assoc, obeys_bind, obeys_raising]
    simp only [Host.reply, Host.effect]
    cases hversion : h.version with
    | error name => exact ⟨name, rfl⟩
    | ok output =>
      show Obeys _ (if wallClockSeconds < 0 then _ else _) _ _
      split
      · exact ⟨_, rfl⟩
      · exact ⟨⟨_, rfl⟩, hleaves, n, completed, hn, hruns, hresult, hcode, hwrote⟩

/-- The stage after the last run. -/
theorem finish_leaves {files : Path → Option Bytes} {temp : Path} {n : Nat} {completed : Completed}
    (hfiles : s.files = Function.update files temp (h.ffmpeg n).wrote) (hn : n < 2)
    (hruns : s.runs.length = n + 1) (hresult : (h.ffmpeg n).result = .ok completed) :
    (transcoder.finish job temp (h.perfCounter 0) completed).Obeys h.machine.protocol
      ((lastEnding h job n completed).Leaves h temp job.outputPath files) s := by
  unfold FfmpegTranscoder.finish lastEnding
  rw [obeys_host_bind]
  simp only [Host.reply, Host.effect, hruns]
  split
  · rw [obeys_bind, obeys_removeFile, andThen_ok]
    refine ⟨⟨_, rfl⟩, ?_⟩
    rw [hfiles, Function.update_idem]
  · next hcode =>
    cases hwrote : (h.ffmpeg n).wrote with
    | none =>
      -- ffmpeg exits with 0 and no file: the rename raises
      have hreply : h.reply s (.replace temp job.outputPath) = .error "FileNotFoundError" := by
        simp [Host.reply, hfiles, hwrote]
      unfold FfmpegTranscoder.publish
      rw [obeys_host_bind, hreply]
      exact ⟨_, rfl⟩
    | some bytes =>
      rw [hwrote] at hfiles
      exact publish_leaves hfiles hn hruns hresult (not_not.mp hcode) hwrote _

/-- From the end of the first run. -/
theorem retry_leaves {files : Path → Option Bytes} {temp : Path} {videoEncoder : VideoEncoder}
    {first : Completed} (hfiles : s.files = Function.update files temp (h.ffmpeg 0).wrote)
    (hruns : s.runs.length = 1) (hresult : (h.ffmpeg 0).result = .ok first)
    (hencodable : job.profileSnapshot.video.Encodable) :
    (transcoder.retry job temp videoEncoder first >>=
      transcoder.finish job temp (h.perfCounter 0)).Obeys h.machine.protocol
      ((firstEnding h transcoder job videoEncoder first).Leaves h temp job.outputPath files) s := by
  unfold FfmpegTranscoder.retry firstEnding
  dsimp only
  split
  · cases hfallback : transcoder.commandBuilder.softwareFallback
        job.profileSnapshot.video.codec with
    | error e =>
      -- the encoder is looked up before the partial file is removed
      obtain ⟨message, rfl⟩ := softwareFallback_error hfallback
      show Ending.Leaves h temp job.outputPath files
        (if (h.ffmpeg 0).wrote.isSome then .leftover else .rejected) _ s
      split
      · next hwrote =>
        refine ⟨⟨message, rfl⟩, ?_⟩
        rw [hfiles, Function.update_self]
        exact Option.isSome_iff_ne_none.mp hwrote
      · next hwrote =>
        refine ⟨⟨message, rfl⟩, ?_⟩
        rw [hfiles, Option.not_isSome_iff_eq_none.mp hwrote]
    | ok fallback =>
      obtain ⟨command, hcommand⟩ : ∃ argv,
          transcoder.commandBuilder.build job temp (some fallback) = .ok argv :=
        build_ok hencodable temp fallback
      show Obeys _ ((FfmpegTranscoder.removeFile temp >>= fun _ =>
        Program.ofExcept (transcoder.commandBuilder.build job temp (some fallback)) >>=
          fun command => FfmpegTranscoder.runFfmpeg command temp) >>= _) _ _
      rw [obeys_bind, obeys_bind, obeys_removeFile, andThen_ok, hcommand, obeys_bind,
        obeys_ofExcept, andThen_ok, obeys_runFfmpeg]
      simp only [hruns]
      cases hsecond : (h.ffmpeg 1).result with
      | error name => exact ⟨name, rfl⟩
      | ok second =>
        -- the second run writes to a cleared path
        apply finish_leaves _ (by omega) _ hsecond
        · show Function.update (Function.update s.files temp none) temp _ = _
          rw [Function.update_idem, hfiles, Function.update_idem]
        · show (s.runs ++ [command]).length = 2
          rw [List.length_append, hruns]
          rfl
  · exact finish_leaves hfiles (by omega) hruns hresult

/-- A host before a transcoding. -/
def Site.before (files : Path → Option Bytes) : Site := ⟨files, []⟩

/-- A transcoding ends as its outcomes say and leaves what that ending leaves. -/
theorem transcode_ends {files : Path → Option Bytes} (hinput : (files job.inputPath).isSome) :
    (transcoder.transcode job).Obeys h.machine.protocol
      ((ending h transcoder job).Leaves h (transcoder.temporaryOutputPath job) job.outputPath files)
      (.before files) := by
  have hpresent : (!(files job.inputPath).isSome) = false := by simp [hinput]
  unfold FfmpegTranscoder.transcode ending
  dsimp only
  generalize transcoder.temporaryOutputPath job = temp
  rw [obeys_host_bind]
  simp only [Host.reply, Site.before, hpresent, if_neg Bool.false_ne_true]
  rw [obeys_host_bind, obeys_host_bind, obeys_bind, obeys_removeFile, andThen_ok]
  simp only [Host.effect]
  cases hresolve : transcoder.commandBuilder.resolveEncoder job with
  | error e =>
    obtain ⟨message, rfl⟩ := resolve_error hresolve
    -- no run was made, and the temporary path is cleared already
    exact ⟨⟨message, rfl⟩, rfl⟩
  | ok videoEncoder =>
    by_cases hencodable : job.profileSnapshot.video.Encodable
    · obtain ⟨command, hcommand⟩ : ∃ argv,
          transcoder.commandBuilder.build job temp (some videoEncoder) = .ok argv :=
        build_ok hencodable temp videoEncoder
      rw [obeys_bind, obeys_ofExcept, andThen_ok, hcommand, obeys_bind, obeys_ofExcept, andThen_ok,
        obeys_host_bind, obeys_bind, obeys_runFfmpeg]
      simp only [hencodable, not_true, if_false]
      cases hfirst : (h.ffmpeg 0).result with
      | error name =>
        simp only [Host.effect, List.length_nil, hfirst]
        exact ⟨name, rfl⟩
      | ok first =>
        simp only [Host.effect, List.length_nil, hfirst]
        exact retry_leaves (Function.update_idem ..) rfl hfirst hencodable
    · obtain ⟨name, hname⟩ : ∃ name,
          transcoder.commandBuilder.build job temp (some videoEncoder) = .error (.other name) :=
        build_error hencodable temp videoEncoder
      rw [obeys_bind, obeys_ofExcept, andThen_ok, hname, obeys_bind, obeys_ofExcept]
      simp only [hencodable, not_false_eq_true, if_true]
      exact ⟨name, rfl⟩

end

/-! Atomic publication. -/

/-- After an exception of the program the output is what it was and nothing is at the temporary
    path; after a result the output is what the last of at most two runs wrote, which exited with
    0, and nothing is at the temporary path. -/
def Atomic (h : Host) (temp output : Path) (files : Path → Option Bytes)
    (r : Except Exn TranscodeResult) (s : Site) : Prop :=
  match r with
  | .error (.vshift _) => s.files output = files output ∧ s.files temp = none
  | .error (.other _) => True
  | .ok _ =>
    (∃ n completed bytes, n < 2 ∧ s.runs.length = n + 1 ∧ (h.ffmpeg n).result = .ok completed ∧
      completed.returncode = 0 ∧ (h.ffmpeg n).wrote = some bytes ∧ s.files output = some bytes) ∧
    s.files temp = none

/-- The endings that are atomic, for what was at the output path before. The temporary path can be
    the output path only if the output is named after the job's id, with two `.partial`. -/
def Ending.Harmless (temp output : Path) (prior : Option Bytes) : Ending → Prop
  | rejected => temp = output → prior = none
  | leftover => False
  | broken => True
  | unverified bytes => prior = some bytes ∧ temp ≠ output
  | published _ => temp ≠ output

theorem update_update_ne {files : Path → Option Bytes} {temp output : Path} {bytes : Bytes} :
    Function.update (Function.update files temp none) output (some bytes) temp = none ↔
      temp ≠ output := by
  by_cases hsame : temp = output
  · rw [hsame, Function.update_self]
    simp
  · rw [Function.update_of_ne hsame, Function.update_self]
    simp [hsame]

theorem atomic_iff_harmless {h : Host} {temp output : Path} {files : Path → Option Bytes}
    {ending : Ending} {r : Except Exn TranscodeResult} {s : Site}
    (hleaves : ending.Leaves h temp output files r s) :
    Atomic h temp output files r s ↔ ending.Harmless temp output (files output) := by
  cases ending with
  | rejected =>
    obtain ⟨⟨message, rfl⟩, hfiles⟩ := hleaves
    simp only [Atomic, Ending.Harmless, hfiles, Function.update_self, and_true]
    -- clearing the temporary path is harmless unless it is the output path
    by_cases hsame : output = temp
    · simp [hsame, eq_comm]
    · simp [Function.update_of_ne hsame, Ne.symm hsame]
  | leftover =>
    obtain ⟨⟨message, rfl⟩, hpartial⟩ := hleaves
    exact iff_of_false (fun hatomic => hpartial hatomic.2) id
  | broken =>
    obtain ⟨name, rfl⟩ := hleaves
    exact Iff.rfl
  | unverified bytes =>
    obtain ⟨⟨message, rfl⟩, hfiles⟩ := hleaves
    simp only [Atomic, Ending.Harmless, hfiles, Function.update_self, update_update_ne]
    rw [eq_comm]
  | published bytes =>
    obtain ⟨⟨result, rfl⟩, hfiles, n, completed, hn, hruns, hresult, hcode, hwrote⟩ := hleaves
    simp only [Atomic, Ending.Harmless, hfiles, update_update_ne]
    apply and_iff_right
    exact ⟨n, completed, bytes, hn, hruns, hresult, hcode, hwrote, Function.update_self ..⟩

theorem run_leaves {h : Host} {transcoder : FfmpegTranscoder} {job : TranscodeJob}
    {files : Path → Option Bytes} (hinput : (files job.inputPath).isSome) {tape : List Unit}
    {r : Except Exn TranscodeResult} {s : Site}
    (hrun : h.machine.run (transcoder.transcode job) tape (.before files) = some (r, s)) :
    (ending h transcoder job).Leaves h (transcoder.temporaryOutputPath job) job.outputPath files
      r s :=
  Machine.run_obeys hrun (transcode_ends hinput)

/-- A transcoding is atomic exactly when its ending is. -/
theorem transcode_atomic_iff (h : Host) (transcoder : FfmpegTranscoder) (job : TranscodeJob)
    {files : Path → Option Bytes} (hinput : (files job.inputPath).isSome) :
    (∀ tape r s, h.machine.run (transcoder.transcode job) tape (.before files) = some (r, s) →
      Atomic h (transcoder.temporaryOutputPath job) job.outputPath files r s) ↔
    (ending h transcoder job).Harmless (transcoder.temporaryOutputPath job) job.outputPath
      (files job.outputPath) := by
  constructor
  · intro hatomic
    have hsettled : h.machine.Settled (transcoder.transcode job) := host_settled _
    obtain ⟨r, s, hrun⟩ := hsettled.run [] (.before files)
    exact (atomic_iff_harmless (run_leaves hinput hrun)).mp (hatomic [] r s hrun)
  · exact fun hharmless tape r s hrun =>
      (atomic_iff_harmless (run_leaves hinput hrun)).mpr hharmless

/-! A worker with an NVIDIA device, whose ffmpeg has no software encoder. -/

def nvencOnly : FfmpegTranscoder where
  commandBuilder := {
    resolver := {
      lower := id
      availableEncoders := ["h264_nvenc"]
      darwin := false
      intelGpuAvailable := false
      nvidiaGpuAvailable := true }
    floatText := fun _ => "30.0"
    threadCount := some 2 }
  tempDir := some (.parse "/tmp/temp")

/-- The driver cannot be loaded after ffmpeg has opened its output. -/
def brokenDriver : Host where
  ffmpeg _ := ⟨some [0], .ok ⟨1, "Cannot load libcuda.so.1"⟩⟩
  probeObj _ := .empty
  version := .ok ⟨0, "ffmpeg version 7.0"⟩
  perfCounter n := n

def movieJob : TranscodeJob := newJob smallContext (mp4File "/tmp/input/a.mp4") defaultMatch 1 0

/-- Only the input is there. -/
def inputOnly (path : Path) : Option Bytes := if path = movieJob.inputPath then some [1] else none

theorem input_there : (inputOnly movieJob.inputPath).isSome := by
  rw [inputOnly, if_pos rfl]
  rfl

theorem brokenDriver_ending : ending brokenDriver nvencOnly movieJob = .leftover := by
  rfl

theorem brokenDriver_atomic_iff :
    (∀ tape r s, brokenDriver.machine.run (nvencOnly.transcode movieJob) tape (.before inputOnly) =
        some (r, s) → Atomic brokenDriver (nvencOnly.temporaryOutputPath movieJob)
          movieJob.outputPath inputOnly r s) ↔
    (ending brokenDriver nvencOnly movieJob).Harmless (nvencOnly.temporaryOutputPath movieJob)
      movieJob.outputPath (inputOnly movieJob.outputPath) :=
  transcode_atomic_iff brokenDriver nvencOnly movieJob input_there

/-- The partial file of the first run is left at the temporary path. -/
theorem partial_file_left : ¬ ∀ (h : Host) (transcoder : FfmpegTranscoder) (job : TranscodeJob)
    (files : Path → Option Bytes), (files job.inputPath).isSome → ∀ tape r s,
      h.machine.run (transcoder.transcode job) tape (.before files) = some (r, s) →
      Atomic h (transcoder.temporaryOutputPath job) job.outputPath files r s := by
  intro hatomic
  have hsettled : brokenDriver.machine.Settled (nvencOnly.transcode movieJob) := host_settled _
  obtain ⟨r, s, hrun⟩ := hsettled.run [] (.before inputOnly)
  have hleaves : Ending.Leaves brokenDriver (nvencOnly.temporaryOutputPath movieJob)
      movieJob.outputPath inputOnly .leftover r s :=
    brokenDriver_ending ▸ run_leaves input_there hrun
  have hharmless := (atomic_iff_harmless hleaves).mp
    (hatomic brokenDriver nvencOnly movieJob inputOnly input_there [] r s hrun)
  exact hharmless

end Vshift
