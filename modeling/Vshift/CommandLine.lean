import Vshift.Options
import Vshift.Ffmpeg

/- The shape of the ffmpeg command line.

   `FfmpegCommandBuilder.build` puts its arguments together from some twenty conditional
   parts. Each part follows a template of flags, whatever the texts of the profile, and
   so does the whole: four leading tokens, options, and the output path
   (`build_commandLine`). The flags of the tracks are told apart by their index, which
   is written in decimal (`trackFlag_inj`). -/
namespace Vshift
open Options

def leadingFlags : List String := ["-threads", "-vaapi_device"]

def qualityFlags : List String := ["-b:v", "-crf", "-rc:v", "-qp:v", "-global_quality", "-q:v"]

def tuningFlags : List String := ["-preset", "-tune", "-r"]

def videoFlags : List String :=
  ["-c:v"] ++ qualityFlags ++ tuningFlags ++ ["-profile:v"] ++ ["-level:v"] ++ ["-pix_fmt"]

def trackStems : List String := ["-c:a:", "-b:a:", "-ar:a:"]

def trackFlags (index : Nat) : List String := trackStems.map (· ++ toString index)

def audioFlags (tracks : Nat) : List String :=
  ["-c:a", "-b:a"] ++ (List.range tracks).flatMap trackFlags

/-- The flags that do not depend on the number of audio tracks. -/
def fixedFlags : List String :=
  leadingFlags ++ ["-i", "-map"] ++ videoFlags ++ ["-vf", "-c:a", "-b:a", "-movflags", "-f"]

/-- The tokens of a command line that reads `input`: what is before it, and what is after. -/
structure CommandLine (input : Path) (tracks : Nat) (before after : List (String × String)) :
    Prop where
  leading : ∀ flag ∈ flags before, flag ∈ leadingFlags
  vocabulary : ∀ flag ∈ flags (before ++ ("-i", input.str) :: after),
    flag ∈ fixedFlags ∨ ∃ index < tracks, flag ∈ trackFlags index
  once : ∀ flag ≠ "-map", (flags (before ++ ("-i", input.str) :: after)).count flag ≤ 1

/-! The flags of the tracks. -/

theorem toString_inj {i j : Nat} (h : toString i = toString j) : i = j := by
  have hdigits : Nat.toDigits 10 i = Nat.toDigits 10 j := by
    rw [← Nat.toList_repr, ← Nat.toList_repr]
    exact congrArg String.toList h
  calc
    i = Nat.ofDigitChars 10 (Nat.toDigits 10 i) 0 := Nat.ofDigitChars_ten_toDigits.symm
    _ = Nat.ofDigitChars 10 (Nat.toDigits 10 j) 0 := by rw [hdigits]
    _ = j := Nat.ofDigitChars_ten_toDigits

/-- Five characters tell the stems from each other and from every other flag. -/
theorem take_trackFlag {stem : String} (h : stem ∈ trackStems) (index : Nat) :
    (stem ++ toString index).toList.take 5 = stem.toList.take 5 := by
  have hlong : ∀ stem ∈ trackStems, 5 ≤ stem.toList.length := by decide
  rw [String.toList_append, List.take_append_of_le_length (hlong stem h)]

theorem trackFlag_inj {stem stem' : String} (h : stem ∈ trackStems) (h' : stem' ∈ trackStems)
    {i j : Nat} (heq : stem ++ toString i = stem' ++ toString j) : stem = stem' ∧ i = j := by
  have htell : ∀ stem ∈ trackStems, ∀ stem' ∈ trackStems,
      stem.toList.take 5 = stem'.toList.take 5 → stem = stem' := by decide
  have hstem : stem = stem' := by
    apply htell stem h stem' h'
    rw [← take_trackFlag h i, ← take_trackFlag h' j, heq]
  subst hstem
  exact ⟨rfl, toString_inj ((String.append_right_inj stem).mp heq)⟩

theorem trackFlags_nodup (tracks : Nat) : ((List.range tracks).flatMap trackFlags).Nodup := by
  rw [List.nodup_flatMap]
  constructor
  · intro i _
    apply List.Nodup.map_on
    · intro stem hstem stem' hstem' heq
      exact (trackFlag_inj hstem hstem' heq).1
    · decide
  · apply List.nodup_range.imp
    intro i j hne flag hi hj
    obtain ⟨stem, hstem, rfl⟩ := List.mem_map.mp hi
    obtain ⟨stem', hstem', heq⟩ := List.mem_map.mp hj
    exact hne (trackFlag_inj hstem hstem' heq.symm).2

theorem fixedFlags_disjoint {flag : String} (h : flag ∈ fixedFlags) (index : Nat) :
    flag ∉ trackFlags index := by
  have htell : ∀ flag ∈ fixedFlags, ∀ stem ∈ trackStems,
      flag.toList.take 5 ≠ stem.toList.take 5 := by decide
  intro htrack
  obtain ⟨stem, hstem, rfl⟩ := List.mem_map.mp htrack
  exact htell _ h stem hstem (take_trackFlag hstem index)

/-! Each part of the command line follows its template. -/

theorem threadArgs_follows (builder : FfmpegCommandBuilder) :
    Follows ["-threads"] builder.threadArgs := by
  apply Follows.elim
  intro count
  exact .ite (.pair _ _)

theorem videoQualityArgs_follows {encoder : VideoEncoder} {video : VideoProfile}
    {args : List String} (h : videoQualityArgs encoder video = .ok args) :
    Follows qualityFlags args := by
  unfold videoQualityArgs at h
  split at h
  · cases h
    exact .one (by decide) _
  · cases hquality : video.quality.truncate with
    | error e =>
      rw [hquality] at h
      cases h
    | ok quality =>
      rw [hquality] at h
      cases encoder <;> cases h <;> first
        | exact .one (by decide) _
        | exact ((Follows.pair "-rc:v" _).append (.pair "-qp:v" _)).mono (by decide)

theorem videoEncoderTuningArgs_follows (floatText : PyFloat → String) (encoder : VideoEncoder)
    (video : VideoProfile) :
    Follows tuningFlags (videoEncoderTuningArgs floatText encoder video) := by
  have hpreset : Follows ["-preset", "-tune"] (presetArgs video encoder) := by
    cases encoder with
    | libx264 => exact (Follows.pair "-preset" _).append (.ite (.pair "-tune" _))
    | libx265 | h264Nvenc | hevcNvenc | av1Nvenc => exact .one (by decide) _
    | _ => exact .nil _
  apply hpreset.append
  split
  · exact .pair "-r" _
  · exact .nil _

theorem unlessAuto_follows (flag value : String) : Follows [flag] (unlessAuto flag value) :=
  .ite (.pair flag value)

theorem trackArgs_follows (track : AudioTrack) (index : Nat) :
    Follows (trackFlags index) (trackArgs track index) := by
  unfold trackArgs
  split
  · exact .one List.mem_cons_self _
  · exact .append (.append (.pair _ _) (.pair _ _)) (.elim fun rate => .pair _ _)

/-- The flags of the tracks, in the order of the indices. -/
theorem flatMap_trackFlags (tracks : List AudioTrack) :
    tracks.zipIdx.flatMap (fun p => trackFlags p.2) =
      (List.range tracks.length).flatMap trackFlags := by
  rw [← List.flatMap_map, List.zipIdx_map_snd, List.range_eq_range']

theorem audioArgs_follows (profile : VshiftProfile) :
    Follows (audioFlags profile.audioTracks.length) (audioArgs profile) := by
  unfold audioArgs
  split
  · exact .nil _
  · split
    · exact ((Follows.pair "-c:a" _).append (.pair "-b:a" _)).append (.nil _)
    · have htracks := Follows.flatMap (l := profile.audioTracks.zipIdx)
        fun p _ => trackArgs_follows p.1 p.2
      rw [flatMap_trackFlags] at htracks
      exact (Follows.nil ["-c:a", "-b:a"]).append htracks

theorem audioMaps_follows (profile : VshiftProfile) :
    ∃ template, Follows template (audioMaps profile) ∧ ∀ flag ∈ template, flag = "-map" := by
  unfold audioMaps
  split
  · exact ⟨[], .nil _, List.forall_mem_nil _⟩
  · split
    · exact ⟨["-map"], .pair _ _, fun flag h => List.mem_singleton.mp h⟩
    · refine ⟨profile.audioTracks.zipIdx.flatMap fun _ => ["-map"], ?_, ?_⟩
      · exact .flatMap fun p _ => .pair _ _
      · intro flag h
        obtain ⟨p, -, hflag⟩ := List.mem_flatMap.mp h
        exact List.mem_singleton.mp hflag

/-- What `mapProfile` puts together. -/
theorem mapProfile_follows {lower : String → String} {floatText : PyFloat → String}
    {profile : VshiftProfile} {encoder : VideoEncoder} {mapped : MappedFfmpegCommand}
    (h : mapProfile lower floatText profile encoder = .ok mapped) :
    (∃ template, Follows template mapped.maps ∧ ∀ flag ∈ template, flag = "-map") ∧
    Follows videoFlags mapped.videoArgs ∧ Follows ["-vaapi_device"] mapped.inputArgs ∧
    Follows (audioFlags profile.audioTracks.length) mapped.audioArgs ∧
    Follows ["-movflags"] mapped.outputArgs := by
  obtain ⟨qualityArgs, hquality, h⟩ := except_bind_ok h
  cases h
  refine ⟨?_, ?_, .ite (.pair _ _), audioArgs_follows profile, .ite (.pair _ _)⟩
  · obtain ⟨template, hfollows, hmap⟩ := audioMaps_follows profile
    refine ⟨["-map"] ++ template, (Follows.pair _ _).append hfollows, ?_⟩
    exact List.forall_mem_cons.mpr ⟨rfl, hmap⟩
  · exact (((((Follows.pair _ _).append (videoQualityArgs_follows hquality)).append
      (videoEncoderTuningArgs_follows floatText encoder profile.video)).append
      (unlessAuto_follows _ _)).append (unlessAuto_follows _ _)).append (.pair _ _)

/-! The whole command line. -/

/-- The flags after the input, those of the streams mapped apart. -/
def trailingFlags (tracks : Nat) : List String :=
  videoFlags ++ ["-vf"] ++ audioFlags tracks ++ ["-movflags"] ++ ["-f"]

/-- No flag but `-map` has two places in the template of a command line. -/
theorem count_template {maps : List String} (hmaps : ∀ flag ∈ maps, flag = "-map") (tracks : Nat)
    {flag : String} (hne : flag ≠ "-map") :
    (leadingFlags ++ "-i" :: (maps ++ trailingFlags tracks)).count flag ≤ 1 := by
  have hmap : maps.count flag = 0 := by
    apply List.count_eq_zero.mpr
    exact fun hmem => hne (hmaps flag hmem)
  have hfixed : fixedFlags.count flag ≤ 1 := List.nodup_iff_count_le_one.mp (by decide) flag
  have htracks := List.nodup_iff_count_le_one.mp (trackFlags_nodup tracks) flag
  -- a flag is a fixed one or one of a track, never both
  have hapart : fixedFlags.count flag = 0 ∨
      ((List.range tracks).flatMap trackFlags).count flag = 0 := by
    by_cases h : flag ∈ fixedFlags
    · right
      apply List.count_eq_zero.mpr
      intro hmem
      obtain ⟨index, -, htrack⟩ := List.mem_flatMap.mp hmem
      exact fixedFlags_disjoint h index htrack
    · exact .inl (List.count_eq_zero.mpr h)
  have hsum : (leadingFlags ++ "-i" :: (maps ++ trailingFlags tracks)).count flag +
      ["-map"].count flag = maps.count flag + fixedFlags.count flag +
        ((List.range tracks).flatMap trackFlags).count flag := by
    simp only [trailingFlags, audioFlags, fixedFlags, List.count_append, List.count_cons,
      List.count_nil]
    omega
  omega

theorem mem_template {maps : List String} (hmaps : ∀ flag ∈ maps, flag = "-map") {tracks : Nat}
    {flag : String} (h : flag ∈ leadingFlags ++ "-i" :: (maps ++ trailingFlags tracks)) :
    flag ∈ fixedFlags ∨ ∃ index < tracks, flag ∈ trackFlags index := by
  by_cases hmap : flag = "-map"
  · exact .inl (hmap ▸ by decide)
  · have hnot : flag ∉ maps := fun hmem => hmap (hmaps flag hmem)
    by_cases htrack : flag ∈ (List.range tracks).flatMap trackFlags
    · obtain ⟨index, hindex, hflag⟩ := List.mem_flatMap.mp htrack
      exact .inr ⟨index, List.mem_range.mp hindex, hflag⟩
    · left
      simp only [trailingFlags, audioFlags, List.mem_append, List.mem_cons] at h
      simp only [fixedFlags, List.mem_append, List.mem_cons]
      tauto

section
variable {builder : FfmpegCommandBuilder} {job : TranscodeJob} {outputPath : Path}
  {encoder : Option VideoEncoder} {argv : List String}

/-- The encoder a command line is for, and the parts it is put together from. -/
theorem build_parts (h : builder.build job outputPath encoder = .ok argv) :
    ∃ resolved mapped, encoder.elim (builder.resolveEncoder job) .ok = .ok resolved ∧
      mapProfile builder.resolver.lower builder.floatText job.profileSnapshot resolved =
        .ok mapped ∧
      argv = [builder.ffmpeg, "-hide_banner", "-nostdin", "-y"] ++ builder.threadArgs ++
        mapped.inputArgs ++ ["-i", job.inputPath.str] ++ mapped.maps ++ mapped.videoArgs ++
        mapped.videoFilter.elim [] (fun videoFilter => ["-vf", videoFilter]) ++
        mapped.audioArgs ++ mapped.outputArgs ++
        ["-f", ffmpegMuxerFormat builder.resolver.lower job.profileSnapshot.format,
          outputPath.str] := by
  unfold FfmpegCommandBuilder.build at h
  cases encoder with
  | some encoder =>
    obtain ⟨resolved, hresolved, hrest⟩ := except_bind_ok h
    obtain ⟨mapped, hmapped, hargv⟩ := except_bind_ok hrest
    cases hresolved
    cases hargv
    exact ⟨_, mapped, rfl, hmapped, rfl⟩
  | none =>
    obtain ⟨resolved, hresolved, hrest⟩ := except_bind_ok h
    obtain ⟨mapped, hmapped, hargv⟩ := except_bind_ok hrest
    cases hargv
    exact ⟨resolved, mapped, hresolved, hmapped, rfl⟩

/-- Four leading tokens, options of which one names the input, and the output path. -/
theorem build_commandLine (h : builder.build job outputPath encoder = .ok argv) :
    ∃ before after, argv = [builder.ffmpeg, "-hide_banner", "-nostdin", "-y"] ++
        render (before ++ ("-i", job.inputPath.str) :: after) ++ [outputPath.str] ∧
      CommandLine job.inputPath job.profileSnapshot.audioTracks.length before after := by
  obtain ⟨_, mapped, -, hmapped, rfl⟩ := build_parts h
  obtain ⟨⟨maps, hmaps, honly⟩, hvideo, hinput, haudio, houtput⟩ := mapProfile_follows hmapped
  obtain ⟨before, hbefore, hleading⟩ := (threadArgs_follows builder).append hinput
  have hfilter : Follows ["-vf"] (mapped.videoFilter.elim [] fun videoFilter =>
      ["-vf", videoFilter]) := .elim fun _ => .pair _ _
  obtain ⟨after, hafter, htrailing⟩ := hmaps.append ((((hvideo.append hfilter).append
    haudio).append houtput).append
    (.pair "-f" (ffmpegMuxerFormat builder.resolver.lower job.profileSnapshot.format)))
  have hflags : (flags (before ++ ("-i", job.inputPath.str) :: after)).Sublist
      (leadingFlags ++ "-i" :: (maps ++ trailingFlags job.profileSnapshot.audioTracks.length)) := by
    rw [flags, List.map_append, List.map_cons]
    exact hleading.append (htrailing.cons_cons "-i")
  refine ⟨before, after, ?_, ?_⟩
  · calc
      _ = [builder.ffmpeg, "-hide_banner", "-nostdin", "-y"] ++
            (builder.threadArgs ++ mapped.inputArgs) ++ ["-i", job.inputPath.str] ++
            (mapped.maps ++ (mapped.videoArgs ++
              mapped.videoFilter.elim [] (fun videoFilter => ["-vf", videoFilter]) ++
              mapped.audioArgs ++ mapped.outputArgs ++
              ["-f", ffmpegMuxerFormat builder.resolver.lower job.profileSnapshot.format])) ++
            [outputPath.str] := by simp only [List.append_assoc, List.cons_append, List.nil_append]
      _ = _ := by
        rw [hbefore, hafter, render_append]
        simp only [render, List.flatMap_cons, List.append_assoc, List.cons_append, List.nil_append]
  · constructor
    · exact fun flag hflag => hleading.subset hflag
    · exact fun flag hflag => mem_template honly (hflags.subset hflag)
    · intro flag hne
      exact (hflags.count_le flag).trans (count_template honly _ hne)

end

/-! A profile whose texts look like options. -/

def plainBuilder : FfmpegCommandBuilder where
  resolver := {
    lower := id
    availableEncoders := ["libx264"]
    darwin := false
    intelGpuAvailable := false
    nvidiaGpuAvailable := false }
  floatText := fun _ => "30.0"
  threadCount := some 2

def optionTexts : TranscodeJob where
  id := 1
  inputPath := .parse "-i"
  outputPath := .parse "/tmp/output/a.mp4"
  profileName := "-y"
  profileSnapshot := {
    name := "-y"
    format := "-f"
    video := { codec := "-c:v", encoderPreset := "-i", encoderTune := "-map" }
    audioTracks := [{ codec := "-c:a:0", bitRate := 160 }, { codec := "-ar:a:0", bitRate := 160 }] }
  state := .processing
  createdAt := 0
  matchRuleId := "-i"

theorem build_commandLine_optionTexts : ∃ argv,
    plainBuilder.build optionTexts (.parse "/tmp/temp/a.partial") (some .libx264) = .ok argv ∧
    ∃ before after, argv = ["ffmpeg", "-hide_banner", "-nostdin", "-y"] ++
        render (before ++ ("-i", "-i") :: after) ++ ["/tmp/temp/a.partial"] ∧
      CommandLine (.parse "-i") 2 before after := by
  have hbuild : ∃ argv, plainBuilder.build optionTexts (.parse "/tmp/temp/a.partial")
      (some .libx264) = .ok argv := ⟨_, rfl⟩
  obtain ⟨argv, hargv⟩ := hbuild
  exact ⟨argv, hargv, build_commandLine hargv⟩

end Vshift
