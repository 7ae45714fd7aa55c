import Vshift.CommandLine

/- What an ffmpeg command line asks for.

   The mapper gives each setting one value of the profile, or none (`wanted`), and names the
   streams to encode. Not all that a profile states gets there: a quality is cut to an integer, a
   tune is for libx264 only, and a mixdown for nobody.

   A command line is read by its options (`Options.pairs`). Whatever texts the profile holds,
   also texts that look like flags: under the flag of each setting stands the value the mapper
   gives it, no other options stand there, and the streams are those of the profile's tracks
   (`build_delivers`). -/
namespace Vshift
open Options

inductive TrackSetting where
  | codec | bitrate | sampleRate
  deriving DecidableEq

def TrackSetting.stem : TrackSetting → String
  | codec => "-c:a:"
  | bitrate => "-b:a:"
  | sampleRate => "-ar:a:"

inductive Setting where
  | threads | vaapiDevice | input
  | videoCodec | bitrate | crf | rateControl | qp | globalQuality | qualityScale
  | preset | tune | frameRate | codecProfile | codecLevel | pixelFormat | videoFilter
  | audioCodec | audioBitrate
  | track (setting : TrackSetting) (index : Nat)
  | movflags | muxer
  deriving DecidableEq

namespace Setting

def flag : Setting → String
  | threads => "-threads"
  | vaapiDevice => "-vaapi_device"
  | input => "-i"
  | videoCodec => "-c:v"
  | bitrate => "-b:v"
  | crf => "-crf"
  | rateControl => "-rc:v"
  | qp => "-qp:v"
  | globalQuality => "-global_quality"
  | qualityScale => "-q:v"
  | preset => "-preset"
  | tune => "-tune"
  | frameRate => "-r"
  | codecProfile => "-profile:v"
  | codecLevel => "-level:v"
  | pixelFormat => "-pix_fmt"
  | videoFilter => "-vf"
  | audioCodec => "-c:a"
  | audioBitrate => "-b:a"
  | track setting index => setting.stem ++ toString index
  | movflags => "-movflags"
  | muxer => "-f"

/-- The settings before the streams are named. -/
def leading : List Setting := [threads, vaapiDevice, input]

def quality : List Setting := [bitrate, crf, rateControl, qp, globalQuality, qualityScale]

def tuning : List Setting := [preset, tune, frameRate]

def video : List Setting :=
  [videoCodec] ++ quality ++ tuning ++ [codecProfile] ++ [codecLevel] ++ [pixelFormat]

def ofTrack (index : Nat) : List Setting :=
  [track .codec index, track .bitrate index, track .sampleRate index]

def audio (tracks : Nat) : List Setting :=
  [audioCodec, audioBitrate] ++ (List.range tracks).flatMap ofTrack

/-- The settings after the streams. -/
def trailing (tracks : Nat) : List Setting :=
  video ++ [videoFilter] ++ audio tracks ++ [movflags] ++ [muxer]

/-- The settings that are no track's. -/
def fixed : List Setting :=
  leading ++ video ++ [videoFilter, audioCodec, audioBitrate, movflags, muxer]

theorem fixed_or_track (s : Setting) : s ∈ fixed ∨ ∃ setting index, s = track setting index := by
  cases s with
  | track setting index => exact .inr ⟨setting, index, rfl⟩
  | _ => exact .inl (by decide)

theorem flag_fixed : ∀ s ∈ fixed, s.flag ∈ fixedFlags := by decide

theorem stem_mem (setting : TrackSetting) : setting.stem ∈ trackStems := by
  cases setting <;> decide

theorem flag_track (setting : TrackSetting) (index : Nat) :
    (track setting index).flag ∈ trackFlags index :=
  List.mem_map_of_mem (stem_mem setting)

theorem flag_injective : Function.Injective flag := by
  intro s s' h
  have hapart : ∀ s ∈ fixed, ∀ setting index, s.flag ≠ (track setting index).flag :=
    fun s hs setting index heq =>
      fixedFlags_disjoint (flag_fixed s hs) index (heq ▸ flag_track setting index)
  rcases fixed_or_track s with hs | ⟨setting, index, rfl⟩
  · rcases fixed_or_track s' with hs' | ⟨setting, index, rfl⟩
    · have hnodup : (fixed.map flag).Nodup := by decide
      exact List.inj_on_of_nodup_map hnodup hs hs' h
    · exact absurd h (hapart s hs setting index)
  · rcases fixed_or_track s' with hs' | ⟨setting', index', rfl⟩
    · exact absurd h.symm (hapart s' hs' setting index)
    · obtain ⟨hstem, hindex⟩ := trackFlag_inj (stem_mem setting) (stem_mem setting') h
      have hsetting : setting = setting' := by
        revert hstem
        cases setting <;> cases setting' <;> decide
      rw [hsetting, hindex]

theorem flag_ne_map (s : Setting) : s.flag ≠ "-map" := by
  rcases fixed_or_track s with hs | ⟨setting, index, rfl⟩
  · have hall : ∀ s ∈ fixed, s.flag ≠ "-map" := by decide
    exact hall s hs
  · intro heq
    have hmap : "-map" ∈ fixedFlags := by decide
    exact fixedFlags_disjoint hmap index (heq ▸ flag_track setting index)

end Setting

/-! What the mapper makes of a profile, setting by setting. -/

/-- The integer part of the quality, where it is a number. -/
def VideoProfile.qualityText (video : VideoProfile) : String :=
  match video.quality.truncate with
  | .ok n => toString n
  | .error _ => ""

/-- The setting that states the quality of a constant-quality profile. -/
def qualitySetting : VideoEncoder → Setting
  | .h264Nvenc | .hevcNvenc | .av1Nvenc | .h264Vaapi | .hevcVaapi => .qp
  | .h264Qsv | .hevcQsv => .globalQuality
  | .h264Videotoolbox | .hevcVideotoolbox => .qualityScale
  | _ => .crf

def isNvenc (encoder : VideoEncoder) : Bool := encoder ∈ [.h264Nvenc, .hevcNvenc, .av1Nvenc]

def isVaapi (encoder : VideoEncoder) : Bool := encoder ∈ [.h264Vaapi, .hevcVaapi]

/-- A value unless it is left to ffmpeg. -/
def statedText (value : String) : Option String := if value ∉ ["", "auto"] then some value else none

def TrackSetting.wanted (track : AudioTrack) : TrackSetting → Option String
  | codec => some (if track.copyTrack then "copy" else track.codec)
  | bitrate => if track.copyTrack then none else some (toString track.bitRate ++ "k")
  | sampleRate => if track.copyTrack then none else track.sampleRate.map toString

/-- The value the mapper gives a setting. -/
def Setting.wanted (builder : FfmpegCommandBuilder) (job : TranscodeJob) (encoder : VideoEncoder) :
    Setting → Option String :=
  let profile := job.profileSnapshot
  let video := profile.video
  let withAudio := profile.audioSelectionMode ≠ .none
  let quality (setting : Setting) : Option String :=
    if video.qualityMode ≠ .averageBitrate ∧ qualitySetting encoder = setting then
      some video.qualityText
    else none
  fun
  | threads => (builder.threadCount.filter (0 < ·)).map toString
  | vaapiDevice => if isVaapi encoder then some "/dev/dri/renderD128" else none
  | input => some job.inputPath.str
  | videoCodec => some encoder.value
  | bitrate =>
    if video.qualityMode = .averageBitrate then
      some (toString (video.averageBitrate.getD 0) ++ "k")
    else none
  | rateControl =>
    if video.qualityMode ≠ .averageBitrate ∧ isNvenc encoder then some "constqp" else none
  | crf => quality .crf
  | qp => quality .qp
  | globalQuality => quality .globalQuality
  | qualityScale => quality .qualityScale
  | preset =>
    if encoder = .libx264 ∨ encoder = .libx265 then some video.encoderPreset
    else if isNvenc encoder then some (mapNvencPreset video.encoderPreset)
    else none
  | tune =>
    if encoder = .libx264 ∧ video.encoderTune ≠ "" then some video.encoderTune else none
  | frameRate =>
    if video.frameRateType = .custom then video.frameRate.map builder.floatText else none
  | codecProfile => statedText video.encoderProfile
  | codecLevel => statedText video.encoderLevel
  | pixelFormat => some (pixFmt builder.resolver.lower video)
  | videoFilter =>
    if isVaapi encoder then some (appendFilter (buildVideoFilter video) "format=nv12,hwupload")
    else buildVideoFilter video
  | audioCodec => if withAudio ∧ profile.audioTracks = [] then some "aac" else none
  | audioBitrate => if withAudio ∧ profile.audioTracks = [] then some "160k" else none
  | track setting index =>
    if withAudio then profile.audioTracks[index]?.bind setting.wanted else none
  | movflags => if profile.format = "mp4" ∧ profile.optimize then some "+faststart" else none
  | muxer => some (ffmpegMuxerFormat builder.resolver.lower profile.format)

/-- The streams of the input that are encoded. -/
def wantedStreams (profile : VshiftProfile) : List String :=
  "0:v:0" ::
    if profile.audioSelectionMode = .none then []
    else if profile.audioTracks = [] then ["0:a:0?"]
    else (List.range profile.audioTracks.length).map fun index => "0:a:" ++ toString index

/-! Each part of the command line states its settings. -/

section
variable {builder : FfmpegCommandBuilder} {job : TranscodeJob} {encoder : VideoEncoder}

/-- The options for settings. -/
abbrev stated (builder : FfmpegCommandBuilder) (job : TranscodeJob) (encoder : VideoEncoder) :
    List Setting → List (String × String) :=
  offered Setting.flag (Setting.wanted builder job encoder)

theorem stated_single (setting : Setting) : stated builder job encoder [setting] =
    ((setting.wanted builder job encoder).map fun value => (setting.flag, value)).toList := by
  unfold stated offered
  rw [List.filterMap_cons, List.filterMap_nil]
  cases setting.wanted builder job encoder <;> rfl

theorem stated_append (settings settings' : List Setting) :
    stated builder job encoder (settings ++ settings') =
      stated builder job encoder settings ++ stated builder job encoder settings' :=
  offered_append ..

/-- A setting with a value, and one without. -/
theorem render_some (setting : Setting) {value : String}
    (h : setting.wanted builder job encoder = some value) :
    render (stated builder job encoder [setting]) = [setting.flag, value] := by
  rw [stated_single, h]
  rfl

theorem render_none (setting : Setting) (h : setting.wanted builder job encoder = none) :
    render (stated builder job encoder [setting]) = [] := by
  rw [stated_single, h]
  rfl

theorem threadArgs_states :
    builder.threadArgs = render (stated builder job encoder [.threads]) := by
  unfold FfmpegCommandBuilder.threadArgs
  cases hcount : builder.threadCount with
  | none =>
    rw [render_none .threads (by simp [Setting.wanted, hcount])]
    rfl
  | some count =>
    by_cases hpos : 0 < count
    · have hwanted : Setting.threads.wanted builder job encoder = some (toString count) := by
        simp [Setting.wanted, hcount, hpos]
      rw [render_some .threads hwanted, Option.elim_some, if_pos hpos]
      rfl
    · rw [render_none .threads (by simpa [Setting.wanted, hcount] using hpos), Option.elim_some,
        if_neg hpos]

theorem videoQualityArgs_states {args : List String}
    (h : videoQualityArgs encoder job.profileSnapshot.video = .ok args) :
    args = render (stated builder job encoder Setting.quality) := by
  unfold videoQualityArgs at h
  split at h
  · next hmode =>
    cases h
    simp [stated, offered, Setting.quality, Setting.wanted, hmode, render, Setting.flag]
  · next hmode =>
    cases hquality : job.profileSnapshot.video.quality.truncate with
    | error e =>
      rw [hquality] at h
      cases h
    | ok quality =>
      have htext : job.profileSnapshot.video.qualityText = toString quality := by
        unfold VideoProfile.qualityText
        rw [hquality]
      rw [hquality] at h
      cases encoder <;> cases h <;>
        simp [stated, offered, Setting.quality, Setting.wanted, hmode, render, Setting.flag,
          qualitySetting, isNvenc, htext]

theorem videoEncoderTuningArgs_states :
    videoEncoderTuningArgs builder.floatText encoder job.profileSnapshot.video =
      render (stated builder job encoder Setting.tuning) := by
  have hpreset : presetArgs job.profileSnapshot.video encoder =
      render (stated builder job encoder [.preset, .tune]) := by
    by_cases htune : job.profileSnapshot.video.encoderTune = "" <;> cases encoder <;>
      simp [presetArgs, stated, offered, Setting.wanted, render, Setting.flag, isNvenc, htune]
  unfold videoEncoderTuningArgs
  rw [show Setting.tuning = [.preset, .tune] ++ [.frameRate] from rfl, stated_append,
    render_append, ← hpreset]
  congr 1
  cases htype : job.profileSnapshot.video.frameRateType <;>
    cases hrate : job.profileSnapshot.video.frameRate <;>
    simp [stated, offered, Setting.wanted, htype, hrate, render, Setting.flag]

theorem unlessAuto_states (setting : Setting) {value : String}
    (h : setting.wanted builder job encoder = statedText value) :
    unlessAuto setting.flag value = render (stated builder job encoder [setting]) := by
  unfold statedText at h
  unfold unlessAuto
  split
  · next hvalue =>
    rw [if_pos hvalue] at h
    rw [render_some setting h]
  · next hvalue =>
    rw [if_neg hvalue] at h
    rw [render_none setting h]

theorem trackArgs_states {track : AudioTrack} {index : Nat}
    (haudio : job.profileSnapshot.audioSelectionMode ≠ .none)
    (htrack : job.profileSnapshot.audioTracks[index]? = some track) :
    trackArgs track index = render (stated builder job encoder (Setting.ofTrack index)) := by
  cases hcopy : track.copyTrack <;> cases hrate : track.sampleRate <;>
    simp [trackArgs, stated, offered, Setting.ofTrack, Setting.wanted, TrackSetting.wanted,
      haudio, htrack, hcopy, hrate, render, Setting.flag, TrackSetting.stem]

/-- The tracks with their indices. -/
theorem flatMap_zipIdx {α β : Type} (l : List α) (f : α × Nat → List β) (g : Nat → List β)
    (h : ∀ a i, l[i]? = some a → f (a, i) = g i) :
    l.zipIdx.flatMap f = (List.range l.length).flatMap g := by
  rw [List.range_eq_range', ← List.zipIdx_map_snd, List.flatMap_map]
  apply List.flatMap_congr
  rintro ⟨a, i⟩ hmem
  exact h a i (List.mem_zipIdx_iff_getElem?.mp hmem)

/-- The options for the tracks, track by track. -/
theorem render_tracks (tracks : Nat) :
    render (stated builder job encoder ((List.range tracks).flatMap Setting.ofTrack)) =
      (List.range tracks).flatMap fun index =>
        render (stated builder job encoder (Setting.ofTrack index)) := by
  unfold stated
  rw [offered_flatMap, render_flatMap]

theorem audioArgs_states : audioArgs job.profileSnapshot =
    render (stated builder job encoder (Setting.audio job.profileSnapshot.audioTracks.length)) := by
  unfold audioArgs Setting.audio
  rw [stated_append, render_append, render_tracks]
  split
  · next hnone =>
    have htracks : ∀ index, render (stated builder job encoder (Setting.ofTrack index)) = [] := by
      intro index
      simp [stated, offered, Setting.ofTrack, Setting.wanted, hnone, render]
    have hdefault :
        render (stated builder job encoder [.audioCodec, .audioBitrate]) = [] := by
      simp [stated, offered, Setting.wanted, hnone, render]
    rw [hdefault, List.nil_append]
    exact (List.flatMap_eq_nil_iff.mpr fun index _ => htracks index).symm
  · next haudio =>
    split
    · next hempty =>
      have htracks : job.profileSnapshot.audioTracks = [] := List.isEmpty_iff.mp hempty
      simp [stated, offered, Setting.wanted, haudio, htracks, render, Setting.flag]
    · next hsome =>
      have htracks : job.profileSnapshot.audioTracks ≠ [] := fun he => hsome (by rw [he]; rfl)
      have hdefault :
          render (stated builder job encoder [.audioCodec, .audioBitrate]) = [] := by
        simp [stated, offered, Setting.wanted, htracks, render]
      rw [hdefault, List.nil_append]
      exact flatMap_zipIdx _ _ _ fun _ _ htrack => trackArgs_states haudio htrack

/-- The options that name streams. -/
def mapped (streams : List String) : List (String × String) := streams.map ("-map", ·)

theorem audioMaps_states :
    ["-map", "0:v:0"] ++ audioMaps job.profileSnapshot =
      render (mapped (wantedStreams job.profileSnapshot)) := by
  unfold audioMaps wantedStreams mapped
  split
  · rfl
  · split
    · next hempty =>
      rw [if_pos (List.isEmpty_iff.mp hempty)]
      rfl
    · next hsome =>
      rw [if_neg (mt List.isEmpty_iff.mpr hsome), List.map_cons, List.map_map, render,
        List.flatMap_cons, List.flatMap_map]
      congr 1
      exact flatMap_zipIdx _ _ _ fun _ _ _ => rfl

/-- What `mapProfile` puts together. -/
theorem mapProfile_states {parts : MappedFfmpegCommand}
    (h : mapProfile builder.resolver.lower builder.floatText job.profileSnapshot encoder =
      .ok parts) :
    parts.maps = render (mapped (wantedStreams job.profileSnapshot)) ∧
    parts.videoArgs = render (stated builder job encoder Setting.video) ∧
    parts.videoFilter = Setting.videoFilter.wanted builder job encoder ∧
    parts.inputArgs = render (stated builder job encoder [.vaapiDevice]) ∧
    parts.audioArgs = render (stated builder job encoder
      (Setting.audio job.profileSnapshot.audioTracks.length)) ∧
    parts.outputArgs = render (stated builder job encoder [.movflags]) := by
  obtain ⟨qualityArgs, hquality, h⟩ := except_bind_ok h
  cases h
  have hvaapi : isVaapi encoder = true ↔ encoder = .h264Vaapi ∨ encoder = .hevcVaapi := by
    simp [isVaapi]
  refine ⟨audioMaps_states, ?_, ?_, ?_, audioArgs_states, ?_⟩
  · unfold Setting.video
    rw [stated_append, stated_append, stated_append, stated_append, stated_append, render_append,
      render_append, render_append, render_append, render_append,
      ← videoQualityArgs_states hquality, ← videoEncoderTuningArgs_states,
      ← unlessAuto_states .codecProfile rfl,
      ← unlessAuto_states .codecLevel rfl, render_some .videoCodec rfl,
      render_some .pixelFormat rfl]
    rfl
  · simp only [Setting.wanted, hvaapi]
  · by_cases hdevice : encoder = .h264Vaapi ∨ encoder = .hevcVaapi
    · exact (if_pos hdevice).trans (render_some .vaapiDevice (if_pos (hvaapi.mpr hdevice))).symm
    · exact (if_neg hdevice).trans (render_none .vaapiDevice (if_neg (mt hvaapi.mp hdevice))).symm
  · by_cases hfast : job.profileSnapshot.format = "mp4" ∧ job.profileSnapshot.optimize
    · exact (if_pos hfast).trans (render_some .movflags (if_pos hfast)).symm
    · exact (if_neg hfast).trans (render_none .movflags (if_neg hfast)).symm

/-! The whole command line. -/

/-- What is asked for by a command line, read by its options. -/
structure Delivered (builder : FfmpegCommandBuilder) (job : TranscodeJob) (outputPath : Path)
    (encoder : VideoEncoder) (argv : List String) : Prop where
  settings : ∀ setting : Setting,
    (pairs (argv.drop 4)).lookup setting.flag = setting.wanted builder job encoder
  streams : (pairs (argv.drop 4)).filterMap (fun option =>
    if option.1 = "-map" then some option.2 else none) = wantedStreams job.profileSnapshot
  only : ∀ option ∈ pairs (argv.drop 4), option.1 = "-map" ∨
    ∃ setting : Setting, option.1 = setting.flag ∧
      setting.wanted builder job encoder = some option.2
  output : argv.getLast? = some outputPath.str

/-- Every setting has its place in the command line, but for those of tracks there are not. -/
theorem Setting.placed (builder : FfmpegCommandBuilder) (job : TranscodeJob)
    (encoder : VideoEncoder) (setting : Setting) :
    setting ∈ leading ++ trailing job.profileSnapshot.audioTracks.length ∨
      setting.wanted builder job encoder = none := by
  rcases fixed_or_track setting with hfixed | ⟨part, index, rfl⟩
  · left
    have hall : ∀ setting ∈ fixed,
        setting ∈ leading ++ (video ++ [videoFilter] ++ [audioCodec, audioBitrate] ++ [movflags] ++
          [muxer]) := by decide
    have hmem := hall setting hfixed
    simp only [trailing, audio, List.mem_append] at hmem ⊢
    tauto
  · by_cases hindex : index < job.profileSnapshot.audioTracks.length
    · left
      have htrack : track part index ∈ ofTrack index := by cases part <;> simp [ofTrack]
      have haudio := List.mem_flatMap_of_mem (List.mem_range.mpr hindex) htrack
      simp only [trailing, audio, List.mem_append]
      tauto
    · right
      have hnone : job.profileSnapshot.audioTracks[index]? = none :=
        List.getElem?_eq_none (Nat.le_of_not_lt hindex)
      simp [Setting.wanted, hnone]

theorem mapped_flags (streams : List String) (setting : Setting) :
    setting.flag ∉ flags (mapped streams) := by
  intro hmem
  obtain ⟨option, hoption, hflag⟩ := List.mem_map.mp hmem
  obtain ⟨stream, -, rfl⟩ := List.mem_map.mp hoption
  exact setting.flag_ne_map hflag.symm

theorem stated_wanted {settings : List Setting} {option : String × String}
    (h : option ∈ stated builder job encoder settings) :
    ∃ setting : Setting, option.1 = setting.flag ∧
      setting.wanted builder job encoder = some option.2 := by
  obtain ⟨setting, -, heq⟩ := List.mem_filterMap.mp h
  obtain ⟨value, hvalue, rfl⟩ := Option.map_eq_some_iff.mp heq
  exact ⟨setting, rfl, hvalue⟩

/-- The streams among options, those of settings left out. -/
theorem stated_streams (settings : List Setting) :
    (stated builder job encoder settings).filterMap (fun option =>
      if option.1 = "-map" then some option.2 else none) = [] := by
  rw [List.filterMap_eq_nil_iff]
  intro option hoption
  obtain ⟨setting, hflag, -⟩ := stated_wanted hoption
  exact if_neg (hflag ▸ setting.flag_ne_map)

theorem mapped_streams (streams : List String) :
    (mapped streams).filterMap (fun option =>
      if option.1 = "-map" then some option.2 else none) = streams := by
  unfold mapped
  rw [List.filterMap_map]
  exact List.filterMap_some

end

section
variable {builder : FfmpegCommandBuilder} {job : TranscodeJob} {outputPath : Path}
  {encoder : Option VideoEncoder} {argv : List String}

/-- The options of a command line: those of the leading settings, the streams, the rest. -/
theorem build_options (h : builder.build job outputPath encoder = .ok argv) :
    ∃ resolved, encoder.elim (builder.resolveEncoder job) .ok = .ok resolved ∧
      argv = [builder.ffmpeg, "-hide_banner", "-nostdin", "-y"] ++
        render (stated builder job resolved Setting.leading ++
          mapped (wantedStreams job.profileSnapshot) ++
          stated builder job resolved
            (Setting.trailing job.profileSnapshot.audioTracks.length)) ++ [outputPath.str] := by
  obtain ⟨resolved, parts, hresolved, hparts, rfl⟩ := build_parts h
  obtain ⟨hmaps, hvideo, hfilter, hinput, haudio, houtput⟩ := mapProfile_states hparts
  have hvideoFilter : parts.videoFilter.elim [] (fun videoFilter => ["-vf", videoFilter]) =
      render (stated builder job resolved [.videoFilter]) := by
    rw [stated_single, ← hfilter]
    cases parts.videoFilter <;> rfl
  refine ⟨resolved, hresolved, ?_⟩
  unfold Setting.leading Setting.trailing
  rw [show [Setting.threads, .vaapiDevice, .input] = [.threads] ++ [.vaapiDevice] ++ [.input]
    from rfl]
  simp only [stated_append, render_append, ← threadArgs_states, ← hinput, ← hmaps, ← hvideo,
    ← hvideoFilter, ← haudio, ← houtput]
  rw [render_some .input rfl, render_some .muxer rfl]
  simp only [List.append_assoc, List.cons_append, List.nil_append, Setting.flag]

/-- The command line, read back, has the value of each setting and nothing else. -/
theorem build_delivers (h : builder.build job outputPath encoder = .ok argv) :
    ∃ resolved, encoder.elim (builder.resolveEncoder job) .ok = .ok resolved ∧
      Delivered builder job outputPath resolved argv := by
  obtain ⟨resolved, hresolved, hargv⟩ := build_options h
  refine ⟨resolved, hresolved, ?_⟩
  have hpairs : pairs (argv.drop 4) = stated builder job resolved Setting.leading ++
      mapped (wantedStreams job.profileSnapshot) ++
      stated builder job resolved (Setting.trailing job.profileSnapshot.audioTracks.length) := by
    have hdrop : argv.drop 4 = render (stated builder job resolved Setting.leading ++
        mapped (wantedStreams job.profileSnapshot) ++
        stated builder job resolved
          (Setting.trailing job.profileSnapshot.audioTracks.length)) ++ [outputPath.str] := by
      rw [hargv]
      rfl
    rw [hdrop, pairs_render]
    exact List.append_nil _
  constructor
  · intro setting
    -- the streams stand under a flag of their own, so that the settings are looked up in one list
    have hlookup : (pairs (argv.drop 4)).lookup setting.flag =
        (stated builder job resolved (Setting.leading ++
          Setting.trailing job.profileSnapshot.audioTracks.length)).lookup setting.flag := by
      rw [hpairs, stated_append, List.lookup_append, List.lookup_append, List.lookup_append,
        lookup_of_notMem (mapped_flags _ setting), Option.or_none]
    rw [hlookup]
    rcases setting.placed builder job resolved with hmem | hnone
    · exact lookup_offered hmem fun _ _ heq => Setting.flag_injective heq
    · rw [hnone]
      refine lookup_of_notMem fun hin => ?_
      obtain ⟨option, hoption, hflag⟩ := List.mem_map.mp hin
      obtain ⟨setting', hflag', hvalue⟩ := stated_wanted hoption
      have heq : setting' = setting := Setting.flag_injective (hflag'.symm.trans hflag)
      rw [heq, hnone] at hvalue
      cases hvalue
  · rw [hpairs, List.filterMap_append, List.filterMap_append, stated_streams, stated_streams,
      mapped_streams, List.append_nil, List.nil_append]
  · intro option hoption
    rw [hpairs, List.mem_append, List.mem_append] at hoption
    rcases hoption with (hoption | hoption) | hoption
    · exact .inr (stated_wanted hoption)
    · obtain ⟨stream, -, rfl⟩ := List.mem_map.mp hoption
      exact .inl rfl
    · exact .inr (stated_wanted hoption)
  · rw [hargv]
    exact List.getLast?_concat

end

theorem build_delivers_optionTexts : ∃ argv,
    plainBuilder.build optionTexts (.parse "/tmp/temp/a.partial") (some .libx264) = .ok argv ∧
    ∃ resolved, Except.ok VideoEncoder.libx264 = (Except.ok resolved : Except Exn VideoEncoder) ∧
      Delivered plainBuilder optionTexts (.parse "/tmp/temp/a.partial") resolved argv := by
  have hbuild : ∃ argv, plainBuilder.build optionTexts (.parse "/tmp/temp/a.partial")
      (some .libx264) = .ok argv := ⟨_, rfl⟩
  obtain ⟨argv, hargv⟩ := hbuild
  exact ⟨argv, hargv, build_delivers hargv⟩

end Vshift
