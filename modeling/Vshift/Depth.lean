import Vshift.VideoStream
import Vshift.Handbrake

/- The bit depth asked for and the pixel format encoded in.

   Three places decide it: the importer reads a depth off the encoder's name, the profile
   holds 8, 10 or 12, and the mapper chooses the argument of `-pix_fmt` by the codec. They agree
   on 8 bits, and on 10 bits of the codecs the mapper knows them of (`pixFmt_delivers_iff`). -/
namespace Vshift

/-- The codecs `map_profile` has a pixel format of ten bits for. -/
def tenBitCodecs : List String := ["h265", "hevc", "av1"]

/-- The video arguments end with a pixel format. -/
def EmitsPixFmt (mapped : MappedFfmpegCommand) (value : String) : Prop :=
  ∃ rest, mapped.videoArgs = rest ++ ["-pix_fmt", value]

section
variable {lower : String → String}

theorem pixFmt_depth {video : VideoProfile} (hcolor : video.colorSpace = "yuv420p")
    (hgray : video.grayscale = false) : namedDepth (pixFmt lower video) =
      if video.bitDepth = .ten ∧ lower video.codec ∈ tenBitCodecs then 10 else 8 := by
  have hdefault : namedDepth "yuv420p" = 8 := by decide
  have hten : namedDepth "yuv420p10le" = 10 := by decide
  simp only [pixFmt, hgray, Bool.false_eq_true, if_false, hcolor]
  change namedDepth (if video.bitDepth = .ten ∧ lower video.codec ∈ tenBitCodecs then _ else _) = _
  split_ifs
  · exact hten
  · exact hdefault

theorem pixFmt_delivers_iff {video : VideoProfile} (hcolor : video.colorSpace = "yuv420p")
    (hgray : video.grayscale = false) : namedDepth (pixFmt lower video) = video.bitDepth.value ↔
      video.bitDepth = .eight ∨ video.bitDepth = .ten ∧ lower video.codec ∈ tenBitCodecs := by
  rw [pixFmt_depth hcolor hgray]
  cases hdepth : video.bitDepth <;> by_cases hcodec : lower video.codec ∈ tenBitCodecs <;>
    simp [hcodec, BitDepth.value]

theorem mapProfile_pixFmt {floatText : PyFloat → String} {profile : VshiftProfile}
    {encoder : VideoEncoder} {mapped : MappedFfmpegCommand}
    (h : mapProfile lower floatText profile encoder = .ok mapped) :
    EmitsPixFmt mapped (pixFmt lower profile.video) := by
  unfold mapProfile at h
  obtain ⟨_, -, h⟩ := except_bind_ok h
  cases h
  exact ⟨_, rfl⟩

end

theorem parsePreset_eq {py : Conversions} {d : JsonDict} {profile : VshiftProfile}
    (h : parsePreset py d = .ok profile) : ∃ qualityMode quality averageBitrate,
      profile.video = presetVideo py (normalizeHandbrakeDict d) qualityMode quality
        averageBitrate := by
  unfold parsePreset parseNormalized at h
  obtain ⟨⟨qualityMode, quality, averageBitrate⟩, -, h⟩ := except_bind_ok h
  obtain ⟨audioTracks, -, h⟩ := except_bind_ok h
  obtain ⟨_, -, h⟩ := except_bind_ok h
  obtain ⟨_, -, h⟩ := except_bind_ok h
  cases h
  exact ⟨qualityMode, quality, averageBitrate, rfl⟩

/-- The name of a preset's encoder. -/
def JsonDict.videoEncoder (py : Conversions) (d : JsonDict) : String :=
  py.str (d.get "VideoEncoder" (.atom (.str "x264")))

/-- What the profile of a preset has to say of depth. -/
theorem parsePreset_depth {py : Conversions} {d : JsonDict} {profile : VshiftProfile}
    (h : parsePreset py d = .ok profile) :
    profile.video.colorSpace = "yuv420p" ∧
    profile.video.grayscale = truthy (d.get "VideoGrayScale" (.atom (.bool false))) ∧
    profile.video.codec = (videoEncoderMap.lookup (d.videoEncoder py)).getD (d.videoEncoder py) ∧
    profile.video.bitDepth = mapBitDepth (d.videoEncoder py) := by
  obtain ⟨qualityMode, quality, averageBitrate, hvideo⟩ := parsePreset_eq h
  have hname : (normalizeHandbrakeDict d).videoEncoder py = d.videoEncoder py :=
    congrArg py.str (get_normalize (by decide) d _)
  have hgray := get_normalize (by decide : "VideoGrayScale" ∉ modernKeys) d (.atom (.bool false))
  rw [hvideo, ← hname, ← hgray]
  exact ⟨rfl, rfl, rfl, rfl⟩

/-- The names of 12 bits are looked for first. -/
theorem mapBitDepth_value (encoder : String) : (mapBitDepth encoder).value =
    if contains encoder "12bit" then 12 else if contains encoder "10bit" then 10 else 8 := by
  unfold mapBitDepth
  split_ifs <;> rfl

theorem preset_not_lower_iff {lower : String → String} {py : Conversions} {d : JsonDict}
    {profile : VshiftProfile} (h : parsePreset py d = .ok profile)
    (hgray : profile.video.grayscale = false)
    (hnames : contains (d.videoEncoder py) "10bit" ∨ contains (d.videoEncoder py) "12bit") :
    profile.video.bitDepth.value ≤ namedDepth (pixFmt lower profile.video) ↔
      ¬ contains (d.videoEncoder py) "12bit" ∧ lower profile.video.codec ∈ tenBitCodecs := by
  obtain ⟨hcolor, -, -, hdepth⟩ := parsePreset_depth h
  rw [pixFmt_depth hcolor hgray, hdepth, mapBitDepth_value]
  by_cases htwelve : contains (d.videoEncoder py) "12bit"
  · simp only [htwelve, if_true]
    split_ifs <;> simp
  · have hten : contains (d.videoEncoder py) "10bit" := hnames.resolve_right htwelve
    have hbits : mapBitDepth (d.videoEncoder py) = .ten := by
      rw [mapBitDepth, if_neg htwelve, if_pos hten]
    simp only [htwelve, hten, hbits, if_true, true_and]
    split_ifs <;> simp_all

/-- The argument of `-pix_fmt` for a profile with the default color space and no grayscale has the
    profile's depth exactly at 8 bits, and at 10 bits of certain codecs. The profiles of presets are
    of this kind; where they name 10 or 12 bits, the argument of `-pix_fmt` is of no lower depth
    exactly where they name 10 and have such a codec. The filter `format=nv12` that goes before a
    VAAPI encoder is not looked at. -/
theorem depth_delivered_iff (lower : String → String) (floatText : PyFloat → String) :
    (∀ profile encoder mapped, profile.video.colorSpace = "yuv420p" →
      profile.video.grayscale = false → mapProfile lower floatText profile encoder = .ok mapped →
      ∃ value, EmitsPixFmt mapped value ∧
        (namedDepth value = profile.video.bitDepth.value ↔ profile.video.bitDepth = .eight ∨
          profile.video.bitDepth = .ten ∧ lower profile.video.codec ∈ tenBitCodecs)) ∧
    (∀ py d profile, parsePreset py d = .ok profile →
      truthy (d.get "VideoGrayScale" (.atom (.bool false))) = false →
      (profile.video.colorSpace = "yuv420p" ∧ profile.video.grayscale = false) ∧
      ∀ encoder mapped, mapProfile lower floatText profile encoder = .ok mapped →
        contains (d.videoEncoder py) "10bit" ∨ contains (d.videoEncoder py) "12bit" →
        ∃ value, EmitsPixFmt mapped value ∧
          (profile.video.bitDepth.value ≤ namedDepth value ↔
            ¬ contains (d.videoEncoder py) "12bit" ∧
              lower profile.video.codec ∈ tenBitCodecs)) := by
  constructor
  · intro profile encoder mapped hcolor hgray h
    exact ⟨_, mapProfile_pixFmt h, pixFmt_delivers_iff hcolor hgray⟩
  · intro py d profile hparse hnotgray
    have hgray : profile.video.grayscale = false := (parsePreset_depth hparse).2.1.trans hnotgray
    refine ⟨⟨(parsePreset_depth hparse).1, hgray⟩, ?_⟩
    intro encoder mapped h hnames
    exact ⟨_, mapProfile_pixFmt h, preset_not_lower_iff hparse hgray hnames⟩

/-- Ten bits of a codec the mapper knows none of. -/
def tenBitH264 : VshiftProfile where
  name := "HQ"
  format := "mkv"
  video := { codec := "h264", bitDepth := .ten }

theorem tenBitH264_not_delivered :
    ¬ ∀ (lower : String → String) (floatText : PyFloat → String) (profile : VshiftProfile)
      (encoder : VideoEncoder) (mapped : MappedFfmpegCommand),
      profile.video.colorSpace = "yuv420p" → profile.video.grayscale = false →
      mapProfile lower floatText profile encoder = .ok mapped →
      ∃ value, EmitsPixFmt mapped value ∧ namedDepth value = profile.video.bitDepth.value := by
  intro h
  have hmap : ∃ mapped, mapProfile id (fun _ => "") tenBitH264 .libx264 = .ok mapped ∧
      mapped.videoArgs = ["-c:v", "libx264", "-crf", "22", "-preset", "medium", "-pix_fmt",
        "yuv420p"] := ⟨_, rfl, by decide⟩
  obtain ⟨mapped, hmapped, hargs⟩ := hmap
  obtain ⟨value, ⟨rest, hrest⟩, hdepth⟩ := h id _ tenBitH264 .libx264 mapped rfl rfl hmapped
  have hvalue : value = "yuv420p" := by
    have hlast := congrArg List.getLast? (hrest.symm.trans hargs)
    rw [List.getLast?_append] at hlast
    exact Option.some.inj hlast
  rw [hvalue] at hdepth
  revert hdepth
  decide

end Vshift
