import Vshift.Probe
import Mathlib.Data.List.DropRight

/- What a stream says of its depth and of its dynamic range: the names and the signalling
   behind `bit_depth_from_pix_fmt` and `is_hdr_stream`.

   FFmpeg writes a component depth above 8 as digits right before a final `le` or `be`;
   other digits name the layout. `namedDepth` reads the name so, and the code, which
   searches it for digits anywhere, agrees with it on the names of
   `bitDepthFromPixFmt_eq_iff`. A transfer that is one of SDR or of HDR settles the dynamic
   range of a stream without dynamic metadata; the code lets the bit depth decide where the
   primaries are those of HDR (`respectsTransfer_iff`). -/
namespace Vshift

/-! The depth in a pixel format's name. -/

/-- The digits right before a final `le` or `be`. -/
def depthDigits (name : List Char) : List Char :=
  if "le".toList <:+ name ∨ "be".toList <:+ name then
    (name.rdrop 2).rtakeWhile Char.isDigit
  else []

/-- The bits of a component that a name in lower case states. -/
def namedDepth (name : String) : Int :=
  if "10".toList <:+ depthDigits name.toList then 10
  else if "12".toList <:+ depthDigits name.toList then 12
  else 8

/-- The digits stand right before a final `le` or `be`. -/
def EndsIn (name digits : String) : Prop :=
  digits.toList ++ "le".toList <:+ name.toList ∨ digits.toList ++ "be".toList <:+ name.toList

instance (name digits : String) : Decidable (EndsIn name digits) :=
  inferInstanceAs (Decidable (_ ∨ _))

theorem prefix_takeWhile_iff {α : Type} {p : α → Bool} {d : List α} (h : ∀ a ∈ d, p a = true) :
    ∀ {l : List α}, d <+: l.takeWhile p ↔ d <+: l := by
  induction d with
  | nil => exact fun {l} => iff_of_true List.nil_prefix List.nil_prefix
  | cons a d ih =>
    intro l
    cases l with
    | nil => rfl
    | cons b l =>
      have hd : ∀ a ∈ d, p a = true := fun c hc => h c (List.mem_cons_of_mem _ hc)
      constructor
      · exact fun hp => hp.trans (List.takeWhile_prefix p)
      · intro hp
        rw [List.cons_prefix_cons] at hp
        obtain ⟨rfl, hp⟩ := hp
        rw [List.takeWhile_cons_of_pos (h a List.mem_cons_self), List.cons_prefix_cons]
        exact ⟨rfl, (ih hd).mpr hp⟩

theorem suffix_rtakeWhile_iff {α : Type} {p : α → Bool} {d l : List α}
    (h : ∀ a ∈ d, p a = true) : d <:+ l.rtakeWhile p ↔ d <:+ l := by
  rw [List.rtakeWhile, ← List.reverse_prefix, List.reverse_reverse,
    prefix_takeWhile_iff fun a ha => h a (List.mem_reverse.mp ha), List.reverse_prefix]

theorem rdrop_append {l e : List Char} {n : Nat} (h : e.length = n) : (l ++ e).rdrop n = l := by
  rw [List.rdrop, List.length_append, h, Nat.add_sub_cancel, List.take_left]

/-- Digits that end the run before the final `le` or `be` end all that is before it. -/
theorem suffix_depthDigits_iff {d name : List Char} (hdigits : d.all Char.isDigit = true)
    (hne : d ≠ []) : d <:+ depthDigits name ↔
      d ++ "le".toList <:+ name ∨ d ++ "be".toList <:+ name := by
  have hd := List.all_eq_true.mp hdigits
  unfold depthDigits
  split
  · next hending =>
    have hinj : ∀ stem e e' : List Char, e.length = e'.length →
        (d ++ e <:+ stem ++ e' ↔ d <:+ stem ∧ e = e') := fun _ _ _ hlength =>
      List.suffix_append_inj_of_length_eq hlength
    rcases hending with ⟨stem, rfl⟩ | ⟨stem, rfl⟩
    · rw [rdrop_append (n := 2) rfl, suffix_rtakeWhile_iff hd,
        hinj stem "le".toList "le".toList rfl, hinj stem "be".toList "le".toList rfl]
      simp
    · rw [rdrop_append (n := 2) rfl, suffix_rtakeWhile_iff hd,
        hinj stem "le".toList "be".toList rfl, hinj stem "be".toList "be".toList rfl]
      simp
  · next hending =>
    rw [List.suffix_nil]
    refine iff_of_false hne ?_
    rintro (h | h)
    · exact hending (.inl ((List.suffix_append d _).trans h))
    · exact hending (.inr ((List.suffix_append d _).trans h))

theorem namedDepth_eq (name : String) : namedDepth name =
    if EndsIn name "10" then 10 else if EndsIn name "12" then 12 else 8 := by
  have hten : "10".toList <:+ depthDigits name.toList ↔ EndsIn name "10" :=
    suffix_depthDigits_iff rfl (List.cons_ne_nil _ _)
  have htwelve : "12".toList <:+ depthDigits name.toList ↔ EndsIn name "12" :=
    suffix_depthDigits_iff rfl (List.cons_ne_nil _ _)
  simp only [namedDepth, hten, htwelve]

theorem EndsIn.contains {name digits : String} (h : EndsIn name digits) :
    contains name digits = true := by
  rw [Vshift.contains, decide_eq_true_eq]
  rcases h with h | h
  all_goals
    exact (List.infix_append' [] digits.toList _).trans h.isInfix

theorem EndsIn.exclusive {name : String} (h : EndsIn name "10") : ¬ EndsIn name "12" := by
  -- the four characters at the end are the same ones
  have hsame : ∀ {s s' : List Char}, s <:+ name.toList → s' <:+ name.toList →
      s.length = s'.length → s = s' := fun hs hs' hlength =>
    (List.suffix_of_suffix_length_le hs hs' hlength.le).eq_of_length hlength
  rintro (h' | h') <;> rcases h with h | h <;> exact absurd (hsame h h' (by decide)) (by decide)

/-- The depth is read right exactly from names that have `12` nowhere else than in their depth,
    and `10` nowhere else unless the name's depth is 12. -/
theorem bitDepthFromPixFmt_eq_iff {lower : String → String} (hlower : lower "" = "")
    (name : String) :
    bitDepthFromPixFmt lower (some name) = namedDepth (lower name) ↔
      (contains (lower name) "12" → EndsIn (lower name) "12") ∧
      (contains (lower name) "10" → EndsIn (lower name) "10" ∨ contains (lower name) "12") := by
  rw [namedDepth_eq]
  by_cases hempty : name = ""
  · subst hempty
    rw [hlower, bitDepthFromPixFmt, if_pos rfl]
    decide
  · have hp010 : lower name ∈ ["p010le", "p010be"] → contains (lower name) "10" := by
      intro hmem
      simp only [List.mem_cons, List.not_mem_nil, or_false] at hmem
      rcases hmem with h | h <;> rw [h] <;> decide
    simp only [bitDepthFromPixFmt, if_neg hempty, or_iff_left_of_imp hp010]
    by_cases htwelve : contains (lower name) "12"
    · -- the code says 12 whatever else is in the name
      have hexclusive : EndsIn (lower name) "12" → ¬ EndsIn (lower name) "10" :=
        fun h h' => h'.exclusive h
      simp only [htwelve, if_true, or_true, forall_const]
      split_ifs <;> simp_all
    · have hnot : ¬ EndsIn (lower name) "12" := fun h => htwelve h.contains
      have hten : EndsIn (lower name) "10" → contains (lower name) "10" = true :=
        EndsIn.contains
      simp only [htwelve, hnot, if_false]
      split_ifs <;> simp_all

/-- A layout with 10 bits a component, and one whose name holds other digits. -/
theorem bitDepthFromPixFmt_yuv420p10le :
    bitDepthFromPixFmt id (some "yuv420p10le") = namedDepth "yuv420p10le" :=
  (@bitDepthFromPixFmt_eq_iff id rfl "yuv420p10le").mpr (by decide)

theorem bitDepthFromPixFmt_nv12 :
    ¬ ∀ lower : String → String, lower "" = "" → ∀ name,
      bitDepthFromPixFmt lower (some name) = namedDepth (lower name) := by
  intro h
  exact absurd (h id rfl "nv12") (by decide)

/-! The dynamic range a stream signals. -/

section
variable (stream : StreamDict) (lower : String → String)

def StreamDict.transfer : String := normalizeColorValue lower (stream.get "color_transfer")

def StreamDict.primaries : String := normalizeColorValue lower (stream.get "color_primaries")

def StreamDict.Dynamic : Prop := hasDynamicMetadata (stream.get "side_data_list") = true

instance : Decidable stream.Dynamic := inferInstanceAs (Decidable (_ = _))

/-- A transfer that is one of SDR, and no dynamic metadata beside it. -/
def StreamDict.SignalsSdr : Prop := stream.transfer lower ∈ sdrTransfers ∧ ¬ stream.Dynamic

/-- The transfer settles the dynamic range. -/
structure StreamDict.RespectsTransfer : Prop where
  sdr : stream.SignalsSdr lower → (parseVideoStream lower stream).hdr = false
  hdr : stream.transfer lower ∈ hdrTransfers → (parseVideoStream lower stream).hdr = true

/-- Where a transfer is given and there is no dynamic metadata, the bit depth changes nothing. -/
def StreamDict.DepthIndependent : Prop :=
  stream.transfer lower ∈ sdrTransfers ++ hdrTransfers → ¬ stream.Dynamic →
    ∀ depth depth', isHdrStream lower stream depth = isHdrStream lower stream depth'

end

section
variable {lower : String → String} {stream : StreamDict}

theorem isHdrStream_hdr (h : stream.transfer lower ∈ hdrTransfers) (bitDepth : Int) :
    isHdrStream lower stream bitDepth = true :=
  if_pos h

/-- What an SDR transfer leaves to decide: the first three tests fail on it. -/
theorem isHdrStream_sdr (h : stream.SignalsSdr lower) (bitDepth : Int) :
    isHdrStream lower stream bitDepth =
      decide (10 ≤ bitDepth ∧ stream.primaries lower ∈ hdrPrimaries) := by
  have hapart : ∀ name ∈ sdrTransfers, name ∉ hdrTransfers := by decide
  have hnot : ¬ (stream.primaries lower ∈ hdrPrimaries ∧ stream.transfer lower ∉ sdrTransfers) :=
    fun hp => hp.2 h.1
  calc
    _ = if stream.primaries lower ∈ hdrPrimaries ∧ stream.transfer lower ∉ sdrTransfers then true
        else if hasDynamicMetadata (stream.get "side_data_list") then true
        else decide (10 ≤ bitDepth ∧ stream.primaries lower ∈ hdrPrimaries) :=
      if_neg (hapart _ h.1)
    _ = if hasDynamicMetadata (stream.get "side_data_list") then true
        else decide (10 ≤ bitDepth ∧ stream.primaries lower ∈ hdrPrimaries) := if_neg hnot
    _ = _ := if_neg h.2

/-- The transfer settles the dynamic range, except where ten bits meet HDR primaries in a stream
    that signals SDR; and the bit depth is without effect where there are no such primaries. -/
theorem respectsTransfer_iff (lower : String → String) (stream : StreamDict) :
    (stream.RespectsTransfer lower ↔
      ¬ (stream.SignalsSdr lower ∧ stream.primaries lower ∈ hdrPrimaries ∧
        10 ≤ bitDepthFromPixFmt lower (asText (stream.get "pix_fmt")))) ∧
    (stream.DepthIndependent lower ↔
      ¬ (stream.SignalsSdr lower ∧ stream.primaries lower ∈ hdrPrimaries)) := by
  constructor
  · constructor
    · rintro hrespects ⟨hsdr, hprimaries, hdepth⟩
      have htrue : isHdrStream lower stream (parseVideoStream lower stream).bitDepth = true := by
        rw [isHdrStream_sdr hsdr, decide_eq_true_eq]
        exact ⟨hdepth, hprimaries⟩
      exact Bool.false_ne_true ((hrespects.sdr hsdr).symm.trans htrue)
    · intro h
      constructor
      · intro hsdr
        show isHdrStream lower stream (parseVideoStream lower stream).bitDepth = false
        rw [isHdrStream_sdr hsdr, decide_eq_false_iff_not]
        exact fun hboth => h ⟨hsdr, hboth.2, hboth.1⟩
      · exact fun hhdr => isHdrStream_hdr hhdr _
  · constructor
    · rintro hindependent ⟨hsdr, hprimaries⟩
      have heq := hindependent (List.mem_append_left _ hsdr.1) hsdr.2 10 8
      rw [isHdrStream_sdr hsdr, isHdrStream_sdr hsdr, decide_eq_decide] at heq
      have := (heq.mp ⟨by omega, hprimaries⟩).1
      omega
    · intro h htransfer hdynamic depth depth'
      rcases List.mem_append.mp htransfer with hsdr | hhdr
      · have hsignals : stream.SignalsSdr lower := ⟨hsdr, hdynamic⟩
        have hnot : stream.primaries lower ∉ hdrPrimaries := fun hp => h ⟨hsignals, hp⟩
        rw [isHdrStream_sdr hsignals, isHdrStream_sdr hsignals]
        simp only [hnot, and_false]
      · rw [isHdrStream_hdr hhdr, isHdrStream_hdr hhdr]

end

/-- A ten-bit stream that signals SDR in a wide gamut. -/
def wideGamutSdr : StreamDict :=
  [("pix_fmt", .atom (.str "yuv420p10le")), ("color_transfer", .atom (.str "bt709")),
    ("color_primaries", .atom (.str "bt2020"))]

theorem wideGamutSdr_not_respected :
    ¬ ∀ (lower : String → String) (stream : StreamDict), stream.RespectsTransfer lower := by
  intro h
  have hfalse := (h id wideGamutSdr).sdr ⟨by decide, by decide⟩
  revert hfalse
  decide

end Vshift
