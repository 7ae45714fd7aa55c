import Vshift.Config
import Vshift.Sorting

/- Which profile an input gets.

   `MatchCriteria.Holds` says what a rule's criteria ask of an input, bound by
   bound; `matches_iff` is that the chain of early returns computes it. `Selected`
   is the purpose of `MatchProfile`: the least matching rule by (priority,
   position), or what `no_match` says. `profile_selected` is that every accepted
   configuration gives an answer, and that `Selected` describes it exactly. -/
namespace Vshift

/-- A value within the bounds that are set; an unknown value meets none. -/
structure Within (minimum maximum value : Option Int) : Prop where
  low : ∀ bound, minimum = some bound → ∃ v, value = some v ∧ bound ≤ v
  high : ∀ bound, maximum = some bound → ∃ v, value = some v ∧ v ≤ bound

/-- What the criteria of a rule ask of an input. -/
structure MatchCriteria.Holds (py : Platform) (c : MatchCriteria) (probed : ProbedInput) :
    Prop where
  extension : c.extensions = [] ∨ py.lower probed.extension ∈ c.extensions
  glob : ∀ pattern, c.filenameGlob = some pattern →
    py.fnmatch (String.ofList probed.path.name) pattern = true
  width : Within c.minWidth c.maxWidth probed.width
  height : Within c.minHeight c.maxHeight probed.height
  bitDepth : Within c.minBitDepth c.maxBitDepth probed.bitDepth
  hdr : ∀ expected, c.hdr = some expected → probed.hdr = some expected

/-- What `MatchProfile` is to answer. -/
inductive Selected (py : Platform) (config : RawConfig) (probed : ProbedInput) :
    Option ProfileMatch → Prop
  | rule {i : Nat} {rule : MatchRule} {profile : VshiftProfile} (hi : config.rules[i]? = some rule)
      (holds : rule.criteria.Holds py probed)
      (least : ∀ (j : Nat) other, config.rules[j]? = some other → other.criteria.Holds py probed →
        rule.priority < other.priority ∨ rule.priority = other.priority ∧ i ≤ j)
      (entry : config.profile? rule.profile = some profile) :
      Selected py config probed (some ⟨rule.id, rule.profile, profile⟩)
  | nothing (unmatched : ∀ rule ∈ config.rules, ¬ rule.criteria.Holds py probed)
      (action : config.behavior.noMatch = .ignore ∨ config.behavior.noMatch = .reject) :
      Selected py config probed none
  | default {name : String} {profile : VshiftProfile}
      (unmatched : ∀ rule ∈ config.rules, ¬ rule.criteria.Holds py probed)
      (action : config.behavior.noMatch = .defaultProfile)
      (named : config.behavior.defaultProfile = some name)
      (entry : config.profile? name = some profile) :
      Selected py config probed (some ⟨"__default__", name, profile⟩)

/-! The criteria. -/

namespace MatchCriteria

theorem matchesDimension_iff {value minimum maximum : Option Int} :
    matchesDimension value minimum maximum = true ↔ Within minimum maximum value := by
  constructor
  · intro h
    cases minimum <;> cases maximum <;> cases value <;>
      simp_all [matchesDimension, Within.mk]
  · intro h
    have hlow := h.low
    have hhigh := h.high
    cases minimum <;> cases maximum <;> cases value <;> simp_all [matchesDimension]

theorem matchesHdr_iff {value expected : Option Bool} :
    matchesHdr value expected = true ↔ ∀ e, expected = some e → value = some e := by
  cases expected with
  | none => simp [matchesHdr]
  | some e =>
    cases value with
    | none => simp [matchesHdr]
    | some v => simp [matchesHdr]

theorem matches_iff {py : Platform} {c : MatchCriteria} {probed : ProbedInput} :
    c.matches py probed = true ↔ c.Holds py probed := by
  have hglob : c.filenameGlob.all (fun glob => py.fnmatch (String.ofList probed.path.name) glob) =
      true ↔ ∀ pattern, c.filenameGlob = some pattern →
        py.fnmatch (String.ofList probed.path.name) pattern = true := by
    cases c.filenameGlob <;> simp
  unfold «matches»
  simp only [Bool.and_eq_true, Bool.or_eq_true, List.isEmpty_iff, decide_eq_true_eq, hglob,
    matchesDimension_iff, matchesHdr_iff]
  constructor
  · intro ⟨⟨⟨⟨⟨he, hg⟩, hw⟩, hh⟩, hb⟩, hhdr⟩
    exact ⟨he, hg, hw, hh, hb, hhdr⟩
  · intro h
    exact ⟨⟨⟨⟨⟨h.extension, h.glob⟩, h.width⟩, h.height⟩, h.bitDepth⟩, h.hdr⟩

end MatchCriteria

/-! What the validators leave possible. -/

namespace VshiftConfig
variable (config : VshiftConfig)

theorem validateConfig_ok : config.validateConfig = .ok () := by
  obtain ⟨_, -, h⟩ := except_bind_ok config.accepted
  exact h

/-- The profile a rule names exists. -/
theorem rule_profile {rule : MatchRule} (h : rule ∈ config.rules) :
    ∃ profile, config.profile? rule.profile = some profile := by
  have hok := config.validateConfig_ok
  unfold RawConfig.validateConfig at hok
  split at hok
  · cases hok
  · split at hok
    · cases hok
    · split at hok
      · cases hok
      · split at hok
        · cases hok
        · next hnone =>
          have hsome := List.find?_eq_none.mp hnone rule h
          rw [Bool.not_eq_true, Option.isNone_eq_false_iff] at hsome
          exact Option.isSome_iff_exists.mp hsome

/-- The default profile exists when it is asked for. -/
theorem default_profile (h : config.behavior.noMatch = .defaultProfile) :
    ∃ name profile, config.behavior.defaultProfile = some name ∧
      config.profile? name = some profile := by
  have hok := config.validateConfig_ok
  unfold RawConfig.validateConfig at hok
  split at hok
  · cases hok
  · split at hok
    · cases hok
    · next hnot =>
      have hsome : (config.behavior.defaultProfile.bind config.profile?).isNone ≠ true :=
        fun hnone => hnot ⟨h, hnone⟩
      rw [ne_eq, Bool.not_eq_true, Option.isNone_eq_false_iff] at hsome
      obtain ⟨profile, hp⟩ := Option.isSome_iff_exists.mp hsome
      obtain ⟨name, hname, hentry⟩ := Option.bind_eq_some_iff.mp hp
      exact ⟨name, profile, hname, hentry⟩

end VshiftConfig

/-! The selection. -/

section
variable {py : Platform} {config : RawConfig} {probed : ProbedInput}

/-- There is at most one answer. -/
theorem Selected.unique {r r' : Option ProfileMatch} (h : Selected py config probed r)
    (h' : Selected py config probed r') : r = r' := by
  cases h with
  | @rule i rule profile hi holds least entry =>
    cases h' with
    | @rule j other profile' hj holds' least' entry' =>
      -- each of the two is least, so they stand at one position
      have hij : i = j := by
        have h₁ := least j other hj holds'
        have h₂ := least' i rule hi holds
        omega
      subst hij
      rw [hi, Option.some.injEq] at hj
      subst hj
      rw [entry, Option.some.injEq] at entry'
      rw [entry']
    | nothing unmatched action => exact absurd holds (unmatched rule (List.mem_of_getElem? hi))
    | default unmatched action named entry' =>
      exact absurd holds (unmatched rule (List.mem_of_getElem? hi))
  | nothing unmatched action =>
    cases h' with
    | rule hi holds least entry => exact absurd holds (unmatched _ (List.mem_of_getElem? hi))
    | nothing unmatched' action' => rfl
    | default unmatched' action' named entry' =>
      rw [action'] at action
      rcases action with h | h <;> cases h
  | default unmatched action named entry =>
    cases h' with
    | rule hi holds least entry' => exact absurd holds (unmatched _ (List.mem_of_getElem? hi))
    | nothing unmatched' action' =>
      rw [action] at action'
      rcases action' with h | h <;> cases h
    | default unmatched' action' named' entry' =>
      rw [named, Option.some.injEq] at named'
      subst named'
      rw [entry, Option.some.injEq] at entry'
      rw [entry']

/-- The rule a `ProfileMatcher` finds. -/
theorem profileMatcher_some {rule : MatchRule}
    (h : profileMatcher py config.rules probed = some rule) :
    rule.criteria.Holds py probed ∧ ∃ i, config.rules[i]? = some rule ∧
      ∀ (j : Nat) other, config.rules[j]? = some other → other.criteria.Holds py probed →
        rule.priority < other.priority ∨ rule.priority = other.priority ∧ i ≤ j := by
  have hfind : (Sorting.ascending (·.priority) config.rules).find?
      (fun rule => rule.matches py probed) = some rule := h
  have hmatch : rule.matches py probed = true := by simpa using List.find?_some hfind
  obtain ⟨i, hi, hleast⟩ := Sorting.find?_insertionSort hfind
  refine ⟨MatchCriteria.matches_iff.mp hmatch, i, hi, ?_⟩
  intro j other hj hother
  exact hleast j other hj (MatchCriteria.matches_iff.mpr hother)

theorem profileMatcher_none (h : profileMatcher py config.rules probed = none) :
    ∀ rule ∈ config.rules, ¬ rule.criteria.Holds py probed := by
  intro rule hrule hholds
  have hmem : rule ∈ config.rules.insertionSort (fun a b => a.priority ≤ b.priority) :=
    (List.mem_insertionSort _).mpr hrule
  exact List.find?_eq_none.mp h rule hmem (MatchCriteria.matches_iff.mpr hholds)

end

theorem matchProfile_selected (py : Platform) (config : VshiftConfig) (probed : ProbedInput) :
    ∃ result, matchProfile py config.toRawConfig probed = .ok result ∧
      Selected py config.toRawConfig probed result := by
  unfold matchProfile
  cases hfound : profileMatcher py config.rules probed with
  | some rule =>
    obtain ⟨hholds, i, hi, hleast⟩ := profileMatcher_some hfound
    obtain ⟨profile, hentry⟩ := config.rule_profile (List.mem_of_getElem? hi)
    refine ⟨some ⟨rule.id, rule.profile, profile⟩, ?_, .rule hi hholds hleast hentry⟩
    simp only [hentry]
  | none =>
    have hnone := profileMatcher_none hfound
    cases haction : config.behavior.noMatch with
    | ignore => exact ⟨none, rfl, .nothing hnone (.inl haction)⟩
    | reject => exact ⟨none, rfl, .nothing hnone (.inr haction)⟩
    | defaultProfile =>
      obtain ⟨name, profile, hname, hentry⟩ := config.default_profile haction
      refine ⟨some ⟨"__default__", name, profile⟩, ?_, .default hnone haction hname hentry⟩
      simp only [hname, hentry]

/-- An accepted configuration always gives an answer, and the answer is the one `Selected`
    describes. -/
theorem profile_selected (py : Platform) (config : VshiftConfig) (probed : ProbedInput) :
    (∃ result, matchProfile py config.toRawConfig probed = .ok result) ∧
      ∀ result, matchProfile py config.toRawConfig probed = .ok result ↔
        Selected py config.toRawConfig probed result := by
  obtain ⟨answer, hanswer, hselected⟩ := matchProfile_selected py config probed
  refine ⟨⟨answer, hanswer⟩, ?_⟩
  intro result
  rw [hanswer, Except.ok.injEq]
  constructor
  · intro heq
    exact heq ▸ hselected
  · exact hselected.unique

end Vshift
