import Vshift.Scan
import Vshift.Scanner
import Mathlib.Data.List.DropRight
import Mathlib.Algebra.Order.BigOperators.Group.List

/- The extension filter of a match rule, from what the YAML document says to the files the rule
   applies to.

   `normalizeExtensions` is the before-validator of `MatchCriteria.extensions`. A list of any
   items restricts the rule to files with one of the extensions given (`list_restricts`); every
   other value becomes the empty list, which is no restriction (`unrestricted`): the rule then
   applies to a file whose extension is longer than anything given. `fails_closed_iff` puts the
   two together. -/
namespace Vshift
open Command

/-- What `yaml.safe_load` returns; a `scalar` is a float, a date, a time or a binary, by the text
    `str` gives it. -/
inductive Yaml where
  | null
  | bool (value : Bool)
  | int (value : Int)
  | str (text : String)
  | scalar (text : String)
  | seq (items : List Yaml)
  | pair (key value : Yaml)
  | set (items : List Yaml)
  | map (entries : List (Yaml × Yaml))

/-- `str(item)`, where `repr` is what Python prints for a container. -/
def Yaml.toText (repr : Yaml → String) : Yaml → String
  | null => "None"
  | bool true => "True"
  | bool false => "False"
  | int value => toString value
  | str text => text
  | scalar text => text
  | container => repr container

/-- `text.removeprefix(".")` -/
def removeDot (text : String) : String :=
  match text.toList with
  | '.' :: rest => String.ofList rest
  | _ => text

/-- `text.lstrip(".")` -/
def stripDots (text : String) : String := String.ofList (text.toList.dropWhile (· = '.'))

section
variable (py : Platform) (repr : Yaml → String)

/-- `MatchCriteria.normalize_extensions` -/
def normalizeExtensions : Yaml → List String
  | .seq items => items.map (fun item => removeDot (py.lower (item.toText repr)))
  -- `if not isinstance(value, list): return []`
  | _ => []

/-- A rule whose document says `value` under `match.extensions`. -/
def MatchRule.stating (rule : MatchRule) (value : Yaml) : MatchRule :=
  { rule with criteria := { rule.criteria with extensions := normalizeExtensions py repr value } }

/-- The extensions a value gives: the items of a list, the keys of a mapping, a scalar itself. -/
def extensionsGiven : Yaml → List String
  | .null => []
  | .seq items => items.map (Yaml.toText repr)
  | .set items => items.map (Yaml.toText repr)
  | .map entries => entries.map (fun entry => entry.1.toText repr)
  | value => [value.toText repr]

/-- Equal but for case and leading dots. -/
def SameExtension (a b : String) : Prop := py.lower (stripDots a) = py.lower (stripDots b)

end

/-- What the scanner and the prober hand on. -/
inductive Produced (ctx : Context) : ProbedInput → Prop
  | scanned {stabilitySeconds now dir below probed}
      (h : probed ∈ scanOnce ctx stabilitySeconds now dir below) : Produced ctx probed
  | probed {path tape w probed w'}
      (h : redis.run (mediaProberProbe ctx path) tape w = some (.ok probed, w')) :
      Produced ctx probed
  | completed {candidate tape w probed w'} (hc : Produced ctx candidate)
      (h : redis.run (probeInputFile ctx candidate) tape w = some (.ok probed, w')) :
      Produced ctx probed

/-- Every rule that says `value` is rejected, or applies only to files whose suffix is, but for case
    and leading dots, an extension given. -/
def FailsClosed (ctx : Context) (repr : Yaml → String) (value : Yaml) : Prop :=
  ∀ rule : MatchRule, (rule.stating ctx.py repr value).validate ≠ .ok () ∨
    ∀ probed, Produced ctx probed →
      (rule.stating ctx.py repr value).criteria.matches ctx.py probed = true →
      ∃ given ∈ extensionsGiven repr value,
        SameExtension ctx.py (String.ofList probed.path.suffix) given

/-- What the filter relies on in `str.lower`. -/
structure LowerCase (py : Platform) : Prop where
  keeps : ∀ text : String, (∀ c ∈ text.toList, c.isLower) → py.lower text = text
  twice : ∀ text : String, py.lower (py.lower text) = py.lower text
  dots : ∀ text : String, stripDots (py.lower text) = py.lower (stripDots text)

/-! What is handed on carries the extension of its path. -/

section
variable {ctx : Context} {repr : Yaml → String}

theorem mediaProberProbe_obeys (path : Path) (w : World) :
    (mediaProberProbe ctx path).Obeys redis.protocol (fun r _ => ∀ probed, r = .ok probed →
      probed.path = path ∧ probed.extension = extensionOf ctx path) w := by
  refine ⟨trivial, fun outcome _ => ?_⟩
  cases outcome with
  | error e => exact fun probed h => by cases h
  | ok media =>
    apply (Program.obeys_ofExcept _ _).mpr
    intro probed h
    rw [validateProbed_ok h]
    exact ⟨rfl, rfl⟩

theorem probeInputFile_obeys {candidate : ProbedInput}
    (hc : candidate.extension = extensionOf ctx candidate.path) (w : World) :
    (probeInputFile ctx candidate).Obeys redis.protocol (fun r _ => ∀ probed, r = .ok probed →
      probed.path = candidate.path ∧ probed.extension = extensionOf ctx candidate.path) w := by
  apply (mediaProberProbe_obeys candidate.path w).seq
  · intro found w' hfound
    obtain ⟨hpath, hextension⟩ := hfound found rfl
    split
    · intro probed h
      cases h
      exact ⟨hpath, hc⟩
    · intro probed h
      cases h
      exact ⟨hpath, hextension⟩
  · exact fun e w' _ probed h => by cases h

theorem Produced.extension_eq {probed : ProbedInput} (h : Produced ctx probed) :
    probed.extension = extensionOf ctx probed.path := by
  induction h with
  | @scanned stabilitySeconds now dir below probed h =>
    cases below with
    | none => cases h
    | some tree =>
      obtain ⟨⟨path, kind⟩, -, hsome⟩ := List.mem_filterMap.mp h
      dsimp only at hsome
      split at hsome
      · split at hsome
        · cases hsome
        · split at hsome
          · cases hsome
            rfl
          · cases hsome
      · cases hsome
  | @probed path tape w probed w' h =>
    obtain ⟨hpath, hextension⟩ := Machine.run_obeys h (mediaProberProbe_obeys path w) probed rfl
    rw [hpath, hextension]
  | @completed candidate tape w probed w' _ h ih =>
    obtain ⟨hpath, hextension⟩ := Machine.run_obeys h (probeInputFile_obeys ih w) probed rfl
    rw [hpath, hextension]

/-! A list restricts. -/

@[simp] theorem stripDots_stripDots (text : String) :
    stripDots (stripDots text) = stripDots text := by
  simp [stripDots, List.dropWhile_idempotent]

@[simp] theorem stripDots_removeDot (text : String) :
    stripDots (removeDot text) = stripDots text := by
  unfold stripDots removeDot
  split
  · next rest h => simp [h]
  · rfl

theorem extensionOf_eq (path : Path) :
    extensionOf ctx path = ctx.py.lower (stripDots (String.ofList path.suffix)) := by
  simp [extensionOf, stripDots]

theorem matches_extension {py : Platform} {criteria : MatchCriteria} {probed : ProbedInput}
    (h : criteria.matches py probed = true) :
    criteria.extensions = [] ∨ py.lower probed.extension ∈ criteria.extensions := by
  simp only [MatchCriteria.matches, Bool.and_eq_true, Bool.or_eq_true, List.isEmpty_iff,
    decide_eq_true_eq] at h
  exact h.1.1.1.1.1

theorem list_restricts (hlower : LowerCase ctx.py) {items : List Yaml} (hitems : items ≠ []) :
    FailsClosed ctx repr (.seq items) := by
  intro rule
  right
  intro probed hproduced hmatch
  rcases matches_extension hmatch with hnone | hmem
  · exact absurd (List.map_eq_nil_iff.mp hnone) hitems
  · obtain ⟨item, hitem, heq⟩ := List.mem_map.mp hmem
    refine ⟨item.toText repr, List.mem_map_of_mem hitem, ?_⟩
    have hfile : ctx.py.lower probed.extension =
        ctx.py.lower (stripDots (String.ofList probed.path.suffix)) := by
      rw [hproduced.extension_eq, extensionOf_eq, hlower.twice]
    calc ctx.py.lower (stripDots (String.ofList probed.path.suffix))
      _ = stripDots (ctx.py.lower (stripDots (String.ofList probed.path.suffix))) := by
        rw [hlower.dots, stripDots_stripDots]
      _ = stripDots (removeDot (ctx.py.lower (item.toText repr))) := by rw [← hfile, ← heq]
      _ = ctx.py.lower (stripDots (item.toText repr)) := by
        rw [stripDots_removeDot, hlower.dots]

/-! Everything else does not. -/

/-- A name with a one-letter stem. -/
def nameWith (extension : List Char) : Name := 'a' :: '.' :: extension

theorem splitLastDot_nameWith {extension : List Char} (h : '.' ∉ extension) :
    Path.splitLastDot (nameWith extension) = some (['a'], extension) := by
  have hnone : Path.splitLastDot extension = none := by
    induction extension with
    | nil => rfl
    | cons c cs ih =>
      rw [List.mem_cons, not_or] at h
      rw [Path.splitLastDot, ih h.2, if_neg (Ne.symm h.1)]
  simp [nameWith, Path.splitLastDot, hnone]

/-- Some file with any given extension is handed on. -/
theorem produced_with {extension : List Char} (hne : extension ≠ []) (hdot : '.' ∉ extension)
    (hslash : '/' ∉ extension) :
    ∃ probed, Produced ctx probed ∧ probed.path.suffix = '.' :: extension := by
  have hname : EntryName (nameWith extension) := by
    refine ⟨⟨by simp [nameWith], by simp [nameWith], ?_⟩, by simp [nameWith]⟩
    simp [nameWith, hslash]
  let tree : FileTree :=
    ⟨.file (nameWith extension) 1 0 .nil, hname, by simp [Entries.names], trivial⟩
  have heligible : tree.Eligible 0 0 [nameWith extension] := by
    refine ⟨⟨1, 0, .here, by omega, by norm_num⟩, ?_⟩
    intro name h
    rw [List.mem_singleton.mp h]
    simp [Hidden, nameWith]
  have hdiscovers : Discovers ctx 0 0 (.parse "/data") tree
      (scanOnce ctx 0 0 (.parse "/data") (some tree)) := discovers_visible (by decide)
  refine ⟨_, .scanned ((hdiscovers.mem _).mpr ⟨_, heligible, rfl⟩), ?_⟩
  have hparts : (discovered ctx (.parse "/data") [nameWith extension]).path.parts =
      (Path.parse "/data").parts ++ [nameWith extension] :=
    join_parts (.parse "/data") hname
  unfold Path.suffix Path.splitName Path.name
  rw [hparts, List.getLast?_concat, Option.getD_some, splitLastDot_nameWith hdot]
  exact congrArg Prod.snd (if_pos ⟨List.cons_ne_nil _ _, hne⟩)

/-- The rule of a document that says nothing but the extensions. -/
def plainRule : MatchRule := { id := "rule", criteria := {}, profile := "profile" }

theorem unrestricted (hlower : LowerCase ctx.py) {value : Yaml}
    (hvalue : ¬ ∃ items, value = .seq items) : ¬ FailsClosed ctx repr value := by
  have hnone : normalizeExtensions ctx.py repr value = [] := by
    cases value with
    | seq items => exact absurd ⟨items, rfl⟩ hvalue
    | _ => rfl
  have hrule : plainRule.stating ctx.py repr value = plainRule := by
    unfold MatchRule.stating
    rw [hnone]
    rfl
  -- an extension longer than anything given
  let given := (extensionsGiven repr value).map (fun text => ctx.py.lower (stripDots text))
  let extension := List.replicate ((given.map String.length).sum + 1) 'a'
  have hletters : ∀ c ∈ extension, c = 'a' := fun c h => List.eq_of_mem_replicate h
  obtain ⟨probed, hproduced, hsuffix⟩ : ∃ probed, Produced ctx probed ∧
      probed.path.suffix = '.' :: extension :=
    produced_with (by simp [extension]) (fun h => by cases hletters _ h)
      (fun h => by cases hletters _ h)
  intro hclosed
  rcases hclosed plainRule with hrejected | hrestricts
  · apply hrejected
    rw [hrule]
    decide
  · obtain ⟨text, hgiven, hsame⟩ := hrestricts probed hproduced (by rw [hrule]; rfl)
    have hlong : stripDots (String.ofList probed.path.suffix) = String.ofList extension := by
      rw [hsuffix]
      simp [stripDots, extension, List.replicate_succ]
    unfold SameExtension at hsame
    rw [hlong, hlower.keeps] at hsame
    · have hle : (ctx.py.lower (stripDots text)).length ≤ (given.map String.length).sum :=
        List.le_sum_of_mem (List.mem_map_of_mem (List.mem_map_of_mem hgiven))
      rw [← hsame, String.length_ofList, List.length_replicate] at hle
      omega
    · intro c hc
      rw [String.toList_ofList] at hc
      rw [hletters c hc]
      decide

end

/-- What a document states under `match.extensions`, neither null nor an empty list, fails closed
    exactly when it is a list. -/
theorem fails_closed_iff {ctx : Context} (hlower : LowerCase ctx.py) (repr : Yaml → String)
    {value : Yaml} (hnull : value ≠ .null) (hempty : value ≠ .seq []) :
    FailsClosed ctx repr value ↔ ∃ items, value = .seq items := by
  constructor
  · intro hclosed
    by_contra hvalue
    exact unrestricted hlower hvalue hclosed
  · rintro ⟨items, rfl⟩
    exact list_restricts hlower (fun h => hempty (congrArg Yaml.seq h))

theorem posix_lowerCase : LowerCase posix := ⟨fun _ _ => rfl, fun _ => rfl, fun _ => rfl⟩

theorem text_fails_closed_iff : FailsClosed smallContext (fun _ => "") (.str "mkv") ↔
    ∃ items, Yaml.str "mkv" = .seq items :=
  fails_closed_iff posix_lowerCase (fun _ => "") Yaml.noConfusion Yaml.noConfusion

/-- `extensions: mkv` in place of `extensions: [mkv]`. -/
theorem text_unrestricted : ¬ ∀ (ctx : Context) (repr : Yaml → String) (value : Yaml),
    LowerCase ctx.py → value ≠ .null → value ≠ .seq [] → FailsClosed ctx repr value := by
  intro h
  have hclosed := h smallContext (fun _ => "") (.str "mkv") posix_lowerCase Yaml.noConfusion
    Yaml.noConfusion
  rcases hclosed plainRule with hrejected | hrestricts
  · exact hrejected (by decide)
  · -- the file `a.mp4` of a scan below `/data`
    have hdiscovers : Discovers smallContext 10 60 (.parse "/data") oneFile
        (scanOnce smallContext 10 60 (.parse "/data") (some oneFile)) :=
      discovers_visible (by decide)
    have hproduced := (hdiscovers.mem _).mpr ⟨_, oneFile_eligible, rfl⟩
    obtain ⟨given, hgiven, hsame⟩ := hrestricts _ (.scanned hproduced) rfl
    rw [List.mem_singleton.mp hgiven] at hsame
    have hdifferent : posix.lower (stripDots ".mp4") ≠ posix.lower (stripDots "mkv") := by decide
    exact hdifferent hsame

end Vshift
