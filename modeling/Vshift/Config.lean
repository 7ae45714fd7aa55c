import Vshift.Job
import Mathlib.Data.List.Dedup
import Mathlib.Data.List.Sort

/- The YAML configuration: `domain/config`, and `MatchProfile` over it.

   `validate` runs the field constraints and the validators of each model; a
   `VshiftConfig` is a configuration they accept. What the program asks of the
   platform (Unicode lower-casing, `fnmatch`, the canonical form of a path) is a
   parameter. -/
namespace Vshift

/-- The parts of the standard library and the file system that are not modelled. -/
structure Platform where
  /-- `text.lower()` -/
  lower : String → String
  /-- `fnmatch.fnmatch(name, pattern)` -/
  fnmatch : String → String → Bool
  /-- `str(path.expanduser().resolve())`, of paths whose user is known and that can be encoded as a
      key: no failure of these is modelled. -/
  canonicalPath : Path → String

/-- pydantic validates every field before it reports: a `VShiftException` raised inside a
    validator escapes at once, the other failures are reported together at the end. -/
def collect : List (Except Exn Unit) → Except Exn Unit
  | [] => .ok ()
  | .ok () :: rest => collect rest
  | .error (.vshift message) :: _ => .error (.vshift message)
  | .error (.other name) :: rest =>
    match collect rest with
    | .error (.vshift message) => .error (.vshift message)
    | _ => .error (.other name)

theorem collect_of_ok {results : List (Except Exn Unit)} (h : ∀ result ∈ results, result = .ok ()) :
    collect results = .ok () := by
  induction results with
  | nil => rfl
  | cons head rest ih =>
    obtain ⟨hhead, hrest⟩ := List.forall_mem_cons.mp h
    rw [hhead]
    exact ih hrest

structure ProbedInput where
  path : Path
  extension : String
  width : Option Int := none
  height : Option Int := none
  bitDepth : Option Int := none
  hdr : Option Bool := none
  durationSeconds : Option PyFloat := none
  deriving DecidableEq

inductive NoMatchAction where
  | ignore | reject | defaultProfile
  deriving DecidableEq, Repr

namespace NoMatchAction

def value : NoMatchAction → String
  | ignore => "ignore"
  | reject => "reject"
  | defaultProfile => "default_profile"

def members : List NoMatchAction := [ignore, reject, defaultProfile]

end NoMatchAction

inductive InputAfterSuccess where
  | keep | delete | move
  deriving DecidableEq, Repr

namespace InputAfterSuccess

def value : InputAfterSuccess → String
  | keep => "keep"
  | delete => "delete"
  | move => "move"

def members : List InputAfterSuccess := [keep, delete, move]

end InputAfterSuccess

structure MatchCriteria where
  extensions : List String := []
  minWidth : Option Int := none
  maxWidth : Option Int := none
  minHeight : Option Int := none
  maxHeight : Option Int := none
  minBitDepth : Option Int := none
  maxBitDepth : Option Int := none
  hdr : Option Bool := none
  filenameGlob : Option String := none
  deriving DecidableEq, Repr

namespace MatchCriteria

/-- A bound pair is out of order when both are set and the lower one is greater. -/
def crossed (minimum maximum : Option Int) : Bool :=
  match minimum, maximum with
  | some low, some high => high < low
  | _, _ => false

/-- `Field(ge=low, le=high)` on an optional integer. -/
def within (low : Int) (high : Option Int) (value : Option Int) : Bool :=
  value.all (fun v => low ≤ v && high.all (v ≤ ·))

def validate (c : MatchCriteria) : Except Exn Unit :=
  if !(within 1 none c.minWidth && within 1 none c.maxWidth && within 1 none c.minHeight &&
      within 1 none c.maxHeight && within 8 (some 12) c.minBitDepth &&
      within 8 (some 12) c.maxBitDepth) then .error (.other "ValidationError")
  else if crossed c.minWidth c.maxWidth then
    .error (.vshift "min_width cannot exceed max_width")
  else if crossed c.minHeight c.maxHeight then
    .error (.vshift "min_height cannot exceed max_height")
  else if crossed c.minBitDepth c.maxBitDepth then
    .error (.vshift "min_bit_depth cannot exceed max_bit_depth")
  else .ok ()

def matchesDimension (value minimum maximum : Option Int) : Bool :=
  match minimum, maximum, value with
  | none, none, _ => true
  | _, _, none => false
  | minimum, maximum, some v => minimum.all (· ≤ v) && maximum.all (v ≤ ·)

def matchesHdr (value expected : Option Bool) : Bool :=
  match expected, value with
  | none, _ => true
  | some _, none => false
  | some e, some v => v == e

def «matches» (py : Platform) (c : MatchCriteria) (probed : ProbedInput) : Bool :=
  (c.extensions.isEmpty || py.lower probed.extension ∈ c.extensions) &&
  c.filenameGlob.all (fun glob => py.fnmatch (String.ofList probed.path.name) glob) &&
  matchesDimension probed.width c.minWidth c.maxWidth &&
  matchesDimension probed.height c.minHeight c.maxHeight &&
  matchesDimension probed.bitDepth c.minBitDepth c.maxBitDepth &&
  matchesHdr probed.hdr c.hdr

end MatchCriteria

structure MatchRule where
  id : String
  priority : Int := 100
  criteria : MatchCriteria
  profile : String
  deriving DecidableEq, Repr

namespace MatchRule

/-- `Field(min_length=1)`, then `validate_non_blank`. -/
def validateNonBlank (value : String) : Except Exn Unit :=
  if value = "" then .error (.other "ValidationError")
  else if isBlank value then
    .error (.vshift "match rule id and profile must not be blank")
  else .ok ()

def validate (rule : MatchRule) : Except Exn Unit :=
  collect [validateNonBlank rule.id,
    if rule.priority < 0 then .error (.other "ValidationError") else .ok (),
    rule.criteria.validate, validateNonBlank rule.profile]

def «matches» (py : Platform) (rule : MatchRule) (probed : ProbedInput) : Bool :=
  rule.criteria.matches py probed

end MatchRule

structure BehaviorSettings where
  noMatch : NoMatchAction := .ignore
  defaultProfile : Option String := none
  inputAfterSuccess : InputAfterSuccess := .keep
  inputMoveDir : Option Path := none
  fileStabilitySeconds : PositiveInt := 10
  maxRetries : PositiveInt := 3

def BehaviorSettings.validate (behavior : BehaviorSettings) : Except Exn Unit :=
  if behavior.noMatch = .defaultProfile ∧ behavior.defaultProfile.all (· = "") then
    .error (.vshift "default_profile is required when no_match is default_profile")
  else if behavior.inputAfterSuccess = .move ∧ behavior.inputMoveDir = none then
    .error (.vshift "input_move_dir is required when input_after_success is move")
  else .ok ()

structure ConfigDirectories where
  input : Path
  output : Path
  temp : Path

/-- A configuration document with typed fields, before the validators. `profiles` is the
    dictionary as an association list in document order. -/
structure RawConfig where
  version : String := "1"
  behavior : BehaviorSettings := {}
  directories : ConfigDirectories
  profiles : List (String × VshiftProfile)
  rules : List MatchRule := []

namespace RawConfig

def profile? (config : RawConfig) (name : String) : Option VshiftProfile :=
  config.profiles.lookup name

/-- `validate_config` -/
def validateConfig (config : RawConfig) : Except Exn Unit :=
  if config.profiles.isEmpty then .error (.vshift "at least one profile is required")
  else if config.behavior.noMatch = .defaultProfile ∧
      (config.behavior.defaultProfile.bind config.profile?).isNone then
    .error (.vshift "default_profile must reference an existing profile")
  else if ¬ (config.rules.map (·.id)).Nodup then
    .error (.vshift "match rule ids must be unique")
  else match config.rules.find? (fun rule => (config.profile? rule.profile).isNone) with
    | some rule => .error (.vshift
        ("rule '" ++ rule.id ++ "' references unknown profile '" ++ rule.profile ++ "'"))
    | none => .ok ()

def validate (config : RawConfig) : Except Exn Unit := do
  collect (config.behavior.validate ::
    (config.profiles.map (fun entry => entry.2.validate) ++ config.rules.map MatchRule.validate))
  config.validateConfig

end RawConfig

/-- A configuration the validators accept. -/
structure VshiftConfig extends RawConfig where
  accepted : toRawConfig.validate = .ok ()

/-- `application/server/use_cases/models.py` -/
structure ProfileMatch where
  ruleId : String
  profileName : String
  profile : VshiftProfile
  deriving DecidableEq

/-- `ProfileMatcher.match`: the first matching rule by ascending priority. -/
def profileMatcher (py : Platform) (rules : List MatchRule) (probed : ProbedInput) :
    Option MatchRule :=
  (rules.insertionSort (fun a b => a.priority ≤ b.priority)).find?
    (fun rule => rule.matches py probed)

/-- `MatchProfile.execute` -/
def matchProfile (py : Platform) (config : RawConfig) (probed : ProbedInput) :
    Except Exn (Option ProfileMatch) :=
  match profileMatcher py config.rules probed with
  | some rule =>
    match config.profile? rule.profile with
    | some profile => .ok (some ⟨rule.id, rule.profile, profile⟩)
    | none => .error (.other "KeyError")
  | none =>
    match config.behavior.noMatch with
    | .ignore => .ok none
    | .reject => .ok none
    | .defaultProfile =>
      match config.behavior.defaultProfile with
      | none => .error
          (.vshift "default_profile is required when no_match is default_profile")
      | some name =>
        match config.profile? name with
        | some profile => .ok (some ⟨"__default__", name, profile⟩)
        | none => .error (.other "KeyError")

end Vshift
