import Vshift.ConfigDocument

/- `YamlConfigLoader`: `infrastructure/filesystem/yaml_config_loader.py`.

   A profile entry `{ $ref: p }` is replaced by the mapping in the file `p`, once: what
   the file holds is passed on as it is. A `$ref` of its own is then a key that no model
   reads, whereas in the configuration itself it would be resolved, or refused next to
   other keys. So a reference stands for its mapping without that key
   (`profile_refs_transparent`), and not for the mapping itself (`refs_not_transparent`). -/
namespace Vshift
open Document

/-- The files the loader sees. -/
structure ConfigFiles where
  /-- `path.is_file()` -/
  isFile : Path → Except Exn Bool
  /-- `path.read_text(encoding="utf-8")` -/
  readText : Path → Except Exn String

/-- What the loader asks of Python, PyYAML and pydantic. -/
structure YamlSupport where
  py : Platform
  /-- `repr(value)` of a container -/
  repr : Yaml → String
  /-- `yaml.safe_load(text)` -/
  safeLoad : String → Except Exn Yaml
  lax : Lax
  /-- `str(exc)` of the `ValidationError` that these data lead to -/
  report : YamlDict → String

/-- `d[key] = value` -/
def YamlDict.set (d : YamlDict) (key : String) (value : Yaml) : YamlDict :=
  assign (Yaml.isStr key) (.str key) value d

/-- A relative reference is resolved against the directory of the configuration. -/
def referencePath (configDir : Path) (ref : String) : Path :=
  let refPath := Path.parse ref
  if refPath.root = [] then configDir.join refPath else refPath

namespace YamlSupport
variable (yaml : YamlSupport) (files : ConfigFiles)

/-- The end of `_resolve_profile_entry`, for a `$ref` that is a text. -/
def loadReference (refPath : Path) (profileName : Yaml) : Except Exn Yaml := do
  let found ← files.isFile refPath
  if !found then
    .error (.vshift ("profile '" ++ profileName.toText yaml.repr ++ "' reference not found: " ++
      refPath.str))
  else do
    let text ← files.readText refPath
    match ← yaml.safeLoad text with
    | .map loaded => .ok (.map loaded)
    | _ => .error (.vshift ("profile '" ++ profileName.toText yaml.repr ++
        "' reference must be a mapping: " ++ refPath.str))

def resolveProfileEntry (profileData : Yaml) (configDir : Path) (profileName : Yaml) :
    Except Exn Yaml :=
  match profileData with
  | .map profileDict =>
    match YamlDict.get profileDict "$ref" with
    | none => .ok (.map profileDict)
    | some refValue =>
      if !profileDict.all (fun entry => entry.1.isStr "$ref") then
        .error (.vshift ("profile '" ++ profileName.toText yaml.repr ++
          "' $ref entry must only contain the $ref key"))
      else
        let invalid : Exn := .vshift ("profile '" ++ profileName.toText yaml.repr ++
          "' has an invalid $ref value")
        match refValue with
        | .str ref =>
          if isBlank ref then .error invalid
          else yaml.loadReference files (referencePath configDir ref) profileName
        | _ => .error invalid
  | profileData => .ok profileData

/-- An item of `profiles` with its entry resolved. -/
def resolveItem (configDir : Path) (item : Yaml × Yaml) : Except Exn (Yaml × Yaml) := do
  let resolved ← yaml.resolveProfileEntry files item.2 configDir item.1
  pure (item.1, resolved)

def resolveProfileRefs (data : YamlDict) (configDir : Path) : Except Exn YamlDict :=
  match data.get "profiles" with
  | some (.map profiles) => do
    let resolvedProfiles ← profiles.mapM (yaml.resolveItem files configDir)
    pure (data.set "profiles" (.map resolvedProfiles))
  | _ => .ok data

/-- `VshiftConfig.model_validate(data)`, whose `ValidationError` becomes a `VShiftException`. -/
def validateData (data : YamlDict) : Except Exn VshiftConfig :=
  match modelValidate yaml.lax yaml.py yaml.repr data with
  | .ok config => .ok config
  | .error (.raised e) => .error e
  | .error .invalid => .error (.vshift ("invalid configuration: " ++ yaml.report data))

def load (path : Path) : Except Exn VshiftConfig := do
  let found ← files.isFile path
  if !found then .error (.vshift ("config file not found: " ++ path.str))
  else do
    let text ← files.readText path
    match ← yaml.safeLoad text with
    | .map raw => do
      let data ← yaml.resolveProfileRefs files raw path.parent
      yaml.validateData data
    | _ => .error (.vshift "config root must be a mapping")

end YamlSupport

/-! Dictionaries. -/

theorem Yaml.isStr_iff {text : String} {key : Yaml} : key.isStr text = true ↔ key = .str text := by
  cases key <;> simp [isStr]

namespace YamlDict
variable {d : YamlDict} {key other : String} {value : Yaml}

/-- The entries under other keys. -/
def without (d : YamlDict) (key : String) : YamlDict := d.filter fun entry => !entry.1.isStr key

theorem get_set_self : (d.set key value).get key = some value :=
  find?_assign_self (Yaml.isStr_iff.mpr rfl)

theorem isStr_of_ne (h : other ≠ key) {k : Yaml} (hk : k.isStr key = true) :
    k.isStr other = false := by
  rw [Yaml.isStr_iff.mp hk]
  exact beq_false_of_ne h.symm

theorem get_set_of_ne (h : other ≠ key) : (d.set key value).get other = d.get other :=
  find?_assign_other (fun _ => isStr_of_ne h) (Yaml.isStr_iff.mpr rfl)

theorem get_without_self : (d.without key).get key = none := by
  rw [get, Option.map_eq_none_iff, List.find?_eq_none]
  intro entry hentry
  have hkey := (List.mem_filter.mp hentry).2
  rw [Bool.not_eq_true'] at hkey
  exact Bool.not_eq_true _ ▸ hkey

theorem get_without_of_ne (h : other ≠ key) : (d.without key).get other = d.get other := by
  unfold get without
  rw [List.find?_filter]
  congr 2
  funext entry
  cases hother : entry.1.isStr other with
  | false => simp
  | true =>
    have hkey : entry.1.isStr key = false := isStr_of_ne (Ne.symm h) hother
    simp [hkey]

theorem any_of_get (h : d.get key = some value) :
    (d.any fun entry => entry.1.isStr key) = true := by
  obtain ⟨entry, hfound, -⟩ := Option.map_eq_some_iff.mp h
  have hkey := List.find?_some hfound
  exact List.any_eq_true.mpr ⟨entry, List.mem_of_find?_eq_some hfound, hkey⟩

end YamlDict

/-! A profile is read from the keys of its fields. -/

section
variable {lax : Lax}

theorem vshiftProfile_names : lax.vshiftProfile.names =
    ["name", "description", "format", "video", "audio_tracks", "audio_selection_mode",
      "audio_language_list", "audio_passthrough", "subtitle_tracks", "subtitle_selection_mode",
      "subtitle_language_list", "subtitle_passthrough", "chapter_markers", "optimize"] := rfl

/-- A profile written with another value, or none, under a key of no field. -/
theorem profile_of_unnamed {d d' : YamlDict} {key : String}
    (hkey : key ∉ lax.vshiftProfile.names) (h : ∀ other, other ≠ key → d.get other = d'.get other) :
    ofDict lax.vshiftProfile (.map d) = ofDict lax.vshiftProfile (.map d') :=
  lax.vshiftProfile.read_of_unnamed hkey h

theorem profile_without_ref (d : YamlDict) : ofDict lax.vshiftProfile (.map (d.without "$ref")) =
    ofDict lax.vshiftProfile (.map d) := by
  have hkey : "$ref" ∉ lax.vshiftProfile.names := by
    rw [vshiftProfile_names]
    decide
  exact profile_of_unnamed hkey fun _ => YamlDict.get_without_of_ne

theorem profile_set_profiles (d : YamlDict) (value : Yaml) :
    ofDict lax.vshiftProfile (.map (d.set "profiles" value)) =
      ofDict lax.vshiftProfile (.map d) := by
  have hkey : "profiles" ∉ lax.vshiftProfile.names := by
    rw [vshiftProfile_names]
    decide
  exact profile_of_unnamed hkey fun _ => YamlDict.get_set_of_ne

end

/-! One entry. -/

/-- `{ $ref: ref }` -/
def refEntry (ref : String) : Yaml := .map [(.str "$ref", .str ref)]

/-- A mapping with the key `$ref`. -/
def Yaml.hasRef : Yaml → Bool
  | .map entries => (YamlDict.get entries "$ref").isSome
  | _ => false

theorem hasRef_without (d : YamlDict) : (Yaml.map (d.without "$ref")).hasRef = false := by
  rw [Yaml.hasRef, YamlDict.get_without_self]
  rfl

namespace YamlSupport
variable (yaml : YamlSupport) {files files' : ConfigFiles}

/-- The file holds this mapping. -/
def Holds (files : ConfigFiles) (p : Path) (entries : YamlDict) : Prop :=
  files.isFile p = .ok true ∧
    ∃ text, files.readText p = .ok text ∧ yaml.safeLoad text = .ok (.map entries)

/-- The files after an edit: each is what it was, or held the old mapping and holds the new. -/
def Edited (old new : YamlDict) (files files' : ConfigFiles) : Prop :=
  ∀ p, files'.isFile p = files.isFile p ∧ files'.readText p = files.readText p ∨
    yaml.Holds files p old ∧ yaml.Holds files' p new

variable {yaml}

theorem loadReference_of_holds {p : Path} {m : YamlDict} (h : yaml.Holds files p m)
    (profileName : Yaml) : yaml.loadReference files p profileName = .ok (.map m) := by
  obtain ⟨hfile, text, htext, hload⟩ := h
  simp only [loadReference, hfile, htext, hload, bind, Except.bind]
  rfl

theorem resolve_plain {value : Yaml} (h : value.hasRef = false) (configDir : Path) (name : Yaml) :
    yaml.resolveProfileEntry files value configDir name = .ok value := by
  cases value with
  | map entries =>
    have hnone : YamlDict.get entries "$ref" = none := by simpa [Yaml.hasRef] using h
    rw [resolveProfileEntry, hnone]
  | _ => rfl

theorem resolve_refEntry {configDir : Path} {ref : String} {m : YamlDict}
    (href : isBlank ref = false) (h : yaml.Holds files (referencePath configDir ref) m)
    (name : Yaml) :
    yaml.resolveProfileEntry files (refEntry ref) configDir name = .ok (.map m) := by
  rw [← loadReference_of_holds h name]
  simp [resolveProfileEntry, refEntry, YamlDict.get, Yaml.isStr, href]

/-- An entry resolved before and after an edit that leaves the old mapping as a profile as it
    was. -/
theorem resolve_edited {old new : YamlDict} (hedited : yaml.Edited old new files files')
    (hprofile : ofDict yaml.lax.vshiftProfile (.map old) = ofDict yaml.lax.vshiftProfile (.map new))
    (value : Yaml) (configDir : Path) (name : Yaml) :
    (yaml.resolveProfileEntry files' value configDir name).map (ofDict yaml.lax.vshiftProfile) =
      (yaml.resolveProfileEntry files value configDir name).map
        (ofDict yaml.lax.vshiftProfile) := by
  have hreference : ∀ p, (yaml.loadReference files' p name).map (ofDict yaml.lax.vshiftProfile) =
      (yaml.loadReference files p name).map (ofDict yaml.lax.vshiftProfile) := by
    intro p
    rcases hedited p with ⟨hfile, htext⟩ | ⟨hold, hnew⟩
    · rw [loadReference, loadReference, hfile, htext]
    · rw [loadReference_of_holds hold, loadReference_of_holds hnew]
      exact congrArg Except.ok hprofile.symm
  cases value with
  | map entries =>
    simp only [resolveProfileEntry]
    cases YamlDict.get entries "$ref" with
    | none => rfl
    | some refValue =>
      dsimp only
      split
      · rfl
      · cases refValue with
        | str ref =>
          dsimp only
          split
          · rfl
          · exact hreference _
        | _ => rfl
  | _ => rfl

/-! A whole configuration. -/

theorem resolveProfileRefs_of_profiles {data : YamlDict} {profiles : YamlDict}
    (h : data.get "profiles" = some (.map profiles)) (configDir : Path) :
    yaml.resolveProfileRefs files data configDir =
      (profiles.mapM (yaml.resolveItem files configDir)).map fun resolved =>
        data.set "profiles" (.map resolved) := by
  rw [resolveProfileRefs, h]
  dsimp only
  cases profiles.mapM (yaml.resolveItem files configDir) <;> rfl

/-- Loading a configuration that the file holds. -/
theorem load_of_holds {path : Path} {raw : YamlDict} (h : yaml.Holds files path raw) :
    yaml.load files path =
      yaml.resolveProfileRefs files raw path.parent >>= yaml.validateData := by
  obtain ⟨hfile, text, htext, hload⟩ := h
  simp only [load, hfile, htext, hload, bind, Except.bind]
  rfl

/-- Configurations whose profiles are read alike, and whose other sections are the same. -/
theorem validateData_congr {data data' : YamlDict} {profiles profiles' : YamlDict}
    (hother : ∀ key, key ≠ "profiles" → data.get key = data'.get key)
    (hold : data.get "profiles" = some (.map profiles))
    (hnew : data'.get "profiles" = some (.map profiles'))
    (hprofiles : profiles.map yaml.lax.profileItem = profiles'.map yaml.lax.profileItem) :
    (yaml.validateData data).toOption = (yaml.validateData data').toOption := by
  have hread : yaml.lax.profiles (.map profiles) = yaml.lax.profiles (.map profiles') :=
    congrArg (Except.map Lax.namedProfiles) (readAll_congr hprofiles)
  have hfields : (yaml.lax.rawConfig yaml.py yaml.repr).read data.get =
      (yaml.lax.rawConfig yaml.py yaml.repr).read data'.get := by
    simp only [Lax.rawConfig, Reader.map, Reader.and, Reader.field, hold, hnew, hread,
      hother "version" (by decide), hother "behavior" (by decide),
      hother "directories" (by decide), hother "rules" (by decide)]
  unfold validateData
  rw [modelValidate_congr hfields]
  cases modelValidate yaml.lax yaml.py yaml.repr data' with
  | ok config => rfl
  | error e => cases e <;> rfl

/-- The item a resolved one is read as. -/
theorem resolveItem_read (configDir : Path) (item : Yaml × Yaml) :
    (yaml.resolveItem files configDir item).map yaml.lax.profileItem =
      ((yaml.resolveProfileEntry files item.2 configDir item.1).map
        (ofDict yaml.lax.vshiftProfile)).map (both (yaml.lax.text item.1)) := by
  unfold resolveItem
  cases yaml.resolveProfileEntry files item.2 configDir item.1 <;> rfl

/-- Two lists of entries that are read alike once they are resolved. -/
theorem load_congr {path path' : Path} {raw : YamlDict} {profiles profiles' : YamlDict}
    (hprofiles : raw.get "profiles" = some (.map profiles))
    (hold : yaml.Holds files path raw)
    (hnew : yaml.Holds files' path' (raw.set "profiles" (.map profiles')))
    (hitems : List.Forall₂ (fun item item' =>
      (yaml.resolveItem files path.parent item).map yaml.lax.profileItem =
        (yaml.resolveItem files' path'.parent item').map yaml.lax.profileItem)
      profiles profiles') :
    (yaml.load files path).toOption = (yaml.load files' path').toOption := by
  have hread := mapM_congr hitems
  rw [← mapM_map, ← mapM_map] at hread
  rw [load_of_holds hold, load_of_holds hnew, resolveProfileRefs_of_profiles hprofiles,
    resolveProfileRefs_of_profiles YamlDict.get_set_self]
  cases hres : profiles.mapM (yaml.resolveItem files path.parent) with
  | error e =>
    cases hres' : profiles'.mapM (yaml.resolveItem files' path'.parent) with
    | error e' => rfl
    | ok resolved' =>
      rw [hres, hres'] at hread
      cases hread
  | ok resolved =>
    cases hres' : profiles'.mapM (yaml.resolveItem files' path'.parent) with
    | error e' =>
      rw [hres, hres'] at hread
      cases hread
    | ok resolved' =>
      rw [hres, hres'] at hread
      refine validateData_congr ?_ YamlDict.get_set_self YamlDict.get_set_self
        (Except.ok.inj hread)
      intro key hkey
      rw [YamlDict.get_set_of_ne hkey, YamlDict.get_set_of_ne hkey, YamlDict.get_set_of_ne hkey]

end YamlSupport

/-- What resolving the references passes on. -/
structure PassedOn (raw data : YamlDict) : Prop where
  /-- The sections in their order, all but the profiles as they were. -/
  sections : List.Forall₂ (fun e e' => e'.1 = e.1 ∧ (e.1.isStr "profiles" = false → e'.2 = e.2))
    raw data
  /-- The profiles in their order under their names, those without a reference as they were. -/
  profiles : ∀ entries, raw.get "profiles" = some (.map entries) →
    ∃ resolved, data.get "profiles" = some (.map resolved) ∧
      List.Forall₂ (fun e e' => e'.1 = e.1 ∧ (e.2.hasRef = false → e'.2 = e.2)) entries resolved
  /-- Everything, where `profiles` is no mapping. -/
  unresolved : (∀ entries, raw.get "profiles" ≠ some (.map entries)) → data = raw

namespace YamlSupport
variable {yaml : YamlSupport} {files files' : ConfigFiles}

theorem resolveItem_ok {configDir : Path} {item item' : Yaml × Yaml}
    (h : yaml.resolveItem files configDir item = .ok item') :
    item'.1 = item.1 ∧ (item.2.hasRef = false → item'.2 = item.2) := by
  obtain ⟨resolved, hresolved, hitem⟩ := except_bind_ok h
  cases hitem
  refine ⟨rfl, ?_⟩
  intro hplain
  rw [resolve_plain hplain] at hresolved
  exact (Except.ok.inj hresolved).symm

theorem resolveProfileRefs_passedOn {raw data : YamlDict} {configDir : Path}
    (h : yaml.resolveProfileRefs files raw configDir = .ok data) : PassedOn raw data := by
  by_cases hmap : ∃ entries, raw.get "profiles" = some (.map entries)
  · obtain ⟨entries, hentries⟩ := hmap
    rw [resolveProfileRefs_of_profiles hentries] at h
    obtain ⟨resolved, hresolved, rfl⟩ := map_ok.mp h
    refine ⟨assign_forall₂ (YamlDict.any_of_get hentries), ?_,
      fun hnone => absurd hentries (hnone _)⟩
    intro entries' hentries'
    rw [hentries] at hentries'
    cases hentries'
    refine ⟨resolved, YamlDict.get_set_self, ?_⟩
    exact (mapM_ok_iff.mp hresolved).imp fun _ _ => resolveItem_ok
  · have hdata : data = raw := by
      rw [resolveProfileRefs] at h
      split at h
      · next entries hentries => exact absurd ⟨entries, hentries⟩ hmap
      · exact (Except.ok.inj h).symm
    subst hdata
    refine ⟨List.forall₂_same.mpr fun _ _ => ⟨rfl, fun _ => rfl⟩, ?_, fun _ => rfl⟩
    exact fun entries hentries => absurd ⟨entries, hentries⟩ hmap

end YamlSupport

/-- The configuration at `path'` is the one at `path` with a profile entry `{ $ref: ref }` replaced
    by what is `written` for `m`, the mapping that the reference holds; `files'` are the files
    after that edit. -/
inductive Inlined (yaml : YamlSupport) (written : YamlDict → YamlDict) (files files' : ConfigFiles)
    (path path' : Path) (ref : String) : Prop
  | intro {raw before after m : YamlDict} {name : Yaml}
      (profiles : raw.get "profiles" = some (.map (before ++ (name, refEntry ref) :: after)))
      (reference : yaml.Holds files (referencePath path.parent ref) m)
      (old : yaml.Holds files path raw)
      (new : yaml.Holds files' path'
        (raw.set "profiles" (.map (before ++ (name, .map (written m)) :: after))))
      (edited : yaml.Edited raw
        (raw.set "profiles" (.map (before ++ (name, .map (written m)) :: after))) files files')
      (directory : path'.parent = path.parent)

/-- A reference stands for the mapping in its file without a reference of its own, which is never
    resolved; and whatever is no reference is passed on as it is. -/
theorem profile_refs_transparent (yaml : YamlSupport) :
    (∀ files files' path path' ref,
      Inlined yaml (fun m => m.without "$ref") files files' path path' ref → isBlank ref = false →
      (yaml.load files path).toOption = (yaml.load files' path').toOption) ∧
    ∀ files raw configDir data, yaml.resolveProfileRefs files raw configDir = .ok data →
      PassedOn raw data := by
  refine ⟨?_, fun _ _ _ _ => YamlSupport.resolveProfileRefs_passedOn⟩
  intro files files' path path' ref h href
  obtain @⟨raw, before, after, m, name, hprofiles, hreference, hold, hnew, hedited, hdir⟩ := h
  have hsame : ∀ items : YamlDict, List.Forall₂ (fun item item' =>
      (yaml.resolveItem files path.parent item).map yaml.lax.profileItem =
        (yaml.resolveItem files' path'.parent item').map yaml.lax.profileItem) items items := by
    intro items
    apply List.forall₂_same.mpr
    intro item _
    rw [YamlSupport.resolveItem_read, YamlSupport.resolveItem_read, hdir,
      YamlSupport.resolve_edited hedited (profile_set_profiles raw _).symm]
  apply YamlSupport.load_congr hprofiles hold hnew
  refine List.rel_append (hsame before) (.cons ?_ (hsame after))
  -- the reference resolves to `m`, which is read as a profile like `m` without its own reference
  rw [YamlSupport.resolveItem_read, YamlSupport.resolveItem_read,
    YamlSupport.resolve_refEntry href hreference, YamlSupport.resolve_plain]
  · exact congrArg (fun read => Except.ok (both (yaml.lax.text name) read))
      (profile_without_ref m).symm
  · exact hasRef_without m

/-! A configuration with one profile, whose file has a reference of its own. -/

/-- Values that have the type a field asks for. -/
def sameType : Lax where
  str | .str text => some text
      | _ => none
  int | .int n => some n
      | _ => none
  float | .int n => some (.finite n)
        | _ => none
  bool | .bool b => some b
       | _ => none
  items | .seq items => some items
        | _ => none
  literal | .int n => some n
          | _ => none

def configText (entry : String) : String :=
  "directories:\n  input: /in\n  output: /out\n  temp: /tmp\nprofiles:\n  p:\n" ++ entry

def configDoc (entry : Yaml) : YamlDict :=
  [(.str "directories", .map [(.str "input", .str "/in"), (.str "output", .str "/out"),
      (.str "temp", .str "/tmp")]),
    (.str "profiles", .map [(.str "p", entry)])]

/-- The mapping in `p.yaml`. -/
def nested : YamlDict :=
  [(.str "name", .str "P"), (.str "format", .str "mp4"),
    (.str "video", .map [(.str "codec", .str "h264")]), (.str "$ref", .str "q.yaml")]

def nestedText : String := "name: P\nformat: mp4\nvideo:\n  codec: h264\n$ref: q.yaml\n"

/-- The entry as a reference, as the mapping in `p.yaml`, and as that mapping without its
    reference. -/
def referring : String := "    $ref: p.yaml\n"

def verbatim : String :=
  "    name: P\n    format: mp4\n    video:\n      codec: h264\n    $ref: q.yaml\n"

def stripped : String := "    name: P\n    format: mp4\n    video:\n      codec: h264\n"

/-- What the texts above are read as. -/
def smallLoad (text : String) : Except Exn Yaml :=
  if text = configText referring then .ok (.map (configDoc (refEntry "p.yaml")))
  else if text = configText verbatim then .ok (.map (configDoc (.map nested)))
  else if text = configText stripped then .ok (.map (configDoc (.map (nested.without "$ref"))))
  else if text = nestedText then .ok (.map nested)
  else .error (.other "ScannerError")

def smallYaml : YamlSupport where
  py := posix
  repr _ := ""
  safeLoad := smallLoad
  lax := sameType
  report _ := ""

theorem smallLoad_referring :
    smallLoad (configText referring) = .ok (.map (configDoc (refEntry "p.yaml"))) := by
  rw [smallLoad, if_pos rfl]

theorem smallLoad_verbatim :
    smallLoad (configText verbatim) = .ok (.map (configDoc (.map nested))) := by
  rw [smallLoad, if_neg (by decide +kernel), if_pos rfl]

theorem smallLoad_stripped : smallLoad (configText stripped) =
    .ok (.map (configDoc (.map (nested.without "$ref")))) := by
  rw [smallLoad, if_neg (by decide +kernel), if_neg (by decide +kernel), if_pos rfl]

theorem smallLoad_nested : smallLoad nestedText = .ok (.map nested) := by
  rw [smallLoad, if_neg (by decide +kernel), if_neg (by decide +kernel),
    if_neg (by decide +kernel), if_pos rfl]

def configPath : Path := .parse "/config/vshift.yaml"

/-- The configuration with this entry, and `p.yaml` beside it. -/
def configFiles (entry : String) : ConfigFiles where
  isFile p := .ok (p = configPath ∨ p = .parse "/config/p.yaml")
  readText p :=
    if p = configPath then .ok (configText entry)
    else if p = .parse "/config/p.yaml" then .ok nestedText
    else .error (.other "FileNotFoundError")

theorem holds_nested (entry : String) :
    smallYaml.Holds (configFiles entry) (referencePath configPath.parent "p.yaml") nested :=
  ⟨rfl, nestedText, rfl, smallLoad_nested⟩

/-- The entry replaced by what is written for the mapping in `p.yaml`. -/
theorem inlined_nested {written : YamlDict → YamlDict} {entry : String}
    (h : smallLoad (configText entry) = .ok (.map (configDoc (.map (written nested))))) :
    Inlined smallYaml written (configFiles referring) (configFiles entry) configPath configPath
      "p.yaml" := by
  have hold : smallYaml.Holds (configFiles referring) configPath (configDoc (refEntry "p.yaml")) :=
    ⟨rfl, _, rfl, smallLoad_referring⟩
  have hnew : smallYaml.Holds (configFiles entry) configPath (configDoc (.map (written nested))) :=
    ⟨rfl, _, rfl, h⟩
  refine @Inlined.intro _ _ _ _ _ _ _ _ [] [] nested (.str "p") rfl (holds_nested referring)
    hold hnew ?_ rfl
  intro p
  by_cases hp : p = configPath
  · subst hp
    exact .inr ⟨hold, hnew⟩
  · exact .inl ⟨rfl, by simp only [configFiles, if_neg hp]⟩

theorem profile_refs_transparent_nested :
    (smallYaml.load (configFiles referring) configPath).toOption =
      (smallYaml.load (configFiles stripped) configPath).toOption ∧
    PassedOn (configDoc (refEntry "p.yaml")) (configDoc (.map nested)) := by
  have h := profile_refs_transparent smallYaml
  refine ⟨h.1 _ _ _ _ _ (inlined_nested smallLoad_stripped) (by decide), ?_⟩
  apply h.2 (configFiles referring) _ configPath.parent
  rw [YamlSupport.resolveProfileRefs_of_profiles rfl, List.mapM_cons, YamlSupport.resolveItem,
    YamlSupport.resolve_refEntry (by decide) (holds_nested referring)]
  rfl

/-- The mapping written in place of the reference is refused: its `$ref` is next to other keys. -/
theorem refs_not_transparent : ¬ ∀ yaml files files' path path' ref,
    Inlined yaml (fun m => m) files files' path path' ref →
      (yaml.load files path).toOption = (yaml.load files' path').toOption := by
  intro h
  have hload := h _ _ _ _ _ _ (inlined_nested smallLoad_verbatim)
  have hold : (smallYaml.load (configFiles referring) configPath).toOption.isSome = true := by
    decide +kernel
  have hnew : (smallYaml.load (configFiles verbatim) configPath).toOption.isSome = false := by
    decide +kernel
  rw [hload, hnew] at hold
  cases hold

end Vshift
