import Vshift.Handbrake
import Mathlib.Data.List.Forall2

/- Trees of HandBrake presets.

   The importer walks a document's folders and brings each preset's keys up to date on
   the way down, and once more when it reads the preset. `leafPresets` is the presets of a
   document as they stand in it; since bringing up to date is idempotent
   (`normalize_normalize`), the walk reads exactly these, in their order
   (`iter_eq`). Folders and what is no dictionary leave no trace in them
   (`Rearranged.leafPresets_eq`). -/
namespace Vshift
open Document

/-! Dictionaries brought up to date. -/

/-- The old key of a new one. -/
def legacyKeys : List (String × String) := [
  ("VideoMultiPass", "VideoTwoPass"), ("VideoTurboMultiPass", "VideoTurboTwoPass"),
  ("Optimize", "Mp4HttpOptimize")]

/-- What a dictionary brought up to date has under a key. -/
theorem lookup_normalize_eq (d : JsonDict) (key : String) :
    (normalizeHandbrakeDict d).lookup key =
      (d.lookup key).or ((legacyKeys.lookup key).bind (d.lookup ·)) := by
  by_cases hkey : key ∈ modernKeys
  · simp only [modernKeys, List.mem_cons, List.not_mem_nil, or_false] at hkey
    rcases hkey with rfl | rfl | rfl <;>
      simp [normalizeHandbrakeDict, lookup_migrate, legacyKeys, List.lookup_cons]
  · rw [lookup_normalize hkey]
    have hnone : legacyKeys.lookup key = none := by
      simp only [modernKeys, List.mem_cons, List.not_mem_nil, or_false, not_or] at hkey
      simp only [legacyKeys, List.lookup_cons, beq_false_of_ne hkey.1, beq_false_of_ne hkey.2.1,
        beq_false_of_ne hkey.2.2, List.lookup_nil]
    rw [hnone, Option.bind_none, Option.or_none]

/-- A dictionary with a new key, or without its old one, is left as it is. -/
theorem migrate_settled {legacy modern : String} {d : JsonDict}
    (h : d.lookup legacy ≠ none → d.lookup modern ≠ none) : migrate legacy modern d = d := by
  unfold migrate
  split
  · next value hlegacy hmodern =>
    rw [hlegacy] at h
    exact absurd hmodern (h (Option.some_ne_none value))
  · rfl

theorem normalize_normalize (d : JsonDict) :
    normalizeHandbrakeDict (normalizeHandbrakeDict d) = normalizeHandbrakeDict d := by
  have hsettled : ∀ p ∈ legacyKeys, (normalizeHandbrakeDict d).lookup p.2 ≠ none →
      (normalizeHandbrakeDict d).lookup p.1 ≠ none := by
    intro p hp
    have hkey : ∀ p ∈ legacyKeys, legacyKeys.lookup p.1 = some p.2 ∧
        legacyKeys.lookup p.2 = none := by decide
    rw [lookup_normalize_eq, lookup_normalize_eq, (hkey p hp).1, (hkey p hp).2]
    cases d.lookup p.1 <;> simp
  rw [normalizeHandbrakeDict.eq_1 (normalizeHandbrakeDict d),
    migrate_settled (hsettled ("VideoMultiPass", "VideoTwoPass") (by decide)),
    migrate_settled (hsettled ("VideoTurboMultiPass", "VideoTurboTwoPass") (by decide)),
    migrate_settled (hsettled ("Optimize", "Mp4HttpOptimize") (by decide))]

theorem parsePreset_normalize (py : Conversions) (d : JsonDict) :
    parsePreset py (normalizeHandbrakeDict d) = parsePreset py d := by
  rw [parsePreset, normalize_normalize]
  rfl

/-- A preset is read by its keys other than the old ones. -/
theorem parseNormalized_congr (py : Conversions) {hb hb' : JsonDict}
    (h : ∀ key, key ∉ legacyKeys.map (·.2) → hb.lookup key = hb'.lookup key) :
    parseNormalized py hb = parseNormalized py hb' := by
  have hget : ∀ key default, key ∉ legacyKeys.map (·.2) →
      hb.get key default = hb'.get key default := by
    intro key default hkey
    rw [JsonDict.get, h key hkey]
    rfl
  have hquality : parseQuality py hb = parseQuality py hb' := by
    unfold parseQuality
    simp (disch := decide) only [hget]
  have hsubtitles : parseSubtitleTracks py hb = parseSubtitleTracks py hb' := by
    unfold parseSubtitleTracks
    simp (disch := decide) only [hget]
  have hvideo : presetVideo py hb = presetVideo py hb' := by
    unfold presetVideo
    simp (disch := decide) only [hget]
  have hprofile : presetProfile py hb = presetProfile py hb' := by
    unfold presetProfile
    rw [hsubtitles]
    simp (disch := decide) only [hget]
  unfold parseNormalized
  rw [hquality, hvideo, hprofile, hget "AudioList" _ (by decide)]

/-! Old keys in place of new ones. -/

/-- A dictionary with the old key in place of the new one. -/
def renameKey (modern legacy : String) (d : JsonDict) : JsonDict :=
  d.map fun (key, value) => (if key = modern then legacy else key, value)

theorem lookup_renameKey {modern legacy : String} (hne : modern ≠ legacy) {d : JsonDict}
    (h : d.lookup legacy = none) (key : String) : (renameKey modern legacy d).lookup key =
      if key = legacy then d.lookup modern else if key = modern then none else d.lookup key := by
  induction d with
  | nil =>
    show none = _
    split_ifs <;> rfl
  | cons entry d ih =>
    obtain ⟨k, v⟩ := entry
    have hk : legacy ≠ k := by
      intro hk
      rw [hk, List.lookup_cons_self] at h
      cases h
    rw [List.lookup_cons, beq_false_of_ne hk] at h
    show ((if k = modern then legacy else k, v) :: renameKey modern legacy d).lookup key = _
    by_cases hmodern : k = modern
    · subst hmodern
      rw [if_pos rfl, List.lookup_cons_self]
      by_cases hkey : key = legacy
      · rw [hkey, List.lookup_cons_self, if_pos rfl]
      · rw [List.lookup_cons, beq_false_of_ne hkey, if_neg hkey]
        show (renameKey k legacy d).lookup key = _
        rw [ih h, if_neg hkey]
        by_cases hold : key = k
        · rw [if_pos hold, if_pos hold]
        · rw [if_neg hold, if_neg hold, List.lookup_cons, beq_false_of_ne hold]
    · rw [if_neg hmodern]
      by_cases hkey : key = k
      · subst hkey
        rw [List.lookup_cons_self, if_neg (Ne.symm hk), if_neg hmodern, List.lookup_cons_self]
      · have hskip : ∀ key d, key ≠ k → List.lookup key ((k, v) :: d) = d.lookup key := by
          intro key d hne
          rw [List.lookup_cons, beq_false_of_ne hne]
        rw [hskip _ _ hkey, hskip _ _ (Ne.symm hmodern), hskip _ _ hkey, ih h]

theorem legacyKeys_apart : ∀ p ∈ legacyKeys, ∀ p' ∈ legacyKeys,
    p.1 ≠ p'.2 ∧ (p.2 = p'.2 → p = p') := by decide

/-- One of the new keys written as the old one. -/
theorem parsePreset_renameKey (py : Conversions) {pair : String × String}
    (hpair : pair ∈ legacyKeys) {d : JsonDict} (h : d.lookup pair.2 = none) :
    parsePreset py (renameKey pair.1 pair.2 d) = parsePreset py d := by
  have hne : pair.1 ≠ pair.2 := (legacyKeys_apart pair hpair pair hpair).1
  apply parseNormalized_congr
  intro key hkey
  have hlegacy : key ≠ pair.2 := fun heq => hkey (heq ▸ List.mem_map_of_mem hpair)
  rw [lookup_normalize_eq, lookup_normalize_eq, lookup_renameKey hne h, if_neg hlegacy]
  by_cases hmodern : key = pair.1
  · -- the value is now found under the old key
    have hold : legacyKeys.lookup key = some pair.2 := by
      rw [hmodern]
      exact (by decide : ∀ p ∈ legacyKeys, legacyKeys.lookup p.1 = some p.2) pair hpair
    rw [hold, if_pos hmodern, Option.bind_some, Option.bind_some, lookup_renameKey hne h,
      if_pos rfl, h, hmodern, Option.or_none]
    rfl
  · rw [if_neg hmodern]
    cases hold : legacyKeys.lookup key with
    | none => rfl
    | some legacy =>
      have hmem : (key, legacy) ∈ legacyKeys := mem_of_lookup hold
      have hother : legacy ≠ pair.2 := fun heq =>
        hmodern (congrArg Prod.fst ((legacyKeys_apart _ hmem _ hpair).2 heq))
      rw [Option.bind_some, Option.bind_some, lookup_renameKey hne h, if_neg hother,
        if_neg (legacyKeys_apart _ hpair _ hmem).1.symm]

/-- Some of the new keys written as the old ones. -/
def writeLegacy (pairs : List (String × String)) (d : JsonDict) : JsonDict :=
  pairs.foldl (fun d pair => renameKey pair.1 pair.2 d) d

theorem parsePreset_writeLegacy (py : Conversions) {pairs : List (String × String)} :
    ∀ {d : JsonDict}, pairs.Sublist legacyKeys → (∀ pair ∈ pairs, d.lookup pair.2 = none) →
      parsePreset py (writeLegacy pairs d) = parsePreset py d := by
  induction pairs with
  | nil => exact fun _ _ => rfl
  | cons pair pairs ih =>
    intro d hsub h
    have hpair : pair ∈ legacyKeys := hsub.subset List.mem_cons_self
    have hd := h pair List.mem_cons_self
    have hnodup : (pair :: pairs).Nodup := List.Nodup.sublist hsub (by decide)
    show parsePreset py (writeLegacy pairs (renameKey pair.1 pair.2 d)) = _
    rw [← parsePreset_renameKey py hpair hd]
    apply ih ((List.sublist_cons_self _ _).trans hsub)
    intro other hother
    have hmem : other ∈ legacyKeys := hsub.subset (List.mem_cons_of_mem _ hother)
    have hapart : other.2 ≠ pair.2 := by
      intro heq
      rw [(legacyKeys_apart _ hmem _ hpair).2 heq] at hother
      exact (List.nodup_cons.mp hnodup).1 hother
    rw [lookup_renameKey (legacyKeys_apart _ hpair _ hpair).1 hd, if_neg hapart,
      if_neg (legacyKeys_apart _ hpair _ hmem).1.symm]
    exact h other (List.mem_cons_of_mem _ hother)

/-! The presets of a document. -/

def JsonDict.IsFolder (d : JsonDict) : Prop := truthy (d.get "Folder" (.atom (.bool false))) = true

instance (d : JsonDict) : Decidable d.IsFolder := inferInstanceAs (Decidable (_ = _))

/-- The presets of a document, in its order and as they stand there. -/
def leafPresets : List JsonValue → List JsonDict
  | [] => []
  | .obj d :: nodes =>
    if JsonDict.IsFolder d then leafPresets (JsonDict.children d) ++ leafPresets nodes
    else d :: leafPresets nodes
  | _ :: nodes => leafPresets nodes
termination_by nodes => sizeOf nodes
decreasing_by
  · have := sizeOf_children d
    simp only [List.cons.sizeOf_spec, Doc.obj.sizeOf_spec]
    omega
  all_goals
    simp only [List.cons.sizeOf_spec]
    omega

theorem leafPresets_obj (d : JsonDict) (nodes : List JsonValue) : leafPresets (.obj d :: nodes) =
    if d.IsFolder then leafPresets d.children ++ leafPresets nodes
    else d :: leafPresets nodes := by
  rw [leafPresets]

theorem leafPresets_nonObject {value : JsonValue} (h : ∀ d, value ≠ .obj d)
    (nodes : List JsonValue) : leafPresets (value :: nodes) = leafPresets nodes := by
  cases value with
  | obj d => exact absurd rfl (h d)
  | _ => rw [leafPresets]; exact nofun

/-- The walk meets the presets of the document, each brought up to date. -/
theorem iter_eq (nodes : List JsonValue) : iterHandbrakeLeafPresets (dicts nodes) =
    (leafPresets nodes).map normalizeHandbrakeDict := by
  induction nodes using leafPresets.induct with
  | case1 => 
    rw [leafPresets]
    exact iterHandbrakeLeafPresets.eq_1
  | case2 d nodes hfolder ihchildren ih =>
    show iterHandbrakeLeafPresets (d :: dicts nodes) = _
    rw [iterHandbrakeLeafPresets, get_normalize (by decide), leafPresets_obj, if_pos hfolder,
      children_normalize, List.map_append, ← ihchildren, ← ih]
    exact if_pos hfolder
  | case3 d nodes hpreset ih =>
    show iterHandbrakeLeafPresets (d :: dicts nodes) = _
    rw [iterHandbrakeLeafPresets, get_normalize (by decide), leafPresets_obj, if_neg hpreset,
      List.map_cons, ← ih]
    exact if_neg hpreset
  | case4 value nodes hvalue ih =>
    rw [leafPresets_nonObject hvalue, ← ih]
    cases value with
    | obj d => exact absurd rfl (hvalue d)
    | _ => rfl

/-- Two lists of nodes that differ in folders around nodes, at any depth, and in what is no
    dictionary. -/
inductive Rearranged : List JsonValue → List JsonValue → Prop
  | refl (nodes) : Rearranged nodes nodes
  | symm {nodes nodes'} (h : Rearranged nodes nodes') : Rearranged nodes' nodes
  | trans {nodes₁ nodes₂ nodes₃} (h : Rearranged nodes₁ nodes₂) (h' : Rearranged nodes₂ nodes₃) :
      Rearranged nodes₁ nodes₃
  | context {nodes nodes'} (before after) (h : Rearranged nodes nodes') :
      Rearranged (before ++ nodes ++ after) (before ++ nodes' ++ after)
  | folder {d : JsonDict} (h : d.IsFolder) : Rearranged d.children [.obj d]
  | nonObject {value} (h : ∀ d, value ≠ .obj d) : Rearranged [] [value]

/-- Nodes inside a folder. -/
theorem Rearranged.inside {d d' : JsonDict} (h : d.IsFolder) (h' : d'.IsFolder)
    (hinside : Rearranged d.children d'.children) : Rearranged [.obj d] [.obj d'] :=
  (Rearranged.folder h).symm.trans (hinside.trans (.folder h'))

theorem leafPresets_append (nodes nodes' : List JsonValue) :
    leafPresets (nodes ++ nodes') = leafPresets nodes ++ leafPresets nodes' := by
  induction nodes with
  | nil => rw [leafPresets, List.nil_append, List.nil_append]
  | cons value nodes ih =>
    rw [List.cons_append]
    by_cases hvalue : ∃ d, value = .obj d
    · obtain ⟨d, rfl⟩ := hvalue
      rw [leafPresets_obj, leafPresets_obj, ih]
      split_ifs
      · rw [List.append_assoc]
      · rw [List.cons_append]
    · rw [not_exists] at hvalue
      rw [leafPresets_nonObject hvalue, leafPresets_nonObject hvalue, ih]

theorem Rearranged.leafPresets_eq {nodes nodes' : List JsonValue} (h : Rearranged nodes nodes') :
    leafPresets nodes = leafPresets nodes' := by
  induction h with
  | refl => rfl
  | symm _ ih => exact ih.symm
  | trans _ _ ih ih' => exact ih.trans ih'
  | context before after _ ih =>
    simp only [leafPresets_append, ih]
  | @folder d hfolder =>
    rw [leafPresets_obj, if_pos hfolder, leafPresets, List.append_nil]
  | nonObject hvalue => rw [leafPresets_nonObject hvalue]

/-! A document read. -/

/-- The nodes of a document of an accepted shape. -/
inductive HasNodes : JsonValue → List JsonValue → Prop
  | list (nodes) : HasNodes (.list nodes) nodes
  | object {d : JsonDict} {nodes} (h : d.lookup "PresetList" = some (.list nodes)) :
      HasNodes (.obj d) nodes

theorem HasNodes.roots {parsed : JsonValue} {nodes : List JsonValue} (h : HasNodes parsed nodes) :
    handbrakeRootNodes parsed = .ok (dicts nodes) := by
  cases h with
  | list => rfl
  | object h => rw [handbrakeRootNodes, JsonDict.get, h]; rfl

section
variable (py : Conversions) {loads : String → Except Exn JsonValue} {data : String}
  {parsed : JsonValue} {nodes : List JsonValue}

theorem parsePresetsFromJson_eq (hloads : loads data = .ok parsed)
    (hnodes : HasNodes parsed nodes) :
    parsePresetsFromJson py loads data = (leafPresets nodes).mapM (parsePreset py) := by
  have hmap : ∀ l : List JsonDict, (l.map normalizeHandbrakeDict).mapM (parsePreset py) =
      l.mapM (parsePreset py) := by
    intro l
    rw [List.mapM_map]
    congr 1
    exact funext (parsePreset_normalize py)
  rw [parsePresetsFromJson, hloads]
  show (handbrakeRootNodes parsed >>= _) = _
  rw [hnodes.roots]
  show (iterHandbrakeLeafPresets (dicts nodes)).mapM _ = _
  rw [iter_eq, hmap]

/-- A document gives one profile for each of its presets, in their order, as each gives alone,
    and raises where one of them does; its folders and what is no dictionary do not matter, nor
    does which keys its presets use. -/
theorem presets_flatten (hloads : loads data = .ok parsed) (hnodes : HasNodes parsed nodes) :
    (∀ profiles, parsePresetsFromJson py loads data = .ok profiles ↔
      List.Forall₂ (fun leaf profile => parsePreset py leaf = .ok profile) (leafPresets nodes)
        profiles) ∧
    ((∃ e, parsePresetsFromJson py loads data = .error e) ↔
      ∃ leaf ∈ leafPresets nodes, ∃ e, parsePreset py leaf = .error e) ∧
    (∀ data' parsed' nodes', loads data' = .ok parsed' → HasNodes parsed' nodes' →
      Rearranged nodes nodes' →
        parsePresetsFromJson py loads data' = parsePresetsFromJson py loads data) ∧
    (∀ d, normalizeHandbrakeDict (normalizeHandbrakeDict d) = normalizeHandbrakeDict d ∧
      parsePreset py (normalizeHandbrakeDict d) = parsePreset py d) ∧
    (∀ pairs d, pairs.Sublist legacyKeys → (∀ pair ∈ pairs, d.lookup pair.2 = none) →
      parsePreset py (writeLegacy pairs d) = parsePreset py d) := by
  have heq := parsePresetsFromJson_eq py hloads hnodes
  refine ⟨?_, ?_, ?_, ?_, ?_⟩
  · intro profiles
    rw [heq, mapM_ok_iff]
  · rw [heq, mapM_error_iff]
  · intro data' parsed' nodes' hloads' hnodes' hrearranged
    rw [heq, parsePresetsFromJson_eq py hloads' hnodes', hrearranged.leafPresets_eq]
  · exact fun d => ⟨normalize_normalize d, parsePreset_normalize py d⟩
  · exact fun pairs d hsub h => parsePreset_writeLegacy py hsub h

end

/-! A preset with an old key, in a folder with something else. -/

def plainConversions : Conversions where
  repr _ := ""
  parseInt _ := none
  parseFloat _ := none
  floatOfInt n := some (.finite n)

def oldLeaf : JsonDict :=
  [("PresetName", .atom (.str "Leaf")), ("VideoTwoPass", .atom (.bool true))]

def categoryNodes : List JsonValue := [.obj [
  ("PresetName", .atom (.str "Category")), ("Folder", .atom (.bool true)),
  ("ChildrenArray", .list [.atom (.int 1), .obj oldLeaf])]]

def categoryText : String :=
  "[\x7b\"PresetName\": \"Category\", \"Folder\": true, \"ChildrenArray\": " ++
    "[1, \x7b\"PresetName\": \"Leaf\", \"VideoTwoPass\": true\x7d]\x7d]"

theorem leafPresets_category : leafPresets categoryNodes = [oldLeaf] := by
  rw [categoryNodes, leafPresets_obj, if_pos (by decide)]
  show leafPresets [.atom (.int 1), .obj oldLeaf] ++ leafPresets [] = _
  rw [leafPresets_nonObject (fun _ h => by cases h), leafPresets_obj, if_neg (by decide),
    leafPresets]
  rfl

theorem presets_flatten_category : ∃ profile,
    parsePresetsFromJson plainConversions (fun _ => .ok (.list categoryNodes)) categoryText =
      .ok [profile] ∧ profile.name = "Leaf" ∧ profile.video.multiPass = true := by
  have hleaf : ∃ profile, parsePreset plainConversions oldLeaf = .ok profile ∧
      profile.name = "Leaf" ∧ profile.video.multiPass = true := ⟨_, rfl, rfl, rfl⟩
  obtain ⟨profile, hparse, hprofile⟩ := hleaf
  refine ⟨profile, ?_, hprofile⟩
  apply (presets_flatten plainConversions rfl (.list categoryNodes)).1 _ |>.mpr
  rw [leafPresets_category]
  exact .cons hparse .nil

end Vshift
