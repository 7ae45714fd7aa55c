import Vshift.UseCases
import Vshift.Sorting
import Mathlib.Data.Char
import Mathlib.Data.List.Lex
import Mathlib.Tactic.NormNum

/- The scanner: `infrastructure/filesystem/poll_file_scanner.py`.

   A `FileTree` is what lies below the input directory. `walk` lists it by paths
   relative to the directory, and everything a scan does but one thing can be said
   of these: `_is_hidden` looks at all the components of a path, those of the input
   directory among them. `scanOnce_eq` puts a scan in terms of the relative listing;
   `scan_exact_iff` says for which input directories it is the discovery that
   depends only on the tree. -/
namespace Vshift

abbrev Name := List Char

/-- What a directory may hold under a name: no empty name, no slash, neither dot nor two dots. -/
def EntryName (name : Name) : Prop := Component name ∧ name ≠ ['.', '.']

instance (name : Name) : Decidable (EntryName name) := inferInstanceAs (Decidable (_ ∧ _))

/-- What `is_file` and `stat` say of a path. A link to a file is one; a link to a directory is
    `other`, since `rglob` does not enter it. -/
inductive Kind where
  | file (size : Nat) (mtime : Rat)
  | directory
  | other
  deriving DecidableEq

/-- The entries of a directory, one after another. -/
inductive Entries where
  | nil
  | file (name : Name) (size : Nat) (mtime : Rat) (rest : Entries)
  | other (name : Name) (rest : Entries)
  | dir (name : Name) (below rest : Entries)

namespace Entries

def names : Entries → List Name
  | nil => []
  | file name _ _ rest => name :: rest.names
  | other name rest => name :: rest.names
  | dir name _ rest => name :: rest.names

/-- Names are entry names, and distinct within each directory. -/
def WellFormed : Entries → Prop
  | nil => True
  | file name _ _ rest => EntryName name ∧ name ∉ rest.names ∧ rest.WellFormed
  | other name rest => EntryName name ∧ name ∉ rest.names ∧ rest.WellFormed
  | dir name below rest =>
    EntryName name ∧ name ∉ rest.names ∧ below.WellFormed ∧ rest.WellFormed

/-- `dir.rglob("*")` -/
def rglob (here : Path) : Entries → List (Path × Kind)
  | nil => []
  | file name size mtime rest => (here.join (.ofChars name), .file size mtime) :: rest.rglob here
  | other name rest => (here.join (.ofChars name), .other) :: rest.rglob here
  | dir name below rest =>
    (here.join (.ofChars name), .directory) ::
      (below.rglob (here.join (.ofChars name)) ++ rest.rglob here)

end Entries

structure FileTree where
  entries : Entries
  wellFormed : entries.WellFormed

/-- `part.startswith(".")` -/
def Hidden (part : Name) : Prop := part.head? = some '.'

instance (part : Name) : Decidable (Hidden part) := inferInstanceAs (Decidable (_ = _))

def isHidden (path : Path) : Bool := path.parts.any (fun part => Hidden part)

def isStable (size : Nat) (mtime now : Rat) (stabilitySeconds : Nat) : Bool :=
  0 < size && stabilitySeconds ≤ now - mtime

/-- `PollFileScanner.scan_once`, where `below` is nothing if the path is no directory. -/
def scanOnce (ctx : Context) (stabilitySeconds : Nat) (now : Rat) (inputDir : Path)
    (below : Option FileTree) : List ProbedInput :=
  match below with
  | none => []
  | some tree =>
    (Sorting.ascending (·.1.parts) (tree.entries.rglob inputDir)).filterMap fun (path, kind) =>
      match kind with
      | .file size mtime =>
        if isHidden path then none
        else if isStable size mtime now stabilitySeconds then
          some { path, extension := extensionOf ctx path }
        else none
      | _ => none

/-! What a scan is to discover. -/

/-- The file at a relative path. -/
inductive Entries.FileAt : Entries → List Name → Nat → Rat → Prop
  | here {name size mtime rest} : FileAt (.file name size mtime rest) [name] size mtime
  | inside {name below rest rel size mtime} (h : FileAt below rel size mtime) :
      FileAt (.dir name below rest) (name :: rel) size mtime
  | pastFile {name size' mtime' rest rel size mtime} (h : FileAt rest rel size mtime) :
      FileAt (.file name size' mtime' rest) rel size mtime
  | pastOther {name rest rel size mtime} (h : FileAt rest rel size mtime) :
      FileAt (.other name rest) rel size mtime
  | pastDir {name below rest rel size mtime} (h : FileAt rest rel size mtime) :
      FileAt (.dir name below rest) rel size mtime

/-- The file at a relative path is not empty, old enough, and no component of the path is hidden. -/
def FileTree.Eligible (tree : FileTree) (stabilitySeconds : Nat) (now : Rat) (rel : List Name) :
    Prop :=
  (∃ size mtime, tree.entries.FileAt rel size mtime ∧ 0 < size ∧ stabilitySeconds ≤ now - mtime) ∧
    ∀ name ∈ rel, ¬ Hidden name

/-- `dir / name / ...` -/
def Path.descend (dir : Path) (rel : List Name) : Path :=
  rel.foldl (fun path name => path.join (.ofChars name)) dir

/-- The path of a file as it is handed on. -/
def discovered (ctx : Context) (dir : Path) (rel : List Name) : ProbedInput :=
  { path := dir.descend rel, extension := extensionOf ctx (dir.descend rel) }

/-- The eligible files, each once, in the order of their paths. -/
structure Discovers (ctx : Context) (stabilitySeconds : Nat) (now : Rat) (dir : Path)
    (tree : FileTree) (result : List ProbedInput) : Prop where
  mem : ∀ probed, probed ∈ result ↔
    ∃ rel, tree.Eligible stabilitySeconds now rel ∧ probed = discovered ctx dir rel
  sorted : result.Pairwise (fun a b => a.path.parts < b.path.parts)

/-- The paths of a result relative to the directory. -/
def relatives (dir : Path) (result : List ProbedInput) : List (List Name) :=
  result.map (fun probed => probed.path.parts.drop dir.parts.length)

/-! Paths below a directory. -/

theorem splitSlash_eq {text : List Char} (h : '/' ∉ text) : splitSlash text = [text] := by
  induction text with
  | nil => rfl
  | cons c cs ih =>
    rw [List.mem_cons, not_or] at h
    rw [splitSlash, if_neg (Ne.symm h.1), ih h.2]

theorem join_parts (dir : Path) {name : Name} (h : EntryName name) :
    (dir.join (.ofChars name)).parts = dir.parts ++ [name] := by
  obtain ⟨⟨hne, hdot, hslash⟩, -⟩ := h
  have hroot : (Path.ofChars name).root = [] := by
    show Path.rootOf name = []
    unfold Path.rootOf
    split
    · simp at hslash
    · simp at hslash
    · simp at hslash
    · rfl
  have hparts : (Path.ofChars name).parts = [name] := by
    show components name = [name]
    simp [components, splitSlash_eq hslash, hne, hdot]
  unfold Path.join
  rw [if_pos hroot, ← hparts]

theorem descend_parts {rel : List Name} (h : ∀ name ∈ rel, EntryName name) :
    ∀ dir : Path, (dir.descend rel).parts = dir.parts ++ rel := by
  induction rel with
  | nil => exact fun dir => (List.append_nil _).symm
  | cons name rel ih =>
    intro dir
    have hrel := ih (fun other ho => h other (List.mem_cons_of_mem _ ho))
      (dir.join (.ofChars name))
    calc (dir.descend (name :: rel)).parts
      _ = ((dir.join (.ofChars name)).descend rel).parts := rfl
      _ = (dir.join (.ofChars name)).parts ++ rel := hrel
      _ = dir.parts ++ name :: rel := by
        rw [join_parts dir (h name List.mem_cons_self), List.append_assoc, List.singleton_append]

theorem append_lt_append_iff (p a b : List Name) : p ++ a < p ++ b ↔ a < b := by
  induction p with
  | nil => rfl
  | cons name p ih =>
    rw [List.cons_append, List.cons_append, List.cons_lt_cons_iff, ih]
    simp

theorem append_le_append_iff (p a b : List Name) : p ++ a ≤ p ++ b ↔ a ≤ b := by
  rw [← not_lt, ← not_lt, append_lt_append_iff]

/-! The listing by relative paths. -/

namespace Entries

/-- What `rglob` lists, by paths relative to the input directory. -/
def walk (here : List Name) : Entries → List (List Name × Kind)
  | nil => []
  | file name size mtime rest => (here ++ [name], .file size mtime) :: rest.walk here
  | other name rest => (here ++ [name], .other) :: rest.walk here
  | dir name below rest =>
    (here ++ [name], .directory) :: (below.walk (here ++ [name]) ++ rest.walk here)

theorem rglob_eq (dir : Path) (entries : Entries) : ∀ here : List Name,
    entries.rglob (dir.descend here) =
      (entries.walk here).map (fun e => (dir.descend e.1, e.2)) := by
  have hjoin : ∀ (here : List Name) (name : Name),
      (dir.descend here).join (.ofChars name) = dir.descend (here ++ [name]) := by
    intro here name
    unfold Path.descend
    rw [List.foldl_append]
    rfl
  induction entries with
  | nil => exact fun _ => rfl
  | file name size mtime rest ih =>
    intro here
    rw [rglob, walk, List.map_cons, ih, hjoin]
  | other name rest ih =>
    intro here
    rw [rglob, walk, List.map_cons, ih, hjoin]
  | dir name below rest ihb ih =>
    intro here
    rw [rglob, walk, List.map_cons, List.map_append, hjoin, ihb, ih]

/-- A listed path goes on from `here` with a name of the directory. -/
theorem mem_walk_names {entries : Entries} : ∀ {here : List Name} {e : List Name × Kind},
    e ∈ entries.walk here → ∃ name ∈ entries.names, ∃ rel, e.1 = here ++ name :: rel := by
  induction entries with
  | nil => exact fun h => by cases h
  | file name size mtime rest ih =>
    intro here e h
    rcases List.mem_cons.mp h with rfl | h
    · exact ⟨name, List.mem_cons_self, [], rfl⟩
    · obtain ⟨other, hmem, rel, heq⟩ := ih h
      exact ⟨other, List.mem_cons_of_mem _ hmem, rel, heq⟩
  | other name rest ih =>
    intro here e h
    rcases List.mem_cons.mp h with rfl | h
    · exact ⟨name, List.mem_cons_self, [], rfl⟩
    · obtain ⟨other, hmem, rel, heq⟩ := ih h
      exact ⟨other, List.mem_cons_of_mem _ hmem, rel, heq⟩
  | dir name below rest ihb ih =>
    intro here e h
    rcases List.mem_cons.mp h with rfl | h
    · exact ⟨name, List.mem_cons_self, [], rfl⟩
    · rcases List.mem_append.mp h with h | h
      · obtain ⟨other, hmem, rel, heq⟩ := ihb h
        exact ⟨name, List.mem_cons_self, other :: rel, by rw [heq]; simp⟩
      · obtain ⟨other, hmem, rel, heq⟩ := ih h
        exact ⟨other, List.mem_cons_of_mem _ hmem, rel, heq⟩

theorem walk_entryNames {entries : Entries} : ∀ {here : List Name}, entries.WellFormed →
    (∀ name ∈ here, EntryName name) → ∀ e ∈ entries.walk here, ∀ name ∈ e.1, EntryName name := by
  have hsnoc : ∀ {here : List Name} {name : Name}, (∀ other ∈ here, EntryName other) →
      EntryName name → ∀ other ∈ here ++ [name], EntryName other := by
    intro here name hhere hname other hother
    rcases List.mem_append.mp hother with hother | hother
    · exact hhere other hother
    · rw [List.mem_singleton.mp hother]
      exact hname
  induction entries with
  | nil => exact fun _ _ e h => by cases h
  | file name size mtime rest ih =>
    intro here hwf hhere e he
    rcases List.mem_cons.mp he with rfl | he
    · exact hsnoc hhere hwf.1
    · exact ih hwf.2.2 hhere e he
  | other name rest ih =>
    intro here hwf hhere e he
    rcases List.mem_cons.mp he with rfl | he
    · exact hsnoc hhere hwf.1
    · exact ih hwf.2.2 hhere e he
  | dir name below rest ihb ih =>
    intro here hwf hhere e he
    rcases List.mem_cons.mp he with rfl | he
    · exact hsnoc hhere hwf.1
    · rcases List.mem_append.mp he with he | he
      · exact ihb hwf.2.2.1 (hsnoc hhere hwf.1) e he
      · exact ih hwf.2.2.2 hhere e he

/-- A path under another name of the directory is not listed. -/
theorem notMem_walk {entries : Entries} {here rel : List Name} {name : Name}
    (h : name ∉ entries.names) : here ++ name :: rel ∉ (entries.walk here).map Prod.fst := by
  intro hmem
  obtain ⟨e, he, heq⟩ := List.mem_map.mp hmem
  obtain ⟨other, hother, rel', hrel⟩ := mem_walk_names he
  rw [hrel] at heq
  have hname := (List.cons.inj (List.append_cancel_left heq)).1
  exact h (hname ▸ hother)

/-- No path is listed twice. -/
theorem walk_nodup {entries : Entries} : ∀ {here : List Name}, entries.WellFormed →
    ((entries.walk here).map Prod.fst).Nodup := by
  induction entries with
  | nil => exact fun _ => List.nodup_nil
  | file name size mtime rest ih =>
    intro here hwf
    exact List.nodup_cons.mpr ⟨notMem_walk hwf.2.1, ih hwf.2.2⟩
  | other name rest ih =>
    intro here hwf
    exact List.nodup_cons.mpr ⟨notMem_walk hwf.2.1, ih hwf.2.2⟩
  | dir name below rest ihb ih =>
    intro here hwf
    rw [walk, List.map_cons, List.map_append, List.nodup_cons, List.mem_append, not_or,
      List.nodup_append]
    refine ⟨⟨?_, notMem_walk hwf.2.1⟩, ihb hwf.2.2.1, ih hwf.2.2.2, ?_⟩
    · -- what lies below has a longer path
      intro hmem
      obtain ⟨e, he, heq⟩ := List.mem_map.mp hmem
      obtain ⟨other, _, rel, hrel⟩ := mem_walk_names he
      have hlen := congrArg List.length (hrel.symm.trans heq)
      simp at hlen
    -- a path below `name` and one past it differ in the first name after `here`
    · intro path hbelow other hrest heq
      obtain ⟨e, he, hpath⟩ := List.mem_map.mp hbelow
      obtain ⟨_, _, rel, hrel⟩ := mem_walk_names he
      rw [← heq, ← hpath, hrel, List.append_assoc, List.singleton_append] at hrest
      exact notMem_walk hwf.2.1 hrest

theorem mem_walk_iff {entries : Entries} : ∀ {here rel : List Name} {size : Nat} {mtime : Rat},
    (here ++ rel, .file size mtime) ∈ entries.walk here ↔ entries.FileAt rel size mtime := by
  induction entries with
  | nil =>
    intro here rel size mtime
    constructor
    · intro h
      cases h
    · intro h
      cases h
  | file name size' mtime' rest ih =>
    intro here rel size mtime
    rw [walk, List.mem_cons, Prod.mk.injEq, List.append_cancel_left_eq, Kind.file.injEq, ih]
    constructor
    · intro h
      rcases h with ⟨rfl, rfl, rfl⟩ | h
      · exact .here
      · exact .pastFile h
    · intro h
      cases h with
      | here => exact .inl ⟨rfl, rfl, rfl⟩
      | pastFile h => exact .inr h
  | other name rest ih =>
    intro here rel size mtime
    rw [walk, List.mem_cons, Prod.mk.injEq, ih]
    constructor
    · intro h
      rcases h with ⟨_, h⟩ | h
      · cases h
      · exact .pastOther h
    · intro h
      cases h with
      | pastOther h => exact .inr h
  | dir name below rest ihb ih =>
    intro here rel size mtime
    rw [walk, List.mem_cons, Prod.mk.injEq, List.mem_append, ih]
    constructor
    · intro h
      rcases h with ⟨_, h⟩ | h | h
      · cases h
      -- listed below `name`: the relative path starts with it
      · obtain ⟨other, _, rel', hrel⟩ := mem_walk_names h
        rw [List.append_assoc, List.append_cancel_left_eq, List.singleton_append] at hrel
        have hbelow : ((here ++ [name]) ++ other :: rel', .file size mtime) ∈
            below.walk (here ++ [name]) := by
          rw [List.append_assoc, List.singleton_append, ← hrel]
          exact h
        rw [hrel]
        exact .inside (ihb.mp hbelow)
      · exact .pastDir h
    · intro h
      cases h with
      | inside h =>
        right
        left
        have hbelow := (@ihb (here ++ [name]) _ _ _).mpr h
        rw [List.append_assoc, List.singleton_append] at hbelow
        exact hbelow
      | pastDir h => exact .inr (.inr h)

end Entries

/-! A scan by relative paths. -/

section
variable {ctx : Context} {stabilitySeconds : Nat} {now : Rat} {dir : Path} {tree : FileTree}

/-- The relative paths of the files that are not hidden below the input directory, large and old
    enough, in order. -/
def eligible (stabilitySeconds : Nat) (now : Rat) (tree : FileTree) : List (List Name) :=
  (Sorting.ascending (·.1) (tree.entries.walk [])).filterMap fun (rel, kind) =>
    match kind with
    | .file size mtime =>
      if rel.any (fun part => Hidden part) then none
      else if isStable size mtime now stabilitySeconds then some rel else none
    | _ => none

theorem isHidden_descend {rel : List Name} (h : ∀ name ∈ rel, EntryName name) (dir : Path) :
    isHidden (dir.descend rel) =
      (dir.parts.any (fun part => Hidden part) || rel.any (fun part => Hidden part)) := by
  unfold isHidden
  rw [descend_parts h, List.any_append]

/-- A directory with a hidden component hides everything below it; any other one nothing. -/
theorem scanOnce_eq : scanOnce ctx stabilitySeconds now dir (some tree) =
    if dir.parts.any (fun part => Hidden part) then []
    else (eligible stabilitySeconds now tree).map (discovered ctx dir) := by
  have hnames : ∀ e ∈ tree.entries.walk [], ∀ name ∈ e.1, EntryName name :=
    Entries.walk_entryNames tree.wellFormed (fun name h => by cases h)
  -- sorting by the whole path is sorting by the relative one
  have hsort : Sorting.ascending (·.1.parts) (tree.entries.rglob dir) =
      (Sorting.ascending (·.1) (tree.entries.walk [])).map (fun e => (dir.descend e.1, e.2)) := by
    have hrglob : tree.entries.rglob dir =
        (tree.entries.walk []).map (fun e => (dir.descend e.1, e.2)) :=
      Entries.rglob_eq dir tree.entries []
    rw [hrglob]
    unfold Sorting.ascending
    rw [List.map_insertionSort (fun a b : List Name × Kind => a.1 ≤ b.1)
      (fun a b : Path × Kind => a.1.parts ≤ b.1.parts)]
    intro a ha b hb
    rw [descend_parts (hnames a ha), descend_parts (hnames b hb), append_le_append_iff]
  have hsorted : ∀ e ∈ Sorting.ascending (·.1) (tree.entries.walk []),
      ∀ name ∈ e.1, EntryName name :=
    fun e he => hnames e (Sorting.mem_ascending.mp he)
  unfold scanOnce
  dsimp only
  rw [hsort, List.filterMap_map]
  split
  · next hdir =>
    apply List.filterMap_eq_nil_iff.mpr
    intro ⟨rel, kind⟩ he
    cases kind with
    | file size mtime => simp [isHidden_descend (hsorted _ he), hdir]
    | _ => rfl
  · next hdir =>
    unfold eligible
    rw [List.map_filterMap]
    apply List.filterMap_congr
    intro ⟨rel, kind⟩ he
    rw [Bool.not_eq_true] at hdir
    cases kind with
    | file size mtime =>
      simp only [Function.comp_apply, isHidden_descend (hsorted _ he), hdir, Bool.false_or]
      split
      · rfl
      · split <;> rfl
    | _ => rfl

theorem mem_eligible_iff {rel : List Name} : rel ∈ eligible stabilitySeconds now tree ↔
    ∃ size mtime, (rel, .file size mtime) ∈ tree.entries.walk [] ∧
      (∀ name ∈ rel, ¬ Hidden name) ∧ 0 < size ∧ stabilitySeconds ≤ now - mtime := by
  unfold eligible
  rw [List.mem_filterMap]
  constructor
  · intro ⟨⟨rel', kind⟩, he, hsome⟩
    cases kind with
    | file size mtime =>
      dsimp only at hsome
      split at hsome
      · cases hsome
      · next hvisible =>
        split at hsome
        · next hstable =>
          cases hsome
          rw [isStable, Bool.and_eq_true, decide_eq_true_eq, decide_eq_true_eq] at hstable
          refine ⟨size, mtime, Sorting.mem_ascending.mp he, ?_, hstable⟩
          simpa using hvisible
        · cases hsome
    | _ => cases hsome
  · intro ⟨size, mtime, he, hvisible, hstable⟩
    refine ⟨(rel, .file size mtime), Sorting.mem_ascending.mpr he, ?_⟩
    have hshown : (rel.any fun part => Hidden part) = false := by simpa using hvisible
    have hready : isStable size mtime now stabilitySeconds = true := by
      rw [isStable, Bool.and_eq_true, decide_eq_true_eq, decide_eq_true_eq]
      exact hstable
    simp only [hshown, hready, if_true, Bool.false_eq_true, if_false]

theorem mem_eligible {rel : List Name} :
    rel ∈ eligible stabilitySeconds now tree ↔ tree.Eligible stabilitySeconds now rel := by
  rw [mem_eligible_iff]
  constructor
  · intro ⟨size, mtime, he, hvisible, hstable⟩
    exact ⟨⟨size, mtime, Entries.mem_walk_iff.mp he, hstable⟩, hvisible⟩
  · intro ⟨⟨size, mtime, he, hstable⟩, hvisible⟩
    exact ⟨size, mtime, Entries.mem_walk_iff.mpr he, hvisible, hstable⟩

theorem eligible_entryNames {rel : List Name} (h : rel ∈ eligible stabilitySeconds now tree) :
    ∀ name ∈ rel, EntryName name := by
  obtain ⟨size, mtime, he, -⟩ := mem_eligible_iff.mp h
  exact Entries.walk_entryNames tree.wellFormed (fun name h => by cases h) _ he

theorem eligible_sorted : (eligible stabilitySeconds now tree).Pairwise (· < ·) := by
  have hdistinct : ((tree.entries.walk []).map Prod.fst).Nodup := Entries.walk_nodup tree.wellFormed
  have hwalk := Sorting.ascending_rises_strictly hdistinct
  apply List.Pairwise.filterMap _ ?_ hwalk
  intro e e' hlt rel hrel rel' hrel'
  -- the filter keeps the path it is given
  have hfirst : ∀ (e : List Name × Kind) rel, (match e.2 with
      | .file size mtime =>
        if e.1.any (fun part => Hidden part) then none
        else if isStable size mtime now stabilitySeconds then some e.1 else none
      | _ => none) = some rel → e.1 = rel := by
    intro e rel h
    split at h
    · split at h
      · cases h
      · split at h
        · exact Option.some.inj h
        · cases h
    · cases h
  rw [← hfirst e rel hrel, ← hfirst e' rel' hrel']
  exact hlt

theorem discovered_parts {rel : List Name} (h : rel ∈ eligible stabilitySeconds now tree) :
    (discovered ctx dir rel).path.parts = dir.parts ++ rel :=
  descend_parts (eligible_entryNames h) dir

theorem eligible_eq_nil_iff : eligible stabilitySeconds now tree = [] ↔
    ¬ ∃ rel, tree.Eligible stabilitySeconds now rel := by
  rw [List.eq_nil_iff_forall_not_mem, not_exists]
  simp only [mem_eligible]

/-- Nothing of the directory's own path is hidden. -/
def Visible (dir : Path) : Prop := ∀ part ∈ dir.parts, ¬ Hidden part

instance (dir : Path) : Decidable (Visible dir) :=
  inferInstanceAs (Decidable (∀ part ∈ dir.parts, ¬ Hidden part))

theorem scanOnce_visible (h : Visible dir) : scanOnce ctx stabilitySeconds now dir (some tree) =
    (eligible stabilitySeconds now tree).map (discovered ctx dir) := by
  have hshown : (dir.parts.any fun part => Hidden part) = false := by
    simpa [Visible] using h
  rw [scanOnce_eq, hshown, if_neg Bool.false_ne_true]

theorem scanOnce_hidden (h : ¬ Visible dir) :
    scanOnce ctx stabilitySeconds now dir (some tree) = [] := by
  have hhidden : (dir.parts.any fun part => Hidden part) = true := by
    simpa [Visible] using h
  rw [scanOnce_eq, hhidden, if_pos rfl]

theorem discovers_visible (h : Visible dir) : Discovers ctx stabilitySeconds now dir tree
    (scanOnce ctx stabilitySeconds now dir (some tree)) := by
  rw [scanOnce_visible h]
  constructor
  · intro probed
    rw [List.mem_map]
    constructor
    · exact fun ⟨rel, hrel, heq⟩ => ⟨rel, mem_eligible.mp hrel, heq.symm⟩
    · exact fun ⟨rel, hrel, heq⟩ => ⟨rel, mem_eligible.mpr hrel, heq.symm⟩
  · apply List.pairwise_map.mpr
    apply eligible_sorted.imp_of_mem
    intro rel rel' hrel hrel' hlt
    rw [discovered_parts hrel, discovered_parts hrel', append_lt_append_iff]
    exact hlt

theorem relatives_visible (h : Visible dir) :
    relatives dir (scanOnce ctx stabilitySeconds now dir (some tree)) =
      eligible stabilitySeconds now tree := by
  rw [scanOnce_visible h, relatives, List.map_map]
  refine (List.map_congr_left fun rel hrel => ?_).trans (List.map_id _)
  rw [Function.comp_apply, discovered_parts hrel, List.drop_left, id]

theorem relatives_hidden (h : ¬ Visible dir) :
    relatives dir (scanOnce ctx stabilitySeconds now dir (some tree)) = [] := by
  rw [scanOnce_hidden h]
  rfl

end

/-- A scan discovers what it is to discover exactly when no component of the input directory
    starts with a dot, or nothing is eligible; and two scans of one tree discover the same
    relative paths exactly when this is so for both directories or for neither, or nothing is
    eligible. -/
theorem scan_exact_iff (ctx : Context) (stabilitySeconds : Nat) (now : Rat) (tree : FileTree) :
    (∀ dir, Discovers ctx stabilitySeconds now dir tree
        (scanOnce ctx stabilitySeconds now dir (some tree)) ↔
      Visible dir ∨ ¬ ∃ rel, tree.Eligible stabilitySeconds now rel) ∧
    ∀ dir dir', relatives dir (scanOnce ctx stabilitySeconds now dir (some tree)) =
        relatives dir' (scanOnce ctx stabilitySeconds now dir' (some tree)) ↔
      (Visible dir ↔ Visible dir') ∨ ¬ ∃ rel, tree.Eligible stabilitySeconds now rel := by
  constructor
  · intro dir
    by_cases hdir : Visible dir
    · exact iff_of_true (discovers_visible hdir) (.inl hdir)
    · rw [scanOnce_hidden hdir, or_iff_right hdir]
      constructor
      · intro h ⟨rel, hrel⟩
        cases (h.mem _).mpr ⟨rel, hrel, rfl⟩
      · intro hnone
        refine ⟨fun probed => ?_, List.Pairwise.nil⟩
        constructor
        · intro h
          cases h
        · exact fun ⟨rel, hrel, _⟩ => absurd ⟨rel, hrel⟩ hnone
  · intro dir dir'
    rw [← eligible_eq_nil_iff]
    by_cases hdir : Visible dir <;> by_cases hdir' : Visible dir'
    · rw [relatives_visible hdir, relatives_visible hdir']
      simp [hdir, hdir']
    · rw [relatives_visible hdir, relatives_hidden hdir']
      simp [hdir, hdir']
    · rw [relatives_hidden hdir, relatives_visible hdir', eq_comm]
      simp [hdir, hdir']
    · rw [relatives_hidden hdir, relatives_hidden hdir']
      simp [hdir, hdir']

/-- One old file. -/
def oneFile : FileTree := ⟨.file "a.mp4".toList 1000 0 .nil, by decide, by decide, trivial⟩

theorem oneFile_eligible : oneFile.Eligible 10 60 ["a.mp4".toList] := by
  refine ⟨⟨1000, 0, .here, by decide, by norm_num⟩, ?_⟩
  decide

/-- The file is discovered below `/data` and missed below `/home/user/.data`. -/
theorem hidden_directory_hides_all :
    ¬ ∀ (ctx : Context) (stabilitySeconds : Nat) (now : Rat) (tree : FileTree) (dir dir' : Path),
      Discovers ctx stabilitySeconds now dir tree
        (scanOnce ctx stabilitySeconds now dir (some tree)) ∧
      relatives dir (scanOnce ctx stabilitySeconds now dir (some tree)) =
        relatives dir' (scanOnce ctx stabilitySeconds now dir' (some tree)) := by
  intro h
  have hmissed := (h smallContext 10 60 oneFile (.parse "/home/user/.data") (.parse "/data")).1
  have hnone : scanOnce smallContext 10 60 (.parse "/home/user/.data") (some oneFile) = [] :=
    scanOnce_hidden (by decide)
  rw [hnone] at hmissed
  cases (hmissed.mem _).mpr ⟨_, oneFile_eligible, rfl⟩

end Vshift
