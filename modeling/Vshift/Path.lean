import Vshift.Values

/- POSIX paths as `pathlib` keeps them: a root and the components below it.

   `Path.parse` is the constructor `Path(text)`, `join` is the `/` operator, and
   `name`, `stem` and `suffix` are the properties of those names. Components are
   never empty, never a single dot and hold no slash; the structure carries that,
   so a value that `pathlib` could not have built does not exist here. -/
namespace Vshift

/-- What a path component never is. -/
def Component (part : List Char) : Prop := part ≠ [] ∧ part ≠ ['.'] ∧ '/' ∉ part

instance (part : List Char) : Decidable (Component part) :=
  inferInstanceAs (Decidable (_ ∧ _ ∧ _))

/-- `text.split("/")` -/
def splitSlash : List Char → List (List Char)
  | [] => [[]]
  | c :: cs =>
    if c = '/' then [] :: splitSlash cs
    else match splitSlash cs with
      | [] => [[c]]
      | part :: rest => (c :: part) :: rest

theorem slash_notMem_splitSlash : ∀ (text part : List Char), part ∈ splitSlash text → '/' ∉ part
  | [], part, h => by
    simp only [splitSlash, List.mem_singleton] at h
    simp [h]
  | c :: cs, part, h => by
    have ih := slash_notMem_splitSlash cs
    simp only [splitSlash] at h
    split at h
    · rcases List.mem_cons.mp h with rfl | h
      · simp
      · exact ih part h
    · next hc =>
      split at h
      · simp only [List.mem_singleton] at h
        subst h
        simpa using Ne.symm hc
      · next head rest hs =>
        rcases List.mem_cons.mp h with rfl | h
        · have := ih head (by simp [hs])
          simp [Ne.symm hc, this]
        · exact ih part (by simp [hs, h])

/-- A path without its root: the components it is made of. -/
def components (text : List Char) : List (List Char) :=
  (splitSlash text).filter (fun part => part ≠ [] ∧ part ≠ ['.'])

theorem component_of_mem {text part : List Char} (h : part ∈ components text) : Component part := by
  obtain ⟨hs, hp⟩ := List.mem_filter.mp h
  simp only [ne_eq, decide_eq_true_eq] at hp
  exact ⟨hp.1, hp.2, slash_notMem_splitSlash text part hs⟩

structure Path where
  root : List Char
  parts : List (List Char)
  clean : ∀ part ∈ parts, Component part
  deriving DecidableEq

namespace Path

/-- Two leading slashes are kept; one, or three and more, count as one. -/
def rootOf : List Char → List Char
  | '/' :: '/' :: '/' :: _ => ['/']
  | '/' :: '/' :: _ => ['/', '/']
  | '/' :: _ => ['/']
  | _ => []

def ofChars (text : List Char) : Path :=
  ⟨rootOf text, components text, fun _ h => component_of_mem h⟩

/-- `Path(text)` -/
def parse (text : String) : Path := ofChars text.toList

/-- `self / other`: an absolute `other` replaces `self`. -/
def join (p q : Path) : Path :=
  if q.root = [] then
    ⟨p.root, p.parts ++ q.parts, fun part h =>
      (List.mem_append.mp h).elim (p.clean part) (q.clean part)⟩
  else q

/-- `path.parent` -/
def parent (p : Path) : Path :=
  ⟨p.root, p.parts.dropLast, fun part h => p.clean part (List.dropLast_subset _ h)⟩

/-- The last component, or nothing. -/
def name (p : Path) : List Char := p.parts.getLast?.getD []

/-- The text before and after the last dot. -/
def splitLastDot : List Char → Option (List Char × List Char)
  | [] => none
  | c :: cs =>
    match splitLastDot cs with
    | some (before, after) => some (c :: before, after)
    | none => if c = '.' then some ([], cs) else none

/-- The stem and the suffix of a name: a dot that is the first or the last character does
    not start a suffix. -/
def splitName (name : List Char) : List Char × List Char :=
  match splitLastDot name with
  | some (before, after) =>
    if before ≠ [] ∧ after ≠ [] then (before, '.' :: after) else (name, [])
  | none => (name, [])

def stem (p : Path) : List Char := (splitName p.name).1

def suffix (p : Path) : List Char := (splitName p.name).2

/-- `str(path)` -/
def str (p : Path) : String :=
  if p.root = [] ∧ p.parts = [] then "."
  else String.ofList (p.root ++ List.intercalate ['/'] p.parts)

example : (parse "/data//in/./a.tar.gz").str = "/data/in/a.tar.gz" := by decide
example : (parse "/data//in/./a.tar.gz").name = "a.tar.gz".toList := by decide
example : (parse "/data/in/a.tar.gz").stem = "a.tar".toList := by decide
example : (parse "/data/in/.hidden").suffix = [] := by decide

theorem splitLastDot_eq : ∀ {name before after : List Char},
    splitLastDot name = some (before, after) → name = before ++ '.' :: after
  | [], _, _, h => by simp [splitLastDot] at h
  | c :: cs, before, after, h => by
    simp only [splitLastDot] at h
    split at h
    · next b a hs =>
      simp only [Option.some.injEq, Prod.mk.injEq] at h
      obtain ⟨rfl, rfl⟩ := h
      rw [splitLastDot_eq hs, List.cons_append]
    · split at h
      · next hc =>
        simp only [Option.some.injEq, Prod.mk.injEq] at h
        obtain ⟨rfl, rfl⟩ := h
        simp [hc]
      · cases h

theorem stem_append_suffix (p : Path) : p.stem ++ p.suffix = p.name := by
  unfold stem suffix splitName
  split
  · next before after hs =>
    split
    · simp [splitLastDot_eq hs]
    · simp
  · simp

theorem name_component (p : Path) : p.name = [] ∨ Component p.name := by
  unfold name
  cases h : p.parts.getLast? with
  | none => exact .inl rfl
  | some part => exact .inr (p.clean part (List.mem_of_getLast? h))

theorem slash_notMem_stem (p : Path) : '/' ∉ p.stem := by
  intro h
  have hn : '/' ∈ p.name := by
    rw [← stem_append_suffix]
    exact List.mem_append_left _ h
  rcases name_component p with hz | hc
  · rw [hz] at hn
    cases hn
  · exact hc.2.2 hn

end Path
end Vshift
