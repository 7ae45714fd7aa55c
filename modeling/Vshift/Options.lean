import Mathlib.Data.List.Nodup
import Mathlib.Data.List.Flatten

/- Option lists.

   An option is a flag with its value, and `render` writes options as the tokens of a
   command line. `Follows template args`: `args` renders options whose flags are among
   those of `template`, in its order and no more often. It is kept by everything that
   puts command lines together from parts, and what holds of the template's flags
   (which they are, how often one occurs) holds of those rendered. `pairs` reads the
   options of a command line back, and the first one under a flag is the one a lookup
   finds (`lookup_pairs`). -/
namespace Options
variable {α ι : Type}

def render (options : List (α × α)) : List α := options.flatMap fun option => [option.1, option.2]

/-- The tokens in flag position. -/
def flags (options : List (α × α)) : List α := options.map (·.1)

theorem render_append (l l' : List (α × α)) : render (l ++ l') = render l ++ render l' :=
  List.flatMap_append

theorem render_flatMap (f : ι → List (α × α)) (l : List ι) :
    render (l.flatMap f) = l.flatMap fun i => render (f i) :=
  List.flatMap_assoc

/-- The options at the head of a command line, a last token without a value left out. -/
def pairs : List α → List (α × α)
  | flag :: value :: rest => (flag, value) :: pairs rest
  | _ => []

theorem pairs_render (options : List (α × α)) (rest : List α) :
    pairs (render options ++ rest) = options ++ pairs rest := by
  induction options with
  | nil => rfl
  | cons option options ih => exact congrArg (option :: ·) ih

theorem lookup_pairs [BEq α] [LawfulBEq α] {before : List (α × α)} {flag : α}
    (h : flag ∉ flags before) (value : α) (rest : List α) :
    (pairs (render before ++ flag :: value :: rest)).lookup flag = some value := by
  have hbefore : before.lookup flag = none := by
    rw [List.lookup_eq_none_iff]
    intro option hmem
    apply bne_iff_ne.mpr
    exact fun heq => h (heq ▸ List.mem_map_of_mem hmem)
  rw [pairs_render, List.lookup_append, hbefore, Option.none_or, pairs, List.lookup_cons_self]

def Follows (template args : List α) : Prop :=
  ∃ options, args = render options ∧ (flags options).Sublist template

namespace Follows
variable {template template' args args' : List α}

theorem nil (template : List α) : Follows template [] :=
  ⟨[], rfl, List.nil_sublist _⟩

theorem pair (flag value : α) : Follows [flag] [flag, value] :=
  ⟨[(flag, value)], rfl, List.Sublist.refl _⟩

theorem append (h : Follows template args) (h' : Follows template' args') :
    Follows (template ++ template') (args ++ args') := by
  obtain ⟨options, rfl, hsub⟩ := h
  obtain ⟨options', rfl, hsub'⟩ := h'
  refine ⟨options ++ options', (render_append ..).symm, ?_⟩
  rw [flags, List.map_append]
  exact hsub.append hsub'

theorem mono (h : Follows template args) (hsub : template.Sublist template') :
    Follows template' args := by
  obtain ⟨options, hargs, hflags⟩ := h
  exact ⟨options, hargs, hflags.trans hsub⟩

/-- One of the options of a template. -/
theorem one {flag : α} (h : flag ∈ template) (value : α) : Follows template [flag, value] :=
  (pair flag value).mono (List.singleton_sublist.mpr h)

theorem flatMap {l : List ι} {t f : ι → List α} (h : ∀ i ∈ l, Follows (t i) (f i)) :
    Follows (l.flatMap t) (l.flatMap f) := by
  induction l with
  | nil => exact nil []
  | cons i l ih =>
    rw [List.flatMap_cons, List.flatMap_cons]
    apply append (h i List.mem_cons_self)
    exact ih fun j hj => h j (List.mem_cons_of_mem _ hj)

theorem elim {o : Option ι} {f : ι → List α} (h : ∀ i, Follows template (f i)) :
    Follows template (o.elim [] f) := by
  cases o with
  | none => exact nil template
  | some i => exact h i

theorem ite {c : Prop} [Decidable c] (h : Follows template args) :
    Follows template (if c then args else []) := by
  split
  · exact h
  · exact nil template

end Follows

/-! Settings as options. -/

section
variable {S : Type} (flag : S → α) (wanted : S → Option α)

/-- The options for the settings that have a value. -/
def offered (settings : List S) : List (α × α) :=
  settings.filterMap fun s => (wanted s).map (flag s, ·)

theorem offered_append (l l' : List S) :
    offered flag wanted (l ++ l') = offered flag wanted l ++ offered flag wanted l' :=
  List.filterMap_append

theorem offered_flatMap (f : ι → List S) (l : List ι) :
    offered flag wanted (l.flatMap f) = l.flatMap fun i => offered flag wanted (f i) :=
  List.filterMap_flatMap

theorem mem_flags_offered {settings : List S} {x : α}
    (h : x ∈ flags (offered flag wanted settings)) : ∃ s ∈ settings, flag s = x := by
  obtain ⟨option, hoption, rfl⟩ := List.mem_map.mp h
  obtain ⟨s, hs, heq⟩ := List.mem_filterMap.mp hoption
  obtain ⟨value, -, rfl⟩ := Option.map_eq_some_iff.mp heq
  exact ⟨s, hs, rfl⟩

variable {flag wanted} [BEq α] [LawfulBEq α]

theorem lookup_of_notMem {options : List (α × α)} {x : α} (h : x ∉ flags options) :
    options.lookup x = none := by
  rw [List.lookup_eq_none_iff]
  intro option hmem
  exact bne_iff_ne.mpr fun heq => h (heq ▸ List.mem_map_of_mem hmem)

/-- Where flags tell settings apart, a lookup finds what a setting was given. -/
theorem lookup_offered {settings : List S} {s : S} (hs : s ∈ settings)
    (hflag : ∀ s' ∈ settings, flag s' = flag s → s' = s) :
    (offered flag wanted settings).lookup (flag s) = wanted s := by
  induction settings with
  | nil => cases hs
  | cons head settings ih =>
    have htail : s ∈ settings →
        (offered flag wanted settings).lookup (flag s) = wanted s := fun hmem =>
      ih hmem fun s' hs' => hflag s' (List.mem_cons_of_mem _ hs')
    by_cases hhead : head = s
    · subst hhead
      cases hwanted : wanted head with
      | some value =>
        rw [offered, List.filterMap_cons, hwanted]
        exact List.lookup_cons_self
      | none =>
        have hskip : offered flag wanted (head :: settings) = offered flag wanted settings := by
          rw [offered, List.filterMap_cons, hwanted]
          rfl
        rw [hskip, ← hwanted]
        by_cases hmem : head ∈ settings
        · exact htail hmem
        · rw [hwanted]
          refine lookup_of_notMem fun hin => ?_
          obtain ⟨s', hs', heq⟩ := mem_flags_offered flag wanted hin
          exact hmem (hflag s' (List.mem_cons_of_mem _ hs') heq ▸ hs')
    · have hmem : s ∈ settings := (List.mem_cons.mp hs).resolve_left (Ne.symm hhead)
      have hne : flag s ≠ flag head := fun heq => hhead (hflag head List.mem_cons_self heq.symm)
      rw [← htail hmem, offered, List.filterMap_cons]
      cases wanted head with
      | none => rfl
      | some value =>
        rw [Option.map_some, List.lookup_cons, beq_false_of_ne hne]
        rfl

end
end Options
