import Mathlib.Tactic.Basic
import Mathlib.Data.List.Basic
import Mathlib.Data.List.Forall2

/- Codecs between data and document trees, with the values they keep.

   A `Doc` is a tree over some type of atoms. A `Codec` writes and reads one type
   of value, and its `Kept` says of exactly which values the reading gives back
   what was written (`read_write`). Codecs are put together from atoms, options,
   lists, checks and records, and `Kept` is put together with them, so that a
   record is kept if and only if each of its fields is and its check passes.

   Fields are all read before a failure is reported; an exception raised in the
   midst escapes at once (`both`). -/
namespace Document

inductive Doc (A : Type) where
  | null
  | atom (a : A)
  | list (items : List (Doc A))
  | obj (fields : List (String × Doc A))

section
variable {A : Type} [DecidableEq A]

mutual

def Doc.decEq : (d d' : Doc A) → Decidable (d = d')
  | .null, d' => match d' with
    | .null => .isTrue rfl
    | .atom _ | .list _ | .obj _ => .isFalse (fun h => by cases h)
  | .atom a, d' => match d' with
    | .atom a' => decidable_of_iff (a = a') (by rw [Doc.atom.injEq])
    | .null | .list _ | .obj _ => .isFalse (fun h => by cases h)
  | .list items, d' => match d' with
    | .list items' =>
      have := Doc.decEqList items items'
      decidable_of_iff (items = items') (by rw [Doc.list.injEq])
    | .null | .atom _ | .obj _ => .isFalse (fun h => by cases h)
  | .obj fields, d' => match d' with
    | .obj fields' =>
      have := Doc.decEqFields fields fields'
      decidable_of_iff (fields = fields') (by rw [Doc.obj.injEq])
    | .null | .atom _ | .list _ => .isFalse (fun h => by cases h)

def Doc.decEqList : (items items' : List (Doc A)) → Decidable (items = items')
  | [], [] => .isTrue rfl
  | [], _ :: _ => .isFalse (fun h => by cases h)
  | _ :: _, [] => .isFalse (fun h => by cases h)
  | d :: items, d' :: items' =>
    have := Doc.decEq d d'
    have := Doc.decEqList items items'
    decidable_of_iff (d = d' ∧ items = items') (by rw [List.cons.injEq])

def Doc.decEqFields : (fields fields' : List (String × Doc A)) → Decidable (fields = fields')
  | [], [] => .isTrue rfl
  | [], _ :: _ => .isFalse (fun h => by cases h)
  | _ :: _, [] => .isFalse (fun h => by cases h)
  | (name, d) :: fields, (name', d') :: fields' =>
    have := Doc.decEq d d'
    have := Doc.decEqFields fields fields'
    decidable_of_iff (name = name' ∧ d = d' ∧ fields = fields')
      (by rw [List.cons.injEq, Prod.mk.injEq, and_assoc])

end

instance : DecidableEq (Doc A) := Doc.decEq

end

/-- A value that is not valid, or an exception of the checks. -/
inductive Rejection (ε : Type) where
  | invalid
  | raised (e : ε)
  deriving DecidableEq

section
variable {V ε α β : Type}

def both : Except (Rejection ε) α → Except (Rejection ε) β → Except (Rejection ε) (α × β)
  | .ok a, .ok b => .ok (a, b)
  | .ok _, .error e => .error e
  | .error (.raised e), _ => .error (.raised e)
  | .error .invalid, .error (.raised e) => .error (.raised e)
  | .error .invalid, _ => .error .invalid

theorem both_ok {x : Except (Rejection ε) α} {y : Except (Rejection ε) β} {a : α} {b : β} :
    both x y = .ok (a, b) ↔ x = .ok a ∧ y = .ok b := by
  cases x with
  | ok a' =>
    cases y with
    | ok b' => simp [both]
    | error e => simp [both]
  | error e =>
    cases e with
    | raised e => simp [both]
    | invalid =>
      cases y with
      | ok b' => simp [both]
      | error e => cases e <;> simp [both]

theorem map_ok {x : Except ε α} {f : α → β} {b : β} :
    x.map f = .ok b ↔ ∃ a, x = .ok a ∧ f a = b := by
  cases x <;> simp [Except.map]

/-- A value that passes a check. -/
def withCheck (read : V → Except (Rejection ε) α) (check : α → Except (Rejection ε) Unit) (v : V) :
    Except (Rejection ε) α := do
  let a ← read v
  check a
  pure a

theorem withCheck_ok {read : V → Except (Rejection ε) α} {check : α → Except (Rejection ε) Unit}
    {v : V} {a : α} : withCheck read check v = .ok a ↔ read v = .ok a ∧ check a = .ok () := by
  unfold withCheck
  cases hread : read v with
  | error e => simp [bind, Except.bind]
  | ok b =>
    cases hcheck : check b with
    | error e =>
      simp only [bind, Except.bind, hcheck, reduceCtorEq, Except.ok.injEq, false_iff, not_and]
      rintro rfl
      simp [hcheck]
    | ok u =>
      simp only [bind, Except.bind, hcheck, pure, Except.pure, Except.ok.injEq]
      constructor
      · rintro rfl
        exact ⟨rfl, hcheck⟩
      · exact fun h => h.1

end

/-! Lists, item by item. -/

section
variable {α β γ ε : Type} {f : α → Except ε β}

theorem mapM_cons_ok {a : α} {l : List α} {bs : List β} : (a :: l).mapM f = .ok bs ↔
    ∃ b bs', f a = .ok b ∧ l.mapM f = .ok bs' ∧ bs = b :: bs' := by
  rw [List.mapM_cons]
  cases f a with
  | error e => simp [bind, Except.bind]
  | ok b =>
    cases l.mapM f with
    | error e => simp [bind, Except.bind]
    | ok bs' => simp [bind, Except.bind, pure, Except.pure, eq_comm]

theorem mapM_ok_iff {l : List α} : ∀ {bs : List β},
    l.mapM f = .ok bs ↔ List.Forall₂ (fun a b => f a = .ok b) l bs := by
  induction l with
  | nil =>
    intro bs
    rw [List.forall₂_nil_left_iff]
    exact ⟨fun h => by cases h; rfl, fun h => h ▸ rfl⟩
  | cons a l ih =>
    intro bs
    rw [mapM_cons_ok, List.forall₂_cons_left_iff]
    simp only [ih, exists_and_left]

theorem mapM_error_iff {l : List α} :
    (∃ e, l.mapM f = .error e) ↔ ∃ a ∈ l, ∃ e, f a = .error e := by
  induction l with
  | nil => exact iff_of_false (fun ⟨_, h⟩ => by cases h) (fun ⟨_, h, _⟩ => by cases h)
  | cons a l ih =>
    rw [List.mapM_cons, List.exists_mem_cons_iff, ← ih]
    cases f a with
    | error e => exact iff_of_true ⟨e, rfl⟩ (.inl ⟨e, rfl⟩)
    | ok b =>
      cases l.mapM f with
      | error e => exact iff_of_true ⟨e, rfl⟩ (.inr ⟨e, rfl⟩)
      | ok bs => simp [bind, Except.bind, pure, Except.pure]

/-- What is made of the results depends on what is made of each. -/
theorem mapM_map (view : β → γ) (l : List α) :
    (l.mapM f).map (List.map view) = l.mapM fun a => (f a).map view := by
  induction l with
  | nil => rfl
  | cons a l ih =>
    rw [List.mapM_cons, List.mapM_cons, ← ih]
    cases f a with
    | error e => rfl
    | ok b => cases l.mapM f <;> rfl

theorem mapM_congr {α' : Type} {g : α → Except ε β} {g' : α' → Except ε β} {l : List α}
    {l' : List α'} (h : List.Forall₂ (fun a a' => g a = g' a') l l') :
    l.mapM g = l'.mapM g' := by
  induction h with
  | nil => rfl
  | cons hhead _ ih => rw [List.mapM_cons, List.mapM_cons, hhead, ih]

end

/-- `Kept` is what is read back as it was written. -/
structure Codec (A ε α : Type) where
  write : α → Doc A
  read : Doc A → Except (Rejection ε) α
  Kept : α → Prop
  read_write : ∀ a, read (write a) = .ok a ↔ Kept a

namespace Codec
variable {A ε α β : Type}

/-- A value that is one atom. -/
def scalar (put : α → A) (get : A → Option α) (h : ∀ a, get (put a) = some a) : Codec A ε α where
  write a := .atom (put a)
  read
    | .atom x => match get x with
      | some a => .ok a
      | none => .error .invalid
    | _ => .error .invalid
  Kept _ := True
  read_write a := by simp [h]

/-- Values of `c` that pass a check. -/
def checked (c : Codec A ε α) (check : α → Except (Rejection ε) Unit) : Codec A ε α where
  write := c.write
  read d := do
    let a ← c.read d
    check a
    pure a
  Kept a := c.Kept a ∧ check a = .ok ()
  read_write a := by
    rw [← c.read_write a]
    exact withCheck_ok

/-- A value or nothing, which is written as null. -/
def optional (c : Codec A ε α) (h : ∀ a, c.Kept a → c.write a ≠ .null) :
    Codec A ε (Option α) where
  write
    | none => .null
    | some a => c.write a
  read
    | .null => .ok none
    | d => (c.read d).map some
  Kept o := ∀ a, o = some a → c.Kept a
  read_write o := by
    cases o with
    | none => simp
    | some a =>
      have hkept := c.read_write a
      have hnull := h a
      -- null is read as nothing, so no kept value may be written as null
      cases hd : c.write a with
      | null => simp [hd] at hnull ⊢; exact hnull
      | atom x => simp [← hkept, hd, map_ok]
      | list items => simp [← hkept, hd, map_ok]
      | obj fields => simp [← hkept, hd, map_ok]

def readAll (c : Codec A ε α) : List (Doc A) → Except (Rejection ε) (List α)
  | [] => .ok []
  | d :: ds => (both (c.read d) (c.readAll ds)).map fun p => p.1 :: p.2

theorem readAll_write (c : Codec A ε α) (l : List α) :
    c.readAll (l.map c.write) = .ok l ↔ ∀ a ∈ l, c.Kept a := by
  induction l with
  | nil => simp [readAll]
  | cons a l ih =>
    rw [List.map_cons, readAll, map_ok, List.forall_mem_cons, ← ih, ← c.read_write a, ← both_ok]
    constructor
    · intro ⟨⟨b, rest⟩, hread, heq⟩
      obtain ⟨hb, hrest⟩ := List.cons.inj heq
      rw [hread, ← hb, ← hrest]
    · exact fun hread => ⟨(a, l), hread, rfl⟩

def list (c : Codec A ε α) : Codec A ε (List α) where
  write l := .list (l.map c.write)
  read
    | .list ds => c.readAll ds
    | _ => .error .invalid
  Kept l := ∀ a ∈ l, c.Kept a
  read_write := c.readAll_write

/-- Nothing but `a` is read back of what was written of `a`. -/
def Definite (c : Codec A ε α) (a : α) : Prop := ∀ a', c.read (c.write a) = .ok a' → a' = a

section
variable {c : Codec A ε α} {a : α}

theorem definite_of_kept (h : c.Kept a) : c.Definite a := by
  intro a' hread
  rw [(c.read_write a).mpr h, Except.ok.injEq] at hread
  exact hread.symm

theorem Definite.checked (h : c.Definite a) (check : α → Except (Rejection ε) Unit) :
    (c.checked check).Definite a :=
  fun a' hread => h a' (withCheck_ok.mp hread).1

end

end Codec

/-- What is found under a name is an entry. -/
theorem mem_of_lookup {β : Type} {l : List (String × β)} {key : String} {value : β}
    (h : l.lookup key = some value) : (key, value) ∈ l := by
  obtain ⟨before, after, heq, -⟩ := List.lookup_eq_some_iff.mp h
  rw [heq]
  exact List.mem_append_right _ List.mem_cons_self

/-! Records. -/

/-- Some fields of a record of type `σ`, read as a tuple. -/
structure Fields (A ε σ τ : Type) where
  names : List String
  write : σ → List (String × Doc A)
  read : List (String × Doc A) → Except (Rejection ε) τ
  get : σ → τ
  Kept : σ → Prop
  names_write : ∀ s, (write s).map Prod.fst = names
  read_write : ∀ s o, (∀ e ∈ write s, o.lookup e.1 = some e.2) →
    (read o = .ok (get s) ↔ Kept s)

namespace Fields
variable {A ε σ τ υ α : Type}

/-- One field; a missing one has its default, if there is one. -/
def field (name : String) (c : Codec A ε α) (get : σ → α) (default : Option α) :
    Fields A ε σ α where
  names := [name]
  write s := [(name, c.write (get s))]
  read o := match o.lookup name with
    | some d => c.read d
    | none => match default with
      | some a => .ok a
      | none => .error .invalid
  get := get
  Kept s := c.Kept (get s)
  names_write _ := rfl
  read_write s o h := by
    have hname := h _ List.mem_cons_self
    simp only [hname]
    exact c.read_write (get s)

def and (f : Fields A ε σ τ) (g : Fields A ε σ υ) : Fields A ε σ (τ × υ) where
  names := f.names ++ g.names
  write s := f.write s ++ g.write s
  read o := both (f.read o) (g.read o)
  get s := (f.get s, g.get s)
  Kept s := f.Kept s ∧ g.Kept s
  names_write s := by rw [List.map_append, f.names_write, g.names_write]
  read_write s o h := by
    have hf := f.read_write s o fun e he => h e (List.mem_append_left _ he)
    have hg := g.read_write s o fun e he => h e (List.mem_append_right _ he)
    rw [both_ok, hf, hg]

/-- Each field is read back as what it was, or not at all. -/
def Definite (f : Fields A ε σ τ) (s : σ) : Prop :=
  ∀ o t, (∀ e ∈ f.write s, o.lookup e.1 = some e.2) → f.read o = .ok t → t = f.get s

section
variable {s : σ}

theorem Definite.field {name : String} {c : Codec A ε α} {get : σ → α} {default : Option α}
    (h : c.Definite (get s)) : (field name c get default).Definite s := by
  intro o a hwritten hread
  have hname := hwritten _ List.mem_cons_self
  apply h
  rw [← hread]
  simp only [Fields.field, hname]

theorem Definite.and {f : Fields A ε σ τ} {g : Fields A ε σ υ} (hf : f.Definite s)
    (hg : g.Definite s) : (f.and g).Definite s := by
  intro o t hwritten hread
  obtain ⟨hread, hread'⟩ := both_ok.mp hread
  exact Prod.ext (hf o _ (fun e he => hwritten e (List.mem_append_left _ he)) hread)
    (hg o _ (fun e he => hwritten e (List.mem_append_right _ he)) hread')

end

/-- In a list of entries with distinct names each entry is found under its name. -/
theorem lookup_of_mem {β : Type} {l : List (String × β)} (hn : (l.map Prod.fst).Nodup)
    {e : String × β} (he : e ∈ l) : l.lookup e.1 = some e.2 := by
  induction l with
  | nil => cases he
  | cons head l ih =>
    rw [List.map_cons, List.nodup_cons] at hn
    rw [List.lookup_cons]
    cases List.mem_cons.mp he with
    | inl heq => simp [heq]
    | inr hmem =>
      have hne : (e.1 == head.1) = false := by
        apply beq_false_of_ne
        intro heq
        exact hn.1 (heq ▸ List.mem_map_of_mem hmem)
      rw [hne]
      exact ih hn.2 hmem

/-- A record with all its fields. -/
def record (f : Fields A ε σ τ) (build : τ → σ) (hbuild : ∀ s, build (f.get s) = s)
    (hget : ∀ t, f.get (build t) = t) (hnames : f.names.Nodup) : Codec A ε σ where
  write s := .obj (f.write s)
  read
    | .obj o => (f.read o).map build
    | _ => .error .invalid
  Kept := f.Kept
  read_write s := by
    -- with distinct names every field finds what it wrote
    have hdistinct : ((f.write s).map Prod.fst).Nodup := (f.names_write s).symm ▸ hnames
    have hread := f.read_write s (f.write s) fun e he => lookup_of_mem hdistinct he
    rw [← hread, map_ok]
    constructor
    · intro ⟨t, ht, heq⟩
      rw [ht, ← heq, hget]
    · exact fun h => ⟨f.get s, h, hbuild s⟩

theorem Definite.record {f : Fields A ε σ τ} {build : τ → σ} {hbuild : ∀ s, build (f.get s) = s}
    {hget : ∀ t, f.get (build t) = t} {hnames : f.names.Nodup} {s : σ} (h : f.Definite s) :
    (record f build hbuild hget hnames).Definite s := by
  intro s' hread
  obtain ⟨t, ht, rfl⟩ := map_ok.mp hread
  have hdistinct : ((f.write s).map Prod.fst).Nodup := (f.names_write s).symm ▸ hnames
  rw [h _ t (fun e he => lookup_of_mem hdistinct he) ht, hbuild]

end Fields
end Document
