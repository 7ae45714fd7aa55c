import Vshift.Codec

/- Models read from a dictionary, field by field.

   A dictionary is seen through the value it has under each name. A `Reader` reads
   some fields of a model; it names the fields, and the result depends on these only
   (`read_congr`), so that whatever else the dictionary holds is ignored
   (`read_of_unnamed`). Fields are read in order, as in `Codec`. -/
namespace Document
variable {K V ε α β : Type}

/-- The item, or a value that is not valid. -/
def orInvalid : Option α → Except (Rejection ε) α
  | some a => .ok a
  | none => .error .invalid

/-- Every item of a list. -/
def readAll (read : V → Except (Rejection ε) α) : List V → Except (Rejection ε) (List α)
  | [] => .ok []
  | v :: vs => (both (read v) (readAll read vs)).map fun p => p.1 :: p.2

/-- `d[key] = value`, where `is` finds the key. -/
def assign (is : K → Bool) (key : K) (value : β) (d : List (K × β)) : List (K × β) :=
  if d.any (fun e => is e.1) then d.map fun e => if is e.1 then (e.1, value) else e
  else d ++ [(key, value)]

/-- Some fields of a model. -/
structure Reader (V ε α : Type) where
  names : List String
  read : (String → Option V) → Except (Rejection ε) α
  read_congr : ∀ {get get' : String → Option V}, (∀ name ∈ names, get name = get' name) →
    read get = read get'

namespace Reader

/-- One field; a missing one has its default, if there is one. -/
def field (name : String) (read : V → Except (Rejection ε) α) (default : Option α) :
    Reader V ε α where
  names := [name]
  read get := match get name with
    | some v => read v
    | none => orInvalid default
  read_congr h := by rw [h name List.mem_cons_self]

def and (r : Reader V ε α) (s : Reader V ε β) : Reader V ε (α × β) where
  names := r.names ++ s.names
  read get := both (r.read get) (s.read get)
  read_congr h := by
    rw [r.read_congr fun name hname => h name (List.mem_append_left _ hname),
      s.read_congr fun name hname => h name (List.mem_append_right _ hname)]

def map (f : α → β) (r : Reader V ε α) : Reader V ε β where
  names := r.names
  read get := (r.read get).map f
  read_congr h := by rw [r.read_congr h]

/-- A model with a validator over all its fields. -/
def checked (r : Reader V ε α) (check : α → Except (Rejection ε) Unit) : Reader V ε α where
  names := r.names
  read := withCheck r.read check
  read_congr h := by rw [withCheck, withCheck, r.read_congr h]

/-- Two dictionaries that differ under names of no field only. -/
theorem read_of_unnamed (r : Reader V ε α) {get get' : String → Option V} {name : String}
    (hname : name ∉ r.names) (h : ∀ other, other ≠ name → get other = get' other) :
    r.read get = r.read get' := by
  apply r.read_congr
  intro other hother
  apply h
  rintro rfl
  exact hname hother

/-! What a successful reading says. -/

/-- What holds of every value read. -/
def Gives (r : Reader V ε α) (P : α → Prop) : Prop := ∀ get a, r.read get = .ok a → P a

namespace Gives
variable {P : α → Prop} {Q : β → Prop} {r : Reader V ε α} {s : Reader V ε β}

theorem field {name : String} {read : V → Except (Rejection ε) α} {default : Option α}
    (hread : ∀ v a, read v = .ok a → P a) (hdefault : ∀ a, default = some a → P a) :
    (Reader.field name read default).Gives P := by
  intro get a h
  simp only [Reader.field] at h
  split at h
  · exact hread _ a h
  · cases default with
    | none => cases h
    | some b =>
      cases h
      exact hdefault a rfl

theorem left (h : r.Gives P) : (r.and s).Gives fun p => P p.1 :=
  fun get p hread => h get p.1 (both_ok.mp hread).1

theorem right (h : s.Gives Q) : (r.and s).Gives fun p => Q p.2 :=
  fun get p hread => h get p.2 (both_ok.mp hread).2

theorem and (hr : r.Gives P) (hs : s.Gives Q) : (r.and s).Gives fun p => P p.1 ∧ Q p.2 :=
  fun get p hread => ⟨hr.left get p hread, hs.right get p hread⟩

theorem map {f : α → β} (h : r.Gives P) (hf : ∀ a, P a → Q (f a)) : (r.map f).Gives Q := by
  intro get b hread
  obtain ⟨a, ha, rfl⟩ := map_ok.mp hread
  exact hf a (h get a ha)

theorem checked {check : α → Except (Rejection ε) Unit} (h : r.Gives P) :
    (r.checked check).Gives fun a => P a ∧ check a = .ok () := by
  intro get a hread
  obtain ⟨ha, hcheck⟩ := withCheck_ok.mp hread
  exact ⟨h get a ha, hcheck⟩

end Gives
end Reader

theorem assign_forall {is : K → Bool} {key : K} {value : β} {d : List (K × β)} {P : β → Prop}
    (hd : ∀ e ∈ d, P e.2) (hvalue : P value) : ∀ e ∈ assign is key value d, P e.2 := by
  intro e he
  unfold assign at he
  split at he
  · obtain ⟨old, hold, rfl⟩ := List.mem_map.mp he
    split
    · exact hvalue
    · exact hd old hold
  · rcases List.mem_append.mp he with hold | hnew
    · exact hd e hold
    · rw [List.mem_singleton.mp hnew]
      exact hvalue

section
variable {is other : K → Bool} {key : K} {value : β} {d : List (K × β)}

/-- The value just assigned is found under its key. -/
theorem find?_assign_self (hkey : is key = true) :
    ((assign is key value d).find? fun e => is e.1).map Prod.snd = some value := by
  unfold assign
  split
  · next hany =>
    induction d with
    | nil => cases hany
    | cons e d ih =>
      rw [List.map_cons]
      cases he : is e.1 with
      | true => simp [he]
      | false =>
        rw [List.any_cons, he, Bool.false_or] at hany
        rw [List.find?_cons_of_neg (by simp [he])]
        exact ih hany
  · next hany =>
    have hnone : d.find? (fun e => is e.1) = none := by
      rw [List.find?_eq_none]
      exact fun e he hfound => hany (List.any_eq_true.mpr ⟨e, he, hfound⟩)
    rw [List.find?_append, hnone]
    simp [hkey]

/-- Under the other keys the same is found as before. -/
theorem find?_assign_other (h : ∀ k, is k = true → other k = false) (hkey : is key = true) :
    ((assign is key value d).find? fun e => other e.1).map Prod.snd =
      (d.find? fun e => other e.1).map Prod.snd := by
  unfold assign
  split
  · next hany =>
    clear hany
    induction d with
    | nil => rfl
    | cons e d ih =>
      rw [List.map_cons]
      cases he : other e.1 with
      | true =>
        have his : is e.1 = false := by
          cases his : is e.1 with
          | false => rfl
          | true => exact absurd (he ▸ h e.1 his) (by decide)
        simp [his, he]
      | false =>
        rw [List.find?_cons_of_neg (by split <;> simp [he]), List.find?_cons_of_neg (by simp [he])]
        exact ih
  · rw [List.find?_append]
    simp [h key hkey]

/-- What an assignment to a key that is there leaves alone. -/
theorem assign_forall₂ (h : d.any (fun e => is e.1) = true) :
    List.Forall₂ (fun e e' => e'.1 = e.1 ∧ (is e.1 = false → e'.2 = e.2)) d
      (assign is key value d) := by
  rw [assign, if_pos h, List.forall₂_map_right_iff, List.forall₂_same]
  intro e _
  cases he : is e.1 with
  | true => exact ⟨rfl, fun hfalse => by cases hfalse⟩
  | false => exact ⟨rfl, fun _ => rfl⟩

end

theorem readAll_congr {read : V → Except (Rejection ε) α} : ∀ {vs vs' : List V},
    vs.map read = vs'.map read → readAll read vs = readAll read vs'
  | [], [], _ => rfl
  | v :: vs, v' :: vs', h => by
    obtain ⟨hhead, htail⟩ := List.cons.inj h
    rw [readAll, readAll, hhead, readAll_congr htail]

/-- What holds of whatever is read holds of all items read. -/
theorem readAll_forall {read : V → Except (Rejection ε) α} {P : α → Prop}
    (h : ∀ v a, read v = .ok a → P a) : ∀ {vs : List V} {as : List α},
    readAll read vs = .ok as → ∀ a ∈ as, P a
  | [], as, hread => by
    cases hread
    exact fun a ha => absurd ha List.not_mem_nil
  | v :: vs, as, hread => by
    obtain ⟨⟨b, bs⟩, hboth, rfl⟩ := map_ok.mp hread
    obtain ⟨hb, hbs⟩ := both_ok.mp hboth
    exact List.forall_mem_cons.mpr ⟨h v b hb, readAll_forall h hbs⟩

end Document
