import Mathlib.Data.List.Basic

/- First occurrences by key.

   `unseen key seen l` goes through `l` and takes every element whose key has not
   been seen, neither before `l` nor earlier in it. What it takes covers the keys of
   `l` (`exists_unseen`), so that nothing is left to take the next time. Where the
   keys of `l` are distinct it is a filter (`unseen_eq_filter`). -/
namespace Unseen
variable {α κ : Type} [DecidableEq κ] (key : α → κ)

def unseen (seen : κ → Bool) : List α → List α
  | [] => []
  | a :: l =>
    if seen (key a) then unseen seen l
    else a :: unseen (fun k => k == key a || seen k) l

theorem unseen_of_seen {seen : κ → Bool} {a : α} {l : List α} (h : seen (key a) = true) :
    unseen key seen (a :: l) = unseen key seen l := by
  rw [unseen, if_pos h]

theorem unseen_of_new {seen : κ → Bool} {a : α} {l : List α} (h : seen (key a) = false) :
    unseen key seen (a :: l) = a :: unseen key (fun k => k == key a || seen k) l := by
  rw [unseen, h, if_neg Bool.false_ne_true]

/-- Every key of the list was seen before it, or is that of an element taken. -/
theorem exists_unseen {l : List α} : ∀ (seen : κ → Bool) {a : α}, a ∈ l →
    seen (key a) = true ∨ ∃ b ∈ unseen key seen l, key b = key a := by
  induction l with
  | nil => exact fun _ _ h => by cases h
  | cons head l ih =>
    intro seen a ha
    cases hs : seen (key head) with
    | true =>
      rw [unseen_of_seen key hs]
      rcases List.mem_cons.mp ha with rfl | ha
      · exact .inl hs
      · exact ih seen ha
    | false =>
      rw [unseen_of_new key hs]
      rcases List.mem_cons.mp ha with rfl | ha
      · exact .inr ⟨a, List.mem_cons_self, rfl⟩
      · rcases ih (fun k => k == key head || seen k) ha with h | ⟨b, hb, hkey⟩
        · rcases (Bool.or_eq_true ..).mp h with heq | hold
          · exact .inr ⟨head, List.mem_cons_self, (eq_of_beq heq).symm⟩
          · exact .inl hold
        · exact .inr ⟨b, List.mem_cons_of_mem _ hb, hkey⟩

/-- Where the keys are distinct, an element is taken exactly if its key was not seen before. -/
theorem unseen_eq_filter {l : List α} : ∀ {seen : κ → Bool}, (l.map key).Nodup →
    unseen key seen l = l.filter (fun a => !seen (key a)) := by
  induction l with
  | nil => exact fun _ => rfl
  | cons head l ih =>
    intro seen hn
    rw [List.map_cons, List.nodup_cons] at hn
    cases hs : seen (key head) with
    | true =>
      rw [unseen_of_seen key hs, ih hn.2, List.filter_cons_of_neg]
      rw [hs]
      exact Bool.false_ne_true
    | false =>
      rw [unseen_of_new key hs, ih hn.2, List.filter_cons_of_pos (by rw [hs]; rfl)]
      congr 1
      apply List.filter_congr
      intro a ha
      have hne : key a ≠ key head := fun heq => hn.1 (heq ▸ List.mem_map_of_mem ha)
      rw [beq_false_of_ne hne, Bool.false_or]

end Unseen
