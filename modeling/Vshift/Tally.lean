import Mathlib.Data.List.Basic
import Mathlib.Logic.Function.Basic

/- Lists that hold exactly the keys that are in one state.

   A store keeps the state of each key; next to it stands a list (a queue) that
   should hold each key in state `t` once and no other key. `keep`, `push` and
   `pop` are the ways one key's change of state goes along with the list. -/
namespace Command
variable {κ τ : Type} [DecidableEq κ] [DecidableEq τ]

/-- `l` holds every key in state `t` once, and no other key. -/
def Tallies (l : List κ) (state : κ → Option τ) (t : τ) : Prop :=
  ∀ k, l.count k = if state k = some t then 1 else 0

namespace Tallies
variable {l : List κ} {state : κ → Option τ} {t u : τ} {k : κ}

theorem nil (h : ∀ k, state k ≠ some t) : Tallies [] state t := by
  intro k
  rw [List.count_nil, if_neg (h k)]

theorem mem_iff (h : Tallies l state t) : k ∈ l ↔ state k = some t := by
  rw [← List.count_pos_iff, h k]
  split <;> simp [*]

/-- A key moves between other states. -/
theorem keep (h : Tallies l state t) (hold : state k ≠ some t) (hnew : u ≠ t) :
    Tallies l (Function.update state k (some u)) t := by
  intro j
  rw [h j]
  by_cases hj : j = k
  · subst hj
    rw [Function.update_self, if_neg hold, if_neg (fun he => hnew (Option.some.inj he))]
  · rw [Function.update_of_ne hj]

/-- A key enters the state and is added. -/
theorem push (h : Tallies l state t) (hold : state k ≠ some t) :
    Tallies (l ++ [k]) (Function.update state k (some t)) t := by
  intro j
  rw [List.count_append, h j]
  by_cases hj : j = k
  · subst hj
    rw [Function.update_self, if_neg hold, if_pos rfl, List.count_singleton_self]
  · rw [Function.update_of_ne hj, List.count_cons_of_ne (Ne.symm hj), List.count_nil, Nat.add_zero]

/-- The first key of the list leaves the state and is taken. -/
theorem pop (h : Tallies l state t) (hk : l.head? = some k) (hnew : u ≠ t) :
    Tallies l.tail (Function.update state k (some u)) t := by
  obtain ⟨rest, rfl⟩ := List.head?_eq_some_iff.mp hk
  intro j
  have hj := h j
  rw [List.tail_cons]
  by_cases he : j = k
  · subst he
    rw [List.count_cons_self] at hj
    rw [Function.update_self, if_neg (fun he => hnew (Option.some.inj he))]
    split at hj <;> omega
  · rw [List.count_cons_of_ne (Ne.symm he)] at hj
    rw [Function.update_of_ne he, hj]

end Tallies
end Command
