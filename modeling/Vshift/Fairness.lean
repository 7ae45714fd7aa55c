import Vshift.Runs
import Mathlib.Order.WellFounded

/- Endless runs, and what must come to pass in them.

   `stateAt step s as n` is the state before turn `n` of the run that takes the actions `as`
   one after another. `helped` is the rule of a fair scheduler: what lasts until a goal is
   reached, and would reach it by one action, reaches it once that action is taken at some later
   turn. `exhausts` is the rule of a variant: what is made smaller again and again comes to its
   end. -/
namespace Command
variable {σ A : Type}

def stateAt (step : σ → A → σ) (s : σ) (as : Nat → A) : Nat → σ
  | 0 => s
  | n + 1 => step (stateAt step s as n) (as n)

/-- What the steps keep holds before every turn. -/
theorem stateAt_invariant {step : σ → A → σ} {ok : σ → A → Prop} {s : σ} {as : Nat → A}
    (I : σ → Prop) (hstep : ∀ s a, I s → ok s a → I (step s a)) (hs : I s)
    (hok : ∀ n, ok (stateAt step s as n) (as n)) : ∀ n, I (stateAt step s as n)
  | 0 => hs
  | n + 1 => hstep _ _ (stateAt_invariant I hstep hs hok n) (hok n)

/-- A state that an action leaves as it is, from a turn on. -/
theorem stateAt_stays {step : σ → A → σ} {s s' : σ} {as : Nat → A} {n : Nat}
    (hn : stateAt step s as n = s') (hstep : ∀ m, n ≤ m → step s' (as m) = s') :
    ∀ m, n ≤ m → stateAt step s as m = s' := by
  intro m hm
  induction m, hm using Nat.le_induction with
  | base => exact hn
  | succ m hm ih => rw [stateAt, ih, hstep m hm]

section
variable {p goal : Nat → Prop} {n : Nat}

/-- What holds at a turn and is kept by every later one. -/
theorem lasts (hn : p n) (hstep : ∀ m, n ≤ m → p m → p (m + 1)) : ∀ m, n ≤ m → p m := by
  intro m hm
  induction m, hm using Nat.le_induction with
  | base => exact hn
  | succ m hm ih => exact hstep m hm ih

theorem helped (hn : p n) (hstep : ∀ m, n ≤ m → p m → p (m + 1) ∨ goal (m + 1))
    (hhelp : ∃ m, n ≤ m ∧ (p m → goal (m + 1))) : ∃ m, n ≤ m ∧ goal m := by
  by_contra hnever
  have hp : ∀ m, n ≤ m → p m := lasts hn fun m hm hpm =>
    (hstep m hm hpm).resolve_right fun hgoal => hnever ⟨m + 1, Nat.le_succ_of_le hm, hgoal⟩
  obtain ⟨m, hm, hgoal⟩ := hhelp
  exact hnever ⟨m + 1, Nat.le_succ_of_le hm, hgoal (hp m hm)⟩

theorem exhausts {α : Type} [Preorder α] [WellFoundedLT α] (v : Nat → α) {done : Nat → Prop} :
    ∀ {n}, (∀ m, n ≤ m → ¬ done m → ∃ k, m ≤ k ∧ v k < v m) → ∃ m, n ≤ m ∧ done m := by
  intro n h
  induction hv : v n using WellFoundedLT.induction generalizing n with
  | ind x ih =>
    by_cases hdone : done n
    · exact ⟨n, Nat.le_refl n, hdone⟩
    · obtain ⟨k, hk, hless⟩ := h n (Nat.le_refl n) hdone
      obtain ⟨m, hm, hdone⟩ := ih (v k) (hv ▸ hless) (fun m hm => h m (hk.trans hm)) rfl
      exact ⟨m, hk.trans hm, hdone⟩

/-- Finitely many things that come and stay are there together. -/
theorem together {ι : Type} {p : ι → Nat → Prop} {l : List ι}
    (h : ∀ i ∈ l, ∃ m, n ≤ m ∧ ∀ k, m ≤ k → p i k) :
    ∃ m, n ≤ m ∧ ∀ i ∈ l, ∀ k, m ≤ k → p i k := by
  induction l with
  | nil => exact ⟨n, Nat.le_refl n, List.forall_mem_nil _⟩
  | cons i l ih =>
    obtain ⟨m, hm, hall⟩ := ih fun j hj => h j (List.mem_cons_of_mem _ hj)
    obtain ⟨m', hm', hi⟩ := h i List.mem_cons_self
    refine ⟨max m m', hm.trans (le_max_left m m'), List.forall_mem_cons.mpr ⟨?_, ?_⟩⟩
    · exact fun k hk => hi k ((le_max_right m m').trans hk)
    · exact fun j hj k hk => hall j hj k ((le_max_left m m').trans hk)

end
end Command
