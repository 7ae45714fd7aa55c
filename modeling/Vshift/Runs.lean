import Mathlib.Tactic.Basic

/- Runs of a total step function: a list of actions taken one after another.

   `Meets step ok s as` says that every action of the run satisfies `ok` in the
   state it is taken in. `run_invariant` is the induction over runs. -/
namespace Command
variable {σ A : Type}

/-- The state after the actions, taken in order. -/
def runFrom (step : σ → A → σ) : σ → List A → σ
  | s, [] => s
  | s, a :: as => runFrom step (step s a) as

/-- Every action of the run meets `ok` in the state it is taken in. -/
def Meets (step : σ → A → σ) (ok : σ → A → Prop) : σ → List A → Prop
  | _, [] => True
  | s, a :: as => ok s a ∧ Meets step ok (step s a) as

instance Meets.decidable {step : σ → A → σ} {ok : σ → A → Prop} [∀ s a, Decidable (ok s a)] :
    ∀ (s : σ) (as : List A), Decidable (Meets step ok s as)
  | _, [] => isTrue trivial
  | s, a :: as =>
    have : Decidable (Meets step ok (step s a) as) := Meets.decidable (step s a) as
    inferInstanceAs (Decidable (ok s a ∧ Meets step ok (step s a) as))

section
variable {step : σ → A → σ} {ok ok' : σ → A → Prop}

theorem meets_append (as bs : List A) (s : σ) :
    Meets step ok s (as ++ bs) ↔ Meets step ok s as ∧ Meets step ok (runFrom step s as) bs := by
  induction as generalizing s with
  | nil => exact ⟨fun h => ⟨trivial, h⟩, fun h => h.2⟩
  | cons a as ih =>
    show (_ ∧ Meets step ok _ (as ++ bs)) ↔ (_ ∧ _) ∧ _
    rw [ih, and_assoc]
    rfl

/-- Actions that meet the condition in every state. -/
theorem meets_of_forall {as : List A} (h : ∀ a ∈ as, ∀ s, ok s a) : ∀ s, Meets step ok s as := by
  induction as with
  | nil => exact fun _ => trivial
  | cons a as ih =>
    intro s
    exact ⟨h a List.mem_cons_self s, ih (fun b hb => h b (List.mem_cons_of_mem _ hb)) _⟩

theorem meets_and {as : List A} : ∀ {s : σ}, Meets step ok s as → Meets step ok' s as →
    Meets step (fun s a => ok s a ∧ ok' s a) s as := by
  induction as with
  | nil => exact fun _ _ => trivial
  | cons a as ih => exact fun h h' => ⟨⟨h.1, h'.1⟩, ih h.2 h'.2⟩

/-- What holds at the start and is kept by every step that meets `ok` holds after every run
    whose steps all meet it. -/
theorem run_invariant (I : σ → Prop) (hstep : ∀ s a, I s → ok s a → I (step s a)) {as : List A} :
    ∀ {s : σ}, I s → Meets step ok s as → I (runFrom step s as) := by
  induction as with
  | nil => exact fun h _ => h
  | cons a as ih => exact fun h hm => ih (hstep _ a h hm.1) hm.2

/-- Two conditions that agree under an invariant kept by either hold along the same runs. -/
theorem meets_congr (I : σ → Prop) (hstep : ∀ s a, I s → ok s a → I (step s a))
    (h : ∀ s a, I s → (ok s a ↔ ok' s a)) {as : List A} :
    ∀ {s : σ}, I s → (Meets step ok s as ↔ Meets step ok' s as) := by
  induction as with
  | nil => exact fun _ => Iff.rfl
  | cons a as ih =>
    intro s hI
    constructor
    · exact fun hm => ⟨(h s a hI).mp hm.1, (ih (hstep s a hI hm.1)).mp hm.2⟩
    · intro hm
      have ha := (h s a hI).mpr hm.1
      exact ⟨ha, (ih (hstep s a hI ha)).mpr hm.2⟩

end

/-! What the steps of a run give off. -/

section
variable {B C : Type} {step : σ → A → σ}

/-- What the steps give off, in their order. -/
def emitted (step : σ → A → σ) (emit : σ → A → List B) : σ → List A → List B
  | _, [] => []
  | s, a :: as => emit s a ++ emitted step emit (step s a) as

theorem emitted_filterMap (emit : σ → A → List B) (f : B → Option C) (as : List A) : ∀ s : σ,
    (emitted step emit s as).filterMap f =
      emitted step (fun s a => (emit s a).filterMap f) s as := by
  induction as with
  | nil => exact fun _ => rfl
  | cons a as ih =>
    intro s
    rw [emitted, emitted, List.filterMap_append, ih]

/-- What every step gives off under an invariant, every step of the run gives off. -/
theorem emitted_forall {ok : σ → A → Prop} {emit : σ → A → List B} (I : σ → Prop) {Φ : B → Prop}
    (hstep : ∀ s a, I s → ok s a → I (step s a)) (hemit : ∀ s a, I s → ∀ b ∈ emit s a, Φ b)
    {as : List A} : ∀ {s : σ}, I s → Meets step ok s as → ∀ b ∈ emitted step emit s as, Φ b := by
  induction as with
  | nil => exact fun _ _ b hb => by cases hb
  | cons a as ih =>
    intro s h hm b hb
    rcases List.mem_append.mp hb with hb | hb
    · exact hemit s a h b hb
    · exact ih (hstep s a h hm.1) hm.2 b hb

/-- A queue: if each step takes from the front and adds at the end, so does the run, and what
    has been added is what has been taken, in the same order, and what is held. -/
theorem emitted_conserved (held : σ → List B) {taken added : σ → A → List B}
    (hstep : ∀ s a, taken s a ++ held (step s a) = held s ++ added s a) (as : List A) : ∀ s : σ,
    emitted step taken s as ++ held (runFrom step s as) = held s ++ emitted step added s as := by
  induction as with
  | nil => exact fun s => (List.append_nil _).symm
  | cons a as ih =>
    intro s
    calc emitted step taken s (a :: as) ++ held (runFrom step s (a :: as))
      _ = taken s a ++ (emitted step taken (step s a) as ++ held (runFrom step (step s a) as)) :=
        List.append_assoc _ _ _
      _ = taken s a ++ held (step s a) ++ emitted step added (step s a) as := by
        rw [ih, List.append_assoc]
      _ = held s ++ emitted step added s (a :: as) := by
        rw [hstep, List.append_assoc]
        rfl

end
end Command
