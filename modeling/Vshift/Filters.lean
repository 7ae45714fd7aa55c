import Vshift.Program

/- Programs behind a filter of the replies.

   What a store replies may still have to be decoded or validated before a program
   gets it, and that may fail. `p.through f` is `p` with `f` applied to every reply:
   it goes on with what `f` makes of the reply, or raises what `f` raises.

   A state `s` may be seen through a `view`. Where a command is `Clear`, the filter
   makes of every reply in `s` the reply in the view of `s`, and the effects agree.
   A program that gives clear commands only runs behind the filter on `s` as it runs
   without it on the view of `s` (`run_through`). -/
namespace Command
variable {σ C χ : Type} {R : C → Type} {ε α β : Type}

namespace Program

/-- `p`, with every reply passed through `f` first. -/
def through (f : (c : C) → R c → Except ε (R c)) : Program C R ε α → Program C R ε α
  | done a => done a
  | raise e => raise e
  | ask c k => ask c fun r => (ofExcept (f c r)).bind fun r' => (k r').through f

section
variable {f : (c : C) → R c → Except ε (R c)}

theorem through_bind (p : Program C R ε α) (g : α → Program C R ε β) :
    (p >>= g).through f = p.through f >>= fun a => (g a).through f := by
  induction p with
  | done a => rfl
  | raise e => rfl
  | ask c k ih =>
    show ask c (fun r => (ofExcept (f c r)).bind fun r' => (k r' >>= g).through f) =
      ask c fun r => ((ofExcept (f c r)).bind fun r' => (k r').through f).bind _
    simp only [ih, bind_bind]
    rfl

theorem obeys_through_call {T : Type} {P : Protocol C R T} {c : C} {Q : Except ε (R c) → T → Prop}
    {t : T} : ((call c).through f).Obeys P Q t ↔
      P.allows t c ∧ ∀ r, P.expects t c r → Q (f c r) (P.next t c r) := by
  refine and_congr_right fun _ => forall_congr' fun r => forall_congr' fun _ => ?_
  exact (obeys_bind _ _ _).trans ((obeys_ofExcept _ _).trans (by cases f c r <;> rfl))

end

end Program

namespace Machine

/-- In state `s` the filter makes of every reply to `c` the reply in the view of `s`. -/
structure Clear (m : Machine σ C χ R) (f : (c : C) → R c → Except ε (R c)) (view : σ → σ) (s : σ)
    (c : C) : Prop where
  refused : ∀ x, m.answer s c x = none → m.answer (view s) c x = none
  answered : ∀ x r, m.answer s c x = some r → ∃ r', f c r = .ok r' ∧
    m.answer (view s) c x = some r' ∧ view (m.effect s c r) = m.effect (view s) c r'

/-- The machine's protocol, where only some commands are allowed in a state. -/
def within (m : Machine σ C χ R) (ok : σ → C → Prop) : Protocol C R σ :=
  { m.protocol with allows := ok }

section
variable {m : Machine σ C χ R} {ok : σ → C → Prop} {f : (c : C) → R c → Except ε (R c)}
  {view : σ → σ}

/-- A program that keeps to a protocol alone on the machine, as long as the protocol keeps to the
    allowed commands and the machine's replies are those it expects. -/
theorem obeys_within {T : Type} {P : Protocol C R T} {I : T → σ → Prop}
    (hstep : ∀ t s c, I t s → P.allows t c → ok s c ∧ ∀ x r, m.answer s c x = some r →
      P.expects t c r ∧ I (P.next t c r) (m.effect s c r)) {p : Program C R ε α}
    {Q : Except ε α → T → Prop} {t : T} {s : σ} (h : p.Obeys P Q t) (hI : I t s) :
    p.Obeys (m.within ok) (fun r s' => ∃ t', Q r t' ∧ I t' s') s := by
  induction p generalizing t s with
  | done a => exact ⟨t, h, hI⟩
  | raise e => exact ⟨t, h, hI⟩
  | ask c k ih =>
    obtain ⟨hok, hreply⟩ := hstep t s c hI h.1
    refine ⟨hok, ?_⟩
    intro r ⟨x, hx⟩
    obtain ⟨hexpects, hnext⟩ := hreply x r hx
    exact ih r (h.2 r hexpects) hnext

variable [Inhabited χ]

/-- One command, behind the filter and on the view. -/
theorem run_clear {c : C} {s : σ} (hc : m.Clear f view s c) {k k' : R c → Program C R ε α}
    {tape : List χ} (h : ∀ r r', f c r = .ok r' → m.answer (view s) c tape.head! = some r' →
      view (m.effect s c r) = m.effect (view s) c r' →
      (m.run (k r) tape.tail (m.effect s c r)).map (Prod.map id view) =
        m.run (k' r') tape.tail (view (m.effect s c r))) :
    (m.run (.ask c k) tape s).map (Prod.map id view) = m.run (.ask c k') tape (view s) := by
  rw [run, run]
  cases hr : m.answer s c tape.head! with
  | none =>
    rw [hc.refused _ hr]
    rfl
  | some r =>
    obtain ⟨r', hf, hr', heffect⟩ := hc.answered _ r hr
    rw [hr']
    dsimp only
    rw [← heffect]
    exact h r r' hf hr' heffect

/-- A program that gives clear commands only, behind the filter. -/
theorem run_through (hclear : ∀ s c, ok (view s) c → m.Clear f view s c)
    {p : Program C R ε α} {Q : Except ε α → σ → Prop} : ∀ {s : σ},
    p.Obeys (m.within ok) Q (view s) → ∀ tape : List χ,
      (m.run (p.through f) tape s).map (Prod.map id view) = m.run p tape (view s) := by
  induction p with
  | done a => exact fun _ _ => rfl
  | raise e => exact fun _ _ => rfl
  | ask c k ih =>
    intro s h tape
    apply run_clear (hclear s c h.1)
    intro r r' hf hr' heffect
    rw [hf]
    refine ih r' ?_ _
    rw [heffect]
    exact h.2 r' ⟨_, hr'⟩

/-- A part whose exceptions are handed to what follows it, each of them behind the filter. -/
theorem run_attempt_through (hclear : ∀ s c, ok (view s) c → m.Clear f view s c)
    {p : Program C R ε α} {g : Except ε α → Program C R ε β} {Q : Except ε β → σ → Prop} :
    ∀ {s : σ}, p.Obeys (m.within ok) (fun r s' => (g r).Obeys (m.within ok) Q s') (view s) →
      ∀ tape : List χ,
        (m.run ((p.through f).attempt >>= fun r => (g r).through f) tape s).map (Prod.map id view) =
          m.run (p.attempt >>= g) tape (view s) := by
  induction p with
  | done a => exact fun h => run_through hclear h
  | raise e => exact fun h => run_through hclear h
  | ask c k ih =>
    intro s h tape
    apply run_clear (hclear s c h.1)
    intro r r' hf hr' heffect
    dsimp only
    rw [hf]
    refine ih r' ?_ _
    rw [heffect]
    exact h.2 r' ⟨_, hr'⟩

/-- What holds, seen through the view, at the end of every run behind the filter. -/
theorem obeys_through_iff (hclear : ∀ s c, ok (view s) c → m.Clear f view s c)
    {p : Program C R ε α} {Q' : Except ε α → σ → Prop} {s : σ}
    (hok : p.Obeys (m.within ok) Q' (view s)) {Q : Except ε α → σ → Prop} :
    (p.through f).Obeys m.protocol (fun r s' => Q r (view s')) s ↔
      p.Obeys m.protocol Q (view s) := by
  rw [obeys_iff_run, obeys_iff_run]
  have hrun := run_through hclear hok
  constructor
  · intro h tape r v hv
    rw [← hrun, Option.map_eq_some_iff] at hv
    obtain ⟨⟨r', s'⟩, hs', heq⟩ := hv
    cases heq
    exact h tape r' s' hs'
  · intro h tape r s' hs'
    apply h tape r (view s')
    rw [← hrun, hs']
    rfl

end
end Machine
end Command
