import Vshift.Program

/- Loops of commands, and replies a process may count on beyond what the store settles.

   `loop body is` takes one turn of `body` for each input of `is`: the inputs are what
   the guard and the body of the loop are told from outside, and they end where the
   guard fails. `loop_exhausts` is its rule with an invariant and a variant: where every
   turn takes the variant down, enough turns bring it to 0. `loop_turns` is the rule
   of a loop that none of its turns stops.
   `assuming` strengthens what a protocol expects; what a program does without the
   assumption it does with it. -/
namespace Command
variable {C : Type} {R : C → Type} {ε α ι : Type}

/-- The protocol where a process may also assume `good` of the replies. -/
def Protocol.assuming {T : Type} (P : Protocol C R T) (good : (c : C) → R c → Prop) :
    Protocol C R T :=
  { P with expects := fun t c r => P.expects t c r ∧ good c r }

namespace Program

/-- `while`: a turn answers whether to `break`. -/
def loop (body : ι → Program C R ε Bool) : List ι → Program C R ε Unit
  | [] => pure ()
  | i :: is => do
    let stop ← body i
    if stop then pure () else loop body is

section
variable {T : Type} {P : Protocol C R T} {good : (c : C) → R c → Prop} {t : T}

theorem Obeys.assuming {p : Program C R ε α} {Q : Except ε α → T → Prop} (h : p.Obeys P Q t) :
    p.Obeys (P.assuming good) Q t := by
  induction p generalizing t with
  | done a => exact h
  | raise e => exact h
  | ask c k ih => exact ⟨h.1, fun r hr => ih r (h.2 r hr.1)⟩

/-- A command whose reply is assumed to be good. -/
theorem obeys_call_assuming {c : C} {f : R c → Program C R ε α} {Q : Except ε α → T → Prop} :
    (call c >>= f).Obeys (P.assuming good) Q t ↔ P.allows t c ∧
      ∀ r, P.expects t c r → good c r → (f r).Obeys (P.assuming good) Q (P.next t c r) := by
  constructor
  · exact fun h => ⟨h.1, fun r hr hgood => h.2 r ⟨hr, hgood⟩⟩
  · exact fun h => ⟨h.1, fun r hr => h.2 r hr.1 hr.2⟩

variable {body : ι → Program C R ε Bool}

/-- A loop whose turns all take the variant down, as long as it is not 0, and raise nothing.
    With at least as many inputs as the variant, none of which lets the loop stop before, it ends
    with the variant at 0. -/
theorem loop_exhausts {I : T → Prop} (v : T → Nat) (mayStop : ι → Prop) {is : List ι}
    (hbody : ∀ i ∈ is, ∀ t, I t → (body i).Obeys P (fun r t' =>
      (∃ stop, r = .ok stop ∧ (stop = true → mayStop i)) ∧ I t' ∧ v t' ≤ v t - 1) t) :
    ∀ {t}, I t → v t ≤ is.length → (∀ i ∈ is.take (v t), ¬ mayStop i) →
      (loop body is).Obeys P (fun r t' => r = .ok () ∧ I t' ∧ v t' = 0) t := by
  induction is with
  | nil =>
    intro t h hlen _
    exact ⟨rfl, h, Nat.le_zero.mp hlen⟩
  | cons i is ih =>
    intro t h hlen hstay
    have hrest := @ih fun j hj => hbody j (List.mem_cons_of_mem _ hj)
    refine (hbody i List.mem_cons_self t h).seq ?_ (fun e t' h' => ?_)
    · intro stop t' ⟨⟨stop', heq, hstop⟩, h', hv⟩
      cases heq
      by_cases hzero : v t = 0
      · have hzero' : v t' = 0 := by omega
        cases stop with
        | true => exact ⟨rfl, h', hzero'⟩
        | false => exact hrest h' (by omega) (by rw [hzero']; nofun)
      · obtain ⟨n, hn⟩ := Nat.exists_eq_succ_of_ne_zero hzero
        rw [hn, List.take_succ_cons] at hstay
        cases stop with
        | true => exact absurd (hstop rfl) (hstay i List.mem_cons_self)
        | false =>
          rw [List.length_cons] at hlen
          refine hrest h' (by omega) fun j hj => hstay j (List.mem_cons_of_mem _ ?_)
          exact (List.take_prefix_take_left (show v t' ≤ n by omega)).subset hj
    · obtain ⟨⟨stop, heq, _⟩, _⟩ := h'
      cases heq

/-- A loop that no turn stops takes all its turns. The invariant may speak of those taken. -/
theorem loop_turns {I : List ι → T → Prop} {is : List ι}
    (hbody : ∀ i ∈ is, ∀ taken t, I taken t →
      (body i).Obeys P (fun r t' => r = .ok false ∧ I (taken ++ [i]) t') t) :
    ∀ {taken t}, I taken t →
      (loop body is).Obeys P (fun r t' => r = .ok () ∧ I (taken ++ is) t') t := by
  induction is with
  | nil =>
    intro taken t h
    rw [List.append_nil]
    exact ⟨rfl, h⟩
  | cons i is ih =>
    intro taken t h
    refine (hbody i List.mem_cons_self taken t h).seq ?_ (fun e t' h' => ?_)
    · rintro stop t' ⟨heq, h'⟩
      cases heq
      refine (ih (fun j hj => hbody j (List.mem_cons_of_mem _ hj)) h').mono fun r t'' hr => ?_
      rw [List.append_assoc, List.singleton_append] at hr
      exact hr
    · cases h'.1

end
end Program

/-- A run alone whose choices all give good replies. -/
theorem Machine.run_assuming {σ χ : Type} [Inhabited χ] {m : Machine σ C χ R}
    {good : (c : C) → R c → Prop} {fair : χ → Prop} {p : Program C R ε α}
    {Q : Except ε α → σ → Prop} (hgood : ∀ s c x r, fair x → m.answer s c x = some r → good c r)
    (hdefault : fair default) : ∀ {tape : List χ} {s : σ} {r : Except ε α} {s' : σ},
    m.run p tape s = some (r, s') → (∀ x ∈ tape, fair x) →
      p.Obeys (m.protocol.assuming good) Q s → Q r s' := by
  induction p with
  | done a =>
    intro tape s r s' hrun _ h
    cases hrun
    exact h
  | raise e =>
    intro tape s r s' hrun _ h
    cases hrun
    exact h
  | ask c k ih =>
    intro tape s r s' hrun hfair h
    simp only [Machine.run] at hrun
    split at hrun
    · cases hrun
    · next reply hreply =>
      have hhead : fair tape.head! := by
        cases tape with
        | nil => exact hdefault
        | cons x tape => exact hfair x List.mem_cons_self
      exact ih reply hrun (fun x hx => hfair x (List.mem_of_mem_tail hx))
        (h.2 reply ⟨⟨_, hreply⟩, hgood s c _ reply hhead hreply⟩)

end Command
