import Vshift.Pool
import Mathlib.Data.List.Forall2

/- Commands that are carried out by programs.

   A program may take as one command what is in truth a call: a program over a second store.
   `inline` puts the bodies of the calls in their places, and each command of a body carries the
   call it belongs to. What a program keeps to is kept to by the inlined one, if the bodies do
   their part (`obeys_inline`). Any number of inlined programs, interleaved at the commands of the
   bodies and killed within calls, are matched by the programs they come from, with calls that are
   single commands (`inlined_run`): so what is known of those holds for these. -/
namespace Command

/-- A command of the program, or one of the body of a call. -/
inductive Nested (C D : Type) where
  | own (c : C)
  | inner (c : C) (d : D)
  deriving DecidableEq

abbrev Nested.Reply {C D : Type} (R : C → Type) (R' : D → Type) : Nested C D → Type
  | own c => R c
  | inner _ d => R' d

/-- The bodies of the commands that are calls. -/
abbrev Bodies (C D : Type) (R : C → Type) (R' : D → Type) (ε : Type) : Type :=
  (c : C) → Option (Program D R' ε (R c))

namespace Program
variable {C D : Type} {R : C → Type} {R' : D → Type} {ε α β : Type}

/-- The body of a call of `c`, or what is left of it. -/
def inside (c : C) : Program D R' ε α → Program (Nested C D) (Nested.Reply R R') ε α
  | done a => done a
  | raise e => raise e
  | ask d k => ask (.inner c d) fun r => (k r).inside c

def inline (bodies : Bodies C D R R' ε) :
    Program C R ε α → Program (Nested C D) (Nested.Reply R R') ε α
  | done a => done a
  | raise e => raise e
  | ask c k =>
    match bodies c with
    | none => ask (.own c) fun r => (k r).inline bodies
    | some body => (body.inside c).bind fun r => (k r).inline bodies

/-- The program ends in a value that satisfies `φ`, whatever it is told. -/
def Yields (φ : α → Prop) : Program C R ε α → Prop
  | done a => φ a
  | raise _ => False
  | ask _ k => ∀ r, (k r).Yields φ

theorem yields_attempt {φ : Except ε α → Prop} {p : Program C R ε α}
    (h : p.Returns fun a => φ (.ok a)) (herr : ∀ e, φ (.error e)) : p.attempt.Yields φ := by
  induction p with
  | done a => exact h
  | raise e => exact herr e
  | ask c k ih => exact fun r => ih r (h r)

section
variable {T T' : Type} {P : Protocol C R T} {P' : Protocol (Nested C D) (Nested.Reply R R') T'}

/-- A body keeps to the protocol of the whole, if that has room for what the body keeps to. -/
theorem obeys_inside {B : Type} {Pb : Protocol D R' B} {c : C} (view : B → T' → Prop)
    (hview : ∀ b t d, view b t → Pb.allows b d → P'.allows t (.inner c d) ∧
      ∀ r, P'.expects t (.inner c d) r →
        Pb.expects b d r ∧ view (Pb.next b d r) (P'.next t (.inner c d) r))
    {p : Program D R' ε α} {Q : Except ε α → B → Prop} : ∀ {b : B} {t : T'}, p.Obeys Pb Q b →
      view b t → (p.inside c).Obeys P' (fun r t => ∃ b, view b t ∧ Q r b) t := by
  induction p with
  | done a => exact fun h hb => ⟨_, hb, h⟩
  | raise e => exact fun h hb => ⟨_, hb, h⟩
  | ask d k ih =>
    intro b t h hb
    obtain ⟨hallows, hnext⟩ := hview b t d hb h.1
    exact ⟨hallows, fun r hr => ih r (h.2 r (hnext r hr).1) (hnext r hr).2⟩

/-- The inlined program keeps to its protocol as the program does to its own. -/
theorem obeys_inline {bodies : Bodies C D R R' ε} (view : T → T' → Prop)
    (hown : ∀ t t' c, view t t' → bodies c = none → P.allows t c → P'.allows t' (.own c) ∧
      ∀ r, P'.expects t' (.own c) r →
        P.expects t c r ∧ view (P.next t c r) (P'.next t' (.own c) r))
    (hcall : ∀ t t' c body, view t t' → bodies c = some body → P.allows t c →
      (body.inside c).Obeys P' (fun outcome t'' => ∃ r, outcome = .ok r ∧ P.expects t c r ∧
        view (P.next t c r) t'') t')
    {p : Program C R ε α} {Q : Except ε α → T → Prop} : ∀ {t : T} {t' : T'}, p.Obeys P Q t →
      view t t' → (p.inline bodies).Obeys P' (fun r t' => ∃ t, view t t' ∧ Q r t) t' := by
  induction p with
  | done a => exact fun h ht => ⟨_, ht, h⟩
  | raise e => exact fun h ht => ⟨_, ht, h⟩
  | ask c k ih =>
    intro t t' h ht
    unfold inline
    cases hc : bodies c with
    | none =>
      obtain ⟨hallows, hnext⟩ := hown t t' c ht hc h.1
      exact ⟨hallows, fun r hr => ih r (h.2 r (hnext r hr).1) (hnext r hr).2⟩
    | some body =>
      refine (hcall t t' c body ht hc h.1).seq (fun a t'' hq => ?_) (fun e t'' hq => ?_)
      · obtain ⟨r, hr, hexpects, hview⟩ := hq
        cases hr
        exact ih a (h.2 a hexpects) hview
      · obtain ⟨r, hr, -⟩ := hq
        cases hr

end

end Program

/-! Systems. -/

/-- Two machines side by side, each with its own commands and choices. -/
def Machine.beside {σ τ C D χ ψ : Type} {R : C → Type} {R' : D → Type} (M : Machine σ C χ R)
    (N : Machine τ D ψ R') : Machine (σ × τ) (Nested C D) (χ × ψ) (Nested.Reply R R') where
  answer
    | s, .own c, x => M.answer s.1 c x.1
    | s, .inner _ d, x => N.answer s.2 d x.2
  effect
    | s, .own c, r => (M.effect s.1 c r, s.2)
    | s, .inner _ d, r => (s.1, N.effect s.2 d r)

section
variable {σ τ L C D χ ψ E F ε : Type} {R : C → Type} {R' : D → Type}

/-- The system whose calls are carried out on a second machine. -/
def System.inlined (S : System σ L C χ E R ε) (bodies : Bodies C D R R' ε)
    (N : Machine τ D ψ R') (env : F → τ → τ) :
    System (σ × τ) L (Nested C D) (χ × ψ) (E ⊕ F) (Nested.Reply R R') ε where
  machine := S.machine.beside N
  code l := (S.code l).inline bodies
  env
    | .inl e, s => (S.env e s.1, s.2)
    | .inr e, s => (s.1, env e s.2)

/-- A reply the machine may give in any state, without an effect. -/
def Machine.Free (M : Machine σ C χ R) (c : C) (r : R c) : Prop :=
  ∀ s, (∃ x, M.answer s c x = some r) ∧ M.effect s c r = s

/-- The bodies do what the calls are taken for: each takes a step at least, and ends in a reply
    that is free. -/
structure Bodies.Faithful (bodies : Bodies C D R R' ε) (M : Machine σ C χ R) : Prop where
  starts : ∀ c body, bodies c = some body → ∃ d k, body = .ask d k
  answers : ∀ c body, bodies c = some body → body.Yields (M.Free c)

/-- What is left of an inlined program, and of the program itself: the calls before are over, the
    next one has not returned. -/
inductive Unfolds (bodies : Bodies C D R R' ε) (M : Machine σ C χ R) {α : Type} :
    Program (Nested C D) (Nested.Reply R R') ε α → Program C R ε α → Prop
  | done (a) : Unfolds bodies M (.done a) (.done a)
  | raise (e) : Unfolds bodies M (.raise e) (.raise e)
  | own {c k} (hc : bodies c = none) :
      Unfolds bodies M (.ask (.own c) fun r => (k r).inline bodies) (.ask c k)
  | inner {c k d} {body : R' d → Program D R' ε (R c)} (hc : bodies c ≠ none)
      (hbody : ∀ r, (body r).Yields (M.Free c)) :
      Unfolds bodies M
        (.ask (.inner c d) fun r => ((body r).inside c).bind fun r => (k r).inline bodies)
        (.ask c k)

variable {bodies : Bodies C D R R' ε} {M : Machine σ C χ R}

theorem unfolds_inline (h : bodies.Faithful M) {α : Type} (p : Program C R ε α) :
    Unfolds bodies M (p.inline bodies) p := by
  cases p with
  | done a => exact .done a
  | raise e => exact .raise e
  | ask c k =>
    unfold Program.inline
    cases hc : bodies c with
    | none => exact .own hc
    | some body =>
      have hyields := h.answers c body hc
      obtain ⟨d, kb, rfl⟩ := h.starts c body hc
      exact .inner (by rw [hc]; exact Option.some_ne_none _) hyields

/-- A call that goes on has returned, or has not. -/
theorem unfolds_inside (h : bodies.Faithful M) {α : Type} {c : C} {k : R c → Program C R ε α}
    (hc : bodies c ≠ none) {body : Program D R' ε (R c)}
    (hbody : body.Yields (M.Free c)) :
    Unfolds bodies M ((body.inside c).bind fun r => (k r).inline bodies) (.ask c k) ∨
      ∃ r, M.Free c r ∧
        Unfolds bodies M ((body.inside c).bind fun r => (k r).inline bodies) (k r) := by
  cases body with
  | done r => exact .inr ⟨r, hbody, unfolds_inline h (k r)⟩
  | raise e => exact hbody.elim
  | ask d kb => exact .inl (.inner hc hbody)

/-- An exchange of a command of the program itself. -/
def Event.own? : Event (Nested C D) (Nested.Reply R R') → Option (Event C R)
  | ⟨.own c, r⟩ => some ⟨c, r⟩
  | ⟨.inner _ _, _⟩ => none

/-- A process with its calls carried out, and the process it shows: both had the same exchanges,
    in the same order, but for the calls. -/
structure Follows (bodies : Bodies C D R R' ε) (M : Machine σ C χ R)
    (q : Process L (Nested C D) (Nested.Reply R R') ε) (p : Process L C R ε) : Prop where
  label : q.label = p.label
  past : q.past.filterMap Event.own? = p.past.filter fun e => (bodies e.cmd).isNone
  rest : Option.Rel (Unfolds bodies M) q.rest p.rest

section
variable {l : L} {past : List (Event (Nested C D) (Nested.Reply R R'))} {past' : List (Event C R)}
  {rest : Option (Program (Nested C D) (Nested.Reply R R') ε Unit)}
  {rest' : Option (Program C R ε Unit)} {c : C}

theorem Follows.past_own (h : Follows bodies M ⟨l, past, rest⟩ ⟨l, past', rest'⟩)
    (hc : bodies c = none) (r : R c) :
    (⟨.own c, r⟩ :: past : List (Event (Nested C D) (Nested.Reply R R'))).filterMap Event.own? =
      (⟨c, r⟩ :: past' : List (Event C R)).filter fun e => (bodies e.cmd).isNone := by
  have hpast : past.filterMap Event.own? = past'.filter fun e => (bodies e.cmd).isNone := h.past
  rw [List.filter_cons_of_pos (by rw [hc]; rfl), ← hpast]
  rfl

theorem Follows.past_reply (h : Follows bodies M ⟨l, past, rest⟩ ⟨l, past', rest'⟩)
    (hc : bodies c ≠ none) (r : R c) :
    past.filterMap Event.own? =
      (⟨c, r⟩ :: past' : List (Event C R)).filter fun e => (bodies e.cmd).isNone := by
  have hpast : past.filterMap Event.own? = past'.filter fun e => (bodies e.cmd).isNone := h.past
  rw [List.filter_cons_of_neg (by rwa [Option.isNone_iff_eq_none]), ← hpast]

end

/-- Inside a call the process shown is at the call. -/
theorem Follows.next?_inner {q : Process L (Nested C D) (Nested.Reply R R') ε} {p : Process L C R ε}
    (h : Follows bodies M q p) {c : C} {d : D} (hq : q.next? = some (.inner c d)) :
    p.next? = some c := by
  obtain ⟨k, hrest⟩ := Process.next?_eq_some hq
  obtain ⟨l, past, rest⟩ := p
  have hrel : Option.Rel (Unfolds bodies M) (some (.ask (.inner c d) k)) rest := hrest ▸ h.rest
  cases hrel with
  | some hu =>
    cases hu
    rfl

/-- A command that is no call comes next in both. -/
theorem Follows.next?_own {q : Process L (Nested C D) (Nested.Reply R R') ε} {p : Process L C R ε}
    (h : Follows bodies M q p) {c : C} (hc : bodies c = none) (hp : p.next? = some c) :
    q.next? = some (.own c) := by
  obtain ⟨k, hrest⟩ := Process.next?_eq_some hp
  obtain ⟨l, past, rest⟩ := q
  have hrel : Option.Rel (Unfolds bodies M) rest (some (.ask c k)) := hrest ▸ h.rest
  cases hrel with
  | some hu =>
    cases hu with
    | own _ => rfl
    | inner hcall _ => exact absurd hc hcall

/-- The same store and, one by one, the same processes. -/
structure Matches (bodies : Bodies C D R R' ε) (M : Machine σ C χ R)
    (s : Pool (σ × τ) L (Nested C D) (Nested.Reply R R') ε) (t : Pool σ L C R ε) : Prop where
  store : s.store.1 = t.store
  procs : List.Forall₂ (Follows bodies M) s.procs t.procs

/-- An action, and what it is for the processes shown. -/
inductive Shows : Action L (χ × ψ) (E ⊕ F) → Action L χ E → Prop
  | spawn (l) : Shows (.spawn l) (.spawn l)
  | exec (pid x x') : Shows (.exec pid x) (.exec pid x')
  | kill (pid) : Shows (.kill pid) (.kill pid)
  | env (e) : Shows (.env (.inl e)) (.env e)

theorem forall₂_getElem? {A B : Type} {r : A → B → Prop} {as : List A} {bs : List B}
    (h : List.Forall₂ r as bs) : ∀ {i : Nat} {a : A}, as[i]? = some a →
      ∃ b, bs[i]? = some b ∧ r a b := by
  induction h with
  | nil => exact fun ha => by cases ha
  | @cons a b as bs hab _ ih =>
    intro i a' ha
    cases i with
    | zero =>
      cases ha
      exact ⟨b, rfl, hab⟩
    | succ i => exact ih ha

theorem forall₂_set {A B : Type} {r : A → B → Prop} {as : List A} {bs : List B}
    (h : List.Forall₂ r as bs) {a : A} {b : B} (hab : r a b) :
    ∀ i : Nat, List.Forall₂ r (as.set i a) (bs.set i b) := by
  induction h with
  | nil => exact fun i => .nil
  | cons hab' h ih =>
    intro i
    cases i with
    | zero => exact .cons hab h
    | succ i => exact .cons hab' (ih i)

theorem set_of_getElem? {A : Type} {as : List A} {i : Nat} {a : A} (h : as[i]? = some a) :
    as.set i a = as := by
  obtain ⟨hlt, rfl⟩ := List.getElem?_eq_some_iff.mp h
  exact List.set_getElem_self hlt

variable {S : System σ L C χ E R ε} (N : Machine τ D ψ R') (env : F → τ → τ)
  {s : Pool (σ × τ) L (Nested C D) (Nested.Reply R R') ε} {t : Pool σ L C R ε}

/-- A step with the calls carried out is a step of the processes shown, or it is inside a call and
    nothing is seen of it. -/
theorem inlined_step (h : bodies.Faithful S.machine) (hm : Matches bodies S.machine s t)
    (a : Action L (χ × ψ) (E ⊕ F)) :
    Matches bodies S.machine ((S.inlined bodies N env).step s a) t ∨
      ∃ a', Shows a a' ∧ Matches bodies S.machine ((S.inlined bodies N env).step s a)
        (S.step t a') := by
  have hcases := (S.inlined bodies N env).step_cases (s := s) a
  generalize (S.inlined bodies N env).step s a = s' at hcases
  cases hcases with
  | idle => exact .inl hm
  | env e =>
    cases e with
    | inl e => exact .inr ⟨_, .env e, congrArg (S.env e) hm.store, hm.procs⟩
    | inr e => exact .inl ⟨hm.store, hm.procs⟩
  | spawn l =>
    refine .inr ⟨_, .spawn l, hm.store, List.rel_append hm.procs (.cons ?_ .nil)⟩
    exact ⟨rfl, rfl, .some (unfolds_inline h _)⟩
  | @kill pid q hq =>
    obtain ⟨p, hp, hf⟩ := forall₂_getElem? hm.procs hq
    have hkilled : Follows bodies S.machine { q with rest := none } { p with rest := none } :=
      ⟨hf.label, hf.past, .none⟩
    refine .inr ⟨_, .kill pid, ?_⟩
    simp only [System.step, hp]
    exact ⟨hm.store, forall₂_set hm.procs hkilled pid⟩
  | @exec pid x l past n k r hq hr =>
    obtain ⟨⟨l', past', rest⟩, hp, hf⟩ := forall₂_getElem? hm.procs hq
    have hlabel : l = l' := hf.label
    subst hlabel
    have hrest : Option.Rel (Unfolds bodies S.machine) (some (.ask n k)) rest := hf.rest
    cases hrest with
    | some hu =>
      cases hu with
      | @own c kc hc =>
        have hr' : S.machine.answer t.store c x.1 = some r := hm.store ▸ hr
        have hnext : Follows bodies S.machine
            ⟨l, ⟨.own c, r⟩ :: past, some ((kc r).inline bodies)⟩
            ⟨l, ⟨c, r⟩ :: past', some (kc r)⟩ :=
          ⟨rfl, hf.past_own hc r, .some (unfolds_inline h _)⟩
        refine .inr ⟨_, .exec pid x x.1, ?_⟩
        simp only [System.step, hp, hr']
        exact ⟨congrArg (S.machine.effect · c r) hm.store, forall₂_set hm.procs hnext pid⟩
      | @inner c kc d body hc hbody =>
        rcases unfolds_inside h (k := kc) hc (hbody r) with hu | ⟨reply, hfree, hu⟩
        · -- the call goes on
          have hnext : Follows bodies S.machine
              ⟨l, ⟨.inner c d, r⟩ :: past, some (((body r).inside c).bind fun r =>
                (kc r).inline bodies)⟩ ⟨l, past', some (.ask c kc)⟩ := ⟨rfl, hf.past, .some hu⟩
          refine .inl ⟨hm.store, ?_⟩
          have hset := forall₂_set hm.procs hnext pid
          rw [set_of_getElem? hp] at hset
          exact hset
        · obtain ⟨⟨x', hx'⟩, heffect⟩ := hfree t.store
          have hnext : Follows bodies S.machine
              ⟨l, ⟨.inner c d, r⟩ :: past, some (((body r).inside c).bind fun r =>
                (kc r).inline bodies)⟩ ⟨l, ⟨c, reply⟩ :: past', some (kc reply)⟩ :=
            ⟨rfl, hf.past_reply hc reply, .some hu⟩
          refine .inr ⟨_, .exec pid x x', ?_⟩
          simp only [System.step, hp, hx']
          refine ⟨?_, forall₂_set hm.procs hnext pid⟩
          rw [heffect]
          exact hm.store

/-- A run with the calls carried out is matched by one in which they are single commands: of some
    of its actions, in their order, and which meets what these come to meet. -/
theorem inlined_run (h : bodies.Faithful S.machine)
    {ok : Pool (σ × τ) L (Nested C D) (Nested.Reply R R') ε → Action L (χ × ψ) (E ⊕ F) → Prop}
    {ok' : Pool σ L C R ε → Action L χ E → Prop}
    (hok : ∀ s t a a', Matches bodies S.machine s t → Shows a a' → ok s a → ok' t a')
    {as : List (Action L (χ × ψ) (E ⊕ F))} :
    ∀ {s t}, Matches bodies S.machine s t → Meets (S.inlined bodies N env).step ok s as →
      ∃ shown as', shown.Sublist as ∧ List.Forall₂ Shows shown as' ∧ Meets S.step ok' t as' ∧
        Matches bodies S.machine ((S.inlined bodies N env).run s as) (S.run t as') := by
  induction as with
  | nil => exact fun hm _ => ⟨[], [], .slnil, .nil, trivial, hm⟩
  | cons a as ih =>
    intro s t hm hmeets
    rcases inlined_step N env h hm a with hnext | ⟨a', ha, hnext⟩
    · obtain ⟨shown, as', hsub, hend⟩ := ih hnext hmeets.2
      exact ⟨shown, as', hsub.cons a, hend⟩
    · obtain ⟨shown, as', hsub, hshown, hmeets', hend⟩ := ih hnext hmeets.2
      exact ⟨a :: shown, a' :: as', hsub.cons_cons a, .cons ha hshown,
        ⟨hok s t a a' hm ha hmeets.1, hmeets'⟩, hend⟩

end
end Command
