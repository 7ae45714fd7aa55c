import Mathlib.Tactic.Basic

/- Command programs over a shared store, with the rules for reasoning about one
   of them.

   A `Program` is a tree of commands: every access to the store is an explicit
   `ask`, whose continuation gets the reply; a program ends with a value (`done`)
   or with an exception (`raise`). `Protocol` says what a program may assume of
   the replies it gets (`expects`), which commands it may issue (`allows`), and
   how what it knows moves with each exchange (`next`). `Obeys P p Q t`: from
   knowledge `t`, whatever expected replies come, `p` issues only allowed
   commands and ends in a result satisfying `Q`. A `Machine` gives the commands
   their effect; run alone on it, a program that obeys the machine's own protocol
   ends in its postcondition (`run_obeys`). -/
namespace Command

inductive Program (C : Type) (R : C → Type) (ε α : Type) where
  | done (a : α)
  | raise (e : ε)
  | ask (c : C) (k : R c → Program C R ε α)

/-- What a process may assume, must respect, and knows. -/
structure Protocol (C : Type) (R : C → Type) (T : Type) where
  allows : T → C → Prop
  expects : T → (c : C) → R c → Prop
  next : T → (c : C) → R c → T

/-- Two protocols at once. -/
def Protocol.both {C T T' : Type} {R : C → Type} (P : Protocol C R T) (P' : Protocol C R T') :
    Protocol C R (T × T') where
  allows t c := P.allows t.1 c ∧ P'.allows t.2 c
  expects t c r := P.expects t.1 c r ∧ P'.expects t.2 c r
  next t c r := (P.next t.1 c r, P'.next t.2 c r)

/-- A store: `answer s c x` is the reply to `c` in state `s` under the choice `x`
    (which settles what the store leaves open), if that choice is possible. -/
structure Machine (σ C χ : Type) (R : C → Type) where
  answer : σ → (c : C) → χ → Option (R c)
  effect : σ → (c : C) → R c → σ

namespace Program
variable {C : Type} {R : C → Type} {ε α β : Type}

def bind : Program C R ε α → (α → Program C R ε β) → Program C R ε β
  | done a, f => f a
  | raise e, _ => raise e
  | ask c k, f => ask c (fun r => (k r).bind f)

instance : Monad (Program C R ε) where
  pure := done
  bind := bind

/-- One command. -/
def call (c : C) : Program C R ε (R c) := ask c done

/-- Run `p`, and hand back its exception instead of raising it. -/
def attempt : Program C R ε α → Program C R ε (Except ε α)
  | done a => done (.ok a)
  | raise e => done (.error e)
  | ask c k => ask c (fun r => (k r).attempt)

/-- Raise what a reply carries as an exception. -/
def ofExcept : Except ε α → Program C R ε α
  | .ok a => done a
  | .error e => raise e

def discard (p : Program C R ε α) : Program C R ε Unit := p.bind (fun _ => done ())

/-- Every value the program can end in satisfies `φ`, whatever it is told. -/
def Returns (φ : α → Prop) : Program C R ε α → Prop
  | done a => φ a
  | raise _ => True
  | ask _ k => ∀ r, (k r).Returns φ

/-- The next command, if there is one. -/
def next? : Program C R ε α → Option C
  | ask c _ => some c
  | _ => none

theorem bind_eq (p : Program C R ε α) (f : α → Program C R ε β) : (p >>= f) = p.bind f := rfl

theorem bind_done (p : Program C R ε α) : p.bind done = p := by
  induction p with
  | done a => rfl
  | raise e => rfl
  | ask c k ih => exact congrArg (ask c) (funext ih)

theorem bind_bind {γ : Type} (p : Program C R ε α) (f : α → Program C R ε β)
    (g : β → Program C R ε γ) : (p.bind f).bind g = p.bind (fun a => (f a).bind g) := by
  induction p with
  | done a => rfl
  | raise e => rfl
  | ask c k ih => exact congrArg (ask c) (funext ih)

instance : LawfulMonad (Program C R ε) :=
  LawfulMonad.mk' _ bind_done (fun _ _ => rfl) bind_bind

theorem Returns.bind {φ : β → Prop} {f : α → Program C R ε β} (h : ∀ a, (f a).Returns φ)
    (p : Program C R ε α) : (p >>= f).Returns φ := by
  induction p with
  | done a => exact h a
  | raise e => trivial
  | ask c k ih => exact ih

theorem Returns.mono {φ φ' : α → Prop} {p : Program C R ε α} (h : p.Returns φ)
    (hφ : ∀ a, φ a → φ' a) : p.Returns φ' := by
  induction p with
  | done a => exact hφ a h
  | raise e => trivial
  | ask c k ih => exact fun r => ih r (h r)

theorem returns_of_forall {φ : α → Prop} (h : ∀ a, φ a) (p : Program C R ε α) : p.Returns φ := by
  induction p with
  | done a => exact h a
  | raise e => trivial
  | ask c k ih => exact ih

/-- A sequence attempted: the second part runs only if the first ends in a value. -/
theorem attempt_bind (p : Program C R ε α) (f : α → Program C R ε β) :
    (p >>= f).attempt = p.attempt >>= fun r =>
      match r with
      | .ok a => (f a).attempt
      | .error e => pure (.error e) := by
  induction p with
  | done a => rfl
  | raise e => rfl
  | ask c k ih => exact congrArg (ask c) (funext ih)

/-! A protocol followed through a program. -/

/-- From knowledge `t`, `p` keeps to `P` and ends in a result and knowledge satisfying `Q`. -/
def Obeys {T : Type} (P : Protocol C R T) : Program C R ε α → (Except ε α → T → Prop) → T → Prop
  | done a, Q, t => Q (.ok a) t
  | raise e, Q, t => Q (.error e) t
  | ask c k, Q, t => P.allows t c ∧ ∀ r, P.expects t c r → (k r).Obeys P Q (P.next t c r)

section
variable {T : Type} {P : Protocol C R T} {t : T}

@[simp] theorem obeys_done (a : α) (Q : Except ε α → T → Prop) :
    (done a : Program C R ε α).Obeys P Q t ↔ Q (.ok a) t := Iff.rfl

@[simp] theorem obeys_pure (a : α) (Q : Except ε α → T → Prop) :
    (pure a : Program C R ε α).Obeys P Q t ↔ Q (.ok a) t := Iff.rfl

@[simp] theorem obeys_raise (e : ε) (Q : Except ε α → T → Prop) :
    (raise e : Program C R ε α).Obeys P Q t ↔ Q (.error e) t := Iff.rfl

@[simp] theorem obeys_call (c : C) (Q : Except ε (R c) → T → Prop) :
    (call c : Program C R ε (R c)).Obeys P Q t ↔
      P.allows t c ∧ ∀ r, P.expects t c r → Q (.ok r) (P.next t c r) := Iff.rfl

/-- What is left to show once the first part of a sequence has ended. -/
def andThen (P : Protocol C R T) (f : α → Program C R ε β) (Q : Except ε β → T → Prop) :
    Except ε α → T → Prop
  | .ok a, t => (f a).Obeys P Q t
  | .error e, t => Q (.error e) t

@[simp] theorem andThen_ok (f : α → Program C R ε β) (Q : Except ε β → T → Prop) (a : α) :
    andThen P f Q (.ok a) t ↔ (f a).Obeys P Q t := Iff.rfl

@[simp] theorem andThen_error (f : α → Program C R ε β) (Q : Except ε β → T → Prop) (e : ε) :
    andThen P f Q (.error e) t ↔ Q (.error e) t := Iff.rfl

@[simp] theorem obeys_bind (p : Program C R ε α) (f : α → Program C R ε β)
    (Q : Except ε β → T → Prop) : (p >>= f).Obeys P Q t ↔ p.Obeys P (andThen P f Q) t := by
  induction p generalizing t with
  | done a => rfl
  | raise e => rfl
  | ask c k ih =>
    show (_ ∧ ∀ r, _ → ((k r) >>= f).Obeys P Q _) ↔ _
    simp only [ih]
    rfl

/-- A command and what follows it. -/
theorem obeys_call_bind (c : C) (f : R c → Program C R ε β) (Q : Except ε β → T → Prop) :
    (call c >>= f).Obeys P Q t ↔
      P.allows t c ∧ ∀ r, P.expects t c r → (f r).Obeys P Q (P.next t c r) := Iff.rfl

@[simp] theorem obeys_attempt (p : Program C R ε α) (Q : Except ε (Except ε α) → T → Prop) :
    p.attempt.Obeys P Q t ↔ p.Obeys P (fun r t => Q (.ok r) t) t := by
  induction p generalizing t with
  | done a => rfl
  | raise e => rfl
  | ask c k ih => simp only [attempt, Obeys, ih]

@[simp] theorem obeys_ofExcept (x : Except ε α) (Q : Except ε α → T → Prop) :
    (ofExcept x : Program C R ε α).Obeys P Q t ↔ Q x t := by
  cases x <;> rfl

@[simp] theorem obeys_discard (p : Program C R ε α) (Q : Except ε Unit → T → Prop) :
    p.discard.Obeys P Q t ↔ p.Obeys P (fun r t => Q (r.map (fun _ => ())) t) t := by
  have h := obeys_bind (P := P) (t := t) p (fun _ => done ()) Q
  rw [bind_eq] at h
  rw [discard, h]
  have e : andThen P (fun _ : α => (done () : Program C R ε Unit)) Q =
      fun r t => Q (r.map (fun _ => ())) t := by
    funext r t
    cases r <;> rfl
  rw [e]

theorem Obeys.mono {p : Program C R ε α} {Q Q' : Except ε α → T → Prop} (h : p.Obeys P Q t)
    (hQ : ∀ r t, Q r t → Q' r t) : p.Obeys P Q' t := by
  induction p generalizing t with
  | done a => exact hQ _ _ h
  | raise e => exact hQ _ _ h
  | ask c k ih => exact ⟨h.1, fun r hr => ih r (h.2 r hr)⟩

/-- A sequence from what is known of its first part. -/
theorem Obeys.seq {p : Program C R ε α} {f : α → Program C R ε β} {Qp : Except ε α → T → Prop}
    {Q : Except ε β → T → Prop} (hp : p.Obeys P Qp t)
    (hok : ∀ a t', Qp (.ok a) t' → (f a).Obeys P Q t')
    (herr : ∀ e t', Qp (.error e) t' → Q (.error e) t') : (p >>= f).Obeys P Q t := by
  refine (obeys_bind p f Q).mpr (hp.mono ?_)
  intro r t' hr
  cases r with
  | ok a => exact hok a t' hr
  | error e => exact herr e t' hr

/-- What a program ensures if it ends in a value. -/
def Ensures (Q : α → T → Prop) (r : Except ε α) (t : T) : Prop := ∀ a, r = .ok a → Q a t

theorem ensures_error {Q : α → T → Prop} {e : ε} : Ensures Q (.error e) t := by
  intro a heq
  cases heq

theorem ensures_ok {Q : α → T → Prop} {a : α} (h : Q a t) : Ensures Q (.ok a : Except ε α) t := by
  intro a' heq
  cases heq
  exact h

/-- What holds whichever value it is. -/
theorem ensures_of {S : T → Prop} (h : S t) (r : Except ε α) : Ensures (fun _ => S) r t :=
  fun _ _ => h

/-- A sequence whose parts ensure something if they end in values. -/
theorem Ensures.seq {p : Program C R ε α} {f : α → Program C R ε β} {Q : α → T → Prop}
    {Q' : β → T → Prop} (hp : p.Obeys P (Ensures Q) t)
    (hf : ∀ a t', Q a t' → (f a).Obeys P (Ensures Q') t') : (p >>= f).Obeys P (Ensures Q') t :=
  hp.seq (fun a t' h => hf a t' (h a rfl)) fun _ _ _ => ensures_error

/-- Who keeps to two protocols keeps to both at once. -/
theorem Obeys.both {T' : Type} {P' : Protocol C R T'} {p : Program C R ε α}
    {Q : Except ε α → T → Prop} {Q' : Except ε α → T' → Prop} {t' : T'} (h : p.Obeys P Q t)
    (h' : p.Obeys P' Q' t') :
    p.Obeys (P.both P') (fun r t => Q r t.1 ∧ Q' r t.2) (t, t') := by
  induction p generalizing t t' with
  | done a => exact ⟨h, h'⟩
  | raise e => exact ⟨h, h'⟩
  | ask c k ih =>
    exact ⟨⟨h.1, h'.1⟩, fun r hr => ih r (h.2 r hr.1) (h'.2 r hr.2)⟩

/-- What every value a program can end in satisfies, its value satisfies. -/
theorem Obeys.returns {p : Program C R ε α} {Q : Except ε α → T → Prop} {φ : α → Prop}
    (h : p.Obeys P Q t) (hp : p.Returns φ) :
    p.Obeys P (fun r t => Q r t ∧ ∀ a, r = .ok a → φ a) t := by
  induction p generalizing t with
  | done a => exact ⟨h, fun a' ha => Except.ok.inj ha ▸ hp⟩
  | raise e => exact ⟨h, fun a' ha => by cases ha⟩
  | ask c k ih => exact ⟨h.1, fun r hr => ih r (h.2 r hr) (hp r)⟩

/-- What every exchange keeps still holds at the end. -/
theorem Obeys.stable {p : Program C R ε α} {Q : Except ε α → T → Prop} (S : T → Prop)
    (hS : ∀ t c r, S t → S (P.next t c r)) (h : p.Obeys P Q t) (ht : S t) :
    p.Obeys P (fun r t => Q r t ∧ S t) t := by
  induction p generalizing t with
  | done a => exact ⟨h, ht⟩
  | raise e => exact ⟨h, ht⟩
  | ask c k ih => exact ⟨h.1, fun r hr => ih r (h.2 r hr) (hS t c r ht)⟩

end

end Program

/-! A program run alone. -/

namespace Machine
variable {σ C χ : Type} {R : C → Type} {ε α : Type}

/-- What a program running alone knows is the whole state of the store. -/
def protocol (m : Machine σ C χ R) : Protocol C R σ where
  allows _ _ := True
  expects s c r := ∃ x, m.answer s c x = some r
  next := m.effect

/-- A command and what follows it, for every reply some choice gives. -/
theorem obeys_call_bind {β : Type} {m : Machine σ C χ R} {c : C} {f : R c → Program C R ε β}
    {Q : Except ε β → σ → Prop} {s : σ} : (Program.call c >>= f).Obeys m.protocol Q s ↔
      ∀ x r, m.answer s c x = some r → (f r).Obeys m.protocol Q (m.effect s c r) := by
  constructor
  · exact fun h x r hr => h.2 r ⟨x, hr⟩
  · exact fun h => ⟨trivial, fun r ⟨x, hr⟩ => h x r hr⟩

/-- Run `p` alone, one choice of the tape for each command; `none` when a choice is impossible. -/
def run [Inhabited χ] (m : Machine σ C χ R) :
    Program C R ε α → List χ → σ → Option (Except ε α × σ)
  | .done a, _, s => some (.ok a, s)
  | .raise e, _, s => some (.error e, s)
  | .ask c k, tape, s =>
    match m.answer s c tape.head! with
    | none => none
    | some r => m.run (k r) tape.tail (m.effect s c r)

theorem run_obeys [Inhabited χ] {m : Machine σ C χ R} {p : Program C R ε α}
    {Q : Except ε α → σ → Prop} : ∀ {tape : List χ} {s : σ} {r : Except ε α} {s' : σ},
    m.run p tape s = some (r, s') → p.Obeys m.protocol Q s → Q r s' := by
  induction p with
  | done a =>
    intro tape s r s' h hp
    simp only [run, Option.some.injEq, Prod.mk.injEq] at h
    obtain ⟨rfl, rfl⟩ := h
    exact hp
  | raise e =>
    intro tape s r s' h hp
    simp only [run, Option.some.injEq, Prod.mk.injEq] at h
    obtain ⟨rfl, rfl⟩ := h
    exact hp
  | ask c k ih =>
    intro tape s r s' h hp
    simp only [run] at h
    split at h
    · cases h
    · next reply hr => exact ih reply h (hp.2 reply ⟨_, hr⟩)

theorem obeys_of_returns {m : Machine σ C χ R} {φ : α → Prop} {p : Program C R ε α}
    (h : p.Returns φ) {s : σ} : p.Obeys m.protocol (Program.Ensures fun a _ => φ a) s := by
  induction p generalizing s with
  | done b => exact Program.ensures_ok h
  | raise e => exact Program.ensures_error
  | ask c k ih => exact ⟨trivial, fun r _ => ih r (h r)⟩

theorem run_returns [Inhabited χ] {m : Machine σ C χ R} {φ : α → Prop} {p : Program C R ε α}
    {tape : List χ} {s s' : σ} {a : α} (hrun : m.run p tape s = some (.ok a, s'))
    (h : p.Returns φ) : φ a :=
  run_obeys hrun (obeys_of_returns h) a rfl

/-- A sequence whose parts run alike on every tape. -/
theorem run_seq {β : Type} [Inhabited χ] {m : Machine σ C χ R} {p : Program C R ε α}
    {f : α → Program C R ε β} {a : α} {t s' : σ} {r : Except ε β} : ∀ {s : σ},
    (∀ tape, m.run p tape s = some (.ok a, t)) → (∀ tape, m.run (f a) tape t = some (r, s')) →
    ∀ tape, m.run (p >>= f) tape s = some (r, s') := by
  induction p with
  | done b =>
    intro s hp hf tape
    have h := hp tape
    simp only [run, Option.some.injEq, Prod.mk.injEq, Except.ok.injEq] at h
    obtain ⟨rfl, rfl⟩ := h
    exact hf tape
  | raise e =>
    intro s hp
    have h := hp []
    simp only [run, Option.some.injEq, Prod.mk.injEq, reduceCtorEq, false_and] at h
  | ask c k ih =>
    intro s hp hf tape
    show m.run (.ask c fun r => k r >>= f) tape s = _
    have h := hp tape
    rw [run] at h ⊢
    cases hr : m.answer s c tape.head! with
    | none =>
      rw [hr] at h
      cases h
    | some reply =>
      rw [hr] at h
      -- the same first choice can go before any other tape
      apply ih reply (fun tape' => ?_) hf
      have h' := hp (tape.head! :: tape')
      have hhead : m.answer s c (tape.head! :: tape').head! = some reply := hr
      rw [run, hhead] at h'
      exact h'

/-- What holds at the end of every run is what the machine's protocol ensures: a reply that can
    be expected is one that some choice gives. -/
theorem obeys_iff_run [Inhabited χ] {m : Machine σ C χ R} {p : Program C R ε α}
    {Q : Except ε α → σ → Prop} : ∀ {s : σ}, p.Obeys m.protocol Q s ↔
      ∀ (tape : List χ) (r : Except ε α) (s' : σ), m.run p tape s = some (r, s') → Q r s' := by
  refine fun {s} => ⟨fun hp _ _ _ h => run_obeys h hp, ?_⟩
  induction p generalizing s with
  | done a => exact fun h => h [] _ _ rfl
  | raise e => exact fun h => h [] _ _ rfl
  | ask c k ih =>
    intro h
    refine ⟨trivial, ?_⟩
    intro r ⟨x, hx⟩
    apply ih
    intro tape r' s' hrun
    -- the choice behind the reply goes first on the tape
    apply h (x :: tape)
    have hhead : m.answer s c (x :: tape).head! = some r := hx
    rw [run, hhead]
    exact hrun

/-- The commands that are answered in every state, whatever is chosen. -/
def total (m : Machine σ C χ R) : Protocol C R Unit where
  allows _ c := ∀ s x, (m.answer s c x).isSome
  expects _ _ _ := True
  next t _ _ := t

/-- A program of such commands only. -/
def Settled (m : Machine σ C χ R) (p : Program C R ε α) : Prop :=
  p.Obeys m.total (fun _ _ => True) ()

namespace Settled
variable {m : Machine σ C χ R} {β : Type}

theorem pure (a : α) : m.Settled (Pure.pure a : Program C R ε α) := trivial

theorem raise (e : ε) : m.Settled (.raise e : Program C R ε α) := trivial

theorem call {c : C} (h : ∀ s x, (m.answer s c x).isSome) :
    m.Settled (.call c : Program C R ε (R c)) :=
  ⟨h, fun _ _ => trivial⟩

theorem ofExcept (x : Except ε α) : m.Settled (Program.ofExcept x : Program C R ε α) := by
  cases x <;> trivial

theorem bind {p : Program C R ε α} {f : α → Program C R ε β} (hp : m.Settled p)
    (hf : ∀ a, m.Settled (f a)) : m.Settled (p >>= f) := by
  refine (Program.obeys_bind p f _).mpr (hp.mono ?_)
  intro r t _
  cases r with
  | ok a => exact hf a
  | error e => trivial

theorem attempt {p : Program C R ε α} (hp : m.Settled p) : m.Settled p.attempt :=
  (Program.obeys_attempt p _).mpr hp

/-- A machine that answers everything settles every program. -/
theorem of_total (h : ∀ s c x, (m.answer s c x).isSome) (p : Program C R ε α) : m.Settled p := by
  induction p with
  | done a => trivial
  | raise e => trivial
  | ask c k ih => exact ⟨fun s x => h s c x, fun r _ => ih r⟩

/-- A settled program runs to its end on every tape. -/
theorem run [Inhabited χ] {p : Program C R ε α} (h : m.Settled p) :
    ∀ (tape : List χ) (s : σ), ∃ r s', m.run p tape s = some (r, s') := by
  induction p with
  | done a => exact fun _ s => ⟨.ok a, s, rfl⟩
  | raise e => exact fun _ s => ⟨.error e, s, rfl⟩
  | ask c k ih =>
    intro tape s
    obtain ⟨r, hr⟩ := Option.isSome_iff_exists.mp (h.1 s tape.head!)
    obtain ⟨r', s', hrun⟩ := ih r (h.2 r trivial) tape.tail (m.effect s c r)
    exact ⟨r', s', by rw [Machine.run, hr]; exact hrun⟩

end Settled
end Machine
end Command
