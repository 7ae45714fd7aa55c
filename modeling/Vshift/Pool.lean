import Vshift.Program
import Vshift.Runs
import Mathlib.Data.List.Basic
import Mathlib.Logic.Function.Basic

/- Any number of command programs interleaved over one store.

   A `Pool` is a store and the processes started so far. A process carries its
   label, the commands it has executed with their replies (newest first; no step
   reads them), and the rest of its program, or nothing once it is killed. A run
   is a list of actions: start a process, let one execute its next command, kill
   one, or let the environment change the store. An action that is not possible
   changes nothing, so every list of actions is a run and every interleaving is
   one of them.

   `step_cases` says all a step can do. `obeyingTo_step` carries a protocol through
   a pool: as long as replies are the expected ones, every process keeps to it
   whatever the others do. `pool_stepTo` carries an invariant along with it, of the
   store and of what the processes know. -/
namespace Command

/-- A command a process executed, with the reply it got. -/
structure Event (C : Type) (R : C → Type) where
  cmd : C
  reply : R cmd

/-- An exchange of another command is not in sight when one is added. -/
theorem Event.mem_cons_of_ne {C : Type} {R : C → Type} {past : List (Event C R)} {c c' : C}
    {r : R c} {r' : R c'} (h : c' ≠ c) :
    (⟨c', r'⟩ : Event C R) ∈ ⟨c, r⟩ :: past ↔ ⟨c', r'⟩ ∈ past := by
  refine ⟨fun hmem => ?_, List.mem_cons_of_mem _⟩
  rcases List.mem_cons.mp hmem with he | hmem
  · exact absurd (congrArg Event.cmd he) h
  · exact hmem

structure Process (L C : Type) (R : C → Type) (ε : Type) where
  label : L
  past : List (Event C R)
  rest : Option (Program C R ε Unit)

structure Pool (σ L C : Type) (R : C → Type) (ε : Type) where
  store : σ
  procs : List (Process L C R ε)

inductive Action (L χ E : Type) where
  | spawn (l : L)
  | exec (pid : Nat) (x : χ)
  | kill (pid : Nat)
  | env (e : E)

/-- A machine, the program each label stands for, and the moves of the environment. -/
structure System (σ L C χ E : Type) (R : C → Type) (ε : Type) where
  machine : Machine σ C χ R
  code : L → Program C R ε Unit
  env : E → σ → σ

/-- The knowledge a protocol gives after the commands executed so far. -/
def Protocol.after {C : Type} {R : C → Type} {T : Type} (P : Protocol C R T) (t : T) :
    List (Event C R) → T
  | [] => t
  | e :: past => P.next (P.after t past) e.cmd e.reply

/-- The process has ended, by a result or by an exception. -/
def Process.Ended {L C : Type} {R : C → Type} {ε : Type} (p : Process L C R ε) : Prop :=
  match p.rest with
  | some (.ask _ _) => False
  | _ => True

/-- The process has ended by a result. -/
def Process.Returned {L C : Type} {R : C → Type} {ε : Type} (p : Process L C R ε) : Prop :=
  match p.rest with
  | some (.done _) => True
  | _ => False

instance {L C : Type} {R : C → Type} {ε : Type} (p : Process L C R ε) : Decidable p.Returned := by
  unfold Process.Returned
  split <;> infer_instance

/-- The command a live process executes next. -/
def Process.next? {L C : Type} {R : C → Type} {ε : Type} (p : Process L C R ε) : Option C :=
  p.rest.bind Program.next?

theorem Process.next?_eq_some {L C : Type} {R : C → Type} {ε : Type} {p : Process L C R ε} {c : C}
    (h : p.next? = some c) : ∃ k, p.rest = some (.ask c k) := by
  obtain ⟨prog, hrest, hnext⟩ := Option.bind_eq_some_iff.mp h
  cases prog with
  | done a => cases hnext
  | raise e => cases hnext
  | ask c' k =>
    cases hnext
    exact ⟨k, hrest⟩

namespace System
variable {σ L C χ E : Type} {R : C → Type} {ε : Type}

def step (S : System σ L C χ E R ε) (s : Pool σ L C R ε) : Action L χ E → Pool σ L C R ε
  | .spawn l => { s with procs := s.procs ++ [⟨l, [], some (S.code l)⟩] }
  | .exec pid x =>
    match s.procs[pid]? with
    | some ⟨l, past, some (.ask c k)⟩ =>
      match S.machine.answer s.store c x with
      | some r =>
        { store := S.machine.effect s.store c r
          procs := s.procs.set pid ⟨l, ⟨c, r⟩ :: past, some (k r)⟩ }
      | none => s
    | _ => s
  | .kill pid =>
    match s.procs[pid]? with
    | some p => { s with procs := s.procs.set pid { p with rest := none } }
    | none => s
  | .env e => { s with store := S.env e s.store }

/-- The pool after a list of actions. -/
def run (S : System σ L C χ E R ε) : Pool σ L C R ε → List (Action L χ E) → Pool σ L C R ε :=
  runFrom S.step

variable {S : System σ L C χ E R ε} {s : Pool σ L C R ε}

/-- What an action can do: start a process at the end of the list, exchange one command
    for a possible reply, kill a process, change the store from outside, or nothing. -/
inductive Effect (S : System σ L C χ E R ε) (s : Pool σ L C R ε) :
    Action L χ E → Pool σ L C R ε → Prop
  | idle (a) : Effect S s a s
  | spawn (l) : Effect S s (.spawn l) ⟨s.store, s.procs ++ [⟨l, [], some (S.code l)⟩]⟩
  | exec {pid x l past c k r} (hp : s.procs[pid]? = some ⟨l, past, some (.ask c k)⟩)
      (hr : S.machine.answer s.store c x = some r) :
      Effect S s (.exec pid x)
        ⟨S.machine.effect s.store c r, s.procs.set pid ⟨l, ⟨c, r⟩ :: past, some (k r)⟩⟩
  | kill {pid p} (hp : s.procs[pid]? = some p) :
      Effect S s (.kill pid) ⟨s.store, s.procs.set pid { p with rest := none }⟩
  | env (e) : Effect S s (.env e) ⟨S.env e s.store, s.procs⟩

theorem step_cases (a : Action L χ E) : Effect S s a (S.step s a) := by
  cases a with
  | spawn l => exact .spawn l
  | env e => exact .env e
  | kill pid =>
    simp only [step]
    split
    · next p hp => exact .kill hp
    · exact .idle _
  | exec pid x =>
    simp only [step]
    split
    · next l past c k hp =>
      split
      · next r hr => exact .exec hp hr
      · exact .idle _
    · exact .idle _

/-- As long as no process is killed, all are live. -/
theorem live_step {a : Action L χ E} (h : ∀ p ∈ s.procs, p.rest ≠ none)
    (hkill : ∀ pid, a ≠ .kill pid) : ∀ p ∈ (S.step s a).procs, p.rest ≠ none := by
  intro p hp
  have hs := S.step_cases (s := s) a
  generalize S.step s a = s' at hs hp
  cases hs with
  | idle => exact h p hp
  | env e => exact h p hp
  | spawn l =>
    rcases List.mem_append.mp hp with hp | hp
    · exact h p hp
    · rw [List.mem_singleton.mp hp]
      exact Option.some_ne_none _
  | exec hproc hr =>
    rcases List.mem_or_eq_of_mem_set hp with hp | hp
    · exact h p hp
    · rw [hp]
      exact Option.some_ne_none _
  | kill hproc => exact absurd rfl (hkill _)

end System

/-! Protocols in a pool. -/

section
variable {σ L C χ E T : Type} {R : C → Type} {ε : Type}

/-- Every exchange of the past was allowed and expected when it was made. -/
def Protocol.Kept (P : Protocol C R T) (t : T) : List (Event C R) → Prop
  | [] => True
  | e :: past =>
    P.Kept t past ∧ P.allows (P.after t past) e.cmd ∧ P.expects (P.after t past) e.cmd e.reply

/-- What the past brings about: kept by every exchange, it holds of the knowledge by now. -/
theorem Protocol.Kept.after {P : Protocol C R T} {t : T} (M : List (Event C R) → T → Prop)
    (h0 : M [] t)
    (hstep : ∀ past t c r, M past t → P.allows t c → P.expects t c r →
      M (⟨c, r⟩ :: past) (P.next t c r)) :
    ∀ {past : List (Event C R)}, P.Kept t past → M past (P.after t past) := by
  intro past
  induction past with
  | nil => exact fun _ => h0
  | cons e past ih => exact fun h => hstep past _ _ _ (ih h.1) h.2.1 h.2.2

/-- Every process has kept to the protocol, every live one goes on from what it knows by now,
    and it may only end in a result and knowledge that `Q` allows its label. -/
def ObeyingTo (P : Protocol C R T) (t₀ : L → T) (Q : L → Except ε Unit → T → Prop)
    (s : Pool σ L C R ε) : Prop :=
  ∀ p ∈ s.procs, P.Kept (t₀ p.label) p.past ∧ ∀ prog, p.rest = some prog →
    prog.Obeys P (Q p.label) (P.after (t₀ p.label) p.past)

/-- The same where `fin` speaks of the knowledge only. -/
def Obeying (P : Protocol C R T) (t₀ : L → T) (fin : T → Prop) (s : Pool σ L C R ε) : Prop :=
  ∀ p ∈ s.procs, P.Kept (t₀ p.label) p.past ∧ ∀ prog, p.rest = some prog →
    prog.Obeys P (fun _ t => fin t) (P.after (t₀ p.label) p.past)

variable {P : Protocol C R T} {t₀ : L → T} {fin : T → Prop} {Q : L → Except ε Unit → T → Prop}
  {s : Pool σ L C R ε}

theorem Obeying.to (h : Obeying P t₀ fin s) : ObeyingTo P t₀ (fun _ _ t => fin t) s := h

/-- The next command of a process is an allowed one. -/
theorem ObeyingTo.allows (h : ObeyingTo P t₀ Q s) {p : Process L C R ε} (hp : p ∈ s.procs) {c : C}
    (hn : p.next? = some c) : P.allows (P.after (t₀ p.label) p.past) c := by
  obtain ⟨k, hrest⟩ := Process.next?_eq_some hn
  exact ((h p hp).2 _ hrest).1

theorem Obeying.allows (h : Obeying P t₀ fin s) {p : Process L C R ε} (hp : p ∈ s.procs) {c : C}
    (hn : p.next? = some c) : P.allows (P.after (t₀ p.label) p.past) c :=
  h.to.allows hp hn

/-- A process that has ended without being killed ended in final knowledge. -/
theorem Obeying.ended (h : Obeying P t₀ fin s) {p : Process L C R ε} (hp : p ∈ s.procs)
    (he : p.Ended) (ha : p.rest ≠ none) : fin (P.after (t₀ p.label) p.past) := by
  cases hr : p.rest with
  | none => exact absurd hr ha
  | some prog =>
    have hob := (h p hp).2 prog hr
    unfold Process.Ended at he
    rw [hr] at he
    cases prog with
    | done a => exact hob
    | raise e => exact hob
    | ask c k => exact he.elim

/-- A step keeps every process to the protocol when new processes start in it and the reply
    exchanged is an expected one. -/
theorem obeyingTo_step {S : System σ L C χ E R ε} {a : Action L χ E} (h : ObeyingTo P t₀ Q s)
    (hcode : ∀ l, a = .spawn l → (S.code l).Obeys P (Q l) (t₀ l))
    (hexp : ∀ pid x l past c k r, a = .exec pid x →
      s.procs[pid]? = some ⟨l, past, some (.ask c k)⟩ → S.machine.answer s.store c x = some r →
      P.expects (P.after (t₀ l) past) c r) :
    ObeyingTo P t₀ Q (S.step s a) := by
  intro p hp
  have hs := S.step_cases (s := s) a
  generalize S.step s a = s' at hs hp
  cases hs with
  | idle => exact h p hp
  | env e => exact h p hp
  | spawn l =>
    rcases List.mem_append.mp hp with hp | hp
    · exact h p hp
    · simp only [List.mem_singleton] at hp
      subst hp
      exact ⟨trivial, fun prog hprog => Option.some.inj hprog ▸ hcode l rfl⟩
  | @exec pid x l past c k r hproc hr =>
    rcases List.mem_or_eq_of_mem_set hp with hp | rfl
    · exact h p hp
    · have hold := h _ (List.mem_of_getElem? hproc)
      have hgo := hold.2 _ rfl
      have hexpects := hexp _ _ _ _ _ _ _ rfl hproc hr
      exact ⟨⟨hold.1, hgo.1, hexpects⟩,
        fun prog hprog => Option.some.inj hprog ▸ hgo.2 r hexpects⟩
  | @kill pid q hproc =>
    rcases List.mem_or_eq_of_mem_set hp with hp | rfl
    · exact h p hp
    · exact ⟨(h _ (List.mem_of_getElem? hproc)).1, fun prog hprog => by cases hprog⟩

/-! What the processes know, and invariants of it and the store together. -/

/-- What can be told from each process, by number. -/
def Pool.view (f : Process L C R ε → Option T) (s : Pool σ L C R ε) (pid : Nat) : Option T :=
  s.procs[pid]?.bind f

theorem Pool.view_set (f : Process L C R ε → Option T) {pid : Nat} {p : Process L C R ε} (w : σ)
    (q : Process L C R ε) (hp : s.procs[pid]? = some p) :
    Pool.view f ⟨w, s.procs.set pid q⟩ = Function.update (s.view f) pid (f q) := by
  funext i
  have hlt : pid < s.procs.length := (List.getElem?_eq_some_iff.mp hp).1
  by_cases hi : i = pid
  · subst hi
    rw [Function.update_self, Pool.view, List.getElem?_set_self hlt, Option.bind_some]
  · rw [Function.update_of_ne hi, Pool.view, List.getElem?_set_ne (Ne.symm hi)]
    rfl

theorem Pool.view_append (f : Process L C R ε → Option T) (q : Process L C R ε) :
    Pool.view f ⟨s.store, s.procs ++ [q]⟩ =
      Function.update (s.view f) s.procs.length (f q) := by
  funext i
  by_cases hi : i = s.procs.length
  · rw [hi, Function.update_self, Pool.view, List.getElem?_concat_length, Option.bind_some]
  · rw [Function.update_of_ne hi, Pool.view, Pool.view]
    rcases Nat.lt_or_gt_of_ne hi with hlt | hgt
    · rw [List.getElem?_append_left hlt]
    · have hlen : (s.procs ++ [q]).length ≤ i := by
        rw [List.length_append, List.length_singleton]
        omega
      rw [List.getElem?_eq_none hlen, List.getElem?_eq_none (Nat.le_of_lt hgt)]

theorem Pool.view_length (f : Process L C R ε → Option T) : s.view f s.procs.length = none := by
  rw [Pool.view, List.getElem?_eq_none (Nat.le_refl _), Option.bind_none]

/-- What each process knows by now. -/
def Pool.knows (P : Protocol C R T) (t₀ : L → T) (s : Pool σ L C R ε) : Nat → Option T :=
  s.view fun p => some (P.after (t₀ p.label) p.past)

/-- What each live process knows by now. -/
def Pool.knowsLive (P : Protocol C R T) (t₀ : L → T) (s : Pool σ L C R ε) : Nat → Option T :=
  s.view fun p => p.rest.map fun _ => P.after (t₀ p.label) p.past

theorem Pool.knows_iff {pid : Nat} {t : T} :
    s.knows P t₀ pid = some t ↔
      ∃ p, s.procs[pid]? = some p ∧ P.after (t₀ p.label) p.past = t := by
  simp only [Pool.knows, Pool.view, Option.bind_eq_some_iff, Option.some.injEq]

theorem Pool.knowsLive_iff {pid : Nat} {t : T} :
    s.knowsLive P t₀ pid = some t ↔
      ∃ p, s.procs[pid]? = some p ∧ p.rest ≠ none ∧ P.after (t₀ p.label) p.past = t := by
  simp only [Pool.knowsLive, Pool.view, Option.bind_eq_some_iff, Option.map_eq_some_iff,
    Option.ne_none_iff_exists', exists_and_right]

variable (P t₀) in
theorem Pool.knows_of {p : Process L C R ε} (hp : p ∈ s.procs) :
    ∃ pid, s.procs[pid]? = some p ∧ s.knows P t₀ pid = some (P.after (t₀ p.label) p.past) := by
  obtain ⟨pid, hpid⟩ := List.getElem?_of_mem hp
  exact ⟨pid, hpid, Pool.knows_iff.mpr ⟨p, hpid, rfl⟩⟩

/-- Whatever some process knows satisfies `Φ`. -/
def Each (Φ : T → Prop) (K : Nat → Option T) : Prop := ∀ i t, K i = some t → Φ t

/-- Whatever two processes know is related by `Ψ`. -/
def EachTwo (Ψ : T → T → Prop) (K : Nat → Option T) : Prop :=
  ∀ i j t u, i ≠ j → K i = some t → K j = some u → Ψ t u

section
variable {K : Nat → Option T} {pid : Nat} {t : T}

theorem known_update {i : Nat} {u : T} (h : Function.update K pid (some t) i = some u) :
    i = pid ∧ u = t ∨ i ≠ pid ∧ K i = some u := by
  by_cases hi : i = pid
  · subst hi
    rw [Function.update_self, Option.some.injEq] at h
    exact .inl ⟨rfl, h.symm⟩
  · rw [Function.update_of_ne hi] at h
    exact .inr ⟨hi, h⟩

theorem Each.mono {Φ Φ' : T → Prop} (h : Each Φ K) (hΦ : ∀ u, Φ u → Φ' u) : Each Φ' K :=
  fun i u hu => hΦ u (h i u hu)

/-- One process learns something; what the others know goes on satisfying the new `Φ`. -/
theorem Each.set {Φ' : T → Prop} (hself : Φ' t) (hothers : ∀ i u, i ≠ pid → K i = some u → Φ' u) :
    Each Φ' (Function.update K pid (some t)) := by
  intro i u hu
  rcases known_update hu with ⟨-, rfl⟩ | ⟨hi, hu⟩
  · exact hself
  · exact hothers i u hi hu

theorem EachTwo.set {Ψ : T → T → Prop} (h : EachTwo Ψ K)
    (hnew : ∀ i u, i ≠ pid → K i = some u → Ψ t u ∧ Ψ u t) :
    EachTwo Ψ (Function.update K pid (some t)) := by
  intro i j u v hij hu hv
  rcases known_update hu with ⟨hi, hut⟩ | ⟨hi, hu'⟩
  · rcases known_update hv with ⟨hj, -⟩ | ⟨hj, hv'⟩
    · exact absurd (hi.trans hj.symm) hij
    · exact hut ▸ (hnew j v hj hv').1
  · rcases known_update hv with ⟨-, hvt⟩ | ⟨hj, hv'⟩
    · exact hvt ▸ (hnew i u hi hu').2
    · exact h i j u v hij hu' hv'

end

/-- `A` holds, or some process stands in for it by knowing something that satisfies `Φ`. -/
def Backed (A : Prop) (Φ : T → Prop) (K : Nat → Option T) : Prop := A ∨ ∃ i t, K i = some t ∧ Φ t

section
variable {A A' : Prop} {Φ : T → Prop} {K : Nat → Option T} {pid : Nat} {t' : T}

/-- One process learns something: what it stood in for must hold now, or it still stands in. -/
theorem Backed.move (h : Backed A Φ K) (hA : A → A' ∨ Φ t')
    (hself : ∀ t, K pid = some t → Φ t → A' ∨ Φ t') :
    Backed A' Φ (Function.update K pid (some t')) := by
  have hnow : A' ∨ Φ t' → Backed A' Φ (Function.update K pid (some t')) := fun h =>
    h.imp (fun ha => ha) (fun ht => ⟨pid, t', Function.update_self .., ht⟩)
  rcases h with h | ⟨i, u, hu, hΦ⟩
  · exact hnow (hA h)
  · by_cases hi : i = pid
    · subst hi
      exact hnow (hself u hu hΦ)
    · exact .inr ⟨i, u, by rw [Function.update_of_ne hi]; exact hu, hΦ⟩

/-- The same for a process that is there already. -/
theorem Backed.step {t : T} (h : Backed A Φ K) (hk : K pid = some t) (hA : A → A' ∨ Φ t')
    (hself : Φ t → A' ∨ Φ t') : Backed A' Φ (Function.update K pid (some t')) := by
  refine h.move hA fun u hu hΦ => hself ?_
  rw [hk, Option.some.injEq] at hu
  rw [hu]
  exact hΦ

/-- The same for a new one. -/
theorem Backed.start (h : Backed A Φ K) (hk : K pid = none) :
    Backed A Φ (Function.update K pid (some t')) := by
  refine h.move .inl fun u hu _ => ?_
  rw [hk] at hu
  cases hu

/-- One process is forgotten: what it stood in for must hold, or another one stands in too. -/
theorem Backed.forget (h : Backed A Φ K)
    (hself : ∀ t, K pid = some t → Φ t → A ∨ ∃ i u, i ≠ pid ∧ K i = some u ∧ Φ u) :
    Backed A Φ (Function.update K pid none) := by
  have hother : (∃ i u, i ≠ pid ∧ K i = some u ∧ Φ u) →
      ∃ i u, Function.update K pid none i = some u ∧ Φ u := by
    intro ⟨i, u, hi, hu, hΦ⟩
    exact ⟨i, u, by rw [Function.update_of_ne hi]; exact hu, hΦ⟩
  rcases h with h | ⟨i, u, hu, hΦ⟩
  · exact .inl h
  · by_cases hi : i = pid
    · subst hi
      exact (hself u hu hΦ).imp (fun ha => ha) hother
    · exact .inr (hother ⟨i, u, hi, hu, hΦ⟩)

end

/-- Protocol and invariant together through one step, for any view that tells what live processes
    know: what is left to show is what a start, an exchange, a kill and a move of the environment
    do to the store and to the view of one process. -/
theorem view_step {S : System σ L C χ E R ε} {a : Action L χ E} (I : σ → (Nat → Option T) → Prop)
    (f : Process L C R ε → Option T)
    (hf : ∀ l past prog, f ⟨l, past, some prog⟩ = some (P.after (t₀ l) past))
    (hob : ObeyingTo P t₀ Q s) (hI : I s.store (s.view f))
    (hcode : ∀ l, a = .spawn l → (S.code l).Obeys P (Q l) (t₀ l))
    (hspawn : ∀ l pid, a = .spawn l → s.view f pid = none →
      I s.store (Function.update (s.view f) pid (some (t₀ l))))
    (hexec : ∀ pid x l past c k r, a = .exec pid x →
      s.procs[pid]? = some ⟨l, past, some (.ask c k)⟩ →
      s.view f pid = some (P.after (t₀ l) past) → P.allows (P.after (t₀ l) past) c →
      S.machine.answer s.store c x = some r →
      P.expects (P.after (t₀ l) past) c r ∧
        I (S.machine.effect s.store c r)
          (Function.update (s.view f) pid (some (P.next (P.after (t₀ l) past) c r))))
    (hkill : ∀ pid p, a = .kill pid → s.procs[pid]? = some p →
      I s.store (Function.update (s.view f) pid (f { p with rest := none })))
    (henv : ∀ e, a = .env e → I (S.env e s.store) (s.view f)) :
    ObeyingTo P t₀ Q (S.step s a) ∧ I (S.step s a).store ((S.step s a).view f) := by
  have hview : ∀ {pid l past c k}, s.procs[pid]? = some ⟨l, past, some (.ask c k)⟩ →
      s.view f pid = some (P.after (t₀ l) past) := by
    intro pid l past c k hp
    rw [Pool.view, hp, Option.bind_some, hf]
  refine ⟨obeyingTo_step hob hcode ?_, ?_⟩
  · intro pid x l past c k r ha hp hr
    exact (hexec pid x l past c k r ha hp (hview hp)
      (hob.allows (List.mem_of_getElem? hp) rfl) hr).1
  · have hs := S.step_cases (s := s) a
    generalize S.step s a = s' at hs
    cases hs with
    | idle => exact hI
    | env e => exact henv e rfl
    | spawn l =>
      rw [Pool.view_append, hf]
      exact hspawn l _ rfl (Pool.view_length f)
    | @exec pid x l past c k r hproc hr =>
      have hv := Pool.view_set f (S.machine.effect s.store c r) ⟨l, ⟨c, r⟩ :: past, some (k r)⟩
        hproc
      rw [hv, hf]
      exact (hexec pid x l past c k r rfl hproc (hview hproc)
        (hob.allows (List.mem_of_getElem? hproc) rfl) hr).2
    | @kill pid p hproc =>
      have hv := Pool.view_set f s.store { p with rest := none } hproc
      rw [hv]
      exact hkill pid p rfl hproc

/-- The same for what all processes know; a kill does not change that. -/
theorem pool_stepTo {S : System σ L C χ E R ε} {a : Action L χ E} (I : σ → (Nat → Option T) → Prop)
    (hob : ObeyingTo P t₀ Q s) (hI : I s.store (s.knows P t₀))
    (hcode : ∀ l, a = .spawn l → (S.code l).Obeys P (Q l) (t₀ l))
    (hspawn : ∀ l pid, a = .spawn l → s.knows P t₀ pid = none →
      I s.store (Function.update (s.knows P t₀) pid (some (t₀ l))))
    (hexec : ∀ pid x l past c k r, a = .exec pid x →
      s.procs[pid]? = some ⟨l, past, some (.ask c k)⟩ →
      s.knows P t₀ pid = some (P.after (t₀ l) past) → P.allows (P.after (t₀ l) past) c →
      S.machine.answer s.store c x = some r →
      P.expects (P.after (t₀ l) past) c r ∧
        I (S.machine.effect s.store c r)
          (Function.update (s.knows P t₀) pid (some (P.next (P.after (t₀ l) past) c r))))
    (henv : ∀ e, a = .env e → I (S.env e s.store) (s.knows P t₀)) :
    ObeyingTo P t₀ Q (S.step s a) ∧ I (S.step s a).store ((S.step s a).knows P t₀) := by
  refine view_step I _ (fun _ _ _ => rfl) hob hI hcode hspawn hexec (fun pid p _ hp => ?_) henv
  have hknown : s.knows P t₀ pid = some (P.after (t₀ p.label) p.past) :=
    Pool.knows_iff.mpr ⟨p, hp, rfl⟩
  have hsame : Function.update (s.knows P t₀) pid (some (P.after (t₀ p.label) p.past)) =
      s.knows P t₀ := Function.update_eq_self_iff.mpr hknown.symm
  show I s.store (Function.update (s.knows P t₀) pid (some (P.after (t₀ p.label) p.past)))
  rw [hsame]
  exact hI

theorem pool_step {S : System σ L C χ E R ε} {a : Action L χ E} (I : σ → (Nat → Option T) → Prop)
    (hob : Obeying P t₀ fin s) (hI : I s.store (s.knows P t₀))
    (hcode : ∀ l, a = .spawn l → (S.code l).Obeys P (fun _ t => fin t) (t₀ l))
    (hspawn : ∀ l pid, a = .spawn l → s.knows P t₀ pid = none →
      I s.store (Function.update (s.knows P t₀) pid (some (t₀ l))))
    (hexec : ∀ pid x l past c k r, a = .exec pid x →
      s.procs[pid]? = some ⟨l, past, some (.ask c k)⟩ →
      s.knows P t₀ pid = some (P.after (t₀ l) past) → P.allows (P.after (t₀ l) past) c →
      S.machine.answer s.store c x = some r →
      P.expects (P.after (t₀ l) past) c r ∧
        I (S.machine.effect s.store c r)
          (Function.update (s.knows P t₀) pid (some (P.next (P.after (t₀ l) past) c r))))
    (henv : ∀ e, a = .env e → I (S.env e s.store) (s.knows P t₀)) :
    Obeying P t₀ fin (S.step s a) ∧ I (S.step s a).store ((S.step s a).knows P t₀) :=
  (pool_stepTo I hob.to hI hcode hspawn hexec henv :)

/-- The same for what live processes know; a killed one is forgotten. -/
theorem pool_step_live {S : System σ L C χ E R ε} {a : Action L χ E}
    (I : σ → (Nat → Option T) → Prop) (hob : Obeying P t₀ fin s) (hI : I s.store (s.knowsLive P t₀))
    (hcode : ∀ l, a = .spawn l → (S.code l).Obeys P (fun _ t => fin t) (t₀ l))
    (hspawn : ∀ l pid, a = .spawn l → s.knowsLive P t₀ pid = none →
      I s.store (Function.update (s.knowsLive P t₀) pid (some (t₀ l))))
    (hexec : ∀ pid x l past c k r, a = .exec pid x →
      s.procs[pid]? = some ⟨l, past, some (.ask c k)⟩ →
      s.knowsLive P t₀ pid = some (P.after (t₀ l) past) → P.allows (P.after (t₀ l) past) c →
      S.machine.answer s.store c x = some r →
      P.expects (P.after (t₀ l) past) c r ∧
        I (S.machine.effect s.store c r)
          (Function.update (s.knowsLive P t₀) pid (some (P.next (P.after (t₀ l) past) c r))))
    (hkill : ∀ pid p, a = .kill pid → s.procs[pid]? = some p →
      I s.store (Function.update (s.knowsLive P t₀) pid none))
    (henv : ∀ e, a = .env e → I (S.env e s.store) (s.knowsLive P t₀)) :
    Obeying P t₀ fin (S.step s a) ∧ I (S.step s a).store ((S.step s a).knowsLive P t₀) :=
  (view_step I _ (fun _ _ _ => rfl) hob.to hI hcode hspawn hexec hkill henv :)

end
end Command
