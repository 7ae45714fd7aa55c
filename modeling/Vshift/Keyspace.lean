import Mathlib.Data.Finset.Basic

/- A server of typed values under keys, as Redis is one.

   `perform` is what a command makes of the value under its key; on a value of another type
   it fails. `exec` and `run` carry out one command and a list of them. Through names
   `name : K → κ` a server over `κ` is a server over `K` (`server ∘ name`): where no two names
   are equal, commands under their names do there what they do on a server with a slot for
   each `K` (`run_comp`), and touch nothing under other keys (`run_unnamed`).

   Where each key has its type and commands keep to it, none fails (`run_typed`); and the
   commands on some keys get the replies, and leave the values, that they would get and leave
   without all others (`run_filter`). -/
namespace Keyspace

inductive Kind where
  | string | list | set
  deriving DecidableEq

/-- The items of a list are given from left to right. -/
inductive Value (P : Type) where
  | string (payload : P)
  | list (items : List P)
  | set (members : Finset P)

inductive Op (P : Type) where
  | get
  | set (payload : P)
  | del
  | has
  | lpush (item : P)
  | rpush (item : P)
  | rpop
  | llen
  | sadd (member : P)
  | srem (member : P)
  | smembers

inductive Reply (P : Type) where
  | done
  | payload (p : Option P)
  | flag (b : Bool)
  | count (n : Nat)
  | members (s : Finset P)

abbrev Server (κ P : Type) := κ → Option (Value P)

section
variable {P : Type}

def Value.kind : Value P → Kind
  | string _ => .string
  | list _ => .list
  | set _ => .set

/-- An empty list is no value. -/
def ofList : List P → Option (Value P)
  | [] => none
  | item :: items => some (.list (item :: items))

/-- The types of values a command is for. -/
def Op.Suits : Op P → Kind → Prop
  | get, kind => kind = .string
  | set _, kind => kind = .string
  | del, _ => True
  | has, _ => True
  | lpush _, kind => kind = .list
  | rpush _, kind => kind = .list
  | rpop, kind => kind = .list
  | llen, kind => kind = .list
  | sadd _, kind => kind = .set
  | srem _, kind => kind = .set
  | smembers, kind => kind = .set

theorem ofList_kind (items : List P) : ∀ v ∈ ofList items, v.kind = .list := by
  intro v hv
  cases items with
  | nil => cases hv
  | cons item items =>
    cases hv
    rfl

variable {v : Option (Value P)}

theorem string_cases (h : ∀ value ∈ v, value.kind = .string) :
    v = none ∨ ∃ p, v = some (.string p) := by
  cases v with
  | none => exact .inl rfl
  | some value =>
    cases value with
    | string p => exact .inr ⟨p, rfl⟩
    | _ => cases h _ rfl

theorem list_cases (h : ∀ value ∈ v, value.kind = .list) :
    v = none ∨ ∃ items, v = some (.list items) := by
  cases v with
  | none => exact .inl rfl
  | some value =>
    cases value with
    | list items => exact .inr ⟨items, rfl⟩
    | _ => cases h _ rfl

theorem set_cases (h : ∀ value ∈ v, value.kind = .set) :
    v = none ∨ ∃ members, v = some (.set members) := by
  cases v with
  | none => exact .inl rfl
  | some value =>
    cases value with
    | set members => exact .inr ⟨members, rfl⟩
    | _ => cases h _ rfl

theorem kind_some {value : Value P} {kind : Kind} (h : value.kind = kind) :
    ∀ w ∈ some value, w.kind = kind := by
  intro w hw
  cases hw
  exact h

theorem kind_none {kind : Kind} : ∀ w ∈ (none : Option (Value P)), w.kind = kind :=
  fun _ hw => by cases hw

variable [DecidableEq P]

/-- An empty set is no value. -/
def ofSet (members : Finset P) : Option (Value P) :=
  if members = ∅ then none else some (.set members)

theorem ofSet_cases (members : Finset P) :
    members = ∅ ∧ ofSet members = none ∨ ofSet members = some (.set members) := by
  by_cases h : members = ∅
  · exact .inl ⟨h, if_pos h⟩
  · exact .inr (if_neg h)

theorem ofSet_kind (members : Finset P) : ∀ v ∈ ofSet members, v.kind = .set := by
  obtain ⟨-, hset⟩ | hset := ofSet_cases members
  · rw [hset]
    exact kind_none
  · rw [hset]
    exact kind_some rfl

/-- The reply to a command, and what is left under its key; nothing if the value there has
    another type. -/
def perform : Op P → Option (Value P) → Option (Reply P × Option (Value P))
  | .get, none => some (.payload none, none)
  | .get, some (.string p) => some (.payload (some p), some (.string p))
  | .set p, _ => some (.done, some (.string p))
  | .del, _ => some (.done, none)
  | .has, v => some (.flag v.isSome, v)
  | .lpush item, none => some (.done, some (.list [item]))
  | .lpush item, some (.list items) => some (.done, some (.list (item :: items)))
  | .rpush item, none => some (.done, some (.list [item]))
  | .rpush item, some (.list items) => some (.done, some (.list (items ++ [item])))
  | .rpop, none => some (.payload none, none)
  | .rpop, some (.list items) => some (.payload items.getLast?, ofList items.dropLast)
  | .llen, none => some (.count 0, none)
  | .llen, some (.list items) => some (.count items.length, some (.list items))
  | .sadd member, none => some (.done, some (.set {member}))
  | .sadd member, some (.set members) => some (.done, some (.set (insert member members)))
  | .srem _, none => some (.done, none)
  | .srem member, some (.set members) => some (.done, ofSet (members.erase member))
  | .smembers, none => some (.members ∅, none)
  | .smembers, some (.set members) => some (.members members, some (.set members))
  | _, _ => none

/-- A command that suits the type of its key does not fail, and keeps the type. -/
theorem perform_suits {c : Op P} {kind : Kind} (hc : c.Suits kind)
    (hv : ∀ value ∈ v, value.kind = kind) :
    ∃ r v', perform c v = some (r, v') ∧ ∀ value ∈ v', value.kind = kind := by
  cases c with
  | get =>
    cases hc
    obtain rfl | ⟨p, rfl⟩ := string_cases hv
    · exact ⟨_, _, rfl, kind_none⟩
    · exact ⟨_, _, rfl, kind_some rfl⟩
  | set p =>
    cases hc
    exact ⟨_, _, rfl, kind_some rfl⟩
  | del => exact ⟨_, _, rfl, kind_none⟩
  | has => exact ⟨_, _, rfl, hv⟩
  | lpush item =>
    cases hc
    obtain rfl | ⟨items, rfl⟩ := list_cases hv
    · exact ⟨_, _, rfl, kind_some rfl⟩
    · exact ⟨_, _, rfl, kind_some rfl⟩
  | rpush item =>
    cases hc
    obtain rfl | ⟨items, rfl⟩ := list_cases hv
    · exact ⟨_, _, rfl, kind_some rfl⟩
    · exact ⟨_, _, rfl, kind_some rfl⟩
  | rpop =>
    cases hc
    obtain rfl | ⟨items, rfl⟩ := list_cases hv
    · exact ⟨_, _, rfl, kind_none⟩
    · exact ⟨_, _, rfl, ofList_kind _⟩
  | llen =>
    cases hc
    obtain rfl | ⟨items, rfl⟩ := list_cases hv
    · exact ⟨_, _, rfl, kind_none⟩
    · exact ⟨_, _, rfl, kind_some rfl⟩
  | sadd member =>
    cases hc
    obtain rfl | ⟨members, rfl⟩ := set_cases hv
    · exact ⟨_, _, rfl, kind_some rfl⟩
    · exact ⟨_, _, rfl, kind_some rfl⟩
  | srem member =>
    cases hc
    obtain rfl | ⟨members, rfl⟩ := set_cases hv
    · exact ⟨_, _, rfl, kind_none⟩
    · exact ⟨_, _, rfl, ofSet_kind _⟩
  | smembers =>
    cases hc
    obtain rfl | ⟨members, rfl⟩ := set_cases hv
    · exact ⟨_, _, rfl, kind_none⟩
    · exact ⟨_, _, rfl, kind_some rfl⟩

/-! What may be empty. -/

theorem perform_get (p : Option P) :
    perform .get (p.map .string) = some (.payload p, p.map .string) := by
  cases p <;> rfl

theorem perform_has (v : Option (Value P)) : perform .has v = some (.flag v.isSome, v) := rfl

theorem perform_lpush (item : P) (items : List P) :
    perform (.lpush item) (ofList items) = some (.done, ofList (item :: items)) := by
  cases items <;> rfl

theorem perform_rpop (items : List P) :
    perform .rpop (ofList items) = some (.payload items.getLast?, ofList items.dropLast) := by
  cases items <;> rfl

theorem perform_sadd (member : P) (members : Finset P) :
    perform (.sadd member) (ofSet members) = some (.done, ofSet (insert member members)) := by
  have hinsert : ofSet (insert member members) = some (.set (insert member members)) :=
    if_neg (Finset.insert_ne_empty member members)
  rw [hinsert]
  obtain ⟨rfl, hset⟩ | hset := ofSet_cases members
  · rw [hset, insert_empty_eq]
    rfl
  · rw [hset]
    rfl

theorem perform_srem (member : P) (members : Finset P) :
    perform (.srem member) (ofSet members) = some (.done, ofSet (members.erase member)) := by
  obtain ⟨rfl, hset⟩ | hset := ofSet_cases members
  · rw [Finset.erase_empty, hset]
    rfl
  · rw [hset]
    rfl

theorem perform_smembers (members : Finset P) :
    perform .smembers (ofSet members) = some (.members members, ofSet members) := by
  obtain ⟨rfl, hset⟩ | hset := ofSet_cases members
  · rw [hset]
    rfl
  · rw [hset]
    rfl

end

/-- The replies to some of the commands. -/
def repliesTo {A P : Type} (own : A → Bool) : List A → List (Reply P) → List (Reply P)
  | a :: as, r :: rs => if own a then r :: repliesTo own as rs else repliesTo own as rs
  | _, _ => []

theorem repliesTo_map {A B P : Type} (own : B → Bool) (f : A → B) : ∀ (as : List A)
    (rs : List (Reply P)), repliesTo own (as.map f) rs = repliesTo (own ∘ f) as rs
  | [], _ => rfl
  | _ :: _, [] => rfl
  | a :: as, r :: rs => by
    rw [List.map_cons, repliesTo, repliesTo, repliesTo_map own f as rs]
    rfl

/-! One command on a server, and runs. -/

section
variable {K κ P : Type} [DecidableEq κ] [DecidableEq P]

def exec (s : Server κ P) (key : κ) (c : Op P) : Option (Reply P × Server κ P) :=
  (perform c (s key)).map fun p => (p.1, Function.update s key p.2)

theorem exec_eq {s : Server κ P} {key : κ} {c : Op P} {r : Reply P} {v : Option (Value P)}
    (h : perform c (s key) = some (r, v)) : exec s key c = some (r, Function.update s key v) := by
  rw [exec, h]
  rfl

def run : Server κ P → List (κ × Op P) → Option (List (Reply P) × Server κ P)
  | s, [] => some ([], s)
  | s, access :: accesses => do
    let (r, s) ← exec s access.1 access.2
    let (rs, s) ← run s accesses
    pure (r :: rs, s)

theorem run_cons {s : Server κ P} {access : κ × Op P} {accesses : List (κ × Op P)}
    {result : List (Reply P) × Server κ P} : run s (access :: accesses) = some result ↔
      ∃ r s₁ rs s₂, exec s access.1 access.2 = some (r, s₁) ∧ run s₁ accesses = some (rs, s₂) ∧
        result = (r :: rs, s₂) := by
  rw [run]
  cases hexec : exec s access.1 access.2 with
  | none => simp
  | some first =>
    obtain ⟨r, s₁⟩ := first
    cases hrun : run s₁ accesses with
    | none => simp [hrun]
    | some rest =>
      obtain ⟨rs, s₂⟩ := rest
      simpa [hrun] using eq_comm

theorem run_single {s s' : Server κ P} {access : κ × Op P} {r : Reply P}
    (h : exec s access.1 access.2 = some (r, s')) : run s [access] = some ([r], s') :=
  run_cons.mpr ⟨r, s', [], s', h, rfl, rfl⟩

theorem run_append {s s₁ s₂ : Server κ P} {accesses accesses' : List (κ × Op P)}
    {rs rs' : List (Reply P)} (h : run s accesses = some (rs, s₁))
    (h' : run s₁ accesses' = some (rs', s₂)) :
    run s (accesses ++ accesses') = some (rs ++ rs', s₂) := by
  induction accesses generalizing s rs with
  | nil =>
    cases h
    exact h'
  | cons access accesses ih =>
    obtain ⟨r, s₀, rs₀, s₁', hexec, hrun, heq⟩ := run_cons.mp h
    cases heq
    exact run_cons.mpr ⟨r, s₀, _, s₂, hexec, ih hrun, rfl⟩

/-- Each value has the type of its key. -/
def Typed (kind : κ → Kind) (s : Server κ P) : Prop :=
  ∀ key, ∀ value ∈ s key, value.kind = kind key

/-! Under names. -/

section
variable {name : K → κ} {s : Server κ P}

theorem exec_comp [DecidableEq K] (hname : Function.Injective name) (key : K) (c : Op P) :
    (exec s (name key) c).map (Prod.map id (· ∘ name)) = exec (s ∘ name) key c := by
  unfold exec
  rw [Option.map_map]
  congr 1
  funext p
  exact congrArg (Prod.mk p.1) (Function.update_comp_eq_of_injective s hname key p.2)

theorem run_comp [DecidableEq K] (hname : Function.Injective name) (accesses : List (K × Op P)) :
    (run s (accesses.map (Prod.map name id))).map (Prod.map id (· ∘ name)) =
      run (s ∘ name) accesses := by
  induction accesses generalizing s with
  | nil => rfl
  | cons access accesses ih =>
    rw [run, ← exec_comp hname]
    show (run s ((name access.1, access.2) :: _)).map _ = _
    rw [run]
    cases exec s (name access.1) access.2 with
    | none => rfl
    | some first =>
      show _ = (run (first.2 ∘ name) accesses).bind _
      rw [← ih]
      cases hrun : run first.2 (accesses.map (Prod.map name id)) <;> simp [hrun]

/-- What is done with a slot for each key is done under the names. -/
theorem run_named [DecidableEq K] (hname : Function.Injective name) {accesses : List (K × Op P)}
    {rs : List (Reply P)} {t : Server K P} (h : run (s ∘ name) accesses = some (rs, t)) :
    ∃ s', run s (accesses.map (Prod.map name id)) = some (rs, s') ∧ s' ∘ name = t := by
  rw [← run_comp hname, Option.map_eq_some_iff] at h
  obtain ⟨⟨rs', s'⟩, hrun, heq⟩ := h
  cases heq
  exact ⟨s', hrun, rfl⟩

/-- Commands under names leave alone what is under other keys. -/
theorem run_unnamed {key : κ} (hkey : ∀ k, name k ≠ key) {accesses : List (K × Op P)}
    {rs : List (Reply P)} {s' : Server κ P}
    (h : run s (accesses.map (Prod.map name id)) = some (rs, s')) : s' key = s key := by
  induction accesses generalizing s rs with
  | nil =>
    cases h
    rfl
  | cons access accesses ih =>
    obtain ⟨r, s₁, rs', s₂, hexec, hrun, heq⟩ := run_cons.mp h
    cases heq
    obtain ⟨p, -, hp⟩ := Option.map_eq_some_iff.mp hexec
    cases hp
    rw [ih hrun]
    exact Function.update_of_ne (hkey access.1).symm _ _

end

/-! Among typed values. -/

section
variable {kind : κ → Kind} {s : Server κ P}

theorem exec_typed (hs : Typed kind s) {key : κ} {c : Op P} (hc : c.Suits (kind key)) :
    ∃ r s', exec s key c = some (r, s') ∧ Typed kind s' := by
  obtain ⟨r, v, hperform, hv⟩ := perform_suits hc (hs key)
  refine ⟨r, Function.update s key v, exec_eq hperform, ?_⟩
  intro other
  by_cases h : other = key
  · rw [h, Function.update_self]
    exact hv
  · rw [Function.update_of_ne h]
    exact hs other

/-- No command fails that keeps to the types of the keys. -/
theorem run_typed (hs : Typed kind s) {accesses : List (κ × Op P)}
    (h : ∀ access ∈ accesses, access.2.Suits (kind access.1)) :
    ∃ rs s', run s accesses = some (rs, s') ∧ Typed kind s' := by
  induction accesses generalizing s with
  | nil => exact ⟨[], s, rfl, hs⟩
  | cons access accesses ih =>
    obtain ⟨haccess, haccesses⟩ := List.forall_mem_cons.mp h
    obtain ⟨r, s₁, hexec, hs₁⟩ := exec_typed hs haccess
    obtain ⟨rs, s₂, hrun, hs₂⟩ := ih hs₁ haccesses
    exact ⟨r :: rs, s₂, run_cons.mpr ⟨r, s₁, rs, s₂, hexec, hrun, rfl⟩, hs₂⟩

end

/-! Some keys by themselves. -/

section
variable {own : κ → Bool} {s t s' : Server κ P}

/-- Servers that hold the same under some keys. -/
def Agree (own : κ → Bool) (s t : Server κ P) : Prop := ∀ key, own key = true → s key = t key

theorem exec_agree (h : Agree own s t) {key : κ} (hkey : own key = true) {c : Op P} {r : Reply P}
    (hexec : exec s key c = some (r, s')) :
    ∃ t', exec t key c = some (r, t') ∧ Agree own s' t' := by
  obtain ⟨p, hperform, hp⟩ := Option.map_eq_some_iff.mp hexec
  cases hp
  refine ⟨Function.update t key p.2, exec_eq (h key hkey ▸ hperform), fun other hother => ?_⟩
  rw [Function.update_apply, Function.update_apply, h other hother]

theorem agree_of_exec (h : Agree own s t) {key : κ} (hkey : own key = false) {c : Op P}
    {r : Reply P} (hexec : exec s key c = some (r, s')) : Agree own s' t := by
  obtain ⟨p, -, hp⟩ := Option.map_eq_some_iff.mp hexec
  cases hp
  intro other hother
  rw [Function.update_of_ne (fun heq => by rw [heq, hkey] at hother; cases hother)]
  exact h other hother

/-- The commands on some keys do, among all others, what they do alone. -/
theorem run_filter (h : Agree own s t) {accesses : List (κ × Op P)} {rs : List (Reply P)}
    (hrun : run s accesses = some (rs, s')) :
    ∃ t', run t (accesses.filter fun access => own access.1) =
      some (repliesTo (fun access => own access.1) accesses rs, t') ∧ Agree own s' t' := by
  induction accesses generalizing s t rs with
  | nil =>
    cases hrun
    exact ⟨t, rfl, h⟩
  | cons access accesses ih =>
    obtain ⟨r, s₁, rs', s₂, hexec, hrest, heq⟩ := run_cons.mp hrun
    cases heq
    rw [repliesTo, List.filter_cons]
    cases hown : own access.1 with
    | true =>
      obtain ⟨t₁, ht₁, hagree⟩ := exec_agree h hown hexec
      obtain ⟨t', ht', hend⟩ := ih hagree hrest
      rw [if_pos rfl, if_pos rfl]
      exact ⟨t', run_cons.mpr ⟨r, t₁, _, t', ht₁, ht', rfl⟩, hend⟩
    | false =>
      rw [if_neg Bool.false_ne_true, if_neg Bool.false_ne_true]
      exact ih (agree_of_exec h hown hexec) hrest

end

end

end Keyspace
