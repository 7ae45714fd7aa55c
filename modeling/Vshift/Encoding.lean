import Vshift.Keyspace
import Mathlib.Data.Finset.Image

/- A server that holds its payloads encoded.

   `f : P → P'` says how a payload is written. Commands that put in only payloads that fit their
   keys (`item` for strings and lists, `member` for sets) find nothing else there (`run_fits`);
   and where `f` tells the members of sets apart, a server of encoded payloads answers the
   encoded commands with the encoded replies (`run_map`). Items `f` need not tell apart: no
   command compares them. -/
namespace Keyspace
variable {κ P P' : Type}

/-! What fits. -/

section
variable (item member : P → Prop)

/-- What the command puts in fits. -/
def Op.Fits : Op P → Prop
  | set p => item p
  | lpush p => item p
  | rpush p => item p
  | sadd p => member p
  | srem p => member p
  | _ => True

def Value.Fits : Value P → Prop
  | string p => item p
  | list items => ∀ p ∈ items, item p
  | set members => ∀ p ∈ members, member p

def Reply.Fits : Reply P → Prop
  | payload p => ∀ q ∈ p, item q
  | members s => ∀ p ∈ s, member p
  | _ => True

end

section
variable {item member : P → Prop}

theorem fits_none : ∀ w ∈ (none : Option (Value P)), w.Fits item member :=
  fun _ hw => by cases hw

theorem fits_some {value : Value P} (h : value.Fits item member) :
    ∀ w ∈ some value, w.Fits item member := by
  intro w hw
  cases hw
  exact h

theorem ofList_fits {items : List P} (h : ∀ p ∈ items, item p) :
    ∀ w ∈ ofList items, w.Fits item member := by
  cases items with
  | nil => exact fits_none
  | cons head items => exact fits_some h

variable [DecidableEq P]

theorem ofSet_fits {members : Finset P} (h : ∀ p ∈ members, member p) :
    ∀ w ∈ ofSet members, w.Fits item member := by
  obtain ⟨-, hset⟩ | hset := ofSet_cases members
  · rw [hset]
    exact fits_none
  · rw [hset]
    exact fits_some h

theorem perform_fits {c : Op P} {v v' : Option (Value P)} {r : Reply P}
    (hc : c.Fits item member) (hv : ∀ w ∈ v, w.Fits item member)
    (h : perform c v = some (r, v')) :
    r.Fits item member ∧ ∀ w ∈ v', w.Fits item member := by
  have hold : ∀ {value : Value P}, v = some value → value.Fits item member :=
    fun hvalue => hv _ hvalue
  have hnothing : (Reply.payload (none : Option P)).Fits item member := fun q hq => by cases hq
  -- in each case those values are left that the command is for
  cases c with
  | get =>
    rcases v with _ | p | items | members <;> cases h
    · exact ⟨hnothing, fits_none⟩
    · have hp : item p := hold rfl
      exact ⟨fun q hq => Option.mem_some.mp hq ▸ hp, hv⟩
  | set p =>
    cases h
    exact ⟨trivial, fits_some hc⟩
  | del =>
    cases h
    exact ⟨trivial, fits_none⟩
  | has =>
    cases h
    exact ⟨trivial, hv⟩
  | lpush p =>
    rcases v with _ | p' | items | members <;> cases h
    · exact ⟨trivial, fits_some (List.forall_mem_singleton.mpr hc)⟩
    · have hitems : ∀ p ∈ items, item p := hold rfl
      exact ⟨trivial, fits_some (List.forall_mem_cons.mpr ⟨hc, hitems⟩)⟩
  | rpush p =>
    rcases v with _ | p' | items | members <;> cases h
    · exact ⟨trivial, fits_some (List.forall_mem_singleton.mpr hc)⟩
    · have hitems : ∀ p ∈ items, item p := hold rfl
      exact ⟨trivial, fits_some (List.forall_mem_append.mpr
        ⟨hitems, List.forall_mem_singleton.mpr hc⟩)⟩
  | rpop =>
    rcases v with _ | p | items | members <;> cases h
    · exact ⟨hnothing, fits_none⟩
    · have hitems : ∀ p ∈ items, item p := hold rfl
      exact ⟨fun q hq => hitems q (List.mem_of_getLast? hq),
        ofList_fits fun p hp => hitems p (List.mem_of_mem_dropLast hp)⟩
  | llen =>
    rcases v with _ | p | items | members <;> cases h
    · exact ⟨trivial, fits_none⟩
    · exact ⟨trivial, hv⟩
  | sadd p =>
    rcases v with _ | p' | items | members <;> cases h
    · exact ⟨trivial, fits_some fun q hq => Finset.mem_singleton.mp hq ▸ hc⟩
    · have hmembers : ∀ p ∈ members, member p := hold rfl
      refine ⟨trivial, fits_some fun q hq => ?_⟩
      rcases Finset.mem_insert.mp hq with rfl | hq
      · exact hc
      · exact hmembers q hq
  | srem p =>
    rcases v with _ | p' | items | members <;> cases h
    · exact ⟨trivial, fits_none⟩
    · have hmembers : ∀ p ∈ members, member p := hold rfl
      exact ⟨trivial, ofSet_fits fun q hq => hmembers q (Finset.mem_of_mem_erase hq)⟩
  | smembers =>
    rcases v with _ | p | items | members <;> cases h
    · exact ⟨fun p hp => absurd hp (Finset.notMem_empty p), fits_none⟩
    · exact ⟨hold rfl, hv⟩

end

/-! Encoded. -/

section
variable (f : P → P')

def Op.map : Op P → Op P'
  | get => .get
  | set p => .set (f p)
  | del => .del
  | has => .has
  | lpush p => .lpush (f p)
  | rpush p => .rpush (f p)
  | rpop => .rpop
  | llen => .llen
  | sadd p => .sadd (f p)
  | srem p => .srem (f p)
  | smembers => .smembers

variable [DecidableEq P']

def Value.map : Value P → Value P'
  | string p => .string (f p)
  | list items => .list (items.map f)
  | set members => .set (members.image f)

def Reply.map : Reply P → Reply P'
  | done => .done
  | payload p => .payload (p.map f)
  | flag b => .flag b
  | count n => .count n
  | members s => .members (s.image f)

/-- The server with all its payloads encoded. -/
def Server.map (s : Server κ P) : Server κ P' := fun key => (s key).map (Value.map f)

end

section
variable {f : P → P'} [DecidableEq P']

theorem ofList_map (items : List P) :
    (ofList items).map (Value.map f) = ofList (items.map f) := by
  cases items <;> rfl

theorem update_map [DecidableEq κ] (s : Server κ P) (key : κ) (v : Option (Value P)) :
    Server.map f (Function.update s key v) =
      Function.update (Server.map f s) key (v.map (Value.map f)) := by
  funext other
  by_cases h : other = key
  · rw [h, Server.map, Function.update_self, Function.update_self]
  · rw [Server.map, Function.update_of_ne h, Function.update_of_ne h]
    rfl

variable [DecidableEq P]

theorem ofSet_map (members : Finset P) :
    (ofSet members).map (Value.map f) = ofSet (members.image f) := by
  unfold ofSet
  by_cases h : members = ∅
  · rw [if_pos h, if_pos (Finset.image_eq_empty.mpr h)]
    rfl
  · rw [if_neg h, if_neg (fun he => h (Finset.image_eq_empty.mp he))]
    rfl

theorem perform_map {item member : P → Prop}
    (hf : ∀ p q, member p → member q → f p = f q → p = q) {c : Op P} {v : Option (Value P)}
    (hc : c.Fits item member) (hv : ∀ w ∈ v, w.Fits item member) :
    perform (c.map f) (v.map (Value.map f)) =
      (perform c v).map (Prod.map (Reply.map f) (Option.map (Value.map f))) := by
  cases c with
  | rpop =>
    rcases v with _ | p | items | members <;> try rfl
    show some (Reply.payload (items.map f).getLast?, ofList (items.map f).dropLast) =
      some (Reply.payload (items.getLast?.map f), (ofList items.dropLast).map (Value.map f))
    rw [ofList_map, List.getLast?_map, List.map_dropLast]
  | rpush p =>
    rcases v with _ | p' | items | members <;> try rfl
    show some (Reply.done, some (Value.list (items.map f ++ [f p]))) =
      some (Reply.done, some (Value.list ((items ++ [p]).map f)))
    rw [List.map_append]
    rfl
  | has => cases v <;> rfl
  | llen =>
    rcases v with _ | p' | items | members <;> try rfl
    show some (Reply.count (items.map f).length, _) = some (Reply.count items.length, _)
    rw [List.length_map]
    rfl
  | sadd p =>
    rcases v with _ | p' | items | members <;> try rfl
    · show some (Reply.done, some (Value.set (insert (f p) (members.image f)))) =
        some (Reply.done, some (Value.set ((insert p members).image f)))
      rw [Finset.image_insert]
  | srem p =>
    rcases v with _ | p' | items | members <;> try rfl
    have hmembers : ∀ q ∈ members, member q := hv _ rfl
    have herase : (members.erase p).image f = (members.image f).erase (f p) := by
      ext q
      simp only [Finset.mem_image, Finset.mem_erase]
      constructor
      · rintro ⟨p', ⟨hne, hp'⟩, rfl⟩
        exact ⟨fun heq => hne (hf _ _ (hmembers p' hp') hc heq), p', hp', rfl⟩
      · rintro ⟨hne, p', hp', rfl⟩
        exact ⟨p', ⟨fun heq => hne (heq ▸ rfl), hp'⟩, rfl⟩
    show some (Reply.done, ofSet ((members.image f).erase (f p))) =
      some (Reply.done, (ofSet (members.erase p)).map (Value.map f))
    rw [ofSet_map, herase]
  | _ => rcases v with _ | p' | items | members <;> rfl

end

/-! Runs. -/

section
variable [DecidableEq κ] [DecidableEq P] {item member : κ → P → Prop} {s s' : Server κ P}

/-- Under every key is what fits there. -/
def Server.Fits (item member : κ → P → Prop) (s : Server κ P) : Prop :=
  ∀ key, ∀ w ∈ s key, w.Fits (item key) (member key)

theorem exec_fits (hs : Server.Fits item member s) {key : κ} {c : Op P} {r : Reply P}
    (hc : c.Fits (item key) (member key)) (hexec : exec s key c = some (r, s')) :
    r.Fits (item key) (member key) ∧ Server.Fits item member s' := by
  obtain ⟨⟨r', v⟩, hperform, hp⟩ := Option.map_eq_some_iff.mp hexec
  cases hp
  obtain ⟨hr, hv⟩ := perform_fits hc (hs key) hperform
  refine ⟨hr, fun other => ?_⟩
  by_cases hother : other = key
  · rw [hother, Function.update_self]
    exact hv
  · rw [Function.update_of_ne hother]
    exact hs other

/-- Commands that fit get replies that fit. -/
theorem run_fits {accesses : List (κ × Op P)} {rs : List (Reply P)}
    (hs : Server.Fits item member s)
    (haccesses : ∀ access ∈ accesses, access.2.Fits (item access.1) (member access.1))
    (hrun : run s accesses = some (rs, s')) :
    List.Forall₂ (fun access r => r.Fits (item access.1) (member access.1)) accesses rs := by
  induction accesses generalizing s rs with
  | nil =>
    cases hrun
    exact .nil
  | cons access accesses ih =>
    obtain ⟨r, s₁, rs', s₂, hexec, hrest, heq⟩ := run_cons.mp hrun
    cases heq
    obtain ⟨haccess, haccesses⟩ := List.forall_mem_cons.mp haccesses
    obtain ⟨hr, hs₁⟩ := exec_fits hs haccess hexec
    exact .cons hr (ih hs₁ haccesses hrest)

/-- On the server with its payloads encoded, the encoded commands get the encoded replies. -/
theorem run_map [DecidableEq P'] {f : P → P'}
    (hf : ∀ key p q, member key p → member key q → f p = f q → p = q)
    {accesses : List (κ × Op P)} {rs : List (Reply P)} (hs : Server.Fits item member s)
    (haccesses : ∀ access ∈ accesses, access.2.Fits (item access.1) (member access.1))
    (hrun : run s accesses = some (rs, s')) :
    run (Server.map f s) (accesses.map (Prod.map id (Op.map f))) =
      some (rs.map (Reply.map f), Server.map f s') := by
  induction accesses generalizing s rs with
  | nil =>
    cases hrun
    rfl
  | cons access accesses ih =>
    obtain ⟨r, s₁, rs', s₂, hexec, hrest, heq⟩ := run_cons.mp hrun
    cases heq
    obtain ⟨haccess, haccesses⟩ := List.forall_mem_cons.mp haccesses
    have hs₁ := (exec_fits hs haccess hexec).2
    obtain ⟨⟨r', v⟩, hperform, hp⟩ := Option.map_eq_some_iff.mp hexec
    cases hp
    have hencoded := perform_map (hf access.1) haccess (hs access.1)
    rw [hperform] at hencoded
    have hstep : exec (Server.map f s) access.1 (access.2.map f) =
        some (r'.map f, Server.map f (Function.update s access.1 v)) := by
      rw [update_map]
      exact exec_eq hencoded
    exact run_cons.mpr ⟨_, _, _, _, hstep, ih hs₁ haccesses hrest, rfl⟩

end
end Keyspace
