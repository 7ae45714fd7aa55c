import Vshift.Keys
import Vshift.Processes
import Mathlib.Data.Finset.Image

/- The world on the server.

   `World` has a field for each family of keys; the server has one space of named values. Under
   its names the server of a world holds `World.slots`: a string for each record, the queues
   with the newest id on the left, the indexes as sets. Each command of a store does there what
   it does in the world, and gets the reply the world gives (`carries`); a key that lapses is
   deleted (`lapses`). So a run of the deployment is a run of the server on the calls of its
   processes, in the order they are executed: every reply is the one the process got, and in
   the end the server holds what the world does (`turns_carried`). -/
namespace Vshift
open Command

/-- The call of a store that a command is. -/
def Cmd.call? : Cmd → Option StoreCall
  | getJob id => some (.getJob id)
  | setJob job _ => some (.setJob job)
  | sremState state id => some (.sremState state id)
  | saddState state id => some (.saddState state id)
  | smembersState state => some (.smembersState state)
  | setSummary summary _ => some (.setSummary summary)
  | lpushPending id => some (.lpushPending id)
  | brpopPending => some .rpopPending
  | lpushDeadLetter id => some (.lpushDeadLetter id)
  | existsProcessed path => some (.existsProcessed path)
  | setProcessed path id => some (.setProcessed path id)
  | getWorker id => some (.getWorker id)
  | setWorker worker _ => some (.setWorker worker)
  | delWorker id => some (.delWorker id)
  | saddWorkers id => some (.saddWorkers id)
  | sremWorkers id => some (.sremWorkers id)
  | smembersWorkers => some .smembersWorkers
  | setHeartbeat id worker _ => some (.setHeartbeat id worker)
  | existsHeartbeat id => some (.existsHeartbeat id)
  | now => none
  | uuid4 => none
  | probe _ => none
  | transcode _ => none
  | buildSummary _ _ => none

/-- The server's reply, of which the store makes the reply of the command. -/
def Cmd.reply : (c : Cmd) → Reply c → Keyspace.Reply Payload
  | getJob _, job => .payload (job.map .job)
  | smembersState _, ids => .members (ids.toFinset.image .id)
  | brpopPending, id => .payload (id.map .id)
  | existsProcessed _, found => .flag found
  | getWorker _, worker => .payload (worker.map .worker)
  | smembersWorkers, ids => .members (ids.toFinset.image .id)
  | existsHeartbeat _, found => .flag found
  | _, _ => .done

/-- A record as a string. -/
def recordSlot {A : Type} (payload : A → Payload) (v : Option A) :
    Option (Keyspace.Value Payload) :=
  (v.map payload).map .string

/-- A queue as a list: the ids from the newest to the oldest. -/
def queueSlot (ids : List Uuid) : Option (Keyspace.Value Payload) :=
  Keyspace.ofList (ids.map .id).reverse

/-- An index as a set. -/
def indexSlot (ids : Finset Uuid) : Option (Keyspace.Value Payload) :=
  Keyspace.ofSet (ids.image .id)

namespace World

def slots (w : World) : Keyspace.Server RedisKey Payload
  | .pendingQueue => queueSlot w.pendingQueue
  | .deadLetterQueue => queueSlot w.deadLetterQueue
  | .job id => recordSlot .job (w.jobs id)
  | .jobSummary id => recordSlot .summary (w.summaries id)
  | .jobHeartbeat id => recordSlot .id (w.heartbeats id)
  | .jobStateIndex state => indexSlot (w.stateIndex state)
  | .worker id => recordSlot .worker (w.workers id)
  | .workersIndex => indexSlot w.workersIndex
  | .processedFile path => recordSlot .id (w.processed path)

/-! What a field is set to is set under one key. -/

/-- An entry of the field behind a family of keys is set, and nothing else. -/
theorem slots_update {A V : Type} [DecidableEq A] {w w' : World} (key : A → RedisKey)
    (slot : V → Option (Keyspace.Value Payload)) (field : A → V) {a : A} {v : V}
    (hold : ∀ a', w.slots (key a') = slot (field a'))
    (hnew : ∀ a', w'.slots (key a') = slot (Function.update field a v a'))
    (hrest : ∀ other, (∀ a', other ≠ key a') → w'.slots other = w.slots other) :
    w'.slots = Function.update w.slots (key a) (slot v) := by
  refine Function.eq_update_iff.mpr ⟨?_, fun other hother => ?_⟩
  · rw [hnew, Function.update_self]
  · by_cases h : ∃ a', other = key a'
    · obtain ⟨a', rfl⟩ := h
      rw [hnew, hold, Function.update_of_ne fun heq => hother (congrArg key heq)]
    · exact hrest other fun a' ha' => h ⟨a', ha'⟩

section
variable (w : World) (expiresAt : VolatileKey → DateTime)

theorem slots_jobs (id : Uuid) (v : Option TranscodeJob) :
    { w with jobs := Function.update w.jobs id v, expiresAt }.slots =
      Function.update w.slots (.job id) (recordSlot .job v) := by
  refine slots_update .job (recordSlot .job) w.jobs (fun _ => rfl) (fun _ => rfl) ?_
  intro other hother
  cases other with
  | job id' => exact absurd rfl (hother id')
  | _ => rfl

theorem slots_summaries (id : Uuid) (v : Option JobSummary) :
    { w with summaries := Function.update w.summaries id v, expiresAt }.slots =
      Function.update w.slots (.jobSummary id) (recordSlot .summary v) := by
  refine slots_update .jobSummary (recordSlot .summary) w.summaries (fun _ => rfl)
    (fun _ => rfl) ?_
  intro other hother
  cases other with
  | jobSummary id' => exact absurd rfl (hother id')
  | _ => rfl

theorem slots_heartbeats (id : Uuid) (v : Option Uuid) :
    { w with heartbeats := Function.update w.heartbeats id v, expiresAt }.slots =
      Function.update w.slots (.jobHeartbeat id) (recordSlot .id v) := by
  refine slots_update .jobHeartbeat (recordSlot .id) w.heartbeats (fun _ => rfl) (fun _ => rfl) ?_
  intro other hother
  cases other with
  | jobHeartbeat id' => exact absurd rfl (hother id')
  | _ => rfl

theorem slots_workers (id : Uuid) (v : Option WorkerInfo) :
    { w with workers := Function.update w.workers id v, expiresAt }.slots =
      Function.update w.slots (.worker id) (recordSlot .worker v) := by
  refine slots_update .worker (recordSlot .worker) w.workers (fun _ => rfl) (fun _ => rfl) ?_
  intro other hother
  cases other with
  | worker id' => exact absurd rfl (hother id')
  | _ => rfl

theorem slots_processed (path : String) (v : Option Uuid) :
    { w with processed := Function.update w.processed path v }.slots =
      Function.update w.slots (.processedFile path) (recordSlot .id v) := by
  refine slots_update .processedFile (recordSlot .id) w.processed (fun _ => rfl) (fun _ => rfl) ?_
  intro other hother
  cases other with
  | processedFile path' => exact absurd rfl (hother path')
  | _ => rfl

theorem slots_stateIndex (state : JobState) (ids : Finset Uuid) :
    { w with stateIndex := Function.update w.stateIndex state ids }.slots =
      Function.update w.slots (.jobStateIndex state) (indexSlot ids) := by
  refine slots_update .jobStateIndex indexSlot w.stateIndex (fun _ => rfl) (fun _ => rfl) ?_
  intro other hother
  cases other with
  | jobStateIndex state' => exact absurd rfl (hother state')
  | _ => rfl

theorem slots_workersIndex (ids : Finset Uuid) : { w with workersIndex := ids }.slots =
    Function.update w.slots .workersIndex (indexSlot ids) := by
  refine Function.eq_update_iff.mpr ⟨rfl, fun other hother => ?_⟩
  cases other with
  | workersIndex => exact absurd rfl hother
  | _ => rfl

theorem slots_pendingQueue (ids : List Uuid) : { w with pendingQueue := ids }.slots =
    Function.update w.slots .pendingQueue (queueSlot ids) := by
  refine Function.eq_update_iff.mpr ⟨rfl, fun other hother => ?_⟩
  cases other with
  | pendingQueue => exact absurd rfl hother
  | _ => rfl

theorem slots_deadLetterQueue (ids : List Uuid) : { w with deadLetterQueue := ids }.slots =
    Function.update w.slots .deadLetterQueue (queueSlot ids) := by
  refine Function.eq_update_iff.mpr ⟨rfl, fun other hother => ?_⟩
  cases other with
  | deadLetterQueue => exact absurd rfl hother
  | _ => rfl

end

/-! Commands. -/

section
variable {w : World}

/-- The commands that are no call of a store leave the server alone. -/
theorem slots_effect {c : Cmd} (hcall : c.call? = none) (r : Reply c) :
    (w.effect c r).slots = w.slots := by
  cases c <;> first | rfl | cases hcall

theorem exec_record {A : Type} {payload : A → Payload} {key : RedisKey} {v : Option A}
    (hslot : w.slots key = recordSlot payload v) :
    Keyspace.exec w.slots key .get = some (.payload (v.map payload), w.slots) := by
  have hget := Keyspace.perform_get (v.map payload)
  change Keyspace.perform .get (recordSlot payload v) = some (_, recordSlot payload v) at hget
  rw [← hslot] at hget
  rw [Keyspace.exec_eq hget, Function.update_eq_self]

theorem exec_found {A : Type} {payload : A → Payload} {key : RedisKey} {v : Option A}
    (hslot : w.slots key = recordSlot payload v) :
    Keyspace.exec w.slots key .has = some (.flag v.isSome, w.slots) := by
  have hhas : Keyspace.perform .has (w.slots key) = some (.flag v.isSome, w.slots key) := by
    rw [Keyspace.perform_has, hslot, recordSlot, Option.isSome_map, Option.isSome_map]
  rw [Keyspace.exec_eq hhas, Function.update_eq_self]

theorem exec_index {key : RedisKey} {ids : Finset Uuid} (hslot : w.slots key = indexSlot ids) :
    Keyspace.exec w.slots key .smembers = some (.members (ids.image .id), w.slots) := by
  have hmembers := Keyspace.perform_smembers (ids.image Payload.id)
  change Keyspace.perform .smembers (indexSlot ids) = some (_, indexSlot ids) at hmembers
  rw [← hslot] at hmembers
  rw [Keyspace.exec_eq hmembers, Function.update_eq_self]

theorem perform_lpush_queue (id : Uuid) (ids : List Uuid) :
    Keyspace.perform (.lpush (.id id)) (queueSlot ids) = some (.done, queueSlot (ids ++ [id])) := by
  rw [queueSlot, queueSlot, Keyspace.perform_lpush, List.map_append, List.reverse_append]
  rfl

theorem perform_rpop_queue (ids : List Uuid) : Keyspace.perform .rpop (queueSlot ids) =
    some (.payload (ids.head?.map .id), queueSlot ids.tail) := by
  rw [queueSlot, queueSlot, Keyspace.perform_rpop, List.getLast?_reverse, List.dropLast_reverse,
    List.head?_map, List.map_tail]

theorem perform_sadd_index (id : Uuid) (ids : Finset Uuid) :
    Keyspace.perform (.sadd (.id id)) (indexSlot ids) =
      some (.done, indexSlot (insert id ids)) := by
  rw [indexSlot, indexSlot, Keyspace.perform_sadd, Finset.image_insert]

theorem perform_srem_index (id : Uuid) (ids : Finset Uuid) :
    Keyspace.perform (.srem (.id id)) (indexSlot ids) =
      some (.done, indexSlot (ids.erase id)) := by
  rw [indexSlot, indexSlot, Keyspace.perform_srem,
    Finset.image_erase (fun _ _ h => Payload.id.inj h)]

theorem exec_slots {w' : World} {key : RedisKey} {op : Keyspace.Op Payload}
    {r : Keyspace.Reply Payload} {v : Option (Keyspace.Value Payload)}
    (hperform : Keyspace.perform op (w.slots key) = some (r, v))
    (hslots : w'.slots = Function.update w.slots key v) :
    Keyspace.exec w.slots key op = some (r, w'.slots) := by
  rw [hslots]
  exact Keyspace.exec_eq hperform

/-- A call does on the server what its command does in the world. -/
theorem carries {c : Cmd} {x : Choice} {r : Reply c} {call : StoreCall}
    (hr : w.answer c x = some r) (hcall : c.call? = some call) :
    Keyspace.exec w.slots call.access.1 call.access.2 =
      some (c.reply r, (w.effect c r).slots) := by
  cases c with
  | getJob id =>
    cases hcall
    cases hr
    exact exec_record rfl
  | setJob job ex =>
    cases hcall
    exact exec_slots rfl (slots_jobs w _ job.id (some job))
  | sremState state id =>
    cases hcall
    exact exec_slots (perform_srem_index id _) (slots_stateIndex w state _)
  | saddState state id =>
    cases hcall
    exact exec_slots (perform_sadd_index id _) (slots_stateIndex w state _)
  | smembersState state =>
    cases hcall
    rw [Cmd.reply, (answer_smembers hr).2]
    exact exec_index rfl
  | setSummary summary ex =>
    cases hcall
    exact exec_slots rfl (slots_summaries w _ summary.jobId (some summary))
  | lpushPending id =>
    cases hcall
    exact exec_slots (perform_lpush_queue id _) (slots_pendingQueue w _)
  | brpopPending =>
    cases hcall
    cases hr
    exact exec_slots (perform_rpop_queue _) (slots_pendingQueue w _)
  | lpushDeadLetter id =>
    cases hcall
    exact exec_slots (perform_lpush_queue id _) (slots_deadLetterQueue w _)
  | existsProcessed path =>
    cases hcall
    cases hr
    exact exec_found rfl
  | setProcessed path id =>
    cases hcall
    exact exec_slots rfl (slots_processed w path (some id))
  | getWorker id =>
    cases hcall
    cases hr
    exact exec_record rfl
  | setWorker worker ex =>
    cases hcall
    exact exec_slots rfl (slots_workers w _ worker.workerId (some worker))
  | delWorker id =>
    cases hcall
    exact exec_slots rfl (slots_workers w w.expiresAt id none)
  | saddWorkers id =>
    cases hcall
    exact exec_slots (perform_sadd_index id _) (slots_workersIndex w _)
  | sremWorkers id =>
    cases hcall
    exact exec_slots (perform_srem_index id _) (slots_workersIndex w _)
  | smembersWorkers =>
    cases hcall
    rw [Cmd.reply, (answer_smembersWorkers hr).2]
    exact exec_index rfl
  | setHeartbeat id worker ex =>
    cases hcall
    exact exec_slots rfl (slots_heartbeats w _ id (some worker))
  | existsHeartbeat id =>
    cases hcall
    cases hr
    exact exec_found rfl
  | _ => cases hcall

/-- A key that lapses is deleted. -/
theorem lapses (key : VolatileKey) :
    Keyspace.exec w.slots key.key .del = some (.done, (w.expire key).slots) := by
  cases key with
  | job id => exact exec_slots rfl (slots_jobs w w.expiresAt id none)
  | jobSummary id => exact exec_slots rfl (slots_summaries w w.expiresAt id none)
  | jobHeartbeat id => exact exec_slots rfl (slots_heartbeats w w.expiresAt id none)
  | worker id => exact exec_slots rfl (slots_workers w w.expiresAt id none)

end

/-- Under every name is a value of the type the stores expect there. -/
theorem slots_typed (w : World) : Keyspace.Typed RedisKey.kind w.slots := by
  have hrecord : ∀ {A : Type} {payload : A → Payload} {v : Option A},
      ∀ value ∈ recordSlot payload v, value.kind = .string := by
    intro A payload v value hvalue
    obtain ⟨p, -, rfl⟩ := Option.map_eq_some_iff.mp hvalue
    rfl
  intro key
  cases key with
  | pendingQueue => exact Keyspace.ofList_kind _
  | deadLetterQueue => exact Keyspace.ofList_kind _
  | jobStateIndex state => exact Keyspace.ofSet_kind _
  | workersIndex => exact Keyspace.ofSet_kind _
  | _ => exact hrecord

end World

/-! Runs of the deployment. -/

namespace Cluster
variable (ctx : Context)

/-- The calls an action makes on the server, with the replies to them. -/
def turn (s : Cluster) : Act → List (StoreCall × Keyspace.Reply Payload)
  | .exec pid x =>
    match s.procs[pid]?.bind Process.next? with
    | some c =>
      match s.store.answer c x with
      | some r => (c.call?.map fun call => (call, c.reply r)).toList
      | none => []
    | none => []
  | .env (.expire key) => [(.lapse key, .done)]
  | _ => []

def turns : Cluster → List Act → List (StoreCall × Keyspace.Reply Payload)
  | _, [] => []
  | s, a :: as => turn s a ++ turns ((deployment ctx).step s a) as

theorem turn_carried (s : Cluster) (a : Act) :
    Keyspace.run s.store.slots ((turn s a).map fun turn => turn.1.access) =
      some ((turn s a).map Prod.snd, ((deployment ctx).step s a).store.slots) := by
  cases a with
  | spawn l => rfl
  | kill pid =>
    rw [System.step]
    cases s.procs[pid]? <;> rfl
  | env e =>
    cases e with
    | expire key => exact Keyspace.run_single (World.lapses key)
    | _ => rfl
  | exec pid x =>
    rw [turn, System.step]
    cases s.procs[pid]? with
    | none => rfl
    | some p =>
      obtain ⟨l, past, rest⟩ := p
      cases rest with
      | none => rfl
      | some prog =>
        cases prog with
        | done a => rfl
        | raise e => rfl
        | ask c k =>
          have hanswer : (deployment ctx).machine.answer s.store c x = s.store.answer c x := rfl
          simp only [Option.bind_some, Process.next?, Program.next?, hanswer]
          cases hr : s.store.answer c x with
          | none => rfl
          | some r =>
            show Keyspace.run s.store.slots _ = some (_, (s.store.effect c r).slots)
            cases hcall : c.call? with
            | none =>
              rw [World.slots_effect hcall]
              rfl
            | some call => exact Keyspace.run_single (World.carries hr hcall)

/-- Every run of the deployment is a run of the server on the calls of its processes. -/
theorem turns_carried (s : Cluster) (acts : List Act) :
    Keyspace.run s.store.slots ((turns ctx s acts).map fun turn => turn.1.access) =
      some ((turns ctx s acts).map Prod.snd, ((deployment ctx).run s acts).store.slots) := by
  induction acts generalizing s with
  | nil => rfl
  | cons a acts ih =>
    rw [turns, List.map_append, List.map_append]
    exact Keyspace.run_append (turn_carried ctx s a) (ih ((deployment ctx).step s a))

variable {ctx} {keys : RedisKeys} {server : Keyspace.Server String Payload}

/-- Under the names: the server gives each call the reply that its process got, and holds in
    the end what the world holds. -/
theorem turns_named {s : Cluster} (hserver : server ∘ keys.name = s.store.slots)
    (acts : List Act) : ∃ server',
      Keyspace.run server ((turns ctx s acts).map fun turn => keys.access turn.1) =
        some ((turns ctx s acts).map Prod.snd, server') ∧
      server' ∘ keys.name = ((deployment ctx).run s acts).store.slots := by
  have hrun := turns_carried ctx s acts
  rw [← hserver] at hrun
  obtain ⟨server', hnamed, hend⟩ := Keyspace.run_named keys.name_injective hrun
  rw [List.map_map] at hnamed
  exact ⟨server', hnamed, hend⟩

/-- An empty server is that of the empty world. -/
theorem empty_slots : (fun _ => none) ∘ keys.name = World.empty.slots := by
  funext key
  cases key <;> rfl

/-- From an empty server on no process meets a value of a type it does not expect. -/
theorem turns_initial (acts : List Act) : ∃ server',
    Keyspace.run (fun _ => none)
        ((turns ctx Cluster.initial acts).map fun turn => keys.access turn.1) =
      some ((turns ctx Cluster.initial acts).map Prod.snd, server') ∧
    Keyspace.Typed RedisKey.kind (server' ∘ keys.name) := by
  obtain ⟨server', hrun, hend⟩ := turns_named (s := .initial) empty_slots acts
  exact ⟨server', hrun, hend ▸ World.slots_typed _⟩

end Cluster
end Vshift
