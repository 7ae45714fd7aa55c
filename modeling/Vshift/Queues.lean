import Vshift.Slots

/- The queues of the server over whole runs of the deployment.

   Whatever order the processes take their commands in, and whichever of them die: the ids
   that `BRPOP` has handed out, followed by those under the queue's key, are the ids that
   `LPUSH` has put there, in the order they were put (`queue_fifo`). So no id is handed out
   more often than it was put in, none is dropped, and none overtakes another one. Nothing
   is ever taken from the dead-letter queue. -/
namespace Vshift
open Command

/-- A call of a store with the reply to it. -/
abbrev Exchange := StoreCall × Keyspace.Reply Payload

namespace Exchange

/-- The id a call takes from the queue. -/
def taken : Exchange → Option Uuid
  | (.rpopPending, .payload (some (.id id))) => some id
  | _ => none

/-- The id a call puts into the queue. -/
def queued : Exchange → Option Uuid
  | (.lpushPending id, _) => some id
  | _ => none

/-- The id a call puts into the dead-letter queue. -/
def buried : Exchange → Option Uuid
  | (.lpushDeadLetter id, _) => some id
  | _ => none

end Exchange

namespace Cluster
variable (ctx : Context)

theorem turns_eq_emitted (acts : List Act) : ∀ s : Cluster,
    turns ctx s acts = emitted (deployment ctx).step turn s acts := by
  induction acts with
  | nil => exact fun _ => rfl
  | cons a acts ih =>
    intro s
    rw [turns, emitted, ih]

/-- The call of a command, if it is one, with its reply. -/
def exchange (c : Cmd) (r : Reply c) : List Exchange :=
  (c.call?.map fun call => (call, c.reply r)).toList

/-- A command takes the head of the queue, adds at its end, or leaves it. -/
theorem exchange_pendingQueue {w : World} {c : Cmd} {x : Choice} {r : Reply c}
    (hr : w.answer c x = some r) :
    (exchange c r).filterMap Exchange.taken ++ (w.effect c r).pendingQueue =
      w.pendingQueue ++ (exchange c r).filterMap Exchange.queued := by
  cases c with
  | brpopPending =>
    cases hr
    show (exchange .brpopPending w.pendingQueue.head?).filterMap Exchange.taken ++
      w.pendingQueue.tail = w.pendingQueue ++ []
    rw [List.append_nil]
    cases w.pendingQueue <;> rfl
  | lpushPending id => rfl
  | _ => exact (List.append_nil _).symm

theorem exchange_deadLetterQueue {w : World} {c : Cmd} {r : Reply c} :
    (w.effect c r).deadLetterQueue =
      w.deadLetterQueue ++ (exchange c r).filterMap Exchange.buried := by
  cases c with
  | lpushDeadLetter id => rfl
  | _ => exact (List.append_nil _).symm

/-- A step exchanges one command, or does nothing to the queues. -/
theorem turn_cases (s : Cluster) (a : Act) :
    (∃ c x r, s.store.answer c x = some r ∧ turn s a = exchange c r ∧
      ((deployment ctx).step s a).store = s.store.effect c r) ∨
    ((turn s a = [] ∨ ∃ key, turn s a = [(.lapse key, .done)]) ∧
      ((deployment ctx).step s a).store.pendingQueue = s.store.pendingQueue ∧
      ((deployment ctx).step s a).store.deadLetterQueue = s.store.deadLetterQueue) := by
  cases a with
  | spawn l => exact .inr ⟨.inl rfl, rfl, rfl⟩
  | kill pid =>
    rw [System.step]
    cases s.procs[pid]? <;> exact .inr ⟨.inl rfl, rfl, rfl⟩
  | env e =>
    cases e with
    | expire key => cases key <;> exact .inr ⟨.inr ⟨_, rfl⟩, rfl, rfl⟩
    | _ => exact .inr ⟨.inl rfl, rfl, rfl⟩
  | exec pid x =>
    rw [turn, System.step]
    cases s.procs[pid]? with
    | none => exact .inr ⟨.inl rfl, rfl, rfl⟩
    | some p =>
      obtain ⟨l, past, rest⟩ := p
      cases rest with
      | none => exact .inr ⟨.inl rfl, rfl, rfl⟩
      | some prog =>
        cases prog with
        | done a => exact .inr ⟨.inl rfl, rfl, rfl⟩
        | raise e => exact .inr ⟨.inl rfl, rfl, rfl⟩
        | ask c k =>
          have hanswer : (deployment ctx).machine.answer s.store c x = s.store.answer c x := rfl
          simp only [Option.bind_some, Process.next?, Program.next?, hanswer]
          cases hr : s.store.answer c x with
          | none => exact .inr ⟨.inl rfl, rfl, rfl⟩
          | some r => exact .inl ⟨c, x, r, hr, rfl, rfl⟩

theorem turn_pendingQueue (s : Cluster) (a : Act) :
    (turn s a).filterMap Exchange.taken ++ ((deployment ctx).step s a).store.pendingQueue =
      s.store.pendingQueue ++ (turn s a).filterMap Exchange.queued := by
  obtain ⟨c, x, r, hr, hturn, hstore⟩ | ⟨hturn, hqueue, -⟩ := turn_cases ctx s a
  · rw [hturn, hstore]
    exact exchange_pendingQueue hr
  · rw [hqueue]
    rcases hturn with hturn | ⟨key, hturn⟩ <;> rw [hturn] <;> exact (List.append_nil _).symm

theorem turn_deadLetterQueue (s : Cluster) (a : Act) :
    ((deployment ctx).step s a).store.deadLetterQueue =
      s.store.deadLetterQueue ++ (turn s a).filterMap Exchange.buried := by
  obtain ⟨c, x, r, -, hturn, hstore⟩ | ⟨hturn, -, hqueue⟩ := turn_cases ctx s a
  · rw [hturn, hstore]
    exact exchange_deadLetterQueue
  · rw [hqueue]
    rcases hturn with hturn | ⟨key, hturn⟩ <;> rw [hturn] <;> exact (List.append_nil _).symm

/-- What has been taken from the queue, and what is in it, is what was put into it. -/
theorem turns_pendingQueue (s : Cluster) (acts : List Act) :
    (turns ctx s acts).filterMap Exchange.taken ++
        ((deployment ctx).run s acts).store.pendingQueue =
      s.store.pendingQueue ++ (turns ctx s acts).filterMap Exchange.queued := by
  rw [turns_eq_emitted, emitted_filterMap, emitted_filterMap]
  exact emitted_conserved (fun s : Cluster => s.store.pendingQueue) (turn_pendingQueue ctx) acts s

theorem turns_deadLetterQueue (s : Cluster) (acts : List Act) :
    ((deployment ctx).run s acts).store.deadLetterQueue =
      s.store.deadLetterQueue ++ (turns ctx s acts).filterMap Exchange.buried := by
  rw [turns_eq_emitted, emitted_filterMap]
  have hnone : ∀ s : Cluster, emitted (deployment ctx).step (fun _ _ => ([] : List Uuid)) s acts =
      [] := by
    induction acts with
    | nil => exact fun _ => rfl
    | cons a acts ih => exact fun s => ih _
  have hstep : ∀ (s : Cluster) (a : Act), [] ++ ((deployment ctx).step s a).store.deadLetterQueue =
      s.store.deadLetterQueue ++ (turn s a).filterMap Exchange.buried := turn_deadLetterQueue ctx
  have hrun := emitted_conserved (fun s : Cluster => s.store.deadLetterQueue) hstep acts s
  rw [hnone] at hrun
  exact hrun

/-- On a server of named values, empty at the start, every call of a run gets the reply that its
    process got. The ids taken from the queue, followed by those under its key, oldest first, are
    the ids put there in their order; under the key of the dead-letter queue is all that was
    ever put there. -/
theorem queue_fifo (keys : RedisKeys) (acts : List Act) : ∃ server' waiting,
    Keyspace.run (fun _ => none)
        ((turns ctx .initial acts).map fun turn => keys.access turn.1) =
      some ((turns ctx .initial acts).map Prod.snd, server') ∧
    (turns ctx .initial acts).filterMap Exchange.taken ++ waiting =
      (turns ctx .initial acts).filterMap Exchange.queued ∧
    server' keys.pendingQueue = Keyspace.ofList (waiting.map .id).reverse ∧
    server' keys.deadLetterQueue = Keyspace.ofList
      (((turns ctx .initial acts).filterMap Exchange.buried).map .id).reverse := by
  obtain ⟨server', hrun, hend⟩ := @turns_named ctx keys _ .initial empty_slots acts
  refine ⟨server', ((deployment ctx).run Cluster.initial acts).store.pendingQueue, hrun,
    turns_pendingQueue ctx .initial acts, congrFun hend .pendingQueue, ?_⟩
  have hdead := turns_deadLetterQueue ctx .initial acts
  rw [show Cluster.initial.store.deadLetterQueue = [] from rfl, List.nil_append] at hdead
  rw [← hdead]
  exact congrFun hend .deadLetterQueue

end Cluster
end Vshift
