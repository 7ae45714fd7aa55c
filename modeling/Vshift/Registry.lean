import Vshift.Alone

/- Workers that stay registered.

   A worker's record lapses when its time to live is over, while its place in the index of
   workers has no end of its own: reading the list removes the places without a record.
   `Registry.step` is one call by some worker, or time that elapses between two calls, with
   the instant of each worker's last call kept beside the server. A heartbeat renews the
   record only if it is still there, so a late one renews nothing: a worker is listed after
   each heartbeat exactly as long as its heartbeats are in time (`registered_iff_inTime`).
   A worker that deregistered is not listed, whenever its record lapsed. -/
namespace Vshift
open Command Program

/-! The worker registry run alone. -/

namespace World
variable (ctx : Context) (w : World)

/-- After `RedisWorkerRegistry.register`. -/
@[simps] def enrolled (info : WorkerInfo) : World :=
  { w with
    workers := Function.update w.workers info.workerId (some info)
    workersIndex := insert info.workerId w.workersIndex
    expiresAt := Function.update w.expiresAt (.worker info.workerId)
      (w.deadline ctx.queue.workerTtlSeconds.val) }

/-- After `RedisWorkerRegistry.deregister`. -/
@[simps] def withdrawn (worker : Uuid) : World :=
  { w with
    workers := Function.update w.workers worker none
    workersIndex := w.workersIndex.erase worker }

/-- After `RedisWorkerRegistry.list_workers`. -/
@[simps] def pruned : World :=
  { w with workersIndex := w.workersIndex.filter fun id => (w.workers id).isSome }

/-- The server once `d` microseconds have passed: every key that has lapsed is gone. -/
@[simps] def elapsed (d : Nat) : World :=
  let live (key : VolatileKey) : Bool := w.clock + d < w.expiresAt key
  { w with
    clock := w.clock + d
    jobs := fun id => if live (.job id) then w.jobs id else none
    summaries := fun id => if live (.jobSummary id) then w.summaries id else none
    heartbeats := fun id => if live (.jobHeartbeat id) then w.heartbeats id else none
    workers := fun id => if live (.worker id) then w.workers id else none }

end World

section
variable {ctx : Context} {w : World}

/-- What is left of the index once the ids of a list have been read. -/
def World.readWorkers (w : World) (ids : List Uuid) : World :=
  { w with workersIndex := w.workersIndex.filter fun id => id ∈ ids → (w.workers id).isSome }

theorem readWorkers_cons_none {id : Uuid} (h : w.workers id = none) (ids : List Uuid) :
    { w with workersIndex := w.workersIndex.erase id }.readWorkers ids =
      w.readWorkers (id :: ids) := by
  unfold World.readWorkers
  congr 1
  ext other
  by_cases hother : other = id
  · simp [hother, h]
  · simp [hother]

theorem readWorkers_cons_some {id : Uuid} {info : WorkerInfo} (h : w.workers id = some info)
    (ids : List Uuid) : w.readWorkers ids = w.readWorkers (id :: ids) := by
  unfold World.readWorkers
  congr 1
  ext other
  by_cases hother : other = id
  · simp [hother, h]
  · simp [hother]

theorem liveWorkers_obeys (ids : List Uuid) : ∀ w : World,
    (liveWorkers ids).Obeys redis.protocol
      (fun r t => r = .ok (ids.filterMap w.workers) ∧ t = w.readWorkers ids) w := by
  induction ids with
  | nil =>
    intro w
    refine ⟨rfl, ?_⟩
    simp [World.readWorkers]
  | cons id ids ih =>
    intro w
    unfold liveWorkers
    rw [obeys_bind, obeys_cmd _ (w.workers id) (fun _ => rfl), andThen_ok]
    simp only [World.effect]
    cases hw : w.workers id with
    | none =>
      show Obeys _ (cmd (.sremWorkers id) >>= fun _ => liveWorkers ids) _ _
      rw [obeys_bind, obeys_cmd (.sremWorkers id) () (fun _ => rfl), andThen_ok]
      apply (ih _).mono
      rintro r t ⟨rfl, rfl⟩
      refine ⟨?_, readWorkers_cons_none hw ids⟩
      rw [List.filterMap_cons_none hw]
      rfl
    | some info =>
      show Obeys _ (liveWorkers ids >>= fun workers => pure (info :: workers)) _ _
      apply (ih w).seq
      · rintro workers t ⟨heq, rfl⟩
        cases heq
        refine ⟨?_, readWorkers_cons_some hw ids⟩
        rw [List.filterMap_cons_some hw]
      · rintro e t ⟨heq, -⟩
        cases heq

/-- `list_workers` lists the records of the index, in some order. -/
theorem listWorkers_obeys : listWorkers.Obeys redis.protocol (fun r t => ∃ ids : List Uuid,
    ids.Nodup ∧ ids.toFinset = w.workersIndex ∧ r = .ok (ids.filterMap w.workers) ∧
      t = w.pruned) w := by
  refine ⟨trivial, ?_⟩
  rintro ids ⟨x, hx⟩
  obtain ⟨hnodup, hindex⟩ := World.answer_smembersWorkers hx
  apply (liveWorkers_obeys ids w).mono
  rintro r t ⟨rfl, rfl⟩
  refine ⟨ids, hnodup, hindex, rfl, ?_⟩
  unfold World.readWorkers World.pruned
  congr 1
  apply Finset.filter_congr
  intro id hid
  rw [← hindex, List.mem_toFinset] at hid
  simp [hid]

theorem obeys_register {info : WorkerInfo} {Q : Except Exn Unit → World → Prop} :
    (register ctx info).Obeys redis.protocol Q w ↔ Q (.ok ()) (w.enrolled ctx info) := by
  unfold register
  rw [obeys_bind, obeys_cmd _ () (fun _ => rfl), andThen_ok]
  exact obeys_cmd (.saddWorkers info.workerId) () (fun _ => rfl)

theorem obeys_deregister {worker : Uuid} {Q : Except Exn Unit → World → Prop} :
    (deregister worker).Obeys redis.protocol Q w ↔ Q (.ok ()) (w.withdrawn worker) := by
  unfold deregister
  rw [obeys_bind, obeys_cmd _ () (fun _ => rfl), andThen_ok]
  exact obeys_cmd (.sremWorkers worker) () (fun _ => rfl)

theorem liveWorkers_settled (ids : List Uuid) : redis.Settled (liveWorkers ids) := by
  induction ids with
  | nil => exact .pure []
  | cons id ids ih =>
    apply Machine.Settled.bind (.call fun _ _ => rfl)
    intro payload
    cases payload with
    | none => exact .bind (.call fun _ _ => rfl) fun _ => ih
    | some info => exact .bind ih fun _ => .pure _

/-- Some order of the index can always be listed. -/
theorem exists_listing (w : World) : ∃ tape infos t,
    redis.run listWorkers tape w = some (.ok infos, t) := by
  let order := w.workersIndex.toList
  have hanswer : redis.answer w .smembersWorkers [Choice.order order].head! = some order := by
    show w.answer .smembersWorkers (.order order) = _
    simp [World.answer, order, Finset.nodup_toList]
  obtain ⟨r, t, hrun⟩ := (liveWorkers_settled order).run [] w
  have hlist : redis.run listWorkers [.order order] w = some (r, t) := by
    show redis.run (.ask .smembersWorkers liveWorkers) _ _ = _
    rw [Machine.run, hanswer]
    exact hrun
  obtain ⟨ids, -, -, rfl, -⟩ := Machine.run_obeys hlist listWorkers_obeys
  exact ⟨_, _, t, hlist⟩

end

/-! Who is listed. -/

/-- `list_workers` would list the worker once, whatever order the server gives. -/
def ListedOnce (w : World) (worker : Uuid) : Prop :=
  ∀ tape r t, redis.run listWorkers tape w = some (r, t) →
    ∃ infos, r = .ok infos ∧ (infos.map WorkerInfo.workerId).count worker = 1

/-- `list_workers` would not list the worker. -/
def NotListed (w : World) (worker : Uuid) : Prop :=
  ∀ tape r t, redis.run listWorkers tape w = some (r, t) →
    ∃ infos, r = .ok infos ∧ worker ∉ infos.map WorkerInfo.workerId

/-- Every record is under its own worker's key. -/
def World.Keyed (w : World) : Prop :=
  ∀ worker info, w.workers worker = some info → info.workerId = worker

section
variable {w : World} {worker : Uuid}

theorem map_workerId (hkeyed : w.Keyed) (ids : List Uuid) :
    (ids.filterMap w.workers).map WorkerInfo.workerId =
      ids.filter fun id => (w.workers id).isSome := by
  induction ids with
  | nil => rfl
  | cons id ids ih =>
    cases hw : w.workers id with
    | none => simp [hw, ih]
    | some info => simp [hw, ih, hkeyed id info hw]

theorem listedOnce_iff (hkeyed : w.Keyed) :
    ListedOnce w worker ↔ worker ∈ w.workersIndex ∧ (w.workers worker).isSome := by
  constructor
  · intro honce
    obtain ⟨tape, infos, t, hrun⟩ := exists_listing w
    obtain ⟨infos, heq, hcount⟩ := honce tape _ t hrun
    obtain ⟨ids, -, hindex, hlist, -⟩ := Machine.run_obeys hrun listWorkers_obeys
    rw [hlist, Except.ok.injEq] at heq
    rw [← heq, map_workerId hkeyed] at hcount
    have hmem : worker ∈ ids.filter fun id => (w.workers id).isSome :=
      List.count_pos_iff.mp (by omega)
    rw [List.mem_filter] at hmem
    rw [← hindex, List.mem_toFinset]
    exact hmem
  · rintro ⟨hmem, hsome⟩ tape r t hrun
    obtain ⟨ids, hnodup, hindex, rfl, -⟩ := Machine.run_obeys hrun listWorkers_obeys
    refine ⟨_, rfl, ?_⟩
    rw [map_workerId hkeyed]
    rw [← hindex, List.mem_toFinset] at hmem
    exact List.count_eq_one_of_mem (hnodup.filter _) (List.mem_filter.mpr ⟨hmem, hsome⟩)

theorem notListed_of_none (hkeyed : w.Keyed) (h : w.workers worker = none) :
    NotListed w worker := by
  intro tape r t hrun
  obtain ⟨ids, -, -, rfl, -⟩ := Machine.run_obeys hrun listWorkers_obeys
  refine ⟨_, rfl, ?_⟩
  rw [map_workerId hkeyed]
  simp [h]

end

/-! Runs of calls. -/

inductive RegistryCall where
  | register (info : WorkerInfo)
  | heartbeat (worker : Uuid)
  | deregister (worker : Uuid)
  /-- The server gives the index in this order, if it is one of the index. -/
  | listWorkers (order : List Uuid)
  /-- Microseconds pass before the next call. -/
  | elapse (d : Nat)

/-- The server, and when each worker last registered or called `heartbeat`, from its registration
    until it deregisters. -/
structure Registry where
  world : World
  lastCall : Uuid → Option DateTime

/-- What a store method leaves behind. -/
def World.after {α : Type} (w : World) (p : Prog α) (x : Choice) : World :=
  (redis.run p [x] w).elim w Prod.snd

/-- Microseconds in the time to live of a worker's record. -/
def Context.workerTtl (ctx : Context) : Nat := seconds ctx.queue.workerTtlSeconds.val

namespace Registry

/-- A server where no worker has registered. -/
def start (w : World) : Registry where
  world := { w with workers := fun _ => none, workersIndex := ∅ }
  lastCall _ := none

def step (ctx : Context) (s : Registry) : RegistryCall → Registry
  | .register info =>
    { world := s.world.after (register ctx info) .go
      lastCall := Function.update s.lastCall info.workerId (some s.world.clock) }
  | .heartbeat worker =>
    { world := s.world.after (heartbeat ctx worker) .go
      lastCall := Function.update s.lastCall worker
        ((s.lastCall worker).map fun _ => s.world.clock) }
  | .deregister worker =>
    { world := s.world.after (deregister worker) .go
      lastCall := Function.update s.lastCall worker none }
  | .listWorkers order => { s with world := s.world.after listWorkers (.order order) }
  | .elapse d => { s with world := s.world.elapsed d }

/-- The worker registered and has not deregistered. -/
def Member (s : Registry) (worker : Uuid) : Prop := (s.lastCall worker).isSome

end Registry

section
variable {ctx : Context} {w : World}

theorem after_of_obeys {α : Type} {p : Prog α} {w' : World} (hsettled : redis.Settled p)
    (h : p.Obeys redis.protocol (fun _ t => t = w') w) (x : Choice) : w.after p x = w' := by
  obtain ⟨r, t, hrun⟩ := hsettled.run [x] w
  have ht : t = w' := Machine.run_obeys hrun h
  rw [World.after, hrun, ← ht]
  rfl

theorem after_register (info : WorkerInfo) :
    w.after (register ctx info) .go = w.enrolled ctx info := by
  apply after_of_obeys _ (obeys_register.mpr rfl)
  exact .bind (.call fun _ _ => rfl) fun _ =>
    .call fun _ _ => rfl

theorem after_heartbeat (worker : Uuid) :
    w.after (heartbeat ctx worker) .go = w.beaten ctx worker := by
  apply after_of_obeys _ (obeys_heartbeat.mpr rfl)
  apply Machine.Settled.bind (.call fun _ _ => rfl)
  intro payload
  cases payload with
  | none => exact .pure ()
  | some info =>
    exact .bind (.call fun _ _ => rfl) fun _ =>
      .call fun _ _ => rfl

theorem after_deregister (worker : Uuid) :
    w.after (deregister worker) .go = w.withdrawn worker := by
  apply after_of_obeys _ (obeys_deregister.mpr rfl)
  exact .bind (.call fun _ _ => rfl) fun _ =>
    .call fun _ _ => rfl

theorem after_listWorkers (x : Choice) :
    w.after listWorkers x = w.pruned ∨ w.after listWorkers x = w := by
  unfold World.after
  cases hrun : redis.run listWorkers [x] w with
  | none => exact .inr rfl
  | some result =>
    obtain ⟨-, -, -, -, ht⟩ := Machine.run_obeys hrun listWorkers_obeys
    exact .inl ht

end

/-- Everything a call can do to one worker. -/
inductive Turn (ctx : Context) (s : Registry) (call : RegistryCall) (worker : Uuid)
    (s' : Registry) : Prop
  | registered (info : WorkerInfo) (hclock : s'.world.clock = s.world.clock)
      (hrecord : s'.world.workers worker = some info) (hkey : info.workerId = worker)
      (hcall : s'.lastCall worker = some s.world.clock)
      (hdeadline : s'.world.expiresAt (.worker worker) = s.world.clock + ctx.workerTtl)
      (hindex : worker ∈ s'.world.workersIndex)
  | renewed (info : WorkerInfo) (hclock : s'.world.clock = s.world.clock)
      (hbefore : (s.world.workers worker).isSome)
      (hrecord : s'.world.workers worker = some info) (hkey : info.workerId = worker)
      (hcall : s'.lastCall worker = (s.lastCall worker).map fun _ => s.world.clock)
      (hdeadline : s'.world.expiresAt (.worker worker) = s.world.clock + ctx.workerTtl)
      (hindex : s'.world.workersIndex = s.world.workersIndex)
  | missed (hbeat : call = .heartbeat worker) (hclock : s'.world.clock = s.world.clock)
      (hbefore : s.world.workers worker = none) (hrecord : s'.world.workers worker = none)
      (hcall : s'.lastCall worker = (s.lastCall worker).map fun _ => s.world.clock)
  | left (hrecord : s'.world.workers worker = none) (hcall : s'.lastCall worker = none)
  | kept (hclock : s.world.clock ≤ s'.world.clock)
      (hlive : (s.world.workers worker).isSome → s'.world.clock = s.world.clock ∨
        s'.world.clock < s.world.expiresAt (.worker worker))
      (hrecord : s'.world.workers worker = s.world.workers worker)
      (hcall : s'.lastCall worker = s.lastCall worker)
      (hdeadline : s'.world.expiresAt (.worker worker) = s.world.expiresAt (.worker worker))
      (hindex : (s.world.workers worker).isSome → worker ∈ s.world.workersIndex →
        worker ∈ s'.world.workersIndex)
  | lapsed (hlate : s.world.expiresAt (.worker worker) ≤ s'.world.clock)
      (hclock : s.world.clock ≤ s'.world.clock)
      (hrecord : s'.world.workers worker = none) (hcall : s'.lastCall worker = s.lastCall worker)

section
variable {ctx : Context} {s : Registry} {call : RegistryCall} {worker : Uuid}

/-- A call that leaves the worker's own keys alone. -/
theorem turn_of_frame {s' : Registry} (hclock : s'.world.clock = s.world.clock)
    (hrecord : s'.world.workers worker = s.world.workers worker)
    (hcall : s'.lastCall worker = s.lastCall worker)
    (hdeadline : s'.world.expiresAt (.worker worker) = s.world.expiresAt (.worker worker))
    (hindex : (s.world.workers worker).isSome → worker ∈ s.world.workersIndex →
      worker ∈ s'.world.workersIndex) : Turn ctx s call worker s' :=
  .kept hclock.ge (fun _ => .inl hclock) hrecord hcall hdeadline hindex

theorem step_turn (hkeyed : s.world.Keyed) (call : RegistryCall) (worker : Uuid) :
    Turn ctx s call worker (s.step ctx call) := by
  cases call with
  | register info =>
    simp only [Registry.step, after_register]
    by_cases hself : worker = info.workerId
    · subst hself
      exact .registered info rfl (Function.update_self ..) rfl (Function.update_self ..)
        (Function.update_self ..) (Finset.mem_insert_self ..)
    · refine turn_of_frame rfl (Function.update_of_ne hself ..)
        (Function.update_of_ne hself ..) ?_ fun _ hmem => Finset.mem_insert_of_mem hmem
      apply Function.update_of_ne
      simpa using hself
  | heartbeat beating =>
    simp only [Registry.step, after_heartbeat]
    cases hbefore : s.world.workers beating with
    | none =>
      by_cases hself : worker = beating
      · subst hself
        refine .missed rfl rfl hbefore ?_ (Function.update_self ..)
        simp [hbefore]
      · refine turn_of_frame rfl ?_ (Function.update_of_ne hself ..) ?_ fun _ hmem => hmem
        · simp [hbefore]
        · simp [hbefore]
    | some info =>
      -- the record is written back under the id it holds
      have hkey : info.workerId = beating := hkeyed beating info hbefore
      by_cases hself : worker = beating
      · subst hself
        have hsome : (s.world.workers worker).isSome := by simp [hbefore]
        refine .renewed { info with lastSeenAt := s.world.clock } rfl hsome ?_ hkey
          (Function.update_self ..) ?_ rfl
        · simp [hbefore, hkey]
        · simp [hbefore, hkey, World.deadline, Context.workerTtl]
      · refine turn_of_frame rfl ?_ (Function.update_of_ne hself ..) ?_ fun _ hmem => hmem
        · simp [hbefore, hkey, Function.update_of_ne hself]
        · simp [hbefore, hkey, Function.update_of_ne, hself]
  | deregister leaving =>
    simp only [Registry.step, after_deregister]
    by_cases hself : worker = leaving
    · subst hself
      exact .left (Function.update_self ..) (Function.update_self ..)
    · exact turn_of_frame rfl (Function.update_of_ne hself ..) (Function.update_of_ne hself ..)
        rfl fun _ hmem => Finset.mem_erase.mpr ⟨hself, hmem⟩
  | listWorkers order =>
    simp only [Registry.step]
    obtain hafter | hafter := after_listWorkers (w := s.world) (.order order)
    · rw [hafter]
      refine turn_of_frame rfl rfl rfl rfl ?_
      exact fun hsome hmem => Finset.mem_filter.mpr ⟨hmem, hsome⟩
    · rw [hafter]
      exact turn_of_frame rfl rfl rfl rfl fun _ hmem => hmem
  | elapse d =>
    simp only [Registry.step]
    have hclock : s.world.clock ≤ (s.world.elapsed d).clock := Nat.le_add_right ..
    by_cases hlive : s.world.clock + d < s.world.expiresAt (.worker worker)
    · refine .kept hclock (fun _ => .inr hlive) ?_ rfl rfl fun _ hmem => hmem
      simp [hlive]
    · refine .lapsed (Nat.le_of_not_lt hlive) hclock ?_ rfl
      simp [hlive]

/-! The two invariants. -/

/-- A record is under its own worker's key, and its worker is a member. -/
def OnRecord (s : Registry) : Prop :=
  ∀ worker info, s.world.workers worker = some info → info.workerId = worker ∧ s.Member worker

theorem OnRecord.keyed (h : OnRecord s) : s.world.Keyed :=
  fun worker info hrecord => (h worker info hrecord).1

theorem OnRecord.step (h : OnRecord s) (call : RegistryCall) : OnRecord (s.step ctx call) := by
  intro worker info hrecord'
  unfold Registry.Member
  cases (step_turn h.keyed call worker : Turn ctx s call worker _) with
  | registered info' _ hrecord hkey hcall _ _ =>
    rw [hrecord] at hrecord'
    cases hrecord'
    exact ⟨hkey, hcall ▸ rfl⟩
  | renewed info' _ hbefore hrecord hkey hcall _ _ =>
    rw [hrecord] at hrecord'
    cases hrecord'
    obtain ⟨old, hold⟩ := Option.isSome_iff_exists.mp hbefore
    rw [hcall, Option.isSome_map]
    exact ⟨hkey, (h worker old hold).2⟩
  | missed _ _ _ hrecord _ =>
    rw [hrecord] at hrecord'
    cases hrecord'
  | left hrecord _ =>
    rw [hrecord] at hrecord'
    cases hrecord'
  | kept _ _ hrecord hcall _ _ =>
    rw [hrecord] at hrecord'
    rw [hcall]
    exact h worker info hrecord'
  | lapsed _ _ hrecord _ =>
    rw [hrecord] at hrecord'
    cases hrecord'

theorem OnRecord.notListed (h : OnRecord s) (hmember : ¬ s.Member worker) :
    NotListed s.world worker := by
  apply notListed_of_none h.keyed
  cases hrecord : s.world.workers worker with
  | none => rfl
  | some info => exact absurd (h worker info hrecord).2 hmember

/-- Where a worker stands whose heartbeats were all in time: it has a record, in the index, until
    a time to live after its last call, and none after that. -/
inductive Standing (ctx : Context) (s : Registry) (worker : Uuid) : Prop
  | absent (hrecord : s.world.workers worker = none)
      (hlate : ∀ t, s.lastCall worker = some t → t + ctx.workerTtl ≤ s.world.clock)
  | present (t : DateTime) (info : WorkerInfo) (hcall : s.lastCall worker = some t)
      (hlive : s.world.clock < t + ctx.workerTtl)
      (hrecord : s.world.workers worker = some info) (hkey : info.workerId = worker)
      (hdeadline : s.world.expiresAt (.worker worker) = t + ctx.workerTtl)
      (hindex : worker ∈ s.world.workersIndex)

theorem Standing.onRecord (h : ∀ worker, Standing ctx s worker) : OnRecord s := by
  intro worker info hsome
  unfold Registry.Member
  cases h worker with
  | absent hrecord _ =>
    rw [hrecord] at hsome
    cases hsome
  | present t info' hcall _ hrecord hkey _ _ =>
    rw [hrecord] at hsome
    cases hsome
    exact ⟨hkey, hcall ▸ rfl⟩

/-- The worker is listed once exactly when it stands with a record. -/
theorem Standing.listedOnce_iff (h : ∀ worker, Standing ctx s worker) :
    ListedOnce s.world worker ↔ (s.world.workers worker).isSome := by
  rw [Vshift.listedOnce_iff (Standing.onRecord h).keyed]
  apply and_iff_right_of_imp
  intro hsome
  cases h worker with
  | absent hrecord _ =>
    rw [hrecord] at hsome
    cases hsome
  | present _ _ _ _ _ _ _ hindex => exact hindex

/-- A heartbeat of a member comes before a time to live has passed since its last call. -/
def InTime (ctx : Context) (s : Registry) (call : RegistryCall) : Prop :=
  ∀ worker t, call = .heartbeat worker → s.lastCall worker = some t →
    s.world.clock < t + ctx.workerTtl

theorem workerTtl_pos : 0 < ctx.workerTtl :=
  Nat.mul_pos ctx.queue.workerTtlSeconds.property (by decide)

theorem renewed_live {now now' : DateTime} (h : now' = now) : now' < now + ctx.workerTtl :=
  h ▸ Nat.lt_add_of_pos_right workerTtl_pos

/-- Calls in time keep every worker's standing. -/
theorem Standing.step (h : ∀ worker, Standing ctx s worker) (hok : InTime ctx s call) :
    ∀ worker, Standing ctx (s.step ctx call) worker := by
  intro worker
  cases (step_turn (Standing.onRecord h).keyed call worker : Turn ctx s call worker _) with
  | registered info hclock hrecord hkey hcall hdeadline hindex =>
    exact .present _ info hcall (renewed_live hclock) hrecord hkey hdeadline hindex
  | renewed info hclock hbefore hrecord hkey hcall hdeadline hindex =>
    cases h worker with
    | absent hnone _ =>
      rw [hnone] at hbefore
      cases hbefore
    | present t _ hlast _ _ _ _ hmem =>
      rw [hlast] at hcall
      exact .present _ info hcall (renewed_live hclock) hrecord hkey hdeadline (hindex ▸ hmem)
  | missed hbeat hclock hbefore hrecord hcall =>
    cases h worker with
    | absent _ hlate =>
      -- a record that is gone would have been renewed in time
      cases hlast : s.lastCall worker with
      | none =>
        rw [hlast] at hcall
        refine .absent hrecord fun t ht => ?_
        rw [hcall] at ht
        cases ht
      | some t =>
        exact absurd (hok worker t hbeat hlast) (Nat.not_lt.mpr (hlate t hlast))
    | present _ _ _ _ hsome =>
      rw [hbefore] at hsome
      cases hsome
  | left hrecord hcall =>
    refine .absent hrecord fun t ht => ?_
    rw [hcall] at ht
    cases ht
  | kept hclock hlive hrecord hcall hdeadline hindex =>
    cases h worker with
    | absent hnone hlate =>
      refine .absent (hrecord.trans hnone) fun t ht => ?_
      exact Nat.le_trans (hlate t (hcall ▸ ht)) hclock
    | present t info hlast hbefore hsome hkey hends hmem =>
      have hpresent : (s.world.workers worker).isSome := by simp [hsome]
      refine .present t info (hcall.trans hlast) ?_ (hrecord.trans hsome) hkey
        (hdeadline.trans hends) (hindex hpresent hmem)
      obtain hsame | hstill := hlive hpresent
      · exact hsame ▸ hbefore
      · exact hends ▸ hstill
  | lapsed hlate hclock hrecord hcall =>
    refine .absent hrecord fun t ht => ?_
    rw [hcall] at ht
    cases h worker with
    | absent _ hbefore => exact Nat.le_trans (hbefore t ht) hclock
    | present t' _ hlast _ _ _ hends _ =>
      rw [hlast] at ht
      cases ht
      exact hends ▸ hlate

/-! Members are listed after their heartbeats. -/

/-- A member's heartbeat leaves it listed once, and only members are listed. -/
def ListsMembers (ctx : Context) (s : Registry) (call : RegistryCall) : Prop :=
  (∀ worker, call = .heartbeat worker → s.Member worker →
    ListedOnce (s.step ctx call).world worker) ∧
  ∀ worker, ¬ (s.step ctx call).Member worker → NotListed (s.step ctx call).world worker

theorem listsMembers_iff_inTime (h : ∀ worker, Standing ctx s worker) :
    ListsMembers ctx s call ↔ InTime ctx s call := by
  constructor
  · rintro ⟨hlisted, -⟩ worker t hbeat hlast
    have hmember : s.Member worker := by
      unfold Registry.Member
      rw [hlast]
      rfl
    have honce := hlisted worker hbeat hmember
    cases h worker with
    | absent hnone _ =>
      -- the heartbeat of a worker without a record changes nothing
      exfalso
      subst hbeat
      have hworld : (s.step ctx (.heartbeat worker)).world = s.world := by
        simp [Registry.step, after_heartbeat, World.beaten, hnone]
      rw [hworld, Standing.listedOnce_iff h, hnone] at honce
      cases honce
    | present t' _ hcall hlive =>
      rw [hlast] at hcall
      cases hcall
      exact hlive
  · intro hok
    have hstep := Standing.step h hok
    refine ⟨?_, fun worker => (Standing.onRecord hstep).notListed⟩
    intro worker hbeat hmember
    subst hbeat
    rw [Standing.listedOnce_iff hstep]
    obtain ⟨t, hlast⟩ := Option.isSome_iff_exists.mp hmember
    cases h worker with
    | absent _ hlate => exact absurd (hok worker t rfl hlast) (Nat.not_lt.mpr (hlate t hlast))
    | present _ info _ _ hrecord hkey =>
      simp [Registry.step, after_heartbeat, World.beaten, hrecord, hkey]

theorem standing_start (w : World) (worker : Uuid) : Standing ctx (.start w) worker :=
  .absent rfl fun t ht => by cases ht

/-- Heartbeats list their workers in exactly the runs where all of them are in time; a worker that
    is no member is listed in none. -/
theorem registered_iff_inTime (ctx : Context) (w : World) (calls : List RegistryCall) :
    (Meets (Registry.step ctx) (ListsMembers ctx) (.start w) calls ↔
      Meets (Registry.step ctx) (InTime ctx) (.start w) calls) ∧
    ∀ worker, ¬ (runFrom (Registry.step ctx) (.start w) calls).Member worker →
      NotListed (runFrom (Registry.step ctx) (.start w) calls).world worker := by
  constructor
  · symm
    apply meets_congr (fun s => ∀ worker, Standing ctx s worker)
    · exact fun s call h hok => Standing.step h hok
    · exact fun s call h => (listsMembers_iff_inTime h).symm
    · exact standing_start w
  · intro worker
    have hstart : ∀ worker, Standing ctx (.start w) worker := standing_start w
    have hmeets : Meets (Registry.step ctx) (fun _ _ => True) (.start w) calls :=
      meets_of_forall (fun _ _ _ => trivial) _
    have honRecord := run_invariant OnRecord (fun s call h _ => h.step call)
      (Standing.onRecord hstart) hmeets
    exact honRecord.notListed

end

/-! A worker whose job takes longer than its record lives. -/

def slowWorker : WorkerInfo where
  workerId := 7
  hostname := "worker-1"
  createdAt := 0
  lastSeenAt := 0
  status := .idle
  capabilities := { ffmpegVersion := "7.0" }
  hardware := { platform := "linux", architecture := "x86_64" }

/-- It registers, works for 31 seconds, and reports. -/
def slowJob : List RegistryCall := [.register slowWorker, .elapse (seconds 31), .heartbeat 7]

/-- The heartbeat after the job renews nothing, and the worker is not listed. -/
theorem slow_worker_unlisted : ¬ ∀ (ctx : Context) (w : World) (calls : List RegistryCall),
    Meets (Registry.step ctx) (ListsMembers ctx) (.start w) calls := by
  intro hlists
  obtain ⟨-, -, hbeat, -⟩ := hlists smallContext .empty slowJob
  have hregister : InTime smallContext (.start .empty) (.register slowWorker) := by
    intro worker t hcall
    cases hcall
  have hregistered := Standing.step (standing_start .empty) hregister
  have helapse : InTime smallContext (Registry.step smallContext (.start .empty)
      (.register slowWorker)) (.elapse (seconds 31)) := by
    intro worker t hcall
    cases hcall
  have hlapsed := Standing.step hregistered helapse
  have htime := (listsMembers_iff_inTime hlapsed).mp hbeat 7 0 rfl rfl
  exact absurd htime (by decide)

end Vshift
