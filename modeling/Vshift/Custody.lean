import Vshift.Processes

/- Custody of jobs: recovery passes among workers that never stop.

   Where no process dies and no key lapses, every id is in one place: in the
   queue, or with the one process that popped or created it (`Custody.owned`). A
   job in the sets a recovery pass looks at has a heartbeat, except between two
   commands of `ClaimJob`: `save` has added the id to the claimed set, and
   `set_job_heartbeat` comes next. `one_transcode` says that a pass recovers
   nothing, and no job is transcoded twice at once, as long as no pass checks an
   id in that gap the first time it is claimed. `recovered_while_claimed` is a run
   where one does. -/
namespace Vshift
open Command Program

/-! The property and the condition. -/

/-- No recovery pass has saved a record, and no two workers are inside `transcode()` for
    the same job. -/
structure OneTranscode (s : Cluster) : Prop where
  recovered : ∀ p ∈ s.procs, p.label = .recoverStaleJobs → ∀ job, ¬ Proc.Wrote p job
  transcoding : ∀ (i j : Nat) (p q : Proc) (job job' : TranscodeJob),
    s.procs[i]? = some p → s.procs[j]? = some q →
    p.next? = some (.transcode job) → q.next? = some (.transcode job') → job.id = job'.id → i = j

/-- No process is killed and no key lapses. -/
def Undisturbed : Act → Prop
  | .kill _ => False
  | .env (.expire _) => False
  | _ => True

/-- The job whose heartbeat the process checks next. -/
def Proc.checks? (p : Proc) : Option Uuid :=
  match p.next? with
  | some (.existsHeartbeat id) => some id
  | _ => none

/-- The job whose heartbeat the process sets next. -/
def Proc.beats? (p : Proc) : Option Uuid :=
  match p.next? with
  | some (.setHeartbeat id _ _) => some id
  | _ => none

/-- No pass checks the heartbeat of a job whose first one a worker is just about to set. -/
def ChecksAfterClaim (s : Cluster) : Act → Prop
  | .exec pid _ => ∀ p ∈ s.procs[pid]?, ∀ id ∈ Proc.checks? p,
    ∀ q ∈ s.procs, Proc.beats? q = some id → s.store.heartbeats id ≠ none
  | a => Undisturbed a

instance (s : Cluster) : ∀ a, Decidable (ChecksAfterClaim s a)
  | .exec pid _ => inferInstanceAs (Decidable (∀ p ∈ s.procs[pid]?, ∀ id ∈ Proc.checks? p,
      ∀ q ∈ s.procs, Proc.beats? q = some id → s.store.heartbeats id ≠ none))
  | .env (.expire _) => isFalse id
  | .env (.clock _) => isTrue trivial
  | .env (.media _ _) => isTrue trivial
  | .spawn _ => isTrue trivial
  | .kill _ => isFalse id

/-! The protocol. -/

structure Custody where
  /-- Not a recovery pass. -/
  saves : Bool
  /-- The id the process created or popped and has not pushed. -/
  owned : Option Uuid
  /-- It has set a heartbeat for it. -/
  beats : Bool
  /-- The id it has added to the claimed set and must set the heartbeat of next. -/
  awaiting : Option Uuid
  /-- The ids it has listed. -/
  listed : List Uuid

namespace Custody

def initial : Label → Custody
  | .recoverStaleJobs => ⟨false, none, false, none, []⟩
  | _ => ⟨true, none, false, none, []⟩

/-- A worker in the middle of its job. -/
def holding (id : Uuid) : Custody := ⟨true, some id, true, none, []⟩

def Final (t : Custody) : Prop := t.awaiting = none

end Custody

def custody : Protocol Cmd Reply Custody where
  allows t
    | .setHeartbeat id _ _ => t.owned = some id ∧ (t.awaiting = none ∨ t.awaiting = some id)
    | .setJob _ _ => t.awaiting = none ∧ t.saves = true
    | .saddState .claimed id => t.awaiting = none ∧ t.owned = some id
    | .saddState .processing id => t.awaiting = none ∧ t.owned = some id ∧ t.beats = true
    | .lpushPending id => t.awaiting = none ∧ t.owned = some id
    | .transcode job => t.awaiting = none ∧ t.owned = some job.id
    | .smembersState s => t.awaiting = none ∧ s.Held
    | .existsHeartbeat id => t.awaiting = none ∧ id ∈ t.listed
    | _ => t.awaiting = none
  expects _
    | .getJob id, r => ∀ job ∈ r, job.id = id
    | .existsHeartbeat _, alive => alive = true
    | _, _ => True
  next t
    | .uuid4, id => { t with owned := some id, beats := false }
    | .brpopPending, id => { t with owned := id, beats := false }
    | .lpushPending _, _ => { t with owned := none, beats := false }
    | .saddState .claimed id, _ => { t with awaiting := some id }
    | .setHeartbeat _ _ _, _ => { t with awaiting := none, beats := true }
    | .smembersState _, ids => { t with listed := ids ++ t.listed }
    | _, _ => t

variable {ctx : Context}

section
variable {t : Custody} {job : TranscodeJob} {worker : Uuid}

/-- A save needs custody of what it adds to a set, and changes it only when it claims. -/
theorem custody_saveJob (haw : t.awaiting = none) (hs : t.saves = true)
    (hadd : custody.allows t (.saddState job.state job.id)) :
    (saveJob ctx job).Obeys custody (fun r t' =>
      r = .ok () ∧ t' = custody.next t (.saddState job.state job.id) ()) t := by
  have hsave : Replaces custody ctx job (fun r t' =>
      r = .ok () ∧ t' = custody.next t (.saddState job.state job.id) ()) t :=
    ⟨⟨haw, hs⟩, fun _ _ => ⟨hadd, fun _ _ => ⟨rfl, rfl⟩⟩⟩
  exact saveJob_obeys haw (fun _ _ _ => hsave) (fun _ _ _ => ⟨haw, fun _ _ => hsave⟩)

theorem custody_save_then {α : Type} {f : Unit → Prog α} {Q : Except Exn α → Custody → Prop}
    (haw : t.awaiting = none) (hs : t.saves = true)
    (hadd : custody.allows t (.saddState job.state job.id))
    (hrest : (f ()).Obeys custody Q (custody.next t (.saddState job.state job.id) ())) :
    (saveJob ctx job >>= f).Obeys custody Q t :=
  (custody_saveJob haw hs hadd).seq (fun _ _ h => by rw [h.2]; exact hrest)
    (fun _ _ h => by cases h.1)

theorem custody_heartbeat (haw : t.awaiting = none) :
    (heartbeat ctx worker).Obeys custody (fun _ t' => t' = t) t := by
  refine (obeys_call_bind _ _ _).mpr ⟨haw, fun payload _ => ?_⟩
  cases payload with
  | none => rfl
  | some info => exact ⟨haw, fun now _ => ⟨haw, fun _ _ => rfl⟩⟩

theorem custody_claimJob :
    (claimJob ctx worker).Obeys custody (fun r t' =>
      match r with
      | .ok (some job) => t' = Custody.holding job.id
      | _ => t'.Final) (Custody.initial (.processNextJob worker)) := by
  refine (obeys_call_bind _ _ _).mpr ⟨rfl, fun popped _ => ?_⟩
  cases popped with
  | none => rfl
  | some id =>
    refine (obeys_call_bind _ _ _).mpr ⟨rfl, fun stored hstored => ?_⟩
    cases stored with
    | none => rfl
    | some job =>
      have hid : job.id = id := hstored job rfl
      subst hid
      dsimp only
      split
      · rfl
      · refine transitionTo_obeys (fun _ => ?_) (fun _ => rfl)
        refine (obeys_call_bind _ _ _).mpr ⟨rfl, fun now _ => ?_⟩
        refine custody_save_then rfl rfl ⟨rfl, rfl⟩ ?_
        -- between this command and the one before, the job is claimed without a heartbeat
        refine (obeys_call_bind _ _ _).mpr ⟨⟨rfl, .inr rfl⟩, fun _ _ => ?_⟩
        exact (custody_heartbeat rfl).seq (fun _ _ h => h) (fun _ _ h => by rw [h]; rfl)

theorem custody_startTranscode :
    (startTranscode ctx worker job).Obeys custody (fun r t' =>
      match r with
      | .ok processing => t' = Custody.holding job.id ∧ processing.id = job.id
      | .error _ => t' = Custody.holding job.id) (Custody.holding job.id) := by
  have hassert : (assertWorkerOwnsJob worker job).Obeys custody
      (fun _ t' => t' = Custody.holding job.id) (Custody.holding job.id) := by
    unfold assertWorkerOwnsJob
    split
    · rfl
    · split <;> rfl
  refine hassert.seq (fun _ t' h => ?_) (fun _ _ h => h)
  subst h
  refine transitionTo_obeys (fun _ => ?_) (fun _ => rfl)
  refine (obeys_call_bind _ _ _).mpr ⟨rfl, fun now _ => ?_⟩
  refine custody_save_then rfl rfl ⟨rfl, rfl, rfl⟩ ?_
  exact ⟨⟨rfl, .inl rfl⟩, fun _ _ => ⟨rfl, rfl⟩⟩

theorem custody_writeSummary {processing : TranscodeJob} {id : Uuid} (result : TranscodeResult) :
    (writeSummary ctx processing result).Obeys custody (fun _ t' => t' = Custody.holding id)
      (Custody.holding id) := by
  unfold writeSummary
  split
  · rfl
  · refine (obeys_call_bind _ _ _).mpr ⟨rfl, fun outcome _ => ?_⟩
    refine (obeys_bind _ _ _).mpr ((obeys_ofExcept _ _).mpr ?_)
    cases outcome with
    | error e => rfl
    | ok summary =>
      refine (obeys_call_bind _ _ _).mpr ⟨rfl, fun _ _ => ?_⟩
      refine transitionTo_obeys (fun _ => ?_) (fun _ => rfl)
      refine (obeys_call_bind _ _ _).mpr ⟨rfl, fun now _ => ?_⟩
      exact custody_save_then rfl rfl rfl rfl

theorem custody_handleError (message : String) :
    (handleError ctx worker job message).Obeys custody (fun _ t' => t'.Final)
      (Custody.holding job.id) := by
  refine (obeys_call_bind _ _ _).mpr ⟨rfl, fun stored hstored => ?_⟩
  have hid : (stored.getD job).id = job.id := by
    cases stored with
    | none => rfl
    | some current => exact hstored current rfl
  generalize stored.getD job = current at hid
  unfold handleJobFailure
  split
  · rfl
  · split
    · rfl
    · split
      · refine transitionTo_obeys (fun _ => ?_) (fun _ => rfl)
        refine (obeys_call_bind _ _ _).mpr ⟨rfl, fun now _ => ?_⟩
        exact custody_save_then rfl rfl rfl ⟨rfl, fun _ _ => rfl⟩
      · refine transitionTo_obeys (fun _ => ?_) (fun _ => rfl)
        refine custody_save_then rfl rfl rfl ⟨⟨rfl, ?_⟩, fun _ _ => rfl⟩
        exact congrArg some hid.symm

theorem custody_processNextJob :
    (processNextJob ctx worker).Obeys custody (fun _ t' => t'.Final)
      (Custody.initial (.processNextJob worker)) := by
  refine processNextJob_obeys (fun job t => t = Custody.holding job.id)
    (fun job processing t => t = Custody.holding job.id ∧ processing.id = job.id)
    (fun job t => t = Custody.holding job.id) (fun job t => t = Custody.holding job.id)
    custody_claimJob ?_ ?_ ?_ ?_ ?_ ?_ ?_
  · intro job t h
    subst h
    exact custody_startTranscode
  · intro job processing t ⟨h, hid⟩
    subst h
    exact ⟨⟨rfl, congrArg some hid.symm⟩, fun _ _ => ⟨rfl, hid⟩⟩
  · intro job processing result t ⟨h, _⟩
    subst h
    refine (custody_writeSummary result).mono fun r t' h => ?_
    cases r <;> exact h
  · exact fun job processing t h => h.1
  · intro job message t h
    subst h
    exact custody_handleError message
  · intro job t h
    subst h
    rfl
  · intro job t h
    subst h
    exact ⟨rfl, fun _ _ => rfl⟩

/-- A pass whose checks all find a heartbeat recovers nothing. -/
theorem custody_recoverStaleJobs :
    (recoverStaleJobs ctx).Obeys custody (fun _ t' => t'.Final)
      (Custody.initial .recoverStaleJobs) := by
  have hkeep : ∀ (job : TranscodeJob) (t : Custody) c r, job.id ∈ t.listed →
      job.id ∈ (custody.next t c r).listed := by
    intro job t c r h
    cases c with
    | smembersState s => exact List.mem_append_right _ h
    | saddState s id => cases s <;> exact h
    | _ => exact h
  refine recoverStaleJobs_obeys Custody.Final _ hkeep ?_ ?_ rfl
  · intro state t hs h
    refine listByState_obeys (fun ids t => t.Final ∧ ids ⊆ t.listed) hkeep (fun _ _ h => h.1)
      ⟨h, hs⟩ (fun ids _ => ⟨⟨h, List.subset_append_left _ _⟩, ?_⟩)
    intro id hid t ⟨h, hlisted⟩
    refine ⟨h, fun stored hstored => ⟨⟨h, hlisted⟩, fun job hj => ?_⟩⟩
    rw [hstored job hj]
    exact hlisted hid
  · intro job t h hlisted
    exact ⟨⟨h, hlisted⟩, fun alive halive => ⟨h, fun hdead => by rw [halive] at hdead; cases hdead⟩⟩

/-- A process that creates jobs keeps nothing of them. -/
theorem custody_enqueueJob (probed : ProbedInput) (chosen : ProfileMatch)
    (h : t.Final ∧ t.saves = true) : (enqueueJob ctx probed chosen).Obeys custody
      (fun _ t' => t'.Final ∧ t'.saves = true) t := by
  refine (obeys_call_bind _ _ _).mpr ⟨h.1, fun known _ => ?_⟩
  cases known with
  | true => exact h
  | false =>
    refine (obeys_call_bind _ _ _).mpr ⟨h.1, fun id _ => ?_⟩
    refine (obeys_call_bind _ _ _).mpr ⟨h.1, fun now _ => ?_⟩
    refine custody_save_then h.1 h.2 h.1 ?_
    exact ⟨h.1, fun _ _ => ⟨⟨h.1, rfl⟩, fun _ _ => h⟩⟩

theorem code_custody (ctx : Context) (l : Label) :
    (code ctx l).Obeys custody (fun _ t => t.Final) (Custody.initial l) := by
  have hempty : ∀ t : Custody, t = ⟨true, none, false, none, []⟩ → t.Final ∧ t.saves = true := by
    intro t ht
    subst ht
    exact ⟨rfl, rfl⟩
  cases l with
  | enqueueJob probed chosen =>
    exact (obeys_discard _ _).mpr ((custody_enqueueJob probed chosen (hempty _ rfl)).mono
      fun _ _ h => h.1)
  | scanInputFolder candidates =>
    have hscan : ∀ t : Custody, t.Final ∧ t.saves = true → (scanInputFolder ctx candidates).Obeys
        custody (fun _ t => t.Final ∧ t.saves = true) t :=
      scanInputFolder_obeys (fun path t h => ⟨h.1, fun r _ => h⟩)
        (fun probed chosen t h => custody_enqueueJob probed chosen h)
    exact (obeys_discard _ _).mpr ((hscan _ (hempty _ rfl)).mono fun _ _ h => h.1)
  | recoverStaleJobs => exact (obeys_discard _ _).mpr custody_recoverStaleJobs
  | processNextJob worker => exact (obeys_discard _ _).mpr custody_processNextJob

end

/-! The invariant. -/

/-- A job has a heartbeat, or a process is about to set it. -/
def Watched (w : World) (K : Nat → Option Custody) (id : Uuid) : Prop :=
  Backed (w.heartbeats id ≠ none) (fun t => t.awaiting = some id) K

/-- What one process has is true of the server. -/
structure Custody.True (w : World) (t : Custody) : Prop where
  issued : ∀ id ∈ t.owned, id ∈ w.issued
  unqueued : ∀ id ∈ t.owned, id ∉ w.pendingQueue
  beats : t.beats = true → ∀ id ∈ t.owned, w.heartbeats id ≠ none

structure InCustody (w : World) (K : Nat → Option Custody) : Prop where
  ids : ∀ {id job}, w.jobs id = some job → job.id = id
  sets : ∀ {s id}, s.Held → id ∈ w.stateIndex s → Watched w K id
  listed : Each (fun t => ∀ id ∈ t.listed, Watched w K id) K
  holds : Each (Custody.True w) K
  apart : EachTwo (fun t u => ∀ id ∈ t.owned, id ∉ u.owned) K
  queue : w.pendingQueue.Nodup
  issued : ∀ {id}, id ∈ w.pendingQueue → id ∈ w.issued

section
variable {w w' : World} {K : Nat → Option Custody} {pid : Nat} {t t' : Custody} {id : Uuid}

/-- A job stays watched when the process that was about to set its heartbeat has not left it. -/
theorem Watched.step (h : Watched w K id) (hk : K pid = some t)
    (hbeats : w.heartbeats id ≠ none → w'.heartbeats id ≠ none)
    (hself : t.awaiting = some id → w'.heartbeats id ≠ none ∨ t'.awaiting = some id) :
    Watched w' (Function.update K pid (some t')) id :=
  Backed.step h hk (fun hb => .inl (hbeats hb)) hself

theorem Custody.True.mono (h : t.True w) (hissued : w.issued ⊆ w'.issued)
    (hqueue : ∀ id ∈ t.owned, id ∉ w'.pendingQueue)
    (hbeats : ∀ id, w.heartbeats id ≠ none → w'.heartbeats id ≠ none) : t.True w' where
  issued := fun id hid => hissued (h.issued id hid)
  unqueued := hqueue
  beats := fun hb id hid => hbeats id (h.beats hb id hid)

/-- One process moves on, while the server changes. -/
theorem InCustody.move (h : InCustody w K)
    (hids : ∀ id job, w'.jobs id = some job → job.id = id)
    (hwatched : ∀ id, Watched w K id → Watched w' (Function.update K pid (some t')) id)
    (hsets : ∀ s id, s.Held → id ∈ w'.stateIndex s →
      id ∈ w.stateIndex s ∨ Watched w' (Function.update K pid (some t')) id)
    (hlisted : ∀ id ∈ t'.listed, Watched w' (Function.update K pid (some t')) id)
    (hself : t'.True w')
    (hothers : ∀ i u, i ≠ pid → K i = some u → u.True w' ∧ ∀ id ∈ t'.owned, id ∉ u.owned)
    (hqueue : w'.pendingQueue.Nodup) (hissued : ∀ id ∈ w'.pendingQueue, id ∈ w'.issued) :
    InCustody w' (Function.update K pid (some t')) where
  ids := hids _ _
  sets := fun hs hid =>
    (hsets _ _ hs hid).elim (fun hid => hwatched _ (h.sets hs hid)) (fun hw => hw)
  listed := Each.set hlisted fun i u _ hu id hid => hwatched id (h.listed i u hu id hid)
  holds := Each.set hself fun i u hi hu => (hothers i u hi hu).1
  apart := h.apart.set fun i u hi hu =>
    ⟨(hothers i u hi hu).2, fun id hid hid' => (hothers i u hi hu).2 id hid' hid⟩
  queue := hqueue
  issued := hissued _

theorem InCustody.others (h : InCustody w K) (hk : K pid = some t) :
    ∀ i u, i ≠ pid → K i = some u → u.True w ∧ ∀ id ∈ t.owned, id ∉ u.owned :=
  fun i u hi hu => ⟨h.holds i u hu, h.apart pid i t u (Ne.symm hi) hk hu⟩

/-- A command after which the process has what it had. -/
theorem InCustody.same (h : InCustody w K) (hk : K pid = some t)
    (hids : ∀ id job, w'.jobs id = some job → job.id = id)
    (hsets : ∀ s, s.Held → ∀ id ∈ w'.stateIndex s,
      id ∈ w.stateIndex s ∨ w.heartbeats id ≠ none)
    (hbeats : w'.heartbeats = w.heartbeats) (hissued : w'.issued = w.issued)
    (hqueue : w'.pendingQueue = w.pendingQueue) :
    InCustody w' (Function.update K pid (some t)) := by
  have htrue : ∀ u : Custody, u.True w → u.True w' := fun u hu =>
    hu.mono hissued.symm.subset (by rw [hqueue]; exact hu.unqueued)
      (by rw [hbeats]; exact fun _ hb => hb)
  have hwatched : ∀ id, Watched w K id → Watched w' (Function.update K pid (some t)) id := by
    intro id hid
    exact hid.step hk (by rw [hbeats]; exact fun hb => hb) .inr
  refine h.move hids hwatched ?_ (fun id hid => hwatched id (h.listed pid t hk id hid))
    (htrue t (h.holds pid t hk))
    (fun i u hi hu => ⟨htrue u (h.others hk i u hi hu).1, (h.others hk i u hi hu).2⟩) ?_ ?_
  · intro s id hs hid
    refine (hsets s hs id hid).imp (fun hid => hid) (fun hb => .inl ?_)
    rw [hbeats]
    exact hb
  · rw [hqueue]
    exact h.queue
  · rw [hqueue, hissued]
    exact fun id hid => h.issued hid

/-- A command that changes what the process owns, without a heartbeat for it. -/
theorem InCustody.owner (h : InCustody w K) (hk : K pid = some t) {owned : Option Uuid}
    (hjobs : w'.jobs = w.jobs) (hsets : w'.stateIndex = w.stateIndex)
    (hbeats : w'.heartbeats = w.heartbeats) (hissued : w.issued ⊆ w'.issued)
    (hnew : ∀ id ∈ owned, id ∈ w'.issued ∧ id ∉ w'.pendingQueue)
    (hold : ∀ i u, i ≠ pid → K i = some u →
      (∀ id ∈ u.owned, id ∉ w'.pendingQueue) ∧ ∀ id ∈ owned, id ∉ u.owned)
    (hnodup : w'.pendingQueue.Nodup) (hqueue : ∀ id ∈ w'.pendingQueue, id ∈ w'.issued) :
    InCustody w' (Function.update K pid (some { t with owned, beats := false })) := by
  have hwatched : ∀ id, Watched w K id →
      Watched w' (Function.update K pid (some { t with owned, beats := false })) id := by
    intro id hid
    exact hid.step hk (by rw [hbeats]; exact fun hb => hb) .inr
  refine h.move (fun _ _ hj => h.ids (by rw [← hjobs]; exact hj)) hwatched
    (fun _ _ _ hid => .inl (by rw [← hsets]; exact hid))
    (fun id hid => hwatched id (h.listed pid t hk id hid))
    ⟨fun id hid => (hnew id hid).1, fun id hid => (hnew id hid).2, fun hb => by cases hb⟩
    (fun i u hi hu => ⟨?_, (hold i u hi hu).2⟩) hnodup hqueue
  exact (h.others hk i u hi hu).1.mono hissued (hold i u hi hu).1
    (by rw [hbeats]; exact fun _ hb => hb)

/-- A job joins a set of jobs held by workers only with a heartbeat, or as the next command. -/
theorem InCustody.saddState (h : InCustody w K) (hk : K pid = some t) {s : JobState} {r : Unit}
    (ha : custody.allows t (.saddState s id)) : InCustody (w.effect (.saddState s id) r)
      (Function.update K pid (some (custody.next t (.saddState s id) r))) := by
  have hself := h.holds pid t hk
  have hadded : ∀ s' id', id' ∈ (w.effect (.saddState s id) r).stateIndex s' →
      id' ∈ w.stateIndex s' ∨ s' = s ∧ id' = id :=
    fun s' id' hid => (World.mem_saddState r).mp hid
  cases s with
  | claimed =>
    -- from here on the heartbeat is the next command of this process
    obtain ⟨haw, howned⟩ := ha
    have hwatched : ∀ id', Watched w K id' → Watched (w.effect (.saddState .claimed id) r)
        (Function.update K pid (some { t with awaiting := some id })) id' := by
      refine fun id' hid => hid.step hk (fun hb => hb) (fun hawait => ?_)
      rw [haw] at hawait
      cases hawait
    refine h.move (fun _ _ => h.ids) hwatched ?_
      (fun id' hid => hwatched id' (h.listed pid t hk id' hid))
      ⟨hself.issued, hself.unqueued, hself.beats⟩
      (fun i u hi hu => ⟨⟨(h.others hk i u hi hu).1.issued, (h.others hk i u hi hu).1.unqueued,
        (h.others hk i u hi hu).1.beats⟩, (h.others hk i u hi hu).2⟩) h.queue
      (fun id' => h.issued)
    intro s' id' _ hid
    refine (hadded s' id' hid).imp (fun hid => hid) (fun he => ?_)
    rw [he.2]
    exact .inr ⟨pid, _, Function.update_self .., rfl⟩
  | processing =>
    refine h.same hk (fun _ _ => h.ids) (fun s' _ id' hid => ?_) rfl rfl rfl
    refine (hadded s' id' hid).imp (fun hid => hid) (fun he => ?_)
    rw [he.2]
    exact hself.beats ha.2.2 id ha.2.1
  | _ =>
    refine h.same hk (fun _ _ => h.ids) (fun s' hs' id' hid => ?_) rfl rfl rfl
    refine (hadded s' id' hid).imp (fun hid => hid) (fun he => ?_)
    rw [he.1] at hs'
    exact hs'.elim (fun he => by cases he) (fun he => by cases he)

theorem InCustody.setHeartbeat (h : InCustody w K) (hk : K pid = some t) {worker : Uuid} {ex : Nat}
    {r : Unit} (ha : custody.allows t (.setHeartbeat id worker ex)) :
    InCustody (w.effect (.setHeartbeat id worker ex) r)
      (Function.update K pid (some (custody.next t (.setHeartbeat id worker ex) r))) := by
  have hself := h.holds pid t hk
  obtain ⟨howned, haw⟩ := ha
  have hset : (w.effect (.setHeartbeat id worker ex) r).heartbeats id ≠ none := by
    simp [World.effect]
  have hbeats : ∀ id', w.heartbeats id' ≠ none →
      (w.effect (.setHeartbeat id worker ex) r).heartbeats id' ≠ none := by
    intro id' hb
    by_cases he : id' = id
    · rw [he]
      exact hset
    · simpa [World.effect, Function.update_of_ne he] using hb
  have hwatched : ∀ id', Watched w K id' → Watched (w.effect (.setHeartbeat id worker ex) r)
      (Function.update K pid (some { t with awaiting := none, beats := true })) id' := by
    refine fun id' hid => hid.step hk (hbeats id') (fun hawait => .inl ?_)
    rcases haw with haw | haw <;> rw [haw] at hawait <;> cases hawait
    exact hset
  refine h.move (fun _ _ => h.ids) hwatched (fun _ _ _ hid => .inl hid)
    (fun id' hid => hwatched id' (h.listed pid t hk id' hid)) ⟨hself.issued, hself.unqueued, ?_⟩
    (fun i u hi hu => ⟨(h.others hk i u hi hu).1.mono (Finset.Subset.refl _)
      (h.others hk i u hi hu).1.unqueued hbeats, (h.others hk i u hi hu).2⟩) h.queue
    (fun id' => h.issued)
  intro _ id' hid
  have hid' : id' ∈ t.owned := hid
  rw [howned] at hid'
  cases hid'
  exact hset

/-- A new id is nobody else's and not queued. -/
theorem InCustody.uuid4 (h : InCustody w K) (hk : K pid = some t) (hnew : id ∉ w.issued) :
    InCustody (w.effect .uuid4 id)
      (Function.update K pid (some (custody.next t .uuid4 id))) := by
  refine h.owner hk rfl rfl rfl (Finset.subset_insert _ _) ?_ ?_ h.queue
    (fun id' hid => Finset.mem_insert_of_mem (h.issued hid))
  · intro id' hid
    cases hid
    exact ⟨Finset.mem_insert_self _ _, fun hq => hnew (h.issued hq)⟩
  · intro i u hi hu
    refine ⟨(h.others hk i u hi hu).1.unqueued, fun id' hid hid' => ?_⟩
    cases hid
    exact hnew ((h.others hk i u hi hu).1.issued _ hid')

/-- The head of the queue becomes the process's. -/
theorem InCustody.brpopPending (h : InCustody w K) (hk : K pid = some t) :
    InCustody (w.effect .brpopPending w.pendingQueue.head?)
      (Function.update K pid (some (custody.next t .brpopPending w.pendingQueue.head?))) := by
  refine h.owner hk rfl rfl rfl (Finset.Subset.refl _) ?_ ?_
    (h.queue.sublist (List.tail_sublist _)) (fun id hid => h.issued (List.mem_of_mem_tail hid))
  · intro id hid
    obtain ⟨rest, hqueue⟩ := List.head?_eq_some_iff.mp (Option.mem_def.mp hid)
    refine ⟨h.issued (List.mem_of_mem_head? hid), fun hq => ?_⟩
    have hnodup := h.queue
    have hq' : id ∈ w.pendingQueue.tail := hq
    rw [hqueue] at hnodup hq'
    exact (List.nodup_cons.mp hnodup).1 hq'
  · intro i u hi hu
    have hu' := (h.others hk i u hi hu).1.unqueued
    exact ⟨fun id hid hq => hu' id hid (List.mem_of_mem_tail hq),
      fun id hid hid' => hu' id hid' (List.mem_of_mem_head? hid)⟩

/-- A process queues what it owns, and owns it no longer. -/
theorem InCustody.lpushPending (h : InCustody w K) (hk : K pid = some t) {r : Unit}
    (hid : id ∈ t.owned) : InCustody (w.effect (.lpushPending id) r)
      (Function.update K pid (some (custody.next t (.lpushPending id) r))) := by
  have hself := h.holds pid t hk
  have hunqueued := hself.unqueued id hid
  refine h.owner hk rfl rfl rfl (Finset.Subset.refl _)
    (fun id' hid => absurd hid (Option.not_mem_none id')) ?_ ?_ ?_
  · intro i u hi hu
    refine ⟨fun id' hid' hq => ?_, fun id' hid => absurd hid (Option.not_mem_none id')⟩
    rcases List.mem_append.mp hq with hq | hq
    · exact (h.others hk i u hi hu).1.unqueued id' hid' hq
    · rw [List.mem_singleton.mp hq] at hid'
      exact (h.others hk i u hi hu).2 id hid hid'
  · exact List.nodup_append.mpr ⟨h.queue, List.nodup_singleton id, fun a ha b hb he =>
      hunqueued (by rw [← List.mem_singleton.mp hb, ← he]; exact ha)⟩
  · intro id' hq
    rcases List.mem_append.mp hq with hq | hq
    · exact h.issued hq
    · rw [List.mem_singleton.mp hq]
      exact hself.issued id hid

/-- What a process lists of a set of held jobs is watched. -/
theorem InCustody.smembersState (h : InCustody w K) (hk : K pid = some t) {s : JobState}
    (hs : s.Held) {ids : List Uuid} (hmembers : ids.toFinset = w.stateIndex s) :
    InCustody (w.effect (.smembersState s) ids)
      (Function.update K pid (some (custody.next t (.smembersState s) ids))) := by
  have hself := h.holds pid t hk
  have hothers := h.others hk
  have hwatched : ∀ id, Watched w K id →
      Watched w (Function.update K pid (some { t with listed := ids ++ t.listed })) id :=
    fun id hid => hid.step hk (fun hb => hb) .inr
  refine h.move (fun _ _ => h.ids) hwatched (fun _ _ _ hid => .inl hid) ?_
    ⟨hself.issued, hself.unqueued, hself.beats⟩ hothers h.queue (fun id => h.issued)
  intro id hid
  apply hwatched id
  rcases List.mem_append.mp hid with hid | hid
  · apply h.sets hs
    rw [← hmembers]
    exact List.mem_toFinset.mpr hid
  · exact h.listed pid t hk id hid

theorem InCustody.exec (h : InCustody w K) {c : Cmd} {x : Choice} {r : Reply c}
    (hk : K pid = some t) (ha : custody.allows t c) (hr : World.answer w c x = some r)
    (hbeat : ∀ id, c = .existsHeartbeat id → w.heartbeats id ≠ none) :
    custody.expects t c r ∧
      InCustody (w.effect c r) (Function.update K pid (some (custody.next t c r))) := by
  cases c with
  | getJob id =>
    cases hr
    exact ⟨fun job hj => h.ids hj,
      h.same hk (fun _ _ => h.ids) (fun _ _ _ hid => .inl hid) rfl rfl rfl⟩
  | existsHeartbeat id =>
    cases hr
    refine ⟨?_, h.same hk (fun _ _ => h.ids) (fun _ _ _ hid => .inl hid) rfl rfl rfl⟩
    exact Option.isSome_iff_ne_none.mpr (hbeat id rfl)
  | setJob job ex =>
    refine ⟨trivial, h.same hk ?_ (fun _ _ _ hid => .inl hid) rfl rfl rfl⟩
    intro id job' hj
    rw [World.jobs_setJob] at hj
    split at hj
    · next hid =>
      cases hj
      exact hid.symm
    · exact h.ids hj
  | sremState s id =>
    exact ⟨trivial, h.same hk (fun _ _ => h.ids)
      (fun s' _ id' hid => .inl ((World.mem_sremState r).mp hid).1) rfl rfl rfl⟩
  | saddState s id => exact ⟨trivial, h.saddState hk ha⟩
  | setHeartbeat id worker ex => exact ⟨trivial, h.setHeartbeat hk ha⟩
  | uuid4 => exact ⟨trivial, h.uuid4 hk (World.answer_uuid4 hr)⟩
  | brpopPending =>
    cases hr
    exact ⟨trivial, h.brpopPending hk⟩
  | lpushPending id => exact ⟨trivial, h.lpushPending hk ha.2⟩
  | smembersState s => exact ⟨trivial, h.smembersState hk ha.2 (World.answer_smembers hr).2⟩
  | _ => exact ⟨trivial, h.same hk (fun _ _ => h.ids) (fun _ _ _ hid => .inl hid) rfl rfl rfl⟩

end

/-! Runs. -/

/-- All processes are live and keep to their custody. -/
structure Guarded (s : Cluster) : Prop where
  live : ∀ p ∈ s.procs, p.rest ≠ none
  obeying : Obeying custody Custody.initial Custody.Final s
  kept : InCustody s.store (s.knows custody Custody.initial)

theorem guarded_initial : Guarded Cluster.initial := by
  refine ⟨?_, ?_, ?_, ?_, ?_, ?_, ?_, ?_, ?_⟩
  · exact fun p hp => by cases hp
  · exact fun p hp => by cases hp
  · exact fun h => by cases h
  · exact fun _ h => by cases h
  · exact fun i t h => by cases h
  · exact fun i t h => by cases h
  · exact fun i j t u _ h => by cases h
  · exact List.nodup_nil
  · exact fun h => by cases h

/-- A process that must set a heartbeat next is about to. -/
theorem Guarded.about_to_beat {s : Cluster} (h : Guarded s) {i : Nat} {t : Custody} {id : Uuid}
    (hk : s.knows custody Custody.initial i = some t) (haw : t.awaiting = some id) :
    ∃ q ∈ s.procs, Proc.beats? q = some id := by
  obtain ⟨q, hq, ht⟩ := Pool.knows_iff.mp hk
  have hmem := List.mem_of_getElem? hq
  refine ⟨q, hmem, ?_⟩
  cases hrest : q.rest with
  | none => exact absurd hrest (h.live q hmem)
  | some prog =>
    have hobeys := (h.obeying q hmem).2 prog hrest
    rw [ht] at hobeys
    have hno : t.awaiting ≠ none := by rw [haw]; exact Option.some_ne_none id
    cases prog with
    | done a => exact absurd hobeys hno
    | raise e => exact absurd hobeys hno
    | ask c k =>
      have hnext : q.next? = some c := by rw [Process.next?, hrest]; rfl
      have hallow := hobeys.1
      cases c with
      | setHeartbeat id' worker ex =>
        rcases hallow.2 with hnone | hsome
        · exact absurd hnone hno
        · rw [haw, Option.some.injEq] at hsome
          rw [Proc.beats?, hnext, hsome]
      | saddState s id' =>
        cases s with
        | claimed => exact absurd hallow.1 hno
        | processing => exact absurd hallow.1 hno
        | _ => exact absurd hallow hno
      | setJob => exact absurd hallow.1 hno
      | lpushPending => exact absurd hallow.1 hno
      | transcode => exact absurd hallow.1 hno
      | smembersState => exact absurd hallow.1 hno
      | existsHeartbeat => exact absurd hallow.1 hno
      | _ => exact absurd hallow hno

theorem Custody.initial_empty (l : Label) : (initial l).owned = none ∧ (initial l).beats = false ∧
    (initial l).awaiting = none ∧ (initial l).listed = [] := by
  cases l <;> exact ⟨rfl, rfl, rfl, rfl⟩

/-- The clock and the files are no concern of custody. -/
theorem InCustody.environment {w : World} {K : Nat → Option Custody} (h : InCustody w K)
    {e : EnvEvent} (he : ∀ key, e ≠ .expire key) : InCustody (World.environment e w) K := by
  have htrue : ∀ w' : World, w'.issued = w.issued → w'.pendingQueue = w.pendingQueue →
      w'.heartbeats = w.heartbeats → Each (Custody.True w') K := by
    intro w' hissued hqueue hbeats
    refine h.holds.mono fun u hu => hu.mono hissued.symm.subset ?_ ?_
    · rw [hqueue]
      exact hu.unqueued
    · rw [hbeats]
      exact fun _ hb => hb
  cases e with
  | expire key => exact absurd rfl (he key)
  | clock t => exact ⟨h.ids, h.sets, h.listed, htrue _ rfl rfl rfl, h.apart, h.queue, h.issued⟩
  | media path outcome =>
    exact ⟨h.ids, h.sets, h.listed, htrue _ rfl rfl rfl, h.apart, h.queue, h.issued⟩

theorem guarded_step (s : Cluster) (a : Act) (h : Guarded s) (hok : ChecksAfterClaim s a) :
    Guarded ((deployment ctx).step s a) := by
  have hkill : ∀ pid, a ≠ .kill pid := fun pid ha => by
    rw [ha] at hok
    exact hok
  have hnext := pool_step InCustody h.obeying h.kept (S := deployment ctx) (a := a)
    (fun l _ => code_custody ctx l) ?_ ?_ ?_
  · exact ⟨System.live_step h.live hkill, hnext.1, hnext.2⟩
  · intro l pid _ hnone
    have hwatched : ∀ id, Watched s.store (s.knows custody Custody.initial) id →
        Watched s.store (Function.update (s.knows custody Custody.initial) pid
          (some (Custody.initial l))) id := fun id hid => Backed.start hid hnone
    obtain ⟨howned, hbeats, -, hlisted⟩ := Custody.initial_empty l
    have hnothing : ∀ id, id ∉ (Custody.initial l).owned := by
      rw [howned]
      exact fun id => Option.not_mem_none id
    refine h.kept.move (fun _ _ => h.kept.ids) hwatched (fun _ _ _ hid => .inl hid) ?_
      ⟨fun id hid => absurd hid (hnothing id), fun id hid => absurd hid (hnothing id),
        fun hb => by rw [hbeats] at hb; cases hb⟩
      (fun i u _ hu => ⟨h.kept.holds i u hu, fun id hid => absurd hid (hnothing id)⟩)
      h.kept.queue (fun id => h.kept.issued)
    rw [hlisted]
    exact fun id hid => absurd hid List.not_mem_nil
  · intro pid x l past c k r ha hproc hk hallow hr
    apply h.kept.exec hk hallow hr
    -- a listed id is watched, and nobody is just about to set its first heartbeat
    intro id hc
    subst hc
    rcases h.kept.listed pid _ hk id hallow.2 with hb | ⟨i, u, hu, haw⟩
    · exact hb
    · obtain ⟨q, hq, hn⟩ := h.about_to_beat hu haw
      subst ha
      exact hok _ hproc id rfl q hq hn
  · intro e he
    subst he
    refine h.kept.environment fun key hkey => ?_
    subst hkey
    exact hok

theorem guarded_run {as : List Act}
    (h : Meets (deployment ctx).step ChecksAfterClaim Cluster.initial as) :
    Guarded ((deployment ctx).run Cluster.initial as) :=
  run_invariant Guarded guarded_step guarded_initial h

theorem Custody.saves_next (t : Custody) (c : Cmd) (r : Reply c) :
    (Vshift.custody.next t c r).saves = t.saves := by
  cases c with
  | saddState s id => cases s <;> rfl
  | _ => rfl

/-- Whoever has saved a record was free to. -/
theorem custody_wrote {l : Label} {past : List (Event Cmd Reply)}
    (h : custody.Kept (Custody.initial l) past) {job : TranscodeJob} {ex : Nat}
    (hwrote : ⟨.setJob job ex, ()⟩ ∈ past) : (Custody.initial l).saves = true := by
  have hkept := h.after (fun past t => t.saves = (Custody.initial l).saves ∧
    ∀ job ex, ⟨.setJob job ex, ()⟩ ∈ past → t.saves = true) ⟨rfl, fun _ _ hm => by simp at hm⟩ ?_
  · exact hkept.1.symm.trans (hkept.2 job ex hwrote)
  · intro past t c r hm ha _
    rw [Custody.saves_next]
    refine ⟨hm.1, fun job ex hmem => ?_⟩
    rcases List.mem_cons.mp hmem with he | hmem
    · cases he
      exact ha.2
    · exact hm.2 job ex hmem

/-- Along every run in which nothing dies or lapses, and no pass checks a job between the two
    commands of its first claim, a pass recovers nothing and no job is transcoded twice at once. -/
theorem one_transcode (ctx : Context) (as : List Act)
    (h : Meets (deployment ctx).step ChecksAfterClaim Cluster.initial as) :
    OneTranscode ((deployment ctx).run Cluster.initial as) := by
  have hg := guarded_run h
  constructor
  · intro p hp hlabel job ⟨ex, hwrote⟩
    have hsaves := custody_wrote (hg.obeying p hp).1 hwrote
    rw [hlabel] at hsaves
    cases hsaves
  · intro i j p q job job' hp hq hn hn' hid
    have howned := (hg.obeying.allows (List.mem_of_getElem? hp) hn).2
    have howned' := (hg.obeying.allows (List.mem_of_getElem? hq) hn').2
    by_contra hij
    refine hg.kept.apart i j _ _ hij (Pool.knows_iff.mpr ⟨p, hp, rfl⟩)
      (Pool.knows_iff.mpr ⟨q, hq, rfl⟩) job.id howned ?_
    rw [hid]
    exact howned'

/-- A job is enqueued, worker 7 claims it and starts to transcode, and a pass checks it. -/
def checkedWhileTranscoding : List Act :=
  [.spawn (.enqueueJob (mp4File "/tmp/input/a.mp4") defaultMatch), .exec 0 .go, .exec 0 (.id 1),
    .exec 0 .go, .exec 0 .go, .exec 0 .go, .exec 0 .go, .exec 0 .go, .exec 0 .go,
    .spawn (.processNextJob 7), .exec 1 .go, .exec 1 .go, .exec 1 .go, .exec 1 .go, .exec 1 .go,
    .exec 1 .go, .exec 1 .go, .exec 1 .go, .exec 1 .go, .exec 1 .go, .exec 1 .go, .exec 1 .go,
    .exec 1 .go, .exec 1 .go, .exec 1 .go,
    .spawn .recoverStaleJobs, .exec 2 (.order []), .exec 2 (.order [1]), .exec 2 .go, .exec 2 .go]

theorem one_transcode_checked :
    OneTranscode ((deployment smallContext).run Cluster.initial checkedWhileTranscoding) := by
  refine one_transcode _ _ ⟨trivial, ?_, ?_, ?_, ?_, ?_, ?_, ?_, ?_, trivial, ?_, ?_, ?_, ?_, ?_,
    ?_, ?_, ?_, ?_, ?_, ?_, ?_, ?_, ?_, ?_, trivial, ?_, ?_, ?_, ?_, trivial⟩
  all_goals
    intro p hp id hid q hq hb
    cases hp
    cases hid
  -- the only check comes when the heartbeat is there
  intro hnone
  cases hnone

/-- A job is enqueued and worker 7 has added it to the claimed set; before it sets the heartbeat
    a pass lists the set, finds no heartbeat and saves the job as pending again. -/
def checkedWhileClaimed : List Act :=
  [.spawn (.enqueueJob (mp4File "/tmp/input/a.mp4") defaultMatch), .exec 0 .go, .exec 0 (.id 1),
    .exec 0 .go, .exec 0 .go, .exec 0 .go, .exec 0 .go, .exec 0 .go, .exec 0 .go,
    .spawn (.processNextJob 7), .exec 1 .go, .exec 1 .go, .exec 1 .go, .exec 1 .go, .exec 1 .go,
    .exec 1 .go, .exec 1 .go,
    .spawn .recoverStaleJobs, .exec 2 (.order [1]), .exec 2 .go, .exec 2 .go, .exec 2 .go,
    .exec 2 .go, .exec 2 .go]

theorem recovered_while_claimed : ¬ ∀ as : List Act, (∀ a ∈ as, Undisturbed a) →
    OneTranscode ((deployment smallContext).run Cluster.initial as) := by
  intro h
  have hone := h checkedWhileClaimed (by simp [checkedWhileClaimed, Undisturbed])
  exact hone.recovered _ (List.mem_of_getElem? (i := 2) rfl) rfl _ ⟨_, List.mem_cons_self⟩

end Vshift
