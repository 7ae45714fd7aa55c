import Vshift.Capacity
import Vshift.Progress

/- One-shot workers in Jobs that the server launches.

   A `PodFleet` is a fleet whose workers run in Jobs: scaling passes create the Jobs, the worker of
   a Job asks for work once, Kubernetes reports when it is through. Seen from the queue it is a
   fleet whose workers take their moves (`step_fleet`). A pass may leave queued ids without a
   worker while busy Jobs count as active; but busy Jobs come to an end, and so the passes launch
   workers that ask again (`Fair.claims`). With it, every job comes to its end with no worker but
   those the passes launch (`scaled_job_ends`). -/
namespace Vshift
open Command

structure Pod where
  job : V1Job
  /-- The id of its worker process. -/
  worker : Uuid
  /-- It has made its one call of `ClaimJob`. -/
  asked : Bool

/-- Its worker is yet to ask. -/
def Pod.fresh (pod : Pod) : Bool := !pod.job.finished && !pod.asked

/-- Its worker has asked and has no job in hands any more. -/
def Pod.through (pod : Pod) (fleet : Fleet) : Bool :=
  pod.asked && (fleet.phase pod.worker).copy.isNone

def Phase.isIdle : Phase → Bool
  | idle => true
  | _ => false

structure PodFleet where
  fleet : Fleet
  pods : List Pod

inductive PodMove where
  /-- Anything but a claim. -/
  | fleet (move : Move)
  /-- A scaling pass, with the workers of the Jobs it creates. -/
  | scale (tape : List ScaleChoice) (workers : List Uuid)
  | ask (worker : Uuid)
  /-- Kubernetes reports of a worker's Job, which may have finished. -/
  | report (worker : Uuid) (finished : Bool) (status : Option V1JobStatus)
  /-- The time to live of a worker's finished Job is over. -/
  | remove (worker : Uuid)

def Move.isClaim : Move → Bool
  | claim _ => true
  | _ => false

namespace PodFleet

/-- What a scaling pass works on. -/
def kube (d : PodFleet) : KubeState := ⟨d.fleet.world.pendingQueue, d.pods.map Pod.job⟩

/-- The Jobs a pass has left after those there were. -/
def created (d : PodFleet) (c : KubeState) : List V1Job := c.jobs.drop d.pods.length

/-- A worker that does nothing yet, for each of these Jobs. -/
def staffs (d : PodFleet) (workers : List Uuid) (jobs : List V1Job) : Bool :=
  workers.length = jobs.length ∧ workers.Nodup ∧
    workers.all fun worker =>
      (d.fleet.phase worker).isIdle && d.pods.all fun pod => pod.worker ≠ worker

/-- The worker's Job has a worker that is yet to ask. -/
def asks (d : PodFleet) (worker : Uuid) : Bool :=
  (d.pods.any fun pod => pod.worker = worker && pod.fresh) && (d.fleet.phase worker).isIdle

end PodFleet

/-- Its worker asks, and has then what it claimed in hands. -/
def Pod.ask (pod : Pod) (phase : Phase) : Pod :=
  { pod with asked := true, job := { pod.job with claimed := phase.copy.map (·.id) } }

/-- A report of a Job. It finishes only when its worker is through, and stays finished. -/
def Pod.reported (pod : Pod) (fleet : Fleet) (finished : Bool) (status : Option V1JobStatus) :
    Pod :=
  if h : Reports finished status ∧ (pod.job.finished → finished) ∧
      (finished → pod.through fleet) then
    { pod with job := { pod.job with finished, status, reports := h.1 } }
  else pod

namespace PodFleet
variable (ctx : Context) (k8s : KubernetesSettings)

/-- A move that is not possible changes nothing. -/
def step (d : PodFleet) : PodMove → PodFleet
  | .fleet move => if move.isClaim then d else { d with fleet := Fleet.step ctx d.fleet move }
  | .scale tape workers =>
    match kubernetes.run (ensureWorkerCapacity k8s) tape d.kube with
    | some (_, c) =>
      if d.staffs workers (d.created c) then
        { d with
          pods := d.pods ++ ((d.created c).zip workers).map fun new => ⟨new.1, new.2, false⟩ }
      else d
    | none => d
  | .ask worker =>
    if d.asks worker then
      let fleet := Fleet.step ctx d.fleet (.claim worker)
      { fleet
        pods := d.pods.map fun pod =>
          if pod.worker = worker then pod.ask (fleet.phase worker) else pod }
    else d
  | .report worker finished status =>
    { d with
      pods := d.pods.map fun pod =>
        if pod.worker = worker then pod.reported d.fleet finished status else pod }
  | .remove worker =>
    { d with pods := d.pods.filter fun pod => !(pod.worker = worker && pod.job.finished) }

/-- An empty server and no Job. -/
def initial : PodFleet := ⟨.initial, []⟩

/-- The move of the fleet, or one that changes nothing. -/
def fleetMove (d : PodFleet) : PodMove → Move
  | .fleet move => if move.isClaim then .clock d.fleet.world.clock else move
  | .ask worker => if d.asks worker then .claim worker else .clock d.fleet.world.clock
  | _ => .clock d.fleet.world.clock

section
variable {ctx : Context} {k8s : KubernetesSettings} {d : PodFleet} {a : PodMove}

theorem step_clock (s : Fleet) : Fleet.step ctx s (.clock s.world.clock) = s := rfl

theorem scale_fleet (tape : List ScaleChoice) (workers : List Uuid) :
    (step ctx k8s d (.scale tape workers)).fleet = d.fleet := by
  rw [step]
  cases kubernetes.run (ensureWorkerCapacity k8s) tape d.kube with
  | none => rfl
  | some r => exact (apply_ite PodFleet.fleet ..).trans (ite_self _)

theorem step_fleet : (step ctx k8s d a).fleet = Fleet.step ctx d.fleet (d.fleetMove a) := by
  cases a with
  | fleet move =>
    by_cases hclaim : move.isClaim
    · rw [step, fleetMove, if_pos hclaim, if_pos hclaim, step_clock]
    · rw [step, fleetMove, if_neg hclaim, if_neg hclaim]
  | scale tape workers => exact (scale_fleet tape workers).trans (step_clock _).symm
  | ask worker =>
    by_cases hasks : d.asks worker
    · rw [step, fleetMove, if_pos hasks, if_pos hasks]
    · rw [step, fleetMove, if_neg hasks, if_neg hasks, step_clock]
  | report worker finished status => rfl
  | remove worker => rfl

/-! The Jobs, move by move. -/

theorem reported_worker (pod : Pod) (fleet : Fleet) (finished : Bool)
    (status : Option V1JobStatus) : (pod.reported fleet finished status).worker = pod.worker := by
  unfold Pod.reported
  split <;> rfl

/-- Of a worker that is through, its Job finishes. -/
theorem reported_finished {pod : Pod} {fleet : Fleet} {status : Option V1JobStatus}
    (hreports : Reports true status) (h : pod.job.finished = false → pod.through fleet) :
    (pod.reported fleet true status).job.finished = true := by
  unfold Pod.reported
  split
  · rfl
  · next hnot =>
    by_contra hunfinished
    exact hnot ⟨hreports, fun _ => rfl, fun _ => h (by simpa using hunfinished)⟩

/-- A report leaves a worker that is yet to ask yet to ask. -/
theorem reported_fresh {pod : Pod} (h : pod.fresh) (fleet : Fleet) (finished : Bool)
    (status : Option V1JobStatus) : (pod.reported fleet finished status).fresh := by
  unfold Pod.reported
  split
  · next hreport =>
    have hnot : ¬ pod.through fleet := by
      unfold Pod.through
      simp [Pod.fresh] at h
      simp [h.2]
    have hfinished : finished = false := by
      by_contra hf
      exact hnot (hreport.2.2 (by simpa using hf))
    simp [Pod.fresh] at h ⊢
    exact ⟨hfinished, h.2⟩
  · exact h

/-- A Job whose worker is yet to ask stays so until it asks. -/
theorem fresh_step {pod : Pod} (hmem : pod ∈ d.pods) (hfresh : pod.fresh) :
    (a = .ask pod.worker ∧ d.asks pod.worker) ∨
      ∃ pod' ∈ (step ctx k8s d a).pods, pod'.worker = pod.worker ∧ pod'.fresh := by
  cases a with
  | fleet move =>
    right
    refine ⟨pod, ?_, rfl, hfresh⟩
    rw [step]
    split <;> exact hmem
  | scale tape workers =>
    right
    refine ⟨pod, ?_, rfl, hfresh⟩
    rw [step]
    split
    · split
      · exact List.mem_append_left _ hmem
      · exact hmem
    · exact hmem
  | ask worker =>
    by_cases hasks : d.asks worker
    · by_cases hw : pod.worker = worker
      · exact .inl ⟨by rw [hw], by rw [hw]; exact hasks⟩
      · right
        refine ⟨pod, ?_, rfl, hfresh⟩
        rw [step, if_pos hasks]
        exact List.mem_map.mpr ⟨pod, hmem, if_neg hw⟩
    · right
      refine ⟨pod, ?_, rfl, hfresh⟩
      rw [step, if_neg hasks]
      exact hmem
  | report worker finished status =>
    right
    by_cases hw : pod.worker = worker
    · refine ⟨pod.reported d.fleet finished status, ?_, reported_worker ..,
        reported_fresh hfresh ..⟩
      exact List.mem_map.mpr ⟨pod, hmem, if_pos hw⟩
    · exact ⟨pod, List.mem_map.mpr ⟨pod, hmem, if_neg hw⟩, rfl, hfresh⟩
  | remove worker =>
    right
    refine ⟨pod, List.mem_filter.mpr ⟨hmem, ?_⟩, rfl, hfresh⟩
    simp [Pod.fresh] at hfresh
    simp [hfresh.1]

/-- An unfinished Job was there before, unfinished, or its worker is yet to ask. -/
theorem unfinished_step {pod' : Pod} (hmem : pod' ∈ (step ctx k8s d a).pods)
    (hunfinished : pod'.job.finished = false) :
    (∃ pod ∈ d.pods, pod.worker = pod'.worker ∧ pod.job.finished = false) ∨ pod'.fresh := by
  have hold : pod' ∈ d.pods →
      (∃ pod ∈ d.pods, pod.worker = pod'.worker ∧ pod.job.finished = false) ∨ pod'.fresh :=
    fun hin => .inl ⟨pod', hin, rfl, hunfinished⟩
  cases a with
  | fleet move =>
    rw [step] at hmem
    split at hmem <;> exact hold hmem
  | scale tape workers =>
    rw [step] at hmem
    split at hmem
    · split at hmem
      · rcases List.mem_append.mp hmem with hin | hnew
        · exact hold hin
        · right
          obtain ⟨new, -, rfl⟩ := List.mem_map.mp hnew
          have hstill : new.1.finished = false := hunfinished
          simp [Pod.fresh, hstill]
      · exact hold hmem
    · exact hold hmem
  | ask worker =>
    rw [step] at hmem
    split at hmem
    · obtain ⟨pod, hin, rfl⟩ := List.mem_map.mp hmem
      left
      split at hunfinished
      · next hw => exact ⟨pod, hin, by rw [if_pos hw]; rfl, hunfinished⟩
      · next hw => exact ⟨pod, hin, by rw [if_neg hw], hunfinished⟩
    · exact hold hmem
  | report worker finished status =>
    obtain ⟨pod, hin, rfl⟩ := List.mem_map.mp hmem
    left
    split at hunfinished
    · next hw =>
      refine ⟨pod, hin, by rw [if_pos hw, reported_worker], ?_⟩
      unfold Pod.reported at hunfinished
      split at hunfinished
      · next hreport =>
        by_contra hfinished
        have hdone : finished = true := hreport.2.1 (by simpa using hfinished)
        exact absurd (hdone.symm.trans hunfinished) Bool.noConfusion
      · exact hunfinished
    · next hw => exact ⟨pod, hin, by rw [if_neg hw], hunfinished⟩
  | remove worker => exact hold (List.mem_of_mem_filter hmem)

end
end PodFleet

/-! How far a worker is with the job it claimed. -/

def Phase.weight : Phase → Nat
  | claimed _ => 2
  | transcoding _ _ => 1
  | _ => 0

theorem Phase.isIdle_iff {phase : Phase} : phase.isIdle = true ↔ phase = .idle := by
  cases phase <;> simp [isIdle]

theorem Phase.weight_eq_zero {phase : Phase} : phase.weight = 0 ↔ phase.copy = none := by
  cases phase <;> simp [weight, copy]

namespace Fleet
variable {ctx : Context} {s : Fleet} {m : Move} {worker : Uuid}

/-- A worker that claims nothing stays where it is, goes on, or has nothing in hands. -/
theorem phase_step (h : Balanced ctx s) (hm : m = .claim worker → s.phase worker ≠ .idle) :
    (step ctx s m).phase worker = s.phase worker ∨
      ((step ctx s m).phase worker).weight < (s.phase worker).weight ∨
      ((step ctx s m).phase worker).weight = 0 := by
  have hset : ∀ (world : World) (starts : Uuid → Nat) (other : Uuid) (phase : Phase),
      (other = worker → phase.weight < (s.phase worker).weight ∨ phase.weight = 0) →
      ({ s with world, starts }.setPhase other phase).phase worker = s.phase worker ∨
        (({ s with world, starts }.setPhase other phase).phase worker).weight <
          (s.phase worker).weight ∨
        (({ s with world, starts }.setPhase other phase).phase worker).weight = 0 := by
    intro world starts other phase hphase
    rw [setPhase_phase]
    split
    · next heq => exact .inr (hphase heq.symm)
    · exact .inl rfl
  have ho := step_cases ctx h.coherent.tidy m
  generalize step ctx s m = s' at ho
  cases ho with
  | same => exact .inl rfl
  | enqueued => exact .inl rfl
  | unclaimed => exact .inl rfl
  | claimed hi =>
    refine hset _ _ _ _ fun heq => ?_
    subst heq
    exact absurd hi (hm rfl)
  | started hc =>
    refine hset _ _ _ _ fun heq => ?_
    subst heq
    rw [hc]
    exact .inl (Nat.lt_succ_self 1)
  | finished => exact hset _ _ _ _ fun _ => .inr rfl
  | failed => exact hset _ _ _ _ fun _ => .inr rfl
  | requeued => exact hset _ _ _ _ fun _ => .inr rfl
  | stopped => exact hset s.world s.starts _ _ fun _ => .inr rfl
  | recovered => exact .inl rfl
  | expired => exact .inl rfl
  | ticked => exact .inl rfl

section
variable {moves : Nat → Move} {n : Nat} (hd : Diligent ctx moves)
  (hn : ∀ m, n ≤ m → moves m = .claim worker → (fleetAt ctx moves m).phase worker ≠ .idle)
include hd hn

/-- A worker that claims nothing and has a job in hands goes on with it. -/
theorem Diligent.lighter (hbusy : ((fleetAt ctx moves n).phase worker).weight ≠ 0) :
    ∃ m, n ≤ m ∧ ((fleetAt ctx moves m).phase worker).weight <
      ((fleetAt ctx moves n).phase worker).weight := by
  have hnext : ∀ m, fleetAt ctx moves (m + 1) = step ctx (fleetAt ctx moves m) (moves m) :=
    fun _ => rfl
  have hcrash : ∀ m, moves m = .crash worker →
      ((fleetAt ctx moves (m + 1)).phase worker).weight <
        ((fleetAt ctx moves n).phase worker).weight := by
    intro m hmove
    rw [hnext, hmove, step_crash, setPhase_phase, if_pos rfl]
    exact Nat.pos_of_ne_zero hbusy
  refine helped (p := fun m => (fleetAt ctx moves m).phase worker =
    (fleetAt ctx moves n).phase worker) rfl (fun m hm heq => ?_) ?_
  · rw [hnext, ← heq]
    rcases phase_step (hd.balanced m) (hn m hm) with hsame | hless | hnone
    · exact .inl hsame
    · exact .inr hless
    · rw [← heq] at hbusy
      exact .inr (hnone ▸ Nat.pos_of_ne_zero hbusy)
  · cases hp : (fleetAt ctx moves n).phase worker with
    | claimed job =>
      obtain ⟨m, hm, hmove⟩ := hd.starts n worker job hp
      refine ⟨m, hm, fun heq => ?_⟩
      rcases hmove with hmove | hmove
      · have hsound := (hd.balanced m).coherent.sound worker
        rw [heq] at hsound
        rw [hnext, hmove, step_start heq hsound.1 hsound.2, setPhase_phase, if_pos rfl]
        exact Nat.lt_succ_self 1
      · exact hp ▸ hcrash m hmove
    | transcoding job processing =>
      obtain ⟨m, hm, hmove⟩ := hd.ends n worker job processing hp
      refine ⟨m, hm, fun heq => ?_⟩
      rcases hmove with hmove | ⟨outcome, built, hmove, hbuilt⟩
      · exact hp ▸ hcrash m hmove
      · rw [hnext, hmove, Phase.weight_eq_zero.mpr (finish_lets_go heq hbuilt)]
        exact Nat.zero_lt_one
    | idle => exact absurd (congrArg Phase.weight hp) hbusy
    | stopped => exact absurd (congrArg Phase.weight hp) hbusy

/-- In the end it has nothing in hands. -/
theorem Diligent.lets_go :
    ∃ m, n ≤ m ∧ ∀ k, m ≤ k → ((fleetAt ctx moves k).phase worker).copy = none := by
  obtain ⟨m, hm, hnone⟩ : ∃ m, n ≤ m ∧ ((fleetAt ctx moves m).phase worker).weight = 0 :=
    exhausts (fun m => ((fleetAt ctx moves m).phase worker).weight) fun m hm hbusy =>
      hd.lighter (fun k hk => hn k (hm.trans hk)) hbusy
  refine ⟨m, hm, fun k hk => Phase.weight_eq_zero.mp ?_⟩
  refine lasts (p := fun k => ((fleetAt ctx moves k).phase worker).weight = 0) hnone ?_ k hk
  intro k hk hzero
  rcases phase_step (hd.balanced k) (hn k (hm.trans hk)) with hsame | hless | hnone
  · exact (congrArg Phase.weight hsame).trans hzero
  · rw [hzero] at hless
    exact absurd hless (Nat.not_lt_zero _)
  · exact hnone

end
end Fleet

/-! Endless runs. -/

namespace PodFleet
variable (ctx : Context) (k8s : KubernetesSettings) (moves : Nat → PodMove)

/-- The Jobs and the fleet before turn `n`. -/
abbrev podsAt (n : Nat) : PodFleet := stateAt (step ctx k8s) initial moves n

def fleetMoves (n : Nat) : Move := (podsAt ctx k8s moves n).fleetMove (moves n)

theorem fleetAt_eq (n : Nat) : Fleet.fleetAt ctx (fleetMoves ctx k8s moves) n =
    (podsAt ctx k8s moves n).fleet := by
  induction n with
  | zero => rfl
  | succ n ih =>
    show Fleet.step ctx (Fleet.fleetAt ctx (fleetMoves ctx k8s moves) n) _ = _
    rw [ih]
    exact step_fleet.symm

/-- Whoever has begun goes on, and there are workers to begin: scaling passes end well and their
    Jobs are staffed; the worker of a Job comes up and asks; Kubernetes reports a Job whose
    worker is through as finished. -/
structure Fair : Prop where
  diligent : Fleet.Diligent ctx (fleetMoves ctx k8s moves)
  asks : ∀ n pod, pod ∈ (podsAt ctx k8s moves n).pods → pod.fresh →
    ∃ m, n ≤ m ∧ moves m = .ask pod.worker ∧
      ((podsAt ctx k8s moves m).fleet.phase pod.worker).isIdle
  reports : ∀ n pod, pod ∈ (podsAt ctx k8s moves n).pods → pod.job.finished = false →
    pod.through (podsAt ctx k8s moves n).fleet →
      ∃ m, n ≤ m ∧ ∃ status, moves m = .report pod.worker true status ∧ Reports true status
  passes : ∀ n, ∃ m, n ≤ m ∧ ∃ tape workers names c, moves m = .scale tape workers ∧
    kubernetes.run (ensureWorkerCapacity k8s) tape (podsAt ctx k8s moves m).kube =
      some (.ok names, c) ∧
    (podsAt ctx k8s moves m).staffs workers ((podsAt ctx k8s moves m).created c)

/-- From turn `n` on ids are queued, and no idle worker claims one. -/
structure Starved (n : Nat) : Prop where
  waits : ∀ m, n ≤ m → (podsAt ctx k8s moves m).fleet.world.pendingQueue ≠ []
  unclaimed : ∀ m, n ≤ m → ∀ worker, fleetMoves ctx k8s moves m = .claim worker →
    (podsAt ctx k8s moves m).fleet.phase worker ≠ .idle

section
variable {ctx : Context} {k8s : KubernetesSettings} {moves : Nat → PodMove} {n : Nat}

theorem Starved.not_asks (hs : Starved ctx k8s moves n) {m : Nat} (hm : n ≤ m) {worker : Uuid}
    (hmove : moves m = .ask worker) : ¬ (podsAt ctx k8s moves m).asks worker := by
  intro hasks
  have hclaim : fleetMoves ctx k8s moves m = .claim worker := by
    rw [fleetMoves, hmove, fleetMove, if_pos hasks]
  have hidle := ((Bool.and_eq_true ..).mp hasks).2
  exact hs.unclaimed m hm worker hclaim (Phase.isIdle_iff.mp hidle)

variable (hf : Fair ctx k8s moves)
include hf

/-- Every worker has asked, for the one that is yet to would claim. -/
theorem Fair.no_fresh (hs : Starved ctx k8s moves n) {m : Nat} (hm : n ≤ m) {pod : Pod}
    (hmem : pod ∈ (podsAt ctx k8s moves m).pods) : ¬ pod.fresh := by
  intro hfresh
  have hlasts := lasts (n := m) (p := fun k => ∃ pod' ∈ (podsAt ctx k8s moves k).pods,
    pod'.worker = pod.worker ∧ pod'.fresh) ⟨pod, hmem, rfl, hfresh⟩ (by
      rintro k hk ⟨pod', hmem', hworker, hfresh'⟩
      have hnext : (moves k = .ask pod'.worker ∧ (podsAt ctx k8s moves k).asks pod'.worker) ∨
          ∃ pod'' ∈ (podsAt ctx k8s moves (k + 1)).pods,
            pod''.worker = pod'.worker ∧ pod''.fresh := fresh_step hmem' hfresh'
      rcases hnext with ⟨hmove, hasks⟩ | ⟨pod'', hmem'', hworker', hfresh''⟩
      · exact absurd hasks (hs.not_asks (hm.trans hk) hmove)
      · exact ⟨pod'', hmem'', hworker'.trans hworker, hfresh''⟩)
  obtain ⟨k, hk, hmove, hidle⟩ := hf.asks m pod hmem hfresh
  obtain ⟨pod', hmem', hworker, hfresh'⟩ := hlasts k hk
  refine hs.not_asks (hm.trans hk) hmove ?_
  refine (Bool.and_eq_true ..).mpr ⟨List.any_eq_true.mpr ⟨pod', hmem', ?_⟩, hidle⟩
  rw [Bool.and_eq_true, decide_eq_true_eq]
  exact ⟨hworker, hfresh'⟩

/-- A Job of a worker, and every Job, that is unfinished was so before. -/
theorem Fair.unfinished_before (hs : Starved ctx k8s moves n) {m : Nat} (hm : n ≤ m) {pod : Pod}
    (hmem : pod ∈ (podsAt ctx k8s moves (m + 1)).pods) (hunfinished : pod.job.finished = false) :
    ∃ before ∈ (podsAt ctx k8s moves m).pods,
      before.worker = pod.worker ∧ before.job.finished = false :=
  (unfinished_step hmem hunfinished).resolve_right
    (hf.no_fresh hs (Nat.le_succ_of_le hm) hmem)

/-- The worker's Jobs come to their end. -/
theorem Fair.pods_finish (hs : Starved ctx k8s moves n) (worker : Uuid) :
    ∃ m, n ≤ m ∧ ∀ k, m ≤ k → ∀ pod ∈ (podsAt ctx k8s moves k).pods, pod.worker = worker →
      pod.job.finished = true := by
  have hunclaimed : ∀ m, n ≤ m → fleetMoves ctx k8s moves m = .claim worker →
      (Fleet.fleetAt ctx (fleetMoves ctx k8s moves) m).phase worker ≠ .idle := by
    intro m hm hmove
    rw [fleetAt_eq]
    exact hs.unclaimed m hm worker hmove
  obtain ⟨m, hm, hnone⟩ := hf.diligent.lets_go hunclaimed
  have hthrough : ∀ k, m ≤ k → ∀ pod ∈ (podsAt ctx k8s moves k).pods, pod.worker = worker →
      pod.job.finished = false → pod.through (podsAt ctx k8s moves k).fleet := by
    intro k hk pod hmem hworker hunfinished
    have hcopy := hnone k hk
    rw [fleetAt_eq] at hcopy
    have hasked := hf.no_fresh hs (hm.trans hk) hmem
    rw [Pod.fresh, hunfinished] at hasked
    rw [Pod.through, hworker, hcopy]
    simpa using hasked
  have hends : ∃ k, m ≤ k ∧ ∀ pod ∈ (podsAt ctx k8s moves k).pods, pod.worker = worker →
      pod.job.finished = true := by
    by_contra hnever
    have hopen : ¬ ∀ pod ∈ (podsAt ctx k8s moves m).pods, pod.worker = worker →
        pod.job.finished = true := fun hall => hnever ⟨m, le_refl m, hall⟩
    push Not at hopen
    obtain ⟨pod, hmem, hworker, hunfinished⟩ := hopen
    have hunfinished : pod.job.finished = false := by simpa using hunfinished
    obtain ⟨k, hk, status, hmove, hreports⟩ := hf.reports m pod hmem hunfinished
      (hthrough m (le_refl m) pod hmem hworker hunfinished)
    refine hnever ⟨k + 1, Nat.le_succ_of_le hk, fun pod' hmem' hworker' => ?_⟩
    rw [show (podsAt ctx k8s moves (k + 1)) =
      step ctx k8s (podsAt ctx k8s moves k) (moves k) from rfl, hmove, hworker] at hmem'
    obtain ⟨before, hin, rfl⟩ := List.mem_map.mp hmem'
    by_cases hw : before.worker = worker
    · rw [if_pos hw]
      exact reported_finished hreports (hthrough k hk before hin hw)
    · rw [if_neg hw] at hworker'
      exact absurd hworker' hw
  obtain ⟨k, hk, hall⟩ := hends
  refine ⟨k, hm.trans hk, lasts hall fun i hi hall pod hmem hworker => ?_⟩
  by_contra hopen
  have hunfinished : pod.job.finished = false := by simpa using hopen
  obtain ⟨before, hin, hsame, hbefore⟩ :=
    hf.unfinished_before hs (hm.trans (hk.trans hi)) hmem hunfinished
  have hdone := hall before hin (hsame.trans hworker)
  rw [hbefore] at hdone
  cases hdone

/-- No Job is left that counts as active. -/
theorem Fair.all_finish (hs : Starved ctx k8s moves n) :
    ∃ m, n ≤ m ∧ ∀ k, m ≤ k → ∀ pod ∈ (podsAt ctx k8s moves k).pods, pod.job.finished = true := by
  obtain ⟨m, hm, hall⟩ := together (l := (podsAt ctx k8s moves n).pods.map Pod.worker)
    fun worker _ => hf.pods_finish hs worker
  have hold : ∀ k, n ≤ k → ∀ pod ∈ (podsAt ctx k8s moves k).pods, pod.job.finished = false →
      pod.worker ∈ (podsAt ctx k8s moves n).pods.map Pod.worker := by
    refine lasts (fun pod hmem _ => List.mem_map_of_mem hmem) fun k hk hold pod hmem hopen => ?_
    obtain ⟨before, hin, hsame, hbefore⟩ := hf.unfinished_before hs hk hmem hopen
    exact hsame ▸ hold before hin hbefore
  refine ⟨m, hm, fun k hk pod hmem => ?_⟩
  by_contra hopen
  have hworker := hold k (hm.trans hk) pod hmem (by simpa using hopen)
  exact hopen (hall pod.worker hworker k hk pod hmem rfl)

omit hf in
/-- A pass that finds ids and no active Job leaves a worker that is yet to ask. -/
theorem scale_fresh {d : PodFleet} {tape : List ScaleChoice} {workers : List Uuid}
    {names : List String} {c : KubeState} (henabled : k8s.enabled)
    (hqueue : d.fleet.world.pendingQueue ≠ [])
    (hdone : ∀ pod ∈ d.pods, pod.job.finished = true)
    (hrun : kubernetes.run (ensureWorkerCapacity k8s) tape d.kube = some (.ok names, c))
    (hstaffs : d.staffs workers (d.created c)) :
    ∃ pod ∈ (step ctx k8s d (.scale tape workers)).pods, pod.fresh := by
  obtain ⟨hlength, hc⟩ := Machine.run_obeys hrun (ensureWorkerCapacity_obeys k8s) names rfl
  have hactive : d.kube.active = 0 := by
    rw [KubeState.active_eq_unfinished, unfinished_eq, List.countP_eq_zero]
    intro job hjob
    obtain ⟨pod, hmem, rfl⟩ := List.mem_map.mp hjob
    simp [hdone pod hmem]
  have hcreated : d.created c = names.map fun name => V1Job.created name workerLabels := by
    rw [hc, created, KubeState.launched, kube, List.drop_left' (List.length_map ..)]
  have hpos : 0 < names.length := by
    have hlimit := k8s.maxConcurrentPods.property
    have hdepth := List.length_pos_of_ne_nil hqueue
    rw [hlength, missing, if_pos henabled, toLaunch, hactive]
    exact Nat.lt_min.mpr ⟨hdepth, hlimit⟩
  obtain ⟨name, names, rfl⟩ := List.exists_cons_of_length_pos hpos
  have hworkers : workers.length = (d.created c).length := by
    simp only [staffs, decide_eq_true_eq, Bool.decide_and, Bool.and_eq_true] at hstaffs
    exact hstaffs.1
  rw [hcreated, List.length_map, List.length_cons] at hworkers
  obtain ⟨worker, workers, rfl⟩ := List.exists_cons_of_length_eq_add_one hworkers
  refine ⟨⟨.created name workerLabels, worker, false⟩, ?_, rfl⟩
  rw [step, hrun]
  dsimp only
  rw [if_pos hstaffs, hcreated]
  exact List.mem_append_right _ List.mem_cons_self

/-- Again and again a worker claims, or no id is queued. -/
theorem Fair.claims (henabled : k8s.enabled) (n : Nat) : ∃ m, n ≤ m ∧
    ((Fleet.fleetAt ctx (fleetMoves ctx k8s moves) m).world.pendingQueue = [] ∨ ∃ worker,
      fleetMoves ctx k8s moves m = .claim worker ∧
        (Fleet.fleetAt ctx (fleetMoves ctx k8s moves) m).phase worker = .idle) := by
  by_contra hnever
  have hs : Starved ctx k8s moves n := by
    refine ⟨fun m hm hempty => hnever ⟨m, hm, .inl ?_⟩, fun m hm worker hmove hidle =>
      hnever ⟨m, hm, .inr ⟨worker, hmove, ?_⟩⟩⟩
    · rw [fleetAt_eq, hempty]
    · rw [fleetAt_eq, hidle]
  obtain ⟨m, hm, hdone⟩ := hf.all_finish hs
  obtain ⟨k, hk, tape, workers, names, c, hmove, hrun, hstaffs⟩ := hf.passes m
  have hnew : ∃ pod ∈ (podsAt ctx k8s moves (k + 1)).pods, pod.fresh := by
    show ∃ pod ∈ (step ctx k8s (podsAt ctx k8s moves k) (moves k)).pods, pod.fresh
    rw [hmove]
    exact scale_fresh henabled (hs.waits k (hm.trans hk)) (hdone k hk) hrun hstaffs
  obtain ⟨pod, hmem, hfresh⟩ := hnew
  exact hf.no_fresh hs (Nat.le_succ_of_le (hm.trans hk)) hmem hfresh

end
/-! One job, a pass for it, and turns without end after it. -/

/-- One job is enqueued, a pass creates a Job and its worker 7 does it; then passes of scaling and
    of recovery by turns. -/
def oneJobRun : Nat → PodMove
  | 0 => .fleet (.enqueue (mp4File "/tmp/input/a.mp4") defaultMatch 1)
  | 1 => .scale [.go, .go, .id 5, .go] [7]
  | 2 => .ask 7
  | 3 => .fleet (.start 7)
  | 4 => .fleet (.finish 7 (.ok (quickResult "/tmp/output/a.mp4")) (.ok (summaryOf 1)))
  | 5 => .report 7 true (some ⟨none, some 1, none, none⟩)
  | 6 => .fleet (.expire 1)
  | n + 7 => if n % 2 = 0 then .scale [] [] else .fleet (.recover [.order [], .order []])

/-- Seen from the queue it is the run of one job whose worker was there before. -/
def fleetTurn : Nat → Nat
  | 0 => 0
  | 1 | 2 => 1
  | 3 => 2
  | 4 => 3
  | 5 | 6 => 4
  | _ + 7 => 5

theorem fleetTurn_eq (n : Nat) :
    (fleetTurn n = 2 → n = 3) ∧ (fleetTurn n = 3 → n = 4) ∧ (fleetTurn n ≤ 4 → n ≤ 6) := by
  unfold fleetTurn
  split <;> omega

/-- What it comes to. -/
def oneJobDone : PodFleet := podsAt smallContext fivePods oneJobRun 7

theorem fleet_nothing {ctx : Context} {k8s : KubernetesSettings} {d : PodFleet} {move : Move}
    (hclaim : move.isClaim = false) (h : Fleet.step ctx d.fleet move = d.fleet) :
    step ctx k8s d (.fleet move) = d := by
  rw [step, if_neg (by simp [hclaim]), h]

/-- From turn 7 on nothing changes. -/
theorem oneJobRun_done (n : Nat) : podsAt smallContext fivePods oneJobRun (n + 7) = oneJobDone := by
  refine stateAt_stays (n := 7) rfl (fun m hm => ?_) (n + 7) (Nat.le_add_left 7 n)
  obtain ⟨k, rfl⟩ := Nat.exists_eq_add_of_le' hm
  rw [oneJobRun]
  split
  · rfl
  · exact fleet_nothing rfl (Fleet.sweep_nothing fun _ => Fleet.oneJobDone_index)

theorem oneJobRun_fleet (n : Nat) :
    Fleet.fleetAt smallContext (fleetMoves smallContext fivePods oneJobRun) n =
      Fleet.fleetAt smallContext Fleet.oneJobRun (fleetTurn n) := by
  rw [fleetAt_eq]
  rcases n with _ | _ | _ | _ | _ | _ | _ | n
  case succ.succ.succ.succ.succ.succ.succ =>
    rw [oneJobRun_done]
    rfl
  all_goals rfl

theorem oneJobRun_diligent :
    Fleet.Diligent smallContext (fleetMoves smallContext fivePods oneJobRun) where
  attended n := by
    rw [oneJobRun_fleet]
    rcases n with _ | _ | _ | _ | _ | _ | _ | n
    case succ.succ.succ.succ.succ.succ.zero => exact Fleet.oneJobRun_attended 4
    case succ.succ.succ.succ.succ.succ.succ =>
      unfold fleetMoves
      rw [oneJobRun]
      split <;> trivial
    all_goals trivial
  starts n worker job hc := by
    rw [oneJobRun_fleet] at hc
    rcases Fleet.oneJobRun_phase (fleetTurn n) worker with
      hi | ⟨rfl, ⟨hn, -⟩ | ⟨-, _, _, -, ht⟩⟩
    · cases hi.symm.trans hc
    · exact ⟨3, ((fleetTurn_eq n).1 hn).le, .inl rfl⟩
    · cases ht.symm.trans hc
  ends n worker job processing ht := by
    rw [oneJobRun_fleet] at ht
    rcases Fleet.oneJobRun_phase (fleetTurn n) worker with
      hi | ⟨rfl, ⟨-, _, hc⟩ | ⟨hn, _, _, hid, ht'⟩⟩
    · cases hi.symm.trans ht
    · cases hc.symm.trans ht
    · cases ht'.symm.trans ht
      refine ⟨4, ((fleetTurn_eq n).2.1 hn).le, .inr ⟨_, _, rfl, ?_⟩⟩
      rintro summary ⟨⟩
      exact hid.symm
  lapses n id h := by
    rw [oneJobRun_fleet] at h
    obtain ⟨hn, rfl⟩ := Fleet.oneJobRun_heartbeats h
    exact ⟨6, (fleetTurn_eq n).2.2 hn, .inl rfl⟩
  sweeps n := by
    have hmove : fleetMoves smallContext fivePods oneJobRun (2 * n + 1 + 7) =
        .recover [.order [], .order []] := by
      rw [fleetMoves, oneJobRun, if_neg (by omega)]
      rfl
    refine ⟨2 * n + 1 + 7, by omega, ?_⟩
    rw [hmove, oneJobRun_fleet]
    exact Fleet.sweeps_done

/-- The Jobs of that run. -/
theorem oneJobRun_pods {n : Nat} {pod : Pod}
    (h : pod ∈ (podsAt smallContext fivePods oneJobRun n).pods) :
    pod.worker = 7 ∧ (pod.fresh → n ≤ 2) ∧ (pod.job.finished = false → n ≤ 5) := by
  have hasked : ∀ m, m ≤ 5 → (∃ pod : Pod, (podsAt smallContext fivePods oneJobRun m).pods = [pod] ∧
      pod.worker = 7 ∧ pod.asked) → n = m →
        pod.worker = 7 ∧ (pod.fresh → n ≤ 2) ∧ (pod.job.finished = false → n ≤ 5) := by
    rintro m hm ⟨asked, hpods, hworker, hasked⟩ rfl
    rw [hpods, List.mem_singleton] at h
    subst h
    exact ⟨hworker, fun hfresh => by simp [Pod.fresh, hasked] at hfresh, fun _ => hm⟩
  have hdone : ∀ m, (∃ pod : Pod, (podsAt smallContext fivePods oneJobRun m).pods = [pod] ∧
      pod.worker = 7 ∧ pod.job.finished) → n = m →
        pod.worker = 7 ∧ (pod.fresh → n ≤ 2) ∧ (pod.job.finished = false → n ≤ 5) := by
    rintro m ⟨done, hpods, hworker, hfinished⟩ rfl
    rw [hpods, List.mem_singleton] at h
    subst h
    exact ⟨hworker, fun hfresh => by simp [Pod.fresh, hfinished] at hfresh,
      fun hopen => absurd (hfinished.symm.trans hopen) Bool.noConfusion⟩
  rcases n with _ | _ | _ | _ | _ | _ | _ | n
  · exact absurd h List.not_mem_nil
  · exact absurd h List.not_mem_nil
  · obtain rfl := List.mem_singleton.mp h
    exact ⟨rfl, fun _ => le_refl 2, fun _ => by decide⟩
  · exact hasked 3 (by decide) ⟨_, rfl, rfl, rfl⟩ rfl
  · exact hasked 4 (by decide) ⟨_, rfl, rfl, rfl⟩ rfl
  · exact hasked 5 (by decide) ⟨_, rfl, rfl, rfl⟩ rfl
  · exact hdone 6 ⟨_, rfl, rfl, rfl⟩ rfl
  · refine hdone (n + 7) ?_ rfl
    rw [oneJobRun_done]
    exact ⟨_, rfl, rfl, rfl⟩

theorem oneJobRun_fair : Fair smallContext fivePods oneJobRun where
  diligent := oneJobRun_diligent
  asks n pod hmem hfresh := by
    obtain ⟨hworker, hn, -⟩ := oneJobRun_pods hmem
    rw [hworker]
    exact ⟨2, hn hfresh, rfl, rfl⟩
  reports n pod hmem hopen _ := by
    obtain ⟨hworker, -, hn⟩ := oneJobRun_pods hmem
    rw [hworker]
    exact ⟨5, hn hopen, _, rfl, by decide⟩
  passes n := by
    refine ⟨2 * n + 7, by omega, [], [], [], oneJobDone.kube, if_pos (Nat.mul_mod_right 2 n), ?_⟩
    rw [oneJobRun_done]
    exact ⟨rfl, rfl⟩

end PodFleet
end Vshift
