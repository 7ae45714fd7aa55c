import Vshift.Kubernetes

/- How many worker Jobs a scaling pass leaves.

   A pass alone creates as many Jobs as the queue, cut to the limit, exceeds the active ones
   (`ensureWorkerCapacity_obeys`). Jobs that are busy count as active, and so a pass that ends
   well may leave queued ids without a worker while there is room for more Jobs
   (`queued_work_gets_worker_iff`). Among other processes, what a pass may still create is a
   budget it takes when it counts; the budget and the unfinished Jobs together stay within the
   limit, whatever ends, is claimed or fails in between (`pod_limit`). -/
namespace Vshift
open Command Program

/-! A pass alone. -/

namespace KubeState

/-- After Jobs of these names have been created. -/
def launched (c : KubeState) (names : List String) : KubeState :=
  { c with jobs := c.jobs ++ names.map fun name => .created name workerLabels }

/-- The active worker Jobs that hold a claimed id. -/
def busy (c : KubeState) : Nat :=
  (c.listed workerLabels).countP fun job => isActiveJob job.status && job.claimed.isSome

/-- The active worker Jobs that hold none. -/
def idle (c : KubeState) : Nat :=
  (c.listed workerLabels).countP fun job => isActiveJob job.status && job.claimed.isNone

variable {c : KubeState}

theorem active_eq : c.active = c.busy + c.idle := by
  unfold active busy idle
  induction c.listed workerLabels with
  | nil => rfl
  | cons job jobs ih =>
    rw [List.countP_cons, List.countP_cons, List.countP_cons, ih]
    cases hactive : isActiveJob job.status <;> cases hclaimed : job.claimed <;> simp <;> omega

theorem active_eq_unfinished : c.active = c.unfinished := by
  apply List.countP_congr
  intro job _
  rw [isActiveJob_eq job.reports]

theorem selected_created (name : String) (labels : List (String × String)) :
    (V1Job.created name labels).selected labels :=
  List.all_eq_true.mpr fun _ hlabel => decide_eq_true hlabel

theorem listed_launched (names : List String) : (c.launched names).listed workerLabels =
    c.listed workerLabels ++ names.map fun name => .created name workerLabels := by
  unfold listed launched
  rw [List.filter_append]
  congr 1
  apply List.filter_eq_self.mpr
  intro job hjob
  obtain ⟨name, -, rfl⟩ := List.mem_map.mp hjob
  exact selected_created name workerLabels

/-- Jobs just created count as active, and hold no id. -/
theorem countP_launched {p : V1Job → Bool} (hp : ∀ name, p (.created name workerLabels))
    (names : List String) : ((c.launched names).listed workerLabels).countP p =
      (c.listed workerLabels).countP p + names.length := by
  rw [listed_launched, List.countP_append, List.countP_map]
  congr 1
  exact List.countP_eq_length.mpr fun name _ => hp name

theorem active_launched (names : List String) :
    (c.launched names).active = c.active + names.length :=
  countP_launched (fun _ => rfl) names

theorem idle_launched (names : List String) : (c.launched names).idle = c.idle + names.length :=
  countP_launched (fun _ => rfl) names

theorem launched_cons (name : String) (names : List String) :
    (c.launched [name]).launched names = c.launched (name :: names) := by
  unfold launched
  rw [List.append_assoc]
  rfl

end KubeState

/-! What the programs do. -/

section
variable {c : KubeState}

/-- The active Jobs are counted. -/
theorem countActiveWorkers_obeys : countActiveWorkers.Obeys kubernetes.protocol
    (Ensures fun count c' => count = c.active ∧ c' = c) c := by
  apply Machine.obeys_call_bind.mpr
  intro x r hanswer
  cases r with
  | error error => exact ensures_error
  | ok jobs =>
    apply ensures_ok
    have hjobs : jobs = (c.listed workerLabels).map V1Job.status := by
      cases x <;> cases hanswer <;> rfl
    refine ⟨?_, rfl⟩
    rw [hjobs, List.countP_map]
    rfl

/-- A launch that does not fail creates one Job. -/
theorem launchWorker_obeys : launchWorker.Obeys kubernetes.protocol
    (Ensures fun name c' => c' = c.launched [name]) c := by
  apply Machine.obeys_call_bind.mpr
  intro x id _
  apply Machine.obeys_call_bind.mpr
  intro x creation _
  cases creation with
  | failed error created => exact ensures_error
  | done => exact ensures_ok rfl

theorem launchWorkers_obeys (n : Nat) : ∀ c : KubeState,
    (launchWorkers n).Obeys kubernetes.protocol
      (Ensures fun names c' => names.length = n ∧ c' = c.launched names) c := by
  induction n with
  | zero =>
    intro c
    refine ensures_ok ⟨rfl, ?_⟩
    simp [KubeState.launched]
  | succ n ih =>
    intro c
    apply Ensures.seq launchWorker_obeys
    rintro name _ rfl
    apply Ensures.seq (ih _)
    rintro names _ ⟨hlength, rfl⟩
    exact ensures_ok ⟨congrArg (· + 1) hlength, KubeState.launched_cons name names⟩

/-- The Jobs a pass creates if nothing fails. -/
def missing (k8s : KubernetesSettings) (c : KubeState) : Nat :=
  if k8s.enabled then toLaunch k8s c.pendingQueue.length c.active else 0

theorem ensureWorkerCapacity_obeys (k8s : KubernetesSettings) :
    (ensureWorkerCapacity k8s).Obeys kubernetes.protocol
      (Ensures fun names c' => names.length = missing k8s c ∧ c' = c.launched names) c := by
  have hnone : c = c.launched [] := by simp [KubeState.launched]
  unfold ensureWorkerCapacity missing
  split
  · next hdisabled =>
    rw [if_neg (by simpa using hdisabled)]
    exact ensures_ok ⟨rfl, hnone⟩
  · next henabled =>
    rw [if_pos (by simpa using henabled)]
    apply Machine.obeys_call_bind.mpr
    intro x queueDepth hanswer
    cases hanswer
    split
    · next hempty =>
      refine ensures_ok ⟨?_, hnone⟩
      rw [toLaunch, hempty, Nat.zero_min, Nat.zero_sub]
      rfl
    · apply Ensures.seq countActiveWorkers_obeys
      rintro count _ ⟨rfl, rfl⟩
      exact launchWorkers_obeys _ _

end

/-! Queued ids and idle workers. -/

/-- No more Jobs fit, or every queued id has a worker that is free to claim it. -/
def Covered (k8s : KubernetesSettings) (c : KubeState) : Prop :=
  k8s.maxConcurrentPods.val ≤ c.active ∨ c.pendingQueue.length ≤ c.idle

/-- A pass that ends well covers the queue exactly when it was covered before, or the limit is
    the smaller of limit and queue, or no active worker is busy. -/
theorem queued_work_gets_worker_iff (k8s : KubernetesSettings) {c c' : KubeState}
    {tape : List ScaleChoice} {names : List String}
    (hrun : kubernetes.run (ensureWorkerCapacity k8s) tape c = some (.ok names, c')) :
    Covered k8s c' ↔
      Covered k8s c ∨
        k8s.enabled ∧ (k8s.maxConcurrentPods.val ≤ c.pendingQueue.length ∨ c.busy = 0) := by
  obtain ⟨hlength, rfl⟩ := Machine.run_obeys hrun (ensureWorkerCapacity_obeys k8s) names rfl
  have hactive := KubeState.active_eq (c := c)
  unfold Covered
  rw [KubeState.active_launched, KubeState.idle_launched, hlength]
  show k8s.maxConcurrentPods.val ≤ c.active + missing k8s c ∨
    c.pendingQueue.length ≤ c.idle + missing k8s c ↔ _
  unfold missing toLaunch
  by_cases henabled : k8s.enabled
  · simp only [henabled, if_true, true_and]
    omega
  · simp [henabled]

/-- One worker is busy, and an id is queued. -/
def oneBusy : KubeState where
  pendingQueue := [2]
  jobs := [{ V1Job.created "vshift-worker-00000001" workerLabels with claimed := some 1 }]

def fivePods : KubernetesSettings where
  enabled := true
  «namespace» := defaultKeyPrefix
  workerImage := defaultKeyPrefix
  maxConcurrentPods := 5
  workerServiceAccount := defaultKeyPrefix

theorem queued_work_gets_worker_iff_oneBusy :
    kubernetes.run (ensureWorkerCapacity fivePods) [] oneBusy = some (.ok [], oneBusy) ∧
    (Covered fivePods oneBusy ↔
      Covered fivePods oneBusy ∨
        fivePods.enabled ∧
          (fivePods.maxConcurrentPods.val ≤ oneBusy.pendingQueue.length ∨ oneBusy.busy = 0)) := by
  have hrun : kubernetes.run (ensureWorkerCapacity fivePods) [] oneBusy =
      some (.ok [], oneBusy) := rfl
  exact ⟨hrun, queued_work_gets_worker_iff fivePods hrun⟩

/-- Four Jobs more would fit, but none is created for the id in the queue. -/
theorem queued_work_waits : ¬ ∀ (k8s : KubernetesSettings) (c c' : KubeState)
    (tape : List ScaleChoice) (names : List String), k8s.enabled →
    kubernetes.run (ensureWorkerCapacity k8s) tape c = some (.ok names, c') → Covered k8s c' := by
  intro hcovered
  have hbusy := hcovered fivePods oneBusy oneBusy [] [] rfl rfl
  exact absurd hbusy (not_or.mpr ⟨by decide, by decide⟩)

/-! Passes among other processes. -/

/-- Scaling passes, with everything that happens around them. -/
def scaling (k8s : KubernetesSettings) :
    System KubeState Unit ScaleCmd ScaleChoice ClusterEvent ScaleReply Exn where
  machine := kubernetes
  code _ := (ensureWorkerCapacity k8s).discard
  env := KubeState.environment

abbrev Passes := Pool KubeState Unit ScaleCmd ScaleReply Exn

/-- One server: a pass starts when the one before has ended. -/
def OneServer (s : Passes) (a : Action Unit ScaleChoice ClusterEvent) : Prop :=
  ∀ l, a = .spawn l → ∀ p ∈ s.procs, p.Ended

/-- The Jobs a pass may still create: what the limit leaves when it counts, one less after each
    creation, whether it failed or not. -/
def budget (limit : Nat) : Protocol ScaleCmd ScaleReply Nat where
  allows t cmd :=
    match cmd with
    | .listJobs selector => selector = workerLabels
    | .createJob _ _ => 0 < t
    | _ => True
  expects _ _ _ := True
  next t cmd reply :=
    match cmd, reply with
    | .listJobs _, .ok jobs => limit - jobs.countP isActiveJob
    | .createJob _ _, _ => t - 1
    | _, _ => t

section
variable {limit : Nat} {k8s : KubernetesSettings}

theorem launchWorker_budget {t : Nat} (h : 0 < t) :
    launchWorker.Obeys (budget limit) (fun _ t' => t' = t - 1) t := by
  refine ⟨trivial, fun id _ => ⟨h, fun creation _ => ?_⟩⟩
  cases creation with
  | failed error created => rfl
  | done => rfl

theorem launchWorkers_budget (n : Nat) : ∀ t, n ≤ t →
    (launchWorkers n).Obeys (budget limit) (fun _ _ => True) t := by
  induction n with
  | zero => exact fun _ _ => trivial
  | succ n ih =>
    intro t h
    apply (launchWorker_budget (by omega)).seq
    · rintro name _ rfl
      apply (ih (t - 1) (by omega)).seq
      · exact fun _ _ _ => trivial
      · exact fun _ _ _ => trivial
    · exact fun _ _ _ => trivial

/-- A pass keeps within its budget, whatever was left before. -/
theorem ensureWorkerCapacity_budget (k8s : KubernetesSettings) (t : Nat) :
    (ensureWorkerCapacity k8s).Obeys (budget k8s.maxConcurrentPods.val) (fun _ _ => True) t := by
  unfold ensureWorkerCapacity
  split
  · trivial
  · refine ⟨trivial, fun queueDepth _ => ?_⟩
    show Obeys _ (if queueDepth = 0 then _ else _) _ _
    split
    · trivial
    · refine ⟨rfl, fun listing _ => ?_⟩
      cases listing with
      | error error => trivial
      | ok jobs =>
        -- what is launched is at most what the limit leaves
        apply launchWorkers_budget
        show toLaunch k8s queueDepth (jobs.countP isActiveJob) ≤
          k8s.maxConcurrentPods.val - jobs.countP isActiveJob
        unfold toLaunch
        omega

/-! The Jobs around a command. -/

theorem countP_set_le {p : V1Job → Bool} {jobs : List V1Job} {i : Nat} {job job' : V1Job}
    (hjob : jobs[i]? = some job) (hp : p job' → p job) :
    (jobs.set i job').countP p ≤ jobs.countP p := by
  obtain ⟨hlt, hget⟩ := List.getElem?_eq_some_iff.mp hjob
  have hcount := List.countP_set (p := p) (a := job') hlt
  have hle := List.boole_getElem_le_countP (p := p) hlt
  rw [hget] at hcount hle
  by_cases hnew : p job'
  · rw [if_pos (hp hnew)] at hcount hle
    rw [if_pos hnew] at hcount
    omega
  · rw [if_neg hnew] at hcount
    omega

theorem unfinished_eq (c : KubeState) :
    c.unfinished = c.jobs.countP fun job => !job.finished && job.selected workerLabels := by
  unfold KubeState.unfinished KubeState.listed
  rw [List.countP_filter]

/-- Nothing around the server makes more Jobs unfinished. -/
theorem unfinished_environment_le (e : ClusterEvent) (c : KubeState) :
    (c.environment e).unfinished ≤ c.unfinished := by
  rw [unfinished_eq, unfinished_eq]
  cases e with
  | enqueue id => exact Nat.le_refl _
  | claim i =>
    unfold KubeState.environment
    dsimp only
    split
    · next id job _ hjob =>
      split
      · exact countP_set_le hjob fun h => h
      · exact Nat.le_refl _
    · exact Nat.le_refl _
  | claimElsewhere => exact Nat.le_refl _
  | report i finished status =>
    unfold KubeState.environment
    dsimp only
    split
    · next job hjob =>
      split
      · next h =>
        apply countP_set_le hjob
        intro hstill
        simp only [Bool.and_eq_true, Bool.not_eq_true'] at hstill ⊢
        refine ⟨?_, hstill.2⟩
        cases hended : job.finished with
        | false => rfl
        | true => exact absurd (h.2 hended) (by simp [hstill.1])
      · exact Nat.le_refl _
    · exact Nat.le_refl _
  | remove i =>
    unfold KubeState.environment
    dsimp only
    split
    · split
      · exact (List.eraseIdx_sublist ..).countP_le
      · exact Nat.le_refl _
    · exact Nat.le_refl _

/-- After one more Job has been created. -/
def KubeState.created (c : KubeState) (name : String) (labels : List (String × String)) :
    KubeState :=
  { c with jobs := c.jobs ++ [.created name labels] }

theorem unfinished_created_le (c : KubeState) (name : String) (labels : List (String × String)) :
    (c.created name labels).unfinished ≤ c.unfinished + 1 := by
  rw [unfinished_eq, unfinished_eq, KubeState.created, List.countP_append]
  apply Nat.add_le_add_left
  exact List.countP_le_length

/-- One command of a pass: the unfinished Jobs and what is left of the budget stay in the limit. -/
theorem exchange_within {c : KubeState} {t : Nat} {cmd : ScaleCmd} {x : ScaleChoice}
    {r : ScaleReply cmd} (hallows : (budget limit).allows t cmd) (hr : c.answer cmd x = some r)
    (h : c.unfinished + t ≤ limit) :
    (c.effect cmd r).unfinished + (budget limit).next t cmd r ≤ limit := by
  cases cmd with
  | llenPending => exact h
  | uuid4 => exact h
  | listJobs selector =>
    cases r with
    | error error => exact h
    | ok jobs =>
      -- the Jobs counted are the unfinished ones
      have hjobs : jobs = (c.listed selector).map V1Job.status := by
        cases x <;> cases hr <;> rfl
      have hselector : selector = workerLabels := hallows
      have hcount : jobs.countP isActiveJob = c.unfinished := by
        rw [hjobs, hselector, List.countP_map, ← KubeState.active_eq_unfinished]
        rfl
      show c.unfinished + (limit - jobs.countP isActiveJob) ≤ limit
      omega
  | createJob name labels =>
    have hleft : 0 < t := hallows
    have hcreated := unfinished_created_le c name labels
    cases r with
    | done =>
      show (c.created name labels).unfinished + (t - 1) ≤ limit
      omega
    | failed error created =>
      cases created with
      | false =>
        show c.unfinished + (t - 1) ≤ limit
        omega
      | true =>
        show (c.created name labels).unfinished + (t - 1) ≤ limit
        omega

theorem getElem?_of_set {α : Type} {l : List α} {i j : Nat} {a b : α}
    (h : (l.set i a)[j]? = some b) : j = i ∧ b = a ∨ j ≠ i ∧ l[j]? = some b := by
  by_cases hj : j = i
  · subst hj
    rw [List.getElem?_set_self'] at h
    obtain ⟨_, _, rfl⟩ := Option.map_eq_some_iff.mp h
    exact .inl ⟨rfl, rfl⟩
  · rw [List.getElem?_set_ne (Ne.symm hj)] at h
    exact .inr ⟨hj, h⟩

/-- The limit holds with the budget of the one pass that is running, if any is. -/
structure Bounded (k8s : KubernetesSettings) (s : Passes) : Prop where
  obeying : Obeying (budget k8s.maxConcurrentPods.val) (fun _ => 0) (fun _ => True) s
  within : s.store.unfinished ≤ k8s.maxConcurrentPods.val
  running : ∀ (pid : Nat) p, s.procs[pid]? = some p → ¬ p.Ended →
    s.store.unfinished + (budget k8s.maxConcurrentPods.val).after 0 p.past ≤
      k8s.maxConcurrentPods.val
  alone : ∀ (i j : Nat) p q, s.procs[i]? = some p → s.procs[j]? = some q → ¬ p.Ended →
    ¬ q.Ended → i = j

theorem Bounded.start (pendingQueue : List Uuid) :
    Bounded k8s ⟨.start pendingQueue, []⟩ where
  obeying := List.forall_mem_nil _
  within := Nat.zero_le _
  running := fun pid p hp => by simp at hp
  alone := fun i j p q hp => by simp at hp

theorem Bounded.step {s : Passes} {a : Action Unit ScaleChoice ClusterEvent} (h : Bounded k8s s)
    (hserver : OneServer s a) : Bounded k8s ((scaling k8s).step s a) := by
  have hobeying : Obeying (budget k8s.maxConcurrentPods.val) (fun _ => 0) (fun _ => True)
      ((scaling k8s).step s a) :=
    obeyingTo_step h.obeying.to
      (fun l _ => (obeys_discard _ _).mpr (ensureWorkerCapacity_budget k8s 0))
      (fun _ _ _ _ _ _ _ _ _ _ => trivial)
  have hs := (scaling k8s).step_cases (s := s) a
  generalize (scaling k8s).step s a = s' at hs hobeying
  cases hs with
  | idle => exact h
  | env e =>
    have hle := unfinished_environment_le e s.store
    refine ⟨hobeying, Nat.le_trans hle h.within, ?_, h.alone⟩
    intro pid p hp hlive
    exact Nat.le_trans (Nat.add_le_add_right hle _) (h.running pid p hp hlive)
  | spawn l =>
    -- every pass before this one has ended
    have hnew : ∀ (pid : Nat) p, (s.procs ++ [⟨l, [], some ((scaling k8s).code l)⟩])[pid]? =
        some p → ¬ p.Ended → pid = s.procs.length ∧ p.past = [] := by
      intro pid p hp hlive
      obtain hold | hlast := Nat.lt_or_ge pid s.procs.length
      · rw [List.getElem?_append_left hold] at hp
        exact absurd (hserver l rfl p (List.mem_of_getElem? hp)) hlive
      · rw [List.getElem?_append_right hlast, List.getElem?_singleton] at hp
        split at hp
        · next hzero =>
          cases hp
          exact ⟨by omega, rfl⟩
        · cases hp
    refine ⟨hobeying, h.within, ?_, ?_⟩
    · intro pid p hp hlive
      rw [(hnew pid p hp hlive).2]
      exact h.within
    · intro i j p q hp hq hlivep hliveq
      rw [(hnew i p hp hlivep).1, (hnew j q hq hliveq).1]
  | @exec pid x l past c k r hp hr =>
    have hlive : ¬ Process.Ended ⟨l, past, some (.ask c k)⟩ := id
    have hallows := ((h.obeying _ (List.mem_of_getElem? hp)).2 _ rfl).1
    have hwithin := exchange_within hallows hr (h.running pid _ hp hlive)
    refine ⟨hobeying, Nat.le_trans (Nat.le_add_right ..) hwithin, ?_, ?_⟩
    · intro i q hq hliveq
      obtain ⟨rfl, rfl⟩ | ⟨hne, hold⟩ := getElem?_of_set hq
      · exact hwithin
      · exact absurd (h.alone i pid _ _ hold hp hliveq hlive) hne
    · intro i j q q' hq hq' hliveq hliveq'
      obtain ⟨rfl, rfl⟩ | ⟨hne, hold⟩ := getElem?_of_set hq
      · obtain ⟨rfl, rfl⟩ | ⟨hne', hold'⟩ := getElem?_of_set hq'
        · rfl
        · exact absurd (h.alone j i _ _ hold' hp hliveq' hlive) hne'
      · exact absurd (h.alone i pid _ _ hold hp hliveq hlive) hne
  | @kill pid p hp =>
    have hkept : ∀ (i : Nat) q, (s.procs.set pid { p with rest := none })[i]? = some q →
        ¬ q.Ended → s.procs[i]? = some q := by
      intro i q hq hliveq
      obtain ⟨rfl, rfl⟩ | ⟨-, hold⟩ := getElem?_of_set hq
      · exact absurd trivial hliveq
      · exact hold
    refine ⟨hobeying, h.within, ?_, ?_⟩
    · intro i q hq hliveq
      exact h.running i q (hkept i q hq hliveq) hliveq
    · intro i j q q' hq hq' hliveq hliveq'
      exact h.alone i j q q' (hkept i q hq hliveq) (hkept j q' hq' hliveq') hliveq hliveq'

end

/-- Whatever happens around the passes of one server, the unfinished worker Jobs stay within the
    limit; and a pass alone that ends well takes the active ones to the smaller of queue and
    limit, unless there are more already. -/
theorem pod_limit (k8s : KubernetesSettings) (henabled : k8s.enabled) :
    (∀ (pendingQueue : List Uuid) (actions : List (Action Unit ScaleChoice ClusterEvent)),
      Meets (scaling k8s).step OneServer ⟨.start pendingQueue, []⟩ actions →
      ((scaling k8s).run ⟨.start pendingQueue, []⟩ actions).store.unfinished ≤
        k8s.maxConcurrentPods.val) ∧
    ∀ (c c' : KubeState) (tape : List ScaleChoice) (names : List String),
      kubernetes.run (ensureWorkerCapacity k8s) tape c = some (.ok names, c') →
      c'.active = max c.active (min c.pendingQueue.length k8s.maxConcurrentPods.val) := by
  constructor
  · intro pendingQueue actions hserver
    have hbounded := run_invariant (Bounded k8s) (fun s a h hok => h.step hok)
      (.start pendingQueue) hserver
    exact hbounded.within
  · intro c c' tape names hrun
    obtain ⟨hlength, rfl⟩ := Machine.run_obeys hrun (ensureWorkerCapacity_obeys k8s) names rfl
    rw [KubeState.active_launched, hlength]
    unfold missing toLaunch
    rw [if_pos henabled]
    omega

/-- A pass that finds an id in the queue, and the worker of its Job that claims it. -/
def scalingPass : List (Action Unit ScaleChoice ClusterEvent) :=
  [.spawn (), .exec 0 .go, .exec 0 .go, .exec 0 (.id 7), .exec 0 .go, .env (.claim 0)]

theorem pod_limit_scalingPass :
    ((scaling fivePods).run ⟨.start [1], []⟩ scalingPass).store.unfinished ≤ 5 ∧
    ∃ names c', kubernetes.run (ensureWorkerCapacity fivePods) [.go, .go, .id 7] (.start [1]) =
      some (.ok names, c') ∧ c'.active = max 0 (min 1 5) := by
  have hother : ∀ {s : Passes} {a : Action Unit ScaleChoice ClusterEvent},
      (∀ l, a ≠ .spawn l) → OneServer s a := fun h l ha => absurd ha (h l)
  have hserver : Meets (scaling fivePods).step OneServer ⟨.start [1], []⟩ scalingPass := by
    refine ⟨fun _ _ _ hp => absurd hp List.not_mem_nil, hother ?_, hother ?_, hother ?_,
      hother ?_, hother ?_, trivial⟩
    all_goals
      intro l ha
      cases ha
  have hrun : kubernetes.run (ensureWorkerCapacity fivePods) [.go, .go, .id 7] (.start [1]) =
      some (.ok [jobName 7], (KubeState.start [1]).launched [jobName 7]) := rfl
  have hlimit := pod_limit fivePods rfl
  exact ⟨hlimit.1 [1] scalingPass hserver, _, _, hrun, hlimit.2 _ _ _ _ hrun⟩

end Vshift
