import Vshift.Alone

/- The processes of a deployment, interleaved at single Redis commands.

   A process is one call of a use case: a scan or a single enqueue and a recovery
   pass of the server, or one round of a worker's loop. Any number of them run at
   once; the environment lets time pass, removes keys and changes files. -/
namespace Vshift
open Command Program

inductive Label where
  | enqueueJob (probed : ProbedInput) (chosen : ProfileMatch)
  | scanInputFolder (candidates : List ProbedInput)
  | recoverStaleJobs
  | processNextJob (worker : Uuid)

/-- The processes that create jobs. -/
def Label.Enqueues : Label → Prop
  | .enqueueJob _ _ => True
  | .scanInputFolder _ => True
  | _ => False

instance (l : Label) : Decidable l.Enqueues := by
  cases l <;> first | exact isTrue trivial | exact isFalse id

def code (ctx : Context) : Label → Prog Unit
  | .enqueueJob probed chosen => (enqueueJob ctx probed chosen).discard
  | .scanInputFolder candidates => (scanInputFolder ctx candidates).discard
  | .recoverStaleJobs => (recoverStaleJobs ctx).discard
  | .processNextJob worker => (processNextJob ctx worker).discard

abbrev Deployment := System World Label Cmd Choice EnvEvent Reply Exn

def deployment (ctx : Context) : Deployment where
  machine := redis
  code := code ctx
  env := World.environment

abbrev Proc := Process Label Cmd Reply Exn

/-- The server and the processes started so far. -/
abbrev Cluster := Pool World Label Cmd Reply Exn

abbrev Act := Action Label Choice EnvEvent

/-- The process has saved this record. -/
def Proc.Wrote (p : Proc) (job : TranscodeJob) : Prop := ∃ ex, ⟨.setJob job ex, ()⟩ ∈ p.past

/-- An empty server and no process. -/
def Cluster.initial : Cluster := ⟨.empty, []⟩

/-! The use cases under any protocol, from what their parts do under it. -/

section
variable {T : Type} {P : Protocol Cmd Reply T} {t : T} {ctx : Context}

/-- What is left of a save when the set of the old state is left. -/
def Replaces (P : Protocol Cmd Reply T) (ctx : Context) (job : TranscodeJob)
    (Q : Except Exn Unit → T → Prop) (t : T) : Prop :=
  (cmd (.setJob job ctx.queue.ttl.val) >>= fun _ => cmd (.saddState job.state job.id)).Obeys P Q t

/-- A save asks for the stored record, leaves its set if that is another one, and replaces
    the record. -/
theorem saveJob_obeys {job : TranscodeJob} {Q : Except Exn Unit → T → Prop}
    (hget : P.allows t (.getJob job.id))
    (hstay : ∀ existing, P.expects t (.getJob job.id) existing →
      (∀ old, existing = some old → old.state = job.state) →
      Replaces P ctx job Q (P.next t (.getJob job.id) existing))
    (hleave : ∀ old : TranscodeJob, P.expects t (.getJob job.id) (some old) →
      old.state ≠ job.state →
      (cmd (.sremState old.state job.id)).Obeys P (fun _ => Replaces P ctx job Q)
        (P.next t (.getJob job.id) (some old))) :
    (saveJob ctx job).Obeys P Q t := by
  refine (obeys_call_bind _ _ _).mpr ⟨hget, fun existing hexisting => ?_⟩
  apply (obeys_bind _ _ _).mpr
  cases existing with
  | none => exact hstay none hexisting (fun old h => by cases h)
  | some old =>
    unfold leaveIndex
    dsimp only
    split
    · next hne => exact hleave old hexisting hne
    · next heq => exact hstay _ hexisting (fun old' h => by cases h; exact not_not.mp heq)

/-- A transition the table has goes on with the new state; any other one raises. -/
theorem transitionTo_obeys {α : Type} {fromState toState : JobState} {f : JobState → Prog α}
    {Q : Except Exn α → T → Prop}
    (hok : fromState.canTransition toState = true → (f toState).Obeys P Q t)
    (herr : ∀ e, Q (.error e) t) : (transitionTo fromState toState >>= f).Obeys P Q t := by
  refine (obeys_bind _ _ _).mpr ((obeys_ofExcept _ _).mpr ?_)
  unfold JobState.transition
  split
  · next h => exact hok h
  · exact herr _

/-- `ProcessNextJob.execute` from its parts: a claimed job is `Held`, a job whose transcode has
    started is `Running`, and `Transcoded` once it has a result; a job whose `try` block has raised
    is `Broken`, and one whose summary is written is `Done`. -/
theorem processNextJob_parts {worker : Uuid} {Q : Except Exn (Option TranscodeJob) → T → Prop}
    (Held : TranscodeJob → T → Prop) (Running : TranscodeJob → TranscodeJob → T → Prop)
    (Transcoded : TranscodeJob → TranscodeJob → TranscodeResult → T → Prop)
    (Broken : TranscodeJob → Exn → T → Prop) (Done : TranscodeJob → T → Prop)
    (hclaim : (claimJob ctx worker).Obeys P (fun r t' =>
      match r with
      | .ok (some job) => Held job t'
      | .ok none => Q (.ok none) t'
      | .error e => Q (.error e) t') t)
    (hstart : ∀ job t, Held job t → (startTranscode ctx worker job).Obeys P (fun r t' =>
      match r with
      | .ok processing => Running job processing t'
      | .error e => Broken job e t') t)
    (htranscode : ∀ job processing t, Running job processing t →
      P.allows t (.transcode processing) ∧ ∀ r, P.expects t (.transcode processing) r →
        match r with
        | .ok result => Transcoded job processing result (P.next t (.transcode processing) r)
        | .error e => Broken job e (P.next t (.transcode processing) r))
    (hsummary : ∀ job processing result t, Transcoded job processing result t →
      (writeSummary ctx processing result).Obeys P (fun r t' =>
        match r with
        | .ok _ => Done job t'
        | .error e => Broken job e t') t)
    (hhandle : ∀ job message t, Broken job (.vshift message) t →
      (handleError ctx worker job message).Obeys P (fun r => Q (r.map some)) t)
    (hbroken : ∀ job name t, Broken job (.other name) t → Q (.error (.other name)) t)
    (hdone : ∀ job t, Done job t → P.allows t (.getJob job.id) ∧
      ∀ r, P.expects t (.getJob job.id) r →
        Q (.ok (some (r.getD job))) (P.next t (.getJob job.id) r)) :
    (processNextJob ctx worker).Obeys P Q t := by
  unfold processNextJob
  refine hclaim.seq ?_ (fun _ _ h => h)
  intro claimed t₁ hclaimed
  cases claimed with
  | none => exact hclaimed
  | some job =>
    -- the `try` block hands back its exception, and leaves the job done or broken
    have htry : (processJob ctx worker job).attempt.Obeys P (fun r t' =>
        match r with
        | .ok (.ok _) => Done job t'
        | .ok (.error e) => Broken job e t'
        | .error _ => False) t₁ := by
      apply (obeys_attempt _ _).mpr
      unfold processJob executeTranscode
      rw [bind_assoc]
      refine (hstart job t₁ hclaimed).seq ?_ (fun _ _ h => h)
      intro processing t₂ hrunning
      obtain ⟨hallow, hnext⟩ := htranscode job processing t₂ hrunning
      refine ⟨hallow, fun outcome houtcome => ?_⟩
      cases outcome with
      | ok result =>
        refine (hsummary job processing result _ (hnext _ houtcome)).mono fun r t' h => ?_
        cases r <;> exact h
      | error e => exact hnext _ houtcome
    refine htry.seq ?_ (fun _ _ h => h.elim)
    intro outcome t₂ houtcome
    cases outcome with
    | ok summary => exact ⟨(hdone job t₂ houtcome).1, (hdone job t₂ houtcome).2⟩
    | error e =>
      cases e with
      | vshift message =>
        exact (hhandle job message t₂ houtcome).seq (fun _ _ h => h) (fun _ _ h => h)
      | other name => exact hbroken job name t₂ houtcome

/-- The same where a result says nothing more of a job that is `Running`. -/
theorem processNextJob_obeysTo {worker : Uuid} {Q : Except Exn (Option TranscodeJob) → T → Prop}
    (Held : TranscodeJob → T → Prop) (Running : TranscodeJob → TranscodeJob → T → Prop)
    (Broken : TranscodeJob → Exn → T → Prop) (Done : TranscodeJob → T → Prop)
    (hclaim : (claimJob ctx worker).Obeys P (fun r t' =>
      match r with
      | .ok (some job) => Held job t'
      | .ok none => Q (.ok none) t'
      | .error e => Q (.error e) t') t)
    (hstart : ∀ job t, Held job t → (startTranscode ctx worker job).Obeys P (fun r t' =>
      match r with
      | .ok processing => Running job processing t'
      | .error e => Broken job e t') t)
    (htranscode : ∀ job processing t, Running job processing t →
      P.allows t (.transcode processing) ∧ ∀ r, P.expects t (.transcode processing) r →
        match r with
        | .ok _ => Running job processing (P.next t (.transcode processing) r)
        | .error e => Broken job e (P.next t (.transcode processing) r))
    (hsummary : ∀ job processing result t, Running job processing t →
      (writeSummary ctx processing result).Obeys P (fun r t' =>
        match r with
        | .ok _ => Done job t'
        | .error e => Broken job e t') t)
    (hhandle : ∀ job message t, Broken job (.vshift message) t →
      (handleError ctx worker job message).Obeys P (fun r => Q (r.map some)) t)
    (hbroken : ∀ job name t, Broken job (.other name) t → Q (.error (.other name)) t)
    (hdone : ∀ job t, Done job t → P.allows t (.getJob job.id) ∧
      ∀ r, P.expects t (.getJob job.id) r →
        Q (.ok (some (r.getD job))) (P.next t (.getJob job.id) r)) :
    (processNextJob ctx worker).Obeys P Q t :=
  processNextJob_parts Held Running (fun job processing _ => Running job processing) Broken Done
    hclaim hstart htranscode hsummary hhandle hbroken hdone

/-- The same where only what is known matters in the end. -/
theorem processNextJob_obeys {worker : Uuid} {fin : T → Prop} (Held : TranscodeJob → T → Prop)
    (Running : TranscodeJob → TranscodeJob → T → Prop) (Broken Done : TranscodeJob → T → Prop)
    (hclaim : (claimJob ctx worker).Obeys P (fun r t' =>
      match r with
      | .ok (some job) => Held job t'
      | _ => fin t') t)
    (hstart : ∀ job t, Held job t → (startTranscode ctx worker job).Obeys P (fun r t' =>
      match r with
      | .ok processing => Running job processing t'
      | .error _ => Broken job t') t)
    (htranscode : ∀ job processing t, Running job processing t →
      P.allows t (.transcode processing) ∧ ∀ r, P.expects t (.transcode processing) r →
        Running job processing (P.next t (.transcode processing) r))
    (hsummary : ∀ job processing result t, Running job processing t →
      (writeSummary ctx processing result).Obeys P (fun r t' =>
        match r with
        | .ok _ => Done job t'
        | .error _ => Broken job t') t)
    (hcrash : ∀ job processing t, Running job processing t → Broken job t)
    (hhandle : ∀ job message t, Broken job t →
      (handleError ctx worker job message).Obeys P (fun _ => fin) t)
    (hbroken : ∀ job t, Broken job t → fin t)
    (hdone : ∀ job t, Done job t → P.allows t (.getJob job.id) ∧
      ∀ r, P.expects t (.getJob job.id) r → fin (P.next t (.getJob job.id) r)) :
    (processNextJob ctx worker).Obeys P (fun _ => fin) t := by
  apply processNextJob_obeysTo Held Running (fun job _ => Broken job) Done ?_ hstart ?_ hsummary
    hhandle (fun job _ => hbroken job) hdone
  · refine hclaim.mono fun r t' h => ?_
    cases r with
    | error e => exact h
    | ok claimed => cases claimed <;> exact h
  · intro job processing t hrunning
    obtain ⟨hallow, hnext⟩ := htranscode job processing t hrunning
    refine ⟨hallow, fun r hr => ?_⟩
    cases r with
    | ok result => exact hnext _ hr
    | error e => exact hcrash job processing _ (hnext _ hr)

/-- The records a listing returns were read one by one. -/
theorem getJobs_obeys {Inv : T → Prop} {Seen : TranscodeJob → T → Prop}
    (hkeep : ∀ job t c r, Seen job t → Seen job (P.next t c r)) {ids : List Uuid}
    (hget : ∀ id ∈ ids, ∀ t, Inv t → P.allows t (.getJob id) ∧ ∀ r, P.expects t (.getJob id) r →
      Inv (P.next t (.getJob id) r) ∧ ∀ job ∈ r, Seen job (P.next t (.getJob id) r)) :
    ∀ t, Inv t → (getJobs ids).Obeys P (fun r t' =>
      Inv t' ∧ ∀ jobs, r = .ok jobs → ∀ job ∈ jobs, Seen job t') t := by
  induction ids with
  | nil => exact fun t h => ⟨h, fun jobs hj => by cases hj; exact fun job hm => by cases hm⟩
  | cons id ids ih =>
    intro t h
    obtain ⟨hallow, hnext⟩ := hget id List.mem_cons_self t h
    refine (obeys_call_bind _ _ _).mpr ⟨hallow, fun stored hstored => ?_⟩
    obtain ⟨hinv, hseen⟩ := hnext stored hstored
    have hrest := (ih (fun id' hid => hget id' (List.mem_cons_of_mem _ hid)) _ hinv).stable
      (fun t => ∀ job ∈ stored, Seen job t)
      (fun t c r hs job hj => hkeep job t c r (hs job hj)) hseen
    refine hrest.seq ?_ (fun e t' hq => ⟨hq.1.1, fun jobs hj => by cases hj⟩)
    intro jobs t' hq
    refine ⟨hq.1.1, fun all hall job hj => ?_⟩
    cases hall
    rcases List.mem_append.mp hj with hj | hj
    · exact hq.2 job (Option.mem_toList.mp hj)
    · exact hq.1.2 jobs rfl job hj

/-- A listing asks for the set and reads the records of its members. -/
theorem listByState_obeys {Inv : T → Prop} (Listing : List Uuid → T → Prop)
    {Seen : TranscodeJob → T → Prop} (hkeep : ∀ job t c r, Seen job t → Seen job (P.next t c r))
    {state : JobState} (hlisting : ∀ ids t, Listing ids t → Inv t)
    (hmembers : P.allows t (.smembersState state))
    (hget : ∀ ids, P.expects t (.smembersState state) ids →
      Listing ids (P.next t (.smembersState state) ids) ∧ ∀ id ∈ ids, ∀ t, Listing ids t →
        P.allows t (.getJob id) ∧ ∀ r, P.expects t (.getJob id) r →
          Listing ids (P.next t (.getJob id) r) ∧ ∀ job ∈ r, Seen job (P.next t (.getJob id) r)) :
    (listByState state).Obeys P (fun r t' =>
      Inv t' ∧ ∀ jobs, r = .ok jobs → ∀ job ∈ jobs, Seen job t') t := by
  refine (obeys_call_bind _ _ _).mpr ⟨hmembers, fun ids hids => ?_⟩
  obtain ⟨hinv, hget⟩ := hget ids hids
  refine (getJobs_obeys hkeep hget _ hinv).seq ?_
    (fun e t' hq => ⟨hlisting ids t' hq.1, fun _ h => by cases h⟩)
  intro jobs t' hq
  refine ⟨hlisting ids t' hq.1, fun listed hlisted job hj => hq.2 jobs rfl job ?_⟩
  cases hlisted
  exact (List.mem_insertionSort _).mp (List.mem_of_mem_drop (List.mem_of_mem_take hj))

/-- `RecoverStaleJobs.execute` from its listings, its checks and its recoveries. -/
theorem recoverJobs_obeys {Inv : T → Prop} {Seen : TranscodeJob → T → Prop}
    (hkeep : ∀ job t c r, Seen job t → Seen job (P.next t c r))
    (hcheck : ∀ job t, Inv t → Seen job t → P.allows t (.existsHeartbeat job.id) ∧
      ∀ alive, P.expects t (.existsHeartbeat job.id) alive →
        Inv (P.next t (.existsHeartbeat job.id) alive) ∧ (alive = false →
          (recoverJob ctx job).Obeys P (fun _ => Inv) (P.next t (.existsHeartbeat job.id) alive)))
    {jobs : List TranscodeJob} :
    ∀ t, Inv t → (∀ job ∈ jobs, Seen job t) → (recoverJobs ctx jobs).Obeys P (fun _ => Inv) t := by
  induction jobs with
  | nil => exact fun t h _ => h
  | cons job jobs ih =>
    intro t h hseen
    have hstill : ∀ t c r, (∀ job ∈ jobs, Seen job t) → ∀ job ∈ jobs, Seen job (P.next t c r) :=
      fun t c r hs job hj => hkeep job t c r (hs job hj)
    have hrest : ∀ job ∈ jobs, Seen job t := fun job hj => hseen job (List.mem_cons_of_mem _ hj)
    obtain ⟨hallow, hnext⟩ := hcheck job t h (hseen job List.mem_cons_self)
    refine (obeys_call_bind _ _ _).mpr ⟨hallow, fun alive halive => ?_⟩
    obtain ⟨hinv, hrecover⟩ := hnext alive halive
    cases alive with
    | true => exact ih _ hinv (hstill _ _ _ hrest)
    | false =>
      refine ((hrecover rfl).stable _ hstill (hstill _ _ _ hrest)).seq ?_ (fun e t' hq => hq.1)
      intro updated t' hq
      exact (ih t' hq.1 hq.2).seq (fun _ _ h => h) (fun _ _ h => h)

theorem recoverStaleJobs_obeys (Inv : T → Prop) (Seen : TranscodeJob → T → Prop)
    (hkeep : ∀ job t c r, Seen job t → Seen job (P.next t c r))
    (hlist : ∀ state t, state.Held → Inv t → (listByState state).Obeys P (fun r t' =>
      Inv t' ∧ ∀ jobs, r = .ok jobs → ∀ job ∈ jobs, Seen job t') t)
    (hcheck : ∀ job t, Inv t → Seen job t → P.allows t (.existsHeartbeat job.id) ∧
      ∀ alive, P.expects t (.existsHeartbeat job.id) alive →
        Inv (P.next t (.existsHeartbeat job.id) alive) ∧ (alive = false →
          (recoverJob ctx job).Obeys P (fun _ => Inv) (P.next t (.existsHeartbeat job.id) alive)))
    (h : Inv t) : (recoverStaleJobs ctx).Obeys P (fun _ => Inv) t := by
  unfold recoverStaleJobs
  refine (hlist .claimed t (.inl rfl) h).seq (fun claimed t₁ h₁ => ?_) (fun _ _ h => h.1)
  refine (recoverJobs_obeys hkeep hcheck t₁ h₁.1 (h₁.2 claimed rfl)).seq (fun _ t₂ h₂ => ?_)
    (fun _ _ h => h)
  refine (hlist .processing t₂ (.inr rfl) h₂).seq (fun processing t₃ h₃ => ?_) (fun _ _ h => h.1)
  exact (recoverJobs_obeys hkeep hcheck t₃ h₃.1 (h₃.2 processing rfl)).seq (fun _ _ h => h)
    (fun _ _ h => h)

/-- A scan from what `EnqueueJob` and a probe do. -/
theorem scanInputFolder_obeys {Inv : T → Prop}
    (hprobe : ∀ path t, Inv t → P.allows t (.probe path) ∧
      ∀ r, P.expects t (.probe path) r → Inv (P.next t (.probe path) r))
    (henqueue : ∀ probed chosen t, Inv t →
      (enqueueJob ctx probed chosen).Obeys P (fun _ => Inv) t) {candidates : List ProbedInput} :
    ∀ t, Inv t → (scanInputFolder ctx candidates).Obeys P (fun _ => Inv) t := by
  induction candidates with
  | nil => exact fun t h => h
  | cons candidate candidates ih =>
    intro t h
    have hprobed : (probeInputFile ctx candidate).Obeys P (fun _ => Inv) t := by
      have hmedia : (mediaProberProbe ctx candidate.path).Obeys P (fun _ => Inv) t := by
        refine (obeys_call_bind _ _ _).mpr ⟨(hprobe _ t h).1, fun r hr => ?_⟩
        refine (obeys_bind _ _ _).mpr ((obeys_ofExcept _ _).mpr ?_)
        cases r with
        | error e => exact (hprobe _ t h).2 _ hr
        | ok media => exact (obeys_ofExcept _ _).mpr ((hprobe _ t h).2 _ hr)
      unfold probeInputFile
      refine hmedia.seq (fun probed t' h' => ?_) (fun _ _ h => h)
      split <;> exact h'
    unfold scanInputFolder
    refine hprobed.seq (fun probed t₁ h₁ => ?_) (fun _ _ h => h)
    refine (obeys_bind _ _ _).mpr ((obeys_ofExcept _ _).mpr ?_)
    cases matchProfile ctx.py ctx.config.toRawConfig probed with
    | error e => exact h₁
    | ok chosen =>
      cases chosen with
      | none => exact ih t₁ h₁
      | some chosen =>
        refine (henqueue probed chosen t₁ h₁).seq (fun job t₂ h₂ => ?_) (fun _ _ h => h)
        exact (ih t₂ h₂).seq (fun _ _ h => h) (fun _ _ h => h)

end

end Vshift
