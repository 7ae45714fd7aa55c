import Vshift.Processes
import Vshift.Persistence

/- What the use cases save is a copy of what they read.

   `Inherited Φ` says that the five updates of a record keep `Φ`. A worker's round
   and a recovery pass that read records satisfying such a `Φ` save only records
   satisfying it (`processNextJob_saves`, `recoverStaleJobs_saves`): with `Copy`
   for `Φ`, copies of the job as it was created. `stored_kept` carries `Kept` along
   every run of a deployment, so that as far as the enqueued profiles have finite
   floats, a store of documents holds at every step what the store of records
   does. -/
namespace Vshift
open Command Program

/-- Kept by every update of a record that a use case makes. -/
structure Inherited (Φ : TranscodeJob → Prop) : Prop where
  claimed : ∀ {job} worker now, Φ job → Φ (job.claimedBy worker now)
  started : ∀ {job} now, Φ job → Φ (job.started now)
  completed : ∀ {job} now, Φ job → Φ (job.completed now)
  failed : ∀ {job} error now, Φ job → Φ (job.failed error now)
  requeued : ∀ {job} error, Φ job → Φ (job.requeued error)

theorem kept_inherited : Inherited Json.transcodeJob.Kept where
  claimed worker now h := (Copy.created.claimed worker now).kept h
  started now h := (Copy.created.started now).kept h
  completed now h := (Copy.created.completed now).kept h
  failed error now h := (Copy.created.failed error now).kept h
  requeued error h := (Copy.created.requeued error).kept h

/-- Records read satisfy `Φ`, and so do records saved. -/
def passing (Φ : TranscodeJob → Prop) : Protocol Cmd Reply Unit where
  allows _
    | .setJob job _ => Φ job
    | _ => True
  expects _
    | .getJob _, r => ∀ job ∈ r, Φ job
    | _, _ => True
  next t _ _ := t

section
variable {ctx : Context} {Φ : TranscodeJob → Prop} {job : TranscodeJob} {worker : Uuid}

theorem saveJob_saves (h : Φ job) : (saveJob ctx job).Obeys (passing Φ) (fun _ _ => True) () := by
  have hset : Replaces (passing Φ) ctx job (fun _ _ => True) () :=
    ⟨h, fun _ _ => ⟨trivial, fun _ _ => trivial⟩⟩
  apply saveJob_obeys trivial
  · exact fun _ _ _ => hset
  · exact fun _ _ _ => ⟨trivial, fun _ _ => hset⟩

/-- A copy stamped with the time is saved. -/
theorem stamp_saves {α : Type} (copy : DateTime → TranscodeJob) {f : DateTime → Prog α}
    {Q : Except Exn α → Unit → Prop} (hcopy : ∀ now, Φ (copy now))
    (hrest : ∀ now, (f now).Obeys (passing Φ) Q ()) (herr : ∀ e, Q (.error e) ()) :
    (cmd .now >>= fun now => saveJob ctx (copy now) >>= fun _ => f now).Obeys (passing Φ) Q () := by
  refine (obeys_call_bind _ _ _).mpr ⟨trivial, fun now _ => ?_⟩
  exact (saveJob_saves (hcopy now)).seq (fun _ _ _ => hrest now) (fun e _ _ => herr e)

theorem heartbeat_saves : (heartbeat ctx worker).Obeys (passing Φ) (fun _ _ => True) () := by
  refine (obeys_call_bind _ _ _).mpr ⟨trivial, fun payload _ => ?_⟩
  cases payload with
  | none => trivial
  | some info => exact ⟨trivial, fun _ _ => ⟨trivial, fun _ _ => trivial⟩⟩

theorem claimJob_saves (hΦ : Inherited Φ) :
    (claimJob ctx worker).Obeys (passing Φ) (fun r _ => ∀ job, r = .ok (some job) → Φ job) () := by
  refine (obeys_call_bind _ _ _).mpr ⟨trivial, fun popped _ => ?_⟩
  cases popped with
  | none => exact fun job h => by cases h
  | some id =>
    refine (obeys_call_bind _ _ _).mpr ⟨trivial, fun stored hstored => ?_⟩
    cases stored with
    | none => exact fun job h => by cases h
    | some job =>
      have hjob := hstored job rfl
      dsimp only
      split
      · exact fun job h => by cases h
      · refine transitionTo_obeys (fun _ => ?_) (fun _ _ h => by cases h)
        apply stamp_saves (job.claimedBy worker)
        · exact fun now => hΦ.claimed worker now hjob
        · intro now
          refine (obeys_call_bind _ _ _).mpr ⟨trivial, fun _ _ => ?_⟩
          refine heartbeat_saves.seq (fun _ _ _ => ?_) (fun _ _ _ _ h => by cases h)
          intro claimed heq
          cases heq
          exact hΦ.claimed worker now hjob
        · exact fun e job h => by cases h

theorem startTranscode_saves (hΦ : Inherited Φ) (h : Φ job) :
    (startTranscode ctx worker job).Obeys (passing Φ)
      (fun r _ => ∀ processing, r = .ok processing → Φ processing) () := by
  unfold startTranscode
  have hassert : (assertWorkerOwnsJob worker job).Obeys (passing Φ) (fun _ _ => True) () := by
    unfold assertWorkerOwnsJob
    split
    · trivial
    · split <;> trivial
  refine hassert.seq (fun _ _ _ => ?_) (fun _ _ _ _ h => by cases h)
  refine transitionTo_obeys (fun _ => ?_) (fun _ _ h => by cases h)
  apply stamp_saves job.started
  · exact fun now => hΦ.started now h
  · intro now
    refine ⟨trivial, fun _ _ processing heq => ?_⟩
    cases heq
    exact hΦ.started now h
  · exact fun e processing h => by cases h

theorem writeSummary_saves (hΦ : Inherited Φ) (h : Φ job) (result : TranscodeResult) :
    (writeSummary ctx job result).Obeys (passing Φ) (fun _ _ => True) () := by
  unfold writeSummary
  split
  · trivial
  · refine (obeys_call_bind _ _ _).mpr ⟨trivial, fun outcome _ => ?_⟩
    refine (obeys_bind _ _ _).mpr ((obeys_ofExcept _ _).mpr ?_)
    cases outcome with
    | error e => trivial
    | ok summary =>
      refine (obeys_call_bind _ _ _).mpr ⟨trivial, fun _ _ => ?_⟩
      refine transitionTo_obeys (fun _ => ?_) (fun _ => trivial)
      exact stamp_saves job.completed (fun now => hΦ.completed now h) (fun _ => trivial)
        (fun _ => trivial)

theorem failJob_saves (hΦ : Inherited Φ) (h : Φ job) (error : String) :
    (failJob ctx job error).Obeys (passing Φ) (fun _ _ => True) () := by
  refine transitionTo_obeys (fun _ => ?_) (fun _ => trivial)
  exact stamp_saves (job.failed error) (fun now => hΦ.failed error now h)
    (fun _ => ⟨trivial, fun _ _ => trivial⟩) (fun _ => trivial)

theorem requeueJob_saves (hΦ : Inherited Φ) (h : Φ job) (error : String) :
    (requeueJob ctx job error).Obeys (passing Φ) (fun _ _ => True) () := by
  refine transitionTo_obeys (fun _ => ?_) (fun _ => trivial)
  refine (saveJob_saves (hΦ.requeued error h)).seq (fun _ _ _ => ?_) (fun _ _ _ => trivial)
  exact ⟨trivial, fun _ _ => trivial⟩

theorem handleError_saves (hΦ : Inherited Φ) (h : Φ job) (message : String) :
    (handleError ctx worker job message).Obeys (passing Φ) (fun _ _ => True) () := by
  refine (obeys_call_bind _ _ _).mpr ⟨trivial, fun stored hstored => ?_⟩
  -- without a record the handler goes on from the copy that was claimed
  have hcurrent : Φ (stored.getD job) := by
    cases stored with
    | none => exact h
    | some current => exact hstored current rfl
  unfold handleJobFailure
  split
  · trivial
  · split
    · trivial
    · split
      · exact failJob_saves hΦ hcurrent message
      · exact requeueJob_saves hΦ hcurrent message

theorem processNextJob_saves (ctx : Context) (worker : Uuid) (hΦ : Inherited Φ) :
    (processNextJob ctx worker).Obeys (passing Φ) (fun _ _ => True) () := by
  apply processNextJob_obeys (fun job _ => Φ job) (fun job processing _ => Φ job ∧ Φ processing)
    (fun job _ => Φ job) (fun _ _ => True)
  · refine (claimJob_saves hΦ).mono fun r t h => ?_
    split
    · exact h _ rfl
    · trivial
  · intro job t hjob
    refine (startTranscode_saves hΦ hjob).mono fun r t h => ?_
    split
    · exact ⟨hjob, h _ rfl⟩
    · exact hjob
  · exact fun _ _ _ h => ⟨trivial, fun _ _ => h⟩
  · intro job processing result t h
    refine (writeSummary_saves hΦ h.2 result).mono fun r t _ => ?_
    split
    · trivial
    · exact h.1
  · exact fun _ _ _ h => h.1
  · exact fun _ message _ h => handleError_saves hΦ h message
  · exact fun _ _ _ => trivial
  · exact fun _ _ _ => ⟨trivial, fun _ _ => trivial⟩

theorem recoverStaleJobs_saves (ctx : Context) (hΦ : Inherited Φ) :
    (recoverStaleJobs ctx).Obeys (passing Φ) (fun _ _ => True) () := by
  apply recoverStaleJobs_obeys (fun _ => True) (fun job _ => Φ job)
  · exact fun _ _ _ _ h => h
  · intro state t _ _
    refine listByState_obeys (fun _ _ => True) (fun _ _ _ _ h => h) (fun _ _ _ => trivial)
      trivial ?_
    exact fun _ _ => ⟨trivial, fun id _ t _ => ⟨trivial, fun r hr => ⟨trivial, hr⟩⟩⟩
  · intro job t _ hjob
    refine ⟨trivial, fun alive _ => ⟨trivial, fun _ => ?_⟩⟩
    unfold recoverJob
    split
    · exact failJob_saves hΦ hjob _
    · exact requeueJob_saves hΦ hjob _
  · trivial

theorem enqueueJob_saves {probed : ProbedInput} {chosen : ProfileMatch}
    (h : ∀ id now, Φ (newJob ctx probed chosen id now)) :
    (enqueueJob ctx probed chosen).Obeys (passing Φ) (fun _ _ => True) () := by
  refine (obeys_call_bind _ _ _).mpr ⟨trivial, fun known _ => ?_⟩
  cases known with
  | true => trivial
  | false =>
    refine (obeys_call_bind _ _ _).mpr ⟨trivial, fun id _ => ?_⟩
    refine (obeys_call_bind _ _ _).mpr ⟨trivial, fun now _ => ?_⟩
    refine (saveJob_saves (h id now)).seq (fun _ _ _ => ?_) (fun _ _ _ => trivial)
    exact ⟨trivial, fun _ _ => ⟨trivial, fun _ _ => trivial⟩⟩

end

/-! Runs. -/

/-- A job is only enqueued with a profile that the codec keeps. -/
def EnqueuesKept : Act → Prop
  | .spawn (.enqueueJob _ chosen) => Json.vshiftProfile.Kept chosen.profile
  | _ => True

section
variable {ctx : Context}

theorem newJob_kept {probed : ProbedInput} {chosen : ProfileMatch}
    (h : Json.vshiftProfile.Kept chosen.profile) (id : Uuid) (now : DateTime) :
    Json.transcodeJob.Kept (newJob ctx probed chosen id now) := by
  obtain ⟨hfinite, hvalid⟩ := Json.vshiftProfile_kept.mp h
  exact Json.transcodeJob_kept.mpr ⟨hfinite, hvalid, Nat.le_refl 1⟩

/-- The profile of a match is one of the configuration's. -/
theorem chosen_kept (hconfig : ∀ entry ∈ ctx.config.profiles, entry.2.video.Finite)
    {probed : ProbedInput} {chosen : ProfileMatch}
    (h : matchProfile ctx.py ctx.config.toRawConfig probed = .ok (some chosen)) :
    Json.vshiftProfile.Kept chosen.profile := by
  obtain ⟨name, hprofile⟩ := chosen_profile h
  obtain ⟨entry, hmem, heq⟩ := mem_of_profile? hprofile
  exact Json.vshiftProfile_kept.mpr ⟨heq ▸ hconfig entry hmem, chosen_valid h⟩

theorem scanInputFolder_saves (hconfig : ∀ entry ∈ ctx.config.profiles, entry.2.video.Finite)
    (candidates : List ProbedInput) : (scanInputFolder ctx candidates).Obeys
      (passing Json.transcodeJob.Kept) (fun _ _ => True) () := by
  induction candidates with
  | nil => trivial
  | cons candidate candidates ih =>
    have hprobe : (probeInputFile ctx candidate).Obeys (passing Json.transcodeJob.Kept)
        (fun _ _ => True) () := by
      refine (obeys_bind _ _ _).mpr ((obeys_call_bind _ _ _).mpr ⟨trivial, fun outcome _ => ?_⟩)
      refine (obeys_bind _ _ _).mpr ((obeys_ofExcept _ _).mpr ?_)
      cases outcome with
      | error e => trivial
      | ok media =>
        refine (obeys_ofExcept _ _).mpr ?_
        cases validateProbed _ with
        | error e => trivial
        | ok probed =>
          rw [andThen_ok]
          split <;> trivial
    unfold scanInputFolder
    refine hprobe.seq (fun probed _ _ => ?_) (fun _ _ _ => trivial)
    refine (obeys_bind _ _ _).mpr ((obeys_ofExcept _ _).mpr ?_)
    cases hmatch : matchProfile ctx.py ctx.config.toRawConfig probed with
    | error e => trivial
    | ok chosen =>
      cases chosen with
      | none => exact ih
      | some chosen =>
        have hjob : ∀ id now, Json.transcodeJob.Kept (newJob ctx probed chosen id now) :=
          newJob_kept (chosen_kept hconfig hmatch)
        refine (enqueueJob_saves hjob).seq (fun job _ _ => ?_) (fun _ _ _ => trivial)
        exact ih.seq (fun _ _ _ => trivial) (fun _ _ _ => trivial)

theorem code_saves (hconfig : ∀ entry ∈ ctx.config.profiles, entry.2.video.Finite) {l : Label}
    (h : EnqueuesKept (.spawn l)) :
    (code ctx l).Obeys (passing Json.transcodeJob.Kept) (fun _ _ => True) () := by
  cases l with
  | enqueueJob probed chosen =>
    exact (obeys_discard _ _).mpr (enqueueJob_saves (newJob_kept h))
  | scanInputFolder candidates =>
    exact (obeys_discard _ _).mpr (scanInputFolder_saves hconfig candidates)
  | recoverStaleJobs => exact (obeys_discard _ _).mpr (recoverStaleJobs_saves ctx kept_inherited)
  | processNextJob worker =>
    exact (obeys_discard _ _).mpr (processNextJob_saves ctx worker kept_inherited)

theorem World.Kept.update {w w' : World} (h : w.Kept) {job : TranscodeJob}
    (hjob : Json.transcodeJob.Kept job)
    (hjobs : w'.jobs = Function.update w.jobs job.id (some job)) : w'.Kept := by
  intro id stored hstored
  rw [hjobs, Function.update_apply] at hstored
  split at hstored
  · cases hstored
    exact hjob
  · exact h id stored hstored

/-- What a command of a process that saves only kept records leaves. -/
theorem World.Kept.effect {w : World} (h : w.Kept) {c : Cmd} (r : Reply c)
    (hc : (passing Json.transcodeJob.Kept).allows () c) : (w.effect c r).Kept := by
  cases c with
  | setJob job ex => exact h.update hc rfl
  | _ => exact h

theorem World.Kept.environment {w : World} (h : w.Kept) (e : EnvEvent) :
    (World.environment e w).Kept := by
  cases e with
  | media path outcome => exact h
  | clock t => exact h
  | expire key =>
    cases key with
    | job gone =>
      intro id stored hstored
      have hstored' : Function.update w.jobs gone none id = some stored := hstored
      rw [Function.update_apply] at hstored'
      split at hstored'
      · cases hstored'
      · exact h id stored hstored'
    | _ => exact h

abbrev KeepsRecords (s : Cluster) : Prop :=
  Obeying (passing Json.transcodeJob.Kept) (fun _ => ()) (fun _ => True) s ∧ s.store.Kept

theorem keepsRecords_step (hconfig : ∀ entry ∈ ctx.config.profiles, entry.2.video.Finite)
    (s : Cluster) (a : Act) (h : KeepsRecords s) (hok : EnqueuesKept a) :
    KeepsRecords ((deployment ctx).step s a) := by
  obtain ⟨hob, hkept⟩ := h
  apply pool_step (fun w _ => w.Kept) hob hkept (S := deployment ctx)
  · intro l ha
    subst ha
    exact code_saves hconfig hok
  · exact fun _ _ _ _ => hkept
  · intro pid x l past c k r _ _ _ hallow hr
    refine ⟨?_, hkept.effect r hallow⟩
    cases c with
    | getJob id =>
      cases hr
      exact fun job hjob => hkept id job hjob
    | _ => trivial
  · exact fun e _ => hkept.environment e

end

/-- With finite floats in every profile, what is stored can be read back at any time. -/
theorem stored_kept (ctx : Context)
    (hconfig : ∀ entry ∈ ctx.config.profiles, entry.2.video.Finite) (as : List Act)
    (h : ∀ a ∈ as, EnqueuesKept a) : ((deployment ctx).run Cluster.initial as).store.Kept := by
  refine (run_invariant KeepsRecords (keepsRecords_step hconfig) ⟨?_, ?_⟩
    (meets_of_forall (fun a ha _ => h a ha) _)).2
  · exact fun p hp => nomatch hp
  · exact fun id job hj => nomatch hj

end Vshift
