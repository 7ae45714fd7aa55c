import Vshift.Inlining
import Vshift.Filing
import Vshift.Custody
import Vshift.Parallel
import Vshift.Encoders

/- The deployment with its transcoders.

   In `deployment` a worker's calls of the transcoder port are single commands with any outcome.
   Here they are what `FfmpegTranscoder` does, command by command, on the host of the workers:
   `hosted` has the Redis server and the files of the host in one state, and its processes are
   interleaved at the commands to either and killed between any two. Whatever it does the
   deployment does too, with the same server and the same records in the processes' pasts
   (`hosted_refines`).

   What a process may say of a job it says of the files. As long as a job is transcoded by one live
   process at a time, and no other program writes to a temporary file in use, the output of a job
   stored as completed is all there (`completed_output`). Where nothing dies or lapses, that no two
   transcode one job follows from the custody of jobs in the deployment (`quiet_output`). -/
namespace Vshift
open Command Program

/-- The transcoder port: `FfmpegTranscoder`, with the clock and the arithmetic of each summary. -/
structure Port where
  transcoder : FfmpegTranscoder
  measures : TranscodeJob → TranscodeResult → Measures

namespace Port

/-- The call of `transcode` for a job. -/
def call (port : Port) (job : TranscodeJob) : Transcoding := ⟨port.transcoder, job⟩

theorem call_output (port : Port) (job : TranscodeJob) :
    (port.call job).output = job.outputPath := by
  unfold Transcoding.output
  rfl

/-- What is carried out on the host. -/
def bodies (port : Port) : Bodies Cmd HostCmd Reply HostReply Exn
  | .transcode job => some (port.transcoder.transcode job).attempt
  | .buildSummary job result =>
    some (port.transcoder.buildSummary (port.measures job result) job result).attempt
  | _ => none

end Port

abbrev HostedCmd := Nested Cmd HostCmd

abbrev HostedReply := Nested.Reply Reply HostReply

abbrev HostedProc := Process Label HostedCmd HostedReply Exn

/-- The server, the files of the host, and the processes started so far. -/
abbrev HostedCluster := Pool (World × Site) Label HostedCmd HostedReply Exn

abbrev HostedAct := Action Label (Choice × Unit) (EnvEvent ⊕ FileChange)

def hosted (ctx : Context) (port : Port) (h : Host) : System (World × Site) Label HostedCmd
    (Choice × Unit) (EnvEvent ⊕ FileChange) HostedReply Exn :=
  (deployment ctx).inlined port.bodies h.machine fun e s => s.write e.path e.content

/-- An empty server, the files of the host, and no process. -/
def HostedCluster.initial (files : Path → Option Bytes) : HostedCluster :=
  ⟨(.empty, ⟨files, []⟩), []⟩

/-! The calls do what the deployment takes them for. -/

theorem buildSummary_jobId (transcoder : FfmpegTranscoder) (measures : Measures)
    (job : TranscodeJob) (result : TranscodeResult) :
    (transcoder.buildSummary measures job result).Returns
      (fun summary => summary.jobId = job.id) := by
  apply Returns.bind
  intro inputProbe
  apply Returns.bind
  intro outputProbe
  apply Returns.bind
  intro startedAt
  apply Returns.bind
  intro ratio
  split
  · exact rfl
  · trivial

theorem bodies_faithful (port : Port) : port.bodies.Faithful redis where
  starts c body hc := by
    cases c with
    | transcode job =>
      cases hc
      exact ⟨_, _, rfl⟩
    | buildSummary job result =>
      cases hc
      exact ⟨_, _, rfl⟩
    | _ => cases hc
  answers c body hc := by
    cases c with
    | transcode job =>
      cases hc
      have hfree : ∀ r, redis.Free (.transcode job) r := fun r s => ⟨⟨.transcoded r, rfl⟩, rfl⟩
      exact yields_attempt (returns_of_forall (fun result => hfree (.ok result)) _)
        fun e => hfree (.error e)
    | buildSummary job result =>
      cases hc
      refine yields_attempt (Returns.mono (buildSummary_jobId _ _ _ _) fun summary hid s => ?_)
        fun e s => ⟨⟨.summarised (.error e), rfl⟩, rfl⟩
      exact ⟨⟨.summarised (.ok summary), if_pos hid⟩, rfl⟩
    | _ => cases hc

/-- Whatever the processes do whose transcoders work on the host, command by command, processes
    whose transcoders answer in one command do too, with some of the actions in their order: at the
    end the server holds the same, and each process has exchanged the same with it. -/
theorem hosted_refines (ctx : Context) (port : Port) (h : Host) (files : Path → Option Bytes)
    (acts : List HostedAct) :
    ∃ (shown : List HostedAct) (acts' : List Act), shown.Sublist acts ∧
      List.Forall₂ Shows shown acts' ∧
      Matches port.bodies redis ((hosted ctx port h).run (HostedCluster.initial files) acts)
        ((deployment ctx).run Cluster.initial acts') := by
  have hinitial : Matches port.bodies redis (HostedCluster.initial files) Cluster.initial :=
    ⟨rfl, .nil⟩
  have hany : Meets (hosted ctx port h).step (fun _ _ => True) (HostedCluster.initial files) acts :=
    meets_of_forall (fun _ _ _ => trivial) _
  obtain ⟨shown, acts', hsub, hshown, -, hmatches⟩ := inlined_run (S := deployment ctx) _ _
    (bodies_faithful port) (fun _ _ _ _ _ _ h => h) hinitial hany
  exact ⟨shown, acts', hsub, hshown, hmatches⟩

/-! What a process may say of a job, and what it knows of the files. -/

/-- A successful rename. -/
def replaced : (c : HostCmd) → HostReply c → Bool
  | .replace _ _, .ok _ => true
  | _, _ => false

/-- Whether there was a rename. -/
def replacing : Protocol HostCmd HostReply Bool where
  allows _ _ := True
  expects _ _ _ := True
  next t c r := t || replaced c r

theorem replacing_any {α : Type} (p : HostProg α) (t : Bool) :
    p.Obeys replacing (fun _ t' => t = true → t' = true) t := by
  induction p generalizing t with
  | done a => exact fun h => h
  | raise e => exact fun h => h
  | ask c k ih =>
    refine ⟨trivial, fun r _ => (ih r _).mono fun _ _ h ht => h ?_⟩
    show (t || _) = true
    rw [ht, Bool.true_or]

/-- A step whose result is not looked at. -/
theorem replacing_then {α β : Type} {p : HostProg α} {f : α → HostProg β} {t : Bool}
    (hf : ∀ a t', (f a).Obeys replacing (Ensures fun _ t => t = true) t') :
    (p >>= f).Obeys replacing (Ensures fun _ t => t = true) t :=
  (replacing_any p t).seq (fun a t' _ => hf a t') fun _ _ _ => ensures_error

section
variable (transcoder : FfmpegTranscoder) (job : TranscodeJob) (temp : Path)

theorem publish_replaces (wallClockSeconds : Rat) (t : Bool) :
    (transcoder.publish job temp wallClockSeconds).Obeys replacing
      (Ensures fun _ t => t = true) t := by
  refine (obeys_call_bind _ _ _).mpr ⟨trivial, fun outcome _ => ?_⟩
  cases outcome with
  | error name => exact ensures_error
  | ok u =>
    have ht : replacing.next t (.replace temp job.outputPath) (.ok u) = true := Bool.or_true t
    rw [ht]
    exact (replacing_any _ true).mono fun _ _ h _ _ => h rfl

theorem finish_replaces (started : Rat) (completed : Completed) (t : Bool) :
    (transcoder.finish job temp started completed).Obeys replacing
      (Ensures fun _ t => t = true) t := by
  refine replacing_then fun finished t => ?_
  split
  · exact replacing_then fun _ _ => ensures_error
  · exact publish_replaces transcoder job temp _ t

/-- A transcoding that returns a result has renamed its file. -/
theorem transcode_replaces (t : Bool) :
    (transcoder.transcode job).Obeys replacing (Ensures fun _ t => t = true) t := by
  refine replacing_then fun present t => ?_
  split
  · exact ensures_error
  · refine replacing_then fun _ t => replacing_then fun _ t => replacing_then fun _ t => ?_
    refine replacing_then fun videoEncoder t => replacing_then fun command t => ?_
    refine replacing_then fun started t => replacing_then fun first t => ?_
    exact replacing_then fun completed t => finish_replaces transcoder job _ started completed t

end

/-- A program that changes no file. -/
def looking : Protocol HostCmd HostReply Unit where
  allows _ c := c.Looks
  expects _ _ _ := True
  next t _ _ := t

/-- What a process knows of the files of the host. -/
structure Desk where
  /-- The job whose file is finished and not yet renamed. -/
  ready : Option TranscodeJob
  /-- The outputs it has put in their places. -/
  made : List Path

namespace Desk

def initial : Desk := ⟨none, []⟩

/-- What it knows, inside a transcoding. -/
def bench (t : Desk) (l : Transcoding) : Bench := ⟨l, t.ready.isSome⟩

/-- After a command inside a transcoding. -/
def next (t : Desk) (l : Transcoding) (c : HostCmd) (r : HostReply c) : Desk where
  ready := if (publishing.next (t.bench l) c r).ready then some l.job else none
  made := if replaced c r then l.output :: t.made else t.made

section
variable (t : Desk) (l : Transcoding) (c : HostCmd) (r : HostReply c)

theorem bench_next : (t.next l c r).bench l = publishing.next (t.bench l) c r := by
  have hcall := next_call (t.bench l) c r
  unfold next bench at *
  generalize publishing.next _ c r = b at hcall ⊢
  obtain ⟨call, ready⟩ := b
  cases hcall
  cases ready <;> rfl

theorem ready_next : ∀ job ∈ (t.next l c r).ready, job = l.job := by
  intro job hjob
  unfold next at hjob
  dsimp only at hjob
  split at hjob
  · exact (Option.mem_some_iff.mp hjob).symm
  · cases hjob

theorem made_next (path : Path) : path ∈ (t.next l c r).made ↔
    path ∈ t.made ∨ replaced c r = true ∧ path = l.output := by
  unfold next
  dsimp only
  split
  · next hr => rw [List.mem_cons, or_comm, and_iff_right hr]
  · next hr => rw [or_iff_left fun h => hr h.1]

end

end Desk

variable (port : Port)

/-- A job is stored as completed only if its output is in its place, and a process that has a
    finished file renames it before it does anything else. -/
def hosting : Protocol HostedCmd HostedReply Desk where
  allows
    | t, .own (.setJob job _) =>
      t.ready = none ∧ (job.state = .completed → job.outputPath ∈ t.made)
    | t, .own _ => t.ready = none
    | t, .inner (.transcode job) c =>
      (∀ other ∈ t.ready, other = job) ∧ publishing.allows (t.bench (port.call job)) c
    | t, .inner _ c => t.ready = none ∧ c.Looks
  expects _ _ _ := True
  next
    | t, .inner (.transcode job) c, r => t.next (port.call job) c r
    | t, _, _ => t

section
variable {port} {t : Clerk} {t' : Desk} {job : TranscodeJob}

/-- What a process knows of the jobs it knows of the files. -/
def Clerk.Shown (t : Clerk) (t' : Desk) : Prop :=
  t'.ready = none ∧ ∀ before ∈ t.transcoded, before.outputPath ∈ t'.made

theorem hosting_own {c : Cmd} (h : t.Shown t') (hc : port.bodies c = none)
    (ha : filing.allows t c) : (hosting port).allows t' (.own c) ∧
      ∀ r, filing.expects t c r ∧ Clerk.Shown (filing.next t c r) t' := by
  have hready := h.1
  cases c with
  | transcode job => cases hc
  | buildSummary job result => cases hc
  | setJob job ex =>
    refine ⟨⟨hready, fun hs => ?_⟩, fun r => ⟨trivial, hready, ?_⟩⟩
    · obtain ⟨⟨before, hmem, -, hpath⟩, -⟩ := ha.2 hs
      exact hpath ▸ h.2 before hmem
    · show ∀ before ∈ (t.stored job).transcoded, _
      unfold Clerk.stored
      split <;> exact h.2
  | saddState state id =>
    refine ⟨hready, fun r => ⟨trivial, hready, ?_⟩⟩
    show ∀ before ∈ (if t.failing = .stored id then _ else t : Clerk).transcoded, _
    split <;> exact h.2
  | _ => exact ⟨hready, fun r => ⟨trivial, hready, h.2⟩⟩

theorem hosting_transcode (h : t.Shown t') (ha : filing.allows t (.transcode job)) :
    ((port.transcoder.transcode job).attempt.inside (.transcode job)).Obeys (hosting port)
      (fun outcome t'' => ∃ r, outcome = .ok r ∧ filing.expects t (.transcode job) r ∧
        Clerk.Shown (filing.next t (.transcode job) r) t'') t' := by
  have hbody : (port.transcoder.transcode job).attempt.Obeys (publishing.both replacing)
      (fun outcome b => ∃ r, outcome = .ok r ∧ b.1.ready = false ∧
        Ensures (fun _ done => done = true) r b.2) (.initial (port.call job), false) := by
    refine (obeys_attempt _ _).mpr ?_
    exact ((transcode_publishes (port.call job)).both (transcode_replaces _ _ false)).mono
      fun r b h => ⟨r, rfl, h⟩
  refine (obeys_inside (fun (b : Bench × Bool) t'' => b.1 = t''.bench (port.call job) ∧
    (∀ other ∈ t''.ready, other = job) ∧ (b.2 = true → (port.call job).output ∈ t''.made) ∧
    ∀ path ∈ t'.made, path ∈ t''.made) ?_ hbody ?_).mono ?_
  · rintro ⟨b, done⟩ t'' c ⟨rfl, hready, hmade, hmore⟩ hallows
    refine ⟨⟨hready, hallows.1⟩, fun r _ => ⟨⟨trivial, trivial⟩, ?_, ?_, ?_, ?_⟩⟩
    · exact (Desk.bench_next t'' (port.call job) c r).symm
    · exact Desk.ready_next t'' (port.call job) c r
    · intro hdone
      rcases Bool.or_eq_true_iff.mp hdone with hbefore | hr
      · exact (Desk.made_next ..).mpr (.inl (hmade hbefore))
      · exact (Desk.made_next ..).mpr (.inr ⟨hr, rfl⟩)
    · exact fun path hpath => (Desk.made_next ..).mpr (.inl (hmore path hpath))
  · refine ⟨?_, fun other hother => ?_, fun hdone => (by cases hdone), fun _ hpath => hpath⟩
    · rw [Desk.bench, h.1]
      rfl
    · rw [h.1] at hother
      cases hother
  · rintro outcome t'' ⟨⟨b, done⟩, ⟨rfl, -, hmade, hmore⟩, r, rfl, hready, hdone⟩
    have hnone : t''.ready = none := Option.not_isSome_iff_eq_none.mp (by
      rw [Bool.not_eq_true]
      exact hready)
    refine ⟨r, rfl, trivial, hnone, ?_⟩
    cases r with
    | error e => exact fun before hbefore => hmore _ (h.2 before hbefore)
    | ok result =>
      intro before hbefore
      rcases List.mem_cons.mp hbefore with rfl | hbefore
      · exact port.call_output before ▸ hmade (hdone result rfl)
      · exact hmore _ (h.2 before hbefore)

theorem ffmpegProbe_looks (lower : String → String) (path : Path) :
    (ffmpegProbe lower path).Obeys looking (fun _ _ => True) () := by
  refine ⟨trivial, fun present _ => ?_⟩
  cases present with
  | false => trivial
  | true =>
    refine ⟨trivial, fun probed _ => ?_⟩
    cases probed with
    | result result =>
      show (ite _ _ _ : HostProg MediaProbe).Obeys looking _ _
      split
      · exact ⟨trivial, fun _ _ => trivial⟩
      · trivial
    | _ => trivial

theorem buildSummary_looks (transcoder : FfmpegTranscoder) (measures : Measures)
    (job : TranscodeJob) (result : TranscodeResult) :
    (transcoder.buildSummary measures job result).Obeys looking (fun _ _ => True) () := by
  unfold FfmpegTranscoder.buildSummary
  refine (ffmpegProbe_looks _ _).seq (fun inputProbe _ _ => ?_) fun _ _ _ => trivial
  refine (ffmpegProbe_looks _ _).seq (fun outputProbe _ _ => ?_) fun _ _ _ => trivial
  refine (obeys_bind _ _ _).mpr ((obeys_ofExcept _ _).mpr ?_)
  cases measures.startedAt result.wallClockSeconds with
  | error e => trivial
  | ok startedAt =>
    refine (obeys_bind _ _ _).mpr ((obeys_ofExcept _ _).mpr ?_)
    cases FfmpegTranscoder.compressionRatio measures inputProbe.sizeBytes
      outputProbe.sizeBytes with
    | error e => trivial
    | ok ratio =>
      show (ite _ _ _ : HostProg JobSummary).Obeys looking _ _
      split <;> trivial

theorem hosting_buildSummary {result : TranscodeResult} (measures : Measures) (h : t.Shown t') :
    ((port.transcoder.buildSummary measures job result).attempt.inside
      (.buildSummary job result)).Obeys (hosting port)
      (fun outcome t'' => ∃ r, outcome = .ok r ∧ filing.expects t (.buildSummary job result) r ∧
        Clerk.Shown (filing.next t (.buildSummary job result) r) t'') t' := by
  have hbody : (port.transcoder.buildSummary measures job result).attempt.Obeys looking
      (fun outcome _ => ∃ r, outcome = .ok r ∧ ∀ summary, r = .ok summary →
        summary.jobId = job.id) () := by
    refine (obeys_attempt _ _).mpr ?_
    exact ((buildSummary_looks _ _ _ _).returns (buildSummary_jobId _ _ _ _)).mono
      fun r _ h => ⟨r, rfl, h.2⟩
  refine (obeys_inside (fun (_ : Unit) t'' => t'' = t') ?_ hbody rfl).mono ?_
  · rintro _ t'' c rfl hlooks
    exact ⟨⟨h.1, hlooks⟩, fun r _ => ⟨trivial, rfl⟩⟩
  · rintro outcome t'' ⟨_, rfl, r, rfl, hid⟩
    exact ⟨r, rfl, hid, h⟩

/-- Every process keeps to what it knows of the files. -/
theorem code_hosting (ctx : Context) (h : Host) (l : Label) :
    ((hosted ctx port h).code l).Obeys (hosting port) (fun _ t => t.ready = none)
      Desk.initial := by
  have hinitial : Clerk.initial.Shown Desk.initial := ⟨rfl, fun before hmem => by cases hmem⟩
  refine (obeys_inline (P := filing) Clerk.Shown ?_ ?_ (code_filing ctx l) hinitial).mono ?_
  · intro t t' c hshown hc ha
    obtain ⟨hallows, hnext⟩ := hosting_own hshown hc ha
    exact ⟨hallows, fun r _ => hnext r⟩
  · intro t t' c body hshown hc ha
    cases c with
    | transcode job =>
      cases hc
      exact hosting_transcode hshown ha
    | buildSummary job result =>
      cases hc
      exact hosting_buildSummary _ hshown
    | _ => cases hc
  · rintro r t ⟨_, hshown, -⟩
    exact hshown.1

end

/-! The files under the processes. -/

/-- At the path lies all that a run of ffmpeg wrote that exited with 0, run for a job with this
    output path. -/
def Finished (h : Host) (site : Site) (path : Path) : Prop :=
  ∃ job bytes, (port.call job).WellNamed ∧ (port.call job).output = path ∧
    site.files path = some bytes ∧ Encoded h site (port.call job) (some bytes)

/-- For one path: what is stored as completed, or known to be made, is there, and who has a finished
    file has it at the temporary path of its job. -/
structure Stocked (h : Host) (path : Path) (w : World × Site) (K : Nat → Option Desk) : Prop where
  completed : ∀ {id job}, w.1.jobs id = some job → job.state = .completed →
    job.outputPath = path → Finished port h w.2 path
  made : Each (fun t => path ∈ t.made → Finished port h w.2 path) K
  ready : Each (fun t => ∀ job ∈ t.ready, (port.call job).WellNamed ∧
    Encoded h w.2 (port.call job) (w.2.files (port.call job).temp)) K

section
variable {port} {h : Host} {site : Site} {path : Path} {w : World × Site} {K : Nat → Option Desk}
  {pid : Nat} {t : Desk} {job : TranscodeJob}

theorem Host.effect_of_looks (h : Host) (site : Site) {c : HostCmd} (hc : c.Looks) :
    h.effect site c = site := by
  cases c <;> first | rfl | exact hc.elim

/-- A rename that succeeds puts the finished file in the place of the output. -/
theorem output_of_replaced {b : Bench} {c : HostCmd} (hallows : publishing.allows b c)
    (hr : replaced c (h.reply site c) = true) : b.ready = true ∧
      ∃ bytes, site.files b.call.temp = some bytes ∧
        (h.effect site c).files b.call.output = some bytes := by
  cases c with
  | replace source target =>
    obtain ⟨hready, rfl, rfl⟩ : b.ready = true ∧ source = b.call.temp ∧ target = b.call.output :=
      hallows
    refine ⟨hready, ?_⟩
    cases hfile : site.files b.call.temp with
    | none =>
      have hreply : h.reply site (.replace b.call.temp b.call.output) =
          .error "FileNotFoundError" := by simp [Host.reply, hfile]
      rw [hreply] at hr
      cases hr
    | some bytes => exact ⟨bytes, rfl, by simp [Host.effect, hfile]⟩
  | _ => cases hr

theorem Finished.change (hf : Finished port h site path) {b b' : Bool} {site' : Site}
    (hc : Change h (port.call job) site b site' b') (hnamed : (port.call job).WellNamed)
    (hbefore : b = true → Encoded h site (port.call job) (site.files (port.call job).temp)) :
    Finished port h site' path := by
  obtain ⟨first, bytes, hfirst, hpath, hfile, hencoded⟩ := hf
  obtain ⟨more, hmore⟩ := hc.runs
  by_cases hout : path = (port.call job).output
  · subst hout
    rcases hc.output (output_ne_temp hnamed hnamed) hbefore with hsame | ⟨new, hnew, hwritten⟩
    · exact ⟨first, bytes, hfirst, hpath, hsame.trans hfile, hencoded.later hmore⟩
    · exact ⟨job, new, hnamed, rfl, hnew, hwritten.later hmore⟩
  · have htemp : path ≠ (port.call job).temp := hpath ▸ output_ne_temp hfirst hnamed
    exact ⟨first, bytes, hfirst, hpath, (hc.others htemp hout).trans hfile, hencoded.later hmore⟩

/-- A command inside a transcoding, while no other process has a finished file of the same job. -/
theorem Stocked.transcodes (hs : Stocked port h path w K) (hk : K pid = some t) {c : HostCmd}
    (hallows : (hosting port).allows t (.inner (.transcode job) c))
    (hnamed : (port.call job).WellNamed)
    (hothers : ∀ i u, i ≠ pid → K i = some u → ∀ other ∈ u.ready, other.id ≠ job.id) :
    Stocked port h path (w.1, h.effect w.2 c)
      (Function.update K pid (some (t.next (port.call job) c (h.reply w.2 c)))) := by
  have hchange := @change_of_allows h w.2 _ c hallows.2
  obtain ⟨more, hmore⟩ := hchange.runs
  have hbefore : (t.bench (port.call job)).ready = true →
      Encoded h w.2 (port.call job) (w.2.files (port.call job).temp) := by
    intro hready
    obtain ⟨other, hother⟩ := Option.isSome_iff_exists.mp hready
    exact hallows.1 other hother ▸ (hs.ready pid t hk other hother).2
  have hkeep : Finished port h w.2 path → Finished port h (h.effect w.2 c) path :=
    fun hf => hf.change hchange hnamed hbefore
  refine ⟨fun hj hc hp => hkeep (hs.completed hj hc hp), Each.set (fun hpath => ?_) ?_,
    Each.set (fun other hother => ?_) ?_⟩
  · rcases (Desk.made_next ..).mp hpath with hold | ⟨hr, hout⟩
    · exact hkeep (hs.made pid t hk hold)
    · obtain ⟨hready, bytes, htemp, hfile⟩ := output_of_replaced hallows.2 hr
      refine ⟨job, bytes, hnamed, hout.symm, hout ▸ hfile, ?_⟩
      have hencoded := hbefore hready
      rw [show w.2.files (port.call job).temp = some bytes from htemp] at hencoded
      exact hencoded.later hmore
  · exact fun i u _ hu hpath => hkeep (hs.made i u hu hpath)
  · have hjob := Desk.ready_next _ _ _ _ other hother
    have hready : (publishing.next (t.bench (port.call job)) c (h.reply w.2 c)).ready = true := by
      rw [← Desk.bench_next]
      exact Option.isSome_iff_exists.mpr ⟨other, hother⟩
    subst hjob
    exact ⟨hnamed, hchange.ready hbefore hready⟩
  · -- another process has another job, and so another temporary file
    intro i u hi hu other hother
    obtain ⟨hother_named, hencoded⟩ := hs.ready i u hu other hother
    have hid := hothers i u hi hu other hother
    refine ⟨hother_named, ?_⟩
    rw [hchange.others (temp_ne hother_named hnamed hid) (output_ne_temp hnamed hother_named).symm]
    exact hencoded.later hmore

theorem Stocked.own (hs : Stocked port h path w K) (hk : K pid = some t) {c : Cmd} {r : Reply c}
    (hallows : (hosting port).allows t (.own c)) :
    Stocked port h path (w.1.effect c r, w.2) K := by
  refine ⟨fun {id stored} hj hc hp => ?_, hs.made, hs.ready⟩
  cases c with
  | setJob job ex =>
    have hj' : (w.1.effect (.setJob job ex) r).jobs id = some stored := hj
    rw [World.jobs_setJob] at hj'
    split at hj'
    · cases hj'
      exact hs.made pid t hk (hp ▸ hallows.2 hc)
    · exact hs.completed hj' hc hp
  | _ => exact hs.completed hj hc hp

end

/-! Runs. -/

/-- The job in whose transcoding the process goes on. -/
def HostedProc.transcodes? (p : HostedProc) : Option TranscodeJob :=
  match p.next? with
  | some (.inner (.transcode job) _) => some job
  | _ => none

/-- A job is transcoded by one live process at a time, with an output that is not named like a
    temporary file, and nobody else writes to the temporary file of a job in transcoding. -/
def Attended (s : HostedCluster) : HostedAct → Prop
  | .exec pid _ => ∀ p ∈ s.procs[pid]?, ∀ job ∈ HostedProc.transcodes? p,
    (port.call job).WellNamed ∧ ∀ i < s.procs.length, i ≠ pid →
      ∀ q ∈ s.procs[i]?, ∀ other ∈ HostedProc.transcodes? q, other.id ≠ job.id
  | .env (.inr e) => ∀ p ∈ s.procs, ∀ job ∈ HostedProc.transcodes? p, e.path ≠ (port.call job).temp
  | _ => True

instance (s : HostedCluster) : ∀ a, Decidable (Attended port s a)
  | .exec pid _ => inferInstanceAs (Decidable (∀ p ∈ s.procs[pid]?,
      ∀ job ∈ HostedProc.transcodes? p, (port.call job).WellNamed ∧
        ∀ i < s.procs.length, i ≠ pid → ∀ q ∈ s.procs[i]?,
          ∀ other ∈ HostedProc.transcodes? q, other.id ≠ job.id))
  | .env (.inr e) => inferInstanceAs (Decidable (∀ p ∈ s.procs,
      ∀ job ∈ HostedProc.transcodes? p, e.path ≠ (port.call job).temp))
  | .env (.inl _) => .isTrue trivial
  | .spawn _ => .isTrue trivial
  | .kill _ => .isTrue trivial

/-- What the live processes know of the files. -/
def HostedCluster.desks (s : HostedCluster) : Nat → Option Desk :=
  s.knowsLive (hosting port) fun _ => Desk.initial

/-- Every process keeps to what it knows of the files, and what it knows is so. -/
def HostedCluster.Kept (h : Host) (path : Path) (s : HostedCluster) : Prop :=
  Obeying (hosting port) (fun _ => Desk.initial) (fun t => t.ready = none) s ∧
    Stocked port h path s.store (HostedCluster.desks port s)

section
variable {port} {h : Host} {path : Path} {s : HostedCluster}

/-- Who has a finished file is in the middle of a transcoding. -/
theorem ready_transcodes (hob : Obeying (hosting port) (fun _ => Desk.initial)
    (fun t => t.ready = none) s) {pid : Nat} {t : Desk}
    (ht : HostedCluster.desks port s pid = some t) {job : TranscodeJob} (hready : job ∈ t.ready) :
    ∃ p, s.procs[pid]? = some p ∧ HostedProc.transcodes? p = some job := by
  obtain ⟨p, hp, hlive, rfl⟩ := Pool.knowsLive_iff.mp ht
  refine ⟨p, hp, ?_⟩
  obtain ⟨prog, hrest⟩ := Option.ne_none_iff_exists'.mp hlive
  have hobeys := (hob p (List.mem_of_getElem? hp)).2 prog hrest
  have hsome : ((hosting port).after Desk.initial p.past).ready ≠ none := by
    rw [Option.mem_def.mp hready]
    exact Option.some_ne_none _
  cases prog with
  | done a => exact absurd hobeys hsome
  | raise e => exact absurd hobeys hsome
  | ask n k =>
    have hnext : p.next? = some n := by
      rw [Process.next?, hrest]
      rfl
    rw [HostedProc.transcodes?, hnext]
    cases n with
    | own c =>
      refine absurd ?_ hsome
      cases c with
      | setJob job ex => exact hobeys.1.1
      | _ => exact hobeys.1
    | inner c d =>
      cases c with
      | transcode other => exact congrArg some (hobeys.1.1 job hready).symm
      | _ => exact absurd hobeys.1.1 hsome

theorem HostedCluster.Kept.exec {ctx : Context} (hs : HostedCluster.Kept port h path s) {pid : Nat}
    {x : Choice × Unit} {l : Label} {past : List (Event HostedCmd HostedReply)} {n : HostedCmd}
    {k : HostedReply n → Program HostedCmd HostedReply Exn Unit} {r : HostedReply n} {t : Desk}
    (ha : Attended port s (.exec pid x)) (hp : s.procs[pid]? = some ⟨l, past, some (.ask n k)⟩)
    (hk : HostedCluster.desks port s pid = some t) (hallows : (hosting port).allows t n)
    (hr : (hosted ctx port h).machine.answer s.store n x = some r) :
    Stocked port h path ((hosted ctx port h).machine.effect s.store n r)
      (Function.update (HostedCluster.desks port s) pid (some ((hosting port).next t n r))) := by
  have hsame : Function.update (HostedCluster.desks port s) pid (some t) =
      HostedCluster.desks port s := Function.update_eq_self_iff.mpr hk.symm
  cases n with
  | own c =>
    show Stocked port h path _ (Function.update _ pid (some t))
    rw [hsame]
    exact hs.2.own hk hallows
  | inner c d =>
    have hreply : h.reply s.store.2 d = r := Option.some.inj hr
    subst hreply
    cases c with
    | transcode job =>
      obtain ⟨hnamed, hothers⟩ := ha _ hp job rfl
      refine hs.2.transcodes hk hallows hnamed fun i u hi hu other hother => ?_
      obtain ⟨q, hq, htranscodes⟩ := ready_transcodes hs.1 hu hother
      exact hothers i (List.getElem?_eq_some_iff.mp hq).1 hi q hq other htranscodes
    | _ =>
      show Stocked port h path (s.store.1, h.effect s.store.2 d) (Function.update _ pid (some t))
      rw [hsame, h.effect_of_looks _ hallows.2]
      exact hs.2

/-- Another program writes to a file that is neither at the path nor a temporary one in use. -/
theorem HostedCluster.Kept.write (hs : HostedCluster.Kept port h path s) {e : FileChange}
    (ha : Attended port s (.env (.inr e))) (hpath : e.path ≠ path) :
    Stocked port h path (s.store.1, s.store.2.write e.path e.content)
      (HostedCluster.desks port s) := by
  have hkeep : Finished port h s.store.2 path →
      Finished port h (s.store.2.write e.path e.content) path := by
    rintro ⟨job, bytes, hnamed, hout, hfile, hencoded⟩
    exact ⟨job, bytes, hnamed, hout, (Site.write_other _ _ hpath.symm).trans hfile,
      hencoded.later (List.append_nil _).symm⟩
  refine ⟨fun hj hc hp => hkeep (hs.2.completed hj hc hp),
    fun i u hu hp => hkeep (hs.2.made i u hu hp), fun i u hu job hjob => ?_⟩
  obtain ⟨hnamed, hencoded⟩ := hs.2.ready i u hu job hjob
  obtain ⟨q, hq, htranscodes⟩ := ready_transcodes hs.1 hu hjob
  have htemp := ha q (List.mem_of_getElem? hq) job htranscodes
  rw [Site.write_other _ _ htemp.symm]
  exact ⟨hnamed, hencoded.later (List.append_nil _).symm⟩

/-- The environment of the server stores nothing. -/
theorem Stocked.environment {w : World × Site} {K : Nat → Option Desk}
    (hs : Stocked port h path w K) (e : EnvEvent) :
    Stocked port h path (World.environment e w.1, w.2) K := by
  refine ⟨fun {id job} hj hc hp => ?_, hs.made, hs.ready⟩
  have hstored : w.1.jobs id = some job := by
    cases e with
    | expire key =>
      cases key with
      | job gone =>
        have hleft : Function.update w.1.jobs gone none id = some job := hj
        rw [Function.update_apply] at hleft
        split at hleft
        · cases hleft
        · exact hleft
      | _ => exact hj
    | _ => exact hj
  exact hs.completed hstored hc hp

theorem hosted_step {ctx : Context} {a : HostedAct} (hs : HostedCluster.Kept port h path s)
    (ha : Attended port s a) (hpath : ∀ e, a = .env (.inr e) → e.path ≠ path) :
    HostedCluster.Kept port h path ((hosted ctx port h).step s a) := by
  refine pool_step_live (Stocked port h path) hs.1 hs.2 (S := hosted ctx port h)
    (fun l _ => code_hosting ctx h l) ?_ ?_ ?_ ?_
  · intro l pid _ _
    refine ⟨hs.2.completed, Each.set (fun hp => by cases hp) fun i u _ hu => hs.2.made i u hu,
      Each.set (fun job hjob => by cases hjob) fun i u _ hu => hs.2.ready i u hu⟩
  · rintro pid x l past n k r rfl hp hk hallows hr
    exact ⟨trivial, hs.exec ha hp hk hallows hr⟩
  · intro pid p _ _
    have hold : ∀ i u, Function.update (HostedCluster.desks port s) pid none i = some u →
        HostedCluster.desks port s i = some u := by
      intro i u hu
      rw [Function.update_apply] at hu
      split at hu
      · cases hu
      · exact hu
    exact ⟨hs.2.completed, fun i u hu => hs.2.made i u (hold i u hu),
      fun i u hu => hs.2.ready i u (hold i u hu)⟩
  · rintro e rfl
    cases e with
    | inl e => exact hs.2.environment e
    | inr e => exact hs.write ha (hpath e rfl)

end

/-- Nobody else ever writes to the path. -/
theorem meets_others {step : HostedCluster → HostedAct → HostedCluster} {acts : List HostedAct}
    {path : Path} (hothers : ∀ e, .env (.inr e) ∈ acts → e.path ≠ path) {s : HostedCluster} :
    Meets step (fun _ a => ∀ e, a = .env (.inr e) → e.path ≠ path) s acts :=
  meets_of_forall (fun a ha _ e he => hothers e (by rw [← he]; exact ha)) s

theorem HostedCluster.Kept.start (port : Port) (h : Host) (files : Path → Option Bytes)
    (path : Path) : HostedCluster.Kept port h path (HostedCluster.initial files) :=
  ⟨fun p hp => (by cases hp), fun hj => (by cases hj), fun i t ht => (by cases ht),
    fun i t ht => (by cases ht)⟩

/-- The output of a job that is stored as completed is all there, whatever order the processes of
    the deployment take their commands in, whichever of them are killed, and whatever lapses. -/
theorem completed_output (ctx : Context) (port : Port) (h : Host) (files : Path → Option Bytes)
    (acts : List HostedAct)
    (hacts : Meets (hosted ctx port h).step (Attended port) (HostedCluster.initial files) acts)
    (id : Uuid) (job : TranscodeJob)
    (hjob : ((hosted ctx port h).run (HostedCluster.initial files) acts).store.1.jobs id = some job)
    (hcompleted : job.state = .completed)
    (hothers : ∀ e, .env (.inr e) ∈ acts → e.path ≠ job.outputPath) :
    Finished port h ((hosted ctx port h).run (HostedCluster.initial files) acts).store.2
      job.outputPath := by
  have hkept : HostedCluster.Kept port h job.outputPath
      ((hosted ctx port h).run (HostedCluster.initial files) acts) :=
    run_invariant _ (fun _ _ hs ha => hosted_step hs ha.1 ha.2) (.start port h files job.outputPath)
      (meets_and hacts (meets_others hothers))
  exact hkept.2.completed hjob hcompleted rfl

/-- Software encoders, at a standing clock. -/
def steadyPort : Port where
  transcoder := softwareOnly
  measures _ _ := ⟨0, fun _ => .ok 0, fun _ _ => .ok (.finite 1)⟩

/-- A job is enqueued, worker 7 is killed when ffmpeg has written its file, the heartbeat lapses, a
    pass requeues the job, and worker 8 transcodes it again. -/
def takenOver : List HostedAct :=
  [.spawn (.enqueueJob (mp4File "/tmp/input/a.mp4") defaultMatch), .exec 0 (.go, ()),
    .exec 0 (.id 1, ())] ++ List.replicate 6 (.exec 0 (.go, ())) ++
  [.spawn (.processNextJob 7)] ++ List.replicate 21 (.exec 1 (.go, ())) ++
  [.kill 1, .env (.inl (.expire (.jobHeartbeat 1))), .spawn .recoverStaleJobs,
    .exec 2 (.order [], ()), .exec 2 (.order [1], ())] ++ List.replicate 8 (.exec 2 (.go, ())) ++
  [.spawn (.processNextJob 8)] ++ List.replicate 42 (.exec 3 (.go, ()))

theorem takenOver_completed :
    (((hosted smallContext steadyPort steady).run (HostedCluster.initial inputOnly)
      takenOver).store.1.jobs 1).map (fun job => (job.state, job.outputPath)) =
        some (.completed, movieJob.outputPath) := by
  decide +kernel

theorem completed_output_takenOver :
    Finished steadyPort steady ((hosted smallContext steadyPort steady).run
      (HostedCluster.initial inputOnly) takenOver).store.2 movieJob.outputPath := by
  obtain ⟨job, hjob, hends⟩ := Option.map_eq_some_iff.mp takenOver_completed
  obtain ⟨hcompleted, hpath⟩ := Prod.mk.inj hends
  rw [← hpath]
  exact completed_output smallContext steadyPort steady inputOnly takenOver (by decide +kernel) 1
    job hjob hcompleted (by simp [takenOver])

/-! Runs in which nothing dies or lapses. -/

/-- The job whose heartbeat the process checks next. -/
def HostedProc.checks? (p : HostedProc) : Option Uuid :=
  match p.next? with
  | some (.own (.existsHeartbeat id)) => some id
  | _ => none

/-- The job whose heartbeat the process sets next. -/
def HostedProc.beats? (p : HostedProc) : Option Uuid :=
  match p.next? with
  | some (.own (.setHeartbeat id _ _)) => some id
  | _ => none

/-- No process is killed and no key lapses; no pass checks the heartbeat of a job whose first one a
    worker is just about to set; no output is named like a temporary file, and nobody else writes
    to the temporary file of a job in transcoding. -/
def Quiet (s : HostedCluster) : HostedAct → Prop
  | .exec pid _ => ∀ p ∈ s.procs[pid]?,
    (∀ job ∈ HostedProc.transcodes? p, (port.call job).WellNamed) ∧
      ∀ id ∈ HostedProc.checks? p, ∀ q ∈ s.procs, HostedProc.beats? q = some id →
        s.store.1.heartbeats id ≠ none
  | .env (.inr e) => ∀ p ∈ s.procs, ∀ job ∈ HostedProc.transcodes? p, e.path ≠ (port.call job).temp
  | .env (.inl (.expire _)) => False
  | .kill _ => False
  | _ => True

/-- By what the option holds, and not by all UUIDs. -/
instance (o : Option Uuid) (P : Uuid → Prop) [DecidablePred P] : Decidable (∀ id ∈ o, P id) :=
  Option.decidableForallMem o

instance (s : HostedCluster) : ∀ a, Decidable (Quiet port s a)
  | .exec pid _ => inferInstanceAs (Decidable (∀ p ∈ s.procs[pid]?,
      (∀ job ∈ HostedProc.transcodes? p, (port.call job).WellNamed) ∧
        ∀ id ∈ HostedProc.checks? p, ∀ q ∈ s.procs, HostedProc.beats? q = some id →
          s.store.1.heartbeats id ≠ none))
  | .env (.inr e) => inferInstanceAs (Decidable (∀ p ∈ s.procs,
      ∀ job ∈ HostedProc.transcodes? p, e.path ≠ (port.call job).temp))
  | .env (.inl (.expire _)) => .isFalse id
  | .env (.inl (.clock _)) => .isTrue trivial
  | .env (.inl (.media _ _)) => .isTrue trivial
  | .spawn _ => .isTrue trivial
  | .kill _ => .isFalse id

/-- No two processes are inside transcodings of one job. -/
def Apart (s : HostedCluster) : Prop :=
  ∀ (i j : Nat) (p q : HostedProc) (job other : TranscodeJob), s.procs[i]? = some p →
    s.procs[j]? = some q → HostedProc.transcodes? p = some job →
      HostedProc.transcodes? q = some other → job.id = other.id → i = j

/-- The processes shown are in custody of their jobs. -/
def HostedCluster.Guarded (s : HostedCluster) : Prop :=
  ∃ t : Cluster, Vshift.Guarded t ∧ Matches port.bodies redis s t

section
variable {port} {s : HostedCluster} {t : Cluster}

theorem checks?_of_follows {q : HostedProc} {p : Proc} (h : Follows port.bodies redis q p)
    {id : Uuid} (hid : Proc.checks? p = some id) : HostedProc.checks? q = some id := by
  unfold Proc.checks? at hid
  split at hid
  · next hnext =>
    cases hid
    rw [HostedProc.checks?, h.next?_own rfl hnext]
  · cases hid

theorem beats?_of_follows {q : HostedProc} {p : Proc} (h : Follows port.bodies redis q p)
    {id : Uuid} (hid : Proc.beats? p = some id) : HostedProc.beats? q = some id := by
  unfold Proc.beats? at hid
  split at hid
  · next hnext =>
    cases hid
    rw [HostedProc.beats?, h.next?_own rfl hnext]
  · cases hid

theorem transcodes_of_follows {q : HostedProc} {p : Proc} (h : Follows port.bodies redis q p)
    {job : TranscodeJob} (hjob : HostedProc.transcodes? q = some job) :
    p.next? = some (.transcode job) := by
  unfold HostedProc.transcodes? at hjob
  split at hjob
  · next hnext =>
    cases hjob
    exact h.next?_inner hnext
  · cases hjob

theorem checksAfterClaim_of_quiet (hm : Matches port.bodies redis s t) {a : HostedAct} {a' : Act}
    (hshows : Shows a a') (ha : Quiet port s a) : ChecksAfterClaim t a' := by
  cases hshows with
  | spawn l => trivial
  | kill pid => exact ha
  | env e => cases e <;> exact ha
  | exec pid x x' =>
    -- what the processes shown check and set next, the processes do
    intro p hp id hid q hq hbeats
    obtain ⟨p', hp', hfollows⟩ := forall₂_getElem? hm.procs.flip hp
    obtain ⟨i, hi⟩ := List.getElem?_of_mem hq
    obtain ⟨q', hq', hfollows'⟩ := forall₂_getElem? hm.procs.flip hi
    rw [← hm.store]
    exact (ha p' hp').2 id (checks?_of_follows hfollows hid) q' (List.mem_of_getElem? hq')
      (beats?_of_follows hfollows' hbeats)

/-- The processes in transcodings own their jobs, and no two own one. -/
theorem apart_of_guarded (hs : HostedCluster.Guarded port s) : Apart s := by
  obtain ⟨t, hguarded, hm⟩ := hs
  have howned : ∀ i p job, s.procs[i]? = some p → HostedProc.transcodes? p = some job →
      ∃ u, t.knows custody Custody.initial i = some u ∧ u.owned = some job.id := by
    intro i p job hp hjob
    obtain ⟨p', hp', hfollows⟩ := forall₂_getElem? hm.procs hp
    have hallows := hguarded.obeying.allows (List.mem_of_getElem? hp')
      (transcodes_of_follows hfollows hjob)
    exact ⟨_, Pool.knows_iff.mpr ⟨p', hp', rfl⟩, hallows.2⟩
  intro i j p q job other hp hq hjob hother hid
  obtain ⟨u, hu, hujob⟩ := howned i p job hp hjob
  obtain ⟨v, hv, hvother⟩ := howned j q other hq hother
  by_contra hij
  refine hguarded.kept.apart i j u v hij hu hv job.id hujob ?_
  rw [hid]
  exact hvother

theorem attended_of_quiet (hs : HostedCluster.Guarded port s) {a : HostedAct}
    (ha : Quiet port s a) : Attended port s a := by
  cases a with
  | spawn l => trivial
  | kill pid => trivial
  | env e =>
    cases e with
    | inl e => trivial
    | inr e => exact ha
  | exec pid x =>
    intro p hp job hjob
    refine ⟨(ha p hp).1 job hjob, fun i _ hi q hq other hother hid => ?_⟩
    exact hi (apart_of_guarded hs i pid q p other job hq hp hother hjob hid)

theorem HostedCluster.Guarded.step {ctx : Context} {h : Host} (hs : HostedCluster.Guarded port s)
    {a : HostedAct} (ha : Quiet port s a) :
    HostedCluster.Guarded port ((hosted ctx port h).step s a) := by
  obtain ⟨t, hguarded, hm⟩ := hs
  rcases inlined_step (S := deployment ctx) h.machine _ (bodies_faithful port) hm a with
    hnext | ⟨a', hshows, hnext⟩
  · exact ⟨t, hguarded, hnext⟩
  · exact ⟨_, guarded_step t a' hguarded (checksAfterClaim_of_quiet hm hshows ha), hnext⟩

end

/-- Where nothing dies or lapses it is the queue that keeps jobs apart: no two processes transcode
    one job, and so no two write to one temporary file, and the output of every completed job is
    all there. -/
theorem quiet_output (ctx : Context) (port : Port) (h : Host) (files : Path → Option Bytes)
    (acts : List HostedAct)
    (hacts : Meets (hosted ctx port h).step (Quiet port) (HostedCluster.initial files) acts) :
    Apart ((hosted ctx port h).run (HostedCluster.initial files) acts) ∧
      ∀ id job,
        ((hosted ctx port h).run (HostedCluster.initial files) acts).store.1.jobs id = some job →
        job.state = .completed → (∀ e, .env (.inr e) ∈ acts → e.path ≠ job.outputPath) →
          Finished port h ((hosted ctx port h).run (HostedCluster.initial files) acts).store.2
            job.outputPath := by
  have hguarded : HostedCluster.Guarded port (HostedCluster.initial files) :=
    ⟨Cluster.initial, guarded_initial, rfl, .nil⟩
  refine ⟨apart_of_guarded (run_invariant (HostedCluster.Guarded port)
    (fun s a hs ha => hs.step ha) hguarded hacts), fun id job hjob hcompleted hothers => ?_⟩
  have hkept : HostedCluster.Kept port h job.outputPath
        ((hosted ctx port h).run (HostedCluster.initial files) acts) ∧
      HostedCluster.Guarded port ((hosted ctx port h).run (HostedCluster.initial files) acts) := by
    refine run_invariant (fun s => HostedCluster.Kept port h job.outputPath s ∧
      HostedCluster.Guarded port s) (fun s a hs ha => ?_)
      ⟨.start port h files job.outputPath, hguarded⟩ (meets_and hacts (meets_others hothers))
    exact ⟨hosted_step hs.1 (attended_of_quiet hs.2 ha.1) ha.2, hs.2.step ha.1⟩
  exact hkept.1.2.completed hjob hcompleted rfl

/-- A job is enqueued, and worker 7 transcodes it. -/
def enqueuedAndTranscoded : List HostedAct :=
  [.spawn (.enqueueJob (mp4File "/tmp/input/a.mp4") defaultMatch), .exec 0 (.go, ()),
    .exec 0 (.id 1, ())] ++ List.replicate 6 (.exec 0 (.go, ())) ++
  [.spawn (.processNextJob 7)] ++ List.replicate 41 (.exec 1 (.go, ()))

theorem enqueuedAndTranscoded_completed :
    (((hosted smallContext steadyPort steady).run (HostedCluster.initial inputOnly)
      enqueuedAndTranscoded).store.1.jobs 1).map (fun job => (job.state, job.outputPath)) =
        some (.completed, movieJob.outputPath) := by
  decide +kernel

theorem quiet_output_enqueuedAndTranscoded :
    Finished steadyPort steady ((hosted smallContext steadyPort steady).run
      (HostedCluster.initial inputOnly) enqueuedAndTranscoded).store.2 movieJob.outputPath := by
  obtain ⟨job, hjob, hends⟩ := Option.map_eq_some_iff.mp enqueuedAndTranscoded_completed
  obtain ⟨hcompleted, hpath⟩ := Prod.mk.inj hends
  rw [← hpath]
  exact (quiet_output smallContext steadyPort steady inputOnly enqueuedAndTranscoded
    (by decide +kernel)).2 1 job hjob hcompleted (by simp [enqueuedAndTranscoded])

end Vshift
