import Vshift.Unseen
import Vshift.Outputs
import Vshift.Selection

/- Passes of the scan repeated and reordered.

   Over candidates that all probe, a pass never raises: an accepted configuration
   answers every probed file. `Scan.adds` is then the whole effect of a pass: it
   enqueues the files that `unseen` takes from the matching ones, with the paths
   marked so far as those already seen. A second pass finds every path marked
   (`run_settled`), and where the paths are distinct the files taken are a filter of
   the candidates, whatever their order. -/
namespace Vshift
open Command Program Unseen

/-- What a job is besides its id and the time it was made. -/
def TranscodeJob.content (job : TranscodeJob) : TranscodeJob :=
  { job with id := 0, createdAt := 0 }

/-- The candidates of a pass that match a profile and whose paths are not marked, with what they
    were probed and matched as. -/
def unprocessedFiles (ctx : Context) (w : World) (candidates : List ProbedInput) : List Taken :=
  (matchedFiles ctx w.media candidates).filter fun t => (w.processed (t.1.key ctx)).isNone

/-- The whole effect of enqueueing the files `ts` as `jobs`. -/
structure Adds (ctx : Context) (w : World) (ts : List Taken) (jobs : List TranscodeJob)
    (w' : World) : Prop where
  made : List.Forall₂ (fun t job => job = newJob ctx t.1 t.2 job.id w.clock) ts jobs
  unissued : ∀ job ∈ jobs, job.id ∉ w.issued
  stored : ∀ id, w'.jobs id = (jobs.find? (·.id = id)).or (w.jobs id)
  processed : ∀ path, w'.processed path = none ↔
    w.processed path = none ∧ ∀ t ∈ ts, t.1.key ctx ≠ path
  queue : w'.pendingQueue = w.pendingQueue ++ jobs.map (·.id)
  media : w'.media = w.media

section
variable {ctx : Context} {w : World}

/-! Candidates that probe. -/

/-- Every candidate probes. -/
def AllProbe (ctx : Context) (media : Path → Except Exn MediaProbe)
    (candidates : List ProbedInput) : Prop :=
  ∀ c ∈ candidates, ∃ probed, probeOf ctx media c = .ok probed

theorem examine_ok {media : Path → Except Exn MediaProbe} {c probed : ProbedInput}
    (h : probeOf ctx media c = .ok probed) : ∃ found, examine ctx media c = .ok found := by
  obtain ⟨chosen, hchosen, -⟩ := matchProfile_selected ctx.py ctx.config probed
  refine ⟨chosen.map (probed, ·), ?_⟩
  rw [examine_probed h, hchosen]
  rfl

/-- What a candidate that can be examined is taken as. -/
def fileOf (ctx : Context) (media : Path → Except Exn MediaProbe) (c : ProbedInput) :
    Option Taken :=
  match examine ctx media c with
  | .ok found => found
  | .error _ => none

theorem matchedFiles_eq {media : Path → Except Exn MediaProbe} {candidates : List ProbedInput}
    (h : AllProbe ctx media candidates) :
    matchedFiles ctx media candidates = candidates.filterMap (fileOf ctx media) := by
  induction candidates with
  | nil => rfl
  | cons c cs ih =>
    obtain ⟨probed, hprobe⟩ := h c List.mem_cons_self
    obtain ⟨found, hfound⟩ := examine_ok hprobe
    have hrest := ih fun c' hc' => h c' (List.mem_cons_of_mem _ hc')
    rw [matchedFiles, hfound, List.filterMap_cons, fileOf, hfound]
    cases found with
    | none => exact hrest
    | some t => exact congrArg (t :: ·) hrest

theorem fileOf_key {media : Path → Except Exn MediaProbe} {c : ProbedInput} {t : Taken}
    (h : fileOf ctx media c = some t) : t.1.key ctx = c.key ctx := by
  unfold fileOf at h
  split at h
  · next found hfound =>
    subst h
    rw [ProbedInput.key, examine_path hfound]
    rfl
  · cases h

theorem matchedFiles_nodup {media : Path → Except Exn MediaProbe} {candidates : List ProbedInput}
    (h : AllProbe ctx media candidates) (hn : (candidates.map (·.key ctx)).Nodup) :
    ((matchedFiles ctx media candidates).map (·.1.key ctx)).Nodup := by
  rw [matchedFiles_eq h]
  have hsub : ((candidates.filterMap (fileOf ctx media)).map (·.1.key ctx)).Sublist
      (candidates.map (·.key ctx)) := by
    clear hn h
    induction candidates with
    | nil => exact List.Sublist.refl _
    | cons c cs ih =>
      rw [List.filterMap_cons]
      split
      · exact ih.trans (List.sublist_cons_self _ _)
      · next t ht =>
        rw [List.map_cons, List.map_cons, fileOf_key ht]
        exact ih.cons_cons _
  exact hn.sublist hsub

/-! A pass from any store. -/

/-- The paths marked in a store. -/
def World.marks (w : World) (path : String) : Bool := (w.processed path).isSome

theorem marks_enqueued (w : World) {t : Taken} {id : Uuid} :
    (w.enqueued ctx t.1 t.2 id).marks = fun path => path == t.1.key ctx || w.marks path := by
  funext path
  show (Function.update w.processed (t.1.key ctx) (some id) path).isSome = _
  by_cases hpath : path = t.1.key ctx
  · rw [hpath, Function.update_self, beq_self_eq_true]
    rfl
  · rw [Function.update_of_ne hpath, beq_false_of_ne hpath]
    rfl

theorem Adds.nothing (ctx : Context) (w : World) : Adds ctx w [] [] w where
  made := .nil
  unissued := fun job h => by cases h
  stored _ := rfl
  processed _ := ⟨fun h => ⟨h, fun t ht => by cases ht⟩, And.left⟩
  queue := (List.append_nil _).symm
  media := rfl

/-- One more file, before the others. -/
theorem Adds.cons {t : Taken} {ts : List Taken} {id : Uuid} {jobs : List TranscodeJob} {w' : World}
    (hid : id ∉ w.issued) (h : Adds ctx (w.enqueued ctx t.1 t.2 id) ts jobs w') :
    Adds ctx w (t :: ts) (newJob ctx t.1 t.2 id w.clock :: jobs) w' where
  made := .cons rfl h.made
  unissued := by
    intro job hjob
    rcases List.mem_cons.mp hjob with rfl | hjob
    · exact hid
    · exact fun hmem => h.unissued job hjob (Finset.mem_insert_of_mem hmem)
  stored other := by
    rw [h.stored other, List.find?_cons]
    show (jobs.find? (·.id = other)).or (Function.update w.jobs id _ other) =
      (match decide (id = other) with
        | true => some (newJob ctx t.1 t.2 id w.clock)
        | false => jobs.find? (·.id = other)).or (w.jobs other)
    by_cases hsame : id = other
    · -- no later job of the pass has the id of this one
      have hnone : jobs.find? (·.id = other) = none := by
        apply List.find?_eq_none.mpr
        intro job hjob heq
        have hjobid : job.id = id := (of_decide_eq_true heq).trans hsame.symm
        exact h.unissued job hjob (hjobid ▸ Finset.mem_insert_self ..)
      rw [hnone, decide_eq_true hsame, ← hsame, Function.update_self]
      rfl
    · rw [decide_eq_false hsame, Function.update_of_ne (Ne.symm hsame)]
  processed path := by
    rw [h.processed path]
    show Function.update w.processed (t.1.key ctx) (some id) path = none ∧ _ ↔ _
    rw [List.forall_mem_cons]
    by_cases hpath : path = t.1.key ctx
    · rw [hpath, Function.update_self]
      constructor
      · exact fun h => absurd h.1 (Option.some_ne_none id)
      · exact fun h => absurd rfl h.2.1
    · rw [Function.update_of_ne hpath]
      constructor
      · exact fun h => ⟨h.1, Ne.symm hpath, h.2⟩
      · exact fun h => ⟨h.1, h.2.2⟩
  queue := by
    rw [h.queue]
    show (w.pendingQueue ++ [id]) ++ _ = _
    rw [List.append_assoc, List.singleton_append]
    rfl
  media := h.media

/-- The whole effect of a pass over candidates that all probe. -/
theorem Scan.adds {candidates : List ProbedInput} {r : Except Exn (List TranscodeJob)}
    {w w' : World} (h : Scan ctx w candidates r w') (hprobe : AllProbe ctx w.media candidates) :
    ∃ jobs, r = .ok jobs ∧ Adds ctx w
      (unseen (fun t : Taken => t.1.key ctx) w.marks (matchedFiles ctx w.media candidates))
      jobs w' := by
  induction h with
  | done w => exact ⟨[], rfl, .nothing ctx w⟩
  | @aborted w c cs e hc =>
    obtain ⟨probed, hp⟩ := hprobe c List.mem_cons_self
    obtain ⟨found, hfound⟩ := examine_ok hp
    rw [hc] at hfound
    cases hfound
  | unmatched hc _ ih =>
    rw [matchedFiles, hc]
    exact ih fun c hmem => hprobe c (List.mem_cons_of_mem _ hmem)
  | @known w c cs probed chosen r w' hc hp _ ih =>
    rw [matchedFiles, hc]
    have hseen : w.marks (probed.key ctx) = true := Option.isSome_iff_ne_none.mpr hp
    show ∃ jobs, r = .ok jobs ∧ Adds ctx w (unseen _ w.marks ((probed, chosen) :: _)) jobs w'
    rw [unseen_of_seen (fun t : Taken => t.1.key ctx) hseen]
    exact ih fun c hmem => hprobe c (List.mem_cons_of_mem _ hmem)
  | @enqueued w c cs probed chosen r w' id hc hp hid _ ih =>
    rw [matchedFiles, hc]
    have hnew : w.marks (probed.key ctx) = false := by rw [World.marks, hp, Option.isSome_none]
    obtain ⟨jobs, rfl, hadds⟩ := ih fun c hmem => hprobe c (List.mem_cons_of_mem _ hmem)
    refine ⟨newJob ctx probed chosen id w.clock :: jobs, rfl, ?_⟩
    show Adds ctx w (unseen _ w.marks ((probed, chosen) :: _)) _ w'
    rw [unseen_of_new (fun t : Taken => t.1.key ctx) hnew]
    rw [marks_enqueued (t := (probed, chosen)) w] at hadds
    exact .cons (t := (probed, chosen)) hid hadds

theorem run_probeInputFile (ctx : Context) (w : World) (c : ProbedInput) (tape : List Choice) :
    redis.run (probeInputFile ctx c) tape w = some (probeOf ctx w.media c, w) := by
  show redis.run (Program.ofExcept (w.media c.path) >>= _ >>= _) tape.tail w = _
  unfold probeOf
  cases w.media c.path with
  | error e => rfl
  | ok found =>
    show redis.run (Program.ofExcept (validateProbed _) >>= _) _ w =
      some ((validateProbed _).bind _, _)
    cases validateProbed _ with
    | error e => rfl
    | ok valid =>
      show redis.run (ite _ _ _) _ w = some (ite _ _ _, w)
      split <;> rfl

/-- A pass over candidates whose matching files are all marked does nothing. -/
theorem run_settled {candidates : List ProbedInput} (hprobe : AllProbe ctx w.media candidates)
    (hmarked : ∀ t ∈ matchedFiles ctx w.media candidates, w.processed (t.1.key ctx) ≠ none) :
    ∀ tape, redis.run (scanInputFolder ctx candidates) tape w = some (.ok [], w) := by
  induction candidates with
  | nil => exact fun _ => rfl
  | cons c cs ih =>
    obtain ⟨probed, hp⟩ := hprobe c List.mem_cons_self
    obtain ⟨found, hfound⟩ := examine_ok hp
    rw [matchedFiles, hfound] at hmarked
    have hrest : ∀ t ∈ matchedFiles ctx w.media cs, w.processed (t.1.key ctx) ≠ none := by
      cases found with
      | none => exact hmarked
      | some t => exact fun t ht => hmarked t (List.mem_cons_of_mem _ ht)
    have ih := ih (fun c hc => hprobe c (List.mem_cons_of_mem _ hc)) hrest
    obtain ⟨chosen, hmatch, -⟩ := matchProfile_selected ctx.py ctx.config probed
    unfold scanInputFolder
    apply Machine.run_seq (a := probed) (t := w)
    · intro tape
      rw [run_probeInputFile, hp]
    · apply Machine.run_seq (a := chosen) (fun _ => by rw [hmatch]; rfl)
      rw [examine_probed hp, hmatch] at hfound
      cases hfound
      cases chosen with
      | none => exact ih
      | some chosen =>
        show ∀ tape, redis.run (enqueueJob ctx probed chosen >>= _) tape w = _
        have hseen := hmarked (probed, chosen) List.mem_cons_self
        apply Machine.run_seq (a := none) (t := w)
        · intro tape
          show redis.run (ite ((w.processed (probed.key ctx)).isSome = true) _ _) _ w = _
          rw [if_pos (Option.isSome_iff_ne_none.mpr hseen)]
          rfl
        · exact Machine.run_seq ih fun _ => rfl

/-- After a pass every matching file is marked. -/
theorem Adds.marked {files : List Taken} {jobs : List TranscodeJob} {w' : World}
    (h : Adds ctx w (unseen (fun t : Taken => t.1.key ctx) w.marks files) jobs w') {t : Taken}
    (ht : t ∈ files) : w'.processed (t.1.key ctx) ≠ none := by
  intro hnone
  obtain ⟨hold, hothers⟩ := (h.processed _).mp hnone
  rcases exists_unseen (fun t : Taken => t.1.key ctx) w.marks ht with
    hseen | ⟨other, hother, hkey⟩
  · exact Option.isSome_iff_ne_none.mp hseen hold
  · exact hothers other hother hkey

/-- The contents of the jobs are those of the files, in order. -/
theorem Adds.content {ts : List Taken} {jobs : List TranscodeJob} {w' : World}
    (h : Adds ctx w ts jobs w') :
    jobs.map (·.content) = ts.map fun t => (newJob ctx t.1 t.2 0 0).content := by
  have hmade := h.made
  clear h
  induction hmade with
  | nil => rfl
  | cons hjob _ ih =>
    rw [List.map_cons, List.map_cons, ih, hjob]
    rfl

/-- Two passes that take the same files in different orders. -/
theorem Adds.perm {ts ts' : List Taken} {jobs jobs' : List TranscodeJob} {w₁ w₂ : World}
    {clock : DateTime} (hperm : ts'.Perm ts) (h : Adds ctx w ts jobs w₁)
    (h' : Adds ctx { w with clock } ts' jobs' w₂) :
    (jobs'.map (·.content)).Perm (jobs.map (·.content)) ∧
      (∀ path, w₂.processed path = none ↔ w₁.processed path = none) ∧
      w₂.pendingQueue.length = w₁.pendingQueue.length := by
  have hcontent : (jobs'.map (·.content)).Perm (jobs.map (·.content)) := by
    rw [h.content, h'.content]
    exact hperm.map _
  refine ⟨hcontent, ?_, ?_⟩
  · intro path
    rw [h.processed, h'.processed]
    simp only [hperm.mem_iff]
  · have hlength := hcontent.length_eq
    rw [List.length_map, List.length_map] at hlength
    rw [h.queue, h'.queue, List.length_append, List.length_append, List.length_map,
      List.length_map, hlength]

/-- The effect of a pass over candidates with distinct paths. -/
theorem Scan.adds_unprocessed {candidates : List ProbedInput} {r : Except Exn (List TranscodeJob)}
    {w w' : World} (h : Scan ctx w candidates r w') (hprobe : AllProbe ctx w.media candidates)
    (hn : (candidates.map (·.key ctx)).Nodup) :
    ∃ jobs, r = .ok jobs ∧ Adds ctx w (unprocessedFiles ctx w candidates) jobs w' := by
  obtain ⟨jobs, hr, hadds⟩ := h.adds hprobe
  rw [unseen_eq_filter _ (matchedFiles_nodup hprobe hn)] at hadds
  have hfiles : unprocessedFiles ctx w candidates =
      (matchedFiles ctx w.media candidates).filter fun t => !w.marks (t.1.key ctx) := by
    apply List.filter_congr
    intro t _
    rw [World.marks, Option.not_isSome]
  exact ⟨jobs, hr, hfiles ▸ hadds⟩

theorem unprocessedFiles_perm {candidates candidates' : List ProbedInput}
    (hprobe : AllProbe ctx w.media candidates) (hperm : candidates'.Perm candidates) :
    (unprocessedFiles ctx w candidates').Perm (unprocessedFiles ctx w candidates) := by
  have hprobe' : AllProbe ctx w.media candidates' := fun c hc => hprobe c (hperm.mem_iff.mp hc)
  unfold unprocessedFiles
  rw [matchedFiles_eq hprobe, matchedFiles_eq hprobe']
  exact (hperm.filterMap _).filter _

/-- A pass repeated does nothing, and over distinct files the order of a pass does not matter.
    Between the two passes the rest of the store may have changed. -/
theorem rescan {candidates : List ProbedInput} {tape : List Choice}
    {r : Except Exn (List TranscodeJob)} {w' : World} (hprobe : AllProbe ctx w.media candidates)
    (h : redis.run (scanInputFolder ctx candidates) tape w = some (r, w')) :
    (∀ later : World, later.processed = w'.processed → later.media = w'.media → ∀ tape,
      redis.run (scanInputFolder ctx candidates) tape later = some (.ok [], later)) ∧
    ((candidates.map (·.key ctx)).Nodup → ∃ jobs, r = .ok jobs ∧
      Adds ctx w (unprocessedFiles ctx w candidates) jobs w' ∧
      ∀ (candidates' : List ProbedInput) (clock : DateTime) (tape' : List Choice)
        (r' : Except Exn (List TranscodeJob)) (w'' : World), candidates'.Perm candidates →
        redis.run (scanInputFolder ctx candidates') tape' { w with clock } = some (r', w'') →
        ∃ jobs', r' = .ok jobs' ∧ (jobs'.map (·.content)).Perm (jobs.map (·.content)) ∧
          (∀ path, w''.processed path = none ↔ w'.processed path = none) ∧
          w''.pendingQueue.length = w'.pendingQueue.length) := by
  have hscan := Machine.run_obeys h (scanInputFolder_alone candidates)
  constructor
  · obtain ⟨jobs, -, hadds⟩ := hscan.adds hprobe
    intro later hprocessed hmedia
    rw [hadds.media] at hmedia
    apply run_settled
    · rwa [hmedia]
    · rw [hmedia, hprocessed]
      exact fun t ht => hadds.marked ht
  · intro hn
    obtain ⟨jobs, hr, hadds⟩ := hscan.adds_unprocessed hprobe hn
    refine ⟨jobs, hr, hadds, ?_⟩
    intro candidates' clock tape' r' w'' hperm hrun
    have hscan' := Machine.run_obeys hrun (scanInputFolder_alone candidates')
    obtain ⟨jobs', hr', hadds'⟩ := hscan'.adds_unprocessed
      (fun c hc => hprobe c (hperm.mem_iff.mp hc)) ((hperm.map _).nodup_iff.mpr hn)
    exact ⟨jobs', hr', hadds.perm (unprocessedFiles_perm hprobe hperm) hadds'⟩

end

/-- Two files, and a store with nothing in it. -/
def twoNew : ScanInput := twoFiles "/tmp/input/a.mp4" "/tmp/input/b.mp4"

def beforeScan : World := { World.empty with media := twoNew.media }

theorem rescan_twoNew : ∃ jobs w',
    redis.run (scanInputFolder smallContext twoNew.candidates) (enqueueTape 1 ++ enqueueTape 2)
      beforeScan = some (.ok jobs, w') ∧
    Adds smallContext beforeScan (unprocessedFiles smallContext beforeScan twoNew.candidates) jobs
      w' ∧
    redis.run (scanInputFolder smallContext twoNew.candidates) [] w' = some (.ok [], w') := by
  have hrun : ∃ r w', redis.run (scanInputFolder smallContext twoNew.candidates)
      (enqueueTape 1 ++ enqueueTape 2) beforeScan = some (r, w') := ⟨_, _, rfl⟩
  obtain ⟨r, w', hrun⟩ := hrun
  have hprobe : AllProbe smallContext beforeScan.media twoNew.candidates := by
    intro c hc
    rcases List.mem_cons.mp hc with rfl | hc
    · exact ⟨_, rfl⟩
    · rw [List.mem_singleton.mp hc]
      exact ⟨_, rfl⟩
  obtain ⟨hagain, hnew⟩ := rescan hprobe hrun
  obtain ⟨jobs, rfl, hadds, -⟩ := hnew (by decide)
  exact ⟨jobs, w', hrun, hadds, hagain w' rfl rfl []⟩

end Vshift
