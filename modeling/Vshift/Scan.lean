import Vshift.Alone

/- One pass of `ScanInputFolder`, and which of its candidates get a job.

   `examine` is what a candidate yields on its own: probing and matching do not
   look at the store. `Scan` lists all a pass can do: it goes through the
   candidates in order and ends at the first one whose examination raises.
   `scan_enqueues_all_iff` is what follows for the others, from any store. -/
namespace Vshift
open Command Program

section
variable (ctx : Context)

/-- What `ProbeInputFile` makes of a candidate, given what `ffprobe` makes of the files. -/
def probeOf (media : Path → Except Exn MediaProbe) (candidate : ProbedInput) :
    Except Exn ProbedInput := do
  let found ← media candidate.path
  let valid ← validateProbed
    { path := candidate.path, extension := extensionOf ctx candidate.path, width := found.width,
      height := found.height, bitDepth := found.bitDepth, hdr := found.hdr,
      durationSeconds := found.durationSeconds }
  if candidate.extension ≠ "" then pure { valid with extension := candidate.extension }
  else pure valid

/-- Probing and matching one candidate. -/
def examine (media : Path → Except Exn MediaProbe) (candidate : ProbedInput) :
    Except Exn (Option (ProbedInput × ProfileMatch)) := do
  let probed ← probeOf ctx media candidate
  let chosen ← matchProfile ctx.py ctx.config.toRawConfig probed
  pure (chosen.map (probed, ·))

/-- The canonical path a candidate's job is filed under. -/
def ProbedInput.key (probed : ProbedInput) : String := ctx.py.canonicalPath probed.path

/-- The store after `EnqueueJob` gave the input the job id `id`. -/
def World.enqueued (w : World) (probed : ProbedInput) (chosen : ProfileMatch) (id : Uuid) : World :=
  (((w.numbered id).saved ctx (newJob ctx probed chosen id w.clock)).marked (probed.key ctx)
    id).queued id

/-- Everything a pass over the candidates can do. -/
inductive Scan : World → List ProbedInput → Except Exn (List TranscodeJob) → World → Prop
  | done (w) : Scan w [] (.ok []) w
  | aborted {w c cs e} (h : examine ctx w.media c = .error e) : Scan w (c :: cs) (.error e) w
  | unmatched {w c cs r w'} (h : examine ctx w.media c = .ok none) (rest : Scan w cs r w') :
      Scan w (c :: cs) r w'
  | known {w c cs probed chosen r w'} (h : examine ctx w.media c = .ok (some (probed, chosen)))
      (hp : w.processed (probed.key ctx) ≠ none) (rest : Scan w cs r w') : Scan w (c :: cs) r w'
  | enqueued {w c cs probed chosen r w'} {id : Uuid}
      (h : examine ctx w.media c = .ok (some (probed, chosen)))
      (hp : w.processed (probed.key ctx) = none) (hid : id ∉ w.issued)
      (rest : Scan (w.enqueued ctx probed chosen id) cs r w') :
      Scan w (c :: cs) (r.map (newJob ctx probed chosen id w.clock :: ·)) w'

end

section
variable {ctx : Context} {w : World}

theorem validateProbed_ok {probed valid : ProbedInput} (h : validateProbed probed = .ok valid) :
    valid = probed := by
  unfold validateProbed at h
  split at h
  · cases h
    rfl
  · cases h

theorem probeOf_path {media : Path → Except Exn MediaProbe} {candidate probed : ProbedInput}
    (h : probeOf ctx media candidate = .ok probed) : probed.path = candidate.path := by
  obtain ⟨found, -, h⟩ := except_bind_ok h
  obtain ⟨valid, hv, h⟩ := except_bind_ok h
  have hpath : valid.path = candidate.path := by rw [validateProbed_ok hv]
  split at h <;> cases h <;> exact hpath

theorem examine_path {media : Path → Except Exn MediaProbe} {candidate probed : ProbedInput}
    {chosen : ProfileMatch} (h : examine ctx media candidate = .ok (some (probed, chosen))) :
    probed.path = candidate.path := by
  obtain ⟨found, hp, h⟩ := except_bind_ok h
  obtain ⟨found', hm, h⟩ := except_bind_ok h
  cases found' with
  | none => cases h
  | some match' =>
    cases h
    exact probeOf_path hp

theorem examine_probed {media : Path → Except Exn MediaProbe} {candidate probed : ProbedInput}
    (h : probeOf ctx media candidate = .ok probed) : examine ctx media candidate =
      (matchProfile ctx.py ctx.config.toRawConfig probed).map (·.map (probed, ·)) := by
  rw [examine, h]
  show (matchProfile ctx.py ctx.config.toRawConfig probed >>= _) = _
  cases matchProfile ctx.py ctx.config.toRawConfig probed <;> rfl

theorem obeys_probeInputFile {candidate : ProbedInput} {Q : Except Exn ProbedInput → World → Prop} :
    (probeInputFile ctx candidate).Obeys redis.protocol Q w ↔
      Q (probeOf ctx w.media candidate) w := by
  unfold probeInputFile mediaProberProbe probeOf
  rw [obeys_bind, obeys_bind, obeys_cmd _ (w.media candidate.path) (fun _ => rfl), andThen_ok,
    obeys_bind, obeys_ofExcept]
  cases w.media candidate.path with
  | error e => rfl
  | ok found =>
    rw [andThen_ok, obeys_ofExcept]
    show andThen _ _ _ (validateProbed _) _ ↔ Q ((validateProbed _).bind _) _
    cases validateProbed _ with
    | error e => rfl
    | ok valid =>
      rw [andThen_ok]
      show _ ↔ Q (ite _ _ _) _
      split <;> rfl

theorem scanInputFolder_alone (candidates : List ProbedInput) : ∀ {w : World},
    (scanInputFolder ctx candidates).Obeys redis.protocol (Scan ctx w candidates) w := by
  induction candidates with
  | nil => exact fun {w} => .done w
  | cons candidate candidates ih =>
    intro w
    unfold scanInputFolder
    rw [obeys_bind, obeys_probeInputFile]
    cases hp : probeOf ctx w.media candidate with
    | error e =>
      refine .aborted (e := e) ?_
      rw [examine, hp]
      rfl
    | ok probed =>
      rw [andThen_ok, obeys_bind, obeys_ofExcept]
      have hexamine := examine_probed hp
      cases hm : matchProfile ctx.py ctx.config.toRawConfig probed with
      | error e => exact .aborted (by rw [hexamine, hm]; rfl)
      | ok chosen =>
        rw [andThen_ok]
        cases chosen with
        | none => exact ih.mono fun r w' hr => .unmatched (by rw [hexamine, hm]; rfl) hr
        | some chosen =>
          have hsome : examine ctx w.media candidate = .ok (some (probed, chosen)) := by
            rw [hexamine, hm]
            rfl
          rw [obeys_bind]
          apply (enqueueJob_alone probed chosen).mono
          intro r w₁ hr
          -- a file already known and one enqueued now go on alike, in different stores
          cases hr with
          | known hknown =>
            rw [andThen_ok, obeys_bind]
            refine ih.mono fun r w' hr => ?_
            cases r with
            | ok jobs => exact .known hsome hknown hr
            | error e => exact .known hsome hknown hr
          | enqueued hnone hid =>
            rw [andThen_ok, obeys_bind]
            refine ih.mono fun r w' hr => ?_
            cases r with
            | ok jobs => exact .enqueued hsome hnone hid hr
            | error e => exact .enqueued hsome hnone hid hr

/-! What a pass keeps. -/

/-- A later store of the same pass: what was there stays, new ids are new. -/
structure Extends (w w' : World) : Prop where
  issued : w.issued ⊆ w'.issued
  jobs : ∀ id ∈ w.issued, w'.jobs id = w.jobs id
  processed : ∀ {path id}, w.processed path = some id → w'.processed path = some id
  queue : ∀ id ∈ w.pendingQueue, id ∈ w'.pendingQueue

theorem Extends.refl (w : World) : Extends w w :=
  ⟨Finset.Subset.refl _, fun _ _ => rfl, id, fun _ h => h⟩

theorem Extends.trans {w₁ w₂ w₃ : World} (h : Extends w₁ w₂) (h' : Extends w₂ w₃) :
    Extends w₁ w₃ where
  issued := h.issued.trans h'.issued
  jobs id hid := (h'.jobs id (h.issued hid)).trans (h.jobs id hid)
  processed hp := h'.processed (h.processed hp)
  queue id hid := h'.queue id (h.queue id hid)

theorem Extends.enqueued {probed : ProbedInput} {chosen : ProfileMatch} {id : Uuid}
    (hp : w.processed (probed.key ctx) = none) (hid : id ∉ w.issued) :
    Extends w (w.enqueued ctx probed chosen id) where
  issued := Finset.subset_insert ..
  jobs other hother := by
    have hne : other ≠ id := fun he => hid (he ▸ hother)
    exact Function.update_of_ne hne ..
  processed := by
    intro path other hother
    have hne : path ≠ probed.key ctx := by
      intro he
      subst he
      rw [hp] at hother
      cases hother
    rw [← hother]
    exact Function.update_of_ne hne ..
  queue other hother := List.mem_append_left _ hother

theorem Scan.extends {candidates : List ProbedInput} {r : Except Exn (List TranscodeJob)}
    {w w' : World} (h : Scan ctx w candidates r w') : Extends w w' := by
  induction h with
  | done => exact .refl _
  | aborted => exact .refl _
  | unmatched _ _ ih => exact ih
  | known _ _ _ ih => exact ih
  | enqueued _ hp hid _ ih => exact (Extends.enqueued hp hid).trans ih

/-! Which candidates get a job. -/

/-- The candidate probes, matches a profile and is not marked processed. -/
def Eligible (ctx : Context) (w : World) (candidate : ProbedInput) : Prop :=
  (∃ probed chosen, examine ctx w.media candidate = .ok (some (probed, chosen))) ∧
    w.processed (candidate.key ctx) = none

/-- Between `w` and `w'` a job was stored and queued for the candidate's file. -/
def EnqueuedFor (ctx : Context) (w w' : World) (candidate : ProbedInput) : Prop :=
  ∃ job, w'.jobs job.id = some job ∧ job.id ∉ w.issued ∧ job.state = .pending ∧
    ctx.py.canonicalPath job.inputPath = candidate.key ctx ∧
    w'.processed (candidate.key ctx) = some job.id ∧ job.id ∈ w'.pendingQueue

/-- The candidates before the first one whose examination raises. -/
def reached (ctx : Context) (w : World) (candidates : List ProbedInput) : List ProbedInput :=
  candidates.takeWhile (fun candidate => (examine ctx w.media candidate).isOk)

theorem reached_cons {candidate : ProbedInput} {candidates : List ProbedInput}
    {found : Option (ProbedInput × ProfileMatch)} (h : examine ctx w.media candidate = .ok found) :
    reached ctx w (candidate :: candidates) = candidate :: reached ctx w candidates := by
  rw [reached, List.takeWhile_cons, h]
  rfl

/-- Every eligible candidate the pass reaches gets a job. -/
theorem Scan.enqueues {candidates : List ProbedInput} {r : Except Exn (List TranscodeJob)}
    {w w' : World} (h : Scan ctx w candidates r w') :
    ∀ c ∈ reached ctx w candidates, Eligible ctx w c → EnqueuedFor ctx w w' c := by
  induction h with
  | done => exact fun c hc => absurd hc List.not_mem_nil
  | @aborted w c cs e hc =>
    intro c' hc'
    rw [reached, List.takeWhile_cons, hc] at hc'
    exact absurd hc' List.not_mem_nil
  | @unmatched w c cs r w' hc rest ih =>
    intro c' hc' he
    rw [reached_cons hc] at hc'
    rcases List.mem_cons.mp hc' with rfl | hc'
    · obtain ⟨⟨probed, chosen, hex⟩, -⟩ := he
      rw [hc] at hex
      cases hex
    · exact ih c' hc' he
  | @known w c cs probed chosen r w' hc hp rest ih =>
    intro c' hc' he
    rw [reached_cons hc] at hc'
    rcases List.mem_cons.mp hc' with rfl | hc'
    · rw [ProbedInput.key, examine_path hc] at hp
      exact absurd he.2 hp
    · exact ih c' hc' he
  | @enqueued w c cs probed chosen r w' id hc hp hid rest ih =>
    intro c' hc' he
    rw [reached_cons hc] at hc'
    have hkey : probed.key ctx = c.key ctx := by rw [ProbedInput.key, examine_path hc]; rfl
    have hext := rest.extends
    by_cases hsame : c'.key ctx = c.key ctx
    · -- The file of this candidate: the job just enqueued.
      refine ⟨newJob ctx probed chosen id w.clock, ?_, hid, rfl, ?_, ?_, ?_⟩
      · exact (hext.jobs id (Finset.mem_insert_self ..)).trans (Function.update_self ..)
      · rw [hsame, ← hkey]
        rfl
      · rw [hsame, ← hkey]
        exact hext.processed (Function.update_self ..)
      · exact hext.queue id (List.mem_append_right _ (List.mem_singleton_self id))
    · rcases List.mem_cons.mp hc' with rfl | hc'
      · exact absurd rfl hsame
      -- another file stays eligible
      · have he' : Eligible ctx (w.enqueued ctx probed chosen id) c' := by
          refine ⟨he.1, ?_⟩
          rw [← he.2]
          exact Function.update_of_ne (by rw [hkey]; exact hsame) ..
        obtain ⟨job, hj, hnew, hrest⟩ := ih c' hc' he'
        exact ⟨job, hj, fun hold => hnew (Finset.mem_insert_of_mem hold), hrest⟩

/-- A file that became processed in the pass is that of an eligible candidate it reached. -/
theorem Scan.processed {candidates : List ProbedInput} {r : Except Exn (List TranscodeJob)}
    {w w' : World} (h : Scan ctx w candidates r w') {path : String} (hold : w.processed path = none)
    (hnew : w'.processed path ≠ none) :
    ∃ c ∈ reached ctx w candidates, Eligible ctx w c ∧ c.key ctx = path := by
  induction h with
  | done => exact absurd hold hnew
  | aborted => exact absurd hold hnew
  | unmatched hc rest ih =>
    obtain ⟨c', hc', he⟩ := ih hold hnew
    exact ⟨c', by rw [reached_cons hc]; exact List.mem_cons_of_mem _ hc', he⟩
  | known hc hp rest ih =>
    obtain ⟨c', hc', he⟩ := ih hold hnew
    exact ⟨c', by rw [reached_cons hc]; exact List.mem_cons_of_mem _ hc', he⟩
  | @enqueued w c cs probed chosen r w' id hc hp hid rest ih =>
    have hkey : probed.key ctx = c.key ctx := by rw [ProbedInput.key, examine_path hc]; rfl
    by_cases hsame : path = c.key ctx
    · subst hsame
      refine ⟨c, by rw [reached_cons hc]; exact List.mem_cons_self .., ⟨⟨_, _, hc⟩, hold⟩, rfl⟩
    · have hold' : (w.enqueued ctx probed chosen id).processed path = none := by
        rw [← hold]
        exact Function.update_of_ne (by rw [hkey]; exact hsame) ..
      obtain ⟨c', hc', ⟨hex, hnone⟩, hk⟩ := ih hold' hnew
      exact ⟨c', by rw [reached_cons hc]; exact List.mem_cons_of_mem _ hc',
        ⟨hex, by rw [hk]; exact hold⟩, hk⟩

/-- A pass enqueues a job for every eligible candidate exactly when each of them, or another
    eligible candidate for the same file, comes before the first that cannot be examined. -/
theorem scan_enqueues_all_iff {candidates : List ProbedInput} {tape : List Choice} {w w' : World}
    {r : Except Exn (List TranscodeJob)}
    (h : redis.run (scanInputFolder ctx candidates) tape w = some (r, w')) :
    (∀ c ∈ candidates, Eligible ctx w c → EnqueuedFor ctx w w' c) ↔
      ∀ c ∈ candidates, Eligible ctx w c →
        ∃ c' ∈ reached ctx w candidates, Eligible ctx w c' ∧ c'.key ctx = c.key ctx := by
  have hscan := Machine.run_obeys h (scanInputFolder_alone candidates)
  constructor
  · intro hall c hc he
    obtain ⟨job, -, -, -, -, hprocessed, -⟩ := hall c hc he
    exact hscan.processed he.2 (by rw [hprocessed]; exact Option.some_ne_none _)
  · intro hall c hc he
    obtain ⟨c', hc', he', hkey⟩ := hall c hc he
    obtain ⟨job, hj⟩ := hscan.enqueues c' hc' he'
    rw [hkey] at hj
    exact ⟨job, hj⟩

end

/-- One file that `ffprobe` rejects among good ones. -/
def brokenFile : World :=
  { World.empty with
    media := fun path =>
      if path = .parse "/tmp/input/a.mp4" then .error (.vshift "ffprobe failed")
      else .ok ⟨1000, some (.finite 60), some "h264", some 1920, some 1080, some 8, some false⟩ }

theorem scan_enqueues_all_brokenFile_last : ∃ r w',
    redis.run (scanInputFolder smallContext
        [mp4File "/tmp/input/0.mp4", mp4File "/tmp/input/a.mp4"])
      [.go, .go, .id 1] brokenFile = some (r, w') ∧
    ∀ c ∈ [mp4File "/tmp/input/0.mp4", mp4File "/tmp/input/a.mp4"],
      Eligible smallContext brokenFile c → EnqueuedFor smallContext brokenFile w' c := by
  have hrun : ∃ r w', redis.run (scanInputFolder smallContext
      [mp4File "/tmp/input/0.mp4", mp4File "/tmp/input/a.mp4"]) [.go, .go, .id 1] brokenFile =
      some (r, w') := ⟨_, _, rfl⟩
  obtain ⟨r, w', hrun⟩ := hrun
  refine ⟨r, w', hrun, (scan_enqueues_all_iff hrun).mpr ?_⟩
  intro c hc he
  rcases List.mem_cons.mp hc with rfl | hc
  · exact ⟨mp4File "/tmp/input/0.mp4", by decide, he, rfl⟩
  · rw [List.mem_singleton] at hc
    subst hc
    obtain ⟨⟨probed, chosen, hex⟩, -⟩ := he
    cases hex

/-- The broken file comes first: the pass ends there, leaves the store as it was, and so does
    every later pass; the good file behind it is never enqueued. -/
theorem scan_not_isolated :
    ¬ ∀ (candidates : List ProbedInput) (tape : List Choice) (w w' : World)
        (r : Except Exn (List TranscodeJob)),
      redis.run (scanInputFolder smallContext candidates) tape w = some (r, w') →
        ∀ c ∈ candidates, Eligible smallContext w c → EnqueuedFor smallContext w w' c := by
  intro h
  have hrun : redis.run (scanInputFolder smallContext
      [mp4File "/tmp/input/a.mp4", mp4File "/tmp/input/b.mp4"]) [] brokenFile =
      some (.error (.vshift "ffprobe failed"), brokenFile) := rfl
  obtain ⟨job, hj, -⟩ := h _ _ _ _ _ hrun (mp4File "/tmp/input/b.mp4") (by decide)
    ⟨⟨_, _, rfl⟩, rfl⟩
  cases hj

end Vshift
