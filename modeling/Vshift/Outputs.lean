import Vshift.Scan

/- Output paths over whole runs of scans.

   The output of a job is `<output>/<stem>.<format>`: neither the directory of
   the input nor its extension shows in it. `taken` computes from the inputs of
   the scans alone which files get a job, and with which profile; `Filed` ties
   the store to it. `no_overwrite_iff` reads the claim off the names of the files
   taken. -/
namespace Vshift
open Command

/-! Output names. -/

/-- `<stem>.<format>` as a relative path. -/
def outputName (input : Path) (profile : VshiftProfile) : Path :=
  .ofChars (input.stem ++ '.' :: profile.format.toList)

/-- The name never starts with a slash, so `/` always appends it. -/
theorem outputName_root (input : Path) (profile : VshiftProfile) :
    (outputName input profile).root = [] := by
  have hstem := input.slash_notMem_stem
  show Path.rootOf (input.stem ++ '.' :: profile.format.toList) = []
  cases h : input.stem with
  | nil => rfl
  | cons c cs =>
    have hc : c ≠ '/' := by
      rw [h] at hstem
      exact fun he => hstem (he ▸ List.mem_cons_self ..)
    rw [List.cons_append]
    unfold Path.rootOf
    split
    · next he => exact absurd (List.cons.inj he).1 hc
    · next he => exact absurd (List.cons.inj he).1 hc
    · next he => exact absurd (List.cons.inj he).1 hc
    · rfl

theorem Path.join_inj {p q q' : Path} (hq : q.root = []) (hq' : q'.root = []) :
    p.join q = p.join q' ↔ q = q' := by
  constructor
  · intro h
    simp only [Path.join, hq, hq', if_true, Path.mk.injEq, List.append_cancel_left_eq,
      true_and] at h
    cases q
    cases q'
    simp_all
  · exact fun h => by rw [h]

theorem buildOutputPath_inj {output input input' : Path} {profile profile' : VshiftProfile} :
    buildOutputPath output input profile = buildOutputPath output input' profile' ↔
      outputName input profile = outputName input' profile' :=
  Path.join_inj (outputName_root input profile) (outputName_root input' profile')

/-! Runs of scans. -/

/-- What one scan finds: the files the scanner lists and what `ffprobe` makes of them. -/
structure ScanInput where
  candidates : List ProbedInput
  media : Path → Except Exn MediaProbe

/-- A run of scans, one after another, each to its end or to its exception. -/
inductive Scans (ctx : Context) : World → List ScanInput → World → Prop
  | nil (w) : Scans ctx w [] w
  | cons {w w' w''} {i : ScanInput} {is r} (tape : List Choice)
      (hrun : redis.run (scanInputFolder ctx i.candidates) tape { w with media := i.media } =
        some (r, w')) (rest : Scans ctx w' is w'') : Scans ctx w (i :: is) w''

/-- An input file and the profile it was matched with. -/
abbrev Taken := ProbedInput × ProfileMatch

/-- The candidates of one scan that are matched, up to the first one that raises. -/
def matchedFiles (ctx : Context) (media : Path → Except Exn MediaProbe) :
    List ProbedInput → List Taken
  | [] => []
  | c :: cs =>
    match examine ctx media c with
    | .error _ => []
    | .ok none => matchedFiles ctx media cs
    | .ok (some t) => t :: matchedFiles ctx media cs

/-- A matched file is taken unless a file with its canonical path has been. -/
def take (ctx : Context) (ts : List Taken) (t : Taken) : List Taken :=
  if ts.any (fun t' => t'.1.key ctx == t.1.key ctx) then ts else ts ++ [t]

/-- The files a run of scans creates jobs for. -/
def taken (ctx : Context) (is : List ScanInput) : List Taken :=
  (is.flatMap (fun i => matchedFiles ctx i.media i.candidates)).foldl (take ctx) []

/-! The store and the files taken. -/

section
variable {ctx : Context} {w : World} {ts : List Taken}

theorem mem_take {t x : Taken} : x ∈ take ctx ts t ↔
    x ∈ ts ∨ (x = t ∧ ∀ t' ∈ ts, t'.1.key ctx ≠ t.1.key ctx) := by
  unfold take
  split
  · next h =>
    obtain ⟨t', ht', he⟩ := List.any_eq_true.mp h
    refine ⟨.inl, fun hx => hx.elim id fun hx => absurd (by simpa using he) (hx.2 t' ht')⟩
  · next h =>
    have hall : ∀ t' ∈ ts, t'.1.key ctx ≠ t.1.key ctx := by
      intro t' ht' he
      exact h (List.any_eq_true.mpr ⟨t', ht', by simpa using he⟩)
    rw [List.mem_append, List.mem_singleton]
    exact ⟨fun hx => hx.imp id fun hx => ⟨hx, hall⟩, fun hx => hx.imp id And.left⟩

/-- The stored jobs are those of the files taken, with the input and output paths that follow
    from them; the processed keys are theirs. -/
structure Filed (ctx : Context) (w : World) (ts : List Taken) : Prop where
  issued : ∀ {id job}, w.jobs id = some job → id ∈ w.issued
  stored : ∀ {id job}, w.jobs id = some job → ∃ t ∈ ts, job.inputPath = t.1.path ∧
    job.outputPath = buildOutputPath ctx.config.directories.output t.1.path t.2.profile
  taken : ∀ t ∈ ts, ∃ id job, w.jobs id = some job ∧ job.inputPath = t.1.path ∧
    job.outputPath = buildOutputPath ctx.config.directories.output t.1.path t.2.profile
  processed : ∀ path, w.processed path ≠ none ↔ ∃ t ∈ ts, t.1.key ctx = path

theorem Filed.known (h : Filed ctx w ts) {t : Taken} (hp : w.processed (t.1.key ctx) ≠ none) :
    take ctx ts t = ts := by
  obtain ⟨t', ht', he⟩ := (h.processed _).mp hp
  unfold take
  rw [if_pos (List.any_eq_true.mpr ⟨t', ht', by simpa using he⟩)]

theorem Filed.enqueued (h : Filed ctx w ts) {t : Taken} {id : Uuid}
    (hp : w.processed (t.1.key ctx) = none) (hid : id ∉ w.issued) :
    Filed ctx (w.enqueued ctx t.1 t.2 id) (take ctx ts t) := by
  have hnew : ∀ t' ∈ ts, t'.1.key ctx ≠ t.1.key ctx :=
    fun t' ht' he => (h.processed _).mpr ⟨t', ht', he⟩ hp
  -- a fresh id is under no record
  have hfree : w.jobs id = none := by
    cases hj : w.jobs id with
    | none => rfl
    | some job => exact absurd (h.issued hj) hid
  have hjobs : (w.enqueued ctx t.1 t.2 id).jobs =
      Function.update w.jobs id (some (newJob ctx t.1 t.2 id w.clock)) := rfl
  have hold : ∀ {other job}, w.jobs other = some job →
      (w.enqueued ctx t.1 t.2 id).jobs other = some job := by
    intro other job hj
    have hne : other ≠ id := by
      intro he
      subst he
      rw [hfree] at hj
      cases hj
    rw [hjobs, Function.update_of_ne hne]
    exact hj
  refine ⟨?_, ?_, ?_, ?_⟩
  · intro other job hj
    show other ∈ insert id w.issued
    by_cases he : other = id
    · exact Finset.mem_insert.mpr (.inl he)
    · rw [hjobs, Function.update_of_ne he] at hj
      exact Finset.mem_insert_of_mem (h.issued hj)
  · intro other job hj
    by_cases he : other = id
    · rw [hjobs, he, Function.update_self, Option.some.injEq] at hj
      subst hj
      exact ⟨t, mem_take.mpr (.inr ⟨rfl, hnew⟩), rfl, rfl⟩
    · rw [hjobs, Function.update_of_ne he] at hj
      obtain ⟨t', ht', hrest⟩ := h.stored hj
      exact ⟨t', mem_take.mpr (.inl ht'), hrest⟩
  · intro t' ht'
    rcases mem_take.mp ht' with ht' | ⟨rfl, -⟩
    · obtain ⟨other, job, hj, hrest⟩ := h.taken t' ht'
      exact ⟨other, job, hold hj, hrest⟩
    · exact ⟨id, newJob ctx t'.1 t'.2 id w.clock, by rw [hjobs, Function.update_self], rfl, rfl⟩
  · intro path
    show Function.update w.processed (t.1.key ctx) (some id) path ≠ none ↔ _
    by_cases he : path = t.1.key ctx
    · rw [he, Function.update_self]
      exact ⟨fun _ => ⟨t, mem_take.mpr (.inr ⟨rfl, hnew⟩), rfl⟩, fun _ => Option.some_ne_none id⟩
    · rw [Function.update_of_ne he, h.processed]
      constructor
      · intro ⟨t', ht', hk⟩
        exact ⟨t', mem_take.mpr (.inl ht'), hk⟩
      · intro ⟨t', ht', hk⟩
        rcases mem_take.mp ht' with ht' | ⟨rfl, -⟩
        · exact ⟨t', ht', hk⟩
        · exact absurd hk.symm he

/-- One scan takes what it matches. -/
theorem Filed.scan {candidates : List ProbedInput} {r : Except Exn (List TranscodeJob)}
    {w w' : World} (h : Scan ctx w candidates r w') : ∀ {ts : List Taken}, Filed ctx w ts →
      Filed ctx w' ((matchedFiles ctx w.media candidates).foldl (take ctx) ts) := by
  induction h with
  | done => exact fun hf => hf
  | aborted hc =>
    intro ts hf
    rw [matchedFiles, hc]
    exact hf
  | unmatched hc _ ih =>
    intro ts hf
    rw [matchedFiles, hc]
    exact ih hf
  | @known w c cs probed chosen r w' hc hp _ ih =>
    intro ts hf
    rw [matchedFiles, hc]
    show Filed ctx w'
      ((matchedFiles ctx w.media cs).foldl (take ctx) (take ctx ts (probed, chosen)))
    rw [hf.known hp]
    exact ih hf
  | @enqueued w c cs probed chosen r w' id hc hp hid _ ih =>
    intro ts hf
    rw [matchedFiles, hc]
    exact ih (hf.enqueued (t := (probed, chosen)) hp hid)

theorem Filed.scans {w w' : World} {is : List ScanInput} (h : Scans ctx w is w') :
    ∀ {ts : List Taken}, Filed ctx w ts → Filed ctx w'
      ((is.flatMap (fun i => matchedFiles ctx i.media i.candidates)).foldl (take ctx) ts) := by
  induction h with
  | nil => exact fun hf => hf
  | @cons w w' w'' i is r tape hrun _ ih =>
    intro ts hf
    rw [List.flatMap_cons, List.foldl_append]
    have hscan := Machine.run_obeys hrun (scanInputFolder_alone i.candidates)
    have hf' : Filed ctx { w with media := i.media } ts :=
      ⟨hf.issued, hf.stored, hf.taken, hf.processed⟩
    exact ih (hf'.scan hscan)

theorem filed_empty (ctx : Context) : Filed ctx .empty [] where
  issued := fun h => by cases h
  stored := fun h => by cases h
  taken := fun t ht => absurd ht List.not_mem_nil
  processed := by
    refine fun path => ⟨fun h => absurd rfl h, ?_⟩
    rintro ⟨t, ht, -⟩
    exact absurd ht List.not_mem_nil

/-! The claim and its condition. -/

/-- No job's output is written over by the job of another file, or over any job's input. -/
structure NoOverwrite (ctx : Context) (w : World) : Prop where
  outputs : ∀ {id₁ id₂ job₁ job₂}, w.jobs id₁ = some job₁ → w.jobs id₂ = some job₂ →
    ctx.py.canonicalPath job₁.inputPath ≠ ctx.py.canonicalPath job₂.inputPath →
    job₁.outputPath ≠ job₂.outputPath
  inputs : ∀ {id₁ id₂ job₁ job₂}, w.jobs id₁ = some job₁ → w.jobs id₂ = some job₂ →
    job₁.outputPath ≠ job₂.inputPath

/-- Different files have different names `<stem>.<format>`, and no file is one of these names in
    the output directory. -/
structure Separate (ctx : Context) (ts : List Taken) : Prop where
  names : ∀ a ∈ ts, ∀ b ∈ ts, a.1.key ctx ≠ b.1.key ctx →
    outputName a.1.path a.2.profile ≠ outputName b.1.path b.2.profile
  outside : ∀ a ∈ ts, ∀ b ∈ ts,
    b.1.path ≠ ctx.config.directories.output.join (outputName a.1.path a.2.profile)

/-- After any run of scans no output is overwritten exactly when the files taken are separate. -/
theorem no_overwrite_iff {is : List ScanInput} (h : Scans ctx .empty is w) :
    NoOverwrite ctx w ↔ Separate ctx (taken ctx is) := by
  have hf : Filed ctx w (taken ctx is) := Filed.scans h (filed_empty ctx)
  constructor
  · intro hno
    constructor
    · intro a ha b hb hne
      obtain ⟨id₁, job₁, hj₁, hi₁, ho₁⟩ := hf.taken a ha
      obtain ⟨id₂, job₂, hj₂, hi₂, ho₂⟩ := hf.taken b hb
      have hout := hno.outputs hj₁ hj₂ (by rw [hi₁, hi₂]; exact hne)
      rw [ho₁, ho₂] at hout
      exact fun he => hout (buildOutputPath_inj.mpr he)
    · intro a ha b hb he
      obtain ⟨id₁, job₁, hj₁, hi₁, ho₁⟩ := hf.taken a ha
      obtain ⟨id₂, job₂, hj₂, hi₂, ho₂⟩ := hf.taken b hb
      apply hno.inputs hj₁ hj₂
      rw [ho₁, hi₂, he]
      rfl
  · intro hsep
    constructor
    · intro id₁ id₂ job₁ job₂ hj₁ hj₂ hne
      obtain ⟨a, ha, hi₁, ho₁⟩ := hf.stored hj₁
      obtain ⟨b, hb, hi₂, ho₂⟩ := hf.stored hj₂
      rw [hi₁, hi₂] at hne
      rw [ho₁, ho₂]
      exact fun he => hsep.names a ha b hb hne (buildOutputPath_inj.mp he)
    · intro id₁ id₂ job₁ job₂ hj₁ hj₂ he
      obtain ⟨a, ha, -, ho₁⟩ := hf.stored hj₁
      obtain ⟨b, hb, hi₂, -⟩ := hf.stored hj₂
      apply hsep.outside a ha b hb
      rw [← hi₂, ← he, ho₁]
      rfl

end
/-- The choices of an enqueueing candidate: its UUID is drawn third. -/
def enqueueTape (id : Uuid) : List Choice := [.go, .go, .id id, .go, .go, .go, .go, .go, .go]

/-- Two video files in the given places. -/
def twoFiles (first second : String) : ScanInput where
  candidates := [mp4File first, mp4File second]
  media _ := .ok ⟨1000, some (.finite 60), some "h264", some 1920, some 1080, some 8, some false⟩

theorem no_overwrite_twoFiles : ∃ w,
    Scans smallContext .empty [twoFiles "/tmp/input/a.mp4" "/tmp/input/b.mp4"] w ∧
      NoOverwrite smallContext w := by
  have hscans : ∃ w, Scans smallContext .empty [twoFiles "/tmp/input/a.mp4" "/tmp/input/b.mp4"] w :=
    ⟨_, .cons (enqueueTape 1 ++ enqueueTape 2) rfl (.nil _)⟩
  obtain ⟨w, hw⟩ := hscans
  exact ⟨w, hw, (no_overwrite_iff hw).mpr ⟨by decide, by decide⟩⟩

/-- Files of one name in two directories get one output path. -/
theorem outputs_collide :
    ¬ ∀ (is : List ScanInput) (w : World), Scans smallContext .empty is w →
      NoOverwrite smallContext w := by
  intro h
  have hscans : ∃ w, Scans smallContext .empty
      [twoFiles "/tmp/input/a.mp4" "/tmp/input/sub/a.mp4"] w ∧
      (w.jobs 1).map (fun job => (job.inputPath, job.outputPath)) =
        some (.parse "/tmp/input/a.mp4", .parse "/tmp/output/a.mp4") ∧
      (w.jobs 2).map (fun job => (job.inputPath, job.outputPath)) =
        some (.parse "/tmp/input/sub/a.mp4", .parse "/tmp/output/a.mp4") :=
    ⟨_, .cons (enqueueTape 1 ++ enqueueTape 2) rfl (.nil _), by decide, by decide⟩
  obtain ⟨w, hw, h₁, h₂⟩ := hscans
  obtain ⟨job₁, hj₁, he₁⟩ := Option.map_eq_some_iff.mp h₁
  obtain ⟨job₂, hj₂, he₂⟩ := Option.map_eq_some_iff.mp h₂
  rw [Prod.mk.injEq] at he₁ he₂
  refine (h _ _ hw).outputs hj₁ hj₂ ?_ (he₁.2.trans he₂.2.symm)
  rw [he₁.1, he₂.1]
  decide

end Vshift
