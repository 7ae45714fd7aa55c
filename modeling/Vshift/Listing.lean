import Vshift.Loading
import Vshift.Sorting
import Mathlib.Data.Finset.Card

/- The job repository as a database: what a sequence of saves leaves, and what the
   listings over it return.

   The set of a state and the records agree after any saves (`World.Tidy`, kept by
   `Tidy.saved`), so a listing is a slice of all stored jobs of its state, newest
   first, whatever order `SMEMBERS` yields (`obeys_listByState_iff`), provided that
   all of them can be read: one document that is refused makes every listing of its
   state raise. `index_exact_iff` says after which sequences of saves the repository
   shows what was saved. The unfiltered listing of the API merges the newest thousand
   of each state: `list_jobs_iff` says which of its slices are those of all jobs. -/
namespace Vshift
open Command Program

/-! `infrastructure/api/job_queries.py` -/

/-- The loop of `list_jobs` over the states. -/
def listStates : List JobState → Prog (List TranscodeJob)
  | [] => pure []
  | state :: states => do
    let jobs ← listByState state 1000
    let others ← listStates states
    pure (jobs ++ others)

def listJobs (state : Option JobState) (limit offset : Nat) : Prog (List TranscodeJob) :=
  match state with
  | some state => listByState state limit offset
  | none => do
    let jobs ← listStates JobState.members
    pure (((newestFirst jobs).drop offset).take limit)

/-- A client that asks for page after page until one is empty, `fuel` pages at most. -/
def walkPages (page : Nat → Prog (List TranscodeJob)) (limit : Nat) :
    Nat → Nat → Prog (List TranscodeJob)
  | 0, _ => pure []
  | fuel + 1, offset => do
    let jobs ← page offset
    if jobs = [] then pure []
    else do
      let others ← walkPages page limit fuel (offset + limit)
      pure (jobs ++ others)

/-! Complete listings. -/

/-- The stored jobs of a state, each once. -/
structure Members (w : World) (s : JobState) (jobs : List TranscodeJob) : Prop where
  nodup : jobs.Nodup
  mem : ∀ job, job ∈ jobs ↔ w.jobs job.id = some job ∧ job.state = s

/-- All stored jobs, newest first. -/
structure AllNewestFirst (w : World) (jobs : List TranscodeJob) : Prop where
  falling : Sorting.Falling (·.createdAt) jobs
  mem : ∀ job, job ∈ jobs ↔ w.jobs job.id = some job

/-- The stored jobs have different creation times. -/
def World.DistinctTimes (w : World) : Prop := ∀ id id' job job', w.jobs id = some job →
  w.jobs id' = some job' → job.createdAt = job'.createdAt → job = job'

theorem World.DistinctTimes.dumped {w : World} (h : w.DistinctTimes) :
    w.dumped.DistinctTimes := by
  intro id id' job job' hj hj' htime
  obtain ⟨stored, hstored, rfl⟩ := Option.map_eq_some_iff.mp hj
  obtain ⟨stored', hstored', rfl⟩ := Option.map_eq_some_iff.mp hj'
  rw [h id id' stored stored' hstored hstored' htime]

/-- The other jobs of its state that a listing may put before `job`. -/
def World.ahead (w : World) (job : TranscodeJob) : Finset Uuid :=
  (w.stateIndex job.state).filter fun id =>
    id ≠ job.id ∧ (w.jobs id).any (job.createdAt ≤ ·.createdAt) = true

section
variable {w : World} {s : JobState}

theorem Members.of_ids (ht : w.Tidy) {ids : List Uuid} (hn : ids.Nodup)
    (hids : ids.toFinset = w.stateIndex s) : Members w s (ids.filterMap w.jobs) := by
  constructor
  · exact (ids_nodup ht hn).of_map _
  · intro job
    rw [List.mem_filterMap]
    constructor
    · intro ⟨id, hid, hj⟩
      -- a record is stored under its own id
      have hself : job.id = id := ht.ids hj
      have hindex : id ∈ w.stateIndex s := hids ▸ List.mem_toFinset.mpr hid
      obtain ⟨other, ho, hs⟩ := (ht.index s id).mp hindex
      rw [hj, Option.some.injEq] at ho
      exact ⟨hself ▸ hj, ho ▸ hs⟩
    · intro ⟨hj, hs⟩
      have hindex : job.id ∈ w.stateIndex s := (ht.index s job.id).mpr ⟨job, hj, hs⟩
      exact ⟨job.id, List.mem_toFinset.mp (hids ▸ hindex), hj⟩

theorem Members.ids (ht : w.Tidy) {jobs : List TranscodeJob} (hm : Members w s jobs) :
    (jobs.map (·.id)).Nodup ∧ (jobs.map (·.id)).toFinset = w.stateIndex s ∧
      (jobs.map (·.id)).filterMap w.jobs = jobs := by
  refine ⟨?_, ?_, ?_⟩
  · apply hm.nodup.map_on
    intro a ha b hb heq
    have haw := ((hm.mem a).mp ha).1
    rw [heq, ((hm.mem b).mp hb).1, Option.some.injEq] at haw
    exact haw.symm
  · ext id
    rw [List.mem_toFinset, List.mem_map, ht.index]
    constructor
    · intro ⟨job, hjob, hid⟩
      exact ⟨job, hid ▸ (hm.mem job).mp hjob⟩
    · intro ⟨job, hj, hs⟩
      have hid := ht.ids hj
      exact ⟨job, (hm.mem job).mpr ⟨by rw [hid]; exact hj, hs⟩, hid⟩
  · rw [List.filterMap_map]
    calc jobs.filterMap (w.jobs ∘ (·.id))
      _ = jobs.filterMap some := List.filterMap_congr fun job hjob => ((hm.mem job).mp hjob).1
      _ = jobs := List.filterMap_some

theorem Members.length_eq (ht : w.Tidy) {jobs : List TranscodeJob} (hm : Members w s jobs) :
    jobs.length = (w.stateIndex s).card := by
  obtain ⟨hnodup, hset, _⟩ := hm.ids ht
  rw [← hset, List.toFinset_card_of_nodup hnodup, List.length_map]

/-- A listing reads the set in any order, and returns a slice of the records, newest first. -/
theorem obeys_listByState_iff (ht : w.Tidy) {limit offset : Nat}
    {Q : Except Exn (List TranscodeJob) → World → Prop} :
    (listByState s limit offset).Obeys redis.protocol Q w ↔
      ∀ jobs, Members w s jobs →
        Q (.ok (Sorting.slice offset limit (newestFirst jobs))) w := by
  have hget : ∀ ids : List Uuid, (getJobs ids >>= fun jobs =>
      (pure (((newestFirst jobs).drop offset).take limit) : Prog (List TranscodeJob))).Obeys
        redis.protocol Q w ↔
      Q (.ok (Sorting.slice offset limit (newestFirst (ids.filterMap w.jobs)))) w := by
    intro ids
    rw [obeys_bind, obeys_getJobs, andThen_ok, obeys_pure]
    rfl
  unfold listByState
  rw [obeys_call_bind]
  constructor
  · intro h jobs hm
    obtain ⟨hnodup, hset, hback⟩ := hm.ids ht
    -- `SMEMBERS` may yield the ids of these jobs in just their order
    have hlist := (hget (jobs.map (·.id))).mp (h.2 _ ⟨.order _, if_pos ⟨hnodup, hset⟩⟩)
    rw [hback] at hlist
    exact hlist
  · intro h
    refine ⟨trivial, ?_⟩
    intro ids ⟨x, hx⟩
    -- whatever order it yields, the records read are the members
    obtain ⟨hn, hids⟩ := World.answer_smembers hx
    exact (hget ids).mpr (h _ (Members.of_ids ht hn hids))

/-- With all jobs of the state in strictly falling order, every listing is a slice of them. -/
theorem obeys_listByState_of_complete (ht : w.Tidy) {all : List TranscodeJob}
    (hall : Members w s all) (hf : Sorting.Falling (·.createdAt) all) {limit offset : Nat}
    {Q : Except Exn (List TranscodeJob) → World → Prop} :
    (listByState s limit offset).Obeys redis.protocol Q w ↔
      Q (.ok (Sorting.slice offset limit all)) w := by
  have hsort : ∀ jobs, Members w s jobs → newestFirst jobs = all := by
    intro jobs hm
    apply Sorting.sort_eq hf hm.nodup
    intro job
    rw [hm.mem, hall.mem]
  rw [obeys_listByState_iff ht]
  constructor
  · intro h
    have hQ := h all hall
    rw [hsort all hall] at hQ
    exact hQ
  · intro hQ jobs hm
    rw [hsort jobs hm]
    exact hQ

/-- A listing of documents that can all be read. -/
theorem obeys_loading_listByState_iff (ht : w.Tidy)
    (hread : ∀ job, w.jobs job.id = some job → job.state = s → job.Readable) {limit offset : Nat}
    {Q : Except Exn (List TranscodeJob) → World → Prop} :
    (loading (listByState s limit offset)).Obeys redis.protocol Q w ↔
      ∀ jobs, Members w.dumped s jobs →
        Q (.ok (Sorting.slice offset limit (newestFirst jobs))) w := by
  have hlist : ∀ ids : List Uuid, ids.toFinset = w.stateIndex s →
      w.documents.listByState ids limit offset =
        .ok (Sorting.slice offset limit (newestFirst (ids.filterMap w.dumped.jobs))) := by
    intro ids hids
    have hall : ∀ id ∈ ids, ∀ job, w.jobs id = some job → job.Readable := by
      intro id hid job hj
      obtain ⟨other, hother, hs⟩ := (ht.index s id).mp (hids ▸ List.mem_toFinset.mpr hid)
      rw [hj, Option.some.injEq] at hother
      exact hread job (ht.ids hj ▸ hj) (hother ▸ hs)
    rw [JobDocuments.listByState, getAll_readable hall]
    rfl
  rw [obeys_loading_listByState]
  constructor
  · intro h jobs hm
    obtain ⟨hnodup, hset, hback⟩ := hm.ids ht.dumped
    have hQ := h _ hnodup hset
    rw [hlist _ hset, hback] at hQ
    exact hQ
  · intro h ids hn hids
    rw [hlist ids hids]
    exact h _ (Members.of_ids ht.dumped hn hids)

/-- One document that cannot be read, and every listing of its state raises. -/
theorem listByState_refused (ht : w.Tidy) {job : TranscodeJob} (hj : w.jobs job.id = some job)
    (hs : job.state = s) (h : ¬ job.Readable) {limit offset : Nat}
    {Q : Except Exn (List TranscodeJob) → World → Prop}
    (hQ : (loading (listByState s limit offset)).Obeys redis.protocol Q w) :
    ∃ e, Q (.error e) w := by
  have hid : job.id ∈ (w.stateIndex s).toList :=
    Finset.mem_toList.mpr ((ht.index s job.id).mpr ⟨job, hj, hs⟩)
  have hlist := obeys_loading_listByState.mp hQ _ (Finset.nodup_toList _) (Finset.toList_toFinset _)
  obtain ⟨e, herror⟩ := getAll_refused hid hj h
  rw [JobDocuments.listByState, herror] at hlist
  exact ⟨e, hlist⟩

theorem obeys_loading_listByState_of_complete (ht : w.Tidy)
    (hread : ∀ job, w.jobs job.id = some job → job.state = s → job.Readable)
    {all : List TranscodeJob} (hall : Members w.dumped s all)
    (hf : Sorting.Falling (·.createdAt) all) {limit offset : Nat}
    {Q : Except Exn (List TranscodeJob) → World → Prop} :
    (loading (listByState s limit offset)).Obeys redis.protocol Q w ↔
      Q (.ok (Sorting.slice offset limit all)) w := by
  have hplain := @obeys_listByState_of_complete w.dumped s ht.dumped all hall hf limit offset
    fun r _ => Q r w
  rw [obeys_listByState_iff ht.dumped] at hplain
  rw [obeys_loading_listByState_iff ht hread, hplain]

theorem exists_members (ht : w.Tidy) (hd : w.DistinctTimes) (s : JobState) :
    ∃ all, Members w s all ∧ Sorting.Falling (·.createdAt) all := by
  have hlisted := Members.of_ids (s := s) ht (Finset.nodup_toList _) (Finset.toList_toFinset _)
  refine ⟨newestFirst ((w.stateIndex s).toList.filterMap w.jobs), ⟨?_, ?_⟩, ?_⟩
  · exact (Sorting.descending_perm _).nodup_iff.mpr hlisted.nodup
  · intro job
    rw [← hlisted.mem]
    exact Sorting.mem_descending
  · apply Sorting.falling_descending hlisted.nodup
    intro a ha b hb heq
    exact hd _ _ a b ((hlisted.mem a).mp ha).1 ((hlisted.mem b).mp hb).1 heq

/-- Pages of slices of one list, put together, are that list. -/
theorem obeys_walkPages {page : Nat → Prog (List TranscodeJob)} {limit : Nat} (hlimit : 1 ≤ limit)
    {all : List TranscodeJob} (hpage : ∀ offset (Q : Except Exn (List TranscodeJob) → World → Prop),
      (page offset).Obeys redis.protocol Q w ↔ Q (.ok (Sorting.slice offset limit all)) w)
    {fuel : Nat} : ∀ {offset : Nat} {Q : Except Exn (List TranscodeJob) → World → Prop},
      all.length < fuel + offset → ((walkPages page limit fuel offset).Obeys redis.protocol Q w ↔
        Q (.ok (all.drop offset)) w) := by
  induction fuel with
  | zero =>
    intro offset Q hfuel
    rw [List.drop_of_length_le (by omega)]
    rfl
  | succ fuel ih =>
    intro offset Q hfuel
    unfold walkPages
    rw [obeys_bind, hpage, andThen_ok]
    -- a page that is not empty moves the offset on by `limit`, which is at least 1
    by_cases hempty : Sorting.slice offset limit all = []
    · rw [if_pos hempty, obeys_pure,
        List.drop_of_length_le ((Sorting.slice_eq_nil hlimit).mp hempty)]
    · rw [if_neg hempty, obeys_bind, ih (by omega), andThen_ok, obeys_pure,
        Sorting.slice_append_drop]

end

/-! Sequences of saves. -/

def saveAll (ctx : Context) : List TranscodeJob → Prog Unit
  | [] => pure ()
  | job :: jobs => do
    saveJob ctx job
    saveAll ctx jobs

/-- The record of `id` saved last. -/
def lastSaved (saves : List TranscodeJob) (id : Uuid) : Option TranscodeJob :=
  saves.reverse.find? (·.id = id)

section
variable {ctx : Context}

theorem tidy_saves {saves : List TranscodeJob} : ∀ {w : World}, w.Tidy →
    (saves.foldl (World.saved ctx) w).Tidy := by
  induction saves with
  | nil => exact fun h => h
  | cons job saves ih => exact fun h => ih (h.saved job)

/-- A later save of the same job wins. -/
theorem lastSaved_cons (job : TranscodeJob) (saves : List TranscodeJob) (id : Uuid) :
    lastSaved (job :: saves) id =
      (lastSaved saves id).or (if job.id = id then some job else none) := by
  rw [lastSaved, lastSaved, List.reverse_cons, List.find?_append, List.find?_singleton]
  simp

theorem lastSaved_eq_none {saves : List TranscodeJob} {id : Uuid} (h : id ∉ saves.map (·.id)) :
    lastSaved saves id = none := by
  rw [lastSaved, List.find?_eq_none]
  intro job hjob hid
  exact h (List.mem_map.mpr ⟨job, List.mem_reverse.mp hjob, of_decide_eq_true hid⟩)

theorem mem_of_lastSaved {saves : List TranscodeJob} {id : Uuid} {job : TranscodeJob}
    (h : lastSaved saves id = some job) : job ∈ saves :=
  List.mem_reverse.mp (List.mem_of_find?_eq_some h)

theorem jobs_saves {saves : List TranscodeJob} {id : Uuid} : ∀ {w : World},
    (saves.foldl (World.saved ctx) w).jobs id = (lastSaved saves id).or (w.jobs id) := by
  induction saves with
  | nil => exact fun {w} => rfl
  | cons job saves ih =>
    intro w
    rw [List.foldl_cons, ih, lastSaved_cons, Option.or_assoc, World.saved_jobs,
      Function.update_apply]
    congr 1
    by_cases hid : id = job.id
    · simp [hid]
    · simp [hid, Ne.symm hid]

/-- Saves raise nothing as long as the records they replace can be read. -/
theorem obeys_loading_saveAll {saves : List TranscodeJob} {Q : Except Exn Unit → World → Prop} :
    ∀ {w : World}, w.Readable → (∀ job ∈ saves, job.Readable) →
      Q (.ok ()) (saves.foldl (World.saved ctx) w) →
      (loading (saveAll ctx saves)).Obeys redis.protocol Q w := by
  induction saves with
  | nil => exact fun _ _ hQ => hQ
  | cons job saves ih =>
    intro w hw hsaves hQ
    unfold saveAll
    rw [loading_bind, obeys_bind, obeys_loading_saveJob, get_readable (hw job.id)]
    refine ih ?_ (fun other hother => hsaves other (List.mem_cons_of_mem _ hother)) hQ
    intro id stored hstored
    rw [World.saved_jobs] at hstored
    by_cases hid : id = job.id
    · rw [hid, Function.update_self, Option.some.injEq] at hstored
      exact hstored ▸ hsaves job List.mem_cons_self
    · rw [Function.update_of_ne hid] at hstored
      exact hw id stored hstored

/-- What was read on the way if no save raised: every record that another one replaced. -/
theorem readable_of_saveAll {saves : List TranscodeJob} {Q : World → Prop} : ∀ {w : World},
    (loading (saveAll ctx saves)).Obeys redis.protocol (fun r w' => r = .ok () ∧ Q w') w →
      (∀ id job, w.jobs id = some job → id ∈ saves.map (·.id) → job.Readable) ∧
      (∀ job ∈ saves, job.Readable ∨ lastSaved saves job.id = some job) ∧
      Q (saves.foldl (World.saved ctx) w) := by
  induction saves with
  | nil => exact fun h => ⟨fun _ _ _ hid => (nomatch hid), fun _ hjob => (nomatch hjob), h.2⟩
  | cons job saves ih =>
    intro w h
    unfold saveAll at h
    rw [loading_bind, obeys_bind, obeys_loading_saveJob] at h
    have hfirst : ∀ stored, w.jobs job.id = some stored → stored.Readable := by
      intro stored hstored
      by_contra hrefused
      obtain ⟨e, herror⟩ := get_refused hstored hrefused
      rw [herror] at h
      exact nomatch h.1
    rw [get_readable hfirst] at h
    obtain ⟨hold, hsaves, hQ⟩ := ih h
    refine ⟨?_, ?_, hQ⟩
    · intro id stored hstored hid
      by_cases hsame : id = job.id
      · exact hfirst stored (hsame ▸ hstored)
      · refine hold id stored ?_ ((List.mem_cons.mp hid).resolve_left hsame)
        rw [World.saved_jobs, Function.update_of_ne hsame]
        exact hstored
    · intro other hother
      rcases List.mem_cons.mp hother with rfl | hother
      · by_cases hlater : other.id ∈ saves.map (·.id)
        · refine .inl (hold other.id other ?_ hlater)
          rw [World.saved_jobs, Function.update_self]
        · right
          rw [lastSaved_cons, lastSaved_eq_none hlater, if_pos rfl]
          rfl
      · refine (hsaves other hother).imp_right fun hlast => ?_
        rw [lastSaved_cons, hlast]
        rfl

theorem loading_walkPages (page : Nat → Prog (List TranscodeJob)) (limit : Nat) : ∀ fuel offset,
    loading (walkPages page limit fuel offset) =
      walkPages (fun offset => loading (page offset)) limit fuel offset := by
  intro fuel
  induction fuel with
  | zero => exact fun _ => rfl
  | succ fuel ih =>
    intro offset
    unfold walkPages
    rw [loading_bind]
    refine congrArg _ (funext fun jobs => ?_)
    split
    · rfl
    · rw [loading_bind, ih]
      rfl

end

/-- The jobs whose last saved record is in state `s`, newest first. -/
structure StateNewestFirst (saves : List TranscodeJob) (s : JobState) (all : List TranscodeJob) :
    Prop where
  falling : Sorting.Falling (·.createdAt) all
  mem : ∀ job, job ∈ all ↔ lastSaved saves job.id = some job ∧ job.state = s

/-- A store that shows exactly the last saved records. -/
structure ShowsLastSaved (ctx : Context) (saves : List TranscodeJob) (w : World) : Prop where
  index : ∀ s id, id ∈ w.stateIndex s ↔ ∃ job, lastSaved saves id = some job ∧ job.state = s
  one : ∀ id job, lastSaved saves id = some job → ∃! s, id ∈ w.stateIndex s
  get : ∀ id tape r w', redis.run (loading (getJob id)) tape w = some (r, w') →
    r = .ok (lastSaved saves id) ∧ w' = w
  apart : ∀ job tape r w', redis.run (loading (saveJob ctx job)) tape w = some (r, w') →
    ∀ id, id ≠ job.id → w'.jobs id = w.jobs id ∧ ∀ s, id ∈ w'.stateIndex s ↔ id ∈ w.stateIndex s
  listing : w.DistinctTimes → ∀ s, ∃ all, StateNewestFirst saves s all ∧
    (∀ limit offset tape r w',
      redis.run (loading (listByState s limit offset)) tape w = some (r, w') →
        r = .ok (Sorting.slice offset limit all) ∧ w' = w) ∧
    (∀ limit fuel tape r w', 1 ≤ limit → all.length < fuel →
      redis.run (loading (walkPages (fun offset => listByState s limit offset) limit fuel 0)) tape
        w = some (r, w') → r = .ok all)

/-- Saving one job leaves the records and the index entries of the others. -/
theorem World.saved_apart (ctx : Context) (w : World) (job : TranscodeJob) {id : Uuid}
    (hid : id ≠ job.id) : (w.saved ctx job).jobs id = w.jobs id ∧
      ∀ s, id ∈ (w.saved ctx job).stateIndex s ↔ id ∈ w.stateIndex s := by
  refine ⟨Function.update_of_ne hid _ _, ?_⟩
  intro s
  rw [World.saved_stateIndex]
  split
  · simp [hid]
  · split <;> simp [hid]

/-- After saves of jobs that are read back as they were written the store shows the last saved
    records. -/
theorem showsLastSaved {ctx : Context} {saves : List TranscodeJob}
    (hkept : ∀ id job, lastSaved saves id = some job → Json.transcodeJob.Kept job) :
    ShowsLastSaved ctx saves (saves.foldl (World.saved ctx) .empty) := by
  generalize hw : saves.foldl (World.saved ctx) .empty = w
  have ht : w.Tidy := hw ▸ tidy_saves World.empty_tidy
  have hjobs : ∀ id, w.jobs id = lastSaved saves id := by
    intro id
    rw [← hw, jobs_saves]
    exact Option.or_none
  have hstored : w.Kept := fun id job hj => hkept id job (hjobs id ▸ hj)
  have hread : w.Readable := fun id job hj => readable_of_kept (hstored id job hj)
  have hsame : w.dumped = w := dumped_eq hstored
  refine ⟨?_, ?_, ?_, ?_, ?_⟩
  · intro s id
    rw [ht.index, hjobs]
  · intro id job hjob
    rw [← hjobs] at hjob
    refine ⟨job.state, (ht.index _ _).mpr ⟨job, hjob, rfl⟩, ?_⟩
    intro s hs
    obtain ⟨other, ho, hstate⟩ := (ht.index s id).mp hs
    rw [hjob, Option.some.injEq] at ho
    rw [ho, hstate]
  · intro id tape r w' hrun
    have hget : (loading (getJob id)).Obeys redis.protocol
        (fun r' w' => r' = .ok (lastSaved saves id) ∧ w' = w) w := by
      rw [obeys_loading_getJob, get_readable (hread id), hsame, hjobs]
      exact ⟨rfl, rfl⟩
    exact Machine.run_obeys hrun hget
  · intro job tape r w' hrun id hid
    have hsave : (loading (saveJob ctx job)).Obeys redis.protocol
        (fun _ w' => w' = w.saved ctx job) w := by
      rw [obeys_loading_saveJob, get_readable (hread job.id)]
    rw [Machine.run_obeys hrun hsave]
    exact w.saved_apart ctx job hid
  · intro hd s
    obtain ⟨all, hall, hf⟩ := exists_members ht hd s
    have hlisting : ∀ {limit offset : Nat} {Q : Except Exn (List TranscodeJob) → World → Prop},
        (loading (listByState s limit offset)).Obeys redis.protocol Q w ↔
          Q (.ok (Sorting.slice offset limit all)) w :=
      obeys_loading_listByState_of_complete ht (fun job hj _ => hread job.id job hj)
        (hsame.symm ▸ hall) hf
    refine ⟨all, ⟨hf, fun job => by rw [hall.mem, hjobs]⟩, ?_, ?_⟩
    · intro limit offset tape r w' hrun
      have hlist : (loading (listByState s limit offset)).Obeys redis.protocol
          (fun r' w' => r' = .ok (Sorting.slice offset limit all) ∧ w' = w) w :=
        hlisting.mpr ⟨rfl, rfl⟩
      exact Machine.run_obeys hrun hlist
    · intro limit fuel tape r w' hlimit hfuel hrun
      have hwalk : (walkPages (fun offset => loading (listByState s limit offset)) limit fuel
          0).Obeys redis.protocol (fun r' _ => r' = .ok all) w :=
        (obeys_walkPages hlimit (fun _ _ => hlisting) hfuel).mpr rfl
      rw [loading_walkPages] at hrun
      exact (Machine.run_obeys hrun hwalk :)

/-- What is shown has been read back. -/
theorem kept_of_saveAll {ctx : Context} {saves : List TranscodeJob}
    (h : (loading (saveAll ctx saves)).Obeys redis.protocol
      (fun r w => r = .ok () ∧ ShowsLastSaved ctx saves w) .empty) :
    (∀ job ∈ saves, job.Readable) ∧
      ∀ id job, lastSaved saves id = some job → Json.transcodeJob.Kept job := by
  obtain ⟨-, hread, hshows⟩ := readable_of_saveAll h
  have hkept : ∀ id job, lastSaved saves id = some job → Json.transcodeJob.Kept job := by
    intro id job hlast
    have hj : (saves.foldl (World.saved ctx) .empty).jobs id = some job := by
      rw [jobs_saves, hlast]
      rfl
    -- the document is read as what was saved
    have hget : (loading (getJob id)).Obeys redis.protocol
        (fun r _ => r = .ok (lastSaved saves id)) (saves.foldl (World.saved ctx) .empty) :=
      Machine.obeys_iff_run.mpr fun tape r w' hrun => (hshows.get id tape r w' hrun).1
    rw [obeys_loading_getJob, get_some hj, hlast] at hget
    apply JobDocuments.loadJob_dumpJob.mp
    cases hload : job.reload with
    | error e =>
      rw [hload] at hget
      cases hget
    | ok loaded =>
      rw [hload] at hget
      cases hget
      exact hload
  refine ⟨fun job hjob => ?_, hkept⟩
  exact (hread job hjob).elim id fun hlast => readable_of_kept (hkept _ job hlast)

/-- A sequence of saves raises nothing and leaves a store that shows the last saved records
    exactly if each record can be read back, and the last ones as they were written. -/
theorem index_exact_iff {ctx : Context} {saves : List TranscodeJob} :
    (∀ tape r w, redis.run (loading (saveAll ctx saves)) tape .empty = some (r, w) →
      r = .ok () ∧ ShowsLastSaved ctx saves w) ↔
    (∀ job ∈ saves, job.Readable) ∧
      ∀ id job, lastSaved saves id = some job → Json.transcodeJob.Kept job := by
  rw [← Machine.obeys_iff_run (Q := fun r w => r = .ok () ∧ ShowsLastSaved ctx saves w)]
  constructor
  · exact kept_of_saveAll
  · rintro ⟨hread, hkept⟩
    exact obeys_loading_saveAll (fun _ _ hj => nomatch hj) hread ⟨rfl, showsLastSaved hkept⟩

/-- Two files, the first of them claimed since. -/
def twoSaves : List TranscodeJob :=
  let first := newJob smallContext (mp4File "/tmp/input/a.mp4") defaultMatch 1 10
  let second := newJob smallContext (mp4File "/tmp/input/b.mp4") defaultMatch 2 20
  [first, second, first.claimedBy 7 30]

theorem twoSaves_kept : ∀ job ∈ twoSaves, Json.transcodeJob.Kept job := by
  have hkept : ∀ path id now, Json.transcodeJob.Kept
      (newJob smallContext (mp4File path) defaultMatch id now) :=
    fun _ => newJob_kept defaultMatch_kept
  refine List.forall_mem_cons.mpr ⟨hkept _ _ _, List.forall_mem_cons.mpr ⟨hkept _ _ _, ?_⟩⟩
  exact List.forall_mem_singleton.mpr ((Copy.created.claimed 7 30).kept (hkept _ _ _))

theorem index_exact_twoSaves : ∃ w,
    redis.run (loading (saveAll smallContext twoSaves)) [] .empty = some (.ok (), w) ∧
      ShowsLastSaved smallContext twoSaves w := by
  have hrun : (redis.run (loading (saveAll smallContext twoSaves)) [] .empty).isSome = true := rfl
  obtain ⟨⟨r, w⟩, hrun⟩ := Option.isSome_iff_exists.mp hrun
  obtain ⟨rfl, hshows⟩ := index_exact_iff.mpr ⟨fun job hjob =>
    readable_of_kept (twoSaves_kept job hjob), fun id job hlast =>
    twoSaves_kept job (mem_of_lastSaved hlast)⟩ _ _ _ hrun
  exact ⟨w, hrun, hshows⟩

/-- After one save of a job whose quality is NaN the repository raises. -/
theorem nan_not_shown : ¬ ∀ (ctx : Context) (saves : List TranscodeJob) tape r w,
    redis.run (loading (saveAll ctx saves)) tape .empty = some (r, w) →
      r = .ok () ∧ ShowsLastSaved ctx saves w := by
  intro h
  have hshown := Machine.obeys_iff_run.mpr (h nanContext [nanJob])
  exact nanJob_refused ((kept_of_saveAll hshown).1 nanJob List.mem_cons_self)

/-! The unfiltered listing. -/

section
variable {w : World} {all : List TranscodeJob}

theorem AllNewestFirst.members (hall : AllNewestFirst w all) (s : JobState) :
    Members w s (all.filter (·.state = s)) := by
  refine ⟨hall.falling.nodup.filter _, ?_⟩
  intro job
  rw [List.mem_filter, hall.mem, decide_eq_true_eq]

theorem ahead_eq (ht : w.Tidy) {job : TranscodeJob} {jobs : List TranscodeJob}
    (hm : Members w job.state jobs) (hmem : job ∈ jobs) :
    Sorting.ahead (·.createdAt) job jobs = (w.ahead job).card := by
  have hj := (hm.mem job).mp hmem
  let before := jobs.filter (fun other => other ≠ job ∧ job.createdAt ≤ other.createdAt)
  have hnodup : (before.map (·.id)).Nodup := (hm.ids ht).1.sublist (List.filter_sublist.map _)
  have hset : (before.map (·.id)).toFinset = w.ahead job := by
    ext id
    simp only [before, List.mem_toFinset, List.mem_map, List.mem_filter, decide_eq_true_eq,
      World.ahead, Finset.mem_filter, Option.any_eq_true, hm.mem, ht.index]
    constructor
    · intro ⟨other, ⟨⟨hstored, hstate⟩, hne, hle⟩, hid⟩
      subst hid
      refine ⟨⟨other, hstored, hstate⟩, ?_, other, hstored, hle⟩
      intro heq
      rw [heq, hj.1, Option.some.injEq] at hstored
      exact hne hstored.symm
    · intro ⟨⟨other, hstored, hstate⟩, hne, other', hsome, hle⟩
      rw [hstored, Option.some.injEq] at hsome
      subst hsome
      have hid : other.id = id := ht.ids hstored
      refine ⟨other, ⟨⟨hid ▸ hstored, hstate⟩, ?_, hle⟩, hid⟩
      exact fun heq => hne (heq ▸ hid.symm)
  calc Sorting.ahead (·.createdAt) job jobs
    _ = (before.map (·.id)).length := (List.length_map _).symm
    _ = (before.map (·.id)).toFinset.card := (List.toFinset_card_of_nodup hnodup).symm
    _ = (w.ahead job).card := by rw [hset]

/-- The per-state listing of the API keeps `job`: fewer than 1000 of its state go before it. -/
def World.kept (w : World) (job : TranscodeJob) : Bool := (w.ahead job).card < 1000

/-- The newest thousand of a state. -/
theorem mem_newest (ht : w.Tidy) (hall : AllNewestFirst w all) {s : JobState} {job : TranscodeJob} :
    job ∈ (all.filter (·.state = s)).take 1000 ↔
      job ∈ all.filter w.kept ∧ job.state = s := by
  have hf : Sorting.Falling (·.createdAt) (all.filter (·.state = s)) := hall.falling.filter _
  rw [Sorting.mem_take_iff_ahead hf]
  have hkeep : ∀ h : job ∈ all.filter (·.state = s),
      (Sorting.ahead (·.createdAt) job (all.filter (·.state = s)) < 1000 ↔ w.kept job = true) := by
    intro h
    have hstate : job.state = s := of_decide_eq_true (List.mem_filter.mp h).2
    rw [ahead_eq ht (by rw [hstate]; exact hall.members s) h, World.kept, decide_eq_true_eq]
  constructor
  · intro ⟨hmem, hahead⟩
    obtain ⟨hin, hstate⟩ := List.mem_filter.mp hmem
    exact ⟨List.mem_filter.mpr ⟨hin, (hkeep hmem).mp hahead⟩, of_decide_eq_true hstate⟩
  · intro ⟨hmem, hstate⟩
    obtain ⟨hin, hkept⟩ := List.mem_filter.mp hmem
    have hmem' : job ∈ all.filter (·.state = s) :=
      List.mem_filter.mpr ⟨hin, decide_eq_true hstate⟩
    exact ⟨hmem', (hkeep hmem').mpr hkept⟩

theorem JobState.mem_members (s : JobState) : s ∈ JobState.members := by cases s <;> decide

section
variable {per : JobState → List TranscodeJob}

/-- A job has one state, so lists of jobs of one state each share none. -/
theorem nodup_states (hn : ∀ s, (per s).Nodup) (hstate : ∀ s job, job ∈ per s → job.state = s) :
    (JobState.members.flatMap per).Nodup := by
  have hapart : ∀ s s', s ≠ s' → List.Disjoint (per s) (per s') := by
    intro s s' hne job hs hs'
    exact hne ((hstate s job hs).symm.trans (hstate s' job hs'))
  have hstates : JobState.members.Nodup := by decide
  exact List.nodup_flatMap.mpr ⟨fun s _ => hn s, hstates.imp fun hne => hapart _ _ hne⟩

theorem mem_states {kept : List TranscodeJob}
    (hper : ∀ s job, job ∈ per s ↔ job ∈ kept ∧ job.state = s) (job : TranscodeJob) :
    job ∈ JobState.members.flatMap per ↔ job ∈ kept := by
  rw [List.mem_flatMap]
  constructor
  · intro ⟨s, _, hmem⟩
    exact ((hper s job).mp hmem).1
  · intro hmem
    exact ⟨job.state, JobState.mem_members _, (hper _ _).mpr ⟨hmem, rfl⟩⟩

/-- Lists of jobs of one state each, merged newest first. -/
theorem merge_eq {kept : List TranscodeJob} (hf : Sorting.Falling (·.createdAt) kept)
    (hn : ∀ s, (per s).Nodup) (hper : ∀ s job, job ∈ per s ↔ job ∈ kept ∧ job.state = s) :
    newestFirst (JobState.members.flatMap per) = kept :=
  Sorting.sort_eq hf (nodup_states hn fun s job h => ((hper s job).mp h).2) (mem_states hper)

theorem exists_allNewestFirst (ht : w.Tidy) (hd : w.DistinctTimes) :
    ∃ all, AllNewestFirst w all := by
  choose per hper _ using exists_members ht hd
  have hn : (JobState.members.flatMap per).Nodup :=
    nodup_states (fun s => (hper s).nodup) fun s job h => (((hper s).mem job).mp h).2
  have hmem : ∀ job, job ∈ JobState.members.flatMap per ↔ w.jobs job.id = some job := by
    intro job
    rw [List.mem_flatMap]
    constructor
    · intro ⟨s, _, h⟩
      exact (((hper s).mem job).mp h).1
    · intro h
      exact ⟨job.state, JobState.mem_members _, ((hper _).mem job).mpr ⟨h, rfl⟩⟩
  refine ⟨newestFirst (JobState.members.flatMap per), ?_, ?_⟩
  · apply Sorting.falling_descending hn
    intro a ha b hb heq
    exact hd _ _ a b ((hmem a).mp ha) ((hmem b).mp hb) heq
  · intro job
    rw [← hmem]
    exact Sorting.mem_descending

theorem obeys_loading_listStates {states : List JobState}
    (hlist : ∀ s (Q : Except Exn (List TranscodeJob) → World → Prop),
      (loading (listByState s 1000)).Obeys redis.protocol Q w ↔ Q (.ok (per s)) w) :
    ∀ {Q : Except Exn (List TranscodeJob) → World → Prop},
      (loading (listStates states)).Obeys redis.protocol Q w ↔
        Q (.ok (states.flatMap per)) w := by
  induction states with
  | nil => exact fun {Q} => Iff.rfl
  | cons s states ih =>
    intro Q
    unfold listStates
    rw [loading_bind, obeys_bind, hlist, andThen_ok, loading_bind, obeys_bind, ih, andThen_ok,
      List.flatMap_cons]
    exact Iff.rfl

/-- The loop over the states raises if it comes to a document that cannot be read. -/
theorem listStates_refused (ht : w.Tidy) {job : TranscodeJob} (hj : w.jobs job.id = some job)
    (hrefused : ¬ job.Readable) {states : List JobState} (hs : job.state ∈ states) :
    ∀ {Q : Except Exn (List TranscodeJob) → World → Prop},
      (loading (listStates states)).Obeys redis.protocol Q w → ∃ e, Q (.error e) w := by
  induction states with
  | nil => cases hs
  | cons s states ih =>
    intro Q h
    unfold listStates at h
    rw [loading_bind, obeys_bind] at h
    by_cases hall : ∀ other, w.jobs other.id = some other → other.state = s → other.Readable
    · have hrest : job.state ∈ states :=
        (List.mem_cons.mp hs).resolve_left fun heq => hrefused (hall job hj heq)
      have hfirst := (obeys_loading_listByState_iff ht hall).mp h _
        (Members.of_ids ht.dumped (Finset.nodup_toList _) (Finset.toList_toFinset _))
      rw [andThen_ok, loading_bind, obeys_bind] at hfirst
      obtain ⟨e, he⟩ := ih hrest hfirst
      exact ⟨e, he⟩
    · simp only [not_forall] at hall
      obtain ⟨other, hother, hstate, hunread⟩ := hall
      obtain ⟨e, he⟩ := listByState_refused ht hother hstate hunread h
      exact ⟨e, he⟩

end

/-- The unfiltered listing is a slice of the jobs its per-state listings keep, if it can read all
    jobs. -/
theorem obeys_loading_listJobs (ht : w.Tidy) (hread : w.Readable)
    (hall : AllNewestFirst w.dumped all) {limit offset : Nat}
    {Q : Except Exn (List TranscodeJob) → World → Prop} :
    (loading (listJobs none limit offset)).Obeys redis.protocol Q w ↔
      Q (.ok (Sorting.slice offset limit (all.filter w.dumped.kept))) w := by
  have hmerge : newestFirst
      (JobState.members.flatMap fun s => (all.filter (·.state = s)).take 1000) =
      all.filter w.dumped.kept := by
    apply merge_eq (hall.falling.filter _)
    · exact fun s => (hall.falling.nodup.filter _).sublist (List.take_sublist _ _)
    · exact fun s job => mem_newest ht.dumped hall
  have hlist : ∀ s (Q : Except Exn (List TranscodeJob) → World → Prop),
      (loading (listByState s 1000)).Obeys redis.protocol Q w ↔
        Q (.ok ((all.filter (·.state = s)).take 1000)) w :=
    fun s Q => obeys_loading_listByState_of_complete ht (fun job hj _ => hread job.id job hj)
      (hall.members s) (hall.falling.filter _)
  unfold listJobs
  rw [loading_bind, obeys_bind, obeys_loading_listStates hlist, andThen_ok, hmerge]
  exact Iff.rfl

/-- It raises, whatever slice is asked for, if some job cannot be read. -/
theorem listJobs_refused (ht : w.Tidy) (h : ¬ w.Readable) {limit offset : Nat}
    {Q : Except Exn (List TranscodeJob) → World → Prop}
    (hQ : (loading (listJobs none limit offset)).Obeys redis.protocol Q w) :
    ∃ e, Q (.error e) w := by
  unfold World.Readable at h
  simp only [not_forall] at h
  obtain ⟨id, job, hj, hrefused⟩ := h
  have hid : job.id = id := ht.ids hj
  unfold listJobs at hQ
  rw [loading_bind, obeys_bind] at hQ
  obtain ⟨e, he⟩ := listStates_refused ht (hid ▸ hj) hrefused (JobState.mem_members _) hQ
  exact ⟨e, he⟩

end

section
variable {w : World} {all : List TranscodeJob}

/-- All jobs are kept exactly when no state has more than a thousand. -/
theorem all_kept_iff (ht : w.Tidy) (hall : AllNewestFirst w all) :
    (∀ job ∈ all, w.kept job = true) ↔ ∀ s, (w.stateIndex s).card ≤ 1000 := by
  constructor
  · intro h s
    rw [← (hall.members s).length_eq ht]
    have hsub : all.filter (·.state = s) ⊆ (all.filter (·.state = s)).take 1000 := by
      intro job hjob
      obtain ⟨hmem, hstate⟩ := List.mem_filter.mp hjob
      exact (mem_newest ht hall).mpr
        ⟨List.mem_filter.mpr ⟨hmem, h job hmem⟩, of_decide_eq_true hstate⟩
    calc (all.filter (·.state = s)).length
      _ ≤ ((all.filter (·.state = s)).take 1000).length :=
        (List.subperm_of_subset (hall.members s).nodup hsub).length_le
      _ ≤ 1000 := List.length_take_le _ _
  · intro h job hjob
    have hmem : job ∈ all.filter (·.state = job.state) :=
      List.mem_filter.mpr ⟨hjob, decide_eq_true rfl⟩
    have hlen : (all.filter (·.state = job.state)).length ≤ 1000 := by
      rw [(hall.members job.state).length_eq ht]
      exact h job.state
    rw [← List.take_of_length_le hlen] at hmem
    exact (List.mem_filter.mp ((mem_newest ht hall).mp hmem).1).2

/-- Which slices of the unfiltered listing are those of all jobs. -/
theorem listJobs_slice_iff (ht : w.Tidy) (hall : AllNewestFirst w.dumped all) {limit offset : Nat}
    (hlimit : 1 ≤ limit) :
    (∀ tape r w', redis.run (loading (listJobs none limit offset)) tape w = some (r, w') →
      r = .ok (Sorting.slice offset limit all)) ↔
    w.Readable ∧ ((∀ job ∈ all.take (offset + limit), (w.dumped.ahead job).card < 1000) ∨
      all.length ≤ offset) := by
  rw [← Machine.obeys_iff_run (Q := fun r _ => r = .ok (Sorting.slice offset limit all))]
  by_cases hread : w.Readable
  · rw [obeys_loading_listJobs ht hread hall, Except.ok.injEq,
      Sorting.slice_filter_eq_iff hall.falling.nodup _ hlimit, and_iff_right hread]
    simp only [World.kept, decide_eq_true_eq]
  · refine iff_of_false (fun h => ?_) fun h => hread h.1
    obtain ⟨e, he⟩ := listJobs_refused ht hread h
    cases he

end

/-- A result that lists every stored job exactly once. -/
def ListsEachOnce (w : World) (r : Except Exn (List TranscodeJob)) : Prop :=
  ∃ jobs, r = .ok jobs ∧ jobs.Nodup ∧ ∀ job, job ∈ jobs ↔ w.jobs job.id = some job

/-- Which walks over the pages list every job. -/
theorem walkPages_listJobs_iff {w : World} (ht : w.Tidy) {all : List TranscodeJob}
    (hall : AllNewestFirst w.dumped all) {limit fuel : Nat} (hlimit : 1 ≤ limit)
    (hfuel : all.length < fuel) :
    (∀ tape r w', redis.run (loading (walkPages (listJobs none limit) limit fuel 0)) tape w =
      some (r, w') → ListsEachOnce w.dumped r) ↔
    w.Readable ∧ ∀ s, (w.stateIndex s).card ≤ 1000 := by
  rw [← Machine.obeys_iff_run (Q := fun r _ => ListsEachOnce w.dumped r), loading_walkPages]
  by_cases hread : w.Readable
  · have hlen : (all.filter w.dumped.kept).length < fuel + 0 :=
      (List.length_filter_le w.dumped.kept all).trans_lt hfuel
    rw [obeys_walkPages hlimit (fun _ _ => obeys_loading_listJobs ht hread hall) hlen,
      List.drop_zero, and_iff_right hread]
    show _ ↔ ∀ s, (w.dumped.stateIndex s).card ≤ 1000
    rw [← all_kept_iff ht.dumped hall]
    constructor
    · intro ⟨jobs, heq, _, hmem⟩ job hjob
      cases heq
      exact (List.mem_filter.mp ((hmem job).mpr ((hall.mem job).mp hjob))).2
    · intro h
      rw [List.filter_eq_self.mpr h]
      exact ⟨all, rfl, hall.falling.nodup, hall.mem⟩
  · refine iff_of_false (fun h => ?_) fun h => hread h.1
    -- the first page raises
    cases fuel with
    | zero => exact absurd hfuel (Nat.not_lt_zero _)
    | succ fuel =>
      unfold walkPages at h
      rw [obeys_bind] at h
      obtain ⟨e, jobs, he, -⟩ := listJobs_refused ht hread h
      cases he

/-- The unfiltered listing merges the per-state listings. If all jobs can be read, its slices are
    those of all jobs as far as no job has a thousand newer ones in its state, and its pages list
    every job when no state has more than a thousand; if not, it raises. -/
theorem list_jobs_iff {w : World} (ht : w.Tidy) (hd : w.DistinctTimes) :
    ∃ all, AllNewestFirst w.dumped all ∧
      (∀ per : JobState → List TranscodeJob, (∀ s, Members w.dumped s (per s)) →
        newestFirst (JobState.members.flatMap per) = all) ∧
      (∀ limit offset, 1 ≤ limit →
        ((∀ tape r w', redis.run (loading (listJobs none limit offset)) tape w = some (r, w') →
          r = .ok (Sorting.slice offset limit all)) ↔
        w.Readable ∧ ((∀ job ∈ all.take (offset + limit), (w.dumped.ahead job).card < 1000) ∨
          all.length ≤ offset))) ∧
      (∀ limit fuel, 1 ≤ limit → all.length < fuel →
        ((∀ tape r w', redis.run (loading (walkPages (listJobs none limit) limit fuel 0)) tape w =
          some (r, w') → ListsEachOnce w.dumped r) ↔
        w.Readable ∧ ∀ s, (w.stateIndex s).card ≤ 1000)) := by
  obtain ⟨all, hall⟩ := exists_allNewestFirst ht.dumped hd.dumped
  refine ⟨all, hall, ?_, fun limit offset => listJobs_slice_iff ht hall,
    fun limit fuel => walkPages_listJobs_iff ht hall⟩
  intro per hper
  apply merge_eq hall.falling fun s => (hper s).nodup
  intro s job
  rw [(hper s).mem, hall.mem]

/-! More jobs than a listing returns. -/

/-- The `id`th of a crowd of jobs in state `s`. -/
def crowdJob (s : JobState) (id : Uuid) : TranscodeJob :=
  { newJob smallContext (mp4File "/tmp/input/a.mp4") defaultMatch id id.toNat with state := s }

/-- A server with `n` jobs, all in state `s`, without heartbeats. -/
def crowd (s : JobState) (n : Nat) : World :=
  { World.empty with
    jobs := fun id => if id.toNat < n then some (crowdJob s id) else none
    stateIndex := fun s' => if s' = s then (Finset.range n).image (BitVec.ofNat 128) else ∅ }

section
variable {s : JobState} {n : Nat}

theorem crowd_jobs {id : Uuid} {job : TranscodeJob} :
    (crowd s n).jobs id = some job ↔ id.toNat < n ∧ crowdJob s id = job := by
  show (if id.toNat < n then some (crowdJob s id) else none) = some job ↔ _
  split
  · next h => simp [h]
  · next h => simp [h]

theorem crowd_tidy (hn : n ≤ 2000) : (crowd s n).Tidy := by
  constructor
  · intro id job h
    rw [← (crowd_jobs.mp h).2]
    rfl
  · intro s' id
    have hmem : id ∈ (Finset.range n).image (BitVec.ofNat 128) ↔ id.toNat < n := by
      rw [Finset.mem_image]
      constructor
      · intro ⟨k, hk, hid⟩
        have hlt := Finset.mem_range.mp hk
        rw [← hid, BitVec.toNat_ofNat, Nat.mod_eq_of_lt (by omega)]
        exact hlt
      · intro hlt
        exact ⟨id.toNat, Finset.mem_range.mpr hlt, BitVec.ofNat_toNat ..⟩
    simp only [crowd_jobs]
    show id ∈ (if s' = s then (Finset.range n).image (BitVec.ofNat 128) else ∅) ↔ _
    by_cases hs : s' = s
    · rw [if_pos hs, hmem]
      constructor
      · exact fun hlt => ⟨_, ⟨hlt, rfl⟩, hs.symm⟩
      · exact fun ⟨_, h, _⟩ => h.1
    · rw [if_neg hs]
      constructor
      · exact fun h => absurd h (Finset.notMem_empty id)
      · intro ⟨job, ⟨_, hjob⟩, hs'⟩
        rw [← hjob] at hs'
        exact absurd hs'.symm hs

theorem crowd_kept : (crowd s n).Kept := by
  intro id job hj
  rw [← (crowd_jobs.mp hj).2]
  exact Json.transcodeJob_kept.mpr ⟨(Json.vshiftProfile_kept.mp defaultMatch_kept).1,
    (Json.vshiftProfile_kept.mp defaultMatch_kept).2, Nat.le_refl 1⟩

theorem crowd_readable : (crowd s n).Readable :=
  fun id job hj => readable_of_kept (crowd_kept id job hj)

theorem crowd_distinctTimes : (crowd s n).DistinctTimes := by
  intro id id' job job' hj hj' heq
  rw [← (crowd_jobs.mp hj).2, ← (crowd_jobs.mp hj').2] at heq ⊢
  have hid : id = id' := BitVec.eq_of_toNat_eq heq
  rw [hid]

theorem crowd_card (hn : n ≤ 2000) : ((crowd s n).stateIndex s).card = n := by
  have hset : (crowd s n).stateIndex s = (Finset.range n).image (BitVec.ofNat 128) := if_pos rfl
  rw [hset, Finset.card_image_of_injOn, Finset.card_range]
  intro a ha b hb heq
  have ha' := Finset.mem_range.mp (Finset.mem_coe.mp ha)
  have hb' := Finset.mem_range.mp (Finset.mem_coe.mp hb)
  have hnat := congrArg BitVec.toNat heq
  rw [BitVec.toNat_ofNat, BitVec.toNat_ofNat, Nat.mod_eq_of_lt (by omega),
    Nat.mod_eq_of_lt (by omega)] at hnat
  exact hnat

end

theorem list_jobs_iff_crowd : ∃ all, AllNewestFirst (crowd .pending 3).dumped all ∧
    ∀ tape r w', redis.run (loading (walkPages (listJobs none 2) 2 (all.length + 1) 0)) tape
      (crowd .pending 3) = some (r, w') → ListsEachOnce (crowd .pending 3).dumped r := by
  obtain ⟨all, hall, _, _, hwalk⟩ :=
    list_jobs_iff (crowd_tidy (s := .pending) (n := 3) (by decide)) crowd_distinctTimes
  refine ⟨all, hall, (hwalk 2 (all.length + 1) (by decide) (Nat.lt_succ_self _)).mpr
    ⟨crowd_readable, ?_⟩⟩
  intro s
  cases s with
  | pending =>
    rw [crowd_card (by decide)]
    decide
  | _ => exact Nat.zero_le _

/-- The oldest of 1001 pending jobs is on no page. -/
theorem list_jobs_misses_oldest :
    ¬ ∀ w : World, w.Tidy → w.DistinctTimes → ∀ limit offset, 1 ≤ limit →
      ∃ all, AllNewestFirst w.dumped all ∧
        ∀ tape r w', redis.run (loading (listJobs none limit offset)) tape w = some (r, w') →
          r = .ok (Sorting.slice offset limit all) := by
  intro h
  have ht : (crowd .pending 1001).Tidy := crowd_tidy (by decide)
  have hsame : (crowd .pending 1001).dumped = crowd .pending 1001 := dumped_eq crowd_kept
  have hcard : ((crowd .pending 1001).stateIndex .pending).card = 1001 := crowd_card (by decide)
  obtain ⟨all, hall, hslice⟩ := h _ ht crowd_distinctTimes 1 1000 (Nat.le_refl 1)
  have hslices := (listJobs_slice_iff ht hall (Nat.le_refl 1)).mp hslice
  rw [hsame] at hall hslices
  have hfilter : all.filter (·.state = .pending) = all := by
    rw [List.filter_eq_self]
    intro job hjob
    rw [← (crowd_jobs.mp ((hall.mem job).mp hjob)).2]
    rfl
  have hlen : all.length = 1001 := by
    have hmembers := (hall.members .pending).length_eq ht
    rw [hfilter] at hmembers
    exact hmembers.trans hcard
  rcases hslices.2 with hkept | hpast
  · rw [List.take_of_length_le (by omega)] at hkept
    have hall' := (all_kept_iff ht hall).mp (fun job hjob => decide_eq_true (hkept job hjob))
    have hle := hall' .pending
    omega
  · omega

end Vshift
