import Vshift.Publication
import Vshift.Pool
import Vshift.Keys
import Vshift.Scanner

/- Workers transcoding on one host, interleaved at single commands.

   Any number of transcodings run at once, are killed between any two commands, and are
   started again. A transcoding renames to its output path only after a run of ffmpeg
   that exited with 0, and writes elsewhere only to its temporary path
   (`transcode_publishes`); temporary paths are named after the job's id, and so no two
   active transcodings share one. `outputs_complete` is what follows for every path that
   is no temporary one: at any time it holds what it held at the start, or all that such
   a run wrote for a job with this output path. -/
namespace Vshift
open Command Program

/-- One call of `FfmpegTranscoder.transcode`. -/
structure Transcoding where
  transcoder : FfmpegTranscoder
  job : TranscodeJob

namespace Transcoding

def temp (l : Transcoding) : Path := l.transcoder.temporaryOutputPath l.job

def output (l : Transcoding) : Path := l.job.outputPath

/-- A command line for the job that writes to its temporary path. -/
def Command (l : Transcoding) (argv : List String) : Prop :=
  ∃ encoder, l.transcoder.commandBuilder.build l.job l.temp (some encoder) = .ok argv

end Transcoding

/-- A file written or removed by another program. -/
structure FileChange where
  path : Path
  content : Option Bytes

abbrev Workshop := Pool Site Transcoding HostCmd HostReply Exn

abbrev Worker := Process Transcoding HostCmd HostReply Exn

def transcodings (h : Host) :
    System Site Transcoding HostCmd Unit FileChange HostReply Exn where
  machine := h.machine
  code l := (l.transcoder.transcode l.job).discard
  env e s := { s with files := Function.update s.files e.path e.content }

/-! What one transcoding does to the files. -/

/-- What a transcoding knows: whose it is, and whether its last run exited with 0 and the file
    has not been touched since. -/
structure Bench where
  call : Transcoding
  ready : Bool

def Bench.initial (l : Transcoding) : Bench := ⟨l, false⟩

/-- The run exited with 0. -/
def exitedWell : Except String Completed → Bool
  | .ok completed => decide (completed.returncode = 0)
  | .error _ => false

/-- Which commands change files, and which of them a transcoding may issue. -/
def publishing : Protocol HostCmd HostReply Bench where
  allows
    | t, .unlink path => path = t.call.temp
    | t, .run argv output => output = t.call.temp ∧ t.call.Command argv
    | t, .replace source target => t.ready = true ∧ source = t.call.temp ∧ target = t.call.output
    | _, _ => True
  expects _ _ _ := True
  next
    | t, .run _ _, outcome => { t with ready := exitedWell outcome }
    | t, .unlink _, _ => { t with ready := false }
    | t, .replace _ _, _ => { t with ready := false }
    | t, _, _ => t

/-- The commands that change no file. -/
def HostCmd.Looks : HostCmd → Prop
  | .unlink _ => False
  | .run _ _ => False
  | .replace _ _ => False
  | _ => True

section
variable {l : Transcoding} {t : Bench}

theorem look_bind {β : Type} {c : HostCmd} {f : HostReply c → HostProg β}
    {Q : Except Exn β → Bench → Prop} (hc : c.Looks) (hf : ∀ r, (f r).Obeys publishing Q t) :
    (host c >>= f).Obeys publishing Q t := by
  have hallows : publishing.allows t c := by cases c <;> trivial
  have hnext : ∀ r, publishing.next t c r = t := by
    intro r
    cases c <;> first | rfl | exact hc.elim
  refine ⟨hallows, fun r _ => ?_⟩
  rw [hnext]
  exact hf r

theorem removeFile_publishes (hcall : t.call = l) (hready : t.ready = false)
    {Q : Except Exn Unit → Bench → Prop}
    (h : ∀ t' : Bench, t'.call = l → t'.ready = false → Q (.ok ()) t') :
    (FfmpegTranscoder.removeFile l.temp).Obeys publishing Q t := by
  refine look_bind trivial fun present => ?_
  cases present with
  | true => exact ⟨congrArg Transcoding.temp hcall.symm, fun _ _ => h _ hcall rfl⟩
  | false => exact h _ hcall hready

/-- After a run the transcoding is ready exactly if it exited with 0. -/
theorem runFfmpeg_publishes {command : List String} (hcall : t.call = l)
    (hcommand : l.Command command) {Q : Except Exn Completed → Bench → Prop}
    (hok : ∀ completed, Q (.ok completed) ⟨l, decide (completed.returncode = 0)⟩)
    (herr : ∀ e, Q (.error e) ⟨l, false⟩) :
    (FfmpegTranscoder.runFfmpeg command l.temp).Obeys publishing Q t := by
  subst hcall
  refine ⟨⟨rfl, hcommand⟩, fun outcome _ => ?_⟩
  cases outcome with
  | error name => exact herr _
  | ok completed => exact hok completed

/-- Probing changes no file. -/
theorem ffmpegProbe_publishes (lower : String → String) (path : Path) (t : Bench) :
    (ffmpegProbe lower path).Obeys publishing (fun _ t' => t' = t) t := by
  refine look_bind trivial fun present => ?_
  cases present with
  | false => rfl
  | true =>
    refine look_bind trivial fun probed => ?_
    cases probed with
    | result result =>
      unfold readProbe
      dsimp only
      split
      · exact look_bind trivial fun _ => rfl
      · rfl
    | _ => rfl

theorem publish_publishes (wallClockSeconds : Rat) :
    (l.transcoder.publish l.job l.temp wallClockSeconds).Obeys publishing
      (fun _ t => t.ready = false) ⟨l, true⟩ := by
  unfold FfmpegTranscoder.publish
  refine ⟨⟨rfl, rfl, rfl⟩, fun renamed _ => ?_⟩
  cases renamed with
  | error name => rfl
  | ok u =>
    show (ffmpegProbe _ _ >>= _).Obeys publishing _ ⟨l, false⟩
    refine (ffmpegProbe_publishes _ _ _).seq (fun probed t' ht => ?_) (fun _ _ ht => ht ▸ rfl)
    subst ht
    refine look_bind trivial fun version => ?_
    cases version with
    | error name => rfl
    | ok output =>
      show (ite _ _ _ : HostProg TranscodeResult).Obeys publishing _ _
      split <;> rfl

theorem finish_publishes (started : Rat) (completed : Completed) :
    (l.transcoder.finish l.job l.temp started completed).Obeys publishing
      (fun _ t => t.ready = false) ⟨l, decide (completed.returncode = 0)⟩ := by
  unfold FfmpegTranscoder.finish
  refine look_bind trivial fun finished => ?_
  split
  · next hcode =>
    rw [decide_eq_false hcode]
    refine (obeys_bind _ _ _).mpr (look_bind trivial fun present => ?_)
    cases present with
    | true => exact ⟨rfl, fun _ _ => rfl⟩
    | false => rfl
  · next hcode =>
    rw [decide_eq_true (not_not.mp hcode)]
    exact publish_publishes _

/-- A retry ends in what its last run makes of the file; if it raises, no run was a good one. -/
theorem retry_publishes (videoEncoder : VideoEncoder) (first : Completed) :
    (l.transcoder.retry l.job l.temp videoEncoder first).Obeys publishing (fun r t =>
      match r with
      | .ok completed => t = ⟨l, decide (completed.returncode = 0)⟩
      | .error _ => t.ready = false)
      ⟨l, decide (first.returncode = 0)⟩ := by
  unfold FfmpegTranscoder.retry
  dsimp only
  split
  · next hretry =>
    rw [decide_eq_false hretry.1, obeys_bind, obeys_ofExcept]
    cases l.transcoder.commandBuilder.softwareFallback l.job.profileSnapshot.video.codec with
    | error e => exact rfl
    | ok fallback =>
      rw [andThen_ok, obeys_bind]
      refine removeFile_publishes (l := l) rfl rfl fun t' hcall hready => ?_
      rw [andThen_ok, obeys_bind, obeys_ofExcept]
      cases hbuild : l.transcoder.commandBuilder.build l.job l.temp (some fallback) with
      | error e => exact hready
      | ok command =>
        rw [andThen_ok]
        exact runFfmpeg_publishes hcall ⟨fallback, hbuild⟩ (fun _ => rfl) fun _ => rfl
  · exact rfl

/-- Whatever comes of a transcoding, it leaves no finished file that is not renamed. -/
theorem transcode_publishes (l : Transcoding) :
    (l.transcoder.transcode l.job).Obeys publishing (fun _ t => t.ready = false) (.initial l) := by
  unfold FfmpegTranscoder.transcode
  refine look_bind trivial fun present => ?_
  split
  · rfl
  · refine look_bind trivial fun _ => look_bind trivial fun _ => ?_
    dsimp only
    rw [obeys_bind]
    refine removeFile_publishes (l := l) rfl rfl fun t hcall hready => ?_
    rw [andThen_ok, obeys_bind, obeys_ofExcept]
    cases l.transcoder.commandBuilder.resolveEncoder l.job with
    | error e => exact hready
    | ok videoEncoder =>
      rw [andThen_ok, obeys_bind, obeys_ofExcept]
      cases hbuild : l.transcoder.commandBuilder.build l.job
          (l.transcoder.temporaryOutputPath l.job) (some videoEncoder) with
      | error e => exact hready
      | ok command =>
        rw [andThen_ok]
        refine look_bind trivial fun started => ?_
        rw [obeys_bind]
        refine runFfmpeg_publishes hcall ⟨videoEncoder, hbuild⟩ (fun first => ?_) fun _ => rfl
        refine (retry_publishes videoEncoder first).seq ?_ (fun _ _ h => h)
        intro completed t' ht'
        have hlast : t' = ⟨l, decide (completed.returncode = 0)⟩ := ht'
        subst hlast
        exact finish_publishes started completed

end

attribute [irreducible] Transcoding.temp Transcoding.output

/-! The names of temporary files. -/

/-- The temporary file is below the temporary directory, and the output is not named like one. -/
structure Transcoding.WellNamed (l : Transcoding) : Prop where
  format : l.job.outputPath.suffix ≠ [] ∨ '/' ∉ l.job.profileSnapshot.format.toList
  output : ¬ ".partial".toList <:+ l.output.name

instance (l : Transcoding) : Decidable l.WellNamed :=
  decidable_of_iff ((l.job.outputPath.suffix ≠ [] ∨ '/' ∉ l.job.profileSnapshot.format.toList) ∧
    ¬ ".partial".toList <:+ l.output.name) ⟨fun h => ⟨h.1, h.2⟩, fun h => ⟨h.format, h.output⟩⟩

theorem slash_notMem_hex (id : Uuid) : '/' ∉ id.hex := by
  have hdigit : ∀ a < 16, hexDigit a ≠ '/' := by decide
  intro h
  obtain ⟨i, -, hi⟩ := List.mem_map.mp h
  exact hdigit _ (Nat.mod_lt _ (by decide)) hi

theorem slash_notMem_str (id : Uuid) : '/' ∉ id.str.toList := by
  intro h
  have hfilter : '/' ∈ id.str.toList.filter (· ≠ '-') := List.mem_filter.mpr ⟨h, rfl⟩
  rw [Uuid.filter_str] at hfilter
  exact slash_notMem_hex id hfilter

section
variable {l l' : Transcoding}

theorem temp_name (h : l.WellNamed) : ∃ suffix : List Char,
    l.temp.name = l.job.id.str.toList ++ suffix ++ ".partial".toList := by
  have hsuffix : ∀ suffix : List Char, '/' ∉ suffix →
      ((l.transcoder.tempDirOf l.job).join
        (.ofChars (l.job.id.str.toList ++ suffix ++ ".partial".toList))).name =
          l.job.id.str.toList ++ suffix ++ ".partial".toList := by
    intro suffix hslash
    have hlong : 36 + 8 ≤ (l.job.id.str.toList ++ suffix ++ ".partial".toList).length := by
      have hid := Uuid.length_str l.job.id
      rw [List.length_append, List.length_append, hid]
      have htail : ".partial".toList.length = 8 := by decide
      omega
    have hentry : EntryName (l.job.id.str.toList ++ suffix ++ ".partial".toList) := by
      refine ⟨⟨?_, ?_, ?_⟩, ?_⟩
      · intro he
        rw [he] at hlong
        simp at hlong
      · intro he
        rw [he] at hlong
        simp at hlong
      · rw [List.mem_append, List.mem_append]
        rintro ((hin | hin) | hin)
        · exact slash_notMem_str _ hin
        · exact hslash hin
        · exact absurd hin (by decide)
      · intro he
        rw [he] at hlong
        simp at hlong
    rw [Path.name, join_parts _ hentry, List.getLast?_concat, Option.getD_some]
  unfold Transcoding.temp FfmpegTranscoder.temporaryOutputPath
  dsimp only
  split
  · refine ⟨_, hsuffix _ fun hin => ?_⟩
    have hname : '/' ∈ l.job.outputPath.name := by
      rw [← Path.stem_append_suffix]
      exact List.mem_append_right _ hin
    rcases Path.name_component l.job.outputPath with he | hc
    · rw [he] at hname
      cases hname
    · exact hc.2.2 hname
  · next hnone =>
    refine ⟨_, hsuffix _ fun hin => ?_⟩
    rcases List.mem_cons.mp hin with hin | hin
    · exact absurd hin (by decide)
    · exact (h.format.resolve_left hnone) hin

/-- The temporary files of different jobs are different. -/
theorem temp_ne (h : l.WellNamed) (h' : l'.WellNamed) (hid : l.job.id ≠ l'.job.id) :
    l.temp ≠ l'.temp := by
  intro heq
  obtain ⟨suffix, hname⟩ := temp_name h
  obtain ⟨suffix', hname'⟩ := temp_name h'
  rw [heq, hname', List.append_assoc, List.append_assoc] at hname
  have hids := List.append_inj_left hname
    ((Uuid.length_str l'.job.id).trans (Uuid.length_str l.job.id).symm)
  exact hid (Uuid.str_injective (String.toList_inj.mp hids)).symm

/-- No output is a temporary file. -/
theorem output_ne_temp (h : l.WellNamed) (h' : l'.WellNamed) : l.output ≠ l'.temp := by
  intro heq
  obtain ⟨suffix, hname⟩ := temp_name h'
  exact h.output (heq ▸ hname ▸ List.suffix_append _ _)

end

/-! All transcodings together. -/

/-- The process has a command to execute. -/
def Worker.Active (p : Worker) : Prop := p.next?.isSome

instance (p : Worker) : Decidable p.Active := inferInstanceAs (Decidable (_ = true))

/-- The content is all that a run which exited with 0 wrote for this call. -/
def Encoded (h : Host) (s : Site) (l : Transcoding) (content : Option Bytes) : Prop :=
  ∃ n argv completed, s.runs[n]? = some argv ∧ l.Command argv ∧
    (h.ffmpeg n).result = .ok completed ∧ completed.returncode = 0 ∧ (h.ffmpeg n).wrote = content

/-- A job is transcoded by one active process at a time, and nobody else writes to the temporary
    file of an active one. -/
def Orderly (s : Workshop) : Action Transcoding Unit FileChange → Prop
  | .spawn l => l.WellNamed ∧ ∀ p ∈ s.procs, Worker.Active p → p.label.job.id ≠ l.job.id
  | .env e => ∀ p ∈ s.procs, Worker.Active p → e.path ≠ p.label.temp
  | _ => True

instance (s : Workshop) : ∀ a, Decidable (Orderly s a)
  | .spawn l => inferInstanceAs
      (Decidable (l.WellNamed ∧ ∀ p ∈ s.procs, Worker.Active p → p.label.job.id ≠ l.job.id))
  | .env e => inferInstanceAs
      (Decidable (∀ p ∈ s.procs, Worker.Active p → e.path ≠ p.label.temp))
  | .exec _ _ => .isTrue trivial
  | .kill _ => .isTrue trivial

/-- What a path holds: what it held at the start, or a complete output. -/
def Complete (h : Host) (files : Path → Option Bytes) (path : Path) (s : Workshop) : Prop :=
  s.store.files path = files path ∨ ∃ p ∈ s.procs, p.label.output = path ∧
    ∃ bytes, s.store.files path = some bytes ∧ Encoded h s.store p.label (some bytes)

/-- The invariant, for one path. -/
structure Sound (h : Host) (files : Path → Option Bytes) (path : Path) (s : Workshop) : Prop where
  obeying : Obeying publishing Bench.initial (fun _ => True) s
  named : ∀ p ∈ s.procs, p.label.WellNamed
  apart : ∀ (i j : Nat) (p q : Worker), i ≠ j → s.procs[i]? = some p → s.procs[j]? = some q →
    p.Active → q.Active → p.label.job.id ≠ q.label.job.id
  ready : ∀ p ∈ s.procs, Worker.Active p →
    (publishing.after (.initial p.label) p.past).ready = true →
      Encoded h s.store p.label (s.store.files p.label.temp)
  complete : (∀ p ∈ s.procs, path ≠ p.label.temp) → Complete h files path s

section
variable {h : Host} {files : Path → Option Bytes} {path : Path} {s : Workshop} {site : Site}
  {l : Transcoding}

theorem Sound.start (site : Site) : Sound h site.files path ⟨site, []⟩ where
  obeying _ hp := absurd hp List.not_mem_nil
  named _ hp := absurd hp List.not_mem_nil
  apart _ _ _ _ _ hp := by cases hp
  ready _ hp := absurd hp List.not_mem_nil
  complete _ := .inl rfl

theorem next_call (t : Bench) (c : HostCmd) (r : HostReply c) :
    (publishing.next t c r).call = t.call := by
  cases c with
  | run argv output => cases r <;> rfl
  | _ => rfl

theorem after_call (past : List (Event HostCmd HostReply)) :
    (publishing.after (.initial l) past).call = l := by
  induction past with
  | nil => rfl
  | cons e past ih => exact (next_call _ e.cmd e.reply).trans ih

/-- More runs take nothing back. -/
theorem Encoded.later {content : Option Bytes} {s : Site} (hp : Encoded h s l content)
    {more : List (List String)} (hruns : site.runs = s.runs ++ more) :
    Encoded h site l content := by
  obtain ⟨n, argv, completed, hrun, hrest⟩ := hp
  refine ⟨n, argv, completed, ?_, hrest⟩
  have hlt : n < s.runs.length := (List.getElem?_eq_some_iff.mp hrun).1
  rw [hruns, List.getElem?_append_left hlt, hrun]

/-- One process goes on or is killed: it is no more active than before. -/
theorem Sound.apart_set (hs : Sound h files path s) {pid : Nat} {p q : Worker}
    (hp : s.procs[pid]? = some p) (hlabel : q.label = p.label) (hactive : q.Active → p.Active) :
    ∀ (i j : Nat) (a b : Worker), i ≠ j → (s.procs.set pid q)[i]? = some a →
      (s.procs.set pid q)[j]? = some b → a.Active → b.Active →
      a.label.job.id ≠ b.label.job.id := by
  have hlt : pid < s.procs.length := (List.getElem?_eq_some_iff.mp hp).1
  have hold : ∀ (i : Nat) (a : Worker), (s.procs.set pid q)[i]? = some a → a.Active →
      ∃ a', s.procs[i]? = some a' ∧ Worker.Active a' ∧ a'.label = a.label := by
    intro i a ha hact
    by_cases hi : i = pid
    · subst hi
      rw [List.getElem?_set_self hlt, Option.some.injEq] at ha
      subst ha
      exact ⟨p, hp, hactive hact, hlabel.symm⟩
    · rw [List.getElem?_set_ne (Ne.symm hi)] at ha
      exact ⟨a, ha, hact, rfl⟩
  intro i j a b hij ha hb hacta hactb
  obtain ⟨a', ha', hacta', hla⟩ := hold i a ha hacta
  obtain ⟨b', hb', hactb', hlb⟩ := hold j b hb hactb
  rw [← hla, ← hlb]
  exact hs.apart i j a' b' hij ha' hb' hacta' hactb'

/-- The host after a file was written or removed. -/
def Site.write (s : Site) (path : Path) (content : Option Bytes) : Site :=
  { s with files := Function.update s.files path content }

theorem Site.write_self (s : Site) (path : Path) (content : Option Bytes) :
    (s.write path content).files path = content := by
  simp [Site.write]

theorem Site.write_other (s : Site) {path q : Path} (content : Option Bytes) (hne : q ≠ path) :
    (s.write path content).files q = s.files q := by
  simp [Site.write, hne]

/-- What a command of the transcoding does to the host, and to whether it is ready. -/
inductive Change (h : Host) (l : Transcoding) (s : Site) : Bool → Site → Bool → Prop
  | looked {b} : Change h l s b s b
  | removed {b} : Change h l s b (s.write l.temp none) false
  | ran {b argv} (hargv : l.Command argv) :
      Change h l s b
        { s.write l.temp (h.ffmpeg s.runs.length).wrote with runs := s.runs ++ [argv] }
        (exitedWell (h.ffmpeg s.runs.length).result)
  | renamed {bytes} (hfile : s.files l.temp = some bytes) :
      Change h l s true ((s.write l.temp none).write l.output (some bytes)) false
  | missing {b} : Change h l s b s false

theorem change_of_allows {t : Bench} {c : HostCmd} (hallows : publishing.allows t c) :
    Change h t.call site t.ready (h.effect site c)
      (publishing.next t c (h.reply site c)).ready := by
  obtain ⟨l, ready⟩ := t
  cases c with
  | unlink path =>
    have hpath : path = l.temp := hallows
    rw [hpath]
    exact .removed
  | run argv output =>
    have hrun : output = l.temp ∧ l.Command argv := hallows
    rw [hrun.1]
    exact .ran hrun.2
  | replace source target =>
    have hreplace : ready = true ∧ source = l.temp ∧ target = l.output := hallows
    rw [hreplace.1, hreplace.2.1, hreplace.2.2]
    cases hfile : site.files l.temp with
    | none =>
      have heffect : h.effect site (.replace l.temp l.output) = site := by
        simp [Host.effect, hfile]
      rw [heffect]
      exact .missing
    | some bytes =>
      have heffect : h.effect site (.replace l.temp l.output) =
          (site.write l.temp none).write l.output (some bytes) := by
        simp [Host.effect, hfile, Site.write]
      rw [heffect]
      exact .renamed hfile
  | _ => exact .looked

variable {b b' : Bool} {site' : Site}

theorem Change.runs (hc : Change h l site b site' b') :
    ∃ more, site'.runs = site.runs ++ more := by
  cases hc with
  | ran hargv => exact ⟨_, rfl⟩
  | _ => exact ⟨[], (List.append_nil _).symm⟩

/-- Every other file is left. -/
theorem Change.others (hc : Change h l site b site' b') {q : Path} (htemp : q ≠ l.temp)
    (hout : q ≠ l.output) : site'.files q = site.files q := by
  cases hc with
  | removed => exact site.write_other none htemp
  | ran hargv => exact site.write_other _ htemp
  | renamed hfile => rw [Site.write_other _ _ hout, Site.write_other _ _ htemp]
  | _ => rfl

/-- Who is ready has at its temporary path what a run produced. -/
theorem Change.ready (hc : Change h l site b site' b')
    (hbefore : b = true → Encoded h site l (site.files l.temp)) (hready : b' = true) :
    Encoded h site' l (site'.files l.temp) := by
  cases hc with
  | looked => exact hbefore hready
  | @ran _ argv hargv =>
    have hfile := site.write_self l.temp (h.ffmpeg site.runs.length).wrote
    cases hresult : (h.ffmpeg site.runs.length).result with
    | error name =>
      rw [hresult] at hready
      cases hready
    | ok completed =>
      rw [hresult] at hready
      exact ⟨site.runs.length, argv, completed, List.getElem?_concat_length, hargv, hresult,
        of_decide_eq_true hready, hfile.symm⟩
  | _ => cases hready

/-- The output is left, or replaced by what a run produced. -/
theorem Change.output (hc : Change h l site b site' b') (hne : l.output ≠ l.temp)
    (hbefore : b = true → Encoded h site l (site.files l.temp)) :
    site'.files l.output = site.files l.output ∨
      ∃ bytes, site'.files l.output = some bytes ∧ Encoded h site l (some bytes) := by
  cases hc with
  | removed => exact .inl (site.write_other none hne)
  | ran hargv => exact .inl (site.write_other _ hne)
  | renamed hfile => exact .inr ⟨_, Site.write_self _ _ _, hfile ▸ hbefore rfl⟩
  | _ => exact .inl rfl

/-- A path that is left goes on holding what it may. -/
theorem Complete.keep (hc : Complete h files path s) {s' : Workshop}
    (hfile : s'.store.files path = s.store.files path)
    (hruns : ∃ more, s'.store.runs = s.store.runs ++ more)
    (hlabels : ∀ p ∈ s.procs, ∃ q ∈ s'.procs, q.label = p.label) :
    Complete h files path s' := by
  obtain ⟨more, hmore⟩ := hruns
  rcases hc with hold | ⟨p, hp, hout, bytes, hbytes, hproduced⟩
  · exact .inl (hfile.trans hold)
  · obtain ⟨q, hq, hlabel⟩ := hlabels p hp
    exact .inr ⟨q, hq, hlabel ▸ hout, bytes, hfile.trans hbytes,
      hlabel ▸ hproduced.later hmore⟩

/-- One process in the place of another with the same label. -/
theorem labels_set {procs : List Worker} {pid : Nat} {p q : Worker} (hp : procs[pid]? = some p)
    (hlabel : q.label = p.label) : ∀ a ∈ procs, ∃ b ∈ procs.set pid q, b.label = a.label := by
  have hlt : pid < procs.length := (List.getElem?_eq_some_iff.mp hp).1
  intro a ha
  obtain ⟨i, hi⟩ := List.getElem?_of_mem ha
  by_cases hpid : i = pid
  · subst hpid
    rw [hp, Option.some.injEq] at hi
    exact ⟨q, List.mem_of_getElem? (List.getElem?_set_self hlt), hi ▸ hlabel⟩
  · exact ⟨a, List.mem_of_getElem? ((List.getElem?_set_ne (Ne.symm hpid)).trans hi), rfl⟩

theorem Sound.exec (hs : Sound h files path s) {pid : Nat} {past : List (Event HostCmd HostReply)}
    {c : HostCmd} {k : HostReply c → HostProg Unit}
    (hp : s.procs[pid]? = some ⟨l, past, some (.ask c k)⟩) {q : Worker}
    (hq : q = ⟨l, ⟨c, h.reply s.store c⟩ :: past, some (k (h.reply s.store c))⟩)
    (hob : Obeying publishing Bench.initial (fun _ => True)
      ⟨h.effect s.store c, s.procs.set pid q⟩) :
    Sound h files path ⟨h.effect s.store c, s.procs.set pid q⟩ := by
  have hmem := List.mem_of_getElem? hp
  have hlabel : q.label = l := congrArg Process.label hq
  have hactive : Worker.Active ⟨l, past, some (.ask c k)⟩ := rfl
  have hallows := hs.obeying.allows hmem (p := ⟨l, past, some (.ask c k)⟩) rfl
  have hchange := @change_of_allows h s.store _ c hallows
  rw [after_call] at hchange
  have hbefore := hs.ready _ hmem hactive
  have hnamed := hs.named _ hmem
  refine ⟨hob, fun a ha => ?_, hs.apart_set hp hlabel fun _ => hactive, ?_, fun hpath => ?_⟩
  · obtain ⟨b, hb, hba⟩ : ∃ b ∈ s.procs, b.label = a.label := by
      rcases List.mem_or_eq_of_mem_set ha with ha | rfl
      · exact ⟨a, ha, rfl⟩
      · exact ⟨_, hmem, hlabel.symm⟩
    exact hba ▸ hs.named b hb
  · intro a ha hact hready
    obtain ⟨i, hi⟩ := List.getElem?_of_mem ha
    have hlt : pid < s.procs.length := (List.getElem?_eq_some_iff.mp hp).1
    by_cases hpid : i = pid
    · subst hpid
      rw [List.getElem?_set_self hlt, Option.some.injEq, hq] at hi
      subst hi
      exact hchange.ready hbefore hready
    · -- another process has another job, and so other paths
      rw [List.getElem?_set_ne (Ne.symm hpid)] at hi
      have hother := List.mem_of_getElem? hi
      have hid := hs.apart i pid a _ hpid hi hp hact hactive
      rw [hchange.others (temp_ne (hs.named a hother) hnamed hid)
        (output_ne_temp hnamed (hs.named a hother)).symm]
      obtain ⟨more, hmore⟩ := hchange.runs
      exact (hs.ready a hother hact hready).later hmore
  · have hlabels := labels_set hp (q := q) hlabel
    have hcomplete := hs.complete fun a ha => by
      obtain ⟨b, hb, hba⟩ := hlabels a ha
      exact hba ▸ hpath b hb
    by_cases hout : path = l.output
    · obtain ⟨more, hmore⟩ := hchange.runs
      rcases hchange.output (output_ne_temp hnamed hnamed) hbefore with hsame | ⟨bytes, hnew, hpro⟩
      · exact hcomplete.keep (hout ▸ hsame) hchange.runs hlabels
      · refine .inr ⟨q, List.mem_of_getElem? (List.getElem?_set_self
          (List.getElem?_eq_some_iff.mp hp).1), hlabel ▸ hout.symm, bytes, hout ▸ hnew, ?_⟩
        exact hlabel ▸ hpro.later hmore
    · obtain ⟨b, hb, hbl⟩ := hlabels _ hmem
      have htemp := hpath b hb
      rw [hbl] at htemp
      exact hcomplete.keep (hchange.others htemp hout) hchange.runs hlabels

theorem Sound.kill (hs : Sound h files path s) {pid : Nat} {p : Worker}
    (hp : s.procs[pid]? = some p)
    (hob : Obeying publishing Bench.initial (fun _ => True)
      ⟨s.store, s.procs.set pid { p with rest := none }⟩) :
    Sound h files path ⟨s.store, s.procs.set pid { p with rest := none }⟩ := by
  have hdead : ¬ Worker.Active { p with rest := none } := by intro hact; cases hact
  refine ⟨hob, fun a ha => ?_, hs.apart_set hp rfl fun hact => absurd hact hdead, ?_,
    fun hpath => ?_⟩
  · rcases List.mem_or_eq_of_mem_set ha with ha | rfl
    · exact hs.named a ha
    · exact hs.named p (List.mem_of_getElem? hp)
  · intro a ha hact
    rcases List.mem_or_eq_of_mem_set ha with ha | rfl
    · exact hs.ready a ha hact
    · exact absurd hact hdead
  · have hlabels := labels_set hp (q := { p with rest := none }) rfl
    have hcomplete := hs.complete fun a ha => by
      obtain ⟨b, hb, hba⟩ := hlabels a ha
      exact hba ▸ hpath b hb
    exact hcomplete.keep rfl ⟨[], (List.append_nil _).symm⟩ hlabels

theorem Sound.spawn (hs : Sound h files path s) (hnamed : l.WellNamed)
    (hid : ∀ p ∈ s.procs, Worker.Active p → p.label.job.id ≠ l.job.id)
    {rest : Option (HostProg Unit)}
    (hob : Obeying publishing Bench.initial (fun _ => True)
      ⟨s.store, s.procs ++ [⟨l, [], rest⟩]⟩) :
    Sound h files path ⟨s.store, s.procs ++ [⟨l, [], rest⟩]⟩ := by
  have hnew : ∀ (i : Nat) (a : Worker), (s.procs ++ [⟨l, [], rest⟩])[i]? = some a →
      s.procs[i]? = some a ∨ i = s.procs.length ∧ a.label = l := by
    intro i a ha
    rcases Nat.lt_or_ge i s.procs.length with hlt | hge
    · rw [List.getElem?_append_left hlt] at ha
      exact .inl ha
    · rw [List.getElem?_append_right hge, List.getElem?_singleton] at ha
      split at ha
      · next hi => exact .inr ⟨by omega, by rw [← Option.some.inj ha]⟩
      · cases ha
  refine ⟨hob, fun a ha => ?_, ?_, ?_, fun hpath => ?_⟩
  · rcases List.mem_append.mp ha with ha | ha
    · exact hs.named a ha
    · rw [List.mem_singleton.mp ha]
      exact hnamed
  · intro i j a b hij ha hb hacta hactb
    rcases hnew i a ha with ha | ⟨hi, hla⟩
    · rcases hnew j b hb with hb | ⟨-, hlb⟩
      · exact hs.apart i j a b hij ha hb hacta hactb
      · rw [hlb]
        exact hid a (List.mem_of_getElem? ha) hacta
    · rcases hnew j b hb with hb | ⟨hj, -⟩
      · rw [hla]
        exact (hid b (List.mem_of_getElem? hb) hactb).symm
      · exact absurd (hi.trans hj.symm) hij
  · intro a ha hact hready
    rcases List.mem_append.mp ha with ha | ha
    · exact hs.ready a ha hact hready
    · rw [List.mem_singleton.mp ha] at hready
      cases hready
  · refine (hs.complete fun a ha => hpath a (List.mem_append_left _ ha)).keep rfl
      ⟨[], (List.append_nil _).symm⟩ fun a ha => ⟨a, List.mem_append_left _ ha, rfl⟩

/-- Another program writes to a file that is no active process's temporary one. -/
theorem Sound.other (hs : Sound h files path s) {e : FileChange}
    (htemps : ∀ p ∈ s.procs, Worker.Active p → e.path ≠ p.label.temp) (hpath : e.path ≠ path) :
    Sound h files path ⟨s.store.write e.path e.content, s.procs⟩ where
  obeying := hs.obeying
  named := hs.named
  apart := hs.apart
  ready p hp hact hready := by
    rw [Site.write_other _ _ (htemps p hp hact).symm]
    exact (hs.ready p hp hact hready).later (List.append_nil _).symm
  complete hout := (hs.complete hout).keep (Site.write_other _ _ hpath.symm)
    ⟨[], (List.append_nil _).symm⟩ fun p hp => ⟨p, hp, rfl⟩

theorem Sound.step (hs : Sound h files path s) {a : Action Transcoding Unit FileChange}
    (ha : Orderly s a) (hpath : ∀ e, a = .env e → e.path ≠ path) :
    Sound h files path ((transcodings h).step s a) := by
  have hob : Obeying publishing Bench.initial (fun _ => True) ((transcodings h).step s a) :=
    obeyingTo_step hs.obeying.to
      (fun l _ => (obeys_discard _ _).mpr ((transcode_publishes l).mono fun _ _ _ => trivial))
      (fun _ _ _ _ _ _ _ _ _ _ => trivial)
  have hcases := (transcodings h).step_cases (s := s) a
  generalize (transcodings h).step s a = s' at hob hcases
  cases hcases with
  | idle => exact hs
  | spawn l => exact hs.spawn ha.1 ha.2 hob
  | exec hp hr =>
    cases hr
    exact hs.exec hp rfl hob
  | kill hp => exact hs.kill hp hob
  | env e => exact hs.other ha (hpath e rfl)

/-- Whatever order the transcodings on a host take their commands in, and wherever some of them
    are killed: under a path that is no temporary one lies what lay there at the start, or all
    that a run of ffmpeg wrote that exited with 0, run for a job with this output path. -/
theorem outputs_complete (h : Host) (site : Site)
    (actions : List (Action Transcoding Unit FileChange)) (path : Path)
    (hactions : Meets (transcodings h).step Orderly ⟨site, []⟩ actions)
    (hothers : ∀ e, .env e ∈ actions → e.path ≠ path)
    (htemps : ∀ p ∈ ((transcodings h).run ⟨site, []⟩ actions).procs, path ≠ p.label.temp) :
    Complete h site.files path ((transcodings h).run ⟨site, []⟩ actions) := by
  have hpaths : Meets (transcodings h).step (fun _ a => ∀ e, a = .env e → e.path ≠ path)
      ⟨site, []⟩ actions :=
    meets_of_forall (fun a ha _ e he => hothers e (by rw [← he]; exact ha)) _
  have hsound : Sound h site.files path ((transcodings h).run ⟨site, []⟩ actions) :=
    run_invariant _ (fun _ _ hs ha => hs.step ha.1 ha.2) (.start site)
      (meets_and hactions hpaths)
  exact hsound.complete htemps

end
/-- Every run of ffmpeg exits with 0. -/
def willing : Host where
  ffmpeg _ := ⟨some [0], .ok ⟨0, ""⟩⟩
  probeObj _ := .empty
  version := .ok ⟨0, "ffmpeg version 7.0"⟩
  perfCounter n := n

/-- A transcoding is killed after its run, and started again. -/
def startedAgain : List (Action Transcoding Unit FileChange) :=
  [.spawn ⟨nvencOnly, movieJob⟩] ++ List.replicate 7 (.exec 0 ()) ++ [.kill 0] ++
    [.spawn ⟨nvencOnly, movieJob⟩] ++ List.replicate 9 (.exec 1 ())

theorem outputs_complete_startedAgain :
    Complete willing inputOnly movieJob.outputPath
      ((transcodings willing).run ⟨⟨inputOnly, []⟩, []⟩ startedAgain) :=
  outputs_complete willing ⟨inputOnly, []⟩ startedAgain movieJob.outputPath
    (by decide +kernel) (by simp [startedAgain]) (by decide +kernel)

example : ((transcodings willing).run ⟨⟨inputOnly, []⟩, []⟩ startedAgain).store.files
    movieJob.outputPath = some [0] := by
  decide +kernel

end Vshift
