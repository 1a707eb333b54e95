import MerlionTsdb.Block.Layout
import MerlionTsdb.Head.Sessions
import MerlionTsdb.Querier.Complete

/-!
# The database over its life

Who uses the library keeps a WAL directory, with a head on it at times, and the directories of blocks.  Heads
are opened, used, closed and lost in crashes; what they hold is flushed; blocks are compacted and deleted, all
in any order.
-/

namespace MerlionTsdb.System

open Block Chunkenc Encoding Head IndexSort Model Querier Wal

/-! ## States and steps -/

/-- The WAL directory, by itself or with a head on it. -/
inductive Ingest
  | idle (files : Files)
  | live (r : DiskRun)

/-- A flushed head: the series of its block, and what the head surely held. -/
structure Flush where
  series : List SeriesInput
  held : List (Labels × Sample)

/-- What there is on disk and in memory.  The last three fields tell what has happened: all flushes, and what
the heads before the present one accepted and committed. -/
structure Database where
  ingest : Ingest := .idle Files.empty
  parts : List Part := []
  flushes : List Flush := []
  accepted : List (Labels × Sample) := []
  committed : List (Labels × Sample) := []

namespace Database

/-- All that any head has accepted. -/
def ever (db : Database) : List (Labels × Sample) :=
  match db.ingest with
  | .idle _ => db.accepted
  | .live r => db.accepted ++ r.accepted

/-- What the present head has to hold: all that was committed before it, and all that it has accepted. -/
def held (db : Database) : List (Labels × Sample) :=
  match db.ingest with
  | .idle _ => []
  | .live r => db.committed ++ r.accepted

def heads (db : Database) : List (Option (Head Disk)) :=
  match db.ingest with
  | .idle _ => []
  | .live r => [some r.head]

end Database

/-- One call of the library, or one thing that happens to it.  A process that ends, with or without a power
loss, leaves of the WAL what a crash leaves; a block whose `meta.json` goes with it is as good as deleted. -/
inductive Step (text : JsonText) (db : Database) : Database → Prop
  | opened {files : Files} {start : SegmentHead} (hidle : db.ingest = .idle files)
    (hopen : Head.openDir files true = some start) (htail : ¬ TornTail files)
    (hidx : SegmentWriter.nextIndex files < 10 ^ kSegmentNameWidth) :
    Step text db { db with ingest := .live { head := onDisk start (allKept files) } }
  | called {r r' : DiskRun} {call : Head.HeadCall} (hlive : db.ingest = .live r)
    (hok : r.head.closed = false → call.Harmless r.forget) (hstep : call.diskStep r = some r') :
    Step text db { db with ingest := .live r' }
  | closed {r r' : DiskRun} {calls : CommitCalls LogCalls SyncCalls} {cut : CutCalls}
    (hlive : db.ingest = .live r) (hok : r.head.closed = false → CloseHarmless r.head calls cut)
    (hclose : r.close calls cut = some r') : Step text db { db with ingest := .live r' }
  | crashed {r : DiskRun} {left : FileName → Bytes} (hlive : db.ingest = .live r)
    (hgarbles : Garbles r.head.wal.kept r.head.wal.files left) (hcuts : Cuts r.head.wal.files left) :
    Step text db { db with
      ingest := .idle (r.head.wal.files.crashed left)
      accepted := db.accepted ++ r.accepted
      committed := db.committed ++ r.committed }
  | flushed {r : DiskRun} {inputs : List SeriesInput} {calls : CreateCalls} {dir : BlockDir}
    (hlive : db.ingest = .live r) (hinputs : headInputs r.head.series.allSeries = .ok inputs)
    (hok : createFromHead text calls r.head = .ok dir) (hfits : WithinFormat calls inputs)
    (hkeeps : KeepsNew text calls inputs) :
    Step text db { db with
      parts := db.parts ++ [⟨dir, inputs, [inputs]⟩]
      flushes := db.flushes ++ [⟨inputs, db.held⟩] }
  | compacted {parts : List Part} {p : Part} (hparts : parts ⊆ db.parts)
    (hmade : CompactedFrom text parts p) : Step text db { db with parts := db.parts ++ [p] }
  | deleted {parts : List Part} (hparts : parts ⊆ db.parts) : Step text db { db with parts := parts }

/-- The run of a head on a directory that others have left. -/
structure LiveRun (accepted committed : List (Labels × Sample)) (r : DiskRun) : Prop where
  exists_start : ∃ start, Between accepted committed start ∧
    Survives start r.head.wal r.accepted r.committed ∧ (r.head.closed = false → Crashable start r) ∧
    Reaches diskWal r.head (extended start r.accepted)

/-- A closed head refuses every call. -/
theorem diskStep_closed {r r' : DiskRun} (hclosed : r.head.closed = true) {call : Head.HeadCall}
    (hstep : call.diskStep r = some r') : r' = r := by
  cases call with
  | append labels x =>
    obtain ⟨res, happend, rfl⟩ := Option.map_eq_some_iff.mp hstep
    unfold Head.append at happend
    rw [if_pos hclosed] at happend
    cases happend
    rfl
  | commit calls =>
    obtain ⟨res, hcommit, rfl⟩ := Option.map_eq_some_iff.mp hstep
    rw [Head.commit_closed hclosed] at hcommit
    cases hcommit
    rfl

theorem close_again {r r' : DiskRun} (hclosed : r.head.closed = true)
    {calls : CommitCalls LogCalls SyncCalls} {cut : CutCalls} (hclose : r.close calls cut = some r') :
    r' = r := by
  unfold DiskRun.close at hclose
  rw [Head.close_closed hclosed, Head.commit_closed hclosed] at hclose
  cases hclose
  rfl

/-- A call that is harmless keeps a head in use. -/
theorem reaches_step {start : SeriesStore} {r r' : DiskRun} {call : Head.HeadCall}
    (h : Reaches diskWal r.head (extended start r.accepted)) (hstep : call.diskStep r = some r') :
    Reaches diskWal r'.head (extended start r'.accepted) := by
  cases call with
  | append labels x =>
    obtain ⟨⟨res, h'⟩, happend, rfl⟩ := Option.map_eq_some_iff.mp hstep
    cases res with
    | ok ref =>
      show Reaches diskWal h' (extended start (r.accepted ++ [(labels, x)]))
      rw [← extended_concat]
      exact h.accepted happend
    | error e => exact h.rejected happend
  | commit calls =>
    obtain ⟨⟨ok, h'⟩, hcommit, rfl⟩ := Option.map_eq_some_iff.mp hstep
    exact h.committed hcommit

namespace LiveRun

variable {accepted committed : List (Labels × Sample)} {r r' : DiskRun}

/-- A head that was just opened. -/
theorem opened {files : Files} {start : SegmentHead} (hbetween : Between accepted committed start.series)
    (hopen : Head.openDir files true = some start) (htail : ¬ TornTail files)
    (hidx : SegmentWriter.nextIndex files < 10 ^ kSegmentNameWidth) :
    LiveRun accepted committed { head := onDisk start (allKept files) } := by
  have hcrashable := crashable_openDir hopen (clean_of_openDir hopen htail) hidx (whole_allKept files)
  refine ⟨start.series, hbetween, hcrashable.ends .dropped, fun _ ↦ hcrashable, ?_⟩
  have hreplay := replayRecords_of_openDir hopen
  obtain ⟨store, -, rfl⟩ := openDir_iff.mp hopen
  have hnone : extended store [] = store.samplesOf := by
    funext labels
    exact List.append_nil _
  show Reaches diskWal _ (extended store [])
  rw [hnone]
  exact .opened _ hreplay

theorem called (h : LiveRun accepted committed r) {call : Head.HeadCall}
    (hok : r.head.closed = false → call.Harmless r.forget) (hstep : call.diskStep r = some r') :
    LiveRun accepted committed r' := by
  cases hclosed : r.head.closed with
  | true =>
    -- Nothing is asked of the calls on a closed head, which do nothing.
    cases diskStep_closed hclosed hstep
    exact h
  | false =>
    obtain ⟨start, hbetween, -, hcrashable, hreach⟩ := h.exists_start
    have hnext := (hcrashable hclosed).step (hok hclosed) hstep
    exact ⟨start, hbetween, hnext.ends .dropped, fun _ ↦ hnext, reaches_step hreach hstep⟩

theorem closed (h : LiveRun accepted committed r) {calls : CommitCalls LogCalls SyncCalls}
    {cut : CutCalls} (hok : r.head.closed = false → CloseHarmless r.head calls cut)
    (hclose : r.close calls cut = some r') : LiveRun accepted committed r' := by
  cases hclosed : r.head.closed with
  | true =>
    cases close_again hclosed hclose
    exact h
  | false =>
    obtain ⟨start, hbetween, -, hcrashable, hreach⟩ := h.exists_start
    have hsurvives := (hcrashable hclosed).ends (.closed (hok hclosed) hclose)
    obtain ⟨⟨ok, h'⟩, hresult, rfl⟩ := Option.map_eq_some_iff.mp hclose
    refine ⟨start, hbetween, hsurvives, fun hopen ↦ ?_, hreach.closed hresult⟩
    -- Whether the commit or the cut failed or not, the head is closed.
    rcases Head.close_cases hclosed hresult with ⟨h₁, -, -, rfl⟩ | ⟨h₁, -, wal, -, rfl⟩
    · cases hopen
    · cases hopen

/-- What the next head finds. -/
theorem crashed (h : LiveRun accepted committed r) {left : FileName → Bytes}
    (hgarbles : Garbles r.head.wal.kept r.head.wal.files left) (hcuts : Cuts r.head.wal.files left)
    {hd : SegmentHead} (hopen : Head.openDir (r.head.wal.files.crashed left) true = some hd) :
    Between (accepted ++ r.accepted) (committed ++ r.committed) hd.series := by
  obtain ⟨start, hbetween, hsurvives, -, -⟩ := h.exists_start
  exact hsurvives.between hbetween hgarbles hcuts hopen

/-- What the head holds. -/
theorem exists_content (h : LiveRun accepted committed r) :
    ∃ content, Reaches diskWal r.head content ∧ ∀ labels,
      (samplesUnder labels (committed ++ r.accepted)).Sublist (content labels) ∧
        (content labels).Sublist (samplesUnder labels (accepted ++ r.accepted)) := by
  obtain ⟨start, hbetween, -, -, hreach⟩ := h.exists_start
  refine ⟨_, hreach, fun labels ↦ ?_⟩
  obtain ⟨hkept, hfrom⟩ := hbetween labels
  rw [samplesUnder_append, samplesUnder_append]
  exact ⟨hkept.append (.refl _), hfrom.append (.refl _)⟩

end LiveRun

/-! ## The invariant -/

/-- A flushed head: its content lies between what it had to hold and what was ever accepted. -/
structure FlushedIn (ever : List (Labels × Sample)) (f : Flush) (content : Labels → List Sample) :
    Prop where
  flushed : ∃ hd : Head Disk, Reaches diskWal hd content ∧ headInputs hd.series.allSeries = .ok f.series
  held : ∀ labels, (samplesUnder labels f.held).Sublist (content labels)
  accepted : ∀ labels, (content labels).Sublist (samplesUnder labels ever)

/-- Whatever head comes next or is there, nothing committed is missing from it and nothing is in it that was
not accepted. -/
def Ingest.Sound (accepted committed : List (Labels × Sample)) : Ingest → Prop
  | .idle files => ∀ hd : SegmentHead, Head.openDir files true = some hd →
      Between accepted committed hd.series
  | .live r => LiveRun accepted committed r

structure Sound (text : JsonText) (db : Database) : Prop where
  ingest : db.ingest.Sound db.accepted db.committed
  flushes : ∀ f ∈ db.flushes, ∃ content, FlushedIn db.ever f content
  parts : ∀ p ∈ db.parts, Compacted text p ∧ ∀ series ∈ p.leaves, ∃ f ∈ db.flushes, f.series = series

theorem FlushedIn.mono {ever ever' : List (Labels × Sample)} {f : Flush} {content : Labels → List Sample}
    (h : FlushedIn ever f content) (hle : ever <+: ever') : FlushedIn ever' f content := by
  obtain ⟨more, rfl⟩ := hle
  refine ⟨h.flushed, h.held, fun labels ↦ ?_⟩
  rw [samplesUnder_append]
  exact (h.accepted labels).trans (List.sublist_append_left _ _)

section

variable {text : JsonText} {db db' : Database}

theorem Sound.live (h : Sound text db) {r : DiskRun} (hlive : db.ingest = .live r) :
    LiveRun db.accepted db.committed r := by
  have hingest := h.ingest
  rwa [hlive] at hingest

/-- A step forgets nothing that was accepted. -/
theorem Step.ever_le (h : Step text db db') : db.ever <+: db'.ever := by
  unfold Database.ever
  cases h with
  | opened hidle => simp [hidle]
  | @called r r' call hlive _ hstep =>
    simp only [hlive]
    apply List.prefix_append_right_inj _ |>.mpr
    cases call with
    | append labels x =>
      obtain ⟨res, -, rfl⟩ := Option.map_eq_some_iff.mp hstep
      dsimp only
      split
      · exact List.prefix_append _ _
      · exact List.prefix_rfl
    | commit calls =>
      obtain ⟨res, -, rfl⟩ := Option.map_eq_some_iff.mp hstep
      exact List.prefix_rfl
  | @closed r r' calls cut hlive _ hclose =>
    obtain ⟨res, -, rfl⟩ := Option.map_eq_some_iff.mp hclose
    simp [hlive]
  | crashed hlive => simp [hlive]
  | flushed => exact List.prefix_rfl
  | compacted => exact List.prefix_rfl
  | deleted => exact List.prefix_rfl

theorem Step.flushes_le (h : Step text db db') : db.flushes <+: db'.flushes := by
  cases h with
  | flushed => exact List.prefix_append _ _
  | _ => exact List.prefix_rfl

/-- The head, or what it leaves. -/
theorem Sound.step_ingest (h : Sound text db) (hstep : Step text db db') :
    db'.ingest.Sound db'.accepted db'.committed := by
  have hingest := h.ingest
  cases hstep with
  | opened hidle hopen htail hidx =>
    rw [hidle] at hingest
    exact LiveRun.opened (hingest _ hopen) hopen htail hidx
  | called hlive hok hstep => exact (h.live hlive).called hok hstep
  | closed hlive hok hclose => exact (h.live hlive).closed hok hclose
  | crashed hlive hgarbles hcuts => exact fun hd hopen ↦ (h.live hlive).crashed hgarbles hcuts hopen
  | flushed => exact hingest
  | compacted => exact hingest
  | deleted => exact hingest

/-- The head that is flushed now. -/
theorem LiveRun.flushedIn {r : DiskRun} (h : LiveRun db.accepted db.committed r)
    (hlive : db.ingest = .live r) {inputs : List SeriesInput}
    (hinputs : headInputs r.head.series.allSeries = .ok inputs) :
    ∃ content, FlushedIn db.ever ⟨inputs, db.held⟩ content := by
  obtain ⟨content, hreach, hcontent⟩ := h.exists_content
  refine ⟨content, ⟨r.head, hreach, hinputs⟩, fun labels ↦ ?_, fun labels ↦ ?_⟩
  · show (samplesUnder labels db.held).Sublist _
    unfold Database.held
    rw [hlive]
    exact (hcontent labels).1
  · unfold Database.ever
    rw [hlive]
    exact (hcontent labels).2

theorem Sound.step_flushes (h : Sound text db) (hstep : Step text db db') :
    ∀ f ∈ db'.flushes, ∃ content, FlushedIn db'.ever f content := by
  have hold : ∀ f ∈ db.flushes, ∃ content, FlushedIn db'.ever f content := by
    intro f hf
    obtain ⟨content, hcontent⟩ := h.flushes f hf
    exact ⟨content, hcontent.mono hstep.ever_le⟩
  cases hstep with
  | flushed hlive hinputs =>
    intro f hf
    rcases List.mem_append.mp hf with hf | hf
    · exact hold f hf
    · cases List.mem_singleton.mp hf
      exact (h.live hlive).flushedIn hlive hinputs
  | _ => exact hold

theorem Sound.step_parts (h : Sound text db) (hstep : Step text db db') :
    ∀ p ∈ db'.parts, Compacted text p ∧ ∀ series ∈ p.leaves, ∃ f ∈ db'.flushes, f.series = series := by
  have hold : ∀ p ∈ db.parts,
      Compacted text p ∧ ∀ series ∈ p.leaves, ∃ f ∈ db'.flushes, f.series = series := by
    intro p hp
    obtain ⟨hcompacted, hleaves⟩ := h.parts p hp
    refine ⟨hcompacted, fun series hseries ↦ ?_⟩
    obtain ⟨f, hf, hsame⟩ := hleaves series hseries
    exact ⟨f, hstep.flushes_le.subset hf, hsame⟩
  cases hstep with
  | flushed hlive hinputs hok hfits hkeeps =>
    intro p hp
    rcases List.mem_append.mp hp with hp | hp
    · exact hold p hp
    · cases List.mem_singleton.mp hp
      obtain ⟨content, hreach, -⟩ := (h.live hlive).exists_content
      refine ⟨.leaf (.head hreach hinputs hok hfits hkeeps), fun series hseries ↦ ?_⟩
      cases List.mem_singleton.mp hseries
      exact ⟨_, List.mem_append_right _ List.mem_cons_self, rfl⟩
  | @compacted parts p' hparts hmade =>
    intro p hp
    rcases List.mem_append.mp hp with hp | hp
    · exact hold p hp
    · cases List.mem_singleton.mp hp
      refine ⟨.compact (fun q hq ↦ (h.parts q (hparts hq)).1) hmade, fun series hseries ↦ ?_⟩
      -- The new block has the leaves of its parts.
      rw [hmade.leaves_eq] at hseries
      obtain ⟨q, hq, hin⟩ := List.mem_flatMap.mp hseries
      exact (h.parts q (hparts hq)).2 series hin
  | deleted hparts => exact fun p hp ↦ hold p (hparts hp)
  | _ => exact hold

theorem Sound.step (h : Sound text db) (hstep : Step text db db') : Sound text db' :=
  ⟨h.step_ingest hstep, h.step_flushes hstep, h.step_parts hstep⟩

end

/-! ## Queries -/

section

variable {text : JsonText} {db : Database}

/-- As long as the samples can be counted, the series of a flush hold what the head held. -/
theorem FlushedIn.flushedFrom {ever : List (Labels × Sample)} {f : Flush}
    {content : Labels → List Sample} (h : FlushedIn ever f content) (hmany : ever.length < 2 ^ 64) :
    FlushedFrom f.series (samplesIn f.series) ∧ FlushedIn ever f (samplesIn f.series) := by
  obtain ⟨hd, hreach, hinputs⟩ := h.flushed
  have hfrom : FlushedFrom f.series content := by
    refine ⟨⟨_, _, _, _, diskWal, hd, hreach, hinputs⟩, fun labels ↦ ?_⟩
    calc (content labels).length
        ≤ (samplesUnder labels ever).length := (h.accepted labels).length_le
      _ ≤ ever.length := List.length_filterMap_le _ _
      _ < 2 ^ 64 := hmany
  have hcontent : samplesIn f.series = content := funext hfrom.samplesIn_eq
  rw [hcontent]
  exact ⟨hfrom, h⟩

/-- The leaves of a block are flushes. -/
theorem Sound.leaves (h : Sound text db) (hmany : db.ever.length < 2 ^ 64) {p : Part} (hp : p ∈ db.parts)
    {series : List SeriesInput} (hseries : series ∈ p.leaves) :
    FlushedFrom series (samplesIn series) ∧
      ∀ labels, (samplesIn series labels).Sublist (samplesUnder labels db.ever) := by
  obtain ⟨f, hf, rfl⟩ := (h.parts p hp).2 series hseries
  obtain ⟨content, hcontent⟩ := h.flushes f hf
  obtain ⟨hfrom, hin⟩ := hcontent.flushedFrom hmany
  exact ⟨hfrom, hin.accepted⟩

end

/-! ### One life -/

end MerlionTsdb.System
