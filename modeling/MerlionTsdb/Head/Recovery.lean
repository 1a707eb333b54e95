import MerlionTsdb.Head.Replay
import MerlionTsdb.Wal.Retry
import MerlionTsdb.Wal.TornTail

/-!
# Recovery of a head from its directory

`Stored` joins the two halves: the segment writer with what a reader of the directory finds, and the
head with what replaying that gives.  Appends and successful commits keep it, as long as the WAL
that was opened ends cleanly.
-/

namespace MerlionTsdb.Head

open Chunkenc Model Wal Wal.Record SeriesStore

abbrev SegmentHead := Head (SegmentWriter × Files)

/-! ## Runs of a head -/

inductive HeadCall
  | append (labels : Labels) (x : Sample)
  | commit (calls : CommitCalls LogCalls SyncCalls)

/-- A head, the samples its appends accepted, and those of them behind a commit that succeeded. -/
structure HeadRun where
  head : SegmentHead
  accepted : List (Labels × Sample) := []
  committed : List (Labels × Sample) := []

def HeadCall.step (r : HeadRun) : HeadCall → Option HeadRun
  | .append labels x => (r.head.append labels x).map fun res ↦
      { r with
        head := res.2
        accepted := if res.1.isOk then r.accepted ++ [(labels, x)] else r.accepted }
  | .commit calls => (r.head.commit segmentWal calls).map fun res ↦
      { r with head := res.2, committed := if res.1 then r.accepted else r.committed }

def runCalls : List HeadCall → HeadRun → Option HeadRun
  | [], r => some r
  | call :: calls, r => (call.step r).bind (runCalls calls)

/-- A condition on every call of a run, and on the state before it. -/
def RunAll (P : HeadRun → HeadCall → Prop) : List HeadCall → HeadRun → Prop
  | [], _ => True
  | call :: calls, r =>
    P r call ∧
      match call.step r with
      | some r => RunAll P calls r
      | none => True

instance RunAll.decidable (P : HeadRun → HeadCall → Prop) [∀ r call, Decidable (P r call)] :
    (calls : List HeadCall) → (r : HeadRun) → Decidable (RunAll P calls r)
  | [], _ => inferInstanceAs (Decidable True)
  | call :: calls, r =>
    have : Decidable (match call.step r with
        | some r => RunAll P calls r
        | none => True) :=
      match call.step r with
      | some r => RunAll.decidable P calls r
      | none => inferInstanceAs (Decidable True)
    inferInstanceAs (Decidable (P r call ∧ _))

/-- What every call keeps under its condition, a run keeps. -/
theorem runCalls_induction {P : HeadRun → Prop} {Q : HeadRun → HeadCall → Prop}
    (hkeep : ∀ {r r' call}, P r → Q r call → call.step r = some r' → P r') {calls : List HeadCall}
    {r r' : HeadRun} (hr : P r) (hok : RunAll Q calls r) (hrun : runCalls calls r = some r') : P r' := by
  induction calls generalizing r with
  | nil =>
    cases hrun
    exact hr
  | cons call calls ih =>
    obtain ⟨hcall, hrest⟩ := hok
    rw [runCalls] at hrun
    obtain ⟨r₁, hstep, hrun⟩ := Option.bind_eq_some_iff.mp hrun
    rw [hstep] at hrest
    exact ih (hkeep hr hcall hstep) hrest hrun

/-- Both records of a commit find room. -/
def CommitHasRoom (h : SegmentHead) (calls : CommitCalls LogCalls SyncCalls) : Prop :=
  (h.pendingSeries ≠ [] → h.wal.1.HasRoom (encodeSeries h.pendingSeries)) ∧
    match h.logSeries segmentWal calls.series with
    | some (true, h) => h.pendingSamples ≠ [] → h.wal.1.HasRoom (encodeSamplesV2 h.pendingSamples)
    | _ => True

instance (h : SegmentHead) (calls : CommitCalls LogCalls SyncCalls) :
    Decidable (CommitHasRoom h calls) :=
  have : Decidable (match h.logSeries segmentWal calls.series with
      | some (true, h) => h.pendingSamples ≠ [] → h.wal.1.HasRoom (encodeSamplesV2 h.pendingSamples)
      | _ => True) := by
    split <;> infer_instance
  inferInstanceAs (Decidable ((_ → _) ∧ _))

/-- So does the segment that a close opens. -/
def CloseHasRoom (h : SegmentHead) (calls : CommitCalls LogCalls SyncCalls) : Prop :=
  CommitHasRoom h calls ∧
    match h.commit segmentWal calls with
    | some (true, h) => h.wal.1.segIndex + 1 < 10 ^ kSegmentNameWidth
    | _ => True

/-- A commit that succeeds, with room for its records. -/
def HeadCall.Succeeds (r : HeadRun) : HeadCall → Prop
  | .append _ _ => True
  | .commit calls => CommitHasRoom r.head calls ∧
      (r.head.commit segmentWal calls).map Prod.fst = some true

instance (r : HeadRun) : (call : HeadCall) → Decidable (call.Succeeds r)
  | .append _ _ => inferInstanceAs (Decidable True)
  | .commit _ => inferInstanceAs (Decidable (_ ∧ _))

/-! ## Contents -/

/-- What a store holds with further samples behind its own. -/
def extended (start : SeriesStore) (samples : List (Labels × Sample)) (labels : Labels) :
    List Sample :=
  start.samplesOf labels ++ samplesUnder labels samples

theorem extended_nil {start : SeriesStore} {content : Labels → List Sample}
    (h : Contains start content) : Contains start (extended start []) := by
  have heq : extended start [] = content := by
    funext labels
    rw [extended, h.samplesOf, samplesUnder, List.filterMap_nil, List.append_nil]
  rwa [heq]

theorem extended_concat (start : SeriesStore) (samples : List (Labels × Sample)) (labels : Labels)
    (x : Sample) :
    Function.update (extended start samples) labels (extended start samples labels ++ [x]) =
      extended start (samples ++ [(labels, x)]) := by
  funext labels'
  unfold extended samplesUnder
  rw [List.filterMap_append]
  by_cases heq : labels' = labels
  · subst heq
    rw [Function.update_self, List.append_assoc]
    simp
  · rw [Function.update_of_ne heq]
    simp [Ne.symm heq]

/-! ## The head and its directory -/

/-- A reader of the directory, once `pend` is flushed, finds records that replay to `logged`. -/
structure Stored (h : SegmentHead) (recs : List Bytes) (pend : List PageOp) (logged : SeriesStore)
    (content : Labels → List Sample) : Prop where
  buffered : Buffered h.wal.1 h.wal.2 recs pend
  exists_named : ∃ named, Linked recs h logged named content
  opened : h.closed = false

namespace Stored

variable {h h' : SegmentHead} {recs : List Bytes} {pend : List PageOp} {logged : SeriesStore}
  {content : Labels → List Sample}

/-- With nothing to flush, a replay of the directory gives the logged store. -/
theorem replayWal (hs : Stored h recs [] logged content) : replayWal h.wal.2 = some logged := by
  obtain ⟨named, hl⟩ := hs.exists_named
  unfold Head.replayWal
  rw [hs.buffered.readAll]
  dsimp only
  rw [hl.replayed]
  rfl

theorem append (hs : Stored h recs pend logged content) {labels : Labels} {x : Sample}
    {r : Except HeadError SeriesRef} (happend : h.append labels x = some (r, h')) :
    Stored h' recs pend logged
      (if r.isOk then Function.update content labels (content labels ++ [x]) else content) := by
  obtain ⟨named, hl⟩ := hs.exists_named
  obtain ⟨hwal, hstatus, -⟩ := Head.append_keeps happend
  constructor
  · rw [hwal]
    exact hs.buffered
  · exact hl.append happend
  · rw [hstatus]
    exact hs.opened

/-- The series record of a commit. -/
theorem logSeries_true (hs : Stored h recs pend logged content) {calls : LogCalls}
    (hroom : h.pendingSeries ≠ [] → h.wal.1.HasRoom (encodeSeries h.pendingSeries))
    (hlog : h.logSeries segmentWal calls = some (true, h')) :
    h'.pendingSeries = [] ∧ ∃ recs' pend' logged', Stored h' recs' pend' logged' content := by
  obtain ⟨named, hl⟩ := hs.exists_named
  rcases Head.logSeries_cases hlog with ⟨hnone, -, rfl⟩ | ⟨hsome, hlen, wal, hwal, rfl⟩
  · exact ⟨hnone, recs, pend, logged, hs⟩
  · have hbuffered := hs.buffered.log_true (hroom hsome) hwal
    exact ⟨rfl, _, _, _, hbuffered, ⟨_, hl.logSeries hlen wal⟩, hs.opened⟩

/-- The sample record, behind it. -/
theorem logSamples_true (hs : Stored h recs pend logged content) {calls : LogCalls}
    (hnone : h.pendingSeries = [])
    (hroom : h.pendingSamples ≠ [] → h.wal.1.HasRoom (encodeSamplesV2 h.pendingSamples))
    (hlog : h.logSamples segmentWal calls = some (true, h')) :
    h'.pendingSeries = [] ∧ h'.pendingSamples = [] ∧
      ∃ recs' pend', Stored h' recs' pend' h'.series content := by
  obtain ⟨named, hl⟩ := hs.exists_named
  rcases Head.logSamples_cases hlog with ⟨hnone', -, rfl⟩ | ⟨hsome, hlen, wal, hwal, rfl⟩
  · have hlive := (hl.eq_named hnone).trans (hl.eq_live hnone')
    rw [hlive] at hs
    exact ⟨hnone, hnone', recs, pend, hs⟩
  · have hbuffered := hs.buffered.log_true (hroom hsome) hwal
    exact ⟨hnone, rfl, _, _, hbuffered, ⟨_, hl.logSamples hnone hlen wal⟩, hs.opened⟩

/-- A commit that succeeds leaves nothing pending anywhere. -/
theorem commit_true (hs : Stored h recs pend logged content)
    {calls : CommitCalls LogCalls SyncCalls} (hroom : CommitHasRoom h calls)
    (hcommit : h.commit segmentWal calls = some (true, h')) :
    h'.pendingSeries = [] ∧ h'.pendingSamples = [] ∧
      ∃ recs', Stored h' recs' [] h'.series content := by
  rcases Head.commit_cases hs.opened hcommit with ⟨-, hok⟩ | ⟨h₁, hlog, hrest⟩
  · cases hok
  rcases hrest with ⟨-, hok⟩ | ⟨h₂, hlog₂, wal, hsync, rfl⟩
  · cases hok
  obtain ⟨hseries, hsamples⟩ := hroom
  rw [hlog] at hsamples
  obtain ⟨hnone₁, recs₁, pend₁, logged₁, hs₁⟩ := hs.logSeries_true hseries hlog
  obtain ⟨hnone₂, hnone₂', recs₂, pend₂, hs₂⟩ := hs₁.logSamples_true hnone₁ hsamples hlog₂
  obtain ⟨named, hl⟩ := hs₂.exists_named
  have hbuffered := hs₂.buffered.sync_true hsync
  exact ⟨hnone₂, hnone₂', recs₂, hbuffered, ⟨named, hl.congr wal h₂.closed⟩, hs₂.opened⟩

end Stored

/-- An open replays the directory and starts a new segment in it. -/
theorem openDir_iff {files : Files} {h : SegmentHead} :
    Head.openDir files true = some h ↔ ∃ store, replayWal files = some store ∧
      h = { wal := (SegmentWriter.openDir files kDefaultSegmentSize true).2, series := store } := by
  unfold Head.openDir
  cases replayWal files with
  | none =>
    apply iff_of_false
    · exact Option.some_ne_none h ∘ Eq.symm
    · rintro ⟨store, hstore, -⟩
      cases hstore
  | some store =>
    constructor
    · intro hopen
      cases hopen
      exact ⟨store, rfl, rfl⟩
    · rintro ⟨store', hstore, rfl⟩
      cases hstore
      rfl

/-- A head opened on a directory whose segments all end cleanly. -/
theorem stored_openDir {files : Files} {h : SegmentHead} (hopen : Head.openDir files true = some h)
    (hclean : CleanSegments (segments files))
    (hidx : SegmentWriter.nextIndex files < 10 ^ kSegmentNameWidth) :
    Contains h.series (extended h.series []) ∧
      Stored h (recordsOf (segments files)) [] h.series (extended h.series []) := by
  have hread : SegmentReader.readAll (segments files) =
      (recordsOf (segments files), .endOfStream) := by
    rw [SegmentReader.readAll_eq, joinSegments_of_clean hclean]
  obtain ⟨store, hwal, rfl⟩ := openDir_iff.mp hopen
  have hreplay : replayRecords (recordsOf (segments files)) {} = some store := by
    unfold replayWal at hwal
    rw [hread] at hwal
    obtain ⟨st, hreplay, heq⟩ := Option.bind_eq_some_iff.mp hwal
    cases heq
    exact hreplay
  obtain ⟨content, hcontains⟩ := contains_replayRecords Contains.empty hreplay
  have hextended := extended_nil hcontains
  exact ⟨hextended, buffered_openDir hclean hidx _, ⟨_, Linked.opened hreplay hextended _⟩, rfl⟩

/-! ## Recovery -/

/-- At any point, the directory gives back what was opened and what was committed since. -/
structure Recoverable (start : SeriesStore) (r : HeadRun) : Prop where
  exists_stored : ∃ recs logged, Stored r.head recs [] logged (extended start r.accepted) ∧
    Contains logged (extended start r.committed)

theorem Recoverable.step {start : SeriesStore} {r r' : HeadRun} (hr : Recoverable start r)
    {call : HeadCall} (hok : call.Succeeds r) (hstep : call.step r = some r') :
    Recoverable start r' := by
  obtain ⟨recs, logged, hs, hcommitted⟩ := hr.exists_stored
  cases call with
  | append labels x =>
    obtain ⟨⟨res, h'⟩, hcall, rfl⟩ := Option.map_eq_some_iff.mp hstep
    refine ⟨recs, logged, ?_, hcommitted⟩
    have hs' := hs.append hcall
    dsimp only
    rw [extended_concat] at hs'
    split at hs'
    · rename_i haccept
      rwa [if_pos haccept]
    · rename_i hreject
      rwa [if_neg hreject]
  | commit calls =>
    obtain ⟨hroom, htrue⟩ := hok
    obtain ⟨⟨ok, h'⟩, hcall, rfl⟩ := Option.map_eq_some_iff.mp hstep
    rw [hcall] at htrue
    cases htrue
    obtain ⟨-, -, recs', hs'⟩ := hs.commit_true hroom hcall
    obtain ⟨named, hl⟩ := hs'.exists_named
    exact ⟨recs', _, hs', hl.contains⟩

theorem Recoverable.run {start : SeriesStore} {r r' : HeadRun} (hr : Recoverable start r)
    {calls : List HeadCall} (hok : RunAll (fun r call ↦ call.Succeeds r) calls r)
    (hrun : runCalls calls r = some r') : Recoverable start r' :=
  runCalls_induction (fun h ↦ h.step) hr hok hrun

/-- A directory that replays can be opened. -/
theorem openDir_of_replayWal {files : Files} {store : SeriesStore}
    (hreplay : replayWal files = some store) :
    ∃ h : SegmentHead, Head.openDir files true = some h ∧ h.series = store :=
  ⟨_, openDir_iff.mpr ⟨store, hreplay, rfl⟩, rfl⟩

theorem readAll_of_openDir {files : Files} {h : SegmentHead}
    (hopen : Head.openDir files true = some h) :
    (SegmentReader.readAll (segments files)).2 = .endOfStream := by
  obtain ⟨store, hwal, -⟩ := openDir_iff.mp hopen
  unfold replayWal at hwal
  dsimp only at hwal
  obtain ⟨st, -, hend⟩ := Option.bind_eq_some_iff.mp hwal
  by_contra hne
  rw [if_neg hne] at hend
  cases hend

/-- The tail of the last segment is torn. -/
def TornTail (files : Files) : Prop :=
  ∃ init seg, segments files = init ++ [seg] ∧ (PageReader.readAll seg).2 = .tornRecord

theorem not_tornTail_empty : ¬ TornTail Files.empty := by
  rintro ⟨init, seg, hsegs, -⟩
  have hlength := congrArg List.length hsegs
  rw [List.length_append] at hlength
  apply absurd hlength
  simp [segments, indexed, Files.empty]

/-- A reader gets to the end only past every segment. -/
theorem joinPage_end {page : List Bytes × WalReadError} {isLast : Bool}
    {later : List Bytes × SegmentReadError} (h : (joinPage page isLast later).2 = .endOfStream) :
    tolerated page.2 isLast = true ∧ later.2 = .endOfStream := by
  unfold joinPage at h
  by_cases htol : tolerated page.2 isLast = true
  · rw [if_pos htol] at h
    exact ⟨htol, h⟩
  · rw [if_neg htol] at h
    -- No error of a page is reported as the end of the stream.
    have hbad : segmentError page.2 ≠ .endOfStream := by
      unfold tolerated at htol
      cases hpage : page.2 <;> rw [hpage] at htol <;> simp at htol <;> decide
    exact absurd h hbad

/-- Segments that are read to the end are clean, but for a torn tail. -/
theorem clean_of_joinSegments {segs : List Bytes} (hend : (joinSegments segs).2 = .endOfStream)
    (htail : ¬ ∃ init seg, segs = init ++ [seg] ∧ (PageReader.readAll seg).2 = .tornRecord) :
    CleanSegments segs := by
  induction segs with
  | nil => exact fun _ hseg ↦ absurd hseg List.not_mem_nil
  | cons seg segs ih =>
    obtain ⟨htol, hlater⟩ := joinPage_end hend
    have hrest : CleanSegments segs := by
      apply ih hlater
      rintro ⟨init, last, rfl, htorn⟩
      exact htail ⟨seg :: init, last, rfl, htorn⟩
    have hseg : (PageReader.readAll seg).2 = .endOfStream := by
      simp only [tolerated, Bool.or_eq_true, decide_eq_true_eq, Bool.and_eq_true,
        List.isEmpty_iff] at htol
      rcases htol with hclean | ⟨htorn, rfl⟩
      · exact hclean
      · exact absurd ⟨[], seg, rfl, htorn⟩ htail
    intro seg' hmem
    rcases List.mem_cons.mp hmem with rfl | hmem
    · exact hseg
    · exact hrest seg' hmem

theorem joinSegments_end_append {init more : List Bytes}
    (hend : (joinSegments (init ++ more)).2 = .endOfStream) :
    (joinSegments more).2 = .endOfStream := by
  induction init with
  | nil => exact hend
  | cons seg init ih => exact ih (joinPage_end hend).2

/-- A torn tail that an open drops makes the next one fail. -/
theorem openDir_torn {files : Files} {start : SegmentHead}
    (hopen : Head.openDir files true = some start) (htail : TornTail files)
    (hidx : SegmentWriter.nextIndex files < 10 ^ kSegmentNameWidth) :
    Head.openDir start.wal.2 true = none := by
  obtain ⟨init, seg, hsegs, htorn⟩ := htail
  have hfiles : start.wal.2 =
      files.set (formatSegmentName (SegmentWriter.nextIndex files)) [] := by
    obtain ⟨store, -, rfl⟩ := openDir_iff.mp hopen
    rfl
  cases hagain : Head.openDir start.wal.2 true with
  | none => rfl
  | some h =>
    -- The torn segment is not the last any more.
    have hend := readAll_of_openDir hagain
    rw [SegmentReader.readAll_eq, hfiles, segments_set_new le_rfl hidx, hsegs,
      List.append_assoc] at hend
    have htol := (joinPage_end (joinSegments_end_append hend)).1
    rw [htorn] at htol
    cases htol

/-- What the first open accepted, and did not have to cut, is clean. -/
theorem clean_of_openDir {files : Files} {h : SegmentHead}
    (hopen : Head.openDir files true = some h) (htail : ¬ TornTail files) :
    CleanSegments (segments files) := by
  apply clean_of_joinSegments _ htail
  rw [← SegmentReader.readAll_eq]
  exact readAll_of_openDir hopen

/-- Opening a directory whose last segment does not end in a torn record is stable: a second open
recovers all that the first did and all that was committed since. -/
theorem openDir_again {files : Files} {start : SegmentHead}
    (hopen : Head.openDir files true = some start) (htail : ¬ TornTail files)
    (hidx : SegmentWriter.nextIndex files < 10 ^ kSegmentNameWidth) (calls : List HeadCall)
    {r : HeadRun} (hrun : runCalls calls { head := start } = some r)
    (hok : RunAll (fun r call ↦ call.Succeeds r) calls { head := start }) :
    (∃ h : SegmentHead, Head.openDir r.head.wal.2 true = some h ∧
      ∀ labels, h.series.samplesOf labels =
        start.series.samplesOf labels ++ samplesUnder labels r.committed) ∧
    ∀ (last : CommitCalls LogCalls SyncCalls) (cut : CutCalls) (closed : SegmentHead),
      CloseHasRoom r.head last → r.head.close segmentWal last cut = some (true, closed) →
      ∃ h : SegmentHead, Head.openDir closed.wal.2 true = some h ∧
        ∀ labels, h.series.samplesOf labels =
          start.series.samplesOf labels ++ samplesUnder labels r.accepted := by
  -- The head that was opened stands over the records it was opened from.
  obtain ⟨hcontains, hstored⟩ := stored_openDir hopen (clean_of_openDir hopen htail) hidx
  have hstart : Recoverable start.series { head := start } := ⟨_, _, hstored, hcontains⟩
  obtain ⟨recs, logged, hs, hcommitted⟩ := (hstart.run hok hrun).exists_stored
  constructor
  · obtain ⟨h, hagain, rfl⟩ := openDir_of_replayWal hs.replayWal
    exact ⟨h, hagain, hcommitted.samplesOf⟩
  · intro last cut closed hroom hclose
    rcases Head.close_cases hs.opened hclose with ⟨h₁, -, hfalse, -⟩ | ⟨h₁, hcommit, wal, hcut, rfl⟩
    · cases hfalse
    · -- The commit that `close` makes, and then the cut of the last segment.
      obtain ⟨hcommitRoom, hcutRoom⟩ := hroom
      rw [hcommit] at hcutRoom
      obtain ⟨-, -, recs', hs'⟩ := hs.commit_true hcommitRoom hcommit
      obtain ⟨named, hl⟩ := hs'.exists_named
      have hbuffered := (hs'.buffered.cut_true hcutRoom hcut).2
      have hreplay : replayWal wal.2 = some h₁.series := by
        unfold replayWal
        rw [hbuffered.readAll]
        dsimp only
        rw [hl.replayed]
        rfl
      obtain ⟨h, hagain, hsame⟩ := openDir_of_replayWal hreplay
      refine ⟨h, hagain, ?_⟩
      rw [hsame]
      exact hl.contains.samplesOf

/-- One committed sample, and one lost in a crash. -/
theorem openDir_again_fresh :
    let calls : List HeadCall :=
      [.append Labels.empty ⟨1, 7⟩, .commit ⟨{}, {}, {}⟩,
        .append Labels.empty ⟨2, 8⟩]
    ∃ start r h : _, Head.openDir Files.empty true = some start ∧
      runCalls calls { head := start } = some r ∧ Head.openDir r.head.wal.2 true = some h ∧
        h.series.samplesOf Labels.empty = [⟨1, 7⟩] := by
  intro calls
  have hstart : (Head.openDir Files.empty true).isSome = true := by decide
  have hrunSome : ((Head.openDir Files.empty true).bind fun start ↦
      runCalls calls { head := start }).isSome = true := by decide
  have hokAll : (Head.openDir Files.empty true).all fun start ↦
      RunAll (fun r call ↦ call.Succeeds r) calls { head := start } := by decide
  have hfound : (Head.openDir Files.empty true).all fun start ↦
      (runCalls calls { head := start }).all fun r ↦
        start.series.samplesOf Labels.empty ++
          samplesUnder Labels.empty r.committed = [⟨1, 7⟩] := by decide
  obtain ⟨start, hopen⟩ := Option.isSome_iff_exists.mp hstart
  rw [hopen] at hrunSome hokAll hfound
  obtain ⟨r, hrun⟩ := Option.isSome_iff_exists.mp hrunSome
  rw [Option.bind_some] at hrun
  obtain ⟨⟨h, hagain, hsamples⟩, -⟩ :=
    openDir_again hopen not_tornTail_empty (by decide) calls hrun (by simpa using hokAll)
  refine ⟨start, r, h, hopen, hrun, hagain, ?_⟩
  rw [hsamples]
  rw [Option.all_some, hrun, Option.all_some] at hfound
  exact of_decide_eq_true hfound

/-- A record of several pages, torn at the end of its first page: the first open drops it, and the
second refuses the WAL. -/
theorem openDir_torn_body {body : Bytes} (hlong : kPageSize - kRecordHeaderSize < body.length) :
    ∃ start : SegmentHead,
      Head.openDir (Files.empty.set (formatSegmentName 0) ((openSegment [body]).take kPageSize))
        true = some start ∧ Head.openDir start.wal.2 true = none := by
  have hpage := readAll_torn_page hlong
  generalize (openSegment [body]).take kPageSize = seg at hpage ⊢
  have hsegs : segments (Files.empty.set (formatSegmentName 0) seg) = [] ++ [seg] :=
    @segments_set_new Files.empty 0 le_rfl (by decide) seg
  have hreplay : replayWal (Files.empty.set (formatSegmentName 0) seg) = some {} := by
    unfold replayWal
    rw [SegmentReader.readAll_eq, hsegs, List.nil_append, joinSegments_singleton, hpage]
    rfl
  obtain ⟨start, hopen, -⟩ := openDir_of_replayWal hreplay
  have hnext := @nextIndex_set_new Files.empty 0 le_rfl (by decide) seg
  have htail : TornTail (Files.empty.set (formatSegmentName 0) seg) := ⟨_, _, hsegs, by rw [hpage]⟩
  exact ⟨start, hopen, openDir_torn hopen htail (by rw [hnext]; decide)⟩

/-- Forty thousand samples, torn so. -/
theorem openDir_torn_samples :
    ∃ start : SegmentHead,
      Head.openDir (Files.empty.set (formatSegmentName 0)
        ((openSegment [encodeSamplesV2 (List.replicate 40000 { ref := 1 })]).take kPageSize))
        true = some start ∧ Head.openDir start.wal.2 true = none := by
  apply openDir_torn_body
  have hrest := length_le_encodeSamplesRest { ref := 1 } { ref := 1 }
    (List.replicate 39999 { ref := 1 })
  rw [List.length_replicate] at hrest
  rw [List.replicate_succ, encodeSamplesV2, List.length_cons, List.length_append]
  unfold kPageSize kRecordHeaderSize
  omega

end MerlionTsdb.Head
