import MerlionTsdb.Block.CreateSelect
import MerlionTsdb.Block.Layout
import MerlionTsdb.Wal.Crash

/-!
# Creations cut short

`create_from_series` syncs the segments and the index before `meta.json` gets its name, and `open` asks for
`meta.json` first.  Whatever stops a creation, and whenever the power goes, no part of a block is taken for
the whole of it.
-/

namespace MerlionTsdb.Block

open Chunkenc Encoding Model Wal

/-! ## Segments on disk -/

namespace ChunkWriter

/-- What an `::fsync` of the open segment puts on disk, if it succeeds. -/
def fsynced (w : ChunkWriter) (files : Files) (ok : Bool) (kept : Wal.Kept) : Wal.Kept :=
  match w.fd with
  | none => kept
  | some name => if ok then Function.update kept name (files.content name).length else kept

/-- `cut_new_segment` syncs the old segment, and truncates the file of the new one when it gets so far. -/
def keptByCut (w : ChunkWriter) (files : Files) (calls : ChunkCutCalls) (kept : Wal.Kept) : Wal.Kept :=
  let synced := w.fsynced files calls.fsync kept
  -- It returns before the new file is truncated when the old one was not synced or closed.
  if (w.fd.isSome && !(calls.fsync && calls.close)) || !calls.opened then synced
  else
    match (w.cutNewSegment files calls).2.1.fd with
    | none => synced
    | some name => Function.update synced name 0

/-- Only the cut of a roll-over syncs. -/
def keptByWrite (w : ChunkWriter) (files : Files) (c : ChunkPayload) (calls : ChunkCalls)
    (kept : Wal.Kept) : Wal.Kept :=
  if !w.closed && w.rollsOver c.data.length then w.keptByCut files calls.cut kept else kept

def keptByClose (w : ChunkWriter) (files : Files) (ok : Bool) (kept : Wal.Kept) : Wal.Kept :=
  if w.closed then kept else w.fsynced files ok kept

/-- Every segment but the open one is on disk as a whole. -/
def Settled (w : ChunkWriter) (files : Files) (kept : Wal.Kept) : Prop :=
  ∀ e ∈ files.entries, w.fd ≠ some e.1 → e.2.length ≤ kept e.1

variable {w w' : ChunkWriter} {files files' : Files} {kept : Wal.Kept}

/-- The open one, too, behind a sync. -/
theorem Settled.fsynced (h : w.Settled files kept) :
    ∀ e ∈ files.entries, e.2.length ≤ w.fsynced files true kept e.1 := by
  intro e he
  unfold ChunkWriter.fsynced
  cases hfd : w.fd with
  | none => exact h e he (by simp [hfd])
  | some name =>
    dsimp only
    rw [if_pos rfl]
    by_cases hname : e.1 = name
    · subst hname
      rw [Function.update_self, Files.content_of_mem he]
    · rw [Function.update_of_ne hname]
      apply h e he
      rw [hfd]
      exact fun hsame ↦ hname (Option.some.inj hsame).symm

/-- Whatever is written to the open segment. -/
theorem Settled.set (h : w.Settled files kept) {name : FileName} (hfd : w.fd = some name)
    (bytes : Bytes) : w.Settled (files.set name bytes) kept := by
  intro e he hne
  rcases Files.mem_set he with rfl | he
  · exact absurd hfd hne
  · exact h e he hne

theorem writeFd_true {calls : List WriteResult} {data : Bytes} {name : FileName}
    (hfd : w.fd = some name) (h : w.writeFd files calls data = (true, files')) :
    ∃ bytes, files' = files.set name bytes := by
  unfold writeFd at h
  rw [hfd] at h
  exact ⟨_, (congrArg Prod.snd h).symm⟩

/-- A cut that succeeds has synced and closed the old segment, and begun a new one. -/
theorem cutNewSegment_true {calls : ChunkCutCalls}
    (h : w.cutNewSegment files calls = (true, w', files')) :
    (w.fd.isSome → calls.fsync = true ∧ calls.close = true) ∧ calls.opened = true ∧
      w'.closed = w.closed ∧
        ∃ name bytes, w'.fd = some name ∧ files' = (files.set name []).set name bytes := by
  unfold cutNewSegment at h
  split at h
  · cases h
  · rename_i hfsync
    split at h
    · cases h
    · rename_i hclose
      dsimp only at h
      split at h
      · cases h
      · rename_i hopened
        have hsynced : w.fd.isSome → calls.fsync = true ∧ calls.close = true := by
          intro hsome
          simpa [hsome] using And.intro hfsync hclose
        split at h
        · cases h
        · rename_i files₁ hwrite
          obtain ⟨bytes, rfl⟩ := writeFd_true rfl hwrite
          cases h
          refine ⟨hsynced, by simpa using hopened, ?_, _, bytes, rfl, rfl⟩
          dsimp only
          split <;> rfl

theorem Settled.cut (h : w.Settled files kept) {calls : ChunkCutCalls}
    (hcut : w.cutNewSegment files calls = (true, w', files')) :
    w'.Settled files' (w.keptByCut files calls kept) := by
  obtain ⟨hsynced, hopened, -, name, bytes, hfd, rfl⟩ := cutNewSegment_true hcut
  -- Before the new file, everything is on disk.
  have hall : ∀ e ∈ files.entries, e.2.length ≤ w.fsynced files calls.fsync kept e.1 := by
    cases hold : w.fd with
    | none =>
      intro e he
      unfold ChunkWriter.fsynced
      rw [hold]
      exact h e he (by simp [hold])
    | some old =>
      rw [(hsynced (by rw [hold]; rfl)).1]
      exact h.fsynced
  have hreached : ¬ ((w.fd.isSome && !(calls.fsync && calls.close)) || !calls.opened) = true := by
    cases hsome : w.fd.isSome with
    | false => simp [hopened]
    | true =>
      obtain ⟨hfsync, hclose⟩ := hsynced hsome
      simp [hfsync, hclose, hopened]
  unfold keptByCut
  rw [hcut]
  dsimp only
  rw [if_neg hreached, hfd]
  dsimp only
  intro e he hne
  have hname : e.1 ≠ name := fun hsame ↦ hne (by rw [hfd, hsame])
  rw [Function.update_of_ne hname]
  rcases Files.mem_set he with rfl | he
  · exact absurd rfl hname
  · rcases Files.mem_set he with rfl | he
    · exact absurd rfl hname
    · exact hall e he

theorem Settled.write (h : w.Settled files kept) {c : ChunkPayload} {calls : ChunkCalls}
    {ref : BlockChunkRef} (hwrite : w.write files c calls = (.ok ref, w', files')) :
    w'.Settled files' (w.keptByWrite files c calls kept) ∧ w'.closed = false := by
  unfold ChunkWriter.write at hwrite
  unfold keptByWrite
  split at hwrite
  · cases hwrite
  · rename_i hopen
    have hopen' : w.closed = false := by simpa using hopen
    split at hwrite
    · cases hwrite
    · rename_i w₁ files₁ hstart
      -- The segment that the chunk goes to.
      have hstarted : w₁.Settled files₁
          (if !w.closed && w.rollsOver c.data.length then w.keptByCut files calls.cut kept else kept) ∧
          w₁.closed = false := by
        cases hroll : w.rollsOver c.data.length with
        | true =>
          rw [hroll, if_pos rfl] at hstart
          rw [hopen', if_pos (by rfl)]
          exact ⟨h.cut hstart, (cutNewSegment_true hstart).2.2.1.trans hopen'⟩
        | false =>
          rw [hroll, if_neg (by simp)] at hstart
          cases hstart
          rw [Bool.and_false, if_neg (by simp)]
          exact ⟨h, hopen'⟩
      obtain ⟨hsettled, hclosed⟩ := hstarted
      dsimp only at hwrite
      split at hwrite
      · cases hwrite
      · rename_i files₂ hframe
        cases hwrite
        refine ⟨?_, hclosed⟩
        cases hfd : w₁.fd with
        | none =>
          -- Without a segment, the frame is not written.
          unfold writeFd at hframe
          rw [hfd] at hframe
          cases hframe
        | some name =>
          obtain ⟨bytes, rfl⟩ := writeFd_true hfd hframe
          intro e he hne
          exact hsettled.set hfd bytes e he (by rw [hfd]; exact hne)

/-- A close that succeeds leaves nothing behind. -/
theorem Settled.close (h : w.Settled files kept) (hopen : w.closed = false) {fsync closed : Bool}
    (hclose : (w.close fsync closed).1 = true) :
    ∀ e ∈ files.entries, e.2.length ≤ w.keptByClose files fsync kept e.1 := by
  unfold keptByClose
  rw [hopen, if_neg Bool.false_ne_true]
  cases hfd : w.fd with
  | none =>
    intro e he
    unfold ChunkWriter.fsynced
    rw [hfd]
    exact h e he (by simp [hfd])
  | some name =>
    unfold ChunkWriter.close at hclose
    simp only [hopen, hfd, Bool.false_eq_true, if_false, Option.isNone_some] at hclose
    cases fsync with
    | false => cases hclose
    | true => exact h.fsynced

end ChunkWriter

/-! ## The chunks of a new block -/

namespace ChunkStage

/-- What is on disk behind the chunks of a series. -/
def keptByAll (st : ChunkStage) (kept : Wal.Kept) : List ChunkInput → Wal.Kept
  | [] => kept
  | chk :: chunks =>
    let kept := st.writer.keptByWrite st.files ⟨.xor, chk.bytes.bytes⟩ (st.calls.headD {}) kept
    match st.write chk with
    -- What was synced by then stays.
    | .error _ => kept
    | .ok (_, st) => keptByAll st kept chunks

/-- What is on disk behind all series. -/
def keptByPrepare (st : ChunkStage) (kept : Wal.Kept) : List SeriesInput → Wal.Kept
  | [] => kept
  | s :: series =>
    if s.chunks.isEmpty then keptByPrepare st kept series
    else
      let kept := st.keptByAll kept s.chunks
      match st.writeAll s.chunks with
      | .error _ => kept
      | .ok (_, st) => keptByPrepare st kept series

variable {st st' : ChunkStage} {kept : Wal.Kept}

/-- Between the chunks, the writer is open and its earlier segments are on disk. -/
structure Settled (st : ChunkStage) (kept : Wal.Kept) : Prop where
  segments : st.writer.Settled st.files kept
  opened : st.writer.closed = false

theorem Settled.write (h : st.Settled kept) {chk : ChunkInput} {cm : ChunkMeta}
    (hok : st.write chk = .ok (cm, st')) :
    st'.Settled (st.writer.keptByWrite st.files ⟨.xor, chk.bytes.bytes⟩ (st.calls.headD {}) kept) := by
  unfold ChunkStage.write at hok
  split at hok
  · cases hok
  · rename_i ref writer files hwrite
    cases hok
    obtain ⟨hsegments, hopened⟩ := h.segments.write hwrite
    exact ⟨hsegments, hopened⟩

theorem Settled.writeAll (h : st.Settled kept) {chunks : List ChunkInput} {metas : List ChunkMeta}
    (hok : st.writeAll chunks = .ok (metas, st')) : st'.Settled (st.keptByAll kept chunks) := by
  induction chunks generalizing st kept metas with
  | nil =>
    cases hok
    exact h
  | cons chk chunks ih =>
    obtain ⟨cm, st₁, metas', hwrite, hrest, -⟩ := writeAll_cons_iff.mp hok
    rw [keptByAll, hwrite]
    exact ih (h.write hwrite) hrest

theorem Settled.prepare (h : st.Settled kept) {series : List SeriesInput}
    {prepared : List PreparedSeries} (hok : st.prepare series = .ok (prepared, st')) :
    st'.Settled (st.keptByPrepare kept series) := by
  induction series generalizing st kept prepared with
  | nil =>
    cases hok
    exact h
  | cons s series ih =>
    rw [keptByPrepare]
    by_cases hempty : s.chunks = []
    · rw [prepare_cons_empty hempty] at hok
      rw [if_pos (List.isEmpty_iff.mpr hempty)]
      exact ih h hok
    · obtain ⟨metas, st₁, prepared', hchunks, hrest, -⟩ := (prepare_cons_iff hempty).mp hok
      rw [if_neg (mt List.isEmpty_iff.mp hempty), hchunks]
      exact ih (h.writeAll hchunks) hrest

end ChunkStage

/-- What is on disk behind `writeSegments`. -/
def keptBySegments (calls : CreateCalls) (series : List SeriesInput) : Wal.Kept :=
  let kept := ChunkWriter.keptByCut { segmentSize := kDefaultChunksSegmentSize } Files.empty calls.cut
    fun _ ↦ 0
  match ChunkWriter.openDir Files.empty kDefaultChunksSegmentSize calls.cut with
  | (.error _, _) => kept
  | (.ok writer, files) =>
    let st : ChunkStage := { writer := writer, files := files, calls := calls.write }
    let kept := st.keptByPrepare kept series
    match st.prepare series with
    | .error _ => kept
    | .ok (_, st) => st.writer.keptByClose st.files calls.fsyncChunks kept

/-- The first step does not succeed before every segment is on disk. -/
theorem writeSegments_kept {calls : CreateCalls} {series : List SeriesInput}
    {prepared : List PreparedSeries} {st : ChunkStage}
    (hok : writeSegments calls series = .ok (prepared, st)) :
    ∀ e ∈ st.files.entries, e.2.length ≤ keptBySegments calls series e.1 := by
  obtain ⟨writer, files, hopen, hprepare, hclose⟩ := writeSegments_iff.mp hok
  have hcut : ChunkWriter.cutNewSegment { segmentSize := kDefaultChunksSegmentSize } Files.empty
      calls.cut = (true, writer, files) := by
    unfold ChunkWriter.openDir at hopen
    split at hopen
    · cases hopen
    · split at hopen
      · cases hopen
      · rename_i w files' hcut
        cases hopen
        exact hcut
  have hfirst : ChunkWriter.Settled { segmentSize := kDefaultChunksSegmentSize } Files.empty
      fun _ ↦ 0 := fun e he ↦ absurd he List.not_mem_nil
  have hstart : ChunkStage.Settled { writer := writer, files := files, calls := calls.write } _ :=
    ⟨hfirst.cut hcut, (ChunkWriter.cutNewSegment_true hcut).2.2.1⟩
  have hlast := hstart.prepare hprepare
  unfold keptBySegments
  rw [hopen]
  dsimp only
  rw [hprepare]
  exact hlast.segments.close hlast.opened hclose

/-! ## The block -/

/-- A block directory, and what of its segments and its index is on disk.  `meta.json` is never synced. -/
structure BlockDisk where
  dir : BlockDir
  keptChunks : Wal.Kept
  keptIndex : Nat

/-- `create_from_series` as far as `meta.json` has its name. -/
def published (text : JsonText) (calls : CreateCalls) (series : List SeriesInput) :
    Except Failure BlockDisk :=
  if !calls.parent then .error (.error .system)
  else if calls.found then .error (.error .fileExists)
  else if !calls.status then .error (.error .system)
  else if !calls.dir then .error (.error .system)
  else do
    let (prepared, st) ← lift (writeSegments calls series)
    let index ← writeIndex calls.index prepared
    if !calls.metaJson then .error (.error .system)
    else .ok {
      dir := {
        metaJson := some (encodeMetaJson text (newMeta calls.ulid prepared st.totals))
        index := index
        chunks := st.files }
      keptChunks := keptBySegments calls series
      keptIndex := if calls.index.fsync then (index.getD []).length else 0 }

/-- Only the tombstones come behind it. -/
theorem createFromSeries_eq (text : JsonText) (calls : CreateCalls) (series : List SeriesInput) :
    createFromSeries text calls series = (published text calls series).bind fun d ↦
      if !calls.tombstones then .error (.error .ioError)
      else .ok { d.dir with tombstones := some [] } := by
  unfold createFromSeries published
  by_cases hparent : (!calls.parent) = true
  · rw [if_pos hparent, if_pos hparent]
    rfl
  rw [if_neg hparent, if_neg hparent]
  by_cases hfound : calls.found = true
  · rw [if_pos hfound, if_pos hfound]
    rfl
  rw [if_neg hfound, if_neg hfound]
  by_cases hstatus : (!calls.status) = true
  · rw [if_pos hstatus, if_pos hstatus]
    rfl
  rw [if_neg hstatus, if_neg hstatus]
  by_cases hdir : (!calls.dir) = true
  · rw [if_pos hdir, if_pos hdir]
    rfl
  rw [if_neg hdir, if_neg hdir]
  cases writeSegments calls series with
  | error e => rfl
  | ok found =>
    show (writeIndex calls.index found.1).bind _ = ((writeIndex calls.index found.1).bind _).bind _
    cases writeIndex calls.index found.1 with
    | error e => rfl
    | ok index =>
      show (if _ then _ else _) = Except.bind (if _ then _ else _) _
      by_cases hmeta : (!calls.metaJson) = true
      · rw [if_pos hmeta, if_pos hmeta]
        rfl
      · rw [if_neg hmeta, if_neg hmeta]
        rfl

/-- `meta.json` gets its name behind both steps. -/
theorem published_ok {text : JsonText} {calls : CreateCalls} {series : List SeriesInput}
    {d : BlockDisk} (hok : published text calls series = .ok d) :
    ∃ prepared st, writeSegments calls series = .ok (prepared, st) ∧
      writeIndex calls.index prepared = .ok d.dir.index ∧ d.dir.chunks = st.files ∧
      d.keptChunks = keptBySegments calls series ∧
      d.keptIndex = if calls.index.fsync then (d.dir.index.getD []).length else 0 := by
  unfold published at hok
  split at hok
  · cases hok
  · split at hok
    · cases hok
    · split at hok
      · cases hok
      · split at hok
        · cases hok
        · obtain ⟨⟨prepared, st⟩, hsegments, hok⟩ := bind_ok hok
          obtain ⟨index, hindex, hok⟩ := bind_ok hok
          split at hok
          · cases hok
          · cases hok
            exact ⟨prepared, st, lift_ok hsegments, hindex, rfl, rfl, rfl⟩

/-- What a power loss leaves once `meta.json` has its name: of the segments and the index at least what is on
disk, and of `meta.json` anything or nothing. -/
structure BlockDisk.Leaves (d : BlockDisk) (dir : BlockDir) : Prop where
  chunks : ∃ left, Garbles d.keptChunks d.dir.chunks left ∧ dir.chunks = d.dir.chunks.crashed left
  index : ∀ bytes, d.dir.index = some bytes → ∃ bytes', dir.index = some bytes' ∧
    bytes.take d.keptIndex <+: bytes' ∧ bytes'.length ≤ bytes.length

/-- A directory in which a creation was stopped, or lost the power then or later. -/
inductive Interrupted (text : JsonText) (calls : CreateCalls) (series : List SeriesInput) :
    BlockDir → Prop
  | unnamed {dir : BlockDir} (hmeta : dir.metaJson = none) : Interrupted text calls series dir
  | named {d : BlockDisk} {dir : BlockDir} (hpublished : published text calls series = .ok d)
    (hleaves : d.Leaves dir) : Interrupted text calls series dir

/-- An index that was written was synced. -/
theorem writeIndex_synced {calls : IndexCloseCalls} {prepared : List PreparedSeries}
    {file : Option Bytes} (hok : writeIndex calls prepared = .ok file) :
    calls.fsync = true ∧ ∃ bytes, file = some bytes := by
  obtain ⟨w, w', -, hclose⟩ := writeIndex_iff.mp hok
  unfold IndexWriter.close at hclose
  split at hclose
  · cases hclose
  · dsimp only at hclose
    split at hclose
    · cases hclose
    · split at hclose
      · cases hclose
      · split at hclose
        · cases hclose
        · split at hclose
          · cases hclose
          · rename_i hanswers
            cases hclose
            have hfsync : calls.fsync = true := by
              by_contra hno
              simp [hno] at hanswers
            exact ⟨hfsync, _, rfl⟩

/-- A directory whose files are all on disk is left as it was. -/
theorem crashed_whole {files : Files} {kept : Wal.Kept} {left : FileName → Bytes}
    (hgarbles : Garbles kept files left) (hwhole : ∀ e ∈ files.entries, e.2.length ≤ kept e.1) :
    files.crashed left = files := by
  apply Files.ext
  show files.entries.map (fun e ↦ (e.1, left e.1)) = files.entries
  conv_rhs => rw [← List.map_id files.entries]
  apply List.map_congr_left
  intro e he
  have hcontent := Files.content_of_mem he
  have hleft : left e.1 = files.content e.1 := hgarbles.left_eq (by rw [hcontent]; exact hwhole e he)
  rw [hleft, hcontent]
  rfl

/-- Once `meta.json` has its name, no power loss takes anything of the segments and the index. -/
theorem BlockDisk.Leaves.kept {text : JsonText} {calls : CreateCalls} {series : List SeriesInput}
    {d : BlockDisk} {dir : BlockDir} (h : d.Leaves dir)
    (hpublished : published text calls series = .ok d) :
    dir.chunks = d.dir.chunks ∧ dir.index = d.dir.index := by
  obtain ⟨prepared, st, hsegments, hindex, hfiles, hkeptChunks, hkeptIndex⟩ := published_ok hpublished
  obtain ⟨⟨left, hgarbles, hchunks⟩, hrest⟩ := h
  obtain ⟨hfsync, bytes, hbytes⟩ := writeIndex_synced hindex
  have hwhole : d.keptIndex = bytes.length := by
    rw [hkeptIndex, if_pos hfsync, hbytes, Option.getD_some]
  constructor
  · rw [hchunks]
    apply crashed_whole hgarbles
    rw [hfiles, hkeptChunks]
    exact writeSegments_kept hsegments
  · obtain ⟨bytes', hbytes', hfront, hle⟩ := hrest bytes hbytes
    rw [hwhole, List.take_length] at hfront
    rw [hbytes', hbytes, hfront.eq_of_length_le hle]

/-- A query reads the index and the segments only. -/
theorem select_congr {blk blk' : Block} (hindex : blk.index = blk'.index)
    (hchunks : blk.chunks = blk'.chunks) (matchers : List Matcher) (mint maxt : Int64) :
    blk.select matchers mint maxt = blk'.select matchers mint maxt := by
  have hload : ∀ ids, loadSeries blk mint maxt ids = loadSeries blk' mint maxt ids := by
    intro ids
    induction ids with
    | nil => rfl
    | cons id ids ih =>
      unfold loadSeries
      rw [hindex, hchunks, ih]
  unfold Block.select
  cases matchers with
  | nil => rfl
  | cons m matchers =>
    dsimp only
    rw [hindex]
    simp only [hload]

/-- Whenever a creation is stopped, by an error, the end of the process or a power loss, what it leaves is
refused, or it is opened and answers every query as the finished block does. -/
theorem interrupted_whole {text : JsonText} {calls : CreateCalls} {series : List SeriesInput}
    {finished : BlockDir} (hok : createFromSeries text calls series = .ok finished)
    (hfits : WithinFormat calls series) (hkeeps : KeepsNew text calls series) :
    ∃ whole, openDir text (some finished) = .ok whole ∧
      ∀ dir, Interrupted text calls series dir → ∀ blk, openDir text (some dir) = .ok blk →
        ∀ matchers mint maxt, blk.select matchers mint maxt = whole.select matchers mint maxt := by
  obtain ⟨whole, hwhole⟩ := (Produced.series hok hfits hkeeps).opens
  refine ⟨whole, hwhole, fun dir hdir blk hopen matchers mint maxt ↦ ?_⟩
  obtain ⟨hread, hindex, hchunks⟩ := openDir_ok hopen
  cases hdir with
  | unnamed hmeta =>
    -- `open` has nothing to read.
    unfold readMeta at hread
    rw [hmeta] at hread
    cases hread
  | @named d _ hpublished hleaves =>
    obtain ⟨hsameChunks, hsameIndex⟩ := hleaves.kept hpublished
    rw [createFromSeries_eq, hpublished] at hok
    -- Nothing that the finished block is read from has come later.
    have hlater : finished = { d.dir with tombstones := some [] } := by
      change (if _ then _ else _) = _ at hok
      split at hok
      · cases hok
      · exact (Except.ok.inj hok).symm
    obtain ⟨-, hindex', hchunks'⟩ := openDir_ok hwhole
    rw [hlater] at hindex' hchunks'
    rw [hsameIndex, hindex'] at hindex
    have hreader : blk.index = whole.index := (Except.ok.inj hindex).symm
    have hcache : blk.chunks = whole.chunks := by
      rw [hchunks, hchunks', hsameChunks]
    exact select_congr hreader hcache matchers mint maxt

/-- The worst that a power loss does, short of `meta.json`. -/
def BlockDisk.cut (d : BlockDisk) : BlockDir :=
  { d.dir with
    index := d.dir.index.map fun bytes ↦ bytes.take d.keptIndex
    chunks := d.dir.chunks.crashed fun name ↦ (d.dir.chunks.content name).take (d.keptChunks name) }

theorem BlockDisk.leaves_cut (d : BlockDisk) : d.Leaves d.cut := by
  constructor
  · exact ⟨_, (garbles_take (fun _ ↦ le_rfl) d.dir.chunks).1, rfl⟩
  · intro bytes hbytes
    refine ⟨bytes.take d.keptIndex, ?_, List.prefix_rfl, List.length_take_le' _ _⟩
    show d.dir.index.map _ = _
    rw [hbytes]
    rfl

/-- All goes that is not on disk, before the tombstones are written. -/
theorem interrupted_whole_cut :
    ∃ finished dir blk whole,
      createFromSeries (JsonText.of [narrowMeta]) { ulid := Str.empty } [narrowSeries] = .ok finished ∧
      Interrupted (JsonText.of [narrowMeta]) { ulid := Str.empty } [narrowSeries] dir ∧
      dir.tombstones = none ∧ openDir (JsonText.of [narrowMeta]) (some dir) = .ok blk ∧
      openDir (JsonText.of [narrowMeta]) (some finished) = .ok whole ∧
      blk.select [narrowMatcher] 0 5 = whole.select [narrowMatcher] 0 5 := by
  have hsome : (published (JsonText.of [narrowMeta]) { ulid := Str.empty } [narrowSeries]).isOk = true := by
    decide +kernel
  obtain ⟨d, hpublished⟩ := exists_of_isOk hsome
  have hok : createFromSeries (JsonText.of [narrowMeta]) { ulid := Str.empty } [narrowSeries] =
      .ok { d.dir with tombstones := some [] } := by
    rw [createFromSeries_eq, hpublished]
    rfl
  obtain ⟨whole, hwhole, hall⟩ := interrupted_whole hok withinFormat_narrow
    (keepsNew_of (by decide) (JsonText.keeps_singleton narrowMeta))
  have hcut : Interrupted (JsonText.of [narrowMeta]) { ulid := Str.empty } [narrowSeries]
      { d.cut with tombstones := none } := .named hpublished ⟨d.leaves_cut.chunks, d.leaves_cut.index⟩
  obtain ⟨hread, hindex, -⟩ := openDir_ok hwhole
  obtain ⟨-, hsame⟩ := d.leaves_cut.kept hpublished
  obtain ⟨blk, hopen⟩ := @exists_openDir _ { d.cut with tombstones := none } _ _ hread
    (by rw [← hindex]; exact congrArg IndexReader.openFile hsame)
  exact ⟨_, _, blk, whole, hok, hcut, rfl, hopen, hwhole, hall _ hcut blk hopen _ _ _⟩

end MerlionTsdb.Block
