import MerlionTsdb.Block.Stored

/-!
# When creating a block succeeds

With calls that all succeed, the chunks of any series are written; and an index that has taken its sections
is closed as long as its bytes fit into a vector.
-/

namespace MerlionTsdb.Block

open Encoding Wal

/-! ## Chunks -/

namespace ChunkStage

/-- The writer is open, and no call fails. -/
structure Sound (st : ChunkStage) : Prop where
  closed_eq : st.writer.closed = false
  fd_isSome : st.writer.fd.isSome = true
  calls_eq : st.calls = []

variable {st : ChunkStage}

theorem writeFd_nil {w : ChunkWriter} (h : w.fd.isSome = true) (files : Files) (data : Bytes) :
    ∃ files', w.writeFd files [] data = (true, files') := by
  unfold ChunkWriter.writeFd
  obtain ⟨name, hname⟩ := Option.isSome_iff_exists.mp h
  rw [hname]
  dsimp only
  rw [writeAll_of_succeeds (by simp)]
  exact ⟨_, rfl⟩

theorem cutNewSegment_default (w : ChunkWriter) (files : Files) :
    ∃ w' files', w.cutNewSegment files {} = (true, w', files') ∧ w'.closed = w.closed ∧
      w'.fd.isSome = true := by
  unfold ChunkWriter.cutNewSegment
  rw [if_neg (by simp), if_neg (by simp)]
  dsimp only
  rw [if_neg (by simp)]
  generalize hstart : (if w.fd.isSome = true then { w with fd := none, seq := w.seq + 1 } else w) = w₁
  have hclosed : w₁.closed = w.closed := by
    rw [← hstart]
    split <;> rfl
  obtain ⟨files', hwrite⟩ := @writeFd_nil { w₁ with fd := some (formatSegmentName (w₁.seq + 1)) } rfl
    (files.set (formatSegmentName (w₁.seq + 1)) []) segmentHeader
  rw [hwrite]
  exact ⟨_, files', rfl, hclosed, rfl⟩

theorem Sound.write (h : st.Sound) (chk : ChunkInput) :
    ∃ cm st', st.write chk = .ok (cm, st') ∧ st'.Sound := by
  -- A new segment or the current one.
  have hstart : ∃ w files, (if st.writer.rollsOver chk.bytes.bytes.length then
      st.writer.cutNewSegment st.files {} else (true, st.writer, st.files)) = (true, w, files) ∧
        w.closed = false ∧ w.fd.isSome = true := by
    split
    · obtain ⟨w, files, hcut, hclosed, hfd⟩ := cutNewSegment_default st.writer st.files
      exact ⟨w, files, hcut, hclosed.trans h.closed_eq, hfd⟩
    · exact ⟨_, _, rfl, h.closed_eq, h.fd_isSome⟩
  obtain ⟨w, files, hstart, hclosed, hfd⟩ := hstart
  obtain ⟨files', hwrite⟩ := writeFd_nil hfd files (frame ⟨.xor, chk.bytes.bytes⟩)
  unfold ChunkStage.write ChunkWriter.write
  rw [h.calls_eq, h.closed_eq, if_neg Bool.false_ne_true]
  dsimp only [List.headD_nil]
  rw [hstart]
  dsimp only
  rw [hwrite]
  exact ⟨_, _, rfl, ⟨hclosed, hfd, rfl⟩⟩

theorem Sound.writeAll (h : st.Sound) (chunks : List ChunkInput) :
    ∃ metas st', st.writeAll chunks = .ok (metas, st') ∧ st'.Sound := by
  induction chunks generalizing st with
  | nil => exact ⟨[], st, rfl, h⟩
  | cons chk chunks ih =>
    obtain ⟨cm, st₁, hwrite, h₁⟩ := h.write chk
    obtain ⟨metas, st', hrest, h'⟩ := ih h₁
    exact ⟨cm :: metas, st', ChunkStage.writeAll_cons_iff.mpr ⟨cm, st₁, metas, hwrite, hrest, rfl⟩, h'⟩

/-- One more chunk adds one meta. -/
theorem writeAll_concat {chunks : List ChunkInput} {metas : List ChunkMeta} {st₁ : ChunkStage}
    (h : st.writeAll chunks = .ok (metas, st₁)) {chk : ChunkInput} {cm : ChunkMeta}
    {st₂ : ChunkStage} (hchk : st₁.write chk = .ok (cm, st₂)) :
    st.writeAll (chunks ++ [chk]) = .ok (metas ++ [cm], st₂) := by
  induction chunks generalizing st metas with
  | nil =>
    cases h
    exact ChunkStage.writeAll_cons_iff.mpr ⟨cm, st₂, [], hchk, rfl, rfl⟩
  | cons c chunks ih =>
    obtain ⟨cm₀, st₀, metas', hwrite, hrest, rfl⟩ := ChunkStage.writeAll_cons_iff.mp h
    exact ChunkStage.writeAll_cons_iff.mpr ⟨cm₀, st₀, metas' ++ [cm], hwrite, ih hrest, rfl⟩

theorem Sound.prepare (h : st.Sound) (series : List SeriesInput) :
    ∃ prepared st', st.prepare series = .ok (prepared, st') ∧ st'.Sound := by
  induction series generalizing st with
  | nil => exact ⟨[], st, rfl, h⟩
  | cons s series ih =>
    by_cases hempty : s.chunks = []
    · rw [ChunkStage.prepare_cons_empty hempty]
      exact ih h
    · obtain ⟨metas, st₁, hwrite, h₁⟩ := h.writeAll s.chunks
      obtain ⟨prepared, st', hrest, h'⟩ := ih h₁
      exact ⟨_, st', (ChunkStage.prepare_cons_iff hempty).mpr ⟨metas, st₁, prepared, hwrite, hrest, rfl⟩,
        h'⟩

theorem Sound.close (h : st.Sound) : (st.writer.close true true).1 = true := by
  unfold ChunkWriter.close
  rw [h.closed_eq, if_neg Bool.false_ne_true]
  dsimp only
  split <;> rfl

/-- The stage that the chunk loops start with. -/
theorem exists_sound :
    ∃ w files, ChunkWriter.openDir Files.empty kDefaultChunksSegmentSize {} = (.ok w, files) ∧
      Sound { writer := w, files := files, calls := [] } := by
  have hnew : Files.empty.numbered parseSegmentName = [] := rfl
  obtain ⟨w, files, hcut, hclosed, hfd⟩ :=
    cutNewSegment_default { segmentSize := kDefaultChunksSegmentSize } Files.empty
  refine ⟨w, files, ?_, ⟨hclosed, hfd, rfl⟩⟩
  unfold ChunkWriter.openDir
  rw [if_neg (by simp [hnew]), hcut]

end ChunkStage

/-- With calls that succeed, the first step does. -/
theorem writeSegments_default (ulid : Str) (series : List SeriesInput) :
    ∃ prepared st, writeSegments { ulid := ulid } series = .ok (prepared, st) := by
  obtain ⟨w, files, hopen, hsound⟩ := ChunkStage.exists_sound
  obtain ⟨prepared, st, hprepare, h⟩ := hsound.prepare series
  exact ⟨prepared, st, writeSegments_iff.mpr ⟨w, files, hopen, hprepare, h.close⟩⟩

/-! ## The index -/

theorem writeRemaining_nil (data : Bytes) : writeRemaining [] data = (true, data) := by
  cases data <;> rfl

/-- A writer that has taken everything is closed, when its bytes fit. -/
theorem close_default {w : IndexWriter} (hstage : w.stage = .postings)
    (hfits : w.appendTables.buf.length ≤ kMaxSize) :
    ∃ w' file, w.close none {} = (.ok (), w', file) := by
  unfold IndexWriter.close
  rw [if_neg (not_not.mpr hstage)]
  dsimp only
  rw [if_neg (Nat.not_lt.mpr hfits), if_neg (by simp), if_neg (by simp), writeRemaining_nil]
  exact ⟨_, _, rfl⟩

/-- With calls that succeed and an index that is closed, the block is created. -/
theorem createFromSeries_default (text : JsonText) {ulid : Str} {series : List SeriesInput}
    {prepared : List PreparedSeries} {st : ChunkStage} {file : Option Bytes}
    (hsegments : writeSegments { ulid := ulid } series = .ok (prepared, st))
    (hindex : writeIndex {} prepared = .ok file) :
    createFromSeries text { ulid := ulid } series = .ok {
      metaJson := some (encodeMetaJson text (newMeta ulid prepared st.totals))
      index := file
      chunks := st.files
      tombstones := some [] } := by
  unfold createFromSeries
  rw [if_neg (by simp), if_neg (by simp), if_neg (by simp), if_neg (by simp), hsegments]
  show (writeIndex {} prepared >>= _) = _
  rw [hindex]
  rfl

/-- A directory whose metadata the library keeps, and whose index is readable, is opened. -/
theorem openDir_default {text : JsonText} {dir : BlockDir} {m : BlockMeta}
    (hmeta : dir.metaJson = some (encodeMetaJson text m)) (hkeeps : text.Keeps m)
    (hversion : m.version = kMetaVersion1) {r : IndexReader}
    (hindex : IndexReader.openFile dir.index = .ok r) :
    openDir text (some dir) =
      .ok { blockMeta := m, index := r, chunks := ChunkReader.openDir dir.chunks } := by
  have hread : readMeta text dir = .ok m := by
    unfold readMeta
    rw [hmeta]
    exact decodeMetaJson_encode hkeeps hversion
  unfold openDir
  dsimp only
  rw [hread]
  show (IndexReader.openFile dir.index >>= _) = _
  rw [hindex]
  rfl

theorem exists_of_isOk {ε α : Type} {x : Except ε α} (h : x.isOk = true) : ∃ a, x = .ok a := by
  cases x with
  | error e => cases h
  | ok a => exact ⟨a, rfl⟩

end MerlionTsdb.Block
