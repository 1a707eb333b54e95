import MerlionTsdb.Wal.Crash

/-!
# The WAL as a journal

`OnDisk` ties a disk to a journal of the records framed on it.  Each call of the segment writer is a
step of the journal, and a crash of the disk leaves what a crash of the journal may leave.
-/

namespace MerlionTsdb.Wal

open PageOp

/-- `base` holds the earlier segments, all on disk.  Of the calls on the page writer, those of
`sync` have their bytes on disk, those of `rest` in the file, and `pend` are still to be flushed. -/
structure Layered (d : Disk) (j : Journal Bytes) (base : Files) (sync rest pend : List PageOp) :
    Prop where
  writing : Writing d.writer d.files base (sync ++ rest) pend
  index : d.writer.segIndex < 10 ^ kSegmentNameWidth
  clean : CleanSegments (segments base)
  clear : ClearRun {} (sync ++ rest ++ pend)
  whole : Whole d.kept base
  reached : (({} : PageWriter).run sync).buf.length ≤ d.kept (formatSegmentName d.writer.segIndex)
  synced_le : j.synced <+: recordsOf (segments base) ++ bodies sync
  logged_eq : j.logged = recordsOf (segments base) ++ bodies (sync ++ rest ++ pend)

/-- The journal holds the records that are found once `pend` is flushed, and its synced ones are on
disk. -/
def OnDisk (d : Disk) (j : Journal Bytes) (pend : List PageOp) : Prop :=
  ∃ base sync rest, Layered d j base sync rest pend

/-- A writer just opened, on segments that are all on disk. -/
theorem onDisk_openDir {files : Files} {kept : Kept} (hclean : CleanSegments (segments files))
    (hidx : SegmentWriter.nextIndex files < 10 ^ kSegmentNameWidth) (hwhole : Whole kept files)
    (size : Nat) :
    OnDisk (Disk.openDir files kept size true).2 (.ofSynced (recordsOf (segments files))) [] :=
  ⟨files, [], [], {
    writing := ⟨rfl, le_rfl, rfl, rfl, rfl⟩
    index := hidx
    clean := hclean
    clear := trivial
    whole := hwhole
    reached := Nat.zero_le _
    synced_le := List.prefix_append _ _
    logged_eq := (List.append_nil _).symm }⟩

namespace Layered

variable {d : Disk} {j j' : Journal Bytes} {base : Files} {sync rest pend : List PageOp}

theorem fd_eq (h : Layered d j base sync rest pend) :
    d.writer.fd = some (formatSegmentName d.writer.segIndex) := h.writing.opened

/-- The open file holds the flushed calls. -/
theorem content_eq (h : Layered d j base sync rest pend) :
    d.files.content (formatSegmentName d.writer.segIndex) =
      (({} : PageWriter).run (sync ++ rest)).buf := by
  rw [h.writing.file, Files.content_set]

theorem ne_open (h : Layered d j base sync rest pend) {e : FileName × Bytes}
    (he : e ∈ base.entries) : e.1 ≠ formatSegmentName d.writer.segIndex := by
  intro heq
  apply not_mem_of_fresh h.writing.fresh h.index
  rw [← heq]
  exact List.mem_map_of_mem he

/-- Of the entries on disk, a journal may know fewer. -/
theorem mono (h : Layered d j' base sync rest pend) (hsynced : j.synced <+: j'.synced)
    (hlogged : j.logged = j'.logged) : Layered d j base sync rest pend :=
  { h with
    synced_le := hsynced.trans h.synced_le
    logged_eq := hlogged.trans h.logged_eq }

theorem frame (h : Layered d j base sync rest pend) {body : Bytes}
    (hroom : body = [] ∨ ¬ SevenLeft d.writer.pw.buf.length) :
    Layered { d with writer := { d.writer with pw := d.writer.pw.log body } } (j.append body) base
      sync rest (pend ++ [.log body]) where
  writing := h.writing.log body
  index := h.index
  clean := h.clean
  clear := by
    rw [← List.append_assoc, clearRun_append, ← h.writing.pw]
    exact ⟨h.clear, hroom, trivial⟩
  whole := h.whole
  reached := h.reached
  synced_le := h.synced_le
  logged_eq := by
    change j.logged ++ [body] = _
    rw [h.logged_eq, ← List.append_assoc (sync ++ rest), bodies_append _ [_], List.append_assoc]
    rfl

theorem closePage (h : Layered d j base sync rest pend) :
    Layered { d with writer := { d.writer with pw := d.writer.pw.closePage } } j base sync rest
      (pend ++ [.closePage]) where
  writing := h.writing.closePage
  index := h.index
  clean := h.clean
  clear := by
    rw [← List.append_assoc, clearRun_append]
    exact ⟨h.clear, trivial, trivial⟩
  whole := h.whole
  reached := h.reached
  synced_le := h.synced_le
  logged_eq := by
    rw [h.logged_eq, ← List.append_assoc (sync ++ rest), bodies_append _ [_]]
    congr 1
    exact (List.append_nil _).symm

/-- A flush that writes everything. -/
theorem flush (h : Layered d j base sync rest pend) {calls : List WriteResult}
    (hwrite : (writeAll calls (d.writer.pw.bytes.drop d.writer.flushedBytes)).1 = true) :
    ∃ files', d.writer.flushPending d.files calls =
        (true, { d.writer with flushedBytes := d.writer.pw.bytes.length }, files') ∧
      Layered ⟨{ d.writer with flushedBytes := d.writer.pw.bytes.length }, files', d.kept⟩ j base
        sync (rest ++ pend) [] := by
  obtain ⟨files', hflush, hwriting⟩ := h.writing.flushPending hwrite
  rw [List.append_assoc] at hwriting
  refine ⟨files', hflush, hwriting, h.index, h.clean, ?_, h.whole, h.reached, h.synced_le, ?_⟩
  · rw [List.append_nil, ← List.append_assoc]
    exact h.clear
  · rw [List.append_nil, ← List.append_assoc]
    exact h.logged_eq

/-- The `::fsync` behind it puts all there is on disk. -/
theorem fsync (h : Layered d j base sync rest []) :
    Layered
      { d with
        kept := Function.update d.kept (formatSegmentName d.writer.segIndex)
          (d.files.content (formatSegmentName d.writer.segIndex)).length }
      j.sync base (sync ++ rest) [] [] where
  writing := by
    rw [List.append_nil]
    exact h.writing
  index := h.index
  clean := h.clean
  clear := by
    rw [List.append_nil]
    exact h.clear
  whole := by
    intro e he hparse
    dsimp only
    rw [Function.update_of_ne (h.ne_open he)]
    exact h.whole e he hparse
  reached := by
    dsimp only
    rw [Function.update_self, h.content_eq]
  synced_le := by
    have hlogged := h.logged_eq
    rw [List.append_nil] at hlogged
    exact (congrArg (· <+: _) hlogged).mpr List.prefix_rfl
  logged_eq := by
    rw [List.append_nil]
    exact h.logged_eq

/-- A segment that is all on disk is one of those before it to whoever opens the next. -/
theorem settled (h : Layered d j base sync [] []) :
    CleanSegments (segments d.files) ∧ recordsOf (segments d.files) = j.logged ∧
      Whole d.kept d.files := by
  have hwriting := h.writing
  have hclear := h.clear
  have hlogged := h.logged_eq
  rw [List.append_nil] at hwriting
  rw [List.append_nil, List.append_nil] at hclear hlogged
  obtain ⟨hclean, hrecords⟩ := hwriting.clean h.index h.clean hclear
  refine ⟨hclean, hrecords.trans hlogged.symm, ?_⟩
  intro e he hparse
  rw [hwriting.file] at he
  rcases Files.mem_set he with rfl | he
  · exact h.reached
  · exact h.whole e he hparse

theorem openNewSegment (h : Layered d j base sync [] [])
    (hidx : d.writer.segIndex + 1 < 10 ^ kSegmentNameWidth) :
    Layered ⟨d.writer.nextWriter,
      d.files.set (formatSegmentName (d.writer.segIndex + 1)) [], d.kept⟩ j d.files [] [] [] := by
  obtain ⟨hclean, hrecords, hwhole⟩ := h.settled
  have hwriting := h.writing.openNewSegment h.index d.writer.segmentSize
  refine ⟨hwriting, hidx, hclean, trivial, hwhole, Nat.zero_le _, ?_, ?_⟩
  · rw [hrecords]
    exact j.synced_le.trans (List.prefix_append _ _)
  · rw [hrecords]
    exact (List.append_nil _).symm

end Layered

/-! ## Calls -/

theorem fsynced_flushed {w w' : SegmentWriter} {files files' : Files} {name : FileName}
    {calls : SyncCalls} (hfd : w.fd = some name)
    (hflush : w.flushPending files calls.write = (true, w', files')) (kept : Kept) :
    w.fsynced files calls kept =
      if calls.fsync then Function.update kept name (files'.content name).length else kept := by
  unfold SegmentWriter.fsynced
  rw [hfd, hflush]

theorem fsynced_failed {w w' : SegmentWriter} {files files' : Files} {calls : SyncCalls}
    (hflush : w.flushPending files calls.write = (false, w', files')) (kept : Kept) :
    w.fsynced files calls kept = kept := by
  unfold SegmentWriter.fsynced
  rw [hflush]
  cases w.fd <;> rfl

theorem cut_of_flush {w : SegmentWriter} {files files' : Files} {name : FileName} {calls : CutCalls}
    (hfd : w.fd = some name)
    (hflush : SegmentWriter.flushPending { w with pw := w.pw.closePage } files calls.write =
      (true, w.closed, files')) :
    w.cut files calls =
      if calls.fsync && calls.close then
        if calls.opened then
          (true, w.nextWriter, files'.set (formatSegmentName (w.segIndex + 1)) [])
        else (false, { w.closed with fd := none, segIndex := w.segIndex + 1 }, files')
      else (false, w.closed, files') := by
  unfold SegmentWriter.cut
  rw [if_neg (by rw [hfd]; exact Bool.false_ne_true)]
  dsimp only
  rw [hflush]
  dsimp only
  cases calls.fsync
  · rfl
  cases calls.close
  · rfl
  cases calls.opened <;> rfl

namespace OnDisk

variable {d d' : Disk} {j j' : Journal Bytes} {pend : List PageOp}

theorem mono (h : OnDisk d j' pend) (hsynced : j.synced <+: j'.synced)
    (hlogged : j.logged = j'.logged) : OnDisk d j pend := by
  obtain ⟨base, sync, rest, hl⟩ := h
  exact ⟨base, sync, rest, hl.mono hsynced hlogged⟩

theorem of_sync (h : OnDisk d j.sync pend) : OnDisk d j pend :=
  h.mono j.synced_le rfl

theorem fd_eq (h : OnDisk d j pend) :
    d.writer.fd = some (formatSegmentName d.writer.segIndex) := by
  obtain ⟨base, sync, rest, hl⟩ := h
  exact hl.fd_eq

theorem closePage (h : OnDisk d j pend) :
    OnDisk { d with writer := { d.writer with pw := d.writer.pw.closePage } } j
      (pend ++ [.closePage]) := by
  obtain ⟨base, sync, rest, hl⟩ := h
  exact ⟨base, sync, rest, hl.closePage⟩

theorem frame (h : OnDisk d j pend) {body : Bytes} (hroom : ¬ SevenLeft d.writer.pw.buf.length) :
    OnDisk { d with writer := { d.writer with pw := d.writer.pw.log body } } (j.append body)
      (pend ++ [.log body]) := by
  obtain ⟨base, sync, rest, hl⟩ := h
  exact ⟨base, sync, rest, hl.frame (Or.inr hroom)⟩

/-- A flush without an `::fsync`. -/
theorem flush_true (h : OnDisk d j pend) {calls : List WriteResult}
    (hwrite : (writeAll calls (d.writer.pw.bytes.drop d.writer.flushedBytes)).1 = true) :
    ∃ files', d.writer.flushPending d.files calls =
        (true, { d.writer with flushedBytes := d.writer.pw.bytes.length }, files') ∧
      OnDisk ⟨{ d.writer with flushedBytes := d.writer.pw.bytes.length }, files', d.kept⟩ j [] := by
  obtain ⟨base, sync, rest, hl⟩ := h
  obtain ⟨files', hflush, hl'⟩ := hl.flush hwrite
  exact ⟨files', hflush, base, sync, _, hl'⟩

/-- A flush that fails with no byte written changes nothing. -/
theorem flush_false (h : OnDisk d j pend) {calls : List WriteResult}
    (hwrite : (writeAll calls (d.writer.pw.bytes.drop d.writer.flushedBytes)).1 = false)
    (hall : AllOrNothing calls d.writer.pendingLength) :
    d.writer.flushPending d.files calls = (false, d.writer, d.files) := by
  obtain ⟨base, sync, rest, hl⟩ := h
  have hbuffered : Buffered d.writer d.files j.logged pend :=
    ⟨⟨base, sync ++ rest, hl.writing, hl.clean, hl.clear, hl.logged_eq⟩, hl.index⟩
  exact hbuffered.flush_false hwrite hall

/-- A flush and then an `::fsync`: all that is logged is on disk. -/
theorem flush_fsync (h : OnDisk d j pend) {calls : SyncCalls}
    (hwrite : (writeAll calls.write (d.writer.pw.bytes.drop d.writer.flushedBytes)).1 = true)
    (hfsync : calls.fsync = true) :
    ∃ files' base sync, d.writer.flushPending d.files calls.write =
        (true, { d.writer with flushedBytes := d.writer.pw.bytes.length }, files') ∧
      Layered ⟨{ d.writer with flushedBytes := d.writer.pw.bytes.length }, files',
        d.writer.fsynced d.files calls d.kept⟩ j.sync base sync [] [] := by
  obtain ⟨base, sync, rest, hl⟩ := h
  obtain ⟨files', hflush, hl'⟩ := hl.flush hwrite
  refine ⟨files', base, sync ++ (rest ++ pend), hflush, ?_⟩
  rw [fsynced_flushed hl.fd_eq hflush, if_pos hfsync]
  exact hl'.fsync

/-! ### Syncs -/

theorem sync_true (h : OnDisk d j pend) {calls : SyncCalls} (hsync : d.sync calls = (true, d')) :
    OnDisk d' j.sync [] := by
  unfold Disk.sync SegmentWriter.sync at hsync
  rw [if_neg (by rw [h.fd_eq]; exact Bool.false_ne_true)] at hsync
  cases hwrite : (writeAll calls.write (d.writer.pw.bytes.drop d.writer.flushedBytes)).1 with
  | false =>
    -- The flush fails, and with it the sync.
    have hflush := flushPending_fst h.fd_eq d.files calls.write
    rw [hwrite] at hflush
    rcases hresult : d.writer.flushPending d.files calls.write with ⟨_ | _, w₁, files₁⟩
    · rw [hresult] at hsync
      cases hsync
    · rw [hresult] at hflush
      cases hflush
  | true =>
    cases hfsync : calls.fsync with
    | false =>
      obtain ⟨files', hflush, -⟩ := h.flush_true hwrite
      rw [hflush] at hsync
      dsimp only at hsync
      rw [hfsync] at hsync
      cases hsync
    | true =>
      obtain ⟨files', base, sync, hflush, hl⟩ := h.flush_fsync hwrite hfsync
      rw [hflush] at hsync
      dsimp only at hsync
      rw [hfsync] at hsync
      cases hsync
      exact ⟨base, sync, [], hl⟩

theorem sync_false (h : OnDisk d j pend) {calls : SyncCalls}
    (hall : AllOrNothing calls.write d.writer.pendingLength)
    (hsync : d.sync calls = (false, d')) : ∃ pend', OnDisk d' j pend' := by
  unfold Disk.sync SegmentWriter.sync at hsync
  rw [if_neg (by rw [h.fd_eq]; exact Bool.false_ne_true)] at hsync
  cases hwrite : (writeAll calls.write (d.writer.pw.bytes.drop d.writer.flushedBytes)).1 with
  | false =>
    have hflush := h.flush_false hwrite hall
    rw [fsynced_failed hflush, hflush] at hsync
    cases hsync
    exact ⟨pend, h⟩
  | true =>
    -- Flushed, and then the `::fsync` failed.
    obtain ⟨files', hflush, h'⟩ := h.flush_true hwrite
    rw [fsynced_flushed h.fd_eq hflush, hflush] at hsync
    dsimp only at hsync
    cases hfsync : calls.fsync <;> rw [hfsync] at hsync
    · cases hsync
      exact ⟨[], h'⟩
    · cases hsync

/-! ### Cuts -/

/-- A cut whose writes go through, by the answers of the other calls. -/
theorem cut_flushed (h : OnDisk d j pend) {calls : CutCalls}
    (hwrite : (writeAll calls.write
      (d.writer.pw.closePage.bytes.drop d.writer.flushedBytes)).1 = true) :
    ∃ files', OnDisk ⟨d.writer.closed, files', d.keptByCut calls⟩ j [] ∧
      (calls.fsync = true → d.writer.segIndex + 1 < 10 ^ kSegmentNameWidth →
        OnDisk ⟨d.writer.nextWriter, files'.set (formatSegmentName (d.writer.segIndex + 1)) [],
          d.keptByCut calls⟩ j.sync []) ∧
      d.writer.cut d.files calls =
        if calls.fsync && calls.close then
          if calls.opened then
            (true, d.writer.nextWriter, files'.set (formatSegmentName (d.writer.segIndex + 1)) [])
          else (false, { d.writer.closed with fd := none, segIndex := d.writer.segIndex + 1 }, files')
        else (false, d.writer.closed, files') := by
  have hpadded := h.closePage
  cases hfsync : calls.fsync with
  | false =>
    obtain ⟨files', hflush, h'⟩ := hpadded.flush_true hwrite
    refine ⟨files', ?_, fun hfalse ↦ absurd hfalse Bool.false_ne_true, ?_⟩
    · unfold Disk.keptByCut
      rw [fsynced_flushed hpadded.fd_eq hflush, hfsync, if_neg Bool.false_ne_true]
      exact h'
    · rw [cut_of_flush h.fd_eq hflush, hfsync]
  | true =>
    obtain ⟨files', base, sync, hflush, hl⟩ := hpadded.flush_fsync hwrite hfsync
    refine ⟨files', ?_, fun _ hidx ↦ ⟨_, _, _, hl.openNewSegment hidx⟩, ?_⟩
    · exact of_sync ⟨_, _, _, hl⟩
    · rw [cut_of_flush h.fd_eq hflush, hfsync]

theorem cut_true (h : OnDisk d j pend) {calls : CutCalls}
    (hidx : d.writer.segIndex + 1 < 10 ^ kSegmentNameWidth) (hcut : d.cut calls = (true, d')) :
    d'.writer = d.writer.nextWriter ∧ OnDisk d' j.sync [] := by
  unfold Disk.cut at hcut
  cases hwrite : (writeAll calls.write
      (d.writer.pw.closePage.bytes.drop d.writer.flushedBytes)).1 with
  | false =>
    -- The flush fails, and with it the cut.
    have hflush := flushPending_fst h.closePage.fd_eq d.files calls.write
    dsimp only at hflush
    rw [hwrite] at hflush
    unfold SegmentWriter.cut at hcut
    rw [if_neg (by rw [h.fd_eq]; exact Bool.false_ne_true)] at hcut
    dsimp only at hcut
    rcases hresult : SegmentWriter.flushPending { d.writer with pw := d.writer.pw.closePage }
      d.files calls.write with ⟨_ | _, w₁, files₁⟩
    · rw [hresult] at hcut
      cases hcut
    · rw [hresult] at hflush
      cases hflush
  | true =>
    obtain ⟨files', -, hnext, hresult⟩ := h.cut_flushed hwrite
    rw [hresult] at hcut
    by_cases hcalls : (calls.fsync && calls.close) = true
    · rw [if_pos hcalls] at hcut
      cases hopened : calls.opened <;> rw [hopened] at hcut
      · cases hcut
      · cases hcut
        exact ⟨rfl, hnext (Bool.and_eq_true_iff.mp hcalls).1 hidx⟩
    · rw [if_neg hcalls] at hcut
      cases hcut

theorem cut_false (h : OnDisk d j pend) {calls : CutCalls} (hharmless : calls.Harmless d.writer)
    (hcut : d.cut calls = (false, d')) : ∃ pend', OnDisk d' j pend' := by
  unfold Disk.cut at hcut
  cases hwrite : (writeAll calls.write
      (d.writer.pw.closePage.bytes.drop d.writer.flushedBytes)).1 with
  | false =>
    have hflush := h.closePage.flush_false hwrite hharmless.1
    dsimp only at hflush
    unfold SegmentWriter.cut Disk.keptByCut at hcut
    rw [if_neg (by rw [h.fd_eq]; exact Bool.false_ne_true), fsynced_failed hflush] at hcut
    dsimp only at hcut
    rw [hflush] at hcut
    cases hcut
    exact ⟨_, h.closePage⟩
  | true =>
    obtain ⟨files', hclosed, -, hresult⟩ := h.cut_flushed hwrite
    rw [hresult, hharmless.2, if_pos rfl] at hcut
    by_cases hcalls : (calls.fsync && calls.close) = true
    · rw [if_pos hcalls] at hcut
      cases hcut
    · rw [if_neg hcalls] at hcut
      cases hcut
      exact ⟨_, hclosed⟩

/-! ### Records -/

/-- A `log` fails in its cut, or flushes the framed record. -/
theorem log_cases (h : OnDisk d j pend) {body : Bytes} {calls : LogCalls} {ok : Bool}
    (hroom : d.writer.HasRoom body) (hlog : d.log body calls = (ok, d')) :
    (ok = false ∧ d.writer.rollsOver body = true ∧ d.cut calls.cut = (false, d')) ∨
      ∃ files₁ pend₁, OnDisk ⟨d.writer.framed body, files₁, d'.kept⟩ (j.append body) pend₁ ∧
        (d.writer.framed body).flushPending files₁ calls.write = (ok, d'.writer, d'.files) := by
  unfold SegmentWriter.HasRoom at hroom
  unfold Disk.log SegmentWriter.log at hlog
  unfold SegmentWriter.framed
  by_cases hrolls : d.writer.rollsOver body = true
  · rw [if_pos hrolls] at hroom
    rw [if_pos hrolls, if_pos hrolls] at hlog
    rw [if_pos hrolls]
    rcases hcut : d.writer.cut d.files calls.cut with ⟨_ | _, w₁, files₁⟩
    · rw [hcut] at hlog
      cases hlog
      refine Or.inl ⟨rfl, hrolls, ?_⟩
      unfold Disk.cut
      rw [hcut]
    · have hdisk : d.cut calls.cut = (true, ⟨w₁, files₁, d.keptByCut calls.cut⟩) := by
        unfold Disk.cut
        rw [hcut]
      obtain ⟨hnext, hcut'⟩ := h.cut_true hroom hdisk
      dsimp only at hnext
      subst hnext
      rw [hcut] at hlog
      have hfresh : ¬ SevenLeft ({} : PageWriter).buf.length := by decide
      cases hlog
      exact Or.inr ⟨files₁, _, (of_sync hcut').frame hfresh, rfl⟩
  · rw [if_neg hrolls] at hroom
    rw [if_neg hrolls, if_neg hrolls] at hlog
    rw [if_neg hrolls]
    cases hlog
    exact Or.inr ⟨d.files, _, h.frame hroom, rfl⟩

/-- A `log` that succeeds: the record is in the file. -/
theorem log_true (h : OnDisk d j pend) {body : Bytes} {calls : LogCalls}
    (hroom : d.writer.HasRoom body) (hlog : d.log body calls = (true, d')) :
    OnDisk d' (j.append body) [] := by
  rcases h.log_cases hroom hlog with ⟨hok, -⟩ | ⟨files₁, pend₁, hframed, hflush⟩
  · cases hok
  · have hwrite := flushPending_fst hframed.fd_eq files₁ calls.write
    dsimp only at hwrite
    rw [hflush] at hwrite
    obtain ⟨files₂, hresult, hflushed⟩ := hframed.flush_true hwrite.symm
    dsimp only at hresult
    rw [hflush] at hresult
    rw [Prod.mk.injEq, Prod.mk.injEq] at hresult
    obtain ⟨-, hwriter, hfiles⟩ := hresult
    rw [← hwriter, ← hfiles] at hflushed
    exact hflushed

/-- A `log` that fails: the record is not framed, or it is and its flush failed. -/
theorem log_false (h : OnDisk d j pend) {body : Bytes} {calls : LogCalls}
    (hroom : d.writer.HasRoom body) (hharmless : calls.Harmless d.writer body)
    (hlog : d.log body calls = (false, d')) :
    ∃ pend', OnDisk d' j pend' ∨
      (¬ calls.FlushPasses d.writer body ∧ OnDisk d' (j.append body) pend') := by
  rcases h.log_cases hroom hlog with ⟨-, hrolls, hcut⟩ | ⟨files₁, pend₁, hframed, hflush⟩
  · obtain ⟨pend', h'⟩ := h.cut_false (hharmless.1 hrolls) hcut
    exact ⟨pend', Or.inl h'⟩
  · have hwrite := flushPending_fst hframed.fd_eq files₁ calls.write
    dsimp only at hwrite
    rw [hflush] at hwrite
    have hsame := hframed.flush_false hwrite.symm hharmless.2
    dsimp only at hsame
    rw [hflush, Prod.mk.injEq, Prod.mk.injEq] at hsame
    obtain ⟨-, hwriter, hfiles⟩ := hsame
    rw [← hwriter, ← hfiles] at hframed
    refine ⟨pend₁, Or.inr ⟨?_, hframed⟩⟩
    intro hpass
    have hok : (writeAll calls.write ((d.writer.framed body).pw.bytes.drop
        (d.writer.framed body).flushedBytes)).1 = true := by
      apply writeAll_passes
      rw [List.length_drop]
      exact hpass
    rw [← hwrite] at hok
    cases hok

end OnDisk

/-! ## After a crash -/

theorem joinSegments_singleton_fst (seg : Bytes) :
    (joinSegments [seg]).1 = (PageReader.readAll seg).1 := by
  rw [joinSegments_singleton]
  split <;> rfl

/-- The segments before the open one are read as they were, and then what is left of that. -/
theorem Layered.readAll_crashed {d : Disk} {j : Journal Bytes} {base : Files}
    {sync rest pend : List PageOp} (h : Layered d j base sync rest pend) {left : FileName → Bytes}
    (hgarbles : Garbles d.kept d.files left) :
    (SegmentReader.readAll (segments (d.files.crashed left))).1 = recordsOf (segments base) ++
      (PageReader.readAll (left (formatSegmentName d.writer.segIndex))).1 := by
  have hbase : ∀ e ∈ base.entries, (parseSegmentName e.1).isSome → left e.1 = e.2 := by
    intro e he hparse
    have hcontent : d.files.content e.1 = e.2 := by
      rw [h.writing.file, Files.content_set_of_ne (h.ne_open he), Files.content_of_mem he]
    rw [hgarbles.left_eq (by rw [hcontent]; exact h.whole e he hparse), hcontent]
  have hindexed := indexed_crashed hbase
  have hfresh : SegmentWriter.nextIndex (base.crashed left) ≤ d.writer.segIndex := by
    unfold SegmentWriter.nextIndex
    rw [hindexed]
    exact h.writing.fresh
  have hsegments : segments (base.crashed left) = segments base := by
    unfold segments
    rw [hindexed]
  rw [h.writing.file, Files.crashed_set (not_mem_of_fresh h.writing.fresh h.index),
    segments_set_new hfresh h.index, hsegments, SegmentReader.readAll_eq,
    joinSegments_clean h.clean, joinSegments_singleton_fst]

/-- Whatever a crash leaves behind the bytes on disk, the synced records are found first.  If it
only cuts, nothing is found that was not logged. -/
theorem OnDisk.crash {d : Disk} {j : Journal Bytes} {pend : List PageOp} (h : OnDisk d j pend)
    {left : FileName → Bytes} (hgarbles : Garbles d.kept d.files left) :
    j.synced <+: (SegmentReader.readAll (segments (d.files.crashed left))).1 ∧
      (Cuts d.files left →
        j.Leaves (SegmentReader.readAll (segments (d.files.crashed left))).1) := by
  obtain ⟨base, sync, rest, hl⟩ := h
  obtain ⟨hclearFlushed, -⟩ := (clearRun_append _ _ _).mp hl.clear
  obtain ⟨hclearSync, -⟩ := (clearRun_append _ _ _).mp hclearFlushed
  have hkeeps : j.synced <+: (SegmentReader.readAll (segments (d.files.crashed left))).1 := by
    -- The bytes of the synced records are a first part of what is left.
    have hle : (({} : PageWriter).run sync).buf <+: left (formatSegmentName d.writer.segIndex) := by
      have hleft := hgarbles.keeps (formatSegmentName d.writer.segIndex)
      rw [hl.content_eq, run_append, run_buf (({} : PageWriter).run sync) rest, List.take_append,
        List.take_of_length_le hl.reached] at hleft
      exact (List.prefix_append _ _).trans hleft
    obtain ⟨tail, htail⟩ := hle
    rw [hl.readAll_crashed hgarbles, ← htail]
    apply hl.synced_le.trans
    rw [List.prefix_append_right_inj]
    exact bodies_isPrefix_readAll hclearSync tail
  refine ⟨hkeeps, fun hcuts ↦ ⟨hkeeps, ?_⟩⟩
  have hleft := hcuts (formatSegmentName d.writer.segIndex)
  rw [hl.content_eq] at hleft
  rw [hl.readAll_crashed hgarbles, hl.logged_eq, List.prefix_append_right_inj, bodies_append]
  exact (readAll_isPrefix_bodies hclearFlushed hleft).trans (List.prefix_append _ _)

/-! ## Runs -/

def Disk.call (d : Disk) : WriterCall → Bool × Disk
  | .log body calls => d.log body calls
  | .sync calls => d.sync calls
  | .cut calls => d.cut calls

/-- What a call that returns `ok` promises of the journal. -/
def WriterCall.promise (ok : Bool) (j : Journal Bytes) : WriterCall → Journal Bytes
  | .log body _ => if ok then j.append body else j
  | .sync _ => if ok then j.sync else j
  | .cut _ => if ok then j.sync else j

def Disk.runCalls (d : Disk) (j : Journal Bytes) : List WriterCall → Disk × Journal Bytes
  | [] => (d, j)
  | call :: calls => (d.call call).2.runCalls (call.promise (d.call call).1 j) calls

/-- The call finds room, opens the segment it needs, and if it fails then with no byte written and
no record framed. -/
def WriterCall.Steady (w : SegmentWriter) : WriterCall → Prop
  | .log body calls => w.HasRoom body ∧ calls.Harmless w body ∧ calls.FlushPasses w body
  | .sync calls => AllOrNothing calls.write w.pendingLength
  | .cut calls => calls.Harmless w ∧ w.segIndex + 1 < 10 ^ kSegmentNameWidth

def WriterCall.SteadyRun : Disk → List WriterCall → Prop
  | _, [] => True
  | d, call :: calls => call.Steady d.writer ∧ SteadyRun (d.call call).2 calls

instance WriterCall.decidableSteady (w : SegmentWriter) :
    (call : WriterCall) → Decidable (call.Steady w)
  | .log _ _ => inferInstanceAs (Decidable (_ ∧ _ ∧ _))
  | .sync _ => inferInstanceAs (Decidable (AllOrNothing _ _))
  | .cut _ => inferInstanceAs (Decidable (_ ∧ _))

instance WriterCall.decidableSteadyRun : (d : Disk) → (calls : List WriterCall) →
    Decidable (SteadyRun d calls)
  | _, [] => inferInstanceAs (Decidable True)
  | d, call :: calls =>
    have := decidableSteadyRun (d.call call).2 calls
    inferInstanceAs (Decidable (call.Steady d.writer ∧ SteadyRun (d.call call).2 calls))

/-- What is on disk is only recorded: writer and files run as they would without. -/
theorem Disk.runCalls_writer (d : Disk) (j : Journal Bytes) (calls : List WriterCall) :
    (d.runCalls j calls).1.writer = (d.writer.runCalls d.files calls).writer ∧
      (d.runCalls j calls).1.files = (d.writer.runCalls d.files calls).files ∧
      (d.runCalls j calls).2.logged = j.logged ++ (d.writer.runCalls d.files calls).acked := by
  induction calls generalizing d j with
  | nil => exact ⟨rfl, rfl, (List.append_nil _).symm⟩
  | cons call calls ih =>
    have hcall : (d.call call).1 = (d.writer.call d.files call).1 ∧
        (d.call call).2.writer = (d.writer.call d.files call).2.1 ∧
        (d.call call).2.files = (d.writer.call d.files call).2.2 := by
      cases call <;> exact ⟨rfl, rfl, rfl⟩
    have hlogged : (call.promise (d.call call).1 j).logged =
        j.logged ++ call.acked (d.writer.call d.files call).1 := by
      rw [← hcall.1]
      cases call <;> cases (d.call _).1 <;> first | rfl | exact (List.append_nil _).symm
    obtain ⟨hwriter, hfiles, hacked⟩ := ih (d.call call).2 (call.promise (d.call call).1 j)
    rw [hcall.2.1, hcall.2.2] at hwriter hfiles hacked
    rw [hlogged, List.append_assoc] at hacked
    exact ⟨hwriter, hfiles, hacked⟩

theorem OnDisk.call {d : Disk} {j : Journal Bytes} {pend : List PageOp} (h : OnDisk d j pend)
    {call : WriterCall} (hsteady : call.Steady d.writer) :
    ∃ pend', OnDisk (d.call call).2 (call.promise (d.call call).1 j) pend' := by
  rcases hresult : d.call call with ⟨_ | _, d'⟩
  · cases call with
    | log body calls =>
      obtain ⟨hroom, hharmless, hpass⟩ := hsteady
      obtain ⟨pend', h' | ⟨hframed, -⟩⟩ := h.log_false hroom hharmless hresult
      · exact ⟨pend', h'⟩
      · exact absurd hpass hframed
    | sync calls => exact h.sync_false hsteady hresult
    | cut calls => exact h.cut_false hsteady.1 hresult
  · cases call with
    | log body calls => exact ⟨[], h.log_true hsteady.1 hresult⟩
    | sync calls => exact ⟨[], h.sync_true hresult⟩
    | cut calls => exact ⟨[], (h.cut_true hsteady.2 hresult).2⟩

theorem OnDisk.runCalls {d : Disk} {j : Journal Bytes} {pend : List PageOp} (h : OnDisk d j pend)
    (calls : List WriterCall) (hsteady : WriterCall.SteadyRun d calls) :
    ∃ pend', OnDisk (d.runCalls j calls).1 (d.runCalls j calls).2 pend' := by
  induction calls generalizing d j pend with
  | nil => exact ⟨pend, h⟩
  | cons call calls ih =>
    obtain ⟨pend', h'⟩ := h.call hsteady.1
    exact ih h' hsteady.2

/-- After a crash at any point of a run, a reader finds at least the records behind which a sync or a
cut succeeded, and when the crash only cuts files, it finds a first part of the acknowledged ones. -/
theorem crash_leaves {files : Files} (hclean : CleanSegments (segments files))
    (hidx : SegmentWriter.nextIndex files < 10 ^ kSegmentNameWidth) {kept : Kept}
    (hwhole : Whole kept files) (size : Nat) (calls : List WriterCall)
    (hsteady : WriterCall.SteadyRun (Disk.openDir files kept size true).2 calls)
    {left : FileName → Bytes} :
    let run := (Disk.openDir files kept size true).2.runCalls
      (.ofSynced (recordsOf (segments files))) calls
    Garbles run.1.kept run.1.files left →
      run.2.synced <+: (SegmentReader.readAll (segments (run.1.files.crashed left))).1 ∧
        (Cuts run.1.files left →
          run.2.Leaves (SegmentReader.readAll (segments (run.1.files.crashed left))).1) := by
  intro run hgarbles
  obtain ⟨pend, hdisk⟩ := (onDisk_openDir hclean hidx hwhole size).runCalls calls hsteady
  exact hdisk.crash hgarbles

/-- A synced record, and one torn in its header. -/
theorem crash_leaves_torn :
    let calls : List WriterCall := [.log [1] {}, .sync {}, .log [2] {}]
    let run := (Disk.openDir Files.empty (fun _ ↦ 0) 1000 true).2.runCalls (.ofSynced []) calls
    let left : FileName → Bytes := fun name ↦ (run.1.files.content name).take (run.1.kept name + 3)
    run.2.Leaves (SegmentReader.readAll (segments (run.1.files.crashed left))).1 ∧
      run.2.synced = [[1]] ∧ run.2.logged = [[1], [2]] := by
  intro calls run left
  obtain ⟨hgarbles, hcuts⟩ := garbles_take (fun name ↦ Nat.le_add_right (run.1.kept name) 3)
    run.1.files
  refine ⟨?_, by decide, by decide⟩
  exact (@crash_leaves Files.empty (fun _ h ↦ absurd h List.not_mem_nil) (by decide) _
    (fun _ h ↦ absurd h List.not_mem_nil) 1000 calls (by decide) left hgarbles).2 hcuts

end MerlionTsdb.Wal
