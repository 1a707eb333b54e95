import MerlionTsdb.Wal.Durable

/-!
# Failed calls on the segment writer

`Buffered` tells what a reader finds once everything framed so far is flushed.  A call that succeeds
has flushed it all.  A call that fails without a byte written leaves the writer in such a state, and
can be repeated.
-/

namespace MerlionTsdb.Wal

/-! ## Conditions on the answers -/

/-- The answers let `n` bytes through, or none. -/
def AllOrNothing (calls : List WriteResult) (n : Nat) : Prop :=
  ∀ k ∈ bytesBeforeFailure calls, k = 0 ∨ n ≤ k

/-- The answers let `n` bytes through. -/
def Passes (calls : List WriteResult) (n : Nat) : Prop :=
  ∀ k ∈ bytesBeforeFailure calls, n ≤ k

instance (calls : List WriteResult) (n : Nat) : Decidable (AllOrNothing calls n) :=
  match h : bytesBeforeFailure calls with
  | none => isTrue (by simp [AllOrNothing, h])
  | some k => decidable_of_iff (k = 0 ∨ n ≤ k) (by simp [AllOrNothing, h])

instance (calls : List WriteResult) (n : Nat) : Decidable (Passes calls n) :=
  match h : bytesBeforeFailure calls with
  | none => isTrue (by simp [Passes, h])
  | some k => decidable_of_iff (n ≤ k) (by simp [Passes, h])

theorem writeAll_false {calls : List WriteResult} {data written : Bytes}
    (h : writeAll calls data = (false, written)) (hall : AllOrNothing calls data.length) :
    written = [] := by
  rw [writeAll_eq] at h
  split at h
  · cases h
  · rename_i k hk
    split at h
    · cases h
    · rename_i hlt
      cases h
      rcases hall k hk with rfl | hle
      · rfl
      · exact absurd hle hlt

theorem writeAll_passes {calls : List WriteResult} {data : Bytes}
    (hpass : Passes calls data.length) : (writeAll calls data).1 = true := by
  rw [writeAll_eq]
  split
  · rfl
  · rename_i k hk
    rw [if_pos (hpass k hk)]

/-- The bytes framed and not flushed. -/
def SegmentWriter.pendingLength (w : SegmentWriter) : Nat :=
  w.pw.bytes.length - w.flushedBytes

/-- The writer whose bytes the flush of a `log` writes. -/
def SegmentWriter.framed (w : SegmentWriter) (body : Bytes) : SegmentWriter :=
  let w := if w.rollsOver body then w.nextWriter else w
  { w with pw := w.pw.log body }

/-- Room for a record: it is framed in a segment that a reader finds, and not with seven bytes of
the page left. -/
def SegmentWriter.HasRoom (w : SegmentWriter) (body : Bytes) : Prop :=
  if w.rollsOver body then w.segIndex + 1 < 10 ^ kSegmentNameWidth
  else ¬ SevenLeft w.pw.buf.length

/-- If the cut fails, then with no byte written, and never for the new segment's `::open`. -/
def CutCalls.Harmless (w : SegmentWriter) (calls : CutCalls) : Prop :=
  AllOrNothing calls.write { w with pw := w.pw.closePage }.pendingLength ∧ calls.opened = true

/-- If the `log` fails, then with no byte written. -/
def LogCalls.Harmless (w : SegmentWriter) (body : Bytes) (calls : LogCalls) : Prop :=
  (w.rollsOver body = true → calls.cut.Harmless w) ∧
    AllOrNothing calls.write (w.framed body).pendingLength

/-- The record is written once it is framed. -/
def LogCalls.FlushPasses (w : SegmentWriter) (body : Bytes) (calls : LogCalls) : Prop :=
  Passes calls.write (w.framed body).pendingLength

instance (w : SegmentWriter) (body : Bytes) : Decidable (w.HasRoom body) :=
  inferInstanceAs (Decidable (ite _ _ _))

instance (w : SegmentWriter) (calls : CutCalls) : Decidable (calls.Harmless w) :=
  inferInstanceAs (Decidable (_ ∧ _))

instance (w : SegmentWriter) (body : Bytes) (calls : LogCalls) :
    Decidable (calls.Harmless w body) :=
  inferInstanceAs (Decidable ((_ → _) ∧ _))

instance (w : SegmentWriter) (body : Bytes) (calls : LogCalls) :
    Decidable (calls.FlushPasses w body) :=
  inferInstanceAs (Decidable (Passes _ _))

/-! ## Writers with bytes to flush -/

/-- Once the calls `pend` on the page writer are flushed, a reader of the directory finds `recs`. -/
structure Buffered (w : SegmentWriter) (files : Files) (recs : List Bytes) (pend : List PageOp) :
    Prop where
  exists_base : ∃ base done, Writing w files base done pend ∧ CleanSegments (segments base) ∧
    PageOp.ClearRun {} (done ++ pend) ∧
    recs = recordsOf (segments base) ++ PageOp.bodies (done ++ pend)
  index : w.segIndex < 10 ^ kSegmentNameWidth

/-- A writer just opened. -/
theorem buffered_openDir {files : Files} (hclean : CleanSegments (segments files))
    (hidx : SegmentWriter.nextIndex files < 10 ^ kSegmentNameWidth) (size : Nat) :
    Buffered (SegmentWriter.openDir files size true).2.1
      (SegmentWriter.openDir files size true).2.2 (recordsOf (segments files)) [] where
  exists_base :=
    ⟨files, [], ⟨rfl, le_rfl, rfl, rfl, rfl⟩, hclean, trivial, (List.append_nil _).symm⟩
  index := hidx

namespace Buffered

variable {w w' : SegmentWriter} {files files' : Files} {recs : List Bytes} {pend : List PageOp}

theorem opened (h : Buffered w files recs pend) : w.fd = some (formatSegmentName w.segIndex) := by
  obtain ⟨base, done, hwriting, -⟩ := h.exists_base
  exact hwriting.opened

/-- With nothing to flush, a reader finds the records now. -/
theorem readAll (h : Buffered w files recs []) :
    SegmentReader.readAll (segments files) = (recs, .endOfStream) := by
  obtain ⟨base, done, hwriting, hbase, hclear, hrecs⟩ := h.exists_base
  rw [List.append_nil] at hclear hrecs
  exact (Readable.writing base done hwriting h.index hbase hclear hrecs).readAll

theorem frame (h : Buffered w files recs pend) {body : Bytes} (hroom : ¬ SevenLeft w.pw.buf.length) :
    Buffered { w with pw := w.pw.log body } files (recs ++ [body]) (pend ++ [.log body]) where
  exists_base := by
    obtain ⟨base, done, hwriting, hbase, hclear, hrecs⟩ := h.exists_base
    refine ⟨base, done, hwriting.log body, hbase, ?_, ?_⟩
    · rw [← List.append_assoc, clearRun_append, ← hwriting.pw]
      exact ⟨hclear, Or.inr hroom, trivial⟩
    · rw [← List.append_assoc, bodies_append, hrecs, List.append_assoc]
      rfl
  index := h.index

theorem closePage (h : Buffered w files recs pend) :
    Buffered { w with pw := w.pw.closePage } files recs (pend ++ [.closePage]) where
  exists_base := by
    obtain ⟨base, done, hwriting, hbase, hclear, hrecs⟩ := h.exists_base
    refine ⟨base, done, hwriting.closePage, hbase, ?_, ?_⟩
    · rw [← List.append_assoc, clearRun_append]
      exact ⟨hclear, trivial, trivial⟩
    · rw [← List.append_assoc, bodies_append, hrecs]
      congr 1
      exact (List.append_nil _).symm
  index := h.index

/-- A flush that succeeds. -/
theorem flush_true (h : Buffered w files recs pend) {calls : List WriteResult}
    (hwrite : (writeAll calls (w.pw.bytes.drop w.flushedBytes)).1 = true) :
    ∃ files', w.flushPending files calls =
        (true, { w with flushedBytes := w.pw.bytes.length }, files') ∧
      Buffered { w with flushedBytes := w.pw.bytes.length } files' recs [] := by
  obtain ⟨base, done, hwriting, hbase, hclear, hrecs⟩ := h.exists_base
  obtain ⟨files', hflush, hwriting'⟩ := hwriting.flushPending hwrite
  refine ⟨files', hflush, ⟨base, done ++ pend, hwriting', hbase, ?_, ?_⟩, h.index⟩
  · rwa [List.append_nil]
  · rwa [List.append_nil]

/-- A flush that fails with no byte written changes nothing. -/
theorem flush_false (h : Buffered w files recs pend) {calls : List WriteResult}
    (hwrite : (writeAll calls (w.pw.bytes.drop w.flushedBytes)).1 = false)
    (hall : AllOrNothing calls w.pendingLength) :
    w.flushPending files calls = (false, w, files) := by
  obtain ⟨base, done, hwriting, -⟩ := h.exists_base
  have hsame : files.append (formatSegmentName w.segIndex) [] = files := by
    rw [hwriting.file, Files.append_set, List.append_nil]
  have hlength : (w.pw.bytes.drop w.flushedBytes).length = w.pendingLength := List.length_drop
  rcases hresult : writeAll calls (w.pw.bytes.drop w.flushedBytes) with ⟨ok, written⟩
  rw [hresult] at hwrite
  dsimp only at hwrite
  subst hwrite
  have hnone : written = [] := writeAll_false hresult (by rwa [hlength])
  rw [flushPending_opened h.opened, if_neg, hresult]
  · dsimp only
    rw [hnone, hsame]
    rfl
  · -- Nothing to flush, nothing to fail.
    intro hle
    rw [List.drop_eq_nil_of_le hle] at hresult
    cases calls <;> cases hresult

/-! ### Cuts -/

/-- A cut whose writes go through. -/
theorem cut_flushed (h : Buffered w files recs pend) {calls : CutCalls}
    (hwrite : (writeAll calls.write (w.pw.closePage.bytes.drop w.flushedBytes)).1 = true) :
    ∃ files', Buffered w.closed files' recs [] ∧
      (w.segIndex + 1 < 10 ^ kSegmentNameWidth →
        Buffered w.nextWriter (files'.set (formatSegmentName (w.segIndex + 1)) []) recs []) ∧
      w.cut files calls =
        if calls.fsync && calls.close then
          if calls.opened then
            (true, w.nextWriter, files'.set (formatSegmentName (w.segIndex + 1)) [])
          else (false, { w.closed with fd := none, segIndex := w.segIndex + 1 }, files')
        else (false, w.closed, files') := by
  obtain ⟨base, done, hwriting, hbase, hclear, hrecs⟩ := h.exists_base
  obtain ⟨files', hclosed, hcut⟩ := hwriting.cut hwrite
  have hclear' : PageOp.ClearRun {} (done ++ (pend ++ [.closePage])) := by
    rw [← List.append_assoc, clearRun_append]
    exact ⟨hclear, trivial, trivial⟩
  have hrecs' : recs = recordsOf (segments base) ++
      PageOp.bodies (done ++ (pend ++ [.closePage])) := by
    rw [← List.append_assoc, bodies_append, hrecs]
    congr 1
    exact (List.append_nil _).symm
  obtain ⟨hclean, hrecords⟩ := hclosed.clean h.index hbase hclear'
  refine ⟨files', ⟨⟨base, _, hclosed, hbase, ?_, ?_⟩, h.index⟩, ?_, hcut⟩
  · rwa [List.append_nil]
  · rwa [List.append_nil]
  · intro hidx
    refine ⟨⟨files', [], hclosed.openNewSegment h.index w.segmentSize, hclean, trivial, ?_⟩, hidx⟩
    rw [hrecs', hrecords]
    exact (List.append_nil _).symm

theorem cut_true (h : Buffered w files recs pend) {calls : CutCalls}
    (hidx : w.segIndex + 1 < 10 ^ kSegmentNameWidth)
    (hcut : w.cut files calls = (true, w', files')) :
    w' = w.nextWriter ∧ Buffered w' files' recs [] := by
  cases hwrite : (writeAll calls.write (w.pw.closePage.bytes.drop w.flushedBytes)).1 with
  | false =>
    -- The flush fails, and with it the cut.
    have hfd : { w with pw := w.pw.closePage }.fd = some (formatSegmentName w.segIndex) := h.opened
    have hflush := flushPending_fst hfd files calls.write
    rw [hwrite] at hflush
    unfold SegmentWriter.cut at hcut
    rw [if_neg (by rw [h.opened]; exact Bool.false_ne_true)] at hcut
    dsimp only at hcut
    rcases hresult : SegmentWriter.flushPending { w with pw := w.pw.closePage } files calls.write
      with ⟨_ | _, w₁, files₁⟩
    · rw [hresult] at hcut
      cases hcut
    · rw [hresult] at hflush
      cases hflush
  | true =>
    obtain ⟨files₁, -, hnext, hresult⟩ := h.cut_flushed hwrite
    rw [hresult] at hcut
    split at hcut
    · split at hcut
      · cases hcut
        exact ⟨rfl, hnext hidx⟩
      · cases hcut
    · cases hcut

theorem cut_false (h : Buffered w files recs pend) {calls : CutCalls} (hharmless : calls.Harmless w)
    (hcut : w.cut files calls = (false, w', files')) : ∃ pend', Buffered w' files' recs pend' := by
  cases hwrite : (writeAll calls.write (w.pw.closePage.bytes.drop w.flushedBytes)).1 with
  | false =>
    have hflush := h.closePage.flush_false hwrite hharmless.1
    unfold SegmentWriter.cut at hcut
    rw [if_neg (by rw [h.opened]; exact Bool.false_ne_true)] at hcut
    dsimp only at hcut
    rw [hflush] at hcut
    cases hcut
    exact ⟨_, h.closePage⟩
  | true =>
    obtain ⟨files₁, hclosed, -, hresult⟩ := h.cut_flushed hwrite
    rw [hresult, hharmless.2, if_pos rfl] at hcut
    split at hcut
    · cases hcut
    · cases hcut
      exact ⟨_, hclosed⟩

/-! ### Records -/

/-- A `log` fails in its cut, or flushes the framed record. -/
theorem log_cases (h : Buffered w files recs pend) {body : Bytes} {calls : LogCalls} {ok : Bool}
    (hroom : w.HasRoom body) (hlog : w.log files body calls = (ok, w', files')) :
    (ok = false ∧ w.rollsOver body = true ∧ w.cut files calls.cut = (false, w', files')) ∨
      ∃ files₁ pend₁, Buffered (w.framed body) files₁ (recs ++ [body]) pend₁ ∧
        (w.framed body).flushPending files₁ calls.write = (ok, w', files') := by
  unfold SegmentWriter.HasRoom at hroom
  unfold SegmentWriter.log at hlog
  unfold SegmentWriter.framed
  by_cases hrolls : w.rollsOver body = true
  · rw [if_pos hrolls] at hroom hlog ⊢
    rcases hcut : w.cut files calls.cut with ⟨_ | _, w₁, files₁⟩
    · rw [hcut] at hlog
      cases hlog
      exact Or.inl ⟨rfl, hrolls, rfl⟩
    · obtain ⟨rfl, hnext⟩ := h.cut_true hroom hcut
      rw [hcut] at hlog
      have hfresh : ¬ SevenLeft ({} : PageWriter).buf.length := by decide
      exact Or.inr ⟨files₁, _, hnext.frame hfresh, hlog⟩
  · rw [if_neg hrolls] at hroom hlog ⊢
    exact Or.inr ⟨files, _, h.frame hroom, hlog⟩

/-- A `log` that succeeds: the record is there, and nothing is left to flush. -/
theorem log_true (h : Buffered w files recs pend) {body : Bytes} {calls : LogCalls}
    (hroom : w.HasRoom body) (hlog : w.log files body calls = (true, w', files')) :
    Buffered w' files' (recs ++ [body]) [] := by
  rcases h.log_cases hroom hlog with ⟨hok, -⟩ | ⟨files₁, pend₁, hframed, hflush⟩
  · cases hok
  · have hwrite := flushPending_fst hframed.opened files₁ calls.write
    rw [hflush] at hwrite
    obtain ⟨files₂, hresult, hflushed⟩ := hframed.flush_true hwrite.symm
    rw [hflush] at hresult
    cases hresult
    exact hflushed

/-- A `log` that fails: the record is not framed, or it is and its flush failed. -/
theorem log_false (h : Buffered w files recs pend) {body : Bytes} {calls : LogCalls}
    (hroom : w.HasRoom body) (hharmless : calls.Harmless w body)
    (hlog : w.log files body calls = (false, w', files')) :
    ∃ pend', Buffered w' files' recs pend' ∨
      (¬ calls.FlushPasses w body ∧ Buffered w' files' (recs ++ [body]) pend') := by
  rcases h.log_cases hroom hlog with ⟨-, hrolls, hcut⟩ | ⟨files₁, pend₁, hframed, hflush⟩
  · obtain ⟨pend', h'⟩ := h.cut_false (hharmless.1 hrolls) hcut
    exact ⟨pend', Or.inl h'⟩
  · have hwrite := flushPending_fst hframed.opened files₁ calls.write
    rw [hflush] at hwrite
    have hsame := hframed.flush_false hwrite.symm hharmless.2
    rw [hflush] at hsame
    cases hsame
    refine ⟨pend₁, Or.inr ⟨?_, hframed⟩⟩
    intro hpass
    have hok : (writeAll calls.write
        ((w.framed body).pw.bytes.drop (w.framed body).flushedBytes)).1 = true := by
      apply writeAll_passes
      rw [List.length_drop]
      exact hpass
    rw [← hwrite] at hok
    cases hok

/-! ### Syncs -/

theorem sync_true (h : Buffered w files recs pend) {calls : SyncCalls}
    (hsync : w.sync files calls = (true, w', files')) : Buffered w' files' recs [] := by
  unfold SegmentWriter.sync at hsync
  rw [if_neg (by rw [h.opened]; exact Bool.false_ne_true)] at hsync
  have hwrite := flushPending_fst h.opened files calls.write
  rcases hflush : w.flushPending files calls.write with ⟨_ | _, w₁, files₁⟩
  · rw [hflush] at hsync
    cases hsync
  · rw [hflush] at hsync hwrite
    obtain ⟨files₂, hresult, hflushed⟩ := h.flush_true hwrite.symm
    rw [hflush] at hresult
    cases hresult
    rw [Prod.mk.injEq, Prod.mk.injEq] at hsync
    obtain ⟨-, rfl, rfl⟩ := hsync
    exact hflushed

theorem sync_false (h : Buffered w files recs pend) {calls : SyncCalls}
    (hall : AllOrNothing calls.write w.pendingLength)
    (hsync : w.sync files calls = (false, w', files')) : ∃ pend', Buffered w' files' recs pend' := by
  unfold SegmentWriter.sync at hsync
  rw [if_neg (by rw [h.opened]; exact Bool.false_ne_true)] at hsync
  cases hwrite : (writeAll calls.write (w.pw.bytes.drop w.flushedBytes)).1 with
  | false =>
    rw [h.flush_false hwrite hall] at hsync
    cases hsync
    exact ⟨_, h⟩
  | true =>
    -- Flushed, and then the `::fsync` failed.
    obtain ⟨files₂, hresult, hflushed⟩ := h.flush_true hwrite
    rw [hresult] at hsync
    dsimp only at hsync
    rw [Prod.mk.injEq, Prod.mk.injEq] at hsync
    obtain ⟨-, rfl, rfl⟩ := hsync
    exact ⟨_, hflushed⟩

end Buffered
end MerlionTsdb.Wal
