import MerlionTsdb.Wal.Directory
import MerlionTsdb.Wal.SegmentRead
import MerlionTsdb.Wal.PageRoundtrip

/-!
# The segment writer and its directory

`Writing` relates a writer to the files: the last segment holds what was flushed of the calls made
on the page writer, and the writer keeps the rest.  From it, what a reader of the directory finds
after any run of `log`, `sync` and `cut`.
-/

namespace MerlionTsdb.Wal

/-! ## Writes -/

/-- A `::write` call that makes progress, or is to be repeated. -/
def WriteResult.Succeeds : WriteResult → Prop
  | .wrote n => 0 < n
  | .interrupted => True
  | .failed => False

/-- How many bytes the answers let through before the first failure; `none` when there is none. -/
def bytesBeforeFailure : List WriteResult → Option Nat
  | [] => none
  | .interrupted :: results => bytesBeforeFailure results
  | .failed :: _ => some 0
  | .wrote n :: results => if n = 0 then some 0 else (bytesBeforeFailure results).map (n + ·)

theorem writeAll_eq (calls : List WriteResult) (data : Bytes) :
    writeAll calls data =
      match bytesBeforeFailure calls with
      | none => (true, data)
      | some k => if data.length ≤ k then (true, data) else (false, data.take k) := by
  induction calls generalizing data with
  | nil => cases data <;> rfl
  | cons r calls ih =>
    cases data with
    | nil =>
      -- Nothing to write: no call is made.
      have hnil : writeAll (r :: calls) [] = (true, []) := rfl
      rw [hnil]
      cases bytesBeforeFailure (r :: calls) with
      | none => rfl
      | some k => exact (if_pos (Nat.zero_le k)).symm
    | cons b data =>
      cases r with
      | interrupted =>
        rw [bytesBeforeFailure, ← ih, writeAll]
        exact List.cons_ne_nil _ _
      | failed => rfl
      | wrote n =>
        rw [writeAll, bytesBeforeFailure]
        · cases n with
          | zero =>
            rw [if_pos (Nat.zero_min _), if_pos rfl]
            rfl
          | succ n =>
            have hmin : ¬ min (n + 1) (b :: data).length = 0 := by
              rw [List.length_cons]
              omega
            rw [if_neg hmin, if_neg (Nat.succ_ne_zero n), ih]
            cases bytesBeforeFailure calls with
            | none =>
              dsimp only [Option.map_none]
              rw [List.take_append_drop]
            | some k =>
              dsimp only [Option.map_some]
              rw [List.length_drop]
              by_cases hle : (b :: data).length ≤ n + 1 + k
              · rw [if_pos (by omega), if_pos hle]
                dsimp only
                rw [List.take_append_drop]
              · rw [if_neg (by omega), if_neg hle]
                dsimp only
                rw [← List.take_add]
        · exact List.cons_ne_nil _ _

/-- A `write_all` that succeeds writes everything. -/
theorem writeAll_true {calls : List WriteResult} {data written : Bytes}
    (h : writeAll calls data = (true, written)) : written = data := by
  rw [writeAll_eq] at h
  split at h
  · cases h
    rfl
  · split at h
    · cases h
      rfl
    · cases h

theorem bytesBeforeFailure_succeeds {calls : List WriteResult} (h : ∀ r ∈ calls, r.Succeeds) :
    bytesBeforeFailure calls = none := by
  induction calls with
  | nil => rfl
  | cons r calls ih =>
    have hrest := ih fun r' hr' ↦ h r' (List.mem_cons_of_mem _ hr')
    have hr := h r List.mem_cons_self
    cases r with
    | wrote n =>
      have hn : 0 < n := hr
      rw [bytesBeforeFailure, if_neg (Nat.ne_of_gt hn), hrest]
      rfl
    | interrupted =>
      rw [bytesBeforeFailure]
      exact hrest
    | failed => exact hr.elim

theorem writeAll_of_succeeds {calls : List WriteResult} (h : ∀ r ∈ calls, r.Succeeds)
    (data : Bytes) : writeAll calls data = (true, data) := by
  rw [writeAll_eq, bytesBeforeFailure_succeeds h]

theorem writeAll_succeeds {calls : List WriteResult} (h : ∀ r ∈ calls, r.Succeeds) (data : Bytes) :
    (writeAll calls data).1 = true := by
  rw [writeAll_of_succeeds h]

theorem flushPending_opened {w : SegmentWriter} {name : FileName} (h : w.fd = some name)
    (files : Files) (calls : List WriteResult) :
    w.flushPending files calls =
      if w.pw.bytes.length ≤ w.flushedBytes then (true, w, files)
      else
        let (ok, written) := writeAll calls (w.pw.bytes.drop w.flushedBytes)
        if ok then (true, { w with flushedBytes := w.pw.bytes.length }, files.append name written)
        else (false, w, files.append name written) := by
  unfold SegmentWriter.flushPending
  split
  · rename_i hnone
    rw [h] at hnone
    cases hnone
  · rename_i name' hsome
    rw [h] at hsome
    cases hsome
    rfl

/-- Whether a flush succeeds is whether its writes do. -/
theorem flushPending_fst {w : SegmentWriter} {name : FileName} (h : w.fd = some name)
    (files : Files) (calls : List WriteResult) :
    (w.flushPending files calls).1 = (writeAll calls (w.pw.bytes.drop w.flushedBytes)).1 := by
  rw [flushPending_opened h]
  split
  · rename_i hle
    rw [List.drop_eq_nil_of_le hle]
    cases calls <;> rfl
  · dsimp only
    split
    · rename_i hok
      exact hok.symm
    · rename_i hok
      exact (Bool.eq_false_iff.mpr hok).symm

theorem flushPending_segIndex (w : SegmentWriter) (files : Files) (calls : List WriteResult) :
    (w.flushPending files calls).2.1.segIndex = w.segIndex := by
  unfold SegmentWriter.flushPending
  split
  · rfl
  split
  · rfl
  dsimp only
  split <;> rfl

/-- A cut that succeeds made all its calls, and the new segment is open. -/
theorem cut_ok {w w' : SegmentWriter} {files files' : Files} {calls : CutCalls}
    (hopen : w.fd.isSome) (h : w.cut files calls = (true, w', files')) :
    (calls.fsync && calls.close && calls.opened) = true ∧
      w'.fd = some (formatSegmentName w'.segIndex) ∧ w'.segIndex = w.segIndex + 1 ∧ w'.pw = {} := by
  have hidx := flushPending_segIndex { w with pw := w.pw.closePage } files calls.write
  unfold SegmentWriter.cut at h
  rw [if_neg (by rw [Option.isNone_iff_eq_none]; exact Option.isSome_iff_ne_none.mp hopen)] at h
  dsimp only at h
  rcases hflush : SegmentWriter.flushPending { w with pw := w.pw.closePage } files calls.write with
    ⟨_ | _, w'', files''⟩
  · rw [hflush] at h
    cases h
  rw [hflush] at h hidx
  dsimp only at h hidx
  cases hfsync : calls.fsync <;> rw [hfsync] at h
  · cases h
  cases hclose : calls.close <;> rw [hclose] at h
  · cases h
  cases hopened : calls.opened <;> rw [hopened] at h
  · cases h
  cases h
  exact ⟨rfl, rfl, by dsimp only; rw [hidx], rfl⟩

/-- The writer after the flush of a cut. -/
def SegmentWriter.closed (w : SegmentWriter) : SegmentWriter :=
  { w with pw := w.pw.closePage, flushedBytes := w.pw.closePage.bytes.length }

/-- The writer after a cut. -/
def SegmentWriter.nextWriter (w : SegmentWriter) : SegmentWriter :=
  { segmentSize := w.segmentSize, segIndex := w.segIndex + 1,
    fd := some (formatSegmentName (w.segIndex + 1)) }

/-! ## The writer and the last segment -/

theorem run_append (w : PageWriter) (ops ops' : List PageOp) :
    w.run (ops ++ ops') = (w.run ops).run ops' :=
  List.foldl_append

/-- `base` holds the earlier segments, `done` the calls on the page writer whose bytes are in the
file, and `pend` those still to be flushed. -/
structure Writing (w : SegmentWriter) (files base : Files) (done pend : List PageOp) : Prop where
  opened : w.fd = some (formatSegmentName w.segIndex)
  fresh : SegmentWriter.nextIndex base ≤ w.segIndex
  pw : w.pw = ({} : PageWriter).run (done ++ pend)
  flushed : w.flushedBytes = (({} : PageWriter).run done).buf.length
  file : files = base.set (formatSegmentName w.segIndex) (({} : PageWriter).run done).buf

namespace Writing

variable {w : SegmentWriter} {files base : Files} {done pend : List PageOp}

/-- The bytes still to be flushed. -/
theorem pending_bytes (h : Writing w files base done pend) :
    w.pw.bytes = (({} : PageWriter).run done).buf ++ w.pw.bytes.drop w.flushedBytes := by
  have hbuf := run_buf (({} : PageWriter).run done) pend
  rw [PageWriter.bytes, h.pw, run_append, hbuf, h.flushed, List.drop_left' rfl]

theorem log (h : Writing w files base done pend) (body : Bytes) :
    Writing { w with pw := w.pw.log body } files base done (pend ++ [.log body]) where
  opened := h.opened
  fresh := h.fresh
  pw := by
    dsimp only
    rw [h.pw, ← List.append_assoc, run_append _ (done ++ pend)]
    rfl
  flushed := h.flushed
  file := h.file

theorem closePage (h : Writing w files base done pend) :
    Writing { w with pw := w.pw.closePage } files base done (pend ++ [.closePage]) where
  opened := h.opened
  fresh := h.fresh
  pw := by
    dsimp only
    rw [h.pw, ← List.append_assoc, run_append _ (done ++ pend)]
    rfl
  flushed := h.flushed
  file := h.file

/-- A flush that writes everything. -/
theorem flushPending (h : Writing w files base done pend) {calls : List WriteResult}
    (hcalls : (writeAll calls (w.pw.bytes.drop w.flushedBytes)).1 = true) :
    ∃ files', w.flushPending files calls =
        (true, { w with flushedBytes := w.pw.bytes.length }, files') ∧
      Writing { w with flushedBytes := w.pw.bytes.length } files' base (done ++ pend) [] := by
  have hbytes := h.pending_bytes
  have hlen := congrArg List.length hbytes
  rw [List.length_append, ← h.flushed] at hlen
  rw [flushPending_opened h.opened]
  by_cases hnone : w.pw.bytes.length ≤ w.flushedBytes
  · -- Nothing is pending, so the call changes nothing.
    have heq : w.pw.bytes.length = w.flushedBytes := by omega
    have hsame : w.pw.bytes = (({} : PageWriter).run done).buf := by
      rw [List.drop_eq_nil_of_le hnone, List.append_nil] at hbytes
      exact hbytes
    rw [if_pos hnone, heq]
    refine ⟨files, rfl, h.opened, h.fresh, ?_, ?_, ?_⟩
    · rw [List.append_nil]
      exact h.pw
    · rw [← h.pw, ← heq]
      rfl
    · rw [h.file, ← h.pw, ← hsame]
      rfl
  · -- The pending bytes end up behind those in the file.
    have hwrite : writeAll calls (w.pw.bytes.drop w.flushedBytes) =
        (true, w.pw.bytes.drop w.flushedBytes) := by
      rcases hresult : writeAll calls (w.pw.bytes.drop w.flushedBytes) with ⟨ok, written⟩
      rw [hresult] at hcalls
      dsimp only at hcalls
      subst hcalls
      rw [writeAll_true hresult]
    rw [if_neg hnone, hwrite]
    dsimp only
    refine ⟨_, rfl, h.opened, h.fresh, ?_, ?_, ?_⟩
    · rw [List.append_nil]
      exact h.pw
    · rw [← h.pw]
      rfl
    · rw [h.file, Files.append_set, ← hbytes, ← h.pw]
      rfl

/-- The segment opened by a cut. -/
theorem openNewSegment (h : Writing w files base done pend)
    (hidx : w.segIndex < 10 ^ kSegmentNameWidth) (size : Nat) :
    Writing
      { segmentSize := size, segIndex := w.segIndex + 1,
        fd := some (formatSegmentName (w.segIndex + 1)) }
      (files.set (formatSegmentName (w.segIndex + 1)) []) files [] [] where
  opened := rfl
  fresh := by
    rw [h.file, nextIndex_set_new h.fresh hidx]
  pw := rfl
  flushed := rfl
  file := rfl

/-- What a reader of the directory finds. -/
theorem segments_eq (h : Writing w files base done pend)
    (hidx : w.segIndex < 10 ^ kSegmentNameWidth) :
    segments files = segments base ++ [(({} : PageWriter).run done).bytes] := by
  rw [h.file, segments_set_new h.fresh hidx]
  rfl

theorem clean (h : Writing w files base done pend) (hidx : w.segIndex < 10 ^ kSegmentNameWidth)
    (hbase : CleanSegments (segments base)) (hclear : PageOp.ClearRun {} done) :
    CleanSegments (segments files) ∧
      recordsOf (segments files) = recordsOf (segments base) ++ PageOp.bodies done := by
  have hread := (readAll_run_iff done).mpr hclear
  rw [h.segments_eq hidx]
  constructor
  · intro seg hseg
    rcases List.mem_append.mp hseg with hseg | hseg
    · exact hbase seg hseg
    · rw [List.mem_singleton.mp hseg, hread]
  · rw [recordsOf_append]
    simp [recordsOf, hread]

/-- A cut whose writes succeed, by the answers of the other calls. -/
theorem cut (h : Writing w files base done pend) {calls : CutCalls}
    (hcalls : (writeAll calls.write (w.pw.closePage.bytes.drop w.flushedBytes)).1 = true) :
    ∃ files', Writing w.closed files' base (done ++ (pend ++ [.closePage])) [] ∧
      w.cut files calls =
        if calls.fsync && calls.close then
          if calls.opened then
            (true, w.nextWriter, files'.set (formatSegmentName (w.segIndex + 1)) [])
          else (false, { w.closed with fd := none, segIndex := w.segIndex + 1 }, files')
        else (false, w.closed, files') := by
  obtain ⟨files', hflush, hwriting⟩ := h.closePage.flushPending hcalls
  refine ⟨files', hwriting, ?_⟩
  rw [SegmentWriter.cut, if_neg (by rw [h.opened]; exact Bool.false_ne_true)]
  dsimp only
  rw [hflush]
  dsimp only
  cases calls.fsync
  · rfl
  cases calls.close
  · rfl
  cases calls.opened <;> rfl

end Writing

/-! ## Runs of the segment writer -/

/-- A call on a `SegmentWriter`, with the answers of the system calls it makes. -/
inductive WriterCall
  | log (body : Bytes) (calls : LogCalls)
  | sync (calls : SyncCalls)
  | cut (calls : CutCalls)
  deriving DecidableEq, Repr

/-- Every `::write` of the call succeeds. -/
def WriterCall.WritesSucceed : WriterCall → Prop
  | .log _ calls => (∀ r ∈ calls.cut.write, r.Succeeds) ∧ ∀ r ∈ calls.write, r.Succeeds
  | .sync calls => ∀ r ∈ calls.write, r.Succeeds
  | .cut calls => ∀ r ∈ calls.write, r.Succeeds

/-- The body a call acknowledges when it returns `ok`. -/
def WriterCall.acked (ok : Bool) : WriterCall → List Bytes
  | .log body _ => if ok then [body] else []
  | .sync _ => []
  | .cut _ => []

def SegmentWriter.call (w : SegmentWriter) (files : Files) :
    WriterCall → Bool × SegmentWriter × Files
  | .log body calls => w.log files body calls
  | .sync calls => w.sync files calls
  | .cut calls => w.cut files calls

/-- What the calls returned, the bodies acknowledged, and where the run ends. -/
structure WriterRun where
  results : List Bool
  acked : List Bytes
  writer : SegmentWriter
  files : Files

def SegmentWriter.runCalls (w : SegmentWriter) (files : Files) : List WriterCall → WriterRun
  | [] => ⟨[], [], w, files⟩
  | call :: calls =>
    let (ok, w, files) := w.call files call
    let run := w.runCalls files calls
    { run with results := ok :: run.results, acked := call.acked ok ++ run.acked }

/-- A record is logged only with a segment open: never behind a cut whose `::open` failed, nor in a
file whose name is no segment name, nor with seven bytes of the page left. -/
def WriterCall.Safe (w : SegmentWriter) : WriterCall → Prop
  | .log body calls =>
    w.fd.isSome ∧
      if w.rollsOver body then
        (calls.cut.fsync && calls.cut.close && calls.cut.opened) = true →
          w.segIndex + 1 < 10 ^ kSegmentNameWidth
      else w.segIndex < 10 ^ kSegmentNameWidth ∧ (body = [] ∨ ¬ SevenLeft w.pw.buf.length)
  | .sync _ => True
  | .cut _ => True

def WriterCall.SafeRun : SegmentWriter → Files → List WriterCall → Prop
  | _, _, [] => True
  | w, files, call :: calls =>
    call.Safe w ∧ SafeRun (w.call files call).2.1 (w.call files call).2.2 calls

instance WriterCall.decidableSafe (w : SegmentWriter) : (call : WriterCall) → Decidable (call.Safe w)
  | .log _ _ => inferInstanceAs (Decidable (_ ∧ ite _ _ _))
  | .sync _ => inferInstanceAs (Decidable True)
  | .cut _ => inferInstanceAs (Decidable True)

instance WriterCall.decidableSafeRun : (w : SegmentWriter) → (files : Files) →
    (calls : List WriterCall) → Decidable (SafeRun w files calls)
  | _, _, [] => inferInstanceAs (Decidable True)
  | w, files, call :: calls =>
    have := decidableSafeRun (w.call files call).2.1 (w.call files call).2.2 calls
    inferInstanceAs (Decidable (call.Safe w ∧ SafeRun _ _ calls))

/-- The file being written, if there is one, is no segment. -/
def Foreign (w : SegmentWriter) : Prop :=
  ∀ name, w.fd = some name →
    name = formatSegmentName w.segIndex ∧ 10 ^ kSegmentNameWidth ≤ w.segIndex

/-- A reader of the directory finds `recs`, and the writer is at the last segment or idle. -/
inductive Readable (w : SegmentWriter) (files : Files) (recs : List Bytes) : Prop
  | writing (base : Files) (done : List PageOp) (writing : Writing w files base done [])
      (index : w.segIndex < 10 ^ kSegmentNameWidth) (clean : CleanSegments (segments base))
      (clear : PageOp.ClearRun {} done)
      (recs_eq : recs = recordsOf (segments base) ++ PageOp.bodies done)
  | idle (clean : CleanSegments (segments files)) (recs_eq : recs = recordsOf (segments files))
      (foreign : Foreign w)

theorem clearRun_append (w : PageWriter) (ops ops' : List PageOp) :
    PageOp.ClearRun w (ops ++ ops') ↔ PageOp.ClearRun w ops ∧ PageOp.ClearRun (w.run ops) ops' := by
  induction ops generalizing w with
  | nil => simp [PageOp.ClearRun, PageWriter.run]
  | cons op ops ih =>
    rw [List.cons_append, PageOp.ClearRun, PageOp.ClearRun, ih, and_assoc]
    rfl

theorem bodies_append (ops ops' : List PageOp) :
    PageOp.bodies (ops ++ ops') = PageOp.bodies ops ++ PageOp.bodies ops' := by
  induction ops with
  | nil => rfl
  | cons op ops ih => cases op <;> simp [PageOp.bodies, ih]

theorem Readable.readAll {w : SegmentWriter} {files : Files} {recs : List Bytes}
    (h : Readable w files recs) : SegmentReader.readAll (segments files) = (recs, .endOfStream) := by
  rw [SegmentReader.readAll_eq]
  cases h with
  | writing base done hwriting hidx hbase hclear hrecs =>
    obtain ⟨hclean, hrecords⟩ := hwriting.clean hidx hbase hclear
    rw [joinSegments_of_clean hclean, hrecords, hrecs]
  | idle hclean hrecs => rw [joinSegments_of_clean hclean, hrecs]

/-- A flush to a file that is no segment. -/
theorem flushPending_foreign {w : SegmentWriter} (hforeign : Foreign w) (files : Files)
    (calls : List WriteResult) :
    Foreign (w.flushPending files calls).2.1 ∧
      (w.flushPending files calls).2.1.segIndex = w.segIndex ∧
      segments (w.flushPending files calls).2.2 = segments files := by
  cases hfd : w.fd with
  | none =>
    have hflush : w.flushPending files calls = (true, w, files) := by
      unfold SegmentWriter.flushPending
      rw [hfd]
    rw [hflush]
    exact ⟨hforeign, rfl, rfl⟩
  | some name =>
    obtain ⟨rfl, hidx⟩ := hforeign name hfd
    have hsegments : ∀ written, segments (files.append (formatSegmentName w.segIndex) written) =
        segments files :=
      fun _ ↦ segments_set_foreign (parseSegmentName_format_of_le hidx) files _
    rw [flushPending_opened hfd]
    split
    · exact ⟨hforeign, rfl, rfl⟩
    · dsimp only
      split
      · exact ⟨hforeign, rfl, hsegments _⟩
      · exact ⟨hforeign, rfl, hsegments _⟩

/-- A cut without a segment open changes no segment. -/
theorem cut_foreign {w : SegmentWriter} (hforeign : Foreign w) (files : Files) (calls : CutCalls) :
    Foreign (w.cut files calls).2.1 ∧ segments (w.cut files calls).2.2 = segments files := by
  unfold SegmentWriter.cut
  by_cases hnone : w.fd.isNone = true
  · rw [if_pos hnone]
    exact ⟨hforeign, rfl⟩
  rw [if_neg hnone]
  have hidx : 10 ^ kSegmentNameWidth ≤ w.segIndex := by
    cases hfd : w.fd with
    | none => exact absurd (by rw [hfd]; rfl) hnone
    | some name => exact (hforeign name hfd).2
  have hpadded : Foreign { w with pw := w.pw.closePage } := hforeign
  obtain ⟨hforeign', hidx', hsegments⟩ := flushPending_foreign hpadded files calls.write
  -- The number only grows, so the next name is not listed either.
  dsimp only
  rcases hflush : SegmentWriter.flushPending { w with pw := w.pw.closePage } files calls.write with
    ⟨_ | _, w', files'⟩
  all_goals
    rw [hflush] at hforeign' hidx' hsegments
    dsimp only at hforeign' hidx' hsegments
  · exact ⟨hforeign', hsegments⟩
  · dsimp only
    cases calls.fsync
    · exact ⟨hforeign', hsegments⟩
    cases calls.close
    · exact ⟨hforeign', hsegments⟩
    cases calls.opened
    · exact ⟨fun _ h ↦ (by cases h), hsegments⟩
    · have hnext : 10 ^ kSegmentNameWidth ≤ w'.segIndex + 1 := by omega
      refine ⟨fun name h ↦ ?_, ?_⟩
      · cases h
        exact ⟨rfl, hnext⟩
      · rw [← hsegments]
        exact segments_set_foreign (parseSegmentName_format_of_le hnext) files' []

/-- What one call does to what a reader finds. -/
theorem Readable.cut {w : SegmentWriter} {files : Files} {recs : List Bytes} {calls : CutCalls}
    (h : Readable w files recs) (hwrite : ∀ r ∈ calls.write, r.Succeeds) :
    Readable (w.cut files calls).2.1 (w.cut files calls).2.2 recs := by
  cases h with
  | writing base done hwriting hidx hbase hclear hrecs =>
    obtain ⟨files', hclosed, hcut⟩ := hwriting.cut (writeAll_succeeds hwrite _)
    have hclear' : PageOp.ClearRun {} (done ++ [.closePage]) :=
      (clearRun_append _ _ _).mpr ⟨hclear, trivial, trivial⟩
    have hbodies : PageOp.bodies (done ++ [.closePage]) = PageOp.bodies done := by
      rw [bodies_append]
      exact List.append_nil _
    obtain ⟨hclean, hrecords⟩ := hclosed.clean hidx hbase hclear'
    have hrecs' : recs = recordsOf (segments files') := by
      rw [hrecs, hrecords, List.nil_append, hbodies]
    rw [hcut]
    cases calls.fsync && calls.close
    · -- The segment stays open behind its padded page.
      exact .writing base _ hclosed hidx hbase hclear' (by rw [hrecs, List.nil_append, hbodies])
    cases calls.opened
    · exact .idle hclean hrecs' fun _ h ↦ by cases h
    -- A number of nine digits gives a name that readers do not list.
    by_cases hnext : w.segIndex + 1 < 10 ^ kSegmentNameWidth
    · refine .writing files' [] (hclosed.openNewSegment hidx w.segmentSize) hnext hclean trivial ?_
      rw [hrecs']
      exact (List.append_nil _).symm
    · have hforeign : segments (files'.set (formatSegmentName (w.segIndex + 1)) []) =
          segments files' :=
        segments_set_foreign (parseSegmentName_format_of_le (by omega)) _ _
      refine .idle ?_ ?_ ?_
      · change CleanSegments (segments (files'.set _ []))
        rwa [hforeign]
      · change recs = recordsOf (segments (files'.set _ []))
        rw [hforeign, hrecs']
      · intro name hname
        cases hname
        exact ⟨rfl, Nat.le_of_not_lt hnext⟩
  | idle hclean hrecs hforeign =>
    obtain ⟨hforeign', hsegments⟩ := cut_foreign hforeign files calls
    exact .idle (by rwa [hsegments]) (by rw [hsegments, hrecs]) hforeign'

theorem Readable.sync {w : SegmentWriter} {files : Files} {recs : List Bytes} {calls : SyncCalls}
    (h : Readable w files recs) (hwrite : ∀ r ∈ calls.write, r.Succeeds) :
    Readable (w.sync files calls).2.1 (w.sync files calls).2.2 recs := by
  unfold SegmentWriter.sync
  split
  · exact h
  cases h with
  | writing base done hwriting hidx hbase hclear hrecs =>
    obtain ⟨files', hflush, hwriting'⟩ := hwriting.flushPending (writeAll_succeeds hwrite _)
    rw [List.append_nil] at hwriting'
    rw [hflush]
    exact .writing base done hwriting' hidx hbase hclear hrecs
  | idle hclean hrecs hforeign =>
    obtain ⟨hforeign', -, hsegments⟩ := flushPending_foreign hforeign files calls.write
    rcases hflush : w.flushPending files calls.write with ⟨_ | _, w', files'⟩
    all_goals
      rw [hflush] at hforeign' hsegments
      dsimp only at hforeign' hsegments
      exact .idle (by rwa [hsegments]) (by rw [hsegments, hrecs]) hforeign'

/-- A record logged with a segment open. -/
theorem Readable.logOpen {w : SegmentWriter} {files base : Files} {done : List PageOp}
    {recs : List Bytes} {body : Bytes} {calls : List WriteResult}
    (hwriting : Writing w files base done []) (hidx : w.segIndex < 10 ^ kSegmentNameWidth)
    (hbase : CleanSegments (segments base)) (hclear : PageOp.ClearRun {} done)
    (hrecs : recs = recordsOf (segments base) ++ PageOp.bodies done)
    (hroom : body = [] ∨ ¬ SevenLeft w.pw.buf.length) (hwrite : ∀ r ∈ calls, r.Succeeds) :
    ∃ w' files', SegmentWriter.flushPending { w with pw := w.pw.log body } files calls =
        (true, w', files') ∧ Readable w' files' (recs ++ [body]) := by
  obtain ⟨files', hflush, hwriting'⟩ := (hwriting.log body).flushPending (writeAll_succeeds hwrite _)
  refine ⟨_, files', hflush, .writing base _ hwriting' hidx hbase ?_ ?_⟩
  · rw [List.nil_append, clearRun_append, ← List.append_nil done, ← hwriting.pw, List.append_nil]
    exact ⟨hclear, hroom, trivial⟩
  · rw [List.nil_append, bodies_append, hrecs, List.append_assoc]
    rfl

theorem Readable.log {w : SegmentWriter} {files : Files} {recs : List Bytes} {body : Bytes}
    {calls : LogCalls} (h : Readable w files recs)
    (hsafe : (WriterCall.log body calls).Safe w) (hcut : ∀ r ∈ calls.cut.write, r.Succeeds)
    (hwrite : ∀ r ∈ calls.write, r.Succeeds) :
    Readable (w.log files body calls).2.1 (w.log files body calls).2.2
      (recs ++ (WriterCall.log body calls).acked (w.log files body calls).1) := by
  obtain ⟨hopen, hroom⟩ := hsafe
  have hafterCut := h.cut hcut
  unfold SegmentWriter.log
  by_cases hrolls : w.rollsOver body = true
  · rw [if_pos hrolls] at hroom ⊢
    rcases hresult : w.cut files calls.cut with ⟨_ | _, w', files'⟩
    · -- The record is not logged.
      rw [hresult] at hafterCut
      dsimp only [WriterCall.acked]
      rw [if_neg Bool.false_ne_true, List.append_nil]
      exact hafterCut
    · rw [hresult] at hafterCut
      obtain ⟨hall, hfd, hnextIdx, hpw⟩ := cut_ok hopen hresult
      cases hafterCut with
      | writing base done hwriting hidx hbase hclear hrecs =>
        have hfresh : body = [] ∨ ¬ SevenLeft w'.pw.buf.length := by
          rw [hpw]
          exact Or.inr (by decide)
        obtain ⟨w'', files'', hflush, hread⟩ :=
          Readable.logOpen hwriting hidx hbase hclear hrecs hfresh hwrite
        dsimp only
        rw [hflush]
        exact hread
      | idle hclean hrecs hforeign =>
        -- The new segment would have a name of nine digits.
        have hnext := hroom hall
        have := (hforeign _ hfd).2
        dsimp only at this
        omega
  · rw [if_neg hrolls] at hroom ⊢
    cases h with
    | writing base done hwriting hidx hbase hclear hrecs =>
      obtain ⟨w', files', hflush, hread⟩ :=
        Readable.logOpen hwriting hidx hbase hclear hrecs hroom.2 hwrite
      dsimp only
      rw [hflush]
      exact hread
    | idle hclean hrecs hforeign =>
      obtain ⟨name, hfd⟩ := Option.isSome_iff_exists.mp hopen
      have := (hforeign name hfd).2
      omega

/-- One call: what it acknowledges is found by a reader, behind what was found before. -/
theorem Readable.call {w : SegmentWriter} {files : Files} {recs : List Bytes} {call : WriterCall}
    (h : Readable w files recs) (hsafe : call.Safe w) (hwrite : call.WritesSucceed) :
    Readable (w.call files call).2.1 (w.call files call).2.2
      (recs ++ call.acked (w.call files call).1) := by
  cases call with
  | log body calls => exact h.log hsafe hwrite.1 hwrite.2
  | sync calls =>
    rw [WriterCall.acked, List.append_nil]
    exact h.sync hwrite
  | cut calls =>
    rw [WriterCall.acked, List.append_nil]
    exact h.cut hwrite

theorem Readable.runCalls {w : SegmentWriter} {files : Files} {recs : List Bytes}
    (h : Readable w files recs) (calls : List WriterCall) (hsafe : WriterCall.SafeRun w files calls)
    (hwrite : ∀ call ∈ calls, call.WritesSucceed) :
    Readable (w.runCalls files calls).writer (w.runCalls files calls).files
      (recs ++ (w.runCalls files calls).acked) := by
  induction calls generalizing w files recs with
  | nil =>
    rw [SegmentWriter.runCalls, List.append_nil]
    exact h
  | cons call calls ih =>
    have hnext := ih (h.call hsafe.1 (hwrite call List.mem_cons_self)) hsafe.2
      fun call' hcall ↦ hwrite call' (List.mem_cons_of_mem _ hcall)
    rw [List.append_assoc] at hnext
    exact hnext

/-- A writer opened on a directory of cleanly ended segments. -/
theorem readable_openDir {files : Files} (hclean : CleanSegments (segments files)) (size : Nat) :
    Readable (SegmentWriter.openDir files size true).2.1
      (SegmentWriter.openDir files size true).2.2 (recordsOf (segments files)) := by
  by_cases hidx : SegmentWriter.nextIndex files < 10 ^ kSegmentNameWidth
  · exact .writing files [] ⟨rfl, le_rfl, rfl, rfl, rfl⟩ hidx hclean trivial
      (List.append_nil _).symm
  · have hforeign : segments (files.set (formatSegmentName (SegmentWriter.nextIndex files)) []) =
        segments files :=
      segments_set_foreign (parseSegmentName_format_of_le (Nat.le_of_not_lt hidx)) _ _
    refine .idle ?_ (congrArg recordsOf hforeign.symm) ?_
    · change CleanSegments (segments (files.set _ []))
      rwa [hforeign]
    · intro name hname
      cases hname
      exact ⟨rfl, Nat.le_of_not_lt hidx⟩

/-- On every run that logs only with a segment open, a reader of the directory finds the records
that were there and then every acknowledged body, in order. -/
theorem readAll_runCalls (files : Files) (hclean : CleanSegments (segments files)) (size : Nat)
    (calls : List WriterCall) (hwrite : ∀ call ∈ calls, call.WritesSucceed)
    (hsafe : WriterCall.SafeRun (SegmentWriter.openDir files size true).2.1
      (SegmentWriter.openDir files size true).2.2 calls) :
    SegmentReader.readAll (segments ((SegmentWriter.openDir files size true).2.1.runCalls
        (SegmentWriter.openDir files size true).2.2 calls).files) =
      (recordsOf (segments files) ++ ((SegmentWriter.openDir files size true).2.1.runCalls
        (SegmentWriter.openDir files size true).2.2 calls).acked, .endOfStream) :=
  ((readable_openDir hclean size).runCalls calls hsafe hwrite).readAll

/-- A run over a roll-over whose `::fsync` fails once. -/
theorem readAll_runCalls_rollover :
    SegmentReader.readAll (segments ((SegmentWriter.openDir Files.empty 20 true).2.1.runCalls
        (SegmentWriter.openDir Files.empty 20 true).2.2
        [.log [1] {}, .log [2] { cut := { fsync := false } }, .log [3] {}, .sync {}]).files) =
      (recordsOf (segments Files.empty) ++
        ((SegmentWriter.openDir Files.empty 20 true).2.1.runCalls
          (SegmentWriter.openDir Files.empty 20 true).2.2
          [.log [1] {}, .log [2] { cut := { fsync := false } }, .log [3] {}, .sync {}]).acked,
        .endOfStream) := by
  apply readAll_runCalls Files.empty
  · exact fun seg hseg ↦ absurd hseg List.not_mem_nil
  · simp [WriterCall.WritesSucceed]
  · decide +kernel

/-- Behind a cut whose `::open` failed, `log` and `sync` succeed and write nothing. -/
theorem lost_after_failed_open :
    let start := SegmentWriter.openDir Files.empty kDefaultSegmentSize true
    let run := start.2.1.runCalls start.2.2 [.cut { opened := false }, .log [1] {}, .sync {}]
    run.results = [false, true, true] ∧ run.acked = [[1]] ∧
      SegmentReader.readAll (segments run.files) = ([], .endOfStream) := by
  decide

end MerlionTsdb.Wal
