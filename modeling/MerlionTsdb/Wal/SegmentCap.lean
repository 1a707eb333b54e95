import MerlionTsdb.Wal.Durable
import MerlionTsdb.Wal.FramedSize

/-!
# Segment sizes

`log` rolls over on an estimate that leaves out the extra fragment of a record that starts inside a
page.  The estimate is then one byte short, and no record ends one byte into a page: for sizes that
are whole pages the cap still holds.
-/

namespace MerlionTsdb.Wal

/-! ## Where a record ends -/

/-- A record ends at the end of a page, or behind a header in it. -/
theorem recordItems_end (body : Bytes) (fuel off pos : Nat) :
    recordItems body fuel off pos = [] ∨
      (off + (itemsBytes (recordItems body fuel off pos)).length) % kPageSize = 0 ∨
      kRecordHeaderSize ≤
        (off + (itemsBytes (recordItems body fuel off pos)).length) % kPageSize := by
  induction fuel generalizing off pos with
  | zero => exact .inl rfl
  | succ fuel ih =>
    by_cases hgo : pos < body.length ∨ (body.isEmpty ∧ pos = 0)
    · obtain ⟨start, len, rest, hstart, hlen, hrest, hlength⟩ := recordItems_round fuel off hgo
      have hfits := header_fits off
      have hroom := roomAt_start off
      rw [← hstart] at hfits hroom
      rw [hroom] at hlen
      rw [hlength]
      have hfrag : (start + (kRecordHeaderSize + len)) % kPageSize = 0 ∨
          kRecordHeaderSize ≤ (start + (kRecordHeaderSize + len)) % kPageSize := by
        unfold kPageSize kRecordHeaderSize at *
        omega
      by_cases hnil : rest = []
      · rw [hnil, itemsBytes_nil]
        exact .inr hfrag
      · have hmore := ih (start + (kRecordHeaderSize + len)) (pos + len)
        cases hempty : body.isEmpty with
        | true =>
          rw [hempty, if_pos rfl] at hrest
          exact absurd hrest hnil
        | false =>
          rw [hempty, if_neg Bool.false_ne_true] at hrest
          rw [← hrest] at hmore
          exact .inr (hmore.resolve_left hnil)
    · rw [recordItems, if_neg hgo]
      exact .inl rfl

theorem logItems_pos (off : Nat) (body : Bytes) : 0 < (itemsBytes (logItems off body)).length := by
  obtain ⟨start, len, rest, hstart, -, -, hlength⟩ :=
    recordItems_round (body.length + 1) off (log_goes body)
  show 0 < (itemsBytes (recordItems body (body.length + 1 + 1) off 0)).length
  unfold kRecordHeaderSize at hlength
  omega

theorem logItems_end (off : Nat) (body : Bytes) :
    (off + (itemsBytes (logItems off body)).length) % kPageSize = 0 ∨
      kRecordHeaderSize ≤ (off + (itemsBytes (logItems off body)).length) % kPageSize := by
  have hpos := logItems_pos off body
  apply (recordItems_end body (body.length + 2) off 0).resolve_left
  intro hnil
  rw [logItems, hnil] at hpos
  exact absurd hpos (Nat.lt_irrefl 0)

/-! ## The size of one segment -/

/-- The bytes of a segment with the records `recs`. -/
def segmentBytes (recs : List Bytes) : Bytes :=
  (({} : PageWriter).run (recs.map .log)).bytes

/-- The same once the segment was cut: zeros up to the end of the page. -/
def closedBytes (recs : List Bytes) : Bytes :=
  (({} : PageWriter).run (recs.map .log)).closePage.bytes

/-- At most `size` bytes, unless the segment has exactly one record. -/
def Capped (size : Nat) (recs : List Bytes) (bytes : Bytes) : Prop :=
  bytes.length ≤ size ∨ recs.length = 1

theorem run_map_log (recs : List Bytes) (body : Bytes) :
    ({} : PageWriter).run ((recs ++ [body]).map .log) =
      (({} : PageWriter).run (recs.map .log)).log body := by
  rw [List.map_append, run_append]
  rfl

theorem segmentBytes_append (recs : List Bytes) (body : Bytes) :
    segmentBytes (recs ++ [body]) =
      segmentBytes recs ++ itemsBytes (logItems (segmentBytes recs).length body) := by
  rw [segmentBytes, run_map_log]
  exact log_buf _ body

theorem closedBytes_eq (recs : List Bytes) :
    closedBytes recs = segmentBytes recs ++ itemsBytes (closeItems (segmentBytes recs).length) :=
  closePage_buf _

/-- Only a segment without records is empty. -/
theorem segmentBytes_pos {recs : List Bytes} (h : recs ≠ []) : 0 < (segmentBytes recs).length := by
  obtain ⟨init, body, rfl⟩ := (List.eq_nil_or_concat recs).resolve_left h
  have hpos := logItems_pos (segmentBytes init).length body
  rw [List.concat_eq_append, segmentBytes_append, List.length_append]
  omega

/-- A record for which the estimate fits ends within the cap: it can be one byte over only where no
record ends. -/
theorem capped_append {size : Nat} (hsize : kPageSize ∣ size) {recs : List Bytes} {body : Bytes}
    (hroom : recs = [] ∨
      (segmentBytes recs).length + SegmentWriter.framedSizeUpperBound body.length ≤ size) :
    Capped size (recs ++ [body]) (segmentBytes (recs ++ [body])) := by
  rcases hroom with rfl | hroom
  · exact .inr rfl
  · have hle := length_logItems_le (segmentBytes recs).length body
    have hend := logItems_end (segmentBytes recs).length body
    apply Or.inl
    rw [segmentBytes_append, List.length_append]
    unfold kPageSize kRecordHeaderSize at *
    omega

/-- The padding of a cut stays within a cap of whole pages. -/
theorem capped_closed {size : Nat} (hsize : kPageSize ∣ size) {recs : List Bytes}
    (h : Capped size recs (segmentBytes recs)) : Capped size recs (closedBytes recs) := by
  rcases h with hle | hone
  · apply Or.inl
    rw [closedBytes_eq, List.length_append]
    unfold closeItems
    split
    · rw [itemsBytes_nil, List.length_nil]
      omega
    · rw [itemsBytes_cons, itemsBytes_nil, List.append_nil, Item.bytes, List.length_replicate]
      unfold kPageSize at *
      omega
  · exact .inr hone

/-! ## What the segment files hold -/

/-- The segment files from index `first` on hold `contents`, and every other file what it held at the
start. -/
structure Holds (start : Files) (first : Nat) (files : Files) (contents : List Bytes) : Prop where
  content : ∀ i (h : i < contents.length),
    files.content (formatSegmentName (first + i)) = contents[i]
  others : ∀ name, (∀ i < contents.length, name ≠ formatSegmentName (first + i)) →
    files.content name = start.content name

/-- The last file is replaced, or a new one is added. -/
theorem Holds.put {start files : Files} {first : Nat} {contents tail : List Bytes}
    (h : Holds start first files (contents ++ tail)) (htail : tail.length ≤ 1) (bytes : Bytes) :
    Holds start first (files.set (formatSegmentName (first + contents.length)) bytes)
      (contents ++ [bytes]) where
  content := by
    intro i hi
    rw [List.length_append, List.length_singleton] at hi
    by_cases hlast : i = contents.length
    · subst hlast
      rw [Files.content_set, List.getElem_concat_length rfl]
    · have hlt : i < contents.length := by omega
      have hne : formatSegmentName (first + i) ≠ formatSegmentName (first + contents.length) := by
        intro heq
        have hidx := formatSegmentName_injective heq
        omega
      rw [Files.content_set_of_ne hne, List.getElem_append_left hlt,
        h.content i (by rw [List.length_append]; omega), List.getElem_append_left hlt]
  others := by
    intro name hname
    rw [List.length_append, List.length_singleton] at hname
    rw [Files.content_set_of_ne (hname _ (Nat.lt_succ_self _))]
    apply h.others
    intro i hi
    rw [List.length_append] at hi
    exact hname i (by omega)

theorem Holds.last {start files : Files} {first : Nat} {contents : List Bytes} {bytes : Bytes}
    (h : Holds start first files (contents ++ [bytes])) :
    files.content (formatSegmentName (first + contents.length)) = bytes := by
  rw [h.content contents.length (by rw [List.length_append]; exact Nat.lt_succ_self _),
    List.getElem_concat_length rfl]

/-- The writer at the last of its segments: `closed` has the records of those before, and `last` its
own, all of them in the file. -/
structure Filling (start : Files) (first : Nat) (w : SegmentWriter) (files : Files)
    (closed : List (List Bytes)) (last : List Bytes) : Prop where
  opened : w.fd = some (formatSegmentName w.segIndex)
  index : w.segIndex = first + closed.length
  pw : w.pw = ({} : PageWriter).run (last.map .log)
  flushed : w.flushedBytes = (segmentBytes last).length
  holds : Holds start first files (closed.map closedBytes ++ [segmentBytes last])

namespace Filling

variable {start files : Files} {first : Nat} {w : SegmentWriter} {closed : List (List Bytes)}
  {last : List Bytes}

theorem not_isNone (h : Filling start first w files closed last) : ¬ w.fd.isNone = true := by
  rw [h.opened]
  exact Bool.false_ne_true

/-- The flush behind a change of the page writer. -/
theorem flush (h : Filling start first w files closed last) {pw : PageWriter} {more : Bytes}
    (hpw : pw.bytes = segmentBytes last ++ more) {calls : List WriteResult}
    (hcalls : ∀ r ∈ calls, r.Succeeds) :
    ∃ files', SegmentWriter.flushPending { w with pw := pw } files calls =
        (true, { w with pw := pw, flushedBytes := pw.bytes.length }, files') ∧
      Holds start first files' (closed.map closedBytes ++ [pw.bytes]) := by
  have hname : formatSegmentName w.segIndex =
      formatSegmentName (first + (closed.map closedBytes).length) := by
    rw [h.index, List.length_map]
  have hlen : pw.bytes.length = w.flushedBytes + more.length := by
    rw [hpw, List.length_append, h.flushed]
  rw [flushPending_opened (w := { w with pw := pw }) h.opened]
  dsimp only
  split
  · rename_i hnone
    -- Nothing is pending.
    have hnil : more = [] := List.eq_nil_of_length_eq_zero (by omega)
    rw [hnil, List.append_nil] at hpw
    have hsame : pw.bytes.length = w.flushedBytes := by omega
    refine ⟨files, by rw [hsame], ?_⟩
    rw [hpw]
    exact h.holds
  · have hdrop : pw.bytes.drop w.flushedBytes = more := by
      rw [hpw, h.flushed, List.drop_left]
    rw [hdrop, writeAll_of_succeeds hcalls]
    refine ⟨_, rfl, ?_⟩
    rw [Files.append, hname, h.holds.last, ← hpw]
    exact h.holds.put (Nat.le_refl 1) pw.bytes

/-- A record behind those of the segment. -/
theorem log (h : Filling start first w files closed last) (body : Bytes) {calls : List WriteResult}
    (hcalls : ∀ r ∈ calls, r.Succeeds) :
    ∃ w' files', SegmentWriter.flushPending { w with pw := w.pw.log body } files calls =
        (true, w', files') ∧ w'.segmentSize = w.segmentSize ∧
      Filling start first w' files' closed (last ++ [body]) := by
  have hpw : (w.pw.log body).bytes = segmentBytes (last ++ [body]) := by
    rw [h.pw, segmentBytes, run_map_log]
  obtain ⟨files', hflush, hholds⟩ := h.flush (hpw.trans (segmentBytes_append last body)) hcalls
  refine ⟨_, files', hflush, rfl, h.opened, h.index, ?_, ?_, ?_⟩
  · show w.pw.log body = _
    rw [h.pw, run_map_log]
  · show (w.pw.log body).bytes.length = _
    rw [hpw]
  · rw [← hpw]
    exact hholds

theorem sync (h : Filling start first w files closed last) {calls : SyncCalls}
    (hwrite : ∀ r ∈ calls.write, r.Succeeds) (hfsync : calls.fsync = true) :
    ∃ w' files', w.sync files calls = (true, w', files') ∧ w'.segmentSize = w.segmentSize ∧
      Filling start first w' files' closed last := by
  have hpw : w.pw.bytes = segmentBytes last := by
    rw [h.pw, segmentBytes]
  obtain ⟨files', hflush, hholds⟩ := h.flush (hpw.trans (List.append_nil _).symm) hwrite
  have hsync : w.sync files calls =
      (true, { w with flushedBytes := w.pw.bytes.length }, files') := by
    change SegmentWriter.flushPending w files calls.write = _ at hflush
    rw [SegmentWriter.sync, if_neg h.not_isNone, hflush]
    show (calls.fsync, _, _) = _
    rw [hfsync]
  refine ⟨_, files', hsync, rfl, h.opened, h.index, h.pw, ?_, ?_⟩
  · show w.pw.bytes.length = _
    rw [hpw]
  · rw [← hpw]
    exact hholds

/-- A cut closes the segment with its records and goes on with an empty one. -/
theorem cut (h : Filling start first w files closed last) {calls : CutCalls}
    (hwrite : ∀ r ∈ calls.write, r.Succeeds)
    (hothers : calls.fsync = true ∧ calls.close = true ∧ calls.opened = true) :
    ∃ w' files', w.cut files calls = (true, w', files') ∧ w'.segmentSize = w.segmentSize ∧
      Filling start first w' files' (closed ++ [last]) [] := by
  have hpw : w.pw.closePage.bytes = closedBytes last := by
    rw [h.pw, closedBytes]
  obtain ⟨files', hflush, hholds⟩ := h.flush (hpw.trans (closedBytes_eq last)) hwrite
  have hmap : closed.map closedBytes ++ [w.pw.closePage.bytes] = (closed ++ [last]).map closedBytes := by
    rw [hpw, List.map_append]
    rfl
  rw [hmap, ← List.append_nil ((closed ++ [last]).map closedBytes)] at hholds
  have hnext := hholds.put (Nat.zero_le 1) []
  have hidx : w.segIndex + 1 = first + ((closed ++ [last]).map closedBytes).length := by
    rw [h.index, List.length_map, List.length_append]
    rfl
  rw [← hidx] at hnext
  refine ⟨w.nextWriter, _, ?_, rfl, rfl, ?_, rfl, rfl, hnext⟩
  · rw [SegmentWriter.cut, if_neg h.not_isNone]
    dsimp only
    rw [hflush]
    dsimp only
    rw [hothers.1, hothers.2.1, hothers.2.2]
    rfl
  · show w.segIndex + 1 = _
    rw [hidx, List.length_map]

end Filling

/-! ## Runs -/

/-- Every system call of a `cut` succeeds. -/
def CutCalls.Succeed (calls : CutCalls) : Prop :=
  (∀ r ∈ calls.write, r.Succeeds) ∧ calls.fsync = true ∧ calls.close = true ∧ calls.opened = true

/-- Every system call succeeds. -/
def WriterCall.Succeeds : WriterCall → Prop
  | .log _ calls => calls.cut.Succeed ∧ ∀ r ∈ calls.write, r.Succeeds
  | .sync calls => (∀ r ∈ calls.write, r.Succeeds) ∧ calls.fsync = true
  | .cut calls => calls.Succeed

/-- The writer at its last segment, with every segment within the cap. -/
structure Spread (start : Files) (first size : Nat) (w : SegmentWriter) (files : Files)
    (closed : List (List Bytes)) (last : List Bytes) : Prop where
  filling : Filling start first w files closed last
  capacity : w.segmentSize = size
  closedCapped : ∀ recs ∈ closed, Capped size recs (closedBytes recs)
  lastCapped : Capped size last (segmentBytes last)

namespace Spread

variable {start files : Files} {first size : Nat} {w : SegmentWriter} {closed : List (List Bytes)}
  {last : List Bytes}

theorem cut (h : Spread start first size w files closed last) (hsize : kPageSize ∣ size)
    {calls : CutCalls} (hcalls : calls.Succeed) :
    ∃ w' files', w.cut files calls = (true, w', files') ∧
      Spread start first size w' files' (closed ++ [last]) [] := by
  obtain ⟨w', files', hcut, hsame, hfilling⟩ := h.filling.cut hcalls.1 hcalls.2
  refine ⟨w', files', hcut, hfilling, hsame.trans h.capacity, ?_, .inl (Nat.zero_le _)⟩
  intro recs hrecs
  rcases List.mem_append.mp hrecs with hrecs | hrecs
  · exact h.closedCapped recs hrecs
  · rw [List.mem_singleton.mp hrecs]
    exact capped_closed hsize h.lastCapped

/-- Without a roll-over the segment is empty, or the estimate fits. -/
theorem room (h : Spread start first size w files closed last) {body : Bytes}
    (hrolls : ¬ w.rollsOver body = true) :
    last = [] ∨
      (segmentBytes last).length + SegmentWriter.framedSizeUpperBound body.length ≤ size := by
  by_cases hempty : last = []
  · exact .inl hempty
  · have hpos := segmentBytes_pos hempty
    have hbytes : w.pw.bytes = segmentBytes last := by
      rw [h.filling.pw, segmentBytes]
    unfold SegmentWriter.rollsOver at hrolls
    dsimp only at hrolls
    rw [hbytes, h.filling.flushed, h.capacity, Bool.and_eq_true, decide_eq_true_iff,
      decide_eq_true_iff] at hrolls
    omega

theorem append (h : Spread start first size w files closed last) (hsize : kPageSize ∣ size)
    (body : Bytes) {calls : List WriteResult} (hcalls : ∀ r ∈ calls, r.Succeeds)
    (hroom : last = [] ∨
      (segmentBytes last).length + SegmentWriter.framedSizeUpperBound body.length ≤ size) :
    ∃ w' files', SegmentWriter.flushPending { w with pw := w.pw.log body } files calls =
        (true, w', files') ∧ Spread start first size w' files' closed (last ++ [body]) := by
  obtain ⟨w', files', hflush, hsame, hfilling⟩ := h.filling.log body hcalls
  exact ⟨w', files', hflush, hfilling, hsame.trans h.capacity, h.closedCapped, capped_append hsize hroom⟩

/-- One call: its record goes to the last segment, or to a new one. -/
theorem call (h : Spread start first size w files closed last) (hsize : kPageSize ∣ size)
    {call : WriterCall} (hcall : call.Succeeds) :
    ∃ w' files' closed' last', w.call files call = (true, w', files') ∧
      Spread start first size w' files' closed' last' ∧
      closed'.flatten ++ last' = closed.flatten ++ last ++ call.acked true := by
  cases call with
  | log body calls =>
    obtain ⟨hcut, hwrite⟩ := hcall
    show ∃ w' files' closed' last', w.log files body calls = (true, w', files') ∧ _
    unfold SegmentWriter.log
    by_cases hrolls : w.rollsOver body = true
    · obtain ⟨w₁, files₁, hresult, hspread⟩ := h.cut hsize hcut
      obtain ⟨w', files', hflush, hspread'⟩ := hspread.append hsize body hwrite (.inl rfl)
      rw [if_pos hrolls, hresult]
      refine ⟨w', files', _, _, hflush, hspread', ?_⟩
      simp [WriterCall.acked]
    · obtain ⟨w', files', hflush, hspread⟩ := h.append hsize body hwrite (h.room hrolls)
      rw [if_neg hrolls]
      refine ⟨w', files', _, _, hflush, hspread, ?_⟩
      simp [WriterCall.acked]
  | sync calls =>
    obtain ⟨w', files', hsync, hsame, hfilling⟩ := h.filling.sync hcall.1 hcall.2
    refine ⟨w', files', closed, last, hsync, ⟨hfilling, hsame.trans h.capacity, h.closedCapped, h.lastCapped⟩, ?_⟩
    exact (List.append_nil _).symm
  | cut calls =>
    obtain ⟨w', files', hcut, hspread⟩ := h.cut hsize hcall
    refine ⟨w', files', _, _, hcut, hspread, ?_⟩
    simp [WriterCall.acked]

theorem runCalls (h : Spread start first size w files closed last) (hsize : kPageSize ∣ size)
    (calls : List WriterCall) (hcalls : ∀ call ∈ calls, call.Succeeds) :
    (∀ ok ∈ (w.runCalls files calls).results, ok = true) ∧
      ∃ closed' last', Spread start first size (w.runCalls files calls).writer
          (w.runCalls files calls).files closed' last' ∧
        closed'.flatten ++ last' = closed.flatten ++ last ++ (w.runCalls files calls).acked := by
  induction calls generalizing w files closed last with
  | nil =>
    refine ⟨fun ok hok ↦ absurd hok List.not_mem_nil, closed, last, h, ?_⟩
    exact (List.append_nil _).symm
  | cons call calls ih =>
    obtain ⟨w₁, files₁, cut₁, last₁, hresult, h₁, hacked⟩ :=
      h.call hsize (hcalls call List.mem_cons_self)
    obtain ⟨hall, closed', last', hspread, hrecords⟩ :=
      ih h₁ fun call' hcall ↦ hcalls call' (List.mem_cons_of_mem _ hcall)
    rw [SegmentWriter.runCalls, hresult]
    dsimp only
    refine ⟨?_, closed', last', hspread, ?_⟩
    · intro ok hok
      rcases List.mem_cons.mp hok with rfl | hok
      · rfl
      · exact hall ok hok
    · rw [hrecords, hacked, List.append_assoc]

end Spread

theorem spread_openDir (files : Files) (size : Nat) :
    Spread files (SegmentWriter.nextIndex files) size (SegmentWriter.openDir files size true).2.1
      (SegmentWriter.openDir files size true).2.2 [] [] := by
  have hstart : Holds files (SegmentWriter.nextIndex files) files ([] ++ []) :=
    ⟨fun i hi ↦ absurd hi (Nat.not_lt_zero i), fun _ _ ↦ rfl⟩
  have hopened := hstart.put (Nat.zero_le 1) []
  refine ⟨⟨rfl, rfl, rfl, rfl, hopened⟩, rfl, ?_, .inl (Nat.zero_le _)⟩
  exact fun recs hrecs ↦ absurd hrecs List.not_mem_nil

/-- Over whole pages, the segments written hold the logged records, each in one of them, and stay
within the cap unless there is a single record to hold. -/
theorem segments_capped (files : Files) (size : Nat) (hsize : kPageSize ∣ size)
    (calls : List WriterCall) (hcalls : ∀ call ∈ calls, call.Succeeds) :
    let start := SegmentWriter.openDir files size true
    let run := start.2.1.runCalls start.2.2 calls
    (∀ ok ∈ run.results, ok = true) ∧
      ∃ (closed : List (List Bytes)) (last : List Bytes),
        closed.flatten ++ last = run.acked ∧
        Holds files (SegmentWriter.nextIndex files) run.files
          (closed.map closedBytes ++ [segmentBytes last]) ∧
        (∀ recs ∈ closed, Capped size recs (closedBytes recs)) ∧
        Capped size last (segmentBytes last) := by
  obtain ⟨hall, closed, last, hspread, hrecords⟩ :=
    (spread_openDir files size).runCalls hsize calls hcalls
  exact ⟨hall, closed, last, hrecords, hspread.filling.holds, hspread.closedCapped, hspread.lastCapped⟩

/-- A record that fills its page, a second one that rolls over, and a cut. -/
theorem segments_capped_page :
    let calls := [WriterCall.log (List.replicate 32761 0) {}, .log [1] {}, .cut {}]
    let start := SegmentWriter.openDir Files.empty kPageSize true
    let run := start.2.1.runCalls start.2.2 calls
    (∀ ok ∈ run.results, ok = true) ∧
      ∃ (closed : List (List Bytes)) (last : List Bytes),
        closed.flatten ++ last = run.acked ∧
        Holds Files.empty (SegmentWriter.nextIndex Files.empty) run.files
          (closed.map closedBytes ++ [segmentBytes last]) ∧
        (∀ recs ∈ closed, Capped kPageSize recs (closedBytes recs)) ∧
        Capped kPageSize last (segmentBytes last) := by
  apply segments_capped Files.empty kPageSize (Nat.dvd_refl _)
  intro call hcall
  simp only [List.mem_cons, List.not_mem_nil, or_false] at hcall
  rcases hcall with rfl | rfl | rfl
  all_goals simp [WriterCall.Succeeds, CutCalls.Succeed]

end MerlionTsdb.Wal
