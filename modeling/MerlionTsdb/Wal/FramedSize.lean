import MerlionTsdb.Wal.PageRoundtrip
import MerlionTsdb.Wal.Segment

/-!
# The size of a framed record

What `log` appends for a body at a page offset: the padding, a header for each fragment, and the body.
The estimate that the roll-over decision uses counts the fragments of a body that starts at the start
of a page.  A body that starts inside a page may take one more, and is then one byte longer than the
estimate.
-/

namespace MerlionTsdb.Wal

/-! ## The rounds of `log` -/

/-- The loop condition of `log` holds at the start. -/
theorem log_goes (body : Bytes) : 0 < body.length ∨ (body.isEmpty ∧ 0 = 0) := by
  cases body with
  | nil => exact .inr ⟨rfl, rfl⟩
  | cons b body => exact .inl (Nat.succ_pos _)

/-- A header goes where the last fragment ended, or behind a few zeros at the start of a page. -/
theorem headerPad_start (off : Nat) :
    kRecordHeaderSize ≤ kPageSize - off % kPageSize ∧ (itemsBytes (headerPad off)).length = 0 ∨
      kPageSize - off % kPageSize < kRecordHeaderSize ∧
        (itemsBytes (headerPad off)).length = kPageSize - off % kPageSize ∧
        (off + (itemsBytes (headerPad off)).length) % kPageSize = 0 := by
  unfold headerPad
  split
  · rename_i hshort
    rw [itemsBytes_cons, itemsBytes_nil, List.append_nil, Item.bytes, List.length_replicate]
    exact .inr ⟨hshort, rfl, page_end off⟩
  · rename_i hroom
    exact .inl ⟨Nat.le_of_not_lt hroom, rfl⟩

/-- One round of `logLoop`: the padding, a fragment that stays in its page, and the next round. -/
theorem recordItems_round {body : Bytes} {pos : Nat} (fuel off : Nat)
    (hgo : pos < body.length ∨ (body.isEmpty ∧ pos = 0)) :
    ∃ start len rest, start = off + (itemsBytes (headerPad off)).length ∧
      len = min (body.length - pos) (roomAt start) ∧
      rest = (if body.isEmpty then []
        else recordItems body fuel (start + (kRecordHeaderSize + len)) (pos + len)) ∧
      off + (itemsBytes (recordItems body (fuel + 1) off pos)).length =
        start + (kRecordHeaderSize + len) + (itemsBytes rest).length := by
  refine ⟨_, _, _, rfl, rfl, rfl, ?_⟩
  rw [recordItems, if_pos hgo]
  dsimp only
  rw [itemsBytes_append, itemsBytes_cons, Item.bytes, List.length_append, List.length_append,
    length_fragBytes, List.length_take, List.length_drop]
  omega

/-! ## The size -/

/-- The fragments of `n` bytes that start at the start of a page. -/
def fragmentsOf (n : Nat) : Nat :=
  (n + (kPageSize - kRecordHeaderSize) - 1) / (kPageSize - kRecordHeaderSize)

/-- From the start of a page on, each page takes as much of the body as it can. -/
theorem length_recordItems_aligned (body : Bytes) (fuel off pos : Nat) (hoff : off % kPageSize = 0)
    (hpos : pos < body.length) (hfuel : body.length ≤ pos + fuel) :
    (itemsBytes (recordItems body fuel off pos)).length =
      body.length - pos + kRecordHeaderSize * fragmentsOf (body.length - pos) := by
  have hbody : body ≠ [] := List.ne_nil_of_length_pos (by omega)
  have hnonempty : body.isEmpty = false := List.isEmpty_eq_false_iff.mpr hbody
  induction fuel generalizing off pos with
  | zero => omega
  | succ fuel ih =>
    obtain ⟨start, len, rest, hstart, hlen, hrest, hlength⟩ :=
      recordItems_round fuel off (.inl hpos)
    have hpad := headerPad_start off
    rw [hnonempty, if_neg Bool.false_ne_true] at hrest
    have hsame : start = off := by
      unfold kPageSize kRecordHeaderSize at *
      omega
    rw [hsame, roomAt_aligned hoff] at hlen
    unfold fragmentsOf kPageSize kRecordHeaderSize at *
    by_cases hlast : body.length ≤ pos + len
    · -- The last fragment is the one that rounds the division up.
      rw [recordItems_done _ _ hbody hlast] at hrest
      rw [hrest, itemsBytes_nil, List.length_nil] at hlength
      omega
    · -- The page is full, so the next fragment starts a page again.
      have hnext := ih (start + (7 + len)) (pos + len) (by omega) (by omega) (by omega)
      rw [← hrest] at hnext
      omega

theorem length_logItems_nil (off : Nat) : (itemsBytes (logItems off [])).length =
    (itemsBytes (headerPad off)).length + kRecordHeaderSize := by
  obtain ⟨start, len, rest, hstart, hlen, hrest, hlength⟩ := recordItems_round 1 off (log_goes [])
  rw [List.isEmpty_nil, if_pos rfl] at hrest
  rw [hrest, itemsBytes_nil] at hlength
  rw [List.length_nil] at *
  show (itemsBytes (recordItems [] (1 + 1) off 0)).length = _
  omega

/-- A record is its padding, its body, a header for the part of it that the page still takes, and one
for each page the rest of it takes. -/
theorem length_logItems {off : Nat} {body : Bytes} (hbody : body ≠ []) :
    (itemsBytes (logItems off body)).length =
      (itemsBytes (headerPad off)).length + body.length + kRecordHeaderSize +
        kRecordHeaderSize *
          fragmentsOf (body.length - roomAt (off + (itemsBytes (headerPad off)).length)) := by
  have hpos : 0 < body.length := List.length_pos_iff.mpr hbody
  obtain ⟨start, len, rest, hstart, hlen, hrest, hlength⟩ :=
    recordItems_round (body.length + 1) off (log_goes body)
  have hfits := header_fits off
  have hroom := roomAt_start off
  rw [← hstart] at hfits hroom ⊢
  rw [hroom] at hlen ⊢
  have haligned := length_recordItems_aligned body (body.length + 1)
    (start + (kRecordHeaderSize + len)) len
  rw [List.isEmpty_eq_false_iff.mpr hbody, if_neg Bool.false_ne_true, Nat.zero_add] at hrest
  show (itemsBytes (recordItems body (body.length + 1 + 1) off 0)).length = _
  unfold fragmentsOf kPageSize kRecordHeaderSize at *
  by_cases hlast : body.length ≤ len
  · rw [recordItems_done _ _ hbody hlast] at hrest
    rw [hrest, itemsBytes_nil, List.length_nil] at hlength
    omega
  · -- The first fragment fills its page.
    rw [← hrest] at haligned
    have hmore := haligned (by omega) (by omega) (by omega)
    omega

/-! ## The estimate -/

/-- The estimate is at most one byte short. -/
theorem length_logItems_le (off : Nat) (body : Bytes) :
    (itemsBytes (logItems off body)).length ≤
      SegmentWriter.framedSizeUpperBound body.length + 1 := by
  have hpad := headerPad_start off
  have hroom := roomAt_start off
  unfold SegmentWriter.framedSizeUpperBound
  dsimp only
  by_cases hbody : body = []
  · rw [hbody, length_logItems_nil, List.length_nil, if_pos rfl]
    unfold kPageSize kRecordHeaderSize at *
    omega
  · have hpos : ¬ body.length = 0 := mt List.length_eq_zero_iff.mp hbody
    rw [length_logItems hbody, hroom, if_neg hpos]
    unfold fragmentsOf kPageSize kRecordHeaderSize at *
    omega

/-- The part of a body beyond the pages it fills has to fit where it starts. -/
theorem length_logItems_le_iff (off : Nat) (body : Bytes) :
    (itemsBytes (logItems off body)).length ≤ SegmentWriter.framedSizeUpperBound body.length ↔
      body = [] ∨ kPageSize - off % kPageSize < kRecordHeaderSize ∨
        (body.length - 1) % (kPageSize - kRecordHeaderSize) < roomAt off := by
  have hpad := headerPad_start off
  have hroom := roomAt_start off
  unfold SegmentWriter.framedSizeUpperBound
  dsimp only
  by_cases hbody : body = []
  · rw [hbody, length_logItems_nil, List.length_nil, if_pos rfl]
    apply iff_of_true _ (.inl rfl)
    unfold kPageSize kRecordHeaderSize at *
    omega
  · have hpos : ¬ body.length = 0 := mt List.length_eq_zero_iff.mp hbody
    rw [length_logItems hbody, hroom, if_neg hpos]
    unfold roomAt fragmentsOf kPageSize kRecordHeaderSize at *
    simp only [hbody, false_or]
    split
    · omega
    · omega

/-- The estimate bounds what `log` appends exactly if the body is empty, or the page has no room for a
header, or the part of the body beyond whole pages fits behind the header. -/
theorem log_within_estimate_iff (w : PageWriter) (body : Bytes) :
    (w.log body).bytes.length ≤
        w.bytes.length + SegmentWriter.framedSizeUpperBound body.length ↔
      body = [] ∨ kPageSize - w.pageOffset < kRecordHeaderSize ∨
        (body.length - 1) % (kPageSize - kRecordHeaderSize) < w.pageRoomForHeader := by
  have hroom : w.pageRoomForHeader = roomAt w.buf.length := rfl
  have hoff : w.pageOffset = w.buf.length % kPageSize := rfl
  rw [hroom, hoff, ← length_logItems_le_iff]
  show (w.log body).buf.length ≤ w.buf.length + _ ↔ _
  rw [log_buf, List.length_append]
  omega

/-- Seven bytes into a page, a page of data takes two fragments. -/
theorem length_log_page {w : PageWriter} {body : Bytes} (hw : w.bytes.length = 7)
    (hbody : body.length = 32761) : (w.log body).bytes.length = w.bytes.length + 32775 := by
  have hne : body ≠ [] := List.ne_nil_of_length_pos (by omega)
  have hpad : headerPad 7 = [] := by decide
  have hroom : roomAt 7 = 32754 := by decide
  have hfragments : fragmentsOf (32761 - 32754) = 1 := by decide
  unfold PageWriter.bytes at hw ⊢
  rw [log_buf, List.length_append, hw, length_logItems hne, hpad, itemsBytes_nil, List.length_nil,
    Nat.add_zero, hroom, hbody, hfragments]
  rfl

/-- A page of data behind an empty record: the header of the empty record pushes seven bytes of it to a
second page, and the estimate counts one fragment. -/
theorem log_beyond_estimate :
    ((({} : PageWriter).log []).log (List.replicate 32761 0)).bytes.length =
        (({} : PageWriter).log []).bytes.length + 32775 ∧
      SegmentWriter.framedSizeUpperBound (List.replicate 32761 (0 : UInt8)).length = 32774 ∧
      ¬ ((({} : PageWriter).log []).log (List.replicate 32761 0)).bytes.length ≤
        (({} : PageWriter).log []).bytes.length +
          SegmentWriter.framedSizeUpperBound (List.replicate 32761 (0 : UInt8)).length := by
  have hempty : (({} : PageWriter).log []).bytes.length = 7 := by decide
  have hbody : (List.replicate 32761 (0 : UInt8)).length = 32761 := List.length_replicate
  have hestimate : SegmentWriter.framedSizeUpperBound 32761 = 32774 := by decide
  generalize ({} : PageWriter).log [] = w at hempty ⊢
  generalize List.replicate 32761 (0 : UInt8) = body at hbody ⊢
  rw [hbody, hestimate, length_log_page hempty hbody]
  exact ⟨rfl, rfl, by omega⟩

end MerlionTsdb.Wal
