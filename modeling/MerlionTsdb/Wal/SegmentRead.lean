import MerlionTsdb.Wal.Segment

/-!
# Reading a directory of segments

The segment reader, on any contents, is the page reader on one segment after the other: the end of a
segment leads on to the next, a torn record does so only on the last, and anything else stops it.
-/

namespace MerlionTsdb.Wal

/-! ## The page reader makes progress -/

namespace PageReader

theorem readFragmentHeader_ok {r r' : PageReader} {h : RecType × UInt16 × UInt32}
    (hread : r.readFragmentHeader = (.ok h, r')) :
    r' = { r with offset := r.offset + kRecordHeaderSize } := by
  unfold readFragmentHeader at hread
  split at hread
  · cases hread
  · dsimp only at hread
    split at hread <;> cases hread
    rfl

/-- A record found moves the offset forward, within the buffer. -/
theorem nextLoop_ok {fuel : Nat} {r r' : PageReader} {isOpen : Bool} {record : Bytes}
    (h : nextLoop fuel r isOpen = (.ok record, r')) :
    r'.buf = r.buf ∧ r.offset < r'.offset ∧ r'.offset ≤ r.buf.length := by
  induction fuel generalizing r isOpen with
  | zero => cases h
  | succ fuel ih =>
    rw [nextLoop] at h
    split at h
    · cases h
    · split at h
      · dsimp only at h
        split at h
        · cases h
        · -- Zeros up to the end of the page.
          obtain ⟨hbuf, hlt, hle⟩ := ih h
          dsimp only at hbuf hlt hle
          exact ⟨hbuf, by omega, hle⟩
      · split at h
        · cases h
        · rename_i t len crc r₁ hheader
          have hr₁ := readFragmentHeader_ok hheader
          have hsize : kRecordHeaderSize = 7 := rfl
          -- A fragment: the record ends with it, or goes on behind it.
          subst hr₁
          dsimp only at h
          split at h
          · cases h
          · split at h
            · cases h
            · split at h
              · cases h
              · cases h
                dsimp only
                exact ⟨rfl, by omega, by omega⟩
              · obtain ⟨hbuf, hlt, hle⟩ := ih h
                dsimp only at hbuf hlt hle
                exact ⟨hbuf, by omega, hle⟩

theorem next_ok {r r' : PageReader} {record : Bytes} (h : r.next = (.ok record, r')) :
    r'.buf = r.buf ∧ r.offset < r'.offset ∧ r'.offset ≤ r.buf.length := by
  have hloop : nextLoop (r.buf.length + 1) { r with record := [] } false = (.ok record, r') := h
  exact nextLoop_ok (r := { r with record := [] }) hloop

/-- Fuel beyond the bytes left makes no difference. -/
theorem readAllLoop_fuel (r : PageReader) (fuel fuel' : Nat) (hfuel : r.buf.length - r.offset < fuel)
    (hfuel' : r.buf.length - r.offset < fuel') : readAllLoop fuel r = readAllLoop fuel' r := by
  induction fuel generalizing r fuel' with
  | zero => omega
  | succ fuel ih =>
    obtain ⟨fuel', rfl⟩ : ∃ f, fuel' = f + 1 := ⟨fuel' - 1, by omega⟩
    rw [readAllLoop, readAllLoop]
    split
    · rfl
    · rename_i record r' hnext
      obtain ⟨hbuf, hlt, hle⟩ := next_ok hnext
      rw [ih r' fuel' (by rw [hbuf]; omega) (by rw [hbuf]; omega)]

end PageReader

/-! ## Segment after segment -/

/-- Whether the error that ends a segment lets the reader go on behind it. -/
def tolerated (e : WalReadError) (isLast : Bool) : Bool :=
  e = .endOfStream || (e = .tornRecord && isLast)

/-- What the reader reports for a segment it cannot pass. -/
def segmentError (e : WalReadError) : SegmentReadError :=
  if e = .tornRecord then .corruptMidStream else mapPageError e

/-- The records of a segment, and those of the segments behind it if the reader gets there. -/
def joinPage (page : List Bytes × WalReadError) (isLast : Bool)
    (later : List Bytes × SegmentReadError) : List Bytes × SegmentReadError :=
  if tolerated page.2 isLast then (page.1 ++ later.1, later.2) else (page.1, segmentError page.2)

/-- The records of a list of segments and the error that ends them. -/
def joinSegments : List Bytes → List Bytes × SegmentReadError
  | [] => ([], .endOfStream)
  | seg :: segs => joinPage (PageReader.readAll seg) segs.isEmpty (joinSegments segs)

/-- Every segment reads to a clean end. -/
def CleanSegments (segs : List Bytes) : Prop :=
  ∀ seg ∈ segs, (PageReader.readAll seg).2 = .endOfStream

/-- The records of segments that read to a clean end. -/
def recordsOf (segs : List Bytes) : List Bytes :=
  segs.flatMap fun seg ↦ (PageReader.readAll seg).1

theorem recordsOf_append (as bs : List Bytes) : recordsOf (as ++ bs) = recordsOf as ++ recordsOf bs :=
  List.flatMap_append

/-- Cleanly read segments hand on to the ones behind them. -/
theorem joinSegments_clean {segs : List Bytes} (hclean : CleanSegments segs) (later : List Bytes) :
    joinSegments (segs ++ later) =
      (recordsOf segs ++ (joinSegments later).1, (joinSegments later).2) := by
  induction segs with
  | nil => rfl
  | cons seg segs ih =>
    have hrest := ih fun seg' hseg' ↦ hclean seg' (List.mem_cons_of_mem _ hseg')
    have htol : tolerated (PageReader.readAll seg).2 (segs ++ later).isEmpty = true := by
      rw [hclean seg List.mem_cons_self]
      rfl
    have hrecords : recordsOf (seg :: segs) = (PageReader.readAll seg).1 ++ recordsOf segs :=
      List.flatMap_cons
    rw [List.cons_append, joinSegments, joinPage, if_pos htol, hrest, hrecords, List.append_assoc]

theorem joinSegments_of_clean {segs : List Bytes} (hclean : CleanSegments segs) :
    joinSegments segs = (recordsOf segs, .endOfStream) := by
  have hjoin := joinSegments_clean hclean []
  rw [List.append_nil] at hjoin
  rw [hjoin, joinSegments, List.append_nil]

namespace SegmentReader

/-- How `next`, and all later calls, answer. -/
def readOn (rounds fuel : Nat) (r : SegmentReader) : List Bytes × SegmentReadError :=
  match nextLoop rounds r with
  | (.error e, _) => ([], e)
  | (.ok record, r) =>
    let (records, e) := readAllLoop fuel r
    (record :: records, e)

theorem readAllLoop_succ (fuel : Nat) (r : SegmentReader) :
    readAllLoop (fuel + 1) r = readOn (r.segments.length + 1) fuel r := by
  rw [readAllLoop]
  unfold readOn next
  rcases nextLoop (r.segments.length + 1) r with ⟨_ | _, _⟩ <;> rfl

theorem joinPage_cons (record : Bytes) (page : List Bytes × WalReadError) (isLast : Bool)
    (later : List Bytes × SegmentReadError) :
    joinPage (record :: page.1, page.2) isLast later =
      (record :: (joinPage page isLast later).1, (joinPage page isLast later).2) := by
  unfold joinPage
  split <;> rfl

/-- In the middle of a segment, given how the reader goes on behind it. -/
theorem readOn_page {segs : List Bytes} {i : Nat} {later : List Bytes × SegmentReadError}
    {bytesLeft : Nat} (hi : i < segs.length)
    (hlater : ∀ rounds fuel, segs.length - (i + 1) < rounds → bytesLeft ≤ fuel →
      readOn rounds fuel { segments := segs, currentIndex := i + 1 } = later)
    (page : PageReader) (fuel rounds fuel' : Nat) (hfuel : page.buf.length - page.offset < fuel)
    (hrounds : segs.length - i < rounds)
    (hfuel' : page.buf.length - page.offset + bytesLeft ≤ fuel') :
    readOn rounds fuel' { segments := segs, currentIndex := i, pageReader := some page } =
      joinPage (PageReader.readAllLoop fuel page) (i + 1 = segs.length) later := by
  induction fuel generalizing page rounds fuel' with
  | zero => omega
  | succ fuel ih =>
    obtain ⟨rounds, rfl⟩ : ∃ n, rounds = n + 1 := ⟨rounds - 1, by omega⟩
    rw [readOn, nextLoop, if_pos hi, PageReader.readAllLoop]
    dsimp only [Option.getD_some]
    rcases hnext : page.next with ⟨e | record, page'⟩
    · dsimp only
      -- What the reader tolerates leads on to the next segment.
      by_cases hgo : e = .endOfStream ∨ (e = .tornRecord ∧ i + 1 = segs.length)
      · have htol : tolerated e (i + 1 = segs.length) = true := by
          unfold tolerated
          simpa using hgo
        rw [if_pos hgo, joinPage, if_pos htol, List.nil_append]
        exact hlater rounds fuel' (by omega) (by omega)
      · have htol : ¬ tolerated e (i + 1 = segs.length) = true := by
          unfold tolerated
          simpa using hgo
        rw [if_neg hgo, joinPage, if_neg htol, segmentError]
        by_cases htorn : e = .tornRecord
        · rw [if_pos htorn, if_pos htorn]
        · rw [if_neg htorn, if_neg htorn]
    · obtain ⟨hbuf, hlt, hle⟩ := PageReader.next_ok hnext
      -- A record moves the offset on, so the fuel lasts for what is left.
      obtain ⟨fuel', rfl⟩ : ∃ n, fuel' = n + 1 := ⟨fuel' - 1, by omega⟩
      dsimp only
      rw [readAllLoop_succ, joinPage_cons]
      dsimp only
      rw [ih page' (segs.length + 1) fuel' (by rw [hbuf]; omega) (by omega) (by rw [hbuf]; omega)]

theorem readOn_segments (segs : List Bytes) (k i rounds fuel : Nat) (hk : segs.length - i = k)
    (hrounds : segs.length - i < rounds) (hfuel : (segs.drop i).flatten.length ≤ fuel) :
    readOn rounds fuel { segments := segs, currentIndex := i } = joinSegments (segs.drop i) := by
  induction k generalizing i rounds fuel with
  | zero =>
    obtain ⟨rounds, rfl⟩ : ∃ n, rounds = n + 1 := ⟨rounds - 1, by omega⟩
    rw [List.drop_eq_nil_of_le (by omega), readOn, nextLoop, if_neg (by dsimp only; omega)]
    rfl
  | succ k ih =>
    have hi : i < segs.length := by omega
    obtain ⟨rounds, rfl⟩ : ∃ n, rounds = n + 1 := ⟨rounds - 1, by omega⟩
    rw [List.drop_eq_getElem_cons hi] at hfuel ⊢
    rw [List.flatten_cons, List.length_append] at hfuel
    have hfresh : readOn (rounds + 1) fuel { segments := segs, currentIndex := i } =
        readOn (rounds + 1) fuel
          { segments := segs, currentIndex := i, pageReader := some { buf := segs[i] } } := by
      have hget : segs.getD i [] = segs[i] := by
        rw [List.getD_eq_getElem?_getD, List.getElem?_eq_getElem hi, Option.getD_some]
      rw [readOn, readOn, nextLoop, nextLoop, if_pos hi, if_pos hi]
      dsimp only [Option.getD_none, Option.getD_some]
      rw [hget]
    have hlast : (segs.drop (i + 1)).isEmpty = decide (i + 1 = segs.length) := by
      rw [Bool.eq_iff_iff, List.isEmpty_iff, List.drop_eq_nil_iff, decide_eq_true_iff]
      omega
    rw [hfresh, joinSegments, PageReader.readAll, hlast]
    exact readOn_page hi (fun rounds fuel hr hf ↦ ih (i + 1) rounds fuel (by omega) hr hf) _ _ _ _
      (by dsimp only; omega) (by omega) (by dsimp only; omega)

/-- The segment reader reads segment after segment. -/
theorem readAll_eq (segs : List Bytes) : readAll segs = joinSegments segs := by
  rw [readAll, readAllLoop_succ]
  exact readOn_segments segs _ 0 _ _ rfl (by dsimp only; omega) le_rfl

end SegmentReader
end MerlionTsdb.Wal
