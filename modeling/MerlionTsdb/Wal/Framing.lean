import MerlionTsdb.Wal.Page

/-!
# Framing

The abstract view of a framed buffer: a list of items, each a fragment or a run of padding, laid end
to end.  `scan` says what the page reader makes of such a list, and `readAll_items` that the reader
does just that on the bytes.
-/

namespace MerlionTsdb.Wal

open Encoding

inductive Item
  | frag (t : RecType) (body : Bytes)
  | pad (n : Nat)
  deriving DecidableEq, Repr

def fragBytes (t : RecType) (body : Bytes) : Bytes :=
  headerBytes t (UInt16.ofNat body.length) (Crc32c.compute body) ++ body

def Item.bytes : Item → Bytes
  | .frag t body => fragBytes t body
  | .pad n => List.replicate n 0

def itemsBytes (items : List Item) : Bytes :=
  items.flatMap Item.bytes

/-- The records of a list of items and the error that ends them.  `isOpen` and `record` are the
record being assembled, `atEnd` what the reader answers when the items are used up. -/
def scan (atEnd : Bool → WalReadError) : Bool → Bytes → List Item → List Bytes × WalReadError
  | isOpen, _, [] => ([], atEnd isOpen)
  | isOpen, record, .pad _ :: items => scan atEnd isOpen record items
  | isOpen, record, .frag t body :: items =>
    match PageReader.accept t body isOpen record with
    | .error e => ([], e)
    | .ok (true, record) => scan atEnd true record items
    | .ok (false, record) =>
      let (records, e) := scan atEnd false [] items
      (record :: records, e)

/-- The end of a buffer at an item boundary. -/
def cleanEnd (isOpen : Bool) : WalReadError :=
  if isOpen then .tornRecord else .endOfStream

/-- Items from byte offset `off` on: padding fills its page, and fragments fit the length field. -/
inductive Layout : Nat → List Item → Prop
  | nil (off : Nat) : Layout off []
  | frag {off : Nat} {t : RecType} {body : Bytes} {items : List Item} :
    t ≠ .pageTerm → body.length < 65536 →
      Layout (off + (kRecordHeaderSize + body.length)) items → Layout off (.frag t body :: items)
  | pad {off : Nat} {items : List Item} :
    Layout (off + (kPageSize - off % kPageSize)) items →
      Layout off (.pad (kPageSize - off % kPageSize) :: items)

@[simp] theorem length_headerBytes (t : RecType) (length : UInt16) (crc : UInt32) :
    (headerBytes t length crc).length = kRecordHeaderSize := rfl

@[simp] theorem length_fragBytes (t : RecType) (body : Bytes) :
    (fragBytes t body).length = kRecordHeaderSize + body.length := by
  rw [fragBytes, List.length_append, length_headerBytes]

@[simp] theorem itemsBytes_nil : itemsBytes [] = [] := rfl

theorem itemsBytes_cons (item : Item) (items : List Item) :
    itemsBytes (item :: items) = item.bytes ++ itemsBytes items := List.flatMap_cons

theorem itemsBytes_append (as bs : List Item) :
    itemsBytes (as ++ bs) = itemsBytes as ++ itemsBytes bs := List.flatMap_append

/-! ## One fragment under the reader -/

theorem recTypeOfByte_toByte (t : RecType) : recTypeOfByte t.toByte = .ok t := by
  cases t <;> rfl

theorem toByte_ne_zero {t : RecType} (ht : t ≠ .pageTerm) : t.toByte ≠ 0 := by
  cases t <;> first | exact absurd rfl ht | decide

namespace PageReader

/-- The bytes still ahead of a reader. -/
def ahead (r : PageReader) : Bytes := r.buf.drop r.offset

theorem length_ahead (r : PageReader) : r.ahead.length = r.buf.length - r.offset :=
  List.length_drop

theorem ahead_skip {r r' : PageReader} {bs rest : Bytes} (h : r.ahead = bs ++ rest)
    (hbuf : r'.buf = r.buf) (hoff : r'.offset = r.offset + bs.length) : r'.ahead = rest := by
  rw [ahead, hbuf, hoff, ← List.drop_drop]
  change r.ahead.drop bs.length = rest
  rw [h, List.drop_left' rfl]

theorem buf_getD (r : PageReader) : r.buf.getD r.offset 0 = r.ahead.getD 0 0 := by
  rw [ahead, List.getD_eq_getElem?_getD, List.getD_eq_getElem?_getD, List.getElem?_drop,
    Nat.add_zero]

/-- A header parses back to the type, the length and the CRC it was written with. -/
theorem readFragmentHeader_of_ahead {r : PageReader} {t : RecType} {length : UInt16} {crc : UInt32}
    (h : r.ahead.take kRecordHeaderSize = headerBytes t length crc) :
    r.readFragmentHeader = (.ok (t, length, crc),
      { r with offset := r.offset + kRecordHeaderSize }) := by
  have htotal := congrArg List.length h
  rw [List.length_take, length_ahead, length_headerBytes] at htotal
  have hsize : kRecordHeaderSize = 7 := rfl
  change (r.buf.drop r.offset).take kRecordHeaderSize = _ at h
  have hlength : readBe16 ((List.drop 1 (headerBytes t length crc)).take 2) = length := by
    have hput := readBe16_putBe16 length []
    rw [List.append_nil] at hput
    exact hput
  have hcrc : readBe32 ((List.drop 3 (headerBytes t length crc)).take 4) = crc := by
    have hput := readBe32_putBe32 crc []
    rw [List.append_nil] at hput
    exact hput
  have htype : recTypeOfByte ((headerBytes t length crc).getD 0 0) = .ok t := recTypeOfByte_toByte t
  rw [readFragmentHeader, if_neg (by omega), h]
  dsimp only
  rw [htype]
  dsimp only
  rw [hlength, hcrc]

/-- One round. -/
theorem nextLoop_succ (fuel : Nat) (r : PageReader) (isOpen : Bool) : nextLoop (fuel + 1) r isOpen =
    if r.buf.length ≤ r.offset then
      (.error (if isOpen then .tornRecord else .endOfStream), r)
    else if r.buf.getD r.offset 0 = 0 then
      let pageRemaining := kPageSize - r.offset % kPageSize
      let pad := (r.buf.drop r.offset).take pageRemaining
      if pad.any (· ≠ 0) then (.error .invalidRecType, r)
      else nextLoop fuel { r with offset := r.offset + pad.length } isOpen
    else
      match r.readFragmentHeader with
      | (.error e, r) => (.error e, r)
      | (.ok (t, len, crc), r) =>
        if r.buf.length < r.offset + len.toNat then (.error .unexpectedEnd, r)
        else
          let fragment := (r.buf.drop r.offset).take len.toNat
          let r := { r with offset := r.offset + len.toNat }
          if Crc32c.compute fragment ≠ crc then (.error .crcMismatch, r)
          else
            match accept t fragment isOpen r.record with
            | .error e => (.error e, r)
            | .ok (false, record) => (.ok record, { r with record := record })
            | .ok (true, record) => nextLoop fuel { r with record := record } true := rfl

/-- A whole fragment in front of the reader. -/
theorem nextLoop_frag {r : PageReader} {t : RecType} {body rest : Bytes} {isOpen : Bool}
    (ht : t ≠ .pageTerm) (hlen : body.length < 65536) (h : r.ahead = fragBytes t body ++ rest)
    (fuel : Nat) :
    nextLoop (fuel + 1) r isOpen =
      match accept t body isOpen r.record with
      | .error e => (.error e, { r with offset := r.offset + (kRecordHeaderSize + body.length) })
      | .ok (false, record) => (.ok record,
          { r with offset := r.offset + (kRecordHeaderSize + body.length), record := record })
      | .ok (true, record) => nextLoop fuel
          { r with offset := r.offset + (kRecordHeaderSize + body.length), record := record }
          true := by
  have htotal := congrArg List.length h
  rw [length_ahead, List.length_append, length_fragBytes] at htotal
  have hsize : kRecordHeaderSize = 7 := rfl
  have hu16 : (UInt16.ofNat body.length).toNat = body.length :=
    UInt16.toNat_ofNat_of_lt' (by rw [UInt16.size]; omega)
  rw [fragBytes, List.append_assoc] at h
  -- The reader stands at the header, with the body behind it.
  have hheader : r.readFragmentHeader =
      (.ok (t, UInt16.ofNat body.length, Crc32c.compute body),
        { r with offset := r.offset + kRecordHeaderSize }) := by
    apply readFragmentHeader_of_ahead
    rw [h, List.take_left' (length_headerBytes _ _ _)]
  have hbody : (r.buf.drop (r.offset + kRecordHeaderSize)).take body.length = body := by
    rw [← List.drop_drop]
    change (r.ahead.drop _).take _ = _
    rw [h, List.drop_left' (length_headerBytes _ _ _), List.take_left' rfl]
  have hfirst : r.buf.getD r.offset 0 = t.toByte := by
    rw [buf_getD, h]
    rfl
  rw [nextLoop_succ, if_neg (by omega), if_neg (by rw [hfirst]; exact toByte_ne_zero ht), hheader]
  dsimp only
  rw [hu16, if_neg (by omega), hbody, Nat.add_assoc]
  exact if_neg (not_not_intro rfl)

/-- The padding of a page in front of the reader. -/
theorem nextLoop_pad {r : PageReader} {rest : Bytes} {isOpen : Bool}
    (h : r.ahead = List.replicate (kPageSize - r.offset % kPageSize) 0 ++ rest) (fuel : Nat) :
    nextLoop (fuel + 1) r isOpen =
      nextLoop fuel { r with offset := r.offset + (kPageSize - r.offset % kPageSize) } isOpen := by
  have hpos : 0 < kPageSize - r.offset % kPageSize := by
    have := Nat.mod_lt r.offset (show 0 < kPageSize by decide)
    omega
  have htotal := congrArg List.length h
  rw [length_ahead, List.length_append, List.length_replicate] at htotal
  have hzero : r.buf.getD r.offset 0 = 0 := by
    rw [buf_getD, h]
    obtain ⟨n, hn⟩ : ∃ n, kPageSize - r.offset % kPageSize = n + 1 := ⟨_, (Nat.succ_pred_eq_of_pos hpos).symm⟩
    rw [hn]
    rfl
  have htake : (r.buf.drop r.offset).take (kPageSize - r.offset % kPageSize) =
      List.replicate (kPageSize - r.offset % kPageSize) 0 := by
    change r.ahead.take _ = _
    rw [h, List.take_left' List.length_replicate]
  rw [nextLoop_succ, if_neg (by omega), if_pos hzero]
  dsimp only
  rw [htake, if_neg (by simp), List.length_replicate]

/-- A buffer that ends in zeros within a page. -/
theorem nextLoop_zeros {r : PageReader} {m : Nat} {isOpen : Bool}
    (h : r.ahead = List.replicate m 0) (hm : m ≤ kPageSize - r.offset % kPageSize) (fuel : Nat) :
    (nextLoop (fuel + 2) r isOpen).1 = .error (cleanEnd isOpen) := by
  have htotal := congrArg List.length h
  rw [length_ahead, List.length_replicate] at htotal
  cases m with
  | zero =>
    rw [nextLoop_succ, if_pos (by omega)]
    rfl
  | succ m =>
    have hzero : r.buf.getD r.offset 0 = 0 := by
      rw [buf_getD, h]
      rfl
    have htake : (r.buf.drop r.offset).take (kPageSize - r.offset % kPageSize) =
        List.replicate (m + 1) 0 := by
      change r.ahead.take _ = _
      rw [h, List.take_of_length_le (by rw [List.length_replicate]; exact hm)]
    rw [nextLoop_succ, if_neg (by omega), if_pos hzero]
    dsimp only
    rw [htake, if_neg (by simp), List.length_replicate, nextLoop_succ]
    dsimp only
    rw [if_pos (by omega)]
    rfl

/-- A buffer that ends inside a fragment. -/
theorem nextLoop_cut {r : PageReader} {t : RecType} {body : Bytes} {k : Nat} {isOpen : Bool}
    (ht : t ≠ .pageTerm) (hlen : body.length < 65536) (h : r.ahead = (fragBytes t body).take k)
    (hpos : 0 < k) (hk : k < (fragBytes t body).length) (fuel : Nat) :
    (nextLoop (fuel + 1) r isOpen).1 = .error .unexpectedEnd := by
  have htotal := congrArg List.length h
  rw [length_ahead, List.length_take, Nat.min_eq_left (by omega)] at htotal
  rw [length_fragBytes] at hk
  have hsize : kRecordHeaderSize = 7 := rfl
  have hu16 : (UInt16.ofNat body.length).toNat = body.length :=
    UInt16.toNat_ofNat_of_lt' (by rw [UInt16.size]; omega)
  have hfirst : r.buf.getD r.offset 0 = t.toByte := by
    obtain ⟨k, rfl⟩ : ∃ j, k = j + 1 := ⟨k - 1, by omega⟩
    rw [buf_getD, h]
    rfl
  rw [nextLoop_succ, if_neg (by omega), if_neg (by rw [hfirst]; exact toByte_ne_zero ht)]
  by_cases hshort : k < kRecordHeaderSize
  · rw [readFragmentHeader, if_pos (by omega)]
  · have hheader : r.readFragmentHeader =
        (.ok (t, UInt16.ofNat body.length, Crc32c.compute body),
          { r with offset := r.offset + kRecordHeaderSize }) := by
      apply readFragmentHeader_of_ahead
      rw [h, List.take_take, Nat.min_eq_left (by omega), fragBytes,
        List.take_left' (length_headerBytes _ _ _)]
    rw [hheader]
    dsimp only
    rw [hu16, if_pos (by omega)]

end PageReader

/-! ## A buffer of items under the reader -/

/-- Bytes from offset `stop` to the end of the buffer that make `next` answer `atEnd`. -/
def EndsWith (atEnd : Bool → WalReadError) (stop : Nat) (tail : Bytes) : Prop :=
  ∀ (r : PageReader) (isOpen : Bool) (fuel : Nat), r.ahead = tail → r.offset = stop →
    tail.length < fuel → (PageReader.nextLoop fuel r isOpen).1 = .error (atEnd isOpen)

theorem endsWith_zeros {stop m : Nat} (hm : m ≤ kPageSize - stop % kPageSize) :
    EndsWith cleanEnd stop (List.replicate m 0) := by
  intro r isOpen fuel h hoff hfuel
  subst hoff
  rw [List.length_replicate] at hfuel
  cases m with
  | zero =>
    have htotal := congrArg List.length h
    rw [PageReader.length_ahead, List.length_replicate] at htotal
    obtain ⟨fuel, rfl⟩ : ∃ f, fuel = f + 1 := ⟨fuel - 1, by omega⟩
    rw [PageReader.nextLoop, if_pos (by omega)]
    rfl
  | succ m =>
    obtain ⟨fuel, rfl⟩ : ∃ f, fuel = f + 2 := ⟨fuel - 2, by omega⟩
    exact PageReader.nextLoop_zeros h hm fuel

theorem endsWith_nil (stop : Nat) : EndsWith cleanEnd stop [] :=
  endsWith_zeros (Nat.zero_le _)

theorem endsWith_cut {t : RecType} {body : Bytes} {k : Nat} (stop : Nat) (ht : t ≠ .pageTerm)
    (hlen : body.length < 65536) (hpos : 0 < k) (hk : k < (fragBytes t body).length) :
    EndsWith (fun _ ↦ .unexpectedEnd) stop ((fragBytes t body).take k) := by
  intro r isOpen fuel h _ hfuel
  obtain ⟨fuel, rfl⟩ : ∃ f, fuel = f + 1 := ⟨fuel - 1, by omega⟩
  exact PageReader.nextLoop_cut ht hlen h hpos hk fuel

/-- How `next`, called in the middle of a record, and all later calls answer. -/
def readOn (fuel fuel' : Nat) (r : PageReader) (isOpen : Bool) : List Bytes × WalReadError :=
  match PageReader.nextLoop fuel r isOpen with
  | (.error e, _) => ([], e)
  | (.ok record, r) =>
    let (records, e) := PageReader.readAllLoop fuel' r
    (record :: records, e)

theorem readAllLoop_succ (fuel : Nat) (r : PageReader) :
    PageReader.readAllLoop (fuel + 1) r =
      readOn (r.buf.length + 1) fuel { r with record := [] } false := by
  rw [PageReader.readAllLoop]
  unfold readOn PageReader.next
  rcases PageReader.nextLoop (r.buf.length + 1) { r with record := [] } false with ⟨_ | _, _⟩ <;> rfl

/-- Item by item, the reader does what `scan` does. -/
theorem readOn_items {atEnd : Bool → WalReadError} {tail : Bytes} {off : Nat} {items : List Item}
    (hlayout : Layout off items) (htail : EndsWith atEnd (off + (itemsBytes items).length) tail)
    (r : PageReader) (isOpen : Bool) (fuel fuel' : Nat) (hoff : r.offset = off)
    (h : r.ahead = itemsBytes items ++ tail) (hfuel : items.length + tail.length < fuel)
    (hfuel' : items.length ≤ fuel') (hbuf : items.length + tail.length ≤ r.buf.length) :
    readOn fuel fuel' r isOpen = scan atEnd isOpen r.record items := by
  induction hlayout generalizing r isOpen fuel fuel' with
  | nil off =>
    -- Nothing is left but the tail, which ends the reader.
    have hend := htail r isOpen fuel h hoff (by simpa using hfuel)
    rw [readOn, scan]
    rcases hloop : PageReader.nextLoop fuel r isOpen with ⟨_ | _, _⟩ <;> rw [hloop] at hend
    · cases hend
      rfl
    · cases hend
  | @frag off t body items ht hlen _ ih =>
    rw [List.length_cons] at hfuel hfuel' hbuf
    obtain ⟨fuel, rfl⟩ : ∃ f, fuel = f + 1 := ⟨fuel - 1, by omega⟩
    subst hoff
    rw [itemsBytes_cons, List.length_append, Item.bytes, length_fragBytes, ← Nat.add_assoc] at htail
    rw [itemsBytes_cons, List.append_assoc] at h
    have hskip : ∀ record, ({ r with
        offset := r.offset + (kRecordHeaderSize + body.length)
        record := record } : PageReader).ahead = itemsBytes items ++ tail :=
      fun record ↦ PageReader.ahead_skip h rfl (by rw [Item.bytes, length_fragBytes])
    rw [readOn, PageReader.nextLoop_frag ht hlen h, scan]
    rcases PageReader.accept t body isOpen r.record with e | ⟨_ | _, record⟩
    · rfl
    · -- The record is finished, and the next call starts a new one.
      obtain ⟨fuel', rfl⟩ : ∃ f, fuel' = f + 1 := ⟨fuel' - 1, by omega⟩
      have hnext := ih htail _ false (r.buf.length + 1) fuel' rfl (hskip []) (by omega) (by omega)
        (by dsimp only; omega)
      dsimp only
      rw [readAllLoop_succ]
      dsimp only
      rw [hnext]
    · exact ih htail _ true fuel fuel' rfl (hskip record) (by omega) (by omega)
        (by dsimp only; omega)
  | @pad off items _ ih =>
    rw [List.length_cons] at hfuel hfuel' hbuf
    obtain ⟨fuel, rfl⟩ : ∃ f, fuel = f + 1 := ⟨fuel - 1, by omega⟩
    subst hoff
    rw [itemsBytes_cons, List.length_append, Item.bytes, List.length_replicate,
      ← Nat.add_assoc] at htail
    rw [itemsBytes_cons, List.append_assoc] at h
    rw [readOn, PageReader.nextLoop_pad h, scan]
    exact ih htail _ isOpen fuel fuel' rfl
      (PageReader.ahead_skip h rfl (by rw [Item.bytes, List.length_replicate]))
      (by omega) (by omega) (by dsimp only; omega)

theorem Layout.append {off : Nat} {as bs : List Item} (has : Layout off as)
    (hbs : Layout (off + (itemsBytes as).length) bs) : Layout off (as ++ bs) := by
  induction has with
  | nil => exact hbs
  | frag ht hlen _ ih =>
    rw [itemsBytes_cons, List.length_append, Item.bytes, length_fragBytes, ← Nat.add_assoc] at hbs
    exact .frag ht hlen (ih hbs)
  | pad _ ih =>
    rw [itemsBytes_cons, List.length_append, Item.bytes, List.length_replicate,
      ← Nat.add_assoc] at hbs
    exact .pad (ih hbs)

theorem length_le_itemsBytes {off : Nat} {items : List Item} (h : Layout off items) :
    items.length ≤ (itemsBytes items).length := by
  induction h with
  | nil => exact le_rfl
  | frag _ _ _ ih =>
    rw [itemsBytes_cons, List.length_append, List.length_cons, Item.bytes, length_fragBytes,
      kRecordHeaderSize]
    omega
  | @pad off _ _ ih =>
    have := Nat.mod_lt off (show 0 < kPageSize by decide)
    rw [itemsBytes_cons, List.length_append, List.length_cons, Item.bytes, List.length_replicate]
    omega

/-- Reading a buffer of items, and then a tail, to its end. -/
theorem readAll_items {atEnd : Bool → WalReadError} {tail : Bytes} {items : List Item}
    (hlayout : Layout 0 items) (htail : EndsWith atEnd (itemsBytes items).length tail) :
    PageReader.readAll (itemsBytes items ++ tail) = scan atEnd false [] items := by
  have hlen := length_le_itemsBytes hlayout
  rw [PageReader.readAll, readAllLoop_succ]
  apply readOn_items hlayout (by rwa [Nat.zero_add]) _ _ _ _ rfl rfl
  all_goals
    rw [List.length_append]
    omega

end MerlionTsdb.Wal
