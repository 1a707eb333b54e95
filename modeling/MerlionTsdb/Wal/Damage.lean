import MerlionTsdb.Encoding.Damage
import MerlionTsdb.Wal.Durable
import MerlionTsdb.Wal.TornTail

/-!
# Damage to a WAL

Damage within one fragment of a record is found when the record is read: a reader of the directory
returns exactly the records before it and reports the checksum.
-/

namespace MerlionTsdb.Wal

open Encoding

/-- A fragment with the checksum field and the body replaced. -/
def fragBytesWith (t : RecType) (len : Nat) (crc : UInt32) (body : Bytes) : Bytes :=
  headerBytes t (UInt16.ofNat len) crc ++ body

/-- A fragment whose body does not have the stored CRC ends the reader, whatever is behind it. -/
theorem endsWith_mismatch {t : RecType} {body : Bytes} {crc : UInt32} (stop : Nat)
    (ht : t ≠ .pageTerm) (hlen : body.length < 65536) (hcrc : Crc32c.compute body ≠ crc)
    (tail : Bytes) :
    EndsWith (fun _ ↦ .crcMismatch) stop (fragBytesWith t body.length crc body ++ tail) := by
  intro r isOpen fuel h _ hfuel
  obtain ⟨fuel, rfl⟩ : ∃ f, fuel = f + 1 := ⟨fuel - 1, by omega⟩
  have htotal := congrArg List.length h
  rw [PageReader.length_ahead, fragBytesWith, List.length_append, List.length_append,
    length_headerBytes] at htotal
  have hsize : kRecordHeaderSize = 7 := rfl
  have hu16 : (UInt16.ofNat body.length).toNat = body.length :=
    UInt16.toNat_ofNat_of_lt' (by rw [UInt16.size]; omega)
  rw [fragBytesWith, List.append_assoc] at h
  have hheader : r.readFragmentHeader = (.ok (t, UInt16.ofNat body.length, crc),
      { r with offset := r.offset + kRecordHeaderSize }) := by
    apply PageReader.readFragmentHeader_of_ahead
    rw [h, List.take_left' (length_headerBytes _ _ _)]
  have hbody : (r.buf.drop (r.offset + kRecordHeaderSize)).take body.length = body := by
    rw [← List.drop_drop]
    change (r.ahead.drop _).take _ = _
    rw [h, List.drop_left' (length_headerBytes _ _ _), List.take_left' rfl]
  have hfirst : r.buf.getD r.offset 0 = t.toByte := by
    rw [PageReader.buf_getD, h]
    rfl
  rw [PageReader.nextLoop, if_neg (by omega),
    if_neg (by rw [hfirst]; exact toByte_ne_zero ht), hheader]
  dsimp only
  rw [hu16, if_neg (by omega), hbody, if_pos hcrc]

/-- The fragments of a record in front of one of them finish no record. -/
theorem scan_before_fragment (atEnd : Bool → WalReadError) {body : Bytes} {off : Nat}
    {before after : List Item} {t : RecType} {frag : Bytes} (hroom : body = [] ∨ ¬ SevenLeft off)
    (hitems : logItems off body = before ++ .frag t frag :: after) :
    ∃ isOpen, scan atEnd false [] before = ([], atEnd isOpen) := by
  have hcut : cutItems (logItems off body) (itemsBytes before).length = before := by
    rw [hitems, cutItems_append_of_le _ _ le_rfl, Nat.sub_self, cutItems,
      if_neg (by rw [Item.bytes, length_fragBytes, kRecordHeaderSize]; omega), List.append_nil]
  have hlt : (itemsBytes before).length < (itemsBytes (logItems off body)).length := by
    rw [hitems, itemsBytes_append, List.length_append, itemsBytes_cons, List.length_append,
      Item.bytes, length_fragBytes, kRecordHeaderSize]
    omega
  rw [← hcut]
  exact scan_cutItems_logItems atEnd (hroom.imp_right Or.inl) hlt

/-- The records of a clear run, and then those of what follows. -/
theorem scan_runItems_append (atEnd : Bool → WalReadError) (w : PageWriter) (ops : List PageOp)
    (hclear : PageOp.ClearRun w ops) (items : List Item) :
    scan atEnd false [] (runItems w.buf.length ops ++ items) =
      (PageOp.bodies ops ++ (scan atEnd false [] items).1, (scan atEnd false [] items).2) := by
  induction ops generalizing w with
  | nil => rfl
  | cons op ops ih =>
    obtain ⟨hop, hrest⟩ := hclear
    have hnext := ih _ hrest
    rw [step_buf, List.length_append] at hnext
    rw [runItems, List.append_assoc]
    cases op with
    | log body =>
      rw [opItems] at hnext ⊢
      rw [scan_logItems atEnd [] body _ hop, hnext]
      rfl
    | closePage =>
      rw [opItems] at hnext ⊢
      rw [scan_closeItems]
      exact hnext

theorem Layout.of_append {off : Nat} {as bs : List Item} (h : Layout off (as ++ bs)) :
    Layout off as ∧ Layout (off + (itemsBytes as).length) bs := by
  induction as generalizing off with
  | nil => exact ⟨.nil _, h⟩
  | cons item as ih =>
    rw [itemsBytes_cons, List.length_append, ← Nat.add_assoc]
    cases h with
    | frag ht hlen hrest =>
      rw [Item.bytes, length_fragBytes]
      exact ⟨.frag ht hlen (ih hrest).1, (ih hrest).2⟩
    | pad hrest =>
      rw [Item.bytes, List.length_replicate]
      exact ⟨.pad (ih hrest).1, (ih hrest).2⟩

/-- A record with one of its fragments replaced. -/
def damagedRecord (before : List Item) (t : RecType) (len : Nat) (crc : UInt32) (frag : Bytes)
    (after : List Item) : Bytes :=
  itemsBytes before ++ (fragBytesWith t len crc frag ++ itemsBytes after)

/-- Reading a segment with damage in one fragment of a record. -/
theorem readAll_damaged {done : List PageOp} {body : Bytes}
    (hclear : PageOp.ClearRun {} (done ++ [.log body])) {before after : List Item} {t : RecType}
    {frag frag' : Bytes} {crc : UInt32}
    (hitems : logItems (({} : PageWriter).run done).buf.length body =
      before ++ .frag t frag :: after)
    (hdamage : Crc32c.Damage frag frag' crc) (behind : Bytes) :
    PageReader.readAll ((({} : PageWriter).run done).buf ++
        (damagedRecord before t frag.length crc frag' after ++ behind)) =
      (PageOp.bodies done, .crcMismatch) := by
  obtain ⟨hclearDone, hroom, -⟩ := (clearRun_append _ _ _).mp hclear
  have hdone : (({} : PageWriter).run done).buf = itemsBytes (runItems 0 done) := run_buf {} done
  have hrecord := layout_logItems (({} : PageWriter).run done).buf.length body
  rw [hitems] at hrecord
  obtain ⟨hbefore, hfrag⟩ := hrecord.of_append
  obtain ⟨ht, hlen⟩ : t ≠ .pageTerm ∧ frag.length < 65536 := by
    cases hfrag with
    | frag ht hlen => exact ⟨ht, hlen⟩
  -- The whole records, and then the fragments in front of the damaged one.
  have hlayout : Layout 0 (runItems 0 done ++ before) := by
    apply (layout_runItems 0 done).append
    rw [Nat.zero_add, ← hdone]
    exact hbefore
  have hend := endsWith_mismatch (itemsBytes (runItems 0 done ++ before)).length ht
    (by rw [hdamage.length_eq]; exact hlen) hdamage.compute_ne (itemsBytes after ++ behind)
  rw [hdamage.length_eq] at hend
  have hread := readAll_items hlayout hend
  rw [itemsBytes_append, ← hdone] at hread
  unfold damagedRecord
  rw [List.append_assoc, List.append_assoc, ← List.append_assoc (({} : PageWriter).run done).buf,
    hread]
  obtain ⟨isOpen, hopen⟩ := scan_before_fragment (fun _ ↦ .crcMismatch) hroom hitems
  have hrun := scan_runItems_append (fun _ ↦ .crcMismatch) {} done hclearDone before
  rw [hopen, List.append_nil] at hrun
  exact hrun

/-- Behind clean segments, and whatever segments follow. -/
theorem segments_damaged {earlier : List Bytes} (hclean : CleanSegments earlier)
    {done : List PageOp} {body : Bytes} (hclear : PageOp.ClearRun {} (done ++ [.log body]))
    {before after : List Item} {t : RecType} {frag frag' : Bytes} {crc : UInt32}
    (hitems : logItems (({} : PageWriter).run done).buf.length body =
      before ++ .frag t frag :: after)
    (hdamage : Crc32c.Damage frag frag' crc) (behind : Bytes) (later : List Bytes) :
    SegmentReader.readAll (earlier ++ ((({} : PageWriter).run done).buf ++
        (damagedRecord before t frag.length crc frag' after ++ behind)) :: later) =
      (recordsOf earlier ++ PageOp.bodies done, .crc) := by
  have hpage := readAll_damaged hclear hitems hdamage behind
  rw [SegmentReader.readAll_eq, joinSegments_clean hclean, joinSegments, hpage, joinPage,
    if_neg (by simp [tolerated])]
  rfl

end MerlionTsdb.Wal
