import MerlionTsdb.Wal.Framing

/-!
# The page writer under the page reader

What `PageWriter` appends, as items, and what the reader makes of them.  A record comes back whole
unless its first header lands where exactly seven bytes of the page are left: `log` then emits a
`First` fragment without a byte of the body, and the next fragment is again a first one.
-/

namespace MerlionTsdb.Wal

open Encoding

/-! ## The items of one record -/

/-- The padding `log` writes before a header at offset `off`. -/
def headerPad (off : Nat) : List Item :=
  if kPageSize - off % kPageSize < kRecordHeaderSize then [.pad (kPageSize - off % kPageSize)]
  else []

/-- The room for a fragment's body behind a header at offset `off`. -/
def roomAt (off : Nat) : Nat :=
  if kPageSize - off % kPageSize < kRecordHeaderSize then 0
  else kPageSize - off % kPageSize - kRecordHeaderSize

theorem headerPad_of_room {off : Nat} (h : kRecordHeaderSize ≤ kPageSize - off % kPageSize) :
    headerPad off = [] := by
  unfold headerPad
  rw [if_neg (Nat.not_lt.mpr h)]

theorem roomAt_of_room {off : Nat} (h : kRecordHeaderSize ≤ kPageSize - off % kPageSize) :
    roomAt off = kPageSize - off % kPageSize - kRecordHeaderSize := by
  rw [roomAt, if_neg (Nat.not_lt.mpr h)]

/-- At the start of a page there is room for a header. -/
theorem headerPad_aligned {off : Nat} (h : off % kPageSize = 0) : headerPad off = [] :=
  headerPad_of_room (by rw [h]; decide)

theorem roomAt_aligned {off : Nat} (h : off % kPageSize = 0) :
    roomAt off = kPageSize - kRecordHeaderSize := by
  rw [roomAt_of_room (by rw [h]; decide), h]
  rfl

/-- The items `logLoop` appends at offset `off`. -/
def recordItems (body : Bytes) : Nat → Nat → Nat → List Item
  | 0, _, _ => []
  | fuel + 1, off, pos =>
    if pos < body.length ∨ (body.isEmpty ∧ pos = 0) then
      let start := off + (itemsBytes (headerPad off)).length
      let len := min (body.length - pos) (roomAt start)
      headerPad off ++
        .frag (fragmentType (pos = 0) (pos + len = body.length)) ((body.drop pos).take len) ::
          if body.isEmpty then []
          else recordItems body fuel (start + (kRecordHeaderSize + len)) (pos + len)
    else []

/-- The items of `log` for a record at offset `off`. -/
def logItems (off : Nat) (body : Bytes) : List Item :=
  recordItems body (body.length + 2) off 0

/-- The items of `close_page` at offset `off`. -/
def closeItems (off : Nat) : List Item :=
  if off % kPageSize = 0 then [] else [.pad (kPageSize - off % kPageSize)]

theorem padForHeader_buf (w : PageWriter) :
    w.padForHeader.buf = w.buf ++ itemsBytes (headerPad w.buf.length) := by
  unfold PageWriter.padForHeader headerPad PageWriter.pageOffset
  split
  · rw [itemsBytes_cons, itemsBytes_nil, List.append_nil]
    rfl
  · rw [itemsBytes_nil, List.append_nil]

theorem logLoop_buf (body : Bytes) (fuel : Nat) (w : PageWriter) (pos : Nat) :
    (PageWriter.logLoop body fuel w pos).buf =
      w.buf ++ itemsBytes (recordItems body fuel w.buf.length pos) := by
  induction fuel generalizing w pos with
  | zero => rw [PageWriter.logLoop, recordItems, itemsBytes_nil, List.append_nil]
  | succ fuel ih =>
    rw [PageWriter.logLoop, recordItems]
    split
    · set start := w.buf.length + (itemsBytes (headerPad w.buf.length)).length with hstart
      have hpadded : w.padForHeader.buf.length = start := by
        rw [padForHeader_buf, List.length_append]
      have hroom : w.padForHeader.pageRoomForHeader = roomAt start := by
        rw [PageWriter.pageRoomForHeader, PageWriter.pageOffset, roomAt, hpadded]
      dsimp only
      rw [hroom]
      set len := min (body.length - pos) (roomAt start) with hlen
      set fragment := (body.drop pos).take len with hfragment
      have hfraglen : fragment.length = len := by
        rw [hfragment, List.length_take, List.length_drop]
        omega
      generalize fragmentType (decide (pos = 0)) (decide (pos + len = body.length)) = t
      set w' : PageWriter :=
        { buf := (w.padForHeader.writeHeader t (UInt16.ofNat len) (Crc32c.compute fragment)).buf ++
          fragment } with hw'
      have hbuf : w'.buf = w.buf ++ (itemsBytes (headerPad w.buf.length) ++ fragBytes t fragment) := by
        rw [hw', PageWriter.writeHeader, padForHeader_buf, fragBytes, hfraglen]
        simp only [List.append_assoc]
      have hlen' : w'.buf.length = start + (kRecordHeaderSize + len) := by
        rw [hbuf, List.length_append, List.length_append, length_fragBytes, hfraglen, hstart,
          Nat.add_assoc]
      rw [itemsBytes_append, itemsBytes_cons, Item.bytes]
      -- The empty body takes one round.
      cases body.isEmpty
      · rw [if_neg Bool.false_ne_true, if_neg Bool.false_ne_true, ih, hlen', hbuf]
        simp only [List.append_assoc]
      · rw [if_pos rfl, if_pos rfl, hbuf, itemsBytes_nil, List.append_nil]
    · rw [itemsBytes_nil, List.append_nil]

theorem log_buf (w : PageWriter) (body : Bytes) :
    (w.log body).buf = w.buf ++ itemsBytes (logItems w.buf.length body) :=
  logLoop_buf body (body.length + 2) w 0

theorem closePage_buf (w : PageWriter) :
    w.closePage.buf = w.buf ++ itemsBytes (closeItems w.buf.length) := by
  unfold PageWriter.closePage closeItems PageWriter.pageOffset
  split
  · rw [itemsBytes_nil, List.append_nil]
  · rw [itemsBytes_cons, itemsBytes_nil, List.append_nil]
    rfl

/-! ## Where fragments go -/

theorem page_end (off : Nat) : (off + (kPageSize - off % kPageSize)) % kPageSize = 0 := by
  have hmod := Nat.mod_lt off (show 0 < kPageSize by decide)
  have hdiv := Nat.div_add_mod off kPageSize
  have hnext : off + (kPageSize - off % kPageSize) = kPageSize * (off / kPageSize + 1) := by
    rw [Nat.mul_add]
    omega
  rw [hnext, Nat.mul_mod_right]

/-- A header fits at the offset behind the padding. -/
theorem header_fits (off : Nat) :
    kRecordHeaderSize ≤ kPageSize - (off + (itemsBytes (headerPad off)).length) % kPageSize := by
  unfold headerPad
  split
  · rw [itemsBytes_cons, itemsBytes_nil, List.append_nil, Item.bytes, List.length_replicate,
      page_end]
    decide
  · rw [itemsBytes_nil, List.length_nil, Nat.add_zero]
    omega

theorem roomAt_start (off : Nat) :
    roomAt (off + (itemsBytes (headerPad off)).length) =
      kPageSize - (off + (itemsBytes (headerPad off)).length) % kPageSize - kRecordHeaderSize := by
  have hfits := header_fits off
  rw [roomAt, if_neg (by omega)]

theorem roomAt_start_pos {off : Nat} (h : kPageSize - off % kPageSize ≠ kRecordHeaderSize) :
    0 < roomAt (off + (itemsBytes (headerPad off)).length) := by
  have hfits := header_fits off
  rw [roomAt_start]
  unfold headerPad at hfits ⊢
  split at hfits
  · rw [if_pos ‹_›, itemsBytes_cons, itemsBytes_nil, List.append_nil, Item.bytes,
      List.length_replicate, page_end]
    decide
  · rw [if_neg ‹_›, itemsBytes_nil, List.length_nil, Nat.add_zero] at *
    omega

theorem roomAt_lt (off : Nat) : roomAt off < 65536 := by
  rw [roomAt, kPageSize]
  split <;> omega

theorem layout_headerPad (off : Nat) : Layout off (headerPad off) := by
  unfold headerPad
  split
  · exact .pad (.nil _)
  · exact .nil _

theorem fragmentType_ne_pageTerm (a b : Bool) : fragmentType a b ≠ .pageTerm := by
  cases a <;> cases b <;> decide

theorem layout_recordItems (body : Bytes) (fuel off pos : Nat) :
    Layout off (recordItems body fuel off pos) := by
  induction fuel generalizing off pos with
  | zero => exact .nil _
  | succ fuel ih =>
    rw [recordItems]
    split
    · set start := off + (itemsBytes (headerPad off)).length with hstart
      have hroom := roomAt_lt start
      have hfraglen : ((body.drop pos).take (min (body.length - pos) (roomAt start))).length =
          min (body.length - pos) (roomAt start) := by
        rw [List.length_take, List.length_drop]
        omega
      apply (layout_headerPad off).append
      rw [← hstart]
      refine .frag (fragmentType_ne_pageTerm _ _) (by rw [hfraglen]; omega) ?_
      rw [hfraglen]
      split
      · exact .nil _
      · exact ih _ _
    · exact .nil _

theorem layout_logItems (off : Nat) (body : Bytes) : Layout off (logItems off body) :=
  layout_recordItems body _ off 0

theorem layout_closeItems (off : Nat) : Layout off (closeItems off) := by
  unfold closeItems
  split
  · exact .nil _
  · exact .pad (.nil _)

/-! ## What the reader makes of one record -/

/-- A first header at `off` would leave no room for a byte of the body. -/
def SevenLeft (off : Nat) : Prop := kPageSize - off % kPageSize = kRecordHeaderSize

instance (off : Nat) : Decidable (SevenLeft off) :=
  inferInstanceAs (Decidable (kPageSize - off % kPageSize = kRecordHeaderSize))

theorem SevenLeft.headerPad_eq {off : Nat} (h : SevenLeft off) : headerPad off = [] :=
  headerPad_of_room h.ge

theorem SevenLeft.roomAt_eq {off : Nat} (h : SevenLeft off) : roomAt off = 0 := by
  rw [roomAt_of_room h.ge, h, Nat.sub_self]

theorem scan_full (atEnd : Bool → WalReadError) (record body : Bytes) (items : List Item) :
    scan atEnd false record (.frag .full body :: items) =
      (body :: (scan atEnd false [] items).1, (scan atEnd false [] items).2) := rfl

theorem scan_first (atEnd : Bool → WalReadError) (record body : Bytes) (items : List Item) :
    scan atEnd false record (.frag .first body :: items) = scan atEnd true body items := rfl

theorem scan_middle (atEnd : Bool → WalReadError) (record body : Bytes) (items : List Item) :
    scan atEnd true record (.frag .middle body :: items) =
      scan atEnd true (record ++ body) items := rfl

theorem scan_last (atEnd : Bool → WalReadError) (record body : Bytes) (items : List Item) :
    scan atEnd true record (.frag .last body :: items) =
      ((record ++ body) :: (scan atEnd false [] items).1, (scan atEnd false [] items).2) := rfl

theorem scan_headerPad (atEnd : Bool → WalReadError) (isOpen : Bool) (record : Bytes) (off : Nat)
    (items : List Item) :
    scan atEnd isOpen record (headerPad off ++ items) = scan atEnd isOpen record items := by
  unfold headerPad
  split <;> rfl

/-- Behind the last byte of a body there are no more fragments. -/
theorem recordItems_done {body : Bytes} {pos : Nat} (fuel off : Nat) (hbody : body ≠ [])
    (hpos : body.length ≤ pos) : recordItems body fuel off pos = [] := by
  cases fuel with
  | zero => rfl
  | succ fuel =>
    rw [recordItems, if_neg]
    rintro (hlt | ⟨hempty, -⟩)
    · omega
    · exact hbody (List.isEmpty_iff.mp hempty)

/-- The middle and last fragments: `pos` bytes of the record are in, and each page starts afresh. -/
theorem scan_recordItems_open (atEnd : Bool → WalReadError) (body : Bytes) (items : List Item)
    (fuel off pos : Nat) (hpos : pos < body.length) (hoff : off % kPageSize = 0)
    (hpos0 : 0 < pos) (hfuel : body.length - pos ≤ fuel) :
    scan atEnd true (body.take pos) (recordItems body fuel off pos ++ items) =
      (body :: (scan atEnd false [] items).1, (scan atEnd false [] items).2) := by
  induction fuel generalizing off pos with
  | zero => omega
  | succ fuel ih =>
    have hbody : body ≠ [] := List.ne_nil_of_length_pos (by omega)
    have hnonempty : body.isEmpty = false := List.isEmpty_eq_false_iff.mpr hbody
    rw [recordItems, if_pos (Or.inl hpos)]
    dsimp only
    rw [headerPad_aligned hoff, itemsBytes_nil, List.length_nil, Nat.add_zero, roomAt_aligned hoff,
      List.nil_append, hnonempty, if_neg Bool.false_ne_true, List.cons_append]
    set len := min (body.length - pos) (kPageSize - kRecordHeaderSize) with hlen
    have hfirst : decide (pos = 0) = false := decide_eq_false (by omega)
    have htake : body.take pos ++ (body.drop pos).take len = body.take (pos + len) := by
      rw [List.take_add]
    by_cases hlast : pos + len = body.length
    · have hall : body.take (pos + len) = body := by rw [hlast, List.take_length]
      rw [hfirst, decide_eq_true hlast, recordItems_done _ _ hbody (by omega), show fragmentType false true = .last from rfl,
        scan_last, htake, hall, List.nil_append]
    · -- More to come, so this fragment fills its page.
      have hpage : (off + (kRecordHeaderSize + len)) % kPageSize = 0 := by
        rw [show len = kPageSize - kRecordHeaderSize by omega, Nat.add_mod, hoff]
        decide
      rw [hfirst, decide_eq_false hlast, show fragmentType false false = .middle from rfl,
        scan_middle, htake]
      have hsize : kPageSize - kRecordHeaderSize = 32761 := rfl
      exact ih _ _ (by omega) hpage (by omega) (by omega)

/-- A record comes back whole, unless its first fragment is left without room. -/
theorem scan_logItems (atEnd : Bool → WalReadError) (record body : Bytes) (items : List Item)
    {off : Nat} (hroom : body = [] ∨ ¬ SevenLeft off) :
    scan atEnd false record (logItems off body ++ items) =
      (body :: (scan atEnd false [] items).1, (scan atEnd false [] items).2) := by
  rw [logItems, recordItems, if_pos (by cases body <;> simp)]
  dsimp only
  rw [List.append_assoc, scan_headerPad, List.cons_append]
  set start := off + (itemsBytes (headerPad off)).length with hstart
  set len := min (body.length - 0) (roomAt start) with hlen
  rw [List.drop_zero, Nat.zero_add, show decide ((0 : Nat) = 0) = true from rfl]
  by_cases hempty : body = []
  · subst hempty
    rfl
  have hpos : 0 < body.length := List.length_pos_iff.mpr hempty
  have hnonempty : body.isEmpty = false := List.isEmpty_eq_false_iff.mpr hempty
  rw [hnonempty, if_neg Bool.false_ne_true]
  -- Behind the padding, there is room for at least one byte.
  have hlenpos : 0 < len := by
    have hstartpos := roomAt_start_pos (hroom.resolve_left hempty)
    rw [← hstart] at hstartpos
    omega
  by_cases hlast : len = body.length
  · have hall : body.take len = body := by rw [hlast, List.take_length]
    rw [decide_eq_true hlast, show fragmentType true true = .full from rfl, scan_full,
      recordItems_done _ _ hempty (by omega), hall, List.nil_append]
  · have hpage : (start + (kRecordHeaderSize + len)) % kPageSize = 0 := by
      have hfits := header_fits off
      have hfill := roomAt_start off
      rw [← hstart] at hfits hfill
      rw [show kRecordHeaderSize + len = kPageSize - start % kPageSize by omega, page_end]
    rw [decide_eq_false hlast, show fragmentType true false = .first from rfl, scan_first]
    exact scan_recordItems_open atEnd body items _ _ _ (by omega) hpage hlenpos (by omega)

theorem scan_recordItems_again (atEnd : Bool → WalReadError) (record : Bytes) {body : Bytes}
    (items : List Item) (fuel off : Nat) (hbody : body ≠ []) :
    scan atEnd true record (recordItems body (fuel + 1) off 0 ++ items) =
      ([], .unexpectedFirst) := by
  rw [recordItems, if_pos (Or.inl (List.length_pos_iff.mpr hbody))]
  dsimp only
  rw [List.append_assoc, scan_headerPad, List.cons_append, show decide ((0 : Nat) = 0) = true from rfl]
  rcases decide (0 + _ = body.length) <;> rfl

/-- With exactly seven bytes of the page left, the record is framed with two first fragments. -/
theorem scan_logItems_sevenLeft (atEnd : Bool → WalReadError) (record : Bytes) {body : Bytes}
    (items : List Item) {off : Nat} (hbody : body ≠ []) (hseven : SevenLeft off) :
    scan atEnd false record (logItems off body ++ items) = ([], .unexpectedFirst) := by
  have hpos : 0 < body.length := List.length_pos_iff.mpr hbody
  have hnonempty : body.isEmpty = false := List.isEmpty_eq_false_iff.mpr hbody
  rw [logItems, recordItems, if_pos (Or.inl hpos)]
  dsimp only
  rw [hseven.headerPad_eq, itemsBytes_nil, List.length_nil, Nat.add_zero, hseven.roomAt_eq,
    Nat.min_zero, Nat.add_zero,
    Nat.add_zero, hnonempty, if_neg Bool.false_ne_true, List.nil_append, List.cons_append,
    decide_eq_false (show ¬ 0 = body.length by omega),
    show fragmentType (decide ((0 : Nat) = 0)) false = .first from rfl, scan_first]
  -- The next round has still written nothing, and calls its fragment the first again.
  exact scan_recordItems_again atEnd _ items _ _ hbody


/-! ## Runs of the writer -/

/-- A call on a `PageWriter`. -/
inductive PageOp
  | log (body : Bytes)
  | closePage
  deriving DecidableEq, Repr

def PageWriter.step (w : PageWriter) : PageOp → PageWriter
  | .log body => w.log body
  | .closePage => w.closePage

def PageWriter.run (w : PageWriter) (ops : List PageOp) : PageWriter :=
  ops.foldl PageWriter.step w

/-- The bodies logged by a run. -/
def PageOp.bodies : List PageOp → List Bytes
  | [] => []
  | .log body :: ops => body :: bodies ops
  | .closePage :: ops => bodies ops

/-- No non-empty body is logged with exactly seven bytes of the page left. -/
def PageOp.Clear (w : PageWriter) : PageOp → Prop
  | .log body => body = [] ∨ ¬ SevenLeft w.buf.length
  | .closePage => True

def PageOp.ClearRun : PageWriter → List PageOp → Prop
  | _, [] => True
  | w, op :: ops => op.Clear w ∧ ClearRun (w.step op) ops

instance PageOp.decidableClear (w : PageWriter) : (op : PageOp) → Decidable (op.Clear w)
  | .log body => inferInstanceAs (Decidable (body = [] ∨ ¬ SevenLeft w.buf.length))
  | .closePage => inferInstanceAs (Decidable True)

instance PageOp.decidableClearRun : (w : PageWriter) → (ops : List PageOp) →
    Decidable (PageOp.ClearRun w ops)
  | _, [] => inferInstanceAs (Decidable True)
  | w, op :: ops =>
    have := PageOp.decidableClearRun (w.step op) ops
    inferInstanceAs (Decidable (op.Clear w ∧ PageOp.ClearRun (w.step op) ops))

def opItems (off : Nat) : PageOp → List Item
  | .log body => logItems off body
  | .closePage => closeItems off

/-- The items a run lays out from offset `off` on. -/
def runItems : Nat → List PageOp → List Item
  | _, [] => []
  | off, op :: ops =>
    opItems off op ++ runItems (off + (itemsBytes (opItems off op)).length) ops

theorem step_buf (w : PageWriter) (op : PageOp) :
    (w.step op).buf = w.buf ++ itemsBytes (opItems w.buf.length op) := by
  cases op with
  | log body => exact log_buf w body
  | closePage => exact closePage_buf w

theorem run_buf (w : PageWriter) (ops : List PageOp) :
    (w.run ops).buf = w.buf ++ itemsBytes (runItems w.buf.length ops) := by
  induction ops generalizing w with
  | nil => exact (List.append_nil _).symm
  | cons op ops ih =>
    have hrun : w.run (op :: ops) = (w.step op).run ops := rfl
    rw [hrun, ih, runItems, itemsBytes_append, step_buf, List.length_append, List.append_assoc]

theorem layout_opItems (off : Nat) (op : PageOp) : Layout off (opItems off op) := by
  cases op with
  | log body => exact layout_logItems off body
  | closePage => exact layout_closeItems off

theorem layout_runItems (off : Nat) (ops : List PageOp) : Layout off (runItems off ops) := by
  induction ops generalizing off with
  | nil => exact .nil _
  | cons op ops ih => exact (layout_opItems off op).append (ih _)

theorem scan_closeItems (atEnd : Bool → WalReadError) (isOpen : Bool) (record : Bytes) (off : Nat)
    (items : List Item) :
    scan atEnd isOpen record (closeItems off ++ items) = scan atEnd isOpen record items := by
  unfold closeItems
  split <;> rfl

/-- A clear run comes back record for record. -/
theorem scan_runItems (atEnd : Bool → WalReadError) (w : PageWriter) (ops : List PageOp)
    (hclear : PageOp.ClearRun w ops) (record : Bytes) :
    scan atEnd false record (runItems w.buf.length ops) = (PageOp.bodies ops, atEnd false) := by
  induction ops generalizing w record with
  | nil => rfl
  | cons op ops ih =>
    obtain ⟨hop, hrest⟩ := hclear
    have hnext := ih _ hrest
    rw [step_buf, List.length_append] at hnext
    rw [runItems]
    cases op with
    | log body =>
      rw [opItems, scan_logItems atEnd record body _ hop]
      have hrec := hnext []
      rw [opItems] at hrec
      rw [hrec]
      rfl
    | closePage =>
      rw [opItems, scan_closeItems]
      exact hnext record

/-- Any other run is refused at its first unclear record. -/
theorem scan_runItems_of_not_clear (atEnd : Bool → WalReadError) (w : PageWriter)
    (ops : List PageOp) (hclear : ¬ PageOp.ClearRun w ops) (record : Bytes) :
    (scan atEnd false record (runItems w.buf.length ops)).2 = .unexpectedFirst := by
  induction ops generalizing w record with
  | nil => exact absurd trivial hclear
  | cons op ops ih =>
    rw [runItems]
    by_cases hop : op.Clear w
    · have hrest : ¬ PageOp.ClearRun (w.step op) ops := fun h ↦ hclear ⟨hop, h⟩
      have hnext := ih _ hrest
      rw [step_buf, List.length_append] at hnext
      cases op with
      | log body =>
        rw [opItems, scan_logItems atEnd record body _ hop]
        exact hnext []
      | closePage =>
        rw [opItems, scan_closeItems]
        exact hnext record
    · cases op with
      | log body =>
        obtain ⟨hbody, hseven⟩ := not_or.mp hop
        rw [opItems, scan_logItems_sevenLeft atEnd record _ hbody (not_not.mp hseven)]
      | closePage => exact absurd trivial hop

theorem readAll_run (ops : List PageOp) :
    PageReader.readAll (({} : PageWriter).run ops).bytes =
      scan cleanEnd false [] (runItems 0 ops) := by
  have hbuf := run_buf {} ops
  have hitems := readAll_items (layout_runItems 0 ops) (endsWith_nil _)
  rw [List.append_nil] at hitems
  rw [PageWriter.bytes, hbuf]
  exact hitems

/-- The page reader returns exactly the logged bodies, and then the end of the stream, if and only
if no non-empty body was logged with exactly seven bytes of its page left. -/
theorem readAll_run_iff (ops : List PageOp) :
    PageReader.readAll (({} : PageWriter).run ops).bytes = (PageOp.bodies ops, .endOfStream) ↔
      PageOp.ClearRun {} ops := by
  rw [readAll_run]
  constructor
  · intro hread
    by_contra hclear
    have herr := scan_runItems_of_not_clear cleanEnd {} ops hclear []
    change (scan cleanEnd false [] (runItems 0 ops)).2 = _ at herr
    rw [hread] at herr
    cases herr
  · exact fun hclear ↦ scan_runItems cleanEnd {} ops hclear []

/-- A record that fits in the rest of the page takes its length and one header. -/
theorem length_logItems_of_fits {off : Nat} {body : Bytes} (hbody : body ≠ [])
    (hfits : kRecordHeaderSize + body.length ≤ kPageSize - off % kPageSize) :
    (itemsBytes (logItems off body)).length = kRecordHeaderSize + body.length := by
  have hpos : 0 < body.length := List.length_pos_iff.mpr hbody
  have hnonempty : body.isEmpty = false := List.isEmpty_eq_false_iff.mpr hbody
  have hpad : headerPad off = [] := headerPad_of_room (by omega)
  have hroom : roomAt off = kPageSize - off % kPageSize - kRecordHeaderSize :=
    roomAt_of_room (by omega)
  rw [logItems, recordItems, if_pos (Or.inl hpos)]
  dsimp only
  rw [hpad, itemsBytes_nil, List.length_nil, Nat.add_zero, hroom, hnonempty,
    if_neg Bool.false_ne_true, List.nil_append, recordItems, if_neg (by omega), itemsBytes_cons,
    itemsBytes_nil, List.append_nil, Item.bytes, length_fragBytes, List.length_take, List.length_drop]
  omega

theorem run_sevenLeft_not_clear {body : Bytes} (hlen : body.length = 32754) :
    ¬ PageOp.ClearRun {} [.log body, .log [1]] := by
  rintro ⟨-, hclear, -⟩
  rcases hclear with hempty | hroom
  · cases hempty
  · apply hroom
    have hbody : body ≠ [] := List.ne_nil_of_length_pos (by omega)
    have hroom : kRecordHeaderSize + body.length ≤ kPageSize - 0 % kPageSize := by
      rw [hlen]
      decide
    have hitems := length_logItems_of_fits hbody hroom
    rw [hlen] at hitems
    have hbuf := congrArg List.length (log_buf {} body)
    rw [List.length_append] at hbuf
    change _ = 0 + (itemsBytes (logItems 0 body)).length at hbuf
    rw [SevenLeft, PageWriter.step, hbuf, hitems]
    rfl

/-- The first record ends seven bytes before the end of the page, and the next is refused. -/
theorem readAll_sevenLeft :
    PageReader.readAll
        (({} : PageWriter).run [.log (List.replicate 32754 0), .log [1]]).bytes ≠
      (PageOp.bodies [.log (List.replicate 32754 0), .log [1]], .endOfStream) := by
  intro hread
  have herr := scan_runItems_of_not_clear cleanEnd {} _
    (run_sevenLeft_not_clear (List.length_replicate (n := 32754) (a := 0))) []
  rw [readAll_run] at hread
  change (scan cleanEnd false [] (runItems 0 _)).2 = _ at herr
  rw [hread] at herr
  cases herr

end MerlionTsdb.Wal
