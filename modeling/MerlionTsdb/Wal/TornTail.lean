import MerlionTsdb.Wal.SegmentRead
import MerlionTsdb.Wal.PageRoundtrip

/-!
# Torn tails

What the segment reader makes of a last segment cut at any length.  A cut between two fragments, or
inside padding, is dropped as a torn tail; a cut inside a fragment is reported as invalid framing.
-/

namespace MerlionTsdb.Wal

/-! ## Cutting a list of items -/

/-- The items that lie entirely within the first `n` bytes. -/
def cutItems : List Item → Nat → List Item
  | [], _ => []
  | item :: items, n =>
    if item.bytes.length ≤ n then item :: cutItems items (n - item.bytes.length) else []

def Item.isFragment : Item → Bool
  | .frag _ _ => true
  | .pad _ => false

/-- Whether byte `n` falls strictly inside a fragment: its header or its body. -/
def cutsFragment : List Item → Nat → Bool
  | [], _ => false
  | item :: items, n =>
    if item.bytes.length ≤ n then cutsFragment items (n - item.bytes.length)
    else item.isFragment && n ≠ 0

/-- How the page reader ends at a cut. -/
def cutEnd (inFragment : Bool) (isOpen : Bool) : WalReadError :=
  if inFragment then .unexpectedEnd else cleanEnd isOpen

theorem cutItems_append_of_le (as bs : List Item) {n : Nat} (h : (itemsBytes as).length ≤ n) :
    cutItems (as ++ bs) n = as ++ cutItems bs (n - (itemsBytes as).length) := by
  induction as generalizing n with
  | nil => rfl
  | cons item as ih =>
    rw [itemsBytes_cons, List.length_append] at h ⊢
    rw [List.cons_append, cutItems, if_pos (by omega), ih (by omega), List.cons_append, Nat.sub_sub]

theorem cutItems_append_of_lt (as bs : List Item) {n : Nat} (h : n < (itemsBytes as).length) :
    cutItems (as ++ bs) n = cutItems as n := by
  induction as generalizing n with
  | nil => simp at h
  | cons item as ih =>
    rw [itemsBytes_cons, List.length_append] at h
    rw [List.cons_append, cutItems, cutItems]
    split
    · rw [ih (by omega)]
    · rfl

theorem cutsFragment_append_of_le (as bs : List Item) {n : Nat} (h : (itemsBytes as).length ≤ n) :
    cutsFragment (as ++ bs) n = cutsFragment bs (n - (itemsBytes as).length) := by
  induction as generalizing n with
  | nil => rfl
  | cons item as ih =>
    rw [itemsBytes_cons, List.length_append] at h ⊢
    rw [List.cons_append, cutsFragment, if_pos (by omega), ih (by omega), Nat.sub_sub]

/-- A cut buffer is a buffer of whole items and a tail that ends the reader. -/
theorem exists_cut_tail {off : Nat} {items : List Item} (hlayout : Layout off items) (n : Nat) :
    Layout off (cutItems items n) ∧
      ∃ tail, (itemsBytes items).take n = itemsBytes (cutItems items n) ++ tail ∧
        EndsWith (cutEnd (cutsFragment items n)) (off + (itemsBytes (cutItems items n)).length)
          tail := by
  induction hlayout generalizing n with
  | nil off => exact ⟨.nil _, [], by simp [cutItems], endsWith_nil _⟩
  | @frag off t body items ht hlen _ ih =>
    have hsize : (Item.frag t body).bytes.length = kRecordHeaderSize + body.length :=
      length_fragBytes t body
    rw [itemsBytes_cons, cutItems, cutsFragment]
    by_cases hfits : (Item.frag t body).bytes.length ≤ n
    · rw [if_pos hfits, if_pos hfits]
      obtain ⟨hrest, tail, htake, hend⟩ := ih (n - (Item.frag t body).bytes.length)
      refine ⟨.frag ht hlen hrest, tail, ?_, ?_⟩
      · rw [List.take_append, List.take_of_length_le hfits, htake, itemsBytes_cons,
          List.append_assoc]
      · rw [itemsBytes_cons, List.length_append, ← Nat.add_assoc]
        rw [hsize] at hend ⊢
        exact hend
    · -- The cut is in this fragment: the reader ends in it, or in front of it.
      rw [if_neg hfits, if_neg hfits]
      refine ⟨.nil _, (Item.frag t body).bytes.take n, ?_, ?_⟩
      · rw [List.take_append_of_le_length (by omega)]
        rfl
      · rw [Item.isFragment, Bool.true_and]
        by_cases hzero : n = 0
        · subst hzero
          exact endsWith_nil _
        · have hcut : cutEnd (decide (n ≠ 0)) = fun _ ↦ .unexpectedEnd := by
            rw [decide_eq_true hzero]
            rfl
          rw [hcut]
          apply endsWith_cut _ ht hlen (Nat.pos_of_ne_zero hzero)
          exact Nat.lt_of_not_le hfits
  | @pad off items _ ih =>
    rw [itemsBytes_cons, cutItems, cutsFragment]
    by_cases hfits : (Item.pad (kPageSize - off % kPageSize)).bytes.length ≤ n
    · rw [if_pos hfits, if_pos hfits]
      obtain ⟨hrest, tail, htake, hend⟩ :=
        ih (n - (Item.pad (kPageSize - off % kPageSize)).bytes.length)
      refine ⟨.pad hrest, tail, ?_, ?_⟩
      · rw [List.take_append, List.take_of_length_le hfits, htake, itemsBytes_cons,
          List.append_assoc]
      · rw [itemsBytes_cons, List.length_append, ← Nat.add_assoc]
        rw [Item.bytes, List.length_replicate] at hend ⊢
        exact hend
    · -- A cut in the padding leaves zeros, which the reader skips.
      rw [if_neg hfits, if_neg hfits]
      rw [Item.bytes, List.length_replicate] at hfits
      refine ⟨.nil _, List.replicate n 0, ?_, ?_⟩
      · rw [List.take_append_of_le_length (by rw [Item.bytes, List.length_replicate]; omega),
          Item.bytes, List.take_replicate, Nat.min_eq_left (by omega)]
        rfl
      · apply endsWith_zeros
        rw [itemsBytes_nil, List.length_nil, Nat.add_zero]
        omega

/-- Reading a cut buffer. -/
theorem readAll_take {items : List Item} (hlayout : Layout 0 items) (n : Nat) :
    PageReader.readAll ((itemsBytes items).take n) =
      scan (cutEnd (cutsFragment items n)) false [] (cutItems items n) := by
  obtain ⟨hrest, tail, htake, hend⟩ := exists_cut_tail hlayout n
  rw [htake]
  rw [Nat.zero_add] at hend
  exact readAll_items hrest hend
/-! ## A record under the cut -/

theorem cutItems_zero {off : Nat} {items : List Item} (hlayout : Layout off items) :
    cutItems items 0 = [] := by
  cases hlayout with
  | nil => rfl
  | frag =>
    rw [cutItems, if_neg]
    simp [Item.bytes, kRecordHeaderSize]
  | pad =>
    have := Nat.mod_lt off (show 0 < kPageSize by decide)
    rw [cutItems, if_neg]
    simp only [Item.bytes, List.length_replicate]
    omega

theorem cutsFragment_zero {off : Nat} {items : List Item} (hlayout : Layout off items) :
    cutsFragment items 0 = false := by
  cases hlayout with
  | nil => rfl
  | frag =>
    rw [cutsFragment, if_neg]
    · simp
    · simp [Item.bytes, kRecordHeaderSize]
  | pad =>
    have := Nat.mod_lt off (show 0 < kPageSize by decide)
    rw [cutsFragment, if_neg]
    · simp
    · simp only [Item.bytes, List.length_replicate]
      omega

theorem scan_cutItems_headerPad (atEnd : Bool → WalReadError) (isOpen : Bool) (record : Bytes)
    (off n : Nat) (items : List Item) :
    scan atEnd isOpen record (cutItems (headerPad off ++ items) n) =
      if n < (itemsBytes (headerPad off)).length then ([], atEnd isOpen)
      else scan atEnd isOpen record (cutItems items (n - (itemsBytes (headerPad off)).length)) := by
  split
  · rename_i hpad
    rw [cutItems_append_of_lt _ _ hpad]
    unfold headerPad at hpad ⊢
    split at hpad
    · rw [if_pos ‹_›, cutItems, if_neg (by simpa [itemsBytes_cons] using hpad), scan]
    · simp at hpad
  · rw [cutItems_append_of_le _ _ (by omega), scan_headerPad]

theorem length_fragment_bytes (t : RecType) (body : Bytes) {pos len : Nat}
    (h : pos + len ≤ body.length) :
    (Item.frag t ((body.drop pos).take len)).bytes.length = kRecordHeaderSize + len := by
  rw [Item.bytes, length_fragBytes, List.length_take, List.length_drop]
  omega

/-- The middle and last fragments of a record that is not all there. -/
theorem scan_cutItems_open (atEnd : Bool → WalReadError) (body record : Bytes)
    (fuel off pos n : Nat) (hpos : 0 < pos)
    (hcut : n < (itemsBytes (recordItems body fuel off pos)).length) :
    scan atEnd true record (cutItems (recordItems body fuel off pos) n) = ([], atEnd true) := by
  induction fuel generalizing off pos n record with
  | zero => simp [recordItems] at hcut
  | succ fuel ih =>
    rw [recordItems] at hcut ⊢
    split at hcut
    swap
    · simp at hcut
    rename_i hmore
    have hlt : pos < body.length := by omega
    have hbody : body ≠ [] := List.ne_nil_of_length_pos (by omega)
    have hnonempty : body.isEmpty = false := List.isEmpty_eq_false_iff.mpr hbody
    rw [if_pos hmore]
    dsimp only at hcut ⊢
    rw [hnonempty, if_neg Bool.false_ne_true] at hcut ⊢
    set start := off + (itemsBytes (headerPad off)).length with hstart
    set len := min (body.length - pos) (roomAt start) with hlen
    have hsize := fun t ↦ length_fragment_bytes t body (show pos + len ≤ body.length by omega)
    rw [itemsBytes_append, List.length_append, itemsBytes_cons, List.length_append, hsize] at hcut
    rw [scan_cutItems_headerPad]
    split
    · rfl
    rw [cutItems, hsize]
    split
    swap
    · rfl
    rw [decide_eq_false (show ¬ pos = 0 by omega)]
    by_cases hlast : pos + len = body.length
    · -- Behind the last fragment there is nothing to cut.
      rw [recordItems_done _ _ hbody (by omega), itemsBytes_nil, List.length_nil] at hcut
      omega
    · rw [decide_eq_false hlast, show fragmentType false false = .middle from rfl, scan_middle]
      apply ih <;> omega

/-- A record that is not all there is not read, and the reader stops as at its end. -/
theorem scan_cutItems_logItems (atEnd : Bool → WalReadError) {body : Bytes} {off n : Nat}
    (hroom : body = [] ∨ ¬ SevenLeft off ∨ n ≤ kRecordHeaderSize)
    (hcut : n < (itemsBytes (logItems off body)).length) :
    ∃ isOpen, scan atEnd false [] (cutItems (logItems off body) n) = ([], atEnd isOpen) := by
  rw [logItems, recordItems, if_pos (by cases body <;> simp)] at hcut ⊢
  dsimp only at hcut ⊢
  set start := off + (itemsBytes (headerPad off)).length with hstart
  set len := min (body.length - 0) (roomAt start) with hlen
  have hsize := fun t ↦ length_fragment_bytes t body (show 0 + len ≤ body.length by omega)
  rw [itemsBytes_append, List.length_append, itemsBytes_cons, List.length_append, hsize,
    Nat.zero_add] at hcut
  rw [scan_cutItems_headerPad, Nat.zero_add]
  split
  · exact ⟨false, rfl⟩
  rw [cutItems, hsize]
  split
  swap
  · exact ⟨false, rfl⟩
  rename_i hpad hfits
  by_cases hempty : body = []
  · -- An empty record is one header.
    subst hempty
    have hnone : len = 0 := by simp [hlen]
    rw [List.isEmpty_nil, if_pos rfl, itemsBytes_nil, List.length_nil] at hcut
    omega
  have hnonempty : body.isEmpty = false := List.isEmpty_eq_false_iff.mpr hempty
  have hbody : 0 < body.length := List.length_pos_iff.mpr hempty
  rw [hnonempty, if_neg Bool.false_ne_true] at hcut ⊢
  by_cases hlast : len = body.length
  · have hdone : recordItems body (body.length + 1) (start + (kRecordHeaderSize + len)) len = [] := by
      rw [recordItems, if_neg (by omega)]
    rw [hdone, itemsBytes_nil, List.length_nil] at hcut
    omega
  -- The first fragment is whole, so the record is open from there on.
  rw [show decide ((0 : Nat) = 0) = true from rfl, decide_eq_false hlast,
    show fragmentType true false = .first from rfl, scan_first]
  refine ⟨true, ?_⟩
  by_cases hzero : len = 0
  · -- The first fragment has no room, so the cut is right behind its header.
    have hseven : SevenLeft off := by
      by_contra hseven
      have hstartpos := roomAt_start_pos hseven
      rw [← hstart] at hstartpos
      omega
    have hhere : n - (itemsBytes (headerPad off)).length - (kRecordHeaderSize + len) = 0 := by
      have := (hroom.resolve_left hempty).resolve_left (not_not_intro hseven)
      omega
    rw [hhere, cutItems_zero (layout_recordItems _ _ _ _), scan]
  · apply scan_cutItems_open <;> omega

theorem recordItems_start {body : Bytes} (hbody : body ≠ []) {off : Nat} (hpad : headerPad off = [])
    (fuel : Nat) :
    recordItems body (fuel + 1) off 0 =
      .frag (fragmentType true (min body.length (roomAt off) = body.length))
          (body.take (min body.length (roomAt off))) ::
        recordItems body fuel (off + (kRecordHeaderSize + min body.length (roomAt off)))
          (min body.length (roomAt off)) := by
  have hpos : 0 < body.length := List.length_pos_iff.mpr hbody
  have hnonempty : body.isEmpty = false := List.isEmpty_eq_false_iff.mpr hbody
  rw [recordItems, if_pos (Or.inl hpos)]
  dsimp only
  rw [hpad, itemsBytes_nil, List.length_nil, Nat.add_zero, Nat.sub_zero, hnonempty,
    if_neg Bool.false_ne_true, List.nil_append, List.drop_zero, Nat.zero_add]
  rfl

/-- With seven bytes of the page left, a record starts with two first fragments. -/
theorem logItems_sevenLeft {body : Bytes} {off : Nat} (hbody : body ≠ []) (hseven : SevenLeft off) :
    ∃ isFull body' items, logItems off body =
      .frag .first [] :: .frag (fragmentType true isFull) body' :: items := by
  have hpos : 0 < body.length := List.length_pos_iff.mpr hbody
  have hpage : (off + (kRecordHeaderSize + 0)) % kPageSize = 0 := by
    rw [Nat.add_zero, show kRecordHeaderSize = kPageSize - off % kPageSize from hseven.symm, page_end]
  have hfirst := recordItems_start hbody hseven.headerPad_eq (body.length + 1)
  rw [hseven.roomAt_eq, Nat.min_zero, List.take_zero, decide_eq_false (show ¬ 0 = body.length by omega),
    recordItems_start hbody (headerPad_aligned hpage)] at hfirst
  exact ⟨_, _, _, hfirst⟩

theorem length_logItems_sevenLeft {body : Bytes} {off : Nat} (hbody : body ≠ [])
    (hseven : SevenLeft off) : kRecordHeaderSize < (itemsBytes (logItems off body)).length := by
  obtain ⟨isFull, body', items, hitems⟩ := logItems_sevenLeft hbody hseven
  rw [hitems, itemsBytes_cons, itemsBytes_cons]
  simp only [Item.bytes, List.length_append, length_fragBytes, List.length_nil, kRecordHeaderSize]
  omega

/-- The second of the two first fragments is refused as soon as the cut leaves it whole. -/
theorem scan_cutItems_sevenLeft (atEnd : Bool → WalReadError) {body : Bytes} (later : List Item)
    {off n : Nat} (hbody : body ≠ []) (hseven : SevenLeft off) (hn : kRecordHeaderSize < n)
    (hcut : cutsFragment (logItems off body ++ later) n = false) :
    scan atEnd false [] (cutItems (logItems off body ++ later) n) = ([], .unexpectedFirst) := by
  obtain ⟨isFull, body', items, hitems⟩ := logItems_sevenLeft hbody hseven
  have hfirst : (Item.frag .first []).bytes.length = kRecordHeaderSize := rfl
  rw [hitems, List.cons_append, List.cons_append, cutsFragment, if_pos (by omega),
    cutsFragment] at hcut
  rw [hitems, List.cons_append, List.cons_append, cutItems, if_pos (by omega), cutItems]
  split at hcut
  · rw [if_pos ‹_›]
    cases isFull <;> rfl
  · rw [Item.isFragment, Bool.true_and, decide_eq_false_iff_not, not_not] at hcut
    omega

/-! ## The records of a cut segment -/

/-- The bodies whose framed bytes lie entirely within the first `n` bytes. -/
def keptBodies (n : Nat) : PageWriter → List Bytes → List Bytes
  | _, [] => []
  | w, body :: bodies =>
    if (w.log body).buf.length ≤ n then body :: keptBodies n (w.log body) bodies else []

/-- No non-empty body is logged with seven bytes of the page left, unless the cut removes all of it
but that header. -/
def ClearUpTo (n : Nat) : PageWriter → List Bytes → Prop
  | _, [] => True
  | w, body :: bodies =>
    (body = [] ∨ ¬ SevenLeft w.buf.length ∨ n ≤ w.buf.length + kRecordHeaderSize) ∧
      ClearUpTo n (w.log body) bodies

theorem length_log (w : PageWriter) (body : Bytes) :
    (w.log body).buf.length = w.buf.length + (itemsBytes (logItems w.buf.length body)).length := by
  rw [log_buf, List.length_append]

theorem length_log_le (w : PageWriter) (body : Bytes) : w.buf.length ≤ (w.log body).buf.length := by
  rw [length_log]
  exact Nat.le_add_right _ _

/-- Nothing is kept, and nothing unclear seen, behind the cut. -/
theorem keptBodies_of_lt {n : Nat} (w : PageWriter) (bodies : List Bytes) (h : n < w.buf.length) :
    keptBodies n w bodies = [] ∧ ClearUpTo n w bodies := by
  induction bodies generalizing w with
  | nil => exact ⟨rfl, trivial⟩
  | cons body bodies ih =>
    have hle := length_log_le w body
    refine ⟨by rw [keptBodies, if_neg (by omega)], Or.inr (Or.inr (by omega)), ?_⟩
    exact (ih (w.log body) (by omega)).2

/-- The items of a run of `log` calls. -/
def bodiesItems (off : Nat) (bodies : List Bytes) : List Item :=
  runItems off (bodies.map .log)

theorem bodiesItems_cons (w : PageWriter) (body : Bytes) (bodies : List Bytes) :
    bodiesItems w.buf.length (body :: bodies) =
      logItems w.buf.length body ++ bodiesItems (w.log body).buf.length bodies := by
  rw [bodiesItems, bodiesItems, length_log]
  rfl

/-- A cut outside fragments leaves the records before it and a clean or torn end. -/
theorem scan_cutItems_run (atEnd : Bool → WalReadError) {n : Nat} (w : PageWriter)
    (bodies : List Bytes) (hclear : ClearUpTo n w bodies) (hn : w.buf.length ≤ n) :
    ∃ isOpen,
      scan atEnd false [] (cutItems (bodiesItems w.buf.length bodies) (n - w.buf.length)) =
        (keptBodies n w bodies, atEnd isOpen) := by
  induction bodies generalizing w with
  | nil => exact ⟨false, rfl⟩
  | cons body bodies ih =>
    obtain ⟨hbody, hrest⟩ := hclear
    have hlen := length_log w body
    rw [bodiesItems_cons, keptBodies]
    by_cases hfits : (w.log body).buf.length ≤ n
    · obtain ⟨isOpen, hscan⟩ := ih (w.log body) hrest hfits
      have hroom : body = [] ∨ ¬ SevenLeft w.buf.length := by
        rcases hbody with hempty | hroom | hend
        · exact Or.inl hempty
        · exact Or.inr hroom
        · -- More than a header of the record is there.
          by_contra hnot
          obtain ⟨hempty, hseven⟩ := not_or.mp hnot
          have := length_logItems_sevenLeft hempty (not_not.mp hseven)
          omega
      refine ⟨isOpen, ?_⟩
      rw [if_pos hfits, cutItems_append_of_le _ _ (by omega), scan_logItems _ _ _ _ hroom,
        Nat.sub_sub, ← hlen, hscan]
    · rw [if_neg hfits, cutItems_append_of_lt _ _ (by omega)]
      apply scan_cutItems_logItems _ _ (by omega)
      rcases hbody with hempty | hroom | hend
      · exact Or.inl hempty
      · exact Or.inr (Or.inl hroom)
      · exact Or.inr (Or.inr (by omega))
/-- Outside fragments, a cut behind an unclear record is refused. -/
theorem scan_cutItems_of_not_clear (atEnd : Bool → WalReadError) {n : Nat} (w : PageWriter)
    (bodies : List Bytes) (hclear : ¬ ClearUpTo n w bodies) (hn : w.buf.length ≤ n)
    (hcut : cutsFragment (bodiesItems w.buf.length bodies) (n - w.buf.length) = false) :
    (scan atEnd false [] (cutItems (bodiesItems w.buf.length bodies) (n - w.buf.length))).2 =
      .unexpectedFirst := by
  induction bodies generalizing w with
  | nil => exact absurd trivial hclear
  | cons body bodies ih =>
    have hlen := length_log w body
    rw [bodiesItems_cons] at hcut ⊢
    by_cases hbody : body = [] ∨ ¬ SevenLeft w.buf.length
    · -- This record is clear, so one of the later ones is not.
      have hrest : ¬ ClearUpTo n (w.log body) bodies := by
        intro hrest
        apply hclear
        refine ⟨?_, hrest⟩
        rcases hbody with hempty | hroom
        · exact Or.inl hempty
        · exact Or.inr (Or.inl hroom)
      have hfits : (w.log body).buf.length ≤ n := by
        by_contra hnot
        exact hrest (keptBodies_of_lt _ _ (by omega)).2
      rw [cutsFragment_append_of_le _ _ (by omega), Nat.sub_sub, ← hlen] at hcut
      rw [cutItems_append_of_le _ _ (by omega), scan_logItems _ _ _ _ hbody, Nat.sub_sub, ← hlen]
      exact ih (w.log body) hrest hfits hcut
    · -- This is the unclear record, and the cut is behind its first header.
      obtain ⟨hempty, hseven⟩ := not_or.mp hbody
      have hn' : kRecordHeaderSize < n - w.buf.length := by
        by_contra hnot
        apply hclear
        refine ⟨Or.inr (Or.inr (by omega)), ?_⟩
        have hshort := length_logItems_sevenLeft hempty (not_not.mp hseven)
        exact (keptBodies_of_lt (w.log body) bodies (by omega)).2
      rw [scan_cutItems_sevenLeft atEnd _ hempty (not_not.mp hseven) hn' hcut]

theorem accept_error {t : RecType} {body record : Bytes} {isOpen : Bool} {e : WalReadError}
    (h : PageReader.accept t body isOpen record = .error e) : tolerated e true = false := by
  cases t <;> cases isOpen <;> cases h <;> rfl

/-- A cut inside a fragment is never taken for an end. -/
theorem scan_cutEnd_fragment (isOpen : Bool) (record : Bytes) (items : List Item) :
    tolerated (scan (cutEnd true) isOpen record items).2 true = false := by
  induction items generalizing isOpen record with
  | nil => rfl
  | cons item items ih =>
    cases item with
    | pad n => exact ih isOpen record
    | frag t body =>
      rw [scan]
      rcases haccept : PageReader.accept t body isOpen record with e | ⟨_ | _, record'⟩
      · exact accept_error haccept
      · exact ih false []
      · exact ih true record'

/-! ## A directory with a torn last segment -/

/-- The content of a segment that is being written. -/
def openSegment (bodies : List Bytes) : Bytes :=
  (({} : PageWriter).run (bodies.map .log)).bytes

/-- The content of a segment that was cut. -/
def closedSegment (bodies : List Bytes) : Bytes :=
  (({} : PageWriter).run (bodies.map .log ++ [.closePage])).bytes

/-- Every record of a cut segment is clear. -/
def ClearSegment (bodies : List Bytes) : Prop :=
  PageOp.ClearRun {} (bodies.map .log ++ [.closePage])

theorem bodies_map_log (bodies : List Bytes) (ops : List PageOp) :
    PageOp.bodies (bodies.map .log ++ ops) = bodies ++ PageOp.bodies ops := by
  induction bodies with
  | nil => rfl
  | cons body bodies ih =>
    rw [List.map_cons, List.cons_append, PageOp.bodies, ih]
    rfl

theorem readAll_closedSegment {bodies : List Bytes} (hclear : ClearSegment bodies) :
    PageReader.readAll (closedSegment bodies) = (bodies, .endOfStream) := by
  have hscan := scan_runItems cleanEnd {} _ hclear []
  rw [bodies_map_log] at hscan
  rw [closedSegment, readAll_run]
  simpa [PageOp.bodies, cleanEnd] using hscan

theorem readAll_closedSegment_of_not_clear {bodies : List Bytes} (hclear : ¬ ClearSegment bodies) :
    (PageReader.readAll (closedSegment bodies)).2 = .unexpectedFirst := by
  rw [closedSegment, readAll_run]
  exact scan_runItems_of_not_clear cleanEnd {} _ hclear []

theorem readAll_openSegment_take (bodies : List Bytes) (n : Nat) :
    PageReader.readAll ((openSegment bodies).take n) =
      scan (cutEnd (cutsFragment (bodiesItems 0 bodies) n)) false []
        (cutItems (bodiesItems 0 bodies) n) := by
  have hbuf := run_buf {} (bodies.map PageOp.log)
  rw [openSegment, PageWriter.bytes, hbuf]
  exact readAll_take (layout_runItems 0 _) n

/-- A record cut at the end of its first page. -/
theorem readAll_torn_page {body : Bytes} (hlong : kPageSize - kRecordHeaderSize < body.length) :
    PageReader.readAll ((openSegment [body]).take kPageSize) = ([], .tornRecord) := by
  have hbody : body ≠ [] := by
    rintro rfl
    exact absurd hlong (by decide)
  have hroom : min body.length (roomAt 0) = kPageSize - kRecordHeaderSize := by
    have hpage : roomAt 0 = kPageSize - kRecordHeaderSize := by decide
    rw [hpage, Nat.min_eq_right hlong.le]
  have hpad : headerPad 0 = [] := by decide
  have hstart := recordItems_start hbody hpad (body.length + 1)
  rw [hroom, decide_eq_false (by omega)] at hstart
  obtain ⟨later, hitems⟩ : ∃ later, bodiesItems 0 [body] =
      .frag .first (body.take (kPageSize - kRecordHeaderSize)) :: later :=
    ⟨_, congrArg (· ++ _) hstart⟩
  have hlayout : Layout 0 (bodiesItems 0 [body]) := layout_runItems 0 _
  rw [hitems] at hlayout
  cases hlayout with
  | frag _ _ hlater =>
    have hlength : (Item.frag .first (body.take (kPageSize - kRecordHeaderSize))).bytes.length =
        kPageSize := by
      rw [Item.bytes, length_fragBytes, List.length_take, Nat.min_eq_left hlong.le]
      rfl
    rw [readAll_openSegment_take, hitems, cutItems, cutsFragment, hlength, if_pos le_rfl,
      if_pos le_rfl, Nat.sub_self,
      cutItems_zero hlater, cutsFragment_zero hlater]
    rfl

theorem joinSegments_closed {earlier : List (List Bytes)}
    (hclear : ∀ bodies ∈ earlier, ClearSegment bodies) (later : List Bytes) :
    joinSegments (earlier.map closedSegment ++ later) =
      (earlier.flatten ++ (joinSegments later).1, (joinSegments later).2) := by
  have hclean : CleanSegments (earlier.map closedSegment) := by
    intro seg hseg
    obtain ⟨bodies, hmem, rfl⟩ := List.mem_map.mp hseg
    rw [readAll_closedSegment (hclear bodies hmem)]
  have hrecords : recordsOf (earlier.map closedSegment) = earlier.flatten := by
    rw [recordsOf, List.flatMap_map, ← List.flatMap_id]
    apply List.flatMap_congr
    intro bodies hmem
    rw [readAll_closedSegment (hclear bodies hmem)]
    rfl
  rw [joinSegments_clean hclean, hrecords]

/-- A segment that was refused is never passed. -/
theorem joinSegments_closed_of_not_clear {earlier : List (List Bytes)}
    (hclear : ¬ ∀ bodies ∈ earlier, ClearSegment bodies) {later : List Bytes} (hlater : later ≠ []) :
    (joinSegments (earlier.map closedSegment ++ later)).2 ≠ .endOfStream := by
  induction earlier with
  | nil => exact absurd (fun _ h ↦ absurd h List.not_mem_nil) hclear
  | cons bodies earlier ih =>
    have hmore : (earlier.map closedSegment ++ later).isEmpty = false := by
      simp [hlater]
    rw [List.map_cons, List.cons_append, joinSegments, hmore, joinPage]
    by_cases hfirst : ClearSegment bodies
    · have hrest : ¬ ∀ b ∈ earlier, ClearSegment b := by
        intro hrest
        apply hclear
        intro b hb
        rcases List.mem_cons.mp hb with rfl | hb
        · exact hfirst
        · exact hrest b hb
      rw [readAll_closedSegment hfirst, if_pos (by unfold tolerated; simp)]
      exact ih hrest
    · rw [readAll_closedSegment_of_not_clear hfirst, if_neg (by decide)]
      exact SegmentReadError.noConfusion

theorem joinSegments_singleton (seg : Bytes) :
    joinSegments [seg] =
      if tolerated (PageReader.readAll seg).2 true then
        ((PageReader.readAll seg).1, .endOfStream)
      else ((PageReader.readAll seg).1, segmentError (PageReader.readAll seg).2) := by
  rw [joinSegments, joinSegments, joinPage, List.append_nil]
  rfl

theorem segmentError_of_not_tolerated {e : WalReadError} (h : tolerated e true = false) :
    segmentError e ≠ .endOfStream := by
  cases e <;> first | exact absurd h (by decide) | decide

/-- The last segment cut at `n` reads as its whole records, if and only if the cut is outside
fragments and no unclear record stands before it. -/
theorem joinSegments_torn_iff (bodies : List Bytes) (n : Nat) :
    joinSegments [(openSegment bodies).take n] = (keptBodies n {} bodies, .endOfStream) ↔
      cutsFragment (bodiesItems 0 bodies) n = false ∧ ClearUpTo n {} bodies := by
  rw [joinSegments_singleton, readAll_openSegment_take]
  constructor
  · intro hread
    have hend := congrArg Prod.snd hread
    have hcut : cutsFragment (bodiesItems 0 bodies) n = false := by
      by_contra hcut
      rw [Bool.not_eq_false] at hcut
      have htol := scan_cutEnd_fragment false [] (cutItems (bodiesItems 0 bodies) n)
      rw [hcut, htol, if_neg Bool.false_ne_true] at hend
      exact segmentError_of_not_tolerated htol hend
    refine ⟨hcut, ?_⟩
    by_contra hclear
    have herr := scan_cutItems_of_not_clear (cutEnd false) {} bodies hclear (Nat.zero_le _) hcut
    change (scan (cutEnd false) false [] (cutItems (bodiesItems 0 bodies) n)).2 = _ at herr
    rw [hcut, herr, if_neg (by decide)] at hend
    cases hend
  · rintro ⟨hcut, hclear⟩
    obtain ⟨isOpen, hscan⟩ := scan_cutItems_run (cutEnd false) {} bodies hclear (Nat.zero_le _)
    change scan (cutEnd false) false [] (cutItems (bodiesItems 0 bodies) n) = _ at hscan
    have htol : tolerated (cutEnd false isOpen) true = true := by cases isOpen <;> rfl
    rw [hcut, hscan]
    exact if_pos htol

/-- Reading cut segments and a torn last one returns exactly the whole records, and then the end of
the stream, if and only if every cut segment is clear, the tear is not inside a fragment, and no
unclear record stands before it. -/
theorem readAll_torn_iff (earlier : List (List Bytes)) (bodies : List Bytes) (n : Nat) :
    SegmentReader.readAll (earlier.map closedSegment ++ [(openSegment bodies).take n]) =
        (earlier.flatten ++ keptBodies n {} bodies, .endOfStream) ↔
      (∀ segment ∈ earlier, ClearSegment segment) ∧
        cutsFragment (bodiesItems 0 bodies) n = false ∧ ClearUpTo n {} bodies := by
  rw [SegmentReader.readAll_eq, ← joinSegments_torn_iff]
  have hlast : [(openSegment bodies).take n] ≠ [] := List.cons_ne_nil _ _
  constructor
  · intro hread
    have hclear : ∀ segment ∈ earlier, ClearSegment segment := by
      by_contra hclear
      exact joinSegments_closed_of_not_clear hclear hlast (congrArg Prod.snd hread)
    rw [joinSegments_closed hclear _, Prod.mk.injEq, List.append_cancel_left_eq] at hread
    exact ⟨hclear, Prod.ext hread.1 hread.2⟩
  · rintro ⟨hclear, hread⟩
    rw [joinSegments_closed hclear _, hread]

/-- A tear in the header of the only record is reported. -/
theorem readAll_torn_header :
    SegmentReader.readAll ([].map closedSegment ++ [(openSegment [[1]]).take 3]) ≠
      ([].flatten ++ keptBodies 3 {} [[1]], .endOfStream) := by
  decide

end MerlionTsdb.Wal
