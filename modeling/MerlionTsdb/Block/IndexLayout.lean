import MerlionTsdb.Block.IndexWriter
import MerlionTsdb.Lib.Placed

/-!
# Sections of an index read back

What the writer puts in a section, and what the reader makes of it wherever it stands in the file.
-/

namespace MerlionTsdb.Block

open Encoding Model

/-- A section behind a 32-bit length. -/
def section32 (payload : Bytes) : Bytes :=
  putBe32 (UInt32.ofNat payload.length) ++ (payload ++ putBe32 (Crc32c.compute payload))

/-- A section behind a uvarint length. -/
def sectionUv (payload : Bytes) : Bytes :=
  Varint.putUvarint (UInt64.ofNat payload.length) ++
    (payload ++ putBe32 (Crc32c.compute payload))

def symbolsPayload (syms : List Str) : Bytes :=
  putBe32 (UInt32.ofNat syms.length) ++ syms.flatMap putUvarintStr

def postingsPayload (ids : List UInt32) : Bytes :=
  putBe32 (UInt32.ofNat ids.length) ++ ids.flatMap putBe32

def tablePayload (entries : List PendingEntry) : Bytes :=
  putBe32 (UInt32.ofNat entries.length) ++ entries.flatMap PendingEntry.bytes

theorem length_section32 (payload : Bytes) : (section32 payload).length = payload.length + 8 := by
  simp [section32]
  omega

theorem length_postingsPayload (ids : List UInt32) : (postingsPayload ids).length = 4 + 4 * ids.length := by
  simp [postingsPayload]
  omega

/-! ## Placed data -/

section Placed

variable {bytes : Bytes} {off : Nat}

theorem subspan_placed {data : Bytes} (h : Placed bytes off data)
    (hdata : data.length < kDynamicExtent) : subspan bytes off data.length = .ok data := by
  rw [subspan_of_le h.end_le hdata, h.take_drop]

theorem readUv_placed {x : UInt64} (h : Placed bytes off (Varint.putUvarint x)) :
    readUv bytes off = .ok (x, (Varint.putUvarint x).length) := by
  obtain ⟨rest, hrest⟩ := h.drop_eq
  exact readUv_of_drop hrest

theorem readV_placed {x : Int64} (h : Placed bytes off (Varint.putVarint x)) :
    readV bytes off = .ok (x, (Varint.putVarint x).length) := by
  obtain ⟨rest, hrest⟩ := h.drop_eq
  exact readV_of_drop hrest

theorem stringAt_placed {s : Str} (h : Placed bytes off s.bytes) :
    stringAt bytes off s.bytes.length = .ok s := by
  obtain ⟨rest, hrest⟩ := h.drop_eq
  have hend := h.end_le
  exact stringAt_of_drop hrest (by omega)

/-- No offset inside a vector overflows, nor one a few words beyond it. -/
theorem addSize_of_le {a b : Nat} (hmax : bytes.length ≤ kMaxSize) (h : a + b ≤ bytes.length + 8) :
    addSize a b = a + b := by
  have hk : kMaxSize = 2 ^ 63 - 1 := rfl
  apply addSize_of_lt
  omega

theorem lt_kDynamicExtent {n : Nat} (hmax : bytes.length ≤ kMaxSize) (h : n ≤ bytes.length) :
    n < kDynamicExtent := by
  have hk : kMaxSize = 2 ^ 63 - 1 := rfl
  have he : kDynamicExtent = 2 ^ 64 - 1 := rfl
  omega

theorem toNat_ofNat_length {n : Nat} (hmax : bytes.length ≤ kMaxSize) (h : n ≤ bytes.length) :
    (UInt64.ofNat n).toNat = n := by
  have hk : kMaxSize = 2 ^ 63 - 1 := rfl
  rw [UInt64.toNat_ofNat_of_lt']
  rw [UInt64.size]
  omega

theorem checkedPayload_placed {payload : Bytes} (hmax : bytes.length ≤ kMaxSize)
    (h : Placed bytes off (payload ++ putBe32 (Crc32c.compute payload))) :
    checkedPayload bytes off payload.length = .ok payload := by
  have hend := h.end_le
  rw [List.length_append, length_putBe32] at hend
  have hstored := subspan_placed h.right (by rw [length_putBe32]; decide)
  rw [length_putBe32] at hstored
  unfold checkedPayload
  rw [addSize_of_le hmax (b := payload.length) (by omega), addSize_of_le hmax (by omega),
    if_neg (by omega), subspan_placed h.left (lt_kDynamicExtent hmax (by omega)), hstored]
  have hcrc := readBe32_putBe32 (Crc32c.compute payload) []
  rw [List.append_nil] at hcrc
  simp [hcrc]

theorem readSectionPayload_placed {payload : Bytes} (hmax : bytes.length ≤ kMaxSize)
    (hlen : payload.length < 2 ^ 32) (h : Placed bytes off (section32 payload)) :
    readSectionPayload bytes off = .ok payload := by
  have hend := h.end_le
  rw [length_section32] at hend
  unfold section32 at h
  have hlength := subspan_placed h.left (by rw [length_putBe32]; decide)
  rw [length_putBe32] at hlength
  have hbody := checkedPayload_placed hmax h.right
  rw [length_putBe32] at hbody
  have hread := readBe32_putBe32 (UInt32.ofNat payload.length) []
  rw [List.append_nil] at hread
  unfold readSectionPayload
  rw [addSize_of_le hmax (by omega), if_neg (by omega), hlength]
  simp only [ok_bind]
  rw [hread, UInt32.toNat_ofNat_of_lt' hlen, hbody]

theorem readUvarintSectionPayload_placed {payload : Bytes} (hmax : bytes.length ≤ kMaxSize)
    (h : Placed bytes off (sectionUv payload)) :
    readUvarintSectionPayload bytes off = .ok payload := by
  have hend := h.end_le
  simp only [sectionUv, List.length_append, length_putBe32] at hend
  unfold sectionUv at h
  have hpos := List.length_pos_of_ne_nil (Varint.putUvarint_ne_nil (UInt64.ofNat payload.length))
  unfold readUvarintSectionPayload
  rw [if_neg (by omega), readUv_placed h.left]
  simp only [ok_bind]
  rw [addSize_of_le hmax (by omega), toNat_ofNat_length hmax (by omega),
    checkedPayload_placed hmax h.right]

end Placed

/-! ## Symbols -/

/-- The offset of symbol number `i`, when the first stands at `base`. -/
def symbolPos (base : Nat) (syms : List Str) (i : Nat) : Nat :=
  base + ((syms.take i).flatMap putUvarintStr).length

theorem symbolPos_zero (base : Nat) (syms : List Str) : symbolPos base syms 0 = base := by
  simp [symbolPos]

theorem symbolPos_cons (base : Nat) (s : Str) (syms : List Str) (i : Nat) :
    symbolPos base (s :: syms) (i + 1) = symbolPos (base + (putUvarintStr s).length) syms i := by
  simp [symbolPos]
  omega

theorem length_putUvarintStr (s : Str) :
    (putUvarintStr s).length =
      (Varint.putUvarint (UInt64.ofNat s.bytes.length)).length + s.bytes.length := by
  simp [putUvarintStr]

/-- Every symbol takes a byte at least. -/
theorem length_le_flatMap_putUvarintStr (syms : List Str) :
    syms.length ≤ (syms.flatMap putUvarintStr).length := by
  induction syms with
  | nil => simp
  | cons s syms ih =>
    have hpos := List.length_pos_of_ne_nil (Varint.putUvarint_ne_nil (UInt64.ofNat s.bytes.length))
    rw [List.flatMap_cons, List.length_append, List.length_cons, length_putUvarintStr]
    omega

namespace IndexSymbolTable

section Symbols

variable {bytes : Bytes} {pos : Nat} {syms : List Str}

/-- The step over one symbol. -/
theorem next_placed {s : Str} (hmax : bytes.length ≤ kMaxSize)
    (h : Placed bytes pos (putUvarintStr s)) :
    readUv bytes pos = .ok (UInt64.ofNat s.bytes.length,
      (Varint.putUvarint (UInt64.ofNat s.bytes.length)).length) ∧
    (UInt64.ofNat s.bytes.length).toNat = s.bytes.length ∧
    addSize pos (addSize (Varint.putUvarint (UInt64.ofNat s.bytes.length)).length
      s.bytes.length) = pos + (putUvarintStr s).length := by
  have hend := h.end_le
  rw [length_putUvarintStr] at hend ⊢
  refine ⟨readUv_placed h.left, toNat_ofNat_length hmax (by omega), ?_⟩
  rw [addSize_of_le hmax (b := s.bytes.length) (by omega), addSize_of_le hmax (by omega)]

/-- The sparse offsets: every symbol whose number is a multiple of the stride has its own. -/
theorem parseLoop_placed (hmax : bytes.length ≤ kMaxSize) {limit seen : Nat}
    (h : Placed bytes pos (syms.flatMap putUvarintStr))
    (hlimit : pos + (syms.flatMap putUvarintStr).length ≤ limit) :
    ∃ offsets, parseLoop bytes limit syms.length seen pos = .ok offsets ∧
      ∀ i < syms.length, (seen + i) % kSymbolSparseStride = 0 →
        offsets[(seen + i) / kSymbolSparseStride -
          (seen + (kSymbolSparseStride - 1)) / kSymbolSparseStride]? =
            some (symbolPos pos syms i) := by
  have hstride : kSymbolSparseStride = 32 := rfl
  induction syms generalizing pos seen with
  | nil => exact ⟨[], rfl, by simp⟩
  | cons s syms ih =>
    rw [List.flatMap_cons] at h hlimit
    rw [List.length_append] at hlimit
    obtain ⟨hread, hlen, hnext⟩ := next_placed hmax h.left
    have hend := h.end_le
    have hpos := List.length_pos_of_ne_nil (Varint.putUvarint_ne_nil (UInt64.ofNat s.bytes.length))
    have hlength := length_putUvarintStr s
    rw [List.length_append] at hend
    obtain ⟨offsets, hrest, hoffsets⟩ := @ih _ (seen + 1) h.right (by omega)
    rw [List.length_cons, parseLoop, if_neg (by omega), hread]
    simp only [ok_bind, hlen, hnext]
    rw [if_neg (by omega), hrest]
    refine ⟨_, rfl, ?_⟩
    intro i hi hmod
    rw [hstride] at hmod hoffsets ⊢
    -- The symbol at hand is the sparse one, or the position is of the rest.
    cases i with
    | zero =>
      rw [Nat.add_zero] at hmod ⊢
      rw [if_pos hmod, symbolPos_zero, show seen / 32 - (seen + (32 - 1)) / 32 = 0 by omega]
      rfl
    | succ i =>
      have hi' : i < syms.length := by simpa using hi
      have hat := hoffsets i hi' (by omega)
      rw [symbolPos_cons, ← hat]
      split
      · -- A sparse symbol in front shifts the others by one place.
        rw [show (seen + (i + 1)) / 32 - (seen + (32 - 1)) / 32 =
          (seen + 1 + i) / 32 - (seen + 1 + (32 - 1)) / 32 + 1 by omega]
        exact List.getElem?_cons_succ
      · rw [show (seen + (i + 1)) / 32 - (seen + (32 - 1)) / 32 =
          (seen + 1 + i) / 32 - (seen + 1 + (32 - 1)) / 32 by omega]

theorem walk_placed (hmax : bytes.length ≤ kMaxSize) {steps : Nat} (hsteps : steps ≤ syms.length)
    (h : Placed bytes pos (syms.flatMap putUvarintStr)) :
    walk bytes steps pos = .ok (symbolPos pos syms steps) := by
  induction steps generalizing pos syms with
  | zero => rw [walk, symbolPos_zero]
  | succ steps ih =>
    cases syms with
    | nil => simp at hsteps
    | cons s syms =>
      rw [List.flatMap_cons] at h
      obtain ⟨hread, hlen, hnext⟩ := next_placed hmax h.left
      rw [walk, hread]
      simp only [ok_bind, hlen, hnext]
      rw [ih (by simpa using hsteps) h.right, symbolPos_cons]

theorem symbolAt_placed {s : Str} (hmax : bytes.length ≤ kMaxSize)
    (h : Placed bytes pos (putUvarintStr s)) : symbolAt bytes pos = .ok s.bytes := by
  obtain ⟨hread, hlen, -⟩ := next_placed hmax h
  have hend := h.end_le
  rw [length_putUvarintStr] at hend
  unfold symbolAt
  rw [hread]
  simp only [ok_bind, hlen]
  rw [addSize_of_le hmax (a := pos) (by omega), addSize_of_le hmax (by omega), if_neg (by omega)]
  unfold viewAt
  rw [if_pos (by omega), h.right.take_drop]

/-- The symbols behind number `i`. -/
theorem placed_drop (h : Placed bytes pos (syms.flatMap putUvarintStr)) (i : Nat) :
    Placed bytes (symbolPos pos syms i) ((syms.drop i).flatMap putUvarintStr) := by
  rw [← List.take_append_drop i syms, List.flatMap_append] at h
  exact h.right

/-- The table of a placed symbol section. -/
theorem parse_placed (hmax : bytes.length ≤ kMaxSize) {version : UInt8}
    (hlen : (symbolsPayload syms).length < 2 ^ 32)
    (h : Placed bytes pos (section32 (symbolsPayload syms))) :
    ∃ offsets, parse bytes pos version = .ok {
        fileBytes := bytes
        version := version
        count := UInt32.ofNat syms.length
        payloadOffset := pos + 4
        sparseOffsets := offsets } ∧
      ∀ i < syms.length, i % kSymbolSparseStride = 0 →
        offsets[i / kSymbolSparseStride]? = some (symbolPos (pos + 8) syms i) := by
  have hpayload := readSectionPayload_placed hmax hlen h
  have hend := h.end_le
  have hcount := length_le_flatMap_putUvarintStr syms
  have hsyms : Placed bytes (pos + 8) (syms.flatMap putUvarintStr) := h.right.left.right
  simp only [symbolsPayload, List.length_append, length_putBe32, length_section32] at hlen hend
  obtain ⟨offsets, hparse, hoffsets⟩ := @parseLoop_placed _ _ _ hmax
    (pos + 8 + (symbolsPayload syms).length - 4) 0 hsyms
    (by simp only [symbolsPayload, List.length_append, length_putBe32]; omega)
  refine ⟨offsets, ?_, ?_⟩
  · -- The count stands in front of the symbols.
    have hread : readBe32 (symbolsPayload syms) = UInt32.ofNat syms.length := readBe32_putBe32 _ _
    have hroom : Reserves kMaxSize 8 (1 + syms.length / kSymbolSparseStride) := by
      apply reserves_of_le
      unfold kSymbolSparseStride kMaxSize
      omega
    unfold parse
    rw [hpayload]
    simp only [ok_bind]
    rw [if_neg (by simp [symbolsPayload]), hread,
      UInt32.toNat_ofNat_of_lt' (by rw [UInt32.size]; omega), reserve_bind hroom,
      addSize_of_le hmax (a := pos) (by omega), addSize_of_le hmax (b := 4) (by omega),
      addSize_of_le hmax
        (by simp only [symbolsPayload, List.length_append, length_putBe32]; omega), hparse]
    rfl
  · intro i hi hmod
    have hat := hoffsets i hi (by rw [Nat.zero_add]; exact hmod)
    simpa [kSymbolSparseStride] using hat

theorem lookup_placed (hmax : bytes.length ≤ kMaxSize) {t : IndexSymbolTable}
    (hbytes : t.fileBytes = bytes) (hversion : t.version ≠ kIndexFormatV1)
    (hcount : t.count.toNat = syms.length)
    (h : Placed bytes pos (syms.flatMap putUvarintStr))
    (hsparse : ∀ i < syms.length, i % kSymbolSparseStride = 0 →
      t.sparseOffsets[i / kSymbolSparseStride]? = some (symbolPos pos syms i))
    {ref : UInt32} {s : Str} (hs : syms[ref.toNat]? = some s) : t.lookup ref = .ok s.bytes := by
  have hstride : kSymbolSparseStride = 32 := rfl
  obtain ⟨hlt, rfl⟩ := List.getElem?_eq_some_iff.mp hs
  have hcount' : ¬ t.count ≤ ref := by
    rw [UInt32.le_iff_toNat_le]
    omega
  rw [hstride] at hsparse
  have hbucket := hsparse (ref.toNat / 32 * 32) (by omega) (by omega)
  rw [Nat.mul_div_cancel _ (by omega)] at hbucket
  -- The walk starts at the last sparse symbol that is not behind the wanted one.
  have hwalk := @walk_placed bytes _ (syms.drop (ref.toNat / 32 * 32)) hmax (ref.toNat % 32)
    (by rw [List.length_drop]; omega) (placed_drop h _)
  have hpos : symbolPos (symbolPos pos syms (ref.toNat / 32 * 32))
      (syms.drop (ref.toNat / 32 * 32)) (ref.toNat % 32) = symbolPos pos syms ref.toNat := by
    have hsplit : syms.take ref.toNat = syms.take (ref.toNat / 32 * 32) ++
        (syms.drop (ref.toNat / 32 * 32)).take (ref.toNat % 32) := by
      conv_lhs => rw [show ref.toNat = ref.toNat / 32 * 32 + ref.toNat % 32 by omega, List.take_add]
    unfold symbolPos
    rw [hsplit, List.flatMap_append, List.length_append]
    omega
  have hplaced := placed_drop h ref.toNat
  rw [List.drop_eq_getElem_cons hlt, List.flatMap_cons] at hplaced
  unfold lookup
  rw [if_neg hversion, if_neg hcount', hstride, hbucket, hbytes]
  dsimp only
  rw [hwalk, hpos]
  exact symbolAt_placed hmax hplaced.left

end Symbols

end IndexSymbolTable

/-! ## Postings -/

/-- The entry that the table holds. -/
def PendingEntry.toEntry (e : PendingEntry) : PostingsOffsetEntry where
  name := e.name
  value := e.value
  offset := e.offset

namespace PostingsOffsetTable

section Table

variable {payload : Bytes} {pos : Nat}

theorem readString_placed {s : Str} (hmax : payload.length ≤ kMaxSize)
    (h : Placed payload pos (putUvarintStr s)) :
    readString payload pos = .ok (s, pos + (putUvarintStr s).length) := by
  have hend := h.end_le
  rw [length_putUvarintStr] at hend ⊢
  unfold readString
  rw [readUv_placed h.left]
  simp only [ok_bind]
  rw [toNat_ofNat_length hmax (by omega), addSize_of_le hmax (a := pos) (by omega),
    addSize_of_le hmax (by omega), if_neg (by omega), stringAt_placed h.right]
  simp only [ok_bind, Nat.add_assoc]

theorem readEntry_placed {e : PendingEntry} (hmax : payload.length ≤ kMaxSize)
    (h : Placed payload pos e.bytes) :
    readEntry payload pos = .ok (e.toEntry, pos + e.bytes.length) := by
  have hend := h.end_le
  have hname := readString_placed hmax h.right.left
  have hvalue := readString_placed hmax h.right.right.left
  have hoffset := readUv_placed h.right.right.right
  simp only [PendingEntry.bytes, List.length_append] at hend ⊢
  unfold readEntry
  rw [readUv_placed h.left]
  simp only [ok_bind]
  rw [addSize_of_le hmax (a := pos) (by omega), if_neg (by simp), hname]
  simp only [ok_bind]
  rw [hvalue]
  simp only [ok_bind]
  rw [hoffset]
  simp only [ok_bind]
  rw [addSize_of_le hmax (by omega)]
  simp only [Nat.add_assoc]
  rfl

theorem parseLoop_placed {entries : List PendingEntry} (hmax : payload.length ≤ kMaxSize)
    (h : Placed payload pos (entries.flatMap PendingEntry.bytes)) :
    parseLoop payload entries.length pos =
      .ok (entries.map PendingEntry.toEntry,
        pos + (entries.flatMap PendingEntry.bytes).length) := by
  induction entries generalizing pos with
  | nil => rfl
  | cons e entries ih =>
    rw [List.flatMap_cons] at h
    rw [List.length_cons, parseLoop, readEntry_placed hmax h.left]
    simp only [ok_bind]
    rw [ih h.right]
    simp [Nat.add_assoc]

end Table

/-- Every entry takes a byte at least. -/
theorem length_le_flatMap_bytes (entries : List PendingEntry) :
    entries.length ≤ (entries.flatMap PendingEntry.bytes).length := by
  induction entries with
  | nil => simp
  | cons e entries ih =>
    have hpos := List.length_pos_of_ne_nil (Varint.putUvarint_ne_nil 2)
    simp only [List.flatMap_cons, List.length_append, List.length_cons, PendingEntry.bytes]
    omega

theorem parse_placed {bytes : Bytes} {off : Nat} {entries : List PendingEntry}
    (hmax : bytes.length ≤ kMaxSize) (hlen : (tablePayload entries).length < 2 ^ 32)
    (h : Placed bytes off (section32 (tablePayload entries))) :
    parse bytes off = .ok (new (entries.map PendingEntry.toEntry)) := by
  have hcount := length_le_flatMap_bytes entries
  have hread : readBe32 (tablePayload entries) = UInt32.ofNat entries.length := readBe32_putBe32 _ _
  have hentries : Placed (tablePayload entries) 4 (entries.flatMap PendingEntry.bytes) :=
    Placed.of_append _ _
  have hmax' : (tablePayload entries).length ≤ kMaxSize := hlen.le.trans (by decide)
  have htotal : (tablePayload entries).length =
      4 + (entries.flatMap PendingEntry.bytes).length := by
    simp [tablePayload]
  have hroom : Reserves kMaxSize 72 entries.length := by
    apply reserves_of_le
    unfold kMaxSize
    omega
  unfold parse
  rw [readSectionPayload_placed hmax hlen h]
  simp only [ok_bind]
  rw [if_neg (by omega), hread, UInt32.toNat_ofNat_of_lt' (by rw [UInt32.size]; omega),
    reserve_bind hroom, parseLoop_placed hmax' hentries]
  simp only [ok_bind]
  rw [if_neg (by rw [htotal]; simp)]

end PostingsOffsetTable

theorem readIds_placed {payload : Bytes} {ids : List UInt32} {i : Nat}
    (h : Placed payload (4 + 4 * i) (ids.flatMap putBe32)) :
    readIds payload ids.length i = .ok ids := by
  induction ids generalizing i with
  | nil => rfl
  | cons id ids ih =>
    rw [List.flatMap_cons] at h
    have hid := subspan_placed h.left (by rw [length_putBe32]; decide)
    have hrest := h.right
    rw [length_putBe32] at hid
    rw [length_putBe32, show 4 + 4 * i + 4 = 4 + 4 * (i + 1) by omega] at hrest
    have hread := readBe32_putBe32 id []
    rw [List.append_nil] at hread
    rw [List.length_cons, readIds, hid]
    simp only [ok_bind]
    rw [ih hrest, hread]
    rfl

theorem readPostingList_placed {bytes : Bytes} {off : UInt64} {ids : List UInt32}
    (hmax : bytes.length ≤ kMaxSize) (hlen : 4 + 4 * ids.length < 2 ^ 32)
    (h : Placed bytes off.toNat (section32 (postingsPayload ids))) :
    readPostingList bytes off = .ok ids := by
  have htotal := length_postingsPayload ids
  have hread : readBe32 (postingsPayload ids) = UInt32.ofNat ids.length := readBe32_putBe32 _ _
  have hcount : (UInt32.ofNat ids.length).toNat = ids.length :=
    UInt32.toNat_ofNat_of_lt' (by rw [UInt32.size]; omega)
  have hids : Placed (postingsPayload ids) (4 + 4 * 0) (ids.flatMap putBe32) :=
    Placed.of_append _ _
  unfold readPostingList
  rw [readSectionPayload_placed hmax (htotal ▸ hlen) h]
  simp only [ok_bind]
  rw [if_neg (by omega), hread, hcount, if_neg (by omega), readIds_placed hids]

/-! ## Series -/

section Series

variable {payload : Bytes} {pos : Nat}

/-- The label of a pair of references. -/
def Names (symbols : IndexSymbolTable) (r : UInt32 × UInt32) (l : Label) : Prop :=
  symbols.lookup r.1 = .ok l.name.bytes ∧ symbols.lookup r.2 = .ok l.value.bytes

theorem decodeLabels_placed {symbols : IndexSymbolTable} {labelRefs : List (UInt32 × UInt32)}
    {labels : List Label} (hnames : List.Forall₂ (Names symbols) labelRefs labels)
    (h : Placed payload pos (labelRefsBytes labelRefs)) :
    decodeLabels payload symbols labelRefs.length pos =
      .ok (labels, pos + (labelRefsBytes labelRefs).length) := by
  induction hnames generalizing pos with
  | nil => rfl
  | @cons r l labelRefs labels hname hnames ih =>
    unfold labelRefsBytes at h
    rw [List.flatMap_cons] at h
    rw [List.length_cons, decodeLabels, readUv_placed h.left.left]
    simp only [ok_bind]
    rw [readUv_placed h.left.right]
    simp only [ok_bind, UInt32.toUInt32_toUInt64]
    have hpair : lookupPair (symbols.lookup r.1) (symbols.lookup r.2) = .ok l := by
      rw [hname.1, hname.2]
      simp [lookupPair]
    have hrest := h.right
    rw [List.length_append, ← Nat.add_assoc] at hrest
    rw [hpair]
    simp only [ok_bind]
    rw [ih hrest]
    simp [labelRefsBytes, Nat.add_assoc]

theorem decodeChunks_placed {metas : List ChunkMeta} {t0 ref0 : Int64}
    (h : Placed payload pos (chunkDeltas t0 ref0 metas)) :
    decodeChunks payload metas.length pos t0 ref0 = .ok metas := by
  induction metas generalizing pos t0 ref0 with
  | nil => rfl
  | cons c metas ih =>
    unfold chunkDeltas at h
    rw [List.length_cons, decodeChunks, readUv_placed h.left]
    simp only [ok_bind]
    rw [readUv_placed h.right.left]
    simp only [ok_bind]
    rw [readV_placed h.right.right.left]
    -- The deltas wrap around both ways.
    have hmint : (c.minTime - t0).toUInt64.toInt64 + t0 = c.minTime := by simp
    have hmaxt : (c.maxTime - c.minTime).toUInt64.toInt64 + c.minTime = c.maxTime := by simp
    have href : ref0 + (c.ref.toInt64 - ref0) = c.ref.toInt64 := by
      rw [Int64.add_comm]
      simp
    simp only [ok_bind, hmint, hmaxt, href]
    rw [ih h.right.right.right]
    simp

/-- The payload of a series, decoded. -/
theorem decodeSeriesPayload_seriesPayload {symbols : IndexSymbolTable}
    {labelRefs : List (UInt32 × UInt32)} {metas : List ChunkMeta} {labels : Labels}
    (hnames : List.Forall₂ (Names symbols) labelRefs labels.entries)
    (hmetas : metas.length ≤ kMaxChunkMetas) :
    decodeSeriesPayload (seriesPayload labelRefs metas) symbols =
      .ok { labels := labels, chunks := metas } := by
  have hk : kMaxSize = 2 ^ 63 - 1 := rfl
  have hsize := hnames.length_eq
  have hlabels := labels.length_le
  have hlabelCount : (UInt64.ofNat labelRefs.length).toNat = labelRefs.length := by
    rw [UInt64.toNat_ofNat_of_lt']
    rw [UInt64.size]
    unfold kMaxLabels at hlabels
    omega
  have hmetaCount : (UInt64.ofNat metas.length).toNat = metas.length := by
    rw [UInt64.toNat_ofNat_of_lt']
    rw [UInt64.size]
    unfold kMaxChunkMetas at hmetas
    omega
  have h : Placed (seriesPayload labelRefs metas) 0
      (Varint.putUvarint (UInt64.ofNat labelRefs.length) ++ (labelRefsBytes labelRefs ++
        (Varint.putUvarint (UInt64.ofNat metas.length) ++ chunkMetasBytes metas))) :=
    ⟨[], [], by simp [seriesPayload], rfl⟩
  -- Only where the parts stand matters from here on.
  generalize seriesPayload labelRefs metas = payload at h ⊢
  have hrefs := decodeLabels_placed hnames h.right.left
  have hcount := readUv_placed h.right.right.left
  have hchunks := h.right.right.right
  unfold decodeSeriesPayload
  rw [readUv_placed h.left]
  simp only [ok_bind, hlabelCount]
  rw [reserve_bind (reserves_labels.mpr (by omega))]
  rw [Nat.zero_add] at hrefs hcount hchunks
  rw [hrefs]
  simp only [ok_bind]
  rw [dif_pos hlabels, hcount, Labels.ofList_entries]
  simp only [ok_bind]
  cases metas with
  | nil => rfl
  | cons c metas =>
    have hne : UInt64.ofNat (c :: metas).length ≠ 0 := by
      intro hzero
      rw [hzero] at hmetaCount
      simp at hmetaCount
    rw [if_neg hne, hmetaCount, reserve_bind (reserves_chunkMetas.mpr hmetas)]
    rw [chunkMetasBytes] at hchunks
    rw [readV_placed hchunks.left]
    simp only [ok_bind]
    rw [readUv_placed hchunks.right.left]
    simp only [ok_bind]
    rw [readUv_placed hchunks.right.right.left]
    have hmaxt : (c.maxTime - c.minTime).toUInt64.toInt64 + c.minTime = c.maxTime := by simp
    simp only [ok_bind, hmaxt]
    have htail : (c :: metas).length - 1 = metas.length := rfl
    rw [htail, decodeChunks_placed hchunks.right.right.right]
    rfl

end Series

end MerlionTsdb.Block
