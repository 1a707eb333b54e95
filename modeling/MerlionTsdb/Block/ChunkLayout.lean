import MerlionTsdb.Block.ChunkCache

/-!
# Chunks in their segments

`packChunks` says how a writer splits its chunks over the segments, and `locate` where each of them
then is.  A reader of such segments finds every chunk there, whatever it read before.
-/

namespace MerlionTsdb.Block

open Encoding

/-! ## References -/

namespace BlockChunkRef

theorem toNat_toU64 (ref : BlockChunkRef) :
    ref.toU64.toNat = ref.seq.toNat * 2 ^ 32 + ref.offset.toNat := by
  have hoff : ref.offset.toNat < 2 ^ 32 := ref.offset.toNat_lt
  have hseq : ref.seq.toNat < 2 ^ 32 := ref.seq.toNat_lt
  unfold toU64
  rw [UInt64.toNat_or, UInt64.toNat_shiftLeft, UInt32.toNat_toUInt64, UInt32.toNat_toUInt64]
  change ref.seq.toNat <<< 32 % 2 ^ 64 ||| _ = _
  have hfit : ref.seq.toNat <<< 32 % 2 ^ 64 = ref.seq.toNat <<< 32 := by
    rw [Nat.shiftLeft_eq]
    omega
  rw [hfit, ← Nat.shiftLeft_add_eq_or_of_lt hoff, Nat.shiftLeft_eq]

theorem fromU64_toU64 (ref : BlockChunkRef) : fromU64 ref.toU64 = ref := by
  have hoff : ref.offset.toNat < 2 ^ 32 := ref.offset.toNat_lt
  have hseq : ref.seq.toNat < 2 ^ 32 := ref.seq.toNat_lt
  have hu64 := toNat_toU64 ref
  have hhigh : (ref.toU64 >>> 32).toUInt32 = ref.seq := by
    rw [← UInt32.toNat_inj, UInt64.toNat_toUInt32, UInt64.toNat_shiftRight, hu64]
    change (_ >>> 32) % 2 ^ 32 = _
    rw [Nat.shiftRight_eq_div_pow]
    omega
  have hlow : (ref.toU64 &&& 0xFFFFFFFF).toUInt32 = ref.offset := by
    rw [← UInt32.toNat_inj, UInt64.toNat_toUInt32, UInt64.toNat_and, hu64]
    change (_ &&& (2 ^ 32 - 1)) % 2 ^ 32 = _
    rw [Nat.and_two_pow_sub_one_eq_mod]
    omega
  unfold fromU64
  rw [hhigh, hlow]

end BlockChunkRef

/-! ## Where a writer puts its chunks -/

def segmentBytes (chunks : List ChunkPayload) : Bytes :=
  segmentHeader ++ chunks.flatMap frame

/-- One more chunk for the segments `done` and the current one. -/
def packChunk (size : Nat) (segs : List (List ChunkPayload) × List ChunkPayload) (c : ChunkPayload) :
    List (List ChunkPayload) × List ChunkPayload :=
  let worstCase := Varint.maxVarintLen64 + kChunkEncodingSize + c.data.length + kChunkCrcSize
  -- A segment without a chunk takes any chunk.
  if segs.2 ≠ [] ∧ size < (segmentBytes segs.2).length + worstCase then (segs.1 ++ [segs.2], [c])
  else (segs.1, segs.2 ++ [c])

/-- The chunks of each segment. -/
def packChunks (size : Nat) (chunks : List ChunkPayload) : List (List ChunkPayload) :=
  let segs := chunks.foldl (packChunk size) ([], [])
  segs.1 ++ [segs.2]

/-- The chunks of one segment from `offset` on, with their references. -/
def locateFrom (seq : Nat) : Nat → List ChunkPayload → List (BlockChunkRef × ChunkPayload)
  | _, [] => []
  | offset, c :: chunks =>
    ({ seq := UInt32.ofNat seq, offset := UInt32.ofNat offset }, c) ::
      locateFrom seq (offset + (frame c).length) chunks

/-- The chunks of the segments from `seq` on, with their references. -/
def locate : Nat → List (List ChunkPayload) → List (BlockChunkRef × ChunkPayload)
  | _, [] => []
  | seq, chunks :: segs => locateFrom seq kChunksSegmentHeaderSize chunks ++ locate (seq + 1) segs

@[simp] theorem length_segmentHeader : segmentHeader.length = kChunksSegmentHeaderSize := rfl

theorem frame_ne_nil (c : ChunkPayload) : frame c ≠ [] := by
  simp [frame]

theorem length_frame_pos (c : ChunkPayload) : 0 < (frame c).length :=
  List.length_pos_iff.mpr (frame_ne_nil c)

/-- The worst case the writer reckons with. -/
theorem length_frame_le (c : ChunkPayload) :
    (frame c).length ≤ Varint.maxVarintLen64 + kChunkEncodingSize + c.data.length + kChunkCrcSize := by
  have hlen := Varint.putUvarint_length_le (UInt64.ofNat c.data.length)
  simp only [frame, List.length_append, List.length_cons, length_putBe32, kChunkEncodingSize,
    kChunkCrcSize]
  omega

theorem segmentBytes_concat (chunks : List ChunkPayload) (c : ChunkPayload) :
    segmentBytes (chunks ++ [c]) = segmentBytes chunks ++ frame c := by
  simp [segmentBytes]

theorem length_segmentBytes (chunks : List ChunkPayload) :
    (segmentBytes chunks).length = kChunksSegmentHeaderSize + (chunks.flatMap frame).length := by
  simp [segmentBytes]

theorem locateFrom_append (seq offset : Nat) (chunks chunks' : List ChunkPayload) :
    locateFrom seq offset (chunks ++ chunks') =
      locateFrom seq offset chunks ++
        locateFrom seq (offset + (chunks.flatMap frame).length) chunks' := by
  induction chunks generalizing offset with
  | nil => rfl
  | cons c chunks ih => simp [locateFrom, ih, Nat.add_assoc]

theorem locate_append (seq : Nat) (segs segs' : List (List ChunkPayload)) :
    locate seq (segs ++ segs') = locate seq segs ++ locate (seq + segs.length) segs' := by
  induction segs generalizing seq with
  | nil => rfl
  | cons chunks segs ih =>
    rw [List.cons_append, locate, locate, ih, List.append_assoc, List.length_cons,
      Nat.add_right_comm, Nat.add_assoc seq]

/-- A chunk behind all others, in the current segment. -/
theorem locate_concat (done : List (List ChunkPayload)) (cur : List ChunkPayload) (c : ChunkPayload) :
    locate 0 (done ++ [cur ++ [c]]) = locate 0 (done ++ [cur]) ++
      [({ seq := UInt32.ofNat done.length, offset := UInt32.ofNat (segmentBytes cur).length }, c)] := by
  rw [locate_append, locate_append, length_segmentBytes]
  simp [locate, locateFrom_append, locateFrom]

/-- The same, in a new segment. -/
theorem locate_cut (done : List (List ChunkPayload)) (cur : List ChunkPayload) (c : ChunkPayload) :
    locate 0 (done ++ [cur] ++ [[c]]) = locate 0 (done ++ [cur]) ++
      [({ seq := UInt32.ofNat (done.length + 1),
          offset := UInt32.ofNat kChunksSegmentHeaderSize }, c)] := by
  rw [locate_append 0 (done ++ [cur])]
  simp [locate, locateFrom]

/-- No segment is larger than `size`, but for one with a single chunk. -/
def Packed (size : Nat) (segs : List (List ChunkPayload)) : Prop :=
  ∀ chunks ∈ segs, (segmentBytes chunks).length ≤ size ∨ chunks.length ≤ 1

theorem packed_packChunk {size : Nat} {segs : List (List ChunkPayload) × List ChunkPayload}
    (h : Packed size (segs.1 ++ [segs.2])) (c : ChunkPayload) :
    Packed size ((packChunk size segs c).1 ++ [(packChunk size segs c).2]) := by
  unfold packChunk
  dsimp only
  split
  · intro chunks hmem
    rcases List.mem_append.mp hmem with hmem | hmem
    · exact h chunks hmem
    · rw [List.mem_singleton.mp hmem]
      exact Or.inr le_rfl
  · rename_i hroom
    intro chunks hmem
    rcases List.mem_append.mp hmem with hmem | hmem
    · exact h chunks (List.mem_append_left _ hmem)
    · rw [List.mem_singleton.mp hmem]
      by_cases hempty : segs.2 = []
      · right
        simp [hempty]
      · left
        have hfits : ¬ size < (segmentBytes segs.2).length + _ := fun hlt ↦ hroom ⟨hempty, hlt⟩
        have hframe := length_frame_le c
        rw [segmentBytes_concat, List.length_append]
        omega

/-- Later chunks only add segments. -/
theorem length_foldl_packChunk (size : Nat) (chunks : List ChunkPayload)
    (segs : List (List ChunkPayload) × List ChunkPayload) :
    segs.1.length ≤ (chunks.foldl (packChunk size) segs).1.length := by
  induction chunks generalizing segs with
  | nil => exact le_rfl
  | cons c chunks ih =>
    apply le_trans _ (ih (packChunk size segs c))
    unfold packChunk
    dsimp only
    split
    · rw [List.length_append]
      omega
    · exact le_rfl

/-- No chunk starts more than one segment. -/
theorem length_foldl_packChunk_le (size : Nat) (chunks : List ChunkPayload)
    (segs : List (List ChunkPayload) × List ChunkPayload) :
    (chunks.foldl (packChunk size) segs).1.length ≤ segs.1.length + chunks.length := by
  induction chunks generalizing segs with
  | nil => exact le_rfl
  | cons c chunks ih =>
    have hone : (packChunk size segs c).1.length ≤ segs.1.length + 1 := by
      unfold packChunk
      dsimp only
      split
      · rw [List.length_append, List.length_singleton]
      · exact Nat.le_succ _
    have hrest := ih (packChunk size segs c)
    rw [List.foldl_cons, List.length_cons]
    omega

theorem length_packChunks_le (size : Nat) (chunks : List ChunkPayload) :
    (packChunks size chunks).length ≤ chunks.length + 1 := by
  have hfold := length_foldl_packChunk_le size chunks ([], [])
  rw [List.length_nil] at hfold
  unfold packChunks
  rw [List.length_append, List.length_singleton]
  omega

theorem packed_foldl_packChunk {size : Nat} (chunks : List ChunkPayload)
    {segs : List (List ChunkPayload) × List ChunkPayload} (h : Packed size (segs.1 ++ [segs.2])) :
    Packed size ((chunks.foldl (packChunk size) segs).1 ++
      [(chunks.foldl (packChunk size) segs).2]) := by
  induction chunks generalizing segs with
  | nil => exact h
  | cons c chunks ih => exact ih (packed_packChunk h c)

theorem packed_packChunks (size : Nat) (chunks : List ChunkPayload) :
    Packed size (packChunks size chunks) := by
  apply packed_foldl_packChunk
  intro seg hseg
  right
  simp [List.mem_singleton.mp hseg]

/-! ## The reader -/

theorem headerValid_of_front {bytes : Bytes} (h : segmentHeader <+: bytes) :
    headerValid bytes = true := by
  obtain ⟨rest, rfl⟩ := h
  unfold headerValid
  have hmagic : readBe32 ((segmentHeader ++ rest).take 4) = kMagicChunks := by
    have htake : (segmentHeader ++ rest).take 4 = putBe32 kMagicChunks := rfl
    rw [htake]
    decide
  have hversion : (segmentHeader ++ rest).getD 4 0 = kChunksFormatV1 := rfl
  rw [hmagic, hversion, List.length_append, length_segmentHeader]
  simp

theorem headerValid_segmentBytes (chunks : List ChunkPayload) :
    headerValid (segmentBytes chunks) = true :=
  headerValid_of_front (List.prefix_append _ _)

/-- A chunk stored with any checksum.  `frame` stores its own. -/
def storedRecord (c : ChunkPayload) (crc : UInt32) : Bytes :=
  Varint.putUvarint (UInt64.ofNat c.data.length) ++ c.encoding.tag :: (c.data ++ putBe32 crc)

theorem storedRecord_chunkCrc (c : ChunkPayload) :
    storedRecord c (chunkCrc c.encoding.tag c.data) = frame c := rfl

theorem length_storedRecord (c : ChunkPayload) (crc : UInt32) : (storedRecord c crc).length =
    (Varint.putUvarint (UInt64.ofNat c.data.length)).length + c.data.length + 5 := by
  simp only [storedRecord, List.length_append, List.length_cons, length_putBe32]
  omega

/-- The fields of a record, at the offsets the reader computes. -/
theorem storedRecord_fields (pre post : Bytes) (c : ChunkPayload) (crc : UInt32)
    (hsize : pre.length + (storedRecord c crc).length < 2 ^ 64) :
    readUv (pre ++ (storedRecord c crc ++ post)) pre.length = .ok (UInt64.ofNat c.data.length,
        (Varint.putUvarint (UInt64.ofNat c.data.length)).length) ∧
      (UInt64.ofNat c.data.length).toNat = c.data.length ∧
      ∃ encOff dataOff crcOff,
        addSize pre.length (Varint.putUvarint (UInt64.ofNat c.data.length)).length = encOff ∧
        addSize encOff kChunkEncodingSize = dataOff ∧ addSize dataOff c.data.length = crcOff ∧
        addSize crcOff kChunkCrcSize = pre.length + (storedRecord c crc).length ∧
        elementAt (pre ++ (storedRecord c crc ++ post)) encOff = .ok c.encoding.tag ∧
        subspan (pre ++ (storedRecord c crc ++ post)) dataOff c.data.length = .ok c.data ∧
        subspan (pre ++ (storedRecord c crc ++ post)) crcOff 4 = .ok (putBe32 crc) := by
  have hencSize : kChunkEncodingSize = 1 := rfl
  have hcrcSize : kChunkCrcSize = 4 := rfl
  have hextent : kDynamicExtent = 2 ^ 64 - 1 := rfl
  rw [length_storedRecord] at hsize ⊢
  have hdata : (UInt64.ofNat c.data.length).toNat = c.data.length :=
    UInt64.toNat_ofNat_of_lt' (by rw [UInt64.size]; omega)
  generalize hlead : Varint.putUvarint (UInt64.ofNat c.data.length) = lenBytes at hsize ⊢
  -- The bytes split in front of each field.
  have henc_split : pre ++ (storedRecord c crc ++ post) =
      (pre ++ lenBytes) ++ c.encoding.tag :: (c.data ++ putBe32 crc ++ post) := by
    simp [storedRecord, hlead]
  have hdata_split : pre ++ (storedRecord c crc ++ post) =
      (pre ++ lenBytes ++ [c.encoding.tag]) ++ (c.data ++ (putBe32 crc ++ post)) := by
    simp [storedRecord, hlead]
  have hcrc_split : pre ++ (storedRecord c crc ++ post) =
      (pre ++ lenBytes ++ [c.encoding.tag] ++ c.data) ++ (putBe32 crc ++ post) := by
    simp [storedRecord, hlead]
  have hread : readUv (pre ++ (storedRecord c crc ++ post)) pre.length =
      .ok (UInt64.ofNat c.data.length, lenBytes.length) := by
    have huv := readUv_append pre (UInt64.ofNat c.data.length)
      (c.encoding.tag :: (c.data ++ putBe32 crc) ++ post)
    rw [hlead] at huv
    rw [← huv, storedRecord, hlead]
    simp
  have helement := elementAt_append (pre ++ lenBytes) c.encoding.tag (c.data ++ putBe32 crc ++ post)
  have hslice := subspan_append (pre ++ lenBytes ++ [c.encoding.tag]) c.data (putBe32 crc ++ post)
    (by omega)
  have hstored := subspan_append (pre ++ lenBytes ++ [c.encoding.tag] ++ c.data) (putBe32 crc) post
    (by rw [length_putBe32]; omega)
  rw [← henc_split, List.length_append] at helement
  rw [← hdata_split, List.length_append, List.length_append, List.length_singleton] at hslice
  rw [← hcrc_split, List.length_append, List.length_append, List.length_append,
    List.length_singleton, length_putBe32] at hstored
  refine ⟨hread, hdata, _, _, _, addSize_of_lt (by omega), ?_, ?_, ?_, helement, hslice, hstored⟩
  · rw [hencSize, addSize_of_lt (by omega)]
  · rw [addSize_of_lt (by omega)]
  · rw [hcrcSize, addSize_of_lt (by omega)]
    omega

/-- A record in the middle of a segment is read if its checksum is that of the chunk. -/
theorem readRecord_stored (pre post : Bytes) (c : ChunkPayload) (crc : UInt32)
    (hsize : pre.length + (storedRecord c crc).length < 2 ^ 64) :
    readRecord (pre ++ (storedRecord c crc ++ post)) pre.length =
      if chunkCrc c.encoding.tag c.data = crc then .ok c
      else .error (.error .illegalByteSequence) := by
  obtain ⟨hread, hdata, encOff, dataOff, crcOff, hencOff, hdataOff, hcrcOff, hend, helement, hslice,
    hstored⟩ := storedRecord_fields pre post c crc hsize
  have hlen : (pre ++ (storedRecord c crc ++ post)).length =
      pre.length + (storedRecord c crc).length + post.length := by
    rw [List.length_append, List.length_append, Nat.add_assoc]
  have hpos := length_storedRecord c crc
  have hcheck := readBe32_putBe32 crc []
  rw [List.append_nil] at hcheck
  unfold readRecord
  rw [if_neg (by rw [hlen]; omega), hread]
  dsimp only
  rw [hdata, hencOff, hdataOff, hcrcOff, hend, if_neg (by rw [hlen]; omega), helement, hslice, hstored]
  dsimp only
  rw [hcheck]

/-- A framed chunk is read back from the middle of a segment. -/
theorem readRecord_frame (pre post : Bytes) (c : ChunkPayload)
    (hsize : pre.length + (frame c).length < 2 ^ 64) :
    readRecord (pre ++ (frame c ++ post)) pre.length = .ok c := by
  have hread := readRecord_stored pre post c (chunkCrc c.encoding.tag c.data) hsize
  rw [if_pos rfl] at hread
  exact hread

/-- What `iterate_segment` tells of a chunk. -/
def chunkInfo (x : BlockChunkRef × ChunkPayload) : ChunkInfo where
  ref := x.1
  encoding := x.2.encoding
  dataSize := x.2.data.length

/-- The loop over framed chunks lists them all: a round for each, and one to end. -/
theorem iterateLoop_frames (seq : UInt32) (pre : Bytes) (chunks : List ChunkPayload)
    (hsize : (pre ++ chunks.flatMap frame).length < 2 ^ 64) {fuel : Nat} (hfuel : chunks.length < fuel) :
    iterateLoop seq (pre ++ chunks.flatMap frame) fuel pre.length =
      some (.ok ((locateFrom seq.toNat pre.length chunks).map chunkInfo)) := by
  induction chunks generalizing pre fuel with
  | nil =>
    obtain ⟨fuel, rfl⟩ : ∃ f, fuel = f + 1 := ⟨fuel - 1, by omega⟩
    rw [iterateLoop, if_pos (by simp)]
    rfl
  | cons c chunks ih =>
    obtain ⟨fuel, rfl⟩ : ∃ f, fuel = f + 1 := ⟨fuel - 1, by omega⟩
    rw [List.length_cons] at hfuel
    have hpos := length_frame_pos c
    have hnext := @ih (pre ++ frame c) (by simpa [Nat.add_assoc] using hsize) fuel (by omega)
    rw [List.flatMap_cons] at hsize ⊢
    rw [List.append_assoc, List.length_append] at hnext
    have hlen : (pre ++ (frame c ++ chunks.flatMap frame)).length =
        pre.length + (frame c).length + (chunks.flatMap frame).length := by
      rw [List.length_append, List.length_append, Nat.add_assoc]
    rw [hlen] at hsize
    obtain ⟨hread, hdata, encOff, dataOff, crcOff, hencOff, hdataOff, hcrcOff, hend, helement, -, -⟩ :=
      storedRecord_fields pre (chunks.flatMap frame) c (chunkCrc c.encoding.tag c.data)
        (by rw [storedRecord_chunkCrc]; omega)
    rw [storedRecord_chunkCrc] at hread hend helement
    rw [iterateLoop, if_neg (by omega), hread]
    dsimp only
    rw [hdata, hencOff, hdataOff, hcrcOff, hend, if_neg (by omega), helement]
    dsimp only
    rw [hnext, locateFrom]
    simp [chunkInfo]

/-! ## Chunks by reference -/

theorem mem_locateFrom {seq offset : Nat} {chunks : List ChunkPayload}
    {x : BlockChunkRef × ChunkPayload} :
    x ∈ locateFrom seq offset chunks ↔
      ∃ before behind, chunks = before ++ x.2 :: behind ∧ x.1.seq = UInt32.ofNat seq ∧
        x.1.offset = UInt32.ofNat (offset + (before.flatMap frame).length) := by
  induction chunks generalizing offset with
  | nil => simp [locateFrom]
  | cons c chunks ih =>
    rw [locateFrom, List.mem_cons, ih]
    constructor
    · rintro (rfl | ⟨before, behind, rfl, hseq, hoffset⟩)
      · exact ⟨[], chunks, rfl, rfl, rfl⟩
      · refine ⟨c :: before, behind, rfl, hseq, ?_⟩
        rw [hoffset, List.flatMap_cons, List.length_append, Nat.add_assoc]
    · rintro ⟨before, behind, hchunks, hseq, hoffset⟩
      cases before with
      | nil =>
        left
        obtain ⟨rfl, rfl⟩ := List.cons.inj hchunks
        obtain ⟨⟨seq', offset'⟩, c⟩ := x
        dsimp only at hseq hoffset
        rw [hseq, hoffset]
        rfl
      | cons c' before =>
        right
        obtain ⟨rfl, rfl⟩ := List.cons.inj hchunks
        refine ⟨before, behind, rfl, hseq, ?_⟩
        rw [hoffset, List.flatMap_cons, List.length_append, Nat.add_assoc]

theorem mem_locate {seq : Nat} {segs : List (List ChunkPayload)} {x : BlockChunkRef × ChunkPayload} :
    x ∈ locate seq segs ↔
      ∃ i chunks, segs[i]? = some chunks ∧
        x ∈ locateFrom (seq + i) kChunksSegmentHeaderSize chunks := by
  induction segs generalizing seq with
  | nil => simp [locate]
  | cons chunks segs ih =>
    rw [locate, List.mem_append, ih]
    constructor
    · rintro (hmem | ⟨i, chunks', hget, hmem⟩)
      · exact ⟨0, chunks, rfl, hmem⟩
      · refine ⟨i + 1, chunks', hget, ?_⟩
        rwa [← Nat.add_assoc, Nat.add_right_comm]
    · rintro ⟨i, chunks', hget, hmem⟩
      cases i with
      | zero =>
        rw [List.getElem?_cons_zero, Option.some_inj] at hget
        subst hget
        exact Or.inl hmem
      | succ i =>
        right
        refine ⟨i, chunks', hget, ?_⟩
        rwa [← Nat.add_assoc, Nat.add_right_comm] at hmem

/-- Every offset of a packed segment fits in 32 bits. -/
theorem toNat_offset {size : Nat} (hsize : size ≤ 2 ^ 32) {before behind : List ChunkPayload}
    {c : ChunkPayload} (hpacked : (segmentBytes (before ++ c :: behind)).length ≤ size ∨
      (before ++ c :: behind).length ≤ 1) :
    (UInt32.ofNat (kChunksSegmentHeaderSize + (before.flatMap frame).length)).toNat =
      (segmentBytes before).length := by
  rw [length_segmentBytes, UInt32.toNat_ofNat_of_lt']
  have hheader : kChunksSegmentHeaderSize = 8 := rfl
  rw [UInt32.size]
  rcases hpacked with hle | hsingle
  · have hpos := length_frame_pos c
    rw [length_segmentBytes] at hle
    simp only [List.flatMap_append, List.flatMap_cons, List.length_append] at hle
    omega
  · -- The only chunk stands right behind the header.
    have hbefore : before = [] := by
      cases before with
      | nil => rfl
      | cons => simp at hsingle
    simp [hbefore, hheader]

/-- References grow with the offset inside a segment. -/
theorem pairwise_locateFrom {seq offset : Nat} {chunks : List ChunkPayload}
    (hfits : offset + (chunks.flatMap frame).length ≤ 2 ^ 32 ∨ chunks.length ≤ 1) :
    (locateFrom seq offset chunks).Pairwise fun x y ↦ x.1.offset < y.1.offset := by
  induction chunks generalizing offset with
  | nil => exact .nil
  | cons c chunks ih =>
    have hpos := length_frame_pos c
    rw [locateFrom]
    rcases hfits with hle | hsingle
    · rw [List.flatMap_cons, List.length_append] at hle
      apply List.Pairwise.cons _ (ih (Or.inl (by omega)))
      intro x hx
      obtain ⟨before, behind, rfl, -, hoffset⟩ := mem_locateFrom.mp hx
      have hposx := length_frame_pos x.2
      rw [List.flatMap_append, List.flatMap_cons, List.length_append, List.length_append] at hle
      rw [hoffset, UInt32.lt_iff_toNat_lt, UInt32.toNat_ofNat_of_lt', UInt32.toNat_ofNat_of_lt']
      · omega
      · rw [UInt32.size]
        omega
      · rw [UInt32.size]
        omega
    · have hnil : chunks = [] := by
        cases chunks with
        | nil => rfl
        | cons => simp at hsingle
      subst hnil
      exact List.pairwise_singleton _ _

theorem pairwise_locate {size seq : Nat} (hsize : size ≤ 2 ^ 32) {segs : List (List ChunkPayload)}
    (hpacked : Packed size segs) (hfew : seq + segs.length ≤ 2 ^ 32) :
    (locate seq segs).Pairwise fun x y ↦ x.1.toU64 < y.1.toU64 := by
  induction segs generalizing seq with
  | nil => exact .nil
  | cons chunks segs ih =>
    rw [List.length_cons] at hfew
    rw [locate, List.pairwise_append]
    refine ⟨?_, ih (fun c hc ↦ hpacked c (List.mem_cons_of_mem _ hc)) (by omega), ?_⟩
    · -- In one segment the offsets grow.
      have hfits : kChunksSegmentHeaderSize + (chunks.flatMap frame).length ≤ 2 ^ 32 ∨
          chunks.length ≤ 1 := by
        rw [← length_segmentBytes]
        exact (hpacked chunks List.mem_cons_self).imp_left fun h ↦ h.trans hsize
      apply (pairwise_locateFrom hfits).imp_of_mem
      intro x y hx hy hlt
      obtain ⟨-, -, -, hseqx, -⟩ := mem_locateFrom.mp hx
      obtain ⟨-, -, -, hseqy, -⟩ := mem_locateFrom.mp hy
      rw [UInt32.lt_iff_toNat_lt] at hlt
      rw [UInt64.lt_iff_toNat_lt, BlockChunkRef.toNat_toU64, BlockChunkRef.toNat_toU64, hseqx, hseqy]
      omega
    · -- From one segment to the next the number does, which takes the high bits.
      intro x hx y hy
      obtain ⟨-, -, -, hseqx, -⟩ := mem_locateFrom.mp hx
      obtain ⟨i, chunks', hget, hmem⟩ := mem_locate.mp hy
      obtain ⟨-, -, -, hseqy, -⟩ := mem_locateFrom.mp hmem
      obtain ⟨hi, -⟩ := List.getElem?_eq_some_iff.mp hget
      have hoffset : x.1.offset.toNat < 2 ^ 32 := x.1.offset.toNat_lt
      rw [UInt64.lt_iff_toNat_lt, BlockChunkRef.toNat_toU64, BlockChunkRef.toNat_toU64, hseqx, hseqy,
        UInt32.toNat_ofNat_of_lt', UInt32.toNat_ofNat_of_lt']
      · omega
      · rw [UInt32.size]
        omega
      · rw [UInt32.size]
        omega

/-- The chunks of one segment among all. -/
theorem filter_locate {start : Nat} {seq : UInt32} {segs : List (List ChunkPayload)}
    {chunks : List ChunkPayload} (hstart : start ≤ seq.toNat) (hfew : start + segs.length ≤ 2 ^ 32)
    (hget : segs[seq.toNat - start]? = some chunks) :
    (locate start segs).filter (fun x ↦ x.1.seq = seq) =
      locateFrom seq.toNat kChunksSegmentHeaderSize chunks := by
  have hall : ∀ {n offset chunks}, ∀ x ∈ locateFrom n offset chunks, x.1.seq = UInt32.ofNat n := by
    intro n offset chunks x hx
    obtain ⟨-, -, -, hseq, -⟩ := mem_locateFrom.mp hx
    exact hseq
  have hself : UInt32.ofNat seq.toNat = seq := UInt32.ofNat_toNat
  induction segs generalizing start with
  | nil => simp at hget
  | cons chunks' segs ih =>
    rw [List.length_cons] at hfew
    rw [locate, List.filter_append]
    -- Only this segment has the number: the later ones have greater ones.
    by_cases heq : start = seq.toNat
    · rw [heq, Nat.sub_self, List.getElem?_cons_zero, Option.some_inj] at hget
      subst heq hget
      have hlater : (locate (seq.toNat + 1) segs).filter (fun x ↦ x.1.seq = seq) = [] := by
        rw [List.filter_eq_nil_iff]
        intro x hx
        obtain ⟨i, chunks, hi, hmem⟩ := mem_locate.mp hx
        obtain ⟨hlt, -⟩ := List.getElem?_eq_some_iff.mp hi
        rw [hall x hmem, decide_eq_true_iff, ← UInt32.toNat_inj, UInt32.toNat_ofNat_of_lt']
        · omega
        · rw [UInt32.size]
          omega
      rw [hlater, List.append_nil, List.filter_eq_self]
      intro x hx
      rw [hall x hx, hself]
      exact decide_eq_true rfl
    · -- This segment has another number, and drops out.
      have hthis : (locateFrom start kChunksSegmentHeaderSize chunks').filter
          (fun x ↦ x.1.seq = seq) = [] := by
        rw [List.filter_eq_nil_iff]
        intro x hx
        rw [hall x hx, decide_eq_true_iff, ← UInt32.toNat_inj, UInt32.toNat_ofNat_of_lt']
        · exact heq
        · rw [UInt32.size]
          omega
      have hget' : segs[seq.toNat - (start + 1)]? = some chunks := by
        rw [← hget, show seq.toNat - start = seq.toNat - (start + 1) + 1 by omega,
          List.getElem?_cons_succ]
      rw [hthis, List.nil_append, ih (by omega) (by omega) hget']

/-- A reader gets the bytes of a segment, whatever it was asked before. -/
theorem served_segment {segs : List (List ChunkPayload)} {history : List ChunkCall} {seq : UInt32}
    {chunks : List ChunkPayload} (hget : segs[seq.toNat]? = some chunks) :
    served (segs.map segmentBytes) (history.map ChunkCall.seq) seq = .ok (segmentBytes chunks) := by
  obtain ⟨hlt, hchunks⟩ := List.getElem?_eq_some_iff.mp hget
  have hbytes : (segs.map segmentBytes).getD seq.toNat [] = segmentBytes chunks := by
    simp [hget]
  unfold served
  rw [if_neg (by rw [List.length_map]; omega)]
  dsimp only
  rw [hbytes, if_pos (Or.inl (headerValid_segmentBytes chunks))]

/-- A segment is within the limit of the writer, or holds one chunk. -/
theorem Packed.length_lt {size : Nat} {segs : List (List ChunkPayload)} (h : Packed size segs)
    (hsize : size ≤ 2 ^ 32) (hdata : ∀ chunks ∈ segs, ∀ c ∈ chunks, c.data.length ≤ kMaxSize) :
    ∀ chunks ∈ segs, (segmentBytes chunks).length < 2 ^ 64 := by
  intro chunks hmem
  rcases h chunks hmem with hle | hsingle
  · omega
  · have hmax : kMaxSize = 2 ^ 63 - 1 := rfl
    have hvarint : Varint.maxVarintLen64 = 10 := rfl
    have henc : kChunkEncodingSize = 1 := rfl
    have hcrc : kChunkCrcSize = 4 := rfl
    have hheader : kChunksSegmentHeaderSize = 8 := rfl
    rw [length_segmentBytes]
    match chunks, hsingle with
    | [], _ => simp [hheader]
    | [c], _ =>
      have hframe := length_frame_le c
      have hc := hdata [c] hmem c List.mem_cons_self
      simp only [List.flatMap_cons, List.flatMap_nil, List.append_nil]
      omega

/-- What the reader of packed segments answers, after any calls. -/
theorem read_located {size : Nat} (hsize : size ≤ 2 ^ 32) {segs : List (List ChunkPayload)}
    (hpacked : Packed size segs) (hfew : segs.length ≤ 2 ^ 32)
    (hdata : ∀ chunks ∈ segs, ∀ c ∈ chunks, c.data.length ≤ kMaxSize) (history : List ChunkCall) :
    (∀ x ∈ locate 0 segs,
        ((afterCalls (ChunkReader.ofSegments (segs.map segmentBytes)) history).read x.1).1 =
          .ok x.2) ∧
      ∀ (seq : UInt32) (chunks : List ChunkPayload), segs[seq.toNat]? = some chunks →
        ∀ fuel > chunks.length,
          ((afterCalls (ChunkReader.ofSegments (segs.map segmentBytes)) history).iterateSegment seq
            fuel).1 = some (.ok (((locate 0 segs).filter (·.1.seq = seq)).map chunkInfo)) := by
  have hcached := (cached_ofSegments (segs.map segmentBytes)).afterCalls history
  rw [List.nil_append] at hcached
  have hserved := fun seq chunks ↦ @served_segment segs history seq chunks
  have hlength := hpacked.length_lt hsize hdata
  constructor
  · -- A reference: its record stands behind the records in front of it.
    intro x hx
    obtain ⟨i, chunks, hget, hmem⟩ := mem_locate.mp hx
    obtain ⟨before, behind, hchunks, hseq, hoffset⟩ := mem_locateFrom.mp hmem
    obtain ⟨hi, -⟩ := List.getElem?_eq_some_iff.mp hget
    have hseqNat : x.1.seq.toNat = i := by
      rw [hseq, Nat.zero_add, UInt32.toNat_ofNat_of_lt']
      rw [UInt32.size]
      omega
    have hchunksMem : chunks ∈ segs := List.mem_of_getElem? hget
    have hperform := (hcached.perform (.read x.1)).1
    simp only [ChunkCall.perform, ChunkCall.resultOn, ChunkCall.seq, ChunkResult.read.injEq] at hperform
    rw [hperform, hserved x.1.seq chunks (by rw [hseqNat, hget])]
    change readRecord (segmentBytes chunks) x.1.offset.toNat = .ok x.2
    have hbytes : segmentBytes chunks =
        segmentBytes before ++ (frame x.2 ++ behind.flatMap frame) := by
      rw [hchunks]
      simp [segmentBytes]
    rw [hoffset, toNat_offset hsize (by rw [← hchunks]; exact hpacked chunks hchunksMem), hbytes]
    apply readRecord_frame
    have hlt := hlength chunks hchunksMem
    rw [hbytes, List.length_append, List.length_append] at hlt
    omega
  · -- A segment: the loop passes over its records one by one.
    intro seq chunks hget fuel hfuel
    have hperform := (hcached.perform (.iterate seq fuel)).1
    simp only [ChunkCall.perform, ChunkCall.resultOn, ChunkCall.seq, hserved seq chunks hget,
      ChunkResult.iterate.injEq] at hperform
    have hiterate := iterateLoop_frames seq segmentHeader chunks
      (hlength chunks (List.mem_of_getElem? hget)) hfuel
    rw [length_segmentHeader] at hiterate
    rw [hperform, filter_locate (Nat.zero_le _) (by omega) hget]
    exact hiterate

end MerlionTsdb.Block
