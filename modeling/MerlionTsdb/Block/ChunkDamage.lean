import MerlionTsdb.Block.Checksum
import MerlionTsdb.Encoding.Damage
import MerlionTsdb.Lib.Refusal

/-!
# Damage to chunk segments

The checksum of a record covers the encoding and the data of its chunk.  Where they are damaged, or the
header of the segment is, `read` refuses the chunk; it never gives out another one.
-/

namespace MerlionTsdb.Block

open Crc32c Encoding

/-- What the code reports of a file that fails a check. -/
def malformed : Failure := .error .illegalByteSequence

/-! ## One record -/

/-- What is left of the record of a chunk.  The length in front is not covered by the checksum, and
stays. -/
def WornRecord (c : ChunkPayload) (bytes : Bytes) : Prop :=
  ∃ rest, Worn (c.encoding.tag :: c.data) rest ∧
    bytes = Varint.putUvarint (UInt64.ofNat c.data.length) ++ rest

/-- The checksum is that of the encoding and the data together. -/
theorem frame_eq_sealed (c : ChunkPayload) : frame c =
    Varint.putUvarint (UInt64.ofNat c.data.length) ++ sealed (c.encoding.tag :: c.data) := by
  rw [← storedRecord_chunkCrc, chunkCrc_eq_compute]
  rfl

theorem wornRecord_frame (c : ChunkPayload) : WornRecord c (frame c) :=
  ⟨_, .intact, frame_eq_sealed c⟩

namespace WornRecord

variable {c : ChunkPayload} {bytes : Bytes}

/-- Damage changes no length. -/
theorem length_eq (h : WornRecord c bytes) : bytes.length = (frame c).length := by
  obtain ⟨rest, hworn, rfl⟩ := h
  rw [frame_eq_sealed, List.length_append, List.length_append, hworn.length_eq,
    Worn.intact.length_eq]

/-- The record gives its chunk, or nothing. -/
theorem readRecord (h : WornRecord c bytes) (pre post : Bytes)
    (hsize : pre.length + (frame c).length < 2 ^ 64) :
    OrError malformed (readRecord (pre ++ (bytes ++ post)) pre.length) (.ok c) := by
  have hlen := h.length_eq
  obtain ⟨rest, hworn, hbytes⟩ := h
  cases hworn with
  | intact =>
    rw [hbytes, ← frame_eq_sealed]
    exact Or.inl (readRecord_frame pre post c hsize)
  | @damaged payload crc hdamage =>
    -- One byte is left of the encoding, and as many of the data as there were.
    cases payload with
    | nil => cases hdamage.length_eq
    | cons tag data =>
      have hdata : data.length = c.data.length := Nat.succ.inj hdamage.length_eq
      have hstored : bytes = storedRecord ⟨⟨tag⟩, data⟩ crc := by
        rw [hbytes, storedRecord, hdata]
        rfl
      have hread := readRecord_stored pre post ⟨⟨tag⟩, data⟩ crc (by rw [← hstored, hlen]; exact hsize)
      rw [chunkCrc_eq_compute, if_neg hdamage.compute_ne] at hread
      rw [hstored]
      exact Or.inr hread

end WornRecord

/-- The record of a chunk among those of a segment. -/
theorem exists_wornRecord {before behind : List ChunkPayload} {c : ChunkPayload} {records : List Bytes}
    (h : List.Forall₂ WornRecord (before ++ c :: behind) records) :
    ∃ front bytes back, WornRecord c bytes ∧ records.flatten = front ++ (bytes ++ back) ∧
      front.length = (before.flatMap frame).length := by
  induction before generalizing records with
  | nil =>
    cases h with
    | @cons _ bytes _ records hbytes _ => exact ⟨[], bytes, records.flatten, hbytes, rfl, rfl⟩
  | cons c' before ih =>
    cases h with
    | @cons _ bytes' _ records hbytes' hrecords =>
      obtain ⟨front, bytes, back, hbytes, hflatten, hfront⟩ := ih hrecords
      refine ⟨bytes' ++ front, bytes, back, hbytes, ?_, ?_⟩
      · rw [List.flatten_cons, hflatten, List.append_assoc]
      · rw [List.length_append, hbytes'.length_eq, hfront, List.flatMap_cons, List.length_append]

/-! ## Segments -/

/-- What is left of a segment: its records, worn, behind any header. -/
def WornSegment (chunks : List ChunkPayload) (bytes : Bytes) : Prop :=
  ∃ header records, header.length = kChunksSegmentHeaderSize ∧
    List.Forall₂ WornRecord chunks records ∧ bytes = header ++ records.flatten

theorem wornSegment_segmentBytes (chunks : List ChunkPayload) :
    WornSegment chunks (segmentBytes chunks) := by
  refine ⟨segmentHeader, chunks.map frame, rfl, ?_, by rw [← List.flatMap_def]; rfl⟩
  rw [List.forall₂_map_right_iff]
  exact List.forall₂_same.mpr fun c _ ↦ wornRecord_frame c

/-- Any header may stand in front of the records. -/
theorem WornSegment.header {chunks : List ChunkPayload} {bytes header : Bytes}
    (h : WornSegment chunks bytes) (hheader : header.length = kChunksSegmentHeaderSize) :
    WornSegment chunks (header ++ bytes.drop kChunksSegmentHeaderSize) := by
  obtain ⟨old, records, hold, hrecords, rfl⟩ := h
  exact ⟨header, records, hheader, hrecords, by rw [← hold, List.drop_left]⟩

/-- A reader refuses a segment for its header, or has its bytes. -/
theorem served_getD (segments : List Bytes) (used : List UInt32) {seq : UInt32}
    (h : seq.toNat < segments.length) :
    OrError malformed (served segments used seq) (.ok (segments.getD seq.toNat [])) := by
  unfold served
  rw [if_neg (Nat.not_le.mpr h)]
  dsimp only
  split
  · exact Or.inl rfl
  · exact Or.inr rfl

/-- Whatever a reader of worn segments was asked before, a reference leads to its own chunk or nowhere. -/
theorem read_worn {size : Nat} (hsize : size ≤ 2 ^ 32) {segs : List (List ChunkPayload)}
    (hpacked : Packed size segs) (hfew : segs.length ≤ 2 ^ 32)
    (hdata : ∀ chunks ∈ segs, ∀ c ∈ chunks, c.data.length ≤ kMaxSize) {segments : List Bytes}
    (hworn : List.Forall₂ WornSegment segs segments) (history : List ChunkCall)
    {x : BlockChunkRef × ChunkPayload} (hx : x ∈ locate 0 segs) :
    OrError malformed ((afterCalls (.ofSegments segments) history).read x.1).1 (.ok x.2) := by
  obtain ⟨i, chunks, hget, hmem⟩ := mem_locate.mp hx
  obtain ⟨before, behind, hchunks, hseq, hoffset⟩ := mem_locateFrom.mp hmem
  obtain ⟨hi, hgetElem⟩ := List.getElem?_eq_some_iff.mp hget
  have hseqNat : x.1.seq.toNat = i := by
    rw [hseq, Nat.zero_add, UInt32.toNat_ofNat_of_lt']
    rw [UInt32.size]
    omega
  have hi' : i < segments.length := by
    rw [← hworn.length_eq]
    exact hi
  have hbytes : WornSegment chunks (segments.getD i []) := by
    rw [List.getD_eq_getElem _ _ hi', ← hgetElem]
    exact hworn.get hi hi'
  obtain ⟨header, records, hheader, hrecords, hsegment⟩ := hbytes
  rw [hchunks] at hrecords
  obtain ⟨front, bytes, back, hrecord, hflatten, hfront⟩ := exists_wornRecord hrecords
  have hchunksMem : chunks ∈ segs := List.mem_of_getElem? hget
  have hlt := hpacked.length_lt hsize hdata chunks hchunksMem
  have hat := toNat_offset hsize (by rw [← hchunks]; exact hpacked chunks hchunksMem)
  rw [← hoffset] at hat
  rw [hchunks, length_segmentBytes, List.flatMap_append, List.flatMap_cons, List.length_append,
    List.length_append] at hlt
  -- Damage moves no record: the one referred to stands where it stood.
  have hoff : (header ++ front).length = x.1.offset.toNat := by
    rw [hat, List.length_append, hheader, hfront, length_segmentBytes]
  have hread := hrecord.readRecord (header ++ front) back (by
    rw [List.length_append, hheader, hfront]
    omega)
  rw [hoff, List.append_assoc, ← hflatten, ← hsegment] at hread
  have hcached := (cached_ofSegments segments).afterCalls history
  have hperform := (hcached.perform (.read x.1)).1
  simp only [ChunkCall.perform, ChunkCall.resultOn, ChunkCall.seq, ChunkResult.read.injEq] at hperform
  have hserved := served_getD segments ([] ++ history.map ChunkCall.seq) (hseqNat ▸ hi')
  rw [hseqNat] at hserved
  rw [hperform]
  rcases hserved with hok | hrefused
  · rw [hok]
    exact hread
  · rw [hrefused]
    exact Or.inr rfl

end MerlionTsdb.Block
