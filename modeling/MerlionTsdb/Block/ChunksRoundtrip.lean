import MerlionTsdb.Block.ChunkLayout
import MerlionTsdb.Wal.Durable

/-!
# Chunks written and read back

The writer keeps its files and its offset in step with the split of its chunks over the segments.
-/

namespace MerlionTsdb.Block

open Encoding Wal

/-! ## Numbered files -/

/-- Files under the numbers of their segments. -/
def numberBytes (contents : List Bytes) : List (Nat × Bytes) :=
  contents.mapIdx fun i bytes ↦ (i + 1, bytes)

theorem numberBytes_concat (contents : List Bytes) (bytes : Bytes) :
    numberBytes (contents ++ [bytes]) = numberBytes contents ++ [(contents.length + 1, bytes)] :=
  List.mapIdx_concat

theorem le_of_mem_numberBytes {contents : List Bytes} {e : Nat × Bytes}
    (h : e ∈ numberBytes contents) : e.1 ≤ contents.length := by
  unfold numberBytes at h
  rw [List.mem_mapIdx] at h
  obtain ⟨i, hi, rfl⟩ := h
  exact hi

/-- Numbered files are read in the order of their numbers. -/
theorem chunkSegments_numbered {files : Files} {contents : List Bytes}
    (h : files.numbered parseSegmentName = numberBytes contents) : chunkSegments files = contents := by
  have hsorted : (numberBytes contents).Pairwise fun a b ↦ a.1 ≤ b.1 := by
    unfold numberBytes
    rw [List.pairwise_iff_getElem]
    intro i j hi hj hij
    simp only [List.getElem_mapIdx]
    omega
  unfold chunkSegments
  rw [h, hsorted.insertionSort_eq]
  unfold numberBytes
  apply List.ext_getElem
  · simp
  · intro i hi hi'
    simp only [List.getElem_map, List.getElem_mapIdx]

/-! ## The writer -/

def ChunkCutCalls.Succeeds (calls : ChunkCutCalls) : Prop :=
  calls.fsync = true ∧ calls.close = true ∧ calls.opened = true ∧ ∀ r ∈ calls.header, r.Succeeds

def ChunkCalls.Succeeds (calls : ChunkCalls) : Prop :=
  calls.cut.Succeeds ∧ ∀ r ∈ calls.write, r.Succeeds

/-- The segments under their numbers. -/
def numberSegments (segs : List (List ChunkPayload)) : List (Nat × Bytes) :=
  segs.mapIdx fun i chunks ↦ (i + 1, segmentBytes chunks)

/-- The writer has written the segments `done` and the chunks `cur` of the current one. -/
structure Written (size : Nat) (w : ChunkWriter) (files : Files) (done : List (List ChunkPayload))
    (cur : List ChunkPayload) : Prop where
  size_eq : w.segmentSize = size
  fd_eq : w.fd = some (formatSegmentName (w.seq + 1))
  seq_eq : w.seq.toNat = done.length
  offset_eq : w.segOffset = (segmentBytes cur).length
  closed_eq : w.closed = false
  exists_base : ∃ base : Files, files = base.set (formatSegmentName (w.seq + 1)) (segmentBytes cur) ∧
    base.numbered parseSegmentName = numberSegments done
  few : done.length < 999999

theorem parseSegmentName_format {seq : UInt32} {n : Nat} (hseq : seq.toNat = n) (hn : n < 999999) :
    parseSegmentName (formatSegmentName (seq + 1)) = some (n + 1) := by
  have hwidth : kChunksSegmentFilenameWidth = 6 := rfl
  have hsucc : (seq + 1).toNat = n + 1 := by
    rw [UInt32.toNat_add, hseq]
    exact Nat.mod_eq_of_lt (by rw [UInt32.toNat_one]; omega)
  unfold parseSegmentName formatSegmentName
  rw [Decimal.parse_padded (by decide), hsucc, if_pos]
  rw [hwidth]
  omega

theorem numberSegments_eq (segs : List (List ChunkPayload)) :
    numberSegments segs = numberBytes (segs.map segmentBytes) := by
  unfold numberSegments numberBytes
  apply List.ext_getElem?
  intro i
  rw [List.getElem?_mapIdx, List.getElem?_mapIdx, List.getElem?_map, Option.map_map]
  rfl

namespace Written

variable {size : Nat} {w : ChunkWriter} {files : Files} {done : List (List ChunkPayload)}
  {cur : List ChunkPayload}

/-- The segment files. -/
theorem numbered_eq (h : Written size w files done cur) :
    files.numbered parseSegmentName = numberSegments (done ++ [cur]) := by
  obtain ⟨base, rfl, hbase⟩ := h.exists_base
  rw [numberSegments_eq] at hbase
  rw [Files.numbered_set_new (parseSegmentName_format h.seq_eq h.few), hbase, numberSegments_eq,
    List.map_append, List.map_singleton, numberBytes_concat, List.length_map]
  intro e he
  rw [hbase] at he
  have hle := le_of_mem_numberBytes he
  rw [List.length_map] at hle
  omega

/-- Bytes that go to the current segment. -/
theorem writeFd (h : Written size w files done cur) {calls : List WriteResult}
    (hcalls : ∀ r ∈ calls, r.Succeeds) (c : ChunkPayload) :
    ∃ files', w.writeFd files calls (frame c) = (true, files') ∧
      Written size { w with segOffset := w.segOffset + (frame c).length } files' done
        (cur ++ [c]) := by
  obtain ⟨base, rfl, hbase⟩ := h.exists_base
  refine ⟨base.set (formatSegmentName (w.seq + 1)) (segmentBytes (cur ++ [c])), ?_, ?_⟩
  · unfold ChunkWriter.writeFd
    rw [h.fd_eq, writeAll_of_succeeds hcalls]
    dsimp only
    rw [Files.append_set, segmentBytes_concat]
  · constructor
    · exact h.size_eq
    · exact h.fd_eq
    · exact h.seq_eq
    · rw [segmentBytes_concat, List.length_append, ← h.offset_eq]
    · exact h.closed_eq
    · exact ⟨base, rfl, hbase⟩
    · exact h.few

/-- A new segment behind the current one. -/
theorem cutNewSegment (h : Written size w files done cur) {calls : ChunkCutCalls}
    (hcalls : calls.Succeeds) (hfew : done.length + 1 < 999999) :
    ∃ w' files', w.cutNewSegment files calls = (true, w', files') ∧
      Written size w' files' (done ++ [cur]) [] := by
  obtain ⟨hfsync, hclose, hopened, hheader⟩ := hcalls
  have hsucc : (w.seq + 1).toNat = done.length + 1 := by
    rw [UInt32.toNat_add, h.seq_eq]
    exact Nat.mod_eq_of_lt (by rw [UInt32.toNat_one]; omega)
  unfold ChunkWriter.cutNewSegment
  rw [h.fd_eq, hfsync, hclose, hopened]
  simp only [Option.isSome_some, Bool.not_true, Bool.and_false, Bool.false_eq_true, ↓reduceIte,
    ChunkWriter.writeFd]
  rw [writeAll_of_succeeds hheader]
  refine ⟨_, _, rfl, ?_⟩
  constructor
  · exact h.size_eq
  · rfl
  · rw [List.length_append]
    exact hsucc
  · rfl
  · exact h.closed_eq
  · refine ⟨files, ?_, h.numbered_eq⟩
    rw [Files.append_set]
    simp [segmentBytes]
  · rw [List.length_append]
    exact hfew

theorem rollsOver_eq (h : Written size w files done cur) (c : ChunkPayload) :
    w.rollsOver c.data.length = true ↔ cur ≠ [] ∧ size < (segmentBytes cur).length +
      (Varint.maxVarintLen64 + kChunkEncodingSize + c.data.length + kChunkCrcSize) := by
  have hchunks : kChunksSegmentHeaderSize < w.segOffset ↔ cur ≠ [] := by
    rw [h.offset_eq, length_segmentBytes]
    cases cur with
    | nil => simp
    | cons c' cur =>
      have hpos := length_frame_pos c'
      rw [List.flatMap_cons, List.length_append]
      simp only [ne_eq, reduceCtorEq, not_false_eq_true, iff_true]
      omega
  unfold ChunkWriter.rollsOver
  rw [Bool.and_eq_true, decide_eq_true_iff, decide_eq_true_iff, hchunks, h.size_eq, h.offset_eq]

/-- A write puts its chunk where the split does. -/
theorem write (h : Written size w files done cur) {calls : ChunkCalls} (hcalls : calls.Succeeds)
    (c : ChunkPayload) (hfew : (packChunk size (done, cur) c).1.length < 999999) :
    ∃ ref w' files', w.write files c calls = (.ok ref, w', files') ∧
      Written size w' files' (packChunk size (done, cur) c).1 (packChunk size (done, cur) c).2 ∧
      locate 0 ((packChunk size (done, cur) c).1 ++ [(packChunk size (done, cur) c).2]) =
        locate 0 (done ++ [cur]) ++ [(ref, c)] := by
  obtain ⟨hcut, hwrite⟩ := hcalls
  unfold packChunk at hfew ⊢
  unfold ChunkWriter.write
  rw [h.closed_eq]
  dsimp only at hfew ⊢
  by_cases hroll : w.rollsOver c.data.length = true
  · -- The writer and the split roll over on the same condition.
    have hsplit := (h.rollsOver_eq c).mp hroll
    rw [if_pos hsplit] at hfew ⊢
    rw [List.length_append] at hfew
    obtain ⟨w₁, files₁, hcutNew, h₁⟩ := h.cutNewSegment hcut hfew
    obtain ⟨files₂, hwritten, h₂⟩ := h₁.writeFd hwrite c
    refine ⟨{ seq := w₁.seq, offset := UInt32.ofNat w₁.segOffset }, _, files₂, ?_, h₂, ?_⟩
    · rw [if_neg Bool.false_ne_true, if_pos hroll, hcutNew]
      dsimp only
      rw [hwritten]
    · have hseq : w₁.seq = UInt32.ofNat (done.length + 1) := by
        rw [← UInt32.toNat_inj, h₁.seq_eq, List.length_append, UInt32.toNat_ofNat_of_lt']
        · rfl
        · rw [UInt32.size]
          simp only [List.length_singleton] at hfew
          omega
      have hoffset : w₁.segOffset = kChunksSegmentHeaderSize := h₁.offset_eq
      rw [hseq, hoffset]
      exact locate_cut done cur c
  · -- The chunk joins the current segment.
    have hsplit := fun hsplit ↦ hroll ((h.rollsOver_eq c).mpr hsplit)
    rw [if_neg hsplit] at hfew ⊢
    obtain ⟨files₁, hwritten, h₁⟩ := h.writeFd hwrite c
    refine ⟨{ seq := w.seq, offset := UInt32.ofNat w.segOffset }, _, files₁, ?_, h₁, ?_⟩
    · rw [if_neg Bool.false_ne_true, if_neg hroll]
      dsimp only
      rw [hwritten]
    · have hseq : w.seq = UInt32.ofNat done.length := by
        have hlt := h.few
        rw [← UInt32.toNat_inj, h.seq_eq, UInt32.toNat_ofNat_of_lt']
        rw [UInt32.size]
        omega
      rw [hseq, h.offset_eq]
      exact locate_concat done cur c

end Written

/-- A writer just opened. -/
theorem written_openDir {files : Files} (hnew : files.numbered parseSegmentName = []) (size : Nat)
    {calls : ChunkCutCalls} (hcalls : calls.Succeeds) :
    ∃ w files', ChunkWriter.openDir files size calls = (.ok w, files') ∧
      Written size w files' [] [] := by
  obtain ⟨hfsync, hclose, hopened, hheader⟩ := hcalls
  unfold ChunkWriter.openDir ChunkWriter.cutNewSegment
  rw [if_neg (by simp [hnew]), hfsync, hclose, hopened]
  simp only [Option.isSome_none, Bool.not_true, Bool.and_false, Bool.false_eq_true, ↓reduceIte,
    ChunkWriter.writeFd]
  rw [writeAll_of_succeeds hheader]
  refine ⟨_, _, rfl, ?_⟩
  constructor
  · rfl
  · rfl
  · rfl
  · rfl
  · rfl
  · refine ⟨files, ?_, hnew⟩
    rw [Files.append_set]
    simp [segmentBytes]
  · decide

/-- One call of `write`, and the answers to the system calls under it. -/
structure ChunkWrite where
  encoding : ChunkEncoding
  data : Str
  calls : ChunkCalls := {}

def ChunkWrite.payload (x : ChunkWrite) : ChunkPayload := ⟨x.encoding, x.data.bytes⟩

/-- The results of the calls, and what they leave. -/
def writeChunks (w : ChunkWriter) (files : Files) :
    List ChunkWrite → List (Except Errc BlockChunkRef) × ChunkWriter × Files
  | [] => ([], w, files)
  | x :: writes =>
    let (r, w, files) := w.write files x.payload x.calls
    let (rs, w, files) := writeChunks w files writes
    (r :: rs, w, files)

/-- Every write succeeds, and the chunks are where the split puts them. -/
theorem Written.writeChunks {size : Nat} {w : ChunkWriter} {files : Files}
    {done : List (List ChunkPayload)} {cur : List ChunkPayload} (h : Written size w files done cur)
    {writes : List ChunkWrite} (hcalls : ∀ x ∈ writes, x.calls.Succeeds)
    (hfew : ((writes.map ChunkWrite.payload).foldl (packChunk size) (done, cur)).1.length < 999999) :
    ∃ (refs : List BlockChunkRef) (w' : ChunkWriter) (files' : Files),
      Block.writeChunks w files writes = (refs.map .ok, w', files') ∧
      Written size w' files' ((writes.map ChunkWrite.payload).foldl (packChunk size) (done, cur)).1
        ((writes.map ChunkWrite.payload).foldl (packChunk size) (done, cur)).2 ∧
      locate 0 (((writes.map ChunkWrite.payload).foldl (packChunk size) (done, cur)).1 ++
          [((writes.map ChunkWrite.payload).foldl (packChunk size) (done, cur)).2]) =
        locate 0 (done ++ [cur]) ++ refs.zip (writes.map ChunkWrite.payload) ∧
      refs.length = writes.length := by
  induction writes generalizing w files done cur with
  | nil => exact ⟨[], w, files, rfl, h, by simp, rfl⟩
  | cons x writes ih =>
    rw [List.map_cons, List.foldl_cons] at hfew ⊢
    have hstep := lt_of_le_of_lt (length_foldl_packChunk size _ _) hfew
    obtain ⟨ref, w₁, files₁, hwrite, h₁, hlocate₁⟩ :=
      h.write (hcalls x List.mem_cons_self) x.payload hstep
    obtain ⟨refs, w₂, files₂, hwrites, h₂, hlocate₂, hlength⟩ :=
      ih h₁ (fun x' hx' ↦ hcalls x' (List.mem_cons_of_mem _ hx')) hfew
    refine ⟨ref :: refs, w₂, files₂, ?_, h₂, ?_, by simp [hlength]⟩
    · rw [Block.writeChunks, hwrite]
      dsimp only
      rw [hwrites]
      rfl
    · rw [hlocate₂, hlocate₁, List.append_assoc]
      rfl

/-! ## The directory behind a writer -/

/-- The reader's segments are the writer's. -/
theorem Written.chunkSegments {size : Nat} {w : ChunkWriter} {files : Files}
    {done : List (List ChunkPayload)} {cur : List ChunkPayload} (h : Written size w files done cur) :
    chunkSegments files = (done ++ [cur]).map segmentBytes :=
  chunkSegments_numbered (h.numbered_eq.trans (numberSegments_eq _))

/-- A reader finds every chunk under the reference its write returned, and lists each segment in the
order of the writes. -/
theorem chunks_roundtrip {files : Files} {size : Nat} {cut : ChunkCutCalls} {writes : List ChunkWrite}
    (hnew : files.numbered parseSegmentName = []) (hcut : cut.Succeeds)
    (hcalls : ∀ x ∈ writes, x.calls.Succeeds) (hsize : size ≤ 2 ^ 32)
    (hfew : (packChunks size (writes.map ChunkWrite.payload)).length < 999999) :
    ∃ (w₀ : ChunkWriter) (files₀ : Files) (refs : List BlockChunkRef) (w : ChunkWriter)
      (files' : Files), ChunkWriter.openDir files size cut = (.ok w₀, files₀) ∧
      writeChunks w₀ files₀ writes = (refs.map .ok, w, files') ∧ (w.close true true).1 = true ∧
      refs.Pairwise (fun a b ↦ a.toU64 < b.toU64) ∧
      ∀ history : List ChunkCall,
        let r := afterCalls (ChunkReader.openDir files') history
        (List.Forall₂ (fun ref x ↦ (r.read ref).1 = .ok x.payload ∧
            (r.read (.fromU64 ref.toU64)).1 = .ok x.payload) refs writes) ∧
          (∀ seq : UInt32, seq.toNat < (chunkSegments files').length →
            ∃ n, ∀ fuel ≥ n, (r.iterateSegment seq fuel).1 =
              some (.ok (((refs.zip (writes.map ChunkWrite.payload)).filter
                (·.1.seq = seq)).map chunkInfo))) ∧
          ∀ (seq : UInt32) (bytes : Bytes), (chunkSegments files')[seq.toNat]? = some bytes →
            size < bytes.length → (refs.filter (·.seq = seq)).length ≤ 1 := by
  obtain ⟨w₀, files₀, hopen, h₀⟩ := written_openDir hnew size hcut
  have hfold : ((writes.map ChunkWrite.payload).foldl (packChunk size) ([], [])).1.length <
      999999 := by
    unfold packChunks at hfew
    rw [List.length_append] at hfew
    omega
  obtain ⟨refs, w, files', hwrites, h, hlocate, hlength⟩ := h₀.writeChunks hcalls hfold
  have hsegs : chunkSegments files' =
      (packChunks size (writes.map ChunkWrite.payload)).map segmentBytes := h.chunkSegments
  have hlocated : locate 0 (packChunks size (writes.map ChunkWrite.payload)) =
      refs.zip (writes.map ChunkWrite.payload) := hlocate
  have hpacked := packed_packChunks size (writes.map ChunkWrite.payload)
  generalize packChunks size (writes.map ChunkWrite.payload) = segs at hfew hsegs hlocated hpacked
  have hzip : refs.length = (writes.map ChunkWrite.payload).length := by
    rw [hlength, List.length_map]
  have hrefs : (locate 0 segs).map Prod.fst = refs := by
    rw [hlocated]
    exact List.map_fst_zip (le_of_eq hzip)
  -- Every chunk of the segments is one of the writes.
  have hdata : ∀ chunks ∈ segs, ∀ c ∈ chunks, c.data.length ≤ kMaxSize := by
    intro chunks hchunks c hc
    obtain ⟨i, hi⟩ := List.mem_iff_getElem?.mp hchunks
    obtain ⟨before, behind, hsplit⟩ := List.append_of_mem hc
    have hmem : ({ seq := UInt32.ofNat (0 + i), offset :=
        UInt32.ofNat (kChunksSegmentHeaderSize + (before.flatMap frame).length) }, c) ∈
          locate 0 segs :=
      mem_locate.mpr ⟨i, chunks, hi, mem_locateFrom.mpr ⟨before, behind, hsplit, rfl, rfl⟩⟩
    rw [hlocated] at hmem
    obtain ⟨x, -, rfl⟩ := List.mem_map.mp (List.of_mem_zip hmem).2
    exact x.data.length_le
  refine ⟨w₀, files₀, refs, w, files', hopen, hwrites, ?_, ?_, ?_⟩
  · unfold ChunkWriter.close
    rw [h.closed_eq, h.fd_eq]
    rfl
  · rw [← hrefs, List.pairwise_map]
    exact pairwise_locate hsize hpacked (by omega)
  · intro history
    obtain ⟨hread, hiterate⟩ := read_located hsize hpacked (by omega) hdata history
    rw [hlocated] at hread hiterate
    unfold ChunkReader.openDir
    rw [hsegs]
    refine ⟨?_, ?_, ?_⟩
    · rw [List.forall₂_iff_zip]
      refine ⟨hlength, ?_⟩
      intro ref x hx
      have hpayload : (ref, x.payload) ∈ refs.zip (writes.map ChunkWrite.payload) := by
        rw [List.zip_map_right]
        exact List.mem_map.mpr ⟨(ref, x), hx, rfl⟩
      have hok := hread _ hpayload
      rw [BlockChunkRef.fromU64_toU64]
      exact ⟨hok, hok⟩
    · intro seq hseq
      rw [List.length_map] at hseq
      have hget := List.getElem?_eq_getElem hseq
      exact ⟨(segs[seq.toNat]).length + 1, fun fuel hfuel ↦ hiterate seq _ hget fuel hfuel⟩
    · intro seq bytes hbytes hlarge
      rw [List.getElem?_map, Option.map_eq_some_iff] at hbytes
      obtain ⟨chunks, hget, rfl⟩ := hbytes
      have hfilter : refs.filter (·.seq = seq) =
          (locateFrom seq.toNat kChunksSegmentHeaderSize chunks).map Prod.fst := by
        rw [← filter_locate (Nat.zero_le _) (by omega) hget, ← hrefs, List.filter_map]
        rfl
      have hcount : (locateFrom seq.toNat kChunksSegmentHeaderSize chunks).length =
          chunks.length := by
        generalize kChunksSegmentHeaderSize = offset
        clear hget hfilter hlarge
        induction chunks generalizing offset with
        | nil => rfl
        | cons c chunks ih =>
          rw [locateFrom, List.length_cons, List.length_cons, ih]
      rw [hfilter, List.length_map, hcount]
      rcases hpacked chunks (List.mem_of_getElem? hget) with hle | hsingle
      · omega
      · exact hsingle

/-- Two chunks that do not fit in one segment of 20 bytes. -/
theorem chunks_roundtrip_two :
    ∃ (refs : List BlockChunkRef) (files' : Files),
      refs.Pairwise (fun a b ↦ a.toU64 < b.toU64) ∧
      List.Forall₂ (fun ref c ↦ ((ChunkReader.openDir files').read ref).1 = .ok c) refs
        [⟨.xor, [0, 1, 2]⟩, ⟨.none, []⟩] := by
  let writes : List ChunkWrite := [⟨.xor, ⟨[0, 1, 2], by decide⟩, {}⟩, ⟨.none, Str.empty, {}⟩]
  have hsucceeds : ChunkCutCalls.Succeeds {} := ⟨rfl, rfl, rfl, by simp⟩
  obtain ⟨-, -, refs, -, files', -, -, -, hrefs, hreads⟩ :=
    @chunks_roundtrip Files.empty 20 {} writes rfl hsucceeds
      (by simp [writes, ChunkCalls.Succeeds, hsucceeds]) (by decide) (by decide)
  refine ⟨refs, files', hrefs, ?_⟩
  have hread := (hreads []).1
  change List.Forall₂ _ refs (writes.map ChunkWrite.payload)
  rw [List.forall₂_map_right_iff]
  exact hread.imp fun _ _ h ↦ h.1

end MerlionTsdb.Block
