import MerlionTsdb.Block.Chunks

/-!
# The cache of the chunk reader

A call loads its segment into the cache before it looks at the header, and a later call takes what
is in the cache as it is.  So what a call returns depends on the calls before it, unless every
segment that is used twice has a valid header or no bytes at all.
-/

namespace MerlionTsdb.Block

open Encoding

/-- One call on a reader; `iterate` with the fuel of its loop. -/
inductive ChunkCall
  | read (ref : BlockChunkRef)
  | iterate (seq : UInt32) (fuel : Nat)
  deriving DecidableEq, Repr

inductive ChunkResult
  | read (r : Except Failure ChunkPayload)
  | iterate (r : Option (Except Failure (List ChunkInfo)))
  deriving DecidableEq, Repr

namespace ChunkCall

def seq : ChunkCall → UInt32
  | .read ref => ref.seq
  | .iterate seq _ => seq

def perform (c : ChunkCall) (r : ChunkReader) : ChunkResult × ChunkReader :=
  match c with
  | .read ref => (.read (r.read ref).1, (r.read ref).2)
  | .iterate seq fuel => (.iterate (r.iterateSegment seq fuel).1, (r.iterateSegment seq fuel).2)

/-- What the call returns once `bytes_for` has answered. -/
def resultOn (c : ChunkCall) (bytes : Except Failure Bytes) : ChunkResult :=
  match c with
  | .read ref => .read (bytes >>= fun bytes ↦ readRecord bytes ref.offset.toNat)
  | .iterate seq fuel =>
    match bytes with
    | .error e => .iterate (some (.error e))
    | .ok bytes => .iterate (iterateLoop seq bytes fuel kChunksSegmentHeaderSize)

/-- A call touches the reader through `bytes_for` only. -/
theorem perform_eq (c : ChunkCall) (r : ChunkReader) :
    c.perform r = (c.resultOn (r.bytesFor c.seq).1, (r.bytesFor c.seq).2) := by
  cases c with
  | read ref =>
    simp only [perform, ChunkReader.read, resultOn, seq]
    rcases r.bytesFor ref.seq with ⟨_ | _, r'⟩ <;> rfl
  | iterate seq' fuel =>
    simp only [perform, ChunkReader.iterateSegment, resultOn, seq]
    rcases r.bytesFor seq' with ⟨_ | _, r'⟩ <;> rfl

end ChunkCall

/-- The results of the calls, in order. -/
def runChunkCalls (r : ChunkReader) : List ChunkCall → List ChunkResult
  | [] => []
  | c :: calls => (c.perform r).1 :: runChunkCalls (c.perform r).2 calls

/-- The reader the calls leave. -/
def afterCalls (r : ChunkReader) : List ChunkCall → ChunkReader
  | [] => r
  | c :: calls => afterCalls (c.perform r).2 calls

/-! ## What is in the cache -/

/-- Exactly the segments used so far are in the cache. -/
structure Cached (r : ChunkReader) (segments : List Bytes) (used : List UInt32) : Prop where
  segments_eq : r.segments = segments
  length_eq : r.segmentBytesCache.length = segments.length
  cache_eq : ∀ i < segments.length, r.segmentBytesCache.getD i [] =
    if ∃ seq ∈ used, seq.toNat = i then segments.getD i [] else []

theorem cached_ofSegments (segments : List Bytes) :
    Cached (ChunkReader.ofSegments segments) segments [] where
  segments_eq := rfl
  length_eq := List.length_map _
  cache_eq i hi := by
    simp [ChunkReader.ofSegments, hi]

/-- The bytes `bytes_for` gives out for a segment: validated, or taken from the cache. -/
def served (segments : List Bytes) (used : List UInt32) (seq : UInt32) : Except Failure Bytes :=
  if segments.length ≤ seq.toNat then .error (.error .noSuchFileOrDirectory)
  else
    let bytes := segments.getD seq.toNat []
    if headerValid bytes ∨ (seq ∈ used ∧ bytes ≠ []) then .ok bytes
    else .error (.error .illegalByteSequence)

namespace Cached

variable {r : ChunkReader} {segments : List Bytes} {used : List UInt32}

theorem cache_of_mem (h : Cached r segments used) {seq : UInt32} (hlt : seq.toNat < segments.length)
    (hmem : seq ∈ used) : r.segmentBytesCache.getD seq.toNat [] = segments.getD seq.toNat [] := by
  rw [h.cache_eq _ hlt, if_pos ⟨seq, hmem, rfl⟩]

theorem cache_of_not_mem (h : Cached r segments used) {seq : UInt32}
    (hlt : seq.toNat < segments.length) (hmem : seq ∉ used) :
    r.segmentBytesCache.getD seq.toNat [] = [] := by
  rw [h.cache_eq _ hlt, if_neg]
  rintro ⟨seq', hmem', heq⟩
  exact hmem (UInt32.toNat_inj.mp heq ▸ hmem')

/-- What `bytes_for` answers. -/
theorem bytesFor_fst (h : Cached r segments used) (seq : UInt32) :
    (r.bytesFor seq).1 = served segments used seq := by
  unfold ChunkReader.bytesFor served
  rw [h.length_eq, h.segments_eq]
  by_cases hlen : segments.length ≤ seq.toNat
  · rw [if_pos hlen, if_pos hlen]
  · rw [if_neg hlen, if_neg hlen]
    have hlt := Nat.lt_of_not_le hlen
    dsimp only
    by_cases hmem : seq ∈ used
    · rw [h.cache_of_mem hlt hmem]
      by_cases hempty : segments.getD seq.toNat [] = []
      · -- An empty file is loaded again, and rejected again.
        have hinvalid : headerValid [] = false := rfl
        rw [hempty]
        simp [hinvalid]
      · have hfull : (!(segments.getD seq.toNat []).isEmpty) = true := by simpa using hempty
        rw [if_pos hfull, if_pos (Or.inr ⟨hmem, hempty⟩)]
    · rw [h.cache_of_not_mem hlt hmem]
      have hfresh : ¬ (seq ∈ used ∧ segments.getD seq.toNat [] ≠ []) := fun hused ↦ hmem hused.1
      simp only [List.isEmpty_nil, Bool.not_true, Bool.false_eq_true, ↓reduceIte, hfresh, or_false]
      split <;> rfl

/-- `bytes_for` leaves the segment in the cache, whatever it answers. -/
theorem bytesFor_snd (h : Cached r segments used) (seq : UInt32) :
    Cached (r.bytesFor seq).2 segments (used ++ [seq]) := by
  -- It is enough that the slot of `seq` has its segment now, and the others are as before.
  have hgrow : ∀ r' : ChunkReader, r'.segments = segments →
      r'.segmentBytesCache.length = segments.length →
      (∀ i < segments.length, r'.segmentBytesCache.getD i [] =
        if i = seq.toNat then segments.getD i [] else r.segmentBytesCache.getD i []) →
      Cached r' segments (used ++ [seq]) := by
    intro r' hsegments hlength hcache
    apply Cached.mk hsegments hlength
    intro i hi
    rw [hcache i hi, h.cache_eq i hi]
    by_cases heq : i = seq.toNat
    · rw [if_pos heq, if_pos ⟨seq, by simp, heq.symm⟩]
    · rw [if_neg heq]
      simp [Ne.symm heq, or_and_right, exists_or]
  unfold ChunkReader.bytesFor
  rw [h.length_eq, h.segments_eq]
  by_cases hlen : segments.length ≤ seq.toNat
  · rw [if_pos hlen]
    apply hgrow r h.segments_eq h.length_eq
    intro i hi
    rw [if_neg (by omega)]
  · rw [if_neg hlen]
    dsimp only
    split
    · rename_i hfull
      apply hgrow r h.segments_eq h.length_eq
      intro i hi
      by_cases heq : i = seq.toNat
      · -- A segment with bytes in the cache was used before.
        have hmem : seq ∈ used := by
          by_contra hmem
          rw [h.cache_of_not_mem (by omega) hmem] at hfull
          cases hfull
        rw [if_pos heq, heq, h.cache_of_mem (by omega) hmem]
      · rw [if_neg heq]
    · have hset : Cached
          { segments := segments
            segmentBytesCache := r.segmentBytesCache.set seq.toNat (segments.getD seq.toNat []) }
          segments (used ++ [seq]) := by
        apply hgrow _ rfl (by simp [h.length_eq])
        intro i hi
        have hlt : i < r.segmentBytesCache.length := by
          rw [h.length_eq]
          exact hi
        by_cases heq : i = seq.toNat
        · subst heq
          simp [hlt]
        · simp [heq, Ne.symm heq]
      split
      · exact hset
      · exact hset

theorem perform (h : Cached r segments used) (c : ChunkCall) :
    (c.perform r).1 = c.resultOn (served segments used c.seq) ∧
      Cached (c.perform r).2 segments (used ++ [c.seq]) := by
  rw [c.perform_eq]
  exact ⟨by rw [h.bytesFor_fst], h.bytesFor_snd c.seq⟩

theorem afterCalls (h : Cached r segments used) (calls : List ChunkCall) :
    Cached (afterCalls r calls) segments (used ++ calls.map ChunkCall.seq) := by
  induction calls generalizing r used with
  | nil =>
    rw [List.map_nil, List.append_nil]
    exact h
  | cons c calls ih =>
    have hrest := ih (h.perform c).2
    rw [List.append_assoc] at hrest
    exact hrest

end Cached

/-! ## Calls that do not see each other -/

/-- The header of the segment is valid, or there are no bytes to give out without it. -/
def SafeToServe (bytes : Bytes) : Prop := bytes = [] ∨ headerValid bytes = true

instance (bytes : Bytes) : Decidable (SafeToServe bytes) :=
  inferInstanceAs (Decidable (_ ∨ _))

/-- Every segment that is used twice is safe. -/
def SafeReuse (segments : List Bytes) (calls : List ChunkCall) : Prop :=
  calls.Pairwise fun c c' ↦ c.seq = c'.seq → SafeToServe (segments.getD c'.seq.toNat [])

instance (segments : List Bytes) (calls : List ChunkCall) : Decidable (SafeReuse segments calls) :=
  inferInstanceAs (Decidable (List.Pairwise _ _))

/-- A safe segment is served alike every time. -/
theorem served_eq {segments : List Bytes} {used : List UInt32} {seq : UInt32}
    (h : seq ∈ used → SafeToServe (segments.getD seq.toNat [])) :
    served segments used seq = served segments [] seq := by
  have hsame : (headerValid (segments.getD seq.toNat []) = true ∨
        (seq ∈ used ∧ segments.getD seq.toNat [] ≠ [])) ↔
      headerValid (segments.getD seq.toNat []) = true ∨
        (seq ∈ ([] : List UInt32) ∧ segments.getD seq.toNat [] ≠ []) := by
    constructor
    · rintro (hvalid | ⟨hmem, hne⟩)
      · exact Or.inl hvalid
      · exact Or.inl ((h hmem).resolve_left hne)
    · rintro (hvalid | ⟨hmem, -⟩)
      · exact Or.inl hvalid
      · cases hmem
  unfold served
  simp only [hsame]

theorem runChunkCalls_eq {r : ChunkReader} {segments : List Bytes} {used : List UInt32}
    (h : Cached r segments used) {calls : List ChunkCall}
    (hused : ∀ c ∈ calls, c.seq ∈ used → SafeToServe (segments.getD c.seq.toNat []))
    (hcalls : SafeReuse segments calls) :
    runChunkCalls r calls = calls.map fun c ↦ c.resultOn (served segments [] c.seq) := by
  induction calls generalizing r used with
  | nil => rfl
  | cons c calls ih =>
    obtain ⟨hfst, hsnd⟩ := h.perform c
    obtain ⟨hc, hrest⟩ := List.pairwise_cons.mp hcalls
    rw [runChunkCalls, List.map_cons, hfst, served_eq (hused c List.mem_cons_self)]
    congr 1
    apply ih hsnd _ hrest
    intro c' hc' hmem
    rcases List.mem_append.mp hmem with hmem | hmem
    · exact hused c' (List.mem_cons_of_mem _ hc') hmem
    · exact hc c' hc' (List.mem_singleton.mp hmem).symm

/-- On such calls a reader answers each as a fresh reader would. -/
theorem runChunkCalls_ofSegments {segments : List Bytes} {calls : List ChunkCall}
    (h : SafeReuse segments calls) :
    runChunkCalls (ChunkReader.ofSegments segments) calls =
      calls.map fun c ↦ (c.perform (ChunkReader.ofSegments segments)).1 := by
  rw [runChunkCalls_eq (cached_ofSegments segments) (by simp) h]
  apply List.map_congr_left
  intro c _
  rw [((cached_ofSegments segments).perform c).1]

/-- A segment with a header and a chunk, read twice, and one that is no segment, read once. -/
theorem runChunkCalls_valid_twice :
    let segments := [segmentHeader ++ frame ⟨.xor, [0, 0]⟩, [0]]
    let calls := [ChunkCall.read ⟨0, 8⟩, .iterate 1 9, .read ⟨0, 8⟩]
    SafeReuse segments calls ∧
      runChunkCalls (ChunkReader.ofSegments segments) calls =
        calls.map fun c ↦ (c.perform (ChunkReader.ofSegments segments)).1 :=
  ⟨by decide, runChunkCalls_ofSegments (by decide)⟩

/-- A file of one byte is rejected by the first call and read as a segment by the second. -/
theorem runChunkCalls_short_twice :
    let calls := [ChunkCall.iterate 0 1, .iterate 0 1]
    runChunkCalls (ChunkReader.ofSegments [[0]]) calls =
        [.iterate (some (.error (.error .illegalByteSequence))), .iterate (some (.ok []))] ∧
      runChunkCalls (ChunkReader.ofSegments [[0]]) calls ≠
        calls.map fun c ↦ (c.perform (ChunkReader.ofSegments [[0]])).1 := by
  decide

end MerlionTsdb.Block
