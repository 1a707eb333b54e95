import MerlionTsdb.Block.ChunkCache
import MerlionTsdb.Encoding.Prefixed
import Mathlib.Data.Finset.Card
import Mathlib.Logic.Relation

/-!
# Records with lengths near 2^64

The length of a record is a 64-bit number that no checksum covers, and `end_off` is computed from it
in `size_t`.  A length that wraps `end_off` around passes the bounds check, and `read` then slices
outside the segment, while `iterate_segment` may jump back and never end.
-/

namespace MerlionTsdb.Block

open Encoding Relation

/-! ## Record ends -/

/-- The length prefix at `offset`: the length, and the size of the prefix. -/
def lengthAt (bytes : Bytes) (offset : Nat) : Option (Nat × Nat) :=
  match Varint.readUvarint (bytes.drop offset) with
  | .ok (len, n) => some (len.toNat, n)
  | .error _ => none

/-- Where the record of a prefix of `n` bytes at `offset` ends, when nothing wraps. -/
def recordEnd (offset len n : Nat) : Nat :=
  offset + n + kChunkEncodingSize + len + kChunkCrcSize

theorem lengthAt_iff {bytes : Bytes} {offset len n : Nat} :
    lengthAt bytes offset = some (len, n) ↔
      ∃ v : UInt64, UvarintAt bytes offset v (offset + n) ∧ v.toNat = len := by
  unfold lengthAt UvarintAt
  rcases Varint.readUvarint (bytes.drop offset) with e | ⟨v, m⟩
  · apply iff_of_false
    · intro h
      cases h
    · rintro ⟨v, ⟨n', hread, -⟩, -⟩
      cases hread
  · dsimp only
    rw [Option.some_inj, Prod.mk.injEq]
    constructor
    · rintro ⟨rfl, rfl⟩
      exact ⟨v, ⟨m, rfl, rfl⟩, rfl⟩
    · rintro ⟨v', ⟨n', hread, hn⟩, hlen⟩
      cases hread
      exact ⟨hlen, (Nat.add_left_cancel hn).symm⟩

theorem lengthAt_bounds {bytes : Bytes} {offset len n : Nat}
    (h : lengthAt bytes offset = some (len, n)) :
    len < 2 ^ 64 ∧ 0 < n ∧ offset + n ≤ bytes.length := by
  obtain ⟨v, hat, rfl⟩ := lengthAt_iff.mp h
  have hbounds := hat.bounds
  exact ⟨v.toNat_lt, by omega, hbounds.2⟩

/-- There is one prefix at an offset. -/
theorem exists_lengthAt_iff {bytes : Bytes} {offset len n : Nat} {p : Nat → Nat → Prop}
    (hlen : lengthAt bytes offset = some (len, n)) :
    (∃ len' n', lengthAt bytes offset = some (len', n') ∧ p len' n') ↔ p len n := by
  constructor
  · rintro ⟨len', n', hlen', h⟩
    rw [hlen, Option.some_inj, Prod.mk.injEq] at hlen'
    obtain ⟨rfl, rfl⟩ := hlen'
    exact h
  · exact fun h ↦ ⟨_, _, hlen, h⟩

/-- The prefix as the readers see it. -/
theorem readUv_of_lengthAt {bytes : Bytes} {offset len n : Nat}
    (h : lengthAt bytes offset = some (len, n)) :
    ∃ v : UInt64, v.toNat = len ∧ readUv bytes offset = .ok (v, n) := by
  obtain ⟨v, hat, hlen⟩ := lengthAt_iff.mp h
  exact ⟨v, hlen, hat.readUv⟩

theorem readUv_of_lengthAt_none {bytes : Bytes} {offset : Nat} (hle : offset ≤ bytes.length)
    (h : lengthAt bytes offset = none) :
    readUv bytes offset = .error (.error .illegalByteSequence) := by
  rcases readUv_cases hle with ⟨v, n, hat, -⟩ | ⟨-, hread⟩
  · have hsome := lengthAt_iff.mpr ⟨v, hat, rfl⟩
    rw [h] at hsome
    cases hsome
  · exact hread

theorem addSize_recordEnd (offset len n : Nat) :
    addSize (addSize (addSize (addSize offset n) kChunkEncodingSize) len) kChunkCrcSize =
      recordEnd offset len n % 2 ^ 64 := by
  simp only [addSize, recordEnd, kChunkEncodingSize, kChunkCrcSize]
  omega

/-! ## One record -/

/-- The record at `offset` seems to end inside the segment because its end wraps around.  A length
of `std::dynamic_extent` is left out: the slice is then the rest of the segment. -/
def Slips (bytes : Bytes) (offset : Nat) : Prop :=
  ∃ len n, lengthAt bytes offset = some (len, n) ∧ len ≠ kDynamicExtent ∧
    2 ^ 64 ≤ recordEnd offset len n ∧ recordEnd offset len n % 2 ^ 64 ≤ bytes.length

/-- With the prefix known, only the end decides. -/
theorem slips_iff {bytes : Bytes} {offset len n : Nat} (hlen : lengthAt bytes offset = some (len, n)) :
    Slips bytes offset ↔ len ≠ kDynamicExtent ∧
      2 ^ 64 ≤ recordEnd offset len n ∧ recordEnd offset len n % 2 ^ 64 ≤ bytes.length :=
  exists_lengthAt_iff hlen

/-- A record is read inside its segment, unless its end wraps around. -/
theorem defined_readRecord {bytes : Bytes} (hsize : bytes.length ≤ kMaxSize) (offset : Nat) :
    Defined (readRecord bytes offset) ↔ ¬ Slips bytes offset := by
  have hmax : kMaxSize = 2 ^ 63 - 1 := rfl
  have henc : kChunkEncodingSize = 1 := rfl
  have hcrc : kChunkCrcSize = 4 := rfl
  have hextent : kDynamicExtent = 2 ^ 64 - 1 := rfl
  unfold readRecord
  split
  · rename_i hout
    apply iff_of_true (by simp [Defined])
    rintro ⟨len, n, hlen, -⟩
    have hbounds := lengthAt_bounds hlen
    omega
  rename_i hin
  cases hlen : lengthAt bytes offset with
  | none =>
    rw [readUv_of_lengthAt_none (by omega) hlen]
    apply iff_of_true (by simp [Defined])
    rintro ⟨len, n, hlen', -⟩
    rw [hlen] at hlen'
    cases hlen'
  | some found =>
    obtain ⟨len, n⟩ := found
    obtain ⟨hlt, hpos, hlead⟩ := lengthAt_bounds hlen
    obtain ⟨v, rfl, hread⟩ := readUv_of_lengthAt hlen
    have hencOff : addSize offset n = offset + n := addSize_of_lt (by omega)
    have hdataOff : addSize (addSize offset n) kChunkEncodingSize = offset + n + 1 := by
      rw [hencOff, henc, addSize_of_lt (by omega)]
    rw [hread, slips_iff hlen]
    dsimp only
    rw [addSize_recordEnd, hdataOff, hencOff]
    unfold recordEnd
    rw [henc, hcrc]
    split
    · rename_i hbeyond
      apply iff_of_true (by simp [Defined])
      omega
    rename_i hend
    by_cases hwrap : 2 ^ 64 ≤ offset + n + 1 + v.toNat + 4
    · by_cases hrest : v.toNat = kDynamicExtent
      · -- The end wraps to the byte behind the prefix: everything is in the segment.
        have hcrcOff : addSize (offset + n + 1) v.toNat = offset + n := by
          unfold addSize
          omega
        have hdata : subspan bytes (offset + n + 1) v.toNat = .ok (bytes.drop (offset + n + 1)) := by
          unfold subspan
          rw [if_pos hrest, subspanFrom_of_le (by omega)]
        apply iff_of_true
        · rw [hcrcOff, hdata, elementAt_of_lt (by omega), subspan_of_le (by omega) (by omega)]
          dsimp only
          split <;> simp [Defined]
        · exact fun h ↦ h.1 hrest
      · -- The end wraps into the segment, and the slice of the payload is outside it.
        have hdata : subspan bytes (offset + n + 1) v.toNat = .error .overrun := by
          unfold subspan
          rw [if_neg hrest, if_neg (by omega)]
        apply iff_of_false
        · rw [hdata]
          by_cases henc : offset + n < bytes.length
          · rw [elementAt_of_lt henc]
            simp [Defined]
          · rw [elementAt_of_le (Nat.le_of_not_lt henc)]
            simp [Defined]
        · exact fun h ↦ h ⟨hrest, hwrap, by omega⟩
    · -- Nothing wraps, so the check on the end covers every slice.
      have hcrcOff : addSize (offset + n + 1) v.toNat = offset + n + 1 + v.toNat :=
        addSize_of_lt (by omega)
      apply iff_of_true
      · rw [hcrcOff, elementAt_of_lt (by omega), subspan_of_le (by omega) (by omega),
          subspan_of_le (by omega) (by omega)]
        dsimp only
        split <;> simp [Defined]
      · exact fun h ↦ hwrap h.2.1

/-! ## Record after record -/

/-- The loop goes on from the record at `offset` to `next`. -/
def Skips (bytes : Bytes) (offset next : Nat) : Prop :=
  ∃ len n, lengthAt bytes offset = some (len, n) ∧ next = recordEnd offset len n % 2 ^ 64 ∧
    next ≤ bytes.length ∧ offset + n < bytes.length

/-- The prefix ends the segment, and the end of its record wraps around into the segment. -/
def Overruns (bytes : Bytes) (offset : Nat) : Prop :=
  ∃ len n, lengthAt bytes offset = some (len, n) ∧ offset + n = bytes.length ∧
    recordEnd offset len n % 2 ^ 64 ≤ bytes.length

/-- No record on the way from the header leads back to where the loop was before, and none overruns
the segment. -/
def WalkSafe (bytes : Bytes) : Prop :=
  ∀ offset, ReflTransGen (Skips bytes) kChunksSegmentHeaderSize offset →
    ¬ Overruns bytes offset ∧ ¬ TransGen (Skips bytes) offset offset

/-- The loop ends within the fuel, and never leaves the segment. -/
def Returns (seq : UInt32) (bytes : Bytes) (fuel offset : Nat) : Prop :=
  ∃ r, iterateLoop seq bytes fuel offset = some r ∧ Defined r

/-- A round that goes on. -/
theorem returns_skip {bytes : Bytes} {offset next : Nat} (hskip : Skips bytes offset next)
    (hsize : bytes.length ≤ kMaxSize) (seq : UInt32) (fuel : Nat) :
    Returns seq bytes (fuel + 1) offset ↔ Returns seq bytes fuel next := by
  have hmax : kMaxSize = 2 ^ 63 - 1 := rfl
  obtain ⟨len, n, hlen, rfl, hnext, hlead⟩ := hskip
  obtain ⟨v, rfl, hread⟩ := readUv_of_lengthAt hlen
  unfold Returns
  rw [iterateLoop, if_neg (by omega), hread]
  dsimp only
  rw [addSize_recordEnd, if_neg (by omega), addSize_of_lt (by omega),
    elementAt_of_lt hlead]
  dsimp only
  generalize iterateLoop seq bytes fuel (recordEnd offset v.toNat n % 2 ^ 64) = later
  rcases later with _ | _ | infos <;> simp [Defined]

theorem overruns_iff {bytes : Bytes} {offset len n : Nat}
    (hlen : lengthAt bytes offset = some (len, n)) :
    Overruns bytes offset ↔
      offset + n = bytes.length ∧ recordEnd offset len n % 2 ^ 64 ≤ bytes.length :=
  exists_lengthAt_iff hlen

/-- A round that does not go on ends the loop. -/
theorem returns_stop {bytes : Bytes} {offset : Nat} (hstop : ∀ next, ¬ Skips bytes offset next)
    (hsize : bytes.length ≤ kMaxSize) (seq : UInt32) (fuel : Nat) :
    Returns seq bytes (fuel + 1) offset ↔ ¬ Overruns bytes offset := by
  have hmax : kMaxSize = 2 ^ 63 - 1 := rfl
  unfold Returns
  rw [iterateLoop]
  cases hlen : lengthAt bytes offset with
  | none =>
    apply iff_of_true
    · split
      · simp [Defined]
      · rw [readUv_of_lengthAt_none (by omega) hlen]
        simp [Defined]
    · rintro ⟨len, n, hlen', -⟩
      rw [hlen] at hlen'
      cases hlen'
  | some found =>
    obtain ⟨len, n⟩ := found
    obtain ⟨-, hpos, hlead⟩ := lengthAt_bounds hlen
    obtain ⟨v, rfl, hread⟩ := readUv_of_lengthAt hlen
    rw [if_neg (by omega), hread, overruns_iff hlen]
    dsimp only
    rw [addSize_recordEnd]
    by_cases hend : bytes.length < recordEnd offset v.toNat n % 2 ^ 64
    · -- The record ends behind the segment, and the loop reports it.
      rw [if_pos hend]
      exact iff_of_true (by simp [Defined]) (by omega)
    · -- The loop would go on, were there a byte behind the prefix.
      have hlast : offset + n = bytes.length := by
        by_contra hne
        exact hstop _ ⟨_, _, hlen, rfl, by omega, by omega⟩
      rw [if_neg hend, addSize_of_lt (by omega), elementAt_of_le (by omega)]
      apply iff_of_false (by simp [Defined])
      exact fun h ↦ h ⟨hlast, by omega⟩

open Classical in
/-- The offsets still ahead of `offset`. -/
noncomputable def ahead (bytes : Bytes) (offset : Nat) : Finset Nat :=
  (Finset.range (bytes.length + 1)).filter (TransGen (Skips bytes) offset)

theorem mem_ahead {bytes : Bytes} {offset next : Nat} :
    next ∈ ahead bytes offset ↔ TransGen (Skips bytes) offset next := by
  simp only [ahead, Finset.mem_filter, Finset.mem_range, and_iff_right_iff_imp]
  intro h
  -- The last skip checked its end against the segment.
  cases h with
  | single h =>
    obtain ⟨len, n, -, -, hle, -⟩ := h
    omega
  | tail _ h =>
    obtain ⟨len, n, -, -, hle, -⟩ := h
    omega

/-- On a safe walk every round leaves fewer offsets ahead. -/
theorem returns_of_walkSafe {bytes : Bytes} (hsafe : WalkSafe bytes)
    (hsize : bytes.length ≤ kMaxSize) (seq : UInt32) {offset : Nat}
    (hreach : ReflTransGen (Skips bytes) kChunksSegmentHeaderSize offset) :
    ∃ fuel, Returns seq bytes fuel offset := by
  induction hcard : (ahead bytes offset).card using Nat.strong_induction_on generalizing offset with
  | h card ih =>
    by_cases hskip : ∃ next, Skips bytes offset next
    · obtain ⟨next, hskip⟩ := hskip
      have hreach' := hreach.tail hskip
      have hfewer : (ahead bytes next).card < card := by
        rw [← hcard]
        apply Finset.card_lt_card
        constructor
        · intro later hlater
          rw [mem_ahead] at hlater ⊢
          exact TransGen.head hskip hlater
        · -- `next` itself is ahead of `offset`, and no longer ahead of `next`.
          intro hsub
          have hnext := hsub (mem_ahead.mpr (TransGen.single hskip))
          exact (hsafe next hreach').2 (mem_ahead.mp hnext)
      obtain ⟨fuel, hfuel⟩ := ih _ hfewer hreach' rfl
      exact ⟨fuel + 1, (returns_skip hskip hsize seq fuel).mpr hfuel⟩
    · have hstop := not_exists.mp hskip
      exact ⟨1, (returns_stop hstop hsize seq 0).mpr (hsafe offset hreach).1⟩

/-- Each skip takes a unit of the fuel. -/
theorem returns_later {bytes : Bytes} (hsize : bytes.length ≤ kMaxSize) {seq : UInt32}
    {offset next fuel : Nat} (h : TransGen (Skips bytes) offset next)
    (hreturns : Returns seq bytes fuel offset) : ∃ fuel' < fuel, Returns seq bytes fuel' next := by
  have hstep : ∀ {offset next fuel}, Skips bytes offset next → Returns seq bytes fuel offset →
      ∃ fuel' < fuel, Returns seq bytes fuel' next := by
    intro offset next fuel hskip hreturns
    cases fuel with
    | zero =>
      obtain ⟨r, hr, -⟩ := hreturns
      cases hr
    | succ fuel => exact ⟨fuel, Nat.lt_succ_self fuel, (returns_skip hskip hsize seq fuel).mp hreturns⟩
  induction h with
  | single hskip => exact hstep hskip hreturns
  | tail _ hskip ih =>
    obtain ⟨fuel₁, hlt₁, h₁⟩ := ih
    obtain ⟨fuel₂, hlt₂, h₂⟩ := hstep hskip h₁
    exact ⟨fuel₂, hlt₂.trans hlt₁, h₂⟩

/-- The loop over the records ends inside the segment exactly on a safe walk. -/
theorem exists_returns_iff {bytes : Bytes} (hsize : bytes.length ≤ kMaxSize) (seq : UInt32) :
    (∃ fuel, Returns seq bytes fuel kChunksSegmentHeaderSize) ↔ WalkSafe bytes := by
  constructor
  · rintro ⟨fuel, hfuel⟩ offset hreach
    obtain ⟨fuel', hfuel'⟩ : ∃ fuel', Returns seq bytes fuel' offset := by
      rcases reflTransGen_iff_eq_or_transGen.mp hreach with rfl | htrans
      · exact ⟨fuel, hfuel⟩
      · obtain ⟨fuel', -, hfuel'⟩ := returns_later hsize htrans hfuel
        exact ⟨fuel', hfuel'⟩
    constructor
    · intro hover
      have hstop : ∀ next, ¬ Skips bytes offset next := by
        rintro next ⟨len, n, hlen, -, -, hlead⟩
        obtain ⟨len', n', hlen', hlast, -⟩ := hover
        rw [hlen, Option.some_inj, Prod.mk.injEq] at hlen'
        omega
      cases fuel' with
      | zero =>
        obtain ⟨r, hr, -⟩ := hfuel'
        cases hr
      | succ fuel' => exact (returns_stop hstop hsize seq fuel').mp hfuel' hover
    · intro hcycle
      -- Around the cycle there would always be less fuel that is enough.
      induction fuel' using Nat.strong_induction_on with
      | h fuel' ih =>
        obtain ⟨fuel'', hlt, hfuel''⟩ := returns_later hsize hcycle hfuel'
        exact ih fuel'' hlt hfuel''
  · intro hsafe
    exact returns_of_walkSafe hsafe hsize seq .refl

/-! ## Calls on a reader -/

/-- The bytes a call on `seq` gets after the calls of `history`: those of a segment with a valid
header, or of one that is in the cache. -/
def InUse (segments : List Str) (history : List ChunkCall) (seq : UInt32) (bytes : Bytes) : Prop :=
  (∃ s, segments[seq.toNat]? = some s ∧ s.bytes = bytes) ∧
    (headerValid bytes = true ∨ seq ∈ history.map ChunkCall.seq)

/-- `bytes_for` answers with an error, or with the bytes in use. -/
theorem served_cases (segments : List Str) (history : List ChunkCall) (seq : UInt32) :
    (∃ bytes, served (segments.map Str.bytes) (history.map ChunkCall.seq) seq = .ok bytes ∧
        InUse segments history seq bytes) ∨
      ((∃ e, served (segments.map Str.bytes) (history.map ChunkCall.seq) seq = .error (.error e)) ∧
        ∀ bytes, InUse segments history seq bytes → bytes = []) := by
  unfold served
  rw [List.length_map]
  by_cases hlen : segments.length ≤ seq.toNat
  · rw [if_pos hlen]
    right
    refine ⟨⟨_, rfl⟩, ?_⟩
    rintro bytes ⟨⟨s, hs, -⟩, -⟩
    rw [List.getElem?_eq_none hlen] at hs
    cases hs
  · rw [if_neg hlen]
    have hlt := Nat.lt_of_not_le hlen
    have hbytes : (segments.map Str.bytes).getD seq.toNat [] = (segments[seq.toNat]).bytes := by
      simp [hlt]
    dsimp only
    rw [hbytes]
    split
    · -- Loaded before, or its header is good.
      rename_i hgood
      left
      refine ⟨_, rfl, ⟨_, List.getElem?_eq_getElem hlt, rfl⟩, ?_⟩
      exact hgood.imp_right And.left
    · rename_i hbad
      right
      refine ⟨⟨_, rfl⟩, ?_⟩
      rintro bytes ⟨⟨s, hs, rfl⟩, huse⟩
      rw [List.getElem?_eq_getElem hlt, Option.some_inj] at hs
      subst hs
      by_contra hne
      exact hbad (huse.imp_right fun hmem ↦ ⟨hmem, hne⟩)

theorem not_slips_nil (offset : Nat) : ¬ Slips [] offset := by
  rintro ⟨len, n, hlen, -⟩
  have hbounds := lengthAt_bounds hlen
  simp only [List.length_nil] at hbounds
  omega

theorem walkSafe_nil : WalkSafe [] := by
  have hnone : ∀ offset, lengthAt [] offset = none := by
    intro offset
    unfold lengthAt
    rw [List.drop_nil]
    rfl
  intro offset _
  constructor
  · rintro ⟨len, n, hlen, -⟩
    rw [hnone] at hlen
    cases hlen
  · intro hcycle
    obtain ⟨next, ⟨len, n, hlen, -⟩, -⟩ := TransGen.head'_iff.mp hcycle
    rw [hnone] at hlen
    cases hlen

/-- After any calls, `read` stays inside its segment unless the length at its offset wraps around,
and `iterate_segment` ends inside it unless a length on its way leads back or overruns the end. -/
theorem reads_defined_iff (segments : List Str) (history : List ChunkCall) (ref : BlockChunkRef)
    (seq : UInt32) :
    let r := afterCalls (ChunkReader.ofSegments (segments.map Str.bytes)) history
    (Defined (r.read ref).1 ↔
        ∀ bytes, InUse segments history ref.seq bytes → ¬ Slips bytes ref.offset.toNat) ∧
      ((∃ fuel result, (r.iterateSegment seq fuel).1 = some result ∧ Defined result) ↔
        ∀ bytes, InUse segments history seq bytes → WalkSafe bytes) := by
  have hcached := (cached_ofSegments (segments.map Str.bytes)).afterCalls history
  rw [List.nil_append] at hcached
  -- The files do not change, so a segment has one content.
  have hsame : ∀ {seq bytes bytes'}, InUse segments history seq bytes →
      InUse segments history seq bytes' → bytes = bytes' := by
    rintro seq bytes bytes' ⟨⟨s, hs, rfl⟩, -⟩ ⟨⟨s', hs', rfl⟩, -⟩
    rw [hs, Option.some_inj] at hs'
    rw [hs']
  have hsize : ∀ {seq bytes}, InUse segments history seq bytes → bytes.length ≤ kMaxSize := by
    rintro seq bytes ⟨⟨s, -, rfl⟩, -⟩
    exact s.length_le
  constructor
  · have hresult := (hcached.perform (.read ref)).1
    simp only [ChunkCall.perform, ChunkCall.resultOn, ChunkCall.seq, ChunkResult.read.injEq] at hresult
    rw [hresult]
    rcases served_cases segments history ref.seq with ⟨bytes, hserved, huse⟩ | ⟨⟨e, hserved⟩, hnil⟩
    · rw [hserved]
      refine (defined_readRecord (hsize huse) ref.offset.toNat).trans ?_
      exact ⟨fun h bytes' huse' ↦ hsame huse huse' ▸ h, fun h ↦ h bytes huse⟩
    · -- A reader without the segment reports that, and the cached bytes are none.
      rw [hserved]
      apply iff_of_true (by simp [Defined, bind, Except.bind])
      intro bytes huse
      rw [hnil bytes huse]
      exact not_slips_nil _
  · -- The walk in the same way, over the same cached bytes.
    have hperform := fun fuel ↦ (hcached.perform (.iterate seq fuel)).1
    simp only [ChunkCall.perform, ChunkCall.resultOn, ChunkCall.seq] at hperform
    rcases served_cases segments history seq with ⟨bytes, hserved, huse⟩ | ⟨⟨e, hserved⟩, hnil⟩
    · simp only [hserved, ChunkResult.iterate.injEq] at hperform
      simp only [hperform]
      refine (exists_returns_iff (hsize huse) seq).trans ?_
      exact ⟨fun h bytes' huse' ↦ hsame huse huse' ▸ h, fun h ↦ h bytes huse⟩
    · simp only [hserved, ChunkResult.iterate.injEq] at hperform
      simp only [hperform]
      apply iff_of_true ⟨0, _, rfl, by simp [Defined]⟩
      intro bytes huse
      rw [hnil bytes huse]
      exact walkSafe_nil

/-- A valid header and one record, whose length is 15 below 2^64. -/
def loopingSegment : Bytes :=
  segmentHeader ++ Varint.putUvarint (UInt64.ofNat (2 ^ 64 - 15)) ++ [1]

/-- The record ends where it starts: reading it overruns the segment, and skipping it never ends. -/
theorem reads_loopingSegment :
    let r := ChunkReader.ofSegments [loopingSegment]
    (r.read ⟨0, 8⟩).1 = .error .overrun ∧ ∀ fuel, (r.iterateSegment 0 fuel).1 = none := by
  have hread : (readRecord loopingSegment 8) = .error .overrun := by decide
  have huv : readUv loopingSegment 8 = .ok (UInt64.ofNat (2 ^ 64 - 15), 10) := by decide
  have henc : elementAt loopingSegment 18 = .ok 1 := by decide
  have hbytes : ((ChunkReader.ofSegments [loopingSegment]).bytesFor 0).1 = .ok loopingSegment := by
    decide
  have hloop : ∀ fuel, iterateLoop 0 loopingSegment fuel 8 = none := by
    intro fuel
    induction fuel with
    | zero => rfl
    | succ fuel ih =>
      rw [iterateLoop, if_neg (by decide), huv]
      dsimp only
      rw [if_neg (by decide), show addSize 8 10 = 18 from rfl, henc]
      dsimp only
      -- The next round starts at offset 8 again.
      have hnext : addSize (addSize (addSize 18 kChunkEncodingSize)
          (UInt64.ofNat (2 ^ 64 - 15)).toNat) kChunkCrcSize = 8 := by decide
      rw [hnext, ih]
      rfl
  constructor
  · unfold ChunkReader.read
    rcases hserved : (ChunkReader.ofSegments [loopingSegment]).bytesFor 0 with ⟨bytes, r⟩
    rw [hserved] at hbytes
    dsimp only at hbytes
    rw [hbytes]
    exact hread
  · intro fuel
    unfold ChunkReader.iterateSegment
    rcases hserved : (ChunkReader.ofSegments [loopingSegment]).bytesFor 0 with ⟨bytes, r⟩
    rw [hserved] at hbytes
    dsimp only at hbytes
    rw [hbytes]
    exact hloop fuel

end MerlionTsdb.Block
