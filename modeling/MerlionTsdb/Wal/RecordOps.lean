import MerlionTsdb.Lib.SignedRange
import MerlionTsdb.Wal.Record

/-!
# Signed arithmetic of sample records

The exact results of the signed additions and subtractions that the two codecs of sample records make.
A head logs no start timestamps, and its references are small, so only the timestamps count: each is
coded against the first one of its record.
-/

namespace MerlionTsdb.Wal.Record

/-! ## What is computed -/

/-- The subtraction of `write_st_marker`. -/
def writeStMarkerOps (st firstSt prevSt : Int64) : List Int :=
  if st = 0 then []
  else if st = prevSt then []
  else [st.toInt - firstSt.toInt]

def encodeSamplesRestOps (first prev : RefSample) : List RefSample → List Int
  | [] => []
  | s :: samples =>
    [s.ref.toInt64.toInt - prev.ref.toInt64.toInt, s.t.toInt - first.t.toInt] ++
      writeStMarkerOps s.st first.st prev.st ++ encodeSamplesRestOps first s samples

/-- The subtractions of `encode_samples_v2`. -/
def encodeSamplesV2Ops : List RefSample → List Int
  | [] => []
  | first :: samples => encodeSamplesRestOps first first samples

/-- The addition of an explicit start timestamp. -/
def readStOps (d : Decoder) (firstSt : Int64) : List Int :=
  let (marker, d) := d.readByte
  if d.err then []
  else if marker = kStNo then []
  else if marker = kStSame then []
  else if marker = kStExplicit then [firstSt.toInt + d.readVarint.1.toInt]
  else []

def readSampleHeadOps (d : Decoder) (prev : Option RefSample) (firstT firstSt : Int64) : List Int :=
  match prev with
  | none => []
  | some prev =>
    let (refDelta, d) := d.readVarint
    let (tDelta, d) := d.readVarint
    [prev.ref.toInt64.toInt + refDelta.toInt, firstT.toInt + tDelta.toInt] ++ readStOps d firstSt

def decodeSamplesLoopOps : Nat → Decoder → Option RefSample → Int64 → Int64 → List Int
  | 0, _, _, _, _ => []
  | fuel + 1, d, prev, firstT, firstSt =>
    if d.hasMore then
      readSampleHeadOps d prev firstT firstSt ++
        match readSampleHead d prev firstT firstSt with
        | .error _ => []
        | .ok (sample, d) =>
          let (v, d) := d.readBe64
          if d.err then []
          else
            let sample := { sample with v := v }
            let (firstT, firstSt) := if prev.isNone then (sample.t, sample.st) else (firstT, firstSt)
            decodeSamplesLoopOps fuel d (some sample) firstT firstSt
    else []

/-- The additions of `decode_samples_v2`. -/
def decodeSamplesV2Ops (record : Bytes) : List Int :=
  let (type, d) := ({ buf := record } : Decoder).readByte
  if type ≠ kSamplesV2 then []
  else if !d.hasMore then []
  else decodeSamplesLoopOps (record.length + 1) d none 0 0

/-! ## Samples of a head -/

/-- A reference below 2^63 and no start timestamp, as a head logs it. -/
structure RefSample.Plain (s : RefSample) : Prop where
  ref_nonneg : 0 ≤ s.ref.toInt64.toInt
  st_eq : s.st = 0

/-- Every timestamp is within 64 bits of the first. -/
def NearFirst (samples : List RefSample) : Prop :=
  ∀ first ∈ samples.head?, ∀ s ∈ samples, InInt64 (s.t.toInt - first.t.toInt)

instance (samples : List RefSample) : Decidable (NearFirst samples) :=
  inferInstanceAs (Decidable (∀ first ∈ samples.head?, ∀ s ∈ samples, _))

theorem RefSample.Plain.inInt64_sub {s prev : RefSample} (hs : s.Plain) (hprev : prev.Plain) :
    InInt64 (s.ref.toInt64.toInt - prev.ref.toInt64.toInt) := by
  have h := inInt64_toInt s.ref.toInt64
  have h' := inInt64_toInt prev.ref.toInt64
  have hnonneg := hs.ref_nonneg
  have hnonneg' := hprev.ref_nonneg
  unfold InInt64 at *
  omega

/-! ## The encoder -/

theorem allIn_encodeSamplesRest {first prev : RefSample} {samples : List RefSample}
    (hprev : prev.Plain) (hplain : ∀ s ∈ samples, s.Plain)
    (hnear : ∀ s ∈ samples, InInt64 (s.t.toInt - first.t.toInt)) :
    AllIn (encodeSamplesRestOps first prev samples) := by
  induction samples generalizing prev with
  | nil => exact allIn_nil
  | cons s samples ih =>
    have hs := hplain s List.mem_cons_self
    have hmarker : writeStMarkerOps s.st first.st prev.st = [] := by
      unfold writeStMarkerOps
      rw [if_pos hs.st_eq]
    have hrest := ih hs (fun s' hs' ↦ hplain s' (List.mem_cons_of_mem _ hs'))
      fun s' hs' ↦ hnear s' (List.mem_cons_of_mem _ hs')
    rw [encodeSamplesRestOps, hmarker]
    simp [hs.inInt64_sub hprev, hnear s List.mem_cons_self, hrest]

theorem allIn_encodeSamplesV2 {samples : List RefSample} (hplain : ∀ s ∈ samples, s.Plain)
    (hnear : NearFirst samples) : AllIn (encodeSamplesV2Ops samples) := by
  cases samples with
  | nil => exact allIn_nil
  | cons first samples =>
    apply allIn_encodeSamplesRest (hplain first List.mem_cons_self)
    · exact fun s hs ↦ hplain s (List.mem_cons_of_mem _ hs)
    · exact fun s hs ↦ hnear first rfl s (List.mem_cons_of_mem _ hs)

/-! ## The decoder -/

/-- The start timestamp of a sample without one. -/
theorem allIn_readSt {d d' : Decoder} {prevSt : Int64} (h : readSt d 0 prevSt = .ok (0, d')) :
    AllIn (readStOps d 0) := by
  unfold readSt at h
  unfold readStOps
  generalize d.readByte = read at h ⊢
  rcases read with ⟨marker, d₁⟩
  dsimp only at h ⊢
  split at h
  · cases h
  rename_i hgo
  rw [if_neg hgo]
  split
  · exact allIn_nil
  rename_i hno
  rw [if_neg hno] at h
  split
  · exact allIn_nil
  rename_i hsame
  rw [if_neg hsame] at h
  split
  · rename_i hexplicit
    rw [if_pos hexplicit] at h
    generalize d₁.readVarint = read at h ⊢
    rcases read with ⟨delta, d₂⟩
    -- The delta is added to the zero of the first sample, and gives zero.
    have hsum : (0 : Int64) + delta = 0 := congrArg (fun r ↦ r.1) (Except.ok.inj h)
    have hin := inInt64_add hsum (by decide)
    simpa using hin
  · exact allIn_nil

theorem allIn_readSampleHead {d d' : Decoder} {prev s : RefSample} {firstT : Int64}
    (h : readSampleHead d (some prev) firstT 0 = .ok (s, d')) (hprev : prev.Plain) (hs : s.Plain)
    (hnear : InInt64 (s.t.toInt - firstT.toInt)) :
    AllIn (readSampleHeadOps d (some prev) firstT 0) := by
  unfold readSampleHead at h
  unfold readSampleHeadOps
  dsimp only at h ⊢
  generalize d.readVarint = read at h ⊢
  rcases read with ⟨refDelta, d₁⟩
  generalize d₁.readVarint = read at h ⊢
  rcases read with ⟨tDelta, d₂⟩
  dsimp only at h ⊢
  rcases hst : readSt d₂ 0 prev.st with e | ⟨st, d₃⟩
  · rw [hst] at h
    cases h
  · rw [hst] at h
    cases h
    have hzero : st = 0 := hs.st_eq
    subst hzero
    have href : InInt64 (prev.ref.toInt64.toInt + refDelta.toInt) := by
      apply inInt64_add rfl
      have hsub := hs.inInt64_sub hprev
      dsimp only at hsub
      rwa [Int64.toInt64_toUInt64] at hsub
    have ht : InInt64 (firstT.toInt + tDelta.toInt) := inInt64_add rfl hnear
    simp [href, ht, allIn_readSt hst]

theorem allIn_decodeSamplesLoop {fuel : Nat} {d : Decoder} {prev : RefSample} {firstT : Int64}
    {samples : List RefSample} (h : decodeSamplesLoop fuel d (some prev) firstT 0 = .ok samples)
    (hprev : prev.Plain) (hplain : ∀ s ∈ samples, s.Plain)
    (hnear : ∀ s ∈ samples, InInt64 (s.t.toInt - firstT.toInt)) :
    AllIn (decodeSamplesLoopOps fuel d (some prev) firstT 0) := by
  induction fuel generalizing d prev samples with
  | zero => exact allIn_nil
  | succ fuel ih =>
    rw [decodeSamplesLoop] at h
    rw [decodeSamplesLoopOps]
    by_cases hmore : d.hasMore = true
    · rw [if_pos hmore] at h ⊢
      rcases hhead : readSampleHead d (some prev) firstT 0 with e | ⟨s, d₁⟩
      · rw [hhead] at h
        cases h
      rw [hhead] at h
      dsimp only at h ⊢
      -- The value takes no signed operation, only the head does.
      generalize d₁.readBe64 = read at h ⊢
      rcases read with ⟨v, d₂⟩
      dsimp only at h ⊢
      by_cases herr : d₂.err = true
      · rw [if_pos herr] at h
        cases h
      rw [if_neg herr] at h ⊢
      dsimp only [Option.isNone_some] at h ⊢
      rw [if_neg Bool.false_ne_true] at h ⊢
      dsimp only at h ⊢
      rcases hrest : decodeSamplesLoop fuel d₂ (some { s with v := v }) firstT 0 with e | rest
      · rw [hrest] at h
        cases h
      rw [hrest] at h
      cases h
      have hs : ({ s with v := v } : RefSample).Plain := hplain _ List.mem_cons_self
      have hnearS := hnear { s with v := v } List.mem_cons_self
      have hops := allIn_readSampleHead hhead hprev ⟨hs.ref_nonneg, hs.st_eq⟩ hnearS
      rw [allIn_append]
      exact ⟨hops, ih hrest hs (fun s' hs' ↦ hplain s' (List.mem_cons_of_mem _ hs'))
        fun s' hs' ↦ hnear s' (List.mem_cons_of_mem _ hs')⟩
    · rw [if_neg hmore]
      exact allIn_nil

/-- Decoding samples of a head whose timestamps are near the first. -/
theorem allIn_decodeSamplesV2 {record : Bytes} {samples : List RefSample}
    (h : decodeSamplesV2 record = .ok samples) (hplain : ∀ s ∈ samples, s.Plain)
    (hnear : NearFirst samples) : AllIn (decodeSamplesV2Ops record) := by
  unfold decodeSamplesV2 at h
  unfold decodeSamplesV2Ops
  generalize ({ buf := record } : Decoder).readByte = read at h ⊢
  rcases read with ⟨type, d⟩
  dsimp only at h ⊢
  split
  · exact allIn_nil
  rename_i htype
  rw [if_neg htype] at h
  split
  · exact allIn_nil
  rename_i hmore
  rw [if_neg hmore, decodeSamplesLoop] at h
  rw [decodeSamplesLoopOps]
  rw [Bool.not_eq_true', Bool.not_eq_false] at hmore
  rw [if_pos hmore] at h ⊢
  rcases hhead : readSampleHead d none 0 0 with e | ⟨s, d₁⟩
  · rw [hhead] at h
    cases h
  rw [hhead] at h
  dsimp only at h ⊢
  generalize d₁.readBe64 = read at h ⊢
  rcases read with ⟨v, d₂⟩
  dsimp only at h ⊢
  by_cases herr : d₂.err = true
  · rw [if_pos herr] at h
    cases h
  rw [if_neg herr] at h ⊢
  dsimp only [Option.isNone_none] at h ⊢
  rw [if_pos rfl] at h ⊢
  dsimp only at h ⊢
  rcases hrest : decodeSamplesLoop record.length d₂ (some { s with v := v }) s.t s.st with e | rest
  · rw [hrest] at h
    cases h
  rw [hrest] at h
  cases h
  have hs : ({ s with v := v } : RefSample).Plain := hplain _ List.mem_cons_self
  rcases s with ⟨ref, t, st, v₀⟩
  have hzero : st = 0 := hs.st_eq
  subst hzero
  exact allIn_decodeSamplesLoop hrest hs (fun s' hs' ↦ hplain s' (List.mem_cons_of_mem _ hs'))
    fun s' hs' ↦ hnear _ rfl s' (List.mem_cons_of_mem _ hs')

end MerlionTsdb.Wal.Record
