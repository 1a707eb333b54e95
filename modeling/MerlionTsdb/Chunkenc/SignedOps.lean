import MerlionTsdb.Chunkenc.XorRoundtrip
import MerlionTsdb.Lib.SignedRange

/-!
# Signed arithmetic of XOR chunks

The exact results of the signed additions and subtractions that the appender and the iterator make.  They
stay within 64 bits as long as each sample follows the one before it by less than 2^63.
-/

namespace MerlionTsdb.Chunkenc

open Encoding

/-! ## What is computed -/

/-- The subtraction `t - t_` of `append`, which the first sample does without. -/
def XORAppender.appendOps (a : XORAppender) (w : BitWriter) (t : Int64) : List Int :=
  let num := headerCount w.stream
  if num = kMaxSamples then []
  else
    match num with
    | 0 => []
    | _ => [t.toInt - a.t.toInt]

namespace XORIterator

/-- The signed additions of `next`, up to the read that fails. -/
def nextOps (it : XORIterator) : List Int :=
  if it.err.isSome || it.numRead = it.numTotal then []
  else if it.numRead = 0 then []
  else if it.numRead = 1 then
    match it.reader.readUvarint with
    | (.error _, _) => []
    | (.ok td, _) => [it.t.toInt + td.toInt64.toInt]
  else
    match readPrefix it.reader 0 4 with
    | (.error _, _) => []
    | (.ok p, r) =>
      match readDod r p with
      | (.error _, _) => []
      | (.ok dod, _) =>
        let tDelta := (it.tDelta.toInt64 + dod).toUInt64
        [it.tDelta.toInt64.toInt + dod.toInt, it.t.toInt + tDelta.toInt64.toInt]

/-- Those of the rounds of `drainLoop`. -/
def drainOps (it : XORIterator) : Nat → List Int
  | 0 => []
  | fuel + 1 =>
    it.nextOps ++
      match it.next with
      | (false, _) => []
      | (true, it) => drainOps it fuel

end XORIterator

/-- Those of a fresh iterator that is read to its end. -/
def XORChunk.readOps (c : XORChunk) : List Int :=
  c.iterator.drainOps (c.iterator.numTotal + 1)

/-- `y` comes less than 2^63 after `x`. -/
def Sample.Steps (x y : Sample) : Prop :=
  x.t ≤ y.t ∧ y.t.toInt - x.t.toInt < 2 ^ 63

instance (x y : Sample) : Decidable (x.Steps y) :=
  inferInstanceAs (Decidable (_ ∧ _))

theorem Sample.Steps.bounds {x y : Sample} (h : x.Steps y) :
    0 ≤ y.t.toInt - x.t.toInt ∧ y.t.toInt - x.t.toInt < 2 ^ 63 := by
  have hle := Int64.le_iff_toInt_le.mp h.1
  exact ⟨by omega, h.2⟩

theorem Sample.Steps.inInt64 {x y : Sample} (h : x.Steps y) : InInt64 (y.t.toInt - x.t.toInt) := by
  have hbounds := h.bounds
  unfold InInt64
  omega

/-! ## The iterator -/

namespace XORIterator

theorem readValue_ok {it it' : XORIterator} (h : it.readValue = (true, it')) :
    it'.numRead = it.numRead + 1 ∧ it'.t = it.t ∧ it'.tDelta = it.tDelta := by
  unfold readValue at h
  split at h
  · cases h
  · cases h
    exact ⟨rfl, rfl, rfl⟩

theorem readValue_error {it it' : XORIterator} (h : it.readValue = (false, it')) :
    it'.err ≠ none := by
  unfold readValue at h
  split at h
  · cases h
    exact Option.some_ne_none _
  · cases h

/-- What a sample adds to: nothing, the last time, or the last delta and then the last time. -/
theorem next_cases {it it' : XORIterator} (h : it.next = (true, it')) :
    it'.numRead = it.numRead + 1 ∧
      ((it.numRead = 0 ∧ it.nextOps = []) ∨
        (it.numRead = 1 ∧ it.t + it'.tDelta.toInt64 = it'.t ∧
          it.nextOps = [it.t.toInt + it'.tDelta.toInt64.toInt]) ∨
        (2 ≤ it.numRead ∧ it.t + it'.tDelta.toInt64 = it'.t ∧
          ∃ dod, it.tDelta.toInt64 + dod = it'.tDelta.toInt64 ∧
            it.nextOps =
              [it.tDelta.toInt64.toInt + dod.toInt, it.t.toInt + it'.tDelta.toInt64.toInt])) := by
  unfold next at h
  unfold nextOps
  split at h
  · cases h
  rename_i hgo
  rw [if_neg hgo]
  split at h
  · rename_i hzero
    -- The first sample holds its time, and nothing is added.
    rw [if_pos hzero]
    unfold nextFirst at h
    split at h
    · cases h
    split at h
    · cases h
    · cases h
      exact ⟨rfl, .inl ⟨hzero, rfl⟩⟩
  rename_i hzero
  rw [if_neg hzero]
  split at h
  · rename_i hone
    -- The second holds the delta to it.
    rw [if_pos hone]
    unfold nextSecond at h
    rcases hread : it.reader.readUvarint with ⟨e | td, r⟩
    · rw [hread] at h
      cases h
    · rw [hread] at h
      obtain ⟨hnum, ht, hdelta⟩ := readValue_ok h
      rw [ht, hdelta]
      exact ⟨hnum, .inr (.inl ⟨hone, rfl, rfl⟩)⟩
  · rename_i hone
    -- Each later one holds the change of the delta.
    rw [if_neg hone]
    unfold nextRest at h
    rcases hpre : readPrefix it.reader 0 4 with ⟨e | p, r⟩
    · rw [hpre] at h
      cases h
    rw [hpre] at h
    dsimp only at h ⊢
    rcases hdod : readDod r p with ⟨e | dod, r₂⟩
    · rw [hdod] at h
      cases h
    rw [hdod] at h
    obtain ⟨hnum, ht, hdelta⟩ := readValue_ok h
    rw [ht, hdelta]
    exact ⟨hnum, .inr (.inr ⟨by omega, rfl, dod, (Int64.toInt64_toUInt64 _).symm, rfl⟩)⟩

/-- A call that ends without an error has added nothing. -/
theorem next_done {it it' : XORIterator} (h : it.next = (false, it')) (herr : it'.err = none) :
    it.nextOps = [] := by
  unfold next at h
  unfold nextOps
  split at h
  · rename_i hstop
    rw [if_pos hstop]
  rename_i hgo
  rw [if_neg hgo]
  split at h
  · rename_i hzero
    rw [if_pos hzero]
  rename_i hzero
  rw [if_neg hzero]
  split at h
  · rename_i hone
    rw [if_pos hone]
    unfold nextSecond at h
    rcases hread : it.reader.readUvarint with ⟨e | td, r⟩
    · rfl
    · rw [hread] at h
      -- A delta was added, so only the value can have failed.
      exact absurd herr (readValue_error h)
  · rename_i hone
    rw [if_neg hone]
    unfold nextRest at h
    rcases hpre : readPrefix it.reader 0 4 with ⟨e | p, r⟩
    · rfl
    rw [hpre] at h
    dsimp only at h ⊢
    rcases hdod : readDod r p with ⟨e | dod, r₂⟩
    · rfl
    · rw [hdod] at h
      exact absurd herr (readValue_error h)

/-- The samples still to come follow the last one, and the last delta is not negative. -/
structure Ready (it : XORIterator) (xs : List Sample) : Prop where
  fresh : it.numRead = 0 → xs.IsChain Sample.Steps
  begun : it.numRead ≠ 0 → (({ t := it.t, v := it.v } : Sample) :: xs).IsChain Sample.Steps
  delta : 2 ≤ it.numRead → 0 ≤ it.tDelta.toInt64.toInt

/-- One sample: its sums are exact, and the rest is ready behind it. -/
theorem Ready.next {it it' : XORIterator} {xs : List Sample}
    (h : it.Ready ({ t := it'.t, v := it'.v } :: xs)) (hnext : it.next = (true, it')) :
    AllIn it.nextOps ∧ it'.Ready xs := by
  obtain ⟨hnum, hcases⟩ := next_cases hnext
  have hbegun : it'.numRead ≠ 0 := by omega
  rcases hcases with ⟨hzero, hops⟩ | ⟨hone, ht, hops⟩ | ⟨htwo, ht, dod, hdod, hops⟩
  · rw [hops]
    refine ⟨allIn_nil, fun hzero' ↦ absurd hzero' hbegun, fun _ ↦ h.fresh hzero, fun htwo ↦ ?_⟩
    omega
  · obtain ⟨hstep, hrest⟩ := List.isChain_cons_cons.mp (h.begun (by omega))
    have hexact := toInt_of_add_eq ht hstep.inInt64
    have hsum := inInt64_add ht hstep.inInt64
    have hbounds := hstep.bounds
    rw [hops]
    refine ⟨by simp [hsum], fun hzero' ↦ absurd hzero' hbegun, fun _ ↦ hrest, fun _ ↦ ?_⟩
    rw [hexact]
    exact hbounds.1
  · obtain ⟨hstep, hrest⟩ := List.isChain_cons_cons.mp (h.begun (by omega))
    have hexact := toInt_of_add_eq ht hstep.inInt64
    have hsum := inInt64_add ht hstep.inInt64
    have hbounds := hstep.bounds
    -- The two deltas are both between zero and 2^63.
    have hlast := h.delta htwo
    have hlt := (inInt64_toInt it.tDelta.toInt64).2
    have hdelta : InInt64 (it.tDelta.toInt64.toInt + dod.toInt) := by
      apply inInt64_add hdod
      rw [hexact]
      unfold InInt64
      dsimp only at hbounds
      omega
    rw [hops]
    refine ⟨by simp [hsum, hdelta], fun hzero' ↦ absurd hzero' hbegun, fun _ ↦ hrest, fun _ ↦ ?_⟩
    rw [hexact]
    exact hbounds.1

theorem Ready.drainOps {it last : XORIterator} {xs : List Sample} {fuel : Nat} (h : it.Ready xs)
    (hdrain : it.drainLoop fuel = (xs, last)) (herr : last.err = none) : AllIn (it.drainOps fuel) := by
  induction fuel generalizing it xs with
  | zero => exact allIn_nil
  | succ fuel ih =>
    rw [drainLoop] at hdrain
    rw [XORIterator.drainOps]
    rcases hnext : it.next with ⟨_ | _, it'⟩
    · rw [hnext] at hdrain
      cases hdrain
      rw [next_done hnext herr]
      exact allIn_nil
    · rw [hnext] at hdrain
      dsimp only at hdrain
      rcases hrest : it'.drainLoop fuel with ⟨xs', last'⟩
      rw [hrest] at hdrain
      cases hdrain
      obtain ⟨hops, hready⟩ := h.next hnext
      exact allIn_append.mpr ⟨hops, ih hready hrest⟩

end XORIterator

/-- Reading a chunk whose samples follow each other by less than 2^63. -/
theorem XORChunk.allIn_readOps {c : XORChunk} (herr : c.samples.2.err = none)
    (hsteps : c.samples.1.IsChain Sample.Steps) : AllIn c.readOps := by
  have hfresh : c.iterator.numRead = 0 := by
    unfold XORChunk.iterator XORIterator.new
    split <;> rfl
  have hready : c.iterator.Ready c.samples.1 :=
    ⟨fun _ ↦ hsteps, fun hbegun ↦ absurd hfresh hbegun, fun htwo ↦ by omega⟩
  exact hready.drainOps rfl herr

/-! ## The appender -/

theorem Decodes.last_t {l : List Bool} {xs : List Sample} {d : XORAppender} (h : Decodes l xs d) :
    ∀ y ∈ xs.getLast?, d.t = y.t := by
  cases h with
  | nil => exact fun y hy ↦ by cases hy
  | snoc _ _ hnext =>
    intro y hy
    rw [List.getLast?_concat] at hy
    cases hy
    exact hnext.t_eq

/-- An append subtracts the last sample of a chunk that is not full. -/
theorem XORChunk.Encodes.appendOps_eq {c : XORChunk} {xs : List Sample} {a d : XORAppender}
    (h : c.Encodes xs d) (ha : a.Tracks xs.length d) (t : Int64) :
    a.appendOps c.writer t =
      if xs.length = kMaxSamples then [] else (xs.getLast?.map fun y ↦ t.toInt - y.t.toInt).toList := by
  have hcount : headerCount c.writer.stream = xs.length := h.numSamples_eq
  unfold XORAppender.appendOps
  rw [hcount]
  dsimp only
  apply if_congr Iff.rfl rfl
  rcases List.eq_nil_or_concat' xs with rfl | ⟨init, y, rfl⟩
  · rfl
  · obtain ⟨-, -, l, -, hdec⟩ := h
    have hlast : y ∈ (init ++ [y]).getLast? := List.getLast?_concat
    have ht : a.t = y.t := by
      rw [ha.t_eq (by rw [List.length_append]; exact Nat.succ_ne_zero _)]
      exact hdec.last_t y hlast
    rw [List.length_append, ht, List.getLast?_concat]
    rfl

end MerlionTsdb.Chunkenc
