import MerlionTsdb.Head.MemSeries
import MerlionTsdb.Lib.Related

/-!
# Runs of appends to one series

Any samples offered to a series, in any order.  The size of a chunk bounds its number of samples far
below the ceiling of its header, so that the retry of `append` is dead code.
-/

namespace MerlionTsdb.Chunkenc

/-- A chunk of at most 1024 bytes holds less than the 65535 samples its header could count. -/
theorem XORChunk.Sized.numSamples_lt {c : XORChunk} (h : c.Sized) : c.numSamples < kMaxSamples := by
  obtain ⟨n, ⟨hcount, hlen⟩, hlow, -, -, hbytes⟩ := h
  have hbytes' : c.writer.stream.length ≤ 1024 := hbytes
  unfold kMaxSamples
  omega

end MerlionTsdb.Chunkenc

namespace MerlionTsdb.Head

open Chunkenc Model

namespace MemSeries

/-- The first `current_appender_->append(t, v)` of a call, behind the cut if one is due. -/
def firstTry (s : MemSeries) (x : Sample) : Bool × MemSeries :=
  (if s.needsCut then s.cutChunk else s).appendCurrent x

/-- The samples whose appends returned true, and the series afterwards. -/
def appendAll (s : MemSeries) : List Sample → List Sample × MemSeries
  | [] => ([], s)
  | x :: xs =>
    let (ok, s) := s.append x
    let (accepted, s) := s.appendAll xs
    (if ok then x :: accepted else accepted, s)

/-- The last of the runs that the chunks encode is shorter than the ceiling. -/
theorem Encoded.length_last_lt {s : MemSeries} {parts : List (List Sample)} {part : List Sample}
    (h : s.Encoded (parts ++ [part])) (hsized : s.Sized) : part.length < kMaxSamples := by
  obtain ⟨done, c, a, d, hchunks, -, -, hc, -⟩ := h.last_run
  rw [← hc.numSamples_eq]
  apply (hsized c _).numSamples_lt
  rw [hchunks]
  simp

/-- The first try of an append never meets a full chunk. -/
theorem Holds.firstTry {s : MemSeries} {xs : List Sample} (h : s.Holds xs) (x : Sample) :
    (s.firstTry x).1 = true := by
  obtain ⟨parts, henc, -, -⟩ := h.exists_parts
  unfold MemSeries.firstTry
  by_cases hcut : s.needsCut = true
  · rw [if_pos hcut]
    obtain ⟨s', hs', -⟩ := henc.fresh x
    rw [hs']
  · rw [if_neg hcut]
    obtain ⟨init, part, rfl⟩ := henc.exists_last (Bool.eq_false_of_not_eq_true hcut)
    obtain ⟨s', hs', -⟩ := henc.extend (henc.length_last_lt h.sized) x
    rw [hs']

/-- An append is accepted exactly when its time is not before that of the last sample. -/
theorem Holds.append_iff {s : MemSeries} {xs : List Sample} (h : s.Holds xs) (x : Sample) :
    (s.append x).1 = true ↔ ∀ y ∈ xs.getLast?, y.t ≤ x.t := by
  constructor
  · intro hok y hy
    by_contra hlt
    have hne : xs ≠ [] := by
      rintro rfl
      cases hy
    have htime : (s.hasSample && x.t < s.lastT) = true := by
      rw [h.hasSample_eq, h.lastT_eq y hy]
      simpa [hne] using hlt
    unfold MemSeries.append at hok
    rw [if_pos htime] at hok
    cases hok
  · intro hle
    obtain ⟨s', hs', -⟩ := h.append_of_le hle
    rw [hs']

/-- The samples taken by a run follow those the series held before. -/
theorem Holds.appendAll {s : MemSeries} {xs : List Sample} (h : s.Holds xs) (calls : List Sample) :
    (s.appendAll calls).2.Holds (xs ++ (s.appendAll calls).1) := by
  induction calls generalizing s xs with
  | nil =>
    show s.Holds (xs ++ [])
    rw [List.append_nil]
    exact h
  | cons x calls ih =>
    unfold MemSeries.appendAll
    dsimp only
    rcases h.append x with ⟨s', hs', h'⟩ | hs'
    · have hrest := ih h'
      rw [hs']
      dsimp only
      rw [if_pos rfl]
      rw [List.append_assoc] at hrest
      exact hrest
    · rw [hs']
      dsimp only
      rw [if_neg Bool.false_ne_true]
      exact ih h

/-- The chunks of a series are encodings of runs that are not empty. -/
theorem Holds.chunk {s : MemSeries} {xs : List Sample} (h : s.Holds xs) {c : XORChunk}
    (hc : c ∈ s.chunks) :
    c.samples.1 ≠ [] ∧ c.samples.2.err = none ∧ c.samples.1.length = c.numSamples ∧
      c.numSamples < kMaxSamples ∧ c.bytes.length ≤ kMaxBytes := by
  obtain ⟨parts, henc, hparts, -⟩ := h.exists_parts
  obtain ⟨part, hpart, d, hencodes⟩ := Related.exists_right henc.forall₂ hc
  obtain ⟨hsamples, herr, -⟩ := hencodes.drain
  have hsized := h.sized c hc
  rw [hsamples]
  refine ⟨hparts part hpart, herr, hencodes.numSamples_eq.symm, hsized.numSamples_lt, ?_⟩
  obtain ⟨-, -, -, -, -, hbytes⟩ := hsized
  exact hbytes

/-- After any appends to a new series: its chunks decode to the accepted samples in order, each chunk
holds a sample, at most 1024 bytes and fewer samples than its header could count; and the next append
is accepted exactly when its time is not before the last accepted one, then by the first try, and
else changes nothing. -/
theorem appendAll_new (ref : SeriesRef) (labels : Labels) (calls : List Sample) (x : Sample) :
    let (accepted, s) := ({ ref := ref, labels := labels } : MemSeries).appendAll calls
    s.samples = accepted ∧
      (∀ c ∈ s.chunks, c.samples.1 ≠ [] ∧ c.samples.2.err = none ∧
        c.samples.1.length = c.numSamples ∧ c.numSamples < kMaxSamples ∧
        c.bytes.length ≤ kMaxBytes) ∧
      ((s.append x).1 = true ↔ ∀ y ∈ accepted.getLast?, y.t ≤ x.t) ∧
      ((s.append x).1 = true → (s.firstTry x).1 = true) ∧
      ((s.append x).1 = false → (s.append x).2 = s) := by
  have h := (holds_new ref labels).appendAll calls
  rw [List.nil_append] at h
  refine ⟨h.samples, fun c hc ↦ h.chunk hc, h.append_iff x, fun _ ↦ h.firstTry x, ?_⟩
  intro hrejected
  rcases h.append x with ⟨s', hs', -⟩ | hs'
  · rw [hs'] at hrejected
    cases hrejected
  · rw [hs']

end MemSeries
end MerlionTsdb.Head
