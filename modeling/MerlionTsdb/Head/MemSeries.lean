import MerlionTsdb.Chunkenc.Size
import MerlionTsdb.Chunkenc.XorRoundtrip
import MerlionTsdb.Model.Labels

/-!
# One series of the head

`mem_series.cpp`: the chunks of a series and the appender into the last of them.  `Holds` says which
samples they encode.
-/

namespace MerlionTsdb.Head

open Chunkenc Model

abbrev SeriesRef := UInt64

/-- `XORChunk::kMaxBytes`. -/
def kMaxBytes : Nat := 1024

/-- A single sample can grow a chunk by up to 19 bytes. -/
def kMaxBytesPerChunkBeforeAppend : Nat := kMaxBytes - 19

/-- `MemSeries`.  `currentAppender` appends to the last chunk. -/
structure MemSeries where
  ref : SeriesRef
  labels : Labels
  chunks : List XORChunk := []
  currentAppender : Option XORAppender := none
  lastT : Int64 := Int64.minValue
  lastV : UInt64 := 0
  numSamples : UInt64 := 0
  hasSample : Bool := false
  deriving DecidableEq

namespace MemSeries

def cutChunk (s : MemSeries) : MemSeries :=
  { s with
    chunks := s.chunks ++ [XORChunk.new]
    currentAppender := XORChunk.new.appender.toOption }

/-- `current_appender_->append(t, v)`.  A cut always leaves a chunk and its appender. -/
def appendCurrent (s : MemSeries) (x : Sample) : Bool × MemSeries :=
  match s.chunks.getLast?, s.currentAppender with
  | some c, some a =>
    let (ok, c, a) := c.append a x
    (ok, { s with chunks := s.chunks.dropLast ++ [c], currentAppender := some a })
  | _, _ => (false, s)

/-- Whether a chunk has to be cut before the next sample. -/
def needsCut (s : MemSeries) : Bool :=
  match s.chunks.getLast? with
  | none => true
  | some c => kMaxBytesPerChunkBeforeAppend < c.bytes.length

/-- The bookkeeping of an accepted sample. -/
def accept (s : MemSeries) (x : Sample) : MemSeries :=
  { s with lastT := x.t, lastV := x.v, numSamples := s.numSamples + 1, hasSample := true }

def append (s : MemSeries) (x : Sample) : Bool × MemSeries :=
  if s.hasSample && x.t < s.lastT then (false, s)
  else
    let s := if s.needsCut then s.cutChunk else s
    match s.appendCurrent x with
    | (true, s) => (true, s.accept x)
    | (false, s) =>
      -- The chunk is full: cut once and retry.
      match s.cutChunk.appendCurrent x with
      | (true, s) => (true, s.accept x)
      | (false, s) => (false, s)

/-- The samples a reader of the chunks sees. -/
def samples (s : MemSeries) : List Sample :=
  s.chunks.flatMap fun c ↦ c.samples.1

/-! ## The size of the chunks -/

/-- Every chunk is sized. -/
def Sized (s : MemSeries) : Prop := ∀ c ∈ s.chunks, c.Sized

theorem Sized.cutChunk {s : MemSeries} (h : s.Sized) : s.cutChunk.Sized := by
  intro c hc
  rcases List.mem_append.mp hc with hc | hc
  · exact h c hc
  · rw [List.mem_singleton.mp hc]
    exact XORChunk.sized_new

/-- The last chunk grows, if there is room in it. -/
theorem Sized.appendCurrent {s : MemSeries} (h : s.Sized)
    (hroom : ∀ c ∈ s.chunks.getLast?, c.bytes.length ≤ 1005) (x : Sample) :
    (s.appendCurrent x).2.Sized := by
  unfold MemSeries.appendCurrent
  split
  · rename_i c a hlast _
    intro c' hc'
    rcases List.mem_append.mp hc' with hc' | hc'
    · exact h c' (List.dropLast_subset _ hc')
    · rw [List.mem_singleton.mp hc']
      exact (h c (List.mem_of_getLast? hlast)).append (hroom c hlast) a x
  · exact h

theorem Sized.append {s : MemSeries} (h : s.Sized) (x : Sample) : (s.append x).2.Sized := by
  -- A chunk just cut has room for a sample.
  have hfresh : ∀ s : MemSeries, ∀ c ∈ s.cutChunk.chunks.getLast?, c.bytes.length ≤ 1005 := by
    intro s c hc
    have hlast : s.cutChunk.chunks.getLast? = some XORChunk.new := List.getLast?_concat
    rw [hlast] at hc
    cases hc
    decide
  have hstart : (if s.needsCut then s.cutChunk else s).Sized ∧
      ∀ c ∈ (if s.needsCut then s.cutChunk else s).chunks.getLast?, c.bytes.length ≤ 1005 := by
    by_cases hcut : s.needsCut = true
    · rw [if_pos hcut]
      exact ⟨h.cutChunk, hfresh s⟩
    · rw [if_neg hcut]
      refine ⟨h, fun c hc ↦ ?_⟩
      have hlast : s.chunks.getLast? = some c := hc
      unfold needsCut at hcut
      rw [hlast] at hcut
      exact Nat.le_of_not_lt (of_decide_eq_false (Bool.eq_false_of_not_eq_true hcut))
  have hfirst := hstart.1.appendCurrent hstart.2 x
  unfold MemSeries.append
  split
  · exact h
  dsimp only
  split
  · rename_i s₁ hresult
    rw [hresult] at hfirst
    exact hfirst
  · rename_i s₁ hresult
    rw [hresult] at hfirst
    have hsecond := hfirst.cutChunk.appendCurrent (hfresh s₁) x
    split
    · rename_i s₂ hresult'
      rw [hresult'] at hsecond
      exact hsecond
    · rename_i s₂ hresult'
      rw [hresult'] at hsecond
      exact hsecond

/-! ## What the chunks hold -/

/-- The chunks encode the runs `parts`, and the appender stands behind the last. -/
inductive Encoded (s : MemSeries) : List (List Sample) → Prop
  | none (chunks_eq : s.chunks = []) : Encoded s []
  | last {done : List XORChunk} {parts : List (List Sample)} {c : XORChunk} {part : List Sample}
    {a d : XORAppender} (chunks_eq : s.chunks = done ++ [c]) (appender_eq : s.currentAppender = some a)
    (encodes_done : List.Forall₂ (fun c part ↦ ∃ d, XORChunk.Encodes c part d) done parts)
    (encodes : c.Encodes part d) (tracks : a.Tracks part.length d) : Encoded s (parts ++ [part])

/-- The series holds the samples `xs`. -/
structure Holds (s : MemSeries) (xs : List Sample) : Prop where
  exists_parts : ∃ parts, s.Encoded parts ∧ (∀ part ∈ parts, part ≠ []) ∧ parts.flatten = xs
  hasSample_eq : s.hasSample = !xs.isEmpty
  lastT_eq : ∀ x ∈ xs.getLast?, s.lastT = x.t
  numSamples_eq : s.numSamples = UInt64.ofNat xs.length
  ordered : xs.Pairwise fun x y ↦ x.t ≤ y.t
  sized : s.Sized

theorem holds_new (ref : SeriesRef) (labels : Labels) :
    ({ ref := ref, labels := labels } : MemSeries).Holds [] :=
  ⟨⟨[], .none rfl, by simp, rfl⟩, rfl, by simp, rfl, .nil, fun c hc ↦ by cases hc⟩

theorem Encoded.forall₂ {s : MemSeries} {parts : List (List Sample)} (h : s.Encoded parts) :
    List.Forall₂ (fun c part ↦ ∃ d, XORChunk.Encodes c part d) s.chunks parts := by
  cases h with
  | none hchunks =>
    rw [hchunks]
    exact .nil
  | last hchunks _ hdone hc _ =>
    rw [hchunks]
    exact List.rel_append hdone (.cons ⟨_, hc⟩ .nil)

theorem Encoded.cutChunk {s : MemSeries} {parts : List (List Sample)} (h : s.Encoded parts) :
    s.cutChunk.Encoded (parts ++ [[]]) := by
  obtain ⟨a, ha, htracks⟩ := XORChunk.encodes_new.appender
  apply Encoded.last rfl _ h.forall₂ XORChunk.encodes_new htracks
  rw [MemSeries.cutChunk, ha]
  rfl

/-- The last run is in the last chunk, and the appender stands behind it. -/
theorem Encoded.last_run {s : MemSeries} {parts : List (List Sample)} {part : List Sample}
    (h : s.Encoded (parts ++ [part])) :
    ∃ done c a d, s.chunks = done ++ [c] ∧ s.currentAppender = some a ∧
      List.Forall₂ (fun c part ↦ ∃ d, XORChunk.Encodes c part d) done parts ∧
      c.Encodes part d ∧ a.Tracks part.length d := by
  generalize hall : parts ++ [part] = all at h
  cases h with
  | none => simp at hall
  | @last done parts' c part' a d hchunks ha hdone hc htracks =>
    obtain ⟨rfl, hpart⟩ := List.append_inj' hall rfl
    obtain rfl : part = part' := by simpa using hpart
    exact ⟨done, c, a, d, hchunks, ha, hdone, hc, htracks⟩

/-- The appender extends the last run, unless its chunk is full. -/
theorem Encoded.appendCurrent {s : MemSeries} {parts : List (List Sample)} {part : List Sample}
    (h : s.Encoded (parts ++ [part])) (x : Sample) :
    (part.length < kMaxSamples ∧ ∃ s', s.appendCurrent x = (true, s') ∧
        s'.Encoded (parts ++ [part ++ [x]])) ∨
      (part.length = kMaxSamples ∧ s.appendCurrent x = (false, s)) := by
  obtain ⟨done, c, a, d, hchunks, ha, hdone, hc, htracks⟩ := h.last_run
  have hlast : s.chunks.getLast? = some c := by
    rw [hchunks, List.getLast?_concat]
  have hinit : s.chunks.dropLast = done := by
    rw [hchunks, List.dropLast_concat]
  unfold MemSeries.appendCurrent
  rw [hlast, ha]
  dsimp only
  by_cases hfull : part.length < kMaxSamples
  · obtain ⟨d', hok, hc', htracks'⟩ := hc.append htracks hfull x
    left
    refine ⟨hfull, { s with
      chunks := done ++ [(c.append a x).2.1]
      currentAppender := some (c.append a x).2.2 }, ?_, ?_⟩
    · rw [hinit, hok]
    · apply Encoded.last rfl rfl hdone hc'
      rw [List.length_append]
      exact htracks'
  · right
    have hmax : part.length = kMaxSamples := Nat.le_antisymm hc.length_le (Nat.le_of_not_lt hfull)
    refine ⟨hmax, ?_⟩
    obtain ⟨-, -, l, hw, -⟩ := hc
    rw [hmax] at hw
    -- A full chunk refuses the sample, and nothing changes.
    have hsame : c.append a x = (false, c, a) := by
      rw [XORChunk.append, append_full hw]
    rw [hsame]
    dsimp only
    rw [hinit, ← hchunks, ← ha]

theorem Encoded.extend {s : MemSeries} {parts : List (List Sample)} {part : List Sample}
    (h : s.Encoded (parts ++ [part])) (hpart : part.length < kMaxSamples) (x : Sample) :
    ∃ s', s.appendCurrent x = (true, s') ∧ s'.Encoded (parts ++ [part ++ [x]]) := by
  rcases h.appendCurrent x with ⟨-, hok⟩ | ⟨hfull, -⟩
  · exact hok
  · omega

/-- A chunk just cut takes the sample as a run of its own. -/
theorem Encoded.fresh {s : MemSeries} {parts : List (List Sample)} (h : s.Encoded parts)
    (x : Sample) :
    ∃ s', s.cutChunk.appendCurrent x = (true, s') ∧ s'.Encoded (parts ++ [[x]]) :=
  h.cutChunk.extend (by decide) x

/-- Without a chunk a cut is needed. -/
theorem Encoded.exists_last {s : MemSeries} {parts : List (List Sample)} (h : s.Encoded parts)
    (hcut : s.needsCut = false) : ∃ init part, parts = init ++ [part] := by
  rcases List.eq_nil_or_concat' parts with rfl | hlast
  · have hchunks : s.chunks = [] := List.forall₂_nil_right_iff.mp h.forall₂
    rw [MemSeries.needsCut, hchunks] at hcut
    cases hcut
  · exact hlast

/-- An accepted sample is a run of its own, behind a cut or a full chunk, or extends the last run. -/
theorem Encoded.append_cases {s : MemSeries} {parts : List (List Sample)} (h : s.Encoded parts)
    (x : Sample) (htime : ¬ (s.hasSample && x.t < s.lastT) = true) :
    (∃ s' : MemSeries, s.append x = (true, s'.accept x) ∧ s'.Encoded (parts ++ [[x]]) ∧
        (s.needsCut = true ∨ s.needsCut = false ∧ ∃ init part, parts = init ++ [part] ∧
          part.length = kMaxSamples ∧ s.appendCurrent x = (false, s))) ∨
      ∃ (init : List (List Sample)) (part : List Sample) (s' : MemSeries), s.needsCut = false ∧
        parts = init ++ [part] ∧ part.length < kMaxSamples ∧ s.appendCurrent x = (true, s') ∧
        s.append x = (true, s'.accept x) ∧ s'.Encoded (init ++ [part ++ [x]]) := by
  obtain ⟨s', hs', henc⟩ := h.fresh x
  unfold MemSeries.append
  rw [if_neg htime]
  dsimp only
  by_cases hcut : s.needsCut = true
  · left
    rw [if_pos hcut, hs']
    exact ⟨s', rfl, henc, .inl hcut⟩
  · have hcurrent : s.needsCut = false := Bool.eq_false_of_not_eq_true hcut
    obtain ⟨init, part, rfl⟩ := h.exists_last hcurrent
    rw [if_neg hcut]
    rcases h.appendCurrent x with ⟨hroom, s₁, hs₁, henc₁⟩ | ⟨hmax, hfull⟩
    · right
      rw [hs₁]
      exact ⟨init, part, s₁, hcurrent, rfl, hroom, rfl, rfl, henc₁⟩
    · left
      rw [hfull]
      dsimp only
      rw [hs']
      exact ⟨s', rfl, henc, .inr ⟨hcurrent, init, part, rfl, hmax, rfl⟩⟩

/-- The chunks after an accepted sample: the last run is extended, or a new one started. -/
theorem Encoded.append {s : MemSeries} {parts : List (List Sample)} (h : s.Encoded parts)
    (hparts : ∀ part ∈ parts, part ≠ []) (x : Sample)
    (htime : ¬ (s.hasSample && x.t < s.lastT) = true) :
    ∃ (s' : MemSeries) (parts' : List (List Sample)), s.append x = (true, s'.accept x) ∧ s'.Encoded parts' ∧
      (∀ part ∈ parts', part ≠ []) ∧ parts'.flatten = parts.flatten ++ [x] := by
  rcases h.append_cases x htime with
    ⟨s', hs', henc, -⟩ | ⟨init, part, s', -, rfl, -, -, hs', henc⟩
  · refine ⟨s', _, hs', henc, ?_, by simp⟩
    intro p hmem
    rcases List.mem_append.mp hmem with hmem | hmem
    · exact hparts p hmem
    · rw [List.mem_singleton.mp hmem]
      exact List.cons_ne_nil _ _
  · refine ⟨s', _, hs', henc, ?_, by simp⟩
    intro p hmem
    rcases List.mem_append.mp hmem with hmem | hmem
    · exact hparts p (List.mem_append_left _ hmem)
    · rw [List.mem_singleton.mp hmem]
      simp

theorem appendCurrent_series (s : MemSeries) (x : Sample) :
    (s.appendCurrent x).2.ref = s.ref ∧ (s.appendCurrent x).2.labels = s.labels := by
  unfold appendCurrent
  split <;> exact ⟨rfl, rfl⟩

/-- An append keeps the identity of the series. -/
theorem append_series (s : MemSeries) (x : Sample) :
    (s.append x).2.ref = s.ref ∧ (s.append x).2.labels = s.labels := by
  have hstart : (if s.needsCut then s.cutChunk else s).ref = s.ref ∧
      (if s.needsCut then s.cutChunk else s).labels = s.labels := by
    split <;> exact ⟨rfl, rfl⟩
  unfold append
  split
  · exact ⟨rfl, rfl⟩
  dsimp only
  have hfirst := appendCurrent_series (if s.needsCut then s.cutChunk else s) x
  rcases hresult : (if s.needsCut then s.cutChunk else s).appendCurrent x with ⟨_ | _, s₁⟩
  all_goals
    rw [hresult] at hfirst
    dsimp only at hfirst ⊢
  · have hsecond := appendCurrent_series s₁.cutChunk x
    rcases hresult' : s₁.cutChunk.appendCurrent x with ⟨_ | _, s₂⟩
    all_goals
      rw [hresult'] at hsecond
      exact ⟨hsecond.1.trans (hfirst.1.trans hstart.1), hsecond.2.trans (hfirst.2.trans hstart.2)⟩
  · exact ⟨hfirst.1.trans hstart.1, hfirst.2.trans hstart.2⟩

theorem appendCurrent_numSamples (s : MemSeries) (x : Sample) :
    (s.appendCurrent x).2.numSamples = s.numSamples := by
  unfold appendCurrent
  split <;> rfl

/-- Every accepted sample is counted. -/
theorem append_numSamples {s s' : MemSeries} {x : Sample} (h : s.append x = (true, s')) :
    s'.numSamples = s.numSamples + 1 := by
  have hstart : (if s.needsCut then s.cutChunk else s).numSamples = s.numSamples := by
    split <;> rfl
  have hfirst := appendCurrent_numSamples (if s.needsCut then s.cutChunk else s) x
  unfold append at h
  split at h
  · cases h
  dsimp only at h
  split at h
  · rename_i s₁ hresult
    cases h
    rw [hresult] at hfirst
    show s₁.numSamples + 1 = _
    rw [hfirst, hstart]
  · rename_i s₁ hresult
    rw [hresult] at hfirst
    split at h
    · rename_i s₂ hresult'
      have hsecond := appendCurrent_numSamples s₁.cutChunk x
      cases h
      rw [hresult'] at hsecond
      show s₂.numSamples + 1 = _
      rw [hsecond]
      show s₁.numSamples + 1 = _
      rw [hfirst, hstart]
    · cases h

/-- A sample that is not older than the last one is accepted. -/
theorem Holds.append_of_le {s : MemSeries} {xs : List Sample} (h : s.Holds xs) {x : Sample}
    (hle : ∀ y ∈ xs.getLast?, y.t ≤ x.t) :
    ∃ s', s.append x = (true, s') ∧ s'.Holds (xs ++ [x]) := by
  obtain ⟨⟨parts, henc, hparts, hflat⟩, hhas, hlast, hnum, hordered, hsized⟩ := h
  have htime : ¬ (s.hasSample && x.t < s.lastT) = true := by
    rw [hhas]
    cases hget : xs.getLast? with
    | none => simp [List.getLast?_eq_none_iff.mp hget]
    | some y =>
      rw [hlast y hget]
      simp [hle y hget]
  obtain ⟨s', parts', hs', henc', hparts', hflat'⟩ := henc.append hparts x htime
  have hsized' := hsized.append x
  rw [hs'] at hsized'
  refine ⟨s'.accept x, hs', ⟨parts', ?_, hparts', by rw [hflat', hflat]⟩, ?_, ?_, ?_, ?_, hsized'⟩
  · cases henc' with
    | none hchunks => exact .none hchunks
    | last hchunks ha hdone hc htracks => exact .last hchunks ha hdone hc htracks
  · simp [accept]
  · simp [accept]
  · rw [append_numSamples hs', hnum, List.length_append, List.length_singleton, UInt64.ofNat_add]
    rfl
  · rw [List.pairwise_append]
    refine ⟨hordered, List.pairwise_singleton _ _, ?_⟩
    intro y hy z hz
    rw [List.mem_singleton.mp hz]
    -- The order goes through the sample that was last.
    rcases List.eq_nil_or_concat' xs with rfl | ⟨init, last, rfl⟩
    · cases hy
    · have hlast' : last.t ≤ x.t := hle last (by simp)
      rcases List.mem_append.mp hy with hy | hy
      · exact Int64.le_trans ((List.pairwise_append.mp hordered).2.2 y hy last (by simp)) hlast'
      · rw [List.mem_singleton.mp hy]
        exact hlast'

/-- A sample is accepted unless it is older than the last one, and then nothing changes. -/
theorem Holds.append {s : MemSeries} {xs : List Sample} (h : s.Holds xs) (x : Sample) :
    (∃ s', s.append x = (true, s') ∧ s'.Holds (xs ++ [x])) ∨ s.append x = (false, s) := by
  by_cases htime : (s.hasSample && x.t < s.lastT) = true
  · right
    unfold MemSeries.append
    rw [if_pos htime]
  · left
    apply h.append_of_le
    intro y hy
    have hne : xs ≠ [] := by
      rintro rfl
      cases hy
    rw [h.hasSample_eq, h.lastT_eq y hy] at htime
    simpa [hne] using htime

theorem flatMap_samples {chunks : List XORChunk} {parts : List (List Sample)}
    (h : List.Forall₂ (fun c part ↦ ∃ d, XORChunk.Encodes c part d) chunks parts) :
    (chunks.flatMap fun c ↦ c.samples.1) = parts.flatten := by
  induction h with
  | nil => rfl
  | cons hc _ ih =>
    obtain ⟨d, hc⟩ := hc
    rw [List.flatMap_cons, hc.drain.1, ih]
    rfl

/-- A reader of the chunks sees the samples the series holds. -/
theorem Holds.samples {s : MemSeries} {xs : List Sample} (h : s.Holds xs) : s.samples = xs := by
  obtain ⟨⟨parts, henc, -, rfl⟩, -⟩ := h
  exact flatMap_samples henc.forall₂

end MemSeries
end MerlionTsdb.Head
