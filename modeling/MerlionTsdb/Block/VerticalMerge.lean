import MerlionTsdb.Block.EncodedRuns
import MerlionTsdb.Head.SelectExact

/-!
# Vertical merge

What the merge of the chunks of one series holds: of each time in the input, the sample that came last.
-/

namespace MerlionTsdb.Block

open Chunkenc Encoding Head Model StableSort

/-- The samples that the chunks decode to, chunk by chunk. -/
def decoded (chunks : List ChunkInput) : List Sample := chunks.flatMap fun ci ↦ ci.decode.1

/-- `out` has the times of `input`, each once and in ascending order, with the sample that came last. -/
structure Merges (input out : List Sample) : Prop where
  ascending : out.Pairwise fun x y ↦ x.t < y.t
  times : ∀ t, (∃ y ∈ out, y.t = t) ↔ ∃ x ∈ input, x.t = t
  last : ∀ y ∈ out, (input.filter fun x ↦ x.t = y.t).getLast? = some y

theorem decodeInputs_ok {chunks : List ChunkInput} (h : ∀ ci ∈ chunks, ci.decode.2.err = none) :
    decodeInputs chunks = .ok (decoded chunks) := by
  induction chunks with
  | nil => rfl
  | cons ci chunks ih =>
    unfold decodeInputs
    rw [h ci List.mem_cons_self, ih fun ci' hci' ↦ h ci' (List.mem_cons_of_mem _ hci')]
    rfl

/-- The sort and the loop over the runs. -/
theorem merges_dedupe (samples : List Sample) : Merges samples (dedupe samples) := by
  have hfilter : ∀ t, (dedupe samples).filter (fun y ↦ y.t = t) =
      (samples.filter fun x ↦ x.t = t).getLast?.toList := filter_lasts_stableSort samples
  have hlast : ∀ y ∈ dedupe samples, (samples.filter fun x ↦ x.t = y.t).getLast? = some y := by
    intro y hy
    have hmem : y ∈ (dedupe samples).filter fun x ↦ x.t = y.t :=
      List.mem_filter.mpr ⟨hy, decide_eq_true rfl⟩
    rw [hfilter] at hmem
    exact Option.mem_toList.mp hmem
  constructor
  · exact pairwise_lasts (pairwise_stableSort Sample.t samples)
  · intro t
    constructor
    · rintro ⟨y, hy, rfl⟩
      have hmem := List.mem_of_getLast? (hlast y hy)
      exact ⟨y, (List.mem_filter.mp hmem).1, rfl⟩
    · rintro ⟨x, hx, rfl⟩
      -- The samples of this time have a last one, and it is kept.
      have hne : (samples.filter fun y ↦ y.t = x.t) ≠ [] :=
        List.ne_nil_of_mem (List.mem_filter.mpr ⟨hx, decide_eq_true rfl⟩)
      have hkept : (samples.filter fun y ↦ y.t = x.t).getLast hne ∈
          (dedupe samples).filter fun y ↦ y.t = x.t := by
        rw [hfilter, List.getLast?_eq_some_getLast hne]
        exact List.mem_singleton_self _
      exact ⟨_, (List.mem_filter.mp hkept).1, of_decide_eq_true (List.mem_filter.mp hkept).2⟩
  · exact hlast

/-- No sample of an ascending list is refused. -/
theorem appendSamples_ok {ms : MemSeries} {held samples : List Sample} (h : ms.Holds held)
    (hasc : (held ++ samples).Pairwise fun x y ↦ x.t ≤ y.t) :
    ∃ ms', appendSamples ms samples = .ok ms' ∧ ms'.Holds (held ++ samples) := by
  induction samples generalizing ms held with
  | nil =>
    refine ⟨ms, rfl, ?_⟩
    rw [List.append_nil]
    exact h
  | cons x samples ih =>
    have hle : ∀ y ∈ held.getLast?, y.t ≤ x.t := fun y hy ↦
      (List.pairwise_append.mp hasc).2.2 y (List.mem_of_getLast? hy) x List.mem_cons_self
    obtain ⟨ms₁, happend, h₁⟩ := h.append_of_le hle
    rw [← List.singleton_append, ← List.append_assoc] at hasc ⊢
    obtain ⟨ms', hrest, h'⟩ := ih h₁ hasc
    refine ⟨ms', ?_, h'⟩
    show appendSamples ms (x :: samples) = .ok ms'
    unfold appendSamples
    rw [happend]
    exact hrest

/-- The merge of chunks that decode, as the new chunks of a series and the runs that they encode. -/
theorem verticalMerge_runs (labels : Labels) {chunks : List ChunkInput}
    (h : ∀ ci ∈ chunks, ci.decode.2.err = none) :
    ∃ out runs, verticalMerge labels chunks = .ok out ∧ List.Forall₂ ChunkInput.Encodes out runs ∧
      runs.flatten = dedupe (decoded chunks) := by
  have hasc : ([] ++ dedupe (decoded chunks)).Pairwise fun x y : Sample ↦ x.t ≤ y.t :=
    (merges_dedupe (decoded chunks)).ascending.imp fun hlt ↦ le_of_lt hlt
  unfold verticalMerge
  rw [decodeInputs_ok h]
  by_cases hempty : (dedupe (decoded chunks)).isEmpty = true
  · refine ⟨[], [], ?_, List.Forall₂.nil, ?_⟩
    · show (if (dedupe (decoded chunks)).isEmpty then _ else _) = _
      rw [if_pos hempty]
    · rw [List.isEmpty_iff.mp hempty]
      rfl
  · obtain ⟨ms, happend, hholds⟩ := appendSamples_ok (MemSeries.holds_new 0 labels) hasc
    obtain ⟨runs, hruns, hflat⟩ := hholds.runs
    obtain ⟨out, -, hmerged, hencodes, -⟩ := headChunks_eq hruns hholds.sized
    refine ⟨out, runs, ?_, hencodes, hflat⟩
    show (if (dedupe (decoded chunks)).isEmpty then _ else _) = _
    rw [if_neg hempty, happend]
    exact hmerged

theorem decoded_of_encodes {out : List ChunkInput} {runs : List (List Sample)}
    (h : List.Forall₂ ChunkInput.Encodes out runs) : decoded out = runs.flatten := by
  induction h with
  | nil => rfl
  | cons hci _ ih =>
    unfold decoded at ih ⊢
    rw [List.flatMap_cons, hci.decode_eq, ih]
    rfl

/-- Whatever chunks are collected for a label set, in whatever order and with whatever times, the merge
succeeds as long as they decode, and its chunks decode to the merged samples. -/
theorem verticalMerge_merges (labels : Labels) {chunks : List ChunkInput}
    (h : ∀ ci ∈ chunks, ci.decode.2.err = none) :
    ∃ out, verticalMerge labels chunks = .ok out ∧ (∀ ci ∈ out, ci.decode.2.err = none) ∧
      Merges (decoded chunks) (decoded out) := by
  obtain ⟨out, runs, hok, hencodes, hflat⟩ := verticalMerge_runs labels h
  refine ⟨out, hok, ?_, ?_⟩
  · intro ci hci
    obtain ⟨run, -, hrun⟩ := Related.exists_right hencodes hci
    exact hrun.err_eq
  · rw [decoded_of_encodes hencodes, hflat]
    exact merges_dedupe _

/-- Two chunks with a sample at time 5: the value of the second is kept. -/
theorem verticalMerge_merges_two :
    let chunks : List ChunkInput :=
      [⟨5, 9, ⟨[0, 2, 10, 0, 0, 0, 0, 0, 0, 0, 3, 4, 255, 8, 0, 0, 0, 28], by decide⟩⟩,
        ⟨5, 5, ⟨[0, 1, 10, 0, 0, 0, 0, 0, 0, 0, 7], by decide⟩⟩]
    decoded chunks = [⟨5, 3⟩, ⟨9, 4⟩, ⟨5, 7⟩] ∧
      ∃ out, verticalMerge sampleLabels chunks = .ok out ∧ ⟨5, 7⟩ ∈ decoded out := by
  intro chunks
  have hdecoded : decoded chunks = [⟨5, 3⟩, ⟨9, 4⟩, ⟨5, 7⟩] := by decide
  have herr : ∀ ci ∈ chunks, ci.decode.2.err = none := by decide
  obtain ⟨out, hok, -, hmerges⟩ := verticalMerge_merges sampleLabels herr
  refine ⟨hdecoded, out, hok, ?_⟩
  rw [hdecoded] at hmerges
  obtain ⟨y, hy, ht⟩ := (hmerges.times 5).mpr ⟨⟨5, 3⟩, by decide, rfl⟩
  have hlast := hmerges.last y hy
  rw [ht] at hlast
  have hvalue : y = ⟨5, 7⟩ := (Option.some_inj.mp hlast).symm
  rw [← hvalue]
  exact hy

end MerlionTsdb.Block
