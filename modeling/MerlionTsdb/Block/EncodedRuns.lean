import MerlionTsdb.Block.Compact
import MerlionTsdb.Head.Reach

/-!
# Chunks for runs of samples

`create_from_head` and `compact` turn the chunks of a series into input of a new block, each with its first
and its last time.
-/

namespace MerlionTsdb.Block

open Chunkenc Encoding Head Model

/-- The chunk encodes the run, and its times are those of the first and the last sample. -/
structure ChunkInput.Encodes (ci : ChunkInput) (run : List Sample) : Prop where
  decode_eq : ci.decode.1 = run
  err_eq : ci.decode.2.err = none
  length_ge : 2 ≤ ci.bytes.bytes.length
  count_eq : headerCount ci.bytes.bytes = run.length
  first_eq : run.head?.map Sample.t = some ci.minTime
  last_eq : run.getLast?.map Sample.t = some ci.maxTime

theorem ChunkInput.Encodes.ne_nil {ci : ChunkInput} {run : List Sample} (h : ci.Encodes run) :
    run ≠ [] := by
  intro hnil
  have hfirst := h.first_eq
  rw [hnil] at hfirst
  cases hfirst

/-- The copy of a chunk that encodes a run. -/
def CopyOf (ci : ChunkInput) (c : XORChunk) (run : List Sample) : Prop :=
  assignBytes c.bytes = .ok ci.bytes ∧ ci.bytes.bytes = c.bytes ∧
    timeSpan c = .ok (some (ci.minTime, ci.maxTime)) ∧ ci.Encodes run

theorem assignBytes_ok {bytes : Bytes} (h : bytes.length ≤ kMaxSize) :
    assignBytes bytes = .ok ⟨bytes, h⟩ := by
  unfold assignBytes Str.ofBytes
  rw [dif_pos h]

/-- Every such chunk has a copy. -/
theorem exists_copyOf {c : XORChunk} {run : List Sample} (h : EncodesRun c run) (hsized : c.Sized) :
    ∃ ci, CopyOf ci c run := by
  obtain ⟨n, hspans, hlow, -, -, hlen⟩ := hsized
  obtain ⟨⟨d, hd⟩, hne, -⟩ := h
  obtain ⟨hsamples, herr, -⟩ := hd.drain
  have hmax : c.bytes.length ≤ kMaxSize := hlen.trans (by decide)
  have hheader : 2 ≤ c.bytes.length := by
    have hbits := hspans.2
    show 2 ≤ c.writer.stream.length
    omega
  cases run with
  | nil => exact absurd rfl hne
  | cons x run =>
    refine ⟨⟨x.t, ((x :: run).getLast hne).t, ⟨c.bytes, hmax⟩⟩,
      assignBytes_ok hmax, rfl, timeSpan_of_encodes hd, ?_⟩
    constructor
    · exact hsamples
    · exact herr
    · exact hheader
    · exact hd.numSamples_eq
    · rfl
    · rw [List.getLast?_eq_some_getLast hne]
      rfl

/-- Both loops return the copies of the chunks. -/
theorem headChunks_eq {chunks : List XORChunk} {runs : List (List Sample)}
    (h : List.Forall₂ EncodesRun chunks runs) (hsized : ∀ c ∈ chunks, c.Sized) :
    ∃ out, headChunks chunks = .ok out ∧ mergedChunks chunks = .ok out ∧
      List.Forall₂ ChunkInput.Encodes out runs ∧
      List.Forall₂ (fun ci c ↦ ci.bytes.bytes = c.bytes ∧
        timeSpan c = .ok (some (ci.minTime, ci.maxTime))) out chunks := by
  induction h with
  | nil => exact ⟨[], rfl, rfl, List.Forall₂.nil, List.Forall₂.nil⟩
  | @cons c run chunks runs hc _ ih =>
    obtain ⟨out, hhead, hmerged, hencodes, hbytes⟩ :=
      ih fun c' hc' ↦ hsized c' (List.mem_cons_of_mem _ hc')
    obtain ⟨ci, hassign, hsame, hspan, hci⟩ := exists_copyOf hc (hsized c List.mem_cons_self)
    have hsamples := hc.samples_eq
    refine ⟨ci :: out, ?_, ?_, List.Forall₂.cons hci hencodes,
      List.Forall₂.cons ⟨hsame, hspan⟩ hbytes⟩
    · unfold headChunks
      rw [if_neg hc.numSamples_ne_zero, hassign, hspan, hhead]
      rfl
    · unfold mergedChunks
      rw [if_neg hc.numSamples_ne_zero, hassign, hmerged]
      have hfirst := hci.first_eq
      have hlast := hci.last_eq
      cases run with
      | nil => cases hfirst
      | cons x run =>
        rw [List.getLast?_eq_some_getLast (List.cons_ne_nil _ _)] at hlast
        have hmin : ci.minTime = x.t := (Option.some_inj.mp hfirst).symm
        have hmax : ci.maxTime = ((x :: run).getLast (List.cons_ne_nil _ _)).t :=
          (Option.some_inj.mp hlast).symm
        simp only [hsamples]
        rw [← hmax, ← hmin]
        rfl

end MerlionTsdb.Block
