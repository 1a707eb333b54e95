import MerlionTsdb.Block.Limits
import MerlionTsdb.Block.SeriesOps
import MerlionTsdb.Block.StoredPostings
import MerlionTsdb.Block.Times
import MerlionTsdb.Head.AppendOps

/-!
# Signed arithmetic of a head in use

A head is appended to, committed, replayed, read and flushed, in any order.  None of the signed sums and
differences behind these calls leaves 64 bits as long as each call keeps the times that it relates to each
other less than 2^63 apart.  The code checks no such distance.
-/

namespace MerlionTsdb.Block

open Chunkenc Encoding Head Model Wal.Record

/-! ## What is computed -/

/-- The reads of the chunk loop of `create_from_head`. -/
def headChunksOps : List XORChunk → List Int
  | [] => []
  | c :: chunks =>
    if c.numSamples = 0 then headChunksOps chunks
    else
      match assignBytes c.bytes with
      | .error _ => []
      | .ok _ =>
        c.readOps ++
          match timeSpan c with
          | .ok (some _) => headChunksOps chunks
          | _ => []

/-- The reads of its series loop. -/
def headInputsOps : List MemSeries → List Int
  | [] => []
  | s :: series =>
    if s.numSamples = 0 then headInputsOps series
    else
      headChunksOps s.chunks ++
        match headChunks s.chunks with
        | .error _ => []
        | .ok _ => headInputsOps series

/-- The entries of a new index, as long as no system call fails. -/
def createFromSeriesOps (calls : CreateCalls) (series : List SeriesInput) : List Int :=
  match writeSegments calls series with
  | .error _ => []
  | .ok (prepared, _) => prepared.flatMap fun ps ↦ addSeriesOps ps.chunkMetas

/-- A reader of all of a block: every series that the postings name, and the samples of its chunks. -/
def readBlockOps (blk : Block) : List Int :=
  match blk.index.allPostings with
  | .error _ => []
  | .ok ids => ids.flatMap fun id ↦
    blk.index.seriesOps id.toUInt64 ++
      match blk.index.series id.toUInt64 with
      | .error _ => []
      | .ok se => se.chunks.flatMap fun cm ↦
        match (blk.chunks.read cm.chunkRef).1 with
        | .error _ => []
        | .ok payload => (XORChunk.fromBytes payload.data).readOps

/-- A flush into a new block, which is then opened and read. -/
def flushOps {W : Type} (text : JsonText) (calls : CreateCalls) (h : Head W) : List Int :=
  headInputsOps h.series.allSeries ++
    match headInputs h.series.allSeries with
    | .error _ => []
    | .ok inputs =>
      createFromSeriesOps calls inputs ++
        match createFromSeries text calls inputs with
        | .error _ => []
        | .ok dir =>
          match openDir text (some dir) with
          | .error _ => []
          | .ok blk => readBlockOps blk

/-! ## Chunks of input -/

def ChunkInput.times (ci : ChunkInput) : Int64 × Int64 := (ci.minTime, ci.maxTime)

/-- The chunks can be read and indexed within 64 bits. -/
structure InRange (chunks : List ChunkInput) : Prop where
  err_eq : ∀ ci ∈ chunks, ci.decode.2.err = none
  steps : ∀ ci ∈ chunks, ci.decode.1.IsChain Sample.Steps
  close : CloseTimes (chunks.map ChunkInput.times)

/-- The first and the last time of each chunk of a series. -/
def spans (s : MemSeries) : List (Int64 × Int64) :=
  s.chunks.filterMap fun c ↦
    c.samples.1.head?.bind fun x ↦ c.samples.1.getLast?.map fun y ↦ (x.t, y.t)

theorem filterMap_times {chunks : List XORChunk} {out : List ChunkInput} {runs : List (List Sample)}
    (hruns : List.Forall₂ EncodesRun chunks runs)
    (hencodes : List.Forall₂ ChunkInput.Encodes out runs) :
    (chunks.filterMap fun c ↦
      c.samples.1.head?.bind fun x ↦ c.samples.1.getLast?.map fun y ↦ (x.t, y.t)) =
      out.map ChunkInput.times := by
  induction hruns generalizing out with
  | nil =>
    cases hencodes
    rfl
  | @cons c run chunks runs hc _ ih =>
    cases hencodes with
    | @cons ci _ out _ hci hrest =>
      have hfirst := hci.first_eq
      have hlast := hci.last_eq
      obtain ⟨x, hx, hxt⟩ := Option.map_eq_some_iff.mp hfirst
      obtain ⟨y, hy, hyt⟩ := Option.map_eq_some_iff.mp hlast
      rw [List.filterMap_cons, hc.samples_eq, hx, hy, List.map_cons, ← ih hrest]
      dsimp only [Option.bind_some, Option.map_some]
      rw [hxt, hyt]
      rfl

/-- The input that `create_from_head` makes of a head. -/
theorem headInputs_inRange {series : List MemSeries} {inputs : List SeriesInput}
    (h : ∀ s ∈ series, (∃ xs, s.Holds xs) ∧ s.InSteps ∧ CloseTimes (spans s))
    (hok : headInputs series = .ok inputs) : ∀ si ∈ inputs, InRange si.chunks := by
  apply headInputs_forall (P := InRange) _ hok
  intro s hs out hout
  obtain ⟨⟨xs, hholds⟩, hsteps, hclose⟩ := h s hs
  obtain ⟨runs, hruns, -⟩ := hholds.runs
  obtain ⟨out', hout', -, hencodes, -⟩ := headChunks_eq hruns hholds.sized
  rw [hout] at hout'
  cases hout'
  constructor
  · intro ci hci
    obtain ⟨run, -, hrun⟩ := Related.exists_right hencodes hci
    exact hrun.err_eq
  · intro ci hci
    obtain ⟨run, hmem, hrun⟩ := Related.exists_right hencodes hci
    obtain ⟨c, hc, hcrun⟩ := Related.exists_left hruns hmem
    rw [hrun.decode_eq, ← hcrun.samples_eq]
    exact hsteps c hc
  · rw [← filterMap_times hruns hencodes]
    exact hclose

/-! ## Reads of a head -/

theorem allIn_readOps_series {s : MemSeries} {xs : List Sample} (h : s.Holds xs) (hsteps : s.InSteps) :
    ∀ c ∈ s.chunks, AllIn c.readOps := by
  intro c hc
  obtain ⟨parts, henc, -⟩ := h.exists_parts
  obtain ⟨part, -, d, hd⟩ := Related.exists_right henc.forall₂ hc
  exact XORChunk.allIn_readOps hd.drain.2.1 (hsteps c hc)

theorem allIn_headChunks {chunks : List XORChunk} (h : ∀ c ∈ chunks, AllIn c.readOps) :
    AllIn (headChunksOps chunks) := by
  induction chunks with
  | nil => exact allIn_nil
  | cons c chunks ih =>
    have hrest := ih fun c' hc' ↦ h c' (List.mem_cons_of_mem _ hc')
    unfold headChunksOps
    split
    · exact hrest
    split
    · exact allIn_nil
    rw [allIn_append]
    refine ⟨h c List.mem_cons_self, ?_⟩
    split
    · exact hrest
    · exact allIn_nil

theorem allIn_headInputs {series : List MemSeries} (h : ∀ s ∈ series, ∀ c ∈ s.chunks, AllIn c.readOps) :
    AllIn (headInputsOps series) := by
  induction series with
  | nil => exact allIn_nil
  | cons s series ih =>
    have hrest := ih fun s' hs' ↦ h s' (List.mem_cons_of_mem _ hs')
    unfold headInputsOps
    split
    · exact hrest
    rw [allIn_append]
    refine ⟨allIn_headChunks (h s List.mem_cons_self), ?_⟩
    split
    · exact allIn_nil
    · exact hrest

/-! ## New blocks -/

/-- What `create_from_series` gives to the index. -/
theorem allIn_prepared {calls : CreateCalls} {series : List SeriesInput}
    (hrange : ∀ si ∈ series, InRange si.chunks) (hfits : WithinFormat calls series)
    {prepared : List PreparedSeries} {st : ChunkStage}
    (hok : writeSegments calls series = .ok (prepared, st)) :
    ∀ ps ∈ prepared, AllIn (addSeriesOps ps.chunkMetas) := by
  intro ps hps
  obtain ⟨hinputs, -, htimes⟩ := writeSegments_totals hok
  have hmem : ps.input ∈ series.filter SeriesInput.kept := by
    rw [← hinputs]
    exact List.mem_map_of_mem hps
  have hclose := (hrange _ (List.mem_filter.mp hmem).1).close
  have hsame : List.Forall₂ (· = ·) (ps.input.chunks.map ChunkInput.times)
      (ps.chunkMetas.map ChunkMeta.times) := by
    rw [List.forall₂_map_left_iff, List.forall₂_map_right_iff]
    exact (htimes ps hps).imp fun chk cm h ↦ Prod.ext h.1.symm h.2.symm
  rw [List.forall₂_eq_eq_eq] at hsame
  rw [hsame] at hclose
  exact allIn_addSeries (writeSegments_smallRef hok hfits.segments ps hps) hclose

theorem allIn_createFromSeries {calls : CreateCalls} {series : List SeriesInput}
    (hrange : ∀ si ∈ series, InRange si.chunks) (hfits : WithinFormat calls series) :
    AllIn (createFromSeriesOps calls series) := by
  unfold createFromSeriesOps
  split
  · exact allIn_nil
  · rename_i hok
    exact allIn_flatMap.mpr (allIn_prepared hrange hfits hok)

/-- Reading a block just created. -/
theorem allIn_readBlock {text : JsonText} {calls : CreateCalls} {series : List SeriesInput}
    {dir : BlockDir} {blk : Block} (hrange : ∀ si ∈ series, InRange si.chunks)
    (hfits : WithinFormat calls series) (hok : createFromSeries text calls series = .ok dir)
    (hopen : openDir text (some dir) = .ok blk) : AllIn (readBlockOps blk) := by
  obtain ⟨prepared, st, hsegments, hindex, hchunks, -⟩ := createFromSeries_ok hok
  obtain ⟨-, hopenIndex, hreader⟩ := openDir_ok hopen
  rw [hchunks] at hreader
  obtain ⟨rows, hstores, hprepared⟩ := stores_of_written hsegments hindex hfits hopenIndex hreader
  obtain ⟨hinputs, -, -⟩ := writeSegments_totals hsegments
  unfold readBlockOps
  rw [hstores.allPostings_eq]
  dsimp only
  rw [allIn_flatMap]
  intro id hid
  obtain ⟨r, hr, -, rfl⟩ := (Ascending.mem_pick StoredSeries.id).mp hid
  -- What is read back comes from a series of the input.
  have hps : r.prepared ∈ prepared := by
    rw [← hprepared]
    exact List.mem_map_of_mem hr
  have hinput : r.prepared.input ∈ series.filter SeriesInput.kept := by
    rw [← hinputs]
    exact List.mem_map_of_mem hps
  have hrow := hrange _ (List.mem_filter.mp hinput).1
  have hseries := hstores.series r hr
  have hadd := allIn_prepared hrange hfits hsegments r.prepared hps
  rw [hseries, allIn_append]
  refine ⟨IndexReader.allIn_series hseries hadd, ?_⟩
  dsimp only
  rw [allIn_flatMap]
  intro cm hcm
  obtain ⟨chk, hchk, -, -, hread⟩ := Related.exists_left (hstores.chunks r hr) hcm
  rw [hread]
  exact XORChunk.allIn_readOps (hrow.err_eq chk hchk) (hrow.steps chk hchk)

/-! ## Runs -/

/-- What a user does with a head over a list of records.  A replay needs no close before it. -/
inductive HeadCall
  | append (labels : Labels) (x : Sample)
  | commit
  | close
  | reopen
  | read
  | flush (text : JsonText) (calls : CreateCalls)

namespace HeadCall

/-- The head behind a call.  `none` stands for an exception, or for a replay that fails. -/
def step (h : Head (List Bytes)) : HeadCall → Option (Head (List Bytes))
  | .append labels x => (h.append labels x).map Prod.snd
  | .commit => (h.commit listWal ⟨(), (), ()⟩).map Prod.snd
  | .close => (h.close listWal ⟨(), (), ()⟩ ()).map Prod.snd
  | .reopen => Head.openList h.wal
  | .read | .flush _ _ => some h

/-- The signed arithmetic of a call.  A close computes what its commit does. -/
def ops (h : Head (List Bytes)) : HeadCall → List Int
  | .append labels x => h.appendOps labels x
  | .commit | .close => h.commitOps listWal ⟨(), (), ()⟩
  | .reopen => replayRecordsOps h.wal {}
  | .read => h.series.allSeries.flatMap fun s ↦ s.chunks.flatMap XORChunk.readOps
  | .flush text calls => flushOps text calls h

/-- The times that a call relates to each other are less than 2^63 apart: those of two samples in a
chunk, of the first and any other sample of a record, and of the bounds of chunks that follow each
other. -/
def NearTimes (h : Head (List Bytes)) : HeadCall → Prop
  | .append labels x => h.NearLast labels x
  | .commit | .close => NearFirst h.pendingSamples
  | .reopen | .read => True
  | .flush _ _ => ∀ s ∈ h.series.allSeries, CloseTimes (spans s)

instance (h : Head (List Bytes)) (call : HeadCall) : Decidable (call.NearTimes h) :=
  match call with
  | .append labels x => inferInstanceAs (Decidable (h.NearLast labels x))
  | .commit | .close => inferInstanceAs (Decidable (NearFirst h.pendingSamples))
  | .reopen | .read => inferInstanceAs (Decidable True)
  | .flush _ _ => inferInstanceAs (Decidable (∀ s ∈ h.series.allSeries, CloseTimes (spans s)))

/-- A flush keeps within the widths of the format. -/
def Fits (h : Head (List Bytes)) : HeadCall → Prop
  | .flush _ calls => ∀ inputs, headInputs h.series.allSeries = .ok inputs → WithinFormat calls inputs
  | _ => True

end HeadCall

/-- The signed arithmetic of a run. -/
def runOps : List HeadCall → Head (List Bytes) → List Int
  | [], _ => []
  | call :: calls, h =>
    call.ops h ++
      match call.step h with
      | none => []
      | some h => runOps calls h

/-- Every call of a run has the property, on the head that it is made on. -/
def RunAll (P : Head (List Bytes) → HeadCall → Prop) : List HeadCall → Head (List Bytes) → Prop
  | [], _ => True
  | call :: calls, h => P h call ∧ ∀ h' ∈ call.step h, RunAll P calls h'

instance decidableRunAll (P : Head (List Bytes) → HeadCall → Prop) [∀ h call, Decidable (P h call)] :
    ∀ calls h, Decidable (RunAll P calls h)
  | [], _ => inferInstanceAs (Decidable True)
  | call :: calls, h =>
    have : ∀ h', Decidable (RunAll P calls h') := decidableRunAll P calls
    inferInstanceAs (Decidable (P h call ∧ ∀ h' ∈ call.step h, RunAll P calls h'))

theorem RunAll.imp {P Q : Head (List Bytes) → HeadCall → Prop} (himp : ∀ h call, P h call → Q h call)
    {calls : List HeadCall} {h : Head (List Bytes)} (hall : RunAll P calls h) : RunAll Q calls h := by
  induction calls generalizing h with
  | nil => trivial
  | cons call calls ih => exact ⟨himp h call hall.1, fun h' hstep ↦ ih (hall.2 h' hstep)⟩

namespace HeadCall

theorem allIn_ops {h : Head (List Bytes)} (he : Exact h) {call : HeadCall} (hnear : call.NearTimes h)
    (hfits : call.Fits h) : AllIn (call.ops h) := by
  obtain ⟨content, hc⟩ := he.exists_contains
  have hseries : ∀ s ∈ h.series.allSeries, (∃ xs, s.Holds xs) ∧ s.InSteps := by
    intro s hs
    have hget := hc.wf.mem_allSeries.mp hs
    exact ⟨⟨_, hc.holds hget⟩, he.inSteps _ s hget⟩
  have hreads : ∀ s ∈ h.series.allSeries, ∀ c ∈ s.chunks, AllIn c.readOps := by
    intro s hs
    obtain ⟨⟨xs, hholds⟩, hsteps⟩ := hseries s hs
    exact allIn_readOps_series hholds hsteps
  cases call with
  | append labels x => exact hc.allIn_appendOps hnear
  | commit => exact he.commitOps hnear
  | close => exact he.commitOps hnear
  | reopen => exact he.replay
  | read => exact allIn_flatMap.mpr fun s hs ↦ allIn_flatMap.mpr (hreads s hs)
  -- A flush reads every series, writes a block, and reads that back.
  | flush text calls =>
    show AllIn (flushOps text calls h)
    unfold flushOps
    rw [allIn_append]
    refine ⟨allIn_headInputs hreads, ?_⟩
    split
    · exact allIn_nil
    rename_i inputs hinputs
    have hrange := headInputs_inRange
      (fun s hs ↦ ⟨(hseries s hs).1, (hseries s hs).2, hnear s hs⟩) hinputs
    have hfit := hfits inputs hinputs
    rw [allIn_append]
    refine ⟨allIn_createFromSeries hrange hfit, ?_⟩
    split
    · exact allIn_nil
    rename_i dir hok
    split
    · exact allIn_nil
    · rename_i blk hopen
      exact allIn_readBlock hrange hfit hok hopen

theorem exact_step {h h' : Head (List Bytes)} (he : Exact h) {call : HeadCall} (hnear : call.NearTimes h)
    (hstep : call.step h = some h') : Exact h' := by
  cases call with
  | append labels x =>
    obtain ⟨⟨r, h₁⟩, happend, rfl⟩ := Option.map_eq_some_iff.mp hstep
    exact he.append hnear happend
  | commit =>
    obtain ⟨⟨ok, h₁⟩, hcommit, rfl⟩ := Option.map_eq_some_iff.mp hstep
    exact he.commit hnear hcommit
  | close =>
    obtain ⟨⟨ok, h₁⟩, hclose, rfl⟩ := Option.map_eq_some_iff.mp hstep
    exact he.close hnear hclose
  | reopen => exact he.reopen hstep
  | read =>
    cases hstep
    exact he
  | flush =>
    cases hstep
    exact he

end HeadCall

/-- Every call of the run is near and fits. -/
abbrev RunNear : List HeadCall → Head (List Bytes) → Prop :=
  RunAll fun h call ↦ call.NearTimes h ∧ call.Fits h

theorem allIn_run {calls : List HeadCall} {h : Head (List Bytes)} (he : Exact h)
    (hnear : RunNear calls h) : AllIn (runOps calls h) := by
  induction calls generalizing h with
  | nil => exact allIn_nil
  | cons call calls ih =>
    obtain ⟨⟨hcall, hfits⟩, hrest⟩ := hnear
    rw [runOps, allIn_append]
    refine ⟨HeadCall.allIn_ops he hcall hfits, ?_⟩
    split
    · exact allIn_nil
    · rename_i h' hstep
      exact ih (HeadCall.exact_step he hcall hstep) (hrest h' hstep)

/-- In every run of near calls from an empty log on, all signed arithmetic stays within 64 bits. -/
theorem runs_within_int64 {calls : List HeadCall} (hnear : RunNear calls { wal := [] }) :
    AllIn (runOps calls { wal := [] }) :=
  allIn_run Exact.fresh hnear

/-- `a="b"`. -/
def oneLabel : Labels := Labels.ofList [⟨.single 97, .single 98⟩] (by decide)

/-- The metadata of the block that the run below flushes. -/
def usualMeta : BlockMeta where
  version := 1
  ulid := Str.empty
  minTime := 7
  maxTime := 15
  stats := { numSamples := 4, numSeries := 2, numChunks := 2 }
  compaction := { level := 1, sources := [Str.empty] }

/-- Two sessions with two series, and a flush. -/
def usualRun : List HeadCall :=
  [.append Labels.empty ⟨7, 0⟩, .append oneLabel ⟨9, 0⟩, .commit, .append oneLabel ⟨10, 1⟩,
    .append oneLabel ⟨15, 1⟩, .close, .reopen, .read,
    .flush (JsonText.of [usualMeta]) { ulid := Str.empty }]

theorem runs_within_int64_usual :
    runOps usualRun { wal := [] } =
        [1, 2, 1, 5, 0, 5, 2, 9, 2, 15, 1, 5, 10, 5, 15, 10, 5, 15, 0, 6, 15, 10, 5, 15] ∧
      AllIn (runOps usualRun { wal := [] }) := by
  refine ⟨by decide +kernel, runs_within_int64 ?_⟩
  have hsmall : RunAll (fun h call ↦ call.NearTimes h ∧
      (headInputs h.series.allSeries).toOption.all fun inputs ↦ weight inputs < 2 ^ 24)
      usualRun { wal := [] } := by
    decide +kernel
  apply hsmall.imp
  rintro h call ⟨hnear, hweight⟩
  refine ⟨hnear, ?_⟩
  cases call with
  | flush text calls =>
    intro inputs hinputs
    rw [hinputs] at hweight
    exact withinFormat_of_weight calls (of_decide_eq_true hweight)
  | _ => trivial

/-- The head accepts the sample of an append. -/
def HeadCall.accepted (h : Head (List Bytes)) : HeadCall → Bool
  | .append labels x => (h.append labels x).any fun r ↦ r.1.isOk
  | _ => true

/-- The head accepts every sample of the run, and some arithmetic leaves the 64 bits. -/
def LeavesInt64 (calls : List HeadCall) : Prop :=
  RunAll (fun h call ↦ call.accepted h) calls { wal := [] } ∧ ¬ AllIn (runOps calls { wal := [] })

/-- Two samples of one series, or of two series in one record, or the bounds of one chunk. -/
theorem runs_leave_int64 :
    LeavesInt64
      [.append Labels.empty ⟨Int64.minValue, 0⟩, .append Labels.empty ⟨Int64.maxValue, 0⟩] ∧
    LeavesInt64
      [.append Labels.empty ⟨Int64.minValue, 0⟩, .append oneLabel ⟨Int64.maxValue, 0⟩, .commit] ∧
    LeavesInt64
      [.append Labels.empty ⟨Int64.minValue + 1, 0⟩, .append Labels.empty ⟨0, 0⟩,
        .append Labels.empty ⟨Int64.maxValue, 0⟩, .flush (JsonText.of []) { ulid := Str.empty }] := by
  unfold LeavesInt64
  decide +kernel

end MerlionTsdb.Block
