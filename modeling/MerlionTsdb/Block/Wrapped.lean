import MerlionTsdb.Block.StoredSelect
import MerlionTsdb.Block.Success
import Mathlib.Data.Nat.Order.Lemmas

/-!
# An index that outgrows its series ids

A series id is the offset of its entry in units of 16 bytes, cut to 32 bits.  Behind 64 GiB of entries the
ids start again at the front of the file, where a label value may hold anything.
-/

set_option maxRecDepth 2000

namespace MerlionTsdb.Block

open Chunkenc Encoding Model Wal

/-! ## The input -/

/-- A chunk with one sample, at time 1. -/
def oneSample : ChunkInput := ⟨1, 1, ⟨[0, 1, 2, 0, 0, 0, 0, 0, 0, 0, 0], by decide⟩⟩

/-- `{a="b"}`. -/
def wideLabels : Labels := .single ⟨.single 97, .single 98⟩

/-- A series of `n` equal chunks. -/
def wideSeries {n : Nat} (h : n ≤ kMaxChunkInputs) : SeriesInput where
  labels := wideLabels
  chunks := List.replicate n oneSample
  length_le := by
    rw [List.length_replicate]
    exact h

/-- The meta of a chunk at time 0, which no series has. -/
def hiddenMeta : ChunkMeta := ⟨0, 0, 8⟩

/-- A label value that holds the entry of a series without labels. -/
def hiddenValue : Str where
  bytes := List.replicate 13 99 ++ (sectionUv (seriesPayload [] [hiddenMeta]) ++ List.replicate 4 99)
  length_le := by decide

/-- `a` with that value. -/
def hidingLabels : Labels := .single ⟨.single 97, hiddenValue⟩

def hidingSeries : SeriesInput where
  labels := hidingLabels
  chunks := [oneSample]
  length_le := by decide

/-! ## The entry of the first series -/

/-- The metas of chunks with one sample at time 1. -/
def AtOne (metas : List ChunkMeta) : Prop := ∀ m ∈ metas, m.minTime = 1 ∧ m.maxTime = 1

theorem length_putVarint_le (x : Int64) : (Varint.putVarint x).length ≤ 10 :=
  Varint.putUvarint_length_le _

example : (Varint.putVarint Int64.minValue).length = 10 := by decide

theorem length_putUvarint_pos (x : UInt64) : 0 < (Varint.putUvarint x).length :=
  List.length_pos_iff.mpr (Varint.putUvarint_ne_nil x)

/-- One more chunk takes from 3 to 12 bytes. -/
theorem length_chunkDeltas_concat (ref0 : Int64) {metas : List ChunkMeta} (h : AtOne metas)
    {m : ChunkMeta} (hm : m.minTime = 1 ∧ m.maxTime = 1) :
    (chunkDeltas 1 ref0 metas).length + 3 ≤ (chunkDeltas 1 ref0 (metas ++ [m])).length ∧
      (chunkDeltas 1 ref0 (metas ++ [m])).length ≤ (chunkDeltas 1 ref0 metas).length + 12 := by
  induction metas generalizing ref0 with
  | nil =>
    have hpos := length_putUvarint_pos ((m.ref.toInt64 - ref0).toUInt64 <<< 1 ^^^
      ((m.ref.toInt64 - ref0) >>> 63).toUInt64)
    have hle := length_putVarint_le (m.ref.toInt64 - ref0)
    have hzero : (Varint.putUvarint ((1 : Int64) - 1).toUInt64).length = 1 := by decide
    unfold Varint.putVarint at hle
    rw [List.nil_append]
    unfold chunkDeltas chunkDeltas Varint.putVarint
    rw [hm.1, hm.2]
    simp only [List.length_append, List.length_nil, hzero]
    omega
  | cons c metas ih =>
    obtain ⟨hlow, hhigh⟩ := ih c.ref.toInt64 (fun c' hc' ↦ h c' (List.mem_cons_of_mem _ hc'))
    rw [List.cons_append]
    unfold chunkDeltas
    rw [(h c List.mem_cons_self).2]
    simp only [List.length_append]
    omega

theorem length_chunkMetasBytes_concat {metas : List ChunkMeta} (h : AtOne metas) {m : ChunkMeta}
    (hm : m.minTime = 1 ∧ m.maxTime = 1) :
    (chunkMetasBytes metas).length + 3 ≤ (chunkMetasBytes (metas ++ [m])).length ∧
      (chunkMetasBytes (metas ++ [m])).length ≤ (chunkMetasBytes metas).length + 12 := by
  cases metas with
  | nil =>
    have hpos := length_putUvarint_pos m.ref
    have hle := Varint.putUvarint_length_le m.ref
    have hone : (Varint.putVarint 1).length = 1 := by decide
    have hzero : (Varint.putUvarint ((1 : Int64) - 1).toUInt64).length = 1 := by decide
    unfold Varint.maxVarintLen64 at hle
    simp only [List.nil_append, chunkMetasBytes, chunkDeltas, hm.1, hm.2, List.length_append,
      List.length_nil, hone, hzero]
    omega
  | cons c metas =>
    have hstep := length_chunkDeltas_concat c.ref.toInt64
      (fun c' hc' ↦ h c' (List.mem_cons_of_mem _ hc')) hm
    simp only [List.cons_append, chunkMetasBytes, (h c List.mem_cons_self).2, List.length_append]
    omega

/-- An entry of 64 GiB, but for 64 bytes: between two multiples of 16. -/
theorem length_wide_section {metas : List ChunkMeta} (hcount : 2 ^ 28 ≤ metas.length)
    (hcount' : metas.length < 2 ^ 35) (hlow : 2 ^ 36 - 62 ≤ (chunkMetasBytes metas).length)
    (hhigh : (chunkMetasBytes metas).length ≤ 2 ^ 36 - 50) :
    2 ^ 36 - 44 ≤ (sectionUv (seriesPayload [(1, 2)] metas)).length ∧
      (sectionUv (seriesPayload [(1, 2)] metas)).length ≤ 2 ^ 36 - 32 := by
  -- The count takes five bytes, and the length of the payload six.
  have hcountLen : (Varint.putUvarint (UInt64.ofNat metas.length)).length = 5 := by
    have hnat : (UInt64.ofNat metas.length).toNat = metas.length := by
      rw [UInt64.toNat_ofNat_of_lt']
      rw [UInt64.size]
      omega
    apply Varint.length_putUvarint (by decide)
    · right
      rw [hnat]
      omega
    · rw [hnat]
      omega
  have hlabels : (labelRefsBytes [(1, 2)]).length = 2 := by decide
  have hone : (Varint.putUvarint (UInt64.ofNat [((1 : UInt32), (2 : UInt32))].length)).length = 1 := by
    decide
  have hpayload : (seriesPayload [(1, 2)] metas).length = (chunkMetasBytes metas).length + 8 := by
    unfold seriesPayload
    simp only [List.length_append, hone, hlabels, hcountLen]
    omega
  have hlenLen :
      (Varint.putUvarint (UInt64.ofNat (seriesPayload [(1, 2)] metas).length)).length = 6 := by
    have hnat : (UInt64.ofNat (seriesPayload [(1, 2)] metas).length).toNat =
        (chunkMetasBytes metas).length + 8 := by
      rw [UInt64.toNat_ofNat_of_lt', hpayload]
      rw [UInt64.size, hpayload]
      omega
    apply Varint.length_putUvarint (by decide)
    · right
      rw [hnat]
      omega
    · rw [hnat]
      omega
  unfold sectionUv
  rw [List.length_append, List.length_append, hlenLen, hpayload, length_putBe32]
  omega

/-- The metas of `n` equal chunks. -/
def metasOf (st : ChunkStage) (n : Nat) : List ChunkMeta :=
  match st.writeAll (List.replicate n oneSample) with
  | .ok (metas, _) => metas
  | .error _ => []

theorem metasOf_eq {st : ChunkStage} (h : st.Sound) (n : Nat) :
    (∃ st', st.writeAll (List.replicate n oneSample) = .ok (metasOf st n, st') ∧ st'.Sound) ∧
      AtOne (metasOf st n) ∧ (metasOf st n).length = n := by
  obtain ⟨metas, st', hok, h'⟩ := h.writeAll (List.replicate n oneSample)
  have heq : metasOf st n = metas := by
    unfold metasOf
    rw [hok]
  rw [heq]
  have htimes := (writeAll_totals hok).2
  refine ⟨⟨st', hok, h'⟩, fun m hm ↦ ?_, ?_⟩
  · obtain ⟨chk, hchk, hmin, hmax⟩ := Related.exists_left htimes hm
    rw [hmin, hmax, List.eq_of_mem_replicate hchk]
    exact ⟨rfl, rfl⟩
  · rw [← htimes.length_eq, List.length_replicate]

theorem length_metasOf_succ {st : ChunkStage} (h : st.Sound) (n : Nat) :
    (chunkMetasBytes (metasOf st n)).length + 3 ≤ (chunkMetasBytes (metasOf st (n + 1))).length ∧
      (chunkMetasBytes (metasOf st (n + 1))).length ≤ (chunkMetasBytes (metasOf st n)).length + 12 := by
  obtain ⟨⟨st₁, hok, h₁⟩, hat, -⟩ := metasOf_eq h n
  obtain ⟨cm, st₂, hwrite, -⟩ := h₁.write oneSample
  have hconcat := ChunkStage.writeAll_concat hok hwrite
  rw [← List.replicate_succ'] at hconcat
  have heq : metasOf st (n + 1) = metasOf st n ++ [cm] := by
    rw [metasOf, hconcat]
  have hcm : cm.minTime = 1 ∧ cm.maxTime = 1 := by
    apply (metasOf_eq h (n + 1)).2.1
    rw [heq]
    exact List.mem_append_right _ (List.mem_singleton_self _)
  rw [heq]
  exact length_chunkMetasBytes_concat hat hcm

/-- There is a number of chunks whose metas take just under 64 GiB. -/
theorem exists_wide {st : ChunkStage} (h : st.Sound) :
    ∃ n, 0 < n ∧ n < 2 ^ 35 ∧
      2 ^ 36 - 44 ≤ (sectionUv (seriesPayload [(1, 2)] (metasOf st n))).length ∧
      (sectionUv (seriesPayload [(1, 2)] (metasOf st n))).length ≤ 2 ^ 36 - 32 := by
  have hbounds : ∀ n, 3 * n ≤ (chunkMetasBytes (metasOf st n)).length ∧
      (chunkMetasBytes (metasOf st n)).length ≤ 12 * n := by
    intro n
    induction n with
    | zero =>
      have hnil : metasOf st 0 = [] := List.length_eq_zero_iff.mp (metasOf_eq h 0).2.2
      rw [hnil]
      exact ⟨le_rfl, le_rfl⟩
    | succ n ih =>
      have hstep := length_metasOf_succ h n
      omega
  -- The last number of chunks that stays below the limit comes within 12 bytes of it.
  obtain ⟨n, hbelow, habove⟩ := @Nat.exists_not_and_succ_of_not_zero_of_exists
    (fun n ↦ 2 ^ 36 - 50 < (chunkMetasBytes (metasOf st n)).length)
    (by
      have hzero := hbounds 0
      omega)
    ⟨2 ^ 35, by
      have hmany := hbounds (2 ^ 35)
      omega⟩
  have hstep := length_metasOf_succ h n
  have hn := hbounds n
  have hsection := @length_wide_section (metasOf st n)
  rw [(metasOf_eq h n).2.2] at hsection
  refine ⟨n, by omega, by omega, ?_⟩
  exact hsection (by omega) (by omega) (by omega) (by omega)

/-! ## The index -/

/-- The symbols of the two series. -/
def hidingSymbols : List Str :=
  [Str.empty, .single 97, .single 98, hiddenValue]

/-- The writer behind the symbols. -/
def hidingWriter : IndexWriter where
  buf := indexHeader ++ section32 (symbolsPayload hidingSymbols)
  stage := .series
  nextSymRef := 4
  lastSymbol := hiddenValue
  anySymbol := true
  symbolsLenOff := 9
  offSymbols := 5

def hidingRefs : List (Str × UInt32) :=
  [(Str.empty, 0), (.single 97, 1), (.single 98, 2), (hiddenValue, 3)]

/-- The prepared series. -/
def hidingPrepared {n : Nat} (h : n ≤ kMaxChunkInputs) (metas metas' : List ChunkMeta) :
    List PreparedSeries :=
  [⟨wideSeries h, metas⟩, ⟨hidingSeries, metas'⟩]

section

variable {n : Nat} (h : n ≤ kMaxChunkInputs) (metas metas' : List ChunkMeta)

theorem symbolsOf_hiding : symbolsOf (hidingPrepared h metas metas') = hidingSymbols := by
  show Ascending.sortUnique [Str.empty, ⟨[97], _⟩, ⟨[98], _⟩, ⟨[97], _⟩, hiddenValue] = hidingSymbols
  decide

theorem startIndex_hiding :
    startIndex (hidingPrepared h metas metas') = .ok (hidingRefs, hidingWriter) := by
  unfold startIndex
  rw [symbolsOf_hiding]
  decide

theorem postingLists_hiding :
    postingLists (labelIds (hidingPrepared h metas metas') [4, 2]) =
      [(toLex (⟨[97], by decide⟩, ⟨[98], by decide⟩), [4]), (toLex (⟨[97], by decide⟩, hiddenValue), [2])] := by
  show postingLists [(toLex (⟨[97], _⟩, ⟨[98], _⟩), 4), (toLex (⟨[97], _⟩, hiddenValue), 2)] = _
  decide

end

theorem length_padTo_series (buf : Bytes) :
    (padTo buf kIndexSeriesAlign).length = (buf.length + 15) / 16 * 16 := by
  unfold padTo kIndexSeriesAlign
  split
  · rw [List.length_append, List.length_replicate]
    omega
  · omega

example : (padTo indexHeader kIndexSeriesAlign).length = 16 := by decide

/-- What the index holds within its format: the symbols, the posting lists, and the entry in the value. -/
def hidingContents : IndexContents where
  symbols := hidingSymbols
  series := [⟨2, [], [hiddenMeta]⟩]
  postings := [⟨.single 97, .single 98, [4]⟩, ⟨.single 97, hiddenValue, [2]⟩]

/-- The entry is part of the symbol section. -/
theorem sectionsLaid_hidingWriter :
    SectionsLaid hidingWriter { hidingContents with postings := [] } := by
  have hlen : (symbolsPayload hidingSymbols).length < 2 ^ 32 := by decide
  constructor
  · exact ⟨by decide, by decide⟩
  · exact ⟨[], section32 (symbolsPayload hidingSymbols), rfl, rfl⟩
  · rfl
  · exact hlen
  · exact Placed.of_append indexHeader _
  · intro s hs
    rw [List.mem_singleton.mp hs]
    refine ⟨by decide, hidingWriter.buf.take 32, hidingWriter.buf.drop 42, ?_, ?_⟩
    · decide
    · decide
  · exact List.pairwise_singleton _ _
  · exact List.Forall₂.nil

/-- A series more, and what it leaves as it was. -/
theorem addSeries_grows {w : IndexWriter} (hstage : w.stage = .series)
    (labelRefs : List (UInt32 × UInt32)) (metas : List ChunkMeta) :
    ∃ w', w.addSeries labelRefs metas =
        (.ok (UInt32.ofNat ((padTo w.buf kIndexSeriesAlign).length / kIndexSeriesAlign)), w') ∧
      w'.buf = padTo w.buf kIndexSeriesAlign ++ sectionUv (seriesPayload labelRefs metas) ∧
      w'.stage = .series ∧ w'.offSymbols = w.offSymbols ∧ w'.pendingPostings = w.pendingPostings := by
  obtain ⟨off, hadd⟩ := IndexWriter.addSeries_eq hstage labelRefs metas
  exact ⟨_, hadd, rfl, hstage, rfl, rfl⟩

theorem finishSeries_grows {w : IndexWriter} (hstage : w.stage = .series) :
    ∃ w', w.finishSeries = (.ok (), w') ∧ w'.buf = padTo w.buf kIndexSeriesAlign ∧
      w'.offSymbols = w.offSymbols ∧ w'.pendingPostings = w.pendingPostings ∧ w'.stage = .postings := by
  unfold IndexWriter.finishSeries
  rw [if_neg (not_not.mpr hstage)]
  exact ⟨_, rfl, rfl, rfl, rfl, rfl⟩

/-- The first series is so long that the id of the second is cut to 2. -/
theorem addAllSeries_hiding {n : Nat} (h : n ≤ kMaxChunkInputs) {metas : List ChunkMeta}
    (metas' : List ChunkMeta)
    (hlow : 2 ^ 36 - 44 ≤ (sectionUv (seriesPayload [(1, 2)] metas)).length)
    (hhigh : (sectionUv (seriesPayload [(1, 2)] metas)).length ≤ 2 ^ 36 - 32) :
    ∃ w more, addAllSeries hidingRefs hidingWriter (hidingPrepared h metas metas') = .ok ([4, 2], w) ∧
      w.buf = hidingWriter.buf ++ more ∧ w.stage = .series ∧ w.offSymbols = hidingWriter.offSymbols ∧
      w.pendingPostings = [] ∧
      w.buf.length = 2 ^ 36 + 32 + (sectionUv (seriesPayload [(1, 3)] metas')).length := by
  have hstart : (padTo hidingWriter.buf kIndexSeriesAlign).length = 64 := by decide
  obtain ⟨zeros, hzeros⟩ := padTo_eq hidingWriter.buf kIndexSeriesAlign
  obtain ⟨w₁, hfirst, hbuf₁, hstage₁, hoff₁, hpending₁⟩ :=
    @addSeries_grows hidingWriter rfl [(1, 2)] metas
  -- The second entry starts 32 bytes behind 64 GiB.
  have hnext : (padTo w₁.buf kIndexSeriesAlign).length = 2 ^ 36 + 32 := by
    rw [length_padTo_series, hbuf₁, List.length_append, hstart]
    omega
  obtain ⟨zeros₁, hzeros₁⟩ := padTo_eq w₁.buf kIndexSeriesAlign
  obtain ⟨w₂, hsecond, hbuf₂, hstage₂, hoff₂, hpending₂⟩ := addSeries_grows hstage₁ [(1, 3)] metas'
  have hid₁ : UInt32.ofNat (64 / kIndexSeriesAlign) = 4 := by decide
  have hid₂ : UInt32.ofNat ((2 ^ 36 + 32) / kIndexSeriesAlign) = 2 := by decide
  rw [hstart, hid₁] at hfirst
  rw [hnext, hid₂] at hsecond
  have hlabels₁ : labelRefsOf hidingRefs wideLabels.entries = .ok [(1, 2)] := by decide
  have hlabels₂ : labelRefsOf hidingRefs hidingLabels.entries = .ok [(1, 3)] := by decide
  refine ⟨w₂, zeros ++ (sectionUv (seriesPayload [(1, 2)] metas) ++
    (zeros₁ ++ sectionUv (seriesPayload [(1, 3)] metas'))), ?_, ?_, hstage₂, hoff₂.trans hoff₁,
      hpending₂.trans hpending₁, ?_⟩
  · apply addAllSeries_cons_iff.mpr
    refine ⟨_, _, _, [2], hlabels₁, hfirst, ?_, rfl⟩
    exact addAllSeries_cons_iff.mpr ⟨_, _, _, [], hlabels₂, hsecond, rfl, rfl⟩
  · rw [hbuf₂, hzeros₁, hbuf₁, hzeros]
    simp only [List.append_assoc]
  · rw [hbuf₂, List.length_append, hnext]

theorem addPostings_grows {w : IndexWriter} (hstage : w.stage = .postings) (name value : Str)
    {ids : List UInt32} (hids : IndexWriter.ascending ids = true) :
    ∃ w' off, w.addPostings name value ids = (.ok (), w') ∧
      w'.buf = padTo w.buf 4 ++ section32 (postingsPayload ids) ∧ w'.stage = .postings ∧
      w'.pendingPostings = w.pendingPostings ++ [{ name := name, value := value, offset := off }] :=
  ⟨_, _, IndexWriter.addPostings_eq hstage hids, rfl, hstage, rfl⟩

/-- The whole index, up to its close. -/
theorem buildIndex_hiding {n : Nat} (h : n ≤ kMaxChunkInputs) {metas : List ChunkMeta}
    (m : ChunkMeta) (hlow : 2 ^ 36 - 44 ≤ (sectionUv (seriesPayload [(1, 2)] metas)).length)
    (hhigh : (sectionUv (seriesPayload [(1, 2)] metas)).length ≤ 2 ^ 36 - 32) :
    ∃ w, buildIndex (hidingPrepared h metas [m]) = .ok w ∧ SectionsLaid w hidingContents ∧
      w.stage = .postings ∧ w.buf.length ≤ 2 ^ 37 ∧ (tablePayload w.pendingPostings).length ≤ 100 := by
  obtain ⟨w₂, more, hseries, hbuf₂, hstage₂, hoff₂, hpending₂, hlen₂⟩ :=
    addAllSeries_hiding h [m] hlow hhigh
  have hlaid₂ : SectionsLaid w₂ { hidingContents with postings := [] } :=
    sectionsLaid_hidingWriter.grow hbuf₂ hoff₂ hpending₂ (by
      rw [hstage₂]
      exact ⟨by decide, by decide⟩)
  -- The padding of the series section.
  obtain ⟨w₃, hfinish, hbuf₃, hoff₃, hpending₃, hstage₃⟩ := finishSeries_grows hstage₂
  obtain ⟨zeros, hzeros⟩ := padTo_eq w₂.buf kIndexSeriesAlign
  have hlaid₃ : SectionsLaid w₃ { hidingContents with postings := [] } :=
    hlaid₂.grow (hbuf₃.trans hzeros) hoff₃ hpending₃ (by
      rw [hstage₃]
      exact ⟨by decide, by decide⟩)
  -- The two posting lists.
  obtain ⟨w₄, off₄, hfirst, hbuf₄, hstage₄, hpending₄⟩ :=
    @addPostings_grows w₃ hstage₃ ⟨[97], by decide⟩ ⟨[98], by decide⟩ [4] rfl
  obtain ⟨w₅, off₅, hsecond, hbuf₅, hstage₅, hpending₅⟩ :=
    @addPostings_grows w₄ hstage₄ ⟨[97], by decide⟩ hiddenValue [2] rfl
  have hlists : addAllPostings w₃ (postingLists (labelIds (hidingPrepared h metas [m]) [4, 2])) =
      .ok w₅ := by
    rw [postingLists_hiding]
    exact addAllPostings_cons_iff.mpr
      ⟨w₄, hfirst, addAllPostings_cons_iff.mpr ⟨w₅, hsecond, rfl⟩⟩
  have hlaid₅ := addAllPostings_ok hlaid₃ hlists (by
    rw [postingLists_hiding]
    decide)
  rw [postingLists_hiding] at hlaid₅
  refine ⟨w₅, ?_, hlaid₅, hstage₅, ?_, ?_⟩
  · exact buildIndex_iff.mpr
      ⟨_, _, _, w₂, w₃, startIndex_hiding h metas [m], hseries, hfinish, hlists⟩
  · have hpad₃ := length_padTo_le w₂.buf kIndexSeriesAlign
    have hpad₄ := length_padTo_le w₃.buf 4
    have hpad₅ := length_padTo_le w₄.buf 4
    have hlist₄ : (section32 (postingsPayload [4])).length = 16 := by decide
    have hlist₅ : (section32 (postingsPayload [2])).length = 16 := by decide
    have hmin := length_putVarint_le m.minTime
    have hspan := Varint.putUvarint_length_le (m.maxTime - m.minTime).toUInt64
    have href := Varint.putUvarint_length_le m.ref
    have hcount : (Varint.putUvarint (UInt64.ofNat [m].length)).length = 1 := by
      show (Varint.putUvarint 1).length = 1
      decide
    have hlabels : (Varint.putUvarint (UInt64.ofNat [((1 : UInt32), (3 : UInt32))].length) ++
        labelRefsBytes [(1, 3)]).length = 3 := by decide
    have hlenLen := Varint.putUvarint_length_le (UInt64.ofNat (seriesPayload [(1, 3)] [m]).length)
    have hsection : (sectionUv (seriesPayload [(1, 3)] [m])).length ≤ 100 := by
      unfold sectionUv
      unfold Varint.maxVarintLen64 at hspan href hlenLen
      rw [List.length_append, List.length_append, length_putBe32]
      rw [List.length_append] at hlabels
      have hpayload : (seriesPayload [(1, 3)] [m]).length ≤ 50 := by
        simp only [seriesPayload, chunkMetasBytes, chunkDeltas, List.length_append, List.length_nil,
          hcount]
        omega
      omega
    have hlen₃ := congrArg List.length hbuf₃
    have hlen₄ := congrArg List.length hbuf₄
    have hlen₅ := congrArg List.length hbuf₅
    rw [List.length_append, hlist₄] at hlen₄
    rw [List.length_append, hlist₅] at hlen₅
    have halign : kIndexSeriesAlign = 16 := rfl
    omega
  · rw [hpending₅, hpending₄, hpending₃, hpending₂]
    have hoff := Varint.putUvarint_length_le off₄
    have hoff' := Varint.putUvarint_length_le off₅
    have hname : (putUvarintStr ⟨[97], by decide⟩).length = 2 := by decide
    have hvalue : (putUvarintStr ⟨[98], by decide⟩).length = 2 := by decide
    have hvalue' : (putUvarintStr hiddenValue).length = 28 := by decide
    have htwo : (Varint.putUvarint 2).length = 1 := by decide
    unfold Varint.maxVarintLen64 at hoff hoff'
    simp only [tablePayload, List.nil_append, List.cons_append, List.flatMap_cons, List.flatMap_nil,
      PendingEntry.bytes, List.length_append, length_putBe32, hname, hvalue, hvalue', htwo,
      List.length_nil]
    omega

/-- The index is written and read, and under the id of the second series stands the entry in its value. -/
theorem writeIndex_hiding {n : Nat} (h : n ≤ kMaxChunkInputs) {metas : List ChunkMeta}
    (m : ChunkMeta) (hlow : 2 ^ 36 - 44 ≤ (sectionUv (seriesPayload [(1, 2)] metas)).length)
    (hhigh : (sectionUv (seriesPayload [(1, 2)] metas)).length ≤ 2 ^ 36 - 32) :
    ∃ file r, writeIndex {} (hidingPrepared h metas [m]) = .ok file ∧
      IndexReader.openFile file = .ok r ∧ r.postings ⟨[97], by decide⟩ hiddenValue = .ok [2] ∧
      r.series 2 = .ok { labels := .empty, chunks := [hiddenMeta] } := by
  obtain ⟨w, hbuild, hlaid, hstage, hlen, htable⟩ := buildIndex_hiding h m hlow hhigh
  have hmax : w.appendTables.buf.length ≤ kMaxSize := by
    obtain ⟨toc, -, -, hbuf⟩ := w.appendTables_buf
    have htoc : toc.bytes.length = 48 := rfl
    have hk : kMaxSize = 2 ^ 63 - 1 := rfl
    rw [hbuf, List.length_append, List.length_append, List.length_append, length_section32, htoc,
      length_putBe32]
    omega
  obtain ⟨w', file, hclose⟩ := close_default hstage hmax
  obtain ⟨r, hopen, hserves⟩ := hlaid.serves (by omega) hclose
  refine ⟨file, r, ?_, hopen, ?_, ?_⟩
  · exact writeIndex_iff.mpr ⟨w, w', hbuild, hclose⟩
  · rw [hserves.postings_eq]
    decide
  · exact hserves.series _ (List.mem_singleton_self _) .empty List.Forall₂.nil

/-! ## The chunks -/

theorem length_mul_le_flatten {α : Type} {k : Nat} {lists : List (List α)}
    (h : ∀ l ∈ lists, k ≤ l.length) : lists.length * k ≤ lists.flatten.length := by
  induction lists with
  | nil => simp
  | cons l lists ih =>
    have hl := h l List.mem_cons_self
    have hrest := ih fun l' hl' ↦ h l' (List.mem_cons_of_mem _ hl')
    rw [List.length_cons, List.flatten_cons, List.length_append, Nat.succ_mul]
    omega

/-- A segment is only left when it is nearly full. -/
theorem packChunk_full {segs : List (List ChunkPayload) × List ChunkPayload}
    (hdone : ∀ chunks ∈ segs.1, 2 ^ 24 ≤ chunks.length) (hcur : ∀ c ∈ segs.2, c = oneSample.payload) :
    (∀ chunks ∈ (packChunk kDefaultChunksSegmentSize segs oneSample.payload).1, 2 ^ 24 ≤ chunks.length) ∧
      ∀ c ∈ (packChunk kDefaultChunksSegmentSize segs oneSample.payload).2, c = oneSample.payload := by
  have hframe : (frame oneSample.payload).length = 17 := by decide
  have hlen : (segmentBytes segs.2).length = 8 + 17 * segs.2.length := by
    unfold segmentBytes
    rw [List.length_append, length_segmentHeader, List.eq_replicate_of_mem hcur, List.length_replicate,
      List.flatMap_replicate, List.length_flatten, List.map_replicate, List.sum_replicate_nat, hframe]
    show 8 + segs.2.length * 17 = _
    omega
  unfold packChunk
  dsimp only
  split
  · rename_i hroll
    have hsize := hroll.2
    rw [hlen] at hsize
    have hworst : Varint.maxVarintLen64 + kChunkEncodingSize + oneSample.payload.data.length +
        kChunkCrcSize = 26 := rfl
    rw [hworst] at hsize
    have hdefault : kDefaultChunksSegmentSize = 2 ^ 29 := rfl
    refine ⟨fun chunks hchunks ↦ ?_, fun c hc ↦ List.mem_singleton.mp hc⟩
    rcases List.mem_append.mp hchunks with hchunks | hchunks
    · exact hdone chunks hchunks
    · rw [List.mem_singleton.mp hchunks]
      omega
  · refine ⟨hdone, fun c hc ↦ ?_⟩
    rcases List.mem_append.mp hc with hc | hc
    · exact hcur c hc
    · exact List.mem_singleton.mp hc

/-- So many chunks need few segments. -/
theorem length_packChunks_replicate {n : Nat} (hn : n ≤ 2 ^ 36) :
    (packChunks kDefaultChunksSegmentSize (List.replicate n oneSample.payload)).length < 999999 := by
  have hfull : ∀ n, (∀ chunks ∈ ((List.replicate n oneSample.payload).foldl
      (packChunk kDefaultChunksSegmentSize) ([], [])).1, 2 ^ 24 ≤ chunks.length) ∧
      ∀ c ∈ ((List.replicate n oneSample.payload).foldl
        (packChunk kDefaultChunksSegmentSize) ([], [])).2, c = oneSample.payload := by
    intro n
    induction n with
    | zero => exact ⟨by simp, by simp⟩
    | succ n ih =>
      rw [List.replicate_succ', List.foldl_append]
      exact packChunk_full ih.1 ih.2
  have hflat := flatten_foldl_packChunk kDefaultChunksSegmentSize
    (List.replicate n oneSample.payload) ([], [])
  have hcount := congrArg List.length hflat
  have hmany := length_mul_le_flatten (hfull n).1
  simp only [List.flatten_append, List.length_append, List.length_replicate, List.nil_append,
    List.flatten_singleton] at hcount
  unfold packChunks
  rw [List.length_append, List.length_singleton]
  omega

/-- The chunk at the front of the first segment stays there. -/
theorem foldl_packChunk_front (size : Nat) {c : ChunkPayload} (chunks : List ChunkPayload)
    {segs : List (List ChunkPayload) × List ChunkPayload}
    (h : ∃ first rest, segs.1 ++ [segs.2] = (c :: first) :: rest) :
    ∃ first rest, (chunks.foldl (packChunk size) segs).1 ++
      [(chunks.foldl (packChunk size) segs).2] = (c :: first) :: rest := by
  induction chunks generalizing segs with
  | nil => exact h
  | cons c' chunks ih =>
    obtain ⟨done, cur⟩ := segs
    obtain ⟨first, rest, hsegs⟩ := h
    apply ih
    dsimp only at hsegs
    unfold packChunk
    dsimp only
    split
    · exact ⟨first, rest ++ [[c']], by rw [hsegs]; rfl⟩
    · -- The last segment grows at its end, and it may be the first.
      cases done with
      | nil =>
        rw [List.nil_append, List.cons.injEq] at hsegs
        exact ⟨first ++ [c'], rest, by rw [hsegs.1, ← hsegs.2]; rfl⟩
      | cons d done =>
        rw [List.cons_append, List.cons.injEq] at hsegs
        exact ⟨first, done ++ [cur ++ [c']], by rw [hsegs.1]; rfl⟩

/-- The first chunk of the first segment. -/
theorem packChunks_first (size : Nat) (c : ChunkPayload) (chunks : List ChunkPayload) :
    ({ seq := 0, offset := 8 }, c) ∈ locate 0 (packChunks size (c :: chunks)) := by
  obtain ⟨first, rest, hsegs⟩ :=
    @foldl_packChunk_front size c chunks ([], [c]) ⟨[], [], rfl⟩
  have hpack : packChunks size (c :: chunks) = (c :: first) :: rest := by
    rw [← hsegs]
    unfold packChunks
    rw [List.foldl_cons]
    have hone : packChunk size ([], []) c = ([], [c]) := by
      unfold packChunk
      rw [if_neg (by simp)]
      rfl
    rw [hone]
  rw [hpack]
  exact List.mem_append_left _ List.mem_cons_self

/-! ## The block -/

theorem totals_replicate (t : Totals) (ht : t.minTime = 1 ∧ t.maxTime = 1) (n : Nat) :
    ((List.replicate n oneSample).foldl Totals.add t).minTime = 1 ∧
      ((List.replicate n oneSample).foldl Totals.add t).maxTime = 1 := by
  induction n generalizing t with
  | zero => exact ht
  | succ n ih =>
    rw [List.replicate_succ, List.foldl_cons]
    apply ih
    unfold Totals.add
    dsimp only
    rw [ht.1, ht.2]
    decide

/-- The first step for the two series. -/
theorem writeSegments_hiding (ulid : Str) :
    ∃ (n : Nat) (h : n ≤ kMaxChunkInputs) (metas : List ChunkMeta) (m : ChunkMeta) (st : ChunkStage),
      n ≤ 2 ^ 35 ∧
      writeSegments { ulid := ulid } [wideSeries h, hidingSeries] =
        .ok (hidingPrepared h metas [m], st) ∧
      2 ^ 36 - 44 ≤ (sectionUv (seriesPayload [(1, 2)] metas)).length ∧
      (sectionUv (seriesPayload [(1, 2)] metas)).length ≤ 2 ^ 36 - 32 := by
  obtain ⟨w, files, hopen, hsound⟩ := ChunkStage.exists_sound
  obtain ⟨n, hpos, hn, hlow, hhigh⟩ := exists_wide hsound
  have hmax : n ≤ kMaxChunkInputs := hn.le.trans (by decide)
  obtain ⟨⟨st₁, hwide, h₁⟩, -, -⟩ := metasOf_eq hsound n
  obtain ⟨m, st₂, hwrite, h₂⟩ := h₁.write oneSample
  refine ⟨n, hmax, _, m, st₂, hn.le, ?_, hlow, hhigh⟩
  have hhiding : st₁.writeAll hidingSeries.chunks = .ok ([m], st₂) :=
    ChunkStage.writeAll_cons_iff.mpr ⟨m, st₂, [], hwrite, rfl, rfl⟩
  have hne : (wideSeries hmax).chunks ≠ [] := by
    obtain ⟨k, rfl⟩ := Nat.exists_eq_add_one.mpr hpos
    exact List.cons_ne_nil _ _
  have hrest : st₁.prepare [hidingSeries] = .ok ([⟨hidingSeries, [m]⟩], st₂) :=
    (ChunkStage.prepare_cons_iff (List.cons_ne_nil _ _)).mpr ⟨[m], st₂, [], hhiding, rfl, rfl⟩
  have hprepare := (ChunkStage.prepare_cons_iff hne).mpr ⟨_, st₁, _, hwide, hrest, rfl⟩
  exact writeSegments_iff.mpr ⟨w, files, hopen, hprepare, h₂.close⟩

/-- A block of two series, all of whose chunks are at time 1, answers a query for time 0 with a series that
none of its input had. -/
theorem exists_hiding :
    ∃ (n : Nat) (h : n ≤ kMaxChunkInputs) (text : JsonText) (dir : BlockDir) (blk : Block),
      createFromSeries text { ulid := Str.empty } [wideSeries h, hidingSeries] = .ok dir ∧
      openDir text (some dir) = .ok blk ∧
      blk.select [.equal ⟨[97], by decide⟩ hiddenValue] 0 0 =
        .ok [{ labels := .empty, chunks := [.fromBytes oneSample.bytes.bytes], chunkMetas := [hiddenMeta] }] ∧
      blk.blockMeta.minTime = 1 ∧ blk.blockMeta.maxTime = 1 := by
  obtain ⟨n, h, metas, m, st, hn, hsegments, hlow, hhigh⟩ := writeSegments_hiding Str.empty
  obtain ⟨file, r, hindex, hopen, hpostings, hseries⟩ := writeIndex_hiding h m hlow hhigh
  generalize hmeta : newMeta Str.empty (hidingPrepared h metas [m]) st.totals = blockMeta
  have hkeeps := JsonText.keeps_singleton blockMeta
  have hcreate := createFromSeries_default (JsonText.of [blockMeta]) hsegments hindex
  rw [hmeta] at hcreate
  have hversion : blockMeta.version = kMetaVersion1 := by
    rw [← hmeta]
    rfl
  have hblock := @openDir_default (JsonText.of [blockMeta]) {
    metaJson := some (encodeMetaJson (JsonText.of [blockMeta]) blockMeta)
    index := file
    chunks := st.files
    tombstones := some [] } blockMeta rfl hkeeps hversion r hopen
  -- The first chunk of all is read under the hidden reference.
  have hpayloads : payloads [wideSeries h, hidingSeries] =
      List.replicate (n + 1) oneSample.payload := by
    unfold payloads wideSeries hidingSeries
    simp [List.replicate_succ']
  have hfew := @length_packChunks_replicate (n + 1) (by omega)
  obtain ⟨-, hread⟩ := writeSegments_located hsegments (by rw [hpayloads]; exact hfew)
  have hfirst := packChunks_first kDefaultChunksSegmentSize oneSample.payload
    (List.replicate n oneSample.payload)
  rw [hpayloads, List.replicate_succ] at hread
  have hchunk := hread _ hfirst
  have htotals := (writeSegments_totals hsegments).2.1
  have hall : [wideSeries h, hidingSeries].flatMap SeriesInput.chunks =
      oneSample :: List.replicate n oneSample := by
    rw [← List.replicate_succ, List.replicate_succ']
    rfl
  have htimes := totals_replicate (Totals.add {} oneSample) (by decide) n
  rw [hall, List.foldl_cons] at htotals
  rw [← htotals] at htimes
  refine ⟨n, h, JsonText.of [blockMeta], _, _, hcreate, hblock, ?_, ?_, ?_⟩
  · unfold Block.select postingsForMatcher Matcher.equal
    dsimp only
    rw [if_neg (by decide), hpostings]
    show (loadSeries _ 0 0 [2]) = _
    unfold loadSeries
    show (r.series 2 >>= _) = _
    rw [hseries]
    simp only [ok_bind]
    unfold loadChunks
    rw [if_neg (by decide)]
    show (((ChunkReader.openDir st.files).read { seq := 0, offset := 8 }).1 >>= _) >>= _ = _
    rw [hchunk]
    rfl
  · rw [← hmeta]
    exact htimes.1
  · rw [← hmeta]
    exact htimes.2

end MerlionTsdb.Block
