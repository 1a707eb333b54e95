import MerlionTsdb.Block.Produced
import MerlionTsdb.Block.StoredSelect
import MerlionTsdb.Block.TimesExact

/-!
# A head and its block

A head tests the labels of every series, and the block that is flushed from it looks matchers up in posting
lists.  They agree on every query just when the label sets with samples can be found by their labels.
-/

namespace MerlionTsdb.Block

open Chunkenc Encoding Head Model

/-! ## Answers -/

/-- What a caller sees of a result. -/
def QueryResult.view (q : QueryResult) : Labels × List Bytes × List (Int64 × Int64) :=
  (q.labels, q.chunks.map XORChunk.bytes, q.chunkMetas.map fun m ↦ (m.minTime, m.maxTime))

/-- Both selects succeed, with the same label sets, chunk bytes and times in the same order. -/
def Agree (ofHead : Except Errc (List QueryResult)) (ofBlock : Except Failure (List QueryResult)) : Prop :=
  ∃ rs rs', ofHead = .ok rs ∧ ofBlock = .ok rs' ∧ rs.map QueryResult.view = rs'.map QueryResult.view

/-- The answer for a series of the input. -/
def SeriesInput.view (mint maxt : Int64) (si : SeriesInput) :
    Labels × List Bytes × List (Int64 × Int64) :=
  (si.labels, (inRange mint maxt si.chunks).map fun ci ↦ ci.bytes.bytes,
    (inRange mint maxt si.chunks).map fun ci ↦ (ci.minTime, ci.maxTime))

theorem AnswersFor.view_eq {blk : Block} {mint maxt : Int64} {si : SeriesInput} {q : QueryResult}
    (h : AnswersFor blk mint maxt si q) : q.view = si.view mint maxt := by
  have htimes : q.chunkMetas.map (fun m ↦ (m.minTime, m.maxTime)) =
      (inRange mint maxt si.chunks).map fun ci ↦ (ci.minTime, ci.maxTime) := by
    apply Eq.symm
    apply Related.map_eq h.carries.metas
    intro ci cm hcm
    rw [hcm.1, hcm.2.1]
  unfold QueryResult.view SeriesInput.view
  rw [h.labels_eq, htimes, h.carries.chunks_eq, List.map_map]
  rfl

namespace CopiesSeries

variable {s : MemSeries} {si : SeriesInput}

theorem inRange_copies (h : CopiesSeries s si) (mint maxt : Int64) :
    List.Forall₂ CopiesChunk (s.chunks.filter (chunkMeets mint maxt)) (inRange mint maxt si.chunks) := by
  apply List.rel_filter _ h.chunks
  intro c ci hcopy
  show chunkMeets mint maxt c = true ↔ overlaps ci.minTime ci.maxTime mint maxt = true
  rw [hcopy.meets_eq]

theorem view_eq (h : CopiesSeries s si) (mint maxt : Int64) :
    (answerFor mint maxt s).view = si.view mint maxt := by
  have hcopies := h.inRange_copies mint maxt
  have hbytes : (answerFor mint maxt s).chunks.map XORChunk.bytes =
      (inRange mint maxt si.chunks).map fun ci ↦ ci.bytes.bytes := by
    unfold answerFor
    rw [List.map_map]
    exact Related.map_eq hcopies fun c ci hcopy ↦ hcopy.bytes_eq.symm
  have htimes : (answerFor mint maxt s).chunkMetas.map (fun m ↦ (m.minTime, m.maxTime)) =
      (inRange mint maxt si.chunks).map fun ci ↦ (ci.minTime, ci.maxTime) := by
    unfold answerFor
    rw [List.map_map]
    apply Related.map_eq hcopies
    intro c ci hcopy
    show ((spanMeta c).minTime, (spanMeta c).maxTime) = (ci.minTime, ci.maxTime)
    rw [hcopy.min_eq, hcopy.max_eq]
  unfold QueryResult.view SeriesInput.view
  rw [hbytes, htimes, h.labels_eq]
  rfl

theorem meets_eq (h : CopiesSeries s si) (mint maxt : Int64) :
    s.chunks.any (chunkMeets mint maxt) = si.meets mint maxt := by
  have hcopies := h.inRange_copies mint maxt
  rw [Bool.eq_iff_iff, ← not_iff_not, Bool.not_eq_true, Bool.not_eq_true, ← inRange_eq_nil,
    List.any_eq_false, ← List.filter_eq_nil_iff]
  constructor
  · intro hnil
    rw [hnil] at hcopies
    exact List.forall₂_nil_left_iff.mp hcopies
  · intro hnil
    rw [hnil] at hcopies
    exact List.forall₂_nil_right_iff.mp hcopies

end CopiesSeries

/-! ## Label sets that are found -/

/-- A block finds the label set: it has a label, no label has the empty value, and a name and a value with
the joined key of one of its labels are a label of it, too, unless that value is empty. -/
structure Findable (labels : Labels) : Prop where
  ne_nil : labels.entries ≠ []
  value_ne : ∀ l ∈ labels.entries, l.value ≠ Str.empty
  joined : ∀ l ∈ labels.entries, ∀ name value, value ≠ Str.empty →
    joinedKey l.name l.value = joinedKey name value → ⟨name, value⟩ ∈ labels.entries

/-- Without NUL bytes, no other pair has the joined key of a label. -/
theorem findable_of_nul {labels : Labels} (hne : labels.entries ≠ [])
    (hvalue : ∀ l ∈ labels.entries, l.value ≠ Str.empty)
    (hnul : ∀ l ∈ labels.entries, 0 ∉ l.name.bytes ∧ 0 ∉ l.value.bytes) : Findable labels := by
  refine ⟨hne, hvalue, fun l hl name value _ hkey ↦ ?_⟩
  have hsame := joinedKey_eq (hnul l hl).1 (hnul l hl).2 hkey
  rw [← hsame.1, ← hsame.2]
  exact hl

/-- The block stores the series of the head whose counter is not zero. -/
structure Flushed (series : List MemSeries) (blk : Block) (rows : List StoredSeries) : Prop where
  holds : ∀ s ∈ series, ∃ xs, s.Holds xs
  stores : Stores blk rows
  copies : List.Forall₂ CopiesSeries (series.filter fun s ↦ s.numSamples ≠ 0)
    (rows.map fun r ↦ r.prepared.input)

/-- The answer of the head. -/
def headAnswers (series : List MemSeries) (matchers : List Matcher) (mint maxt : Int64) :
    List QueryResult :=
  (series.filter (selected matchers mint maxt)).map (answerFor mint maxt)

namespace Flushed

variable {series : List MemSeries} {blk : Block} {rows : List StoredSeries}

/-- The rows have the label sets of the head. -/
theorem exists_series (h : Flushed series blk rows) {r : StoredSeries} (hr : r ∈ rows) :
    ∃ s ∈ series, s.numSamples ≠ 0 ∧ s.labels = r.labels := by
  obtain ⟨s, hs, hcopy⟩ := Related.exists_left h.copies (List.mem_map_of_mem hr)
  obtain ⟨hmem, hne⟩ := List.mem_filter.mp hs
  exact ⟨s, hmem, of_decide_eq_true hne, hcopy.labels_eq.symm⟩

/-- Label sets that are found are found by every query. -/
theorem agree (h : Flushed series blk rows)
    (hfound : ∀ s ∈ series, s.numSamples ≠ 0 → Findable s.labels) {matchers : List Matcher}
    (hm : matchers ≠ []) (mint maxt : Int64) :
    Agree (.ok (headAnswers series matchers mint maxt)) (blk.select matchers mint maxt) := by
  have hrows : ∀ r ∈ rows, Findable r.labels := by
    intro r hr
    obtain ⟨s, hs, hne, hlabels⟩ := h.exists_series hr
    rw [← hlabels]
    exact hfound s hs hne
  have ho : Ordinary rows :=
    ⟨fun r hr ↦ (hrows r hr).ne_nil, fun r hr ↦ (hrows r hr).value_ne⟩
  have hexact : ∀ m ∈ matchers, ExactFor blk rows m.name := by
    intro m _
    apply exactFor_of_joined h.stores
    intro value hvalue r hr l hl hkey r' hr'
    rw [Bool.eq_iff_iff, StoredSeries.has_iff, StoredSeries.has_iff]
    constructor
    · intro hl'
      exact (hrows r' hr').joined l hl' m.name value hvalue hkey
    · intro hl'
      exact (hrows r' hr').joined _ hl' l.name l.value ((hrows r hr).value_ne l hl) hkey.symm
  obtain ⟨results, hselect, hanswers⟩ := h.stores.select_eq ho hm hexact mint maxt
  refine ⟨_, results, rfl, hselect, ?_⟩
  -- Both sides keep the series that all matchers accept and that have a chunk in the range.
  have hkept : series.filter (selected matchers mint maxt) =
      (series.filter fun s ↦ s.numSamples ≠ 0).filter fun s ↦
        labelsMatchAll s.labels matchers && s.chunks.any (chunkMeets mint maxt) := by
    rw [List.filter_filter]
    apply List.filter_congr
    intro s _
    unfold selected
    rw [Bool.and_assoc]
    exact Bool.and_comm _ _
  have hcopies := List.rel_filter (p := fun s : MemSeries ↦
    labelsMatchAll s.labels matchers && s.chunks.any (chunkMeets mint maxt)) (q := fun si : SeriesInput ↦
    labelsMatchAll si.labels matchers && si.meets mint maxt) (fun s si hcopy ↦ by
      dsimp only
      rw [hcopy.labels_eq, hcopy.meets_eq]) h.copies
  unfold headAnswers
  rw [hkept, List.map_map]
  apply (Related.map_eq hcopies fun s si hcopy ↦ hcopy.view_eq mint maxt).trans
  exact Related.map_eq hanswers fun si q hq ↦ hq.view_eq.symm

/-- A query over all times asks only for the labels. -/
theorem selected_all (h : Flushed series blk rows) {s : MemSeries} (hs : s ∈ series)
    (hne : s.numSamples ≠ 0) {m : Matcher} (hm : m.accepts (s.labels.valueOf m.name) = true) :
    selected [m] Int64.minValue Int64.maxValue s = true := by
  obtain ⟨xs, hholds⟩ := h.holds s hs
  obtain ⟨c, hc⟩ := List.exists_mem_of_ne_nil _ (chunks_ne_nil hholds hne)
  obtain ⟨runs, hruns, -⟩ := hholds.runs
  obtain ⟨run, -, hrun⟩ := Related.exists_right hruns hc
  obtain ⟨x, hx⟩ := List.exists_mem_of_ne_nil _ hrun.2.1
  have hmeets : chunkMeets Int64.minValue Int64.maxValue c = true := by
    unfold chunkMeets
    rw [hrun.samples_eq, Bool.and_eq_true, List.any_eq_true, List.any_eq_true]
    refine ⟨⟨x, hx, decide_eq_true ?_⟩, ⟨x, hx, decide_eq_true ?_⟩⟩
    · exact Int64.le_iff_toInt_le.mpr (Int64.toInt_le x.t)
    · exact Int64.le_iff_toInt_le.mpr (Int64.le_toInt x.t)
  unfold selected labelsMatchAll
  rw [List.all_cons, List.all_nil, hm, decide_eq_true hne,
    List.any_eq_true.mpr ⟨c, hc, hmeets⟩]
  rfl

/-- The label sets in two answers that agree. -/
theorem labels_of_agree {rs : List QueryResult} {ofBlock : Except Failure (List QueryResult)}
    (h : Agree (.ok rs) ofBlock) :
    ∃ rs', ofBlock = .ok rs' ∧ rs.map QueryResult.labels = rs'.map QueryResult.labels := by
  obtain ⟨rs₁, rs', heq, hblock, hview⟩ := h
  cases heq
  refine ⟨rs', hblock, ?_⟩
  have hfirst := congrArg (List.map Prod.fst) hview
  rw [List.map_map, List.map_map] at hfirst
  exact hfirst

theorem mem_headAnswers {matchers : List Matcher} {mint maxt : Int64} {labels : Labels} :
    labels ∈ (headAnswers series matchers mint maxt).map QueryResult.labels ↔
      ∃ s ∈ series, selected matchers mint maxt s = true ∧ s.labels = labels := by
  unfold headAnswers
  rw [List.map_map, List.mem_map]
  constructor
  · rintro ⟨s, hs, rfl⟩
    obtain ⟨hmem, hselected⟩ := List.mem_filter.mp hs
    exact ⟨s, hmem, hselected, rfl⟩
  · rintro ⟨s, hmem, hselected, rfl⟩
    exact ⟨s, List.mem_filter.mpr ⟨hmem, hselected⟩, rfl⟩

/-- A query for the empty value answers with rows that have a label, but none of the name. -/
theorem select_empty (h : Flushed series blk rows) {name : Str} {mint maxt : Int64}
    {results : List QueryResult} (hok : blk.select [.equal name Str.empty] mint maxt = .ok results)
    {labels : Labels} (hl : labels ∈ results.map QueryResult.labels) :
    labels.entries ≠ [] ∧ ∀ l ∈ labels.entries, l.name ≠ name := by
  obtain ⟨results', hload, hanswers⟩ := h.stores.loadSeries_eq mint maxt
    (show (rows.filter fun r ↦ r.labeled && !r.named name) ⊆ rows from fun r hr ↦
      (List.mem_filter.mp hr).1)
  have hselect : blk.select [.equal name Str.empty] mint maxt = .ok results' := by
    have hids : postingsForMatcher blk.index (.equal name Str.empty) =
        .ok (idsWhere rows fun r ↦ r.labeled && !r.named name) := h.stores.withoutName_eq name
    unfold Block.select
    dsimp only
    rw [hids]
    exact hload
  rw [hok] at hselect
  cases hselect
  obtain ⟨q, hq, rfl⟩ := List.mem_map.mp hl
  obtain ⟨si, hsi, hanswer⟩ := Related.exists_left hanswers hq
  obtain ⟨r, hr, rfl⟩ := List.mem_map.mp (List.mem_filter.mp hsi).1
  obtain ⟨hlabeled, hnamed⟩ := Bool.and_eq_true_iff.mp (List.mem_filter.mp hr).2
  rw [Bool.not_eq_true'] at hnamed
  rw [hanswer.labels_eq]
  constructor
  · obtain ⟨l, hmem⟩ := StoredSeries.labeled_iff.mp hlabeled
    exact List.ne_nil_of_mem hmem
  · rintro l hmem rfl
    rw [StoredSeries.named_iff.mpr ⟨l.value, hmem⟩] at hnamed
    cases hnamed

/-- Queries with the same joined key read the same list. -/
theorem select_joined (h : Flushed series blk rows) (l l' : Label) (hl : l.value ≠ Str.empty)
    (hl' : l'.value ≠ Str.empty) (hkey : joinedKey l.name l.value = joinedKey l'.name l'.value)
    (mint maxt : Int64) :
    blk.select [.equal l.name l.value] mint maxt = blk.select [.equal l'.name l'.value] mint maxt := by
  have hlist : ∀ l : Label, l.value ≠ Str.empty →
      postingsForMatcher blk.index (.equal l.name l.value) = blk.index.postings l.name l.value :=
    fun l hne ↦ if_neg hne
  unfold Block.select
  dsimp only
  rw [hlist l hl, hlist l' hl', h.stores.postings, h.stores.postings, hkey]

/-- What queries of a single label show. -/
theorem findable (h : Flushed series blk rows)
    (hagree : ∀ matchers, matchers ≠ [] → ∀ mint maxt,
      Agree (.ok (headAnswers series matchers mint maxt)) (blk.select matchers mint maxt))
    {s : MemSeries} (hs : s ∈ series) (hne : s.numSamples ≠ 0) : Findable s.labels := by
  -- A query for one value shows the series just under the value that it has.
  have hquery : ∀ name value, ∃ rs,
      blk.select [.equal name value] Int64.minValue Int64.maxValue = .ok rs ∧
        (s.labels ∈ rs.map QueryResult.labels ↔ s.labels.valueOf name = value) := by
    intro name value
    obtain ⟨rs, hblock, hlabels⟩ := labels_of_agree
      (hagree [.equal name value] (List.cons_ne_nil _ _) Int64.minValue Int64.maxValue)
    have hequal : ∀ v, (Matcher.equal name value).accepts v = decide (v = value) := fun v ↦ rfl
    refine ⟨rs, hblock, ?_⟩
    rw [← hlabels, mem_headAnswers]
    constructor
    · rintro ⟨s', -, hselected, hsame⟩
      unfold selected labelsMatchAll at hselected
      rw [hsame, List.all_cons, List.all_nil, hequal] at hselected
      simp only [Bool.and_eq_true, decide_eq_true_eq] at hselected
      exact hselected.1.2.1
    · intro hvalue
      refine ⟨s, hs, h.selected_all hs hne ?_, rfl⟩
      rw [hequal]
      exact decide_eq_true hvalue
  have hempty : ∀ name, s.labels.valueOf name = Str.empty →
      s.labels.entries ≠ [] ∧ ∀ l ∈ s.labels.entries, l.name ≠ name := by
    intro name hvalue
    obtain ⟨rs, hblock, hmem⟩ := hquery name Str.empty
    exact h.select_empty hblock (hmem.mpr hvalue)
  have hvalueOf : ∀ l ∈ s.labels.entries, s.labels.valueOf l.name = l.value := by
    intro l hl
    unfold Labels.valueOf
    rw [s.labels.get_eq_some.mpr hl]
    rfl
  have hvalues : ∀ l ∈ s.labels.entries, l.value ≠ Str.empty := by
    intro l hl hvalue
    exact (hempty l.name ((hvalueOf l hl).trans hvalue)).2 l hl rfl
  constructor
  · intro hnil
    apply (hempty Str.empty _).1 hnil
    unfold Labels.valueOf Labels.get
    rw [hnil]
    rfl
  · exact hvalues
  · intro l hl name value hvalue hkey
    obtain ⟨rs, hblock, hmem⟩ := hquery l.name l.value
    obtain ⟨rs', hblock', hmem'⟩ := hquery name value
    -- The block cannot tell the two queries apart, so the series has both values.
    have hsame := h.select_joined l ⟨name, value⟩ (hvalues l hl) hvalue hkey
      Int64.minValue Int64.maxValue
    rw [hblock, hblock'] at hsame
    cases hsame
    have hfound := hmem'.mp (hmem.mpr (hvalueOf l hl))
    unfold Labels.valueOf at hfound
    cases hget : s.labels.get name with
    | none =>
      rw [hget] at hfound
      exact absurd hfound.symm hvalue
    | some v =>
      rw [hget] at hfound
      rw [← s.labels.get_eq_some, hget, ← hfound]
      rfl

end Flushed

/-! ## Every reached head -/

/-- A block that was flushed from a reached head within the format agrees with the head on every query just
when it finds every label set that has samples. -/
theorem select_head_block_iff {W L S K : Type} {ops : WalOps W L S K} {h : Head W}
    {content : Labels → List Sample} (hr : Reaches ops h content) {text : JsonText}
    {calls : CreateCalls} {inputs : List SeriesInput} {dir : BlockDir} {blk : Block}
    (hinputs : headInputs h.series.allSeries = .ok inputs) (hfits : WithinFormat calls inputs)
    (hok : createFromHead text calls h = .ok dir) (hopen : openDir text (some dir) = .ok blk) :
    (∀ matchers, matchers ≠ [] → ∀ mint maxt,
        Agree (h.select matchers mint maxt) (blk.select matchers mint maxt)) ↔
      ∀ labels, (content labels).length % 2 ^ 64 ≠ 0 → Findable labels := by
  have hc := hr.contains
  have hholds : ∀ s ∈ h.series.allSeries, s.Holds (content s.labels) := fun s hs ↦
    hc.holds (hc.wf.mem_allSeries.mp hs)
  have hcopies := headInputs_copies (fun s hs ↦ ⟨_, hholds s hs⟩) hinputs
  unfold createFromHead at hok
  rw [hinputs, ok_bind] at hok
  obtain ⟨rows, hstores, hrows⟩ := createFromSeries_stores hok hfits hopen
  have hflushed : Flushed h.series.allSeries blk rows := by
    refine ⟨fun s hs ↦ ⟨_, hholds s hs⟩, hstores, ?_⟩
    -- No series of the input is left out.
    have hall : inputs.filter SeriesInput.kept = inputs := by
      rw [List.filter_eq_self]
      intro si hsi
      obtain ⟨s, hs, hcopy⟩ := Related.exists_left hcopies hsi
      obtain ⟨hmem, hne⟩ := List.mem_filter.mp hs
      have hsome := chunks_ne_nil (hholds s hmem) (of_decide_eq_true hne)
      unfold SeriesInput.kept
      rw [Bool.not_eq_true', List.isEmpty_eq_false_iff]
      intro hnil
      have hchunks := hcopy.chunks
      rw [hnil] at hchunks
      exact hsome (List.forall₂_nil_right_iff.mp hchunks)
    rw [hrows, hall]
    exact hcopies
  have hselect : ∀ matchers, matchers ≠ [] → ∀ mint maxt, h.select matchers mint maxt =
      .ok (headAnswers h.series.allSeries matchers mint maxt) := fun matchers hm mint maxt ↦
    hc.select hm mint maxt
  constructor
  · intro hagree labels hlen
    have hne : content labels ≠ [] := by
      intro hnil
      rw [hnil] at hlen
      exact hlen rfl
    obtain ⟨s, hs, rfl⟩ := hc.exists_series hne
    apply hflushed.findable _ hs ((hholds s hs).numSamples_ne_zero.mpr hlen)
    intro matchers hm mint maxt
    rw [← hselect matchers hm]
    exact hagree matchers hm mint maxt
  · intro hfound matchers hm mint maxt
    rw [hselect matchers hm]
    apply hflushed.agree _ hm
    intro s hs hne
    exact hfound s.labels ((hholds s hs).numSamples_ne_zero.mp hne)

/-- A head with a series of several chunks next to another one, and its block. -/
theorem select_head_block_counting :
    ∃ (h : Head (List Bytes)) (text : JsonText) (dir : BlockDir) (blk : Block) (r r' : QueryResult),
      Reaches listWal h (fun labels ↦ samplesUnder labels (countingSamples 5000)) ∧
      createFromHead text { ulid := Str.empty } h = .ok dir ∧ openDir text (some dir) = .ok blk ∧
      (∀ matchers, matchers ≠ [] → ∀ mint maxt,
        Agree (h.select matchers mint maxt) (blk.select matchers mint maxt)) ∧
      h.select [.equal (.single 97) (.single 98)] 0 4999 = .ok [r] ∧
      blk.select [.equal (.single 97) (.single 98)] 0 4999 = .ok [r'] ∧
      r.view = r'.view ∧ r'.labels = sampleLabels ∧ 2 ≤ r'.chunks.length := by
  obtain ⟨h, inputs, text, dir, blk, hr, hinputs, hweight, -, hflush, hopen⟩ := exists_countingBlock
  have hagree := (select_head_block_iff hr hinputs (withinFormat_of_weight _ hweight) hflush hopen).mpr
    fun labels hlen ↦ by
      rcases counting_labels fun hnil ↦ hlen (by rw [hnil]; rfl) with rfl | rfl
      · exact findable_of_nul (by decide) (by decide) (by decide)
      · exact findable_of_nul (by decide) (by decide) (by decide)
  have hm : [Matcher.equal (.single 97) (.single 98)] ≠ [] := List.cons_ne_nil _ _
  obtain ⟨s, hholds, hlabels, hselect⟩ := select_counting hr
  obtain ⟨rs, rs', hrs, hblock, hview⟩ := hagree _ hm 0 4999
  rw [hselect] at hrs
  cases hrs
  obtain ⟨r', rfl, hsame⟩ := List.map_eq_singleton_iff.mp hview.symm
  have hfirst := congrArg Prod.fst hsame
  have hchunks := congrArg (fun v ↦ v.2.1.length) hsame
  unfold QueryResult.view at hfirst hchunks
  dsimp only at hfirst hchunks
  rw [List.length_map, List.length_map] at hchunks
  obtain ⟨-, hlength⟩ := (answers_answerFor hholds 0 4999).decoded_all hholds times_countUp
  have hmany := hholds.length_bounds.2
  rw [length_countUp] at hmany
  exact ⟨h, text, dir, blk, _, r', hr, hflush, hopen, hagree, hselect, hblock, hsame.symm,
    hfirst.trans hlabels, by omega⟩

/-- A head with one sample without labels. -/
def unlabeledHead : Head (List Bytes) :=
  match ({ wal := [] } : Head (List Bytes)).append Labels.empty ⟨0, 0⟩ with
  | some (_, h) => h
  | none => { wal := [] }

/-- The head answers with its series, and the block does not. -/
theorem select_head_block_unlabeled :
    ∃ content dir blk, Reaches listWal unlabeledHead content ∧
      createFromHead (JsonText.of [oneMeta]) { ulid := Str.empty } unlabeledHead = .ok dir ∧
      openDir (JsonText.of [oneMeta]) (some dir) = .ok blk ∧
      (∃ q, unlabeledHead.select [.equal ⟨[97], by decide⟩ Str.empty] 0 0 = .ok [q] ∧ q.labels = Labels.empty) ∧
      blk.select [.equal ⟨[97], by decide⟩ Str.empty] 0 0 = .ok [] ∧
      ¬ Agree (unlabeledHead.select [.equal ⟨[97], by decide⟩ Str.empty] 0 0)
        (blk.select [.equal ⟨[97], by decide⟩ Str.empty] 0 0) := by
  have hall : (do
      let dir ← createFromHead (JsonText.of [oneMeta]) { ulid := Str.empty } unlabeledHead
      let blk ← openDir (JsonText.of [oneMeta]) (some dir)
      blk.select [.equal ⟨[97], by decide⟩ Str.empty] 0 0) = .ok [] := by decide +kernel
  obtain ⟨dir, hflush, hall⟩ := bind_ok hall
  obtain ⟨blk, hopen, hblock⟩ := bind_ok hall
  have happend : ({ wal := [] } : Head (List Bytes)).append Labels.empty ⟨0, 0⟩ =
      some (.ok 1, unlabeledHead) := rfl
  have hhead : (unlabeledHead.select [.equal ⟨[97], by decide⟩ Str.empty] 0 0).map
      (List.map QueryResult.labels) = .ok [Labels.empty] := by decide
  cases hselect : unlabeledHead.select [.equal ⟨[97], by decide⟩ Str.empty] 0 0 with
  | error e =>
    rw [hselect] at hhead
    cases hhead
  | ok rs =>
    rw [hselect] at hhead
    have hlabels : rs.map QueryResult.labels = [Labels.empty] := Except.ok.inj hhead
    obtain ⟨q, rfl, hq⟩ := List.map_eq_singleton_iff.mp hlabels
    refine ⟨_, dir, blk, filled_zero.reaches.accepted happend, hflush, hopen, ⟨q, rfl, hq⟩, hblock, ?_⟩
    rw [hblock]
    rintro ⟨rs, rs', hrs, hrs', hview⟩
    cases hrs
    cases hrs'
    cases hview

end MerlionTsdb.Block
