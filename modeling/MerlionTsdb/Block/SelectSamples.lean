import MerlionTsdb.Block.History

/-!
# Samples in an answer

An answer is made of whole chunks.  The samples of the range in it are all samples of the range that are
stored under the label sets that it is for, in their order.
-/

namespace MerlionTsdb.Block

open Chunkenc Encoding Head LastWrite Model

/-! ## Samples of the range -/

def inWindow (mint maxt : Int64) (x : Sample) : Bool := decide (mint ≤ x.t) && decide (x.t ≤ maxt)

/-- The samples of the range. -/
def window (mint maxt : Int64) (samples : List Sample) : List Sample := samples.filter (inWindow mint maxt)

/-- The samples in the answer under the label set. -/
def answered (results : List QueryResult) (labels : Labels) : List Sample :=
  (results.filter fun q ↦ q.labels = labels).flatMap fun q ↦ q.chunks.flatMap fun c ↦ c.samples.1

theorem window_append (mint maxt : Int64) (xs ys : List Sample) :
    window mint maxt (xs ++ ys) = window mint maxt xs ++ window mint maxt ys := List.filter_append xs ys

theorem answered_cons (q : QueryResult) (results : List QueryResult) (labels : Labels) :
    answered (q :: results) labels =
      (if q.labels = labels then q.chunks.flatMap fun c ↦ c.samples.1 else []) ++
        answered results labels := by
  unfold answered
  rw [List.filter_cons]
  by_cases h : q.labels = labels
  · simp [h]
  · simp [h]

theorem answered_append (results results' : List QueryResult) (labels : Labels) :
    answered (results ++ results') labels = answered results labels ++ answered results' labels := by
  unfold answered
  rw [List.filter_append, List.flatMap_append]

/-- A chunk left out by `p` has no sample of the range. -/
theorem window_flatMap_filter {β : Type} (mint maxt : Int64) {chunks : List β} {p : β → Bool}
    {f : β → List Sample}
    (h : ∀ c ∈ chunks, p c = false → ∀ x ∈ f c, inWindow mint maxt x = false) :
    window mint maxt ((chunks.filter p).flatMap f) =
      window mint maxt (chunks.flatMap f) := by
  induction chunks with
  | nil => rfl
  | cons c chunks ih =>
    have hrest := ih fun c' hc' ↦ h c' (List.mem_cons_of_mem _ hc')
    rw [List.flatMap_cons, window_append, ← hrest]
    cases hp : p c with
    | true => rw [List.filter_cons_of_pos hp, List.flatMap_cons, window_append]
    | false =>
      have hnone : window mint maxt (f c) = [] := by
        unfold window
        rw [List.filter_eq_nil_iff]
        intro x hx
        rw [h c List.mem_cons_self hp x hx]
        exact Bool.false_ne_true
      rw [List.filter_cons_of_neg (by simp [hp]), hnone, List.nil_append]

/-- The answers for a list of sources of samples, of which those are left out that the matchers refuse or that
have no sample of the range. -/
theorem window_answered {β : Type} {mint maxt : Int64} {matchers : List Matcher} {sources : List β}
    {l : β → Labels} {f : β → List Sample} {p : β → Bool} {results : List QueryResult}
    (hout : ∀ b ∈ sources, p b = false → window mint maxt (f b) = [])
    (h : List.Forall₂ (fun b q ↦ q.labels = l b ∧
        window mint maxt (q.chunks.flatMap fun c ↦ c.samples.1) = window mint maxt (f b))
      (sources.filter fun b ↦ labelsMatchAll (l b) matchers && p b) results)
    (labels : Labels) :
    window mint maxt (answered results labels) =
      if labelsMatchAll labels matchers then
        window mint maxt ((sources.filter fun b ↦ l b = labels).flatMap f)
      else [] := by
  induction sources generalizing results with
  | nil =>
    cases h
    split <;> rfl
  | cons b sources ih =>
    have hrest := fun b' hb' ↦ hout b' (List.mem_cons_of_mem _ hb')
    rw [List.filter_cons (p := fun b ↦ decide (l b = labels))]
    cases hmatch : labelsMatchAll (l b) matchers && p b with
    | true =>
      rw [List.filter_cons_of_pos (by simpa using hmatch)] at h
      cases h with
      | @cons _ q _ results hq hresults =>
        obtain ⟨hlabels, hwindow⟩ := hq
        rw [answered_cons, window_append, ih hrest hresults, hlabels]
        by_cases hsame : l b = labels
        · subst hsame
          rw [(Bool.and_eq_true_iff.mp hmatch).1]
          simp only [if_true, decide_true]
          rw [hwindow, List.flatMap_cons, window_append]
        · simp [hsame, window]
    | false =>
      rw [List.filter_cons_of_neg (by simp [hmatch])] at h
      rw [ih hrest h]
      by_cases hsame : l b = labels
      · subst hsame
        cases haccept : labelsMatchAll (l b) matchers with
        | false => rfl
        | true =>
          -- Only the range has left it out.
          have hnone := hout b List.mem_cons_self (by simpa [haccept] using hmatch)
          simp only [if_true, decide_true]
          rw [List.flatMap_cons, window_append, hnone, List.nil_append]
      · simp [hsame]

/-! ## Blocks -/

/-- The samples of every chunk are between its times. -/
def Spanned (series : List SeriesInput) : Prop :=
  ∀ s ∈ series, ∀ ci ∈ s.chunks, ∀ x ∈ ci.decode.1, ci.minTime ≤ x.t ∧ x.t ≤ ci.maxTime

theorem spanned_of_runs {before : Int64 → Int64 → Prop} (hle : ∀ a b, before a b → a ≤ b)
    {series : List SeriesInput} (h : ∀ s ∈ series, Runs before s.chunks) : Spanned series := by
  intro s hs ci hci x hx
  obtain ⟨run, hencodes, hordered⟩ := (h s hs).encodes hle hci
  rw [hencodes.decode_eq] at hx
  exact hencodes.between hordered hx

/-- A chunk out of the range has no sample of the range. -/
theorem Spanned.outside {series : List SeriesInput} (h : Spanned series) {s : SeriesInput} (hs : s ∈ series)
    {mint maxt : Int64} {ci : ChunkInput} (hci : ci ∈ s.chunks)
    (hout : overlaps ci.minTime ci.maxTime mint maxt = false) :
    ∀ x ∈ ci.decode.1, inWindow mint maxt x = false := by
  intro x hx
  obtain ⟨hmin, hmax⟩ := h s hs ci hci x hx
  unfold overlaps at hout
  rw [Bool.not_eq_false', Bool.or_eq_true, decide_eq_true_iff, decide_eq_true_iff] at hout
  unfold inWindow
  rw [Bool.and_eq_false_iff, decide_eq_false_iff_not, decide_eq_false_iff_not]
  rcases hout with hlate | hearly
  · exact Or.inr (not_le.mpr (lt_of_lt_of_le hlate hmin))
  · exact Or.inl (not_le.mpr (lt_of_le_of_lt hmax hearly))

/-- The answer for one series. -/
theorem AnswersFor.window_eq {blk : Block} {mint maxt : Int64} {s : SeriesInput} {q : QueryResult}
    (h : AnswersFor blk mint maxt s q) {series : List SeriesInput} (hspanned : Spanned series)
    (hs : s ∈ series) :
    window mint maxt (q.chunks.flatMap fun c ↦ c.samples.1) = window mint maxt (decoded s.chunks) := by
  rw [h.carries.chunks_eq, List.flatMap_map]
  exact window_flatMap_filter mint maxt fun ci hci hout ↦ hspanned.outside hs hci hout

/-- A series with no chunk in the range has no sample of the range. -/
theorem Spanned.window_eq_nil {series : List SeriesInput} (h : Spanned series) {s : SeriesInput}
    (hs : s ∈ series) {mint maxt : Int64} (hout : s.meets mint maxt = false) :
    window mint maxt (decoded s.chunks) = [] := by
  have hfilter := window_flatMap_filter mint maxt (f := fun ci : ChunkInput ↦ ci.decode.1)
    fun ci hci hout ↦ h.outside hs hci hout
  have hempty := inRange_eq_nil.mpr hout
  unfold inRange at hempty
  rw [hempty] at hfilter
  exact hfilter.symm

/-- Posting lists are exact for label sets that are found. -/
theorem Stores.select_of_findable {blk : Block} {rows : List StoredSeries} (h : Stores blk rows)
    (hfound : ∀ r ∈ rows, Findable r.labels) {matchers : List Matcher} (hm : matchers ≠ [])
    (mint maxt : Int64) :
    ∃ results, blk.select matchers mint maxt = .ok results ∧
      List.Forall₂ (AnswersFor blk mint maxt)
        ((rows.map fun r ↦ r.prepared.input).filter fun s ↦
          labelsMatchAll s.labels matchers && s.meets mint maxt) results := by
  have ho : Ordinary rows :=
    ⟨fun r hr ↦ (hfound r hr).ne_nil, fun r hr ↦ (hfound r hr).value_ne⟩
  apply h.select_eq ho hm
  intro m _
  apply exactFor_of_joined h
  intro value hvalue r hr l hl hkey r' hr'
  rw [Bool.eq_iff_iff, StoredSeries.has_iff, StoredSeries.has_iff]
  constructor
  · intro hl'
    exact (hfound r' hr').joined l hl' m.name value hvalue hkey
  · intro hl'
    exact (hfound r' hr').joined _ hl' l.name l.value ((hfound r hr).value_ne l hl) hkey.symm

/-- A query on a block that was produced answers with all samples of the range under the label sets that the
matchers accept, in their order. -/
theorem Produced.select_samples {text : JsonText} {dir : BlockDir} {series : List SeriesInput} {blk : Block}
    (h : Produced text dir series) (hopen : openDir text (some dir) = .ok blk) (hspanned : Spanned series)
    (hfound : ∀ s ∈ series, s.chunks ≠ [] → Findable s.labels) {matchers : List Matcher}
    (hm : matchers ≠ []) (mint maxt : Int64) :
    ∃ results, blk.select matchers mint maxt = .ok results ∧ ∀ labels,
      window mint maxt (answered results labels) =
        if labelsMatchAll labels matchers then window mint maxt (samplesIn series labels) else [] := by
  obtain ⟨rows, hopened⟩ := h.opened hopen
  have hkept : ∀ r ∈ rows, r.prepared.input ∈ series.filter SeriesInput.kept := by
    intro r hr
    rw [← hopened.inputs_eq]
    exact List.mem_map_of_mem hr
  have hrows : ∀ r ∈ rows, Findable r.labels := by
    intro r hr
    obtain ⟨hmem, hsome⟩ := List.mem_filter.mp (hkept r hr)
    exact hfound _ hmem (by simpa [SeriesInput.kept] using hsome)
  obtain ⟨results, hselect, hanswers⟩ := hopened.stores.select_of_findable hrows hm mint maxt
  rw [hopened.inputs_eq] at hanswers
  have hsub : Spanned (series.filter SeriesInput.kept) := fun s hs ↦
    hspanned s (List.mem_filter.mp hs).1
  refine ⟨results, hselect, fun labels ↦ ?_⟩
  rw [← samplesIn_kept series labels]
  apply window_answered (l := SeriesInput.labels) (f := fun s ↦ decoded s.chunks)
    fun s hs hout ↦ hsub.window_eq_nil hs hout
  exact Related.imp_mem hanswers fun s q hs _ hq ↦
    ⟨hq.labels_eq, hq.window_eq hsub (List.mem_of_mem_filter hs)⟩

end MerlionTsdb.Block
