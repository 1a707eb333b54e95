import MerlionTsdb.Block.CreateChunks
import MerlionTsdb.Block.IndexRoundtrip

/-!
# The index of a new block

What a reader finds in the index that `create_from_series` has written, when the index keeps within the
widths of its format.
-/

namespace MerlionTsdb.Block

open Encoding Model

/-! ## The limits of the format -/

/-- The index of the prepared series keeps within the widths of the format: 32 bits for the lengths of
its sections, and for the start of every series in units of 16 bytes. -/
structure IndexFits (prepared : List PreparedSeries) : Prop where
  symbols : (symbolsPayload (symbolsOf prepared)).length < 2 ^ 32
  series : ∀ {front ps back refs w₁ ids w}, prepared = front ++ ps :: back →
    startIndex prepared = .ok (refs, w₁) → addAllSeries refs w₁ front = .ok (ids, w) →
      (padTo w.buf kIndexSeriesAlign).length < 2 ^ 36
  postings : ∀ {refs w₁ ids w}, startIndex prepared = .ok (refs, w₁) →
    addAllSeries refs w₁ prepared = .ok (ids, w) →
      ∀ p ∈ postingLists (labelIds prepared ids), 4 + 4 * p.2.length < 2 ^ 32
  table : ∀ {w}, buildIndex prepared = .ok w → (tablePayload w.pendingPostings).length < 2 ^ 32

/-! ## Results -/

theorem lift_ok {α : Type} {x : Except Errc α} {a : α} (h : lift x = .ok a) : x = .ok a := by
  cases x with
  | error e => cases h
  | ok b =>
    cases h
    rfl

/-! ## The steps -/

/-- A round of the series loop, and the rounds behind it. -/
theorem addAllSeries_cons_iff {refs : List (Str × UInt32)} {w w' : IndexWriter} {ps : PreparedSeries}
    {prepared : List PreparedSeries} {ids : List UInt32} :
    addAllSeries refs w (ps :: prepared) = .ok (ids, w') ↔
      ∃ labelRefs id w₁ ids', labelRefsOf refs ps.input.labels.entries = .ok labelRefs ∧
        w.addSeries labelRefs ps.chunkMetas = (.ok id, w₁) ∧
        addAllSeries refs w₁ prepared = .ok (ids', w') ∧ ids = id :: ids' := by
  rw [addAllSeries]
  constructor
  · intro hok
    obtain ⟨labelRefs, hlabels, hok⟩ := bind_ok hok
    split at hok
    · cases hok
    · rename_i id w₁ hadd
      obtain ⟨⟨ids', w₂⟩, hrest, hok⟩ := bind_ok hok
      cases hok
      exact ⟨labelRefs, id, w₁, ids', hlabels, hadd, hrest, rfl⟩
  · rintro ⟨labelRefs, id, w₁, ids', hlabels, hadd, hrest, rfl⟩
    rw [hlabels, ok_bind, hadd]
    dsimp only
    rw [hrest]
    rfl

theorem addAllPostings_cons_iff {w w' : IndexWriter} {p : PostingKey × List UInt32}
    {lists : List (PostingKey × List UInt32)} :
    addAllPostings w (p :: lists) = .ok w' ↔
      ∃ w₁, w.addPostings (ofLex p.1).1 (ofLex p.1).2 p.2 = (.ok (), w₁) ∧
        addAllPostings w₁ lists = .ok w' := by
  rw [addAllPostings]
  constructor
  · intro hok
    split at hok
    · cases hok
    · rename_i u w₁ hadd
      exact ⟨w₁, hadd, hok⟩
  · rintro ⟨w₁, hadd, hok⟩
    rw [hadd]
    exact hok

/-- The steps of the index, as far as the last posting list. -/
theorem buildIndex_iff {prepared : List PreparedSeries} {w : IndexWriter} :
    buildIndex prepared = .ok w ↔
      ∃ refs w₁ ids w₂ w₃, startIndex prepared = .ok (refs, w₁) ∧
        addAllSeries refs w₁ prepared = .ok (ids, w₂) ∧ w₂.finishSeries = (.ok (), w₃) ∧
        addAllPostings w₃ (postingLists (labelIds prepared ids)) = .ok w := by
  rw [buildIndex]
  constructor
  · intro hok
    obtain ⟨⟨refs, w₁⟩, hstart, hok⟩ := bind_ok hok
    obtain ⟨⟨ids, w₂⟩, hseries, hok⟩ := bind_ok hok
    dsimp only at hok
    split at hok
    · cases hok
    · rename_i u w₃ hfinish
      exact ⟨refs, w₁, ids, w₂, w₃, hstart, hseries, hfinish, lift_ok hok⟩
  · rintro ⟨refs, w₁, ids, w₂, w₃, hstart, hseries, hfinish, hpostings⟩
    rw [hstart, ok_bind]
    dsimp only
    rw [hseries, ok_bind]
    dsimp only
    rw [hfinish]
    exact congrArg lift hpostings

theorem writeIndex_iff {calls : IndexCloseCalls} {prepared : List PreparedSeries}
    {file : Option Bytes} :
    writeIndex calls prepared = .ok file ↔
      ∃ w w', buildIndex prepared = .ok w ∧ w.close none calls = (.ok (), w', file) := by
  rw [writeIndex]
  constructor
  · intro hok
    obtain ⟨w, hbuild, hok⟩ := bind_ok hok
    split at hok
    · cases hok
    · rename_i w' file' hclose
      cases hok
      exact ⟨w, w', hbuild, hclose⟩
  · rintro ⟨w, w', hbuild, hclose⟩
    rw [hbuild, ok_bind, hclose]
/-! ## Symbols -/

/-- The references that the symbol loop returns are positions in the symbol section. -/
theorem addSymbols_ok {w w' : IndexWriter} {x : IndexContents} (h : InSymbols w x)
    {symbols : List Str} {refs : List (Str × UInt32)} (hok : addSymbols w symbols = .ok (refs, w'))
    (hfew : x.symbols.length + symbols.length < 2 ^ 32) :
    InSymbols w' { x with symbols := x.symbols ++ symbols } ∧
      ∀ e ∈ refs, (x.symbols ++ symbols)[e.2.toNat]? = some e.1 := by
  induction symbols generalizing w x refs with
  | nil =>
    cases hok
    rw [List.append_nil]
    exact ⟨h, by simp⟩
  | cons s symbols ih =>
    unfold addSymbols at hok
    split at hok
    · cases hok
    · rename_i ref w₁ hadd
      split at hok
      · cases hok
      · rename_i refs' w₂ hrest
        cases hok
        rw [List.length_cons] at hfew
        obtain ⟨h₂, hrefs⟩ := ih (h.addSymbol s hadd) hrest (by
          rw [List.length_append, List.length_singleton]
          omega)
        rw [List.append_assoc] at hrefs
        -- Both halves come from the rest of the loop, but for the reference of this symbol.
        refine ⟨?_, ?_⟩
        · have hsame : x.symbols ++ [s] ++ symbols = x.symbols ++ s :: symbols := by simp
          rw [hsame] at h₂
          exact h₂
        · intro e he
          rcases List.mem_cons.mp he with rfl | he
          · -- The next reference is the number of symbols before.
            have href : ref = w.nextSymRef := by
              rcases IndexWriter.addSymbol_cases hadd with ⟨hok, -, -⟩ | ⟨e, he, -⟩
              · exact Except.ok.inj hok
              · cases he
            have hnat : ref.toNat = x.symbols.length := by
              rw [href, h.next_eq, UInt32.toNat_ofNat_of_lt']
              rw [UInt32.size]
              omega
            dsimp only
            rw [hnat, List.getElem?_append_right le_rfl, Nat.sub_self]
            rfl
          · exact hrefs e he

/-- The references of labels resolve to these labels. -/
theorem labelRefsOf_ok {symbols : List Str} {refs : List (Str × UInt32)}
    (hrefs : ∀ e ∈ refs, symbols[e.2.toNat]? = some e.1) {labels : List Label}
    {labelRefs : List (UInt32 × UInt32)} (hok : labelRefsOf refs labels = .ok labelRefs) :
    List.Forall₂ (Resolves symbols) labelRefs labels := by
  have hat : ∀ {s : Str} {r : UInt32}, symRefAt refs s = .ok r → symbols[r.toNat]? = some s := by
    intro s r h
    unfold symRefAt at h
    split at h
    · rename_i e hfind
      cases h
      have hs : e.1 = s := by simpa using List.find?_some hfind
      rw [← hs]
      exact hrefs e (List.mem_of_find?_eq_some hfind)
    · cases h
  induction labels generalizing labelRefs with
  | nil =>
    cases hok
    exact List.Forall₂.nil
  | cons l labels ih =>
    unfold labelRefsOf at hok
    obtain ⟨name, hname, hok⟩ := bind_ok hok
    obtain ⟨value, hvalue, hok⟩ := bind_ok hok
    obtain ⟨rest, hrest, hok⟩ := bind_ok hok
    cases hok
    exact List.Forall₂.cons ⟨hat hname, hat hvalue⟩ (ih hrest)

theorem startIndex_ok {prepared : List PreparedSeries} {refs : List (Str × UInt32)} {w : IndexWriter}
    (hok : startIndex prepared = .ok (refs, w))
    (hfit : (symbolsPayload (symbolsOf prepared)).length < 2 ^ 32) :
    SectionsLaid w { symbols := symbolsOf prepared } ∧ w.stage = .series ∧
      (∀ e ∈ refs, (symbolsOf prepared)[e.2.toNat]? = some e.1) ∧
      w.buf = indexHeader ++ section32 (symbolsPayload (symbolsOf prepared)) := by
  unfold startIndex at hok
  obtain ⟨w₀, hcreate, hok⟩ := bind_ok hok
  obtain ⟨⟨refs', w₁⟩, hsymbols, hok⟩ := bind_ok hok
  have hlaid : InSymbols w₀ {} := by
    cases lift_ok hcreate
    constructor <;> rfl
  have hfew : (symbolsOf prepared).length < 2 ^ 32 := by
    have hle := length_le_flatMap_putUvarintStr (symbolsOf prepared)
    unfold symbolsPayload at hfit
    rw [List.length_append] at hfit
    omega
  obtain ⟨h₁, hrefs⟩ := addSymbols_ok hlaid (lift_ok hsymbols) (by simpa using hfew)
  rw [List.nil_append] at h₁ hrefs
  dsimp only at hok
  split at hok
  · cases hok
  · rename_i u w₂ hfinish
    cases hok
    obtain ⟨w₃, hfinish', hstage, -, -, hbuf⟩ := h₁.finishSymbols
    rw [hfinish] at hfinish'
    cases hfinish'
    refine ⟨h₁.sectionsLaid ?_ hfinish, hstage, hrefs, hbuf⟩
    rw [h₁.buf_eq]
    simp only [symbolsPayload, indexHeader, List.length_append, length_putBe32,
      List.length_singleton] at hfit ⊢
    omega

/-! ## Series -/

/-- A series as the writer takes it. -/
def WrittenAs (symbols : List Str) (ps : PreparedSeries) (s : SeriesWritten) : Prop :=
  s.chunkMetas = ps.chunkMetas ∧ List.Forall₂ (Resolves symbols) s.labelRefs ps.input.labels.entries

theorem addSeries_stage {w w' : IndexWriter} {labelRefs : List (UInt32 × UInt32)}
    {chunkMetas : List ChunkMeta} {id : UInt32}
    (h : w.addSeries labelRefs chunkMetas = (.ok id, w')) : w.stage = .series ∧ w'.stage = .series := by
  rcases IndexWriter.addSeries_cases h with ⟨id', -, hstage⟩ | ⟨e, he, -⟩
  · obtain ⟨off, heq⟩ := IndexWriter.addSeries_eq hstage labelRefs chunkMetas
    rw [h] at heq
    cases heq
    exact ⟨hstage, hstage⟩
  · cases he

/-- The series loop, as long as every series starts within the format. -/
theorem addAllSeries_ok {refs : List (Str × UInt32)} {w w' : IndexWriter} {x : IndexContents}
    (h : SectionsLaid w x) (hstage : w.stage = .series)
    (hrefs : ∀ e ∈ refs, x.symbols[e.2.toNat]? = some e.1) {prepared : List PreparedSeries}
    {ids : List UInt32} (hok : addAllSeries refs w prepared = .ok (ids, w'))
    (hmetas : ∀ ps ∈ prepared, ps.chunkMetas.length ≤ kMaxChunkMetas)
    (hfit : ∀ {front ps back ids w₁}, prepared = front ++ ps :: back →
      addAllSeries refs w front = .ok (ids, w₁) → (padTo w₁.buf kIndexSeriesAlign).length < 2 ^ 36) :
    ∃ written, SectionsLaid w' { x with series := x.series ++ written } ∧ w'.stage = .series ∧
      List.Forall₂ (WrittenAs x.symbols) prepared written ∧ written.map SeriesWritten.id = ids := by
  induction prepared generalizing w x ids with
  | nil =>
    cases hok
    refine ⟨[], ?_, hstage, List.Forall₂.nil, rfl⟩
    rw [List.append_nil]
    exact h
  | cons ps prepared ih =>
    obtain ⟨labelRefs, id, w₁, ids', hlabels, hadd, hrest, rfl⟩ := addAllSeries_cons_iff.mp hok
    have hfirst := @hfit [] ps prepared [] w rfl rfl
    have h₁ := h.addSeries hstage labelRefs (hmetas ps List.mem_cons_self) hfirst hadd
    obtain ⟨written, h₂, hstage₂, hwritten, hids⟩ := ih h₁ (addSeries_stage hadd).2 hrefs hrest
      (fun ps' hps' ↦ hmetas ps' (List.mem_cons_of_mem _ hps')) (by
        intro front ps' back ids w₃ hsplit hfront
        -- The same series is behind one more in the whole list.
        apply @hfit (ps :: front) ps' back (id :: ids) w₃ (by rw [hsplit, List.cons_append])
        exact addAllSeries_cons_iff.mpr ⟨labelRefs, id, w₁, ids, hlabels, hadd, hfront, rfl⟩)
    refine ⟨⟨id, labelRefs, ps.chunkMetas⟩ :: written, ?_, hstage₂, ?_, ?_⟩
    · rw [List.append_assoc] at h₂
      exact h₂
    · exact List.Forall₂.cons ⟨rfl, labelRefsOf_ok hrefs hlabels⟩ hwritten
    · rw [List.map_cons, hids]

/-- The end of the series pads the file. -/
theorem SectionsLaid.finishSeries {w w' : IndexWriter} {x : IndexContents} (h : SectionsLaid w x)
    (hok : w.finishSeries = (.ok (), w')) : SectionsLaid w' x := by
  rcases IndexWriter.finishSeries_cases hok with ⟨-, -, hbuf, hoff, hpending, hstage⟩ | ⟨e, he, -⟩
  · obtain ⟨zeros, hzeros⟩ := padTo_eq w.buf kIndexSeriesAlign
    rw [hzeros] at hbuf
    exact h.grow hbuf hoff hpending (by simp [hstage])
  · cases he

/-! ## Posting lists -/

/-- A posting list as the writer takes it. -/
def postingsWritten (p : PostingKey × List UInt32) : PostingsWritten :=
  ⟨(ofLex p.1).1, (ofLex p.1).2, p.2⟩

theorem addAllPostings_ok {w w' : IndexWriter} {x : IndexContents} (h : SectionsLaid w x)
    {lists : List (PostingKey × List UInt32)} (hok : addAllPostings w lists = .ok w')
    (hfit : ∀ p ∈ lists, 4 + 4 * p.2.length < 2 ^ 32) :
    SectionsLaid w' { x with postings := x.postings ++ lists.map postingsWritten } := by
  induction lists generalizing w x with
  | nil =>
    cases hok
    rw [List.map_nil, List.append_nil]
    exact h
  | cons p lists ih =>
    obtain ⟨w₁, hadd, hok⟩ := addAllPostings_cons_iff.mp hok
    have h₁ := h.addPostings (hfit p List.mem_cons_self) hadd
    have h₂ := ih h₁ hok fun p' hp' ↦ hfit p' (List.mem_cons_of_mem _ hp')
    rw [List.append_assoc] at h₂
    exact h₂

/-! ## The file -/

/-- A reader opens the file and serves what was written. -/
theorem writeIndex_ok {calls : IndexCloseCalls} {prepared : List PreparedSeries}
    {file : Option Bytes} (hok : writeIndex calls prepared = .ok file)
    (hmetas : ∀ ps ∈ prepared, ps.chunkMetas.length ≤ kMaxChunkMetas) (hfits : IndexFits prepared) :
    ∃ r written, IndexReader.openFile file = .ok r ∧
      Serves r {
        symbols := symbolsOf prepared
        series := written
        postings := (postingLists (labelIds prepared (written.map SeriesWritten.id))).map
          postingsWritten } ∧
      List.Forall₂ (WrittenAs (symbolsOf prepared)) prepared written := by
  obtain ⟨w, w', hbuild, hclose⟩ := writeIndex_iff.mp hok
  have htable := hfits.table hbuild
  obtain ⟨refs, w₁, ids, w₂, w₃, hstart, hseries, hfinish, hlists⟩ := buildIndex_iff.mp hbuild
  have hpostings := hfits.postings hstart hseries
  obtain ⟨h₁, hstage₁, hrefs, -⟩ := startIndex_ok hstart hfits.symbols
  obtain ⟨written, h₂, hstage₂, hwritten, rfl⟩ := addAllSeries_ok h₁ hstage₁ hrefs hseries hmetas
    fun hsplit hfront ↦ hfits.series hsplit hstart hfront
  have h₃ := h₂.finishSeries hfinish
  have h₄ := addAllPostings_ok h₃ hlists hpostings
  obtain ⟨r, hopen, hserves⟩ := h₄.serves htable hclose
  exact ⟨r, written, hopen, hserves, hwritten⟩

end MerlionTsdb.Block
