import MerlionTsdb.Block.IndexLayout

/-!
# An index written and read back

`Laid` relates a writer to the contents of the calls it has accepted.  Every call keeps it, accepted or
not, and what an accepted `close` leaves in the file is served by a reader.
-/

namespace MerlionTsdb.Block

open Encoding Model Wal

/-! ## What a run has accepted -/

structure SeriesWritten where
  id : UInt32
  labelRefs : List (UInt32 × UInt32)
  chunkMetas : List ChunkMeta
  deriving DecidableEq

structure PostingsWritten where
  name : Str
  value : Str
  seriesIds : List UInt32
  deriving DecidableEq

structure IndexContents where
  symbols : List Str := []
  series : List SeriesWritten := []
  postings : List PostingsWritten := []
  deriving DecidableEq

/-- What an accepted call adds. -/
def IndexContents.add (x : IndexContents) (s : IndexStep) : IndexContents :=
  match s.call, s.answer with
  | .addSymbol sym, .ok _ => { x with symbols := x.symbols ++ [sym] }
  | .addSeries labelRefs chunkMetas, .ok (some id) =>
    { x with series := x.series ++ [⟨id, labelRefs, chunkMetas.1⟩] }
  | .addPostings name value seriesIds, .ok _ =>
    { x with postings := x.postings ++ [⟨name, value, seriesIds⟩] }
  | _, _ => x

/-- The contents of the accepted calls of a run. -/
def contents (steps : List IndexStep) : IndexContents := steps.foldl IndexContents.add {}

/-- An accepted call keeps within the widths of the format: 32 bits for the length of a section, and
for the offset of a series in units of 16 bytes. -/
def IndexStep.Fits (s : IndexStep) : Prop :=
  match s.call, s.answer with
  | .finishSymbols, .ok _ => s.writer.reserveSymbols.buf.length - 9 < 2 ^ 32
  | .addSeries _ _, .ok _ => (padTo s.writer.buf kIndexSeriesAlign).length < 2 ^ 36
  | .addPostings _ _ seriesIds, .ok _ => 4 + 4 * seriesIds.length < 2 ^ 32
  | .close _, .ok _ => (tablePayload s.writer.pendingPostings).length < 2 ^ 32
  | _, _ => True

instance (s : IndexStep) : Decidable s.Fits := by
  unfold IndexStep.Fits
  split <;> infer_instance

/-- The label of a pair of symbol references. -/
def Resolves (symbols : List Str) (r : UInt32 × UInt32) (l : Label) : Prop :=
  symbols[r.1.toNat]? = some l.name ∧ symbols[r.2.toNat]? = some l.value

/-! ## The buffer -/

def indexHeader : Bytes := putBe32 kMagicIndex ++ [kIndexWriteFormat]

/-- The TOC of a writer. -/
def IndexTOC.bytes (t : IndexTOC) : Bytes :=
  putBe64 t.symbols ++ (putBe64 t.series ++ (putBe64 t.labelIndices ++
    (putBe64 t.labelIndicesTable ++ (putBe64 t.postings ++ putBe64 t.postingsTable))))

theorem patchBe32_append {x : Bytes} (front rest : Bytes) (hx : x.length = 4) (v : UInt32) :
    patchBe32 (front ++ (x ++ rest)) front.length v = front ++ (putBe32 v ++ rest) := by
  unfold patchBe32
  rw [List.take_left, ← hx, ← List.length_append, ← List.append_assoc front x rest, List.drop_left]

theorem appendCrc_append (front payload : Bytes) :
    appendCrc (front ++ payload) front.length (front.length + payload.length) =
      front ++ (payload ++ putBe32 (Crc32c.compute payload)) := by
  unfold appendCrc
  rw [List.drop_left, Nat.add_sub_cancel_left, List.take_length, List.append_assoc]

theorem padTo_eq (buf : Bytes) (align : Nat) : ∃ zeros, padTo buf align = buf ++ zeros := by
  unfold padTo
  split
  · exact ⟨_, rfl⟩
  · exact ⟨[], by simp⟩

theorem length_padTo_le (buf : Bytes) (align : Nat) :
    (padTo buf align).length ≤ buf.length + align := by
  unfold padTo
  split
  · rw [List.length_append, List.length_replicate]
    omega
  · omega

theorem length_padTo_mod (buf : Bytes) {align : Nat} (h : 0 < align) :
    (padTo buf align).length % align = 0 := by
  unfold padTo
  split
  · -- The padding fills the last block.
    have hlt := Nat.mod_lt buf.length h
    rw [List.length_append, List.length_replicate]
    have hsplit := Nat.div_add_mod buf.length align
    rw [show buf.length + (align - buf.length % align) =
      align * (buf.length / align + 1) by rw [Nat.mul_add]; omega]
    exact Nat.mul_mod_right _ _
  · omega

/-- A 32-bit section: space for the length, the payload, the length patched in, the CRC. -/
theorem appendCrc_patchBe32 (buf payload : Bytes) :
    appendCrc (patchBe32 (buf ++ putBe32 0 ++ payload) buf.length
        (UInt32.ofNat ((buf ++ putBe32 0 ++ payload).length - (buf ++ putBe32 0).length)))
      (buf ++ putBe32 0).length (buf ++ putBe32 0 ++ payload).length =
    buf ++ section32 payload := by
  have hlength : (buf ++ putBe32 0 ++ payload).length - (buf ++ putBe32 0).length =
      payload.length := by
    rw [List.length_append, Nat.add_sub_cancel_left]
  have hpatch := patchBe32_append buf payload (length_putBe32 0) (UInt32.ofNat payload.length)
  have hcrc := appendCrc_append (buf ++ putBe32 (UInt32.ofNat payload.length)) payload
  rw [hlength, List.append_assoc buf, hpatch, ← List.append_assoc]
  simp only [List.length_append, length_putBe32] at hcrc ⊢
  rw [← Nat.add_assoc, hcrc, section32, List.append_assoc]

/-- The last 52 bytes are the TOC and its CRC. -/
theorem parseToc_append (front : Bytes) (t : IndexTOC) :
    parseToc (front ++ (t.bytes ++ putBe32 (Crc32c.compute t.bytes))) = .ok t := by
  have hlen : t.bytes.length = 48 := rfl
  have htoc := subspan_append front (t.bytes ++ putBe32 (Crc32c.compute t.bytes)) []
    (by rw [List.length_append, hlen, length_putBe32]; decide)
  have hstored := subspan_append t.bytes (putBe32 (Crc32c.compute t.bytes)) []
    (by rw [length_putBe32]; decide)
  have hbody := subspan_append [] t.bytes (putBe32 (Crc32c.compute t.bytes)) (by rw [hlen]; decide)
  have hcrc := readBe32_putBe32 (Crc32c.compute t.bytes) []
  simp only [List.append_nil, List.nil_append, List.length_append, hlen, length_putBe32,
    List.length_nil] at htoc hstored hbody hcrc
  have hsize : (front ++ (t.bytes ++ putBe32 (Crc32c.compute t.bytes))).length =
      front.length + kIndexTocSize := by
    simp only [List.length_append, hlen, length_putBe32]
    rfl
  unfold parseToc
  rw [if_neg (by omega), hsize, Nat.add_sub_cancel, show kIndexTocSize = 48 + 4 from rfl, htoc]
  simp only [ok_bind]
  rw [hstored, hbody]
  simp only [ok_bind]
  rw [hcrc, if_pos rfl]
  -- Each word is read where it was put.
  have hdrop : ∀ (x : UInt64) (rest : Bytes) (n : Nat),
      (putBe64 x ++ rest).drop (8 + n) = rest.drop n := by
    intro x rest n
    rw [← List.drop_drop]
    rfl
  have hskip : ∀ (x : UInt64) (rest : Bytes), (putBe64 x ++ rest).drop 8 = rest := fun _ _ ↦ rfl
  simp only [IndexTOC.bytes, List.append_assoc, show (16 : Nat) = 8 + 8 from rfl,
    show (24 : Nat) = 8 + (8 + 8) from rfl, show (32 : Nat) = 8 + (8 + (8 + 8)) from rfl,
    show (40 : Nat) = 8 + (8 + (8 + (8 + 8))) from rfl, hdrop, hskip, readBe64_putBe64]

/-- A file of which the write loop was told that it is complete is the buffer. -/
theorem writeRemaining_true {calls : List WriteResult} {data written : Bytes}
    (h : writeRemaining calls data = (true, written)) : written = data := by
  induction calls generalizing data written with
  | nil => cases data <;> cases h <;> rfl
  | cons r calls ih =>
    cases data with
    | nil => cases h; rfl
    | cons b data =>
      cases r with
      | interrupted => exact ih h
      | failed => cases h
      | wrote n =>
        simp only [writeRemaining] at h
        rcases hrest : writeRemaining calls ((b :: data).drop n) with ⟨ok, rest⟩
        rw [hrest] at h
        dsimp only at h
        rw [Prod.mk.injEq] at h
        have hok : ok = true := h.1
        rw [hok] at hrest
        rw [← h.2, ih hrest, List.take_append_drop]

/-! ## The writer -/

namespace IndexWriter

variable {w : IndexWriter}

theorem addSeries_eq (h : w.stage = .series) (labelRefs : List (UInt32 × UInt32))
    (chunkMetas : List ChunkMeta) :
    ∃ off, w.addSeries labelRefs chunkMetas =
      (.ok (UInt32.ofNat ((padTo w.buf kIndexSeriesAlign).length / kIndexSeriesAlign)),
        { w with
          buf := padTo w.buf kIndexSeriesAlign ++ sectionUv (seriesPayload labelRefs chunkMetas)
          offSeries := off
          seriesCount := w.seriesCount + 1 }) := by
  unfold addSeries
  rw [if_neg (not_not.mpr h)]
  dsimp only
  rw [appendCrc_append]
  exact ⟨_, by rw [sectionUv, List.append_assoc]⟩

theorem addPostings_eq (h : w.stage = .postings) {name value : Str} {seriesIds : List UInt32}
    (hids : ascending seriesIds = true) :
    w.addPostings name value seriesIds = (.ok (),
      { w with
        buf := padTo w.buf 4 ++ section32 (postingsPayload seriesIds)
        pendingPostings := w.pendingPostings ++
          [{ name := name, value := value, offset := UInt64.ofNat (padTo w.buf 4).length }] }) := by
  unfold addPostings
  rw [if_neg (not_not.mpr h), if_neg (by simp [hids])]
  dsimp only
  rw [appendCrc_patchBe32]
  rfl

theorem appendTables_buf (w : IndexWriter) :
    ∃ toc : IndexTOC, toc.symbols = w.offSymbols ∧ toc.postingsTable = UInt64.ofNat w.buf.length ∧
      w.appendTables.buf = w.buf ++ (section32 (tablePayload w.pendingPostings) ++
        (toc.bytes ++ putBe32 (Crc32c.compute toc.bytes))) := by
  refine ⟨⟨w.offSymbols, w.offSeries, w.offLabelIdx, w.offLabelTbl, w.offPostings,
    UInt64.ofNat w.buf.length⟩, rfl, rfl, ?_⟩
  unfold appendTables
  dsimp only
  rw [appendCrc_patchBe32]
  have hcrc := appendCrc_append (w.buf ++ section32 (tablePayload w.pendingPostings))
    (IndexTOC.bytes ⟨w.offSymbols, w.offSeries, w.offLabelIdx, w.offLabelTbl, w.offPostings,
      UInt64.ofNat w.buf.length⟩)
  rw [← List.append_assoc w.buf, ← hcrc]
  rfl

/-- A symbol goes to the end, and its reference is the number of symbols before it. -/
theorem addSymbol_cases {sym : Str} {r : Except Errc UInt32} {w' : IndexWriter}
    (h : w.addSymbol sym = (r, w')) :
    (r = .ok w.nextSymRef ∧ w.stage = .symbols ∧ w' = { w.reserveSymbols with
        buf := w.reserveSymbols.buf ++ putUvarintStr sym
        anySymbol := true
        lastSymbol := sym
        nextSymRef := w.nextSymRef + 1 }) ∨
      (∃ e, r = .error e ∧ w' = w) := by
  unfold addSymbol at h
  split at h
  · cases h
    exact Or.inr ⟨_, rfl, rfl⟩
  · rename_i hstage
    split at h
    · cases h
      exact Or.inr ⟨_, rfl, rfl⟩
    · cases h
      rw [reserveSymbols_nextSymRef]
      exact Or.inl ⟨rfl, not_not.mp hstage, rfl⟩

theorem finishSymbols_cases {r : Except Errc Unit} {w' : IndexWriter}
    (h : w.finishSymbols = (r, w')) :
    (r = .ok () ∧ w.stage = .symbols) ∨ (∃ e, r = .error e ∧ w' = w) := by
  unfold finishSymbols at h
  split at h
  · cases h
    exact Or.inr ⟨_, rfl, rfl⟩
  · rename_i hstage
    cases h
    exact Or.inl ⟨rfl, not_not.mp hstage⟩

theorem addSeries_cases {labelRefs : List (UInt32 × UInt32)} {chunkMetas : List ChunkMeta}
    {r : Except Errc UInt32} {w' : IndexWriter} (h : w.addSeries labelRefs chunkMetas = (r, w')) :
    (∃ id, r = .ok id ∧ w.stage = .series) ∨ (∃ e, r = .error e ∧ w' = w) := by
  unfold addSeries at h
  split at h
  · cases h
    exact Or.inr ⟨_, rfl, rfl⟩
  · rename_i hstage
    cases h
    exact Or.inl ⟨_, rfl, not_not.mp hstage⟩

/-- `finish_series` pads the buffer. -/
theorem finishSeries_cases {r : Except Errc Unit} {w' : IndexWriter}
    (h : w.finishSeries = (r, w')) :
    (r = .ok () ∧ w.stage = .series ∧ w'.buf = padTo w.buf kIndexSeriesAlign ∧
      w'.offSymbols = w.offSymbols ∧ w'.pendingPostings = w.pendingPostings ∧
      w'.stage = .postings) ∨
    (∃ e, r = .error e ∧ w' = w) := by
  unfold finishSeries at h
  split at h
  · cases h
    exact Or.inr ⟨_, rfl, rfl⟩
  · rename_i hstage
    cases h
    exact Or.inl ⟨rfl, not_not.mp hstage, rfl, rfl, rfl, rfl⟩

theorem addPostings_cases {name value : Str} {seriesIds : List UInt32} {r : Except Errc Unit}
    {w' : IndexWriter} (h : w.addPostings name value seriesIds = (r, w')) :
    (r = .ok () ∧ w.stage = .postings) ∨ (∃ e, r = .error e ∧ w' = w) := by
  unfold addPostings at h
  split at h
  · cases h
    exact Or.inr ⟨_, rfl, rfl⟩
  · rename_i hstage
    split at h
    · cases h
      exact Or.inr ⟨_, rfl, rfl⟩
    · cases h
      exact Or.inl ⟨rfl, not_not.mp hstage⟩

/-- What an accepted `close` has done. -/
theorem close_ok {file file' : Option Bytes} {calls : IndexCloseCalls} {w' : IndexWriter}
    (h : w.close file calls = (.ok (), w', file')) :
    w.stage = .postings ∧ w' = { w.appendTables with stage := .done } ∧
      file' = some w.appendTables.buf ∧ w.appendTables.buf.length ≤ kMaxSize := by
  unfold close at h
  by_cases hstage : w.stage = .postings
  · rw [if_neg (not_not.mpr hstage)] at h
    dsimp only at h
    by_cases hsize : kMaxSize < w.appendTables.buf.length
    · rw [if_pos hsize] at h
      cases h
    · rw [if_neg hsize] at h
      split at h
      · cases h
      · split at h
        · cases h
        · rcases hwrite : writeRemaining calls.write w.appendTables.buf with ⟨ok, written⟩
          rw [hwrite] at h
          dsimp only at h
          split at h
          · cases h
          · rename_i hok
            have hok' : ok = true := by
              cases ok
              · simp at hok
              · rfl
            rw [hok'] at hwrite
            cases h
            exact ⟨hstage, rfl, by rw [writeRemaining_true hwrite], Nat.not_lt.mp hsize⟩
  · rw [if_pos hstage] at h
    cases h

/-- A `close` that is not accepted has appended the tables, or done nothing. -/
theorem close_error {file file' : Option Bytes} {calls : IndexCloseCalls} {w' : IndexWriter}
    {e : Failure} (h : w.close file calls = (.error e, w', file')) :
    w' = w ∨ w.stage = .postings ∧ w' = w.appendTables := by
  unfold close at h
  by_cases hstage : w.stage = .postings
  · rw [if_neg (not_not.mpr hstage)] at h
    dsimp only at h
    apply Or.inr
    refine ⟨hstage, ?_⟩
    split at h
    · cases h; rfl
    · split at h
      · cases h; rfl
      · split at h
        · cases h; rfl
        · split at h
          · cases h; rfl
          · cases h
  · rw [if_pos hstage] at h
    cases h
    exact Or.inl rfl

end IndexWriter

/-! ## Accepted contents and the buffer -/

/-- The writer takes symbols: the section is complete but for its length, its count and its CRC. -/
structure InSymbols (w : IndexWriter) (x : IndexContents) : Prop where
  stage_eq : w.stage = .symbols
  series_eq : x.series = []
  postings_eq : x.postings = []
  pending_eq : w.pendingPostings = []
  buf_eq : w.reserveSymbols.buf =
    indexHeader ++ (putBe32 0 ++ (putBe32 0 ++ x.symbols.flatMap putUvarintStr))
  off_eq : w.reserveSymbols.offSymbols = 5
  len_off_eq : w.reserveSymbols.symbolsLenOff = 9
  next_eq : w.nextSymRef = UInt32.ofNat x.symbols.length

/-- The entry of the table belongs to the accepted posting list. -/
def EntryLaid (buf : Bytes) (e : PendingEntry) (p : PostingsWritten) : Prop :=
  e.name = p.name ∧ e.value = p.value ∧ 4 + 4 * p.seriesIds.length < 2 ^ 32 ∧
    ∃ off, e.offset = UInt64.ofNat off ∧ Placed buf off (section32 (postingsPayload p.seriesIds))

/-- Where the id of an accepted series points. -/
def SeriesLaid (buf : Bytes) (s : SeriesWritten) : Prop :=
  s.chunkMetas.length ≤ kMaxChunkMetas ∧
    Placed buf (16 * s.id.toNat) (sectionUv (seriesPayload s.labelRefs s.chunkMetas))

/-- The sections of a writer that takes no symbols any more. -/
structure SectionsLaid (w : IndexWriter) (x : IndexContents) : Prop where
  stage_ne : w.stage ≠ .header ∧ w.stage ≠ .symbols
  header : Placed w.buf 0 indexHeader
  off_eq : w.offSymbols = 5
  symbols_lt : (symbolsPayload x.symbols).length < 2 ^ 32
  symbols : Placed w.buf 5 (section32 (symbolsPayload x.symbols))
  series : ∀ s ∈ x.series, SeriesLaid w.buf s
  ids : x.series.Pairwise fun s t ↦ s.id < t.id
  postings : List.Forall₂ (EntryLaid w.buf) w.pendingPostings x.postings

def Laid (w : IndexWriter) (x : IndexContents) : Prop := InSymbols w x ∨ SectionsLaid w x

theorem SeriesLaid.append {buf : Bytes} {s : SeriesWritten} (h : SeriesLaid buf s) (more : Bytes) :
    SeriesLaid (buf ++ more) s := ⟨h.1, h.2.append more⟩

theorem EntryLaid.append {buf : Bytes} {e : PendingEntry} {p : PostingsWritten}
    (h : EntryLaid buf e p) (more : Bytes) : EntryLaid (buf ++ more) e p := by
  obtain ⟨hname, hvalue, hlen, off, hoff, hplaced⟩ := h
  exact ⟨hname, hvalue, hlen, off, hoff, hplaced.append more⟩

/-- A longer buffer keeps every section. -/
theorem SectionsLaid.grow {w w' : IndexWriter} {x : IndexContents} (h : SectionsLaid w x)
    {more : Bytes} (hbuf : w'.buf = w.buf ++ more) (hoff : w'.offSymbols = w.offSymbols)
    (hpending : w'.pendingPostings = w.pendingPostings)
    (hstage : w'.stage ≠ .header ∧ w'.stage ≠ .symbols) : SectionsLaid w' x := by
  constructor
  · exact hstage
  · rw [hbuf]
    exact h.header.append more
  · rw [hoff]
    exact h.off_eq
  · exact h.symbols_lt
  · rw [hbuf]
    exact h.symbols.append more
  · intro s hs
    rw [hbuf]
    exact (h.series s hs).append more
  · exact h.ids
  · rw [hbuf, hpending]
    exact h.postings.imp fun _ _ he ↦ he.append more

/-! ## The calls -/

namespace InSymbols

variable {w : IndexWriter} {x : IndexContents}

/-- A symbol more. -/
theorem addSymbol (h : InSymbols w x) (sym : Str) {ref : UInt32} {w' : IndexWriter}
    (hadd : w.addSymbol sym = (.ok ref, w')) :
    InSymbols w' { x with symbols := x.symbols ++ [sym] } := by
  rcases IndexWriter.addSymbol_cases hadd with ⟨-, -, rfl⟩ | ⟨e, he, -⟩
  · constructor
    · simp [h.stage_eq]
    · exact h.series_eq
    · exact h.postings_eq
    · simp [h.pending_eq]
    · -- From now on the space is there.
      show w.reserveSymbols.buf ++ putUvarintStr sym = _
      rw [h.buf_eq]
      simp
    · exact h.off_eq
    · exact h.len_off_eq
    · show w.nextSymRef + 1 = _
      simp [h.next_eq]
  · cases he

/-- The symbol section is patched and closed. -/
theorem finishSymbols (h : InSymbols w x) :
    ∃ w', w.finishSymbols = (.ok (), w') ∧ w'.stage = .series ∧ w'.offSymbols = 5 ∧
      w'.pendingPostings = [] ∧ w'.buf = indexHeader ++ section32 (symbolsPayload x.symbols) := by
  unfold IndexWriter.finishSymbols
  rw [if_neg (not_not.mpr h.stage_eq)]
  refine ⟨_, rfl, rfl, h.off_eq, by simp [h.pending_eq], ?_⟩
  dsimp only
  rw [h.buf_eq, h.len_off_eq, h.off_eq, IndexWriter.reserveSymbols_nextSymRef, h.next_eq]
  -- First the count, at offset 9, then the length, at offset 5.
  have hcount := patchBe32_append (indexHeader ++ putBe32 0) (x.symbols.flatMap putUvarintStr)
    (length_putBe32 0) (UInt32.ofNat x.symbols.length)
  have hsection := appendCrc_patchBe32 indexHeader (symbolsPayload x.symbols)
  rw [List.append_assoc indexHeader, List.append_assoc indexHeader] at hcount
  unfold symbolsPayload at hsection ⊢
  rw [← hsection]
  have hheader : (indexHeader ++ putBe32 0).length = 9 := rfl
  have hmagic : indexHeader.length = 5 := rfl
  rw [hheader] at hcount
  rw [hcount, hheader, hmagic, List.append_assoc indexHeader]
  rfl

/-- From then on the sections are laid. -/
theorem sectionsLaid (h : InSymbols w x) (hfit : w.reserveSymbols.buf.length - 9 < 2 ^ 32)
    {w' : IndexWriter} (hfinish : w.finishSymbols = (.ok (), w')) : SectionsLaid w' x := by
  obtain ⟨w₂, hfinish₂, hstage, hoff, hpending, hbuf⟩ := h.finishSymbols
  rw [hfinish] at hfinish₂
  cases hfinish₂
  have hlen : (symbolsPayload x.symbols).length < 2 ^ 32 := by
    rw [h.buf_eq] at hfit
    simp only [symbolsPayload, indexHeader, List.length_append, length_putBe32,
      List.length_singleton] at hfit ⊢
    omega
  constructor
  · simp [hstage]
  · rw [hbuf]
    exact Placed.intro [] indexHeader _
  · exact hoff
  · exact hlen
  · rw [hbuf]
    exact Placed.of_append indexHeader _
  · simp [h.series_eq]
  · simp [h.series_eq]
  · simp [h.postings_eq, hpending]

end InSymbols

namespace SectionsLaid

variable {w : IndexWriter} {x : IndexContents}

/-- A series more: its id is beyond all others. -/
theorem addSeries (h : SectionsLaid w x) (hstage : w.stage = .series)
    (labelRefs : List (UInt32 × UInt32)) {chunkMetas : List ChunkMeta}
    (hmetas : chunkMetas.length ≤ kMaxChunkMetas)
    (hfit : (padTo w.buf kIndexSeriesAlign).length < 2 ^ 36) {id : UInt32} {w' : IndexWriter}
    (hadd : w.addSeries labelRefs chunkMetas = (.ok id, w')) :
    SectionsLaid w' { x with series := x.series ++ [⟨id, labelRefs, chunkMetas⟩] } := by
  obtain ⟨off, heq⟩ := IndexWriter.addSeries_eq hstage labelRefs chunkMetas
  rw [heq] at hadd
  obtain ⟨zeros, hzeros⟩ := padTo_eq w.buf kIndexSeriesAlign
  have hmod := length_padTo_mod w.buf (show 0 < kIndexSeriesAlign by decide)
  have halign : kIndexSeriesAlign = 16 := rfl
  rw [halign] at hmod hfit hadd hzeros
  -- The offset is a multiple of 16 that 32 bits hold.
  have hid : 16 * (UInt32.ofNat ((padTo w.buf 16).length / 16)).toNat = (padTo w.buf 16).length := by
    rw [UInt32.toNat_ofNat_of_lt']
    · omega
    · rw [UInt32.size]
      omega
  have hle : w.buf.length ≤ (padTo w.buf 16).length := by
    rw [hzeros, List.length_append]
    omega
  have hgrow : SectionsLaid w' x := by
    cases hadd
    rw [hzeros, List.append_assoc]
    exact h.grow rfl rfl rfl h.stage_ne
  cases hadd
  constructor
  · exact hgrow.stage_ne
  · exact hgrow.header
  · exact hgrow.off_eq
  · exact hgrow.symbols_lt
  · exact hgrow.symbols
  · intro s hs
    rcases List.mem_append.mp hs with hs | hs
    · exact hgrow.series s hs
    · rw [List.mem_singleton] at hs
      subst hs
      refine ⟨hmetas, ?_⟩
      dsimp only
      rw [hid]
      exact Placed.of_append _ _
  · show (x.series ++ [_]).Pairwise _
    rw [List.pairwise_append]
    refine ⟨h.ids, List.pairwise_singleton _ _, ?_⟩
    intro s hs t ht
    rw [List.mem_singleton] at ht
    subst ht
    -- The entry of an earlier series ends in the old buffer.
    have hend := (h.series s hs).2.end_le
    have hpos : 0 < (sectionUv (seriesPayload s.labelRefs s.chunkMetas)).length := by
      simp [sectionUv]
    rw [UInt32.lt_iff_toNat_lt]
    dsimp only
    omega
  · exact hgrow.postings

/-- A posting list more. -/
theorem addPostings (h : SectionsLaid w x) {name value : Str} {seriesIds : List UInt32}
    (hfit : 4 + 4 * seriesIds.length < 2 ^ 32) {w' : IndexWriter}
    (hadd : w.addPostings name value seriesIds = (.ok (), w')) :
    SectionsLaid w' { x with postings := x.postings ++ [⟨name, value, seriesIds⟩] } := by
  by_cases hstage : w.stage = .postings
  · by_cases hids : IndexWriter.ascending seriesIds = true
    · rw [IndexWriter.addPostings_eq hstage hids] at hadd
      -- The list goes behind a padding: all that stands in front stays where it is.
      obtain ⟨zeros, hzeros⟩ := padTo_eq w.buf 4
      cases hadd
      constructor
      · exact h.stage_ne
      · show Placed (padTo w.buf 4 ++ _) 0 indexHeader
        rw [hzeros, List.append_assoc]
        exact h.header.append _
      · exact h.off_eq
      · exact h.symbols_lt
      · show Placed (padTo w.buf 4 ++ _) 5 _
        rw [hzeros, List.append_assoc]
        exact h.symbols.append _
      · intro s hs
        show SeriesLaid (padTo w.buf 4 ++ _) s
        rw [hzeros, List.append_assoc]
        exact (h.series s hs).append _
      · exact h.ids
      · show List.Forall₂ _ (w.pendingPostings ++ [_]) (x.postings ++ [_])
        apply List.rel_append
        · apply h.postings.imp
          intro e p he
          show EntryLaid (padTo w.buf 4 ++ _) e p
          rw [hzeros, List.append_assoc]
          exact he.append _
        · exact List.Forall₂.cons ⟨rfl, rfl, hfit, _, rfl, Placed.of_append _ _⟩ List.Forall₂.nil
    · unfold IndexWriter.addPostings at hadd
      rw [if_neg (not_not.mpr hstage), if_pos (by simp [hids])] at hadd
      cases hadd
  · unfold IndexWriter.addPostings at hadd
    rw [if_pos hstage] at hadd
    cases hadd

end SectionsLaid

/-! ## Runs -/

/-- A call keeps the writer in step with what was accepted. -/
theorem Laid.perform {w w' : IndexWriter} {x : IndexContents} (h : Laid w x)
    {file file' : Option Bytes} {c : IndexCall} {answer : Except Failure (Option UInt32)}
    (hperform : perform w file c = (answer, w', file'))
    (hfit : (IndexStep.mk w c answer).Fits) : Laid w' (x.add ⟨w, c, answer⟩) := by
  cases c with
  | addSymbol sym =>
    simp only [Block.perform] at hperform
    rcases hadd : w.addSymbol sym with ⟨r, w₁⟩
    rw [hadd] at hperform
    cases hperform
    rcases IndexWriter.addSymbol_cases hadd with ⟨rfl, hstage, -⟩ | ⟨e, rfl, rfl⟩
    · rcases h with h | h
      · exact Or.inl (h.addSymbol sym hadd)
      · exact absurd hstage h.stage_ne.2
    · exact h
  | finishSymbols =>
    simp only [Block.perform] at hperform
    rcases hadd : w.finishSymbols with ⟨r, w₁⟩
    rw [hadd] at hperform
    cases hperform
    rcases IndexWriter.finishSymbols_cases hadd with ⟨rfl, hstage⟩ | ⟨e, rfl, rfl⟩
    · rcases h with h | h
      · exact Or.inr (h.sectionsLaid hfit hadd)
      · exact absurd hstage h.stage_ne.2
    · exact h
  | addSeries labelRefs chunkMetas =>
    simp only [Block.perform] at hperform
    rcases hadd : w.addSeries labelRefs chunkMetas.1 with ⟨r, w₁⟩
    rw [hadd] at hperform
    cases hperform
    rcases IndexWriter.addSeries_cases hadd with ⟨id, rfl, hstage⟩ | ⟨e, rfl, rfl⟩
    · rcases h with h | h
      · rw [h.stage_eq] at hstage
        cases hstage
      · exact Or.inr (h.addSeries hstage labelRefs chunkMetas.2 hfit hadd)
    · exact h
  | finishSeries =>
    simp only [Block.perform] at hperform
    rcases hadd : w.finishSeries with ⟨r, w₁⟩
    rw [hadd] at hperform
    cases hperform
    rcases IndexWriter.finishSeries_cases hadd with
      ⟨rfl, hstage, hbuf, hoff, hpending, hstage'⟩ | ⟨e, rfl, rfl⟩
    · rcases h with h | h
      · rw [h.stage_eq] at hstage
        cases hstage
      · obtain ⟨zeros, hzeros⟩ := padTo_eq w.buf kIndexSeriesAlign
        rw [hzeros] at hbuf
        exact Or.inr (h.grow hbuf hoff hpending (by simp [hstage']))
    · exact h
  | addPostings name value seriesIds =>
    simp only [Block.perform] at hperform
    rcases hadd : w.addPostings name value seriesIds with ⟨r, w₁⟩
    rw [hadd] at hperform
    cases hperform
    rcases IndexWriter.addPostings_cases hadd with ⟨rfl, hstage⟩ | ⟨e, rfl, rfl⟩
    · rcases h with h | h
      · rw [h.stage_eq] at hstage
        cases hstage
      · exact Or.inr (h.addPostings hfit hadd)
    · exact h
  | close calls =>
    simp only [Block.perform] at hperform
    rcases hclose : w.close file calls with ⟨r, w₁, file₁⟩
    rw [hclose] at hperform
    cases hperform
    -- Whatever `close` answers, it has appended the tables or done nothing.
    obtain ⟨toc, -, -, hbuf⟩ := IndexWriter.appendTables_buf w
    show Laid w₁ x
    have hwriter : w₁ = w ∨ w.stage = .postings ∧ w₁.buf = w.appendTables.buf ∧
        w₁.offSymbols = w.offSymbols ∧ w₁.pendingPostings = w.pendingPostings ∧
        (w₁.stage = .postings ∨ w₁.stage = .done) := by
      cases r with
      | ok u =>
        obtain ⟨hstage, rfl, -, -⟩ := IndexWriter.close_ok hclose
        exact Or.inr ⟨hstage, rfl, rfl, rfl, Or.inr rfl⟩
      | error e =>
        rcases IndexWriter.close_error hclose with rfl | ⟨hstage, rfl⟩
        · exact Or.inl rfl
        · exact Or.inr ⟨hstage, rfl, rfl, rfl, Or.inl hstage⟩
    rcases hwriter with rfl | ⟨hstage, hbuf', hoff, hpending, hstage'⟩
    · exact h
    · rcases h with h | h
      · rw [h.stage_eq] at hstage
        cases hstage
      · rw [hbuf] at hbuf'
        refine Or.inr (h.grow hbuf' hoff hpending ?_)
        rcases hstage' with hstage' | hstage' <;> simp [hstage']

/-- A whole run. -/
theorem Laid.run {w w' : IndexWriter} {x : IndexContents} (h : Laid w x)
    {file file' : Option Bytes} {calls : List IndexCall} {steps : List IndexStep}
    (hrun : runIndexCalls w file calls = (steps, w', file')) (hfits : ∀ s ∈ steps, s.Fits) :
    Laid w' (steps.foldl IndexContents.add x) := by
  induction calls generalizing w file x steps with
  | nil =>
    cases hrun
    exact h
  | cons c calls ih =>
    unfold runIndexCalls at hrun
    rcases hperform : Block.perform w file c with ⟨answer, w₁, file₁⟩
    rcases hrest : runIndexCalls w₁ file₁ calls with ⟨rest, w₂, file₂⟩
    rw [hperform] at hrun
    dsimp only at hrun
    rw [hrest] at hrun
    cases hrun
    rw [List.foldl_cons]
    exact ih (h.perform hperform (hfits _ List.mem_cons_self)) hrest
      fun s hs ↦ hfits s (List.mem_cons_of_mem _ hs)

/-- A writer just created. -/
theorem laid_create {w : IndexWriter} (h : IndexWriter.create none = .ok w) : Laid w {} := by
  cases h
  apply Or.inl
  constructor <;> rfl

/-! ## The reader -/

/-- The reader serves the contents. -/
structure Serves (r : IndexReader) (x : IndexContents) : Prop where
  symbols : ∀ (i : UInt32) (sym : Str), x.symbols[i.toNat]? = some sym →
    r.symbols.lookup i = .ok sym.bytes
  count_eq : r.symbols.count.toNat = x.symbols.length
  ids : x.series.Pairwise fun s t ↦ s.id < t.id
  series : ∀ s ∈ x.series, ∀ labels : Labels,
    List.Forall₂ (Resolves x.symbols) s.labelRefs labels.entries →
      r.series s.id.toUInt64 = .ok { labels := labels, chunks := s.chunkMetas }
  table_eq : r.postingsTable = PostingsOffsetTable.new r.postingsTable.entries
  postings : List.Forall₂ (fun e p ↦ e.name = p.name ∧ e.value = p.value ∧
    readPostingList r.data e.offset = .ok p.seriesIds) r.postingsTable.entries x.postings

/-- The symbol table of a reader. -/
def symbolTable (bytes : Bytes) (syms : List Str) (offsets : List Nat) : IndexSymbolTable where
  fileBytes := bytes
  version := kIndexWriteFormat
  count := UInt32.ofNat syms.length
  payloadOffset := 5 + 4
  sparseOffsets := offsets

/-- The reader of a file with its header, symbols and table in place. -/
def readerOf (bytes : Bytes) (toc : IndexTOC) (syms : List Str) (offsets : List Nat)
    (entries : List PendingEntry) : IndexReader where
  data := bytes
  version := kIndexWriteFormat
  toc := toc
  symbols := symbolTable bytes syms offsets
  postingsTable := .new (entries.map PendingEntry.toEntry)

theorem openFile_placed {bytes : Bytes} {toc : IndexTOC} {syms : List Str}
    {entries : List PendingEntry} (hmax : bytes.length ≤ kMaxSize)
    (hlong : kIndexHeaderSize + kIndexTocSize ≤ bytes.length)
    (hheader : Placed bytes 0 indexHeader) (htoc : parseToc bytes = .ok toc)
    (hsymsAt : toc.symbols = 5) (hsymsLen : (symbolsPayload syms).length < 2 ^ 32)
    (hsyms : Placed bytes 5 (section32 (symbolsPayload syms)))
    (htableLen : (tablePayload entries).length < 2 ^ 32)
    (htable : Placed bytes toc.postingsTable.toNat (section32 (tablePayload entries))) :
    ∃ offsets, IndexReader.openFile (some bytes) = .ok (readerOf bytes toc syms offsets entries) ∧
      ∀ i < syms.length, i % kSymbolSparseStride = 0 →
        offsets[i / kSymbolSparseStride]? = some (symbolPos (5 + 8) syms i) := by
  obtain ⟨offsets, hparse, hoffsets⟩ :=
    @IndexSymbolTable.parse_placed _ _ _ hmax kIndexWriteFormat hsymsLen hsyms
  have hparseTable := PostingsOffsetTable.parse_placed hmax htableLen htable
  refine ⟨offsets, ?_, hoffsets⟩
  obtain ⟨rest, hrest⟩ := hheader.drop_eq
  rw [List.drop_zero] at hrest
  have hmagic : readBe32 bytes = kMagicIndex := by
    rw [hrest, indexHeader, List.append_assoc, readBe32_putBe32]
  have hversion : bytes.getD 4 0 = kIndexWriteFormat := by
    rw [hrest]
    rfl
  have hsymsOff : toc.symbols.toNat = 5 := by
    rw [hsymsAt]
    rfl
  unfold IndexReader.openFile
  dsimp only
  rw [if_neg (Nat.not_lt.mpr hlong), if_neg (not_not.mpr hmagic), hversion, if_neg (by decide),
    htoc]
  simp only [ok_bind]
  rw [hsymsOff, hparse]
  simp only [ok_bind]
  rw [hparseTable]
  rfl

/-- A reader whose lists and series stand where the contents say serves them. -/
theorem readerOf_serves {bytes : Bytes} {toc : IndexTOC} {x : IndexContents} {offsets : List Nat}
    {entries : List PendingEntry} (hmax : bytes.length ≤ kMaxSize)
    (hsymsLen : (symbolsPayload x.symbols).length < 2 ^ 32)
    (hsyms : Placed bytes 5 (section32 (symbolsPayload x.symbols)))
    (hoffsets : ∀ i < x.symbols.length, i % kSymbolSparseStride = 0 →
      offsets[i / kSymbolSparseStride]? = some (symbolPos (5 + 8) x.symbols i))
    (hids : x.series.Pairwise fun s t ↦ s.id < t.id) (hseries : ∀ s ∈ x.series, SeriesLaid bytes s)
    (hpostings : List.Forall₂ (EntryLaid bytes) entries x.postings) :
    Serves (readerOf bytes toc x.symbols offsets entries) x := by
  have hk : kMaxSize = 2 ^ 63 - 1 := rfl
  have hversion : kIndexWriteFormat ≠ kIndexFormatV1 := by decide
  -- The symbols are fewer than the bytes of their section, whose length has 32 bits.
  have hcount : (UInt32.ofNat x.symbols.length).toNat = x.symbols.length := by
    have hle := length_le_flatMap_putUvarintStr x.symbols
    simp only [symbolsPayload, List.length_append] at hsymsLen
    apply UInt32.toNat_ofNat_of_lt'
    rw [UInt32.size]
    omega
  have hlookup : ∀ (i : UInt32) (sym : Str), x.symbols[i.toNat]? = some sym →
      (symbolTable bytes x.symbols offsets).lookup i = .ok sym.bytes := by
    intro i sym hsym
    exact IndexSymbolTable.lookup_placed hmax rfl hversion hcount hsyms.right.left.right hoffsets
      hsym
  constructor
  · exact hlookup
  · exact hcount
  · exact hids
  · -- An identifier is the offset of its series in units of 16 bytes.
    intro s hs labels hlabels
    obtain ⟨hmetas, hat⟩ := hseries s hs
    have hoff : s.id.toUInt64.toNat * 16 % 2 ^ 64 = 16 * s.id.toNat := by
      have hlt := s.id.toNat_lt
      rw [UInt32.toNat_toUInt64, Nat.mul_comm]
      exact Nat.mod_eq_of_lt (by omega)
    unfold IndexReader.series readerOf
    rw [if_neg hversion, hoff]
    dsimp only
    rw [readUvarintSectionPayload_placed hmax hat]
    simp only [ok_bind]
    apply decodeSeriesPayload_seriesPayload _ hmetas
    exact hlabels.imp fun r l hl ↦ ⟨hlookup _ _ hl.1, hlookup _ _ hl.2⟩
  · rfl
  · show List.Forall₂ _ (entries.map PendingEntry.toEntry) x.postings
    -- Each entry of the table leads to its list.
    rw [List.forall₂_map_left_iff]
    apply hpostings.imp
    rintro e p ⟨hname, hvalue, hlen, off, hoff, hat⟩
    refine ⟨hname, hvalue, ?_⟩
    have hle := hat.end_le
    have hoff' : e.toEntry.offset.toNat = off := by
      show e.offset.toNat = off
      rw [hoff, UInt64.toNat_ofNat_of_lt']
      rw [UInt64.size]
      omega
    apply readPostingList_placed hmax hlen
    rw [hoff']
    exact hat

/-- What an accepted `close` leaves is opened and served. -/
theorem SectionsLaid.serves {w w' : IndexWriter} {x : IndexContents} (h : SectionsLaid w x)
    (htable : (tablePayload w.pendingPostings).length < 2 ^ 32) {file file' : Option Bytes}
    {calls : IndexCloseCalls} (hclose : w.close file calls = (.ok (), w', file')) :
    ∃ r, IndexReader.openFile file' = .ok r ∧ Serves r x := by
  obtain ⟨-, -, rfl, hmax⟩ := IndexWriter.close_ok hclose
  obtain ⟨toc, hsyms, htbl, hbuf⟩ := IndexWriter.appendTables_buf w
  rw [hbuf] at hmax ⊢
  have htableOff : toc.postingsTable.toNat = w.buf.length := by
    have hk : kMaxSize = 2 ^ 63 - 1 := rfl
    rw [List.length_append] at hmax
    rw [htbl, UInt64.toNat_ofNat_of_lt']
    rw [UInt64.size]
    omega
  have htoc := parseToc_append (w.buf ++ section32 (tablePayload w.pendingPostings)) toc
  have hsymbols := h.symbols.append (section32 (tablePayload w.pendingPostings) ++
    (toc.bytes ++ putBe32 (Crc32c.compute toc.bytes)))
  rw [List.append_assoc] at htoc
  have hlong : kIndexHeaderSize + kIndexTocSize ≤ (w.buf ++
      (section32 (tablePayload w.pendingPostings) ++
        (toc.bytes ++ putBe32 (Crc32c.compute toc.bytes)))).length := by
    have hend := h.symbols.end_le
    have htocLen : toc.bytes.length = 48 := rfl
    simp only [length_section32, List.length_append, htocLen, length_putBe32, kIndexHeaderSize,
      kIndexTocSize] at hend ⊢
    omega
  obtain ⟨offsets, hopen, hoffsets⟩ := openFile_placed hmax hlong (h.header.append _) htoc
    (hsyms.trans h.off_eq) h.symbols_lt hsymbols htable (by rw [htableOff]; exact Placed.intro _ _ _)
  refine ⟨_, hopen, ?_⟩
  exact readerOf_serves hmax h.symbols_lt hsymbols hoffsets h.ids
    (fun s hs ↦ (h.series s hs).append _) (h.postings.imp fun _ _ he ↦ he.append _)

/-! ## The round trip -/

/-- Labels in ascending order of distinct names are no more than there are symbols. -/
theorem length_le_symbols {symbols : List Str} {labelRefs : List (UInt32 × UInt32)}
    {labels : List Label} (hsorted : labels.Pairwise fun a b ↦ a.name < b.name)
    (hlabels : List.Forall₂ (Resolves symbols) labelRefs labels) :
    labels.length ≤ symbols.length := by
  have hnodup : (labels.map Label.name).Nodup := by
    rw [List.Nodup, List.pairwise_map]
    exact hsorted.imp fun h ↦ h.ne
  have hsubset : labels.map Label.name ⊆ symbols := by
    clear hsorted hnodup
    induction hlabels with
    | nil => simp
    | cons hl hlabels ih =>
      rw [List.map_cons, List.cons_subset]
      exact ⟨List.mem_of_getElem? hl.1, ih⟩
  have hle := (List.subperm_of_subset hnodup hsubset).length_le
  rwa [List.length_map] at hle

theorem runIndexCalls_append (w : IndexWriter) (file : Option Bytes) (calls more : List IndexCall) :
    runIndexCalls w file (calls ++ more) =
      let (steps, w', file') := runIndexCalls w file calls
      let (steps', w'', file'') := runIndexCalls w' file' more
      (steps ++ steps', w'', file'') := by
  induction calls generalizing w file with
  | nil => rfl
  | cons c calls ih =>
    rw [List.cons_append, runIndexCalls, runIndexCalls]
    rcases perform w file c with ⟨answer, w', file'⟩
    dsimp only
    rw [ih]
    rfl

/-- What a run that ends with an accepted `close` leaves. -/
theorem closed_serves {w₀ w : IndexWriter} {calls : List IndexCall} {closeCalls : IndexCloseCalls}
    {steps : List IndexStep} {last : IndexStep} {file : Option Bytes}
    (hcreate : IndexWriter.create none = .ok w₀)
    (hrun : runIndexCalls w₀ none (calls ++ [.close closeCalls]) = (steps ++ [last], w, file))
    (hclosed : last.answer = .ok none) (hfits : ∀ s ∈ steps ++ [last], s.Fits) :
    ∃ r, IndexReader.openFile file = .ok r ∧ Serves r (contents (steps ++ [last])) := by
  rw [runIndexCalls_append] at hrun
  rcases hbefore : runIndexCalls w₀ none calls with ⟨steps₁, w₁, file₁⟩
  rw [hbefore] at hrun
  simp only [runIndexCalls, perform] at hrun
  rcases hclose : w₁.close file₁ closeCalls with ⟨answer, w₂, file₂⟩
  rw [hclose] at hrun
  rw [Prod.mk.injEq, Prod.mk.injEq] at hrun
  obtain ⟨hsteps, -, rfl⟩ := hrun
  obtain ⟨rfl, hlast⟩ := List.append_inj' hsteps rfl
  rw [List.singleton_inj] at hlast
  have hlaid := (laid_create hcreate).run hbefore fun s hs ↦ hfits s (List.mem_append_left _ hs)
  have hfit := hfits last (List.mem_append_right _ List.mem_cons_self)
  rw [← hlast] at hclosed hfit
  cases answer with
  | error e => cases hclosed
  | ok u =>
    have hcontents : contents (steps₁ ++ [last]) = contents steps₁ := by
      rw [contents, List.foldl_append, ← hlast]
      rfl
    rw [hcontents]
    rcases hlaid with hlaid | hlaid
    · -- A writer that still takes symbols refuses to close.
      have hstage := (IndexWriter.close_ok hclose).1
      rw [hlaid.stage_eq] at hstage
      cases hstage
    · exact hlaid.serves hfit hclose

/-- Whatever calls came before an accepted `close`, a reader opens the file, finds every accepted
symbol under its number and every accepted series under its id, and lists the accepted posting
lists. -/
theorem index_roundtrip {w₀ w : IndexWriter} {calls : List IndexCall} {closeCalls : IndexCloseCalls}
    {steps : List IndexStep} {last : IndexStep} {file : Option Bytes}
    (hcreate : IndexWriter.create none = .ok w₀)
    (hrun : runIndexCalls w₀ none (calls ++ [.close closeCalls]) = (steps ++ [last], w, file))
    (hclosed : last.answer = .ok none) (hfits : ∀ s ∈ steps ++ [last], s.Fits)
    (hrefs : ∀ s ∈ (contents (steps ++ [last])).series, ∃ labels : List Label,
      (labels.Pairwise fun a b ↦ a.name < b.name) ∧
        List.Forall₂ (Resolves (contents (steps ++ [last])).symbols) s.labelRefs labels) :
    ∃ r, IndexReader.openFile file = .ok r ∧
      (∀ (i : UInt32) (sym : Str), (contents (steps ++ [last])).symbols[i.toNat]? = some sym →
        r.symbols.lookup i = .ok sym.bytes) ∧
      r.symbols.count.toNat = (contents (steps ++ [last])).symbols.length ∧
      ((contents (steps ++ [last])).series.Pairwise fun s t ↦ s.id < t.id) ∧
      (∀ s ∈ (contents (steps ++ [last])).series, ∃ e, r.series s.id.toUInt64 = .ok e ∧
        List.Forall₂ (Resolves (contents (steps ++ [last])).symbols) s.labelRefs e.labels.entries ∧
        e.chunks = s.chunkMetas) ∧
      List.Forall₂ (fun e p ↦ e.name = p.name ∧ e.value = p.value ∧
        readPostingList r.data e.offset = .ok p.seriesIds) r.postingsTable.entries
          (contents (steps ++ [last])).postings := by
  obtain ⟨r, hopen, hserves⟩ := closed_serves hcreate hrun hclosed hfits
  refine ⟨r, hopen, hserves.symbols, hserves.count_eq, hserves.ids, ?_, hserves.postings⟩
  intro s hs
  obtain ⟨entries, hsorted, hlabels⟩ := hrefs s hs
  have hlength : entries.length ≤ kMaxLabels := by
    have hle := length_le_symbols hsorted hlabels
    have hcount := r.symbols.count.toNat_lt
    rw [hserves.count_eq] at hcount
    exact hle.trans (hcount.le.trans (by decide))
  exact ⟨_, hserves.series s hs ⟨entries, hsorted, hlength⟩ hlabels, hlabels, rfl⟩

/-- One series, one list, and three calls that are rejected. -/
theorem index_roundtrip_one :
    ∃ (file : Option Bytes) (r : IndexReader) (id : UInt64) (e : SeriesEntry) (off : UInt64),
      IndexReader.openFile file = .ok r ∧ r.symbols.lookup 1 = .ok [98] ∧ r.series id = .ok e ∧
        e.labels.entries = [⟨⟨[97], by decide⟩, ⟨[98], by decide⟩⟩] ∧ e.chunks = [⟨-5, 7, 8⟩] ∧
        readPostingList r.data off = .ok [3] := by
  let a : Str := ⟨[97], by decide⟩
  let b : Str := ⟨[98], by decide⟩
  let calls : List IndexCall := [.addSymbol a, .addSymbol b, .addSymbol a, .finishSymbols,
    .addSeries [(0, 1)] ⟨[⟨-5, 7, 8⟩], by decide⟩, .addSymbol b, .finishSeries,
    .addPostings a b [3, 2], .addPostings a b [3]]
  let w₀ : IndexWriter := { buf := putBe32 kMagicIndex ++ [kIndexWriteFormat], stage := .symbols }
  let run := runIndexCalls w₀ none (calls ++ [.close {}])
  have hne : run.1 ≠ [] := by decide +kernel
  have hsplit := List.dropLast_append_getLast hne
  have hlast : run.1.getLast?.map IndexStep.answer = some (.ok none) := by decide +kernel
  rw [List.getLast?_eq_some_getLast hne, Option.map_some, Option.some_inj] at hlast
  have hcontents : contents run.1 =
      ⟨[a, b], [⟨2, [(0, 1)], [⟨-5, 7, 8⟩]⟩], [⟨a, b, [3]⟩]⟩ := by decide +kernel
  obtain ⟨r, hopen, hsymbols, -, -, hseries, hpostings⟩ :=
    @index_roundtrip w₀ run.2.1 calls {} run.1.dropLast (run.1.getLast hne) run.2.2 rfl
      (by rw [hsplit]) hlast (by rw [hsplit]; decide +kernel)
      (by
        rw [hsplit, hcontents]
        intro s hs
        rw [List.mem_singleton] at hs
        subst hs
        exact ⟨[⟨a, b⟩], List.pairwise_singleton _ _,
          List.Forall₂.cons ⟨rfl, rfl⟩ List.Forall₂.nil⟩)
  rw [hsplit, hcontents] at hsymbols hseries hpostings
  obtain ⟨e, hread, hlabels, hchunks⟩ := hseries _ List.mem_cons_self
  generalize r.postingsTable.entries = entries at hpostings
  generalize hlabel : e.labels.entries = labels at hlabels
  rcases hpostings with _ | ⟨⟨-, -, hlist⟩, -⟩
  rcases hlabels with _ | ⟨⟨hname, hvalue⟩, hnone⟩
  rcases hnone
  refine ⟨run.2.2, r, _, e, _, hopen, hsymbols 1 b rfl, hread, ?_, hchunks, hlist⟩
  rename_i l
  have hl : l = ⟨a, b⟩ := by
    cases l
    rw [Label.mk.injEq]
    exact ⟨(Option.some_inj.mp hname).symm, (Option.some_inj.mp hvalue).symm⟩
  rw [hlabel, hl]

end MerlionTsdb.Block
