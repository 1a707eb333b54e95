import MerlionTsdb.Block.ChunkDamage
import MerlionTsdb.Block.PostingLookup
import MerlionTsdb.Block.Select
import MerlionTsdb.Lib.Related

/-!
# Damage to an index file

Every section of an index stands behind its length and in front of its checksum.  A reader of a file whose
sections are damaged, but not their lengths, refuses it or answers as before, or refuses the answer.
-/

namespace MerlionTsdb.Block

open Crc32c Encoding Model

/-! ## Layout -/

/-- What a writer put in a file: the table of contents, the entries of the postings table, and what the other
sections hold. -/
structure IndexLayout where
  toc : IndexTOC
  entries : List PendingEntry
  contents : IndexContents

/-- The payload stands at an offset behind the bytes that give its length, as far as `Left` has left it
whole. -/
def SectionLeft (Left : Bytes → Bytes → Prop) (bytes : Bytes) (off : Nat) (lead payload : Bytes) : Prop :=
  ∃ rest, Left payload rest ∧ Placed bytes off (lead ++ rest)

/-- The 32-bit length in front of a payload. -/
def lead32 (payload : Bytes) : Bytes := putBe32 (UInt32.ofNat payload.length)

/-- The uvarint length in front of a payload. -/
def leadUv (payload : Bytes) : Bytes := Varint.putUvarint (UInt64.ofNat payload.length)

namespace IndexLayout

/-- The layout is that of a writer that kept within the format. -/
structure Proper (l : IndexLayout) : Prop where
  symbols_off : l.toc.symbols = 5
  symbols_lt : (symbolsPayload l.contents.symbols).length < 2 ^ 32
  table_lt : (tablePayload l.entries).length < 2 ^ 32
  metas_le : ∀ s ∈ l.contents.series, s.chunkMetas.length ≤ kMaxChunkMetas
  resolved : ∀ s ∈ l.contents.series, ∃ labels : Labels,
    List.Forall₂ (Resolves l.contents.symbols) s.labelRefs labels.entries
  lists_lt : ∀ p ∈ l.contents.postings, 4 + 4 * p.seriesIds.length < 2 ^ 32
  listed : ∀ p ∈ l.contents.postings, ∀ id ∈ p.seriesIds, ∃ s ∈ l.contents.series, s.id = id

/-- The file has the sections of the layout where they belong, as far as `Left` has left them whole.  The
header and the lengths are whole; what stands between the sections may be anything. -/
structure In (l : IndexLayout) (Left : Bytes → Bytes → Prop) (bytes : Bytes) : Prop where
  length_le : bytes.length ≤ kMaxSize
  long : kIndexHeaderSize + kIndexTocSize ≤ bytes.length
  header : Placed bytes 0 indexHeader
  toc : ∃ front rest, Left l.toc.bytes rest ∧ bytes = front ++ rest
  symbols : SectionLeft Left bytes 5 (lead32 (symbolsPayload l.contents.symbols))
    (symbolsPayload l.contents.symbols)
  table : SectionLeft Left bytes l.toc.postingsTable.toNat (lead32 (tablePayload l.entries))
    (tablePayload l.entries)
  series : ∀ s ∈ l.contents.series, SectionLeft Left bytes (16 * s.id.toNat)
    (leadUv (seriesPayload s.labelRefs s.chunkMetas)) (seriesPayload s.labelRefs s.chunkMetas)
  lists : List.Forall₂ (fun e p ↦ SectionLeft Left bytes e.offset.toNat
    (lead32 (postingsPayload p.seriesIds)) (postingsPayload p.seriesIds)) l.entries l.contents.postings

end IndexLayout

/-- What a writer leaves, before any damage. -/
def Intact (payload rest : Bytes) : Prop := rest = sealed payload

theorem SectionLeft.placed {bytes lead payload : Bytes} {off : Nat}
    (h : SectionLeft Intact bytes off lead payload) : Placed bytes off (lead ++ sealed payload) := by
  obtain ⟨rest, rfl, hplaced⟩ := h
  exact hplaced

/-! ## Reading worn sections -/

section Sections

variable {bytes payload rest : Bytes} {off : Nat}

/-- A damaged payload is refused wherever its length is known. -/
theorem checkedPayload_damaged {payload' : Bytes} {crc : UInt32} (hmax : bytes.length ≤ kMaxSize)
    (hdamage : Damage payload payload' crc) (h : Placed bytes off (payload' ++ putBe32 crc)) :
    checkedPayload bytes off payload.length = .error malformed := by
  have hend := h.end_le
  rw [List.length_append, length_putBe32] at hend
  have hstored := subspan_placed h.right (by rw [length_putBe32]; decide)
  rw [length_putBe32] at hstored
  have hcrc := readBe32_putBe32 crc []
  rw [List.append_nil] at hcrc
  unfold checkedPayload
  rw [← hdamage.length_eq, addSize_of_le hmax (b := payload'.length) (by omega),
    addSize_of_le hmax (by omega), if_neg (by omega),
    subspan_placed h.left (lt_kDynamicExtent hmax (by omega)), hstored]
  simp only [ok_bind]
  rw [hcrc, if_neg hdamage.compute_ne]
  rfl

/-- A worn section behind a 32-bit length is whole, or refused. -/
theorem readSectionPayload_worn (hmax : bytes.length ≤ kMaxSize) (hlen : payload.length < 2 ^ 32)
    (h : SectionLeft Worn bytes off (lead32 payload) payload) :
    Placed bytes off (section32 payload) ∨ readSectionPayload bytes off = .error malformed := by
  obtain ⟨rest, hworn, hplaced⟩ := h
  cases hworn with
  | intact => exact Or.inl hplaced
  | damaged hdamage =>
    right
    have hend := hplaced.end_le
    have hbody := checkedPayload_damaged hmax hdamage hplaced.right
    have hlength := subspan_placed hplaced.left (by rw [lead32, length_putBe32]; decide)
    have hread := readBe32_putBe32 (UInt32.ofNat payload.length) []
    rw [List.append_nil] at hread
    rw [lead32, length_putBe32] at hbody hlength
    rw [List.length_append, lead32, length_putBe32] at hend
    unfold readSectionPayload
    rw [addSize_of_le hmax (by omega), if_neg (by omega), hlength]
    simp only [ok_bind]
    rw [hread, UInt32.toNat_ofNat_of_lt' hlen, hbody]

/-- A worn section behind a uvarint length is read, or refused. -/
theorem readUvarintSectionPayload_worn (hmax : bytes.length ≤ kMaxSize)
    (h : SectionLeft Worn bytes off (leadUv payload) payload) :
    OrError malformed (readUvarintSectionPayload bytes off) (.ok payload) := by
  obtain ⟨rest, hworn, hplaced⟩ := h
  cases hworn with
  | intact => exact Or.inl (readUvarintSectionPayload_placed hmax hplaced)
  | damaged hdamage =>
    right
    have hend := hplaced.end_le
    have hlength := hdamage.length_eq
    have hpos := List.length_pos_of_ne_nil (Varint.putUvarint_ne_nil (UInt64.ofNat payload.length))
    have hbody := checkedPayload_damaged hmax hdamage hplaced.right
    unfold leadUv at hplaced hend hbody
    simp only [List.length_append, length_putBe32] at hend
    unfold readUvarintSectionPayload
    rw [if_neg (by omega), readUv_placed hplaced.left]
    simp only [ok_bind]
    rw [addSize_of_le hmax (by omega), toNat_ofNat_length hmax (by omega), hbody]

theorem parseToc_worn {front : Bytes} {t : IndexTOC} (hworn : Worn t.bytes rest) :
    OrError malformed (parseToc (front ++ rest)) (.ok t) := by
  cases hworn with
  | intact => exact Or.inl (parseToc_append front t)
  | @damaged body crc hdamage =>
    right
    have hlen : body.length = 48 := hdamage.length_eq
    have htoc := subspan_append front (body ++ putBe32 crc) []
      (by rw [List.length_append, hlen, length_putBe32]; decide)
    have hstored := subspan_append body (putBe32 crc) [] (by rw [length_putBe32]; decide)
    have hbody := subspan_append [] body (putBe32 crc) (by rw [hlen]; decide)
    have hcrc := readBe32_putBe32 crc []
    simp only [List.append_nil, List.nil_append, List.length_append, hlen, length_putBe32,
      List.length_nil] at htoc hstored hbody hcrc
    have hsize : (front ++ (body ++ putBe32 crc)).length = front.length + kIndexTocSize := by
      simp only [List.length_append, hlen, length_putBe32]
      rfl
    unfold parseToc
    rw [if_neg (by omega), hsize, Nat.add_sub_cancel, show kIndexTocSize = 48 + 4 from rfl, htoc]
    simp only [ok_bind]
    rw [hstored, hbody]
    simp only [ok_bind]
    rw [hcrc, if_neg hdamage.compute_ne]
    rfl

end Sections

/-! ## The reader of a worn file -/

section Reader

variable {l : IndexLayout} {bytes : Bytes}

theorem IndexLayout.In.worn (h : l.In Intact bytes) : l.In Worn bytes := by
  -- What is whole is worn by no damage.
  have hat : ∀ {off lead payload}, SectionLeft Intact bytes off lead payload →
      SectionLeft Worn bytes off lead payload := fun h ↦ ⟨_, .intact, h.placed⟩
  obtain ⟨front, rest, rfl, hbytes⟩ := h.toc
  constructor
  · exact h.length_le
  · exact h.long
  · exact h.header
  · exact ⟨front, _, .intact, hbytes⟩
  · exact hat h.symbols
  · exact hat h.table
  · exact fun s hs ↦ hat (h.series s hs)
  · exact h.lists.imp fun _ _ ↦ hat

/-- Behind the header, `open` reads the table of contents, the symbols and the postings table. -/
theorem openFile_header (hlong : kIndexHeaderSize + kIndexTocSize ≤ bytes.length)
    (hheader : Placed bytes 0 indexHeader) :
    IndexReader.openFile (some bytes) = (do
      let toc ← parseToc bytes
      let symbols ← IndexSymbolTable.parse bytes toc.symbols.toNat kIndexWriteFormat
      let table ← PostingsOffsetTable.parse bytes toc.postingsTable.toNat
      .ok {
        data := bytes
        version := kIndexWriteFormat
        toc := toc
        symbols := symbols
        postingsTable := table }) := by
  obtain ⟨rest, hrest⟩ := hheader.drop_eq
  rw [List.drop_zero] at hrest
  have hmagic : readBe32 bytes = kMagicIndex := by
    rw [hrest, indexHeader, List.append_assoc, readBe32_putBe32]
  have hversion : bytes.getD 4 0 = kIndexWriteFormat := by
    rw [hrest]
    rfl
  unfold IndexReader.openFile
  dsimp only
  rw [if_neg (Nat.not_lt.mpr hlong), if_neg (not_not.mpr hmagic), hversion, if_neg (by decide)]

/-- A worn file is refused, or what is read at once is whole. -/
theorem openFile_worn (hproper : l.Proper) (h : l.In Worn bytes) :
    IndexReader.openFile (some bytes) = .error malformed ∨
      ∃ offsets, IndexReader.openFile (some bytes) =
          .ok (readerOf bytes l.toc l.contents.symbols offsets l.entries) ∧
        Placed bytes 5 (section32 (symbolsPayload l.contents.symbols)) ∧
        ∀ i < l.contents.symbols.length, i % kSymbolSparseStride = 0 →
          offsets[i / kSymbolSparseStride]? = some (symbolPos (5 + 8) l.contents.symbols i) := by
  have hopen := openFile_header h.long h.header
  have hsymsOff : l.toc.symbols.toNat = 5 := by
    rw [hproper.symbols_off]
    rfl
  have htoc : OrError malformed (parseToc bytes) (.ok l.toc) := by
    obtain ⟨front, rest, hworn, hbytes⟩ := h.toc
    rw [hbytes]
    exact parseToc_worn hworn
  rcases htoc with htoc | htoc
  · rcases readSectionPayload_worn h.length_le hproper.symbols_lt h.symbols with hsyms | hsyms
    · rcases readSectionPayload_worn h.length_le hproper.table_lt h.table with htable | htable
      · obtain ⟨offsets, hok, hoffsets⟩ := openFile_placed h.length_le h.long h.header htoc
          hproper.symbols_off hproper.symbols_lt hsyms hproper.table_lt htable
        exact Or.inr ⟨offsets, hok, hsyms, hoffsets⟩
      · -- The symbols are read, the postings table is not.
        left
        obtain ⟨offsets, hparse, -⟩ := @IndexSymbolTable.parse_placed _ _ _ h.length_le
          kIndexWriteFormat hproper.symbols_lt hsyms
        have htableParse : PostingsOffsetTable.parse bytes l.toc.postingsTable.toNat =
            .error malformed := by
          rw [PostingsOffsetTable.parse, htable]
          rfl
        rw [hopen, htoc, ok_bind, hsymsOff, hparse, ok_bind, htableParse]
        rfl
    · left
      rw [hopen, htoc, ok_bind, hsymsOff, IndexSymbolTable.parse, hsyms]
      rfl
  · left
    rw [hopen, htoc]
    rfl

/-- A worn posting list is read as it was written, or refused. -/
theorem readPostingList_worn (hmax : bytes.length ≤ kMaxSize) {off : UInt64} {ids : List UInt32}
    (hlen : 4 + 4 * ids.length < 2 ^ 32)
    (h : SectionLeft Worn bytes off.toNat (lead32 (postingsPayload ids)) (postingsPayload ids)) :
    OrError malformed (readPostingList bytes off) (.ok ids) := by
  have htotal : (postingsPayload ids).length = 4 + 4 * ids.length := by
    simp [postingsPayload]
    omega
  rcases readSectionPayload_worn hmax (htotal ▸ hlen) h with hplaced | hrefused
  · exact Or.inl (readPostingList_placed hmax hlen hplaced)
  · right
    rw [readPostingList, hrefused]
    rfl

/-- An id leads to the section at 16 times its value. -/
theorem series_readerOf (toc : IndexTOC) (syms : List Str) (offsets : List Nat)
    (entries : List PendingEntry) (id : UInt32) :
    (readerOf bytes toc syms offsets entries).series id.toUInt64 = (do
      let payload ← readUvarintSectionPayload bytes (16 * id.toNat)
      decodeSeriesPayload payload (symbolTable bytes syms offsets)) := by
  have hversion : kIndexWriteFormat ≠ kIndexFormatV1 := by decide
  have hoff : id.toUInt64.toNat * 16 % 2 ^ 64 = 16 * id.toNat := by
    have hlt := id.toNat_lt
    rw [UInt32.toNat_toUInt64, Nat.mul_comm]
    exact Nat.mod_eq_of_lt (by omega)
  unfold IndexReader.series readerOf
  rw [if_neg hversion, hoff]

/-- The symbols of the layout are found as long as their section is whole. -/
theorem lookup_symbolTable (hmax : bytes.length ≤ kMaxSize) {syms : List Str} {offsets : List Nat}
    (hlen : (symbolsPayload syms).length < 2 ^ 32)
    (hsyms : Placed bytes 5 (section32 (symbolsPayload syms)))
    (hoffsets : ∀ i < syms.length, i % kSymbolSparseStride = 0 →
      offsets[i / kSymbolSparseStride]? = some (symbolPos (5 + 8) syms i)) {i : UInt32} {sym : Str}
    (hsym : syms[i.toNat]? = some sym) : (symbolTable bytes syms offsets).lookup i = .ok sym.bytes := by
  have hcount : (UInt32.ofNat syms.length).toNat = syms.length := by
    have hle := length_le_flatMap_putUvarintStr syms
    simp only [symbolsPayload, List.length_append] at hlen
    apply UInt32.toNat_ofNat_of_lt'
    rw [UInt32.size]
    omega
  have hversion : kIndexWriteFormat ≠ kIndexFormatV1 := by decide
  exact IndexSymbolTable.lookup_placed hmax rfl hversion hcount hsyms.right.left.right hoffsets hsym

/-- The payload of a series is decoded by a reader whose symbols are whole. -/
theorem decode_written (hmax : bytes.length ≤ kMaxSize) (hproper : l.Proper) {offsets : List Nat}
    (hsyms : Placed bytes 5 (section32 (symbolsPayload l.contents.symbols)))
    (hoffsets : ∀ i < l.contents.symbols.length, i % kSymbolSparseStride = 0 →
      offsets[i / kSymbolSparseStride]? = some (symbolPos (5 + 8) l.contents.symbols i))
    {s : SeriesWritten} (hs : s ∈ l.contents.series) {labels : Labels}
    (hlabels : List.Forall₂ (Resolves l.contents.symbols) s.labelRefs labels.entries) :
    decodeSeriesPayload (seriesPayload s.labelRefs s.chunkMetas)
        (symbolTable bytes l.contents.symbols offsets) =
      .ok { labels := labels, chunks := s.chunkMetas } := by
  apply decodeSeriesPayload_seriesPayload _ (hproper.metas_le s hs)
  apply hlabels.imp
  intro r label hl
  exact ⟨lookup_symbolTable hmax hproper.symbols_lt hsyms hoffsets hl.1,
    lookup_symbolTable hmax hproper.symbols_lt hsyms hoffsets hl.2⟩

end Reader

/-! ## Two readers -/

/-- A posting list of the index names the id. -/
def Listed (r : IndexReader) (id : UInt32) : Prop :=
  ∃ e ∈ r.postingsTable.entries, ∃ ids, readPostingList r.data e.offset = .ok ids ∧ id ∈ ids

/-- A reader before the damage, and one after it: they know the same lists, and the one after it reads them
and the series that they name as before, or not at all. -/
structure WornReader (l : IndexLayout) (r r' : IndexReader) : Prop where
  table_eq : r'.postingsTable = r.postingsTable
  table_new : r.postingsTable = .new r.postingsTable.entries
  lists : ∀ e ∈ r.postingsTable.entries,
    OrError malformed (readPostingList r'.data e.offset) (readPostingList r.data e.offset)
  series : ∀ id, Listed r id → ∃ s ∈ l.contents.series, ∃ labels,
    r.series id.toUInt64 = .ok { labels := labels, chunks := s.chunkMetas } ∧
      OrError malformed (r'.series id.toUInt64) (.ok { labels := labels, chunks := s.chunkMetas })

/-- A file that was opened before the damage. -/
theorem wornReader_of_open {l : IndexLayout} (hproper : l.Proper) {file file' : Bytes}
    (h : l.In Intact file) (h' : l.In Worn file') {r : IndexReader}
    (hopen : IndexReader.openFile (some file) = .ok r) :
    IndexReader.openFile (some file') = .error malformed ∨
      ∃ r', IndexReader.openFile (some file') = .ok r' ∧ WornReader l r r' := by
  rcases openFile_worn hproper h' with hrefused | ⟨offsets', hopen', hsyms', hoffsets'⟩
  · exact Or.inl hrefused
  · right
    rcases openFile_worn hproper h.worn with hrefused | ⟨offsets, hok, hsyms, hoffsets⟩
    · rw [hopen] at hrefused
      cases hrefused
    · rw [hopen] at hok
      cases hok
      have hlists := Related.and h.lists h'.lists
      refine ⟨_, hopen', rfl, rfl, ?_, ?_⟩
      · intro e he
        obtain ⟨pe, hpe, rfl⟩ := List.mem_map.mp he
        obtain ⟨p, hp, hat, hat'⟩ := Related.exists_right hlists hpe
        have hlt := hproper.lists_lt p hp
        have hread := readPostingList_placed h.length_le hlt hat.placed
        change OrError malformed (readPostingList file' pe.offset) (readPostingList file pe.offset)
        rw [hread]
        exact readPostingList_worn h'.length_le hlt hat'
      · -- What a list names has a section, whose labels are in the symbols.
        rintro id ⟨e, he, ids, hids, hid⟩
        obtain ⟨pe, hpe, rfl⟩ := List.mem_map.mp he
        obtain ⟨p, hp, hat, -⟩ := Related.exists_right hlists hpe
        have hread := readPostingList_placed h.length_le (hproper.lists_lt p hp) hat.placed
        change readPostingList file pe.offset = .ok ids at hids
        rw [hids] at hread
        cases hread
        obtain ⟨s, hs, rfl⟩ := hproper.listed p hp id hid
        obtain ⟨labels, hlabels⟩ := hproper.resolved s hs
        refine ⟨s, hs, labels, ?_, ?_⟩
        · rw [series_readerOf, readUvarintSectionPayload_placed h.length_le (h.series s hs).placed,
            ok_bind, decode_written h.length_le hproper hsyms hoffsets hs hlabels]
        · rw [series_readerOf, ← decode_written h'.length_le hproper hsyms' hoffsets' hs hlabels]
          exact (readUvarintSectionPayload_worn h'.length_le (h'.series s hs)).bind_same _

end MerlionTsdb.Block
