import MerlionTsdb.Lib.Journal
import MerlionTsdb.Wal.Retry
import MerlionTsdb.Wal.TornTail

/-!
# Crashes

What of a WAL a crash leaves.  `Disk` adds to a writer and its directory how much of every file an
`::fsync` has put on disk; `OnDisk` ties it to a journal, and whatever a crash does behind the bytes
on disk, a reader of the directory finds something that the crash may leave of that journal.
-/

namespace MerlionTsdb.Wal

/-! ## Files after a crash -/

/-- How many bytes of each file no crash takes away. -/
abbrev Kept := FileName → Nat

namespace Files

/-- The directory with other contents: the names are all there still. -/
def crashed (files : Files) (left : FileName → Bytes) : Files where
  entries := files.entries.map fun e ↦ (e.1, left e.1)
  nodup := by
    rw [List.map_map]
    exact files.nodup

theorem find_of_mem {entries : List (FileName × Bytes)} (hnodup : (entries.map Prod.fst).Nodup)
    {e : FileName × Bytes} (he : e ∈ entries) :
    entries.find? (fun e' ↦ e'.1 = e.1) = some e := by
  induction entries with
  | nil => cases he
  | cons e' entries ih =>
    rw [List.map_cons, List.nodup_cons] at hnodup
    rcases List.mem_cons.mp he with rfl | he
    · simp
    · have hne : e'.1 ≠ e.1 := fun h ↦ hnodup.1 (h ▸ List.mem_map_of_mem he)
      rw [List.find?_cons_of_neg (by simpa using hne), ih hnodup.2 he]

theorem content_of_mem {files : Files} {e : FileName × Bytes} (he : e ∈ files.entries) :
    files.content e.1 = e.2 := by
  unfold content
  rw [find_of_mem files.nodup he]
  rfl

theorem mem_setEntries {entries : List (FileName × Bytes)} {name : FileName} {bytes : Bytes}
    {e : FileName × Bytes} (he : e ∈ setEntries entries name bytes) :
    e = (name, bytes) ∨ e ∈ entries := by
  induction entries with
  | nil => simpa [setEntries] using he
  | cons e' entries ih =>
    unfold setEntries at he
    split at he
    · rcases List.mem_cons.mp he with rfl | hmem
      · exact Or.inl rfl
      · exact Or.inr (List.mem_cons_of_mem _ hmem)
    · rcases List.mem_cons.mp he with rfl | hmem
      · exact Or.inr List.mem_cons_self
      · exact (ih hmem).imp_right (List.mem_cons_of_mem _)

theorem mem_set {files : Files} {name : FileName} {bytes : Bytes} {e : FileName × Bytes}
    (he : e ∈ (files.set name bytes).entries) : e = (name, bytes) ∨ e ∈ files.entries :=
  mem_setEntries he

/-- A new file is the last entry, before and after the crash. -/
theorem crashed_set {files : Files} {name : FileName} (hnew : name ∉ files.entries.map Prod.fst)
    (bytes : Bytes) (left : FileName → Bytes) :
    (files.set name bytes).crashed left = (files.crashed left).set name (left name) := by
  have hnew' : name ∉ (files.crashed left).entries.map Prod.fst := by
    unfold crashed
    dsimp only
    rw [List.map_map]
    exact hnew
  apply Files.ext
  unfold set
  dsimp only
  rw [setEntries_of_not_mem hnew']
  unfold crashed
  dsimp only
  rw [setEntries_of_not_mem hnew, List.map_append]
  rfl

end Files

/-- No file has the name of an index behind all segments. -/
theorem not_mem_of_fresh {files : Files} {idx : Nat} (hfresh : SegmentWriter.nextIndex files ≤ idx)
    (hidx : idx < 10 ^ kSegmentNameWidth) :
    formatSegmentName idx ∉ files.entries.map Prod.fst := by
  intro hmem
  obtain ⟨e, he, hname⟩ := List.mem_map.mp hmem
  have hfound : (idx, e.2) ∈ indexed files := by
    unfold indexed
    rw [List.mem_filterMap]
    exact ⟨e, he, by rw [hname, parseSegmentName_format hidx]; rfl⟩
  have hlt := lt_nextIndex hfound
  dsimp only at hlt
  omega

/-- A crash leaves of every file the bytes on disk, and behind them anything, up to the old length. -/
structure Garbles (kept : Kept) (files : Files) (left : FileName → Bytes) : Prop where
  keeps : ∀ name, (files.content name).take (kept name) <+: left name
  length_le : ∀ name, (left name).length ≤ (files.content name).length

/-- A crash that cuts files and writes nothing into them. -/
def Cuts (files : Files) (left : FileName → Bytes) : Prop :=
  ∀ name, left name <+: files.content name

/-- Files cut behind the bytes on disk. -/
theorem garbles_take {kept len : Kept} (hle : ∀ name, kept name ≤ len name) (files : Files) :
    Garbles kept files (fun name ↦ (files.content name).take (len name)) ∧
      Cuts files fun name ↦ (files.content name).take (len name) := by
  refine ⟨⟨fun name ↦ ?_, fun name ↦ List.length_take_le' _ _⟩, fun name ↦ List.take_prefix _ _⟩
  exact List.take_prefix_take_left (hle name)

/-- A file that is all on disk is left as it was. -/
theorem Garbles.left_eq {kept : Kept} {files : Files} {left : FileName → Bytes}
    (h : Garbles kept files left) {name : FileName}
    (hwhole : (files.content name).length ≤ kept name) : left name = files.content name := by
  have hkeeps := h.keeps name
  rw [List.take_of_length_le hwhole] at hkeeps
  exact (hkeeps.eq_of_length_le (h.length_le name)).symm

/-- Every segment is all on disk. -/
def Whole (kept : Kept) (files : Files) : Prop :=
  ∀ e ∈ files.entries, (parseSegmentName e.1).isSome → e.2.length ≤ kept e.1

/-- Segments that are left as they were are found as before. -/
theorem indexed_crashed {files : Files} {left : FileName → Bytes}
    (h : ∀ e ∈ files.entries, (parseSegmentName e.1).isSome → left e.1 = e.2) :
    indexed (files.crashed left) = indexed files := by
  unfold indexed Files.crashed
  rw [List.filterMap_map]
  apply List.filterMap_congr
  intro e he
  dsimp only [Function.comp_apply]
  cases hparse : parseSegmentName e.1 with
  | none => rfl
  | some idx => rw [h e he (by rw [hparse]; rfl)]

/-! ## A writer and what is on disk -/

/-- What is on disk once the open file is flushed and `::fsync`ed, if both succeed. -/
def SegmentWriter.fsynced (w : SegmentWriter) (files : Files) (calls : SyncCalls) (kept : Kept) :
    Kept :=
  match w.fd, w.flushPending files calls.write with
  | some name, (true, _, files) =>
    if calls.fsync then Function.update kept name (files.content name).length else kept
  | _, _ => kept

/-- A segment writer, its directory, and how much of that is on disk. -/
structure Disk where
  writer : SegmentWriter
  files : Files
  kept : Kept

namespace Disk

def openDir (files : Files) (kept : Kept) (segmentSize : Nat) (ok : Bool) : Bool × Disk :=
  let (ok, w, files) := SegmentWriter.openDir files segmentSize ok
  (ok, ⟨w, files, kept⟩)

def sync (d : Disk) (calls : SyncCalls) : Bool × Disk :=
  let (ok, w, files) := d.writer.sync d.files calls
  (ok, ⟨w, files, d.writer.fsynced d.files calls d.kept⟩)

/-- What the `::fsync` of a cut puts on disk: the padded segment. -/
def keptByCut (d : Disk) (calls : CutCalls) : Kept :=
  { d.writer with pw := d.writer.pw.closePage }.fsynced d.files calls.toSyncCalls d.kept

def cut (d : Disk) (calls : CutCalls) : Bool × Disk :=
  let (ok, w, files) := d.writer.cut d.files calls
  (ok, ⟨w, files, d.keptByCut calls⟩)

/-- Only the cut of a roll-over syncs. -/
def log (d : Disk) (body : Bytes) (calls : LogCalls) : Bool × Disk :=
  let (ok, w, files) := d.writer.log d.files body calls
  (ok, ⟨w, files, if d.writer.rollsOver body then d.keptByCut calls.cut else d.kept⟩)

end Disk

/-! ## Reading what is left of a buffer -/

/-- Fewer items give a first part of the records. -/
theorem scan_isPrefix (atEnd atEnd' : Bool → WalReadError) {as bs : List Item} (hle : as <+: bs)
    (isOpen : Bool) (record : Bytes) :
    (scan atEnd isOpen record as).1 <+: (scan atEnd' isOpen record bs).1 := by
  induction as generalizing bs isOpen record with
  | nil => exact List.nil_prefix
  | cons item as ih =>
    obtain ⟨more, rfl⟩ := hle
    have hrest := fun isOpen record ↦ ih ⟨more, rfl⟩ isOpen record
    cases item with
    | pad n => exact hrest isOpen record
    | frag t body =>
      rw [List.cons_append, scan, scan]
      rcases PageReader.accept t body isOpen record with e | ⟨_ | _, record'⟩
      · exact List.prefix_rfl
      · exact List.cons_prefix_cons.mpr ⟨rfl, hrest false []⟩
      · exact hrest true record'

theorem cutItems_isPrefix (items : List Item) (n : Nat) : cutItems items n <+: items := by
  induction items generalizing n with
  | nil => exact List.prefix_rfl
  | cons item items ih =>
    rw [cutItems]
    split
    · exact List.cons_prefix_cons.mpr ⟨rfl, ih _⟩
    · exact List.nil_prefix

/-- Whatever stands behind the items, the reader finds their records first. -/
theorem scan_isPrefix_readOn (atEnd : Bool → WalReadError) {tail : Bytes} {off : Nat}
    {items : List Item} (hlayout : Layout off items) (r : PageReader) (isOpen : Bool)
    (fuel fuel' : Nat) (hoff : r.offset = off) (h : r.ahead = itemsBytes items ++ tail)
    (hfuel : items.length < fuel) (hfuel' : items.length ≤ fuel')
    (hbuf : items.length ≤ r.buf.length) :
    (scan atEnd isOpen r.record items).1 <+: (readOn fuel fuel' r isOpen).1 := by
  induction hlayout generalizing r isOpen fuel fuel' with
  | nil off => exact List.nil_prefix
  | @frag off t body items ht hlen _ ih =>
    rw [List.length_cons] at hfuel hfuel' hbuf
    obtain ⟨fuel, rfl⟩ : ∃ f, fuel = f + 1 := ⟨fuel - 1, by omega⟩
    subst hoff
    rw [itemsBytes_cons, List.append_assoc] at h
    have hskip : ∀ record, ({ r with
        offset := r.offset + (kRecordHeaderSize + body.length)
        record := record } : PageReader).ahead = itemsBytes items ++ tail :=
      fun record ↦ PageReader.ahead_skip h rfl (by rw [Item.bytes, length_fragBytes])
    rw [readOn, PageReader.nextLoop_frag ht hlen h, scan]
    rcases PageReader.accept t body isOpen r.record with e | ⟨_ | _, record⟩
    · exact List.prefix_rfl
    · -- The record is finished, and the next call starts a new one.
      obtain ⟨fuel', rfl⟩ : ∃ f, fuel' = f + 1 := ⟨fuel' - 1, by omega⟩
      have hnext := ih _ false (r.buf.length + 1) fuel' rfl (hskip []) (by omega) (by omega)
        (by dsimp only; omega)
      dsimp only
      rw [readAllLoop_succ]
      exact List.cons_prefix_cons.mpr ⟨rfl, hnext⟩
    · exact ih _ true fuel fuel' rfl (hskip record) (by omega) (by omega) (by dsimp only; omega)
  | @pad off items _ ih =>
    rw [List.length_cons] at hfuel hfuel' hbuf
    obtain ⟨fuel, rfl⟩ : ∃ f, fuel = f + 1 := ⟨fuel - 1, by omega⟩
    subst hoff
    rw [itemsBytes_cons, List.append_assoc] at h
    rw [readOn, PageReader.nextLoop_pad h, scan]
    exact ih { r with offset := r.offset + (kPageSize - r.offset % kPageSize) } isOpen fuel fuel'
      rfl (PageReader.ahead_skip h rfl (by rw [Item.bytes, List.length_replicate]))
      (by omega) (by omega) (by dsimp only; omega)

/-- The records of a clear run are found in front of anything. -/
theorem bodies_isPrefix_readAll {ops : List PageOp} (hclear : PageOp.ClearRun {} ops)
    (tail : Bytes) :
    PageOp.bodies ops <+: (PageReader.readAll ((({} : PageWriter).run ops).buf ++ tail)).1 := by
  have hlayout := layout_runItems 0 ops
  have hlen := length_le_itemsBytes hlayout
  have hbuf : (({} : PageWriter).run ops).buf = itemsBytes (runItems 0 ops) := run_buf {} ops
  have hscan : scan cleanEnd false [] (runItems 0 ops) = (PageOp.bodies ops, .endOfStream) :=
    scan_runItems cleanEnd {} ops hclear []
  have hfound := scan_isPrefix_readOn cleanEnd hlayout
    { buf := itemsBytes (runItems 0 ops) ++ tail } false
    ((itemsBytes (runItems 0 ops) ++ tail).length + 1) (itemsBytes (runItems 0 ops) ++ tail).length
    rfl rfl (by rw [List.length_append]; omega) (by rw [List.length_append]; omega)
    (by rw [List.length_append]; omega)
  rw [hscan] at hfound
  rw [hbuf, PageReader.readAll, readAllLoop_succ]
  exact hfound

/-- What is found in a first part of the bytes of a clear run are the first of its records. -/
theorem readAll_isPrefix_bodies {ops : List PageOp} (hclear : PageOp.ClearRun {} ops) {left : Bytes}
    (hleft : left <+: (({} : PageWriter).run ops).buf) :
    (PageReader.readAll left).1 <+: PageOp.bodies ops := by
  have hlayout := layout_runItems 0 ops
  have hbuf : (({} : PageWriter).run ops).buf = itemsBytes (runItems 0 ops) := run_buf {} ops
  have hscan : scan cleanEnd false [] (runItems 0 ops) = (PageOp.bodies ops, .endOfStream) :=
    scan_runItems cleanEnd {} ops hclear []
  rw [hbuf] at hleft
  rw [List.prefix_iff_eq_take.mp hleft, readAll_take hlayout]
  have hfewer := scan_isPrefix (cutEnd (cutsFragment (runItems 0 ops) left.length)) cleanEnd
    (cutItems_isPrefix (runItems 0 ops) left.length) false []
  rwa [hscan] at hfewer

end MerlionTsdb.Wal
