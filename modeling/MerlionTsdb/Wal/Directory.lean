import MerlionTsdb.Lib.Decimal
import MerlionTsdb.Wal.Segment

/-!
# The directory of segments

How creating, growing and replacing a segment file changes what a reader of the directory finds.
-/

namespace MerlionTsdb.Wal

/-! ## Names -/

/-- Names of eight digits parse back. -/
theorem parseSegmentName_format {idx : Nat} (h : idx < 10 ^ kSegmentNameWidth) :
    parseSegmentName (formatSegmentName idx) = some idx := by
  change Decimal.parse kSegmentNameWidth (Decimal.padded kSegmentNameWidth idx) = _
  rw [Decimal.parse_padded (by decide), if_pos h]

/-- Longer names are no segments any more. -/
theorem parseSegmentName_format_of_le {idx : Nat} (h : 10 ^ kSegmentNameWidth ≤ idx) :
    parseSegmentName (formatSegmentName idx) = none := by
  change Decimal.parse kSegmentNameWidth (Decimal.padded kSegmentNameWidth idx) = _
  rw [Decimal.parse_padded (by decide), if_neg (Nat.not_lt.mpr h)]

theorem formatSegmentName_injective : Function.Injective formatSegmentName :=
  Decimal.padded_injective kSegmentNameWidth

/-! ## Contents -/

namespace Files

theorem setEntries_setEntries (entries : List (FileName × Bytes)) (name : FileName)
    (bytes bytes' : Bytes) :
    setEntries (setEntries entries name bytes) name bytes' = setEntries entries name bytes' := by
  induction entries with
  | nil => simp [setEntries]
  | cons e entries ih =>
    by_cases he : e.1 = name
    · simp [setEntries, he]
    · simp [setEntries, he, ih]

theorem find_setEntries (entries : List (FileName × Bytes)) (name : FileName) (bytes : Bytes) :
    (setEntries entries name bytes).find? (fun e ↦ e.1 = name) = some (name, bytes) := by
  induction entries with
  | nil => simp [setEntries]
  | cons e entries ih =>
    unfold setEntries
    by_cases he : e.1 = name
    · simp [he]
    · simp [he, ih]

theorem setEntries_of_not_mem {entries : List (FileName × Bytes)} {name : FileName}
    (h : name ∉ entries.map Prod.fst) (bytes : Bytes) :
    setEntries entries name bytes = entries ++ [(name, bytes)] := by
  induction entries with
  | nil => rfl
  | cons e entries ih =>
    rw [List.map_cons, List.mem_cons, not_or] at h
    unfold setEntries
    rw [if_neg (Ne.symm h.1), ih h.2, List.cons_append]

theorem set_set (files : Files) (name : FileName) (bytes bytes' : Bytes) :
    (files.set name bytes).set name bytes' = files.set name bytes' := by
  apply Files.ext
  exact setEntries_setEntries files.entries name bytes bytes'

theorem content_set (files : Files) (name : FileName) (bytes : Bytes) :
    (files.set name bytes).content name = bytes := by
  unfold content set
  dsimp only
  rw [find_setEntries]
  rfl

theorem find_setEntries_of_ne {name other : FileName} (hne : other ≠ name)
    (entries : List (FileName × Bytes)) (bytes : Bytes) :
    (setEntries entries name bytes).find? (fun e ↦ e.1 = other) =
      entries.find? fun e ↦ e.1 = other := by
  induction entries with
  | nil => simp [setEntries, Ne.symm hne]
  | cons e entries ih =>
    unfold setEntries
    by_cases he : e.1 = name
    · simp [he, Ne.symm hne]
    · rw [if_neg he, List.find?_cons, List.find?_cons, ih]

/-- Setting a file leaves the others alone. -/
theorem content_set_of_ne {name other : FileName} (hne : other ≠ name) (files : Files)
    (bytes : Bytes) : (files.set name bytes).content other = files.content other := by
  unfold content set
  dsimp only
  rw [find_setEntries_of_ne hne]

/-- Appending to a file that was just set. -/
theorem append_set (files : Files) (name : FileName) (bytes bytes' : Bytes) :
    (files.set name bytes).append name bytes' = files.set name (bytes ++ bytes') := by
  rw [append, content_set, set_set]

/-- The files whose names `parse` to a number, with these numbers. -/
def numbered (files : Files) (parse : FileName → Option Nat) : List (Nat × Bytes) :=
  files.entries.filterMap fun e ↦ (parse e.1).map fun idx ↦ (idx, e.2)

/-- A file of a number not in use is a new one. -/
theorem numbered_set_new {files : Files} {parse : FileName → Option Nat} {name : FileName} {idx : Nat}
    (hparse : parse name = some idx) (hnew : ∀ e ∈ files.numbered parse, e.1 ≠ idx) (bytes : Bytes) :
    (files.set name bytes).numbered parse = files.numbered parse ++ [(idx, bytes)] := by
  have hmem : name ∉ files.entries.map Prod.fst := by
    intro hmem
    obtain ⟨e, he, hname⟩ := List.mem_map.mp hmem
    -- A file of that name would have been found with that number.
    apply hnew (idx, e.2) _ rfl
    unfold numbered
    rw [List.mem_filterMap]
    exact ⟨e, he, by simp [hname, hparse]⟩
  unfold numbered set
  dsimp only
  rw [setEntries_of_not_mem hmem, List.filterMap_append]
  simp [hparse]

end Files

/-! ## What a reader finds -/

theorem indexed_setEntries_foreign {name : FileName} (h : parseSegmentName name = none)
    (entries : List (FileName × Bytes)) (bytes : Bytes) :
    (Files.setEntries entries name bytes).filterMap
        (fun e ↦ (parseSegmentName e.1).map fun idx ↦ (idx, e.2)) =
      entries.filterMap fun e ↦ (parseSegmentName e.1).map fun idx ↦ (idx, e.2) := by
  induction entries with
  | nil => simp [Files.setEntries, h]
  | cons e entries ih =>
    unfold Files.setEntries
    by_cases he : e.1 = name
    · simp [he, h]
    · rw [if_neg he, List.filterMap_cons, List.filterMap_cons, ih]

/-- A file that is no segment is not read. -/
theorem segments_set_foreign {name : FileName} (h : parseSegmentName name = none) (files : Files)
    (bytes : Bytes) : segments (files.set name bytes) = segments files := by
  have hindexed : indexed (files.set name bytes) = indexed files :=
    indexed_setEntries_foreign h files.entries bytes
  rw [segments, hindexed, segments]

/-- Every index found is below the next one. -/
theorem lt_nextIndex {files : Files} {e : Nat × Bytes} (h : e ∈ indexed files) :
    e.1 < SegmentWriter.nextIndex files := by
  have hfold : ∀ (found : List (Nat × Bytes)) (start : Nat),
      start ≤ found.foldl (fun next e ↦ max next (e.1 + 1)) start ∧
        ∀ e ∈ found, e.1 < found.foldl (fun next e ↦ max next (e.1 + 1)) start := by
    intro found
    induction found with
    | nil => simp
    | cons e' found ih =>
      intro start
      obtain ⟨hstart, hall⟩ := ih (max start (e'.1 + 1))
      rw [List.foldl_cons]
      refine ⟨by omega, ?_⟩
      intro e he
      rcases List.mem_cons.mp he with rfl | he
      · omega
      · exact hall e he
  exact (hfold (indexed files) 0).2 e h

theorem indexed_set_new {files : Files} {idx : Nat} (hnew : SegmentWriter.nextIndex files ≤ idx)
    (hidx : idx < 10 ^ kSegmentNameWidth) (bytes : Bytes) :
    indexed (files.set (formatSegmentName idx) bytes) = indexed files ++ [(idx, bytes)] := by
  apply Files.numbered_set_new (parseSegmentName_format hidx)
  intro e he
  have hlt := lt_nextIndex he
  omega

theorem insertionSort_append_last {idx : Nat} {bytes : Bytes} (found : List (Nat × Bytes))
    (h : ∀ e ∈ found, e.1 < idx) :
    (found ++ [(idx, bytes)]).insertionSort (fun a b ↦ a.1 ≤ b.1) =
      found.insertionSort (fun a b ↦ a.1 ≤ b.1) ++ [(idx, bytes)] := by
  have hinsert : ∀ (e : Nat × Bytes) (sorted : List (Nat × Bytes)), e.1 < idx →
      (sorted ++ [(idx, bytes)]).orderedInsert (fun a b ↦ a.1 ≤ b.1) e =
        sorted.orderedInsert (fun a b ↦ a.1 ≤ b.1) e ++ [(idx, bytes)] := by
    intro e sorted he
    induction sorted with
    | nil => simp [List.orderedInsert, he.le]
    | cons s sorted ih =>
      by_cases hes : e.1 ≤ s.1
      · simp [List.orderedInsert, hes]
      · simp [List.orderedInsert, hes, ih]
  induction found with
  | nil => rfl
  | cons e found ih =>
    rw [List.cons_append, List.insertionSort_cons, List.insertionSort_cons,
      ih fun e' he' ↦ h e' (List.mem_cons_of_mem _ he'), hinsert _ _ (h e List.mem_cons_self)]

/-- A file at a new index is the last segment. -/
theorem segments_set_new {files : Files} {idx : Nat} (hnew : SegmentWriter.nextIndex files ≤ idx)
    (hidx : idx < 10 ^ kSegmentNameWidth) (bytes : Bytes) :
    segments (files.set (formatSegmentName idx) bytes) = segments files ++ [bytes] := by
  unfold segments
  rw [indexed_set_new hnew hidx, insertionSort_append_last, List.map_append]
  · rfl
  · intro e he
    exact Nat.lt_of_lt_of_le (lt_nextIndex he) hnew

theorem nextIndex_set_new {files : Files} {idx : Nat} (hnew : SegmentWriter.nextIndex files ≤ idx)
    (hidx : idx < 10 ^ kSegmentNameWidth) (bytes : Bytes) :
    SegmentWriter.nextIndex (files.set (formatSegmentName idx) bytes) = idx + 1 := by
  unfold SegmentWriter.nextIndex at hnew ⊢
  rw [indexed_set_new hnew hidx, List.foldl_append, List.foldl_cons, List.foldl_nil]
  omega

end MerlionTsdb.Wal
