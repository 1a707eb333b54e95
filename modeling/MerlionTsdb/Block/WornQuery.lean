import MerlionTsdb.Block.IndexDamage

/-!
# Matchers over a worn index

The rewriting of matchers reads posting lists only, and what it finds is named by one.  Over a worn index
it finds the same ids, or the query is refused.
-/

namespace MerlionTsdb.Block

open Ascending Encoding Model

/-! ## Listed ids -/

section Listed

variable {r : IndexReader}

/-- All of the ids are named by lists. -/
def AllListed (r : IndexReader) (ids : List UInt32) : Prop := ∀ id ∈ ids, Listed r id

theorem allListed_append {ids ids' : List UInt32} (h : AllListed r ids) (h' : AllListed r ids') :
    AllListed r (ids ++ ids') := fun id hid ↦ (List.mem_append.mp hid).elim (h id) (h' id)

theorem AllListed.sortUnique {ids : List UInt32} (h : AllListed r ids) :
    AllListed r (sortUnique ids) := fun id hid ↦ h id (mem_sortUnique.mp hid)

/-- A pair that is found belongs to an entry of the table. -/
theorem exists_entry_of_lookup (hnew : r.postingsTable = .new r.postingsTable.entries)
    {name value : Str} {off : UInt64} (h : r.postingsTable.lookup name value = some off) :
    ∃ e ∈ r.postingsTable.entries, e.offset = off := by
  rw [hnew, PostingsOffsetTable.lookup_new] at h
  obtain ⟨e, hfind, hoff⟩ := Option.map_eq_some_iff.mp h
  exact ⟨e, List.mem_of_find?_eq_some hfind, hoff⟩

theorem listed_postings (hnew : r.postingsTable = .new r.postingsTable.entries) {name value : Str}
    {ids : List UInt32} (hok : r.postings name value = .ok ids) : AllListed r ids := by
  unfold IndexReader.postings at hok
  split at hok
  · cases hok
    exact fun id hid ↦ absurd hid List.not_mem_nil
  · rename_i off hlookup
    obtain ⟨e, he, rfl⟩ := exists_entry_of_lookup hnew hlookup
    exact fun id hid ↦ ⟨e, he, ids, hok, hid⟩

theorem listed_readLists {entries : List PostingsOffsetEntry} (hsub : entries ⊆ r.postingsTable.entries)
    {ids : List UInt32} (hok : r.readLists entries = .ok ids) : AllListed r ids := by
  induction entries generalizing ids with
  | nil =>
    cases hok
    exact fun id hid ↦ absurd hid List.not_mem_nil
  | cons e entries ih =>
    obtain ⟨he, hsub⟩ := List.cons_subset.mp hsub
    obtain ⟨found, hfound, hok⟩ := bind_ok hok
    obtain ⟨rest, hrest, hok⟩ := bind_ok hok
    cases hok
    exact allListed_append (fun id hid ↦ ⟨e, he, found, hfound, hid⟩) (ih hsub hrest)

theorem listed_allPostings {ids : List UInt32} (hok : r.allPostings = .ok ids) : AllListed r ids := by
  obtain ⟨found, hfound, hok⟩ := bind_ok hok
  cases hok
  exact (listed_readLists (List.Subset.refl _) hfound).sortUnique

theorem listed_postingsForName {name : Str} {ids : List UInt32}
    (hok : r.postingsForName name = .ok ids) : AllListed r ids := by
  obtain ⟨found, hfound, hok⟩ := bind_ok hok
  cases hok
  exact (listed_readLists List.filter_sublist.subset hfound).sortUnique

/-- A complement is taken of listed ids. -/
theorem listed_difference {ids taken : List UInt32} (h : AllListed r ids) :
    AllListed r (difference ids taken) :=
  fun id hid ↦ h id ((difference_sublist ids taken).subset hid)

theorem listed_withoutName {name : Str} {ids : List UInt32} (hok : withoutName r name = .ok ids) :
    AllListed r ids := by
  obtain ⟨all, hall, hok⟩ := bind_ok hok
  obtain ⟨named, -, hok⟩ := bind_ok hok
  cases hok
  exact listed_difference (listed_allPostings hall)

theorem listed_acceptedPostings (hnew : r.postingsTable = .new r.postingsTable.entries) {name : Str}
    {pred : Str → Bool} {values : List Str} {ids : List UInt32}
    (hok : acceptedPostings r name pred values = .ok ids) : AllListed r ids := by
  induction values generalizing ids with
  | nil =>
    cases hok
    exact fun id hid ↦ absurd hid List.not_mem_nil
  | cons v values ih =>
    unfold acceptedPostings at hok
    split at hok
    · exact ih hok
    · obtain ⟨found, hfound, hok⟩ := bind_ok hok
      obtain ⟨rest, hrest, hok⟩ := bind_ok hok
      cases hok
      exact allListed_append (listed_postings hnew hfound) (ih hrest)

theorem listed_predPostings (hnew : r.postingsTable = .new r.postingsTable.entries) {name : Str}
    {pred : Str → Bool} {ids : List UInt32} (hok : predPostings r name pred = .ok ids) :
    AllListed r ids := by
  obtain ⟨out, hout, hok⟩ := bind_ok hok
  have hlisted := listed_acceptedPostings hnew hout
  split at hok
  · obtain ⟨without, hwithout, hok⟩ := bind_ok hok
    cases hok
    exact (allListed_append hlisted (listed_withoutName hwithout)).sortUnique
  · cases hok
    exact hlisted.sortUnique

theorem listed_postingsForMatcher (hnew : r.postingsTable = .new r.postingsTable.entries)
    {m : Matcher} {ids : List UInt32} (hok : postingsForMatcher r m = .ok ids) : AllListed r ids := by
  unfold postingsForMatcher at hok
  split at hok
  · split at hok
    · exact listed_withoutName hok
    · exact listed_postings hnew hok
  · split at hok
    · exact listed_postingsForName hok
    · obtain ⟨all, hall, hok⟩ := bind_ok hok
      obtain ⟨taken, -, hok⟩ := bind_ok hok
      cases hok
      exact listed_difference (listed_allPostings hall)
  · exact listed_predPostings hnew hok
  · obtain ⟨taken, -, hok⟩ := bind_ok hok
    obtain ⟨all, hall, hok⟩ := bind_ok hok
    cases hok
    exact listed_difference (listed_allPostings hall)

theorem listed_intersectMatchers {ids found : List UInt32} (h : AllListed r ids)
    {matchers : List Matcher} (hok : intersectMatchers r ids matchers = .ok found) :
    AllListed r found := by
  induction matchers generalizing ids with
  | nil =>
    cases hok
    exact h
  | cons m matchers ih =>
    unfold intersectMatchers at hok
    split at hok
    · cases hok
      exact h
    · obtain ⟨next, -, hok⟩ := bind_ok hok
      exact ih (fun id hid ↦ h id ((intersection_sublist ids next).subset hid)) hok

end Listed

/-! ## Queries on both readers -/

namespace WornReader

variable {l : IndexLayout} {r r' : IndexReader}

theorem postings (h : WornReader l r r') (name value : Str) :
    OrError malformed (r'.postings name value) (r.postings name value) := by
  unfold IndexReader.postings
  rw [h.table_eq]
  cases hlookup : r.postingsTable.lookup name value with
  | none => exact .refl _
  | some off =>
    obtain ⟨e, he, rfl⟩ := exists_entry_of_lookup h.table_new hlookup
    exact h.lists e he

theorem readLists (h : WornReader l r r') {entries : List PostingsOffsetEntry}
    (hsub : entries ⊆ r.postingsTable.entries) :
    OrError malformed (r'.readLists entries) (r.readLists entries) := by
  induction entries with
  | nil => exact .refl _
  | cons e entries ih =>
    obtain ⟨he, hsub⟩ := List.cons_subset.mp hsub
    exact (h.lists e he).bind fun ids _ ↦ (ih hsub).bind_same _

theorem postingsForName (h : WornReader l r r') (name : Str) :
    OrError malformed (r'.postingsForName name) (r.postingsForName name) := by
  unfold IndexReader.postingsForName
  rw [h.table_eq]
  exact (h.readLists List.filter_sublist.subset).bind_same _

theorem allPostings (h : WornReader l r r') : OrError malformed r'.allPostings r.allPostings := by
  unfold IndexReader.allPostings
  rw [h.table_eq]
  exact (h.readLists (List.Subset.refl _)).bind_same _

theorem withoutName (h : WornReader l r r') (name : Str) :
    OrError malformed (withoutName r' name) (withoutName r name) :=
  h.allPostings.bind fun _ _ ↦ (h.postingsForName name).bind_same _

theorem acceptedPostings (h : WornReader l r r') (name : Str) (pred : Str → Bool) (values : List Str) :
    OrError malformed (acceptedPostings r' name pred values) (acceptedPostings r name pred values) := by
  induction values with
  | nil => exact .refl _
  | cons v values ih =>
    unfold Block.acceptedPostings
    split
    · exact ih
    · exact (h.postings name v).bind fun ids _ ↦ ih.bind_same _

theorem predPostings (h : WornReader l r r') (name : Str) (pred : Str → Bool) :
    OrError malformed (predPostings r' name pred) (predPostings r name pred) := by
  unfold Block.predPostings IndexReader.labelValues
  rw [h.table_eq]
  apply (h.acceptedPostings name pred _).bind
  intro out _
  -- The series without the label are added where the empty value is accepted.
  split
  · exact (h.withoutName name).bind_same _
  · exact .refl _

theorem postingsForMatcher (h : WornReader l r r') (m : Matcher) :
    OrError malformed (postingsForMatcher r' m) (postingsForMatcher r m) := by
  unfold Block.postingsForMatcher
  split
  · split
    · exact h.withoutName m.name
    · exact h.postings m.name m.value
  · split
    · exact h.postingsForName m.name
    · exact h.allPostings.bind fun _ _ ↦ (h.postings m.name m.value).bind_same _
  · exact h.predPostings m.name m.accepts
  · exact (h.predPostings m.name m.regexMatches).bind fun _ _ ↦ h.allPostings.bind_same _

theorem intersectMatchers (h : WornReader l r r') (ids : List UInt32) (matchers : List Matcher) :
    OrError malformed (intersectMatchers r' ids matchers) (intersectMatchers r ids matchers) := by
  induction matchers generalizing ids with
  | nil => exact .refl _
  | cons m matchers ih =>
    unfold Block.intersectMatchers
    split
    · exact .refl _
    · exact (h.postingsForMatcher m).bind fun next _ ↦ ih _

end WornReader
end MerlionTsdb.Block
