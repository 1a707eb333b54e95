import MerlionTsdb.Lib.Str
import Mathlib.Data.List.Sort

/-!
# Labels

`labels.cpp`: label sets sorted by name, each name once.
-/

namespace MerlionTsdb.Model

structure Label where
  name : Str
  value : Str
  deriving DecidableEq

/-- `std::vector<Label>::max_size`: a label is 64 bytes. -/
def kMaxLabels : Nat := kMaxSize / 64

theorem reserves_labels {n : Nat} : Reserves kMaxSize 64 n ↔ n ≤ kMaxLabels := by
  unfold Reserves kMaxLabels kMaxSize
  omega

theorem labels_le_of_reserves {memory n : Nat} (h : Reserves memory 64 n) : n ≤ kMaxLabels :=
  reserves_labels.mp ⟨h.1, h.1⟩

/-- Drops every label that is followed by one of the same name. -/
def dedupe : List Label → List Label
  | [] => []
  | l :: rest =>
    -- The later of two labels of one name is kept.
    if rest.head?.any fun next ↦ l.name = next.name then dedupe rest else l :: dedupe rest

/-- `canonicalize`: a stable sort by name, and the last label of each name. -/
def canonicalize (entries : List Label) : List Label :=
  dedupe (entries.insertionSort fun a b ↦ a.name ≤ b.name)

theorem dedupe_sublist (entries : List Label) : (dedupe entries).Sublist entries := by
  induction entries with
  | nil => exact List.Sublist.refl _
  | cons l rest ih =>
    unfold dedupe
    split
    · exact ih.cons l
    · exact ih.cons_cons l

theorem dedupe_pairwise {entries : List Label}
    (h : entries.Pairwise fun a b ↦ a.name ≤ b.name) :
    (dedupe entries).Pairwise fun a b ↦ a.name < b.name := by
  induction entries with
  | nil => exact List.Pairwise.nil
  | cons l rest ih =>
    obtain ⟨hl, hrest⟩ := List.pairwise_cons.mp h
    unfold dedupe
    split
    · exact ih hrest
    · rename_i hnext
      apply List.Pairwise.cons _ (ih hrest)
      intro e he
      have hmem := (dedupe_sublist rest).subset he
      cases rest with
      | nil => cases hmem
      | cons next rest =>
        have hne : l.name ≠ next.name := by simpa using hnext
        have hlt : l.name < next.name := lt_of_le_of_ne (hl next List.mem_cons_self) hne
        rcases List.mem_cons.mp hmem with rfl | hmem
        · exact hlt
        · exact hlt.trans_le ((List.pairwise_cons.mp hrest).1 e hmem)

theorem dedupe_of_pairwise {entries : List Label}
    (h : entries.Pairwise fun a b ↦ a.name < b.name) : dedupe entries = entries := by
  induction entries with
  | nil => rfl
  | cons l rest ih =>
    obtain ⟨hl, hrest⟩ := List.pairwise_cons.mp h
    unfold dedupe
    rw [if_neg, ih hrest]
    cases rest with
    | nil => simp
    | cons next rest => simpa using (hl next List.mem_cons_self).ne

instance : Std.Total fun a b : Label ↦ a.name ≤ b.name := ⟨fun a b ↦ le_total a.name b.name⟩

instance : IsTrans Label fun a b ↦ a.name ≤ b.name := ⟨fun _ _ _ ↦ le_trans⟩

theorem canonicalize_pairwise (entries : List Label) :
    (canonicalize entries).Pairwise fun a b ↦ a.name < b.name :=
  dedupe_pairwise (List.pairwise_insertionSort _ entries)

theorem canonicalize_length_le (entries : List Label) :
    (canonicalize entries).length ≤ entries.length := by
  have hsub := (dedupe_sublist (entries.insertionSort fun a b ↦ a.name ≤ b.name)).length_le
  rwa [List.length_insertionSort] at hsub

/-- Sorted entries are left as they are. -/
theorem canonicalize_of_pairwise {entries : List Label}
    (h : entries.Pairwise fun a b ↦ a.name < b.name) : canonicalize entries = entries := by
  have hle : entries.Pairwise fun a b ↦ a.name ≤ b.name := h.imp le_of_lt
  rw [canonicalize, hle.insertionSort_eq, dedupe_of_pairwise h]

/-- `Labels`. -/
structure Labels where
  entries : List Label
  sorted : entries.Pairwise fun a b ↦ a.name < b.name
  length_le : entries.length ≤ kMaxLabels
  deriving DecidableEq

namespace Labels

@[ext] theorem ext {a b : Labels} (h : a.entries = b.entries) : a = b := by
  cases a
  cases b
  cases h
  rfl

/-- `Labels()`. -/
def empty : Labels := ⟨[], List.Pairwise.nil, Nat.zero_le _⟩

/-- A set of one label. -/
def single (l : Label) : Labels where
  entries := [l]
  sorted := List.pairwise_singleton _ _
  length_le := by
    show 1 ≤ kMaxLabels
    decide

/-- The constructor from a vector. -/
def ofList (entries : List Label) (h : entries.length ≤ kMaxLabels) : Labels :=
  ⟨canonicalize entries, canonicalize_pairwise entries, (canonicalize_length_le entries).trans h⟩

theorem ofList_entries (l : Labels) : ofList l.entries l.length_le = l :=
  Labels.ext (canonicalize_of_pairwise l.sorted)

/-- `get`: a binary search for the first name that is not less. -/
def get (l : Labels) (name : Str) : Option Str :=
  match l.entries.find? fun e ↦ ¬ e.name < name with
  | some e => if e.name = name then some e.value else none
  | none => none

end Labels
end MerlionTsdb.Model
