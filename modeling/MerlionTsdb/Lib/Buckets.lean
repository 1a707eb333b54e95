import Mathlib.Data.List.Perm.Basic
import Mathlib.Data.List.Nodup

/-!
# Buckets

An unordered map from keys to vectors.  Every key has one bucket, which holds what was appended under the
key in the order of the appends.  In which order the map is iterated is open.
-/

namespace MerlionTsdb.Buckets

/-- The entries of the map, each key at its first place. -/
abbrev Map (κ α : Type) := List (κ × List α)

/-- The order in which an unordered map is iterated, which may depend on all of its contents. -/
structure HashOrder (α : Type) where
  order : List α → List α
  perm : ∀ entries, (order entries).Perm entries

/-- The order of the first appends is one of them. -/
def HashOrder.inserted (α : Type) : HashOrder α := ⟨id, fun _ ↦ .refl _⟩

variable {κ α : Type}

def keys (b : Map κ α) : List κ := b.map Prod.fst

@[simp] theorem keys_nil : keys ([] : Map κ α) = [] := rfl

variable [DecidableEq κ]

/-- The elements go to the bucket of the key, which is new when there was none. -/
def append (key : κ) (elems : List α) : Map κ α → Map κ α
  | [] => [(key, elems)]
  | (k, old) :: rest =>
    if k = key then (k, old ++ elems) :: rest else (k, old) :: append key elems rest

/-- One entry after the other. -/
def appendAll (b : Map κ α) (entries : List (κ × List α)) : Map κ α :=
  entries.foldl (fun b e ↦ append e.1 e.2 b) b

def bucket (b : Map κ α) (key : κ) : List α :=
  ((b.find? fun e ↦ e.1 = key).map Prod.snd).getD []

@[simp] theorem bucket_nil (key : κ) : bucket ([] : Map κ α) key = [] := rfl

theorem bucket_cons (e : κ × List α) (b : Map κ α) (key : κ) :
    bucket (e :: b) key = if e.1 = key then e.2 else bucket b key := by
  unfold bucket
  by_cases h : e.1 = key
  · rw [if_pos h, List.find?_cons_of_pos (by simpa using h)]
    rfl
  · rw [if_neg h, List.find?_cons_of_neg (by simpa using h)]

/-! ## One append -/

theorem mem_keys_append (b : Map κ α) (key k : κ) (elems : List α) :
    k ∈ keys (append key elems b) ↔ k ∈ keys b ∨ k = key := by
  induction b with
  | nil => simp [append, keys]
  | cons e b ih =>
    unfold append
    split
    · rename_i h
      subst h
      simp only [keys, List.map_cons, List.mem_cons]
      tauto
    · simp only [keys, List.map_cons, List.mem_cons] at ih ⊢
      rw [ih, or_assoc]

theorem nodup_keys_append {b : Map κ α} (h : (keys b).Nodup) (key : κ) (elems : List α) :
    (keys (append key elems b)).Nodup := by
  induction b with
  | nil => simp [append, keys]
  | cons e b ih =>
    have hcons := List.nodup_cons.mp h
    unfold append
    split
    · exact h
    · rename_i hne
      apply List.nodup_cons.mpr
      refine ⟨fun hmem ↦ ?_, ih hcons.2⟩
      rcases (mem_keys_append b key e.1 elems).mp hmem with hmem | heq
      · exact hcons.1 hmem
      · exact hne heq

theorem bucket_append (b : Map κ α) (key k : κ) (elems : List α) :
    bucket (append key elems b) k = if key = k then bucket b k ++ elems else bucket b k := by
  induction b with
  | nil =>
    unfold append
    rw [bucket_cons, bucket_nil, List.nil_append]
  | cons e b ih =>
    unfold append
    split
    · rename_i h
      subst h
      rw [bucket_cons, bucket_cons]
      split <;> rfl
    · rename_i hne
      rw [bucket_cons, bucket_cons, ih]
      by_cases hk : e.1 = k
      · -- The bucket asked for is not the one that grows.
        rw [if_pos hk, if_pos hk, if_neg (fun hkey ↦ hne (hk.trans hkey.symm))]
      · rw [if_neg hk, if_neg hk]

/-! ## Many appends -/

theorem mem_keys_appendAll (b : Map κ α) (entries : List (κ × List α)) (k : κ) :
    k ∈ keys (appendAll b entries) ↔ k ∈ keys b ∨ k ∈ entries.map Prod.fst := by
  induction entries generalizing b with
  | nil => simp [appendAll]
  | cons e entries ih =>
    rw [show appendAll b (e :: entries) = appendAll (append e.1 e.2 b) entries from rfl, ih,
      mem_keys_append, List.map_cons, List.mem_cons, or_assoc]

theorem appendAll_append (b : Map κ α) (xs ys : List (κ × List α)) :
    appendAll (appendAll b xs) ys = appendAll b (xs ++ ys) := by
  unfold appendAll
  rw [List.foldl_append]

theorem nodup_keys_appendAll {b : Map κ α} (h : (keys b).Nodup) (entries : List (κ × List α)) :
    (keys (appendAll b entries)).Nodup := by
  induction entries generalizing b with
  | nil => exact h
  | cons e entries ih => exact ih (nodup_keys_append h e.1 e.2)

/-- A bucket holds all elements under its key, in the order of their entries. -/
theorem bucket_appendAll (b : Map κ α) (entries : List (κ × List α)) (k : κ) :
    bucket (appendAll b entries) k =
      bucket b k ++ (entries.filter fun e ↦ e.1 = k).flatMap Prod.snd := by
  induction entries generalizing b with
  | nil => simp [appendAll]
  | cons e entries ih =>
    rw [show appendAll b (e :: entries) = appendAll (append e.1 e.2 b) entries from rfl, ih,
      bucket_append, List.filter_cons]
    by_cases hk : e.1 = k
    · rw [if_pos hk, if_pos (by simpa using hk), List.flatMap_cons, List.append_assoc]
    · rw [if_neg hk, if_neg (by simpa using hk)]

/-- The entries of a map are its keys with their buckets. -/
theorem mem_iff {b : Map κ α} (h : (keys b).Nodup) {k : κ} {elems : List α} :
    (k, elems) ∈ b ↔ k ∈ keys b ∧ bucket b k = elems := by
  induction b with
  | nil => simp [keys]
  | cons e b ih =>
    obtain ⟨hout, hrest⟩ := List.nodup_cons.mp h
    rw [bucket_cons]
    simp only [keys, List.map_cons, List.mem_cons] at ih ⊢
    by_cases hk : e.1 = k
    · subst hk
      rw [if_pos rfl]
      constructor
      · rintro (heq | hmem)
        · rw [← heq]
          exact ⟨Or.inl rfl, rfl⟩
        · exact absurd (List.mem_map_of_mem hmem) hout
      · rintro ⟨-, heq⟩
        exact Or.inl (Prod.ext rfl heq.symm)
    · rw [if_neg hk]
      constructor
      · rintro (heq | hmem)
        · rw [← heq] at hk
          exact absurd rfl hk
        · exact ⟨Or.inr ((ih hrest).mp hmem).1, ((ih hrest).mp hmem).2⟩
      · rintro ⟨heq | hmem, hb⟩
        · exact absurd heq.symm hk
        · exact Or.inr ((ih hrest).mpr ⟨hmem, hb⟩)

/-- An element of a bucket was appended under its key. -/
theorem exists_mem_appendAll {entries : List (κ × List α)} {key : κ} {P : α → Prop} :
    (∃ e ∈ appendAll [] entries, e.1 = key ∧ ∃ x ∈ e.2, P x) ↔
      ∃ e ∈ entries, e.1 = key ∧ ∃ x ∈ e.2, P x := by
  have hempty : (keys ([] : Map κ α)).Nodup := List.nodup_nil
  have hnodup := nodup_keys_appendAll hempty entries
  have hbucket := bucket_appendAll ([] : Map κ α) entries key
  rw [bucket_nil, List.nil_append] at hbucket
  constructor
  · rintro ⟨⟨k, elems⟩, he, rfl, x, hx, hp⟩
    have helems := ((mem_iff hnodup).mp he).2
    rw [hbucket] at helems
    rw [← helems] at hx
    obtain ⟨e, he, hx⟩ := List.mem_flatMap.mp hx
    obtain ⟨hmem, hkey⟩ := List.mem_filter.mp he
    exact ⟨e, hmem, of_decide_eq_true hkey, x, hx, hp⟩
  · rintro ⟨e, he, rfl, x, hx, hp⟩
    have hkey : e.1 ∈ keys (appendAll [] entries) :=
      (mem_keys_appendAll [] entries e.1).mpr (Or.inr (List.mem_map_of_mem he))
    refine ⟨(e.1, bucket (appendAll [] entries) e.1), (mem_iff hnodup).mpr ⟨hkey, rfl⟩, rfl, x, ?_, hp⟩
    rw [hbucket]
    exact List.mem_flatMap.mpr ⟨e, List.mem_filter.mpr ⟨he, decide_eq_true rfl⟩, hx⟩

end MerlionTsdb.Buckets
