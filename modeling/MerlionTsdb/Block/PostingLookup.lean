import MerlionTsdb.Block.IndexRoundtrip

/-!
# Posting lists by label

The reader finds a posting list under the name and the value of its label, joined with a NUL byte.
-/

namespace MerlionTsdb.Block

open Encoding Model

namespace PostingsOffsetTable

/-- What is there stays there, and a new key is found behind it. -/
theorem find_emplace (byPair : List (Bytes × UInt64)) (key key' : Bytes) (offset : UInt64) :
    ((emplace byPair key offset).find? (·.1 = key')).map Prod.snd =
      ((byPair.find? (·.1 = key')).map Prod.snd).or (if key = key' then some offset else none) := by
  unfold emplace
  by_cases hkey : key = key'
  · subst hkey
    rw [if_pos rfl]
    cases hfind : byPair.find? (·.1 = key) with
    | none =>
      -- The key is new.
      have hany : (byPair.any fun e ↦ e.1 = key) = false := by
        rw [List.any_eq_false]
        intro e he
        have hnone := List.find?_eq_none.mp hfind e he
        simpa using hnone
      rw [hany, if_neg Bool.false_ne_true, List.find?_append, hfind]
      simp
    | some e =>
      have hany : (byPair.any fun e ↦ e.1 = key) = true := by
        rw [List.any_eq_true]
        exact ⟨e, List.mem_of_find?_eq_some hfind, by simpa using List.find?_some hfind⟩
      rw [hany, if_pos rfl, hfind]
      rfl
  · rw [if_neg hkey, Option.or_none]
    split
    · rfl
    · rw [List.find?_append]
      simp [hkey]

/-- The first entry of a joined key. -/
theorem lookup_new (entries : List PostingsOffsetEntry) (name value : Str) :
    (new entries).lookup name value =
      (entries.find? fun e ↦ joinedKey e.name e.value = joinedKey name value).map
        PostingsOffsetEntry.offset := by
  have hfold : ∀ byPair : List (Bytes × UInt64),
      ((entries.foldl (fun byPair e ↦ emplace byPair (joinedKey e.name e.value) e.offset)
          byPair).find? (·.1 = joinedKey name value)).map Prod.snd =
        ((byPair.find? (·.1 = joinedKey name value)).map Prod.snd).or
          ((entries.find? fun e ↦ joinedKey e.name e.value = joinedKey name value).map
            PostingsOffsetEntry.offset) := by
    induction entries with
    | nil => simp
    | cons e entries ih =>
      intro byPair
      rw [List.foldl_cons, ih, find_emplace, Option.or_assoc]
      congr 1
      by_cases hkey : joinedKey e.name e.value = joinedKey name value
      · simp [hkey]
      · simp [hkey]
  have h := hfold []
  simpa [lookup, new] using h

end PostingsOffsetTable

/-! ## Joined keys -/

/-- Up to the first NUL byte the key is the name. -/
theorem joinedKey_inj {name name' value value' : Str} (hname : 0 ∉ name.bytes)
    (hname' : 0 ∉ name'.bytes) (h : joinedKey name value = joinedKey name' value') :
    name = name' ∧ value = value' := by
  unfold joinedKey at h
  have hbytes : name.bytes = name'.bytes ∧ value.bytes = value'.bytes := by
    generalize name.bytes = a at hname h
    generalize name'.bytes = b at hname' h
    induction a generalizing b with
    | nil =>
      cases b with
      | nil => simpa using h
      | cons y b =>
        -- The other name would start with the NUL byte.
        rw [List.nil_append, List.cons_append, List.cons.injEq] at h
        rw [← h.1] at hname'
        simp at hname'
    | cons x a ih =>
      cases b with
      | nil =>
        rw [List.nil_append, List.cons_append, List.cons.injEq] at h
        rw [h.1] at hname
        simp at hname
      | cons y b =>
        rw [List.cons_append, List.cons_append, List.cons.injEq] at h
        have hrest := ih (fun hmem ↦ hname (List.mem_cons_of_mem _ hmem)) b
          (fun hmem ↦ hname' (List.mem_cons_of_mem _ hmem)) h.2
        exact ⟨by rw [h.1, hrest.1], hrest.2⟩
  exact ⟨Str.ext hbytes.1, Str.ext hbytes.2⟩

/-- A pair without NUL bytes is the only one with its key. -/
theorem joinedKey_eq {name name' value value' : Str} (hname : 0 ∉ name.bytes)
    (hvalue : 0 ∉ value.bytes) (h : joinedKey name value = joinedKey name' value') :
    name = name' ∧ value = value' := by
  apply joinedKey_inj hname _ h
  -- The key holds a single NUL byte.
  have hcount := congrArg (List.count 0) h
  unfold joinedKey at hcount
  rw [List.count_append, List.count_append, List.count_cons_self, List.count_cons_self,
    List.count_eq_zero_of_not_mem hname, List.count_eq_zero_of_not_mem hvalue] at hcount
  apply List.count_eq_zero.mp
  omega

/-- The list written for a pair, the empty list when there is none. -/
def IndexContents.listOf (x : IndexContents) (name value : Str) : List UInt32 :=
  match x.postings.find? fun p ↦ p.name = name ∧ p.value = value with
  | some p => p.seriesIds
  | none => []

/-- The reader returns the first list written under the joined key. -/
theorem Serves.postings_eq {r : IndexReader} {x : IndexContents} (h : Serves r x)
    (name value : Str) :
    r.postings name value =
      .ok (match x.postings.find? fun p ↦ joinedKey p.name p.value = joinedKey name value with
        | some p => p.seriesIds
        | none => []) := by
  have hpostings := h.postings
  unfold IndexReader.postings
  rw [h.table_eq, PostingsOffsetTable.lookup_new]
  generalize r.postingsTable.entries = entries at hpostings
  generalize x.postings = postings at hpostings
  induction hpostings with
  | nil => rfl
  | @cons e p entries postings he _ ih =>
    obtain ⟨hname, hvalue, hread⟩ := he
    by_cases hkey : joinedKey p.name p.value = joinedKey name value
    · simp [hname, hvalue, hkey, hread]
    · simp [hname, hvalue, hkey, ih]

/-- Each pair written once. -/
def IndexContents.Distinct (x : IndexContents) : Prop :=
  x.postings.Pairwise fun p q ↦ ¬ (p.name = q.name ∧ p.value = q.value)

theorem IndexContents.Distinct.listOf {x : IndexContents} (h : x.Distinct) {p : PostingsWritten}
    (hp : p ∈ x.postings) : x.listOf p.name p.value = p.seriesIds := by
  unfold IndexContents.listOf
  unfold Distinct at h
  generalize x.postings = postings at h hp
  induction postings with
  | nil => cases hp
  | cons q postings ih =>
    obtain ⟨hq, hrest⟩ := List.pairwise_cons.mp h
    rcases List.mem_cons.mp hp with rfl | hp
    · simp
    · rw [List.find?_cons_of_neg (by simpa using hq p hp)]
      exact ih hrest hp

/-- Within the widths of the format, the lists are found exactly when no two pairs with different lists
have the same joined key. -/
theorem postings_exact_iff {w₀ w : IndexWriter} {calls : List IndexCall}
    {closeCalls : IndexCloseCalls} {steps : List IndexStep} {last : IndexStep} {file : Option Bytes}
    (hcreate : IndexWriter.create none = .ok w₀)
    (hrun : runIndexCalls w₀ none (calls ++ [.close closeCalls]) = (steps ++ [last], w, file))
    (hclosed : last.answer = .ok none) (hfits : ∀ s ∈ steps ++ [last], s.Fits)
    (hdistinct : (contents (steps ++ [last])).Distinct) :
    ∃ r, IndexReader.openFile file = .ok r ∧
      ((∀ name value, r.postings name value =
          .ok ((contents (steps ++ [last])).listOf name value)) ↔
        ∀ p ∈ (contents (steps ++ [last])).postings, ∀ name value,
          joinedKey p.name p.value = joinedKey name value →
            p.seriesIds = (contents (steps ++ [last])).listOf name value) := by
  obtain ⟨r, hopen, hserves⟩ := closed_serves hcreate hrun hclosed hfits
  refine ⟨r, hopen, ?_⟩
  generalize contents (steps ++ [last]) = x at hdistinct hserves ⊢
  constructor
  · intro hexact p hp name value hkey
    -- Both pairs are answered with the first list of their key.
    have hfirst := hserves.postings_eq p.name p.value
    rw [hkey, ← hserves.postings_eq name value, hexact, hexact, hdistinct.listOf hp] at hfirst
    exact Except.ok.inj hfirst
  · intro hcond name value
    rw [hserves.postings_eq]
    congr 1
    cases hfind : x.postings.find? fun p ↦ joinedKey p.name p.value = joinedKey name value with
    | some p =>
      have hkey : joinedKey p.name p.value = joinedKey name value := by
        simpa using List.find?_some hfind
      exact hcond p (List.mem_of_find?_eq_some hfind) name value hkey
    | none =>
      -- No pair of this key, so not this pair either.
      have hnone : (x.postings.find? fun p ↦ p.name = name ∧ p.value = value) = none := by
        rw [List.find?_eq_none]
        intro p hp hpair
        have hpair' : p.name = name ∧ p.value = value := by simpa using hpair
        have hkey := List.find?_eq_none.mp hfind p hp
        rw [hpair'.1, hpair'.2] at hkey
        simp at hkey
      unfold IndexContents.listOf
      rw [hnone]

/-- Two ordinary lists. -/
theorem postings_exact_ordinary :
    let calls : List IndexCall := [.finishSymbols, .finishSeries,
      .addPostings ⟨[97], by decide⟩ ⟨[98], by decide⟩ [1],
      .addPostings ⟨[97], by decide⟩ ⟨[99], by decide⟩ [1, 2]]
    let w₀ : IndexWriter := { buf := putBe32 kMagicIndex ++ [kIndexWriteFormat], stage := .symbols }
    let run := runIndexCalls w₀ none (calls ++ [.close {}])
    ∃ r, IndexReader.openFile run.2.2 = .ok r ∧
      ∀ name value, r.postings name value = .ok ((contents run.1).listOf name value) := by
  intro calls w₀ run
  have hne : run.1 ≠ [] := by decide +kernel
  have hsplit := List.dropLast_append_getLast hne
  have hlast : run.1.getLast?.map IndexStep.answer = some (.ok none) := by decide +kernel
  rw [List.getLast?_eq_some_getLast hne, Option.map_some, Option.some_inj] at hlast
  have hcontents : (contents run.1).postings = [⟨⟨[97], by decide⟩, ⟨[98], by decide⟩, [1]⟩,
      ⟨⟨[97], by decide⟩, ⟨[99], by decide⟩, [1, 2]⟩] := by decide +kernel
  have hdistinct : (contents run.1).Distinct := by
    unfold IndexContents.Distinct
    rw [hcontents]
    simp
  obtain ⟨r, hopen, hiff⟩ :=
    @postings_exact_iff w₀ run.2.1 calls {} run.1.dropLast (run.1.getLast hne) run.2.2 rfl
      (by rw [hsplit]) hlast (by rw [hsplit]; decide +kernel) (by rw [hsplit]; exact hdistinct)
  rw [hsplit] at hiff
  refine ⟨r, hopen, hiff.mpr ?_⟩
  intro p hp name value hkey
  -- Without a zero byte, a key belongs to one pair.
  have hnul : 0 ∉ p.name.bytes ∧ 0 ∉ p.value.bytes := by
    rw [hcontents] at hp
    rcases List.mem_cons.mp hp with rfl | hp
    · simp
    · rw [List.mem_singleton] at hp
      subst hp
      simp
  obtain ⟨rfl, rfl⟩ := joinedKey_eq hnul.1 hnul.2 hkey
  exact (hdistinct.listOf hp).symm

/-! ## Two pairs with one key -/

/-- The calls that write an index of the given posting lists. -/
def postingsCalls (postings : List PostingsWritten) : List IndexCall :=
  [.finishSymbols, .finishSeries] ++
    postings.map (fun p ↦ .addPostings p.name p.value p.seriesIds) ++ [.close {}]

/-- The file behind these calls. -/
def postingsFile (postings : List PostingsWritten) : Option Bytes :=
  match IndexWriter.create none with
  | .ok w => (runIndexCalls w none (postingsCalls postings)).2.2
  | .error _ => none

/-- Of the names `a␀b` and `a`, with the values `c` and `b␀c`, the second finds the list of the
first. -/
theorem postings_joined_collision :
    let postings : List PostingsWritten :=
      [⟨⟨[97, 0, 98], by decide⟩, ⟨[99], by decide⟩, [1]⟩,
        ⟨⟨[97], by decide⟩, ⟨[98, 0, 99], by decide⟩, [2]⟩]
    ∃ r, IndexReader.openFile (postingsFile postings) = .ok r ∧
      r.postings ⟨[97], by decide⟩ ⟨[98, 0, 99], by decide⟩ = .ok [1] ∧
      r.postings ⟨[97], by decide⟩ ⟨[98, 0, 99], by decide⟩ ≠ .ok [2] := by
  intro postings
  have hread : (IndexReader.openFile (postingsFile postings)).map
      (fun r ↦ r.postings ⟨[97], by decide⟩ ⟨[98, 0, 99], by decide⟩) = .ok (.ok [1]) := by
    decide +kernel
  cases hopen : IndexReader.openFile (postingsFile postings) with
  | error e =>
    rw [hopen] at hread
    cases hread
  | ok r =>
    rw [hopen] at hread
    have hlist : r.postings ⟨[97], by decide⟩ ⟨[98, 0, 99], by decide⟩ = .ok [1] :=
      Except.ok.inj hread
    exact ⟨r, rfl, hlist, by rw [hlist]; decide⟩

end MerlionTsdb.Block
