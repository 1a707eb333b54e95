import MerlionTsdb.Lib.LowerBound
import MerlionTsdb.Lib.StableSort
import MerlionTsdb.Model.Matcher

/-!
# Label sets as maps

However a label set is put together, it holds one label for each name that was given, with the last
value given for it.
-/

namespace MerlionTsdb.Model

open StableSort

/-! ## The canonical form -/

/-- The loop that looks one label ahead keeps the last label of each run. -/
theorem lastsFrom_eq_dedupe {first last : Label} (rest : List Label) (h : last.name = first.name) :
    lastsFrom Label.name first last rest = dedupe (last :: rest) := by
  induction rest generalizing first last with
  | nil => rfl
  | cons next rest ih =>
    unfold lastsFrom dedupe
    rw [List.head?_cons, Option.any_some, h]
    by_cases hsame : next.name = first.name
    · rw [if_pos hsame, if_pos (by simpa using hsame.symm)]
      exact ih hsame
    · have hne : ¬ first.name = next.name := fun heq ↦ hsame heq.symm
      rw [if_neg hsame, if_neg (by simpa using hne), ih rfl]

theorem canonicalize_eq (entries : List Label) :
    canonicalize entries = lasts Label.name (stableSort Label.name entries) := by
  unfold canonicalize stableSort
  cases entries.insertionSort fun a b ↦ a.name ≤ b.name with
  | nil => rfl
  | cons first rest => exact (lastsFrom_eq_dedupe rest rfl).symm

theorem canonicalize_append (entries more : List Label) :
    canonicalize (canonicalize entries ++ more) = canonicalize (entries ++ more) := by
  rw [canonicalize_eq, canonicalize_eq, canonicalize_eq, lasts_stableSort_append]

/-- The value of the last pair of a name. -/
def lastValue (pairs : List Label) (name : Str) : Option Str :=
  (pairs.reverse.find? (·.name = name)).map Label.value

theorem lastValue_eq (pairs : List Label) (name : Str) :
    lastValue pairs name = ((pairs.filter (·.name = name)).getLast?).map Label.value := by
  unfold lastValue
  rw [← List.head?_filter, List.filter_reverse, List.head?_reverse]

theorem mem_canonicalize {entries : List Label} {name value : Str} :
    { name := name, value := value } ∈ canonicalize entries ↔ lastValue entries name = some value := by
  have hfilter := @filter_lasts_stableSort _ _ _ Label.name entries name
  rw [← canonicalize_eq] at hfilter
  have hmem : ({ name := name, value := value } : Label) ∈ canonicalize entries ↔
      ({ name := name, value := value } : Label) ∈
        (canonicalize entries).filter (·.name = name) := by
    rw [List.mem_filter, decide_eq_true_iff, and_iff_left rfl]
  -- The sort is stable, so the last of the labels under a name is the last that was given.
  rw [hmem, hfilter, lastValue_eq, Option.mem_toList, Option.map_eq_some_iff]
  constructor
  · intro hlast
    exact ⟨_, hlast, rfl⟩
  · rintro ⟨l, hlast, rfl⟩
    have hname := List.mem_filter.mp (List.mem_of_getLast? hlast)
    rw [hlast, ← of_decide_eq_true hname.2]

namespace Labels

/-! ## Construction -/

/-- `add`; none when `push_back` throws. -/
def add (l : Labels) (name value : Str) : Option Labels :=
  let entries := l.entries ++ [⟨name, value⟩]
  if h : entries.length ≤ kMaxLabels then some (ofList entries h) else none

/-- `add` calls in turn. -/
def addAll (l : Labels) : List Label → Option Labels
  | [] => some l
  | a :: adds => (l.add a.name a.value).bind fun l ↦ l.addAll adds

/-- A constructor call and the `add` calls behind it; none if one throws. -/
def build (entries adds : List Label) : Option Labels :=
  if h : entries.length ≤ kMaxLabels then (ofList entries h).addAll adds else none

theorem add_eq_some {l l' : Labels} {name value : Str} (h : l.add name value = some l') :
    l'.entries = canonicalize (l.entries ++ [⟨name, value⟩]) := by
  unfold add at h
  dsimp only at h
  split at h
  · cases h
    rfl
  · cases h

theorem addAll_eq_some {l l' : Labels} {entries adds : List Label}
    (hl : l.entries = canonicalize entries) (h : l.addAll adds = some l') :
    l'.entries = canonicalize (entries ++ adds) := by
  induction adds generalizing l entries with
  | nil =>
    cases h
    rw [List.append_nil, hl]
  | cons a adds ih =>
    obtain ⟨next, hadd, hrest⟩ := Option.bind_eq_some_iff.mp h
    have hnext := add_eq_some hadd
    rw [hl, canonicalize_append] at hnext
    rw [ih hnext hrest, List.append_assoc]
    rfl

/-- All the pairs given come to one canonical form. -/
theorem build_eq_some {entries adds : List Label} {l : Labels} (h : build entries adds = some l) :
    l.entries = canonicalize (entries ++ adds) := by
  unfold build at h
  split at h
  · exact addAll_eq_some rfl h
  · cases h

theorem addAll_isSome {l : Labels} {adds : List Label}
    (h : l.entries.length + adds.length ≤ kMaxLabels) : (l.addAll adds).isSome := by
  induction adds generalizing l with
  | nil => rfl
  | cons a adds ih =>
    rw [List.length_cons] at h
    have hlen : (l.entries ++ [a]).length = l.entries.length + 1 := List.length_append
    have hfits : (l.entries ++ [a]).length ≤ kMaxLabels := by omega
    have hadd : l.add a.name a.value = some (ofList (l.entries ++ [a]) hfits) := dif_pos hfits
    unfold addAll
    rw [hadd, Option.bind_some]
    apply ih
    have hle := canonicalize_length_le (l.entries ++ [a])
    show (canonicalize _).length + adds.length ≤ kMaxLabels
    omega

/-- No call throws while the pairs fit in a vector. -/
theorem build_isSome {entries adds : List Label} (h : entries.length + adds.length ≤ kMaxLabels) :
    (build entries adds).isSome := by
  unfold build
  rw [dif_pos (by omega)]
  apply addAll_isSome
  have hle := canonicalize_length_le entries
  show (canonicalize entries).length + adds.length ≤ kMaxLabels
  omega

theorem get_build {entries adds : List Label} {l : Labels} (h : build entries adds = some l)
    (name : Str) : l.get name = lastValue (entries ++ adds) name := by
  apply Option.ext
  intro value
  rw [get_eq_some, build_eq_some h, mem_canonicalize]

/-- A label set is the map it defines. -/
theorem eq_of_get {l l' : Labels} (h : ∀ name, l.get name = l'.get name) : l = l' := by
  apply Labels.ext
  apply @eq_of_mem_iff _ _ _ Label.name _ _ l.sorted l'.sorted
  intro e
  exact l.get_eq_some.symm.trans (by rw [h, get_eq_some])

/-! ## The search -/

/-- `get` with the loop of `std::lower_bound`. -/
def search (l : Labels) (name : Str) : Option Str :=
  l.entries[BinarySearch.lowerBound (·.name < name) l.entries]?.bind fun e ↦
    if e.name = name then some e.value else none

/-- On entries in the order of their names the loop finds the first name that is not less. -/
theorem search_eq_get (l : Labels) (name : Str) : l.search name = l.get name := by
  have hsorted : l.entries.Pairwise fun a b ↦
      decide (b.name < name) = true → decide (a.name < name) = true := by
    apply l.sorted.imp
    intro a b hab hb
    rw [decide_eq_true_iff] at hb ⊢
    exact hab.trans hb
  unfold search get
  rw [BinarySearch.getElem?_lowerBound hsorted]
  have hpred : (fun e : Label ↦ !decide (e.name < name)) = fun e ↦ decide (¬ e.name < name) := by
    funext e
    rw [decide_not]
  rw [hpred]
  cases l.entries.find? fun e ↦ decide (¬ e.name < name) <;> rfl

/-! ## What a label set is -/

/-- A constructor call and any `add` calls give entries in strictly ascending order of names, in which
the binary search finds the last value given for a name; and label sets are equal exactly when they
define the same map.  No call throws before the pairs exceed the size of a vector. -/
theorem build_exact :
    (∀ entries adds : List Label, entries.length + adds.length ≤ kMaxLabels →
      (build entries adds).isSome) ∧
    (∀ (entries adds : List Label) (l : Labels), build entries adds = some l →
      (l.entries.Pairwise fun a b ↦ a.name < b.name) ∧
        ∀ name, l.get name = lastValue (entries ++ adds) name ∧ l.search name = l.get name) ∧
    ∀ (entries adds entries' adds' : List Label) (l l' : Labels),
      build entries adds = some l → build entries' adds' = some l' →
      (l = l' ↔
        ∀ name, lastValue (entries ++ adds) name = lastValue (entries' ++ adds') name) := by
  refine ⟨fun _ _ ↦ build_isSome, fun entries adds l h ↦ ⟨l.sorted, fun name ↦ ?_⟩, ?_⟩
  · exact ⟨get_build h name, search_eq_get l name⟩
  · intro entries adds entries' adds' l l' h h'
    constructor
    · rintro rfl name
      rw [← get_build h, ← get_build h']
    · intro hmap
      apply eq_of_get
      intro name
      rw [get_build h, get_build h', hmap]

/-- Two names, one of them given again by an `add`. -/
theorem build_exact_again :
    ∃ l, build [⟨Str.single 98, Str.single 1⟩, ⟨Str.single 97, Str.single 2⟩]
        [⟨Str.single 98, Str.single 3⟩] = some l ∧
      l.get (Str.single 98) = some (Str.single 3) ∧ l.get (Str.single 99) = none := by
  obtain ⟨hsome, hbuilt, -⟩ := build_exact
  obtain ⟨l, hl⟩ := Option.isSome_iff_exists.mp
    (hsome [⟨Str.single 98, Str.single 1⟩, ⟨Str.single 97, Str.single 2⟩]
      [⟨Str.single 98, Str.single 3⟩] (by decide))
  have hget := (hbuilt _ _ l hl).2
  refine ⟨l, hl, ?_, ?_⟩
  · rw [(hget _).1]
    decide
  · rw [(hget _).1]
    decide

end Labels
end MerlionTsdb.Model
