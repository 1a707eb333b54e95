import MerlionTsdb.Encoding.Span
import MerlionTsdb.Model.Labels

/-!
# Matchers

`matcher.hpp` / `matcher.cpp`: predicates on the value of one label.  A compiled regex is any predicate
on strings.
-/

namespace MerlionTsdb.Model

open Encoding

/-- `MatchType`. -/
inductive MatchType
  | eq
  | neq
  | re
  | nre
  deriving DecidableEq, Repr

/-- `Matcher`.  The factories compile a regex for the two types that need one, and for no other. -/
structure Matcher where
  type : MatchType
  name : Str
  value : Str
  compiled : Option (Str → Bool) := none
  compiled_iff : compiled.isSome = true ↔ type = .re ∨ type = .nre

namespace Matcher

def equal (name value : Str) : Matcher where
  type := .eq
  name := name
  value := value
  compiled_iff := by simp

def notEqual (name value : Str) : Matcher where
  type := .neq
  name := name
  value := value
  compiled_iff := by simp

-- `compile` stands for `std::regex`: the predicate of an anchored pattern, if it is one.
variable (compile : Str → Option (Str → Bool))

def regex (name pattern : Str) : Except Errc Matcher :=
  match compile pattern with
  | none => .error .invalidArgument
  | some re => .ok
    { type := .re, name := name, value := pattern, compiled := some re, compiled_iff := by simp }

def notRegex (name pattern : Str) : Except Errc Matcher :=
  match compile pattern with
  | none => .error .invalidArgument
  | some re => .ok
    { type := .nre, name := name, value := pattern, compiled := some re, compiled_iff := by simp }

/-- `regex_matches`: the pattern alone, without the polarity. -/
def regexMatches (m : Matcher) (labelValue : Str) : Bool :=
  match m.compiled with
  | none => false
  | some re => re labelValue

/-- `matches`. -/
def accepts (m : Matcher) (labelValue : Str) : Bool :=
  match m.type with
  | .eq => labelValue = m.value
  | .neq => labelValue ≠ m.value
  | .re => m.compiled.isSome && m.regexMatches labelValue
  | .nre => m.compiled.isSome && !m.regexMatches labelValue

/-- The two regex types are each other's complement. -/
theorem accepts_re {m : Matcher} (h : m.type = .re) (v : Str) : m.accepts v = m.regexMatches v := by
  have hsome := m.compiled_iff.mpr (Or.inl h)
  unfold accepts
  rw [h]
  simp [hsome]

theorem accepts_nre {m : Matcher} (h : m.type = .nre) (v : Str) :
    m.accepts v = !m.regexMatches v := by
  have hsome := m.compiled_iff.mpr (Or.inr h)
  unfold accepts
  rw [h]
  simp [hsome]

theorem accepts_eq {m : Matcher} (h : m.type = .eq) (v : Str) : m.accepts v = decide (v = m.value) := by
  unfold accepts
  rw [h]

theorem accepts_neq {m : Matcher} (h : m.type = .neq) (v : Str) :
    m.accepts v = decide (v ≠ m.value) := by
  unfold accepts
  rw [h]

end Matcher

/-! ## Labels under matchers -/

namespace Labels

/-- The binary search finds the label of the name. -/
theorem get_eq_some (l : Labels) {name value : Str} :
    l.get name = some value ↔ { name := name, value := value } ∈ l.entries := by
  unfold get
  have hsorted := l.sorted
  generalize l.entries = entries at hsorted ⊢
  induction entries with
  | nil => simp
  | cons e entries ih =>
    obtain ⟨hfirst, hrest⟩ := List.pairwise_cons.mp hsorted
    by_cases hlt : e.name < name
    · -- The search goes on behind a smaller name.
      have hne : ({ name := name, value := value } : Label) ≠ e := by
        rintro rfl
        exact lt_irrefl _ hlt
      rw [List.find?_cons_of_neg (by simpa using hlt), List.mem_cons]
      exact (ih hrest).trans (by simp [hne])
    · rw [List.find?_cons_of_pos (by simpa using hlt)]
      dsimp only
      by_cases hname : e.name = name
      · rw [if_pos hname, Option.some_inj, List.mem_cons]
        constructor
        · rintro rfl
          rw [← hname]
          exact Or.inl rfl
        · rintro (rfl | hmem)
          · rfl
          · have := hfirst _ hmem
            rw [hname] at this
            exact absurd this (lt_irrefl _)
      · rw [if_neg hname, List.mem_cons]
        constructor
        · intro h
          cases h
        · rintro (rfl | hmem)
          · exact absurd rfl hname
          · have hbehind := hfirst _ hmem
            exact absurd hbehind hlt

/-- The value a matcher sees: an absent label has the empty one. -/
def valueOf (l : Labels) (name : Str) : Str := (l.get name).getD Str.empty

end Labels

/-- `labels_match_all`. -/
def labelsMatchAll (labels : Labels) (matchers : List Matcher) : Bool :=
  matchers.all fun m ↦ m.accepts (labels.valueOf m.name)

end MerlionTsdb.Model
