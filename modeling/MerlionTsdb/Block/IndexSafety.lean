import MerlionTsdb.Block.PostingSafety
import MerlionTsdb.Block.SymbolSafety

/-!
# Index files of any bytes

The offsets in the table of contents, those of the posting lists and the lengths of symbols, strings and
series are 64-bit numbers, and only some of them are behind a checksum.  `open` and the queries return just
when none of the sums that they take part in wraps around, and no count asks for more elements than a vector
gets room for.
-/

namespace MerlionTsdb.Block

open Encoding Model

variable {memory : Nat} {bytes payload : Bytes} {s : SymbolArea} {t : IndexSymbolTable} {i j k n : Nat}

/-! ## Series entries -/

/-- `n` labels from `i` to `j`, each a pair of symbols that are there. -/
inductive LabelsAt (s : SymbolArea) (payload : Bytes) : Nat → Nat → Nat → Prop
  | nil {i : Nat} : LabelsAt s payload 0 i i
  | cons {n i a b j : Nat} {name value : UInt64} (hname : UvarintAt payload i name a)
    (hvalue : UvarintAt payload a value b) (hasName : HasSymbol s name.toUInt32)
    (hasValue : HasSymbol s value.toUInt32) (rest : LabelsAt s payload n b j) :
    LabelsAt s payload (n + 1) i j

theorem LabelsAt.unique (h : LabelsAt s payload n i j) (h' : LabelsAt s payload n i k) : j = k := by
  induction h with
  | nil =>
    cases h'
    rfl
  | cons hname hvalue _ _ _ ih =>
    cases h' with
    | cons hname' hvalue' _ _ rest' =>
      have ha := (hname.unique hname').2
      subst ha
      have hb := (hvalue.unique hvalue').2
      subst hb
      exact ih rest'

end MerlionTsdb.Block
