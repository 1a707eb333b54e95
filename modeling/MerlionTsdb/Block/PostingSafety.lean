import MerlionTsdb.Block.PostingLookup
import MerlionTsdb.Block.SectionSafety

/-!
# Postings of any bytes

The strings of the postings offset table have 64-bit lengths, and its entries have 64-bit offsets.  A length
that wraps around makes `std::string` throw, and an offset that does lets the next read start far outside
the file.
-/

namespace MerlionTsdb.Block

open Encoding Model

variable {bytes payload : Bytes} {i j k n : Nat}

/-! ## Entries -/

/-- The string `s` from `i` to `j`, its length in front. -/
def TextAt (payload : Bytes) (i : Nat) (s : Str) (j : Nat) : Prop :=
  ∃ len k, UvarintAt payload i len k ∧ j = k + len.toNat ∧ j ≤ payload.length ∧
    s.bytes = (payload.drop k).take len.toNat

/-- The entry `e` from `i` to `j`. -/
def EntryIs (payload : Bytes) (i : Nat) (e : PostingsOffsetEntry) (j : Nat) : Prop :=
  ∃ a b c, UvarintAt payload i 2 a ∧ TextAt payload a e.name b ∧ TextAt payload b e.value c ∧
    UvarintAt payload c e.offset j

/-- A whole entry from `i` to `j`. -/
def EntryAt (payload : Bytes) (i j : Nat) : Prop :=
  ∃ a b c off, UvarintAt payload i 2 a ∧ StringAt payload a b ∧ StringAt payload b c ∧
    UvarintAt payload c off j

/-- The entry at `i` has a name, or behind a whole name a value, whose length wraps around. -/
def EntrySlips (payload : Bytes) (i : Nat) : Prop :=
  ∃ a, UvarintAt payload i 2 a ∧
    (SlipAt payload a ∨ ∃ b, StringAt payload a b ∧ SlipAt payload b)

/-- One of the `n` entries from `i` on slips; those in front of it are whole. -/
inductive TableSlips (payload : Bytes) : Nat → Nat → Prop
  | here {n i : Nat} (slip : EntrySlips payload i) : TableSlips payload (n + 1) i
  | later {n i j : Nat} (head : EntryAt payload i j) (rest : TableSlips payload n j) :
    TableSlips payload (n + 1) i

theorem TextAt.stringAt {s : Str} (h : TextAt payload i s j) : StringAt payload i j := by
  obtain ⟨len, k, hlen, hj, hle, -⟩ := h
  exact ⟨len, k, hlen, hj, hle⟩

theorem TextAt.unique {s s' : Str} (h : TextAt payload i s j) (h' : TextAt payload i s' k) :
    s = s' ∧ j = k := by
  obtain ⟨len, m, hlen, rfl, -, hs⟩ := h
  obtain ⟨len', m', hlen', rfl, -, hs'⟩ := h'
  obtain ⟨rfl, rfl⟩ := hlen.unique hlen'
  exact ⟨Str.ext (hs.trans hs'.symm), rfl⟩

theorem EntryIs.unique {e e' : PostingsOffsetEntry} (h : EntryIs payload i e j)
    (h' : EntryIs payload i e' k) : e = e' ∧ j = k := by
  obtain ⟨a, b, c, hkey, hname, hvalue, hoff⟩ := h
  obtain ⟨a', b', c', hkey', hname', hvalue', hoff'⟩ := h'
  have ha := (hkey.unique hkey').2
  subst ha
  obtain ⟨hnames, hb⟩ := hname.unique hname'
  subst hb
  obtain ⟨hvalues, hc⟩ := hvalue.unique hvalue'
  subst hc
  obtain ⟨hoffs, hj⟩ := hoff.unique hoff'
  cases e
  cases e'
  dsimp only at hnames hvalues hoffs
  rw [hnames, hvalues, hoffs]
  exact ⟨rfl, hj⟩

theorem EntryAt.unique (h : EntryAt payload i j) (h' : EntryAt payload i k) : j = k := by
  obtain ⟨a, b, c, off, hkey, hname, hvalue, hoff⟩ := h
  obtain ⟨a', b', c', off', hkey', hname', hvalue', hoff'⟩ := h'
  have ha := (hkey.unique hkey').2
  subst ha
  have hb := hname.unique hname'
  subst hb
  have hc := hvalue.unique hvalue'
  subst hc
  exact (hoff.unique hoff').2

theorem EntryAt.not_slips (h : EntryAt payload i j) (hsize : payload.length ≤ kMaxSize) :
    ¬ EntrySlips payload i := by
  obtain ⟨a, b, c, off, hkey, hname, hvalue, hoff⟩ := h
  rintro ⟨a', hkey', hslips⟩
  have ha := (hkey.unique hkey').2
  subst ha
  rcases hslips with hslip | ⟨b', hname', hslip⟩
  · exact hname.not_slipAt hsize hslip
  · have hb := hname.unique hname'
    subst hb
    exact hvalue.not_slipAt hsize hslip

namespace PostingsOffsetTable

/-- The table at `off` can be read: there is room for its entries, and none of them slips. -/
def Sound (memory : Nat) (bytes : Bytes) (off : Nat) : Prop :=
  off < 2 ^ 64 - 4 ∧ ∀ payload, SectionAt bytes off payload → 4 ≤ payload.length →
    Reserves memory 72 (readBe32 payload).toNat ∧ ¬ TableSlips payload (readBe32 payload).toNat 4

variable {memory : Nat}

end PostingsOffsetTable

/-! ## Posting lists -/

end MerlionTsdb.Block
