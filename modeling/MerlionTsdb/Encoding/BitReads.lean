import MerlionTsdb.Encoding.BitStream

/-!
# Reading any bits

Any calls of the bit reader on any bytes, to the first that fails.  The calls are served as from the
plain bit string, except that a read that straddles two loads may find the second one too short: the
source then shifts by a negative amount.
-/

namespace MerlionTsdb.Encoding

open BitString

/-- A call of the reader; `read_bits` asserts that at most 64 bits are asked for. -/
inductive BitCall
  | bit
  | byte
  | bits (n : Nat) (le : n ≤ 64)
  deriving DecidableEq

namespace BitCall

/-- The number of bits a call asks for. -/
def size : BitCall → Nat
  | .bit => 1
  | .byte => 8
  | .bits n _ => n

/-- The answer of the reader, as a number, and the reader behind the call. -/
def perform (r : BitReader) : BitCall → Except Fault UInt64 × BitReader
  | .bit =>
    match r.readBit with
    | (.error e, r) => (.error e, r)
    | (.ok b, r) => (.ok b.toUInt64, r)
  | .byte =>
    match r.readByte with
    | (.error e, r) => (.error e, r)
    | (.ok b, r) => (.ok b.toUInt64, r)
  | .bits n _ => r.readBits n

theorem size_le (c : BitCall) : c.size ≤ 64 := by
  cases c with
  | bit => decide
  | byte => decide
  | bits n le => exact le

end BitCall

namespace BitReader

/-- The bytes that are not loaded yet. -/
def unloaded (r : BitReader) : Nat := r.stream.length - r.streamOffset

/-- A read of `n` bits takes all that is buffered, and the bytes left for the second load are some but
too few. -/
def Starved (r : BitReader) (n : Nat) : Prop :=
  0 < r.valid ∧ 0 < r.unloaded ∧ r.valid + 8 * r.unloaded < n

instance (r : BitReader) (n : Nat) : Decidable (r.Starved n) :=
  inferInstanceAs (Decidable (_ ∧ _ ∧ _))

/-! ## Shift amounts -/

/-- The shift amounts of the slow path of `load_next_buffer`.  Those of the fast path are constants. -/
def loadShifts (r : BitReader) (nbits : Nat) : List Int :=
  if r.stream.length ≤ r.streamOffset ∨ r.streamOffset + 8 < r.stream.length then []
  else
    let nbytes := min (nbits / 8 + 1) r.unloaded
    let skip := if r.streamOffset + nbytes = r.stream.length then 1 else 0
    (List.range (nbytes - skip)).map fun (i : Nat) ↦ 8 * ((nbytes : Int) - (i : Int) - 1)

/-- The shift amounts of `read_bit`; the only one behind the load is the new `valid_`. -/
def bitShifts (r : BitReader) : List Int :=
  match if r.valid = 0 then r.loadNextBuffer 1 else some r with
  | none => []
  | some r' => (if r.valid = 0 then r.loadShifts 1 else []) ++ [(r'.valid : Int) - 1]

/-- The shift amounts of the second half of `read_bits`.  The last is the new `valid_`. -/
def restShifts (r : BitReader) (remaining : Nat) : List Int :=
  match r.loadNextBuffer remaining with
  | none => []
  | some r' => r.loadShifts remaining ++ [(remaining : Int), (r'.valid : Int) - remaining]

/-- The shift amounts of `read_bits`, as integers: a mask, and the new `valid_`, or those of a read that
needs a second load. -/
def bitsShifts (r : BitReader) (nbits : Nat) : List Int :=
  if nbits = 0 then []
  else
    match if r.valid = 0 then r.loadNextBuffer nbits else some r with
    | none => []
    | some r' =>
      (if r.valid = 0 then r.loadShifts nbits else []) ++
        if nbits ≤ r'.valid then
          (if nbits = 64 then [] else [(nbits : Int)]) ++ [(r'.valid : Int) - nbits]
        else
          [(r'.valid : Int), (nbits : Int) - r'.valid] ++
            restShifts { r' with valid := 0 } (nbits - r'.valid)

def shifts (r : BitReader) : BitCall → List Int
  | .bit => r.bitShifts
  | .byte => r.bitsShifts 8
  | .bits n _ => r.bitsShifts n

/-! ## Runs -/

/-- The answers of the calls up to and including the first that fails. -/
def runReads (r : BitReader) : List BitCall → List (Except Fault UInt64)
  | [] => []
  | c :: calls =>
    match c.perform r with
    | (.error e, _) => [.error e]
    | (.ok v, r') => .ok v :: r'.runReads calls

/-- The calls made up to and including the first that fails, each with its reader. -/
def performed (r : BitReader) : List BitCall → List (BitReader × BitCall)
  | [] => []
  | c :: calls =>
    (r, c) ::
      match c.perform r with
      | (.error _, _) => []
      | (.ok _, r') => r'.performed calls

end BitReader

/-- The calls served from the bits `l`: each gets its next bits as a number, most significant first,
if that many are left, and the end of the stream otherwise. -/
def serve (l : List Bool) : List BitCall → List (Except Fault UInt64)
  | [] => []
  | c :: calls =>
    if c.size ≤ l.length then
      .ok (UInt64.ofNat (toNat (l.take c.size))) :: serve (l.drop c.size) calls
    else [.error (.error .endOfStream)]

/-! ## One load -/

namespace BitReader

variable {r r' : BitReader} {n : Nat} {l : List Bool}

theorem Reads.length_eq (h : r.Reads l) : l.length = r.valid + 8 * r.unloaded := by
  have hlen := congrArg List.length h.rem_eq
  unfold rem at hlen
  rw [List.length_append, length_ofNat, length_ofBytes, List.length_drop] at hlen
  exact hlen.symm

theorem loadNextBuffer_of_end (h : r.unloaded = 0) : r.loadNextBuffer n = none := by
  unfold unloaded at h
  unfold loadNextBuffer
  rw [if_pos (by omega)]

/-- A load takes what is asked for, or else all that is left. -/
theorem loadNextBuffer_cases (hn : n ≤ 64) (hmore : 0 < r.unloaded) :
    ∃ r', r.loadNextBuffer n = some r' ∧ 0 < r'.valid ∧ r'.valid ≤ 64 ∧
      (n ≤ 8 * r.unloaded → n ≤ r'.valid) ∧
      (8 * r.unloaded < n → r'.valid = 8 * r.unloaded ∧ r'.unloaded = 0) := by
  unfold unloaded at *
  unfold loadNextBuffer
  rw [if_neg (by omega)]
  split
  · refine ⟨_, rfl, Nat.zero_lt_succ 63, le_rfl, fun _ ↦ hn, fun hshort ↦ ?_⟩
    omega
  · refine ⟨_, rfl, ?_, ?_, ?_, ?_⟩ <;> dsimp only <;> omega

/-- The slow path never has more than eight bytes. -/
theorem loadShifts_range (r : BitReader) (n : Nat) : ∀ a ∈ r.loadShifts n, 0 ≤ a ∧ a < 64 := by
  intro a ha
  unfold loadShifts at ha
  split at ha
  · cases ha
  · rename_i hslow
    dsimp only at ha
    obtain ⟨i, hi, rfl⟩ := List.mem_map.mp ha
    rw [List.mem_range] at hi
    unfold unloaded at *
    omega

/-! ## One call -/

/-- The number that the next `n` bits denote fits in a word. -/
theorem toNat_next {l : List Bool} (hn : n ≤ 64) (hlen : n ≤ l.length) :
    (UInt64.ofNat (toNat (l.take n))).toNat = toNat (l.take n) ∧ toNat (l.take n) < 2 ^ n ∧
      l = ofNat n (toNat (l.take n)) ++ l.drop n := by
  have htake : (l.take n).length = n := List.length_take_of_le hlen
  have hlt := toNat_lt (l.take n)
  rw [htake] at hlt
  have hpow : 2 ^ n ≤ 2 ^ 64 := Nat.pow_le_pow_right (by omega) hn
  refine ⟨?_, hlt, ?_⟩
  · apply UInt64.toNat_ofNat_of_lt'
    rw [UInt64.size]
    omega
  · have hbits := ofNat_toNat (l.take n)
    rw [htake] at hbits
    rw [hbits, List.take_append_drop]

theorem readBits_next (h : r.Reads l) (hn : n ≤ 64) (hlen : n ≤ l.length) :
    ∃ r', r.readBits n = (.ok (UInt64.ofNat (toNat (l.take n))), r') ∧ r'.Reads (l.drop n) := by
  obtain ⟨hword, hlt, hsplit⟩ := toNat_next hn hlen
  rw [hsplit, ← hword] at h
  rw [← hword] at hlt
  exact readBits_reads h hlt hn

/-- Too few bits are left: the end of the stream is reported, unless the second load starves. -/
theorem readBits_short (h : r.Reads l) (hn : n ≤ 64) (hlen : l.length < n) :
    (r.readBits n).1 = .error (if r.Starved n then .undefined else .error .endOfStream) := by
  rw [h.length_eq] at hlen
  have hpos : ¬ n = 0 := by omega
  unfold readBits
  rw [if_neg (Nat.not_lt.mpr hn), if_neg hpos]
  by_cases hempty : r.valid = 0
  · -- Nothing is buffered: the first load takes all there is, and the second finds nothing.
    have hfed : ¬ r.Starved n := fun hstarved ↦ Nat.ne_of_gt hstarved.1 hempty
    rw [if_pos hempty, if_neg hfed]
    by_cases hend : r.unloaded = 0
    · rw [loadNextBuffer_of_end hend]
    · obtain ⟨r', hload, -, -, -, hall⟩ :=
        loadNextBuffer_cases hn (Nat.pos_of_ne_zero hend)
      obtain ⟨hvalid, hend'⟩ := hall (by omega)
      rw [hload]
      dsimp only
      rw [if_neg (by omega)]
      unfold readBitsRest
      rw [@loadNextBuffer_of_end { r' with valid := 0 } _ hend']
  · rw [if_neg hempty]
    dsimp only
    rw [if_neg (by omega)]
    unfold readBitsRest
    by_cases hend : r.unloaded = 0
    · have hfed : ¬ r.Starved n := fun hstarved ↦ Nat.ne_of_gt hstarved.2.1 hend
      rw [if_neg hfed, @loadNextBuffer_of_end { r with valid := 0 } _ hend]
    · -- The second load brings fewer bits than asked for, and the shift is negative.
      have hstarved : r.Starved n := ⟨by omega, by omega, hlen⟩
      obtain ⟨r', hload, -, -, -, hall⟩ :=
        @loadNextBuffer_cases { r with valid := 0 } (n - r.valid) (by omega)
          (Nat.pos_of_ne_zero hend)
      have hshort : 8 * r.unloaded < n - r.valid := by omega
      obtain ⟨hvalid, -⟩ := hall hshort
      have hunloaded : ({ r with valid := 0 } : BitReader).unloaded = r.unloaded := rfl
      rw [hunloaded] at hvalid
      rw [if_pos hstarved, hload]
      dsimp only
      rw [if_pos (by omega)]

theorem readBit_short (h : r.Reads []) : (r.readBit).1 = .error (.error .endOfStream) := by
  have hlen := h.length_eq
  rw [List.length_nil] at hlen
  unfold readBit
  rw [if_pos (by omega), loadNextBuffer_of_end (by omega)]

/-- A call gets its bits if that many are left. -/
theorem perform_next {c : BitCall} (h : r.Reads l) (hlen : c.size ≤ l.length) :
    ∃ r', c.perform r = (.ok (UInt64.ofNat (toNat (l.take c.size))), r') ∧
      r'.Reads (l.drop c.size) := by
  cases c with
  | bit =>
    cases l with
    | nil => cases hlen
    | cons b l =>
      obtain ⟨r', hread, h'⟩ := readBit_reads h
      refine ⟨r', ?_, h'⟩
      unfold BitCall.perform
      rw [hread]
      cases b <;> rfl
  | byte =>
    obtain ⟨r', hread, h'⟩ := readBits_next h (show 8 ≤ 64 by decide) hlen
    obtain ⟨hword, hlt, -⟩ := toNat_next (show 8 ≤ 64 by decide) hlen
    refine ⟨r', ?_, h'⟩
    unfold BitCall.perform readByte
    rw [hread]
    dsimp only
    refine congrArg (fun v ↦ (Except.ok v, r')) ?_
    show (UInt64.ofNat (toNat (l.take 8))).toUInt8.toUInt64 = UInt64.ofNat (toNat (l.take 8))
    rw [← UInt64.toNat_inj, UInt8.toNat_toUInt64, UInt64.toNat_toUInt8, hword]
    exact Nat.mod_eq_of_lt hlt
  | bits n le => exact readBits_next h le hlen

/-- With fewer bits left a call reports the end of the stream, unless its second load starves. -/
theorem perform_short {c : BitCall} (h : r.Reads l) (hlen : l.length < c.size) :
    (c.perform r).1 = .error (if r.Starved c.size then .undefined else .error .endOfStream) := by
  cases c with
  | bit =>
    have hnil : l = [] := List.length_eq_zero_iff.mp (Nat.lt_one_iff.mp hlen)
    rw [hnil] at h
    have hlen' := h.length_eq
    rw [List.length_nil] at hlen'
    have hread := readBit_short h
    have hfed : ¬ r.Starved BitCall.bit.size := fun hstarved ↦ by
      have hvalid := hstarved.1
      omega
    rw [if_neg hfed]
    unfold BitCall.perform
    rcases hbit : r.readBit with ⟨e | b, r'⟩
    · rw [hbit] at hread
      dsimp only at hread ⊢
      cases hread
      rfl
    · rw [hbit] at hread
      cases hread
  | byte =>
    have hread := readBits_short h (show 8 ≤ 64 by decide) hlen
    unfold BitCall.perform readByte
    rcases hbits : r.readBits 8 with ⟨e | v, r'⟩
    · rw [hbits] at hread
      exact hread
    · rw [hbits] at hread
      cases hread
  | bits n le => exact readBits_short h le hlen

/-! ## What a read that succeeds has read -/

theorem readBit_ok {b : Bool} (h : r.Reads l) (hok : r.readBit = (.ok b, r')) :
    ∃ rest, l = b :: rest ∧ r'.Reads rest := by
  cases l with
  | nil =>
    have hshort := readBit_short h
    rw [hok] at hshort
    cases hshort
  | cons b' rest =>
    obtain ⟨r₁, hread, h₁⟩ := readBit_reads h
    rw [hok, Prod.mk.injEq, Except.ok.injEq] at hread
    obtain ⟨rfl, rfl⟩ := hread
    exact ⟨rest, rfl, h₁⟩

theorem readBits_ok {v : UInt64} (h : r.Reads l) (hn : n ≤ 64) (hok : r.readBits n = (.ok v, r')) :
    ∃ rest, l = ofNat n v.toNat ++ rest ∧ v.toNat < 2 ^ n ∧ r'.Reads rest := by
  by_cases hlen : n ≤ l.length
  · obtain ⟨r₁, hread, h₁⟩ := readBits_next h hn hlen
    obtain ⟨hword, hlt, hsplit⟩ := toNat_next hn hlen
    rw [hok, Prod.mk.injEq, Except.ok.injEq] at hread
    obtain ⟨rfl, rfl⟩ := hread
    rw [hword]
    exact ⟨l.drop n, hsplit, hlt, h₁⟩
  · have hshort := readBits_short h hn (Nat.lt_of_not_le hlen)
    rw [hok] at hshort
    cases hshort

theorem readByte_ok {b : UInt8} (h : r.Reads l) (hok : r.readByte = (.ok b, r')) :
    ∃ rest, r'.Reads rest := by
  unfold readByte at hok
  rcases hbits : r.readBits 8 with ⟨e | v, r₁⟩
  · rw [hbits] at hok
    cases hok
  · rw [hbits] at hok
    cases hok
    obtain ⟨rest, -, -, h₁⟩ := readBits_ok h (by decide) hbits
    exact ⟨rest, h₁⟩

theorem readUvarintLoop_ok {fuel s : Nat} {x v : UInt64} (h : r.Reads l)
    (hok : r.readUvarintLoop x s fuel = (.ok v, r')) : ∃ rest, r'.Reads rest := by
  induction fuel generalizing r l x s with
  | zero => cases hok
  | succ fuel ih =>
    unfold readUvarintLoop at hok
    rcases hbyte : r.readByte with ⟨e | b, r₁⟩
    · rw [hbyte] at hok
      cases hok
    · obtain ⟨rest, h₁⟩ := readByte_ok h hbyte
      rw [hbyte] at hok
      dsimp only at hok
      split at hok
      · split at hok
        · cases hok
        · cases hok
          exact ⟨rest, h₁⟩
      · exact ih h₁ hok

theorem readUvarint_ok {v : UInt64} (h : r.Reads l) (hok : r.readUvarint = (.ok v, r')) :
    ∃ rest, r'.Reads rest :=
  readUvarintLoop_ok h hok

theorem readVarint_ok {v : Int64} (h : r.Reads l) (hok : r.readVarint = (.ok v, r')) :
    ∃ rest, r'.Reads rest := by
  unfold readVarint at hok
  rcases hread : r.readUvarint with ⟨e | x, r₁⟩
  · rw [hread] at hok
    cases hok
  · rw [hread] at hok
    cases hok
    exact readUvarint_ok h hread

/-! ## Shift amounts of one call -/

theorem bitShifts_range (h : r.Reads l) : ∀ a ∈ r.bitShifts, 0 ≤ a ∧ a < 64 := by
  intro a ha
  have hvalid := h.valid_le
  unfold bitShifts at ha
  by_cases hempty : r.valid = 0
  · rw [if_pos hempty, if_pos hempty] at ha
    by_cases hend : r.unloaded = 0
    · rw [loadNextBuffer_of_end hend] at ha
      cases ha
    · obtain ⟨r', hload, hpos, hle, -, -⟩ :=
        loadNextBuffer_cases (show 1 ≤ 64 by decide) (Nat.pos_of_ne_zero hend)
      rw [hload] at ha
      rcases List.mem_append.mp ha with ha | ha
      · exact r.loadShifts_range 1 a ha
      · rw [List.mem_singleton.mp ha]
        omega
  · rw [if_neg hempty, if_neg hempty] at ha
    rw [List.mem_singleton.mp ha]
    omega

/-- Behind a second load that does not starve, the amounts are in range. -/
theorem restShifts_range {remaining : Nat} (hpos : 0 < remaining) (hle : remaining < 64)
    (hfed : r.unloaded = 0 ∨ remaining ≤ 8 * r.unloaded) :
    ∀ a ∈ r.restShifts remaining, 0 ≤ a ∧ a < 64 := by
  intro a ha
  unfold restShifts at ha
  by_cases hend : r.unloaded = 0
  · rw [loadNextBuffer_of_end hend] at ha
    cases ha
  · obtain ⟨r', hload, -, hle', hfull, -⟩ :=
      @loadNextBuffer_cases r remaining (by omega) (Nat.pos_of_ne_zero hend)
    have hfull' := hfull (by omega)
    rw [hload] at ha
    rcases List.mem_append.mp ha with ha | ha
    · exact r.loadShifts_range remaining a ha
    · simp only [List.mem_cons, List.not_mem_nil, or_false] at ha
      omega

theorem bitsShifts_range (h : r.Reads l) (hn : n ≤ 64) (hstarved : ¬ r.Starved n) :
    ∀ a ∈ r.bitsShifts n, 0 ≤ a ∧ a < 64 := by
  -- What is behind the first load, if there is one.
  have hbehind : ∀ r' : BitReader, 0 < n → 0 < r'.valid → r'.valid ≤ 64 →
      (r'.valid < n → r'.unloaded = 0 ∨ n - r'.valid ≤ 8 * r'.unloaded) →
      ∀ a ∈ (if n ≤ r'.valid then (if n = 64 then [] else [(n : Int)]) ++ [(r'.valid : Int) - n]
        else [(r'.valid : Int), (n : Int) - r'.valid] ++
          restShifts { r' with valid := 0 } (n - r'.valid)), 0 ≤ a ∧ a < 64 := by
    intro r' hpos hpos' hle' hfed a ha
    split at ha
    · rcases List.mem_append.mp ha with ha | ha
      · split at ha
        · cases ha
        · rw [List.mem_singleton.mp ha]
          omega
      · rw [List.mem_singleton.mp ha]
        omega
    · rename_i hshort
      rcases List.mem_append.mp ha with ha | ha
      · simp only [List.mem_cons, List.not_mem_nil, or_false] at ha
        omega
      · exact @restShifts_range { r' with valid := 0 } _ (by omega) (by omega) (hfed (by omega)) a ha
  intro a ha
  have hvalid := h.valid_le
  unfold bitsShifts at ha
  split at ha
  · cases ha
  rename_i hpos
  by_cases hempty : r.valid = 0
  · rw [if_pos hempty, if_pos hempty] at ha
    by_cases hend : r.unloaded = 0
    · rw [loadNextBuffer_of_end hend] at ha
      cases ha
    · obtain ⟨r', hload, hpos', hle', hfull, hall⟩ :=
        loadNextBuffer_cases hn (Nat.pos_of_ne_zero hend)
      rw [hload] at ha
      rcases List.mem_append.mp ha with ha | ha
      · exact r.loadShifts_range n a ha
      · apply hbehind r' (by omega) hpos' hle' _ a ha
        intro hshort
        -- A short first load is the last.
        exact .inl (hall (by omega)).2
  · rw [if_neg hempty, if_neg hempty] at ha
    dsimp only at ha
    rw [List.nil_append] at ha
    apply hbehind r (by omega) (by omega) hvalid _ a ha
    intro hshort
    unfold Starved at hstarved
    omega

theorem shifts_range {c : BitCall} (h : r.Reads l) (hstarved : ¬ r.Starved c.size) :
    ∀ a ∈ r.shifts c, 0 ≤ a ∧ a < 64 := by
  cases c with
  | bit => exact bitShifts_range h
  | byte => exact bitsShifts_range h (by decide) hstarved
  | bits n le => exact bitsShifts_range h le hstarved

/-! ## Any run -/

theorem Starved.length_lt (h : r.Reads l) (hstarved : r.Starved n) : l.length < n := by
  rw [h.length_eq]
  exact hstarved.2.2

/-- A run is served as from the bits left, with every shift in range, unless a call starves. -/
theorem Reads.serves_iff (h : r.Reads l) (calls : List BitCall) :
    (r.runReads calls = serve l calls ∧
        ∀ s ∈ r.performed calls, ∀ a ∈ s.1.shifts s.2, 0 ≤ a ∧ a < 64) ↔
      ∀ s ∈ r.performed calls, ¬ s.1.Starved s.2.size := by
  induction calls generalizing r l with
  | nil => exact iff_of_true ⟨rfl, fun s hs ↦ by cases hs⟩ fun s hs ↦ by cases hs
  | cons c calls ih =>
    unfold runReads performed serve
    by_cases hlen : c.size ≤ l.length
    · obtain ⟨r', hcall, h'⟩ := perform_next h hlen
      have hfed : ¬ r.Starved c.size := fun hstarved ↦ by
        have hlt := hstarved.length_lt h
        omega
      have hrange := shifts_range h hfed
      rw [hcall, if_pos hlen]
      dsimp only
      rw [List.forall_mem_cons, List.forall_mem_cons, List.cons.injEq, ← ih h']
      simp only [hfed, not_false_eq_true, true_and]
      exact ⟨fun hall ↦ ⟨hall.1, hall.2.2⟩, fun hall ↦ ⟨hall.1, hrange, hall.2⟩⟩
    · -- The run ends here: with the end of the stream, or undefined if the second load starves.
      have hshort := perform_short h (Nat.lt_of_not_le hlen)
      rcases hcall : c.perform r with ⟨e | v, r'⟩
      · rw [hcall] at hshort
        rw [if_neg hlen]
        dsimp only at hshort ⊢
        rw [List.forall_mem_singleton, List.forall_mem_singleton]
        constructor
        · rintro ⟨hanswer, -⟩ hstarved
          rw [if_pos hstarved] at hshort
          rw [hshort] at hanswer
          cases hanswer
        · intro hfed
          rw [if_neg hfed] at hshort
          rw [hshort]
          exact ⟨rfl, shifts_range h hfed⟩
      · rw [hcall] at hshort
        cases hshort

/-- Any calls on any bytes, up to the first that fails: each gets exactly the next bits it asks for
when that many are left and the end of the stream otherwise, with every shift amount and the new
`valid_` in range, if and only if no call starves. -/
theorem runReads_iff (bytes : Bytes) (calls : List BitCall) :
    ((new bytes).runReads calls = serve (ofBytes bytes) calls ∧
        ∀ s ∈ (new bytes).performed calls, ∀ a ∈ s.1.shifts s.2, 0 ≤ a ∧ a < 64) ↔
      ∀ s ∈ (new bytes).performed calls, ¬ s.1.Starved s.2.size :=
  (reads_new bytes).serves_iff calls

/-- Two bytes, one bit read, and then 64: seven bits are buffered and eight are left, 49 too few. -/
theorem runReads_starved :
    let calls := [BitCall.bit, .bits 64 le_rfl]
    (new [0, 0]).runReads calls = [.ok 0, .error .undefined] ∧
      serve (ofBytes [0, 0]) calls = [.ok 0, .error (.error .endOfStream)] ∧
      ∃ s ∈ (new [0, 0]).performed calls, -49 ∈ s.1.shifts s.2 := by
  refine ⟨by decide, by decide, ?_⟩
  exact ⟨({ stream := [0, 0], streamOffset := 1, valid := 7 }, .bits 64 le_rfl), by decide, by decide⟩

end BitReader
end MerlionTsdb.Encoding
