import MerlionTsdb.Encoding.BitReads

/-!
# Runs of a writer and of a reader

Any calls of the bit writer on a byte-aligned buffer, and any calls of the bit reader on the bytes
they append.  Both runs are related to one bit string, so the widths of the reads need not be those
of the writes.
-/

namespace MerlionTsdb.Encoding

open BitString

/-- A call of the writer; `write_bits` asserts that at most 64 bits are given. -/
inductive WriteCall
  | bit (b : Bool)
  | byte (byt : UInt8)
  | bits (u : UInt64) (n : Nat) (le : n ≤ 64)

namespace WriteCall

/-- The bits a call writes, most significant first. -/
def written : WriteCall → List Bool
  | .bit b => [b]
  | .byte byt => ofNat 8 byt.toNat
  | .bits u n _ => ofNat n u.toNat

def perform (w : BitWriter) : WriteCall → BitWriter
  | .bit b => w.writeBit b
  | .byte byt => w.writeByte byt
  | .bits u n _ => w.writeBits u n

end WriteCall

namespace BitWriter

/-- The calls made in turn. -/
def runWrites (w : BitWriter) (calls : List WriteCall) : BitWriter :=
  calls.foldl WriteCall.perform w

/-- The bytes that calls append to the buffer a writer starts from. -/
def appended (buf : Bytes) (calls : List WriteCall) : Bytes :=
  (runWrites { stream := buf } calls).stream.drop buf.length

theorem Holds.perform {w : BitWriter} {l : List Bool} (h : w.Holds l) (c : WriteCall) :
    (c.perform w).Holds (l ++ c.written) := by
  cases c with
  | bit b => exact h.writeBit b
  | byte byt => exact h.writeByte byt
  | bits u n le => exact h.writeBits u le

theorem Holds.runWrites {w : BitWriter} {l : List Bool} (h : w.Holds l) (calls : List WriteCall) :
    (w.runWrites calls).Holds (l ++ calls.flatMap WriteCall.written) := by
  induction calls generalizing w l with
  | nil =>
    rw [List.flatMap_nil, List.append_nil]
    exact h
  | cons c calls ih =>
    rw [List.flatMap_cons, ← List.append_assoc]
    exact ih (h.perform c)

/-- The buffer stays in front, and the bits written follow it, filled up to a whole byte. -/
theorem ofBytes_appended (buf : Bytes) (calls : List WriteCall) :
    (runWrites { stream := buf } calls).stream = buf ++ appended buf calls ∧
      ∃ pad < 8, ofBytes (appended buf calls) =
        calls.flatMap WriteCall.written ++ List.replicate pad false := by
  have hstart : ({ stream := buf } : BitWriter).Holds (ofBytes buf) :=
    holds_reset { stream := buf } buf
  obtain ⟨hcount, hbits⟩ := hstart.runWrites calls
  rw [List.append_assoc] at hbits
  obtain ⟨tail, hstream, htail⟩ := split_of_ofBytes_eq hbits
  have happended : appended buf calls = tail := by
    unfold appended
    rw [hstream, List.drop_left]
  rw [happended]
  exact ⟨hstream, _, hcount, htail⟩

end BitWriter

/-- A bit string cut at the widths of the calls. -/
def pieces : List Bool → List BitCall → List (List Bool)
  | _, [] => []
  | l, c :: calls => l.take c.size :: pieces (l.drop c.size) calls

theorem flatten_pieces {l : List Bool} {calls : List BitCall}
    (h : (calls.map BitCall.size).sum = l.length) : (pieces l calls).flatten = l := by
  induction calls generalizing l with
  | nil =>
    symm
    exact List.length_eq_zero_iff.mp h.symm
  | cons c calls ih =>
    rw [List.map_cons, List.sum_cons] at h
    unfold pieces
    rw [List.flatten_cons, ih, List.take_append_drop]
    rw [List.length_drop]
    omega

theorem length_pieces {l : List Bool} {calls : List BitCall}
    (h : (calls.map BitCall.size).sum = l.length) :
    (pieces l calls).map List.length = calls.map BitCall.size := by
  induction calls generalizing l with
  | nil => rfl
  | cons c calls ih =>
    rw [List.map_cons, List.sum_cons] at h
    unfold pieces
    rw [List.map_cons, List.map_cons, List.length_take, ih, Nat.min_eq_left (by omega)]
    rw [List.length_drop]
    omega

namespace BitReader

/-- The reader behind some calls. -/
def after (r : BitReader) (calls : List BitCall) : BitReader :=
  calls.foldl (fun r c ↦ (c.perform r).2) r

/-- Calls for no more bits than are left each get their piece, as a number. -/
theorem Reads.runReads {r : BitReader} {l rest : List Bool} {calls : List BitCall}
    (h : r.Reads (l ++ rest)) (hsize : (calls.map BitCall.size).sum = l.length) :
    r.runReads calls = (pieces l calls).map (fun p ↦ .ok (UInt64.ofNat (toNat p))) ∧
      (r.after calls).Reads rest := by
  induction calls generalizing r l with
  | nil =>
    have hnil : l = [] := List.length_eq_zero_iff.mp hsize.symm
    rw [hnil] at h
    exact ⟨rfl, h⟩
  | cons c calls ih =>
    rw [List.map_cons, List.sum_cons] at hsize
    have hfits : c.size ≤ l.length := by omega
    -- The call takes its piece, and leaves the reader in front of the next.
    obtain ⟨r', hcall, h'⟩ := perform_next h (hfits.trans (by rw [List.length_append]; omega))
    rw [List.take_append_of_le_length hfits] at hcall
    rw [List.drop_append_of_le_length hfits] at h'
    have hrest : (calls.map BitCall.size).sum = (l.drop c.size).length := by
      rw [List.length_drop]
      omega
    obtain ⟨hrun, hafter⟩ := ih h' hrest
    unfold BitReader.runReads pieces after
    rw [hcall, List.foldl_cons, hcall, List.map_cons]
    dsimp only
    rw [hrun]
    exact ⟨rfl, hafter⟩

/-- The number of a piece fits in a word. -/
theorem toNat_piece {p : List Bool} (h : p.length ≤ 64) :
    (UInt64.ofNat (toNat p)).toNat = toNat p := by
  have hnext := (toNat_next h le_rfl).1
  rw [List.take_length] at hnext
  exact hnext

theorem length_le_of_mem_pieces {l p : List Bool} {calls : List BitCall}
    (h : p ∈ pieces l calls) : p.length ≤ 64 := by
  induction calls generalizing l with
  | nil => cases h
  | cons c calls ih =>
    rcases List.mem_cons.mp h with hp | hp
    · rw [hp, List.length_take]
      exact (Nat.min_le_left _ _).trans c.size_le
    · exact ih hp

end BitReader

/-- Any calls of the writer on a byte-aligned buffer append their bits, filled up with zeros to a whole
byte; and however those bits are cut into calls of the reader, each call returns the number of its
piece. -/
theorem writes_read_back (buf : Bytes) (calls : List WriteCall) :
    (BitWriter.runWrites { stream := buf } calls).stream = buf ++ BitWriter.appended buf calls ∧
      (∃ pad < 8, ofBytes (BitWriter.appended buf calls) =
        calls.flatMap WriteCall.written ++ List.replicate pad false) ∧
      ∀ reads : List BitCall,
        (reads.map BitCall.size).sum = (calls.flatMap WriteCall.written).length →
        (pieces (calls.flatMap WriteCall.written) reads).flatten =
            calls.flatMap WriteCall.written ∧
          (pieces (calls.flatMap WriteCall.written) reads).map List.length =
            reads.map BitCall.size ∧
          ∃ answers : List UInt64,
            (BitReader.new (BitWriter.appended buf calls)).runReads reads = answers.map .ok ∧
            answers.map UInt64.toNat =
              (pieces (calls.flatMap WriteCall.written) reads).map toNat := by
  obtain ⟨hstream, pad, hpad, hbits⟩ := BitWriter.ofBytes_appended buf calls
  refine ⟨hstream, ⟨pad, hpad, hbits⟩, fun reads hsize ↦ ?_⟩
  refine ⟨flatten_pieces hsize, length_pieces hsize, ?_⟩
  have hreads := BitReader.reads_new (BitWriter.appended buf calls)
  rw [hbits] at hreads
  refine ⟨(pieces (calls.flatMap WriteCall.written) reads).map fun p ↦ UInt64.ofNat (toNat p), ?_, ?_⟩
  · rw [(hreads.runReads hsize).1, List.map_map]
    rfl
  · rw [List.map_map]
    apply List.map_congr_left
    intro p hp
    exact BitReader.toNat_piece (BitReader.length_le_of_mem_pieces hp)

/-- Three bits, a byte and a bit behind one byte, read as four bits and eight. -/
theorem writes_read_back_straddling :
    let calls := [WriteCall.bits 0xFD 3 (by decide), .byte 0xC3, .bit true]
    ofBytes (BitWriter.appended [7] calls) =
        [true, false, true, true, true, false, false, false, false, true, true, true] ++
          List.replicate 4 false ∧
      ∃ answers : List UInt64,
        (BitReader.new (BitWriter.appended [7] calls)).runReads
            [.bits 4 (by decide), .bits 8 (by decide)] = answers.map .ok ∧
          answers.map UInt64.toNat = [11, 135] := by
  have hread := (writes_read_back [7] [.bits 0xFD 3 (by decide), .byte 0xC3, .bit true]).2.2
    [.bits 4 (by decide), .bits 8 (by decide)] (by decide)
  exact ⟨by decide, hread.2.2⟩

end MerlionTsdb.Encoding
