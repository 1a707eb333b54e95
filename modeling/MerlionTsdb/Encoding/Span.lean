import MerlionTsdb.Lib.Str

/-!
# Spans

`std::span`, `std::string` and `size_t`, as the readers of the block files use them.  A slice that
leaves its span and an element past its end are undefined in the source; here they are the failure
`overrun`.
-/

namespace MerlionTsdb.Encoding

/-- The `std::errc` values of the block files; `system` stands for the `errno` of a failed call. -/
inductive Errc
  | fileExists
  | illegalByteSequence
  | invalidArgument
  | ioError
  | noSuchFileOrDirectory
  | notADirectory
  | notSupported
  | operationNotPermitted
  | resultOutOfRange
  | system
  deriving DecidableEq, Repr

/-- How a reader fails: with an error, outside its span, or with an exception out of a container. -/
inductive Failure
  | error (e : Errc)
  | overrun
  | thrown
  deriving DecidableEq, Repr

/-- The call returns a value or an error. -/
def Defined {α : Type} : Except Failure α → Prop
  | .ok _ | .error (.error _) => True
  | .error .overrun | .error .thrown => False

/-- `a + b` on `size_t`. -/
def addSize (a b : Nat) : Nat := (a + b) % 2 ^ 64

/-- `std::dynamic_extent`. -/
def kDynamicExtent : Nat := 2 ^ 64 - 1

/-- `subspan(offset)`. -/
def subspanFrom (bytes : Bytes) (offset : Nat) : Except Failure Bytes :=
  if offset ≤ bytes.length then .ok (bytes.drop offset) else .error .overrun

/-- `subspan(offset, count)`. -/
def subspan (bytes : Bytes) (offset count : Nat) : Except Failure Bytes :=
  -- The largest count asks for everything behind the offset.
  if count = kDynamicExtent then subspanFrom bytes offset
  else if offset ≤ bytes.length ∧ count ≤ bytes.length - offset then
    .ok ((bytes.drop offset).take count)
  else .error .overrun

/-- `bytes[i]`. -/
def elementAt (bytes : Bytes) (i : Nat) : Except Failure UInt8 :=
  match bytes[i]? with
  | some b => .ok b
  | none => .error .overrun

/-- `varint::read_uvarint(bytes.subspan(pos))`: the value and the number of bytes it took. -/
def readUv (bytes : Bytes) (pos : Nat) : Except Failure (UInt64 × Nat) :=
  match subspanFrom bytes pos with
  | .error e => .error e
  | .ok rest =>
    match Varint.readUvarint rest with
    | .error _ => .error (.error .illegalByteSequence)
    | .ok (v, n) => .ok (v, n)

/-- `varint::read_varint(bytes.subspan(pos))`. -/
def readV (bytes : Bytes) (pos : Nat) : Except Failure (Int64 × Nat) :=
  match subspanFrom bytes pos with
  | .error e => .error e
  | .ok rest =>
    match Varint.readVarint rest with
    | .error _ => .error (.error .illegalByteSequence)
    | .ok (v, n) => .ok (v, n)

/-- `std::string_view(bytes.data() + pos, len)`. -/
def viewAt (bytes : Bytes) (pos len : Nat) : Except Failure Bytes :=
  if pos + len ≤ bytes.length then .ok ((bytes.drop pos).take len) else .error .overrun

/-- `std::string(bytes.data() + pos, len)`, which throws when `len` is more than a string holds. -/
def stringAt (bytes : Bytes) (pos len : Nat) : Except Failure Str :=
  if h : len ≤ kMaxSize ∧ pos + len ≤ bytes.length then
    .ok ⟨(bytes.drop pos).take len, (List.length_take_le _ _).trans h.1⟩
  else if kMaxSize < len then .error .thrown
  else .error .overrun

/-- `reserve(n)` of elements of `size` bytes, which throws without room for them. -/
def reserve (memory size n : Nat) : Except Failure Unit :=
  if Reserves memory size n then .ok () else .error .thrown

/-! ## Results -/

@[simp] theorem ok_bind {α β : Type} (a : α) (f : α → Except Failure β) :
    (Except.ok a >>= f) = f a := rfl

@[simp] theorem error_bind {α β : Type} (e : Failure) (f : α → Except Failure β) :
    ((Except.error e : Except Failure α) >>= f) = .error e := rfl

theorem bind_ok {α β : Type} {x : Except Failure α} {f : α → Except Failure β} {b : β}
    (h : (x >>= f) = .ok b) : ∃ a, x = .ok a ∧ f a = .ok b := by
  cases x with
  | error e => cases h
  | ok a => exact ⟨a, rfl, h⟩

@[simp] theorem not_defined_overrun {α : Type} : ¬ Defined (.error .overrun : Except Failure α) := id

@[simp] theorem not_defined_thrown {α : Type} : ¬ Defined (.error .thrown : Except Failure α) := id

theorem reserve_bind {α : Type} {memory size n : Nat} (h : Reserves memory size n)
    (f : Unit → Except Failure α) : (reserve memory size n >>= f) = f () := by
  unfold reserve
  rw [if_pos h, ok_bind]

theorem reserve_bind_ok {α : Type} {memory size n : Nat} {f : Unit → Except Failure α} {a : α} :
    (reserve memory size n >>= f) = .ok a ↔ Reserves memory size n ∧ f () = .ok a := by
  unfold reserve
  by_cases h : Reserves memory size n
  · rw [if_pos h, ok_bind]
    exact (and_iff_right h).symm
  · rw [if_neg h, error_bind]
    exact iff_of_false (fun hno ↦ by cases hno) fun hno ↦ h hno.1

/-- A defined call returns a value or an error code. -/
theorem Defined.cases {α : Type} {x : Except Failure α} (h : Defined x) :
    (∃ a, x = .ok a) ∨ ∃ e, x = .error (.error e) := by
  cases x with
  | ok a => exact .inl ⟨a, rfl⟩
  | error failure =>
    cases failure with
    | error e => exact .inr ⟨e, rfl⟩
    | overrun => exact absurd h not_defined_overrun
    | thrown => exact absurd h not_defined_thrown

/-- Bytes that start with more than nothing at `pos` reach beyond it. -/
theorem lt_length_of_drop {bytes front rest : Bytes} {pos : Nat} (h : bytes.drop pos = front ++ rest)
    (hfront : front ≠ []) : pos < bytes.length := by
  by_contra hle
  rw [List.drop_of_length_le (Nat.le_of_not_lt hle)] at h
  exact hfront (List.append_eq_nil_iff.mp h.symm).1

theorem addSize_of_lt {a b : Nat} (h : a + b < 2 ^ 64) : addSize a b = a + b :=
  Nat.mod_eq_of_lt h

theorem subspanFrom_of_le {bytes : Bytes} {offset : Nat} (h : offset ≤ bytes.length) :
    subspanFrom bytes offset = .ok (bytes.drop offset) :=
  if_pos h

theorem subspan_of_le {bytes : Bytes} {offset count : Nat} (h : offset + count ≤ bytes.length)
    (hcount : count < kDynamicExtent) :
    subspan bytes offset count = .ok ((bytes.drop offset).take count) := by
  unfold subspan
  rw [if_neg (Nat.ne_of_lt hcount), if_pos (by omega)]

/-- The slice behind `pre` and before `post`. -/
theorem subspan_append (pre mid post : Bytes) (hmid : mid.length < kDynamicExtent) :
    subspan (pre ++ (mid ++ post)) pre.length mid.length = .ok mid := by
  rw [subspan_of_le (by simp) hmid, List.drop_left, List.take_left]

theorem elementAt_append (pre : Bytes) (b : UInt8) (post : Bytes) :
    elementAt (pre ++ b :: post) pre.length = .ok b := by
  unfold elementAt
  simp

theorem elementAt_of_lt {bytes : Bytes} {i : Nat} (h : i < bytes.length) :
    elementAt bytes i = .ok bytes[i] := by
  unfold elementAt
  simp [h]

theorem elementAt_of_le {bytes : Bytes} {i : Nat} (h : bytes.length ≤ i) :
    elementAt bytes i = .error .overrun := by
  unfold elementAt
  simp [h]

/-- A value at `pos`, whatever follows it. -/
theorem readUv_of_drop {bytes rest : Bytes} {pos : Nat} {x : UInt64}
    (h : bytes.drop pos = Varint.putUvarint x ++ rest) :
    readUv bytes pos = .ok (x, (Varint.putUvarint x).length) := by
  unfold readUv
  rw [subspanFrom_of_le, h]
  · dsimp only
    rw [Varint.readUvarint_putUvarint]
  · exact Nat.le_of_lt (lt_length_of_drop h (Varint.putUvarint_ne_nil x))

theorem readV_of_drop {bytes rest : Bytes} {pos : Nat} {x : Int64}
    (h : bytes.drop pos = Varint.putVarint x ++ rest) :
    readV bytes pos = .ok (x, (Varint.putVarint x).length) := by
  unfold readV
  rw [subspanFrom_of_le, h]
  · dsimp only
    rw [Varint.readVarint_putVarint]
  · exact Nat.le_of_lt (lt_length_of_drop h (Varint.putUvarint_ne_nil _))

theorem stringAt_of_drop {bytes rest : Bytes} {pos : Nat} {s : Str}
    (h : bytes.drop pos = s.bytes ++ rest) (hpos : pos ≤ bytes.length) :
    stringAt bytes pos s.bytes.length = .ok s := by
  have hlen := congrArg List.length h
  rw [List.length_drop, List.length_append] at hlen
  unfold stringAt
  rw [dif_pos ⟨s.length_le, by omega⟩]
  congr 1
  apply Str.ext
  dsimp only
  rw [h, List.take_left]

theorem readUv_append (pre : Bytes) (x : UInt64) (post : Bytes) :
    readUv (pre ++ (Varint.putUvarint x ++ post)) pre.length =
      .ok (x, (Varint.putUvarint x).length) :=
  readUv_of_drop List.drop_left

end MerlionTsdb.Encoding
