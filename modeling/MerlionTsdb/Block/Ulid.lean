import MerlionTsdb.Lib.Positional
import MerlionTsdb.Lib.Str
import Mathlib.Tactic.IntervalCases

/-!
# ULIDs

`ulid.hpp` / `ulid.cpp`: the names of block directories.  Two zero bits and the 128 bits of a ULID are
written as 26 characters of five bits each, so the names stand in the order of the bytes, and those
start with the time.
-/

namespace MerlionTsdb.Block

open BitString Positional

def kUlidByteSize : Nat := 16

def kUlidCharSize : Nat := 26

/-- Crockford base32 alphabet. -/
def kCrockfordAlphabet : Bytes :=
  "0123456789ABCDEFGHJKMNPQRSTVWXYZ".toList.map fun c ↦ UInt8.ofNat c.toNat

/-- `std::array<std::uint8_t, k_ulid_byte_size>`. -/
abbrev UlidBytes := Vector UInt8 kUlidByteSize

/-- Bit `virtualPos` of the stream, whose first two bits are synthetic zeros. -/
def bitAt (bytes : UlidBytes) (virtualPos : Nat) : UInt8 :=
  if virtualPos < 2 then 0
  else
    let realPos := virtualPos - 2
    (bytes.toList.getD (realPos / 8) 0 >>> UInt8.ofNat (7 - realPos % 8)) &&& 1

/-- The five bits of character `c`. -/
def charValue (bytes : UlidBytes) (c : Nat) : UInt8 :=
  (List.range 5).foldl (fun v b ↦ (v <<< 1) ||| bitAt bytes (c * 5 + b)) 0

/-- The characters `encode_ulid` writes. -/
def ulidChars (bytes : UlidBytes) : Bytes :=
  (List.range kUlidCharSize).map fun c ↦ kCrockfordAlphabet.getD (charValue bytes c).toNat 0

theorem length_ulidChars (bytes : UlidBytes) : (ulidChars bytes).length = kUlidCharSize := by
  unfold ulidChars
  rw [List.length_map, List.length_range]

def encodeUlid (bytes : UlidBytes) : Str where
  bytes := ulidChars bytes
  length_le := by
    rw [length_ulidChars]
    decide

/-- The 48 bits of the time that a ULID keeps. -/
def ulidTime (nowMs : Int64) : UInt64 :=
  nowMs.toUInt64 &&& 0x0000FFFFFFFFFFFF

/-- The bytes `new_ulid` encodes: the time, and three answers of the random device, low byte first, of
which the last is cut short. -/
def ulidBytes (nowMs : Int64) (r₀ r₁ r₂ : UInt32) : UlidBytes :=
  let ts := ulidTime nowMs
  #v[(ts >>> 40).toUInt8, (ts >>> 32).toUInt8, (ts >>> 24).toUInt8, (ts >>> 16).toUInt8,
    (ts >>> 8).toUInt8, ts.toUInt8,
    r₀.toUInt8, (r₀ >>> 8).toUInt8, (r₀ >>> 16).toUInt8, (r₀ >>> 24).toUInt8,
    r₁.toUInt8, (r₁ >>> 8).toUInt8, (r₁ >>> 16).toUInt8, (r₁ >>> 24).toUInt8,
    r₂.toUInt8, (r₂ >>> 8).toUInt8]

/-- `new_ulid`, from the clock and the random device. -/
def newUlid (nowMs : Int64) (r₀ r₁ r₂ : UInt32) : Str :=
  encodeUlid (ulidBytes nowMs r₀ r₁ r₂)

/-! ## The stream -/

/-- The 130 bits that are cut into characters. -/
def ulidStream (bytes : UlidBytes) : List Bool :=
  false :: false :: ofBytes bytes.toList

theorem length_ulidStream (bytes : UlidBytes) : (ulidStream bytes).length = 5 * kUlidCharSize := by
  unfold ulidStream
  rw [List.length_cons, List.length_cons, length_ofBytes, Vector.length_toList]
  rfl

theorem toNat_ofBytes (bs : Bytes) : toNat (ofBytes bs) = beNat bs := by
  rw [← ofNat_beNat, toNat_ofNat_of_lt (beNat_lt bs)]

theorem toNat_ulidStream (bytes : UlidBytes) : toNat (ulidStream bytes) = beNat bytes.toList := by
  rw [← toNat_ofBytes]
  simp [ulidStream, BitString.toNat]

theorem getElem?_ofNat {n i : Nat} (v : Nat) (hi : i < n) :
    (ofNat n v)[i]? = some (v.testBit (n - 1 - i)) := by
  induction n generalizing i with
  | zero => cases hi
  | succ n ih =>
    cases i with
    | zero => rfl
    | succ i =>
      rw [ofNat, List.getElem?_cons_succ, ih (Nat.lt_of_succ_lt_succ hi)]
      congr 2
      omega

theorem getElem?_ofBytes {bs : Bytes} {i : Nat} (hi : i < 8 * bs.length) :
    (ofBytes bs)[i]? = some ((bs.getD (i / 8) 0).toNat.testBit (7 - i % 8)) := by
  induction bs generalizing i with
  | nil =>
    rw [List.length_nil] at hi
    omega
  | cons b bs ih =>
    rw [List.length_cons] at hi
    rw [ofBytes_cons]
    by_cases hfirst : i < 8
    · rw [List.getElem?_append_left (by rw [length_ofNat]; exact hfirst), getElem?_ofNat _ hfirst,
        Nat.div_eq_of_lt hfirst, Nat.mod_eq_of_lt hfirst]
      rfl
    · have hdiv : i / 8 = (i - 8) / 8 + 1 := by omega
      have hmod : i % 8 = (i - 8) % 8 := by omega
      rw [List.getElem?_append_right (by rw [length_ofNat]; omega), length_ofNat, ih (by omega),
        hdiv, hmod, List.getD_cons_succ]

theorem toNat_pick (x : UInt8) {k : Nat} (hk : k < 8) :
    ((x >>> UInt8.ofNat k) &&& 1) = (x.toNat.testBit k).toUInt8 := by
  have hshift : (x >>> UInt8.ofNat k).toNat = x.toNat >>> k := by
    rw [UInt8.toNat_shiftRight, UInt8.toNat_ofNat_of_lt' (by rw [UInt8.size]; omega),
      Nat.mod_eq_of_lt hk]
  apply UInt8.toNat_inj.mp
  rw [UInt8.toNat_and, hshift]
  show (x.toNat >>> k) &&& 1 = _
  rw [Nat.and_one_is_mod, Nat.shiftRight_eq_div_pow, ← Nat.toNat_testBit]
  cases x.toNat.testBit k <;> rfl

theorem bitAt_eq (bytes : UlidBytes) {i : Nat} (hi : i < 5 * kUlidCharSize) :
    ∃ b : Bool, (ulidStream bytes)[i]? = some b ∧ bitAt bytes i = b.toUInt8 := by
  unfold bitAt ulidStream
  by_cases hlead : i < 2
  · refine ⟨false, ?_, ?_⟩
    · interval_cases i <;> rfl
    · rw [if_pos hlead]
      rfl
  · obtain ⟨j, rfl⟩ : ∃ j, i = j + 2 := ⟨i - 2, by omega⟩
    have hj : j < 8 * bytes.toList.length := by
      rw [Vector.length_toList]
      unfold kUlidCharSize at hi
      unfold kUlidByteSize
      omega
    rw [if_neg hlead, Nat.add_sub_cancel]
    exact ⟨_, getElem?_ofBytes hj, toNat_pick _ (by omega)⟩

/-- Five bits shifted in one by one. -/
theorem shiftIn_five (b₀ b₁ b₂ b₃ b₄ : Bool) :
    [b₀.toUInt8, b₁.toUInt8, b₂.toUInt8, b₃.toUInt8, b₄.toUInt8].foldl
        (fun v b : UInt8 ↦ (v <<< 1) ||| b) 0 = UInt8.ofNat (toNat [b₀, b₁, b₂, b₃, b₄]) := by
  cases b₀ <;> cases b₁ <;> cases b₂ <;> cases b₃ <;> cases b₄ <;> rfl

/-- A character is a group of the stream. -/
theorem charValue_eq (bytes : UlidBytes) {c : Nat} (hc : c < kUlidCharSize) :
    charValue bytes c = UInt8.ofNat (toNat (((ulidStream bytes).drop (5 * c)).take 5)) := by
  have hpos : ∀ j < 5, c * 5 + j < 5 * kUlidCharSize := by
    intro j hj
    omega
  obtain ⟨b₀, hs₀, hb₀⟩ := bitAt_eq bytes (hpos 0 (by decide))
  obtain ⟨b₁, hs₁, hb₁⟩ := bitAt_eq bytes (hpos 1 (by decide))
  obtain ⟨b₂, hs₂, hb₂⟩ := bitAt_eq bytes (hpos 2 (by decide))
  obtain ⟨b₃, hs₃, hb₃⟩ := bitAt_eq bytes (hpos 3 (by decide))
  obtain ⟨b₄, hs₄, hb₄⟩ := bitAt_eq bytes (hpos 4 (by decide))
  -- The five positions are those of the group, wherever it lies across the bytes.
  have hgroup : ((ulidStream bytes).drop (5 * c)).take 5 = [b₀, b₁, b₂, b₃, b₄] := by
    apply List.ext_getElem?
    intro j
    rw [List.getElem?_take, List.getElem?_drop, Nat.mul_comm]
    by_cases hj : j < 5
    · rw [if_pos hj]
      interval_cases j <;> assumption
    · rw [if_neg hj]
      exact (List.getElem?_eq_none (Nat.le_of_not_lt hj)).symm
  rw [hgroup, ← shiftIn_five, ← hb₀, ← hb₁, ← hb₂, ← hb₃, ← hb₄]
  rfl

/-- The characters are the groups of the stream, through the alphabet. -/
theorem ulidChars_eq (bytes : UlidBytes) :
    ulidChars bytes =
      (groups 5 kUlidCharSize (ulidStream bytes)).map fun d ↦ kCrockfordAlphabet.getD d 0 := by
  apply List.ext_getElem?
  intro c
  unfold ulidChars
  rw [List.getElem?_map, List.getElem?_map]
  by_cases hc : c < kUlidCharSize
  · have hlt : toNat (((ulidStream bytes).drop (5 * c)).take 5) < 2 ^ 5 :=
      lt_of_mem_groups (List.mem_of_getElem? (getElem?_groups hc))
    rw [List.getElem?_range hc, getElem?_groups hc, Option.map_some, Option.map_some,
      charValue_eq bytes hc, UInt8.toNat_ofNat_of_lt' (hlt.trans (by decide))]
  · have hlen : (groups 5 kUlidCharSize (ulidStream bytes)).length ≤ c := by
      rw [length_groups]
      exact Nat.le_of_not_lt hc
    rw [List.getElem?_eq_none hlen, List.getElem?_eq_none (by rw [List.length_range]; omega)]
    rfl

/-! ## Order -/

theorem alphabet_lt_iff : ∀ a < 32, ∀ b < 32,
    (kCrockfordAlphabet.getD a 0 < kCrockfordAlphabet.getD b 0 ↔ a < b) := by decide

theorem alphabet_inj : ∀ a < 32, ∀ b < 32,
    (kCrockfordAlphabet.getD a 0 = kCrockfordAlphabet.getD b 0 ↔ a = b) := by decide

/-- Names stand as the numbers of the bytes. -/
theorem encodeUlid_lt_iff (a b : UlidBytes) :
    encodeUlid a < encodeUlid b ↔ beNat a.toList < beNat b.toList := by
  show ulidChars a < ulidChars b ↔ _
  rw [ulidChars_eq, ulidChars_eq, ← toNat_ulidStream, ← toNat_ulidStream,
    ← groups_lt_iff (length_ulidStream a) (length_ulidStream b)]
  exact @map_lt_map_iff _ _ _ _ (· < 32) _ (fun x y hx hy ↦ alphabet_lt_iff x hx y hy)
    (fun x y hx hy ↦ alphabet_inj x hx y hy) _ _ (fun d ↦ lt_of_mem_groups) fun d ↦ lt_of_mem_groups

/-- Byte strings of one length stand as their numbers. -/
theorem bytes_lt_iff {as bs : Bytes} (h : as.length = bs.length) :
    as < bs ↔ beNat as < beNat bs := by
  have hvalue : ∀ cs : Bytes, value 256 (cs.map UInt8.toNat) = beNat cs := by
    intro cs
    have hbase : 2 ^ 8 = 256 := rfl
    induction cs with
    | nil => rfl
    | cons c cs ih => rw [List.map_cons, value, ih, beNat, List.length_map, pow_mul, hbase]
  have hdigit : ∀ cs : Bytes, ∀ d ∈ cs.map UInt8.toNat, d < 256 := by
    intro cs d hd
    obtain ⟨c, -, rfl⟩ := List.mem_map.mp hd
    exact c.toNat_lt
  rw [← hvalue, ← hvalue, ← lt_iff_value_lt (by rw [List.length_map, List.length_map, h]) (hdigit as)
    (hdigit bs)]
  exact (@map_lt_map_iff _ _ _ _ (fun _ ↦ True) UInt8.toNat (fun _ _ _ _ ↦ UInt8.lt_iff_toNat_lt.symm)
    (fun _ _ _ _ ↦ UInt8.toNat_inj) _ _ (fun _ _ ↦ trivial) fun _ _ ↦ trivial).symm

/-- Names stand as the bytes. -/
theorem encodeUlid_lt (a b : UlidBytes) : a.toList < b.toList ↔ encodeUlid a < encodeUlid b := by
  rw [encodeUlid_lt_iff, bytes_lt_iff (by rw [Vector.length_toList, Vector.length_toList])]

theorem encodeUlid_injective : Function.Injective encodeUlid := by
  intro a b h
  have hab : ¬ a.toList < b.toList := by
    rw [encodeUlid_lt, h]
    exact lt_irrefl _
  have hba : ¬ b.toList < a.toList := by
    rw [encodeUlid_lt, h]
    exact lt_irrefl _
  exact Vector.toList_inj.mp (List.le_antisymm (List.not_lt.mp hba) (List.not_lt.mp hab))

/-! ## Characters -/

theorem alphabet_mem : ∀ d < 32, kCrockfordAlphabet.getD d 0 ∈ kCrockfordAlphabet := by decide

theorem alphabet_le_seven : ∀ d < 8, kCrockfordAlphabet.getD d 0 ≤ 0x37 := by decide

theorem mem_ulidChars {bytes : UlidBytes} {c : UInt8} (h : c ∈ ulidChars bytes) :
    c ∈ kCrockfordAlphabet := by
  rw [ulidChars_eq] at h
  obtain ⟨d, hd, rfl⟩ := List.mem_map.mp h
  exact alphabet_mem d (lt_of_mem_groups hd)

/-- The synthetic zeros keep the first character below eight. -/
theorem head_ulidChars (bytes : UlidBytes) :
    ∃ c rest, ulidChars bytes = c :: rest ∧ c ≤ 0x37 := by
  have hsmall : toNat ((ulidStream bytes).take 5) < 8 := by
    have hlt := toNat_lt ((ofBytes bytes.toList).take 3)
    have htake : (ulidStream bytes).take 5 = false :: false :: (ofBytes bytes.toList).take 3 := rfl
    have hpow : 2 ^ ((ofBytes bytes.toList).take 3).length ≤ 2 ^ 3 :=
      Nat.pow_le_pow_right (by decide) (by rw [List.length_take]; exact Nat.min_le_left _ _)
    rw [htake, BitString.toNat, BitString.toNat, Bool.toNat_false]
    omega
  rw [ulidChars_eq]
  exact ⟨_, _, rfl, alphabet_le_seven _ hsmall⟩

/-! ## Time -/

theorem beNat_append (as bs : Bytes) :
    beNat (as ++ bs) = beNat as * 2 ^ (8 * bs.length) + beNat bs := by
  rw [← toNat_ofBytes, ofBytes_append, toNat_append, toNat_ofBytes, toNat_ofBytes, length_ofBytes]

theorem toNat_ulidTime (nowMs : Int64) :
    (ulidTime nowMs).toNat = nowMs.toUInt64.toNat % 2 ^ 48 := by
  unfold ulidTime
  rw [UInt64.toNat_and]
  exact Nat.and_two_pow_sub_one_eq_mod _ 48

/-- The bytes of a ULID start with its time. -/
theorem ulidBytes_split (nowMs : Int64) (r₀ r₁ r₂ : UInt32) :
    ∃ tail : Bytes, tail.length = 10 ∧
      (ulidBytes nowMs r₀ r₁ r₂).toList = beBytes 6 (ulidTime nowMs).toNat ++ tail := by
  exact ⟨_, rfl, rfl⟩

/-- The name of an earlier time comes first, whatever the device answers. -/
theorem newUlid_lt {nowMs nowMs' : Int64} (h : ulidTime nowMs < ulidTime nowMs')
    (r₀ r₁ r₂ r₀' r₁' r₂' : UInt32) : newUlid nowMs r₀ r₁ r₂ < newUlid nowMs' r₀' r₁' r₂' := by
  have htime : ∀ now, (ulidTime now).toNat < 2 ^ (8 * 6) := by
    intro now
    rw [toNat_ulidTime]
    exact Nat.mod_lt _ (Nat.two_pow_pos 48)
  obtain ⟨tail, hlen, hbytes⟩ := ulidBytes_split nowMs r₀ r₁ r₂
  obtain ⟨tail', hlen', hbytes'⟩ := ulidBytes_split nowMs' r₀' r₁' r₂'
  have htail := beNat_lt tail
  rw [hlen] at htail
  rw [UInt64.lt_iff_toNat_lt] at h
  unfold newUlid
  rw [encodeUlid_lt_iff, hbytes, hbytes', beNat_append, beNat_append, hlen, hlen',
    beNat_beBytes_of_lt (htime nowMs), beNat_beBytes_of_lt (htime nowMs')]
  omega

theorem ulidTime_of_range {nowMs : Int64} (hpos : 0 ≤ nowMs.toInt) (hlt : nowMs.toInt < 2 ^ 48) :
    (ulidTime nowMs).toNat = nowMs.toInt.toNat := by
  have hle : 0 ≤ nowMs := Int64.le_iff_toInt_le.mpr hpos
  have hword : nowMs.toUInt64.toNat = nowMs.toInt.toNat := Int64.toNat_toUInt64_of_le hle
  rw [toNat_ulidTime, hword]
  apply Nat.mod_eq_of_lt
  omega

/-- The encoding keeps the order of the bytes and so tells them apart; it writes 26 characters of the
alphabet, the first at most `7`; and names sort by the time in them, which is that of the clock until
it exceeds 48 bits. -/
theorem ulid_exact :
    (∀ a b : UlidBytes, a.toList < b.toList ↔ encodeUlid a < encodeUlid b) ∧
    Function.Injective encodeUlid ∧
    (∀ a : UlidBytes, (encodeUlid a).bytes.length = kUlidCharSize ∧
      (∀ c ∈ (encodeUlid a).bytes, c ∈ kCrockfordAlphabet) ∧
      ∃ c rest, (encodeUlid a).bytes = c :: rest ∧ c ≤ 0x37) ∧
    (∀ (nowMs nowMs' : Int64) (r₀ r₁ r₂ r₀' r₁' r₂' : UInt32), ulidTime nowMs < ulidTime nowMs' →
      newUlid nowMs r₀ r₁ r₂ < newUlid nowMs' r₀' r₁' r₂') ∧
    ∀ nowMs : Int64, 0 ≤ nowMs.toInt → nowMs.toInt < 2 ^ 48 →
      (ulidTime nowMs).toNat = nowMs.toInt.toNat :=
  ⟨encodeUlid_lt, encodeUlid_injective,
    fun a ↦ ⟨length_ulidChars a, fun _ ↦ mem_ulidChars, head_ulidChars a⟩,
    fun _ _ r₀ r₁ r₂ r₀' r₁' r₂' h ↦ newUlid_lt h r₀ r₁ r₂ r₀' r₁' r₂',
    fun _ ↦ ulidTime_of_range⟩

/-- Two blocks of consecutive milliseconds, the earlier with the greater random bits. -/
theorem ulid_exact_next_millisecond :
    newUlid 1700000000000 0xFFFFFFFF 0xFFFFFFFF 0xFFFFFFFF < newUlid 1700000000001 0 0 0 :=
  ulid_exact.2.2.2.1 _ _ _ _ _ _ _ _ (by decide)

end MerlionTsdb.Block
