import MerlionTsdb.Encoding.Varint

/-!
# CRC32C

`crc32c.hpp` / `crc32c.cpp`: the byte-at-a-time table implementation of the Castagnoli CRC.
-/

namespace MerlionTsdb.Crc32c

/-- The reversed Castagnoli polynomial. -/
def kPolyReversed : UInt32 := 0x82F63B78

def kInit : UInt32 := 0xFFFFFFFF

/-- One of the eight rounds that make a table entry. -/
def tableRound (c : UInt32) : UInt32 :=
  if c &&& 1 ≠ 0 then kPolyReversed ^^^ (c >>> 1) else c >>> 1

def tableEntry (i : Nat) : UInt32 :=
  Nat.repeat tableRound 8 (UInt32.ofNat i)

def kTable : List UInt32 :=
  (List.range 256).map tableEntry

/-- One byte folded into the running state. -/
def updateByte (state : UInt32) (b : UInt8) : UInt32 :=
  kTable.getD ((state ^^^ b.toUInt32) &&& 0xFF).toNat 0 ^^^ (state >>> 8)

def update (state : UInt32) (data : Bytes) : UInt32 :=
  data.foldl updateByte state

def finalize (state : UInt32) : UInt32 :=
  state ^^^ kInit

def compute (data : Bytes) : UInt32 :=
  finalize (update kInit data)

-- The check value of the header, over "123456789".
example : compute [0x31, 0x32, 0x33, 0x34, 0x35, 0x36, 0x37, 0x38, 0x39] = 0xE3069283 := by
  decide +kernel

/-- Folding in two parts is folding in one. -/
theorem update_append (state : UInt32) (as bs : Bytes) :
    update state (as ++ bs) = update (update state as) bs := List.foldl_append

end MerlionTsdb.Crc32c
