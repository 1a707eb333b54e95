import MerlionTsdb.Encoding.BigEndian
import MerlionTsdb.Encoding.Crc32cBits

/-!
# Damage that a checksum shows

A payload is stored with its CRC beside it.  Damage is a change of the stored value alone, or of at
most four consecutive bytes of the payload.
-/

namespace MerlionTsdb.Crc32c

/-- What damage makes of a payload and the CRC stored with it. -/
inductive Damage (data : Bytes) : Bytes → UInt32 → Prop
  | stored {crc : UInt32} (hne : crc ≠ compute data) : Damage data data crc
  | payload {data' : Bytes} (hlen : data'.length = data.length) (hne : data' ≠ data) (i : Nat)
    (hwithin : ∀ j, data'[j]? ≠ data[j]? → i ≤ j ∧ j < i + 4) : Damage data data' (compute data)

namespace Damage

variable {data data' : Bytes} {crc : UInt32}

theorem length_eq (h : Damage data data' crc) : data'.length = data.length := by
  cases h with
  | stored => rfl
  | payload hlen => exact hlen

/-- The CRC of what is left is not the one stored. -/
theorem compute_ne (h : Damage data data' crc) : compute data' ≠ crc := by
  cases h with
  | stored hne => exact Ne.symm hne
  | payload hlen hne i hwithin => exact Crc32c.compute_ne hlen hne hwithin

end Damage

/-! ## Payloads with their CRC behind them -/

/-- A payload, and its CRC. -/
def sealed (payload : Bytes) : Bytes := payload ++ Encoding.putBe32 (compute payload)

/-- What is left of a payload and its CRC: all of it, or what damage made of it. -/
inductive Worn (payload : Bytes) : Bytes → Prop
  | intact : Worn payload (sealed payload)
  | damaged {payload' : Bytes} {crc : UInt32} (hdamage : Damage payload payload' crc) :
      Worn payload (payload' ++ Encoding.putBe32 crc)

theorem Worn.length_eq {payload bytes : Bytes} (h : Worn payload bytes) :
    bytes.length = payload.length + 4 := by
  cases h with
  | intact => rw [sealed, List.length_append, Encoding.length_putBe32]
  | damaged hdamage => rw [List.length_append, Encoding.length_putBe32, hdamage.length_eq]

end MerlionTsdb.Crc32c
