import Mathlib.Data.String.Basic
import Mathlib.Algebra.Order.Group.Nat
import Mathlib.Data.List.Basic

/-! Byte strings and the three Go library routines that the WAL and the memtable apply to them:
`binary.LittleEndian` (`putLE`, `getLE`), `bytes.Compare` (`compareBytes`) and
`crc32.ChecksumIEEE` (`checksumIEEE`, the reflected CRC-32 with polynomial `0xEDB88320`). -/

namespace Kevo

/-- A Go `[]byte`. A nil slice and an empty one are the same value here. -/
abbrev Bytes := List UInt8

/-! ### Little-endian integers -/

/-- The `k` low bytes of `n`, least significant first: `binary.LittleEndian.PutUint16`, `PutUint32`
and `PutUint64` for `k = 2, 4, 8`, which truncate `n` to the width as Go's conversions do. -/
def putLE (n : Nat) : Nat → Bytes
  | 0 => []
  | k + 1 => UInt8.ofNat n :: putLE (n / 256) k

/-- The number whose little-endian bytes are `bs`: `binary.LittleEndian.Uint16`, `Uint32` and
`Uint64` on slices of 2, 4 and 8 bytes. -/
def getLE : Bytes → Nat
  | [] => 0
  | b :: bs => b.toNat + 256 * getLE bs

@[simp] theorem putLE_length (n k : Nat) : (putLE n k).length = k := by
  induction k generalizing n <;> simp [putLE, *]

@[simp] theorem getLE_putLE (n k : Nat) : getLE (putLE n k) = n % 256 ^ k := by
  induction k generalizing n with
  | zero => simp [putLE, getLE, Nat.mod_one]
  | succ k ih =>
    have hbyte : (UInt8.ofNat n).toNat = n % 256 := rfl
    rw [putLE, getLE, ih, hbyte, pow_succ', Nat.mod_mul]

/-- A width-`k` field holds every number below `256 ^ k` exactly. -/
theorem getLE_putLE_of_lt {n k : Nat} (h : n < 256 ^ k) : getLE (putLE n k) = n := by
  rw [getLE_putLE, Nat.mod_eq_of_lt h]

theorem putLE_append_getLE (n k : Nat) (rest : Bytes) :
    getLE ((putLE n k ++ rest).take k) = n % 256 ^ k := by
  rw [List.take_left' (putLE_length n k), getLE_putLE]

/-! ### Lexicographic order -/

/-- `bytes.Compare`: byte strings in lexicographic order, a proper prefix first. -/
def compareBytes : Bytes → Bytes → Ordering
  | [], [] => .eq
  | [], _ :: _ => .lt
  | _ :: _, [] => .gt
  | a :: as, b :: bs => if a < b then .lt else if b < a then .gt else compareBytes as bs

@[simp] theorem compareBytes_self (a : Bytes) : compareBytes a a = .eq := by
  induction a <;> simp [compareBytes, *]

theorem compareBytes_eq_iff {a b : Bytes} : compareBytes a b = .eq ↔ a = b := by
  refine ⟨fun h => ?_, fun h => h ▸ compareBytes_self a⟩
  induction a generalizing b with
  | nil => cases b <;> simp_all [compareBytes]
  | cons x xs ih =>
    cases b with
    | nil => simp [compareBytes] at h
    | cons y ys =>
      simp only [compareBytes] at h
      split at h
      · cases h
      · split at h
        · cases h
        · exact congrArg₂ _ (UInt8.le_antisymm (UInt8.not_lt.mp ‹_›) (UInt8.not_lt.mp ‹_›))
            (ih h)

theorem compareBytes_swap (a b : Bytes) : compareBytes b a = (compareBytes a b).swap := by
  induction a generalizing b with
  | nil => cases b <;> rfl
  | cons x xs ih =>
    cases b with
    | nil => rfl
    | cons y ys =>
      simp only [compareBytes]
      by_cases h1 : x < y
      · simp [h1, UInt8.lt_asymm h1, Ordering.swap]
      · by_cases h2 : y < x
        · simp [h1, h2, Ordering.swap]
        · simp [h1, h2, ih]

theorem compareBytes_lt_trans {a b c : Bytes} (hab : compareBytes a b = .lt)
    (hbc : compareBytes b c = .lt) : compareBytes a c = .lt := by
  induction a generalizing b c with
  | nil => cases c with
    | nil => cases b <;> simp [compareBytes] at hab hbc
    | cons => rfl
  | cons x xs ih =>
    rcases b with _ | ⟨y, ys⟩
    · simp [compareBytes] at hab
    rcases c with _ | ⟨z, zs⟩
    · simp [compareBytes] at hbc
    simp only [compareBytes] at hab hbc ⊢
    by_cases hyx : y < x
    · simp [hyx, UInt8.lt_asymm hyx] at hab
    by_cases hzy : z < y
    · simp [hzy, UInt8.lt_asymm hzy] at hbc
    by_cases hxy : x < y
    · by_cases hyz : y < z
      · simp [UInt8.lt_trans hxy hyz]
      · have hyz' := UInt8.le_antisymm (UInt8.not_lt.mp hzy) (UInt8.not_lt.mp hyz)
        simp [← hyz', hxy]
    · have hxy' := UInt8.le_antisymm (UInt8.not_lt.mp hyx) (UInt8.not_lt.mp hxy)
      subst hxy'
      rw [if_neg hxy, if_neg hyx] at hab
      by_cases hxz : x < z
      · simp [hxz]
      · have hxz' := UInt8.le_antisymm (UInt8.not_lt.mp hzy) (UInt8.not_lt.mp hxz)
        subst hxz'
        rw [if_neg hxz, if_neg hzy] at hbc
        simp [ih hab hbc]

/-! ### CRC-32 -/

/-- One bit of the reflected CRC-32 with the IEEE polynomial `0xEDB88320`. -/
def crcBit (c : UInt32) : UInt32 :=
  if c &&& 1 = 1 then (c >>> 1) ^^^ 0xEDB88320 else c >>> 1

/-- `k` bits of the CRC register. -/
def crcBits : Nat → UInt32 → UInt32
  | 0, c => c
  | k + 1, c => crcBits k (crcBit c)

/-- One byte into the CRC register: the byte's bits, low bit first. -/
def crcByte (c : UInt32) (b : UInt8) : UInt32 :=
  crcBits 8 (c ^^^ b.toUInt32)

/-- `crc32.ChecksumIEEE`: the register starts at all ones and is complemented at the end. -/
def checksumIEEE (data : Bytes) : UInt32 :=
  ~~~(data.foldl crcByte 0xFFFFFFFF)

set_option maxRecDepth 20000 in
/-- The check value of CRC-32/IEEE, the checksum of the ASCII digits `123456789`. -/
example : checksumIEEE [0x31, 0x32, 0x33, 0x34, 0x35, 0x36, 0x37, 0x38, 0x39] = 0xCBF43926 := by
  decide

end Kevo
