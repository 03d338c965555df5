import Kevo.Wal.Io

/-! The WAL's constants, its logical entries and errors, and the bytes of its records: the payload
that `writeRecord` encodes and the header that `writeRawRecord` puts before a payload. The reader
of the WAL is not among the sources; `decodeEntry` and `headerFields` follow the spec's framing,
and `decodeEntry_encodePayload` is the round trip of the two encodings. -/

namespace Kevo.Wal

/-! ### Constants -/

def recordTypeFull : UInt8 := 1
def recordTypeFirst : UInt8 := 2
def recordTypeMiddle : UInt8 := 3
def recordTypeLast : UInt8 := 4

def opTypePut : UInt8 := 1
def opTypeDelete : UInt8 := 2
def opTypeMerge : UInt8 := 3

/-- The header of a record: CRC (4 bytes), length (2 bytes), type (1 byte). -/
def headerSize : Nat := 7

/-- The largest payload of a record. -/
def maxRecordSize : Nat := 32 * 1024

/-- `math.MaxUint64 - 1_000_000`: one million sequence numbers are kept for a graceful
shutdown. -/
def maxSequenceNumber : UInt64 := 18446744073709551615 - 1000000

/-- `math.MaxUint64 - 10_000_000`, where the WAL warns once that the numbers run out. -/
def sequenceWarningThreshold : UInt64 := 18446744073709551615 - 10000000

theorem maxSequenceNumber_toNat : maxSequenceNumber.toNat = 2 ^ 64 - 1 - 1000000 := rfl

/-! ### Entries, errors and outcomes -/

/-- A logical entry of the WAL (`Entry`). Its `rawBytes`, kept for replication, is read by no
modelled function and is left out. -/
structure Entry where
  sequenceNumber : UInt64
  type : UInt8
  key : Bytes
  value : Bytes
  deriving DecidableEq, Repr

/-- The errors that the modelled WAL functions return, with the texts of `fmt.Errorf`. -/
inductive WalError where
  | invalidOpType
  | walClosed
  | walRotating
  | sequenceOverflow
  | recordTooLarge (size max : Nat)
  | writeRecordHeader (e : IOError)
  | writeRecordPayload (e : IOError)
  | rawRecordTooSmall (length : Nat)
  | rawRecordSizeMismatch (payloadSize length : Nat)
  | writeRawRecord (e : WalError)
  | flushBuffer (e : IOError)
  | syncFile (e : IOError)
  | flushBeforeBatch (e : IOError)
  | writeEntry (index : Nat) (e : WalError)
  | flushDuringClose (e : IOError)
  | syncDuringClose (e : IOError)
  | closeFile (e : IOError)
  deriving DecidableEq, Repr

/-- The text of an error of the operating system. -/
def IOError.message : IOError → String
  | .closed => "file already closed"
  | .failed => "input/output error"

/-- The text of an error, as Go prints it. -/
def WalError.message : WalError → String
  | .invalidOpType => "invalid operation type"
  | .walClosed => "WAL is closed"
  | .walRotating => "WAL is rotating"
  | .sequenceOverflow => "sequence number overflow - you\x27ve done the impossible"
  | .recordTooLarge size max => "record too large: " ++ toString size ++ " > " ++ toString max
  | .writeRecordHeader e => "failed to write record header: " ++ e.message
  | .writeRecordPayload e => "failed to write record payload: " ++ e.message
  | .rawRecordTooSmall n => "raw WAL record too small: " ++ toString n ++ " bytes"
  | .rawRecordSizeMismatch p n => "raw WAL record size mismatch: header says " ++ toString p ++
      " payload bytes, but got " ++ toString n ++ " total bytes"
  | .writeRawRecord e => "failed to write raw WAL record: " ++ e.message
  | .flushBuffer e => "failed to flush WAL buffer: " ++ e.message
  | .syncFile e => "failed to sync WAL file: " ++ e.message
  | .flushBeforeBatch e => "failed to flush WAL buffer before batch: " ++ e.message
  | .writeEntry i e => "failed to write entry " ++ toString i ++ ": " ++ e.message
  | .flushDuringClose e => "failed to flush WAL buffer during close: " ++ e.message
  | .syncDuringClose e => "failed to sync WAL file during close: " ++ e.message
  | .closeFile e => "failed to close WAL file: " ++ e.message

/-- How a call of the WAL ends: Go's `(v, nil)`, an error that it returns, or a run-time panic,
which unwinds the call with the state as the panic found it. -/
inductive Outcome (α : Type) where
  | ok (a : α)
  | error (e : WalError)
  | panic (msg : String)
  deriving DecidableEq, Repr

/-! ### Payloads and headers -/

/-- The size of an entry's payload, as `Append`, `AppendBatch` and `writeRecord` compute it:
`type(1) + seq(8) + keylen(4) + key + vallen(4) + val`, without the value part for a Delete. -/
def entrySize (entryType : UInt8) (key value : Bytes) : Nat :=
  1 + 8 + 4 + key.length + if entryType ≠ opTypeDelete then 4 + value.length else 0

/-- The value part of a payload: length and value, empty for a Delete. -/
def valuePart (entryType : UInt8) (value : Bytes) : Bytes :=
  if entryType ≠ opTypeDelete then putLE value.length 4 ++ value else []

/-- The payload that `writeRecord` fills in. -/
def encodePayload (entryType : UInt8) (seqNum : UInt64) (key value : Bytes) : Bytes :=
  entryType :: (putLE seqNum.toNat 8 ++ putLE key.length 4 ++ key ++ valuePart entryType value)

/-- The header that `writeRawRecord` puts before `data`: its CRC, its length as a `uint16`, and the
record type. -/
def recordHeader (recordType : UInt8) (data : Bytes) : Bytes :=
  putLE (checksumIEEE data).toNat 4 ++ putLE data.length 2 ++ [recordType]

@[simp] theorem valuePart_length (entryType : UInt8) (value : Bytes) :
    (valuePart entryType value).length = if entryType ≠ opTypeDelete then 4 + value.length else 0 := by
  unfold valuePart; split <;> simp

@[simp] theorem encodePayload_length (entryType : UInt8) (seqNum : UInt64) (key value : Bytes) :
    (encodePayload entryType seqNum key value).length = entrySize entryType key value := by
  simp [encodePayload, entrySize]; omega

@[simp] theorem recordHeader_length (recordType : UInt8) (data : Bytes) :
    (recordHeader recordType data).length = headerSize := by
  simp [recordHeader, headerSize]

/-! ### The reader's side, from the spec -/

/-- Modelled from the spec: the fields of a 7-byte record header as the reader takes them, the CRC
and the length little-endian. The WAL reader is not among the sources. -/
def headerFields (header : Bytes) : Nat × Nat × UInt8 :=
  (getLE (header.take 4), getLE ((header.drop 4).take 2), (header.drop 6).headD 0)

/-- The first `n` bytes and the rest, when there are `n` bytes. -/
def takeBytes (n : Nat) (bs : Bytes) : Option (Bytes × Bytes) :=
  if n ≤ bs.length then some (bs.take n, bs.drop n) else none

/-- Modelled from the spec: the reader's decoding of a logical entry's payload,
`op_type(1), seq(8), key_len(4), key, [val_len(4), value]`, with no value part for a Delete and
nothing after the entry. The WAL reader is not among the sources. -/
def decodeEntry : Bytes → Option Entry
  | [] => none
  | op :: rest => do
    let (seq, rest) ← takeBytes 8 rest
    let (keyLen, rest) ← takeBytes 4 rest
    let (key, rest) ← takeBytes (getLE keyLen) rest
    if op = opTypeDelete then
      if rest = [] then some ⟨UInt64.ofNat (getLE seq), op, key, []⟩ else none
    else
      let (valueLen, rest) ← takeBytes 4 rest
      if rest.length = getLE valueLen then some ⟨UInt64.ofNat (getLE seq), op, key, rest⟩
      else none

@[simp] theorem takeBytes_putLE (n k : Nat) (b : Bytes) :
    takeBytes k (putLE n k ++ b) = some (putLE n k, b) := by
  simp [takeBytes]

@[simp] theorem takeBytes_self_append (a b : Bytes) : takeBytes a.length (a ++ b) = some (a, b) := by
  simp [takeBytes]

@[simp] theorem takeBytes_self (a : Bytes) : takeBytes a.length a = some (a, []) := by
  simp [takeBytes]

theorem headerFields_recordHeader (recordType : UInt8) (data : Bytes)
    (h : data.length < 2 ^ 16) :
    headerFields (recordHeader recordType data) =
      ((checksumIEEE data).toNat, data.length, recordType) := by
  have hcrc : (checksumIEEE data).toNat < 256 ^ 4 := (checksumIEEE data).val.isLt
  simp [headerFields, recordHeader, List.take_append_of_le_length, getLE_putLE_of_lt hcrc,
    List.drop_append_of_le_length, List.drop_append_eq_append_drop, List.getElem?_eq_none,
    getLE_putLE_of_lt (show data.length < 256 ^ 2 by simpa using h)]

/-- Decoding a payload that `writeRecord` encodes gives the entry back, with an empty value for a
Delete, when the key and the value are shorter than `2^32` bytes. -/
theorem decodeEntry_encodePayload (entryType : UInt8) (seqNum : UInt64) (key value : Bytes)
    (hk : key.length < 2 ^ 32) (hv : value.length < 2 ^ 32) :
    decodeEntry (encodePayload entryType seqNum key value) =
      some ⟨seqNum, entryType, key, if entryType = opTypeDelete then [] else value⟩ := by
  have hs : UInt64.ofNat (seqNum.toNat % 18446744073709551616) = seqNum :=
    UInt64.ext (by rw [Nat.mod_eq_of_lt seqNum.toNat_lt]; exact Nat.mod_eq_of_lt seqNum.toNat_lt)
  have hk' : key.length % 4294967296 = key.length := Nat.mod_eq_of_lt hk
  have hv' : value.length % 4294967296 = value.length := Nat.mod_eq_of_lt hv
  by_cases hd : entryType = opTypeDelete <;>
    simp [decodeEntry, encodePayload, valuePart, hd, hs, hk', hv']

end Kevo.Wal
