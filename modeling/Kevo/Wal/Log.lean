import Kevo.Wal.Record

/-! The write-ahead log (`WAL`) and its operations, as `wal.go` writes them: the append paths
(`append`, `appendWithSequence`, `appendBatch`, `appendBatchWithSequence`, `appendExactBytes`),
the record writers under them, `maybeSync`, `sync`, `close`, the status setters and
`updateNextSequence`. Each call holds the WAL's mutex for its whole body, so a call is one step
from state to state. The observers, the log lines and the timestamps are not modelled: no
modelled function reads them. -/

namespace Kevo.Wal

/-- `config.SyncMode`, the WAL's durability policy. -/
inductive SyncMode where
  | syncNone
  | syncBatch
  | syncImmediate
  deriving DecidableEq, Repr

/-- The fields of `config.Config` that the WAL reads. -/
structure Config where
  walSyncMode : SyncMode
  walSyncBytes : Int
  deriving DecidableEq, Repr

/-- `WALStatusActive`, `WALStatusRotating`, `WALStatusClosed`. -/
inductive Status where
  | active
  | rotating
  | closed
  deriving DecidableEq, Repr

/-- The state of a `WAL`. The byte counters are `int64` in Go and never come near overflow. -/
structure WAL where
  cfg : Config
  file : File
  writer : Writer
  nextSequence : UInt64
  bytesWritten : Int
  batchByteSize : Int
  status : Status
  overflowWarning : Bool
  deriving DecidableEq, Repr

/-- The bytes of the log: the file's contents, then the writer's buffer. -/
def WAL.log (w : WAL) : Bytes := w.writer.log w.file

/-- `NewWAL` once it has created its file: an empty file, on which the operating system will give
the answers `answers`, a 64 KiB buffer, and `nextSequence = 1`. -/
def newWAL (cfg : Config) (answers : List Answer) : WAL where
  cfg := cfg
  file := ⟨[], true, answers⟩
  writer := Writer.new (64 * 1024)
  nextSequence := 1
  bytesWritten := 0
  batchByteSize := 0
  status := .active
  overflowWarning := false

/-! ### Writing records -/

/-- `writeRecordData`: the header, then the payload, into the buffered writer. -/
def writeRecordData (w : WAL) (header payload : Bytes) : Option WalError × WAL :=
  match w.writer.write w.file header with
  | ((_, some e), wr, f) => (some (.writeRecordHeader e), { w with writer := wr, file := f })
  | ((_, none), wr, f) =>
    match wr.write f payload with
    | ((_, some e), wr', f') => (some (.writeRecordPayload e), { w with writer := wr', file := f' })
    | ((_, none), wr', f') =>
      (none, { w with writer := wr', file := f',
                      bytesWritten := w.bytesWritten + (header.length + payload.length : Nat),
                      batchByteSize := w.batchByteSize + (header.length + payload.length : Nat) })

/-- `writeRawRecord`: a record of type `recordType` with payload `data`. -/
def writeRawRecord (w : WAL) (recordType : UInt8) (data : Bytes) : Option WalError × WAL :=
  if data.length > maxRecordSize then (some (.recordTooLarge data.length maxRecordSize), w)
  else writeRecordData w (recordHeader recordType data) data

/-- `writeRecord`: one record holding a whole entry. -/
def writeRecord (w : WAL) (recordType entryType : UInt8) (seqNum : UInt64) (key value : Bytes) :
    Option WalError × WAL :=
  if entrySize entryType key value > maxRecordSize then
    (some (.recordTooLarge (entrySize entryType key value) maxRecordSize), w)
  else writeRawRecord w recordType (encodePayload entryType seqNum key value)

/-- The loop of `writeFragmentedRecord`: a Middle record of `MaxRecordSize` bytes while more than
`MaxRecordSize` bytes remain. It returns the error, the bytes still to write, and the state. -/
def writeMiddles (w : WAL) (remaining : Bytes) : Option WalError × Bytes × WAL :=
  if maxRecordSize < remaining.length then
    match writeRawRecord w recordTypeMiddle (remaining.take maxRecordSize) with
    | (some e, w') => (some e, remaining, w')
    | (none, w') => writeMiddles w' (remaining.drop maxRecordSize)
  else (none, remaining, w)
termination_by remaining.length
decreasing_by simp only [List.length_drop, maxRecordSize] at *; omega

/-- `writeFragmentedRecord`: a First record with the metadata and as much of the key as fits, then
the rest of the key and the value part cut into Middle records and a Last one. -/
def writeFragmentedRecord (w : WAL) (entryType : UInt8) (seqNum : UInt64) (key value : Bytes) :
    Option WalError × WAL :=
  let maxKeyInFirst := maxRecordSize - (1 + 8 + 4)
  let keyInFirst := min key.length maxKeyInFirst
  let firstFragment := entryType :: (putLE seqNum.toNat 8 ++ putLE key.length 4 ++ key.take keyInFirst)
  match writeRawRecord w recordTypeFirst firstFragment with
  | (some e, w1) => (some e, w1)
  | (none, w1) =>
    match writeMiddles w1 (key.drop keyInFirst ++ valuePart entryType value) with
    | (some e, _, w2) => (some e, w2)
    | (none, remaining, w2) =>
      if remaining.length > 0 then writeRawRecord w2 recordTypeLast remaining else (none, w2)

/-! ### Syncing -/

/-- `syncLocked`: flush the buffer and sync the file, on an active WAL. -/
def syncLocked (w : WAL) : Option WalError × WAL :=
  match w.status with
  | .closed => (some .walClosed, w)
  | .rotating => (some .walRotating, w)
  | .active =>
    match w.writer.flush w.file with
    | (some e, wr, f) => (some (.flushBuffer e), { w with writer := wr, file := f })
    | (none, wr, f) =>
      match f.sync with
      | (some e, f') => (some (.syncFile e), { w with writer := wr, file := f' })
      | (none, f') => (none, { w with writer := wr, file := f', batchByteSize := 0 })

/-- `maybeSync`: sync always, when enough bytes were written since the last sync, or never. -/
def maybeSync (w : WAL) : Option WalError × WAL :=
  let needSync := match w.cfg.walSyncMode with
    | .syncImmediate => true
    | .syncBatch => decide (w.cfg.walSyncBytes ≤ w.batchByteSize)
    | .syncNone => false
  if needSync then syncLocked w else (none, w)

/-- `Sync`. -/
def sync (w : WAL) : Outcome Unit × WAL :=
  match syncLocked w with
  | (some e, w') => (.error e, w')
  | (none, w') => (.ok (), w')

/-! ### Appending -/

/-- The status check at the top of every append path. -/
def statusError : Status → Option WalError
  | .active => none
  | .rotating => some .walRotating
  | .closed => some .walClosed

/-- The one-time warning that sequence numbers approach overflow: the flag is set once `seq`
reaches the warning threshold. -/
def warnOverflow (w : WAL) (seq : UInt64) : WAL :=
  if seq ≥ sequenceWarningThreshold ∧ w.overflowWarning = false then
    { w with overflowWarning := true }
  else w

/-- The op types that `Append` and `AppendWithSequence` accept. -/
def validOpType (entryType : UInt8) : Prop :=
  entryType = opTypePut ∨ entryType = opTypeDelete ∨ entryType = opTypeMerge

instance (entryType : UInt8) : Decidable (validOpType entryType) :=
  inferInstanceAs (Decidable (_ ∨ _ ∨ _))

/-- The end of `Append` and `AppendWithSequence`, the same in both once the sequence number is
chosen: one Full record when the entry fits, else fragments, then `maybeSync`. -/
def appendEntry (w : WAL) (entryType : UInt8) (seqNum : UInt64) (key value : Bytes) :
    Outcome UInt64 × WAL :=
  let written :=
    if entrySize entryType key value ≤ maxRecordSize then
      writeRecord w recordTypeFull entryType seqNum key value
    else writeFragmentedRecord w entryType seqNum key value
  match written with
  | (some e, w') => (.error e, w')
  | (none, w') =>
    match maybeSync w' with
    | (some e, w'') => (.error e, w'')
    | (none, w'') => (.ok seqNum, w'')

/-- `Append`: the entry gets `nextSequence`, which then goes up by one. -/
def append (w : WAL) (entryType : UInt8) (key value : Bytes) : Outcome UInt64 × WAL :=
  match statusError w.status with
  | some e => (.error e, w)
  | none =>
    if ¬validOpType entryType then (.error .invalidOpType, w)
    else if w.nextSequence ≥ maxSequenceNumber then (.error .sequenceOverflow, w)
    else
      let w := warnOverflow w w.nextSequence
      appendEntry { w with nextSequence := w.nextSequence + 1 } entryType w.nextSequence key value

/-- `AppendWithSequence`: the entry gets the caller's sequence number, and `nextSequence` rises
past it. -/
def appendWithSequence (w : WAL) (entryType : UInt8) (key value : Bytes)
    (sequenceNumber : UInt64) : Outcome UInt64 × WAL :=
  match statusError w.status with
  | some e => (.error e, w)
  | none =>
    if ¬validOpType entryType then (.error .invalidOpType, w)
    else if sequenceNumber ≥ maxSequenceNumber then (.error .sequenceOverflow, w)
    else
      let w :=
        if sequenceNumber ≥ w.nextSequence then
          { warnOverflow w (sequenceNumber + 1) with nextSequence := sequenceNumber + 1 }
        else w
      appendEntry w entryType sequenceNumber key value

/-- `AppendExactBytes`: a record framed by the caller, written as it is. The entry for the
observers reads `payload[0]` after the write. -/
def appendExactBytes (w : WAL) (rawBytes : Bytes) (seqNum : UInt64) : Outcome UInt64 × WAL :=
  match statusError w.status with
  | some e => (.error e, w)
  | none =>
    if rawBytes.length < headerSize then (.error (.rawRecordTooSmall rawBytes.length), w)
    else
      let payloadSize := getLE ((rawBytes.drop 4).take 2)
      if rawBytes.length ≠ headerSize + payloadSize then
        (.error (.rawRecordSizeMismatch payloadSize rawBytes.length), w)
      else
        let w := if seqNum ≥ w.nextSequence then { w with nextSequence := seqNum + 1 } else w
        match writeRecordData w (rawBytes.take headerSize) (rawBytes.drop headerSize) with
        | (some e, w') => (.error (.writeRawRecord e), w')
        | (none, w') =>
          match rawBytes.drop headerSize with
          | [] => (.panic "runtime error: index out of range [0] with length 0", w')
          | _ :: _ =>
            match maybeSync w' with
            | (some e, w'') => (.error e, w'')
            | (none, w'') => (.ok seqNum, w'')

/-- The bytes that a batch's records take: a header and a payload per entry. -/
def totalSize : List Entry → Nat
  | [] => 0
  | e :: rest => headerSize + entrySize e.type e.key e.value + totalSize rest

/-- The write loop of a batch: each entry as a Full record under `seqNum`, stopping at the first
failure, whose error names the entry's index. -/
def writeEntries (w : WAL) (seqNum : UInt64) (i : Nat) : List Entry → Option WalError × WAL
  | [] => (none, w)
  | e :: rest =>
    match writeRecord w recordTypeFull e.type seqNum e.key e.value with
    | (some err, w') => (some (.writeEntry i err), w')
    | (none, w') => writeEntries w' seqNum (i + 1) rest

/-- What `AppendBatch` and `AppendBatchWithSequence` share word for word: when the batch does not
fit the free buffer, a flush first, and a larger writer when it does not fit the whole buffer;
then the write loop. -/
def writeBatch (w : WAL) (entries : List Entry) (startSeqNum : UInt64) : Option WalError × WAL :=
  let prepared : Option WalError × WAL :=
    if totalSize entries > w.writer.available then
      match w.writer.flush w.file with
      | (some e, wr, f) => (some (.flushBeforeBatch e), { w with writer := wr, file := f })
      | (none, wr, f) =>
        (none, { w with file := f,
                        writer := if totalSize entries > w.writer.size then
                          Writer.new (totalSize entries + 1024) else wr })
    else (none, w)
  match prepared with
  | (some e, w') => (some e, w')
  | (none, w') => writeEntries w' startSeqNum 0 entries

/-- `AppendBatch`: every entry under `nextSequence`, which then goes up by one. -/
def appendBatch (w : WAL) (entries : List Entry) : Outcome UInt64 × WAL :=
  match statusError w.status with
  | some e => (.error e, w)
  | none =>
    if entries = [] then (.ok w.nextSequence, w)
    else if w.nextSequence ≥ maxSequenceNumber then (.error .sequenceOverflow, w)
    else
      let w := warnOverflow w w.nextSequence
      match writeBatch w entries w.nextSequence with
      | (some e, w') => (.error e, w')
      | (none, w') =>
        match maybeSync { w' with nextSequence := w.nextSequence + 1 } with
        | (some e, w'') => (.error e, w'')
        | (none, w'') => (.ok w.nextSequence, w'')

/-- `AppendBatchWithSequence`: every entry under the caller's `startSequence`, and `nextSequence`
rises past it. -/
def appendBatchWithSequence (w : WAL) (entries : List Entry) (startSequence : UInt64) :
    Outcome UInt64 × WAL :=
  match statusError w.status with
  | some e => (.error e, w)
  | none =>
    if entries = [] then (.ok startSequence, w)
    else if startSequence ≥ maxSequenceNumber then (.error .sequenceOverflow, w)
    else
      match writeBatch (warnOverflow w startSequence) entries startSequence with
      | (some e, w') => (.error e, w')
      | (none, w') =>
        let w' := if startSequence + 1 > w'.nextSequence then
          { w' with nextSequence := startSequence + 1 } else w'
        match maybeSync w' with
        | (some e, w'') => (.error e, w'')
        | (none, w'') => (.ok startSequence, w'')

/-! ### Status and sequence -/

/-- `Close`: flush and sync before the status leaves Active, then close the file. -/
def close (w : WAL) : Outcome Unit × WAL :=
  match w.status with
  | .closed => (.ok (), w)
  | _ =>
    match w.writer.flush w.file with
    | (some e, wr, f) => (.error (.flushDuringClose e), { w with writer := wr, file := f })
    | (none, wr, f) =>
      match f.sync with
      | (some e, f1) => (.error (.syncDuringClose e), { w with writer := wr, file := f1 })
      | (none, f1) =>
        match f1.close with
        | (some e, f2) =>
          (.error (.closeFile e), { w with writer := wr, file := f2, status := .rotating })
        | (none, f2) => (.ok (), { w with writer := wr, file := f2, status := .closed })

/-- `SetRotating`. -/
def setRotating (w : WAL) : WAL := { w with status := .rotating }

/-- `SetActive`. -/
def setActive (w : WAL) : WAL := { w with status := .active }

/-- `UpdateNextSequence`: `nextSequence` only rises. -/
def updateNextSequence (w : WAL) (nextSeq : UInt64) : WAL :=
  if nextSeq > w.nextSequence then { warnOverflow w nextSeq with nextSequence := nextSeq } else w

end Kevo.Wal
