import Kevo.Memtable.SkipList

/-! The memtable (`MemTable`): a skip list, the counter `nextSeqNum`, and the flag `immutable`.
`Put` and `Delete` insert a record unless the memtable is immutable, and raise `nextSeqNum` to
`seqNum + 1` only when `seqNum` is strictly above it. Two consequences: `GetNextSequenceNumber` does
not always exceed the sequence numbers inserted (`getNextSequenceNumber_not_above`), and the
snapshot that `NewIterator` takes, `nextSeqNum`, lets through a record put afterwards under that
number (`newIterator_sees_next_put`). The lock and the creation time are not modelled: in this
model every call is one step, and no modelled function reads the time. -/

namespace Kevo.Memtable

open Kevo.Wal (Entry opTypePut opTypeDelete)

/-- The state of a `MemTable`. -/
structure MemTable where
  skipList : SkipList
  nextSeqNum : UInt64
  immutable : Bool
  deriving DecidableEq, Repr

/-- `NewMemTable`. -/
def newMemTable : MemTable := ⟨SkipList.empty, 0, false⟩

/-- The body of `Put` and `Delete` after their immutability check: the record inserted, and
`nextSeqNum` set to `seqNum + 1` when `seqNum` is above it. -/
def addRecord (m : MemTable) (e : Record) : MemTable :=
  { m with skipList := m.skipList.insert e,
           nextSeqNum := if e.seqNum > m.nextSeqNum then e.seqNum + 1 else m.nextSeqNum }

/-- What `Put` and `Delete` share word for word: nothing on an immutable memtable, else
`addRecord`. -/
def insertEntry (m : MemTable) (e : Record) : MemTable :=
  if m.immutable then m else addRecord m e

/-- `MemTable.Put`. -/
def put (m : MemTable) (key value : Bytes) (seqNum : UInt64) : MemTable :=
  insertEntry m ⟨key, value, .value, seqNum⟩

/-- `MemTable.Delete`: a record of kind `TypeDeletion` with a nil value. -/
def delete (m : MemTable) (key : Bytes) (seqNum : UInt64) : MemTable :=
  insertEntry m ⟨key, [], .deletion, seqNum⟩

/-- The three answers of `MemTable.Get`: `(nil, false)`, `(nil, true)` and `(value, true)`. -/
inductive Lookup where
  | absent
  | deleted
  | value (v : Bytes)
  deriving DecidableEq, Repr

/-- `MemTable.Get`. Both of its branches, with and without the read lock, look the key up in the
skip list in the same way. -/
def get (m : MemTable) (key : Bytes) : Lookup :=
  match m.skipList.find key with
  | none => .absent
  | some e => if e.valueType = .deletion then .deleted else .value e.value

/-- `MemTable.ApproximateSize`, for a record size `size`. -/
def approximateSize (size : Record → Nat) (m : MemTable) : Nat := m.skipList.approximateSize size

/-- `MemTable.SetImmutable`. -/
def setImmutable (m : MemTable) : MemTable := { m with immutable := true }

/-- `MemTable.NewIterator`: no snapshot on an immutable memtable, else `nextSeqNum` as snapshot. -/
def newIterator (m : MemTable) : Iterator :=
  if m.immutable then ⟨none⟩ else ⟨some m.nextSeqNum⟩

/-- `MemTable.GetNextSequenceNumber`. -/
def getNextSequenceNumber (m : MemTable) : UInt64 := m.nextSeqNum

/-- `MemTable.ProcessWALEntry`: a Put or a Delete, and nothing for any other op type. -/
def processWALEntry (m : MemTable) (entry : Entry) : MemTable :=
  if entry.type = opTypePut then put m entry.key entry.value entry.sequenceNumber
  else if entry.type = opTypeDelete then delete m entry.key entry.sequenceNumber
  else m

/-! ### Inserting -/

@[simp] theorem insertEntry_records {m : MemTable} (e : Record) (hm : m.immutable = false) :
    (insertEntry m e).skipList.records = insertRecord e m.skipList.records := by
  simp [insertEntry, addRecord, hm, SkipList.insert]

@[simp] theorem insertEntry_immutable (m : MemTable) (e : Record) :
    (insertEntry m e).immutable = m.immutable := by
  unfold insertEntry; split <;> rfl

theorem insertEntry_nextSeqNum {m : MemTable} (e : Record) (hm : m.immutable = false) :
    (insertEntry m e).nextSeqNum =
      if e.seqNum > m.nextSeqNum then e.seqNum + 1 else m.nextSeqNum := by
  simp [insertEntry, addRecord, hm]

/-- After an insert above every other version of its key, `Get` answers the new record for its key
and as before for every other key. -/
theorem get_insertEntry {m : MemTable} {e : Record} (key : Bytes) (hm : m.immutable = false)
    (hnew : ∀ x ∈ m.skipList.records, x.key = e.key → x.seqNum < e.seqNum) :
    get (insertEntry m e) key =
      if key = e.key then (if e.valueType = .deletion then .deleted else .value e.value)
      else get m key := by
  unfold get SkipList.find
  rw [insertEntry_records e hm]
  by_cases hk : key = e.key
  · rw [find_insertRecord_newest _ hk.symm fun x hx hxk => hnew x hx (hxk.trans hk), if_pos hk]
  · rw [find_insertRecord_of_ne _ (Ne.symm hk), if_neg hk]

theorem mem_insertEntry_records {m : MemTable} {e x : Record}
    (h : x ∈ (insertEntry m e).skipList.records) : x ∈ m.skipList.records ∨ x = e := by
  unfold insertEntry at h
  split at h
  · exact .inl h
  · simpa [addRecord, SkipList.insert, or_comm] using h

/-- `nextSeqNum` is raised only past a sequence number strictly above it: a record put under the
number that `GetNextSequenceNumber` reports is inserted and leaves that number as it is. -/
theorem getNextSequenceNumber_not_above (m : MemTable) (key value : Bytes)
    (hm : m.immutable = false) :
    (⟨key, value, .value, m.nextSeqNum⟩ : Record) ∈
        (put m key value m.nextSeqNum).skipList.records ∧
      getNextSequenceNumber (put m key value m.nextSeqNum) = m.nextSeqNum := by
  simp [put, getNextSequenceNumber, insertEntry_nextSeqNum _ hm, hm]

theorem getNextSequenceNumber_not_above_zero :
    newMemTable.immutable = false ∧
    (⟨[107], [118], .value, newMemTable.nextSeqNum⟩ : Record) ∈
        (put newMemTable [107] [118] newMemTable.nextSeqNum).skipList.records ∧
      getNextSequenceNumber (put newMemTable [107] [118] newMemTable.nextSeqNum) =
        newMemTable.nextSeqNum :=
  ⟨rfl, getNextSequenceNumber_not_above newMemTable [107] [118] rfl⟩

/-- The snapshot of an iterator of a mutable memtable is `nextSeqNum`, so a record put afterwards
under that number, the next one the memtable reports, is among the records the iterator yields. -/
theorem newIterator_sees_next_put (m : MemTable) (key value : Bytes) (hm : m.immutable = false) :
    (⟨key, value, .value, m.nextSeqNum⟩ : Record) ∈
      (newIterator m).yields (put m key value m.nextSeqNum).skipList := by
  simp [newIterator, Iterator.yields, put, addRecord, hm]

theorem newIterator_sees_next_put_two :
    (put newMemTable [97] [49] 1).immutable = false ∧
    (⟨[98], [50], .value, (put newMemTable [97] [49] 1).nextSeqNum⟩ : Record) ∈
      (newIterator (put newMemTable [97] [49] 1)).yields
        (put (put newMemTable [97] [49] 1) [98] [50]
          (put newMemTable [97] [49] 1).nextSeqNum).skipList :=
  ⟨rfl, newIterator_sees_next_put _ [98] [50] rfl⟩

end Kevo.Memtable
