import Kevo.Memtable.Concurrency

/-! Versions by sequence number. The skip list keeps its records ordered, key ascending and, for one
key, sequence number descending (`insertRecord_ordered`), and `Find` returns a key's first record,
its newest version. So whatever order the sequence numbers of the `Put` and `Delete` calls come in,
a memtable answers `Get` for each key from the version with the highest sequence number, the later
call among versions under the same number (`get_writes`), and not from the last call. -/

namespace Kevo.Memtable

/-- The call a write makes on a memtable. -/
def Write.call (m : MemTable) : Write → MemTable
  | .put key value seqNum => Memtable.put m key value seqNum
  | .delete key seqNum => Memtable.delete m key seqNum

theorem Write.call_eq : Write.call = fun m w => insertEntry m w.record := by
  funext m w; cases w <;> rfl

/-- Of the version `acc` of `key` seen so far and the record `r`, the one a reader should see: `r`
when it is of `key` and at or above `acc`'s sequence number. -/
def newer (key : Bytes) (acc : Option Record) (r : Record) : Option Record :=
  if r.key = key ∧ acc.all (fun a => decide (a.seqNum ≤ r.seqNum)) = true then some r else acc

/-- The version of `key` among records written in order: the one with the highest sequence number,
the later of two under the same number. -/
def newestVersion (key : Bytes) (records : List Record) : Option Record :=
  records.foldl (newer key) none

theorem insertEntry_ordered {m : MemTable} (e : Record) (hl : Ordered m.skipList.records) :
    Ordered (insertEntry m e).skipList.records := by
  unfold insertEntry addRecord
  split
  · exact hl
  · exact insertRecord_ordered e hl

/-- One write on an ordered, mutable memtable: what `Find` returns afterwards is the newer of what
it returned before and the record written. -/
theorem find_insertEntry {m : MemTable} (hm : m.immutable = false)
    (hl : Ordered m.skipList.records) (r : Record) (key : Bytes) :
    (insertEntry m r).skipList.find key = newer key (m.skipList.find key) r := by
  have hrec : (insertEntry m r).skipList.find key =
      (insertRecord r m.skipList.records).find? (·.key = key) := by
    rw [SkipList.find, insertEntry_records r hm]
  rw [hrec, newer]
  by_cases hk : r.key = key
  · rcases hf : m.skipList.find key with _ | x
    · rw [if_pos ⟨hk, rfl⟩]
      exact find_insertRecord_of_le _ hk fun y hy hyk =>
        absurd hyk (by simpa using List.find?_eq_none.mp hf y hy)
    · by_cases hle : x.seqNum ≤ r.seqNum
      · rw [if_pos ⟨hk, by simpa using hle⟩]
        exact find_insertRecord_of_le _ hk fun y hy hyk =>
          UInt64.le_trans (find?_max hl hf y hy hyk) hle
      · rw [if_neg (by simp [hle])]
        exact find_insertRecord_older hl hk hf (UInt64.not_le.mp hle)
  · rw [if_neg fun h => hk h.1]
    exact find_insertRecord_of_ne _ hk

/-- A run of writes on an ordered, mutable memtable. -/
theorem find_foldl_insertEntry (key : Bytes) (records : List Record) {m : MemTable}
    (hm : m.immutable = false) (hl : Ordered m.skipList.records) :
    (records.foldl insertEntry m).skipList.find key =
      records.foldl (newer key) (m.skipList.find key) := by
  induction records generalizing m with
  | nil => rfl
  | cons r rest ih =>
    rw [List.foldl_cons, List.foldl_cons, ih (by rw [insertEntry_immutable, hm])
      (insertEntry_ordered r hl), find_insertEntry hm hl]

theorem foldl_call (writes : List Write) :
    writes.foldl Write.call newMemTable = (writes.map Write.record).foldl insertEntry newMemTable := by
  rw [List.foldl_map, Write.call_eq]

/-- Versions by sequence number: whatever the order of the sequence numbers of the `Put` and
`Delete` calls that a new memtable takes, `Get` answers each key from its version with the highest
sequence number: its value for a Put, deleted for a Delete, and absent for a key never written.
Among versions under the same number the later call wins, because `insertRecord` splices a record
before the first equal one, a choice the sources leave open. -/
theorem get_writes (writes : List Write) (key : Bytes) :
    get (writes.foldl Write.call newMemTable) key =
      match newestVersion key (writes.map Write.record) with
      | none => .absent
      | some r => if r.valueType = .deletion then .deleted else .value r.value := by
  rw [get, foldl_call, @find_foldl_insertEntry key _ newMemTable rfl List.Pairwise.nil]
  rfl

/-- A Put under a lower sequence number after one under a higher number stays hidden. -/
example : get ([Write.put [1] [2] 5, .put [1] [3] 4].foldl Write.call newMemTable) [1] =
    .value [2] := by
  decide

/-! ### `Contains` -/

/-- `MemTable.Contains`. Both of its branches, with and without the read lock, look the key up in
the skip list in the same way. -/
def contains (m : MemTable) (key : Bytes) : Bool := (m.skipList.find key).isSome

theorem isSome_foldl_newer (key : Bytes) (records : List Record) (acc : Option Record) :
    (records.foldl (newer key) acc).isSome =
      (acc.isSome || records.any fun r => decide (r.key = key)) := by
  induction records generalizing acc with
  | nil => simp
  | cons r rest ih =>
    rw [List.foldl_cons, ih, newer]
    by_cases hk : r.key = key
    · split
      · simp [hk]
      · rename_i h
        cases acc <;> simp_all
    · simp [hk]

/-- `Contains` answers whether a key was ever written, a Delete included: after `Put` and `Delete`
calls on a new memtable, `Contains(key)` is true exactly when one of the calls was for `key`, so a
key whose only write is a Delete is contained though `Get` reports it deleted. -/
theorem contains_writes (writes : List Write) (key : Bytes) :
    contains (writes.foldl Write.call newMemTable) key =
      writes.any fun w => decide (w.record.key = key) := by
  rw [contains, foldl_call, @find_foldl_insertEntry key _ newMemTable rfl List.Pairwise.nil,
    isSome_foldl_newer]
  induction writes <;> simp_all [newMemTable, SkipList.empty, SkipList.find]

example : contains ([Write.delete [1] 3].foldl Write.call newMemTable) [1] = true ∧
    get ([Write.delete [1] 3].foldl Write.call newMemTable) [1] = .deleted := by
  decide

end Kevo.Memtable
