import Kevo.Memtable.MemTable

/-! Concurrent writers of one memtable. Each `Put` or `Delete` runs in four steps: it takes the
mutex `mu`, reads the flag `immutable`, inserts its record and updates `nextSeqNum` (only when the
flag was clear), and releases `mu`. `SetImmutable` is one atomic store that does not take `mu`. A
schedule is a list of such steps, each of one thread or of `SetImmutable`, run one after the other.
A writer that has read the flag before `SetImmutable` still inserts after it
(`setImmutable_between_check_and_insert`). -/

namespace Kevo.Memtable

/-- The call a writer thread makes: `Put` or `Delete` with its arguments. -/
inductive Write where
  | put (key value : Bytes) (seqNum : UInt64)
  | delete (key : Bytes) (seqNum : UInt64)
  deriving DecidableEq, Repr

/-- The record that a write inserts. -/
def Write.record : Write → Record
  | .put key value seqNum => ⟨key, value, .value, seqNum⟩
  | .delete key seqNum => ⟨key, [], .deletion, seqNum⟩

/-- Where a writer thread is in the body of `Put` or `Delete`: before `mu.Lock`, holding `mu`
before the check, about to insert, about to release `mu`, or returned. -/
inductive Pc where
  | start
  | locked
  | inserting
  | unlocking
  | done
  deriving DecidableEq, Repr

/-- A writer thread: its call and where it is. -/
structure Thread where
  write : Write
  pc : Pc
  deriving DecidableEq, Repr

/-- The memtable, the thread holding `mu`, and the writer threads. -/
structure System where
  table : MemTable
  holder : Option Nat
  threads : List Thread
  deriving DecidableEq, Repr

/-- One step of a schedule: the next step of thread `i`, or `SetImmutable`. -/
inductive Action where
  | thread (i : Nat)
  | setImmutable
  deriving DecidableEq, Repr

/-- The next step of thread `i`, when it can take one: `mu.Lock` waits while another thread holds
`mu`, and a returned thread takes no step. -/
def stepThread (s : System) (i : Nat) : Option System :=
  match s.threads[i]? with
  | none => none
  | some t =>
    let go (pc : Pc) (s' : System) : System := { s' with threads := s.threads.set i ⟨t.write, pc⟩ }
    match t.pc with
    | .start =>
      match s.holder with
      | none => some (go .locked { s with holder := some i })
      | some _ => none
    | .locked => some (go (if s.table.immutable then .unlocking else .inserting) s)
    | .inserting => some (go .unlocking { s with table := addRecord s.table t.write.record })
    | .unlocking => some (go .done { s with holder := none })
    | .done => none

/-- One step of a schedule. -/
def step (s : System) : Action → Option System
  | .thread i => stepThread s i
  | .setImmutable => some { s with table := setImmutable s.table }

/-- A schedule run from `s`, when every step of it can be taken. -/
def runSchedule (s : System) : List Action → Option System
  | [] => some s
  | a :: rest => (step s a).bind fun s' => runSchedule s' rest

@[simp] theorem insertRecord_length (r : Record) (l : List Record) :
    (insertRecord r l).length = l.length + 1 := by
  induction l with
  | nil => rfl
  | cons x xs ih => unfold insertRecord; split <;> simp [ih]

/-- A writer that has read the flag before `SetImmutable` completes still inserts its record
afterwards: from a mutable memtable with one writer, the schedule lock, check, `SetImmutable`,
insert, unlock ends with an immutable memtable whose record set grew after `SetImmutable`
returned. -/
theorem setImmutable_between_check_and_insert (m : MemTable) (w : Write)
    (hm : m.immutable = false) :
    runSchedule ⟨m, none, [⟨w, .start⟩]⟩ [.thread 0, .thread 0, .setImmutable] =
      some ⟨setImmutable m, some 0, [⟨w, .inserting⟩]⟩ ∧
    runSchedule ⟨m, none, [⟨w, .start⟩]⟩
        [.thread 0, .thread 0, .setImmutable, .thread 0, .thread 0] =
      some ⟨addRecord (setImmutable m) w.record, none, [⟨w, .done⟩]⟩ ∧
    (addRecord (setImmutable m) w.record).skipList.records.length =
      (setImmutable m).skipList.records.length + 1 := by
  refine ⟨?_, ?_, by simp [addRecord, SkipList.insert]⟩ <;>
    simp [runSchedule, step, stepThread, hm]

theorem setImmutable_between_check_and_insert_put :
    newMemTable.immutable = false ∧
    runSchedule ⟨newMemTable, none, [⟨.put [1] [2] 1, .start⟩]⟩
        [.thread 0, .thread 0, .setImmutable] =
      some ⟨setImmutable newMemTable, some 0, [⟨.put [1] [2] 1, .inserting⟩]⟩ ∧
    runSchedule ⟨newMemTable, none, [⟨.put [1] [2] 1, .start⟩]⟩
        [.thread 0, .thread 0, .setImmutable, .thread 0, .thread 0] =
      some ⟨addRecord (setImmutable newMemTable) (Write.put [1] [2] 1).record, none,
        [⟨.put [1] [2] 1, .done⟩]⟩ ∧
    (addRecord (setImmutable newMemTable) (Write.put [1] [2] 1).record).skipList.records.length =
      (setImmutable newMemTable).skipList.records.length + 1 :=
  ⟨rfl, setImmutable_between_check_and_insert newMemTable (.put [1] [2] 1) rfl⟩

end Kevo.Memtable
