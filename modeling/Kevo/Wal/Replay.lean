import Kevo.Wal.Reader
import Kevo.Wal.Sequence

/-! The log of a run read back. What each call adds to the log is the frames of records that read
back as the entries the call wrote, whatever follows them (`call_readBack`), and so along a run
from `NewWAL` in which no failing call changed the log, the log reads back as exactly the entries
of the append calls that succeeded, in call order (`readEntries_log`). A crash that keeps only a
prefix of the log loses entries at its end only, and none of the calls whose bytes it keeps whole
(`readEntries_log_take`). -/

namespace Kevo.Wal

/-- The calls whose entries the reader gives back: appends of keys and values shorter than `2^32`
bytes, whose lengths a payload holds in four bytes, and every call but `AppendExactBytes`, whose
bytes are the caller's. -/
def Op.Readable : Op → Prop
  | .append _ key value | .appendWithSequence _ key value _ =>
    key.length < 2 ^ 32 ∧ value.length < 2 ^ 32
  | .appendExactBytes _ _ => False
  | _ => True

instance : (op : Op) → Decidable op.Readable
  | .append _ key value | .appendWithSequence _ key value _ =>
    inferInstanceAs (Decidable (key.length < 2 ^ 32 ∧ value.length < 2 ^ 32))
  | .appendExactBytes _ _ => isFalse id
  | .appendBatch _ | .appendBatchWithSequence .. | .updateNextSequence _ | .sync | .setRotating
  | .setActive | .close => isTrue trivial

/-- The entries that an append call wrote when it returned `s`, as the reader gives them back. -/
def Op.entries : Op → UInt64 → List Entry
  | .append t k v, s | .appendWithSequence t k v _, s => [Entry.logged ⟨s, t, k, v⟩]
  | .appendBatch es, s | .appendBatchWithSequence es _, s =>
    es.map fun e => Entry.logged ⟨s, e.type, e.key, e.value⟩
  | _, _ => []

/-- The entries that a call wrote, by what it returned: its entries when it returned a sequence
number, none otherwise. -/
def Op.addedEntries (op : Op) : Outcome (Option UInt64) → List Entry
  | .ok (some s) => op.entries s
  | _ => []

/-- The entries that the calls `ops` from `w` wrote, in call order. -/
def writtenEntries (w : WAL) : List Op → List Entry
  | [] => []
  | op :: ops => op.addedEntries (op.call w).1 ++ writtenEntries (op.call w).2 ops

/-! ### Bytes that read back -/

/-- Bytes as the reader sees them: the frames of records whose payloads fit a header's length
field, reading back as `entries` whatever follows them. -/
structure ReadBack (bytes : Bytes) (entries : List Entry) : Prop where
  frames : ∃ recs : List (UInt8 × Bytes), (∀ r ∈ recs, r.2.length < 2 ^ 16) ∧
    bytes = (recs.map frame).flatten
  read : ∀ tail, readEntries (bytes ++ tail) = entries ++ readEntries tail

theorem ReadBack.nil : ReadBack [] [] := ⟨⟨[], nofun, rfl⟩, fun _ => rfl⟩

theorem ReadBack.append {a b : Bytes} {ea eb : List Entry} (ha : ReadBack a ea)
    (hb : ReadBack b eb) : ReadBack (a ++ b) (ea ++ eb) := by
  obtain ⟨⟨ra, hra, rfl⟩, hreada⟩ := ha
  obtain ⟨⟨rb, hrb, rfl⟩, hreadb⟩ := hb
  refine ⟨⟨ra ++ rb, fun r hr => ?_, by simp⟩, fun tail => ?_⟩
  · rcases List.mem_append.mp hr with hr | hr
    exacts [hra r hr, hrb r hr]
  · rw [List.append_assoc, hreada, hreadb, List.append_assoc]

theorem ReadBack.readEntries_eq {bytes : Bytes} {entries : List Entry}
    (h : ReadBack bytes entries) : readEntries bytes = entries := by
  simpa using h.read []

/-- Bytes that read back read, up to any cut, as a prefix of their entries. -/
theorem ReadBack.take {bytes : Bytes} {entries : List Entry} (h : ReadBack bytes entries)
    (n : Nat) : readEntries (bytes.take n) <+: entries := by
  have hall := h.readEntries_eq
  obtain ⟨⟨recs, hfit, rfl⟩, -⟩ := h
  exact hall ▸ readEntries_take_frames recs hfit n

theorem readBack_entryRecords (entryType : UInt8) (seqNum : UInt64) (key value : Bytes)
    (hk : key.length < 2 ^ 32) (hv : value.length < 2 ^ 32) :
    ReadBack ((entryRecords entryType seqNum key value).map frame).flatten
      [Entry.logged ⟨seqNum, entryType, key, value⟩] :=
  ⟨⟨_, fun r hr => frame_fits (entryRecords_fits _ _ _ _ r hr), rfl⟩,
    readEntries_entryRecords _ _ _ _ hk hv⟩

theorem readBack_batchRecords (entries : List Entry) (seqNum : UInt64)
    (hfit : ∀ e ∈ entries, entrySize e.type e.key e.value ≤ maxRecordSize) :
    ReadBack ((batchRecords entries seqNum).map frame).flatten
      (entries.map fun e => Entry.logged ⟨seqNum, e.type, e.key, e.value⟩) :=
  ⟨⟨_, batchRecords_fit hfit, rfl⟩, readEntries_batchRecords _ _ hfit⟩

/-! ### Calls and runs -/

theorem map_some_eq_ok {o : Outcome UInt64} {s : UInt64} (h : o.map some = .ok (some s)) :
    o = .ok s := by
  cases o <;> simp_all [Outcome.map]

theorem ReadBack.of_ok {op : Op} {o : Outcome (Option UInt64)}
    (h : ∀ s, o = .ok (some s) → ReadBack (op.records s) (op.entries s)) :
    ReadBack (op.added o) (op.addedEntries o) := by
  rcases o with (_ | s) | e | m
  · exact .nil
  · exact h s rfl
  all_goals exact .nil

/-- What a call adds to the log reads back as the entries it wrote. -/
theorem call_readBack (op : Op) (w : WAL) (hop : op.Readable) :
    ReadBack (op.added (op.call w).1) (op.addedEntries (op.call w).1) := by
  refine .of_ok fun s hs => ?_
  cases op with
  | append t k v | appendWithSequence t k v _ => exact readBack_entryRecords t s k v hop.1 hop.2
  | appendBatch es => exact readBack_batchRecords es s (appendBatch_fit (map_some_eq_ok hs))
  | appendBatchWithSequence es _ =>
    exact readBack_batchRecords es s (appendBatchWithSequence_fit (map_some_eq_ok hs))
  | appendExactBytes => exact hop.elim
  | updateNextSequence | sync | setRotating | setActive | close => exact .nil

/-- What a run adds to the log reads back as the entries its calls wrote, in call order. -/
theorem run_readBack (w : WAL) (ops : List Op) (hops : ∀ op ∈ ops, op.Readable) :
    ReadBack (written w ops) (writtenEntries w ops) := by
  induction ops generalizing w with
  | nil => exact .nil
  | cons op ops ih =>
    exact (call_readBack op w (hops op (List.mem_cons_self _ _))).append
      (ih _ fun o ho => hops o (List.mem_cons_of_mem _ ho))

theorem written_append (w : WAL) (a b : List Op) :
    written w (a ++ b) = written w a ++ written (run w a).2 b := by
  induction a generalizing w with
  | nil => rfl
  | cons op a ih => rw [List.cons_append, written, written, ih, run, List.append_assoc]

theorem writtenEntries_append (w : WAL) (a b : List Op) :
    writtenEntries w (a ++ b) = writtenEntries w a ++ writtenEntries (run w a).2 b := by
  induction a generalizing w with
  | nil => rfl
  | cons op a ih =>
    rw [List.cons_append, writtenEntries, writtenEntries, ih, run, List.append_assoc]

/-! ### The log -/

/-- A run in which no failing call changed the log adds what the calls added, so from a log that
reads back as `old` it leaves one that reads back as `old` and then the entries the calls wrote. -/
theorem run_readBack_from {w : WAL} {old : List Entry} (hold : ReadBack w.log old) (ops : List Op)
    (hinv : ClosedFlushed w) (hclean : NoFailedWrite w ops) (hops : ∀ op ∈ ops, op.Readable) :
    ReadBack (run w ops).2.log (old ++ writtenEntries w ops) := by
  rw [(run_log w ops hclean hinv).2]
  exact hold.append (run_readBack w ops hops)

/-- The log after a run from `NewWAL` in which no failing call changed it is what the calls added,
so it reads back as the entries they wrote. -/
theorem run_log_readBack (cfg : Config) (answers : List Answer) (ops : List Op)
    (hclean : NoFailedWrite (newWAL cfg answers) ops) (hops : ∀ op ∈ ops, op.Readable) :
    ReadBack (run (newWAL cfg answers) ops).2.log (writtenEntries (newWAL cfg answers) ops) :=
  @run_readBack_from (newWAL cfg answers) [] .nil ops (fun h => nomatch h) hclean hops

/-- The log read back: in a run from `NewWAL` in which no failing call changed the log, no call is
an `AppendExactBytes`, and every appended key and value is shorter than `2^32` bytes, the log reads
back as exactly the entries of the append calls that succeeded, in call order: a single append's
entry under the number it returned, a batch's entries under the batch's number, a Delete without
its value. -/
theorem readEntries_log (cfg : Config) (answers : List Answer) (ops : List Op)
    (hclean : NoFailedWrite (newWAL cfg answers) ops) (hops : ∀ op ∈ ops, op.Readable) :
    readEntries (run (newWAL cfg answers) ops).2.log = writtenEntries (newWAL cfg answers) ops :=
  (run_log_readBack cfg answers ops hclean hops).readEntries_eq

theorem readEntries_log_put_delete_batch :
    NoFailedWrite (newWAL ⟨.syncNone, 0⟩ [])
        [.append opTypePut [1] [2], .sync, .appendBatch [⟨0, opTypeDelete, [1], [5]⟩]] ∧
      (∀ op ∈ [Op.append opTypePut [1] [2], .sync, .appendBatch [⟨0, opTypeDelete, [1], [5]⟩]],
        op.Readable) ∧
      readEntries (run (newWAL ⟨.syncNone, 0⟩ [])
          [.append opTypePut [1] [2], .sync, .appendBatch [⟨0, opTypeDelete, [1], [5]⟩]]).2.log =
        writtenEntries (newWAL ⟨.syncNone, 0⟩ [])
          [.append opTypePut [1] [2], .sync, .appendBatch [⟨0, opTypeDelete, [1], [5]⟩]] :=
  ⟨by decide, by decide, readEntries_log _ _ _ (by decide) (by decide)⟩

/-- A torn log loses entries at its end only: in a run from `NewWAL` as in `readEntries_log`, a
prefix of the log, as a crash may leave it, reads back as a prefix of the entries that the
successful append calls wrote, and it keeps all the entries of the first calls `done` when it keeps
all the bytes they added. -/
theorem readEntries_log_take (cfg : Config) (answers : List Answer) (ops done : List Op)
    (hclean : NoFailedWrite (newWAL cfg answers) ops) (hops : ∀ op ∈ ops, op.Readable)
    (hdone : done <+: ops) (n : Nat) (hn : (written (newWAL cfg answers) done).length ≤ n) :
    writtenEntries (newWAL cfg answers) done <+:
        readEntries ((run (newWAL cfg answers) ops).2.log.take n) ∧
      readEntries ((run (newWAL cfg answers) ops).2.log.take n) <+:
        writtenEntries (newWAL cfg answers) ops := by
  obtain ⟨-, hlog⟩ := run_log _ ops hclean fun h => nomatch h
  have hlog' : (run (newWAL cfg answers) ops).2.log = written (newWAL cfg answers) ops := hlog
  refine ⟨?_, hlog' ▸ (run_readBack _ ops hops).take n⟩
  obtain ⟨rest, rfl⟩ := hdone
  rw [hlog', written_append, List.take_append_eq_append_take, List.take_of_length_le hn,
    (run_readBack _ done fun op ho => hops op (List.mem_append_left _ ho)).read]
  exact List.prefix_append _ _

theorem readEntries_log_take_torn :
    NoFailedWrite (newWAL ⟨.syncNone, 0⟩ []) [.append opTypePut [1] [2], .append opTypePut [3] [4]] ∧
      (∀ op ∈ [Op.append opTypePut [1] [2], .append opTypePut [3] [4]], op.Readable) ∧
      [Op.append opTypePut [1] [2]] <+: [.append opTypePut [1] [2], .append opTypePut [3] [4]] ∧
      (written (newWAL ⟨.syncNone, 0⟩ []) [.append opTypePut [1] [2]]).length ≤ 30 ∧
      (writtenEntries (newWAL ⟨.syncNone, 0⟩ []) [.append opTypePut [1] [2]] <+:
          readEntries ((run (newWAL ⟨.syncNone, 0⟩ [])
            [.append opTypePut [1] [2], .append opTypePut [3] [4]]).2.log.take 30) ∧
        readEntries ((run (newWAL ⟨.syncNone, 0⟩ [])
            [.append opTypePut [1] [2], .append opTypePut [3] [4]]).2.log.take 30) <+:
          writtenEntries (newWAL ⟨.syncNone, 0⟩ [])
            [.append opTypePut [1] [2], .append opTypePut [3] [4]]) :=
  ⟨by decide, by decide, ⟨[.append opTypePut [3] [4]], rfl⟩, by decide,
    readEntries_log_take _ _ _ _ (by decide) (by decide) ⟨[.append opTypePut [3] [4]], rfl⟩ 30
      (by decide)⟩

/-! ### `GetEntriesFrom` -/

/-- Modelled from the spec for its reader: `getEntriesFromFile` on the bytes of a file, the entries
that the reader gives back at or past `minSequence`, in order. -/
def getEntriesFromFile (data : Bytes) (minSequence : UInt64) : List Entry :=
  (readEntries data).filter fun e => e.sequenceNumber ≥ minSequence

/-- `GetEntriesFrom`, with `older` the bytes of the directory's other WAL files, oldest first: on a
closed WAL an error, for a number at or past `nextSequence` no entries, and otherwise, after a flush
of the buffer, the entries at or past the number of the older files and then of the WAL's own. -/
def getEntriesFrom (w : WAL) (older : List Bytes) (sequenceNumber : UInt64) :
    Outcome (List Entry) × WAL :=
  if w.status = .closed then (.error .walClosed, w)
  else if sequenceNumber ≥ w.nextSequence then (.ok [], w)
  else
    match w.writer.flush w.file with
    | (some e, wr, f) => (.error (.flushBuffer e), { w with writer := wr, file := f })
    | (none, wr, f) =>
      (.ok ((older.map fun data => getEntriesFromFile data sequenceNumber).flatten ++
        getEntriesFromFile f.data sequenceNumber), { w with writer := wr, file := f })

theorem Op.not_wraps {op : Op} (h : op.Readable) : ¬op.Wraps := by
  cases op <;> simp_all [Op.Wraps, Op.Readable]

/-- An entry that a call wrote is under the number the call handed out. -/
theorem mem_addedEntries {op : Op} {r : Outcome (Option UInt64)} {e : Entry}
    (he : e ∈ op.addedEntries r) : op.handsOut r = some e.sequenceNumber := by
  rcases r with (_ | s) | _ | _ <;> simp only [Op.addedEntries, List.not_mem_nil] at he
  cases op with
  | append | appendWithSequence =>
    simp only [Op.entries, List.mem_singleton] at he
    subst he; rfl
  | appendBatch es | appendBatchWithSequence es _ =>
    simp only [Op.entries, List.mem_map] at he
    obtain ⟨x, hx, rfl⟩ := he
    cases es with
    | nil => cases hx
    | cons => rfl
  | appendExactBytes | updateNextSequence | sync | setRotating | setActive | close => cases he

/-- Every entry that a run wrote is under a number that a call of the run handed out. -/
theorem mem_writtenEntries {w : WAL} {ops : List Op} {e : Entry} (he : e ∈ writtenEntries w ops) :
    e.sequenceNumber ∈ handedOut w ops := by
  induction ops generalizing w with
  | nil => cases he
  | cons op ops ih =>
    rcases List.mem_append.mp he with he | he
    · exact List.mem_append_left _ (Option.mem_toList.mpr (mem_addedEntries he))
    · exact List.mem_append_right _ (ih he)

/-- `GetEntriesFrom` after a run: in a run from `NewWAL` as in `readEntries_log`, with no other WAL
file in the directory, a `GetEntriesFrom` that succeeds returns exactly the entries of the
successful append calls at or past the number asked for, in call order. Its early return for a
number at or past `nextSequence` loses none, since every number a call handed out is below it. -/
theorem getEntriesFrom_log (cfg : Config) (answers : List Answer) (ops : List Op)
    (hclean : NoFailedWrite (newWAL cfg answers) ops) (hops : ∀ op ∈ ops, op.Readable)
    (sequenceNumber : UInt64) (entries : List Entry)
    (h : (getEntriesFrom (run (newWAL cfg answers) ops).2 [] sequenceNumber).1 = .ok entries) :
    entries = (writtenEntries (newWAL cfg answers) ops).filter
      fun e => e.sequenceNumber ≥ sequenceNumber := by
  have hread := (run_log_readBack cfg answers ops hclean hops).readEntries_eq
  have hbelow := (run_raised (newWAL cfg answers) ops fun op ho => Op.not_wraps (hops op ho)).2
  generalize (run (newWAL cfg answers) ops).2 = w at hread hbelow h
  unfold getEntriesFrom at h
  by_cases hclosed : w.status = .closed
  · rw [if_pos hclosed] at h; cases h
  rw [if_neg hclosed] at h
  by_cases hpast : sequenceNumber ≥ w.nextSequence
  · rw [if_pos hpast] at h
    cases h
    refine (List.filter_eq_nil_iff.mpr fun e he hge => ?_).symm
    have hlt := hbelow _ (mem_writtenEntries he)
    have hge' : sequenceNumber.toNat ≤ e.sequenceNumber.toNat := of_decide_eq_true hge
    have hpast' : w.nextSequence.toNat ≤ sequenceNumber.toNat := hpast
    omega
  rw [if_neg hpast] at h
  have hdata := @Writer.flush_data w.writer w.file
  rcases hf : w.writer.flush w.file with ⟨_ | e, wr, f⟩ <;> rw [hf] at h hdata <;> cases h
  have hdata' : f.data = w.log := hdata rfl
  simp only [List.map_nil, List.flatten_nil, List.nil_append, getEntriesFromFile, hdata', hread]

set_option maxRecDepth 40000 in
theorem getEntriesFrom_log_second :
    NoFailedWrite (newWAL ⟨.syncNone, 0⟩ []) [.append opTypePut [1] [2], .append opTypePut [3] [4]] ∧
      (∀ op ∈ [Op.append opTypePut [1] [2], .append opTypePut [3] [4]], op.Readable) ∧
      (getEntriesFrom (run (newWAL ⟨.syncNone, 0⟩ [])
          [.append opTypePut [1] [2], .append opTypePut [3] [4]]).2 [] 2).1 =
        .ok [⟨2, opTypePut, [3], [4]⟩] ∧
      [⟨2, opTypePut, [3], [4]⟩] = (writtenEntries (newWAL ⟨.syncNone, 0⟩ [])
          [.append opTypePut [1] [2], .append opTypePut [3] [4]]).filter
        fun e => e.sequenceNumber ≥ 2 :=
  ⟨by decide, by decide, by decide, getEntriesFrom_log _ _ _ (by decide) (by decide) _ _ (by decide)⟩

end Kevo.Wal
