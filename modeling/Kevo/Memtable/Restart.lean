import Kevo.Memtable.Recovery
import Kevo.Wal.Reuse

/-! A restart after a clean run: the WAL's log read back and replayed by `RecoverFromWAL`. Along a
run of calls that let the WAL number their entries (`Append`, `AppendBatch` of distinct keys, and
the calls that write nothing), each key's entries come in increasing sequence order
(`writtenEntries_increasing`), so the memtables that a successful recovery from the log builds
answer every key as the acknowledged Put and Delete entries at or below `MaxSequenceNumber`, applied
in call order, would (`recoverFromWAL_log`). -/

namespace Kevo.Wal

/-- A call whose entries the WAL numbers itself: `Append`, `AppendBatch` of entries with distinct
keys, and every call that writes no entry. -/
def Op.SelfNumbered : Op → Prop
  | .append .. => True
  | .appendBatch es => es.Pairwise fun a b => a.key ≠ b.key
  | .appendWithSequence .. | .appendBatchWithSequence .. | .appendExactBytes .. => False
  | .updateNextSequence _ | .sync | .setRotating | .setActive | .close => True

instance : (op : Op) → Decidable op.SelfNumbered
  | .append .. => isTrue trivial
  | .appendBatch es => inferInstanceAs (Decidable (es.Pairwise fun a b : Entry => a.key ≠ b.key))
  | .appendWithSequence .. | .appendBatchWithSequence .. | .appendExactBytes .. => isFalse id
  | .updateNextSequence _ | .sync | .setRotating | .setActive | .close => isTrue trivial

theorem Op.SelfNumbered.not_wraps {op : Op} (hop : op.SelfNumbered) : ¬op.Wraps := by
  cases op <;> simp_all [Op.Wraps, Op.SelfNumbered]

/-- The entries of a self-numbered call are all under the `nextSequence` it found. -/
theorem Op.SelfNumbered.addedEntries {op : Op} (hop : op.SelfNumbered) {w : WAL} {e : Entry}
    (he : e ∈ op.addedEntries (op.call w).1) : e.sequenceNumber = w.nextSequence := by
  have hs := handsOut_some (mem_addedEntries he)
  rw [hs] at he
  cases op with
  | append => exact append_ok (map_some_eq_ok hs)
  | appendBatch es =>
    have hne : es ≠ [] := by rintro rfl; cases he
    exact appendBatch_ok hne (map_some_eq_ok hs)
  | appendWithSequence | appendBatchWithSequence | appendExactBytes => exact hop.elim
  | updateNextSequence | sync | setRotating | setActive | close => cases he

/-- The entries of one self-numbered call have distinct keys. -/
theorem Op.SelfNumbered.addedEntries_pairwise {op : Op} (hop : op.SelfNumbered)
    (r : Outcome (Option UInt64)) :
    (op.addedEntries r).Pairwise fun a b => a.key = b.key → a.sequenceNumber < b.sequenceNumber := by
  rcases r with (_ | s) | _ | _
  all_goals try exact List.Pairwise.nil
  cases op with
  | append => exact List.pairwise_singleton _ _
  | appendBatch es =>
    exact List.pairwise_map.mpr (List.Pairwise.imp (fun hne hk => absurd hk hne) hop)
  | appendWithSequence | appendBatchWithSequence | appendExactBytes => exact hop.elim
  | updateNextSequence | sync | setRotating | setActive | close => exact List.Pairwise.nil

/-- Along a run of self-numbered calls, each key's entries come in increasing sequence order, all
at or past the `nextSequence` the run started from. -/
theorem writtenEntries_increasing (w : WAL) (ops : List Op) (hops : ∀ op ∈ ops, op.SelfNumbered) :
    (writtenEntries w ops).Pairwise
        (fun a b => a.key = b.key → a.sequenceNumber < b.sequenceNumber) ∧
      ∀ e ∈ writtenEntries w ops, w.nextSequence.toNat ≤ e.sequenceNumber.toNat := by
  induction ops generalizing w with
  | nil => exact ⟨List.Pairwise.nil, nofun⟩
  | cons op ops ih =>
    have hop := hops op (List.mem_cons_self _ _)
    have hseq := call_sequenced op w hop.not_wraps
    obtain ⟨hpair, hlow⟩ := ih (op.call w).2 fun o ho => hops o (List.mem_cons_of_mem _ ho)
    refine ⟨List.pairwise_append.mpr ⟨hop.addedEntries_pairwise _, hpair, fun a ha b hb _ => ?_⟩,
      fun e he => ?_⟩
    · exact (hseq.above _ (mem_addedEntries ha)).trans_le (hlow b hb)
    · rcases List.mem_append.mp he with he | he
      · rw [hop.addedEntries he]
      · exact hseq.mono.trans (hlow e he)

end Kevo.Wal

namespace Kevo.Memtable

/-- What a successful `RecoverFromWAL` returns is the state of a replay of all its entries. -/
theorem recoverFromWAL_replayed (size : Record → Nat) (opts : RecoveryOptions) {entries : List Wal.Entry}
    (hinc : KeySeqIncreasing opts entries) {tables : List MemTable} {maxSeq : UInt64}
    (hok : recoverFromWAL size opts entries = .ok (tables, maxSeq)) :
    ∃ st, Replayed opts entries st ∧ st.memTables = tables ∧ st.maxSeqNum = maxSeq := by
  unfold recoverFromWAL at hok
  rcases hr : replayWALDir (entryHandler size opts) ⟨[], newMemTable, 0⟩ entries with err | st <;>
    rw [hr] at hok
  · cases hok
  · cases hok
    exact ⟨st, List.nil_append entries ▸
      replayWALDir_replayed size opts entries [] _ st (replayed_init opts) hinc hr, rfl, rfl⟩

/-- A restart recovers what was acknowledged: after a run from `NewWAL` in which no failing call
changed the log, made of `Append` calls, `AppendBatch` calls of distinct keys and calls that write
nothing, with keys and values shorter than `2^32` bytes, a `RecoverFromWAL` over the log read back
that succeeds gives memtables that, read newest first, answer every key as the acknowledged Put and
Delete entries at or below `MaxSequenceNumber`, applied in call order to an empty map, would, and
returns the largest of their sequence numbers. -/
theorem recoverFromWAL_log (cfg : Wal.Config) (answers : List Wal.Answer) (ops : List Wal.Op)
    (hclean : Wal.NoFailedWrite (Wal.newWAL cfg answers) ops)
    (hops : ∀ op ∈ ops, op.Readable ∧ op.SelfNumbered) (size : Record → Nat)
    (opts : RecoveryOptions) (tables : List MemTable) (maxSeq : UInt64)
    (hok : recoverFromWAL size opts (Wal.readEntries (Wal.run (Wal.newWAL cfg answers) ops).2.log) =
      .ok (tables, maxSeq)) :
    (∀ key, lookupNewestFirst tables key =
        expected opts (Wal.writtenEntries (Wal.newWAL cfg answers) ops) key) ∧
      maxSeq.toNat = maxKept opts (Wal.writtenEntries (Wal.newWAL cfg answers) ops) := by
  rw [(Wal.run_log_readBack cfg answers ops hclean fun op ho => (hops op ho).1).readEntries_eq]
    at hok
  have hinc : KeySeqIncreasing opts (Wal.writtenEntries (Wal.newWAL cfg answers) ops) :=
    (Wal.writtenEntries_increasing _ ops fun op ho => (hops op ho).2).1.imp fun h hk _ _ => h hk
  obtain ⟨st, h, rfl, rfl⟩ := recoverFromWAL_replayed size opts hinc hok
  exact ⟨fun key => congrFun h.lookup key, h.maxSeq⟩

set_option maxRecDepth 40000 in
theorem recoverFromWAL_log_put_delete :
    Wal.NoFailedWrite (Wal.newWAL ⟨.syncNone, 0⟩ [])
        [.append Wal.opTypePut [1] [2], .append Wal.opTypeDelete [1] [],
          .append Wal.opTypePut [3] [4]] ∧
      (∀ op ∈ [Wal.Op.append Wal.opTypePut [1] [2], .append Wal.opTypeDelete [1] [],
          .append Wal.opTypePut [3] [4]], op.Readable ∧ op.SelfNumbered) ∧
      recoverFromWAL (fun _ => 1) ⟨100, 4, 1000⟩
          (Wal.readEntries (Wal.run (Wal.newWAL ⟨.syncNone, 0⟩ [])
            [.append Wal.opTypePut [1] [2], .append Wal.opTypeDelete [1] [],
              .append Wal.opTypePut [3] [4]]).2.log) =
        .ok ([⟨⟨[⟨[1], [], .deletion, 2⟩, ⟨[1], [2], .value, 1⟩, ⟨[3], [4], .value, 3⟩]⟩, 4,
          false⟩], 3) ∧
      ((∀ key, lookupNewestFirst
          [⟨⟨[⟨[1], [], .deletion, 2⟩, ⟨[1], [2], .value, 1⟩, ⟨[3], [4], .value, 3⟩]⟩, 4, false⟩]
          key =
        expected ⟨100, 4, 1000⟩ (Wal.writtenEntries (Wal.newWAL ⟨.syncNone, 0⟩ [])
          [.append Wal.opTypePut [1] [2], .append Wal.opTypeDelete [1] [],
            .append Wal.opTypePut [3] [4]]) key) ∧
        (3 : UInt64).toNat = maxKept ⟨100, 4, 1000⟩ (Wal.writtenEntries (Wal.newWAL ⟨.syncNone, 0⟩ [])
          [.append Wal.opTypePut [1] [2], .append Wal.opTypeDelete [1] [],
            .append Wal.opTypePut [3] [4]])) :=
  by
  have hlog : Wal.readEntries (Wal.run (Wal.newWAL ⟨.syncNone, 0⟩ [])
      [.append Wal.opTypePut [1] [2], .append Wal.opTypeDelete [1] [],
        .append Wal.opTypePut [3] [4]]).2.log =
      [⟨1, Wal.opTypePut, [1], [2]⟩, ⟨2, Wal.opTypeDelete, [1], []⟩, ⟨3, Wal.opTypePut, [3], [4]⟩] := by
    decide
  have hrec : recoverFromWAL (fun _ => 1) ⟨100, 4, 1000⟩ (Wal.readEntries (Wal.run
      (Wal.newWAL ⟨.syncNone, 0⟩ []) [.append Wal.opTypePut [1] [2], .append Wal.opTypeDelete [1] [],
        .append Wal.opTypePut [3] [4]]).2.log) =
      .ok ([⟨⟨[⟨[1], [], .deletion, 2⟩, ⟨[1], [2], .value, 1⟩, ⟨[3], [4], .value, 3⟩]⟩, 4,
        false⟩], 3) := by
    rw [hlog]; rfl
  exact ⟨by decide, by decide, hrec, recoverFromWAL_log _ _ _ (by decide) (by decide) _ _ _ _ hrec⟩

/-- A restart that reuses the latest WAL file recovers what both sessions acknowledged: when the
directory's older WAL files read back as entries that, followed by the entries `old` that the latest
file reads back as, come in increasing sequence order per key, all below `nextSeq`, then after
`ReuseWAL` under `nextSeq` and a run on it in which no failing call changed the log, made of `Append`
calls, `AppendBatch` calls of distinct keys and calls that write nothing (keys and values shorter
than `2^32` bytes), a `RecoverFromWAL` over the directory read back that succeeds gives memtables
that, read newest first, answer every key as the old entries and then the run's acknowledged Put
and Delete entries at or below `MaxSequenceNumber`, applied in that order to an empty map, would,
and returns the largest of their sequence numbers. -/
theorem recoverFromWAL_reuseWAL (cfg : Wal.Config) (walMaxSize : Int) (older : List Bytes)
    (latest : Bytes) (old : List Wal.Entry) (hold : Wal.ReadBack latest old) (opts : RecoveryOptions)
    (hinc : KeySeqIncreasing opts ((older.map Wal.readEntries).flatten ++ old)) (nextSeq : UInt64)
    (hnext : ∀ e ∈ (older.map Wal.readEntries).flatten ++ old, e.sequenceNumber < nextSeq)
    (answers : List Wal.Answer) (w : Wal.WAL)
    (hreuse : Wal.reuseWAL cfg walMaxSize (older ++ [latest]) nextSeq answers = some w)
    (ops : List Wal.Op) (hclean : Wal.NoFailedWrite w ops)
    (hops : ∀ op ∈ ops, op.Readable ∧ op.SelfNumbered) (size : Record → Nat)
    (tables : List MemTable) (maxSeq : UInt64)
    (hok : recoverFromWAL size opts ((older.map Wal.readEntries).flatten ++
      Wal.readEntries (Wal.run w ops).2.log) = .ok (tables, maxSeq)) :
    (∀ key, lookupNewestFirst tables key = expected opts
        ((older.map Wal.readEntries).flatten ++ old ++ Wal.writtenEntries w ops) key) ∧
      maxSeq.toNat =
        maxKept opts ((older.map Wal.readEntries).flatten ++ old ++ Wal.writtenEntries w ops) := by
  rw [(Wal.reuseWAL_run_readBack hold hreuse ops hclean fun op ho => (hops op ho).1).readEntries_eq,
    ← List.append_assoc] at hok
  obtain ⟨hpair, hlow⟩ := Wal.writtenEntries_increasing w ops fun op ho => (hops op ho).2
  rw [(Wal.reuseWAL_some hreuse).2.2] at hlow
  have hall : KeySeqIncreasing opts
      ((older.map Wal.readEntries).flatten ++ old ++ Wal.writtenEntries w ops) :=
    List.pairwise_append.mpr ⟨hinc, hpair.imp fun h hk _ _ => h hk,
      fun a ha b hb _ _ _ => Nat.lt_of_lt_of_le (hnext a ha) (hlow b hb)⟩
  obtain ⟨st, h, rfl, rfl⟩ := recoverFromWAL_replayed size opts hall hok
  exact ⟨fun key => congrFun h.lookup key, h.maxSeq⟩

/-- A second session on the reused WAL: a Delete of the first session's key and a Put of a new
one. -/
def secondSessionOps : List Wal.Op := [.append Wal.opTypeDelete [1] [], .append Wal.opTypePut [3] [4]]

/-- The one memtable that recovery rebuilds from both sessions. -/
def bothSessions : List MemTable :=
  [⟨⟨[⟨[1], [], .deletion, 2⟩, ⟨[1], [2], .value, 1⟩, ⟨[3], [4], .value, 3⟩]⟩, 4, false⟩]

set_option maxRecDepth 40000 in
theorem recoverFromWAL_reuseWAL_second_session :
    Wal.ReadBack Wal.firstSession [Wal.Entry.logged ⟨1, Wal.opTypePut, [1], [2]⟩] ∧
      KeySeqIncreasing ⟨100, 4, 1000⟩ ((([] : List Bytes).map Wal.readEntries).flatten ++
        [Wal.Entry.logged ⟨1, Wal.opTypePut, [1], [2]⟩]) ∧
      (∀ e ∈ (([] : List Bytes).map Wal.readEntries).flatten ++
          [Wal.Entry.logged ⟨1, Wal.opTypePut, [1], [2]⟩], e.sequenceNumber < 2) ∧
      Wal.reuseWAL ⟨.syncNone, 0⟩ 0 ([] ++ [Wal.firstSession]) 2 [] = some Wal.secondSession ∧
      Wal.NoFailedWrite Wal.secondSession secondSessionOps ∧
      (∀ op ∈ secondSessionOps, op.Readable ∧ op.SelfNumbered) ∧
      recoverFromWAL (fun _ => 1) ⟨100, 4, 1000⟩
          ((([] : List Bytes).map Wal.readEntries).flatten ++
            Wal.readEntries (Wal.run Wal.secondSession secondSessionOps).2.log) =
        .ok (bothSessions, 3) ∧
      ((∀ key, lookupNewestFirst bothSessions key = expected ⟨100, 4, 1000⟩
          ((([] : List Bytes).map Wal.readEntries).flatten ++
            [Wal.Entry.logged ⟨1, Wal.opTypePut, [1], [2]⟩] ++
            Wal.writtenEntries Wal.secondSession secondSessionOps) key) ∧
        (3 : UInt64).toNat = maxKept ⟨100, 4, 1000⟩
          ((([] : List Bytes).map Wal.readEntries).flatten ++
            [Wal.Entry.logged ⟨1, Wal.opTypePut, [1], [2]⟩] ++
            Wal.writtenEntries Wal.secondSession secondSessionOps)) := by
  have hold : Wal.ReadBack Wal.firstSession [Wal.Entry.logged ⟨1, Wal.opTypePut, [1], [2]⟩] :=
    Wal.readBack_entryRecords Wal.opTypePut 1 [1] [2] (by decide) (by decide)
  have hlog : Wal.readEntries (Wal.run Wal.secondSession secondSessionOps).2.log =
      [⟨1, Wal.opTypePut, [1], [2]⟩, ⟨2, Wal.opTypeDelete, [1], []⟩,
        ⟨3, Wal.opTypePut, [3], [4]⟩] := by
    decide
  refine ⟨hold, by decide, by decide, rfl, by decide, by decide, ?hrec,
    recoverFromWAL_reuseWAL ⟨.syncNone, 0⟩ 0 [] Wal.firstSession _ hold _ (by decide) 2 (by decide)
      [] Wal.secondSession rfl _ (by decide) (by decide) _ _ _ ?hrec⟩
  rw [hlog]
  rfl

end Kevo.Memtable
