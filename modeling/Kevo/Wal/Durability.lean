import Kevo.Wal.Replay

/-! Durability in `SyncImmediate` mode. Every append path ends in `maybeSync` (`SyncedEnd`), which in
that mode flushes the buffer and syncs the file; so an append that is acknowledged, like a `Sync`
that returns nil, leaves nothing buffered (`call_flushed`), and the file itself, which outlives the
process, holds the whole log. Along a run from `NewWAL` in which no failing call changed the log,
the file after such a call reads back every entry acknowledged so far
(`readEntries_file_immediate`). -/

namespace Kevo.Wal

/-- How an append path ends: it keeps the configuration, and when it is acknowledged its last
step was a `maybeSync` that returned nil. -/
structure SyncedEnd (w : WAL) (r : Outcome UInt64 × WAL) : Prop where
  cfg : r.2.cfg = w.cfg
  ok : ∀ s, r.1 = .ok s → ∃ w', maybeSync w' = (none, r.2)

theorem SyncedEnd.of_error {w : WAL} {r : Outcome UInt64 × WAL} {e : WalError}
    (he : r.1 = .error e) (hcfg : r.2.cfg = w.cfg) : SyncedEnd w r :=
  ⟨hcfg, fun _ h => by rw [he] at h; cases h⟩

theorem SyncedEnd.of_guard {w : WAL} {r : Outcome UInt64 × WAL} {e : WalError}
    (he : r.1 = .error e) (hw : r.2 = w) : SyncedEnd w r :=
  .of_error he (by rw [hw])

theorem SyncedEnd.of_cfg {w w0 : WAL} {r : Outcome UInt64 × WAL} (h : SyncedEnd w0 r)
    (hcfg : w0.cfg = w.cfg) : SyncedEnd w r :=
  ⟨h.cfg.trans hcfg, h.ok⟩

theorem maybeSync_immediate {w : WAL} (h : w.cfg.walSyncMode = .syncImmediate) :
    maybeSync w = syncLocked w := by
  simp [maybeSync, h]

theorem Outcome.exists_of_map_eq_ok {α β : Type} {f : α → β} {o : Outcome α} {b : β}
    (h : o.map f = .ok b) : ∃ a, o = .ok a := by
  cases o <;> simp_all [Outcome.map]

/-- In `SyncImmediate` mode an append path that a run sees acknowledged leaves nothing
buffered. -/
theorem SyncedEnd.flushed {w : WAL} {r : Outcome UInt64 × WAL} (h : SyncedEnd w r)
    (hmode : w.cfg.walSyncMode = .syncImmediate) {a : Option UInt64} (hok : r.1.map some = .ok a) :
    r.2.writer.buf = [] := by
  obtain ⟨s, hs⟩ := Outcome.exists_of_map_eq_ok hok
  obtain ⟨w', hm⟩ := h.ok s hs
  have hcfg := (maybeSync_synced w').frame.cfg
  rw [hm] at hcfg
  rw [maybeSync_immediate (hcfg.symm.trans h.cfg ▸ hmode)] at hm
  have hbuf := (syncLocked_synced w').2
  rw [hm] at hbuf
  exact hbuf rfl

/-! ### Every append path ends in `maybeSync` -/

/-- The last step of every append path: `maybeSync`, and the sequence number on nil. -/
theorem syncedEnd_maybeSync {w w' : WAL} (s : UInt64) (hcfg : w'.cfg = w.cfg) :
    SyncedEnd w
      (match maybeSync w' with
        | (some e, w'') => (.error e, w'')
        | (none, w'') => (.ok s, w'')) := by
  have hc := (maybeSync_synced w').frame.cfg
  rcases hm : maybeSync w' with ⟨_ | e, w''⟩ <;> rw [hm] at hc
  · exact ⟨hc.trans hcfg, fun _ _ => ⟨w', hm⟩⟩
  · exact .of_error rfl (hc.trans hcfg)

theorem appendEntry_syncedEnd (w : WAL) (entryType : UInt8) (seqNum : UInt64) (key value : Bytes) :
    SyncedEnd w (appendEntry w entryType seqNum key value) := by
  have hfr := (writeRecords_wrote w _ (entryRecords_fits entryType seqNum key value)).frame
  unfold appendEntry
  rw [appendEntry_written]
  rcases hr : writeRecords w (entryRecords entryType seqNum key value) with ⟨_ | e, w'⟩ <;>
    rw [hr] at hfr
  · exact syncedEnd_maybeSync seqNum hfr.cfg
  · exact .of_error rfl hfr.cfg

theorem append_syncedEnd (w : WAL) (entryType : UInt8) (key value : Bytes) :
    SyncedEnd w (append w entryType key value) := by
  unfold append
  split
  · exact .of_guard rfl rfl
  split
  · exact .of_guard rfl rfl
  split
  · exact .of_guard rfl rfl
  exact (appendEntry_syncedEnd _ _ _ _ _).of_cfg (warnOverflow_cfg w _)

theorem appendWithSequence_syncedEnd (w : WAL) (entryType : UInt8) (key value : Bytes)
    (seq : UInt64) : SyncedEnd w (appendWithSequence w entryType key value seq) := by
  unfold appendWithSequence
  split
  · exact .of_guard rfl rfl
  split
  · exact .of_guard rfl rfl
  split
  · exact .of_guard rfl rfl
  exact (appendEntry_syncedEnd _ _ _ _ _).of_cfg (by dsimp only; split <;> simp)

/-- The end that both batch paths share: the write loop, a change of `nextSequence` by `raise`,
and `maybeSync`. -/
theorem writeBatch_syncedEnd {w w0 : WAL} {entries : List Entry} {s : UInt64} (raise : WAL → WAL)
    (hcfg : w0.cfg = w.cfg) (hraise : ∀ w', (raise w').cfg = w'.cfg) :
    SyncedEnd w
      (match writeBatch w0 entries s with
        | (some e, w') => (.error e, w')
        | (none, w') =>
          match maybeSync (raise w') with
          | (some e, w'') => (.error e, w'')
          | (none, w'') => (.ok s, w'')) := by
  have hfr := (writeBatch_ok w0 entries s).1
  rcases hb : writeBatch w0 entries s with ⟨_ | e, w'⟩ <;> rw [hb] at hfr
  · exact syncedEnd_maybeSync s ((hraise w').trans (hfr.cfg.trans hcfg))
  · exact .of_error rfl (hfr.cfg.trans hcfg)

theorem appendBatch_syncedEnd (w : WAL) {entries : List Entry} (hne : entries ≠ []) :
    SyncedEnd w (appendBatch w entries) := by
  unfold appendBatch
  split
  · exact .of_guard rfl rfl
  rw [if_neg hne]
  split
  · exact .of_guard rfl rfl
  exact writeBatch_syncedEnd _ (warnOverflow_cfg w _) fun _ => rfl

theorem appendBatchWithSequence_syncedEnd (w : WAL) {entries : List Entry} (hne : entries ≠ [])
    (startSequence : UInt64) :
    SyncedEnd w (appendBatchWithSequence w entries startSequence) := by
  unfold appendBatchWithSequence
  split
  · exact .of_guard rfl rfl
  rw [if_neg hne]
  split
  · exact .of_guard rfl rfl
  exact writeBatch_syncedEnd _ (warnOverflow_cfg w _) fun _ => by split <;> rfl

theorem appendExactBytes_syncedEnd (w : WAL) (rawBytes : Bytes) (seqNum : UInt64) :
    SyncedEnd w (appendExactBytes w rawBytes seqNum) := by
  unfold appendExactBytes
  split
  · exact .of_guard rfl rfl
  dsimp only
  split
  · exact .of_guard rfl rfl
  split
  · exact .of_guard rfl rfl
  have hc : (if seqNum ≥ w.nextSequence then { w with nextSequence := seqNum + 1 } else w).cfg =
      w.cfg := by split <;> rfl
  have hfr := (writeRecordData_wrote
    (if seqNum ≥ w.nextSequence then { w with nextSequence := seqNum + 1 } else w)
    (rawBytes.take headerSize) (rawBytes.drop headerSize)).frame
  rcases hr : writeRecordData (if seqNum ≥ w.nextSequence then { w with nextSequence := seqNum + 1 }
      else w) (rawBytes.take headerSize) (rawBytes.drop headerSize) with ⟨_ | e, w'⟩ <;>
    rw [hr] at hfr
  · rcases rawBytes.drop headerSize with _ | ⟨b, bs⟩
    · exact ⟨hfr.cfg.trans hc, fun _ h => by cases h⟩
    · exact syncedEnd_maybeSync seqNum (hfr.cfg.trans hc)
  · exact .of_error rfl (hfr.cfg.trans hc)

/-! ### Calls and runs -/

/-- The calls that end in a sync when they succeed: every append but an empty batch, and `Sync`. -/
def Op.Flushes : Op → Prop
  | .append .. | .appendWithSequence .. | .appendExactBytes .. | .sync => True
  | .appendBatch es | .appendBatchWithSequence es _ => es ≠ []
  | .updateNextSequence _ | .setRotating | .setActive | .close => False

instance : (op : Op) → Decidable op.Flushes
  | .append .. | .appendWithSequence .. | .appendExactBytes .. | .sync => isTrue trivial
  | .appendBatch es | .appendBatchWithSequence es _ => inferInstanceAs (Decidable (es ≠ []))
  | .updateNextSequence _ | .setRotating | .setActive | .close => isFalse id

theorem sync_flushed (w : WAL) (h : (sync w).1 = .ok ()) : (sync w).2.writer.buf = [] := by
  have hbuf := (syncLocked_synced w).2
  rcases hs : syncLocked w with ⟨_ | e, w'⟩ <;> rw [hs] at hbuf <;> simp only [sync, hs] at h ⊢
  · exact hbuf rfl
  · cases h

/-- In `SyncImmediate` mode, an acknowledged call of those that sync leaves nothing buffered: the
file holds the whole log. -/
theorem call_flushed {op : Op} (hop : op.Flushes) {w : WAL}
    (hmode : w.cfg.walSyncMode = .syncImmediate) {a : Option UInt64}
    (hok : (op.call w).1 = .ok a) : (op.call w).2.writer.buf = [] := by
  cases op with
  | append t k v => exact (append_syncedEnd w t k v).flushed hmode hok
  | appendWithSequence t k v q => exact (appendWithSequence_syncedEnd w t k v q).flushed hmode hok
  | appendBatch es => exact (appendBatch_syncedEnd w hop).flushed hmode hok
  | appendBatchWithSequence es q =>
    exact (appendBatchWithSequence_syncedEnd w hop q).flushed hmode hok
  | appendExactBytes raw q => exact (appendExactBytes_syncedEnd w raw q).flushed hmode hok
  | sync =>
    obtain ⟨⟨⟩, hu⟩ := Outcome.exists_of_map_eq_ok hok
    exact sync_flushed w hu
  | updateNextSequence | setRotating | setActive | close => exact hop.elim

theorem close_cfg (w : WAL) : (close w).2.cfg = w.cfg := by
  unfold close
  split
  · rfl
  rcases w.writer.flush w.file with ⟨_ | e, wr, f⟩ <;> dsimp only
  rcases f.sync with ⟨_ | e, f1⟩ <;> dsimp only
  rcases f1.close with ⟨_ | e, f2⟩ <;> rfl

/-- No call changes the configuration. -/
theorem call_cfg (op : Op) (w : WAL) : (op.call w).2.cfg = w.cfg := by
  cases op with
  | append t k v => exact (append_syncedEnd w t k v).cfg
  | appendWithSequence t k v q => exact (appendWithSequence_syncedEnd w t k v q).cfg
  | appendBatch es =>
    by_cases hne : es = []
    · subst hne; exact congrArg WAL.cfg (appendBatch_nil_snd w)
    · exact (appendBatch_syncedEnd w hne).cfg
  | appendBatchWithSequence es q =>
    by_cases hne : es = []
    · subst hne; exact congrArg WAL.cfg (appendBatchWithSequence_nil_snd w q)
    · exact (appendBatchWithSequence_syncedEnd w hne q).cfg
  | appendExactBytes raw q => exact (appendExactBytes_syncedEnd w raw q).cfg
  | updateNextSequence n => simp only [Op.call, updateNextSequence]; split <;> simp
  | sync => exact (sync_snd w).symm ▸ (syncLocked_synced w).1.frame.cfg
  | setRotating | setActive => rfl
  | close => exact close_cfg w

theorem run_cfg (w : WAL) (ops : List Op) : (run w ops).2.cfg = w.cfg := by
  induction ops generalizing w with
  | nil => rfl
  | cons op ops ih => exact (ih _).trans (call_cfg op w)

/-- Durability in `SyncImmediate` mode: after a run from `NewWAL` in which no failing call changed
the log, a call that is acknowledged and syncs (any append but an empty batch, or `Sync`) leaves
the file itself, with nothing in the buffer, reading back as every entry acknowledged so far, in
call order. -/
theorem readEntries_file_immediate (walSyncBytes : Int) (answers : List Answer) (ops : List Op)
    (op : Op) (hclean : NoFailedWrite (newWAL ⟨.syncImmediate, walSyncBytes⟩ answers) ops)
    (hops : ∀ o ∈ ops, o.Readable) (hop : op.Readable ∧ op.Flushes) (a : Option UInt64)
    (hok : (op.call (run (newWAL ⟨.syncImmediate, walSyncBytes⟩ answers) ops).2).1 = .ok a) :
    readEntries (op.call (run (newWAL ⟨.syncImmediate, walSyncBytes⟩ answers) ops).2).2.file.data =
      writtenEntries (newWAL ⟨.syncImmediate, walSyncBytes⟩ answers) ops ++ op.addedEntries (.ok a) := by
  have hbuf := call_flushed hop.2 (by rw [run_cfg]; rfl) hok
  have hread := call_readBack op (run (newWAL ⟨.syncImmediate, walSyncBytes⟩ answers) ops).2 hop.1
  rw [hok] at hread
  calc readEntries (op.call (run (newWAL ⟨.syncImmediate, walSyncBytes⟩ answers) ops).2).2.file.data
      = readEntries (op.call (run (newWAL ⟨.syncImmediate, walSyncBytes⟩ answers) ops).2).2.log := by
        simp [WAL.log, Writer.log, hbuf]
    _ = readEntries ((run (newWAL ⟨.syncImmediate, walSyncBytes⟩ answers) ops).2.log ++
          op.added (.ok a)) := by rw [(call_stepped op _).ok a hok]
    _ = _ := ((run_log_readBack _ answers ops hclean hops).append hread).readEntries_eq

theorem readEntries_file_immediate_batch :
    NoFailedWrite (newWAL ⟨.syncImmediate, 0⟩ []) [.append opTypePut [1] [2]] ∧
      (∀ o ∈ [Op.append opTypePut [1] [2]], o.Readable) ∧
      ((Op.appendBatch [⟨0, opTypeDelete, [1], []⟩]).Readable ∧
        (Op.appendBatch [⟨0, opTypeDelete, [1], []⟩]).Flushes) ∧
      ((Op.appendBatch [⟨0, opTypeDelete, [1], []⟩]).call
        (run (newWAL ⟨.syncImmediate, 0⟩ []) [.append opTypePut [1] [2]]).2).1 = .ok (some 2) ∧
      readEntries ((Op.appendBatch [⟨0, opTypeDelete, [1], []⟩]).call
          (run (newWAL ⟨.syncImmediate, 0⟩ []) [.append opTypePut [1] [2]]).2).2.file.data =
        writtenEntries (newWAL ⟨.syncImmediate, 0⟩ []) [.append opTypePut [1] [2]] ++
          (Op.appendBatch [⟨0, opTypeDelete, [1], []⟩]).addedEntries (.ok (some 2)) :=
  ⟨by decide, by decide, by decide, by decide,
    readEntries_file_immediate _ _ _ _ (by decide) (by decide) (by decide) _ (by decide)⟩

/-- Without `SyncImmediate` an acknowledged `Append` can leave the file empty, its record still in
the buffer. -/
example : ((Op.append opTypePut [1] [2]).call (newWAL ⟨.syncNone, 0⟩ [])).1 = .ok (some 1) ∧
    ((Op.append opTypePut [1] [2]).call (newWAL ⟨.syncNone, 0⟩ [])).2.file.data = [] := by
  decide

end Kevo.Wal
