import Kevo.Wal.Buffer
import Kevo.Wal.Replay

/-! The log under any failures of the operating system. Every write into the buffered writer takes
a prefix of its bytes, all of them unless it reports an error, and an error stays in the writer:
then no later call writes a byte (`call_writer_failed`). So a call adds to the log, of the entries
it attempted, the records of the first few whole, then nothing, or a torn part of the next one
after which the log never grows again. Whatever the operating system answers, the log reads back
as a list of entries that holds every entry that a call acknowledged, and only entries that some
call attempted, in call order (`readEntries_run_failures`). The first inclusion can be strict: in
SyncImmediate mode, an append whose flush fails returns the error with its record in the log
(`append_flush_failed_logged`). -/

namespace Kevo.Wal

/-! ### Blocks -/

/-- The bytes `b` of one entry's records: they read back as `e`, whatever follows them, and as
nothing when cut short. -/
structure Block (b : Bytes) (e : Entry) : Prop where
  read : ReadBack b [e]
  torn : ∀ n, n < b.length → readEntries (b.take n) = []

/-- A cut of the records that the WAL writes, short of their end, reads as a strict prefix of
them. -/
theorem readRecords_take_frames_lt (recs : List (UInt8 × Bytes))
    (h : ∀ r ∈ recs, r.2.length < 2 ^ 16) {n : Nat} (hn : n < ((recs.map frame).flatten).length) :
    ∃ rest, readRecords (((recs.map frame).flatten).take n) ++ rest = recs ∧ rest ≠ [] := by
  induction recs generalizing n with
  | nil => simp at hn
  | cons r rs ih =>
    have hr := h r (List.mem_cons_self _ _)
    rw [List.map_cons, List.flatten_cons] at hn ⊢
    rw [List.length_append] at hn
    by_cases hle : (frame r).length ≤ n
    · obtain ⟨rest, hrest, hne⟩ := ih (fun r hr => h r (List.mem_cons_of_mem _ hr))
        (show n - (frame r).length < ((rs.map frame).flatten).length by omega)
      refine ⟨rest, ?_, hne⟩
      rw [List.take_append_eq_append_take, List.take_of_length_le hle,
        readRecords_of_some (readRecord_frame r hr _), List.cons_append, hrest]
    · rw [List.take_append_of_le_length (by omega),
        readRecords_of_none (readRecord_take_frame r hr (by omega))]
      exact ⟨r :: rs, rfl, List.cons_ne_nil _ _⟩

/-- Records with no Full and no Last one join into nothing. -/
theorem assemble_of_no_end {l : List (UInt8 × Bytes)}
    (h : ∀ r ∈ l, r.1 ≠ recordTypeFull ∧ r.1 ≠ recordTypeLast) (acc : Option Bytes) :
    assemble l acc = [] := by
  induction l generalizing acc with
  | nil => rfl
  | cons r rs ih =>
    obtain ⟨t, p⟩ := r
    obtain ⟨hf, hl⟩ := h _ (List.mem_cons_self _ _)
    have ih' := fun acc => ih (fun r hr => h r (List.mem_cons_of_mem _ hr)) acc
    simp only [assemble, if_neg hf, if_neg hl]
    split_ifs <;> simp [ih']

/-- Records that read back as `e`, whose every strict prefix holds no Full and no Last record, are
a block. -/
theorem block_of_records {recs : List (UInt8 × Bytes)} {e : Entry}
    (hread : ReadBack (recs.map frame).flatten [e])
    (h16 : ∀ r ∈ recs, r.2.length < 2 ^ 16)
    (hno : ∀ l rest, l ++ rest = recs → rest ≠ [] →
      ∀ r ∈ l, r.1 ≠ recordTypeFull ∧ r.1 ≠ recordTypeLast) :
    Block (recs.map frame).flatten e := by
  refine ⟨hread, fun n hn => ?_⟩
  obtain ⟨rest, hrest, hne⟩ := readRecords_take_frames_lt recs h16 hn
  rw [readEntries, assemble_of_no_end (hno _ rest hrest hne), List.filterMap_nil]

/-- The records of one entry end with its only Full or Last record. -/
theorem entryRecords_no_end (entryType : UInt8) (seqNum : UInt64) (key value : Bytes)
    (l rest : List (UInt8 × Bytes)) (hl : l ++ rest = entryRecords entryType seqNum key value)
    (hne : rest ≠ []) : ∀ r ∈ l, r.1 ≠ recordTypeFull ∧ r.1 ≠ recordTypeLast := by
  intro r hr
  have hdrop : r.1 ∈ ((entryRecords entryType seqNum key value).map Prod.fst).dropLast := by
    rw [← hl, List.map_append, List.dropLast_append_of_ne_nil _ (by simpa using hne)]
    exact List.mem_append_left _ (List.mem_map_of_mem _ hr)
  have htypes := entryRecords_types entryType seqNum key value
  split at htypes
  · rw [htypes] at hdrop; cases hdrop
  · obtain ⟨m, hm⟩ := htypes
    rw [hm, List.dropLast_cons_of_ne_nil (by simp), List.dropLast_concat] at hdrop
    rcases List.mem_cons.mp hdrop with h | h
    · rw [h]; decide
    · rw [(List.mem_replicate.mp h).2]; decide

theorem block_entryRecords (entryType : UInt8) (seqNum : UInt64) {key value : Bytes}
    (hk : key.length < 2 ^ 32) (hv : value.length < 2 ^ 32) :
    Block ((entryRecords entryType seqNum key value).map frame).flatten
      (Entry.logged ⟨seqNum, entryType, key, value⟩) :=
  block_of_records (readBack_entryRecords entryType seqNum key value hk hv)
    (fun r hr => frame_fits (entryRecords_fits _ _ _ _ r hr))
    (entryRecords_no_end entryType seqNum key value)

/-- A batch's entry as its Full record: a block when it fits one record. -/
theorem block_batchRecord (seqNum : UInt64) {e : Entry}
    (hfit : entrySize e.type e.key e.value ≤ maxRecordSize) :
    Block (frame (recordTypeFull, encodePayload e.type seqNum e.key e.value))
      (Entry.logged ⟨seqNum, e.type, e.key, e.value⟩) := by
  have h := @block_of_records (batchRecords [e] seqNum) _
    (readBack_batchRecords [e] seqNum (by simpa using hfit))
    (batchRecords_fit (by simpa using hfit))
    fun l rest hl hne => by
      rcases l with _ | ⟨x, l⟩
      · nofun
      · simp only [batchRecords, List.map_cons, List.map_nil, List.cons_append, List.cons.injEq,
          List.append_eq_nil] at hl
        exact absurd hl.2.2 hne
  simpa [batchRecords] using h

/-! ### Errors that stay -/

theorem Writer.finish_sticky {wr wr' : Writer} {f f' : File} {nn n : Nat} {p : Bytes}
    {e : IOError} (h : wr.finish f nn p = ((n, some e), wr', f')) : wr'.err = some e := by
  unfold Writer.finish at h
  split at h <;> simp_all

/-- A `Write` that reports an error leaves it in the writer. -/
theorem Writer.write_sticky {wr wr' : Writer} {f f' : File} {p : Bytes} {n : Nat} {e : IOError}
    (h : wr.write f p = ((n, some e), wr', f')) : wr'.err = some e := by
  unfold Writer.write Writer.direct at h
  split_ifs at h
  · exact Writer.finish_sticky h
  · exact Writer.finish_sticky h
  generalize Writer.flush { wr with buf := wr.buf ++ p.take wr.available } f = r at h
  obtain ⟨_, w1, f1⟩ := r
  dsimp only at h
  split_ifs at h <;> exact Writer.finish_sticky h

theorem writeRecordData_sticky {w w' : WAL} {header payload : Bytes} {e : WalError}
    (h : writeRecordData w header payload = (some e, w')) : w'.writer.err.isSome := by
  unfold writeRecordData at h
  rcases hw1 : w.writer.write w.file header with ⟨⟨n1, _ | e1⟩, wr, f⟩ <;> rw [hw1] at h <;>
    dsimp only at h
  · rcases hw2 : wr.write f payload with ⟨⟨n2, _ | e2⟩, wr', f'⟩ <;> rw [hw2] at h <;>
      dsimp only at h
    · cases h
    · obtain ⟨-, rfl⟩ := Prod.mk.inj h
      simp [Writer.write_sticky hw2]
  · obtain ⟨-, rfl⟩ := Prod.mk.inj h
    simp [Writer.write_sticky hw1]

theorem writeRawRecord_sticky {w w' : WAL} {recordType : UInt8} {data : Bytes} {e : WalError}
    (hfit : data.length ≤ maxRecordSize) (h : writeRawRecord w recordType data = (some e, w')) :
    w'.writer.err.isSome := by
  rw [writeRawRecord, if_neg (Nat.not_lt.mpr hfit)] at h
  exact writeRecordData_sticky h

/-- Records that fit fail to be written only with the writer failed. -/
theorem writeRecords_sticky {w w' : WAL} {recs : List (UInt8 × Bytes)} {e : WalError}
    (hfit : Fits recs) (h : writeRecords w recs = (some e, w')) : w'.writer.err.isSome := by
  induction recs generalizing w with
  | nil => cases h
  | cons r rest ih =>
    obtain ⟨t, data⟩ := r
    rcases hw : writeRawRecord w t data with ⟨_ | e', w1⟩ <;> simp only [writeRecords, hw] at h
    · exact ih (fun r hr => hfit r (List.mem_cons_of_mem _ hr)) h
    · obtain ⟨-, rfl⟩ := Prod.mk.inj h
      exact writeRawRecord_sticky (hfit _ (List.mem_cons_self _ _)) hw

/-- A failed writer stays failed through a sync. -/
theorem maybeSync_failed {w : WAL} (h : w.writer.err.isSome) :
    (maybeSync w).2.writer.err.isSome := by
  obtain ⟨e, he⟩ := Option.isSome_iff_exists.mp h
  rw [(maybeSync_holds (Writer.failed_ioInvariant he w.file) ⟨rfl, rfl⟩).1, he]
  rfl

/-! ### What one call adds -/

/-- Bytes of which no cut reads as an entry: a block cut short. -/
def Torn (t : Bytes) : Prop := ∀ n, readEntries (t.take n) = []

theorem torn_nil : Torn [] := fun n => by rw [List.take_nil]; rfl

theorem Torn.readEntries_eq {t : Bytes} (h : Torn t) : readEntries t = [] := by
  simpa using h t.length

theorem Block.torn_take {b : Bytes} {e : Entry} (hb : Block b e) {j : Nat} (hj : j < b.length) :
    Torn (b.take j) := fun n => by
  rw [List.take_take]
  exact hb.torn _ (lt_of_le_of_lt (min_le_right _ _) hj)

/-- The log of `w'` is that of `w` followed by bytes that read back as a prefix of `es`, then by a
torn part, which only a failed writer leaves. -/
def Grew (w w' : WAL) (es : List Entry) : Prop :=
  ∃ B E T, w'.log = w.log ++ B ++ T ∧ ReadBack B E ∧ E <+: es ∧ Torn T ∧
    (T = [] ∨ w'.writer.err.isSome)

theorem Grew.of_log {w w' : WAL} (h : w'.log = w.log) (es : List Entry) : Grew w w' es :=
  ⟨[], [], [], by simp [h], .nil, List.nil_prefix, torn_nil, .inl rfl⟩

theorem Grew.start {w0 w w' : WAL} {es : List Entry} (h : Grew w0 w' es) (h0 : w0.log = w.log) :
    Grew w w' es := by
  obtain ⟨B, E, T, hl, hB, hE, hT, hf⟩ := h
  exact ⟨B, E, T, by rw [hl, h0], hB, hE, hT, hf⟩

theorem Grew.keep {w w1 w2 : WAL} {es : List Entry} (h : Grew w w1 es) (hl : w2.log = w1.log)
    (herr : w1.writer.err.isSome → w2.writer.err.isSome) : Grew w w2 es := by
  obtain ⟨B, E, T, hl1, hB, hE, hT, hf⟩ := h
  exact ⟨B, E, T, by rw [hl, hl1], hB, hE, hT, hf.imp_right herr⟩

theorem Grew.sync {w w' : WAL} {es : List Entry} (h : Grew w w' es) : Grew w (maybeSync w').2 es :=
  h.keep (maybeSync_synced w').log maybeSync_failed

theorem Grew.mono {w w' : WAL} {es es' : List Entry} (h : Grew w w' es) (hp : es <+: es') :
    Grew w w' es' := by
  obtain ⟨B, E, T, hl, hB, hE, hT, hf⟩ := h
  exact ⟨B, E, T, hl, hB, hE.trans hp, hT, hf⟩

/-- A writer that added a prefix of one block, all of it unless the writer failed. -/
theorem Grew.cut {w w' : WAL} {b : Bytes} {e : Entry} (hb : Block b e) {pre : Bytes}
    (hpre : pre <+: b) (hl : w'.log = w.log ++ pre) (hfail : pre ≠ b → w'.writer.err.isSome) :
    Grew w w' [e] := by
  by_cases heq : pre = b
  · subst heq
    exact ⟨pre, [e], [], by simp [hl], hb.read, List.prefix_rfl, torn_nil, .inl rfl⟩
  · have hlt : pre.length < b.length :=
      lt_of_le_of_ne hpre.length_le fun h => heq (hpre.eq_of_length h)
    refine ⟨[], [], pre, by simp [hl], .nil, List.nil_prefix, ?_, .inr (hfail heq)⟩
    rw [List.prefix_iff_eq_take.mp hpre]
    exact hb.torn_take hlt

/-- A whole block, then what a writer added after it. -/
theorem Grew.cons {w w1 w2 : WAL} {b : Bytes} {e : Entry} {es : List Entry} (hb : Block b e)
    (h1 : w1.log = w.log ++ b) (h2 : Grew w1 w2 es) : Grew w w2 (e :: es) := by
  obtain ⟨B, E, T, hl, hB, hE, hT, hf⟩ := h2
  exact ⟨b ++ B, e :: E, T, by rw [hl, h1]; simp, hb.read.append hB,
    (List.prefix_cons_inj e).mpr hE, hT, hf⟩

theorem appendEntry_grew (w : WAL) (entryType : UInt8) (seqNum : UInt64) {key value : Bytes}
    (hk : key.length < 2 ^ 32) (hv : value.length < 2 ^ 32) :
    Grew w (appendEntry w entryType seqNum key value).2
      [Entry.logged ⟨seqNum, entryType, key, value⟩] := by
  have hfit := entryRecords_fits entryType seqNum key value
  have hw := writeRecords_wrote w _ hfit
  have hb := block_entryRecords entryType seqNum hk hv
  unfold appendEntry
  rw [appendEntry_written]
  rcases hr : writeRecords w (entryRecords entryType seqNum key value) with ⟨_ | e, w'⟩ <;>
    rw [hr] at hw <;> dsimp only
  · have hs := (Grew.cut hb List.prefix_rfl (hw.ok rfl) (absurd rfl)).sync
    rcases hm : maybeSync w' with ⟨_ | e, w''⟩ <;> rw [hm] at hs <;> exact hs
  · obtain ⟨pre, hpre, hl⟩ := hw.grows
    exact Grew.cut hb hpre hl fun _ => writeRecords_sticky hfit hr

/-- The write loop of a batch adds the Full records of its first entries, then maybe a torn
part of the next. -/
theorem writeEntries_grew (w : WAL) (seqNum : UInt64) (i : Nat) (entries : List Entry) :
    Grew w (writeEntries w seqNum i entries).2
      (entries.map fun e => Entry.logged ⟨seqNum, e.type, e.key, e.value⟩) := by
  induction entries generalizing w i with
  | nil => exact .of_log rfl _
  | cons e rest ih =>
    by_cases hfit : entrySize e.type e.key e.value ≤ maxRecordSize
    · have hw := writeRecord_wrote w recordTypeFull e.type seqNum hfit
      have hb := block_batchRecord seqNum hfit
      rcases hr : writeRecord w recordTypeFull e.type seqNum e.key e.value with ⟨_ | err, w'⟩ <;>
        rw [hr] at hw <;> simp only [writeEntries, hr]
      · exact Grew.cons hb (hw.ok rfl) (ih w' (i + 1))
      · obtain ⟨pre, hpre, hl⟩ := hw.grows
        refine (Grew.cut hb hpre hl fun _ => ?_).mono (List.prefix_append _ _)
        rw [writeRecord, if_neg (Nat.not_lt.mpr hfit)] at hr
        exact writeRawRecord_sticky (by simpa using hfit) hr
    · simp only [writeEntries, writeRecord_tooLarge (Nat.lt_of_not_le hfit)]
      exact .of_log rfl _

theorem writeBatch_grew (w : WAL) (entries : List Entry) (seqNum : UInt64) :
    Grew w (writeBatch w entries seqNum).2
      (entries.map fun e => Entry.logged ⟨seqNum, e.type, e.key, e.value⟩) := by
  rcases writeBatch_cases w entries seqNum with ⟨-, -, -, hl⟩ | ⟨w1, -, hl, -, heq⟩
  · exact .of_log hl _
  · rw [heq]
    exact (writeEntries_grew w1 seqNum 0 entries).start hl

/-- The end that both batch paths share: the write loop, a change of `nextSequence` by `raise`, and
`maybeSync`. -/
theorem writeBatch_sync_grew {w w0 : WAL} {entries : List Entry} {s : UInt64} (raise : WAL → WAL)
    (hlog : w0.log = w.log)
    (hraise : ∀ w', (raise w').log = w'.log ∧ (raise w').writer = w'.writer) :
    Grew w ((match writeBatch w0 entries s with
        | (some e, w') => (.error e, w')
        | (none, w') =>
          match maybeSync (raise w') with
          | (some e, w'') => (.error e, w'')
          | (none, w'') => (.ok s, w'')) : Outcome UInt64 × WAL).2
      (entries.map fun e => Entry.logged ⟨s, e.type, e.key, e.value⟩) := by
  have hg := (writeBatch_grew w0 entries s).start hlog
  rcases hb : writeBatch w0 entries s with ⟨_ | e, w'⟩ <;> rw [hb] at hg <;> dsimp only
  · have hs := (hg.keep (hraise w').1 fun h => by rwa [(hraise w').2]).sync
    rcases hm : maybeSync (raise w') with ⟨_ | e, w''⟩ <;> rw [hm] at hs <;> exact hs
  · exact hg

theorem appendBatch_grew (w : WAL) (entries : List Entry) :
    Grew w (appendBatch w entries).2
      (entries.map fun e => Entry.logged ⟨w.nextSequence, e.type, e.key, e.value⟩) := by
  unfold appendBatch
  split
  · exact .of_log rfl _
  split
  · exact .of_log rfl _
  split
  · exact .of_log rfl _
  simp only [warnOverflow_nextSequence]
  exact writeBatch_sync_grew (fun w' => { w' with nextSequence := w.nextSequence + 1 })
    (warnOverflow_log w _) fun _ => ⟨rfl, rfl⟩

theorem appendBatchWithSequence_grew (w : WAL) (entries : List Entry) (startSequence : UInt64) :
    Grew w (appendBatchWithSequence w entries startSequence).2
      (entries.map fun e => Entry.logged ⟨startSequence, e.type, e.key, e.value⟩) := by
  unfold appendBatchWithSequence
  split
  · exact .of_log rfl _
  split
  · exact .of_log rfl _
  split
  · exact .of_log rfl _
  exact writeBatch_sync_grew
    (fun w' => if startSequence + 1 > w'.nextSequence then
      { w' with nextSequence := startSequence + 1 } else w')
    (warnOverflow_log w _) fun w' => by dsimp only; split <;> exact ⟨rfl, rfl⟩

/-! ### Calls and runs -/

/-- The entries that a call from `w` sets out to write, under the sequence number it gives them:
`nextSequence` for `Append` and `AppendBatch`, the caller's for the others. -/
def Op.attempted (op : Op) (w : WAL) : List Entry :=
  match op with
  | .append .. | .appendBatch _ => op.entries w.nextSequence
  | .appendWithSequence _ _ _ s | .appendBatchWithSequence _ s => op.entries s
  | _ => []

/-- The entries that the calls `ops` from `w` set out to write, in call order. -/
def attemptedEntries (w : WAL) : List Op → List Entry
  | [] => []
  | op :: ops => op.attempted w ++ attemptedEntries (op.call w).2 ops

/-- A call adds to the log the blocks of the first few entries it set out to write, then maybe a
torn part of the next one, after which its writer has failed. -/
theorem call_grew (op : Op) (w : WAL) (hop : op.Readable) :
    Grew w (op.call w).2 (op.attempted w) := by
  cases op with
  | append t k v =>
    show Grew w (append w t k v).2 [Entry.logged ⟨w.nextSequence, t, k, v⟩]
    rcases append_cases w t k v with ⟨-, -, -, hw⟩ | ⟨-, -, -, w0, hl, -, -, heq⟩
    · exact .of_log (by rw [hw]) _
    · rw [heq]
      exact (appendEntry_grew w0 t w.nextSequence hop.1 hop.2).start hl
  | appendWithSequence t k v s =>
    show Grew w (appendWithSequence w t k v s).2 [Entry.logged ⟨s, t, k, v⟩]
    rcases appendWithSequence_cases w t k v s with ⟨-, -, -, hw⟩ | ⟨-, -, -, w0, hl, -, -, heq⟩
    · exact .of_log (by rw [hw]) _
    · rw [heq]
      exact (appendEntry_grew w0 t s hop.1 hop.2).start hl
  | appendBatch es => exact appendBatch_grew w es
  | appendBatchWithSequence es s => exact appendBatchWithSequence_grew w es s
  | appendExactBytes => exact hop.elim
  | updateNextSequence n => exact .of_log (updateNextSequence_log_status w n).1 _
  | sync =>
    show Grew w (sync w).2 []
    rw [sync_snd]
    exact .of_log (syncLocked_synced w).1.log _
  | setRotating | setActive => exact .of_log rfl _
  | close => exact .of_log (close_spec w).1 _

/-- What a call acknowledged is what it added before its torn part: a call that returned a sequence
number added its entries whole. -/
theorem addedEntries_sublist {op : Op} {w : WAL} (hop : op.Readable) {B T : Bytes}
    {E : List Entry} (hl : (op.call w).2.log = w.log ++ B ++ T) (hB : ReadBack B E)
    (hT : Torn T) : List.Sublist (op.addedEntries (op.call w).1) E := by
  have hread := (call_readBack op w hop).readEntries_eq
  rcases hr : (op.call w).1 with a | e | m
  · have hadd := (call_stepped op w).ok a hr
    rw [hl, List.append_assoc, List.append_cancel_left_eq] at hadd
    rw [hr, ← hadd, hB.read, hT.readEntries_eq, List.append_nil] at hread
    exact hread ▸ List.Sublist.refl _
  all_goals exact List.nil_sublist _

/-- The log as the reader sees it: bytes that read back as `es`, then a torn part, which only a
failed writer leaves. -/
def ReadsAs (w : WAL) (es : List Entry) : Prop :=
  ∃ B T, w.log = B ++ T ∧ ReadBack B es ∧ Torn T ∧ (T = [] ∨ w.writer.err.isSome)

theorem readsAs_newWAL (cfg : Config) (answers : List Answer) : ReadsAs (newWAL cfg answers) [] :=
  ⟨[], [], rfl, .nil, torn_nil, .inl rfl⟩

theorem ReadsAs.readEntries_eq {w : WAL} {es : List Entry} (h : ReadsAs w es) :
    readEntries w.log = es := by
  obtain ⟨B, T, hl, hB, hT, -⟩ := h
  rw [hl, hB.read, hT.readEntries_eq, List.append_nil]

/-- A cut of the log, such as the file's contents without the buffered bytes, reads as a prefix. -/
theorem ReadsAs.take {w : WAL} {es : List Entry} (h : ReadsAs w es) (n : Nat) :
    readEntries (w.log.take n) <+: es := by
  obtain ⟨B, T, hl, hB, hT, -⟩ := h
  rw [hl, List.take_append_eq_append_take]
  by_cases hn : n ≤ B.length
  · rw [Nat.sub_eq_zero_of_le hn, List.take_zero, List.append_nil]
    exact hB.take n
  · simp only [List.take_of_length_le (show B.length ≤ n by omega), hB.read, hT (n - B.length),
      List.append_nil, List.prefix_refl]

/-- One call: the entries it adds are a prefix of those it set out to write, and hold those it
acknowledged. A torn part stays last: with the writer failed, the call adds nothing. -/
theorem ReadsAs.call {w : WAL} {es : List Entry} (h : ReadsAs w es) (op : Op)
    (hop : op.Readable) :
    ∃ es', ReadsAs (op.call w).2 (es ++ es') ∧
      List.Sublist (op.addedEntries (op.call w).1) es' ∧ es' <+: op.attempted w := by
  obtain ⟨B, T, hl, hB, hT, hfail⟩ := h
  obtain ⟨B', E', T', hl', hB', hE', hT', hfail'⟩ := call_grew op w hop
  have hack := addedEntries_sublist hop hl' hB' hT'
  rcases hfail with rfl | herr
  · exact ⟨E', ⟨B ++ B', T', by rw [hl', hl]; simp, hB.append hB', hT', hfail'⟩, hack, hE'⟩
  · obtain ⟨e, he⟩ := Option.isSome_iff_exists.mp herr
    obtain ⟨hwr, hf⟩ := call_writer_failed he op
    have hsame : (op.call w).2.log = w.log := by simp only [WAL.log, hwr, hf]
    rw [hsame, List.append_assoc, List.self_eq_append_right, List.append_eq_nil] at hl'
    obtain rfl : E' = [] := by rw [← hB'.readEntries_eq, hl'.1]; rfl
    refine ⟨[], ⟨B, T, by rw [hsame, hl], by rwa [List.append_nil], hT, .inr ?_⟩, hack,
      List.nil_prefix⟩
    rwa [hwr]

/-- A run: the entries its calls add are a sublist of those they set out to write, and hold those
they acknowledged. -/
theorem ReadsAs.run {w : WAL} {es : List Entry} (h : ReadsAs w es) (ops : List Op)
    (hops : ∀ op ∈ ops, op.Readable) :
    ∃ es', ReadsAs (run w ops).2 (es ++ es') ∧ List.Sublist (writtenEntries w ops) es' ∧
      List.Sublist es' (attemptedEntries w ops) := by
  induction ops generalizing w es with
  | nil => exact ⟨[], by rwa [List.append_nil], List.nil_sublist _, List.nil_sublist _⟩
  | cons op ops ih =>
    obtain ⟨e1, h1, hack1, hatt1⟩ := h.call op (hops op (List.mem_cons_self _ _))
    obtain ⟨e2, h2, hack2, hatt2⟩ := ih h1 fun o ho => hops o (List.mem_cons_of_mem _ ho)
    exact ⟨e1 ++ e2, by rwa [← List.append_assoc], hack1.append hack2,
      hatt1.sublist.append hatt2⟩

/-- Whatever the operating system answers, short writes and failed syncs included, the log of a
run from `NewWAL` reads back as entries that hold every entry a call acknowledged, and only entries
that calls set out to write, in call order; and any cut of the log, such as what the file holds
without the buffered bytes, reads as a prefix of them. -/
theorem readEntries_run_failures (cfg : Config) (answers : List Answer) (ops : List Op)
    (hops : ∀ op ∈ ops, op.Readable) :
    List.Sublist (writtenEntries (newWAL cfg answers) ops)
        (readEntries (run (newWAL cfg answers) ops).2.log) ∧
      List.Sublist (readEntries (run (newWAL cfg answers) ops).2.log)
        (attemptedEntries (newWAL cfg answers) ops) ∧
      ∀ n, readEntries ((run (newWAL cfg answers) ops).2.log.take n) <+:
        readEntries (run (newWAL cfg answers) ops).2.log := by
  obtain ⟨es, h, hack, hatt⟩ := (readsAs_newWAL cfg answers).run ops hops
  rw [List.nil_append] at h
  rw [h.readEntries_eq]
  exact ⟨hack, hatt, h.take⟩

/-- A WAL in SyncImmediate mode whose first write to the file fails after 10 bytes. -/
def immediateFailing : WAL := newWAL ⟨.syncImmediate, 0⟩ [.fail 10]

theorem readEntries_run_failed_flush :
    (∀ op ∈ [Op.append opTypePut [1] [2], .append opTypePut [3] [4]], op.Readable) ∧
      List.Sublist (writtenEntries immediateFailing
          [.append opTypePut [1] [2], .append opTypePut [3] [4]])
        (readEntries (run immediateFailing
          [.append opTypePut [1] [2], .append opTypePut [3] [4]]).2.log) ∧
      List.Sublist (readEntries (run immediateFailing
          [.append opTypePut [1] [2], .append opTypePut [3] [4]]).2.log)
        (attemptedEntries immediateFailing
          [.append opTypePut [1] [2], .append opTypePut [3] [4]]) ∧
      ∀ n, readEntries ((run immediateFailing
          [.append opTypePut [1] [2], .append opTypePut [3] [4]]).2.log.take n) <+:
        readEntries (run immediateFailing
          [.append opTypePut [1] [2], .append opTypePut [3] [4]]).2.log :=
  ⟨by decide, readEntries_run_failures _ _ _ (by decide)⟩

/-! ### A failed call whose entry is logged -/

/-- A flush of a clean writer with bytes to write, on an open file whose next answer is a failure,
fails. -/
theorem Writer.flush_fail {wr : Writer} {f : File} {n : Nat} {rest : List Answer}
    (he : wr.err = none) (hbuf : wr.buf ≠ []) (hopen : f.isOpen = true)
    (hans : f.answers = .fail n :: rest) : (wr.flush f).1 = some .failed := by
  simp [Writer.flush, he, hbuf, File.write, hopen, File.nextAnswer, hans]

/-- An entry can be in the log although its call failed: in SyncImmediate mode, an `Append` of an
entry that fits one record and the free buffer, whose flush the operating system fails, returns
that error, yet its record stays in the log, in the writer that failed with it. -/
theorem append_flush_failed_logged (w : WAL) (hact : w.status = .active)
    (hmode : w.cfg.walSyncMode = .syncImmediate) (he : w.writer.err = none)
    (hopen : w.file.isOpen = true) (n : Nat) (rest : List Answer)
    (hans : w.file.answers = .fail n :: rest) (entryType : UInt8) (key value : Bytes)
    (hop : validOpType entryType) (hseq : w.nextSequence < maxSequenceNumber)
    (hfit : entrySize entryType key value ≤ maxRecordSize)
    (hroom : headerSize + entrySize entryType key value ≤ w.writer.available) :
    (append w entryType key value).1 = .error (.flushBuffer .failed) ∧
      (append w entryType key value).2.log =
        w.log ++ frame (recordTypeFull, encodePayload entryType w.nextSequence key value) ∧
      (append w entryType key value).2.writer.err = some .failed := by
  obtain ⟨w1, heq, hf, hcfg, hst, he1, hlog⟩ := append_buffered hact he hop hseq hfit hroom
  have hbuf : w1.writer.buf ≠ [] := by
    intro hnil
    rw [WAL.log, WAL.log, Writer.log, Writer.log, hf, hnil] at hlog
    simpa [frame, headerSize] using congrArg List.length hlog
  have hfail := Writer.flush_fail he1 hbuf (hf ▸ hopen) (hf ▸ hans)
  have hsync : maybeSync w1 = (some (.flushBuffer .failed),
      { w1 with writer := (w1.writer.flush w1.file).2.1, file := (w1.writer.flush w1.file).2.2 }) := by
    rcases hfl : w1.writer.flush w1.file with ⟨e, wr, f⟩
    rw [hfl] at hfail
    subst hfail
    simp [maybeSync, syncLocked, hcfg, hmode, hst, hact, hfl]
  rw [heq, hsync]
  exact ⟨rfl, (Writer.flush_log w1.writer w1.file).trans hlog, (Writer.flush_err _ _).trans hfail⟩

theorem append_flush_failed_logged_put :
    immediateFailing.status = .active ∧ immediateFailing.cfg.walSyncMode = .syncImmediate ∧
      immediateFailing.writer.err = none ∧ immediateFailing.file.isOpen = true ∧
      immediateFailing.file.answers = .fail 10 :: [] ∧ validOpType opTypePut ∧
      immediateFailing.nextSequence < maxSequenceNumber ∧
      entrySize opTypePut [1] [2] ≤ maxRecordSize ∧
      headerSize + entrySize opTypePut [1] [2] ≤ immediateFailing.writer.available ∧
      ((append immediateFailing opTypePut [1] [2]).1 = .error (.flushBuffer .failed) ∧
        (append immediateFailing opTypePut [1] [2]).2.log = immediateFailing.log ++
          frame (recordTypeFull, encodePayload opTypePut immediateFailing.nextSequence [1] [2]) ∧
        (append immediateFailing opTypePut [1] [2]).2.writer.err = some .failed) :=
  ⟨by decide, rfl, rfl, rfl, rfl, by decide, by decide, by decide, by decide,
    append_flush_failed_logged immediateFailing rfl rfl rfl rfl 10 [] rfl opTypePut [1] [2]
      (by decide) (by decide) (by decide) (by decide)⟩

end Kevo.Wal
