import Kevo.Wal.ExactBytes

/-! Runs of the WAL: any sequence of calls of its API (`Op`), one after the other, each holding the
mutex for its whole body. A call that fails without changing the log leaves the log as it was, and
one that succeeds adds its records (`call_stepped`), so along a run in which no failing call has
written, the log is the records of the successful calls in call order (`run_log`). Since a closed
WAL has nothing buffered, a `Close` that returns nil leaves all of them in the file
(`close_keeps_appended`). -/

namespace Kevo.Wal

/-- `Outcome` as a functor: the value mapped, errors and panics kept. -/
def Outcome.map {α β : Type} (f : α → β) : Outcome α → Outcome β
  | .ok a => .ok (f a)
  | .error e => .error e
  | .panic m => .panic m

/-- Whether a call returned normally. -/
def Outcome.isOk {α : Type} : Outcome α → Bool
  | .ok _ => true
  | _ => false

/-- A call of the WAL's API, with its arguments. -/
inductive Op where
  | append (entryType : UInt8) (key value : Bytes)
  | appendWithSequence (entryType : UInt8) (key value : Bytes) (seq : UInt64)
  | appendBatch (entries : List Entry)
  | appendBatchWithSequence (entries : List Entry) (startSequence : UInt64)
  | appendExactBytes (rawBytes : Bytes) (seqNum : UInt64)
  | updateNextSequence (nextSeq : UInt64)
  | sync
  | setRotating
  | setActive
  | close
  deriving DecidableEq, Repr

/-- One call: an append returns its sequence number, the other calls nothing. -/
def Op.call : Op → WAL → Outcome (Option UInt64) × WAL
  | .append t k v, w => ((Wal.append w t k v).1.map some, (Wal.append w t k v).2)
  | .appendWithSequence t k v s, w =>
    ((Wal.appendWithSequence w t k v s).1.map some, (Wal.appendWithSequence w t k v s).2)
  | .appendBatch es, w => ((Wal.appendBatch w es).1.map some, (Wal.appendBatch w es).2)
  | .appendBatchWithSequence es s, w =>
    ((Wal.appendBatchWithSequence w es s).1.map some, (Wal.appendBatchWithSequence w es s).2)
  | .appendExactBytes raw s, w =>
    ((Wal.appendExactBytes w raw s).1.map some, (Wal.appendExactBytes w raw s).2)
  | .updateNextSequence n, w => (.ok none, Wal.updateNextSequence w n)
  | .sync, w => ((Wal.sync w).1.map fun _ => none, (Wal.sync w).2)
  | .setRotating, w => (.ok none, Wal.setRotating w)
  | .setActive, w => (.ok none, Wal.setActive w)
  | .close, w => ((Wal.close w).1.map fun _ => none, (Wal.close w).2)

/-- The bytes that an append call adds to the log when it returns `s`: its entry's records, its
batch's records, or the caller's record. The other calls add none. -/
def Op.records : Op → UInt64 → Bytes
  | .append t k v, s | .appendWithSequence t k v _, s => ((entryRecords t s k v).map frame).flatten
  | .appendBatch es, s | .appendBatchWithSequence es _, s => ((batchRecords es s).map frame).flatten
  | .appendExactBytes raw _, _ => raw
  | _, _ => []

/-- The bytes that a call added, by what it returned: its records when it returned a sequence
number, none otherwise. -/
def Op.added (op : Op) : Outcome (Option UInt64) → Bytes
  | .ok (some s) => op.records s
  | _ => []

/-- The calls `ops` one after the other from `w`: their outcomes, and the state after them. -/
def run (w : WAL) : List Op → List (Outcome (Option UInt64)) × WAL
  | [] => ([], w)
  | op :: ops => ((op.call w).1 :: (run (op.call w).2 ops).1, (run (op.call w).2 ops).2)

/-- The bytes that the calls `ops` from `w` added, in call order. -/
def written (w : WAL) : List Op → Bytes
  | [] => []
  | op :: ops => op.added (op.call w).1 ++ written (op.call w).2 ops

/-- No call of `ops` from `w` that failed, by an error or a panic, changed the log. -/
def NoFailedWrite (w : WAL) : List Op → Prop
  | [] => True
  | op :: ops =>
    ((op.call w).1.isOk = false → (op.call w).2.log = w.log) ∧ NoFailedWrite (op.call w).2 ops

instance instDecidableNoFailedWrite : (w : WAL) → (ops : List Op) → Decidable (NoFailedWrite w ops)
  | _, [] => isTrue trivial
  | w, op :: ops =>
    haveI := instDecidableNoFailedWrite (op.call w).2 ops
    inferInstanceAs (Decidable (_ ∧ _))

/-! ### One call -/

/-- A closed WAL has nothing buffered. -/
def ClosedFlushed (w : WAL) : Prop := w.status = .closed → w.writer.buf = []

instance (w : WAL) : Decidable (ClosedFlushed w) :=
  inferInstanceAs (Decidable (w.status = .closed → w.writer.buf = []))

/-- What a call did from `w`, as a run sees it: it kept `ClosedFlushed`, and on success the log
grew by the call's records. -/
structure Stepped (op : Op) (w : WAL) : Prop where
  inv : ClosedFlushed w → ClosedFlushed (op.call w).2
  ok : ∀ a, (op.call w).1 = .ok a → (op.call w).2.log = w.log ++ op.added (.ok a)

@[simp] theorem Op.added_none (op : Op) : op.added (.ok none) = [] := rfl

/-- A call that keeps the log and returns nothing. -/
theorem Stepped.of_quiet {op : Op} {w : WAL} (hok : ∀ a, (op.call w).1 = .ok a → a = none)
    (hlog : (op.call w).2.log = w.log) (hinv : ClosedFlushed w → ClosedFlushed (op.call w).2) :
    Stepped op w :=
  ⟨hinv, fun a h => by rw [hok a h, hlog, Op.added_none, List.append_nil]⟩

theorem map_none_eq_ok {α : Type} {o : Outcome α} {a : Option UInt64}
    (h : o.map (fun _ => none) = .ok a) : a = none := by
  cases o <;> cases h; rfl

theorem Stepped.of_logged {op : Op} {w : WAL} {r : Outcome UInt64 × WAL}
    (hr : op.call w = (r.1.map some, r.2)) (h : Logged w r op.records) : Stepped op w := by
  refine ⟨fun hinv hcl => ?_, fun a ha => ?_⟩
  · rw [hr] at hcl ⊢
    have hc : w.status = .closed := h.status ▸ hcl
    rw [h.inactive (by rw [hc]; nofun)]
    exact hinv hc
  · rw [hr] at ha ⊢
    rcases hr1 : r.1 with s | e | m <;> rw [hr1] at ha <;> cases ha
    exact h.ok s hr1

/-- `Close` keeps the log, returns nil only with the WAL closed, and leaves nothing buffered when
it closes it. -/
theorem close_spec (w : WAL) :
    (close w).2.log = w.log ∧ (ClosedFlushed w → ClosedFlushed (close w).2) ∧
      ((close w).1 = .ok () → (close w).2.status = .closed) := by
  unfold close
  split
  · exact ⟨rfl, id, fun _ => ‹_›⟩
  rename_i hst
  have hl := Writer.flush_log w.writer w.file
  have hok := @Writer.flush_ok w.writer w.file
  rcases hf : w.writer.flush w.file with ⟨_ | e, wr, f⟩ <;> rw [hf] at hl hok <;>
    dsimp only at hl hok ⊢
  · simp only [WAL.log, Writer.log] at hl ⊢
    have hsd := File.sync_data f
    rcases hs : f.sync with ⟨_ | e, f1⟩ <;> rw [hs] at hsd <;> dsimp only at hsd ⊢
    · have hcd := File.close_data f1
      rcases hc : f1.close with ⟨_ | e, f2⟩ <;> rw [hc] at hcd <;> dsimp only at hcd ⊢
      · exact ⟨by rw [hcd, hsd, hl], fun _ _ => hok rfl, fun _ => rfl⟩
      · exact ⟨by rw [hcd, hsd, hl], (fun _ => by intro h; cases h), nofun⟩
    · exact ⟨by rw [hsd, hl], (fun _ => by intro h; exact absurd h hst), nofun⟩
  · exact ⟨hl, (fun _ => by intro h; exact absurd h hst), nofun⟩

theorem sync_snd (w : WAL) : (sync w).2 = (syncLocked w).2 := by
  unfold sync; split <;> rename_i h <;> rw [h]

theorem updateNextSequence_log_status (w : WAL) (nextSeq : UInt64) :
    (updateNextSequence w nextSeq).log = w.log ∧
      (updateNextSequence w nextSeq).status = w.status ∧
      (updateNextSequence w nextSeq).writer = w.writer := by
  unfold updateNextSequence; split
  · exact ⟨warnOverflow_log w nextSeq, warnOverflow_status w nextSeq, warnOverflow_writer w nextSeq⟩
  · exact ⟨rfl, rfl, rfl⟩

/-- Every call is a step of a run. -/
theorem call_stepped (op : Op) (w : WAL) : Stepped op w := by
  cases op with
  | append t k v => exact .of_logged rfl (append_logged w t k v)
  | appendWithSequence t k v s => exact .of_logged rfl (appendWithSequence_logged w t k v s)
  | appendBatch es => exact .of_logged rfl (appendBatch_logged w es)
  | appendBatchWithSequence es s => exact .of_logged rfl (appendBatchWithSequence_logged w es s)
  | appendExactBytes raw s => exact .of_logged rfl (appendExactBytes_logged w raw s)
  | updateNextSequence n =>
    obtain ⟨hl, hs, hw⟩ := updateNextSequence_log_status w n
    exact .of_quiet (fun _ h => by cases h; rfl) hl fun hinv hcl => by
      simp only [Op.call, ClosedFlushed, hs, hw] at hcl ⊢; exact hinv hcl
  | sync =>
    have hsy := (syncLocked_synced w).1
    refine .of_quiet (fun _ => map_none_eq_ok) (by simp only [Op.call, sync_snd, hsy.log])
      fun hinv hcl => ?_
    simp only [Op.call, sync_snd, ClosedFlushed, hsy.frame.status] at hcl ⊢
    simp only [syncLocked, hcl]
    exact hinv hcl
  | setRotating => exact .of_quiet (fun _ h => by cases h; rfl) rfl fun _ h => nomatch h
  | setActive => exact .of_quiet (fun _ h => by cases h; rfl) rfl fun _ h => nomatch h
  | close =>
    obtain ⟨hl, hinv, -⟩ := close_spec w
    exact .of_quiet (fun _ => map_none_eq_ok) hl hinv

/-! ### Runs -/

/-- Along a run in which no failing call changed the log, the log grows by the records of the
successful calls, in call order, and a closed WAL never has anything buffered. -/
theorem run_log (w : WAL) (ops : List Op) (hclean : NoFailedWrite w ops)
    (hinv : ClosedFlushed w) :
    ClosedFlushed (run w ops).2 ∧ (run w ops).2.log = w.log ++ written w ops := by
  induction ops generalizing w with
  | nil => exact ⟨hinv, by simp [run, written]⟩
  | cons op ops ih =>
    obtain ⟨hfail, hrest⟩ := hclean
    have hs := call_stepped op w
    have hlog : (op.call w).2.log = w.log ++ op.added (op.call w).1 := by
      rcases hr : (op.call w).1 with a | e | m
      · exact hs.ok a hr
      all_goals rw [hfail (by rw [hr]; rfl)]; simp [Op.added]
    obtain ⟨hinv', hlog'⟩ := ih (op.call w).2 hrest (hs.inv hinv)
    exact ⟨hinv', by simp only [run, written, hlog', hlog, List.append_assoc]⟩

/-- Durability of `Close`: from any WAL that has nothing buffered once closed, as one that `NewWAL`
or `ReuseWAL` opens, after a run in which no failing call changed the log, a `Close` that returns
nil leaves in the file the log the run started from and then exactly the records of the append
calls that succeeded, in call order, whatever the status changes and writer replacements on the
way. -/
theorem close_keeps_appended (w : WAL) (ops : List Op) (hinv : ClosedFlushed w)
    (hclean : NoFailedWrite w ops) (hclose : (close (run w ops).2).1 = .ok ()) :
    (close (run w ops).2).2.file.data = w.log ++ written w ops := by
  obtain ⟨hinv', hlog⟩ := run_log w ops hclean hinv
  obtain ⟨hl, hcl, hst⟩ := close_spec (run w ops).2
  have hbuf := hcl hinv' (hst hclose)
  calc (close (run w ops).2).2.file.data = (close (run w ops).2).2.log := by
        simp [WAL.log, Writer.log, hbuf]
    _ = w.log ++ written w ops := by rw [hl, hlog]

/-- A WAL whose file already holds a synced record. -/
def oneSynced : WAL := (run (newWAL ⟨.syncNone, 0⟩ []) [.append opTypePut [1] [2], .sync]).2

theorem close_keeps_appended_after_rotating :
    ClosedFlushed oneSynced ∧ oneSynced.file.data ≠ [] ∧
      NoFailedWrite oneSynced [.append opTypePut [3] [4], .setRotating] ∧
      (close (run oneSynced [.append opTypePut [3] [4], .setRotating]).2).1 = .ok () ∧
      (close (run oneSynced [.append opTypePut [3] [4], .setRotating]).2).2.file.data =
        oneSynced.log ++ written oneSynced [.append opTypePut [3] [4], .setRotating] :=
  ⟨by decide, by decide, by decide, by decide,
    close_keeps_appended _ _ (by decide) (by decide) (by decide)⟩

/-- `AppendExactBytes` under `2^64 - 1` wraps `nextSequence` from 1 to 0; the next `Append` then
returns 0, below the sequence number of the record already in the log. -/
theorem run_wraps_nextSequence :
    (run (newWAL ⟨.syncNone, 0⟩ [])
        [.appendExactBytes [0, 0, 0, 0, 1, 0, 1, 5] 18446744073709551615,
          .append opTypePut [1] [2]]).1 =
      [.ok (some 18446744073709551615), .ok (some 0)] ∧
    (run (newWAL ⟨.syncNone, 0⟩ [])
        [.appendExactBytes [0, 0, 0, 0, 1, 0, 1, 5] 18446744073709551615]).2.nextSequence = 0 := by
  decide

end Kevo.Wal
