import Kevo.Wal.Run

/-! Sequence numbers along runs. Every call but `AppendExactBytes` under `2^64 - 1` leaves
`nextSequence` at least where it was, and a call that hands out a sequence number leaves
`nextSequence` above it (`call_sequenced`). An empty batch returns `nextSequence` without taking
it, so it hands out nothing. Along a run with no call that wraps, then, `nextSequence` only rises
and stays above every number handed out so far (`run_sequenced`), and `Append` and `AppendBatch`
never return a number that an earlier call handed out (`append_fresh`). -/

namespace Kevo.Wal

/-- `AppendExactBytes` under `2^64 - 1`, the one call whose `seq + 1` wraps `nextSequence` to 0. -/
def Op.Wraps : Op → Prop
  | .appendExactBytes _ s => s = 18446744073709551615
  | _ => False

instance : (op : Op) → Decidable op.Wraps
  | .appendExactBytes _ s => inferInstanceAs (Decidable (s = 18446744073709551615))
  | .append .. | .appendWithSequence .. | .appendBatch _ | .appendBatchWithSequence .. | .sync
  | .updateNextSequence _ | .setRotating | .setActive | .close => isFalse id

/-- The sequence number that a call hands out when it returns: the number returned by an append
call, unless its batch is empty. -/
def Op.handsOut : Op → Outcome (Option UInt64) → Option UInt64
  | .appendBatch [], _ => none
  | .appendBatchWithSequence [] _, _ => none
  | _, .ok s => s
  | _, _ => none

/-- An empty batch returns the next number without taking it: the next append returns it again,
which is why `handsOut` leaves empty batches out. -/
theorem appendBatch_nil {w : WAL} (hact : w.status = .active) :
    appendBatch w [] = (.ok w.nextSequence, w) := by
  simp [appendBatch, statusError_eq_none.mpr hact]

/-- The sequence numbers handed out by the calls `ops` from `w`, in call order. -/
def handedOut (w : WAL) : List Op → List UInt64
  | [] => []
  | op :: ops => (op.handsOut (op.call w).1).toList ++ handedOut (op.call w).2 ops

/-- What an append call that returned `r` from `w` did to sequence numbers: `nextSequence` did not
fall, and a number it returned is below the new one. -/
structure Raised (w : WAL) (r : Outcome UInt64 × WAL) : Prop where
  mono : w.nextSequence.toNat ≤ r.2.nextSequence.toNat
  above : ∀ s, r.1 = .ok s → s.toNat < r.2.nextSequence.toNat

theorem Raised.of_guard {w : WAL} {r : Outcome UInt64 × WAL} {e : WalError} (he : r.1 = .error e)
    (hw : r.2 = w) : Raised w r :=
  ⟨by rw [hw], fun _ h => by rw [he] at h; cases h⟩

/-- `seq + 1` wraps only at `2^64 - 1`. -/
theorem toNat_succ_of_ne {seq : UInt64} (h : seq ≠ 18446744073709551615) :
    (seq + 1).toNat = seq.toNat + 1 := by
  have hne : seq.toNat ≠ 18446744073709551615 := fun h' => h (UInt64.eq_of_val_eq (Fin.ext h'))
  have hsize := seq.toNat_lt_size
  have hone : (1 : UInt64).toNat = 1 := rfl
  rw [UInt64.toNat_add, hone]
  exact Nat.mod_eq_of_lt (by simp only [UInt64.size] at hsize ⊢; omega)

/-- The raise of `nextSequence` past `seq`, when `seq + 1` does not wrap. -/
theorem toNat_raise {seq n : UInt64} (h : seq ≠ 18446744073709551615) :
    (if seq ≥ n then seq + 1 else n).toNat = max n.toNat (seq.toNat + 1) := by
  split
  · rename_i hge
    have hle : n.toNat ≤ seq.toNat := hge
    rw [toNat_succ_of_ne h]; omega
  · rename_i hlt
    have hlt' : seq.toNat < n.toNat := UInt64.not_le.mp hlt
    omega

theorem ne_max_of_lt_max {seq : UInt64} (h : seq < maxSequenceNumber) :
    seq ≠ 18446744073709551615 := by
  rintro rfl; exact absurd h (by decide)

/-! ### One call -/

theorem append_raised (w : WAL) (entryType : UInt8) (key value : Bytes) :
    Raised w (append w entryType key value) := by
  rcases append_cases w entryType key value with ⟨e, he, -, hw⟩ | ⟨-, -, hnext, w0, -, -, hs, heq⟩
  · exact .of_guard he hw
  have ha := appendEntry_appended w0 entryType w.nextSequence key value
  rw [← heq] at ha
  have hn : (append w entryType key value).2.nextSequence.toNat = w.nextSequence.toNat + 1 := by
    rw [ha.frame.nextSequence, hs, toNat_succ_of_lt_max hnext]
  refine ⟨by omega, fun s h => ?_⟩
  rw [(ha.ok s h).1, hn]; omega

theorem appendWithSequence_raised (w : WAL) (entryType : UInt8) (key value : Bytes)
    (seq : UInt64) : Raised w (appendWithSequence w entryType key value seq) := by
  rcases appendWithSequence_cases w entryType key value seq with
    ⟨e, he, -, hw⟩ | ⟨-, -, hseq, w0, -, -, hs, heq⟩
  · exact .of_guard he hw
  have ha := appendEntry_appended w0 entryType seq key value
  rw [← heq] at ha
  have hn : (appendWithSequence w entryType key value seq).2.nextSequence.toNat =
      max w.nextSequence.toNat (seq.toNat + 1) := by
    rw [ha.frame.nextSequence, hs, toNat_raise (ne_max_of_lt_max hseq)]
  refine ⟨by omega, fun s h => ?_⟩
  rw [(ha.ok s h).1, hn]; omega

/-- A batch raises `nextSequence` only after its write loop succeeds, and returns the number below
it; an empty batch changes nothing. -/
theorem appendBatch_raised (w : WAL) {entries : List Entry} (hne : entries ≠ []) :
    Raised w (appendBatch w entries) := by
  unfold appendBatch
  split
  · exact .of_guard rfl rfl
  rw [if_neg hne]
  split
  · exact .of_guard rfl rfl
  rename_i hnext
  have hn : (w.nextSequence + 1).toNat = w.nextSequence.toNat + 1 :=
    toNat_succ_of_lt_max (UInt64.not_le.mp hnext)
  simp only [warnOverflow_nextSequence]
  obtain ⟨hfr, -⟩ := writeBatch_ok (warnOverflow w w.nextSequence) entries w.nextSequence
  rcases hb : writeBatch (warnOverflow w w.nextSequence) entries w.nextSequence with ⟨_ | e, w'⟩ <;>
    rw [hb] at hfr <;> dsimp only
  · have hsy := maybeSync_synced { w' with nextSequence := w.nextSequence + 1 }
    rcases hm : maybeSync { w' with nextSequence := w.nextSequence + 1 } with ⟨_ | e, w''⟩ <;>
      rw [hm] at hsy <;> refine ⟨by rw [hsy.frame.nextSequence]; dsimp only; omega, ?_⟩
    · rintro s ⟨⟩
      rw [hsy.frame.nextSequence]; dsimp only; omega
    · nofun
  · exact ⟨by rw [hfr.nextSequence, warnOverflow_nextSequence], nofun⟩

theorem appendBatchWithSequence_raised (w : WAL) {entries : List Entry} (hne : entries ≠ [])
    (startSequence : UInt64) : Raised w (appendBatchWithSequence w entries startSequence) := by
  unfold appendBatchWithSequence
  split
  · exact .of_guard rfl rfl
  rw [if_neg hne]
  split
  · exact .of_guard rfl rfl
  rename_i hseq
  have hs : (startSequence + 1).toNat = startSequence.toNat + 1 :=
    toNat_succ_of_lt_max (UInt64.not_le.mp hseq)
  obtain ⟨hfr, -⟩ := writeBatch_ok (warnOverflow w startSequence) entries startSequence
  rcases hb : writeBatch (warnOverflow w startSequence) entries startSequence with
    ⟨_ | e, w'⟩ <;> rw [hb] at hfr <;> dsimp only
  · have hw' : w'.nextSequence = w.nextSequence := by
      rw [hfr.nextSequence, warnOverflow_nextSequence]
    have hraise : (if startSequence + 1 > w'.nextSequence then
        { w' with nextSequence := startSequence + 1 } else w').nextSequence.toNat =
        max w.nextSequence.toNat (startSequence.toNat + 1) := by
      split <;> rename_i hc
      · have hc' : w'.nextSequence.toNat < (startSequence + 1).toNat := hc
        rw [← hw']; dsimp only; omega
      · have hc' : ¬ w'.nextSequence.toNat < (startSequence + 1).toNat := hc
        rw [← hw']; omega
    have hsy := maybeSync_synced (if startSequence + 1 > w'.nextSequence then
      { w' with nextSequence := startSequence + 1 } else w')
    rcases hm : maybeSync (if startSequence + 1 > w'.nextSequence then
      { w' with nextSequence := startSequence + 1 } else w') with ⟨_ | e, w''⟩ <;>
      rw [hm] at hsy <;> refine ⟨by rw [hsy.frame.nextSequence, hraise]; omega, ?_⟩
    · rintro s ⟨⟩
      rw [hsy.frame.nextSequence, hraise]; omega
    · nofun
  · exact ⟨by rw [hfr.nextSequence, warnOverflow_nextSequence], nofun⟩

/-- `AppendExactBytes` raises `nextSequence` past its sequence number before it writes, unless
that number is `2^64 - 1`. -/
theorem appendExactBytes_raised (w : WAL) (rawBytes : Bytes) {seqNum : UInt64}
    (h : seqNum ≠ 18446744073709551615) : Raised w (appendExactBytes w rawBytes seqNum) := by
  rcases appendExactBytes_cases w rawBytes seqNum with ⟨e, he, hw, -⟩ | ⟨-, -, hx⟩
  · exact .of_guard he hw
  have hn : (appendExactBytes w rawBytes seqNum).2.nextSequence.toNat =
      max w.nextSequence.toNat (seqNum.toNat + 1) := by
    rw [hx.frame.nextSequence, ← toNat_raise h]
    split <;> rfl
  refine ⟨by omega, fun s hs => ?_⟩
  rcases hx.result with ⟨hok, -⟩ | ⟨e, he, -⟩ | ⟨e, he, -⟩ | ⟨m, he, -⟩ <;> rw [hs] at *
  · cases hok; omega
  all_goals cases he

theorem appendBatch_nil_snd (w : WAL) : (appendBatch w []).2 = w := by
  unfold appendBatch; split <;> rfl

theorem appendBatchWithSequence_nil_snd (w : WAL) (startSequence : UInt64) :
    (appendBatchWithSequence w [] startSequence).2 = w := by
  unfold appendBatchWithSequence; split <;> rfl

theorem updateNextSequence_mono (w : WAL) (nextSeq : UInt64) :
    w.nextSequence.toNat ≤ (updateNextSequence w nextSeq).nextSequence.toNat := by
  unfold updateNextSequence
  split
  · exact Nat.le_of_lt ‹_›
  · exact le_rfl

theorem close_nextSequence (w : WAL) : (close w).2.nextSequence = w.nextSequence := by
  unfold close
  split
  · rfl
  split
  · rfl
  split
  · rfl
  split <;> rfl

/-! ### Calls and runs -/

theorem handsOut_some {op : Op} {o : Outcome (Option UInt64)} {s : UInt64}
    (h : op.handsOut o = some s) : o = .ok (some s) := by
  unfold Op.handsOut at h
  split at h <;> simp_all

/-- What a call did to sequence numbers: `nextSequence` did not fall, and a number it handed out
is below the new one. -/
structure Sequenced (op : Op) (w : WAL) : Prop where
  mono : w.nextSequence.toNat ≤ (op.call w).2.nextSequence.toNat
  above : ∀ s, op.handsOut (op.call w).1 = some s → s.toNat < (op.call w).2.nextSequence.toNat

theorem Sequenced.of_raised {op : Op} {w : WAL} {r : Outcome UInt64 × WAL}
    (hr : op.call w = (r.1.map some, r.2)) (h : Raised w r) : Sequenced op w := by
  refine ⟨by rw [hr]; exact h.mono, fun s hs => ?_⟩
  have ho := handsOut_some hs
  rw [hr] at ho ⊢
  rcases hr1 : r.1 with a | e | m <;> rw [hr1] at ho <;> cases ho
  exact h.above s hr1

/-- A call that hands out nothing and does not lower `nextSequence`. -/
theorem Sequenced.of_quiet {op : Op} {w : WAL}
    (hmono : w.nextSequence.toNat ≤ (op.call w).2.nextSequence.toNat)
    (hnone : ∀ s, (op.call w).1 ≠ .ok (some s)) : Sequenced op w :=
  ⟨hmono, fun s hs => absurd (handsOut_some hs) (hnone s)⟩

/-- Every call that does not wrap keeps sequence numbers in order. -/
theorem call_sequenced (op : Op) (w : WAL) (hw : ¬op.Wraps) : Sequenced op w := by
  cases op with
  | append t k v => exact .of_raised rfl (append_raised w t k v)
  | appendWithSequence t k v s => exact .of_raised rfl (appendWithSequence_raised w t k v s)
  | appendBatch es =>
    cases es with
    | nil => exact ⟨by simp only [Op.call, appendBatch_nil_snd, le_rfl],
      fun _ h => by simp [Op.handsOut] at h⟩
    | cons e rest => exact .of_raised rfl (appendBatch_raised w (List.cons_ne_nil e rest))
  | appendBatchWithSequence es s =>
    cases es with
    | nil => exact ⟨by simp only [Op.call, appendBatchWithSequence_nil_snd, le_rfl],
      fun _ h => by simp [Op.handsOut] at h⟩
    | cons e rest =>
      exact .of_raised rfl (appendBatchWithSequence_raised w (List.cons_ne_nil e rest) s)
  | appendExactBytes raw s => exact .of_raised rfl (appendExactBytes_raised w raw hw)
  | updateNextSequence n => exact .of_quiet (updateNextSequence_mono w n) fun _ h => by cases h
  | sync =>
    refine .of_quiet ?_ fun s h => nomatch map_none_eq_ok h
    simp only [Op.call, sync_snd, (syncLocked_synced w).1.frame.nextSequence, le_rfl]
  | setRotating => exact .of_quiet le_rfl fun _ h => by cases h
  | setActive => exact .of_quiet le_rfl fun _ h => by cases h
  | close =>
    refine .of_quiet ?_ fun s h => nomatch map_none_eq_ok h
    simp only [Op.call, close_nextSequence, le_rfl]

theorem run_raised (w : WAL) (ops : List Op) (hw : ∀ op ∈ ops, ¬op.Wraps) :
    w.nextSequence.toNat ≤ (run w ops).2.nextSequence.toNat ∧
      ∀ s ∈ handedOut w ops, s.toNat < (run w ops).2.nextSequence.toNat := by
  induction ops generalizing w with
  | nil => exact ⟨le_rfl, nofun⟩
  | cons op ops ih =>
    have hs := call_sequenced op w (hw op (List.mem_cons_self _ _))
    obtain ⟨hmono, hbelow⟩ := ih (op.call w).2 fun o ho => hw o (List.mem_cons_of_mem _ ho)
    refine ⟨hs.mono.trans hmono, fun s hmem => ?_⟩
    rcases List.mem_append.mp hmem with h | h
    · exact (hs.above s (Option.mem_toList.mp h)).trans_le hmono
    · exact hbelow s h

/-- Along a run with no call that wraps, `nextSequence` never falls, and every number handed out
stays below it. -/
theorem run_sequenced (w : WAL) (ops : List Op) (hw : ∀ op ∈ ops, ¬op.Wraps) :
    w.nextSequence.toNat ≤ (run w ops).2.nextSequence.toNat ∧
      ∀ s ∈ handedOut w ops, s.toNat < (run w ops).2.nextSequence.toNat :=
  run_raised w ops hw

/-- An `AppendWithSequence` under 5 and an `AppendBatch` of one entry. -/
def twoCalls : List Op :=
  [.appendWithSequence opTypePut [1] [2] 5, .appendBatch [⟨0, opTypePut, [3], [4]⟩]]

theorem run_sequenced_two_calls :
    (∀ op ∈ twoCalls, ¬op.Wraps) ∧
    ((newWAL ⟨.syncNone, 0⟩ []).nextSequence.toNat ≤
        (run (newWAL ⟨.syncNone, 0⟩ []) twoCalls).2.nextSequence.toNat ∧
      ∀ s ∈ handedOut (newWAL ⟨.syncNone, 0⟩ []) twoCalls,
        s.toNat < (run (newWAL ⟨.syncNone, 0⟩ []) twoCalls).2.nextSequence.toNat) :=
  ⟨by decide, run_sequenced _ _ (by decide)⟩

/-! ### Fresh numbers -/

theorem append_ok {w : WAL} {entryType : UInt8} {key value : Bytes} {s : UInt64}
    (h : (append w entryType key value).1 = .ok s) : s = w.nextSequence := by
  rcases append_cases w entryType key value with ⟨e, he, -, -⟩ | ⟨-, -, -, w0, -, -, -, heq⟩
  · rw [he] at h; cases h
  · rw [heq] at h
    exact ((appendEntry_appended w0 entryType w.nextSequence key value).ok s h).1

theorem appendBatch_ok {w : WAL} {entries : List Entry} {s : UInt64} (hne : entries ≠ [])
    (h : (appendBatch w entries).1 = .ok s) : s = w.nextSequence := by
  unfold appendBatch at h
  split at h
  · cases h
  rw [if_neg hne] at h
  split at h
  · cases h
  simp only [warnOverflow_nextSequence] at h
  rcases hb : writeBatch (warnOverflow w w.nextSequence) entries w.nextSequence with
    ⟨_ | e, w'⟩ <;> rw [hb] at h <;> dsimp only at h
  · rcases hm : maybeSync { w' with nextSequence := w.nextSequence + 1 } with ⟨_ | e, w''⟩ <;>
      rw [hm] at h <;> cases h
    rfl
  · cases h

/-- Sequence numbers are never handed out twice by `Append` and `AppendBatch`: along a run with no
call that wraps, an `Append`, or an `AppendBatch` of a non-empty batch, that succeeds after it
returns a number above every number that a call of the run handed out. -/
theorem append_fresh (w : WAL) (ops : List Op) (hw : ∀ op ∈ ops, ¬op.Wraps) :
    (∀ entryType key value s, (append (run w ops).2 entryType key value).1 = .ok s →
      ∀ s' ∈ handedOut w ops, s'.toNat < s.toNat) ∧
    (∀ entries s, entries ≠ [] → (appendBatch (run w ops).2 entries).1 = .ok s →
      ∀ s' ∈ handedOut w ops, s'.toNat < s.toNat) := by
  have hbelow := (run_raised w ops hw).2
  exact ⟨fun _ _ _ s h s' hs' => append_ok h ▸ hbelow s' hs',
    fun _ s hne h s' hs' => appendBatch_ok hne h ▸ hbelow s' hs'⟩

theorem append_fresh_two_calls :
    (∀ op ∈ twoCalls, ¬op.Wraps) ∧
    ((∀ entryType key value s,
        (append (run (newWAL ⟨.syncNone, 0⟩ []) twoCalls).2 entryType key value).1 = .ok s →
      ∀ s' ∈ handedOut (newWAL ⟨.syncNone, 0⟩ []) twoCalls, s'.toNat < s.toNat) ∧
    (∀ entries s, entries ≠ [] →
        (appendBatch (run (newWAL ⟨.syncNone, 0⟩ []) twoCalls).2 entries).1 = .ok s →
      ∀ s' ∈ handedOut (newWAL ⟨.syncNone, 0⟩ []) twoCalls, s'.toNat < s.toNat)) :=
  ⟨by decide, append_fresh _ _ (by decide)⟩

end Kevo.Wal
