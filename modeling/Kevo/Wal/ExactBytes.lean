import Kevo.Wal.Batch

/-! `AppendExactBytes`, the path that writes a record framed by the caller. After its two checks on
the record's length it raises `nextSequence` past the caller's sequence number and writes the
record as it is (`appendExactBytes_spec`). It has no overflow check, unlike the other append paths,
and it reads the first byte of the payload after the write, which panics on an empty payload. -/

namespace Kevo.Wal

/-- Below `MaxSequenceNumber`, `seq + 1` does not wrap. -/
theorem toNat_succ_of_lt_max {seq : UInt64} (h : seq < maxSequenceNumber) :
    (seq + 1).toNat = seq.toNat + 1 := by
  have h' : seq.toNat < maxSequenceNumber.toNat := h
  rw [maxSequenceNumber_toNat] at h'
  rw [UInt64.toNat_add]
  exact Nat.mod_eq_of_lt (by simp [UInt64.size]; omega)

/-- How the write of `AppendExactBytes` ended, from the state `w` in which `nextSequence` was
raised: the frame is kept, and the call returned `seqNum` with `rawBytes` appended, or an error of
the write after a prefix of `rawBytes`, or an error of the sync after all of it, or, when the
payload is empty, a panic after all of it. -/
structure ExactWrite (w : WAL) (r : Outcome UInt64 × WAL) (rawBytes : Bytes) (seqNum : UInt64) :
    Prop where
  frame : Frame w r.2
  result : (r.1 = .ok seqNum ∧ r.2.log = w.log ++ rawBytes) ∨
    (∃ e, r.1 = .error (.writeRawRecord e) ∧ e.IsWrite ∧
      ∃ pre, pre <+: rawBytes ∧ r.2.log = w.log ++ pre) ∨
    (∃ e, r.1 = .error e ∧ e.IsSync ∧ r.2.log = w.log ++ rawBytes) ∨
    (∃ m, r.1 = .panic m ∧ rawBytes.drop headerSize = [] ∧ r.2.log = w.log ++ rawBytes)

/-- `AppendExactBytes` either stops at its checks, changing nothing, or writes `rawBytes` from the
state in which `nextSequence` has risen past `seqNum`. -/
theorem appendExactBytes_cases (w : WAL) (rawBytes : Bytes) (seqNum : UInt64) :
    (∃ e, (appendExactBytes w rawBytes seqNum).1 = .error e ∧
      (appendExactBytes w rawBytes seqNum).2 = w ∧
      (w.status ≠ .active ∨ rawBytes.length ≠ headerSize + getLE ((rawBytes.drop 4).take 2))) ∨
    (w.status = .active ∧ rawBytes.length = headerSize + getLE ((rawBytes.drop 4).take 2) ∧
      ExactWrite (if seqNum ≥ w.nextSequence then { w with nextSequence := seqNum + 1 } else w)
        (appendExactBytes w rawBytes seqNum) rawBytes seqNum) := by
  unfold appendExactBytes
  split
  · rename_i e hs
    exact .inl ⟨e, rfl, rfl, .inl fun h => by rw [h] at hs; cases hs⟩
  rename_i hs
  have hact := statusError_eq_none.mp hs
  by_cases h1 : rawBytes.length < headerSize
  · rw [if_pos h1]; exact .inl ⟨_, rfl, rfl, .inr (by omega)⟩
  dsimp only
  rw [if_neg h1]
  by_cases h2 : rawBytes.length ≠ headerSize + getLE ((rawBytes.drop 4).take 2)
  · rw [if_pos h2]; exact .inl ⟨_, rfl, rfl, .inr h2⟩
  rw [if_neg h2]
  refine .inr ⟨hact, not_not.mp h2, ?_⟩
  have hw := writeRecordData_wrote
    (if seqNum ≥ w.nextSequence then { w with nextSequence := seqNum + 1 } else w)
    (rawBytes.take headerSize) (rawBytes.drop headerSize)
  rw [List.take_append_drop] at hw
  rcases hr : writeRecordData (if seqNum ≥ w.nextSequence then { w with nextSequence := seqNum + 1 }
      else w) (rawBytes.take headerSize) (rawBytes.drop headerSize) with ⟨_ | e, w'⟩ <;>
    rw [hr] at hw <;> dsimp only
  · rcases hd : rawBytes.drop headerSize with _ | ⟨b, bs⟩ <;> dsimp only
    · exact ⟨hw.frame, .inr (.inr (.inr ⟨_, rfl, hd, hw.ok rfl⟩))⟩
    · have hsy := maybeSync_synced w'
      rcases hm : maybeSync w' with ⟨_ | e, w''⟩ <;> rw [hm] at hsy <;> dsimp only
      · exact ⟨hw.frame.trans hsy.frame, .inl ⟨rfl, hsy.log.trans (hw.ok rfl)⟩⟩
      · exact ⟨hw.frame.trans hsy.frame,
          .inr (.inr (.inl ⟨e, rfl, hsy.error e rfl, hsy.log.trans (hw.ok rfl)⟩))⟩
  · exact ⟨hw.frame, .inr (.inl ⟨e, rfl, hw.error e rfl, hw.grows⟩)⟩

theorem raise_log_status (w : WAL) (seqNum : UInt64) :
    (if seqNum ≥ w.nextSequence then { w with nextSequence := seqNum + 1 } else w).log = w.log ∧
    (if seqNum ≥ w.nextSequence then { w with nextSequence := seqNum + 1 } else w).status =
      w.status := by
  split <;> exact ⟨rfl, rfl⟩

/-- `AppendExactBytes` keeps the status, and on success it has appended `rawBytes`. -/
theorem appendExactBytes_logged (w : WAL) (rawBytes : Bytes) (seqNum : UInt64) :
    Logged w (appendExactBytes w rawBytes seqNum) fun _ => rawBytes := by
  rcases appendExactBytes_cases w rawBytes seqNum with ⟨e, he, hw, -⟩ | ⟨hact, -, hx⟩
  · exact .of_guard _ he hw
  · obtain ⟨hlog, hst⟩ := raise_log_status w seqNum
    refine ⟨hx.frame.status.trans hst, fun h => absurd hact h, fun s h => ?_⟩
    rcases hx.result with ⟨-, hl⟩ | ⟨e, he, -⟩ | ⟨e, he, -⟩ | ⟨m, he, -⟩
    · rw [hl, hlog]
    all_goals rw [h] at he; cases he

theorem raise_nextSequence {w : WAL} {seqNum : UInt64} (h : seqNum < maxSequenceNumber) :
    (if seqNum ≥ w.nextSequence then { w with nextSequence := seqNum + 1 } else w).nextSequence.toNat =
      max w.nextSequence.toNat (seqNum.toNat + 1) := by
  split
  · rename_i hge
    have hle : w.nextSequence.toNat ≤ seqNum.toNat := hge
    rw [toNat_succ_of_lt_max h]; omega
  · rename_i hlt
    have hlt' : seqNum.toNat < w.nextSequence.toNat := UInt64.not_le.mp hlt
    omega

/-- What `AppendExactBytes` does on an active WAL with a sequence number below
`MaxSequenceNumber`. A record shorter than a header, or whose length field disagrees with its
length, is refused with nothing changed. Otherwise `nextSequence` rises to
`max(nextSequence, seq + 1)`, whatever the outcome, and a record with a non-empty payload ends in
one of three ways: `seq` with exactly `rawBytes` appended, an error of the write after a prefix of
`rawBytes` was appended, or an error of the sync after all of it was. -/
theorem appendExactBytes_spec (w : WAL) (rawBytes : Bytes) (seq : UInt64)
    (hact : w.status = .active) (hseq : seq < maxSequenceNumber) :
    ((rawBytes.length < headerSize ∨
        rawBytes.length ≠ headerSize + getLE ((rawBytes.drop 4).take 2)) →
      (∃ e, (appendExactBytes w rawBytes seq).1 = .error e) ∧
        (appendExactBytes w rawBytes seq).2 = w) ∧
    (rawBytes.length = headerSize + getLE ((rawBytes.drop 4).take 2) →
      (appendExactBytes w rawBytes seq).2.nextSequence.toNat =
        max w.nextSequence.toNat (seq.toNat + 1) ∧
      (0 < getLE ((rawBytes.drop 4).take 2) →
        ((appendExactBytes w rawBytes seq).1 = .ok seq ∧
          (appendExactBytes w rawBytes seq).2.log = w.log ++ rawBytes) ∨
        (∃ e, (appendExactBytes w rawBytes seq).1 = .error (.writeRawRecord e) ∧ e.IsWrite ∧
          ∃ pre, pre <+: rawBytes ∧ (appendExactBytes w rawBytes seq).2.log = w.log ++ pre) ∨
        (∃ e, (appendExactBytes w rawBytes seq).1 = .error e ∧ e.IsSync ∧
          (appendExactBytes w rawBytes seq).2.log = w.log ++ rawBytes))) := by
  rcases appendExactBytes_cases w rawBytes seq with ⟨e, he, hw, hwhy⟩ | ⟨-, hlen, hx⟩
  · have hbad : rawBytes.length ≠ headerSize + getLE ((rawBytes.drop 4).take 2) :=
      hwhy.resolve_left (not_not.mpr hact)
    exact ⟨fun _ => ⟨⟨e, he⟩, hw⟩, fun h => absurd h hbad⟩
  · refine ⟨fun h => by omega, fun _ => ⟨?_, fun hpos => ?_⟩⟩
    · rw [hx.frame.nextSequence, raise_nextSequence hseq]
    · have hne : rawBytes.drop headerSize ≠ [] := by
        rw [← List.length_pos, List.length_drop]; omega
      have hr := hx.result
      rw [(raise_log_status w seq).1] at hr
      rcases hr with h | h | h | ⟨_, _, hd, _⟩
      · exact .inl h
      · exact .inr (.inl h)
      · exact .inr (.inr h)
      · exact absurd hd hne

theorem appendExactBytes_spec_one_byte :
    (newWAL ⟨.syncNone, 0⟩ []).status = .active ∧ (1 : UInt64) < maxSequenceNumber ∧
    ((([0, 0, 0, 0, 1, 0, 1, 5] : Bytes).length < headerSize ∨
        ([0, 0, 0, 0, 1, 0, 1, 5] : Bytes).length ≠
          headerSize + getLE ((([0, 0, 0, 0, 1, 0, 1, 5] : Bytes).drop 4).take 2)) →
      (∃ e, (appendExactBytes (newWAL ⟨.syncNone, 0⟩ []) [0, 0, 0, 0, 1, 0, 1, 5] 1).1 = .error e) ∧
        (appendExactBytes (newWAL ⟨.syncNone, 0⟩ []) [0, 0, 0, 0, 1, 0, 1, 5] 1).2 =
          newWAL ⟨.syncNone, 0⟩ []) ∧
    (([0, 0, 0, 0, 1, 0, 1, 5] : Bytes).length =
        headerSize + getLE ((([0, 0, 0, 0, 1, 0, 1, 5] : Bytes).drop 4).take 2) →
      (appendExactBytes (newWAL ⟨.syncNone, 0⟩ []) [0, 0, 0, 0, 1, 0, 1, 5] 1).2.nextSequence.toNat =
        max (newWAL ⟨.syncNone, 0⟩ []).nextSequence.toNat ((1 : UInt64).toNat + 1) ∧
      (0 < getLE ((([0, 0, 0, 0, 1, 0, 1, 5] : Bytes).drop 4).take 2) →
        ((appendExactBytes (newWAL ⟨.syncNone, 0⟩ []) [0, 0, 0, 0, 1, 0, 1, 5] 1).1 = .ok 1 ∧
          (appendExactBytes (newWAL ⟨.syncNone, 0⟩ []) [0, 0, 0, 0, 1, 0, 1, 5] 1).2.log =
            (newWAL ⟨.syncNone, 0⟩ []).log ++ [0, 0, 0, 0, 1, 0, 1, 5]) ∨
        (∃ e, (appendExactBytes (newWAL ⟨.syncNone, 0⟩ []) [0, 0, 0, 0, 1, 0, 1, 5] 1).1 =
            .error (.writeRawRecord e) ∧ e.IsWrite ∧ ∃ pre, pre <+: [0, 0, 0, 0, 1, 0, 1, 5] ∧
            (appendExactBytes (newWAL ⟨.syncNone, 0⟩ []) [0, 0, 0, 0, 1, 0, 1, 5] 1).2.log =
              (newWAL ⟨.syncNone, 0⟩ []).log ++ pre) ∨
        (∃ e, (appendExactBytes (newWAL ⟨.syncNone, 0⟩ []) [0, 0, 0, 0, 1, 0, 1, 5] 1).1 = .error e ∧
          e.IsSync ∧ (appendExactBytes (newWAL ⟨.syncNone, 0⟩ []) [0, 0, 0, 0, 1, 0, 1, 5] 1).2.log =
            (newWAL ⟨.syncNone, 0⟩ []).log ++ [0, 0, 0, 0, 1, 0, 1, 5]))) :=
  ⟨rfl, by decide, appendExactBytes_spec _ _ _ rfl (by decide)⟩

/-- A record with an empty payload makes `AppendExactBytes` panic after its write, and a failed
sync makes it return an error after all of the record reached the file; both times
`nextSequence` has risen. -/
theorem appendExactBytes_writes_before_failing :
    (appendExactBytes (newWAL ⟨.syncNone, 0⟩ []) [0, 0, 0, 0, 0, 0, 1] 1).1 =
      .panic "runtime error: index out of range [0] with length 0" ∧
    (appendExactBytes (newWAL ⟨.syncNone, 0⟩ []) [0, 0, 0, 0, 0, 0, 1] 1).2.log =
      [0, 0, 0, 0, 0, 0, 1] ∧
    (appendExactBytes (newWAL ⟨.syncImmediate, 0⟩ [.ok, .fail 0]) [0, 0, 0, 0, 1, 0, 1, 5] 1).1 =
      .error (.syncFile .failed) ∧
    (appendExactBytes (newWAL ⟨.syncImmediate, 0⟩ [.ok, .fail 0]) [0, 0, 0, 0, 1, 0, 1, 5] 1).2.log =
      [0, 0, 0, 0, 1, 0, 1, 5] ∧
    (appendExactBytes (newWAL ⟨.syncImmediate, 0⟩ [.ok, .fail 0]) [0, 0, 0, 0, 1, 0, 1, 5] 1).2.nextSequence =
      2 := by
  decide

/-- `AppendExactBytes` accepts a sequence number at `MaxSequenceNumber`, which the other append
paths refuse with `ErrSequenceOverflow`. -/
theorem appendExactBytes_past_max :
    (appendExactBytes (newWAL ⟨.syncNone, 0⟩ []) [0, 0, 0, 0, 1, 0, 1, 5] maxSequenceNumber).1 =
      .ok maxSequenceNumber ∧
    (appendExactBytes (newWAL ⟨.syncNone, 0⟩ []) [0, 0, 0, 0, 1, 0, 1, 5] maxSequenceNumber).2.log =
      [0, 0, 0, 0, 1, 0, 1, 5] := by
  decide

end Kevo.Wal
