import Kevo.Memtable.MemTable

/-! `RecoverFromWAL`: the replay of the WAL's entries into memtables, a new one whenever the current
one has reached `MemTableSize`. Read newest memtable first, the memtables answer every key as the
Put and Delete entries at or below `MaxSequenceNumber`, applied in replay order to an empty map of
values and tombstones, would; this holds for every record size, every threshold and every place of
the rollovers, provided each key's entries come in increasing sequence order
(`recoverFromWAL_replays`). -/

namespace Kevo.Memtable

open Kevo.Wal (Entry opTypePut opTypeDelete)

/-- `RecoveryOptions`. -/
structure RecoveryOptions where
  maxSequenceNumber : UInt64
  maxMemTables : Int
  memTableSize : Int
  deriving DecidableEq, Repr

/-- `DefaultRecoveryOptions`, with the configuration's `MaxMemTables` and `MemTableSize`: no bound
on the sequence numbers. -/
def defaultRecoveryOptions (maxMemTables memTableSize : Int) : RecoveryOptions :=
  ⟨18446744073709551615, maxMemTables, memTableSize⟩

/-- The state of `RecoverFromWAL` between two entries: the memtables before the current one, the
current one (the last of `memTables` in Go), and the highest sequence number seen. -/
structure Recovery where
  sealed : List MemTable
  current : MemTable
  maxSeqNum : UInt64

/-- The memtables of a recovery, the current one last. -/
def Recovery.memTables (st : Recovery) : List MemTable := st.sealed ++ [st.current]

/-- The entry handler of `RecoverFromWAL`, for a record size `size`. -/
def entryHandler (size : Record → Nat) (opts : RecoveryOptions) (st : Recovery) (entry : Entry) :
    Except String Recovery :=
  if entry.sequenceNumber > opts.maxSequenceNumber then .ok st
  else
    let maxSeqNum := if entry.sequenceNumber > st.maxSeqNum then entry.sequenceNumber
      else st.maxSeqNum
    if (approximateSize size st.current : Int) ≥ opts.memTableSize then
      if ((st.sealed.length + 1 : Nat) : Int) ≥ opts.maxMemTables then
        .error ("maximum number of memtables (" ++ toString opts.maxMemTables ++
          ") exceeded during recovery")
      else .ok ⟨st.sealed ++ [setImmutable st.current], processWALEntry newMemTable entry, maxSeqNum⟩
    else .ok ⟨st.sealed, processWALEntry st.current entry, maxSeqNum⟩

/-- Modelled from the spec: `wal.ReplayWALDir`, which feeds the logical entries of the WAL to the
handler in order and stops at its first error. The WAL reader is not among the sources. -/
def replayWALDir (handler : Recovery → Entry → Except String Recovery) (init : Recovery)
    (entries : List Entry) : Except String Recovery :=
  entries.foldlM handler init

/-- `RecoverFromWAL` on a replay of `entries`: the memtables and the highest sequence number. -/
def recoverFromWAL (size : Record → Nat) (opts : RecoveryOptions) (entries : List Entry) :
    Except String (List MemTable × UInt64) :=
  match replayWALDir (entryHandler size opts) ⟨[], newMemTable, 0⟩ entries with
  | .error e => .error ("failed to replay WAL: " ++ e)
  | .ok st => .ok (st.memTables, st.maxSeqNum)

/-! ### What recovery should give -/

/-- A map of values and tombstones after one entry: a Put sets a value, a Delete a tombstone, and
any other op type changes nothing. -/
def applyEntry (s : Bytes → Lookup) (e : Entry) (key : Bytes) : Lookup :=
  if key = e.key then
    if e.type = opTypePut then .value e.value
    else if e.type = opTypeDelete then .deleted
    else s key
  else s key

/-- The entries that recovery keeps: those at or below `MaxSequenceNumber`. -/
def kept (opts : RecoveryOptions) (entries : List Entry) : List Entry :=
  entries.filter fun e => e.sequenceNumber ≤ opts.maxSequenceNumber

/-- The default options keep every entry. -/
theorem kept_defaultRecoveryOptions (maxMemTables memTableSize : Int) (entries : List Entry) :
    kept (defaultRecoveryOptions maxMemTables memTableSize) entries = entries := by
  have hmax : (18446744073709551615 : UInt64).toNat = 2 ^ 64 - 1 := rfl
  refine List.filter_eq_self.mpr fun e _ => decide_eq_true ?_
  show e.sequenceNumber.toNat ≤ (18446744073709551615 : UInt64).toNat
  have := e.sequenceNumber.toNat_lt
  omega

/-- The kept entries applied in replay order to an empty map. -/
def expected (opts : RecoveryOptions) (entries : List Entry) : Bytes → Lookup :=
  (kept opts entries).foldl applyEntry fun _ => .absent

/-- The largest kept sequence number, 0 if none. -/
def maxKept (opts : RecoveryOptions) (entries : List Entry) : Nat :=
  ((kept opts entries).map (·.sequenceNumber.toNat)).foldl max 0

/-- Each key's kept entries have strictly increasing sequence numbers in replay order. -/
def KeySeqIncreasing (opts : RecoveryOptions) (entries : List Entry) : Prop :=
  entries.Pairwise fun a b => a.key = b.key → a.sequenceNumber ≤ opts.maxSequenceNumber →
    b.sequenceNumber ≤ opts.maxSequenceNumber → a.sequenceNumber < b.sequenceNumber

instance (opts : RecoveryOptions) (entries : List Entry) :
    Decidable (KeySeqIncreasing opts entries) :=
  inferInstanceAs (Decidable (List.Pairwise _ _))

/-- The answer of a list of memtables read newest first, the first hit winning. -/
def lookupNewestFirst (tables : List MemTable) (key : Bytes) : Lookup :=
  tables.foldl (fun acc m => match get m key with | .absent => acc | r => r) .absent

/-- `newer` over `older`: the answer of `newer` where it has one. -/
def overlay (older newer : Bytes → Lookup) (key : Bytes) : Lookup :=
  match newer key with
  | .absent => older key
  | r => r

/-! ### One entry -/

theorem lookupNewestFirst_append (tables : List MemTable) (m : MemTable) :
    lookupNewestFirst (tables ++ [m]) = overlay (lookupNewestFirst tables) (get m) := by
  funext key
  simp only [lookupNewestFirst, List.foldl_append, List.foldl_cons, List.foldl_nil, overlay]

theorem overlay_absent (older : Bytes → Lookup) : overlay older (fun _ => .absent) = older := rfl

theorem overlay_applyEntry (older newer : Bytes → Lookup) (e : Entry) :
    overlay older (applyEntry newer e) = applyEntry (overlay older newer) e := by
  funext key
  unfold overlay applyEntry
  split_ifs <;> rfl

@[simp] theorem get_newMemTable : get newMemTable = fun _ => .absent := rfl

@[simp] theorem get_setImmutable (m : MemTable) : get (setImmutable m) = get m := rfl

/-- On a mutable memtable whose versions of the entry's key are all older, `ProcessWALEntry` acts
on `Get` as the entry acts on a map of values and tombstones. -/
theorem get_processWALEntry {m : MemTable} {entry : Entry} (hm : m.immutable = false)
    (hnew : ∀ x ∈ m.skipList.records, x.key = entry.key → x.seqNum < entry.sequenceNumber) :
    get (processWALEntry m entry) = applyEntry (get m) entry := by
  funext key
  unfold processWALEntry applyEntry
  by_cases hp : entry.type = opTypePut
  · rw [if_pos hp, if_pos hp, put,
      @get_insertEntry m ⟨entry.key, entry.value, .value, entry.sequenceNumber⟩ key hm hnew]
    rfl
  by_cases hd : entry.type = opTypeDelete
  · rw [if_neg hp, if_pos hd, if_neg hp, if_pos hd, delete,
      @get_insertEntry m ⟨entry.key, [], .deletion, entry.sequenceNumber⟩ key hm hnew]
    rfl
  · simp only [if_neg hp, if_neg hd, ite_self]

theorem processWALEntry_immutable (m : MemTable) (entry : Entry) :
    (processWALEntry m entry).immutable = m.immutable := by
  unfold processWALEntry put delete; split_ifs <;> simp

theorem mem_processWALEntry_records {m : MemTable} {entry : Entry} {x : Record}
    (h : x ∈ (processWALEntry m entry).skipList.records) :
    x ∈ m.skipList.records ∨ (x.key = entry.key ∧ x.seqNum = entry.sequenceNumber) := by
  unfold processWALEntry put delete at h
  split_ifs at h
  · rcases mem_insertEntry_records h with h | rfl
    · exact .inl h
    · exact .inr ⟨rfl, rfl⟩
  · rcases mem_insertEntry_records h with h | rfl
    · exact .inl h
    · exact .inr ⟨rfl, rfl⟩
  · exact .inl h

/-! ### Runs of the handler -/

/-- What recovery keeps true after the entries `done`: read newest first, the memtables answer as
`expected`; the maximum is `maxKept`; and the current memtable is mutable and holds only records of
kept entries of `done`. -/
structure Replayed (opts : RecoveryOptions) (done : List Entry) (st : Recovery) : Prop where
  lookup : lookupNewestFirst st.memTables = expected opts done
  maxSeq : st.maxSeqNum.toNat = maxKept opts done
  mutable : st.current.immutable = false
  origin : ∀ x ∈ st.current.skipList.records,
    ∃ e ∈ kept opts done, e.key = x.key ∧ e.sequenceNumber = x.seqNum

theorem replayed_init (opts : RecoveryOptions) : Replayed opts [] ⟨[], newMemTable, 0⟩ :=
  ⟨funext fun _ => rfl, rfl, rfl, nofun⟩

theorem kept_append_skip {opts : RecoveryOptions} (done : List Entry) {e : Entry}
    (h : opts.maxSequenceNumber < e.sequenceNumber) : kept opts (done ++ [e]) = kept opts done := by
  simp [kept, List.filter_append, UInt64.not_le.mpr h]

theorem kept_append_keep {opts : RecoveryOptions} (done : List Entry) {e : Entry}
    (h : e.sequenceNumber ≤ opts.maxSequenceNumber) :
    kept opts (done ++ [e]) = kept opts done ++ [e] := by
  simp [kept, List.filter_append, h]

theorem expected_append_keep {opts : RecoveryOptions} (done : List Entry) {e : Entry}
    (h : e.sequenceNumber ≤ opts.maxSequenceNumber) :
    expected opts (done ++ [e]) = applyEntry (expected opts done) e := by
  rw [expected, expected, kept_append_keep done h, List.foldl_append, List.foldl_cons,
    List.foldl_nil]

/-- The handler's update of the maximum follows `maxKept`. -/
theorem maxKept_append_keep {opts : RecoveryOptions} {done : List Entry} {e : Entry} {m : UInt64}
    (h : e.sequenceNumber ≤ opts.maxSequenceNumber) (hm : m.toNat = maxKept opts done) :
    (if e.sequenceNumber > m then e.sequenceNumber else m).toNat = maxKept opts (done ++ [e]) := by
  have hmax : maxKept opts (done ++ [e]) = max (maxKept opts done) e.sequenceNumber.toNat := by
    simp only [maxKept, kept_append_keep done h, List.map_append, List.foldl_append,
      List.map_cons, List.map_nil, List.foldl_cons, List.foldl_nil]
  have hlt : m < e.sequenceNumber ↔ m.toNat < e.sequenceNumber.toNat := Iff.rfl
  rw [hmax, ← hm]
  split_ifs with hc <;> rw [gt_iff_lt, hlt] at hc <;> omega

/-- A record after `ProcessWALEntry` is a record from before or the entry's own. -/
theorem origin_processWALEntry {m : MemTable} {entries : List Entry} (e : Entry)
    (hm : ∀ x ∈ m.skipList.records,
      ∃ e0 ∈ entries, e0.key = x.key ∧ e0.sequenceNumber = x.seqNum) :
    ∀ x ∈ (processWALEntry m e).skipList.records,
      ∃ e0 ∈ entries ++ [e], e0.key = x.key ∧ e0.sequenceNumber = x.seqNum := by
  intro x hx
  rcases mem_processWALEntry_records hx with hx | ⟨hxk, hxs⟩
  · obtain ⟨e0, he0, hk0⟩ := hm x hx
    exact ⟨e0, List.mem_append_left _ he0, hk0⟩
  · exact ⟨e, List.mem_append_right _ (List.mem_singleton_self e), hxk.symm, hxs.symm⟩

/-- When each key's sequence numbers increase, the records of the current memtable are older than
the next kept entry of their key. -/
theorem Replayed.older {opts : RecoveryOptions} {done : List Entry} {st : Recovery} {e : Entry}
    (h : Replayed opts done st) (hinc : KeySeqIncreasing opts (done ++ [e]))
    (hle : e.sequenceNumber ≤ opts.maxSequenceNumber) :
    ∀ x ∈ st.current.skipList.records, x.key = e.key → x.seqNum < e.sequenceNumber := by
  intro x hx hxk
  obtain ⟨e0, he0, hkey, hseq⟩ := h.origin x hx
  obtain ⟨he0d, he0le⟩ := List.mem_filter.mp he0
  rw [← hseq]
  exact (List.pairwise_append.mp hinc).2.2 e0 he0d e (List.mem_singleton_self e)
    (hkey.trans hxk) (of_decide_eq_true he0le) hle

/-- What one call of the handler does: it skips an entry above `MaxSequenceNumber`; otherwise it
raises the maximum and processes the entry, into the current memtable while that is below
`MemTableSize`, else into a new one after sealing the current, when the limit allows it. -/
theorem entryHandler_cases {size : Record → Nat} {opts : RecoveryOptions} {st st' : Recovery}
    {e : Entry} (hst : entryHandler size opts st e = .ok st') :
    (opts.maxSequenceNumber < e.sequenceNumber ∧ st' = st) ∨
    (e.sequenceNumber ≤ opts.maxSequenceNumber ∧
      opts.memTableSize ≤ (approximateSize size st.current : Int) ∧
      ((st.sealed.length + 1 : Nat) : Int) < opts.maxMemTables ∧
      st' = ⟨st.sealed ++ [setImmutable st.current], processWALEntry newMemTable e,
        if e.sequenceNumber > st.maxSeqNum then e.sequenceNumber else st.maxSeqNum⟩) ∨
    (e.sequenceNumber ≤ opts.maxSequenceNumber ∧
      (approximateSize size st.current : Int) < opts.memTableSize ∧
      st' = ⟨st.sealed, processWALEntry st.current e,
        if e.sequenceNumber > st.maxSeqNum then e.sequenceNumber else st.maxSeqNum⟩) := by
  unfold entryHandler at hst
  by_cases hskip : e.sequenceNumber > opts.maxSequenceNumber
  · rw [if_pos hskip] at hst
    exact .inl ⟨hskip, (Except.ok.inj hst).symm⟩
  rw [if_neg hskip] at hst
  dsimp only at hst
  have hle := UInt64.not_lt.mp hskip
  by_cases hsize : (approximateSize size st.current : Int) ≥ opts.memTableSize
  · rw [if_pos hsize] at hst
    by_cases hlim : ((st.sealed.length + 1 : Nat) : Int) ≥ opts.maxMemTables
    · rw [if_pos hlim] at hst; cases hst
    · rw [if_neg hlim] at hst
      exact .inr (.inl ⟨hle, hsize, Int.lt_of_not_ge hlim, (Except.ok.inj hst).symm⟩)
  · rw [if_neg hsize] at hst
    exact .inr (.inr ⟨hle, Int.lt_of_not_ge hsize, (Except.ok.inj hst).symm⟩)

/-- One step of the handler keeps `Replayed`. -/
theorem entryHandler_replayed {size : Record → Nat} {opts : RecoveryOptions} {done : List Entry}
    {st st' : Recovery} {e : Entry} (h : Replayed opts done st)
    (hinc : KeySeqIncreasing opts (done ++ [e])) (hst : entryHandler size opts st e = .ok st') :
    Replayed opts (done ++ [e]) st' := by
  rcases entryHandler_cases hst with ⟨hskip, rfl⟩ | ⟨hle, -, -, rfl⟩ | ⟨hle, -, rfl⟩
  · have hk := kept_append_skip done hskip
    exact ⟨by rw [h.lookup, expected, expected, hk], by rw [h.maxSeq, maxKept, maxKept, hk],
      h.mutable, by rw [hk]; exact h.origin⟩
  · refine ⟨?_, maxKept_append_keep hle h.maxSeq, by rw [processWALEntry_immutable]; rfl,
      by rw [kept_append_keep done hle]; exact origin_processWALEntry e nofun⟩
    rw [Recovery.memTables, lookupNewestFirst_append,
      @get_processWALEntry newMemTable e rfl nofun, get_newMemTable, overlay_applyEntry,
      overlay_absent, lookupNewestFirst_append, get_setImmutable, ← lookupNewestFirst_append,
      expected_append_keep done hle, ← h.lookup]
    rfl
  · refine ⟨?_, maxKept_append_keep hle h.maxSeq,
      by rw [processWALEntry_immutable]; exact h.mutable,
      by rw [kept_append_keep done hle]; exact origin_processWALEntry e h.origin⟩
    rw [Recovery.memTables, lookupNewestFirst_append,
      get_processWALEntry h.mutable (h.older hinc hle), overlay_applyEntry,
      ← lookupNewestFirst_append, expected_append_keep done hle, ← h.lookup]
    rfl

/-- What every step of the handler keeps, from the entries replayed so far to those and one more,
holds after a replay that succeeds. -/
theorem replayWALDir_induction {handler : Recovery → Entry → Except String Recovery}
    (P : List Entry → Recovery → Prop)
    (hstep : ∀ done e st st', P done st → handler st e = .ok st' → P (done ++ [e]) st') :
    ∀ (rest done : List Entry) (st st' : Recovery), P done st →
      replayWALDir handler st rest = .ok st' → P (done ++ rest) st'
  | [], done, st, st', h, hr => by
    cases hr
    simpa using h
  | e :: rest, done, st, st', h, hr => by
    rcases hs : handler st e with err | s
    · simp only [replayWALDir, List.foldlM_cons, hs] at hr
      cases hr
    · simp only [replayWALDir, List.foldlM_cons, hs] at hr
      simpa using replayWALDir_induction P hstep rest (done ++ [e]) s st' (hstep done e st s h hs) hr

/-- A replay that succeeds keeps `Replayed` over all of its entries. -/
theorem replayWALDir_replayed (size : Record → Nat) (opts : RecoveryOptions)
    (rest done : List Entry) (st st' : Recovery) (h : Replayed opts done st) (hinc : KeySeqIncreasing opts (done ++ rest))
    (hr : replayWALDir (entryHandler size opts) st rest = .ok st') :
    Replayed opts (done ++ rest) st' :=
  replayWALDir_induction (fun done st => KeySeqIncreasing opts done → Replayed opts done st)
    (fun _ _ _ _ hP hs hinc' =>
      entryHandler_replayed (hP (hinc'.sublist (List.sublist_append_left _ _))) hinc' hs)
    rest done st st' (fun _ => h) hr hinc

/-- Recovery replays the WAL faithfully: when each key's kept entries come in increasing sequence
order, the memtables that a successful `RecoverFromWAL` returns, read newest first, answer every key
as the kept Put and Delete entries applied in replay order to an empty map, and the maximum it
returns is the largest kept sequence number, for every record size, threshold and limit. -/
theorem recoverFromWAL_replays (size : Record → Nat) (opts : RecoveryOptions) (entries : List Entry)
    (hinc : KeySeqIncreasing opts entries) (tables : List MemTable) (maxSeq : UInt64)
    (hok : recoverFromWAL size opts entries = .ok (tables, maxSeq)) :
    (∀ key, lookupNewestFirst tables key = expected opts entries key) ∧
      maxSeq.toNat = maxKept opts entries := by
  unfold recoverFromWAL at hok
  rcases hr : replayWALDir (entryHandler size opts) ⟨[], newMemTable, 0⟩ entries with err | st
  · rw [hr] at hok; cases hok
  · rw [hr] at hok
    cases hok
    have h := replayWALDir_replayed size opts entries [] _ st (replayed_init opts) hinc hr
    rw [List.nil_append] at h
    exact ⟨fun key => congrFun h.lookup key, h.maxSeq⟩

theorem recoverFromWAL_replays_put_delete :
    KeySeqIncreasing ⟨100, 4, 1000⟩ [⟨1, opTypePut, [1], [2]⟩, ⟨2, opTypeDelete, [1], []⟩] ∧
    recoverFromWAL (fun _ => 1) ⟨100, 4, 1000⟩
        [⟨1, opTypePut, [1], [2]⟩, ⟨2, opTypeDelete, [1], []⟩] =
      .ok ([⟨⟨[⟨[1], [], .deletion, 2⟩, ⟨[1], [2], .value, 1⟩]⟩, 2, false⟩], 2) ∧
    ((∀ key, lookupNewestFirst [⟨⟨[⟨[1], [], .deletion, 2⟩, ⟨[1], [2], .value, 1⟩]⟩, 2, false⟩] key =
        expected ⟨100, 4, 1000⟩ [⟨1, opTypePut, [1], [2]⟩, ⟨2, opTypeDelete, [1], []⟩] key) ∧
      (2 : UInt64).toNat =
        maxKept ⟨100, 4, 1000⟩ [⟨1, opTypePut, [1], [2]⟩, ⟨2, opTypeDelete, [1], []⟩]) :=
  ⟨by decide, rfl, recoverFromWAL_replays (fun _ => 1) _ _ (by decide) _ _ rfl⟩

/-! ### The list of memtables -/

/-- The shape of the memtable list during recovery: at most `max(1, MaxMemTables)` memtables, the
sealed ones immutable and at least `MemTableSize` large, the current one mutable. -/
structure Shaped (size : Record → Nat) (opts : RecoveryOptions) (st : Recovery) : Prop where
  count : ((st.sealed.length + 1 : Nat) : Int) ≤ max 1 opts.maxMemTables
  sealed : ∀ m ∈ st.sealed,
    m.immutable = true ∧ opts.memTableSize ≤ (approximateSize size m : Int)
  current : st.current.immutable = false

theorem shaped_init (size : Record → Nat) (opts : RecoveryOptions) :
    Shaped size opts ⟨[], newMemTable, 0⟩ :=
  ⟨le_max_left 1 _, nofun, rfl⟩

/-- One step of the handler keeps the shape: a rollover seals a memtable that has reached
`MemTableSize`, and only while the list is below `MaxMemTables`. -/
theorem entryHandler_shaped {size : Record → Nat} {opts : RecoveryOptions} {st st' : Recovery}
    {e : Entry} (h : Shaped size opts st) (hst : entryHandler size opts st e = .ok st') :
    Shaped size opts st' := by
  rcases entryHandler_cases hst with ⟨-, rfl⟩ | ⟨-, hsize, hlim, rfl⟩ | ⟨-, -, rfl⟩
  · exact h
  · refine ⟨?_, fun m hm => ?_, by rw [processWALEntry_immutable]; rfl⟩
    · simp only [List.length_append, List.length_singleton]
      omega
    · rcases List.mem_append.mp hm with hm | hm
      · exact h.sealed m hm
      · rw [List.mem_singleton.mp hm]
        exact ⟨rfl, hsize⟩
  · exact ⟨h.count, h.sealed, by rw [processWALEntry_immutable]; exact h.current⟩

/-- The memtables that a successful `RecoverFromWAL` returns: at least one and at most
`max(1, MaxMemTables)`, every one but the last immutable and at least `MemTableSize` large, and the
last one mutable, for every record size, all options and every replay. -/
theorem recoverFromWAL_shape (size : Record → Nat) (opts : RecoveryOptions) (entries : List Entry)
    (tables : List MemTable) (maxSeq : UInt64)
    (hok : recoverFromWAL size opts entries = .ok (tables, maxSeq)) :
    1 ≤ tables.length ∧ (tables.length : Int) ≤ max 1 opts.maxMemTables ∧
    ∃ sealed current, tables = sealed ++ [current] ∧
      (∀ m ∈ sealed, m.immutable = true ∧ opts.memTableSize ≤ (approximateSize size m : Int)) ∧
      current.immutable = false := by
  unfold recoverFromWAL at hok
  rcases hr : replayWALDir (entryHandler size opts) ⟨[], newMemTable, 0⟩ entries with err | st
  · rw [hr] at hok; cases hok
  rw [hr] at hok
  cases hok
  have h := replayWALDir_induction (fun _ => Shaped size opts)
    (fun _ _ _ _ => entryHandler_shaped) entries [] _ st (shaped_init size opts) hr
  have hlen : st.memTables.length = st.sealed.length + 1 := by
    rw [Recovery.memTables, List.length_append, List.length_singleton]
  exact ⟨by omega, hlen ▸ h.count, st.sealed, st.current, rfl, h.sealed, h.current⟩

theorem recoverFromWAL_shape_rollover :
    recoverFromWAL (fun _ => 1) ⟨100, 4, 1⟩ [⟨1, opTypePut, [1], [2]⟩, ⟨2, opTypePut, [3], [4]⟩] = .ok (([⟨⟨[⟨[1], [2], .value, 1⟩]⟩, 2, true⟩, ⟨⟨[⟨[3], [4], .value, 2⟩]⟩, 3, false⟩] : List MemTable), 2) ∧
    (1 ≤ ([⟨⟨[⟨[1], [2], .value, 1⟩]⟩, 2, true⟩, ⟨⟨[⟨[3], [4], .value, 2⟩]⟩, 3, false⟩] : List MemTable).length ∧ (([⟨⟨[⟨[1], [2], .value, 1⟩]⟩, 2, true⟩, ⟨⟨[⟨[3], [4], .value, 2⟩]⟩, 3, false⟩] : List MemTable).length : Int) ≤ max 1 4 ∧
    ∃ sealed current, ([⟨⟨[⟨[1], [2], .value, 1⟩]⟩, 2, true⟩, ⟨⟨[⟨[3], [4], .value, 2⟩]⟩, 3, false⟩] : List MemTable) = sealed ++ [current] ∧
      (∀ m ∈ sealed, m.immutable = true ∧ (1 : Int) ≤ (approximateSize (fun _ => 1) m : Int)) ∧
      current.immutable = false) :=
  ⟨rfl, recoverFromWAL_shape (fun _ => 1) ⟨100, 4, 1⟩
    [⟨1, opTypePut, [1], [2]⟩, ⟨2, opTypePut, [3], [4]⟩] _ 2 rfl⟩

end Kevo.Memtable
