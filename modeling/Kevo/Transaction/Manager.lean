import Kevo.Bytes

/-! The transaction manager (`Manager`) and the transactions it opens. One process-wide
reader/writer lock, `txLock`, isolates them: `BeginTransaction` takes its read side for a read-only
transaction and its write side for a read-write one, and the transaction's commit or rollback
releases it. `BeginTransaction` counts a transaction as started before it takes the lock, so a
transaction that waits for the lock is already counted.

Along every run of any number of transactions, a read-write transaction holds the lock alone
(`reachable_exclusive`), and a transaction that is not finished can always be moved on: some holder
can finish, or, when none holds the lock, a waiting transaction can take it
(`reachable_progress`). The counters balance, so that `GetTransactionStats` reports the number of
unfinished transactions when nothing runs between its loads (`getTransactionStats_snapshot`). Its
six loads are separate atomic loads, however: a transaction that begins and finishes between its
load of `txStarted` and its load of `txCompleted` makes it report one less, `2^64 - 1` when none is
running (`getTransactionStats_interleaved`). -/

namespace Kevo.Transaction

/-- `TransactionMode`. -/
inductive TransactionMode where
  | readOnly
  | readWrite
  deriving DecidableEq, Repr

/-- `sync.RWMutex` as its holders see it: the number of readers and whether a writer holds it.
`Lock` waits until nobody holds it and `RLock` until no writer does; the runtime's preference for a
waiting writer only holds readers back longer, so the runs modelled include every run it allows. -/
structure RWMutex where
  readers : Nat
  writer : Bool
  deriving DecidableEq, Repr

/-- The manager's fields that its methods read or write. `storage` and `stats` are only handed on
or told about operations. Durations are in nanoseconds, as `time.Duration` counts them. -/
structure Manager where
  txLock : RWMutex
  txStarted : UInt64
  txCompleted : UInt64
  txAborted : UInt64
  readOnlyTxTTL : Nat
  readWriteTxTTL : Nat
  idleTxTimeout : Nat
  deriving DecidableEq, Repr

/-- `NewManager`: three minutes for a read-only transaction, one for a read-write one, thirty
seconds of idleness. -/
def newManager : Manager :=
  ⟨⟨0, false⟩, 0, 0, 0, 3 * 60 * 1000000000, 1 * 60 * 1000000000, 30 * 1000000000⟩

/-- `NewManagerWithTTL`. -/
def newManagerWithTTL (readOnlyTTL readWriteTTL idleTimeout : Nat) : Manager :=
  ⟨⟨0, false⟩, 0, 0, 0, readOnlyTTL, readWriteTTL, idleTimeout⟩

/-- The fields of a `TransactionImpl` that the manager sets and the lock protocol reads: its mode,
its TTL, and the flags `active`, `hasReadLock` and `hasWriteLock`. -/
structure TransactionImpl where
  mode : TransactionMode
  ttl : Nat
  active : Bool
  hasReadLock : Bool
  hasWriteLock : Bool
  deriving DecidableEq, Repr

/-- `IncrementTxCompleted`. -/
def incrementTxCompleted (m : Manager) : Manager := { m with txCompleted := m.txCompleted + 1 }

/-- `IncrementTxAborted`. -/
def incrementTxAborted (m : Manager) : Manager := { m with txAborted := m.txAborted + 1 }

/-- The statistics map of `GetTransactionStats`. -/
structure TxStats where
  txStarted : UInt64
  txCompleted : UInt64
  txAborted : UInt64
  txActive : UInt64
  deriving DecidableEq, Repr

/-- `GetTransactionStats`, when its six loads read the counters of `m0`, ..., `m5`, in this
order: each is a separate atomic load, so other calls may run between them. -/
def getTransactionStats (m0 m1 m2 m3 m4 m5 : Manager) : TxStats :=
  ⟨m0.txStarted, m1.txCompleted, m2.txAborted, m3.txStarted - m4.txCompleted - m5.txAborted⟩

/-! ### Runs -/

/-- The manager and the transactions opened so far, by the order of their `BeginTransaction`. -/
structure System where
  manager : Manager
  txs : List TransactionImpl
  deriving DecidableEq, Repr

/-- One step of a run: the first part of `BeginTransaction`, up to the lock; its taking of the lock
for transaction `i`; and the end of transaction `i` by a commit or a rollback. -/
inductive Action where
  | begin (readOnly : Bool)
  | acquire (i : Nat)
  | commit (i : Nat)
  | rollback (i : Nat)
  deriving DecidableEq, Repr

/-- `BeginTransaction` up to the lock: `txStarted` goes up, and the new transaction is active,
with the TTL of its mode and no lock yet. -/
def beginTransaction (s : System) (readOnly : Bool) : System :=
  let mode := if readOnly then TransactionMode.readOnly else .readWrite
  let ttl := if mode = .readOnly then s.manager.readOnlyTxTTL else s.manager.readWriteTxTTL
  ⟨{ s.manager with txStarted := s.manager.txStarted + 1 }, s.txs ++ [⟨mode, ttl, true, false, false⟩]⟩

/-- The end of `BeginTransaction` for transaction `i`: `RLock` for a read-only transaction, `Lock`
for a read-write one, each when the lock lets it through, and the flag of the side taken. -/
def acquire (s : System) (i : Nat) : Option System :=
  match s.txs[i]? with
  | some t =>
    if t.active ∧ ¬t.hasReadLock ∧ ¬t.hasWriteLock then
      match t.mode with
      | .readOnly =>
        if s.manager.txLock.writer then none
        else some ⟨{ s.manager with txLock := { s.manager.txLock with
                                                readers := s.manager.txLock.readers + 1 } },
          s.txs.set i { t with hasReadLock := true }⟩
      | .readWrite =>
        if s.manager.txLock.writer ∨ s.manager.txLock.readers ≠ 0 then none
        else some ⟨{ s.manager with txLock := { s.manager.txLock with writer := true } },
          s.txs.set i { t with hasWriteLock := true }⟩
    else none
  | none => none

/-- Modelled from the spec: the lock after transaction `t` releases the sides it holds, `RUnlock`
for the read side and `Unlock` for the write side. -/
def RWMutex.release (l : RWMutex) (t : TransactionImpl) : RWMutex :=
  let l := if t.hasReadLock then { l with readers := l.readers - 1 } else l
  if t.hasWriteLock then { l with writer := false } else l

/-- Modelled from the spec: the end of transaction `i`, which holds the lock, by a commit or a
rollback. It releases the lock, is no longer active, and the manager counts it, by `count`, as
completed or aborted. `TransactionImpl` is not among the sources. -/
def finish (s : System) (i : Nat) (count : Manager → Manager) : Option System :=
  match s.txs[i]? with
  | some t =>
    if t.hasReadLock ∨ t.hasWriteLock then
      some ⟨count { s.manager with txLock := s.manager.txLock.release t },
        s.txs.set i { t with active := false, hasReadLock := false, hasWriteLock := false }⟩
    else none
  | none => none

/-- One step, when it can be taken. -/
def step (s : System) : Action → Option System
  | .begin readOnly => some (beginTransaction s readOnly)
  | .acquire i => acquire s i
  | .commit i => finish s i incrementTxCompleted
  | .rollback i => finish s i incrementTxAborted

/-- A run of steps from `s`, when every step of it can be taken. -/
def runActions (s : System) : List Action → Option System
  | [] => some s
  | a :: rest => (step s a).bind fun s' => runActions s' rest

/-- The states that runs from a new manager reach. -/
def Reachable (s : System) : Prop :=
  ∃ readOnlyTTL readWriteTTL idleTimeout acts,
    runActions ⟨newManagerWithTTL readOnlyTTL readWriteTTL idleTimeout, []⟩ acts = some s

/-- The transactions that are not finished: waiting for the lock or holding it. -/
def live (s : System) : Nat := s.txs.countP (·.active)

/-! ### The invariant -/

/-- What every reachable state keeps: the lock's readers and writer are the transactions that hold
its two sides, a writer excludes readers, a transaction holds only the side of its mode and only
while active, and the counters balance. -/
structure Consistent (s : System) : Prop where
  readers : s.manager.txLock.readers = s.txs.countP (·.hasReadLock)
  writers : s.txs.countP (·.hasWriteLock) = if s.manager.txLock.writer then 1 else 0
  exclusive : s.manager.txLock.writer = true → s.manager.txLock.readers = 0
  held : ∀ t ∈ s.txs, (t.hasReadLock = true → t.active = true ∧ t.mode = .readOnly) ∧
    (t.hasWriteLock = true → t.active = true ∧ t.mode = .readWrite)
  balanced : s.manager.txStarted.toNat =
    (s.manager.txCompleted.toNat + s.manager.txAborted.toNat + live s) % 2 ^ 64

theorem countP_set {α : Type} (p : α → Bool) {l : List α} {i : Nat} {b : α} (hb : l[i]? = some b)
    (a : α) :
    (l.set i a).countP p + (if p b then 1 else 0) = l.countP p + (if p a then 1 else 0) := by
  induction l generalizing i with
  | nil => cases hb
  | cons x xs ih =>
    cases i with
    | zero =>
      rw [List.getElem?_cons_zero, Option.some.injEq] at hb
      subst hb
      simp only [List.set_cons_zero, List.countP_cons]
      omega
    | succ k =>
      rw [List.getElem?_cons_succ] at hb
      simp only [List.set_cons_succ, List.countP_cons]
      have := ih hb
      omega

theorem toNat_succ (n : UInt64) : (n + 1).toNat = (n.toNat + 1) % 2 ^ 64 := rfl

theorem beginTransaction_consistent {s : System} (h : Consistent s) (readOnly : Bool) :
    Consistent (beginTransaction s readOnly) := by
  obtain ⟨hr, hw, hx, hheld, hbal⟩ := h
  refine ⟨by simpa [beginTransaction] using hr, by simpa [beginTransaction] using hw, hx,
    fun t ht => ?_, ?_⟩
  · rcases List.mem_append.mp ht with ht | ht
    · exact hheld t ht
    · simp only [List.mem_singleton] at ht
      subst ht
      exact ⟨nofun, nofun⟩
  · simp only [beginTransaction, live, List.countP_append, List.countP_singleton, if_true,
      toNat_succ]
    simp only [live] at hbal
    omega

theorem consistent_new (readOnlyTTL readWriteTTL idleTimeout : Nat) :
    Consistent ⟨newManagerWithTTL readOnlyTTL readWriteTTL idleTimeout, []⟩ :=
  ⟨rfl, rfl, nofun, nofun, rfl⟩

/-- A step that replaces transaction `i` by `t'` and the manager by `m` keeps the invariant when the
lock's readers and writer and the counters change as the flags of the transaction do. -/
theorem Consistent.set {s : System} (h : Consistent s) {i : Nat} {t : TransactionImpl}
    (ht : s.txs[i]? = some t) (t' : TransactionImpl) (m : Manager)
    (hr : m.txLock.readers + (if t.hasReadLock then 1 else 0) =
      s.manager.txLock.readers + (if t'.hasReadLock then 1 else 0))
    (hw : (if m.txLock.writer then 1 else 0) + (if t.hasWriteLock then 1 else 0) =
      (if s.manager.txLock.writer then 1 else 0) + (if t'.hasWriteLock then 1 else 0))
    (hx : m.txLock.writer = true → m.txLock.readers = 0)
    (hheld : (t'.hasReadLock = true → t'.active = true ∧ t'.mode = .readOnly) ∧
      (t'.hasWriteLock = true → t'.active = true ∧ t'.mode = .readWrite))
    (hstarted : m.txStarted = s.manager.txStarted)
    (hdone : (m.txCompleted.toNat + m.txAborted.toNat + (if t'.active then 1 else 0)) % 2 ^ 64 =
      (s.manager.txCompleted.toNat + s.manager.txAborted.toNat + (if t.active then 1 else 0)) %
        2 ^ 64) :
    Consistent ⟨m, s.txs.set i t'⟩ := by
  have cr := countP_set (·.hasReadLock) ht t'
  have cw := countP_set (·.hasWriteLock) ht t'
  have ca := countP_set (·.active) ht t'
  have hr0 := h.readers
  have hw0 := h.writers
  have hbal := h.balanced
  simp only [live] at hbal cr cw ca ⊢
  refine ⟨by dsimp only; omega, by dsimp only; split_ifs at hw hw0 cw ⊢ <;> omega, hx,
    fun x hx => ?_, by dsimp only [live]; rw [hstarted]; split_ifs at ca hdone <;> omega⟩
  rcases List.mem_or_eq_of_mem_set hx with hx | rfl
  exacts [h.held x hx, hheld]

/-! ### Steps -/

theorem acquire_some {s s' : System} {i : Nat} (hs : acquire s i = some s') :
    ∃ t, s.txs[i]? = some t ∧ t.active = true ∧ t.hasReadLock = false ∧ t.hasWriteLock = false ∧
      ((t.mode = .readOnly ∧ s.manager.txLock.writer = false ∧
          s' = ⟨{ s.manager with txLock := { s.manager.txLock with
                                             readers := s.manager.txLock.readers + 1 } },
            s.txs.set i { t with hasReadLock := true }⟩) ∨
        (t.mode = .readWrite ∧ s.manager.txLock.writer = false ∧ s.manager.txLock.readers = 0 ∧
          s' = ⟨{ s.manager with txLock := { s.manager.txLock with writer := true } },
            s.txs.set i { t with hasWriteLock := true }⟩)) := by
  unfold acquire at hs
  rcases ht : s.txs[i]? with _ | t <;> simp only [ht] at hs
  · cases hs
  by_cases hwait : t.active = true ∧ ¬t.hasReadLock = true ∧ ¬t.hasWriteLock = true
  · rw [if_pos hwait] at hs
    simp only [Bool.not_eq_true] at hwait
    refine ⟨t, rfl, hwait.1, hwait.2.1, hwait.2.2, ?_⟩
    rcases hm : t.mode <;> rw [hm] at hs <;> dsimp only at hs
    · by_cases hwr : s.manager.txLock.writer = true
      · rw [if_pos hwr] at hs; cases hs
      · rw [if_neg hwr] at hs
        exact .inl ⟨rfl, by simpa using hwr, (Option.some.inj hs).symm⟩
    · by_cases hbusy : s.manager.txLock.writer = true ∨ s.manager.txLock.readers ≠ 0
      · rw [if_pos hbusy] at hs; cases hs
      · rw [if_neg hbusy] at hs
        simp only [not_or, Bool.not_eq_true, ne_eq, not_not] at hbusy
        exact .inr ⟨rfl, hbusy.1, hbusy.2, (Option.some.inj hs).symm⟩
  · rw [if_neg hwait] at hs; cases hs

theorem acquire_consistent {s s' : System} (h : Consistent s) {i : Nat}
    (hs : acquire s i = some s') : Consistent s' := by
  obtain ⟨t, ht, hact, hnr, hnw, ⟨hm, hwr, rfl⟩ | ⟨hm, hwr, hrd, rfl⟩⟩ := acquire_some hs
  · exact h.set ht _ _ (by simp [hnr]) (by simp [hnw]) (by simp [hwr])
      ⟨fun _ => ⟨hact, hm⟩, by simp [hnw]⟩ rfl rfl
  · exact h.set ht _ _ (by simp [hnr]) (by simp [hnw, hwr]) (fun _ => hrd)
      ⟨by simp [hnr], fun _ => ⟨hact, hm⟩⟩ rfl rfl

@[simp] theorem RWMutex.release_readers (l : RWMutex) (t : TransactionImpl) :
    (l.release t).readers = if t.hasReadLock then l.readers - 1 else l.readers := by
  unfold RWMutex.release; split_ifs <;> rfl

@[simp] theorem RWMutex.release_writer (l : RWMutex) (t : TransactionImpl) :
    (l.release t).writer = if t.hasWriteLock then false else l.writer := by
  unfold RWMutex.release; split_ifs <;> rfl

theorem finish_some {s s' : System} {i : Nat} {count : Manager → Manager}
    (hs : finish s i count = some s') :
    ∃ t, s.txs[i]? = some t ∧ (t.hasReadLock = true ∨ t.hasWriteLock = true) ∧
      s' = ⟨count { s.manager with txLock := s.manager.txLock.release t },
        s.txs.set i { t with active := false, hasReadLock := false, hasWriteLock := false }⟩ := by
  unfold finish at hs
  rcases ht : s.txs[i]? with _ | t <;> simp only [ht] at hs
  · cases hs
  by_cases hheld : t.hasReadLock = true ∨ t.hasWriteLock = true
  · rw [if_pos hheld] at hs
    exact ⟨t, rfl, hheld, (Option.some.inj hs).symm⟩
  · rw [if_neg hheld] at hs; cases hs

/-- What a commit or a rollback does to the counters: it leaves the lock and `txStarted` alone and
raises `txCompleted` or `txAborted` by one. -/
def Counts (count : Manager → Manager) : Prop :=
  ∀ m : Manager, (count m).txLock = m.txLock ∧ (count m).txStarted = m.txStarted ∧
    ((count m).txCompleted.toNat + (count m).txAborted.toNat) % 2 ^ 64 =
      (m.txCompleted.toNat + m.txAborted.toNat + 1) % 2 ^ 64

theorem counts_incrementTxCompleted : Counts incrementTxCompleted := fun m =>
  ⟨rfl, rfl, by simp only [incrementTxCompleted, toNat_succ]; omega⟩

theorem counts_incrementTxAborted : Counts incrementTxAborted := fun m =>
  ⟨rfl, rfl, by simp only [incrementTxAborted, toNat_succ]; omega⟩

/-- A transaction that holds the lock is active and holds one side only, the side of its mode. -/
theorem Consistent.holder {s : System} (h : Consistent s) {t : TransactionImpl} (ht : t ∈ s.txs)
    (hheld : t.hasReadLock = true ∨ t.hasWriteLock = true) :
    t.active = true ∧ ¬(t.hasReadLock = true ∧ t.hasWriteLock = true) := by
  have ⟨hr, hw⟩ := h.held t ht
  refine ⟨hheld.elim (fun h1 => (hr h1).1) (fun h1 => (hw h1).1), fun ⟨h1, h2⟩ => ?_⟩
  have hmode := (hw h2).2
  rw [(hr h1).2] at hmode
  cases hmode

/-- The end of a transaction keeps the invariant, whichever counter it raises. -/
theorem finish_consistent {s s' : System} (h : Consistent s) {i : Nat} {count : Manager → Manager}
    (hcount : Counts count) (hs : finish s i count = some s') : Consistent s' := by
  obtain ⟨t, ht, hheld, rfl⟩ := finish_some hs
  have htm := List.getElem?_mem ht
  obtain ⟨hact, hside⟩ := h.holder htm hheld
  obtain ⟨hl, hst, hdone⟩ := hcount { s.manager with txLock := s.manager.txLock.release t }
  dsimp only at hl hst hdone
  have hrpos : t.hasReadLock = true → 0 < s.manager.txLock.readers := fun hr =>
    h.readers ▸ List.countP_pos_iff.mpr ⟨t, htm, hr⟩
  have hwpos : t.hasWriteLock = true → s.manager.txLock.writer = true := fun hw => by
    have hw0 := h.writers
    have hpos : 0 < s.txs.countP (·.hasWriteLock) := List.countP_pos_iff.mpr ⟨t, htm, hw⟩
    split_ifs at hw0 with hwriter
    exacts [hwriter, absurd hw0 (by omega)]
  refine h.set ht _ _ ?_ ?_ ?_ ⟨nofun, nofun⟩ hst ?_ <;> dsimp only
  · rw [hl, RWMutex.release_readers]
    cases hr : t.hasReadLock
    · rfl
    · have := hrpos hr
      simp only [if_true, Bool.false_eq_true, if_false]
      omega
  · rw [hl, RWMutex.release_writer]
    cases hw : t.hasWriteLock
    · rfl
    · simp [hwpos hw]
  · rw [hl, RWMutex.release_writer, RWMutex.release_readers]
    cases hw : t.hasWriteLock
    · intro hwr
      have := h.exclusive hwr
      split_ifs <;> omega
    · nofun
  · simp only [hact, if_true, Bool.false_eq_true, if_false, Nat.add_zero]
    exact hdone

theorem step_consistent {s s' : System} (h : Consistent s) {a : Action}
    (hs : step s a = some s') : Consistent s' := by
  cases a with
  | begin readOnly => cases hs; exact beginTransaction_consistent h readOnly
  | acquire i => exact acquire_consistent h hs
  | commit i => exact finish_consistent h counts_incrementTxCompleted hs
  | rollback i => exact finish_consistent h counts_incrementTxAborted hs

theorem runActions_consistent {s s' : System} (h : Consistent s) {acts : List Action}
    (hs : runActions s acts = some s') : Consistent s' := by
  induction acts generalizing s with
  | nil => cases hs; exact h
  | cons a rest ih =>
    rcases ha : step s a with _ | s1 <;> simp only [runActions, ha, Option.bind] at hs
    · cases hs
    · exact ih (step_consistent h ha) hs

theorem Reachable.consistent {s : System} (h : Reachable s) : Consistent s := by
  obtain ⟨ro, rw, idle, acts, hs⟩ := h
  exact runActions_consistent (consistent_new ro rw idle) hs

/-- When no transaction holds a side of the lock, the lock is free. -/
theorem Consistent.free {s : System} (hc : Consistent s)
    (hnone : ∀ t ∈ s.txs, t.hasReadLock = false ∧ t.hasWriteLock = false) :
    s.manager.txLock.readers = 0 ∧ s.manager.txLock.writer = false := by
  refine ⟨by rw [hc.readers, List.countP_eq_zero]; exact fun x hx => by simp [(hnone x hx).1], ?_⟩
  have hw := hc.writers
  rw [List.countP_eq_zero.mpr fun x hx => by simp [(hnone x hx).2]] at hw
  cases hwr : s.manager.txLock.writer
  · rfl
  · rw [hwr, if_pos rfl] at hw; cases hw

/-! ### What every run keeps -/

/-- Isolation: in every state that runs from a new manager reach, at most one transaction holds the
write side of the lock, and while one does, no transaction holds the read side. -/
theorem reachable_exclusive {s : System} (h : Reachable s) :
    s.txs.countP (·.hasWriteLock) ≤ 1 ∧
      (0 < s.txs.countP (·.hasWriteLock) → s.txs.countP (·.hasReadLock) = 0) := by
  have hc := h.consistent
  have hw := hc.writers
  split_ifs at hw with hwriter
  · exact ⟨hw.le, fun _ => hc.readers ▸ hc.exclusive hwriter⟩
  · exact ⟨by omega, fun hpos => absurd hw (by omega)⟩

theorem reachable_exclusive_writer :
    Reachable ⟨⟨⟨0, true⟩, 1, 0, 0, 0, 0, 0⟩, [⟨.readWrite, 0, true, false, true⟩]⟩ ∧
      ((⟨⟨⟨0, true⟩, 1, 0, 0, 0, 0, 0⟩, [⟨.readWrite, 0, true, false, true⟩]⟩ : System).txs.countP
          (·.hasWriteLock) ≤ 1 ∧
        (0 < (⟨⟨⟨0, true⟩, 1, 0, 0, 0, 0, 0⟩, [⟨.readWrite, 0, true, false, true⟩]⟩ : System).txs.countP
            (·.hasWriteLock) →
          (⟨⟨⟨0, true⟩, 1, 0, 0, 0, 0, 0⟩, [⟨.readWrite, 0, true, false, true⟩]⟩ : System).txs.countP
            (·.hasReadLock) = 0)) :=
  ⟨⟨0, 0, 0, [.begin false, .acquire 0], rfl⟩, reachable_exclusive ⟨0, 0, 0, [.begin false, .acquire 0], rfl⟩⟩

/-- No deadlock: in every reachable state in which some transaction is not finished, a transaction
can take a step, a holder its commit or rollback, or, when nobody holds the lock, a waiting
transaction the lock. -/
theorem reachable_progress {s : System} (h : Reachable s) (hlive : 0 < live s) :
    ∃ i, step s (.commit i) ≠ none ∨ step s (.acquire i) ≠ none := by
  have hc := h.consistent
  by_cases hholder : ∃ t ∈ s.txs, t.hasReadLock = true ∨ t.hasWriteLock = true
  · obtain ⟨t, htm, hheld⟩ := hholder
    obtain ⟨i, hi⟩ := List.mem_iff_getElem?.mp htm
    refine ⟨i, .inl ?_⟩
    simp only [step, finish, hi, if_pos hheld]
    nofun
  · push_neg at hholder
    obtain ⟨t, htm, hact⟩ := List.countP_pos_iff.mp hlive
    obtain ⟨i, hi⟩ := List.mem_iff_getElem?.mp htm
    obtain ⟨hnr, hnw⟩ := hholder t htm
    obtain ⟨hr0, hw0⟩ := hc.free fun x hx => by simpa using hholder x hx
    refine ⟨i, .inr ?_⟩
    simp only [Bool.not_eq_true] at hnr hnw
    have hwait : t.active = true ∧ ¬t.hasReadLock = true ∧ ¬t.hasWriteLock = true := by
      simp only [hnr, hnw] at hact ⊢; exact ⟨hact, nofun, nofun⟩
    simp only [step, acquire, hi, if_pos hwait]
    cases t.mode <;> simp [hr0, hw0]

theorem reachable_progress_waiting :
    Reachable ⟨⟨⟨0, false⟩, 1, 0, 0, 0, 0, 0⟩, [⟨.readOnly, 0, true, false, false⟩]⟩ ∧
      0 < live ⟨⟨⟨0, false⟩, 1, 0, 0, 0, 0, 0⟩, [⟨.readOnly, 0, true, false, false⟩]⟩ ∧
      ∃ i, step ⟨⟨⟨0, false⟩, 1, 0, 0, 0, 0, 0⟩, [⟨.readOnly, 0, true, false, false⟩]⟩ (.commit i) ≠
          none ∨
        step ⟨⟨⟨0, false⟩, 1, 0, 0, 0, 0, 0⟩, [⟨.readOnly, 0, true, false, false⟩]⟩ (.acquire i) ≠
          none :=
  ⟨⟨0, 0, 0, [.begin true], rfl⟩, by decide,
    reachable_progress ⟨0, 0, 0, [.begin true], rfl⟩ (by decide)⟩

/-! ### `GetTransactionStats` -/

theorem toNat_sub_eq (a b : UInt64) : (a - b).toNat = (2 ^ 64 - b.toNat + a.toNat) % 2 ^ 64 := rfl

theorem toNat_ofNat_eq (n : Nat) : (UInt64.ofNat n).toNat = n % 2 ^ 64 := rfl

theorem uint64_ext {a b : UInt64} (h : a.toNat = b.toNat) : a = b :=
  UInt64.eq_of_val_eq (Fin.ext h)

/-- With no call between its loads, `GetTransactionStats` reports as active exactly the transactions
that are not finished, modulo `2^64`. -/
theorem getTransactionStats_snapshot {s : System} (h : Reachable s) :
    (getTransactionStats s.manager s.manager s.manager s.manager s.manager s.manager).txActive =
      UInt64.ofNat (live s) := by
  have hbal := h.consistent.balanced
  have hc := s.manager.txCompleted.toNat_lt
  have ha := s.manager.txAborted.toNat_lt
  apply uint64_ext
  simp only [getTransactionStats, toNat_sub_eq, toNat_ofNat_eq, hbal]
  omega

theorem getTransactionStats_snapshot_new :
    Reachable ⟨newManagerWithTTL 0 0 0, []⟩ ∧
      (getTransactionStats (newManagerWithTTL 0 0 0) (newManagerWithTTL 0 0 0)
          (newManagerWithTTL 0 0 0) (newManagerWithTTL 0 0 0) (newManagerWithTTL 0 0 0)
          (newManagerWithTTL 0 0 0)).txActive =
        UInt64.ofNat (live ⟨newManagerWithTTL 0 0 0, []⟩) :=
  ⟨⟨0, 0, 0, [], rfl⟩, @getTransactionStats_snapshot ⟨newManagerWithTTL 0 0 0, []⟩ ⟨0, 0, 0, [], rfl⟩⟩

/-- A read-only transaction that begins and commits while nobody holds the write side: the lock and
the other transactions as they were, one more transaction started and completed. -/
theorem runActions_begin_commit (s : System) (hw : s.manager.txLock.writer = false) :
    runActions s [.begin true, .acquire s.txs.length, .commit s.txs.length] =
      some ⟨{ s.manager with txStarted := s.manager.txStarted + 1,
                             txCompleted := s.manager.txCompleted + 1 },
        s.txs ++ [⟨.readOnly, s.manager.readOnlyTxTTL, false, false, false⟩]⟩ := by
  obtain ⟨⟨⟨readers, writer⟩, _, _, _, _, _, _⟩, txs⟩ := s
  cases hw
  simp [runActions, step, beginTransaction, acquire, finish, List.getElem?_concat_length,
    RWMutex.release, incrementTxCompleted]

/-- `GetTransactionStats` is not a snapshot: in every reachable state in which nobody holds the
write side, a read-only transaction that begins and commits between its load of `txStarted` for
`tx_active` and its load of `txCompleted` makes it report one transaction fewer than are running,
and `2^64 - 1` when none is. -/
theorem getTransactionStats_interleaved {s : System} (h : Reachable s)
    (hw : s.manager.txLock.writer = false) :
    ∃ s', runActions s [.begin true, .acquire s.txs.length, .commit s.txs.length] = some s' ∧
      live s' = live s ∧
      (getTransactionStats s.manager s.manager s.manager s.manager s'.manager s'.manager).txActive =
        UInt64.ofNat (live s) - 1 := by
  refine ⟨_, runActions_begin_commit s hw, by simp [live], ?_⟩
  have hbal := h.consistent.balanced
  have hc := s.manager.txCompleted.toNat_lt
  have ha := s.manager.txAborted.toNat_lt
  apply uint64_ext
  simp only [getTransactionStats, toNat_sub_eq, toNat_ofNat_eq, toNat_succ, hbal]
  have hone : (1 : UInt64).toNat = 1 := rfl
  rw [hone]
  omega

theorem getTransactionStats_interleaved_idle :
    Reachable ⟨newManagerWithTTL 0 0 0, []⟩ ∧ (newManagerWithTTL 0 0 0).txLock.writer = false ∧
      UInt64.ofNat (live ⟨newManagerWithTTL 0 0 0, []⟩) - 1 = 18446744073709551615 ∧
      ∃ s', runActions ⟨newManagerWithTTL 0 0 0, []⟩ [.begin true, .acquire 0, .commit 0] = some s' ∧
        live s' = live ⟨newManagerWithTTL 0 0 0, []⟩ ∧
        (getTransactionStats (newManagerWithTTL 0 0 0) (newManagerWithTTL 0 0 0)
            (newManagerWithTTL 0 0 0) (newManagerWithTTL 0 0 0) s'.manager s'.manager).txActive =
          UInt64.ofNat (live ⟨newManagerWithTTL 0 0 0, []⟩) - 1 :=
  ⟨⟨0, 0, 0, [], rfl⟩, rfl, by decide,
    @getTransactionStats_interleaved ⟨newManagerWithTTL 0 0 0, []⟩ ⟨0, 0, 0, [], rfl⟩ rfl⟩

end Kevo.Transaction
