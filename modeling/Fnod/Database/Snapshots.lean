import Fnod.Database.DbCache
import Mathlib.Data.Nat.Basic

/-!
# Snapshots under a concurrent writer

A transaction takes its snapshot in two steps: `GetSnapshot` of leveldb, then the roots of the
cached treaps under the cache lock. The one writer commits in steps of its own: the roots are
replaced in one step, but a flush first commits the cached updates to leveldb and then clears the
cache, and after it the transaction goes to leveldb directly. Nothing keeps these steps apart: a
read-only transaction does not take the write lock.

If the cache changes after leveldb does, between the two steps of a snapshot, the snapshot misses
what moved from one to the other (`snapshot_torn`). Otherwise it is atomic (`snapshot_atomic`): it
shows a prefix of the committed transactions, with all that were committed when the transaction
began.
-/

namespace Fnod

open Function List

variable {K V : Type} [LinearOrder K]

/-! ## The steps -/

/-- Where the writer is in `commitTx`. Between transactions it is idle. -/
inductive Committing (K V : Type) [LinearOrder K] where
  | idle
  /-- `flush` has read the roots. -/
  | flushing (tx roots : Layer K V)
  /-- `flush` has committed the cached updates to leveldb. -/
  | clearing (tx : Layer K V)
  /-- The cache is flushed; the transaction goes to leveldb. -/
  | direct (tx : Layer K V)
  /-- The new roots are ready. -/
  | swapping (tx roots : Layer K V)

/-- Where a transaction is in `begin`. `start` is the number of transactions that were committed
when it began. -/
inductive Beginning (K V : Type) [LinearOrder K] where
  | idle
  | begun (start : Nat)
  /-- `GetSnapshot` has returned the snapshot with this sequence number. -/
  | halfway (start : Nat) (dbSnapshot : OrdMap K V) (seq : Nat)
  | done (start : Nat) (snap : DbCacheSnapshot K V)

/-- The database with its writer and its readers. -/
structure Shared (K V : Type) [LinearOrder K] where
  cache : DbCache K V
  /-- The number of leveldb commits. -/
  seq : Nat
  writer : Committing K V
  /-- The committed transactions, in order. -/
  log : List (Layer K V)
  reader : Nat → Beginning K V

namespace Shared

/-- A database that is opened, with any contents. -/
def opened (cache : DbCache K V) : Shared K V := ⟨cache, 0, .idle, [], fun _ => .idle⟩

/-- A step of the writer or of the reader with a number. -/
inductive Event (K V : Type) [LinearOrder K] where
  /-- The writer calls `commitTx`, and `needsFlush` has answered. -/
  | commit (tx : Layer K V) (needsFlush : Bool)
  | write
  | begin (i : Nat)
  | getSnapshot (i : Nat)
  | readRoots (i : Nat)

variable (s : Shared K V) {log : List (Layer K V)} {start : Nat} {r : Beginning K V}

/-- The next step of the writer. -/
def writeStep : Option (Shared K V) :=
  match s.writer with
  | .idle => none
  | .flushing tx roots =>
      if roots.isEmpty then some { s with writer := .direct tx }
      else some { s with
        cache := { s.cache with ldb := DbCache.commitTreaps s.cache.ldb roots }
        seq := s.seq + 1
        writer := .clearing tx }
  | .clearing tx => some { s with cache := { s.cache with cached := .empty }, writer := .direct tx }
  | .direct tx => some { s with
      cache := { s.cache with ldb := DbCache.commitTreaps s.cache.ldb tx }
      seq := s.seq + 1
      writer := .idle
      log := s.log ++ [tx] }
  | .swapping tx roots => some { s with
      cache := { s.cache with cached := roots }
      writer := .idle
      log := s.log ++ [tx] }

def step : Event K V → Option (Shared K V)
  | .commit tx needsFlush =>
      match s.writer with
      | .idle => some { s with
          writer := if needsFlush then .flushing tx s.cache.cached
            else .swapping tx (s.cache.cached.merge tx) }
      | _ => none
  | .write => s.writeStep
  | .begin i =>
      match s.reader i with
      | .idle => some { s with reader := Function.update s.reader i (.begun s.log.length) }
      | _ => none
  | .getSnapshot i =>
      match s.reader i with
      | .begun start => some { s with
          reader := Function.update s.reader i (.halfway start s.cache.ldb s.seq) }
      | _ => none
  | .readRoots i =>
      match s.reader i with
      | .halfway start dbSnapshot _ => some { s with
          reader := Function.update s.reader i (.done start ⟨dbSnapshot, s.cache.cached⟩) }
      | _ => none

def run (events : List (Event K V)) : Option (Shared K V) := events.foldlM step s

/-! ## What the contents should be -/

/-- The contents after the transactions, from the given ones. -/
def replay (m : OrdMap K V) (txs : List (Layer K V)) : OrdMap K V :=
  txs.foldl (fun m tx => tx.apply m) m

theorem replay_append (m : OrdMap K V) (txs : List (Layer K V)) (tx : Layer K V) :
    replay m (txs ++ [tx]) = tx.apply (replay m txs) := by
  rw [replay, foldl_append]
  rfl

/-- The map shows a prefix of the transactions, with the first `start` of them. -/
def ShowsPrefix (m₀ : OrdMap K V) (log : List (Layer K V)) (start : Nat) (m : OrdMap K V) : Prop :=
  ∃ n, start ≤ n ∧ n ≤ log.length ∧ m = replay m₀ (log.take n)

theorem ShowsPrefix.append {m : OrdMap K V}
    (h : ShowsPrefix m₀ log start m) (tx : Layer K V) : ShowsPrefix m₀ (log ++ [tx]) start m := by
  obtain ⟨n, hstart, hle, hm⟩ := h
  refine ⟨n, hstart, ?_, ?_⟩
  · rw [length_append]
    omega
  · rw [take_append_of_le_length hle]
    exact hm

theorem showsPrefix_all (h : start ≤ log.length) : ShowsPrefix m₀ log start (replay m₀ log) :=
  ⟨log.length, h, le_rfl, by rw [take_length]⟩

/-! ## The invariant -/

/-- What holds of the writer's place in `commitTx`. -/
def WriterOk (cache : DbCache K V) : Committing K V → Prop
  | .idle => True
  | .flushing _ roots => roots = cache.cached
  | .clearing _ => cache.cached.apply cache.ldb = cache.ldb
  | .direct _ => cache.cached = .empty
  | .swapping tx roots => roots = cache.cached.merge tx

/-- What holds of a reader. A leveldb snapshot is the current contents, or what the cache makes of
it now is a prefix already. -/
def ReaderOk (m₀ : OrdMap K V) (s : Shared K V) : Beginning K V → Prop
  | .idle => True
  | .begun start => start ≤ s.log.length
  | .halfway start dbSnapshot seq =>
      start ≤ s.log.length ∧ seq ≤ s.seq ∧ (seq = s.seq → dbSnapshot = s.cache.ldb) ∧
        (seq < s.seq → ShowsPrefix m₀ s.log start (s.cache.cached.apply dbSnapshot))
  | .done start snap => ShowsPrefix m₀ s.log start snap.contents

structure Inv (m₀ : OrdMap K V) (s : Shared K V) : Prop where
  contents : s.cache.contents = replay m₀ s.log
  writer : WriterOk s.cache s.writer
  reader : ∀ i, ReaderOk m₀ s (s.reader i)

/-- The step replaces the roots of the cache. -/
def replacesRoots : Event K V → Bool
  | .write =>
      match s.writer with
      | .clearing _ => true
      | .swapping _ _ => true
      | _ => false
  | _ => false

/-- The transaction holds a leveldb snapshot that is older than the last leveldb commit, and has
not read the roots. -/
def Outdated (i : Nat) : Prop :=
  ∃ start dbSnapshot seq, s.reader i = .halfway start dbSnapshot seq ∧ seq < s.seq

/-- The condition on a step: the roots are not replaced under a transaction with an outdated
leveldb snapshot. -/
def Calm (e : Event K V) : Prop :=
  s.replacesRoots e = true → ∀ i, ¬ s.Outdated i

variable {m₀ : OrdMap K V} {s s' : Shared K V}

/-- A leveldb commit that leaves the cache alone: a snapshot that was current is outdated, and was
the contents. -/
theorem ReaderOk.outdate (h : ReaderOk m₀ s r) (hs : Inv m₀ s)
    (hcached : s'.cache.cached = s.cache.cached) (hseq : s'.seq = s.seq + 1)
    (hlog : s'.log = s.log ∨ ∃ tx, s'.log = s.log ++ [tx]) : ReaderOk m₀ s' r := by
  have hmono : ∀ {start m}, ShowsPrefix m₀ s.log start m → ShowsPrefix m₀ s'.log start m := by
    intro start m hm
    rcases hlog with hlog | ⟨tx, hlog⟩
    · rw [hlog]
      exact hm
    · rw [hlog]
      exact hm.append tx
  have hlen : s.log.length ≤ s'.log.length := by
    rcases hlog with hlog | ⟨tx, hlog⟩ <;> simp [hlog]
  cases r with
  | idle => trivial
  | begun start => exact le_trans h hlen
  | halfway start dbSnapshot seq =>
    obtain ⟨hstart, hle, hcurrent, hold⟩ := h
    refine ⟨le_trans hstart hlen, by omega, fun he => by omega, fun _ => hmono ?_⟩
    rw [hcached]
    rcases lt_or_eq_of_le hle with hlt | heq
    · exact hold hlt
    · rw [hcurrent heq, show s.cache.cached.apply s.cache.ldb = _ from hs.contents]
      exact showsPrefix_all hstart
  | done start snap => exact hmono h

theorem ReaderOk.replaceRoots {i : Nat} (h : ReaderOk m₀ s (s.reader i)) (hcalm : ¬ s.Outdated i)
    (hldb : s'.cache.ldb = s.cache.ldb) (hseq : s'.seq = s.seq)
    (hlog : s'.log = s.log ∨ ∃ tx, s'.log = s.log ++ [tx]) : ReaderOk m₀ s' (s.reader i) := by
  have hlen : s.log.length ≤ s'.log.length := by
    rcases hlog with hlog | ⟨tx, hlog⟩ <;> simp [hlog]
  cases hr : s.reader i with
  | idle => trivial
  | begun start =>
    rw [hr] at h
    exact le_trans h hlen
  | halfway start dbSnapshot seq =>
    rw [hr] at h
    obtain ⟨hstart, hle, hcurrent, -⟩ := h
    have hnot : ¬ seq < s.seq := fun hlt => hcalm ⟨start, dbSnapshot, seq, hr, hlt⟩
    refine ⟨le_trans hstart hlen, by omega, fun he => ?_, fun hlt => by omega⟩
    rw [hldb]
    exact hcurrent (by omega)
  | done start snap =>
    rw [hr] at h
    rcases hlog with hlog | ⟨tx, hlog⟩
    · show ShowsPrefix m₀ s'.log start snap.contents
      rw [hlog]
      exact h
    · show ShowsPrefix m₀ s'.log start snap.contents
      rw [hlog]
      exact ShowsPrefix.append h tx

theorem inv_writeStep (h : Inv m₀ s) (hcalm : s.Calm .write) (hstep : s.writeStep = some s') :
    Inv m₀ s' := by
  rw [writeStep] at hstep
  have hw := h.writer
  have hroots : s.replacesRoots .write = true → ∀ i, ¬ s.Outdated i := hcalm
  cases hwriter : s.writer with
  | idle =>
    rw [hwriter] at hstep
    cases hstep
  | flushing tx roots =>
    rw [hwriter] at hstep hw
    obtain rfl : roots = s.cache.cached := hw
    simp only at hstep
    split_ifs at hstep with hempty
    · cases hstep
      exact ⟨h.contents, Layer.eq_empty_of_isEmpty hempty, h.reader⟩
    · cases hstep
      refine ⟨?_, ?_, fun i => (h.reader i).outdate h rfl rfl (.inl rfl)⟩
      · exact (Layer.apply_apply _ _).trans h.contents
      · exact Layer.apply_apply _ _
  | clearing tx =>
    rw [hwriter] at hstep hw
    cases hstep
    have hnone := hroots (by simp [replacesRoots, hwriter])
    refine ⟨?_, rfl, fun i => (h.reader i).replaceRoots (hnone i) rfl rfl (.inl rfl)⟩
    exact Eq.trans (Eq.symm hw) h.contents
  | direct tx =>
    rw [hwriter] at hstep hw
    cases hstep
    have hempty : s.cache.cached = .empty := hw
    refine ⟨?_, trivial, fun i => (h.reader i).outdate h rfl rfl (.inr ⟨tx, rfl⟩)⟩
    have hldb : s.cache.ldb = replay m₀ s.log := by
      rw [← h.contents, DbCache.contents, hempty, Layer.apply_empty]
    show s.cache.cached.apply (tx.apply s.cache.ldb) = replay m₀ (s.log ++ [tx])
    rw [hempty, Layer.apply_empty, hldb, replay_append]
  | swapping tx roots =>
    rw [hwriter] at hstep hw
    obtain rfl : roots = s.cache.cached.merge tx := hw
    cases hstep
    have hnone := hroots (by simp [replacesRoots, hwriter])
    refine ⟨?_, trivial, fun i => (h.reader i).replaceRoots (hnone i) rfl rfl (.inr ⟨tx, rfl⟩)⟩
    show (s.cache.cached.merge tx).apply s.cache.ldb = replay m₀ (s.log ++ [tx])
    rw [Layer.apply_merge, replay_append, ← h.contents]
    rfl

theorem Inv.update_reader (h : Inv m₀ s) (i : Nat) (hr : ReaderOk m₀ s r) :
    Inv m₀ { s with reader := update s.reader i r } := by
  refine ⟨h.contents, h.writer, fun j => ?_⟩
  by_cases hj : j = i
  · subst hj
    show ReaderOk m₀ _ (update s.reader j r j)
    rw [update_self]
    cases r <;> exact hr
  · show ReaderOk m₀ _ (update s.reader i r j)
    rw [update_of_ne hj]
    have hold := h.reader j
    cases hrj : s.reader j <;> rw [hrj] at hold <;> exact hold

theorem inv_step (h : Inv m₀ s) {e : Event K V} (hcalm : s.Calm e) (hstep : s.step e = some s') :
    Inv m₀ s' := by
  cases e with
  | commit tx needsFlush =>
    cases hwriter : s.writer with
    | idle =>
      simp only [step, hwriter, Option.some.injEq] at hstep
      subst hstep
      refine ⟨h.contents, ?_, fun i => ?_⟩
      · cases needsFlush <;> rfl
      · have hold := h.reader i
        show ReaderOk m₀ _ (s.reader i)
        cases hr : s.reader i <;> rw [hr] at hold <;> exact hold
    | _ => simp [step, hwriter] at hstep
  | write => exact inv_writeStep h hcalm hstep
  | begin i =>
    cases hr : s.reader i with
    | idle =>
      simp only [step, hr, Option.some.injEq] at hstep
      subst hstep
      exact h.update_reader i (le_refl s.log.length)
    | _ => simp [step, hr] at hstep
  | getSnapshot i =>
    cases hr : s.reader i with
    | begun start =>
      simp only [step, hr, Option.some.injEq] at hstep
      subst hstep
      have hstart : start ≤ s.log.length := by
        have hold := h.reader i
        rw [hr] at hold
        exact hold
      exact h.update_reader i  ⟨hstart, le_rfl, fun _ => rfl, fun hlt => absurd hlt (lt_irrefl _)⟩
    | _ => simp [step, hr] at hstep
  | readRoots i =>
    cases hr : s.reader i with
    | halfway start dbSnapshot seq =>
      simp only [step, hr, Option.some.injEq] at hstep
      subst hstep
      have hold := h.reader i
      rw [hr] at hold
      obtain ⟨hstart, hle, hcurrent, hshows⟩ := hold
      refine h.update_reader i ?_
      show ShowsPrefix m₀ s.log start (s.cache.cached.apply dbSnapshot)
      rcases lt_or_eq_of_le hle with hlt | heq
      · exact hshows hlt
      · rw [hcurrent heq, show s.cache.cached.apply s.cache.ldb = _ from h.contents]
        exact showsPrefix_all hstart
    | _ => simp [step, hr] at hstep

/-- Every step of the schedule is calm where it is taken. -/
def CalmRun : Shared K V → List (Event K V) → Prop
  | _, [] => True
  | s, e :: events => s.Calm e ∧ ∀ s', s.step e = some s' → CalmRun s' events

theorem inv_run (h : Inv m₀ s) {events : List (Event K V)} (hcalm : CalmRun s events)
    (hrun : s.run events = some s') : Inv m₀ s' := by
  induction events generalizing s with
  | nil =>
    cases hrun
    exact h
  | cons e events ih =>
    rw [run, foldlM_cons] at hrun
    obtain ⟨s₁, hs₁, hrest⟩ := Option.bind_eq_some_iff.1 hrun
    exact ih (inv_step h hcalm.1 hs₁) (hcalm.2 s₁ hs₁) hrest

theorem inv_opened (cache : DbCache K V) : Inv cache.contents (opened cache) :=
  ⟨rfl, trivial, fun _ => trivial⟩

end Shared

/-- **A snapshot shows a prefix of the committed transactions**, with all that were committed when
its transaction began, in every schedule of calm steps. -/
theorem snapshot_atomic (cache : DbCache K V) (events : List (Shared.Event K V))
    (hcalm : (Shared.opened cache).CalmRun events) (s : Shared K V)
    (hrun : (Shared.opened cache).run events = some s) (i start : Nat) (snap : DbCacheSnapshot K V)
    (hdone : s.reader i = .done start snap) : ∃ n, start ≤ n ∧ n ≤ s.log.length ∧
      ∀ k, snap.get k = (Shared.replay cache.contents (s.log.take n)).get? k ∧
        snap.has k = (Shared.replay cache.contents (s.log.take n)).contains k := by
  have hreader := (Shared.inv_run (Shared.inv_opened cache) hcalm hrun).reader i
  rw [hdone] at hreader
  obtain ⟨n, hstart, hle, hcontents⟩ := hreader
  refine ⟨n, hstart, hle, fun k => ⟨?_, ?_⟩⟩
  · rw [DbCacheSnapshot.get_eq, hcontents]
  · rw [DbCacheSnapshot.has_eq, hcontents]

/-- One entry is stored, and another one is in the cache. -/
def halfCached : DbCache Nat Nat := ⟨OrdMap.empty.insert 0 5, Layer.empty.put 1 7⟩

/-- The two steps of a snapshot, with the leveldb commit of a flush between them. -/
def aroundFlush : List (Shared.Event Nat Nat) :=
  [.begin 0, .commit (Layer.empty.put 2 8) true, .getSnapshot 0, .write, .readRoots 0, .write,
    .write]

theorem calmRun_aroundFlush : (Shared.opened halfCached).CalmRun aroundFlush := by
  have hquiet : ∀ {s s' : Shared Nat Nat} {e events}, s.replacesRoots e = false →
      s.step e = some s' → s'.CalmRun events → s.CalmRun (e :: events) := by
    intro s s' e events he hstep hrest
    refine ⟨fun h => ?_, fun s'' hs'' => ?_⟩
    · rw [he] at h
      cases h
    · obtain rfl : s' = s'' := Option.some.inj (hstep.symm.trans hs'')
      exact hrest
  -- The roots are read before the sixth step clears the cache.
  refine hquiet rfl rfl (hquiet rfl rfl (hquiet rfl rfl (hquiet rfl rfl (hquiet rfl rfl ?_))))
  refine ⟨fun _ i hi => ?_, fun s h => ?_⟩
  · obtain ⟨start, dbSnapshot, seq, hr, -⟩ := hi
    by_cases h0 : i = 0
    · subst h0
      cases hr
    · simp [Shared.opened, update_of_ne h0] at hr
  · cases h
    exact hquiet rfl rfl trivial

/-- The snapshot is taken while the flush is halfway, and shows what was stored and cached. -/
theorem snapshot_atomic_aroundFlush :
    ∃ s snap, (Shared.opened halfCached).run aroundFlush = some s ∧
      s.reader 0 = .done 0 snap ∧
      ∃ n, 0 ≤ n ∧ n ≤ s.log.length ∧
        ∀ k, snap.get k = (Shared.replay halfCached.contents (s.log.take n)).get? k ∧
          snap.has k = (Shared.replay halfCached.contents (s.log.take n)).contains k :=
  ⟨_, _, rfl, rfl, snapshot_atomic halfCached aroundFlush calmRun_aroundFlush _ rfl 0 0 _ rfl⟩

/-- The whole of a flush comes between the two steps of a snapshot. -/
def acrossFlush : List (Shared.Event Nat Nat) :=
  [.commit (Layer.empty.put 1 7) false, .write, .begin 0, .getSnapshot 0,
    .commit (Layer.empty.put 2 8) true, .write, .write, .readRoots 0, .write]

/-- A transaction goes to leveldb and the next one to the cache between the two steps. -/
def acrossCommits : List (Shared.Event Nat Nat) :=
  [.begin 0, .getSnapshot 0, .commit (Layer.empty.put 1 7) true, .write, .write,
    .commit (Layer.empty.put 2 8) false, .write, .readRoots 0]

/-- After the events the first reader has a snapshot that shows no prefix of the transactions with
the first `start`: some key tells them apart. -/
def Torn (events : List (Shared.Event Nat Nat)) (start : Nat) : Prop :=
  ∃ s snap, (Shared.opened ⟨.empty, .empty⟩).run events = some s ∧ s.reader 0 = .done start snap ∧
    ∀ n ≤ s.log.length, start ≤ n →
      ∃ k, snap.get k ≠ (Shared.replay .empty (s.log.take n)).get? k

/-- `Torn`, evaluated: the number of transactions before the reader, if one of the keys tells. -/
def tornAt (keys : List Nat) (s : Shared Nat Nat) : Option Nat :=
  match s.reader 0 with
  | .done start snap =>
      if ∀ n ≤ s.log.length, start ≤ n →
        ∃ k ∈ keys, snap.get k ≠ (Shared.replay .empty (s.log.take n)).get? k
      then some start else none
  | _ => none

theorem torn_of_tornAt {events : List (Shared.Event Nat Nat)} {keys : List Nat} {start : Nat}
    (h : ((Shared.opened ⟨.empty, .empty⟩).run events).bind (tornAt keys) = some start) :
    Torn events start := by
  obtain ⟨s, hrun, htorn⟩ := Option.bind_eq_some_iff.1 h
  cases hr : s.reader 0 with
  | done start' snap =>
    simp only [tornAt, hr] at htorn
    split_ifs at htorn with hkeys
    cases htorn
    refine ⟨s, snap, hrun, hr, fun n hle hstart => ?_⟩
    obtain ⟨k, -, hk⟩ := hkeys n hle hstart
    exact ⟨k, hk⟩
  | _ => simp [tornAt, hr] at htorn

/-- The first snapshot misses the transaction that was committed when its transaction began; the
second one shows the second transaction without the first. -/
theorem snapshot_torn : Torn acrossFlush 1 ∧ Torn acrossCommits 0 := by
  refine ⟨@torn_of_tornAt _ [1] _ ?_, @torn_of_tornAt _ [1, 2] _ ?_⟩
  · decide +kernel
  · decide +kernel

end Fnod
