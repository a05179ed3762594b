import Feuer.Lib.MachineWord
import Feuer.Lib.Transition
import Feuer.Storage.Layout
import Mathlib.Algebra.BigOperators.Group.Finset.Basic
import Mathlib.Logic.Function.Basic

/-!
# Request history and its cleanup

`ObjectAccessHistories` of `feuer-historian` keeps, in independently locked shards, the clock of
every key's latest request. `remove_oldest` goes over the shards three times: it counts the
entries, it takes a snapshot of the clocks, and it removes the entries at or below a cutoff. Every
shard is locked on its own, so requests of other threads are recorded between any two of these
steps. `HistoryState.step` is the interleaving: a call of `record_request` first locks its shard
and takes its clock, and later enters it and releases the lock; a pass takes one shard at a time and
waits for the lock of a shard that a call holds.

The decayed count beside the clock is left out: the cleanup does not read it.
-/

namespace Feuer.Historian

open Lib Storage

/-- The operations that would panic. -/
inductive HistoryPanic where
  | clockOverflow
  | subtraction
  | index
  deriving DecidableEq, Repr

/-- The shards of a history, and the entry count above which cleanup removes old entries. -/
structure HistoryConfig where
  shards : Nat
  shards_pos : 0 < shards
  limit : Nat
  limit_pos : 0 < limit
  hashOne : ObjectKeyHash → Nat

/-- The index of the shard with a key's history. -/
def HistoryConfig.shard (config : HistoryConfig) (key : ObjectKeyHash) : Nat :=
  config.hashOne key % config.shards

/-- A key with the clock of its latest request. -/
structure History where
  key : ObjectKeyHash
  lastUpdateClock : Nat
  deriving DecidableEq, Repr

/-- `add_request` for an entry that is created if the key has none. -/
def addRequest (histories : List History) (request : History) : List History :=
  histories.filter (·.key ≠ request.key) ++ [request]

/-- Where a pass of `remove_oldest` stands. -/
inductive Cleanup where
  | counting (next count : Nat)
  | snapshot (next : Nat) (clocks : List Nat)
  | removing (next cutoff : Nat)
  | finished
  deriving DecidableEq, Repr

/-- The shared histories, with the calls of `record_request` that hold a shard's lock, and the one
cleanup worker. -/
structure HistoryState where
  shards : Nat → List History
  requesting : Nat → Option History
  requestCount : Nat
  cleanup : Cleanup

/-- A new history. -/
def HistoryState.new : HistoryState := ⟨fun _ => [], fun _ => none, 0, .finished⟩

/-- The number of entries of all shards. -/
def HistoryState.total (config : HistoryConfig) (state : HistoryState) : Nat :=
  ∑ shard ∈ Finset.range config.shards, (state.shards shard).length

/-- How many entries a pass keeps that removes any. -/
def entriesToKeep (limit : Nat) : Nat := limit - limit / 10

/-- The clock at or below which entries are removed. -/
def cutoffOf (limit : Nat) (clocks : List Nat) : Except HistoryPanic Nat := do
  let toKeep ← checkedSub .subtraction limit (limit / 10)
  let toRemove ← checkedSub .subtraction clocks.length toKeep
  let cutoffIndex ← checkedSub .subtraction toRemove 1
  match (clocks.mergeSort (· ≤ ·))[cutoffIndex]? with
  | some cutoff => .ok cutoff
  | none => .error .index

/-- The next step of a pass. It waits while a call holds the lock of the shard. -/
def HistoryState.removeOldest (config : HistoryConfig) (state : HistoryState) :
    Except HistoryPanic HistoryState :=
  match state.cleanup with
  | .counting next count =>
      if next < config.shards then
        if (state.requesting next).isSome then .ok state
        else .ok { state with
          cleanup := .counting (next + 1) (count + (state.shards next).length) }
      else if count ≤ config.limit then .ok { state with cleanup := .finished }
      else .ok { state with cleanup := .snapshot 0 [] }
  | .snapshot next clocks =>
      if next < config.shards then
        if (state.requesting next).isSome then .ok state
        else .ok { state with
          cleanup := .snapshot (next + 1)
            (clocks ++ (state.shards next).map (·.lastUpdateClock)) }
      else do
        let cutoff ← cutoffOf config.limit clocks
        .ok { state with cleanup := .removing 0 cutoff }
  | .removing next cutoff =>
      if next < config.shards then
        if (state.requesting next).isSome then .ok state
        else .ok { state with
          shards := Function.update state.shards next
            ((state.shards next).filter (cutoff < ·.lastUpdateClock))
          cleanup := .removing (next + 1) cutoff }
      else .ok { state with cleanup := .finished }
  | .finished => .ok state

/-- The first half of `record_request`: it locks the key's shard, or waits, and takes a clock. -/
def HistoryState.lockRequest (config : HistoryConfig) (state : HistoryState)
    (key : ObjectKeyHash) : Except HistoryPanic HistoryState :=
  if (state.requesting (config.shard key)).isSome then .ok state
  else do
    let requestClock ← checkedAdd .clockOverflow state.requestCount 1
    .ok { state with
      requesting := Function.update state.requesting (config.shard key) (some ⟨key, requestClock⟩)
      requestCount := requestClock }

/-- The second half of `record_request`: it enters the clock and releases the lock. -/
def HistoryState.applyRequest (state : HistoryState) (shard : Nat) : HistoryState :=
  match state.requesting shard with
  | some request =>
      { state with
        shards := Function.update state.shards shard (addRequest (state.shards shard) request)
        requesting := Function.update state.requesting shard none }
  | none => state

/-- What the threads do next. -/
inductive HistoryAction where
  | startCleanup
  | removeOldest
  | lockRequest (key : ObjectKeyHash)
  | applyRequest (shard : Nat)

/-- One step of one of the threads. A pass starts when no other one runs. -/
def HistoryState.step (config : HistoryConfig) (state : HistoryState) :
    HistoryAction → Except HistoryPanic HistoryState
  | .startCleanup =>
      if state.cleanup = .finished then .ok { state with cleanup := .counting 0 0 } else .ok state
  | .removeOldest => state.removeOldest config
  | .lockRequest key => state.lockRequest config key
  | .applyRequest shard => .ok (state.applyRequest shard)

/-! ## What is observed -/

/-- The keys in the order of their requests' clocks; the keys that the last pass removed, each with
the request count at its removal; and the request count when the snapshot of the last pass was
complete. -/
structure CleanupLog where
  requests : List ObjectKeyHash
  removed : List (ObjectKeyHash × Nat)
  snapshotAt : Option Nat

/-- The request with this clock was for this key. -/
def RequestedAt (requests : List ObjectKeyHash) (key : ObjectKeyHash) (clock : Nat) : Prop :=
  0 < clock ∧ requests[clock - 1]? = some key

/-- The keys that have a history in one state and none in the other. -/
def lostKeys (config : HistoryConfig) (state next : HistoryState) : List ObjectKeyHash :=
  (List.range config.shards).flatMap fun shard =>
    ((state.shards shard).map (·.key)).filter (· ∉ (next.shards shard).map (·.key))

/-- Whether a pass leaves its snapshot. -/
def snapshotEnds : Cleanup → Cleanup → Bool
  | .snapshot _ _, .removing _ _ => true
  | _, _ => false

/-- Observes a step. -/
def CleanupLog.record (config : HistoryConfig) (state : HistoryState) (action : HistoryAction)
    (next : HistoryState) (log : CleanupLog) : CleanupLog :=
  match action with
  | .startCleanup =>
      if state.cleanup = .finished then { log with removed := [], snapshotAt := none } else log
  | .lockRequest key =>
      if next.requestCount = state.requestCount then log
      else { log with requests := log.requests ++ [key] }
  | .applyRequest _ | .removeOldest =>
      { log with
        removed := log.removed ++ (lostKeys config state next).map (·, state.requestCount)
        snapshotAt := if snapshotEnds state.cleanup next.cleanup then some state.requestCount
          else log.snapshotAt }

end Feuer.Historian
