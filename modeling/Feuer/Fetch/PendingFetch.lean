import Feuer.Lib.FiniteMap
import Feuer.Lib.Transition

/-!
# Shared fetches and their registry

`PendingFetch`, after `cache/pending_fetches.rs`, and the part of `get_or_fetch_by_hash` in
`cache.rs` that uses it. Callers that miss memory join a fetch of their key and error type. The
fetch is owned by its callers through counted references; the registry refers to it weakly, by
address. Any caller polls the shared future, and a caller that has its result removes the fetch from
the registry. The drop of the last owner removes it too.

Each action is one step of one caller between two points where another caller can act: the registry
is locked within a step, and the count of the owners changes outside the lock. A memory address can
be reused once its allocation is freed, so every fetch also has a serial number, which no code
reads.
-/

namespace Feuer.Fetch

open Lib

/-- A panic of a caller, or an access through an address that holds no fetch. -/
inductive FetchPanic where
  /-- `"fetch key includes its error type"`. -/
  | downcast
  /-- The address refers to no allocation. -/
  | dangling
  /-- The clone of a shared future that was not initialised. -/
  | uninitialised
  deriving DecidableEq, Repr

/-! ## The shared future -/

/-- How far `Cache::fetch` has come. -/
inductive FetchStage (ρ : Type) where
  /-- It looks the object up in memory and on disk. -/
  | lookup
  /-- It awaits the source callback. -/
  | callback
  | done (result : ρ)
  deriving DecidableEq, Repr

/-- The shared future of a fetch. It runs the closures of the caller that initialised it. -/
structure SharedFuture (ρ : Type) where
  initialiser : Nat
  stage : FetchStage ρ
  deriving DecidableEq, Repr

/-- An allocation of `PendingFetch`, with the counter of its owners. -/
structure PendingFetch (κ τ ρ : Type) where
  /-- The object key and the error type. -/
  key : κ × τ
  /-- The type of the allocation behind the `dyn Any`. -/
  errorType : τ
  /-- The `OnceLock`. -/
  result : Option (SharedFuture ρ)
  strong : Nat
  /-- `Drop` has run. The allocation stays while a weak reference does. -/
  dropped : Bool
  serial : Nat
  deriving DecidableEq, Repr

/-- `Arc::new(Self { .. })`. -/
def PendingFetch.new {κ τ ρ : Type} (key : κ × τ) (serial : Nat) : PendingFetch κ τ ρ where
  key := key
  errorType := key.2
  result := none
  strong := 1
  dropped := false
  serial := serial

/-- The fetch has a result. -/
def PendingFetch.complete {κ τ ρ : Type} (fetch : PendingFetch κ τ ρ) : Bool :=
  match fetch.result with
  | some ⟨_, .done _⟩ => true
  | _ => false

/-! ## Callers -/

/-- Where a caller of `get_or_fetch` is. -/
inductive CallerPhase (ρ : Type) where
  /-- Awaits `trace_request_start`, then checks memory. -/
  | started
  /-- Memory does not have the object. -/
  | missed
  /-- Owns the fetch, before `get_or_init`. -/
  | joined (address : Nat)
  /-- Awaits its clone of the shared future. -/
  | awaiting (address : Nat)
  /-- Has the result, before `remove_from_registry`. -/
  | resolved (address : Nat) (result : ρ)
  /-- Gives up its reference. A cancelled caller has no result. -/
  | releasing (address : Nat) (result : Option ρ)
  /-- Gave up the last reference and runs `Drop`. -/
  | dropping (address : Nat) (result : Option ρ)
  /-- Records metrics and awaits `send_outcome`. -/
  | reporting (result : ρ)
  | returned (result : ρ)
  | cancelled
  deriving DecidableEq, Repr

namespace CallerPhase

variable {ρ : Type}

/-- The fetch that the caller owns. -/
def held : CallerPhase ρ → Option Nat
  | joined address | awaiting address | resolved address _ | releasing address _ => some address
  | _ => none

/-- The fetch that the caller drops. -/
def doomed : CallerPhase ρ → Option Nat
  | dropping address _ => some address
  | _ => none

/-- The result that the caller has seen. -/
def outcome : CallerPhase ρ → Option ρ
  | resolved _ result | reporting result | returned result => some result
  | releasing _ result | dropping _ result => result
  | _ => none

/-- The caller has neither returned nor been cancelled. -/
def active : CallerPhase ρ → Bool
  | returned _ | cancelled => false
  | _ => true

/-- The phase after the reference is given up. -/
def afterRelease : Option ρ → CallerPhase ρ
  | some result => reporting result
  | none => cancelled

end CallerPhase

/-- A caller. The last two fields are history: the serial number of the fetch that it joined, and
the fetches from which some caller had returned when this one started. -/
structure Caller (κ τ ρ : Type) where
  key : κ × τ
  phase : CallerPhase ρ
  joined : Option Nat
  barred : List Nat
  deriving DecidableEq, Repr

/-! ## The system -/

/-- The registry, the allocated fetches, and the callers. The fields from `nextSerial` on are
history: they log, by serial number, who initialised a fetch, whose callback ran, the result, and
the fetches from which a caller has returned. -/
structure FetchState (κ τ ρ : Type) where
  registry : FiniteMap (κ × τ) Nat
  heap : FiniteMap Nat (PendingFetch κ τ ρ)
  callers : FiniteMap Nat (Caller κ τ ρ)
  nextSerial : Nat
  initialisers : List (Nat × Nat)
  callbacks : List (Nat × Nat)
  completions : List (Nat × ρ)
  retired : List Nat

/-- What a poll of the shared future finds out. -/
inductive PollEvent (ρ : Type) where
  | pending
  /-- The lookup finds the object. -/
  | hit (result : ρ)
  /-- The lookup misses, and the callback is invoked. -/
  | miss
  /-- The callback, and the insertion of its result, have finished. -/
  | finished (result : ρ)
  deriving DecidableEq, Repr

/-- A step of a caller. -/
inductive CallerMove (ρ : Type) where
  | checkMemory (hit : Option ρ)
  /-- `PendingFetch::join`, with the address that an allocation would get. -/
  | join (fresh : Nat)
  | initialise
  | poll (event : PollEvent ρ)
  | removeFromRegistry
  | release
  | drop
  | report
  | cancel
  deriving DecidableEq, Repr

/-- A step of the system. -/
inductive FetchAction (κ τ ρ : Type) where
  | start (id : Nat) (key : κ × τ)
  | move (id : Nat) (move : CallerMove ρ)
  /-- The allocator takes the memory of a dropped fetch back. -/
  | free (address : Nat)
  deriving DecidableEq, Repr

namespace FetchState

variable {κ τ ρ : Type} [DecidableEq κ] [DecidableEq τ]

/-- No callers, no fetches. -/
def init : FetchState κ τ ρ where
  registry := ∅
  heap := ∅
  callers := ∅
  nextSerial := 0
  initialisers := []
  callbacks := []
  completions := []
  retired := []

/-- The fetch at an address. -/
def fetchAt (state : FetchState κ τ ρ) (address : Nat) :
    Except FetchPanic (PendingFetch κ τ ρ) :=
  match state.heap.lookup address with
  | some fetch => .ok fetch
  | none => .error .dangling

def setCaller (state : FetchState κ τ ρ) (id : Nat) (caller : Caller κ τ ρ) :
    FetchState κ τ ρ :=
  { state with callers := state.callers.insert id caller }

def setFetch (state : FetchState κ τ ρ) (address : Nat) (fetch : PendingFetch κ τ ρ) :
    FetchState κ τ ρ :=
  { state with heap := state.heap.insert address fetch }

/-- `entries.get(&key).and_then(Weak::upgrade)`: the registered fetch, if it still has an owner. -/
def upgrade (state : FetchState κ τ ρ) (key : κ × τ) :
    Except FetchPanic (Option (Nat × PendingFetch κ τ ρ)) :=
  match state.registry.lookup key with
  | none => .ok none
  | some address => do
      let fetch ← state.fetchAt address
      if fetch.strong = 0 then return none
      return some (address, fetch)

/-- The shared part of `join`: the caller becomes an owner of the fetch at an address. -/
def joinAt (state : FetchState κ τ ρ) (id : Nat) (caller : Caller κ τ ρ) (address : Nat)
    (fetch : PendingFetch κ τ ρ) : FetchState κ τ ρ :=
  (state.setFetch address fetch).setCaller id
    { caller with phase := .joined address, joined := some fetch.serial }

/-- `PendingFetch::join`. Nothing is allocated at an address that is in use. -/
def join (state : FetchState κ τ ρ) (id : Nat) (caller : Caller κ τ ρ) (fresh : Nat) :
    Except FetchPanic (FetchState κ τ ρ) := do
  match ← state.upgrade caller.key with
  | some (address, fetch) =>
      if fetch.errorType = caller.key.2 then
        return state.joinAt id caller address { fetch with strong := fetch.strong + 1 }
      else
        throw .downcast
  | none =>
      if (state.heap.lookup fresh).isSome then return state
      return { state.joinAt id caller fresh (.new caller.key state.nextSerial) with
        registry := state.registry.insert caller.key fresh
        nextSerial := state.nextSerial + 1 }

/-- `get_or_init(..).clone()`: the first caller to get here supplies the future. -/
def initialise (state : FetchState κ τ ρ) (id : Nat) (caller : Caller κ τ ρ) (address : Nat) :
    Except FetchPanic (FetchState κ τ ρ) := do
  let fetch ← state.fetchAt address
  let awaiting := state.setCaller id { caller with phase := .awaiting address }
  match fetch.result with
  | some _ => return awaiting
  | none =>
      let future := { initialiser := id, stage := .lookup }
      return { awaiting.setFetch address { fetch with result := some future } with
        initialisers := (fetch.serial, id) :: state.initialisers }

/-- The shared future has its result. -/
def finish (state : FetchState κ τ ρ) (address : Nat) (fetch : PendingFetch κ τ ρ)
    (future : SharedFuture ρ) (result : ρ) : FetchState κ τ ρ :=
  { state.setFetch address { fetch with result := some { future with stage := .done result } } with
    completions := (fetch.serial, result) :: state.completions }

/-- A poll of the shared future drives it, or takes its result. -/
def poll (state : FetchState κ τ ρ) (id : Nat) (caller : Caller κ τ ρ) (address : Nat)
    (event : PollEvent ρ) : Except FetchPanic (FetchState κ τ ρ) := do
  let fetch ← state.fetchAt address
  match fetch.result with
  | none => throw .uninitialised
  | some future =>
      match future.stage, event with
      | .done result, _ =>
          return state.setCaller id { caller with phase := .resolved address result }
      | .lookup, .hit result => return state.finish address fetch future result
      | .lookup, .miss =>
          return { state.setFetch address
              { fetch with result := some { future with stage := .callback } } with
            callbacks := (fetch.serial, future.initialiser) :: state.callbacks }
      | .callback, .finished result => return state.finish address fetch future result
      | _, _ => return state

/-- `PendingFetch::remove_from_registry`: the entry goes only if it refers to this address. -/
def removeFromRegistry (state : FetchState κ τ ρ) (address : Nat) :
    Except FetchPanic (FetchState κ τ ρ) := do
  let fetch ← state.fetchAt address
  if state.registry.lookup fetch.key = some address then
    return { state with registry := state.registry.erase fetch.key }
  return state

/-- The caller drops its reference; the last one runs `Drop` next. -/
def release (state : FetchState κ τ ρ) (id : Nat) (caller : Caller κ τ ρ) (address : Nat)
    (result : Option ρ) : Except FetchPanic (FetchState κ τ ρ) := do
  let fetch ← state.fetchAt address
  let released := state.setFetch address { fetch with strong := fetch.strong - 1 }
  let phase := if fetch.strong = 1 then .dropping address result else .afterRelease result
  return released.setCaller id { caller with phase := phase }

/-- `Drop for PendingFetch`. -/
def drop (state : FetchState κ τ ρ) (id : Nat) (caller : Caller κ τ ρ) (address : Nat)
    (result : Option ρ) : Except FetchPanic (FetchState κ τ ρ) := do
  let unregistered ← state.removeFromRegistry address
  let fetch ← unregistered.fetchAt address
  return (unregistered.setFetch address { fetch with dropped := true }).setCaller id
    { caller with phase := .afterRelease result }

/-- `get_or_fetch_by_hash` returns. -/
def report (state : FetchState κ τ ρ) (id : Nat) (caller : Caller κ τ ρ) (result : ρ) :
    FetchState κ τ ρ :=
  { state.setCaller id { caller with phase := .returned result } with
    retired := caller.joined.toList ++ state.retired }

/-- One step of a caller. A step that its phase does not allow changes nothing. Cancellation is
possible at the three awaits. -/
def advance (state : FetchState κ τ ρ) (id : Nat) (caller : Caller κ τ ρ) (move : CallerMove ρ) :
    Except FetchPanic (FetchState κ τ ρ) :=
  match move, caller.phase with
  | .checkMemory none, .started => .ok (state.setCaller id { caller with phase := .missed })
  | .checkMemory (some result), .started =>
      .ok (state.setCaller id { caller with phase := .reporting result })
  | .join fresh, .missed => state.join id caller fresh
  | .initialise, .joined address => state.initialise id caller address
  | .poll event, .awaiting address => state.poll id caller address event
  | .removeFromRegistry, .resolved address result => do
      let removed ← state.removeFromRegistry address
      return removed.setCaller id { caller with phase := .releasing address (some result) }
  | .release, .releasing address result => state.release id caller address result
  | .drop, .dropping address result => state.drop id caller address result
  | .report, .reporting result => .ok (state.report id caller result)
  | .cancel, .started => .ok (state.setCaller id { caller with phase := .cancelled })
  | .cancel, .awaiting address =>
      .ok (state.setCaller id { caller with phase := .releasing address none })
  | .cancel, .reporting _ => .ok (state.setCaller id { caller with phase := .cancelled })
  | _, _ => .ok state

/-- One step of the system. -/
def step (state : FetchState κ τ ρ) : FetchAction κ τ ρ → Except FetchPanic (FetchState κ τ ρ)
  | .start id key =>
      match state.callers.lookup id with
      | some _ => .ok state
      | none => .ok (state.setCaller id
          { key := key, phase := .started, joined := none, barred := state.retired })
  | .move id move =>
      match state.callers.lookup id with
      | some caller => state.advance id caller move
      | none => .ok state
  | .free address =>
      match state.heap.lookup address with
      | some fetch =>
          if fetch.dropped ∧ state.registry.lookup fetch.key ≠ some address then
            .ok { state with heap := state.heap.erase address }
          else .ok state
      | none => .ok state

/-- The serial number of the fetch that is registered for a key. -/
def current (state : FetchState κ τ ρ) (key : κ × τ) : Option Nat :=
  (state.registry.lookup key).bind fun address =>
    (state.heap.lookup address).map PendingFetch.serial

end FetchState

end Feuer.Fetch
