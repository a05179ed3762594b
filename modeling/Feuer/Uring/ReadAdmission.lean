import Feuer.Lib.FiniteMap
import Feuer.Lib.ListLemmas
import Feuer.Lib.Transition

/-!
# Admission of payload reads

`PayloadReadQueue`, after `uring/read_admission.rs`: a semaphore limits the payload reads in flight,
and reads that do not get a permit at once wait in a list. When enough reads wait, every one of them
is told to check whether it should fall through.

The future of `acquire_permit` is a sequence of atomic parts, and other threads may act between any
two of them. `enqueue` tells the waiting reads one by one while it holds the list's lock, but
polling a notification takes no lock. The semaphore and the notifications behave as their
documentation says: a released permit goes to the first acquisition in line, a dropped acquisition
gives its permit back, and a notification is kept until it is polled.
-/

namespace Feuer.Uring

open Lib

/-- `MAX_IN_FLIGHT_READS`. -/
def maxInFlightReads : Nat := 64

/-- A panic of the queue. -/
inductive AdmissionPanic where
  /-- The `unwrap` of a waiting read's position in the list. -/
  | notWaiting
  deriving DecidableEq, Repr

/-- Where the future of `acquire_permit` is. -/
inductive ReadPhase where
  /-- `try_acquire` failed. -/
  | arriving
  /-- In `enqueue`, with the lock. -/
  | enqueueing
  /-- At the start of a poll, or pending. -/
  | polling
  /-- Past the notification, before the acquisition is polled. -/
  | acquiring
  /-- The acquisition is ready, and the read still in the list. -/
  | admitted
  /-- Removed from the list; the result of `remove` is the flag. -/
  | deciding (fallthroughScheduled : Bool)
  /-- Dropping the future's locals: the acquisition is next. -/
  | leaving (cancelled : Bool)
  /-- Dropping the future's locals: the waiting read is next. -/
  | unlisting (cancelled : Bool)
  /-- Returned a permit. -/
  | holding
  /-- The caller dropped the permit. -/
  | released
  /-- Returned `None`. -/
  | fellThrough
  /-- The caller dropped the future. -/
  | cancelled
  deriving DecidableEq, Repr

/-- Whether the waiting read exists and is queued. -/
def ReadPhase.listed : ReadPhase → Bool
  | enqueueing | polling | acquiring | admitted | leaving _ | unlisting _ => true
  | _ => false

/-- Whether the acquisition exists and has not returned. -/
def ReadPhase.waits : ReadPhase → Bool
  | polling | acquiring | leaving _ => true
  | _ => false

/-- A call of `acquire_permit`. The last three fields are its history. -/
structure ReadCall where
  phase : ReadPhase
  /-- A permit is in hand or assigned to the acquisition. -/
  permit : Bool
  /-- The acquisition was polled. -/
  polled : Bool
  /-- The notification holds a permit. -/
  notified : Bool
  /-- `should_fall_through` has not been taken. -/
  unchecked : Bool
  scheduled : Bool
  immediate : Bool
  /-- What `should_fall_through` returned, call by call. -/
  answers : List Bool
  deriving DecidableEq, Repr

/-- Whether the read stands in line at the semaphore. -/
def ReadCall.inLine (read : ReadCall) : Bool := read.phase.waits && read.polled && !read.permit

/-- A call whose `try_acquire` returned this. -/
def ReadCall.new (admitted : Bool) : ReadCall where
  phase := if admitted then .holding else .arriving
  permit := admitted
  polled := false
  notified := false
  unchecked := true
  scheduled := false
  immediate := admitted
  answers := []

/-- The queue, its semaphore, and the calls of `acquire_permit`. -/
structure PayloadReadQueue where
  availablePermits : Nat
  /-- The acquisitions that wait for a permit, first in line first. -/
  acquisitions : List Nat
  /-- The waiting reads, each with whether its fallthrough check was scheduled. -/
  waitingReads : List (Nat × Bool)
  /-- The read that holds the lock in `enqueue`, and those that its loop has still to visit. -/
  lock : Option (Nat × List Nat)
  reads : FiniteMap Nat ReadCall

/-- An atomic part of a call. -/
inductive AdmissionAction where
  | start (id : Nat)
  | enqueue (id : Nat)
  | scheduleNext
  | unlock
  /-- Polls the notification; the callback would return `answer`. -/
  | pollNotified (id : Nat) (answer : Bool)
  | pollAcquire (id : Nat)
  | remove (id : Nat)
  | finish (id : Nat) (answer : Bool)
  | dropAcquire (id : Nat)
  | dropWaitingRead (id : Nat)
  | cancel (id : Nat)
  | release (id : Nat)
  deriving DecidableEq, Repr

namespace PayloadReadQueue

def new : PayloadReadQueue := ⟨maxInFlightReads, [], [], none, ∅⟩

def setRead (q : PayloadReadQueue) (id : Nat) (read : ReadCall) : PayloadReadQueue :=
  { q with reads := q.reads.insert id read }

/-! ## The semaphore -/

/-- A dropped permit goes to the first acquisition in line. -/
def releasePermit (q : PayloadReadQueue) : PayloadReadQueue :=
  match q.acquisitions with
  | [] => { q with availablePermits := q.availablePermits + 1 }
  | next :: rest =>
      match q.reads.lookup next with
      | none => { q with acquisitions := rest }
      | some read => setRead { q with acquisitions := rest } next { read with permit := true }

/-! ## The list of waiting reads -/

/-- `enqueue` with its lock just taken. The loop visits all waiting reads once there are enough. -/
def enqueue (q : PayloadReadQueue) (id : Nat) (read : ReadCall) : PayloadReadQueue :=
  let waitingReads := q.waitingReads ++ [(id, false)]
  let toVisit :=
    if maxInFlightReads ≤ waitingReads.length then waitingReads.map Prod.fst else []
  setRead { q with waitingReads, lock := some (id, toVisit) } id { read with phase := .enqueueing }

/-- One turn of the loop of `enqueue`. -/
def visit (q : PayloadReadQueue) (id : Nat) : PayloadReadQueue :=
  if (id, false) ∈ q.waitingReads then
    let waitingReads := q.waitingReads.map fun entry => if entry.1 = id then (id, true) else entry
    match q.reads.lookup id with
    | none => { q with waitingReads }
    | some read =>
        setRead { q with waitingReads } id { read with notified := true, scheduled := true }
  else q

/-- Removes a read from the list and returns whether its fallthrough check was scheduled. -/
def removeWaiting (waitingReads : List (Nat × Bool)) (id : Nat) :
    Except AdmissionPanic (Bool × List (Nat × Bool)) :=
  match waitingReads.findIdx? (fun entry => entry.1 = id) with
  | none => .error .notWaiting
  | some index =>
      let fallthroughScheduled := (waitingReads[index]?.map Prod.snd).getD false
      .ok (fallthroughScheduled, swapRemove waitingReads index)

/-! ## The future -/

/-- Runs the callback. -/
def check (read : ReadCall) (answer : Bool) : ReadCall :=
  { read with unchecked := false, answers := read.answers ++ [answer] }

def pollNotified (q : PayloadReadQueue) (id : Nat) (read : ReadCall) (answer : Bool) :
    PayloadReadQueue :=
  if read.unchecked ∧ read.notified then
    let phase := if answer then .leaving false else .acquiring
    q.setRead id { check read answer with phase, notified := false }
  else q.setRead id { read with phase := .acquiring }

def pollAcquire (q : PayloadReadQueue) (id : Nat) (read : ReadCall) : PayloadReadQueue :=
  if read.permit then q.setRead id { read with phase := .admitted }
  else if read.polled then q.setRead id { read with phase := .polling }
  else if 0 < q.availablePermits then
    setRead { q with availablePermits := q.availablePermits - 1 } id
      { read with phase := .admitted, polled := true, permit := true }
  else
    setRead { q with acquisitions := q.acquisitions ++ [id] } id
      { read with phase := .polling, polled := true }

/-- The end of the poll of an admitted read. -/
def finish (q : PayloadReadQueue) (id : Nat) (read : ReadCall)
    (fallthroughScheduled answer : Bool) :
    PayloadReadQueue :=
  if fallthroughScheduled ∧ read.unchecked then
    if answer then
      (q.setRead id { check read answer with phase := .fellThrough, permit := false }).releasePermit
    else q.setRead id { check read answer with phase := .holding }
  else q.setRead id { read with phase := .holding }

/-- The acquisition leaves the line, or gives back a permit that was assigned to it. -/
def dropAcquire (q : PayloadReadQueue) (id : Nat) (read : ReadCall) (cancelled : Bool) :
    PayloadReadQueue :=
  if read.permit then
    (q.setRead id { read with phase := .unlisting cancelled, permit := false }).releasePermit
  else
    setRead { q with acquisitions := q.acquisitions.erase id } id
      { read with phase := .unlisting cancelled }

/-- Performs one part of a call; a part that is not the next one of its call, or waits for the lock,
changes nothing. -/
def step (q : PayloadReadQueue) : AdmissionAction → Except AdmissionPanic PayloadReadQueue
  | .start id =>
      match q.reads.lookup id with
      | some _ => pure q
      | none =>
          if 0 < q.availablePermits then
            pure (setRead { q with availablePermits := q.availablePermits - 1 } id (.new true))
          else pure (q.setRead id (.new false))
  | .enqueue id =>
      match q.reads.lookup id, q.lock with
      | some read, none => pure (if read.phase = .arriving then q.enqueue id read else q)
      | _, _ => pure q
  | .scheduleNext =>
      match q.lock with
      | some (id, next :: rest) => pure (visit { q with lock := some (id, rest) } next)
      | _ => pure q
  | .unlock =>
      match q.lock with
      | some (id, []) =>
          match q.reads.lookup id with
          | some read => pure (setRead { q with lock := none } id { read with phase := .polling })
          | none => pure { q with lock := none }
      | _ => pure q
  | .pollNotified id answer =>
      match q.reads.lookup id with
      | some read => pure (if read.phase = .polling then q.pollNotified id read answer else q)
      | none => pure q
  | .pollAcquire id =>
      match q.reads.lookup id with
      | some read => pure (if read.phase = .acquiring then q.pollAcquire id read else q)
      | none => pure q
  | .remove id =>
      match q.reads.lookup id, q.lock with
      | some read, none =>
          if read.phase = .admitted then do
            let (fallthroughScheduled, waitingReads) ← removeWaiting q.waitingReads id
            pure (setRead { q with waitingReads } id
              { read with phase := .deciding fallthroughScheduled })
          else pure q
      | _, _ => pure q
  | .finish id answer =>
      match q.reads.lookup id with
      | some read =>
          match read.phase with
          | .deciding fallthroughScheduled => pure (q.finish id read fallthroughScheduled answer)
          | _ => pure q
      | none => pure q
  | .dropAcquire id =>
      match q.reads.lookup id with
      | some read =>
          match read.phase with
          | .leaving cancelled => pure (q.dropAcquire id read cancelled)
          | _ => pure q
      | none => pure q
  | .dropWaitingRead id =>
      match q.reads.lookup id, q.lock with
      | some read, none =>
          match read.phase with
          | .unlisting cancelled => do
              let (_, waitingReads) ← removeWaiting q.waitingReads id
              pure (setRead { q with waitingReads } id
                { read with phase := if cancelled then .cancelled else .fellThrough })
          | _ => pure q
      | _, _ => pure q
  | .cancel id =>
      match q.reads.lookup id with
      | some read =>
          pure (if read.phase = .polling then q.setRead id { read with phase := .leaving true }
            else q)
      | none => pure q
  | .release id =>
      match q.reads.lookup id with
      | some read =>
          pure (if read.phase = .holding then
            (q.setRead id { read with phase := .released, permit := false }).releasePermit
          else q)
      | none => pure q

end PayloadReadQueue

end Feuer.Uring
