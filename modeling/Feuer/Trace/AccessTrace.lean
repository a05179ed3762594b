import Feuer.Lib.LittleEndian
import Feuer.Lib.ListLemmas
import Feuer.Storage.Layout

/-!
# The access-trace writer

Each cache lookup sends a start and an outcome to the trace queue, as an event of 41 bytes, after
`access_trace.rs`. A task appends the received events to a package, and hands the package to the
application's callback once it has reached its target size.
-/

namespace Feuer.Trace

open Lib Storage

/-- `PACKAGE_HEADER`: `FETR`, the version, and padding. -/
def packageHeader : List UInt8 := [0x46, 0x45, 0x54, 0x52, 1, 0, 0, 0]

/-- `EVENT_BYTES`. -/
def eventSize : Nat := 41

/-- `PACKAGE_TARGET_BYTES`. -/
def packageTargetBytes : Nat := 8 * 1024 * 1024

/-- `LookupOutcome`. The disk hit exists in builds with a disk tier only; the discriminants of the
others do not depend on it. -/
inductive LookupOutcome where
  | memoryHit
  | diskHit
  | callback
  | callbackError
  | miss
  deriving DecidableEq, Repr

/-- The discriminant, as `outcome as u8`. -/
def LookupOutcome.discriminant : LookupOutcome → UInt8
  | .memoryHit => 0
  | .diskHit => 1
  | .callback => 2
  | .callbackError => 3
  | .miss => 4

/-- Whether a lookup with this outcome returned an object. -/
def LookupOutcome.succeeded : LookupOutcome → Bool
  | .memoryHit | .diskHit | .callback => true
  | .callbackError | .miss => false

/-- A call of `send_request_start` or `send_outcome`, with the elapsed time that it reads. -/
inductive TraceCall where
  | sendRequestStart (requestId elapsedNs : UInt64) (objectKeyHash : ObjectKeyHash)
  | sendOutcome (requestId elapsedNs : UInt64) (objectKeyHash : ObjectKeyHash)
      (outcome : LookupOutcome) (payloadLength : UInt64)
  deriving DecidableEq, Repr

/-- The event bytes that a call sends to the trace queue. -/
def TraceCall.eventBytes : TraceCall → List UInt8
  | .sendRequestStart requestId elapsedNs objectKeyHash =>
      let eventBytes := List.replicate eventSize 0
      let eventBytes := splice eventBytes 1 (toLeBytes 8 requestId.toNat)
      let eventBytes := splice eventBytes 9 (toLeBytes 8 elapsedNs.toNat)
      splice eventBytes 17 (toLeBytes 16 objectKeyHash.val)
  | .sendOutcome requestId elapsedNs objectKeyHash outcome payloadLength =>
      let eventBytes := (List.replicate eventSize 0).set 0 (outcome.discriminant + 1)
      let eventBytes := splice eventBytes 1 (toLeBytes 8 requestId.toNat)
      let eventBytes := splice eventBytes 9 (toLeBytes 8 elapsedNs.toNat)
      let eventBytes := splice eventBytes 17 (toLeBytes 16 objectKeyHash.val)
      splice eventBytes 33 (toLeBytes 8 payloadLength.toNat)

/-- The calls that `get` and `get_or_fetch` make: a lookup that returned no object has no payload
length. -/
def TraceCall.Sent : TraceCall → Prop
  | .sendRequestStart _ _ _ => True
  | .sendOutcome _ _ _ outcome payloadLength => outcome.succeeded = false → payloadLength = 0

/-- `new_package`. -/
def newPackage : List UInt8 := packageHeader

/-- The delivery task: the packages that it hands to the callback while it receives these events.
`succeeds` says which calls of the callback return `Ok`; after an error the task ends. -/
def deliverPackages (succeeds : Nat → Bool) :
    Nat → List UInt8 → List (List UInt8) → List (List UInt8)
  | _, package, [] => if packageHeader.length < package.length then [package] else []
  | calls, package, eventBytes :: rest =>
      let package := package ++ eventBytes
      if packageTargetBytes ≤ package.length then
        package ::
          (if succeeds calls then deliverPackages succeeds (calls + 1) newPackage rest else [])
      else deliverPackages succeeds calls package rest

/-- The packages of a trace that received these calls before its queue was closed. -/
def AccessTrace.packages (succeeds : Nat → Bool) (calls : List TraceCall) : List (List UInt8) :=
  deliverPackages succeeds 0 newPackage (calls.map TraceCall.eventBytes)

/-! ## The layout of an event -/

/-- An event by its fields: kind, request, time, key, and payload length. -/
def eventOf (kind : UInt8) (requestId timeNs : UInt64) (objectKey : ObjectKeyHash)
    (payloadLength : UInt64) : List UInt8 :=
  kind :: (toLeBytes 8 requestId.toNat ++ (toLeBytes 8 timeNs.toNat ++
    (toLeBytes 16 objectKey.val ++ toLeBytes 8 payloadLength.toNat)))

/-- The bytes of a start: kind 0 and no length. -/
theorem event_bytes_start (requestId elapsedNs : UInt64) (objectKeyHash : ObjectKeyHash) :
    (TraceCall.sendRequestStart requestId elapsedNs objectKeyHash).eventBytes =
      eventOf 0 requestId elapsedNs objectKeyHash 0 := rfl

/-- The bytes of an outcome: kinds from 1 on. -/
theorem event_bytes_outcome (requestId elapsedNs : UInt64) (objectKeyHash : ObjectKeyHash)
    (outcome : LookupOutcome) (payloadLength : UInt64) :
    (TraceCall.sendOutcome requestId elapsedNs objectKeyHash outcome payloadLength).eventBytes =
      eventOf (outcome.discriminant + 1) requestId elapsedNs objectKeyHash payloadLength := rfl

/-- The fields fill an event. -/
@[simp] theorem length_event_of (kind : UInt8) (requestId timeNs : UInt64)
    (objectKey : ObjectKeyHash) (payloadLength : UInt64) :
    (eventOf kind requestId timeNs objectKey payloadLength).length = eventSize := by
  simp [eventOf, eventSize]

/-- Every event has the same size. -/
theorem length_event_bytes (call : TraceCall) : call.eventBytes.length = eventSize := by
  cases call with
  | sendRequestStart => rw [event_bytes_start, length_event_of]
  | sendOutcome => rw [event_bytes_outcome, length_event_of]

/-! ## The packages -/

/-- Whatever the size at which they are cut, the packages hold the received events in order, and
each holds at least one. -/
theorem deliver_packages_groups {succeeds : Nat → Bool} (hsucceeds : ∀ call, succeeds call = true)
    (calls : Nat) (pending events : List (List UInt8))
    (hpending : ∀ event ∈ pending, event.length = eventSize)
    (hevents : ∀ event ∈ events, event.length = eventSize) :
    ∃ groups : List (List (List UInt8)),
      deliverPackages succeeds calls (packageHeader ++ pending.flatten) events =
        groups.map (fun group => packageHeader ++ group.flatten) ∧
      groups.flatten = pending ++ events ∧ ∀ group ∈ groups, group ≠ [] := by
  induction events generalizing calls pending with
  | nil =>
      cases pending with
      | nil => exact ⟨[], by simp [deliverPackages], rfl, by simp⟩
      | cons first later =>
          refine ⟨[first :: later], ?_, by simp, by simp⟩
          have hfirst := hpending first List.mem_cons_self
          rw [deliverPackages, if_pos]
          · rfl
          · rw [List.length_append, List.flatten_cons, List.length_append, hfirst]
            simp only [eventSize]
            omega
  | cons event rest ih =>
      have hevent := hevents event List.mem_cons_self
      have hrest : ∀ later ∈ rest, later.length = eventSize :=
        fun later hlater => hevents later (List.mem_cons_of_mem _ hlater)
      have hextended : packageHeader ++ pending.flatten ++ event =
          packageHeader ++ (pending ++ [event]).flatten := by simp
      rw [deliverPackages]
      simp only [hsucceeds, if_true, hextended]
      split
      · obtain ⟨groups, hgroups, hflatten, hnonempty⟩ := ih (calls + 1) [] (by simp) hrest
        refine ⟨(pending ++ [event]) :: groups, ?_, ?_, ?_⟩
        · rw [List.map_cons, ← hgroups]
          simp [newPackage]
        · rw [List.flatten_cons, hflatten]
          simp
        · intro group hgroup
          rcases List.mem_cons.mp hgroup with rfl | hlater
          · simp
          · exact hnonempty group hlater
      · obtain ⟨groups, hgroups, hflatten, hnonempty⟩ := ih calls (pending ++ [event]) (by
          intro earlier hearlier
          rcases List.mem_append.mp hearlier with hold | hnew
          · exact hpending earlier hold
          · rw [List.mem_singleton.mp hnew, hevent]) hrest
        exact ⟨groups, hgroups, by rw [hflatten]; simp, hnonempty⟩

end Feuer.Trace
