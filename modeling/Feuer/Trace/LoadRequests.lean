import Feuer.Lib.MachineWord
import Feuer.Trace.Replay

/-!
# Loading the requests of a trace

`load_requests` of `feuer-replay` reads a trace twice. The first pass selects the request starts of
a prefix of the trace while the earliest start is still being searched for. The second pass joins
outcomes to the selected starts by request ID and collects the length of every selected object.
`visit_events` feeds both passes from a single package, or from the packages of an archive in the
order in which the archive has them. Failures of the file system and of the decompression are left
out: the bytes of the input are those that the packages are read from.
-/

namespace Feuer.Trace

open Lib Storage

/-- The errors that `load_requests` returns. -/
inductive LoadError where
  | seconds
  | inputName
  | irregularMember
  | multipleSessions
  | noPackages
  | decode (error : DecodeError)
  | noStarts
  | duplicateStart
  | inconsistentLengths
  | duplicateOutcome
  | disagreement
  | unknownLength
  deriving DecidableEq, Repr

/-- The text of an error. -/
def LoadError.message : LoadError → String
  | .seconds => "trace seconds must be positive and fit in nanoseconds"
  | .inputName => "input must be a .feuer package or a single-session .tar.zst archive"
  | .irregularMember => "trace package must be a regular archive member"
  | .multipleSessions =>
      "archive contains multiple trace sessions with independent request IDs"
  | .noPackages => "archive contains no .feuer packages"
  | .decode error => error.message
  | .noStarts => "selected trace has no request starts"
  | .duplicateStart => "duplicate request start ID"
  | .inconsistentLengths => "immutable object has inconsistent payload lengths"
  | .duplicateOutcome => "duplicate request outcome ID"
  | .disagreement => "request outcome disagrees with its start"
  | .unknownLength => "object replay requires a successful outcome with its payload length"

/-- The operations of `load_requests` that would panic. -/
inductive LoadPanic where
  | subtraction
  | outcomeIndex
  | missingKey
  deriving DecidableEq, Repr

/-- What `load_requests` ends with if it does not succeed. -/
inductive LoadFailure where
  | error (error : LoadError)
  | panic (panic : LoadPanic)
  deriving DecidableEq, Repr

/-! ## Visiting the events -/

/-- A member of an archive. -/
structure ArchiveMember where
  /-- Whether the extension of its name is `feuer`. -/
  isPackage : Bool
  isFile : Bool
  parent : String
  contents : List UInt8

/-- What the path given to `load_requests` names. -/
inductive TraceInput where
  | package (contents : List UInt8)
  | archive (members : List ArchiveMember)
  | other

section Visit

variable {σ : Type} (visit : σ → Event → Except LoadFailure σ)

/-- Visits one item of the iterator over a package. -/
def visitItem (state : σ) : Except DecodeError Event → Except LoadFailure σ
  | .ok event => visit state event
  | .error error => .error (.error (.decode error))

/-- The closure `read_package` of `visit_events`. -/
def readPackage (state : σ) (package : List UInt8) : Except LoadFailure σ :=
  match decodePackage package with
  | .ok items => run (visitItem visit) state items
  | .error error => .error (.error (.decode error))

/-- One round of the loop over an archive's members, with the session directory so far. -/
def visitMember (state : σ × Option String) (member : ArchiveMember) :
    Except LoadFailure (σ × Option String) :=
  if member.isPackage then
    if member.isFile then
      if state.2.any (· ≠ member.parent) then .error (.error .multipleSessions)
      else do
        let next ← readPackage visit state.1 member.contents
        .ok (next, some member.parent)
    else .error (.error .irregularMember)
  else .ok state

/-- `visit_events`. -/
def visitEvents (state : σ) : TraceInput → Except LoadFailure σ
  | .package contents => readPackage visit state contents
  | .archive members => do
      let (next, sessionDirectory) ← run (visitMember visit) (state, none) members
      if sessionDirectory.isNone then .error (.error .noPackages) else .ok next
  | .other => .error (.error .inputName)

end Visit

/-! ## The first pass -/

/-- The nanoseconds of a number of seconds. -/
def nanoseconds (seconds : UInt64) : Nat := seconds.toNat * 1000000000

/-- The length of the selected prefix in nanoseconds, if `seconds` limits it. -/
def prefixNs : Option UInt64 → Except LoadFailure (Option Nat)
  | none => .ok none
  | some seconds =>
      if nanoseconds seconds < wordSize ∧ 0 < nanoseconds seconds then
        .ok (some (nanoseconds seconds))
      else .error (.error .seconds)

/-- Whether an event lies in the prefix that begins at `firstStartNs`. The subtraction is only
made if there is a prefix. -/
def inPrefix (limit : Option Nat) (firstStartNs : Nat) (event : Event) :
    Except LoadFailure Bool :=
  match limit with
  | none => .ok true
  | some limit => do
      let elapsed ← checkedSub (.panic .subtraction) event.timeNs.toNat firstStartNs
      .ok (decide (elapsed < limit))

/-- The variables that the first pass changes. -/
structure StartPass where
  firstStartNs : Nat
  requests : List Event

/-- The visit of the first pass. -/
def visitStart (limit : Option Nat) (pass : StartPass) (event : Event) :
    Except LoadFailure StartPass :=
  if event.kind = 0 then do
    let firstStartNs := min pass.firstStartNs event.timeNs.toNat
    let selected ← inPrefix limit firstStartNs event
    .ok { firstStartNs, requests := if selected then pass.requests ++ [event] else pass.requests }
  else .ok pass

/-- `Vec::retain` with a fallible condition. -/
def retain (keep : Event → Except LoadFailure Bool) :
    List Event → Except LoadFailure (List Event)
  | [] => .ok []
  | event :: rest => do
      let kept ← keep event
      let others ← retain keep rest
      .ok (if kept then event :: others else others)

/-! ## The second pass -/

/-- The variables that the second pass changes. `starts` lists the values of `starts_by_id` in the
order of their insertion; `lengths` is `object_lengths`. -/
structure OutcomePass where
  starts : List (Event × Bool)
  lengths : ObjectKeyHash → Option (Option UInt64)
  outcomes : List Nat

/-- One round of the loop that enters the selected starts into the maps. -/
def insertStart (pass : OutcomePass) (request : Event) : Except LoadFailure OutcomePass :=
  if pass.starts.any (·.1.requestId = request.requestId) then .error (.error .duplicateStart)
  else .ok
    { pass with
      starts := pass.starts ++ [(request, false)]
      lengths := Function.update pass.lengths request.objectKey (some none) }

/-- Records the length that an outcome observed for a selected object. -/
def observeLength (lengths : ObjectKeyHash → Option (Option UInt64)) (event : Event) :
    Except LoadFailure (ObjectKeyHash → Option (Option UInt64)) :=
  match lengths event.objectKey, event.payloadLen with
  | some length, some observed =>
      if length.any (· ≠ observed) then .error (.error .inconsistentLengths)
      else .ok (Function.update lengths event.objectKey (some (some observed)))
  | _, _ => .ok lengths

/-- Marks the start with this request ID as having an outcome. -/
def markOutcome (requestId : UInt64) (start : Event × Bool) : Event × Bool :=
  if start.1.requestId = requestId then (start.1, true) else start

/-- Joins an outcome to the selected start with its request ID. -/
def joinOutcome (pass : OutcomePass) (event : Event) : Except LoadFailure OutcomePass :=
  match pass.starts.find? (·.1.requestId = event.requestId) with
  | none => .ok pass
  | some (request, hasOutcome) =>
      if hasOutcome then .error (.error .duplicateOutcome)
      else if event.objectKey ≠ request.objectKey ∨ event.timeNs < request.timeNs then
        .error (.error .disagreement)
      else if event.kind.toNat < pass.outcomes.length then .ok
        { pass with
          starts := pass.starts.map (markOutcome event.requestId)
          outcomes := pass.outcomes.modify event.kind.toNat (· + 1) }
      else .error (.panic .outcomeIndex)

/-- The visit of the second pass. -/
def visitOutcome (pass : OutcomePass) (event : Event) : Except LoadFailure OutcomePass :=
  if event.kind = 0 then .ok pass
  else do
    let lengths ← observeLength pass.lengths event
    joinOutcome { pass with lengths } event

/-! ## The result -/

/-- An object request to replay. -/
structure Request where
  requestId : UInt64
  /-- Nanoseconds relative to the earliest recorded request start. -/
  timeNs : Nat
  objectKey : String
  payloadLen : UInt64
  deriving DecidableEq, Repr

/-- Selected request starts with the outcomes recorded for them. -/
structure TraceRequests where
  requests : List Request
  /-- Counts of recorded outcomes for selected starts, indexed by kind. -/
  outcomes : List Nat
  unmatchedStarts : Nat
  deriving DecidableEq, Repr

/-- The order in which a hash map yields its values: any order of what was inserted. -/
structure MapOrder (α : Type) where
  values : List α → List α
  perm : ∀ inserted, (values inserted).Perm inserted

/-- The request for a selected start. -/
def requestOf (firstStartNs : Nat) (lengths : ObjectKeyHash → Option (Option UInt64))
    (start : Event × Bool) : Except LoadFailure Request := do
  let timeNs ← checkedSub (.panic .subtraction) start.1.timeNs.toNat firstStartNs
  match lengths start.1.objectKey with
  | none => .error (.panic .missingKey)
  | some none => .error (.error .unknownLength)
  | some (some payloadLen) =>
      .ok ⟨start.1.requestId, timeNs, toString start.1.objectKey.val, payloadLen⟩

/-- Whether a request sorts no later than another by time and request ID. -/
def Request.notAfter (first second : Request) : Bool :=
  decide (first.timeNs < second.timeNs ∨
    first.timeNs = second.timeNs ∧ first.requestId ≤ second.requestId)

/-- What `load_requests` does after both passes. -/
def finishRequests (order : MapOrder (Event × Bool)) (firstStartNs : Nat) (pass : OutcomePass) :
    Except LoadFailure TraceRequests := do
  let unmatchedStarts ← checkedSub (.panic .subtraction) pass.starts.length pass.outcomes.sum
  let requests ← (order.values pass.starts).mapM (requestOf firstStartNs pass.lengths)
  .ok ⟨requests.mergeSort Request.notAfter, pass.outcomes, unmatchedStarts⟩

/-- `load_requests`. -/
def loadRequests (order : MapOrder (Event × Bool)) (input : TraceInput)
    (seconds : Option UInt64) : Except LoadFailure TraceRequests := do
  let limit ← prefixNs seconds
  let first ← visitEvents (visitStart limit) ⟨wordSize - 1, []⟩ input
  let requests ← retain (inPrefix limit first.firstStartNs) first.requests
  if requests.isEmpty then .error (.error .noStarts)
  else do
    let selected ← run insertStart ⟨[], fun _ => none, List.replicate 6 0⟩ requests
    let joined ← visitEvents visitOutcome selected input
    finishRequests order first.firstStartNs joined

end Feuer.Trace
