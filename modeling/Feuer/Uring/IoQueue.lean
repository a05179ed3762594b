import Feuer.Lib.Transition
import Mathlib.Data.List.Basic

/-!
# The I/O queue

`IoQueue`, after `uring.rs`: a thread that moves requests from a channel into a fixed array, submits
them through a ring, and answers their callers when the kernel completes them. The kernel holds
pointers into a request's buffers from its acceptance to its completion, so the array must keep the
request for that time.

The loop of the thread is a machine with one phase for each of its control points. Callers and the
kernel act between any two of its steps: requests arrive and are cancelled, the last sender
disconnects, the kernel accepts a part of the submissions and completes accepted ones in any order.
The fields at the end of `IoQueue` are history.
-/

namespace Feuer.Uring

open Lib

/-- `DIRECT_IO_ALIGNMENT_BYTES`. -/
def directIoAlignmentBytes : Nat := 4096

/-- `EINTR`. -/
def interruptedCode : Nat := 4

/-- A panic of the queue's thread. -/
inductive QueuePanic where
  /-- `"completion for an empty request-array position"`, or the `unwrap` of one. -/
  | emptyPosition
  /-- `"ring sized for the request array"`. -/
  | ringFull
  /-- The `unwrap` of a reply that was taken. -/
  | replyTaken
  /-- Indexing the request array past its end. -/
  | indexOutOfBounds
  deriving DecidableEq, Repr

/-- An error that a caller is told. -/
inductive IoError where
  /-- A failed read, by its code. -/
  | read (code : Nat)
  /-- `WriteRequestError`: the code, the file offset and the length. -/
  | write (code offset length : Nat)
  /-- `"incomplete aligned direct I/O request"`. -/
  | incomplete (isRead : Bool)
  deriving DecidableEq, Repr

/-- What a caller is told. -/
inductive IoAnswer where
  | done
  | failed (error : IoError)
  /-- `"io_uring queue stopped"`. -/
  | stopped
  deriving DecidableEq, Repr

/-! ## Requests -/

/-- An I/O request. Its identity stands for its buffers and its file. -/
structure IoRequest where
  id : Nat
  isRead : Bool
  /-- Exclusive file offset at the request's end, unchanged by short completions. -/
  fileEndOffset : Nat
  /-- Remaining byte range within the buffers. -/
  rangeStart : Nat
  rangeEnd : Nat
  /-- The caller's result channel has not been taken. -/
  reply : Bool
  deriving DecidableEq, Repr

/-- A submission queue entry: it points into the buffers of the request `owner`. -/
structure SubmissionEntry where
  owner : Nat
  offset : Nat
  rangeStart : Nat
  rangeEnd : Nat
  userData : Nat
  deriving DecidableEq, Repr

namespace IoRequest

def remaining (request : IoRequest) : Nat := request.rangeEnd - request.rangeStart

def submissionEntry (request : IoRequest) (requestIndex : Nat) : SubmissionEntry where
  owner := request.id
  offset := request.fileEndOffset - request.remaining
  rangeStart := request.rangeStart
  rangeEnd := request.rangeEnd
  userData := requestIndex

/-- Advances the remaining buffer range after a kernel completion. EINTR leaves it unchanged. -/
def applyCompletionResult (request : IoRequest) (result : Int) : Except IoError IoRequest :=
  if result = -(interruptedCode : Int) then .ok request
  else if result < 0 then
    if request.isRead then .error (.read result.natAbs)
    else .error (.write result.natAbs (request.fileEndOffset - request.remaining) request.remaining)
  else if result = 0 ∨ result.natAbs % directIoAlignmentBytes ≠ 0 then
    .error (.incomplete request.isRead)
  else .ok { request with rangeStart := request.rangeStart + result.natAbs }

end IoRequest

/-! ## The queue -/

/-- Where the loop is. -/
inductive LoopPhase where
  /-- Handling completions. -/
  | draining
  /-- In `queue_requests_for_submission`, at this position. -/
  | queueing (requestIndex : Nat)
  /-- Receiving a request for this empty position. -/
  | receiving (requestIndex : Nat)
  /-- Before the test for the end. -/
  | checking
  | submitting
  /-- In `wait_for_completion_or_wakeup`. -/
  | waiting
  /-- The loop returned an error; the queue is not dropped yet. -/
  | failing
  /-- The loop returned `Ok`. -/
  | returned
  /-- Dropped after an error; the request array is leaked. -/
  | stopped
  deriving DecidableEq, Repr

structure IoQueue where
  phase : LoopPhase
  requestsAwaitingCompletion : List (Option IoRequest)
  /-- Whether new writes are paced. -/
  writeRateLimited : Bool
  /-- Entries that the kernel has not accepted, in order. -/
  submissionQueue : List SubmissionEntry
  /-- Entries that the kernel accepted and has not completed. -/
  outstanding : List SubmissionEntry
  /-- Completed entries with their results. -/
  completionQueue : List (SubmissionEntry × Int)
  /-- The waiting requests of the channel. -/
  receiver : List IoRequest
  /-- No sender is left. -/
  closed : Bool
  /-- The requests whose callers are gone. -/
  cancelled : List Nat
  /-- The requests sent to the channel. -/
  arrived : List Nat
  /-- The requests received from the channel. -/
  taken : List Nat
  /-- The requests whose callers cancelled while they were in the channel. -/
  withdrawn : List Nat
  /-- The requests placed in the request array. -/
  placed : List Nat
  /-- The requests of which the kernel accepted an entry, by the time of the first one. -/
  submitted : List Nat
  answers : List (Nat × IoAnswer)

/-- The result of the submission function. -/
inductive SubmitOutcome where
  | ok
  | interrupted
  | wouldBlock
  | failed
  deriving DecidableEq, Repr

/-- What is not up to the queue in a step of its loop. -/
structure LoopChoice where
  /-- `must_wait` of the write rate limit. -/
  mustWait : Bool
  /-- The number of entries that the kernel accepts. -/
  accepted : Nat
  outcome : SubmitOutcome
  /-- `poll` fails. -/
  pollFails : Bool
  deriving DecidableEq, Repr

inductive QueueAction where
  | arrive (request : IoRequest)
  | cancel (id : Nat)
  | disconnect
  /-- The kernel completes an accepted entry. -/
  | complete (entry : SubmissionEntry) (result : Int)
  /-- The thread of the queue takes its next step. -/
  | advance (choice : LoopChoice)
  deriving DecidableEq, Repr

namespace IoQueue

/-- A queue for at most `maxInFlight` requests awaiting completion. -/
def new (maxInFlight : Nat) (writeRateLimited : Bool) : IoQueue where
  phase := .draining
  requestsAwaitingCompletion := List.replicate maxInFlight none
  writeRateLimited
  submissionQueue := []
  outstanding := []
  completionQueue := []
  receiver := []
  closed := false
  cancelled := []
  arrived := []
  taken := []
  withdrawn := []
  placed := []
  submitted := []
  answers := []

/-- Adds the request's remaining I/O to the submission queue. The ring has as many entries as the
request array has positions. -/
def queueRequestForSubmission (q : IoQueue) (requestIndex : Nat) : Except QueuePanic IoQueue :=
  match q.requestsAwaitingCompletion[requestIndex]? with
  | none => .error .indexOutOfBounds
  | some none => .error .emptyPosition
  | some (some request) =>
      if q.submissionQueue.length < q.requestsAwaitingCompletion.length then
        .ok { q with
          submissionQueue := q.submissionQueue ++ [request.submissionEntry requestIndex] }
      else .error .ringFull

/-- Takes the request out of its position and tells its caller. -/
def sendResult (q : IoQueue) (requestIndex : Nat) (request : IoRequest) (answer : IoAnswer) :
    Except QueuePanic IoQueue :=
  if request.reply then
    .ok { q with
      requestsAwaitingCompletion := q.requestsAwaitingCompletion.set requestIndex none
      answers := q.answers ++ [(request.id, answer)] }
  else .error .replyTaken

/-- Handles an I/O completion by advancing the request, queuing its remaining I/O, or returning its
result. -/
def handleIoCompletion (q : IoQueue) (userData : Nat) (result : Int) : Except QueuePanic IoQueue :=
  match q.requestsAwaitingCompletion[userData]? with
  | none => .error .indexOutOfBounds
  | some none => .error .emptyPosition
  | some (some request) =>
      match request.applyCompletionResult result with
      | .error error => q.sendResult userData request (.failed error)
      | .ok request =>
          if request.remaining = 0 then q.sendResult userData request .done
          else if request.reply then
            if request.id ∈ q.cancelled then q.sendResult userData request .done
            else
              queueRequestForSubmission
                { q with
                  requestsAwaitingCompletion :=
                    q.requestsAwaitingCompletion.set userData (some request) } userData
          else .error .replyTaken

/-- Places a received request in an empty position. -/
def placeRequest (q : IoQueue) (requestIndex : Nat) (request : IoRequest) :
    Except QueuePanic IoQueue :=
  queueRequestForSubmission
    { q with
      requestsAwaitingCompletion := q.requestsAwaitingCompletion.set requestIndex (some request)
      placed := q.placed ++ [request.id] } requestIndex

/-- The kernel accepts the first entries of the submission queue. -/
def accept (q : IoQueue) (count : Nat) : IoQueue :=
  let accepted := q.submissionQueue.take count
  { q with
    submissionQueue := q.submissionQueue.drop count
    outstanding := q.outstanding ++ accepted
    submitted := q.submitted ++ (accepted.map (·.owner)).filter (· ∉ q.submitted) }

/-- Reports the failure to waiting callers. The request array stays where it is. -/
def leakRequests :
    List (Option IoRequest) → Except QueuePanic (List (Option IoRequest) × List (Nat × IoAnswer))
  | [] => .ok ([], [])
  | none :: rest => do
      let (requests, answers) ← leakRequests rest
      pure (none :: requests, answers)
  | some request :: rest =>
      if request.reply then do
        let (requests, answers) ← leakRequests rest
        pure (some { request with reply := false } :: requests, (request.id, .stopped) :: answers)
      else .error .replyTaken

/-- The next step of the loop. -/
def advance (q : IoQueue) (choice : LoopChoice) : Except QueuePanic IoQueue :=
  match q.phase with
  | .draining =>
      match q.completionQueue with
      | [] => .ok { q with phase := .queueing 0 }
      | (entry, result) :: rest =>
          handleIoCompletion { q with completionQueue := rest } entry.userData result
  | .queueing requestIndex =>
      match q.requestsAwaitingCompletion[requestIndex]? with
      | none => .ok { q with phase := .checking }
      | some (some _) => .ok { q with phase := .queueing (requestIndex + 1) }
      | some none =>
          if q.receiver = [] then .ok { q with phase := .checking }
          else if q.writeRateLimited && choice.mustWait then .ok { q with phase := .checking }
          else .ok { q with phase := .receiving requestIndex }
  | .receiving requestIndex =>
      match q.receiver with
      | [] => .ok { q with phase := .checking }
      | request :: rest =>
          let received := { q with receiver := rest, taken := q.taken ++ [request.id] }
          if request.reply then
            -- A request whose caller cancelled is discarded.
            if request.id ∈ q.cancelled then .ok received
            else do
              let q ← received.placeRequest requestIndex request
              .ok { q with phase := .queueing (requestIndex + 1) }
          else .error .replyTaken
  | .checking =>
      if q.closed ∧ q.receiver = [] ∧ q.requestsAwaitingCompletion.all Option.isNone then
        .ok { q with phase := .returned }
      else .ok { q with phase := .submitting }
  | .submitting =>
      let q := q.accept choice.accepted
      match choice.outcome with
      | .ok =>
          if q.submissionQueue = [] then .ok { q with phase := .waiting }
          else .ok { q with phase := .draining }
      | .interrupted => .ok { q with phase := .draining }
      | .wouldBlock => .ok { q with phase := .waiting }
      | .failed => .ok { q with phase := .failing }
  | .waiting =>
      if choice.pollFails then .ok { q with phase := .failing } else .ok
        { q with phase := .draining }
  | .failing => do
      let (requests, answers) ← leakRequests q.requestsAwaitingCompletion
      .ok { q with
        phase := .stopped
        closed := true
        requestsAwaitingCompletion := requests
        answers := q.answers ++ answers }
  | .returned => .ok q
  | .stopped => .ok q

/-- Performs one action; an action that cannot happen changes nothing. -/
def step (q : IoQueue) : QueueAction → Except QueuePanic IoQueue
  | .arrive request =>
      -- The channel holds as many requests as the request array, each with its own caller.
      if q.closed = false ∧ q.receiver.length < q.requestsAwaitingCompletion.length ∧
          request.id ∉ q.arrived ∧ request.reply = true then
        .ok { q with receiver := q.receiver ++ [request], arrived := q.arrived ++ [request.id] }
      else .ok q
  | .cancel id =>
      if id ∈ q.arrived ∧ id ∉ q.cancelled then
        .ok { q with
          cancelled := q.cancelled ++ [id]
          withdrawn := if id ∈ q.receiver.map (·.id) then q.withdrawn ++ [id] else q.withdrawn }
      else .ok q
  | .disconnect => .ok { q with closed := true }
  | .complete entry result =>
      if entry ∈ q.outstanding then
        .ok { q with
          outstanding := q.outstanding.erase entry
          completionQueue := q.completionQueue ++ [(entry, result)] }
      else .ok q
  | .advance choice => q.advance choice

end IoQueue

end Feuer.Uring
