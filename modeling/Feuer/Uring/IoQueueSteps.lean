import Feuer.Uring.IoBuffers
import Feuer.Uring.IoQueueInvariant

/-!
# The steps of the I/O queue

What each action does to a queue that keeps its invariant. `IoQueue.step_change` lists the cases.
The loop does not panic in any of them: a completion finds its request, and the ring has room for
what is queued.
-/

namespace Feuer.Uring

open Lib

/-! ## One completion -/

/-- The bytes that a completion result counts for its request. -/
def acceptedBytes (result : Int) : Nat :=
  if 0 < result ∧ result.natAbs % directIoAlignmentBytes = 0 then result.natAbs else 0

/-- The request after it was moved forward. -/
def IoRequest.moved (request : IoRequest) (count : Nat) : IoRequest :=
  { request with rangeStart := request.rangeStart + count }

/-- A count that is usable moves the request on. -/
theorem IoRequest.apply_completion_result_ok {request after : IoRequest} {result : Int}
    (h : request.applyCompletionResult result = .ok after) :
    after = request.moved (acceptedBytes result) := by
  unfold applyCompletionResult at h
  split at h
  next hinterrupted =>
    cases h
    simp [moved, acceptedBytes, hinterrupted, interruptedCode]
  next =>
    split at h
    next => split at h <;> cases h
    next hpositive =>
      split at h
      next => cases h
      next haccepted =>
        cases h
        rw [not_or, not_not] at haccepted
        rw [moved, acceptedBytes, if_pos ⟨by omega, haccepted.2⟩]

/-- A request that is submitted again has something left. -/
theorem IoRequest.serve_resubmitted {request after : IoRequest} {cancelled : Bool} {result : Int}
    (h : request.serve cancelled result = .resubmitted after) :
    after = request.moved (acceptedBytes result) ∧ after.remaining ≠ 0 ∧ cancelled = false := by
  unfold serve at h
  split at h
  next => cases h
  next moved hmoved =>
    split at h
    next hgoes =>
      cases h
      exact ⟨apply_completion_result_ok hmoved, hgoes⟩
    next => cases h

namespace IoQueue

variable {q next : IoQueue} {action : QueueAction}

/-- Handling a completion serves its request. -/
theorem handle_io_completion_serve {userData : Nat} {request : IoRequest} {result : Int}
    (hrequest : q.requestsAwaitingCompletion[userData]? = some (some request))
    (hreply : request.reply = true) :
    q.handleIoCompletion userData result =
      match request.serve (decide (request.id ∈ q.cancelled)) result with
      | .answered answer => .ok { q with
          requestsAwaitingCompletion := q.requestsAwaitingCompletion.set userData none
          answers := q.answers ++ [(request.id, answer)] }
      | .resubmitted after => queueRequestForSubmission { q with
          requestsAwaitingCompletion :=
            q.requestsAwaitingCompletion.set userData (some after) } userData := by
  unfold handleIoCompletion IoRequest.serve
  simp only [hrequest]
  cases hresult : request.applyCompletionResult result with
  | error error => simp only [sendResult, if_pos hreply]
  | ok after =>
      obtain rfl := IoRequest.apply_completion_result_ok hresult
      have hafter : (request.moved (acceptedBytes result)).reply = true := hreply
      have hid : (request.moved (acceptedBytes result)).id = request.id := rfl
      dsimp only
      by_cases hempty : (request.moved (acceptedBytes result)).remaining = 0
      · rw [if_pos hempty, if_neg (fun h => h.1 hempty)]
        simp only [sendResult, if_pos hafter, hid]
      · rw [if_neg hempty, if_pos hafter, hid]
        by_cases hcancelled : request.id ∈ q.cancelled
        · rw [if_pos hcancelled, if_neg (by simp [hcancelled])]
          simp only [sendResult, if_pos hafter, hid]
        · rw [if_neg hcancelled, if_pos ⟨hempty, by simp [hcancelled]⟩]

/-- Queuing a placed request succeeds when the ring has room. -/
theorem queue_request_ok {index : Nat} (request : IoRequest)
    (hrequest : q.requestsAwaitingCompletion[index]? = some (some request))
    (hroom : q.submissionQueue.length < q.requestsAwaitingCompletion.length) :
    q.queueRequestForSubmission index = .ok { q with
      submissionQueue := q.submissionQueue ++ [request.submissionEntry index] } := by
  simp [queueRequestForSubmission, hrequest, hroom]

/-! ## The cases -/

/-- The queue after the last completion of a request. -/
def answered (q : IoQueue) (userData : Nat) (rest : List (SubmissionEntry × Int)) (id : Nat)
    (answer : IoAnswer) : IoQueue :=
  { q with
    completionQueue := rest
    requestsAwaitingCompletion := q.requestsAwaitingCompletion.set userData none
    answers := q.answers ++ [(id, answer)] }

/-- The queue after a completion that leaves something of the request. -/
def resubmitted (q : IoQueue) (userData : Nat) (rest : List (SubmissionEntry × Int))
    (request : IoRequest) : IoQueue :=
  { q with
    completionQueue := rest
    requestsAwaitingCompletion := q.requestsAwaitingCompletion.set userData (some request)
    submissionQueue := q.submissionQueue ++ [request.submissionEntry userData] }

/-- The queue after a request was placed. -/
def placedAt (q : IoQueue) (index : Nat) (request : IoRequest) (rest : List IoRequest) : IoQueue :=
  { q with
    phase := .queueing (index + 1)
    receiver := rest
    taken := q.taken ++ [request.id]
    requestsAwaitingCompletion := q.requestsAwaitingCompletion.set index (some request)
    placed := q.placed ++ [request.id]
    submissionQueue := q.submissionQueue ++ [request.submissionEntry index] }

/-- The queue after its failure was reported. -/
def leaked (q : IoQueue) (answers : List (Nat × IoAnswer)) : IoQueue :=
  { q with
    phase := .stopped
    closed := true
    requestsAwaitingCompletion := q.requestsAwaitingCompletion.map
      (Option.map fun request => { request with reply := false })
    answers := q.answers ++ answers }

/-- The loop is about to handle a completion of this request. -/
structure Handles (q : IoQueue) (entry : SubmissionEntry) (result : Int)
    (rest : List (SubmissionEntry × Int)) (request : IoRequest) : Prop where
  phase : q.phase = .draining
  completions : q.completionQueue = (entry, result) :: rest
  position : q.requestsAwaitingCompletion[entry.userData]? = some (some request)
  entry_eq : entry = request.submissionEntry entry.userData
  reply : request.reply = true

/-- What a step does. -/
inductive Change (q : IoQueue) : QueueAction → IoQueue → Prop where
  /-- The action is not possible, or the loop has ended. -/
  | ignore (action : QueueAction)
      (hended : ∀ choice, action = .advance choice → q.phase ≠ .draining) : Change q action q
  | arrive (request : IoRequest) (hopen : q.closed = false) (hfresh : request.id ∉ q.arrived)
      (hreply : request.reply = true) :
      Change q (.arrive request)
        { q with receiver := q.receiver ++ [request], arrived := q.arrived ++ [request.id] }
  | cancel (id : Nat) (harrived : id ∈ q.arrived) :
      Change q (.cancel id) { q with
        cancelled := q.cancelled ++ [id]
        withdrawn := if id ∈ q.receiver.map (·.id) then q.withdrawn ++ [id] else q.withdrawn }
  | disconnect : Change q .disconnect { q with closed := true }
  | complete (entry : SubmissionEntry) (result : Int) (hentry : entry ∈ q.outstanding) :
      Change q (.complete entry result) { q with
        outstanding := q.outstanding.erase entry
        completionQueue := q.completionQueue ++ [(entry, result)] }
  | answer (choice : LoopChoice) (entry : SubmissionEntry) (result : Int)
      (rest : List (SubmissionEntry × Int)) (request : IoRequest) (answer : IoAnswer)
      (hhandles : q.Handles entry result rest request)
      (hserve : request.serve (decide (request.id ∈ q.cancelled)) result = .answered answer) :
      Change q (.advance choice) (q.answered entry.userData rest request.id answer)
  | resubmit (choice : LoopChoice) (entry : SubmissionEntry) (result : Int)
      (rest : List (SubmissionEntry × Int)) (request after : IoRequest)
      (hhandles : q.Handles entry result rest request)
      (hserve : request.serve (decide (request.id ∈ q.cancelled)) result = .resubmitted after) :
      Change q (.advance choice) (q.resubmitted entry.userData rest after)
  /-- The loop goes on to a phase that promises nothing of its own. -/
  | goto (choice : LoopChoice) (phase : LoopPhase) (hrunning : q.phase ≠ .stopped)
      (hhandled : q.phase = .draining → q.completionQueue = [])
      (hplain : LoopPhase.plain phase = true) : Change q (.advance choice) { q with phase }
  | receive (choice : LoopChoice) (index : Nat) (hphase : q.phase = .queueing index)
      (hempty : q.requestsAwaitingCompletion[index]? = some none) :
      Change q (.advance choice) { q with phase := .receiving index }
  | discard (choice : LoopChoice) (index : Nat) (request : IoRequest) (rest : List IoRequest)
      (hphase : q.phase = .receiving index) (hreceiver : q.receiver = request :: rest)
      (hcancelled : request.id ∈ q.cancelled) :
      Change q (.advance choice) { q with receiver := rest, taken := q.taken ++ [request.id] }
  | place (choice : LoopChoice) (index : Nat) (request : IoRequest) (rest : List IoRequest)
      (hphase : q.phase = .receiving index) (hreceiver : q.receiver = request :: rest)
      (hlive : request.id ∉ q.cancelled) :
      Change q (.advance choice) (q.placedAt index request rest)
  | finish (choice : LoopChoice) (hphase : q.phase = .checking) (hclosed : q.closed = true)
      (hreceiver : q.receiver = [])
      (hempty : ∀ position ∈ q.requestsAwaitingCompletion, position = none) :
      Change q (.advance choice) { q with phase := .returned }
  | submit (choice : LoopChoice) (phase : LoopPhase) (hphase : q.phase = .submitting)
      (hplain : LoopPhase.plain phase = true) :
      Change q (.advance choice) { q.accept choice.accepted with phase }
  | leak (choice : LoopChoice) (answers : List (Nat × IoAnswer)) (hphase : q.phase = .failing)
      (hcount : ∀ id, (answers.map Prod.fst).count id = replies id q.requestsAwaitingCompletion)
      (hstopped : ∀ answer ∈ answers, answer.2 = .stopped) :
      Change q (.advance choice) (q.leaked answers)

/-! ## Completions -/

/-- The entries without the completion that is handled. -/
theorem entries_perm {entry : SubmissionEntry} {result : Int} {rest : List (SubmissionEntry × Int)}
    (hcompletions : q.completionQueue = (entry, result) :: rest) :
    q.entries.Perm (entry :: entries { q with completionQueue := rest }) := by
  simp only [entries, accepted, hcompletions, List.map_cons]
  rw [← List.append_assoc, ← List.append_assoc]
  exact List.perm_middle

/-- A completion finds its request. -/
theorem Sound.handles (h : q.Sound) (hphase : q.phase = .draining) {entry : SubmissionEntry}
    {result : Int} {rest : List (SubmissionEntry × Int)}
    (hcompletions : q.completionQueue = (entry, result) :: rest) :
    ∃ request, q.Handles entry result rest request := by
  have hmem : entry ∈ q.entries := by simp [entries, accepted, hcompletions]
  obtain ⟨request, hrequest, hentry⟩ := h.backed.backed entry hmem
  exact ⟨request, hphase, hcompletions, hrequest, hentry,
    h.replying (by simp [hphase]) request (List.mem_of_getElem? hrequest)⟩

/-- The request is answered, or what is left of it is queued again. -/
theorem Handles.result (h : q.Sound) {entry : SubmissionEntry} {result : Int}
    {rest : List (SubmissionEntry × Int)} {request : IoRequest}
    (hhandles : q.Handles entry result rest request) :
    handleIoCompletion { q with completionQueue := rest } entry.userData result =
      match request.serve (decide (request.id ∈ q.cancelled)) result with
      | .answered answer => .ok (q.answered entry.userData rest request.id answer)
      | .resubmitted after => .ok (q.resubmitted entry.userData rest after) := by
  have hlt := (List.getElem?_eq_some_iff.mp hhandles.position).1
  -- The entry of the completion makes room for another one.
  have hroom := ((h.backed.perm (entries_perm hhandles.completions)).clear).length_lt
    (List.getElem?_set_self hlt)
  simp only [entries, List.length_append, List.length_set] at hroom
  rw [@handle_io_completion_serve { q with completionQueue := rest } _ _ result hhandles.position
    hhandles.reply]
  cases request.serve (decide (request.id ∈ q.cancelled)) result with
  | answered answer => rfl
  | resubmitted after =>
      refine queue_request_ok after (List.getElem?_set_self hlt) ?_
      simp only [List.length_set]
      omega

/-! ## All steps -/

/-- A step of the loop. -/
theorem advance_change (h : q.Sound) (choice : LoopChoice) :
    ∃ next, q.advance choice = .ok next ∧ Change q (.advance choice) next := by
  unfold advance
  split
  next hphase =>
    split
    next hempty => exact ⟨_, rfl, .goto choice _ (by simp [hphase]) (fun _ => hempty) rfl⟩
    next entry result rest hcompletions =>
      obtain ⟨request, hhandles⟩ := h.handles hphase hcompletions
      rw [hhandles.result h]
      cases hserve : request.serve (decide (request.id ∈ q.cancelled)) result with
      | answered answer => exact ⟨_, rfl, .answer choice _ _ rest request answer hhandles hserve⟩
      | resubmitted after => exact ⟨_, rfl, .resubmit choice _ _ rest request after hhandles hserve⟩
  next index hphase =>
    have hgoto : ∀ phase, LoopPhase.plain phase = true →
        Change q (.advance choice) { q with phase } := fun phase =>
      .goto choice phase (by simp [hphase]) (by simp [hphase])
    split
    next => exact ⟨_, rfl, hgoto _ rfl⟩
    next => exact ⟨_, rfl, hgoto _ rfl⟩
    next hempty =>
      split
      next => exact ⟨_, rfl, hgoto _ rfl⟩
      next =>
        split
        next => exact ⟨_, rfl, hgoto _ rfl⟩
        next => exact ⟨_, rfl, .receive choice index hphase hempty⟩
  next index hphase =>
    split
    next => exact ⟨_, rfl, .goto choice _ (by simp [hphase]) (by simp [hphase]) rfl⟩
    next request rest hreceiver =>
      rw [if_pos (h.ordered.waiting request (by simp [hreceiver])).1]
      split
      next hcancelled =>
        exact ⟨_, rfl, .discard choice index request rest hphase hreceiver hcancelled⟩
      next hlive =>
        have hempty := h.receiving index hphase
        have hroom := h.backed.length_lt hempty
        have hlt := (List.getElem?_eq_some_iff.mp hempty).1
        simp only [entries, List.length_append] at hroom
        unfold placeRequest
        rw [queue_request_ok request (List.getElem?_set_self hlt) (by
          simp only [List.length_set]
          omega), ok_bind]
        exact ⟨_, rfl, .place choice index request rest hphase hreceiver hlive⟩
  next hphase =>
    split
    next hdone =>
      refine ⟨_, rfl, .finish choice hphase hdone.1 hdone.2.1 fun position hposition => ?_⟩
      simpa using List.all_eq_true.mp hdone.2.2 position hposition
    next => exact ⟨_, rfl, .goto choice _ (by simp [hphase]) (by simp [hphase]) rfl⟩
  next hphase =>
    dsimp only
    split
    next => split <;> exact ⟨_, rfl, .submit choice _ hphase rfl⟩
    next => exact ⟨_, rfl, .submit choice _ hphase rfl⟩
    next => exact ⟨_, rfl, .submit choice _ hphase rfl⟩
    next => exact ⟨_, rfl, .submit choice _ hphase rfl⟩
  next hphase =>
    split <;> exact ⟨_, rfl, .goto choice _ (by simp [hphase]) (by simp [hphase]) rfl⟩
  next hphase =>
    obtain ⟨requests, answers, hleak, rfl, hcount, hstopped⟩ :=
      leak_requests_spec (h.replying (by simp [hphase]))
    rw [hleak, ok_bind]
    exact ⟨_, rfl, .leak choice answers hphase hcount hstopped⟩
  next hphase => exact ⟨q, rfl, .ignore _ fun _ _ => by simp [hphase]⟩
  next hphase => exact ⟨q, rfl, .ignore _ fun _ _ => by simp [hphase]⟩

/-- No step of a queue that keeps its invariant panics, and each is one of the cases. -/
theorem step_change (h : q.Sound) (action : QueueAction) :
    ∃ next, q.step action = .ok next ∧ Change q action next := by
  have hignore : (∀ choice, action ≠ .advance choice) → Change q action q := fun haction =>
    .ignore action fun choice hadvance => absurd hadvance (haction choice)
  cases action with
  | arrive request =>
      simp only [step]
      split
      next hguard => exact ⟨_, rfl, .arrive request hguard.1 hguard.2.2.1 hguard.2.2.2⟩
      next => exact ⟨q, rfl, hignore nofun⟩
  | cancel id =>
      simp only [step]
      split
      next hguard => exact ⟨_, rfl, .cancel id hguard.1⟩
      next => exact ⟨q, rfl, hignore nofun⟩
  | disconnect => exact ⟨_, rfl, .disconnect⟩
  | complete entry result =>
      simp only [step]
      split
      next hentry => exact ⟨_, rfl, .complete entry result hentry⟩
      next => exact ⟨q, rfl, hignore nofun⟩
  | advance choice => exact advance_change h choice

/-- Every step of a sound queue is a change of the list. -/
theorem change_of_step (h : q.Sound) (hnext : q.step action = .ok next) : Change q action next := by
  obtain ⟨found, hfound, hchange⟩ := step_change h action
  cases hnext.symm.trans hfound
  exact hchange

end IoQueue

end Feuer.Uring
