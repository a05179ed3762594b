import Feuer.Uring.IoQueueRuns

/-!
# Short completions

The kernel may transfer a part of a request, or none of it. The queue then submits what is left. The
history of a run keeps the requests as they arrived and the completions that the queue handled, so
that the bytes counted for a request are known: every entry in the ring is its request moved forward
by these bytes, in the file and in the buffers.
-/

namespace Feuer.Uring

open Lib

/-! ## One completion -/

/-- A count that cannot be continued with direct I/O. -/
def Unusable (result : Int) : Prop :=
  0 ≤ result ∧ (result = 0 ∨ result.natAbs % directIoAlignmentBytes ≠ 0)

/-- Only whole pages are accepted. -/
theorem accepted_bytes_mod (result : Int) : acceptedBytes result % directIoAlignmentBytes = 0 := by
  unfold acceptedBytes
  split
  next h => exact h.2
  next => rfl

namespace IoRequest

variable {request : IoRequest} {cancelled : Bool} {result : Int}

/-- A request is done when nothing is left, unless its caller is gone. -/
theorem serve_done (h : request.serve cancelled result = .answered .done) :
    (request.moved (acceptedBytes result)).remaining = 0 ∨ cancelled = true := by
  unfold serve at h
  split at h
  next => cases h
  next moved hmoved =>
    split at h
    next => cases h
    next hstays =>
      rw [← apply_completion_result_ok hmoved]
      by_contra hnot
      rw [not_or, Bool.not_eq_true] at hnot
      exact hstays hnot

/-- An unusable count fails its request. -/
theorem serve_unusable (h : Unusable result) :
    request.serve cancelled result = .answered (.failed (.incomplete request.isRead)) := by
  have hresult : request.applyCompletionResult result = .error (.incomplete request.isRead) := by
    unfold applyCompletionResult
    rw [if_neg (by have := h.1; simp only [interruptedCode]; omega), if_neg (by have := h.1; omega),
      if_pos h.2]
  rw [serve, hresult]

end IoRequest

/-- A request after some of its bytes were transferred. -/
structure IoRequest.Continues (original : IoRequest) (count : Nat) (request : IoRequest) :
    Prop where
  id : request.id = original.id
  isRead : request.isRead = original.isRead
  fileEnd : request.fileEndOffset = original.fileEndOffset
  start : request.rangeStart = original.rangeStart + count
  stop : request.rangeEnd = original.rangeEnd

/-- A continued request can be continued. -/
theorem IoRequest.Continues.moved {original request : IoRequest} {count : Nat}
    (h : original.Continues count request) (more : Nat) :
    original.Continues (count + more) (request.moved more) :=
  ⟨h.id, h.isRead, h.fileEnd, by simp only [IoRequest.moved, h.start, Nat.add_assoc], h.stop⟩

/-- A request that `IoRequest::new` builds for a range that ends with its buffers. -/
def IoRequest.BuiltFor (buffers : IoBuffers) (request : IoRequest) : Prop :=
  buffers.Spans request.rangeEnd ∧ ∃ offset,
    IoRequest.new request.id offset buffers request.rangeStart request.rangeEnd = .ok request

/-- The assertions of a new request. -/
theorem IoRequest.new_spec {id offset start stop : Nat} {buffers : IoBuffers} {request : IoRequest}
    (h : IoRequest.new id offset buffers start stop = .ok request) :
    request = ⟨id, buffers.isRead, offset + (stop - start), start, stop, true⟩ ∧
      offset % directIoAlignmentBytes = 0 ∧ start % directIoAlignmentBytes = 0 ∧
      (stop - start) % directIoAlignmentBytes = 0 ∧ start < stop ∧
      stop - start ≤ maxIoRequestBytes := by
  unfold IoRequest.new at h
  dsimp only at h
  split at h
  next hguard =>
    cases h
    obtain ⟨hoffset, hstart, hlength, -, hpos, hle⟩ := hguard
    exact ⟨rfl, hoffset, hstart, hlength, by omega, hle⟩
  next => cases h

/-! ## The history of a run -/

/-- The requests as they arrived, and the completions handled for them, in order. -/
structure CompletionHistory where
  arrivals : List IoRequest
  handled : List (Nat × Int)

namespace CompletionHistory

variable {history : CompletionHistory}

/-- The bytes counted for a request. -/
def counted (history : CompletionHistory) (id : Nat) : Nat :=
  ((history.handled.filter (·.1 = id)).map (acceptedBytes ·.2)).sum

/-- A completion adds what it accepts to its own request. -/
theorem counted_append (history : CompletionHistory) (event : Nat × Int) (id : Nat) :
    counted { history with handled := history.handled ++ [event] } id =
      history.counted id + if event.1 = id then acceptedBytes event.2 else 0 := by
  simp only [counted, List.filter_append, List.map_append, List.sum_append]
  by_cases hid : event.1 = id <;> simp [hid]

/-- Nothing is counted before the first completion. -/
theorem counted_eq_zero {id : Nat} (h : ∀ event ∈ history.handled, event.1 ≠ id) :
    history.counted id = 0 := by
  have hnone : history.handled.filter (·.1 = id) = [] := by simpa using h
  simp [counted, hnone]

end CompletionHistory

/-- An action of a caller or the kernel that keeps to the interface: requests are built for their
buffers, and no more bytes are transferred than were submitted. -/
def QueueAction.Lawful (buffers : Nat → IoBuffers) : QueueAction → Prop
  | .arrive request => request.BuiltFor (buffers request.id)
  | .complete entry result => result ≤ ((entry.rangeEnd - entry.rangeStart : Nat) : Int)
  | _ => True

namespace IoQueue

variable {q next : IoQueue} {action : QueueAction} {history : CompletionHistory}

def recordCompletions (q : IoQueue) (action : QueueAction) (next : IoQueue)
    (history : CompletionHistory) : CompletionHistory :=
  match action with
  | .arrive request =>
      if request.id ∈ next.arrived ∧ request.id ∉ q.arrived then
        { history with arrivals := history.arrivals ++ [request] }
      else history
  | .advance _ =>
      if q.phase = .draining then
        match q.completionQueue with
        | [] => history
        | (entry, result) :: _ =>
            { history with handled := history.handled ++ [(entry.owner, result)] }
      else history
  | _ => history

/-- The history of a run of a new queue. -/
def completionHistory (maxInFlight : Nat) (writeRateLimited : Bool) (actions : List QueueAction) :
    CompletionHistory :=
  observe step recordCompletions (new maxInFlight writeRateLimited) ⟨[], []⟩ actions

/-! ## The invariant -/

/-- The requests in the queue are those that arrived, moved forward by the bytes counted for
them. -/
structure Tracked (buffers : Nat → IoBuffers) (q : IoQueue) (history : CompletionHistory) :
    Prop where
  sound : q.Sound
  arrived : history.arrivals.map (·.id) = q.arrived
  built : ∀ original ∈ history.arrivals, original.BuiltFor (buffers original.id)
  waiting : ∀ request ∈ q.receiver, request ∈ history.arrivals
  handled : ∀ event ∈ history.handled, event.1 ∈ q.placed
  held : ∀ request, some request ∈ q.requestsAwaitingCompletion → ∃ original ∈ history.arrivals,
    original.Continues (history.counted original.id) request ∧
      request.rangeStart < request.rangeEnd ∧
      history.counted original.id % directIoAlignmentBytes = 0
  kernel : ∀ completion ∈ q.completionQueue,
    completion.2 ≤ ((completion.1.rangeEnd - completion.1.rangeStart : Nat) : Int)
  done : ∀ id, (id, IoAnswer.done) ∈ q.answers → id ∉ q.cancelled →
    ∃ original ∈ history.arrivals, original.id = id ∧ history.counted id = original.remaining
  rejected : ∀ event ∈ history.handled, Unusable event.2 → ∃ original ∈ history.arrivals,
    original.id = event.1 ∧ (event.1, .failed (.incomplete original.isRead)) ∈ q.answers

/-- The positions hold different requests. -/
theorem Sound.position_unique (h : q.Sound) {first second : Nat} {request other : IoRequest}
    (hfirst : q.requestsAwaitingCompletion[first]? = some (some request))
    (hsecond : q.requestsAwaitingCompletion[second]? = some (some other))
    (hid : request.id = other.id) : first = second := by
  have hsame := List.inj_on_of_nodup_map h.backed.owners (h.backed.entry_mem hfirst)
    (h.backed.entry_mem hsecond) hid
  exact congrArg SubmissionEntry.userData hsame

namespace Tracked

variable {buffers : Nat → IoBuffers} {entry : SubmissionEntry} {result : Int}
  {rest : List (SubmissionEntry × Int)} {request : IoRequest}

/-- The request whose completion is handled, as it arrived. -/
theorem served (h : q.Tracked buffers history) (hhandles : q.Handles entry result rest request) :
    ∃ original ∈ history.arrivals, original.Continues (history.counted original.id) request ∧
      history.counted original.id + acceptedBytes result ≤ original.remaining ∧
      (history.counted original.id + acceptedBytes result) % directIoAlignmentBytes = 0 := by
  obtain ⟨original, horiginal, hcontinues, hlt, haligned⟩ :=
    h.held request (List.mem_of_getElem? hhandles.position)
  have hkernel := h.kernel (entry, result) (by simp [hhandles.completions])
  have haccepted : acceptedBytes result ≤ request.rangeEnd - request.rangeStart := by
    rw [hhandles.entry_eq] at hkernel
    change result ≤ ((request.rangeEnd - request.rangeStart : Nat) : Int) at hkernel
    unfold acceptedBytes
    split <;> omega
  refine ⟨original, horiginal, hcontinues, ?_, ?_⟩
  · have hstart := hcontinues.start
    have hstop := hcontinues.stop
    simp only [IoRequest.remaining]
    omega
  · have hmod := accepted_bytes_mod result
    simp only [directIoAlignmentBytes] at haligned hmod ⊢
    omega

/-- A request that is not the one being served keeps its count. -/
theorem counted_other {id other : Nat} (result : Int) (hne : other ≠ id) :
    CompletionHistory.counted { history with handled := history.handled ++ [(id, result)] } other =
      history.counted other := by
  rw [CompletionHistory.counted_append, if_neg (Ne.symm hne), Nat.add_zero]

/-- What a completion adds to its request. -/
theorem counted_self (id : Nat) (result : Int) :
    CompletionHistory.counted { history with handled := history.handled ++ [(id, result)] } id =
      history.counted id + acceptedBytes result := by
  rw [CompletionHistory.counted_append, if_pos rfl]

/-- The history after a completion was handled. -/
theorem record_handled {choice : LoopChoice} (next : IoQueue)
    (hhandles : q.Handles entry result rest request) :
    recordCompletions q (.advance choice) next history =
      { history with handled := history.handled ++ [(request.id, result)] } := by
  have howner : entry.owner = request.id := congrArg SubmissionEntry.owner hhandles.entry_eq
  simp only [recordCompletions, if_pos hhandles.phase, hhandles.completions, howner]

/-- Elsewhere in the loop no completion is handled. -/
theorem record_other {choice : LoopChoice} (hphase : q.phase ≠ .draining) :
    recordCompletions q (.advance choice) next history = history :=
  if_neg hphase

/-- The requests in the other positions keep their counts when a completion is handled. -/
theorem held_other (h : q.Tracked buffers history) (hhandles : q.Handles entry result rest request)
    {other : IoRequest} {index : Nat} (hne : index ≠ entry.userData)
    (hother : q.requestsAwaitingCompletion[index]? = some (some other)) :
    ∃ original ∈ history.arrivals, original.Continues (CompletionHistory.counted
        { history with handled := history.handled ++ [(request.id, result)] } original.id) other ∧
      other.rangeStart < other.rangeEnd ∧ CompletionHistory.counted
        { history with handled := history.handled ++ [(request.id, result)] } original.id %
          directIoAlignmentBytes = 0 := by
  obtain ⟨original, horiginal, hcontinues, hlt, haligned⟩ :=
    h.held other (List.mem_of_getElem? hother)
  have hid : original.id ≠ request.id := by
    rw [← hcontinues.id]
    exact fun heq => hne (h.sound.position_unique hother hhandles.position heq)
  exact ⟨original, horiginal, by rwa [counted_other result hid], hlt,
    by rwa [counted_other result hid]⟩

/-- An arriving request has no completions. -/
theorem arrive (h : q.Tracked buffers history) {request : IoRequest}
    (hfresh : request.id ∉ q.arrived) (hbuilt : request.BuiltFor (buffers request.id))
    (hsound : Sound { q with
      receiver := q.receiver ++ [request], arrived := q.arrived ++ [request.id] }) :
    Tracked buffers { q with
        receiver := q.receiver ++ [request], arrived := q.arrived ++ [request.id] }
      (recordCompletions q (.arrive request) { q with
        receiver := q.receiver ++ [request], arrived := q.arrived ++ [request.id] } history) := by
  have hrecord : recordCompletions q (.arrive request) { q with
      receiver := q.receiver ++ [request], arrived := q.arrived ++ [request.id] } history =
        { history with arrivals := history.arrivals ++ [request] } :=
    if_pos ⟨by simp, hfresh⟩
  rw [hrecord]
  refine ⟨hsound, ?_, ?_, ?_, h.handled, ?_, h.kernel, ?_, ?_⟩
  · rw [List.map_append, h.arrived, List.map_singleton]
  · intro original horiginal
    rcases List.mem_append.mp horiginal with hold | hnew
    · exact h.built original hold
    · rw [List.mem_singleton.mp hnew]
      exact hbuilt
  · intro waiting hwaiting
    rcases List.mem_append.mp hwaiting with hold | hnew
    · exact List.mem_append_left _ (h.waiting waiting hold)
    · exact List.mem_append_right _ hnew
  · intro held hheld
    obtain ⟨original, horiginal, hcontinues⟩ := h.held held hheld
    exact ⟨original, List.mem_append_left _ horiginal, hcontinues⟩
  · intro id hdone hwaits
    obtain ⟨original, horiginal, hcounted⟩ := h.done id hdone hwaits
    exact ⟨original, List.mem_append_left _ horiginal, hcounted⟩
  · intro event hevent hunusable
    obtain ⟨original, horiginal, hrejected⟩ := h.rejected event hevent hunusable
    exact ⟨original, List.mem_append_left _ horiginal, hrejected⟩

/-- An answered request was handled. -/
theorem answer (h : q.Tracked buffers history) (hhandles : q.Handles entry result rest request)
    {answer : IoAnswer}
    (hserve : request.serve (decide (request.id ∈ q.cancelled)) result = .answered answer)
    (hsound : (q.answered entry.userData rest request.id answer).Sound) :
    Tracked buffers (q.answered entry.userData rest request.id answer)
      { history with handled := history.handled ++ [(request.id, result)] } := by
  obtain ⟨original, horiginal, hcontinues, hcounted, -⟩ := h.served hhandles
  have hunanswered : ∀ answer, (request.id, answer) ∉ q.answers := fun answer =>
    h.sound.not_answered (by simp [hhandles.phase]) (List.mem_of_getElem? hhandles.position)
  refine ⟨hsound, h.arrived, h.built, h.waiting, ?_, ?_, ?_, ?_, ?_⟩
  · intro event hevent
    rcases List.mem_append.mp hevent with hold | hnew
    · exact h.handled event hold
    · rw [List.mem_singleton.mp hnew]
      exact h.sound.owner_placed (h.sound.backed.entry_mem hhandles.position)
  · intro other hother
    obtain ⟨index, hindex⟩ := List.mem_iff_getElem?.mp hother
    rcases getElem?_set_eq_some hindex with ⟨hne, hold⟩ | ⟨-, heq⟩
    · exact h.held_other hhandles hne hold
    · cases heq
  · exact fun completion hcompletion => h.kernel completion (by
      rw [hhandles.completions]
      exact List.mem_cons_of_mem _ hcompletion)
  · intro id hdone hwaits
    rcases List.mem_append.mp hdone with hold | hnew
    · have hid : id ≠ request.id := fun heq => hunanswered _ (heq ▸ hold)
      obtain ⟨found, hfound, hsame, hfull⟩ := h.done id hold hwaits
      exact ⟨found, hfound, hsame, by rw [counted_other result hid, hfull]⟩
    · cases List.mem_singleton.mp hnew
      refine ⟨original, horiginal, hcontinues.id.symm, ?_⟩
      have hleft : (request.moved (acceptedBytes result)).remaining = 0 :=
        (IoRequest.serve_done hserve).resolve_right fun hgone => hwaits (of_decide_eq_true hgone)
      rw [counted_self]
      have hid := hcontinues.id
      have hstart := hcontinues.start
      have hstop := hcontinues.stop
      rw [hid]
      simp only [IoRequest.moved, IoRequest.remaining] at hleft hcounted ⊢
      omega
  · intro event hevent hunusable
    rcases List.mem_append.mp hevent with hold | hnew
    · obtain ⟨found, hfound, hsame, hfailed⟩ := h.rejected event hold hunusable
      exact ⟨found, hfound, hsame, List.mem_append_left _ hfailed⟩
    · cases List.mem_singleton.mp hnew
      refine ⟨original, horiginal, hcontinues.id.symm, List.mem_append_right _ ?_⟩
      have hfailed := hserve.symm.trans (IoRequest.serve_unusable hunusable)
      cases hfailed
      rw [hcontinues.isRead]
      exact List.mem_singleton.mpr rfl

/-- A resubmitted request goes on where its completions end. -/
theorem resubmit (h : q.Tracked buffers history) (hhandles : q.Handles entry result rest request)
    {after : IoRequest}
    (hserve : request.serve (decide (request.id ∈ q.cancelled)) result = .resubmitted after)
    (hsound : (q.resubmitted entry.userData rest after).Sound) :
    Tracked buffers (q.resubmitted entry.userData rest after)
      { history with handled := history.handled ++ [(request.id, result)] } := by
  obtain ⟨original, horiginal, hcontinues, hcounted, haligned⟩ := h.served hhandles
  obtain ⟨rfl, hleft, -⟩ := IoRequest.serve_resubmitted hserve
  refine ⟨hsound, h.arrived, h.built, h.waiting, ?_, ?_, ?_, ?_, ?_⟩
  · intro event hevent
    rcases List.mem_append.mp hevent with hold | hnew
    · exact h.handled event hold
    · rw [List.mem_singleton.mp hnew]
      exact h.sound.owner_placed (h.sound.backed.entry_mem hhandles.position)
  · intro other hother
    obtain ⟨index, hindex⟩ := List.mem_iff_getElem?.mp hother
    rcases getElem?_set_eq_some hindex with ⟨hne, hold⟩ | ⟨-, heq⟩
    · exact h.held_other hhandles hne hold
    · cases heq
      rw [IoRequest.remaining] at hleft
      refine ⟨original, horiginal, ?_, by omega, ?_⟩
      · rw [hcontinues.id, counted_self]
        exact hcontinues.moved _
      · rw [hcontinues.id, counted_self]
        exact haligned
  · exact fun completion hcompletion => h.kernel completion (by
      rw [hhandles.completions]
      exact List.mem_cons_of_mem _ hcompletion)
  · intro id hdone hwaits
    have hid : id ≠ request.id := by
      rintro rfl
      exact h.sound.not_answered (by simp [hhandles.phase]) (List.mem_of_getElem? hhandles.position)
        hdone
    obtain ⟨found, hfound, hsame, hfull⟩ := h.done id hdone hwaits
    exact ⟨found, hfound, hsame, by rw [counted_other result hid, hfull]⟩
  · intro event hevent hunusable
    rcases List.mem_append.mp hevent with hold | hnew
    · exact h.rejected event hold hunusable
    · cases List.mem_singleton.mp hnew
      have hfailed := hserve.symm.trans (IoRequest.serve_unusable hunusable)
      cases hfailed

/-- A request that is placed for the first time has no bytes counted. -/
theorem place (h : q.Tracked buffers history) {index : Nat} {waiting : List IoRequest}
    (hreceiver : q.receiver = request :: waiting)
    (hsound : (q.placedAt index request waiting).Sound) :
    Tracked buffers (q.placedAt index request waiting) history := by
  have hunplaced : request.id ∉ q.placed := fun hplaced =>
    List.disjoint_of_nodup_append hsound.ordered.placed_nodup hplaced (List.mem_singleton.mpr rfl)
  have hzero : history.counted request.id = 0 :=
    CompletionHistory.counted_eq_zero fun event hevent heq =>
      hunplaced (heq ▸ h.handled event hevent)
  have harrived : request ∈ history.arrivals := h.waiting request (by simp [hreceiver])
  refine ⟨hsound, h.arrived, h.built, ?_, ?_, ?_, h.kernel, h.done, h.rejected⟩
  · exact fun other hother => h.waiting other (hreceiver ▸ List.mem_cons_of_mem _ hother)
  · exact fun event hevent => List.mem_append_left _ (h.handled event hevent)
  · intro held hheld
    rcases List.mem_or_eq_of_mem_set hheld with hold | hnew
    · exact h.held held hold
    · cases hnew
      obtain ⟨-, offset, hbuilt⟩ := h.built request harrived
      obtain ⟨-, -, -, -, hlt, -⟩ := IoRequest.new_spec hbuilt
      refine ⟨request, harrived, ?_, hlt, ?_⟩
      · rw [hzero]
        exact ⟨rfl, rfl, rfl, rfl, rfl⟩
      · rw [hzero]
        rfl

/-- A failure answers the waiting callers, but no request is done by it. -/
theorem leak (h : q.Tracked buffers history) {answers : List (Nat × IoAnswer)}
    (hstopped : ∀ answer ∈ answers, answer.2 = .stopped) (hsound : (q.leaked answers).Sound) :
    Tracked buffers (q.leaked answers) history := by
  refine ⟨hsound, h.arrived, h.built, h.waiting, h.handled, ?_, h.kernel, ?_, ?_⟩
  · intro held hheld
    obtain ⟨position, hposition, hleaked⟩ := List.mem_map.mp hheld
    obtain ⟨request, rfl, rfl⟩ := Option.map_eq_some_iff.mp hleaked
    obtain ⟨original, horiginal, hcontinues, hrest⟩ := h.held request hposition
    exact ⟨original, horiginal,
      ⟨hcontinues.id, hcontinues.isRead, hcontinues.fileEnd, hcontinues.start, hcontinues.stop⟩,
      hrest⟩
  · intro id hdone hwaits
    rcases List.mem_append.mp hdone with hold | hnew
    · exact h.done id hold hwaits
    · cases hstopped _ hnew
  · intro event hevent hunusable
    obtain ⟨original, horiginal, hsame, hfailed⟩ := h.rejected event hevent hunusable
    exact ⟨original, horiginal, hsame, List.mem_append_left _ hfailed⟩

/-- A step that touches no request is not recorded. -/
theorem quiet (h : q.Tracked buffers history) (hsound : next.Sound)
    (harrived : next.arrived = q.arrived) (hplaced : next.placed = q.placed)
    (hreceiver : next.receiver <:+ q.receiver)
    (hpositions : next.requestsAwaitingCompletion = q.requestsAwaitingCompletion)
    (hcompletions : next.completionQueue = q.completionQueue)
    (hanswers : next.answers = q.answers) (hcancelled : q.cancelled ⊆ next.cancelled) :
    next.Tracked buffers history := by
  refine ⟨hsound, harrived ▸ h.arrived, h.built, ?_, ?_, ?_, ?_, ?_, ?_⟩
  · exact fun waiting hwaiting => h.waiting waiting (hreceiver.subset hwaiting)
  · rw [hplaced]
    exact h.handled
  · rw [hpositions]
    exact h.held
  · rw [hcompletions]
    exact h.kernel
  · rw [hanswers]
    exact fun id hdone hwaits => h.done id hdone fun hgone => hwaits (hcancelled hgone)
  · rw [hanswers]
    exact h.rejected

/-- Every step of a run keeps track of the requests. -/
theorem step (h : q.Tracked buffers history) (hlawful : action.Lawful buffers)
    (hchange : Change q action next) :
    next.Tracked buffers (recordCompletions q action next history) := by
  have hsound := hchange.sound h.sound
  cases hchange with
  | ignore _ hended =>
      cases action with
      | arrive request =>
          rw [show recordCompletions q (.arrive request) q history = history from
            if_neg fun hnew => hnew.2 hnew.1]
          exact h
      | advance choice =>
          rw [record_other (hended choice rfl)]
          exact h
      | cancel | disconnect | complete => exact h
  | arrive request hopen hfresh => exact h.arrive hfresh hlawful hsound
  | cancel =>
      exact h.quiet hsound rfl rfl (List.suffix_refl _) rfl rfl rfl (List.subset_append_left _ _)
  | disconnect =>
      exact h.quiet hsound rfl rfl (List.suffix_refl _) rfl rfl rfl (List.Subset.refl _)
  | complete entry result hentry =>
      refine ⟨hsound, h.arrived, h.built, h.waiting, h.handled, h.held, ?_, h.done, h.rejected⟩
      intro completion hcompletion
      rcases List.mem_append.mp hcompletion with hold | hnew
      · exact h.kernel completion hold
      · rw [List.mem_singleton.mp hnew]
        exact hlawful
  | answer choice entry result rest request answer hhandles hserve =>
      rw [record_handled _ hhandles]
      exact h.answer hhandles hserve hsound
  | resubmit choice entry result rest request after hhandles hserve =>
      rw [record_handled _ hhandles]
      exact h.resubmit hhandles hserve hsound
  | goto choice phase hrunning hhandled =>
      have hrecord : recordCompletions q (.advance choice) { q with phase } history = history := by
        simp only [recordCompletions]
        split
        next hphase => rw [hhandled hphase]
        next => rfl
      rw [hrecord]
      exact h.quiet hsound rfl rfl (List.suffix_refl _) rfl rfl rfl (List.Subset.refl _)
  | receive _ _ hphase | finish _ hphase | submit _ _ hphase =>
      rw [record_other (by simp [hphase])]
      exact h.quiet hsound rfl rfl (List.suffix_refl _) rfl rfl rfl (List.Subset.refl _)
  | discard choice index request waiting hphase hreceiver =>
      rw [record_other (by simp [hphase])]
      exact h.quiet hsound rfl rfl (hreceiver ▸ List.suffix_cons request waiting) rfl rfl rfl
        (List.Subset.refl _)
  | place choice index request waiting hphase hreceiver =>
      rw [record_other (by simp [hphase])]
      exact h.place hreceiver hsound
  | leak choice answers hphase hcount hstopped =>
      rw [record_other (by simp [hphase])]
      exact h.leak hstopped hsound

/-- A new queue has no history. -/
theorem new (buffers : Nat → IoBuffers) (maxInFlight : Nat) (writeRateLimited : Bool) :
    (new maxInFlight writeRateLimited).Tracked buffers ⟨[], []⟩ where
  sound := Sound.new maxInFlight writeRateLimited
  arrived := rfl
  built := by simp
  waiting := by simp [IoQueue.new]
  handled := by simp
  held request hrequest := by simp [IoQueue.new] at hrequest
  kernel := by simp [IoQueue.new]
  done := by simp [IoQueue.new]
  rejected := by simp

end Tracked

end IoQueue

/-! ## What the ring holds -/

/-- The submission points to the buffers from `start` on, in order: to one place of a read buffer,
or to what is left of the two write buffers, without empty vectors. -/
def IoBuffers.Denotes (buffers : IoBuffers) (start stop : Nat) : Submission → Prop
  | .read address length => ∃ base size, buffers = .read base size ∧ address = base + start ∧
      length = stop - start ∧ stop ≤ size
  | .writev iovecs => ∃ first second, buffers = .write first second ∧ iovecs.length ≤ 2 ∧
      (∀ iovec ∈ iovecs, iovec.contents ≠ [] ∧
        (iovec = first.skip start ∨ iovec = second.skip (start - first.length))) ∧
      iovecs.flatMap Bytes.contents = buffers.contents.drop start ∧ buffers.contents.length = stop

/-- An entry denotes the bytes of its range. -/
theorem IoBuffers.submission_entry_denotes {buffers : IoBuffers} {start stop : Nat}
    (h : buffers.Spans stop) : buffers.Denotes start stop (buffers.submissionEntry start stop) := by
  cases buffers with
  | read address length => exact ⟨address, length, rfl, rfl, rfl, h⟩
  | write first second =>
      rw [submission_entry_write]
      refine ⟨first, second, rfl, List.length_filter_le _ _, ?_,
        Bytes.flatMap_skip first second start,
        ?_⟩
      · intro iovec hiovec
        obtain ⟨hmem, hsome⟩ := List.mem_filter.mp hiovec
        refine ⟨by simpa using hsome, ?_⟩
        simpa using hmem
      · rw [contents, List.length_append]
        exact h.symm

/-- The entry is the request moved forward by the counted bytes, in the file and in the buffers. -/
structure SubmissionEntry.Resumes (buffers : IoBuffers) (original : IoRequest) (count : Nat)
    (entry : SubmissionEntry) : Prop where
  owner : entry.owner = original.id
  position : entry.rangeStart = original.rangeStart + count
  stop : entry.rangeEnd = original.rangeEnd
  offset : entry.offset = original.offset + count
  nonempty : entry.rangeStart < entry.rangeEnd
  aligned : entry.offset % directIoAlignmentBytes = 0 ∧
    entry.rangeStart % directIoAlignmentBytes = 0 ∧
    (entry.rangeEnd - entry.rangeStart) % directIoAlignmentBytes = 0
  bounded : entry.rangeEnd - entry.rangeStart ≤ maxIoRequestBytes
  denotes : buffers.Denotes entry.rangeStart entry.rangeEnd
    (buffers.submissionEntry entry.rangeStart entry.rangeEnd)

/-- The entry of a continued request resumes it. -/
theorem IoRequest.BuiltFor.resumes {buffers : IoBuffers} {original request : IoRequest}
    {count : Nat}
    (h : original.BuiltFor buffers) (hcontinues : original.Continues count request)
    (hlt : request.rangeStart < request.rangeEnd) (haligned : count % directIoAlignmentBytes = 0)
    (index : Nat) : (request.submissionEntry index).Resumes buffers original count := by
  obtain ⟨hspans, offset, hnew⟩ := h
  obtain ⟨horiginal, hoffset, hstart, hlength, -, hbounded⟩ := new_spec hnew
  have hfileEnd : original.fileEndOffset = offset + (original.rangeEnd - original.rangeStart) :=
    congrArg fileEndOffset horiginal
  have hposition := hcontinues.start
  have hstop := hcontinues.stop
  have hend := hcontinues.fileEnd
  constructor
  · exact hcontinues.id
  · exact hposition
  · exact hstop
  · simp only [submissionEntry, IoRequest.offset, remaining]
    omega
  · exact hlt
  · simp only [submissionEntry, remaining, directIoAlignmentBytes] at *
    omega
  · simp only [submissionEntry]
    omega
  · simp only [submissionEntry, hstop]
    exact IoBuffers.submission_entry_denotes hspans

namespace IoQueue

/-- Whatever the kernel returns, in whatever order: every entry in the ring is its request moved
forward by the bytes counted for it so far, a caller that waits is told of success only when all
bytes were counted, and a count that cannot be continued is a failure. -/
theorem run_short_completions (buffers : Nat → IoBuffers) (maxInFlight : Nat)
    (writeRateLimited : Bool) {actions : List QueueAction}
    (hlawful : ∀ action ∈ actions, action.Lawful buffers) :
    ∃ q, run step (new maxInFlight writeRateLimited) actions = .ok q ∧
      (completionHistory maxInFlight writeRateLimited actions).arrivals.map (·.id) = q.arrived ∧
      (∀ entry ∈ q.entries,
        ∃ original ∈ (completionHistory maxInFlight writeRateLimited actions).arrivals,
          entry.Resumes (buffers entry.owner) original
            ((completionHistory maxInFlight writeRateLimited actions).counted entry.owner)) ∧
      (∀ id, (id, IoAnswer.done) ∈ q.answers → id ∉ q.cancelled →
        ∃ original ∈ (completionHistory maxInFlight writeRateLimited actions).arrivals,
          original.id = id ∧
            (completionHistory maxInFlight writeRateLimited actions).counted id =
              original.remaining) ∧
      ∀ event ∈ (completionHistory maxInFlight writeRateLimited actions).handled,
        Unusable event.2 →
          ∃ original ∈ (completionHistory maxInFlight writeRateLimited actions).arrivals,
            original.id = event.1 ∧
            (event.1, .failed (.incomplete original.isRead)) ∈ q.answers := by
  obtain ⟨q, hrun, -⟩ := run_safe maxInFlight writeRateLimited actions
  have htracked := observe_invariant (Tracked buffers) (QueueAction.Lawful buffers)
    (fun _ _ _ _ h hallowed hnext => h.step hallowed (change_of_step h.sound hnext))
    (Tracked.new buffers maxInFlight writeRateLimited) hlawful hrun
  refine ⟨q, hrun, htracked.arrived, fun entry hentry => ?_, htracked.done, htracked.rejected⟩
  obtain ⟨request, hrequest, hbacked⟩ := htracked.sound.backed.backed entry hentry
  obtain ⟨original, horiginal, hcontinues, hlt, haligned⟩ :=
    htracked.held request (List.mem_of_getElem? hrequest)
  have howner : entry.owner = original.id :=
    (congrArg SubmissionEntry.owner hbacked).trans hcontinues.id
  have hresumes :=
    (htracked.built original horiginal).resumes hcontinues hlt haligned entry.userData
  rw [← hbacked, ← howner] at hresumes
  exact ⟨original, horiginal, hresumes⟩

/-- A write of two pages, of which the kernel transfers the first. -/
def shortWrite : List QueueAction :=
  let choice : LoopChoice := ⟨false, 1, .ok, false⟩
  [.arrive ⟨0, false, 8192, 0, 8192, true⟩] ++ List.replicate 6 (.advance choice) ++
    [.complete ⟨0, 0, 0, 8192, 0⟩ 4096] ++ List.replicate 2 (.advance choice)

/-- The second page of the write is submitted again, at its place in the file. -/
theorem run_short_completions_second_page :
    ∃ q, run step (new 1 false) shortWrite = .ok q ∧ q.entries = [⟨0, 4096, 4096, 8192, 0⟩] ∧
      ∀ entry ∈ q.entries, ∃ original ∈ (completionHistory 1 false shortWrite).arrivals,
        entry.Resumes (.write ⟨4096, List.replicate 4096 1⟩ ⟨8192, List.replicate 4096 0⟩) original
          ((completionHistory 1 false shortWrite).counted entry.owner) := by
  have hlawful : ∀ action ∈ shortWrite, action.Lawful fun _ =>
      .write ⟨4096, List.replicate 4096 1⟩ ⟨8192, List.replicate 4096 0⟩ := by
    intro action haction
    simp only [shortWrite, List.mem_append, List.mem_singleton, List.mem_replicate] at haction
    rcases haction with ((rfl | ⟨-, rfl⟩) | rfl) | ⟨-, rfl⟩
    · refine ⟨?_, 0, rfl⟩
      simp only [IoBuffers.Spans, Bytes.length, List.length_replicate]
    · trivial
    · show (4096 : Int) ≤ _
      decide
    · trivial
  obtain ⟨q, hrun, -, hentries, -⟩ := run_short_completions _ 1 false hlawful
  refine ⟨q, hrun, ?_, hentries⟩
  cases hrun
  rfl

end IoQueue

end Feuer.Uring
