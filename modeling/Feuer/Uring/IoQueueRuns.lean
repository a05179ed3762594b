import Feuer.Uring.IoQueueSteps

/-!
# Runs of the I/O queue

Every step of the loop, of callers and of the kernel keeps the invariant of the queue, and the loop
does not panic. `IoQueue.run_safe` states what the memory safety of the ring and the callers rely
on.
-/

namespace Feuer.Uring

open Lib

namespace IoQueue

variable {q next : IoQueue} {action : QueueAction}

/-! ## Completions -/

section Completion

variable {entry : SubmissionEntry} {result : Int} {rest : List (SubmissionEntry × Int)}
  {request : IoRequest}

/-- What the kernel accepted was submitted, also after a completion was handled. -/
theorem Handles.started (hhandles : q.Handles entry result rest request) (h : q.Sound)
    {other : SubmissionEntry} (hother : other ∈ accepted { q with completionQueue := rest }) :
    other.owner ∈ q.submitted := by
  refine h.started other ?_
  simp only [accepted, hhandles.completions, List.map_cons, List.mem_append, List.mem_cons]
    at hother ⊢
  exact hother.imp_right .inr

/-- The final completion of a request is its answer. -/
theorem answered_sound (h : q.Sound) (hhandles : q.Handles entry result rest request)
    (answer : IoAnswer) : (q.answered entry.userData rest request.id answer).Sound := by
  have hphase := hhandles.phase
  refine ⟨(h.backed.perm (entries_perm hhandles.completions)).clear,
    fun other hother => hhandles.started h hother, fun id => ?_, fun _ other hother => ?_,
    fun hstopped => ?_, h.ordered, fun index hindex => ?_, fun hreturned => ?_⟩
  · have hset := replies_set id none hhandles.position
    have hcount := h.accounts id
    simp only [replyOf, hhandles.reply, true_and] at hset
    simp only [answered, List.map_append, List.map_cons, List.map_nil, List.count_append,
      List.count_cons, List.count_nil, beq_iff_eq]
    omega
  · rcases List.mem_or_eq_of_mem_set hother with hold | heq
    · exact h.replying (by simp [hphase]) other hold
    · cases heq
  · simp [answered, hphase] at hstopped
  · simp [answered, hphase] at hindex
  · simp [answered, hphase] at hreturned

/-- A short completion queues the rest of the request again. -/
theorem resubmitted_sound (h : q.Sound) (hhandles : q.Handles entry result rest request)
    (count : Nat) : (q.resubmitted entry.userData rest (request.moved count)).Sound := by
  have hphase := hhandles.phase
  have hlt := (List.getElem?_eq_some_iff.mp hhandles.position).1
  have howner : entry.owner = request.id := congrArg SubmissionEntry.owner hhandles.entry_eq
  have hbacked := h.backed.perm (entries_perm hhandles.completions)
  have hfresh : (request.moved count).id ∉
      (entries { q with completionQueue := rest }).map (·.owner) := by
    show request.id ∉ _
    rw [← howner]
    exact (List.nodup_cons.mp hbacked.owners).1
  have hfilled := hbacked.clear.fill (List.getElem?_set_self hlt) hfresh
  rw [List.set_set] at hfilled
  have hsubmitted : request.id ∈ q.submitted := by
    rw [← howner]
    refine h.started entry ?_
    simp [accepted, hhandles.completions]
  refine ⟨hfilled.perm ?_, fun other hother => hhandles.started h hother, fun id => ?_,
    fun _ other hother => ?_, fun hstopped => ?_, ⟨h.ordered.arrivals, h.ordered.distinct,
      h.ordered.placed_eq, h.ordered.cancelled_sub, h.ordered.withdrawn_sub, h.ordered.waiting, ?_⟩,
    fun index hindex => ?_, fun hreturned => ?_⟩
  · simp only [entries, resubmitted, List.append_assoc, List.singleton_append]
    exact List.perm_middle.symm
  · have hset := replies_set id (some (request.moved count)) hhandles.position
    have hcount := h.accounts id
    have hsame : replyOf id (some (request.moved count)) = replyOf id (some request) := rfl
    show (q.answers.map Prod.fst).count id +
      replies id (q.requestsAwaitingCompletion.set _ (some (request.moved count))) =
      q.placed.count id
    omega
  · rcases List.mem_or_eq_of_mem_set hother with hold | heq
    · exact h.replying (by simp [hphase]) other hold
    · cases heq
      exact hhandles.reply
  · simp [resubmitted, hphase] at hstopped
  · show q.submitted ++ ((q.submissionQueue ++ [_]).map SubmissionEntry.owner).filter
      (· ∉ q.submitted) = q.placed
    rw [← h.ordered.submitted_eq]
    simp [IoRequest.submissionEntry, IoRequest.moved, hsubmitted]
  · simp [resubmitted, hphase] at hindex
  · simp [resubmitted, hphase] at hreturned

end Completion

/-! ## Receiving -/

section Receiving

variable {index : Nat} {request : IoRequest} {rest : List IoRequest}

/-- The next request of the channel has not been taken before. -/
theorem Sound.next_fresh (h : q.Sound) (hreceiver : q.receiver = request :: rest) :
    request.id ∉ q.taken := by
  have hdistinct := h.ordered.distinct
  rw [h.ordered.arrivals, hreceiver, List.nodup_append] at hdistinct
  exact fun hmem => hdistinct.2.2 _ hmem request.id (by simp) rfl

/-- A cancelled request is discarded. -/
theorem discard_sound (h : q.Sound) (hphase : q.phase = .receiving index)
    (hreceiver : q.receiver = request :: rest) (hcancelled : request.id ∈ q.cancelled) :
    Sound { q with receiver := rest, taken := q.taken ++ [request.id] } := by
  have hordered := h.ordered
  have hwithdrawn := (hordered.waiting request (by simp [hreceiver])).2 hcancelled
  refine ⟨h.backed, h.started, h.accounts, h.replying, h.silent, ⟨?_, hordered.distinct, ?_,
    hordered.cancelled_sub, hordered.withdrawn_sub, fun other hother => ?_, hordered.submitted_eq⟩,
    h.receiving, fun hreturned => ?_⟩
  · rw [hordered.arrivals, hreceiver]
    simp
  · rw [hordered.placed_eq]
    simp [hwithdrawn]
  · exact hordered.waiting other (by simp [hreceiver, hother])
  · simp [hphase] at hreturned

/-- An uncancelled request is placed in an empty position and queued. -/
theorem placed_sound (h : q.Sound) (hphase : q.phase = .receiving index)
    (hreceiver : q.receiver = request :: rest) (hlive : request.id ∉ q.cancelled) :
    (q.placedAt index request rest).Sound := by
  have hordered := h.ordered
  have hempty := h.receiving index hphase
  have htaken := h.next_fresh hreceiver
  have hunplaced : request.id ∉ q.placed := fun hmem => htaken (hordered.placed_sub hmem)
  have hreply := (hordered.waiting request (by simp [hreceiver])).1
  have howner : request.id ∉ q.entries.map (·.owner) := by
    intro hmem
    obtain ⟨entry, hentry, heq⟩ := List.mem_map.mp hmem
    have hplaced := h.owner_placed hentry
    rw [heq] at hplaced
    exact hunplaced hplaced
  refine ⟨(h.backed.fill hempty howner).perm ?_, h.started, fun id => ?_, fun _ other hother => ?_,
    by simp [placedAt], ⟨?_, hordered.distinct, ?_, hordered.cancelled_sub, hordered.withdrawn_sub,
      fun other hother => ?_, ?_⟩, by simp [placedAt], by simp [placedAt]⟩
  · simp only [entries, placedAt, List.append_assoc, List.singleton_append]
    exact List.perm_middle.symm
  · have hset := replies_set id (some request) hempty
    have hcount := h.accounts id
    simp only [replyOf, hreply, true_and] at hset
    simp only [placedAt, List.count_append, List.count_cons, List.count_nil, beq_iff_eq]
    omega
  · rcases List.mem_or_eq_of_mem_set hother with hold | heq
    · exact h.replying (by simp [hphase]) other hold
    · cases heq
      exact hreply
  · show q.arrived = q.taken ++ [request.id] ++ rest.map (·.id)
    rw [hordered.arrivals, hreceiver]
    simp
  · have hkept : request.id ∉ q.withdrawn := fun hmem => hlive (hordered.withdrawn_sub _ hmem)
    show q.placed ++ [request.id] = (q.taken ++ [request.id]).filter (· ∉ q.withdrawn)
    rw [hordered.placed_eq]
    simp [hkept]
  · exact hordered.waiting other (by simp only [hreceiver]; exact List.mem_cons_of_mem _ hother)
  · have hnew : request.id ∉ q.submitted := fun hmem => hunplaced (hordered.submitted_sub hmem)
    show q.submitted ++ ((q.submissionQueue ++ [_]).map SubmissionEntry.owner).filter
      (· ∉ q.submitted) = q.placed ++ [request.id]
    rw [← hordered.submitted_eq]
    simp [IoRequest.submissionEntry, hnew]

end Receiving

/-! ## Submitting -/

/-- Accepting a part of the queue moves its entries to the kernel. -/
theorem accept_sound (h : q.Sound) (hphase : q.phase = .submitting) (count : Nat) :
    (q.accept count).Sound := by
  have hordered := h.ordered
  have hsplit := List.take_append_drop count q.submissionQueue
  have hperm : q.entries.Perm (q.accept count).entries := by
    simp only [entries, accepted, accept]
    nth_rewrite 1 [← hsplit]
    rw [List.append_assoc, List.append_assoc]
    refine (List.perm_append_comm_assoc _ _ _).trans (List.Perm.append_left _ ?_)
    exact List.perm_append_comm_assoc _ _ _
  refine ⟨h.backed.perm hperm, fun entry hentry => ?_, h.accounts, h.replying, h.silent,
    ⟨hordered.arrivals, hordered.distinct, hordered.placed_eq, hordered.cancelled_sub,
      hordered.withdrawn_sub, hordered.waiting, ?_⟩, h.receiving, fun hreturned => ?_⟩
  · simp only [accepted, accept, List.mem_append] at hentry ⊢
    rcases hentry with (hold | hnew) | hcompleted
    · exact .inl (h.started entry (List.mem_append_left _ hold))
    · by_cases hsubmitted : entry.owner ∈ q.submitted
      · exact .inl hsubmitted
      · exact .inr (List.mem_filter.mpr ⟨List.mem_map_of_mem hnew, by simpa using hsubmitted⟩)
    · exact .inl (h.started entry (List.mem_append_right _ hcompleted))
  · -- The entries that stay belong to other requests than those accepted.
    have hnodup := h.backed.owners
    simp only [entries, List.map_append] at hnodup
    rw [← hsplit, List.map_append, List.nodup_append, List.nodup_append] at hnodup
    have hapart := hnodup.1.2.2
    have hold := hordered.submitted_eq
    rw [← hsplit, List.map_append, List.filter_append] at hold
    simp only [accept]
    rw [← hold, List.append_assoc]
    refine congrArg _ (congrArg _ (List.filter_congr fun owner howner => ?_))
    have hother : owner ∉ (q.submissionQueue.take count).map (·.owner) := fun hmem =>
      hapart owner hmem owner howner rfl
    have hsame : owner ∈ q.submitted ++
        ((q.submissionQueue.take count).map (·.owner)).filter (· ∉ q.submitted) ↔
          owner ∈ q.submitted := by
      rw [List.mem_append, List.mem_filter]
      exact ⟨fun hmem => hmem.resolve_right fun hnew => hother hnew.1, .inl⟩
    simp only [hsame]
  · have hsame : q.phase = .returned := hreturned
    rw [hphase] at hsame
    cases hsame

/-- The loop ends with an error: the callers are told, and the request array is leaked. -/
theorem leaked_sound (h : q.Sound) {answers : List (Nat × IoAnswer)}
    (hcount : ∀ id, (answers.map Prod.fst).count id = replies id q.requestsAwaitingCompletion) :
    (q.leaked answers).Sound := by
  refine ⟨h.backed.leak, h.started, fun id => ?_, by simp [leaked],
    fun _ id => replies_leaked id _, h.ordered, by simp [leaked], by simp [leaked]⟩
  have hold := h.accounts id
  have hnone := replies_leaked id q.requestsAwaitingCompletion
  have hanswers := hcount id
  simp only [leaked, List.map_append, List.count_append]
  omega

/-! ## Callers and the kernel -/

/-- A request arrives in the channel. -/
theorem arrive_sound {request : IoRequest} (h : q.Sound) (hopen : q.closed = false)
    (hfresh : request.id ∉ q.arrived) (hreply : request.reply = true) :
    Sound { q with receiver := q.receiver ++ [request], arrived := q.arrived ++ [request.id] } := by
  have hordered := h.ordered
  refine ⟨h.backed, h.started, h.accounts, h.replying, h.silent, ⟨?_, ?_, hordered.placed_eq,
    fun id hid => List.mem_append_left _ (hordered.cancelled_sub id hid), hordered.withdrawn_sub,
    fun other hother => ?_, hordered.submitted_eq⟩, h.receiving, fun hreturned => ?_⟩
  · rw [hordered.arrivals]
    simp
  · rw [List.nodup_append]
    refine ⟨hordered.distinct, by simp, fun other hother last hlast heq => hfresh ?_⟩
    have hid : last = request.id := by simpa using hlast
    rwa [← hid, ← heq]
  · rcases List.mem_append.mp hother with hold | hnew
    · exact hordered.waiting other hold
    · obtain rfl : other = request := by simpa using hnew
      exact ⟨hreply, fun hcancelled => absurd (hordered.cancelled_sub _ hcancelled) hfresh⟩
  · have hclosed := (h.returned hreturned).1
    rw [hopen] at hclosed
    cases hclosed

/-- A caller that waits no longer leaves its request in the queue. -/
theorem cancel_sound {id : Nat} (h : q.Sound) (harrived : id ∈ q.arrived) :
    Sound { q with
      cancelled := q.cancelled ++ [id]
      withdrawn := if id ∈ q.receiver.map (·.id) then q.withdrawn ++ [id] else q.withdrawn } := by
  have hordered := h.ordered
  refine ⟨h.backed, h.started, h.accounts, h.replying, h.silent,
    ⟨hordered.arrivals, hordered.distinct,
    ?_, fun other hother => ?_, fun other hother => ?_, fun request hrequest => ?_,
    hordered.submitted_eq⟩, h.receiving, h.returned⟩
  · rw [hordered.placed_eq]
    refine List.filter_congr fun other hother => ?_
    split
    next hwaiting =>
      -- A request in the channel was not taken.
      have hdistinct := hordered.distinct
      rw [hordered.arrivals, List.nodup_append] at hdistinct
      have hne : other ≠ id := fun heq => hdistinct.2.2 other hother id hwaiting heq
      simp [hne]
    next => rfl
  · rcases List.mem_append.mp hother with hold | hnew
    · exact hordered.cancelled_sub other hold
    · obtain rfl : other = id := by simpa using hnew
      exact harrived
  · split at hother
    next =>
      rcases List.mem_append.mp hother with hold | hnew
      · exact List.mem_append_left _ (hordered.withdrawn_sub other hold)
      · exact List.mem_append_right _ hnew
    next => exact List.mem_append_left _ (hordered.withdrawn_sub other hother)
  · have hwaiting := hordered.waiting request hrequest
    refine ⟨hwaiting.1, fun hcancelled => ?_⟩
    rcases List.mem_append.mp hcancelled with hold | hnew
    · have hmem := hwaiting.2 hold
      split
      next => exact List.mem_append_left _ hmem
      next => exact hmem
    · have hid : request.id = id := by simpa using hnew
      rw [if_pos (hid ▸ List.mem_map_of_mem hrequest)]
      exact List.mem_append_right _ hnew

/-- The kernel moves an entry to the completion queue. -/
theorem complete_sound {entry : SubmissionEntry} {result : Int} (h : q.Sound)
    (hentry : entry ∈ q.outstanding) :
    Sound { q with
      outstanding := q.outstanding.erase entry
      completionQueue := q.completionQueue ++ [(entry, result)] } := by
  have hperm : q.accepted.Perm (accepted { q with
      outstanding := q.outstanding.erase entry
      completionQueue := q.completionQueue ++ [(entry, result)] }) := by
    simp only [accepted, List.map_append, List.map_cons, List.map_nil]
    refine ((List.perm_cons_erase hentry).append_right _).trans ?_
    rw [← List.append_assoc]
    exact (List.perm_append_singleton entry _).symm
  exact ⟨h.backed.perm (hperm.append_left _), fun other hother =>
    h.started other (hperm.mem_iff.mpr hother), h.accounts, h.replying, h.silent, h.ordered,
    h.receiving, h.returned⟩

/-! ## Runs -/

/-- Every step keeps the invariant. -/
theorem Change.sound (hchange : Change q action next) (h : q.Sound) : next.Sound := by
  cases hchange with
  | ignore => exact h
  | arrive request hopen hfresh hreply => exact arrive_sound h hopen hfresh hreply
  | cancel id harrived => exact cancel_sound h harrived
  | disconnect =>
      exact ⟨h.backed, h.started, h.accounts, h.replying, h.silent, h.ordered, h.receiving,
        fun hreturned => ⟨rfl, (h.returned hreturned).2⟩⟩
  | complete entry result hentry => exact complete_sound h hentry
  | answer choice entry result rest request answer hhandles =>
      exact answered_sound h hhandles answer
  | resubmit choice entry result rest request after hhandles hserve =>
      obtain ⟨rfl, -⟩ := IoRequest.serve_resubmitted hserve
      exact resubmitted_sound h hhandles _
  | goto choice phase hrunning hhandled hplain => exact h.goto hrunning hplain
  | receive choice index hphase hempty =>
      refine ⟨h.backed, h.started, h.accounts, fun _ => h.replying (by simp [hphase]), by simp,
        h.ordered, fun other hother => ?_, by simp⟩
      cases hother
      exact hempty
  | discard choice index request rest hphase hreceiver hcancelled =>
      exact discard_sound h hphase hreceiver hcancelled
  | place choice index request rest hphase hreceiver hlive =>
      exact placed_sound h hphase hreceiver hlive
  | finish choice hphase hclosed hreceiver hempty =>
      exact ⟨h.backed, h.started, h.accounts, fun _ => h.replying (by simp [hphase]), by simp,
        h.ordered, by simp, fun _ => ⟨hclosed, hreceiver, hempty⟩⟩
  | submit choice phase hphase hplain =>
      exact (accept_sound h hphase choice.accepted).goto (by simp [accept, hphase]) hplain
  | leak choice answers hphase hcount => exact leaked_sound h hcount

/-- Every step keeps the queue sound, and none panics. -/
theorem step_sound (h : q.Sound) (action : QueueAction) :
    Outcome (fun _ => False) Sound (q.step action) := by
  obtain ⟨next, hnext, hchange⟩ := step_change h action
  rw [hnext]
  exact hchange.sound h

/-- What the kernel's pointers and the callers rely on. -/
structure Safe (q : IoQueue) : Prop where
  /-- Each position has at most one entry in the ring or the kernel. -/
  single : (q.entries.map (·.userData)).Nodup
  /-- Each request has at most one of them. -/
  sole : (q.entries.map (·.owner)).Nodup
  /-- A request stays in its position while one of its entries is queued, outstanding, or completed
  and not handled. -/
  held : ∀ entry ∈ q.entries, ∃ request,
    q.requestsAwaitingCompletion[entry.userData]? = some (some request) ∧
      entry = request.submissionEntry entry.userData
  /-- A placed request is answered at most once, and exactly once when the loop has ended. -/
  answeredOnce : ∀ id ∈ q.placed, (q.answers.map Prod.fst).count id ≤ 1 ∧
    (q.phase = .returned ∨ q.phase = .stopped → (q.answers.map Prod.fst).count id = 1)
  /-- A placed request that is not answered waits in a position, and its entry there is queued,
  outstanding, or completed and not handled. -/
  unanswered : ∀ id ∈ q.placed, id ∉ q.answers.map Prod.fst →
    ∃ (index : Nat) (request : IoRequest),
      q.requestsAwaitingCompletion[index]? = some (some request) ∧ request.id = id ∧
      request.reply = true ∧ request.submissionEntry index ∈ q.entries
  /-- An answered request has left its position, unless the failure path leaked it there. -/
  answeredLeft : ∀ request, some request ∈ q.requestsAwaitingCompletion →
    request.id ∈ q.answers.map Prod.fst → q.phase = .stopped
  /-- The next completion finds its request. It answers the request when it is the final one, and
  queues what is left otherwise. -/
  handled : q.phase = .draining → ∀ entry result rest,
    q.completionQueue = (entry, result) :: rest → ∃ request,
      q.requestsAwaitingCompletion[entry.userData]? = some (some request) ∧
      request.id = entry.owner ∧
      handleIoCompletion { q with completionQueue := rest } entry.userData result =
        match request.serve (decide (request.id ∈ q.cancelled)) result with
        | .answered answer => .ok (q.answered entry.userData rest request.id answer)
        | .resubmitted after => .ok (q.resubmitted entry.userData rest after)
  /-- Only placed requests are answered. -/
  answeredPlaced : ∀ id ∉ q.placed, id ∉ q.answers.map Prod.fst
  /-- A request whose caller cancelled before it was taken is never placed or submitted. -/
  neverSubmitted : ∀ id ∈ q.withdrawn, id ∉ q.placed ∧ id ∉ q.submitted ∧
    id ∉ q.entries.map (·.owner)
  /-- The others are first submitted in the order of the channel. -/
  inOrder : q.arrived = q.taken ++ q.receiver.map (·.id) ∧
    q.placed = q.taken.filter (· ∉ q.withdrawn) ∧ q.submitted <+: q.placed
  /-- The loop returns only when everything is done. -/
  drained : q.phase = .returned → q.closed = true ∧ q.receiver = [] ∧
    ∀ position ∈ q.requestsAwaitingCompletion, position = none

/-- A sound queue is safe. -/
theorem Sound.safe (h : q.Sound) : q.Safe where
  single := h.backed.distinct
  sole := h.backed.owners
  held := h.backed.backed
  answeredOnce id hid := by
    have hcount := h.accounts id
    have hone : q.placed.count id = 1 := List.count_eq_one_of_mem h.ordered.placed_nodup hid
    refine ⟨by omega, fun hended => ?_⟩
    have hzero : replies id q.requestsAwaitingCompletion = 0 := by
      rcases hended with hreturned | hstopped
      · by_contra hsome
        obtain ⟨index, request, hrequest, -⟩ := exists_of_replies hsome
        cases (h.returned hreturned).2.2 _ (List.mem_of_getElem? hrequest)
      · exact h.silent hstopped id
    omega
  unanswered id hid hnone := by
    have hcount := h.accounts id
    rw [List.count_eq_one_of_mem h.ordered.placed_nodup hid, List.count_eq_zero_of_not_mem hnone,
      Nat.zero_add] at hcount
    obtain ⟨index, request, hrequest, hreply, rfl⟩ := exists_of_replies (hcount ▸ Nat.one_ne_zero)
    exact ⟨index, request, hrequest, rfl, hreply, h.backed.entry_mem hrequest⟩
  answeredLeft request hrequest hanswered := by
    by_contra hrunning
    obtain ⟨answer, hanswer, heq⟩ := List.mem_map.mp hanswered
    exact @Sound.not_answered q h hrunning request hrequest answer.2 (by rwa [← heq])
  handled hphase entry result rest hcompletions := by
    obtain ⟨request, hhandles⟩ := h.handles hphase hcompletions
    exact ⟨request, hhandles.position, (congrArg SubmissionEntry.owner hhandles.entry_eq).symm,
      hhandles.result h⟩
  answeredPlaced id hid := by
    have hcount := h.accounts id
    rw [List.count_eq_zero_of_not_mem hid] at hcount
    exact List.count_eq_zero.mp (by omega)
  neverSubmitted id hid := by
    have hunplaced : id ∉ q.placed := by
      rw [h.ordered.placed_eq]
      simp [hid]
    refine ⟨hunplaced, fun hmem => hunplaced (h.ordered.submitted_sub hmem), fun hmem => ?_⟩
    obtain ⟨entry, hentry, rfl⟩ := List.mem_map.mp hmem
    exact hunplaced (h.owner_placed hentry)
  inOrder := ⟨h.ordered.arrivals, h.ordered.placed_eq, ⟨_, h.ordered.submitted_eq⟩⟩
  drained := h.returned

/-- Whatever callers and the kernel do, the loop does not panic: no completion finds an empty
position and the ring never overflows. Every state that a run reaches is safe. -/
theorem run_safe (maxInFlight : Nat) (writeRateLimited : Bool) (actions : List QueueAction) :
    ∃ q, run step (new maxInFlight writeRateLimited) actions = .ok q ∧ q.Safe := by
  have houtcome : Outcome (fun _ => False) Sound
      (run step (new maxInFlight writeRateLimited) actions) :=
    run_outcome (fun _ => True) (fun _ action h _ => step_sound h action)
      (Sound.new maxInFlight writeRateLimited) fun _ _ => trivial
  obtain ⟨q, hrun, hsound⟩ := houtcome.exists_ok
  exact ⟨q, hrun, hsound.safe⟩

end IoQueue

end Feuer.Uring
