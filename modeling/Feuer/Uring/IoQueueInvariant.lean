import Feuer.Lib.ListLemmas
import Feuer.Uring.IoQueue
import Mathlib.Data.List.Nodup
import Mathlib.Data.List.Perm.Subperm

/-!
# What holds of the I/O queue in every run

`Backed` is the safety of the kernel's pointers: every entry that is queued, outstanding or
completed belongs to the request in its position, and every request has exactly one such entry.
`Ordered` follows the requests from the channel to the kernel, and `Accounts` their answers. The
steps of the loop and of its environment keep all three.
-/

namespace Feuer.Uring

open Lib

/-! ## Positions and entries -/

/-- The request array and the entries of the ring and the kernel, in any order: each entry belongs
to the request in its position, and each request has one entry. -/
structure Backed (positions : List (Option IoRequest)) (entries : List SubmissionEntry) : Prop where
  backed : ∀ entry ∈ entries, ∃ request, positions[entry.userData]? = some (some request) ∧
    entry = request.submissionEntry entry.userData
  distinct : (entries.map (·.userData)).Nodup
  owners : (entries.map (·.owner)).Nodup
  covered : ∀ index request, positions[index]? = some (some request) →
    index ∈ entries.map (·.userData)

namespace Backed

variable {positions : List (Option IoRequest)} {entries rest : List SubmissionEntry}
  {entry : SubmissionEntry} {index : Nat} {request : IoRequest}

/-- The order of the entries does not matter. -/
theorem perm (h : Backed positions entries) (hperm : entries.Perm rest) :
    Backed positions rest where
  backed other hother := h.backed other (hperm.mem_iff.mpr hother)
  distinct := (hperm.map _).nodup_iff.mp h.distinct
  owners := (hperm.map _).nodup_iff.mp h.owners
  covered other found hfound := (hperm.map _).mem_iff.mp (h.covered other found hfound)

/-- The entry of a request in a position. -/
theorem entry_mem (h : Backed positions entries)
    (hrequest : positions[index]? = some (some request)) :
    request.submissionEntry index ∈ entries := by
  obtain ⟨entry, hentry, rfl⟩ := List.mem_map.mp (h.covered index request hrequest)
  obtain ⟨found, hfound, heq⟩ := h.backed entry hentry
  cases hrequest.symm.trans hfound
  rwa [← heq]

/-- A request leaves its position with its entry. -/
theorem clear (h : Backed positions (entry :: rest)) :
    Backed (positions.set entry.userData none) rest := by
  obtain ⟨hfresh, hdistinct⟩ := List.nodup_cons.mp h.distinct
  refine ⟨fun other hother => ?_, hdistinct, (List.nodup_cons.mp h.owners).2,
    fun other found hfound => ?_⟩
  · have hne : entry.userData ≠ other.userData := by
      intro heq
      refine hfresh ?_
      simp only [heq]
      exact List.mem_map_of_mem hother
    rw [List.getElem?_set_ne hne]
    exact h.backed other (List.mem_cons_of_mem _ hother)
  · rw [List.getElem?_set] at hfound
    split at hfound
    next => split at hfound <;> cases hfound
    next hne =>
      rcases List.mem_cons.mp (h.covered other found hfound) with heq | hmem
      · exact absurd heq.symm hne
      · exact hmem

/-- A request enters an empty position with an entry. -/
theorem fill (h : Backed positions rest) (hempty : positions[index]? = some none)
    (howner : request.id ∉ rest.map (·.owner)) :
    Backed (positions.set index (some request)) (request.submissionEntry index :: rest) := by
  have hlt := (List.getElem?_eq_some_iff.mp hempty).1
  have hne : ∀ other ∈ rest, index ≠ other.userData := by
    rintro other hother rfl
    obtain ⟨found, hfound, -⟩ := h.backed other hother
    rw [hempty] at hfound
    cases hfound
  refine ⟨fun other hother => ?_, ?_, ?_, fun other found hfound => ?_⟩
  · rcases List.mem_cons.mp hother with rfl | hother
    · exact ⟨request, List.getElem?_set_self hlt, rfl⟩
    · rw [List.getElem?_set_ne (hne other hother)]
      exact h.backed other hother
  · refine List.nodup_cons.mpr ⟨fun hmem => ?_, h.distinct⟩
    obtain ⟨other, hother, heq⟩ := List.mem_map.mp hmem
    exact hne other hother heq.symm
  · exact List.nodup_cons.mpr ⟨howner, h.owners⟩
  · rw [List.getElem?_set] at hfound
    split at hfound
    next heq => simp [heq, IoRequest.submissionEntry]
    next => exact List.mem_cons_of_mem _ (h.covered other found hfound)

/-- An empty position leaves room for one more entry. -/
theorem length_lt (h : Backed positions entries) (hempty : positions[index]? = some none) :
    entries.length < positions.length := by
  have hlt := (List.getElem?_eq_some_iff.mp hempty).1
  have hfresh : index ∉ entries.map (·.userData) := by
    intro hmem
    obtain ⟨other, hother, heq⟩ := List.mem_map.mp hmem
    obtain ⟨found, hfound, -⟩ := h.backed other hother
    rw [heq, hempty] at hfound
    cases hfound
  have hsubset : index :: entries.map (·.userData) ⊆ List.range positions.length := by
    intro other hother
    rw [List.mem_range]
    rcases List.mem_cons.mp hother with rfl | hother
    · exact hlt
    · obtain ⟨found, hfound, rfl⟩ := List.mem_map.mp hother
      obtain ⟨request, hrequest, -⟩ := h.backed found hfound
      exact (List.getElem?_eq_some_iff.mp hrequest).1
  have hnodup : (index :: entries.map (·.userData)).Nodup :=
    List.nodup_cons.mpr ⟨hfresh, h.distinct⟩
  have hlength := (hnodup.subperm hsubset).length_le
  rw [List.length_cons, List.length_map, List.length_range] at hlength
  exact hlength

/-- Taking the replies out of the array moves no request. -/
theorem leak (h : Backed positions entries) :
    Backed (positions.map (Option.map fun request => { request with reply := false })) entries where
  backed other hother := by
    obtain ⟨request, hrequest, heq⟩ := h.backed other hother
    exact ⟨{ request with reply := false }, by simp [hrequest], heq⟩
  distinct := h.distinct
  owners := h.owners
  covered other found hfound := by
    rw [List.getElem?_map, Option.map_eq_some_iff] at hfound
    obtain ⟨position, hposition, heq⟩ := hfound
    obtain ⟨request, rfl, -⟩ := Option.map_eq_some_iff.mp heq
    exact h.covered other request hposition

end Backed

/-! ## Answers -/

/-- One for a position that holds the request with its reply. -/
def replyOf (id : Nat) : Option IoRequest → Nat
  | some request => if request.reply = true ∧ request.id = id then 1 else 0
  | none => 0

/-- The number of positions that hold the request with its reply. -/
def replies (id : Nat) (positions : List (Option IoRequest)) : Nat :=
  (positions.map (replyOf id)).sum

/-- The open replies change with one position. -/
theorem replies_set {positions : List (Option IoRequest)} {index : Nat}
    {old : Option IoRequest} (id : Nat) (new : Option IoRequest)
    (hold : positions[index]? = some old) :
    replies id (positions.set index new) + replyOf id old =
      replyOf id new + replies id positions := by
  rw [List.set_eq_modify]
  exact sum_map_modify (fun _ => new) (replyOf id) hold

/-- An open reply is at some position. -/
theorem exists_of_replies {id : Nat} {positions : List (Option IoRequest)}
    (h : replies id positions ≠ 0) :
    ∃ (index : Nat) (request : IoRequest), positions[index]? = some (some request) ∧ request.reply ∧
      request.id = id := by
  by_contra hnone
  refine h (List.sum_eq_zero fun weight hweight => ?_)
  obtain ⟨position, hposition, rfl⟩ := List.mem_map.mp hweight
  cases position with
  | none => rfl
  | some request =>
      obtain ⟨index, hindex⟩ := List.mem_iff_getElem?.mp hposition
      exact if_neg fun hreply => hnone ⟨index, request, hindex, hreply⟩

/-- Every placed request is answered once, or holds its reply in one position. -/
def Accounts (positions : List (Option IoRequest)) (placed : List Nat)
    (answers : List (Nat × IoAnswer)) : Prop :=
  ∀ id, (answers.map Prod.fst).count id + replies id positions = placed.count id

/-- Leaking the request array answers every request in it. -/
theorem leak_requests_spec {positions : List (Option IoRequest)}
    (hreply : ∀ request, some request ∈ positions → request.reply = true) :
    ∃ leaked answers, IoQueue.leakRequests positions = .ok (leaked, answers) ∧
      leaked = positions.map (Option.map fun request => { request with reply := false }) ∧
      (∀ id, (answers.map Prod.fst).count id = replies id positions) ∧
      ∀ answer ∈ answers, answer.2 = .stopped := by
  induction positions with
  | nil => exact ⟨[], [], rfl, rfl, fun _ => rfl, by simp⟩
  | cons first rest ih =>
      obtain ⟨leaked, answers, hleak, hleaked, hcount, hstopped⟩ :=
        ih fun request hrequest => hreply request (List.mem_cons_of_mem _ hrequest)
      cases first with
      | none =>
          refine ⟨none :: leaked, answers, by simp [IoQueue.leakRequests, hleak], by simp [hleaked],
            fun id => ?_, hstopped⟩
          rw [hcount id]
          simp [replies, replyOf]
      | some request =>
          have htrue := hreply request List.mem_cons_self
          refine ⟨some { request with reply := false } :: leaked, (request.id, .stopped) :: answers,
            by simp [IoQueue.leakRequests, hleak, htrue], by simp [hleaked], fun id => ?_,
            List.forall_mem_cons.mpr ⟨rfl, hstopped⟩⟩
          rw [List.map_cons, List.count_cons, hcount id]
          simp only [replies, replyOf, List.map_cons, List.sum_cons, htrue, true_and, beq_iff_eq]
          omega

/-- A leaked array has no replies. -/
theorem replies_leaked (id : Nat) (positions : List (Option IoRequest)) :
    replies id (positions.map (Option.map fun request => { request with reply := false })) = 0 := by
  induction positions with
  | nil => rfl
  | cons first rest ih =>
      simp only [replies, List.map_cons, List.sum_cons] at ih ⊢
      cases first with
      | none => simpa [replyOf] using ih
      | some request => simpa [replyOf] using ih

/-! ## The way through the queue -/

/-- The requests on their way from the channel to the kernel. -/
structure Ordered (arrived taken withdrawn placed submitted cancelled : List Nat)
    (receiver : List IoRequest) (queued : List SubmissionEntry) : Prop where
  arrivals : arrived = taken ++ receiver.map (·.id)
  distinct : arrived.Nodup
  placed_eq : placed = taken.filter (· ∉ withdrawn)
  cancelled_sub : ∀ id ∈ cancelled, id ∈ arrived
  withdrawn_sub : ∀ id ∈ withdrawn, id ∈ cancelled
  waiting : ∀ request ∈ receiver, request.reply = true ∧
    (request.id ∈ cancelled → request.id ∈ withdrawn)
  /-- The requests that wait for their first acceptance follow those that had it. -/
  submitted_eq : submitted ++ (queued.map (·.owner)).filter (· ∉ submitted) = placed

namespace Ordered

variable {arrived taken withdrawn placed submitted cancelled : List Nat}
  {receiver : List IoRequest} {queued : List SubmissionEntry}
  (h : Ordered arrived taken withdrawn placed submitted cancelled receiver queued)
include h

/-- A placed request was taken from the channel. -/
theorem placed_sub {id : Nat} (hid : id ∈ placed) : id ∈ taken := by
  rw [h.placed_eq] at hid
  exact (List.mem_filter.mp hid).1

/-- A request is placed once. -/
theorem placed_nodup : placed.Nodup := by
  have hdistinct := h.distinct
  rw [h.arrivals, List.nodup_append] at hdistinct
  rw [h.placed_eq]
  exact hdistinct.1.filter _

/-- A submitted request was placed. -/
theorem submitted_sub {id : Nat} (hid : id ∈ submitted) : id ∈ placed := by
  rw [← h.submitted_eq]
  exact List.mem_append_left _ hid

/-- A queued entry belongs to a placed request. -/
theorem queued_sub {entry : SubmissionEntry} (hentry : entry ∈ queued) : entry.owner ∈ placed := by
  rw [← h.submitted_eq, List.mem_append]
  by_cases hsubmitted : entry.owner ∈ submitted
  · exact .inl hsubmitted
  · exact .inr (List.mem_filter.mpr ⟨List.mem_map_of_mem hentry, by simpa using hsubmitted⟩)

end Ordered

/-! ## The queue -/

namespace IoQueue

/-- The entries that the kernel accepted and the loop has not handled. -/
def accepted (q : IoQueue) : List SubmissionEntry := q.outstanding ++ q.completionQueue.map Prod.fst

/-- The entries queued in the ring, outstanding in the kernel, or completed and not handled. -/
def entries (q : IoQueue) : List SubmissionEntry := q.submissionQueue ++ q.accepted

/-- The invariant of the queue. -/
structure Sound (q : IoQueue) : Prop where
  backed : Backed q.requestsAwaitingCompletion q.entries
  started : ∀ entry ∈ q.accepted, entry.owner ∈ q.submitted
  accounts : Accounts q.requestsAwaitingCompletion q.placed q.answers
  replying : q.phase ≠ .stopped → ∀ request, some request ∈ q.requestsAwaitingCompletion →
    request.reply = true
  silent : q.phase = .stopped → ∀ id, replies id q.requestsAwaitingCompletion = 0
  ordered : Ordered q.arrived q.taken q.withdrawn q.placed q.submitted q.cancelled q.receiver
    q.submissionQueue
  receiving : ∀ index, q.phase = .receiving index →
    q.requestsAwaitingCompletion[index]? = some none
  returned : q.phase = .returned → q.closed = true ∧ q.receiver = [] ∧
    ∀ position ∈ q.requestsAwaitingCompletion, position = none

variable {q : IoQueue}

/-- A new queue is sound. -/
theorem Sound.new (maxInFlight : Nat) (writeRateLimited : Bool) :
    (new maxInFlight writeRateLimited).Sound where
  backed := by
    refine ⟨by simp [IoQueue.new, entries, accepted], by simp [IoQueue.new, entries, accepted],
      by simp [IoQueue.new, entries, accepted], fun index request hrequest => ?_⟩
    have hmem := List.mem_of_getElem? hrequest
    simp [IoQueue.new] at hmem
  started := by simp [IoQueue.new, accepted]
  accounts id := by simp [IoQueue.new, replies, replyOf]
  replying _ request hrequest := by simp [IoQueue.new] at hrequest
  silent := by simp [IoQueue.new]
  ordered := ⟨rfl, by simp [IoQueue.new], rfl, by simp [IoQueue.new], by simp [IoQueue.new],
    by simp [IoQueue.new], rfl⟩
  receiving := by simp [IoQueue.new]
  returned := by simp [IoQueue.new]

/-- Every request with an entry was placed. -/
theorem Sound.owner_placed (h : q.Sound) {entry : SubmissionEntry} (hentry : entry ∈ q.entries) :
    entry.owner ∈ q.placed := by
  rcases List.mem_append.mp hentry with hqueued | haccepted
  · exact h.ordered.queued_sub hqueued
  · exact h.ordered.submitted_sub (h.started entry haccepted)

/-- A request in a position has no answer yet. -/
theorem Sound.not_answered (h : q.Sound) (hphase : q.phase ≠ .stopped) {request : IoRequest}
    (hrequest : some request ∈ q.requestsAwaitingCompletion) {answer : IoAnswer} :
    (request.id, answer) ∉ q.answers := by
  intro hanswer
  have haccounts := h.accounts request.id
  have hanswered : 0 < (q.answers.map Prod.fst).count request.id :=
    List.count_pos_iff.mpr (List.mem_map.mpr ⟨_, hanswer, rfl⟩)
  have hreplies : 0 < replies request.id q.requestsAwaitingCompletion := by
    have hreply := h.replying hphase request hrequest
    have hone : replyOf request.id (some request) = 1 := by simp [replyOf, hreply]
    obtain ⟨index, hindex⟩ := List.mem_iff_getElem?.mp hrequest
    have hcleared := replies_set request.id none hindex
    have hnone : replyOf request.id none = 0 := rfl
    omega
  have honce := List.nodup_iff_count_le_one.mp h.ordered.placed_nodup request.id
  omega

/-- A phase that promises nothing of its own. -/
def LoopPhase.plain : LoopPhase → Bool
  | .receiving _ | .returned | .stopped => false
  | _ => true

/-- The loop goes on to such a phase. -/
theorem Sound.goto (h : q.Sound) {phase : LoopPhase} (hfrom : q.phase ≠ .stopped)
    (hplain : LoopPhase.plain phase = true) : Sound { q with phase } where
  backed := h.backed
  started := h.started
  accounts := h.accounts
  replying _ := h.replying hfrom
  silent hstopped := by
    dsimp only at hstopped
    subst hstopped
    cases hplain
  ordered := h.ordered
  receiving index hindex := by
    dsimp only at hindex
    subst hindex
    cases hplain
  returned hreturned := by
    dsimp only at hreturned
    subst hreturned
    cases hplain

end IoQueue

end Feuer.Uring
