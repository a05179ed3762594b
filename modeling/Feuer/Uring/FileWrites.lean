import Feuer.Lib.Transfer
import Feuer.Uring.ShortCompletions

/-!
# Writing a range of the file

`DataFile::write_padded` with the loop of `WriteQueue::write_padded`, after `file.rs` and
`uring.rs`: the bytes are written in requests of at most 1 MiB, one after the other, each with zeros
after the end of the bytes. The kernel completes a request in part or as a whole and leaves what it
did not count in any state; other writers act between any two steps.
-/

namespace Feuer.Uring

open Lib

/-- The bytes of the file, by offset. -/
abbrev FileBytes := Nat → UInt8

/-- An error of a call on the file. -/
inductive FileError where
  | rangeExceedsCapacity
  /-- No memory for an aligned buffer. -/
  | allocation
  | request (error : IoError)
  /-- `"io_uring queue stopped"`. -/
  | stopped
  deriving DecidableEq, Repr

/-- What a caller makes of the answer to its request. -/
def IoAnswer.result : IoAnswer → Except FileError Unit
  | .done => .ok ()
  | .failed error => .error (.request error)
  | .stopped => .error .stopped

/-- The bytes that the kernel is to write. -/
def Submission.data : Submission → List UInt8
  | .read .. => []
  | .writev iovecs => iovecs.flatMap Bytes.contents

/-- A call of `write_padded`. -/
structure WriteCall where
  /-- The capacity of the file. -/
  capacity : Nat
  offset : Nat
  length : Nat
  bytes : Bytes

/-- The file and how far a call is. -/
structure WriteState where
  file : FileBytes
  /-- Where the next request starts. -/
  start : Nat
  inFlight : Option (IoBuffers × IoRequest)
  outcome : Option (Except FileError Unit)

inductive WriteAction where
  /-- The next turn of the loop; `allocated` is the address of the buffer for a copy. -/
  | submit (allocated : Option Nat)
  /-- The kernel completes the request. -/
  | complete (result : Int) (torn : FileBytes)
  /-- The caller waits no longer: the queue has stopped, or the future is dropped. -/
  | stop
  /-- Another writer writes a byte. -/
  | other (position : Nat) (value : UInt8)

namespace WriteCall

/-- `check_range_fits_file`, and the start of the loop. -/
def start (call : WriteCall) (file : FileBytes) : WriteState where
  file
  start := 0
  inFlight := none
  outcome :=
    if call.offset + call.length ≤ call.capacity then none else some (.error .rangeExceedsCapacity)

/-- The length of the request at `start`. -/
def requestLength (call : WriteCall) (start : Nat) : Nat :=
  min (call.length - start) maxIoRequestBytes

/-- A turn of the loop up to the wait for the answer. -/
def submit (call : WriteCall) (s : WriteState) (allocated : Option Nat) :
    Except CallerPanic WriteState :=
  if s.start < call.length then do
    let requestLength := call.requestLength s.start
    let stop := min (s.start + requestLength) call.bytes.length
    let bytes ← call.bytes.slice (min s.start stop) stop
    let buffers ← IoBuffers.fromWriteBytes requestLength bytes allocated
    match buffers with
    | none => pure { s with outcome := some (.error .allocation) }
    | some buffers =>
        let request ← IoRequest.new 0 (call.offset + s.start) buffers 0 requestLength
        pure { s with inFlight := some (buffers, request) }
  else pure { s with outcome := some (.ok ()) }

/-- The kernel counts `result` bytes of the submission as written, or reports an error. -/
def complete (s : WriteState) (result : Int) (torn : FileBytes) : WriteState :=
  match s.inFlight with
  | none => s
  | some (buffers, request) =>
      let data := (buffers.submissionEntry request.rangeStart request.rangeEnd).data
      if result ≤ data.length then
        let file :=
          transfer s.file request.offset data.length (data.getD · 0) result.toNat torn
        -- The request is not submitted again when its caller is gone.
        match request.serve s.outcome.isSome result with
        | .resubmitted request => { s with file, inFlight := some (buffers, request) }
        | .answered answer =>
            if s.outcome.isSome then { s with file, inFlight := none }
            else
              match answer.result with
              | .ok () => { s with file, inFlight := none, start := s.start + maxIoRequestBytes }
              | .error error => { s with file, inFlight := none, outcome := some (.error error) }
      else s

/-- Performs one action; an action that is not possible changes nothing. -/
def step (call : WriteCall) (s : WriteState) : WriteAction → Except CallerPanic WriteState
  | .submit allocated =>
      if s.outcome.isNone ∧ s.inFlight.isNone then call.submit s allocated else pure s
  | .complete result torn => pure (complete s result torn)
  | .stop => pure { s with outcome := some (s.outcome.getD (.error .stopped)) }
  | .other position value => pure { s with file := Function.update s.file position value }

/-- The bytes followed by zeros. -/
def padded (call : WriteCall) (index : Nat) : UInt8 := call.bytes.contents.getD index 0

/-- The offsets that the call writes. -/
def Covers (call : WriteCall) (position : Nat) : Prop :=
  call.offset ≤ position ∧ position < call.offset + call.length

end WriteCall

namespace WriteAction

/-- What other writers did to the file. -/
def onFile (file : FileBytes) : WriteAction → FileBytes
  | .other position value => Function.update file position value
  | _ => file

/-- The action is not a write of another writer in the range of the call. -/
def Apart (call : WriteCall) : WriteAction → Prop
  | .other position _ => ¬ call.Covers position
  | _ => True

end WriteAction

/-! ## Requests -/

/-- No more bytes are accepted than were written. -/
theorem accepted_bytes_le (result : Int) : acceptedBytes result ≤ result.toNat := by
  unfold acceptedBytes
  split <;> omega

/-- A request that the kernel completes as a whole is done. -/
theorem IoRequest.serve_full {request : IoRequest} (hleft : request.rangeStart < request.rangeEnd)
    (haligned : (request.rangeEnd - request.rangeStart) % directIoAlignmentBytes = 0) :
    request.serve false ((request.rangeEnd - request.rangeStart : Nat) : Int) =
      .answered .done := by
  have hpositive : (0 : Int) < ((request.rangeEnd - request.rangeStart : Nat) : Int) := by omega
  have hresult :
    request.applyCompletionResult ((request.rangeEnd - request.rangeStart : Nat) : Int) =
      .ok { request with rangeStart := request.rangeEnd } := by
    unfold IoRequest.applyCompletionResult
    rw [if_neg (by simp only [interruptedCode]; omega), if_neg (by omega), if_neg]
    · rw [Int.natAbs_natCast, Nat.add_sub_cancel' hleft.le]
    · rw [Int.natAbs_natCast, not_or, not_not]
      exact ⟨by omega, haligned⟩
  rw [IoRequest.serve, hresult]
  simp [IoRequest.remaining]

namespace WriteCall

variable {call : WriteCall} {s next : WriteState} {others : FileBytes} {buffers : IoBuffers}
  {request : IoRequest}

/-- The request in flight: what its buffers hold, and what of it is in the file. -/
structure Flight (call : WriteCall) (file : FileBytes) (start : Nat) (buffers : IoBuffers)
    (request : IoRequest) : Prop where
  before : start < call.length
  fileEnd : request.fileEndOffset = call.offset + start + call.requestLength start
  rangeEnd : request.rangeEnd = call.requestLength start
  left : request.rangeStart < request.rangeEnd
  aligned : request.rangeStart % directIoAlignmentBytes = 0
  spans : buffers.Spans request.rangeEnd
  isWrite : buffers.isRead = false
  contents : ∀ index < request.rangeEnd, buffers.contents.getD index 0 = call.padded (start + index)
  transferred : ∀ index < request.rangeStart,
    file (call.offset + start + index) = call.padded (start + index)

/-- What the call has written so far, and that it writes nothing else. -/
structure Written (call : WriteCall) (others : FileBytes) (s : WriteState) : Prop where
  aligned : s.start % maxIoRequestBytes = 0
  outside : ∀ position, ¬ call.Covers position → s.file position = others position
  written : ∀ index < call.length, index < s.start →
    s.file (call.offset + index) = call.padded index
  flight : ∀ buffers request, s.inFlight = some (buffers, request) →
    Flight call s.file s.start buffers request
  returned : s.outcome = some (.ok ()) → call.length ≤ s.start ∧ s.inFlight = none

/-- The bytes of a request, in the bytes followed by zeros. -/
theorem slice_padded {start : Nat} {bytes : Bytes}
    (h : call.bytes.slice (min start (min (start + call.requestLength start) call.bytes.length))
      (min (start + call.requestLength start) call.bytes.length) = .ok bytes) :
    bytes.length ≤ call.requestLength start ∧ ∀ index < call.requestLength start,
      bytes.contents.getD index 0 = call.padded (start + index) := by
  unfold Bytes.slice at h
  split at h
  next hfits =>
    cases h
    simp only [Bytes.length, padded] at hfits ⊢
    refine ⟨by simp only [List.length_take, List.length_drop]; omega, fun index hindex => ?_⟩
    simp only [List.getD_eq_getElem?_getD, List.getElem?_take, List.getElem?_drop]
    split
    next hlt => rw [Nat.min_eq_left (by omega)]
    next hge =>
      rw [List.getElem?_eq_none (by omega)]
  next => cases h

/-- Zeros behind the values are what is read there anyway. -/
theorem getD_append_zeros (values : List UInt8) (count index : Nat) :
    (values ++ List.replicate count 0).getD index 0 = values.getD index 0 := by
  simp only [List.getD_eq_getElem?_getD, List.getElem?_append, List.getElem?_replicate]
  split
  next => rfl
  next hge =>
    rw [List.getElem?_eq_none (Nat.not_lt.mp hge)]
    split <;> rfl

/-- The ranges of the call are those that direct I/O can transfer. -/
structure Aligned (call : WriteCall) : Prop where
  offset : call.offset % directIoAlignmentBytes = 0
  length : call.length % directIoAlignmentBytes = 0

/-- The requests of an aligned call are aligned. -/
theorem Aligned.request_length_mod (h : call.Aligned) {start : Nat}
    (hstart : start % maxIoRequestBytes = 0) :
    call.requestLength start % directIoAlignmentBytes = 0 := by
  have hlength := h.length
  simp only [requestLength, maxIoRequestBytes, directIoAlignmentBytes] at *
  omega

/-- A turn of the loop submits its request, unless the buffer for the copy cannot be allocated. The
assertions on the way hold. -/
theorem submit_cases (h : Written call others s) (haligned : call.Aligned)
    (hlt : s.start < call.length) (allocated : Option Nat) :
    (∃ buffers request, call.submit s allocated =
        .ok { s with inFlight := some (buffers, request) } ∧
        Flight call s.file s.start buffers request) ∨
      allocated = none ∧ call.submit s allocated =
        .ok { s with outcome := some (.error .allocation) } := by
  have hlength := haligned.request_length_mod h.aligned
  have hstart := h.aligned
  have hoffset := haligned.offset
  obtain ⟨bytes, hbytes⟩ : ∃ bytes, call.bytes.slice
      (min s.start (min (s.start + call.requestLength s.start) call.bytes.length))
      (min (s.start + call.requestLength s.start) call.bytes.length) = .ok bytes :=
    ⟨_, if_pos ⟨Nat.min_le_right .., Nat.min_le_right ..⟩⟩
  obtain ⟨hfits, hpadded⟩ := slice_padded hbytes
  obtain ⟨result, hresult, hnone, hbuffers⟩ :=
    @IoBuffers.from_write_bytes_spec _ _ allocated hfits hlength
  unfold submit
  rw [if_pos hlt]
  dsimp only
  rw [hbytes, ok_bind, hresult, ok_bind]
  cases result with
  | none => exact .inr ⟨hnone rfl, rfl⟩
  | some buffers =>
      left
      obtain ⟨first, second, rfl, hcontents, -⟩ := hbuffers _ rfl
      have hpos : 0 < call.requestLength s.start := by
        simp only [requestLength, maxIoRequestBytes]
        omega
      have hspans : first.length + second.length = call.requestLength s.start := by
        have hlengths := congrArg List.length hcontents
        simp only [List.length_append, List.length_replicate] at hlengths
        simp only [Bytes.length] at hlengths hfits ⊢
        omega
      have hnew : IoRequest.new 0 (call.offset + s.start) (.write first second) 0
          (call.requestLength s.start) =
            .ok ⟨0, false, call.offset + s.start + call.requestLength s.start, 0,
              call.requestLength s.start, true⟩ := by
        refine if_pos ⟨?_, rfl, hlength, rfl, hpos, Nat.min_le_right ..⟩
        simp only [maxIoRequestBytes, directIoAlignmentBytes] at *
        omega
      simp only [hnew, ok_bind]
      refine ⟨_, _, rfl, hlt, rfl, rfl, hpos, rfl, hspans.symm, rfl, fun index hindex => ?_,
        fun index hindex => absurd hindex (Nat.not_lt_zero index)⟩
      rw [IoBuffers.contents, hcontents, getD_append_zeros]
      exact hpadded index hindex

/-- The next request is within the range and carries its bytes. -/
theorem submit_written (h : Written call others s) (haligned : call.Aligned)
    (hidle : s.inFlight = none) (hopen : s.outcome = none) (allocated : Option Nat) :
    Outcome (fun _ => False) (Written call others) (call.submit s allocated) := by
  by_cases hlt : s.start < call.length
  · rcases submit_cases h haligned hlt allocated with
      ⟨buffers, request, hsubmit, hflight⟩ | ⟨-, hsubmit⟩
    · rw [hsubmit]
      refine ⟨h.aligned, h.outside, h.written, fun _ _ hnext => ?_, fun hdone => ?_⟩
      · cases hnext
        exact hflight
      · rw [show s.outcome = none from hopen] at hdone
        cases hdone
    · rw [hsubmit]
      exact ⟨h.aligned, h.outside, h.written, h.flight, (fun hdone => by cases hdone)⟩
  · rw [submit, if_neg hlt]
    exact ⟨h.aligned, h.outside, h.written, h.flight, fun _ => ⟨Nat.not_lt.mp hlt, hidle⟩⟩

/-- The kernel is given what is left of the buffers. -/
theorem Flight.data_eq {file : FileBytes} {start : Nat}
    (h : Flight call file start buffers request) :
    (buffers.submissionEntry request.rangeStart request.rangeEnd).data =
        buffers.contents.drop request.rangeStart ∧ buffers.contents.length = request.rangeEnd := by
  have hspans := h.spans
  have hwrite := h.isWrite
  cases buffers with
  | read address length => cases hwrite
  | write first second =>
      rw [IoBuffers.submission_entry_write]
      refine ⟨Bytes.flatMap_skip first second _, ?_⟩
      rw [IoBuffers.contents, List.length_append]
      exact hspans.symm

/-- A completion changes the file within the request only, and the bytes that were counted before or
are counted now are at their place. -/
theorem Flight.transferred_next {file : FileBytes} {start : Nat} {result : Int}
    (h : Flight call file start buffers request)
    (hresult : result ≤ (buffers.contents.drop request.rangeStart).length) (torn : FileBytes) :
    let data := buffers.contents.drop request.rangeStart
    let after := transfer file request.offset data.length (data.getD · 0) result.toNat torn
    (∀ position, position < call.offset + start ∨ call.offset + call.length ≤ position →
      after position = file position) ∧
    ∀ index < request.rangeStart + acceptedBytes result,
      after (call.offset + start + index) = call.padded (start + index) := by
  obtain ⟨-, hlength⟩ := h.data_eq
  have hfileEnd := h.fileEnd
  have hrangeEnd := h.rangeEnd
  have hleft := h.left
  have haccepted := accepted_bytes_le result
  have hsize : call.requestLength start ≤ call.length - start := Nat.min_le_left ..
  have hoffset : request.offset = call.offset + start + request.rangeStart := by
    rw [IoRequest.offset, IoRequest.remaining]
    omega
  intro data after
  have hdata : data.length = request.rangeEnd - request.rangeStart := by
    rw [List.length_drop, hlength]
  rw [List.length_drop, hlength] at hresult
  refine ⟨fun position hposition => transfer_outside (by omega), fun index hindex => ?_⟩
  by_cases hcounted : index < request.rangeStart
  · have hbefore : after (call.offset + start + index) = file (call.offset + start + index) :=
      transfer_outside (.inl (by omega))
    rw [hbefore]
    exact h.transferred index hcounted
  · have harrived : after (request.offset + (index - request.rangeStart)) =
        data.getD (index - request.rangeStart) 0 := transfer_arrived (by omega) (by omega)
    have hcontents := h.contents index (by omega)
    have hposition : call.offset + start + index =
        request.offset + (index - request.rangeStart) := by omega
    have hindex : request.rangeStart + (index - request.rangeStart) = index := by omega
    rw [List.getD_eq_getElem?_getD] at harrived hcontents
    rw [hposition, harrived, List.getElem?_drop, hindex, hcontents]

/-- A short completion leaves a request for the rest of the piece. -/
theorem Flight.moved {file after : FileBytes} {start : Nat} {result : Int}
    (h : Flight call file start buffers request)
    (hremaining : (request.moved (acceptedBytes result)).remaining ≠ 0)
    (htransferred : ∀ index < request.rangeStart + acceptedBytes result,
      after (call.offset + start + index) = call.padded (start + index)) :
    Flight call after start buffers (request.moved (acceptedBytes result)) := by
  refine ⟨h.before, h.fileEnd, h.rangeEnd, ?_, ?_, h.spans, h.isWrite, h.contents, htransferred⟩
  · simp only [IoRequest.remaining, IoRequest.moved] at hremaining ⊢
    omega
  · rw [IoRequest.moved, Nat.add_mod, h.aligned, accepted_bytes_mod]
    rfl

/-- A completion with nothing left to transfer leaves the bytes of the whole piece. -/
theorem Flight.piece_written {file after : FileBytes} {start : Nat} {result : Int}
    (h : Flight call file start buffers request)
    (hremaining : (request.moved (acceptedBytes result)).remaining = 0)
    (htransferred : ∀ index < request.rangeStart + acceptedBytes result,
      after (call.offset + start + index) = call.padded (start + index))
    {index : Nat} (hindex : index < call.length) (hstart : start ≤ index)
    (hend : index < start + maxIoRequestBytes) :
    after (call.offset + index) = call.padded index := by
  have hrangeEnd := h.rangeEnd
  simp only [IoRequest.remaining, IoRequest.moved] at hremaining
  have hnew := htransferred (index - start) (by
    simp only [requestLength] at hrangeEnd
    omega)
  rwa [show call.offset + start + (index - start) = call.offset + index by omega,
    show start + (index - start) = index by omega] at hnew

/-- What a completion leaves, with the requests that are done and the bytes that were counted. -/
theorem complete_written (h : Written call others s) (result : Int) (torn : FileBytes) :
    Written call others (complete s result torn) := by
  unfold complete
  split
  next => exact h
  next buffers request hinFlight =>
    have hflight := h.flight buffers request hinFlight
    dsimp only
    rw [hflight.data_eq.1]
    split
    next hresult =>
      obtain ⟨houtside, htransferred⟩ := hflight.transferred_next hresult torn
      generalize transfer s.file request.offset _ _ result.toNat torn = file at *
      have hbefore := hflight.before
      have hopen : s.outcome ≠ some (.ok ()) := by
        intro hdone
        rw [(h.returned hdone).2] at hinFlight
        cases hinFlight
      have hother : ∀ position, ¬ call.Covers position → file position = others position := by
        intro position hposition
        rw [houtside position (by simp only [Covers] at hposition; omega)]
        exact h.outside position hposition
      have hwritten : ∀ index < call.length, index < s.start →
          file (call.offset + index) = call.padded index := by
        intro index hindex hstart
        rw [houtside _ (.inl (by omega))]
        exact h.written index hindex hstart
      have hfailed : ∀ error, Written call others
          { s with file, inFlight := none, outcome := some (.error error) } := fun error =>
        ⟨h.aligned, hother, hwritten, (fun _ _ hnext => by cases hnext),
          (fun hdone => by cases hdone)⟩
      cases hserve : request.serve s.outcome.isSome result with
      | resubmitted after =>
          obtain ⟨rfl, hremaining, -⟩ := IoRequest.serve_resubmitted hserve
          refine ⟨h.aligned, hother, hwritten, fun buffers' request' hnext => ?_, fun hdone =>
            absurd hdone hopen⟩
          cases hnext
          exact hflight.moved hremaining htransferred
      | answered answer =>
          by_cases hgone : s.outcome.isSome
          · simp only [hgone, if_true]
            exact ⟨h.aligned, hother, hwritten, (fun _ _ hnext => by cases hnext), fun hdone =>
              absurd hdone hopen⟩
          simp only [hgone, Bool.false_eq_true, if_false]
          cases answer with
          | failed error => exact hfailed _
          | stopped => exact hfailed _
          | done =>
              have hremaining := (IoRequest.serve_done hserve).resolve_right hgone
              refine ⟨?_, hother, fun index hindex hend => ?_, (fun _ _ hnext => by cases hnext),
                fun hdone => absurd hdone hopen⟩
              · show (s.start + maxIoRequestBytes) % maxIoRequestBytes = 0
                rw [Nat.add_mod_right, h.aligned]
              · rcases Nat.lt_or_ge index s.start with hold | hnew
                · exact hwritten index hindex hold
                · exact hflight.piece_written hremaining htransferred hindex hnew hend
    next => exact h

/-! ## Runs -/

/-- Nothing is written at the start. -/
theorem Written.start (call : WriteCall) (file : FileBytes) :
    Written call file (call.start file) where
  aligned := rfl
  outside _ _ := rfl
  written index _ hstart := absurd hstart (Nat.not_lt_zero index)
  flight _ _ hflight := by cases hflight
  returned hdone := by
    simp only [WriteCall.start] at hdone
    split at hdone <;> cases hdone

/-- Every step keeps what was written. -/
theorem step_written (h : Written call others s) (haligned : call.Aligned) {action : WriteAction}
    (hapart : action.Apart call) :
    Outcome (fun _ => False) (Written call (action.onFile others)) (call.step s action) := by
  cases action with
  | submit allocated =>
      simp only [step]
      split
      next hidle =>
        simp only [Option.isNone_iff_eq_none] at hidle
        exact submit_written h haligned hidle.2 hidle.1 allocated
      next => exact h
  | complete result torn => exact complete_written h result torn
  | stop =>
      refine ⟨h.aligned, h.outside, h.written, h.flight, fun hdone => h.returned ?_⟩
      cases houtcome : s.outcome with
      | none => simp [houtcome] at hdone
      | some outcome => simpa [houtcome] using hdone
  | other position value =>
      have hupdated : ∀ other, call.Covers other →
          Function.update s.file position value other = s.file other := by
        intro other hother
        refine Function.update_of_ne ?_ ..
        rintro rfl
        exact hapart hother
      refine ⟨h.aligned, fun other hother => ?_, fun index hindex hstart => ?_,
        fun buffers request hinFlight => ?_, h.returned⟩
      · by_cases heq : other = position
        · simp [WriteAction.onFile, heq]
        · simp [WriteAction.onFile, heq, h.outside other hother]
      · exact (hupdated _ ⟨by omega, by omega⟩).trans (h.written index hindex hstart)
      · have hflight := h.flight buffers request hinFlight
        refine ⟨hflight.before, hflight.fileEnd, hflight.rangeEnd, hflight.left, hflight.aligned,
          hflight.spans, hflight.isWrite, hflight.contents, fun index hindex => ?_⟩
        have hleft := hflight.left
        have hrangeEnd := hflight.rangeEnd
        have hbefore := hflight.before
        simp only [requestLength] at hrangeEnd
        have hcovered : call.Covers (call.offset + s.start + index) := ⟨by omega, by omega⟩
        exact (hupdated _ hcovered).trans (hflight.transferred index hindex)

/-- The file as other writers alone would leave it. -/
def otherWrites (file : FileBytes) (actions : List WriteAction) : FileBytes :=
  actions.foldl WriteAction.onFile file

/-- No run of a call panics, and each keeps what the call has written. -/
theorem run_written (file : FileBytes) (haligned : call.Aligned) {actions : List WriteAction}
    (hapart : ∀ action ∈ actions, action.Apart call) :
    Outcome (fun _ => False) (Written call (otherWrites file actions))
      (run call.step (call.start file) actions) := by
  refine @run_outcome_done _ _ _ _ (fun before => Written call (otherWrites file before)) _ []
    actions
    _ (fun before action after state hactions h => ?_) (Written.start call file)
  rw [otherWrites, List.foldl_append]
  exact step_written h haligned (hapart action (by
    rw [List.nil_append] at hactions
    simp [hactions]))

/-! ## Progress -/

/-- A request that the kernel completes as a whole ends its turn of the loop. -/
theorem complete_full (h : Written call others s) (haligned : call.Aligned)
    (hopen : s.outcome = none) (hinFlight : s.inFlight = some (buffers, request)) :
    ∃ file, complete s ((request.rangeEnd - request.rangeStart : Nat) : Int) s.file =
      { s with file, inFlight := none, start := s.start + maxIoRequestBytes } := by
  have hflight := h.flight buffers request hinFlight
  obtain ⟨hdata, hlength⟩ := hflight.data_eq
  have hrange : (request.rangeEnd - request.rangeStart) % directIoAlignmentBytes = 0 := by
    have hend := haligned.request_length_mod h.aligned
    have hstart := hflight.aligned
    rw [← hflight.rangeEnd] at hend
    simp only [directIoAlignmentBytes] at *
    omega
  simp only [complete, hinFlight, hdata, List.length_drop, hlength, le_refl, if_true,
    hopen, Option.isSome_none, IoRequest.serve_full hflight.left hrange, IoAnswer.result,
    Bool.false_eq_true, if_false]
  exact ⟨_, rfl⟩

/-- A call that has not returned succeeds when its buffers are allocated and the kernel completes
its requests. -/
theorem Written.finishes (h : Written call others s) (haligned : call.Aligned)
    (hopen : s.outcome = none) :
    ∃ actions final, run call.step s actions = .ok final ∧ Written call others final ∧
      final.outcome = some (.ok ()) := by
  -- A request that is submitted or completed leaves less to do.
  refine @run_reaches _ _ _ _ (fun s => Written call others s ∧ s.outcome = none) _
    (fun s => 2 * (call.length - s.start) + if s.inFlight.isNone then 1 else 0)
    (fun s hstate => ?_) _ ⟨h, hopen⟩
  obtain ⟨h, hopen⟩ := hstate
  cases hinFlight : s.inFlight with
  | some flight =>
      obtain ⟨buffers, request⟩ := flight
      have hbefore := (h.flight buffers request hinFlight).before
      obtain ⟨file, hfile⟩ := complete_full h haligned hopen hinFlight
      have hnext := complete_written h ((request.rangeEnd - request.rangeStart : Nat) : Int) s.file
      rw [hfile] at hnext
      refine ⟨.complete ((request.rangeEnd - request.rangeStart : Nat) : Int) s.file, _,
        congrArg Except.ok hfile, .inr ⟨⟨hnext, hopen⟩, ?_⟩⟩
      simp only [Option.isNone_none, Option.isNone_some, if_true, maxIoRequestBytes]
      omega
  | none =>
      have hstep : ∀ allocated, call.step s (.submit allocated) = call.submit s allocated :=
        fun allocated => if_pos (by simp [hopen, hinFlight])
      by_cases hlt : s.start < call.length
      · obtain ⟨buffers, request, hsubmit, -⟩ | ⟨hnone, -⟩ := submit_cases h haligned hlt (some 0)
        · have hnext := submit_written h haligned hinFlight hopen (some 0)
          rw [hsubmit] at hnext
          refine ⟨.submit (some 0), _, (hstep _).trans hsubmit, .inr ⟨⟨hnext, hopen⟩, ?_⟩⟩
          simp
        · cases hnone
      · have hsubmit : call.submit s none = .ok { s with outcome := some (.ok ()) } := if_neg hlt
        have hnext := submit_written h haligned hinFlight hopen none
        rw [hsubmit] at hnext
        exact ⟨.submit none, _, (hstep _).trans hsubmit, .inl ⟨hnext, rfl⟩⟩

/-! ## The result -/

/-- What a call that returned success has written. -/
theorem Written.load_eq (h : Written call others s) (hbytes : call.bytes.length ≤ call.length)
    (hdone : s.outcome = some (.ok ())) :
    load s.file call.offset call.length =
      call.bytes.contents ++ List.replicate (call.length - call.bytes.length) 0 := by
  have hlength := (h.returned hdone).1
  refine Lib.load_eq ?_ fun index value hvalue => ?_
  · simp only [Bytes.length] at hbytes
    simp only [List.length_append, List.length_replicate, Bytes.length]
    omega
  · have hindex : index < call.length := by
      have hlt := (List.getElem?_eq_some_iff.mp hvalue).1
      simp only [List.length_append, List.length_replicate, Bytes.length] at hlt hbytes
      omega
    rw [h.written index hindex (by omega), padded, ← getD_append_zeros _
      (call.length - call.bytes.length), List.getD_eq_getElem?_getD, hvalue, Option.getD_some]

/-- No run of a call panics, and other offsets keep what other writers leave there. A call that
returns success has written its bytes, followed by zeros; a call that has not returned can
succeed. -/
theorem run_write_padded (haligned : call.Aligned) (hbytes : call.bytes.length ≤ call.length)
    (file : FileBytes) {actions : List WriteAction}
    (hapart : ∀ action ∈ actions, action.Apart call) :
    ∃ s, run call.step (call.start file) actions = .ok s ∧
      (∀ position, ¬ call.Covers position → s.file position = otherWrites file actions position) ∧
      (s.outcome = some (.ok ()) → load s.file call.offset call.length =
        call.bytes.contents ++ List.replicate (call.length - call.bytes.length) 0) ∧
      (s.outcome = none → ∃ more final, run call.step s more = .ok final ∧
        final.outcome = some (.ok ()) ∧ load final.file call.offset call.length =
          call.bytes.contents ++ List.replicate (call.length - call.bytes.length) 0) := by
  obtain ⟨s, hrun, hwritten⟩ := (run_written file haligned hapart).exists_ok
  refine ⟨s, hrun, hwritten.outside, hwritten.load_eq hbytes, fun hopen => ?_⟩
  obtain ⟨more, final, hmore, hfinal, hdone⟩ := hwritten.finishes haligned hopen
  exact ⟨more, final, hmore, hdone, hfinal.load_eq hbytes hdone⟩

/-- A byte on a page of zeros, while another writer is at the next page. -/
theorem run_write_padded_one_byte :
    let call : WriteCall := ⟨8192, 0, 4096, ⟨0, [1]⟩⟩
    ∃ s, run call.step (call.start fun _ => 9) [.other 5000 7, .submit (some 0)] = .ok s ∧
      s.file 5000 = 7 ∧
      (s.outcome = some (.ok ()) → load s.file 0 4096 = [1] ++ List.replicate 4095 0) ∧
      (s.outcome = none → ∃ more final, run call.step s more = .ok final ∧
        final.outcome = some (.ok ()) ∧
        load final.file 0 4096 = [1] ++ List.replicate 4095 0) := by
  intro call
  obtain ⟨s, hrun, hother, hdone, hopen⟩ := run_write_padded
    (show call.Aligned from ⟨rfl, Nat.mod_self 4096⟩) (show 1 ≤ 4096 by decide) (fun _ => 9)
    (show ∀ action ∈ [WriteAction.other 5000 7, .submit (some 0)], action.Apart call by
      intro action haction
      rcases List.mem_pair.mp haction with rfl | rfl
      · exact fun hcovers => absurd hcovers.2 (by decide)
      · exact trivial)
  exact ⟨s, hrun, hother 5000 fun hcovers => absurd hcovers.2 (by decide), hdone, hopen⟩

end WriteCall

end Feuer.Uring
