import Feuer.Uring.IoQueue

/-!
# The buffers of a request

`IoBuffers` and `IoRequest::new`, after `uring.rs`. A slice of immutable bytes is modelled by its
address and its contents, and an I/O vector by the slice that it points to. A write keeps the
aligned part of the caller's bytes and copies the rest into a buffer that is padded with zeros; what
a short completion leaves is found by skipping bytes of the two.
-/

namespace Feuer.Uring

/-- `MAX_IO_REQUEST_BYTES`. -/
def maxIoRequestBytes : Nat := 1024 * 1024

/-- A panic of a caller that prepares or finishes I/O. -/
inductive CallerPanic where
  /-- A failed assertion of `from_write_bytes` or `IoRequest::new`. -/
  | assertion
  /-- Slicing past the end of the bytes. -/
  | sliceOutOfBounds
  /-- `"all read requests completed"`. -/
  | bufferShared
  deriving DecidableEq, Repr

/-! ## Slices -/

/-- A slice of immutable bytes. -/
structure Bytes where
  address : Nat
  contents : List UInt8
  deriving DecidableEq, Repr

namespace Bytes

def length (bytes : Bytes) : Nat := bytes.contents.length

/-- `Bytes::new`. -/
def empty : Bytes := ⟨0, []⟩

/-- `Bytes::slice`. -/
def slice (bytes : Bytes) (start stop : Nat) : Except CallerPanic Bytes :=
  if start ≤ stop ∧ stop ≤ bytes.length then
    .ok ⟨bytes.address + start, (bytes.contents.drop start).take (stop - start)⟩
  else .error .sliceOutOfBounds

/-- The slice without its first bytes. -/
def skip (bytes : Bytes) (count : Nat) : Bytes := ⟨bytes.address + count, bytes.contents.drop count⟩

/-- `Bytes::truncate`. -/
def truncate (bytes : Bytes) (length : Nat) : Bytes := ⟨bytes.address, bytes.contents.take length⟩

/-- Addressed as direct I/O requires it, unless there is nothing to address. -/
def Aligned (bytes : Bytes) : Prop :=
  bytes.contents = [] ∨ bytes.address % directIoAlignmentBytes = 0

end Bytes

/-! ## Buffers -/

/-- Buffers owned by a read or a vectored write until completion. -/
inductive IoBuffers where
  | read (address length : Nat)
  /-- The aligned part of the payload and the padded copy of the rest. Either may be empty. -/
  | write (first second : Bytes)
  deriving DecidableEq, Repr

/-- What a submission queue entry points to. -/
inductive Submission where
  | read (address length : Nat)
  | writev (iovecs : List Bytes)
  deriving DecidableEq, Repr

/-- The loop of `submission_entry`: the bytes still to be skipped and the vectors filled in. -/
structure Gathered where
  bytesToSkip : Nat
  iovecs : List Bytes

def Gathered.push (gathered : Gathered) (bytes : Bytes) : Gathered :=
  let skip := min gathered.bytesToSkip bytes.length
  let remainingBytes := bytes.skip skip
  if remainingBytes.contents.isEmpty then
    { gathered with bytesToSkip := gathered.bytesToSkip - skip }
  else ⟨gathered.bytesToSkip - skip, gathered.iovecs ++ [remainingBytes]⟩

namespace IoBuffers

def isRead : IoBuffers → Bool
  | read .. => true
  | write .. => false

/-- A read stays within the bytes that its buffer exposes. -/
def fits (stop : Nat) : IoBuffers → Bool
  | read _ length => stop ≤ length
  | write .. => true

/-- Prepares write buffers by taking the aligned prefix and copying the rest with zero padding.
`allocated` is the address of the buffer for the copy, if it can be allocated. -/
def fromWriteBytes (length : Nat) (bytes : Bytes) (allocated : Option Nat) :
    Except CallerPanic (Option IoBuffers) :=
  if bytes.length ≤ length ∧ length % directIoAlignmentBytes = 0 then
    let alignedLength :=
      if bytes.address % directIoAlignmentBytes = 0 then
        bytes.length / directIoAlignmentBytes * directIoAlignmentBytes
      else 0
    let copyLength := length - alignedLength
    if copyLength = 0 then .ok (some (write (bytes.truncate alignedLength) Bytes.empty))
    else
      match allocated with
      | none => .ok none
      | some address =>
          let tail := bytes.contents.drop alignedLength ++
            (List.replicate copyLength 0).drop (bytes.length - alignedLength)
          .ok (some (write (bytes.truncate alignedLength) ⟨address, tail⟩))
  else .error .assertion

/-- The vectors are written into a fixed array, whose other positions are empty and not
submitted. -/
def submissionEntry (start stop : Nat) : IoBuffers → Submission
  | read address _ => .read (address + start) (stop - start)
  | write first second => .writev ([first, second].foldl Gathered.push ⟨start, []⟩).iovecs

/-- The bytes that a write transfers. -/
def contents : IoBuffers → List UInt8
  | read .. => []
  | write first second => first.contents ++ second.contents

/-- The range of a request ends with its buffers, or within the buffer of a read. -/
def Spans (stop : Nat) : IoBuffers → Prop
  | read _ length => stop ≤ length
  | write first second => stop = first.length + second.length

end IoBuffers

/-! ## Requests -/

namespace IoRequest

/-- A request for the range of its buffers from `start` to `stop`. -/
def new (id offset : Nat) (buffers : IoBuffers) (start stop : Nat) : Except CallerPanic IoRequest :=
  let length := stop - start
  if offset % directIoAlignmentBytes = 0 ∧ start % directIoAlignmentBytes = 0 ∧
      length % directIoAlignmentBytes = 0 ∧ buffers.fits stop ∧ 0 < length ∧
      length ≤ maxIoRequestBytes then
    .ok ⟨id, buffers.isRead, offset + length, start, stop, true⟩
  else .error .assertion

/-- The file offset where the remaining range begins. -/
def offset (request : IoRequest) : Nat := request.fileEndOffset - request.remaining

/-- What `handle_io_completion` does with a request. -/
inductive Served where
  | resubmitted (request : IoRequest)
  | answered (answer : IoAnswer)
  deriving DecidableEq, Repr

/-- Advances the request; it is submitted again while something remains and its caller waits. -/
def serve (request : IoRequest) (cancelled : Bool) (result : Int) : Served :=
  match request.applyCompletionResult result with
  | .error error => .answered (.failed error)
  | .ok request =>
      if request.remaining ≠ 0 ∧ cancelled = false then .resubmitted request else .answered .done

end IoRequest

/-! ## What the buffers hold -/

/-- A write transfers the bytes and the padding. Direct I/O gets aligned parts. -/
theorem IoBuffers.from_write_bytes_spec {length : Nat} {bytes : Bytes} {allocated : Option Nat}
    (hlength : bytes.length ≤ length) (haligned : length % directIoAlignmentBytes = 0) :
    ∃ result, fromWriteBytes length bytes allocated = .ok result ∧
      (result = none → allocated = none) ∧
      ∀ buffers, result = some buffers → ∃ first second, buffers = write first second ∧
        first.contents ++ second.contents =
          bytes.contents ++ List.replicate (length - bytes.length) 0 ∧
        first.length % directIoAlignmentBytes = 0 ∧ first.Aligned ∧
        (second.contents = [] ∨ allocated = some second.address) := by
  unfold fromWriteBytes
  rw [if_pos ⟨hlength, haligned⟩]
  generalize haligned' : (if bytes.address % directIoAlignmentBytes = 0 then
    bytes.length / directIoAlignmentBytes * directIoAlignmentBytes else 0) = alignedLength
  -- The part that is not copied.
  have hleading : alignedLength ≤ bytes.length ∧ alignedLength % directIoAlignmentBytes = 0 ∧
      (alignedLength = 0 ∨ bytes.address % directIoAlignmentBytes = 0) := by
    rw [← haligned']
    split
    next haddress => exact ⟨Nat.div_mul_le_self _ _, Nat.mul_mod_left _ _, .inr haddress⟩
    next => exact ⟨Nat.zero_le _, rfl, .inl rfl⟩
  obtain ⟨hle, hmod, haddress⟩ := hleading
  have hfirst : (bytes.truncate alignedLength).length = alignedLength := by
    simp only [Bytes.length, Bytes.truncate, List.length_take]
    exact Nat.min_eq_left hle
  have hfirstAligned : (bytes.truncate alignedLength).Aligned := by
    rcases haddress with hzero | haddress
    · exact .inl (by simp [Bytes.truncate, hzero])
    · exact .inr haddress
  dsimp only
  split
  next hcopy =>
    refine ⟨_, rfl, nofun, fun buffers hbuffers => ?_⟩
    cases hbuffers
    refine ⟨_, _, rfl, ?_, by rw [hfirst, hmod], hfirstAligned, .inl rfl⟩
    have hall : alignedLength = bytes.contents.length := Nat.le_antisymm hle (by
      have := hlength
      simp only [Bytes.length] at this
      omega)
    have hpadding : length - bytes.length = 0 := by
      simp only [Bytes.length]
      omega
    rw [hpadding, Bytes.truncate, hall, List.take_length]
    rfl
  next hcopy =>
    cases allocated with
    | none => exact ⟨none, rfl, fun _ => rfl, nofun⟩
    | some address =>
        refine ⟨_, rfl, nofun, fun buffers hbuffers => ?_⟩
        cases hbuffers
        refine ⟨_, _, rfl, ?_, by rw [hfirst, hmod], hfirstAligned, .inr rfl⟩
        simp only [Bytes.truncate, List.drop_replicate, ← List.append_assoc, List.take_append_drop]
        congr 2
        omega

/-- The vectors of a submission: what is left of the two buffers, without empty ones. -/
theorem IoBuffers.submission_entry_write (first second : Bytes) (start stop : Nat) :
    (write first second).submissionEntry start stop =
      .writev ([first.skip start, second.skip (start - first.length)].filter
        fun bytes => !bytes.contents.isEmpty) := by
  have hskip : ∀ (gathered : Gathered) (bytes : Bytes), gathered.push bytes =
      ⟨gathered.bytesToSkip - bytes.length, gathered.iovecs ++
        [bytes.skip gathered.bytesToSkip].filter fun bytes => !bytes.contents.isEmpty⟩ := by
    intro gathered bytes
    unfold Gathered.push
    have hrest : gathered.bytesToSkip - min gathered.bytesToSkip bytes.length =
        gathered.bytesToSkip - bytes.length := by omega
    rcases Nat.lt_or_ge gathered.bytesToSkip bytes.length with hlt | hge
    · rw [Nat.min_eq_left (Nat.le_of_lt hlt)] at hrest ⊢
      have hsome : (bytes.skip gathered.bytesToSkip).contents ≠ [] := by
        simpa [Bytes.skip, Bytes.length] using hlt
      simp only [hrest]
      simp [hsome]
    · rw [Nat.min_eq_right hge] at hrest ⊢
      have hnone : (bytes.skip bytes.length).contents = [] := by simp [Bytes.skip, Bytes.length]
      have hnone' : (bytes.skip gathered.bytesToSkip).contents = [] := by
        simpa [Bytes.skip, Bytes.length] using hge
      simp [hnone, hnone']
  simp only [submissionEntry, List.foldl_cons, List.foldl_nil, hskip, List.nil_append,
    ← List.filter_append, List.singleton_append]

/-- The vectors hold what remains, in order. -/
theorem Bytes.flatMap_skip (first second : Bytes) (start : Nat) :
    ([first.skip start, second.skip (start - first.length)].filter
      fun bytes => !bytes.contents.isEmpty).flatMap Bytes.contents =
        (first.contents ++ second.contents).drop start := by
  have hfilter : ∀ slices : List Bytes,
      (slices.filter fun bytes => !bytes.contents.isEmpty).flatMap Bytes.contents =
        slices.flatMap Bytes.contents := by
    intro slices
    induction slices with
    | nil => rfl
    | cons bytes rest ih =>
        cases hempty : bytes.contents <;> simp [hempty, ih]
  rw [hfilter]
  simp [Bytes.skip, Bytes.length, List.drop_append]

end Feuer.Uring
