import Feuer.Lib.Transition
import Feuer.Trace.AccessTrace

/-!
# The access-trace reader

`decode_package` of `feuer-replay` checks a package's header and length, and decodes its events one
by one. A package is accepted if the iterator it returns yields no error.
-/

namespace Feuer.Trace

open Lib Storage

/-- An error of `decode_package` or of an event that it yields. -/
inductive DecodeError where
  | header
  | length
  | kind
  | payloadLength
  deriving DecidableEq, Repr

/-- The text of an error. -/
def DecodeError.message : DecodeError → String
  | .header => "expected FETR v1 package header"
  | .length => "expected nonempty fixed-size FETR events"
  | .kind => "unknown FETR v1 event kind"
  | .payloadLength => "unexpected payload length for FETR event kind"

/-- A recorded request start or lookup outcome. -/
structure Event where
  /-- 0 start, 1 memory hit, 2 disk hit, 3 callback success, 4 callback error, 5 miss. -/
  kind : UInt8
  requestId : UInt64
  timeNs : UInt64
  objectKey : ObjectKeyHash
  /-- Object length from a successful lookup. -/
  payloadLen : Option UInt64
  deriving DecidableEq, Repr

/-- Whether an event of this kind carries a payload length. -/
def hasPayload (kind : UInt8) : Bool := decide (1 ≤ kind ∧ kind ≤ 3)

/-- The `u64` at an offset of an event. -/
def u64At (eventBytes : List UInt8) (offset : Nat) : UInt64 :=
  .ofNat (fromLeBytes ((eventBytes.drop offset).take 8))

/-- The `u128` at an offset of an event. -/
def u128At (eventBytes : List UInt8) (offset : Nat) : ObjectKeyHash :=
  Fin.ofNat _ (fromLeBytes ((eventBytes.drop offset).take 16))

/-- One item of the iterator that `decode_package` returns. -/
def decodeEvent (eventBytes : List UInt8) : Except DecodeError Event :=
  let kind := eventBytes.headD 0
  if 5 < kind then .error .kind
  else if hasPayload kind = false ∧ u64At eventBytes 33 ≠ 0 then .error .payloadLength
  else .ok
    { kind
      requestId := u64At eventBytes 1
      timeNs := u64At eventBytes 9
      objectKey := u128At eventBytes 17
      payloadLen := if hasPayload kind then some (u64At eventBytes 33) else none }

/-- `decode_package`. -/
def decodePackage (package : List UInt8) :
    Except DecodeError (List (Except DecodeError Event)) :=
  if package.take 8 ≠ packageHeader then .error .header
  else if package.length = 8 ∨ (package.length - 8) % eventSize ≠ 0 then .error .length
  else .ok ((chunksExact eventSize (package.drop 8)).map decodeEvent)

/-- The events of a package, if it is accepted: every item of the iterator is consumed. -/
def decodeEvents (package : List UInt8) : Except DecodeError (List Event) := do
  let items ← decodePackage package
  items.mapM id

/-- The bytes of an event. -/
def Event.encode (event : Event) : List UInt8 :=
  eventOf event.kind event.requestId event.timeNs event.objectKey (event.payloadLen.getD 0)

/-- A package of events. -/
def encodePackage (events : List Event) : List UInt8 :=
  packageHeader ++ (events.map Event.encode).flatten

/-! ## Single events -/

/-- Eight bytes in little-endian order are read back. -/
theorem u64_at_of_slice {eventBytes : List UInt8} {offset : Nat} {value : UInt64}
    (h : (eventBytes.drop offset).take 8 = toLeBytes 8 value.toNat) :
    u64At eventBytes offset = value := by
  rw [u64At, h, from_le_bytes_to_le_bytes (by simpa using value.toNat_lt)]
  exact UInt64.ofNat_toNat

/-- Sixteen bytes are read back. -/
theorem u128_at_of_slice {eventBytes : List UInt8} {offset : Nat} {value : ObjectKeyHash}
    (h : (eventBytes.drop offset).take 16 = toLeBytes 16 value.val) :
    u128At eventBytes offset = value := by
  rw [u128At, h, from_le_bytes_to_le_bytes value.isLt]
  exact Fin.ofNat_val_eq_self value

/-- The value that is read encodes to the bytes it was read from. -/
theorem slice_of_u64_at {eventBytes : List UInt8} {offset : Nat}
    (h : offset + 8 ≤ eventBytes.length) :
    toLeBytes 8 (u64At eventBytes offset).toNat = (eventBytes.drop offset).take 8 := by
  have hlength : ((eventBytes.drop offset).take 8).length = 8 := by
    rw [List.length_take, List.length_drop]
    omega
  have hlt := from_le_bytes_lt ((eventBytes.drop offset).take 8)
  rw [hlength] at hlt
  have hvalue : (u64At eventBytes offset).toNat =
      fromLeBytes ((eventBytes.drop offset).take 8) := by
    rw [u64At, UInt64.toNat_ofNat']
    exact Nat.mod_eq_of_lt (by simpa using hlt)
  rw [hvalue]
  exact (congrArg (toLeBytes · _) hlength).symm.trans (to_le_bytes_from_le_bytes _)

/-- A value of sixteen bytes encodes to the bytes it was read from. -/
theorem slice_of_u128_at {eventBytes : List UInt8} {offset : Nat}
    (h : offset + 16 ≤ eventBytes.length) :
    toLeBytes 16 (u128At eventBytes offset).val = (eventBytes.drop offset).take 16 := by
  have hlength : ((eventBytes.drop offset).take 16).length = 16 := by
    rw [List.length_take, List.length_drop]
    omega
  have hlt := from_le_bytes_lt ((eventBytes.drop offset).take 16)
  rw [hlength] at hlt
  have hvalue : (u128At eventBytes offset).val =
      fromLeBytes ((eventBytes.drop offset).take 16) := by
    rw [u128At, Fin.val_ofNat]
    exact Nat.mod_eq_of_lt (by simpa using hlt)
  rw [hvalue]
  exact (congrArg (toLeBytes · _) hlength).symm.trans (to_le_bytes_from_le_bytes _)

section Fields

variable (kind : UInt8) (requestId timeNs : UInt64) (objectKey : ObjectKeyHash)
  (payloadLength : UInt64)

/-- The request ID is the first field after the kind. -/
theorem u64_at_request_id :
    u64At (eventOf kind requestId timeNs objectKey payloadLength) 1 = requestId :=
  u64_at_of_slice rfl

/-- The time follows the request ID. -/
theorem u64_at_time_ns : u64At (eventOf kind requestId timeNs objectKey payloadLength) 9 = timeNs :=
  u64_at_of_slice rfl

/-- The key follows the time. -/
theorem u128_at_object_key :
    u128At (eventOf kind requestId timeNs objectKey payloadLength) 17 = objectKey :=
  u128_at_of_slice rfl

/-- The length is the last field. -/
theorem u64_at_payload_length :
    u64At (eventOf kind requestId timeNs objectKey payloadLength) 33 = payloadLength :=
  u64_at_of_slice rfl

/-- Decoding an event with a known kind, and without an unexpected length, returns its fields. -/
theorem decode_event_event_of (hkind : kind ≤ 5) (hlength : hasPayload kind = false →
    payloadLength = 0) :
    decodeEvent (eventOf kind requestId timeNs objectKey payloadLength) = .ok
      { kind, requestId, timeNs, objectKey,
        payloadLen := if hasPayload kind then some payloadLength else none } := by
  have hhead : (eventOf kind requestId timeNs objectKey payloadLength).headD 0 = kind := rfl
  simp only [decodeEvent, hhead, u64_at_request_id, u64_at_time_ns, u128_at_object_key,
    u64_at_payload_length]
  rw [if_neg (UInt8.not_lt.mpr hkind), if_neg]
  rintro ⟨hnone, hsome⟩
  exact hsome (hlength hnone)

end Fields

/-- Every 41 bytes are an event of the fields that are read from them. -/
theorem event_of_fields {eventBytes : List UInt8} (h : eventBytes.length = eventSize) :
    eventOf (eventBytes.headD 0) (u64At eventBytes 1) (u64At eventBytes 9) (u128At eventBytes 17)
      (u64At eventBytes 33) = eventBytes := by
  rw [eventSize] at h
  rw [eventOf, slice_of_u64_at (by omega), slice_of_u64_at (by omega), slice_of_u128_at (by omega),
    slice_of_u64_at (by omega)]
  have hlast : (eventBytes.drop 33).take 8 = eventBytes.drop 33 :=
    List.take_of_length_le (by rw [List.length_drop]; omega)
  have hkey := List.take_append_drop 16 (eventBytes.drop 17)
  have htime := List.take_append_drop 8 (eventBytes.drop 9)
  have hid := List.take_append_drop 8 (eventBytes.drop 1)
  rw [List.drop_drop] at hkey htime hid
  rw [hlast, hkey, htime, hid]
  cases eventBytes with
  | nil => simp at h
  | cons kind rest => rfl

/-- The events that the reader accepts. -/
def Acceptable (eventBytes : List UInt8) : Prop :=
  eventBytes.headD 0 ≤ 5 ∧ (hasPayload (eventBytes.headD 0) = false →
    ∀ byte ∈ eventBytes.drop 33, byte = 0)

/-- A zero length is eight zero bytes. -/
theorem u64_at_eq_zero {eventBytes : List UInt8} (h : eventBytes.length = eventSize) :
    u64At eventBytes 33 = 0 ↔ ∀ byte ∈ eventBytes.drop 33, byte = 0 := by
  rw [eventSize] at h
  have hlast : (eventBytes.drop 33).take 8 = eventBytes.drop 33 :=
    List.take_of_length_le (by rw [List.length_drop]; omega)
  have hslice := slice_of_u64_at (show 33 + 8 ≤ eventBytes.length by omega)
  rw [hlast] at hslice
  constructor
  · intro hzero byte hbyte
    rw [← hslice, hzero] at hbyte
    obtain ⟨index, -, rfl⟩ := List.mem_map.mp hbyte
    simp [leByte]
  · intro hzero
    refine u64_at_of_slice ?_
    rw [hlast, ← hslice]
    refine List.ext_getElem (by simp) fun index hleft hright => ?_
    have hmem : (toLeBytes 8 (u64At eventBytes 33).toNat)[index] ∈ eventBytes.drop 33 := by
      rw [← hslice]
      exact List.getElem_mem hleft
    refine (hzero _ hmem).trans ?_
    simp [toLeBytes, leByte]

/-- Decoding succeeds exactly on acceptable events, and encoding the result gives them back. -/
theorem decode_event_ok {eventBytes : List UInt8} (h : eventBytes.length = eventSize) :
    ((∃ event, decodeEvent eventBytes = .ok event) ↔ Acceptable eventBytes) ∧
      ∀ event, decodeEvent eventBytes = .ok event → event.encode = eventBytes := by
  have hzero := u64_at_eq_zero h
  unfold decodeEvent Acceptable
  by_cases hkind : 5 < eventBytes.headD 0
  · simp only [if_pos hkind]
    refine ⟨⟨?_, ?_⟩, ?_⟩
    · rintro ⟨_, hok⟩
      cases hok
    · rintro ⟨hle, -⟩
      exact absurd hle (UInt8.not_le.mpr hkind)
    · intro _ hok
      cases hok
  · simp only [if_neg hkind]
    have hle := UInt8.not_lt.mp hkind
    by_cases hlength : hasPayload (eventBytes.headD 0) = false ∧ u64At eventBytes 33 ≠ 0
    · simp only [if_pos hlength]
      refine ⟨⟨?_, ?_⟩, ?_⟩
      · rintro ⟨_, hok⟩
        cases hok
      · rintro ⟨-, hempty⟩
        exact absurd (hzero.mpr (hempty hlength.1)) hlength.2
      · intro _ hok
        cases hok
    · simp only [if_neg hlength]
      have hempty : hasPayload (eventBytes.headD 0) = false → u64At eventBytes 33 = 0 := by
        intro hnone
        by_contra hsome
        exact hlength ⟨hnone, hsome⟩
      refine ⟨⟨fun _ => ⟨hle, fun hnone => hzero.mp (hempty hnone)⟩, fun _ => ⟨_, rfl⟩⟩, ?_⟩
      have hvalue : (if hasPayload (eventBytes.headD 0) then some (u64At eventBytes 33)
          else none).getD 0 = u64At eventBytes 33 := by
        cases hpayload : hasPayload (eventBytes.headD 0) with
        | true => simp
        | false => simp [hempty hpayload]
      intro event hok
      cases hok
      simp only [Event.encode, hvalue]
      exact event_of_fields h

end Feuer.Trace
