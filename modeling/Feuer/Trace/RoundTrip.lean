import Feuer.Trace.Replay

/-!
# What the reader makes of what the writer delivers

The packages of a trace decode to the events that were sent, in order. Conversely the reader
accepts exactly the header followed by acceptable events, and encoding what it decoded gives the
package back.
-/

namespace Feuer.Trace

open Lib Storage

/-- The event that a call records. -/
def TraceCall.event : TraceCall → Event
  | .sendRequestStart requestId elapsedNs objectKeyHash =>
      ⟨0, requestId, elapsedNs, objectKeyHash, none⟩
  | .sendOutcome requestId elapsedNs objectKeyHash outcome payloadLength =>
      ⟨outcome.discriminant + 1, requestId, elapsedNs, objectKeyHash,
        if outcome.succeeded then some payloadLength else none⟩

/-- The reader's payload kinds are the writer's successful outcomes. -/
theorem has_payload_outcome (outcome : LookupOutcome) :
    hasPayload (outcome.discriminant + 1) = outcome.succeeded := by
  cases outcome <;> decide

/-- The kinds of outcomes end at 5. -/
theorem outcome_kind_le (outcome : LookupOutcome) : outcome.discriminant + 1 ≤ 5 := by
  cases outcome <;> decide

/-- What was sent is decoded. -/
theorem decode_event_event_bytes {call : TraceCall} (hsent : call.Sent) :
    decodeEvent call.eventBytes = .ok call.event := by
  cases call with
  | sendRequestStart requestId elapsedNs objectKeyHash =>
      rw [event_bytes_start]
      exact decode_event_event_of 0 _ _ _ _ (by decide) fun _ => rfl
  | sendOutcome requestId elapsedNs objectKeyHash outcome payloadLength =>
      rw [event_bytes_outcome, decode_event_event_of _ _ _ _ _ (outcome_kind_le outcome),
        has_payload_outcome]
      · rfl
      · rw [has_payload_outcome]
        exact hsent

/-! ## Packages -/

/-- A header followed by whole events is cut into these events. -/
theorem decode_package_events {events : List (List UInt8)} (hnonempty : events ≠ [])
    (hevents : ∀ event ∈ events, event.length = eventSize) :
    decodePackage (packageHeader ++ events.flatten) = .ok (events.map decodeEvent) := by
  have hdrop : (packageHeader ++ events.flatten).drop 8 = events.flatten := rfl
  have hpieces := chunks_exact_flatten (by decide : 0 < eventSize) hevents
  have hlength : events.flatten.length = events.length * eventSize := by
    rw [List.length_flatten, List.map_congr_left hevents]
    simp
  have hpos := List.length_pos_iff.mpr hnonempty
  unfold decodePackage
  rw [if_neg (by simp [packageHeader]), if_neg, hdrop, hpieces]
  rw [List.length_append, show packageHeader.length = 8 from rfl, Nat.add_sub_cancel_left, hlength,
    Nat.mul_mod_left]
  simp only [eventSize, ne_eq, not_true_eq_false, or_false]
  omega

/-- Successes in a list are a success of the list. -/
theorem mapM_id_ok {ε α : Type} (values : List α) :
    (values.map (Except.ok : α → Except ε α)).mapM id = .ok values := by
  induction values with
  | nil => rfl
  | cons value rest ih =>
      rw [List.map_cons, List.mapM_cons, ih]
      rfl

/-- A sequence of results without an error is a sequence of values. -/
theorem eq_map_of_mapM_id {ε α : Type} {items : List (Except ε α)} {values : List α}
    (h : items.mapM id = .ok values) : items = values.map .ok := by
  induction items generalizing values with
  | nil =>
      cases h
      rfl
  | cons item rest ih =>
      rw [List.mapM_cons] at h
      obtain ⟨value, hvalue, h⟩ := bind_eq_ok.mp h
      obtain ⟨later, hlater, h⟩ := bind_eq_ok.mp h
      cases h
      rw [List.map_cons, ← ih hlater]
      exact congrArg (· :: rest) hvalue

/-- An accepted package is the header followed by whole events. -/
theorem decode_package_ok {package : List UInt8} {items : List (Except DecodeError Event)}
    (h : decodePackage package = .ok items) :
    ∃ events, events ≠ [] ∧ (∀ event ∈ events, event.length = eventSize) ∧
      package = packageHeader ++ events.flatten ∧ items = events.map decodeEvent := by
  unfold decodePackage at h
  split at h
  next => cases h
  next hheader =>
    split at h
    next => cases h
    next hlength =>
      cases h
      simp only [not_or, ne_eq, not_not] at hheader hlength
      obtain ⟨hne, hwhole⟩ := hlength
      have hdrop : (package.drop 8).length % eventSize = 0 := by
        rw [List.length_drop]
        exact hwhole
      obtain ⟨hflatten, hpieces⟩ := flatten_chunks_exact hdrop
      have hpackage : package = packageHeader ++
        (chunksExact eventSize (package.drop 8)).flatten := by
        rw [hflatten, ← hheader]
        exact (List.take_append_drop 8 package).symm
      refine ⟨_, ?_, hpieces, hpackage, rfl⟩
      intro hempty
      rw [hempty, List.flatten_nil, List.append_nil] at hpackage
      exact hne (congrArg List.length hpackage)

/-- The event of some bytes that decode. -/
def decodedEvent (eventBytes : List UInt8) : Event :=
  match decodeEvent eventBytes with
  | .ok event => event
  | .error _ => ⟨0, 0, 0, 0, none⟩

/-- A decoded event has the fields that stand in its bytes. -/
theorem decoded_event_of_ok {eventBytes : List UInt8} {event : Event}
    (h : decodeEvent eventBytes = .ok event) : decodedEvent eventBytes = event := by
  rw [decodedEvent, h]

/-- A package whose events all decode is accepted. -/
theorem decode_events_events {events : List (List UInt8)} (hnonempty : events ≠ [])
    (hevents : ∀ event ∈ events, event.length = eventSize)
    (hok : ∀ event ∈ events, ∃ decoded, decodeEvent event = .ok decoded) :
    decodeEvents (packageHeader ++ events.flatten) = .ok (events.map decodedEvent) := by
  have hmap : events.map decodeEvent = (events.map decodedEvent).map .ok := by
    rw [List.map_map]
    refine List.map_congr_left fun event hevent => ?_
    obtain ⟨decoded, hdecoded⟩ := hok event hevent
    rw [hdecoded, Function.comp, decoded_event_of_ok hdecoded]
  rw [decodeEvents, decode_package_events hnonempty hevents, ok_bind, hmap, mapM_id_ok]

/-- The packages of a trace are accepted, and their events are those that were sent, in order.
Conversely a package is accepted exactly if it is the header followed by at least one event, each
of a known kind and without a payload length unless its kind has one, and then encoding the decoded
events gives the package back. -/
theorem trace_round_trip :
    (∀ (succeeds : Nat → Bool) (calls : List TraceCall), (∀ call, succeeds call = true) →
      (∀ call ∈ calls, call.Sent) → ∃ decoded : List (List Event),
        (AccessTrace.packages succeeds calls).map decodeEvents = decoded.map .ok ∧
        decoded.flatten = calls.map TraceCall.event) ∧
    ∀ package : List UInt8,
      ((∃ decoded, decodeEvents package = .ok decoded) ↔
        ∃ events : List (List UInt8), events ≠ [] ∧ package = packageHeader ++ events.flatten ∧
          ∀ event ∈ events, event.length = eventSize ∧ Acceptable event) ∧
      ∀ decoded, decodeEvents package = .ok decoded → encodePackage decoded = package := by
  refine ⟨fun succeeds calls hsucceeds hsent => ?_, fun package => ⟨⟨?_, ?_⟩, ?_⟩⟩
  · have hlength : ∀ event ∈ calls.map TraceCall.eventBytes, event.length = eventSize := by
      intro event hevent
      obtain ⟨call, -, rfl⟩ := List.mem_map.mp hevent
      exact length_event_bytes call
    obtain ⟨groups, hgroups, hflatten, hnonempty⟩ := deliver_packages_groups hsucceeds 0 []
      (calls.map TraceCall.eventBytes) (by simp) hlength
    rw [List.nil_append] at hflatten
    have hmem : ∀ group ∈ groups, ∀ event ∈ group, ∃ call ∈ calls, event = call.eventBytes := by
      intro group hgroup event hevent
      have hall : event ∈ calls.map TraceCall.eventBytes := by
        rw [← hflatten]
        exact List.mem_flatten.mpr ⟨group, hgroup, hevent⟩
      obtain ⟨call, hcall, rfl⟩ := List.mem_map.mp hall
      exact ⟨call, hcall, rfl⟩
    refine ⟨groups.map (List.map decodedEvent), ?_, ?_⟩
    · have hpackages : AccessTrace.packages succeeds calls =
          groups.map fun group => packageHeader ++ group.flatten := hgroups
      rw [hpackages, List.map_map, List.map_map]
      refine List.map_congr_left fun group hgroup => ?_
      refine decode_events_events (hnonempty group hgroup) (fun event hevent => ?_)
        fun event hevent => ?_
      · obtain ⟨call, -, rfl⟩ := hmem group hgroup event hevent
        exact length_event_bytes call
      · obtain ⟨call, hcall, rfl⟩ := hmem group hgroup event hevent
        exact ⟨call.event, decode_event_event_bytes (hsent call hcall)⟩
    · rw [← List.map_flatten, hflatten, List.map_map]
      refine List.map_congr_left fun call hcall => ?_
      exact decoded_event_of_ok (decode_event_event_bytes (hsent call hcall))
  · rintro ⟨decoded, hdecoded⟩
    obtain ⟨items, hitems, hdecoded⟩ := bind_eq_ok.mp hdecoded
    obtain ⟨events, hnonempty, hlength, rfl, rfl⟩ := decode_package_ok hitems
    refine ⟨events, hnonempty, rfl, fun event hevent => ⟨hlength event hevent, ?_⟩⟩
    have hok := List.mem_map_of_mem (f := decodeEvent) hevent
    rw [eq_map_of_mapM_id hdecoded] at hok
    obtain ⟨found, -, hfound⟩ := List.mem_map.mp hok
    exact (decode_event_ok (hlength event hevent)).1.mp ⟨found, hfound.symm⟩
  · rintro ⟨events, hnonempty, rfl, hevents⟩
    refine ⟨_, decode_events_events hnonempty (fun event hevent => (hevents event hevent).1) ?_⟩
    intro event hevent
    obtain ⟨hlength, hacceptable⟩ := hevents event hevent
    exact (decode_event_ok hlength).1.mpr hacceptable
  · intro decoded hdecoded
    obtain ⟨items, hitems, hdecoded⟩ := bind_eq_ok.mp hdecoded
    obtain ⟨events, -, hlength, rfl, rfl⟩ := decode_package_ok hitems
    have hok := eq_map_of_mapM_id hdecoded
    have hencode : decoded.map Event.encode = events := by
      refine List.ext_getElem (by simpa using (congrArg List.length hok).symm) ?_
      intro index hleft hright
      rw [List.length_map] at hleft
      have hitem : (events.map decodeEvent)[index]? = (decoded.map Except.ok)[index]? := by rw [hok]
      rw [List.getElem?_map, List.getElem?_map, List.getElem?_eq_getElem hleft,
        List.getElem?_eq_getElem hright] at hitem
      rw [List.getElem_map]
      exact (decode_event_ok (hlength _ (List.getElem_mem hright))).2 _ (Option.some.inj hitem)
    rw [encodePackage, hencode]

/-- A lookup that misses, from the sender to the reader. -/
theorem trace_round_trip_miss :
    ∃ decoded : List (List Event),
      (AccessTrace.packages (fun _ => true)
        [.sendRequestStart 1 5 3, .sendOutcome 1 9 3 .miss 0]).map decodeEvents =
          decoded.map .ok ∧
      decoded.flatten = [⟨0, 1, 5, 3, none⟩, ⟨5, 1, 9, 3, none⟩] := by
  refine trace_round_trip.1 (fun _ => true) [.sendRequestStart 1 5 3, .sendOutcome 1 9 3 .miss 0]
    (fun _ => rfl) fun call hcall => ?_
  rcases List.mem_pair.mp hcall with rfl | rfl
  · trivial
  · exact fun _ => rfl

end Feuer.Trace
