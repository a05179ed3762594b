import Feuer.Trace.LoadRequests
import Feuer.Trace.RoundTrip
import Mathlib.Data.Multiset.Filter
import Mathlib.Order.Lattice.Nat

/-!
# The events of a trace and the starts selected from them

A trace is a multiset of events: `TraceInput.Holds` says that an input has them in some packages,
in some order. Visiting such an input is one run over the events (`visit_events_eq`). The first pass
compares every start with the earliest one seen so far, which can be later than the earliest one of
the trace, so it keeps too much on the way. `first_pass_spec` shows that the final `retain` leaves
exactly the starts of the prefix.
-/

namespace Feuer.Trace

open Lib Storage

/-! ## Inputs -/

/-- The events that a package can have: the kind is known, and exactly the successful outcomes have
a payload length. -/
structure Event.WellFormed (event : Event) : Prop where
  kind_le : event.kind ≤ 5
  payload : event.payloadLen.isSome = hasPayload event.kind

/-- A regular archive member with a package of these events. -/
def ArchiveMember.ofEvents (parent : String) (events : List Event) : ArchiveMember :=
  ⟨true, true, parent, encodePackage events⟩

/-- The packages of an input, in the order in which they are visited. Members of an archive that
are not packages can stand between them. -/
inductive TraceInput.Holds : TraceInput → List (List Event) → Prop
  | package (events : List Event) : Holds (.package (encodePackage events)) [events]
  | archive {members : List ArchiveMember} {packages : List (List Event)} (parent : String)
      (h : members.filter (·.isPackage) = packages.map (ArchiveMember.ofEvents parent)) :
      Holds (.archive members) packages

/-- A well-formed event is decoded from its encoding. -/
theorem Event.WellFormed.decode {event : Event} (h : event.WellFormed) :
    decodeEvent event.encode = .ok event := by
  obtain ⟨hkind, hpayload⟩ := h
  cases event with
  | mk kind requestId timeNs objectKey payloadLen =>
      unfold Event.encode
      rw [decode_event_event_of _ _ _ _ _ hkind]
      · cases payloadLen with
        | none => simp_all
        | some length => simp_all
      · intro hnone
        cases payloadLen with
        | none => rfl
        | some length => simp_all

/-- A package of well-formed events is decoded. -/
theorem decode_package_encode_package {events : List Event} (hnonempty : events ≠ [])
    (hwell : ∀ event ∈ events, event.WellFormed) :
    decodePackage (encodePackage events) = .ok (events.map .ok) := by
  have hlength : ∀ bytes ∈ events.map Event.encode, bytes.length = eventSize := by
    intro bytes hbytes
    obtain ⟨event, -, rfl⟩ := List.mem_map.mp hbytes
    simp [Event.encode, eventOf, eventSize]
  unfold encodePackage
  rw [decode_package_events (by simpa using hnonempty) hlength, List.map_map]
  exact congrArg _ (List.map_congr_left fun event hevent => (hwell event hevent).decode)

section Visit

variable {σ : Type} {visit : σ → Event → Except LoadFailure σ}

/-- Reading a package visits its events. -/
theorem read_package_eq (state : σ) {events : List Event} (hnonempty : events ≠ [])
    (hwell : ∀ event ∈ events, event.WellFormed) :
    readPackage visit state (encodePackage events) = run visit state events := by
  unfold readPackage
  rw [decode_package_encode_package hnonempty hwell]
  clear hnonempty hwell
  induction events generalizing state with
  | nil => rfl
  | cons event rest ih =>
      simp only [List.map_cons, run, visitItem]
      cases visit state event with
      | error failure => rfl
      | ok next => exact ih next

/-- Members that are not packages change nothing. -/
theorem run_visit_member_filter (state : σ × Option String) (members : List ArchiveMember) :
    run (visitMember visit) state members =
      run (visitMember visit) state (members.filter (·.isPackage)) := by
  induction members generalizing state with
  | nil => rfl
  | cons member rest ih =>
      by_cases hpackage : member.isPackage
      · rw [List.filter_cons_of_pos hpackage]
        simp only [run]
        cases visitMember visit state member with
        | error failure => rfl
        | ok next => exact ih next
      · rw [List.filter_cons_of_neg hpackage]
        simp only [run, visitMember, hpackage, Bool.false_eq_true, if_false, ok_bind]
        exact ih state

/-- The packages of one session are visited one after the other. -/
theorem run_visit_member_packages {parent : String} {packages : List (List Event)} (state : σ)
    {directory : Option String} (hdirectory : directory = none ∨ directory = some parent)
    (hnonempty : ∀ events ∈ packages, events ≠ [])
    (hwell : ∀ events ∈ packages, ∀ event ∈ events, event.WellFormed) :
    run (visitMember visit) (state, directory) (packages.map (ArchiveMember.ofEvents parent)) =
      (run visit state packages.flatten >>= fun next =>
        .ok (next, if packages = [] then directory else some parent)) := by
  induction packages generalizing state directory with
  | nil => rfl
  | cons events rest ih =>
      have hsession : directory.any (· ≠ parent) = false := by
        rcases hdirectory with rfl | rfl <;> simp
      simp only [List.map_cons, run, visitMember, ArchiveMember.ofEvents, if_true, hsession,
        Bool.false_eq_true, if_false, List.flatten_cons, run_append,
        read_package_eq state (hnonempty events (by simp)) (hwell events (by simp))]
      cases run visit state events with
      | error failure => rfl
      | ok next =>
          refine (ih next (Or.inr rfl) (fun others hothers => hnonempty others (by simp [hothers]))
            fun others hothers => hwell others (by simp [hothers])).trans ?_
          simp

/-- Visiting an input is one run over its events, in whatever packages they are. -/
theorem visit_events_eq {input : TraceInput} {packages : List (List Event)} (state : σ)
    (hholds : input.Holds packages) (hpackages : packages ≠ [])
    (hnonempty : ∀ events ∈ packages, events ≠ [])
    (hwell : ∀ events ∈ packages, ∀ event ∈ events, event.WellFormed) :
    visitEvents visit state input = run visit state packages.flatten := by
  cases hholds with
  | package events =>
      simp only [visitEvents, List.flatten_cons, List.flatten_nil, List.append_nil]
      exact read_package_eq state (hnonempty events (by simp)) (hwell events (by simp))
  | archive parent hmembers =>
      simp only [visitEvents]
      rw [run_visit_member_filter, hmembers,
        run_visit_member_packages state (Or.inl rfl) hnonempty hwell]
      cases run visit state packages.flatten with
      | error failure => rfl
      | ok next => simp [hpackages]

/-- An archive without packages is refused. -/
theorem visit_events_no_packages {input : TraceInput} (state : σ) (hholds : input.Holds []) :
    visitEvents visit state input = .error (.error .noPackages) := by
  cases hholds with
  | archive parent hmembers =>
      simp only [visitEvents]
      rw [run_visit_member_filter, hmembers]
      rfl

end Visit

/-! ## The selected starts -/

/-- The time of the earliest start. -/
noncomputable def earliestStart (events : Multiset Event) : Nat :=
  sInf {time | ∃ event ∈ events, event.kind = 0 ∧ event.timeNs.toNat = time}

/-- A start in the half-open prefix that begins at `first`. -/
def StartsWithin (limit : Option Nat) (first : Nat) (event : Event) : Prop :=
  event.kind = 0 ∧ ∀ bound ∈ limit, event.timeNs.toNat < first + bound

instance (limit : Option Nat) (first : Nat) : DecidablePred (StartsWithin limit first) := fun _ =>
  inferInstanceAs (Decidable (_ ∧ _))

/-- The starts in the prefix from the earliest start. -/
noncomputable def selectedStarts (limit : Option Nat) (events : Multiset Event) : Multiset Event :=
  events.filter (StartsWithin limit (earliestStart events))

/-- The earliest start has the least time of all starts. -/
theorem earliest_start_eq {events : Multiset Event} {first : Nat}
    (hleast : ∀ event ∈ events, event.kind = 0 → first ≤ event.timeNs.toNat)
    (hmem : ∃ event ∈ events, event.kind = 0 ∧ event.timeNs.toNat = first) :
    earliestStart events = first := by
  refine Nat.le_antisymm (Nat.sInf_le hmem) ?_
  have hset : {time | ∃ event ∈ events, event.kind = 0 ∧ event.timeNs.toNat = time}.Nonempty :=
    ⟨first, hmem⟩
  obtain ⟨event, hevent, hkind, htime⟩ := Nat.sInf_mem hset
  exact (hleast event hevent hkind).trans_eq htime

/-- The test of the first pass, if the start is not before `first`. -/
theorem in_prefix_eq {limit : Option Nat} {first : Nat} {event : Event} (hkind : event.kind = 0)
    (hfirst : first ≤ event.timeNs.toNat) :
    inPrefix limit first event = .ok (decide (StartsWithin limit first event)) := by
  cases limit with
  | none => simp [inPrefix, StartsWithin, hkind]
  | some limit =>
      have hiff : event.timeNs.toNat - first < limit ↔ event.timeNs.toNat < first + limit := by
        omega
      simp [inPrefix, StartsWithin, hkind, checked_sub_eq_ok hfirst, hiff]

/-- Retaining by a test that does not fail is filtering. -/
theorem retain_eq {keep : Event → Except LoadFailure Bool} {kept : Event → Bool}
    {events : List Event} (h : ∀ event ∈ events, keep event = .ok (kept event)) :
    retain keep events = .ok (events.filter kept) := by
  induction events with
  | nil => rfl
  | cons event rest ih =>
      rw [retain, h event (by simp), ok_bind, ih fun other hother => h other (by simp [hother]),
        ok_bind, List.filter_cons]

/-- What the first pass knows after the events `seen`. A start that it did not keep lies in no
prefix that begins at or before the earliest start so far. -/
structure StartsSeen (limit : Option Nat) (seen : List Event) (pass : StartPass) : Prop where
  least : ∀ event ∈ seen, event.kind = 0 → pass.firstStartNs ≤ event.timeNs.toNat
  attained : pass.firstStartNs = wordSize - 1 ∨
    ∃ event ∈ seen, event.kind = 0 ∧ event.timeNs.toNat = pass.firstStartNs
  subset : ∀ event ∈ pass.requests, event ∈ seen ∧ event.kind = 0
  kept : ∀ first ≤ pass.firstStartNs,
    pass.requests.filter (StartsWithin limit first) = seen.filter (StartsWithin limit first)

/-- A later first start leaves more time. -/
theorem StartsWithin.of_le {limit : Option Nat} {first later : Nat} {event : Event}
    (h : StartsWithin limit first event) (hle : first ≤ later) :
    StartsWithin limit later event := by
  refine ⟨h.1, fun bound hbound => ?_⟩
  have hlt := h.2 bound hbound
  omega

/-- One visit of the first pass. -/
theorem visit_start_seen {limit : Option Nat} {seen : List Event} {pass : StartPass}
    (h : StartsSeen limit seen pass) (event : Event) :
    Outcome (fun _ => False) (StartsSeen limit (seen ++ [event]))
      (visitStart limit pass event) := by
  unfold visitStart
  by_cases hkind : event.kind = 0
  · simp only [if_pos hkind, in_prefix_eq hkind (Nat.min_le_right _ _), ok_bind]
    refine { least := ?_, attained := ?_, subset := ?_, kept := ?_ }
    · intro other hother hzero
      rcases List.mem_append.mp hother with hseen | hnew
      · exact (Nat.min_le_left _ _).trans (h.least other hseen hzero)
      · cases List.mem_singleton.mp hnew
        exact Nat.min_le_right _ _
    · rcases Nat.le_total pass.firstStartNs event.timeNs.toNat with hle | hle
      · rw [Nat.min_eq_left hle]
        refine h.attained.imp_right ?_
        rintro ⟨other, hother, hfound⟩
        exact ⟨other, List.mem_append_left _ hother, hfound⟩
      · rw [Nat.min_eq_right hle]
        exact Or.inr ⟨event, by simp, hkind, rfl⟩
    · intro other hother
      have hcases : other ∈ pass.requests ∨ other = event := by
        split at hother
        · simpa using hother
        · exact Or.inl hother
      rcases hcases with hold | rfl
      · exact ⟨List.mem_append_left _ (h.subset other hold).1, (h.subset other hold).2⟩
      · exact ⟨by simp, hkind⟩
    · intro first hfirst
      have hold := h.kept first (hfirst.trans (Nat.min_le_left _ _))
      rw [List.filter_append, ← hold]
      split
      next => rw [List.filter_append]
      next hskip =>
        have hout : ¬ StartsWithin limit first event := fun hin =>
          hskip (decide_eq_true (hin.of_le hfirst))
        simp [hout]
  · rw [if_neg hkind]
    have hstart : ∀ other ∈ seen ++ [event], other.kind = 0 → other ∈ seen := by
      intro other hother hzero
      rcases List.mem_append.mp hother with hseen | hnew
      · exact hseen
      · cases List.mem_singleton.mp hnew
        exact absurd hzero hkind
    refine { least := ?_, attained := ?_, subset := ?_, kept := ?_ }
    · exact fun other hother hzero => h.least other (hstart other hother hzero) hzero
    · refine h.attained.imp_right ?_
      rintro ⟨other, hother, hfound⟩
      exact ⟨other, List.mem_append_left _ hother, hfound⟩
    · exact fun other hother =>
        ⟨List.mem_append_left _ (h.subset other hother).1, (h.subset other hother).2⟩
    · intro first hfirst
      have hout : ¬ StartsWithin limit first event := fun hin => hkind hin.1
      rw [List.filter_append, h.kept first hfirst]
      simp [hout]

/-- The earliest start so far is a start, unless there is none. -/
theorem StartsSeen.earliest {limit : Option Nat} {seen : List Event} {pass : StartPass}
    (h : StartsSeen limit seen pass) {start : Event} (hstart : start ∈ seen)
    (hkind : start.kind = 0) : earliestStart seen = pass.firstStartNs := by
  refine earliest_start_eq (by simpa using h.least) ?_
  rcases h.attained with hlast | hfound
  · have hle := h.least start hstart hkind
    have hlt : start.timeNs.toNat < wordSize := start.timeNs.toNat_lt
    exact ⟨start, by simpa using hstart, hkind, by omega⟩
  · simpa using hfound

/-- The first pass selects the starts of the prefix. -/
theorem first_pass_spec (limit : Option Nat) (events : List Event) :
    ∃ pass chosen, run (visitStart limit) ⟨wordSize - 1, []⟩ events = .ok pass ∧
      retain (inPrefix limit pass.firstStartNs) pass.requests = .ok chosen ∧
      (chosen : Multiset Event) = selectedStarts limit events ∧
      ∀ start ∈ chosen, earliestStart events = pass.firstStartNs ∧
        pass.firstStartNs ≤ start.timeNs.toNat := by
  have hinit : StartsSeen limit [] ⟨wordSize - 1, []⟩ :=
    { least := by simp, attained := Or.inl rfl, subset := by simp, kept := by simp }
  have hall : Outcome (fun _ => False) (StartsSeen limit ([] ++ events))
      (run (visitStart limit) ⟨wordSize - 1, []⟩ events) :=
    run_outcome_done (fun _ event _ _ _ hseen => visit_start_seen hseen event) hinit
  obtain ⟨pass, hrun, hpass⟩ := hall.exists_ok
  rw [List.nil_append] at hpass
  have htest : ∀ start ∈ pass.requests, inPrefix limit pass.firstStartNs start =
      .ok (decide (StartsWithin limit pass.firstStartNs start)) := by
    intro start hstart
    have hsubset := hpass.subset start hstart
    exact in_prefix_eq hsubset.2 (hpass.least start hsubset.1 hsubset.2)
  have hretain := retain_eq htest
  rw [hpass.kept _ (Nat.le_refl _)] at hretain
  refine ⟨pass, _, hrun, hretain, ?_, ?_⟩
  · unfold selectedStarts
    rw [Multiset.filter_coe]
    refine congrArg _ (List.filter_congr fun start hstart => decide_eq_decide.mpr ?_)
    constructor
    · intro hin
      rwa [hpass.earliest hstart hin.1]
    · intro hin
      rwa [hpass.earliest hstart hin.1] at hin
  · intro start hstart
    have hmem := List.mem_filter.mp hstart
    have hkind := (of_decide_eq_true hmem.2).1
    exact ⟨hpass.earliest hmem.1 hkind, hpass.least start hmem.1 hkind⟩

end Feuer.Trace
