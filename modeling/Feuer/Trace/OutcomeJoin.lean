import Feuer.Lib.ListLemmas
import Feuer.Trace.StartSelection

/-!
# Joining outcomes to starts

The second pass meets the outcomes in the order of the packages, so an outcome can come before or
after other outcomes of its object, and before its start. `Loadable` says in terms of the multiset
of events when a trace loads, and `Describes` what it then loads to. Both passes are shown to decide
`Loadable`, and the result of `load_requests` is determined by the events alone.
-/

namespace Feuer.Trace

open Lib Storage

/-! ## What a trace loads to -/

/-- The request IDs of the outcomes. -/
def outcomeIds (events : Multiset Event) : Multiset UInt64 :=
  (events.filter (·.kind ≠ 0)).map (·.requestId)

/-- The outcomes of the chosen starts: each start has at most one, which has its key and is not
earlier than it. -/
structure Matched (chosen events : Multiset Event) : Prop where
  once : ∀ start ∈ chosen, (outcomeIds events).count start.requestId ≤ 1
  agrees : ∀ start ∈ chosen, ∀ event ∈ events, event.kind ≠ 0 →
    event.requestId = start.requestId →
      event.objectKey = start.objectKey ∧ start.timeNs ≤ event.timeNs

/-- The successful outcomes of each chosen key have the same length. -/
def Agreeing (chosen events : Multiset Event) : Prop :=
  ∀ start ∈ chosen, ∀ first ∈ events, ∀ second ∈ events,
    first.objectKey = start.objectKey → second.objectKey = start.objectKey →
      ∀ left ∈ first.payloadLen, ∀ right ∈ second.payloadLen, left = right

/-- Some successful outcome has the length of an object. -/
def Measured (events : Multiset Event) (key : ObjectKeyHash) : Prop :=
  ∃ event ∈ events, event.objectKey = key ∧ event.payloadLen ≠ none

/-- When a trace loads. -/
structure Loadable (limit : Option Nat) (events : Multiset Event) : Prop where
  nonempty : selectedStarts limit events ≠ 0
  distinct : ((selectedStarts limit events).map (·.requestId)).Nodup
  matched : Matched (selectedStarts limit events) events
  agreeing : Agreeing (selectedStarts limit events) events
  measured : ∀ start ∈ selectedStarts limit events, Measured events start.objectKey

/-- How many outcomes of each kind the chosen starts have. -/
def outcomeCounts (chosen events : Multiset Event) : List Nat :=
  (List.range 6).map fun kind => events.countP fun event =>
    event.kind ≠ 0 ∧ event.kind.toNat = kind ∧ event.requestId ∈ chosen.map (·.requestId)

/-- The request for a start, if its object has this length. -/
def Event.request (start : Event) (first : Nat) (length : UInt64) : Request :=
  ⟨start.requestId, start.timeNs.toNat - first, toString start.objectKey.val, length⟩

/-- A request is earlier than another, or as early with a smaller ID. -/
def Request.Before (first second : Request) : Prop :=
  first.timeNs < second.timeNs ∨
    first.timeNs = second.timeNs ∧ first.requestId < second.requestId

/-- What a trace loads to. -/
structure Describes (limit : Option Nat) (events : Multiset Event) (result : TraceRequests) :
    Prop where
  requests : ∃ lengths : ObjectKeyHash → UInt64,
    (∀ start ∈ selectedStarts limit events, ∀ event ∈ events,
      event.objectKey = start.objectKey → ∀ length ∈ event.payloadLen,
        lengths start.objectKey = length) ∧
    (result.requests : Multiset Request) = (selectedStarts limit events).map fun start =>
      start.request (earliestStart events) (lengths start.objectKey)
  sorted : result.requests.Pairwise Request.Before
  outcomes : result.outcomes = outcomeCounts (selectedStarts limit events) events
  unmatched : result.unmatchedStarts =
    (selectedStarts limit events).countP fun start => start.requestId ∉ outcomeIds events
  total : result.outcomes.sum + result.unmatchedStarts = result.requests.length

/-- No two requests are before each other. -/
theorem Request.Before.asymm {first second : Request} (h : first.Before second) :
    ¬ second.Before first := by
  unfold Request.Before at *
  rcases h with htime | ⟨htime, hid⟩
  · omega
  · rintro (hother | ⟨-, hother⟩)
    · omega
    · exact UInt64.lt_irrefl _ (UInt64.lt_trans hid hother)

/-- A loadable trace determines what it loads to. -/
theorem Describes.unique {limit : Option Nat} {events : Multiset Event}
    (hload : Loadable limit events) {first second : TraceRequests}
    (hfirst : Describes limit events first) (hsecond : Describes limit events second) :
    first = second := by
  obtain ⟨lengths, hlengths, hrequests⟩ := hfirst.requests
  obtain ⟨others, hothers, hrequests'⟩ := hsecond.requests
  have hsame : (first.requests : Multiset Request) = second.requests := by
    rw [hrequests, hrequests']
    refine Multiset.map_congr rfl fun start hstart => ?_
    obtain ⟨event, hevent, hkey, hlength⟩ := hload.measured start hstart
    obtain ⟨length, hlength⟩ := Option.ne_none_iff_exists'.mp hlength
    rw [hlengths start hstart event hevent hkey length hlength,
      hothers start hstart event hevent hkey length hlength]
  have heq : first.requests = second.requests :=
    List.Perm.eq_of_pairwise (fun _ _ _ _ hlt hgt => absurd hgt hlt.asymm) hfirst.sorted
      hsecond.sorted (Multiset.coe_eq_coe.mp hsame)
  cases first with
  | mk requests outcomes unmatchedStarts =>
      cases second with
      | mk requests' outcomes' unmatchedStarts' =>
          have houtcomes := hfirst.outcomes.trans hsecond.outcomes.symm
          have hunmatched := hfirst.unmatched.trans hsecond.unmatched.symm
          simp_all

/-! ## Smaller sets of events -/

/-- Fewer events have fewer outcomes. -/
theorem outcome_ids_le {events more : Multiset Event} (h : events ≤ more) :
    outcomeIds events ≤ outcomeIds more :=
  Multiset.map_le_map (Multiset.filter_le_filter _ h)

/-- A match of more events is a match of fewer. -/
theorem Matched.mono {chosen events more : Multiset Event} (h : Matched chosen more)
    (hle : events ≤ more) : Matched chosen events where
  once := fun start hstart =>
    (Multiset.count_le_of_le _ (outcome_ids_le hle)).trans (h.once start hstart)
  agrees := fun start hstart event hevent =>
    h.agrees start hstart event (Multiset.mem_of_le hle hevent)

/-- Lengths that agree in more events agree in fewer. -/
theorem Agreeing.mono {chosen events more : Multiset Event} (h : Agreeing chosen more)
    (hle : events ≤ more) : Agreeing chosen events :=
  fun start hstart first hfirst second hsecond =>
    h start hstart first (Multiset.mem_of_le hle hfirst) second (Multiset.mem_of_le hle hsecond)

/-! ## The lengths of the selected objects -/

/-- What is known about an object's length after the events `seen`. -/
def Observed (seen : List Event) (key : ObjectKeyHash) : Option UInt64 → Prop
  | none => ∀ event ∈ seen, event.objectKey = key → event.payloadLen = none
  | some length => (∃ event ∈ seen, event.objectKey = key ∧ event.payloadLen = some length) ∧
      ∀ event ∈ seen, event.objectKey = key → ∀ other ∈ event.payloadLen, other = length

/-- The map of lengths after the events `seen`: its keys are those of the chosen starts. -/
structure LengthsSeen (chosen seen : List Event)
    (lengths : ObjectKeyHash → Option (Option UInt64)) : Prop where
  entered : ∀ start ∈ chosen, ∃ length, lengths start.objectKey = some length ∧
    Observed seen start.objectKey length
  foreign : ∀ key, (∀ start ∈ chosen, start.objectKey ≠ key) → lengths key = none

/-- One length was seen for each key, so the lengths agree. -/
theorem LengthsSeen.agreeing {chosen seen : List Event}
    {lengths : ObjectKeyHash → Option (Option UInt64)} (h : LengthsSeen chosen seen lengths) :
    Agreeing chosen seen := by
  intro start hstart first hfirst second hsecond hkey hkey' left hleft right hright
  obtain ⟨length, -, hobserved⟩ := h.entered start hstart
  cases length with
  | none =>
      rw [hobserved first hfirst hkey] at hleft
      cases hleft
  | some length =>
      rw [hobserved.2 first hfirst hkey left hleft, hobserved.2 second hsecond hkey' right hright]

/-- An event of another object, or without a length, changes nothing. -/
theorem Observed.append {seen : List Event} {key : ObjectKeyHash} {length : Option UInt64}
    (h : Observed seen key length) {event : Event}
    (hother : event.objectKey = key → event.payloadLen = none) :
    Observed (seen ++ [event]) key length := by
  cases length with
  | none =>
      intro other hmem hkey
      rcases List.mem_append.mp hmem with hseen | hnew
      · exact h other hseen hkey
      · cases List.mem_singleton.mp hnew
        exact hother hkey
  | some length =>
      obtain ⟨⟨witness, hwitness, hfound⟩, hall⟩ := h
      refine ⟨⟨witness, List.mem_append_left _ hwitness, hfound⟩, ?_⟩
      intro other hmem hkey observed hobserved
      rcases List.mem_append.mp hmem with hseen | hnew
      · exact hall other hseen hkey observed hobserved
      · cases List.mem_singleton.mp hnew
        rw [hother hkey] at hobserved
        cases hobserved

/-- An event that observes a length which no earlier one contradicts. -/
theorem Observed.observe {seen : List Event} {key : ObjectKeyHash} {length : Option UInt64}
    (h : Observed seen key length) {event : Event} {observed : UInt64}
    (hkey : event.objectKey = key) (hevent : event.payloadLen = some observed)
    (hlength : ∀ previous ∈ length, previous = observed) :
    Observed (seen ++ [event]) key (some observed) := by
  refine ⟨⟨event, by simp, hkey, hevent⟩, ?_⟩
  intro other hmem hother value hvalue
  rcases List.mem_append.mp hmem with hseen | hnew
  · cases length with
    | none =>
        rw [h other hseen hother] at hvalue
        cases hvalue
    | some previous => exact (h.2 other hseen hother value hvalue).trans (hlength previous rfl)
  · cases List.mem_singleton.mp hnew
    rw [hevent] at hvalue
    cases hvalue
    rfl

/-- An error, because of what the events are. -/
def Refused (Wrong : Prop) (failure : LoadFailure) : Prop :=
  (∃ error, failure = .error error) ∧ Wrong

/-- A length is refused just when it differs from one that was seen. -/
theorem observe_length_seen {chosen seen : List Event}
    {lengths : ObjectKeyHash → Option (Option UInt64)} (h : LengthsSeen chosen seen lengths)
    (event : Event) :
    Outcome (Refused (¬ Agreeing chosen ↑(seen ++ [event])))
      (LengthsSeen chosen (seen ++ [event])) (observeLength lengths event) := by
  have hignored (hother : ∀ start ∈ chosen, event.objectKey = start.objectKey →
      event.payloadLen = none) : LengthsSeen chosen (seen ++ [event]) lengths := by
    refine ⟨fun start hstart => ?_, h.foreign⟩
    obtain ⟨length, hlength, hobserved⟩ := h.entered start hstart
    exact ⟨length, hlength, hobserved.append (hother start hstart)⟩
  unfold observeLength
  split
  next length observed hlength hobserved =>
    have hentered : ∃ start ∈ chosen, start.objectKey = event.objectKey := by
      by_contra hnone
      push Not at hnone
      rw [h.foreign _ hnone] at hlength
      cases hlength
    obtain ⟨start, hstart, hkey⟩ := hentered
    obtain ⟨known, hknown, hseen⟩ := h.entered start hstart
    rw [hkey, hlength, Option.some.injEq] at hknown
    subst hknown
    split
    next hdiffers =>
      refine ⟨⟨_, rfl⟩, fun hagree => ?_⟩
      cases length with
      | none => simp at hdiffers
      | some previous =>
          obtain ⟨⟨witness, hwitness, hfound⟩, -⟩ := hseen
          have hsame := hagree start hstart witness (by simp [hwitness]) event (by simp)
            hfound.1 hkey.symm previous hfound.2 observed hobserved
          simp [hsame] at hdiffers
    next hsame =>
      have hprevious : ∀ previous ∈ length, previous = observed := by
        rintro previous rfl
        simpa using hsame
      refine ⟨fun other hother => ?_, fun key hkeys => ?_⟩
      · by_cases hsame : other.objectKey = event.objectKey
        · refine ⟨some observed, by rw [hsame, Function.update_self], ?_⟩
          rw [hsame, ← hkey]
          exact hseen.observe hkey.symm hobserved hprevious
        · obtain ⟨known, hknown, hold⟩ := h.entered other hother
          refine ⟨known, by rw [Function.update_of_ne hsame, hknown], ?_⟩
          exact hold.append fun heq => absurd heq.symm hsame
      · rw [Function.update_of_ne, h.foreign key hkeys]
        rintro rfl
        exact hkeys start hstart hkey
  next hnone =>
    refine hignored fun start hstart hkey => ?_
    obtain ⟨length, hlength, -⟩ := h.entered start hstart
    cases hpayload : event.payloadLen with
    | none => rfl
    | some observed => exact absurd hpayload (hnone length observed (hkey ▸ hlength))

/-! ## The joined starts -/

/-- What the second pass has joined after the events `seen`. -/
structure OutcomesSeen (chosen seen : List Event) (pass : OutcomePass) : Prop where
  starts : pass.starts = chosen.map fun start =>
    (start, decide (start.requestId ∈ outcomeIds seen))
  outcomes : pass.outcomes = outcomeCounts chosen seen
  joined : pass.outcomes.sum = pass.starts.countP (·.2)
  matched : Matched chosen seen

/-- An outcome adds its request ID. -/
theorem outcome_ids_append_outcome {seen : List Event} {event : Event} (hkind : event.kind ≠ 0) :
    outcomeIds ↑(seen ++ [event]) = outcomeIds seen + {event.requestId} := by
  simp [outcomeIds, ← Multiset.coe_add, hkind]

/-- A request has an outcome if it had one, or if this is one. -/
theorem mem_outcome_ids_append {seen : List Event} {event : Event} (hkind : event.kind ≠ 0)
    {requestId : UInt64} : requestId ∈ outcomeIds ↑(seen ++ [event]) ↔
      requestId ∈ outcomeIds seen ∨ requestId = event.requestId := by
  simp [outcome_ids_append_outcome hkind]

/-- A start, or an outcome of a request that was not chosen, counts for nothing. -/
theorem outcome_counts_append_other {chosen seen : List Event} {event : Event}
    (hother : event.kind ≠ 0 → ∀ start ∈ chosen, start.requestId ≠ event.requestId) :
    outcomeCounts chosen ↑(seen ++ [event]) = outcomeCounts chosen seen := by
  refine List.map_congr_left fun kind _ => ?_
  simp only [Multiset.coe_countP, List.countP_append]
  rw [Nat.add_eq_left, List.countP_eq_zero]
  intro other hmem
  cases List.mem_singleton.mp hmem
  simp only [decide_eq_true_eq]
  rintro ⟨hkind, -, hid⟩
  obtain ⟨start, hstart, hid⟩ := Multiset.mem_map.mp hid
  exact hother hkind start (by simpa using hstart) hid

/-- An outcome of a chosen request counts once for its kind. -/
theorem outcome_counts_append_outcome {chosen seen : List Event} {event start : Event}
    (hkind : event.kind ≠ 0) (hstart : start ∈ chosen) (hid : start.requestId = event.requestId) :
    outcomeCounts chosen ↑(seen ++ [event]) =
      (outcomeCounts chosen seen).modify event.kind.toNat (· + 1) := by
  have hchosen : event.requestId ∈ (chosen : Multiset Event).map (·.requestId) :=
    Multiset.mem_map.mpr ⟨start, by simpa using hstart, hid⟩
  refine List.ext_getElem (by simp [outcomeCounts]) fun kind hleft hright => ?_
  rw [List.getElem_modify]
  simp only [outcomeCounts, List.getElem_map, List.getElem_range, Multiset.coe_countP,
    List.countP_append, List.countP_singleton]
  by_cases hsame : event.kind.toNat = kind
  · simp only [hkind, hsame, hchosen, ne_eq, not_false_eq_true, and_self, decide_true, if_true]
  · simp only [hsame, false_and, and_false, decide_false, Bool.false_eq_true, if_false,
      Nat.add_zero]

/-- Counting an outcome adds one to the sum of the counts. -/
theorem sum_modify_succ {counts : List Nat} {index : Nat} (h : index < counts.length) :
    (counts.modify index (· + 1)).sum = counts.sum + 1 := by
  have hsum := sum_map_modify (· + 1) id (List.getElem?_eq_getElem h)
  simp only [List.map_id, id_eq] at hsum
  omega

/-- Marking the one start with a request ID adds one to the starts with an outcome. -/
theorem countP_mark_outcome {starts : List (Event × Bool)} {request : Event}
    (hnodup : (starts.map (·.1.requestId)).Nodup) (hmem : (request, false) ∈ starts) :
    (starts.map (markOutcome request.requestId)).countP (·.2) = starts.countP (·.2) + 1 := by
  induction starts with
  | nil => simp at hmem
  | cons start rest ih =>
      rw [List.map_cons, List.nodup_cons] at hnodup
      rcases List.mem_cons.mp hmem with rfl | hrest
      · have hothers : rest.map (markOutcome request.requestId) = rest := by
          refine (List.map_congr_left fun other hother => ?_).trans (List.map_id rest)
          refine if_neg fun hid => hnodup.1 ?_
          exact List.mem_map.mpr ⟨other, hother, hid⟩
        rw [List.map_cons, hothers]
        simp [markOutcome]
      · have hne : start.1.requestId ≠ request.requestId := fun hid =>
          hnodup.1 (List.mem_map.mpr ⟨_, hrest, hid.symm⟩)
        rw [List.map_cons, markOutcome, if_neg hne, List.countP_cons, List.countP_cons,
          ih hnodup.2 hrest]
        omega

/-- An event that joins nothing leaves what is joined. -/
theorem OutcomesSeen.append_other {chosen seen : List Event} {pass : OutcomePass}
    (h : OutcomesSeen chosen seen pass) {event : Event}
    (hother : event.kind ≠ 0 → ∀ start ∈ chosen, start.requestId ≠ event.requestId) :
    OutcomesSeen chosen (seen ++ [event]) pass := by
  have hcount : ∀ start ∈ chosen, (outcomeIds ↑(seen ++ [event])).count start.requestId =
      (outcomeIds seen).count start.requestId := by
    intro start hstart
    by_cases hkind : event.kind = 0
    · simp [outcomeIds, hkind]
    · rw [outcome_ids_append_outcome hkind, Multiset.count_add, Multiset.count_singleton,
        if_neg (hother hkind start hstart), Nat.add_zero]
  refine { starts := ?_, outcomes := ?_, joined := h.joined, matched := ⟨?_, ?_⟩ }
  · rw [h.starts]
    refine List.map_congr_left fun start hstart => ?_
    have hiff : start.requestId ∈ outcomeIds seen ↔
        start.requestId ∈ outcomeIds ↑(seen ++ [event]) := by
      rw [← Multiset.count_pos, ← Multiset.count_pos, hcount start hstart]
    simp only [hiff]
  · rw [h.outcomes, outcome_counts_append_other hother]
  · exact fun start hstart => (hcount start hstart).trans_le (h.matched.once start hstart)
  · intro start hstart other hmem hkind hid
    rcases List.mem_append.mp (Multiset.mem_coe.mp hmem) with hseen | hnew
    · exact h.matched.agrees start hstart other hseen hkind hid
    · cases List.mem_singleton.mp hnew
      exact absurd hid.symm (hother hkind start hstart)

/-- The first outcome of a chosen request, if it fits the request's start. -/
theorem OutcomesSeen.append_outcome {chosen seen : List Event} {pass : OutcomePass}
    (h : OutcomesSeen chosen seen pass) (hnodup : (chosen.map (·.requestId)).Nodup)
    {event request : Event} (hkind : event.kind ≠ 0) (hrequest : request ∈ chosen)
    (hid : request.requestId = event.requestId) (hopen : request.requestId ∉ outcomeIds seen)
    (hindex : event.kind.toNat < pass.outcomes.length)
    (hkey : event.objectKey = request.objectKey) (htime : request.timeNs ≤ event.timeNs) :
    OutcomesSeen chosen (seen ++ [event])
      { pass with
        starts := pass.starts.map (markOutcome event.requestId)
        outcomes := pass.outcomes.modify event.kind.toNat (· + 1) } := by
  have hunique : ∀ start ∈ chosen, start.requestId = event.requestId → start = request :=
    fun start hstart heq => List.inj_on_of_nodup_map hnodup hstart hrequest (heq.trans hid.symm)
  refine { starts := ?_, outcomes := ?_, joined := ?_, matched := ⟨?_, ?_⟩ }
  · simp only [h.starts, List.map_map]
    refine List.map_congr_left fun start hstart => ?_
    simp only [Function.comp_apply, markOutcome, mem_outcome_ids_append hkind]
    split
    next heq => simp [heq]
    next hne => simp [hne]
  · rw [h.outcomes, outcome_counts_append_outcome hkind hrequest hid]
  · have hids : (pass.starts.map (·.1.requestId)).Nodup := by
      rw [h.starts, List.map_map]
      exact hnodup
    have hmem : (request, false) ∈ pass.starts := by
      rw [h.starts]
      exact List.mem_map.mpr ⟨request, hrequest, by simp [hopen]⟩
    rw [sum_modify_succ hindex, h.joined, ← hid, countP_mark_outcome hids hmem]
  · intro start hstart
    have hold := h.matched.once start hstart
    rw [outcome_ids_append_outcome hkind, Multiset.count_add, Multiset.count_singleton]
    split
    next heq =>
      rw [hunique start hstart heq, Multiset.count_eq_zero.mpr hopen]
    next => exact hold
  · intro start hstart other hmem hother hsame
    rcases List.mem_append.mp (Multiset.mem_coe.mp hmem) with hseen | hnew
    · exact h.matched.agrees start hstart other hseen hother hsame
    · cases List.mem_singleton.mp hnew
      cases hunique start hstart hsame.symm
      exact ⟨hkey, htime⟩

/-- Joining one outcome. -/
theorem join_outcome_seen {chosen seen : List Event} {pass : OutcomePass}
    (hnodup : (chosen.map (·.requestId)).Nodup) (h : OutcomesSeen chosen seen pass)
    {event : Event} (hkind : event.kind ≠ 0) (hle : event.kind ≤ 5) :
    Outcome (Refused (¬ Matched chosen ↑(seen ++ [event])))
      (fun next => OutcomesSeen chosen (seen ++ [event]) next ∧ next.lengths = pass.lengths)
      (joinOutcome pass event) := by
  have hevent : event ∈ ((seen ++ [event] : List Event) : Multiset Event) := by simp
  unfold joinOutcome
  split
  next hnone =>
    refine ⟨h.append_other fun _ start hstart hid => ?_, rfl⟩
    rw [h.starts, List.find?_eq_none] at hnone
    exact hnone _ (List.mem_map_of_mem hstart) (decide_eq_true hid)
  next request hasOutcome hfind =>
    have hid : request.requestId = event.requestId := by
      simpa using List.find?_some hfind
    have hmem := List.mem_of_find?_eq_some hfind
    have hentry := hmem
    rw [h.starts] at hentry
    obtain ⟨_, hstart, hpair⟩ := List.mem_map.mp hentry
    cases hpair
    split
    next hdone =>
      refine ⟨⟨_, rfl⟩, fun hmatched => ?_⟩
      have honce := hmatched.once request (by simpa using hstart)
      have hpos := Multiset.count_pos.mpr (of_decide_eq_true hdone)
      rw [outcome_ids_append_outcome hkind, Multiset.count_add, hid,
        Multiset.count_singleton_self] at honce
      rw [hid] at hpos
      omega
    next hopen =>
      split
      next hdiffers =>
        refine ⟨⟨_, rfl⟩, fun hmatched => ?_⟩
        have hagrees := hmatched.agrees request (by simpa using hstart) event hevent hkind hid.symm
        rcases hdiffers with hkey | htime
        · exact hkey hagrees.1
        · exact UInt64.not_lt.mpr hagrees.2 htime
      next hagrees =>
        rw [not_or, not_not, UInt64.not_lt] at hagrees
        have hindex : event.kind.toNat < pass.outcomes.length := by
          have hlength : pass.outcomes.length = 6 := by simp [h.outcomes, outcomeCounts]
          have hkind5 : event.kind.toNat ≤ 5 := hle
          omega
        rw [if_pos hindex]
        refine ⟨h.append_outcome hnodup hkind hstart hid ?_ hindex hagrees.1 hagrees.2, rfl⟩
        simpa using hopen

/-- The second pass after the events `seen`. -/
structure Joined (chosen seen : List Event) (pass : OutcomePass) : Prop where
  lengths : LengthsSeen chosen seen pass.lengths
  outcomes : OutcomesSeen chosen seen pass

/-- An outcome is joined to its start, or refused for what the events are. -/
theorem visit_outcome_joined {chosen seen : List Event} {pass : OutcomePass}
    (hnodup : (chosen.map (·.requestId)).Nodup) (h : Joined chosen seen pass) {event : Event}
    (hwell : event.WellFormed) :
    Outcome (Refused (¬ (Agreeing chosen ↑(seen ++ [event]) ∧
        Matched chosen ↑(seen ++ [event]))))
      (Joined chosen (seen ++ [event])) (visitOutcome pass event) := by
  unfold visitOutcome
  by_cases hkind : event.kind = 0
  · rw [if_pos hkind]
    have hnone : event.payloadLen = none := by
      have hpayload := hwell.payload
      rw [hkind] at hpayload
      cases hlength : event.payloadLen with
      | none => rfl
      | some length => simp [hlength, hasPayload] at hpayload
    refine ⟨⟨fun start hstart => ?_, h.lengths.foreign⟩, h.outcomes.append_other ?_⟩
    · obtain ⟨length, hlength, hobserved⟩ := h.lengths.entered start hstart
      exact ⟨length, hlength, hobserved.append fun _ => hnone⟩
    · exact fun hne => absurd hkind hne
  · rw [if_neg hkind]
    refine ((observe_length_seen h.lengths event).weaken ?_).bind fun lengths hlengths => ?_
    · rintro failure ⟨herror, hwrong⟩
      exact ⟨herror, fun hboth => hwrong hboth.1⟩
    · have hpass : OutcomesSeen chosen seen { pass with lengths } :=
        ⟨h.outcomes.starts, h.outcomes.outcomes, h.outcomes.joined, h.outcomes.matched⟩
      refine ((join_outcome_seen hnodup hpass hkind hwell.kind_le).weaken ?_).mono ?_
      · rintro failure ⟨herror, hwrong⟩
        exact ⟨herror, fun hboth => hwrong hboth.2⟩
      · rintro next ⟨hnext, hsame⟩
        exact ⟨hsame ▸ hlengths, hnext⟩

/-- The second pass succeeds exactly if the outcomes fit the chosen starts. -/
theorem second_pass_spec {chosen events : List Event} {pass : OutcomePass}
    (hnodup : (chosen.map (·.requestId)).Nodup) (hinit : Joined chosen [] pass)
    (hwell : ∀ event ∈ events, event.WellFormed) :
    Outcome (Refused (¬ (Agreeing chosen events ∧ Matched chosen events)))
      (Joined chosen events) (run visitOutcome pass events) := by
  refine run_outcome_done (fun before event after pass hsplit hseen => ?_) hinit
  rw [List.nil_append] at hsplit
  have hmem : event ∈ events := by simp [hsplit]
  refine (visit_outcome_joined hnodup hseen (hwell event hmem)).weaken ?_
  rintro failure ⟨herror, hwrong⟩
  have hle : ((before ++ [event] : List Event) : Multiset Event) ≤ events := by
    rw [hsplit, Multiset.coe_le]
    exact ⟨_, List.Perm.refl _, by simp⟩
  exact ⟨herror, fun hboth => hwrong ⟨hboth.1.mono hle, hboth.2.mono hle⟩⟩

/-! ## Entering the starts -/

/-- The maps after the starts `seen` were entered. -/
structure Entered (seen : List Event) (pass : OutcomePass) : Prop where
  starts : pass.starts = seen.map fun start => (start, false)
  lengths : LengthsSeen seen [] pass.lengths
  outcomes : pass.outcomes = List.replicate 6 0
  nodup : (seen.map (·.requestId)).Nodup

/-- A start enters its key without a length. -/
theorem LengthsSeen.enter {chosen : List Event}
    {lengths : ObjectKeyHash → Option (Option UInt64)} (h : LengthsSeen chosen [] lengths)
    (request : Event) :
    LengthsSeen (chosen ++ [request]) []
      (Function.update lengths request.objectKey (some none)) := by
  refine ⟨fun start hstart => ?_, fun key hkeys => ?_⟩
  · by_cases hkey : start.objectKey = request.objectKey
    · exact ⟨none, by rw [hkey, Function.update_self], by simp [Observed]⟩
    · have hold : start ∈ chosen := by
        rcases List.mem_append.mp hstart with hold | hnew
        · exact hold
        · exact absurd (congrArg _ (List.mem_singleton.mp hnew)) hkey
      obtain ⟨length, hlength, hobserved⟩ := h.entered start hold
      exact ⟨length, by rw [Function.update_of_ne hkey, hlength], hobserved⟩
  · rw [Function.update_of_ne (hkeys request (by simp)).symm]
    exact h.foreign key fun start hstart => hkeys start (by simp [hstart])

/-- A start is entered, or its request ID was entered before. -/
theorem insert_start_entered {seen : List Event} {pass : OutcomePass} (h : Entered seen pass)
    (request : Event) :
    Outcome (Refused (¬ ((seen ++ [request]).map (·.requestId)).Nodup))
      (Entered (seen ++ [request])) (insertStart pass request) := by
  have hknown : (pass.starts.any (·.1.requestId = request.requestId)) = true ↔
      request.requestId ∈ seen.map (·.requestId) := by
    simp [h.starts]
  have hnodup : ((seen ++ [request]).map (·.requestId)).Nodup ↔
      request.requestId ∉ seen.map (·.requestId) := by
    rw [List.map_append, List.map_singleton, List.nodup_append_comm, List.singleton_append,
      List.nodup_cons, and_iff_left h.nodup]
  unfold insertStart
  split
  next hdouble => exact ⟨⟨_, rfl⟩, fun hids => hnodup.mp hids (hknown.mp hdouble)⟩
  next hfresh =>
    exact
      { starts := by simp [h.starts]
        lengths := h.lengths.enter request
        outcomes := h.outcomes
        nodup := hnodup.mpr fun hmem => hfresh (hknown.mpr hmem) }

/-- The starts are entered exactly if their request IDs are distinct. -/
theorem insert_starts_spec (chosen : List Event) :
    Outcome (Refused (¬ (chosen.map (·.requestId)).Nodup)) (Entered chosen)
      (run insertStart ⟨[], fun _ => none, List.replicate 6 0⟩ chosen) := by
  have hinit : Entered [] ⟨[], fun _ => none, List.replicate 6 0⟩ :=
    { starts := rfl, lengths := ⟨by simp, by simp⟩, outcomes := rfl, nodup := List.nodup_nil }
  refine run_outcome_done (fun before request after pass hsplit hseen => ?_) hinit
  refine (insert_start_entered hseen request).weaken ?_
  rintro failure ⟨herror, hwrong⟩
  refine ⟨herror, fun hnodup => hwrong ?_⟩
  rw [List.nil_append] at hsplit
  rw [hsplit, List.append_cons, List.map_append] at hnodup
  exact hnodup.of_append_left

/-- Nothing is joined before the second pass. -/
theorem Entered.joined {chosen : List Event} {pass : OutcomePass} (h : Entered chosen pass) :
    Joined chosen [] pass := by
  have hjoined : pass.starts.countP (·.2) = 0 := by
    rw [h.starts, List.countP_eq_zero]
    simp
  exact
    { lengths := h.lengths
      outcomes :=
        { starts := by simp [h.starts, outcomeIds]
          outcomes := by simp [h.outcomes, outcomeCounts]
          joined := by simp [h.outcomes, hjoined]
          matched := ⟨by simp [outcomeIds], by simp⟩ } }

/-! ## The result -/

/-- A map over a list succeeds if every item does, with the values of the items. -/
theorem mapM_outcome {ε α β : Type} {tolerated : ε → Prop} {f : α → Except ε β} {g : α → β}
    {Good : α → Prop} {items : List α}
    (h : ∀ item ∈ items, Outcome tolerated (fun value => value = g item ∧ Good item) (f item)) :
    Outcome tolerated (fun values => values = items.map g ∧ ∀ item ∈ items, Good item)
      (items.mapM f) := by
  induction items with
  | nil => exact ⟨rfl, by simp⟩
  | cons item rest ih =>
      rw [List.mapM_cons]
      refine (h item (by simp)).bind fun first hfirst => ?_
      refine (ih fun other hother => h other (by simp [hother])).bind fun others hothers => ?_
      exact ⟨congrArg₂ List.cons hfirst.1 hothers.1, List.forall_mem_cons.mpr
        ⟨hfirst.2, hothers.2⟩⟩

/-- The length that the second pass found for an object. -/
def OutcomePass.knownLength (pass : OutcomePass) (key : ObjectKeyHash) : UInt64 :=
  ((pass.lengths key).getD none).getD 0

/-- The request for a joined start exists exactly if its object has a known length. -/
theorem request_of_joined {chosen events : List Event} {pass : OutcomePass}
    (h : LengthsSeen chosen events pass.lengths) {first : Nat} {start : Event × Bool}
    (hstart : start.1 ∈ chosen) (hfirst : first ≤ start.1.timeNs.toNat) :
    Outcome (Refused (¬ Measured events start.1.objectKey))
      (fun request => request = start.1.request first (pass.knownLength start.1.objectKey) ∧
        Measured events start.1.objectKey) (requestOf first pass.lengths start) := by
  obtain ⟨length, hlength, hobserved⟩ := h.entered start.1 hstart
  unfold requestOf
  rw [checked_sub_eq_ok hfirst, ok_bind, hlength]
  cases length with
  | none =>
      refine ⟨⟨_, rfl⟩, ?_⟩
      rintro ⟨event, hevent, hkey, hsome⟩
      exact hsome (hobserved event hevent hkey)
  | some length =>
      obtain ⟨⟨event, hevent, hkey, hobserved⟩, -⟩ := hobserved
      exact ⟨by simp [OutcomePass.knownLength, hlength, Event.request],
        event, hevent, hkey, by simp [hobserved]⟩

/-- The order of the requests is transitive. -/
theorem Request.not_after_trans (first second third : Request) (h : first.notAfter second = true)
    (h' : second.notAfter third = true) : first.notAfter third = true := by
  simp only [Request.notAfter, decide_eq_true_eq, UInt64.le_iff_toNat_le] at *
  omega

/-- Any two requests are ordered. -/
theorem Request.not_after_total (first second : Request) :
    (first.notAfter second || second.notAfter first) = true := by
  simp only [Request.notAfter, Bool.or_eq_true, decide_eq_true_eq, UInt64.le_iff_toNat_le]
  omega

/-- Sorting requests with distinct IDs leaves no choice. -/
theorem sorted_before {requests : List Request} (hnodup : (requests.map (·.requestId)).Nodup) :
    (requests.mergeSort Request.notAfter).Pairwise Request.Before := by
  have hsorted := List.pairwise_mergeSort Request.not_after_trans Request.not_after_total requests
  have hdistinct : (requests.mergeSort Request.notAfter).Pairwise
      fun first second => first.requestId ≠ second.requestId :=
    List.pairwise_map.mp
      (((List.mergeSort_perm requests Request.notAfter).map _).nodup_iff.mpr hnodup)
  refine (hsorted.and hdistinct).imp ?_
  rintro first second ⟨hle, hne⟩
  simp only [Request.notAfter, decide_eq_true_eq] at hle
  refine hle.imp_right fun h => ⟨h.1, ?_⟩
  exact UInt64.lt_of_le_of_ne h.2 hne

/-- The length that was found for a chosen object is the one that its outcomes have. -/
theorem LengthsSeen.known_length_eq {chosen events : List Event} {pass : OutcomePass}
    (h : LengthsSeen chosen events pass.lengths) {start event : Event} (hstart : start ∈ chosen)
    (hevent : event ∈ events) (hkey : event.objectKey = start.objectKey) {length : UInt64}
    (hlength : event.payloadLen = some length) : pass.knownLength start.objectKey = length := by
  obtain ⟨known, hknown, hobserved⟩ := h.entered start hstart
  unfold OutcomePass.knownLength
  rw [hknown]
  cases known with
  | none =>
      rw [hobserved event hevent hkey] at hlength
      cases hlength
  | some known => exact (hobserved.2 event hevent hkey length hlength).symm

/-- The starts without an outcome are those that were never joined. -/
theorem OutcomesSeen.unmatched {chosen events : List Event} {pass : OutcomePass}
    (h : OutcomesSeen chosen events pass) :
    pass.starts.length - pass.outcomes.sum =
      (chosen : Multiset Event).countP fun start => start.requestId ∉ outcomeIds events := by
  have hsplit := List.length_eq_countP_add_countP
    (fun start : Event => decide (start.requestId ∈ outcomeIds events)) (l := chosen)
  rw [h.joined, h.starts, List.countP_map, List.length_map, Multiset.coe_countP, hsplit]
  simp [Function.comp_def]

/-- What the joined starts of a loadable trace are turned into. -/
theorem finish_requests_joined (order : MapOrder (Event × Bool)) {limit : Option Nat}
    {chosen events : List Event} {pass : OutcomePass} {first : Nat}
    (hchosen : (chosen : Multiset Event) = selectedStarts limit events) (hsome : chosen ≠ [])
    (hnodup : (chosen.map (·.requestId)).Nodup)
    (hfirst : ∀ start ∈ chosen, earliestStart events = first ∧ first ≤ start.timeNs.toNat)
    (h : Joined chosen events pass) :
    Outcome (Refused (¬ Loadable limit events))
      (fun result => Loadable limit events ∧ Describes limit events result)
      (finishRequests order first pass) := by
  have hsum : pass.outcomes.sum ≤ pass.starts.length := by
    rw [h.outcomes.joined]
    exact List.countP_le_length
  have hstarts : ((order.values pass.starts).map Prod.fst).Perm chosen := by
    refine ((order.perm pass.starts).map _).trans (List.Perm.of_eq ?_)
    rw [h.outcomes.starts, List.map_map]
    exact List.map_id chosen
  have hmem : ∀ start ∈ order.values pass.starts, start.1 ∈ chosen := fun start hstart =>
    hstarts.mem_iff.mp (List.mem_map_of_mem hstart)
  unfold finishRequests
  rw [checked_sub_eq_ok hsum, ok_bind]
  refine (mapM_outcome fun start hstart => (request_of_joined h.lengths (hmem start hstart)
    (hfirst start.1 (hmem start hstart)).2).weaken ?_).bind ?_
  · rintro failure ⟨herror, hwrong⟩
    refine ⟨herror, fun hload => hwrong (hload.measured start.1 ?_)⟩
    rw [← hchosen]
    exact hmem start hstart
  · rintro requests ⟨hrequests, hmeasured⟩
    have hperm : requests.Perm (chosen.map fun start =>
        start.request first (pass.knownLength start.objectKey)) := by
      rw [hrequests]
      refine (List.Perm.of_eq ?_).trans (hstarts.map _)
      rw [List.map_map]
      rfl
    have hsorted := List.mergeSort_perm requests Request.notAfter
    have hids : (requests.map (·.requestId)).Nodup := by
      refine (hperm.map _).nodup_iff.mpr ?_
      rw [List.map_map]
      exact hnodup
    have hload : Loadable limit events := by
      refine ⟨?_, ?_, hchosen ▸ h.outcomes.matched, hchosen ▸ h.lengths.agreeing, ?_⟩
      · rw [← hchosen]
        simpa using hsome
      · rw [← hchosen, Multiset.map_coe, Multiset.coe_nodup]
        exact hnodup
      · intro start hstart
        rw [← hchosen, Multiset.mem_coe, ← hstarts.mem_iff] at hstart
        obtain ⟨entry, hentry, rfl⟩ := List.mem_map.mp hstart
        exact hmeasured entry hentry
    refine ⟨hload, { requests := ⟨pass.knownLength, ?_, ?_⟩, sorted := sorted_before hids,
                     outcomes := hchosen ▸ h.outcomes.outcomes,
                     unmatched := hchosen ▸ h.outcomes.unmatched, total := ?_ }⟩
    · intro start hstart event hevent hkey length hlength
      rw [← hchosen] at hstart
      exact h.lengths.known_length_eq hstart hevent hkey hlength
    · rw [← hchosen, Multiset.map_coe, Multiset.coe_eq_coe]
      refine (hsorted.trans hperm).trans (List.Perm.of_eq ?_)
      exact List.map_congr_left fun start hstart => by rw [(hfirst start hstart).1]
    · have hlength : (requests.mergeSort Request.notAfter).length = pass.starts.length := by
        rw [(hsorted.trans hperm).length_eq, h.outcomes.starts, List.length_map, List.length_map]
      exact (Nat.add_sub_cancel' hsum).trans hlength.symm

/-- `load_requests` decides whether a trace is loadable and returns what it loads to. -/
theorem load_requests_outcome (order : MapOrder (Event × Bool)) {input : TraceInput}
    {packages : List (List Event)} {seconds : Option UInt64} (hholds : input.Holds packages)
    (hnonempty : ∀ events ∈ packages, events ≠ [])
    (hwell : ∀ event ∈ packages.flatten, event.WellFormed)
    (hseconds : ∀ limit ∈ seconds, 0 < nanoseconds limit ∧ nanoseconds limit < wordSize) :
    Outcome (Refused (¬ Loadable (seconds.map nanoseconds) packages.flatten))
      (fun result => Loadable (seconds.map nanoseconds) packages.flatten ∧
        Describes (seconds.map nanoseconds) packages.flatten result)
      (loadRequests order input seconds) := by
  have hleading : prefixNs seconds = .ok (seconds.map nanoseconds) := by
    cases seconds with
    | none => rfl
    | some limit => exact if_pos (hseconds limit rfl).symm
  have hevents : ∀ events ∈ packages, ∀ event ∈ events, event.WellFormed :=
    fun events hmem event hevent => hwell event (List.mem_flatten.mpr ⟨events, hmem, hevent⟩)
  unfold loadRequests
  rw [hleading, ok_bind]
  by_cases hpackages : packages = []
  · subst hpackages
    rw [visit_events_no_packages _ hholds]
    exact ⟨⟨_, rfl⟩, fun hload => hload.nonempty (Multiset.filter_zero _)⟩
  · obtain ⟨pass, chosen, hrun, hretain, hchosen, hfirst⟩ :=
      first_pass_spec (seconds.map nanoseconds) packages.flatten
    rw [visit_events_eq _ hholds hpackages hnonempty hevents, hrun, ok_bind, hretain, ok_bind]
    split
    next hempty =>
      rw [List.isEmpty_iff] at hempty
      exact ⟨⟨_, rfl⟩, fun hload => hload.nonempty (by rw [← hchosen, hempty]; rfl)⟩
    next hsome =>
      rw [List.isEmpty_iff] at hsome
      refine ((insert_starts_spec chosen).weaken ?_).bind fun entered hentered => ?_
      · rintro failure ⟨herror, hwrong⟩
        refine ⟨herror, fun hload => hwrong ?_⟩
        have hdistinct := hload.distinct
        rw [← hchosen] at hdistinct
        simpa using hdistinct
      rw [visit_events_eq _ hholds hpackages hnonempty hevents]
      refine ((second_pass_spec hentered.nodup hentered.joined hwell).weaken ?_).bind
        fun joined hjoined => ?_
      · rintro failure ⟨herror, hwrong⟩
        refine ⟨herror, fun hload => hwrong ?_⟩
        rw [hchosen]
        exact ⟨hload.agreeing, hload.matched⟩
      exact finish_requests_joined order hchosen hsome hentered.nodup hfirst hjoined

/-- A loadable trace loads to what describes it, and any other is refused with an error. -/
theorem load_requests_cases (order : MapOrder (Event × Bool)) {events : Multiset Event}
    (hwell : ∀ event ∈ events, event.WellFormed) {seconds : Option UInt64}
    (hseconds : ∀ limit ∈ seconds, 0 < nanoseconds limit ∧ nanoseconds limit < wordSize)
    {input : TraceInput} {packages : List (List Event)} (hholds : input.Holds packages)
    (hnonempty : ∀ package ∈ packages, package ≠ [])
    (hevents : (packages.flatten : Multiset Event) = events) :
    (Loadable (seconds.map nanoseconds) events → ∃ result,
      loadRequests order input seconds = .ok result ∧
      Describes (seconds.map nanoseconds) events result) ∧
    (¬ Loadable (seconds.map nanoseconds) events → ∃ error,
      loadRequests order input seconds = .error (.error error)) := by
  have houtcome := load_requests_outcome order hholds hnonempty
    (fun event hevent => hwell event (hevents ▸ hevent)) hseconds
  rw [hevents] at houtcome
  cases hresult : loadRequests order input seconds with
  | ok result =>
      rw [hresult] at houtcome
      exact ⟨fun _ => ⟨result, rfl, houtcome.2⟩, fun hwrong => absurd houtcome.1 hwrong⟩
  | error failure =>
      rw [hresult] at houtcome
      obtain ⟨⟨error, rfl⟩, hwrong⟩ := houtcome
      exact ⟨fun hload => absurd hload hwrong, fun _ => ⟨error, rfl⟩⟩

/-- Loading depends on the events alone. However the events of one session are ordered and split
into packages, and in whatever order hash maps are iterated, `load_requests` succeeds exactly if
the trace is loadable, then returns the one result that the specification describes, and otherwise
returns an error: it never panics. -/
theorem load_requests_order_independent (events : Multiset Event)
    (hwell : ∀ event ∈ events, event.WellFormed) (seconds : Option UInt64)
    (hseconds : ∀ limit ∈ seconds, 0 < nanoseconds limit ∧ nanoseconds limit < wordSize) :
    (∀ order input packages, TraceInput.Holds input packages →
      (∀ package ∈ packages, package ≠ []) → (packages.flatten : Multiset Event) = events →
      (Loadable (seconds.map nanoseconds) events → ∃ result,
        loadRequests order input seconds = .ok result ∧
        Describes (seconds.map nanoseconds) events result) ∧
      (¬ Loadable (seconds.map nanoseconds) events → ∃ error,
        loadRequests order input seconds = .error (.error error))) ∧
    ∀ order order' input input' packages packages', TraceInput.Holds input packages →
      TraceInput.Holds input' packages' → (∀ package ∈ packages, package ≠ []) →
      (∀ package ∈ packages', package ≠ []) → (packages.flatten : Multiset Event) = events →
      (packages'.flatten : Multiset Event) = events →
      (loadRequests order input seconds).toOption =
        (loadRequests order' input' seconds).toOption := by
  refine ⟨fun order input packages hholds hnonempty hevents =>
    load_requests_cases order hwell hseconds hholds hnonempty hevents, ?_⟩
  intro order order' input input' packages packages' hholds hholds' hnonempty hnonempty' hevents
    hevents'
  have hfirst := load_requests_cases order hwell hseconds hholds hnonempty hevents
  have hsecond := load_requests_cases order' hwell hseconds hholds' hnonempty' hevents'
  by_cases hload : Loadable (seconds.map nanoseconds) events
  · obtain ⟨result, hresult, hdescribes⟩ := hfirst.1 hload
    obtain ⟨result', hresult', hdescribes'⟩ := hsecond.1 hload
    rw [hresult, hresult', hdescribes.unique hload hdescribes']
  · obtain ⟨error, herror⟩ := hfirst.2 hload
    obtain ⟨error', herror'⟩ := hsecond.2 hload
    rw [herror, herror']
    rfl

/-- A memory hit in one package with its start, and in a package before it. -/
theorem load_requests_order_independent_split :
    (loadRequests ⟨id, List.Perm.refl⟩
      (.package (encodePackage [⟨0, 1, 5, 3, none⟩, ⟨1, 1, 9, 3, some 7⟩])) (some 1)).toOption =
    (loadRequests ⟨List.reverse, List.reverse_perm⟩
      (.archive [.ofEvents "trace" [⟨1, 1, 9, 3, some 7⟩], .ofEvents "trace" [⟨0, 1, 5, 3, none⟩]])
      (some 1)).toOption := by
  have hwell : ∀ event ∈ (([⟨0, 1, 5, 3, none⟩, ⟨1, 1, 9, 3, some 7⟩] : List Event) :
      Multiset Event), event.WellFormed := by
    intro event hevent
    simp only [Multiset.mem_coe, List.mem_cons, List.not_mem_nil, or_false] at hevent
    rcases hevent with rfl | rfl
    · exact ⟨by decide, by decide⟩
    · exact ⟨by decide, by decide⟩
  refine (load_requests_order_independent _ hwell (some 1) ?_).2 _ _ _ _ _ _ (.package _)
    (@TraceInput.Holds.archive _ [[⟨1, 1, 9, 3, some 7⟩], [⟨0, 1, 5, 3, none⟩]] "trace" rfl)
    (by simp) (by simp) rfl (Multiset.coe_eq_coe.mpr (List.Perm.swap _ _ _))
  rintro limit hlimit
  cases hlimit
  exact ⟨by decide, by decide⟩

end Feuer.Trace
