import Feuer.Storage.MetadataOnFile
import Feuer.Storage.WriteOutcome

/-!
# The reserve and evict loop of a payload write

A `write_payload` call that finds no room samples entries, evicts at most one of them, and tries
again. `Sample` is one such decision, with the shard before and after it, and `samples` are the
decisions of one call in a run whose other steps are anyone's. Both limits of the call go down with
every sample: by one attempt, and by the chunks of the evicted entry. The number of the samples
and the chunks of their entries are therefore bounded by what the call starts with, whatever
the other calls do with the room that it makes.
-/

namespace Feuer.Storage

open Lib
open Memory (sampleCandidates leastBy least_by_split least_by_eq_none least_by_mem)

variable {context : ShardContext}

/-! ## One decision -/

/-- A sampled decision: the entries that were sampled, what the call could still evict, and the
shard before and after. -/
structure Sample where
  before : DiskCacheShard
  after : DiskCacheShard
  budget : EvictionBudget
  score : ObjectKeyHash → Nat → Int
  candidates : List (ObjectKeyHash × DiskEntry)

namespace Sample

/-- The score of a sampled entry. -/
def scoreOf (sample : Sample) (candidate : ObjectKeyHash × DiskEntry) : Int :=
  sample.score candidate.1 candidate.2.payloadLen

/-- The sampled entries that fit the remaining budget. -/
def fitting (sample : Sample) : List (ObjectKeyHash × DiskEntry) :=
  sample.candidates.filter fun candidate => candidate.2.chunkCount ≤ sample.budget.chunks

/-- The entry that the decision evicts. -/
def evicted (sample : Sample) : Option (ObjectKeyHash × DiskEntry) :=
  leastBy sample.scoreOf sample.fitting

/-- The chunks that the decision takes off the budget. -/
def evictedChunks (sample : Sample) : Nat :=
  (sample.evicted.map fun chosen => chosen.2.chunkCount).getD 0

/-- A sample of at most `size` indexed entries evicts the first of the least of those that fit, and
no other entry. -/
structure Selective (size : Nat) (sample : Sample) : Prop where
  length_le : sample.candidates.length ≤ size
  indexed : ∀ candidate ∈ sample.candidates,
    sample.before.entryIndex.entriesByKey.lookup candidate.1 = some candidate.2
  attempts_pos : 0 < sample.budget.attempts
  chunks_le : sample.evictedChunks ≤ sample.budget.chunks
  /-- No entry is evicted only if none fits. -/
  refused : sample.evicted = none →
    ∀ candidate ∈ sample.candidates, sample.budget.chunks < candidate.2.chunkCount
  least : ∀ chosen, sample.evicted = some chosen → ∃ earlier later,
    sample.fitting = earlier ++ chosen :: later ∧
      (∀ other ∈ earlier, sample.scoreOf chosen < sample.scoreOf other) ∧
      ∀ other ∈ later, sample.scoreOf chosen ≤ sample.scoreOf other
  removed : ∀ key, sample.after.entryIndex.view? key =
    if sample.evicted.map Prod.fst = some key then none else sample.before.entryIndex.view? key

variable {sample : Sample}

/-- An evicted entry is within the budget of chunks. -/
theorem evicted_fits {chosen : ObjectKeyHash × DiskEntry} (h : sample.evicted = some chosen) :
    chosen.2.chunkCount ≤ sample.budget.chunks := by
  simpa using (List.mem_filter.mp (least_by_mem h)).2

theorem evicted_chunks_le (sample : Sample) : sample.evictedChunks ≤ sample.budget.chunks := by
  unfold evictedChunks
  cases hevicted : sample.evicted with
  | none => exact Nat.zero_le _
  | some chosen =>
      rw [Option.map_some, Option.getD_some]
      exact evicted_fits hevicted

/-- If none is evicted, no sampled entry fits the budget. -/
theorem fits_of_not_evicted (h : sample.evicted = none) :
    ∀ candidate ∈ sample.candidates, sample.budget.chunks < candidate.2.chunkCount := by
  intro candidate hcandidate
  by_contra hfits
  have hmem : candidate ∈ sample.fitting :=
    List.mem_filter.mpr ⟨hcandidate, by simpa using hfits⟩
  rw [least_by_eq_none h] at hmem
  cases hmem

end Sample

namespace DiskCacheShard

variable {shard after : DiskCacheShard} {pending inFlight : Nat → Nat}

/-- The entries that the next sample looks at. -/
def sampled (shard : DiskCacheShard) (size : Nat) : List (ObjectKeyHash × DiskEntry) :=
  (sampleCandidates shard.entryIndex.nextSampleStart shard.entryIndex.evictionCandidates
    size).1.filterMap fun key =>
      (shard.entryIndex.entriesByKey.lookup key).map fun entry => (key, entry)

/-- A call with this budget samples. -/
def Samples (shard : DiskCacheShard) (budget : EvictionBudget) : Prop :=
  ¬ (budget.attempts = 0 ∨ budget.chunks = 0) ∧ shard.entryIndex.evictionCandidates ≠ []

instance (shard : DiskCacheShard) (budget : EvictionBudget) : Decidable (shard.Samples budget) :=
  inferInstanceAs (Decidable (_ ∧ _))

/-- The sampled keys with their entries, when every one of them has an entry. -/
theorem sampled_entries_eq {keys : List ObjectKeyHash}
    {entries : List (ObjectKeyHash × DiskEntry)} (h : keys.mapM shard.sampledEntry = .ok entries) :
    entries = keys.filterMap fun key =>
      (shard.entryIndex.entriesByKey.lookup key).map fun entry => (key, entry) := by
  induction keys generalizing entries with
  | nil =>
      cases h
      rfl
  | cons key rest ih =>
      rw [List.mapM_cons] at h
      obtain ⟨head, hhead, h⟩ := bind_eq_ok.mp h
      obtain ⟨tail, htail, h⟩ := bind_eq_ok.mp h
      cases h
      unfold sampledEntry at hhead
      split at hhead
      next entry hentry =>
        cases hhead
        simp [hentry, ih htail]
      next => cases hhead

/-- No more entries are sampled than asked for. -/
theorem length_sampled_le (shard : DiskCacheShard) (size : Nat) :
    (shard.sampled size).length ≤ size := by
  refine (List.length_filterMap_le _ _).trans ?_
  exact List.length_take_le _ _

/-- A sampled entry is indexed. -/
theorem lookup_of_mem_sampled {size : Nat} {candidate : ObjectKeyHash × DiskEntry}
    (h : candidate ∈ shard.sampled size) :
    shard.entryIndex.entriesByKey.lookup candidate.1 = some candidate.2 := by
  obtain ⟨key, -, hkey⟩ := List.mem_filterMap.mp h
  obtain ⟨entry, hentry, rfl⟩ := Option.map_eq_some_iff.mp hkey
  exact hentry

/-- A shard with entries has entries to sample. -/
theorem sampled_ne_nil {size : Nat} (h : shard.Consistent context pending inFlight)
    (hlisted : shard.entryIndex.evictionCandidates ≠ []) (hsize : 0 < size) :
    shard.sampled size ≠ [] := by
  have hpos := List.length_pos_iff.mpr hlisted
  obtain ⟨key, hkey⟩ : ∃ key, key ∈ (sampleCandidates shard.entryIndex.nextSampleStart
      shard.entryIndex.evictionCandidates size).1 := by
    refine List.exists_mem_of_length_pos ?_
    simp only [sampleCandidates, List.length_take, List.length_append, List.length_drop]
    omega
  have hmem : key ∈ shard.entryIndex.evictionCandidates :=
    (List.mem_append.mp (List.mem_of_mem_take hkey)).elim List.mem_of_mem_drop List.mem_of_mem_take
  obtain ⟨entry, hentry⟩ := Option.isSome_iff_exists.mp ((h.agreed.ranked.mem_iff key).mp hmem)
  exact List.ne_nil_of_mem (List.mem_filterMap.mpr ⟨key, hkey, by rw [hentry]; rfl⟩)

/-- A decision that removes what it chose, and nothing else. -/
theorem selective_of_removed {size : Nat} {score : ObjectKeyHash → Nat → Int}
    {budget : EvictionBudget} {chosen : Option (ObjectKeyHash × DiskEntry)}
    (hattempts : 0 < budget.attempts)
    (hchosen : (Sample.mk shard after budget score (shard.sampled size)).evicted = chosen)
    (hremoved : ∀ key, after.entryIndex.view? key =
      if chosen.map Prod.fst = some key then none else shard.entryIndex.view? key) :
    Sample.Selective size ⟨shard, after, budget, score, shard.sampled size⟩ where
  length_le := shard.length_sampled_le size
  indexed _ hcandidate := lookup_of_mem_sampled hcandidate
  attempts_pos := hattempts
  chunks_le := Sample.evicted_chunks_le _
  refused := Sample.fits_of_not_evicted
  least _ hevicted := least_by_split hevicted
  removed := hchosen ▸ hremoved

/-- A call that cannot sample changes nothing. Otherwise it takes a decision, which costs an
attempt and the chunks of the evicted entry. -/
theorem sample_and_evict_cases {size : Nat} {score : ObjectKeyHash → Nat → Int}
    {budget remaining : EvictionBudget} {sampled : Bool}
    (h : shard.Consistent context pending inFlight)
    (hsample : shard.sampleAndEvictEntry size score budget = .ok (sampled, after, remaining)) :
    (sampled = false ∧ ¬ shard.Samples budget ∧ after = shard) ∨
    (sampled = true ∧ shard.Samples budget ∧
      Sample.Selective size ⟨shard, after, budget, score, shard.sampled size⟩ ∧
      remaining.attempts + 1 = budget.attempts ∧
      remaining.chunks + (Sample.mk shard after budget score (shard.sampled size)).evictedChunks =
        budget.chunks) := by
  unfold sampleAndEvictEntry at hsample
  split at hsample
  next hspent =>
    cases hsample
    exact .inl ⟨rfl, fun hsamples => hsamples.1 hspent, rfl⟩
  next hleft =>
    split at hsample
    next hempty =>
      cases hsample
      exact .inl ⟨rfl, fun hsamples => hsamples.2 hempty, rfl⟩
    next hcandidates =>
      obtain ⟨entries, hentries, hsample⟩ := bind_eq_ok.mp hsample
      have hsampled : entries = shard.sampled size := sampled_entries_eq hentries
      subst hsampled
      have hattempts : 0 < budget.attempts := Nat.pos_of_ne_zero fun hzero => hleft (.inl hzero)
      have hevicted : ∀ result, (Sample.mk shard result budget score (shard.sampled size)).evicted =
          leastBy (fun candidate => score candidate.1 candidate.2.payloadLen)
            ((shard.sampled size).filter fun candidate =>
              candidate.2.chunkCount ≤ budget.chunks) :=
        fun _ => rfl
      simp only at hsample
      split at hsample
      next hnone =>
        cases hsample
        have hchosen := fun result => (hevicted result).trans hnone
        refine .inr ⟨rfl, ⟨hleft, hcandidates⟩, selective_of_removed hattempts (hchosen _) ?_,
          Nat.sub_add_cancel hattempts, ?_⟩
        · exact fun other => (if_neg (fun hnever => by cases hnever)).symm
        · rw [Sample.evictedChunks, hchosen, Option.map_none, Option.getD_none, Nat.add_zero]
      next key entry hleast =>
        obtain ⟨removed, hremoved, hsample⟩ := bind_eq_ok.mp hsample
        cases hsample
        have hchosen := fun result => (hevicted result).trans hleast
        have hresampled := h.resample (sampleCandidates shard.entryIndex.nextSampleStart
          shard.entryIndex.evictionCandidates size).2
        have hfits : entry.chunkCount ≤ budget.chunks := Sample.evicted_fits (hchosen after)
        refine .inr ⟨rfl, ⟨hleft, hcandidates⟩, selective_of_removed hattempts (hchosen _) ?_,
          Nat.sub_add_cancel hattempts, ?_⟩
        · intro other
          have hview := remove_entry_view hremoved other
          by_cases hkey : other = key
          · rw [hview, if_pos hkey, hkey]
            exact (if_pos rfl).symm
          · rw [hview, if_neg hkey]
            exact (if_neg fun hsome => hkey (Option.some.inj hsome).symm).symm
        · rw [Sample.evictedChunks, hchosen, Option.map_some, Option.getD_some]
          exact Nat.sub_add_cancel hfits

end DiskCacheShard

/-! ## The decisions of a call -/

namespace WritePhase

/-- What is left of a call's limits while it is in the loop. -/
def budget? : WritePhase → Option EvictionBudget
  | .reserving budget | .evicting budget => some budget
  | _ => none

def attemptsLeft (phase : WritePhase) : Nat := (phase.budget?.map EvictionBudget.attempts).getD 0

def chunksLeft (phase : WritePhase) : Nat := (phase.budget?.map EvictionBudget.chunks).getD 0

/-- An upper bound on the steps that are left of the loop: a reservation and a decision for each
attempt, and one more of each that ends it. -/
def loopStepsLeft : WritePhase → Nat
  | .reserving budget => 2 * budget.attempts + 2
  | .evicting budget => 2 * budget.attempts + 1
  | _ => 0

/-- A call outside the loop has nothing left of it. -/
theorem left_eq_zero {phase : WritePhase} (h : phase.budget? = none) :
    phase.attemptsLeft = 0 ∧ phase.chunksLeft = 0 ∧ phase.loopStepsLeft = 0 := by
  cases phase with
  | reserving | evicting => cases h
  | writing | publishing | dropping | finished => exact ⟨rfl, rfl, rfl⟩

end WritePhase

namespace ShardState

variable {state next : ShardState context} {id : Nat} {call : WriteCall context}
  {action : Action context}

/-- The decision that a step takes, if it is one of this call's. -/
def sample? (state next : ShardState context) (id : Nat) (action : Action context) :
    Option Sample :=
  match action, (state.calls.lookup id).map WriteCall.phase with
  | .evict caller score, some (.evicting budget) =>
      if caller = id ∧ state.shard.Samples budget then
        some ⟨state.shard, next.shard, budget, score, state.shard.sampled context.reclaimSampleSize⟩
      else none
  | _, _ => none

/-- One if the step is a step of this call's loop, else zero. -/
def loopStep (state : ShardState context) (id : Nat) (action : Action context) : Nat :=
  match action, (state.calls.lookup id).map WriteCall.phase with
  | .reserve caller, some (.reserving _) => if caller = id then 1 else 0
  | .evict caller _, some (.evicting _) => if caller = id then 1 else 0
  | _, _ => 0

/-- The decisions of a call in a run. -/
def samples (id : Nat) : ShardState context → List (Action context) → List Sample
  | _, [] => []
  | state, action :: rest =>
      match state.step action with
      | .ok next => (state.sample? next id action).toList ++ samples id next rest
      | .error _ => []

/-- The steps of a call's loop in a run. -/
def loopSteps (id : Nat) : ShardState context → List (Action context) → Nat
  | _, [] => 0
  | state, action :: rest =>
      match state.step action with
      | .ok next => state.loopStep id action + loopSteps id next rest
      | .error _ => 0

/-- What a step costs a call that goes from one phase to another. -/
structure LoopProgress (state next : ShardState context) (id : Nat) (action : Action context)
    (before after : WritePhase) : Prop where
  attempts : (state.sample? next id action).toList.length + after.attemptsLeft ≤ before.attemptsLeft
  chunks : ((state.sample? next id action).toList.map Sample.evictedChunks).sum + after.chunksLeft ≤
    before.chunksLeft
  steps : state.loopStep id action + after.loopStepsLeft ≤ before.loopStepsLeft
  selective : ∀ sample, state.sample? next id action = some sample →
    sample.Selective context.reclaimSampleSize
  /-- A step of the loop that takes no decision leaves the index alone. -/
  unsampled : state.sample? next id action = none → before.budget? ≠ none →
    action.id? = some id → next.shard.entryIndex = state.shard.entryIndex

/-- A step that takes no decision of the call and does not prolong its loop. -/
theorem LoopProgress.of_idle {before after : WritePhase}
    (hsample : state.sample? next id action = none)
    (hattempts : after.attemptsLeft ≤ before.attemptsLeft)
    (hchunks : after.chunksLeft ≤ before.chunksLeft)
    (hsteps : state.loopStep id action + after.loopStepsLeft ≤ before.loopStepsLeft)
    (hindex : before.budget? ≠ none → action.id? = some id →
      next.shard.entryIndex = state.shard.entryIndex) :
    LoopProgress state next id action before after where
  attempts := by simpa [hsample] using hattempts
  chunks := by simpa [hsample] using hchunks
  steps := hsteps
  selective sample h := by
    rw [hsample] at h
    cases h
  unsampled _ := hindex

theorem sample?_of_other (h : action.id? ≠ some id) : state.sample? next id action = none := by
  unfold sample?
  split
  next caller score budget heq =>
    rw [if_neg]
    rintro ⟨rfl, -⟩
    exact h rfl
  next => rfl

theorem loop_step_of_other (h : action.id? ≠ some id) : state.loopStep id action = 0 := by
  unfold loopStep
  split
  next caller budget heq =>
    rw [if_neg]
    rintro rfl
    exact h rfl
  next caller score budget heq =>
    rw [if_neg]
    rintro rfl
    exact h rfl
  next => rfl

theorem sample?_of_phase (hcall : state.calls.lookup id = some call)
    (hevict : ∀ caller score budget, action = .evict caller score →
      call.phase = .evicting budget → False) :
    state.sample? next id action = none := by
  unfold sample?
  rw [hcall]
  split
  next heq => exact (hevict _ _ _ rfl (Option.some.inj heq)).elim
  next => rfl

theorem loop_step_of_phase (hcall : state.calls.lookup id = some call)
    (hreserve : ∀ caller budget, action = .reserve caller →
      call.phase = .reserving budget → False)
    (hevict : ∀ caller score budget, action = .evict caller score →
      call.phase = .evicting budget → False) :
    state.loopStep id action = 0 := by
  unfold loopStep
  rw [hcall]
  split
  next heq => exact (hreserve _ _ rfl (Option.some.inj heq)).elim
  next heq => exact (hevict _ _ _ rfl (Option.some.inj heq)).elim
  next => rfl

/-- A step that takes no decision and ends outside the loop. -/
theorem LoopProgress.leave {before after : WritePhase}
    (hsample : state.sample? next id action = none) (hafter : after.budget? = none)
    (hsteps : state.loopStep id action ≤ before.loopStepsLeft)
    (hindex : before.budget? ≠ none → next.shard.entryIndex = state.shard.entryIndex) :
    LoopProgress state next id action before after := by
  obtain ⟨hattempts, hchunks, hzero⟩ := WritePhase.left_eq_zero hafter
  refine .of_idle hsample ?_ ?_ ?_ fun hbefore _ => hindex hbefore
  all_goals omega

/-- A step of a call outside the loop leaves it there. -/
theorem LoopProgress.outside {before after : WritePhase}
    (hsample : state.sample? next id action = none) (hloop : state.loopStep id action = 0)
    (hbefore : before.budget? = none) (hafter : after.budget? = none) :
    LoopProgress state next id action before after :=
  .leave hsample hafter (hloop ▸ Nat.zero_le _) fun h => absurd hbefore h

/-- A decision of the loop. Its costs are those of the sample. -/
theorem evict_progress (h : state.Consistent) (hcall : state.calls.lookup id = some call)
    {budget remaining : EvictionBudget} (hphase : call.phase = .evicting budget)
    {score : ObjectKeyHash → Nat → Int} {sampled : Bool} {shard : DiskCacheShard}
    (hevicted : state.shard.sampleAndEvictEntry context.reclaimSampleSize score budget =
      .ok (sampled, shard, remaining)) (hnext : next.shard = shard) :
    LoopProgress state next id (.evict id score) (.evicting budget)
      (if sampled then .reserving remaining else .finished (.published 0)) := by
  have hloop : state.loopStep id (.evict id score) = 1 := by
    simp only [loopStep, hcall, Option.map_some, hphase, if_true]
  have hsample : state.sample? next id (.evict id score) =
      if state.shard.Samples budget then some ⟨state.shard, next.shard, budget, score,
        state.shard.sampled context.reclaimSampleSize⟩ else none := by
    simp only [sample?, hcall, Option.map_some, hphase, true_and]
  rcases DiskCacheShard.sample_and_evict_cases h.shard hevicted with
    ⟨rfl, hrefused, rfl⟩ | ⟨rfl, hsamples, hselective, hattempts, hchunks⟩
  · rw [if_neg hrefused] at hsample
    exact .of_idle hsample (Nat.zero_le _) (Nat.zero_le _)
      (by rw [hloop]; exact Nat.le_add_left 1 _) fun _ _ => by rw [hnext]
  · rw [if_pos hsamples, hnext] at hsample
    refine ⟨?_, ?_, ?_, fun sample hsome => ?_, fun hnone => ?_⟩
    · rw [hsample]
      show 1 + remaining.attempts ≤ budget.attempts
      omega
    · rw [hsample, Option.toList_some, List.map_singleton, List.sum_singleton]
      show _ + remaining.chunks ≤ budget.chunks
      omega
    · rw [hloop]
      show 1 + (2 * remaining.attempts + 2) ≤ 2 * budget.attempts + 1
      omega
    · rw [hsample] at hsome
      cases hsome
      exact hselective
    · rw [hsample] at hnone
      cases hnone

/-- A reservation attempt of the loop. It takes the call out of the loop, or leaves it one step
before the next decision. -/
theorem reserve_progress (hcall : state.calls.lookup id = some call) {budget : EvictionBudget}
    (hphase : call.phase = .reserving budget) {reserved : Option ReservedChunks}
    {shard : DiskCacheShard} (hreserve : state.shard.reserveForPayload call.batch.entries.length
      call.batch.requiredChunks = .ok (shard, reserved)) (hnext : next.shard = shard)
    {after : WritePhase} (hafter : after.budget? = none ∨ after = .evicting budget) :
    LoopProgress state next id (.reserve id) call.phase after := by
  have hindex : next.shard.entryIndex = state.shard.entryIndex := by
    rw [hnext, DiskCacheShard.reserve_for_payload_index hreserve]
  have hloop : state.loopStep id (.reserve id) = 1 := by
    simp only [loopStep, hcall, Option.map_some, hphase, if_true]
  rw [hphase]
  rcases hafter with houtside | rfl
  · refine .leave rfl houtside ?_ fun _ => hindex
    rw [hloop]
    exact Nat.le_add_left 1 _
  · refine .of_idle rfl (Nat.le_refl _) (Nat.le_refl _) ?_ fun _ _ => hindex
    rw [hloop, Nat.add_comm]
    exact Nat.le_refl _

/-- A step of the call itself. -/
theorem Moves.progress {after : WritePhase} (h : state.Consistent)
    (hcall : state.calls.lookup id = some call) (hid : action.id? = some id)
    (hmoves : state.Moves id call action after next) :
    LoopProgress state next id action call.phase after := by
  cases hmoves with
  | idle _ hreserve hevict =>
      refine .of_idle (sample?_of_phase hcall hevict) (Nat.le_refl _) (Nat.le_refl _) ?_
        fun _ _ => rfl
      rw [loop_step_of_phase hcall hreserve hevict, Nat.zero_add]
  | reserved _ _ _ _ hphase hreserve | oversized _ _ _ hphase hreserve =>
      cases hid
      exact reserve_progress hcall hphase hreserve rfl (.inl rfl)
  | refused _ _ _ hphase hreserve =>
      cases hid
      exact reserve_progress hcall hphase hreserve rfl (.inr rfl)
  | evicted _ _ _ _ _ _ hphase hevict =>
      cases hid
      rw [hphase]
      exact evict_progress h hcall hphase hevict rfl
  | completed _ _ _ _ hphase =>
      refine .outside rfl rfl (by rw [hphase]; rfl) ?_
      split
      · rfl
      · rfl
  | submitted _ _ _ _ hphase | failed _ _ _ _ hphase | cancelled _ _ _ _ hphase
  | published _ _ _ _ hphase | unpublished _ _ hphase | dropped _ _ _ hphase =>
      exact .outside rfl rfl (by rw [hphase]; rfl) rfl

/-- Every step, whoever takes it, costs a call what it decides in it. -/
theorem step_progress (h : state.Consistent) (hcall : state.calls.lookup id = some call)
    (hstep : state.step action = .ok next) :
    ∃ after, next.calls.lookup id = some { call with phase := after } ∧
      LoopProgress state next id action call.phase after := by
  rcases (step_performs hstep).call_cases hcall with ⟨hid, after, hmoves⟩ | ⟨hother, hkept⟩
  · exact ⟨after, by rw [hmoves.calls hcall, if_pos rfl], hmoves.progress h hcall hid⟩
  · refine ⟨call.phase, hkept, .of_idle (sample?_of_other hother) (Nat.le_refl _) (Nat.le_refl _)
      ?_ fun _ hid => absurd hid hother⟩
    rw [loop_step_of_other hother, Nat.zero_add]

/-! ## Runs -/

/-- What a call decides in a run is bounded by what it starts with. -/
theorem samples_bounded (h : state.Consistent) (hcall : state.calls.lookup id = some call)
    (actions : List (Action context)) :
    (samples id state actions).length ≤ call.phase.attemptsLeft ∧
      ((samples id state actions).map Sample.evictedChunks).sum ≤ call.phase.chunksLeft ∧
      loopSteps id state actions ≤ call.phase.loopStepsLeft ∧
      ∀ sample ∈ samples id state actions, sample.Selective context.reclaimSampleSize := by
  induction actions generalizing state call with
  | nil => exact ⟨Nat.zero_le _, Nat.zero_le _, Nat.zero_le _, by simp [samples]⟩
  | cons action rest ih =>
      unfold samples loopSteps
      cases hstep : state.step action with
      | error panic => exact ⟨Nat.zero_le _, Nat.zero_le _, Nat.zero_le _, by simp⟩
      | ok next =>
          have hnext := ((step_spec h action).of_ok hstep).1
          obtain ⟨after, hafter, hprogress⟩ := step_progress h hcall hstep
          obtain ⟨hlength, hsum, hsteps, hselective⟩ := ih hnext hafter
          dsimp only at hlength hsum hsteps
          have hattempts := hprogress.attempts
          have hchunks := hprogress.chunks
          have hloop := hprogress.steps
          refine ⟨?_, ?_, ?_, ?_⟩
          · rw [List.length_append]
            omega
          · rw [List.map_append, List.sum_append]
            omega
          · simp only
            omega
          · intro sample hsample
            rcases List.mem_append.mp hsample with hfirst | hlater
            · exact hprogress.selective sample (Option.mem_toList.mp hfirst)
            · exact hselective sample hlater

/-- A call outside the loop takes no more decisions. -/
theorem samples_eq_nil (h : state.Consistent) (hcall : state.calls.lookup id = some call)
    (houtside : call.phase.budget? = none) (actions : List (Action context)) :
    samples id state actions = [] := by
  have hlength := (samples_bounded h hcall actions).1
  rw [(WritePhase.left_eq_zero houtside).1] at hlength
  exact List.length_eq_zero_iff.mp (Nat.le_zero.mp hlength)

/-- A reservation attempt takes the call out of the loop when it succeeds, and when the payload
needs more chunks than are not metadata chunks. -/
theorem reserve_leaves {batch : PayloadBatch context} {budget : EvictionBudget}
    (hcall : state.calls.lookup id = some ⟨batch, .reserving budget⟩)
    (hstep : state.step (.reserve id) = .ok next)
    (hcapacity : next.shard.payloadChunkCapacity < batch.requiredChunks) :
    ∃ phase, next.calls.lookup id = some ⟨batch, phase⟩ ∧ phase.budget? = none := by
  simp only [step, Action.id?, hcall, callStep] at hstep
  obtain ⟨⟨shard, reserved⟩, -, hstep⟩ := bind_eq_ok.mp hstep
  cases hstep
  have hneeds : shard.payloadChunkCapacity < batch.requiredChunks := hcapacity
  refine ⟨_, Finmap.lookup_insert _, ?_⟩
  cases reserved with
  | some chunks => rfl
  | none =>
      show (if shard.payloadChunkCapacity < batch.requiredChunks then _
        else _ : WritePhase).budget? =
        none
      rw [if_pos hneeds]
      rfl

/-! ## A full shard -/

/-- Chunks under the storage of an indexed entry are chunks of the shard. -/
theorem Consistent.storage_inside (h : state.Consistent) {key : ObjectKeyHash}
    {record : EntryMetadata} {location : EntryMetadataLocation}
    (hentry : state.shard.entryIndex.placement? key = some (record, location)) (offset : Nat)
    (hoffset : offset < payloadDiskBytes record.payloadLen) :
    context.chunks.start ≤ (record.payloadAddress + offset) / chunkBytes ∧
      (record.payloadAddress + offset) / chunkBytes < context.chunks.stop := by
  have hheld := h.held_of_placement hentry hoffset
  have hpartition := h.chunks_owned.partition ((record.payloadAddress + offset) / chunkBytes)
  exact Range.covers_pos_iff.mp (by omega)

/-- In a shard of two chunks, the metadata and an entry leave none for a call. -/
theorem Consistent.no_room (h : state.Consistent)
    (htwo : context.chunks.stop = context.chunks.start + 2) {key : ObjectKeyHash}
    {entry : DiskEntry}
    (hentry : state.shard.entryIndex.entriesByKey.lookup key = some entry) :
    state.shard.payloadChunkCapacity = 1 ∧ entry.chunkCount ≤ 2 ∧
      ∀ id call, state.calls.lookup id = some call → call.phase.chunks? = none := by
  have hplacement := DiskEntryIndex.placement?_of_lookup hentry
  have hslot := (h.shard.agreed.slot key _ _ hplacement).1
  obtain ⟨head, hhead⟩ : ∃ head, state.shard.metadataPages.chunks[0]? = some head :=
    ⟨_, List.getElem?_eq_getElem (Nat.zero_lt_of_lt (MetadataChunks.in_bounds_of_record hslot).1)⟩
  -- The metadata has one of the two chunks, and the payload the other one.
  have hpos : 0 < payloadDiskBytes entry.payloadLen := payload_disk_bytes_pos _
  have hmetadata := h.metadata_owned hhead
  have hinside := h.metadata_inside hhead
  have hpayload := h.storage_inside hplacement 0 hpos
  have happart := h.storage_apart (Nat.add_pos_left hmetadata _) hplacement 0 hpos
  have hthird : ∀ chunk, context.chunks.start ≤ chunk → chunk < context.chunks.stop →
      chunk ≠ head.number → 0 < state.shard.metadataPages.owned chunk + state.inFlight chunk →
        False := by
    intro chunk hstart hstop hne howned
    have hother := h.storage_apart howned hplacement 0 hpos
    simp only [MetadataChunk.number] at *
    omega
  refine ⟨?_, ?_, fun id call hcall => ?_⟩
  · rw [DiskCacheShard.payloadChunkCapacity, h.shard.accounted.capacity, htwo,
      Nat.add_sub_cancel_left]
    have hlength : ¬ 1 < state.shard.metadataPages.chunks.length := by
      intro hlonger
      have hsecond := List.getElem?_eq_getElem hlonger
      refine hthird _ (h.metadata_inside hsecond).1 (h.metadata_inside hsecond).2 (fun heq => ?_)
        (Nat.add_pos_left (h.metadata_owned hsecond) _)
      exact absurd (h.distinct _ _ _ _ hhead hsecond heq.symm) Nat.zero_ne_one
    have := (List.getElem?_eq_some_iff.mp hhead).1
    omega
  · have hlast := h.storage_inside hplacement (payloadDiskBytes entry.payloadLen - 1)
      (Nat.sub_lt hpos Nat.one_pos)
    have hle := le_payload_disk_bytes entry.payloadLen
    simp only [DiskEntry.chunkCount, DiskEntry.record, divCeil, chunkBytes] at *
    omega
  · cases hchunks : call.phase.chunks? with
    | none => rfl
    | some chunks =>
        have hstop := (h.calls id call hcall).length chunks hchunks
        have hrequired := call.batch.required_chunks_pos
        have hin := h.call_inside hcall hchunks le_rfl (by omega)
        have howned : 0 < call.owned chunks.chunkNumbers.start := by
          rw [WriteCall.owned, hchunks]
          exact Range.covers_pos_iff.mpr ⟨le_rfl, by omega⟩
        refine (hthird _ hin.1 hin.2 (fun heq => ?_) ?_).elim
        · have hzero := h.call_apart hcall hmetadata
          rw [heq] at howned
          exact absurd hzero howned.ne'
        · exact Nat.add_pos_right _ (howned.trans_le (h.owned_le hcall _))

/-- A call for one chunk of a full shard of two chunks evicts an entry. -/
theorem samples_of_full (h : state.Consistent)
    (htwo : context.chunks.stop = context.chunks.start + 2) {key : ObjectKeyHash}
    {entry : DiskEntry}
    (hentry : state.shard.entryIndex.entriesByKey.lookup key = some entry)
    {batch : PayloadBatch context} (hcall : state.calls.lookup id = some ⟨batch, .reserving .full⟩)
    (hone : batch.requiredChunks = 1) (score : ObjectKeyHash → Nat → Int) :
    ∃ sample, samples id state [.reserve id, .evict id score] = [sample] ∧
      sample.evicted.isSome := by
  have hcount : context.chunkCount ≤ 2 ^ 32 := by
    rw [ShardContext.chunkCount, htwo]
    omega
  obtain ⟨next, hreserve, hnext, -⟩ := ShardContext.exists_ok hcount (step_spec h (.reserve id))
  -- The reservation is refused.
  obtain ⟨hindex, hevicting⟩ : next.shard.entryIndex = state.shard.entryIndex ∧
      next.calls.lookup id = some ⟨batch, .evicting .full⟩ := by
    rcases (step_performs hreserve).call_cases hcall with ⟨-, phase, hmoves⟩ | ⟨hother, -⟩
    · have hafter := hmoves.calls hcall id
      rw [if_pos rfl] at hafter
      cases hmoves with
      | idle _ hidle => exact absurd rfl (hidle _ _ rfl)
      | reserved _ _ _ chunks _ hreserved =>
          have hindex := DiskCacheShard.reserve_for_payload_index hreserved
          have hnone := (hnext.no_room htwo (hindex ▸ hentry)).2.2 id _ hafter
          cases hnone
      | oversized _ _ shard _ hrefused hroom =>
          have hindex := DiskCacheShard.reserve_for_payload_index hrefused
          have hcapacity := (hnext.no_room htwo (hindex ▸ hentry)).1
          rw [hone] at hroom
          exact absurd hroom (Nat.not_lt.mpr hcapacity.ge)
      | refused _ budget shard hphase hrefused =>
          cases hphase
          exact ⟨DiskCacheShard.reserve_for_payload_index hrefused, hafter⟩
    · exact absurd rfl hother
  obtain ⟨after, hevict, -⟩ := ShardContext.exists_ok hcount (step_spec hnext (.evict id score))
  have hlisted : next.shard.entryIndex.evictionCandidates ≠ [] := by
    have hmem := (hnext.shard.agreed.ranked.mem_iff key).mpr (by rw [hindex, hentry]; rfl)
    exact List.ne_nil_of_mem hmem
  have hsample : next.sample? after id (.evict id score) = some ⟨next.shard, after.shard, .full,
      score, next.shard.sampled context.reclaimSampleSize⟩ := by
    simp only [sample?, hevicting, Option.map_some, true_and]
    exact if_pos ⟨by decide, hlisted⟩
  refine ⟨⟨next.shard, after.shard, .full, score, next.shard.sampled context.reclaimSampleSize⟩,
    ?_, ?_⟩
  · simp only [samples, hreserve, hevict, hsample]
    rfl
  · -- Every entry of the shard fits the budget.
    obtain ⟨candidate, hcandidate⟩ := List.exists_mem_of_ne_nil _
      (DiskCacheShard.sampled_ne_nil hnext.shard hlisted context.reclaimSampleSize_pos)
    rw [Option.isSome_iff_ne_none]
    intro hnone
    have hlarge := Sample.fits_of_not_evicted hnone candidate hcandidate
    have hentry := DiskCacheShard.lookup_of_mem_sampled hcandidate
    have hfits : EvictionBudget.full.chunks < 2 := hlarge.trans_le (hnext.no_room htwo hentry).2.1
    exact absurd hfits (by decide)

/-- The loop of a new call, in a run whose other steps are anyone's. The call takes at most 64
decisions, which evict one entry each at most, entries of at most 4096 chunks together. It is over
after 130 steps: a reservation and a decision for each attempt, and one more of each. -/
theorem session_eviction_bounded (context : ShardContext) {read : ChunkReader}
    (hfits : Representable context.hash read) (file : BackingFile)
    (actions : List (Action context)) (state : ShardState context)
    (hsession : session context read file actions = .ok state) (id : Nat)
    (batch : PayloadBatch context)
    (hcall : state.calls.lookup id = some ⟨batch, .reserving .full⟩)
    (later : List (Action context)) :
    (samples id state later).length ≤ 64 ∧
    ((samples id state later).map Sample.evictedChunks).sum ≤ 4096 ∧
    loopSteps id state later ≤ 130 ∧
    (∀ sample ∈ samples id state later, sample.Selective context.reclaimSampleSize) ∧
    -- A step of the loop that takes no decision leaves the index alone.
    (∀ middle call action next, run step state later = .ok middle →
      middle.calls.lookup id = some call → call.phase.budget? ≠ none → action.id? = some id →
      middle.step action = .ok next → middle.sample? next id action = none →
        next.shard.entryIndex = middle.shard.entryIndex) ∧
    -- A call that has its chunks takes no more decisions.
    (∀ middle call chunks rest, run step state later = .ok middle →
      middle.calls.lookup id = some call → call.phase.chunks? = some chunks →
        samples id middle rest = []) ∧
    -- A payload that the shard has no room for evicts nothing.
    (∀ next, state.step (.reserve id) = .ok next →
      next.shard.payloadChunkCapacity < batch.requiredChunks → samples id next later = []) := by
  have hconsistent := (session_spec hfits file actions).of_ok hsession
  obtain ⟨hlength, hsum, hsteps, hselective⟩ := samples_bounded hconsistent hcall later
  refine ⟨hlength, hsum, hsteps, hselective, ?_, ?_, ?_⟩
  · intro middle call action next hrun hmiddle hloop hid hstep hnone
    have hreached := (run_spec hconsistent later).of_ok hrun
    obtain ⟨after, -, hprogress⟩ := step_progress hreached hmiddle hstep
    exact hprogress.unsampled hnone hloop hid
  · intro middle call chunks rest hrun hmiddle hchunks
    refine samples_eq_nil ((run_spec hconsistent later).of_ok hrun) hmiddle ?_ rest
    cases hphase : call.phase with
    | reserving | evicting =>
        rw [hphase] at hchunks
        cases hchunks
    | writing | publishing | dropping | finished => rfl
  · intro next hstep hcapacity
    obtain ⟨phase, hphase, houtside⟩ := reserve_leaves hcall hstep hcapacity
    exact samples_eq_nil ((step_spec hconsistent _).of_ok hstep).1 hphase houtside later

/-- The shard of the first write has no room for a second one, which evicts the first entry. -/
theorem session_eviction_bounded_full :
    ∃ (state : ShardState .tiny) (sample : Sample),
      session .tiny zeroReader ⟨fun _ => Page.zero, []⟩
        (payloadActions 0 0 tinyBatch ++ [.call 1 tinyBatch]) = .ok state ∧
      samples 1 state [.reserve 1, .evict 1 fun _ _ => 0] = [sample] ∧
      sample.evicted.isSome ∧ sample.Selective ShardContext.tiny.reclaimSampleSize := by
  obtain ⟨-, written, -, -, -, -, hwritten, hentry, hnew⟩ := session_tiny_write
  obtain ⟨entry, hentry⟩ := Option.isSome_iff_exists.mp hentry
  have hsession : session .tiny zeroReader ⟨fun _ => Page.zero, []⟩
      (payloadActions 0 0 tinyBatch ++ [.call 1 tinyBatch]) = .ok (written.called 1 tinyBatch) := by
    obtain ⟨opened, hopened, hrun⟩ := bind_eq_ok.mp hwritten
    rw [session, hopened, ok_bind, run_append, hrun, ok_bind, run, step_call hnew]
    rfl
  have hcall : (written.called 1 tinyBatch).calls.lookup 1 = some ⟨tinyBatch, .reserving .full⟩ :=
    Finmap.lookup_insert _
  obtain ⟨sample, hsample, hevicted⟩ := samples_of_full
    ((session_spec (representable_zero_reader _) _ _).of_ok hsession)
    (by rw [ShardContext.tiny_chunks]) hentry hcall tiny_batch_required_chunks fun _ _ => 0
  have hselective := (session_eviction_bounded .tiny (representable_zero_reader _) _ _ _ hsession 1
    tinyBatch hcall [.reserve 1, .evict 1 fun _ _ => 0]).2.2.2.1
  exact ⟨_, sample, hsession, hsample, hevicted, hselective sample (by simp [hsample])⟩

end ShardState

end Feuer.Storage
