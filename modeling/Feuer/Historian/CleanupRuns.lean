import Feuer.Historian.CleanupInvariant
import Mathlib.Algebra.BigOperators.Intervals

/-!
# Cleanup under concurrent requests

Every step of a pass keeps the invariant, so it holds after every interleaving of passes with
requests. A pass that nothing interrupts keeps exactly the most recently requested keys.
-/

namespace Feuer.Historian

open Lib Storage

/-! ## The steps of a pass -/

/-- More clocks than the limit have a cutoff, and the clocks to keep are those above it. -/
theorem cutoff_of_spec {limit : Nat} {clocks : List Nat} (hnodup : clocks.Nodup)
    (hlimit : limit < clocks.length) :
    ∃ cutoff, cutoffOf limit clocks = .ok cutoff ∧ cutoff ∈ clocks ∧
      (clocks.filter (cutoff < ·)).length = entriesToKeep limit := by
  have hkeep : limit - limit / 10 ≤ limit := Nat.sub_le _ _
  have hperm := List.mergeSort_perm clocks (fun first second => decide (first ≤ second))
  obtain ⟨cutoff, hcutoff⟩ : ∃ cutoff,
      (clocks.mergeSort (· ≤ ·))[clocks.length - (limit - limit / 10) - 1]? = some cutoff := by
    refine ⟨_, List.getElem?_eq_getElem ?_⟩
    rw [hperm.length_eq]
    omega
  refine ⟨cutoff, ?_, hperm.mem_iff.mp (List.mem_of_getElem? hcutoff), ?_⟩
  · unfold cutoffOf
    rw [checked_sub_eq_ok (Nat.div_le_self _ _), ok_bind, checked_sub_eq_ok (by omega), ok_bind,
      checked_sub_eq_ok (by omega), ok_bind, hcutoff]
  · have hcount := length_filter_above_nth hnodup hcutoff
    unfold entriesToKeep
    omega

section Steps

variable {config : HistoryConfig} {shards : Nat → List History}
  {requesting : Nat → Option History} {log : CleanupLog}

/-- One more shard is in the snapshot. -/
theorem Snapshot.extend {next : Nat} {clocks : List Nat}
    (h : Snapshot config shards log.requests next clocks)
    (hrecorded : Recorded config shards requesting log.requests) (hnext : next < config.shards) :
    Snapshot config shards log.requests (next + 1)
      (clocks ++ (shards next).map (·.lastUpdateClock)) := by
  obtain ⟨hexceeds, entries, hclocks, hnodup, hentries⟩ := h
  refine ⟨?_, entries ++ shards next, by rw [List.map_append, hclocks], ?_, ?_⟩
  · rw [Finset.sum_eq_sum_Ico_succ_bot hnext] at hexceeds
    rw [List.length_append, List.length_map]
    omega
  · rw [List.map_append]
    refine List.nodup_append.mpr ⟨hnodup, hrecorded.nodup next, ?_⟩
    intro key hkey other hother heq
    obtain ⟨entry, hentry, rfl⟩ := List.mem_map.mp hkey
    obtain ⟨history, hmem, rfl⟩ := List.mem_map.mp hother
    have hless := (hentries entry hentry).1
    rw [heq, hrecorded.routed next history hmem] at hless
    exact absurd hless (Nat.lt_irrefl _)
  · intro entry hentry
    rcases List.mem_append.mp hentry with hold | hnew
    · obtain ⟨hshard, hfound⟩ := hentries entry hold
      exact ⟨hshard.trans (Nat.lt_succ_self _), hfound⟩
    · have hroute := hrecorded.routed next entry hnew
      refine ⟨by omega, hrecorded.stored next entry hnew, entry, ?_, rfl, Nat.le_refl _⟩
      rw [hroute]
      exact hnew

/-- No clock is in the snapshot twice, and a complete snapshot has more clocks than the limit. -/
theorem Snapshot.clocks {next : Nat} {clocks : List Nat}
    (h : Snapshot config shards log.requests next clocks) (hnext : config.shards ≤ next) :
    clocks.Nodup ∧ config.limit < clocks.length := by
  obtain ⟨hexceeds, entries, rfl, hnodup, hentries⟩ := h
  rw [Finset.Ico_eq_empty (by omega), Finset.sum_empty, Nat.add_zero] at hexceeds
  refine ⟨(List.Nodup.of_map _ hnodup).map_on fun first hfirst second hsecond hsame => ?_, hexceeds⟩
  have hkey := (hentries first hfirst).2.1.unique (hsame ▸ (hentries second hsecond).2.1)
  exact List.inj_on_of_nodup_map hnodup hfirst hsecond hkey

/-- The removal begins when the snapshot is complete. -/
theorem Snapshot.swept {next : Nat} {clocks : List Nat} {cutoff : Nat}
    (h : Snapshot config shards log.requests next clocks) (hremoved : log.removed = [])
    (hmem : cutoff ∈ clocks)
    (hkeep : (clocks.filter (cutoff < ·)).length = entriesToKeep config.limit) :
    Swept config shards requesting { log with snapshotAt := some log.requests.length } 0
      cutoff := by
  obtain ⟨-, entries, rfl, hnodup, hentries⟩ := h
  have hpast : cutoff ≤ log.requests.length := by
    obtain ⟨entry, hentry, rfl⟩ := List.mem_map.mp hmem
    exact (hentries entry hentry).2.1.le_length
  refine
    { past := hpast, removed := by simp [hremoved], kept := by simp, locked := by simp
      taken := by simp, survivors := fun _ => ?_, fresh := ?_ }
  · refine ⟨(entries.filter (cutoff < ·.lastUpdateClock)).map (·.key), ?_, ?_, ?_⟩
    · rw [List.length_map, ← hkeep, List.filter_map, List.length_map]
      rfl
    · exact (List.filter_sublist.map _).nodup hnodup
    · intro key hkey
      obtain ⟨entry, hentry, rfl⟩ := List.mem_map.mp hkey
      obtain ⟨hold, habove⟩ := List.mem_filter.mp hentry
      obtain ⟨-, -, history, hthere, hsame, hle⟩ := hentries entry hold
      exact ⟨history, hthere, hsame, (of_decide_eq_true habove).trans_le hle⟩
  · intro time htime
    cases htime
    refine ⟨hpast, fun key clock hclock hrequested => ?_⟩
    have hle : clock ≤ log.requests.length := hrequested.le_length
    omega

/-- The lost keys are those that had a history before the step only. -/
theorem mem_lost_keys {state next : HistoryState} {key : ObjectKeyHash} :
    key ∈ lostKeys config state next ↔ ∃ shard < config.shards,
      key ∈ (state.shards shard).map (·.key) ∧ key ∉ (next.shards shard).map (·.key) := by
  simp [lostKeys]

/-- Nothing is lost if every key keeps a history. -/
theorem lost_keys_eq_nil {state next : HistoryState} (h : Newer state.shards next.shards) :
    lostKeys config state next = [] := by
  refine List.eq_nil_iff_forall_not_mem.mpr fun key hkey => ?_
  obtain ⟨shard, -, hold, hlost⟩ := mem_lost_keys.mp hkey
  obtain ⟨history, hmem, rfl⟩ := List.mem_map.mp hold
  obtain ⟨newer, hnew, hsame, -⟩ := h shard history hmem
  exact hlost (List.mem_map.mpr ⟨newer, hnew, hsame⟩)

/-- What the removal loses in a shard is old. -/
theorem old_of_lost {state after : HistoryState} {next cutoff : Nat} {key : ObjectKeyHash}
    (hshards : after.shards = Function.update state.shards next
      ((state.shards next).filter (cutoff < ·.lastUpdateClock)))
    (hkey : key ∈ lostKeys config state after) :
    ∃ history ∈ state.shards next, history.key = key ∧ history.lastUpdateClock ≤ cutoff := by
  obtain ⟨shard, -, hold, hlost⟩ := mem_lost_keys.mp hkey
  rw [hshards] at hlost
  by_cases hshard : shard = next
  · subst hshard
    obtain ⟨history, hmem, rfl⟩ := List.mem_map.mp hold
    refine ⟨history, hmem, rfl, Nat.le_of_not_lt fun habove => hlost ?_⟩
    rw [Function.update_self]
    exact List.mem_map.mpr ⟨history, List.mem_filter.mpr ⟨hmem, decide_eq_true habove⟩, rfl⟩
  · rw [Function.update_of_ne hshard] at hlost
    exact absurd hold hlost

/-- Every history is as new as itself. -/
theorem Newer.refl (shards : Nat → List History) : Newer shards shards :=
  fun _ history hmem => ⟨history, hmem, rfl, Nat.le_refl _⟩

/-- The removal goes over one more shard. -/
theorem Swept.retain {next cutoff : Nat} {removed : List ObjectKeyHash}
    (h : Swept config shards requesting log next cutoff) (hsnapshot : log.snapshotAt.isSome)
    (hrecorded : Recorded config shards requesting log.requests)
    (hfree : requesting next = none)
    (hremoved : ∀ key ∈ removed, ∃ history ∈ shards next, history.key = key ∧
      history.lastUpdateClock ≤ cutoff) :
    Swept config
      (Function.update shards next ((shards next).filter (cutoff < ·.lastUpdateClock))) requesting
      { log with removed := log.removed ++ removed.map (·, log.requests.length) } (next + 1)
      cutoff := by
  have hkept : ∀ shard, ∀ history ∈ shards shard, cutoff < history.lastUpdateClock →
      history ∈ Function.update shards next
        ((shards next).filter (cutoff < ·.lastUpdateClock)) shard := by
    intro shard history hmem habove
    by_cases hshard : shard = next
    · subst hshard
      rw [Function.update_self]
      exact List.mem_filter.mpr ⟨hmem, decide_eq_true habove⟩
    · rw [Function.update_of_ne hshard]
      exact hmem
  refine
    { past := h.past, removed := ?_, kept := ?_, locked := ?_, taken := fun _ => hsnapshot
      survivors := ?_, fresh := ?_ }
  · intro entry hentry
    rcases List.mem_append.mp hentry with hold | hnew
    · exact h.removed entry hold
    · obtain ⟨key, hkey, rfl⟩ := List.mem_map.mp hnew
      refine ⟨Nat.le_refl _, fun clock _ hrequested => ?_⟩
      obtain ⟨history, hmem, rfl, hbelow⟩ := hremoved key hkey
      rcases hrecorded.latest next history hmem clock hrequested with hle | hlocked
      · exact hle.trans hbelow
      · rw [hfree] at hlocked
        cases hlocked
  · intro shard hshard history hmem
    by_cases hsame : shard = next
    · subst hsame
      rw [Function.update_self] at hmem
      exact of_decide_eq_true (List.mem_filter.mp hmem).2
    · rw [Function.update_of_ne hsame] at hmem
      exact h.kept shard (by omega) history hmem
  · intro shard hshard request hrequest
    by_cases hsame : shard = next
    · rw [hsame, hfree] at hrequest
      cases hrequest
    · exact h.locked shard (by omega) request hrequest
  · intro hsome
    obtain ⟨keys, hlength, hnodup, hkeys⟩ := h.survivors hsome
    refine ⟨keys, hlength, hnodup, fun key hkey => ?_⟩
    obtain ⟨history, hmem, hsame, habove⟩ := hkeys key hkey
    exact ⟨history, hkept _ history hmem habove, hsame, habove⟩
  · intro time htime
    obtain ⟨hcutoff, hpresent⟩ := h.fresh time htime
    refine ⟨hcutoff, fun key clock hclock hrequested => ?_⟩
    refine (hpresent key clock hclock hrequested).imp_left ?_
    rintro ⟨history, hmem, hsame, hle⟩
    exact ⟨history, hkept _ history hmem (by omega), hsame, hle⟩

/-- A removal that went over more shards went over fewer. -/
theorem Swept.shorten {next before cutoff : Nat}
    (h : Swept config shards requesting log next cutoff) (hle : before ≤ next) :
    Swept config shards requesting log before cutoff :=
  { h with
    kept := fun shard hshard => h.kept shard (hshard.trans_le hle)
    locked := fun shard hshard => h.locked shard (hshard.trans_le hle) }

/-- A pass that removes nothing: every clock is above zero. -/
theorem Swept.unchanged (hrecorded : Recorded config shards requesting log.requests)
    (hremoved : log.removed = []) (hsnapshot : log.snapshotAt = none) (next : Nat) :
    Swept config shards requesting log next 0 where
  past := Nat.zero_le _
  removed := by simp [hremoved]
  kept := fun shard _ history hmem => (hrecorded.stored shard history hmem).1
  locked := fun shard _ request hrequest => (hrecorded.locked shard request hrequest).2.1.1
  taken := by simp [hremoved]
  survivors := by simp [hsnapshot]
  fresh := by simp [hsnapshot]

end Steps

/-- The number of entries of a family of lists. -/
theorem length_flatMap_range {α : Type} (family : Nat → List α) (count : Nat) :
    ((List.range count).flatMap family).length =
      ∑ index ∈ Finset.range count, (family index).length := by
  induction count with
  | zero => rfl
  | succ count ih =>
      rw [List.range_succ, List.flatMap_append, List.length_append, ih, Finset.sum_range_succ,
        List.flatMap_singleton]

/-- Distinct keys with histories are at most as many as there are entries. -/
theorem length_le_total {config : HistoryConfig} {state : HistoryState} {keys : List ObjectKeyHash}
    (hnodup : keys.Nodup)
    (hkeys : ∀ key ∈ keys, ∃ history ∈ state.shards (config.shard key), history.key = key) :
    keys.length ≤ state.total config := by
  have hsubset : keys ⊆ (List.range config.shards).flatMap fun shard =>
      (state.shards shard).map (·.key) := by
    intro key hkey
    obtain ⟨history, hmem, hsame⟩ := hkeys key hkey
    exact List.mem_flatMap.mpr ⟨config.shard key, List.mem_range.mpr (shard_lt config key),
      List.mem_map.mpr ⟨history, hmem, hsame⟩⟩
  have hle := (hnodup.subperm hsubset).length_le
  rw [length_flatMap_range] at hle
  simpa [HistoryState.total] using hle

/-! ## Whole runs -/

/-- The histories and the pass agree with what was observed. -/
structure HistoryInvariant (config : HistoryConfig) (state : HistoryState) (log : CleanupLog) :
    Prop where
  clock : log.requests.length = state.requestCount
  recorded : Recorded config state.shards state.requesting log.requests
  pass : PassInvariant config state.shards state.requesting log state.cleanup

/-- The empty histories agree with an empty log. -/
theorem HistoryInvariant.new (config : HistoryConfig) :
    HistoryInvariant config .new ⟨[], [], none⟩ where
  clock := rfl
  recorded := Recorded.new config
  pass := ⟨0, Swept.unchanged (Recorded.new config) rfl rfl _⟩

section Invariant

variable {config : HistoryConfig} {state : HistoryState} {log : CleanupLog}

/-- A step of a pass that removes nothing is observed as such. -/
theorem record_remove_oldest_unchanged (config : HistoryConfig) (state : HistoryState)
    (log : CleanupLog) {cleanup : Cleanup} (hends : snapshotEnds state.cleanup cleanup = false) :
    log.record config state .removeOldest { state with cleanup } = log := by
  have hnone : lostKeys config state { state with cleanup } = [] :=
    lost_keys_eq_nil (Newer.refl state.shards)
  simp [CleanupLog.record, hnone, hends]

/-- A step of a pass that only changes where the pass stands. -/
theorem HistoryInvariant.advance (h : HistoryInvariant config state log) {cleanup : Cleanup}
    (hends : snapshotEnds state.cleanup cleanup = false)
    (hpass : PassInvariant config state.shards state.requesting log cleanup) :
    HistoryInvariant config { state with cleanup }
      (log.record config state .removeOldest { state with cleanup }) := by
  rw [record_remove_oldest_unchanged config state log hends]
  exact ⟨h.clock, h.recorded, hpass⟩

/-- A pass that stays where it is takes no snapshot. -/
theorem snapshot_ends_self (cleanup : Cleanup) : snapshotEnds cleanup cleanup = false := by
  cases cleanup <;> rfl

/-- A step of a pass that removes the old entries of a shard. -/
theorem HistoryInvariant.retain (h : HistoryInvariant config state log) {next cutoff : Nat}
    (hsnapshot : log.snapshotAt.isSome)
    (hswept : Swept config state.shards state.requesting log next cutoff)
    (hfree : state.requesting next = none) (hcleanup : state.cleanup = .removing next cutoff) :
    HistoryInvariant config
      { state with
        shards := Function.update state.shards next
          ((state.shards next).filter (cutoff < ·.lastUpdateClock))
        cleanup := .removing (next + 1) cutoff }
      (log.record config state .removeOldest
        { state with
          shards := Function.update state.shards next
            ((state.shards next).filter (cutoff < ·.lastUpdateClock))
          cleanup := .removing (next + 1) cutoff }) := by
  have hrecord : ∀ after, after.cleanup = .removing (next + 1) cutoff →
      log.record config state .removeOldest after =
        { log with
          removed :=
            log.removed ++ (lostKeys config state after).map (·, log.requests.length) } := by
    intro after hafter
    simp [CleanupLog.record, hcleanup, hafter, snapshotEnds, h.clock]
  rw [hrecord _ rfl]
  refine ⟨h.clock, h.recorded.retain next _, hsnapshot,
    hswept.retain hsnapshot h.recorded hfree fun key hkey => old_of_lost rfl hkey⟩

/-- A step of a pass does not fail, and removes only what its cutoff allows. -/
theorem HistoryInvariant.remove_oldest (h : HistoryInvariant config state log) :
    Outcome (fun _ => False) (fun next => HistoryInvariant config next
      (log.record config state .removeOldest next)) (state.removeOldest config) := by
  have hwait := h.advance (snapshot_ends_self state.cleanup) h.pass
  have hpass := h.pass
  unfold HistoryState.removeOldest
  cases hcleanup : state.cleanup with
  | counting next count =>
      rw [hcleanup] at hpass
      obtain ⟨hremoved, hsnapshot, hle, hcount⟩ := hpass
      simp only
      split
      next hnext =>
        split
        next => exact hwait
        next =>
          refine h.advance (by rw [hcleanup]; rfl) ⟨hremoved, hsnapshot, hnext, ?_⟩
          rw [Finset.sum_range_succ]
          omega
      next hend =>
        split
        next =>
          exact h.advance (by rw [hcleanup]; rfl)
            ⟨0, Swept.unchanged h.recorded hremoved hsnapshot _⟩
        next hlimit =>
          have hnext : next = config.shards := by omega
          subst hnext
          refine h.advance (by rw [hcleanup]; rfl) ⟨hremoved, hsnapshot, Nat.zero_le _, ?_,
            [], rfl, List.nodup_nil, by simp⟩
          rw [← Finset.range_eq_Ico, List.length_nil]
          omega
  | snapshot next clocks =>
      rw [hcleanup] at hpass
      obtain ⟨hremoved, hsnapshot, hle, htaken⟩ := hpass
      simp only
      split
      next hnext =>
        split
        next => exact hwait
        next =>
          exact h.advance (by rw [hcleanup]; rfl)
            ⟨hremoved, hsnapshot, hnext, htaken.extend h.recorded hnext⟩
      next hend =>
        obtain ⟨hnodup, hlimit⟩ := htaken.clocks (Nat.le_of_not_lt hend)
        obtain ⟨cutoff, hcutoff, hmem, hkeep⟩ := cutoff_of_spec hnodup hlimit
        rw [hcutoff, ok_bind]
        have hnone : lostKeys config state { state with cleanup := .removing 0 cutoff } = [] :=
          lost_keys_eq_nil (Newer.refl state.shards)
        have hrecord : log.record config state .removeOldest
            { state with cleanup := .removing 0 cutoff } =
              { log with snapshotAt := some log.requests.length } := by
          simp [CleanupLog.record, hnone, hcleanup, snapshotEnds, h.clock]
        show HistoryInvariant _ _ _
        rw [hrecord]
        exact ⟨h.clock, h.recorded, rfl, htaken.swept hremoved hmem hkeep⟩
  | removing next cutoff =>
      rw [hcleanup] at hpass
      obtain ⟨hsnapshot, hswept⟩ := hpass
      simp only
      split
      next hnext =>
        split
        next => exact hwait
        next hfree =>
          rw [Bool.not_eq_true, Option.isSome_eq_false_iff, Option.isNone_iff_eq_none] at hfree
          exact h.retain hsnapshot hswept hfree hcleanup
      next hend =>
        exact h.advance (by rw [hcleanup]; rfl)
          ⟨cutoff, hswept.shorten (Nat.le_of_not_lt hend)⟩
  | finished => exact hwait

/-- A request takes the next clock, unless the clock overflows. -/
theorem HistoryInvariant.lock_request (h : HistoryInvariant config state log)
    (key : ObjectKeyHash) :
    Outcome (· = .clockOverflow) (fun next => HistoryInvariant config next
      (log.record config state (.lockRequest key) next)) (state.lockRequest config key) := by
  unfold HistoryState.lockRequest
  split
  next =>
    show HistoryInvariant config state (log.record config state (.lockRequest key) state)
    rw [CleanupLog.record, if_pos rfl]
    exact h
  next hfree =>
    rw [Bool.not_eq_true, Option.isSome_eq_false_iff, Option.isNone_iff_eq_none] at hfree
    unfold checkedAdd
    split
    next =>
      refine ⟨?_, ?_, ?_⟩
      all_goals simp only [CleanupLog.record, Nat.succ_ne_self, if_false, ← h.clock]
      · simp
      · exact h.recorded.lock hfree
      · exact h.pass.lock hfree
    next => rfl

/-- A request enters its clock in its shard. -/
theorem HistoryInvariant.apply_request (h : HistoryInvariant config state log) (shard : Nat) :
    HistoryInvariant config (state.applyRequest shard)
      (log.record config state (.applyRequest shard) (state.applyRequest shard)) := by
  have hcleanup : (state.applyRequest shard).cleanup = state.cleanup := by
    unfold HistoryState.applyRequest
    split <;> rfl
  have hrecord : Newer state.shards (state.applyRequest shard).shards →
      log.record config state (.applyRequest shard) (state.applyRequest shard) = log := by
    intro hnewer
    simp [CleanupLog.record, lost_keys_eq_nil hnewer, hcleanup, snapshot_ends_self]
  cases hrequest : state.requesting shard with
  | none =>
      have hsame : state.applyRequest shard = state := by
        rw [HistoryState.applyRequest, hrequest]
      rw [hrecord (by rw [hsame]; exact Newer.refl _), hsame]
      exact h
  | some request =>
      have hnext : state.applyRequest shard =
          { state with
            shards := Function.update state.shards shard (addRequest (state.shards shard) request)
            requesting := Function.update state.requesting shard none } := by
        rw [HistoryState.applyRequest, hrequest]
      rw [hrecord (by rw [hnext]; exact h.recorded.newer_apply hrequest), hnext]
      exact ⟨h.clock, h.recorded.apply hrequest, h.pass.apply h.recorded hrequest⟩

/-- Every step of every thread keeps the invariant. -/
theorem HistoryInvariant.step (h : HistoryInvariant config state log) (action : HistoryAction) :
    Outcome (· = .clockOverflow) (fun next => HistoryInvariant config next
      (log.record config state action next)) (state.step config action) := by
  cases action with
  | startCleanup =>
      simp only [HistoryState.step]
      split
      next hfinished =>
        show HistoryInvariant _ _ _
        rw [CleanupLog.record, if_pos hfinished]
        exact ⟨h.clock, h.recorded, rfl, rfl, Nat.zero_le _, Nat.zero_le _⟩
      next hrunning =>
        show HistoryInvariant _ _ _
        rw [CleanupLog.record, if_neg hrunning]
        exact h
  | removeOldest => exact h.remove_oldest.weaken fun _ hfalse => hfalse.elim
  | lockRequest key => exact h.lock_request key
  | applyRequest shard => exact h.apply_request shard

end Invariant

/-! ## A pass on its own -/

/-- The clocks of the shards below `next`. -/
def clocksBelow (shards : Nat → List History) (next : Nat) : List Nat :=
  (List.range next).flatMap fun shard => (shards shard).map (·.lastUpdateClock)

/-- The next shard adds its clocks. -/
theorem clocks_below_succ (shards : Nat → List History) (next : Nat) :
    clocksBelow shards (next + 1) =
      clocksBelow shards next ++ (shards next).map (·.lastUpdateClock) := by
  simp [clocksBelow, List.range_succ]

/-- The clocks above a cutoff are counted shard by shard. -/
theorem length_filter_clocks_below (shards : Nat → List History) (cutoff next : Nat) :
    ((clocksBelow shards next).filter (cutoff < ·)).length =
      ∑ shard ∈ Finset.range next,
        ((shards shard).filter (cutoff < ·.lastUpdateClock)).length := by
  rw [clocksBelow, List.filter_flatMap, length_flatMap_range]
  refine Finset.sum_congr rfl fun shard _ => ?_
  rw [List.filter_map, List.length_map]
  rfl

/-- The histories after the removal has gone over the shards below `next`. -/
def retained (shards : Nat → List History) (next cutoff : Nat) (shard : Nat) : List History :=
  if shard < next then (shards shard).filter (cutoff < ·.lastUpdateClock) else shards shard

/-- One more shard of the removal. -/
theorem retained_succ (shards : Nat → List History) (next cutoff : Nat) :
    Function.update (retained shards next cutoff) next
      ((retained shards next cutoff next).filter (cutoff < ·.lastUpdateClock)) =
        retained shards (next + 1) cutoff := by
  funext shard
  by_cases hshard : shard = next
  · subst hshard
    rw [Function.update_self, retained, retained, if_neg (Nat.lt_irrefl _),
      if_pos (Nat.lt_succ_self _)]
  · rw [Function.update_of_ne hshard, retained, retained]
    exact if_congr (by omega) rfl rfl

/-- How many steps a pass on its own still takes at most. -/
def Cleanup.remaining (shards : Nat) : Cleanup → Nat
  | .counting next _ => 3 * (shards + 1) - next
  | .snapshot next _ => 2 * (shards + 1) - next
  | .removing next _ => shards + 1 - next
  | .finished => 0

/-- A pass that nothing interrupts. -/
def Uninterrupted (config : HistoryConfig) (start state : HistoryState) : Prop :=
  state.requesting = start.requesting ∧
  match state.cleanup with
  | .counting next count => state.shards = start.shards ∧ next ≤ config.shards ∧
      count = ∑ shard ∈ Finset.range next, (start.shards shard).length
  | .snapshot next clocks => state.shards = start.shards ∧ next ≤ config.shards ∧
      config.limit < start.total config ∧ clocks = clocksBelow start.shards next
  | .removing next cutoff => config.limit < start.total config ∧ next ≤ config.shards ∧
      cutoffOf config.limit (clocksBelow start.shards config.shards) = .ok cutoff ∧
      state.shards = retained start.shards next cutoff
  | .finished => start.total config ≤ config.limit ∧ state.shards = start.shards ∨
      config.limit < start.total config ∧ ∃ cutoff,
        cutoffOf config.limit (clocksBelow start.shards config.shards) = .ok cutoff ∧
        state.shards = retained start.shards config.shards cutoff

section Alone

variable {config : HistoryConfig} {start : HistoryState} {log : CleanupLog}

/-- The clocks of the histories are distinct. -/
theorem Recorded.clocks (h : Recorded config start.shards start.requesting log.requests)
    (hlimit : config.limit < start.total config) :
    (clocksBelow start.shards config.shards).Nodup ∧
      config.limit < (clocksBelow start.shards config.shards).length := by
  have hsnapshot : ∀ next ≤ config.shards, Snapshot config start.shards log.requests next
      (clocksBelow start.shards next) := by
    intro next hnext
    induction next with
    | zero =>
        refine ⟨?_, [], rfl, List.nodup_nil, by simp⟩
        rw [← Finset.range_eq_Ico]
        simpa [clocksBelow, HistoryState.total] using hlimit
    | succ next ih =>
        rw [clocks_below_succ]
        exact (ih (by omega)).extend h hnext
  exact (hsnapshot config.shards (Nat.le_refl _)).clocks (Nat.le_refl _)

/-- A step of a pass that no lock holds up. -/
theorem Uninterrupted.step (hrecorded : Recorded config start.shards start.requesting log.requests)
    (hfree : ∀ shard, start.requesting shard = none) {state : HistoryState}
    (h : Uninterrupted config start state) :
    ∃ next, state.removeOldest config = .ok next ∧ Uninterrupted config start next ∧
      next.cleanup.remaining config.shards ≤ state.cleanup.remaining config.shards - 1 := by
  obtain ⟨hlocks, hpass⟩ := h
  have hopen : ∀ shard, (state.requesting shard).isSome = false := by
    intro shard
    rw [hlocks, hfree]
    rfl
  unfold HistoryState.removeOldest
  cases hcleanup : state.cleanup with
  | counting next count =>
      rw [hcleanup] at hpass
      obtain ⟨hshards, hle, hcount⟩ := hpass
      simp only [hopen, Bool.false_eq_true, if_false]
      split
      next hnext =>
        refine ⟨_, rfl, ⟨hlocks, hshards, hnext, ?_⟩, ?_⟩
        · rw [Finset.sum_range_succ, ← hcount, hshards]
        · simp only [Cleanup.remaining]
          omega
      next hend =>
        have hall : count = start.total config := by
          rw [hcount, HistoryState.total, show next = config.shards by omega]
        split
        next hlimit =>
          exact ⟨_, rfl, ⟨hlocks, Or.inl ⟨hall ▸ hlimit, hshards⟩⟩, Nat.zero_le _⟩
        next hlimit =>
          refine ⟨_, rfl, ⟨hlocks, hshards, Nat.zero_le _, by omega, rfl⟩, ?_⟩
          simp only [Cleanup.remaining]
          omega
  | snapshot next clocks =>
      rw [hcleanup] at hpass
      obtain ⟨hshards, hle, hlimit, hclocks⟩ := hpass
      simp only [hopen, Bool.false_eq_true, if_false]
      split
      next hnext =>
        refine ⟨_, rfl, ⟨hlocks, hshards, hnext, hlimit, ?_⟩, ?_⟩
        · rw [clocks_below_succ, ← hclocks, hshards]
        · simp only [Cleanup.remaining]
          omega
      next hend =>
        have hnext : next = config.shards := by omega
        subst hnext
        obtain ⟨hnodup, hmore⟩ := hrecorded.clocks hlimit
        obtain ⟨cutoff, hcutoff, -, -⟩ := cutoff_of_spec hnodup hmore
        rw [hclocks, hcutoff, ok_bind]
        refine ⟨_, rfl, ⟨hlocks, hlimit, Nat.zero_le _, hcutoff, ?_⟩, ?_⟩
        · rw [hshards]
          funext shard
          exact (if_neg (Nat.not_lt_zero shard)).symm
        · simp only [Cleanup.remaining]
          omega
  | removing next cutoff =>
      rw [hcleanup] at hpass
      obtain ⟨hlimit, hle, hcutoff, hshards⟩ := hpass
      simp only [hopen, Bool.false_eq_true, if_false]
      split
      next hnext =>
        refine ⟨_, rfl, ⟨hlocks, hlimit, hnext, hcutoff, ?_⟩, ?_⟩
        · rw [hshards, retained_succ]
        · simp only [Cleanup.remaining]
          omega
      next hend =>
        have hnext : next = config.shards := by omega
        subst hnext
        exact ⟨_, rfl, ⟨hlocks, Or.inr ⟨hlimit, cutoff, hcutoff, hshards⟩⟩, Nat.zero_le _⟩
  | finished =>
      rw [hcleanup] at hpass
      refine ⟨state, rfl, ⟨hlocks, ?_⟩, ?_⟩
      · rw [hcleanup]
        exact hpass
      · rw [hcleanup]
        exact Nat.zero_le _

/-- A pass on its own comes to its end. -/
theorem Uninterrupted.run (hrecorded : Recorded config start.shards start.requesting log.requests)
    (hfree : ∀ shard, start.requesting shard = none) {state : HistoryState}
    (h : Uninterrupted config start state) (steps : Nat) :
    ∃ last, Lib.run (HistoryState.step config) state (List.replicate steps .removeOldest) =
        .ok last ∧ Uninterrupted config start last ∧
      last.cleanup.remaining config.shards ≤ state.cleanup.remaining config.shards - steps := by
  induction steps generalizing state with
  | zero => exact ⟨state, rfl, h, Nat.le_refl _⟩
  | succ steps ih =>
      obtain ⟨next, hnext, hmiddle, hless⟩ := h.step hrecorded hfree
      obtain ⟨last, hlast, hend, hremaining⟩ := ih hmiddle
      refine ⟨last, ?_, hend, by omega⟩
      rw [List.replicate_succ, Lib.run]
      show (state.removeOldest config >>= _) = _
      rw [hnext, ok_bind, hlast]

/-- A pass that has nothing left to do has finished. -/
theorem Uninterrupted.finished {state : HistoryState} (h : Uninterrupted config start state)
    (hzero : state.cleanup.remaining config.shards = 0) : state.cleanup = .finished := by
  obtain ⟨-, hpass⟩ := h
  cases hcleanup : state.cleanup with
  | counting next count =>
      rw [hcleanup] at hpass hzero
      have hle := hpass.2.1
      simp only [Cleanup.remaining] at hzero
      omega
  | snapshot next clocks =>
      rw [hcleanup] at hpass hzero
      have hle := hpass.2.1
      simp only [Cleanup.remaining] at hzero
      omega
  | removing next cutoff =>
      rw [hcleanup] at hpass hzero
      have hle := hpass.2.1
      simp only [Cleanup.remaining] at hzero
      omega
  | finished => rfl

/-- A pass on its own keeps exactly the most recently requested keys. -/
theorem pass_alone (hrecorded : Recorded config start.shards start.requesting log.requests)
    (hfree : ∀ shard, start.requesting shard = none) (hidle : start.cleanup = .finished)
    {steps : Nat} (hsteps : 3 * (config.shards + 1) ≤ steps) :
    ∃ last, Lib.run (HistoryState.step config) start
        (.startCleanup :: List.replicate steps .removeOldest) = .ok last ∧
      last.cleanup = .finished ∧
      (start.total config ≤ config.limit → last.shards = start.shards) ∧
      (config.limit < start.total config →
        last.total config = entriesToKeep config.limit ∧
        ∀ shard, last.shards shard ⊆ start.shards shard ∧ ∀ recent ∈ last.shards shard,
          ∀ other, ∀ old ∈ start.shards other, old ∉ last.shards other →
            old.lastUpdateClock < recent.lastUpdateClock) := by
  have hbegin : Uninterrupted config start { start with cleanup := .counting 0 0 } :=
    ⟨rfl, rfl, Nat.zero_le _, rfl⟩
  obtain ⟨last, hrun, ⟨hlocks, hlast⟩, hremaining⟩ := hbegin.run hrecorded hfree steps
  have hfinished : last.cleanup = .finished := by
    refine Uninterrupted.finished ⟨hlocks, hlast⟩ (Nat.le_zero.mp (hremaining.trans ?_))
    simp only [Cleanup.remaining]
    omega
  rw [hfinished] at hlast
  refine ⟨last, ?_, hfinished, fun hfew => ?_, fun hmany => ?_⟩
  · rw [Lib.run]
    simp only [HistoryState.step, if_pos hidle, ok_bind]
    exact hrun
  · rcases hlast with ⟨-, hshards⟩ | ⟨hmany, -⟩
    · exact hshards
    · omega
  · rcases hlast with ⟨hfew, -⟩ | ⟨-, cutoff, hcutoff, hshards⟩
    · omega
    obtain ⟨hnodup, hmore⟩ := hrecorded.clocks hmany
    obtain ⟨selected, hselected, -, hcount⟩ := cutoff_of_spec hnodup hmore
    rw [hcutoff] at hselected
    cases hselected
    -- Shards beyond the last one have no entries.
    have hwithin : ∀ shard, ∀ history ∈ start.shards shard, shard < config.shards := by
      intro shard history hmem
      rw [← hrecorded.routed shard history hmem]
      exact shard_lt config history.key
    have hmem : ∀ shard history, history ∈ last.shards shard ↔
        history ∈ start.shards shard ∧ cutoff < history.lastUpdateClock := by
      intro shard history
      rw [hshards, retained]
      split
      next => rw [List.mem_filter, decide_eq_true_eq]
      next hbeyond => exact ⟨fun h => absurd (hwithin shard history h) hbeyond, fun h => h.1⟩
    refine ⟨?_, fun shard => ⟨fun history h => ((hmem shard history).mp h).1, ?_⟩⟩
    · rw [← hcount, length_filter_clocks_below, HistoryState.total, hshards]
      refine Finset.sum_congr rfl fun shard hshard => ?_
      rw [retained, if_pos (Finset.mem_range.mp hshard)]
    · intro recent hrecent other old hold hlost
      have habove := ((hmem shard recent).mp hrecent).2
      have hbelow : ¬ cutoff < old.lastUpdateClock := fun hless =>
        hlost ((hmem other old).mpr ⟨hold, hless⟩)
      omega

end Alone

/-! ## Cleanup is least recently requested -/

/-- The observations of a run from a new history. -/
def cleanupLog (config : HistoryConfig) (actions : List HistoryAction) : CleanupLog :=
  observe (HistoryState.step config) (CleanupLog.record config) .new ⟨[], [], none⟩ actions

/-- Every run keeps the histories in agreement with what was observed. -/
theorem run_history_invariant (config : HistoryConfig) {actions : List HistoryAction}
    {final : HistoryState} (hrun : run (HistoryState.step config) .new actions = .ok final) :
    HistoryInvariant config final (cleanupLog config actions) := by
  refine observe_invariant (HistoryInvariant config) (fun _ => True) ?_ (.new config)
    (fun _ _ => trivial) hrun
  intro state log action next h _ hstep
  exact (h.step action).of_ok hstep

/-- The overflow of the clock is the only failure. -/
theorem run_history_safe (config : HistoryConfig) (actions : List HistoryAction)
    {failure : HistoryPanic}
    (hrun : run (HistoryState.step config) .new actions = .error failure) :
    failure = .clockOverflow := by
  have hsafe : Outcome (· = .clockOverflow) (fun state => ∃ log, HistoryInvariant config state log)
      (run (HistoryState.step config) .new actions) := by
    refine run_outcome (fun _ => True) ?_ ⟨_, .new config⟩ fun _ _ => trivial
    rintro state action ⟨log, h⟩ -
    exact (h.step action).mono fun next hnext => ⟨_, hnext⟩
  rw [hrun] at hsafe
  exact hsafe

/-- Cleanup is least recently requested under every interleaving of passes with requests: no index
or subtraction of a pass goes out of range; when a pass has ended, no key that it removed had a
request after the cutoff up to its removal, and every key that is there has one; a request made
after the snapshot was complete is not lost; a pass that removes anything leaves at least the
entries to keep. A pass on its own ends and keeps exactly the most recently requested keys. -/
theorem remove_oldest_least_recent (config : HistoryConfig) (actions : List HistoryAction) :
    (∀ failure, run (HistoryState.step config) .new actions = .error failure →
      failure = .clockOverflow) ∧
    ∀ final, run (HistoryState.step config) .new actions = .ok final →
      final.cleanup = .finished →
      (∃ cutoff,
        (∀ entry ∈ (cleanupLog config actions).removed, ∀ clock ≤ entry.2,
          RequestedAt (cleanupLog config actions).requests entry.1 clock → clock ≤ cutoff) ∧
        ∀ shard, ∀ history ∈ final.shards shard, ∃ clock, cutoff < clock ∧
          RequestedAt (cleanupLog config actions).requests history.key clock) ∧
      (∀ time ∈ (cleanupLog config actions).snapshotAt, ∀ key clock, time < clock →
        RequestedAt (cleanupLog config actions).requests key clock →
        Present config final.shards final.requesting key clock) ∧
      ((cleanupLog config actions).removed ≠ [] →
        entriesToKeep config.limit ≤ final.total config) ∧
      ((∀ shard, final.requesting shard = none) → ∀ steps ≥ 3 * (config.shards + 1),
        ∃ last, run (HistoryState.step config) final
            (.startCleanup :: List.replicate steps .removeOldest) = .ok last ∧
          last.cleanup = .finished ∧
          (final.total config ≤ config.limit → last.shards = final.shards) ∧
          (config.limit < final.total config →
            last.total config = entriesToKeep config.limit ∧
            ∀ shard, last.shards shard ⊆ final.shards shard ∧ ∀ recent ∈ last.shards shard,
              ∀ other, ∀ old ∈ final.shards other, old ∉ last.shards other →
                old.lastUpdateClock < recent.lastUpdateClock)) := by
  refine ⟨fun failure hrun => run_history_safe config actions hrun, fun final hrun hfinished => ?_⟩
  have h := run_history_invariant config hrun
  have hpass := h.pass
  rw [hfinished] at hpass
  obtain ⟨cutoff, hswept⟩ := hpass
  refine ⟨⟨cutoff, fun entry hentry => (hswept.removed entry hentry).2, ?_⟩,
    fun time htime => (hswept.fresh time htime).2, fun hremoved => ?_,
    fun hfree steps hsteps => pass_alone h.recorded hfree hfinished hsteps⟩
  · intro shard history hmem
    have hshard : shard < config.shards := by
      rw [← h.recorded.routed shard history hmem]
      exact shard_lt config history.key
    exact ⟨_, hswept.kept shard hshard history hmem, h.recorded.stored shard history hmem⟩
  · obtain ⟨keys, hlength, hnodup, hkeys⟩ := hswept.survivors (hswept.taken hremoved)
    rw [← hlength]
    refine length_le_total hnodup fun key hkey => ?_
    obtain ⟨history, hmem, hsame, -⟩ := hkeys key hkey
    exact ⟨history, hmem, hsame⟩

end Feuer.Historian
