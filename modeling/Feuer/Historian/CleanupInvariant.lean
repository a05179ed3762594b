import Feuer.Historian.AccessHistory
import Feuer.Lib.ListLemmas
import Mathlib.Algebra.Order.BigOperators.Group.Finset

/-!
# What holds during a pass

`Recorded` relates the histories to the requests made so far: every entry has the clock of its
key's latest request, except for a request that still holds the shard's lock. Clocks are unique
because a clock determines the request. `PassInvariant` says what a pass has achieved at each of its
steps: the count and the snapshot are lower bounds of what is there, because requests only add
entries and raise clocks, and behind the removal every entry is above the cutoff (`Swept`).
-/

namespace Feuer.Historian

open Lib Storage

/-! ## Requests and clocks -/

section Requests

variable {requests : List ObjectKeyHash} {key other : ObjectKeyHash} {clock : Nat}

/-- Clocks count the requests. -/
theorem RequestedAt.le_length (h : RequestedAt requests key clock) : clock ≤ requests.length := by
  have hlt := (List.getElem?_eq_some_iff.mp h.2).1
  have hpos := h.1
  omega

/-- A clock belongs to one request. -/
theorem RequestedAt.unique (h : RequestedAt requests key clock)
    (h' : RequestedAt requests other clock) : key = other := by
  have heq := h.2.symm.trans h'.2
  simpa using heq

/-- The last request has the last clock. -/
theorem requested_at_append : RequestedAt (requests ++ [other]) key clock ↔
    RequestedAt requests key clock ∨ clock = requests.length + 1 ∧ key = other := by
  constructor
  · intro h
    by_cases hlast : clock = requests.length + 1
    · refine Or.inr ⟨hlast, ?_⟩
      have hkey := h.2
      rw [hlast, Nat.add_sub_cancel, List.getElem?_concat_length, Option.some.injEq] at hkey
      exact hkey.symm
    · have hle := h.le_length
      rw [List.length_append, List.length_singleton] at hle
      have hkey := h.2
      have hpos := h.1
      rw [List.getElem?_append_left (by omega)] at hkey
      exact Or.inl ⟨hpos, hkey⟩
  · rintro (h | ⟨rfl, rfl⟩)
    · have hlt := (List.getElem?_eq_some_iff.mp h.2).1
      exact ⟨h.1, by rw [List.getElem?_append_left hlt, h.2]⟩
    · exact ⟨by omega, by rw [Nat.add_sub_cancel, List.getElem?_concat_length]⟩

/-- Later requests leave the clocks of earlier ones. -/
theorem RequestedAt.append (h : RequestedAt requests key clock) (other : ObjectKeyHash) :
    RequestedAt (requests ++ [other]) key clock :=
  requested_at_append.mpr (Or.inl h)

end Requests

/-- A request replaces the history of its key. -/
theorem mem_add_request {histories : List History} {request history : History} :
    history ∈ addRequest histories request ↔
      history ∈ histories ∧ history.key ≠ request.key ∨ history = request := by
  simp [addRequest]

/-- Every key has a shard. -/
theorem shard_lt (config : HistoryConfig) (key : ObjectKeyHash) :
    config.shard key < config.shards := Nat.mod_lt _ config.shards_pos

/-! ## The histories -/

/-- The histories and the requests that hold a lock, after these requests. -/
structure Recorded (config : HistoryConfig) (shards : Nat → List History)
    (requesting : Nat → Option History) (requests : List ObjectKeyHash) : Prop where
  routed : ∀ shard, ∀ history ∈ shards shard, config.shard history.key = shard
  nodup : ∀ shard, ((shards shard).map (·.key)).Nodup
  stored : ∀ shard, ∀ history ∈ shards shard,
    RequestedAt requests history.key history.lastUpdateClock
  latest : ∀ shard, ∀ history ∈ shards shard, ∀ clock, RequestedAt requests history.key clock →
    clock ≤ history.lastUpdateClock ∨ requesting shard = some ⟨history.key, clock⟩
  locked : ∀ shard request, requesting shard = some request → config.shard request.key = shard ∧
    RequestedAt requests request.key request.lastUpdateClock ∧
    ∀ clock, RequestedAt requests request.key clock → clock ≤ request.lastUpdateClock

/-- Every key keeps its history, with the same clock or a later one. -/
def Newer (shards shards' : Nat → List History) : Prop :=
  ∀ shard, ∀ history ∈ shards shard, ∃ newer ∈ shards' shard, newer.key = history.key ∧
    history.lastUpdateClock ≤ newer.lastUpdateClock

section Recording

variable {config : HistoryConfig} {shards : Nat → List History}
  {requesting : Nat → Option History} {requests : List ObjectKeyHash}

/-- Without requests there are no histories. -/
theorem Recorded.new (config : HistoryConfig) :
    Recorded config (fun _ => []) (fun _ => none) [] where
  routed := by simp
  nodup := by simp
  stored := by simp
  latest := by simp
  locked := by simp

/-- A request takes the lock of its shard and the next clock. -/
theorem Recorded.lock (h : Recorded config shards requesting requests) {key : ObjectKeyHash}
    (hfree : requesting (config.shard key) = none) :
    Recorded config shards
      (Function.update requesting (config.shard key) (some ⟨key, requests.length + 1⟩))
      (requests ++ [key]) where
  routed := h.routed
  nodup := h.nodup
  stored := fun shard history hmem => (h.stored shard history hmem).append key
  latest := by
    intro shard history hmem clock hclock
    rcases requested_at_append.mp hclock with hold | ⟨rfl, hkey⟩
    · refine (h.latest shard history hmem clock hold).imp_right fun hlocked => ?_
      rw [Function.update_of_ne, hlocked]
      rintro rfl
      rw [hfree] at hlocked
      cases hlocked
    · refine Or.inr ?_
      rw [← h.routed shard history hmem, hkey, Function.update_self]
  locked := by
    intro shard request hrequest
    by_cases hshard : shard = config.shard key
    · rw [hshard, Function.update_self, Option.some.injEq] at hrequest
      subst hrequest
      refine ⟨hshard.symm, requested_at_append.mpr (Or.inr ⟨rfl, rfl⟩), fun clock hclock => ?_⟩
      have hle := hclock.le_length
      simpa using hle
    · rw [Function.update_of_ne hshard] at hrequest
      obtain ⟨hroute, hmade, hlast⟩ := h.locked shard request hrequest
      refine ⟨hroute, hmade.append key, fun clock hclock => ?_⟩
      rcases requested_at_append.mp hclock with hold | ⟨-, hkey⟩
      · exact hlast clock hold
      · exact absurd (hkey ▸ hroute).symm hshard

/-- A request that enters its clock raises the clock of its key. -/
theorem Recorded.newer_apply (h : Recorded config shards requesting requests) {shard : Nat}
    {request : History} (hrequest : requesting shard = some request) :
    Newer shards (Function.update shards shard (addRequest (shards shard) request)) := by
  intro other history hmem
  by_cases hshard : other = shard
  · subst hshard
    rw [Function.update_self]
    by_cases hkey : history.key = request.key
    · refine ⟨request, mem_add_request.mpr (Or.inr rfl), hkey.symm, ?_⟩
      exact (h.locked other request hrequest).2.2 _ (hkey ▸ h.stored other history hmem)
    · exact ⟨history, mem_add_request.mpr (Or.inl ⟨hmem, hkey⟩), rfl, Nat.le_refl _⟩
  · rw [Function.update_of_ne hshard]
    exact ⟨history, hmem, rfl, Nat.le_refl _⟩

/-- A key has one history. -/
theorem nodup_add_request {histories : List History} (h : (histories.map (·.key)).Nodup)
    (request : History) : ((addRequest histories request).map (·.key)).Nodup := by
  rw [addRequest, List.map_append, List.map_singleton, List.nodup_append_comm,
    List.singleton_append, List.nodup_cons]
  refine ⟨?_, (List.filter_sublist.map _).nodup h⟩
  simp

/-- A request enters its clock and releases the lock. -/
theorem Recorded.apply (h : Recorded config shards requesting requests) {shard : Nat}
    {request : History} (hrequest : requesting shard = some request) :
    Recorded config (Function.update shards shard (addRequest (shards shard) request))
      (Function.update requesting shard none) requests := by
  obtain ⟨hroute, hmade, hlast⟩ := h.locked shard request hrequest
  have hcases : ∀ other, ∀ history ∈ Function.update shards shard
      (addRequest (shards shard) request) other, other = shard ∧ history = request ∨
        history ∈ shards other ∧ (other = shard → history.key ≠ request.key) := by
    intro other history hmem
    by_cases hshard : other = shard
    · subst hshard
      rw [Function.update_self] at hmem
      rcases mem_add_request.mp hmem with hold | hnew
      · exact Or.inr ⟨hold.1, fun _ => hold.2⟩
      · exact Or.inl ⟨rfl, hnew⟩
    · rw [Function.update_of_ne hshard] at hmem
      exact Or.inr ⟨hmem, fun heq => absurd heq hshard⟩
  refine { routed := ?_, nodup := ?_, stored := ?_, latest := ?_, locked := ?_ }
  · intro other history hmem
    rcases hcases other history hmem with ⟨rfl, rfl⟩ | ⟨hold, -⟩
    · exact hroute
    · exact h.routed other history hold
  · intro other
    by_cases hshard : other = shard
    · subst hshard
      rw [Function.update_self]
      exact nodup_add_request (h.nodup other) request
    · rw [Function.update_of_ne hshard]
      exact h.nodup other
  · intro other history hmem
    rcases hcases other history hmem with ⟨rfl, rfl⟩ | ⟨hold, -⟩
    · exact hmade
    · exact h.stored other history hold
  · intro other history hmem clock hclock
    rcases hcases other history hmem with ⟨rfl, rfl⟩ | ⟨hold, hkey⟩
    · exact Or.inl (hlast clock hclock)
    · refine (h.latest other history hold clock hclock).imp_right fun hlocked => ?_
      rw [Function.update_of_ne, hlocked]
      rintro rfl
      rw [hrequest, Option.some.injEq] at hlocked
      exact hkey rfl (by rw [hlocked])
  · intro other request' hlocked
    by_cases hshard : other = shard
    · rw [hshard, Function.update_self] at hlocked
      cases hlocked
    · rw [Function.update_of_ne hshard] at hlocked
      exact h.locked other request' hlocked

/-- A pass removes some entries of a shard. -/
theorem Recorded.retain (h : Recorded config shards requesting requests) (shard : Nat)
    (keep : History → Bool) :
    Recorded config (Function.update shards shard ((shards shard).filter keep)) requesting
      requests := by
  have hsub : ∀ other, (Function.update shards shard ((shards shard).filter keep) other).Sublist
      (shards other) := by
    intro other
    by_cases hshard : other = shard
    · subst hshard
      rw [Function.update_self]
      exact List.filter_sublist
    · rw [Function.update_of_ne hshard]
  exact
    { routed := fun other history hmem => h.routed other history ((hsub other).subset hmem)
      nodup := fun other => ((hsub other).map _).nodup (h.nodup other)
      stored := fun other history hmem => h.stored other history ((hsub other).subset hmem)
      latest := fun other history hmem => h.latest other history ((hsub other).subset hmem)
      locked := h.locked }

/-- Shards whose keys keep their histories do not get smaller. -/
theorem Newer.length_le {shards' : Nat → List History} (hnewer : Newer shards shards')
    (hnodup : ∀ shard, ((shards shard).map (·.key)).Nodup) (shard : Nat) :
    (shards shard).length ≤ (shards' shard).length := by
  have hsubset : (shards shard).map (·.key) ⊆ (shards' shard).map (·.key) := by
    intro key hkey
    obtain ⟨history, hmem, rfl⟩ := List.mem_map.mp hkey
    obtain ⟨newer, hnew, hsame, -⟩ := hnewer shard history hmem
    exact List.mem_map.mpr ⟨newer, hnew, hsame⟩
  have hle := ((hnodup shard).subperm hsubset).length_le
  simpa using hle

end Recording

/-! ## The pass -/

/-- The snapshot so far. It has the clocks that distinct keys had, and together with the shards that
are still to come it has more entries than the limit. -/
structure Snapshot (config : HistoryConfig) (shards : Nat → List History)
    (requests : List ObjectKeyHash) (next : Nat) (clocks : List Nat) : Prop where
  exceeds : config.limit < clocks.length +
    ∑ shard ∈ Finset.Ico next config.shards, (shards shard).length
  entries : ∃ entries : List History, clocks = entries.map (·.lastUpdateClock) ∧
    (entries.map (·.key)).Nodup ∧ ∀ entry ∈ entries, config.shard entry.key < next ∧
      RequestedAt requests entry.key entry.lastUpdateClock ∧
      ∃ history ∈ shards (config.shard entry.key), history.key = entry.key ∧
        entry.lastUpdateClock ≤ history.lastUpdateClock

/-- A request of the key with at least this clock is in the histories or about to be. -/
def Present (config : HistoryConfig) (shards : Nat → List History)
    (requesting : Nat → Option History) (key : ObjectKeyHash) (clock : Nat) : Prop :=
  (∃ history ∈ shards (config.shard key), history.key = key ∧
    clock ≤ history.lastUpdateClock) ∨
  ∃ request, requesting (config.shard key) = some request ∧ request.key = key ∧
    clock ≤ request.lastUpdateClock

/-- The removal has gone over the shards below `next`. -/
structure Swept (config : HistoryConfig) (shards : Nat → List History)
    (requesting : Nat → Option History) (log : CleanupLog) (next cutoff : Nat) : Prop where
  past : cutoff ≤ log.requests.length
  removed : ∀ entry ∈ log.removed, entry.2 ≤ log.requests.length ∧
    ∀ clock ≤ entry.2, RequestedAt log.requests entry.1 clock → clock ≤ cutoff
  kept : ∀ shard < next, ∀ history ∈ shards shard, cutoff < history.lastUpdateClock
  locked : ∀ shard < next, ∀ request, requesting shard = some request →
    cutoff < request.lastUpdateClock
  taken : log.removed ≠ [] → log.snapshotAt.isSome
  survivors : log.snapshotAt.isSome → ∃ keys : List ObjectKeyHash,
    keys.length = entriesToKeep config.limit ∧ keys.Nodup ∧
      ∀ key ∈ keys, ∃ history ∈ shards (config.shard key), history.key = key ∧
        cutoff < history.lastUpdateClock
  fresh : ∀ time ∈ log.snapshotAt, cutoff ≤ time ∧ ∀ key clock, time < clock →
    RequestedAt log.requests key clock → Present config shards requesting key clock

/-- What a pass has achieved. -/
def PassInvariant (config : HistoryConfig) (shards : Nat → List History)
    (requesting : Nat → Option History) (log : CleanupLog) : Cleanup → Prop
  | .counting next count => log.removed = [] ∧ log.snapshotAt = none ∧ next ≤ config.shards ∧
      count ≤ ∑ shard ∈ Finset.range next, (shards shard).length
  | .snapshot next clocks => log.removed = [] ∧ log.snapshotAt = none ∧ next ≤ config.shards ∧
      Snapshot config shards log.requests next clocks
  | .removing next cutoff => log.snapshotAt.isSome ∧
      Swept config shards requesting log next cutoff
  | .finished => ∃ cutoff, Swept config shards requesting log config.shards cutoff

section Pass

variable {config : HistoryConfig} {shards : Nat → List History}
  {requesting : Nat → Option History} {log : CleanupLog} {next cutoff : Nat}

/-- A request that takes a clock is newer than the cutoff. -/
theorem Swept.lock (h : Swept config shards requesting log next cutoff) {key : ObjectKeyHash}
    (hfree : requesting (config.shard key) = none) :
    Swept config shards
      (Function.update requesting (config.shard key) (some ⟨key, log.requests.length + 1⟩))
      { log with requests := log.requests ++ [key] } next cutoff where
  past := by
    have hpast := h.past
    rw [List.length_append]
    omega
  removed := by
    intro entry hentry
    obtain ⟨htime, hlast⟩ := h.removed entry hentry
    refine ⟨htime.trans (by simp), fun clock hclock hrequested => ?_⟩
    rcases requested_at_append.mp hrequested with hold | ⟨rfl, -⟩
    · exact hlast clock hclock hold
    · omega
  kept := h.kept
  locked := by
    intro shard hshard request hrequest
    by_cases hsame : shard = config.shard key
    · rw [hsame, Function.update_self, Option.some.injEq] at hrequest
      subst hrequest
      exact Nat.lt_succ_of_le h.past
    · rw [Function.update_of_ne hsame] at hrequest
      exact h.locked shard hshard request hrequest
  taken := h.taken
  survivors := h.survivors
  fresh := by
    intro time htime
    obtain ⟨hcutoff, hpresent⟩ := h.fresh time htime
    refine ⟨hcutoff, fun other clock hclock hrequested => ?_⟩
    rcases requested_at_append.mp hrequested with hold | ⟨rfl, rfl⟩
    · refine (hpresent other clock hclock hold).imp_right ?_
      rintro ⟨request, hrequest, hfound⟩
      refine ⟨request, ?_, hfound⟩
      rw [Function.update_of_ne, hrequest]
      intro hsame
      rw [hsame, hfree] at hrequest
      cases hrequest
    · exact Or.inr ⟨_, Function.update_self _ _ _, rfl, Nat.le_refl _⟩

/-- The removal has not missed a request that enters its clock later. -/
theorem Swept.apply (h : Swept config shards requesting log next cutoff)
    (hrecorded : Recorded config shards requesting log.requests) {shard : Nat}
    {request : History} (hrequest : requesting shard = some request) :
    Swept config (Function.update shards shard (addRequest (shards shard) request))
      (Function.update requesting shard none) log next cutoff := by
  have hnewer := hrecorded.newer_apply hrequest
  refine
    { past := h.past, removed := h.removed, kept := ?_, locked := ?_, taken := h.taken
      survivors := ?_, fresh := ?_ }
  · intro other hother history hmem
    by_cases hshard : other = shard
    · subst hshard
      rw [Function.update_self] at hmem
      rcases mem_add_request.mp hmem with hold | rfl
      · exact h.kept other hother history hold.1
      · exact h.locked other hother history hrequest
    · rw [Function.update_of_ne hshard] at hmem
      exact h.kept other hother history hmem
  · intro other hother request' hlocked
    by_cases hshard : other = shard
    · rw [hshard, Function.update_self] at hlocked
      cases hlocked
    · rw [Function.update_of_ne hshard] at hlocked
      exact h.locked other hother request' hlocked
  · intro hsome
    obtain ⟨keys, hlength, hnodup, hkeys⟩ := h.survivors hsome
    refine ⟨keys, hlength, hnodup, fun key hkey => ?_⟩
    obtain ⟨history, hmem, hsame, habove⟩ := hkeys key hkey
    obtain ⟨newer, hnew, hkept, hle⟩ := hnewer _ history hmem
    exact ⟨newer, hnew, hkept.trans hsame, habove.trans_le hle⟩
  · intro time htime
    obtain ⟨hcutoff, hpresent⟩ := h.fresh time htime
    refine ⟨hcutoff, fun key clock hclock hrequested => ?_⟩
    rcases hpresent key clock hclock hrequested with ⟨history, hmem, hsame, hle⟩ | hlocked
    · obtain ⟨newer, hnew, hkept, hless⟩ := hnewer _ history hmem
      exact Or.inl ⟨newer, hnew, hkept.trans hsame, hle.trans hless⟩
    · obtain ⟨request', hrequest', hsame, hle⟩ := hlocked
      by_cases hshard : config.shard key = shard
      · rw [hshard, hrequest, Option.some.injEq] at hrequest'
        subst hrequest'
        refine Or.inl ⟨request, ?_, hsame, hle⟩
        rw [hshard, Function.update_self]
        exact mem_add_request.mpr (Or.inr rfl)
      · exact Or.inr ⟨request', by rw [Function.update_of_ne hshard, hrequest'], hsame, hle⟩

/-- The pass after a request took a lock. -/
theorem PassInvariant.lock {cleanup : Cleanup}
    (h : PassInvariant config shards requesting log cleanup) {key : ObjectKeyHash}
    (hfree : requesting (config.shard key) = none) :
    PassInvariant config shards
      (Function.update requesting (config.shard key) (some ⟨key, log.requests.length + 1⟩))
      { log with requests := log.requests ++ [key] } cleanup := by
  cases cleanup with
  | counting next count => exact h
  | snapshot next clocks =>
      obtain ⟨hremoved, hsnapshot, hle, hexceeds, entries, hclocks, hnodup, hentries⟩ := h
      refine ⟨hremoved, hsnapshot, hle, hexceeds, entries, hclocks, hnodup, fun entry hentry => ?_⟩
      obtain ⟨hshard, hrequested, hthere⟩ := hentries entry hentry
      exact ⟨hshard, hrequested.append key, hthere⟩
  | removing next cutoff => exact ⟨h.1, h.2.lock hfree⟩
  | finished =>
      obtain ⟨cutoff, hswept⟩ := h
      exact ⟨cutoff, hswept.lock hfree⟩

/-- The pass after a request entered its clock. -/
theorem PassInvariant.apply {cleanup : Cleanup}
    (h : PassInvariant config shards requesting log cleanup)
    (hrecorded : Recorded config shards requesting log.requests) {shard : Nat}
    {request : History} (hrequest : requesting shard = some request) :
    PassInvariant config (Function.update shards shard (addRequest (shards shard) request))
      (Function.update requesting shard none) log cleanup := by
  have hnewer := hrecorded.newer_apply hrequest
  have hlength := hnewer.length_le hrecorded.nodup
  cases cleanup with
  | counting next count =>
      obtain ⟨hremoved, hsnapshot, hle, hcount⟩ := h
      exact ⟨hremoved, hsnapshot, hle,
        hcount.trans (Finset.sum_le_sum fun other _ => hlength other)⟩
  | snapshot next clocks =>
      obtain ⟨hremoved, hsnapshot, hle, hexceeds, entries, hclocks, hnodup, hentries⟩ := h
      refine ⟨hremoved, hsnapshot, hle, hexceeds.trans_le (Nat.add_le_add_left
        (Finset.sum_le_sum fun other _ => hlength other) _), entries, hclocks, hnodup,
        fun entry hentry => ?_⟩
      obtain ⟨hshard, hrequested, history, hmem, hkey, hclock⟩ := hentries entry hentry
      obtain ⟨newer, hnew, hsame, hless⟩ := hnewer _ history hmem
      exact ⟨hshard, hrequested, newer, hnew, hsame.trans hkey, hclock.trans hless⟩
  | removing next cutoff => exact ⟨h.1, h.2.apply hrecorded hrequest⟩
  | finished =>
      obtain ⟨cutoff, hswept⟩ := h
      exact ⟨cutoff, hswept.apply hrecorded hrequest⟩

end Pass

end Feuer.Historian
