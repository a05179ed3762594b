import Feuer.Memory.MemoryCache

/-!
# The soft capacity of the memory cache

The shards divide the capacity among them. A shard passes its share only with a single entry that
is larger than the share, since the admission test subtracts the charge from the share and stops at
zero. `MemoryCache.Change` says what one step can do to the shards; the bounds follow from it.

`MemoryCache.run_soft_capacity` holds in every state that an interleaving reaches, and adds what an
insertion does that no other thread interrupts. Only the counter of the pool limits what is charged
to all shards together: `MemoryCache.insert_alone_overflows` is an insertion that reaches 2^64.
-/

namespace Feuer.Memory

open Lib

/-! ## Shards -/

namespace MemoryCacheShard

variable {κ : Type} [LinearOrder κ]

/-- The charge of a key's entry. -/
def chargeAt (shard : MemoryCacheShard κ) (key : κ) : Option Nat :=
  (shard.entriesByKey.lookup key).map MemoryEntry.allocationCharge

/-- At most one entry has a charge that is not zero. -/
def SoleCharge (shard : MemoryCacheShard κ) : Prop :=
  ∀ first second charge other, shard.chargeAt first = some charge →
    shard.chargeAt second = some other → charge ≠ 0 → other ≠ 0 → first = second

/-- The shard keeps to its share, or one entry alone takes more. -/
def Bounded (shard : MemoryCacheShard κ) : Prop :=
  shard.usedBytes ≤ shard.capacity ∨ shard.SoleCharge

/-- The shard loses entries, or none. -/
structure Loses (shard after : MemoryCacheShard κ) : Prop where
  capacity : after.capacity = shard.capacity
  used : after.usedBytes ≤ shard.usedBytes
  charges : ∀ key, after.chargeAt key = none ∨ after.chargeAt key = shard.chargeAt key

/-- The shard gains an entry that passes the admission test. -/
structure Gains (shard : MemoryCacheShard κ) (key : κ) (charge : Nat)
    (after : MemoryCacheShard κ) : Prop where
  capacity : after.capacity = shard.capacity
  room : shard.usedBytes ≤ shard.capacity - charge
  used : after.usedBytes = shard.usedBytes + charge
  charges : ∀ other,
    after.chargeAt other = if other = key then some charge else shard.chargeAt other

variable {shard after : MemoryCacheShard κ} {usage left : SharedUsage} {owner : Nat} {key : κ}

/-- A shard may lose nothing. -/
theorem Loses.refl (shard : MemoryCacheShard κ) : shard.Loses shard :=
  ⟨rfl, le_rfl, fun _ => .inr rfl⟩

/-- A shard that loses entries stays bounded. -/
theorem Loses.bounded (h : shard.Loses after) (hbounded : shard.Bounded) : after.Bounded := by
  rcases hbounded with hused | hsole
  · exact .inl (h.capacity ▸ h.used.trans hused)
  · refine .inr fun first second charge other hfirst hsecond => ?_
    have hkept : ∀ key charge, after.chargeAt key = some charge →
      shard.chargeAt key = some charge := by
      intro key charge hkey
      rcases h.charges key with hnone | hsame
      · rw [hnone] at hkey
        cases hkey
      · exact hsame ▸ hkey
    exact hsole first second charge other (hkept _ _ hfirst) (hkept _ _ hsecond)

/-- The entries of a shard without used bytes are charged nothing. -/
theorem Sound.charge_eq_zero (h : shard.Sound) (hused : shard.usedBytes = 0) {charge : Nat}
    (hkey : shard.chargeAt key = some charge) : charge = 0 := by
  obtain ⟨entry, hentry, rfl⟩ := Option.map_eq_some_iff.mp hkey
  have hle := FiniteMap.le_tally chargeOf hentry
  have hcharges := h.used
  simp only [charges, chargeOf] at hcharges hle
  omega

/-- A charge above the share is admitted only when no other entry has a charge. -/
theorem Gains.bounded {charge : Nat} (h : shard.Gains key charge after) (hsound : shard.Sound) :
    after.Bounded := by
  have hroom := h.room
  by_cases hfits : charge ≤ shard.capacity
  · left
    rw [h.used, h.capacity]
    omega
  · have hempty : shard.usedBytes = 0 := by omega
    have hkey : ∀ other charge, after.chargeAt other = some charge → charge ≠ 0 → other = key := by
      intro other charge hother hcharge
      by_contra hne
      rw [h.charges, if_neg hne] at hother
      exact hcharge (hsound.charge_eq_zero hempty hother)
    right
    intro first second charge other hfirst hsecond hcharge hother
    rw [hkey first charge hfirst hcharge, hkey second other hsecond hother]

/-- An entry that is added has passed the admission test. -/
theorem add_entry_gains {bytes : List UInt8} {charge : Nat}
    (hroom : shard.usedBytes ≤ shard.capacity - charge)
    (h : shard.addEntry usage owner key bytes charge = .ok (after, left)) :
    shard.Gains key charge after := by
  obtain ⟨used, hused, h⟩ := bind_eq_ok.mp h
  obtain ⟨added, -, h⟩ := bind_eq_ok.mp h
  unfold checkedAdd at hused
  split at hused
  next =>
    cases hused
    cases h
    refine ⟨rfl, hroom, rfl, fun other => ?_⟩
    simp only [chargeAt, FiniteMap.lookup_insert_eq]
    split <;> rfl
  next => cases hused

/-- The candidate that moves into the gap keeps its charge. -/
theorem remove_candidate_charges {candidates rest : List κ} {entries kept : FiniteMap κ MemoryEntry}
    {index : Nat} (h : removeCandidate candidates entries index = .ok (rest, kept)) (key : κ) :
    (kept.lookup key).map MemoryEntry.allocationCharge =
      (entries.lookup key).map MemoryEntry.allocationCharge := by
  unfold removeCandidate at h
  split at h
  next => cases h
  next =>
    dsimp only at h
    split at h
    next =>
      cases h
      rfl
    next moved _ =>
      split at h
      next => cases h
      next entry hentry =>
        cases h
        rw [FiniteMap.lookup_insert_eq]
        split
        next heq =>
          rw [heq, hentry]
          rfl
        next => rfl

/-- A removal loses its entry and nothing else. -/
theorem remove_entry_loses {removed : Bool}
    (h : shard.removeEntry usage owner key = .ok (removed, after, left)) :
    shard.Loses after := by
  unfold removeEntry at h
  split at h
  next =>
    cases h
    exact .refl shard
  next entry hentry =>
    obtain ⟨⟨candidates, entries⟩, hcandidates, h⟩ := bind_eq_ok.mp h
    obtain ⟨used, hused, h⟩ := bind_eq_ok.mp h
    obtain ⟨usage, -, h⟩ := bind_eq_ok.mp h
    unfold checkedSub at hused
    split at hused
    next =>
      cases hused
      cases h
      refine ⟨rfl, Nat.sub_le .., fun other => ?_⟩
      have hcharge := remove_candidate_charges hcandidates other
      simp only [chargeAt, hcharge, FiniteMap.lookup_erase_eq]
      split
      next => exact .inl rfl
      next => exact .inr rfl
    next => cases hused

/-- What an attempt does to the shard, by its outcome. -/
theorem try_insert_cases {bytes : List UInt8} {charge sampleSize : Nat} {score : κ → Nat → Int}
    {result : InsertResult}
    (h : shard.tryInsert usage owner key bytes charge sampleSize score =
      .ok (result, after, left)) :
    result = .inserted ∧ shard.Gains key charge after ∨
      result = .alreadyPresent ∧ after = shard ∨
      result = .evictedButDidNotInsert ∧ shard.capacity - charge < shard.usedBytes ∧
        shard.Loses after := by
  unfold tryInsert at h
  split at h
  next =>
    cases h
    exact .inr (.inl ⟨rfl, rfl⟩)
  next =>
    dsimp only at h
    split at h
    next hroom =>
      obtain ⟨⟨added, usage⟩, hadded, h⟩ := bind_eq_ok.mp h
      cases h
      exact .inl ⟨rfl, add_entry_gains hroom hadded⟩
    next hfull =>
      obtain ⟨sampled, -, h⟩ := bind_eq_ok.mp h
      split at h
      next => cases h
      next =>
        obtain ⟨⟨removed, rest, usage⟩, hremoved, h⟩ := bind_eq_ok.mp h
        cases h
        have hloses := remove_entry_loses hremoved
        exact .inr (.inr ⟨rfl, Nat.not_le.mp hfull, ⟨hloses.capacity, hloses.used, hloses.charges⟩⟩)

/-- A shard that lost one key has one candidate less. -/
theorem Sound.length_of_lost (h : shard.Sound) (hafter : after.Sound)
    (hkey : (shard.get key).isSome)
    (hget : ∀ other, after.get other = if other = key then none else shard.get other) :
    after.evictionCandidates.length + 1 = shard.evictionCandidates.length := by
  have hmem : ∀ {shard : MemoryCacheShard κ}, shard.Sound → ∀ other,
      other ∈ shard.evictionCandidates ↔ (shard.get other).isSome := by
    intro shard h other
    rw [h.ranked.mem_iff, get, Option.isSome_map]
  have hperm : after.evictionCandidates.Perm (shard.evictionCandidates.erase key) := by
    refine (List.perm_ext_iff_of_nodup hafter.ranked.nodup (h.ranked.nodup.erase key)).mpr ?_
    intro other
    rw [h.ranked.nodup.mem_erase_iff, hmem hafter, hmem h, hget]
    by_cases heq : other = key
    · simp [heq]
    · simp [heq]
  have hlisted := (hmem h key).mpr hkey
  have hpos := List.length_pos_of_mem hlisted
  rw [hperm.length_eq, List.length_erase_of_mem hlisted]
  omega

end MemoryCacheShard

/-! ## Shares -/

/-- The first shards take one byte more each, until the remainder is spent. -/
theorem sum_shares_below (totalCapacity shardCount count : Nat) :
    ((List.range count).map (shardCapacityFor totalCapacity shardCount)).sum =
      count * (totalCapacity / shardCount) + min count (totalCapacity % shardCount) := by
  induction count with
  | zero => simp
  | succ count ih =>
      rw [List.range_succ, List.map_append, List.sum_append, List.map_singleton, List.sum_singleton,
        ih, shardCapacityFor, Nat.succ_mul]
      split <;> omega

/-- The shares of all shards are the capacity. -/
theorem sum_shares (totalCapacity : Nat) {shardCount : Nat} (h : 0 < shardCount) :
    ((List.range shardCount).map (shardCapacityFor totalCapacity shardCount)).sum =
      totalCapacity := by
  rw [sum_shares_below, Nat.min_eq_right (Nat.mod_lt totalCapacity h).le]
  exact Nat.div_add_mod totalCapacity shardCount

/-- The share of a shard. -/
def MemoryCacheConfig.share {κ : Type} (config : MemoryCacheConfig κ) (index : Nat) : Nat :=
  shardCapacityFor config.capacity config.shardCount index

/-- An insertion has a charge of at most the share of its shard. -/
def MemoryAction.Fits {κ : Type} (config : MemoryCacheConfig κ) : MemoryAction κ → Prop
  | .insert _ key _ allocationCharge => allocationCharge ≤ config.share (config.shardIndex key)
  | _ => True

namespace MemoryCache

variable {κ : Type} [LinearOrder κ] {config : MemoryCacheConfig κ} {s next : MemoryCache κ}
  {action : MemoryAction κ} {task : Nat} {call : InsertCall κ} {index : Nat}
  {shard after : MemoryCacheShard κ} {left : SharedUsage}

/-! ## Steps -/

/-- A shard loses entries, or gains the object of a running insertion. -/
def ShardChange (config : MemoryCacheConfig κ) (s : MemoryCache κ) (index : Nat)
    (shard after : MemoryCacheShard κ) : Prop :=
  shard.Loses after ∨ ∃ task call, s.inserts.lookup task = some call ∧
    config.shardIndex call.key = index ∧ shard.Gains call.key call.allocationCharge after

/-- What a step does to the shards and to the running insertions. -/
structure Change (config : MemoryCacheConfig κ) (s : MemoryCache κ) (action : MemoryAction κ)
    (next : MemoryCache κ) : Prop where
  shards : ∀ index after, next.shards.lookup index = some after →
    ∃ shard, s.shards.lookup index = some shard ∧ ShardChange config s index shard after
  inserts : ∀ task call, next.inserts.lookup task = some call → s.inserts.lookup task = some call ∨
    action = .insert task call.key call.bytes call.allocationCharge
  alive : next.alive = true → s.alive = true ∧
    ∀ index, (s.shards.lookup index).isSome → (next.shards.lookup index).isSome

/-- A step that leaves the shards alone is a change of nothing. -/
theorem Change.keep (hshards : next.shards = s.shards) (halive : next.alive = s.alive)
    (hinserts : ∀ task call, next.inserts.lookup task = some call →
      s.inserts.lookup task = some call ∨
        action = .insert task call.key call.bytes call.allocationCharge) :
    Change config s action next where
  shards _ after hafter := ⟨after, hshards ▸ hafter, .inl (.refl after)⟩
  inserts := hinserts
  alive h := ⟨halive ▸ h, fun _ hindex => hshards ▸ hindex⟩

/-- A step may change nothing. -/
theorem Change.refl (s : MemoryCache κ) : Change config s action s :=
  .keep rfl rfl fun _ _ h => .inl h

/-- A step may change one shard. -/
theorem Change.put (hshard : s.shards.lookup index = some shard)
    (hchange : ShardChange config s index shard after)
    (hshards : next.shards = s.shards.insert index after) (halive : next.alive = s.alive)
    (hinserts : ∀ task call, next.inserts.lookup task = some call →
      s.inserts.lookup task = some call) : Change config s action next where
  shards other found hfound := by
    rw [hshards, FiniteMap.lookup_insert_eq] at hfound
    split at hfound
    next heq =>
      cases hfound
      exact ⟨shard, heq ▸ hshard, heq ▸ hchange⟩
    next => exact ⟨found, hfound, .inl (.refl found)⟩
  inserts task call htask := .inl (hinserts task call htask)
  alive h := by
    refine ⟨halive ▸ h, fun other hother => ?_⟩
    rw [hshards, FiniteMap.lookup_insert_eq]
    split
    next => rfl
    next => exact hother

/-- An attempt gains an entry of its own shard, loses one of them, or changes nothing. -/
theorem try_insert_change {score : κ → Nat → Int} (h : tryInsert config s task score = .ok next) :
    Change config s action next := by
  unfold tryInsert at h
  split at h
  next =>
    cases h
    exact .refl s
  next call htask =>
    dsimp only at h
    split at h
    next =>
      cases h
      exact .refl s
    next shard hshard =>
      split at h
      next =>
        cases h
        exact .refl s
      next =>
        obtain ⟨⟨result, after, left⟩, hattempt, h⟩ := bind_eq_ok.mp h
        rcases MemoryCacheShard.try_insert_cases hattempt with
          ⟨rfl, hgains⟩ | ⟨rfl, rfl⟩ | ⟨rfl, -, hloses⟩
        · cases h
          exact .put hshard (.inr ⟨task, call, htask, rfl, hgains⟩) rfl rfl
            fun _ _ hcall => (FiniteMap.lookup_erase_eq_some.mp hcall).2
        · cases h
          exact .put hshard (.inl (.refl _)) rfl rfl
            fun _ _ hcall => (FiniteMap.lookup_erase_eq_some.mp hcall).2
        · cases h
          exact .put hshard (.inl hloses) rfl rfl fun _ _ hcall => hcall

/-- A removal loses an entry of one shard. -/
theorem remove_change {key : κ} (h : remove config s key = .ok next) :
    Change config s action next := by
  unfold remove at h
  dsimp only at h
  split at h
  next =>
    cases h
    exact .refl s
  next shard hshard =>
    obtain ⟨⟨removed, after, left⟩, hremoved, h⟩ := bind_eq_ok.mp h
    cases h
    exact .put hshard (.inl (MemoryCacheShard.remove_entry_loses hremoved)) rfl rfl
      fun _ _ hcall => hcall

/-- A shard that is dropped is gone. -/
theorem drop_shard_change (h : s.dropShard index = .ok next) : Change config s action next := by
  unfold dropShard at h
  split at h
  next =>
    cases h
    exact .refl s
  next shard hshard =>
    split at h
    next =>
      obtain ⟨left, -, h⟩ := bind_eq_ok.mp h
      cases h
      refine ⟨fun other found hfound => ?_, fun _ _ hcall => .inl hcall,
        (fun hdead => by cases hdead)⟩
      exact ⟨found, (FiniteMap.lookup_erase_eq_some.mp hfound).2, .inl (.refl found)⟩
    next =>
      cases h
      exact .refl s

/-- Every step makes such a change. -/
theorem step_change (h : step config s action = .ok next) :
    Change config s action next := by
  cases action with
  | get key =>
      simp only [step, pure_eq_ok] at h
      subst h
      split
      next => exact .keep rfl rfl fun _ _ hcall => .inl hcall
      next => exact .refl s
  | insert task key bytes charge =>
      simp only [step, insert, pure_eq_ok] at h
      subst h
      split
      next =>
        refine .keep rfl rfl fun other call hcall => ?_
        rw [FiniteMap.lookup_insert_eq] at hcall
        split at hcall
        next heq =>
          cases hcall
          exact .inr (heq ▸ rfl)
        next => exact .inl hcall
      next => exact .refl s
  | tryInsert task score => exact try_insert_change h
  | remove key =>
      simp only [step] at h
      split at h
      next => exact remove_change h
      next =>
        cases h
        exact .refl s
  | dropShard index => exact drop_shard_change h
  | useBuffers action =>
      simp only [step] at h
      split at h
      next =>
        obtain ⟨buffers, -, h⟩ := bind_eq_ok.mp h
        cases h
        exact .keep rfl rfl fun _ _ hcall => .inl hcall
      next =>
        cases h
        exact .refl s

/-! ## Bounds -/

/-- Every shard has its share and keeps to it, or one entry alone takes more. -/
structure Capped (config : MemoryCacheConfig κ) (s : MemoryCache κ) : Prop where
  shares : ∀ index shard, s.shards.lookup index = some shard →
    index < config.shardCount ∧ shard.capacity = config.share index ∧ shard.Bounded
  complete : s.alive = true → ∀ index < config.shardCount, (s.shards.lookup index).isSome

/-- The share of a shard does not change. -/
theorem ShardChange.capacity_eq (h : ShardChange config s index shard after) :
    after.capacity = shard.capacity := by
  rcases h with hloses | ⟨_, _, _, _, hgains⟩
  · exact hloses.capacity
  · exact hgains.capacity

/-- Every step keeps the shards bounded by their shares. -/
theorem Capped.step (h : Capped config s) (haccounted : Accounted config s)
    (hchange : Change config s action next) : Capped config next where
  shares index after hafter := by
    obtain ⟨shard, hshard, hshardChange⟩ := hchange.shards index after hafter
    obtain ⟨hlt, hshare, hbounded⟩ := h.shares index shard hshard
    refine ⟨hlt, hshardChange.capacity_eq.trans hshare, ?_⟩
    rcases hshardChange with hloses | ⟨_, _, _, _, hgains⟩
    · exact hloses.bounded hbounded
    · exact hgains.bounded (haccounted.books.sound index shard hshard)
  complete halive index hlt := by
    obtain ⟨hbefore, hkept⟩ := hchange.alive halive
    exact hkept index (h.complete hbefore index hlt)

omit [LinearOrder κ] in
/-- A new cache has the shards below its count, each with its share. -/
theorem new_shards_lookup (config : MemoryCacheConfig κ) (count index : Nat) :
    (newShards config count).lookup index =
      if index < count then some (.new (config.share index)) else none := by
  induction count with
  | zero => simp [newShards]
  | succ count ih =>
      rw [newShards, FiniteMap.lookup_insert_eq, ih]
      by_cases heq : index = count
      · simp [heq, MemoryCacheConfig.share]
      · rw [if_neg heq]
        exact if_congr (by omega) rfl rfl

/-- The shards of a new cache are empty. -/
theorem Capped.new (config : MemoryCacheConfig κ) : Capped config (new config) where
  shares index shard hshard := by
    rw [MemoryCache.new, new_shards_lookup] at hshard
    split at hshard
    next hlt =>
      cases hshard
      exact ⟨hlt, rfl, .inl (Nat.zero_le _)⟩
    next => cases hshard
  complete _ index hlt := by simp [MemoryCache.new, new_shards_lookup, hlt]

/-- Every running insertion fits the share of its shard, and the shards keep to their shares. -/
structure Fitting (config : MemoryCacheConfig κ) (s : MemoryCache κ) : Prop where
  used : ∀ index shard, s.shards.lookup index = some shard → shard.usedBytes ≤ shard.capacity
  calls : ∀ task call, s.inserts.lookup task = some call →
    call.allocationCharge ≤ config.share (config.shardIndex call.key)

/-- Insertions that fit their shards keep every shard within its share. -/
theorem Fitting.step (h : Fitting config s) (hcapped : Capped config s)
    (hchange : Change config s action next) (haction : action.Fits config) :
    Fitting config next where
  used index after hafter := by
    obtain ⟨shard, hshard, hloses | ⟨task, call, htask, hindex, hgains⟩⟩ :=
      hchange.shards index after hafter
    · rw [hloses.capacity]
      exact hloses.used.trans (h.used index shard hshard)
    · have hcharge := h.calls task call htask
      have hroom := hgains.room
      rw [hindex, ← (hcapped.shares index shard hshard).2.1] at hcharge
      rw [hgains.used, hgains.capacity]
      omega
  calls task call htask := by
    rcases hchange.inserts task call htask with hbefore | rfl
    · exact h.calls task call hbefore
    · exact haction

omit [LinearOrder κ] in
/-- A new cache uses nothing. -/
theorem Fitting.new (config : MemoryCacheConfig κ) : Fitting config (new config) where
  used index shard hshard := by
    rw [MemoryCache.new, new_shards_lookup] at hshard
    split at hshard
    next =>
      cases hshard
      exact Nat.zero_le _
    next => cases hshard
  calls task call htask := by simp [MemoryCache.new] at htask

/-- Shards that keep to their shares leave the idle buffers the rest of the capacity. -/
theorem Fitting.total_le (h : Fitting config s) (hcapped : Capped config s)
    (haccounted : Accounted config s) :
    s.usage.buffers.pool.usedBytes + s.usage.buffers.pool.idleBytes ≤ config.capacity := by
  have hused : s.usage.buffers.pool.usedBytes ≤ config.capacity := by
    rw [haccounted.books.pool, ← sum_shares config.capacity config.shardCount_pos]
    refine FiniteMap.tally_le_sum fun index shard hshard => ?_
    obtain ⟨hlt, hshare, -⟩ := hcapped.shares index shard hshard
    exact ⟨hlt, (h.used index shard hshard).trans hshare.le⟩
  have hidle := haccounted.books.settled.budget.limit
  rw [haccounted.books.settled.budget.fixed] at hidle
  omega

/-! ## An insertion without interference -/

/-- What one attempt of an insertion does. -/
inductive Attempt (config : MemoryCacheConfig κ) (s : MemoryCache κ) (task : Nat)
    (call : InsertCall κ) (shard : MemoryCacheShard κ) (next : MemoryCache κ) : Prop where
  /-- The insertion returns with the key in the cache. -/
  | returned (hreturned : next.inserts.lookup task = none)
      (hkey : (get config next call.key).isSome)
      (hget : ∀ other, other ≠ call.key → get config next other = get config s other)
  /-- The charges that are present would reach 2^64. -/
  | overflow (hsame : next = s) (hword : wordSize ≤ s.charges + call.allocationCharge)
  /-- The shard is full and loses an entry. -/
  | evicted (key : κ) (rest : MemoryCacheShard κ) (hcall : next.inserts.lookup task = some call)
      (habsent : get config s call.key = none)
      (hfull : shard.capacity - call.allocationCharge < shard.usedBytes)
      (hkey : config.shardIndex key = config.shardIndex call.key)
      (hsome : (get config s key).isSome)
      (hrest : next.shards.lookup (config.shardIndex call.key) = some rest)
      (hlength : rest.evictionCandidates.length + 1 = shard.evictionCandidates.length)
      (hget : ∀ other, get config next other = if other = key then none else get config s other)

/-- A lookup asks the shard of the key. -/
theorem get_eq (hshard : s.shards.lookup index = some shard) {key : κ}
    (hkey : config.shardIndex key = index) : get config s key = shard.get key := by
  rw [get, hkey, hshard]
  rfl

/-- An attempt changes its own shard only. -/
theorem try_insert_attempt (h : Accounted config s) (htask : s.inserts.lookup task = some call)
    (hshard : s.shards.lookup (config.shardIndex call.key) = some shard) (score : κ → Nat → Int) :
    Outcome (fun _ => False)
      (fun next => Accounted config next ∧ Attempt config s task call shard next ∧
      ∀ other ≠ config.shardIndex call.key, next.shards.lookup other = s.shards.lookup other)
      (tryInsert config s task score) := by
  obtain ⟨next, hnext, haccounted, -⟩ := (try_insert_accounted h task score).exists_ok
  rw [hnext]
  refine ⟨haccounted, ?_⟩
  unfold tryInsert at hnext
  simp only [htask, hshard] at hnext
  split at hnext
  next hoverflow =>
    cases hnext
    exact ⟨.overflow rfl hoverflow.2.2, fun _ _ => rfl⟩
  next hfits =>
    obtain ⟨⟨result, after, left⟩, hattempt, hnext⟩ := bind_eq_ok.mp hnext
    obtain ⟨hsound, -, -, hattempted⟩ := (h.attempt_spec hshard hfits score).of_ok hattempt
    have hcases := MemoryCacheShard.try_insert_cases hattempt
    have hget : ∀ other,
      get config (s.putShard (config.shardIndex call.key) shard after left) other =
        if config.shardIndex other = config.shardIndex call.key then after.get other
        else get config s other := fun other => get_put_shard other
    have hothers : ∀ other ≠ config.shardIndex call.key,
        (s.shards.insert (config.shardIndex call.key) after).lookup other = s.shards.lookup other :=
      fun other hother => Finmap.lookup_insert_of_ne _ hother
    have hsame : ∀ other, config.shardIndex other = config.shardIndex call.key →
        get config s other = shard.get other := fun other => get_eq hshard
    rcases hcases with ⟨rfl, -⟩ | ⟨rfl, rfl⟩ | ⟨rfl, hfull, -⟩
    · cases hnext
      refine ⟨.returned (Finmap.lookup_erase _ _) ?_ fun other hother => ?_, hothers⟩
      · show (get config (s.putShard _ shard after left) call.key).isSome
        rw [hget, if_pos rfl, hattempted.2, if_pos rfl]
        rfl
      · show get config (s.putShard _ shard after left) other = _
        rw [hget]
        split
        next hindex => rw [hattempted.2, if_neg hother, hsame other hindex]
        next => rfl
    · cases hnext
      refine ⟨.returned (Finmap.lookup_erase _ _) ?_ fun other _ => ?_, hothers⟩
      · show (get config (s.putShard _ after after left) call.key).isSome
        rw [hget, if_pos rfl]
        exact hattempted.1
      · show get config (s.putShard _ after after left) other = _
        rw [hget]
        split
        next hindex => exact (hsame other hindex).symm
        next => rfl
    · cases hnext
      obtain ⟨habsent, evicted, hsome, hlost⟩ := hattempted
      have hindex := h.routed _ shard evicted hshard hsome
      refine ⟨.evicted evicted after htask ?_ hfull hindex ?_ (Finmap.lookup_insert _)
        ((h.books.sound _ shard hshard).length_of_lost hsound hsome hlost) fun other => ?_, hothers⟩
      · rw [hsame _ rfl, habsent]
      · rwa [hsame evicted hindex]
      · rw [hget]
        split
        next hother => rw [hlost, hsame other hother]
        next hother =>
          have hne : other ≠ evicted := fun heq => hother (heq ▸ hindex)
          rw [if_neg hne]

/-- The attempts of an insertion, one after the other. -/
def attempts (task : Nat) (scores : Nat → κ → Nat → Int) (count : Nat) : List (MemoryAction κ) :=
  (List.range count).map fun turn => .tryInsert task (scores turn)

omit [LinearOrder κ] in
/-- The first of the attempts comes before the others. -/
theorem attempts_succ (task : Nat) (scores : Nat → κ → Nat → Int) (count : Nat) :
    attempts task scores (count + 1) =
      .tryInsert task (scores 0) :: attempts task (fun turn => scores (turn + 1)) count := by
  simp [attempts, List.range_succ_eq_map]

/-- An insertion that runs alone evicts the listed keys of its shard and returns with its key in the
cache, unless the charges that are present would reach 2^64. -/
structure InsertsAlone (config : MemoryCacheConfig κ) (s : MemoryCache κ) (task : Nat)
    (call : InsertCall κ) (shard : MemoryCacheShard κ) (evicted : List κ) (next : MemoryCache κ) :
    Prop where
  returned : next.inserts.lookup task = none ∧ (get config next call.key).isSome ∨
    wordSize ≤ next.charges + call.allocationCharge
  count : evicted.length ≤ shard.evictionCandidates.length
  own : ∀ key ∈ evicted, config.shardIndex key = config.shardIndex call.key ∧
    (get config s key).isSome
  kept : ∀ other, other ≠ call.key →
    get config next other = if other ∈ evicted then none else get config s other
  others : ∀ other ≠ config.shardIndex call.key, next.shards.lookup other = s.shards.lookup other
  fits : (get config s call.key).isSome ∨ shard.usedBytes ≤ shard.capacity - call.allocationCharge →
    evicted = []

/-- Every eviction takes a candidate away, so the attempts come to an end. -/
theorem insert_alone (h : Accounted config s) (htask : s.inserts.lookup task = some call)
    (hshard : s.shards.lookup (config.shardIndex call.key) = some shard)
    (scores : Nat → κ → Nat → Int) :
    ∃ evicted next, run (step config) s (attempts task scores (evicted.length + 1)) = .ok next ∧
      InsertsAlone config s task call shard evicted next := by
  -- The induction is on the number of candidates, with the state of the cache after each eviction.
  induction hcount : shard.evictionCandidates.length using Nat.strong_induction_on
    generalizing s shard scores with
  | _ count ih =>
    obtain ⟨middle, hmiddle, haccounted, hattempt, hothers⟩ :=
      (try_insert_attempt h htask hshard (scores 0)).exists_ok
    have hfirst : step config s (.tryInsert task (scores 0)) = .ok middle := hmiddle
    cases hattempt with
    | returned hreturned hkey hget =>
        refine ⟨[], middle, ?_, .inl ⟨hreturned, hkey⟩, Nat.zero_le _, by simp, ?_, hothers,
          fun _ => rfl⟩
        · rw [List.length_nil, attempts_succ, run, hfirst]
          rfl
        · simpa using hget
    | overflow hsame hword =>
        refine ⟨[], middle, ?_, .inr (hsame ▸ hword), Nat.zero_le _, by simp, ?_, hothers,
          fun _ => rfl⟩
        · rw [List.length_nil, attempts_succ, run, hfirst]
          rfl
        · simp [hsame]
    | evicted key rest hcall habsent hfull hkey hsome hrest hlength hget =>
        obtain ⟨evicted, next, hrun, hnext⟩ :=
          ih rest.evictionCandidates.length (by omega) haccounted
          hcall hrest (fun turn => scores (turn + 1)) rfl
        refine ⟨key :: evicted, next, ?_, hnext.returned, ?_, ?_, fun other hother => ?_,
          fun other hother => ?_, fun hfits => ?_⟩
        · rw [List.length_cons, attempts_succ, run, hfirst]
          exact hrun
        · have hle := hnext.count
          rw [List.length_cons]
          omega
        · intro other hother
          rcases List.mem_cons.mp hother with rfl | hother
          · exact ⟨hkey, hsome⟩
          · obtain ⟨hindex, hleft⟩ := hnext.own other hother
            rw [hget] at hleft
            split at hleft
            next => cases hleft
            next => exact ⟨hindex, hleft⟩
        · rw [hnext.kept other hother, hget]
          by_cases hfirst : other = key
          · simp [hfirst]
          · simp [hfirst]
        · rw [hnext.others other hother, hothers other hother]
        · rcases hfits with hpresent | hroom
          · simp [habsent] at hpresent
          · omega

/-! ## The result -/

/-- In every state that an interleaving of attempts, removals, lookups, buffer use and shard drops
reaches, a shard keeps to its share or at most one of its entries is charged. The shares add up to
the capacity, so that insertions that fit their shards keep the charged and the idle bytes within
it. An insertion that runs alone returns after at most one eviction for each entry of its shard, as
long as the charges stay below 2^64. -/
theorem run_soft_capacity (config : MemoryCacheConfig κ) (actions : List (MemoryAction κ)) :
    ∃ s, run (step config) (new config) actions = .ok s ∧
      (∀ index shard, s.shards.lookup index = some shard →
        shard.capacity = config.share index ∧
          (shard.usedBytes ≤ config.share index ∨ shard.SoleCharge)) ∧
      ((List.range config.shardCount).map config.share).sum = config.capacity ∧
      ((∀ action ∈ actions, action.Fits config) →
        s.usage.buffers.pool.usedBytes + s.usage.buffers.pool.idleBytes ≤ config.capacity) ∧
      ∀ task call, s.inserts.lookup task = some call → ∀ scores : Nat → κ → Nat → Int,
        ∃ shard evicted next, s.shards.lookup (config.shardIndex call.key) = some shard ∧
          run (step config) s (attempts task scores (evicted.length + 1)) = .ok next ∧
          InsertsAlone config s task call shard evicted next := by
  have hstep : ∀ (s : MemoryCache κ) action, Accounted config s ∧ Capped config s →
      Outcome (fun _ => False) (fun next => Accounted config next ∧ Capped config next)
        (step config s action) := by
    rintro s action ⟨haccounted, hcapped⟩
    obtain ⟨next, hnext, hafter, -⟩ := (step_accounted haccounted action).exists_ok
    rw [hnext]
    exact ⟨hafter, hcapped.step haccounted (step_change hnext)⟩
  have houtcome : Outcome (fun _ => False) (fun s => Accounted config s ∧ Capped config s)
      (run (step config) (new config) actions) :=
    run_outcome (fun _ => True) (fun s action h _ => hstep s action h)
      ⟨Accounted.new config, Capped.new config⟩ fun _ _ => trivial
  obtain ⟨s, hrun, haccounted, hcapped⟩ := houtcome.exists_ok
  refine ⟨s, hrun, fun index shard hshard => ?_, sum_shares _ config.shardCount_pos,
    fun hfits => ?_, fun task call htask scores => ?_⟩
  · obtain ⟨-, hshare, hbounded⟩ := hcapped.shares index shard hshard
    exact ⟨hshare, hshare ▸ hbounded⟩
  · have hfitting :=
      run_invariant (fun s => (Accounted config s ∧ Capped config s) ∧ Fitting config s)
      (MemoryAction.Fits config) (fun s action next h haction hnext =>
        ⟨(hstep s action h.1).of_ok hnext,
          h.2.step h.1.2 (step_change hnext) haction⟩)
      ⟨⟨Accounted.new config, Capped.new config⟩, Fitting.new config⟩ hfits hrun
    exact hfitting.2.total_le hcapped haccounted
  · have hindex : config.shardIndex call.key < config.shardCount :=
      Nat.mod_lt _ config.shardCount_pos
    obtain ⟨shard, hshard⟩ := Option.isSome_iff_exists.mp
      (hcapped.complete (haccounted.running task call htask) _ hindex)
    obtain ⟨evicted, next, hattempts, halone⟩ := insert_alone haccounted htask hshard scores
    exact ⟨shard, evicted, next, hshard, hattempts, halone⟩

/-- Two shards with a share of one byte each. Keys are their own hashes. -/
def twoShards : MemoryCacheConfig Nat where
  capacity := 2
  shardCount := 2
  shardCount_pos := by decide
  hash := id
  reclaimSampleSize := 1
  reclaimSampleSize_pos := by decide

/-- An object charged all but one byte of 2^64 fits its empty shard. The next insertion runs alone,
its own shard is empty too, and the pool's counter overflows after the shard's has grown. -/
theorem insert_alone_overflows :
    ∃ s shard, run (step twoShards) (new twoShards)
        [.insert 0 0 [] (wordSize - 1), .tryInsert 0 fun _ _ => 0, .insert 1 1 [7] 1] = .ok s ∧
      s.inserts.lookup 1 = some ⟨1, [7], 1⟩ ∧
      s.shards.lookup (twoShards.shardIndex 1) = some shard ∧
      shard.usedBytes ≤ shard.capacity - 1 ∧
      shard.tryInsert s.usage (twoShards.shardIndex 1) 1 [7] 1 twoShards.reclaimSampleSize
        (fun _ _ => 0) = .error .overflow := by
  exact ⟨_, _, rfl, rfl, rfl, by decide, rfl⟩

end MemoryCache

end Feuer.Memory
