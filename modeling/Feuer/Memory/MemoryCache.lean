import Feuer.Memory.MemoryCacheShard

/-!
# The sharded memory cache

`MemoryCache`, after `store.rs`: shards with their own locks over one buffer pool. An insertion
releases the shard's lock between its attempts, so a call is a task that may attempt many times
while other threads act. A run is any interleaving of the attempts with lookups, removals, the use
of the buffer pool, and the drop of the shards.

`MemoryCache.run_keeps_accounts` says that no run panics and that the accounts of the shards and of
the pool agree in every state. The log of the cache records what callers see of each key.
-/

namespace Feuer.Memory

open Lib

/-- What a cache is built from. -/
structure MemoryCacheConfig (κ : Type) where
  capacity : Nat
  shardCount : Nat
  shardCount_pos : 0 < shardCount
  /-- The hash that selects a shard. -/
  hash : κ → Nat
  reclaimSampleSize : Nat
  reclaimSampleSize_pos : 0 < reclaimSampleSize

def shardCapacityFor (totalCapacity shardCount shardIndex : Nat) : Nat :=
  totalCapacity / shardCount + if shardIndex < totalCapacity % shardCount then 1 else 0

/-- Selects this process's in-memory shard for an object. -/
def MemoryCacheConfig.shardIndex {κ : Type} (config : MemoryCacheConfig κ) (key : κ) : Nat :=
  config.hash key % config.shardCount

/-- A running call of `insert`. -/
structure InsertCall (κ : Type) where
  key : κ
  bytes : List UInt8
  allocationCharge : Nat

/-- What callers and evictions do to a key. -/
inductive MemoryEvent (κ : Type) where
  /-- An insertion returned true. -/
  | inserted (key : κ) (bytes : List UInt8)
  /-- The key left its shard, by a removal or an eviction. -/
  | removed (key : κ)
  /-- A lookup returned this. -/
  | served (key : κ) (found : Option (List UInt8))

/-- The cache, its running insertions, and what happened so far, the latest event first. -/
structure MemoryCache (κ : Type) where
  usage : SharedUsage
  shards : FiniteMap Nat (MemoryCacheShard κ)
  /-- Whether the cache has an owner. -/
  alive : Bool
  inserts : FiniteMap Nat (InsertCall κ)
  log : List (MemoryEvent κ)

/-- An atomic step of a caller. -/
inductive MemoryAction (κ : Type) where
  | get (key : κ)
  | insert (task : Nat) (key : κ) (bytes : List UInt8) (allocationCharge : Nat)
  /-- One attempt of a running insertion, with the scores of that moment. -/
  | tryInsert (task : Nat) (score : κ → Nat → Int)
  | remove (key : κ)
  | dropShard (shardIndex : Nat)
  | useBuffers (action : PoolAction)

namespace MemoryCache

variable {κ : Type} [LinearOrder κ]

/-- The first `count` shards of a cache. -/
def newShards (config : MemoryCacheConfig κ) : Nat → FiniteMap Nat (MemoryCacheShard κ)
  | 0 => ∅
  | count + 1 => (newShards config count).insert count
      (.new (shardCapacityFor config.capacity config.shardCount count))

/-- A new cache. -/
def new (config : MemoryCacheConfig κ) : MemoryCache κ where
  usage := ⟨.start config.capacity, 0⟩
  shards := newShards config config.shardCount
  alive := true
  inserts := ∅
  log := []

/-- The allocation charges of all entries. -/
def charges (s : MemoryCache κ) : Nat := s.shards.tally fun _ shard => shard.charges

/-- The keys that a shard lost. -/
def lostKeys (shard after : MemoryCacheShard κ) : List κ :=
  shard.evictionCandidates.filter fun key => (after.entriesByKey.lookup key).isNone

/-- Stores a changed shard and logs the keys that it lost. -/
def putShard (s : MemoryCache κ) (index : Nat) (shard after : MemoryCacheShard κ)
    (usage : SharedUsage) : MemoryCache κ :=
  { s with
    usage
    shards := s.shards.insert index after
    log := (lostKeys shard after).map .removed ++ s.log }

def get (config : MemoryCacheConfig κ) (s : MemoryCache κ) (key : κ) : Option (List UInt8) :=
  (s.shards.lookup (config.shardIndex key)).bind fun shard => shard.get key

/-- The call that `insert` begins. The assertion stops a caller whose charge is too small. -/
def insert (s : MemoryCache κ) (task : Nat) (key : κ) (bytes : List UInt8)
    (allocationCharge : Nat) :
    MemoryCache κ :=
  if s.alive ∧ bytes.length ≤ allocationCharge ∧ s.inserts.lookup task = none then
    { s with inserts := s.inserts.insert task ⟨key, bytes, allocationCharge⟩ }
  else s

/-- Whether an insertion would bring the charges that are present to 2^64. -/
def Overflows (s : MemoryCache κ) (shard : MemoryCacheShard κ) (call : InsertCall κ) : Prop :=
  shard.entriesByKey.lookup call.key = none ∧
    shard.usedBytes ≤ shard.capacity - call.allocationCharge ∧
    wordSize ≤ s.charges + call.allocationCharge

instance (s : MemoryCache κ) (shard : MemoryCacheShard κ) (call : InsertCall κ) :
    Decidable (s.Overflows shard call) := inferInstanceAs (Decidable (_ ∧ _ ∧ _))

/-- One turn of the loop of `insert`. The charges present stay below 2^64. -/
def tryInsert (config : MemoryCacheConfig κ) (s : MemoryCache κ) (task : Nat)
    (score : κ → Nat → Int) : Except Panic (MemoryCache κ) :=
  match s.inserts.lookup task with
  | none => pure s
  | some call =>
      let index := config.shardIndex call.key
      match s.shards.lookup index with
      | none => pure s
      | some shard =>
          if s.Overflows shard call then pure s
          else do
            let (result, after, usage) ← shard.tryInsert s.usage index call.key call.bytes
              call.allocationCharge config.reclaimSampleSize score
            let s := s.putShard index shard after usage
            match result with
            | .inserted =>
                pure { s with
                  inserts := s.inserts.erase task
                  log := .inserted call.key call.bytes :: s.log }
            | .alreadyPresent => pure { s with inserts := s.inserts.erase task }
            | .evictedButDidNotInsert => pure s

/-- Removes the entry for the supplied object key. -/
def remove (config : MemoryCacheConfig κ) (s : MemoryCache κ) (key : κ) :
    Except Panic (MemoryCache κ) :=
  let index := config.shardIndex key
  match s.shards.lookup index with
  | none => pure s
  | some shard => do
      let (_, after, usage) ← shard.removeEntry s.usage index key
      pure (s.putShard index shard after usage)

/-- Drops a shard of a cache that no caller uses any more. -/
def dropShard (s : MemoryCache κ) (index : Nat) : Except Panic (MemoryCache κ) :=
  match s.shards.lookup index with
  | none => pure s
  | some shard =>
      if s.inserts.keys = ∅ then do
        let usage ← shard.drop s.usage index
        pure { s with usage, shards := s.shards.erase index, alive := false }
      else pure s

/-- Performs one action; an action that no thread can perform changes nothing. -/
def step (config : MemoryCacheConfig κ) (s : MemoryCache κ) :
    MemoryAction κ → Except Panic (MemoryCache κ)
  | .get key =>
      pure (if s.alive then { s with log := .served key (get config s key) :: s.log } else s)
  | .insert task key bytes allocationCharge => pure (s.insert task key bytes allocationCharge)
  | .tryInsert task score => tryInsert config s task score
  | .remove key => if s.alive then remove config s key else pure s
  | .dropShard index => s.dropShard index
  | .useBuffers action =>
      if action.onBuffers then do
        let buffers ← s.usage.buffers.step action
        pure { s with usage := { s.usage with buffers } }
      else pure s

/-! ## The log -/

/-- The bytes that the last event about a key leaves. -/
def contents (key : κ) : List (MemoryEvent κ) → Option (List UInt8)
  | [] => none
  | .inserted other bytes :: earlier => if key = other then some bytes else contents key earlier
  | .removed other :: earlier => if key = other then none else contents key earlier
  | .served _ _ :: earlier => contents key earlier

/-- Only absent keys were inserted, and lookups returned what was inserted last and not removed. -/
def Exclusive : List (MemoryEvent κ) → Prop
  | [] => True
  | .inserted key _ :: earlier => contents key earlier = none ∧ Exclusive earlier
  | .removed _ :: earlier => Exclusive earlier
  | .served key found :: earlier => found = contents key earlier ∧ Exclusive earlier

/-- Removals take their keys out of the contents. -/
theorem contents_removed (key : κ) (lost : List κ) (log : List (MemoryEvent κ)) :
    contents key (lost.map .removed ++ log) = if key ∈ lost then none else contents key log := by
  induction lost with
  | nil => simp
  | cons first rest ih =>
      simp only [List.map_cons, List.cons_append, contents, ih, List.mem_cons]
      split
      next heq => simp [heq]
      next hne => simp [hne]

/-- Removals do not make a key present twice. -/
theorem exclusive_removed (lost : List κ) {log : List (MemoryEvent κ)} (h : Exclusive log) :
    Exclusive (lost.map .removed ++ log) := by
  induction lost with
  | nil => exact h
  | cons first rest ih => exact ih

/-- A key with bytes in the log was inserted, and not removed since. -/
theorem removed_between {key : κ} {middle earlier : List (MemoryEvent κ)} {bytes : List UInt8}
    (h : contents key (middle ++ .inserted key bytes :: earlier) = none) :
    .removed key ∈ middle := by
  induction middle with
  | nil => simp [contents] at h
  | cons event rest ih =>
      cases event with
      | inserted other inserted =>
          simp only [List.cons_append, contents] at h
          split at h
          next => cases h
          next => exact List.mem_cons_of_mem _ (ih h)
      | removed other =>
          simp only [List.cons_append, contents] at h
          split at h
          next heq => simp [heq]
          next => exact List.mem_cons_of_mem _ (ih h)
      | served other found => exact List.mem_cons_of_mem _ (ih h)

/-- Between two insertions of a key that returned true, the key was removed. -/
theorem Exclusive.removed_mem {key : κ} {recent middle earlier : List (MemoryEvent κ)}
    {first second : List UInt8}
    (h : Exclusive (recent ++ .inserted key second :: (middle ++ .inserted key first :: earlier))) :
    .removed key ∈ middle := by
  induction recent with
  | nil => exact removed_between h.1
  | cons event rest ih =>
      cases event with
      | inserted other bytes => exact ih h.2
      | removed other => exact ih h
      | served other found => exact ih h.2

/-- A lookup returned the bytes that were inserted last, unless the key was removed since. -/
theorem Exclusive.served_eq {key : κ} {found : Option (List UInt8)}
    {recent earlier : List (MemoryEvent κ)}
    (h : Exclusive (recent ++ .served key found :: earlier)) : found = contents key earlier := by
  induction recent with
  | nil => exact h.1
  | cons event rest ih =>
      cases event with
      | inserted other bytes => exact ih h.2
      | removed other => exact ih h
      | served other other' => exact ih h.2

/-! ## The accounts -/

/-- The shards are sound, and the shared usage is the sum of what they own. -/
structure Books (capacity : Nat) (usage : SharedUsage)
    (shards : FiniteMap Nat (MemoryCacheShard κ)) : Prop where
  settled : usage.Settled capacity
  sound : ∀ index shard, shards.lookup index = some shard → shard.Sound
  balance : ∀ index shard, shards.lookup index = some shard →
    usage.buffers.balance index = shard.usedBytes
  pool : usage.buffers.pool.usedBytes = shards.tally fun _ shard => shard.usedBytes
  entries : usage.entries = shards.tally fun _ shard => shard.evictionCandidates.length

/-- The accounts of the cache, and what its callers were told. -/
structure Accounted (config : MemoryCacheConfig κ) (s : MemoryCache κ) : Prop where
  books : Books config.capacity s.usage s.shards
  routed : ∀ index shard key, s.shards.lookup index = some shard → (shard.get key).isSome →
    config.shardIndex key = index
  contents : s.alive → ∀ key, get config s key = contents key s.log
  exclusive : Exclusive s.log
  running : ∀ task call, s.inserts.lookup task = some call → s.alive = true

variable {config : MemoryCacheConfig κ} {s : MemoryCache κ} {usage : SharedUsage}
  {shards : FiniteMap Nat (MemoryCacheShard κ)} {capacity index : Nat} {shard : MemoryCacheShard κ}

/-- The books of the cache hold for each shard. -/
theorem Books.owns (h : Books capacity usage shards) (hshard : shards.lookup index = some shard) :
    shard.Owns usage index where
  bytes := h.balance index shard hshard
  entries := by
    rw [h.entries]
    exact FiniteMap.le_tally (fun _ shard => shard.evictionCandidates.length) hshard

/-- The used bytes of a shard are part of those of the pool. -/
theorem Books.used_le (h : Books capacity usage shards)
    (hshard : shards.lookup index = some shard) :
    shard.usedBytes ≤ usage.buffers.pool.usedBytes := by
  rw [h.pool]
  exact FiniteMap.le_tally (fun _ shard => shard.usedBytes) hshard

/-- Replacing a shard, with the shared usage following it, keeps the books. -/
theorem Books.replace {after : MemoryCacheShard κ} {left : SharedUsage}
    (h : Books capacity usage shards)
    (hshard : shards.lookup index = some shard) (hsound : after.Sound)
    (hsettled : left.Settled capacity) (hfollows : shard.Follows usage index after left) :
    Books capacity left (shards.insert index after) where
  settled := hsettled
  sound other found hfound := by
    rw [FiniteMap.lookup_insert_eq] at hfound
    split at hfound
    next =>
      cases hfound
      exact hsound
    next => exact h.sound other found hfound
  balance other found hfound := by
    have howner := hfollows.balance
    have hbefore := h.balance index shard hshard
    rw [FiniteMap.lookup_insert_eq] at hfound
    split at hfound
    next heq =>
      cases hfound
      rw [heq]
      omega
    next hne =>
      rw [hfollows.others other hne]
      exact h.balance other found hfound
  pool := by
    have hreplace := FiniteMap.tally_replace (fun _ shard => shard.usedBytes) after hshard
    have hbefore := h.pool
    have hpool := hfollows.pool
    omega
  entries := by
    have hreplace := FiniteMap.tally_replace
      (fun _ shard => shard.evictionCandidates.length) after hshard
    have hbefore := h.entries
    have hentries := hfollows.entries
    omega

/-- The charges that are present are the used bytes of the pool. -/
theorem Books.charges_eq (h : Books capacity s.usage s.shards) :
    s.charges = s.usage.buffers.pool.usedBytes := by
  rw [h.pool, charges]
  exact FiniteMap.tally_congr fun index shard hshard => (h.sound index shard hshard).used.symm

/-- The keys that a shard lost are those that it had and has no longer. -/
theorem mem_lost_keys (after : MemoryCacheShard κ) (h : shard.Sound) (key : κ) :
    key ∈ lostKeys shard after ↔ (shard.get key).isSome ∧ after.get key = none := by
  simp [lostKeys, MemoryCacheShard.get, h.ranked.mem_iff, Option.isNone_iff_eq_none]

/-- A lookup after a changed shard is stored. -/
theorem get_put_shard {after : MemoryCacheShard κ} {left : SharedUsage} (key : κ) :
    get config (s.putShard index shard after left) key =
      if config.shardIndex key = index then after.get key else get config s key := by
  simp only [get, putShard, FiniteMap.lookup_insert_eq]
  split <;> rfl

/-- The log after a changed shard is stored holds what was there and is not lost. -/
theorem contents_put_shard {after : MemoryCacheShard κ} {left : SharedUsage}
    (h : Accounted config s) (halive : s.alive = true)
    (hshard : s.shards.lookup index = some shard) (key : κ) :
    contents key (s.putShard index shard after left).log =
      if config.shardIndex key = index ∧ after.get key = none then none else get config s key := by
  have hlost := mem_lost_keys after (h.books.sound index shard hshard) key
  rw [putShard, contents_removed, ← h.contents halive key]
  by_cases hkey : (shard.get key).isSome
  · have hindex := h.routed index shard key hshard hkey
    simp only [hlost, hkey, hindex, true_and]
  · rw [if_neg (fun hmem => hkey (hlost.mp hmem).1)]
    split
    next hmine =>
      rw [get, hmine.1, hshard]
      simpa using hkey
    next => rfl

/-- A step replaces no bytes: a key that it leaves in the cache keeps them. -/
def Keeps (config : MemoryCacheConfig κ) (s next : MemoryCache κ) : Prop :=
  ∀ key old new, get config s key = some old → get config next key = some new → new = old

/-- A cache replaces no bytes of its own. -/
theorem Keeps.refl (s : MemoryCache κ) : Keeps config s s := by
  intro key old new hold hnew
  rw [hold, Option.some.injEq] at hnew
  exact hnew.symm

/-- The books and the routes after a changed shard is stored. -/
theorem put_shard_routed (shard : MemoryCacheShard κ) {after : MemoryCacheShard κ}
    (left : SharedUsage) (h : Accounted config s)
    (hnew : ∀ key, (after.get key).isSome → config.shardIndex key = index) (other : Nat)
    (found : MemoryCacheShard κ) (key : κ)
    (hfound : (s.putShard index shard after left).shards.lookup other = some found)
    (hkey : (found.get key).isSome) : config.shardIndex key = other := by
  rw [putShard, FiniteMap.lookup_insert_eq] at hfound
  split at hfound
  next heq =>
    cases hfound
    rw [heq]
    exact hnew key hkey
  next => exact h.routed other found key hfound hkey

/-- A shard that only lost objects. -/
theorem put_shard_accounted {after : MemoryCacheShard κ} {left : SharedUsage}
    (h : Accounted config s) (hshard : s.shards.lookup index = some shard) (hsound : after.Sound)
    (hsettled : left.Settled config.capacity) (hfollows : shard.Follows s.usage index after left)
    (hget : ∀ key, after.get key = none ∨ after.get key = shard.get key) :
    Accounted config (s.putShard index shard after left) ∧
      Keeps config s (s.putShard index shard after left) := by
  have hsame : ∀ key, config.shardIndex key = index → get config s key = shard.get key := by
    intro key hindex
    rw [get, hindex, hshard]
    rfl
  refine ⟨⟨h.books.replace hshard hsound hsettled hfollows,
    put_shard_routed shard left h fun key hkey => ?_, fun halive key => ?_,
    exclusive_removed _ h.exclusive,
    h.running⟩, ?_⟩
  · rcases hget key with hnone | heq
    · simp [hnone] at hkey
    · exact h.routed index shard key hshard (heq ▸ hkey)
  · rw [get_put_shard, contents_put_shard h halive hshard]
    by_cases hindex : config.shardIndex key = index
    · rcases hget key with hnone | heq
      · simp [hindex, hnone]
      · rw [if_pos hindex, hsame key hindex, heq]
        split
        next hmine => exact hmine.2
        next => rfl
    · simp [hindex]
  · intro key old new hold hnew
    rw [get_put_shard] at hnew
    split at hnew
    next hindex =>
      rw [hsame key hindex] at hold
      rcases hget key with hnone | heq
      · simp [hnone] at hnew
      · rw [heq, hold, Option.some.injEq] at hnew
        exact hnew.symm
    next =>
      rw [hold, Option.some.injEq] at hnew
      exact hnew.symm

/-- A shard that gained an object that it did not have. -/
theorem inserted_accounted {after : MemoryCacheShard κ} {left : SharedUsage} {key : κ}
    {bytes : List UInt8} (h : Accounted config s) (halive : s.alive = true)
    (hshard : s.shards.lookup (config.shardIndex key) = some shard) (hsound : after.Sound)
    (hsettled : left.Settled config.capacity)
    (hfollows : shard.Follows s.usage (config.shardIndex key) after left)
    (habsent : shard.get key = none)
    (hget : ∀ other, after.get other = if other = key then some bytes else shard.get other)
    (inserts : FiniteMap Nat (InsertCall κ)) :
    let put := s.putShard (config.shardIndex key) shard after left
    let next := { put with inserts, log := .inserted key bytes :: put.log }
    Accounted config next ∧ Keeps config s next := by
  have hnone : get config s key = none := by rw [get, hshard]; exact habsent
  have hlookup : ∀ other, get config (s.putShard (config.shardIndex key) shard after left) other =
      if other = key then some bytes else get config s other := by
    intro other
    rw [get_put_shard]
    by_cases hindex : config.shardIndex other = config.shardIndex key
    · rw [if_pos hindex, hget, get, hindex, hshard]
      rfl
    · have hne : other ≠ key := fun heq => hindex (heq ▸ rfl)
      rw [if_neg hindex, if_neg hne]
  intro put next
  refine ⟨⟨h.books.replace hshard hsound hsettled hfollows,
    put_shard_routed shard left h fun other hother => ?_, fun _ other => ?_,
    ⟨?_, exclusive_removed _ h.exclusive⟩, fun _ _ _ => halive⟩, ?_⟩
  · rw [hget] at hother
    split at hother
    next heq => rw [heq]
    next => exact h.routed _ shard other hshard hother
  · show get config put other = contents other (.inserted key bytes :: put.log)
    rw [hlookup other, contents]
    split
    next => rfl
    next hne =>
      -- The other objects of the shard are not lost.
      rw [contents_put_shard h halive hshard]
      split
      next hmine =>
        rw [hget, if_neg hne] at hmine
        rw [get, hmine.1, hshard]
        exact hmine.2
      next => rfl
  · rw [contents_put_shard h halive hshard, hnone]
    split <;> rfl
  · intro other old new hold hnew
    have hlook := hlookup other
    split at hlook
    next heq =>
      rw [heq, hnone] at hold
      cases hold
    next =>
      have hnext : get config put other = some new := hnew
      rw [hlook, hold, Option.some.injEq] at hnext
      exact hnext.symm

/-! ## Steps -/

/-- An attempt on a shard of the cache that does not bring the charges to 2^64. -/
theorem Accounted.attempt_spec {call : InsertCall κ} (h : Accounted config s)
    (hshard : s.shards.lookup index = some shard) (hfits : ¬ s.Overflows shard call)
    (score : κ → Nat → Int) :
    Outcome (fun _ => False) (fun result : InsertResult × MemoryCacheShard κ × SharedUsage =>
      result.2.1.Sound ∧ result.2.2.Settled config.capacity ∧
        shard.Follows s.usage index result.2.1 result.2.2 ∧
      shard.Attempted call.key call.bytes result.2.1 result.1)
      (shard.tryInsert s.usage index call.key call.bytes call.allocationCharge
        config.reclaimSampleSize score) := by
  refine MemoryCacheShard.try_insert_spec (h.books.sound _ shard hshard) h.books.settled
    (h.books.owns hshard) config.reclaimSampleSize_pos (h.books.used_le hshard) ?_ score
  intro habsent hroom
  rw [← h.books.charges_eq]
  by_contra hlarge
  exact hfits ⟨habsent, hroom, Nat.not_lt.mp hlarge⟩

/-- An attempt to insert keeps the accounts. -/
theorem try_insert_accounted (h : Accounted config s) (task : Nat) (score : κ → Nat → Int) :
    Outcome (fun _ => False) (fun next => Accounted config next ∧ Keeps config s next)
      (tryInsert config s task score) := by
  unfold tryInsert
  split
  next => exact ⟨h, .refl s⟩
  next call htask =>
    have halive := h.running task call htask
    dsimp only
    split
    next => exact ⟨h, .refl s⟩
    next shard hshard =>
      split
      next => exact ⟨h, .refl s⟩
      next hfits =>
        refine (h.attempt_spec hshard hfits score).bind ?_
        rintro ⟨result, after, left⟩ ⟨hsound, hsettled, hfollows, hattempted⟩
        cases result with
        | inserted =>
            exact inserted_accounted h halive hshard hsound hsettled hfollows hattempted.1
              hattempted.2 _
        | alreadyPresent =>
            obtain ⟨hput, hkeeps⟩ := put_shard_accounted h hshard hsound hsettled hfollows
              fun key => .inr (hattempted.2 key)
            exact ⟨⟨hput.books, hput.routed, hput.contents, hput.exclusive, fun _ _ _ => halive⟩,
              hkeeps⟩
        | evictedButDidNotInsert =>
            obtain ⟨-, evicted, -, hget⟩ := hattempted
            refine put_shard_accounted h hshard hsound hsettled hfollows fun key => ?_
            by_cases hkey : key = evicted
            · exact .inl ((hget key).trans (if_pos hkey))
            · exact .inr ((hget key).trans (if_neg hkey))

/-- A removal keeps the accounts. -/
theorem remove_accounted (h : Accounted config s) (key : κ) :
    Outcome (fun _ => False) (fun next => Accounted config next ∧ Keeps config s next)
      (remove config s key) := by
  unfold remove
  dsimp only
  split
  next => exact ⟨h, .refl s⟩
  next shard hshard =>
    refine (MemoryCacheShard.remove_entry_spec (h.books.sound _ shard hshard) h.books.settled
      (h.books.owns hshard) key).bind ?_
    rintro ⟨removed, after, left⟩ ⟨-, hsound, hsettled, hfollows, hget⟩
    refine put_shard_accounted h hshard hsound hsettled hfollows fun other => ?_
    by_cases hother : other = key
    · exact .inl ((hget other).trans (if_pos hother))
    · exact .inr ((hget other).trans (if_neg hother))

/-- The drop of a shard takes all its entries off the accounts. -/
theorem drop_shard_accounted (h : Accounted config s) (index : Nat) :
    Outcome (fun _ => False) (fun next => Accounted config next ∧ Keeps config s next)
      (s.dropShard index) := by
  unfold dropShard
  split
  next => exact ⟨h, .refl s⟩
  next shard hshard =>
    split
    next hidle =>
      have howns := h.books.owns hshard
      refine (SharedUsage.remove_spec h.books.settled howns.bytes.ge howns.entries).bind ?_
      rintro left ⟨hsettled, hpool, hbalance, hentries⟩
      refine ⟨⟨⟨hsettled, fun other found hfound => ?_, fun other found hfound => ?_, ?_, ?_⟩,
        fun other found key hfound => ?_, (fun hdead => nomatch hdead), h.exclusive, ?_⟩, ?_⟩
      · exact h.books.sound other found (FiniteMap.lookup_erase_eq_some.mp hfound).2
      · obtain ⟨hne, hfound⟩ := FiniteMap.lookup_erase_eq_some.mp hfound
        have hsame := hbalance other
        rw [if_neg hne, Nat.add_zero] at hsame
        rw [← hsame]
        exact h.books.balance other found hfound
      · have herase := FiniteMap.tally_erase (fun _ shard => shard.usedBytes) hshard
        have hbefore := h.books.pool
        dsimp only
        omega
      · have herase := FiniteMap.tally_erase (fun _ shard => shard.evictionCandidates.length) hshard
        have hbefore := h.books.entries
        dsimp only
        omega
      · exact h.routed other found key (FiniteMap.lookup_erase_eq_some.mp hfound).2
      · intro task call htask
        have hmem : task ∈ s.inserts.keys :=
          Finmap.mem_keys.mpr (Finmap.mem_of_lookup_eq_some htask)
        simp [hidle] at hmem
      · intro key old new hold hnew
        simp only [get, FiniteMap.lookup_erase_eq] at hold hnew
        split at hnew
        next => cases hnew
        next =>
          rw [hold, Option.some.injEq] at hnew
          exact hnew.symm
    next => exact ⟨h, .refl s⟩

/-- Buffers that come and go do not touch the entries. -/
theorem use_buffers_accounted (h : Accounted config s) {action : PoolAction}
    (haction : action.onBuffers = true) :
    Outcome (fun _ => False) (fun next => Accounted config next ∧ Keeps config s next) (do
      let buffers ← s.usage.buffers.step action
      pure { s with usage := { s.usage with buffers } }) := by
  obtain ⟨buffers, hstep, hbudget⟩ :=
    (PoolState.step_budget h.books.settled.budget action).exists_ok
  obtain ⟨hbalances, hremoving⟩ := PoolState.step_on_buffers haction hstep
  -- The used bytes are the sum of the balances, before and after.
  have hused : buffers.pool.usedBytes = s.usage.buffers.pool.usedBytes := by
    rw [hbudget.charged, h.books.settled.budget.charged, PoolState.charged, hbalances,
      PoolState.charged]
  rw [hstep, ok_bind]
  refine ⟨⟨⟨⟨hbudget, hremoving.trans h.books.settled.removed⟩, h.books.sound, ?_,
    hused.trans h.books.pool, h.books.entries⟩, h.routed, h.contents, h.exclusive, h.running⟩,
    Keeps.refl s⟩
  intro other found hfound
  show PoolState.balance buffers other = _
  rw [PoolState.balance, hbalances]
  exact h.books.balance other found hfound

/-- Every action succeeds, keeps the accounts, and replaces no bytes. -/
theorem step_accounted (h : Accounted config s) (action : MemoryAction κ) :
    Outcome (fun _ => False) (fun next => Accounted config next ∧ Keeps config s next)
      (step config s action) := by
  cases action with
  | get key =>
      by_cases halive : s.alive = true
      · simp only [step, if_pos halive]
        exact ⟨⟨h.books, h.routed, h.contents, ⟨h.contents halive key, h.exclusive⟩, h.running⟩,
          Keeps.refl s⟩
      · simp only [step, if_neg halive]
        exact ⟨h, .refl s⟩
  | insert task key bytes charge =>
      simp only [step, insert]
      split
      next hguard =>
        exact ⟨⟨h.books, h.routed, h.contents, h.exclusive, fun _ _ _ => hguard.1⟩, Keeps.refl s⟩
      next => exact ⟨h, .refl s⟩
  | tryInsert task score => exact try_insert_accounted h task score
  | remove key =>
      simp only [step]
      split
      next => exact remove_accounted h key
      next => exact ⟨h, .refl s⟩
  | dropShard index => exact drop_shard_accounted h index
  | useBuffers action =>
      simp only [step]
      split
      next haction => exact use_buffers_accounted h haction
      next => exact ⟨h, .refl s⟩

/-! ## Runs -/

omit [LinearOrder κ] in
/-- The shards of a new cache are empty. -/
theorem new_shards_empty (config : MemoryCacheConfig κ) (count index : Nat)
    (shard : MemoryCacheShard κ) (hshard : (newShards config count).lookup index = some shard) :
    ∃ capacity, shard = .new capacity := by
  induction count with
  | zero => simp [newShards] at hshard
  | succ count ih =>
      rw [newShards, FiniteMap.lookup_insert_eq] at hshard
      split at hshard
      next =>
        cases hshard
        exact ⟨_, rfl⟩
      next => exact ih hshard

/-- An empty cache is accounted for. -/
theorem Accounted.new (config : MemoryCacheConfig κ) : Accounted config (new config) := by
  have hempty := new_shards_empty config config.shardCount
  refine ⟨⟨⟨.start _, rfl⟩, fun index shard hshard => ?_, fun index shard hshard => ?_, ?_, ?_⟩,
    fun index shard key hshard hkey => ?_, fun _ key => ?_, trivial, by simp [MemoryCache.new]⟩
  · obtain ⟨capacity, rfl⟩ := hempty index shard hshard
    exact .new capacity
  · obtain ⟨capacity, rfl⟩ := hempty index shard hshard
    rfl
  · refine (FiniteMap.tally_eq_zero fun index shard hshard => ?_).symm
    obtain ⟨capacity, rfl⟩ := hempty index shard hshard
    rfl
  · refine (FiniteMap.tally_eq_zero fun index shard hshard => ?_).symm
    obtain ⟨capacity, rfl⟩ := hempty index shard hshard
    rfl
  · obtain ⟨capacity, rfl⟩ := hempty index shard hshard
    simp [MemoryCacheShard.get, MemoryCacheShard.new] at hkey
  · show get config (MemoryCache.new config) key = none
    rw [get]
    cases hshard : (MemoryCache.new config).shards.lookup (config.shardIndex key) with
    | none => rfl
    | some shard =>
        obtain ⟨capacity, rfl⟩ := hempty _ shard hshard
        rfl

/-- The accounts of the shards and of the pool agree. -/
def InStep (s : MemoryCache κ) : Prop :=
  (∀ index shard, s.shards.lookup index = some shard →
    shard.evictionCandidates.Nodup ∧
    (∀ key, key ∈ shard.evictionCandidates ↔ (shard.entriesByKey.lookup key).isSome) ∧
    (∀ key entry, shard.entriesByKey.lookup key = some entry →
      shard.evictionCandidates[entry.candidateIndex]? = some key) ∧
    shard.usedBytes = shard.entriesByKey.tally fun _ entry => entry.allocationCharge) ∧
  s.usage.buffers.pool.usedBytes = (s.shards.tally fun _ shard => shard.usedBytes) ∧
  (s.shards = ∅ → s.usage.buffers.pool.usedBytes = 0)

/-- An accounted cache is in step. -/
theorem Accounted.in_step (h : Accounted config s) : s.InStep := by
  refine ⟨fun index shard hshard => ?_, h.books.pool, fun hdropped => ?_⟩
  · have hsound := h.books.sound index shard hshard
    exact ⟨hsound.ranked.nodup, hsound.ranked.mem_iff, hsound.ranked.position, hsound.used⟩
  · rw [h.books.pool, hdropped, FiniteMap.tally_empty]

/-- No interleaving of lookups, insertion attempts, removals, buffer use and shard drops panics. In
every state that it reaches the accounts agree, at most one insertion of a key returned true since
the key was removed, lookups returned what was inserted, and no step replaces the bytes of an entry
that it leaves in the cache. -/
theorem run_keeps_accounts (config : MemoryCacheConfig κ) (actions : List (MemoryAction κ)) :
    ∃ s, run (step config) (new config) actions = .ok s ∧ s.InStep ∧
      (∀ key recent middle earlier first second,
        s.log = recent ++ .inserted key second :: (middle ++ .inserted key first :: earlier) →
          .removed key ∈ middle) ∧
      (∀ recent earlier key found, s.log = recent ++ .served key found :: earlier →
        found = contents key earlier) ∧
      ∀ action next, step config s action = .ok next → Keeps config s next := by
  have houtcome : Outcome (fun _ => False) (Accounted config)
      (run (step config) (new config) actions) :=
    run_outcome (fun _ => True)
      (fun _ action h _ => (step_accounted h action).mono fun _ hnext => hnext.1)
      (Accounted.new config) fun _ _ => trivial
  obtain ⟨s, hrun, h⟩ := houtcome.exists_ok
  refine ⟨s, hrun, h.in_step, ?_, ?_, fun action next hnext => ?_⟩
  · intro key recent middle earlier first second hlog
    exact Exclusive.removed_mem (hlog ▸ h.exclusive)
  · intro recent earlier key found hlog
    exact Exclusive.served_eq (hlog ▸ h.exclusive)
  · exact ((step_accounted h action).of_ok hnext).2

end MemoryCache

end Feuer.Memory
