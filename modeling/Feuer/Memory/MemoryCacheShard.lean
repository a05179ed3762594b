import Feuer.Lib.RankedKeys
import Feuer.Memory.BufferPoolRuns
import Feuer.Memory.Retention
import Mathlib.Data.Prod.Lex

/-!
# A shard of the memory cache

`MemoryCacheShard`, after `store/shard.rs`: an object index, the list of keys that eviction samples,
and the sum of the allocation charges. Each operation runs under the shard's lock and is one atomic
step. The shards share the byte budget of the buffer pool and the gauge of the entry count.
`MemoryCacheShard.Sound` says that the list and the sum agree with the index. An operation on a
sound shard does not panic.
-/

namespace Feuer.Memory

open Lib

/-- An entry's bytes, allocation charge, and position in the eviction candidates. -/
structure MemoryEntry where
  bytes : List UInt8
  allocationCharge : Nat
  candidateIndex : Nat
  deriving DecidableEq, Repr

/-- The outcome of an insertion attempt. -/
inductive InsertResult where
  | inserted
  | alreadyPresent
  | evictedButDidNotInsert
  deriving DecidableEq, Repr

/-- A memory-cache shard's object index and allocation accounting. -/
structure MemoryCacheShard (κ : Type) where
  capacity : Nat
  usedBytes : Nat
  entriesByKey : FiniteMap κ MemoryEntry
  evictionCandidates : List κ
  nextSampleStart : Nat

/-- What the shards share: the buffer pool and the gauge of the entries. -/
structure SharedUsage where
  buffers : PoolState
  entries : Nat

namespace SharedUsage

/-- The usage after an entry of the shard `owner` is added. -/
def add (usage : SharedUsage) (owner bytes : Nat) : Except Panic SharedUsage := do
  let buffers ← usage.buffers.charge owner bytes
  pure ⟨buffers, usage.entries + 1⟩

/-- The usage after entries of the shard `owner` are removed. -/
def remove (usage : SharedUsage) (owner bytes count : Nat) : Except Panic SharedUsage := do
  let buffers ← usage.buffers.discharge owner bytes 0
  let buffers ← buffers.finishRemove 0
  let entries ← checkedSub .underflow usage.entries count
  pure ⟨buffers, entries⟩

/-- No removal of charged bytes is under way, and the pool keeps its budget. -/
structure Settled (capacity : Nat) (usage : SharedUsage) : Prop where
  budget : usage.buffers.Budget capacity
  removed : usage.buffers.removing = ∅

variable {capacity : Nat} {usage : SharedUsage}

/-- A charge is added to its owner, to the pool and to the number of entries. -/
theorem add_spec {owner bytes : Nat} (h : usage.Settled capacity)
    (hword : usage.buffers.pool.usedBytes + bytes < wordSize) :
    Outcome (fun _ => False) (fun after => after.Settled capacity ∧
      after.buffers.pool.usedBytes = usage.buffers.pool.usedBytes + bytes ∧
      (∀ other, after.buffers.balance other =
        usage.buffers.balance other + if other = owner then bytes else 0) ∧
      after.entries = usage.entries + 1) (usage.add owner bytes) := by
  refine (PoolState.charge_spec h.budget hword).bind ?_
  rintro buffers ⟨hbudget, hused, hbalance, hremoving⟩
  exact ⟨⟨hbudget, hremoving.trans h.removed⟩, hused, hbalance, rfl⟩

/-- A charge that its owner has can be taken off again. -/
theorem remove_spec {owner bytes count : Nat} (h : usage.Settled capacity)
    (hbytes : bytes ≤ usage.buffers.balance owner) (hcount : count ≤ usage.entries) :
    Outcome (fun _ => False) (fun after => after.Settled capacity ∧
      usage.buffers.pool.usedBytes = after.buffers.pool.usedBytes + bytes ∧
      (∀ other, usage.buffers.balance other =
        after.buffers.balance other + if other = owner then bytes else 0) ∧
      usage.entries = after.entries + count) (usage.remove owner bytes count) := by
  have htask : usage.buffers.removing.lookup 0 = none := by simp [h.removed]
  refine (PoolState.discharge_spec h.budget hbytes htask).bind ?_
  rintro middle ⟨hmiddle, hused, hbalance, hremoving⟩
  refine (PoolState.finish_remove_spec hmiddle 0).bind ?_
  rintro buffers ⟨hbudget, hbalances, hsame, hdone⟩
  rw [checked_sub_eq_ok hcount]
  refine ⟨⟨hbudget, ?_⟩, hsame.symm ▸ hused, fun other => ?_, (Nat.sub_add_cancel hcount).symm⟩
  · show buffers.removing = ∅
    rw [hdone, hremoving, h.removed]
    rfl
  · rw [hbalance other]
    simp only [PoolState.balance, hbalances]

end SharedUsage

namespace MemoryCacheShard

variable {κ : Type} [LinearOrder κ]

def new (capacity : Nat) : MemoryCacheShard κ := ⟨capacity, 0, ∅, [], 0⟩

def get (shard : MemoryCacheShard κ) (key : κ) : Option (List UInt8) :=
  (shard.entriesByKey.lookup key).map MemoryEntry.bytes

/-- Adds an object known not to be indexed. -/
def addEntry (shard : MemoryCacheShard κ) (usage : SharedUsage) (owner : Nat) (key : κ)
    (bytes : List UInt8) (allocationCharge : Nat) :
    Except Panic (MemoryCacheShard κ × SharedUsage) := do
  let usedBytes ← checkedAdd .overflow shard.usedBytes allocationCharge
  let usage ← usage.add owner allocationCharge
  let candidateIndex := shard.evictionCandidates.length
  pure ({ shard with
    usedBytes
    evictionCandidates := shard.evictionCandidates ++ [key]
    entriesByKey :=
      shard.entriesByKey.insert key ⟨bytes, allocationCharge, candidateIndex⟩ }, usage)

/-- Takes a key out of the eviction candidates. The last candidate moves into the gap. -/
def removeCandidate (candidates : List κ) (entries : FiniteMap κ MemoryEntry) (index : Nat) :
    Except Panic (List κ × FiniteMap κ MemoryEntry) := do
  if candidates.length ≤ index then throw .swapRemoveOutOfBounds
  let candidates := swapRemove candidates index
  match candidates[index]? with
  | none => pure (candidates, entries)
  | some key =>
      match entries.lookup key with
      | none => throw .candidateMissing
      | some entry => pure (candidates, entries.insert key { entry with candidateIndex := index })

/-- Removes an object if present, updating shard, buffer-pool, and metric usage. -/
def removeEntry (shard : MemoryCacheShard κ) (usage : SharedUsage) (owner : Nat) (key : κ) :
    Except Panic (Bool × MemoryCacheShard κ × SharedUsage) :=
  match shard.entriesByKey.lookup key with
  | none => pure (false, shard, usage)
  | some removed => do
      let (evictionCandidates, entriesByKey) ← removeCandidate shard.evictionCandidates
        (shard.entriesByKey.erase key) removed.candidateIndex
      let usedBytes ← checkedSub .underflow shard.usedBytes removed.allocationCharge
      let usage ← usage.remove owner removed.allocationCharge 1
      pure (true, { shard with usedBytes, entriesByKey, evictionCandidates }, usage)

/-- A sampled key with its score. Indexing the entries with a key that they do not have panics. -/
def sampledScore (shard : MemoryCacheShard κ) (score : κ → Nat → Int) (key : κ) :
    Except Panic (Int × κ) :=
  match shard.entriesByKey.lookup key with
  | some entry => .ok (score key entry.bytes.length, key)
  | none => .error .entryMissing

/-- Tries to insert the object, sampling entries for eviction if space is needed. -/
def tryInsert (shard : MemoryCacheShard κ) (usage : SharedUsage) (owner : Nat) (key : κ)
    (bytes : List UInt8) (allocationCharge sampleSize : Nat) (score : κ → Nat → Int) :
    Except Panic (InsertResult × MemoryCacheShard κ × SharedUsage) := do
  if (shard.entriesByKey.lookup key).isSome then return (.alreadyPresent, shard, usage)
  let remainingCapacity := shard.capacity - allocationCharge
  if shard.usedBytes ≤ remainingCapacity then
    let result ← shard.addEntry usage owner key bytes allocationCharge
    return (.inserted, result)
  let (keys, nextSampleStart) :=
    sampleCandidates shard.nextSampleStart shard.evictionCandidates sampleSize
  let sampled ← keys.mapM (shard.sampledScore score)
  match leastBy toLex sampled with
  | none => throw .noEvictionCandidate
  | some (_, key) =>
      let (_, result) ← removeEntry { shard with nextSampleStart } usage owner key
      return (.evictedButDidNotInsert, result)

/-- `Drop for MemoryCacheShard`. -/
def drop (shard : MemoryCacheShard κ) (usage : SharedUsage) (owner : Nat) :
    Except Panic SharedUsage :=
  usage.remove owner shard.usedBytes shard.evictionCandidates.length

/-! ## Sound shards -/

/-- The charge of an entry. -/
def chargeOf (_ : κ) (entry : MemoryEntry) : Nat := entry.allocationCharge

/-- The allocation charges of the entries. -/
def charges (shard : MemoryCacheShard κ) : Nat := shard.entriesByKey.tally chargeOf

/-- The candidates list every key once, at the position that its entry records, and the used bytes
are the sum of the charges. -/
structure Sound (shard : MemoryCacheShard κ) : Prop where
  ranked : RankedKeys MemoryEntry.candidateIndex shard.entriesByKey shard.evictionCandidates
  used : shard.usedBytes = shard.charges

/-- What the shard owns of the shared usage. -/
structure Owns (shard : MemoryCacheShard κ) (usage : SharedUsage) (owner : Nat) : Prop where
  bytes : usage.buffers.balance owner = shard.usedBytes
  entries : shard.evictionCandidates.length ≤ usage.entries

variable {shard : MemoryCacheShard κ} {usage : SharedUsage} {owner total : Nat} {key : κ}

/-- An empty shard is sound. -/
theorem Sound.new (capacity : Nat) : (new capacity : MemoryCacheShard κ).Sound :=
  ⟨.empty _, rfl⟩

/-- The shared usage follows a change of the shard. -/
structure Follows (shard : MemoryCacheShard κ) (usage : SharedUsage) (owner : Nat)
    (after : MemoryCacheShard κ) (left : SharedUsage) : Prop where
  pool : left.buffers.pool.usedBytes + shard.usedBytes =
    usage.buffers.pool.usedBytes + after.usedBytes
  balance : left.buffers.balance owner + shard.usedBytes =
    usage.buffers.balance owner + after.usedBytes
  others : ∀ other ≠ owner, left.buffers.balance other = usage.buffers.balance other
  entries : left.entries + shard.evictionCandidates.length =
    usage.entries + after.evictionCandidates.length

omit [LinearOrder κ] in
/-- A shard that stays as it is follows its usage. -/
theorem Follows.refl (shard : MemoryCacheShard κ) (usage : SharedUsage) (owner : Nat) :
    Follows shard usage owner shard usage := ⟨rfl, rfl, fun _ _ => rfl, rfl⟩

/-- Adding an absent key keeps the shard sound. -/
theorem add_entry_spec {bytes : List UInt8} {charge : Nat} (h : shard.Sound)
    (husage : usage.Settled total)
    (habsent : shard.entriesByKey.lookup key = none)
    (hshard : shard.usedBytes ≤ usage.buffers.pool.usedBytes)
    (hword : usage.buffers.pool.usedBytes + charge < wordSize) :
    Outcome (fun _ => False) (fun result => result.1.Sound ∧ result.2.Settled total ∧
      Follows shard usage owner result.1 result.2 ∧
      ∀ other, result.1.get other = if other = key then some bytes else shard.get other)
      (shard.addEntry usage owner key bytes charge) := by
  unfold addEntry
  rw [checked_add_eq_ok (by omega), ok_bind]
  refine (SharedUsage.add_spec husage hword).bind ?_
  rintro left ⟨hsettled, hused, hbalance, hentries⟩
  refine ⟨⟨h.ranked.push habsent rfl, ?_⟩, hsettled, ⟨?_, ?_, fun other hother => ?_, ?_⟩,
    fun other => ?_⟩
  · show shard.usedBytes + charge = FiniteMap.tally chargeOf _
    rw [FiniteMap.tally_insert_new _ _ habsent, h.used, Nat.add_comm]
    rfl
  · dsimp only
    omega
  · have howner := hbalance owner
    rw [if_pos rfl] at howner
    dsimp only
    omega
  · simpa [hother] using hbalance other
  · simp only [List.length_append, List.length_singleton]
    omega
  · simp only [get, FiniteMap.lookup_insert_eq]
    split <;> rfl

/-- Taking a key out of the candidates succeeds and changes only the positions of entries. -/
theorem remove_candidate_spec {removed : MemoryEntry} (h : shard.Sound)
    (hkey : shard.entriesByKey.lookup key = some removed) :
    Outcome (fun _ => False) (fun result : List κ × FiniteMap κ MemoryEntry =>
      RankedKeys MemoryEntry.candidateIndex result.2 result.1 ∧
      result.1.length + 1 = shard.evictionCandidates.length ∧
      shard.charges = removed.allocationCharge + result.2.tally chargeOf ∧
      ∀ other, (result.2.lookup other).map MemoryEntry.bytes =
        if other = key then none else shard.get other)
      (removeCandidate shard.evictionCandidates (shard.entriesByKey.erase key)
        removed.candidateIndex) := by
  have hlt := h.ranked.lt_length hkey
  have herase := FiniteMap.tally_erase chargeOf hkey
  have hlength : (swapRemove shard.evictionCandidates removed.candidateIndex).length + 1 =
      shard.evictionCandidates.length := length_swap_remove hlt
  have hget : ∀ other, ((shard.entriesByKey.erase key).lookup other).map MemoryEntry.bytes =
      if other = key then none else shard.get other := by
    intro other
    rw [FiniteMap.lookup_erase_eq]
    split <;> rfl
  unfold removeCandidate
  rw [if_neg (Nat.not_le.mpr hlt)]
  cases hmoved : (swapRemove shard.evictionCandidates
      removed.candidateIndex)[removed.candidateIndex]? with
  | none =>
      simp only [hmoved]
      exact ⟨h.ranked.swap_remove_last hkey hmoved, hlength, herase, hget⟩
  | some movedKey =>
      obtain ⟨-, moved, hfound, hplaced⟩ := h.ranked.swap_remove_moved hkey hmoved
      simp only [hmoved, hfound]
      refine ⟨hplaced _ rfl, hlength, ?_, fun other => ?_⟩
      · have hreplace := FiniteMap.tally_replace chargeOf
          { moved with candidateIndex := removed.candidateIndex } hfound
        simp only [chargeOf] at hreplace herase
        simp only [charges]
        omega
      · rw [← hget other, FiniteMap.lookup_insert_eq]
        split
        next heq => rw [heq, hfound]; rfl
        next => rfl

/-- Removing a key succeeds; the other objects stay. -/
theorem remove_entry_spec (h : shard.Sound) (husage : usage.Settled total)
    (howns : shard.Owns usage owner)
    (key : κ) :
    Outcome (fun _ => False) (fun result : Bool × MemoryCacheShard κ × SharedUsage =>
      result.1 = (shard.get key).isSome ∧ result.2.1.Sound ∧ result.2.2.Settled total ∧
      Follows shard usage owner result.2.1 result.2.2 ∧
      ∀ other, result.2.1.get other = if other = key then none else shard.get other)
      (shard.removeEntry usage owner key) := by
  unfold removeEntry
  split
  next hnone =>
    have habsent : shard.get key = none := by simp [get, hnone]
    refine ⟨by simp [habsent], h, husage, .refl shard usage owner, fun other => ?_⟩
    split
    next heq => rw [heq, habsent]
    next => rfl
  next removed hkey =>
    have hlt := h.ranked.lt_length hkey
    have hused := h.used
    have hbytes := howns.bytes
    have hcount := howns.entries
    refine (remove_candidate_spec h hkey).bind ?_
    rintro ⟨candidates, entries⟩ ⟨hranked, hlength, hcharges, hget⟩
    dsimp only at hranked hlength hcharges hget ⊢
    rw [checked_sub_eq_ok (by omega), ok_bind]
    refine (SharedUsage.remove_spec husage (by omega) (by omega)).bind ?_
    rintro left ⟨hsettled, hpool, hbalance, hentries⟩
    refine ⟨by simp [get, hkey], ⟨hranked, ?_⟩, hsettled, ⟨?_, ?_, fun other hother => ?_, ?_⟩,
      hget⟩
    · show shard.usedBytes - removed.allocationCharge = FiniteMap.tally chargeOf entries
      omega
    · dsimp only
      omega
    · have howner := hbalance owner
      rw [if_pos rfl] at howner
      dsimp only
      omega
    · simpa [hother] using (hbalance other).symm
    · dsimp only
      omega

/-- Sampled keys have entries. -/
theorem sampled_scores_spec (h : shard.Sound) (score : κ → Nat → Int) {keys : List κ}
    (hkeys : ∀ key ∈ keys, key ∈ shard.evictionCandidates) :
    ∃ sampled, keys.mapM (shard.sampledScore score) = .ok sampled ∧
      sampled.map Prod.snd = keys := by
  induction keys with
  | nil => exact ⟨[], rfl, rfl⟩
  | cons key rest ih =>
      obtain ⟨sampled, hsampled, hrest⟩ := ih fun other hother => hkeys other (by simp [hother])
      obtain ⟨entry, hentry⟩ := Option.isSome_iff_exists.mp
        ((h.ranked.mem_iff key).mp (hkeys key (by simp)))
      refine ⟨(score key entry.bytes.length, key) :: sampled, ?_, by simp [hrest]⟩
      simp [List.mapM_cons, sampledScore, hentry, hsampled]

/-- The sample start plays no part in the accounting. -/
theorem Sound.resample (h : shard.Sound) (nextSampleStart : Nat) :
    Sound { shard with nextSampleStart } := ⟨h.ranked, h.used⟩

/-- What an insertion attempt does to the objects of the shard. -/
def Attempted (shard : MemoryCacheShard κ) (key : κ) (bytes : List UInt8)
    (after : MemoryCacheShard κ) : InsertResult → Prop
  | .inserted => shard.get key = none ∧
      ∀ other, after.get other = if other = key then some bytes else shard.get other
  | .alreadyPresent => (shard.get key).isSome ∧ ∀ other, after.get other = shard.get other
  | .evictedButDidNotInsert => shard.get key = none ∧
      ∃ evicted, (shard.get evicted).isSome ∧
        ∀ other, after.get other = if other = evicted then none else shard.get other

/-- An attempt on a sound shard does not panic: a shard with used bytes has a candidate. -/
theorem try_insert_spec {bytes : List UInt8} {charge sampleSize : Nat} (h : shard.Sound)
    (husage : usage.Settled total) (howns : shard.Owns usage owner) (hsample : 0 < sampleSize)
    (hshard : shard.usedBytes ≤ usage.buffers.pool.usedBytes)
    (hword : shard.entriesByKey.lookup key = none → shard.usedBytes ≤ shard.capacity - charge →
      usage.buffers.pool.usedBytes + charge < wordSize) (score : κ → Nat → Int) :
    Outcome (fun _ => False) (fun result : InsertResult × MemoryCacheShard κ × SharedUsage =>
      result.2.1.Sound ∧ result.2.2.Settled total ∧
        Follows shard usage owner result.2.1 result.2.2 ∧
      Attempted shard key bytes result.2.1 result.1)
      (shard.tryInsert usage owner key bytes charge sampleSize score) := by
  unfold tryInsert
  split
  next hpresent =>
    refine ⟨h, husage, .refl shard usage owner, ?_, fun _ => rfl⟩
    simpa [get] using hpresent
  next hpresent =>
    have habsent : shard.entriesByKey.lookup key = none := by simpa using hpresent
    dsimp only
    split
    next hfits =>
      refine (add_entry_spec h husage habsent hshard (hword habsent hfits)).bind ?_
      rintro ⟨after, left⟩ ⟨hsound, hsettled, hfollows, hget⟩
      exact ⟨hsound, hsettled, hfollows, by simp [get, habsent], hget⟩
    next hfull =>
      have hsome : shard.evictionCandidates ≠ [] := by
        intro hempty
        have hpos : 0 < shard.charges := by
          rw [← h.used]
          omega
        obtain ⟨other, entry, hother, -⟩ := FiniteMap.exists_of_tally_pos hpos
        have hmem := (h.ranked.mem_iff other).mpr (by simp [hother])
        simp [hempty] at hmem
      have hlisted : ∀ key ∈ (sampleCandidates shard.nextSampleStart shard.evictionCandidates
          sampleSize).1, key ∈ shard.evictionCandidates := fun key hkey => mem_of_mem_sample hkey
      obtain ⟨sampled, hsampled, hkeys⟩ := sampled_scores_spec h score hlisted
      have hne : sampled ≠ [] := by
        intro hempty
        exact sample_ne_nil hsample hsome (by rw [← hkeys, hempty]; rfl)
      obtain ⟨⟨found, evicted⟩, hleast⟩ := least_by_ne_none toLex hne
      have hmem : evicted ∈ shard.evictionCandidates := by
        have hin := List.mem_map_of_mem (f := Prod.snd) (least_by_mem hleast)
        rw [hkeys] at hin
        exact hlisted evicted hin
      simp only [hsampled, ok_bind, hleast]
      refine (remove_entry_spec (h.resample (sampleCandidates shard.nextSampleStart
        shard.evictionCandidates sampleSize).2) husage ⟨howns.bytes, howns.entries⟩ evicted).bind ?_
      rintro ⟨removed, after, left⟩ ⟨-, hsound, hsettled, hfollows, hget⟩
      refine ⟨hsound, hsettled, ⟨hfollows.pool, hfollows.balance, hfollows.others,
        hfollows.entries⟩, by simp [get, habsent], evicted, ?_, hget⟩
      have hfound := (h.ranked.mem_iff evicted).mp hmem
      simpa [get] using hfound

end MemoryCacheShard

end Feuer.Memory
