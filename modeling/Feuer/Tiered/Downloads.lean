import Feuer.Tiered.TieredCache

/-!
# Downloads stay obtainable

Every copy of an object that the tiers hold has the payload of the source (`Faithful`), over every
run. A call whose callback succeeds leaves its object in memory, or relies on the disk entry that it
finds after the callback. It leaves the object obtainable just when that entry can be read
(`TieredCache.run_download_obtainable`). An entry whose read fails with an I/O error stays in the
index and is relied on all the same (`TieredCache.download_lost_behind_unreadable_entry`).
-/

namespace Feuer.Tiered

open Lib

variable {κ : Type} [DecidableEq κ] {source : κ → List UInt8}

/-! ## Every copy is the source's -/

/-- The disk tier holds payloads of the source only. -/
structure DiskTier.Faithful (source : κ → List UInt8) (disk : DiskTier κ) : Prop where
  buffer : ∀ key bytes, disk.smallEntryBuffer.lookup key = some bytes → bytes = source key
  index : ∀ key entry, disk.entriesByKey.lookup key = some entry → entry.payload = source key
  queue : ∀ entry ∈ disk.writeQueue, entry.2 = source entry.1

/-- Both tiers hold payloads of the source only. -/
structure TieredCache.Faithful (source : κ → List UInt8) (cache : TieredCache κ) : Prop where
  memory : ∀ key bytes, cache.memory.lookup key = some bytes → bytes = source key
  disk : cache.disk.Faithful source

namespace DiskTier

variable {disk : DiskTier κ}

/-- A buffered entry has the bytes of the source. -/
theorem Faithful.buffered (h : disk.Faithful source) {key : κ} {bytes : List UInt8}
    (hbytes : disk.buffered key = some bytes) : bytes = source key := by
  unfold DiskTier.buffered at hbytes
  split at hbytes
  · cases hbytes
  · exact h.buffer key bytes hbytes

/-- An index entry can go at any time. -/
theorem Faithful.erase_entry (h : disk.Faithful source) (key : κ) :
    Faithful source { disk with entriesByKey := disk.entriesByKey.erase key } := by
  refine { h with index := ?_ }
  have := h.index
  simp only [FiniteMap.lookup_erase_eq]
  grind

/-- The bytes of the source can be indexed, whatever becomes of the medium. -/
theorem Faithful.insert_entry (h : disk.Faithful source) (key : κ) (medium : Medium) :
    Faithful source { disk with
      entriesByKey := disk.entriesByKey.insert key ⟨source key, medium⟩ } := by
  refine { h with index := ?_ }
  have := h.index
  simp only [FiniteMap.lookup_insert_eq]
  grind

/-- A buffered entry can go at any time. -/
theorem Faithful.erase_buffered (h : disk.Faithful source) (key : κ) :
    Faithful source { disk with smallEntryBuffer := disk.smallEntryBuffer.erase key } := by
  refine { h with buffer := ?_ }
  have := h.buffer
  simp only [FiniteMap.lookup_erase_eq]
  grind

/-- The bytes of the source can be buffered. -/
theorem Faithful.insert_buffered (h : disk.Faithful source) (key : κ) :
    Faithful source { disk with
      smallEntryBuffer := disk.smallEntryBuffer.insert key (source key) } := by
  refine { h with buffer := ?_ }
  have := h.buffer
  simp only [FiniteMap.lookup_insert_eq]
  grind

/-- A lookup returns the payload of the source, and leaves nothing else behind. -/
theorem Faithful.get_with_fallthrough (h : disk.Faithful source) (key : κ) (fallsThrough : Bool) :
    (∀ bytes, (disk.getWithFallthrough key fallsThrough).2.1 = some bytes → bytes = source key) ∧
      (disk.getWithFallthrough key fallsThrough).2.2.Faithful source := by
  unfold DiskTier.getWithFallthrough
  split
  next bytes hbytes =>
    refine ⟨?_, h⟩
    rintro _ ⟨⟩
    exact h.buffered hbytes
  next =>
    split
    next => exact ⟨nofun, h⟩
    next entry hentry =>
      split
      next => exact ⟨nofun, h⟩
      next =>
        split
        next =>
          refine ⟨?_, h⟩
          rintro _ ⟨⟩
          exact h.index key entry hentry
        next => exact ⟨nofun, h⟩
        next => exact ⟨nofun, h.erase_entry key⟩

/-- The queue takes the bytes of the source or nothing. -/
theorem Faithful.enqueue (h : disk.Faithful source) (key : κ) :
    (disk.enqueueIfSpaceAvailable key (source key)).Faithful source := by
  unfold enqueueIfSpaceAvailable
  split
  · refine { h with queue := ?_ }
    intro entry hentry
    rcases List.mem_append.mp hentry with hold | hnew
    · exact h.queue entry hold
    · rw [List.mem_singleton.mp hnew]
  · exact h

/-- A key is indexed with the bytes of the source, or was indexed before. -/
theorem Faithful.publish (h : disk.Faithful source) (key : κ) (medium : Medium) :
    (disk.publish key (source key) medium).Faithful source := by
  unfold DiskTier.publish
  split
  · exact h
  · exact h.insert_entry key medium

/-- The writer publishes or buffers what was queued, or loses it. -/
theorem Faithful.write_queued (h : disk.Faithful source) (outcome : WriteOutcome) :
    (disk.writeQueued outcome).Faithful source := by
  unfold DiskTier.writeQueued
  split
  next => exact h
  next key bytes rest hqueue =>
    have hbytes : bytes = source key := h.queue (key, bytes) (by rw [hqueue]; exact .head rest)
    have htaken : Faithful source { disk with writeQueue := rest } :=
      { h with queue := fun entry hentry => h.queue entry (by rw [hqueue]; exact .tail _ hentry) }
    subst hbytes
    simp only
    split
    · exact htaken
    · cases outcome with
      | buffered => exact htaken.insert_buffered key
      | published medium => exact htaken.publish key medium
      | failed => exact htaken

/-- A flushed entry moves from the buffer to the index. -/
theorem Faithful.flush_entry (h : disk.Faithful source) (key : κ) (medium : Medium) :
    (disk.flushEntry key medium).Faithful source := by
  unfold DiskTier.flushEntry
  split
  next => exact h
  next bytes hbytes =>
    rw [h.buffer key bytes hbytes]
    exact (h.erase_buffered key).publish key medium

/-- A medium that degrades changes no entry. -/
theorem Faithful.degrade (h : disk.Faithful source) (key : κ) (medium : Medium) :
    (disk.degrade key medium).Faithful source := by
  unfold DiskTier.degrade
  split
  next => exact h
  next entry hentry =>
    have hsame : { entry with medium } = (⟨source key, medium⟩ : StoredEntry) := by
      rw [← h.index key entry hentry]
    rw [hsame]
    exact h.insert_entry key medium

end DiskTier

namespace TieredCache

variable {cache : TieredCache κ}

/-- Evictions leave a part of the memory tier. -/
theorem lookup_of_evicted {memory : FiniteMap κ (List UInt8)} {evicted : List κ} {key : κ}
    {bytes : List UInt8}
    (h : (evicted.foldl (fun memory other => memory.erase other) memory).lookup key = some bytes) :
    memory.lookup key = some bytes := by
  induction evicted generalizing memory with
  | nil => exact h
  | cons other rest ih => exact (FiniteMap.lookup_erase_eq_some.mp (ih h)).2

/-- Memory takes the bytes of the source. -/
theorem Faithful.insert_into_memory (h : cache.Faithful source) (evicted : List κ) (key : κ) :
    (cache.insertIntoMemory evicted key (source key)).2.Faithful source := by
  unfold TieredCache.insertIntoMemory
  split
  · exact h
  · refine { h with memory := ?_ }
    intro other bytes hbytes
    simp only [FiniteMap.lookup_insert_eq] at hbytes
    split at hbytes
    next heq =>
      cases hbytes
      rw [heq]
    next => exact h.memory other bytes (lookup_of_evicted hbytes)

/-- A lookup moves bytes from the disk to memory, and removes a failed entry. -/
theorem Faithful.lookup (h : cache.Faithful source) (key : κ) (fallsThrough : Bool)
    (evicted : List κ) : (cache.lookup key fallsThrough evicted).2.2.2.Faithful source := by
  unfold TieredCache.lookup
  split
  next => exact h
  next =>
    obtain ⟨hbytes, hdisk⟩ := h.disk.get_with_fallthrough key fallsThrough
    split
    next outcome bytes disk heq =>
      rw [heq] at hbytes hdisk
      cases hbytes bytes rfl
      have hcache : TieredCache.Faithful source { cache with disk } := ⟨h.memory, hdisk⟩
      exact hcache.insert_into_memory evicted key
    next outcome disk heq =>
      rw [heq] at hdisk
      exact ⟨h.memory, hdisk⟩

/-- The background work of one action invents no bytes. -/
theorem Faithful.work (h : cache.Faithful source) (action : Background κ) :
    (cache.work action).Faithful source := by
  cases action with
  | lockBuffer => exact ⟨h.memory, { h.disk with }⟩
  | unlockBuffer => exact ⟨h.memory, { h.disk with }⟩
  | writeQueued outcome => exact ⟨h.memory, h.disk.write_queued outcome⟩
  | flushEntry key medium => exact ⟨h.memory, h.disk.flush_entry key medium⟩
  | discardEntry key => exact ⟨h.memory, h.disk.erase_buffered key⟩
  | degrade key medium => exact ⟨h.memory, h.disk.degrade key medium⟩
  | evictFromDisk key => exact ⟨h.memory, h.disk.erase_entry key⟩
  | evictFromMemory key =>
      refine ⟨?_, h.disk⟩
      have := h.memory
      simp only [TieredCache.work, FiniteMap.lookup_erase_eq]
      grind

/-- Any amount of background work invents no bytes. -/
theorem Faithful.works (h : cache.Faithful source) (actions : List (Background κ)) :
    (actions.foldl TieredCache.work cache).Faithful source :=
  List.foldlRecOn actions TieredCache.work h fun _ hcache action _ => hcache.work action

/-- A download has the bytes of the source, wherever it is admitted. -/
theorem Faithful.admit_download (h : cache.Faithful source) (key : κ) (fellThrough : Bool)
    (evicted : List κ) :
    (cache.admitDownload key (source key) fellThrough evicted).Faithful source := by
  have hinserted := h.insert_into_memory evicted key
  unfold TieredCache.admitDownload
  split
  · split
    · exact hinserted
    · exact h
  · split
    next heq =>
      rw [heq] at hinserted
      exact ⟨hinserted.memory, hinserted.disk.enqueue key⟩
    next heq =>
      rw [heq] at hinserted
      exact hinserted

/-- A call of `get_or_fetch` keeps both tiers faithful. -/
theorem Faithful.get_or_fetch (h : cache.Faithful source) (request : FetchRequest κ) :
    (cache.getOrFetch source request).2.2.Faithful source := by
  unfold TieredCache.getOrFetch
  split
  next => exact h
  next =>
    have hlookup := h.lookup request.key request.fallsThrough request.evicted
    unfold TieredCache.fetch
    split
    next heq =>
      rw [heq] at hlookup
      exact hlookup
    next heq =>
      rw [heq] at hlookup
      simp only
      split
      · exact (hlookup.works request.during).admit_download request.key _ request.evicted
      · exact hlookup.works request.during

/-- Every action keeps the cache faithful. -/
theorem Faithful.step (h : cache.Faithful source) (action : TieredAction κ) :
    (cache.step source action).Faithful source := by
  cases action with
  | get key evicted => exact h.lookup key false evicted
  | getOrFetch request => exact h.get_or_fetch request
  | background action => exact h.work action

/-- Every run keeps the cache faithful. -/
theorem Faithful.run (h : cache.Faithful source) (actions : List (TieredAction κ)) :
    (cache.run source actions).Faithful source :=
  List.foldlRecOn actions (TieredCache.step source) h fun _ hcache action _ => hcache.step action

/-- A recovered index with the bytes of the source is a faithful cache. -/
theorem faithful_opened {entriesByKey : FiniteMap κ StoredEntry}
    (h : ∀ key entry, entriesByKey.lookup key = some entry → entry.payload = source key) :
    (opened entriesByKey).Faithful source :=
  ⟨by simp [opened], by simp [opened], h, by simp [opened]⟩

/-! ## Admission -/

/-- Where the admission of a download relies on the entry that the index holds when the callback
returns, a read of that entry succeeds. -/
def ReliesOnReadable (cache : TieredCache κ) (request : FetchRequest κ) : Prop :=
  (cache.awaitCallback request).1 = false →
    (cache.awaitCallback request).2.disk.buffered request.key = none →
    ∀ entry ∈ (cache.awaitCallback request).2.disk.entriesByKey.lookup request.key,
      entry.medium = .readable

instance (cache : TieredCache κ) (request : FetchRequest κ) :
    Decidable (cache.ReliesOnReadable request) := by
  unfold ReliesOnReadable
  infer_instance

instance (cache : TieredCache κ) (key : κ) (bytes : List UInt8) :
    Decidable (cache.Obtainable key bytes) :=
  inferInstanceAs (Decidable (_ ∨ _))

/-- An inserted object is in memory. -/
theorem lookup_insert_into_memory (h : cache.Faithful source) (evicted : List κ) (key : κ) :
    (cache.insertIntoMemory evicted key (source key)).2.memory.lookup key = some (source key) := by
  unfold insertIntoMemory
  split
  next hsome =>
    obtain ⟨bytes, hbytes⟩ := Option.isSome_iff_exists.mp hsome
    rw [hbytes, h.memory key bytes hbytes]
  next => exact Finmap.lookup_insert _

/-- A disk tier that contains the key serves it just when it can read what it would have to. -/
theorem get_with_fallthrough_of_contains {disk : DiskTier κ} (h : disk.Faithful source) {key : κ}
    (hcontains : disk.contains key) :
    (disk.getWithFallthrough key false).2.1 = some (source key) ↔
      (disk.buffered key = none → ∀ entry ∈ disk.entriesByKey.lookup key,
        entry.medium = .readable) := by
  unfold DiskTier.getWithFallthrough
  split
  next bytes hbytes => simp [hbytes, h.buffered hbytes]
  next hbuffered =>
    rw [DiskTier.contains, hbuffered] at hcontains
    obtain ⟨entry, hentry⟩ := Option.isSome_iff_exists.mp (by simpa using hcontains)
    have hpayload := h.index key entry hentry
    simp only [hentry, hbuffered]
    cases hmedium : entry.medium <;> simp [hmedium, hpayload]

/-- The background puts nothing into memory. -/
theorem works_memory {key : κ} (h : cache.memory.lookup key = none)
    (actions : List (Background κ)) :
    (actions.foldl work cache).memory.lookup key = none := by
  induction actions generalizing cache with
  | nil => exact h
  | cons action rest ih =>
      refine ih ?_
      cases action with
      | evictFromMemory other => simp only [work, FiniteMap.lookup_erase_eq, h, ite_self]
      | _ => exact h

/-- A downloaded object is in memory after its admission, unless the admission relies on the disk
tier. Then it can be had just when the disk tier serves it. -/
theorem admit_download_obtainable (h : cache.Faithful source) {key : κ} {fellThrough : Bool}
    {evicted : List κ} (hmissing : cache.memory.lookup key = none) :
    (cache.admitDownload key (source key) fellThrough evicted).Obtainable key (source key) ↔
      (fellThrough = false → cache.disk.buffered key = none →
        ∀ entry ∈ cache.disk.entriesByKey.lookup key, entry.medium = .readable) := by
  have hinserted := lookup_insert_into_memory h evicted key
  unfold admitDownload
  split
  next hcontains =>
    split
    next hfell =>
      rw [hfell]
      exact iff_of_true (.inl hinserted) nofun
    next hstayed =>
      rw [Obtainable, hmissing, get_with_fallthrough_of_contains h.disk hcontains]
      simp [hstayed]
  next hlacks =>
    -- Without an entry to rely on, the object goes to memory.
    have hnone : cache.disk.entriesByKey.lookup key = none := by
      simp only [DiskTier.contains, Bool.or_eq_true, not_or] at hlacks
      simpa using hlacks.2
    refine iff_of_true ?_ (by simp [hnone])
    split
    all_goals
      rename_i heq
      rw [heq] at hinserted
      exact .inl hinserted

/-- A lookup by itself invokes no callback. -/
theorem lookup_ne_callback (cache : TieredCache κ) (key : κ) (fallsThrough : Bool)
    (evicted : List κ) : (cache.lookup key fallsThrough evicted).1 ≠ .callback := by
  unfold lookup
  split
  · nofun
  · split <;> nofun

/-- A lookup that finds nothing leaves the memory tier as it was. -/
theorem lookup_miss {key : κ} {fallsThrough : Bool} {evicted : List κ} {outcome : LookupOutcome}
    {fellThrough : Bool} {after : TieredCache κ}
    (h : cache.lookup key fallsThrough evicted = (outcome, none, fellThrough, after)) :
    after.memory = cache.memory := by
  unfold lookup at h
  split at h
  · cases h
  · split at h
    · cases h
    · cases h
      rfl

/-- A call that invokes its callback with success has not found its object in memory, and admits
what it downloads. -/
theorem get_or_fetch_callback {request : FetchRequest κ}
    (hcallback : (cache.getOrFetch source request).1 = .callback) :
    (cache.awaitCallback request).2.memory.lookup request.key = none ∧
    (cache.getOrFetch source request).2.2 =
    (cache.awaitCallback request).2.admitDownload request.key
      (source request.key) (cache.awaitCallback request).1 request.evicted := by
  have hlookup := cache.lookup_ne_callback request.key request.fallsThrough request.evicted
  unfold getOrFetch at hcallback ⊢
  split at hcallback
  next => cases hcallback
  next hmissing =>
    unfold fetch awaitCallback at *
    rcases hfound : cache.lookup request.key request.fallsThrough request.evicted with
      ⟨outcome, bytes, fellThrough, after⟩
    rw [hfound] at hlookup
    cases bytes with
    | some bytes =>
        simp only [hfound] at hcallback
        exact absurd hcallback hlookup
    | none =>
        have hafter : after.memory = cache.memory := lookup_miss hfound
        simp only [hfound] at hcallback ⊢
        split at hcallback
        next hsucceeds =>
          rw [if_pos hsucceeds]
          exact ⟨works_memory (hafter ▸ hmissing) _, rfl⟩
        next => cases hcallback

/-- In every run, a call whose callback succeeds leaves its object obtainable just when a read of
the entry on which its admission relies succeeds. -/
theorem run_download_obtainable (source : κ → List UInt8) (entriesByKey : FiniteMap κ StoredEntry)
    (hrecovered : ∀ key entry, entriesByKey.lookup key = some entry → entry.payload = source key)
    (actions : List (TieredAction κ)) (request : FetchRequest κ)
    (hcallback :
      (((opened entriesByKey).run source actions).getOrFetch source request).1 = .callback) :
    (((opened entriesByKey).run source actions).getOrFetch source request).2.2.Obtainable
        request.key (source request.key) ↔
      ((opened entriesByKey).run source actions).ReliesOnReadable request := by
  have hfaithful := (faithful_opened hrecovered).run actions
  have hlookup := hfaithful.lookup request.key request.fallsThrough request.evicted
  obtain ⟨hmissing, hadmitted⟩ := get_or_fetch_callback hcallback
  rw [hadmitted]
  exact admit_download_obtainable (hlookup.works request.during) hmissing

/-- A download of a key that was evicted from memory while a corrupted entry of it was on disk. -/
theorem run_download_obtainable_corrupted :
    ((((opened ∅).run (fun _ : Nat => [7])
      [.getOrFetch ⟨0, false, true, [], []⟩, .background (.writeQueued (.published .corrupted)),
        .background (.evictFromMemory 0)]).getOrFetch (fun _ => [7])
      ⟨0, false, true, [], []⟩).2.2).Obtainable 0 [7] :=
  (run_download_obtainable (fun _ => [7]) ∅ (by simp) _ ⟨0, false, true, [], []⟩ (by decide)).mpr
    (by decide)

/-- After a restart the entry of a key cannot be read. Every call downloads the object again, and
none leaves it obtainable. -/
theorem download_lost_behind_unreadable_entry :
    let cache := opened (Finmap.singleton (0 : Nat) ⟨[7], .unreadable⟩)
    let request : FetchRequest Nat := ⟨0, false, true, [], []⟩
    (cache.getOrFetch (fun _ => [7]) request).1 = .callback ∧
    ¬ (cache.getOrFetch (fun _ => [7]) request).2.2.Obtainable 0 [7] ∧
    ((cache.run (fun _ => [7]) [.getOrFetch request]).getOrFetch (fun _ => [7]) request).1 =
      .callback := by
  decide

end TieredCache

end Feuer.Tiered
