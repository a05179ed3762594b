import Feuer.Lib.RankedKeys
import Feuer.Lib.Transition
import Feuer.Storage.Metadata

/-!
# The published entries and the list they are sampled from

`DiskEntryIndex` maps keys to disk entries and keeps the keys in a vector that eviction samples in
rotation, after `disk_cache.rs`. Each entry records its key's position in that vector, so that
removing an entry moves the vector's last key into the gap and has to update the position of the
moved key's entry. `Ranked` is the agreement of the two structures. `view?` is an entry without
its position: the part of an entry that a removal of another one leaves alone. `placement?` is what
the entry says about the disk.
-/

namespace Feuer.Storage

open Lib

/-- The entry gauges of `DiskMetrics`. -/
structure EntryGauges where
  entries : Int
  payloadBytes : Int
  deriving DecidableEq, Repr

/-- An entry's payload length, address, checksum, shared read, metadata, and eviction position. -/
structure DiskEntry where
  /-- The read that a caller may still hold: `Weak<PayloadRead>`, by the read's identity. -/
  sharedRead : Option Nat
  evictionPosition : Nat
  payloadLen : Nat
  payloadChecksum : UInt64
  payloadAddress : Nat
  metadata : EntryMetadataLocation
  deriving DecidableEq, Repr

namespace DiskEntry

/-- An entry without readers, described by its metadata at `location`. -/
def new (entry : EntryMetadata) (location : EntryMetadataLocation) : DiskEntry where
  sharedRead := none
  evictionPosition := 0
  payloadLen := entry.payloadLen
  payloadChecksum := entry.payloadChecksum
  payloadAddress := entry.payloadAddress
  metadata := location

/-- Small payloads stay within one chunk. Larger payloads start at a chunk boundary. -/
def chunkCount (entry : DiskEntry) : Nat := divCeil (max entry.payloadLen 1) chunkBytes

/-- What the entry's metadata slot holds. -/
def record (entry : DiskEntry) (key : ObjectKeyHash) : EntryMetadata :=
  ⟨key, entry.payloadLen, entry.payloadAddress, entry.payloadChecksum⟩

/-- The entry at an eviction position. -/
def placed (entry : DiskEntry) (position : Nat) : DiskEntry :=
  { entry with evictionPosition := position }

end DiskEntry

/-- Disk entries indexed by object key, with a list sampled in rotation for eviction. -/
structure DiskEntryIndex where
  entriesByKey : FiniteMap ObjectKeyHash DiskEntry
  evictionCandidates : List ObjectKeyHash
  /-- Index where the next eviction sample starts. -/
  nextSampleStart : Nat
  metrics : EntryGauges

namespace DiskEntryIndex

def new (metrics : EntryGauges) : DiskEntryIndex := ⟨∅, [], 0, metrics⟩

/-- The entry of a key, without its eviction position. -/
def view? (index : DiskEntryIndex) (key : ObjectKeyHash) : Option DiskEntry :=
  (index.entriesByKey.lookup key).map fun entry => entry.placed 0

/-- The metadata of a key's entry and its location. -/
def placement? (index : DiskEntryIndex) (key : ObjectKeyHash) :
    Option (EntryMetadata × EntryMetadataLocation) :=
  (index.entriesByKey.lookup key).map fun entry => (entry.record key, entry.metadata)

/-- Removes an entry from the index and eviction candidates. Its payload and metadata remain
reserved. -/
def takeEntry (index : DiskEntryIndex) (key : ObjectKeyHash) :
    Except Panic (Option (DiskEntryIndex × DiskEntry)) :=
  match index.entriesByKey.lookup key with
  | none => .ok none
  | some entry => do
      let removed := index.entriesByKey.erase key
      let metrics :=
        { index.metrics with
          entries := index.metrics.entries - 1
          payloadBytes := index.metrics.payloadBytes - entry.payloadLen }
      if index.evictionCandidates.length ≤ entry.evictionPosition then
        throw .swapRemoveOutOfBounds
      let candidates := swapRemove index.evictionCandidates entry.evictionPosition
      let entries ←
        match candidates[entry.evictionPosition]? with
        | none => pure removed
        | some movedKey =>
            match removed.lookup movedKey with
            | none => throw .unwrapNone
            | some moved => pure (removed.insert movedKey (moved.placed entry.evictionPosition))
      pure (some ({ index with
        entriesByKey := entries, evictionCandidates := candidates, metrics }, entry))

/-- The end of `insert_entry`: the key joins the eviction candidates and the index. -/
def push (index : DiskEntryIndex) (key : ObjectKeyHash) (entry : DiskEntry) : DiskEntryIndex :=
  { index with
    entriesByKey := index.entriesByKey.insert key (entry.placed index.evictionCandidates.length)
    evictionCandidates := index.evictionCandidates ++ [key] }

/-- The number of entries whose payload starts in a chunk. -/
def payloadsAt (index : DiskEntryIndex) (chunk : Nat) : Nat :=
  FiniteMap.tally (fun _ entry => if entry.payloadAddress / chunkBytes = chunk then 1 else 0)
    index.entriesByKey

/-! ## Agreement of the index and the candidates -/

/-- Every entry's position holds its key, and every candidate is the key of an entry at its
position. -/
structure Ranked (index : DiskEntryIndex) : Prop where
  position : ∀ key entry, index.entriesByKey.lookup key = some entry →
    index.evictionCandidates[entry.evictionPosition]? = some key
  listed : ∀ position key, index.evictionCandidates[position]? = some key →
    ∃ entry, index.entriesByKey.lookup key = some entry ∧ entry.evictionPosition = position

variable {index after : DiskEntryIndex} {key : ObjectKeyHash} {entry : DiskEntry}

theorem ranked_new (metrics : EntryGauges) : (new metrics).Ranked where
  position := by simp [new]
  listed := by simp [new]

/-- The index and the candidates are a map and a list of ranked keys. -/
theorem ranked_iff : index.Ranked ↔
    RankedKeys DiskEntry.evictionPosition index.entriesByKey index.evictionCandidates :=
  ⟨fun h => ⟨h.position, h.listed⟩, fun h => ⟨h.position, h.listed⟩⟩

/-- A candidate stands at one position only. -/
theorem Ranked.nodup (h : index.Ranked) : index.evictionCandidates.Nodup := (ranked_iff.mp h).nodup

/-- The candidates are the keys of the index. -/
theorem Ranked.mem_iff (h : index.Ranked) (key : ObjectKeyHash) :
    key ∈ index.evictionCandidates ↔ (index.entriesByKey.lookup key).isSome :=
  (ranked_iff.mp h).mem_iff key

/-- The position of an entry does not show in what it says about the disk. -/
theorem placement?_eq_view? (index : DiskEntryIndex) (key : ObjectKeyHash) :
    index.placement? key =
      (index.view? key).map fun entry => (entry.record key, entry.metadata) := by
  simp only [placement?, view?, Option.map_map]
  rfl

theorem placement?_eq_none :
    index.placement? key = none ↔ index.entriesByKey.lookup key = none := by
  simp [placement?]

theorem placement?_of_lookup (h : index.entriesByKey.lookup key = some entry) :
    index.placement? key = some (entry.record key, entry.metadata) := by
  simp [placement?, h]

theorem lookup_of_placement? {record : EntryMetadata} {location : EntryMetadataLocation}
    (h : index.placement? key = some (record, location)) :
    ∃ entry, index.entriesByKey.lookup key = some entry ∧ entry.record key = record ∧
      entry.metadata = location := by
  simpa [placement?, Option.map_eq_some_iff] using h

theorem key_of_placement? {record : EntryMetadata} {location : EntryMetadataLocation}
    (h : index.placement? key = some (record, location)) : record.key = key := by
  obtain ⟨entry, -, rfl, -⟩ := lookup_of_placement? h
  rfl

/-- An indexed payload counts at the chunk where it starts. -/
theorem payloads_at_pos {record : EntryMetadata} {location : EntryMetadataLocation}
    (h : index.placement? key = some (record, location)) :
    0 < index.payloadsAt (record.payloadAddress / chunkBytes) := by
  obtain ⟨entry, hentry, rfl, -⟩ := lookup_of_placement? h
  have hweight := FiniteMap.le_tally (fun _ (found : DiskEntry) =>
    if found.payloadAddress / chunkBytes = entry.payloadAddress / chunkBytes then 1 else 0) hentry
  rw [if_pos rfl] at hweight
  exact hweight

/-! ## Inserting -/

theorem view?_push (other : ObjectKeyHash) :
    (index.push key entry).view? other =
      if other = key then some (entry.placed 0) else index.view? other := by
  simp only [view?, push, FiniteMap.lookup_insert_eq]
  split <;> rfl

theorem placement?_push (other : ObjectKeyHash) :
    (index.push key entry).placement? other =
      if other = key then some (entry.record key, entry.metadata) else index.placement? other := by
  rw [placement?_eq_view?, view?_push]
  split
  next h => rw [h]; rfl
  next => rw [placement?_eq_view?]

theorem Ranked.push (h : index.Ranked) (habsent : index.entriesByKey.lookup key = none) :
    (index.push key entry).Ranked :=
  ranked_iff.mpr ((ranked_iff.mp h).push habsent rfl)

theorem payloads_at_push (habsent : index.entriesByKey.lookup key = none) (chunk : Nat) :
    (index.push key entry).payloadsAt chunk =
      index.payloadsAt chunk + if chunk = entry.payloadAddress / chunkBytes then 1 else 0 := by
  rw [payloadsAt, push, FiniteMap.tally_insert_new _ _ habsent, payloadsAt, Nat.add_comm]
  simp only [DiskEntry.placed, eq_comm]

/-! ## Taking an entry out -/

/-- An entry that is taken out was indexed. The other entries stay, up to the position of one of
them. The gauges go down by the entry, and so does every sum over the entries that does not depend
on their positions. -/
theorem take_entry_some (h : index.takeEntry key = .ok (some (after, entry))) :
    index.entriesByKey.lookup key = some entry ∧
      (∀ other, after.view? other = if other = key then none else index.view? other) ∧
      after.metrics =
        ⟨index.metrics.entries - 1, index.metrics.payloadBytes - entry.payloadLen⟩ ∧
      ∀ weight : ObjectKeyHash → DiskEntry → Nat,
        (∀ key entry position, weight key (entry.placed position) = weight key entry) →
        FiniteMap.tally weight index.entriesByKey =
          weight key entry + FiniteMap.tally weight after.entriesByKey := by
  unfold takeEntry at h
  split at h
  next => cases h
  next found hfound =>
    have herase := fun weight => FiniteMap.tally_erase weight hfound
    simp only at h
    split at h
    next => cases h
    next =>
      split at h
      next =>
        -- The entry was the last candidate: nothing moves.
        cases h
        refine ⟨hfound, fun other => ?_, rfl, fun weight _ => herase weight⟩
        simp only [view?, FiniteMap.lookup_erase_eq]
        split <;> rfl
      next movedKey hmoved =>
        split at h
        next => cases h
        next moved hlookup =>
          cases h
          refine ⟨hfound, fun other => ?_, rfl, fun weight hweight => ?_⟩
          · rw [view?, FiniteMap.lookup_insert_eq]
            rw [FiniteMap.lookup_erase_eq] at hlookup ⊢
            split at hlookup
            next => cases hlookup
            next hne =>
              by_cases hother : other = movedKey
              · rw [if_pos hother, hother, if_neg hne, view?, hlookup]
                rfl
              · rw [if_neg hother]
                split <;> rfl
          · have hreplace :=
              FiniteMap.tally_replace weight (moved.placed entry.evictionPosition) hlookup
            rw [hweight] at hreplace
            rw [herase weight]
            show weight key entry + _ = weight key entry + FiniteMap.tally weight
              ((index.entriesByKey.erase key).insert movedKey (moved.placed entry.evictionPosition))
            omega

theorem take_entry_none (h : index.takeEntry key = .ok none) :
    index.entriesByKey.lookup key = none := by
  unfold takeEntry at h
  split at h
  next hnone => exact hnone
  next found hfound =>
    simp only at h
    split at h
    next => cases h
    next =>
      split at h
      next => cases h
      next => split at h <;> cases h

/-- Taking out an indexed entry succeeds, and the candidates still agree with the index. -/
theorem take_entry_spec (h : index.Ranked) (hentry : index.entriesByKey.lookup key = some entry) :
    ∃ after, index.takeEntry key = .ok (some (after, entry)) ∧ after.Ranked ∧
      after.nextSampleStart = index.nextSampleStart := by
  have hranked := ranked_iff.mp h
  unfold takeEntry
  simp only [hentry, if_neg (Nat.not_le.mpr (hranked.lt_length hentry))]
  cases hmoved : (swapRemove index.evictionCandidates
      entry.evictionPosition)[entry.evictionPosition]? with
  | none => exact ⟨_, rfl, ranked_iff.mpr (hranked.swap_remove_last hentry hmoved), rfl⟩
  | some movedKey =>
      obtain ⟨-, moved, hremoved, hplaced⟩ := hranked.swap_remove_moved hentry hmoved
      simp only [hremoved]
      exact ⟨_, rfl, ranked_iff.mpr (hplaced _ rfl), rfl⟩

/-- What taking out an entry does to the numbers of payloads. -/
theorem payloads_at_take (h : index.takeEntry key = .ok (some (after, entry))) (chunk : Nat) :
    index.payloadsAt chunk =
      after.payloadsAt chunk + if chunk = entry.payloadAddress / chunkBytes then 1 else 0 := by
  obtain ⟨-, -, -, htally⟩ := take_entry_some h
  rw [payloadsAt, htally _ fun _ _ _ => rfl, Nat.add_comm, payloadsAt]
  simp only [eq_comm]

/-- Taking out an entry, as far as the disk is concerned. -/
theorem placement?_take (h : index.takeEntry key = .ok (some (after, entry)))
    (other : ObjectKeyHash) :
    after.placement? other = if other = key then none else index.placement? other := by
  rw [placement?_eq_view?, (take_entry_some h).2.1]
  split
  next => rfl
  next => rw [placement?_eq_view?]

end DiskEntryIndex

end Feuer.Storage
