import Feuer.Storage.FreshShard
import Feuer.Storage.OccupancyGauges

/-!
# The occupancy gauges of all shards

Any number of shards share one `DiskMetrics`. A shard consists of parts with owners of their own:
the allocator with the reservations of payloads, the index, the metadata chunks, and the
reservations of writes in flight. Operations need the whole shard; once the cache has given it up,
its parts are dropped one by one in any order. The free map lives as long as the allocator or a
reservation refers to it. `Balanced` says that a step of a shard moves the gauges by what its parts
gain, so that the gauges always are the sums over the parts that live.
-/

namespace Feuer.Storage

open Lib

/-- A shard with the owners of its parts. -/
structure ShardOwners where
  context : ShardContext
  shard : DiskCacheShard
  /-- The reservations of writes in flight. -/
  inFlight : List ReservedChunks
  /-- `recover_shard` has run. -/
  recovered : Bool
  /-- The cache has not given up the shard. -/
  opened : Bool
  /-- The allocator has not dropped its reference to the free map. -/
  handle : Bool
  /-- The index has not been dropped. -/
  indexed : Bool

namespace ShardOwners

/-- The reservations of all owners. -/
def live (owners : ShardOwners) : Multiset ReservedChunks :=
  owners.shard.live + Multiset.ofList owners.inFlight

/-- Something refers to the free map: the allocator, or a reservation. -/
def freeLive (owners : ShardOwners) : Bool :=
  owners.handle || decide (Multiset.card owners.live ≠ 0)

/-- The gauges that the shard's code updates. -/
def chunkGauges (owners : ShardOwners) : ChunkGauges := owners.shard.allocator.free.metrics

def entryGauges (owners : ShardOwners) : EntryGauges := owners.shard.entryIndex.metrics

/-- The shard with the current values of the shared gauges. -/
def withGauges (owners : ShardOwners) (chunkGauges : ChunkGauges) (entryGauges : EntryGauges) :
    ShardOwners :=
  { owners with
    shard := { owners.shard with
      allocator := { owners.shard.allocator with
        free := { owners.shard.allocator.free with metrics := chunkGauges } }
      entryIndex := { owners.shard.entryIndex with metrics := entryGauges } } }

/-- A shard of a cache that is being opened. -/
def new (context : ShardContext) (chunkGauges : ChunkGauges) (entryGauges : EntryGauges) :
    ShardOwners where
  context
  shard :=
    { allocator := DiskChunkAllocator.withMetrics context.diskRange chunkGauges
      entryIndex := DiskEntryIndex.new entryGauges
      metadataPages := MetadataChunks.empty }
  inFlight := []
  recovered := false
  opened := true
  handle := true
  indexed := true

/-! ## Drops -/

/-- `Drop for FreeChunks`, when nothing refers to the free map any more. -/
def dropFree (owners : ShardOwners) : ShardOwners :=
  if owners.freeLive then owners
  else
    let free := owners.shard.allocator.free
    let metrics :=
      { free.metrics with freeChunks := free.metrics.freeChunks - free.total }
    { owners with
      shard := { owners.shard with
        allocator := { owners.shard.allocator with free := { free with metrics } } } }

/-- Drops a reservation that its owner has given up. -/
def drop (owners : ShardOwners) (reserved : ReservedChunks) : ShardOwners :=
  dropFree { owners with
    shard := { owners.shard with allocator := owners.shard.allocator.drop reserved } }

/-- `Drop for DiskEntryIndex`. -/
def dropIndex (owners : ShardOwners) : ShardOwners :=
  let index := owners.shard.entryIndex
  let metrics : EntryGauges :=
    { entries := index.metrics.entries - index.evictionCandidates.length
      payloadBytes := index.metrics.payloadBytes - index.payloadLenTotal }
  { owners with
    indexed := false
    shard := { owners.shard with entryIndex := { index with metrics } } }

/-- Drops a reservation that the allocator holds for payloads. -/
def dropHeld (owners : ShardOwners) (first : Nat) : ShardOwners :=
  match owners.shard.allocator.payloadChunks.lookup first with
  | none => owners
  | some (reserved, _) =>
      drop { owners with
        shard := { owners.shard with
          allocator := { owners.shard.allocator with
            payloadChunks := owners.shard.allocator.payloadChunks.erase first } } } reserved

/-- Drops a metadata chunk. -/
def dropMetadataChunk (owners : ShardOwners) (index : Nat) : ShardOwners :=
  match owners.shard.metadataPages.chunks[index]? with
  | none => owners
  | some chunk =>
      drop { owners with
        shard := { owners.shard with
          metadataPages := { owners.shard.metadataPages with
            chunks := owners.shard.metadataPages.chunks.eraseIdx index } } } chunk.reservedChunk

/-- Drops the reservation of a write in flight. -/
def dropReservation (owners : ShardOwners) (reservation : Nat) : ShardOwners :=
  match owners.inFlight[reservation]? with
  | none => owners
  | some reserved =>
      drop { owners with inFlight := owners.inFlight.eraseIdx reservation } reserved

/-! ## Operations -/

/-- The second critical section of `write_payload`. Without room for the metadata it returns, which
drops the reservation. -/
def publish (owners : ShardOwners) (reservation : Nat) (entries : List WriteEntry) :
    Except Panic ShardOwners :=
  match owners.inFlight[reservation]? with
  | none => .ok owners
  | some chunks => do
      let owners := { owners with inFlight := owners.inFlight.eraseIdx reservation }
      match ← owners.shard.publishPayload chunks entries with
      | none => pure (owners.drop chunks)
      | some (shard, _) => pure { owners with shard }

end ShardOwners

/-- What happens to one shard. -/
inductive OwnerAction where
  | recover (read : ChunkReader)
  | reserve (entryCount requiredChunks : Nat)
  | publish (reservation : Nat) (entries : List WriteEntry)
  | evict (score : ObjectKeyHash → Nat → Int) (budget : EvictionBudget)
  | remove (key : ObjectKeyHash)
  | dropReservation (reservation : Nat)
  /-- The cache gives up the shard. -/
  | close
  | dropHandle
  | dropHeld (first : Nat)
  | dropMetadataChunk (index : Nat)
  | dropIndex

namespace ShardOwners

/-- The operations run on a recovered shard of an open cache. The parts of a shard are dropped
after the cache has given it up; a write in flight drops its reservation at any time. -/
def step (owners : ShardOwners) : OwnerAction → Except Panic ShardOwners
  | .recover read =>
      if owners.opened ∧ ¬owners.recovered then do
        let shard ← owners.shard.recover owners.context read
        pure { owners with shard, recovered := true }
      else .ok owners
  | .reserve entryCount requiredChunks =>
      if owners.opened ∧ owners.recovered then do
        let (shard, reserved) ← owners.shard.reserveForPayload entryCount requiredChunks
        pure { owners with shard, inFlight := reserved.toList ++ owners.inFlight }
      else .ok owners
  | .publish reservation entries =>
      if owners.opened ∧ owners.recovered then owners.publish reservation entries else .ok owners
  | .evict score budget =>
      if owners.opened ∧ owners.recovered then do
        let (_, shard, _) ←
          owners.shard.sampleAndEvictEntry owners.context.reclaimSampleSize score budget
        pure { owners with shard }
      else .ok owners
  | .remove key =>
      if owners.opened ∧ owners.recovered then do
        let shard ← owners.shard.removeEntryFromIndex key
        pure { owners with shard }
      else .ok owners
  | .dropReservation reservation => .ok (owners.dropReservation reservation)
  | .close => .ok { owners with opened := false }
  | .dropHandle =>
      if owners.opened ∨ ¬owners.handle then .ok owners
      else .ok (dropFree { owners with handle := false })
  | .dropHeld first => if owners.opened then .ok owners else .ok (owners.dropHeld first)
  | .dropMetadataChunk index =>
      if owners.opened then .ok owners else .ok (owners.dropMetadataChunk index)
  | .dropIndex => if owners.opened ∨ ¬owners.indexed then .ok owners else .ok owners.dropIndex

end ShardOwners

/-- The gauges of a `DiskMetrics` and the shards that share it. -/
structure Occupancy where
  chunkGauges : ChunkGauges
  entryGauges : EntryGauges
  shards : List ShardOwners

/-- A shard is created with the shared gauges, or something happens to one. -/
inductive OccupancyAction where
  | create (context : ShardContext)
  | act (shard : Nat) (action : OwnerAction)

namespace Occupancy

/-- A new `DiskMetrics`. -/
def empty : Occupancy := ⟨⟨0, 0, 0⟩, ⟨0, 0⟩, []⟩

def step (occupancy : Occupancy) : OccupancyAction → Except Panic Occupancy
  | .create context =>
      let owners := ShardOwners.new context occupancy.chunkGauges occupancy.entryGauges
      .ok ⟨owners.chunkGauges, owners.entryGauges, occupancy.shards ++ [owners]⟩
  | .act index action =>
      match occupancy.shards[index]? with
      | none => .ok occupancy
      | some owners => do
          let after ← (owners.withGauges occupancy.chunkGauges occupancy.entryGauges).step action
          pure ⟨after.chunkGauges, after.entryGauges, occupancy.shards.modify index fun _ => after⟩

end Occupancy

/-! ## One shard -/

/-- The gauges of a `DiskMetrics`. -/
inductive Gauge where
  | freeChunks | allocatedChunks | recoveredChunks | entries | payloadBytes

def Gauge.value (chunks : ChunkGauges) (entries : EntryGauges) : Gauge → Int
  | .freeChunks => chunks.freeChunks
  | .allocatedChunks => chunks.allocatedChunks
  | .recoveredChunks => chunks.recoveredChunks
  | .entries => entries.entries
  | .payloadBytes => entries.payloadBytes

namespace ShardOwners

/-- What the gauge counts for the shard. -/
def share (owners : ShardOwners) : Gauge → Nat
  | .freeChunks => if owners.freeLive then owners.shard.allocator.free.total else 0
  | .allocatedChunks => chunksOf owners.live
  | .recoveredChunks => recoveredOf owners.live
  | .entries => if owners.indexed then owners.shard.entryIndex.entryCount else 0
  | .payloadBytes => if owners.indexed then owners.shard.entryIndex.payloadLenTotal else 0

def gauge (owners : ShardOwners) (gauge : Gauge) : Int :=
  gauge.value owners.chunkGauges owners.entryGauges

/-- The parts of a shard fit together. -/
structure Valid (owners : ShardOwners) : Prop where
  tiled : Tiled owners.context.chunks owners.shard.allocator.free owners.live
  ranked : owners.shard.entryIndex.Ranked
  whole : owners.opened = true → owners.handle = true ∧ owners.indexed = true
  unloaded : owners.recovered = false → owners.shard.metadataPages.chunks = []

/-- Every gauge changes by what it counts for the shard. -/
def Balanced (owners after : ShardOwners) : Prop :=
  ∀ gauge, after.gauge gauge - after.share gauge = owners.gauge gauge - owners.share gauge

theorem Balanced.refl (owners : ShardOwners) : Balanced owners owners := fun _ => rfl

variable {owners middle after : ShardOwners}

/-- While the shard's chunks stay tiled, the free gauge follows the free map. -/
theorem free_chunks_of_ownership {chunks : Range}
    {before after : FreeChunks × Multiset ReservedChunks}
    (hrun : Ownership before after) (h : Tiled chunks before.1 before.2) :
    after.1.metrics.freeChunks - after.1.total = before.1.metrics.freeChunks - before.1.total := by
  obtain ⟨hsum, hallocated, -⟩ := hrun.gauges
  have hbefore := h.total
  have hafter := (hrun.tiled h).total
  omega

theorem free_live_of_handle (h : owners.handle = true) : owners.freeLive = true := by
  rw [freeLive, h, Bool.true_or]

theorem drop_free_of_handle (h : owners.handle = true) : owners.dropFree = owners :=
  if_pos (free_live_of_handle h)

/-- Dropping the free map lowers the free gauge by what it counts of the map, and no other gauge. -/
theorem drop_free_gauge (owners : ShardOwners) (gauge : Gauge) :
    owners.dropFree.gauge gauge - owners.dropFree.share gauge =
      owners.gauge gauge - (match gauge with
        | .freeChunks => owners.shard.allocator.free.total
        | other => owners.share other : Nat) := by
  unfold dropFree
  split
  next hlive =>
    cases gauge with
    | freeChunks => rw [share, if_pos hlive]
    | allocatedChunks | recoveredChunks | entries | payloadBytes => rfl
  next hdead =>
    cases gauge with
    | freeChunks =>
        show (_ : Int) - ((if owners.freeLive then _ else 0 : Nat) : Int) = _
        rw [if_neg hdead]
        exact Int.sub_zero _
    | allocatedChunks | recoveredChunks | entries | payloadBytes => rfl

/-- The gauges do not matter for the tiling. -/
theorem tiled_of_map {chunks : Range} {free other : FreeChunks} {live : Multiset ReservedChunks}
    (h : Tiled chunks free live) (hmap : other.chunkCountByStart = free.chunkCountByStart) :
    Tiled chunks other live := by
  refine ⟨⟨hmap ▸ h.separated.nonempty, hmap ▸ h.separated.apart⟩, fun chunk => ?_, h.nonempty⟩
  have howned : other.owned chunk = free.owned chunk := by
    rw [FreeChunks.owned, hmap, FreeChunks.owned]
  rw [howned]
  exact h.partition chunk

theorem Valid.drop_free (h : owners.Valid) : owners.dropFree.Valid := by
  unfold ShardOwners.dropFree
  split
  next => exact h
  next => exact ⟨tiled_of_map h.tiled rfl, h.ranked, h.whole, h.unloaded⟩

/-- Ownership steps keep the balance, and so does the drop of the free map behind them. -/
theorem balanced_of_ownership (hvalid : owners.Valid) (hlive : owners.freeLive = true)
    (hownership : Ownership (owners.shard.allocator.free, owners.live)
      (middle.shard.allocator.free, middle.live))
    (hindexed : middle.indexed = owners.indexed)
    (hentries : middle.shard.entryIndex = owners.shard.entryIndex ∨
      owners.indexed = true ∧ owners.shard.entryIndex.Conserves middle.shard.entryIndex []) :
    Balanced owners middle.dropFree := by
  obtain ⟨-, hallocated, hrecovered⟩ := hownership.gauges
  intro gauge
  refine (drop_free_gauge middle gauge).trans ?_
  cases gauge with
  | freeChunks =>
      rw [share, if_pos hlive]
      exact free_chunks_of_ownership hownership hvalid.tiled
  | allocatedChunks => exact hallocated
  | recoveredChunks => exact hrecovered
  | entries =>
      rcases hentries with hsame | ⟨hlisted, hconserves⟩
      · simp only [gauge, Gauge.value, entryGauges, share, hsame, hindexed]
      · simp only [share, hindexed, hlisted, if_true]
        exact (Int.add_zero _).symm.trans (hconserves hvalid.ranked).2.1
  | payloadBytes =>
      rcases hentries with hsame | ⟨hlisted, hconserves⟩
      · simp only [gauge, Gauge.value, entryGauges, share, hsame, hindexed]
      · simp only [share, hindexed, hlisted, if_true]
        exact (Int.add_zero _).symm.trans (hconserves hvalid.ranked).2.2

/-! ## Drops of parts -/

/-- A reservation that an owner gives up is dropped. The index stays as it is. -/
theorem drop_balanced {reserved : ReservedChunks} (hvalid : owners.Valid)
    (hlive : owners.live = reserved ::ₘ middle.live)
    (hfree : middle.shard.allocator.free = owners.shard.allocator.free)
    (hindex : middle.shard.entryIndex = owners.shard.entryIndex)
    (hindexed : middle.indexed = owners.indexed) (hcontext : middle.context = owners.context)
    (hwhole : middle.opened = true → middle.handle = true ∧ middle.indexed = true)
    (hunloaded : middle.recovered = false → middle.shard.metadataPages.chunks = []) :
    (middle.drop reserved).Valid ∧ Balanced owners (middle.drop reserved) := by
  have hownership : Ownership (owners.shard.allocator.free, owners.live)
      ((middle.shard.allocator.drop reserved).free, middle.live) := by
    rw [hlive, ← hfree]
    exact DiskChunkAllocator.drop_ownership _ _ _
  have howner : owners.freeLive = true := by
    rw [freeLive, hlive, Multiset.card_cons]
    simp
  refine ⟨Valid.drop_free ⟨?_, ?_, hwhole, hunloaded⟩,
    balanced_of_ownership hvalid howner hownership hindexed (.inl hindex)⟩
  · show Tiled middle.context.chunks _ _
    rw [hcontext]
    exact hownership.tiled hvalid.tiled
  · show middle.shard.entryIndex.Ranked
    rw [hindex]
    exact hvalid.ranked

theorem coe_eraseIdx {items : List ReservedChunks} {index : Nat} {item : ReservedChunks}
    (h : items[index]? = some item) :
    Multiset.ofList items = item ::ₘ Multiset.ofList (items.eraseIdx index) := by
  obtain ⟨hlt, hitem⟩ := List.getElem?_eq_some_iff.mp h
  rw [Multiset.cons_coe, Multiset.coe_eq_coe, ← hitem]
  exact (List.getElem_cons_eraseIdx_perm hlt).symm

/-- The drop of a reservation in flight is balanced. -/
theorem drop_reservation_balanced (hvalid : owners.Valid) (reservation : Nat) :
    (owners.dropReservation reservation).Valid ∧
      Balanced owners (owners.dropReservation reservation) := by
  unfold dropReservation
  split
  next => exact ⟨hvalid, .refl _⟩
  next reserved hreserved =>
    refine drop_balanced hvalid ?_ rfl rfl rfl rfl hvalid.whole hvalid.unloaded
    show owners.shard.live + _ = reserved ::ₘ (owners.shard.live + _)
    rw [coe_eraseIdx hreserved, Multiset.add_cons]

/-- The drop of a payload reservation is balanced. -/
theorem drop_held_balanced (hvalid : owners.Valid) (first : Nat) :
    (owners.dropHeld first).Valid ∧ Balanced owners (owners.dropHeld first) := by
  unfold dropHeld
  split
  next => exact ⟨hvalid, .refl _⟩
  next reserved count hfirst =>
    refine drop_balanced hvalid ?_ rfl rfl rfl rfl hvalid.whole hvalid.unloaded
    show heldBy owners.shard.allocator.payloadChunks + _ + _ =
      reserved ::ₘ (heldBy (owners.shard.allocator.payloadChunks.erase first) + _ + _)
    rw [held_by_erase hfirst, Multiset.cons_add, Multiset.cons_add]

/-- The drop of a metadata chunk is balanced. -/
theorem drop_metadata_chunk_balanced (hvalid : owners.Valid) (index : Nat) :
    (owners.dropMetadataChunk index).Valid ∧ Balanced owners (owners.dropMetadataChunk index) := by
  unfold dropMetadataChunk
  split
  next => exact ⟨hvalid, .refl _⟩
  next chunk hchunk =>
    refine drop_balanced hvalid ?_ rfl rfl rfl rfl hvalid.whole fun hunrecovered => ?_
    · have hreserved : (owners.shard.metadataPages.chunks.map MetadataChunk.reservedChunk)[index]? =
          some chunk.reservedChunk := by rw [List.getElem?_map, hchunk, Option.map_some]
      show owners.shard.allocator.held + Multiset.ofList _ + _ = chunk.reservedChunk ::ₘ
        (owners.shard.allocator.held + Multiset.ofList
          ((owners.shard.metadataPages.chunks.eraseIdx index).map MetadataChunk.reservedChunk) + _)
      rw [coe_eraseIdx hreserved, Multiset.add_cons, Multiset.cons_add, List.eraseIdx_map]
    · rw [hvalid.unloaded hunrecovered] at hchunk
      cases hchunk

theorem drop_handle_balanced (hvalid : owners.Valid) (hclosed : owners.opened = false)
    (hhandle : owners.handle = true) :
    (dropFree { owners with handle := false }).Valid ∧
      Balanced owners (dropFree { owners with handle := false }) := by
  refine ⟨Valid.drop_free ⟨hvalid.tiled, hvalid.ranked, fun hopened => ?_, hvalid.unloaded⟩,
    balanced_of_ownership hvalid (free_live_of_handle hhandle) .refl rfl (.inl rfl)⟩
  exact absurd (hclosed.symm.trans hopened) Bool.false_ne_true

/-- The drop of the index takes its entries off the gauges. -/
theorem drop_index_balanced (hvalid : owners.Valid) (hclosed : owners.opened = false)
    (hindexed : owners.indexed = true) :
    owners.dropIndex.Valid ∧ Balanced owners owners.dropIndex := by
  refine ⟨⟨hvalid.tiled, ⟨hvalid.ranked.position, hvalid.ranked.listed⟩, fun hopened => ?_,
    hvalid.unloaded⟩, fun gauge => ?_⟩
  · exact absurd (hclosed.symm.trans hopened) Bool.false_ne_true
  cases gauge with
  | freeChunks | allocatedChunks | recoveredChunks => rfl
  | entries =>
      rw [share, share, if_pos hindexed, ← hvalid.ranked.length_candidates]
      exact Int.sub_zero _
  | payloadBytes =>
      rw [share, share, if_pos hindexed]
      exact Int.sub_zero _

/-! ## Operations -/

/-- An operation on a whole shard keeps the balance. -/
theorem operation_balanced {shard : DiskCacheShard} {inFlight : List ReservedChunks}
    {recovered : Bool} (hvalid : owners.Valid) (hopened : owners.opened = true)
    (hrecovered : recovered = true)
    (hownership : Ownership (owners.shard.allocator.free, owners.live)
      (shard.allocator.free, shard.live + Multiset.ofList inFlight))
    (hentries : owners.shard.entryIndex.Conserves shard.entryIndex []) :
    Valid { owners with shard, inFlight, recovered } ∧
      Balanced owners { owners with shard, inFlight, recovered } := by
  obtain ⟨hhandle, hindexed⟩ := hvalid.whole hopened
  have hbalanced := @balanced_of_ownership _ { owners with shard, inFlight, recovered }
    hvalid (free_live_of_handle hhandle) hownership rfl (.inr ⟨hindexed, hentries⟩)
  rw [@drop_free_of_handle { owners with shard, inFlight, recovered } hhandle] at hbalanced
  refine ⟨⟨hownership.tiled hvalid.tiled, (hentries hvalid.ranked).1, hvalid.whole, fun hnot => ?_⟩,
    hbalanced⟩
  exact absurd (hrecovered.symm.trans hnot) Bool.false_ne_true.symm

/-- A publication is balanced. -/
theorem publish_balanced {reservation : Nat} {entries : List WriteEntry} (hvalid : owners.Valid)
    (hopened : owners.opened = true) (hrecovered : owners.recovered = true)
    (h : owners.publish reservation entries = .ok after) : after.Valid ∧ Balanced owners after := by
  unfold publish at h
  split at h
  next =>
    cases h
    exact ⟨hvalid, .refl _⟩
  next chunks hchunks =>
    obtain ⟨result, hresult, h⟩ := bind_eq_ok.mp h
    cases result with
    | none =>
        cases h
        have hdropped := drop_reservation_balanced hvalid reservation
        rw [dropReservation, hchunks] at hdropped
        exact hdropped
    | some result =>
        cases h
        obtain ⟨hownership, hentries⟩ := DiskCacheShard.publish_payload_conserves
          (Multiset.ofList (owners.inFlight.eraseIdx reservation)) hresult
        rw [← coe_eraseIdx hchunks] at hownership
        exact operation_balanced hvalid hopened hrecovered hownership hentries

/-- A step that its guard does not let through changes nothing. -/
theorem guarded_balanced {guard : Prop} [Decidable guard] {result : Except Panic ShardOwners}
    (hvalid : owners.Valid) (h : (if guard then result else .ok owners) = .ok after)
    (hdone : guard → result = .ok after → after.Valid ∧ Balanced owners after) :
    after.Valid ∧ Balanced owners after := by
  split at h
  next hguard => exact hdone hguard h
  next =>
    cases h
    exact ⟨hvalid, .refl _⟩

/-- A step of a shard keeps its parts together and the gauges in balance. -/
theorem step_balanced {action : OwnerAction} (hvalid : owners.Valid)
    (h : owners.step action = .ok after) : after.Valid ∧ Balanced owners after := by
  cases action with
  | recover read =>
      refine guarded_balanced hvalid h fun hguard h => ?_
      obtain ⟨shard, hshard, h⟩ := bind_eq_ok.mp h
      cases h
      have hconserves := DiskCacheShard.recover_conserves
        (hvalid.unloaded (Bool.eq_false_of_not_eq_true hguard.2)) hshard
      exact operation_balanced hvalid hguard.1 rfl (hconserves.ownership _) hconserves.entries
  | reserve entryCount requiredChunks =>
      refine guarded_balanced hvalid h fun hguard h => ?_
      obtain ⟨⟨shard, reserved⟩, hshard, h⟩ := bind_eq_ok.mp h
      cases h
      obtain ⟨hownership, hindex⟩ :=
        DiskCacheShard.reserve_for_payload_ownership (Multiset.ofList owners.inFlight) hshard
      rw [Multiset.coe_add] at hownership
      exact operation_balanced hvalid hguard.1 hguard.2 hownership (by rw [hindex]; exact .refl _)
  | publish reservation entries =>
      exact guarded_balanced hvalid h fun hguard h => publish_balanced hvalid hguard.1 hguard.2 h
  | evict score budget =>
      refine guarded_balanced hvalid h fun hguard h => ?_
      obtain ⟨⟨sampled, shard, rest⟩, hshard, h⟩ := bind_eq_ok.mp h
      cases h
      have hconserves := DiskCacheShard.sample_and_evict_conserves hshard
      exact operation_balanced hvalid hguard.1 hguard.2 (hconserves.ownership _) hconserves.entries
  | remove key =>
      refine guarded_balanced hvalid h fun hguard h => ?_
      obtain ⟨shard, hshard, h⟩ := bind_eq_ok.mp h
      cases h
      have hconserves := (DiskCacheShard.remove_entry_conserves hshard).1
      exact operation_balanced hvalid hguard.1 hguard.2 (hconserves.ownership _) hconserves.entries
  | dropReservation reservation =>
      cases h
      exact drop_reservation_balanced hvalid reservation
  | close =>
      cases h
      exact ⟨⟨hvalid.tiled, hvalid.ranked, nofun, hvalid.unloaded⟩, .refl owners⟩
  | dropHandle =>
      simp only [step] at h
      split at h <;> cases h
      next => exact ⟨hvalid, .refl _⟩
      next hguard =>
        simp only [not_or, Bool.not_eq_true] at hguard
        exact drop_handle_balanced hvalid hguard.1 (by simpa using hguard.2)
  | dropHeld first =>
      simp only [step] at h
      split at h <;> cases h
      · exact ⟨hvalid, .refl _⟩
      · exact drop_held_balanced hvalid first
  | dropMetadataChunk index =>
      simp only [step] at h
      split at h <;> cases h
      · exact ⟨hvalid, .refl _⟩
      · exact drop_metadata_chunk_balanced hvalid index
  | dropIndex =>
      simp only [step] at h
      split at h <;> cases h
      next => exact ⟨hvalid, .refl _⟩
      next hguard =>
        simp only [not_or, Bool.not_eq_true] at hguard
        exact drop_index_balanced hvalid hguard.1 (by simpa using hguard.2)

/-! ## New shards and shared gauges -/

theorem Valid.with_gauges (h : owners.Valid) (chunkGauges : ChunkGauges)
    (entryGauges : EntryGauges) : (owners.withGauges chunkGauges entryGauges).Valid :=
  ⟨tiled_of_map h.tiled rfl, ⟨h.ranked.position, h.ranked.listed⟩, h.whole, h.unloaded⟩

/-- The free chunks of an allocator without reservations tile the shard. -/
theorem tiled_of_accounts {chunks : Range} {allocator : DiskChunkAllocator}
    (h : allocator.Accounts chunks (fun _ => 0) fun _ => 0)
    (hunused : allocator.payloadChunks = ∅) : Tiled chunks allocator.free 0 := by
  refine ⟨h.separated, fun chunk => ?_, fun _ hreserved =>
    absurd hreserved (Multiset.notMem_zero _)⟩
  have hpartition := h.partition chunk
  rw [DiskChunkAllocator.payloadOwned, hunused, FiniteMap.tally_empty, Nat.add_zero] at hpartition
  rw [Multiset.map_zero, Multiset.sum_zero, Nat.add_zero]
  exact hpartition

/-- All chunks of a new shard are free, and the gauges count them. -/
theorem new_valid (context : ShardContext) (chunkGauges : ChunkGauges) (entryGauges : EntryGauges) :
    (new context chunkGauges entryGauges).Valid ∧ ∀ gauge,
      (new context chunkGauges entryGauges).gauge gauge =
        gauge.value chunkGauges entryGauges +
          (new context chunkGauges entryGauges).share gauge := by
  have hnew : (new context chunkGauges entryGauges).shard.allocator =
      DiskChunkAllocator.withMetrics
        ⟨context.chunks.start * chunkBytes, context.chunks.stop * chunkBytes⟩ chunkGauges := rfl
  obtain ⟨-, hunused, hcapacity, haccounts⟩ :=
    DiskChunkAllocator.with_metrics_spec context.chunks_lt chunkGauges hnew
  have htiled := tiled_of_accounts haccounts hunused
  refine ⟨⟨htiled, DiskEntryIndex.ranked_new _, fun _ => ⟨rfl, rfl⟩, fun _ => rfl⟩, fun gauge => ?_⟩
  cases gauge with
  | freeChunks =>
      have htotal := htiled.total
      rw [chunks_of_zero, Nat.add_zero, ← hcapacity] at htotal
      rw [share, if_pos (free_live_of_handle rfl), htotal]
      rfl
  | allocatedChunks | recoveredChunks | entries | payloadBytes => exact (Int.add_zero _).symm

end ShardOwners

/-! ## All shards -/

namespace Occupancy

def gauge (occupancy : Occupancy) (gauge : Gauge) : Int :=
  gauge.value occupancy.chunkGauges occupancy.entryGauges

/-- The gauges are the sums of what they count for each shard. -/
structure Conserved (occupancy : Occupancy) : Prop where
  valid : ∀ owners ∈ occupancy.shards, owners.Valid
  gauges : ∀ gauge, occupancy.gauge gauge =
    ((occupancy.shards.map fun owners => owners.share gauge).sum : Nat)

variable {occupancy next : Occupancy}

theorem conserved_empty : empty.Conserved := ⟨nofun, fun gauge => by cases gauge <;> rfl⟩

theorem Conserved.create (h : occupancy.Conserved) (context : ShardContext) :
    Conserved ⟨(ShardOwners.new context occupancy.chunkGauges occupancy.entryGauges).chunkGauges,
      (ShardOwners.new context occupancy.chunkGauges occupancy.entryGauges).entryGauges,
      occupancy.shards ++
      [ShardOwners.new context occupancy.chunkGauges occupancy.entryGauges]⟩ := by
  obtain ⟨hvalid, hgauges⟩ :=
    ShardOwners.new_valid context occupancy.chunkGauges occupancy.entryGauges
  refine ⟨fun owners howners => ?_, fun gauge => ?_⟩
  · rcases List.mem_append.mp howners with hold | hnew
    · exact h.valid owners hold
    · rw [List.mem_singleton.mp hnew]
      exact hvalid
  · simp only [List.map_append, List.sum_append, List.map_singleton, List.sum_singleton]
    rw [Nat.cast_add, ← h.gauges gauge]
    exact hgauges gauge

/-- A balanced step of one shard keeps the gauges the sums. -/
theorem Conserved.replace {index : Nat} {owners after : ShardOwners} (h : occupancy.Conserved)
    (howners : occupancy.shards[index]? = some owners) (hvalid : after.Valid)
    (hbalanced : ShardOwners.Balanced
      (owners.withGauges occupancy.chunkGauges occupancy.entryGauges) after) :
    Conserved ⟨after.chunkGauges, after.entryGauges,
      occupancy.shards.modify index fun _ => after⟩ := by
  refine ⟨fun other hother => ?_, fun gauge => ?_⟩
  · rw [List.modify_eq_set_getElem?, howners] at hother
    rcases List.mem_or_eq_of_mem_set hother with hold | hnew
    · exact h.valid other hold
    · rw [hnew]
      exact hvalid
  · -- What the shard counted before, it counts no more.
    have hsum := sum_map_modify (fun _ => after) (fun owners => owners.share gauge) howners
    have hshare : (owners.withGauges occupancy.chunkGauges occupancy.entryGauges).share gauge =
        owners.share gauge := by cases gauge <;> rfl
    have hchange : after.gauge gauge - after.share gauge =
        occupancy.gauge gauge - owners.share gauge := hshare ▸ hbalanced gauge
    have hold := h.gauges gauge
    show after.gauge gauge = _
    simp only
    omega

/-- Every action conserves the gauges. -/
theorem step_conserved {action : OccupancyAction} (h : occupancy.Conserved)
    (hstep : occupancy.step action = .ok next) : next.Conserved := by
  cases action with
  | create context =>
      cases hstep
      exact h.create context
  | act index action =>
      simp only [step] at hstep
      split at hstep
      next =>
        cases hstep
        exact h
      next owners howners =>
        obtain ⟨after, hafter, hstep⟩ := bind_eq_ok.mp hstep
        cases hstep
        have hvalid := (h.valid owners (List.mem_of_getElem? howners)).with_gauges
          occupancy.chunkGauges occupancy.entryGauges
        obtain ⟨hnext, hbalanced⟩ := ShardOwners.step_balanced hvalid hafter
        exact h.replace howners hnext hbalanced

/-- While a shard makes, marks, and drops reservations, no chunk gauge falls below zero. -/
theorem Conserved.nonnegative (h : occupancy.Conserved) {owners : ShardOwners}
    (howners : owners ∈ occupancy.shards) (hlive : owners.freeLive = true)
    {free : FreeChunks} {live : Multiset ReservedChunks}
    (hownership : Ownership ({ owners.shard.allocator.free with metrics := occupancy.chunkGauges },
      owners.live) (free, live)) :
    0 ≤ free.metrics.freeChunks ∧ 0 ≤ free.metrics.allocatedChunks ∧
      0 ≤ free.metrics.recoveredChunks := by
  have htiled : Tiled owners.context.chunks
      { owners.shard.allocator.free with metrics := occupancy.chunkGauges } owners.live :=
    ShardOwners.tiled_of_map (h.valid owners howners).tiled rfl
  obtain ⟨-, hallocated, hrecovered⟩ := hownership.gauges
  have hfree := ShardOwners.free_chunks_of_ownership hownership htiled
  have hle : ∀ weight : ShardOwners → Nat, weight owners ≤ (occupancy.shards.map weight).sum :=
    fun weight => List.single_le_sum (fun _ _ => Nat.zero_le _) _ (List.mem_map_of_mem howners)
  have hfreeLe := hle fun owners => owners.share .freeChunks
  rw [ShardOwners.share, if_pos hlive] at hfreeLe
  have hallocatedLe := hle fun owners => chunksOf owners.live
  have hrecoveredLe := hle fun owners => recoveredOf owners.live
  change free.metrics.freeChunks - (free.total : Int) = occupancy.gauge .freeChunks -
    (owners.shard.allocator.free.total : Int) at hfree
  change free.metrics.allocatedChunks - (chunksOf live : Int) = occupancy.gauge .allocatedChunks -
    (chunksOf owners.live : Int) at hallocated
  change free.metrics.recoveredChunks - (recoveredOf live : Int) =
    occupancy.gauge .recoveredChunks - (recoveredOf owners.live : Int) at hrecovered
  rw [h.gauges] at hfree hallocated hrecovered
  simp only [ShardOwners.share] at hfree hallocated hrecovered hfreeLe
  omega

end Occupancy

/-- The gauges count the free maps, reservations, and entries that live, after every sequence of
recoveries, operations, and drops. No gauge is below zero, also not between the reservations that a
step of a shard makes, marks, and drops. -/
theorem occupancy_gauges_conserved {actions : List OccupancyAction} {occupancy : Occupancy}
    (h : run Occupancy.step Occupancy.empty actions = .ok occupancy) :
    occupancy.chunkGauges.freeChunks =
        (((occupancy.shards.filter ShardOwners.freeLive).map fun owners =>
          owners.shard.allocator.free.total).sum : Nat) ∧
      occupancy.chunkGauges.allocatedChunks =
        ((occupancy.shards.map fun owners => chunksOf owners.live).sum : Nat) ∧
      occupancy.chunkGauges.recoveredChunks ≤ occupancy.chunkGauges.allocatedChunks ∧
      occupancy.entryGauges.entries =
        (((occupancy.shards.filter ShardOwners.indexed).map fun owners =>
          owners.shard.entryIndex.entryCount).sum : Nat) ∧
      occupancy.entryGauges.payloadBytes =
        (((occupancy.shards.filter ShardOwners.indexed).map fun owners =>
          owners.shard.entryIndex.payloadLenTotal).sum : Nat) ∧
      0 ≤ occupancy.chunkGauges.recoveredChunks ∧
      (∀ owners ∈ occupancy.shards, owners.freeLive = true → ∀ free live,
        Ownership ({ owners.shard.allocator.free with metrics := occupancy.chunkGauges },
          owners.live) (free, live) →
        0 ≤ free.metrics.freeChunks ∧ 0 ≤ free.metrics.allocatedChunks ∧
          0 ≤ free.metrics.recoveredChunks) ∧
      ((∀ owners ∈ occupancy.shards, owners.freeLive = false ∧ owners.indexed = false) →
        occupancy.chunkGauges = ⟨0, 0, 0⟩ ∧ occupancy.entryGauges = ⟨0, 0⟩) := by
  have hconserved : occupancy.Conserved :=
    run_invariant Occupancy.Conserved (fun _ => True)
      (fun _ _ _ hstate _ hstep => Occupancy.step_conserved hstate hstep)
      Occupancy.conserved_empty (fun _ _ => trivial) h
  have hallocated := hconserved.gauges .allocatedChunks
  have hrecovered := hconserved.gauges .recoveredChunks
  have hle : (occupancy.shards.map fun owners => recoveredOf owners.live).sum ≤
      (occupancy.shards.map fun owners => chunksOf owners.live).sum :=
    List.sum_le_sum fun owners _ => recovered_of_le owners.live
  simp only [Occupancy.gauge, Gauge.value, ShardOwners.share] at hallocated hrecovered
  refine ⟨?_, hallocated, by omega, ?_, ?_, by omega, ?_, fun hdropped => ?_⟩
  · rw [sum_map_filter]
    exact hconserved.gauges .freeChunks
  · rw [sum_map_filter]
    exact hconserved.gauges .entries
  · rw [sum_map_filter]
    exact hconserved.gauges .payloadBytes
  · exact fun owners howners hlive free live hownership =>
      hconserved.nonnegative howners hlive hownership
  · have hzero : ∀ gauge, occupancy.gauge gauge = 0 := fun gauge => by
      rw [hconserved.gauges, List.sum_eq_zero]
      · rfl
      intro share hshare
      obtain ⟨owners, howners, rfl⟩ := List.mem_map.mp hshare
      obtain ⟨hfree, hindexed⟩ := hdropped owners howners
      have hlive : owners.live = 0 := by
        have hnone := hfree
        rw [ShardOwners.freeLive, Bool.or_eq_false_iff] at hnone
        simpa using hnone.2
      cases gauge with
      | freeChunks => simp [ShardOwners.share, hfree]
      | allocatedChunks => rw [ShardOwners.share, hlive, chunks_of_zero]
      | recoveredChunks => rw [ShardOwners.share, hlive, recovered_of_zero]
      | entries | payloadBytes => simp [ShardOwners.share, hindexed]
    constructor
    · show ChunkGauges.mk (occupancy.gauge .freeChunks) (occupancy.gauge .allocatedChunks)
        (occupancy.gauge .recoveredChunks) = _
      rw [hzero, hzero, hzero]
    · show EntryGauges.mk (occupancy.gauge .entries) (occupancy.gauge .payloadBytes) = _
      rw [hzero, hzero]

namespace Occupancy

/-- The cache of one shard. -/
def single (owners : ShardOwners) : Occupancy := ⟨owners.chunkGauges, owners.entryGauges, [owners]⟩

theorem step_single {owners after : ShardOwners} {action : OwnerAction}
    (h : owners.step action = .ok after) :
    (single owners).step (.act 0 action) = .ok (single after) := by
  have hself : owners.withGauges owners.chunkGauges owners.entryGauges = owners := rfl
  simp only [step, single, List.getElem?_cons_zero, hself, h, ok_bind]
  rfl

theorem run_single {created middle after : ShardOwners} {create : OccupancyAction}
    {first second : OwnerAction} (hcreate : empty.step create = .ok (single created))
    (hfirst : created.step first = .ok middle) (hsecond : middle.step second = .ok after) :
    run step empty [create, .act 0 first, .act 0 second] = .ok (single after) := by
  simp only [run, hcreate, ok_bind, step_single hfirst, step_single hsecond]

/-- A shard of a zeroed file recovers, and a write reserves a chunk. -/
theorem reserves_after_recovery {context : ShardContext}
    (hcount : context.chunkCount ≤ 2 ^ 32) (hroom : 2 ≤ context.chunkCount) :
    ∃ occupancy, run step empty
      [.create context, .act 0 (.recover zeroReader), .act 0 (.reserve 1 1)] = .ok occupancy := by
  obtain ⟨shard, hrecover, hfresh⟩ := DiskCacheShard.recover_zero hcount
  obtain ⟨after, reserved, hreserve⟩ := hfresh.reserves hroom Nat.one_pos
  have hcreated : empty.step (.create context) =
      .ok (single (ShardOwners.new context ⟨0, 0, 0⟩ ⟨0, 0⟩)) := rfl
  have hrecovered : (ShardOwners.new context ⟨0, 0, 0⟩ ⟨0, 0⟩).step (.recover zeroReader) =
      .ok { ShardOwners.new context ⟨0, 0, 0⟩ ⟨0, 0⟩ with shard, recovered := true } := by
    show (DiskCacheShard.recoverShard context zeroReader >>= _) = _
    rw [hrecover]
    rfl
  have hreserved : ShardOwners.step
      { ShardOwners.new context ⟨0, 0, 0⟩ ⟨0, 0⟩ with shard, recovered := true } (.reserve 1 1) =
        .ok { ShardOwners.new context ⟨0, 0, 0⟩ ⟨0, 0⟩ with
          shard := after, recovered := true, inFlight := [reserved] } := by
    show (shard.reserveForPayload 1 1 >>= _) = _
    rw [hreserve]
    rfl
  exact ⟨_, run_single hcreated hrecovered hreserved⟩

end Occupancy

/-- The gauges of a recovered shard with the reservation of a write in flight. -/
theorem occupancy_gauges_conserved_reserved :
    ∃ occupancy, run Occupancy.step Occupancy.empty
        [.create .tiny, .act 0 (.recover zeroReader), .act 0 (.reserve 1 1)] = .ok occupancy ∧
      occupancy.chunkGauges.allocatedChunks =
        ((occupancy.shards.map fun owners => chunksOf owners.live).sum : Nat) := by
  have hroom : 2 ≤ ShardContext.tiny.chunkCount := by
    rw [ShardContext.tiny, ShardContext.single_chunk_count]
  obtain ⟨occupancy, hrun⟩ :=
    Occupancy.reserves_after_recovery ShardContext.tiny_chunk_count hroom
  exact ⟨occupancy, hrun, (occupancy_gauges_conserved hrun).2.1⟩

end Feuer.Storage
