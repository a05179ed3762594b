import Feuer.Storage.CacheSteps
import Feuer.Storage.FlushedWrites
import Feuer.Storage.PublishedEntries
import Mathlib.Data.Set.Function

/-!
# Runs of a cache

A session of a shard with its callers, from recovery on. A lookup that returns bytes returns the
payload of a write of its key, whatever the file does. A published entry stays readable as long as
it is indexed.
-/

namespace Feuer.Storage

open Lib

variable {context : ShardContext}

/-- Nobody reads a recovered entry yet. -/
theorem DiskCacheShard.recover_shard_unread {read : ChunkReader} {shard : DiskCacheShard}
    (h : recoverShard context read = .ok shard) (key : ObjectKeyHash) (view : DiskEntry)
    (hview : shard.entryIndex.view? key = some view) : view.sharedRead = none := by
  obtain ⟨loaded, hloaded, h⟩ := bind_eq_ok.mp h
  obtain ⟨recovered, hrecovered, h⟩ := bind_eq_ok.mp h
  cases h
  have hempty : ∀ key view, loaded.entryIndex.view? key = some view → view.sharedRead = none := by
    obtain ⟨metadataPages, -, hloaded⟩ := bind_eq_ok.mp hloaded
    cases hloaded
    simp [new, DiskEntryIndex.new, DiskEntryIndex.view?]
  have hstep : ∀ (state : Recovering) (location : EntryMetadataLocation) (next : Recovering),
      (∀ key view, state.shard.entryIndex.view? key = some view → view.sharedRead = none) → True →
        recoverEntry context state location = .ok next →
          ∀ key view, next.shard.entryIndex.view? key = some view → view.sharedRead = none := by
    intro state location next hstate _ hnext other found hfound
    rcases recover_entry_cases hnext with
      ⟨-, rfl⟩ | ⟨record, -, ⟨_, -, -, rfl⟩ | ⟨allocator, -, rfl⟩⟩
    · exact hstate other found hfound
    · exact hstate other found hfound
    · rw [DiskEntryIndex.view?_push] at hfound
      split at hfound
      next =>
        cases hfound
        rfl
      next => exact hstate other found hfound
  have hrun := run_invariant
    (fun state : Recovering => ∀ key view, state.shard.entryIndex.view? key = some view →
      view.sharedRead = none) (fun _ => True) hstep hempty (fun _ _ => trivial) hrecovered
  exact hrun key view hview

/-- The payloads that an action brings into the run: those of writes, and what reads return. -/
def CacheAction.payloads : CacheAction context → List (List UInt8)
  | .write _ _ _ bytes => [bytes]
  | .read _ (some (bytes, _)) => [bytes]
  | _ => []

namespace CacheState

/-- The payloads of a session and of earlier ones. -/
def payloadsOf (earlier : List (ObjectKeyHash × List UInt8))
    (actions : List (CacheAction context)) :
    Set (List UInt8) :=
  { bytes | (∃ key, (key, bytes) ∈ earlier) ∨ ∃ action ∈ actions, bytes ∈ action.payloads }

/-- The session writes the payload under the key. -/
def Writes (actions : List (CacheAction context)) (key : ObjectKeyHash) (bytes : List UInt8) :
    Prop :=
  ∃ id routed, .write id key routed bytes ∈ actions

/-- The ledger of a session whose checksums tell payloads apart: what is returned was written, in
this session or in an earlier one. -/
def hitLedger (earlier : List (ObjectKeyHash × List UInt8)) (actions : List (CacheAction context))
    (hinjective : Set.InjOn context.hash (payloadsOf earlier actions)) : Ledger context.hash where
  Written key bytes := (key, bytes) ∈ earlier ∨ Writes actions key bytes
  Vouched key payloadLen payloadChecksum := ∃ payload,
    ((key, payload) ∈ earlier ∨ Writes actions key payload) ∧ payload.length = payloadLen ∧
      context.hash payload = payloadChecksum
  Read bytes := bytes ∈ payloadsOf earlier actions
  Returned key bytes := (key, bytes) ∈ earlier ∨ Writes actions key bytes
  vouched _ payload hwritten := ⟨payload, hwritten, rfl, rfl⟩
  buffered _ _ hwritten := hwritten
  verified := by
    rintro key payloadLen bytes ⟨payload, hwritten, -, hhash⟩ hread
    have hpayload : payload ∈ payloadsOf earlier actions := by
      rcases hwritten with hearlier | ⟨id, routed, haction⟩
      · exact .inl ⟨key, hearlier⟩
      · exact .inr ⟨_, haction, List.mem_singleton_self payload⟩
    rw [hinjective hread hpayload hhash.symm]
    exact hwritten

/-- A lookup that returns bytes returns the payload of a write of its key, whatever reads from the
file return. -/
theorem hit_of_write (context : ShardContext) (read : ChunkReader) (disk : Disk)
    (shard : DiskCacheShard) (hshard : DiskCacheShard.recoverShard context read = .ok shard)
    (earlier : List (ObjectKeyHash × List UInt8))
    (hearlier : ∀ key entry, shard.entryIndex.entriesByKey.lookup key = some entry →
      ∃ payload, (key, payload) ∈ earlier ∧ payload.length = entry.payloadLen ∧
        context.hash payload = entry.payloadChecksum)
    (actions : List (CacheAction context))
    (hinjective : Set.InjOn context.hash (payloadsOf earlier actions))
    (state : CacheState context) (hrun : run step (opened shard ⟨disk, []⟩) actions = .ok state)
    (id : Nat) (key : ObjectKeyHash) (outcome : DiskLookupOutcome) (bytes : List UInt8)
    (capacity : Nat)
    (hhit : state.lookups.lookup id = some ⟨key, .finished outcome (some (bytes, capacity))⟩) :
    (key, bytes) ∈ earlier ∨ ∃ writer routed, .write writer key routed bytes ∈ actions := by
  have hopened : (opened shard ⟨disk, []⟩ : CacheState context).Sound
      (hitLedger earlier actions hinjective) := by
    refine .opened (fun key view hview => ?_) (by simp [publicationsOf])
    refine ⟨DiskCacheShard.recover_shard_unread hshard key view hview, ?_⟩
    obtain ⟨entry, hentry, rfl⟩ := Option.map_eq_some_iff.mp hview
    obtain ⟨payload, hpayload, hlength, hhash⟩ := hearlier key entry hentry
    exact ⟨payload, .inl hpayload, hlength, hhash⟩
  have hwrites : ∀ action ∈ actions, action.Writes (hitLedger earlier actions hinjective) := by
    rintro action haction id key routed bytes rfl
    exact .inr ⟨id, routed, haction⟩
  have hreads : ∀ action ∈ actions, action.Reads (hitLedger earlier actions hinjective) := by
    rintro action haction id bytes capacity rfl
    exact .inr ⟨_, haction, List.mem_singleton_self bytes⟩
  exact (run_follows hwrites hreads (.opened shard _) hopened hrun).sound.hits id _ outcome bytes
    capacity hhit rfl

/-- An action of the two flushed writes is one of them, or it has no payload. -/
theorem mem_flushed {action : CacheAction .tiny} (h : action ∈ twoWrites ++ flushActions 2 0 0) :
    action = .write 0 3 routes_three [7] ∨
      action = .write 1 5 routes_five [8] ∨ action.payloads = [] := by
  simp only [twoWrites, storeActions, flushActions, List.mem_append, List.mem_cons,
    List.not_mem_nil,
    or_false, List.mem_map] at h
  rcases h with ((rfl | rfl | rfl) | rfl | rfl | rfl) | ((rfl | rfl) | ⟨below, -, rfl⟩) | rfl
  · exact .inl rfl
  · exact .inr (.inr rfl)
  · exact .inr (.inr rfl)
  · exact .inr (.inl rfl)
  all_goals exact .inr (.inr rfl)

/-- Two writes are flushed, and the first one is read back from the file. -/
def flushedLookup : List (CacheAction .tiny) :=
  twoWrites ++ flushActions 2 0 0 ++ readActions 0 3 0 ++ [.read 0 (some ([7], 1))]

/-- Two writes, a flush, and a lookup that reads from the file. -/
theorem run_flushed_lookup :
    ∃ shard, ∃ state : CacheState .tiny,
      DiskCacheShard.recoverShard .tiny zeroReader = .ok shard ∧ shard.Fresh .tiny ∧
      run step (opened shard ⟨fun _ => Page.zero, []⟩) flushedLookup = .ok state ∧
      state.lookups.lookup 0 = some ⟨3, .finished .hit (some ([7], 1))⟩ := by
  obtain ⟨shard, flushed, entry, hshard, hfresh, hrun, -, -, hlength, hchecksum⟩ := run_flushed_read
  have hread := @step_read _ (flushed.reading 0 3 0 entry) 0 3 0 1 _ [7] (Finmap.lookup_insert _)
    (Finmap.lookup_insert _) hlength.symm
  rw [if_pos (by rw [hchecksum]; rfl)] at hread
  refine ⟨shard, (flushed.reading 0 3 0 entry).setResult 0 ⟨3, .reading 0⟩ 0
    ⟨entry.payloadLen, entry.payloadChecksum, entry.payloadAddress, none⟩ (.ok ([7], 1)),
    hshard, hfresh,
    ?_, Finmap.lookup_insert _⟩
  rw [flushedLookup, run_append, hrun, ok_bind, run, hread, ok_bind, run]

/-- The lookup of a flushed write. -/
theorem hit_of_write_flushed :
    ∃ shard, ∃ state : CacheState .tiny,
      DiskCacheShard.recoverShard .tiny zeroReader = .ok shard ∧
      run step (opened shard ⟨fun _ => Page.zero, []⟩) flushedLookup = .ok state ∧
      state.lookups.lookup 0 = some ⟨3, .finished .hit (some ([7], 1))⟩ ∧
      ((3, [7]) ∈ ([] : List (ObjectKeyHash × List UInt8)) ∨
        ∃ writer routed, .write writer 3 routed [7] ∈ flushedLookup) := by
  obtain ⟨shard, state, hshard, hfresh, hrun, hhit⟩ := run_flushed_lookup
  have hempty : ∀ key entry, shard.entryIndex.entriesByKey.lookup key = some entry →
      ∃ payload, (key, payload) ∈ ([] : List (ObjectKeyHash × List UInt8)) ∧
        payload.length = entry.payloadLen ∧
        ShardContext.tiny.hash payload = entry.payloadChecksum := by
    intro key entry hentry
    rw [hfresh.empty key] at hentry
    cases hentry
  have hpayloads : ∀ bytes ∈ payloadsOf [] flushedLookup, bytes = [7] ∨ bytes = [8] := by
    rintro bytes (⟨key, hkey⟩ | ⟨action, haction, hbytes⟩)
    · cases hkey
    · rw [flushedLookup, List.append_assoc] at haction
      rcases List.mem_append.mp haction with hflushed | hread
      · rcases mem_flushed hflushed with rfl | rfl | hnone
        · exact .inl (List.mem_singleton.mp hbytes)
        · exact .inr (List.mem_singleton.mp hbytes)
        · rw [hnone] at hbytes
          cases hbytes
      · simp only [readActions, List.cons_append, List.nil_append, List.mem_cons, List.not_mem_nil,
          or_false] at hread
        rcases hread with rfl | rfl | rfl | rfl | rfl
        all_goals first | cases hbytes; done | exact .inl (List.mem_singleton.mp hbytes)
  -- The checksum is the first byte, which tells the two payloads apart.
  have hinjective : Set.InjOn ShardContext.tiny.hash (payloadsOf [] flushedLookup) := by
    intro first hfirst second hsecond hsame
    rcases hpayloads first hfirst with rfl | rfl <;> rcases hpayloads second hsecond with rfl | rfl
    all_goals first | rfl | exact absurd hsame (by decide)
  exact ⟨shard, state, hshard, hrun, hhit, hit_of_write .tiny zeroReader (fun _ => Page.zero) shard
    hshard [] hempty flushedLookup hinjective state hrun 0 3 .hit [7] 1 hhit⟩

/-! ## Published entries -/

/-- The ledger of any session: what is written, whatever entries were recovered. -/
def writeLedger (actions : List (CacheAction context)) : Ledger context.hash where
  Written := Writes actions
  Vouched _ _ _ := True
  Read _ := True
  Returned _ _ := True
  vouched _ _ _ := trivial
  buffered _ _ _ := trivial
  verified _ _ _ _ _ := trivial

/-- A session of callers is a session of the shard below. -/
theorem session_readable {read : ChunkReader} (hfits : Representable context.hash read)
    {disk : Disk}
    {shard : DiskCacheShard} (hshard : DiskCacheShard.recoverShard context read = .ok shard)
    {actions : List (CacheAction context)} {state : CacheState context}
    (hrun : run step (opened shard ⟨disk, []⟩) actions = .ok state)
    (hkept : Undropped state.disk.calls) :
    state.Sound (writeLedger actions) ∧ state.disk.Consistent ∧
      state.disk.Readable := by
  have hopened : (opened shard ⟨disk, []⟩ : CacheState context).Sound (writeLedger actions) :=
    .opened (fun key view hview =>
      ⟨DiskCacheShard.recover_shard_unread hshard key view hview, trivial⟩)
        (by simp [publicationsOf])
  have hwrites : ∀ action ∈ actions, action.Writes (writeLedger actions) := by
    rintro action haction id key routed bytes rfl
    exact ⟨id, routed, haction⟩
  have hfollows := run_follows hwrites (fun _ _ _ _ _ _ => trivial) (.opened shard _) hopened hrun
  obtain ⟨below, hbelow⟩ := hfollows.descends
  have hrecover : ShardState.recover context read ⟨disk, []⟩ =
      .ok (ShardState.opened shard ⟨disk, []⟩) := by
    rw [ShardState.recover, hshard]
    rfl
  have hconsistent := (ShardState.recover_spec hfits ⟨disk, []⟩).of_ok hrecover
  refine ⟨hfollows.sound, ?_⟩
  exact ShardState.run_undropped_invariant (fun _ => True)
    (fun _ _ _ hstate _ hreadable _ hkept hstep => hreadable.step hstate hkept hstep) hconsistent
    (.opened shard disk) (fun _ _ => trivial) hbelow hkept

/-- An entry that the session has published stays readable while it is indexed: the file holds the
payload that was given to a write of its key, so that a read passes its checksum. The storage of
two such entries does not overlap, and no step writes a page of an indexed entry's storage. -/
theorem published_entry_readable (context : ShardContext) {read : ChunkReader}
    (hfits : Representable context.hash read) (disk : Disk) (shard : DiskCacheShard)
    (hshard : DiskCacheShard.recoverShard context read = .ok shard)
    (actions : List (CacheAction context)) (state : CacheState context)
    (hrun : run step (opened shard ⟨disk, []⟩) actions = .ok state)
    (hkept : Undropped state.disk.calls) :
    (∀ key record location found payload,
      state.disk.shard.entryIndex.placement? key = some (record, location) →
      newestPublication key state.disk.file.log = some (found, payload) →
        found = record ∧ (∃ id routed, .write id key routed payload ∈ actions) ∧
        Disk.bytes state.disk.file.disk record.payloadAddress record.payloadLen = payload ∧
        ∀ capacity, PayloadRead.verifyPayload context.hash
          ⟨record.payloadLen, record.payloadChecksum, record.payloadAddress, none⟩
          (some (Disk.bytes state.disk.file.disk record.payloadAddress record.payloadLen,
            capacity)) =
            .ok (payload, capacity)) ∧
    (∀ key other record second location place,
      state.disk.shard.entryIndex.placement? key = some (record, location) →
      state.disk.shard.entryIndex.placement? other = some (second, place) → key ≠ other →
      (newestPublication key state.disk.file.log).isSome →
      (newestPublication other state.disk.file.log).isSome →
        record.storage.stop ≤ second.storage.start ∨
          second.storage.stop ≤ record.storage.start) ∧
    ∀ action next page origin, state.disk.step action = .ok next →
      next.file.log = .wrote page origin :: state.disk.file.log →
      ∀ key record location, state.disk.shard.entryIndex.placement? key = some (record, location) →
        ∀ offset < payloadDiskBytes record.payloadLen,
          (record.payloadAddress + offset) / pageBytes ≠ page := by
  obtain ⟨hsound, hconsistent, hreadable⟩ := session_readable hfits hshard hrun hkept
  refine ⟨?_, hreadable.entries.apart, ?_⟩
  · intro key record location found payload hentry hnewest
    obtain ⟨hfound, hbytes, hchecksum⟩ :=
      hreadable.entries.newest key record location found payload hentry hnewest
    have hwritten := hsound.publications _ (List.mem_of_find?_eq_some hnewest)
    have hkey : found.key = key := by simpa using List.find?_some hnewest
    refine ⟨hfound, hkey ▸ hwritten, hbytes, fun capacity => ?_⟩
    rw [hbytes]
    exact if_neg (not_not.mpr hchecksum.symm)
  · intro action next page origin hstep hwrote key record location hentry
    have hspec := (ShardState.step_spec hconsistent action).of_ok hstep
    exact hspec.2.page_apart hconsistent hreadable.tracked hwrote hentry

/-- Two entries in one chunk, after the flush. -/
theorem published_entry_readable_flushed :
    ∃ shard, ∃ state : CacheState .tiny, ∃ record location second place,
      DiskCacheShard.recoverShard .tiny zeroReader = .ok shard ∧
      run step (opened shard ⟨fun _ => Page.zero, []⟩) (twoWrites ++ flushActions 2 0 0) =
        .ok state ∧
      state.disk.shard.entryIndex.placement? 3 = some (record, location) ∧
      state.disk.shard.entryIndex.placement? 5 = some (second, place) ∧
      Disk.bytes state.disk.file.disk record.payloadAddress record.payloadLen = [7] ∧
      (record.storage.stop ≤ second.storage.start ∨
        second.storage.stop ≤ record.storage.start) := by
  obtain ⟨shard, state, hshard, -, hrun, hflushed⟩ := run_flushed_pair
  obtain ⟨address, location, hthree, hnewest⟩ := hflushed.indexed ⟨3, 1, 7, 0⟩ (by
    rw [packed_batch_entries]
    exact List.mem_cons_self)
  obtain ⟨other, place, hfive, hpublished⟩ := hflushed.indexed ⟨5, 1, 8, payloadDiskBytes 1⟩ (by
    rw [packed_batch_entries]
    exact List.mem_cons_of_mem _ (List.mem_singleton_self _))
  obtain ⟨⟨found, payload⟩, hfound⟩ := Option.isSome_iff_exists.mp hnewest
  obtain ⟨hreadable, hapart, -⟩ := published_entry_readable .tiny (representable_zero_reader _)
    (fun _ => Page.zero) shard hshard (twoWrites ++ flushActions 2 0 0) state hrun
    hflushed.undropped
  obtain ⟨-, ⟨writer, routed, hwrite⟩, hbytes, -⟩ :=
    hreadable 3 _ location found payload hthree hfound
  -- The key has one write in the run.
  have hpayload : payload = [7] := by
    rcases mem_flushed hwrite with heq | heq | hnone
    · cases heq
      rfl
    · cases heq
    · cases hnone
  exact ⟨shard, state, _, location, _, place, hshard, hrun, hthree, hfive, hpayload ▸ hbytes,
    hapart 3 5 _ _ location place hthree hfive (by decide) hnewest hpublished⟩

end CacheState

end Feuer.Storage
