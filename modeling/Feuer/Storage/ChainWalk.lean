import Feuer.Storage.RecoveryLemmas

/-!
# What the walk loads

A chain of usable chunks starts at the first chunk of the shard and follows valid link pages through
distinct chunks of the shard that can be read and are not all zero. Each chunk has one link, so one
of two such chains is the beginning of the other, and the walk returns the longest one. It reads
each of its chunks once.
-/

namespace Feuer.Storage

open Lib

/-- The number of a metadata chunk. -/
def MetadataChunk.number (chunk : MetadataChunk) : Nat := chunk.reservedChunk.chunkNumbers.start

/-- The address that the link page of a chunk holds, if the chunk can be read and the page is
valid. -/
def linkOf (hash : List UInt8 → UInt64) (read : ChunkReader) (number : Nat) : Option Nat :=
  (read number).bind fun bytes => decodeLink hash (bytes entryMetadataPagesPerChunk)

/-- Chunks that a walk can load one after the other. -/
structure ValidChain (context : ShardContext) (read : ChunkReader) (numbers : List Nat) : Prop where
  first : ∀ number, numbers[0]? = some number → number = context.chunks.start
  inside : ∀ number ∈ numbers, context.chunks.start ≤ number ∧ number < context.chunks.stop
  distinct : numbers.Nodup
  usable : ∀ number ∈ numbers, ∃ bytes, read number = some bytes ∧ ¬bytes.IsZero
  linked : ∀ (index number next : Nat), numbers[index]? = some number →
    numbers[index + 1]? = some next → linkOf context.hash read number = some (next * chunkBytes)

variable {context : ShardContext} {read : ChunkReader} {loaded : LoadedChain}

/-! ## The loaded chunks -/

namespace Ended

/-- A loaded chunk is what its number reads as, and its link page names the next one. -/
theorem chunk_of_number (h : Ended context read loaded) {index : Nat} {chunk : MetadataChunk}
    (hchunk : loaded.chunks[index]? = some chunk) :
    ∃ bytes, read chunk.number = some bytes ∧ ¬bytes.IsZero ∧
      chunk = MetadataChunk.decode context.hash ⟨⟨chunk.number, chunk.number + 1⟩, true⟩ bytes ∧
      chunk.address = chunk.number * chunkBytes ∧
      (∀ next, loaded.chunks[index + 1]? = some next →
        linkOf context.hash read chunk.number = some next.address) ∧
      (loaded.chunks[index + 1]? = none →
        linkOf context.hash read chunk.number = some loaded.address ∨
          linkOf context.hash read chunk.number = none ∧ loaded.address ≠ noChunk) := by
  obtain ⟨link, ⟨number, bytes, hread, hnonzero, rfl, hlink⟩, hnext, hlast⟩ := h.chunk hchunk
  have hnumber : linkOf context.hash read number = link := by
    rw [linkOf, hread, Option.bind_some, hlink]
  refine ⟨bytes, hread, hnonzero, rfl, rfl, fun next hfound => ?_, fun hnone => ?_⟩
  · exact hnumber.trans (hnext next hfound)
  · change linkOf context.hash read number = _ ∨ linkOf context.hash read number = none ∧ _
    rw [hnumber]
    exact hlast hnone

/-- Each loaded chunk occupies its own number. -/
theorem owned_by_eq (h : Ended context read loaded) (number : Nat) :
    ownedBy loaded.chunks number = (loaded.chunks.map MetadataChunk.number).count number := by
  have hcovers : ∀ chunk ∈ loaded.chunks, chunk.reservedChunk.chunkNumbers.covers number =
      if chunk.number = number then 1 else 0 := by
    intro chunk hmem
    obtain ⟨index, hindex⟩ := List.mem_iff_getElem?.mp hmem
    obtain ⟨bytes, -, -, hdecoded, -⟩ := h.chunk_of_number hindex
    have hreserved := congrArg MetadataChunk.reservedChunk hdecoded
    rw [hreserved]
    show (if chunk.number ≤ number ∧ number < chunk.number + 1 then 1 else 0) = _
    split <;> split <;> omega
  rw [ownedBy, List.map_congr_left hcovers]
  clear hcovers
  induction loaded.chunks with
  | nil => rfl
  | cons chunk rest ih => simp [ih, List.count_cons, Nat.add_comm]

/-- Exactly the chunks of the shard that were not loaded are free. -/
theorem free_eq (h : Ended context read loaded) (number : Nat) :
    loaded.allocator.free.owned number +
      (loaded.chunks.map MetadataChunk.number).count number = context.chunks.covers number := by
  have hpartition := h.toLoaded.accounts.partition number
  have hpayload : loaded.allocator.payloadOwned number = 0 := by
    rw [DiskChunkAllocator.payloadOwned, h.toLoaded.unused]
    rfl
  rw [h.owned_by_eq, hpayload] at hpartition
  exact hpartition

theorem numbers_get {index number : Nat}
    (hnumber : (loaded.chunks.map MetadataChunk.number)[index]? = some number) :
    ∃ chunk, loaded.chunks[index]? = some chunk ∧ chunk.number = number := by
  rw [List.getElem?_map] at hnumber
  exact Option.map_eq_some_iff.mp hnumber

/-- The loaded chunks are such a chain. -/
theorem valid (h : Ended context read loaded) :
    ValidChain context read (loaded.chunks.map MetadataChunk.number) := by
  refine ⟨fun number hnumber => ?_, fun number hnumber => ?_, ?_, fun number hnumber => ?_,
    fun index number next hnumber hnext => ?_⟩
  · obtain ⟨chunk, hchunk, rfl⟩ := numbers_get hnumber
    obtain ⟨-, -, -, -, haddress, -⟩ := h.chunk_of_number hchunk
    have hfirst := h.first hchunk
    rw [haddress, context.disk_range_eq] at hfirst
    exact Nat.eq_of_mul_eq_mul_right chunk_bytes_pos hfirst
  · have hfree := h.free_eq number
    have hcount := List.count_pos_iff.mpr hnumber
    exact Range.covers_pos_iff.mp (by omega)
  · refine List.nodup_iff_count_le_one.mpr fun number => ?_
    have hfree := h.free_eq number
    have hone := context.chunks.covers_le_one number
    omega
  · obtain ⟨chunk, hmem, rfl⟩ := List.mem_map.mp hnumber
    obtain ⟨index, hindex⟩ := List.mem_iff_getElem?.mp hmem
    obtain ⟨bytes, hread, hnonzero, -⟩ := h.chunk_of_number hindex
    exact ⟨bytes, hread, hnonzero⟩
  · obtain ⟨chunk, hchunk, rfl⟩ := numbers_get hnumber
    obtain ⟨later, hlater, rfl⟩ := numbers_get hnext
    obtain ⟨-, -, -, -, -, hlink, -⟩ := h.chunk_of_number hchunk
    obtain ⟨-, -, -, -, haddress, -⟩ := h.chunk_of_number hlater
    rw [hlink later hlater, haddress]

/-- A chain that agrees with the loaded one up to its end does not go on behind it. -/
theorem not_longer (h : Ended context read loaded) {numbers : List Nat}
    (hvalid : ValidChain context read numbers) {number : Nat}
    (hagrees : ∀ index < loaded.chunks.length,
      numbers[index]? = (loaded.chunks.map MetadataChunk.number)[index]?)
    (hnumber : numbers[loaded.chunks.length]? = some number) : False := by
  have hmem : number ∈ numbers := List.mem_of_getElem? hnumber
  obtain ⟨bytes, hread, hnonzero⟩ := hvalid.usable number hmem
  -- The chunk is free: the chain has come by all loaded chunks before.
  have hfresh : number ∉ loaded.chunks.map MetadataChunk.number := by
    intro hloaded
    obtain ⟨index, hindex⟩ := List.mem_iff_getElem?.mp hloaded
    have hlt : index < loaded.chunks.length := by
      simpa using (List.getElem?_eq_some_iff.mp hindex).1
    have hsame := (hagrees index hlt).trans hindex
    obtain ⟨hbound, heq⟩ := List.getElem?_eq_some_iff.mp hsame
    obtain ⟨hbound', heq'⟩ := List.getElem?_eq_some_iff.mp hnumber
    have hindexes := (List.Nodup.getElem_inj_iff hvalid.distinct).mp (heq.trans heq'.symm)
    omega
  have hfree : loaded.allocator.free.owned number = 1 := by
    obtain ⟨hstart, hstop⟩ := hvalid.inside number hmem
    have heq := h.free_eq number
    rw [List.count_eq_zero_of_not_mem hfresh, Range.covers_of_mem hstart hstop] at heq
    exact heq
  -- So the walk would have gone on, if it had come to its address.
  have hvisited : loaded.address ≠ number * chunkBytes := by
    intro haddress
    have hdiv : loaded.address / chunkBytes = number := by
      rw [haddress, Nat.mul_div_cancel _ chunk_bytes_pos]
    cases h with
    | address hwalked hend =>
        rcases hend with hno | hunaligned | htaken | hunusable
        · rw [haddress] at hno
          have hmod := congrArg (· % chunkBytes) hno
          simp only [Nat.mul_mod_left] at hmod
          exact absurd hmod (by decide)
        · exact hunaligned (by rw [haddress, Nat.mul_mod_left])
        · rw [hdiv, hfree] at htaken
          cases htaken
        · exact hnonzero (hunusable bytes (hdiv ▸ hread))
    | link chunks last hchunks hloaded hlast hfirst hlinks hloadedLast =>
        apply hfresh
        rw [hchunks, List.map_append, List.mem_append]
        refine .inr (List.mem_singleton.mpr ?_)
        obtain ⟨found, foundBytes, -, -, rfl, -⟩ := hloadedLast
        have hsame : found * chunkBytes = number * chunkBytes := hlast.2.trans haddress
        exact (Nat.eq_of_mul_eq_mul_right chunk_bytes_pos hsame).symm
  rcases Nat.eq_zero_or_pos loaded.chunks.length with hempty | hpos
  · -- Nothing was loaded, so the walk ended at the first chunk.
    rw [hempty] at hnumber
    have hfirst := hvalid.first number hnumber
    have hnil := List.length_eq_zero_iff.mp hempty
    cases h with
    | address hwalked hend =>
        have hstart := hwalked.first
        rw [hnil, address_or_nil, context.disk_range_eq] at hstart
        exact hvisited (hstart.trans (congrArg (· * chunkBytes) hfirst.symm))
    | link chunks last hchunks =>
        rw [hnil] at hchunks
        exact absurd hchunks.symm (by simp)
  · have hlast : loaded.chunks.length - 1 + 1 = loaded.chunks.length := by omega
    obtain ⟨chunk, hchunk⟩ : ∃ chunk, loaded.chunks[loaded.chunks.length - 1]? = some chunk :=
      ⟨_, List.getElem?_eq_getElem (by omega)⟩
    have hbefore : numbers[loaded.chunks.length - 1]? = some chunk.number := by
      rw [hagrees _ (by omega), List.getElem?_map, hchunk, Option.map_some]
    have hlink := hvalid.linked _ _ _ hbefore (hlast ▸ hnumber)
    obtain ⟨-, -, -, -, -, -, hend⟩ := h.chunk_of_number hchunk
    rcases hend (by rw [hlast, List.getElem?_eq_none le_rfl]) with haddress | ⟨hnone, -⟩
    · rw [haddress, Option.some.injEq] at hlink
      exact hvisited hlink
    · rw [hnone] at hlink
      cases hlink

/-- Every such chain is the beginning of the loaded one. -/
theorem maximal (h : Ended context read loaded) {numbers : List Nat}
    (hvalid : ValidChain context read numbers) :
    numbers <+: loaded.chunks.map MetadataChunk.number := by
  have hloaded := h.valid
  have hagrees : ∀ index < numbers.length,
      numbers[index]? = (loaded.chunks.map MetadataChunk.number)[index]? := by
    intro index
    induction index using Nat.strong_induction_on with
    | _ index ih =>
        intro hindex
        have hlt : index < loaded.chunks.length := by
          by_contra hge
          exact h.not_longer hvalid (fun before hbefore => ih before (by omega) (by omega))
            (List.getElem?_eq_getElem (by omega))
        obtain ⟨chunk, hchunk⟩ : ∃ chunk, loaded.chunks[index]? = some chunk :=
          ⟨_, List.getElem?_eq_getElem hlt⟩
        have hnumber : (loaded.chunks.map MetadataChunk.number)[index]? = some chunk.number := by
          rw [List.getElem?_map, hchunk, Option.map_some]
        have hother := List.getElem?_eq_getElem hindex
        rw [hother, hnumber]
        refine congrArg some ?_
        cases index with
        | zero => rw [hvalid.first _ hother, hloaded.first _ hnumber]
        | succ before =>
            -- The link of the chunk before is the address of both.
            have hsame := ih before (Nat.lt_succ_self _) (by omega)
            have hbefore := List.getElem?_eq_getElem (show before < numbers.length by omega)
            have hlink := hvalid.linked before _ _ hbefore hother
            have hlink' := hloaded.linked before _ _ (hsame ▸ hbefore) hnumber
            rw [hlink, Option.some.injEq] at hlink'
            exact Nat.eq_of_mul_eq_mul_right chunk_bytes_pos hlink'
  refine List.prefix_iff_getElem?.mpr fun index hindex => ?_
  rw [← hagrees index hindex]
  exact List.getElem?_eq_getElem hindex

end Ended

/-! ## The reads -/

variable {allocator : DiskChunkAllocator} {chunks : List MetadataChunk} {address : Nat}

/-- A chunk that was read in vain is a free chunk of the shard. -/
theorem Loaded.free_of_drop (h : Loaded context allocator chunks) {number : Nat}
    {taken : DiskChunkAllocator} {reserved : ReservedChunks}
    (hreserve : allocator.reserveChunksAt number 1 = some (taken, reserved)) :
    0 < (taken.drop reserved).free.owned number := by
  obtain ⟨-, -, -, haccounts⟩ := h.reserve hreserve
  have hbefore := haccounts.partition number
  have hafter := (h.drop hreserve).accounts.partition number
  have hself : Range.covers ⟨number, number + 1⟩ number = 1 :=
    Range.covers_of_mem le_rfl (Nat.lt_succ_self number)
  have hunused : (taken.drop reserved).payloadOwned number = 0 := by
    rw [DiskChunkAllocator.payloadOwned, (h.drop hreserve).unused]
    rfl
  have hunused' : taken.payloadOwned number = 0 := hunused
  omega

/-- The walk reads the chunks that it loads, and possibly the free chunk where it ends. -/
theorem walk_reads_spec (h : Walked context read allocator chunks address) {reads : List Nat}
    (hreads : reads = chunks.map MetadataChunk.address) :
    let loaded := walkChain context.hash read allocator chunks reads address
    loaded.reads = loaded.chunks.map MetadataChunk.address ∨
      loaded.reads = loaded.chunks.map MetadataChunk.address ++ [loaded.address] ∧
      loaded.address % chunkBytes = 0 ∧
      0 < loaded.allocator.free.owned (loaded.address / chunkBytes) := by
  intro loaded
  subst loaded
  fun_induction walkChain context.hash read allocator chunks reads address with
  | case1 | case6 => exact .inl hreads
  | case2 allocator chunks reads address hvisit taken reserved hreserve
  | case3 allocator chunks reads address hvisit taken reserved hreserve =>
      exact .inr ⟨congrArg (· ++ [address]) hreads, hvisit.2, h.toLoaded.free_of_drop hreserve⟩
  | case4 allocator chunks reads address hvisit taken reserved hreserve seen bytes hread
      hzero marked
      loaded next hlink ih =>
      obtain ⟨haddress, -⟩ := h.visit hvisit.2 hreserve hread hzero hlink
      refine ih (h.follow hvisit.2 hreserve hread hzero hlink) ?_
      rw [List.map_append, List.map_singleton, haddress, ← hreads]
  | case5 allocator chunks reads address hvisit taken reserved hreserve seen bytes hread
      hzero marked
      loaded hlink =>
      obtain ⟨haddress, -⟩ := h.visit hvisit.2 hreserve hread hzero hlink
      refine .inl ?_
      rw [List.map_append, List.map_singleton, haddress, ← hreads]

/-- Recovery reads different chunks of the shard. -/
theorem chain_reads_spec (context : ShardContext) (read : ChunkReader) :
    ∃ numbers : List Nat, (chainOf context read).reads = numbers.map (· * chunkBytes) ∧
      numbers.Nodup ∧
      ∀ number ∈ numbers, context.chunks.start ≤ number ∧ number < context.chunks.stop := by
  have hended := chain_of_ended context read
  have hvalid := hended.valid
  have hmore : (chainOf context read).chunks.map MetadataChunk.address =
      ((chainOf context read).chunks.map MetadataChunk.number).map (· * chunkBytes) := by
    rw [List.map_map]
    rfl
  have hspec := @walk_reads_spec _ _ _ _ _ (walked_start context read) [] rfl
  simp only [← chainOf.eq_1] at hspec
  rcases hspec with hreads | ⟨hreads, haligned, hfree⟩
  · exact ⟨_, hreads.trans hmore, hvalid.distinct, hvalid.inside⟩
  · have hsplit := hended.free_eq ((chainOf context read).address / chunkBytes)
    have hone := context.chunks.covers_le_one ((chainOf context read).address / chunkBytes)
    refine ⟨(chainOf context read).chunks.map MetadataChunk.number ++
      [(chainOf context read).address / chunkBytes], ?_, ?_, fun number hnumber => ?_⟩
    · refine hreads.trans ?_
      rw [List.map_append, List.map_singleton, ← hmore,
        Nat.div_mul_cancel (Nat.dvd_of_mod_eq_zero haligned)]
    · refine List.Nodup.append hvalid.distinct (List.nodup_singleton _) ?_
      intro number hmem hlast
      rw [List.mem_singleton] at hlast
      subst hlast
      have hcount := List.count_pos_iff.mpr hmem
      omega
    · rcases List.mem_append.mp hnumber with hmem | hlast
      · exact hvalid.inside number hmem
      · rw [List.mem_singleton] at hlast
        subst hlast
        exact Range.covers_pos_iff.mp (by omega)

/-! ## The loaded shard -/

/-- The chunk numbers of the metadata chain in memory. -/
def DiskCacheShard.chainNumbers (shard : DiskCacheShard) : List Nat :=
  shard.metadataPages.chunks.map MetadataChunk.number

/-- The shard holds the longest usable chain of the file, with a repaired last link. -/
structure ChainLoaded (context : ShardContext) (read : ChunkReader) (shard : DiskCacheShard) :
    Prop where
  valid : ValidChain context read shard.chainNumbers
  maximal : ∀ numbers, ValidChain context read numbers → numbers <+: shard.chainNumbers
  decoded : ∀ chunk ∈ shard.metadataPages.chunks, ∃ bytes, read chunk.number = some bytes ∧
    chunk.entries = decodeSlots context.hash bytes
  linked : ∀ (index : Nat) (chunk : MetadataChunk),
    shard.metadataPages.chunks[index]? = some chunk →
      (∀ next, shard.metadataPages.chunks[index + 1]? = some next →
        chunk.nextChunkAddress = next.number * chunkBytes) ∧
      (shard.metadataPages.chunks[index + 1]? = none → chunk.nextChunkAddress = noChunk)
  dirty : ∀ page, page ∈ shard.metadataPages.dirtyPages ↔
    ∃ last, shard.chainNumbers.getLast? = some last ∧
      linkOf context.hash read last ≠ some noChunk ∧
      page = ⟨shard.chainNumbers.length - 1, entryMetadataPagesPerChunk⟩
  reserved : ∀ chunk ∈ shard.metadataPages.chunks,
    chunk.reservedChunk = ⟨⟨chunk.number, chunk.number + 1⟩, true⟩
  free : ∀ number, shard.allocator.free.owned number =
    if (context.chunks.start ≤ number ∧ number < context.chunks.stop) ∧
      number ∉ shard.chainNumbers then 1 else 0
  unused : shard.allocator.payloadChunks = ∅

namespace Repaired

variable {metadata : MetadataChunks}

/-- The chunk in memory at the position of a loaded chunk. -/
theorem chunk_eq (h : Repaired loaded metadata) {index : Nat} {chunk : MetadataChunk}
    (hchunk : metadata.chunks[index]? = some chunk) :
    ∃ before, loaded.chunks[index]? = some before ∧ chunk =
      { before with nextChunkAddress := addressOr loaded.chunks noChunk (index + 1) } := by
  rw [h.get index, Option.map_eq_some_iff] at hchunk
  obtain ⟨before, hbefore, rfl⟩ := hchunk
  exact ⟨before, hbefore, rfl⟩

theorem numbers_eq (h : Repaired loaded metadata) :
    metadata.chunks.map MetadataChunk.number = loaded.chunks.map MetadataChunk.number := by
  refine List.ext_getElem? fun index => ?_
  rw [List.getElem?_map, List.getElem?_map, h.get index, Option.map_map]
  rfl

/-- The last link page is marked when the link on disk does not end the chain. -/
theorem dirty_iff (h : Repaired loaded metadata) (hended : Ended context read loaded)
    (page : MetadataPageLocation) :
    page ∈ metadata.dirtyPages ↔
      ∃ last, (loaded.chunks.map MetadataChunk.number).getLast? = some last ∧
        linkOf context.hash read last ≠ some noChunk ∧
        page = ⟨(loaded.chunks.map MetadataChunk.number).length - 1,
          entryMetadataPagesPerChunk⟩ := by
  rw [h.dirty, List.length_map]
  rcases List.eq_nil_or_concat loaded.chunks with hnil | ⟨before, chunk, hchunks⟩
  · simp [hnil]
  · rw [List.concat_eq_append] at hchunks
    have hchunk : loaded.chunks[before.length]? = some chunk := by
      rw [hchunks, List.getElem?_concat_length]
    have hbehind : loaded.chunks[before.length + 1]? = none := by
      rw [hchunks, List.getElem?_eq_none (by simp)]
    have hlast : (loaded.chunks.map MetadataChunk.number).getLast? = some chunk.number := by
      rw [hchunks, List.map_append, List.map_singleton, List.getLast?_concat]
    have hlink : loaded.address ≠ noChunk ↔
        linkOf context.hash read chunk.number ≠ some noChunk := by
      obtain ⟨-, -, -, -, -, -, hend⟩ := hended.chunk_of_number hchunk
      rcases hend hbehind with hsome | ⟨hnone, haddress⟩
      · rw [hsome, ne_eq, ne_eq, Option.some.injEq]
      · rw [hnone]
        exact iff_of_true haddress nofun
    have hne : loaded.chunks ≠ [] := by simp [hchunks]
    rw [hlast]
    constructor
    · rintro ⟨haddress, -, hpage⟩
      exact ⟨_, rfl, hlink.mp haddress, hpage⟩
    · rintro ⟨last, hsome, hrepair, hpage⟩
      cases hsome
      exact ⟨hlink.mpr hrepair, hne, hpage⟩

end Repaired

/-- A shard that took over the walk's reservations and its repaired chunks. -/
theorem Ended.chain_loaded (hended : Ended context read loaded) {metadata : MetadataChunks}
    (hrepaired : Repaired loaded metadata) (index : DiskEntryIndex) :
    ChainLoaded context read ⟨loaded.allocator, index, metadata⟩ := by
  generalize hshard : DiskCacheShard.mk loaded.allocator index metadata = shard
  obtain rfl : shard.metadataPages = metadata := by rw [← hshard]
  have hallocator : shard.allocator = loaded.allocator := by rw [← hshard]
  have hnumbers : shard.chainNumbers = loaded.chunks.map MetadataChunk.number :=
    hrepaired.numbers_eq
  have hvalid : ValidChain context read shard.chainNumbers := hnumbers ▸ hended.valid
  refine ⟨hvalid, fun numbers hother => hnumbers ▸ hended.maximal hother, fun chunk hmem => ?_,
    fun index chunk hchunk => ?_, fun page => hnumbers ▸ hrepaired.dirty_iff hended page,
    fun chunk hmem => ?_, fun number => ?_, hallocator ▸ hended.toLoaded.unused⟩
  · obtain ⟨index, hchunk⟩ := List.mem_iff_getElem?.mp hmem
    obtain ⟨before, hbefore, rfl⟩ := hrepaired.chunk_eq hchunk
    obtain ⟨bytes, hread, -, hdecoded, -⟩ := hended.chunk_of_number hbefore
    exact ⟨bytes, hread, congrArg MetadataChunk.entries hdecoded⟩
  · obtain ⟨before, hbefore, rfl⟩ := hrepaired.chunk_eq hchunk
    refine ⟨fun next hnext => ?_, fun hnone => ?_⟩
    · obtain ⟨later, hlater, rfl⟩ := hrepaired.chunk_eq hnext
      obtain ⟨-, -, -, -, haddress, -⟩ := hended.chunk_of_number hlater
      show addressOr _ _ _ = _
      rw [addressOr, hlater]
      exact haddress
    · rw [hrepaired.get, Option.map_eq_none_iff] at hnone
      show addressOr _ _ _ = _
      rw [addressOr, hnone]
      rfl
  · obtain ⟨index, hchunk⟩ := List.mem_iff_getElem?.mp hmem
    obtain ⟨before, hbefore, rfl⟩ := hrepaired.chunk_eq hchunk
    obtain ⟨bytes, -, -, hdecoded, -⟩ := hended.chunk_of_number hbefore
    exact congrArg MetadataChunk.reservedChunk hdecoded
  · have hsplit := hended.free_eq number
    rw [← hallocator, ← hnumbers] at hsplit
    by_cases hmem : number ∈ shard.chainNumbers
    · have hcount := List.count_pos_iff.mpr hmem
      have hone := context.chunks.covers_le_one number
      rw [if_neg (fun h => h.2 hmem)]
      omega
    · rw [List.count_eq_zero_of_not_mem hmem, Nat.add_zero] at hsplit
      rw [hsplit, Range.covers]
      simp only [hmem, not_false_eq_true, and_true]

/-- Loading the metadata chain, for every content of the file and every pattern of failing reads.
The walk reads each chunk of the shard at most once and returns the longest usable chain. -/
theorem DiskCacheShard.load_metadata_chain_longest (context : ShardContext) (read : ChunkReader) :
    (∀ address ∈ (chainOf context read).reads, address % chunkBytes = 0 ∧
      context.diskRange.start ≤ address ∧ address + chunkBytes ≤ context.diskRange.stop) ∧
    (chainOf context read).reads.Nodup ∧
    Outcome (Panic.Unindexable context.chunkCount) (ChainLoaded context read)
      ((new context).loadMetadataChain context.hash read context.diskRange.start) := by
  obtain ⟨numbers, hreads, hdistinct, hinside⟩ := chain_reads_spec context read
  have hended := chain_of_ended context read
  refine ⟨fun address haddress => ?_, ?_, ?_⟩
  · rw [hreads] at haddress
    obtain ⟨number, hnumber, rfl⟩ := List.mem_map.mp haddress
    obtain ⟨hstart, hstop⟩ := hinside number hnumber
    rw [context.disk_range_eq]
    refine ⟨Nat.mul_mod_left _ _, Nat.mul_le_mul_right _ hstart, ?_⟩
    dsimp only
    rw [← Nat.succ_mul]
    exact Nat.mul_le_mul_right _ hstop
  · rw [hreads]
    exact hdistinct.map fun first second hsame =>
      Nat.eq_of_mul_eq_mul_right chunk_bytes_pos hsame
  · refine (load_metadata_chain_spec context read).mono fun shard hshard => ?_
    obtain ⟨metadata, hrepaired, rfl⟩ := hshard
    exact hended.chain_loaded hrepaired _

end Feuer.Storage
