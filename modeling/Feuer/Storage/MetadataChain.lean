import Feuer.Storage.MetadataLemmas

/-!
# The chain of metadata chunks: growth and page changes

A growth links the last chunk to a new one. `Linked` is what the links say, `owned` which chunk
numbers the chain occupies. `Evolves` is what every change of the in-memory metadata outside a
write round amounts to for the disk: chunks stay, new chunks come last and still have to be
written in full, and every page whose contents differ is marked.
-/

namespace Feuer.Storage

open Lib

/-- Two versions of a metadata chunk agree on the contents of a page. -/
def MetadataChunk.SamePage (before after : MetadataChunk) (pageIndex : Nat) : Prop :=
  if pageIndex = entryMetadataPagesPerChunk then
    after.nextChunkAddress = before.nextChunkAddress
  else
    ∀ index : Fin entriesPerMetadataChunk, index.val / entriesPerMetadataPage = pageIndex →
      after.entries index = before.entries index

theorem MetadataChunk.SamePage.refl (chunk : MetadataChunk) (pageIndex : Nat) :
    chunk.SamePage chunk pageIndex := by
  unfold SamePage
  split
  · rfl
  · intro _ _
    rfl

theorem MetadataChunk.SamePage.trans {first second third : MetadataChunk} {pageIndex : Nat}
    (hfirst : first.SamePage second pageIndex) (hsecond : second.SamePage third pageIndex) :
    first.SamePage third pageIndex := by
  unfold SamePage at *
  split
  · simp_all
  · simp_all

namespace MetadataChunks

variable {metadata middle after : MetadataChunks} {location : EntryMetadataLocation}
  {reserved : ReservedChunks}

/-- The number of metadata chunks that occupy a chunk number. -/
def owned (metadata : MetadataChunks) (chunk : Nat) : Nat :=
  (metadata.chunks.map fun link => link.reservedChunk.chunkNumbers.covers chunk).sum

/-- The disk address of the chunk at a position of the chain, `noChunk` behind its end. -/
def addressAt (metadata : MetadataChunks) (index : Nat) : Nat :=
  match metadata.chunks[index]? with
  | some chunk => chunk.reservedChunk.diskByteRange.start
  | none => noChunk

/-- Every chunk's link is the address of the next chunk of the chain. -/
def Linked (metadata : MetadataChunks) : Prop :=
  ∀ index chunk, metadata.chunks[index]? = some chunk →
    chunk.nextChunkAddress = metadata.addressAt (index + 1)

/-- Every metadata chunk counts towards the owners of its chunk number. -/
theorem covers_le_owned {link : MetadataChunk} (hlink : link ∈ metadata.chunks) (chunk : Nat) :
    link.reservedChunk.chunkNumbers.covers chunk ≤ metadata.owned chunk :=
  List.single_le_sum (fun _ _ => Nat.zero_le _) _ (List.mem_map.mpr ⟨link, hlink, rfl⟩)

/-! ## What slot changes leave alone -/

/-- Metadata with the same layout has a chunk with the same reservation, link, and flag at
every position. -/
theorem chunk_of_layout (h : after.layout = metadata.layout) {index : Nat} {chunk : MetadataChunk}
    (hchunk : metadata.chunks[index]? = some chunk) :
    ∃ same, after.chunks[index]? = some same ∧ same.reservedChunk = chunk.reservedChunk ∧
      same.nextChunkAddress = chunk.nextChunkAddress ∧
      same.needsFullWrite = chunk.needsFullWrite := by
  have hget : (after.layout)[index]? = (metadata.layout)[index]? := by rw [h]
  simp only [layout, List.getElem?_map, hchunk, Option.map_some, Option.map_eq_some_iff,
    Prod.mk.injEq] at hget
  obtain ⟨same, hsame, hreserved, hlink, hflag⟩ := hget
  exact ⟨same, hsame, hreserved, hlink, hflag⟩

theorem owned_of_layout (h : after.layout = metadata.layout) (chunk : Nat) :
    after.owned chunk = metadata.owned chunk := by
  have hmap := congrArg (List.map fun item => item.1.chunkNumbers.covers chunk) h
  simp only [layout, List.map_map] at hmap
  exact congrArg List.sum hmap

theorem address_at_of_layout (h : after.layout = metadata.layout) (index : Nat) :
    after.addressAt index = metadata.addressAt index := by
  unfold addressAt
  cases hchunk : metadata.chunks[index]? with
  | some chunk =>
      obtain ⟨same, hsame, hreserved, -, -⟩ := chunk_of_layout h hchunk
      simp only [hsame, hreserved]
  | none =>
      cases hother : after.chunks[index]? with
      | none => rfl
      | some chunk =>
          obtain ⟨same, hsame, -⟩ := chunk_of_layout h.symm hother
          rw [hchunk] at hsame
          cases hsame

theorem Linked.of_layout (hlinked : metadata.Linked) (h : after.layout = metadata.layout) :
    after.Linked := by
  intro index chunk hchunk
  obtain ⟨same, hsame, -, hlink, -⟩ := chunk_of_layout h.symm hchunk
  rw [address_at_of_layout h, ← hlink]
  exact hlinked index same hsame

/-! ## Growth -/

/-- `after` has a new chunk behind the last one of `metadata`. -/
structure Grown (metadata : MetadataChunks) (reserved : ReservedChunks) (after : MetadataChunks) :
    Prop where
  chunks : after.chunks =
    metadata.chunks.modify (metadata.chunks.length - 1)
      (fun chunk => { chunk with nextChunkAddress := reserved.diskByteRange.start }) ++
      [MetadataChunk.new reserved]
  dirty : ∀ page, page ∈ after.dirtyPages ↔ page ∈ metadata.dirtyPages ∨
    page = ⟨metadata.chunks.length, entryMetadataPagesPerChunk⟩ ∨
    metadata.chunks ≠ [] ∧ page = ⟨metadata.chunks.length - 1, entryMetadataPagesPerChunk⟩
  search : after.freeSlotSearchStart = metadata.freeSlotSearchStart
  count : after.freeSlotCount = metadata.freeSlotCount + entriesPerMetadataChunk

/-- The outcomes of `ensure_free_slots`: no free chunk, nothing to do, a growth, or more chunks
than a `u32` can index. -/
theorem ensure_free_slots_cases {count : Nat} {allocator : DiskChunkAllocator}
    {result : Except Panic (Option (MetadataChunks × DiskChunkAllocator))}
    (h : metadata.ensureFreeSlots count allocator = result) :
    metadata.freeSlotCount < count ∧ allocator.reserveChunks 1 = none ∧ result = .ok none ∨
    count ≤ metadata.freeSlotCount ∧ result = .ok (some (metadata, allocator)) ∨
    (∃ after taken reserved, metadata.freeSlotCount < count ∧
      allocator.reserveChunks 1 = some (taken, reserved) ∧ metadata.Grown reserved after ∧
      result = .ok (some (after, taken))) ∨
    (∃ taken reserved, allocator.reserveChunks 1 = some (taken, reserved) ∧
      2 ^ 32 ≤ metadata.chunks.length ∧ result = .error .tryFromInt) := by
  subst h
  unfold ensureFreeSlots
  split
  next hfew =>
    split
    next hnone => exact Or.inl ⟨hfew, hnone, rfl⟩
    next taken reserved hreserve =>
      right; right
      unfold setLastChunkLink
      split
      next hempty =>
        have hfits : (metadata.chunks ++ [MetadataChunk.new reserved]).length - 1 < 2 ^ 32 := by
          simp [hempty]
        simp only [markLinkPageDirty, ok_bind, hfits, if_true]
        refine Or.inl ⟨_, taken, reserved, hfew, hreserve, ?_, rfl⟩
        refine ⟨by simp [hempty], fun page => ?_, rfl, rfl⟩
        simp [hempty, or_comm]
      next hsome =>
        simp only [markLinkPageDirty]
        split
        next hfits =>
          simp only [ok_bind, List.length_append, List.length_modify, List.length_singleton,
            Nat.add_sub_cancel]
          split
          next =>
            refine Or.inl ⟨_, taken, reserved, hfew, hreserve, ?_, rfl⟩
            refine ⟨rfl, fun page => ?_, rfl, rfl⟩
            simp only [Finset.mem_insert, hsome, ne_eq, not_false_eq_true, true_and]
            tauto
          next hwide => exact Or.inr ⟨taken, reserved, hreserve, by omega, rfl⟩
        next hwide =>
          have hlength := List.length_pos_of_ne_nil hsome
          exact Or.inr ⟨taken, reserved, hreserve, by omega, rfl⟩
  next henough => exact Or.inr (Or.inl ⟨by omega, rfl⟩)

namespace Grown

/-- The chunks after a growth, by position. -/
theorem get (h : metadata.Grown reserved after) (index : Nat) :
    after.chunks[index]? =
      if index = metadata.chunks.length then some (MetadataChunk.new reserved)
      else (metadata.chunks[index]?).map fun chunk =>
        if index + 1 = metadata.chunks.length then
          { chunk with nextChunkAddress := reserved.diskByteRange.start }
        else chunk := by
  rw [h.chunks]
  rcases Nat.lt_trichotomy index metadata.chunks.length with hlt | heq | hgt
  · rw [List.getElem?_append_left (by simpa using hlt), List.getElem?_modify, if_neg (by omega)]
    cases metadata.chunks[index]? with
    | none => rfl
    | some chunk =>
        simp only [Option.map_eq_map, Option.map_some, Option.some.injEq]
        split
        next => rw [if_pos (by omega)]
        next => rw [if_neg (by omega)]
  · simp [heq]
  · rw [if_neg (by omega), List.getElem?_eq_none (by simp; omega),
      List.getElem?_eq_none (by omega)]
    rfl

theorem length_eq (h : metadata.Grown reserved after) :
    after.chunks.length = metadata.chunks.length + 1 := by
  simp [h.chunks]

/-- A growth keeps every slot and adds empty ones. -/
theorem record (h : metadata.Grown reserved after) (location : EntryMetadataLocation) :
    after.record? location = metadata.record? location := by
  simp only [record?, h.get, Option.bind_eq_bind]
  split
  next heq =>
    rw [List.getElem?_eq_none (by omega)]
    simp [MetadataChunk.new, Slots.empty]
  next =>
    cases metadata.chunks[location.chunkIndex]? with
    | none => rfl
    | some chunk =>
        simp only [Option.map_some, Option.bind_some]
        by_cases hlast : location.chunkIndex + 1 = metadata.chunks.length <;> simp [hlast]

theorem counted (h : metadata.Grown reserved after) (hcounted : metadata.Counted) :
    after.Counted := by
  refine ⟨?_, fun location hbounds hless => ?_, ?_⟩
  · have hempty : after.emptySlots = metadata.emptySlots + entriesPerMetadataChunk := by
      simp only [emptySlots, h.chunks, List.map_append, List.sum_append, List.map_cons,
        List.map_nil, List.sum_cons, List.sum_nil, Nat.add_zero, MetadataChunk.new,
        Slots.free_count_empty]
      exact congrArg (fun counts => List.sum counts + _) (map_modify_of_eq _ _ _ _ fun _ => rfl)
    rw [h.count, hempty, hcounted.count]
  · rw [h.record]
    rw [h.search] at hless
    refine hcounted.search location ⟨?_, hbounds.2⟩ hless
    -- The search start lies in the old chunks, so the slot before it does too.
    rcases hcounted.start with hstart | hstart
    · rw [EntryMetadataLocation.lt_iff] at hless
      omega
    · rw [hstart, EntryMetadataLocation.lt_iff] at hless
      simp at hless
  · rw [h.search, h.length_eq]
    exact hcounted.start.imp_left fun hstart => by omega

theorem owned (h : metadata.Grown reserved after) (chunk : Nat) :
    after.owned chunk = metadata.owned chunk + reserved.chunkNumbers.covers chunk := by
  simp only [MetadataChunks.owned, h.chunks, List.map_append, List.sum_append, List.map_cons,
    List.map_nil, List.sum_cons, List.sum_nil, Nat.add_zero, MetadataChunk.new]
  exact congrArg (fun shares => List.sum shares + _) (map_modify_of_eq _ _ _ _ fun _ => rfl)

theorem linked (h : metadata.Grown reserved after) (hlinked : metadata.Linked) : after.Linked := by
  intro index chunk hchunk
  rw [addressAt, h.get]
  rw [h.get] at hchunk
  split at hchunk
  next hlast =>
    cases hchunk
    rw [if_neg (by omega), List.getElem?_eq_none (by omega)]
    rfl
  next hold =>
    obtain ⟨before, hbefore, rfl⟩ := Option.map_eq_some_iff.mp hchunk
    have hlt := (List.getElem?_eq_some_iff.mp hbefore).1
    split
    next hnext =>
      simp [MetadataChunk.new]
    next hnext =>
      have hlink := hlinked index before hbefore
      rw [hlink, addressAt]
      cases metadata.chunks[index + 1]? with
      | none => rfl
      | some next =>
          simp only [Option.map_some]
          split <;> rfl

end Grown

/-! ## Evolution -/

/-- The page is a page of one of the chunks. -/
def HasPage (metadata : MetadataChunks) (page : MetadataPageLocation) : Prop :=
  page.chunkIndex < metadata.chunks.length ∧ page.pageIndex < pagesPerChunk

/-- The chunks of `metadata` stay, chunks that follow them have not been written, and a page
that is not marked in `after` has the same contents in both. -/
structure Evolves (metadata after : MetadataChunks) : Prop where
  dirty : metadata.dirtyPages ⊆ after.dirtyPages
  marked : ∀ page ∈ after.dirtyPages, page ∈ metadata.dirtyPages ∨ after.HasPage page
  kept : ∀ index chunk, metadata.chunks[index]? = some chunk →
    ∃ same, after.chunks[index]? = some same ∧ same.reservedChunk = chunk.reservedChunk ∧
      same.needsFullWrite = chunk.needsFullWrite ∧
      ∀ pageIndex, ⟨index, pageIndex⟩ ∉ after.dirtyPages → chunk.SamePage same pageIndex
  added : ∀ index chunk, after.chunks[index]? = some chunk → metadata.chunks.length ≤ index →
    chunk.needsFullWrite = true ∧ ⟨index, entryMetadataPagesPerChunk⟩ ∈ after.dirtyPages

namespace Evolves

theorem refl (metadata : MetadataChunks) : metadata.Evolves metadata where
  dirty := Finset.Subset.refl _
  marked _ hpage := .inl hpage
  kept index chunk hchunk := ⟨chunk, hchunk, rfl, rfl, fun _ _ => .refl _ _⟩
  added index chunk hchunk hlength := by
    have := (List.getElem?_eq_some_iff.mp hchunk).1
    omega

theorem length_le (h : metadata.Evolves after) : metadata.chunks.length ≤ after.chunks.length := by
  by_contra hlt
  obtain ⟨same, hsame, -⟩ := h.kept after.chunks.length _ (List.getElem?_eq_getElem (by omega))
  exact absurd (List.getElem?_eq_some_iff.mp hsame).1 (lt_irrefl _)

theorem trans (hfirst : metadata.Evolves middle) (hsecond : middle.Evolves after) :
    metadata.Evolves after where
  dirty := hfirst.dirty.trans hsecond.dirty
  marked page hpage := by
    rcases hsecond.marked page hpage with hmiddle | hbounds
    · rcases hfirst.marked page hmiddle with hbefore | hbounds
      · exact .inl hbefore
      · exact .inr ⟨hbounds.1.trans_le hsecond.length_le, hbounds.2⟩
    · exact .inr hbounds
  kept index chunk hchunk := by
    obtain ⟨same, hsame, hreserved, hflag, hpages⟩ := hfirst.kept index chunk hchunk
    obtain ⟨last, hlast, hreserved', hflag', hpages'⟩ := hsecond.kept index same hsame
    refine ⟨last, hlast, hreserved'.trans hreserved, hflag'.trans hflag, fun pageIndex hclean => ?_⟩
    exact (hpages pageIndex fun hdirty => hclean (hsecond.dirty hdirty)).trans
      (hpages' pageIndex hclean)
  added index chunk hchunk hlength := by
    by_cases hmiddle : middle.chunks.length ≤ index
    · exact hsecond.added index chunk hchunk hmiddle
    · obtain ⟨before, hbefore⟩ : ∃ before, middle.chunks[index]? = some before :=
        ⟨_, List.getElem?_eq_getElem (by omega)⟩
      obtain ⟨hflag, hmarked⟩ := hfirst.added index before hbefore hlength
      obtain ⟨same, hsame, -, hflag', -⟩ := hsecond.kept index before hbefore
      rw [hchunk] at hsame
      cases hsame
      exact ⟨hflag'.trans hflag, hsecond.dirty hmarked⟩

/-- Assigning a slot marks the only page it changes. -/
theorem of_assigned {entry : Option EntryMetadata}
    (h : metadata.Assigned location entry after) : metadata.Evolves after where
  dirty := by
    rw [h.dirty]
    exact Finset.subset_insert _ _
  marked page hpage := by
    rw [h.dirty, Finset.mem_insert] at hpage
    rcases hpage with rfl | hpage
    · right
      refine ⟨h.length_eq ▸ h.bounds.1, ?_⟩
      have hentry := h.bounds.2
      rw [entries_per_metadata_chunk_eq] at hentry
      have hpages : location.entryIndex / entriesPerMetadataPage < entryMetadataPagesPerChunk :=
        Nat.div_lt_of_lt_mul (by rwa [Nat.mul_comm])
      exact hpages.trans (by decide)
    · exact .inl hpage
  kept index chunk hchunk := by
    rw [h.chunks, List.getElem?_modify, hchunk]
    refine ⟨_, rfl, ?_, ?_, fun pageIndex hclean => ?_⟩
    · split <;> rfl
    · split <;> rfl
    · split
      next hindex =>
        rw [h.dirty] at hclean
        unfold MetadataChunk.SamePage
        split
        next => rfl
        next =>
          intro slot hslot
          show chunk.entries.set location.entryIndex entry slot = _
          rw [Slots.set_apply, if_neg]
          intro heq
          apply hclean
          rw [Finset.mem_insert]
          left
          rw [EntryMetadataLocation.page, hindex, ← heq, hslot]
      next => exact .refl _ _
  added index chunk hchunk hlength := by
    have := (List.getElem?_eq_some_iff.mp hchunk).1
    rw [h.length_eq] at this
    omega

/-- A growth marks the link it changes and the page of the new chunk. -/
theorem of_grown (h : metadata.Grown reserved after) : metadata.Evolves after where
  dirty page hpage := (h.dirty page).mpr (Or.inl hpage)
  marked page hpage := by
    have hlength := h.length_eq
    rcases (h.dirty page).mp hpage with hbefore | rfl | ⟨-, rfl⟩
    · exact .inl hbefore
    · exact .inr ⟨by dsimp only; omega, (by decide : entryMetadataPagesPerChunk < pagesPerChunk)⟩
    · exact .inr ⟨by dsimp only; omega, (by decide : entryMetadataPagesPerChunk < pagesPerChunk)⟩
  kept index chunk hchunk := by
    have hlt := (List.getElem?_eq_some_iff.mp hchunk).1
    rw [h.get, if_neg (by omega), hchunk]
    refine ⟨_, rfl, ?_, ?_, fun pageIndex hclean => ?_⟩
    · split <;> rfl
    · split <;> rfl
    · rw [h.dirty] at hclean
      split
      next hlast =>
        unfold MetadataChunk.SamePage
        split
        next hpage =>
          exfalso
          apply hclean
          right; right
          refine ⟨fun hnil => by simp [hnil] at hlt, ?_⟩
          rw [hpage, ← hlast, Nat.add_sub_cancel]
        next =>
          intro _ _
          rfl
      next => exact .refl _ _
  added index chunk hchunk hlength := by
    rw [h.get] at hchunk
    split at hchunk
    next hindex =>
      cases hchunk
      exact ⟨rfl, (h.dirty _).mpr (Or.inr (Or.inl (by rw [hindex])))⟩
    next hindex =>
      rw [List.getElem?_eq_none (by omega)] at hchunk
      cases hchunk

end Evolves

end MetadataChunks

end Feuer.Storage
