import Feuer.Storage.MetadataRound
import Feuer.Storage.MetadataChain

/-!
# What a metadata round writes

`takeDirtyPages` succeeds whenever the marked pages are pages of the chunks. Its writes come from
the pages to write in descending order: a chunk that has not been written is written whole in place
of its link page, and its other pages are left out.
-/

namespace Feuer.Storage

open Lib

namespace MetadataChunks

variable {hash : List UInt8 → UInt64} {metadata after : MetadataChunks}

/-- The chunk at a position has not been written. -/
def Unwritten (metadata : MetadataChunks) (index : Nat) : Prop :=
  ∃ chunk, metadata.chunks[index]? = some chunk ∧ chunk.needsFullWrite = true

instance (metadata : MetadataChunks) (index : Nat) : Decidable (metadata.Unwritten index) :=
  decidable_of_iff ((metadata.chunks[index]?.map MetadataChunk.needsFullWrite) = some true)
    (by simp [Unwritten])

/-- The pages that a round goes through: the dirty ones, and the link page of every unwritten
chunk. -/
def pagesToWrite (metadata : MetadataChunks) : Finset MetadataPageLocation :=
  if metadata.dirtyPages = ∅ then ∅
  else
    metadata.dirtyPages ∪
      ((Finset.range metadata.chunks.length).filter metadata.Unwritten).image
        fun index => ⟨index, entryMetadataPagesPerChunk⟩

theorem mem_pages_to_write {page : MetadataPageLocation} :
    page ∈ metadata.pagesToWrite ↔ metadata.dirtyPages ≠ ∅ ∧ (page ∈ metadata.dirtyPages ∨
      metadata.Unwritten page.chunkIndex ∧ page.pageIndex = entryMetadataPagesPerChunk) := by
  unfold pagesToWrite
  split
  next hempty => simp [hempty]
  next hdirty =>
    simp only [Finset.mem_union, Finset.mem_image, Finset.mem_filter, Finset.mem_range,
      ne_eq, hdirty, not_false_eq_true, true_and]
    refine or_congr_right ⟨?_, ?_⟩
    · rintro ⟨index, ⟨-, hflag⟩, rfl⟩
      exact ⟨hflag, rfl⟩
    · rintro ⟨hflag, hpage⟩
      obtain ⟨chunk, hchunk, -⟩ := id hflag
      refine ⟨page.chunkIndex, ⟨(List.getElem?_eq_some_iff.mp hchunk).1, hflag⟩, ?_⟩
      rw [← hpage]

theorem pages_to_write_has_page (hdirty : ∀ page ∈ metadata.dirtyPages, metadata.HasPage page)
    {page : MetadataPageLocation} (hpage : page ∈ metadata.pagesToWrite) :
    metadata.HasPage page := by
  obtain ⟨-, hmarked | ⟨⟨chunk, hchunk, -⟩, hlink⟩⟩ := mem_pages_to_write.mp hpage
  · exact hdirty page hmarked
  · exact ⟨(List.getElem?_eq_some_iff.mp hchunk).1, hlink ▸ (by decide)⟩

/-- The write of a page, if the page is written on its own or stands for its whole chunk. -/
def pageWrite? (hash : List UInt8 → UInt64) (metadata : MetadataChunks)
    (page : MetadataPageLocation) : Option MetadataWrite := do
  let chunk ← metadata.chunks[page.chunkIndex]?
  if chunk.needsFullWrite then
    if page.pageIndex = entryMetadataPagesPerChunk then
      some ⟨page.chunkIndex, chunk.encodePages hash 0 pagesPerChunk⟩
    else none
  else some ⟨page.chunkIndex, chunk.encodePages hash page.pageIndex 1⟩

/-- The writes of a round, in the order in which they are issued. -/
def roundWrites (hash : List UInt8 → UInt64) (metadata : MetadataChunks) : List MetadataWrite :=
  (metadata.pagesToWrite.sort (· ≥ ·)).filterMap (metadata.pageWrite? hash)

/-- The pages marked after the loop over the first chunks. -/
structure MarkedUpTo (metadata : MetadataChunks) (done : List Nat) (after : MetadataChunks) :
    Prop where
  same : after = { metadata with dirtyPages := after.dirtyPages }
  dirty : ∀ page, page ∈ after.dirtyPages ↔ page ∈ metadata.dirtyPages ∨
    page.chunkIndex ∈ done ∧ metadata.Unwritten page.chunkIndex ∧
      page.pageIndex = entryMetadataPagesPerChunk

theorem mark_unwritten_chunk_spec {done : List Nat} {index : Nat}
    (h : metadata.MarkedUpTo done after) (hindex : index < metadata.chunks.length) :
    Outcome (Panic.Unindexable metadata.chunks.length) (metadata.MarkedUpTo (done ++ [index]))
      (after.markUnwrittenChunk index) := by
  obtain ⟨chunk, hchunk⟩ : ∃ chunk, metadata.chunks[index]? = some chunk :=
    ⟨_, List.getElem?_eq_getElem hindex⟩
  have hchunks : after.chunks = metadata.chunks := by rw [h.same]
  unfold markUnwrittenChunk
  rw [hchunks, hchunk]
  dsimp only
  split
  next hflag =>
    unfold markLinkPageDirty
    split
    next =>
      refine ⟨by rw [h.same], fun page => ?_⟩
      show page ∈ insert _ _ ↔ _
      rw [Finset.mem_insert, h.dirty]
      constructor
      · rintro (rfl | hold | ⟨hdone, hrest⟩)
        · exact .inr ⟨by simp, ⟨chunk, hchunk, hflag⟩, rfl⟩
        · exact .inl hold
        · exact .inr ⟨List.mem_append_left _ hdone, hrest⟩
      · rintro (hold | ⟨hdone, hunwritten, hpage⟩)
        · exact .inr (.inl hold)
        · rcases List.mem_append.mp hdone with hdone | hlast
          · exact .inr (.inr ⟨hdone, hunwritten, hpage⟩)
          · left
            rw [← List.mem_singleton.mp hlast, ← hpage]
    next hwide => exact ⟨rfl, by omega⟩
  next hflag =>
    refine ⟨h.same, fun page => ?_⟩
    rw [h.dirty]
    refine or_congr_right ⟨fun ⟨hdone, hrest⟩ => ⟨List.mem_append_left _ hdone, hrest⟩, ?_⟩
    rintro ⟨hdone, hunwritten, hpage⟩
    rcases List.mem_append.mp hdone with hdone | hlast
    · exact ⟨hdone, hunwritten, hpage⟩
    · obtain ⟨found, hfound, hflag'⟩ := hunwritten
      rw [List.mem_singleton.mp hlast, hchunk] at hfound
      cases hfound
      exact absurd hflag' hflag

/-- The marking of a round: the pages to write are the marked pages afterwards. -/
theorem mark_unwritten_spec (metadata : MetadataChunks) :
    Outcome (Panic.Unindexable metadata.chunks.length)
      (fun marked => marked = { metadata with dirtyPages := metadata.pagesToWrite })
      metadata.markUnwrittenChunks := by
  unfold markUnwrittenChunks
  split
  next hempty =>
    show metadata = _
    rw [pagesToWrite, if_pos hempty, ← hempty]
  next hdirty =>
    have hstart : metadata.MarkedUpTo [] metadata := ⟨rfl, by simp⟩
    refine (run_outcome_done (fun before index rest state hsplit hstate => ?_) hstart).mono
      fun marked hmarked => ?_
    · refine mark_unwritten_chunk_spec hstate ?_
      have hmem : index ∈ List.range metadata.chunks.length := by
        rw [show List.range metadata.chunks.length = before ++ index :: rest from hsplit]
        simp
      exact List.mem_range.mp hmem
    · rw [hmarked.same]
      congr 1
      ext page
      rw [hmarked.dirty, mem_pages_to_write]
      simp only [List.nil_append, List.mem_range, ne_eq, hdirty, not_false_eq_true, true_and]
      refine or_congr_right ⟨And.right, fun h => ⟨?_, h⟩⟩
      obtain ⟨chunk, hchunk, -⟩ := h.1
      exact (List.getElem?_eq_some_iff.mp hchunk).1

theorem encode_dirty_page_eq {page : MetadataPageLocation} (hpage : metadata.HasPage page) :
    metadata.encodeDirtyPage hash page = .ok (metadata.pageWrite? hash page) := by
  unfold encodeDirtyPage pageWrite?
  rw [List.getElem?_eq_getElem hpage.1]
  dsimp only [Option.bind_eq_bind, Option.bind_some]
  split
  next => split <;> rfl
  next => rfl

theorem encode_dirty_pages_eq {pages : List MetadataPageLocation}
    (hpages : ∀ page ∈ pages, metadata.HasPage page) :
    pages.mapM (metadata.encodeDirtyPage hash) = .ok (pages.map (metadata.pageWrite? hash)) := by
  induction pages with
  | nil => rfl
  | cons page rest ih =>
      rw [List.mapM_cons, encode_dirty_page_eq (hpages page (by simp)),
        ih fun other hother => hpages other (by simp [hother])]
      rfl

/-- A round clears the marks and issues its writes. -/
theorem take_dirty_pages_spec (hdirty : ∀ page ∈ metadata.dirtyPages, metadata.HasPage page) :
    Outcome (Panic.Unindexable metadata.chunks.length)
      (fun taken => taken = ({ metadata with dirtyPages := ∅ }, metadata.roundWrites hash))
      (metadata.takeDirtyPages hash) := by
  unfold takeDirtyPages
  refine (mark_unwritten_spec metadata).bind fun marked hmarked => ?_
  subst hmarked
  rw [encode_dirty_pages_eq fun page hpage => ?_]
  · show (_, _) = (_, _)
    rw [List.filterMap_map]
    rfl
  · exact pages_to_write_has_page hdirty ((Finset.mem_sort _).mp hpage)

/-- A write of a round is the write of one of its pages. -/
theorem mem_round_writes {write : MetadataWrite} :
    write ∈ metadata.roundWrites hash ↔
      ∃ page ∈ metadata.pagesToWrite, metadata.pageWrite? hash page = some write := by
  simp [roundWrites, List.mem_filterMap]

theorem page_write_some {page : MetadataPageLocation} {write : MetadataWrite}
    (h : metadata.pageWrite? hash page = some write) :
    ∃ chunk, metadata.chunks[page.chunkIndex]? = some chunk ∧ write.chunkIndex = page.chunkIndex ∧
      (chunk.needsFullWrite = true ∧ page.pageIndex = entryMetadataPagesPerChunk ∧
          write.request = chunk.encodePages hash 0 pagesPerChunk ∨
        chunk.needsFullWrite = false ∧
          write.request = chunk.encodePages hash page.pageIndex 1) := by
  unfold pageWrite? at h
  obtain ⟨chunk, hchunk, h⟩ := Option.bind_eq_some_iff.mp h
  refine ⟨chunk, hchunk, ?_⟩
  split at h
  next hflag =>
    split at h
    next hpage =>
      cases h
      exact ⟨rfl, .inl ⟨hflag, hpage, rfl⟩⟩
    next => cases h
  next hflag =>
    cases h
    exact ⟨rfl, .inr ⟨Bool.eq_false_iff.mpr hflag, rfl⟩⟩

/-- Finishing a write clears the flag of its chunk if the write was of the whole chunk. -/
theorem finish_write_spec {write : MetadataWrite}
    (hindex : write.chunkIndex < metadata.chunks.length) :
    metadata.finishWrite write = .ok { metadata with
      chunks := metadata.chunks.modify write.chunkIndex fun chunk =>
        { chunk with needsFullWrite := chunk.needsFullWrite && !write.fullChunk } } := by
  unfold finishWrite
  split
  next hfull => simp [hfull]
  next hfull =>
    have hsame : (metadata.chunks.modify write.chunkIndex fun chunk =>
        { chunk with needsFullWrite := chunk.needsFullWrite && !write.fullChunk }) =
        metadata.chunks := by
      simp only [hfull, Bool.not_false, Bool.and_true]
      exact List.modify_id _ _
    rw [hsame]

/-! ## Rounds only change marks and flags -/

/-- The chunks are the same but for their flags. -/
structure Reflagged (metadata after : MetadataChunks) : Prop where
  same : after.chunks.map (fun chunk => { chunk with needsFullWrite := false }) =
    metadata.chunks.map fun chunk => { chunk with needsFullWrite := false }
  search : after.freeSlotSearchStart = metadata.freeSlotSearchStart
  count : after.freeSlotCount = metadata.freeSlotCount

namespace Reflagged

theorem of_take (metadata : MetadataChunks) (dirtyPages : Finset MetadataPageLocation) :
    metadata.Reflagged { metadata with dirtyPages } := ⟨rfl, rfl, rfl⟩

theorem of_finish (metadata : MetadataChunks) (index : Nat) (flag : Bool → Bool) :
    metadata.Reflagged { metadata with
      chunks := metadata.chunks.modify index fun chunk =>
        { chunk with needsFullWrite := flag chunk.needsFullWrite } } :=
  ⟨map_modify_of_eq _ _ _ _ fun _ => rfl, rfl, rfl⟩

theorem length_eq (h : metadata.Reflagged after) :
    after.chunks.length = metadata.chunks.length := by
  simpa using congrArg List.length h.same

theorem chunk (h : metadata.Reflagged after) {index : Nat} {chunk : MetadataChunk}
    (hchunk : after.chunks[index]? = some chunk) :
    ∃ same, metadata.chunks[index]? = some same ∧ same.reservedChunk = chunk.reservedChunk ∧
      same.nextChunkAddress = chunk.nextChunkAddress ∧ same.entries = chunk.entries := by
  have hget := congrArg (fun chunks => chunks[index]?) h.same
  simp only [List.getElem?_map, hchunk, Option.map_some] at hget
  obtain ⟨same, hsame, heq⟩ := Option.map_eq_some_iff.mp hget.symm
  simp only [MetadataChunk.mk.injEq] at heq
  exact ⟨same, hsame, heq.1, heq.2.2.1, heq.2.1⟩

theorem symm (h : metadata.Reflagged after) : after.Reflagged metadata :=
  ⟨h.same.symm, h.search.symm, h.count.symm⟩

theorem record (h : metadata.Reflagged after) (location : EntryMetadataLocation) :
    after.record? location = metadata.record? location := by
  unfold record?
  cases hchunk : after.chunks[location.chunkIndex]? with
  | none =>
      rw [List.getElem?_eq_none_iff, h.length_eq] at hchunk
      rw [List.getElem?_eq_none hchunk]
  | some chunk =>
      obtain ⟨same, hsame, -, -, hentries⟩ := h.chunk hchunk
      rw [hsame]
      simp only [Option.bind_eq_bind, Option.bind_some, hentries]

theorem owned (h : metadata.Reflagged after) (chunk : Nat) :
    after.owned chunk = metadata.owned chunk := by
  have hcovers := congrArg
    (List.map fun chunk' : MetadataChunk => chunk'.reservedChunk.chunkNumbers.covers chunk) h.same
  rw [List.map_map, List.map_map] at hcovers
  exact congrArg List.sum hcovers

theorem address_at (h : metadata.Reflagged after) (index : Nat) :
    after.addressAt index = metadata.addressAt index := by
  unfold MetadataChunks.addressAt
  cases hchunk : after.chunks[index]? with
  | none =>
      rw [List.getElem?_eq_none_iff, h.length_eq] at hchunk
      rw [List.getElem?_eq_none hchunk]
  | some chunk =>
      obtain ⟨same, hsame, hreserved, -, -⟩ := h.chunk hchunk
      rw [hsame]
      dsimp only
      rw [hreserved]

theorem linked (h : metadata.Reflagged after) (hlinked : metadata.Linked) : after.Linked := by
  intro index chunk hchunk
  obtain ⟨same, hsame, -, hlink, -⟩ := h.chunk hchunk
  rw [h.address_at, ← hlink]
  exact hlinked index same hsame

theorem counted (h : metadata.Reflagged after) (hcounted : metadata.Counted) : after.Counted where
  count := by
    rw [h.count, hcounted.count]
    have hfree := congrArg (List.map fun chunk : MetadataChunk => chunk.entries.freeCount) h.same
    rw [List.map_map, List.map_map] at hfree
    exact congrArg List.sum hfree.symm
  search location hbounds hless := by
    rw [h.record]
    exact hcounted.search location ⟨h.length_eq ▸ hbounds.1, hbounds.2⟩ (h.search ▸ hless)
  start := by
    rw [h.search, h.length_eq]
    exact hcounted.start

end Reflagged

end MetadataChunks

end Feuer.Storage
