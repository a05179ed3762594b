import Feuer.Storage.PageFormat

/-!
# The backing file

The file as the pages it holds and the history of what happened to it. Page writes are atomic. A
submitted write request is a list of pages that reach the file one by one, in any order; `pending`
are the positions that have not reached it. The log is not part of the program: it records, newest
first, the events that statements about the past refer to.
-/

namespace Feuer.Storage

open Lib

/-- The pages of a file, by page number. -/
abbrev Disk := Nat → Page

/-- The bytes of a chunk of the file. -/
def Disk.chunk (disk : Disk) (number : Nat) : ChunkBytes :=
  fun pageIndex => disk (number * pagesPerChunk + pageIndex)

/-- The byte at an address of the file. -/
def Disk.byte (disk : Disk) (address : Nat) : UInt8 :=
  (disk (address / pageBytes)).byte (address % pageBytes)

/-- Which part of the program wrote a page. -/
inductive Origin where
  | header
  | clearing
  | payload
  | metadata
  deriving DecidableEq, Repr

/-- An event in the history of the file. -/
inductive Event where
  /-- `ensure_free_slots` made the chunk a metadata chunk. -/
  | grew (chunk : Nat)
  /-- `clear_incompatible_metadata` zeroed the chunk as the head of a shard. -/
  | cleared (chunk : Nat)
  /-- A page reached the file. -/
  | wrote (page : Nat) (origin : Origin)
  /-- An entry was published by a cache of this payload version and capacity. `payload` are the
  bytes that the write put at the entry's address. -/
  | published (payloadVersion : UInt64) (capacity : Nat) (record : EntryMetadata)
      (payload : List UInt8)

/-- The record and the bytes of a publication. -/
def Event.publication? : Event → Option (EntryMetadata × List UInt8)
  | .published _ _ record payload => some (record, payload)
  | _ => none

/-- The publications in a log, newest first. -/
def publicationsOf (log : List Event) : List (EntryMetadata × List UInt8) :=
  log.filterMap Event.publication?

/-- The newest publication of a key. -/
def newestPublication (key : ObjectKeyHash) (log : List Event) :
    Option (EntryMetadata × List UInt8) :=
  (publicationsOf log).find? fun found => found.1.key = key

/-- A key that was published has a newest publication. -/
theorem newest_publication_isSome {log : List Event} {record : EntryMetadata} {payload : List UInt8}
    (h : (record, payload) ∈ publicationsOf log) : (newestPublication record.key log).isSome := by
  rw [newestPublication, List.find?_isSome]
  exact ⟨_, h, decide_eq_true rfl⟩

/-- The pages of the file and its history, newest first. -/
structure BackingFile where
  disk : Disk
  log : List Event

/-- A page reaches the file. -/
def BackingFile.write (file : BackingFile) (page : Nat) (contents : Page) (origin : Origin) :
    BackingFile where
  disk := Function.update file.disk page contents
  log := .wrote page origin :: file.log

/-- A submitted write of consecutive pages. -/
structure WriteRequest where
  firstPage : Nat
  pages : List Page
  /-- The positions in `pages` that have not reached the file. -/
  pending : Finset Nat

namespace WriteRequest

/-- A request none of whose pages has reached the file. -/
def new (firstPage : Nat) (pages : List Page) : WriteRequest :=
  ⟨firstPage, pages, Finset.range pages.length⟩

/-- The page at a position reaches the file, unless it already has. -/
def persist (request : WriteRequest) (position : Nat) (origin : Origin) (file : BackingFile) :
    WriteRequest × BackingFile :=
  match request.pages[position]? with
  | some contents =>
      if position ∈ request.pending then
        ({ request with pending := request.pending.erase position },
          file.write (request.firstPage + position) contents origin)
      else (request, file)
  | none => (request, file)

/-- A page that is left reaches the file. Any other position changes nothing. -/
theorem persist_cases (request : WriteRequest) (position : Nat) (origin : Origin)
    (file : BackingFile) :
    (∃ contents, request.pages[position]? = some contents ∧ position ∈ request.pending ∧
      request.persist position origin file =
        ({ request with pending := request.pending.erase position },
          file.write (request.firstPage + position) contents origin)) ∨
      request.persist position origin file = (request, file) := by
  unfold persist
  split
  next contents hcontents =>
    split
    next hpending => exact .inl ⟨contents, hcontents, hpending, rfl⟩
    next => exact .inr rfl
  next => exact .inr rfl

end WriteRequest

end Feuer.Storage
