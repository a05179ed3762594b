import Feuer.Lib.MachineWord
import Mathlib.Algebra.GroupWithZero.Nat
import Mathlib.Algebra.Order.BigOperators.Group.Finset
import Mathlib.Order.Interval.Finset.Nat
import Mathlib.Tactic.Common

/-!
# Sizes, byte ranges, and panics

The constants of the disk format, the half-open ranges the storage code passes around, and the
panic sites of the disk cache. A function of the source that can panic returns
`Except Panic`, so that the absence of a panic is a statement about its result.

Addresses, lengths, and chunk numbers are `u64` in the source and `Nat` here. Every place where
the source checks for overflow, or would overflow, compares with `wordSize` explicitly.
-/

namespace Feuer.Storage

/-- `CHUNK_BYTES`: the size of an allocation unit. -/
def chunkBytes : Nat := 1024 * 1024

/-- `METADATA_PAGE_BYTES`, which is also `DIRECT_IO_ALIGNMENT_BYTES`: the unit of disk I/O. -/
def pageBytes : Nat := 4096

/-- Pages in a chunk. The last one of a metadata chunk is its next-chunk page. -/
def pagesPerChunk : Nat := 256

/-- `ENTRY_METADATA_PAGES_PER_CHUNK`: entry-metadata pages in a metadata chunk, and the index of
its next-chunk page. -/
def entryMetadataPagesPerChunk : Nat := 255

/-- `ENTRIES_PER_METADATA_PAGE`: entries whose metadata fits in a page. -/
def entriesPerMetadataPage : Nat := 101

/-- `ENTRIES_PER_METADATA_CHUNK`: entries whose metadata fits in a chunk. -/
@[irreducible] def entriesPerMetadataChunk : Nat := 25755

/-- `NO_CHUNK`: the link of the last metadata chunk of a chain. -/
def noChunk : Nat := Lib.wordSize - 1

theorem chunk_bytes_pos : 0 < chunkBytes := by decide

theorem chunk_bytes_eq : chunkBytes = pagesPerChunk * pageBytes := rfl

theorem entries_per_metadata_chunk_eq :
    entriesPerMetadataChunk = entryMetadataPagesPerChunk * entriesPerMetadataPage := by
  unfold entriesPerMetadataChunk
  rfl

theorem one_le_pages_per_chunk : 1 ≤ pagesPerChunk := by decide

/-- One metadata chunk has a slot for every page of a payload chunk. -/
theorem pages_per_chunk_le : pagesPerChunk ≤ entriesPerMetadataChunk := by
  rw [entries_per_metadata_chunk_eq]
  decide

/-- `ObjectKeyHash`: an object's 128-bit key hash. -/
abbrev ObjectKeyHash := Fin (2 ^ 128)

instance neZero_keyHashes : NeZero (2 ^ 128 : Nat) := ⟨by decide⟩

/-- A panic of the disk cache, by the check or message that raises it. -/
inductive Panic where
  /-- `unreachable!("released payload must be held")` in `release_payload`. -/
  | releasedPayloadMustBeHeld
  /-- `"entry metadata freed twice"` in `free_entry_metadata`. -/
  | entryMetadataFreedTwice
  /-- A slice, vector, or map index outside its bounds. -/
  | indexOutOfBounds
  /-- `swap_remove` past the end of the eviction candidates. -/
  | swapRemoveOutOfBounds
  /-- `unwrap` of an absent value. -/
  | unwrapNone
  /-- A narrowing integer conversion that does not fit. -/
  | tryFromInt
  /-- An addition that leaves the `u64` range. -/
  | overflow
  deriving DecidableEq, Repr

/-- The only panic that a run can reach: a chain position that does not fit in a `u32`, in a shard
with room for such a chain. -/
def Panic.Unindexable (chunkCount : Nat) (panic : Panic) : Prop :=
  panic = .tryFromInt ∧ 2 ^ 32 < chunkCount

/-- A half-open range, as `std::ops::Range<u64>`. -/
structure Range where
  start : Nat
  stop : Nat
  deriving DecidableEq, Repr

namespace Range

/-- One if the range contains the position, else zero. -/
def covers (range : Range) (position : Nat) : Nat :=
  if range.start ≤ position ∧ position < range.stop then 1 else 0

theorem covers_le_one (range : Range) (position : Nat) : range.covers position ≤ 1 := by
  unfold covers
  split <;> omega

theorem covers_pos_iff {range : Range} {position : Nat} :
    0 < range.covers position ↔ range.start ≤ position ∧ position < range.stop := by
  unfold covers
  split <;> simp_all

theorem covers_of_mem {range : Range} {position : Nat} (hstart : range.start ≤ position)
    (hstop : position < range.stop) : range.covers position = 1 := by
  simp [covers, hstart, hstop]

/-- A range splits into its parts before and after a position inside it. -/
theorem covers_split {start middle stop : Nat} (hleft : start ≤ middle) (hright : middle ≤ stop)
    (position : Nat) :
    covers ⟨start, stop⟩ position = covers ⟨start, middle⟩ position +
      covers ⟨middle, stop⟩ position := by
  simp only [covers]
  split_ifs <;> omega

/-- Nonempty ranges that do not overlap and lie in a range are at most as many as its length. -/
theorem length_le_of_covers {outer : Range} {ranges : List Range}
    (hpos : ∀ range ∈ ranges, range.start < range.stop)
    (hcovers : ∀ position,
      (ranges.map fun range => range.covers position).sum ≤ outer.covers position) :
    ranges.length ≤ outer.stop - outer.start := by
  -- Every range covers a position of the outer one.
  have hcount : ∀ some : List Range, (∀ range ∈ some, range ∈ ranges) → some.length ≤
      ∑ position ∈ Finset.Ico outer.start outer.stop,
        (some.map fun range => range.covers position).sum := by
    intro some hsome
    induction some with
    | nil => simp
    | cons range rest ih =>
        simp only [List.map_cons, List.sum_cons, List.length_cons, Finset.sum_add_distrib]
        have hrest := ih fun other hother => hsome other (List.mem_cons_of_mem _ hother)
        have hmem := hsome range List.mem_cons_self
        have hself := covers_of_mem (le_refl range.start) (hpos range hmem)
        have hinside : range.start ∈ Finset.Ico outer.start outer.stop := by
          have hone := hcovers range.start
          have hle : range.covers range.start ≤
              (ranges.map fun other => other.covers range.start).sum :=
            List.single_le_sum (by simp) _ (List.mem_map_of_mem hmem)
          rw [Finset.mem_Ico, ← covers_pos_iff]
          omega
        have hone := Finset.single_le_sum
          (fun position _ => Nat.zero_le (range.covers position)) hinside
        omega
  calc ranges.length
      ≤ ∑ position ∈ Finset.Ico outer.start outer.stop,
          (ranges.map fun range => range.covers position).sum := hcount ranges fun _ h => h
    _ ≤ ∑ _position ∈ Finset.Ico outer.start outer.stop, 1 :=
        Finset.sum_le_sum fun position _ => (hcovers position).trans (covers_le_one _ _)
    _ = outer.stop - outer.start := by simp

end Range

/-- `u64::div_ceil`. -/
def divCeil (value divisor : Nat) : Nat := (value + divisor - 1) / divisor

/-- `u64::next_multiple_of`. -/
def nextMultipleOf (value divisor : Nat) : Nat := divCeil value divisor * divisor

/-- `payload_disk_bytes`: disk bytes of a payload, including alignment padding and a 4-KiB
minimum. -/
def payloadDiskBytes (length : Nat) : Nat := nextMultipleOf (max length 1) pageBytes

theorem le_div_ceil_mul (value : Nat) {divisor : Nat} (hpos : 0 < divisor) :
    value ≤ divCeil value divisor * divisor := by
  have hsplit := Nat.div_add_mod (value + divisor - 1) divisor
  have hmod := Nat.mod_lt (value + divisor - 1) hpos
  rw [Nat.mul_comm] at hsplit
  unfold divCeil
  omega

/-- Rounding up never loses a byte. -/
theorem le_payload_disk_bytes (length : Nat) : length ≤ payloadDiskBytes length := by
  simp only [payloadDiskBytes, nextMultipleOf, divCeil, pageBytes]
  omega

theorem payload_disk_bytes_pos (length : Nat) : 0 < payloadDiskBytes length := by
  simp only [payloadDiskBytes, nextMultipleOf, divCeil, pageBytes]
  omega

end Feuer.Storage
