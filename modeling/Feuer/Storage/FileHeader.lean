import Feuer.Storage.BackingFile

/-!
# The file header

The header page of `header.rs`: a format tag, the payload version and the capacity, behind a
checksum of the rest of the page. A page matches at most one payload version and capacity, and the
header written for one matches it (`header_matches_encode`, `HeaderMatches.unique`).
-/

namespace Feuer.Storage

open Lib

theorem DiskGeometry.ext_capacity {first second : DiskGeometry}
    (h : first.capacity = second.capacity) : first = second := by
  cases first
  cases second
  cases h
  rfl

instance : DecidableEq DiskGeometry := fun _ _ =>
  decidable_of_iff _ ⟨DiskGeometry.ext_capacity, congrArg DiskGeometry.capacity⟩

/-- What a cache is opened for. -/
structure CacheFormat where
  payloadVersion : UInt64
  geometry : DiskGeometry
  deriving DecidableEq

/-- `FORMAT_TAG`: `b"FEUHDR15"`. -/
def formatTag : List UInt8 := [70, 69, 85, 72, 68, 82, 49, 53]

/-- The bytes of a header before its checksum is filled in. -/
def headerBody (format : CacheFormat) (offset : Nat) : UInt8 :=
  if offset < 8 then 0
  else if offset < 16 then formatTag.getD (offset - 8) 0
  else if offset < 24 then leByte format.payloadVersion.toNat (offset - 16)
  else if offset < 32 then leByte format.geometry.capacity (offset - 24)
  else 0

/-- The header that `clear_incompatible_metadata` writes. -/
def encodeHeader (hash : List UInt8 → UInt64) (format : CacheFormat) : Page :=
  Page.ofBytes fun offset =>
    if offset < 8 then leByte (pageChecksum hash (headerBody format)).toNat offset
    else headerBody format offset

/-- The header test of `clear_incompatible_metadata`. -/
def HeaderMatches (hash : List UInt8 → UInt64) (page : Page) (format : CacheFormat) : Prop :=
  (∀ index < 8, page.byte (8 + index) = formatTag.getD index 0) ∧
    (∀ index < 8, page.byte (16 + index) = leByte format.payloadVersion.toNat index) ∧
    (∀ index < 8, page.byte (24 + index) = leByte format.geometry.capacity index) ∧
    ∀ index < 8, page.byte index = leByte (pageChecksum hash page.byte).toNat index

instance (hash : List UInt8 → UInt64) (page : Page) (format : CacheFormat) :
    Decidable (HeaderMatches hash page format) :=
  inferInstanceAs (Decidable (_ ∧ _ ∧ _ ∧ _))

variable {hash : List UInt8 → UInt64} {format : CacheFormat}

theorem byte_encode_header {offset : Nat} (hlow : 8 ≤ offset) (hhigh : offset < pageBytes) :
    (encodeHeader hash format).byte offset = headerBody format offset := by
  rw [encodeHeader, Page.byte_of_bytes _ hhigh, if_neg (Nat.not_lt.mpr hlow)]

/-- A header matches what it was written for. -/
theorem header_matches_encode (hash : List UInt8 → UInt64) (format : CacheFormat) :
    HeaderMatches hash (encodeHeader hash format) format := by
  have hpage : pageBytes = 4096 := rfl
  refine ⟨?_, ?_, ?_, ?_⟩
  · intro index hindex
    rw [byte_encode_header (by omega) (by omega), headerBody, if_neg (by omega), if_pos (by omega)]
    congr 1
    omega
  · intro index hindex
    rw [byte_encode_header (by omega) (by omega), headerBody, if_neg (by omega), if_neg (by omega),
      if_pos (by omega)]
    congr 1
    omega
  · intro index hindex
    rw [byte_encode_header (by omega) (by omega), headerBody, if_neg (by omega), if_neg (by omega),
      if_neg (by omega), if_pos (by omega)]
    congr 1
    omega
  · intro index hindex
    rw [page_checksum_congr hash fun _ => byte_encode_header, encodeHeader,
      Page.byte_of_bytes _ (by omega), if_pos hindex]

/-- A page matches one payload version and capacity at most. -/
theorem HeaderMatches.unique {page : Page} {other : CacheFormat}
    (h : HeaderMatches hash page format)
    (hother : HeaderMatches hash page other) : format = other := by
  obtain ⟨-, hversion, hcapacity, -⟩ := h
  obtain ⟨-, hversion', hcapacity', -⟩ := hother
  have hversions : format.payloadVersion.toNat = other.payloadVersion.toNat :=
    @eq_of_le_byte_eq _ _ 8 format.payloadVersion.toNat_lt other.payloadVersion.toNat_lt
      fun index hindex => (hversion index hindex).symm.trans (hversion' index hindex)
  have hcapacities : format.geometry.capacity = other.geometry.capacity := by
    refine @eq_of_le_byte_eq _ _ 8 ?_ ?_ fun index hindex =>
      (hcapacity index hindex).symm.trans (hcapacity' index hindex)
    · exact Nat.lt_trans format.geometry.maximum (by decide)
    · exact Nat.lt_trans other.geometry.maximum (by decide)
  cases format
  cases other
  congr
  · exact UInt64.toNat_inj.mp hversions
  · exact DiskGeometry.ext_capacity hcapacities

/-- An empty page is no header. -/
theorem not_header_matches_zero (format : CacheFormat) : ¬ HeaderMatches hash Page.zero format := by
  rintro ⟨htag, -⟩
  have hfirst := htag 0 (by decide)
  rw [Page.byte_zero] at hfirst
  exact absurd hfirst (by decide)

end Feuer.Storage
