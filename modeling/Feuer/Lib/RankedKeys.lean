import Feuer.Lib.FiniteMap
import Feuer.Lib.ListLemmas

/-!
# Keys with positions

A map whose entries record the position of their key in a list of all keys. The list is what a
sampler walks; the positions make a removal fast: the last key moves into the gap, and the position
of its entry is corrected. `RankedKeys` is the agreement of the map and the list.
-/

namespace Feuer.Lib

variable {κ ν : Type} [DecidableEq κ]

/-- Every entry's position holds its key, and every listed key has an entry at its position. -/
structure RankedKeys (rank : ν → Nat) (entries : FiniteMap κ ν) (keys : List κ) : Prop where
  position : ∀ key entry, entries.lookup key = some entry → keys[rank entry]? = some key
  listed : ∀ index key, keys[index]? = some key →
    ∃ entry, entries.lookup key = some entry ∧ rank entry = index

namespace RankedKeys

variable {rank : ν → Nat} {entries : FiniteMap κ ν} {keys : List κ} {key : κ} {entry : ν}

/-- Nothing is ranked in an empty list. -/
theorem empty (rank : ν → Nat) : RankedKeys rank (∅ : FiniteMap κ ν) [] where
  position := by simp
  listed := by simp

/-- A key stands at one position only. -/
theorem nodup (h : RankedKeys rank entries keys) : keys.Nodup := by
  rw [List.nodup_iff_getElem?_ne_getElem?]
  intro first second hlt hsecond hsame
  obtain ⟨found, hfound⟩ : ∃ found, keys[second]? = some found :=
    ⟨_, List.getElem?_eq_getElem hsecond⟩
  obtain ⟨left, hleft, hfirst⟩ := h.listed first found (hsame.trans hfound)
  obtain ⟨right, hright, hposition⟩ := h.listed second found hfound
  rw [hleft] at hright
  cases hright
  omega

/-- The listed keys are the keys of the map. -/
theorem mem_iff (h : RankedKeys rank entries keys) (key : κ) :
    key ∈ keys ↔ (entries.lookup key).isSome := by
  rw [List.mem_iff_getElem?, Option.isSome_iff_exists]
  constructor
  · rintro ⟨index, hindex⟩
    obtain ⟨entry, hentry, -⟩ := h.listed index key hindex
    exact ⟨entry, hentry⟩
  · rintro ⟨entry, hentry⟩
    exact ⟨_, h.position key entry hentry⟩

/-- Ranks are positions of the list. -/
theorem lt_length (h : RankedKeys rank entries keys) (hentry : entries.lookup key = some entry) :
    rank entry < keys.length :=
  (List.getElem?_eq_some_iff.mp (h.position key entry hentry)).1

/-- A new key joins the end of the list. -/
theorem push (h : RankedKeys rank entries keys) (habsent : entries.lookup key = none)
    (hlast : rank entry = keys.length) :
    RankedKeys rank (entries.insert key entry) (keys ++ [key]) where
  position other found hfound := by
    rw [FiniteMap.lookup_insert_eq] at hfound
    split at hfound
    next hkey =>
      cases hfound
      rw [hlast, hkey, List.getElem?_concat_length]
    next =>
      rw [List.getElem?_append_left (h.lt_length hfound)]
      exact h.position other found hfound
  listed index other hother := by
    rw [FiniteMap.lookup_insert_eq]
    by_cases hend : index = keys.length
    · rw [hend, List.getElem?_concat_length, Option.some.injEq] at hother
      exact ⟨entry, if_pos hother.symm, hlast.trans hend.symm⟩
    · rw [List.getElem?_append] at hother
      split at hother
      next =>
        obtain ⟨found, hfound, hposition⟩ := h.listed index other hother
        have hne : other ≠ key := by
          rintro rfl
          rw [habsent] at hfound
          cases hfound
        exact ⟨found, by rw [if_neg hne, hfound], hposition⟩
      next =>
        rw [List.getElem?_eq_none (by simp; omega)] at hother
        cases hother

/-! ## Removing a key -/

section Remove

variable (h : RankedKeys rank entries keys) (hentry : entries.lookup key = some entry)
include h hentry

/-- Another entry stands at another position. -/
theorem position_ne {other : κ} {found : ν} (hother : entries.lookup other = some found)
    (hne : other ≠ key) : rank found ≠ rank entry := by
  intro hsame
  have hplace := h.position other found hother
  rw [hsame, h.position key entry hentry, Option.some.injEq] at hplace
  exact hne hplace.symm

/-- The key at the end of the list leaves and nothing moves. -/
theorem swap_remove_last (hlast : (swapRemove keys (rank entry))[rank entry]? = none) :
    RankedKeys rank (entries.erase key) (swapRemove keys (rank entry)) := by
  have hlt := h.lt_length hentry
  have hget := getElem?_swap_remove keys hlt
  have hend : keys.length ≤ rank entry + 1 := by
    rw [hget, if_pos rfl] at hlast
    by_contra hinner
    rw [if_neg hinner, List.getElem?_eq_none_iff] at hlast
    omega
  constructor
  · intro other found hfound
    obtain ⟨hne, hfound⟩ := FiniteMap.lookup_erase_eq_some.mp hfound
    have hapart := h.position_ne hentry hfound hne
    have hbound := h.lt_length hfound
    rw [hget, if_neg (by omega), if_neg hapart]
    exact h.position other found hfound
  · intro index other hother
    rw [hget] at hother
    split at hother
    next => cases hother
    next =>
      rw [if_neg (by omega)] at hother
      obtain ⟨found, hfound, hposition⟩ := h.listed index other hother
      refine ⟨found, ?_, hposition⟩
      rw [FiniteMap.lookup_erase_eq, if_neg, hfound]
      rintro rfl
      rw [hentry] at hfound
      cases hfound
      omega

/-- The last key moves into the gap: its entry exists, and with the corrected position the map and
the list agree. -/
theorem swap_remove_moved {moved : κ}
    (hmoved : (swapRemove keys (rank entry))[rank entry]? = some moved) :
    moved ≠ key ∧ ∃ found, (entries.erase key).lookup moved = some found ∧
      ∀ placed, rank placed = rank entry →
        RankedKeys rank ((entries.erase key).insert moved placed)
          (swapRemove keys (rank entry)) := by
  have hget := getElem?_swap_remove keys (h.lt_length hentry)
  have hinner : ¬keys.length ≤ rank entry + 1 := by
    intro hend
    rw [hget, if_pos hend] at hmoved
    cases hmoved
  have hlast := hmoved
  rw [hget, if_neg hinner, if_pos rfl] at hlast
  obtain ⟨found, hfound, hfoundPosition⟩ := h.listed _ moved hlast
  have hne : moved ≠ key := by
    rintro rfl
    rw [hentry] at hfound
    cases hfound
    omega
  refine ⟨hne, found, by rw [FiniteMap.lookup_erase_eq, if_neg hne, hfound],
    fun placed hplaced => ?_⟩
  constructor
  · intro other entry' hother
    rw [FiniteMap.lookup_insert_eq, FiniteMap.lookup_erase_eq] at hother
    split at hother
    next heq =>
      cases hother
      rw [hplaced, heq]
      exact hmoved
    next hapart =>
      split at hother
      next => cases hother
      next hkey =>
        have hgap := h.position_ne hentry hother hkey
        have hend := h.position_ne hfound hother hapart
        have hbound := h.lt_length hother
        rw [hget, if_neg (by omega), if_neg hgap]
        exact h.position other entry' hother
  · intro index other hother
    rw [FiniteMap.lookup_insert_eq, FiniteMap.lookup_erase_eq]
    rw [hget] at hother
    split at hother
    next => cases hother
    next hbound =>
      split at hother
      next hgap =>
        rw [hlast, Option.some.injEq] at hother
        exact ⟨placed, if_pos hother.symm, hplaced.trans hgap.symm⟩
      next hgap =>
        obtain ⟨found', hfound', hposition'⟩ := h.listed index other hother
        have hapart : other ≠ moved := by
          rintro rfl
          rw [hfound] at hfound'
          cases hfound'
          omega
        have hkey : other ≠ key := by
          rintro rfl
          rw [hentry] at hfound'
          cases hfound'
          omega
        exact ⟨found', by rw [if_neg hapart, if_neg hkey, hfound'], hposition'⟩

end Remove

end RankedKeys

end Feuer.Lib
