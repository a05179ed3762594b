import Mathlib.Algebra.BigOperators.Group.List.Basic
import Mathlib.Order.Defs.LinearOrder
import Mathlib.Tactic.Ring

/-!
# Changing a part of a list

Sums over a list whose element at one position is modified, the lists of projections that such a
change leaves alone, the removal that fills the gap with the last element, and overwriting
consecutive elements. Selecting an element by its position in the sorted list.
-/

namespace Feuer.Lib

variable {α β : Type}

/-- Modifying one element exchanges its weight in a sum over the list. -/
theorem sum_map_modify {items : List α} {index : Nat} {item : α} (f : α → α) (weight : α → Nat)
    (hitem : items[index]? = some item) :
    ((items.modify index f).map weight).sum + weight item =
      weight (f item) + (items.map weight).sum := by
  induction items generalizing index with
  | nil => simp at hitem
  | cons head rest ih =>
      cases index with
      | zero =>
          cases hitem
          simp only [List.modify_zero_cons, List.map_cons, List.sum_cons]
          ring
      | succ index =>
          have hrest := ih (by simpa using hitem)
          simp only [List.modify_succ_cons, List.map_cons, List.sum_cons]
          omega

/-- An element of a list after one was replaced. -/
theorem getElem?_set_eq_some {items : List α} {index other : Nat} {new item : α}
    (h : (items.set index new)[other]? = some item) :
    other ≠ index ∧ items[other]? = some item ∨ other = index ∧ item = new := by
  rw [List.getElem?_set] at h
  split at h
  next heq =>
    split at h
    next => exact .inr ⟨heq.symm, (Option.some.inj h).symm⟩
    next => cases h
  next hne => exact .inl ⟨Ne.symm hne, h⟩

/-- Two items at different positions weigh no more than all of them. -/
theorem add_le_sum_map (weight : α → Nat) {items : List α} {first second : Nat} {left right : α}
    (hleft : items[first]? = some left) (hright : items[second]? = some right)
    (hne : first ≠ second) : weight left + weight right ≤ (items.map weight).sum := by
  induction items generalizing first second with
  | nil => cases hleft
  | cons item rest ih =>
      have hsingle : ∀ (index : Nat) (found : α), rest[index]? = some found →
          weight found ≤ (rest.map weight).sum := by
        intro index found hfound
        obtain ⟨before, after, rfl⟩ := List.append_of_mem (List.mem_of_getElem? hfound)
        rw [List.map_append, List.sum_append, List.map_cons, List.sum_cons]
        omega
      rw [List.map_cons, List.sum_cons]
      cases first with
      | zero =>
          cases second with
          | zero => exact absurd rfl hne
          | succ second =>
              cases hleft
              exact Nat.add_le_add_left (hsingle second right hright) _
      | succ first =>
          cases second with
          | zero =>
              cases hright
              rw [Nat.add_comm]
              exact Nat.add_le_add_left (hsingle first left hleft) _
          | succ second =>
              have hrest := ih hleft hright fun heq => hne (congrArg Nat.succ heq)
              omega

/-- A sum over the elements that pass a test. -/
theorem sum_map_filter (p : α → Bool) (weight : α → Nat) (items : List α) :
    ((items.filter p).map weight).sum =
      (items.map fun item => if p item then weight item else 0).sum := by
  induction items with
  | nil => rfl
  | cons head rest ih => cases hhead : p head <;> simp [hhead, ih]

/-- A modification that keeps a projection of the element keeps the list of projections. -/
theorem map_modify_of_eq (items : List α) (index : Nat) (f : α → α) (project : α → β)
    (h : ∀ item, project (f item) = project item) :
    (items.modify index f).map project = items.map project := by
  induction items generalizing index with
  | nil => simp
  | cons head rest ih =>
      cases index with
      | zero => simp [h]
      | succ index => simp [ih]

/-- Removes an element and moves the last one into its place. -/
def swapRemove (items : List α) (index : Nat) : List α :=
  match items.getLast? with
  | some last => (items.set index last).dropLast
  | none => []

/-- One item is removed. -/
theorem length_swap_remove {items : List α} {index : Nat} (hindex : index < items.length) :
    (swapRemove items index).length + 1 = items.length := by
  unfold swapRemove
  split
  next => simp; omega
  next hnone =>
    rw [List.getLast?_eq_none_iff] at hnone
    simp [hnone] at hindex

/-- A `swapRemove` drops the element at the index, up to the order of the rest. -/
theorem swap_remove_perm {items : List α} {index : Nat} (hindex : index < items.length) :
    (swapRemove items index).Perm (items.eraseIdx index) := by
  unfold swapRemove
  split
  next last hlast =>
    -- The list with the gap filled is the result with the last element behind it.
    have hend : (items.set index last).dropLast ++ [last] = items.set index last := by
      have hne : items.set index last ≠ [] := by
        intro hempty
        have hlength := congrArg List.length hempty
        simp at hlength
        simp [hlength] at hindex
      have hgetLast : (items.set index last).getLast hne = last := by
        rw [List.getLast_eq_getElem]
        rw [List.getLast?_eq_getElem?] at hlast
        rw [List.getElem_set]
        split
        next => rfl
        next =>
          have hsome := (List.getElem?_eq_some_iff.mp hlast).2
          simpa using hsome
      nth_rewrite 2 [← hgetLast]
      exact List.dropLast_append_getLast hne
    have hcons : (last :: items.eraseIdx index).Perm (items.set index last) := by
      have hperm := List.getElem_cons_eraseIdx_perm (l := items.set index last) (n := index)
        (by simpa using hindex)
      rwa [List.getElem_set_self, List.eraseIdx_set_eq] at hperm
    rw [← hend] at hcons
    exact (hcons.trans (List.perm_append_singleton last _)).cons_inv.symm
  next hnone =>
    rw [List.getLast?_eq_none_iff] at hnone
    simp [hnone] at hindex

/-- What stands where after a `swapRemove`. -/
theorem getElem?_swap_remove (items : List α) {index : Nat} (hindex : index < items.length)
    (other : Nat) :
    (swapRemove items index)[other]? =
      if items.length ≤ other + 1 then none
      else if other = index then items[items.length - 1]?
      else items[other]? := by
  have hlast : items.getLast? = items[items.length - 1]? := by
    rw [List.getLast?_eq_getElem?]
  obtain ⟨last, hsome⟩ : ∃ last, items[items.length - 1]? = some last :=
    ⟨_, List.getElem?_eq_getElem (by omega)⟩
  simp only [swapRemove, hlast, hsome, List.getElem?_dropLast, List.length_set]
  split
  next hlt =>
    rw [if_neg (by omega)]
    by_cases hsame : other = index
    · rw [if_pos hsame, hsame, List.getElem?_set_self hindex]
    · rw [if_neg hsame, List.getElem?_set_ne (Ne.symm hsame)]
  next hge => rw [if_pos (by omega)]

/-- The list with its elements from an offset on overwritten by the given ones. -/
def splice (items : List α) (offset : Nat) (values : List α) : List α :=
  items.take offset ++ (values ++ items.drop (offset + values.length))

/-- Values that fit replace as many. -/
theorem length_splice {items values : List α} {offset : Nat}
    (h : offset + values.length ≤ items.length) :
    (splice items offset values).length = items.length := by
  simp only [splice, List.length_append, List.length_take, List.length_drop]
  omega

/-- What was written is there. -/
theorem slice_splice_self {items values : List α} {offset : Nat}
    (h : offset + values.length ≤ items.length) :
    ((splice items offset values).drop offset).take values.length = values := by
  have hoffset : (items.take offset).length = offset := by
    rw [List.length_take]
    omega
  rw [splice, List.drop_append_of_le_length hoffset.ge, List.drop_eq_nil_of_le hoffset.le,
    List.nil_append, List.take_append_of_le_length le_rfl, List.take_length]

/-- What lies before the offset stays. -/
theorem slice_splice_before {items values : List α} {offset start length : Nat}
    (hoffset : offset ≤ items.length) (h : start + length ≤ offset) :
    ((splice items offset values).drop start).take length = (items.drop start).take length := by
  have htake : (items.take offset).length = offset := by
    rw [List.length_take]
    omega
  have hroom : length ≤ ((items.take offset).drop start).length := by
    rw [List.length_drop]
    omega
  rw [splice, List.drop_append_of_le_length (by omega), List.take_append_of_le_length hroom,
    List.drop_take, List.take_take, min_eq_left (by omega)]

/-! ## Pieces of one size -/

/-- The whole pieces of a list, as `chunks_exact`. -/
def chunksExact (size : Nat) (items : List α) : List (List α) :=
  (List.range (items.length / size)).map fun index => (items.drop (index * size)).take size

/-- A list whose pieces are known is cut into them. -/
theorem chunks_exact_flatten {size : Nat} (hsize : 0 < size) {pieces : List (List α)}
    (hpieces : ∀ piece ∈ pieces, piece.length = size) :
    chunksExact size pieces.flatten = pieces := by
  have hlength : ∀ some : List (List α), (∀ piece ∈ some, piece.length = size) →
      some.flatten.length = some.length * size := by
    intro some hsome
    induction some with
    | nil => simp
    | cons piece rest ih =>
        rw [List.flatten_cons, List.length_append, hsome piece List.mem_cons_self,
          ih fun other hother => hsome other (List.mem_cons_of_mem _ hother), List.length_cons,
          Nat.succ_mul, Nat.add_comm]
  have hdrop : ∀ (some : List (List α)), (∀ piece ∈ some, piece.length = size) → ∀ index,
      some.flatten.drop (index * size) = (some.drop index).flatten := by
    intro some hsome index
    induction index generalizing some with
    | zero => simp
    | succ index ih =>
        cases some with
        | nil => simp
        | cons piece rest =>
            have hpiece := hsome piece List.mem_cons_self
            rw [List.flatten_cons, List.drop_succ_cons, Nat.succ_mul, Nat.add_comm,
              ← List.drop_drop, List.drop_append_of_le_length hpiece.ge,
              List.drop_of_length_le hpiece.le,
              List.nil_append, ih _ fun other hother => hsome other (List.mem_cons_of_mem _ hother)]
  rw [chunksExact, hlength pieces hpieces, Nat.mul_div_cancel _ hsize]
  refine List.ext_getElem (by simp) fun index hleft hright => ?_
  rw [List.getElem_map, List.getElem_range, hdrop pieces hpieces,
    List.drop_eq_getElem_cons hright, List.flatten_cons,
    List.take_append_of_le_length (hpieces _ (List.getElem_mem hright)).ge,
    List.take_of_length_le (hpieces _ (List.getElem_mem hright)).le]

/-- The pieces of a list of whole pieces are of the size, and make up the list. -/
theorem flatten_chunks_exact {size : Nat} {items : List α} (h : items.length % size = 0) :
    (chunksExact size items).flatten = items ∧
      ∀ piece ∈ chunksExact size items, piece.length = size := by
  have hcount : items.length / size * size = items.length := by
    rw [Nat.mul_comm]
    have := Nat.div_add_mod items.length size
    omega
  have hpiece : ∀ index < items.length / size,
      ((items.drop (index * size)).take size).length = size := by
    intro index hindex
    have hlast := Nat.mul_le_mul_right size hindex
    rw [Nat.succ_mul] at hlast
    rw [List.length_take, List.length_drop]
    omega
  constructor
  · -- The first pieces make up a first part of the list.
    have htake : ∀ count, ((List.range count).map fun index =>
        (items.drop (index * size)).take size).flatten = items.take (count * size) := by
      intro count
      induction count with
      | zero => simp
      | succ count ih =>
          rw [List.range_succ, List.map_append, List.flatten_append, ih, Nat.succ_mul,
            List.take_add]
          simp
    rw [chunksExact, htake, hcount, List.take_length]
  · intro piece hmem
    obtain ⟨index, hindex, rfl⟩ := List.mem_map.mp hmem
    exact hpiece index (List.mem_range.mp hindex)

/-! ## Blocks of one length -/

/-- Blocks of one length behind each other, by position. -/
theorem flatMap_range_map (blocks : Nat) {length : Nat} (hpos : 0 < length) (f : Nat → Nat → α) :
    ((List.range blocks).flatMap fun block => (List.range length).map (f block)) =
      (List.range (blocks * length)).map fun position =>
        f (position / length) (position % length) := by
  induction blocks with
  | zero => simp
  | succ blocks ih =>
      rw [List.range_succ, List.flatMap_append, ih, Nat.succ_mul, List.range_add, List.map_append,
        List.flatMap_singleton, List.map_map]
      congr 1
      refine List.map_congr_left fun offset hoffset => ?_
      rw [List.mem_range] at hoffset
      rw [Function.comp_apply, Nat.mul_comm, Nat.mul_add_div hpos, Nat.mul_add_mod,
        Nat.div_eq_of_lt hoffset, Nat.mod_eq_of_lt hoffset, Nat.add_zero]

/-! ## Selection -/

section Selection

variable {α : Type} [LinearOrder α]

/-- Above the element at a position of a strictly sorted list are the elements behind it. -/
theorem length_filter_above_getElem {sorted : List α} (hsorted : sorted.Pairwise (· < ·))
    {index : Nat} {bound : α} (hbound : sorted[index]? = some bound) :
    (sorted.filter (bound < ·)).length + (index + 1) = sorted.length := by
  induction sorted generalizing index with
  | nil => simp at hbound
  | cons least rest ih =>
      rw [List.pairwise_cons] at hsorted
      cases index with
      | zero =>
          cases hbound
          rw [List.filter_cons_of_neg (by simp), List.filter_eq_self.mpr (by simpa using hsorted.1)]
          rfl
      | succ index =>
          have hrest : rest[index]? = some bound := by simpa using hbound
          have hless := hsorted.1 bound (List.mem_of_getElem? hrest)
          have hcount := ih hsorted.2 hrest
          rw [List.filter_cons_of_neg (by simpa using hless.le), List.length_cons]
          omega

/-- Selecting an element by its position in the sorted list selects how many elements are above
it, if no element occurs twice. -/
theorem length_filter_above_nth {values : List α} (hnodup : values.Nodup) {index : Nat} {bound : α}
    (hbound : (values.mergeSort (· ≤ ·))[index]? = some bound) :
    (values.filter (bound < ·)).length + (index + 1) = values.length := by
  have hperm := List.mergeSort_perm values (fun first second => decide (first ≤ second))
  have hle : (values.mergeSort (· ≤ ·)).Pairwise (· ≤ ·) := by
    have hsorted := @List.pairwise_mergeSort _ (fun first second : α => decide (first ≤ second))
      (by simpa using fun _ _ _ => le_trans) (by simpa using le_total) values
    simpa using hsorted
  have hlt : (values.mergeSort (· ≤ ·)).Pairwise (· < ·) :=
    (hle.and (hperm.nodup_iff.mpr hnodup)).imp fun h => lt_of_le_of_ne h.1 h.2
  rw [← (hperm.filter _).length_eq, ← hperm.length_eq]
  exact length_filter_above_getElem hlt hbound

/-- Behind the elements below a bound is the least one that is not below it, in a sorted list. -/
theorem getElem?_length_takeWhile {sorted : List α} (hsorted : sorted.Pairwise (· < ·))
    {bound value : α} (hvalue : sorted[(sorted.takeWhile (· < bound)).length]? = some value) :
    value ∈ sorted ∧ bound ≤ value ∧ ∀ other ∈ sorted, bound ≤ other → value ≤ other := by
  induction sorted with
  | nil => cases hvalue
  | cons least rest ih =>
      rw [List.pairwise_cons] at hsorted
      by_cases hlt : least < bound
      · rw [List.takeWhile_cons, if_pos (decide_eq_true hlt), List.length_cons,
          List.getElem?_cons_succ] at hvalue
        obtain ⟨hmem, hbound, hleast⟩ := ih hsorted.2 hvalue
        refine ⟨List.mem_cons_of_mem _ hmem, hbound, fun other hother hle => ?_⟩
        rcases List.mem_cons.mp hother with rfl | hrest
        · exact absurd hlt (not_lt.mpr hle)
        · exact hleast other hrest hle
      · rw [List.takeWhile_cons, if_neg (by simpa using hlt)] at hvalue
        cases hvalue
        refine ⟨List.mem_cons_self, not_lt.mp hlt, fun other hother _ => ?_⟩
        rcases List.mem_cons.mp hother with rfl | hrest
        · exact le_refl _
        · exact (hsorted.1 other hrest).le

end Selection

end Feuer.Lib
