import Mathlib.Data.Finmap
import Mathlib.Data.Finset.Max
import Mathlib.Algebra.BigOperators.Group.Multiset.Basic
import Mathlib.Algebra.Order.BigOperators.Group.Multiset
import Mathlib.Algebra.BigOperators.Group.Finset.Basic
import Mathlib.Tactic.Ring

/-!
# Finite maps, their weights, and their neighbouring keys

Every table of the development is a `Finmap` with values of one type. `tally` adds up a weight
over the bindings of a map; counting the bindings with a property and adding up their sizes are
both tallies. `last?` and `first?` are the ordered lookups of an ordered map: the greatest
and the least key whose binding satisfies a predicate.
-/

namespace Feuer.Lib

/-- A finite map from `κ` to `ν`. -/
abbrev FiniteMap (κ ν : Type) := Finmap (fun _ : κ => ν)

namespace FiniteMap

variable {κ ν : Type}

/-- The sum of a weight over all bindings of a map. -/
def tally (weight : κ → ν → Nat) (map : FiniteMap κ ν) : Nat :=
  (map.entries.map fun entry => weight entry.1 entry.2).sum

/-- The empty map weighs nothing. -/
@[simp] theorem tally_empty (weight : κ → ν → Nat) : tally weight (∅ : FiniteMap κ ν) = 0 := rfl

section Weights

variable [DecidableEq κ]

/-- Every lookup after an insertion. -/
theorem lookup_insert_eq (map : FiniteMap κ ν) (key other : κ) (value : ν) :
    (map.insert key value).lookup other = if other = key then some value else map.lookup other := by
  split
  next h => rw [h, Finmap.lookup_insert]
  next h => exact Finmap.lookup_insert_of_ne _ h

/-- Every lookup after an erasure. -/
theorem lookup_erase_eq (map : FiniteMap κ ν) (key other : κ) :
    (map.erase key).lookup other = if other = key then none else map.lookup other := by
  split
  next h => rw [h, Finmap.lookup_erase]
  next h => exact Finmap.lookup_erase_ne h

/-- An erasure leaves the bindings of the other keys. -/
theorem lookup_erase_eq_some {map : FiniteMap κ ν} {key other : κ} {value : ν} :
    (map.erase key).lookup other = some value ↔ other ≠ key ∧ map.lookup other = some value := by
  rw [lookup_erase_eq]
  split
  next h => simp [h]
  next h => simp [h]

/-- A new binding adds its own weight. -/
theorem tally_insert_new {map : FiniteMap κ ν} {key : κ} (weight : κ → ν → Nat) (value : ν)
    (habsent : map.lookup key = none) :
    tally weight (map.insert key value) = weight key value + tally weight map := by
  rw [tally, Finmap.entries_insert_of_notMem (Finmap.lookup_eq_none.mp habsent)]
  simp [tally]

/-- A map is a binding of it inserted into the rest. -/
theorem insert_erase_self {map : FiniteMap κ ν} {key : κ} {value : ν}
    (hkey : map.lookup key = some value) : (map.erase key).insert key value = map := by
  apply Finmap.ext_lookup
  intro other
  rw [lookup_insert_eq, lookup_erase_eq]
  split
  next h => rw [h, hkey]
  next => rfl

/-- Removing a binding takes away its own weight. -/
theorem tally_erase {map : FiniteMap κ ν} {key : κ} {value : ν} (weight : κ → ν → Nat)
    (hkey : map.lookup key = some value) :
    tally weight map = weight key value + tally weight (map.erase key) := by
  conv_lhs => rw [← insert_erase_self hkey]
  exact tally_insert_new weight value (Finmap.lookup_erase key map)

/-- Erasing an absent key changes nothing. -/
theorem erase_absent {map : FiniteMap κ ν} {key : κ} (habsent : map.lookup key = none) :
    map.erase key = map := by
  apply Finmap.ext_lookup
  intro other
  rw [lookup_erase_eq]
  split
  next h => rw [h, habsent]
  next => rfl

/-- Erasing a key and then binding it again is binding it. -/
theorem insert_erase (map : FiniteMap κ ν) (key : κ) (value : ν) :
    (map.erase key).insert key value = map.insert key value := by
  apply Finmap.ext_lookup
  intro other
  rw [lookup_insert_eq, lookup_insert_eq, lookup_erase_eq]
  split <;> rfl

/-- Replacing a binding exchanges the weights of the old and the new value. -/
theorem tally_replace {map : FiniteMap κ ν} {key : κ} {old : ν} (weight : κ → ν → Nat)
    (value : ν) (hkey : map.lookup key = some old) :
    tally weight (map.insert key value) + weight key old =
      weight key value + tally weight map := by
  rw [← insert_erase, tally_insert_new weight value (Finmap.lookup_erase key map),
    tally_erase weight hkey]
  ring

/-- Setting a number exchanges it for the old one, which counts as zero when it is absent. -/
theorem tally_set (map : FiniteMap κ Nat) (key : κ) (value : Nat) :
    tally (fun _ number => number) (map.insert key value) + (map.lookup key).getD 0 =
      tally (fun _ number => number) map + value := by
  cases hkey : map.lookup key with
  | none => simp [tally_insert_new _ _ hkey, Nat.add_comm]
  | some old => simpa [Nat.add_comm] using tally_replace (fun _ number => number) value hkey

/-- A binding adds at most its own weight. -/
theorem tally_insert_le (map : FiniteMap κ ν) (key : κ) (weight : κ → ν → Nat) (value : ν) :
    tally weight (map.insert key value) ≤ weight key value + tally weight map := by
  cases hkey : map.lookup key with
  | none => exact Nat.le_of_eq (tally_insert_new weight value hkey)
  | some old =>
      have := tally_replace weight value hkey
      omega

/-- No binding outweighs the whole map. -/
theorem le_tally {map : FiniteMap κ ν} {key : κ} {value : ν} (weight : κ → ν → Nat)
    (hkey : map.lookup key = some value) : weight key value ≤ tally weight map := by
  rw [tally_erase weight hkey]
  exact Nat.le_add_right _ _

/-- Two different bindings together do not outweigh the whole map. -/
theorem add_le_tally {map : FiniteMap κ ν} {first second : κ} {left right : ν}
    (weight : κ → ν → Nat) (hfirst : map.lookup first = some left)
    (hsecond : map.lookup second = some right) (hne : first ≠ second) :
    weight first left + weight second right ≤ tally weight map := by
  rw [tally_erase weight hfirst]
  refine Nat.add_le_add_left (le_tally weight ?_) _
  rw [Finmap.lookup_erase_ne (Ne.symm hne)]
  exact hsecond

/-- The tally only reads the weights of the bindings the map has. -/
theorem tally_congr {map : FiniteMap κ ν} {left right : κ → ν → Nat}
    (h : ∀ key value, map.lookup key = some value → left key value = right key value) :
    tally left map = tally right map := by
  unfold tally
  congr 1
  apply Multiset.map_congr rfl
  intro entry hentry
  exact h entry.1 entry.2 (Finmap.lookup_eq_some_iff.mpr hentry)

/-- A map with a positive tally has a binding of positive weight. -/
theorem exists_of_tally_pos {map : FiniteMap κ ν} {weight : κ → ν → Nat}
    (hpos : 0 < tally weight map) :
    ∃ key value, map.lookup key = some value ∧ 0 < weight key value := by
  by_contra hnone
  have hzero : tally weight map = tally (fun _ _ => 0) map := by
    apply tally_congr
    intro key value hkey
    by_contra hweight
    exact hnone ⟨key, value, hkey, Nat.pos_of_ne_zero hweight⟩
  rw [hzero] at hpos
  simp [tally] at hpos

/-- A count of values is positive if the map has one of them. -/
theorem tally_count_pos {map : FiniteMap κ ν} {p : ν → Prop} [DecidablePred p] :
    0 < tally (fun _ value => if p value then 1 else 0) map ↔
      ∃ key value, map.lookup key = some value ∧ p value := by
  constructor
  · intro hpos
    obtain ⟨key, value, hkey, hweight⟩ := exists_of_tally_pos hpos
    refine ⟨key, value, hkey, ?_⟩
    by_contra hvalue
    rw [if_neg hvalue] at hweight
    exact absurd hweight (Nat.lt_irrefl 0)
  · rintro ⟨key, value, hkey, hvalue⟩
    have hle := le_tally (fun (_ : κ) (value : ν) => if p value then 1 else 0) hkey
    rw [if_pos hvalue] at hle
    exact hle

/-- The tally is zero when every binding weighs nothing. -/
theorem tally_eq_zero {map : FiniteMap κ ν} {weight : κ → ν → Nat}
    (h : ∀ key value, map.lookup key = some value → weight key value = 0) :
    tally weight map = 0 := by
  by_contra hne
  obtain ⟨key, value, hkey, hpos⟩ := exists_of_tally_pos (Nat.pos_of_ne_zero hne)
  exact absurd (h key value hkey) (Nat.pos_iff_ne_zero.mp hpos)

/-- Maps that give every key the same weight have the same tally. -/
theorem tally_eq_tally {left right : FiniteMap κ ν} {weight : κ → ν → Nat}
    (h : ∀ key, (left.lookup key).map (weight key) = (right.lookup key).map (weight key)) :
    tally weight left = tally weight right := by
  induction hcount : left.keys.card generalizing left right with
  | zero =>
      have hleft : ∀ key, left.lookup key = none := by
        intro key
        rw [Finmap.lookup_eq_none, ← Finmap.mem_keys, Finset.card_eq_zero.mp hcount]
        exact Finset.notMem_empty key
      have hright : tally weight right = 0 := by
        refine tally_eq_zero fun key value hkey => ?_
        have hsame := h key
        rw [hleft key, hkey] at hsame
        cases hsame
      rw [hright]
      refine tally_eq_zero fun key value hkey => ?_
      rw [hleft key] at hkey
      cases hkey
  | succ count ih =>
      obtain ⟨key, hkey⟩ := Finset.card_pos.mp (show 0 < left.keys.card by omega)
      obtain ⟨value, hvalue⟩ := Option.isSome_iff_exists.mp (Finmap.lookup_isSome.mpr
        (Finmap.mem_keys.mp hkey))
      have hsame := h key
      rw [hvalue] at hsame
      obtain ⟨other, hother, hweight⟩ := Option.map_eq_some_iff.mp hsame.symm
      have hrest : tally weight (left.erase key) = tally weight (right.erase key) := by
        refine ih (fun found => ?_) ?_
        · rw [lookup_erase_eq, lookup_erase_eq]
          split
          next => rfl
          next => exact h found
        · rw [Finmap.keys_erase, Finset.card_erase_of_mem hkey]
          omega
      rw [tally_erase weight hvalue, tally_erase weight hother, hweight, hrest]

/-- A map over the numbers below `count` weighs at most the sum of the bounds. -/
theorem tally_le_sum {weight : Nat → ν → Nat} {bound : Nat → Nat} {count : Nat}
    {map : FiniteMap Nat ν}
    (h : ∀ key value, map.lookup key = some value → key < count ∧ weight key value ≤ bound key) :
    map.tally weight ≤ ((List.range count).map bound).sum := by
  induction count generalizing map with
  | zero =>
      refine (tally_eq_zero fun key value hkey => ?_).le
      exact absurd (h key value hkey).1 (Nat.not_lt_zero key)
  | succ count ih =>
      rw [List.range_succ, List.map_append, List.sum_append, List.map_singleton, List.sum_singleton]
      have hbelow : ∀ key value, (map.erase count).lookup key = some value →
          key < count ∧ weight key value ≤ bound key := by
        intro key value hkey
        obtain ⟨hne, hkey⟩ := lookup_erase_eq_some.mp hkey
        obtain ⟨hlt, hle⟩ := h key value hkey
        exact ⟨Nat.lt_of_le_of_ne (Nat.le_of_lt_succ hlt) hne, hle⟩
      have hrest := ih hbelow
      cases hlast : map.lookup count with
      | none =>
          rw [erase_absent hlast] at hrest
          omega
      | some value =>
          have herase := tally_erase weight hlast
          have hle := (h count value hlast).2
          omega

end Weights

/-! ## Ordered lookups -/

section Ordered

variable [LinearOrder κ]

/-- The keys whose binding satisfies a predicate. -/
def matching (p : κ → ν → Bool) (map : FiniteMap κ ν) : Finset κ :=
  map.keys.filter fun key => (map.lookup key).any (p key)

/-- A key matches if its entry does. -/
theorem mem_matching {p : κ → ν → Bool} {map : FiniteMap κ ν} {key : κ} :
    key ∈ matching p map ↔ ∃ value, map.lookup key = some value ∧ p key value = true := by
  simp only [matching, Finset.mem_filter, Finmap.mem_keys, Option.any_eq_true]
  constructor
  · rintro ⟨-, value, hkey, hp⟩
    exact ⟨value, hkey, hp⟩
  · rintro ⟨value, hkey, hp⟩
    exact ⟨Finmap.mem_of_lookup_eq_some hkey, value, hkey, hp⟩

/-- The greatest key whose binding satisfies the predicate, with its value. -/
def last? (p : κ → ν → Bool) (map : FiniteMap κ ν) : Option (κ × ν) :=
  if h : (matching p map).Nonempty then
    let key := (matching p map).max' h
    (map.lookup key).map fun value => (key, value)
  else none

/-- The least key whose binding satisfies the predicate, with its value. -/
def first? (p : κ → ν → Bool) (map : FiniteMap κ ν) : Option (κ × ν) :=
  if h : (matching p map).Nonempty then
    let key := (matching p map).min' h
    (map.lookup key).map fun value => (key, value)
  else none

/-- `last?` finds a matching binding above all other matching keys. -/
theorem last?_eq_some {p : κ → ν → Bool} {map : FiniteMap κ ν} {key : κ} {value : ν}
    (h : last? p map = some (key, value)) :
    map.lookup key = some value ∧ p key value = true ∧
      ∀ other found, map.lookup other = some found → p other found = true → other ≤ key := by
  unfold last? at h
  split at h
  next hne =>
    simp only [Option.map_eq_some_iff, Prod.mk.injEq] at h
    obtain ⟨found, hfound, hkey, rfl⟩ := h
    rw [hkey] at hfound
    have hmem := (matching p map).max'_mem hne
    rw [hkey, mem_matching] at hmem
    obtain ⟨_, hlookup, hp⟩ := hmem
    rw [hfound] at hlookup
    cases hlookup
    refine ⟨hfound, hp, fun other found hother hpo => ?_⟩
    rw [← hkey]
    exact Finset.le_max' _ _ (mem_matching.mpr ⟨found, hother, hpo⟩)
  next => cases h

/-- `last?` fails only when no binding matches. -/
theorem last?_eq_none {p : κ → ν → Bool} {map : FiniteMap κ ν} (h : last? p map = none)
    (key : κ) (value : ν) (hkey : map.lookup key = some value) : p key value = false := by
  by_contra hp
  have hmem : key ∈ matching p map := mem_matching.mpr ⟨value, hkey, by simpa using hp⟩
  have hne : (matching p map).Nonempty := ⟨key, hmem⟩
  obtain ⟨_, hlast, _⟩ := mem_matching.mp ((matching p map).max'_mem hne)
  simp [last?, hne, hlast] at h

/-- `first?` finds a matching binding below all other matching keys. -/
theorem first?_eq_some {p : κ → ν → Bool} {map : FiniteMap κ ν} {key : κ} {value : ν}
    (h : first? p map = some (key, value)) :
    map.lookup key = some value ∧ p key value = true ∧
      ∀ other found, map.lookup other = some found → p other found = true → key ≤ other := by
  unfold first? at h
  split at h
  next hne =>
    simp only [Option.map_eq_some_iff, Prod.mk.injEq] at h
    obtain ⟨found, hfound, hkey, rfl⟩ := h
    rw [hkey] at hfound
    have hmem := (matching p map).min'_mem hne
    rw [hkey, mem_matching] at hmem
    obtain ⟨_, hlookup, hp⟩ := hmem
    rw [hfound] at hlookup
    cases hlookup
    refine ⟨hfound, hp, fun other found hother hpo => ?_⟩
    rw [← hkey]
    exact Finset.min'_le _ _ (mem_matching.mpr ⟨found, hother, hpo⟩)
  next => cases h

/-- `first?` fails only when no binding matches. -/
theorem first?_eq_none {p : κ → ν → Bool} {map : FiniteMap κ ν} (h : first? p map = none)
    (key : κ) (value : ν) (hkey : map.lookup key = some value) : p key value = false := by
  by_contra hp
  have hmem : key ∈ matching p map := mem_matching.mpr ⟨value, hkey, by simpa using hp⟩
  have hne : (matching p map).Nonempty := ⟨key, hmem⟩
  obtain ⟨_, hfirst, _⟩ := mem_matching.mp ((matching p map).min'_mem hne)
  simp [first?, hne, hfirst] at h

end Ordered

end FiniteMap

/-- Updating a family at one index exchanges one weight of its sum. -/
theorem sum_update {ι α : Type} [Fintype ι] [DecidableEq ι] (family : ι → α) (weight : α → Nat)
    (index : ι) (value : α) :
    (∑ other, weight (Function.update family index value other)) + weight (family index) =
      (∑ other, weight (family other)) + weight value := by
  rw [← Finset.add_sum_erase Finset.univ _ (Finset.mem_univ index),
    ← Finset.add_sum_erase Finset.univ (fun other => weight (family other)) (Finset.mem_univ index),
    Function.update_self]
  have hrest : ∑ other ∈ Finset.univ.erase index,
    weight (Function.update family index value other) =
      ∑ other ∈ Finset.univ.erase index, weight (family other) :=
    Finset.sum_congr rfl fun other hother => by
      rw [Function.update_of_ne (Finset.ne_of_mem_erase hother)]
  omega

end Feuer.Lib
