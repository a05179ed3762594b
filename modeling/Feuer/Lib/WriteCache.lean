import Mathlib.Logic.Function.Basic
import Mathlib.Data.List.Basic

/-!
# A store behind a volatile write cache

Writes to a store take effect for readers when they are issued, and become durable when the store is
synced. Losing power keeps any part of the writes issued since the last sync, in their order.
-/

namespace Feuer.Lib

/-- The store after a list of writes, oldest first. -/
def replay {ι α : Type} [DecidableEq ι] : List (ι × α) → (ι → α) → ι → α
  | [], store => store
  | (index, value) :: rest, store => replay rest (Function.update store index value)

/-- A store and the writes that are not durable, oldest first. -/
structure WriteCache (ι α : Type) where
  durable : ι → α
  pending : List (ι × α)

section Replay

variable {ι α : Type} [DecidableEq ι] {store : ι → α} {index : ι}

/-- Later writes are replayed over earlier ones. -/
theorem replay_append (first second : List (ι × α)) (store : ι → α) :
    replay (first ++ second) store = replay second (replay first store) := by
  induction first generalizing store with
  | nil => rfl
  | cons write rest ih => exact ih _

/-- What the store and every write to an index satisfy holds at the index after the writes. -/
theorem replay_induct {P : α → Prop} {writes : List (ι × α)} (hstore : P (store index))
    (hwrites : ∀ write ∈ writes, write.1 = index → P write.2) : P (replay writes store index) := by
  induction writes generalizing store with
  | nil => exact hstore
  | cons write rest ih =>
      refine ih ?_ fun other hother => hwrites other (List.mem_cons_of_mem _ hother)
      by_cases heq : write.1 = index
      · subst heq
        rw [Function.update_self]
        exact hwrites write List.mem_cons_self rfl
      · rw [Function.update_of_ne (Ne.symm heq)]
        exact hstore

/-- Writes elsewhere leave an index as it was. -/
theorem replay_of_ne {writes : List (ι × α)} (h : ∀ write ∈ writes, write.1 ≠ index) :
    replay writes store index = store index :=
  replay_induct (P := fun value => value = store index) rfl
    fun write hwrite heq => absurd heq (h write hwrite)

/-- An index that is written, with one value only, has this value. -/
theorem replay_of_mem {writes : List (ι × α)} {value : α} (hmem : (index, value) ∈ writes)
    (h : ∀ write ∈ writes, write.1 = index → write.2 = value) :
    replay writes store index = value := by
  obtain ⟨before, after, rfl⟩ := List.append_of_mem hmem
  have hafter : ∀ write ∈ after, write.1 = index → write.2 = value := fun write hwrite =>
    h write (by simp [hwrite])
  rw [replay_append, replay]
  exact replay_induct (P := fun found => found = value) (Function.update_self _ _ _) hafter

/-- An index only sees the writes to it. -/
theorem replay_filter {p : ι × α → Bool} {writes : List (ι × α)} {other : ι → α}
    (hstore : store index = other index) (hkept : ∀ write ∈ writes, write.1 = index → p write) :
    replay (writes.filter p) store index = replay writes other index := by
  induction writes generalizing store other with
  | nil => exact hstore
  | cons write rest ih =>
      have hrest : ∀ found ∈ rest, found.1 = index → p found := fun found hfound =>
        hkept found (List.mem_cons_of_mem _ hfound)
      by_cases heq : write.1 = index
      · subst heq
        rw [List.filter_cons_of_pos (hkept write List.mem_cons_self rfl)]
        exact ih (by simp) hrest
      · have hother : Function.update other write.1 write.2 index = other index :=
          Function.update_of_ne (Ne.symm heq) _ _
        by_cases hp : p write
        · rw [List.filter_cons_of_pos hp]
          refine ih ?_ hrest
          rw [hother, Function.update_of_ne (Ne.symm heq), hstore]
        · rw [List.filter_cons_of_neg hp]
          exact ih (hstore.trans hother.symm) hrest

end Replay

namespace WriteCache

variable {ι α : Type} [DecidableEq ι]

/-- What readers see. -/
def contents (cache : WriteCache ι α) : ι → α := replay cache.pending cache.durable

def issue (cache : WriteCache ι α) (writes : List (ι × α)) : WriteCache ι α :=
  { cache with pending := cache.pending ++ writes }

/-- All issued writes become durable. -/
def sync (cache : WriteCache ι α) : WriteCache ι α := ⟨cache.contents, []⟩

/-- Power is lost, and a part of the pending writes survives. -/
def losePower (cache : WriteCache ι α) (kept : List (ι × α)) : WriteCache ι α :=
  ⟨replay kept cache.durable, []⟩

/-- Issued writes are in the contents at once. -/
theorem contents_issue (cache : WriteCache ι α) (writes : List (ι × α)) :
    (cache.issue writes).contents = replay writes cache.contents :=
  replay_append _ _ _

end WriteCache

end Feuer.Lib
