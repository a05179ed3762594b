import Feuer.Lib.CircularWindow
import Feuer.Memory.Retention

/-!
# Samples rotate through the candidates

A sample is a window of the list of candidates, and the cursor that a call leaves is the position
behind it. Consecutive calls on one list therefore make up one long window, also when calls on an
empty list come between them, and no candidate is left out or preferred.
-/

namespace Feuer.Memory

open Lib

variable {α : Type}

/-- The samples of consecutive calls on the given lists, each with the cursor that the call before
it left. -/
def sampleRun (sampleSize : Nat) : Nat → List (List α) → List (List α)
  | _, [] => []
  | nextSampleStart, candidates :: rest =>
      let (sample, next) := sampleCandidates nextSampleStart candidates sampleSize
      sample :: sampleRun sampleSize next rest

/-- A call on an empty list yields nothing and keeps the cursor. -/
theorem sample_candidates_nil (start size : Nat) :
    sampleCandidates start ([] : List α) size = ([], start) := by
  simp [sampleCandidates]

/-- The sample is a window of the candidates. -/
theorem sample_eq_window {candidates : List α} (hcandidates : candidates ≠ []) (start size : Nat) :
    (sampleCandidates start candidates size).1.map some =
      (window candidates.length start (min candidates.length size)).map (candidates[·]?) := by
  have hpos := List.length_pos_iff.mpr hcandidates
  have hrotate : (sampleCandidates start candidates size).1 =
      (candidates.rotate start).take (min candidates.length size) := by
    have htake := List.take_eq_take_min (l := candidates.rotate start) (i := size)
    rw [List.length_rotate, Nat.min_comm] at htake
    rw [← htake, List.rotate_eq_drop_append_take_mod, sampleCandidates, max_eq_left hpos]
  rw [hrotate]
  exact take_rotate (Nat.min_le_left _ _)

/-- The cursor moves behind the sample. -/
theorem sample_next {candidates : List α} (hcandidates : candidates ≠ []) (start size : Nat) :
    (sampleCandidates start candidates size).2 =
      (start + min candidates.length size) % candidates.length := by
  have hpos := List.length_pos_iff.mpr hcandidates
  have hmax : max candidates.length 1 = candidates.length := by omega
  simp only [sampleCandidates, if_pos hpos, hmax, Nat.mod_add_mod]

/-- The samples of consecutive calls behind each other are one window. -/
theorem sample_run_eq_window {candidates : List α} (hcandidates : candidates ≠ [])
    (size start : Nat)
    {calls : List (List α)} (hcalls : ∀ call ∈ calls, call = candidates ∨ call = []) :
    (sampleRun size start calls).flatten.map some =
      (window candidates.length start
        (calls.countP (!·.isEmpty) * min candidates.length size)).map (candidates[·]?) := by
  induction calls generalizing start with
  | nil => simp [sampleRun, window]
  | cons call rest ih =>
      have hrest :=
        fun next => ih next fun other hother => hcalls other (List.mem_cons_of_mem _ hother)
      rw [sampleRun, List.flatten_cons, List.map_append, hrest]
      rcases hcalls call List.mem_cons_self with rfl | rfl
      · rw [sample_eq_window hcandidates, sample_next hcandidates, window_mod, ← List.map_append,
          ← window_append, List.countP_cons_of_pos (by simpa using hcandidates), Nat.succ_mul,
          Nat.add_comm]
      · rw [sample_candidates_nil, List.map_nil, List.nil_append, List.countP_cons_of_neg (by simp)]

/-- Every call yields as many candidates as it may, at consecutive positions of the list, and the
next one goes on behind them. Consecutive calls come by every candidate equally often, up to one. -/
theorem sample_candidates_cover {candidates : List α} (hcandidates : candidates ≠ []) {size : Nat}
    (hsize : 1 ≤ size) :
    (∀ start,
      let sample := sampleCandidates start candidates size
      sample.1.length = min candidates.length size ∧
      sample.1.map some = (window candidates.length start (min candidates.length size)).map
        (candidates[·]?) ∧
      (window candidates.length start (min candidates.length size)).Nodup ∧
      ∃ last, (window candidates.length start (min candidates.length size)).getLast? = some last ∧
        sample.2 = (last + 1) % candidates.length) ∧
    (∀ start calls, (∀ call ∈ calls, call = candidates ∨ call = []) →
      let total := calls.countP (!·.isEmpty) * min candidates.length size
      (sampleRun size start calls).flatten.map some =
        (window candidates.length start total).map (candidates[·]?) ∧
      ∀ position < candidates.length,
        total / candidates.length ≤ (window candidates.length start total).count position ∧
        (window candidates.length start total).count position ≤
          (total + candidates.length - 1) / candidates.length ∧
        (candidates.length ≤ calls.countP (!·.isEmpty) * size →
          0 < (window candidates.length start total).count position)) ∧
    ∀ start, sampleCandidates start ([] : List α) size = ([], start) := by
  have hpos := List.length_pos_iff.mpr hcandidates
  refine ⟨fun start =>
    ⟨?_, sample_eq_window hcandidates start size, nodup_window (Nat.min_le_left _ _),
      ?_⟩, fun start calls hcalls => ⟨sample_run_eq_window hcandidates size start hcalls,
      fun position hposition => ?_⟩, fun start => sample_candidates_nil start size⟩
  · have hlength := congrArg List.length (sample_eq_window hcandidates start size)
    simpa using hlength
  · have hmin : 0 < min candidates.length size := lt_min hpos hsize
    refine ⟨(start + (min candidates.length size - 1)) % candidates.length, ?_, ?_⟩
    · rw [List.getLast?_eq_getElem?, length_window, getElem?_window (by omega)]
    · rw [sample_next hcandidates, Nat.mod_add_mod]
      congr 1
      omega
  · obtain ⟨hleast, hmost⟩ := @count_window candidates.length start
      (calls.countP (!·.isEmpty) * min candidates.length size) hpos position hposition
    refine ⟨hleast, hmost, fun henough => lt_of_lt_of_le ?_ hleast⟩
    -- A round is complete, whichever of the two limits a sample.
    refine Nat.div_pos ?_ hpos
    rcases Nat.le_total candidates.length size with hall | hpart
    · rw [Nat.min_eq_left hall]
      refine Nat.le_mul_of_pos_left _ (Nat.pos_of_ne_zero fun hzero => ?_)
      rw [hzero, Nat.zero_mul] at henough
      omega
    · rw [Nat.min_eq_right hpart]
      exact henough

/-- Two calls on three candidates and one on none, from a cursor beyond the list. -/
theorem sample_candidates_cover_wrapped :
    (sampleRun 2 7 [[10, 20, 30], [], [10, 20, 30]]).flatten.map some =
      (window 3 7 4).map ([10, 20, 30][·]?) :=
  ((@sample_candidates_cover Nat [10, 20, 30] (by decide) 2 (by decide)).2.1 7
    [[10, 20, 30], [], [10, 20, 30]] (by decide)).1

end Feuer.Memory
