import Feuer.Uring.ReadAdmission

/-!
# What holds of the read queue in every run

`ReadCall.Sound` says, for each phase of a call, what its history allows. `PayloadReadQueue.Sound`
adds how the calls, the list of waiting reads, and the semaphore agree. Every part of a call keeps
it, so it holds after every run (`PayloadReadQueue.run_admits`).
-/

namespace Feuer.Uring

open Lib

/-! ## One call -/

namespace ReadCall

/-- What a call's history allows in its phase. -/
def InPhase (read : ReadCall) : Prop :=
  match read.phase with
  | .arriving => read.scheduled = false ∧ read.permit = false ∧ read.polled = false
  | .enqueueing => read.answers ≠ [true] ∧ read.permit = false ∧ read.polled = false
  | .polling => read.answers ≠ [true]
  | .acquiring => read.answers ≠ [true]
  | .admitted => read.answers ≠ [true] ∧ read.permit = true
  | .deciding scheduled =>
      scheduled = read.scheduled ∧ read.answers ≠ [true] ∧ read.permit = true
  | .leaving cancelled => cancelled = false → read.answers = [true]
  | .unlisting cancelled => (cancelled = false → read.answers = [true]) ∧ read.permit = false
  | .holding => (read.scheduled = true → read.answers = [false]) ∧ read.permit = true
  | .released => (read.scheduled = true → read.answers = [false]) ∧ read.permit = false
  | .fellThrough => read.answers = [true] ∧ read.permit = false
  | .cancelled => read.permit = false

/-- A call: its callback runs at most once, and only after it was scheduled; a scheduled check that
has not run is still notified. -/
structure Sound (read : ReadCall) : Prop where
  phase : read.InPhase
  notified : read.notified = true → read.scheduled = true
  kept : read.scheduled = true → read.unchecked = true → read.notified = true
  answers : read.answers = [] ∧ read.unchecked = true ∨
    read.answers.length = 1 ∧ read.unchecked = false ∧ read.scheduled = true
  immediate : read.immediate = true →
    read.scheduled = false ∧ (read.phase = .holding ∨ read.phase = .released)

/-- A new read is sound. -/
theorem Sound.new (admitted : Bool) : (new admitted).Sound := by
  cases admitted <;> exact ⟨by simp [InPhase, ReadCall.new], by simp [ReadCall.new],
    by simp [ReadCall.new], by simp [ReadCall.new], by simp [ReadCall.new]⟩

/-- An answer that is not a permit is a refusal. -/
theorem answers_singleton {read : ReadCall} (hlength : read.answers.length = 1)
    (hanswers : read.answers ≠ [true]) : read.answers = [false] := by
  obtain ⟨answer, hanswer⟩ := List.length_eq_one_iff.mp hlength
  cases answer with
  | true => exact absurd hanswer hanswers
  | false => exact hanswer

/-- A call that is on its way got no permit immediately. -/
theorem Sound.not_immediate {read : ReadCall} (h : read.Sound) (hholding : read.phase ≠ .holding)
    (hreleased : read.phase ≠ .released) : read.immediate = false := by
  cases himmediate : read.immediate with
  | false => rfl
  | true =>
      rcases (h.immediate himmediate).2 with hphase | hphase
      · exact absurd hphase hholding
      · exact absurd hphase hreleased

/-- A call that is on its way enters another phase. -/
theorem Sound.enter {read : ReadCall} (h : read.Sound) {phase : ReadPhase}
    (hin : InPhase { read with phase }) (hholding : read.phase ≠ .holding)
    (hreleased : read.phase ≠ .released) : Sound { read with phase } := by
  refine ⟨hin, h.notified, h.kept, h.answers, fun himmediate => ?_⟩
  rw [h.not_immediate hholding hreleased] at himmediate
  cases himmediate

/-- The callback runs on a scheduled call that has not checked. -/
theorem Sound.check {read : ReadCall} (h : read.Sound) (hunchecked : read.unchecked = true)
    (answer : Bool) : (PayloadReadQueue.check read answer).answers = [answer] := by
  rcases h.answers with ⟨hnone, -⟩ | ⟨-, hchecked, -⟩
  · simp [PayloadReadQueue.check, hnone]
  · rw [hunchecked] at hchecked
    cases hchecked

end ReadCall

variable {reads : FiniteMap Nat ReadCall} {id : Nat} {read changed : ReadCall}

/-! ## The list of waiting reads -/

/-- The list holds exactly the queued reads, each with its flag. -/
structure Waiting (waitingReads : List (Nat × Bool)) (reads : FiniteMap Nat ReadCall) : Prop where
  nodup : (waitingReads.map Prod.fst).Nodup
  listed : ∀ id, id ∈ waitingReads.map Prod.fst ↔
    ∃ read, reads.lookup id = some read ∧ read.phase.listed = true
  flags : ∀ id flag read, (id, flag) ∈ waitingReads → reads.lookup id = some read →
    flag = read.scheduled

namespace Waiting

variable {waitingReads : List (Nat × Bool)}

/-- A queued read has an entry with its flag. -/
theorem mem_of_listed (h : Waiting waitingReads reads) (hread : reads.lookup id = some read)
    (hlisted : read.phase.listed = true) : (id, read.scheduled) ∈ waitingReads := by
  obtain ⟨⟨other, flag⟩, hmem, rfl⟩ := List.mem_map.mp ((h.listed id).mpr ⟨read, hread, hlisted⟩)
  rwa [← h.flags other flag read hmem hread]

/-- A read that is not queued has no entry. -/
theorem notMem_of_not_listed (h : Waiting waitingReads reads)
    (hread : ∀ read, reads.lookup id = some read → read.phase.listed = false) :
    id ∉ waitingReads.map Prod.fst := by
  intro hmem
  obtain ⟨read, hlookup, hlisted⟩ := (h.listed id).mp hmem
  rw [hread read hlookup] at hlisted
  cases hlisted

/-- A change of a read that the list does not show. -/
theorem set_read (h : Waiting waitingReads reads) (hread : reads.lookup id = some read)
    (hlisted : changed.phase.listed = read.phase.listed)
    (hscheduled : changed.scheduled = read.scheduled) :
    Waiting waitingReads (reads.insert id changed) where
  nodup := h.nodup
  listed other := by
    rw [h.listed, FiniteMap.lookup_insert_eq]
    split
    next heq =>
      subst heq
      simp [hread, hlisted]
    next => rfl
  flags other flag found hmem hfound := by
    rw [FiniteMap.lookup_insert_eq] at hfound
    split at hfound
    next heq =>
      cases hfound
      rw [hscheduled]
      exact h.flags other flag read hmem (heq ▸ hread)
    next => exact h.flags other flag found hmem hfound

/-- A new call that is not queued. -/
theorem add (h : Waiting waitingReads reads) (hfresh : reads.lookup id = none)
    (hlisted : changed.phase.listed = false) : Waiting waitingReads (reads.insert id changed) where
  nodup := h.nodup
  listed other := by
    rw [h.listed, FiniteMap.lookup_insert_eq]
    split
    next heq =>
      subst heq
      simp [hfresh, hlisted]
    next => rfl
  flags other flag found hmem hfound := by
    rw [FiniteMap.lookup_insert_eq] at hfound
    split at hfound
    next heq =>
      have habsent :=
        h.notMem_of_not_listed (fun found hfound => by rw [hfresh] at hfound; cases hfound)
      exact absurd (List.mem_map_of_mem (f := Prod.fst) hmem) (heq ▸ habsent)
    next => exact h.flags other flag found hmem hfound

/-- An arriving read joins the list. -/
theorem push (h : Waiting waitingReads reads) (hread : reads.lookup id = some read)
    (hout : read.phase.listed = false) (hlisted : changed.phase.listed = true)
    (hscheduled : changed.scheduled = false) :
    Waiting (waitingReads ++ [(id, false)]) (reads.insert id changed) := by
  have habsent : id ∉ waitingReads.map Prod.fst := h.notMem_of_not_listed fun found hfound => by
    rw [hread] at hfound
    cases hfound
    exact hout
  refine ⟨?_, fun other => ?_, fun other flag found hmem hfound => ?_⟩
  · rw [List.map_append, List.nodup_append]
    refine ⟨h.nodup, by simp, fun other hother last hlast heq => habsent ?_⟩
    have hid : last = id := by simpa using hlast
    rw [← hid, ← heq]
    exact hother
  · rw [List.map_append, List.mem_append, h.listed, FiniteMap.lookup_insert_eq]
    split
    next heq =>
      subst heq
      simp [hlisted]
    next hne => simp [hne]
  · rw [FiniteMap.lookup_insert_eq] at hfound
    rcases List.mem_append.mp hmem with hold | hlast
    · have hne : other ≠ id := by
        rintro rfl
        exact habsent (List.mem_map_of_mem (f := Prod.fst) hold)
      rw [if_neg hne] at hfound
      exact h.flags other flag found hold hfound
    · obtain ⟨rfl, rfl⟩ : other = id ∧ flag = false := by simpa using hlast
      rw [if_pos rfl] at hfound
      cases hfound
      exact hscheduled.symm

/-- A queued read gets its flag. -/
theorem mark (h : Waiting waitingReads reads) (hread : reads.lookup id = some read)
    (hlisted : changed.phase.listed = read.phase.listed) (hscheduled : changed.scheduled = true) :
    Waiting (waitingReads.map fun entry => if entry.1 = id then (id, true) else entry)
      (reads.insert id changed) := by
  have hkeys : (waitingReads.map fun entry => if entry.1 = id then (id, true) else entry).map
      Prod.fst = waitingReads.map Prod.fst := by
    rw [List.map_map]
    refine List.map_congr_left fun entry _ => ?_
    simp only [Function.comp_apply]
    split
    next heq => exact heq.symm
    next => rfl
  refine ⟨hkeys ▸ h.nodup, fun other => ?_, fun other flag found hmem hfound => ?_⟩
  · rw [hkeys, h.listed, FiniteMap.lookup_insert_eq]
    split
    next heq =>
      subst heq
      simp [hread, hlisted]
    next => rfl
  · obtain ⟨entry, hentry, heq⟩ := List.mem_map.mp hmem
    rw [FiniteMap.lookup_insert_eq] at hfound
    split at heq
    next =>
      cases heq
      rw [if_pos rfl] at hfound
      cases hfound
      exact hscheduled.symm
    next hne =>
      subst heq
      rw [if_neg hne] at hfound
      exact h.flags _ _ found hentry hfound

/-- Removing a queued read finds its entry and returns its flag. -/
theorem remove_waiting_spec (h : Waiting waitingReads reads) (hread : reads.lookup id = some read)
    (hin : read.phase.listed = true) (hlisted : changed.phase.listed = false) :
    ∃ rest, PayloadReadQueue.removeWaiting waitingReads id = .ok (read.scheduled, rest) ∧
      Waiting rest (reads.insert id changed) ∧ rest.length + 1 = waitingReads.length ∧
      ∀ entry ∈ rest, entry ∈ waitingReads := by
  have hmem := h.mem_of_listed hread hin
  unfold PayloadReadQueue.removeWaiting
  cases hindex : waitingReads.findIdx? fun entry => entry.1 = id with
  | none =>
      rw [List.findIdx?_eq_none_iff] at hindex
      simpa using hindex _ hmem
  | some index =>
      obtain ⟨hlt, hat, -⟩ := List.findIdx?_eq_some_iff_getElem.mp hindex
      have hid : waitingReads[index].1 = id := by simpa using hat
      have hentry : waitingReads[index] = (id, read.scheduled) := by
        have hflag := h.flags id waitingReads[index].2 read
          (by rw [← hid]; exact List.getElem_mem hlt) hread
        exact Prod.ext hid hflag
      have hperm := swap_remove_perm hlt
      have hsplit := List.getElem_cons_eraseIdx_perm hlt
      have hcons : (id :: (swapRemove waitingReads index).map Prod.fst).Perm
          (waitingReads.map Prod.fst) := by
        have hmap := ((hperm.cons waitingReads[index]).trans hsplit).map Prod.fst
        rwa [List.map_cons, hid] at hmap
      have hnodup := hcons.nodup_iff.mpr h.nodup
      rw [List.nodup_cons] at hnodup
      refine ⟨swapRemove waitingReads index, ?_, ⟨hnodup.2, fun other => ?_,
        fun other flag found hother hfound => ?_⟩, length_swap_remove hlt, fun entry hentry' => ?_⟩
      · simp [List.getElem?_eq_getElem hlt, hentry]
      · have hiff := hcons.mem_iff (a := other)
        rw [h.listed, List.mem_cons] at hiff
        rw [FiniteMap.lookup_insert_eq]
        split
        next heq =>
          subst heq
          simp [hnodup.1, hlisted]
        next hne =>
          rw [← hiff]
          simp [hne]
      · have hold : (other, flag) ∈ waitingReads :=
          List.mem_of_mem_eraseIdx (hperm.mem_iff.mp hother)
        have hne : other ≠ id := by
          rintro rfl
          exact hnodup.1 (List.mem_map_of_mem (f := Prod.fst) hother)
        rw [FiniteMap.lookup_insert_eq, if_neg hne] at hfound
        exact h.flags other flag found hold hfound
      · exact List.mem_of_mem_eraseIdx (hperm.mem_iff.mp hentry')

end Waiting

/-! ## The line at the semaphore -/

/-- The line holds exactly the acquisitions that wait for a permit. -/
structure Line (acquisitions : List Nat) (reads : FiniteMap Nat ReadCall) : Prop where
  nodup : acquisitions.Nodup
  inLine : ∀ id, id ∈ acquisitions ↔ ∃ read, reads.lookup id = some read ∧ read.inLine = true

namespace Line

variable {acquisitions : List Nat}

/-- A change of a read that keeps its place. -/
theorem set_read (h : Line acquisitions reads) (hread : reads.lookup id = some read)
    (hline : changed.inLine = read.inLine) : Line acquisitions (reads.insert id changed) where
  nodup := h.nodup
  inLine other := by
    rw [h.inLine, FiniteMap.lookup_insert_eq]
    split
    next heq =>
      subst heq
      simp [hread, hline]
    next => rfl

/-- A read that is not in line leaves the line as it is. -/
theorem add (h : Line acquisitions reads) (hfresh : reads.lookup id = none)
    (hline : changed.inLine = false) : Line acquisitions (reads.insert id changed) where
  nodup := h.nodup
  inLine other := by
    rw [h.inLine, FiniteMap.lookup_insert_eq]
    split
    next heq =>
      subst heq
      simp [hfresh, hline]
    next => rfl

/-- A read gets in line. -/
theorem push (h : Line acquisitions reads) (hread : reads.lookup id = some read)
    (hout : read.inLine = false) (hline : changed.inLine = true) :
    Line (acquisitions ++ [id]) (reads.insert id changed) := by
  have habsent : id ∉ acquisitions := by
    rw [h.inLine]
    rintro ⟨found, hfound, hin⟩
    rw [hread] at hfound
    cases hfound
    rw [hout] at hin
    cases hin
  refine ⟨?_, fun other => ?_⟩
  · rw [List.nodup_append]
    refine ⟨h.nodup, by simp, fun other hother last hlast heq => habsent ?_⟩
    have hid : last = id := by simpa using hlast
    rw [← hid, ← heq]
    exact hother
  · rw [List.mem_append, h.inLine, FiniteMap.lookup_insert_eq]
    split
    next heq =>
      subst heq
      simp [hline]
    next hne => simp [hne]

/-- A read leaves the line. -/
theorem erase (h : Line acquisitions reads) (hline : changed.inLine = false) :
    Line (acquisitions.erase id) (reads.insert id changed) where
  nodup := h.nodup.erase id
  inLine other := by
    rw [h.nodup.mem_erase_iff, h.inLine, FiniteMap.lookup_insert_eq]
    split
    next heq =>
      subst heq
      simp [hline]
    next hne => simp [hne]

end Line

/-! ## The queue -/

namespace PayloadReadQueue

/-- The waiting reads that the loop of an arrival has still to visit. -/
def toVisit (q : PayloadReadQueue) : List Nat := (q.lock.map Prod.snd).getD []

def permitOf (_ : Nat) (read : ReadCall) : Nat := read.permit.toNat

/-- The queue, except that `missing` permits are neither available nor with a read. -/
structure SoundBut (missing : Nat) (q : PayloadReadQueue) : Prop where
  permits : q.availablePermits + q.reads.tally permitOf + missing = maxInFlightReads
  reads : ∀ id read, q.reads.lookup id = some read → read.Sound
  waiting : Waiting q.waitingReads q.reads
  line : Line q.acquisitions q.reads
  /-- Once enough reads wait, an arrival leaves no read without its flag. -/
  pressure : maxInFlightReads ≤ q.waitingReads.length →
    ∀ entry ∈ q.waitingReads, entry.2 = true ∨ entry.1 ∈ q.toVisit
  locked : ∀ id rest, q.lock = some (id, rest) →
    ∃ read, q.reads.lookup id = some read ∧ read.phase = .enqueueing

/-- The invariant of the queue. -/
abbrev Sound (q : PayloadReadQueue) : Prop := q.SoundBut 0

variable {q : PayloadReadQueue} {missing : Nat}

/-- A queue without reads is sound. -/
theorem Sound.new : Sound new where
  permits := rfl
  reads := by simp [PayloadReadQueue.new]
  waiting := ⟨by simp [PayloadReadQueue.new], by simp [PayloadReadQueue.new],
    by simp [PayloadReadQueue.new]⟩
  line := ⟨by simp [PayloadReadQueue.new], by simp [PayloadReadQueue.new]⟩
  pressure := by simp [PayloadReadQueue.new]
  locked := by simp [PayloadReadQueue.new]

/-- A sound read among sound reads. -/
theorem SoundBut.reads_insert (h : q.SoundBut missing) (hchanged : changed.Sound) (id other : Nat)
    (found : ReadCall) (hfound : (q.reads.insert id changed).lookup other = some found) :
    found.Sound := by
  rw [FiniteMap.lookup_insert_eq] at hfound
  split at hfound
  next =>
    cases hfound
    exact hchanged
  next => exact h.reads other found hfound

/-- The read that holds the lock is in `enqueue`, whatever happens to a read in another phase. -/
theorem SoundBut.locked_insert (h : q.SoundBut missing) (hread : q.reads.lookup id = some read)
    (hphase : read.phase ≠ .enqueueing) (other : Nat) (rest : List Nat)
    (hlock : q.lock = some (other, rest)) :
    ∃ found, (q.reads.insert id changed).lookup other = some found ∧ found.phase = .enqueueing := by
  obtain ⟨found, hfound, henqueueing⟩ := h.locked other rest hlock
  have hne : other ≠ id := by
    rintro rfl
    rw [hread] at hfound
    cases hfound
    exact hphase henqueueing
  exact ⟨found, by rw [FiniteMap.lookup_insert_eq, if_neg hne, hfound], henqueueing⟩

/-- The permits after a change of one read. -/
theorem SoundBut.permits_insert {available left : Nat} (h : q.SoundBut missing)
    (hread : q.reads.lookup id = some read)
    (hbalance : available + changed.permit.toNat + left =
      q.availablePermits + read.permit.toNat + missing) :
    available + FiniteMap.tally permitOf (q.reads.insert id changed) + left = maxInFlightReads := by
  have hreplace := FiniteMap.tally_replace permitOf changed hread
  have hpermits := h.permits
  simp only [permitOf] at hreplace
  omega

/-- A change of one read that neither the list nor the line shows. Its permit may come from, or go
to, those that are missing. -/
theorem SoundBut.set_read {left : Nat} (h : q.SoundBut missing)
    (hread : q.reads.lookup id = some read) (hchanged : changed.Sound)
    (hphase : read.phase ≠ .enqueueing)
    (hlisted : changed.phase.listed = read.phase.listed)
    (hscheduled : changed.scheduled = read.scheduled)
    (hline : changed.inLine = read.inLine)
    (hpermit : left + changed.permit.toNat = missing + read.permit.toNat) :
    (q.setRead id changed).SoundBut left where
  permits := h.permits_insert hread (by simp only [PayloadReadQueue.setRead]; omega)
  reads := h.reads_insert hchanged id
  waiting := h.waiting.set_read hread hlisted hscheduled
  line := h.line.set_read hread hline
  pressure := h.pressure
  locked := h.locked_insert hread hphase

/-- A permit that is given back goes to the first in line or becomes available. -/
theorem release_permit_sound (h : q.SoundBut 1) : q.releasePermit.Sound := by
  unfold releasePermit
  split
  next hempty =>
    have hpermits := h.permits
    exact ⟨by simp only; omega, h.reads, h.waiting, h.line, h.pressure, h.locked⟩
  next next rest hline =>
    obtain ⟨read, hread, hin⟩ := (h.line.inLine next).mp (by simp [hline])
    have hwaits : read.phase.waits = true ∧ read.polled = true ∧ read.permit = false := by
      simpa [ReadCall.inLine, and_assoc] using hin
    have hsound := h.reads next read hread
    have hassigned : ReadCall.Sound { read with permit := true } := by
      refine ⟨?_, hsound.notified, hsound.kept, hsound.answers, hsound.immediate⟩
      -- A permit may be assigned in every phase in which the acquisition waits.
      have hinPhase := hsound.phase
      unfold ReadCall.InPhase at hinPhase ⊢
      cases hcase : read.phase with
      | polling => simpa [hcase] using hinPhase
      | acquiring => simpa [hcase] using hinPhase
      | leaving cancelled => simpa [hcase] using hinPhase
      | _ => simp [hcase, ReadPhase.waits] at hwaits
    have hshorter : Line rest (q.reads.insert next { read with permit := true }) := by
      have hout : Line (q.acquisitions.erase next)
          (q.reads.insert next { read with permit := true }) :=
        h.line.erase (by simp [ReadCall.inLine])
      rwa [hline, List.erase_cons_head] at hout
    have hphase : read.phase ≠ .enqueueing := by
      intro heq
      simp [heq, ReadPhase.waits] at hwaits
    simp only [hread]
    exact ⟨h.permits_insert hread (by simp [PayloadReadQueue.setRead, hwaits.2.2]),
      h.reads_insert hassigned next,
      h.waiting.set_read hread rfl rfl, hshorter, h.pressure, h.locked_insert hread hphase⟩

end PayloadReadQueue

end Feuer.Uring
