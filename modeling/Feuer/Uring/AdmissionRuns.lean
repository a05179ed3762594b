import Feuer.Uring.AdmissionInvariant

/-!
# Runs of the read queue

Each part of a call of `acquire_permit` keeps the invariant of the queue and does not panic. The
run theorem reads off what callers rely on: the limit of permits, the list of waiting reads, the
fallthrough checks, and that a read that leaves without a permit leaves nothing behind.
-/

namespace Feuer.Uring

open Lib

namespace PayloadReadQueue

variable {q : PayloadReadQueue} {id : Nat} {read : ReadCall}

/-! ## Arriving -/

/-- A read takes a free permit at once, or arrives at the queue. -/
theorem start_sound (h : q.Sound) (hfresh : q.reads.lookup id = none) :
    (0 < q.availablePermits →
      Sound (setRead { q with availablePermits := q.availablePermits - 1 } id (.new true))) ∧
    Sound (q.setRead id (.new false)) := by
  have hpermits := h.permits
  have hlocked : ∀ admitted other rest, q.lock = some (other, rest) →
      ∃ found, (q.reads.insert id (ReadCall.new admitted)).lookup other = some found ∧
        found.phase = .enqueueing := by
    intro admitted other rest hlock
    obtain ⟨found, hfound, hphase⟩ := h.locked other rest hlock
    have hne : other ≠ id := by
      rintro rfl
      rw [hfresh] at hfound
      cases hfound
    exact ⟨found, by rw [FiniteMap.lookup_insert_eq, if_neg hne, hfound], hphase⟩
  constructor
  · intro havailable
    refine ⟨?_, h.reads_insert (.new true) id, h.waiting.add hfresh rfl, h.line.add hfresh rfl,
      h.pressure, hlocked true⟩
    have htally := FiniteMap.tally_insert_new permitOf (ReadCall.new true) hfresh
    have hone : permitOf id (ReadCall.new true) = 1 := rfl
    simp only [setRead]
    omega
  · refine ⟨?_, h.reads_insert (.new false) id, h.waiting.add hfresh rfl, h.line.add hfresh rfl,
      h.pressure, hlocked false⟩
    have htally := FiniteMap.tally_insert_new permitOf (ReadCall.new false) hfresh
    have hzero : permitOf id (ReadCall.new false) = 0 := rfl
    simp only [setRead]
    omega

/-- A read joins the queue under the lock. -/
theorem enqueue_sound (h : q.Sound) (hread : q.reads.lookup id = some read)
    (hphase : read.phase = .arriving) : (q.enqueue id read).Sound := by
  have hsound := h.reads id read hread
  obtain ⟨hscheduled, hpermit, hpolled⟩ : read.scheduled = false ∧ read.permit = false ∧
      read.polled = false := by
    have hin := hsound.phase
    simpa only [ReadCall.InPhase, hphase] using hin
  have hanswers : read.answers = [] := by
    rcases hsound.answers with ⟨hnone, -⟩ | ⟨-, -, hsome⟩
    · exact hnone
    · rw [hscheduled] at hsome
      cases hsome
  have hnew : ReadCall.Sound { read with phase := .enqueueing } :=
    hsound.enter (by simp [ReadCall.InPhase, hanswers, hpermit, hpolled]) (by simp [hphase])
      (by simp [hphase])
  refine ⟨h.permits_insert hread rfl, h.reads_insert hnew id,
    h.waiting.push hread (by simp [hphase, ReadPhase.listed]) rfl hscheduled,
    h.line.set_read hread (by simp [ReadCall.inLine, hphase, ReadPhase.waits]), ?_, ?_⟩
  · intro henough entry hentry
    right
    have hvisit : (q.enqueue id read).toVisit = (q.waitingReads ++ [(id, false)]).map Prod.fst :=
      if_pos henough
    rw [hvisit]
    exact List.mem_map_of_mem hentry
  · intro other rest hlock
    obtain ⟨rfl, -⟩ : id = other ∧ _ = rest := by simpa [enqueue, setRead] using hlock
    exact ⟨_, Finmap.lookup_insert _, rfl⟩

/-! ## The loop of an arrival -/

/-- One turn of the loop: the visited read has its flag. -/
theorem visit_sound {next : Nat} {rest : List Nat} (h : q.Sound)
    (hlock : q.lock = some (id, next :: rest)) :
    (visit { q with lock := some (id, rest) } next).Sound := by
  have hlist : q.toVisit = next :: rest := by simp [toVisit, hlock]
  have hrest : toVisit { q with lock := some (id, rest) } = rest := rfl
  unfold visit
  split
  next hmem =>
    have hkey : next ∈ q.waitingReads.map Prod.fst := List.mem_map_of_mem (f := Prod.fst) hmem
    obtain ⟨read, hread, hlisted⟩ := (h.waiting.listed next).mp hkey
    have hsound := h.reads next read hread
    have hflag : read.scheduled = false := (h.waiting.flags next false read hmem hread).symm
    have hmarked : ReadCall.Sound { read with notified := true, scheduled := true } := by
      refine ⟨?_, fun _ => rfl, fun _ _ => rfl, ?_, fun himmediate => ?_⟩
      · have hin := hsound.phase
        unfold ReadCall.InPhase at hin ⊢
        cases hcase : read.phase <;> simp_all [ReadPhase.listed]
      · rcases hsound.answers with hnone | ⟨-, -, hscheduled⟩
        · exact .inl hnone
        · rw [hflag] at hscheduled
          cases hscheduled
      · rcases (hsound.immediate himmediate).2 with hphase | hphase <;>
          simp [hphase, ReadPhase.listed] at hlisted
    simp only [hread]
    refine ⟨h.permits_insert hread rfl, h.reads_insert hmarked next, h.waiting.mark hread rfl rfl,
      h.line.set_read hread rfl, ?_, ?_⟩
    · intro henough entry hentry
      obtain ⟨old, hold, heq⟩ := List.mem_map.mp hentry
      split at heq
      next => exact .inl (by rw [← heq])
      next hne =>
        subst heq
        refine (h.pressure (by simpa [setRead] using henough) old hold).imp_right fun hvisit => ?_
        rw [hlist, List.mem_cons] at hvisit
        exact hvisit.resolve_left hne
    · intro other left hheld
      obtain ⟨found, hfound, hphase⟩ := h.locked id (next :: rest) hlock
      obtain ⟨rfl, -⟩ : id = other ∧ rest = left := by simpa [setRead] using hheld
      simp only [setRead, FiniteMap.lookup_insert_eq]
      split
      next heq =>
        subst heq
        rw [hread] at hfound
        cases hfound
        exact ⟨_, rfl, hphase⟩
      next => exact ⟨found, hfound, hphase⟩
  next hmem =>
    refine ⟨h.permits, h.reads, h.waiting, h.line, fun henough entry hentry => ?_,
      fun other left hheld => ?_⟩
    · rcases h.pressure henough entry hentry with hflag | hvisit
      · exact .inl hflag
      · rw [hlist, List.mem_cons] at hvisit
        rcases hvisit with heq | hvisit
        · left
          cases hflag : entry.2 with
          | true => rfl
          | false => exact absurd (heq ▸ hflag ▸ hentry) hmem
        · exact .inr hvisit
    · obtain ⟨rfl, -⟩ : id = other ∧ rest = left := by simpa using hheld
      exact h.locked id (next :: rest) hlock

/-- The lock is free when all readers were visited. -/
theorem unlock_sound (h : q.Sound) (hlock : q.lock = some (id, []))
    (hread : q.reads.lookup id = some read) (hphase : read.phase = .enqueueing) :
    Sound (setRead { q with lock := none } id { read with phase := .polling }) := by
  have hsound := h.reads id read hread
  have hin := hsound.phase
  simp only [ReadCall.InPhase, hphase] at hin
  have hnew : ReadCall.Sound { read with phase := .polling } :=
    hsound.enter hin.1 (by simp [hphase]) (by simp [hphase])
  refine ⟨h.permits_insert hread rfl, h.reads_insert hnew id,
    h.waiting.set_read hread (by simp [hphase, ReadPhase.listed]) rfl,
    h.line.set_read hread (by simp [ReadCall.inLine, hphase, ReadPhase.waits, hin.2.2]), ?_, ?_⟩
  · intro henough entry hentry
    have hflags := h.pressure henough entry hentry
    simpa [toVisit, hlock, setRead] using hflags
  · intro other rest hheld
    simp [setRead] at hheld

/-! ## Polling -/

/-- A read looks whether it was answered. -/
theorem poll_notified_sound (h : q.Sound) (hread : q.reads.lookup id = some read)
    (hphase : read.phase = .polling) (answer : Bool) : (q.pollNotified id read answer).Sound := by
  have hsound := h.reads id read hread
  have hin : read.answers ≠ [true] := by
    have hpolling := hsound.phase
    simpa only [ReadCall.InPhase, hphase] using hpolling
  unfold pollNotified
  split
  next hready =>
    have hscheduled := hsound.notified hready.2
    have hanswers := hsound.check hready.1 answer
    have hnot := hsound.not_immediate (by simp [hphase]) (by simp [hphase])
    have hnew : ReadCall.Sound { check read answer with
        phase := if answer then .leaving false else .acquiring, notified := false } := by
      refine ⟨?_, by simp, by simp [check], .inr ⟨by simp [hanswers], rfl, hscheduled⟩,
        by simp [check, hnot]⟩
      cases answer <;> simp [ReadCall.InPhase, hanswers]
    refine h.set_read hread hnew (by simp [hphase]) ?_ rfl ?_ rfl
    · cases answer <;> simp [hphase, ReadPhase.listed]
    · cases answer <;> simp [ReadCall.inLine, check, hphase, ReadPhase.waits]
  next =>
    refine h.set_read hread (hsound.enter hin (by simp [hphase]) (by simp [hphase]))
      (by simp [hphase])
      (by simp [hphase, ReadPhase.listed]) rfl ?_ rfl
    simp [ReadCall.inLine, hphase, ReadPhase.waits]

/-- A read asks the semaphore for a permit. -/
theorem poll_acquire_sound (h : q.Sound) (hread : q.reads.lookup id = some read)
    (hphase : read.phase = .acquiring) : (q.pollAcquire id read).Sound := by
  have hsound := h.reads id read hread
  have hin : read.answers ≠ [true] := by
    have hacquiring := hsound.phase
    simpa only [ReadCall.InPhase, hphase] using hacquiring
  have hnot := hsound.not_immediate (by simp [hphase]) (by simp [hphase])
  have hother : read.phase ≠ .enqueueing := by simp [hphase]
  unfold pollAcquire
  split
  next hpermit =>
    refine h.set_read hread (hsound.enter ⟨hin, hpermit⟩ (by simp [hphase]) (by simp [hphase]))
      hother
      (by simp [hphase, ReadPhase.listed]) rfl ?_ rfl
    simp [ReadCall.inLine, hpermit]
  next hpermit =>
    have hnone : read.permit = false := by simpa using hpermit
    split
    next hpolled =>
      refine h.set_read hread (hsound.enter hin (by simp [hphase]) (by simp [hphase])) hother
        (by simp [hphase, ReadPhase.listed]) rfl ?_ rfl
      simp [ReadCall.inLine, hphase, ReadPhase.waits]
    next hpolled =>
      have hfirst : read.inLine = false := by simp [ReadCall.inLine, hpolled]
      split
      next havailable =>
        have hnew : ReadCall.Sound
            { read with phase := .admitted, polled := true, permit := true } :=
          ⟨⟨hin, rfl⟩, hsound.notified, hsound.kept, hsound.answers, by simp [hnot]⟩
        exact ⟨h.permits_insert hread (by simp [setRead, hnone]; omega), h.reads_insert hnew id,
          h.waiting.set_read hread (by simp [hphase, ReadPhase.listed]) rfl,
          h.line.set_read hread (by simp [ReadCall.inLine, hpolled]), h.pressure,
          h.locked_insert hread hother⟩
      next =>
        have hnew : ReadCall.Sound { read with phase := .polling, polled := true } :=
          ⟨hin, hsound.notified, hsound.kept, hsound.answers, by simp [hnot]⟩
        exact ⟨h.permits_insert hread rfl, h.reads_insert hnew id,
          h.waiting.set_read hread (by simp [hphase, ReadPhase.listed]) rfl,
          h.line.push hread hfirst (by simp [ReadCall.inLine, ReadPhase.waits, hnone]), h.pressure,
          h.locked_insert hread hother⟩

/-- A read leaves the list while no arrival holds the lock. -/
theorem unlist_sound {changed : ReadCall} (h : q.Sound) (hlock : q.lock = none)
    (hread : q.reads.lookup id = some read) (hin : read.phase.listed = true)
    (hchanged : changed.Sound) (hlisted : changed.phase.listed = false)
    (hline : changed.inLine = read.inLine) (hpermit : changed.permit = read.permit) :
    ∃ rest, removeWaiting q.waitingReads id = .ok (read.scheduled, rest) ∧
      Sound (setRead { q with waitingReads := rest } id changed) := by
  obtain ⟨rest, hremove, hwaiting, hlength, hsubset⟩ :=
    h.waiting.remove_waiting_spec hread hin hlisted
  refine ⟨rest, hremove, h.permits_insert hread (by simp [setRead, hpermit]),
    h.reads_insert hchanged id, hwaiting,
    h.line.set_read hread hline, fun henough entry hentry => ?_, fun other left hheld => ?_⟩
  · exact h.pressure (by simp only [setRead] at henough; omega) entry (hsubset entry hentry)
  · rw [show (setRead { q with waitingReads := rest } id changed).lock = q.lock from rfl, hlock]
      at hheld
    cases hheld

/-- A read leaves the queue with a permit, or falls through. -/
theorem finish_sound {scheduled : Bool} (h : q.Sound) (hread : q.reads.lookup id = some read)
    (hphase : read.phase = .deciding scheduled) (answer : Bool) :
    (q.finish id read scheduled answer).Sound := by
  have hsound := h.reads id read hread
  obtain ⟨hflag, hanswers, hpermit⟩ : scheduled = read.scheduled ∧ read.answers ≠ [true] ∧
      read.permit = true := by
    have hdeciding := hsound.phase
    simpa only [ReadCall.InPhase, hphase] using hdeciding
  have hnot := hsound.not_immediate (by simp [hphase]) (by simp [hphase])
  have hother : read.phase ≠ .enqueueing := by simp [hphase]
  have hout : read.inLine = false := by simp [ReadCall.inLine, hphase, ReadPhase.waits]
  unfold finish
  split
  next hcheck =>
    have hscheduled : read.scheduled = true := hflag ▸ hcheck.1
    have hone := hsound.check hcheck.2 answer
    have hran : ∀ phase permit, ReadCall.InPhase { check read answer with phase, permit } →
        ReadCall.Sound { check read answer with phase, permit } := fun phase permit hin =>
      ⟨hin, hsound.notified, by simp [check], .inr ⟨by simp [hone], rfl, hscheduled⟩,
        by simp [check, hnot]⟩
    split
    next htrue =>
      subst htrue
      refine release_permit_sound (h.set_read hread (hran .fellThrough false ⟨hone, rfl⟩) hother
        (by simp [hphase, ReadPhase.listed]) rfl ?_ (by simp [hpermit]))
      simp [ReadCall.inLine, hphase, ReadPhase.waits]
    next hfalse =>
      have hanswer : answer = false := by simpa using hfalse
      subst hanswer
      refine h.set_read hread (hran .holding read.permit ⟨fun _ => hone, hpermit⟩) hother
        (by simp [hphase, ReadPhase.listed]) rfl ?_ rfl
      simp [ReadCall.inLine, check, hphase, ReadPhase.waits]
  next hcheck =>
    have hran : read.scheduled = true → read.answers = [false] := by
      intro hscheduled
      rcases hsound.answers with ⟨-, hunchecked⟩ | ⟨hlength, -, -⟩
      · exact absurd ⟨hflag.trans hscheduled, hunchecked⟩ hcheck
      · exact ReadCall.answers_singleton hlength hanswers
    refine h.set_read hread (hsound.enter ⟨hran, hpermit⟩ (by simp [hphase]) (by simp [hphase]))
      hother
      (by simp [hphase, ReadPhase.listed]) rfl ?_ rfl
    simp [ReadCall.inLine, hphase, ReadPhase.waits]

/-! ## Leaving -/

/-- A read that leaves gives its place in line up. -/
theorem drop_acquire_sound {cancelled : Bool} (h : q.Sound) (hread : q.reads.lookup id = some read)
    (hphase : read.phase = .leaving cancelled) : (q.dropAcquire id read cancelled).Sound := by
  have hsound := h.reads id read hread
  have hanswers : cancelled = false → read.answers = [true] := by
    have hleaving := hsound.phase
    simpa only [ReadCall.InPhase, hphase] using hleaving
  have hnot := hsound.not_immediate (by simp [hphase]) (by simp [hphase])
  have hother : read.phase ≠ .enqueueing := by simp [hphase]
  unfold dropAcquire
  split
  next hpermit =>
    have hnew : ReadCall.Sound { read with phase := .unlisting cancelled, permit := false } :=
      ⟨⟨hanswers, rfl⟩, hsound.notified, hsound.kept, hsound.answers, by simp [hnot]⟩
    refine release_permit_sound
      (h.set_read hread hnew hother (by simp [hphase, ReadPhase.listed]) rfl
      ?_ (by simp [hpermit]))
    simp [ReadCall.inLine, ReadPhase.waits, hpermit]
  next hpermit =>
    have hnone : read.permit = false := by simpa using hpermit
    have hnew : ReadCall.Sound { read with phase := .unlisting cancelled } :=
      hsound.enter ⟨hanswers, hnone⟩ (by simp [hphase]) (by simp [hphase])
    exact ⟨h.permits_insert hread rfl, h.reads_insert hnew id,
      h.waiting.set_read hread (by simp [hphase, ReadPhase.listed]) rfl,
      h.line.erase (by simp [ReadCall.inLine, ReadPhase.waits]), h.pressure,
      h.locked_insert hread hother⟩

/-- A read that is dropped leaves. -/
theorem cancel_sound (h : q.Sound) (hread : q.reads.lookup id = some read)
    (hphase : read.phase = .polling) :
    (q.setRead id { read with phase := .leaving true }).Sound := by
  have hsound := h.reads id read hread
  refine h.set_read hread (hsound.enter (by simp [ReadCall.InPhase]) (by simp [hphase])
    (by simp [hphase])) (by simp [hphase]) (by simp [hphase, ReadPhase.listed]) rfl ?_ rfl
  simp [ReadCall.inLine, hphase, ReadPhase.waits]

/-- A permit returns when its read ends. -/
theorem release_sound (h : q.Sound) (hread : q.reads.lookup id = some read)
    (hphase : read.phase = .holding) :
    (q.setRead id { read with phase := .released, permit := false }).releasePermit.Sound := by
  have hsound := h.reads id read hread
  obtain ⟨hanswers, hpermit⟩ : (read.scheduled = true → read.answers = [false]) ∧
      read.permit = true := by
    have hholding := hsound.phase
    simpa only [ReadCall.InPhase, hphase] using hholding
  have hnew : ReadCall.Sound { read with phase := .released, permit := false } :=
    ⟨⟨hanswers, rfl⟩, hsound.notified, hsound.kept, hsound.answers,
      fun himmediate => ⟨(hsound.immediate himmediate).1, .inr rfl⟩⟩
  refine release_permit_sound (h.set_read hread hnew (by simp [hphase])
    (by simp [hphase, ReadPhase.listed]) rfl ?_ (by simp [hpermit]))
  simp [ReadCall.inLine, hphase, ReadPhase.waits]

/-! ## Runs -/

/-- Every part of a call keeps the invariant and does not panic. -/
theorem step_sound (h : q.Sound) (action : AdmissionAction) :
    Outcome (fun _ => False) Sound (q.step action) := by
  cases action with
  | start id =>
      simp only [step]
      split
      next => exact h
      next hfresh =>
        obtain ⟨hadmitted, harriving⟩ := start_sound h hfresh
        split
        next havailable => exact hadmitted havailable
        next => exact harriving
  | enqueue id =>
      simp only [step]
      split
      next read hread hlock =>
        split
        next hphase => exact enqueue_sound h hread hphase
        next => exact h
      next => exact h
  | scheduleNext =>
      simp only [step]
      split
      next hlock => exact visit_sound h hlock
      next => exact h
  | unlock =>
      simp only [step]
      split
      next id hlock =>
        obtain ⟨read, hread, hphase⟩ := h.locked id [] hlock
        simp only [hread]
        exact unlock_sound h hlock hread hphase
      next => exact h
  | pollNotified id answer =>
      simp only [step]
      split
      next read hread =>
        split
        next hphase => exact poll_notified_sound h hread hphase answer
        next => exact h
      next => exact h
  | pollAcquire id =>
      simp only [step]
      split
      next read hread =>
        split
        next hphase => exact poll_acquire_sound h hread hphase
        next => exact h
      next => exact h
  | remove id =>
      simp only [step]
      split
      next read hread hlock =>
        split
        next hphase =>
          have hsound := h.reads id read hread
          have hin := hsound.phase
          simp only [ReadCall.InPhase, hphase] at hin
          have hnew : ReadCall.Sound { read with phase := .deciding read.scheduled } :=
            hsound.enter ⟨rfl, hin⟩ (by simp [hphase]) (by simp [hphase])
          obtain ⟨rest, hremove, hafter⟩ := unlist_sound h hlock hread
            (by simp [hphase, ReadPhase.listed]) hnew rfl
            (by simp [ReadCall.inLine, hphase, ReadPhase.waits]) rfl
          rw [hremove]
          exact hafter
        next => exact h
      next => exact h
  | finish id answer =>
      simp only [step]
      split
      next read hread =>
        split
        next scheduled hphase => exact finish_sound h hread hphase answer
        next => exact h
      next => exact h
  | dropAcquire id =>
      simp only [step]
      split
      next read hread =>
        split
        next cancelled hphase => exact drop_acquire_sound h hread hphase
        next => exact h
      next => exact h
  | dropWaitingRead id =>
      simp only [step]
      split
      next read hread hlock =>
        split
        next cancelled hphase =>
          have hsound := h.reads id read hread
          have hin := hsound.phase
          simp only [ReadCall.InPhase, hphase] at hin
          have hnew : ReadCall.Sound
              { read with phase := if cancelled then .cancelled else .fellThrough } := by
            refine hsound.enter ?_ (by simp [hphase]) (by simp [hphase])
            cases cancelled with
            | true => exact hin.2
            | false => exact ⟨hin.1 rfl, hin.2⟩
          obtain ⟨rest, hremove, hafter⟩ := unlist_sound h hlock hread
            (by simp [hphase, ReadPhase.listed]) hnew (by cases cancelled <;> rfl)
            (by cases cancelled <;> simp [ReadCall.inLine, hphase, ReadPhase.waits]) rfl
          rw [hremove]
          exact hafter
        next => exact h
      next => exact h
  | cancel id =>
      simp only [step]
      split
      next read hread =>
        split
        next hphase => exact cancel_sound h hread hphase
        next => exact h
      next => exact h
  | release id =>
      simp only [step]
      split
      next read hread =>
        split
        next hphase => exact release_sound h hread hphase
        next => exact h
      next => exact h

/-- What callers rely on in a state of the queue. -/
structure Admits (q : PayloadReadQueue) : Prop where
  /-- At most 64 permits are held. -/
  limit : q.reads.tally permitOf ≤ maxInFlightReads
  /-- The list holds each queued read once, and no other. -/
  nodup : (q.waitingReads.map Prod.fst).Nodup
  listed : ∀ id, id ∈ q.waitingReads.map Prod.fst ↔
    ∃ read, q.reads.lookup id = some read ∧ read.phase.listed = true
  /-- After an arrival, with enough reads waiting, every one of them is scheduled. -/
  scheduled : q.lock = none → maxInFlightReads ≤ q.waitingReads.length →
    ∀ id ∈ q.waitingReads.map Prod.fst,
      ∃ read, q.reads.lookup id = some read ∧ read.scheduled = true
  /-- The callback runs at most once, and only for a read that was scheduled. -/
  callback : ∀ id read, q.reads.lookup id = some read → read.answers.length ≤ 1 ∧
    (read.answers ≠ [] → read.scheduled = true ∧ read.immediate = false)
  /-- A scheduled read returns a permit only after its callback returned false. -/
  checked : ∀ id read, q.reads.lookup id = some read →
    read.phase = .holding ∨ read.phase = .released → read.scheduled = true → read.answers = [false]
  /-- A read that fell through or was cancelled leaves nothing behind. -/
  gone : ∀ id read, q.reads.lookup id = some read →
    read.phase = .fellThrough ∨ read.phase = .cancelled →
      read.permit = false ∧ id ∉ q.waitingReads.map Prod.fst ∧ id ∉ q.acquisitions

/-- A sound queue admits as it should. -/
theorem SoundBut.admits (h : q.Sound) : q.Admits where
  limit := by
    have hpermits := h.permits
    omega
  nodup := h.waiting.nodup
  listed := h.waiting.listed
  scheduled hlock henough id hid := by
    obtain ⟨⟨other, flag⟩, hentry, rfl⟩ := List.mem_map.mp hid
    obtain ⟨read, hread, -⟩ := (h.waiting.listed other).mp hid
    have hflag := h.waiting.flags other flag read hentry hread
    rcases h.pressure henough _ hentry with htrue | hvisit
    · exact ⟨read, hread, hflag ▸ htrue⟩
    · simp [toVisit, hlock] at hvisit
  callback id read hread := by
    have hsound := h.reads id read hread
    rcases hsound.answers with ⟨hnone, -⟩ | ⟨hone, -, hscheduled⟩
    · simp [hnone]
    · refine ⟨hone.le, fun _ => ⟨hscheduled, ?_⟩⟩
      cases himmediate : read.immediate with
      | false => rfl
      | true =>
          rw [(hsound.immediate himmediate).1] at hscheduled
          cases hscheduled
  checked id read hread hphase := by
    have hin := (h.reads id read hread).phase
    rcases hphase with hphase | hphase
    · simp only [ReadCall.InPhase, hphase] at hin
      exact hin.1
    · simp only [ReadCall.InPhase, hphase] at hin
      exact hin.1
  gone id read hread hphase := by
    have hin := (h.reads id read hread).phase
    have hlisted : read.phase.listed = false := by
      rcases hphase with hphase | hphase <;> rw [hphase] <;> rfl
    refine ⟨?_, ?_, ?_⟩
    · rcases hphase with hphase | hphase
      · simp only [ReadCall.InPhase, hphase] at hin
        exact hin.2
      · simp only [ReadCall.InPhase, hphase] at hin
        exact hin
    · refine h.waiting.notMem_of_not_listed fun found hfound => ?_
      rw [hread] at hfound
      cases hfound
      exact hlisted
    · rw [h.line.inLine]
      rintro ⟨found, hfound, hline⟩
      rw [hread] at hfound
      cases hfound
      rcases hphase with hphase | hphase <;>
        simp [ReadCall.inLine, hphase, ReadPhase.waits] at hline

/-- No interleaving of arrivals, polls, releases and cancellations panics, and every state that it
reaches admits reads as callers rely on. -/
theorem run_admits (actions : List AdmissionAction) :
    ∃ q, run step new actions = .ok q ∧ q.Admits := by
  have houtcome : Outcome (fun _ => False) Sound (run step new actions) :=
    run_outcome (fun _ => True) (fun _ action h _ => step_sound h action) Sound.new
      fun _ _ => trivial
  obtain ⟨q, hrun, hsound⟩ := houtcome.exists_ok
  exact ⟨q, hrun, hsound.admits⟩

end PayloadReadQueue

end Feuer.Uring
