import Feuer.Storage.CacheInvariant
import Feuer.Storage.CallerSteps

/-!
# Steps of the callers

Every step of a writer or a lookup keeps the cache sound, and the shard below it takes steps of its
own. Both are read off the list of what a step can do.
-/

namespace Feuer.Storage

open Lib

variable {context : ShardContext}

namespace CacheState

variable {state middle next : CacheState context} {ledger : Ledger context.hash} {id : Nat}

/-! ## Steps of writers -/

variable {task : Task context}

/-- A caller moves on to another phase. -/
theorem Sound.set_task (h : state.Sound ledger) (htask : task.Recorded ledger)
    (phase : TaskPhase) : (state.setTask id task phase).Sound ledger :=
  h.of_task id { task with phase } state.lockedBy htask

/-- A caller returns. -/
theorem Sound.finish_task (h : state.Sound ledger) (htask : task.Recorded ledger)
    (result : TaskResult) : (state.finishTask id task result).Sound ledger :=
  h.of_task id { task with phase := .finished result } _ htask

/-- A new `write_payload` call with written entries. -/
theorem Sound.called (h : state.Sound ledger) {call : Nat} {batch : PayloadBatch context}
    (hnew : state.disk.calls.lookup call = none) (hbatch : batch.Written ledger) :
    { state with disk := state.disk.called call batch }.Sound ledger := by
  refine h.of_disk (ShardState.step_call hnew batch) (fun id other hcall => ?_) (by simp)
  cases hcall
  exact hbatch

/-- The buffer with the entry of a write. -/
theorem Sound.stored (h : state.Sound ledger) {key : ObjectKeyHash} (routed : context.Routes key)
    {bytes : List UInt8} (hwritten : ledger.Written key bytes)
    (hfits : (state.smallEntryBuffer.newEntry key bytes).stop ≤ chunkBytes) :
    { state with
      smallEntryBuffer := state.smallEntryBuffer.store key bytes routed hfits }.Sound ledger := by
  refine h.of_buffer fun entry hentry => ?_
  rcases state.smallEntryBuffer.payload_store key bytes routed hfits hentry with
    ⟨hold, hpayload⟩ | ⟨hkey, hpayload⟩
  · rw [hpayload]
    exact h.buffered entry hold
  · rw [hpayload, hkey]
    exact hwritten

/-- The buffered entries are passed to a call, and the caller waits for it with the lock. -/
theorem Sound.flushed (h : state.Sound ledger) (htask : task.Recorded ledger) {call : Nat}
    (hnew : state.disk.calls.lookup call = none)
    (hentries : state.smallEntryBuffer.entries ≠ []) (phase : TaskPhase) :
    ({ state with
      lockedBy := some id
      disk := state.disk.called call (state.smallEntryBuffer.toBatch hentries)
      smallEntryBuffer := .new }.setTask id task phase).Sound ledger := by
  have hcalled : { state with
      disk := state.disk.called call (state.smallEntryBuffer.toBatch hentries) }.Sound ledger :=
    h.called hnew h.buffered
  have hemptied := @Sound.of_buffer _ _ _ hcalled .new (by simp [SmallEntryBuffer.new])
  exact hemptied.of_task id { task with phase } (some id) htask

/-- A large entry is one written entry. -/
theorem PayloadBatch.large_written {key : ObjectKeyHash} {routed : context.Routes key}
    {bytes : List UInt8} (hlarge : smallEntryBytes ≤ payloadDiskBytes bytes.length)
    (hwritten : ledger.Written key bytes) :
    (PayloadBatch.large key routed bytes hlarge).Written ledger := by
  intro entry hentry
  cases List.mem_singleton.mp hentry
  have hslice : (PayloadBatch.large key routed bytes hlarge).slice 0 bytes.length = bytes := by
    simp [PayloadBatch.slice, PayloadBatch.large]
  exact hslice.symm ▸ hwritten

/-- A step of a writer keeps the cache sound. -/
theorem TaskStep.sound (hstep : state.TaskStep id task next) (h : state.Sound ledger)
    (htask : task.Recorded ledger) : next.Sound ledger := by
  cases hstep with
  | idle => exact h
  | finished result => exact h.finish_task htask result
  | locking => exact h.set_task htask _
  | called key routed bytes hlarge call hoperation hnew =>
      have hwritten := htask key routed bytes hoperation
      exact (h.called hnew (PayloadBatch.large_written hlarge hwritten)).set_task htask _
  | dropped call disk hdisk => exact (h.of_disk hdisk (by simp) (by simp)).finish_task htask _
  | discarded => exact (h.of_buffer (by simp [SmallEntryBuffer.clear])).finish_task htask _
  | flushed call stored published _ _ hnew hentries => exact h.flushed htask hnew hentries _
  | stored key routed bytes hfits result _ hoperation =>
      exact (h.stored routed (htask key routed bytes hoperation) hfits).finish_task htask result
  | filled key routed bytes hfits call published _ _ hoperation hnew hentries =>
      have hstored := h.stored routed (htask key routed bytes hoperation) hfits
      exact hstored.flushed htask hnew hentries _

/-! ## Steps of lookups -/

variable {lookup : Lookup} {action : CacheAction context}

/-- A step of a lookup keeps the cache sound. -/
theorem LookupStep.sound (hstep : state.LookupStep id lookup action next) (h : state.Sound ledger)
    (hlookup : state.lookups.lookup id = some lookup) (hreads : action.Reads ledger) :
    next.Sound ledger := by
  -- The read that the lookup holds is vouched for.
  have hvouched : ∀ number read, lookup.phase.read? = some number →
      state.reads.lookup number = some read →
        ledger.Vouched lookup.key read.payloadLen read.payloadChecksum := by
    intro number read hnumber hread
    obtain ⟨held, hheld, hsame⟩ := h.lookups id lookup number hlookup hnumber
    rw [hread, Option.some.injEq] at hheld
    rw [hheld]
    exact hsame
  cases hstep with
  | idle => exact h
  | moved _ phase hread _ hhit =>
      refine h.of_lookup id { lookup with phase } (fun read hphase => ?_)
        fun outcome bytes capacity hphase => ?_
      · rcases hread with hnone | hsame
        · rw [hnone] at hphase
          cases hphase
        · exact h.lookups id lookup read hlookup (hsame ▸ hphase)
      · obtain ⟨number, read, hnumber, hfound, hset⟩ := hhit outcome (bytes, capacity) hphase
        obtain ⟨hpayload, hhash⟩ := h.results number read bytes capacity hfound hset
        exact ledger.verified _ _ bytes (hhash ▸ hvouched number read hnumber hfound) hpayload
  | joined _ entry number _ hentry hshared =>
      have hview : state.disk.shard.entryIndex.view? lookup.key = some (entry.placed 0) := by
        rw [DiskEntryIndex.view?, hentry]
        rfl
      refine h.of_lookup id ⟨lookup.key, .waiting number⟩ (fun other hother => ?_)
        fun _ _ _ hphase => ?_
      · cases hother
        exact h.shared lookup.key _ number hview hshared
      · cases hphase
  | made entry fresh disk _ hentry _ hfresh hdisk => exact h.share id hentry hfresh hdisk
  | resolved _ number read result hphase hread hresult =>
      have hheld := read?_of_initializing hphase
      refine h.set_result id hread (hvouched number read hheld hread) fun bytes capacity hok => ?_
      obtain ⟨⟨reader, haction⟩, hhash⟩ := hresult bytes capacity hok
      exact ⟨hreads reader bytes capacity haction, hhash⟩
  | removed number read entry disk hphase hread _ _ hdisk =>
      have hremoved := h.of_disk hdisk (by simp) (by simp)
      refine hremoved.set_result id hread (hvouched number read ?_ hread) fun _ _ hok => ?_
      · rw [hphase]
        rfl
      · cases hok

/-! ## All steps -/

/-- A step keeps the cache sound. -/
theorem Step.sound (hstep : state.Step action next) (h : state.Sound ledger)
    (hwrites : action.Writes ledger) (hreads : action.Reads ledger) : next.Sound ledger := by
  cases hstep with
  | idle => exact h
  | started _ id task _ _ _ _ hwrite =>
      refine h.of_task id task state.lockedBy fun key routed bytes hoperation => ?_
      exact hwrites id key routed bytes (hwrite key routed bytes hoperation)
  | task _ id task _ _ htask hstep =>
      exact hstep.sound h fun key routed bytes => h.tasks id task key routed bytes htask
  | got id key phase _ hread _ hhit =>
      refine h.of_lookup id ⟨key, phase⟩ (fun read hphase => ?_)
        fun outcome bytes capacity hphase => ?_
      · rw [hread] at hphase
        cases hphase
      · obtain ⟨entry, hentry, rfl⟩ :=
          Option.map_eq_some_iff.mp (hhit outcome bytes capacity hphase)
        obtain ⟨hmem, rfl⟩ := state.smallEntryBuffer.entry_some hentry
        exact ledger.buffered _ _ (h.buffered entry hmem)
  | lookup _ id lookup _ _ hlookup hstep => exact hstep.sound h hlookup hreads
  | shard below disk hinternal hdisk =>
      refine h.of_disk hdisk ?_ ?_
      · rintro id batch rfl
        cases hinternal
      · rintro key read rfl
        cases hinternal

/-- A cache without callers is sound if its indexed entries were written and nobody reads them. -/
theorem Sound.opened {shard : DiskCacheShard} {file : BackingFile}
    (hentries : ∀ key view, shard.entryIndex.view? key = some view →
      view.sharedRead = none ∧ ledger.Vouched key view.payloadLen view.payloadChecksum)
    (hlog : ∀ found ∈ publicationsOf file.log, ledger.Written found.1.key found.2) :
    (CacheState.opened shard file : CacheState context).Sound ledger where
  buffered := by simp [CacheState.opened, SmallEntryBuffer.new]
  tasks := by simp [CacheState.opened]
  calls := by simp [CacheState.opened, ShardState.opened]
  publications := hlog
  entries key view hview := (hentries key view hview).2
  shared key view read hview hread := by
    rw [(hentries key view hview).1] at hread
    cases hread
  lookups := by simp [CacheState.opened]
  results := by simp [CacheState.opened]
  hits := by simp [CacheState.opened]

/-- The next state is orderly and sound, and the shard below got there by its own steps. -/
structure Follows (ledger : Ledger context.hash) (state next : CacheState context) : Prop where
  orderly : next.Orderly
  sound : next.Sound ledger
  descends : state.Descends next

/-- What the steps of a run preserve, a whole run preserves. -/
theorem run_follows {actions : List (CacheAction context)}
    (hwrites : ∀ action ∈ actions, action.Writes ledger)
    (hreads : ∀ action ∈ actions, action.Reads ledger) (horderly : state.Orderly)
    (h : state.Sound ledger) (hrun : run step state actions = .ok next) :
    Follows ledger state next := by
  refine run_invariant (Follows ledger state)
    (fun action => action.Writes ledger ∧ action.Reads ledger)
    (fun middle action after hmiddle hallowed hstep => ?_) ⟨horderly, h, .of_eq rfl⟩
    (fun action haction => ⟨hwrites action haction, hreads action haction⟩) hrun
  have hcases := (step_cases hmiddle.orderly action).of_ok hstep
  refine ⟨hcases.orderly hmiddle.orderly, hcases.sound hmiddle.sound hallowed.1 hallowed.2,
    hmiddle.descends.trans ?_⟩
  rcases hcases.below with hsame | ⟨below, hbelow⟩
  · exact .of_eq hsame
  · exact .of_step hbelow

end CacheState

end Feuer.Storage
