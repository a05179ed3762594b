import Feuer.Fetch.PendingFetch

/-!
# Who owns a fetch

`Owned` relates the registry, the allocations and the callers: a reference counter is the number of
callers that own the fetch, a fetch without owners is being dropped by exactly one caller until its
`Drop` has run, and an incomplete fetch with an owner is registered. The edits of the state that the
steps consist of keep it: a new caller (`Owned.start`), a new phase (`Owned.rephase`), progress of a
future (`Owned.set_result`), a reference taken and given up (`Owned.acquire`, `Owned.release`), a
registration removed (`Owned.unregister`), and the life of an allocation (`Owned.allocate`,
`Owned.mark_dropped`, `Owned.free`).
-/

namespace Feuer.Fetch

open Lib

variable {κ τ ρ : Type}

namespace CallerPhase

/-- The fetch whose address the caller uses. -/
def address (phase : CallerPhase ρ) : Option Nat := phase.held.or phase.doomed

/-- An address is held or doomed. -/
theorem address_eq_some {phase : CallerPhase ρ} {address : Nat} :
    phase.address = some address ↔ phase.held = some address ∨ phase.doomed = some address := by
  cases phase <;> simp [CallerPhase.address, held, doomed]

/-- After the release nothing is held. -/
@[simp] theorem held_after_release (result : Option ρ) : (afterRelease result).held = none := by
  cases result <;> rfl

/-- After the release nothing is doomed. -/
@[simp] theorem doomed_after_release (result : Option ρ) : (afterRelease result).doomed = none := by
  cases result <;> rfl

end CallerPhase

/-- One if the reference is to the address. -/
def refersTo (reference : Option Nat) (address : Nat) : Nat :=
  if reference = some address then 1 else 0

/-- The number of callers that own the fetch at an address. -/
def owners (callers : FiniteMap Nat (Caller κ τ ρ)) (address : Nat) : Nat :=
  FiniteMap.tally (fun _ caller => refersTo caller.phase.held address) callers

/-- The number of callers that drop the fetch at an address. -/
def droppers (callers : FiniteMap Nat (Caller κ τ ρ)) (address : Nat) : Nat :=
  FiniteMap.tally (fun _ caller => refersTo caller.phase.doomed address) callers

/-- The owners change with the phase of one caller. -/
theorem owners_insert {callers : FiniteMap Nat (Caller κ τ ρ)} {id : Nat} {caller : Caller κ τ ρ}
    (hid : callers.lookup id = some caller) (changed : Caller κ τ ρ) (address : Nat) :
    owners (callers.insert id changed) address + refersTo caller.phase.held address =
      refersTo changed.phase.held address + owners callers address :=
  FiniteMap.tally_replace _ changed hid

/-- The callers that drop change with the phase of one caller. -/
theorem droppers_insert {callers : FiniteMap Nat (Caller κ τ ρ)} {id : Nat} {caller : Caller κ τ ρ}
    (hid : callers.lookup id = some caller) (changed : Caller κ τ ρ) (address : Nat) :
    droppers (callers.insert id changed) address + refersTo caller.phase.doomed address =
      refersTo changed.phase.doomed address + droppers callers address :=
  FiniteMap.tally_replace _ changed hid

/-- The caller that a fetch without owners waits for. -/
def PendingFetch.awaitedDrops (fetch : PendingFetch κ τ ρ) : Nat :=
  if fetch.strong = 0 ∧ fetch.dropped = false then 1 else 0

/-- The parts of a fetch that never change. -/
structure SameFetch (fetch changed : PendingFetch κ τ ρ) : Prop where
  key : changed.key = fetch.key
  errorType : changed.errorType = fetch.errorType
  serial : changed.serial = fetch.serial
  initialised : fetch.result.isSome → changed.result.isSome
  complete : fetch.complete → changed.complete

/-- A fetch is the same as itself. -/
theorem SameFetch.refl (fetch : PendingFetch κ τ ρ) : SameFetch fetch fetch :=
  ⟨rfl, rfl, rfl, fun hsome => hsome, fun hdone => hdone⟩

/-- The registry refers to allocated fetches of the right key, and serial numbers identify them. -/
structure Allocated [DecidableEq κ] [DecidableEq τ] (registry : FiniteMap (κ × τ) Nat)
    (heap : FiniteMap Nat (PendingFetch κ τ ρ)) (nextSerial : Nat) : Prop where
  registered : ∀ key address, registry.lookup key = some address →
    ∃ fetch, heap.lookup address = some fetch ∧ fetch.key = key ∧ fetch.dropped = false
  typed : ∀ address fetch, heap.lookup address = some fetch → fetch.errorType = fetch.key.2
  serial_lt : ∀ address fetch, heap.lookup address = some fetch → fetch.serial < nextSerial
  serial_inj : ∀ address other fetch fetch', heap.lookup address = some fetch →
    heap.lookup other = some fetch' → fetch.serial = fetch'.serial → address = other

/-- A caller's address is that of the fetch it joined, whose `Drop` has not run. -/
structure Refers (heap : FiniteMap Nat (PendingFetch κ τ ρ)) (caller : Caller κ τ ρ)
    (address : Nat) : Prop where
  allocated : ∃ fetch, heap.lookup address = some fetch ∧ fetch.dropped = false ∧
    fetch.key = caller.key ∧ caller.joined = some fetch.serial
  initialised : caller.phase = .awaiting address →
    ∃ fetch, heap.lookup address = some fetch ∧ fetch.result.isSome
  resolved : ∀ result, caller.phase = .resolved address result →
    ∃ fetch, heap.lookup address = some fetch ∧ fetch.complete

/-- A reference survives a change of the heap that keeps its fetch. -/
theorem Refers.transfer {heap changed : FiniteMap Nat (PendingFetch κ τ ρ)} {caller : Caller κ τ ρ}
    {address : Nat} (h : Refers heap caller address)
    (hheap : ∀ fetch, heap.lookup address = some fetch → ∃ fetch',
      changed.lookup address = some fetch' ∧ SameFetch fetch fetch' ∧
      fetch'.dropped = fetch.dropped) :
    Refers changed caller address := by
  obtain ⟨⟨fetch, hfetch, hdropped, hkey, hserial⟩, hinit, hresolved⟩ := h
  obtain ⟨fetch', hfetch', hsame, hdropped'⟩ := hheap fetch hfetch
  refine ⟨⟨fetch', hfetch', hdropped'.trans hdropped, hsame.key.trans hkey, ?_⟩, ?_, ?_⟩
  · rw [hserial, hsame.serial]
  · intro hphase
    obtain ⟨found, hfound, hsome⟩ := hinit hphase
    obtain ⟨found', hfound', hsame, -⟩ := hheap found hfound
    exact ⟨found', hfound', hsame.initialised hsome⟩
  · intro result hphase
    obtain ⟨found, hfound, hcomplete⟩ := hresolved result hphase
    obtain ⟨found', hfound', hsame, -⟩ := hheap found hfound
    exact ⟨found', hfound', hsame.complete hcomplete⟩

section

variable [DecidableEq κ] [DecidableEq τ] {registry : FiniteMap (κ × τ) Nat}
  {heap : FiniteMap Nat (PendingFetch κ τ ρ)} {nextSerial : Nat}

/-- A fetch may change as long as `Drop` runs on an unregistered one only. -/
theorem Allocated.update (h : Allocated registry heap nextSerial) {address : Nat}
    {fetch changed : PendingFetch κ τ ρ} (hfetch : heap.lookup address = some fetch)
    (hsame : SameFetch fetch changed)
    (hdropped : registry.lookup fetch.key = some address → changed.dropped = false) :
    Allocated registry (heap.insert address changed) nextSerial := by
  have hheap := FiniteMap.lookup_insert_eq heap address
  obtain ⟨hkey, htype, hserial, -, -⟩ := hsame
  constructor
  · intro key other hregistered
    obtain ⟨found, hfound, hall⟩ := h.registered key other hregistered
    rw [hheap]
    grind
  · have := h.typed
    grind
  · have := h.serial_lt
    grind
  · have := h.serial_inj
    grind

/-- Weak references may go. -/
theorem Allocated.unregister (h : Allocated registry heap nextSerial) (key : κ × τ) :
    Allocated (registry.erase key) heap nextSerial := by
  refine { h with registered := ?_ }
  intro other address hregistered
  exact h.registered other address (FiniteMap.lookup_erase_eq_some.mp hregistered).2

/-- A new fetch takes a free address and the next serial number. -/
theorem Allocated.allocate (h : Allocated registry heap nextSerial) {address : Nat}
    (hfree : heap.lookup address = none) (fetch : PendingFetch κ τ ρ)
    (htype : fetch.errorType = fetch.key.2) (hserial : fetch.serial = nextSerial)
    (hdropped : fetch.dropped = false) :
    Allocated (registry.insert fetch.key address) (heap.insert address fetch) (nextSerial + 1) := by
  have hheap := FiniteMap.lookup_insert_eq heap address
  have hregistry := FiniteMap.lookup_insert_eq registry fetch.key
  constructor
  · intro key other hregistered
    have := h.registered key other
    rw [hheap]
    grind
  · have := h.typed
    grind
  · have := h.serial_lt
    grind
  · have hlt := h.serial_lt
    have := h.serial_inj
    grind

/-- The memory of an unregistered fetch may be freed. -/
theorem Allocated.free (h : Allocated registry heap nextSerial) {address : Nat}
    {fetch : PendingFetch κ τ ρ} (hfetch : heap.lookup address = some fetch)
    (hdropped : fetch.dropped) : Allocated registry (heap.erase address) nextSerial := by
  have hheap := FiniteMap.lookup_erase_eq heap address
  constructor
  · intro key other hregistered
    obtain ⟨found, hfound, hall⟩ := h.registered key other hregistered
    rw [hheap]
    grind
  · have := h.typed
    grind
  · have := h.serial_lt
    grind
  · have := h.serial_inj
    grind

end

namespace FetchState

/-- How the registry, the allocations and the callers hang together. -/
structure Owned [DecidableEq κ] [DecidableEq τ] (state : FetchState κ τ ρ) : Prop where
  allocated : Allocated state.registry state.heap state.nextSerial
  strong_eq : ∀ address fetch, state.heap.lookup address = some fetch →
    fetch.strong = owners state.callers address
  droppers_eq : ∀ address fetch, state.heap.lookup address = some fetch →
    droppers state.callers address = fetch.awaitedDrops
  refers : ∀ id caller address, state.callers.lookup id = some caller →
    caller.phase.address = some address → Refers state.heap caller address
  incomplete : ∀ address fetch, state.heap.lookup address = some fetch → 0 < fetch.strong →
    fetch.complete = false → state.registry.lookup fetch.key = some address

/-- A live address is not dangling. -/
theorem fetch_at_eq {state : FetchState κ τ ρ} {address : Nat} {fetch : PendingFetch κ τ ρ}
    (hfetch : state.heap.lookup address = some fetch) : state.fetchAt address = .ok fetch := by
  rw [fetchAt, hfetch]

variable [DecidableEq κ] [DecidableEq τ] {state : FetchState κ τ ρ}

/-- Without callers nothing is owned. -/
theorem owned_init : (init : FetchState κ τ ρ).Owned := by
  constructor
  · constructor <;> simp [init]
  all_goals simp [init]

namespace Owned

/-- An owner counts. -/
theorem strong_pos (h : state.Owned) {id address : Nat} {caller : Caller κ τ ρ}
    {fetch : PendingFetch κ τ ρ} (hid : state.callers.lookup id = some caller)
    (hheld : caller.phase.held = some address) (hfetch : state.heap.lookup address = some fetch) :
    0 < fetch.strong := by
  have hle := FiniteMap.le_tally (fun _ caller => refersTo caller.phase.held address) hid
  simp only [hheld] at hle
  rw [h.strong_eq _ _ hfetch]
  exact Nat.lt_of_lt_of_le (by simp [refersTo]) hle

/-- A fetch that is being dropped has no owner left. -/
theorem strong_eq_zero (h : state.Owned) {id address : Nat} {caller : Caller κ τ ρ}
    {fetch : PendingFetch κ τ ρ} (hid : state.callers.lookup id = some caller)
    (hdoomed : caller.phase.doomed = some address)
    (hfetch : state.heap.lookup address = some fetch) :
    fetch.strong = 0 := by
  have hle := FiniteMap.le_tally (fun _ caller => refersTo caller.phase.doomed address) hid
  have hdroppers := h.droppers_eq _ _ hfetch
  simp only [hdoomed] at hle
  by_contra hne
  rw [PendingFetch.awaitedDrops, if_neg fun hand => hne hand.1] at hdroppers
  rw [droppers] at hdroppers
  simp [refersTo] at hle hdroppers
  omega

/-- Nobody else refers to a fetch that is being dropped. -/
theorem sole_dropper (h : state.Owned) {id other address : Nat} {caller found : Caller κ τ ρ}
    (hid : state.callers.lookup id = some caller) (hdoomed : caller.phase.doomed = some address)
    (hne : other ≠ id) (hother : state.callers.lookup other = some found) :
    found.phase.address ≠ some address := by
  intro haddress
  obtain ⟨fetch, hfetch, hdropped, -, -⟩ := (h.refers other found address hother haddress).allocated
  have hzero := h.strong_eq_zero hid hdoomed hfetch
  rcases CallerPhase.address_eq_some.mp haddress with hheld | hdoomed'
  · have := h.strong_pos hother hheld hfetch
    omega
  · have htwo := FiniteMap.add_le_tally (fun _ caller => refersTo caller.phase.doomed address)
      hid hother (Ne.symm hne)
    have hone := h.droppers_eq address fetch hfetch
    simp only [droppers, PendingFetch.awaitedDrops, hzero, hdropped] at hone
    simp only [hdoomed, hdoomed', hone] at htwo
    simp [refersTo] at htwo

/-- A caller's address refers to the fetch that it joined. -/
theorem fetch_of_address (h : state.Owned) {id address : Nat} {caller : Caller κ τ ρ}
    (hid : state.callers.lookup id = some caller) (haddress : caller.phase.address = some address) :
    ∃ fetch, state.heap.lookup address = some fetch ∧ fetch.dropped = false ∧
      fetch.key = caller.key ∧ caller.joined = some fetch.serial :=
  (h.refers _ _ _ hid haddress).allocated

/-- Some caller of its key is still there for a fetch whose `Drop` has not run. -/
theorem exists_caller (h : state.Owned) {address : Nat} {fetch : PendingFetch κ τ ρ}
    (hfetch : state.heap.lookup address = some fetch) (hdropped : fetch.dropped = false) :
    ∃ id caller, state.callers.lookup id = some caller ∧ caller.phase.address = some address := by
  by_cases hstrong : fetch.strong = 0
  · have hone : 0 < droppers state.callers address := by
      rw [h.droppers_eq _ _ hfetch, PendingFetch.awaitedDrops, if_pos ⟨hstrong, hdropped⟩]
      exact Nat.one_pos
    obtain ⟨id, caller, hid, hpos⟩ := FiniteMap.exists_of_tally_pos hone
    refine ⟨id, caller, hid, CallerPhase.address_eq_some.mpr (.inr ?_)⟩
    by_contra hne
    simp [refersTo, hne] at hpos
  · have hone : 0 < owners state.callers address := by
      rw [← h.strong_eq _ _ hfetch]
      exact Nat.pos_of_ne_zero hstrong
    obtain ⟨id, caller, hid, hpos⟩ := FiniteMap.exists_of_tally_pos hone
    refine ⟨id, caller, hid, CallerPhase.address_eq_some.mpr (.inl ?_)⟩
    by_contra hne
    simp [refersTo, hne] at hpos

/-! ## Edits -/

/-- A caller moves on without a change of what it refers to. -/
theorem rephase (h : state.Owned) {id : Nat} {caller changed : Caller κ τ ρ}
    (hid : state.callers.lookup id = some caller) (hkey : changed.key = caller.key)
    (hjoined : changed.joined = caller.joined) (hheld : changed.phase.held = caller.phase.held)
    (hdoomed : changed.phase.doomed = caller.phase.doomed)
    (hinitialised : ∀ address, changed.phase = .awaiting address →
      ∃ fetch, state.heap.lookup address = some fetch ∧ fetch.result.isSome)
    (hresolved : ∀ address result, changed.phase = .resolved address result →
      ∃ fetch, state.heap.lookup address = some fetch ∧ fetch.complete) :
    (state.setCaller id changed).Owned := by
  refine { h with strong_eq := ?_, droppers_eq := ?_, refers := ?_ }
  · intro address fetch hfetch
    have hcount := owners_insert hid changed address
    rw [hheld] at hcount
    have := h.strong_eq address fetch hfetch
    simp only [setCaller]
    omega
  · intro address fetch hfetch
    have hcount := droppers_insert hid changed address
    rw [hdoomed] at hcount
    have := h.droppers_eq address fetch hfetch
    simp only [setCaller]
    omega
  · intro other found address hother haddress
    simp only [setCaller, FiniteMap.lookup_insert_eq] at hother ⊢
    split at hother
    next =>
      cases hother
      have haddress' : caller.phase.address = some address := by
        rw [← haddress, CallerPhase.address, CallerPhase.address, hheld, hdoomed]
      obtain ⟨fetch, hfetch, hdropped, hfetchkey, hserial⟩ := h.fetch_of_address hid haddress'
      exact ⟨⟨fetch, hfetch, hdropped, hfetchkey.trans hkey.symm, hjoined.trans hserial⟩,
        hinitialised address, hresolved address⟩
    next => exact h.refers other found address hother haddress

/-- The shared future of a fetch makes progress. -/
theorem set_result (h : state.Owned) {address : Nat} {fetch : PendingFetch κ τ ρ}
    (hfetch : state.heap.lookup address = some fetch) {future : SharedFuture ρ}
    (hcomplete : fetch.complete = false) :
    (state.setFetch address { fetch with result := some future }).Owned := by
  have hheap := FiniteMap.lookup_insert_eq state.heap address
  have hsame : SameFetch fetch { fetch with result := some future } :=
    ⟨rfl, rfl, rfl, fun _ => rfl, fun hdone => by simp [hcomplete] at hdone⟩
  constructor
  · refine h.allocated.update hfetch hsame fun hregistered => ?_
    have := h.allocated.registered _ _ hregistered
    grind
  · have := h.strong_eq
    simp only [setFetch, hheap]
    grind
  · have := h.droppers_eq
    simp only [setFetch, hheap]
    grind [PendingFetch.awaitedDrops]
  · intro id caller other hid haddress
    refine (h.refers id caller other hid haddress).transfer fun found hfound => ?_
    simp only [setFetch, hheap]
    grind [SameFetch]
  · have := h.incomplete
    simp only [setFetch, hheap]
    grind

/-- The references of all callers, when one caller and one fetch change. -/
theorem refers_edit (h : state.Owned) {id address : Nat} {caller : Caller κ τ ρ}
    {fetch changed : PendingFetch κ τ ρ} (hfetch : state.heap.lookup address = some fetch)
    (hsame : SameFetch fetch changed)
    (hdropped : ∀ other found, other ≠ id → state.callers.lookup other = some found →
      found.phase.address = some address → changed.dropped = fetch.dropped)
    (hown : ∀ target, caller.phase.address = some target →
      Refers (state.heap.insert address changed) caller target)
    {other target : Nat} {found : Caller κ τ ρ}
    (hother : (state.callers.insert id caller).lookup other = some found)
    (htarget : found.phase.address = some target) :
    Refers (state.heap.insert address changed) found target := by
  rw [FiniteMap.lookup_insert_eq] at hother
  split at hother
  next =>
    cases hother
    exact hown target htarget
  next hne =>
    refine (h.refers other found target hother htarget).transfer fun fetch' hfetch' => ?_
    rw [FiniteMap.lookup_insert_eq]
    split
    next heq =>
      subst heq
      cases hfetch.symm.trans hfetch'
      exact ⟨changed, rfl, hsame, hdropped other found hne hother htarget⟩
    next => exact ⟨fetch', hfetch', .refl fetch', rfl⟩

/-- A caller without a reference becomes an owner of a fetch that has one. -/
theorem acquire (h : state.Owned) {id address : Nat} {caller : Caller κ τ ρ}
    {fetch : PendingFetch κ τ ρ} (hid : state.callers.lookup id = some caller)
    (hphase : caller.phase.address = none) (hfetch : state.heap.lookup address = some fetch)
    (hstrong : 0 < fetch.strong) (hkey : fetch.key = caller.key)
    (hdropped : fetch.dropped = false) :
    (state.joinAt id caller address { fetch with strong := fetch.strong + 1 }).Owned := by
  have hheap := FiniteMap.lookup_insert_eq state.heap address
  have hsame : SameFetch fetch { fetch with strong := fetch.strong + 1 } :=
    ⟨rfl, rfl, rfl, fun hsome => hsome, fun hdone => hdone⟩
  constructor
  · exact h.allocated.update hfetch hsame fun _ => hdropped
  · have howners := owners_insert hid
    have := h.strong_eq
    simp only [joinAt, setFetch, setCaller, hheap]
    grind [CallerPhase.address, CallerPhase.held, refersTo]
  · have hdroppers := droppers_insert hid
    have := h.droppers_eq
    simp only [joinAt, setFetch, setCaller, hheap]
    grind [CallerPhase.address, CallerPhase.doomed, refersTo, PendingFetch.awaitedDrops]
  · intro other found target
    refine h.refers_edit hfetch hsame (fun _ _ _ _ _ => rfl) fun target htarget => ?_
    cases htarget
    exact ⟨⟨_, Finmap.lookup_insert _, hdropped, hkey, rfl⟩, nofun, nofun⟩
  · have := h.incomplete
    simp only [joinAt, setFetch, setCaller, hheap]
    grind [PendingFetch.complete]

/-- An owner gives its reference up, and drops the fetch if it was the last one. -/
theorem release (h : state.Owned) {id address : Nat} {caller : Caller κ τ ρ}
    {fetch : PendingFetch κ τ ρ} {result : Option ρ}
    (hid : state.callers.lookup id = some caller)
    (hphase : caller.phase = .releasing address result)
    (hfetch : state.heap.lookup address = some fetch) :
    ((state.setFetch address { fetch with strong := fetch.strong - 1 }).setCaller id
      { caller with
        phase :=
          if fetch.strong = 1 then .dropping address result else .afterRelease result }).Owned := by
  have hheap := FiniteMap.lookup_insert_eq state.heap address
  have hpos : 0 < fetch.strong := h.strong_pos hid (by rw [hphase]; rfl) hfetch
  have haddress : caller.phase.address = some address := by rw [hphase]; rfl
  obtain ⟨_, hfound, hdropped, hkey, hserial⟩ := h.fetch_of_address hid haddress
  cases hfetch.symm.trans hfound
  have hsame : SameFetch fetch { fetch with strong := fetch.strong - 1 } :=
    ⟨rfl, rfl, rfl, fun hsome => hsome, fun hdone => hdone⟩
  constructor
  · exact h.allocated.update hfetch hsame fun _ => hdropped
  · have howners := owners_insert hid
    have := h.strong_eq
    simp only [setFetch, setCaller, hheap]
    grind [CallerPhase.held, refersTo, CallerPhase.held_after_release]
  · have hdroppers := droppers_insert hid
    have := h.droppers_eq
    simp only [setFetch, setCaller, hheap]
    grind [CallerPhase.doomed, refersTo, PendingFetch.awaitedDrops,
      CallerPhase.doomed_after_release]
  · intro other found target
    refine h.refers_edit hfetch hsame (fun _ _ _ _ _ => rfl) fun target htarget => ?_
    split at htarget
    next hlast =>
      cases htarget
      exact ⟨⟨_, Finmap.lookup_insert _, hdropped, hkey, hserial⟩, by simp [hlast], by simp [hlast]⟩
    next => simp [CallerPhase.address] at htarget
  · have := h.incomplete
    simp only [setFetch, setCaller, hheap]
    grind [PendingFetch.complete]

/-- A registration goes when the fetch is complete or has no owner. -/
theorem unregister (h : state.Owned) {address : Nat} {fetch : PendingFetch κ τ ρ}
    (hfetch : state.heap.lookup address = some fetch)
    (hregistered : state.registry.lookup fetch.key = some address)
    (hdone : fetch.complete ∨ fetch.strong = 0) :
    Owned { state with registry := state.registry.erase fetch.key } := by
  refine { h with allocated := h.allocated.unregister _, incomplete := ?_ }
  intro other found hfound hpos hincomplete
  have hother := h.incomplete other found hfound hpos hincomplete
  simp only [FiniteMap.lookup_erase_eq]
  grind

/-- `Drop` has run on an unregistered fetch. -/
theorem mark_dropped (h : state.Owned) {id address : Nat} {caller : Caller κ τ ρ}
    {fetch : PendingFetch κ τ ρ} {result : Option ρ}
    (hid : state.callers.lookup id = some caller) (hphase : caller.phase = .dropping address result)
    (hfetch : state.heap.lookup address = some fetch)
    (hregistered : state.registry.lookup fetch.key ≠ some address) :
    ((state.setFetch address { fetch with dropped := true }).setCaller id
      { caller with phase := .afterRelease result }).Owned := by
  have hheap := FiniteMap.lookup_insert_eq state.heap address
  have hdoomed : caller.phase.doomed = some address := by rw [hphase]; rfl
  have hzero := h.strong_eq_zero hid hdoomed hfetch
  have hsame : SameFetch fetch { fetch with dropped := true } :=
    ⟨rfl, rfl, rfl, fun hsome => hsome, fun hdone => hdone⟩
  constructor
  · exact h.allocated.update hfetch hsame fun hother => absurd hother hregistered
  · have howners := owners_insert hid
    have := h.strong_eq
    simp only [setFetch, setCaller, hheap]
    grind [CallerPhase.held, refersTo, CallerPhase.held_after_release]
  · have hdroppers := droppers_insert hid
    have := h.droppers_eq
    simp only [setFetch, setCaller, hheap]
    grind [CallerPhase.doomed, refersTo, PendingFetch.awaitedDrops,
      CallerPhase.doomed_after_release]
  · intro other found target
    refine h.refers_edit hfetch hsame ?_ fun target htarget => ?_
    · intro other found hne hother haddress
      exact absurd haddress (h.sole_dropper hid hdoomed hne hother)
    · simp [CallerPhase.address] at htarget
  · have := h.incomplete
    simp only [setFetch, setCaller, hheap]
    grind [PendingFetch.complete]

/-- A caller without a reference allocates a fetch. The registration that it replaces is of a
fetch without owners. -/
theorem allocate (h : state.Owned) {id address : Nat} {caller : Caller κ τ ρ}
    (hid : state.callers.lookup id = some caller) (hphase : caller.phase.address = none)
    (hfree : state.heap.lookup address = none)
    (hstale : ∀ other found, state.registry.lookup caller.key = some other →
      state.heap.lookup other = some found → found.strong = 0) :
    Owned { state.joinAt id caller address (.new caller.key state.nextSerial) with
      registry := state.registry.insert caller.key address
      nextSerial := state.nextSerial + 1 } := by
  have hheap := FiniteMap.lookup_insert_eq state.heap address
  have hunused : ∀ other found, state.callers.lookup other = some found →
      found.phase.address ≠ some address := by
    intro other found hother haddress
    obtain ⟨_, hfound, -⟩ := h.fetch_of_address hother haddress
    rw [hfree] at hfound
    cases hfound
  constructor
  · exact h.allocated.allocate hfree (.new caller.key state.nextSerial) rfl rfl rfl
  · have howners := owners_insert hid
    have hzero : owners state.callers address = 0 :=
      FiniteMap.tally_eq_zero fun other found hother =>
      if_neg fun hheld => hunused other found hother (CallerPhase.address_eq_some.mpr (.inl hheld))
    have := h.strong_eq
    simp only [joinAt, setFetch, setCaller, hheap]
    grind [CallerPhase.address, CallerPhase.held, refersTo, PendingFetch.new]
  · have hdroppers := droppers_insert hid
    have hzero : droppers state.callers address = 0 :=
      FiniteMap.tally_eq_zero fun other found hother => if_neg fun hdoomed =>
        hunused other found hother (CallerPhase.address_eq_some.mpr (.inr hdoomed))
    have := h.droppers_eq
    simp only [joinAt, setFetch, setCaller, hheap]
    grind [CallerPhase.address, CallerPhase.doomed, refersTo, PendingFetch.awaitedDrops,
      PendingFetch.new]
  · intro other found target hother htarget
    simp only [joinAt, setFetch, setCaller, FiniteMap.lookup_insert_eq] at hother ⊢
    split at hother
    next =>
      cases hother
      cases htarget
      exact ⟨⟨_, Finmap.lookup_insert _, rfl, rfl, rfl⟩, nofun, nofun⟩
    next =>
      refine (h.refers other found target hother htarget).transfer fun fetch' hfetch' => ?_
      refine ⟨fetch', ?_, .refl fetch', rfl⟩
      have hne : target ≠ address := by
        rintro rfl
        exact hunused other found hother htarget
      rw [hheap, if_neg hne]
      exact hfetch'
  · have := h.incomplete
    simp only [joinAt, setFetch, setCaller, FiniteMap.lookup_insert_eq]
    grind [PendingFetch.new]

/-- The memory of a dropped fetch goes. -/
theorem free (h : state.Owned) {address : Nat} {fetch : PendingFetch κ τ ρ}
    (hfetch : state.heap.lookup address = some fetch) (hdropped : fetch.dropped) :
    Owned { state with heap := state.heap.erase address } := by
  have hheap := FiniteMap.lookup_erase_eq state.heap address
  constructor
  · exact h.allocated.free hfetch hdropped
  · have := h.strong_eq
    simp only [hheap]
    grind
  · have := h.droppers_eq
    simp only [hheap]
    grind
  · intro id caller other hid haddress
    have hrefers := h.refers id caller other hid haddress
    refine hrefers.transfer fun found hfound => ?_
    have hallocated := hrefers.allocated
    refine ⟨found, ?_, .refl found, rfl⟩
    rw [hheap]
    grind
  · have := h.incomplete
    simp only [hheap]
    grind

/-- A new caller refers to nothing. -/
theorem start (h : state.Owned) {id : Nat} {caller : Caller κ τ ρ}
    (hid : state.callers.lookup id = none) (hphase : caller.phase = .started) :
    (state.setCaller id caller).Owned := by
  refine { h with strong_eq := ?_, droppers_eq := ?_, refers := ?_ }
  · intro address fetch hfetch
    rw [h.strong_eq address fetch hfetch, owners, owners, setCaller,
      FiniteMap.tally_insert_new _ _ hid, hphase]
    simp [refersTo, CallerPhase.held]
  · intro address fetch hfetch
    rw [← h.droppers_eq address fetch hfetch, droppers, droppers, setCaller,
      FiniteMap.tally_insert_new _ _ hid, hphase]
    simp [refersTo, CallerPhase.doomed]
  · intro other found address hother haddress
    simp only [setCaller, FiniteMap.lookup_insert_eq] at hother
    split at hother
    next =>
      cases hother
      rw [hphase] at haddress
      cases haddress
    next => exact h.refers other found address hother haddress

end Owned

end FetchState

end Feuer.Fetch
