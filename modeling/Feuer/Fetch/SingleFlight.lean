import Feuer.Fetch.FetchLog

/-!
# Single-flight fetches

`Retiring` follows the registrations over time: a fetch from which a caller has returned is not
registered again, so a caller that starts later does not join it. With the ownership of the fetches
and their logs, `FetchState.run_single_flight` says for every interleaving that no step panics and
that callers share fetches as they should: one incomplete fetch, one callback and one result at a
time for a key and error type, no registration lost to an older fetch, and none left behind.
-/

namespace Feuer.Fetch

open Lib

variable {κ τ ρ : Type}

/-- The caller has removed its fetch from the registry. -/
def CallerPhase.settled : CallerPhase ρ → Bool
  | .releasing _ (some _) | .dropping _ (some _) | .reporting _ | .returned _ => true
  | _ => false

/-- A caller is settled by a result. -/
theorem CallerPhase.settled_after_release (result : Option ρ) :
    (CallerPhase.afterRelease result).settled = result.isSome := by
  cases result <;> rfl

/-- A caller that gives up its reference is settled by a result. -/
theorem CallerPhase.settled_releasing (address : Nat) (result : Option ρ) :
    (CallerPhase.releasing address result).settled = result.isSome := by
  cases result <;> rfl

/-- A caller that drops the fetch is settled by a result. -/
theorem CallerPhase.settled_dropping (address : Nat) (result : Option ρ) :
    (CallerPhase.dropping address result).settled = result.isSome := by
  cases result <;> rfl

/-- A caller with an address is active. -/
theorem CallerPhase.active_of_address {phase : CallerPhase ρ} {address : Nat}
    (h : phase.address = some address) : phase.active := by
  cases phase <;> first | rfl | cases h

/-- Fetches are joined while they are registered, and retire after that. -/
structure Retiring (current : κ × τ → Option Nat) (callers : FiniteMap Nat (Caller κ τ ρ))
    (retired : List Nat) (nextSerial : Nat) : Prop where
  settled : ∀ id caller serial key, callers.lookup id = some caller →
    caller.joined = some serial → caller.phase.settled → current key ≠ some serial
  retired_lt : ∀ serial ∈ retired, serial < nextSerial
  retired_gone : ∀ serial ∈ retired, ∀ key, current key ≠ some serial
  barred : ∀ id caller, callers.lookup id = some caller → ∀ serial ∈ caller.barred, serial ∈ retired
  unbarred : ∀ id caller serial, callers.lookup id = some caller → caller.joined = some serial →
    serial ∉ caller.barred

namespace Retiring

variable {current changed : κ × τ → Option Nat} {callers : FiniteMap Nat (Caller κ τ ρ)}
  {retired : List Nat} {nextSerial : Nat}

/-- Registrations go. -/
theorem mono (h : Retiring current callers retired nextSerial)
    (hchanged : ∀ key serial, changed key = some serial → current key = some serial) :
    Retiring changed callers retired nextSerial where
  settled id caller serial key hid hjoined hsettled hcurrent :=
    h.settled id caller serial key hid hjoined hsettled (hchanged key serial hcurrent)
  retired_lt := h.retired_lt
  retired_gone serial hserial key hcurrent :=
    h.retired_gone serial hserial key (hchanged key serial hcurrent)
  barred := h.barred
  unbarred := h.unbarred

/-- The next serial number is registered. -/
theorem allocate (h : Retiring current callers retired nextSerial)
    (hjoined_lt : ∀ id caller serial, callers.lookup id = some caller →
      caller.joined = some serial → serial < nextSerial)
    (hchanged : ∀ key serial, changed key = some serial →
      current key = some serial ∨ serial = nextSerial) :
    Retiring changed callers retired (nextSerial + 1) where
  settled id caller serial key hid hjoined hsettled hcurrent := by
    rcases hchanged key serial hcurrent with hold | hnew
    · exact h.settled id caller serial key hid hjoined hsettled hold
    · have := hjoined_lt id caller serial hid hjoined
      omega
  retired_lt serial hserial := Nat.lt_succ_of_lt (h.retired_lt serial hserial)
  retired_gone serial hserial key hcurrent := by
    rcases hchanged key serial hcurrent with hold | hnew
    · exact h.retired_gone serial hserial key hold
    · have := h.retired_lt serial hserial
      omega
  barred := h.barred
  unbarred := h.unbarred

/-- One caller changes. -/
theorem set_caller (h : Retiring current callers retired nextSerial) (id : Nat)
    {caller : Caller κ τ ρ}
    (hsettled : ∀ serial key, caller.joined = some serial → caller.phase.settled →
      current key ≠ some serial)
    (hbarred : ∀ serial ∈ caller.barred, serial ∈ retired)
    (hunbarred : ∀ serial, caller.joined = some serial → serial ∉ caller.barred) :
    Retiring current (callers.insert id caller) retired nextSerial := by
  obtain ⟨hold, hretired_lt, hgone, holdbarred, holdunbarred⟩ := h
  refine ⟨?_, hretired_lt, hgone, ?_, ?_⟩
  all_goals simp only [FiniteMap.lookup_insert_eq]
  all_goals grind

/-- A caller keeps its fetch. -/
theorem rephase (h : Retiring current callers retired nextSerial) {id : Nat}
    {caller : Caller κ τ ρ} {phase : CallerPhase ρ} (hid : callers.lookup id = some caller)
    (hsettled : ∀ serial key, caller.joined = some serial → phase.settled →
      current key ≠ some serial) :
    Retiring current (callers.insert id { caller with phase := phase }) retired nextSerial :=
  h.set_caller id hsettled (h.barred id caller hid)
    (fun serial => h.unbarred id caller serial hid)

/-- A caller joins a fetch from which none has returned. -/
theorem join (h : Retiring current callers retired nextSerial) {id : Nat} {caller : Caller κ τ ρ}
    (hid : callers.lookup id = some caller) (address serial : Nat)
    (hretired : serial ∉ retired) :
    Retiring current
      (callers.insert id { caller with phase := .joined address, joined := some serial })
      retired nextSerial := by
  refine h.set_caller id (by simp [CallerPhase.settled]) (h.barred id caller hid) ?_
  rintro _ ⟨⟩ hbarred
  exact hretired (h.barred id caller hid serial hbarred)

/-- A caller that has settled returns. -/
theorem retire (h : Retiring current callers retired nextSerial) {id : Nat} {caller : Caller κ τ ρ}
    (hid : callers.lookup id = some caller) (hsettled : caller.phase.settled)
    (hjoined_lt : ∀ serial, caller.joined = some serial → serial < nextSerial) :
    Retiring current callers (caller.joined.toList ++ retired) nextSerial := by
  refine { h with retired_lt := ?_, retired_gone := ?_, barred := ?_ }
  · intro serial hserial
    simp only [List.mem_append, Option.mem_toList] at hserial
    rcases hserial with hjoined | hretired
    · exact hjoined_lt serial hjoined
    · exact h.retired_lt serial hretired
  · intro serial hserial key
    simp only [List.mem_append, Option.mem_toList] at hserial
    rcases hserial with hjoined | hretired
    · exact h.settled id caller serial key hid hjoined hsettled
    · exact h.retired_gone serial hretired key
  · intro other found hother serial hbarred
    exact List.mem_append_right _ (h.barred other found hother serial hbarred)

end Retiring

namespace FetchState

variable [DecidableEq κ] [DecidableEq τ] {state : FetchState κ τ ρ}

/-! ## Registrations over time -/

/-- The current fetch of a key is the registered one. -/
theorem current_eq_some {key : κ × τ} {serial : Nat} :
    state.current key = some serial ↔ ∃ address fetch, state.registry.lookup key = some address ∧
      state.heap.lookup address = some fetch ∧ fetch.serial = serial := by
  simp [current, Option.bind_eq_some_iff]

/-- A fetch keeps its serial number. -/
theorem current_update (state next : FetchState κ τ ρ) {address : Nat}
    {fetch : PendingFetch κ τ ρ} (changed : PendingFetch κ τ ρ)
    (hregistry : next.registry = state.registry)
    (hheap : next.heap = state.heap.insert address changed)
    (hfetch : state.heap.lookup address = some fetch) (hserial : changed.serial = fetch.serial)
    (key : κ × τ) : next.current key = state.current key := by
  rw [current, current, hregistry, hheap]
  cases state.registry.lookup key with
  | none => rfl
  | some other =>
      simp only [Option.bind_some, FiniteMap.lookup_insert_eq]
      split
      next heq =>
        subst heq
        simp [hfetch, hserial]
      next => rfl

/-- Withdrawing registers nothing. -/
theorem registry_withdraw {address other : Nat} {fetch : PendingFetch κ τ ρ} {key : κ × τ}
    (hregistered : (state.withdraw address fetch).registry.lookup key = some other) :
    state.registry.lookup key = some other := by
  unfold withdraw at hregistered
  split at hregistered
  next => exact (FiniteMap.lookup_erase_eq_some.mp hregistered).2
  next => exact hregistered

/-- A withdrawal registers nothing. -/
theorem current_withdraw {address : Nat} {fetch : PendingFetch κ τ ρ} {key : κ × τ} {serial : Nat}
    (hcurrent : (state.withdraw address fetch).current key = some serial) :
    state.current key = some serial := by
  obtain ⟨other, found, hregistered, hfound, hserial⟩ := current_eq_some.mp hcurrent
  rw [withdraw_heap] at hfound
  exact current_eq_some.mpr ⟨other, found, registry_withdraw hregistered, hfound, hserial⟩

/-- A withdrawn fetch is not registered under any key. -/
theorem current_withdraw_ne (h : state.Owned) {address : Nat} {fetch : PendingFetch κ τ ρ}
    (hfetch : state.heap.lookup address = some fetch) (key : κ × τ) :
    (state.withdraw address fetch).current key ≠ some fetch.serial := by
  intro hcurrent
  obtain ⟨other, found, hregistered, hfound, hserial⟩ := current_eq_some.mp hcurrent
  rw [withdraw_heap] at hfound
  cases h.allocated.serial_inj _ _ _ _ hfound hfetch hserial
  obtain ⟨_, hlookup, hkey, -⟩ := h.allocated.registered _ _ (registry_withdraw hregistered)
  cases hfetch.symm.trans hlookup
  rw [← hkey] at hregistered
  exact withdraw_unregistered state _ fetch hregistered

/-- Withdrawing keeps the registrations of all other fetches. -/
theorem current_withdraw_of_ne {address : Nat} {fetch : PendingFetch κ τ ρ}
    (hfetch : state.heap.lookup address = some fetch) {key : κ × τ} {serial : Nat}
    (hcurrent : state.current key = some serial) (hne : serial ≠ fetch.serial) :
    (state.withdraw address fetch).current key = some serial := by
  obtain ⟨other, found, hregistered, hfound, hserial⟩ := current_eq_some.mp hcurrent
  refine current_eq_some.mpr ⟨other, found, ?_, by rw [withdraw_heap, hfound], hserial⟩
  unfold withdraw
  split
  next hown =>
    simp only [FiniteMap.lookup_erase_eq]
    split
    next heq =>
      subst heq
      cases hown.symm.trans hregistered
      cases hfetch.symm.trans hfound
      exact absurd hserial.symm hne
    next => exact hregistered
  next => exact hregistered

/-- `Drop` unregisters what it withdraws. -/
theorem current_drop {id address : Nat} {caller : Caller κ τ ρ} {fetch : PendingFetch κ τ ρ}
    (hfetch : state.heap.lookup address = some fetch) (key : κ × τ) :
    (((state.withdraw address fetch).setFetch address { fetch with dropped := true }).setCaller id
      caller).current key = (state.withdraw address fetch).current key := by
  have hkept : (state.withdraw address fetch).heap.lookup address = some fetch := by
    rw [withdraw_heap, hfetch]
  refine current_update _ _ { fetch with dropped := true } ?_ ?_ hkept ?_ key
  all_goals rfl

/-- The registrations after an allocation. -/
theorem current_allocate (h : state.Owned) {id address : Nat} {caller : Caller κ τ ρ}
    (hfree : state.heap.lookup address = none) (key : κ × τ) :
    current { state.joinAt id caller address (.new caller.key state.nextSerial) with
      registry := state.registry.insert caller.key address
      nextSerial := state.nextSerial + 1 } key =
      if key = caller.key then some state.nextSerial else state.current key := by
  simp only [current, joinAt, setFetch, setCaller, FiniteMap.lookup_insert_eq]
  split
  next => simp [PendingFetch.new]
  next =>
    cases hregistered : state.registry.lookup key with
    | none => rfl
    | some other =>
        obtain ⟨found, hfound, -⟩ := h.allocated.registered key other hregistered
        have hne : other ≠ address := by
          rintro rfl
          rw [hfree] at hfound
          cases hfound
        simp [hne]

/-- An action registers the next serial number or none. -/
theorem Effect.registers (howned : state.Owned) {action : FetchAction κ τ ρ}
    {next : FetchState κ τ ρ} (heffect : Effect state action next) :
    (next.nextSerial = state.nextSerial ∧
      ∀ key serial, next.current key = some serial → state.current key = some serial) ∨
    (next.nextSerial = state.nextSerial + 1 ∧ ∀ key serial, next.current key = some serial →
      state.current key = some serial ∨ serial = state.nextSerial) := by
  have hupdate := @current_update _ _ _ _ _ state next
  cases heffect with
  | idle => exact .inl ⟨rfl, fun _ _ h => h⟩
  | start => exact .inl ⟨rfl, fun _ _ h => h⟩
  | rephase => exact .inl ⟨rfl, fun _ _ h => h⟩
  | share _ _ _ hfetch _ =>
      exact .inl ⟨rfl, fun key _ h => (hupdate _ rfl rfl hfetch rfl key).symm.trans h⟩
  | allocate _ _ hfree _ =>
      refine .inr ⟨rfl, fun key serial h => ?_⟩
      rw [current_allocate howned hfree] at h
      grind
  | clone => exact .inl ⟨rfl, fun _ _ h => h⟩
  | initialise _ _ hfetch _ =>
      exact .inl ⟨rfl, fun key _ h => (hupdate _ rfl rfl hfetch rfl key).symm.trans h⟩
  | resolve => exact .inl ⟨rfl, fun _ _ h => h⟩
  | callback hfetch _ =>
      exact .inl ⟨rfl, fun key _ h => (hupdate _ rfl rfl hfetch rfl key).symm.trans h⟩
  | finish hfetch _ _ =>
      exact .inl ⟨rfl, fun key _ h => (hupdate _ rfl rfl hfetch rfl key).symm.trans h⟩
  | remove => exact .inl ⟨withdraw_next_serial _ _ _, fun _ _ h => current_withdraw h⟩
  | release _ _ hfetch =>
      exact .inl ⟨rfl, fun key _ h => (hupdate _ rfl rfl hfetch rfl key).symm.trans h⟩
  | drop _ _ hfetch =>
      exact .inl ⟨withdraw_next_serial _ _ _, fun key _ h =>
        current_withdraw ((current_drop hfetch key).symm.trans h)⟩
  | report => exact .inl ⟨rfl, fun _ _ h => h⟩
  | free =>
      refine .inl ⟨rfl, fun key serial h => ?_⟩
      obtain ⟨other, found, hregistered, hfound, hserial⟩ := current_eq_some.mp h
      simp only [FiniteMap.lookup_erase_eq] at hfound
      exact current_eq_some.mpr ⟨other, found, hregistered, by grind, hserial⟩

/-- An action that changes the phase of a caller only settles it without a fetch. -/
theorem PhaseStep.settled {before after : CallerPhase ρ} (h : PhaseStep before after)
    (hsettled : after.settled) : before = .started := by
  cases h <;> simp_all [CallerPhase.settled]

/-- Every effect keeps retired fetches out of the registry. -/
theorem Effect.retiring (howned : state.Owned) (hrecorded : state.Recorded)
    (h : Retiring state.current state.callers state.retired state.nextSerial)
    {action : FetchAction κ τ ρ} {next : FetchState κ τ ρ} (heffect : Effect state action next) :
    Retiring next.current next.callers next.retired next.nextSerial := by
  have hbase : Retiring next.current state.callers state.retired next.nextSerial := by
    rcases heffect.registers howned with ⟨hserial, hcurrent⟩ | ⟨hserial, hcurrent⟩
    · rw [hserial]
      exact h.mono hcurrent
    · rw [hserial]
      exact h.allocate hrecorded.shares.lt hcurrent
  cases heffect with
  | idle => exact h
  | @start id key hid => exact hbase.set_caller id nofun (fun _ hserial => hserial) nofun
  | @rephase id _ caller phase hid hphase =>
      refine hbase.rephase hid fun serial key hjoined hsettled => ?_
      rw [hrecorded.unjoined id caller hid (.inl (hphase.settled hsettled))] at hjoined
      cases hjoined
  | @share id _ address caller fetch hid hphase hregistered hfetch hstrong =>
      have hcurrent : state.current caller.key = some fetch.serial :=
        current_eq_some.mpr ⟨address, fetch, hregistered, hfetch, rfl⟩
      exact hbase.join hid address fetch.serial fun hserial =>
        h.retired_gone fetch.serial hserial caller.key hcurrent
  | @allocate id fresh caller hid hphase hfree hstale =>
      exact hbase.join hid fresh state.nextSerial fun hserial =>
        Nat.lt_irrefl _ (h.retired_lt _ hserial)
  | clone hid => exact hbase.rephase hid (by simp [CallerPhase.settled])
  | initialise hid => exact hbase.rephase hid (by simp [CallerPhase.settled])
  | resolve hid => exact hbase.rephase hid (by simp [CallerPhase.settled])
  | callback => exact hbase
  | finish => exact hbase
  | @remove id address caller fetch result hid hphase hfetch =>
      have haddress : caller.phase.address = some address := by rw [hphase]; rfl
      obtain ⟨_, hfound, -, -, hserial⟩ := howned.fetch_of_address hid haddress
      cases hfetch.symm.trans hfound
      simp only [setCaller, withdraw_callers, withdraw_retired] at hbase ⊢
      refine hbase.rephase hid fun serial key hjoined _ => ?_
      cases hserial.symm.trans hjoined
      exact current_withdraw_ne howned hfetch key
  | @release id address _ caller fetch result hid hphase hfetch =>
      refine hbase.rephase hid fun serial key hjoined hsettled => ?_
      refine hbase.settled id caller serial key hid hjoined ?_
      rw [hphase, CallerPhase.settled_releasing]
      split at hsettled
      · rwa [CallerPhase.settled_dropping] at hsettled
      · rwa [CallerPhase.settled_after_release] at hsettled
  | @drop id address caller fetch result hid hphase hfetch =>
      simp only [setCaller, setFetch, withdraw_callers, withdraw_retired] at hbase ⊢
      refine hbase.rephase hid fun serial key hjoined hsettled => ?_
      refine hbase.settled id caller serial key hid hjoined ?_
      rwa [hphase, CallerPhase.settled_dropping, ← CallerPhase.settled_after_release]
  | @report id _ caller result hid hphase =>
      have hsettled : caller.phase.settled := by rw [hphase]; rfl
      have hretired :=
        hbase.retire hid hsettled fun serial => hrecorded.shares.lt id caller serial hid
      exact hretired.rephase hid fun serial key hjoined _ =>
        hbase.settled id caller serial key hid hjoined hsettled
  | free => exact hbase

/-! ## Single flight -/

/-- An action ends the registration of a fetch only as a caller of that fetch, in
`remove_from_registry` or `Drop`, or by replacing a fetch whose owners are gone. -/
def Keeps (state : FetchState κ τ ρ) (action : FetchAction κ τ ρ) (next : FetchState κ τ ρ) :
    Prop :=
  ∀ key serial, state.current key = some serial →
    next.current key = some serial ∨
    (∃ id caller, state.callers.lookup id = some caller ∧ caller.joined = some serial ∧
      (action = .move id .removeFromRegistry ∨ action = .move id .drop)) ∨
    (∃ id fresh address fetch, action = .move id (.join fresh) ∧
      state.registry.lookup key = some address ∧ state.heap.lookup address = some fetch ∧
      fetch.strong = 0)

/-- Withdrawing a caller's own fetch keeps the registrations of the others. -/
theorem current_withdraw_or (howned : state.Owned) {id address : Nat} {caller : Caller κ τ ρ}
    {fetch : PendingFetch κ τ ρ} (hid : state.callers.lookup id = some caller)
    (haddress : caller.phase.address = some address)
    (hfetch : state.heap.lookup address = some fetch) {key : κ × τ} {serial : Nat}
    (hcurrent : state.current key = some serial) :
    (state.withdraw address fetch).current key = some serial ∨ caller.joined = some serial := by
  obtain ⟨_, hfound, -, -, hjoined⟩ := howned.fetch_of_address hid haddress
  cases hfetch.symm.trans hfound
  by_cases hne : serial = fetch.serial
  · exact .inr (hne ▸ hjoined)
  · exact .inl (current_withdraw_of_ne hfetch hcurrent hne)

/-- Every effect keeps the registrations of other fetches. -/
theorem Effect.keeps (howned : state.Owned) {action : FetchAction κ τ ρ} {next : FetchState κ τ ρ}
    (heffect : Effect state action next) : state.Keeps action next := by
  intro key serial hcurrent
  have hupdate := @current_update _ _ _ _ _ state next
  cases heffect with
  | idle | start | rephase | clone | resolve | report => exact .inl hcurrent
  | share _ _ _ hfetch _ => exact .inl ((hupdate _ rfl rfl hfetch rfl key).trans hcurrent)
  | initialise _ _ hfetch _ => exact .inl ((hupdate _ rfl rfl hfetch rfl key).trans hcurrent)
  | callback hfetch _ => exact .inl ((hupdate _ rfl rfl hfetch rfl key).trans hcurrent)
  | finish hfetch _ _ => exact .inl ((hupdate _ rfl rfl hfetch rfl key).trans hcurrent)
  | release _ _ hfetch => exact .inl ((hupdate _ rfl rfl hfetch rfl key).trans hcurrent)
  | @allocate id fresh caller hid hphase hfree hstale =>
      by_cases hkey : key = caller.key
      · obtain ⟨address, fetch, hregistered, hfetch, -⟩ := current_eq_some.mp hcurrent
        exact .inr (.inr ⟨id, fresh, address, fetch, rfl, hregistered, hfetch,
          hstale address fetch (hkey ▸ hregistered) hfetch⟩)
      · left
        rw [current_allocate howned hfree, if_neg hkey, hcurrent]
  | @remove id address caller fetch result hid hphase hfetch =>
      have haddress : caller.phase.address = some address := by rw [hphase]; rfl
      rcases current_withdraw_or howned hid haddress hfetch hcurrent with hkept | hjoined
      · exact .inl hkept
      · exact .inr (.inl ⟨id, caller, hid, hjoined, .inl rfl⟩)
  | @drop id address caller fetch result hid hphase hfetch =>
      have haddress : caller.phase.address = some address := by rw [hphase]; rfl
      rcases current_withdraw_or howned hid haddress hfetch hcurrent with hkept | hjoined
      · exact .inl ((current_drop hfetch key).trans hkept)
      · exact .inr (.inl ⟨id, caller, hid, hjoined, .inr rfl⟩)
  | @free address fetch hfetch hdropped =>
      left
      obtain ⟨other, found, hregistered, hfound, hserial⟩ := current_eq_some.mp hcurrent
      obtain ⟨_, hlive, -, hundropped⟩ := howned.allocated.registered key other hregistered
      have hne : other ≠ address := by
        rintro rfl
        cases hlive.symm.trans hfetch
        simp [hundropped] at hdropped
      refine current_eq_some.mpr ⟨other, found, hregistered, ?_, hserial⟩
      rw [FiniteMap.lookup_erase_eq, if_neg hne, hfound]

/-- What the callers of `get_or_fetch` rely on. -/
structure SingleFlight (state : FetchState κ τ ρ) : Prop where
  /-- A registration is of an allocated fetch of its key and error type. -/
  registered : ∀ key address, state.registry.lookup key = some address →
    ∃ fetch, state.heap.lookup address = some fetch ∧ fetch.key = key
  /-- An incomplete fetch with an owner is the registered one, so its key has no other. -/
  incomplete : ∀ address fetch, state.heap.lookup address = some fetch → 0 < fetch.strong →
    fetch.complete = false → state.registry.lookup fetch.key = some address
  /-- A fetch has one initialiser, which is one of its callers. -/
  initialisers_nodup : (state.initialisers.map Prod.fst).Nodup
  initialiser_joined : ∀ serial id, (serial, id) ∈ state.initialisers →
    ∃ caller, state.callers.lookup id = some caller ∧ caller.joined = some serial
  /-- A fetch starts one callback at most, its initialiser's. -/
  callbacks_nodup : (state.callbacks.map Prod.fst).Nodup
  callback_initialiser : ∀ entry ∈ state.callbacks, entry ∈ state.initialisers
  /-- A fetch has one result, and the callers that joined it and return receive it. -/
  completions_nodup : (state.completions.map Prod.fst).Nodup
  result : ∀ id caller serial result, state.callers.lookup id = some caller →
    caller.joined = some serial → caller.phase = .returned result →
    (serial, result) ∈ state.completions
  /-- Callers with different keys or error types do not share a fetch. -/
  same_key : ∀ id other caller found serial, state.callers.lookup id = some caller →
    state.callers.lookup other = some found → caller.joined = some serial →
    found.joined = some serial → caller.key = found.key
  /-- No caller joins a fetch from which a caller had returned before it started. -/
  unbarred : ∀ id caller serial, state.callers.lookup id = some caller →
    caller.joined = some serial → serial ∉ caller.barred
  /-- A registration has a caller of its key. -/
  attended : ∀ key address, state.registry.lookup key = some address →
    ∃ id caller, state.callers.lookup id = some caller ∧ caller.key = key ∧ caller.phase.active

/-- The invariant of every run. -/
structure Sound (state : FetchState κ τ ρ) : Prop where
  owned : state.Owned
  recorded : state.Recorded
  retiring : Retiring state.current state.callers state.retired state.nextSerial

/-- The initial state is sound. -/
theorem sound_init : (init : FetchState κ τ ρ).Sound where
  owned := owned_init
  recorded := recorded_init
  retiring := by constructor <;> simp [init, current]

/-- Every step keeps the state sound. -/
theorem step_sound (h : state.Sound) (action : FetchAction κ τ ρ) :
    Outcome (fun _ => False) Sound (state.step action) :=
  (state.step_steps h.owned action).mono fun _ heffect =>
    ⟨heffect.owned h.owned, heffect.recorded h.recorded h.owned,
      heffect.retiring h.owned h.recorded h.retiring⟩

/-- A sound state has at most one flight per key. -/
theorem Sound.single_flight (h : state.Sound) : state.SingleFlight where
  registered key address hregistered := by
    obtain ⟨fetch, hfetch, hkey, -⟩ := h.owned.allocated.registered key address hregistered
    exact ⟨fetch, hfetch, hkey⟩
  incomplete := h.owned.incomplete
  initialisers_nodup := h.recorded.initialisers.nodup
  initialiser_joined := h.recorded.joiner
  callbacks_nodup := h.recorded.callbacks.nodup
  callback_initialiser := h.recorded.callback_of
  completions_nodup := h.recorded.completions.nodup
  result id caller serial result hid hjoined hphase :=
    h.recorded.told id caller serial result hid hjoined (by rw [hphase]; rfl)
  same_key := h.recorded.shares.same_key
  unbarred := h.retiring.unbarred
  attended key address hregistered := by
    obtain ⟨fetch, hfetch, hkey, hdropped⟩ := h.owned.allocated.registered key address hregistered
    obtain ⟨id, caller, hid, haddress⟩ := h.owned.exists_caller hfetch hdropped
    obtain ⟨_, hfound, -, hcaller, -⟩ := h.owned.fetch_of_address hid haddress
    cases hfetch.symm.trans hfound
    exact ⟨id, caller, hid, hcaller.symm.trans hkey, CallerPhase.active_of_address haddress⟩

/-- In every interleaving of any number of callers, no step panics, the callers share fetches as
`SingleFlight` says, and no action ends the registration of a fetch that is not its own. -/
theorem run_single_flight (actions : List (FetchAction κ τ ρ)) :
    ∃ state, run step (init : FetchState κ τ ρ) actions = .ok state ∧ state.SingleFlight ∧
      ∀ action, ∃ next, state.step action = .ok next ∧ state.Keeps action next := by
  have houtcome : Outcome (fun _ => False) Sound (run step (init : FetchState κ τ ρ) actions) :=
    run_outcome (fun _ => True) (fun _ action h _ => step_sound h action) sound_init
      fun _ _ => trivial
  obtain ⟨state, hrun, hsound⟩ := houtcome.exists_ok
  refine ⟨state, hrun, hsound.single_flight, fun action => ?_⟩
  obtain ⟨next, hnext, heffect⟩ := (state.step_steps hsound.owned action).exists_ok
  exact ⟨next, hnext, heffect.keeps hsound.owned⟩

end FetchState

end Feuer.Fetch
