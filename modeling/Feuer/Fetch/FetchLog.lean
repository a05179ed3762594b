import Feuer.Fetch.Effects

/-!
# One initialiser, one callback, one result

The history logs a fetch by its serial number when its future is initialised, when the callback is
invoked, and when it completes. `Logged` says that a fetch is logged at most once, and only after it
reached the stage. `Recorded` says it for the three logs, and that callers see logged results.
-/

namespace Feuer.Fetch

open Lib

variable {κ τ ρ α : Type}

/-- A log has one entry for a fetch at most, and only if the fetch has reached a stage. -/
structure Logged (heap : FiniteMap Nat (PendingFetch κ τ ρ)) (nextSerial : Nat)
    (log : List (Nat × α)) (Reached : PendingFetch κ τ ρ → Prop) : Prop where
  nodup : (log.map Prod.fst).Nodup
  lt : ∀ serial ∈ log.map Prod.fst, serial < nextSerial
  reached : ∀ address fetch, heap.lookup address = some fetch → fetch.serial ∈ log.map Prod.fst →
    Reached fetch

/-- Every fetch of the second heap has the key, serial number and future of one of the first. -/
def Futures (heap changed : FiniteMap Nat (PendingFetch κ τ ρ)) : Prop :=
  ∀ address fetch', changed.lookup address = some fetch' → ∃ fetch,
    heap.lookup address = some fetch ∧ fetch'.key = fetch.key ∧ fetch'.serial = fetch.serial ∧
      fetch'.result = fetch.result

/-- A change of the counts leaves the futures as they are. -/
theorem Futures.insert {heap : FiniteMap Nat (PendingFetch κ τ ρ)} {address : Nat}
    {fetch fetch' : PendingFetch κ τ ρ} (hfetch : heap.lookup address = some fetch)
    (hkey : fetch'.key = fetch.key) (hserial : fetch'.serial = fetch.serial)
    (hresult : fetch'.result = fetch.result) : Futures heap (heap.insert address fetch') := by
  intro other found hfound
  rw [FiniteMap.lookup_insert_eq] at hfound
  grind

/-- A freed fetch has no future. -/
theorem Futures.erase (heap : FiniteMap Nat (PendingFetch κ τ ρ)) (address : Nat) :
    Futures heap (heap.erase address) := by
  intro other found hfound
  rw [FiniteMap.lookup_erase_eq] at hfound
  grind

namespace Logged

variable {heap changed : FiniteMap Nat (PendingFetch κ τ ρ)} {nextSerial : Nat}
  {log : List (Nat × α)} {Reached : PendingFetch κ τ ρ → Prop}

/-- The log speaks about the futures only. -/
theorem transfer (h : Logged heap nextSerial log Reached) (hfutures : Futures heap changed)
    (hreached : ∀ fetch fetch' : PendingFetch κ τ ρ, fetch'.result = fetch.result → Reached fetch →
      Reached fetch') :
    Logged changed nextSerial log Reached := by
  refine ⟨h.nodup, h.lt, fun address fetch' hfetch' hlogged => ?_⟩
  obtain ⟨fetch, hfetch, -, hserial, hresult⟩ := hfutures address fetch' hfetch'
  exact hreached fetch fetch' hresult (h.reached address fetch hfetch (hserial ▸ hlogged))

/-- A future makes progress past the stages that it has reached. -/
theorem update (h : Logged heap nextSerial log Reached) {address : Nat}
    {fetch fetch' : PendingFetch κ τ ρ} (hfetch : heap.lookup address = some fetch)
    (hserial : fetch'.serial = fetch.serial) (hreached : Reached fetch → Reached fetch') :
    Logged (heap.insert address fetch') nextSerial log Reached := by
  refine ⟨h.nodup, h.lt, fun other found hfound hlogged => ?_⟩
  have := h.reached
  rw [FiniteMap.lookup_insert_eq] at hfound
  grind

/-- A fetch is logged when it reaches the stage. -/
theorem log_reached [DecidableEq κ] [DecidableEq τ] {registry : FiniteMap (κ × τ) Nat}
    (h : Logged heap nextSerial log Reached) (hallocated : Allocated registry heap nextSerial)
    {address : Nat} {fetch : PendingFetch κ τ ρ} (hfetch : heap.lookup address = some fetch)
    (future : SharedFuture ρ) (hbefore : ¬ Reached fetch)
    (hafter : Reached { fetch with result := some future }) (entry : α) :
    Logged (heap.insert address { fetch with result := some future }) nextSerial
      ((fetch.serial, entry) :: log) Reached := by
  have hreached := h.reached
  constructor
  · rw [List.map_cons, List.nodup_cons]
    exact ⟨fun hlogged => hbefore (hreached address fetch hfetch hlogged), h.nodup⟩
  · intro serial hserial
    rw [List.map_cons, List.mem_cons] at hserial
    rcases hserial with rfl | hserial
    · exact hallocated.serial_lt address fetch hfetch
    · exact h.lt serial hserial
  · intro other found hfound hlogged
    have hinj := hallocated.serial_inj
    rw [FiniteMap.lookup_insert_eq] at hfound
    rw [List.map_cons, List.mem_cons] at hlogged
    grind

/-- A new fetch is not logged. -/
theorem allocate (h : Logged heap nextSerial log Reached) (address : Nat)
    {fetch : PendingFetch κ τ ρ} (hserial : fetch.serial = nextSerial) :
    Logged (heap.insert address fetch) (nextSerial + 1) log Reached := by
  have hlt := h.lt
  refine ⟨h.nodup, fun serial hlogged => Nat.lt_succ_of_lt (hlt serial hlogged), ?_⟩
  intro other found hfound hlogged
  have := h.reached
  rw [FiniteMap.lookup_insert_eq] at hfound
  grind

end Logged

/-- Callers that joined one fetch have one key and error type. -/
structure SharesKey (heap : FiniteMap Nat (PendingFetch κ τ ρ))
    (callers : FiniteMap Nat (Caller κ τ ρ)) (nextSerial : Nat) : Prop where
  lt : ∀ id caller serial, callers.lookup id = some caller → caller.joined = some serial →
    serial < nextSerial
  fetch_key : ∀ address fetch id caller, heap.lookup address = some fetch →
    callers.lookup id = some caller → caller.joined = some fetch.serial → caller.key = fetch.key
  same_key : ∀ id other caller found serial, callers.lookup id = some caller →
    callers.lookup other = some found → caller.joined = some serial → found.joined = some serial →
    caller.key = found.key

namespace SharesKey

variable {heap changed : FiniteMap Nat (PendingFetch κ τ ρ)}
  {callers : FiniteMap Nat (Caller κ τ ρ)}
  {nextSerial : Nat}

/-- Who shares a fetch is said by keys and serials only. -/
theorem futures (h : SharesKey heap callers nextSerial) (hfutures : Futures heap changed) :
    SharesKey changed callers nextSerial := by
  refine { h with fetch_key := ?_ }
  intro address fetch' id caller hfetch' hid hjoined
  obtain ⟨fetch, hfetch, hkey, hserial, -⟩ := hfutures address fetch' hfetch'
  rw [hkey]
  exact h.fetch_key address fetch id caller hfetch hid (hserial ▸ hjoined)

/-- A future makes progress. -/
theorem set_result (h : SharesKey heap callers nextSerial) {address : Nat}
    {fetch : PendingFetch κ τ ρ} (hfetch : heap.lookup address = some fetch)
    (result : Option (SharedFuture ρ)) :
    SharesKey (heap.insert address { fetch with result := result }) callers nextSerial := by
  have := h.fetch_key
  refine { h with fetch_key := ?_ }
  simp only [FiniteMap.lookup_insert_eq]
  grind

/-- A caller that has not joined a fetch, or keeps the one it joined, changes. -/
theorem set_caller (h : SharesKey heap callers nextSerial) {id : Nat} {caller : Caller κ τ ρ}
    (hcaller : ∀ serial, caller.joined = some serial → ∃ found, callers.lookup id = some found ∧
      found.joined = some serial ∧ found.key = caller.key) :
    SharesKey heap (callers.insert id caller) nextSerial := by
  obtain ⟨hlt, hfetch, hsame⟩ := h
  constructor
  all_goals simp only [FiniteMap.lookup_insert_eq]
  all_goals grind

/-- A caller joins an allocated fetch of its key. -/
theorem join [DecidableEq κ] [DecidableEq τ] {registry : FiniteMap (κ × τ) Nat}
    (h : SharesKey heap callers nextSerial) (hallocated : Allocated registry heap nextSerial)
    {id address : Nat} {caller : Caller κ τ ρ} {fetch : PendingFetch κ τ ρ}
    (hfetch : heap.lookup address = some fetch) (hkey : fetch.key = caller.key)
    (hjoined : caller.joined = some fetch.serial) :
    SharesKey heap (callers.insert id caller) nextSerial := by
  obtain ⟨hlt, hfetch_key, hsame⟩ := h
  have hserial_lt := hallocated.serial_lt address fetch hfetch
  have hinj := hallocated.serial_inj
  constructor
  all_goals simp only [FiniteMap.lookup_insert_eq]
  all_goals grind

/-- Nobody has joined a new fetch yet. -/
theorem allocate (h : SharesKey heap callers nextSerial) (address : Nat)
    {fetch : PendingFetch κ τ ρ} (hserial : fetch.serial = nextSerial) :
    SharesKey (heap.insert address fetch) callers (nextSerial + 1) := by
  obtain ⟨hlt, hfetch_key, hsame⟩ := h
  refine ⟨fun id caller serial hid hjoined => Nat.lt_succ_of_lt (hlt id caller serial hid hjoined),
    ?_, hsame⟩
  simp only [FiniteMap.lookup_insert_eq]
  grind

end SharesKey

/-- The result stays when the reference is gone. -/
theorem CallerPhase.outcome_after_release (result : Option ρ) :
    (CallerPhase.afterRelease result).outcome = result := by
  cases result <;> rfl

/-- A caller that has released does not start again. -/
theorem CallerPhase.after_release_ne (result : Option ρ) :
    ¬ (CallerPhase.afterRelease result = .started ∨ CallerPhase.afterRelease result = .missed) := by
  cases result <;> simp [CallerPhase.afterRelease]

/-- The future has been supplied. -/
def PendingFetch.Initialised (fetch : PendingFetch κ τ ρ) : Prop := fetch.result.isSome

/-- The future has left the lookup. -/
def PendingFetch.LookedUp (fetch : PendingFetch κ τ ρ) : Prop :=
  ∃ future, fetch.result = some future ∧ future.stage ≠ .lookup

/-- The future has its result. -/
def PendingFetch.Complete (fetch : PendingFetch κ τ ρ) : Prop := fetch.complete

namespace FetchState

/-- The logs are right, and callers have seen logged results only. -/
structure Recorded (state : FetchState κ τ ρ) : Prop where
  initialisers : Logged state.heap state.nextSerial state.initialisers PendingFetch.Initialised
  callbacks : Logged state.heap state.nextSerial state.callbacks PendingFetch.LookedUp
  completions : Logged state.heap state.nextSerial state.completions PendingFetch.Complete
  initialiser_of : ∀ address fetch future, state.heap.lookup address = some fetch →
    fetch.result = some future → (fetch.serial, future.initialiser) ∈ state.initialisers
  result_of : ∀ address fetch initialiser result, state.heap.lookup address = some fetch →
    fetch.result = some ⟨initialiser, .done result⟩ → (fetch.serial, result) ∈ state.completions
  callback_of : ∀ entry ∈ state.callbacks, entry ∈ state.initialisers
  joiner : ∀ serial id, (serial, id) ∈ state.initialisers →
    ∃ caller, state.callers.lookup id = some caller ∧ caller.joined = some serial
  told : ∀ id caller serial result, state.callers.lookup id = some caller →
    caller.joined = some serial → caller.phase.outcome = some result →
    (serial, result) ∈ state.completions
  unjoined : ∀ id caller, state.callers.lookup id = some caller →
    caller.phase = .started ∨ caller.phase = .missed → caller.joined = none
  shares : SharesKey state.heap state.callers state.nextSerial

variable {state : FetchState κ τ ρ}

/-- Nothing is recorded at the start. -/
theorem recorded_init : (init : FetchState κ τ ρ).Recorded := by
  constructor
  case initialisers => constructor <;> simp [init]
  case callbacks => constructor <;> simp [init]
  case completions => constructor <;> simp [init]
  case shares => constructor <;> simp [init]
  all_goals simp [init]

namespace Recorded

/-- Counters and marks of the fetches change. -/
theorem futures (h : state.Recorded) {heap : FiniteMap Nat (PendingFetch κ τ ρ)}
    (hfutures : Futures state.heap heap) : Recorded { state with heap := heap } where
  initialisers := h.initialisers.transfer hfutures fun _ _ hresult hsome => by
    rw [PendingFetch.Initialised, hresult]
    exact hsome
  callbacks := h.callbacks.transfer hfutures fun _ _ hresult hlooked => by
    rw [PendingFetch.LookedUp, hresult]
    exact hlooked
  completions := h.completions.transfer hfutures fun _ _ hresult hcomplete => by
    rw [PendingFetch.Complete, PendingFetch.complete, hresult]
    exact hcomplete
  initialiser_of := by
    intro address fetch' future hfetch' hresult
    obtain ⟨fetch, hfetch, -, hserial, hsame⟩ := hfutures address fetch' hfetch'
    rw [hserial]
    exact h.initialiser_of address fetch future hfetch (hsame ▸ hresult)
  result_of := by
    intro address fetch' initialiser result hfetch' hresult
    obtain ⟨fetch, hfetch, -, hserial, hsame⟩ := hfutures address fetch' hfetch'
    rw [hserial]
    exact h.result_of address fetch initialiser result hfetch (hsame ▸ hresult)
  callback_of := h.callback_of
  joiner := h.joiner
  told := h.told
  unjoined := h.unjoined
  shares := h.shares.futures hfutures

/-- One caller changes. -/
theorem set_caller (h : state.Recorded) {id : Nat} {changed : Caller κ τ ρ}
    (hjoined : ∀ caller serial, state.callers.lookup id = some caller →
      caller.joined = some serial → changed.joined = some serial)
    (htold : ∀ serial result, changed.joined = some serial → changed.phase.outcome = some result →
      (serial, result) ∈ state.completions)
    (hunjoined : changed.phase = .started ∨ changed.phase = .missed → changed.joined = none)
    (hshares : SharesKey state.heap (state.callers.insert id changed) state.nextSerial) :
    (state.setCaller id changed).Recorded := by
  have hcallers := FiniteMap.lookup_insert_eq state.callers id
  refine { h with joiner := ?_, told := ?_, unjoined := ?_, shares := hshares }
  · intro serial other hlogged
    obtain ⟨found, hfound, hserial⟩ := h.joiner serial other hlogged
    simp only [FetchState.setCaller, hcallers]
    split
    next heq =>
      subst heq
      exact ⟨changed, rfl, hjoined found serial hfound hserial⟩
    next => exact ⟨found, hfound, hserial⟩
  · have := h.told
    simp only [FetchState.setCaller, hcallers]
    grind
  · have := h.unjoined
    simp only [FetchState.setCaller, hcallers]
    grind

/-- A caller without a fetch joins one. -/
theorem join [DecidableEq κ] [DecidableEq τ] {registry : FiniteMap (κ × τ) Nat}
    (h : state.Recorded) (hallocated : Allocated registry state.heap state.nextSerial)
    {id address : Nat} {caller : Caller κ τ ρ} {fetch : PendingFetch κ τ ρ}
    (hid : state.callers.lookup id = some caller) (hphase : caller.phase = .missed)
    (hfetch : state.heap.lookup address = some fetch) (hkey : fetch.key = caller.key) :
    (state.setCaller id
      { caller with phase := .joined address, joined := some fetch.serial }).Recorded := by
  refine h.set_caller ?_ (by simp [CallerPhase.outcome]) (by simp)
    (h.shares.join hallocated hfetch hkey rfl)
  intro found other hfound hserial
  cases hid.symm.trans hfound
  rw [h.unjoined id caller hid (.inr hphase)] at hserial
  cases hserial

/-- A caller that keeps its fetch moves on to a phase that tells the same. -/
theorem rephase (h : state.Recorded) {id : Nat} {caller : Caller κ τ ρ} {phase : CallerPhase ρ}
    (hid : state.callers.lookup id = some caller)
    (houtcome : ∀ serial result, caller.joined = some serial → phase.outcome = some result →
      (serial, result) ∈ state.completions)
    (hunjoined : phase = .started ∨ phase = .missed → caller.joined = none) :
    (state.setCaller id { caller with phase := phase }).Recorded := by
  refine h.set_caller ?_ houtcome hunjoined
    (h.shares.set_caller fun serial hjoined => ⟨caller, hid, hjoined, rfl⟩)
  intro found serial hfound hserial
  cases hid.symm.trans hfound
  exact hserial

/-- A caller keeps the result that it has seen. -/
theorem keep (h : state.Recorded) {id : Nat} {caller : Caller κ τ ρ} {phase : CallerPhase ρ}
    (hid : state.callers.lookup id = some caller) (houtcome : phase.outcome = caller.phase.outcome)
    (hjoined : ¬ (phase = .started ∨ phase = .missed)) :
    (state.setCaller id { caller with phase := phase }).Recorded := by
  refine h.rephase hid ?_ fun hphase => absurd hphase hjoined
  intro serial result hserial hresult
  exact h.told id caller serial result hid hserial (houtcome ▸ hresult)

/-- A new fetch has no future yet. -/
theorem allocate (h : state.Recorded) (address : Nat) (fetch : PendingFetch κ τ ρ)
    (hserial : fetch.serial = state.nextSerial) (hresult : fetch.result = none) :
    Recorded { state with
      heap := state.heap.insert address fetch
      nextSerial := state.nextSerial + 1 } := by
  refine { h with
    initialisers := h.initialisers.allocate address hserial
    callbacks := h.callbacks.allocate address hserial
    completions := h.completions.allocate address hserial
    shares := h.shares.allocate address hserial
    initialiser_of := ?_
    result_of := ?_ }
  · have := h.initialiser_of
    simp only [FiniteMap.lookup_insert_eq]
    grind
  · have := h.result_of
    simp only [FiniteMap.lookup_insert_eq]
    grind

end Recorded

section Effects

variable [DecidableEq κ] [DecidableEq τ]

/-- A withdrawal is not recorded. -/
theorem Recorded.withdraw (h : state.Recorded) (address : Nat) (fetch : PendingFetch κ τ ρ) :
    (state.withdraw address fetch).Recorded := by
  unfold FetchState.withdraw
  split
  · exact { h with }
  · exact h

/-- The first caller supplies the future. -/
theorem Recorded.initialise (h : state.Recorded) (howned : state.Owned) {id address : Nat}
    {caller : Caller κ τ ρ} {fetch : PendingFetch κ τ ρ}
    (hid : state.callers.lookup id = some caller) (hjoined : caller.joined = some fetch.serial)
    (hfetch : state.heap.lookup address = some fetch) (hresult : fetch.result = none) :
    Recorded { state.setFetch address { fetch with result := some ⟨id, .lookup⟩ } with
      initialisers := (fetch.serial, id) :: state.initialisers } where
  initialisers := h.initialisers.log_reached howned.allocated hfetch _
    (by simp [PendingFetch.Initialised, hresult]) rfl id
  callbacks := h.callbacks.update hfetch rfl (by simp [PendingFetch.LookedUp, hresult])
  completions := h.completions.update hfetch rfl
    (by simp [PendingFetch.Complete, PendingFetch.complete, hresult])
  initialiser_of := by
    have := h.initialiser_of
    simp only [setFetch, FiniteMap.lookup_insert_eq]
    grind
  result_of := by
    have := h.result_of
    simp only [setFetch, FiniteMap.lookup_insert_eq]
    grind
  callback_of := fun entry hentry => List.mem_cons_of_mem _ (h.callback_of entry hentry)
  joiner := by
    have := h.joiner
    simp only [setFetch]
    grind
  told := h.told
  unjoined := h.unjoined
  shares := h.shares.set_result hfetch _

/-- The lookup misses, and the callback is invoked. -/
theorem Recorded.callback (h : state.Recorded) (howned : state.Owned) {address initialiser : Nat}
    {fetch : PendingFetch κ τ ρ} (hfetch : state.heap.lookup address = some fetch)
    (hresult : fetch.result = some ⟨initialiser, .lookup⟩) :
    Recorded { state.setFetch address { fetch with result := some ⟨initialiser, .callback⟩ } with
      callbacks := (fetch.serial, initialiser) :: state.callbacks } where
  initialisers := h.initialisers.update hfetch rfl fun _ => rfl
  callbacks := h.callbacks.log_reached howned.allocated hfetch ⟨initialiser, .callback⟩
    (by simp [PendingFetch.LookedUp, hresult]) ⟨_, rfl, nofun⟩ initialiser
  completions := h.completions.update hfetch rfl
    (by simp [PendingFetch.Complete, PendingFetch.complete, hresult])
  initialiser_of := by
    have := h.initialiser_of
    simp only [setFetch, FiniteMap.lookup_insert_eq]
    grind
  result_of := by
    have := h.result_of
    simp only [setFetch, FiniteMap.lookup_insert_eq]
    grind
  callback_of := by
    have := h.initialiser_of address fetch _ hfetch hresult
    have := h.callback_of
    simp only [setFetch]
    grind
  joiner := h.joiner
  told := h.told
  unjoined := h.unjoined
  shares := h.shares.set_result hfetch _

/-- The future completes. -/
theorem Recorded.finish (h : state.Recorded) (howned : state.Owned) {address initialiser : Nat}
    {fetch : PendingFetch κ τ ρ} {stage : FetchStage ρ} {result : ρ}
    (hfetch : state.heap.lookup address = some fetch)
    (hresult : fetch.result = some ⟨initialiser, stage⟩) (hcomplete : fetch.complete = false) :
    Recorded { state.setFetch address { fetch with result := some ⟨initialiser, .done result⟩ } with
      completions := (fetch.serial, result) :: state.completions } where
  initialisers := h.initialisers.update hfetch rfl fun _ => rfl
  callbacks := h.callbacks.update hfetch rfl fun _ => ⟨_, rfl, nofun⟩
  completions := h.completions.log_reached howned.allocated hfetch ⟨initialiser, .done result⟩
    (by simp [PendingFetch.Complete, hcomplete]) rfl result
  initialiser_of := by
    have := h.initialiser_of
    simp only [setFetch, FiniteMap.lookup_insert_eq]
    grind
  result_of := by
    have := h.result_of
    simp only [setFetch, FiniteMap.lookup_insert_eq]
    grind
  callback_of := h.callback_of
  joiner := h.joiner
  told := fun id caller serial found hid hjoined houtcome =>
    List.mem_cons_of_mem _ (h.told id caller serial found hid hjoined houtcome)
  unjoined := h.unjoined
  shares := h.shares.set_result hfetch _

/-- Every effect keeps the logs right. -/
theorem Effect.recorded (h : state.Recorded) (howned : state.Owned) {action : FetchAction κ τ ρ}
    {next : FetchState κ τ ρ} (heffect : Effect state action next) : next.Recorded := by
  have hnext := heffect.owned howned
  cases heffect with
  | idle => exact h
  | start hid => exact h.set_caller (by simp [hid]) nofun (fun _ => rfl) (h.shares.set_caller nofun)
  | @rephase id _ caller phase hid hphase =>
      refine h.rephase hid ?_ ?_
      · intro serial result hjoined houtcome
        have := h.unjoined id caller hid
        generalize caller.phase = before at hphase this
        cases hphase <;> simp_all [CallerPhase.outcome]
      · have := h.unjoined id caller hid
        generalize caller.phase = before at hphase this
        cases hphase <;> simp_all
  | @share id _ address caller fetch hid hphase hregistered hfetch hstrong =>
      have hshared : (state.setFetch address { fetch with strong := fetch.strong + 1 }).Recorded :=
        h.futures (.insert hfetch rfl rfl rfl)
      obtain ⟨_, hfound, hkey, -⟩ := howned.allocated.registered _ _ hregistered
      cases hfetch.symm.trans hfound
      exact hshared.join hnext.allocated hid hphase (Finmap.lookup_insert _) hkey
  | @allocate id fresh caller hid hphase hfree hstale =>
      have hallocated := h.allocate fresh (.new caller.key state.nextSerial) rfl rfl
      have hjoined := hallocated.join hnext.allocated hid hphase (Finmap.lookup_insert _) rfl
      exact { hjoined with }
  | clone hid hphase hfetch hresult =>
      exact h.rephase hid (by simp [CallerPhase.outcome]) (by simp)
  | @initialise id address _ caller fetch hid hphase hfetch hresult =>
      have haddress : caller.phase.address = some address := by rw [hphase]; rfl
      obtain ⟨_, hfound, -, -, hjoined⟩ := howned.fetch_of_address hid haddress
      cases hfetch.symm.trans hfound
      have hinitialised := h.initialise howned hid hjoined hfetch hresult
      exact hinitialised.rephase hid (by simp [CallerPhase.outcome]) (by simp)
  | @resolve id address initialiser _ caller fetch result hid hphase hfetch hresult =>
      have haddress : caller.phase.address = some address := by rw [hphase]; rfl
      obtain ⟨_, hfound, -, -, hjoined⟩ := howned.fetch_of_address hid haddress
      cases hfetch.symm.trans hfound
      refine h.rephase hid ?_ (by simp)
      intro serial found hserial houtcome
      cases hjoined.symm.trans hserial
      cases houtcome
      exact h.result_of address fetch initialiser result hfetch hresult
  | callback hfetch hresult => exact h.callback howned hfetch hresult
  | finish hfetch hresult hcomplete => exact h.finish howned hfetch hresult hcomplete
  | @remove id address caller fetch result hid hphase hfetch =>
      have hid' : (state.withdraw address fetch).callers.lookup id = some caller := by
        rw [withdraw_callers, hid]
      exact (h.withdraw address fetch).keep hid' (by rw [hphase]; rfl) (by simp)
  | @release id address _ caller fetch result hid hphase hfetch =>
      have hreleased :
        (state.setFetch address { fetch with strong := fetch.strong - 1 }).Recorded :=
        h.futures (.insert hfetch rfl rfl rfl)
      refine hreleased.keep hid ?_ ?_
      · rw [hphase]
        split
        · rfl
        · exact CallerPhase.outcome_after_release result
      · split
        · simp
        · exact CallerPhase.after_release_ne result
  | @drop id address caller fetch result hid hphase hfetch =>
      have hid' : (state.withdraw address fetch).callers.lookup id = some caller := by
        rw [withdraw_callers, hid]
      have hfetch' : (state.withdraw address fetch).heap.lookup address = some fetch := by
        rw [withdraw_heap, hfetch]
      have hdropped : ((state.withdraw address fetch).setFetch address
          { fetch with dropped := true }).Recorded :=
        (h.withdraw address fetch).futures (.insert hfetch' rfl rfl rfl)
      exact hdropped.keep hid' (by rw [hphase]; exact CallerPhase.outcome_after_release result)
        (CallerPhase.after_release_ne result)
  | @report id _ caller result hid hphase =>
      have hreturned : (state.setCaller id { caller with phase := .returned result }).Recorded :=
        h.keep hid (by rw [hphase]; rfl) (by simp)
      exact { hreturned with }
  | free hfetch hdropped => exact h.futures (.erase _ _)

end Effects

end FetchState

end Feuer.Fetch
