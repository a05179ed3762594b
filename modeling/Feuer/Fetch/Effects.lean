import Feuer.Fetch.Ownership

/-!
# What a step does

`Effect` lists the changes that a step can make, each with what the state told before it. A step of
a state whose fetches are owned never panics and never follows a dangling address: it has one of
these effects (`step_steps`), and every effect keeps the ownership (`Effect.owned`).
-/

namespace Feuer.Fetch

open Lib

variable {κ τ ρ : Type}

namespace FetchState

variable [DecidableEq κ] [DecidableEq τ] {state : FetchState κ τ ρ}

/-- The entry of a fetch leaves the registry, unless it refers to another address. -/
def withdraw (state : FetchState κ τ ρ) (address : Nat) (fetch : PendingFetch κ τ ρ) :
    FetchState κ τ ρ :=
  if state.registry.lookup fetch.key = some address then
    { state with registry := state.registry.erase fetch.key }
  else state

/-- A move that only changes the phase of its caller. -/
inductive PhaseStep : CallerPhase ρ → CallerPhase ρ → Prop where
  | miss : PhaseStep .started .missed
  | hit (result : ρ) : PhaseStep .started (.reporting result)
  | cancelStarted : PhaseStep .started .cancelled
  | cancelAwaiting (address : Nat) : PhaseStep (.awaiting address) (.releasing address none)
  | cancelReporting (result : ρ) : PhaseStep (.reporting result) .cancelled

namespace PhaseStep

variable {before after : CallerPhase ρ}

/-- A step of the phase alone gives up no reference. -/
theorem held (h : PhaseStep before after) : after.held = before.held := by
  cases h <;> rfl

/-- A step of the phase alone neither begins a drop nor ends one. -/
theorem doomed (h : PhaseStep before after) : after.doomed = before.doomed := by
  cases h <;> rfl

/-- A step of the phase alone does not begin to wait. -/
theorem ne_awaiting (h : PhaseStep before after) (address : Nat) : after ≠ .awaiting address := by
  cases h <;> nofun

/-- A step of the phase alone gets no result. -/
theorem ne_resolved (h : PhaseStep before after) (address : Nat) (result : ρ) :
    after ≠ .resolved address result := by
  cases h <;> nofun

end PhaseStep

/-- What an action can do. -/
inductive Effect (state : FetchState κ τ ρ) : FetchAction κ τ ρ → FetchState κ τ ρ → Prop where
  | idle (action : FetchAction κ τ ρ) : Effect state action state
  | start {id : Nat} {key : κ × τ} (hid : state.callers.lookup id = none) :
      Effect state (.start id key) (state.setCaller id
        { key := key, phase := .started, joined := none, barred := state.retired })
  | rephase {id : Nat} {move : CallerMove ρ} {caller : Caller κ τ ρ} {phase : CallerPhase ρ}
      (hid : state.callers.lookup id = some caller) (hphase : PhaseStep caller.phase phase) :
      Effect state (.move id move) (state.setCaller id { caller with phase := phase })
  | share {id fresh address : Nat} {caller : Caller κ τ ρ} {fetch : PendingFetch κ τ ρ}
      (hid : state.callers.lookup id = some caller) (hphase : caller.phase = .missed)
      (hregistered : state.registry.lookup caller.key = some address)
      (hfetch : state.heap.lookup address = some fetch) (hstrong : 0 < fetch.strong) :
      Effect state (.move id (.join fresh))
        (state.joinAt id caller address { fetch with strong := fetch.strong + 1 })
  | allocate {id fresh : Nat} {caller : Caller κ τ ρ}
      (hid : state.callers.lookup id = some caller) (hphase : caller.phase = .missed)
      (hfree : state.heap.lookup fresh = none)
      (hstale : ∀ other found, state.registry.lookup caller.key = some other →
        state.heap.lookup other = some found → found.strong = 0) :
      Effect state (.move id (.join fresh))
        { state.joinAt id caller fresh (.new caller.key state.nextSerial) with
        registry := state.registry.insert caller.key fresh
        nextSerial := state.nextSerial + 1 }
  | clone {id address : Nat} {move : CallerMove ρ} {caller : Caller κ τ ρ}
      {fetch : PendingFetch κ τ ρ}
      (hid : state.callers.lookup id = some caller) (hphase : caller.phase = .joined address)
      (hfetch : state.heap.lookup address = some fetch) (hresult : fetch.result.isSome) :
      Effect state (.move id move) (state.setCaller id { caller with phase := .awaiting address })
  | initialise {id address : Nat} {move : CallerMove ρ} {caller : Caller κ τ ρ}
      {fetch : PendingFetch κ τ ρ}
      (hid : state.callers.lookup id = some caller) (hphase : caller.phase = .joined address)
      (hfetch : state.heap.lookup address = some fetch) (hresult : fetch.result = none) :
      Effect state (.move id move)
        { (state.setFetch address { fetch with result := some ⟨id, .lookup⟩ }).setCaller id
            { caller with phase := .awaiting address } with
          initialisers := (fetch.serial, id) :: state.initialisers }
  | resolve {id address initialiser : Nat} {move : CallerMove ρ} {caller : Caller κ τ ρ}
      {fetch : PendingFetch κ τ ρ} {result : ρ}
      (hid : state.callers.lookup id = some caller) (hphase : caller.phase = .awaiting address)
      (hfetch : state.heap.lookup address = some fetch)
      (hresult : fetch.result = some ⟨initialiser, .done result⟩) :
      Effect state (.move id move)
        (state.setCaller id { caller with phase := .resolved address result })
  | callback {id address initialiser : Nat} {move : CallerMove ρ} {fetch : PendingFetch κ τ ρ}
      (hfetch : state.heap.lookup address = some fetch)
      (hresult : fetch.result = some ⟨initialiser, .lookup⟩) :
      Effect state (.move id move)
        { state.setFetch address { fetch with result := some ⟨initialiser, .callback⟩ } with
          callbacks := (fetch.serial, initialiser) :: state.callbacks }
  | finish {id address initialiser : Nat} {move : CallerMove ρ} {fetch : PendingFetch κ τ ρ}
      {stage : FetchStage ρ} {result : ρ}
      (hfetch : state.heap.lookup address = some fetch)
      (hresult : fetch.result = some ⟨initialiser, stage⟩) (hcomplete : fetch.complete = false) :
      Effect state (.move id move)
        { state.setFetch address { fetch with result := some ⟨initialiser, .done result⟩ } with
          completions := (fetch.serial, result) :: state.completions }
  | remove {id address : Nat} {caller : Caller κ τ ρ} {fetch : PendingFetch κ τ ρ} {result : ρ}
      (hid : state.callers.lookup id = some caller)
      (hphase : caller.phase = .resolved address result)
      (hfetch : state.heap.lookup address = some fetch) :
      Effect state (.move id .removeFromRegistry) ((state.withdraw address fetch).setCaller id
        { caller with phase := .releasing address (some result) })
  | release {id address : Nat} {move : CallerMove ρ} {caller : Caller κ τ ρ}
      {fetch : PendingFetch κ τ ρ} {result : Option ρ}
      (hid : state.callers.lookup id = some caller)
      (hphase : caller.phase = .releasing address result)
      (hfetch : state.heap.lookup address = some fetch) :
      Effect state (.move id move)
        ((state.setFetch address { fetch with strong := fetch.strong - 1 }).setCaller id
          { caller with
            phase := if fetch.strong = 1 then .dropping address result else .afterRelease result })
  | drop {id address : Nat} {caller : Caller κ τ ρ} {fetch : PendingFetch κ τ ρ} {result : Option ρ}
      (hid : state.callers.lookup id = some caller)
      (hphase : caller.phase = .dropping address result)
      (hfetch : state.heap.lookup address = some fetch) :
      Effect state (.move id .drop)
        (((state.withdraw address fetch).setFetch address
          { fetch with dropped := true }).setCaller id
          { caller with phase := .afterRelease result })
  | report {id : Nat} {move : CallerMove ρ} {caller : Caller κ τ ρ} {result : ρ}
      (hid : state.callers.lookup id = some caller) (hphase : caller.phase = .reporting result) :
      Effect state (.move id move) (state.report id caller result)
  | free {address : Nat} {fetch : PendingFetch κ τ ρ}
      (hfetch : state.heap.lookup address = some fetch) (hdropped : fetch.dropped) :
      Effect state (.free address) { state with heap := state.heap.erase address }

/-- What a step returns has the effect of its action. -/
def Steps (state : FetchState κ τ ρ) (action : FetchAction κ τ ρ)
    (result : Except FetchPanic (FetchState κ τ ρ)) : Prop :=
  Outcome (fun _ => False) (Effect state action) result

/-- The removal finds its fetch and compares addresses. -/
theorem remove_from_registry_eq {address : Nat} {fetch : PendingFetch κ τ ρ}
    (hfetch : state.heap.lookup address = some fetch) :
    state.removeFromRegistry address = .ok (state.withdraw address fetch) := by
  rw [removeFromRegistry, fetch_at_eq hfetch, ok_bind, withdraw]
  split <;> rfl

/-- What `upgrade` finds has an owner; a registration that it passes over has none. -/
theorem upgrade_spec (h : state.Owned) (key : κ × τ) :
    (∃ address fetch, state.upgrade key = .ok (some (address, fetch)) ∧
      state.registry.lookup key = some address ∧ state.heap.lookup address = some fetch ∧
      0 < fetch.strong) ∨
    (state.upgrade key = .ok none ∧ ∀ address fetch, state.registry.lookup key = some address →
      state.heap.lookup address = some fetch → fetch.strong = 0) := by
  unfold upgrade
  cases hregistered : state.registry.lookup key with
  | none => exact .inr ⟨rfl, nofun⟩
  | some address =>
      obtain ⟨fetch, hfetch, -, -⟩ := h.allocated.registered key address hregistered
      simp only [fetch_at_eq hfetch, ok_bind]
      by_cases hstrong : fetch.strong = 0
      · refine .inr ⟨by simp [hstrong, pure, Except.pure], ?_⟩
        intro other found hother hfound
        cases hother
        cases hfetch.symm.trans hfound
        exact hstrong
      · exact .inl ⟨address, fetch, by simp [hstrong, pure, Except.pure], rfl, hfetch,
          Nat.pos_of_ne_zero hstrong⟩

section Moves

variable {id address : Nat} {caller : Caller κ τ ρ}

/-- A caller joins the registered fetch, or registers a new one. -/
theorem join_steps (h : state.Owned) (hid : state.callers.lookup id = some caller)
    (hphase : caller.phase = .missed) (fresh : Nat) :
    Steps state (.move id (.join fresh)) (state.join id caller fresh) := by
  rcases state.upgrade_spec h caller.key with
    ⟨address, fetch, heq, hregistered, hfetch, hstrong⟩ | ⟨heq, hstale⟩
  · have htype : fetch.errorType = caller.key.2 := by
      obtain ⟨_, hfound, hkey, -⟩ := h.allocated.registered _ _ hregistered
      cases hfetch.symm.trans hfound
      rw [h.allocated.typed _ _ hfetch, hkey]
    simp only [join, heq, ok_bind, if_pos htype]
    exact Effect.share hid hphase hregistered hfetch hstrong
  · simp only [join, heq, ok_bind]
    split
    next => exact Effect.idle _
    next hfree => exact Effect.allocate hid hphase (by simpa using hfree) hstale

/-- A caller sets the shared future, or finds it set. -/
theorem initialise_steps (h : state.Owned) (hid : state.callers.lookup id = some caller)
    (hphase : caller.phase = .joined address) :
    Steps state (.move id .initialise) (state.initialise id caller address) := by
  have haddress : caller.phase.address = some address := by rw [hphase]; rfl
  obtain ⟨fetch, hfetch, -⟩ := h.fetch_of_address hid haddress
  simp only [initialise, fetch_at_eq hfetch, ok_bind]
  split
  next hresult => exact Effect.clone hid hphase hfetch (by rw [hresult]; rfl)
  next hresult => exact Effect.initialise hid hphase hfetch hresult

/-- A caller polls the future, which may finish. -/
theorem poll_steps (h : state.Owned) (hid : state.callers.lookup id = some caller)
    (hphase : caller.phase = .awaiting address) (event : PollEvent ρ) :
    Steps state (.move id (.poll event)) (state.poll id caller address event) := by
  have haddress : caller.phase.address = some address := by rw [hphase]; rfl
  obtain ⟨fetch, hfetch, hsome⟩ := (h.refers _ _ _ hid haddress).initialised hphase
  obtain ⟨⟨initialiser, stage⟩, hresult⟩ := Option.isSome_iff_exists.mp hsome
  simp only [poll, fetch_at_eq hfetch, ok_bind, hresult]
  split
  next => exact Effect.resolve hid hphase hfetch hresult
  next => exact Effect.finish hfetch hresult (by simp [PendingFetch.complete, hresult])
  next => exact Effect.callback hfetch hresult
  next => exact Effect.finish hfetch hresult (by simp [PendingFetch.complete, hresult])
  next => exact Effect.idle _

/-- A caller gives up its reference, and the last one drops the fetch. -/
theorem release_steps (h : state.Owned) (hid : state.callers.lookup id = some caller)
    {result : Option ρ} (hphase : caller.phase = .releasing address result) :
    Steps state (.move id .release) (state.release id caller address result) := by
  have haddress : caller.phase.address = some address := by rw [hphase]; rfl
  obtain ⟨fetch, hfetch, -⟩ := h.fetch_of_address hid haddress
  simp only [release, fetch_at_eq hfetch, ok_bind]
  exact Effect.release hid hphase hfetch

/-- A drop removes the fetch from the registry if it is registered. -/
theorem drop_steps (h : state.Owned) (hid : state.callers.lookup id = some caller)
    {result : Option ρ} (hphase : caller.phase = .dropping address result) :
    Steps state (.move id .drop) (state.drop id caller address result) := by
  have haddress : caller.phase.address = some address := by rw [hphase]; rfl
  obtain ⟨fetch, hfetch, -⟩ := h.fetch_of_address hid haddress
  have hkept : (state.withdraw address fetch).heap.lookup address = some fetch := by
    unfold withdraw
    split <;> exact hfetch
  simp only [drop, remove_from_registry_eq hfetch, fetch_at_eq hkept, ok_bind]
  exact Effect.drop hid hphase hfetch

/-- Every move of a caller has an effect of the list. -/
theorem advance_steps (h : state.Owned) (hid : state.callers.lookup id = some caller)
    (move : CallerMove ρ) : Steps state (.move id move) (state.advance id caller move) := by
  unfold advance
  split
  next hphase => exact Effect.rephase hid (hphase ▸ .miss)
  next hphase => exact Effect.rephase hid (hphase ▸ .hit _)
  next hphase => exact join_steps h hid hphase _
  next hphase => exact initialise_steps h hid hphase
  next hphase => exact poll_steps h hid hphase _
  next address result hphase =>
    have haddress : caller.phase.address = some address := by rw [hphase]; rfl
    obtain ⟨fetch, hfetch, -⟩ := h.fetch_of_address hid haddress
    simp only [remove_from_registry_eq hfetch, ok_bind]
    exact Effect.remove hid hphase hfetch
  next hphase => exact release_steps h hid hphase
  next hphase => exact drop_steps h hid hphase
  next hphase => exact Effect.report hid hphase
  next hphase => exact Effect.rephase hid (hphase ▸ .cancelStarted)
  next hphase => exact Effect.rephase hid (hphase ▸ .cancelAwaiting _)
  next hphase => exact Effect.rephase hid (hphase ▸ .cancelReporting _)
  next => exact Effect.idle _

end Moves

/-- No step panics or follows a dangling address. -/
theorem step_steps (h : state.Owned) (action : FetchAction κ τ ρ) :
    Steps state action (state.step action) := by
  cases action with
  | start id key =>
      simp only [step]
      split
      next => exact Effect.idle _
      next hid => exact Effect.start hid
  | move id move =>
      simp only [step]
      split
      next hid => exact advance_steps h hid move
      next => exact Effect.idle _
  | free address =>
      simp only [step]
      split
      next hfetch =>
        split
        next hguard => exact Effect.free hfetch hguard.1
        next => exact Effect.idle _
      next => exact Effect.idle _

/-! ## Preservation -/

/-- A fetch that is complete, or that has no owner, may be withdrawn. -/
theorem Owned.withdraw (h : state.Owned) {address : Nat} {fetch : PendingFetch κ τ ρ}
    (hfetch : state.heap.lookup address = some fetch) (hdone : fetch.complete ∨ fetch.strong = 0) :
    (state.withdraw address fetch).Owned := by
  unfold FetchState.withdraw
  split
  next hregistered => exact h.unregister hfetch hregistered hdone
  next => exact h

/-- A withdrawn fetch is not registered. -/
theorem withdraw_unregistered (state : FetchState κ τ ρ) (address : Nat)
    (fetch : PendingFetch κ τ ρ) :
    (state.withdraw address fetch).registry.lookup fetch.key ≠ some address := by
  unfold withdraw
  split
  next => simp [Finmap.lookup_erase]
  next hne => exact hne

/-- A withdrawal changes the registry only. -/
@[simp] theorem withdraw_heap (state : FetchState κ τ ρ) (address : Nat)
    (fetch : PendingFetch κ τ ρ) : (state.withdraw address fetch).heap = state.heap := by
  unfold withdraw
  split <;> rfl

@[simp] theorem withdraw_callers (state : FetchState κ τ ρ) (address : Nat)
    (fetch : PendingFetch κ τ ρ) : (state.withdraw address fetch).callers = state.callers := by
  unfold withdraw
  split <;> rfl

@[simp] theorem withdraw_next_serial (state : FetchState κ τ ρ) (address : Nat)
    (fetch : PendingFetch κ τ ρ) :
    (state.withdraw address fetch).nextSerial = state.nextSerial := by
  unfold withdraw
  split <;> rfl

@[simp] theorem withdraw_retired (state : FetchState κ τ ρ) (address : Nat)
    (fetch : PendingFetch κ τ ρ) : (state.withdraw address fetch).retired = state.retired := by
  unfold withdraw
  split <;> rfl

/-- Every effect keeps the ownership of the fetches. -/
theorem Effect.owned (h : state.Owned) {action : FetchAction κ τ ρ} {next : FetchState κ τ ρ}
    (heffect : Effect state action next) : next.Owned := by
  cases heffect with
  | idle => exact h
  | start hid => exact h.start hid rfl
  | rephase hid hphase =>
      exact h.rephase hid rfl rfl hphase.held hphase.doomed
        (fun address heq => absurd heq (hphase.ne_awaiting address))
        (fun address result heq => absurd heq (hphase.ne_resolved address result))
  | share hid hphase hregistered hfetch hstrong =>
      obtain ⟨_, hfound, hkey, hdropped⟩ := h.allocated.registered _ _ hregistered
      cases hfetch.symm.trans hfound
      exact h.acquire hid (by rw [hphase]; rfl) hfetch hstrong hkey hdropped
  | allocate hid hphase hfree hstale =>
      exact h.allocate hid (by rw [hphase]; rfl) hfree hstale
  | clone hid hphase hfetch hresult =>
      refine h.rephase hid rfl rfl (by rw [hphase]; rfl) (by rw [hphase]; rfl) ?_
        fun _ _ hother => by cases hother
      intro address hawaiting
      cases hawaiting
      exact ⟨_, hfetch, hresult⟩
  | @initialise id address _ caller fetch hid hphase hfetch hresult =>
      have hupdated : (state.setFetch address { fetch with result := some ⟨id, .lookup⟩ }).Owned :=
        h.set_result hfetch (by simp [PendingFetch.complete, hresult])
      have hawaiting :
        ((state.setFetch address { fetch with result := some ⟨id, .lookup⟩ }).setCaller id
          { caller with phase := .awaiting address }).Owned := by
        refine hupdated.rephase hid rfl rfl (by rw [hphase]; rfl) (by rw [hphase]; rfl) ?_
          fun _ _ hother => by cases hother
        intro address hawaiting
        cases hawaiting
        exact ⟨_, Finmap.lookup_insert _, rfl⟩
      exact { hawaiting with }
  | resolve hid hphase hfetch hresult =>
      refine h.rephase hid rfl rfl (by rw [hphase]; rfl) (by rw [hphase]; rfl)
        (fun _ hother => by cases hother) ?_
      intro address result hresolved
      cases hresolved
      exact ⟨_, hfetch, by simp [PendingFetch.complete, hresult]⟩
  | callback hfetch hresult =>
      exact { h.set_result hfetch (by simp [PendingFetch.complete, hresult]) with }
  | finish hfetch hresult hcomplete => exact { h.set_result hfetch hcomplete with }
  | @remove id address caller fetch result hid hphase hfetch =>
      have haddress : caller.phase.address = some address := by rw [hphase]; rfl
      obtain ⟨_, hfound, hcomplete⟩ := (h.refers _ _ _ hid haddress).resolved result hphase
      cases hfetch.symm.trans hfound
      have hid' : (state.withdraw address fetch).callers.lookup id = some caller := by
        rw [withdraw_callers, hid]
      exact (h.withdraw hfetch (.inl hcomplete)).rephase hid' rfl rfl (by rw [hphase]; rfl)
        (by rw [hphase]; rfl) (fun _ hother => by cases hother) fun _ _ hother => by cases hother
  | release hid hphase hfetch => exact h.release hid hphase hfetch
  | drop hid hphase hfetch =>
      have hzero := h.strong_eq_zero hid (by rw [hphase]; rfl) hfetch
      exact (h.withdraw hfetch (.inr hzero)).mark_dropped (by simpa using hid) hphase
        (by simpa using hfetch)
        (withdraw_unregistered _ _ _)
  | @report id _ caller result hid hphase =>
      have hreturned : (state.setCaller id { caller with phase := .returned result }).Owned :=
        h.rephase hid rfl rfl (by rw [hphase]; rfl) (by rw [hphase]; rfl)
          (fun _ hother => by cases hother) fun _ _ hother => by cases hother
      exact { hreturned with }
  | free hfetch hdropped => exact h.free hfetch hdropped

end FetchState

end Feuer.Fetch
