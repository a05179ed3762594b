import Feuer.Storage.CacheRuns
import Feuer.Storage.CallerSteps
import Feuer.Storage.Generations

/-!
# Reads that lookups share

A lookup that finds an indexed entry joins the read that another lookup of the entry holds, or makes
one. Nothing is locked while the payload is read, so the entry can be evicted and its key published
again in the meantime. A history of the run says for which generation of its key each read was made,
and which entries were removed after failed checksums. A live read of the generation that is indexed
is always the one that the entry has, so the comparison before a removal finds the read's own
generation or nothing.
-/

namespace Feuer.Storage

open Lib

variable {context : ShardContext}

/-- A generation of a key: how often it had been published. -/
structure Generation where
  key : ObjectKeyHash
  number : Nat
  deriving DecidableEq, Repr

/-- The removal of an entry after a failed checksum: the read that failed, and the removed entry
with its generation. -/
structure Removal where
  read : Nat
  generation : Generation
  entry : DiskEntry

/-- What an observer of a run knows about its reads. -/
structure ReadHistory where
  /-- The generation that a read was made for. -/
  made : FiniteMap Nat Generation
  /-- The removals after failed checksums, newest first. -/
  removals : List Removal

/-- The read is one of the entry's payload. -/
def PayloadRead.Reads (read : PayloadRead) (entry : DiskEntry) : Prop :=
  read.payloadAddress = entry.payloadAddress ∧ read.payloadLen = entry.payloadLen ∧
    read.payloadChecksum = entry.payloadChecksum

namespace CacheState

/-! ## The history of a run -/

/-- The generation of the key that is indexed, or was last. -/
def generation (state : CacheState context) (key : ObjectKeyHash) : Generation :=
  ⟨key, state.disk.generation key⟩

/-- The read that a step makes, and its generation. -/
def newRead? (state : CacheState context) (action : CacheAction context)
    (next : CacheState context) : Option (Nat × Generation) :=
  match action with
  | .lookupIndex id fresh =>
      if (state.reads.lookup fresh).isNone ∧ (next.reads.lookup fresh).isSome then
        (state.lookups.lookup id).map fun lookup => (fresh, state.generation lookup.key)
      else none
  | _ => none

/-- The entry that a step removes after a failed checksum. -/
def removal? (state : CacheState context) (action : CacheAction context)
    (next : CacheState context) : Option Removal :=
  match action with
  | .removeFailed id => do
      let lookup ← state.lookups.lookup id
      let read ← lookup.phase.read?
      let entry ← state.disk.shard.entryIndex.entriesByKey.lookup lookup.key
      if (next.disk.shard.entryIndex.entriesByKey.lookup lookup.key).isNone then
        some ⟨read, state.generation lookup.key, entry⟩
      else none
  | _ => none

/-- The history after a step. -/
def recordReads (state : CacheState context) (action : CacheAction context)
    (next : CacheState context) (history : ReadHistory) : ReadHistory where
  made := (state.newRead? action next).elim history.made fun found =>
    history.made.insert found.1 found.2
  removals := (state.removal? action next).toList ++ history.removals

/-- The history of a session's reads. -/
def readHistory (state : CacheState context) (actions : List (CacheAction context)) : ReadHistory :=
  observe step recordReads state ⟨∅, []⟩ actions

variable {state next : CacheState context} {history : ReadHistory} {action : CacheAction context}
  {id : Nat} {lookup : Lookup}

theorem new_read?_eq_none (h : ∀ number, state.reads.lookup number = none →
    next.reads.lookup number = none) : state.newRead? action next = none := by
  unfold newRead?
  split
  next fresh =>
    refine if_neg fun hnew => ?_
    have hnone := h fresh (by simpa using hnew.1)
    simp [hnone] at hnew
  next => rfl

theorem removal?_eq_none (h : next.disk.shard.entryIndex.entriesByKey =
    state.disk.shard.entryIndex.entriesByKey) : state.removal? action next = none := by
  unfold removal?
  split
  next id =>
    rw [h]
    cases hlookup : state.lookups.lookup id with
    | none => rfl
    | some lookup =>
        cases hread : lookup.phase.read? with
        | none => simp [hread]
        | some read =>
            cases hentry : state.disk.shard.entryIndex.entriesByKey.lookup lookup.key with
            | none => simp [hread, hentry]
            | some entry => simp [hread, hentry]
  next => rfl

/-- What a step of a lookup that has found the entry of its read removes. -/
theorem removal?_of_entry {number : Nat} {entry : DiskEntry}
    (hlookup : state.lookups.lookup id = some lookup) (hread : lookup.phase.read? = some number)
    (hentry : state.disk.shard.entryIndex.entriesByKey.lookup lookup.key = some entry) :
    state.removal? (.removeFailed id) next =
      if (next.disk.shard.entryIndex.entriesByKey.lookup lookup.key).isNone then
        some ⟨number, state.generation lookup.key, entry⟩
      else none := by
  simp only [removal?, hlookup, hread, hentry, Option.bind_eq_bind, Option.bind_some]

/-! ## The invariant -/

/-- What holds of a read that a lookup of the key has. -/
structure Known (state : CacheState context) (history : ReadHistory) (key : ObjectKeyHash)
    (number : Nat) : Prop where
  made : ∃ read generation, state.reads.lookup number = some read ∧
    history.made.lookup number = some generation ∧ generation.key = key
  /-- A read of the indexed generation is the one that the entry has. -/
  current : ∀ view, history.made.lookup number = some (state.generation key) →
    state.disk.shard.entryIndex.view? key = some view → view.sharedRead = some number
  /-- Another read of the same generation is this one. -/
  shared : ∀ id lookup other generation, state.lookups.lookup id = some lookup →
    lookup.phase.read? = some other → history.made.lookup number = some generation →
      history.made.lookup other = some generation → number = other

/-- Reads and the generations that they were made for. -/
structure Traced (state : CacheState context) (history : ReadHistory) : Prop where
  /-- A read was made for a generation that has been published. -/
  made : ∀ number read, state.reads.lookup number = some read → ∃ generation,
    history.made.lookup number = some generation ∧
      generation.number ≤ state.disk.generation generation.key
  /-- The read of an indexed entry is of its generation and of its payload. -/
  indexed : ∀ key view number, state.disk.shard.entryIndex.view? key = some view →
    view.sharedRead = some number → history.made.lookup number = some (state.generation key) ∧
      ∃ read, state.reads.lookup number = some read ∧ read.Reads view
  known : ∀ id lookup number, state.lookups.lookup id = some lookup →
    lookup.phase.read? = some number → state.Known history lookup.key number

/-- One lookup at a time initializes the result of a read, which is not set. -/
structure Unset (state : CacheState context) : Prop where
  sole : ∀ id lookup other otherLookup number, state.lookups.lookup id = some lookup →
    state.lookups.lookup other = some otherLookup → lookup.phase.initializing? = some number →
      otherLookup.phase.initializing? = some number → id = other
  unset : ∀ id lookup number read, state.lookups.lookup id = some lookup →
    lookup.phase.initializing? = some number → state.reads.lookup number = some read →
      read.result = none

/-- A removed entry was that of the read, which has failed. -/
structure Removed (state : CacheState context) (history : ReadHistory) : Prop where
  removed : ∀ removal ∈ history.removals, ∃ read,
    state.reads.lookup removal.read = some read ∧ read.Reads removal.entry ∧
      history.made.lookup removal.read = some removal.generation ∧
      read.result = some (.error .checksumFailed)
  once : (history.removals.map Removal.read).Nodup

/-- Steps that change neither the lookups nor the reads: entries stay, are removed, or get new
generations that nobody reads. -/
theorem Traced.of_renewal (h : state.Traced history) {disk : ShardState context}
    (hkeys : ∀ key, ∃ count, disk.generation key = state.disk.generation key + count ∧
      Renewal (state.disk.shard.entryIndex.view? key) (disk.shard.entryIndex.view? key) count) :
    Traced { state with disk } history := by
  refine ⟨fun number read hread => ?_, fun key view number hview hshared => ?_,
    fun id lookup number hlookup hread => ?_⟩
  · obtain ⟨generation, hmade, hle⟩ := h.made number read hread
    obtain ⟨count, hcount, -⟩ := hkeys generation.key
    exact ⟨generation, hmade, by show _ ≤ disk.generation generation.key; omega⟩
  · obtain ⟨count, hcount, hrenewal⟩ := hkeys key
    dsimp only at hview
    cases hrenewal with
    | kept hsame =>
        obtain ⟨hmade, hread⟩ := h.indexed key view number (hsame ▸ hview) hshared
        refine ⟨?_, hread⟩
        rw [hmade, generation, generation, hcount, Nat.add_zero]
    | removed hnone =>
        rw [hnone] at hview
        cases hview
    | published hbefore fresh hafter hunread =>
        rw [hafter] at hview
        cases hview
        rw [hunread] at hshared
        cases hshared
  · have hknown := h.known id lookup number hlookup hread
    refine ⟨hknown.made, fun view hmade hview => ?_, hknown.shared⟩
    obtain ⟨count, hcount, hrenewal⟩ := hkeys lookup.key
    dsimp only at hview
    cases hrenewal with
    | kept hsame =>
        refine hknown.current view ?_ (hsame ▸ hview)
        rw [hmade, generation, generation, hcount, Nat.add_zero]
    | removed hnone =>
        rw [hnone] at hview
        cases hview
    | published hbefore fresh hafter hunread =>
        -- The read was made for a generation that is not the new one.
        obtain ⟨found, -, hfound, -⟩ := hknown.made
        obtain ⟨made, hmade', hle⟩ := h.made number found hfound
        rw [hmade, Option.some.injEq] at hmade'
        subst hmade'
        dsimp only [generation] at hle
        omega

/-- A lookup gets a read of which enough is known, or has none. -/
theorem Traced.of_lookup (h : state.Traced history) {moved : Lookup}
    (hmoved : ∀ number, moved.phase.read? = some number →
      state.Known history moved.key number) :
    Traced { state with lookups := state.lookups.insert id moved } history := by
  refine ⟨h.made, h.indexed, fun other found number hfound hread => ?_⟩
  rw [FiniteMap.lookup_insert_eq] at hfound
  split at hfound
  next =>
    cases hfound
    have hknown := hmoved number hread
    refine ⟨hknown.made, hknown.current, fun third held heldNumber generation hheld hheldRead => ?_⟩
    rw [FiniteMap.lookup_insert_eq] at hheld
    split at hheld
    next =>
      cases hheld
      rw [hread, Option.some.injEq] at hheldRead
      exact fun _ _ => hheldRead
    next => exact hknown.shared third held heldNumber generation hheld hheldRead
  next =>
    have hknown := h.known other found number hfound hread
    refine ⟨hknown.made, hknown.current, fun third held heldNumber generation hheld hheldRead hmade
      hheldMade => ?_⟩
    rw [FiniteMap.lookup_insert_eq] at hheld
    split at hheld
    next =>
      cases hheld
      exact ((hmoved heldNumber hheldRead).shared other found number generation hfound hread
        hheldMade hmade).symm
    next => exact hknown.shared third held heldNumber generation hheld hheldRead hmade hheldMade

/-- Two lookups of the indexed generation have the read of the entry. -/
theorem Traced.same_of_current (h : state.Traced history) {key : ObjectKeyHash} {view : DiskEntry}
    (hview : state.disk.shard.entryIndex.view? key = some view) {number : Nat}
    (hlookup : state.lookups.lookup id = some lookup) (hread : lookup.phase.read? = some number)
    (hmade : history.made.lookup number = some (state.generation key)) :
    view.sharedRead = some number := by
  have hknown := h.known id lookup number hlookup hread
  obtain ⟨read, generation, -, hgeneration, hkey⟩ := hknown.made
  rw [hmade, Option.some.injEq] at hgeneration
  subst hgeneration
  dsimp only [CacheState.generation] at hkey
  subst hkey
  exact hknown.current view hmade hview

/-- The read that an indexed entry has can be joined. -/
theorem Traced.joined (h : state.Traced history) {key : ObjectKeyHash} {view : DiskEntry}
    {number : Nat} (hview : state.disk.shard.entryIndex.view? key = some view)
    (hshared : view.sharedRead = some number) : state.Known history key number := by
  obtain ⟨hmade, read, hread, -⟩ := h.indexed key view number hview hshared
  refine ⟨⟨read, _, hread, hmade, rfl⟩, fun other _ hother => ?_,
    fun id lookup other generation hlookup hheld hnumber hother => ?_⟩
  · rw [hview, Option.some.injEq] at hother
    exact hother ▸ hshared
  · rw [hmade, Option.some.injEq] at hnumber
    subst hnumber
    have hsame := h.same_of_current hview hlookup hheld hother
    rw [hshared, Option.some.injEq] at hsame
    exact hsame

/-- The result of a read tells nothing about its origin. -/
theorem Traced.of_result (h : state.Traced history) {number : Nat} {read : PayloadRead}
    (hread : state.reads.lookup number = some read)
    (result : Option (Except DiskLookupOutcome (List UInt8 × Nat))) :
    Traced { state with reads := state.reads.insert number { read with result } } history := by
  have hreads : ∀ other found, state.reads.lookup other = some found →
      ∃ later, (state.reads.insert number { read with result }).lookup other = some later ∧
        ∀ entry, found.Reads entry → later.Reads entry := by
    intro other found hfound
    rw [FiniteMap.lookup_insert_eq]
    split
    next heq =>
      rw [heq, hread, Option.some.injEq] at hfound
      subst hfound
      exact ⟨_, rfl, fun _ hentry => hentry⟩
    next => exact ⟨found, hfound, fun _ hentry => hentry⟩
  refine ⟨fun other found hfound => ?_, fun key view other hview hshared => ?_,
    fun id lookup other hlookup hheld => ?_⟩
  · rw [FiniteMap.lookup_insert_eq] at hfound
    split at hfound
    next heq => exact h.made other read (heq ▸ hread)
    next => exact h.made other found hfound
  · obtain ⟨hmade, found, hfound, hreads'⟩ := h.indexed key view other hview hshared
    obtain ⟨later, hlater, hsame⟩ := hreads other found hfound
    exact ⟨hmade, later, hlater, hsame view hreads'⟩
  · have hknown := h.known id lookup other hlookup hheld
    obtain ⟨found, generation, hfound, hmade⟩ := hknown.made
    obtain ⟨later, hlater, -⟩ := hreads other found hfound
    exact ⟨⟨later, generation, hlater, hmade⟩, hknown.current, hknown.shared⟩

/-- A new read of an entry whose read nobody holds. -/
theorem Traced.of_new_read (h : state.Traced history) {key : ObjectKeyHash} {entry : DiskEntry}
    {fresh : Nat} {disk : ShardState context} {read : PayloadRead}
    (hentry : state.disk.shard.entryIndex.view? key = some entry)
    (hunheld : ∀ number, entry.sharedRead = some number → state.held number = false)
    (hfresh : state.reads.lookup fresh = none)
    (hviews : ∀ other, disk.shard.entryIndex.view? other =
      if other = key then some { entry with sharedRead := some fresh }
      else state.disk.shard.entryIndex.view? other)
    (hgeneration : ∀ other, disk.generation other = state.disk.generation other)
    (hread : read.Reads entry) :
    let made : ReadHistory :=
      { history with made := history.made.insert fresh (state.generation key) }
    let later := { state with disk, reads := state.reads.insert fresh read }
    Traced later made ∧ Known later made key fresh := by
  intro made later
  have hsame : ∀ other, later.generation other = state.generation other := fun other =>
    congrArg (Generation.mk other) (hgeneration other)
  have hself : made.made.lookup fresh = some (state.generation key) := Finmap.lookup_insert _
  have hold : ∀ number, number ≠ fresh →
      made.made.lookup number = history.made.lookup number := fun number hne =>
    (FiniteMap.lookup_insert_eq _ _ _ _).trans (if_neg hne)
  have hreads : ∀ number, number ≠ fresh →
      later.reads.lookup number = state.reads.lookup number := fun number hne =>
    (FiniteMap.lookup_insert_eq _ _ _ _).trans (if_neg hne)
  have hne : ∀ {number found}, state.reads.lookup number = some found → number ≠ fresh := by
    rintro number found hfound rfl
    rw [hfresh] at hfound
    cases hfound
  -- No live read is of the indexed generation: it would be the entry's, and held.
  have hnobody : ∀ id lookup number, state.lookups.lookup id = some lookup →
      lookup.phase.read? = some number →
        history.made.lookup number ≠ some (state.generation key) := by
    intro id lookup number hlookup hheld hmade
    have hshared := h.same_of_current hentry hlookup hheld hmade
    have hunheld := hunheld number hshared
    rw [held_iff.mpr ⟨id, lookup, hlookup, hheld⟩] at hunheld
    cases hunheld
  refine ⟨⟨fun number found hfound => ?_, fun other view number hview hshared => ?_,
    fun id lookup number hlookup hheld => ?_⟩, ⟨⟨read, _, Finmap.lookup_insert _, hself, rfl⟩,
    fun view _ hview => ?_, fun id lookup number generation hlookup hheld hmade hother => ?_⟩⟩
  · by_cases heq : number = fresh
    · subst heq
      exact ⟨_, hself, (hgeneration key).ge⟩
    · rw [hreads number heq] at hfound
      obtain ⟨generation, hmade, hle⟩ := h.made number found hfound
      exact ⟨generation, (hold number heq).trans hmade, hle.trans (hgeneration _).ge⟩
  · change disk.shard.entryIndex.view? other = some view at hview
    rw [hviews] at hview
    split at hview
    next heq =>
      cases hview
      cases hshared
      subst heq
      exact ⟨hself.trans (congrArg some (hsame _).symm), read, Finmap.lookup_insert _, hread⟩
    next =>
      obtain ⟨hmade, found, hfound, hreads'⟩ := h.indexed other view number hview hshared
      have hother := hne hfound
      refine ⟨?_, found, (hreads number hother).trans hfound, hreads'⟩
      rw [hold number hother, hmade, hsame]
  · have hknown := h.known id lookup number hlookup hheld
    obtain ⟨found, generation, hfound, hmade, hkey⟩ := hknown.made
    have hother := hne hfound
    refine ⟨⟨found, generation, (hreads number hother).trans hfound,
      (hold number hother).trans hmade, hkey⟩, fun view hcurrent hview => ?_,
      fun third held heldNumber shared hthird hheldRead => ?_⟩
    · rw [hold number hother, hsame] at hcurrent
      change disk.shard.entryIndex.view? lookup.key = some view at hview
      rw [hviews] at hview
      split at hview
      next heq => exact absurd (heq ▸ hcurrent) (hnobody id lookup number hlookup hheld)
      next => exact hknown.current view hcurrent hview
    · obtain ⟨heldRead, -, hheldFound, -⟩ := (h.known third held heldNumber hthird hheldRead).made
      rw [hold number hother, hold heldNumber (hne hheldFound)]
      exact hknown.shared third held heldNumber shared hthird hheldRead
  · change disk.shard.entryIndex.view? key = some view at hview
    rw [hviews, if_pos rfl] at hview
    cases hview
    rfl
  · obtain ⟨heldRead, -, hheldFound, -⟩ := (h.known id lookup number hlookup hheld).made
    rw [hself, Option.some.injEq] at hmade
    rw [hold number (hne hheldFound), ← hmade] at hother
    exact absurd hother (hnobody id lookup number hlookup hheld)

/-- A lookup that initializes a result did so before, or starts to while nobody else does. -/
theorem Unset.of_lookup (h : state.Unset) {moved : Lookup}
    (hmoved : ∀ number, moved.phase.initializing? = some number →
      (∃ lookup, state.lookups.lookup id = some lookup ∧
        lookup.phase.initializing? = some number) ∨
      state.initializing number = false ∧
        ∀ read, state.reads.lookup number = some read → read.result = none) :
    Unset { state with lookups := state.lookups.insert id moved } := by
  -- Whoever else initializes the read of the moved lookup is the lookup itself.
  have hothers : ∀ {other found number}, state.lookups.lookup other = some found →
      found.phase.initializing? = some number → moved.phase.initializing? = some number →
        other = id := by
    intro other found number hfound hinit hnumber
    rcases hmoved number hnumber with ⟨lookup, hlookup, hbefore⟩ | ⟨hfree, -⟩
    · exact h.sole other found id lookup number hfound hlookup hinit hbefore
    · rw [initializing_iff.mpr ⟨other, found, hfound, hinit⟩] at hfree
      cases hfree
  refine ⟨fun first left second right number hleft hright hfirst hsecond => ?_,
    fun other found number read hfound hinit hread => ?_⟩
  · rw [FiniteMap.lookup_insert_eq] at hleft hright
    split at hleft
    next hleftId =>
      cases hleft
      split at hright
      next hrightId => rw [hleftId, hrightId]
      next => rw [hleftId, hothers hright hsecond hfirst]
    next =>
      split at hright
      next hrightId =>
        cases hright
        rw [hrightId, hothers hleft hfirst hsecond]
      next => exact h.sole first left second right number hleft hright hfirst hsecond
  · rw [FiniteMap.lookup_insert_eq] at hfound
    split at hfound
    next =>
      cases hfound
      rcases hmoved number hinit with ⟨lookup, hlookup, hbefore⟩ | ⟨-, hresult⟩
      · exact h.unset id lookup number read hlookup hbefore hread
      · exact hresult read hread
    next => exact h.unset other found number read hfound hinit hread

/-- The lookup that sets a result stops to initialize it. -/
theorem Unset.of_result (h : state.Unset) {number : Nat}
    (hlookup : state.lookups.lookup id = some lookup)
    (hinit : lookup.phase.initializing? = some number) (read : PayloadRead) {moved : Lookup}
    (hmoved : moved.phase.initializing? = none) :
    Unset { state with
      lookups := state.lookups.insert id moved
      reads := state.reads.insert number read } := by
  have hkept := @Unset.of_lookup _ state id h moved fun other hother => by
    rw [hmoved] at hother
    cases hother
  refine ⟨hkept.sole, fun other found otherNumber set hfound hother hread => ?_⟩
  rw [FiniteMap.lookup_insert_eq] at hread
  split at hread
  next heq =>
    subst heq
    rw [FiniteMap.lookup_insert_eq] at hfound
    split at hfound
    next =>
      cases hfound
      rw [hmoved] at hother
      cases hother
    next hne => exact absurd (h.sole other found id lookup _ hfound hlookup hother hinit) hne
  next =>
    exact hkept.unset other found otherNumber set hfound hother hread

theorem Unset.of_new_read (h : state.Unset) {fresh : Nat} {read : PayloadRead}
    (hresult : read.result = none) (disk : ShardState context) :
    Unset { state with disk, reads := state.reads.insert fresh read } := by
  refine ⟨h.sole, fun id lookup number found hlookup hinit hfound => ?_⟩
  rw [FiniteMap.lookup_insert_eq] at hfound
  split at hfound
  next =>
    cases hfound
    exact hresult
  next => exact h.unset id lookup number found hlookup hinit hfound

/-- The removals keep their reads when another read is made or gets its result. -/
theorem Removed.of_reads (h : state.Removed history) {made : FiniteMap Nat Generation}
    (hreads : ∀ number read, state.reads.lookup number = some read → read.result ≠ none →
      next.reads.lookup number = some read)
    (hmade : ∀ number read, state.reads.lookup number = some read →
      made.lookup number = history.made.lookup number) :
    Removed next { history with made } := by
  refine ⟨fun removal hremoval => ?_, h.once⟩
  obtain ⟨read, hread, hentry, hgeneration, hresult⟩ := h.removed removal hremoval
  refine ⟨read, hreads _ read hread (by simp [hresult]), hentry, ?_, hresult⟩
  rw [hmade _ read hread]
  exact hgeneration

/-- A new removal by a read without a result. -/
theorem Removed.remove (h : state.Removed history) {removal : Removal} {read : PayloadRead}
    (hread : state.reads.lookup removal.read = some read) (hunset : read.result = none)
    (hreads : ∀ number found, state.reads.lookup number = some found → found.result ≠ none →
      next.reads.lookup number = some found)
    (hresult : next.reads.lookup removal.read =
      some { read with result := some (.error .checksumFailed) })
    (hentry : read.Reads removal.entry)
    (hmade : history.made.lookup removal.read = some removal.generation) :
    Removed next { history with removals := removal :: history.removals } := by
  have hkept := @Removed.of_reads _ state next history h history.made hreads fun _ _ _ => rfl
  refine ⟨fun other hother => ?_, List.nodup_cons.mpr ⟨fun hmem => ?_, h.once⟩⟩
  · rcases List.mem_cons.mp hother with rfl | hold
    · exact ⟨_, hresult, hentry, hmade, rfl⟩
    · exact hkept.removed other hold
  · obtain ⟨other, hother, heq⟩ := List.mem_map.mp hmem
    obtain ⟨found, hfound, -, -, hset⟩ := h.removed other hother
    rw [heq, hread, Option.some.injEq] at hfound
    subst hfound
    rw [hunset] at hset
    cases hset

/-! ## Every step -/

/-- What holds of the lookups and their reads. -/
structure ReadsCoherent (state : CacheState context) (history : ReadHistory) : Prop where
  orderly : state.Orderly
  traced : state.Traced history
  unset : state.Unset
  removed : state.Removed history

/-- A step that touches only the shard below. -/
theorem ReadsCoherent.of_renewal (h : state.ReadsCoherent history)
    (horderly : next.Orderly) (hlookups : next.lookups = state.lookups)
    (hreads : next.reads = state.reads)
    (hkeys : ∀ key, ∃ count, next.disk.generation key = state.disk.generation key + count ∧
      Renewal (state.disk.shard.entryIndex.view? key) (next.disk.shard.entryIndex.view? key)
      count) :
    next.ReadsCoherent history := by
  obtain ⟨disk, small, lockedBy, tasks, lookups, reads⟩ := next
  subst hlookups hreads
  have htraced := h.traced.of_renewal hkeys
  exact ⟨horderly, ⟨htraced.made, htraced.indexed, fun id lookup number hlookup hread =>
    let hknown := htraced.known id lookup number hlookup hread
    ⟨hknown.made, hknown.current, hknown.shared⟩⟩, ⟨h.unset.sole, h.unset.unset⟩,
    ⟨h.removed.removed, h.removed.once⟩⟩

/-- Steps of tasks leave the index, the log, the lookups and the reads. -/
theorem TaskStep.unread {task : Task context} (h : state.TaskStep id task next) :
    next.lookups = state.lookups ∧ next.reads = state.reads ∧
      next.disk.shard = state.disk.shard ∧ next.disk.file = state.disk.file := by
  cases h with
  | dropped call disk hdisk =>
      refine ⟨rfl, rfl, ?_⟩
      show disk.shard = state.disk.shard ∧ disk.file = state.disk.file
      cases hfound : state.disk.calls.lookup call with
      | some found =>
          simp only [ShardState.step, Action.id?, hfound] at hdisk
          cases hphase : found.phase <;> simp only [ShardState.callStep, hphase] at hdisk <;>
            cases hdisk <;> exact ⟨rfl, rfl⟩
      | none =>
          simp only [ShardState.step, Action.id?, hfound] at hdisk
          cases hdisk
          exact ⟨rfl, rfl⟩
  | _ => exact ⟨rfl, rfl, rfl, rfl⟩

theorem view?_of_entry {key : ObjectKeyHash} {entry : DiskEntry}
    (hentry : state.disk.shard.entryIndex.entriesByKey.lookup key = some entry) :
    state.disk.shard.entryIndex.view? key = some (entry.placed 0) := by
  rw [DiskEntryIndex.view?, hentry]
  rfl

/-- A lookup that moves on with its own read, or with one that the index vouches for. -/
theorem ReadsCoherent.of_lookup (h : state.ReadsCoherent history) {moved : Lookup}
    (hknown : ∀ number, moved.phase.read? = some number → state.Known history moved.key number)
    (hinitializing : ∀ number, moved.phase.initializing? = some number →
      (∃ lookup, state.lookups.lookup id = some lookup ∧
        lookup.phase.initializing? = some number) ∨
      state.initializing number = false ∧
        ∀ read, state.reads.lookup number = some read → read.result = none) :
    ReadsCoherent { state with lookups := state.lookups.insert id moved } history :=
  ⟨⟨h.orderly.small, h.orderly.locked, h.orderly.emptied⟩, h.traced.of_lookup hknown,
    h.unset.of_lookup hinitializing, ⟨h.removed.removed, h.removed.once⟩⟩

/-- A lookup makes a read. -/
theorem ReadsCoherent.made (h : state.ReadsCoherent history) {entry : DiskEntry} {fresh : Nat}
    {disk : ShardState context} (hlookup : state.lookups.lookup id = some lookup)
    (hentry : state.disk.shard.entryIndex.entriesByKey.lookup lookup.key = some entry)
    (hunheld : ∀ number, entry.sharedRead = some number → state.held number = false)
    (hfresh : state.reads.lookup fresh = none)
    (hdisk : state.disk.step (.share lookup.key fresh) = .ok disk)
    (hnext : next = { state with
      disk
      reads := state.reads.insert fresh ⟨entry.payloadLen, entry.payloadChecksum,
        entry.payloadAddress, none⟩ }.setLookup id lookup (.waiting fresh)) :
    next.ReadsCoherent (state.recordReads (.lookupIndex id fresh) next history) := by
  subst hnext
  obtain ⟨hviews, hgeneration⟩ := ShardState.step_share_views hentry hdisk
  have hself : ∀ read : PayloadRead, (state.reads.insert fresh read).lookup fresh = some read :=
    fun read => Finmap.lookup_insert _
  have hrecord : ∀ later : CacheState context, (later.reads.lookup fresh).isSome →
      state.recordReads (.lookupIndex id fresh) later history =
        { history with made := history.made.insert fresh (state.generation lookup.key) } := by
    intro later hlater
    simp [recordReads, newRead?, removal?, hfresh, hlater, hlookup]
  rw [hrecord _ (by simp only [setLookup, hself, Option.isSome_some])]
  obtain ⟨htraced, hknown⟩ := h.traced.of_new_read (view?_of_entry hentry) hunheld hfresh hviews
    hgeneration (⟨rfl, rfl, rfl⟩ : PayloadRead.Reads ⟨entry.payloadLen, entry.payloadChecksum,
      entry.payloadAddress, none⟩ (entry.placed 0))
  have hother : ∀ {number found}, state.reads.lookup number = some found → number ≠ fresh := by
    rintro number found hfound rfl
    rw [hfresh] at hfound
    cases hfound
  have hcoherent : ReadsCoherent { state with
      disk
      reads := state.reads.insert fresh ⟨entry.payloadLen, entry.payloadChecksum,
        entry.payloadAddress, none⟩ }
      { history with made := history.made.insert fresh (state.generation lookup.key) } := by
    refine ⟨⟨h.orderly.small, h.orderly.locked, h.orderly.emptied⟩, htraced,
      h.unset.of_new_read rfl disk, h.removed.of_reads (fun number found hfound _ => ?_)
        fun number found hfound => ?_⟩
    · exact (FiniteMap.lookup_insert_eq _ _ _ _).trans ((if_neg (hother hfound)).trans hfound)
    · exact (FiniteMap.lookup_insert_eq _ _ _ _).trans (if_neg (hother hfound))
  refine hcoherent.of_lookup (fun number hnumber => ?_) fun number hnumber => ?_
  · cases hnumber
    exact hknown
  · cases hnumber

/-- A lookup sets the result of its read. -/
theorem ReadsCoherent.resolved (h : state.ReadsCoherent history) {number : Nat}
    {read : PayloadRead} (hlookup : state.lookups.lookup id = some lookup)
    (hphase : lookup.phase.initializing? = some number)
    (hread : state.reads.lookup number = some read)
    (result : Except DiskLookupOutcome (List UInt8 × Nat)) :
    (state.setResult id lookup number read result).ReadsCoherent history := by
  have hnone : (LookupPhase.ofResult result).read? = none := by cases result <;> rfl
  have hinitializing : (LookupPhase.ofResult result).initializing? = none := by
    cases result <;> rfl
  have hunset := h.unset.unset id lookup number read hlookup hphase hread
  refine ⟨⟨h.orderly.small, h.orderly.locked, h.orderly.emptied⟩, ?_, ?_, ?_⟩
  · refine (h.traced.of_result hread (some result)).of_lookup fun other hother => ?_
    dsimp only at hother
    rw [hnone] at hother
    cases hother
  · exact h.unset.of_result hlookup hphase _ hinitializing
  · refine @Removed.of_reads _ state _ history h.removed history.made
      (fun other found hfound hset => ?_)
      fun _ _ _ => rfl
    refine (FiniteMap.lookup_insert_eq _ _ _ _).trans ((if_neg ?_).trans hfound)
    rintro rfl
    rw [hread, Option.some.injEq] at hfound
    subst hfound
    exact hset hunset

/-- A lookup removes the entry that has its read. -/
theorem ReadsCoherent.removes (h : state.ReadsCoherent history) {number : Nat}
    {read : PayloadRead} {entry : DiskEntry} {disk : ShardState context}
    (hlookup : state.lookups.lookup id = some lookup) (hphase : lookup.phase = .removing number)
    (hread : state.reads.lookup number = some read)
    (hentry : state.disk.shard.entryIndex.entriesByKey.lookup lookup.key = some entry)
    (hshared : entry.sharedRead = some number)
    (hdisk : state.disk.step (.remove lookup.key) = .ok disk)
    (hnext : next = { state with disk }.setResult id lookup number read (.error .checksumFailed)) :
    next.ReadsCoherent (state.recordReads (.removeFailed id) next history) := by
  have hinitializing : lookup.phase.initializing? = some number := by rw [hphase]; rfl
  have hunset := h.unset.unset id lookup number read hlookup hinitializing hread
  have hrenewed : ReadsCoherent { state with disk } history :=
    h.of_renewal ⟨h.orderly.small, h.orderly.locked, h.orderly.emptied⟩ rfl rfl
      fun key => ShardState.step_renewal (by simp) hdisk key
  have hresolved := hrenewed.resolved hlookup hinitializing hread (.error .checksumFailed)
  rw [← hnext] at hresolved
  obtain ⟨hmade, found, hfound, hreads⟩ :=
    h.traced.indexed lookup.key _ number (view?_of_entry hentry) hshared
  rw [hread, Option.some.injEq] at hfound
  subst hfound
  have hremoval := @removal?_of_entry _ state next id lookup number entry hlookup
    (read?_of_initializing hinitializing) hentry
  by_cases hgone : (next.disk.shard.entryIndex.entriesByKey.lookup lookup.key).isNone
  · have hrecord : state.recordReads (.removeFailed id) next history =
        { history with
          removals := ⟨number, state.generation lookup.key, entry⟩ :: history.removals } := by
      rw [recordReads, hremoval, if_pos hgone]
      rfl
    rw [hrecord]
    refine ⟨hresolved.orderly, ⟨hresolved.traced.made, hresolved.traced.indexed,
      fun other held heldNumber hheld hheldRead =>
        let hknown := hresolved.traced.known other held heldNumber hheld hheldRead
        ⟨hknown.made, hknown.current, hknown.shared⟩⟩, hresolved.unset, ?_⟩
    subst hnext
    refine h.removed.remove hread hunset (fun other found hfound hset => ?_)
      (Finmap.lookup_insert _) hreads hmade
    refine (FiniteMap.lookup_insert_eq _ _ _ _).trans ((if_neg ?_).trans hfound)
    rintro rfl
    rw [hread, Option.some.injEq] at hfound
    subst hfound
    exact hset hunset
  · have hrecord : state.recordReads (.removeFailed id) next history = history := by
      rw [recordReads, hremoval, if_neg hgone]
      rfl
    rw [hrecord]
    exact hresolved

/-- A step that the history does not record. -/
theorem ReadsCoherent.unrecorded (h : next.ReadsCoherent history)
    (hreads : ∀ number, state.reads.lookup number = none → next.reads.lookup number = none)
    (hremoval : state.removal? action next = none) :
    next.ReadsCoherent (state.recordReads action next history) := by
  rw [recordReads, new_read?_eq_none hreads, hremoval]
  exact h

/-- Every step of a lookup. -/
theorem LookupStep.coherent (hstep : state.LookupStep id lookup action next)
    (hlookup : state.lookups.lookup id = some lookup) (h : state.ReadsCoherent history) :
    next.ReadsCoherent (state.recordReads action next history) := by
  cases hstep with
  | idle =>
      exact h.unrecorded (fun _ hnone => hnone) (removal?_eq_none rfl)
  | moved _ phase hread hinitializing hhit =>
      refine ReadsCoherent.unrecorded ?_ (fun _ hnone => hnone) (removal?_eq_none rfl)
      refine h.of_lookup (fun number hnumber => ?_) fun number hnumber => ?_
      · rcases hread with hnone | hsame
        · rw [hnone] at hnumber
          cases hnumber
        · exact h.traced.known id lookup number hlookup (hsame ▸ hnumber)
      · exact (hinitializing number hnumber).imp_left fun hbefore => ⟨lookup, hlookup, hbefore⟩
  | joined _ entry number hphase hentry hshared hheld =>
      refine ReadsCoherent.unrecorded ?_ (fun _ hnone => hnone) (removal?_eq_none rfl)
      refine h.of_lookup (fun other hother => ?_) nofun
      cases hother
      exact h.traced.joined (view?_of_entry hentry) hshared
  | made entry fresh disk hphase hentry hunheld hfresh hdisk =>
      exact h.made hlookup hentry hunheld hfresh hdisk rfl
  | resolved _ number read result hphase hread hresult =>
      refine (h.resolved hlookup hphase hread result).unrecorded (fun other hnone => ?_)
        (removal?_eq_none rfl)
      · refine (FiniteMap.lookup_insert_eq _ _ _ _).trans ((if_neg ?_).trans hnone)
        rintro rfl
        rw [hread] at hnone
        cases hnone
  | removed number read entry disk hphase hread hentry hshared hdisk =>
      exact h.removes hlookup hphase hread hentry hshared hdisk rfl

/-- Every step keeps the reads coherent with the history. -/
theorem step_coherent (h : state.ReadsCoherent history) (hstep : state.step action = .ok next) :
    next.ReadsCoherent (state.recordReads action next history) := by
  have hcases := (step_cases h.orderly action).of_ok hstep
  have horderly := hcases.orderly h.orderly
  cases hcases with
  | idle =>
      exact h.unrecorded (fun _ hnone => hnone) (removal?_eq_none rfl)
  | started _ id task hid hnew hsmall hphase hwrite =>
      refine ReadsCoherent.unrecorded ?_ (fun _ hnone => hnone) (removal?_eq_none rfl)
      exact h.of_renewal horderly rfl rfl fun _ => ⟨0, rfl, .kept rfl⟩
  | task _ id task _ hid htask htaskStep =>
      obtain ⟨hlookups, hreads, hshard, hfile⟩ := htaskStep.unread
      refine ReadsCoherent.unrecorded ?_ (fun _ hnone => hreads ▸ hnone)
        (removal?_eq_none (by rw [hshard]))
      refine h.of_renewal horderly hlookups hreads fun key => ⟨0, ?_, .kept (by rw [hshard])⟩
      rw [ShardState.generation, hfile]
      rfl
  | got id key phase hnew hread hinitializing hhit =>
      refine ReadsCoherent.unrecorded ?_ (fun _ hnone => hnone) (removal?_eq_none rfl)
      refine h.of_lookup (fun number hnumber => ?_) fun number hnumber => ?_
      · dsimp only at hnumber
        rw [hread] at hnumber
        cases hnumber
      · dsimp only at hnumber
        rw [hinitializing] at hnumber
        cases hnumber
  | lookup _ id lookup _ hid hlookup hlookupStep => exact hlookupStep.coherent hlookup h
  | shard below disk hinternal hdisk =>
      refine ReadsCoherent.unrecorded ?_ (fun _ hnone => hnone) rfl
      refine h.of_renewal horderly rfl rfl fun key => ShardState.step_renewal ?_ hdisk key
      rintro key read rfl
      cases hinternal

/-! ## Every run -/

/-- What the readers of a cache can rely on. -/
structure SharedReads (state : CacheState context) (history : ReadHistory) : Prop where
  /-- A removed entry was of the generation that the failed read was made for, and of the payload
  that it read. -/
  removed : ∀ removal ∈ history.removals, ∃ read,
    state.reads.lookup removal.read = some read ∧ read.Reads removal.entry ∧
      history.made.lookup removal.read = some removal.generation ∧
      read.result = some (.error .checksumFailed)
  once : (history.removals.map Removal.read).Nodup
  /-- A live read was made for a generation of the lookup's key. -/
  made : ∀ id lookup number, state.lookups.lookup id = some lookup →
    lookup.phase.read? = some number →
      ∃ generation, history.made.lookup number = some generation ∧ generation.key = lookup.key
  /-- Live reads of one generation are one read. -/
  shared : ∀ id lookup number other otherLookup otherNumber generation,
    state.lookups.lookup id = some lookup → lookup.phase.read? = some number →
    state.lookups.lookup other = some otherLookup → otherLookup.phase.read? = some otherNumber →
      history.made.lookup number = some generation →
        history.made.lookup otherNumber = some generation → number = otherNumber
  /-- A lookup that waits gets the result if there is one. If there is none it can start the read
  itself, unless another lookup has. -/
  waiting : ∀ id lookup number, state.lookups.lookup id = some lookup →
    lookup.phase = .waiting number → ∃ read, state.reads.lookup number = some read ∧
      (∀ result, read.result = some result →
        state.step (.deliver id) = .ok (state.setLookup id lookup (.ofResult result))) ∧
      (read.result = none →
        state.step (.startRead id) = .ok (state.setLookup id lookup (.admitting number)) ∨
        ∃ other otherLookup, other ≠ id ∧ state.lookups.lookup other = some otherLookup ∧
          otherLookup.phase.initializing? = some number)

/-- What a lookup that waits can do next. -/
theorem waiting_cases (hlookup : state.lookups.lookup id = some lookup) {number : Nat}
    (hphase : lookup.phase = .waiting number) {read : PayloadRead}
    (hread : state.reads.lookup number = some read) :
    (∀ result, read.result = some result →
      state.step (.deliver id) = .ok (state.setLookup id lookup (.ofResult result))) ∧
    (read.result = none →
      state.step (.startRead id) = .ok (state.setLookup id lookup (.admitting number)) ∨
      ∃ other otherLookup, other ≠ id ∧ state.lookups.lookup other = some otherLookup ∧
        otherLookup.phase.initializing? = some number) := by
  refine ⟨fun result hresult => ?_, fun hresult => ?_⟩
  · show state.readerStep id (.deliver id) = _
    simp only [readerStep, hlookup, lookupStep, hphase, hread, Option.bind_some, hresult]
  · cases hinitializing : state.initializing number with
    | false =>
        refine .inl ?_
        show state.readerStep id (.startRead id) = _
        simp [readerStep, hlookup, lookupStep, hphase, hread, hresult, hinitializing]
    | true =>
        obtain ⟨other, otherLookup, hother, hinit⟩ := initializing_iff.mp hinitializing
        refine .inr ⟨other, otherLookup, ?_, hother, hinit⟩
        rintro rfl
        rw [hlookup, Option.some.injEq] at hother
        subst hother
        rw [hphase] at hinit
        cases hinit

/-- Coherent reads are shared as they should be. -/
theorem ReadsCoherent.shared_reads (h : state.ReadsCoherent history) :
    state.SharedReads history where
  removed := h.removed.removed
  once := h.removed.once
  made id lookup number hlookup hread := by
    obtain ⟨-, generation, -, hmade⟩ := (h.traced.known id lookup number hlookup hread).made
    exact ⟨generation, hmade⟩
  shared id lookup number other otherLookup otherNumber generation hlookup hread :=
    (h.traced.known id lookup number hlookup hread).shared other otherLookup otherNumber generation
  waiting id lookup number hlookup hphase := by
    have hheld : lookup.phase.read? = some number := by rw [hphase]; rfl
    obtain ⟨read, -, hread, -⟩ := (h.traced.known id lookup number hlookup hheld).made
    exact ⟨read, hread, waiting_cases hlookup hphase hread⟩

/-- An entry that disappears when a lookup has found a wrong checksum is the recorded one. -/
theorem removal?_of_removed (h : state.Orderly) {key : ObjectKeyHash} {entry : DiskEntry}
    (hstep : state.step (.removeFailed id) = .ok next)
    (hentry : state.disk.shard.entryIndex.entriesByKey.lookup key = some entry)
    (hgone : next.disk.shard.entryIndex.entriesByKey.lookup key = none) :
    ∃ number, state.removal? (.removeFailed id) next =
      some ⟨number, state.generation key, entry⟩ := by
  have hsame : next.disk ≠ state.disk := by
    intro heq
    rw [heq, hentry] at hgone
    cases hgone
  have hcases := (step_cases h (.removeFailed id)).of_ok hstep
  cases hcases with
  | idle => exact absurd rfl hsame
  | started => exact absurd rfl hsame
  | task _ _ _ _ hid => cases hid
  | lookup _ _ lookup _ hid hlookup hlookupStep =>
      cases hid
      cases hlookupStep with
      | idle => exact absurd rfl hsame
      | moved => exact absurd rfl hsame
      | joined => exact absurd rfl hsame
      | resolved => exact absurd rfl hsame
      | removed number read found disk hphase hread hfound hshared hdisk =>
          obtain ⟨shard, hshard, hdisk⟩ := bind_eq_ok.mp hdisk
          cases hdisk
          have hkey : key = lookup.key := by
            by_contra hne
            have hviews := DiskCacheShard.remove_entry_view hshard key
            change shard.entryIndex.entriesByKey.lookup key = none at hgone
            rw [if_neg hne, DiskEntryIndex.view?, DiskEntryIndex.view?, hgone, hentry] at hviews
            cases hviews
          subst hkey
          rw [hfound, Option.some.injEq] at hentry
          subst hentry
          refine ⟨number, ?_⟩
          rw [removal?_of_entry hlookup (by rw [hphase]; rfl) hfound, hgone]
          rfl

/-- A lookup that falls through or is dropped sets no result. -/
theorem leaves_results (haction : action = .fallThrough id ∨ action = .cancelLookup id)
    (hstep : state.step action = .ok next) : next.reads = state.reads ∧ next.disk = state.disk := by
  have hreader : state.readerStep id action = .ok next := by
    rcases haction with rfl | rfl <;> exact hstep
  unfold readerStep at hreader
  split at hreader
  next lookup hlookup =>
    rcases haction with rfl | rfl
    all_goals
      cases hphase : lookup.phase <;> simp only [lookupStep, hphase] at hreader <;>
        cases hreader <;> exact ⟨rfl, rfl⟩
  next =>
    cases hreader
    exact ⟨rfl, rfl⟩

/-- In every run of a recovered shard, whatever its readers and writers do: a failed checksum
removes an entry only if the entry is of the generation that was read, and a read removes at most
one. All live readers of a generation share one read. A reader that falls through or is dropped
leaves every result as it is, and a reader that waits gets the result or can start the read. -/
theorem run_shared_reads (context : ShardContext) {read : ChunkReader} {shard : DiskCacheShard}
    (hshard : DiskCacheShard.recoverShard context read = .ok shard) (disk : Disk)
    (actions : List (CacheAction context)) (state : CacheState context)
    (hrun : run step (opened shard ⟨disk, []⟩) actions = .ok state) :
    state.SharedReads (readHistory (opened shard ⟨disk, []⟩) actions) ∧
    (∀ id next key entry, state.step (.removeFailed id) = .ok next →
      state.disk.shard.entryIndex.entriesByKey.lookup key = some entry →
      next.disk.shard.entryIndex.entriesByKey.lookup key = none →
        ∃ number, state.removal? (.removeFailed id) next =
          some ⟨number, state.generation key, entry⟩) ∧
    ∀ action id next, action = .fallThrough id ∨ action = .cancelLookup id →
      state.step action = .ok next → next.reads = state.reads ∧ next.disk = state.disk := by
  have hopened : (opened shard ⟨disk, []⟩ : CacheState context).ReadsCoherent ⟨∅, []⟩ := by
    refine ⟨.opened shard _, ⟨?_, fun key view number hview hshared => ?_, ?_⟩, ⟨?_, ?_⟩, ⟨?_, ?_⟩⟩
    · simp [opened]
    · rw [DiskCacheShard.recover_shard_unread hshard key view hview] at hshared
      cases hshared
    all_goals simp [opened]
  have hcoherent := observe_invariant (fun state history => state.ReadsCoherent history)
    (fun _ => True) (fun _ _ _ _ h _ hstep => step_coherent h hstep) hopened
    (fun _ _ => trivial) hrun
  exact ⟨hcoherent.shared_reads, fun id next key entry hstep hentry hgone =>
    removal?_of_removed hcoherent.orderly hstep hentry hgone, fun action id next => leaves_results⟩

/-- Two lookups share the read of a flushed write, which returns other bytes. -/
def failedReads : List (CacheAction .tiny) :=
  twoWrites ++ flushActions 2 0 0 ++ readActions 0 3 0 ++
    [.get 1 3, .lookupIndex 1 1, .read 0 (some ([8], 1))]

/-- The first of the two lookups is about to remove the entry, and the other waits for it. -/
theorem run_failed_reads :
    ∃ shard, ∃ state next : CacheState .tiny, ∃ entry,
      DiskCacheShard.recoverShard .tiny zeroReader = .ok shard ∧
      run step (opened shard ⟨fun _ => Page.zero, []⟩) failedReads = .ok state ∧
      state.lookups.lookup 0 = some ⟨3, .removing 0⟩ ∧
      state.lookups.lookup 1 = some ⟨3, .waiting 0⟩ ∧
      state.disk.shard.entryIndex.entriesByKey.lookup 3 = some entry ∧
      state.step (.removeFailed 0) = .ok next ∧
      next.disk.shard.entryIndex.entriesByKey.lookup 3 = none := by
  obtain ⟨shard, flushed, entry, hshard, -, hrun, hflushed, hentry, hlength, hchecksum⟩ :=
    run_flushed_read
  let reading := flushed.reading 0 3 0 entry
  have hindexed : reading.disk.shard.entryIndex.entriesByKey.lookup 3 =
      some { entry with sharedRead := some 0 } := by
    show (flushed.disk.shard.shareRead 3 0).entryIndex.entriesByKey.lookup 3 = _
    rw [DiskCacheShard.shareRead, hentry]
    exact Finmap.lookup_insert _
  have hunbuffered : reading.smallEntryBuffer.get 3 = none := by
    show flushed.smallEntryBuffer.get 3 = none
    rw [hflushed.buffer]
    rfl
  -- The second lookup joins the read that the first one holds.
  let second := { reading with lookups := reading.lookups.insert 1 ⟨3, .checkingIndex⟩ }
  have hget : reading.step (.get 1 3) = .ok second :=
    step_get (Finmap.lookup_insert_of_ne _ Nat.one_ne_zero) hunbuffered
  have hheld : second.held 0 = true := by
    refine held_iff.mpr ⟨0, ⟨3, .reading 0⟩, ?_, rfl⟩
    exact (Finmap.lookup_insert_of_ne _ Nat.zero_ne_one).trans (Finmap.lookup_insert _)
  let joined := second.setLookup 1 ⟨3, .checkingIndex⟩ (.waiting 0)
  have hjoin : second.step (.lookupIndex 1 1) = .ok joined := by
    simp only [step, readerStep, second, Finmap.lookup_insert, lookupStep]
    exact lookup_index_join hindexed rfl hheld
  have hfirst : joined.lookups.lookup 0 = some ⟨3, .reading 0⟩ := by
    rw [show joined.lookups = (second.lookups.insert 1 ⟨3, .waiting 0⟩) from rfl]
    rw [Finmap.lookup_insert_of_ne _ Nat.zero_ne_one]
    exact (Finmap.lookup_insert_of_ne _ Nat.zero_ne_one).trans (Finmap.lookup_insert _)
  -- The checksum of the bytes is 8, and that of the entry is 7.
  have hread := @step_read _ joined 0 3 0 1 _ [8] hfirst (Finmap.lookup_insert _) hlength.symm
  have hdiffers : ShardContext.tiny.hash [8] ≠ entry.payloadChecksum := by
    rw [hchecksum]
    decide
  rw [if_neg hdiffers] at hread
  let removing := joined.setLookup 0 ⟨3, .reading 0⟩ (.removing 0)
  obtain ⟨after, hremove, -, -, hplacement, -⟩ := DiskCacheShard.remove_entry_spec
    ((ShardState.step_spec hflushed.consistent (.share 3 0)).of_ok rfl).1.shard 3
  have hfailed := @step_remove_failed _ removing 0 3 0 _ _ after (Finmap.lookup_insert _)
    (Finmap.lookup_insert _) hindexed rfl hremove
  refine ⟨shard, removing, _, _, hshard, ?_, Finmap.lookup_insert _, ?_, hindexed, hfailed, ?_⟩
  · rw [failedReads, run_append, hrun, ok_bind, run, hget, ok_bind, run, hjoin, ok_bind, run, hread,
      ok_bind, run]
  · exact (Finmap.lookup_insert_of_ne _ Nat.one_ne_zero).trans (Finmap.lookup_insert _)
  · exact DiskEntryIndex.placement?_eq_none.mp ((hplacement 3).trans (if_pos rfl))

/-- Two readers share a read whose checksum fails, and one entry is removed. -/
theorem run_shared_reads_removed :
    ∃ shard, ∃ state next : CacheState .tiny, ∃ entry number,
      DiskCacheShard.recoverShard .tiny zeroReader = .ok shard ∧
      run step (opened shard ⟨fun _ => Page.zero, []⟩) failedReads = .ok state ∧
      state.lookups.lookup 0 = some ⟨3, .removing 0⟩ ∧
      state.lookups.lookup 1 = some ⟨3, .waiting 0⟩ ∧
      state.disk.shard.entryIndex.entriesByKey.lookup 3 = some entry ∧
      state.step (.removeFailed 0) = .ok next ∧
      state.removal? (.removeFailed 0) next = some ⟨number, state.generation 3, entry⟩ ∧
      state.SharedReads (readHistory (opened shard ⟨fun _ => Page.zero, []⟩) failedReads) := by
  obtain ⟨shard, state, next, entry, hshard, hrun, hfirst, hsecond, hentry, hstep, hgone⟩ :=
    run_failed_reads
  obtain ⟨hshared, hremoved, -⟩ := run_shared_reads .tiny hshard _ _ state hrun
  obtain ⟨number, hremoval⟩ := hremoved 0 next 3 entry hstep hentry hgone
  exact ⟨shard, state, next, entry, number, hshard, hrun, hfirst, hsecond, hentry, hstep, hremoval,
    hshared⟩

end CacheState

end Feuer.Storage
