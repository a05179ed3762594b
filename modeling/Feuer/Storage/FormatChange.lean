import Feuer.Lib.WriteCache
import Feuer.Storage.FileHeader

/-!
# Opening a file for another payload version or capacity

`clear_incompatible_metadata`, after `header.rs`, over any sequence of opens and the sessions that
follow them. A file that is killed with its process keeps every issued write; losing power keeps any
part of the page writes issued since the last successful `sync_all`.

An open for a format whose header is on file clears nothing. It may do so if the shard heads of that
layout have only been written by sessions of the same format (`OwnHeads`). The header is written
after the heads are cleared and synced, and synced itself before a session starts, but an open that
finds a header which was written and not synced does not sync it. If such a header is lost and the
pages of the session that relied on it are not, an older header is in front of newer metadata
(`FormatState.unsynced_header_lost`). `FormatState.run_keeps_own_heads` excludes this loss only.
-/

namespace Feuer.Storage

open Lib

/-! ## Pages and heads -/

/-- A page of the file, and the format of the session that wrote it. Zeros and headers are not
written by sessions. -/
structure FilePage where
  bytes : Page
  session : Option CacheFormat

def FilePage.zero : FilePage := ⟨Page.zero, none⟩

namespace CacheFormat

/-- The pages of the first chunk of a shard. -/
def headPages (format : CacheFormat) (shard : Nat) : List Nat :=
  (List.range pagesPerChunk).map fun index =>
    (format.geometry.shardChunks shard).start * pagesPerChunk + index

/-- The page is in the first chunk of a shard. -/
def IsHead (format : CacheFormat) (page : Nat) : Prop :=
  ∃ shard < format.geometry.numShards, page ∈ format.headPages shard

instance (format : CacheFormat) (page : Nat) : Decidable (format.IsHead page) :=
  inferInstanceAs (Decidable (∃ shard < format.geometry.numShards, page ∈ format.headPages shard))

theorem ne_zero_of_mem_head_pages {format : CacheFormat} {shard page : Nat}
    (h : page ∈ format.headPages shard) : page ≠ 0 := by
  simp only [headPages, List.mem_map] at h
  obtain ⟨index, -, rfl⟩ := h
  have := format.geometry.shard_chunks_start_pos shard
  simp only [pagesPerChunk]
  omega

theorem IsHead.ne_zero {format : CacheFormat} {page : Nat} (h : format.IsHead page) : page ≠ 0 := by
  obtain ⟨shard, -, hpage⟩ := h
  exact ne_zero_of_mem_head_pages hpage

end CacheFormat

/-- The shard heads of a layout are zero or written by sessions of its format. -/
def OwnHeads (format : CacheFormat) (pages : Nat → FilePage) : Prop :=
  ∀ page, format.IsHead page → (pages page).bytes = Page.zero ∨ (pages page).session = some format

/-- The shard heads of a layout are zero. -/
def ZeroHeads (format : CacheFormat) (pages : Nat → FilePage) : Prop :=
  ∀ page, format.IsHead page → (pages page).bytes = Page.zero

/-! ## The system -/

/-- Where the process that has the file open is. -/
inductive OpenPhase where
  | closed
  /-- Reads the header. -/
  | reading (format : CacheFormat)
  /-- Clears the head of a shard. -/
  | clearing (format : CacheFormat) (shard : Nat)
  | syncingHeads (format : CacheFormat)
  | writingHeader (format : CacheFormat)
  | syncingHeader (format : CacheFormat)
  /-- The cache is open. -/
  | running (format : CacheFormat)
  deriving DecidableEq

/-- The file, and the process that has it open. -/
structure FormatState where
  file : WriteCache Nat FilePage
  phase : OpenPhase

/-- What can happen. -/
inductive FormatAction where
  /-- `DiskCache::open`. -/
  | openCache (format : CacheFormat)
  /-- The next step of the open succeeds. -/
  | proceed
  /-- The next step fails or the process is killed in it. Its writes of some pages were issued. -/
  | fail (persisted : List Nat)
  /-- The session writes a page behind the header chunk. -/
  | write (page : Nat) (bytes : Page)
  /-- Power is lost, and the pending writes at these positions with it. -/
  | losePower (lost : List Nat)

/-- `set_len`: pages behind the end are gone. -/
def setLen (file : WriteCache Nat FilePage) (capacity : Nat) : WriteCache Nat FilePage where
  durable page := if page * pageBytes < capacity then file.durable page else FilePage.zero
  pending := file.pending.filter fun write => write.1 * pageBytes < capacity

/-- The pending writes that survive a loss of power. -/
def survivors (file : WriteCache Nat FilePage) (lost : List Nat) : List (Nat × FilePage) :=
  (file.pending.zipIdx.filter fun write => write.2 ∉ lost).map Prod.fst

namespace FormatState

/-- An empty file. -/
def empty : FormatState := ⟨⟨fun _ => FilePage.zero, []⟩, .closed⟩

/-- The page writes of the next step of an open. -/
def stepWrites (hash : List UInt8 → UInt64) : OpenPhase → List (Nat × FilePage)
  | .clearing format shard => (format.headPages shard).map fun page => (page, FilePage.zero)
  | .writingHeader format => [(0, ⟨encodeHeader hash format, none⟩)]
  | _ => []

/-- The next step of an open succeeds. -/
def proceed (hash : List UInt8 → UInt64) (state : FormatState) : FormatState :=
  match state.phase with
  | .reading format =>
      if HeaderMatches hash (state.file.contents 0).bytes format then
        { state with phase := .running format }
      else { state with phase := .clearing format 0 }
  | .clearing format shard =>
      { file := state.file.issue (stepWrites hash state.phase)
        phase := if shard + 1 < format.geometry.numShards then .clearing format (shard + 1)
          else .syncingHeads format }
  | .syncingHeads format => { file := state.file.sync, phase := .writingHeader format }
  | .writingHeader format =>
      { file := state.file.issue (stepWrites hash state.phase), phase := .syncingHeader format }
  | .syncingHeader format => { file := state.file.sync, phase := .running format }
  | .running _ | .closed => state

/-- `DiskCache::open` starts. The lock file admits one process at a time. -/
def openCache (state : FormatState) (format : CacheFormat) : FormatState :=
  match state.phase with
  | .closed => { file := setLen state.file format.geometry.capacity, phase := .reading format }
  | _ => state

/-- A session writes a page of its file behind the header chunk. -/
def writePage (state : FormatState) (page : Nat) (bytes : Page) : FormatState :=
  match state.phase with
  | .running format =>
      if pagesPerChunk ≤ page ∧ page * pageBytes < format.geometry.capacity then
        { state with file := state.file.issue [(page, ⟨bytes, some format⟩)] }
      else state
  | _ => state

/-- One step. -/
def step (hash : List UInt8 → UInt64) (state : FormatState) : FormatAction → FormatState
  | .openCache format => state.openCache format
  | .proceed => state.proceed hash
  | .fail persisted =>
      { file := state.file.issue
          ((stepWrites hash state.phase).filter fun write => write.1 ∈ persisted)
        phase := .closed }
  | .write page bytes => state.writePage page bytes
  | .losePower lost =>
      { file := state.file.losePower (survivors state.file lost), phase := .closed }

def run (hash : List UInt8 → UInt64) : FormatState → List FormatAction → FormatState
  | state, [] => state
  | state, action :: rest => run hash (state.step hash action) rest

/-- A loss of power that loses an unsynced header loses, of the shard heads of the layout whose
header is durable, every page that a session has written since. -/
def SafeLoss (hash : List UInt8 → UInt64) (file : WriteCache Nat FilePage) (lost : List Nat) :
    Prop :=
  (∃ write ∈ file.pending, write.1 = 0) → (∀ write ∈ survivors file lost, write.1 ≠ 0) →
    ∀ write ∈ survivors file lost, write.2.session.isSome →
      ∀ format, HeaderMatches hash (file.durable 0).bytes format → ¬ format.IsHead write.1

/-- Every loss of power in the run is safe. -/
def Safe (hash : List UInt8 → UInt64) : FormatState → List FormatAction → Prop
  | _, [] => True
  | state, action :: rest =>
      (∀ lost, action = .losePower lost → SafeLoss hash state.file lost) ∧
        Safe hash (state.step hash action) rest

end FormatState

/-! ## What survives -/

theorem survivors_subset {file : WriteCache Nat FilePage} {lost : List Nat}
    {write : Nat × FilePage} (h : write ∈ survivors file lost) : write ∈ file.pending := by
  simp only [survivors, List.mem_map, List.mem_filter] at h
  obtain ⟨⟨found, index⟩, ⟨hfound, -⟩, rfl⟩ := h
  exact List.fst_mem_of_mem_zipIdx hfound

/-- The header in front of a file covers what is behind it, however much of it is lost. -/
structure Covered (hash : List UInt8 → UInt64) (file : WriteCache Nat FilePage) : Prop where
  /-- What is durable is covered by the durable header. -/
  durable : ∀ format, HeaderMatches hash (file.durable 0).bytes format →
    OwnHeads format file.durable
  /-- Sessions write while their header is in place. -/
  pages : ∀ write ∈ file.pending, write.1 ≠ 0 → write.2.bytes = Page.zero ∨
    ∃ format, write.2.session = some format ∧ HeaderMatches hash (file.contents 0).bytes format
  /-- A pending header is the one in place, and was written in front of cleared heads. -/
  header : ∀ write ∈ file.pending, write.1 = 0 → write.2 = file.contents 0 ∧
    ∀ format, HeaderMatches hash write.2.bytes format → ZeroHeads format file.durable

namespace Covered

variable {hash : List UInt8 → UInt64} {file : WriteCache Nat FilePage}

/-- Without a pending header the durable one is in place. -/
theorem contents_header (hnone : ∀ write ∈ file.pending, write.1 ≠ 0) :
    file.contents 0 = file.durable 0 :=
  replay_of_ne hnone

/-- A store of durable pages and any part of the pending ones keeps its heads to its header, if
this header is in place. -/
theorem own_of_header (h : Covered hash file) {kept : List (Nat × FilePage)}
    (hkept : ∀ write ∈ kept, write ∈ file.pending) {format : CacheFormat}
    (hformat : HeaderMatches hash (file.contents 0).bytes format) :
    OwnHeads format (replay kept file.durable) := by
  intro page hpage
  refine replay_induct
    (P := fun found : FilePage => found.bytes = Page.zero ∨ found.session = some format) ?_ ?_
  · by_cases hpending : ∃ write ∈ file.pending, write.1 = 0
    · obtain ⟨write, hwrite, hzero⟩ := hpending
      obtain ⟨hcontents, hheads⟩ := h.header write hwrite hzero
      exact .inl (hheads format (hcontents ▸ hformat) page hpage)
    · rw [contents_header fun write hwrite hzero => hpending ⟨write, hwrite, hzero⟩] at hformat
      exact h.durable format hformat page hpage
  · rintro write hwrite rfl
    rcases h.pages write (hkept write hwrite) hpage.ne_zero with hzero | ⟨other, hsession, hother⟩
    · exact .inl hzero
    · exact .inr (hsession.trans (congrArg some (hother.unique hformat)))

/-- What an open reads is covered by the header that it reads. -/
theorem contents_own (h : Covered hash file) {format : CacheFormat}
    (hformat : HeaderMatches hash (file.contents 0).bytes format) :
    OwnHeads format file.contents :=
  h.own_of_header (fun _ hwrite => hwrite) hformat

/-- A sync makes what was written durable. -/
theorem sync (h : Covered hash file) : Covered hash file.sync where
  durable _ hformat := h.contents_own hformat
  pages := nofun
  header := nofun

/-- A safe loss of power leaves a covered file. -/
theorem lose_power (h : Covered hash file) {lost : List Nat}
    (hsafe : FormatState.SafeLoss hash file lost) :
    Covered hash (file.losePower (survivors file lost)) where
  durable := by
    intro format hformat
    by_cases hkept : ∃ write ∈ survivors file lost, write.1 = 0
    · -- The header survives, and it is the one in place.
      obtain ⟨⟨_, found⟩, hwrite, rfl⟩ := hkept
      have hcurrent : (0, file.contents 0) ∈ survivors file lost := by
        rw [← (h.header _ (survivors_subset hwrite) rfl).1]
        exact hwrite
      have hheader : replay (survivors file lost) file.durable 0 = file.contents 0 :=
        replay_of_mem hcurrent fun write hmem heq => (h.header write (survivors_subset hmem) heq).1
      exact h.own_of_header (fun _ => survivors_subset) (hheader ▸ hformat)
    · have hlost : ∀ write ∈ survivors file lost, write.1 ≠ 0 := fun write hwrite heq =>
        hkept ⟨write, hwrite, heq⟩
      have hheader : replay (survivors file lost) file.durable 0 = file.durable 0 :=
        replay_of_ne hlost
      replace hformat : HeaderMatches hash (file.durable 0).bytes format := hheader ▸ hformat
      by_cases hpending : ∃ write ∈ file.pending, write.1 = 0
      · -- It is lost, and the durable one is in place again.
        intro page hpage
        refine replay_induct
          (P := fun found : FilePage => found.bytes = Page.zero ∨ found.session = some format)
          (h.durable format hformat page hpage) ?_
        rintro write hwrite rfl
        rcases h.pages write (survivors_subset hwrite) hpage.ne_zero with
          hzero | ⟨other, hsession, -⟩
        · exact .inl hzero
        · exact absurd hpage
            (hsafe hpending hlost write hwrite (by rw [hsession]; rfl) format hformat)
      · rw [← contents_header fun write hwrite heq => hpending ⟨write, hwrite, heq⟩] at hformat
        exact h.own_of_header (fun _ => survivors_subset) hformat
  pages := nofun
  header := nofun

/-- Pages behind the header are cleared, or written by a session whose header is in place. -/
theorem issue (h : Covered hash file) {writes : List (Nat × FilePage)}
    (hwrites : ∀ write ∈ writes, write.1 ≠ 0 ∧ (write.2.bytes = Page.zero ∨
      ∃ format, write.2.session = some format ∧
        HeaderMatches hash (file.contents 0).bytes format)) :
    Covered hash (file.issue writes) := by
  have hcontents : (file.issue writes).contents 0 = file.contents 0 := by
    rw [WriteCache.contents_issue]
    exact replay_of_ne fun write hwrite => (hwrites write hwrite).1
  constructor
  · exact h.durable
  · rw [hcontents]
    intro write hwrite hne
    rcases List.mem_append.mp hwrite with hold | hnew
    · exact h.pages write hold hne
    · exact (hwrites write hnew).2
  · rw [hcontents]
    intro write hwrite heq
    rcases List.mem_append.mp hwrite with hold | hnew
    · exact h.header write hold heq
    · exact absurd heq (hwrites write hnew).1

/-- A header is written in front of cleared heads. -/
theorem issue_header (h : Covered hash file) (hpending : file.pending = []) {format : CacheFormat}
    (hheads : ZeroHeads format file.durable) :
    Covered hash (file.issue [(0, ⟨encodeHeader hash format, none⟩)]) where
  durable := h.durable
  pages := by
    intro write hwrite hne
    simp only [WriteCache.issue, hpending, List.nil_append, List.mem_singleton] at hwrite
    exact absurd (by rw [hwrite]) hne
  header := by
    intro write hwrite _
    simp only [WriteCache.issue, hpending, List.nil_append, List.mem_singleton] at hwrite
    subst hwrite
    refine ⟨?_, fun other hother => ?_⟩
    · simp only [WriteCache.contents_issue, replay, Function.update_self]
    · cases (header_matches_encode hash format).unique hother
      exact hheads

/-- Setting the length of the file keeps the heads. -/
theorem set_len (h : Covered hash file) {capacity : Nat} (hcapacity : 0 < capacity) :
    Covered hash (Storage.setLen file capacity) := by
  have hheader : (Storage.setLen file capacity).durable 0 = file.durable 0 := by
    simp [Storage.setLen, hcapacity]
  have hcontents : (Storage.setLen file capacity).contents 0 = file.contents 0 :=
    replay_filter hheader fun write _ heq => by simpa [heq] using hcapacity
  constructor
  · rw [hheader]
    intro format hformat page hpage
    simp only [Storage.setLen]
    split
    · exact h.durable format hformat page hpage
    · exact .inl rfl
  · rw [hcontents]
    intro write hwrite hne
    exact h.pages write (List.mem_of_mem_filter hwrite) hne
  · rw [hcontents]
    intro write hwrite heq
    obtain ⟨hcurrent, hheads⟩ := h.header write (List.mem_of_mem_filter hwrite) heq
    refine ⟨hcurrent, fun format hformat page hpage => ?_⟩
    simp only [Storage.setLen]
    split
    · exact hheads format hformat page hpage
    · rfl

end Covered

namespace FormatState

variable {hash : List UInt8 → UInt64} {state : FormatState}

/-- What the phase of an open says about the file. -/
def PhaseHolds (hash : List UInt8 → UInt64) (file : WriteCache Nat FilePage) : OpenPhase → Prop
  | .clearing format shard => ∀ cleared < shard, ∀ page ∈ format.headPages cleared,
      (file.contents page).bytes = Page.zero
  | .syncingHeads format => ZeroHeads format file.contents
  | .writingHeader format => file.pending = [] ∧ ZeroHeads format file.durable
  | .syncingHeader format => HeaderMatches hash (file.contents 0).bytes format
  | .running format => HeaderMatches hash (file.contents 0).bytes format
  | .closed | .reading _ => True

/-- The invariant of every safe run. -/
structure Sound (hash : List UInt8 → UInt64) (state : FormatState) : Prop where
  covered : Covered hash state.file
  phase : PhaseHolds hash state.file state.phase

/-- An empty file is sound. -/
theorem sound_empty : Sound hash empty where
  covered := ⟨fun format hformat => absurd hformat (not_header_matches_zero format), nofun, nofun⟩
  phase := trivial

/-- Clearing the head of a shard leaves the heads before it cleared. -/
theorem cleared_heads {file : WriteCache Nat FilePage} {format : CacheFormat} {shard : Nat}
    (h : PhaseHolds hash file (.clearing format shard)) :
    PhaseHolds hash (file.issue (stepWrites hash (.clearing format shard)))
      (.clearing format (shard + 1)) := by
  intro cleared hlt page hpage
  have hzero : ∀ write ∈ stepWrites hash (.clearing format shard), write.2 = FilePage.zero := by
    intro write hwrite
    simp only [stepWrites, List.mem_map] at hwrite
    obtain ⟨_, -, rfl⟩ := hwrite
    rfl
  rw [WriteCache.contents_issue]
  rcases Nat.lt_succ_iff_lt_or_eq.mp hlt with hbefore | rfl
  · exact replay_induct (P := fun found : FilePage => found.bytes = Page.zero)
      (h cleared hbefore page hpage) fun write hwrite _ => by rw [hzero write hwrite]; rfl
  · have hmem : (page, FilePage.zero) ∈ stepWrites hash (.clearing format cleared) :=
      List.mem_map_of_mem hpage
    rw [replay_of_mem hmem fun write hwrite _ => hzero write hwrite]
    rfl

/-- The steps of an open write zeros to shard heads, until it writes the header. -/
theorem Sound.issue_some (h : Sound hash state) (p : Nat × FilePage → Bool) :
    Covered hash (state.file.issue ((stepWrites hash state.phase).filter p)) := by
  have hnothing : Covered hash (state.file.issue []) := h.covered.issue nofun
  cases hphase : state.phase with
  | clearing format shard =>
      refine h.covered.issue fun write hwrite => ?_
      have hmem := List.mem_of_mem_filter hwrite
      simp only [stepWrites, List.mem_map] at hmem
      obtain ⟨page, hpage, rfl⟩ := hmem
      exact ⟨CacheFormat.ne_zero_of_mem_head_pages hpage, .inl rfl⟩
  | writingHeader format =>
      have hheads := h.phase
      rw [hphase] at hheads
      by_cases hp : p (0, ⟨encodeHeader hash format, none⟩)
      · simp only [stepWrites, List.filter_cons_of_pos hp, List.filter_nil]
        exact h.covered.issue_header hheads.1 hheads.2
      · simpa only [stepWrites, List.filter_cons_of_neg hp, List.filter_nil] using hnothing
  | closed => exact hnothing
  | reading format => exact hnothing
  | syncingHeads format => exact hnothing
  | syncingHeader format => exact hnothing
  | running format => exact hnothing

theorem Sound.issue_all (h : Sound hash state) :
    Covered hash (state.file.issue (stepWrites hash state.phase)) := by
  have hall := h.issue_some fun _ => true
  rwa [List.filter_eq_self.mpr fun _ _ => rfl] at hall

/-- The next step of an open keeps the state sound. -/
theorem Sound.proceed (h : Sound hash state) : Sound hash (state.proceed hash) := by
  have hissued := h.issue_all
  have hphase := h.phase
  unfold FormatState.proceed
  split
  next format heq =>
    split
    next hmatches => exact ⟨h.covered, hmatches⟩
    next => exact ⟨h.covered, nofun⟩
  next format shard heq =>
    rw [heq] at hissued hphase
    have hcleared := cleared_heads hphase
    rw [heq]
    refine ⟨hissued, ?_⟩
    simp only
    split
    next => exact hcleared
    next hlast =>
      rintro page ⟨cleared, hlt, hpage⟩
      exact hcleared cleared (by omega) page hpage
  next format heq =>
    rw [heq] at hphase
    exact ⟨h.covered.sync, rfl, hphase⟩
  next format heq =>
    rw [heq] at hissued hphase
    rw [heq]
    refine ⟨hissued, ?_⟩
    show HeaderMatches hash _ format
    simp only [stepWrites, WriteCache.contents_issue, replay, Function.update_self]
    exact header_matches_encode hash format
  next format heq =>
    rw [heq] at hphase
    exact ⟨h.covered.sync, hphase⟩
  next => exact h
  next => exact h

/-- An open begins. -/
theorem Sound.open_cache (h : Sound hash state) (format : CacheFormat) :
    Sound hash (state.openCache format) := by
  unfold FormatState.openCache
  split
  next =>
    have hcapacity : 0 < format.geometry.capacity :=
      Nat.lt_of_lt_of_le (by decide) format.geometry.minimum
    exact ⟨h.covered.set_len hcapacity, trivial⟩
  next => exact h

/-- A session writes a page of its own format. -/
theorem Sound.write_page (h : Sound hash state) (page : Nat) (bytes : Page) :
    Sound hash (state.writePage page bytes) := by
  unfold FormatState.writePage
  split
  next format heq =>
    have hphase := h.phase
    rw [heq] at hphase
    split
    next hpage =>
      have hne : page ≠ 0 := by
        have : 0 < pagesPerChunk := by decide
        omega
      have hwrites : ∀ write ∈ [(page, (⟨bytes, some format⟩ : FilePage))], write.1 ≠ 0 := by
        simpa using hne
      refine ⟨h.covered.issue fun write hwrite =>
        ⟨hwrites write hwrite, .inr ⟨format, ?_, hphase⟩⟩, ?_⟩
      · rw [List.mem_singleton.mp hwrite]
      · rw [heq]
        show HeaderMatches hash _ format
        rw [WriteCache.contents_issue, replay_of_ne hwrites]
        exact hphase
    next => exact h
  next => exact h

/-- Every action that is not an unsafe loss of power keeps the file covered. -/
theorem Sound.step (h : Sound hash state) {action : FormatAction}
    (hsafe : ∀ lost, action = .losePower lost → SafeLoss hash state.file lost) :
    Sound hash (state.step hash action) := by
  cases action with
  | openCache format => exact h.open_cache format
  | proceed => exact h.proceed
  | fail persisted => exact ⟨h.issue_some _, trivial⟩
  | write page bytes => exact h.write_page page bytes
  | losePower lost => exact ⟨h.covered.lose_power (hsafe lost rfl), trivial⟩

/-- Every run of safe actions keeps the state sound. -/
theorem Sound.run (h : Sound hash state) {actions : List FormatAction}
    (hsafe : Safe hash state actions) : Sound hash (state.run hash actions) := by
  induction actions generalizing state with
  | nil => exact h
  | cons action rest ih => exact ih (h.step hsafe.1) hsafe.2

/-- Whenever an open finds its header, in a run with safe losses of power, the shard heads of its
layout are zero or written by sessions of its payload version and capacity. -/
theorem run_keeps_own_heads (hash : List UInt8 → UInt64) (actions : List FormatAction)
    (hsafe : Safe hash empty actions) (format : CacheFormat)
    (hopen : (empty.run hash actions).phase = .reading format)
    (hfound : ((empty.run hash actions).proceed hash).phase = .running format) :
    OwnHeads format (empty.run hash actions).file.contents := by
  have hcovered := (sound_empty.run hsafe).covered
  unfold FormatState.proceed at hfound
  simp only [hopen] at hfound
  split at hfound
  next hmatches => exact hcovered.contents_own hmatches
  next => cases hfound

/-- The format of a file of two chunks. -/
def twoChunks (payloadVersion : UInt64) : CacheFormat :=
  ⟨payloadVersion, 2 * chunkBytes, by decide, by decide, by decide⟩

/-- A file is opened for version 1. An open for version 2 is killed between writing its header and
syncing it. The next one finds the header and starts a session, which writes a page. Power is lost
with some of the two writes, and the file is opened for version 1. -/
def interruptedUpgrade (lost : List Nat) : List FormatAction :=
  [.openCache (twoChunks 1), .proceed, .proceed, .proceed, .proceed, .proceed, .fail [],
    .openCache (twoChunks 2), .proceed, .proceed, .proceed, .proceed, .fail [],
    .openCache (twoChunks 2), .proceed, .write 256 (fun _ => 7), .losePower lost,
    .openCache (twoChunks 1)]

/-- Power is lost with the header and with the page. -/
theorem run_keeps_own_heads_interrupted : Safe (fun _ => 0) empty (interruptedUpgrade [0, 1]) ∧
    OwnHeads (twoChunks 1)
      (empty.run (fun _ => 0) (interruptedUpgrade [0, 1])).file.contents := by
  have hsafe : Safe (fun _ => 0) empty (interruptedUpgrade [0, 1]) := by
    simp only [interruptedUpgrade, Safe, reduceCtorEq, false_implies, implies_true, true_and,
      FormatAction.losePower.injEq, forall_eq', and_true]
    intro _ _ write hwrite
    have hnone : survivors (empty.run (fun _ => 0) ((interruptedUpgrade []).take 16)).file [0, 1] =
        [] := List.length_eq_zero_iff.mp (by decide +kernel)
    exact absurd (hnone ▸ hwrite) List.not_mem_nil
  exact ⟨hsafe, run_keeps_own_heads _ _ hsafe (twoChunks 1) (by decide +kernel) (by decide +kernel)⟩

/-- Power is lost with the header and without the page. An open for version 1 finds its header, and
a page of version 2 behind it. -/
theorem unsynced_header_lost :
    (empty.run (fun _ => 0) (interruptedUpgrade [0])).phase = .reading (twoChunks 1) ∧
    ((empty.run (fun _ => 0) (interruptedUpgrade [0])).proceed fun _ => 0).phase =
      .running (twoChunks 1) ∧
    ¬ OwnHeads (twoChunks 1) (empty.run (fun _ => 0) (interruptedUpgrade [0])).file.contents := by
  refine ⟨by decide +kernel, by decide +kernel, fun hown => ?_⟩
  have hpage :
      ((empty.run (fun _ => 0) (interruptedUpgrade [0])).file.contents 256).bytes.byte 0 = 7 ∧
      ((empty.run (fun _ => 0) (interruptedUpgrade [0])).file.contents 256).session =
        some (twoChunks 2) := by
    decide +kernel
  rcases hown 256 (by decide +kernel) with hzero | hsession
  · rw [hzero, Page.byte_zero] at hpage
    exact absurd hpage.1 (by decide)
  · rw [hpage.2] at hsession
    exact absurd hsession (by decide)

end FormatState

end Feuer.Storage
