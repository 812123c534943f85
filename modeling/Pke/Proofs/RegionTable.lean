import Pke.Proofs.ElfLoad

/-! # The region table of a process after `elf_load`

`elf_load` enters a segment at the first free entry of `mapped_info` and counts it in
`total_mapped_region`, always with one page. The search for a free entry ends behind the table when
the table is full, and a segment that does not start on a page boundary has two pages.
-/

namespace Pke.Proofs

open Pke.Lib Pke.Model

variable {σ : Type} {env : PageEnv σ} {trapSec : ℕ}

/-- The entries of the region table in use are the first `c`, and they are counted. -/
structure InUse (p : Process) (c : ℕ) : Prop where
  within : c ≤ REGION_SLOTS
  used : ∀ j < c, (p.regions j).va ≠ 0
  unused : ∀ j, c ≤ j → j < REGION_SLOTS → (p.regions j).va = 0
  total : p.totalMappedRegion = c

namespace InUse

variable {p : Process} {c : ℕ}

theorem freeRegion_eq (table : InUse p c) : freeRegion p.regions = c := by
  rw [freeRegion]
  rcases Nat.lt_or_eq_of_le table.within with room | full
  · have found : (List.range REGION_SLOTS).find? (fun j => decide ((p.regions j).va = 0)) = some c := by
      rw [List.find?_range_eq_some]
      refine ⟨decide_eq_true (table.unused c (le_refl c) room), List.mem_range.mpr room, fun j below => ?_⟩
      simpa using table.used j below
    rw [found]
    rfl
  · have missing : (List.range REGION_SLOTS).find? (fun j => decide ((p.regions j).va = 0)) = none := by
      rw [List.find?_range_eq_none]
      intro j below
      simpa using table.used j (by omega)
    rw [missing, full]
    rfl

private theorem register_here (table : InUse p c) (va : ℕ) (type : SegmentType) :
    (registerSegment va type p).regions c = ⟨va, 1, type⟩ := by
  change Function.update p.regions (freeRegion p.regions) _ c = _
  rw [table.freeRegion_eq, Function.update_self]

private theorem register_other (table : InUse p c) (va : ℕ) (type : SegmentType) {j : ℕ} (other : j ≠ c) :
    (registerSegment va type p).regions j = p.regions j := by
  change Function.update p.regions (freeRegion p.regions) _ j = _
  rw [table.freeRegion_eq, Function.update_of_ne other]

/-- Entering a segment takes the next entry. -/
theorem register (table : InUse p c) (room : c < REGION_SLOTS) {va : ℕ} (nonzero : va ≠ 0)
    (type : SegmentType) :
    InUse (registerSegment va type p) (c + 1) := by
  constructor
  · exact room
  · intro j below
    rcases Nat.lt_succ_iff_lt_or_eq.mp below with early | rfl
    · rw [table.register_other va type (by omega)]
      exact table.used j early
    · rw [table.register_here]
      exact nonzero
  · intro j above inside
    rw [table.register_other va type (by omega)]
    exact table.unused j (by omega) inside
  · exact congrArg (· + 1) table.total

/-- The number of entries in use. -/
theorem card (table : InUse p c) :
    ((Finset.range REGION_SLOTS).filter fun j => (p.regions j).va ≠ 0).card = c := by
  have entries : (Finset.range REGION_SLOTS).filter (fun j => (p.regions j).va ≠ 0) = Finset.range c := by
    ext j
    rw [Finset.mem_filter, Finset.mem_range, Finset.mem_range]
    constructor
    · rintro ⟨inside, used⟩
      by_contra above
      exact used (table.unused j (Nat.not_lt.mp above) inside)
    · intro below
      exact ⟨lt_of_lt_of_le below table.within, table.used j below⟩
  rw [entries, Finset.card_range]

end InUse

/-- A new process uses the entries of the fixed regions. -/
theorem NewProcess.inUse {p : Process} (fields : NewProcess p) : InUse p 4 := by
  obtain ⟨frame, image, low, low', regions⟩ := fields.regions
  constructor
  · decide
  · intro j below
    rw [regions]
    interval_cases j
    · exact Nat.ne_of_gt (show 0 < STACK_PAGE by decide)
    · exact Nat.ne_of_gt low
    · exact Nat.ne_of_gt low'
    · exact Nat.ne_of_gt (show 0 < USER_FREE_ADDRESS_START by decide)
  · intro j above inside
    rw [regions, Function.update_of_ne (by omega), Function.update_of_ne (by omega),
      Function.update_of_ne (by omega), Function.update_of_ne (by omega)]
    rfl
  · exact fields.total

section

variable {P : Pages env trapSec} {pid : ℕ} {file : HostFile} {ehdr : ElfHeader} {ph : ProgHeader}
  {k k' : Kernel σ} {own own' : Owner}

/-- A segment at address 0 is not loaded. -/
private theorem SegmentLoaded.vaddr_ne_zero {f : ℕ} (segment : SegmentLoaded P pid file ph f k own k' own') :
    ph.vaddr ≠ 0 := by
  intro zero
  have listed : (ROUNDDOWN ph.vaddr PGSIZE, f) ∈ segmentMappings ph.vaddr f :=
    mem_segmentMappings.mpr (Or.inl ⟨by rw [zero]; decide, rfl⟩)
  have low := (segment.maps.range _ listed).1
  rw [zero] at low
  exact Nat.lt_irrefl 0 low

/-- The entry that a segment is stored at is the first free one. -/
theorem Site.segmentSlot (site : Site P k (rootOf k pid) own) (word : ph.vaddr < WORD) {s : ℕ × MappedRegion}
    (stored : segmentSlot env pid file ph k = some s) :
    s = (freeRegion (k.procs pid).regions, (k.procs pid).regions (freeRegion (k.procs pid).regions)) := by
  rw [Model.segmentSlot] at stored
  by_cases large : ph.memsz < ph.filesz
  · rw [if_pos large] at stored
    cases stored
  by_cases wraps : (ph.vaddr + ph.memsz) % WORD < ph.vaddr
  · rw [if_neg large, if_pos wraps] at stored
    cases stored
  rw [if_neg large, if_neg wraps] at stored
  cases inner : Model.elfAllocMb env pid ph.vaddr ph.memsz k with
  | error e k₁ =>
    rw [inner] at stored
    cases stored
  | ok dest k₁ =>
    obtain ⟨f, own', _, _, _, _, _, _, _, _, keeps, _⟩ := (site.elfAllocMb word).of_ok inner
    simp only [inner, keeps.procs] at stored
    split_ifs at stored
    exact (Option.some.inj stored).symm

/-- A segment that is loaded is stored. -/
private theorem segmentSlot_of_load (call : loadSegment env pid file ph k = .ok none k') :
    ∃ s, segmentSlot env pid file ph k = some s := by
  obtain ⟨dest, k₁, type, filesz, inner, whole, _, _⟩ := loadSegment_none call
  rw [loadSegment] at call
  split_ifs at call with large wraps
  · cases call
  · cases call
  rw [segmentSlot, if_neg large, if_neg wraps, inner]
  exact ⟨_, if_neg (not_not.mpr whole)⟩

/-- Loading a segment takes the next entry of the region table. -/
theorem SegmentLoaded.takes_entry {f c : ℕ} (segment : SegmentLoaded P pid file ph f k own k' own')
    (table : InUse (k.procs pid) c) (room : c < REGION_SLOTS) : InUse (k'.procs pid) (c + 1) := by
  obtain ⟨⟨type, proc⟩, _⟩ := segment.registered
  rw [proc]
  exact table.register room segment.vaddr_ne_zero type

/-- As long as the table has an entry for every loadable header, the stores hit free entries. -/
private theorem Site.stores_free :
    ∀ (n i c : ℕ) {k : Kernel σ} {own : Owner}, Site P k (rootOf k pid) own → InUse (k.procs pid) c →
      c + (loadHeaders file ehdr i n).length ≤ REGION_SLOTS →
      ∀ s ∈ storedRegions env pid file ehdr n i k, s.1 < REGION_SLOTS ∧ s.2.va = 0 := by
  intro n
  induction n with
  | zero =>
    intro i c k own _ _ _ s member
    cases member
  | succ n ih =>
    intro i c k own site table room s member
    have free : c < REGION_SLOTS → ∀ s, Model.segmentSlot env pid file (headerAt file ehdr i) k = some s →
        s.1 < REGION_SLOTS ∧ s.2.va = 0 := by
      intro inside s stored
      rw [site.segmentSlot (vaddr_word file _) stored, table.freeRegion_eq]
      exact ⟨inside, table.unused c (le_refl c) inside⟩
    cases loopRound env pid file ehdr n i k with
    | unread result stores =>
      rw [stores] at member
      cases member
    | skip headers result segments stores =>
      rw [stores] at member
      rw [headers] at room
      exact ih (i + 1) c site table room s member
    | stop headers result stores =>
      rw [stores] at member
      rw [headers, List.length_cons] at room
      exact free (by omega) s (Option.mem_toList.mp member)
    | @load k₁ headers call result segments stores =>
      rw [stores] at member
      rw [headers, List.length_cons] at room
      rcases List.mem_append.mp member with here | later
      · exact free (by omega) s (Option.mem_toList.mp here)
      · obtain ⟨own₁, segment, _⟩ := site.loadSegment (vaddr_word file _) call
        exact ih (i + 1) (c + 1) segment.siteNext (segment.takes_entry table (by omega)) (by omega) s later

/-- Stores that stay inside the table leave an entry for every loadable header of a file that is accepted. -/
private theorem Site.room_of_stores :
    ∀ (n i c : ℕ) {k : Kernel σ} {own : Owner}, Site P k (rootOf k pid) own → InUse (k.procs pid) c →
      elfLoadLoop env pid file ehdr n i k = .ok .EL_OK k' →
      (∀ s ∈ storedRegions env pid file ehdr n i k, s.1 < REGION_SLOTS) →
      c + (loadHeaders file ehdr i n).length ≤ REGION_SLOTS := by
  intro n
  induction n with
  | zero =>
    intro i c k own _ table _ _
    exact table.within
  | succ n ih =>
    intro i c k own site table call inside
    cases loopRound env pid file ehdr n i k with
    | unread result stores =>
      rw [result] at call
      cases call
    | skip headers result segments stores =>
      rw [headers]
      rw [stores] at inside
      exact ih (i + 1) c site table (result ▸ call) inside
    | stop headers result stores => exact absurd call (result k')
    | @load k₁ headers inner result segments stores =>
      rw [stores] at inside
      obtain ⟨s, stored⟩ := segmentSlot_of_load inner
      have room := inside s (List.mem_append_left _ (Option.mem_toList.mpr stored))
      rw [site.segmentSlot (vaddr_word file _) stored, table.freeRegion_eq] at room
      obtain ⟨own₁, segment, _⟩ := site.loadSegment (vaddr_word file _) inner
      have rest := ih (i + 1) (c + 1) segment.siteNext (segment.takes_entry table room) (result ▸ call)
        fun s member => inside s (List.mem_append_right _ member)
      rw [headers, List.length_cons]
      omega

/-- The region table of `p'` holds the segments behind the first `c` entries, which are those of `p`. -/
structure Entered (p : Process) (c : ℕ) (segments : List (ProgHeader × ℕ)) (p' : Process) : Prop where
  table : InUse p' (c + segments.length)
  old : ∀ j < c, p'.regions j = p.regions j
  new : ∀ (m : ℕ) (inside : m < segments.length), ∃ type,
    p'.regions (c + m) = ⟨(segments.get ⟨m, inside⟩).1.vaddr, 1, type⟩

/-- Loading enters the segments one after the other. -/
theorem Loads.entered {segments : List (ProgHeader × ℕ)} (loads : Loads env pid file k segments k') :
    ∀ {own : Owner} {c : ℕ}, Site P k (rootOf k pid) own → (∀ s ∈ segments, s.1.vaddr < WORD) →
    InUse (k.procs pid) c →
      c + segments.length ≤ REGION_SLOTS → Entered (k.procs pid) c segments (k'.procs pid) := by
  induction loads with
  | nil k =>
    intro own c _ _ table _
    exact ⟨table, fun _ _ => rfl, fun m inside => absurd inside (Nat.not_lt_zero m)⟩
  | @cons k k₁ k' ph segments call rest ih =>
    intro own c site words table room
    rw [List.length_cons] at room
    obtain ⟨own₁, segment, _⟩ := site.loadSegment (words _ List.mem_cons_self) call
    obtain ⟨⟨type, proc⟩, _⟩ := segment.registered
    have entered := ih segment.siteNext (fun s member => words s (List.mem_cons_of_mem _ member))
      (segment.takes_entry table (by omega)) (by omega)
    constructor
    · rw [List.length_cons, show c + (segments.length + 1) = c + 1 + segments.length by omega]
      exact entered.table
    · intro j below
      rw [entered.old j (by omega), proc, table.register_other _ _ (by omega)]
    · intro m inside
      cases m with
      | zero =>
        refine ⟨type, ?_⟩
        rw [Nat.add_zero, entered.old c (by omega), proc, table.register_here]
        rfl
      | succ m =>
        rw [show c + (m + 1) = c + 1 + m by omega]
        exact entered.new m (Nat.lt_of_succ_lt_succ inside)

end

/-- The stores of `elf_load` into the region table stay inside it and do not overwrite an entry in use. -/
def StoresFree (env : PageEnv σ) (pid : ℕ) (file : HostFile) (ehdr : ElfHeader) (k : Kernel σ) : Prop :=
  ∀ s ∈ storedRegions env pid file ehdr ehdr.phnum 0 k, s.1 < REGION_SLOTS ∧ s.2.va = 0

/-- Entry `j` is in use, and its pages include these. -/
def Covers (p : Process) (pages : List (ℕ × ℕ)) (j : ℕ) : Prop :=
  j < REGION_SLOTS ∧ (p.regions j).va ≠ 0 ∧
    ∀ m ∈ pages, (p.regions j).va ≤ m.1 ∧ m.1 + PGSIZE ≤ (p.regions j).va + (p.regions j).npages * PGSIZE

instance (p : Process) (pages : List (ℕ × ℕ)) (j : ℕ) : Decidable (Covers p pages j) :=
  inferInstanceAs (Decidable (_ ∧ _ ∧ _))

/-- The region table counts its entries, and one of them describes the pages of a segment. -/
structure TableDescribes (p : Process) (segments : List (ProgHeader × ℕ)) : Prop where
  total : p.totalMappedRegion = ((Finset.range REGION_SLOTS).filter fun j => (p.regions j).va ≠ 0).card
  entries : ∀ s ∈ segments, ∃! j, Covers p (segmentMappings s.1.vaddr s.2) j

/-- The loadable headers of a file start on page boundaries, and the table has an entry for each. -/
def TableFits (file : HostFile) (ehdr : ElfHeader) : Prop :=
  4 + (loadHeaders file ehdr 0 ehdr.phnum).length ≤ REGION_SLOTS ∧
    ∀ ph ∈ loadHeaders file ehdr 0 ehdr.phnum, ph.vaddr % PGSIZE = 0

instance (file : HostFile) (ehdr : ElfHeader) : Decidable (TableFits file ehdr) :=
  inferInstanceAs (Decidable (_ ∧ _))

private theorem segmentMappings_aligned {va : ℕ} (aligned : va % PGSIZE = 0)
    (f : ℕ) : segmentMappings va f = [(va, f)] := by
  have start : ROUNDDOWN va PGSIZE = va := Nat.div_mul_cancel (Nat.dvd_of_mod_eq_zero aligned)
  rw [segmentMappings, roundsFor, if_pos aligned, start]
  rfl

/-- The fixed regions of a new process have at most one page, and that of the heap has none. -/
theorem NewProcess.npages {p : Process} (fields : NewProcess p) {j : ℕ} (fixed : j < 4) :
    (p.regions j).npages = if j < 3 then 1 else 0 := by
  obtain ⟨frame, image, _, _, regions⟩ := fields.regions
  rw [regions]
  interval_cases j <;> rfl

namespace Entered

variable {p p' : Process} {segments : List (ProgHeader × ℕ)}

/-- An entry in use is one of a fixed region or one of a segment. -/
theorem cases_of_used (entered : Entered p 4 segments p') {j : ℕ} (inside : j < REGION_SLOTS)
    (used : (p'.regions j).va ≠ 0) :
    (j < 4 ∧ p'.regions j = p.regions j) ∨ ∃ (m : ℕ) (_ : m < segments.length), j = 4 + m := by
  have below : j < 4 + segments.length := by
    by_contra above
    exact used (entered.table.unused j (Nat.not_lt.mp above) inside)
  by_cases fixed : j < 4
  · exact Or.inl ⟨fixed, entered.old j fixed⟩
  · exact Or.inr ⟨j - 4, by omega, by omega⟩

private theorem npages_le (entered : Entered p 4 segments p') (fields : NewProcess p) {j : ℕ}
    (inside : j < REGION_SLOTS) (used : (p'.regions j).va ≠ 0) : (p'.regions j).npages ≤ 1 := by
  rcases entered.cases_of_used inside used with ⟨fixed, same⟩ | ⟨m, within, rfl⟩
  · rw [same, fields.npages fixed]
    split_ifs <;> omega
  · obtain ⟨type, entry⟩ := entered.new m within
    rw [entry]

/-- A segment that one entry of the table describes starts on a page boundary. -/
private theorem aligned_of_covers (entered : Entered p 4 segments p') (fields : NewProcess p) {va f : ℕ}
    (one : ∃! j, Covers p' (segmentMappings va f) j) : va % PGSIZE = 0 := by
  by_contra unaligned
  obtain ⟨j, ⟨inside, used, covers⟩, unique⟩ := one
  by_cases low : va + PGSIZE ≤ WORD
  · -- two pages do not fit in a region of one
    have rounds : roundsFor va = 2 := by rw [roundsFor, if_neg unaligned, if_pos low]
    have first := (covers _ (mem_segmentMappings.mpr (Or.inl ⟨by rw [rounds]; decide, rfl⟩))).1
    have second := (covers _ (mem_segmentMappings.mpr (Or.inr ⟨rounds, rfl⟩))).2
    have small := Nat.mul_le_mul_right PGSIZE (entered.npages_le fields inside used)
    have positive : 0 < PGSIZE := by decide
    simp only at first second
    omega
  · -- no page at all is in every region
    have none : segmentMappings va f = [] := by
      rw [segmentMappings, roundsFor, if_neg unaligned, if_neg low]
      rfl
    have every : ∀ j < 4, Covers p' (segmentMappings va f) j := by
      intro j below
      rw [none]
      exact ⟨lt_trans below (by decide), entered.table.used j (by omega), by simp⟩
    have zero := unique 0 (every 0 (by decide))
    have one := unique 1 (every 1 (by decide))
    omega

/-- A segment on a page boundary has one entry, since its page was not mapped before. -/
private theorem covers_of_aligned (entered : Entered p 4 segments p') (fields : NewProcess p)
    {mem mem' : ℕ → ℕ → ℕ} {r : ℕ} (fixed : FixedMapped p (translate mem r)) (aligned : ∀ s ∈ segments,
      s.1.vaddr % PGSIZE = 0)
    (maps : MapsPages mem r segmentPerm (segments.flatMap fun s => segmentMappings s.1.vaddr s.2) mem')
    {m : ℕ} (inside : m < segments.length) :
    ∃! j, Covers p' (segmentMappings (segments.get ⟨m, inside⟩).1.vaddr (segments.get ⟨m, inside⟩).2) j := by
  have flat : (segments.flatMap fun s => segmentMappings s.1.vaddr s.2) = segments.map fun s =>
    (s.1.vaddr, s.2) := by
    rw [List.map_eq_flatMap]
    exact List.flatMap_congr fun s member => segmentMappings_aligned (aligned s member) s.2
  rw [flat] at maps
  rw [segmentMappings_aligned (aligned _ (List.get_mem _ _))]
  obtain ⟨type, entry⟩ := entered.new m inside
  refine ⟨4 + m, ⟨?_, ?_, ?_⟩, ?_⟩
  · exact lt_of_lt_of_le (by omega) entered.table.within
  · exact entered.table.used _ (by omega)
  · simp [entry]
  · rintro j ⟨below, used, covers⟩
    obtain ⟨low, high⟩ := covers _ (List.mem_singleton_self _)
    simp only at low high
    rcases entered.cases_of_used below used with ⟨old, same⟩ | ⟨m', inside', rfl⟩
    · rw [same, fields.npages old] at high
      rw [same] at low
      by_cases heap : j < 3
      · rw [if_pos heap] at high
        have page : (segments.get ⟨m, inside⟩).1.vaddr = (p.regions j).va := by omega
        have vacant := maps.vacant _ (List.mem_map_of_mem (List.get_mem segments ⟨m, inside⟩))
        rw [page, fixed j heap] at vacant
        cases vacant
      · rw [if_neg heap] at high
        have positive : 0 < PGSIZE := by decide
        omega
    · obtain ⟨type', entry'⟩ := entered.new m' inside'
      rw [entry'] at low high
      have page : (segments.get ⟨m, inside⟩).1.vaddr = (segments.get ⟨m', inside'⟩).1.vaddr := by
        simp only at low high; omega
      have distinct := List.pairwise_iff_get.mp (List.pairwise_map.mp maps.distinct)
      rcases Nat.lt_trichotomy m' m with before | rfl | behind
      · exact absurd (congrArg pageOf page) (distinct ⟨m', inside'⟩ ⟨m, inside⟩ before)
      · rfl
      · exact absurd (congrArg pageOf page.symm) (distinct ⟨m, inside⟩ ⟨m', inside'⟩ behind)

end Entered

section

variable {lay : Layout} {P : Pages env (lay.trapSecStart / PGSIZE)} {pid : ℕ} {file : HostFile}
  {ehdr : ElfHeader} {k₀ k : Kernel σ} {own : Owner}

/-- The region table of a new process stays inside its page and describes the mappings exactly for
files with as many loadable headers as there are entries, all of them on page boundaries. -/
theorem elfLoad_region_table (space : Space P.toSupply k₀ own) (spawn : allocProcess env lay k₀ = .ok pid k) :
    (TableFits file ehdr → StoresFree env pid file ehdr k ∧ ∀ k', elfLoad env pid file ehdr k = .ok .EL_OK k' →
      TableDescribes (k'.procs pid) (loadedSegments env pid file ehdr ehdr.phnum 0 k)) ∧
    ∀ k', elfLoad env pid file ehdr k = .ok .EL_OK k' → StoresFree env pid file ehdr k →
      TableDescribes (k'.procs pid) (loadedSegments env pid file ehdr ehdr.phnum 0 k) →
      TableFits file ehdr := by
  obtain ⟨own₁, spawned, fixed⟩ := space.allocProcess_fixed.of_ok spawn
  have fields := spawned.fields
  have site : Site P k (rootOf k pid) own₁ := Space.site spawned.only.space spawned.inside
  -- what an accepted load did, given that the table had room
  have loaded : ∀ k', elfLoad env pid file ehdr k = .ok .EL_OK k' →
      4 + (loadHeaders file ehdr 0 ehdr.phnum).length ≤ REGION_SLOTS →
      Entered (k.procs pid) 4 (loadedSegments env pid file ehdr ehdr.phnum 0 k) (k'.procs pid) := by
    intro k' call room
    obtain ⟨loads, headers⟩ := elfLoadLoop_ok ehdr.phnum 0 call
    rw [← headers, List.length_map] at room
    refine loads.entered site (fun s member => ?_) fields.inUse room
    exact loadHeaders_word (headers ▸ List.mem_map_of_mem member)
  constructor
  · rintro ⟨room, aligned⟩
    refine ⟨site.stores_free ehdr.phnum 0 4 fields.inUse room, fun k' call => ?_⟩
    have entered := loaded k' call room
    obtain ⟨headers, _, effect, _⟩ := site.elfLoad call
    constructor
    · rw [entered.table.card, entered.table.total]
    · intro s member
      obtain ⟨m, rfl⟩ := List.mem_iff_get.mp member
      refine entered.covers_of_aligned fields fixed (fun s member => ?_) effect.maps m.isLt
      exact aligned s.1 (headers ▸ List.mem_map_of_mem member)
  · intro k' call stores described
    have room := site.room_of_stores ehdr.phnum 0 4 fields.inUse call fun s member => (stores s member).1
    refine ⟨room, fun ph member => ?_⟩
    obtain ⟨headers, _, _⟩ := site.elfLoad call
    rw [← headers] at member
    obtain ⟨s, listed, rfl⟩ := List.mem_map.mp member
    exact (loaded k' call room).aligned_of_covers fields (described.entries s listed)

end

theorem elfLoad_region_table_small :
    elfInit smallProgram = .ok smallHeader ∧ ∃ i k k', allocProcess pmmEnv smallLayout smallKernel = .ok i k ∧
      elfLoad pmmEnv i smallProgram smallHeader k = .ok .EL_OK k' ∧
      StoresFree pmmEnv i smallProgram smallHeader k ∧
      TableDescribes (k'.procs i) (loadedSegments pmmEnv i smallProgram smallHeader 1 0 k) := by
  have checked : returned (fun i k => returned (fun status _ => decide (status = .EL_OK))
      (elfLoad pmmEnv i smallProgram smallHeader k))
      (allocProcess pmmEnv smallLayout smallKernel) = true := by decide +kernel
  obtain ⟨i, k, spawn, ok⟩ := returned_eq_true checked
  obtain ⟨status, k', call, done⟩ := returned_eq_true ok
  obtain rfl := of_decide_eq_true done
  have space : Space (pmmPages smallLayout).toSupply smallKernel fun _ => none := smallKernel_boot.good.space
  have fits : TableFits smallProgram smallHeader := by decide
  obtain ⟨free, described⟩ := (elfLoad_region_table space spawn).1 fits
  exact ⟨rfl, i, k, k', spawn, call, free, described k' call⟩

/-- A segment at `0x10010` has two pages, which no region of the table covers. -/
theorem elfLoad_undescribed :
    elfInit unalignedProgram = .ok smallHeader ∧
    ∃ i k k', allocProcess pmmEnv smallLayout smallKernel = .ok i k ∧
      elfLoad pmmEnv i unalignedProgram smallHeader k = .ok .EL_OK k' ∧
      ¬ TableDescribes (k'.procs i) (loadedSegments pmmEnv i unalignedProgram smallHeader 1 0 k) := by
  have checked : returned (fun i k => returned (fun status k' => decide (status = .EL_OK ∧
      ∃ s ∈ loadedSegments pmmEnv i unalignedProgram smallHeader 1 0 k, ∀ j < REGION_SLOTS,
        ¬ Covers (k'.procs i) (segmentMappings s.1.vaddr s.2) j))
      (elfLoad pmmEnv i unalignedProgram smallHeader k)) (allocProcess pmmEnv smallLayout smallKernel) =
      true := by decide +kernel
  obtain ⟨i, k, spawn, ok⟩ := returned_eq_true checked
  obtain ⟨status, k', call, done⟩ := returned_eq_true ok
  obtain ⟨rfl, s, member, uncovered⟩ := of_decide_eq_true done
  refine ⟨rfl, i, k, k', spawn, call, fun described => ?_⟩
  obtain ⟨j, covers, _⟩ := described.entries s member
  exact uncovered j covers.1 covers

end Pke.Proofs
