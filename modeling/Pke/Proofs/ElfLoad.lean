import Pke.Proofs.ElfSegments
import Pke.Proofs.SharedFrames

/-! # What a process finds after `elf_load`

Which bytes it reads and which frames it can reach. `elf_load` reads `memsz` bytes of a segment from
the file to the start of the page, whatever `filesz` and the offset of the address in its page are;
and a segment that does not start on a page boundary is mapped over two physical pages, of which
`elf_alloc_mb` obtained the first.
-/

namespace Pke.Proofs

open Pke.Lib Pke.Model

variable {σ : Type} {env : PageEnv σ} {trapSec : ℕ}

theorem mem_segmentMappings {va f : ℕ} {m : ℕ × ℕ} : m ∈ segmentMappings va f ↔
    (roundsFor va ≠ 0 ∧ m = (ROUNDDOWN va PGSIZE, f)) ∨
    (roundsFor va = 2 ∧ m = (ROUNDDOWN va PGSIZE + PGSIZE, f + 1)) := by
  rw [segmentMappings, roundsFor]
  split_ifs
  · simp [pagesFrom]
  · simp [pagesFrom]
  · simp [pagesFrom]

/-- An entry that `elf_load` makes is readable for the user. -/
theorem segmentEntry_user (f : ℕ) : UserLeaf (f * 2 ^ 10 ||| segmentPerm ||| PTE_V) ∧
    has (f * 2 ^ 10 ||| segmentPerm ||| PTE_V) PTE_R = true ∧
    frameOf (f * 2 ^ 10 ||| segmentPerm ||| PTE_V) = f := by
  refine ⟨⟨has_valid_or _, ?_⟩, ?_, frameOf_flags (by decide)⟩
  · exact (@has_leaf 4 (by decide) f segmentPerm).trans (by decide)
  · exact (@has_leaf 1 (by decide) f segmentPerm).trans (by decide)

/-- The entries for the user that `elf_load` adds lead to pages that it obtained for segments. -/
def ExposesOwn (env : PageEnv σ) (pid : ℕ) (file : HostFile) (ehdr : ElfHeader) (k k' : Kernel σ) : Prop :=
  ∀ va, UserLeaf (pteOf k' pid va) → pteOf k' pid va ≠ pteOf k pid va →
    frameOf (pteOf k' pid va) ∈ (loadedSegments env pid file ehdr ehdr.phnum 0 k).map Prod.snd

/-- A segment starts on a page boundary, or so high that `map_pages` maps nothing. -/
def OnePage (ph : ProgHeader) : Prop := ph.vaddr % PGSIZE = 0 ∨ WORD < ph.vaddr + PGSIZE

instance (ph : ProgHeader) : Decidable (OnePage ph) := inferInstanceAs (Decidable (_ ∨ _))

private theorem roundsFor_eq_two {ph : ProgHeader} : roundsFor ph.vaddr = 2 ↔ ¬ OnePage ph := by
  rw [roundsFor, OnePage]
  split_ifs <;> simp_all

section

variable {P : Pages env trapSec} {pid : ℕ} {file : HostFile} {ehdr : ElfHeader} {k k' : Kernel σ} {own : Owner}

/-- `elf_load` exposes only its own frames if every segment maps one page; a segment that maps two exposes the
frame behind its own, so that frame has to be one of another segment. -/
theorem elfLoad_confined (site : Site P k (rootOf k pid) own)
    (call : elfLoad env pid file ehdr k = .ok .EL_OK k') :
    ((∀ ph ∈ loadHeaders file ehdr 0 ehdr.phnum, OnePage ph) → ExposesOwn env pid file ehdr k k') ∧
    (ExposesOwn env pid file ehdr k k' ↔ ∀ s ∈ loadedSegments env pid file ehdr ehdr.phnum 0 k, ¬ OnePage s.1 →
      s.2 + 1 ∈ (loadedSegments env pid file ehdr ehdr.phnum 0 k).map Prod.snd) := by
  obtain ⟨headers, _, loaded, _⟩ := site.elfLoad call
  have pte : ∀ va, pteOf k' pid va = translate k'.mem (rootOf k pid) va := fun va => by rw [pteOf, loaded.root]
  have exact : ExposesOwn env pid file ehdr k k' ↔ ∀ s ∈ loadedSegments env pid file ehdr ehdr.phnum 0 k,
      ¬ OnePage s.1 →
      s.2 + 1 ∈ (loadedSegments env pid file ehdr ehdr.phnum 0 k).map Prod.snd := by
    constructor
    · intro exposes s member two
      have listed : (ROUNDDOWN s.1.vaddr PGSIZE + PGSIZE, s.2 + 1) ∈
          (loadedSegments env pid file ehdr ehdr.phnum 0 k).flatMap fun s => segmentMappings s.1.vaddr s.2 :=
        List.mem_flatMap.mpr ⟨s, member, mem_segmentMappings.mpr (Or.inr ⟨roundsFor_eq_two.mpr two, rfl⟩)⟩
      have entry := loaded.maps.entries _ listed
      have vacant := loaded.maps.vacant _ listed
      obtain ⟨user, _, frame⟩ := segmentEntry_user (s.2 + 1)
      rw [← pte] at entry
      have added := exposes (ROUNDDOWN s.1.vaddr PGSIZE + PGSIZE) (entry ▸ user) fun same => by
        have valid := user.1
        rw [← entry, same, pteOf, vacant] at valid
        cases valid
      rwa [entry, frame] at added
    · intro next va user changed
      obtain ⟨m, listed, page⟩ : ∃ m ∈ (loadedSegments env pid file ehdr ehdr.phnum 0 k).flatMap fun s =>
          segmentMappings s.1.vaddr s.2, pageOf va = pageOf m.1 := by
        by_contra elsewhere
        push Not at elsewhere
        exact changed ((pte va).trans (loaded.maps.others va elsewhere))
      have entry : pteOf k' pid va = m.2 * 2 ^ 10 ||| segmentPerm ||| PTE_V := by
        rw [pteOf_congr page, pte]
        exact loaded.maps.entries m listed
      rw [entry, (segmentEntry_user m.2).2.2]
      obtain ⟨s, member, mapping⟩ := List.mem_flatMap.mp listed
      rcases mem_segmentMappings.mp mapping with ⟨_, rfl⟩ | ⟨two, rfl⟩
      · exact List.mem_map_of_mem member
      · exact next s member (roundsFor_eq_two.mp two)
  refine ⟨fun single => exact.mpr fun s member two => ?_, exact⟩
  exact absurd (single s.1 (headers ▸ List.mem_map_of_mem member)) two

end

/-- The header of `smallProgram` and its variants. -/
def smallHeader : ElfHeader := ⟨0x10000, 64, 1⟩

/-- The first process after boot has an intact page table. -/
theorem BootState.site {lay : Layout} {k₀ k : Kernel Pool} {i : ℕ} (boot : BootState lay k₀)
    (call : allocProcess pmmEnv lay k₀ = .ok i k) : ∃ own, Site (pmmPages lay) k (rootOf k i) own := by
  obtain ⟨own, spawned⟩ := boot.good.space.allocProcess.of_ok call
  exact ⟨own, Space.site spawned.only.space spawned.inside⟩

theorem elfLoad_confined_small : elfInit smallProgram = .ok smallHeader ∧ ∃ i k k',
    allocProcess pmmEnv smallLayout smallKernel = .ok i k ∧
    elfLoad pmmEnv i smallProgram smallHeader k = .ok .EL_OK k' ∧
    ExposesOwn pmmEnv i smallProgram smallHeader k k' := by
  have checked : returned (fun i k => returned (fun status _ => decide (status = .EL_OK))
      (elfLoad pmmEnv i smallProgram smallHeader k))
      (allocProcess pmmEnv smallLayout smallKernel) = true := by decide +kernel
  obtain ⟨i, k, spawn, ok⟩ := returned_eq_true checked
  obtain ⟨status, k', call, done⟩ := returned_eq_true ok
  obtain rfl := of_decide_eq_true done
  obtain ⟨own, site⟩ := smallKernel_boot.site spawn
  exact ⟨rfl, i, k, k', spawn, call, (elfLoad_confined site call).1 (by decide)⟩

/-- The small program with its segment at `0x10010`. -/
def unalignedProgram : HostFile := { smallProgram with byte := Function.update smallProgram.byte 80 0x10 }

/-- The page behind that of the segment becomes accessible. -/
theorem elfLoad_exposes_next : elfInit unalignedProgram = .ok smallHeader ∧ ∃ i k k',
    allocProcess pmmEnv smallLayout smallKernel = .ok i k ∧
    elfLoad pmmEnv i unalignedProgram smallHeader k = .ok .EL_OK k' ∧
    ¬ ExposesOwn pmmEnv i unalignedProgram smallHeader k k' := by
  have checked : returned (fun i k => returned
      (fun status k' => decide (status = .EL_OK ∧ UserLeaf (pteOf k' i 0x11000) ∧
      pteOf k' i 0x11000 ≠ pteOf k i 0x11000 ∧
      frameOf (pteOf k' i 0x11000) ∉ (loadedSegments pmmEnv i unalignedProgram smallHeader 1 0 k).map Prod.snd))
      (elfLoad pmmEnv i unalignedProgram smallHeader k)) (allocProcess pmmEnv smallLayout smallKernel) =
      true := by decide +kernel
  obtain ⟨i, k, spawn, ok⟩ := returned_eq_true checked
  obtain ⟨status, k', call, done⟩ := returned_eq_true ok
  obtain ⟨rfl, user, added, foreign⟩ := of_decide_eq_true done
  exact ⟨rfl, i, k, k', spawn, call, fun own => foreign (own 0x11000 user added)⟩

/-- Byte `o` of a page. -/
def byteOf (words : ℕ → ℕ) (o : ℕ) : ℕ := words (o / 8) / 256 ^ (o % 8) % 256

/-- The byte that the process reads at `va`, if it may. -/
def userByte (k : Kernel σ) (pid va : ℕ) : Option ℕ :=
  if UserLeaf (pteOf k pid va) ∧ has (pteOf k pid va) PTE_R = true then
    some (byteOf (k.mem (frameOf (pteOf k pid va))) (va % PGSIZE))
  else none

/-- A digit of a number in base 256. -/
private theorem foldr_digit {digit : ℕ → ℕ} (small : ∀ j, digit j < 256) :
    ∀ (digits : List ℕ) (m : ℕ) (inside : m < digits.length),
    digits.foldr (fun j rest => digit j + 256 * rest) 0 / 256 ^ m % 256 = digit (digits.get ⟨m, inside⟩) := by
  intro digits
  induction digits with
  | nil => intro m inside; exact absurd inside (Nat.not_lt_zero m)
  | cons j digits ih =>
    intro m inside
    have bound := small j
    cases m with
    | zero =>
      rw [List.foldr_cons, Nat.pow_zero, Nat.div_one]
      change _ = digit j
      omega
    | succ m =>
      rw [List.foldr_cons, Nat.pow_succ', ← Nat.div_div_eq_div_mul,
        show ∀ rest, (digit j + 256 * rest) / 256 = rest by intro rest; omega]
      exact ih m (Nat.lt_of_succ_lt_succ inside)

/-- Byte `o` of the page of a segment: `elf_load` read `memsz` bytes to the start of the page. -/
def storedByte (file : HostFile) (ph : ProgHeader) (o : ℕ) : ℕ :=
  if o < ph.memsz then (file.byte (ph.off + o)).toNat else 0

private theorem byteOf_segmentWords (file : HostFile) (ph : ProgHeader) (o : ℕ) :
    byteOf (segmentWords file ph fun _ => 0) o = storedByte file ph o := by
  have small : ∀ j, (if 8 * (o / 8) + j < ph.memsz then (file.byte (ph.off + (8 * (o / 8) + j))).toNat
    else 0 / 256 ^ j % 256) < 256 := by
    intro j
    split_ifs
    · exact (file.byte _).toNat_lt
    · exact Nat.mod_lt _ (by decide)
  have inside : o % 8 < (List.range 8).length := by
    rw [List.length_range]
    exact Nat.mod_lt _ (by decide)
  have digit := foldr_digit small (List.range 8) (o % 8) inside
  rw [List.get_eq_getElem, List.getElem_range, Nat.div_add_mod, Nat.zero_div, Nat.zero_mod] at digit
  exact digit

/-- The byte of the segment at offset `b` as the header describes it. -/
def expectedByte (file : HostFile) (ph : ProgHeader) (b : ℕ) : ℕ :=
  if b < ph.filesz then (file.byte (ph.off + b)).toNat else 0

/-- The process reads the bytes of every loadable segment at its addresses. -/
def PlacesBytes (k : Kernel σ) (pid : ℕ) (file : HostFile) (ehdr : ElfHeader) : Prop :=
  ∀ i < ehdr.phnum, ∀ ph, ph = file.progHeader (ehdr.phoff + PROG_HEADER_SIZE * i) → ph.type = ELF_PROG_LOAD →
    ∀ b < ph.memsz, userByte k pid (ph.vaddr + b) = some (expectedByte file ph b)

/-- The program headers lie where an `int` can say. -/
def Located (ehdr : ElfHeader) : Prop := ∀ i < ehdr.phnum, ehdr.phoff + PROG_HEADER_SIZE * i < 2 ^ 31

/-- A segment that has bytes lies in one page of the address space. -/
def FitsPage (ph : ProgHeader) : Prop := 0 < ph.memsz → ph.vaddr < MAXVA ∧ ph.vaddr % PGSIZE + ph.memsz ≤ PGSIZE

/-- What `elf_load` stored in the page of the segment is what belongs at its addresses there. -/
def StoredRight (file : HostFile) (ph : ProgHeader) : Prop :=
  ∀ b < ph.memsz, ph.vaddr % PGSIZE + b < PGSIZE →
  storedByte file ph (ph.vaddr % PGSIZE + b) = expectedByte file ph b

instance (ph : ProgHeader) : Decidable (FitsPage ph) := inferInstanceAs (Decidable (_ → _ ∧ _))

instance (file : HostFile) (ph : ProgHeader) : Decidable (StoredRight file ph) :=
  inferInstanceAs (Decidable (∀ b < ph.memsz, _ → _))

private theorem headerAt_located {file : HostFile} {ehdr : ElfHeader} (located : Located ehdr) {i : ℕ}
    (below : i < ehdr.phnum) :
    headerAt file ehdr i = file.progHeader (ehdr.phoff + PROG_HEADER_SIZE * i) := by
  have small := located i below
  have same : (ehdr.phoff + PROG_HEADER_SIZE * i) % 2 ^ 32 = ehdr.phoff + PROG_HEADER_SIZE * i :=
    Nat.mod_eq_of_lt (by omega)
  rw [headerAt, throughInt, same, if_pos small]

section

variable {P : Pages env trapSec} {pid : ℕ} {file : HostFile} {ehdr : ElfHeader} {k k' : Kernel σ} {own : Owner}
  {segments : List (ProgHeader × ℕ)}

/-- What the process reads in the first page of a segment. -/
theorem FileLoaded.userByte {own' : Owner} (loaded : FileLoaded P pid file segments k own k' own')
    {s : ProgHeader × ℕ} (member : s ∈ segments) (high : s.1.vaddr < MAXVA) {b : ℕ}
    (inside : s.1.vaddr % PGSIZE + b < PGSIZE) :
    userByte k' pid (s.1.vaddr + b) = some (storedByte file s.1 (s.1.vaddr % PGSIZE + b)) := by
  have rounds : roundsFor s.1.vaddr ≠ 0 := by
    rw [roundsFor]
    split_ifs with aligned below
    · decide
    · decide
    · simp only [PGSIZE, WORD, MAXVA] at *
      omega
  have listed : (ROUNDDOWN s.1.vaddr PGSIZE, s.2) ∈ segments.flatMap fun s => segmentMappings s.1.vaddr s.2 :=
    List.mem_flatMap.mpr ⟨s, member, mem_segmentMappings.mpr (Or.inl ⟨rounds, rfl⟩)⟩
  have page : pageOf (s.1.vaddr + b) = pageOf (ROUNDDOWN s.1.vaddr PGSIZE) := by
    simp only [pageOf, ROUNDDOWN, PGSIZE] at *
    omega
  have entry : pteOf k' pid (s.1.vaddr + b) = s.2 * 2 ^ 10 ||| segmentPerm ||| PTE_V := by
    rw [pteOf_congr page, pteOf, loaded.root]
    exact loaded.maps.entries _ listed
  obtain ⟨user, readable, frame⟩ := segmentEntry_user s.2
  have offset : (s.1.vaddr + b) % PGSIZE = s.1.vaddr % PGSIZE + b := by
    simp only [PGSIZE] at *
    omega
  rw [Proofs.userByte, entry, if_pos ⟨user, readable⟩, frame, offset, (loaded.frames s member).2,
    byteOf_segmentWords]

/-- Bytes that are stored where they belong are read there, and only these are in the first page of
a segment. -/
theorem elfLoad_places_bytes (site : Site P k (rootOf k pid) own)
    (call : elfLoad env pid file ehdr k = .ok .EL_OK k')
    (located : Located ehdr) :
    ((∀ ph ∈ loadHeaders file ehdr 0 ehdr.phnum, FitsPage ph ∧ StoredRight file ph) →
      PlacesBytes k' pid file ehdr) ∧
    (PlacesBytes k' pid file ehdr → ∀ ph ∈ loadHeaders file ehdr 0 ehdr.phnum, ph.vaddr < MAXVA →
      StoredRight file ph) := by
  obtain ⟨headers, _, loaded, _⟩ := site.elfLoad call
  have listed : ∀ ph, ph ∈ loadHeaders file ehdr 0 ehdr.phnum ↔ ∃ i < ehdr.phnum,
      ph = file.progHeader (ehdr.phoff + PROG_HEADER_SIZE * i) ∧ ph.type = ELF_PROG_LOAD := by
    intro ph
    rw [loadHeaders, List.mem_filter, List.mem_map]
    constructor
    · rintro ⟨⟨i, inside, rfl⟩, load⟩
      have below : i < ehdr.phnum := by simpa using inside
      exact ⟨i, below, headerAt_located located below, of_decide_eq_true load⟩
    · rintro ⟨i, below, rfl, load⟩
      exact ⟨⟨i, by simpa using below, headerAt_located located below⟩, decide_eq_true load⟩
  have segment : ∀ ph ∈ loadHeaders file ehdr 0 ehdr.phnum, ∃ f,
      (ph, f) ∈ loadedSegments env pid file ehdr ehdr.phnum 0 k := by
    intro ph member
    rw [← headers] at member
    obtain ⟨s, listed, rfl⟩ := List.mem_map.mp member
    exact ⟨s.2, listed⟩
  constructor
  · intro fine i below ph header load b inside
    have member := (listed ph).mpr ⟨i, below, header, load⟩
    obtain ⟨fits, agrees⟩ := fine ph member
    obtain ⟨high, room⟩ := fits (Nat.zero_lt_of_lt inside)
    obtain ⟨f, listed⟩ := segment ph member
    have near : ph.vaddr % PGSIZE + b < PGSIZE := by omega
    rw [loaded.userByte listed high near, agrees b inside near]
  · intro places ph member high b inside near
    obtain ⟨i, below, header, load⟩ := (listed ph).mp member
    obtain ⟨f, listed⟩ := segment ph member
    have read := places i below ph header load b inside
    rw [loaded.userByte listed high near] at read
    exact Option.some.inj read

end

theorem elfLoad_places_bytes_small : elfInit smallProgram = .ok smallHeader ∧ ∃ i k k',
    allocProcess pmmEnv smallLayout smallKernel = .ok i k ∧
    elfLoad pmmEnv i smallProgram smallHeader k = .ok .EL_OK k' ∧
    PlacesBytes k' i smallProgram smallHeader := by
  have checked : returned (fun i k => returned (fun status _ => decide (status = .EL_OK))
      (elfLoad pmmEnv i smallProgram smallHeader k))
      (allocProcess pmmEnv smallLayout smallKernel) = true := by decide +kernel
  obtain ⟨i, k, spawn, ok⟩ := returned_eq_true checked
  obtain ⟨status, k', call, done⟩ := returned_eq_true ok
  obtain rfl := of_decide_eq_true done
  obtain ⟨own, site⟩ := smallKernel_boot.site spawn
  exact ⟨rfl, i, k, k', spawn, call, (elfLoad_places_bytes site call (by unfold Located; decide)).1 (by decide)⟩

/-- The small program with a segment of 8 bytes in the file and 16 in memory, and a byte behind the
segment in the file. -/
def tailProgram : HostFile :=
  { smallProgram with byte := Function.update (Function.update smallProgram.byte 96 8) 128 1 }

/-- The byte of the file behind the segment is read where zeros belong. -/
theorem elfLoad_fills_tail : elfInit tailProgram = .ok smallHeader ∧ ∃ i k k',
    allocProcess pmmEnv smallLayout smallKernel = .ok i k ∧
    elfLoad pmmEnv i tailProgram smallHeader k = .ok .EL_OK k' ∧
    userByte k' i 0x10008 = some 1 ∧ ¬ PlacesBytes k' i tailProgram smallHeader := by
  have checked : returned (fun i k => returned
      (fun status k' => decide (status = .EL_OK ∧ userByte k' i 0x10008 = some 1))
      (elfLoad pmmEnv i tailProgram smallHeader k)) (allocProcess pmmEnv smallLayout smallKernel) =
      true := by decide +kernel
  obtain ⟨i, k, spawn, ok⟩ := returned_eq_true checked
  obtain ⟨status, k', call, done⟩ := returned_eq_true ok
  obtain ⟨rfl, byte⟩ := of_decide_eq_true done
  refine ⟨rfl, i, k, k', spawn, call, byte, fun places => ?_⟩
  have read := places 0 (by decide) _ rfl (by decide) 8 (by decide)
  have address : (tailProgram.progHeader (smallHeader.phoff + PROG_HEADER_SIZE * 0)).vaddr + 8 =
    0x10008 := by decide
  rw [address, byte] at read
  exact absurd read (by decide)

end Pke.Proofs
