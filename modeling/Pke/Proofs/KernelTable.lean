import Pke.Model.Boot
import Pke.Proofs.LockDiscipline
import Pke.Proofs.MapPages

/-! # The page table of the kernel

With enough pages `kern_vm_init` maps physical memory to itself and nothing else: the text can be
read and executed, the rest can be read and written, and user mode can reach none of it. The table
needs 64 leaf tables. The page cache of `pmm.c` holds 32 pages and is never filled again, so with
this allocator `kern_vm_init` never returns.
-/

namespace Pke.Proofs

open Pke.Lib Pke.Model

variable {σ : Type} {env : PageEnv σ}

/-- The pages of physical memory. -/
def ramPages : ℕ := PKE_MAX_ALLOWABLE_RAM / PGSIZE

/-- The first of them. -/
def ramBase : ℕ := KERN_BASE / PGSIZE

private theorem setPage_self (k : Kernel σ) (f : ℕ) (words : ℕ → ℕ) : (k.setPage f words).mem f = words :=
  Function.update_self ..

section Identity

/-- An empty root. -/
theorem follow_blank {mem : ℕ → ℕ → ℕ} {r t : ℕ} {p : List ℕ} (blank : mem r = fun _ => 0)
    (reached : follow mem r p = some t) :
    p = [] ∧ t = r := by
  cases p with
  | nil => exact ⟨rfl, (Option.some.inj reached).symm⟩
  | cons i p => simp [follow, tableBelow, blank, not_has_zero] at reached

private theorem wellFormed_blank {mem : ℕ → ℕ → ℕ} {r : ℕ} (blank : mem r = fun _ => 0) : WellFormed mem r where
  above p t _ reached i _ nonzero := by
    obtain ⟨_, rfl⟩ := follow_blank blank reached
    rw [blank] at nonzero
    exact absurd rfl nonzero
  leaves p t _ reached i _ nonzero := by
    obtain ⟨_, rfl⟩ := follow_blank blank reached
    rw [blank] at nonzero
    exact absurd rfl nonzero
  once _ _ _ _ _ reached reached' := (follow_blank blank reached).1.trans (follow_blank blank reached').1.symm

theorem translate_blank {mem : ℕ → ℕ → ℕ} {r : ℕ} (blank : mem r = fun _ => 0)
    (va : ℕ) : translate mem r va = 0 := by
  simp [translate, leafTable, blank, not_has_zero]

/-- The pages of the text. -/
def KernelText.pages (text : KernelText) : ℕ := (text.etext - KERN_BASE) / PGSIZE

theorem KernelText.fields (text : KernelText) : text.etext = (ramBase + KernelText.pages text) * PGSIZE ∧
    0 < KernelText.pages text ∧ KernelText.pages text < ramPages := by
  have aligned := text.aligned
  have above := text.above
  have below := text.below
  simp only [KernelText.pages, ramBase, ramPages, KERN_BASE, PHYS_TOP, DRAM_BASE,
    PKE_MAX_ALLOWABLE_RAM, PGSIZE] at *
  omega

/-- Both ranges consist of pages. -/
theorem KernelText.sizes (text : KernelText) : KERN_BASE = ramBase * PGSIZE ∧
    text.etext - KERN_BASE = KernelText.pages text * PGSIZE ∧
    PHYS_TOP - text.etext = (ramPages - KernelText.pages text) * PGSIZE := by
  have place := (KernelText.fields text).1
  have ram : KERN_BASE = ramBase * PGSIZE := by decide
  have top : PHYS_TOP = ramBase * PGSIZE + ramPages * PGSIZE := by decide
  refine ⟨ram, ?_, ?_⟩
  · rw [place, ram, Nat.add_mul, Nat.add_sub_cancel_left]
  · rw [place, top, Nat.add_mul, Nat.add_sub_add_left, Nat.sub_mul]

/-- `lookup_pa` changes nothing. -/
theorem lookupPa_keeps (env : PageEnv σ) {dir va : ℕ} (k : Kernel σ) (positive : 0 < va) :
    ∃ pa, lookupPa env dir va k = .ok pa k := by
  rw [lookupPa]
  split_ifs with high
  · exact ⟨0, rfl⟩
  · rw [bind_apply, pageWalk_read, if_pos ⟨positive, by omega⟩]
    cases leafTable k.mem (dir / PGSIZE) va with
    | none => exact ⟨0, rfl⟩
    | some t =>
      simp only [Option.map_some, bind_apply, get_apply]
      split_ifs
      · exact ⟨_, rfl⟩
      · exact ⟨_, rfl⟩

/-- The entry of an address in the kernel. -/
def kernelEntry (text : KernelText) (va : ℕ) : ℕ :=
  if ramBase ≤ pageOf va ∧ pageOf va < ramBase + KernelText.pages text then
    entryOf DRAM_BASE (protToType true false true false) (pageOf va - ramBase)
  else if ramBase + KernelText.pages text ≤ pageOf va ∧ pageOf va < ramBase + ramPages then
    entryOf text.etext (protToType true true false false) (pageOf va - (ramBase + KernelText.pages text))
  else 0

/-- `kern_vm_map` over pages that are not mapped. -/
theorem kernVmMap_maps {k : Kernel σ} {r : ℕ} {own : Owner} {paths : Finset (List ℕ)} {frames : List ℕ}
    (stocked : Stocked env k r own paths frames) {va pa sz perm q n : ℕ} (start : va = q * PGSIZE)
    (size : sz = n * PGSIZE) (low : 0 < q) (some : 0 < n) (high : q + n ≤ 2 ^ 26) (word : pa < WORD)
    (wanted : ∀ i < n, [PX 2 ((q + i) * PGSIZE)] ∈ paths ∧
      [PX 2 ((q + i) * PGSIZE), PX 1 ((q + i) * PGSIZE)] ∈ paths)
    (unmapped : ∀ i < n, has (translate k.mem r ((q + i) * PGSIZE)) PTE_V = false) :
    ∃ k' own' frames', kernVmMap env (r * PGSIZE) va pa sz perm k = .ok () k' ∧
    Stocked env k' r own' paths frames' ∧
      ∀ va', translate k'.mem r va' = if q ≤ pageOf va' ∧ pageOf va' < q + n
      then entryOf pa perm (pageOf va' - q)
        else translate k.mem r va' := by
  obtain ⟨k', own', frames', loop, stocked', same⟩ := stocked.mapLoop perm pa low high word wanted unmapped
  have rounds : pagesIn va sz = n := by
    subst start size
    simp only [pagesIn, ROUNDDOWN, PGSIZE]
    omega
  have call : mapPages env (r * PGSIZE) va sz pa perm k = .ok true k' := by
    rw [mapPages_rounds env _ pa perm (by subst start; simp only [PGSIZE]; omega)
      (by subst start size; simp only [PGSIZE, MAXVA]; omega), rounds, start, page_div]
    exact loop
  refine ⟨k', own', frames', ?_, stocked', same⟩
  rw [kernVmMap, bind_of_ok call]
  rfl

/-- `kern_vm_init` with enough pages for the tables. -/
private theorem kernVmInit_entries (text : KernelText) {k k₁ : Kernel σ} {r : ℕ} {frames : List ℕ}
    (alloc : env.allocPage k = .ok (r * PGSIZE) k₁) (positive : 0 < r)
    (provides : Provides env (k₁.setPage r fun _ => 0) r (pathsOf ramBase ramPages) frames) :
    ∃ k', kernVmInit env text k = .ok (r * PGSIZE) k' ∧ WellFormed k'.mem r ∧
      ∀ va, translate k'.mem r va = kernelEntry text va := by
  have blank := setPage_self k₁ r fun _ => 0
  obtain ⟨own, stocked⟩ := (wellFormed_blank blank).stocked provides
  obtain ⟨place, some, part⟩ := KernelText.fields text
  have wanted : ∀ i < ramPages, _ := fun i below => @mem_pathsOf ramBase ramPages i below
  have base : ramBase + ramPages ≤ 2 ^ 26 := by decide
  obtain ⟨ram, textSize, restSize⟩ := KernelText.sizes text
  obtain ⟨k₂, own₂, frames₂, first, stocked₂, same₂⟩ :=
    @kernVmMap_maps _ env _ _ _ _ _ stocked KERN_BASE DRAM_BASE
    (text.etext - KERN_BASE) (protToType true false true false) ramBase (KernelText.pages text) ram textSize
    (by decide) some
    (by omega) (by decide) (fun i below => wanted i (by omega)) fun i _ => by
    rw [translate_blank blank, not_has_zero]
  obtain ⟨k₃, own₃, frames₃, second, stocked₃, same₃⟩ :=
    @kernVmMap_maps _ env _ _ _ _ _ stocked₂ text.etext text.etext
    (PHYS_TOP - text.etext) (protToType true true false false) (ramBase + KernelText.pages text)
    (ramPages - KernelText.pages text) place restSize (by omega) (by omega) (by omega)
    (lt_trans text.below (by decide)) (fun i below => by rw [Nat.add_assoc]; exact wanted _ (by omega))
    fun i below => by
      rw [same₂, pageOf_page (by omega), if_neg (by omega), translate_blank blank, not_has_zero]
  obtain ⟨_, look⟩ := @lookupPa_keeps _ env (r * PGSIZE) KERN_BASE k₂ (by decide)
  obtain ⟨_, look'⟩ := @lookupPa_keeps _ env (r * PGSIZE) text.etext k₃ (lt_trans (by decide) text.above)
  have nonzero : r * PGSIZE ≠ 0 := Nat.mul_ne_zero positive.ne' (by decide)
  have clear : clearPage r k₁ = .ok () (k₁.setPage r fun _ => 0) := rfl
  refine ⟨k₃, ?_, stocked₃.wellFormed, fun va => ?_⟩
  · rw [kernVmInit, bind_of_ok alloc, if_neg nonzero, page_div]
    beta_reduce
    rw [bind_of_ok clear, bind_of_ok first, bind_of_ok look, bind_of_ok second, bind_of_ok look']
    rfl
  · rw [same₃, same₂, translate_blank blank, kernelEntry]
    split_ifs <;> first | with_reducible rfl | omega

/-- An entry of the kernel has the address of its page and the flags of its mapping. -/
theorem entryOf_maps {pa perm i : ℕ} (aligned : pa % PGSIZE = 0) (flags : perm < 2 ^ 10)
    (word : pa + i * PGSIZE < WORD) :
    PTE2PA (entryOf pa perm i) = pa + i * PGSIZE ∧
      ∀ n < 10, has (entryOf pa perm i) (2 ^ n) = has (perm ||| PTE_V) (2 ^ n) := by
  obtain ⟨address, bits⟩ := entryOf_fields aligned flags word
  refine ⟨address, fun n low => ?_⟩
  rw [← has_mod low (entryOf pa perm i), bits]

/-- With enough pages for the tables `kern_vm_init` maps physical memory to itself and nothing else.
The text can be read and executed, the rest can be read and written, and user mode can reach none of
it. -/
theorem kernVmInit_identity (text : KernelText) {k k₁ : Kernel σ} {r : ℕ} {frames : List ℕ}
    (alloc : env.allocPage k = .ok (r * PGSIZE) k₁) (positive : 0 < r)
    (provides : Provides env (k₁.setPage r fun _ => 0) r (pathsOf ramBase ramPages) frames) :
    ∃ k', kernVmInit env text k = .ok (r * PGSIZE) k' ∧ ∀ va < MAXVA,
      (has (translate k'.mem r va) PTE_V = true ↔ KERN_BASE ≤ va ∧ va < PHYS_TOP) ∧
      (KERN_BASE ≤ va → va < PHYS_TOP → PTE2PA (translate k'.mem r va) = ROUNDDOWN va PGSIZE ∧
        has (translate k'.mem r va) PTE_R = true ∧ has (translate k'.mem r va) PTE_U = false ∧
        (has (translate k'.mem r va) PTE_X = true ↔ va < text.etext) ∧
        (has (translate k'.mem r va) PTE_W = true ↔ text.etext ≤ va)) := by
  obtain ⟨k', call, _, entries⟩ := kernVmInit_entries text alloc positive provides
  refine ⟨k', call, fun va canonical => ?_⟩
  obtain ⟨place, some, part⟩ := KernelText.fields text
  have page : pageOf va = va / PGSIZE := by
    simp only [pageOf, PGSIZE, MAXVA] at *
    omega
  have aligned := text.aligned
  rw [entries, kernelEntry, page]
  split_ifs with inText inRest
  · -- the text
    have address : DRAM_BASE + (va / PGSIZE - ramBase) * PGSIZE = ROUNDDOWN va PGSIZE := by
      simp only [DRAM_BASE, ramBase, KERN_BASE, ROUNDDOWN, PGSIZE] at *
      omega
    have below : KERN_BASE ≤ va ∧ va < text.etext := by
      simp only [ramBase, KERN_BASE, PGSIZE] at *
      omega
    have top := text.below
    obtain ⟨maps, flag⟩ := @entryOf_maps DRAM_BASE (protToType true false true false)
      (va / PGSIZE - ramBase) (by decide)
      (by decide) (by simp only [address, ROUNDDOWN, PGSIZE, MAXVA, WORD] at *; omega)
    have valid := flag 0 (by decide)
    have read := flag 1 (by decide)
    have write := flag 2 (by decide)
    have exec := flag 3 (by decide)
    have user := flag 4 (by decide)
    refine ⟨⟨fun _ => ⟨below.1, by omega⟩, fun _ => valid.trans (by decide)⟩, fun _ _ => ⟨maps.trans address,
      read.trans (by decide), user.trans (by decide), ⟨fun _ => below.2, fun _ => exec.trans (by decide)⟩, ?_⟩⟩
    exact ⟨fun set => absurd (write.symm.trans set) (by decide), fun above => absurd below.2 (by omega)⟩
  · -- the rest of memory
    have address : text.etext + (va / PGSIZE - (ramBase + KernelText.pages text)) * PGSIZE =
      ROUNDDOWN va PGSIZE := by
      rw [place]
      simp only [ROUNDDOWN, PGSIZE] at *
      omega
    have inside : KERN_BASE ≤ va ∧ text.etext ≤ va ∧ va < PHYS_TOP := by
      simp only [ramBase, ramPages, KERN_BASE, PHYS_TOP, DRAM_BASE, PKE_MAX_ALLOWABLE_RAM, PGSIZE] at *
      omega
    obtain ⟨maps, flag⟩ := @entryOf_maps text.etext (protToType true true false false)
      (va / PGSIZE - (ramBase + KernelText.pages text)) aligned (by decide)
      (by simp only [address, ROUNDDOWN, PGSIZE, MAXVA, WORD] at *; omega)
    have valid := flag 0 (by decide)
    have read := flag 1 (by decide)
    have write := flag 2 (by decide)
    have exec := flag 3 (by decide)
    have user := flag 4 (by decide)
    refine ⟨⟨fun _ => ⟨inside.1, inside.2.2⟩, fun _ => valid.trans (by decide)⟩, fun _ _ => ⟨maps.trans address,
      read.trans (by decide), user.trans (by decide), ?_,
      ⟨fun _ => inside.2.1, fun _ => write.trans (by decide)⟩⟩⟩
    exact ⟨fun set => absurd (exec.symm.trans set) (by decide), fun below => absurd inside.2.1 (by omega)⟩
  · -- no page of memory
    have outside : ¬ (KERN_BASE ≤ va ∧ va < PHYS_TOP) := by
      simp only [ramBase, ramPages, KERN_BASE, PHYS_TOP, DRAM_BASE, PKE_MAX_ALLOWABLE_RAM, PGSIZE] at *
      omega
    rw [not_has_zero]
    exact ⟨⟨fun set => absurd set Bool.false_ne_true, fun inside => absurd inside outside⟩,
      fun low high => absurd ⟨low, high⟩ outside⟩

/-- An allocator that counts its pages up from 0x90000. -/
def bumpEnv : PageEnv ℕ where
  alloc k := .ok ((0x90000 + k.pool) * PGSIZE) (k.pool + 1)
  free _ k := .ok () k.pool
  share _ k := k.pool
  refs _ _ := 1

def bumpKernel (pool : ℕ) : Kernel ℕ where
  pool := pool
  mem _ _ := 0
  procs _ := zeroProcess
  current := 0
  readyQueueHead := none
  tp := 0
  varargs _ := 0
  trace := []

private theorem bumpEnv_deals
    (tp : ℕ) : ∀ (n pool : ℕ), Deals bumpEnv tp pool (List.range' (0x90000 + pool) n) := by
  intro n
  induction n with
  | zero => exact fun pool => .nil pool
  | succ n ih =>
    intro pool
    rw [List.range'_succ]
    exact .cons (fun k _ same => by rw [← same]; rfl) (ih (pool + 1))

private theorem pathsOf_card (q n : ℕ) : (pathsOf q n).card ≤ n * 2 := by
  have bound := Finset.card_biUnion_le_card_mul (Finset.range n)
    (fun i => ({[PX 2 ((q + i) * PGSIZE)], [PX 2 ((q + i) * PGSIZE), PX 1 ((q + i) * PGSIZE)]} :
      Finset (List ℕ))) 2
    fun i _ => Finset.card_le_two
  rwa [Finset.card_range] at bound

/-- A text of 1 MiB. -/
def smallText : KernelText := ⟨KERN_BASE + 0x100000, by decide, by decide, by decide⟩

theorem kernVmInit_identity_small :
    ∃ k', kernVmInit bumpEnv smallText (bumpKernel 0) = .ok (0x90000 * PGSIZE) k' ∧ ∀ va < MAXVA,
      (has (translate k'.mem 0x90000 va) PTE_V = true ↔ KERN_BASE ≤ va ∧ va < PHYS_TOP) ∧
      (KERN_BASE ≤ va → va < PHYS_TOP → PTE2PA (translate k'.mem 0x90000 va) = ROUNDDOWN va PGSIZE ∧
        has (translate k'.mem 0x90000 va) PTE_R = true ∧ has (translate k'.mem 0x90000 va) PTE_U = false ∧
        (has (translate k'.mem 0x90000 va) PTE_X = true ↔ va < smallText.etext) ∧
        (has (translate k'.mem 0x90000 va) PTE_W = true ↔ smallText.etext ≤ va)) := by
  have alloc : bumpEnv.allocPage (bumpKernel 0) =
    .ok (0x90000 * PGSIZE) ((bumpKernel 0).took (0x90000 * PGSIZE) 1) := rfl
  have blank := setPage_self ((bumpKernel 0).took (0x90000 * PGSIZE) 1) 0x90000 fun _ => 0
  have provides : Provides bumpEnv (((bumpKernel 0).took (0x90000 * PGSIZE) 1).setPage 0x90000 fun _ =>
      0) 0x90000
      (pathsOf ramBase ramPages) (List.range' (0x90000 + 1) (ramPages * 2)) := by
    refine ⟨bumpEnv_deals _ _ 1, List.nodup_range', fun f member => ?_, ?_⟩
    · rw [List.mem_range'_1] at member
      have high : ramPages * 2 = 65536 := by decide
      refine ⟨by omega, by omega, ?_⟩
      rintro ⟨p, _, reached⟩
      obtain ⟨_, rfl⟩ := follow_blank blank reached
      omega
    · rw [List.length_range']
      exact (Finset.card_filter_le _ _).trans (pathsOf_card ramBase ramPages)
  exact kernVmInit_identity smallText alloc (by decide) provides

end Identity

section Exhaustion

variable {lay : Layout} {k : Kernel Pool} {r : ℕ} {own : Owner}

/-- The call spins. -/
def Spins (e : Stop) : Prop := e = .spinsForever

/-- Pages in use and pages in the cache. -/
def budget (k : Kernel Pool) : ℕ := (handed k.trace).length + (k.pool.pmm.caches 0).count

/-- `alloc_page` takes a page of the cache, or it spins. -/
theorem allocPage_or_spins (ok : PoolOk lay k) (small : budget k ≤ PCPU_CACHE_SIZE) :
    Ensures pmmEnv.allocPage k (fun pa k' => ∃ f, pa = f * PGSIZE ∧ pa ≠ 0 ∧ f < 2 ^ 44 ∧ f ∉ handed k.trace ∧
      k'.mem = k.mem ∧
      PoolOk lay k' ∧ handed k'.trace = f :: handed k.trace ∧ budget k' = budget k) Spins := by
  cases count : (k.pool.pmm.caches 0).count with
  | zero =>
    obtain ⟨t, spins⟩ : ∃ t, allocPage k.tp k.pool.pmm = .error .spinsForever t := by
      rw [ok.hart, allocPage_eq, if_pos count]
      exact ⟨_, rfl⟩
    have call : pmmEnv.allocPage k = .error .spinsForever { k with pool := { k.pool with pmm := t } } := by
      simp only [PageEnv.allocPage, pmmEnv, spins]
    rw [Ensures, call]
    exact rfl
  | succ n =>
    rw [budget, count] at small
    obtain ⟨t, take, left, -⟩ := allocPage_of_count count (by omega)
    have call : pmmEnv.alloc k = .ok (PFN_TO_ADDR ((k.pool.pmm.caches 0).objs n))
        ⟨t, Function.update k.pool.shares (PFN_TO_ADDR ((k.pool.pmm.caches 0).objs n)) 1⟩ := by
      simp only [pmmEnv, ok.hart, take]
    obtain ⟨f, address, ram, high, fresh, -, next⟩ := ok.alloc call
    rw [Ensures, PageEnv.allocPage, call]
    refine ⟨f, address, ?_, high, fresh, rfl, next, ?_, ?_⟩
    · rw [address]
      exact ram_ne_zero ram
    · rw [address, Kernel.took, handed_alloc]
    · rw [budget, budget, address, count]
      change (handed (.alloc (f * PGSIZE) :: k.trace)).length + (t.caches 0).count = _
      rw [handed_alloc, left, List.length_cons]
      omega

/-- The page table under construction: its tables are pages in use. -/
structure Building (lay : Layout) (k : Kernel Pool) (r : ℕ)
    (own : Owner) : Prop extends Rooted k.mem r own where
  ok : PoolOk lay k
  used : ∀ t, own t ≠ none → t ∈ handed k.trace
  small : budget k ≤ PCPU_CACHE_SIZE

/-- No table was lost. -/
def Extends (mem mem' : ℕ → ℕ → ℕ) (r : ℕ) : Prop := ∀ p t, p.length ≤ 2 → follow mem r p = some t →
    follow mem' r p = some t

theorem Building.walkRound (building : Building lay k r own) {va pt n : ℕ} {p : List ℕ}
    (named : own pt = some (r, p)) (short : p.length < 2) {post : Option ℕ → Kernel Pool → Prop}
    (next : ∀ k' own' pt', Building lay k' r own' → own' pt' = some (r, p ++ [PX (n + 1) va]) →
      Extends k.mem k'.mem r →
      (∀ va', translate k'.mem r va' = translate k.mem r va') →
      Ensures (pageWalkLoop pmmEnv va 0 true n pt') k' post Spins) :
    Ensures (pageWalkLoop pmmEnv va 0 true (n + 1) pt) k post Spins := by
  have supply : Ensures pmmEnv.allocPage k (fun pa k' => ∃ f, pa = f * PGSIZE ∧ pa ≠ 0 ∧ f < 2 ^ 44 ∧
      own f = none ∧
      k'.mem = k.mem ∧ (PoolOk lay k' ∧ handed k'.trace = f :: handed k.trace ∧
        budget k' = budget k)) Spins := by
    apply Ensures.mono (allocPage_or_spins building.ok building.small)
    rintro _ _ ⟨f, rfl, nonzero, high, fresh, mem, rest⟩
    refine ⟨f, rfl, nonzero, high, ?_, mem, rest⟩
    by_contra table
    exact fresh (building.used f table)
  apply building.tables.walkRound named short supply
  · intro valid
    obtain ⟨_, child⟩ := building.tables.down named short (px_lt _ va) valid
    exact next k own _ building child (fun _ _ _ same => same) fun _ => rfl
  · rintro k' f ⟨ok, trace, same⟩ fresh high mem empty _ _
    have rooted : Rooted k'.mem r own := mem ▸ building.toRooted
    have hung := rooted.hang named short (px_lt (n + 1) va) empty fresh high
    refine next _ _ f ⟨hung, ⟨ok.hart, ok.cache, ok.image, ok.once⟩, fun t table => ?_, ?_⟩
      (Function.update_self ..) ?_ fun va' => ?_
    · change t ∈ handed k'.trace
      rw [trace]
      by_cases here : t = f
      · exact List.mem_cons.mpr (Or.inl here)
      · rw [Function.update_of_ne here] at table
        exact List.mem_cons_of_mem _ (building.used t table)
    · exact same.trans_le building.small
    · intro q t length reached
      rw [← mem] at reached
      exact rooted.hang_follow fresh empty length reached
    · rw [← mem]
      exact rooted.tables.hang_translate named short fresh high empty rooted.root

/-- A walk finds or makes the leaf table. -/
theorem Building.walk (building : Building lay k r own) {va : ℕ} (inside : 0 < va ∧ va < MAXVA) :
    Ensures (pageWalk pmmEnv (r * PGSIZE) va 0 true) k (fun slot? k' => ∃ own' t, slot? = some (t, PX 0 va) ∧
      Building lay k' r own' ∧ leafTable k'.mem r va = some t ∧ Extends k.mem k'.mem r ∧
      ∀ va', translate k'.mem r va' = translate k.mem r va') Spins := by
  rw [pageWalk]
  refine Ensures.step (rangeCheck inside k) ?_
  rw [page_div]
  have walk : Ensures (pageWalkLoop pmmEnv va 0 true 2 r) k (fun pt? k' => ∃ own' t, pt? = some t ∧
      Building lay k' r own' ∧
      leafTable k'.mem r va = some t ∧ Extends k.mem k'.mem r ∧
      ∀ va', translate k'.mem r va' = translate k.mem r va') Spins := by
    refine building.walkRound building.root (by simp) fun k₁ own₁ t₁ building₁ named₁ keeps₁ same₁ => ?_
    refine building₁.walkRound named₁ (by simp) fun k₂ own₂ t₂ building₂ named₂ keeps₂ same₂ => ?_
    refine ⟨own₂, t₂, rfl, building₂, ?_, ?_, fun va' => (same₂ va').trans (same₁ va')⟩
    · rw [← follow_two]
      exact (building₂.reached t₂ r _ named₂).2
    · exact fun p t short reached => keeps₂ p t short (keeps₁ p t short reached)
  apply Ensures.bind walk
  rintro _ k' ⟨own', t, rfl, rest⟩
  exact ⟨own', t, rfl, rest⟩

theorem Extends.trans {mem mem' mem'' : ℕ → ℕ → ℕ} (first : Extends mem mem' r)
    (second : Extends mem' mem'' r) : Extends mem mem'' r :=
  fun p t short reached => second p t short (first p t short reached)

theorem Extends.leafTable {mem mem' : ℕ → ℕ → ℕ} (keeps : Extends mem mem' r) {va : ℕ}
    (found : leafTable mem r va ≠ none) :
    leafTable mem' r va ≠ none := by
  obtain ⟨t, found⟩ := Option.ne_none_iff_exists'.mp found
  rw [← follow_two] at found ⊢
  rw [keeps _ t (by simp) found]
  exact Option.some_ne_none t

/-- Storing a valid leaf entry. -/
theorem Building.setLeaf (building : Building lay k r own) {va t pte : ℕ}
    (found : leafTable k.mem r va = some t) (valid : has pte PTE_V = true) :
    Building lay (k.setWord t (PX 0 va) pte) r own ∧ Extends k.mem (k.setWord t (PX 0 va) pte).mem r ∧
      ∀ va', translate (k.setWord t (PX 0 va) pte).mem r va' = if pageOf va' = pageOf va then pte
      else translate k.mem r va' := by
  have named := building.tables.leafTable_owner building.root found
  have rooted := building.toRooted.setLeaf (i := PX 0 va) named rfl pte fun _ => valid
  refine ⟨⟨rooted, ⟨building.ok.hart, building.ok.cache, building.ok.image, building.ok.once⟩, building.used,
    building.small⟩, ?_, ?_⟩
  · exact fun p t' short reached => (rooted.reached t' r p (building.toRooted.owner short reached)).2
  · intro va'
    refine (building.tables.translate_setLeaf building.root building.root found pte).trans ?_
    simp only [true_and]

/-- After the loop of `map_pages` there is a leaf table for every page. -/
theorem Building.mapLoop (building : Building lay k r own) (perm pa : ℕ) {n q : ℕ} (low : 0 < q)
    (high : q + n ≤ 2 ^ 26) (unmapped : ∀ i < n, has (translate k.mem r ((q + i) * PGSIZE)) PTE_V = false) :
    Ensures (mapPagesLoop pmmEnv (r * PGSIZE) perm n (q * PGSIZE) pa) k (fun done k' => done = true ∧ ∃ own',
      Building lay k' r own' ∧ Extends k.mem k'.mem r ∧
      (∀ i < n, leafTable k'.mem r ((q + i) * PGSIZE) ≠ none) ∧
      ∀ va, ¬ (q ≤ pageOf va ∧ pageOf va < q + n) → translate k'.mem r va = translate k.mem r va) Spins := by
  induction n generalizing k own q pa with
  | zero => exact ⟨rfl, own, building, fun _ _ _ same => same, fun i none => absurd none (Nat.not_lt_zero i),
    fun _ _ => rfl⟩
  | succ n ih =>
    have page := pageOf_page (show q < 2 ^ 27 by omega)
    have inside : 0 < q * PGSIZE ∧ q * PGSIZE < MAXVA := by
      simp only [PGSIZE, MAXVA]
      omega
    rw [mapPagesLoop]
    apply Ensures.bind (building.walk inside)
    rintro _ k₁ ⟨own₁, t, rfl, building₁, found, keeps₁, same₁⟩
    have invalid := unmapped 0 (Nat.succ_pos n)
    rw [Nat.add_zero, ← same₁, translate, found] at invalid
    obtain ⟨building₂, keeps₂, same₂⟩ := building₁.setLeaf found (has_valid_or (PA2PTE pa ||| perm))
    have next : (q * PGSIZE + PGSIZE) % WORD = (q + 1) * PGSIZE := by
      simp only [PGSIZE, WORD]
      omega
    have rest := ih building₂ ((pa + PGSIZE) % WORD) (q := q + 1) (Nat.succ_pos q) (by omega) fun i below => by
      rw [same₂, pageOf_page (by omega), page, if_neg (by omega), same₁, show q + 1 + i = q + (i + 1) by omega]
      exact unmapped (i + 1) (by omega)
    apply Ensures.step (get_apply k₁)
    have entry : ¬ has (pteAt k₁ (t, PX 0 (q * PGSIZE))) PTE_V = true := by
      rw [pteAt, invalid]
      exact Bool.false_ne_true
    have store : setPte (t, PX 0 (q * PGSIZE)) (PA2PTE pa ||| perm ||| PTE_V) k₁ =
        .ok () (k₁.setWord t (PX 0 (q * PGSIZE)) (PA2PTE pa ||| perm ||| PTE_V)) := rfl
    rw [if_neg entry, next]
    apply Ensures.step store
    apply Ensures.mono rest
    rintro _ k' ⟨rfl, own', building', keeps', leaves, outside⟩
    refine ⟨rfl, own', building', keeps₁.trans (keeps₂.trans keeps'), fun i below => ?_, fun va beyond => ?_⟩
    · cases i with
      | zero =>
        apply (keeps₂.trans keeps').leafTable
        rw [Nat.add_zero, found]
        exact Option.some_ne_none t
      | succ i =>
        rw [show q + (i + 1) = q + 1 + i by omega]
        exact leaves i (by omega)
    · rw [outside va (by omega), same₂, page, if_neg (by omega), same₁]

/-- A table with 64 leaf tables does not fit in the cache. -/
private theorem Building.overflows (building : Building lay k r own)
    (leaves : ∀ j < 64, leafTable k.mem r ((ramBase + j * 512) * PGSIZE) ≠ none) : False := by
  have tables : ∀ j < 64, ∃ t, own t = some (r, [2, j]) := by
    intro j below
    obtain ⟨t, found⟩ := Option.ne_none_iff_exists'.mp (leaves j below)
    have named := building.tables.leafTable_owner building.root found
    have path : [PX 2 ((ramBase + j * 512) * PGSIZE), PX 1 ((ramBase + j * 512) * PGSIZE)] = [2, j] := by
      simp only [PX, ramBase, KERN_BASE, PGSIZE]
      congr 1
      · omega
      · congr 1
        omega
    exact ⟨t, path ▸ named⟩
  choose table named using tables
  have inUse : ∀ t ∈ (List.range 64).attach.map fun j => table j.1 (List.mem_range.mp j.2),
    t ∈ handed k.trace := by
    intro t member
    obtain ⟨j, -, rfl⟩ := List.mem_map.mp member
    apply building.used
    rw [named]
    exact Option.some_ne_none _
  have distinct : ((List.range 64).attach.map fun j => table j.1 (List.mem_range.mp j.2)).Nodup := by
    refine List.Nodup.map ?_ (List.nodup_range.attach)
    intro i j same
    have paths := (named i.1 (List.mem_range.mp i.2)).symm.trans
      ((congrArg own same).trans (named j.1 (List.mem_range.mp j.2)))
    apply Subtype.ext
    simpa using paths
  have count := (distinct.subperm inUse).length_le
  rw [List.length_map, List.length_attach, List.length_range] at count
  have small := building.small
  simp only [budget, PCPU_CACHE_SIZE] at small
  omega

theorem Building.map (building : Building lay k r own) {va pa sz perm q n : ℕ} (start : va = q * PGSIZE)
    (size : sz = n * PGSIZE) (low : 0 < q) (some : 0 < n) (high : q + n ≤ 2 ^ 26)
    (unmapped : ∀ i < n, has (translate k.mem r ((q + i) * PGSIZE)) PTE_V = false) :
    Ensures (kernVmMap pmmEnv (r * PGSIZE) va pa sz perm) k (fun _ k' => ∃ own', Building lay k' r own' ∧
      Extends k.mem k'.mem r ∧
      (∀ i < n, leafTable k'.mem r ((q + i) * PGSIZE) ≠ none) ∧
      ∀ va, ¬ (q ≤ pageOf va ∧ pageOf va < q + n) → translate k'.mem r va = translate k.mem r va) Spins := by
  have rounds : mapPages pmmEnv (r * PGSIZE) va sz pa perm = mapPagesLoop pmmEnv (r * PGSIZE) perm n
    (q * PGSIZE) pa := by
    have count : pagesIn va sz = n := by
      subst start size
      simp only [pagesIn, ROUNDDOWN, PGSIZE]
      omega
    rw [mapPages_rounds pmmEnv _ pa perm (by subst start; simp only [PGSIZE]; omega)
      (by subst start size; simp only [PGSIZE, MAXVA]; omega), count, start, page_div]
  rw [kernVmMap, rounds]
  apply Ensures.bind (building.mapLoop perm pa low high unmapped)
  rintro _ k' ⟨rfl, rest⟩
  exact rest

/-- With the allocator of `pmm.c` `kern_vm_init` never returns: the table needs more pages than the
cache has after `pmm_init`, and `alloc_page` spins when the cache is empty. -/
theorem kernVmInit_spins (text : KernelText) {kernelEnd memSize : ℕ} {before : Pmm}
    (above : lay.trapSecStart < kernelEnd) (clean : before.events = [])
    (init : pmmInit kernelEnd memSize before = .ok () k.pool.pmm) (hart : k.tp = 0)
    (trace : k.trace = []) : ∃ k', kernVmInit pmmEnv text k = .error .spinsForever k' := by
  have image : KERN_BASE ≤ kernelEnd := lay.image.trans above.le
  obtain ⟨inv, full⟩ := Booted.cacheInv ⟨kernelEnd, memSize, before, image, clean, init⟩
  have ok : PoolOk lay k := by
    refine ⟨hart, ⟨[], by rw [trace]; rfl, inv⟩, fun f member => ?_, by rw [trace]; trivial⟩
    obtain ⟨low, high⟩ := pmmInit_managed image clean init f member
    exact ⟨lt_of_lt_of_le above low, high⟩
  have start : budget k = PCPU_CACHE_SIZE := by
    rw [budget, trace, full]
    rfl
  obtain ⟨place, some, part⟩ := KernelText.fields text
  obtain ⟨ram, textSize, restSize⟩ := KernelText.sizes text
  have base : ramBase + ramPages ≤ 2 ^ 26 := by decide
  have stops : Ensures (kernVmInit pmmEnv text) k (fun _ _ => False) Spins := by
    rw [kernVmInit]
    apply Ensures.bind (allocPage_or_spins ok start.le)
    rintro _ k₁ ⟨r, rfl, nonzero, small, -, -, ok₁, used, same⟩
    rw [if_neg nonzero, page_div]
    apply Ensures.step (show clearPage r k₁ = .ok () (k₁.setPage r fun _ => 0) from rfl)
    have blank := setPage_self k₁ r fun _ => 0
    obtain ⟨own, rooted⟩ := (wellFormed_blank blank).rooted
    have building : Building lay (k₁.setPage r fun _ => 0) r own := by
      refine ⟨rooted, ⟨ok₁.hart, ok₁.cache, ok₁.image, ok₁.once⟩, fun t table => ?_, same.trans_le start.le⟩
      obtain ⟨_, _, reached⟩ := (rooted.isTable_iff t).mpr table
      obtain ⟨_, rfl⟩ := follow_blank blank reached
      change t ∈ handed k₁.trace
      rw [used]
      exact List.mem_cons_self
    apply Ensures.bind (building.map ram textSize (by decide) some (by omega) fun i _ => by
      rw [translate_blank blank, not_has_zero])
    rintro _ k₂ ⟨own₂, building₂, _, leaves₂, outside₂⟩
    obtain ⟨_, look₂⟩ := @lookupPa_keeps _ pmmEnv (r * PGSIZE) KERN_BASE k₂ (by decide)
    apply Ensures.step look₂
    apply Ensures.bind (building₂.map place restSize (by omega) (by omega) (by omega) fun i below => by
      rw [outside₂ _ (by rw [pageOf_page (by omega)]; omega), translate_blank blank, not_has_zero])
    rintro _ k₃ ⟨own₃, building₃, keeps₃, leaves₃, _⟩
    refine absurd (fun j below => ?_) (fun leaves => building₃.overflows leaves)
    have whole : ramPages = 32768 := by decide
    rcases Nat.lt_or_ge (j * 512) (KernelText.pages text) with early | late
    · exact keeps₃.leafTable (leaves₂ _ early)
    · have shift : ramBase + j * 512 = ramBase + KernelText.pages
        text + (j * 512 - KernelText.pages text) := by omega
      rw [shift]
      exact leaves₃ _ (by omega)
  unfold Ensures at stops
  cases result : kernVmInit pmmEnv text k with
  | ok page k' =>
    rw [result] at stops
    exact stops.elim
  | error e k' =>
    rw [result] at stops
    obtain rfl : e = .spinsForever := stops
    exact ⟨k', rfl⟩

/-- The small machine, before the processes are initialized. -/
theorem kernVmInit_spins_small : ∃ k', kernVmInit pmmEnv smallText smallKernel = .error .spinsForever k' := by
  obtain ⟨kernelEnd, memSize, before, above, clean, init⟩ := smallKernel_boot.pmm
  exact kernVmInit_spins smallText above clean init smallKernel_boot.hart smallKernel_boot.trace

end Exhaustion

end Pke.Proofs
