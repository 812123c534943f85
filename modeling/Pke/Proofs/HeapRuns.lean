import Pke.Proofs.RegionTable

/-! # The heap of a well-behaved program

A process that releases only pages it holds. Its heap manager, its heap region and its page table
stay in step over every sequence of heap calls: the addresses on the free list and the allocated
ones are different pages below the top of the heap, and just the allocated ones are mapped. The heap
does not reach the stack, since every allocated page has a frame of its own.
-/

namespace Pke.Proofs

open Pke.Lib Pke.Model

variable {σ : Type} {env : PageEnv σ} {trapSec : ℕ}

/-- The largest number of page frames. -/
def MAX_FRAMES : ℕ := PKE_MAX_ALLOWABLE_RAM / PGSIZE

/-- A page of the heap. -/
def HeapPage (p : Process) (va : ℕ) : Prop :=
  va % PGSIZE = 0 ∧ p.userHeap.heapBottom ≤ va ∧ va < p.userHeap.heapTop

/-- The heap of a process to which these pages are allocated, with the leaf entries `pte`. -/
structure HeapBook (p : Process) (pte : ℕ → ℕ) (allocated : Finset ℕ) : Prop where
  bottom : p.userHeap.heapBottom = USER_FREE_ADDRESS_START
  top : p.userHeap.heapTop = p.userHeap.heapBottom + (p.regions 3).npages * PGSIZE
  few : (p.regions 3).npages ≤ MAX_FRAMES
  count : allocated.card + p.userHeap.freePagesCount = (p.regions 3).npages
  pages : ∀ a ∈ allocated, HeapPage p a
  spare : ∀ i < p.userHeap.freePagesCount,
    HeapPage p (p.userHeap.freePagesAddress i) ∧ p.userHeap.freePagesAddress i ∉ allocated
  distinct : ∀ i < p.userHeap.freePagesCount, ∀ j < p.userHeap.freePagesCount,
    p.userHeap.freePagesAddress i = p.userHeap.freePagesAddress j → i = j
  mapped : ∀ a, a % PGSIZE = 0 → USER_FREE_ADDRESS_START ≤ a → a < STACK_PAGE →
    (has (pte a) PTE_V = true ↔ a ∈ allocated)
  leaf : ∀ a ∈ allocated, UserLeaf (pte a)

/-- A heap of as many pages as there are frames ends below the stack. -/
private theorem heap_end {n : ℕ} (few : n ≤ MAX_FRAMES) :
    USER_FREE_ADDRESS_START + n * PGSIZE + PGSIZE ≤ STACK_PAGE := by
  have bound : n * PGSIZE ≤ MAX_FRAMES * PGSIZE := Nat.mul_le_mul_right _ few
  have room : USER_FREE_ADDRESS_START + MAX_FRAMES * PGSIZE + PGSIZE ≤ STACK_PAGE := by decide
  omega

private theorem heap_positive {va : ℕ} (low : USER_FREE_ADDRESS_START ≤ va) : 0 < va :=
  lt_of_lt_of_le (show 0 < USER_FREE_ADDRESS_START by decide) low

private theorem stack_below : STACK_PAGE < MAXVA := by decide

namespace HeapBook

variable {p q : Process} {pte pte' : ℕ → ℕ} {allocated : Finset ℕ} {va entry : ℕ}

theorem below (book : HeapBook p pte allocated) (page : HeapPage p va) :
    va % PGSIZE = 0 ∧ USER_FREE_ADDRESS_START ≤ va ∧ va < STACK_PAGE := by
  obtain ⟨aligned, low, high⟩ := page
  have room := heap_end book.few
  rw [book.top, book.bottom] at high
  rw [book.bottom] at low
  exact ⟨aligned, low, by omega⟩

private theorem count_small (book : HeapBook p pte allocated) : p.userHeap.freePagesCount ≤ MAX_FRAMES := by
  have total := book.count
  have few := book.few
  omega

/-- The leaf entries after one page was mapped or unmapped. -/
theorem mapped_edit (book : HeapBook p pte allocated) (aligned : va % PGSIZE = 0) (high : va < STACK_PAGE)
    (ptes : ∀ a, pte' a = if pageOf a = pageOf va then entry else pte a) {a : ℕ} (alignedA : a % PGSIZE = 0)
    (lowA : USER_FREE_ADDRESS_START ≤ a) (highA : a < STACK_PAGE) :
    has (pte' a) PTE_V = true ↔ if a = va then has entry PTE_V = true else a ∈ allocated := by
  have page : pageOf a = pageOf va ↔ a = va :=
    ⟨pageOf_injective alignedA aligned (highA.trans stack_below) (high.trans stack_below),
      fun same => by rw [same]⟩
  rw [ptes]
  by_cases here : a = va
  · rw [if_pos (page.mpr here), if_pos here]
  · rw [if_neg (mt page.mp here), if_neg here]
    exact book.mapped a alignedA lowA highA

/-- The entries of other heap pages stay. -/
theorem leaf_edit (book : HeapBook p pte allocated) (aligned : va % PGSIZE = 0) (high : va < STACK_PAGE)
    (ptes : ∀ a, pte' a = if pageOf a = pageOf va then entry else pte a) {a : ℕ} (member : a ∈ allocated)
    (other : a ≠ va) : pte' a = pte a := by
  obtain ⟨alignedA, _, highA⟩ := book.below (book.pages a member)
  rw [ptes, if_neg]
  exact mt (pageOf_injective alignedA aligned (highA.trans stack_below) (high.trans stack_below)) other

private theorem mapped_insert (book : HeapBook p pte allocated) (aligned : va % PGSIZE = 0)
    (high : va < STACK_PAGE) (user : UserLeaf entry) (ptes : ∀ a, pte' a = if pageOf a = pageOf va then entry
      else pte a) (a : ℕ)
    (alignedA : a % PGSIZE = 0) (lowA : USER_FREE_ADDRESS_START ≤ a) (highA : a < STACK_PAGE) :
    has (pte' a) PTE_V = true ↔ a ∈ insert va allocated := by
  rw [book.mapped_edit aligned high ptes alignedA lowA highA, Finset.mem_insert]
  split_ifs with here
  · simp [here, user.1]
  · simp [here]

private theorem leaf_insert (book : HeapBook p pte allocated) (aligned : va % PGSIZE = 0)
    (high : va < STACK_PAGE) (new : va ∉ allocated) (user : UserLeaf entry)
    (ptes : ∀ a, pte' a = if pageOf a = pageOf va then entry else pte a) :
    ∀ a ∈ insert va allocated, UserLeaf (pte' a) := by
  intro a member
  rcases Finset.mem_insert.mp member with rfl | old
  · rw [ptes, if_pos rfl]
    exact user
  · rw [book.leaf_edit aligned high ptes old fun equal => new (equal ▸ old)]
    exact book.leaf a old

/-- Taking the last address of the free list. -/
theorem pop (book : HeapBook p pte allocated) {n : ℕ} (count : p.userHeap.freePagesCount = n + 1)
    (last : p.userHeap.freePagesAddress n = va) (regions : q.regions = p.regions)
    (heap : q.userHeap = { p.userHeap with freePagesCount := n }) (user : UserLeaf entry)
    (ptes : ∀ a, pte' a = if pageOf a = pageOf va then entry else pte a) :
    HeapBook q pte' (insert va allocated) := by
  obtain ⟨page, spare⟩ := book.spare n (by omega)
  rw [last] at page spare
  obtain ⟨aligned, _, high⟩ := book.below page
  have same : ∀ a, HeapPage q a ↔ HeapPage p a := fun a => by rw [HeapPage, HeapPage, heap]
  have total := book.count
  constructor
  · rw [heap]
    exact book.bottom
  · rw [heap, regions]
    exact book.top
  · rw [regions]
    exact book.few
  · rw [heap, regions, Finset.card_insert_of_notMem spare]
    change allocated.card + 1 + n = _
    omega
  · intro a member
    rw [same]
    rcases Finset.mem_insert.mp member with rfl | old
    · exact page
    · exact book.pages a old
  · intro i below
    rw [heap] at below ⊢
    change i < n at below
    rw [same]
    obtain ⟨here, free⟩ := book.spare i (by omega)
    refine ⟨here, fun member => ?_⟩
    rcases Finset.mem_insert.mp member with equal | old
    · have index := book.distinct i (by omega) n (by omega) (equal.trans last.symm)
      omega
    · exact free old
  · intro i below j below' equal
    rw [heap] at below below' equal
    change i < n at below
    change j < n at below'
    exact book.distinct i (by omega) j (by omega) equal
  · exact book.mapped_insert aligned high user ptes
  · exact book.leaf_insert aligned high spare user ptes

/-- Growing the heap by a page. -/
theorem grow (book : HeapBook p pte allocated) (none : p.userHeap.freePagesCount = 0)
    (top : p.userHeap.heapTop = va) (room : (p.regions 3).npages < MAX_FRAMES)
    (regions : (q.regions 3).npages = (p.regions 3).npages + 1)
    (heap : q.userHeap = { p.userHeap with heapTop := va + PGSIZE }) (user : UserLeaf entry)
    (ptes : ∀ a, pte' a = if pageOf a = pageOf va then entry else pte a) :
    HeapBook q pte' (insert va allocated) := by
  have address : va = USER_FREE_ADDRESS_START + (p.regions 3).npages * PGSIZE := by
    rw [← top, book.top, book.bottom]
  have positive : 0 < PGSIZE := by decide
  have low : USER_FREE_ADDRESS_START ≤ va := by omega
  have high : va < STACK_PAGE := by
    have room := heap_end book.few
    omega
  have aligned : va % PGSIZE = 0 := by
    rw [address, Nat.add_mul_mod_self_right]
    decide
  have fresh : va ∉ allocated := fun member => by
    have inside := (book.pages va member).2.2
    omega
  have wider : ∀ a, HeapPage p a → HeapPage q a := by
    rintro a ⟨alignedA, lowA, highA⟩
    refine ⟨alignedA, ?_, ?_⟩
    · rw [heap]
      exact lowA
    · rw [heap]
      exact lt_trans (top ▸ highA) (by change va < va + PGSIZE; omega)
  have total := book.count
  constructor
  · rw [heap]
    exact book.bottom
  · rw [heap, regions]
    change va + PGSIZE = p.userHeap.heapBottom + _
    rw [book.bottom, address, Nat.add_mul, Nat.one_mul, Nat.add_assoc]
  · rw [regions]
    exact room
  · rw [heap, regions, Finset.card_insert_of_notMem fresh]
    change allocated.card + 1 + p.userHeap.freePagesCount = _
    omega
  · intro a member
    rcases Finset.mem_insert.mp member with rfl | old
    · refine ⟨aligned, ?_, ?_⟩
      · rw [heap]
        exact book.bottom.trans_le low
      · rw [heap]
        change a < a + PGSIZE
        omega
    · exact wider a (book.pages a old)
  · intro i below
    rw [heap] at below
    change i < p.userHeap.freePagesCount at below
    omega
  · intro i below
    rw [heap] at below
    change i < p.userHeap.freePagesCount at below
    omega
  · exact book.mapped_insert aligned high user ptes
  · exact book.leaf_insert aligned high fresh user ptes

/-- Releasing an allocated page. -/
theorem push (book : HeapBook p pte allocated) (member : va ∈ allocated)
    (ptes : ∀ a, pte' a = if pageOf a = pageOf va then 0 else pte a) :
    HeapBook (releaseInto va p) pte' (allocated.erase va) := by
  obtain ⟨aligned, _, high⟩ := book.below (book.pages va member)
  have small := book.count_small
  have next : incr32 p.userHeap.freePagesCount = p.userHeap.freePagesCount + 1 := by
    rw [incr32, Nat.mod_eq_of_lt]
    simp only [MAX_FRAMES, PKE_MAX_ALLOWABLE_RAM, PGSIZE] at small
    omega
  have heap : (releaseInto va p).userHeap = { p.userHeap with
      freePagesAddress := Function.update p.userHeap.freePagesAddress p.userHeap.freePagesCount va
      freePagesCount := p.userHeap.freePagesCount + 1 } := by
    rw [releaseInto, next]
  have same : ∀ a, HeapPage (releaseInto va p) a ↔ HeapPage p a := fun a => Iff.rfl
  have total := book.count
  have card := Finset.card_erase_add_one member
  have older : ∀ i < p.userHeap.freePagesCount, (releaseInto va p).userHeap.freePagesAddress i =
      p.userHeap.freePagesAddress i :=
    fun i below => Function.update_of_ne (Nat.ne_of_lt below) _ _
  have newest : (releaseInto va p).userHeap.freePagesAddress p.userHeap.freePagesCount = va :=
    Function.update_self ..
  constructor
  · exact book.bottom
  · exact book.top
  · exact book.few
  · rw [heap]
    change _ + (p.userHeap.freePagesCount + 1) = (p.regions 3).npages
    omega
  · intro a member'
    exact book.pages a (Finset.mem_of_mem_erase member')
  · intro i below
    rw [heap] at below
    change i < p.userHeap.freePagesCount + 1 at below
    rcases Nat.lt_succ_iff_lt_or_eq.mp below with early | rfl
    · rw [older i early]
      obtain ⟨page, spare⟩ := book.spare i early
      exact ⟨page, fun member' => spare (Finset.mem_of_mem_erase member')⟩
    · rw [newest]
      exact ⟨book.pages va member, Finset.notMem_erase va allocated⟩
  · intro i below j below' equal
    rw [heap] at below below'
    change i < p.userHeap.freePagesCount + 1 at below
    change j < p.userHeap.freePagesCount + 1 at below'
    rcases Nat.lt_succ_iff_lt_or_eq.mp below with early | rfl
    · rw [older i early] at equal
      rcases Nat.lt_succ_iff_lt_or_eq.mp below' with early' | rfl
      · rw [older j early'] at equal
        exact book.distinct i early j early' equal
      · rw [newest] at equal
        exact absurd (equal ▸ member) (book.spare i early).2
    · rw [newest] at equal
      rcases Nat.lt_succ_iff_lt_or_eq.mp below' with early' | rfl
      · rw [older j early'] at equal
        exact absurd (equal ▸ member) (book.spare j early').2
      · rfl
  · intro a alignedA lowA highA
    rw [book.mapped_edit aligned high ptes alignedA lowA highA, Finset.mem_erase]
    split_ifs with here
    · simp [here, not_has_zero]
    · simp [here]
  · intro a member'
    obtain ⟨other, old⟩ := Finset.mem_erase.mp member'
    rw [book.leaf_edit aligned high ptes old other]
    exact book.leaf a old

end HeapBook

/-- A machine with a bounded number of page frames: `alloc_page` returns one that is not in use, and
`pfree` makes the frame that it is given available again. -/
structure PageFrames (env : PageEnv σ) (trapSec : ℕ) extends Pages env trapSec where
  frames : Finset ℕ
  few : frames.card ≤ MAX_FRAMES
  within : ∀ {k : Kernel σ} {pa : ℕ} {pool : σ}, Ok k → env.alloc k = .ok pa pool → pa / PGSIZE ∈ frames
  freed : ∀ {k : Kernel σ} {f : ℕ} {pool : σ}, Ok k → f ∈ handed k.trace →
    env.free (f * PGSIZE) k = .ok () pool →
    Ok (k.gave (f * PGSIZE) pool)

/-- The frames of the allocated pages: in use, no tables, and different. -/
structure HeapFrames (F : PageFrames env trapSec) (trace : List PageEvent) (own : Owner) (pte : ℕ → ℕ)
    (allocated : Finset ℕ) :
    Prop where
  physical : ∀ a ∈ allocated, frameOf (pte a) ∈ F.frames ∧ frameOf (pte a) < 2 ^ 44
  inUse : ∀ a ∈ allocated, frameOf (pte a) ∈ handed trace
  data : ∀ a ∈ allocated, own (frameOf (pte a)) = none
  distinct : ∀ a ∈ allocated, ∀ b ∈ allocated, frameOf (pte a) = frameOf (pte b) → a = b

namespace HeapFrames

variable {F : PageFrames env trapSec} {trace trace' : List PageEvent} {own own' : Owner} {pte pte' : ℕ → ℕ}
  {allocated : Finset ℕ} {va f entry : ℕ}

/-- A frame that is not in use is left only if not all frames are allocated. -/
private theorem card_lt (held : HeapFrames F trace own pte allocated) (physical : f ∈ F.frames)
    (fresh : f ∉ handed trace) :
    allocated.card < MAX_FRAMES := by
  have subset : insert f (allocated.image fun a => frameOf (pte a)) ⊆ F.frames := by
    intro g member
    rcases Finset.mem_insert.mp member with rfl | old
    · exact physical
    · obtain ⟨a, inside, rfl⟩ := Finset.mem_image.mp old
      exact (held.physical a inside).1
  have new : f ∉ allocated.image fun a => frameOf (pte a) := by
    intro member
    obtain ⟨a, inside, rfl⟩ := Finset.mem_image.mp member
    exact fresh (held.inUse a inside)
  have bound := (Finset.card_le_card subset).trans F.few
  rw [Finset.card_insert_of_notMem new, Finset.card_image_of_injOn held.distinct] at bound
  exact bound

/-- A page is mapped to a frame that was not in use. -/
theorem gain (held : HeapFrames F trace own pte allocated) (taken : ∀ g ∈ handed trace, g ∈ handed trace')
    (kept : ∀ g ∈ handed trace, own g = none → own' g = none) (fresh : f ∉ handed trace)
    (inUse : f ∈ handed trace') (data : own' f = none) (physical : f ∈ F.frames ∧
      f < 2 ^ 44) (here : frameOf (pte' va) = f)
    (others : ∀ a ∈ allocated, pte' a = pte a) : HeapFrames F trace' own' pte' (insert va allocated) := by
  have older : ∀ a ∈ allocated, frameOf (pte' a) ≠ f := by
    rintro a inside rfl
    rw [others a inside] at fresh
    exact fresh (held.inUse a inside)
  constructor
  · intro a member
    rcases Finset.mem_insert.mp member with rfl | old
    · rw [here]
      exact physical
    · rw [others a old]
      exact held.physical a old
  · intro a member
    rcases Finset.mem_insert.mp member with rfl | old
    · rw [here]
      exact inUse
    · rw [others a old]
      exact taken _ (held.inUse a old)
  · intro a member
    rcases Finset.mem_insert.mp member with rfl | old
    · rw [here]
      exact data
    · rw [others a old]
      exact kept _ (held.inUse a old) (held.data a old)
  · intro a member b member' equal
    rcases Finset.mem_insert.mp member with rfl | old
    · rcases Finset.mem_insert.mp member' with rfl | old'
      · rfl
      · exact absurd (equal.symm.trans here) (older b old')
    · rcases Finset.mem_insert.mp member' with rfl | old'
      · exact absurd (equal.trans here) (older a old)
      · rw [others a old, others b old'] at equal
        exact held.distinct a old b old' equal

/-- A page is unmapped and its frame released. -/
theorem lose (held : HeapFrames F trace own pte allocated) (member : va ∈ allocated)
    (released : handed trace' = (handed trace).erase (frameOf (pte va)))
    (others : ∀ a ∈ allocated, a ≠ va → pte' a = pte a) :
    HeapFrames F trace' own pte' (allocated.erase va) := by
  constructor
  · intro a left
    obtain ⟨other, old⟩ := Finset.mem_erase.mp left
    rw [others a old other]
    exact held.physical a old
  · intro a left
    obtain ⟨other, old⟩ := Finset.mem_erase.mp left
    rw [others a old other, released]
    exact (List.mem_erase_of_ne fun equal => other (held.distinct a old va member equal)).mpr (held.inUse a old)
  · intro a left
    obtain ⟨other, old⟩ := Finset.mem_erase.mp left
    rw [others a old other]
    exact held.data a old
  · intro a left b left' equal
    obtain ⟨other, old⟩ := Finset.mem_erase.mp left
    obtain ⟨other', old'⟩ := Finset.mem_erase.mp left'
    rw [others a old other, others b old' other'] at equal
    exact held.distinct a old b old' equal

end HeapFrames

/-- The heap of the running process, its page table and the frames are in step. -/
structure HeapInv (F : PageFrames env trapSec) (k : Kernel σ) (own : Owner) (allocated : Finset ℕ) : Prop where
  site : Site F.toPages k (rootOf k k.current) own
  book : HeapBook (k.procs k.current) (pteOf k k.current) allocated
  held : HeapFrames F k.trace own (pteOf k k.current) allocated

/-- Translations of the running process other than that of the page of `va` are the same. -/
def SameElsewhere (k : Kernel σ) (va : ℕ) (k' : Kernel σ) : Prop :=
  k'.current = k.current ∧ ∀ va', pageOf va' ≠ pageOf va → pteOf k' k.current va' = pteOf k k.current va'

/-- What `sys_user_allocate_page` returns: a page of the heap that was not allocated. -/
structure Allocates (k : Kernel σ) (allocated : Finset ℕ) (va : ℕ) (k' : Kernel σ) : Prop where
  page : HeapPage (k'.procs k.current) va
  fresh : va ∉ allocated
  others : SameElsewhere k va k'

section

variable {F : PageFrames env trapSec} {k : Kernel σ} {own : Owner} {allocated : Finset ℕ} {stop : Stop → Prop}

theorem Site.congr {P : Pages env trapSec} {k' : Kernel σ} {r : ℕ} (site : Site P k r own)
    (mem : k'.mem = k.mem) (pool : k'.pool = k.pool) (trace : k'.trace = k.trace) (tp : k'.tp = k.tp) :
    Site P k' r own :=
  ⟨P.stable pool trace tp site.ok, mem ▸ site.tables, site.root, trace ▸ site.taken⟩

/-- `user_vm_map` of an aligned page that is not mapped. -/
private theorem Site.mapVacant {P : Pages env trapSec} {dir va f perm : ℕ} (errors : AllocStops env stop)
    (site : Site P k (dir / PGSIZE) own) (aligned : va % PGSIZE = 0) (low : 0 < va) (high : va < MAXVA)
    (vacant : has (translate k.mem (dir / PGSIZE) va) PTE_V = false) :
    Ensures (Model.userVmMap env dir va PGSIZE (f * PGSIZE) perm) k (fun _ k' => ∃ own',
      Site P k' (dir / PGSIZE) own' ∧
      Keeps k own k' own' ∧ ∀ va', translate k'.mem (dir / PGSIZE) va' =
        if pageOf va' = pageOf va then f * 2 ^ 10 ||| perm ||| PTE_V
        else translate k.mem (dir / PGSIZE) va') stop := by
  have word : va < WORD := high.trans (by decide)
  rw [Model.userVmMap, mapPages_roundsFor env _ _ _ word, roundsFor, if_pos aligned, roundDown_self aligned]
  have loop : Ensures (mapPagesLoop env dir perm 1 va (f * PGSIZE)) k (fun done k' => done = true ∧ ∃ own',
      Site P k' (dir / PGSIZE) own' ∧ Keeps k own k' own' ∧ ∀ va', translate k'.mem (dir / PGSIZE) va' =
        if pageOf va' = pageOf va then f * 2 ^ 10 ||| perm ||| PTE_V
          else translate k.mem (dir / PGSIZE) va') stop := by
    refine site.mapRound errors (fun outside => absurd ⟨low, high⟩ outside) (fun valid => ?_) ?_
    · rw [vacant] at valid
      cases valid
    · intro k' own' _ _ _ grafts ptes
      rw [PA2PTE_page] at ptes
      exact ⟨rfl, own', grafts.site, grafts.toKeeps, ptes⟩
  refine Ensures.bind loop ?_
  rintro _ k' ⟨rfl, rest⟩
  exact rest

/-- The end of `sys_user_allocate_page`: the frame that was taken is mapped at the chosen address. -/
private theorem HeapInv.mapTaken (inv : HeapInv F k own allocated) (errors : AllocStops env stop)
    {k₁ : Kernel σ} {f va : ℕ} {change : Process → Process}
    (site₁ : Site F.toPages k₁ (rootOf k k.current) own) (keeps₁ : Keeps k own k₁ own) (mem : k₁.mem = k.mem)
    (fresh : f ∉ handed k.trace) (inUse : f ∈ handed k₁.trace) (free : own f = none)
    (physical : f ∈ F.frames ∧ f < 2 ^ 44) (root : ∀ p, (change p).pagetable = p.pagetable)
    (aligned : va % PGSIZE = 0) (low : USER_FREE_ADDRESS_START ≤ va)
    (high : va < STACK_PAGE) (new : va ∉ allocated)
    (book : ∀ entry pte', UserLeaf entry →
      (∀ a, pte' a = if pageOf a = pageOf va then entry else pteOf k k.current a) →
      HeapBook (change (k.procs k.current)) pte' (insert va allocated)) :
    Ensures (do
      userVmMap env ((← get).procs k.current).pagetable va PGSIZE (f * PGSIZE) (protToType true true false true)
      modify fun k' => k'.record (.grant k.current va)
      return va) (k₁.setProc k.current change) (fun va' k' => ∃ own', HeapInv F k' own' (insert va' allocated) ∧
        Allocates k allocated va' k') stop := by
  have proc : (k₁.setProc k.current change).procs k.current = change (k.procs k.current) := by
    rw [Kernel.setProc_procs_self, keeps₁.procs]
  have dir : ((k₁.setProc k.current change).procs k.current).pagetable = (k.procs k.current).pagetable := by
    rw [proc, root]
  have site₂ : Site F.toPages (k₁.setProc k.current change) ((k.procs k.current).pagetable / PGSIZE) own :=
    site₁.congr rfl rfl rfl rfl
  have before : ∀ a, translate (k₁.setProc k.current change).mem ((k.procs k.current).pagetable / PGSIZE) a =
      pteOf k k.current a :=
    fun a => congrArg (fun m => translate m _ a) mem
  have vacant : has (pteOf k k.current va) PTE_V = false := by
    rw [← Bool.not_eq_true, inv.book.mapped va aligned low high]
    exact new
  refine Ensures.step (get_apply _) ?_
  rw [dir]
  refine Ensures.bind (site₂.mapVacant errors aligned (heap_positive low) (high.trans stack_below)
    (by rw [before]; exact vacant)) ?_
  rintro _ k' ⟨own', site', keeps', ptes⟩
  refine Ensures.step (modify_apply _ _) ?_
  have procs : (k'.record (.grant k.current va)).procs k.current = change (k.procs k.current) := by
    rw [← proc, ← keeps'.procs]
    rfl
  have current : (k'.record (.grant k.current va)).current = k.current := keeps'.current.trans keeps₁.current
  have rootSame : rootOf (k'.record (.grant k.current va)) k.current =
    (k.procs k.current).pagetable / PGSIZE := by
    rw [rootOf, procs, root]
  have entries : ∀ a, pteOf (k'.record (.grant k.current va)) k.current a =
      if pageOf a = pageOf va then f * 2 ^ 10 ||| protToType true true false true ||| PTE_V
        else pteOf k k.current a := by
    intro a
    rw [pteOf, rootSame]
    exact (ptes a).trans (by rw [before])
  have user : UserLeaf (f * 2 ^ 10 ||| protToType true true false true ||| PTE_V) :=
    ⟨has_valid_or _, (@has_leaf 4 (by decide) f _).trans (by decide)⟩
  have handedSame : ∀ g, g ∈ handed (k'.record (.grant k.current va)).trace ↔ g ∈ handed k'.trace :=
    fun g => Iff.rfl
  have book' := book _ _ user entries
  refine ⟨own', ⟨?_, ?_, ?_⟩, ?_, new, current, fun va' elsewhere => ?_⟩
  · rw [current, rootSame]
    exact ⟨F.logged trivial site'.ok, site'.tables, site'.root, site'.taken⟩
  · rw [current, procs]
    exact book'
  · rw [current]
    refine inv.held.gain (fun g inside => keeps'.taken g (keeps₁.taken g inside))
      (fun g inside data => ?_) fresh
      (keeps'.taken f inUse) (keeps'.data f inUse free).1 physical ?_ fun a member => ?_
    · exact (keeps'.data g (keeps₁.taken g inside) data).1
    · rw [entries, if_pos rfl, frameOf_flags (by decide)]
    · exact inv.book.leaf_edit aligned high entries member fun equal => new (equal ▸ member)
  · rw [procs]
    exact book'.pages va (Finset.mem_insert_self va allocated)
  · rw [entries, if_neg elsewhere]

/-- `sys_user_allocate_page` returns a page that was not allocated, or stops in `alloc_page`. -/
theorem HeapInv.allocate (inv : HeapInv F k own allocated) (errors : AllocStops env stop) :
    Ensures (sysUserAllocatePage env) k (fun va k' => ∃ own', HeapInv F k' own' (insert va allocated) ∧
      Allocates k allocated va k') stop := by
  have book := inv.book
  rw [sysUserAllocatePage]
  refine Ensures.bind (inv.site.alloc errors) ?_
  rintro _ k₁ ⟨f, pool, call, rfl, _, small, fresh, inUse, free, mem, _, site₁, keeps₁⟩
  have frame := F.within inv.site.ok call
  rw [Nat.mul_div_cancel f (by decide)] at frame
  refine Ensures.step (get_apply k₁) ?_
  refine Ensures.step (get_apply k₁) ?_
  rw [keeps₁.current, keeps₁.procs]
  have few := book.count_small
  have finish := @HeapInv.mapTaken σ env trapSec F k own allocated stop inv errors k₁ f
  by_cases some : (k.procs k.current).userHeap.freePagesCount > 0
  · obtain ⟨n, count⟩ := Nat.exists_eq_succ_of_ne_zero some.ne'
    have index : decr32 (k.procs k.current).userHeap.freePagesCount = n := by
      rw [count] at few ⊢
      refine decr32_succ ?_
      simp only [MAX_FRAMES, PKE_MAX_ALLOWABLE_RAM, PGSIZE] at few
      omega
    obtain ⟨page, spare⟩ := book.spare n (by omega)
    obtain ⟨aligned, low, high⟩ := book.below page
    rw [if_pos some, index]
    refine Ensures.step (modify_apply _ _) ?_
    have check : ∀ k₂ : Kernel σ, assert (decide ((k.procs k.current).userHeap.freePagesAddress n <
        (k.procs k.current).userHeap.heapTop)) "va < current->user_heap.heap_top" k₂ = .ok () k₂ := by
      intro k₂
      simp [assert, page.2.2]
    refine Ensures.step (check _) ?_
    refine Ensures.step (pure_apply _ _) ?_
    refine finish site₁ keeps₁ mem fresh inUse free ⟨frame, small⟩ (fun _ => rfl) aligned low high spare ?_
    intro entry pte' user ptes
    refine book.pop count rfl rfl ?_ user ptes
    simp only [index]
  · have none : (k.procs k.current).userHeap.freePagesCount = 0 := Nat.eq_zero_of_not_pos some
    have room : ((k.procs k.current).regions 3).npages < MAX_FRAMES := by
      rw [← book.count, none]
      exact inv.held.card_lt frame fresh
    have address := book.top
    rw [book.bottom] at address
    have ends := heap_end book.few
    have positive : 0 < PGSIZE := by decide
    have bound : STACK_PAGE < WORD := by decide
    have next : ((k.procs k.current).userHeap.heapTop + PGSIZE) % WORD =
        (k.procs k.current).userHeap.heapTop + PGSIZE :=
      Nat.mod_eq_of_lt (by omega)
    have more : incr32 ((k.procs k.current).regions 3).npages = ((k.procs k.current).regions 3).npages + 1 := by
      rw [incr32, Nat.mod_eq_of_lt]
      simp only [MAX_FRAMES, PKE_MAX_ALLOWABLE_RAM, PGSIZE] at room
      omega
    have aligned : (k.procs k.current).userHeap.heapTop % PGSIZE = 0 := by
      rw [address, Nat.add_mul_mod_self_right]
      decide
    rw [if_neg some]
    refine Ensures.step (modify_apply _ _) ?_
    refine Ensures.step (modify_apply _ _) ?_
    refine Ensures.step (pure_apply _ _) ?_
    rw [Kernel.setProc_setProc]
    refine finish site₁ keeps₁ mem fresh inUse free ⟨frame, small⟩ (fun _ => rfl) aligned (by omega)
      (by omega) (fun member => ?_) ?_
    · exact absurd (book.pages _ member).2.2 (lt_irrefl _)
    · intro entry pte' user ptes
      refine book.grow none rfl room ?_ ?_ user ptes
      · exact more
      · exact congrArg (fun top => { (k.procs k.current).userHeap with heapTop := top }) next

/-- The errors of `pfree` are among those allowed. -/
def FreeStops (env : PageEnv σ) (stop : Stop → Prop) : Prop :=
  ∀ pa k e pool, env.free pa k = .error e pool → stop e

/-- `user_vm_unmap` of an aligned page that is mapped to a frame in use. -/
private theorem Site.unmapPage {dir va : ℕ} (errors : FreeStops env stop)
    (site : Site F.toPages k (dir / PGSIZE) own) (aligned : va % PGSIZE = 0) (low : 0 < va)
    (high : va < MAXVA) (valid : has (translate k.mem (dir / PGSIZE) va) PTE_V = true)
    (small : frameOf (translate k.mem (dir / PGSIZE) va) < 2 ^ 44)
    (inUse : frameOf (translate k.mem (dir / PGSIZE) va) ∈ handed k.trace)
    (data : own (frameOf (translate k.mem (dir / PGSIZE) va)) = none) :
    Ensures (userVmUnmap env dir va PGSIZE true) k (fun _ k' => Site F.toPages k' (dir / PGSIZE) own ∧
      k'.procs = k.procs ∧
      k'.current = k.current ∧ handed k'.trace =
      (handed k.trace).erase (frameOf (translate k.mem (dir / PGSIZE) va)) ∧
      ∀ va', translate k'.mem (dir / PGSIZE) va' = if pageOf va' = pageOf va then 0
      else translate k.mem (dir / PGSIZE) va') stop := by
  have word : va + PGSIZE < WORD := by
    simp only [MAXVA, WORD, PGSIZE] at *
    omega
  have walk := pageWalk_read env dir va k
  rw [if_pos ⟨low, high⟩] at walk
  rw [userVmUnmap, unmap_rounds aligned word, roundDown_self aligned, userVmUnmapLoop]
  cases found : leafTable k.mem (dir / PGSIZE) va with
  | none =>
    rw [translate, found, not_has_zero] at valid
    cases valid
  | some t =>
    have entry : k.mem t (PX 0 va) = translate k.mem (dir / PGSIZE) va := by rw [translate, found]
    rw [found] at walk
    refine Ensures.step walk ?_
    simp only [Option.map_some]
    refine Ensures.step (get_apply k) ?_
    have page : PTE2PA (translate k.mem (dir / PGSIZE) va) =
      frameOf (translate k.mem (dir / PGSIZE) va) * PGSIZE := PTE2PA_eq small
    simp only [pteAt, entry, if_pos valid, if_true, page]
    generalize frameOf (translate k.mem (dir / PGSIZE) va) = f at inUse data
    cases call : env.free (f * PGSIZE) k with
    | error e pool =>
      have stops : env.pfree (f * PGSIZE) k = .error e { k with pool := pool } := by rw [PageEnv.pfree, call]
      exact Ensures.fails stops (errors _ _ _ _ call)
    | ok _ pool =>
      have frees : env.pfree (f * PGSIZE) k = .ok () (k.gave (f * PGSIZE) pool) := by rw [PageEnv.pfree, call]
      refine Ensures.step frees ?_
      refine Ensures.step (modify_apply _ _) ?_
      have released : handed (k.gave (f * PGSIZE) pool).trace = (handed k.trace).erase f := by
        rw [Kernel.gave, handed, Nat.mul_div_cancel f (by decide)]
      have site₁ : Site F.toPages (k.gave (f * PGSIZE) pool) (dir / PGSIZE) own := by
        refine ⟨F.freed site.ok inUse call, site.tables, site.root, fun g table => ?_⟩
        rw [released]
        refine (List.mem_erase_of_ne ?_).mpr (site.taken g table)
        rintro rfl
        exact table data
      have found₁ : leafTable (k.gave (f * PGSIZE) pool).mem (dir / PGSIZE) va = some t := found
      obtain ⟨site₂, _, ptes⟩ := site₁.setLeaf found₁ 0
      exact ⟨site₂, rfl, rfl, released, ptes⟩

/-- `sys_user_free_page` of an allocated page, which stops only in `pfree` or because the list is full. -/
theorem HeapInv.release (inv : HeapInv F k own allocated) (errors : FreeStops env stop)
    (full : MAX_HEAP_PAGES ≤ (k.procs k.current).userHeap.freePagesCount → stop .outOfBounds) {va : ℕ}
    (member : va ∈ allocated) :
    Ensures (sysUserFreePage env va) k (fun _ k' => HeapInv F k' own (allocated.erase va) ∧
      SameElsewhere k va k')
      stop := by
  obtain ⟨aligned, low, high⟩ := inv.book.below (inv.book.pages va member)
  rw [sysUserFreePage]
  refine Ensures.step (get_apply k) ?_
  refine Ensures.step (get_apply k) ?_
  refine Ensures.bind (inv.site.unmapPage errors aligned (heap_positive low) (high.trans stack_below)
    (inv.book.leaf va member).1
    (inv.held.physical va member).2 (inv.held.inUse va member) (inv.held.data va member)) ?_
  rintro _ k₁ ⟨site₁, procs₁, current₁, released, ptes₁⟩
  by_cases room : (k.procs k.current).userHeap.freePagesCount < MAX_HEAP_PAGES
  swap
  · exact Ensures.fails (pushFreePage_full (by rwa [procs₁])) (full (Nat.not_lt.mp room))
  refine Ensures.step (pushFreePage_of_room (by rwa [procs₁])) ?_
  have finish : ∀ k₂ : Kernel σ, k₂ = (k₁.setProc k.current (releaseInto va)).record (.release k.current va) →
      HeapInv F k₂ own (allocated.erase va) ∧ SameElsewhere k va k₂ := by
    intro k₂ result
    have current : k₂.current = k.current := by rw [result, ← current₁]; rfl
    have procs : k₂.procs k.current = releaseInto va (k.procs k.current) := by
      rw [result, ← procs₁]
      exact Kernel.setProc_procs_self ..
    have root : rootOf k₂ k.current = (k.procs k.current).pagetable / PGSIZE := by
      rw [rootOf, procs]
      rfl
    have entries : ∀ a, pteOf k₂ k.current a = if pageOf a = pageOf va then 0 else pteOf k k.current a := by
      intro a
      rw [pteOf, root, result]
      exact ptes₁ a
    refine ⟨⟨?_, ?_, ?_⟩, current, fun va' elsewhere => ?_⟩
    · rw [current, root, result]
      exact ⟨F.logged trivial (F.stable (k := k₁) rfl rfl rfl site₁.ok), site₁.tables, site₁.root, site₁.taken⟩
    · rw [current, procs]
      exact inv.book.push member entries
    · rw [current]
      refine inv.held.lose member ?_ fun a inside other => inv.book.leaf_edit aligned high entries inside other
      rw [result]
      exact released
    · rw [entries, if_neg elsewhere]
  exact finish _ rfl

end

/-- The heap calls of a program. -/
inductive HeapCall where
  | allocate
  | free (va : ℕ)

/-- A heap call of the running process, with the addresses that are allocated to it: it releases
what it holds, and the free list has room. -/
inductive HeapStep (env : PageEnv σ) : Kernel σ × Finset ℕ → HeapCall → Kernel σ × Finset ℕ → Prop
  | allocate {k k' : Kernel σ} {allocated : Finset ℕ} {va : ℕ} (call : sysUserAllocatePage env k = .ok va k') :
      HeapStep env (k, allocated) .allocate (k', insert va allocated)
  | free {k k' : Kernel σ} {allocated : Finset ℕ} {va : ℕ} (member : va ∈ allocated)
      (room : (k.procs k.current).userHeap.freePagesCount < MAX_HEAP_PAGES)
      (call : sysUserFreePage env va k = .ok () k') :
      HeapStep env (k, allocated) (.free va) (k', allocated.erase va)

/-- Every sequence of heap calls keeps the heap in step. -/
theorem HeapInv.run {F : PageFrames env trapSec} {k k' : Kernel σ} {own : Owner}
    {allocated allocated' : Finset ℕ} {calls : List HeapCall} (inv : HeapInv F k own allocated)
    (run : Run (HeapStep env) (k, allocated) calls (k', allocated')) :
    ∃ own', HeapInv F k' own' allocated' := by
  have keep : ∀ (s : Kernel σ × Finset ℕ) call t, (∃ own, HeapInv F s.1 own s.2) → HeapStep env s call t →
      ∃ own, HeapInv F t.1 own t.2 := by
    rintro s call t ⟨own, inv⟩ step
    cases step with
    | allocate call =>
      obtain ⟨own', inv', _⟩ := (inv.allocate (trivialStops env)).of_ok call
      exact ⟨own', inv'⟩
    | free member room call =>
      have errors : FreeStops env fun _ => True := fun _ _ _ _ _ => trivial
      exact ⟨own, ((inv.release errors (fun _ => trivial) member).of_ok call).1⟩
  exact run.invariant keep ⟨own, inv⟩

/-- An entry in use is not the free one. -/
private theorem freeRegion_ne {regions : ℕ → MappedRegion} {j : ℕ} (inside : j < REGION_SLOTS)
    (used : (regions j).va ≠ 0) :
    freeRegion regions ≠ j := by
  rw [freeRegion]
  cases found : (List.range REGION_SLOTS).find? fun j => decide ((regions j).va = 0) with
  | none => exact Nat.ne_of_gt inside
  | some i =>
    have free : (regions i).va = 0 := by simpa using List.find?_some found
    rintro rfl
    exact used free

/-- Loading segments changes neither the heap manager nor the region of the heap. -/
theorem Loads.heap {P : Pages env trapSec} {pid : ℕ} {file : HostFile} {k k' : Kernel σ}
    {segments : List (ProgHeader × ℕ)} (loads : Loads env pid file k segments k') :
    ∀ {own : Owner}, Site P k (rootOf k pid) own → (∀ s ∈ segments, s.1.vaddr < WORD) →
      ((k.procs pid).regions 3).va ≠ 0 → (k'.procs pid).userHeap = (k.procs pid).userHeap ∧
      (k'.procs pid).regions 3 = (k.procs pid).regions 3 := by
  induction loads with
  | nil k =>
    intro own _ _ _
    exact ⟨rfl, rfl⟩
  | @cons k k₁ k' ph segments call rest ih =>
    intro own site words used
    obtain ⟨own₁, segment, _⟩ := site.loadSegment (words _ List.mem_cons_self) call
    obtain ⟨⟨type, proc⟩, _⟩ := segment.registered
    have region : (k₁.procs pid).regions 3 = (k.procs pid).regions 3 := by
      rw [proc]
      exact Function.update_of_ne (freeRegion_ne (by decide) used).symm _ _
    obtain ⟨heap, same⟩ := ih segment.siteNext (fun s member => words s (List.mem_cons_of_mem _ member))
      (by rw [region]; exact used)
    refine ⟨heap.trans ?_, same.trans region⟩
    rw [proc]
    rfl

/-- The process runs: since it was loaded, only scheduling fields and the trapframe changed. -/
structure Started (pid : ℕ) (k k' : Kernel σ) : Prop where
  quiet : Quiet k k'
  current : k'.current = pid
  tp : k'.tp = k.tp

/-- A page below the heap is not one of its pages. -/
private theorem pageOf_below {va a : ℕ} (below : va < USER_FREE_ADDRESS_START)
    (low : USER_FREE_ADDRESS_START ≤ a) (high : a < STACK_PAGE) : pageOf a ≠ pageOf va := by
  have start : USER_FREE_ADDRESS_START = 4194304 := rfl
  simp only [pageOf, STACK_PAGE, USER_STACK_TOP, PGSIZE] at *
  omega

/-- The pages of a segment below the heap. -/
private theorem segment_below {va f : ℕ} {m : ℕ × ℕ} (below : va + PGSIZE ≤ USER_FREE_ADDRESS_START)
    (member : m ∈ segmentMappings va f) : m.1 < USER_FREE_ADDRESS_START := by
  rcases mem_segmentMappings.mp member with ⟨_, rfl⟩ | ⟨two, rfl⟩
  · simp only [ROUNDDOWN, PGSIZE] at *
    omega
  · have unaligned : va % PGSIZE ≠ 0 := by
      intro aligned
      rw [roundsFor, if_pos aligned] at two
      cases two
    simp only [ROUNDDOWN, PGSIZE] at *
    omega

section

variable {lay : Layout} {F : PageFrames env (lay.trapSecStart / PGSIZE)} {k₀ k₁ k₂ k k' : Kernel σ}
  {own : Owner} {pid : ℕ}
  {file : HostFile} {ehdr : ElfHeader}

/-- A process that starts to run has an empty heap. -/
private theorem heapInv_start (space : Space F.toSupply k₀ own) (spawn : allocProcess env lay k₀ = .ok pid k₁)
    (load : elfLoad env pid file ehdr k₁ = .ok .EL_OK k₂)
    (below : ∀ ph ∈ loadHeaders file ehdr 0 ehdr.phnum, ph.vaddr + PGSIZE ≤ USER_FREE_ADDRESS_START)
    (started : Started pid k₂ k) : ∃ own', HeapInv F k own' ∅ := by
  obtain ⟨own₁, spawned⟩ := space.allocProcess.of_ok spawn
  have site : Site F.toPages k₁ (rootOf k₁ pid) own₁ := Space.site spawned.only.space spawned.inside
  obtain ⟨loads, headers⟩ := elfLoadLoop_ok ehdr.phnum 0 load
  obtain ⟨_, own₂, loaded, _⟩ := site.elfLoad load
  obtain ⟨_, leaves, _⟩ := spawned.leaves
  have fields := spawned.fields
  have used : ((k₁.procs pid).regions 3).va ≠ 0 := fields.inUse.used 3 (by decide)
  obtain ⟨heap, region⟩ := loads.heap site
    (fun s member => loadHeaders_word (headers ▸ List.mem_map_of_mem member)) used
  have harmless := started.quiet.procs pid
  have npages : ((k.procs pid).regions 3).npages = 0 := by
    rw [harmless.regions, region, fields.npages (by decide)]
    rfl
  have sameHeap : (k.procs pid).userHeap = (k₁.procs pid).userHeap := harmless.heap.trans heap
  have root : rootOf k pid = rootOf k₁ pid := by
    rw [← loaded.root, rootOf, rootOf, harmless.pagetable]
  have vacant : ∀ a, USER_FREE_ADDRESS_START ≤ a → a < STACK_PAGE → has (pteOf k pid a) PTE_V = false := by
    intro a low high
    rw [started.quiet.pteOf, pteOf, loaded.root, loaded.maps.others a ?_]
    · exact leaves.low a high
    · intro m member
      obtain ⟨s, listed, inside⟩ := List.mem_flatMap.mp member
      exact pageOf_below (segment_below (below s.1 (headers ▸ List.mem_map_of_mem listed)) inside) low high
  refine ⟨own₂, ?_, ?_, ?_⟩
  · rw [started.current, root]
    exact loaded.site.congr started.quiet.mem started.quiet.pool started.quiet.trace started.tp
  · rw [started.current]
    have count : (k.procs pid).userHeap.freePagesCount = 0 := by rw [sameHeap, fields.count]
    constructor
    · rw [sameHeap, fields.heapBottom]
    · rw [npages, sameHeap, fields.heapBottom, fields.heapTop, Nat.zero_mul, Nat.add_zero]
    · rw [npages]
      exact Nat.zero_le _
    · rw [count, npages]
      rfl
    · intro a member
      exact absurd member (Finset.notMem_empty a)
    · intro i inside
      omega
    · intro i inside
      omega
    · intro a _ low high
      rw [vacant a low high]
      simp
    · intro a member
      exact absurd member (Finset.notMem_empty a)
  · constructor <;> intro a member <;> exact absurd member (Finset.notMem_empty a)

/-- The heap of the running process when these addresses are allocated to it: the heap region has
the size of the heap, and the mapped pages of the heap are the allocated ones. -/
structure HeapExact (k : Kernel σ) (allocated : Finset ℕ) : Prop where
  size : (k.procs k.current).userHeap.heapTop =
    (k.procs k.current).userHeap.heapBottom + ((k.procs k.current).regions 3).npages * PGSIZE
  mapped : ∀ va, HeapPage (k.procs k.current) va → (has (pteOf k k.current va) PTE_V = true ↔ va ∈ allocated)
  pages : ∀ va ∈ allocated, HeapPage (k.procs k.current) va ∧ UserLeaf (pteOf k k.current va)

theorem HeapInv.exact {allocated : Finset ℕ} (inv : HeapInv F k own allocated) : HeapExact k allocated := by
  refine ⟨inv.book.top, fun va page => ?_, fun va member => ⟨inv.book.pages va member, inv.book.leaf va member⟩⟩
  obtain ⟨aligned, low, high⟩ := inv.book.below page
  exact inv.book.mapped va aligned low high

/-- After every sequence of heap calls of a well-behaved program the heap is exact; an allocation
returns a page that is not allocated or stops in `alloc_page`, a release stops at most in `pfree` or
at a full free list, and both leave the other translations alone. -/
theorem heap_exact (space : Space F.toSupply k₀ own) (spawn : allocProcess env lay k₀ = .ok pid k₁)
    (load : elfLoad env pid file ehdr k₁ = .ok .EL_OK k₂)
    (below : ∀ ph ∈ loadHeaders file ehdr 0 ehdr.phnum, ph.vaddr + PGSIZE ≤ USER_FREE_ADDRESS_START)
    (started : Started pid k₂ k) {calls : List HeapCall} {allocated : Finset ℕ}
    (run : Run (HeapStep env) (k, ∅) calls (k', allocated)) :
    HeapExact k' allocated ∧
    Ensures (sysUserAllocatePage env) k'
      (fun va k'' => Allocates k' allocated va k'' ∧ HeapExact k'' (insert va allocated))
      (fun e => ∃ k pool, env.alloc k = .error e pool) ∧
    ∀ va ∈ allocated, Ensures (sysUserFreePage env va) k'
      (fun _ k'' => SameElsewhere k' va k'' ∧ HeapExact k'' (allocated.erase va))
      (fun e => (∃ pa k pool, env.free pa k = .error e pool) ∨
        e = .outOfBounds ∧ MAX_HEAP_PAGES ≤ (k'.procs k'.current).userHeap.freePagesCount) := by
  obtain ⟨own₁, start⟩ := heapInv_start space spawn load below started
  obtain ⟨own', inv⟩ := start.run run
  have allocStops : AllocStops env fun e => ∃ k pool, env.alloc k = .error e pool :=
    fun k _ pool failed => ⟨k, pool, failed⟩
  have freeStops : FreeStops env fun e => (∃ pa k pool, env.free pa k = .error e pool) ∨
      e = .outOfBounds ∧ MAX_HEAP_PAGES ≤ (k'.procs k'.current).userHeap.freePagesCount :=
    fun pa k _ pool failed => .inl ⟨pa, k, pool, failed⟩
  refine ⟨inv.exact, ?_, fun va member => ?_⟩
  · refine Ensures.mono (inv.allocate allocStops) ?_
    rintro va k'' ⟨own'', inv'', allocates⟩
    exact ⟨allocates, inv''.exact⟩
  · refine Ensures.mono (inv.release freeStops (fun full => .inr ⟨rfl, full⟩) member) ?_
    rintro _ k'' ⟨inv'', same⟩
    exact ⟨same, inv''.exact⟩

end

/-- `switch_to` starts the process. -/
theorem switchTo_started {pid : ℕ} {k k' : Kernel σ} (call : switchTo pid k = .ok () k') :
    Started pid k k' := by
  obtain ⟨-, rfl⟩ := EStateM.Result.ok.inj call
  have moved : Saved k { k with current := pid } := ⟨rfl, rfl, rfl, fun i => ⟨(k.procs i).frame, rfl⟩⟩
  exact ⟨(moved.setProc pid fun p => { p.frame with kernelSp := p.kstack }).quiet, rfl, rfl⟩

/-- An allocator that returns the first of its frames that is not in use. -/
def firstFitEnv (frames : List ℕ) : PageEnv Unit where
  alloc k :=
    match frames.find? fun f => f ∉ handed k.trace with
    | some f => .ok (f * PGSIZE) ()
    | none => .error (.panic "out of memory") ()
  free _ _ := .ok () ()
  share _ _ := ()
  refs _ _ := 1

private theorem firstFitEnv_alloc {frames : List ℕ} {k : Kernel Unit} {pa : ℕ} {pool : Unit}
    (call : (firstFitEnv frames).alloc k = .ok pa pool) : ∃ f ∈ frames, pa = f * PGSIZE ∧
    f ∉ handed k.trace := by
  simp only [firstFitEnv] at call
  cases found : frames.find? fun f => decide (f ∉ handed k.trace) with
  | none =>
    rw [found] at call
    cases call
  | some f =>
    rw [found] at call
    obtain ⟨rfl, -⟩ := EStateM.Result.ok.inj call
    exact ⟨f, List.mem_of_find?_eq_some found, rfl, by simpa using List.find?_some found⟩

/-- The frame that it returns is free memory, if its frames are memory behind the kernel image. -/
private theorem firstFitEnv_fresh {frames : List ℕ} {trapSec : ℕ}
    (ram : ∀ f ∈ frames, KERN_BASE ≤ f * PGSIZE ∧ f < 2 ^ 44 ∧ f ≠ trapSec) {k : Kernel Unit} {pa : ℕ}
    {pool : Unit} (call : (firstFitEnv frames).alloc k = .ok pa pool) :
    ∃ f, pa = f * PGSIZE ∧ KERN_BASE ≤ f * PGSIZE ∧ f < 2 ^ 44 ∧ f ∉ handed k.trace ∧ True := by
  obtain ⟨f, member, address, free⟩ := firstFitEnv_alloc call
  obtain ⟨low, small, _⟩ := ram f member
  exact ⟨f, address, low, small, free, trivial⟩

private theorem firstFitEnv_unmapped {frames : List ℕ} {trapSec : ℕ}
    (ram : ∀ f ∈ frames, KERN_BASE ≤ f * PGSIZE ∧ f < 2 ^ 44 ∧ f ≠ trapSec) {k : Kernel Unit} {pa : ℕ}
    {pool : Unit} (kept : ∀ f, Mapped k f → f ∈ {f | f ∈ handed k.trace} ∨ f = trapSec)
    (call : (firstFitEnv frames).alloc k = .ok pa pool) :
    ∃ f, pa = f * PGSIZE ∧ KERN_BASE ≤ f * PGSIZE ∧ f < 2 ^ 44 ∧ f ∉ handed k.trace ∧ f ≠ trapSec ∧
    ¬ Mapped k f ∧
      True := by
  obtain ⟨f, member, address, free⟩ := firstFitEnv_alloc call
  obtain ⟨low, small, image⟩ := ram f member
  exact ⟨f, address, low, small, free, image, fun mapped => (kept f mapped).elim free image, trivial⟩

theorem firstFitEnv_within {frames : List ℕ} {k : Kernel Unit} {pa : ℕ} {pool : Unit}
    (call : (firstFitEnv frames).alloc k = .ok pa pool) : pa / PGSIZE ∈ frames := by
  obtain ⟨f, member, rfl, _⟩ := firstFitEnv_alloc call
  rw [Nat.mul_div_cancel f (by decide)]
  exact member

private theorem handed_setOf {e : PageEvent} (log : Logs e) (trace : List PageEvent) :
    {f | f ∈ handed (e :: trace)} = {f | f ∈ handed trace} := by
  rw [handed_logs log]

private theorem insert_handed (f : ℕ) (trace : List PageEvent) :
    insert f {g | g ∈ handed trace} ⊆ {g | g ∈ handed (.alloc (f * PGSIZE) :: trace)} := by
  rw [handed_alloc]
  rintro g (rfl | old)
  · exact List.mem_cons_self
  · exact List.mem_cons_of_mem _ old

/-- The pages in use are those that were handed out and not freed. -/
def firstFitFrames (frames : List ℕ) (trapSec : ℕ)
    (ram : ∀ f ∈ frames, KERN_BASE ≤ f * PGSIZE ∧ f < 2 ^ 44 ∧ f ≠ trapSec)
    (distinct : frames.Nodup) (few : frames.length ≤ MAX_FRAMES) : PageFrames (firstFitEnv frames) trapSec where
  Ok _ := True
  Kept trace := {f | f ∈ handed trace}
  stable _ _ _ _ := trivial
  logged _ _ := trivial
  share _ _ := trivial
  alloc _ kept call := firstFitEnv_unmapped ram kept call
  keptLogged trace log := handed_setOf log trace
  keptAlloc f trace := insert_handed f trace
  fresh _ call := firstFitEnv_fresh ram call
  frames := ⟨frames, distinct⟩
  few := few
  within _ call := firstFitEnv_within call
  freed _ _ _ := trivial

/-- The frames of a small machine, behind the kernel image. -/
def smallFrames : List ℕ := List.range' 0x80400 64

/-- A machine with these frames on which no process was started yet. -/
def firstFitKernel : Kernel Unit where
  pool := ()
  mem _ _ := 0
  procs i := { zeroProcess with pid := i }
  current := 0
  readyQueueHead := none
  tp := 0
  varargs _ := 0
  trace := []

/-- A heap call as a function. -/
def heapNext (env : PageEnv σ) (s : Kernel σ × Finset ℕ) : HeapCall → Option (Kernel σ × Finset ℕ)
  | .allocate =>
    match sysUserAllocatePage env s.1 with
    | .ok va k => some (k, insert va s.2)
    | .error _ _ => none
  | .free va =>
    if va ∈ s.2 ∧ (s.1.procs s.1.current).userHeap.freePagesCount < MAX_HEAP_PAGES then
      match sysUserFreePage env va s.1 with
      | .ok _ k => some (k, s.2.erase va)
      | .error _ _ => none
    else none

private theorem heapNext_step (s : Kernel σ × Finset ℕ) (call : HeapCall) (t : Kernel σ × Finset ℕ)
    (next : heapNext env s call = some t) : HeapStep env s call t := by
  obtain ⟨k, allocated⟩ := s
  cases call with
  | allocate =>
    simp only [heapNext] at next
    split at next
    · rename_i va k' call
      obtain rfl := Option.some.inj next
      exact .allocate call
    · cases next
  | free va =>
    simp only [heapNext] at next
    split_ifs at next with allowed
    split at next
    · rename_i k' call
      obtain rfl := Option.some.inj next
      exact .free allowed.1 allowed.2 call
    · cases next

/-- A program allocates two pages, releases the first one and allocates again. -/
def smallHeapCalls : List HeapCall := [.allocate, .allocate, .free USER_FREE_ADDRESS_START, .allocate]

theorem heap_exact_small : ∃ pid k₁ k₂ k k' allocated,
    allocProcess (firstFitEnv smallFrames) smallLayout firstFitKernel = .ok pid k₁ ∧
    elfLoad (firstFitEnv smallFrames) pid smallProgram smallHeader k₁ = .ok .EL_OK k₂ ∧
    switchTo pid k₂ = .ok () k ∧
    Run (HeapStep (firstFitEnv smallFrames)) (k, ∅) smallHeapCalls (k', allocated) ∧
    allocated = {USER_FREE_ADDRESS_START, USER_FREE_ADDRESS_START + PGSIZE} ∧ HeapExact k' allocated := by
  have checked : returned (fun pid k₁ =>
      returned (fun status k₂ => decide (status = .EL_OK) && returned (fun _ k =>
      (evalRun (heapNext (firstFitEnv smallFrames)) (k, ∅) smallHeapCalls).any
        fun s => decide (s.2 = {USER_FREE_ADDRESS_START, USER_FREE_ADDRESS_START + PGSIZE}))
      (switchTo pid k₂)) (elfLoad (firstFitEnv smallFrames) pid smallProgram smallHeader k₁))
      (allocProcess (firstFitEnv smallFrames) smallLayout firstFitKernel) = true := by decide +kernel
  obtain ⟨pid, k₁, spawn, loads⟩ := returned_eq_true checked
  obtain ⟨status, k₂, load, both⟩ := returned_eq_true loads
  obtain ⟨ok, starts⟩ := Bool.and_eq_true_iff.mp both
  obtain rfl := of_decide_eq_true ok
  obtain ⟨_, k, start, runs⟩ := returned_eq_true starts
  obtain ⟨s, run, result⟩ := Run.of_eval heapNext_step runs
  have frames : ∀ f ∈ smallFrames, KERN_BASE ≤ f * PGSIZE ∧ f < 2 ^ 44 ∧
    f ≠ smallLayout.trapSecStart / PGSIZE := by decide
  have space : Space (firstFitFrames smallFrames _ frames List.nodup_range' (by decide)).toSupply
    firstFitKernel fun _ => none := by
    refine ⟨(reset_sane _ fun _ _ => rfl).shape, trivial, ?_⟩
    rintro f ⟨pid, inside, _⟩
    exact absurd rfl inside.2.1
  have below : ∀ ph ∈ loadHeaders smallProgram smallHeader 0 smallHeader.phnum,
    ph.vaddr + PGSIZE ≤ USER_FREE_ADDRESS_START := by decide
  exact ⟨pid, k₁, k₂, k, s.1, s.2, spawn, load, start, run, of_decide_eq_true result,
    (heap_exact space spawn load below (switchTo_started start) run).1⟩

end Pke.Proofs
