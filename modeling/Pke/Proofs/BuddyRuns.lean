import Pke.Lib.Run
import Pke.Proofs.BuddyInit
import Pke.Proofs.PmmCalls
import Mathlib.Order.CompletePartialOrder

/-! # Histories of buddy calls

A run calls `buddy_alloc` and `buddy_free` in any order, and releases only blocks that it holds. The
state of a run is the allocator together with the caller's record of the live blocks, as address and
requested order. Every state of every run satisfies the representation invariant.
-/

namespace Pke.Proofs

open Pke.Lib Pke.Model

/-- The calls of a run. -/
inductive BuddyCall where
  | alloc (order : ℕ)
  | free (addr : ℕ)

/-- The allocator and the blocks that were returned and not freed since. -/
structure Holding where
  pmm : Pmm
  live : List (ℕ × ℕ)

/-- One returning call. Only a live block is freed. -/
inductive BuddyStep : Holding → BuddyCall → Holding → Prop
  | alloc {s t : Pmm} {live : List (ℕ × ℕ)} {k addr : ℕ} (small : k < MAX_ORDER)
      (call : buddyAlloc k s = .ok addr t) : BuddyStep ⟨s, live⟩ (.alloc k) ⟨t, (addr, k) :: live⟩
  | free {s t : Pmm} {live : List (ℕ × ℕ)} {k addr : ℕ} (member : (addr, k) ∈ live)
      (call : buddyFree addr s = .ok () t) : BuddyStep ⟨s, live⟩ (.free addr) ⟨t, live.erase (addr, k)⟩

/-- What `pmm_init` leaves behind before it fills the caches, on a machine whose number of pages is a
multiple of the largest block. -/
structure SetUp (s : Pmm) : Prop where
  whole : 2 ^ (MAX_ORDER - 1) ∣ s.nrPages
  called : ∃ kernelEnd memSize before, KERN_BASE ≤ kernelEnd ∧ pmmSetup kernelEnd memSize before = .ok () s

/-- Managed frames. -/
def managed (s : Pmm) : Set ℕ := Set.Ico (ADDR_TO_PFN s.buddyStart) (ADDR_TO_PFN s.buddyEnd)

/-- The invariant of a run, in frame numbers. -/
def BuddyOk (s : Pmm) (owned : List (ℕ × ℕ)) (lists : ℕ → List ℕ) : Prop :=
  BuddyInv s.nrPages (ADDR_TO_PFN s.buddyStart) (ADDR_TO_PFN s.buddyEnd) s.buddy owned lists

/-- The record of the caller for live blocks given by frame number. -/
def addresses (owned : List (ℕ × ℕ)) : List (ℕ × ℕ) := owned.map fun e => (PFN_TO_ADDR e.1, e.2)

/-- What every call keeps. -/
def RunInv (h : Holding) : Prop :=
  2 ^ (MAX_ORDER - 1) ∣ h.pmm.nrPages ∧ h.pmm.nrPages ≤ WORD ∧ h.pmm.lock = false ∧
    ∃ owned lists, h.live = addresses owned ∧ BuddyOk h.pmm owned lists

private theorem roundup_roundup (a : ℕ) : ROUNDUP (ROUNDUP a PGSIZE) PGSIZE = ROUNDUP a PGSIZE := by
  simp only [ROUNDUP, PGSIZE]
  omega

private theorem rounddown_rounddown (a : ℕ) : ROUNDDOWN (ROUNDDOWN a PGSIZE) PGSIZE = ROUNDDOWN a PGSIZE := by
  simp only [ROUNDDOWN, PGSIZE]
  omega

/-- How `pmm_init` calls `buddy_system_init`: on cleared descriptors, for an interval inside of the memory. -/
theorem pmmSetup_calls {kernelEnd memSize : ℕ} {s t : Pmm} (image : KERN_BASE ≤ kernelEnd)
    (ok : pmmSetup kernelEnd memSize s = .ok () t) :
    t.nrPages ≤ 32768 ∧ DRAM_BASE ≤ t.buddyStart ∧ DRAM_BASE ≤ t.buddyEnd ∧
    t.buddyEnd ≤ DRAM_BASE + t.nrPages * PGSIZE ∧
      ∃ cleared : Buddy, (∀ f < t.nrPages, (cleared.pages f).isFree = false) ∧
        t.buddy = buddySystemInit t.buddyStart t.buddyEnd cleared := by
  obtain ⟨_, rfl⟩ := pmmSetup_eq_ok ok
  dsimp only
  refine ⟨?_, ?_, ?_, ?_, _, fun f small => ?_, rfl⟩
  · simp only [PKE_MAX_ALLOWABLE_RAM, PGSIZE]
    omega
  · simp only [ROUNDUP, PGSIZE, DRAM_BASE, KERN_BASE, PAGE_T_SIZE] at *
    omega
  · simp only [ROUNDDOWN, PGSIZE, DRAM_BASE]
    omega
  · simp only [ROUNDDOWN, PGSIZE, DRAM_BASE]
    omega
  · simp [small, reservedPage]

theorem pmmSetup_inv {kernelEnd memSize : ℕ} {s t : Pmm} (image : KERN_BASE ≤ kernelEnd)
    (ok : pmmSetup kernelEnd memSize s = .ok () t) :
    t.nrPages ≤ 32768 ∧ t.lock = false ∧ t.caches = s.caches ∧ ∃ lists, BuddyOk t [] lists := by
  obtain ⟨cap, low, above, below, cleared, zeroed, scan⟩ := pmmSetup_calls image ok
  obtain ⟨lists, inv⟩ := buddySystemInit_inv zeroed low above below (by simp only [WORD]; omega)
  rw [← scan] at inv
  obtain ⟨_, rfl⟩ := pmmSetup_eq_ok ok
  refine ⟨cap, rfl, rfl, lists, ?_⟩
  simpa only [BuddyOk, firstFrame, lastFrame, roundup_roundup, rounddown_rounddown] using inv

theorem SetUp.runInv {s : Pmm} (start : SetUp s) : RunInv ⟨s, []⟩ := by
  obtain ⟨kernelEnd, memSize, before, image, ok⟩ := start.called
  obtain ⟨cap, unlocked, _, lists, inv⟩ := pmmSetup_inv image ok
  exact ⟨start.whole, by simp only [WORD]; omega, unlocked, [], lists, rfl, inv⟩

private theorem record_injective : Function.Injective fun e : ℕ × ℕ => (PFN_TO_ADDR e.1, e.2) := by
  rintro ⟨f, i⟩ ⟨g, j⟩ equal
  simp only [Prod.mk.injEq] at equal
  rw [pfn_addr_injective equal.1, equal.2]

theorem runInv_step {h h' : Holding} {call : BuddyCall} (inv : RunInv h) (step : BuddyStep h call h') :
    RunInv h' := by
  obtain ⟨whole, word, unlocked, owned, lists, same, ok⟩ := inv
  cases step with
  | alloc small call =>
    obtain ⟨_, _, p, b, taken, rfl, rfl⟩ := buddyAlloc_eq_ok.mp call
    obtain ⟨lists', next⟩ := BuddyInv.take ok small taken
    exact ⟨whole, word, rfl, (p, _) :: owned, lists', congrArg _ same, next⟩
  | @free s _ live k addr member call =>
    obtain ⟨_, _, rfl⟩ := buddyFree_eq_ok.mp call
    change live = addresses owned at same
    obtain ⟨⟨p, order⟩, inside, equal⟩ := List.mem_map.mp (same ▸ member)
    obtain ⟨rfl, rfl⟩ := Prod.mk.inj equal
    obtain ⟨lists', next⟩ := BuddyInv.merge ok inside whole word
    refine ⟨whole, word, rfl, owned.erase (p, order), lists', ?_, ?_⟩
    · change live.erase _ = addresses _
      rw [same, addresses, addresses, List.map_erase record_injective]
    · rw [addr_pfn]
      exact next

theorem runInv_of_run {s : Pmm} (start : SetUp s) {calls : List BuddyCall} {h : Holding}
    (run : Run BuddyStep ⟨s, []⟩ calls h) : RunInv h :=
  run.invariant (fun _ _ _ inv step => runInv_step inv step) start.runInv

/-- The frame number and order of every block on the lists. -/
def freeBlocks (lists : ℕ → List ℕ) : List (ℕ × ℕ) :=
  (List.range MAX_ORDER).flatMap fun k => (lists k).map fun f => (f, k)

/-- The frame number and requested order of every live block. -/
def liveBlocks (live : List (ℕ × ℕ)) : List (ℕ × ℕ) := live.map fun e => (ADDR_TO_PFN e.1, e.2)

theorem mem_freeBlocks {lists : ℕ → List ℕ} {e : ℕ × ℕ} :
    e ∈ freeBlocks lists ↔ e.2 < MAX_ORDER ∧ e.1 ∈ lists e.2 := by
  simp only [freeBlocks, List.mem_flatMap, List.mem_range, List.mem_map]
  constructor
  · rintro ⟨k, small, f, member, rfl⟩
    exact ⟨small, member⟩
  · rintro ⟨small, member⟩
    exact ⟨e.2, small, e.1, member, rfl⟩

theorem liveBlocks_addresses (owned : List (ℕ × ℕ)) : liveBlocks (addresses owned) = owned := by
  simp [liveBlocks, addresses, Function.comp_def, addr_pfn]

/-- The rings of `free_area` hold `lists`; flags and lists agree in both directions; free and live
blocks partition the managed frames. -/
structure Represents (s : Pmm) (live : List (ℕ × ℕ)) (lists : ℕ → List ℕ) : Prop where
  free : FreeLists s.buddy lists
  nodes : ∀ k < MAX_ORDER, ∀ f ∈ lists k, 2 ^ k ∣ f ∧
    (s.buddy.pages f).isFree = true ∧ (s.buddy.pages f).isHead = true ∧ (s.buddy.pages f).order = k ∧
    (lists k).count f = 1 ∧ ∀ j < MAX_ORDER, j ≠ k → f ∉ lists j
  listed : ∀ f < s.nrPages, (s.buddy.pages f).isFree = true → (s.buddy.pages f).isHead = true →
    (s.buddy.pages f).order < MAX_ORDER ∧ f ∈ lists (s.buddy.pages f).order
  disjoint : (freeBlocks lists ++ liveBlocks live).Pairwise fun d e => Disjoint (span d) (span e)
  cover : {x | ∃ e ∈ freeBlocks lists ++ liveBlocks live, x ∈ span e} = managed s

section

variable {nr lo hi : ℕ} {b : Buddy} {owned : List (ℕ × ℕ)} {lists : ℕ → List ℕ}

/-- Every managed frame without an owner lies in a free block. -/
theorem BuddyInv.exists_free (inv : BuddyInv nr lo hi b owned lists) {x : ℕ} (free : x ∈ unowned lo hi owned) :
    ∃ k < MAX_ORDER, ∃ f ∈ lists k, x ∈ span (f, k) := by
  obtain ⟨block, maximal, inside⟩ := Block.exists_isMaximal (MAX_ORDER - 1) free
  have small : block.order < MAX_ORDER := by
    have le := maximal.1
    simp only [MAX_ORDER] at le ⊢
    omega
  exact ⟨block.order, small, block.start, (inv.members _ small _).mpr ⟨block.aligned, maximal⟩, inside⟩

theorem freeBlocks_pairwise (inv : BuddyInv nr lo hi b owned lists) :
    (freeBlocks lists).Pairwise fun d e => Disjoint (span d) (span e) := by
  have apart : ∀ d ∈ freeBlocks lists, ∀ e ∈ freeBlocks lists, d ≠ e → Disjoint (span d) (span e) := by
    intro d inD e inE different
    obtain ⟨dSmall, dListed⟩ := mem_freeBlocks.mp inD
    obtain ⟨eSmall, eListed⟩ := mem_freeBlocks.mp inE
    refine Set.disjoint_left.mpr fun x first second => different ?_
    have same := ((inv.members _ dSmall _).mp dListed).unique ((inv.members _ eSmall _).mp eListed) first second
    exact Prod.ext same.1 same.2
  have nodup : (freeBlocks lists).Nodup := by
    refine List.nodup_flatMap.mpr ⟨fun k member => ?_, ?_⟩
    · exact (inv.free.nodup (List.mem_range.mp member)).map fun f g same => (Prod.mk.inj same).1
    · refine List.nodup_range.imp fun different => ?_
      intro e inFirst inSecond
      obtain ⟨f, _, rfl⟩ := List.mem_map.mp inFirst
      obtain ⟨g, _, same⟩ := List.mem_map.mp inSecond
      exact different (Prod.mk.inj same).2.symm
  exact nodup.imp_of_mem fun inD inE different => apart _ inD _ inE different

/-- The abstract invariant in the terms of the descriptors. -/
theorem BuddyOk.represents {s : Pmm} (ok : BuddyOk s owned lists) : Represents s (addresses owned) lists := by
  have inv : BuddyInv _ _ _ _ _ _ := ok
  refine ⟨inv.free, ?_, inv.listed, ?_, ?_⟩
  · intro k small f member
    have flags := inv.flags k small f member
    refine ⟨((inv.members k small f).mp member).1, flags.1, flags.2.1, flags.2.2, ?_, ?_⟩
    · exact List.count_eq_one_of_mem (inv.free.nodup small) member
    · intro j jSmall different
      exact inv.free.not_mem_of_mem small jSmall (Ne.symm different) member
  · rw [liveBlocks_addresses]
    refine List.pairwise_append.mpr ⟨freeBlocks_pairwise inv, ?_, ?_⟩
    · exact inv.disjoint.imp fun far => Set.disjoint_left.mpr far
    · intro d inD e inE
      obtain ⟨small, listed⟩ := mem_freeBlocks.mp inD
      refine Set.disjoint_left.mpr fun x inside other => ?_
      exact (((inv.members _ small _).mp listed).subset inside).2.2 e inE other
  · rw [liveBlocks_addresses]
    ext x
    constructor
    · rintro ⟨e, member, inside⟩
      rcases List.mem_append.mp member with free | live
      · obtain ⟨small, listed⟩ := mem_freeBlocks.mp free
        have unowned := ((inv.members _ small _).mp listed).subset inside
        exact ⟨unowned.1, unowned.2.1⟩
      · exact (inv.owned e live).2.2.1 inside
    · rintro ⟨low, high⟩
      by_cases covered : ∃ e ∈ owned, x ∈ span e
      · obtain ⟨e, live, inside⟩ := covered
        exact ⟨e, List.mem_append_right _ live, inside⟩
      · push Not at covered
        obtain ⟨k, small, f, listed, inside⟩ := inv.exists_free ⟨low, high, covered⟩
        exact ⟨(f, k), List.mem_append_left _ (mem_freeBlocks.mpr ⟨small, listed⟩), inside⟩

end

/-- The representation invariant of the buddy system holds after every history of calls. -/
theorem buddy_representation {s t : Pmm} (start : SetUp s) {calls : List BuddyCall} {live : List (ℕ × ℕ)}
    (run : Run BuddyStep ⟨s, []⟩ calls ⟨t, live⟩) : ∃ lists, Represents t live lists := by
  obtain ⟨_, _, _, owned, lists, rfl, ok⟩ := runInv_of_run start run
  exact ⟨lists, ok.represents⟩

/-- A free block at least as large as the request is enough for `buddy_alloc`. -/
theorem FreeLists.take_isSome {b : Buddy} {lists : ℕ → List ℕ} {k j : ℕ} (free : FreeLists b lists) (le : k ≤ j)
    (small : j < MAX_ORDER) (nonempty : lists j ≠ []) : ∃ p b', buddyTake k b = some (p, b') := by
  cases found : findArea b k with
  | none => exact absurd (free.findArea_eq_none_iff.mp found j le small) nonempty
  | some i => exact ⟨_, _, by rw [buddyTake, found, Option.map_some]⟩

/-- The first call of a run: it returns as soon as there is one managed frame. -/
private theorem SetUp.first_alloc {s : Pmm} (start : SetUp s) (nonempty : (managed s).Nonempty) :
    ∃ addr t, BuddyStep ⟨s, []⟩ (.alloc 0) ⟨t, [(addr, 0)]⟩ := by
  obtain ⟨_, _, unlocked, owned, lists, same, ok⟩ := start.runInv
  obtain rfl : owned = [] := List.map_eq_nil_iff.mp same.symm
  obtain ⟨x, low, high⟩ := nonempty
  obtain ⟨k, small, f, listed, _⟩ := BuddyInv.exists_free ok (x := x) ⟨low, high, by simp⟩
  obtain ⟨p, b, taken⟩ := (BuddyInv.free ok).take_isSome (Nat.zero_le k) small (List.ne_nil_of_mem listed)
  exact ⟨_, _, .alloc (by decide) (buddyAlloc_eq_ok.mpr ⟨by decide, unlocked, p, b, taken, rfl, rfl⟩)⟩

/-- Cleared allocator variables. -/
def blankPmm : Pmm :=
  ⟨⟨fun _ => ⟨false, false, 0, 0⟩, ⟨id, id⟩⟩, false, fun _ => ⟨fun _ => 0, 0⟩, 0, 0, 0, []⟩

/-- A machine with 4 MiB and a kernel image of 64 KiB. -/
def smallSetup : Pmm := finalState (pmmSetup 0x80010000 0x400000 blankPmm)

theorem smallSetup_setUp : SetUp smallSetup :=
  ⟨by decide, 0x80010000, 0x400000, blankPmm, by decide, rfl⟩

/-- One call of a run by evaluation. -/
def nextHolding (h : Holding) : BuddyCall → Option Holding
  | .alloc k =>
    if k < MAX_ORDER then
      match buddyAlloc k h.pmm with
      | .ok addr t => some ⟨t, (addr, k) :: h.live⟩
      | .error _ _ => none
    else none
  | .free addr =>
    match h.live.find? fun e => e.1 = addr, buddyFree addr h.pmm with
    | some e, .ok _ t => some ⟨t, h.live.erase e⟩
    | _, _ => none

theorem nextHolding_step (h : Holding) (call : BuddyCall) (h' : Holding) (next : nextHolding h call = some h') :
    BuddyStep h call h' := by
  obtain ⟨s, live⟩ := h
  cases call with
  | alloc k =>
    rw [nextHolding] at next
    split_ifs at next with small
    split at next
    next addr t result =>
      obtain rfl := Option.some.inj next
      exact .alloc small result
    next => cases next
  | free addr =>
    rw [nextHolding] at next
    split at next
    next e _ t found result =>
      obtain rfl := Option.some.inj next
      obtain ⟨a, k⟩ := e
      have test := List.find?_some found
      obtain rfl : a = addr := of_decide_eq_true test
      exact .free (List.mem_of_find?_eq_some found) result
    next => cases next

/-- A run on the small machine that allocates one page and gives it back. -/
private theorem smallSetup_run : ∃ addr t, Run BuddyStep ⟨smallSetup, []⟩ [.alloc 0, .free addr] ⟨t, []⟩ := by
  obtain ⟨addr, t, step⟩ := smallSetup_setUp.first_alloc ⟨100, show _ ≤ 100 ∧ 100 < _ by decide⟩
  have unlocked := (runInv_step smallSetup_setUp.runInv step).2.2.1
  have bounds : t.buddyStart ≤ addr ∨ addr < t.buddyEnd := by
    cases step with
    | alloc _ call =>
      obtain ⟨_, _, _, _, _, rfl, rfl⟩ := buddyAlloc_eq_ok.mp call
      change smallSetup.buddyStart ≤ _ ∨ _ < smallSetup.buddyEnd
      have order : smallSetup.buddyStart < smallSetup.buddyEnd := by decide
      omega
  have free : BuddyStep ⟨t, [(addr, 0)]⟩ (.free addr) ⟨_, [(addr, 0)].erase (addr, 0)⟩ :=
    .free (by simp) (buddyFree_eq_ok.mpr ⟨bounds, unlocked, rfl⟩)
  rw [List.erase_cons_head] at free
  exact ⟨addr, _, .cons step (.cons free (.nil _))⟩

theorem buddy_representation_small :
    ∃ addr t, Run BuddyStep ⟨smallSetup, []⟩ [.alloc 0, .free addr] ⟨t, []⟩ ∧
    ∃ lists, Represents t [] lists := by
  obtain ⟨addr, t, run⟩ := smallSetup_run
  exact ⟨addr, t, run, buddy_representation smallSetup_setUp run⟩

/-- A block of order `k` at frame `f` is on the free lists. -/
def FreeBlock (b : Buddy) (f k : ℕ) : Prop := ∃ lists, FreeLists b lists ∧ k < MAX_ORDER ∧ f ∈ lists k

/-- The frames of the live blocks. -/
def covered (live : List (ℕ × ℕ)) : Set ℕ := {x | ∃ e ∈ liveBlocks live, x ∈ span e}

theorem FreeLists.unique {b : Buddy} {lists lists' : ℕ → List ℕ} {k : ℕ} (free : FreeLists b lists)
    (free' : FreeLists b lists') (small : k < MAX_ORDER) : lists k = lists' k := by
  have same := (Rings.linked free k small).unique (Rings.linked free' k small)
    (Rings.head_not_mem free k small k small) (Rings.head_not_mem free' k small k small)
  exact List.map_injective_iff.mpr (fun f g equal => by simpa using equal) same

theorem managed_sdiff_covered (s : Pmm) (owned : List (ℕ × ℕ)) :
    managed s \ covered (addresses owned) = unowned (ADDR_TO_PFN s.buddyStart)
    (ADDR_TO_PFN s.buddyEnd) owned := by
  ext x
  simp only [managed, covered, liveBlocks_addresses, unowned, Set.mem_sdiff, Set.mem_Ico, Set.mem_ofPred_eq]
  push Not
  tauto

/-- The free blocks are a function of the frames that are not covered by live blocks. -/
private theorem RunInv.freeBlock_iff {h : Holding} (inv : RunInv h) (f k : ℕ) :
    FreeBlock h.pmm.buddy f k ↔ k < MAX_ORDER ∧ MaximalAt (managed h.pmm \ covered h.live) f k := by
  obtain ⟨_, _, _, owned, lists, same, ok⟩ := inv
  rw [same, managed_sdiff_covered]
  constructor
  · rintro ⟨lists', free, small, member⟩
    rw [free.unique (BuddyInv.free ok) small] at member
    exact ⟨small, (BuddyInv.members ok k small f).mp member⟩
  · rintro ⟨small, maximal⟩
    exact ⟨lists, BuddyInv.free ok, small, (BuddyInv.members ok k small f).mpr maximal⟩

/-- Of two buddies below the largest order at most one is a maximal block. -/
private theorem MaximalAt.not_buddy {S : Set ℕ} {f k : ℕ} (small : k < MAX_ORDER - 1) (first : MaximalAt S f k)
    (second : MaximalAt S (f ^^^ 2 ^ k) k) : False := by
  obtain ⟨aligned, first⟩ := first
  let block : Block := ⟨f, k, aligned⟩
  have inside : block.parent.frames ⊆ S := by
    intro x member
    rcases Block.mem_parent.mp member with here | there
    · exact first.2.1 here
    · exact second.2.2.1 there
  exact (Block.isMaximal_iff.mp first).2.2 small inside

/-- Neither call moves the managed interval. -/
private theorem buddyStep_managed {h h' : Holding} {call : BuddyCall} (step : BuddyStep h call h') :
    managed h'.pmm = managed h.pmm := by
  cases step with
  | alloc _ call =>
    obtain ⟨_, _, _, _, _, _, rfl⟩ := buddyAlloc_eq_ok.mp call
    rfl
  | free _ call =>
    obtain ⟨_, _, rfl⟩ := buddyFree_eq_ok.mp call
    rfl

theorem buddyRun_managed {h h' : Holding} {calls : List BuddyCall} (run : Run BuddyStep h calls h') :
    managed h'.pmm = managed h.pmm := by
  induction run with
  | nil => rfl
  | cons step _ ih => exact ih.trans (buddyStep_managed step)

/-- The free blocks of every reachable state are the maximal aligned blocks outside the live frames,
so they depend on the live frames only. -/
theorem buddy_canonical {s t : Pmm} (start : SetUp s) {calls : List BuddyCall} {live : List (ℕ × ℕ)}
    (run : Run BuddyStep ⟨s, []⟩ calls ⟨t, live⟩) :
    (∀ k < MAX_ORDER - 1, ∀ f, ¬ (FreeBlock t.buddy f k ∧ FreeBlock t.buddy (f ^^^ 2 ^ k) k)) ∧
    (∀ f k, FreeBlock t.buddy f k ↔ k < MAX_ORDER ∧ MaximalAt (managed s \ covered live) f k) ∧
    (∀ calls' t' live', Run BuddyStep ⟨s, []⟩ calls' ⟨t', live'⟩ → covered live = covered live' →
      ∀ f k, FreeBlock t.buddy f k ↔ FreeBlock t'.buddy f k) ∧
    (live = [] → ∀ f k, FreeBlock t.buddy f k ↔ FreeBlock s.buddy f k) := by
  have blocks : ∀ calls' t' live', Run BuddyStep ⟨s, []⟩ calls' ⟨t', live'⟩ → ∀ f k,
      FreeBlock t'.buddy f k ↔ k < MAX_ORDER ∧ MaximalAt (managed s \ covered live') f k := by
    intro calls' t' live' run' f k
    have interval := buddyRun_managed run'
    change managed t' = managed s at interval
    rw [← interval]
    exact (runInv_of_run start run').freeBlock_iff f k
  refine ⟨?_, blocks _ _ _ run, ?_, ?_⟩
  · rintro k small f ⟨first, second⟩
    exact ((blocks _ _ _ run f k).mp first).2.not_buddy small ((blocks _ _ _ run _ k).mp second).2
  · intro calls' t' live' run' same f k
    rw [blocks _ _ _ run, blocks _ _ _ run', same]
  · rintro rfl f k
    rw [blocks _ _ _ run, blocks _ _ _ (.nil _)]

theorem buddy_canonical_small : ∃ addr t, Run BuddyStep ⟨smallSetup, []⟩ [.alloc 0, .free addr] ⟨t, []⟩ ∧
    ∀ f k, FreeBlock t.buddy f k ↔ FreeBlock smallSetup.buddy f k := by
  obtain ⟨addr, t, run⟩ := smallSetup_run
  exact ⟨addr, t, run, (buddy_canonical smallSetup_setUp run).2.2.2 rfl⟩

end Pke.Proofs
