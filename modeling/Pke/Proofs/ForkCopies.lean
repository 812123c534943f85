import Pke.Proofs.Fork

/-! # What a child inherits

`Duplicated` is a complete copy of the user part of an address space and of its bookkeeping. `do_fork`
never makes one, since it replaces the `tp` register of the child. Up to that register it makes a copy
exactly for parents that satisfy `Forkable`: data regions are skipped, and `npages` of the heap region is
not copied.
-/

namespace Pke.Proofs

open Pke.Lib Pke.Model

variable {σ : Type} {env : PageEnv σ} {trapSec : ℕ} {S : Supply env trapSec}

/-- Segment types whose pages belong to the user. -/
def SegmentType.User : SegmentType → Prop
  | .CONTEXT_SEGMENT => False
  | .SYSTEM_SEGMENT => False
  | _ => True

/-- The page is a page of a region of the user, and is not recorded as free. -/
def Described (p : Process) (va : ℕ) : Prop :=
  (∃ i < p.totalMappedRegion, SegmentType.User (p.regions i).segType ∧
    ∃ n < (p.regions i).npages, pageOf va = pageOf (regionPage (p.regions i) n)) ∧
  ∀ j < p.userHeap.freePagesCount, pageOf va ≠ pageOf (p.userHeap.freePagesAddress j)

/-- The child is a copy of its parent up to the register `tp`: the pages of the user, their
contents, the saved registers, of which `a0` is 0, the regions and the heap manager, which describe
the pages. -/
structure Copied (k : Kernel σ) (parent child : ℕ) : Prop where
  pages : ∀ va, UserLeaf (pteOf k child va) ↔ UserLeaf (pteOf k parent va)
  bytes : ∀ va, UserLeaf (pteOf k parent va) →
    k.mem (frameOf (pteOf k child va)) = k.mem (frameOf (pteOf k parent va))
  frame : (k.procs child).frame = { (k.procs parent).frame with
    regs := Function.update (Function.update (k.procs parent).frame.regs .tp
      ((k.procs child).frame.regs .tp)) .a0 0 }
  total : (k.procs child).totalMappedRegion = (k.procs parent).totalMappedRegion
  regions : ∀ i < (k.procs parent).totalMappedRegion, ((k.procs child).regions i).segType =
    ((k.procs parent).regions i).segType ∧
    ((k.procs child).regions i).npages = ((k.procs parent).regions i).npages
  heap : (k.procs child).userHeap = (k.procs parent).userHeap
  described : ∀ va, UserLeaf (pteOf k child va) ↔ Described (k.procs child) va

/-- The child is a copy of its parent, with the same `tp`. -/
structure Duplicated (k : Kernel σ) (parent child : ℕ) : Prop extends Copied k parent child where
  tp : (k.procs child).frame.regs .tp = (k.procs parent).frame.regs .tp

/-- The parents of which `do_fork` makes a copy up to `tp`: there is no data region, and the heap
has no page. -/
structure Forkable (k : Kernel σ) (parent : ℕ) : Prop where
  noData : ∀ i < (k.procs parent).totalMappedRegion, ((k.procs parent).regions i).segType ≠ .DATA_SEGMENT
  noHeap : ((k.procs parent).regions 3).npages = 0
  noHeapPage : ∀ a, (k.procs parent).userHeap.heapBottom ≤ a → a < (k.procs parent).userHeap.heapTop →
    a % PGSIZE = 0 →
    ¬ UserLeaf (pteOf k parent a)

private theorem codeRegions_all {p : Process} {n : ℕ}
    (all : ∀ i, 4 ≤ i → i < 4 + n → (p.regions i).segType = .CODE_SEGMENT) :
    codeRegions p n = (List.range n).map fun j => p.regions (4 + j) := by
  rw [codeRegions, List.filter_eq_self]
  intro region member
  obtain ⟨j, below, rfl⟩ := List.mem_map.mp member
  exact decide_eq_true (all (4 + j) (Nat.le_add_right 4 j) (Nat.add_lt_add_left (List.mem_range.mp below) 4))

/-- No region was skipped. -/
private theorem all_of_length {p : Process} {n : ℕ} (length : (codeRegions p n).length = n)
    (i : ℕ) (low : 4 ≤ i) (high : i < 4 + n) : (p.regions i).segType = .CODE_SEGMENT := by
  have whole : (codeRegions p n).length = ((List.range n).map fun j => p.regions (4 + j)).length := by
    rw [length, List.length_map, List.length_range]
  have every := List.length_filter_eq_length_iff.mp whole
  have mine := every (p.regions i) (List.mem_map.mpr
    ⟨i - 4, List.mem_range.mpr (by omega), by rw [Nat.add_sub_cancel' low]⟩)
  exact of_decide_eq_true mine

/-- The four fixed regions, and the loaded ones. -/
private theorem region_index (i : ℕ) : i = 0 ∨ i = 1 ∨ i = 2 ∨ i = 3 ∨ ∃ j, i = j + 4 := by
  by_cases fixed : i < 4
  · omega
  · exact .inr (.inr (.inr (.inr ⟨i - 4, by omega⟩)))

/-- A process without heap pages is described by its regions. -/
theorem ProcOk.described {p : Process} {pte : ℕ → ℕ} (ok : ProcOk p pte) (noHeap : (p.regions 3).npages = 0)
    (noHeapPage : ∀ a, p.userHeap.heapBottom ≤ a → a < p.userHeap.heapTop → a % PGSIZE = 0 → ¬ UserLeaf (pte a))
    (same : ∀ {a b}, pageOf a = pageOf b → pte a = pte b) (va : ℕ) : UserLeaf (pte va) ↔ Described p va := by
  have four := ok.total.1
  constructor
  · refine fun leaf => ⟨?_, fun j below page => ?_⟩
    · rcases ok.covered va leaf with page | ⟨a, aligned, low, high, page⟩ | ⟨i, low, high, page⟩
      · refine ⟨0, by omega, ?_⟩
        rw [ok.fixed.stack]
        exact ⟨trivial, 0, Nat.one_pos, by rwa [regionPage_zero (by decide)]⟩
      · rw [same page] at leaf
        exact absurd leaf (noHeapPage a low high aligned)
      · have loaded := ok.loaded i low high
        refine ⟨i, high, ?_, 0, by rw [loaded.single]; exact Nat.one_pos, by rwa [regionPage_zero loaded.high]⟩
        rcases loaded.type with type | type
        · rw [type]
          trivial
        · rw [type]
          trivial
    · rw [same page, UserLeaf, ok.heap.unmapped j below] at leaf
      exact absurd leaf.1 (by decide)
  · rintro ⟨⟨i, below, user, n, bound, page⟩, _⟩
    rw [same page]
    obtain rfl | rfl | rfl | rfl | ⟨j, rfl⟩ := region_index i
    · rw [ok.fixed.stack] at bound ⊢
      obtain rfl : n = 0 := Nat.lt_one_iff.mp bound
      rw [regionPage_zero (by decide)]
      exact ok.stack
    · rw [ok.fixed.context.1] at user
      exact user.elim
    · rw [ok.fixed.system.1] at user
      exact user.elim
    · rw [noHeap] at bound
      exact absurd bound (Nat.not_lt_zero n)
    · have loaded := ok.loaded (j + 4) (Nat.le_add_left 4 j) below
      rw [loaded.single] at bound
      obtain rfl : n = 0 := Nat.lt_one_iff.mp bound
      rw [regionPage_zero loaded.high]
      exact loaded.leaf

namespace Forked

variable {lay : Layout} {k k' : Kernel σ} {own' : Owner} {parent child : ℕ}

/-- A page of the child that the user can access is the stack page, a page of the heap region of the
parent, or a page of a code region. -/
private theorem childPage (forked : Forked S lay k parent child k' own') {va : ℕ}
    (leaf : UserLeaf (pteOf k' child va)) :
    pageOf va ∈ codePages (codeRegions (k.procs parent) ((k.procs parent).totalMappedRegion - 4)) ∨
      pageOf va ∈ cowPages (k.procs parent) := by
  obtain ⟨entry, f, leaves, ptes⟩ := forked.childPtes
  rw [ptes, childEntry] at leaf
  split_ifs at leaf with code cow
  · exact Or.inl code
  · exact Or.inr cow.1
  · exact Or.inr (mem_cowPages.mpr (Or.inr (leaves.user va leaf)))

private theorem child_total (forked : Forked S lay k parent child k' own') :
    (k'.procs child).totalMappedRegion = 4
      + (codeRegions (k.procs parent) ((k.procs parent).totalMappedRegion - 4)).length := by
  obtain ⟨c, next, new, fields⟩ := forked.fields
  rw [fields]
  rfl

private theorem child_heapRegion (forked : Forked S lay k parent child k' own') :
    ((k'.procs child).regions 3).npages = 0 := by
  obtain ⟨c, next, new, fields⟩ := forked.fields
  obtain ⟨_, _, _, _, regions⟩ := new.regions
  rw [fields]
  change (c.regions 3).npages = 0
  rw [regions, Function.update_self]

/-- If all loaded regions are code regions, the child has the same. -/
private theorem child_region (forked : Forked S lay k parent child k' own')
    (allCode : ∀ i, 4 ≤ i → i < 4 + ((k.procs parent).totalMappedRegion - 4) →
      ((k.procs parent).regions i).segType = .CODE_SEGMENT)
    {j : ℕ} (below : j < (k.procs parent).totalMappedRegion - 4) :
    (k'.procs child).regions (j + 4) = (k.procs parent).regions (j + 4) := by
  obtain ⟨c, next, new, fields⟩ := forked.fields
  have entry : (codeRegions (k.procs parent) ((k.procs parent).totalMappedRegion - 4))[j]? =
    some ((k.procs parent).regions (j + 4)) := by
    rw [codeRegions_all allCode, List.getElem?_map, List.getElem?_range below, Option.map_some, Nat.add_comm]
  rw [fields]
  change (withCode c _).regions (j + 4) = _
  simp only [withCode, if_pos (Nat.le_add_left 4 j), Nat.add_sub_cancel, entry, Option.getD_some]

/-- The child gets the address of its process structure in `tp`. -/
theorem child_tp (forked : Forked S lay k parent child k' own') :
    (k'.procs child).frame.regs .tp = lay.procAddr child := by
  obtain ⟨c, next, new, fields⟩ := forked.fields
  rw [fields]
  change Function.update (Function.update (k.procs parent).frame.regs .tp (lay.procAddr child)) .a0 0 .tp = _
  rw [Function.update_of_ne (by decide), Function.update_self]

/-- The condition is necessary. -/
theorem forkable (forked : Forked S lay k parent child k' own') (ok : ProcOk (k.procs parent) (pteOf k parent))
    (copy : Copied k' parent child) : Forkable k parent := by
  obtain ⟨next, same⟩ := forked.others parent forked.apart
  have total := copy.total
  rw [forked.child_total, same] at total
  have length : (codeRegions (k.procs parent) ((k.procs parent).totalMappedRegion - 4)).length =
      (k.procs parent).totalMappedRegion - 4 := by
    change 4 + _ = (k.procs parent).totalMappedRegion at total
    omega
  have four := ok.total.1
  have noHeap : ((k.procs parent).regions 3).npages = 0 := by
    have equal := (copy.regions 3 (by rw [same]; change 3 < (k.procs parent).totalMappedRegion; omega)).2
    rw [forked.child_heapRegion, same] at equal
    exact equal.symm
  refine ⟨?_, noHeap, ?_⟩
  · intro i below
    match i with
    | 0 => rw [ok.fixed.stack]; decide
    | 1 => rw [ok.fixed.context.1]; decide
    | 2 => rw [ok.fixed.system.1]; decide
    | 3 => rw [ok.fixed.heap.1]; decide
    | j + 4 =>
      rw [all_of_length length (j + 4) (by omega) (by omega)]
      decide
  · intro a low high aligned leaf
    have stack := ok.heap_below high
    have user : UserLeaf (pteOf k' child a) := (copy.pages a).mpr ((forked.parentAccess a).1.userLeaf.mpr leaf)
    rcases forked.childPage user with code | cow
    · obtain ⟨region, member, page⟩ := mem_codePages.mp code
      obtain ⟨i, lowI, highI, rfl, _⟩ := mem_codeRegions.mp member
      have loaded := ok.loaded i lowI (by omega)
      have equal := pageOf_injective aligned loaded.aligned (stack.trans (by decide)) loaded.high page
      have := loaded.apart
      omega
    · rcases mem_cowPages.mp cow with ⟨j, below, _⟩ | page
      · rw [noHeap] at below
        exact absurd below (Nat.not_lt_zero j)
      · exact absurd (pageOf_injective aligned (by decide) (stack.trans (by decide)) (by decide) page) stack.ne

/-- The condition is sufficient. -/
theorem copied (forked : Forked S lay k parent child k' own') (procs : Procs k) (inside : HasSpace k parent)
    (condition : Forkable k parent) : Copied k' parent child := by
  have ok := procs parent inside
  have okC : ProcOk (k'.procs child) (pteOf k' child) := (forked.good procs inside).procs child forked.inside
  have okP : ProcOk (k'.procs parent) (pteOf k' parent) :=
    (forked.good procs inside).procs parent ((forked.hasSpace forked.apart).mpr inside)
  obtain ⟨next, same⟩ := forked.others parent forked.apart
  obtain ⟨c, next', new, fields⟩ := forked.fields
  have four := ok.total.1
  have allCode : ∀ i, 4 ≤ i → i < 4 + ((k.procs parent).totalMappedRegion - 4) →
      ((k.procs parent).regions i).segType = .CODE_SEGMENT := fun i low high =>
    (ok.loaded i low (by omega)).type.resolve_right (condition.noData i (by omega))
  have all := codeRegions_all allCode
  have total : (k'.procs child).totalMappedRegion = (k.procs parent).totalMappedRegion := by
    rw [forked.child_total, all, List.length_map, List.length_range, Nat.add_sub_cancel' four]
  have pages : ∀ va, UserLeaf (pteOf k' child va) ↔ UserLeaf (pteOf k' parent va) := by
    intro va
    rw [(forked.parentAccess va).1.userLeaf]
    refine ⟨fun leaf => (forked.childLeaf ok leaf).1, fun leaf => ?_⟩
    obtain ⟨entry, f, leaves, ptes⟩ := forked.childPtes
    rw [ptes, childEntry]
    split_ifs with code cow
    · exact (codeEntry_leaf _).1
    · exact (shared_access _).userLeaf.mpr leaf
    · rcases ok.covered va leaf with page | ⟨a, aligned, low, high, page⟩ | ⟨i, low, high, page⟩
      · exact absurd ⟨mem_cowPages.mpr (Or.inr page), leaf.1⟩ cow
      · rw [pteOf_congr page] at leaf
        exact absurd leaf (condition.noHeapPage a low high aligned)
      · have inside : pageOf va ∈ codePages
            (codeRegions (k.procs parent) ((k.procs parent).totalMappedRegion - 4)) :=
          mem_codePages.mpr ⟨_, mem_codeRegions.mpr ⟨i, low, by omega, rfl, allCode i low (by omega)⟩, page⟩
        exact absurd inside code
  have heap : (k'.procs child).userHeap = (k'.procs parent).userHeap := by
    rw [fields, same]
    rfl
  refine ⟨pages, fun va leaf => ?_, ?_, total.trans (by rw [same]), fun i below => ?_, heap, fun va => ?_⟩
  · have both := (forked.childLeaf ok ((pages va).mpr leaf)).2.1
    rw [both, (forked.parentAccess va).2]
  · rw [forked.child_tp, fields, same]
    rfl
  · obtain rfl | rfl | rfl | rfl | ⟨j, rfl⟩ := region_index i
    · rw [okC.fixed.stack, okP.fixed.stack]
      exact ⟨rfl, rfl⟩
    · exact ⟨okC.fixed.context.1.trans okP.fixed.context.1.symm,
        okC.fixed.context.2.1.trans okP.fixed.context.2.1.symm⟩
    · exact ⟨okC.fixed.system.1.trans okP.fixed.system.1.symm,
        okC.fixed.system.2.1.trans okP.fixed.system.2.1.symm⟩
    · refine ⟨okC.fixed.heap.1.trans okP.fixed.heap.1.symm, forked.child_heapRegion.trans ?_⟩
      rw [same]
      exact condition.noHeap.symm
    · rw [same] at below ⊢
      rw [forked.child_region allCode (Nat.lt_sub_of_add_lt below)]
      exact ⟨rfl, rfl⟩
  · refine okC.described forked.child_heapRegion (fun a low high aligned leaf => ?_) pteOf_congr va
    rw [pages, (forked.parentAccess a).1.userLeaf] at leaf
    rw [heap, same] at low high
    exact condition.noHeapPage a low high aligned leaf

end Forked

end Pke.Proofs
