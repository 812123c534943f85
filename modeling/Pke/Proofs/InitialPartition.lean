import Pke.Model.Descriptors
import Pke.Proofs.BuddyRuns

/-! # The partition that `buddy_system_init` leaves

Neither the lists nor the accessed descriptors depend on what the status words held before, so the
scan can be followed on cleared descriptors. On the way every list pointer leads to a sentinel or to a
block that was placed already, and the scan stays below the end of the interval.
-/

namespace Pke.Proofs

open Pke.Lib Pke.Model

section Descriptors

variable {b b' : Buddy} {C : Set ℕ} {f pfn order : ℕ}

private theorem mem_descriptor {n : Node} : f ∈ n.descriptor ↔ n = .page f := by
  cases n with
  | area i => simp [Node.descriptor]
  | page g => simp [Node.descriptor, eq_comm]

private theorem descriptor_subset {n : Node} (inside : n ∈ nodesOf C) (member : f ∈ n.descriptor) : f ∈ C := by
  rw [mem_descriptor] at member
  subst member
  rcases inside with ⟨i, _, same⟩ | ⟨g, known, same⟩
  · cases same
  · cases same
    exact known

theorem listAddTouched_subset (closed : b.links.Closed (nodesOf C)) (small : order < MAX_ORDER)
    (member : f ∈ b.listAddTouched order pfn) : f = pfn ∨ f ∈ C := by
  rcases List.mem_cons.mp member with same | neighbour
  · exact Or.inl same
  · exact Or.inr (descriptor_subset (closed _ (Or.inl ⟨order, small, rfl⟩)).1 neighbour)

theorem listDelTouched_subset (closed : b.links.Closed (nodesOf C)) (known : pfn ∈ C)
    (member : f ∈ b.listDelTouched pfn) : f ∈ C := by
  obtain ⟨next, prev⟩ := closed _ (Or.inr ⟨pfn, known, rfl⟩)
  rcases List.mem_append.mp member with before | after
  · rcases List.mem_cons.mp before with rfl | neighbour
    · exact known
    · exact descriptor_subset prev neighbour
  · exact descriptor_subset next after

/-- A descriptor that a call leaves alone. -/
def SameDescriptor (b b' : Buddy) (f : ℕ) : Prop :=
  b'.pages f = b.pages f ∧ b'.links.next (.page f) = b.links.next (.page f) ∧
  b'.links.prev (.page f) = b.links.prev (.page f)

theorem SameDescriptor.trans {c : Buddy} (first : SameDescriptor b b' f) (second : SameDescriptor b' c f) :
    SameDescriptor b c f :=
  ⟨second.1.trans first.1, second.2.1.trans first.2.1, second.2.2.trans first.2.2⟩

private theorem sameDescriptor_setPage {change : Page → Page} (other : f ≠ pfn) :
    SameDescriptor b (b.setPage pfn change) f :=
  ⟨Function.update_of_ne other _ _, rfl, rfl⟩

private theorem sameDescriptor_listAdd (untouched : f ∉ b.listAddTouched order pfn) :
    SameDescriptor b (b.listAdd order pfn) f := by
  simp only [Buddy.listAddTouched, List.mem_cons, mem_descriptor, not_or] at untouched
  obtain ⟨other, notNext⟩ := untouched
  refine ⟨rfl, ?_, ?_⟩
  · simp [Buddy.listAdd, Links.add_next, other]
  · rw [Buddy.listAdd, Links.add_prev _ (by simp)]
    simp [other, Ne.symm notNext]

end Descriptors

/-- The state after one iteration of the scan. -/
def placedBlock (stop curr : ℕ) (b : Buddy) : Buddy :=
  (b.setPage (ADDR_TO_PFN curr) fun p =>
    { p with alloc := 0, isHead := true, isFree := true, order := initOrder curr stop % 32 }).listAdd
      (initOrder curr stop) (ADDR_TO_PFN curr)

theorem buddyInitLoop_place {stop curr : ℕ} (test : curr < stop) (fuel : ℕ) (b : Buddy) :
    buddyInitLoop stop (fuel + 1) curr b =
      buddyInitLoop stop fuel (curr + 2 ^ initOrder curr stop * PGSIZE) (placedBlock stop curr b) := by
  rw [buddyInitLoop, if_pos test]
  rfl

theorem buddyInitLoopTouched_place {stop curr : ℕ} (test : curr < stop) (fuel : ℕ) (b : Buddy) :
    buddyInitLoopTouched stop (fuel + 1) curr b =
      ADDR_TO_PFN curr :: b.listAddTouched (initOrder curr stop) (ADDR_TO_PFN curr) ++
        buddyInitLoopTouched stop fuel (curr + 2 ^ initOrder curr stop * PGSIZE) (placedBlock stop curr b) := by
  rw [buddyInitLoopTouched, if_pos test]
  rfl

private theorem placedBlock_links {stop curr : ℕ} {b c : Buddy} (same : b.links = c.links) :
    (placedBlock stop curr b).links = (placedBlock stop curr c).links := by
  simp only [placedBlock, Buddy.listAdd, Buddy.setPage, same]

/-- The sentinels lie outside the array. -/
private theorem initAreas_page (l : Links Node) (f : ℕ) :
    (initAreas l).next (.page f) = l.next (.page f) ∧ (initAreas l).prev (.page f) = l.prev (.page f) := by
  suffices general : ∀ (indices : List ℕ) (l : Links Node),
      let l' := indices.foldl (fun l i => (l.setNext (.area i) (.area i)).setPrev (.area i) (.area i)) l
      l'.next (.page f) = l.next (.page f) ∧ l'.prev (.page f) = l.prev (.page f) from general _ l
  intro indices
  induction indices with
  | nil => exact fun _ => ⟨rfl, rfl⟩
  | cons i rest ih =>
    intro l
    obtain ⟨next, prev⟩ := ih ((l.setNext (.area i) (.area i)).setPrev (.area i) (.area i))
    exact ⟨next, prev⟩

/-- The scan changes no descriptor but the listed ones. -/
private theorem buddyInitLoop_untouched {stop f : ℕ} : ∀ (fuel curr : ℕ) (b : Buddy),
    f ∉ buddyInitLoopTouched stop fuel curr b → SameDescriptor b (buddyInitLoop stop fuel curr b) f := by
  intro fuel
  induction fuel with
  | zero => exact fun _ _ _ => ⟨rfl, rfl, rfl⟩
  | succ fuel ih =>
    intro curr b untouched
    by_cases test : curr < stop
    · rw [buddyInitLoopTouched_place test] at untouched
      rw [buddyInitLoop_place test]
      simp only [List.cons_append, List.mem_cons, List.mem_append, not_or] at untouched
      obtain ⟨other, notAdded, rest⟩ := untouched
      exact ((sameDescriptor_setPage other).trans (sameDescriptor_listAdd notAdded)).trans (ih _ _ rest)
    · rw [buddyInitLoop, if_neg test]
      exact ⟨rfl, rfl, rfl⟩

/-- The pointers and the accesses of the scan do not depend on the status words. -/
private theorem buddyInitLoop_links {stop : ℕ} : ∀ (fuel curr : ℕ) (b c : Buddy), b.links = c.links →
    (buddyInitLoop stop fuel curr b).links = (buddyInitLoop stop fuel curr c).links ∧
      buddyInitLoopTouched stop fuel curr b = buddyInitLoopTouched stop fuel curr c := by
  intro fuel
  induction fuel with
  | zero => exact fun _ _ _ same => ⟨same, rfl⟩
  | succ fuel ih =>
    intro curr b c same
    by_cases test : curr < stop
    · obtain ⟨links, touched⟩ := ih (curr + 2 ^ initOrder curr stop * PGSIZE) _ _ (placedBlock_links same)
      rw [buddyInitLoop_place test, buddyInitLoop_place test, buddyInitLoopTouched_place test,
        buddyInitLoopTouched_place test, touched]
      exact ⟨links, by simp only [Buddy.listAddTouched, same]⟩
    · simp only [buddyInitLoop, buddyInitLoopTouched, if_neg test]
      exact ⟨same, trivial⟩

/-- Once the scan has reached the end, more iterations change nothing. -/
theorem buddyInitLoop_done {stop curr : ℕ} (done : ¬ curr < stop) (fuel : ℕ) (b : Buddy) :
    buddyInitLoop stop fuel curr b = b := by
  cases fuel with
  | zero => rfl
  | succ fuel => rw [buddyInitLoop, if_neg done]

/-- Every iteration moves on by at least one page, so the remaining pages bound the iterations. -/
private theorem buddyInitLoop_terminates {stop : ℕ} (more : ℕ) : ∀ (fuel curr : ℕ) (b : Buddy),
    stop ≤ curr + fuel * PGSIZE → buddyInitLoop stop (fuel + more) curr b = buddyInitLoop stop fuel curr b := by
  intro fuel
  induction fuel with
  | zero =>
    intro curr b enough
    rw [buddyInitLoop_done (by omega), buddyInitLoop_done (by omega)]
  | succ fuel ih =>
    intro curr b enough
    rw [Nat.add_right_comm]
    by_cases test : curr < stop
    · have positive : 0 < 2 ^ initOrder curr stop := by positivity
      have step : PGSIZE ≤ 2 ^ initOrder curr stop * PGSIZE := Nat.le_mul_of_pos_left _ positive
      rw [buddyInitLoop_place test, buddyInitLoop_place test]
      apply ih
      rw [Nat.succ_mul] at enough
      omega
    · rw [buddyInitLoop_done test, buddyInitLoop_done test]

namespace Scanned

variable {nr lo hi c : ℕ} {b : Buddy} {lists : ℕ → List ℕ}

theorem touched (bound : hi < WORD) : ∀ (fuel c : ℕ) (b : Buddy) (lists : ℕ → List ℕ),
    Scanned nr lo hi c b lists →
    ∀ f ∈ buddyInitLoopTouched (PFN_TO_ADDR hi) fuel (PFN_TO_ADDR c) b, f < hi := by
  intro fuel
  induction fuel with
  | zero => exact fun _ _ _ _ f member => absurd member List.not_mem_nil
  | succ fuel ih =>
    intro c b lists scanned f member
    by_cases test : PFN_TO_ADDR c < PFN_TO_ADDR hi
    · have below : c < hi := by
        simp only [PFN_TO_ADDR, PGSIZE, DRAM_BASE] at test
        omega
      obtain ⟨lists', placed⟩ : ∃ lists', Scanned nr lo hi (c + 2 ^ initOrder (PFN_TO_ADDR c) (PFN_TO_ADDR hi))
          (placedBlock (PFN_TO_ADDR hi) (PFN_TO_ADDR c) b) lists' := by
        rw [placedBlock, addr_pfn]
        exact ⟨_, scanned.place below bound⟩
      have advance : PFN_TO_ADDR c + 2 ^ initOrder (PFN_TO_ADDR c) (PFN_TO_ADDR hi) * PGSIZE =
          PFN_TO_ADDR (c + 2 ^ initOrder (PFN_TO_ADDR c) (PFN_TO_ADDR hi)) := by
        simp only [PFN_TO_ADDR]
        ring
      rw [buddyInitLoopTouched_place test, advance, addr_pfn] at member
      rcases List.mem_append.mp member with here | later
      · rcases List.mem_cons.mp here with rfl | added
        · exact below
        · rcases listAddTouched_subset scanned.free.closed (initOrder_spec below bound).1 added
            with rfl | ⟨k, small, old⟩
          · exact below
          · have ending := (scanned.placed k small f old).2
            have positive : 0 < 2 ^ k := by positivity
            omega
      · exact ih _ _ _ placed f later
    · rw [buddyInitLoopTouched, if_neg test] at member
      exact absurd member List.not_mem_nil

end Scanned

/-- The pages of `[ROUNDUP(start), ROUNDDOWN(stop))`. -/
def pagesBetween (start stop : ℕ) : Set ℕ :=
  {f | ROUNDUP start PGSIZE ≤ PFN_TO_ADDR f ∧ PFN_TO_ADDR (f + 1) ≤ ROUNDDOWN stop PGSIZE}

private theorem pagesBetween_eq {start stop : ℕ} (low : DRAM_BASE ≤ start) (low' : DRAM_BASE ≤ stop) :
    pagesBetween start stop = Set.Ico (firstFrame start) (lastFrame stop) := by
  ext f
  rw [pagesBetween, roundup_eq_firstFrame low, rounddown_eq_lastFrame low']
  simp only [PFN_TO_ADDR, PGSIZE, DRAM_BASE, Set.mem_ofPred_eq, Set.mem_Ico]
  omega

/-- The lists hold the maximal blocks of a set of frames: each once, pairwise disjoint, and together they
are that set. -/
structure Partitions (frames : Set ℕ) (b : Buddy) (lists : ℕ → List ℕ) : Prop where
  free : FreeLists b lists
  maximal : ∀ k < MAX_ORDER, ∀ f, f ∈ lists k ↔ MaximalAt frames f k
  once : ∀ k < MAX_ORDER, ∀ f ∈ lists k, (lists k).count f = 1 ∧ ∀ j < MAX_ORDER, j ≠ k → f ∉ lists j
  disjoint : (freeBlocks lists).Pairwise fun d e => Disjoint (span d) (span e)
  cover : {x | ∃ e ∈ freeBlocks lists, x ∈ span e} = frames

private theorem BuddyInv.partitions {nr lo hi : ℕ} {b : Buddy} {lists : ℕ → List ℕ}
    (inv : BuddyInv nr lo hi b [] lists) :
    Partitions (Set.Ico lo hi) b lists := by
  have whole : unowned lo hi [] = Set.Ico lo hi := by
    ext x
    simp [unowned]
  refine ⟨inv.free, fun k small f => whole ▸ inv.members k small f, fun k small f member => ⟨?_, ?_⟩,
    freeBlocks_pairwise inv, ?_⟩
  · exact List.count_eq_one_of_mem (inv.free.nodup small) member
  · intro j jSmall different
    exact inv.free.not_mem_of_mem small jSmall (Ne.symm different) member
  · ext x
    rw [← whole]
    constructor
    · rintro ⟨e, member, inside⟩
      obtain ⟨small, onList⟩ := mem_freeBlocks.mp member
      exact ((inv.members _ small _).mp onList).subset inside
    · intro free
      obtain ⟨k, small, f, onList, inside⟩ := inv.exists_free free
      exact ⟨(f, k), mem_freeBlocks.mpr ⟨small, onList⟩, inside⟩

/-- `buddy_system_init` on any two addresses of a memory of at most 128 MiB, whatever the descriptors and the
pointers held before: its loop ends, the lists are the partition of the pages between the addresses,
and every accessed descriptor belongs to the array. -/
theorem buddySystemInit_partition {nr start stop : ℕ} (b : Buddy) (cap : nr * PGSIZE ≤ PKE_MAX_ALLOWABLE_RAM)
    (low : DRAM_BASE ≤ start) (low' : DRAM_BASE ≤ stop) (high : stop ≤ DRAM_BASE + nr * PGSIZE) :
    (∀ more, buddyInitLoop (ROUNDDOWN stop PGSIZE)
      ((ROUNDDOWN stop PGSIZE - ROUNDUP start PGSIZE) / PGSIZE + more)
      (ROUNDUP start PGSIZE) { b with links := initAreas b.links } = buddySystemInit start stop b) ∧
    (∃ lists, Partitions (pagesBetween start stop) (buddySystemInit start stop b) lists) ∧
    (∀ f ∈ buddySystemInitTouched start stop b, f < nr) ∧
    ∀ f, nr ≤ f → SameDescriptor b (buddySystemInit start stop b) f := by
  have word : nr < WORD := by
    simp only [PKE_MAX_ALLOWABLE_RAM, PGSIZE, WORD] at *
    omega
  have range := lastFrame_le low' high
  -- the same call on cleared descriptors has the same pointers and the same accesses
  let blank : Buddy := { b with pages := fun _ => reservedPage }
  obtain ⟨lists, inv⟩ := buddySystemInit_inv (b := blank) (fun _ _ => rfl) low low' high word
  obtain ⟨links, accesses⟩ := @buddyInitLoop_links (ROUNDDOWN stop PGSIZE)
    ((ROUNDDOWN stop PGSIZE - ROUNDUP start PGSIZE) / PGSIZE) (ROUNDUP start PGSIZE)
    { blank with links := initAreas blank.links } { b with links := initAreas b.links } rfl
  have inside : ∀ f ∈ buddySystemInitTouched start stop b, f < nr := by
    intro f member
    rw [buddySystemInitTouched, ← accesses, initFuel_eq low low', roundup_eq_firstFrame low,
      rounddown_eq_lastFrame low'] at member
    rcases Nat.lt_or_ge (lastFrame stop) (firstFrame start) with reversed | ordered
    · rw [Nat.sub_eq_zero_of_le reversed.le] at member
      exact absurd member List.not_mem_nil
    · exact (Scanned.touched (range.trans_lt word) _ _ _ _
        (@Scanned.start nr _ _ blank (fun _ _ => rfl) ordered)
        f member).trans_le range
  refine ⟨fun more => buddyInitLoop_terminates more _ _ _ ?_, ⟨lists, ?_⟩, inside, fun f beyond => ?_⟩
  · rw [initFuel_eq low low', roundup_eq_firstFrame low, rounddown_eq_lastFrame low']
    simp only [PFN_TO_ADDR, PGSIZE, DRAM_BASE]
    omega
  · rw [pagesBetween_eq low low']
    obtain ⟨free, maximal, once, disjoint, cover⟩ := inv.partitions
    refine ⟨?_, maximal, once, disjoint, cover⟩
    change Rings (buddyInitLoop _ _ _ _).links _ _ _
    rw [← links]
    exact free
  · have scanned : SameDescriptor { b with links := initAreas b.links } (buddySystemInit start stop b) f :=
      buddyInitLoop_untouched _ _ _ fun member => absurd (inside f member) (Nat.not_lt.mpr beyond)
    obtain ⟨next, prev⟩ := initAreas_page b.links f
    exact SameDescriptor.trans ⟨rfl, next, prev⟩ scanned

/-- Two addresses inside pages of a machine with 4 MiB. -/
theorem buddySystemInit_partition_small :
    ∃ lists, Partitions (pagesBetween 0x80012345 0x803fffff)
      (buddySystemInit 0x80012345 0x803fffff ⟨fun _ => reservedPage, ⟨id, id⟩⟩) lists :=
  (buddySystemInit_partition _ (show 1024 * PGSIZE ≤ _ by decide) (by decide) (by decide) (by decide)).2.1

end Pke.Proofs
