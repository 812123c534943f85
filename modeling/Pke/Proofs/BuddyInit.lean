import Pke.Proofs.BuddyInvariant

/-! # The initial partition

`buddy_system_init` walks over the managed interval and takes, at each position, the largest block
that the alignment of the absolute page number, the remaining pages and `MAX_ORDER` allow. Since
`DRAM_BASE` is a multiple of the largest block, the alignment of the absolute page number and of the
frame number agree below `MAX_ORDER`. No admissible block straddles a position the scan stops at, so
every block it takes is maximal in the interval.
-/

namespace Pke.Proofs

open Pke.Lib Pke.Model

/-- The greedy order is the largest one that fits at frame `c`. -/
theorem initOrder_spec {c hi : ℕ} (below : c < hi) (bound : hi < WORD) :
    let o := initOrder (PFN_TO_ADDR c) (PFN_TO_ADDR hi)
    o < MAX_ORDER ∧ 2 ^ o ∣ c ∧ c + 2 ^ o ≤ hi ∧ ∀ j < MAX_ORDER, 2 ^ j ∣ c → c + 2 ^ j ≤ hi → j ≤ o := by
  have page : PFN_TO_ADDR c / PGSIZE = 2 ^ 19 + c := by simp only [PFN_TO_ADDR, PGSIZE, DRAM_BASE]; omega
  have rest : (PFN_TO_ADDR hi - PFN_TO_ADDR c) / PGSIZE = hi - c := by
    simp only [PFN_TO_ADDR, PGSIZE, DRAM_BASE]; omega
  have nonzero : hi - c ≠ 0 := by omega
  have leading : (hi - c).log2 ≤ 63 := by
    have small : (hi - c).log2 < 64 := (Nat.log2_lt nonzero).mpr (by simp only [WORD] at bound; omega)
    omega
  have limit : 63 - clzll (hi - c) = (hi - c).log2 := by simp only [clzll]; omega
  have floor := Nat.log2_self_le nonzero
  have split : ∀ o < MAX_ORDER, (2 ^ o ∣ 2 ^ 19 + c ↔ 2 ^ o ∣ c) := by
    intro o small
    exact Nat.dvd_add_right (Nat.pow_dvd_pow 2 (by simp only [MAX_ORDER] at small; omega))
  have order : initOrder (PFN_TO_ADDR c) (PFN_TO_ADDR hi) =
      min (min (ctzll (2 ^ 19 + c)) (hi - c).log2) (MAX_ORDER - 1) := by
    simp only [initOrder, page, rest, limit, MAX_ORDER]
    split_ifs <;> omega
  have small : min (min (ctzll (2 ^ 19 + c)) (hi - c).log2) (MAX_ORDER - 1) < MAX_ORDER := by
    simp only [MAX_ORDER]; omega
  rw [order]
  refine ⟨small, ?_, ?_, ?_⟩
  · refine (split _ small).mp ((Nat.pow_dvd_pow 2 ?_).trans (two_pow_ctzll_dvd _))
    exact (min_le_left _ _).trans (min_le_left _ _)
  · have size : 2 ^ min (min (ctzll (2 ^ 19 + c)) (hi - c).log2) (MAX_ORDER - 1) ≤ 2 ^ (hi - c).log2 :=
      Nat.pow_le_pow_right (by decide) ((min_le_left _ _).trans (min_le_right _ _))
    omega
  · intro j jSmall aligned fits
    refine le_min (le_min ?_ ?_) (by omega)
    · exact le_ctzll (by simp only [MAX_ORDER] at jSmall; omega) ((split j jSmall).mpr aligned)
    · exact (Nat.le_log2 nonzero).mpr (by omega)

/-- What holds when the scan stands at frame `c`. -/
structure Scanned (nr lo hi c : ℕ) (b : Buddy) (lists : ℕ → List ℕ) : Prop where
  free : FreeLists b lists
  flags : ∀ k < MAX_ORDER, ∀ f ∈ lists k,
    (b.pages f).isFree = true ∧ (b.pages f).isHead = true ∧ (b.pages f).order = k
  listed : ∀ f < nr, (b.pages f).isFree = true → (b.pages f).isHead = true →
    (b.pages f).order < MAX_ORDER ∧ f ∈ lists (b.pages f).order
  placed : ∀ k < MAX_ORDER, ∀ f ∈ lists k, MaximalAt (Set.Ico lo hi) f k ∧ f + 2 ^ k ≤ c
  covered : ∀ x, lo ≤ x → x < c → ∃ k < MAX_ORDER, ∃ f ∈ lists k, x ∈ span (f, k)
  boundary : Block.Boundary (MAX_ORDER - 1) lo hi c
  low : lo ≤ c
  high : c ≤ hi

namespace Scanned

variable {nr lo hi c : ℕ} {b : Buddy} {lists : ℕ → List ℕ}

/-- The scan stands at a frame that heads no block yet. -/
theorem fresh (scanned : Scanned nr lo hi c b lists) : ∀ k < MAX_ORDER, c ∉ lists k := by
  intro k small member
  have ending := (scanned.placed k small c member).2
  have positive : 0 < 2 ^ k := by positivity
  omega

/-- One iteration places one maximal block and moves to its end. -/
theorem place (scanned : Scanned nr lo hi c b lists) (below : c < hi) (bound : hi < WORD) :
    let o := initOrder (PFN_TO_ADDR c) (PFN_TO_ADDR hi)
    Scanned nr lo hi (c + 2 ^ o)
      ((b.setPage c fun p => { p with alloc := 0, isHead := true, isFree := true, order := o % 32 }).listAdd o c)
      (Function.update lists o (c :: lists o)) := by
  intro o
  obtain ⟨small, aligned, fits, largest⟩ := initOrder_spec below bound
  change o < MAX_ORDER at small
  change 2 ^ o ∣ c at aligned
  change c + 2 ^ o ≤ hi at fits
  have mod : o % 32 = o := Nat.mod_eq_of_lt (by simp only [MAX_ORDER] at small; omega)
  obtain ⟨maximal, boundary⟩ := Block.greedy_step (b := ⟨c, o, aligned⟩) scanned.boundary
    (by change o ≤ _; omega)
    scanned.low fits (fun d start order inside => by
      change d.start = c at start
      exact largest d.order (by omega) (start ▸ d.aligned) (start ▸ inside))
  have fresh := scanned.fresh
  have added : ∀ k f, f ∈ Function.update lists o (c :: lists o) k ↔ (f = c ∧ k = o) ∨ f ∈ lists k := by
    intro k f
    by_cases same : k = o
    · subst same; simp
    · simp [same]
  refine ⟨scanned.free.listAdd small fresh, ?_, ?_, ?_, ?_, boundary, ?_, fits⟩
  · intro k kSmall f member
    rcases (added k f).mp member with ⟨rfl, rfl⟩ | old
    · simp [Buddy.listAdd, Buddy.setPage, mod]
    · have different : f ≠ c := by rintro rfl; exact fresh k kSmall old
      simpa [Buddy.listAdd, Buddy.setPage, Function.update_of_ne different] using scanned.flags k kSmall f old
  · intro f bounded isFree isHead
    by_cases same : f = c
    · subst same
      simpa [Buddy.listAdd, Buddy.setPage, mod] using small
    · simp only [Buddy.listAdd, Buddy.setPage, Function.update_of_ne same] at isFree isHead ⊢
      obtain ⟨orderBound, old⟩ := scanned.listed f bounded isFree isHead
      exact ⟨orderBound, (added _ f).mpr (Or.inr old)⟩
  · intro k kSmall f member
    rcases (added k f).mp member with ⟨rfl, rfl⟩ | old
    · exact ⟨⟨aligned, maximal⟩, le_rfl⟩
    · have before := scanned.placed k kSmall f old
      exact ⟨before.1, before.2.trans (Nat.le_add_right _ _)⟩
  · intro x above inside
    rcases Nat.lt_or_ge x c with before | here
    · obtain ⟨k, kSmall, f, old, found⟩ := scanned.covered x above before
      exact ⟨k, kSmall, f, (added k f).mpr (Or.inr old), found⟩
    · exact ⟨o, small, c, (added o c).mpr (Or.inl ⟨rfl, rfl⟩), here, inside⟩
  · exact scanned.low.trans (Nat.le_add_right _ _)

/-- The scan reaches the end of the interval. -/
theorem loop (bound : hi < WORD) : ∀ (fuel c : ℕ) (b : Buddy) (lists : ℕ → List ℕ),
    Scanned nr lo hi c b lists → hi - c ≤ fuel →
    ∃ lists', Scanned nr lo hi hi (buddyInitLoop (PFN_TO_ADDR hi) fuel (PFN_TO_ADDR c) b) lists' := by
  intro fuel
  induction fuel with
  | zero =>
    intro c b lists scanned enough
    obtain rfl : c = hi := Nat.le_antisymm scanned.high (by omega)
    exact ⟨lists, scanned⟩
  | succ fuel ih =>
    intro c b lists scanned enough
    rcases Nat.lt_or_ge c hi with below | done
    · have test : PFN_TO_ADDR c < PFN_TO_ADDR hi := by simp only [PFN_TO_ADDR, PGSIZE, DRAM_BASE]; omega
      have pfn : ADDR_TO_PFN (PFN_TO_ADDR c) = c := addr_pfn c
      have positive : 0 < 2 ^ initOrder (PFN_TO_ADDR c) (PFN_TO_ADDR hi) := by positivity
      have next := ih _ _ _ (scanned.place below bound) (by omega)
      have advance : PFN_TO_ADDR (c + 2 ^ initOrder (PFN_TO_ADDR c) (PFN_TO_ADDR hi)) =
          PFN_TO_ADDR c + 2 ^ initOrder (PFN_TO_ADDR c) (PFN_TO_ADDR hi) * PGSIZE := by
        simp only [PFN_TO_ADDR]; ring
      rw [advance] at next
      simpa only [buddyInitLoop, if_pos test, pfn] using next
    · obtain rfl : c = hi := Nat.le_antisymm scanned.high done
      refine ⟨lists, ?_⟩
      simpa only [buddyInitLoop, lt_irrefl, if_false] using scanned

private theorem toBuddyInv (scanned : Scanned nr lo hi hi b lists) (range : hi ≤ nr) :
    BuddyInv nr lo hi b [] lists := by
  have whole : unowned lo hi [] = Set.Ico lo hi := by
    ext x
    simp [unowned]
  refine ⟨scanned.free, scanned.flags, scanned.listed, ?_, by simp, List.Pairwise.nil, range⟩
  intro k small f
  rw [whole]
  refine ⟨fun member => (scanned.placed k small f member).1, fun ⟨aligned, maximal⟩ => ?_⟩
  let family (d : Block) : Prop := d.order < MAX_ORDER ∧ d.start ∈ lists d.order
  have placed : ∀ d, family d → Block.IsMaximal (MAX_ORDER - 1) (Set.Ico lo hi) d := by
    rintro d ⟨dSmall, member⟩
    exact (scanned.placed _ dSmall _ member).1.2
  refine (Block.mem_of_isMaximal placed ?_ maximal).2
  rintro x ⟨above, inside⟩
  obtain ⟨j, jSmall, g, member, found⟩ := scanned.covered x above inside
  exact ⟨⟨g, j, (scanned.placed j jSmall g member).1.1⟩, ⟨jSmall, member⟩, found⟩

end Scanned

private theorem loops_foldl (indices : List ℕ) : ∀ (l : Links Node) (i : ℕ),
    i ∈ indices ∨ (l.next (.area i) = .area i ∧ l.prev (.area i) = .area i) →
    let l' := indices.foldl (fun l i => (l.setNext (.area i) (.area i)).setPrev (.area i) (.area i)) l
    l'.next (.area i) = .area i ∧ l'.prev (.area i) = .area i := by
  induction indices with
  | nil => intro l i known; simpa using known
  | cons j rest ih =>
    intro l i known
    refine ih _ i ?_
    by_cases same : i = j
    · subst same
      exact Or.inr (by simp [Links.setNext, Links.setPrev])
    · rcases known with member | looped
      · exact Or.inl ((List.mem_cons.mp member).resolve_left same)
      · exact Or.inr (by simpa [Links.setNext, Links.setPrev, Function.update_apply, same] using looped)

theorem initAreas_rings (l : Links Node) : Rings (initAreas l) MAX_ORDER Node.area fun _ => [] := by
  have loops : ∀ i < MAX_ORDER, (initAreas l).next (.area i) = .area i ∧
      (initAreas l).prev (.area i) = .area i :=
    fun i small => loops_foldl (List.range MAX_ORDER) l i (Or.inl (List.mem_range.mpr small))
  exact Rings.nil loops fun i _ j _ same => by simpa using same

/-- The scan starts with empty lists at the first frame. -/
theorem Scanned.start {nr lo hi : ℕ} {b : Buddy} (cleared : ∀ f < nr, (b.pages f).isFree = false)
    (ordered : lo ≤ hi) :
    Scanned nr lo hi lo { b with links := initAreas b.links } (fun _ => []) := by
  refine ⟨initAreas_rings _, by simp, fun f small isFree => ?_, by simp, fun x above below => ?_,
    Block.boundary_start _ _ _, le_rfl, ordered⟩
  · simp [cleared f small] at isFree
  · omega

/-- The managed interval of `buddy_system_init(start, stop)` in frame numbers. -/
def firstFrame (start : ℕ) : ℕ := ADDR_TO_PFN (ROUNDUP start PGSIZE)
def lastFrame (stop : ℕ) : ℕ := ADDR_TO_PFN (ROUNDDOWN stop PGSIZE)

section

variable {nr start stop : ℕ}

theorem roundup_eq_firstFrame (low : DRAM_BASE ≤ start) :
    ROUNDUP start PGSIZE = PFN_TO_ADDR (firstFrame start) := by
  have up : DRAM_BASE ≤ ROUNDUP start PGSIZE := by
    simp only [ROUNDUP, PGSIZE, DRAM_BASE] at *
    omega
  rw [firstFrame, ADDR_TO_PFN_ram up]
  simp only [PFN_TO_ADDR, ROUNDUP, PGSIZE, DRAM_BASE] at *
  omega

theorem rounddown_eq_lastFrame (low : DRAM_BASE ≤ stop) :
    ROUNDDOWN stop PGSIZE = PFN_TO_ADDR (lastFrame stop) := by
  have down : DRAM_BASE ≤ ROUNDDOWN stop PGSIZE := by
    simp only [ROUNDDOWN, PGSIZE, DRAM_BASE] at *
    omega
  rw [lastFrame, ADDR_TO_PFN_ram down]
  simp only [PFN_TO_ADDR, ROUNDDOWN, PGSIZE, DRAM_BASE] at *
  omega

theorem lastFrame_le (low : DRAM_BASE ≤ stop) (high : stop ≤ DRAM_BASE + nr * PGSIZE) :
    lastFrame stop ≤ nr := by
  have stopped := rounddown_eq_lastFrame low
  simp only [PFN_TO_ADDR, ROUNDDOWN, PGSIZE, DRAM_BASE] at *
  omega

/-- The fuel of the scan is the number of pages of the interval. -/
theorem initFuel_eq (low : DRAM_BASE ≤ start) (low' : DRAM_BASE ≤ stop) :
    (ROUNDDOWN stop PGSIZE - ROUNDUP start PGSIZE) / PGSIZE = lastFrame stop - firstFrame start := by
  rw [roundup_eq_firstFrame low, rounddown_eq_lastFrame low']
  simp only [PFN_TO_ADDR, PGSIZE, DRAM_BASE]
  omega

end

/-- `buddy_system_init` establishes the invariant on any descriptors without free heads, for any two
addresses in either order. -/
theorem buddySystemInit_inv {nr start stop : ℕ} {b : Buddy} (cleared : ∀ f < nr, (b.pages f).isFree = false)
    (low : DRAM_BASE ≤ start) (low' : DRAM_BASE ≤ stop) (high : stop ≤ DRAM_BASE + nr * PGSIZE)
    (bound : nr < WORD) :
    ∃ lists, BuddyInv nr (firstFrame start) (lastFrame stop) (buddySystemInit start stop b) [] lists := by
  have range := lastFrame_le low' high
  rw [buddySystemInit, initFuel_eq low low', roundup_eq_firstFrame low, rounddown_eq_lastFrame low']
  set lo := firstFrame start
  set hi := lastFrame stop
  rcases Nat.lt_or_ge hi lo with reversed | ordered
  · -- an empty interval leaves every list empty
    refine ⟨fun _ => [], ?_⟩
    rw [Nat.sub_eq_zero_of_le reversed.le]
    have none : unowned lo hi [] = ∅ := by
      ext x
      simp only [unowned, List.not_mem_nil, false_imp_iff, implies_true, and_true,
        Set.mem_empty_iff_false, iff_false]
      rintro ⟨above, below⟩
      omega
    refine ⟨initAreas_rings _, by simp, fun f small isFree => ?_, fun k _ f => ?_,
      by simp, List.Pairwise.nil, range⟩
    · simp [buddyInitLoop, cleared f small] at isFree
    · rw [none]
      simp only [List.not_mem_nil, false_iff]
      rintro ⟨_, maximal⟩
      exact maximal.2.1 (Block.start_mem _)
  · obtain ⟨lists, scanned⟩ := Scanned.loop (range.trans_lt bound) (hi - lo) lo _ _
      (Scanned.start cleared ordered) le_rfl
    exact ⟨lists, scanned.toBuddyInv range⟩

end Pke.Proofs
