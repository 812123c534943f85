import Pke.Lib.Dyadic
import Pke.Proofs.FreeLists

/-! # The representation invariant of the buddy system

The free blocks are exactly the maximal aligned blocks of the frames that no live block covers. This
one equation carries alignment, disjointness, conservation and coalescing at once; the rest of the
invariant ties the flags of the descriptors to the lists. `BuddyInv.take` and `BuddyInv.merge` are
the step lemmas for allocation and release.
-/

namespace Pke.Proofs

open Pke.Lib Pke.Model

/-- The frames of a block of order `e.2` at frame `e.1`. -/
def span (e : ℕ × ℕ) : Set ℕ := {x | e.1 ≤ x ∧ x < e.1 + 2 ^ e.2}

/-- The managed frames that belong to no live block. -/
def unowned (lo hi : ℕ) (live : List (ℕ × ℕ)) : Set ℕ := {x | lo ≤ x ∧ x < hi ∧ ∀ e ∈ live, x ∉ span e}

/-- `f` heads a maximal free block of order `k`. -/
def MaximalAt (S : Set ℕ) (f k : ℕ) : Prop :=
  ∃ aligned : 2 ^ k ∣ f, Block.IsMaximal (MAX_ORDER - 1) S ⟨f, k, aligned⟩

/-- The invariant: `lists` is what the pointers represent, `live` the blocks handed out. -/
structure BuddyInv (nr lo hi : ℕ) (b : Buddy) (live : List (ℕ × ℕ)) (lists : ℕ → List ℕ) : Prop where
  free : FreeLists b lists
  flags : ∀ k < MAX_ORDER, ∀ f ∈ lists k,
    (b.pages f).isFree = true ∧ (b.pages f).isHead = true ∧ (b.pages f).order = k
  listed : ∀ f < nr, (b.pages f).isFree = true → (b.pages f).isHead = true →
    (b.pages f).order < MAX_ORDER ∧ f ∈ lists (b.pages f).order
  members : ∀ k < MAX_ORDER, ∀ f, f ∈ lists k ↔ MaximalAt (unowned lo hi live) f k
  owned : ∀ e ∈ live, e.2 < MAX_ORDER ∧ 2 ^ e.2 ∣ e.1 ∧ span e ⊆ Set.Ico lo hi ∧ (b.pages e.1).order = e.2
  disjoint : live.Pairwise fun d e => ∀ x ∈ span d, x ∉ span e
  range : hi ≤ nr

theorem mem_span_self (e : ℕ × ℕ) : e.1 ∈ span e := ⟨le_rfl, Nat.lt_add_of_pos_right (by positivity)⟩

private theorem unowned_cons (lo hi : ℕ) (e : ℕ × ℕ) (live : List (ℕ × ℕ)) :
    unowned lo hi (e :: live) = unowned lo hi live \ span e := by
  ext x
  change (lo ≤ x ∧ x < hi ∧ ∀ d ∈ e :: live, x ∉ span d) ↔
    (lo ≤ x ∧ x < hi ∧ ∀ d ∈ live, x ∉ span d) ∧ x ∉ span e
  simp only [List.forall_mem_cons]
  tauto

/-- Clearing the order bit of an aligned frame number gives the start of the parent block. -/
private theorem and_mask_eq_parent (m : Block) (order : m.order < 64) (bound : m.start < WORD) :
    m.start &&& (WORD - 1 - 2 ^ m.order) = m.parent.start := by
  obtain ⟨q, aligned⟩ := m.aligned
  have low : ∀ i < m.order, m.start.testBit i = false := by
    intro i below
    rw [aligned, Nat.mul_comm, Nat.testBit_mul_two_pow]
    simp [Nat.not_le.mpr below]
  have size : 2 ^ m.order < 2 ^ 64 := Nat.pow_lt_pow_right (by decide) order
  have mask : WORD - 1 - 2 ^ m.order = 2 ^ 64 - (2 ^ m.order + 1) := by rw [WORD]; omega
  apply Nat.eq_of_testBit_eq
  intro i
  change _ = (m.start / 2 ^ (m.order + 1) * 2 ^ (m.order + 1)).testBit i
  rw [mask, Nat.testBit_and, Nat.testBit_two_pow_sub_succ size, Nat.testBit_two_pow, Nat.testBit_mul_two_pow,
    Nat.testBit_div_two_pow]
  rcases Nat.lt_trichotomy i m.order with below | rfl | above
  · simp [low i below, Nat.not_le.mpr (Nat.lt_succ_of_lt below)]
  · simp
  · have shift : i - (m.order + 1) + (m.order + 1) = i := by omega
    by_cases inside : i < 64
    · simp [inside, Nat.succ_le_of_lt above, shift, Nat.ne_of_lt above]
    · have big : m.start < 2 ^ i := bound.trans_le (Nat.pow_le_pow_right (by decide) (by omega))
      simp [Nat.testBit_lt_two_pow big, shift]

/-- Below the largest order, a buddy lies in the same aligned run of `2 ^ (MAX_ORDER - 1)` frames. -/
theorem buddy_lt {nr : ℕ} {m : Block} (whole : 2 ^ (MAX_ORDER - 1) ∣ nr) (bound : m.start < nr)
    (order : m.order < MAX_ORDER - 1) : m.buddy.start < nr := by
  let top := Block.around m.start (MAX_ORDER - 1)
  have start : m.start ∈ top.frames := Block.mem_around _ _
  have inside : m.buddy.start ∈ top.frames :=
    Block.subset_of_mem (b := m.parent) (c := top) order (m.subset_parent m.start_mem) start
      (m.buddy_subset_parent m.buddy.start_mem)
  obtain ⟨q, rfl⟩ := whole
  obtain ⟨r, aligned⟩ := top.aligned
  change top.start = 2 ^ (MAX_ORDER - 1) * r at aligned
  have lower := start.1
  have upper : m.buddy.start < top.start + 2 ^ (MAX_ORDER - 1) := inside.2
  have below : r < q := by
    refine Nat.lt_of_mul_lt_mul_left (a := 2 ^ (MAX_ORDER - 1)) ?_
    omega
  have next := Nat.mul_le_mul_left (2 ^ (MAX_ORDER - 1)) (Nat.succ_le_of_lt below)
  rw [Nat.mul_succ] at next
  omega

/-- Every block that the frames of `S` can complete around `a` has its buddy inside the array. -/
def Room (nr : ℕ) (S : Set ℕ) (a : Block) : Prop :=
  ∀ m : Block, a.frames ⊆ m.frames → m.frames ⊆ S ∪ a.frames → m.order < MAX_ORDER - 1 → m.buddy.start < nr

theorem Room.of_whole {nr : ℕ} {S : Set ℕ} {a : Block} (whole : 2 ^ (MAX_ORDER - 1) ∣ nr)
    (inside : ∀ x ∈ S ∪ a.frames, x < nr) : Room nr S a :=
  fun m _ outer order => buddy_lt whole (inside _ (outer m.start_mem)) order

/-- Two maximal free blocks that share a frame are the same block. -/
theorem MaximalAt.unique {S : Set ℕ} {f g k m x : ℕ} (first : MaximalAt S f k) (second : MaximalAt S g m)
    (inFirst : x ∈ span (f, k)) (inSecond : x ∈ span (g, m)) : f = g ∧ k = m := by
  obtain ⟨_, first⟩ := first
  obtain ⟨_, second⟩ := second
  have same := first.eq_of_mem second inFirst inSecond
  exact ⟨congrArg Block.start same, congrArg Block.order same⟩

theorem MaximalAt.subset {S : Set ℕ} {f k : ℕ} (maximal : MaximalAt S f k) : span (f, k) ⊆ S := maximal.2.2.1

/-- A live block has no frame that is free. -/
theorem live_apart {lo hi : ℕ} {live : List (ℕ × ℕ)} {e : ℕ × ℕ} (member : e ∈ live) :
    ∀ x ∈ span e, x ∉ unowned lo hi live := fun _ inside free => free.2.2 e member inside

private theorem head_ne {lo hi x : ℕ} {live : List (ℕ × ℕ)} {e : ℕ × ℕ} (member : e ∈ live)
    (free : x ∈ unowned lo hi live) : e.1 ≠ x := by
  rintro rfl
  exact free.2.2 e member (mem_span_self e)

namespace BuddyInv

variable {nr lo hi : ℕ} {b b' : Buddy} {live : List (ℕ × ℕ)} {lists : ℕ → List ℕ} {k p : ℕ}

/-- The upper halves of a free block head no free block. -/
theorem half_not_listed (inv : BuddyInv nr lo hi b live lists) {q i j m : ℕ} (bound : j < MAX_ORDER)
    (inList : q ∈ lists j) (below : i < j) (mBound : m < MAX_ORDER) : q + 2 ^ i ∉ lists m := by
  intro other
  have size : 2 ^ i < 2 ^ j := Nat.pow_lt_pow_right (by decide) below
  have positive : 0 < 2 ^ i := by positivity
  have same := ((inv.members m mBound _).mp other).unique ((inv.members j bound q).mp inList) (mem_span_self _)
    ⟨Nat.le_add_right _ _, by dsimp only; omega⟩
  omega

/-- A successful allocation: the new live block is the lowest part of the first free block of the
least sufficient order. -/
theorem take (inv : BuddyInv nr lo hi b live lists) (small : k < MAX_ORDER)
    (taken : buddyTake k b = some (p, b')) :
    ∃ lists', BuddyInv nr lo hi (markTaken p b') ((p, k) :: live) lists' := by
  have success : ∃ j, findArea b k = some j := by
    cases found : findArea b k with
    | none => simp [buddyTake, found] at taken
    | some j => exact ⟨j, rfl⟩
  obtain ⟨j, found⟩ := success
  obtain ⟨le, bound, nonempty, _⟩ := inv.free.findArea_eq_some found
  obtain ⟨q, rest, shape⟩ := List.exists_cons_of_ne_nil nonempty
  have inList : q ∈ lists j := by simp [shape]
  have maximalAt := (inv.members j bound q).mp inList
  obtain ⟨taken', result, free, pages⟩ := buddyTake_spec inv.free found shape
    (inv.flags j bound q inList).2.2 (fun i _ below m mBound => inv.half_not_listed bound inList below mBound)
  obtain ⟨rfl, rfl⟩ : q = p ∧ taken' = b' := by simpa [result] using taken
  obtain ⟨aligned, maximal⟩ := maximalAt
  let block : Block := ⟨q, j, aligned⟩
  change Block.IsMaximal (MAX_ORDER - 1) (unowned lo hi live) block at maximal
  have inside : block.frames ⊆ unowned lo hi live := maximal.2.1
  have carved : unowned lo hi ((q, k) :: live) = unowned lo hi live \ (block.lower k le).frames :=
    unowned_cons lo hi (q, k) live
  have upperIn : ∀ i (below : i < j), q + 2 ^ i ∈ unowned lo hi live := fun i below =>
    inside (block.upper_subset i below (Block.start_mem _))
  have nodup := shape ▸ inv.free.nodup bound
  have members : ∀ m < MAX_ORDER, ∀ f, f ∈ carvedLists lists j k q rest m ↔
      MaximalAt (unowned lo hi ((q, k) :: live)) f m := by
    intro m mBound f
    have old := inv.members m mBound f
    simp only [MaximalAt, carved, Block.isMaximal_diff_iff maximal le]
    constructor
    · intro member
      have cases : (f ∈ lists m ∧ ¬ (m = j ∧ f = q)) ∨ (k ≤ m ∧ m < j ∧ f = q + 2 ^ m) := by
        simp only [carvedLists] at member
        split_ifs at member with here middle
        · subst here
          refine Or.inl ⟨by simp [shape, member], ?_⟩
          rintro ⟨_, rfl⟩
          exact (List.nodup_cons.mp nodup).1 member
        · rcases List.mem_cons.mp member with rfl | listed
          · exact Or.inr ⟨middle.1, middle.2, rfl⟩
          · exact Or.inl ⟨listed, fun both => here both.1⟩
        · exact Or.inl ⟨member, fun both => here both.1⟩
      rcases cases with ⟨listed, notHead⟩ | ⟨low, high, rfl⟩
      · obtain ⟨aligned', other⟩ := old.mp listed
        refine ⟨aligned', Or.inl ⟨other, fun same => notHead ?_⟩⟩
        exact ⟨congrArg Block.order same, congrArg Block.start same⟩
      · exact ⟨(block.upper m high).aligned, Or.inr ⟨m, high, low, rfl⟩⟩
    · rintro ⟨aligned', ⟨other, different⟩ | ⟨i, below, above, same⟩⟩
      · have listed := old.mpr ⟨aligned', other⟩
        simp only [carvedLists]
        split_ifs with here middle
        · subst here
          have notHead : f ≠ q := fun equal => different (Block.ext equal rfl)
          simpa [shape, notHead] using listed
        · exact List.mem_cons_of_mem _ listed
        · exact listed
      · obtain rfl : m = i := congrArg Block.order same
        obtain rfl : f = q + 2 ^ m := congrArg Block.start same
        have notTop : m ≠ j := Nat.ne_of_lt below
        simp [carvedLists, notTop, above, show m < j from below]
  have fresh : ∀ m < MAX_ORDER, ∀ f ∈ carvedLists lists j k q rest m, f ≠ q := by
    rintro m mBound f member rfl
    have free := ((members m mBound f).mp member).subset (mem_span_self _)
    rw [carved] at free
    exact free.2 (mem_span_self (f, k))
  refine ⟨carvedLists lists j k q rest, ⟨free, ?_, ?_, members, ?_, ?_, inv.range⟩⟩
  · intro m mBound f member
    have notTaken := fresh m mBound f member
    simp only [markTaken, Buddy.setPage, Function.update_of_ne notTaken]
    by_cases upper : ∃ i, k ≤ i ∧ i < j ∧ f = q + 2 ^ i
    · obtain ⟨i, low, high, rfl⟩ := upper
      rw [pages.upper i low high]
      have own : MaximalAt (unowned lo hi ((q, k) :: live)) (q + 2 ^ i) i :=
        (members i (by omega) _).mp (by simp [carvedLists, Nat.ne_of_lt high, low, high])
      exact ⟨rfl, rfl, (own.unique ((members m mBound _).mp member) (mem_span_self _) (mem_span_self _)).2⟩
    · rw [pages.other f notTaken (fun i low high same => upper ⟨i, low, high, same⟩)]
      apply inv.flags m mBound
      simp only [carvedLists] at member
      split_ifs at member with here middle
      · subst here; simp [shape, member]
      · exact (List.mem_cons.mp member).resolve_left (fun same => upper ⟨m, middle.1, middle.2, same⟩)
      · exact member
  · intro f bounded isFree isHead
    by_cases same : f = q
    · subst same
      simp [markTaken, Buddy.setPage] at isFree
    · simp only [markTaken, Buddy.setPage, Function.update_of_ne same] at isFree isHead ⊢
      by_cases upper : ∃ i, k ≤ i ∧ i < j ∧ f = q + 2 ^ i
      · obtain ⟨i, low, high, rfl⟩ := upper
        rw [pages.upper i low high]
        exact ⟨high.trans bound, by simp [carvedLists, Nat.ne_of_lt high, low, high]⟩
      · rw [pages.other f same (fun i low high equal => upper ⟨i, low, high, equal⟩)] at isFree isHead ⊢
        obtain ⟨orderBound, listed⟩ := inv.listed f bounded isFree isHead
        refine ⟨orderBound, (members _ orderBound f).mpr ?_⟩
        obtain ⟨aligned', other⟩ := (inv.members _ orderBound f).mp listed
        rw [MaximalAt, carved]
        refine ⟨aligned', (Block.isMaximal_diff_iff maximal le).mpr (Or.inl ⟨other, fun equal => same ?_⟩)⟩
        exact congrArg Block.start equal
  · intro e member
    rcases List.mem_cons.mp member with rfl | old
    · refine ⟨small, (block.lower k le).aligned, ?_, ?_⟩
      · intro x within
        have managed := inside (block.lower_subset k le within)
        exact ⟨managed.1, managed.2.1⟩
      · simp [markTaken, Buddy.setPage, pages.head]
    · obtain ⟨orderBound, aligned', range, order⟩ := inv.owned e old
      refine ⟨orderBound, aligned', range, ?_⟩
      have notHead : e.1 ≠ q := head_ne old (inside block.start_mem)
      simp only [markTaken, Buddy.setPage, Function.update_of_ne notHead]
      rw [pages.other e.1 notHead (fun i _ high => head_ne old (upperIn i high)), order]
  · refine List.pairwise_cons.mpr ⟨fun e member x within => ?_, inv.disjoint⟩
    exact (inside (block.lower_subset k le within)).2.2 e member

end BuddyInv

/-- The frame and the order that the merge loop goes on with are those of the parent. -/
theorem merge_parent {m : Block} (order : m.order < MAX_ORDER - 1) (bound : m.start < WORD) :
    m.start &&& (WORD - 1 - 2 ^ m.order) = m.parent.start ∧ (m.order + 1) % 32 = m.parent.order := by
  simp only [MAX_ORDER] at order
  exact ⟨and_mask_eq_parent m (by omega) bound, Nat.mod_eq_of_lt (by omega)⟩

/-- The test of the merge loop on the buddy of `m`. -/
def FreeHead (m : Block) (b : Buddy) : Prop :=
  (b.pages m.buddy.start).order = m.order ∧ (b.pages m.buddy.start).isFree = true ∧
  (b.pages m.buddy.start).isHead = true

/-- The state after an iteration that takes the buddy of `m`. -/
def absorbed (m : Block) (b : Buddy) : Buddy :=
  ((b.listDel m.buddy.start).setPage m.buddy.start fun s => { s with isFree := false, isHead := false }).setPage
    m.parent.start fun s => { s with order := m.order + 1 }

theorem mergeLoop_stop {m : Block} {b : Buddy} (test : ¬ FreeHead m b) (fuel : ℕ) :
    mergeLoop (fuel + 1) m.start m.order b = (m.start, m.order, b) := by
  have start : m.start ^^^ 2 ^ m.order = m.buddy.start := rfl
  simp only [mergeLoop, start]
  rw [if_pos (by unfold FreeHead at test; tauto)]

theorem mergeLoop_absorb {m : Block} {b : Buddy} (order : m.order < MAX_ORDER - 1) (bound : m.start < WORD)
    (test : FreeHead m b) (fuel : ℕ) :
    mergeLoop (fuel + 1) m.start m.order b = mergeLoop fuel m.parent.start m.parent.order (absorbed m b) := by
  have start : m.start ^^^ 2 ^ m.order = m.buddy.start := rfl
  obtain ⟨parent, fits⟩ := merge_parent order bound
  simp only [mergeLoop, start, parent, fits, Block.parent_order]
  rw [if_neg (by unfold FreeHead at test; tauto)]
  rfl

/-- The state of the merge loop: `m` is the block grown so far around the released block `a`, and
the lists hold the maximal free blocks that were not absorbed. -/
structure Merging (nr : ℕ) (S : Set ℕ) (a : Block) (old : ℕ → Page) (m : Block) (b : Buddy)
    (lists : ℕ → List ℕ) : Prop where
  free : FreeLists b lists
  flags : ∀ k < MAX_ORDER, ∀ f ∈ lists k,
    (b.pages f).isFree = true ∧ (b.pages f).isHead = true ∧ (b.pages f).order = k
  listed : ∀ f < nr, (b.pages f).isFree = true → (b.pages f).isHead = true →
    (b.pages f).order < MAX_ORDER ∧ f ∈ lists (b.pages f).order
  members : ∀ k < MAX_ORDER, ∀ f, f ∈ lists k ↔ MaximalAt S f k ∧ ¬ span (f, k) ⊆ m.frames
  inner : a.frames ⊆ m.frames
  outer : m.frames ⊆ S ∪ a.frames
  order_le : m.order ≤ MAX_ORDER - 1
  bound : m.start < nr
  cleared : (b.pages m.start).isFree = false
  order : (b.pages m.start).order = m.order
  others : ∀ f, f ∉ S → f ∉ a.frames → b.pages f = old f

namespace Merging

variable {nr : ℕ} {S : Set ℕ} {a m : Block} {old : ℕ → Page} {b : Buddy} {lists : ℕ → List ℕ}

/-- No listed block touches the block under construction. -/
theorem not_mem (merging : Merging nr S a old m b lists) (apart : ∀ x ∈ a.frames, x ∉ S) {k f x : ℕ}
    (small : k < MAX_ORDER) (member : f ∈ lists k) (inside : x ∈ span (f, k)) : x ∉ m.frames := by
  intro inM
  obtain ⟨⟨aligned, maximal⟩, outside⟩ := (merging.members k small f).mp member
  rcases Block.subset_or_subset (b := ⟨f, k, aligned⟩) inside inM with sub | sub
  · exact outside sub
  · exact apart _ a.start_mem (maximal.2.1 (sub (merging.inner a.start_mem)))

/-- The block under construction heads no list. -/
theorem start_not_mem (merging : Merging nr S a old m b lists) (apart : ∀ x ∈ a.frames, x ∉ S) {k : ℕ}
    (small : k < MAX_ORDER) : m.start ∉ lists k := by
  intro member
  exact merging.not_mem apart small member (mem_span_self _) m.start_mem

/-- One iteration absorbs the buddy and continues with the parent. -/
theorem absorb (merging : Merging nr S a old m b lists) (apart : ∀ x ∈ a.frames, x ∉ S)
    (order : m.order < MAX_ORDER - 1) (listed : m.buddy.start ∈ lists m.order) :
    Merging nr S a old m.parent (absorbed m b)
      (Function.update lists m.order ((lists m.order).erase m.buddy.start)) := by
  have small : m.order < MAX_ORDER := by omega
  have nodup := merging.free.nodup small
  obtain ⟨⟨aligned, maximal⟩, _⟩ := (merging.members _ small _).mp listed
  have buddyFree : m.buddy.frames ⊆ S := maximal.2.1
  have maximalBuddy : MaximalAt S m.buddy.start m.order := ⟨aligned, maximal⟩
  have parentStart : m.parent.start = m.start ∨ m.parent.start = m.buddy.start := by
    have start : m.parent.start ∈ m.parent.frames := m.parent.start_mem
    have lowM := (m.subset_parent m.start_mem).1
    have lowB := (m.buddy_subset_parent m.buddy.start_mem).1
    rcases Block.mem_parent.mp start with inM | inB
    · exact Or.inl (Nat.le_antisymm lowM inM.1)
    · exact Or.inr (Nat.le_antisymm lowB inB.1)
  have subset : ∀ k, ∀ f ∈ Function.update lists m.order ((lists m.order).erase m.buddy.start) k,
      f ∈ lists k ∧ ¬ (k = m.order ∧ f = m.buddy.start) := by
    intro k f member
    by_cases same : k = m.order
    · subst same
      rw [Function.update_self, nodup.mem_erase_iff] at member
      exact ⟨member.2, fun both => member.1 both.2⟩
    · rw [Function.update_of_ne same] at member
      exact ⟨member, fun both => same both.1⟩
  have superset : ∀ k, ∀ f ∈ lists k, ¬ (k = m.order ∧ f = m.buddy.start) →
      f ∈ Function.update lists m.order ((lists m.order).erase m.buddy.start) k := by
    intro k f member other
    by_cases same : k = m.order
    · subst same
      rw [Function.update_self, nodup.mem_erase_iff]
      exact ⟨fun equal => other ⟨rfl, equal⟩, member⟩
    · rwa [Function.update_of_ne same]
  have notBuddy : ∀ k < MAX_ORDER, ∀ f ∈ lists k, ¬ (k = m.order ∧ f = m.buddy.start) → f ≠ m.buddy.start := by
    rintro k bound f member other rfl
    have orders := (merging.flags k bound _ member).2.2.symm.trans (merging.flags _ small _ listed).2.2
    exact other ⟨orders, rfl⟩
  have notStart : ∀ k < MAX_ORDER, ∀ f ∈ lists k, f ≠ m.start := by
    rintro k bound f member rfl
    exact merging.start_not_mem apart bound member
  unfold absorbed
  refine ⟨merging.free.listDel small listed, ?_, ?_, ?_, ?_, ?_, ?_, ?_, ?_, ?_, ?_⟩
  · intro k bound f member
    obtain ⟨inside, other⟩ := subset k f member
    have first := notBuddy k bound f inside other
    have second : f ≠ m.parent.start := by
      rcases parentStart with same | same <;> rw [same]
      · exact notStart k bound f inside
      · exact first
    simpa [Buddy.setPage, Buddy.listDel, Function.update_of_ne first, Function.update_of_ne second]
      using merging.flags k bound f inside
  · intro f bounded isFree isHead
    have first : f ≠ m.buddy.start := by
      rintro rfl
      by_cases same : m.buddy.start = m.parent.start
      · simp [Buddy.setPage, Buddy.listDel, ← same] at isFree
      · simp [Buddy.setPage, Buddy.listDel, Function.update_of_ne same] at isFree
    have second : f ≠ m.parent.start := by
      rintro rfl
      rcases parentStart with same | same
      · simp [Buddy.setPage, Buddy.listDel, same, merging.cleared,
          Function.update_of_ne (same ▸ first)] at isFree
      · exact first same
    simp only [Buddy.setPage, Buddy.listDel, Function.update_of_ne first, Function.update_of_ne second]
      at isFree isHead ⊢
    obtain ⟨orderBound, inside⟩ := merging.listed f bounded isFree isHead
    exact ⟨orderBound, superset _ f inside (fun both => first both.2)⟩
  · intro k bound f
    constructor
    · intro member
      obtain ⟨inside, other⟩ := subset k f member
      obtain ⟨maximalF, outside⟩ := (merging.members k bound f).mp inside
      refine ⟨maximalF, fun wide => other ?_⟩
      rcases Block.mem_parent.mp (wide (mem_span_self _)) with inM | inB
      · exact absurd inM (merging.not_mem apart bound inside (mem_span_self _))
      · exact (maximalF.unique maximalBuddy (mem_span_self _) inB).symm
    · rintro ⟨maximalF, outside⟩
      refine superset k f ((merging.members k bound f).mpr
        ⟨maximalF, fun sub => outside (sub.trans m.subset_parent)⟩) ?_
      rintro ⟨rfl, rfl⟩
      exact outside m.buddy_subset_parent
  · exact merging.inner.trans m.subset_parent
  · intro x inside
    rcases Block.mem_parent.mp inside with inM | inB
    · exact merging.outer inM
    · exact Or.inl (buddyFree inB)
  · exact order
  · exact ((m.subset_parent m.start_mem).1).trans_lt merging.bound
  · rcases parentStart with same | same
    · have first : m.start ≠ m.buddy.start :=
        fun equal => Block.buddy_disjoint m.start_mem (equal ▸ m.buddy.start_mem)
      simp [Buddy.setPage, Buddy.listDel, same, Function.update_of_ne first, merging.cleared]
    · simp [Buddy.setPage, Buddy.listDel, same]
  · simp [Buddy.setPage]
  · intro f outS outA
    have first : f ≠ m.buddy.start := by rintro rfl; exact outS (buddyFree m.buddy.start_mem)
    have second : f ≠ m.parent.start := by
      rcases parentStart with same | same <;> rw [same]
      · rintro rfl
        exact (merging.outer m.start_mem).elim outS outA
      · exact first
    simpa [Buddy.setPage, Buddy.listDel, Function.update_of_ne first, Function.update_of_ne second]
      using merging.others f outS outA

/-- A buddy that passes the test is on the list of its order. -/
theorem mem_of_freeHead (merging : Merging nr S a old m b lists) (inArray : m.buddy.start < nr)
    (test : FreeHead m b) :
    m.buddy.start ∈ lists m.order := by
  have found := (merging.listed _ inArray test.2.1 test.2.2).2
  rwa [test.1] at found

/-- A buddy that is free as a whole passes the test. -/
theorem freeHead_of_maximal (merging : Merging nr S a old m b lists) (order : m.order < MAX_ORDER - 1)
    (maximal : MaximalAt S m.buddy.start m.order) : FreeHead m b := by
  have small : m.order < MAX_ORDER := by omega
  have listed := (merging.members _ small _).mpr ⟨maximal, fun sub =>
    Block.buddy_disjoint (sub (mem_span_self (m.buddy.start, m.order))) m.buddy.start_mem⟩
  obtain ⟨isFree, isHead, same⟩ := merging.flags _ small _ listed
  exact ⟨same, isFree, isHead⟩

/-- The loop ends with a block whose buddy is not free as a whole. -/
theorem loop (apart : ∀ x ∈ a.frames, x ∉ S) (room : Room nr S a) (word : nr ≤ WORD) :
    ∀ (fuel : ℕ) (m : Block) (b : Buddy) (lists : ℕ → List ℕ), Merging nr S a old m b lists →
      fuel = MAX_ORDER - 1 - m.order →
      ∃ m' b' lists', mergeLoop fuel m.start m.order b = (m'.start, m'.order, b') ∧
        Merging nr S a old m' b' lists' ∧
        (m'.order < MAX_ORDER - 1 → ¬ MaximalAt S m'.buddy.start m'.order) := by
  intro fuel
  induction fuel with
  | zero =>
    intro m b lists merging enough
    exact ⟨m, b, lists, rfl, merging, fun order => absurd enough (by omega)⟩
  | succ fuel ih =>
    intro m b lists merging enough
    have order : m.order < MAX_ORDER - 1 := by omega
    have inArray := room m merging.inner merging.outer order
    by_cases test : FreeHead m b
    · have listed : m.buddy.start ∈ lists m.order := merging.mem_of_freeHead inArray test
      have next := merging.absorb apart order listed
      obtain ⟨m', b', lists', result, merged, stop⟩ := ih m.parent _ _ next (by simp; omega)
      exact ⟨m', b', lists', (mergeLoop_absorb order (merging.bound.trans_le word) test fuel).trans result,
        merged, stop⟩
    · exact ⟨m, b, lists, mergeLoop_stop test fuel, merging, fun _ maximal =>
        test (merging.freeHead_of_maximal order maximal)⟩

end Merging

namespace BuddyInv

variable {nr lo hi : ℕ} {b : Buddy} {live : List (ℕ × ℕ)} {lists : ℕ → List ℕ} {k p : ℕ}

private theorem unowned_erase {e : ℕ × ℕ} (inv : BuddyInv nr lo hi b live lists) (member : e ∈ live) :
    unowned lo hi (live.erase e) = unowned lo hi live ∪ span e := by
  have perm := List.perm_cons_erase member
  have split : unowned lo hi live = unowned lo hi (live.erase e) \ span e := by
    rw [← unowned_cons]
    ext x
    change (_ ∧ _ ∧ ∀ d ∈ live, x ∉ span d) ↔ (_ ∧ _ ∧ ∀ d ∈ e :: live.erase e, x ∉ span d)
    simp only [perm.mem_iff]
  have disjoint := perm.pairwise inv.disjoint (fun far x inside other => far x other inside)
  have whole : span e ⊆ unowned lo hi (live.erase e) := by
    intro x inside
    have range := (inv.owned e member).2.2.1 inside
    exact ⟨range.1, range.2, fun d other => (List.pairwise_cons.mp disjoint).1 d other x inside⟩
  rw [split, Set.sdiff_union_of_subset whole]

/-- A live block as the merge loop starts with it. -/
theorem merging (inv : BuddyInv nr lo hi b live lists) (member : (p, k) ∈ live) (aligned : 2 ^ k ∣ p) :
    Merging nr (unowned lo hi live) ⟨p, k, aligned⟩ b.pages ⟨p, k, aligned⟩
      (b.setPage p fun s => { s with isFree := false, isHead := false, alloc := 0 }) lists := by
  obtain ⟨small, _, range, order⟩ := inv.owned _ member
  dsimp only at small order
  let a : Block := ⟨p, k, aligned⟩
  have apart : ∀ x ∈ a.frames, x ∉ unowned lo hi live := live_apart member
  have notListed : ∀ m < MAX_ORDER, p ∉ lists m := by
    intro m bound listed
    exact apart p a.start_mem (((inv.members m bound p).mp listed).subset (mem_span_self _))
  refine ⟨inv.free, ?_, ?_, ?_, subset_rfl, Set.subset_union_right, by change k ≤ _; omega, ?_, ?_, ?_, ?_⟩
  · intro m bound f inside
    have different : f ≠ p := by rintro rfl; exact notListed m bound inside
    simpa [Buddy.setPage, Function.update_of_ne different] using inv.flags m bound f inside
  · intro f bounded isFree isHead
    have different : f ≠ p := by rintro rfl; simp [Buddy.setPage] at isFree
    simp only [Buddy.setPage, Function.update_of_ne different] at isFree isHead ⊢
    exact inv.listed f bounded isFree isHead
  · intro m bound f
    rw [inv.members m bound f]
    refine ⟨fun maximal => ⟨maximal, fun sub => ?_⟩, And.left⟩
    exact apart f (sub (mem_span_self _)) (maximal.subset (mem_span_self _))
  · exact ((range (mem_span_self _)).2).trans_le inv.range
  · simp [Buddy.setPage]
  · simpa [Buddy.setPage] using order
  · intro f _ outside
    have different : f ≠ p := by rintro rfl; exact outside a.start_mem
    simp [Buddy.setPage, Function.update_of_ne different]

/-- The frames that releasing a live block can involve are managed ones. -/
theorem release_lt (inv : BuddyInv nr lo hi b live lists) (member : (p, k) ∈ live) (aligned : 2 ^ k ∣ p) :
    ∀ x ∈ unowned lo hi live ∪ Block.frames ⟨p, k, aligned⟩, x < nr := by
  rintro x (free | own)
  · exact free.2.1.trans_le inv.range
  · exact ((inv.owned _ member).2.2.1 own).2.trans_le inv.range

/-- Releasing a live block: it is merged as far as possible and nothing else changes. -/
theorem release (inv : BuddyInv nr lo hi b live lists) (member : (p, k) ∈ live)
    (room : ∀ aligned, Room nr (unowned lo hi live) ⟨p, k, aligned⟩) (word : nr ≤ WORD) :
    ∃ lists', BuddyInv nr lo hi (buddyMergeInner p b) (live.erase (p, k)) lists' := by
  obtain ⟨small, aligned, range, order⟩ := inv.owned _ member
  dsimp only at small aligned order
  let a : Block := ⟨p, k, aligned⟩
  have apart : ∀ x ∈ a.frames, x ∉ unowned lo hi live := live_apart member
  have start := inv.merging member aligned
  obtain ⟨m, c, merged, result, merging, stop⟩ :=
    Merging.loop apart (room aligned) word (MAX_ORDER - 1 - k) a _ lists start rfl
  change mergeLoop (MAX_ORDER - 1 - k) p k _ = _ at result
  have mSmall : m.order < MAX_ORDER := by have := merging.order_le; have : 0 < MAX_ORDER := by decide
                                          omega
  have notM : ∀ i < MAX_ORDER, m.start ∉ merged i := fun i bound => merging.start_not_mem apart bound
  have outcome : buddyMergeInner p b = (c.setPage m.start fun s =>
      { s with isFree := true, isHead := true, alloc := 0 }).listAdd m.order m.start := by
    simp only [buddyMergeInner, order, result]
  have maximal : ∀ i < MAX_ORDER, ∀ f, MaximalAt (unowned lo hi (live.erase (p, k))) f i ↔
      (f = m.start ∧ i = m.order) ∨ (MaximalAt (unowned lo hi live) f i ∧ ¬ span (f, i) ⊆ m.frames) := by
    intro i _ f
    have union : unowned lo hi (live.erase (p, k)) = unowned lo hi live ∪ a.frames := unowned_erase inv member
    have key (aligned' : 2 ^ i ∣ f) := Block.isMaximal_union_iff (c := ⟨f, i, aligned'⟩) apart merging.order_le
      merging.inner merging.outer (fun lt other => stop lt ⟨m.buddy.aligned, other⟩)
    rw [MaximalAt, union]
    constructor
    · rintro ⟨aligned', found⟩
      rcases (key aligned').mp found with same | ⟨other, outside⟩
      · exact Or.inl ⟨congrArg Block.start same, congrArg Block.order same⟩
      · exact Or.inr ⟨⟨aligned', other⟩, outside⟩
    · rintro (⟨rfl, rfl⟩ | ⟨⟨aligned', other⟩, outside⟩)
      · exact ⟨m.aligned, (key m.aligned).mpr (Or.inl rfl)⟩
      · exact ⟨aligned', (key aligned').mpr (Or.inr ⟨other, outside⟩)⟩
  have added : ∀ i f, f ∈ Function.update merged m.order (m.start :: merged m.order) i ↔
      (f = m.start ∧ i = m.order) ∨ f ∈ merged i := by
    intro i f
    by_cases same : i = m.order
    · subst same; simp
    · simp [same]
  rw [outcome]
  refine ⟨Function.update merged m.order (m.start :: merged m.order),
    ⟨merging.free.listAdd mSmall notM, ?_, ?_, ?_, ?_, ?_, inv.range⟩⟩
  · intro i bound f inside
    rcases (added i f).mp inside with ⟨rfl, rfl⟩ | old
    · simpa [Buddy.listAdd, Buddy.setPage] using merging.order
    · have different : f ≠ m.start := by rintro rfl; exact notM i bound old
      simpa [Buddy.listAdd, Buddy.setPage, Function.update_of_ne different] using merging.flags i bound f old
  · intro f bounded isFree isHead
    by_cases same : f = m.start
    · subst same
      simp only [Buddy.listAdd, Buddy.setPage, Function.update_self, merging.order]
      exact ⟨mSmall, List.mem_cons_self⟩
    · simp only [Buddy.listAdd, Buddy.setPage, Function.update_of_ne same] at isFree isHead ⊢
      obtain ⟨orderBound, old⟩ := merging.listed f bounded isFree isHead
      exact ⟨orderBound, (added _ f).mpr (Or.inr old)⟩
  · intro i bound f
    rw [added, maximal i bound, merging.members i bound f]
  · intro e other
    have old := List.mem_of_mem_erase other
    obtain ⟨orderBound, eAligned, eRange, eOrder⟩ := inv.owned e old
    have far := (List.pairwise_cons.mp ((List.perm_cons_erase member).pairwise inv.disjoint
      (fun far x inside other => far x other inside))).1 e other
    have outS : e.1 ∉ unowned lo hi live := fun free => free.2.2 e old (mem_span_self e)
    have outA : e.1 ∉ a.frames := fun inside => far e.1 inside (mem_span_self e)
    have different : e.1 ≠ m.start := fun same =>
      (merging.outer m.start_mem).elim (fun free => outS (same ▸ free)) (fun inside => outA (same ▸ inside))
    refine ⟨orderBound, eAligned, eRange, ?_⟩
    simp only [Buddy.listAdd, Buddy.setPage, Function.update_of_ne different,
      merging.others e.1 outS outA, eOrder]
  · exact inv.disjoint.sublist List.erase_sublist

/-- On a whole number of largest blocks every release stays inside the array. -/
theorem merge (inv : BuddyInv nr lo hi b live lists) (member : (p, k) ∈ live)
    (whole : 2 ^ (MAX_ORDER - 1) ∣ nr) (word : nr ≤ WORD) :
    ∃ lists', BuddyInv nr lo hi (buddyMergeInner p b) (live.erase (p, k)) lists' :=
  inv.release member (fun aligned => Room.of_whole whole (inv.release_lt member aligned)) word

end BuddyInv

end Pke.Proofs
