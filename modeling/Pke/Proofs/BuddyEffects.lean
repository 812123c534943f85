import Pke.Proofs.BuddyRuns

/-! # When `buddy_alloc` succeeds, and what it does

Since every merge was carried as far as possible, an aligned run of free frames lies inside one free block,
so the scan over the lists finds a block exactly if such a run exists. `buddyAlloc_effect` reads the effect
of a successful call off the lists: the head block of the least sufficient order is cut down, and one
upper half is left behind for each order on the way.
-/

namespace Pke.Proofs

open Pke.Lib Pke.Model

/-- The scan fails exactly if no aligned run of the size is free. -/
theorem BuddyInv.findArea_eq_none_iff {nr lo hi : ℕ} {b : Buddy} {owned : List (ℕ × ℕ)}
    {lists : ℕ → List ℕ} {k : ℕ} (inv : BuddyInv nr lo hi b owned lists) (small : k < MAX_ORDER) :
    findArea b k = none ↔ ¬ ∃ f, 2 ^ k ∣ f ∧ span (f, k) ⊆ unowned lo hi owned := by
  rw [inv.free.findArea_eq_none_iff]
  constructor
  · rintro empty ⟨f, aligned, free⟩
    let run : Block := ⟨f, k, aligned⟩
    obtain ⟨block, maximal, inside⟩ := Block.exists_isMaximal (MAX_ORDER - 1) (free (mem_span_self (f, k)))
    have within : run.frames ⊆ block.frames :=
      maximal.subset (c := run) (Nat.le_sub_one_of_lt small) free inside run.start_mem
    have order : block.order < MAX_ORDER := Nat.lt_of_le_pred (by decide) maximal.1
    have listed : block.start ∈ lists block.order := (inv.members _ order _).mpr ⟨block.aligned, maximal⟩
    rw [empty block.order (Block.order_le_of_subset within) order] at listed
    exact absurd listed List.not_mem_nil
  · intro none i le order
    by_contra nonempty
    obtain ⟨f, rest, shape⟩ := List.exists_cons_of_ne_nil nonempty
    obtain ⟨aligned, maximal⟩ := (inv.members i order f).mp (by rw [shape]; exact List.mem_cons_self)
    let block : Block := ⟨f, i, aligned⟩
    exact none ⟨f, (block.lower k le).aligned, fun x inside => maximal.2.1 (block.lower_subset k le inside)⟩

/-- In every reachable state `buddy_alloc(k)` panics exactly if no aligned run of `2 ^ k` managed
frames is free. -/
theorem buddyAlloc_complete {s t : Pmm} (start : SetUp s) {calls : List BuddyCall} {live : List (ℕ × ℕ)}
    (run : Run BuddyStep ⟨s, []⟩ calls ⟨t, live⟩) {k : ℕ} (small : k < MAX_ORDER) :
    (∃ t', buddyAlloc k t = .error (.panic "buddy_alloc : Out of required size of memory!\n") t') ↔
      ¬ ∃ f, 2 ^ k ∣ f ∧ span (f, k) ⊆ managed t \ covered live := by
  obtain ⟨_, _, unlocked, owned, lists, same, ok⟩ := runInv_of_run start run
  change live = addresses owned at same
  change t.lock = false at unlocked
  have rest : managed t \ covered live = unowned (ADDR_TO_PFN t.buddyStart) (ADDR_TO_PFN t.buddyEnd) owned := by
    rw [same]
    exact managed_sdiff_covered t owned
  rw [rest, ← BuddyInv.findArea_eq_none_iff ok small, buddyAlloc_eq, if_pos small, unlocked]
  simp only [Bool.false_eq_true, if_false, buddyTake]
  cases findArea t.buddy k with
  | none => simp
  | some j => simp

/-- After three allocations and a release the upper half of the small machine is free, but not all of it. -/
theorem buddyAlloc_complete_small :
    ∃ h, Run BuddyStep ⟨smallSetup, []⟩ [.alloc 0, .alloc 0, .alloc 1, .free 0x80016000] h ∧
    (¬ ∃ t', buddyAlloc 9 h.pmm = .error (.panic "buddy_alloc : Out of required size of memory!\n") t') ∧
    ∃ t', buddyAlloc 10 h.pmm = .error (.panic "buddy_alloc : Out of required size of memory!\n") t' := by
  have checked : (evalRun nextHolding ⟨smallSetup, []⟩ [.alloc 0, .alloc 0, .alloc 1, .free 0x80016000]).any
      (fun h => decide (h.live = [(0x80018000, 1), (0x80017000, 0)])) = true := by decide +kernel
  obtain ⟨⟨t, live⟩, run, check⟩ := Run.of_eval nextHolding_step checked
  obtain rfl : live = [(0x80018000, 1), (0x80017000, 0)] := of_decide_eq_true check
  have frames : managed t = Set.Ico 22 1024 :=
    (buddyRun_managed run).trans (congrArg₂ Set.Ico (by decide) (by decide))
  refine ⟨_, run, ?_, ?_⟩
  · rw [buddyAlloc_complete smallSetup_setUp run (by decide), frames, not_not]
    refine ⟨512, dvd_rfl, fun x inside => ?_⟩
    obtain ⟨low, high⟩ := inside
    refine ⟨⟨le_trans (by decide) low, high⟩, ?_⟩
    rintro ⟨e, member, _, below⟩
    have lower : ∀ e ∈ liveBlocks [(0x80018000, 1), (0x80017000, 0)], e.1 + 2 ^ e.2 ≤ 512 := by decide
    exact absurd (below.trans_le (lower e member)) (Nat.not_lt.mpr low)
  · rw [buddyAlloc_complete smallSetup_setUp run (by decide), frames]
    rintro ⟨f, ⟨q, rfl⟩, inside⟩
    obtain ⟨⟨low, high⟩, _⟩ := inside (mem_span_self (2 ^ 10 * q, 10))
    omega

/-- What `buddy_alloc(k)` does when the first block of order `j`, at frame `p`, is the one it cuts. -/
structure Carved (s t : Pmm) (lists lists' : ℕ → List ℕ) (j k p : ℕ) : Prop where
  free : FreeLists t.buddy lists'
  source : lists j = p :: lists' j
  halves : ∀ i, k ≤ i → i < j → lists' i = [p + 2 ^ i]
  others : ∀ i, i < k ∨ j < i → lists' i = lists i
  head : t.buddy.pages p = { s.buddy.pages p with isFree := false, isHead := true, order := k, alloc := 1 }
  half : ∀ i, k ≤ i → i < j → t.buddy.pages (p + 2 ^ i) =
    { isFree := true, isHead := true, order := i, alloc := 0 }
  pages : ∀ f, f ≠ p → (∀ i, k ≤ i → i < j → f ≠ p + 2 ^ i) → t.buddy.pages f = s.buddy.pages f
  rest : t = { lockedOnce s with buddy := t.buddy }

/-- The upper halves of a free block head no free block. -/
theorem Represents.half_not_listed {s : Pmm} {live : List (ℕ × ℕ)} {lists : ℕ → List ℕ}
    (rep : Represents s live lists) {j p i m : ℕ} (small : j < MAX_ORDER) (member : p ∈ lists j) (below : i < j)
    (mSmall : m < MAX_ORDER) : p + 2 ^ i ∉ lists m := by
  intro listed
  have positive : 0 < 2 ^ i := by positivity
  have size : 2 ^ i < 2 ^ j := Nat.pow_lt_pow_right (by decide) below
  have blocks := (List.pairwise_append.mp rep.disjoint).1
  have symmetric : Std.Symm fun d e : ℕ × ℕ => Disjoint (span d) (span e) := ⟨fun _ _ far => far.symm⟩
  have apart : Disjoint (span (p, j)) (span (p + 2 ^ i, m)) := by
    refine blocks.forall (mem_freeBlocks.mpr ⟨small, member⟩) (mem_freeBlocks.mpr ⟨mSmall, listed⟩) ?_
    intro same
    have first : p = p + 2 ^ i := congrArg Prod.fst same
    omega
  refine Set.disjoint_left.mp apart ⟨?_, ?_⟩ (mem_span_self (p + 2 ^ i, m))
  · exact Nat.le_add_right _ _
  · dsimp only
    omega

/-- In every state that satisfies the representation invariant, `buddy_alloc(k)` returns the lowest
part of the head block of the least sufficient order, and leaves one upper half for each order in
between. -/
theorem buddyAlloc_effect {s : Pmm} {live : List (ℕ × ℕ)} {lists : ℕ → List ℕ} (rep : Represents s live lists)
    (unlocked : s.lock = false) {k j p : ℕ} {rest : List ℕ} (le : k ≤ j) (small : j < MAX_ORDER)
    (first : lists j = p :: rest) (least : ∀ i, k ≤ i → i < j → lists i = []) :
    ∃ t lists', buddyAlloc k s = .ok (PFN_TO_ADDR p) t ∧ 2 ^ k * PGSIZE ∣ PFN_TO_ADDR p ∧
      Carved s t lists lists' j k p := by
  have member : p ∈ lists j := by rw [first]; exact List.mem_cons_self
  obtain ⟨aligned, isFree, isHead, order, -⟩ := rep.nodes j small p member
  have found : findArea s.buddy k = some j := by
    cases result : findArea s.buddy k with
    | none =>
      exact absurd (rep.free.findArea_eq_none_iff.mp result j le small) (by rw [first]; exact List.cons_ne_nil _ _)
    | some i =>
      obtain ⟨low, bound, nonempty, empty⟩ := rep.free.findArea_eq_some result
      rcases Nat.lt_trichotomy i j with below | same | above
      · exact absurd (least i low below) nonempty
      · rw [same]
      · exact absurd (empty j le above) (by rw [first]; exact List.cons_ne_nil _ _)
  obtain ⟨b, taken, free, pages⟩ := buddyTake_spec rep.free found first order fun i _ below m mSmall =>
    rep.half_not_listed small member below mSmall
  refine ⟨{ lockedOnce s with buddy := markTaken p b }, carvedLists lists j k p rest, ?_, ?_, ?_⟩
  · exact buddyAlloc_eq_ok.mpr ⟨lt_of_le_of_lt le small, unlocked, p, b, taken, rfl, rfl⟩
  · have frames : 2 ^ k * PGSIZE ∣ p * PGSIZE := Nat.mul_dvd_mul_right ((Nat.pow_dvd_pow 2 le).trans aligned) _
    have base : 2 ^ k * PGSIZE ∣ 2 ^ 19 * PGSIZE := by
      refine Nat.mul_dvd_mul_right (Nat.pow_dvd_pow 2 ?_) _
      simp only [MAX_ORDER] at small
      omega
    exact Nat.dvd_add frames base
  · refine ⟨free, ?_, fun i low high => ?_, fun i outside => ?_, ?_, fun i low high => ?_,
      fun f notHead notHalf => ?_, rfl⟩
    · rw [carvedLists, if_pos rfl, first]
    · rw [carvedLists, if_neg (Nat.ne_of_lt high), if_pos ⟨low, high⟩, least i low high]
    · rcases outside with below | above
      · rw [carvedLists, if_neg (Nat.ne_of_lt (below.trans_le le)), if_neg fun both =>
          absurd both.1 (Nat.not_le.mpr below)]
      · rw [carvedLists, if_neg (Nat.ne_of_gt above), if_neg fun both =>
          absurd both.2 (Nat.not_lt.mpr above.le)]
    · simp [markTaken, Buddy.setPage, pages.head, isHead]
    · simp [markTaken, Buddy.setPage, pages.upper i low high]
    · simp [markTaken, Buddy.setPage, notHead, pages.other f notHead notHalf]

/-- The first page that the small machine hands out is the lower half of a block of order 1. -/
theorem buddyAlloc_effect_small :
    ∃ t lists lists' p, Represents smallSetup [] lists ∧ buddyAlloc 0 smallSetup = .ok (PFN_TO_ADDR p) t ∧
      2 ^ 0 * PGSIZE ∣ PFN_TO_ADDR p ∧ Carved smallSetup t lists lists' 1 0 p := by
  obtain ⟨_, _, _, owned, lists, same, ok⟩ := smallSetup_setUp.runInv
  have rep : Represents smallSetup [] lists := by
    rw [show [] = addresses owned from same]
    exact ok.represents
  have empty : lists 0 = [] := (rep.free.areaEmpty_iff (by decide)).mp (by decide +kernel)
  have nonempty : lists 1 ≠ [] := fun none =>
    absurd ((rep.free.areaEmpty_iff (by decide)).mpr none) (by decide +kernel)
  obtain ⟨p, rest, first⟩ := List.exists_cons_of_ne_nil nonempty
  have least : ∀ i, 0 ≤ i → i < 1 → lists i = [] := by
    intro i _ below
    obtain rfl := Nat.lt_one_iff.mp below
    exact empty
  obtain ⟨t, lists', effect⟩ := buddyAlloc_effect rep rfl (Nat.zero_le 1) (by decide) first least
  exact ⟨t, lists, lists', p, rep, effect⟩

end Pke.Proofs
