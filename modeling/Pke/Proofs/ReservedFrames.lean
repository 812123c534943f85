import Pke.Proofs.LockDiscipline
import Pke.Proofs.PooledFrames

/-! # Reserved frames and the releasing entry points

`pmm_init` marks every descriptor with `alloc = 3` before the partition, but no function reads the tag,
the assertion of `buddy_free` holds of every address, and `pfree` has none. Which frames can reach a list
or a slot is therefore a matter of the addresses the callers pass. `Confined` is what a single release of
any managed address keeps, even of one that nobody holds: all pointers of the lists stay among the
sentinels and the managed descriptors.
-/

namespace Pke.Proofs

open Pke.Lib Pke.Model

/-- Every descriptor of the array has an order that `free_area` has a list for. -/
def Ordered (nr : ℕ) (b : Buddy) : Prop := ∀ f < nr, (b.pages f).order < MAX_ORDER

namespace Ordered

variable {nr : ℕ} {b b' : Buddy}

theorem setPage (ordered : Ordered nr b) {pfn : ℕ} {change : Page → Page}
    (small : ∀ p : Page, p.order < MAX_ORDER → (change p).order < MAX_ORDER) :
    Ordered nr (b.setPage pfn change) := by
  intro f bound
  by_cases same : f = pfn
  · subst same
    simpa [Buddy.setPage] using small _ (ordered f bound)
  · simpa [Buddy.setPage, Function.update_of_ne same] using ordered f bound

theorem links (ordered : Ordered nr b) (links : Links Node) : Ordered nr { b with links := links } := ordered

theorem splitStep {i : ℕ} (ordered : Ordered nr b) (bound : i < MAX_ORDER) : Ordered nr (splitStep i b) := by
  have small : (i - 1) % 32 < MAX_ORDER := (Nat.mod_le _ _).trans_lt (by omega)
  exact ((((ordered.links _).setPage (fun _ _ => small)).links _).setPage (fun _ _ => small)).links _

theorem buddySplit {target : ℕ} :
    ∀ {i : ℕ} {b : Buddy}, Ordered nr b → i < MAX_ORDER → Ordered nr (buddySplit i target b) := by
  intro i
  induction i with
  | zero => exact fun ordered _ => ordered
  | succ i ih =>
    intro b ordered bound
    rw [Model.buddySplit]
    split_ifs
    · exact ih (ordered.splitStep bound) (by omega)
    · exact ordered

theorem take {k p : ℕ} (ordered : Ordered nr b) (taken : buddyTake k b = some (p, b')) :
    Ordered nr (markTaken p b') := by
  obtain ⟨i, found, result⟩ := Option.map_eq_some_iff.mp taken
  obtain ⟨rfl, rfl⟩ := Prod.mk.inj result
  have range := List.mem_of_find?_eq_some found
  rw [List.mem_range'_1] at range
  refine Ordered.setPage (Ordered.links ?_ _) (fun _ small => small)
  split_ifs
  · exact ordered.buddySplit (by omega)
  · exact ordered

private theorem initLoop {stop : ℕ} :
    ∀ {fuel curr : ℕ} {b : Buddy}, Ordered nr b → Ordered nr (buddyInitLoop stop fuel curr b) := by
  intro fuel
  induction fuel with
  | zero => exact fun ordered => ordered
  | succ fuel ih =>
    intro curr b ordered
    rw [buddyInitLoop]
    split_ifs
    · have small : initOrder curr stop % 32 < MAX_ORDER := by
        refine (Nat.mod_le _ _).trans_lt ?_
        simp only [initOrder, MAX_ORDER]
        split_ifs <;> omega
      exact ih ((ordered.setPage fun _ _ => small).links _)
    · exact ordered

end Ordered

/-- Only managed descriptors were ever linked, the flags name no other ones as free, and all orders
are valid. -/
structure Confined (nr lo hi : ℕ) (b : Buddy) : Prop where
  linked : ∃ C ⊆ Set.Ico lo hi, b.links.Closed (nodesOf C) ∧
    ∀ f < nr, (b.pages f).isFree = true → (b.pages f).isHead = true → f ∈ C
  ordered : Ordered nr b

private theorem nodesOf_insert (C : Set ℕ) (f : ℕ) : insert (.page f) (nodesOf C) = nodesOf (insert f C) := by
  ext n
  simp only [nodesOf, Set.mem_insert_iff, Set.mem_ofPred_eq]
  grind

/-- Below the largest order, flipping a bit stays in the same run of largest blocks. -/
private theorem xor_lt {nr pfn order : ℕ} (whole : 2 ^ (MAX_ORDER - 1) ∣ nr) (bound : pfn < nr)
    (small : order < MAX_ORDER - 1) : pfn ^^^ 2 ^ order < nr := by
  have same : (pfn ^^^ 2 ^ order) / 2 ^ (MAX_ORDER - 1) = pfn / 2 ^ (MAX_ORDER - 1) := by
    rw [← Nat.shiftRight_eq_div_pow, Nat.shiftRight_xor_distrib, Nat.shiftRight_eq_div_pow,
      Nat.shiftRight_eq_div_pow, Nat.div_eq_of_lt (Nat.pow_lt_pow_right (by decide) small), Nat.xor_zero]
  obtain ⟨q, rfl⟩ := whole
  have positive : 0 < 2 ^ (MAX_ORDER - 1) := by positivity
  rw [Nat.mul_comm, ← Nat.div_lt_iff_lt_mul positive] at bound ⊢
  omega

/-- Clearing the order bit leaves the frame or moves to its buddy. -/
private theorem clear_bit {pfn order : ℕ} (bound : pfn < WORD) (small : order < 64) :
    pfn &&& (WORD - 1 - 2 ^ order) = pfn ∨ pfn &&& (WORD - 1 - 2 ^ order) = pfn ^^^ 2 ^ order := by
  have size : 2 ^ order < 2 ^ 64 := Nat.pow_lt_pow_right (by decide) small
  have mask : WORD - 1 - 2 ^ order = 2 ^ 64 - (2 ^ order + 1) := by rw [WORD]; omega
  have beyond : ∀ i, 64 ≤ i → pfn.testBit i = false := fun i above =>
    Nat.testBit_lt_two_pow (bound.trans_le (Nat.pow_le_pow_right (by decide) above))
  rw [mask]
  cases bit : pfn.testBit order with
  | false =>
    left
    apply Nat.eq_of_testBit_eq
    intro i
    rw [Nat.testBit_and, Nat.testBit_two_pow_sub_succ size, Nat.testBit_two_pow]
    grind
  | true =>
    right
    apply Nat.eq_of_testBit_eq
    intro i
    rw [Nat.testBit_and, Nat.testBit_two_pow_sub_succ size, Nat.testBit_two_pow, Nat.testBit_xor,
      Nat.testBit_two_pow]
    grind

namespace Confined

variable {nr lo hi : ℕ} {b : Buddy}

/-- A store to a descriptor that sets no flag. -/
theorem setPage (confined : Confined nr lo hi b) {pfn : ℕ} {change : Page → Page}
    (small : ∀ p : Page, p.order < MAX_ORDER → (change p).order < MAX_ORDER)
    (flags : ∀ p : Page, (change p).isFree = true → (change p).isHead = true → p.isFree = true ∧
      p.isHead = true) :
    Confined nr lo hi (b.setPage pfn change) := by
  obtain ⟨⟨C, inside, closed, flagged⟩, ordered⟩ := confined
  refine ⟨⟨C, inside, closed, fun f bound isFree isHead => ?_⟩, ordered.setPage small⟩
  by_cases same : f = pfn
  · subst same
    simp only [Buddy.setPage, Function.update_self] at isFree isHead
    obtain ⟨wasFree, wasHead⟩ := flags _ isFree isHead
    exact flagged f bound wasFree wasHead
  · simp only [Buddy.setPage, Function.update_of_ne same] at isFree isHead
    exact flagged f bound isFree isHead

/-- A flagged descriptor is one of the linked ones, so unlinking it touches no other node. -/
theorem listDel (confined : Confined nr lo hi b) {f : ℕ} (bound : f < nr) (isFree : (b.pages f).isFree = true)
    (isHead : (b.pages f).isHead = true) : f ∈ Set.Ico lo hi ∧ Confined nr lo hi (b.listDel f) := by
  obtain ⟨⟨C, inside, closed, flagged⟩, ordered⟩ := confined
  have member := flagged f bound isFree isHead
  exact ⟨inside member, ⟨C, inside, closed.del (Or.inr ⟨f, member, rfl⟩), flagged⟩, ordered⟩

/-- Linking a managed descriptor, whatever it was before. -/
theorem link (confined : Confined nr lo hi b) {f order : ℕ} (managed : f ∈ Set.Ico lo hi)
    (small : order < MAX_ORDER) :
    Confined nr lo hi ((b.setPage f fun p =>
      { p with isFree := true, isHead := true, alloc := 0 }).listAdd order
      f) := by
  obtain ⟨⟨C, inside, closed, flagged⟩, ordered⟩ := confined
  refine ⟨⟨insert f C, Set.insert_subset managed inside, ?_, fun g bound isFree isHead => ?_⟩, ?_⟩
  · have head : .area order ∈ nodesOf C := Or.inl ⟨order, small, rfl⟩
    have added := closed.add head (.page f)
    rw [nodesOf_insert] at added
    exact added
  · by_cases same : g = f
    · exact Or.inl same
    · simp only [Buddy.listAdd, Buddy.setPage, Function.update_of_ne same] at isFree isHead
      exact Or.inr (flagged g bound isFree isHead)
  · apply Ordered.links
    apply ordered.setPage
    exact fun _ valid => valid

/-- The merge loop from any managed frame, aligned to its order or not. -/
theorem mergeLoop (whole : 2 ^ (MAX_ORDER - 1) ∣ nr) (word : nr ≤ WORD) (range : hi ≤ nr) :
    ∀ (fuel pfn order : ℕ) (b : Buddy), Confined nr lo hi b → pfn ∈ Set.Ico lo hi →
    order + fuel = MAX_ORDER - 1 →
      ∃ pfn' order' b', mergeLoop fuel pfn order b = (pfn', order', b') ∧ Confined nr lo hi b' ∧
      pfn' ∈ Set.Ico lo hi ∧
        order' < MAX_ORDER := by
  intro fuel
  induction fuel with
  | zero =>
    intro pfn order b confined managed enough
    exact ⟨pfn, order, b, rfl, confined, managed, by simp only [MAX_ORDER] at *; omega⟩
  | succ fuel ih =>
    intro pfn order b confined managed enough
    have small : order < MAX_ORDER - 1 := by omega
    have bound : pfn < nr := managed.2.trans_le range
    have inArray := xor_lt whole bound small
    rw [Model.mergeLoop]
    split_ifs with test
    · exact ⟨pfn, order, b, rfl, confined, managed, by omega⟩
    · push Not at test
      obtain ⟨buddyManaged, deleted⟩ := confined.listDel inArray test.2.1 test.2.2
      have next : pfn &&& (WORD - 1 - 2 ^ order) ∈ Set.Ico lo hi := by
        rcases clear_bit (bound.trans_le word) (show order < 64 by simp only [MAX_ORDER] at small; omega)
          with same | same
        · rwa [same]
        · rwa [same]
      apply ih _ _ _ _ next (by omega)
      apply setPage
      · apply deleted.setPage
        · exact fun _ valid => valid
        · exact fun _ isFree => absurd isFree (by simp)
      · exact fun _ _ => (Nat.mod_le _ _).trans_lt (by omega)
      · exact fun _ isFree isHead => ⟨isFree, isHead⟩

/-- Releasing any managed frame. -/
theorem merge (confined : Confined nr lo hi b) (whole : 2 ^ (MAX_ORDER - 1) ∣ nr) (word : nr ≤ WORD)
    (range : hi ≤ nr) {f : ℕ} (managed : f ∈ Set.Ico lo hi) : Confined nr lo hi (buddyMergeInner f b) := by
  have small := confined.ordered f (managed.2.trans_le range)
  have cleared : Confined nr lo hi (b.setPage f fun p =>
    { p with isFree := false, isHead := false, alloc := 0 }) :=
    confined.setPage (fun _ valid => valid) fun _ isFree => absurd isFree (by simp)
  obtain ⟨pfn, order, c, result, merged, inside, valid⟩ :=
    mergeLoop whole word range (MAX_ORDER - 1 - (b.pages f).order) f (b.pages f).order _ cleared managed
      (by simp only [MAX_ORDER] at small ⊢; omega)
  rw [buddyMergeInner]
  simp only [result]
  exact merged.link inside valid

end Confined

/-- A descriptor is on a free list: a sentinel leads to it. -/
def OnList (b : Buddy) (f : ℕ) : Prop := ∃ i < MAX_ORDER, b.links.Reaches (.area i) (.page f)

theorem Confined.onList {nr lo hi f : ℕ} {b : Buddy} (confined : Confined nr lo hi b) (on : OnList b f) :
    f ∈ Set.Ico lo hi := by
  obtain ⟨⟨C, inside, closed, _⟩, _⟩ := confined
  obtain ⟨i, small, path⟩ := on
  rcases closed.reaches (Or.inl ⟨i, small, rfl⟩) path with ⟨j, _, same⟩ | ⟨g, member, same⟩
  · cases same
  · cases same
    exact inside member

/-- The invariant of the buddy system confines the lists. -/
theorem BuddyInv.confined {nr lo hi : ℕ} {b : Buddy} {owned : List (ℕ × ℕ)} {lists : ℕ → List ℕ}
    (inv : BuddyInv nr lo hi b owned lists) (ordered : Ordered nr b) : Confined nr lo hi b := by
  refine ⟨⟨listedFrames lists, ?_, inv.free.closed, ?_⟩, ordered⟩
  · rintro f ⟨k, small, member⟩
    have free := ((inv.members k small f).mp member).subset (mem_span_self _)
    exact ⟨free.1, free.2.1⟩
  · intro f bound isFree isHead
    obtain ⟨small, listed⟩ := inv.listed f bound isFree isHead
    exact ⟨_, small, listed⟩

/-- No frame outside the managed range is on a free list or in a slot of the cache. The word behind the last
slot is `count`, so a store there would let `alloc_page` read any memory as a slot. -/
structure Fenced (s : Pmm) : Prop where
  lists : ∀ f, OnList s.buddy f → f ∈ managed s
  slots : ∀ i < PCPU_CACHE_SIZE, (s.caches 0).objs i ∈ managed s
  bounds : ∀ i, .objs i ∈ s.events → i < PCPU_CACHE_SIZE

/-- The test that the assertion of `buddy_free` is about. -/
def InRange (s : Pmm) (addr : ℕ) : Prop := s.buddyStart ≤ addr ∧ addr < s.buddyEnd

/-- The store of `pfree` hits a slot. -/
def Fits (s : Pmm) (addr : ℕ) : Prop :=
  (s.buddy.pages (ADDR_TO_PFN addr)).order = 0 → (s.caches 0).count + 1 ≠ PCPU_CACHE_SIZE

/-- What the reserved frames need of a release in `s`: they stay off the lists and out of the cache, and an
address outside the range is refused by an assertion, with lists, descriptors and caches unchanged. -/
structure Protects (s : Pmm) (addr : ℕ) (result : EStateM.Result Stop Pmm Unit) : Prop where
  fenced : Fenced (finalState result)
  refused : ¬ InRange s addr → ∃ text t, result = .error (.kassertFailed text) t ∧ t.buddy = s.buddy ∧
    t.caches = s.caches

/-- Where `pmm_init` puts the managed range, on a machine whose number of pages is a multiple of the
largest block. -/
structure PoolLayout (s : Pmm) : Prop where
  whole : 2 ^ (MAX_ORDER - 1) ∣ s.nrPages
  word : s.nrPages ≤ WORD
  ram : DRAM_BASE ≤ s.buddyStart
  nonempty : s.buddyStart ≤ s.buddyEnd
  aligned : PGSIZE ∣ s.buddyEnd

/-- The three variables are written by `pmm_init` only. -/
theorem PoolLayout.kept {s t : Pmm} (layout : PoolLayout s) (nr : t.nrPages = s.nrPages)
    (first : t.buddyStart = s.buddyStart) (last : t.buddyEnd = s.buddyEnd) : PoolLayout t := by
  obtain ⟨whole, word, ram, nonempty, aligned⟩ := layout
  exact ⟨nr ▸ whole, nr ▸ word, first ▸ ram, by rw [first, last]; exact nonempty, last ▸ aligned⟩

private theorem PoolLayout.managed_of_inRange {s : Pmm} (layout : PoolLayout s) {addr : ℕ}
    (range : InRange s addr) :
    ADDR_TO_PFN addr ∈ managed s := by
  obtain ⟨low, high⟩ := range
  obtain ⟨_, _, ram, nonempty, q, aligned⟩ := layout
  rw [managed, ADDR_TO_PFN_ram (ram.trans low), ADDR_TO_PFN_ram ram, ADDR_TO_PFN_ram (ram.trans nonempty)]
  rw [aligned] at high ⊢
  simp only [PGSIZE, DRAM_BASE, Set.mem_Ico] at *
  omega

/-- The calls of a run: any entry point with any argument. The record keeps the blocks that were returned
and not released since. -/
inductive PoolStep : Holding → PmmCall → Holding → Prop
  | buddyAlloc {s t : Pmm} {live : List (ℕ × ℕ)} {k addr : ℕ} (call : buddyAlloc k s = .ok addr t) :
      PoolStep ⟨s, live⟩ (.buddyAlloc k) ⟨t, (addr, k) :: live⟩
  | buddyFree {s t : Pmm} {live : List (ℕ × ℕ)} {addr : ℕ} (call : buddyFree addr s = .ok () t) :
      PoolStep ⟨s, live⟩ (.buddyFree addr) ⟨t, live.filter fun e => e.1 ≠ addr⟩
  | allocPage {s t : Pmm} {live : List (ℕ × ℕ)} {addr : ℕ} (call : allocPage 0 s = .ok addr t) :
      PoolStep ⟨s, live⟩ .allocPage ⟨t, (addr, 0) :: live⟩
  | pfree {s t : Pmm} {live : List (ℕ × ℕ)} {addr : ℕ} (call : pfree 0 addr s = .ok () t) :
      PoolStep ⟨s, live⟩ (.pfree addr) ⟨t, live.filter fun e => e.1 ≠ addr⟩

/-- The condition on a release: the caller holds the block, and a single page goes back to the slot
it came from. -/
def ReleasesHeld (h : Holding) : PmmCall → Prop
  | .buddyFree addr => ∃ k, (addr, k) ∈ h.live
  | .pfree addr => ∃ k, (addr, k) ∈ h.live ∧ (k = 0 → Returns h.pmm addr)
  | _ => True

/-- What careful calls keep. -/
structure PoolInv (h : Holding) : Prop where
  layout : PoolLayout h.pmm
  unlocked : h.pmm.lock = false
  count : (h.pmm.caches 0).count ≤ PCPU_CACHE_SIZE
  slots : ∀ i < PCPU_CACHE_SIZE, (h.pmm.caches 0).objs i ∈ managed h.pmm
  bounds : ∀ i, .objs i ∈ h.pmm.events → i < PCPU_CACHE_SIZE
  ordered : Ordered h.pmm.nrPages h.pmm.buddy
  pool : ∃ owned lists, h.live = addresses owned ∧ BuddyOk h.pmm (owned ++ singles (cached h.pmm 0)) lists

namespace PoolInv

variable {s t : Pmm} {live : List (ℕ × ℕ)} {addr : ℕ}

theorem pooled (inv : PoolInv ⟨s, live⟩) : Pooled ⟨s, live⟩ :=
  ⟨inv.unlocked, inv.layout.word, inv.count, inv.pool⟩

theorem range (inv : PoolInv ⟨s, live⟩) : ADDR_TO_PFN s.buddyEnd ≤ s.nrPages := by
  obtain ⟨_, _, _, ok⟩ := inv.pool
  exact BuddyInv.range ok

theorem confined (inv : PoolInv ⟨s, live⟩) :
    Confined s.nrPages (ADDR_TO_PFN s.buddyStart) (ADDR_TO_PFN s.buddyEnd) s.buddy := by
  obtain ⟨_, _, _, ok⟩ := inv.pool
  exact BuddyInv.confined ok inv.ordered

theorem fenced (inv : PoolInv ⟨s, live⟩) : Fenced s :=
  ⟨fun _ on => inv.confined.onList on, inv.slots, inv.bounds⟩

/-- A locked section uses no slot. -/
private theorem lockedOnce_bounds (bounds : ∀ i, .objs i ∈ s.events → i < PCPU_CACHE_SIZE) :
    ∀ i, .objs i ∈ (lockedOnce s).events → i < PCPU_CACHE_SIZE := by
  intro i member
  exact bounds i (by simpa [lockedOnce] using member)

theorem buddyAlloc (inv : PoolInv ⟨s, live⟩) {k : ℕ} (call : Model.buddyAlloc k s = .ok addr t) :
    PoolInv ⟨t, (addr, k) :: live⟩ ∧ span (ADDR_TO_PFN addr, k) ⊆ managed s := by
  obtain ⟨pooled, range⟩ := inv.pooled.buddyAlloc call
  obtain ⟨_, _, p, b, taken, rfl, rfl⟩ := buddyAlloc_eq_ok.mp call
  exact ⟨⟨inv.layout.kept rfl rfl rfl, pooled.unlocked, pooled.count, inv.slots, lockedOnce_bounds inv.bounds,
    inv.ordered.take taken, pooled.pool⟩, range⟩

theorem allocPage (inv : PoolInv ⟨s, live⟩) (call : Model.allocPage 0 s = .ok addr t) :
    PoolInv ⟨t, (addr, 0) :: live⟩ ∧ ADDR_TO_PFN addr ∈ managed s := by
  obtain ⟨pooled, f, inCache, same⟩ := inv.pooled.allocPage call
  obtain ⟨i, bound, slot⟩ := List.mem_map.mp inCache
  have full := inv.count
  change (s.caches 0).count ≤ PCPU_CACHE_SIZE at full
  have inside : ADDR_TO_PFN addr ∈ managed s := by
    rw [same, addr_pfn, ← slot]
    exact inv.slots i ((List.mem_range.mp bound).trans_le full)
  obtain ⟨_, empty, _, _, rfl⟩ := allocPage_eq_ok.mp call
  have index := decr32_of_pos empty inv.count
  refine ⟨⟨inv.layout.kept rfl rfl rfl, pooled.unlocked, pooled.count, ?_, ?_, inv.ordered,
    pooled.pool⟩, inside⟩
  · intro i bound
    have objs : ((popped 0 (s.record (.cpu 0))).caches 0).objs = (s.caches 0).objs := by
      simp [popped, Pmm.setCount, Pmm.record]
    change ((popped 0 (s.record (.cpu 0))).caches 0).objs i ∈ managed s
    rw [objs]
    exact inv.slots i bound
  · intro i touched
    simp only [popped, Pmm.record, Pmm.setCount, index, List.mem_cons, PmmEvent.objs.injEq, reduceCtorEq,
      false_or] at touched
    rcases touched with rfl | old
    · omega
    · exact inv.bounds i old

/-- Both entry points hand a held block to `__buddy_merge_inner` in one locked section. -/
private theorem merged (inv : PoolInv ⟨s, live⟩) {k : ℕ} (member : (addr, k) ∈ live) :
    PoolInv ⟨{ lockedOnce s with buddy := buddyMergeInner (ADDR_TO_PFN addr) s.buddy }, live.filter fun e =>
      e.1 ≠ addr⟩ := by
  obtain ⟨p, owned, lists, rfl, inside, same, ok⟩ := inv.pooled.owned_of_live member
  have inRange := (BuddyInv.owned ok (p, k) (List.mem_append_left _ inside)).2.2.1 (mem_span_self (p, k))
  have ordered := (inv.confined.merge inv.layout.whole inv.layout.word inv.range inRange).ordered
  have pooled := inv.pooled.merged member fun aligned => by
    revert aligned
    rw [addr_pfn, BuddyInv.freeFrames_eq ok]
    exact fun aligned => Room.of_whole inv.layout.whole
      (BuddyInv.release_lt ok (List.mem_append_left _ inside) aligned)
  rw [addr_pfn] at pooled ⊢
  exact ⟨inv.layout.kept rfl rfl rfl, rfl, inv.count, inv.slots, lockedOnce_bounds inv.bounds,
    ordered, pooled.pool⟩

theorem buddyFree (inv : PoolInv ⟨s, live⟩) {k : ℕ} (member : (addr, k) ∈ live)
    (call : Model.buddyFree addr s = .ok () t) : PoolInv ⟨t, live.filter fun e => e.1 ≠ addr⟩ := by
  obtain ⟨_, _, rfl⟩ := buddyFree_eq_ok.mp call
  exact inv.merged member

theorem pfree (inv : PoolInv ⟨s, live⟩) {k : ℕ} (member : (addr, k) ∈ live) (returns : k = 0 → Returns s addr)
    (call : Model.pfree 0 addr s = .ok () t) : PoolInv ⟨t, live.filter fun e => e.1 ≠ addr⟩ := by
  rcases inv.pooled.pfree_cases member returns call with ⟨rfl, rfl⟩ | ⟨_, rfl⟩
  · have pooled := inv.pooled.returnPage member (returns rfl)
    obtain ⟨p, owned, lists, rfl, inside, same, ok⟩ := inv.pooled.owned_of_live member
    have own := (BuddyInv.owned ok _ (List.mem_append_left _ inside)).2.2.1 (mem_span_self (p, 0))
    have room := (returns rfl).1
    have index := incr32_of_lt inv.count
    rw [addr_pfn] at pooled ⊢
    refine ⟨inv.layout.kept rfl rfl rfl, pooled.unlocked, pooled.count, ?_, ?_, inv.ordered, pooled.pool⟩
    · intro i bound
      have objs : ((pushed 0 p (s.record (.cpu 0))).caches 0).objs =
          Function.update (s.caches 0).objs ((s.caches 0).count + 1) p := by
        simp [pushed, Pmm.setCount, Pmm.setObj, Pmm.record, index]
      change ((pushed 0 p (s.record (.cpu 0))).caches 0).objs i ∈ managed s
      rw [objs, Function.update_apply]
      split_ifs
      · exact own
      · exact inv.slots i bound
    · intro i touched
      simp only [pushed, Pmm.record, Pmm.setCount, Pmm.setObj, index, List.mem_cons,
        PmmEvent.objs.injEq, reduceCtorEq, false_or] at touched
      rcases touched with rfl | old
      · exact room
      · exact inv.bounds i old
  · exact inv.merged member

theorem step {h h' : Holding} {call : PmmCall} (inv : PoolInv h)
    (step : Guarded ReleasesHeld PoolStep h call h') :
    PoolInv h' := by
  obtain ⟨careful, step⟩ := step
  cases step with
  | buddyAlloc call => exact (inv.buddyAlloc call).1
  | buddyFree call =>
    obtain ⟨k, member⟩ := careful
    exact inv.buddyFree member call
  | allocPage call => exact (inv.allocPage call).1
  | pfree call =>
    obtain ⟨k, member, returns⟩ := careful
    exact inv.pfree member returns call

/-- The drain loop releases frames of the slots, which are managed ones. -/
private theorem drained_confined : ∀ (n : ℕ) (s : Pmm), n ≤ (s.caches 0).count →
    (s.caches 0).count ≤ PCPU_CACHE_SIZE →
    (∀ i < PCPU_CACHE_SIZE, (s.caches 0).objs i ∈ managed s) → (∀ i, .objs i ∈ s.events → i < PCPU_CACHE_SIZE) →
    PoolLayout s → ADDR_TO_PFN s.buddyEnd ≤ s.nrPages →
    Confined s.nrPages (ADDR_TO_PFN s.buddyStart) (ADDR_TO_PFN s.buddyEnd) s.buddy →
    Confined s.nrPages (ADDR_TO_PFN s.buddyStart) (ADDR_TO_PFN s.buddyEnd) (drained 0 n s).buddy ∧
      ((drained 0 n s).caches 0).count = (s.caches 0).count - n ∧
      ((drained 0 n s).caches 0).objs = (s.caches 0).objs ∧
      managed (drained 0 n s) = managed s ∧ ∀ i, .objs i ∈ (drained 0 n s).events → i < PCPU_CACHE_SIZE := by
  intro n
  induction n with
  | zero => exact fun s _ _ _ bounds _ _ confined => ⟨confined, rfl, rfl, rfl, bounds⟩
  | succ n ih =>
    intro s enough full slots bounds layout range confined
    have index := decr32_of_pos (show (s.caches 0).count ≠ 0 by omega) full
    have merged := confined.merge layout.whole layout.word range (slots ((s.caches 0).count - 1) (by omega))
    let next : Pmm :=
      { popped 0 s with buddy := buddyMergeInner ((s.caches 0).objs ((s.caches 0).count - 1)) s.buddy }
    have count : (next.caches 0).count = (s.caches 0).count - 1 := by
      simp [next, popped, Pmm.setCount, Pmm.record, index]
    have objs : (next.caches 0).objs = (s.caches 0).objs := by simp [next, popped, Pmm.setCount, Pmm.record]
    have step : drained 0 (n + 1) s = drained 0 n next := by rw [drained, index]
    have touched : ∀ i, .objs i ∈ next.events → i < PCPU_CACHE_SIZE := by
      intro i member
      simp only [next, popped, Pmm.record, Pmm.setCount, index, List.mem_cons, PmmEvent.objs.injEq] at member
      rcases member with rfl | old
      · omega
      · exact bounds i old
    rw [step]
    obtain ⟨confined', count', objs', same, bounds'⟩ := ih next (by omega) (by omega)
      (fun i bound => by rw [objs]; exact slots i bound) touched (layout.kept rfl rfl rfl) range merged
    exact ⟨confined', by omega, objs'.trans objs, same, bounds'⟩

/-- A store to a slot of the array, of a managed frame. -/
private theorem pushed_fenced {f : ℕ} (fenced : Fenced s) (inside : f ∈ managed s)
    (count : (s.caches 0).count + 1 < PCPU_CACHE_SIZE) : Fenced (pushed 0 f s) := by
  have index : incr32 (s.caches 0).count = (s.caches 0).count + 1 := incr32_of_lt (by omega)
  have objs : ((pushed 0 f s).caches 0).objs = Function.update (s.caches 0).objs
    ((s.caches 0).count + 1) f := by
    simp [pushed, Pmm.setCount, Pmm.setObj, Pmm.record, index]
  refine ⟨fenced.lists, fun i bound => ?_, fun i touched => ?_⟩
  · change ((pushed 0 f s).caches 0).objs i ∈ managed s
    rw [objs, Function.update_apply]
    split_ifs
    · exact inside
    · exact fenced.slots i bound
  · simp only [pushed, Pmm.record, Pmm.setCount, Pmm.setObj, index, List.mem_cons,
      PmmEvent.objs.injEq] at touched
    rcases touched with rfl | old
    · exact count
    · exact fenced.bounds i old

/-- `buddy_free` of an address that may belong to nobody. -/
theorem buddyFree_protects (inv : PoolInv ⟨s, live⟩) : Protects s addr (Model.buddyFree addr s) ↔
    InRange s addr := by
  have nonempty := inv.layout.nonempty
  have unlocked := inv.unlocked
  change s.buddyStart ≤ s.buddyEnd at nonempty
  change s.lock = false at unlocked
  have call : Model.buddyFree addr s = .ok ()
    { lockedOnce s with buddy := buddyMergeInner (ADDR_TO_PFN addr) s.buddy } :=
    buddyFree_eq_ok.mpr ⟨by omega, unlocked, rfl⟩
  rw [call]
  constructor
  · rintro ⟨_, refused⟩
    by_contra outside
    obtain ⟨_, _, stopped, _⟩ := refused outside
    cases stopped
  · intro range
    have merged := inv.confined.merge inv.layout.whole inv.layout.word inv.range
      (inv.layout.managed_of_inRange range)
    exact ⟨⟨fun f on => merged.onList on, inv.slots, lockedOnce_bounds inv.bounds⟩,
      fun outside => absurd range outside⟩

/-- `pfree` of an address that may belong to nobody. -/
private theorem pfree_fenced (inv : PoolInv ⟨s, live⟩) (range : InRange s addr) (fits : Fits s addr) :
    Fenced (finalState (Model.pfree 0 addr s)) := by
  have unlocked := inv.unlocked
  have count := inv.count
  have hart : 0 < NCPU := by decide
  change s.lock = false at unlocked
  change (s.caches 0).count ≤ PCPU_CACHE_SIZE at count
  have inside := inv.layout.managed_of_inRange range
  rw [pfree_eq]
  simp only [unlocked, Bool.false_eq_true, if_false, hart, if_true]
  split_ifs with order full room
  · have merged := inv.confined.merge inv.layout.whole inv.layout.word inv.range inside
    exact ⟨fun f on => merged.onList on, inv.slots, lockedOnce_bounds inv.bounds⟩
  · obtain ⟨confined, left, objs, same, bounds⟩ :=
      drained_confined 16 { (s.record (.cpu 0)).record .acquire with lock := true }
      (by change 16 ≤ (s.caches 0).count; rw [full]; decide) inv.count inv.slots
      (fun i member => inv.bounds i (by simpa [Pmm.record] using member))
      (inv.layout.kept rfl rfl rfl) inv.range inv.confined
    change _ = (s.caches 0).count - 16 at left
    generalize drained 0 16 { (s.record (.cpu 0)).record .acquire with lock := true } = mid
      at confined left objs same bounds
    refine pushed_fenced (s := { mid.record .release with lock := false }) ⟨fun f on => ?_, fun i bound => ?_,
      fun i member => ?_⟩ ?_ ?_
    · change f ∈ managed mid
      rw [same]
      exact confined.onList on
    · change (mid.caches 0).objs i ∈ managed mid
      rw [same, objs]
      exact inv.slots i bound
    · exact bounds i (by simpa [Pmm.record] using member)
    · change ADDR_TO_PFN addr ∈ managed mid
      rw [same]
      exact inside
    · change (mid.caches 0).count + 1 < PCPU_CACHE_SIZE
      simp only [PCPU_CACHE_SIZE] at *
      omega
  · rw [incr32_of_lt count] at room
    refine pushed_fenced (s := s.record (.cpu 0)) ⟨fun f on => inv.confined.onList on, inv.slots,
      fun i member => ?_⟩ inside ?_
    · exact inv.bounds i (by simpa [Pmm.record] using member)
    · exact room
  · have small := fits (by omega)
    rw [incr32_of_lt count] at room
    omega

private theorem pfree_protects (inv : PoolInv ⟨s, live⟩) :
    Protects s addr (Model.pfree 0 addr s) ↔ InRange s addr ∧ Fits s addr := by
  have unlocked := inv.unlocked
  change s.lock = false at unlocked
  constructor
  · rintro ⟨fenced, refused⟩
    constructor
    · by_contra outside
      obtain ⟨_, _, stopped, _⟩ := refused outside
      rw [pfree_eq] at stopped
      simp only [unlocked, Bool.false_eq_true, if_false] at stopped
      split_ifs at stopped <;> cases stopped
    · intro single last
      have index : incr32 (s.caches 0).count = (s.caches 0).count + 1 := incr32_of_lt (by omega)
      have touched : .objs PCPU_CACHE_SIZE ∈ (finalState (Model.pfree 0 addr s)).events := by
        rw [pfree_of_last single (by decide) last]
        simp [overrun, Pmm.setCount, Pmm.record, index, last]
      exact absurd (fenced.bounds _ touched) (lt_irrefl _)
  · rintro ⟨range, fits⟩
    exact ⟨inv.pfree_fenced range fits, fun outside => absurd range outside⟩

end PoolInv

/-- What the prefill loop keeps. -/
def SameRange (s t : Pmm) : Prop :=
  Ordered s.nrPages t.buddy ∧ t.nrPages = s.nrPages ∧ t.buddyStart = s.buddyStart ∧ t.buddyEnd = s.buddyEnd

private theorem slots_sameRange {n : ℕ} {s t : Pmm} (ordered : Ordered s.nrPages s.buddy)
    (loop : (List.range n).forM (prefillSlot 0) s = .ok () t) : SameRange s t := by
  have round : ∀ i < n, ∀ t, SameRange s t → Yields (prefillSlot 0 i) t fun _ => SameRange s := by
    rintro i _ t ⟨before, range⟩
    apply Ensures.of_run
    intro _ t' ok
    obtain ⟨_, addr, mid, call, rfl⟩ := prefillSlot_eq_ok.mp ok
    obtain ⟨_, _, p, b, taken, rfl, rfl⟩ := buddyAlloc_eq_ok.mp call
    exact ⟨before.take taken, range⟩
  have kept : Yields ((List.range n).forM (prefillSlot 0)) s fun _ => SameRange s :=
    Ensures.forM_range ⟨ordered, rfl, rfl, rfl⟩ round
  exact kept.of_ok loop

private theorem Booted.poolInv {s : Pmm} (booted : Booted s) (whole : 2 ^ (MAX_ORDER - 1) ∣ s.nrPages) :
    PoolInv ⟨s, []⟩ := by
  obtain ⟨cache, count⟩ := booted.cacheInv
  obtain ⟨lists, pool⟩ := cache.pool
  rw [List.nil_append] at pool
  have slots : ∀ i < PCPU_CACHE_SIZE, (s.caches 0).objs i ∈ managed s := by
    intro i bound
    have listed : (s.caches 0).objs i ∈ cached s 0 := List.mem_map.mpr ⟨i, List.mem_range.mpr (by omega), rfl⟩
    exact (BuddyInv.owned pool _ (List.mem_map.mpr ⟨_, listed, rfl⟩)).2.2.1 (mem_span_self _)
  obtain ⟨kernelEnd, memSize, before, image, clean, init⟩ := booted
  obtain ⟨mid, full, setup, loop, same⟩ := pmmInit_eq_ok.mp init
  obtain ⟨_, start⟩ := pmmSetup_eq_ok setup
  have ordered : Ordered mid.nrPages mid.buddy := by
    rw [start]
    apply Ordered.initLoop
    intro f bound
    simp [bound, reservedPage, MAX_ORDER]
  obtain ⟨ordered', nr, low, high⟩ := slots_sameRange ordered loop
  have low' : s.buddyStart = mid.buddyStart := by rw [same]; exact low
  have high' : s.buddyEnd = mid.buddyEnd := by rw [same]; exact high
  have ram : DRAM_BASE ≤ s.buddyStart := by
    rw [low', start]
    simp only [ROUNDUP, PGSIZE, DRAM_BASE, KERN_BASE, PAGE_T_SIZE] at *
    omega
  have above : DRAM_BASE ≤ s.buddyEnd := by
    rw [high', start]
    simp only [ROUNDDOWN, PGSIZE, DRAM_BASE] at *
    omega
  have aligned : PGSIZE ∣ s.buddyEnd := by
    rw [high', start]
    simp only [ROUNDDOWN, PGSIZE] at *
    omega
  have nonempty : s.buddyStart ≤ s.buddyEnd := by
    have first := slots 0 (by decide)
    have ends := first.1.trans_lt first.2
    rw [ADDR_TO_PFN_ram ram, ADDR_TO_PFN_ram above] at ends
    exact Nat.le_of_lt (Nat.lt_of_not_le fun reversed =>
      absurd (Nat.div_le_div_right (Nat.sub_le_sub_right reversed _)) (Nat.not_le.mpr ends))
  refine ⟨⟨whole, cache.word, ram, nonempty, aligned⟩, cache.unlocked, cache.count, slots, cache.bounds, ?_,
    [], lists, rfl, pool⟩
  have pages : s.nrPages = mid.nrPages := by rw [same]; exact nr
  change Ordered s.nrPages s.buddy
  rw [pages, same]
  exact ordered'

/-- In every run of careful calls the reserved frames stay off the lists and out of the cache, and
no allocation returns one. The next release protects them exactly if its address is a managed one
and its store hits a slot. -/
theorem reserved_frames {s t : Pmm} (booted : Booted s) (whole : 2 ^ (MAX_ORDER - 1) ∣ s.nrPages)
    {calls : List PmmCall} {live : List (ℕ × ℕ)}
    (run : Run (Guarded ReleasesHeld PoolStep) ⟨s, []⟩ calls ⟨t, live⟩) :
    Fenced t ∧
    (∀ k addr u, buddyAlloc k t = .ok addr u → span (ADDR_TO_PFN addr, k) ⊆ managed t) ∧
    (∀ addr u, allocPage 0 t = .ok addr u → ADDR_TO_PFN addr ∈ managed t) ∧
    ∀ addr, (Protects t addr (buddyFree addr t) ↔ InRange t addr) ∧
      (Protects t addr (pfree 0 addr t) ↔ InRange t addr ∧ Fits t addr) := by
  have inv : PoolInv ⟨t, live⟩ := run.invariant (fun _ _ _ inv step => inv.step step) (booted.poolInv whole)
  exact ⟨inv.fenced, fun _ _ _ call => (inv.buddyAlloc call).2, fun _ _ call => (inv.allocPage call).2,
    fun _ => ⟨inv.buddyFree_protects, inv.pfree_protects⟩⟩

private theorem smallBoot_whole : 2 ^ (MAX_ORDER - 1) ∣ smallBoot.nrPages := by
  apply Nat.dvd_of_mod_eq_zero
  decide +kernel

/-- Two pages are handed out and the second one is given back. -/
theorem reserved_frames_small :
    ∃ second t live, Run (Guarded ReleasesHeld PoolStep) ⟨smallBoot, []⟩ [.allocPage, .allocPage, .pfree second]
      ⟨t, live⟩ ∧
      Fenced t := by
  obtain ⟨_, count⟩ := smallBoot_booted.cacheInv
  obtain ⟨s₁, call₁, count₁, objs₁, _⟩ := allocPage_of_count (n := 31) count (by decide)
  obtain ⟨s₂, call₂, count₂, objs₂, _⟩ := allocPage_of_count (n := 30) count₁ (by decide)
  set first := PFN_TO_ADDR ((smallBoot.caches 0).objs 31)
  set second := PFN_TO_ADDR ((s₁.caches 0).objs 30) with shown
  have returns : Returns s₂ second := by
    refine ⟨by rw [count₂]; decide, ?_⟩
    rw [shown, addr_pfn, count₂, objs₂]
  have inv₁ := ((smallBoot_booted.poolInv smallBoot_whole).allocPage call₁).1
  have inv₂ := (inv₁.allocPage call₂).1
  have order : (s₂.buddy.pages (ADDR_TO_PFN second)).order = 0 := by
    obtain ⟨owned, lists, same, ok⟩ := inv₂.pool
    change [(second, 0), (first, 0)] = addresses owned at same
    obtain ⟨⟨p, k⟩, inside, equal⟩ := List.mem_map.mp (same ▸ List.mem_cons_self)
    obtain ⟨here, rfl⟩ := Prod.mk.inj equal
    rw [← here, addr_pfn]
    exact (BuddyInv.owned ok _ (List.mem_append_left _ inside)).2.2.2
  have call₃ := pfree_of_room order (by decide) returns.1
  have step₁ : Guarded ReleasesHeld PoolStep ⟨smallBoot, []⟩ .allocPage ⟨s₁, [(first, 0)]⟩ :=
    ⟨trivial, .allocPage call₁⟩
  have step₂ : Guarded ReleasesHeld PoolStep ⟨s₁, [(first, 0)]⟩ .allocPage ⟨s₂, [(second, 0), (first, 0)]⟩ :=
    ⟨trivial, .allocPage call₂⟩
  have step₃ : Guarded ReleasesHeld PoolStep ⟨s₂, [(second, 0), (first, 0)]⟩ (.pfree second) _ :=
    ⟨⟨0, List.mem_cons_self, fun _ => returns⟩, .pfree call₃⟩
  have run := Run.cons step₁ (.cons step₂ (.cons step₃ (.nil _)))
  exact ⟨second, _, _, run, (reserved_frames smallBoot_booted smallBoot_whole run).1⟩

/-- Right after boot, `buddy_free` takes the first page of the kernel image, and the next request gets it. -/
theorem reserved_frame_allocated_small : Booted smallBoot ∧ ¬ InRange smallBoot KERN_BASE ∧
    (∃ t u, buddyFree KERN_BASE smallBoot = .ok () t ∧ OnList t.buddy 0 ∧ buddyAlloc 0 t = .ok KERN_BASE u) ∧
    ¬ Protects smallBoot KERN_BASE (buddyFree KERN_BASE smallBoot) ∧
    ¬ Protects smallBoot KERN_BASE (pfree 0 KERN_BASE smallBoot) := by
  have inv := smallBoot_booted.poolInv smallBoot_whole
  have outside : ¬ InRange smallBoot KERN_BASE := by
    intro range
    have above : KERN_BASE < smallBoot.buddyStart := by decide +kernel
    exact absurd range.1 (Nat.not_le.mpr above)
  have ok : returned (fun _ t => decide (t.buddy.links.next (.area 0) = .page 0) &&
      returned (fun addr _ => addr == KERN_BASE)
      (buddyAlloc 0 t)) (buddyFree KERN_BASE smallBoot) = true := by decide +kernel
  obtain ⟨_, t, call, passed⟩ := returned_eq_true ok
  rw [Bool.and_eq_true, decide_eq_true_eq] at passed
  obtain ⟨addr, u, next, same⟩ := returned_eq_true passed.2
  rw [beq_iff_eq] at same
  subst same
  refine ⟨smallBoot_booted, outside, ⟨t, u, call, ⟨0, by decide, .single passed.1.symm⟩, next⟩, ?_, ?_⟩
  · exact fun protects => outside (inv.buddyFree_protects.mp protects)
  · exact fun protects => outside (inv.pfree_protects.mp protects).1

end Pke.Proofs
