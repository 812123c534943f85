import Pke.Model.Descriptors
import Pke.Proofs.InitialPartition
import Pke.Proofs.ReservedFrames

/-! # Which descriptors a release accesses

`__buddy_merge_inner` reads the descriptor of `pfn ^ 2 ^ order` without comparing it to `nr_pages`. The
buddy of a block below `nr_pages` can lie beyond only for the last block of its order, and only if
`nr_pages` is an odd multiple of its size. The loop gets as far as that block exactly when the release
makes all of its frames free.
-/

namespace Pke.Proofs

open Pke.Lib Pke.Model

private theorem mergeLoopTouched_stop {m : Block} {b : Buddy} (test : ¬ FreeHead m b) (fuel : ℕ) :
    mergeLoopTouched (fuel + 1) m.start m.order b = [m.buddy.start] := by
  have start : m.start ^^^ 2 ^ m.order = m.buddy.start := rfl
  simp only [mergeLoopTouched, start]
  rw [if_pos (by unfold FreeHead at test; tauto)]

private theorem mergeLoopTouched_absorb {m : Block} {b : Buddy} (order : m.order < MAX_ORDER - 1)
    (bound : m.start < WORD) (test : FreeHead m b) (fuel : ℕ) :
    mergeLoopTouched (fuel + 1) m.start m.order b = m.buddy.start :: b.listDelTouched m.buddy.start ++
      m.parent.start :: mergeLoopTouched fuel m.parent.start m.parent.order (absorbed m b) := by
  have start : m.start ^^^ 2 ^ m.order = m.buddy.start := rfl
  obtain ⟨parent, fits⟩ := merge_parent order bound
  simp only [mergeLoopTouched, start, parent, fits, Block.parent_order]
  rw [if_neg (by unfold FreeHead at test; tauto)]
  rfl

namespace Merging

variable {nr : ℕ} {S : Set ℕ} {a m : Block} {old : ℕ → Page} {b : Buddy} {lists : ℕ → List ℕ}

/-- The frames of the lists are those of `S`. -/
theorem listed_lt (merging : Merging nr S a old m b lists) (range : ∀ x ∈ S, x < nr) :
    ∀ f ∈ listedFrames lists, f < nr := by
  rintro f ⟨k, small, member⟩
  exact range f (((merging.members k small f).mp member).1.subset (mem_span_self _))

/-- A block that can still grow has a buddy that is free as a whole. -/
private theorem buddy_maximal (merging : Merging nr S a old m b lists)
    (apart : ∀ x ∈ a.frames, x ∉ S) {c : Block} (inner : m.frames ⊆ c.frames)
    (outer : c.frames ⊆ S ∪ a.frames) (grows : m.order < c.order) :
    MaximalAt S m.buddy.start m.order := by
  have parent := Block.parent_subset inner grows
  have order := merging.order_le
  refine ⟨m.buddy.aligned, Block.isMaximal_iff.mpr ⟨order, ?_, fun _ inside => ?_⟩⟩
  · intro x member
    rcases outer (parent (m.buddy_subset_parent member)) with free | own
    · exact free
    · exact absurd member (Block.buddy_disjoint (merging.inner own))
  · have whole : m.buddy.parent.frames ⊆ S := inside
    rw [Block.parent_buddy] at whole
    exact apart _ a.start_mem (whole (m.subset_parent (merging.inner a.start_mem)))

/-- The loop stays inside the array exactly if every block it can complete has its buddy there. -/
theorem touched_iff (apart : ∀ x ∈ a.frames, x ∉ S) (range : ∀ x ∈ S, x < nr) (word : nr ≤ WORD) :
    ∀ (fuel : ℕ) (m : Block) (b : Buddy) (lists : ℕ → List ℕ), Merging nr S a old m b lists →
      fuel = MAX_ORDER - 1 - m.order →
      ((∀ f ∈ mergeLoopTouched fuel m.start m.order b, f < nr) ↔
        ∀ c : Block, m.frames ⊆ c.frames → c.frames ⊆ S ∪ a.frames → c.order < MAX_ORDER - 1 →
        c.buddy.start < nr) := by
  intro fuel
  induction fuel with
  | zero =>
    intro m b lists merging enough
    refine ⟨fun _ c inner _ order => ?_, fun _ f member => absurd member List.not_mem_nil⟩
    have grown := Block.order_le_of_subset inner
    omega
  | succ fuel ih =>
    intro m b lists merging enough
    have order : m.order < MAX_ORDER - 1 := by omega
    have bound := merging.bound.trans_le word
    have here : ∀ c : Block, m.frames ⊆ c.frames → ¬ m.order < c.order → c = m := fun c inner same =>
      (Block.eq_of_subset inner (Nat.not_lt.mp same)).symm
    by_cases test : FreeHead m b
    · rw [mergeLoopTouched_absorb order bound test]
      constructor
      · intro inside c inner outer small
        have inArray : m.buddy.start < nr := inside _ (by simp)
        by_cases grows : m.order < c.order
        · have listed := merging.mem_of_freeHead inArray test
          have rest := ih m.parent _ _ (merging.absorb apart order listed) (by simp; omega)
          refine rest.mp (fun f member => ?_) c (Block.parent_subset inner grows) outer small
          exact inside f (List.mem_append_right _ (List.mem_cons_of_mem _ member))
        · rw [here c inner grows]
          exact inArray
      · intro room f member
        have inArray := room m subset_rfl merging.outer order
        have listed := merging.mem_of_freeHead inArray test
        have next := merging.absorb apart order listed
        have known : m.buddy.start ∈ listedFrames lists := ⟨_, by omega, listed⟩
        have rest := ih m.parent _ _ next (by simp; omega)
        rcases List.mem_append.mp member with early | late
        · rcases List.mem_cons.mp early with rfl | unlinked
          · exact inArray
          · exact merging.listed_lt range f (listDelTouched_subset merging.free.closed known unlinked)
        · rcases List.mem_cons.mp late with rfl | later
          · exact next.bound
          · exact rest.mpr (fun c inner => room c (m.subset_parent.trans inner)) f later
    · rw [mergeLoopTouched_stop test]
      constructor
      · intro inside c inner outer small
        by_cases grows : m.order < c.order
        · exact absurd (merging.freeHead_of_maximal order (merging.buddy_maximal apart inner outer grows)) test
        · rw [here c inner grows]
          exact inside _ List.mem_cons_self
      · intro room f member
        rw [List.mem_singleton.mp member]
        exact room m subset_rfl merging.outer order

end Merging

/-- The accesses of a release of a live block stay inside the array exactly if there is room. -/
theorem BuddyInv.touched_iff {nr lo hi : ℕ} {b : Buddy} {live : List (ℕ × ℕ)} {lists : ℕ → List ℕ} {p k : ℕ}
    (inv : BuddyInv nr lo hi b live lists) (member : (p, k) ∈ live) (aligned : 2 ^ k ∣ p) (word : nr ≤ WORD) :
    (∀ f ∈ buddyMergeInnerTouched p b, f < nr) ↔ Room nr (unowned lo hi live) ⟨p, k, aligned⟩ := by
  obtain ⟨small, _, range, order⟩ := inv.owned _ member
  dsimp only at small order
  let a : Block := ⟨p, k, aligned⟩
  have apart : ∀ x ∈ a.frames, x ∉ unowned lo hi live := live_apart member
  have managed : ∀ x ∈ unowned lo hi live, x < nr := fun x free => free.2.1.trans_le inv.range
  have start := inv.merging member aligned
  have loop := Merging.touched_iff apart managed word (MAX_ORDER - 1 - k) a _ lists start rfl
  constructor
  · intro inside c inner outer below
    refine loop.mp (fun f accessed => inside f ?_) c inner outer below
    simp only [buddyMergeInnerTouched, order]
    exact List.mem_append_left _ (List.mem_cons_of_mem _ accessed)
  · intro room f accessed
    obtain ⟨m, c, merged, result, merging, _⟩ :=
      Merging.loop apart room word (MAX_ORDER - 1 - k) a _ lists start rfl
    change mergeLoop (MAX_ORDER - 1 - k) p k _ = _ at result
    have mSmall : m.order < MAX_ORDER := by
      have le := merging.order_le
      simp only [MAX_ORDER] at le ⊢
      omega
    simp only [buddyMergeInnerTouched, order, result] at accessed
    rcases List.mem_append.mp accessed with early | late
    · rcases List.mem_cons.mp early with rfl | inLoop
      · exact (range (mem_span_self _)).2.trans_le inv.range
      · exact loop.mpr room f inLoop
    · rcases List.mem_cons.mp late with rfl | added
      · exact merging.bound
      · rcases listAddTouched_subset merging.free.closed mSmall added with rfl | known
        · exact merging.bound
        · exact merging.listed_lt managed f known

/-- The release of frame `p` leaves the last `2 ^ i` frames of the array free as a whole, where `2 ^ i` is the
exact power of two in the number of pages. -/
def CompletesTop (nr : ℕ) (b : Buddy) (p : ℕ) : Prop :=
  ∃ i < MAX_ORDER - 1, (b.pages p).order ≤ i ∧ 2 ^ i ∣ nr ∧ ¬ 2 ^ (i + 1) ∣ nr ∧ nr - 2 ^ i ≤ p ∧
    Set.Ico (nr - 2 ^ i) nr ⊆ freeFrames b ∪ span (p, (b.pages p).order)

/-- Only the last block of its order can have its buddy outside the array. -/
private theorem room_iff {nr : ℕ} {S : Set ℕ} {a : Block} (inside : ∀ x ∈ S ∪ a.frames, x < nr) :
    Room nr S a ↔ ¬ ∃ i < MAX_ORDER - 1, a.order ≤ i ∧ 2 ^ i ∣ nr ∧ ¬ 2 ^ (i + 1) ∣ nr ∧ nr - 2 ^ i ≤ a.start ∧
      Set.Ico (nr - 2 ^ i) nr ⊆ S ∪ a.frames := by
  constructor
  · rintro room ⟨i, small, le, divides, odd, low, free⟩
    have positive : 0 < 2 ^ i := by positivity
    have high : a.start < nr := inside _ (Or.inr a.start_mem)
    have fits : 2 ^ i ≤ nr := Nat.le_of_dvd (by omega) divides
    let m : Block := ⟨nr - 2 ^ i, i, Nat.dvd_sub divides dvd_rfl⟩
    have ends : m.start + 2 ^ m.order = nr := Nat.sub_add_cancel fits
    have frames : m.frames = Set.Ico (nr - 2 ^ i) nr := by
      ext x
      change m.start ≤ x ∧ x < m.start + 2 ^ m.order ↔ _
      rw [ends]
      rfl
    have inner : a.frames ⊆ m.frames := by
      apply Block.subset_of_mem le a.start_mem
      rw [frames]
      exact ⟨low, high⟩
    have below := room m inner (frames ▸ free) small
    exact absurd (Block.le_buddy_start_iff ends.le |>.mpr ⟨ends, odd⟩) (Nat.not_le.mpr below)
  · intro none m inner outer small
    by_contra beyond
    have positive : 0 < 2 ^ m.order := by positivity
    have last : m.start + 2 ^ m.order - 1 < nr := inside _ (outer ⟨by omega, by omega⟩)
    obtain ⟨ends, odd⟩ := (Block.le_buddy_start_iff (by omega)).mp (Nat.not_lt.mp beyond)
    have start : nr - 2 ^ m.order = m.start := by omega
    refine none ⟨m.order, small, Block.order_le_of_subset inner, ?_, odd, ?_, ?_⟩
    · rw [← ends]
      exact Nat.dvd_add m.aligned dvd_rfl
    · rw [start]
      exact (inner a.start_mem).1
    · rw [start, ← ends]
      exact outer

theorem BuddyInv.completesTop_iff {nr lo hi : ℕ} {b : Buddy} {live : List (ℕ × ℕ)}
    {lists : ℕ → List ℕ} {p k : ℕ} (inv : BuddyInv nr lo hi b live lists) (member : (p, k) ∈ live)
    (aligned : 2 ^ k ∣ p) :
    ¬ CompletesTop nr b p ↔ Room nr (unowned lo hi live) ⟨p, k, aligned⟩ := by
  have order : (b.pages p).order = k := (inv.owned _ member).2.2.2
  rw [room_iff (inv.release_lt member aligned), CompletesTop, order, inv.freeFrames_eq]
  rfl

/-- The frames that the drain loop gives back, each with the state in which `__buddy_merge_inner` starts. -/
def drainMerges (id : ℕ) : ℕ → Pmm → List (ℕ × Buddy)
  | 0, _ => []
  | n + 1, s =>
    let pfn := (s.caches id).objs (decr32 (s.caches id).count)
    (pfn, s.buddy) :: drainMerges id n { popped id s with buddy := buddyMergeInner pfn s.buddy }

/-- The runs of `__buddy_merge_inner` in a call. -/
def merges (s : Pmm) : PmmCall → List (ℕ × Buddy)
  | .buddyFree addr => [(ADDR_TO_PFN addr, s.buddy)]
  | .pfree addr =>
    if (s.buddy.pages (ADDR_TO_PFN addr)).order ≠ 0 then [(ADDR_TO_PFN addr, s.buddy)]
    else if (s.caches 0).count = PCPU_CACHE_SIZE then drainMerges 0 16 s
    else []
  | _ => []

/-- Every descriptor that the call reads or writes while it merges belongs to the array. -/
def MergesInside (s : Pmm) (call : PmmCall) : Prop :=
  ∀ m ∈ merges s call, ∀ f ∈ buddyMergeInnerTouched m.1 m.2, f < s.nrPages

/-- The condition on a release: none of its merges frees the last frames of the array as a whole. -/
def KeepsTop (s : Pmm) (call : PmmCall) : Prop := ∀ m ∈ merges s call, ¬ CompletesTop s.nrPages m.2 m.1

/-- The condition on the steps of a run. -/
def ReleasesInside (h : Holding) (call : PmmCall) : Prop := ReleasesHeld h call ∧ KeepsTop h.pmm call

/-- Only blocks that were returned and not released since are released. -/
def ReleasesLive (h : Holding) : PmmCall → Prop
  | .buddyFree addr => ∃ k, (addr, k) ∈ h.live
  | .pfree addr => ∃ k, (addr, k) ∈ h.live
  | _ => True

/-- The drain loop, one page after the other. -/
private theorem drain_inside {owned : List (ℕ × ℕ)} : ∀ (n : ℕ) (s : Pmm) (lists : ℕ → List ℕ),
    n ≤ (s.caches 0).count →
    (s.caches 0).count ≤ PCPU_CACHE_SIZE → s.nrPages ≤ WORD → BuddyOk s (owned ++ singles (cached s 0)) lists →
    ((∀ m ∈ drainMerges 0 n s, ∀ f ∈ buddyMergeInnerTouched m.1 m.2, f < s.nrPages) ↔
      ∀ m ∈ drainMerges 0 n s, ¬ CompletesTop s.nrPages m.2 m.1) := by
  intro n
  induction n with
  | zero => exact fun s _ _ _ _ _ => ⟨fun _ m member => absurd member List.not_mem_nil, fun _ m member =>
    absurd member List.not_mem_nil⟩
  | succ n ih =>
    intro s lists enough small word pool
    have positive : (s.caches 0).count ≠ 0 := by omega
    have index := decr32_of_pos positive small
    set f := (s.caches 0).objs ((s.caches 0).count - 1) with slot
    have member : (f, 0) ∈ owned ++ singles (cached s 0) :=
      List.mem_append_right _ (List.mem_map.mpr ⟨f, by rw [cached_popped positive small]; simp [f], rfl⟩)
    have first := (BuddyInv.touched_iff pool member (Nat.one_dvd _) word).trans
      (BuddyInv.completesTop_iff pool member (Nat.one_dvd _)).symm
    let next : Pmm := { popped 0 s with buddy := buddyMergeInner f s.buddy }
    have count : (next.caches 0).count = (s.caches 0).count - 1 := by
      simp [next, popped, Pmm.setCount, Pmm.record, index]
    have step : drainMerges 0 (n + 1) s = (f, s.buddy) :: drainMerges 0 n next := by rw [drainMerges, index]
    rw [step]
    simp only [List.forall_mem_cons]
    rw [first]
    refine and_congr_right fun clear => ?_
    obtain ⟨lists', merged⟩ := pool.drain_step positive small word fun aligned =>
      (BuddyInv.completesTop_iff pool member aligned).mp clear
    exact ih next lists' (by omega) (by omega) word merged

namespace Pooled

variable {s t : Pmm} {live : List (ℕ × ℕ)} {addr k : ℕ}

theorem touched_iff (pooled : Pooled ⟨s, live⟩) (member : (addr, k) ∈ live) :
    (∀ f ∈ buddyMergeInnerTouched (ADDR_TO_PFN addr) s.buddy, f < s.nrPages) ↔
      ¬ CompletesTop s.nrPages s.buddy (ADDR_TO_PFN addr) := by
  obtain ⟨p, owned, lists, rfl, inside, _, ok⟩ := pooled.owned_of_live member
  have live := List.mem_append_left (singles (cached s 0)) inside
  have aligned := (BuddyInv.owned ok _ live).2.1
  rw [addr_pfn]
  exact (BuddyInv.touched_iff ok live aligned pooled.word).trans
    (BuddyInv.completesTop_iff ok live aligned).symm

theorem release (pooled : Pooled ⟨s, live⟩) (member : (addr, k) ∈ live)
    (keeps : ¬ CompletesTop s.nrPages s.buddy (ADDR_TO_PFN addr)) :
    Pooled ⟨{ lockedOnce s with buddy := buddyMergeInner (ADDR_TO_PFN addr) s.buddy }, live.filter fun e =>
      e.1 ≠ addr⟩ := by
  apply pooled.merged member
  obtain ⟨p, owned, lists, rfl, inside, _, ok⟩ := pooled.owned_of_live member
  rw [addr_pfn] at keeps ⊢
  rw [BuddyInv.freeFrames_eq ok]
  exact fun aligned => (BuddyInv.completesTop_iff ok (List.mem_append_left _ inside) aligned).mp keeps

/-- One careful call that keeps the last frames apart. -/
theorem step {h h' : Holding} {call : PmmCall} (pooled : Pooled h)
    (step : Guarded ReleasesInside PoolStep h call h') : Pooled h' := by
  obtain ⟨⟨careful, keeps⟩, step⟩ := step
  cases step with
  | buddyAlloc call => exact (pooled.buddyAlloc call).1
  | buddyFree call =>
    obtain ⟨k, member⟩ := careful
    obtain ⟨_, _, rfl⟩ := buddyFree_eq_ok.mp call
    exact pooled.release member (keeps _ List.mem_cons_self)
  | allocPage call => exact (pooled.allocPage call).1
  | @pfree s t live addr call =>
    obtain ⟨k, member, returns⟩ := careful
    rcases pooled.pfree_cases member returns call with ⟨rfl, rfl⟩ | ⟨large, rfl⟩
    · exact pooled.returnPage member (returns rfl)
    · have order := pooled.order_of_live member
      have merged : merges s (.pfree addr) = [(ADDR_TO_PFN addr, s.buddy)] := if_pos (order ▸ large)
      exact pooled.release member (keeps _ (merged ▸ List.mem_cons_self))

/-- The next release of a live block. -/
private theorem inside_iff {call : PmmCall} (pooled : Pooled ⟨s, live⟩)
    (releases : ReleasesLive ⟨s, live⟩ call) :
    MergesInside s call ↔ KeepsTop s call := by
  have single : ∀ addr k, (addr, k) ∈ live → merges s call = [(ADDR_TO_PFN addr, s.buddy)] →
      (MergesInside s call ↔ KeepsTop s call) := by
    intro addr k member shape
    rw [MergesInside, KeepsTop, shape]
    simpa using pooled.touched_iff member
  have none : merges s call = [] → (MergesInside s call ↔ KeepsTop s call) := by
    intro shape
    simp [MergesInside, KeepsTop, shape]
  cases call with
  | buddyAlloc order => exact none rfl
  | buddyFree addr =>
    obtain ⟨k, member⟩ := releases
    exact single addr k member rfl
  | allocPage => exact none rfl
  | pfree addr =>
    obtain ⟨k, member⟩ := releases
    by_cases large : (s.buddy.pages (ADDR_TO_PFN addr)).order ≠ 0
    · exact single addr k member (if_pos large)
    · by_cases full : (s.caches 0).count = PCPU_CACHE_SIZE
      · obtain ⟨owned, lists, _, ok⟩ := pooled.pool
        have shape : merges s (.pfree addr) = drainMerges 0 16 s := by rw [merges, if_neg large, if_pos full]
        rw [MergesInside, KeepsTop, shape]
        exact drain_inside 16 s lists (by rw [full]; decide) pooled.count pooled.word ok
      · exact none (by rw [merges, if_neg large, if_neg full])

end Pooled

theorem Booted.pooled {s : Pmm} (booted : Booted s) : Pooled ⟨s, []⟩ := by
  obtain ⟨cache, _⟩ := booted.cacheInv
  obtain ⟨lists, pool⟩ := cache.pool
  exact ⟨cache.unlocked, cache.word, cache.count, [], lists, rfl, pool⟩

/-- In every run of careful calls none of which frees the last frames as a whole, the next release
of a live block accesses only descriptors of the array exactly if it does not free them either. -/
theorem merge_in_array {s t : Pmm} (booted : Booted s) {calls : List PmmCall} {live : List (ℕ × ℕ)}
    (run : Run (Guarded ReleasesInside PoolStep) ⟨s, []⟩ calls ⟨t, live⟩) :
    ∀ call, ReleasesLive ⟨t, live⟩ call → (MergesInside t call ↔ KeepsTop t call) := by
  have pooled : Pooled ⟨t, live⟩ := run.invariant (fun _ _ _ pooled step => pooled.step step) booted.pooled
  exact fun _ releases => pooled.inside_iff releases

/-- A machine with 6 MiB, so with one and a half blocks of the largest order. -/
def unevenBoot : Pmm := finalState (pmmInit 0x80010000 0x600000 blankPmm)

private theorem unevenBoot_booted : Booted unevenBoot := by
  have setup : pmmSetup 0x80010000 0x600000 blankPmm =
    .ok () (finalState (pmmSetup 0x80010000 0x600000 blankPmm)) := rfl
  obtain ⟨t, init⟩ := pmmInit_returns (by decide) rfl setup (by decide)
  refine ⟨0x80010000, 0x600000, blankPmm, by decide, rfl, ?_⟩
  rw [unevenBoot, init, finalState_ok]

/-- The first request for 2 MiB gets the last 512 frames, and their descriptor is the last head of
the array. -/
private theorem unevenBoot_alloc : ∃ addr t, buddyAlloc 9 unevenBoot = .ok addr t ∧
    t.nrPages ∈ buddyMergeInnerTouched (ADDR_TO_PFN addr) t.buddy := by
  have ok : returned (fun addr t => decide (t.nrPages ∈ buddyMergeInnerTouched (ADDR_TO_PFN addr) t.buddy))
      (buddyAlloc 9 unevenBoot) = true := by decide +kernel
  obtain ⟨addr, t, call, passed⟩ := returned_eq_true ok
  exact ⟨addr, t, call, of_decide_eq_true passed⟩

/-- The condition holds of the release of a page, and fails of the release of the last 2 MiB after it. -/
theorem merge_in_array_uneven : ∃ addr page t,
    Run (Guarded ReleasesInside PoolStep) ⟨unevenBoot, []⟩ [.buddyAlloc 9, .buddyAlloc 0, .buddyFree page]
    ⟨t, [(addr, 9)]⟩ ∧
      ¬ KeepsTop t (.buddyFree addr) := by
  have checked : returned (fun addr s₁ => returned (fun page s₂ =>
      decide (page ≠ addr ∧ ∀ f ∈ buddyMergeInnerTouched (ADDR_TO_PFN page) s₂.buddy, f < s₂.nrPages) &&
        returned (fun _ t => decide (t.nrPages ∈ buddyMergeInnerTouched (ADDR_TO_PFN addr) t.buddy))
        (buddyFree page s₂))
      (buddyAlloc 0 s₁)) (buddyAlloc 9 unevenBoot) = true := by decide +kernel
  obtain ⟨addr, s₁, first, more⟩ := returned_eq_true checked
  obtain ⟨page, s₂, second, rest⟩ := returned_eq_true more
  obtain ⟨inner, last⟩ := Bool.and_eq_true_iff.mp rest
  obtain ⟨other, inside⟩ := of_decide_eq_true inner
  obtain ⟨_, t, third, accessed⟩ := returned_eq_true last
  have quiet : ∀ {s : Pmm} {live : List (ℕ × ℕ)} {k : ℕ}, ReleasesInside ⟨s, live⟩ (.buddyAlloc k) :=
    ⟨trivial, fun m member => absurd member List.not_mem_nil⟩
  have taken : Run (Guarded ReleasesInside PoolStep) ⟨unevenBoot, []⟩ [.buddyAlloc 9, .buddyAlloc 0]
      ⟨s₂, [(page, 0), (addr, 9)]⟩ :=
    .cons ⟨quiet, .buddyAlloc first⟩ (.cons ⟨quiet, .buddyAlloc second⟩ (.nil _))
  have keeps : KeepsTop s₂ (.buddyFree page) :=
    (merge_in_array unevenBoot_booted taken (.buddyFree page) ⟨0, List.mem_cons_self⟩).mp fun m member => by
      obtain rfl := List.mem_singleton.mp member
      exact inside
  have held : ReleasesHeld ⟨s₂, [(page, 0), (addr, 9)]⟩ (.buddyFree page) := ⟨0, List.mem_cons_self⟩
  have left : [(page, 0), (addr, 9)].filter (fun e => e.1 ≠ page) = [(addr, 9)] := by simp [Ne.symm other]
  have released := @PoolStep.buddyFree _ _ [(page, 0), (addr, 9)] _ third
  rw [left] at released
  have run := taken.append (.cons ⟨⟨held, keeps⟩, released⟩ (.nil _))
  refine ⟨addr, page, t, run, fun keepsTop => ?_⟩
  have within := (merge_in_array unevenBoot_booted run (.buddyFree addr) ⟨9, List.mem_cons_self⟩).mpr keepsTop
  exact absurd (within _ List.mem_cons_self _ (of_decide_eq_true accessed)) (lt_irrefl _)

/-- On 6 MiB the last 2 MiB are allocated and released: the release reads the descriptor behind the array. -/
theorem merge_outside_uneven : Booted unevenBoot ∧ ∃ addr t,
    Run PoolStep ⟨unevenBoot, []⟩ [.buddyAlloc 9] ⟨t, [(addr, 9)]⟩ ∧
      ReleasesLive ⟨t, [(addr, 9)]⟩ (.buddyFree addr) ∧ ¬ MergesInside t (.buddyFree addr) := by
  obtain ⟨addr, t, call, accessed⟩ := unevenBoot_alloc
  refine ⟨unevenBoot_booted, addr, t, .cons (.buddyAlloc call) (.nil _), ⟨9, List.mem_cons_self⟩,
    fun inside => ?_⟩
  exact absurd (inside _ List.mem_cons_self _ accessed) (lt_irrefl _)

end Pke.Proofs
