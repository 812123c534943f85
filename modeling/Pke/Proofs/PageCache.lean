import Pke.Proofs.BuddyRuns

/-! # The per-CPU page cache

`pmm_init` fills the 32 slots of the only hart, so every frame is afterwards held by a caller, in a live
slot, or in a buddy free block. `alloc_page` takes the last live slot. `pfree` increments `count`
before it stores, so the released page lands one slot above the slot that becomes live: the pool is
intact only if that slot already held the page.
-/

namespace Pke.Proofs

open Pke.Lib Pke.Model

/-- The frames in the live slots of a cache. -/
def cached (s : Pmm) (id : ℕ) : List ℕ := (List.range (s.caches id).count).map (s.caches id).objs

/-- Single frames as blocks. -/
def singles (frames : List ℕ) : List (ℕ × ℕ) := frames.map fun f => (f, 0)

private theorem span_single (f : ℕ) : span (f, 0) = {f} := by
  ext x
  change f ≤ x ∧ x < f + 2 ^ 0 ↔ x = f
  omega

theorem singles_append (frames rest : List ℕ) : singles (frames ++ rest) = singles frames ++ singles rest :=
  List.map_append

private theorem singles_perm {frames frames' : List ℕ} (perm : frames.Perm frames') :
    (singles frames).Perm (singles frames') :=
  perm.map _

/-- The invariant does not depend on the order of the live blocks. -/
theorem BuddyInv.perm {nr lo hi : ℕ} {b : Buddy} {owned owned' : List (ℕ × ℕ)} {lists : ℕ → List ℕ}
    (inv : BuddyInv nr lo hi b owned lists) (perm : owned.Perm owned') : BuddyInv nr lo hi b owned' lists where
  free := inv.free
  flags := inv.flags
  listed := inv.listed
  members k small f := by
    have same : unowned lo hi owned' = unowned lo hi owned := by
      ext x
      simp only [unowned, perm.mem_iff]
    rw [same]
    exact inv.members k small f
  owned e member := inv.owned e (perm.mem_iff.mpr member)
  disjoint := perm.pairwise inv.disjoint fun far x inside other => far x other inside
  range := inv.range

/-- The number of managed frames. -/
def managedCount (s : Pmm) : ℕ := ADDR_TO_PFN s.buddyEnd - ADDR_TO_PFN s.buddyStart

/-- What holds when the first `n` slots of the cache are filled. -/
structure Filled (s : Pmm) (n : ℕ) : Prop where
  unlocked : s.lock = false
  word : s.nrPages ≤ WORD
  bounds : ∀ i, .objs i ∈ s.events → i < PCPU_CACHE_SIZE
  pool : ∃ lists, BuddyOk s (singles ((List.range n).map (s.caches 0).objs)) lists

theorem prefillSlot_eq_ok {id index : ℕ} {s t : Pmm} : prefillSlot id index s = .ok () t ↔
    index < PCPU_CACHE_SIZE ∧ ∃ addr mid, buddyAlloc 0 s = .ok addr mid ∧
      t = (mid.record (.objs index)).setObj id index (ADDR_TO_PFN addr) := by
  rw [prefillSlot, bind_eq_ok]
  simp only [storeObj_eq]
  by_cases inside : index < PCPU_CACHE_SIZE
  · simp only [inside, if_true, EStateM.Result.ok.injEq, true_and, eq_comm]
  · simp [inside]

theorem Filled.slot {s t : Pmm} {n : ℕ} (filled : Filled s n) (small : n < PCPU_CACHE_SIZE)
    (ok : prefillSlot 0 n s = .ok () t) : Filled t (n + 1) ∧ t.buddyStart = s.buddyStart ∧
    t.buddyEnd = s.buddyEnd := by
  obtain ⟨_, addr, mid, call, rfl⟩ := prefillSlot_eq_ok.mp ok
  obtain ⟨_, _, p, b, taken, rfl, rfl⟩ := buddyAlloc_eq_ok.mp call
  obtain ⟨lists, pool⟩ := filled.pool
  obtain ⟨lists', next⟩ := BuddyInv.take pool (by decide) taken
  refine ⟨⟨rfl, filled.word, ?_, lists', ?_⟩, rfl, rfl⟩
  · intro i member
    rcases List.mem_cons.mp member with same | old
    · cases same
      exact small
    · exact filled.bounds i (by simpa [lockedOnce] using old)
  · refine BuddyInv.perm next ?_
    change ((p, 0) :: singles ((List.range n).map (s.caches 0).objs)).Perm (singles ((List.range (n + 1)).map
      (Function.update (s.caches 0).objs n (ADDR_TO_PFN (PFN_TO_ADDR p)))))
    have unchanged : (List.range n).map (Function.update (s.caches 0).objs n p) =
        (List.range n).map (s.caches 0).objs :=
      List.map_congr_left fun i below =>
        Function.update_of_ne (Nat.ne_of_lt (List.mem_range.mp below)) _ _
    rw [addr_pfn, List.range_succ, List.map_append, unchanged, singles, singles, List.map_append]
    simpa using (List.perm_append_singleton (p, 0) _).symm

/-- The prefill loop, by induction on the number of slots. -/
theorem Filled.slots {s t : Pmm} (start : Filled s 0) (n : ℕ) (small : n ≤ PCPU_CACHE_SIZE)
    (ok : (List.range n).forM (prefillSlot 0) s = .ok () t) :
    Filled t n ∧ t.buddyStart = s.buddyStart ∧ t.buddyEnd = s.buddyEnd := by
  induction n generalizing t with
  | zero =>
    obtain ⟨⟩ := ok
    exact ⟨start, rfl, rfl⟩
  | succ n ih =>
    rw [forM_range_succ, bind_eq_ok] at ok
    obtain ⟨_, mid, before, last⟩ := ok
    obtain ⟨filled, low, high⟩ := ih (by omega) before
    obtain ⟨next, low', high'⟩ := filled.slot (by omega) last
    exact ⟨next, low'.trans low, high'.trans high⟩

/-- Fewer frames than the interval has leave one of them without an owner. -/
private theorem exists_unowned {lo hi : ℕ} {frames : List ℕ} (short : frames.length < hi - lo) :
    ∃ x, x ∈ unowned lo hi (singles frames) := by
  by_contra none
  have inside : Finset.Ico lo hi ⊆ frames.toFinset := by
    intro x member
    obtain ⟨low, high⟩ := Finset.mem_Ico.mp member
    by_contra missing
    refine none ⟨x, low, high, fun e owned other => missing ?_⟩
    obtain ⟨f, listed, rfl⟩ := List.mem_map.mp owned
    rw [span_single, Set.mem_singleton_iff] at other
    simpa [other] using listed
  have cards := (Finset.card_le_card inside).trans (List.toFinset_card_le frames)
  rw [Nat.card_Ico] at cards
  omega

/-- While single frames are left, `buddy_alloc(0)` returns. -/
theorem BuddyOk.alloc_returns {s : Pmm} {frames : List ℕ} {lists : ℕ → List ℕ}
    (ok : BuddyOk s (singles frames) lists) (unlocked : s.lock = false)
    (short : frames.length < managedCount s) : ∃ addr t, buddyAlloc 0 s = .ok addr t := by
  obtain ⟨x, free⟩ := exists_unowned short
  obtain ⟨k, small, f, listed, _⟩ := BuddyInv.exists_free ok free
  obtain ⟨p, b, taken⟩ := (BuddyInv.free ok).take_isSome (Nat.zero_le k) small (List.ne_nil_of_mem listed)
  exact ⟨_, _, buddyAlloc_eq_ok.mpr ⟨by decide, unlocked, p, b, taken, rfl, rfl⟩⟩

private theorem Filled.slots_return {s : Pmm} (start : Filled s 0) (n : ℕ) (small : n ≤ PCPU_CACHE_SIZE)
    (enough : n ≤ managedCount s) : ∃ t, (List.range n).forM (prefillSlot 0) s = .ok () t := by
  induction n with
  | zero => exact ⟨s, rfl⟩
  | succ n ih =>
    obtain ⟨mid, before⟩ := ih (by omega) (by omega)
    obtain ⟨filled, low, high⟩ := start.slots n (by omega) before
    obtain ⟨lists, pool⟩ := filled.pool
    obtain ⟨addr, t, call⟩ := pool.alloc_returns filled.unlocked (by
      rw [List.length_map, List.length_range, managedCount, low, high]
      exact enough)
    refine ⟨(t.record (.objs n)).setObj 0 n (ADDR_TO_PFN addr), ?_⟩
    rw [forM_range_succ, bind_of_ok before]
    exact prefillSlot_eq_ok.mpr ⟨small, addr, t, call, rfl⟩

/-- The allocator as `pmm_init` leaves it; the history starts at boot. -/
def Booted (t : Pmm) : Prop :=
  ∃ kernelEnd memSize before, KERN_BASE ≤ kernelEnd ∧ before.events = [] ∧
  pmmInit kernelEnd memSize before = .ok () t

theorem pmmInit_eq_ok {kernelEnd memSize : ℕ} {s t : Pmm} : pmmInit kernelEnd memSize s = .ok () t ↔
    ∃ mid full, pmmSetup kernelEnd memSize s = .ok () mid ∧
      (List.range PCPU_CACHE_SIZE).forM (prefillSlot 0) mid = .ok () full ∧
      t = full.setCount 0 PCPU_CACHE_SIZE := by
  have loop : (List.range NCPU).forM prefill = prefill 0 := by
    change (prefill 0 >>= fun _ => pure ()) = _
    rw [bind_pure_unit]
  rw [pmmInit, loop, bind_eq_ok]
  simp only [prefill, bind_eq_ok, modify_apply, EStateM.Result.ok.injEq, true_and]
  constructor
  · rintro ⟨_, mid, setup, _, full, loop, rfl⟩
    exact ⟨mid, full, setup, loop, rfl⟩
  · rintro ⟨mid, full, setup, loop, rfl⟩
    exact ⟨(), mid, setup, (), full, loop, rfl⟩

/-- Held frames, live slots and free blocks make up the managed memory, and no slot outside the
array was touched so far. -/
structure CacheInv (s : Pmm) (held : List ℕ) : Prop where
  unlocked : s.lock = false
  word : s.nrPages ≤ WORD
  bounds : ∀ i, .objs i ∈ s.events → i < PCPU_CACHE_SIZE
  count : (s.caches 0).count ≤ PCPU_CACHE_SIZE
  pool : ∃ lists, BuddyOk s (singles (held ++ cached s 0)) lists

private theorem setup_filled {kernelEnd memSize : ℕ} {before s : Pmm} (image : KERN_BASE ≤ kernelEnd)
    (clean : before.events = []) (setup : pmmSetup kernelEnd memSize before = .ok () s) : Filled s 0 := by
  obtain ⟨cap, unlocked, _, lists, pool⟩ := pmmSetup_inv image setup
  have word : s.nrPages ≤ WORD := cap.trans (by decide)
  obtain ⟨_, rfl⟩ := pmmSetup_eq_ok setup
  exact ⟨unlocked, word, by simp [clean], lists, pool⟩

theorem Booted.cacheInv {t : Pmm} (booted : Booted t) : CacheInv t [] ∧
    (t.caches 0).count = PCPU_CACHE_SIZE := by
  obtain ⟨kernelEnd, memSize, before, image, clean, init⟩ := booted
  obtain ⟨mid, full, setup, loop, rfl⟩ := pmmInit_eq_ok.mp init
  obtain ⟨filled, _⟩ := (setup_filled image clean setup).slots PCPU_CACHE_SIZE le_rfl loop
  obtain ⟨lists, pool⟩ := filled.pool
  have count : ((full.setCount 0 PCPU_CACHE_SIZE).caches 0).count = PCPU_CACHE_SIZE := by simp [Pmm.setCount]
  refine ⟨⟨filled.unlocked, filled.word, filled.bounds, count.le, lists, ?_⟩, count⟩
  simpa [BuddyOk, cached, Pmm.setCount] using pool

/-- The managed frames lie behind the kernel image and below the end of the memory. -/
theorem pmmInit_managed {kernelEnd memSize : ℕ} {before t : Pmm} (image : KERN_BASE ≤ kernelEnd)
    (clean : before.events = []) (init : pmmInit kernelEnd memSize before = .ok () t) :
    ∀ f ∈ managed t, kernelEnd ≤ PFN_TO_ADDR f ∧ f < 32768 := by
  obtain ⟨mid, full, setup, loop, rfl⟩ := pmmInit_eq_ok.mp init
  obtain ⟨_, low, high⟩ := (setup_filled image clean setup).slots PCPU_CACHE_SIZE le_rfl loop
  obtain ⟨_, same⟩ := pmmSetup_eq_ok setup
  rintro f ⟨above, below⟩
  change ADDR_TO_PFN full.buddyStart ≤ f at above
  change f < ADDR_TO_PFN full.buddyEnd at below
  rw [low, same,
    ADDR_TO_PFN_ram (by simp only [ROUNDUP, PGSIZE, DRAM_BASE, KERN_BASE, PAGE_T_SIZE] at *; omega)] at above
  rw [high, same, ADDR_TO_PFN_ram (by simp only [ROUNDDOWN, PGSIZE, DRAM_BASE]; omega)] at below
  simp only [ROUNDUP, ROUNDDOWN, PFN_TO_ADDR, PGSIZE, DRAM_BASE, KERN_BASE, PKE_MAX_ALLOWABLE_RAM,
    PAGE_T_SIZE] at *
  constructor
  · omega
  · omega

/-- `pmm_init` returns on every machine with room for the caches. -/
theorem pmmInit_returns {kernelEnd memSize : ℕ} {before s : Pmm} (image : KERN_BASE ≤ kernelEnd)
    (clean : before.events = []) (setup : pmmSetup kernelEnd memSize before = .ok () s)
    (enough : PCPU_CACHE_SIZE ≤ managedCount s) : ∃ t, pmmInit kernelEnd memSize before = .ok () t := by
  obtain ⟨full, loop⟩ := (setup_filled image clean setup).slots_return PCPU_CACHE_SIZE le_rfl enough
  exact ⟨_, pmmInit_eq_ok.mpr ⟨s, full, setup, loop, rfl⟩⟩

theorem cached_popped {s : Pmm} (positive : (s.caches 0).count ≠ 0)
    (small : (s.caches 0).count ≤ PCPU_CACHE_SIZE) :
    cached s 0 = cached (popped 0 s) 0 ++ [(s.caches 0).objs ((s.caches 0).count - 1)] := by
  have index := decr32_of_pos positive small
  obtain ⟨n, count⟩ := Nat.exists_eq_succ_of_ne_zero positive
  rw [count] at index
  simp [cached, popped, Pmm.setCount, Pmm.record, index, count, List.range_succ]

/-- The slot that becomes live is the one below the slot that was written. -/
theorem cached_pushed {s : Pmm} (small : (s.caches 0).count ≤ PCPU_CACHE_SIZE) (pfn : ℕ) :
    cached (pushed 0 pfn s) 0 = cached s 0 ++ [(s.caches 0).objs (s.caches 0).count] := by
  have below : ∀ i ∈ List.range ((s.caches 0).count + 1),
      Function.update (s.caches 0).objs ((s.caches 0).count + 1) pfn i = (s.caches 0).objs i :=
    fun i member => Function.update_of_ne (Nat.ne_of_lt (List.mem_range.mp member)) _ _
  have objs : cached (pushed 0 pfn s) 0 = (List.range ((s.caches 0).count + 1)).map
      (Function.update (s.caches 0).objs ((s.caches 0).count + 1) pfn) := by
    simp [cached, pushed, Pmm.setCount, Pmm.setObj, Pmm.record, incr32_of_lt small]
  rw [objs, List.map_congr_left below, List.range_succ, List.map_append]
  rfl

/-- A call that finds a live slot hands it out. -/
theorem allocPage_of_count {s : Pmm} {n : ℕ} (count : (s.caches 0).count = n + 1)
    (small : n < PCPU_CACHE_SIZE) :
    ∃ t, allocPage 0 s = .ok (PFN_TO_ADDR ((s.caches 0).objs n)) t ∧ (t.caches 0).count = n ∧
      (t.caches 0).objs = (s.caches 0).objs ∧ t.lock = s.lock ∧ t.buddy = s.buddy := by
  have index : decr32 (s.caches 0).count = n := by
    rw [decr32_of_pos (by omega) (by omega), count, Nat.add_sub_cancel]
  refine ⟨popped 0 (s.record (.cpu 0)), ?_, ?_, ?_, rfl, rfl⟩
  · exact allocPage_eq_ok.mpr ⟨by decide, by omega, by omega, by rw [index], rfl⟩
  · simp [popped, Pmm.setCount, Pmm.record, index]
  · simp [popped, Pmm.setCount, Pmm.record]

namespace CacheInv

variable {s t : Pmm} {held : List ℕ}

theorem disjoint_singles (inv : CacheInv s held) : (held ++ cached s 0).Nodup := by
  obtain ⟨lists, pool⟩ := inv.pool
  have apart := List.pairwise_map.mp (BuddyInv.disjoint pool)
  refine apart.imp fun far same => ?_
  exact far _ (mem_span_self _) (same ▸ mem_span_self _)

/-- A returning `alloc_page` moves the last live slot to the caller. -/
theorem alloc (inv : CacheInv s held) {addr : ℕ} (call : allocPage 0 s = .ok addr t) :
    ∃ f ∈ cached s 0, addr = PFN_TO_ADDR f ∧ f ∉ held ∧ CacheInv t (f :: held) ∧ t.buddy = s.buddy ∧
      managed t = managed s := by
  obtain ⟨_, empty, _, rfl, rfl⟩ := allocPage_eq_ok.mp call
  obtain ⟨lists, pool⟩ := inv.pool
  have shape := cached_popped empty inv.count
  rw [decr32_of_pos empty inv.count]
  set f := (s.caches 0).objs ((s.caches 0).count - 1)
  have member : f ∈ cached s 0 := by rw [shape]; simp
  refine ⟨f, member, rfl, ?_, ⟨inv.unlocked, inv.word, ?_, ?_, lists, ?_⟩, rfl, rfl⟩
  · intro other
    exact List.disjoint_of_nodup_append inv.disjoint_singles other member
  · intro i touched
    simp only [popped, Pmm.record, Pmm.setCount, decr32_of_pos empty inv.count, List.mem_cons,
      PmmEvent.objs.injEq, reduceCtorEq, false_or] at touched
    rcases touched with rfl | old
    · have full := inv.count
      omega
    · exact inv.bounds i old
  · have count : ((popped 0 (s.record (.cpu 0))).caches 0).count = (s.caches 0).count - 1 := by
      simp [popped, Pmm.setCount, Pmm.record, decr32_of_pos empty inv.count]
    rw [count]
    exact (Nat.sub_le _ _).trans inv.count
  · refine BuddyInv.perm pool (singles_perm ?_)
    change (held ++ cached s 0).Perm (f :: (held ++ cached (popped 0 s) 0))
    rw [shape, ← List.append_assoc]
    exact List.perm_append_singleton f _

/-- The frames of held pages are single blocks, so `pfree` takes the path of the cache. -/
theorem order_held (inv : CacheInv s held) {f : ℕ} (member : f ∈ held) : (s.buddy.pages f).order = 0 := by
  obtain ⟨lists, pool⟩ := inv.pool
  exact (BuddyInv.owned pool (f, 0) (List.mem_map.mpr ⟨f, List.mem_append_left _ member, rfl⟩)).2.2.2

theorem pfree_held (inv : CacheInv s held) {f : ℕ} (member : f ∈ held)
    (room : (s.caches 0).count + 1 < PCPU_CACHE_SIZE) :
    pfree 0 (PFN_TO_ADDR f) s = .ok () (pushed 0 f (s.record (.cpu 0))) := by
  have single : (s.buddy.pages (ADDR_TO_PFN (PFN_TO_ADDR f))).order = 0 := by
    rw [addr_pfn]
    exact inv.order_held member
  rw [pfree_of_room single (by decide) room, addr_pfn]

private theorem pfree_held_last (inv : CacheInv s held) {f : ℕ} (member : f ∈ held)
    (last : (s.caches 0).count + 1 = PCPU_CACHE_SIZE) :
    pfree 0 (PFN_TO_ADDR f) s = .error .outOfBounds (overrun 0 (s.record (.cpu 0))) := by
  have single : (s.buddy.pages (ADDR_TO_PFN (PFN_TO_ADDR f))).order = 0 := by
    rw [addr_pfn]
    exact inv.order_held member
  exact pfree_of_last single (by decide) last

/-- Releasing the page that the next slot still holds puts it back. -/
theorem free (inv : CacheInv s held) {f : ℕ} (member : f ∈ held)
    (room : (s.caches 0).count + 1 < PCPU_CACHE_SIZE) (slot : (s.caches 0).objs (s.caches 0).count = f)
    (call : pfree 0 (PFN_TO_ADDR f) s = .ok () t) :
    CacheInv t (held.erase f) ∧ (t.caches 0).count = (s.caches 0).count + 1 ∧
      (t.caches 0).objs (s.caches 0).count = f ∧ t.buddy = s.buddy ∧ managed t = managed s := by
  rw [inv.pfree_held member room] at call
  obtain ⟨-, rfl⟩ := EStateM.Result.ok.inj call
  obtain ⟨lists, pool⟩ := inv.pool
  have index := incr32_of_lt inv.count
  have count : ((pushed 0 f (s.record (.cpu 0))).caches 0).count = (s.caches 0).count + 1 := by
    simp [pushed, Pmm.setCount, Pmm.setObj, Pmm.record, index]
  refine ⟨⟨inv.unlocked, inv.word, ?_, ?_, lists, ?_⟩, count, ?_, rfl, rfl⟩
  · intro i touched
    simp only [pushed, Pmm.record, Pmm.setCount, Pmm.setObj, index, List.mem_cons, PmmEvent.objs.injEq,
      reduceCtorEq, false_or] at touched
    rcases touched with rfl | old
    · exact room
    · exact inv.bounds i old
  · rw [count]
    exact room.le
  · refine BuddyInv.perm pool (singles_perm ?_)
    have shape : cached (pushed 0 f (s.record (.cpu 0))) 0 =
        cached s 0 ++ [(s.caches 0).objs (s.caches 0).count] :=
      cached_pushed (s := s.record (.cpu 0)) inv.count f
    rw [shape, slot, ← List.append_assoc]
    have front := ((List.perm_cons_erase member).append_right (cached s 0)).trans
      (List.perm_append_singleton f (held.erase f ++ cached s 0)).symm
    exact front
  · simp [pushed, Pmm.setCount, Pmm.setObj, Pmm.record, index, slot]

end CacheInv

/-- What callers rely on, for held pages given by their addresses: only slots of the array are used,
the live slots are distinct, held pages, live slots and free blocks partition the managed frames, and
no page is handed out twice. -/
structure CacheOk (s : Pmm) (held : List ℕ) : Prop where
  bounds : ∀ i, .objs i ∈ s.events → i < PCPU_CACHE_SIZE
  count : (s.caches 0).count ≤ PCPU_CACHE_SIZE
  distinct : (cached s 0).Nodup
  partition : ∃ lists, FreeLists s.buddy lists ∧
    (freeBlocks lists ++ singles (held.map ADDR_TO_PFN ++ cached s 0)).Pairwise
    (fun d e => Disjoint (span d) (span e)) ∧
    {x | ∃ e ∈ freeBlocks lists ++ singles (held.map ADDR_TO_PFN ++ cached s 0), x ∈ span e} = managed s
  fresh : ∀ addr t, allocPage 0 s = .ok addr t → addr ∉ held

private theorem pfn_addr_list (frames : List ℕ) : (frames.map PFN_TO_ADDR).map ADDR_TO_PFN = frames := by
  simp [Function.comp_def, addr_pfn]

theorem CacheInv.ok {s : Pmm} {held : List ℕ} (inv : CacheInv s held) : CacheOk s (held.map PFN_TO_ADDR) := by
  obtain ⟨lists, pool⟩ := inv.pool
  have represents := pool.represents
  refine ⟨inv.bounds, inv.count, inv.disjoint_singles.of_append_right, ⟨lists, represents.free, ?_, ?_⟩, ?_⟩
  · rw [pfn_addr_list, ← liveBlocks_addresses (singles _)]
    exact represents.disjoint
  · rw [pfn_addr_list, ← liveBlocks_addresses (singles _)]
    exact represents.cover
  · intro addr t call member
    obtain ⟨f, _, rfl, other, _⟩ := inv.alloc call
    obtain ⟨g, listed, same⟩ := List.mem_map.mp member
    exact other (pfn_addr_injective same ▸ listed)

/-- The condition under which `pfree` keeps the cache intact: the page goes into a slot of the array,
and the slot that becomes live still holds it from the time it was handed out. -/
def Returns (s : Pmm) (addr : ℕ) : Prop :=
  (s.caches 0).count + 1 < PCPU_CACHE_SIZE ∧ (s.caches 0).objs (s.caches 0).count = ADDR_TO_PFN addr

instance (s : Pmm) (addr : ℕ) : Decidable (Returns s addr) := inferInstanceAs (Decidable (_ ∧ _))

/-- One round of the drain loop gives the page in the last slot back to the buddy system. -/
theorem BuddyOk.drain_step {s : Pmm} {owned : List (ℕ × ℕ)} {lists : ℕ → List ℕ}
    (pool : BuddyOk s (owned ++ singles (cached s 0)) lists) (positive : (s.caches 0).count ≠ 0)
    (small : (s.caches 0).count ≤ PCPU_CACHE_SIZE) (word : s.nrPages ≤ WORD)
    (room : ∀ aligned, Room s.nrPages
      (unowned (ADDR_TO_PFN s.buddyStart) (ADDR_TO_PFN s.buddyEnd) (owned ++ singles (cached s 0)))
      ⟨(s.caches 0).objs ((s.caches 0).count - 1), 0, aligned⟩) :
    ∃ lists', BuddyOk
      { popped 0 s with buddy := buddyMergeInner ((s.caches 0).objs ((s.caches 0).count - 1)) s.buddy }
      (owned ++ singles (cached (popped 0 s) 0)) lists' := by
  have shape := cached_popped positive small
  set f := (s.caches 0).objs ((s.caches 0).count - 1)
  have split : owned ++ singles (cached s 0) = owned ++ singles (cached (popped 0 s) 0) ++ [(f, 0)] := by
    rw [shape, singles, singles, List.map_append, List.append_assoc]
    rfl
  have member : (f, 0) ∈ owned ++ singles (cached s 0) := by
    rw [split]
    simp
  obtain ⟨lists', merged⟩ := BuddyInv.release pool member room word
  have rest := (List.perm_append_singleton (f, 0) (owned ++ singles (cached (popped 0 s) 0))).erase (f, 0)
  rw [← split, List.erase_cons_head] at rest
  exact ⟨lists', BuddyInv.perm merged rest⟩

/-- Draining moves live slots from the top to the buddy system. -/
private theorem drained_inv {owned : List (ℕ × ℕ)} : ∀ (n : ℕ) (s : Pmm) (lists : ℕ → List ℕ),
    n ≤ (s.caches 0).count →
    (s.caches 0).count ≤ PCPU_CACHE_SIZE → 2 ^ (MAX_ORDER - 1) ∣ s.nrPages → s.nrPages ≤ WORD →
    BuddyOk s (owned ++ singles (cached s 0)) lists →
    ((drained 0 n s).caches 0).count = (s.caches 0).count - n ∧
    ((drained 0 n s).caches 0).objs = (s.caches 0).objs ∧
      managed (drained 0 n s) = managed s ∧
      ∃ lists', BuddyOk (drained 0 n s) (owned ++ singles (cached (drained 0 n s) 0)) lists' := by
  intro n
  induction n with
  | zero => intro s lists _ _ _ _ pool; exact ⟨rfl, rfl, rfl, lists, pool⟩
  | succ n ih =>
    intro s lists enough small whole word pool
    have positive : (s.caches 0).count ≠ 0 := by omega
    have index := decr32_of_pos positive small
    set f := (s.caches 0).objs ((s.caches 0).count - 1)
    have member : (f, 0) ∈ owned ++ singles (cached s 0) :=
      List.mem_append_right _ (List.mem_map.mpr ⟨f, by rw [cached_popped positive small]; simp [f], rfl⟩)
    obtain ⟨lists', merged⟩ := pool.drain_step positive small word fun aligned =>
      Room.of_whole whole (BuddyInv.release_lt pool member aligned)
    let next : Pmm := { popped 0 s with buddy := buddyMergeInner f s.buddy }
    have count : (next.caches 0).count = (s.caches 0).count - 1 := by
      simp [next, popped, Pmm.setCount, Pmm.record, index]
    have objs : (next.caches 0).objs = (s.caches 0).objs := by simp [next, popped, Pmm.setCount, Pmm.record]
    have step : drained 0 (n + 1) s = drained 0 n next := by
      rw [drained, index]
    rw [step]
    obtain ⟨count', objs', interval, lists'', pool'⟩ :=
      ih next lists' (by omega) (by omega) whole word merged
    exact ⟨by omega, objs'.trans objs, interval, lists'', pool'⟩

/-- Pushing after a drain makes a slot live whose page was just given to the buddy system. -/
private theorem not_ok_of_drained {s : Pmm} (mid : Pmm) {held : List ℕ} {f : ℕ} {lists : ℕ → List ℕ}
    (inv : CacheInv s held) (full : (s.caches 0).count = PCPU_CACHE_SIZE) (count : (mid.caches 0).count = 16)
    (objs : (mid.caches 0).objs = (s.caches 0).objs) (interval : managed mid = managed s)
    (pool : BuddyOk mid (singles held ++ singles (cached mid 0)) lists) {held' : List ℕ}
    (ok : CacheOk (pushed 0 f mid) held') : False := by
  obtain ⟨lists', free, disjoint, _⟩ := ok.partition
  rw [← singles_append] at pool
  let top := (s.caches 0).objs 16
  have before : cached s 0 = cached mid 0 ++ top :: (List.range' 17 15).map (s.caches 0).objs := by
    rw [cached, cached, full, count, objs]
    rfl
  have after : cached (pushed 0 f mid) 0 = cached mid 0 ++ [top] := by
    rw [cached_pushed (by rw [count]; decide), count, objs]
  have nodup := inv.disjoint_singles
  rw [before, ← List.append_assoc] at nodup
  have gone : top ∉ held ++ cached mid 0 := fun other =>
    List.disjoint_of_nodup_append nodup other List.mem_cons_self
  have inside : top ∈ managed mid := by
    obtain ⟨_, old⟩ := inv.pool
    have owned : top ∈ held ++ cached s 0 := List.mem_append_right _ (by rw [before]; simp)
    rw [interval]
    exact (BuddyInv.owned old (top, 0) (List.mem_map.mpr ⟨top, owned, rfl⟩)).2.2.1 (mem_span_self _)
  have unowned : top ∈ unowned (ADDR_TO_PFN mid.buddyStart) (ADDR_TO_PFN mid.buddyEnd)
    (singles (held ++ cached mid 0)) := by
    refine ⟨inside.1, inside.2, ?_⟩
    intro e owned found
    obtain ⟨g, listed, rfl⟩ := List.mem_map.mp owned
    rw [span_single, Set.mem_singleton_iff] at found
    exact gone (found ▸ listed)
  obtain ⟨k, small, g, listed, found⟩ := BuddyInv.exists_free pool unowned
  have same : lists k = lists' k := FreeLists.unique (BuddyInv.free pool) free small
  have live : (top, 0) ∈ singles (held'.map ADDR_TO_PFN ++ cached (pushed 0 f mid) 0) :=
    List.mem_map.mpr ⟨top, by rw [after]; simp, rfl⟩
  exact Set.disjoint_left.mp ((List.pairwise_append.mp disjoint).2.2 (g, k)
    (mem_freeBlocks.mpr ⟨small, same ▸ listed⟩)
    (top, 0) live) found (mem_span_self _)

/-- The condition is exact: any other release breaks the accounting. -/
theorem CacheOk.returns {s t : Pmm} {held : List ℕ} {f : ℕ} (inv : CacheInv s held) (member : f ∈ held)
    (whole : 2 ^ (MAX_ORDER - 1) ∣ s.nrPages) (call : pfree 0 (PFN_TO_ADDR f) s = .ok () t)
    (ok : CacheOk t ((held.erase f).map PFN_TO_ADDR)) : Returns s (PFN_TO_ADDR f) := by
  obtain ⟨lists, pool⟩ := inv.pool
  obtain ⟨lists', free, disjoint, cover⟩ := ok.partition
  rw [pfn_addr_list] at disjoint cover
  have nodup := inv.disjoint_singles
  have notCached : f ∉ cached s 0 := List.disjoint_of_nodup_append nodup member
  have inside : f ∈ managed s :=
    (BuddyInv.owned pool (f, 0) (List.mem_map.mpr ⟨f, List.mem_append_left _ member, rfl⟩)).2.2.1
    (mem_span_self _)
  by_cases full : (s.caches 0).count = PCPU_CACHE_SIZE
  · exfalso
    rw [pfree_eq] at call
    have hart : 0 < NCPU := by decide
    simp only [addr_pfn, inv.order_held member, ne_eq, not_true_eq_false, if_false, if_pos full, inv.unlocked,
      Bool.false_eq_true, hart, if_true] at call
    obtain ⟨-, rfl⟩ := EStateM.Result.ok.inj call
    obtain ⟨count, objs, interval, lists'', drainedPool⟩ := drained_inv 16
      { (s.record (.cpu 0)).record .acquire with lock := true } lists
      (by change 16 ≤ (s.caches 0).count; rw [full]; decide)
      inv.count whole inv.word (singles_append held _ ▸ pool)
    generalize drained 0 16 { (s.record (.cpu 0)).record .acquire with lock := true } = mid at *
    exact not_ok_of_drained { mid.record .release with lock := false } inv full
      (count.trans (congrArg (fun n => n - 16) full)) objs interval drainedPool ok
  · have room : (s.caches 0).count + 1 < PCPU_CACHE_SIZE := by
      have bound := inv.count
      by_contra last
      rw [inv.pfree_held_last member (by omega)] at call
      cases call
    rw [inv.pfree_held member room] at call
    obtain ⟨-, rfl⟩ := EStateM.Result.ok.inj call
    refine ⟨room, ?_⟩
    have shape : cached (pushed 0 f (s.record (.cpu 0))) 0 =
        cached s 0 ++ [(s.caches 0).objs (s.caches 0).count] :=
      cached_pushed (s := s.record (.cpu 0)) inv.count f
    change f ∈ managed (pushed 0 f (s.record (.cpu 0))) at inside
    rw [← cover, shape] at inside
    obtain ⟨e, block, found⟩ := inside
    rcases List.mem_append.mp block with listed | single
    · obtain ⟨small, listed⟩ := mem_freeBlocks.mp listed
      have same : lists' e.2 = lists e.2 := free.unique (BuddyInv.free pool) small
      have unowned := ((BuddyInv.members pool _ small _).mp (same ▸ listed)).subset found
      exact absurd (mem_span_self _) (unowned.2.2 (f, 0)
        (List.mem_map.mpr ⟨f, List.mem_append_left _ member, rfl⟩))
    · obtain ⟨g, listed, rfl⟩ := List.mem_map.mp single
      rw [span_single, Set.mem_singleton_iff] at found
      subst found
      rw [addr_pfn]
      rcases List.mem_append.mp listed with still | live
      · exact absurd still (List.Nodup.not_mem_erase nodup.of_append_left)
      · rcases List.mem_append.mp live with old | new
        · exact absurd old notCached
        · exact (List.mem_singleton.mp new).symm

inductive CacheCall where
  | alloc
  | free (addr : ℕ)

/-- The allocator and the pages that its caller holds. -/
structure Caller where
  pmm : Pmm
  held : List ℕ

/-- One returning call of `alloc_page`, or of `pfree` on a held page. -/
inductive CacheStep : Caller → CacheCall → Caller → Prop
  | alloc {s t : Pmm} {held : List ℕ} {addr : ℕ} (call : allocPage 0 s = .ok addr t) :
      CacheStep ⟨s, held⟩ .alloc ⟨t, addr :: held⟩
  | free {s t : Pmm} {held : List ℕ} {addr : ℕ} (member : addr ∈ held) (call : pfree 0 addr s = .ok () t) :
      CacheStep ⟨s, held⟩ (.free addr) ⟨t, held.erase addr⟩

def FreeReturns (c : Caller) : CacheCall → Prop
  | .alloc => True
  | .free addr => Returns c.pmm addr

/-- The invariant of a run whose releases meet the condition. -/
def CallerInv (c : Caller) : Prop := ∃ frames, c.held = frames.map PFN_TO_ADDR ∧ CacheInv c.pmm frames

private theorem callerInv_step {c d : Caller} {call : CacheCall} (inv : CallerInv c)
    (step : Guarded FreeReturns CacheStep c call d) : CallerInv d := by
  obtain ⟨frames, same, cache⟩ := inv
  obtain ⟨guard, step⟩ := step
  cases step with
  | alloc call =>
    obtain ⟨f, _, rfl, _, next, _⟩ := cache.alloc call
    exact ⟨f :: frames, congrArg _ same, next⟩
  | @free s t held addr member call =>
    change held = _ at same
    subst same
    obtain ⟨f, inside, rfl⟩ := List.mem_map.mp member
    obtain ⟨room, slot⟩ := guard
    rw [addr_pfn] at slot
    exact ⟨frames.erase f, (List.map_erase pfn_addr_injective _).symm, (cache.free inside room slot call).1⟩

/-- While the cache is intact, no `alloc_page` leaves the slots, also if it does not return. -/
private theorem CacheInv.alloc_bounds {s : Pmm} {held : List ℕ} (inv : CacheInv s held) :
    ∀ i, .objs i ∈ (finalState (allocPage 0 s)).events → i < PCPU_CACHE_SIZE := by
  by_cases empty : (s.caches 0).count = 0
  · intro i touched
    rw [allocPage_eq, if_pos (by decide), if_pos empty, inv.unlocked] at touched
    exact inv.bounds i (by simpa [Pmm.record] using touched)
  · have index := decr32_of_pos empty inv.count
    have full := inv.count
    have call := allocPage_eq_ok.mpr ⟨by decide, empty, by omega, rfl, rfl⟩
    rw [call]
    obtain ⟨_, _, _, _, next, _⟩ := inv.alloc call
    exact next.bounds

/-- In every run whose releases meet `Returns`, the cache is exclusive and conserves the managed
frames, the next call stays inside the slots, and a released page is the next one handed out. Over a
whole number of largest blocks the condition is exact for the next release. -/
theorem cache_exclusive {s t : Pmm} {held : List ℕ} {calls : List CacheCall} (booted : Booted s)
    (run : Run (Guarded FreeReturns CacheStep) ⟨s, []⟩ calls ⟨t, held⟩) :
    CacheOk t held ∧
    (∀ i, .objs i ∈ (finalState (allocPage 0 t)).events → i < PCPU_CACHE_SIZE) ∧
    (∀ addr ∈ held, Returns t addr → ∃ t' u, pfree 0 addr t = .ok () t' ∧ allocPage 0 t' = .ok addr u) ∧
    (2 ^ (MAX_ORDER - 1) ∣ t.nrPages → ∀ addr ∈ held,
      ((∃ t', pfree 0 addr t = .ok () t' ∧ CacheOk t' (held.erase addr)) ↔ Returns t addr)) := by
  have start : CallerInv ⟨s, []⟩ := ⟨[], rfl, booted.cacheInv.1⟩
  obtain ⟨frames, rfl, inv⟩ := run.invariant (fun _ _ _ inv step => callerInv_step inv step) start
  refine ⟨inv.ok, inv.alloc_bounds, ?_, ?_⟩
  · rintro addr member ⟨room, slot⟩
    obtain ⟨f, inside, rfl⟩ := List.mem_map.mp member
    rw [addr_pfn] at slot
    have call := inv.pfree_held inside room
    obtain ⟨_, count, stored, _⟩ := inv.free inside room slot call
    obtain ⟨u, next, _⟩ := allocPage_of_count count (Nat.lt_of_succ_lt room)
    rw [stored] at next
    exact ⟨_, u, call, next⟩
  · intro whole addr member
    obtain ⟨f, inside, rfl⟩ := List.mem_map.mp member
    rw [← List.map_erase pfn_addr_injective]
    constructor
    · rintro ⟨t', call, ok⟩
      exact ok.returns inv inside whole call
    · rintro ⟨room, slot⟩
      rw [addr_pfn] at slot
      have call := inv.pfree_held inside room
      exact ⟨_, call, (inv.free inside room slot call).1.ok⟩

/-- The small machine after `pmm_init`. -/
def smallBoot : Pmm := finalState (pmmInit 0x80010000 0x400000 blankPmm)

theorem smallBoot_init : pmmInit 0x80010000 0x400000 blankPmm = .ok () smallBoot := by
  have setup : pmmSetup 0x80010000 0x400000 blankPmm = .ok () smallSetup := rfl
  obtain ⟨t, init⟩ := pmmInit_returns (by decide) rfl setup (by decide)
  rw [smallBoot, init, finalState_ok]

theorem smallBoot_booted : Booted smallBoot := ⟨0x80010000, 0x400000, blankPmm, by decide, rfl, smallBoot_init⟩

/-- The first two pages handed out, and the release of the second one. -/
theorem cache_exclusive_small :
    ∃ first second t, Run (Guarded FreeReturns CacheStep) ⟨smallBoot, []⟩ [.alloc, .alloc, .free second]
    ⟨t, [first]⟩ ∧
      CacheOk t [first] := by
  obtain ⟨inv, count⟩ := smallBoot_booted.cacheInv
  obtain ⟨s₁, call₁, count₁, objs₁, _⟩ := allocPage_of_count (n := 31) count (by decide)
  obtain ⟨s₂, call₂, count₂, objs₂, _⟩ := allocPage_of_count (n := 30) count₁ (by decide)
  have returns : Returns s₂ (PFN_TO_ADDR ((s₁.caches 0).objs 30)) := by
    refine ⟨by rw [count₂]; decide, ?_⟩
    rw [addr_pfn, count₂, objs₂]
  obtain ⟨_, _, _, _, inv₁, _⟩ := inv.alloc call₁
  obtain ⟨f, _, same, _, inv₂, _⟩ := inv₁.alloc call₂
  obtain rfl := pfn_addr_injective same
  have call₃ := inv₂.pfree_held List.mem_cons_self returns.1
  have step : CacheStep ⟨s₂, [PFN_TO_ADDR ((s₁.caches 0).objs 30),
      PFN_TO_ADDR ((smallBoot.caches 0).objs 31)]⟩ (.free _)
      ⟨_, List.erase _ _⟩ := .free List.mem_cons_self call₃
  rw [List.erase_cons_head] at step
  have step₁ : Guarded FreeReturns CacheStep ⟨smallBoot, []⟩ .alloc ⟨s₁, _⟩ := ⟨trivial, .alloc call₁⟩
  have step₂ : Guarded FreeReturns CacheStep ⟨s₁, [PFN_TO_ADDR ((smallBoot.caches 0).objs 31)]⟩
      .alloc ⟨s₂, _⟩ :=
    ⟨trivial, .alloc call₂⟩
  have step₃ : Guarded FreeReturns CacheStep
      ⟨s₂, [PFN_TO_ADDR ((s₁.caches 0).objs 30), PFN_TO_ADDR ((smallBoot.caches 0).objs 31)]⟩
      (.free (PFN_TO_ADDR ((s₁.caches 0).objs 30))) _ := ⟨returns, step⟩
  have run := Run.cons step₁ (.cons step₂ (.cons step₃ (.nil _)))
  exact ⟨_, _, _, run, (cache_exclusive smallBoot_booted run).1⟩

/-- Releasing the first page right after boot stores past the end of the slots. -/
theorem cache_overflow_small : ∃ addr s t, Booted smallBoot ∧
    Run CacheStep ⟨smallBoot, []⟩ [.alloc] ⟨s, [addr]⟩ ∧
    pfree 0 addr s = .error .outOfBounds t ∧ .objs PCPU_CACHE_SIZE ∈ t.events ∧ ¬ CacheOk t [] := by
  obtain ⟨inv, count⟩ := smallBoot_booted.cacheInv
  obtain ⟨s₁, call₁, count₁, _⟩ := allocPage_of_count (n := 31) count (by decide)
  obtain ⟨f, _, same, _, inv₁, _⟩ := inv.alloc call₁
  obtain rfl := pfn_addr_injective same
  have call₂ := inv₁.pfree_held_last List.mem_cons_self (by rw [count₁]; decide)
  have touched : .objs PCPU_CACHE_SIZE ∈ (overrun 0 (s₁.record (.cpu 0))).events := by
    have index : incr32 (s₁.caches 0).count = PCPU_CACHE_SIZE := by rw [count₁]; rfl
    simp [overrun, Pmm.setCount, Pmm.record, index]
  refine ⟨_, _, _, smallBoot_booted, .cons (.alloc call₁) (.nil _), call₂, touched, fun ok => ?_⟩
  exact absurd (ok.bounds _ touched) (lt_irrefl _)

end Pke.Proofs
