import Pke.Proofs.PageCache

/-! # Careful calls on a machine of any size

`Pooled` is the part of the allocator's invariant that needs no number of pages: the live blocks, the
pages in the cache and the free lists are the managed frames. A release keeps it as long as every
block that it can complete has its buddy inside the descriptor array.
-/

namespace Pke.Proofs

open Pke.Lib Pke.Model

/-- The frames of the blocks on the lists. -/
def freeFrames (b : Buddy) : Set ℕ := {x | ∃ f k, FreeBlock b f k ∧ x ∈ span (f, k)}

theorem BuddyInv.freeFrames_eq {nr lo hi : ℕ} {b : Buddy} {owned : List (ℕ × ℕ)} {lists : ℕ → List ℕ}
    (inv : BuddyInv nr lo hi b owned lists) : freeFrames b = unowned lo hi owned := by
  ext x
  constructor
  · rintro ⟨f, k, ⟨lists', free, small, member⟩, inside⟩
    rw [free.unique inv.free small] at member
    exact ((inv.members k small f).mp member).subset inside
  · intro free
    obtain ⟨k, small, f, member, inside⟩ := inv.exists_free free
    exact ⟨f, k, ⟨lists, inv.free, small, member⟩, inside⟩

/-- The managed frames are those of the live blocks, of the cached pages and of the free lists. -/
structure Pooled (h : Holding) : Prop where
  unlocked : h.pmm.lock = false
  word : h.pmm.nrPages ≤ WORD
  count : (h.pmm.caches 0).count ≤ PCPU_CACHE_SIZE
  pool : ∃ owned lists, h.live = addresses owned ∧ BuddyOk h.pmm (owned ++ singles (cached h.pmm 0)) lists

/-- The record of a released block; `g` is `PFN_TO_ADDR`. -/
private theorem filter_record {g : ℕ → ℕ} (injective : Function.Injective g)
    {owned rest : List (ℕ × ℕ)} {p k : ℕ} (disjoint : (owned ++ rest).Pairwise fun d e => ∀ x ∈ span d,
      x ∉ span e) (member : (p, k) ∈ owned) :
    (owned.map fun e => (g e.1, e.2)).filter (fun e => e.1 ≠ g p) = (owned.erase (p, k)).map fun e =>
    (g e.1, e.2) := by
  have starts : owned.Pairwise fun d e => d.1 ≠ e.1 := by
    refine (List.pairwise_append.mp disjoint).1.imp ?_
    intro d e far same
    exact far d.1 (mem_span_self d) (same ▸ mem_span_self e)
  have nodup : owned.Nodup := starts.imp fun different same => different (congrArg Prod.fst same)
  have symmetric : Std.Symm fun d e : ℕ × ℕ => d.1 ≠ e.1 := ⟨fun _ _ different => different.symm⟩
  rw [List.filter_map, nodup.erase_eq_filter]
  congr 1
  apply List.filter_congr
  intro e inside
  by_cases same : e = (p, k)
  · simp [same]
  · have other : g e.1 ≠ g p := fun equal => starts.forall inside member same (injective equal)
    simp [same, other]

namespace Pooled

variable {s t : Pmm} {live : List (ℕ × ℕ)} {addr k : ℕ}

/-- A live block in frame numbers, with what its descriptor says. -/
theorem owned_of_live (pooled : Pooled ⟨s, live⟩) (member : (addr, k) ∈ live) :
    ∃ p owned lists, addr = PFN_TO_ADDR p ∧ (p, k) ∈ owned ∧ live = addresses owned ∧
      BuddyOk s (owned ++ singles (cached s 0)) lists := by
  obtain ⟨owned, lists, same, ok⟩ := pooled.pool
  change live = addresses owned at same
  obtain ⟨⟨p, order⟩, inside, equal⟩ := List.mem_map.mp (same ▸ member)
  obtain ⟨rfl, rfl⟩ := Prod.mk.inj equal
  exact ⟨p, owned, lists, rfl, inside, same, ok⟩

theorem order_of_live (pooled : Pooled ⟨s, live⟩) (member : (addr, k) ∈ live) :
    (s.buddy.pages (ADDR_TO_PFN addr)).order = k := by
  obtain ⟨p, owned, lists, rfl, inside, _, ok⟩ := pooled.owned_of_live member
  rw [addr_pfn]
  exact (BuddyInv.owned ok _ (List.mem_append_left _ inside)).2.2.2

theorem buddyAlloc (pooled : Pooled ⟨s, live⟩) (call : Model.buddyAlloc k s = .ok addr t) :
    Pooled ⟨t, (addr, k) :: live⟩ ∧ span (ADDR_TO_PFN addr, k) ⊆ managed s := by
  obtain ⟨small, _, p, b, taken, rfl, rfl⟩ := buddyAlloc_eq_ok.mp call
  obtain ⟨owned, lists, same, ok⟩ := pooled.pool
  obtain ⟨lists', next⟩ := BuddyInv.take ok small taken
  refine ⟨⟨rfl, pooled.word, pooled.count, (p, k) :: owned, lists', congrArg _ same, next⟩, ?_⟩
  rw [addr_pfn]
  exact (next.owned (p, k) List.mem_cons_self).2.2.1

theorem allocPage (pooled : Pooled ⟨s, live⟩) (call : Model.allocPage 0 s = .ok addr t) :
    Pooled ⟨t, (addr, 0) :: live⟩ ∧ ∃ f ∈ cached s 0, addr = PFN_TO_ADDR f := by
  obtain ⟨_, empty, _, rfl, rfl⟩ := allocPage_eq_ok.mp call
  obtain ⟨owned, lists, same, ok⟩ := pooled.pool
  have shape := cached_popped empty pooled.count
  have index := decr32_of_pos empty pooled.count
  have full := pooled.count
  change (s.caches 0).count ≤ PCPU_CACHE_SIZE at full
  rw [index]
  set f := (s.caches 0).objs ((s.caches 0).count - 1)
  have count : ((popped 0 (s.record (.cpu 0))).caches 0).count = (s.caches 0).count - 1 := by
    simp [popped, Pmm.setCount, Pmm.record, index]
  refine ⟨⟨pooled.unlocked, pooled.word, ?_, (f, 0) :: owned, lists, congrArg _ same, ?_⟩, f, ?_, rfl⟩
  · change ((popped 0 (s.record (.cpu 0))).caches 0).count ≤ _
    omega
  · refine BuddyInv.perm ok ?_
    change (owned ++ singles (cached s 0)).Perm ((f, 0) :: (owned ++ singles (cached (popped 0 s) 0)))
    rw [shape, singles_append, ← List.append_assoc]
    exact List.perm_append_singleton (f, 0) _
  · rw [shape]
    simp

/-- Both entry points hand a live block to `__buddy_merge_inner` in one locked section. -/
theorem merged (pooled : Pooled ⟨s, live⟩) (member : (addr, k) ∈ live)
    (room : ∀ aligned, Room s.nrPages (freeFrames s.buddy) ⟨ADDR_TO_PFN addr, k, aligned⟩) :
    Pooled ⟨{ lockedOnce s with buddy := buddyMergeInner (ADDR_TO_PFN addr) s.buddy }, live.filter fun e =>
      e.1 ≠ addr⟩ := by
  obtain ⟨p, owned, lists, rfl, inside, same, ok⟩ := pooled.owned_of_live member
  rw [addr_pfn] at room ⊢
  rw [BuddyInv.freeFrames_eq ok] at room
  obtain ⟨lists', next⟩ := BuddyInv.release ok (List.mem_append_left _ inside) room pooled.word
  rw [List.erase_append_left _ inside] at next
  refine ⟨rfl, pooled.word, pooled.count, owned.erase (p, k), lists', ?_, next⟩
  rw [same]
  exact filter_record pfn_addr_injective (BuddyInv.disjoint ok) inside

/-- A single page that goes back to its slot. -/
theorem returnPage (pooled : Pooled ⟨s, live⟩) (member : (addr, 0) ∈ live) (returns : Returns s addr) :
    Pooled ⟨pushed 0 (ADDR_TO_PFN addr) (s.record (.cpu 0)), live.filter fun e => e.1 ≠ addr⟩ := by
  obtain ⟨p, owned, lists, rfl, inside, same, ok⟩ := pooled.owned_of_live member
  obtain ⟨room, slot⟩ := returns
  rw [addr_pfn] at slot ⊢
  have index := incr32_of_lt pooled.count
  have count : ((pushed 0 p (s.record (.cpu 0))).caches 0).count = (s.caches 0).count + 1 := by
    simp [pushed, Pmm.setCount, Pmm.setObj, Pmm.record, index]
  refine ⟨pooled.unlocked, pooled.word, count.le.trans (by omega), owned.erase (p, 0), lists, ?_,
    BuddyInv.perm ok ?_⟩
  · rw [same]
    exact filter_record pfn_addr_injective (BuddyInv.disjoint ok) inside
  · have shape : cached (pushed 0 p (s.record (.cpu 0))) 0 =
        cached s 0 ++ [(s.caches 0).objs (s.caches 0).count] :=
      cached_pushed (s := s.record (.cpu 0)) pooled.count p
    change (owned ++ singles (cached s 0)).Perm
      (owned.erase (p, 0) ++ singles (cached (pushed 0 p (s.record (.cpu 0))) 0))
    rw [shape, slot, singles_append, ← List.append_assoc]
    exact ((List.perm_cons_erase inside).append_right _).trans (List.perm_append_singleton (p, 0) _).symm

/-- What `pfree` does with a live block. -/
theorem pfree_cases (pooled : Pooled ⟨s, live⟩) (member : (addr, k) ∈ live) (returns : k = 0 → Returns s addr)
    (call : Model.pfree 0 addr s = .ok () t) :
    (k = 0 ∧ t = pushed 0 (ADDR_TO_PFN addr) (s.record (.cpu 0))) ∨
      (k ≠ 0 ∧ t = { lockedOnce s with buddy := buddyMergeInner (ADDR_TO_PFN addr) s.buddy }) := by
  have order := pooled.order_of_live member
  have unlocked := pooled.unlocked
  change s.lock = false at unlocked
  by_cases single : k = 0
  · rw [pfree_of_room (order.trans single) (by decide) (returns single).1] at call
    obtain ⟨-, rfl⟩ := EStateM.Result.ok.inj call
    exact Or.inl ⟨single, rfl⟩
  · rw [pfree_eq] at call
    simp only [order, ne_eq, single, not_false_eq_true, if_true, unlocked, Bool.false_eq_true, if_false] at call
    obtain ⟨-, rfl⟩ := EStateM.Result.ok.inj call
    exact Or.inr ⟨single, rfl⟩

end Pooled

end Pke.Proofs
