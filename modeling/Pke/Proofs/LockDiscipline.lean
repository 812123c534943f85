import Pke.Proofs.PageCache

/-! # The lock discipline of the allocator

Each entry point is called by one hart in a state in which `buddy_lock` is free. `buddy_alloc`,
`buddy_free` and `pfree` enter and leave the lock in pairs. The refill of `alloc_page` calls the
locked entry point `buddy_alloc` while it holds the lock itself, so a call that finds its cache
empty never returns. A call that leaves the slots of its cache overwrites `count` or worse, and is
no returning call either.
-/

namespace Pke.Proofs

open Pke.Lib Pke.Model

/-- The entry points of the allocator. -/
inductive PmmCall where
  | buddyAlloc (order : ℕ)
  | buddyFree (addr : ℕ)
  | allocPage
  | pfree (addr : ℕ)
deriving DecidableEq

/-- A call on the hart with the id `tp`, without its return value. -/
def PmmCall.run (tp : ℕ) : PmmCall → Exec Pmm Unit
  | .buddyAlloc order => (fun _ => ()) <$> Model.buddyAlloc order
  | .buddyFree addr => Model.buddyFree addr
  | .allocPage => (fun _ => ()) <$> Model.allocPage tp
  | .pfree addr => Model.pfree tp addr

/-- At least `n` single frames can be supplied. -/
def Supplies : ℕ → Buddy → Prop
  | 0, _ => True
  | n + 1, b => ∃ p b', buddyTake 0 b = some (p, b') ∧ Supplies n (markTaken p b')

/-- The request is a valid one and the memory for it is there. -/
def Serviceable (tp : ℕ) (s : Pmm) : PmmCall → Prop
  | .buddyAlloc order => order < MAX_ORDER ∧ ∃ p b, buddyTake order s.buddy = some (p, b)
  | .buddyFree addr => s.buddyStart ≤ addr ∨ addr < s.buddyEnd
  | .allocPage => (s.caches tp).count = 0 → Supplies 16 s.buddy
  | .pfree _ => True

/-- The lock operations of a part of the history. -/
def lockEvents (events : List PmmEvent) : List PmmEvent := events.filter fun e => e = .acquire ∨ e = .release

/-- Every acquire is followed by its release (the history is newest first). -/
def paired : List PmmEvent → Bool
  | [] => true
  | .release :: .acquire :: rest => paired rest
  | _ => false

/-- The discipline: the hart never waits for a lock that it holds, acquires and releases come in
pairs, the lock is free at the end, and a serviceable call returns. -/
structure LockDiscipline (tp : ℕ) (s : Pmm) (call : PmmCall) : Prop where
  entered : ∀ t, call.run tp s ≠ .error .spinsForever t
  matched : ∃ new, (finalState (call.run tp s)).events = new ++ s.events ∧ paired (lockEvents new) = true
  released : (finalState (call.run tp s)).lock = false
  returns : Serviceable tp s call → ∃ t, call.run tp s = .ok () t

private theorem drained_events (id n : ℕ) (s : Pmm) : (drained id n s).lock = s.lock ∧
    ∃ new, (drained id n s).events = new ++ s.events ∧ lockEvents new = [] := by
  induction n generalizing s with
  | zero => exact ⟨rfl, [], rfl, rfl⟩
  | succ n ih =>
    obtain ⟨lock, new, events, clean⟩ :=
      ih { popped id s with buddy := buddyMergeInner ((s.caches id).objs (decr32 (s.caches id).count)) s.buddy }
    refine ⟨lock, new ++ [.objs (decr32 (s.caches id).count)], ?_, ?_⟩
    · rw [drained, events, List.append_assoc]
      rfl
    · rw [lockEvents, List.filter_append]
      simpa [lockEvents] using clean

section

variable {tp : ℕ} {s : Pmm}

private theorem buddyAlloc_discipline (unlocked : s.lock = false)
    (order : ℕ) : LockDiscipline tp s (.buddyAlloc order) := by
  have run : (PmmCall.buddyAlloc order).run tp s =
    ((fun _ => ()) <$> Model.buddyAlloc order : Exec Pmm Unit) s := rfl
  simp only [map_apply, buddyAlloc_eq, unlocked, Bool.false_eq_true, if_false] at run
  by_cases small : order < MAX_ORDER
  · cases taken : buddyTake order s.buddy with
    | none =>
      simp only [small, if_true, taken] at run
      refine ⟨by simp [run], ⟨[.release,
        .acquire], by simp [run, lockedOnce], rfl⟩, by simp [run, lockedOnce], ?_⟩
      rintro ⟨_, _, _, other⟩
      rw [taken] at other
      exact absurd other (by simp)
    | some result =>
      simp only [small, if_true, taken] at run
      exact ⟨by simp [run], ⟨[.release, .acquire], by simp [run, lockedOnce], rfl⟩, by simp [run, lockedOnce],
        fun _ => ⟨_, run⟩⟩
  · simp only [small, if_false] at run
    exact ⟨by simp [run], ⟨[], by simp [run], rfl⟩, by simp [run, unlocked],
      fun possible => absurd possible.1 small⟩

private theorem buddyFree_discipline (unlocked : s.lock = false)
    (addr : ℕ) : LockDiscipline tp s (.buddyFree addr) := by
  have run : (PmmCall.buddyFree addr).run tp s = Model.buddyFree addr s := rfl
  simp only [buddyFree_eq, unlocked, Bool.false_eq_true, if_false] at run
  by_cases inside : s.buddyStart ≤ addr ∨ addr < s.buddyEnd
  · simp only [inside, if_true] at run
    exact ⟨by simp [run], ⟨[.release, .acquire], by simp [run, lockedOnce], rfl⟩, by simp [run, lockedOnce],
      fun _ => ⟨_, run⟩⟩
  · simp only [inside, if_false] at run
    exact ⟨by simp [run], ⟨[], by simp [run], rfl⟩, by simp [run, unlocked],
      fun possible => absurd possible inside⟩

/-- The accesses of the call stay inside `pcpu_caches` and `objs`, and an `alloc_page` finds a live
slot: the condition of the discipline. On an empty cache `count - 1` is the largest word. -/
def Permitted (tp : ℕ) (s : Pmm) : PmmCall → Prop
  | .allocPage => tp < NCPU ∧ decr32 (s.caches tp).count < PCPU_CACHE_SIZE
  | .pfree addr => (s.buddy.pages (ADDR_TO_PFN addr)).order = 0 →
      tp < NCPU ∧ ((s.caches tp).count = PCPU_CACHE_SIZE ∨ incr32 (s.caches tp).count < PCPU_CACHE_SIZE)
  | _ => True

instance (tp : ℕ) (s : Pmm) (call : PmmCall) : Decidable (Permitted tp s call) :=
  match call with
  | .buddyAlloc _ => .isTrue trivial
  | .buddyFree _ => .isTrue trivial
  | .allocPage => inferInstanceAs (Decidable (_ ∧ _))
  | .pfree _ => inferInstanceAs (Decidable (_ → _ ∧ (_ ∨ _)))

theorem Permitted.nonempty (permitted : Permitted tp s .allocPage) : (s.caches tp).count ≠ 0 := by
  intro empty
  have inside := permitted.2
  rw [empty] at inside
  exact absurd inside (by decide)

private theorem pfree_pushed_discipline (unlocked : s.lock = false) {addr : ℕ}
    (run : (PmmCall.pfree addr).run tp s = .ok () (pushed tp (ADDR_TO_PFN addr) (s.record (.cpu tp)))) :
    LockDiscipline tp s (.pfree addr) := by
  refine ⟨by simp [run], ⟨[.objs (incr32 (s.caches tp).count), .cpu tp], ?_, rfl⟩,
    by simp [run, pushed, Pmm.setCount, Pmm.setObj, Pmm.record, unlocked], fun _ => ⟨_, run⟩⟩
  simp [run, pushed, Pmm.setCount, Pmm.setObj, Pmm.record]

private theorem pfree_drained_discipline {addr : ℕ}
    (run : (PmmCall.pfree addr).run tp s = .ok () (pushed tp (ADDR_TO_PFN addr)
      { (drained tp 16 { (s.record (.cpu tp)).record .acquire with lock := true }).record .release
        with lock := false })) :
    LockDiscipline tp s (.pfree addr) := by
  obtain ⟨_, new, events, clean⟩ := drained_events tp 16
    { (s.record (.cpu tp)).record .acquire with lock := true }
  generalize drained tp 16 { (s.record (.cpu tp)).record .acquire with lock := true } = mid at run events
  refine ⟨by simp [run], ⟨.objs (incr32 (mid.caches tp).count) :: .release ::
    (new ++ [.acquire, .cpu tp]), ?_, ?_⟩, by simp [run, pushed, Pmm.setCount, Pmm.setObj,
    Pmm.record], fun _ => ⟨_, run⟩⟩
  · simp [run, pushed, Pmm.setCount, Pmm.setObj, Pmm.record, events]
  · have only : lockEvents (.objs (incr32 (mid.caches tp).count) :: .release :: (new ++ [.acquire, .cpu tp])) =
        [.release] ++ (lockEvents new ++ [.acquire]) := by simp [lockEvents]
    rw [only, clean]
    rfl

private theorem pfree_discipline (unlocked : s.lock = false) {addr : ℕ}
    (permitted : Permitted tp s (.pfree addr)) :
    LockDiscipline tp s (.pfree addr) := by
  have run : (PmmCall.pfree addr).run tp s = Model.pfree tp addr s := rfl
  simp only [pfree_eq, unlocked, Bool.false_eq_true, if_false] at run
  by_cases single : (s.buddy.pages (ADDR_TO_PFN addr)).order = 0
  · obtain ⟨hart, room⟩ := permitted single
    rw [if_neg (not_not.mpr single), if_pos hart] at run
    by_cases full : (s.caches tp).count = PCPU_CACHE_SIZE
    · rw [if_pos full] at run
      exact pfree_drained_discipline run
    · rw [if_neg full, if_pos (room.resolve_left full)] at run
      exact pfree_pushed_discipline unlocked run
  · rw [if_pos single] at run
    exact ⟨by simp [run], ⟨[.release, .acquire], by simp [run, lockedOnce], rfl⟩, by simp [run, lockedOnce],
      fun _ => ⟨_, run⟩⟩

private theorem allocPage_discipline (unlocked : s.lock = false) (permitted : Permitted tp s .allocPage) :
    LockDiscipline tp s .allocPage := by
  have run : PmmCall.allocPage.run tp s = .ok () (popped tp (s.record (.cpu tp))) := by
    change ((fun _ => ()) <$> Model.allocPage tp) s = _
    rw [map_apply, allocPage_eq_ok.mpr ⟨permitted.1, permitted.nonempty, permitted.2, rfl, rfl⟩]
  refine ⟨by simp [run], ⟨[.objs (decr32 (s.caches tp).count), .cpu tp], ?_, rfl⟩, ?_, fun _ => ⟨_, run⟩⟩
  · simp [run, popped, Pmm.setCount, Pmm.record]
  · simpa [run, popped, Pmm.setCount, Pmm.record] using unlocked

/-- A call that returns used only what is there. -/
theorem Permitted.of_returns {t : Pmm} {call : PmmCall} (returns : call.run tp s = .ok () t) :
    Permitted tp s call := by
  cases call with
  | buddyAlloc order => trivial
  | buddyFree addr => trivial
  | allocPage =>
    change ((fun _ => ()) <$> Model.allocPage tp) s = _ at returns
    rw [map_apply] at returns
    cases result : Model.allocPage tp s with
    | error e u =>
      rw [result] at returns
      cases returns
    | ok addr u =>
      obtain ⟨hart, _, inside, _⟩ := allocPage_eq_ok.mp result
      exact ⟨hart, inside⟩
  | pfree addr =>
    intro single
    change Model.pfree tp addr s = _ at returns
    rw [pfree_eq] at returns
    simp only [single, ne_eq, not_true_eq_false, if_false] at returns
    split_ifs at returns with hart full held room
    · exact ⟨hart, .inl full⟩
    · exact ⟨hart, .inr room⟩

theorem discipline_of_permitted (unlocked : s.lock = false) {call : PmmCall} (permitted : Permitted tp s call) :
    LockDiscipline tp s call := by
  cases call with
  | buddyAlloc order => exact buddyAlloc_discipline unlocked order
  | buddyFree addr => exact buddyFree_discipline unlocked addr
  | allocPage => exact allocPage_discipline unlocked permitted
  | pfree addr => exact pfree_discipline unlocked permitted

end

/-- One returning call. -/
def CallStep (tp : ℕ) (s : Pmm) (call : PmmCall) (t : Pmm) : Prop := call.run tp s = .ok () t

theorem callStep_unlocked {tp : ℕ} {s t : Pmm} {call : PmmCall} (unlocked : s.lock = false)
    (step : CallStep tp s call t) : t.lock = false := by
  have discipline : LockDiscipline tp s call := discipline_of_permitted unlocked (.of_returns step)
  simpa [show call.run tp s = _ from step] using discipline.released

end Pke.Proofs
