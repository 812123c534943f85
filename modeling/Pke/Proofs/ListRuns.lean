import Pke.Model.ListCalls
import Pke.Proofs.BuddyRuns

/-! # The pointers refine the lists

A call on the pointers of `free_area` is allowed if the node it adds is on no list, the list it pops
has a node, and the node it deletes is on a list. Every run of allowed calls from looped sentinels
refines the same calls on sequences, where they are cons, uncons and removal. The functions of the
buddy system make allowed calls only: each of them takes the pointers through the calls that
`initCalls`, `takeCalls` and `freeCalls` list.
-/

namespace Pke.Proofs

open Pke.Lib Pke.Model

/-- What the callers of the list functions see to. -/
def Allowed (l : Links Node) : ListCall → Prop
  | .add order node => order < MAX_ORDER ∧ ∃ f, node = .page f ∧ ∀ i < MAX_ORDER, ¬ l.Reaches (.area i) node
  | .pop order _ => order < MAX_ORDER ∧ l.next (.area order) ≠ .area order
  | .del node => ∃ f, node = .page f ∧ ∃ i < MAX_ORDER, l.Reaches (.area i) node

/-- An allowed call on the pointers. -/
abbrev PointerStep : Links Node → ListCall → Links Node → Prop := Guarded Allowed ListCall.Performs

/-- The same calls on sequences of frames. -/
inductive SequenceStep : (ℕ → List ℕ) → ListCall → (ℕ → List ℕ) → Prop
  | add {lists : ℕ → List ℕ} {i f : ℕ} (small : i < MAX_ORDER) (fresh : ∀ j < MAX_ORDER, f ∉ lists j) :
      SequenceStep lists (.add i (.page f)) (Function.update lists i (f :: lists i))
  | pop {lists : ℕ → List ℕ} {i f : ℕ} {rest : List ℕ} (small : i < MAX_ORDER) (shape : lists i = f :: rest) :
      SequenceStep lists (.pop i (.page f)) (Function.update lists i rest)
  | del {lists : ℕ → List ℕ} {i f : ℕ} (small : i < MAX_ORDER) (member : f ∈ lists i) :
      SequenceStep lists (.del (.page f)) (Function.update lists i ((lists i).erase f))

/-- The pointers are circular lists with these members. -/
structure Circular (l : Links Node) (lists : ℕ → List ℕ) : Prop where
  path : ∀ i < MAX_ORDER, Lib.Linked l (.area i) ((lists i).map .page) (.area i)
  inverse : ∀ i < MAX_ORDER, ∀ x ∈ Node.area i :: (lists i).map .page, l.prev (l.next x) = x ∧
    l.next (l.prev x) = x
  nodup : ∀ i < MAX_ORDER, (lists i).Nodup
  apart : ∀ i < MAX_ORDER, ∀ j < MAX_ORDER, i ≠ j → ∀ f ∈ lists i, f ∉ lists j
  empty : ∀ i < MAX_ORDER, l.next (.area i) = .area i ↔ lists i = []

namespace FreeLists

variable {b : Buddy} {pages : ℕ → Page} {l l' : Links Node} {lists : ℕ → List ℕ} {call : ListCall} {i f p : ℕ}
  {rest : List ℕ}

theorem circular (free : FreeLists b lists) : Circular b.links lists where
  path := free.linked
  inverse _ small _ member := Rings.inverse free small member
  nodup _ small := free.nodup small
  apart _ iSmall _ jSmall different _ member := free.not_mem_of_mem iSmall jSmall different member
  empty _ small := by rw [Rings.next_head_eq_iff free small, List.map_eq_nil_iff]

/-- A descriptor can be reached from a sentinel exactly if it is on the list. -/
theorem reaches_iff (free : FreeLists b lists) (small : i < MAX_ORDER) :
    b.links.Reaches (.area i) (.page f) ↔ f ∈ lists i := by
  rw [Rings.reaches_iff free small]
  simp

theorem addStep (free : FreeLists b lists) (small : i < MAX_ORDER) (fresh : ∀ j < MAX_ORDER, f ∉ lists j) :
    PointerStep b.links (.add i (.page f)) (b.listAdd i f).links := by
  refine ⟨⟨small, f, rfl, fun j jSmall path => ?_⟩, rfl⟩
  exact fresh j jSmall ((free.reaches_iff jSmall).mp path)

private theorem popStep (free : FreeLists b lists) (small : i < MAX_ORDER) (shape : lists i = f :: rest) :
    PointerStep b.links (.pop i (.page f)) (b.links.pop (.area i)).2 := by
  refine ⟨⟨small, fun same => ?_⟩, Prod.ext (free.pop small shape).1 rfl⟩
  rw [Rings.next_head_eq_iff free small, shape] at same
  cases same

private theorem delStep (free : FreeLists b lists) (small : i < MAX_ORDER) (member : f ∈ lists i) :
    PointerStep b.links (.del (.page f)) (b.listDel f).links :=
  ⟨⟨f, rfl, i, small, (free.reaches_iff small).mpr member⟩, rfl⟩

/-- Every allowed call is one on the sequences. -/
theorem simulates (free : FreeLists ⟨pages, l⟩ lists) (step : PointerStep l call l') :
    ∃ lists', SequenceStep lists call lists' ∧ FreeLists ⟨pages, l'⟩ lists' := by
  obtain ⟨allowed, performs⟩ := step
  cases call with
  | add i node =>
    obtain ⟨small, f, rfl, unreached⟩ := allowed
    obtain rfl : _ = l' := performs
    have fresh : ∀ j < MAX_ORDER, f ∉ lists j :=
      fun j jSmall member => unreached j jSmall ((free.reaches_iff jSmall).mpr member)
    exact ⟨_, .add small fresh, free.listAdd small fresh⟩
  | pop i node =>
    obtain ⟨small, nonempty⟩ := allowed
    have filled : lists i ≠ [] := fun empty => nonempty ((free.circular.empty i small).mpr empty)
    obtain ⟨f, rest, shape⟩ := List.exists_cons_of_ne_nil filled
    obtain ⟨first, popped⟩ := free.pop small shape
    have result : l.pop (.area i) = (node, l') := performs
    rw [result] at first popped
    obtain rfl : node = .page f := first
    exact ⟨_, .pop small shape, popped⟩
  | del node =>
    obtain ⟨f, rfl, i, small, path⟩ := allowed
    obtain rfl : _ = l' := performs
    have member := (free.reaches_iff small).mp path
    exact ⟨_, .del small member, free.listDel small member⟩

end FreeLists

/-- Every run of allowed calls from looped sentinels refines the calls on sequences. -/
theorem pointers_refine {l l' : Links Node} {calls : List ListCall}
    (run : Run PointerStep (initAreas l) calls l') :
    ∃ lists, Run SequenceStep (fun _ => []) calls lists ∧ Circular l' lists := by
  have start : FreeLists ⟨fun _ => reservedPage, initAreas l⟩ fun _ => [] := initAreas_rings l
  have match_step : ∀ l call l' lists, FreeLists ⟨fun _ => reservedPage, l⟩ lists → PointerStep l call l' →
      ∃ lists', SequenceStep lists call lists' ∧ FreeLists ⟨fun _ => reservedPage, l'⟩ lists' :=
    fun _ _ _ _ free step => free.simulates step
  obtain ⟨lists, sequences, free⟩ := run.simulates match_step start
  exact ⟨lists, sequences, free.circular⟩

section Split

variable {b : Buddy} {lists : ℕ → List ℕ} {p : ℕ} {rest : List ℕ}

/-- The three calls of one split. -/
private theorem splitStep_run {i : ℕ} (free : FreeLists b lists) (bound : i + 1 < MAX_ORDER)
    (shape : lists (i + 1) = p :: rest) (fresh : ∀ j < MAX_ORDER, p + 2 ^ i ∉ lists j) :
    Run PointerStep b.links [.pop (i + 1) (.page p), .add i (.page (p + 2 ^ i)), .add i (.page p)]
      (splitStep (i + 1) b).links := by
  have positive : 0 < 2 ^ i := by positivity
  have small : i < MAX_ORDER := by omega
  obtain ⟨first, popped⟩ := free.pop bound shape
  have stillFresh := pop_not_mem bound shape fresh
  have upper := popped.listAdd small stillFresh
  have lower := add_not_mem (i := i) (by omega : p ≠ p + 2 ^ i) (free.pop_fresh bound shape)
  have last : ((({ b with links := (b.links.pop (.area (i + 1))).2 } : Buddy).listAdd i
    (p + 2 ^ i)).listAdd i p).links =
      (splitStep (i + 1) b).links := by
    simp only [splitStep, first, Node.pfn, Buddy.setPage, Buddy.listAdd, Nat.add_sub_cancel]
  rw [← last]
  exact .cons (free.popStep bound shape)
    (.cons (popped.addStep small stillFresh) (.cons (upper.addStep small lower) (.nil _)))

/-- The calls of the split loop and of the pop behind it. -/
private theorem split_run {k : ℕ} :
    ∀ (j : ℕ) (b : Buddy) (lists : ℕ → List ℕ) (rest : List ℕ), k ≤ j → j < MAX_ORDER → FreeLists b lists →
      lists j = p :: rest → (∀ i, k ≤ i → i < j → ∀ m < MAX_ORDER, p + 2 ^ i ∉ lists m) →
      Run PointerStep b.links (splitCalls j k b ++ [.pop k ((buddySplit j k b).links.next (.area k))])
        ((buddySplit j k b).links.pop (.area k)).2 := by
  have last : ∀ (b : Buddy) (lists : ℕ → List ℕ) (rest : List ℕ), k < MAX_ORDER → FreeLists b lists →
      lists k = p :: rest →
      Run PointerStep b.links [.pop k (b.links.next (.area k))] (b.links.pop (.area k)).2 := by
    intro b lists rest bound free shape
    rw [free.next_head bound (by rw [shape]; rfl)]
    exact .cons (free.popStep bound shape) (.nil _)
  intro j
  induction j with
  | zero =>
    intro b lists rest le bound free shape _
    obtain rfl : k = 0 := by omega
    exact last b lists rest bound free shape
  | succ j ih =>
    intro b lists rest le bound free shape fresh
    rcases Nat.lt_or_ge k (j + 1) with lt | ge
    · have halves := fresh j (by omega) (by omega)
      obtain ⟨stepFree, _⟩ := splitStep_spec free bound shape halves
      have later := ih (splitStep (j + 1) b) _ ((p + 2 ^ j) :: lists j) (by omega) (by omega) stepFree (by simp)
        (split_fresh bound shape fresh)
      have first : b.links.next (.area (j + 1)) = .page p := free.next_head bound (by rw [shape]; rfl)
      rw [splitCalls, if_pos lt, buddySplit, if_pos lt, first]
      exact (splitStep_run free bound shape halves).append later
    · obtain rfl : k = j + 1 := by omega
      rw [splitCalls, if_neg (by omega), buddySplit, if_neg (by omega)]
      exact last b lists rest bound free shape

end Split

section

variable {nr lo hi : ℕ} {b b' : Buddy} {owned : List (ℕ × ℕ)} {lists : ℕ → List ℕ} {k p : ℕ}

/-- The calls of `buddy_alloc`. -/
theorem BuddyInv.take_run (inv : BuddyInv nr lo hi b owned lists) (taken : buddyTake k b = some (p, b')) :
    Run PointerStep b.links (takeCalls k b) b'.links := by
  obtain ⟨j, found, result⟩ := Option.map_eq_some_iff.mp taken
  obtain ⟨rfl, rfl⟩ := Prod.mk.inj result
  obtain ⟨le, bound, nonempty, _⟩ := inv.free.findArea_eq_some found
  obtain ⟨q, rest, shape⟩ := List.exists_cons_of_ne_nil nonempty
  have listed : q ∈ lists j := by rw [shape]; exact List.mem_cons_self
  rw [takeCalls, found, buddySplit_guard b le]
  exact split_run j b lists rest le bound inv.free shape fun i _ below m mBound =>
    inv.half_not_listed bound listed below mBound

theorem mergeCalls_stop {m : Block} (test : ¬ FreeHead m b) (fuel : ℕ) :
    mergeCalls (fuel + 1) m.start m.order b = [.add m.order (.page m.start)] := by
  have start : m.start ^^^ 2 ^ m.order = m.buddy.start := rfl
  simp only [mergeCalls, start]
  rw [if_pos (by unfold FreeHead at test; tauto)]

theorem mergeCalls_absorb {m : Block} (order : m.order < MAX_ORDER - 1) (bound : m.start < WORD)
    (test : FreeHead m b) (fuel : ℕ) : mergeCalls (fuel + 1) m.start m.order b =
      .del (.page m.buddy.start) :: mergeCalls fuel m.parent.start m.parent.order (absorbed m b) := by
  have start : m.start ^^^ 2 ^ m.order = m.buddy.start := rfl
  obtain ⟨parent, fits⟩ := merge_parent order bound
  simp only [mergeCalls, start, parent, fits, Block.parent_order]
  rw [if_neg (by unfold FreeHead at test; tauto)]
  rfl

/-- The calls of the merge loop and of the insertion behind it. -/
theorem Merging.run {S : Set ℕ} {a : Block} {old : ℕ → Page} (apart : ∀ x ∈ a.frames, x ∉ S)
    (room : Room nr S a) (word : nr ≤ WORD) :
    ∀ (fuel : ℕ) (m : Block) (b : Buddy) (lists : ℕ → List ℕ), Merging nr S a old m b lists →
      fuel = MAX_ORDER - 1 - m.order → ∀ pfn order c, mergeLoop fuel m.start m.order b = (pfn, order, c) →
      Run PointerStep b.links (mergeCalls fuel m.start m.order b) (c.listAdd order pfn).links := by
  have last : ∀ (m : Block) (b : Buddy) (lists : ℕ → List ℕ), Merging nr S a old m b lists →
      Run PointerStep b.links [.add m.order (.page m.start)] (b.listAdd m.order m.start).links := by
    intro m b lists merging
    have small : m.order < MAX_ORDER := Nat.lt_of_le_pred (by decide) merging.order_le
    exact .cons (merging.free.addStep small fun j bound => merging.start_not_mem apart bound) (.nil _)
  intro fuel
  induction fuel with
  | zero =>
    intro m b lists merging _ pfn order c result
    obtain ⟨rfl, rfl, rfl⟩ : m.start = pfn ∧ m.order = order ∧ b = c := by simpa [mergeLoop] using result
    exact last m b lists merging
  | succ fuel ih =>
    intro m b lists merging enough pfn order c result
    have below : m.order < MAX_ORDER - 1 := by omega
    have bound := merging.bound.trans_le word
    by_cases test : FreeHead m b
    · have listed := merging.mem_of_freeHead (room m merging.inner merging.outer below) test
      rw [mergeLoop_absorb below bound test] at result
      have later := ih m.parent _ _ (merging.absorb apart below listed) (by simp; omega) pfn order c result
      rw [mergeCalls_absorb below bound test]
      exact .cons (merging.free.delStep (by omega) listed) later
    · rw [mergeLoop_stop test] at result
      obtain ⟨rfl, rfl, rfl⟩ : m.start = pfn ∧ m.order = order ∧ b = c := by simpa using result
      rw [mergeCalls_stop test]
      exact last m b lists merging

/-- The calls of `__buddy_merge_inner` on a live block. -/
theorem BuddyInv.merge_run (inv : BuddyInv nr lo hi b owned lists) (member : (p, k) ∈ owned)
    (whole : 2 ^ (MAX_ORDER - 1) ∣ nr) (word : nr ≤ WORD) :
    Run PointerStep b.links (freeCalls p b) (buddyMergeInner p b).links := by
  obtain ⟨_, aligned, _, order⟩ := inv.owned _ member
  dsimp only at aligned order
  obtain ⟨pfn, last, c, result⟩ : ∃ pfn last c, mergeLoop (MAX_ORDER - 1 - k) p k
      (b.setPage p fun s => { s with isFree := false, isHead := false, alloc := 0 }) = (pfn, last, c) :=
      ⟨_, _, _, rfl⟩
  have apart : ∀ x ∈ Block.frames ⟨p, k, aligned⟩, x ∉ unowned lo hi owned := live_apart member
  have run := Merging.run apart (Room.of_whole whole (inv.release_lt member aligned)) word
    (MAX_ORDER - 1 - k) ⟨p, k, aligned⟩ _ lists (inv.merging member aligned) rfl pfn last c result
  simp only [freeCalls, buddyMergeInner, order, result]
  exact run

/-- The calls of the scan in `buddy_system_init`. -/
theorem Scanned.run (bound : hi < WORD) : ∀ (fuel c : ℕ) (b : Buddy) (lists : ℕ → List ℕ),
    Scanned nr lo hi c b lists →
    Run PointerStep b.links (initLoopCalls (PFN_TO_ADDR hi) fuel (PFN_TO_ADDR c))
      (buddyInitLoop (PFN_TO_ADDR hi) fuel (PFN_TO_ADDR c) b).links := by
  intro fuel
  induction fuel with
  | zero => exact fun _ _ _ _ => .nil _
  | succ fuel ih =>
    intro c b lists scanned
    rw [initLoopCalls, buddyInitLoop]
    split
    next test =>
      have below : c < hi := by
        simp only [PFN_TO_ADDR, PGSIZE] at test
        omega
      have small := (initOrder_spec below bound).1
      have advance : PFN_TO_ADDR (c + 2 ^ initOrder (PFN_TO_ADDR c) (PFN_TO_ADDR hi)) =
          PFN_TO_ADDR c + 2 ^ initOrder (PFN_TO_ADDR c) (PFN_TO_ADDR hi) * PGSIZE := by
        simp only [PFN_TO_ADDR]
        ring
      have later := ih _ _ _ (scanned.place below bound)
      rw [advance] at later
      simp only [addr_pfn]
      exact .cons (scanned.free.addStep small scanned.fresh) later
    next => exact .nil _

end

/-- The calls of `buddy_system_init`, on descriptors without free heads. -/
private theorem buddySystemInit_run {nr start stop : ℕ} {b : Buddy}
    (cleared : ∀ f < nr, (b.pages f).isFree = false) (low : DRAM_BASE ≤ start) (low' : DRAM_BASE ≤ stop)
    (high : stop ≤ DRAM_BASE + nr * PGSIZE) (bound : nr < WORD) :
    Run PointerStep (initAreas b.links) (initCalls start stop) (buddySystemInit start stop b).links := by
  have range := lastFrame_le low' high
  rw [buddySystemInit, initCalls, initFuel_eq low low', roundup_eq_firstFrame low, rounddown_eq_lastFrame low']
  rcases Nat.lt_or_ge (lastFrame stop) (firstFrame start) with reversed | ordered
  · rw [Nat.sub_eq_zero_of_le reversed.le]
    exact .nil _
  · exact Scanned.run (range.trans_lt bound) _ _ _ _ (Scanned.start cleared ordered)

/-- The calls on the free lists in a call of `buddy_alloc` or `buddy_free`. -/
def listCalls (b : Buddy) : BuddyCall → List ListCall
  | .alloc order => takeCalls order b
  | .free addr => freeCalls (ADDR_TO_PFN addr) b

private theorem RunInv.listCalls_run {h h' : Holding} {call : BuddyCall} (inv : RunInv h)
    (step : BuddyStep h call h') :
    Run PointerStep h.pmm.buddy.links (listCalls h.pmm.buddy call) h'.pmm.buddy.links := by
  obtain ⟨whole, word, _, owned, lists, same, ok⟩ := inv
  cases step with
  | alloc small call =>
    obtain ⟨_, _, p, b, taken, rfl, rfl⟩ := buddyAlloc_eq_ok.mp call
    have run := BuddyInv.take_run ok taken
    exact run
  | @free s _ live k addr member call =>
    obtain ⟨_, _, rfl⟩ := buddyFree_eq_ok.mp call
    change live = addresses owned at same
    obtain ⟨⟨p, order⟩, inside, equal⟩ := List.mem_map.mp (same ▸ member)
    obtain ⟨rfl, rfl⟩ := Prod.mk.inj equal
    rw [listCalls]
    simp only [addr_pfn]
    exact BuddyInv.merge_run ok inside whole word

/-- What `buddy_system_init` calls, whatever the pointers held before. -/
theorem SetUp.initCalls_run {s : Pmm} (start : SetUp s) :
    ∃ l, Run PointerStep (initAreas l) (initCalls s.buddyStart s.buddyEnd) s.buddy.links := by
  obtain ⟨kernelEnd, memSize, before, image, ok⟩ := start.called
  obtain ⟨cap, low, above, below, cleared, zeroed, scan⟩ := pmmSetup_calls image ok
  rw [scan]
  exact ⟨cleared.links, buddySystemInit_run zeroed low above below (by simp only [WORD]; omega)⟩

/-- The calls of a whole history are one run. -/
private theorem SetUp.pointers_run {s : Pmm} (start : SetUp s) {calls : List BuddyCall} {h : Holding}
    (run : Run BuddyStep ⟨s, []⟩ calls h) :
    ∃ l listed, Run PointerStep (initAreas l) listed h.pmm.buddy.links := by
  obtain ⟨l, first⟩ := start.initCalls_run
  have keep : ∀ h call h', (RunInv h ∧ ∃ listed, Run PointerStep (initAreas l) listed h.pmm.buddy.links) →
      BuddyStep h call h' → RunInv h' ∧ ∃ listed, Run PointerStep (initAreas l) listed h'.pmm.buddy.links := by
    rintro h call h' ⟨inv, listed, before⟩ step
    exact ⟨runInv_step inv step, _, before.append (inv.listCalls_run step)⟩
  obtain ⟨_, listed, whole⟩ := run.invariant keep ⟨start.runInv, _, first⟩
  exact ⟨l, listed, whole⟩

/-- The pointers of the free lists refine sequences in every run of allowed calls;
`buddy_system_init`, `buddy_alloc` and `buddy_free` make allowed calls only, in every history, so
this holds of every state of the buddy system. -/
theorem free_lists_refine :
    (∀ l calls l', Run PointerStep (initAreas l) calls l' →
      ∃ lists, Run SequenceStep (fun _ => []) calls lists ∧ Circular l' lists) ∧
    (∀ s, SetUp s → (∃ l, Run PointerStep (initAreas l) (initCalls s.buddyStart s.buddyEnd) s.buddy.links) ∧
      ∀ calls h, Run BuddyStep ⟨s, []⟩ calls h →
        (∀ call h', BuddyStep h call h' →
          Run PointerStep h.pmm.buddy.links (listCalls h.pmm.buddy call) h'.pmm.buddy.links) ∧
        ∃ l listed lists, Run PointerStep (initAreas l) listed h.pmm.buddy.links ∧
          Run SequenceStep (fun _ => []) listed lists ∧ Circular h.pmm.buddy.links lists) := by
  refine ⟨fun _ _ _ run => pointers_refine run,
    fun s start => ⟨start.initCalls_run, fun calls h run => ⟨?_, ?_⟩⟩⟩
  · intro call h' step
    exact (runInv_of_run start run).listCalls_run step
  · obtain ⟨l, listed, pointers⟩ := start.pointers_run run
    obtain ⟨lists, sequences, circular⟩ := pointers_refine pointers
    exact ⟨l, listed, lists, pointers, sequences, circular⟩

/-- Two pages are allocated and given back; the second release unlinks the block of the first one. -/
theorem free_lists_refine_small :
    ∃ h h', Run BuddyStep ⟨smallSetup, []⟩ [.alloc 0, .alloc 0, .free 0x80016000] h ∧
      BuddyStep h (.free 0x80017000) h' ∧ .del (.page 22) ∈ listCalls h.pmm.buddy (.free 0x80017000) ∧
      Run PointerStep h.pmm.buddy.links (listCalls h.pmm.buddy (.free 0x80017000)) h'.pmm.buddy.links ∧
      ∃ l listed lists, Run PointerStep (initAreas l) listed h'.pmm.buddy.links ∧
        Run SequenceStep (fun _ => []) listed lists ∧ Circular h'.pmm.buddy.links lists := by
  have checked : (evalRun nextHolding ⟨smallSetup, []⟩ [.alloc 0, .alloc 0, .free 0x80016000]).any (fun h =>
      decide (.del (.page 22) ∈ listCalls h.pmm.buddy (.free 0x80017000)) &&
        (evalRun nextHolding h [.free 0x80017000]).any fun _ => true) = true := by decide +kernel
  obtain ⟨h, run, check⟩ := Run.of_eval nextHolding_step checked
  obtain ⟨unlinked, more⟩ := Bool.and_eq_true_iff.mp check
  obtain ⟨h', last, _⟩ := Run.of_eval nextHolding_step more
  obtain ⟨_, refines⟩ := free_lists_refine
  obtain ⟨_, histories⟩ := refines smallSetup smallSetup_setUp
  have step := Run.single_iff.mp last
  exact ⟨h, h', run, step, of_decide_eq_true unlinked, (histories _ _ run).1 _ _ step,
    (histories _ _ (run.append last)).2⟩

end Pke.Proofs
