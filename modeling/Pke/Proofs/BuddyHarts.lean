import Pke.Model.Harts
import Pke.Proofs.ListRuns
import Pke.Proofs.ReservedFrames

/-! # The buddy system under interleaving

Between the pop of a block and the store `is_free = 0` its descriptor still looks like the head of a free
block. `Agrees P b b'` compares the real state with the one in which the descriptors in `P` were marked under
the lock. The second state keeps the sequential invariant; every locked region takes both states through the
same list operations, except a `buddy_free` whose merge reaches the buddy of a block in the window.
-/

namespace Pke.Proofs

open Pke.Lib Pke.Model

/-- The same lists and the same descriptors, except for `is_free` in `P` and the `alloc` tags. -/
structure Agrees (P : Set ℕ) (b b' : Buddy) : Prop where
  links : b.links = b'.links
  order : ∀ f, (b.pages f).order = (b'.pages f).order
  isHead : ∀ f, (b.pages f).isHead = (b'.pages f).isHead
  isFree : ∀ f, f ∉ P → (b.pages f).isFree = (b'.pages f).isFree

namespace Agrees

variable {P : Set ℕ} {b b' : Buddy}

/-- The same change on both sides. -/
theorem setPage (agrees : Agrees P b b') (pfn : ℕ) {change change' : Page → Page}
    (order : ∀ p q : Page, p.order = q.order → (change p).order = (change' q).order)
    (isHead : ∀ p q : Page, p.isHead = q.isHead → (change p).isHead = (change' q).isHead)
    (isFree : ∀ p q : Page, pfn ∉ P → p.isFree = q.isFree → (change p).isFree = (change' q).isFree) :
    Agrees P (b.setPage pfn change) (b'.setPage pfn change') := by
  refine ⟨agrees.links, fun f => ?_, fun f => ?_, fun f outside => ?_⟩
  all_goals by_cases same : f = pfn
  · subst same
    simpa [Buddy.setPage] using order _ _ (agrees.order f)
  · simpa [Buddy.setPage, Function.update_of_ne same] using agrees.order f
  · subst same
    simpa [Buddy.setPage] using isHead _ _ (agrees.isHead f)
  · simpa [Buddy.setPage, Function.update_of_ne same] using agrees.isHead f
  · subst same
    simpa [Buddy.setPage] using isFree _ _ outside (agrees.isFree f outside)
  · simpa [Buddy.setPage, Function.update_of_ne same] using agrees.isFree f outside

/-- The same list operation on both sides. -/
theorem mapLinks (agrees : Agrees P b b') (op : Links Node → Links Node) :
    Agrees P { b with links := op b.links } { b' with links := op b'.links } :=
  ⟨congrArg op agrees.links, agrees.order, agrees.isHead, agrees.isFree⟩

theorem mono {Q : Set ℕ} (agrees : Agrees P b b') (sub : P ⊆ Q) : Agrees Q b b' :=
  ⟨agrees.links, agrees.order, agrees.isHead, fun f outside => agrees.isFree f fun inside =>
    outside (sub inside)⟩

theorem splitStep (agrees : Agrees P b b') (i : ℕ) : Agrees P (splitStep i b) (splitStep i b') := by
  have node : (b.links.pop (.area i)).1 = (b'.links.pop (.area i)).1 := by rw [agrees.links]
  simp only [Model.splitStep, node]
  apply mapLinks _ fun l => l.add (.area (i - 1)) (b'.links.pop (.area i)).1 (b'.links.pop (.area i)).1
  apply setPage
  · apply mapLinks _ fun l => l.add (.area (i - 1)) (.page _) (.page _)
    apply setPage
    · exact agrees.mapLinks fun l => (l.pop (.area i)).2
    · exact fun _ _ _ => rfl
    · exact fun _ _ _ => rfl
    · exact fun _ _ _ _ => rfl
  · exact fun _ _ _ => rfl
  · exact fun _ _ same => same
  · exact fun _ _ _ same => same

theorem buddySplit {target : ℕ} :
    ∀ {i : ℕ} {b b' : Buddy}, Agrees P b b' → Agrees P (buddySplit i target b) (buddySplit i target b') := by
  intro i
  induction i with
  | zero => exact fun agrees => agrees
  | succ i ih =>
    intro b b' agrees
    rw [Model.buddySplit, Model.buddySplit]
    split_ifs
    · exact ih (agrees.splitStep (i + 1))
    · exact agrees

private theorem findArea_eq (agrees : Agrees P b b') (order : ℕ) : findArea b order = findArea b' order := by
  simp only [findArea, Buddy.areaEmpty, agrees.links]

/-- The locked part of `buddy_alloc` takes the same block. -/
theorem take (agrees : Agrees P b b') {k p : ℕ} {c : Buddy} (taken : buddyTake k b = some (p, c)) :
    ∃ c', buddyTake k b' = some (p, c') ∧ Agrees P c c' := by
  obtain ⟨i, found, result⟩ := Option.map_eq_some_iff.mp taken
  obtain ⟨rfl, rfl⟩ := Prod.mk.inj result
  have split : Agrees P (if i > k then Model.buddySplit i k b else b) (if i > k then Model.buddySplit i k b'
    else b') := by
    split_ifs
    · exact agrees.buddySplit
    · exact agrees
  refine ⟨_, ?_, split.mapLinks fun l => (l.pop (.area k)).2⟩
  rw [buddyTake, ← agrees.findArea_eq, found, Option.map_some, split.links]
  rfl

/-- The tag is not compared. -/
theorem setAlloc (agrees : Agrees P b b') (p : ℕ) : Agrees P (setAlloc p b) b' := by
  have same : ∀ f, ((Model.setAlloc p b).pages f).order = (b.pages f).order ∧
      ((Model.setAlloc p b).pages f).isHead = (b.pages f).isHead ∧
      ((Model.setAlloc p b).pages f).isFree = (b.pages f).isFree := by
    intro f
    by_cases here : f = p
    · subst here
      simp [Model.setAlloc, Buddy.setPage]
    · simp [Model.setAlloc, Buddy.setPage, here]
  refine ⟨agrees.links, fun f => ?_, fun f => ?_, fun f outside => ?_⟩
  · exact (same f).1.trans (agrees.order f)
  · exact (same f).2.1.trans (agrees.isHead f)
  · exact (same f).2.2.trans (agrees.isFree f outside)

/-- Marking the taken block early. -/
theorem marked {p : ℕ} (agrees : Agrees P b b') : Agrees (insert p P) b (markTaken p b') := by
  refine ⟨agrees.links, fun f => ?_, fun f => ?_, fun f outside => ?_⟩
  · by_cases same : f = p
    · subst same
      simpa [markTaken, Buddy.setPage] using agrees.order f
    · simpa [markTaken, Buddy.setPage, Function.update_of_ne same] using agrees.order f
  · by_cases same : f = p
    · subst same
      simpa [markTaken, Buddy.setPage] using agrees.isHead f
    · simpa [markTaken, Buddy.setPage, Function.update_of_ne same] using agrees.isHead f
  · have other : f ≠ p := fun same => outside (Or.inl same)
    simpa [markTaken, Buddy.setPage, Function.update_of_ne other] using agrees.isFree f fun inside =>
      outside (Or.inr inside)

end Agrees

/-- A call of `__list_del` on a node of a list. -/
def Unlinks (del : Links Node × Node) : Prop := ∃ f, del.2 = .page f ∧
    ∃ i < MAX_ORDER, del.1.Reaches (.area i) (.page f)

/-- Allowed calls unlink nodes of lists only. -/
theorem FreeLists.unlinks {pages : ℕ → Page} {l l' : Links Node} {calls : List ListCall}
    (run : Run PointerStep l calls l') :
    ∀ {lists : ℕ → List ℕ}, FreeLists ⟨pages, l⟩ lists → ∀ d ∈ deletions l calls, Unlinks d := by
  induction run with
  | nil => exact fun _ d member => absurd member List.not_mem_nil
  | cons head tail ih =>
    rename_i s mid t call calls
    intro lists free d member
    obtain ⟨lists', sequence, free'⟩ := free.simulates head
    obtain ⟨_, performs⟩ := head
    cases sequence with
    | add small fresh =>
      obtain rfl : _ = _ := performs
      exact ih free' d member
    | @pop i f _ small shape =>
      have popped : s.pop (.area i) = (.page f, mid) := performs
      rw [deletions, popped] at member
      rcases List.mem_cons.mp member with rfl | later
      · exact ⟨_, rfl, _, small, (free.reaches_iff small).mpr (by rw [shape]; exact List.mem_cons_self)⟩
      · exact ih free' d later
    | del small listed =>
      obtain rfl : _ = _ := performs
      rcases List.mem_cons.mp member with rfl | later
      · exact ⟨_, rfl, _, small, (free.reaches_iff small).mpr listed⟩
      · exact ih free' d later

section

variable {nr lo hi : ℕ} {P : Set ℕ} {b b' : Buddy} {owned : List (ℕ × ℕ)} {lists : ℕ → List ℕ}

private theorem Agrees.splitCalls_eq {target : ℕ} : ∀ {i : ℕ} {b b' : Buddy}, Agrees P b b' →
    splitCalls i target b = splitCalls i target b' := by
  intro i
  induction i with
  | zero => exact fun _ => rfl
  | succ i ih =>
    intro b b' agrees
    rw [splitCalls, splitCalls, agrees.links, ih (agrees.splitStep (i + 1))]

/-- The locked part of `buddy_alloc` makes the same calls. -/
private theorem Agrees.takeCalls_eq (agrees : Agrees P b b') (k : ℕ) : takeCalls k b = takeCalls k b' := by
  rw [takeCalls, takeCalls, agrees.findArea_eq]
  cases findArea b' k with
  | none => rfl
  | some i =>
    dsimp only
    rw [agrees.splitCalls_eq, (Agrees.buddySplit agrees).links]

theorem Agrees.absorbed (agrees : Agrees P b b') (m : Block) : Agrees P (absorbed m b) (absorbed m b') := by
  unfold Proofs.absorbed
  apply setPage
  · apply setPage
    · exact agrees.mapLinks fun l => l.del (.page m.buddy.start)
    · exact fun _ _ same => same
    · exact fun _ _ _ => rfl
    · exact fun _ _ _ _ => rfl
  · exact fun _ _ _ => rfl
  · exact fun _ _ same => same
  · exact fun _ _ _ same => same

/-- Both merge loops take the same buddies as long as no block that grows around `a` has its buddy
in the window. -/
theorem Agrees.mergeLoop {S : Set ℕ} {a : Block} {old : ℕ → Page} (apart : ∀ x ∈ a.frames, x ∉ S)
    (whole : 2 ^ (MAX_ORDER - 1) ∣ nr) (word : nr ≤ WORD) (outside : ∀ q ∈ P, q ∉ S ∧ q ∉ a.frames)
    (window : ∀ m : Block, a.frames ⊆ m.frames → m.frames ⊆ S ∪ a.frames → m.order < MAX_ORDER - 1 →
      m.buddy.start ∈ P →
      (old m.buddy.start).order ≠ m.order) :
    ∀ (fuel : ℕ) (m : Block) (b b' : Buddy) (lists : ℕ → List ℕ), Merging nr S a old m b' lists →
    Agrees P b b' →
      fuel = MAX_ORDER - 1 - m.order →
      ∃ pfn order c c', mergeLoop fuel m.start m.order b = (pfn, order, c) ∧
        mergeLoop fuel m.start m.order b' = (pfn, order, c') ∧ Agrees P c c' ∧
        mergeCalls fuel m.start m.order b = mergeCalls fuel m.start m.order b' := by
  intro fuel
  induction fuel with
  | zero =>
    intro m b b' lists _ agrees _
    exact ⟨m.start, m.order, b, b', rfl, rfl, agrees, rfl⟩
  | succ fuel ih =>
    intro m b b' lists merging agrees enough
    have order : m.order < MAX_ORDER - 1 := by omega
    have small : m.order < MAX_ORDER := by omega
    have inArray := buddy_lt whole merging.bound order
    have bound := merging.bound.trans_le word
    by_cases test : FreeHead m b'
    · have listed := merging.mem_of_freeHead inArray test
      have free := ((merging.members _ small _).mp listed).1.subset (mem_span_self _)
      have notWindow : m.buddy.start ∉ P := fun inside => (outside _ inside).1 free
      have test' : FreeHead m b := by
        refine ⟨?_, ?_, ?_⟩
        · rw [agrees.order]
          exact test.1
        · rw [agrees.isFree _ notWindow]
          exact test.2.1
        · rw [agrees.isHead]
          exact test.2.2
      obtain ⟨pfn, last, c, c', result, result', next, calls⟩ :=
        ih m.parent _ _ _ (merging.absorb apart order listed) (agrees.absorbed m) (by simp; omega)
      refine ⟨pfn, last, c, c', ?_, ?_, next, ?_⟩
      · rw [mergeLoop_absorb order bound test' fuel, result]
      · rw [mergeLoop_absorb order bound test fuel, result']
      · rw [mergeCalls_absorb order bound test' fuel, mergeCalls_absorb order bound test fuel, calls]
    · have test' : ¬ FreeHead m b := by
        rintro ⟨sameOrder, isFree, isHead⟩
        rw [agrees.order] at sameOrder
        rw [agrees.isHead] at isHead
        by_cases inside : m.buddy.start ∈ P
        · obtain ⟨notFree, notInner⟩ := outside _ inside
          have same := merging.others _ notFree notInner
          rw [same] at sameOrder
          exact window m merging.inner merging.outer order inside sameOrder
        · rw [agrees.isFree _ inside] at isFree
          exact test ⟨sameOrder, isFree, isHead⟩
      refine ⟨m.start, m.order, b, b', mergeLoop_stop test' fuel, mergeLoop_stop test fuel, agrees, ?_⟩
      rw [mergeCalls_stop test' fuel, mergeCalls_stop test fuel]

/-- `__buddy_merge_inner` on a live block. -/
theorem Agrees.merge (agrees : Agrees P b b') (inv : BuddyInv nr lo hi b' owned lists)
    (whole : 2 ^ (MAX_ORDER - 1) ∣ nr) (word : nr ≤ WORD) {p k : ℕ} (member : (p, k) ∈ owned)
    (others : ∀ q ∈ P, ∃ j, (q, j) ∈ owned.erase (p, k))
    (window : ∀ m : Block, p ∈ m.frames → m.frames ⊆ unowned lo hi owned ∪ span (p, k) →
      m.order < MAX_ORDER - 1 →
      (m.buddy.start, m.order) ∈ owned → m.buddy.start ∉ P) :
    Agrees P (buddyMergeInner p b) (buddyMergeInner p b') ∧ freeCalls p b = freeCalls p b' := by
  obtain ⟨_, aligned, _, order⟩ := inv.owned _ member
  dsimp only at aligned order
  let a : Block := ⟨p, k, aligned⟩
  have apart : ∀ x ∈ a.frames, x ∉ unowned lo hi owned := live_apart member
  have perm := List.perm_cons_erase member
  have disjoint := perm.pairwise inv.disjoint (fun far x inside other => far x other inside)
  have far := (List.pairwise_cons.mp disjoint).1
  have cleared : Agrees P (b.setPage p fun s => { s with isFree := false, isHead := false, alloc := 0 })
      (b'.setPage p fun s => { s with isFree := false, isHead := false, alloc := 0 }) :=
    agrees.setPage p (fun _ _ same => same) (fun _ _ _ => rfl) (fun _ _ _ _ => rfl)
  have outside : ∀ q ∈ P, q ∉ unowned lo hi owned ∧ q ∉ a.frames := by
    intro q inside
    obtain ⟨j, other⟩ := others q inside
    refine ⟨fun free => free.2.2 _ (List.mem_of_mem_erase other) (mem_span_self _), fun inner => ?_⟩
    exact far _ other q inner (mem_span_self (q, j))
  have clear : ∀ m : Block, a.frames ⊆ m.frames → m.frames ⊆ unowned lo hi owned ∪ a.frames →
      m.order < MAX_ORDER - 1 →
      m.buddy.start ∈ P → (b'.pages m.buddy.start).order ≠ m.order := by
    intro m inner outer small inside same
    obtain ⟨j, other⟩ := others _ inside
    have owner := List.mem_of_mem_erase other
    have known : (b'.pages m.buddy.start).order = j := (inv.owned _ owner).2.2.2
    obtain rfl : j = m.order := known.symm.trans same
    exact window m (inner a.start_mem) outer small owner inside
  obtain ⟨pfn, last, c, c', result, result', next, calls⟩ := Agrees.mergeLoop apart whole word outside clear
    (MAX_ORDER - 1 - k) a _ _ lists (inv.merging member aligned) cleared rfl
  change Model.mergeLoop (MAX_ORDER - 1 - k) p k _ = _ at result
  change Model.mergeLoop (MAX_ORDER - 1 - k) p k _ = _ at result'
  have order' : (b.pages p).order = k := (agrees.order p).trans order
  constructor
  · simp only [buddyMergeInner, order, order', result, result']
    apply Agrees.mapLinks _ fun l => l.add (.area last) (.page pfn) (.page pfn)
    exact next.setPage pfn (fun _ _ same => same) (fun _ _ _ => rfl) (fun _ _ _ _ => rfl)
  · simp only [freeCalls, order, order']
    exact calls

end

/-- A descriptor of a live block may lose its free mark. -/
theorem BuddyInv.clearFree {nr lo hi : ℕ} {b : Buddy} {owned : List (ℕ × ℕ)} {lists : ℕ → List ℕ}
    (inv : BuddyInv nr lo hi b owned lists) {p k : ℕ} (member : (p, k) ∈ owned) :
    BuddyInv nr lo hi (clearFree p b) owned lists := by
  have other : ∀ m < MAX_ORDER, ∀ f ∈ lists m, f ≠ p := by
    rintro m bound f listed rfl
    exact (((inv.members m bound f).mp listed).subset (mem_span_self _)).2.2 _ member (mem_span_self (f, k))
  refine ⟨inv.free, ?_, ?_, inv.members, ?_, inv.disjoint, inv.range⟩
  · intro m bound f listed
    simpa [Model.clearFree, Buddy.setPage, Function.update_of_ne (other m bound f listed)]
      using inv.flags m bound f listed
  · intro f bounded isFree isHead
    have different : f ≠ p := by
      rintro rfl
      simp [Model.clearFree, Buddy.setPage] at isFree
    simp only [Model.clearFree, Buddy.setPage, Function.update_of_ne different] at isFree isHead ⊢
    exact inv.listed f bounded isFree isHead
  · intro e owner
    obtain ⟨small, aligned, range, order⟩ := inv.owned e owner
    refine ⟨small, aligned, range, ?_⟩
    by_cases same : e.1 = p
    · simpa [Model.clearFree, Buddy.setPage, same] using order
    · simpa [Model.clearFree, Buddy.setPage, Function.update_of_ne same] using order

private theorem allocLocked_eq (k : ℕ) (s : Pmm) :
    allocLocked k s =
      if k < MAX_ORDER then
        if s.lock then .error .spinsForever s
        else
          match buddyTake k s.buddy with
          | some (p, b) => .ok p { lockedOnce s with buddy := b }
          | none => .error (.panic "buddy_alloc : Out of required size of memory!\n") (lockedOnce s)
      else .error (.kassertFailed "likely(order >= 0 && order < MAX_ORDER)") s := by
  by_cases small : k < MAX_ORDER
  · cases held : s.lock with
    | true => simp [allocLocked, kassert, small, bind_apply, lockAcquire, held]
    | false =>
      cases taken : buddyTake k s.buddy with
      | none => simp [allocLocked, kassert, small, bind_apply, lockAcquire, held, Pmm.record, taken,
        lockRelease, lockedOnce]
      | some result =>
        simp [allocLocked, kassert, small, bind_apply, lockAcquire, held, Pmm.record, taken, lockRelease,
          onBuddy, map_apply, lockedOnce]
  · simp [allocLocked, kassert, small, bind_apply]

private theorem allocLocked_eq_ok {k p : ℕ} {s t : Pmm} (ok : allocLocked k s = .ok p t) :
    k < MAX_ORDER ∧ s.lock = false ∧ ∃ b, buddyTake k s.buddy = some (p, b) ∧
    t = { lockedOnce s with buddy := b } := by
  rw [allocLocked_eq] at ok
  by_cases small : k < MAX_ORDER
  · cases held : s.lock with
    | true => simp [small, held] at ok
    | false =>
      cases taken : buddyTake k s.buddy with
      | none => simp [small, held, taken] at ok
      | some result =>
        simp only [small, if_true, held, Bool.false_eq_true, if_false, taken, EStateM.Result.ok.injEq] at ok
        obtain ⟨rfl, rfl⟩ := ok
        exact ⟨small, rfl, _, rfl, rfl⟩
  · simp [small] at ok

/-- The block of a hart between its pop and the return of `buddy_alloc`. -/
def pending : HartPc → List (ℕ × ℕ)
  | .idle => []
  | .popped p k => [(p, k)]
  | .cleared p k => [(p, k)]

/-- The blocks of a hart by frame number and order: the one on its way, and those it holds. -/
def blocks (hart : BuddyHart) : List (ℕ × ℕ) := pending hart.pc ++ liveBlocks hart.held

section

variable {n : ℕ}

def allBlocks (s : Harts n) : List (ℕ × ℕ) := (List.finRange n).flatMap fun h => blocks (s.harts h)

/-- The popped blocks whose descriptor still says free. -/
def window (s : Harts n) : Set ℕ := {q | ∃ h j, (s.harts h).pc = .popped q j}

/-- A managed frame that no hart has. -/
def FreeFrame (s : Harts n) (x : ℕ) : Prop := x ∈ managed s.pmm ∧ ∀ h, ∀ e ∈ blocks (s.harts h), x ∉ span e

/-- The block of order `j` at `q`, the block of order `k` at `p` and free frames fill the aligned
run of `2 ^ (j + 1)` frames around `q`, so the merge of `p` arrives at `q`. -/
def MergeMeets (s : Harts n) (p k q j : ℕ) : Prop :=
  j < MAX_ORDER - 1 ∧ p / 2 ^ (j + 1) = q / 2 ^ (j + 1) ∧
    ∀ x, x / 2 ^ (j + 1) = q / 2 ^ (j + 1) → x ∈ span (q, j) ∨ x ∈ span (p, k) ∨ FreeFrame s x

/-- The condition on a release: its merge does not arrive at a block in the window. -/
def ClearOfWindow (s : Harts n) : Fin n × HartOp → Prop
  | (h, .free addr) => ∀ k, (addr, k) ∈ (s.harts h).held → ∀ h' q j, (s.harts h').pc = .popped q j →
      ¬ MergeMeets s (ADDR_TO_PFN addr) k q j
  | _ => True

/-- No frame has two owners. -/
structure HartsSafe (s : Harts n) : Prop where
  single : ∀ h, (blocks (s.harts h)).Pairwise fun d e => Disjoint (span d) (span e)
  apart : ∀ h h', h ≠ h' → ∀ d ∈ blocks (s.harts h), ∀ e ∈ blocks (s.harts h'), Disjoint (span d) (span e)
  free : ∀ h, ∀ d ∈ blocks (s.harts h), ∀ k < MAX_ORDER, ∀ f, s.pmm.buddy.links.Reaches (.area k) (.page f) →
    Disjoint (span d) (span (f, k))

/-- The invariant: the state in which the window is closed satisfies the sequential invariant. -/
structure HartsInv (s : Harts n) : Prop where
  whole : 2 ^ (MAX_ORDER - 1) ∣ s.pmm.nrPages
  word : s.pmm.nrPages ≤ WORD
  pool : ∃ b' lists, BuddyInv s.pmm.nrPages (ADDR_TO_PFN s.pmm.buddyStart) (ADDR_TO_PFN s.pmm.buddyEnd) b'
    (allBlocks s) lists ∧
    Agrees (window s) s.pmm.buddy b'

/-- Only the blocks of the hart that takes the step change. -/
theorem allBlocks_set (s : Harts n) (h : Fin n) (pmm : Pmm) (hart : BuddyHart) : ∃ rest,
    (allBlocks s).Perm (blocks (s.harts h) ++ rest) ∧
    (allBlocks (s.set h pmm hart)).Perm (blocks hart ++ rest) := by
  have perm := List.perm_cons_erase (List.mem_finRange h)
  refine ⟨((List.finRange n).erase h).flatMap fun h => blocks (s.harts h), perm.flatMap_right _, ?_⟩
  refine (perm.flatMap_right _).trans ?_
  have same : (((List.finRange n).erase h).flatMap fun h' => blocks ((s.set h pmm hart).harts h')) =
      ((List.finRange n).erase h).flatMap fun h' => blocks (s.harts h') := by
    apply List.flatMap_congr
    intro h' member
    have other : h' ≠ h := fun equal => (List.nodup_finRange n).not_mem_erase (equal ▸ member)
    simp [Harts.set, other]
  rw [List.flatMap_cons, same]
  simp [Harts.set]

theorem mem_allBlocks {s : Harts n} {e : ℕ × ℕ} : e ∈ allBlocks s ↔ ∃ h, e ∈ blocks (s.harts h) := by
  simp [allBlocks]

/-- The free frames are those of the sequential invariant. -/
private theorem freeFrame_iff {s : Harts n} {x : ℕ} :
    FreeFrame s x ↔ x ∈ unowned (ADDR_TO_PFN s.pmm.buddyStart) (ADDR_TO_PFN s.pmm.buddyEnd) (allBlocks s) := by
  simp only [FreeFrame, managed, unowned, Set.mem_Ico, mem_allBlocks, Set.mem_ofPred_eq]
  constructor
  · rintro ⟨⟨low, high⟩, none⟩
    refine ⟨low, high, ?_⟩
    rintro e ⟨h, member⟩
    exact none h e member
  · rintro ⟨low, high, none⟩
    exact ⟨⟨low, high⟩, fun h e member => none e ⟨h, member⟩⟩

/-- The invariant in the terms of the harts. -/
theorem HartsInv.safe {s : Harts n} (inv : HartsInv s) : HartsSafe s := by
  obtain ⟨b', lists, ok, agrees⟩ := inv.pool
  have disjoint : (allBlocks s).Pairwise fun d e => Disjoint (span d) (span e) :=
    ok.disjoint.imp fun far => Set.disjoint_left.mpr far
  obtain ⟨own, pairs⟩ := List.pairwise_flatMap.mp disjoint
  have symmetric : Std.Symm fun h h' : Fin n => ∀ d ∈ blocks (s.harts h), ∀ e ∈ blocks (s.harts h'),
      Disjoint (span d) (span e) :=
    ⟨fun _ _ far d inD e inE => (far e inE d inD).symm⟩
  refine ⟨fun h => own h (List.mem_finRange h), fun h h' different => ?_, fun h d member k small f path => ?_⟩
  · exact pairs.forall (List.mem_finRange h) (List.mem_finRange h') different
  · rw [agrees.links, Rings.reaches_iff ok.free small] at path
    obtain ⟨g, listed, same⟩ := List.mem_map.mp (path.resolve_left (by simp))
    cases same
    refine Set.disjoint_left.mpr fun x inside other => ?_
    exact (((ok.members k small f).mp listed).subset other).2.2 d (mem_allBlocks.mpr ⟨h, member⟩) inside

/-- What a step can do. -/
inductive Moves (s : Harts n) (h : Fin n) : HartOp → Harts n → Prop
  | take {k p : ℕ} {pmm : Pmm} (pc : (s.harts h).pc = .idle) (call : allocLocked k s.pmm = .ok p pmm) :
      Moves s h (.take k) (s.set h pmm ⟨.popped p k, (s.harts h).held⟩)
  | clear {p k : ℕ} (pc : (s.harts h).pc = .popped p k) :
      Moves s h .clear (s.set h { s.pmm with buddy := clearFree p s.pmm.buddy }
        ⟨.cleared p k, (s.harts h).held⟩)
  | tag {p k : ℕ} (pc : (s.harts h).pc = .cleared p k) :
      Moves s h .tag
        (s.set h { s.pmm with buddy := setAlloc p s.pmm.buddy } ⟨.idle, (PFN_TO_ADDR p, k) :: (s.harts h).held⟩)
  | free {addr k : ℕ} {pmm : Pmm} (pc : (s.harts h).pc = .idle) (member : (addr, k) ∈ (s.harts h).held)
      (call : buddyFree addr s.pmm = .ok () pmm) :
      Moves s h (.free addr) (s.set h pmm ⟨.idle, (s.harts h).held.erase (addr, k)⟩)

private theorem step_moves {s t : Harts n} {h : Fin n} {op : HartOp} (step : s.step (h, op) = some t) :
    Moves s h op t := by
  cases op with
  | take k =>
    simp only [Harts.step] at step
    split at step
    · rename_i pc call
      cases step
      exact .take pc call
    · cases step
  | clear =>
    simp only [Harts.step] at step
    split at step
    · rename_i pc
      cases step
      exact .clear pc
    · cases step
  | tag =>
    simp only [Harts.step] at step
    split at step
    · rename_i pc
      cases step
      exact .tag pc
    · cases step
  | free addr =>
    simp only [Harts.step] at step
    split at step
    · rename_i e _ pmm pc found call
      cases step
      have member := List.mem_of_find?_eq_some found
      have same := List.find?_some found
      obtain ⟨addr', k⟩ := e
      obtain rfl : addr' = addr := by simpa using same
      rw [pc]
      exact .free pc member call
    · cases step

/-- What a step keeps, for the new blocks and the new window. -/
private theorem HartsInv.next {s : Harts n} {h : Fin n} {pmm : Pmm} {hart : BuddyHart} {b' : Buddy}
    {owned : List (ℕ × ℕ)} {lists : ℕ → List ℕ} (inv : HartsInv s) (nr : pmm.nrPages = s.pmm.nrPages)
    (first : pmm.buddyStart = s.pmm.buddyStart) (last : pmm.buddyEnd = s.pmm.buddyEnd)
    (ok : BuddyInv s.pmm.nrPages (ADDR_TO_PFN s.pmm.buddyStart) (ADDR_TO_PFN s.pmm.buddyEnd) b' owned lists)
    (perm : owned.Perm (allBlocks (s.set h pmm hart)))
    (agrees : Agrees (window (s.set h pmm hart)) pmm.buddy b') :
    HartsInv (s.set h pmm hart) := by
  refine ⟨?_, ?_, b', lists, ?_, agrees⟩
  · change _ ∣ pmm.nrPages
    rw [nr]
    exact inv.whole
  · change pmm.nrPages ≤ _
    rw [nr]
    exact inv.word
  · change BuddyInv pmm.nrPages (ADDR_TO_PFN pmm.buddyStart) (ADDR_TO_PFN pmm.buddyEnd) b' _ lists
    rw [nr, first, last]
    exact ok.perm perm

theorem mem_window_set {s : Harts n} {h : Fin n} {pmm : Pmm} {hart : BuddyHart} {q : ℕ} :
    q ∈ window (s.set h pmm hart) ↔ (∃ j, hart.pc = .popped q j) ∨ ∃ h' j, h' ≠ h ∧
    (s.harts h').pc = .popped q j := by
  simp only [window, Harts.set, Set.mem_ofPred_eq, Function.update_apply]
  constructor
  · rintro ⟨h', j, pc⟩
    split_ifs at pc with same
    · exact Or.inl ⟨j, pc⟩
    · exact Or.inr ⟨h', j, same, pc⟩
  · rintro (⟨j, pc⟩ | ⟨h', j, other, pc⟩)
    · exact ⟨h, j, by rw [if_pos rfl]; exact pc⟩
    · exact ⟨h', j, by rw [if_neg other]; exact pc⟩

namespace HartsInv

variable {s t : Harts n} {h : Fin n}

theorem take (inv : HartsInv s) {k p : ℕ} {pmm : Pmm} (pc : (s.harts h).pc = .idle)
    (call : allocLocked k s.pmm = .ok p pmm) : HartsInv (s.set h pmm ⟨.popped p k, (s.harts h).held⟩) := by
  obtain ⟨small, _, b, taken, rfl⟩ := allocLocked_eq_ok call
  obtain ⟨b', lists, ok, agrees⟩ := inv.pool
  obtain ⟨c', taken', agrees'⟩ := agrees.take taken
  obtain ⟨lists', next⟩ := ok.take small taken'
  obtain ⟨rest, before, after⟩ := allBlocks_set s h { lockedOnce s.pmm with buddy := b }
    ⟨.popped p k, (s.harts h).held⟩
  refine inv.next rfl rfl rfl next ?_ (agrees'.marked.mono ?_)
  · have old : blocks (s.harts h) = liveBlocks (s.harts h).held := by rw [blocks, pc]; rfl
    rw [old] at before
    exact (before.cons (p, k)).trans after.symm
  · intro q inside
    apply mem_window_set.mpr
    rcases inside with rfl | ⟨h', j, popped⟩
    · exact Or.inl ⟨k, rfl⟩
    · refine Or.inr ⟨h', j, ?_, popped⟩
      rintro rfl
      rw [pc] at popped
      cases popped

theorem clear (inv : HartsInv s) {p k : ℕ} (pc : (s.harts h).pc = .popped p k) :
    HartsInv (s.set h { s.pmm with buddy := clearFree p s.pmm.buddy } ⟨.cleared p k, (s.harts h).held⟩) := by
  obtain ⟨b', lists, ok, agrees⟩ := inv.pool
  obtain ⟨rest, before, after⟩ := allBlocks_set s h { s.pmm with buddy := clearFree p s.pmm.buddy }
    ⟨.cleared p k, (s.harts h).held⟩
  have own : (p, k) ∈ allBlocks s := mem_allBlocks.mpr ⟨h, by rw [blocks, pc]; exact List.mem_cons_self⟩
  have same : blocks (s.harts h) = blocks ⟨.cleared p k, (s.harts h).held⟩ := by rw [blocks, pc]; rfl
  refine inv.next rfl rfl rfl (ok.clearFree own) (before.trans (same ▸ after.symm)) ?_
  have cleared : Agrees (window s) (clearFree p s.pmm.buddy) (clearFree p b') :=
    agrees.setPage p (fun _ _ same => same) (fun _ _ same => same) (fun _ _ _ _ => rfl)
  refine ⟨cleared.links, cleared.order, cleared.isHead, fun f outside => ?_⟩
  by_cases here : f = p
  · subst here
    simp [clearFree, Buddy.setPage]
  · apply cleared.isFree f
    rintro ⟨h', j, popped⟩
    apply outside
    refine mem_window_set.mpr (Or.inr ⟨h', j, ?_, popped⟩)
    rintro rfl
    rw [pc] at popped
    cases popped
    exact here rfl

theorem tag (inv : HartsInv s) {p k : ℕ} (pc : (s.harts h).pc = .cleared p k) :
    HartsInv (s.set h { s.pmm with buddy := setAlloc p s.pmm.buddy }
      ⟨.idle, (PFN_TO_ADDR p, k) :: (s.harts h).held⟩) := by
  obtain ⟨b', lists, ok, agrees⟩ := inv.pool
  obtain ⟨rest, before, after⟩ :=
    allBlocks_set s h { s.pmm with buddy := setAlloc p s.pmm.buddy }
    ⟨.idle, (PFN_TO_ADDR p, k) :: (s.harts h).held⟩
  have same : blocks (s.harts h) = blocks ⟨.idle, (PFN_TO_ADDR p, k) :: (s.harts h).held⟩ := by
    rw [blocks, pc, blocks, liveBlocks, liveBlocks, List.map_cons, addr_pfn]
    rfl
  refine inv.next rfl rfl rfl ok (before.trans (same ▸ after.symm)) ?_
  apply (agrees.setAlloc p).mono
  rintro q ⟨h', j, popped⟩
  refine mem_window_set.mpr (Or.inr ⟨h', j, ?_, popped⟩)
  rintro rfl
  rw [pc] at popped
  cases popped

/-- A release that is clear of the window. -/
theorem free (inv : HartsInv s) {addr k : ℕ} {pmm : Pmm} (pc : (s.harts h).pc = .idle)
    (member : (addr, k) ∈ (s.harts h).held) (clear : ClearOfWindow s (h, .free addr))
    (call : buddyFree addr s.pmm = .ok () pmm) :
    HartsInv (s.set h pmm ⟨.idle, (s.harts h).held.erase (addr, k)⟩) ∧
      ∀ d ∈ s.dels (.free addr), Unlinks d := by
  obtain ⟨_, _, rfl⟩ := buddyFree_eq_ok.mp call
  obtain ⟨b', lists, ok, agrees⟩ := inv.pool
  set p := ADDR_TO_PFN addr
  set rest' : BuddyHart := ⟨.idle, (s.harts h).held.erase (addr, k)⟩
  set pmm' : Pmm := { lockedOnce s.pmm with buddy := buddyMergeInner p s.pmm.buddy }
  obtain ⟨rest, before, after⟩ := allBlocks_set s h pmm' rest'
  have old : blocks (s.harts h) = liveBlocks (s.harts h).held := by rw [blocks, pc]; rfl
  have perm : (allBlocks s).Perm ((p, k) :: allBlocks (s.set h pmm' rest')) := by
    rw [old] at before
    have front : (liveBlocks (s.harts h).held).Perm ((p, k) :: liveBlocks ((s.harts h).held.erase (addr, k))) :=
      (List.perm_cons_erase member).map _
    exact (before.trans (front.append_right rest)).trans (after.symm.cons (p, k))
  have erased : ((allBlocks s).erase (p, k)).Perm (allBlocks (s.set h pmm' rest')) := by
    have both := perm.erase (p, k)
    rwa [List.erase_cons_head] at both
  have own : (p, k) ∈ allBlocks s := perm.mem_iff.mpr List.mem_cons_self
  have elsewhere : ∀ h' q j, (s.harts h').pc = .popped q j → h' ≠ h := by
    rintro h' q j popped rfl
    rw [pc] at popped
    cases popped
  have others : ∀ q ∈ window s, ∃ j, (q, j) ∈ (allBlocks s).erase (p, k) := by
    rintro q ⟨h', j, popped⟩
    refine ⟨j, erased.mem_iff.mpr (mem_allBlocks.mpr ⟨h', ?_⟩)⟩
    have same : (s.set h pmm' rest').harts h' = s.harts h' :=
      Function.update_of_ne (elsewhere h' q j popped) _ _
    rw [same, blocks, popped]
    exact List.mem_cons_self
  have avoids : ∀ m : Block, p ∈ m.frames → m.frames ⊆ unowned (ADDR_TO_PFN s.pmm.buddyStart)
      (ADDR_TO_PFN s.pmm.buddyEnd) (allBlocks s) ∪ span (p, k) → m.order < MAX_ORDER - 1 →
      (m.buddy.start, m.order) ∈ allBlocks s → m.buddy.start ∉ window s := by
    rintro m inner outer small owner ⟨h', j, popped⟩
    have owner' : (m.buddy.start, j) ∈ allBlocks s :=
      mem_allBlocks.mpr ⟨h', by rw [blocks, popped]; exact List.mem_cons_self⟩
    obtain rfl : j = m.order := (ok.owned _ owner').2.2.2.symm.trans (ok.owned _ owner).2.2.2
    refine clear k member h' _ _ popped ⟨small, ?_, fun x same => ?_⟩
    · have inP := Block.mem_frames.mp (m.subset_parent inner)
      have inQ := Block.mem_frames.mp (m.buddy_subset_parent m.buddy.start_mem)
      exact inP.trans inQ.symm
    · have inQ := Block.mem_frames.mp (m.buddy_subset_parent m.buddy.start_mem)
      rcases Block.mem_parent.mp (Block.mem_frames.mpr (same.trans inQ)) with inM | inB
      · rcases outer inM with free | mine
        · exact Or.inr (Or.inr (freeFrame_iff.mpr free))
        · exact Or.inr (Or.inl mine)
      · exact Or.inl inB
  obtain ⟨merged, calls⟩ := agrees.merge ok inv.whole inv.word own others avoids
  obtain ⟨lists', next⟩ := ok.merge own inv.whole inv.word
  refine ⟨inv.next rfl rfl rfl next erased (merged.mono ?_), ?_⟩
  · rintro q ⟨h', j, popped⟩
    exact mem_window_set.mpr (Or.inr ⟨h', j, elsewhere h' q j popped, popped⟩)
  · rw [Harts.dels, calls, agrees.links]
    exact FreeLists.unlinks (BuddyInv.merge_run ok own inv.whole inv.word) ok.free

theorem step (inv : HartsInv s) {op : HartOp} (clear : ClearOfWindow s (h, op))
    (step : s.step (h, op) = some t) :
    HartsInv t ∧ ∀ d ∈ s.dels op, Unlinks d := by
  obtain ⟨b', lists, ok, agrees⟩ := inv.pool
  cases step_moves step with
  | take pc call =>
    obtain ⟨_, _, _, taken, _⟩ := allocLocked_eq_ok call
    obtain ⟨_, taken', _⟩ := agrees.take taken
    refine ⟨inv.take pc call, ?_⟩
    rw [Harts.dels, agrees.takeCalls_eq, agrees.links]
    exact FreeLists.unlinks (BuddyInv.take_run ok taken') ok.free
  | clear pc => exact ⟨inv.clear pc, fun d member => absurd member List.not_mem_nil⟩
  | tag pc => exact ⟨inv.tag pc, fun d member => absurd member List.not_mem_nil⟩
  | free pc member call => exact inv.free pc member clear call

end HartsInv

def HartsStep (s : Harts n) (event : Fin n × HartOp) (t : Harts n) : Prop := s.step event = some t

/-- All harts idle and without blocks. -/
def freshHarts (n : ℕ) (s : Pmm) : Harts n := ⟨s, fun _ => ⟨.idle, []⟩⟩

private theorem SetUp.hartsInv {s : Pmm} (start : SetUp s) : HartsInv (freshHarts n s) := by
  obtain ⟨whole, word, _, owned, lists, same, ok⟩ := start.runInv
  obtain rfl : owned = [] := List.map_eq_nil_iff.mp same.symm
  have empty : allBlocks (freshHarts n s) = [] := List.flatMap_eq_nil_iff.mpr fun _ _ => rfl
  exact ⟨whole, word, s.buddy, lists, by rw [empty]; exact ok, ⟨rfl, fun _ => rfl, fun _ => rfl,
    fun _ _ => rfl⟩⟩

/-- In every interleaving whose releases are clear of the window, no frame has two owners, and every
`__list_del` of the next step is applied to a node on a list. -/
theorem buddy_interleaving {s : Pmm} (start : SetUp s) {events : List (Fin n × HartOp)} {t : Harts n}
    (run : Run (Guarded ClearOfWindow HartsStep) (freshHarts n s) events t) :
    HartsSafe t ∧ ∀ event u, Guarded ClearOfWindow HartsStep t event u → ∀ d ∈ t.dels event.2, Unlinks d := by
  have inv : HartsInv t := run.invariant (fun _ _ _ inv step => (inv.step step.1 step.2).1) start.hartsInv
  exact ⟨inv.safe, fun _ _ step => (inv.step step.1 step.2).2⟩

end

/-- A step while no block is in the window. -/
private def quietStep (s : Harts 2) (event : Fin 2 × HartOp) : Option (Harts 2) :=
  if (s.harts 0).pc = .idle ∧ (s.harts 1).pc = .idle ∨ event.2 = .clear ∨
    event.2 = .tag then s.step event else none

private theorem quietStep_guarded (s : Harts 2) (event : Fin 2 × HartOp) (t : Harts 2)
    (step : quietStep s event = some t) : Guarded ClearOfWindow HartsStep s event t := by
  obtain ⟨h, op⟩ := event
  rw [quietStep] at step
  split_ifs at step with quiet
  refine ⟨?_, step⟩
  cases op with
  | free addr =>
    rintro k _ h' q j popped
    rcases quiet with ⟨first, second⟩ | other | other
    · have idle : (s.harts h').pc = .idle := by
        fin_cases h'
        · exact first
        · exact second
      rw [idle] at popped
      cases popped
    · cases other
    · cases other
  | take k => trivial
  | clear => trivial
  | tag => trivial

/-- Both harts allocate a page, and the second one gives its page back. -/
theorem buddy_interleaving_small : ∃ t : Harts 2,
    Run (Guarded ClearOfWindow HartsStep) (freshHarts 2 smallSetup)
      [(1, .take 0), (1, .clear), (1, .tag), (0, .take 0), (0, .clear), (0, .tag), (1, .free 0x80016000)] t ∧
    HartsSafe t ∧ (t.harts 0).held = [(0x80017000, 0)] := by
  have checked : (evalRun quietStep (freshHarts 2 smallSetup)
      [(1, .take 0), (1, .clear), (1, .tag), (0, .take 0), (0, .clear), (0, .tag), (1, .free 0x80016000)]).any
        (fun t => decide ((t.harts 0).held = [(0x80017000, 0)])) = true := by decide +kernel
  obtain ⟨t, run, held⟩ := Run.of_eval quietStep_guarded checked
  exact ⟨t, run, (buddy_interleaving smallSetup_setUp run).1, of_decide_eq_true held⟩

/-- The first unlinking of a merge sees the lists as they were. -/
private theorem deletions_freeCalls {pfn : ℕ} {b : Buddy} {d : Links Node × Node}
    {rest : List (Links Node × Node)} (shape : deletions b.links (freeCalls pfn b) = d :: rest) :
    d.1 = b.links := by
  have general : ∀ l fuel order (c : Buddy), deletions l (mergeCalls fuel pfn order c) =
    d :: rest → d.1 = l := by
    intro l fuel order c shape
    cases fuel with
    | zero => cases shape
    | succ fuel =>
      simp only [mergeCalls] at shape
      split_ifs at shape
      · cases shape
      · exact (congrArg Prod.fst (List.cons.inj shape).1).symm
  exact general _ _ _ _ shape

/-- Hart 1 holds frame 22. Hart 0 pops frame 23, its buddy, and before it clears `is_free` hart 1
releases frame 22: the merge unlinks a node that is on no list, and both frames become a free block
while hart 0 goes on to hold frame 23. -/
theorem buddy_interleaving_window_small : ∃ t u : Harts 2,
    Run HartsStep (freshHarts 2 smallSetup) [(1, .take 0), (1, .clear), (1, .tag), (0, .take 0)] t ∧
    (∃ d ∈ t.dels (.free 0x80016000), ¬ Unlinks d) ∧
    Run HartsStep t [(1, .free 0x80016000), (0, .clear), (0, .tag)] u ∧ ¬ HartsSafe u := by
  have checked : (evalRun quietStep (freshHarts 2 smallSetup) [(1, .take 0), (1, .clear), (1, .tag),
      (0, .take 0)]).any
      (fun t => decide ((t.harts 0).pc = .popped 23 0) &&
        decide ((t.dels (.free 0x80016000)).map Prod.snd = [.page 23]) &&
        (evalRun Harts.step t [(1, .free 0x80016000), (0, .clear), (0, .tag)]).any fun u =>
          decide ((u.harts 0).held = [(0x80017000, 0)]) &&
            decide (u.pmm.buddy.links.next (.area 1) = .page 22)) = true := by
    decide +kernel
  obtain ⟨t, guarded, passed⟩ := Run.of_eval quietStep_guarded checked
  simp only [Bool.and_eq_true, decide_eq_true_eq] at passed
  obtain ⟨⟨popped, nodes⟩, rest⟩ := passed
  obtain ⟨u, run, last⟩ := Run.of_eval (fun s e t step => (step : HartsStep s e t)) rest
  simp only [Bool.and_eq_true, decide_eq_true_eq] at last
  obtain ⟨held, listed⟩ := last
  have safe : HartsSafe t :=
    (guarded.invariant (fun _ _ _ inv step => (inv.step step.1 step.2).1) smallSetup_setUp.hartsInv :
      HartsInv t).safe
  refine ⟨t, u, guarded.imp fun _ _ _ _ step => step.2, ?_, run, ?_⟩
  · obtain ⟨d, single, node⟩ := List.map_eq_singleton_iff.mp nodes
    refine ⟨d, by rw [single]; exact List.mem_singleton_self d, ?_⟩
    rintro ⟨f, same, k, small, path⟩
    rw [node] at same
    cases same
    rw [deletions_freeCalls single] at path
    have own : (23, 0) ∈ blocks (t.harts 0) := by
      rw [blocks, popped]
      exact List.mem_cons_self
    exact Set.disjoint_left.mp (safe.free 0 _ own k small 23 path) (mem_span_self (23, 0))
      (mem_span_self (23, k))
  · intro owners
    have own : (23, 0) ∈ blocks (u.harts 0) := by
      rw [blocks, held]
      exact List.mem_append_right _ (by decide)
    have path : u.pmm.buddy.links.Reaches (.area 1) (.page 22) := .single listed.symm
    exact Set.disjoint_left.mp (owners.free 0 _ own 1 (by decide) 22 path) (mem_span_self (23, 0))
      (by constructor <;> decide)

end Pke.Proofs
