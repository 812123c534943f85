import Pke.Model.Buddy

/-! # Free lists as abstract sequences

`FreeLists b lists` relates the pointers of the eleven `free_area` rings to lists of frame numbers.
Everything after this module reasons about `lists`. `buddyTake_spec` is the effect of the locked part
of `buddy_alloc`: the split loop runs through the real lists, and each pop takes back the half that
was pushed last.
-/

namespace Pke.Proofs

open Pke.Lib Pke.Model

/-- The rings of `free_area` hold exactly the descriptors in `lists`, in order. -/
abbrev FreeLists (b : Buddy) (lists : ℕ → List ℕ) : Prop :=
  Rings b.links MAX_ORDER Node.area (fun k => (lists k).map Node.page)

/-- The sentinels, and the nodes of a set of descriptors. -/
def nodesOf (C : Set ℕ) : Set Node := {n | (∃ i < MAX_ORDER, n = .area i) ∨ ∃ f ∈ C, n = .page f}

/-- The descriptors on the lists. -/
def listedFrames (lists : ℕ → List ℕ) : Set ℕ := {f | ∃ k < MAX_ORDER, f ∈ lists k}

private theorem map_update (lists : ℕ → List ℕ) (i : ℕ) (xs : List ℕ) :
    Function.update (fun k => (lists k).map Node.page) i (xs.map Node.page) =
      fun k => (Function.update lists i xs k).map Node.page := by
  funext k
  by_cases same : k = i
  · subst same; simp
  · simp [Function.update_of_ne same]

namespace FreeLists

variable {b : Buddy} {lists : ℕ → List ℕ} {i f : ℕ} {rest : List ℕ}

theorem closed (free : FreeLists b lists) : b.links.Closed (nodesOf (listedFrames lists)) := by
  have nodes : {n | ∃ i < MAX_ORDER, n = Node.area i ∨ n ∈ (lists i).map Node.page} =
    nodesOf (listedFrames lists) := by
    ext n
    simp only [nodesOf, listedFrames, Set.mem_ofPred_eq, List.mem_map]
    grind
  rw [← nodes]
  exact Rings.closed free

theorem areaEmpty_iff (free : FreeLists b lists) (bound : i < MAX_ORDER) :
    b.areaEmpty i = true ↔ lists i = [] := by
  rw [Buddy.areaEmpty, decide_eq_true_eq, free.next_head_eq_iff bound, List.map_eq_nil_iff]

theorem nodup (free : FreeLists b lists) (bound : i < MAX_ORDER) : (lists i).Nodup :=
  List.Nodup.of_map _ (Rings.nodup free i bound)

theorem not_mem_of_mem (free : FreeLists b lists) {j : ℕ} (iBound : i < MAX_ORDER) (jBound : j < MAX_ORDER)
    (different : i ≠ j) (member : f ∈ lists i) : f ∉ lists j := by
  intro other
  exact Rings.disjoint free i iBound j jBound different _
    (List.mem_map_of_mem member) (List.mem_map_of_mem other)

theorem listAdd (free : FreeLists b lists) (bound : i < MAX_ORDER) (fresh : ∀ j < MAX_ORDER, f ∉ lists j) :
    FreeLists (b.listAdd i f) (Function.update lists i (f :: lists i)) := by
  have added := Rings.add free bound (x := .page f) (by simpa using fresh) (by simp)
  change Rings _ _ _ (Function.update (fun k => (lists k).map Node.page) i ((f :: lists i).map Node.page))
    at added
  rwa [map_update] at added

theorem listDel (free : FreeLists b lists) (bound : i < MAX_ORDER) (member : f ∈ lists i) :
    FreeLists (b.listDel f) (Function.update lists i ((lists i).erase f)) := by
  obtain ⟨before, after, notBefore, shape, erased⟩ := List.exists_erase_eq member
  have removed := Rings.del free bound
    (show (lists i).map Node.page = before.map Node.page ++ .page f :: after.map Node.page by simp [shape])
  rw [← List.map_append, map_update, ← erased] at removed
  exact removed

theorem pop (free : FreeLists b lists) (bound : i < MAX_ORDER) (shape : lists i = f :: rest) :
    (b.links.pop (.area i)).1 = .page f ∧
      FreeLists { b with links := (b.links.pop (.area i)).2 } (Function.update lists i rest) := by
  obtain ⟨first, popped⟩ := Rings.pop free bound
    (show (lists i).map Node.page = .page f :: rest.map Node.page by simp [shape])
  rw [map_update] at popped
  exact ⟨first, popped⟩

/-- After a pop the taken descriptor is on no list. -/
theorem pop_fresh (free : FreeLists b lists) (bound : i < MAX_ORDER) (shape : lists i = f :: rest) :
    ∀ j < MAX_ORDER, f ∉ Function.update lists i rest j := by
  intro j jBound member
  have nodup := shape ▸ free.nodup bound
  have inside : f ∈ lists i := by simp [shape]
  by_cases same : j = i
  · subst same
    exact (List.nodup_cons.mp nodup).1 (by simpa using member)
  · exact free.not_mem_of_mem bound jBound (Ne.symm same) inside
      (by simpa [Function.update_of_ne same] using member)

/-- The scan of `buddy_alloc` finds the least order with a nonempty list. -/
theorem findArea_eq_some (free : FreeLists b lists) {k j : ℕ} (found : findArea b k = some j) :
    k ≤ j ∧ j < MAX_ORDER ∧ lists j ≠ [] ∧ ∀ i, k ≤ i → i < j → lists i = [] := by
  have member := List.mem_of_find?_eq_some found
  rw [List.mem_range'_1] at member
  have bound : j < MAX_ORDER := by omega
  refine ⟨member.1, bound, ?_, ?_⟩
  · have nonempty := List.find?_some found
    simpa [free.areaEmpty_iff bound, Bool.eq_false_iff] using nonempty
  · intro i low high
    obtain ⟨_, before, after, shape, failed⟩ := List.find?_eq_some_iff_append.mp found
    have position : i ∈ before := by
      have inRange : i ∈ List.range' k (MAX_ORDER - k) := List.mem_range'_1.mpr (by omega)
      rw [shape] at inRange
      rcases List.mem_append.mp inRange with inside | outside
      · exact inside
      · have sorted : (List.range' k (MAX_ORDER - k)).Pairwise (· < ·) := List.pairwise_lt_range'
        rw [shape] at sorted
        have later := (List.pairwise_cons.mp (List.pairwise_append.mp sorted).2.1).1
        rcases List.mem_cons.mp outside with rfl | beyond
        · omega
        · exact absurd (later i beyond) (by omega)
    have empty := failed i position
    simpa [free.areaEmpty_iff (high.trans bound)] using empty

theorem findArea_eq_none_iff (free : FreeLists b lists) {k : ℕ} :
    findArea b k = none ↔ ∀ i, k ≤ i → i < MAX_ORDER → lists i = [] := by
  rw [findArea, List.find?_eq_none]
  constructor
  · intro failed i low high
    have empty := failed i (List.mem_range'_1.mpr (by omega))
    simpa [free.areaEmpty_iff high] using empty
  · intro empty i member
    rw [List.mem_range'_1] at member
    have high : i < MAX_ORDER := by omega
    simpa [free.areaEmpty_iff high] using empty i member.1 high

end FreeLists

variable {b : Buddy} {lists : ℕ → List ℕ} {p : ℕ} {rest : List ℕ}

/-- A frame on no list is on none after a pop. -/
theorem pop_not_mem {i q : ℕ} (bound : i < MAX_ORDER) (shape : lists i = p :: rest)
    (fresh : ∀ j < MAX_ORDER, q ∉ lists j) :
    ∀ j < MAX_ORDER, q ∉ Function.update lists i rest j := by
  intro j jBound member
  by_cases same : j = i
  · subst same
    rw [Function.update_self] at member
    exact fresh j bound (by rw [shape]; exact List.mem_cons_of_mem _ member)
  · exact fresh j jBound (by simpa [Function.update_of_ne same] using member)

/-- A frame on no list is on none after another frame was added. -/
theorem add_not_mem {i q : ℕ} (other : p ≠ q) (fresh : ∀ j < MAX_ORDER, p ∉ lists j) :
    ∀ j < MAX_ORDER, p ∉ Function.update lists i (q :: lists i) j := by
  intro j jBound member
  by_cases same : j = i
  · subst same
    rw [Function.update_self] at member
    exact (List.mem_cons.mp member).elim other (fresh j jBound)
  · exact fresh j jBound (by simpa [Function.update_of_ne same] using member)

/-- One split moves the first block of order `i + 1` down and adds its upper half. -/
theorem splitStep_spec {i : ℕ} (free : FreeLists b lists) (bound : i + 1 < MAX_ORDER)
    (shape : lists (i + 1) = p :: rest) (fresh : ∀ j < MAX_ORDER, p + 2 ^ i ∉ lists j) :
    FreeLists (splitStep (i + 1) b)
        (Function.update (Function.update lists (i + 1) rest) i (p :: (p + 2 ^ i) :: lists i)) ∧
      (splitStep (i + 1) b).pages =
        Function.update (Function.update b.pages (p + 2 ^ i) ⟨true, true, i, 0⟩) p
        { b.pages p with order := i } := by
  have positive : 0 < 2 ^ i := by positivity
  obtain ⟨first, popped⟩ := free.pop bound shape
  have small : i % 32 = i := Nat.mod_eq_of_lt (by simp [MAX_ORDER] at bound; omega)
  have upper := popped.listAdd (i := i) (by omega) (pop_not_mem bound shape fresh)
  have lower := upper.listAdd (i := i) (f := p) (by omega) (add_not_mem (by omega) (free.pop_fresh bound shape))
  simp only [Function.update_idem, Function.update_self, Function.update_of_ne (by omega : i ≠ i + 1)] at lower
  constructor
  · simpa only [splitStep, first, Node.pfn, Buddy.setPage, Buddy.listAdd, Nat.add_sub_cancel] using lower
  · simp only [splitStep, first, Node.pfn, Buddy.setPage, Buddy.listAdd, Nat.add_sub_cancel, small,
      Function.update_of_ne (by omega : p ≠ p + 2 ^ i)]

/-- The lists after taking the lowest `2 ^ k` frames of the first block of order `j`. -/
def carvedLists (lists : ℕ → List ℕ) (j k p : ℕ) (rest : List ℕ) : ℕ → List ℕ :=
  fun m => if m = j then rest else if k ≤ m ∧ m < j then (p + 2 ^ m) :: lists m else lists m

/-- What splitting does to the descriptors: the taken head changes its order, each upper half becomes
a free head, and all others keep their status. -/
structure SplitPages (old new : ℕ → Page) (j k p : ℕ) : Prop where
  head : new p = { old p with order := k }
  upper : ∀ i, k ≤ i → i < j → new (p + 2 ^ i) = ⟨true, true, i, 0⟩
  other : ∀ f, f ≠ p → (∀ i, k ≤ i → i < j → f ≠ p + 2 ^ i) → new f = old f

private theorem two_pow_inj {i m : ℕ} (same : p + 2 ^ i = p + 2 ^ m) : i = m :=
  Nat.pow_right_injective (le_refl 2) (Nat.add_left_cancel same)

private theorem carvedLists_self (lists : ℕ → List ℕ) (j p : ℕ) (rest : List ℕ) :
    carvedLists lists j j p rest = Function.update lists j rest := by
  funext m
  simp only [carvedLists, Function.update_apply]
  grind

private theorem carvedLists_succ (lists : ℕ → List ℕ) {j k : ℕ} (le : k ≤ j) (p : ℕ) (rest : List ℕ) :
    carvedLists (Function.update (Function.update lists (j + 1) rest) j (p :: (p + 2 ^ j) :: lists j)) j k p
      ((p + 2 ^ j) :: lists j) = carvedLists lists (j + 1) k p rest := by
  funext m
  simp only [carvedLists, Function.update_apply]
  grind

/-- The halves below are still on no list after one split. -/
theorem split_fresh {j k : ℕ} (bound : j + 1 < MAX_ORDER) (shape : lists (j + 1) = p :: rest)
    (fresh : ∀ i, k ≤ i → i < j + 1 → ∀ m < MAX_ORDER, p + 2 ^ i ∉ lists m) :
    ∀ i, k ≤ i → i < j → ∀ m < MAX_ORDER,
      p + 2 ^ i ∉ Function.update (Function.update lists (j + 1) rest) j (p :: (p + 2 ^ j) :: lists j) m := by
  intro i low high m mBound member
  have old := fresh i low (by omega)
  have positive : 0 < 2 ^ i := by positivity
  simp only [Function.update_apply] at member
  split_ifs at member with here above
  · subst here
    simp only [List.mem_cons] at member
    rcases member with same | same | inside
    · omega
    · exact absurd (two_pow_inj same) (by omega)
    · exact old m mBound inside
  · exact old (j + 1) bound (by simp [shape, member])
  · exact old m mBound member

/-- The split loop followed by the pop, by induction on the order the loop starts from. -/
private theorem split_pop {k : ℕ} : ∀ (j : ℕ) (b : Buddy) (lists : ℕ → List ℕ) (rest : List ℕ),
    k ≤ j → j < MAX_ORDER → FreeLists b lists → lists j = p :: rest → (b.pages p).order = j →
    (∀ i, k ≤ i → i < j → ∀ m < MAX_ORDER, p + 2 ^ i ∉ lists m) →
    ((buddySplit j k b).links.pop (.area k)).1 = .page p ∧
      FreeLists { buddySplit j k b with links := ((buddySplit j k b).links.pop (.area k)).2 }
        (carvedLists lists j k p rest) ∧
      SplitPages b.pages (buddySplit j k b).pages j k p := by
  intro j
  induction j with
  | zero =>
    intro b lists rest le bound free shape order fresh
    obtain rfl : k = 0 := by omega
    obtain ⟨first, popped⟩ := free.pop bound shape
    rw [← carvedLists_self lists 0 p rest] at popped
    exact ⟨first, popped, ⟨by simp [buddySplit, ← order], by omega, fun f _ _ => rfl⟩⟩
  | succ j ih =>
    intro b lists rest le bound free shape order fresh
    rcases Nat.lt_or_ge k (j + 1) with lt | ge
    · obtain ⟨stepFree, stepPages⟩ := splitStep_spec free bound shape (fresh j (by omega) (by omega))
      have positive : 0 < 2 ^ j := by positivity
      have stepped : buddySplit (j + 1) k b = buddySplit j k (splitStep (j + 1) b) := if_pos lt
      have orderNow : ((splitStep (j + 1) b).pages p).order = j := by simp [stepPages]
      obtain ⟨first, popped, pages⟩ := ih (splitStep (j + 1) b) _ ((p + 2 ^ j) :: lists j) (by omega) (by omega)
        stepFree (by simp) orderNow (split_fresh bound shape fresh)
      rw [carvedLists_succ lists (by omega)] at popped
      rw [stepped]
      refine ⟨first, popped, ?_, ?_, ?_⟩
      · rw [pages.head, stepPages]
        simp
      · intro i low high
        rcases Nat.lt_or_ge i j with below | equal
        · exact pages.upper i low below
        · obtain rfl : i = j := by omega
          rw [pages.other (p + 2 ^ i) (by omega) (fun m _ below same => absurd (two_pow_inj same) (by omega)),
            stepPages]
          simp
      · intro f notHead notUpper
        rw [pages.other f notHead (fun i low high => notUpper i low (by omega)), stepPages,
          Function.update_of_ne notHead, Function.update_of_ne (notUpper j (by omega) (by omega))]
    · obtain rfl : k = j + 1 := by omega
      have stay : buddySplit (j + 1) (j + 1) b = b := if_neg (by omega)
      obtain ⟨first, popped⟩ := free.pop bound shape
      rw [← carvedLists_self lists (j + 1) p rest] at popped
      rw [stay]
      exact ⟨first, popped, ⟨by rw [← order], fun i low high => absurd high (by omega), fun f _ _ => rfl⟩⟩

/-- The guard `i > order` in front of `buddy_split` only skips a loop without rounds. -/
theorem buddySplit_guard (b : Buddy) {j k : ℕ}
    (le : k ≤ j) : (if j > k then buddySplit j k b else b) = buddySplit j k b := by
  rcases Nat.lt_or_ge k j with lt | ge
  · exact if_pos lt
  · obtain rfl : k = j := by omega
    rw [if_neg (by omega)]
    cases k with
    | zero => rfl
    | succ k => exact (if_neg (by omega)).symm

/-- The effect of `buddy_alloc` on lists and descriptors, for any list content. -/
theorem buddyTake_spec {k j : ℕ} (free : FreeLists b lists) (found : findArea b k = some j)
    (shape : lists j = p :: rest) (order : (b.pages p).order = j)
    (fresh : ∀ i, k ≤ i → i < j → ∀ m < MAX_ORDER, p + 2 ^ i ∉ lists m) :
    ∃ taken, buddyTake k b = some (p, taken) ∧ FreeLists taken (carvedLists lists j k p rest) ∧
      SplitPages b.pages taken.pages j k p := by
  obtain ⟨le, bound, _, _⟩ := free.findArea_eq_some found
  obtain ⟨first, popped, pages⟩ := split_pop j b lists rest le bound free shape order fresh
  have same := buddySplit_guard b le
  refine ⟨_, ?_, popped, pages⟩
  simp only [buddyTake, found, Option.map_some, same, first, Node.pfn]

end Pke.Proofs
