import Mathlib.Logic.Function.Basic
import Mathlib.Data.List.Nodup
import Mathlib.Tactic

/-! # Families of intrusive circular doubly linked lists

Every node carries its own `prev` and `next` pointer; a list is the ring of nodes reached from a
sentinel. `Links` is the pair of pointer fields of all nodes, and the three operations are the
sequences of stores of the usual C implementation, including the order in which a field is read
after an earlier store. `Rings` says that finitely many sentinels head pairwise disjoint rings whose
members are given by abstract lists. Push, pop and unlink act on the abstract lists as cons, uncons
and removal of one element.
-/

namespace Pke.Lib

/-- The pointer fields of every node. Nodes outside all rings may hold any stale pointers. -/
@[ext] structure Links (ν : Type*) where
  prev : ν → ν
  next : ν → ν

namespace Links

variable {ν : Type*} [DecidableEq ν]

def setPrev (l : Links ν) (node target : ν) : Links ν :=
  { l with prev := Function.update l.prev node target }

def setNext (l : Links ν) (node target : ν) : Links ν :=
  { l with next := Function.update l.next node target }

/-- Unlink a node. The second store reads `node.next` after the first one. -/
def del (l : Links ν) (node : ν) : Links ν :=
  let l := l.setNext (l.prev node) (l.next node)
  l.setPrev (l.next node) (l.prev node)

/-- Insert the segment `first … last` right after `before`. -/
def add (l : Links ν) (before first last : ν) : Links ν :=
  let l := l.setPrev first before
  let l := l.setNext last (l.next before)
  let l := l.setPrev (l.next before) last
  l.setNext before first

/-- Unlink the successor of a sentinel. Popping an empty ring is the caller's mistake. -/
def pop (l : Links ν) (head : ν) : ν × Links ν :=
  (l.next head, l.del (l.next head))

end Links

variable {ν : Type*} {l l' : Links ν}

/-- The nodes `xs` lie between `a` and `z`, with `next` and `prev` mutually inverse on the way. -/
def Linked (l : Links ν) : ν → List ν → ν → Prop
  | a, [], z => l.next a = z ∧ l.prev z = a
  | a, x :: xs, z => l.next a = x ∧ l.prev x = a ∧ Linked l x xs z

/-- A path depends only on the outgoing `next` and the incoming `prev` pointers along it. -/
theorem Linked.congr {a z : ν} {xs : List ν} (path : Linked l a xs z)
    (next : ∀ x ∈ a :: xs, l'.next x = l.next x) (prev : ∀ x ∈ xs ++ [z], l'.prev x = l.prev x) :
    Linked l' a xs z := by
  induction xs generalizing a with
  | nil =>
    obtain ⟨forward, backward⟩ := path
    exact ⟨(next a (by simp)).trans forward, (prev z (by simp)).trans backward⟩
  | cons x xs ih =>
    obtain ⟨forward, backward, rest⟩ := path
    refine ⟨(next a (by simp)).trans forward, (prev x (by simp)).trans backward, ih rest ?_ ?_⟩
    · intro y member
      exact next y (List.mem_cons_of_mem _ member)
    · intro y member
      exact prev y (by simp only [List.cons_append, List.mem_cons]; exact Or.inr member)

private theorem Linked.prev_mem {a z x : ν} {xs ys : List ν} (path : Linked l a (xs ++ x :: ys) z) :
    l.prev x ∈ a :: xs := by
  induction xs generalizing a with
  | nil => exact path.2.1 ▸ List.mem_cons_self
  | cons w ws ih => exact List.mem_cons_of_mem _ (ih path.2.2)

private theorem Linked.next_mem {a z x : ν} {xs ys : List ν} (path : Linked l a (xs ++ x :: ys) z) :
    l.next x ∈ ys ++ [z] := by
  induction xs generalizing a with
  | nil =>
    cases ys with
    | nil => simp [path.2.2.1]
    | cons y ys => simp [path.2.2.1]
  | cons w ws ih => exact ih path.2.2

/-- The first node after `a`, or `z` itself on an empty path. -/
theorem Linked.next_start {a z : ν} {xs : List ν} (path : Linked l a xs z) :
    l.next a = (xs ++ [z]).head (by simp) := by
  cases xs with
  | nil => exact path.1
  | cons x xs => exact path.1

/-- The pointers determine the members: two paths between the same nodes are the same. -/
theorem Linked.unique {a z : ν} {xs ys : List ν} (first : Linked l a xs z) (second : Linked l a ys z)
    (notFirst : z ∉ xs) (notSecond : z ∉ ys) : xs = ys := by
  induction xs generalizing a ys with
  | nil =>
    cases ys with
    | nil => rfl
    | cons y ys => exact absurd (first.1.symm.trans second.1) (List.ne_of_not_mem_cons notSecond)
  | cons x xs ih =>
    cases ys with
    | nil => exact absurd (second.1.symm.trans first.1) (List.ne_of_not_mem_cons notFirst)
    | cons y ys =>
      obtain ⟨forward, _, rest⟩ := first
      obtain ⟨forward', _, rest'⟩ := second
      obtain rfl : x = y := forward.symm.trans forward'
      rw [ih rest rest' (List.not_mem_of_not_mem_cons notFirst) (List.not_mem_of_not_mem_cons notSecond)]

variable [DecidableEq ν]

theorem Links.del_next (l : Links ν) (node : ν) :
    (l.del node).next = Function.update l.next (l.prev node) (l.next node) := rfl

theorem Links.del_prev (l : Links ν) {node : ν} (apart : node ≠ l.prev node) :
    (l.del node).prev = Function.update l.prev (l.next node) (l.prev node) := by
  simp [Links.del, Links.setNext, Links.setPrev, Function.update_of_ne apart]

theorem Links.add_next (l : Links ν) (head node : ν) :
    (l.add head node node).next =
      Function.update (Function.update l.next node (l.next head)) head node := by
  simp [Links.add, Links.setNext, Links.setPrev]

theorem Links.add_prev (l : Links ν) {head node : ν} (apart : head ≠ node) :
    (l.add head node node).prev =
      Function.update (Function.update l.prev node head) (l.next head) node := by
  simp [Links.add, Links.setNext, Links.setPrev, Function.update_of_ne apart]

/-- Following `next` from `a` leads to `x`. -/
def Links.Reaches (l : Links ν) (a x : ν) : Prop := Relation.ReflTransGen (fun m n => n = l.next m) a x

/-- No pointer of a node in `N` leads out of `N`. -/
def Links.Closed (l : Links ν) (N : Set ν) : Prop := ∀ x ∈ N, l.next x ∈ N ∧ l.prev x ∈ N

namespace Links.Closed

variable {N : Set ν}

/-- Unlinking a node of the set only moves pointers between its nodes. -/
theorem del (closed : l.Closed N) {node : ν} (member : node ∈ N) : (l.del node).Closed N := by
  obtain ⟨next, prev⟩ := closed node member
  intro x inside
  obtain ⟨nextIn, prevIn⟩ := closed x inside
  simp only [Links.del, Links.setNext, Links.setPrev, Function.update_apply]
  grind

/-- A node pushed from outside joins the set. -/
theorem add (closed : l.Closed N) {head : ν} (member : head ∈ N) (node : ν) :
    (l.add head node node).Closed (insert node N) := by
  obtain ⟨next, prev⟩ := closed head member
  intro x inside
  have known : x ≠ node → l.next x ∈ N ∧ l.prev x ∈ N := fun other => closed x (inside.resolve_left other)
  simp only [Links.add, Links.setNext, Links.setPrev, Function.update_apply, Set.mem_insert_iff]
  grind

omit [DecidableEq ν] in
theorem reaches (closed : l.Closed N) {a x : ν} (member : a ∈ N) (path : l.Reaches a x) : x ∈ N := by
  induction path with
  | refl => exact member
  | tail _ step ih =>
    subst step
    exact (closed _ ih).1

end Links.Closed

omit [DecidableEq ν] in
/-- A path is found by following `next`. -/
theorem Linked.reaches {a z : ν} {xs : List ν} (path : Linked l a xs z) : ∀ x ∈ xs, l.Reaches a x := by
  induction xs generalizing a with
  | nil => exact fun x member => absurd member List.not_mem_nil
  | cons y ys ih =>
    obtain ⟨forward, _, rest⟩ := path
    intro x member
    have first : l.Reaches a y := .single forward.symm
    rcases List.mem_cons.mp member with rfl | later
    · exact first
    · exact first.trans (ih rest x later)

omit [DecidableEq ν] in
/-- The pointers along a path stay on it. -/
theorem Linked.mem {a z : ν} {xs : List ν} (path : Linked l a xs z) :
    (∀ x ∈ a :: xs, l.next x ∈ xs ++ [z]) ∧ ∀ x ∈ xs ++ [z], l.prev x ∈ a :: xs := by
  induction xs generalizing a with
  | nil =>
    obtain ⟨forward, backward⟩ := path
    simp [forward, backward]
  | cons y ys ih =>
    obtain ⟨forward, backward, rest⟩ := path
    obtain ⟨nexts, prevs⟩ := ih rest
    constructor
    · intro x member
      rcases List.mem_cons.mp member with rfl | later
      · simp [forward]
      · exact List.mem_cons_of_mem _ (nexts x later)
    · intro x member
      rcases List.mem_cons.mp member with rfl | later
      · simp [backward]
      · exact List.mem_cons_of_mem _ (prevs x later)

omit [DecidableEq ν] in
/-- Along a path `next` and `prev` are inverse. -/
theorem Linked.inverse {a z : ν} {xs : List ν} (path : Linked l a xs z) :
    (∀ x ∈ a :: xs, l.prev (l.next x) = x) ∧ ∀ x ∈ xs ++ [z], l.next (l.prev x) = x := by
  induction xs generalizing a with
  | nil =>
    obtain ⟨forward, backward⟩ := path
    simp [forward, backward]
  | cons y ys ih =>
    obtain ⟨forward, backward, rest⟩ := path
    obtain ⟨nexts, prevs⟩ := ih rest
    constructor
    · intro x member
      rcases List.mem_cons.mp member with rfl | later
      · rw [forward, backward]
      · exact nexts x later
    · intro x member
      rcases List.mem_cons.mp member with rfl | later
      · rw [backward, forward]
      · exact prevs x later

/-- Unlinking joins the two halves of the path; `z` may be the start of the path again. -/
theorem Linked.del {a z x : ν} {xs ys : List ν} (path : Linked l a (xs ++ x :: ys) z)
    (nodup : (a :: (xs ++ x :: ys)).Nodup) (last : z ∉ xs ++ x :: ys) :
    Linked (l.del x) a (xs ++ ys) z := by
  have apart : x ≠ l.prev x := by
    intro same
    have member := same ▸ path.prev_mem
    simp only [List.nodup_cons, List.nodup_append, List.mem_append, List.mem_cons] at nodup member
    grind
  induction xs generalizing a with
  | nil =>
    obtain ⟨_, backward, rest⟩ := path
    have start := rest.next_start
    cases ys with
    | nil =>
      simp only [List.nil_append, List.head_cons] at start
      simp [Linked, Links.del_next, Links.del_prev _ apart, backward, start]
    | cons y ys =>
      simp only [List.cons_append, List.head_cons] at start
      refine ⟨by simp [Links.del_next, backward, start], ?_, ?_⟩
      · simp [Links.del_prev _ apart, backward, start]
      · apply rest.2.2.congr
        · intro w member
          rw [Links.del_next, backward, Function.update_of_ne (by rintro rfl; simp_all)]
        · intro w member
          rw [Links.del_prev _ apart, start, Function.update_of_ne (by rintro rfl; simp_all)]
  | cons w ws ih =>
    obtain ⟨forward, backward, rest⟩ := path
    have prevMem := rest.prev_mem
    have nextMem := rest.next_mem
    refine ⟨?_, ?_, ih rest (List.nodup_cons.mp nodup).2 (fun member => last (by simp_all))⟩
    · rw [Links.del_next, Function.update_of_ne, forward]
      rintro rfl
      simp only [List.nodup_cons, List.mem_append, List.mem_cons, List.cons_append] at nodup prevMem
      grind
    · rw [Links.del_prev _ apart, Function.update_of_ne, backward]
      rintro rfl
      simp only [List.nodup_cons, List.mem_append, List.mem_cons, List.cons_append,
        List.not_mem_nil, or_false] at nodup nextMem last
      grind

/-- `n` sentinels head disjoint rings with members `lists i`, in ring order. -/
structure Rings (l : Links ν) (n : ℕ) (head : ℕ → ν) (lists : ℕ → List ν) : Prop where
  linked : ∀ i < n, Linked l (head i) (lists i) (head i)
  nodup : ∀ i < n, (lists i).Nodup
  disjoint : ∀ i < n, ∀ j < n, i ≠ j → ∀ x ∈ lists i, x ∉ lists j
  head_inj : ∀ i < n, ∀ j < n, head i = head j → i = j
  head_not_mem : ∀ i < n, ∀ j < n, head i ∉ lists j

namespace Rings

variable {n : ℕ} {head : ℕ → ν} {lists : ℕ → List ν}

omit [DecidableEq ν] in
/-- The emptiness test `head.next == head` is exact. -/
theorem next_head_eq_iff (rings : Rings l n head lists) {i : ℕ} (bound : i < n) :
    l.next (head i) = head i ↔ lists i = [] := by
  have start := (rings.linked i bound).next_start
  cases empty : lists i with
  | nil => simpa [empty] using start
  | cons x xs =>
    have member : x ∈ lists i := by simp [empty]
    simp only [start, empty, List.cons_append, List.head_cons, reduceCtorEq, iff_false]
    intro same
    exact rings.head_not_mem i bound i bound (same ▸ member)

omit [DecidableEq ν] in
theorem next_head (rings : Rings l n head lists) {i : ℕ} (bound : i < n) {x : ν} {xs : List ν}
    (nonempty : lists i = x :: xs) : l.next (head i) = x := by
  have path := rings.linked i bound
  rw [nonempty] at path
  exact path.1

omit [DecidableEq ν] in
/-- Sentinels and members together are closed. -/
theorem closed (rings : Rings l n head lists) : l.Closed {x | ∃ i < n, x = head i ∨ x ∈ lists i} := by
  rintro x ⟨i, bound, member⟩
  obtain ⟨nexts, prevs⟩ := (rings.linked i bound).mem
  refine ⟨⟨i, bound, ?_⟩, i, bound, ?_⟩
  · simpa [or_comm] using nexts x (List.mem_cons.mpr member)
  · simpa using prevs x (by simpa [or_comm] using member)

omit [DecidableEq ν] in
/-- What a sentinel leads to is its own ring. -/
theorem reaches_iff (rings : Rings l n head lists) {i : ℕ} (bound : i < n) {x : ν} :
    l.Reaches (head i) x ↔ x = head i ∨ x ∈ lists i := by
  have path := rings.linked i bound
  constructor
  · intro steps
    induction steps with
    | refl => exact Or.inl rfl
    | tail _ step ih =>
      subst step
      have next := path.mem.1 _ (List.mem_cons.mpr ih)
      simpa [or_comm] using next
  · rintro (rfl | member)
    · exact .refl
    · exact path.reaches x member

omit [DecidableEq ν] in
/-- On a ring `next` and `prev` are inverse. -/
theorem inverse (rings : Rings l n head lists) {i : ℕ} (bound : i < n) {x : ν}
    (member : x ∈ head i :: lists i) :
    l.prev (l.next x) = x ∧ l.next (l.prev x) = x := by
  obtain ⟨nexts, prevs⟩ := (rings.linked i bound).inverse
  refine ⟨nexts x member, prevs x ?_⟩
  rcases List.mem_cons.mp member with rfl | inner
  · exact List.mem_append_right _ (List.mem_singleton_self _)
  · exact List.mem_append_left _ inner

/-- Pushing a node that is on no ring prepends it to one abstract list. -/
theorem add (rings : Rings l n head lists) {i : ℕ} (bound : i < n) {x : ν}
    (fresh : ∀ j < n, x ∉ lists j) (notHead : ∀ j < n, head j ≠ x) :
    Rings (l.add (head i) x x) n head (Function.update lists i (x :: lists i)) := by
  have apart := notHead i bound
  have path := rings.linked i bound
  have start : l.next (head i) ∈ lists i ++ [head i] := path.next_start ▸ List.head_mem _
  have startNe : ∀ j < n, j ≠ i → ∀ y ∈ lists j ++ [head j], y ≠ l.next (head i) := by
    rintro j jBound different y member rfl
    simp only [List.mem_append, List.mem_singleton] at start member
    rcases start with inner | outer <;> rcases member with other | other
    · exact rings.disjoint i bound j jBound different.symm _ inner other
    · exact rings.head_not_mem j jBound i bound (other ▸ inner)
    · exact rings.head_not_mem i bound j jBound (outer ▸ other)
    · exact different (rings.head_inj j jBound i bound (other.symm.trans outer))
  constructor
  · intro j jBound
    by_cases same : j = i
    · subst same
      rw [Function.update_self]
      refine ⟨by simp [Links.add_next], ?_, ?_⟩
      · rw [Links.add_prev _ apart, Function.update_of_ne, Function.update_self]
        rintro rfl
        simp only [List.mem_append, List.mem_singleton] at start
        exact start.elim (fresh j bound) (fun same => apart same.symm)
      · cases shape : lists j with
        | nil =>
          rw [shape] at path
          simp [Linked, Links.add_next, Links.add_prev _ apart, path.1, Function.update_of_ne apart.symm]
        | cons y ys =>
          rw [shape] at path
          have members : ∀ w ∈ y :: ys, w ∈ lists j := fun w => by simp [shape]
          have nodup := shape ▸ rings.nodup j bound
          have avoid := rings.head_not_mem j bound j bound
          refine ⟨?_, by simp [Links.add_prev _ apart, path.1], ?_⟩
          · rw [Links.add_next, Function.update_of_ne apart.symm, Function.update_self, path.1]
          · apply path.2.2.congr
            · intro w member
              have inside := members w member
              rw [Links.add_next, Function.update_of_ne (by rintro rfl; exact avoid inside),
                Function.update_of_ne (by rintro rfl; exact fresh j bound inside)]
            · intro w member
              simp only [List.mem_append, List.mem_singleton] at member
              rw [Links.add_prev _ apart, path.1, Function.update_of_ne, Function.update_of_ne]
              · rintro rfl
                exact member.elim (fun inner => fresh j bound (members _ (by simp [inner])))
                  (fun same => apart same.symm)
              · rintro rfl
                refine member.elim (fun inner => (List.nodup_cons.mp nodup).1 inner) (fun same => ?_)
                exact avoid (same ▸ members _ (by simp))
    · rw [Function.update_of_ne same]
      apply (rings.linked j jBound).congr
      · intro w member
        simp only [List.mem_cons] at member
        rw [Links.add_next, Function.update_of_ne, Function.update_of_ne]
        · rintro rfl
          exact member.elim (fun eq => notHead j jBound eq.symm) (fresh j jBound)
        · rintro rfl
          exact member.elim (fun eq => same (rings.head_inj j jBound i bound eq.symm))
            (rings.head_not_mem i bound j jBound)
      · intro w member
        rw [Links.add_prev _ apart, Function.update_of_ne (startNe j jBound same w member),
          Function.update_of_ne]
        rintro rfl
        simp only [List.mem_append, List.mem_singleton] at member
        exact member.elim (fresh j jBound) (fun eq => notHead j jBound eq.symm)
  · intro j jBound
    by_cases same : j = i
    · subst same
      simpa using ⟨fresh j jBound, rings.nodup j jBound⟩
    · simpa [Function.update_of_ne same] using rings.nodup j jBound
  · intro j jBound k kBound different w member
    have base := rings.disjoint j jBound k kBound different w
    have freshJ := fresh j jBound
    have freshK := fresh k kBound
    simp only [Function.update_apply] at member ⊢
    grind
  · exact rings.head_inj
  · intro j jBound k kBound member
    have base := rings.head_not_mem j jBound k kBound
    have other := notHead j jBound
    simp only [Function.update_apply] at member
    grind

/-- Unlinking a node from the middle of a ring removes exactly that element. -/
theorem del (rings : Rings l n head lists) {i : ℕ} (bound : i < n) {x : ν} {xs ys : List ν}
    (shape : lists i = xs ++ x :: ys) :
    Rings (l.del x) n head (Function.update lists i (xs ++ ys)) := by
  have path := shape ▸ rings.linked i bound
  have nodup := shape ▸ rings.nodup i bound
  have avoid := shape ▸ rings.head_not_mem i bound i bound
  have prevMem := path.prev_mem
  have nextMem := path.next_mem
  have apart : x ≠ l.prev x := by
    intro same
    rw [← same] at prevMem
    simp only [List.nodup_append, List.mem_cons, List.mem_append] at nodup prevMem avoid
    grind
  have subset : ∀ w ∈ xs ++ ys, w ∈ lists i := by
    intro w member
    simp only [shape, List.mem_append, List.mem_cons] at member ⊢
    tauto
  have sub : ∀ j, ∀ w ∈ Function.update lists i (xs ++ ys) j, w ∈ lists j := by
    intro j w member
    by_cases same : j = i
    · subst same
      exact subset w (by simpa using member)
    · simpa [Function.update_of_ne same] using member
  constructor
  · intro j jBound
    by_cases same : j = i
    · subst same
      rw [Function.update_self]
      exact path.del (List.nodup_cons.mpr ⟨avoid, nodup⟩) avoid
    · rw [Function.update_of_ne same]
      have ringMem : ∀ w, w ∈ head i :: lists i → ∀ y ∈ head j :: lists j, y ≠ w := by
        rintro w inner y outer rfl
        simp only [List.mem_cons] at inner outer
        rcases inner with left | left <;> rcases outer with right | right
        · exact same (rings.head_inj j jBound i bound (right.symm.trans left))
        · exact rings.head_not_mem i bound j jBound (left ▸ right)
        · exact rings.head_not_mem j jBound i bound (right ▸ left)
        · exact rings.disjoint j jBound i bound same y right left
      have prevIn : l.prev x ∈ head i :: lists i := by
        rw [shape]
        simp only [List.mem_cons, List.mem_append] at prevMem ⊢
        tauto
      have nextIn : l.next x ∈ head i :: lists i := by
        rw [shape]
        simp only [List.mem_cons, List.mem_append, List.not_mem_nil, or_false] at nextMem ⊢
        tauto
      apply (rings.linked j jBound).congr
      · intro w member
        rw [Links.del_next, Function.update_of_ne (ringMem _ prevIn w member)]
      · intro w member
        have outer : w ∈ head j :: lists j := by simpa [or_comm] using member
        rw [Links.del_prev _ apart, Function.update_of_ne (ringMem _ nextIn w outer)]
  · intro j jBound
    by_cases same : j = i
    · subst same
      simp only [Function.update_self]
      exact nodup.sublist (by simp)
    · simpa [Function.update_of_ne same] using rings.nodup j jBound
  · intro j jBound k kBound different w member other
    exact rings.disjoint j jBound k kBound different w (sub j w member) (sub k w other)
  · exact rings.head_inj
  · intro j jBound k kBound member
    exact rings.head_not_mem j jBound k kBound (sub k _ member)

/-- Popping takes the first abstract element. -/
theorem pop (rings : Rings l n head lists) {i : ℕ} (bound : i < n) {x : ν} {xs : List ν}
    (shape : lists i = x :: xs) :
    (l.pop (head i)).1 = x ∧ Rings (l.pop (head i)).2 n head (Function.update lists i xs) := by
  have first := rings.next_head bound shape
  refine ⟨first, ?_⟩
  simp only [Links.pop, first]
  exact rings.del bound (show lists i = [] ++ x :: xs from shape)

omit [DecidableEq ν] in
/-- Self-looped sentinels represent empty lists. -/
theorem nil (loops : ∀ i < n, l.next (head i) = head i ∧ l.prev (head i) = head i)
    (inj : ∀ i < n, ∀ j < n, head i = head j → i = j) : Rings l n head (fun _ => []) where
  linked i bound := ⟨(loops i bound).1, (loops i bound).2⟩
  nodup _ _ := List.nodup_nil
  disjoint := by simp
  head_inj := inj
  head_not_mem := by simp

end Rings

end Pke.Lib
