import Mathlib.Data.Nat.Bitwise
import Mathlib.Data.Set.Basic
import Mathlib.Order.Interval.Set.Basic
import Mathlib.Tactic

/-! # Naturally aligned blocks and maximal decompositions

A block of order `k` is an interval of `2 ^ k` naturals that starts at a multiple of `2 ^ k`. Two
blocks are nested or disjoint, so the blocks of order at most `cap` that are maximal inside a set
partition it, and this partition depends on the set alone. The three main results say how it changes
when a block is carved out of one of its members, when a block is given back, and how a greedy scan
computes it for an interval.
-/

namespace Pke.Lib

/-- A naturally aligned block of `2 ^ order` consecutive naturals. -/
@[ext] structure Block where
  start : ℕ
  order : ℕ
  aligned : 2 ^ order ∣ start

namespace Block

variable {b c d : Block} {x y k cap : ℕ} {S : Set ℕ}

def frames (b : Block) : Set ℕ := {x | b.start ≤ x ∧ x < b.start + 2 ^ b.order}

/-- The block of order `k` around a number. -/
def around (x k : ℕ) : Block := ⟨x / 2 ^ k * 2 ^ k, k, Nat.dvd_mul_left _ _⟩

/-- The block of the next order that contains `b`. -/
def parent (b : Block) : Block := around b.start (b.order + 1)

private theorem div_aligned (b : Block) : b.start / 2 ^ b.order * 2 ^ b.order = b.start :=
  Nat.div_mul_cancel b.aligned

/-- Membership is a statement about quotients, which makes nesting a fact of division. -/
theorem mem_frames : x ∈ b.frames ↔ x / 2 ^ b.order = b.start / 2 ^ b.order := by
  have positive : 0 < 2 ^ b.order := by positivity
  have exact := b.div_aligned
  change b.start ≤ x ∧ x < b.start + 2 ^ b.order ↔ _
  rw [Nat.div_eq_iff positive, exact]
  omega

theorem start_mem (b : Block) : b.start ∈ b.frames := mem_frames.mpr rfl

theorem mem_around (x k : ℕ) : x ∈ (around x k).frames := by
  rw [mem_frames]
  simp [around]

private theorem div_eq_of_le {m n : ℕ} (le : m ≤ n) (same : x / 2 ^ m = y / 2 ^ m) :
    x / 2 ^ n = y / 2 ^ n := by
  rw [← Nat.add_sub_cancel' le, Nat.pow_add, ← Nat.div_div_eq_div_mul, same, Nat.div_div_eq_div_mul]

/-- Of two blocks that share a number, the one of smaller order lies inside the other. -/
theorem subset_of_mem (le : b.order ≤ c.order) (inB : x ∈ b.frames) (inC : x ∈ c.frames) :
    b.frames ⊆ c.frames := by
  intro y member
  rw [mem_frames] at *
  exact (div_eq_of_le le (member.trans inB.symm)).trans inC

theorem eq_of_mem (same : b.order = c.order) (inB : x ∈ b.frames) (inC : x ∈ c.frames) : b = c := by
  rw [mem_frames] at inB inC
  have start : b.start = c.start := by
    rw [← b.div_aligned, ← c.div_aligned, ← inB, ← inC, same]
  exact Block.ext start same

theorem subset_or_subset (inB : x ∈ b.frames) (inC : x ∈ c.frames) :
    b.frames ⊆ c.frames ∨ c.frames ⊆ b.frames :=
  (Nat.le_total b.order c.order).imp (subset_of_mem · inB inC) (subset_of_mem · inC inB)

theorem order_le_of_subset (sub : b.frames ⊆ c.frames) : b.order ≤ c.order := by
  have first := sub b.start_mem
  have positive : 0 < 2 ^ b.order := by positivity
  have last : b.start + 2 ^ b.order - 1 ∈ c.frames := sub ⟨by omega, by omega⟩
  have size : 2 ^ b.order ≤ 2 ^ c.order := by
    have lower := first.1
    have upper := last.2
    omega
  exact (Nat.pow_le_pow_iff_right (by decide)).mp size

theorem eq_of_subset (sub : b.frames ⊆ c.frames) (le : c.order ≤ b.order) : b = c :=
  eq_of_mem (Nat.le_antisymm (order_le_of_subset sub) le) b.start_mem (sub b.start_mem)

@[simp] theorem parent_order (b : Block) : b.parent.order = b.order + 1 := rfl

theorem subset_parent (b : Block) : b.frames ⊆ b.parent.frames :=
  subset_of_mem (Nat.le_succ _) b.start_mem (mem_around _ _)

/-- A block strictly inside another has its parent inside it as well. -/
theorem parent_subset (sub : b.frames ⊆ c.frames) (lt : b.order < c.order) :
    b.parent.frames ⊆ c.frames :=
  subset_of_mem lt (b.subset_parent b.start_mem) (sub b.start_mem)

section Buddy

/-- The other half of the parent, found by flipping one address bit. -/
def buddy (b : Block) : Block where
  start := b.start ^^^ 2 ^ b.order
  order := b.order
  aligned := by
    have split : b.start ^^^ 2 ^ b.order = (b.start / 2 ^ b.order ^^^ 1) <<< b.order := by
      rw [Nat.shiftLeft_xor_distrib, Nat.shiftLeft_eq, Nat.shiftLeft_eq, b.div_aligned, one_mul]
    rw [split, Nat.shiftLeft_eq]
    exact Nat.dvd_mul_left _ _

@[simp] theorem buddy_order (b : Block) : b.buddy.order = b.order := rfl

private theorem buddy_div (b : Block) :
    b.buddy.start / 2 ^ b.order = b.start / 2 ^ b.order ^^^ 1 := by
  change (b.start ^^^ 2 ^ b.order) / 2 ^ b.order = _
  rw [Nat.xor_div_two_pow, Nat.div_self (by positivity)]

private theorem half_eq_iff (p q : ℕ) : p / 2 = q / 2 ↔ p = q ∨ p = q ^^^ 1 := by
  rcases Nat.even_or_odd q with even | odd
  · rw [Nat.xor_one_of_even even]
    obtain ⟨r, rfl⟩ := even
    omega
  · rw [Nat.xor_one_of_odd odd]
    obtain ⟨r, rfl⟩ := odd
    omega

theorem mem_parent : x ∈ b.parent.frames ↔ x ∈ b.frames ∨ x ∈ b.buddy.frames := by
  rw [mem_frames, mem_frames, mem_frames, buddy_order, buddy_div, ← half_eq_iff,
    Nat.div_div_eq_div_mul, Nat.div_div_eq_div_mul, ← Nat.pow_succ]
  change x / 2 ^ (b.order + 1) = b.start / 2 ^ (b.order + 1) * 2 ^ (b.order + 1) / 2 ^ (b.order + 1) ↔ _
  rw [Nat.mul_div_cancel _ (by positivity)]

theorem buddy_disjoint (inB : x ∈ b.frames) : x ∉ b.buddy.frames := by
  rw [mem_frames] at *
  rw [buddy_order, buddy_div, inB]
  rcases Nat.even_or_odd (b.start / 2 ^ b.order) with even | odd
  · rw [Nat.xor_one_of_even even]
    omega
  · rw [Nat.xor_one_of_odd odd]
    obtain ⟨r, half⟩ := odd
    omega

theorem buddy_subset_parent (b : Block) : b.buddy.frames ⊆ b.parent.frames :=
  fun _ member => mem_parent.mpr (Or.inr member)

@[simp] theorem buddy_buddy (b : Block) : b.buddy.buddy = b :=
  Block.ext (by simp [buddy]) rfl

theorem parent_buddy (b : Block) : b.buddy.parent = b.parent :=
  eq_of_mem rfl (b.buddy.subset_parent b.buddy.start_mem) (b.buddy_subset_parent b.buddy.start_mem)

/-- Of the blocks below `n` only the last one of its order can have its buddy beyond, and it has if `n` is
an odd multiple of its size. -/
theorem le_buddy_start_iff {n : ℕ} (inside : b.start + 2 ^ b.order ≤ n) :
    n ≤ b.buddy.start ↔ b.start + 2 ^ b.order = n ∧ ¬ 2 ^ (b.order + 1) ∣ n := by
  have positive : 0 < 2 ^ b.order := by positivity
  have buddy : b.buddy.start = (b.start / 2 ^ b.order ^^^ 1) * 2 ^ b.order := by
    rw [← b.buddy_div]
    exact b.buddy.div_aligned.symm
  have start := b.div_aligned
  rw [buddy]
  rcases Nat.even_or_odd (b.start / 2 ^ b.order) with even | odd
  · rw [Nat.xor_one_of_even even, Nat.succ_mul, start]
    obtain ⟨r, half⟩ := even
    constructor
    · intro le
      have last : b.start + 2 ^ b.order = n := Nat.le_antisymm inside le
      refine ⟨last, fun divides => ?_⟩
      have whole : 2 ^ (b.order + 1) ∣ b.start := ⟨r, by rw [← start, half, Nat.pow_succ]; ring⟩
      have rest := (Nat.dvd_add_right whole).mp (last ▸ divides)
      exact absurd (Nat.le_of_dvd positive rest) (Nat.not_le.mpr (Nat.pow_lt_pow_succ (by decide)))
    · exact fun last => last.1.symm.le
  · rw [Nat.xor_one_of_odd odd]
    obtain ⟨r, half⟩ := odd
    have before : (b.start / 2 ^ b.order - 1) * 2 ^ b.order < n := by
      rw [Nat.sub_mul, start]
      omega
    refine ⟨fun le => absurd le (Nat.not_le.mpr before), ?_⟩
    rintro ⟨last, indivisible⟩
    refine absurd ⟨r + 1, ?_⟩ indivisible
    rw [← last, ← start, half, Nat.pow_succ]
    ring

end Buddy

/-- No larger admissible block of `S` contains `b`. -/
def IsMaximal (cap : ℕ) (S : Set ℕ) (b : Block) : Prop :=
  b.order ≤ cap ∧ b.frames ⊆ S ∧
    ∀ c : Block, c.order ≤ cap → c.frames ⊆ S → b.frames ⊆ c.frames → c = b

/-- Maximality only has to be tested against the parent. -/
theorem isMaximal_iff : IsMaximal cap S b ↔
    b.order ≤ cap ∧ b.frames ⊆ S ∧ (b.order < cap → ¬ b.parent.frames ⊆ S) := by
  constructor
  · rintro ⟨le, sub, largest⟩
    refine ⟨le, sub, fun lt inside => ?_⟩
    have same := largest b.parent lt inside b.subset_parent
    have orders := congrArg Block.order same
    simp at orders
  · rintro ⟨le, sub, blocked⟩
    refine ⟨le, sub, fun c cLe cSub outer => ?_⟩
    rcases Nat.lt_or_ge b.order c.order with lt | ge
    · exact absurd ((parent_subset outer lt).trans cSub) (blocked (by omega))
    · exact (eq_of_subset outer ge).symm

/-- A block inside `S` that meets a maximal block lies inside it. -/
theorem IsMaximal.subset (maximal : IsMaximal cap S b) (cLe : c.order ≤ cap) (cSub : c.frames ⊆ S)
    (inB : x ∈ b.frames) (inC : x ∈ c.frames) : c.frames ⊆ b.frames := by
  rcases subset_or_subset inB inC with outer | inner
  · rw [maximal.2.2 c cLe cSub outer]
  · exact inner

theorem IsMaximal.eq_of_mem (first : IsMaximal cap S b) (second : IsMaximal cap S c)
    (inB : x ∈ b.frames) (inC : x ∈ c.frames) : b = c :=
  second.2.2 b first.1 first.2.1 (first.subset second.1 second.2.1 inB inC)

open Classical in
/-- Every element of `S` lies in a maximal block of `S`. -/
theorem exists_isMaximal (cap : ℕ) (member : x ∈ S) : ∃ b, IsMaximal cap S b ∧ x ∈ b.frames := by
  let inside (k : ℕ) : Prop := (around x k).frames ⊆ S
  have base : inside 0 := by
    intro y found
    rw [mem_frames] at found
    have same : y = x := by simpa [around] using found
    exact same ▸ member
  have found : inside (Nat.findGreatest inside cap) := Nat.findGreatest_spec (Nat.zero_le _) base
  refine ⟨around x (Nat.findGreatest inside cap), isMaximal_iff.mpr ⟨Nat.findGreatest_le _, found, ?_⟩,
    mem_around _ _⟩
  intro lt outer
  have same : (around x (Nat.findGreatest inside cap)).parent = around x (Nat.findGreatest inside cap + 1) :=
    Block.eq_of_mem rfl (subset_parent _ (mem_around _ _)) (mem_around _ _)
  rw [same] at outer
  exact Nat.findGreatest_is_greatest (Nat.lt_succ_self _) lt outer

/-- A family of maximal blocks that covers `S` contains all of them. -/
theorem mem_of_isMaximal {family : Block → Prop} (maximal : ∀ b, family b → IsMaximal cap S b)
    (cover : ∀ x ∈ S, ∃ b, family b ∧ x ∈ b.frames) (target : IsMaximal cap S b) : family b := by
  obtain ⟨c, member, found⟩ := cover _ (target.2.1 b.start_mem)
  exact (maximal c member).eq_of_mem target found b.start_mem ▸ member

section Carve

/-- The lowest part of `b` of order `k`. -/
def lower (b : Block) (k : ℕ) (le : k ≤ b.order) : Block :=
  ⟨b.start, k, (Nat.pow_dvd_pow 2 le).trans b.aligned⟩

/-- The upper half of the lowest part of order `i + 1`. -/
def upper (b : Block) (i : ℕ) (lt : i < b.order) : Block where
  start := b.start + 2 ^ i
  order := i
  aligned := Nat.dvd_add ((Nat.pow_dvd_pow 2 lt.le).trans b.aligned) dvd_rfl

theorem lower_subset (b : Block) (k : ℕ) (le : k ≤ b.order) : (b.lower k le).frames ⊆ b.frames :=
  subset_of_mem le (start_mem _) b.start_mem

theorem upper_subset (b : Block) (i : ℕ) (lt : i < b.order) : (b.upper i lt).frames ⊆ b.frames := by
  have size : 2 ^ i * 2 ≤ 2 ^ b.order := Nat.pow_succ 2 i ▸ Nat.pow_le_pow_right (by decide) lt
  rintro x ⟨above, below⟩
  simp only [upper] at above below
  exact ⟨by omega, by omega⟩

private theorem parent_upper (b : Block) (i : ℕ) (lt : i < b.order) :
    (b.upper i lt).parent = b.lower (i + 1) lt := by
  have size : 2 ^ (i + 1) = 2 ^ i + 2 ^ i := by ring
  have positive : 0 < 2 ^ i := by positivity
  refine eq_of_mem rfl (subset_parent _ (start_mem (b.upper i lt))) ⟨?_, ?_⟩
  · change b.start ≤ b.start + 2 ^ i
    omega
  · change b.start + 2 ^ i < b.start + 2 ^ (i + 1)
    omega

/-- Taking the lowest part of a maximal block leaves one upper half per order below it. -/
theorem isMaximal_diff_iff (maximal : IsMaximal cap S b) (le : k ≤ b.order) :
    IsMaximal cap (S \ (b.lower k le).frames) c ↔
      (IsMaximal cap S c ∧ c ≠ b) ∨ ∃ i, ∃ lt : i < b.order, k ≤ i ∧ c = b.upper i lt := by
  have keep : ∀ c, (IsMaximal cap S c ∧ c ≠ b) ∨ (∃ i, ∃ lt : i < b.order, k ≤ i ∧ c = b.upper i lt) →
      IsMaximal cap (S \ (b.lower k le).frames) c := by
    rintro c (⟨other, different⟩ | ⟨i, lt, above, rfl⟩)
    · have apart : ∀ x ∈ c.frames, x ∉ b.frames := fun x inC inB => different (other.eq_of_mem maximal inC inB)
      refine isMaximal_iff.mpr ⟨other.1, fun x inC => ⟨other.2.1 inC, fun low => ?_⟩, fun lt outer => ?_⟩
      · exact apart x inC (b.lower_subset k le low)
      · exact (isMaximal_iff.mp other).2.2 lt (fun x inside => (outer inside).1)
    · refine isMaximal_iff.mpr ⟨(Nat.le_of_lt lt).trans maximal.1, fun x member => ⟨?_, ?_⟩, fun _ outer => ?_⟩
      · exact maximal.2.1 (b.upper_subset i lt member)
      · have size : 2 ^ k ≤ 2 ^ i := Nat.pow_le_pow_right (by decide) above
        rintro ⟨_, below⟩
        obtain ⟨high, _⟩ := member
        simp only [upper, lower] at high below
        omega
      · rw [parent_upper] at outer
        exact (outer (start_mem _)).2 (start_mem (b.lower k le))
  refine ⟨mem_of_isMaximal keep (fun x member => ?_), keep c⟩
  obtain ⟨d, other, found⟩ := exists_isMaximal cap member.1
  by_cases same : d = b
  · subst same
    obtain ⟨above, below⟩ := found
    have beyond : d.start + 2 ^ k ≤ x := by
      by_contra short
      exact member.2 ⟨above, by change x < d.start + 2 ^ k; omega⟩
    -- the upper half that contains `x` is given by the leading bit of its offset
    have nonzero : x - d.start ≠ 0 := by have : 0 < 2 ^ k := by positivity
                                         omega
    have floor := Nat.log2_self_le nonzero
    have ceiling := Nat.lt_log2_self (n := x - d.start)
    have lt : (x - d.start).log2 < d.order := by
      refine (Nat.pow_lt_pow_iff_right (a := 2) (by decide)).mp ?_
      omega
    have high : k ≤ (x - d.start).log2 := by
      refine (Nat.le_log2 nonzero).mpr ?_
      omega
    refine ⟨d.upper _ lt, Or.inr ⟨_, lt, high, rfl⟩, ?_, ?_⟩
    · change d.start + 2 ^ (x - d.start).log2 ≤ x
      omega
    · change x < d.start + 2 ^ (x - d.start).log2 + 2 ^ (x - d.start).log2
      rw [Nat.pow_succ] at ceiling
      omega
  · exact ⟨d, Or.inl ⟨other, same⟩, found⟩

end Carve

/-- Giving back a block `b`: once the merged block `m` has no maximal buddy left, it replaces
everything it absorbed and nothing else changes. -/
theorem isMaximal_union_iff {m : Block} (apart : ∀ x ∈ b.frames, x ∉ S) (mLe : m.order ≤ cap)
    (inner : b.frames ⊆ m.frames) (outer : m.frames ⊆ S ∪ b.frames)
    (stop : m.order < cap → ¬ IsMaximal cap S m.buddy) :
    IsMaximal cap (S ∪ b.frames) c ↔ c = m ∨ (IsMaximal cap S c ∧ ¬ c.frames ⊆ m.frames) := by
  have mMaximal : IsMaximal cap (S ∪ b.frames) m := by
    refine isMaximal_iff.mpr ⟨mLe, outer, fun lt wide => stop lt ?_⟩
    have free : m.buddy.frames ⊆ S := by
      intro x member
      refine (wide (m.buddy_subset_parent member)).resolve_right (fun inB => ?_)
      exact buddy_disjoint (inner inB) member
    refine isMaximal_iff.mpr ⟨mLe, free, fun _ whole => ?_⟩
    rw [parent_buddy] at whole
    exact apart _ b.start_mem (whole (m.subset_parent (inner b.start_mem)))
  have keep : ∀ c, c = m ∨ (IsMaximal cap S c ∧ ¬ c.frames ⊆ m.frames) → IsMaximal cap (S ∪ b.frames) c := by
    rintro c (rfl | ⟨other, outside⟩)
    · exact mMaximal
    · have disjoint : ∀ x ∈ c.frames, x ∉ m.frames := by
        intro x inC inM
        rcases subset_or_subset inC inM with bad | bad
        · exact outside bad
        · exact apart _ b.start_mem (other.2.1 (bad (inner b.start_mem)))
      refine isMaximal_iff.mpr ⟨other.1, other.2.1.trans Set.subset_union_left, fun lt wide => ?_⟩
      -- either the parent avoids `m`, or `m` sits in the sibling of `c`
      by_cases meets : ∃ x ∈ c.parent.frames, x ∈ m.frames
      · obtain ⟨x, inParent, inM⟩ := meets
        have small : m.order ≤ c.order := by
          by_contra large
          have sub : c.parent.frames ⊆ m.frames := subset_of_mem (Nat.lt_of_not_le large) inParent inM
          exact disjoint _ c.start_mem (sub (c.subset_parent c.start_mem))
        have sibling : x ∈ c.buddy.frames := by
          rcases mem_parent.mp inParent with inC | inBuddy
          · exact absurd inM (disjoint x inC)
          · exact inBuddy
        rcases Nat.lt_or_ge m.order c.order with lower | equal
        · have within : m.parent.frames ⊆ c.buddy.frames :=
            parent_subset (subset_of_mem lower.le inM sibling) lower
          exact (isMaximal_iff.mp mMaximal).2.2 (by omega) (within.trans (c.buddy_subset_parent.trans wide))
        · have same : m = c.buddy := Block.eq_of_mem (Nat.le_antisymm small equal) inM sibling
          rw [same, buddy_buddy] at stop
          exact stop lt other
      · refine (isMaximal_iff.mp other).2.2 lt (fun x inParent => ?_)
        exact (wide inParent).resolve_right (fun inB => meets ⟨x, inParent, inner inB⟩)
  refine ⟨mem_of_isMaximal keep (fun x member => ?_), keep c⟩
  by_cases inM : x ∈ m.frames
  · exact ⟨m, Or.inl rfl, inM⟩
  · have free : x ∈ S := member.resolve_right (fun inB => inM (inner inB))
    obtain ⟨d, other, found⟩ := exists_isMaximal cap free
    exact ⟨d, Or.inr ⟨other, fun sub => inM (sub found)⟩, found⟩

section Greedy

variable {lo hi curr : ℕ}

/-- No admissible block of the interval straddles `curr`. -/
def Boundary (cap lo hi curr : ℕ) : Prop :=
  ∀ c : Block, c.order ≤ cap → c.frames ⊆ Set.Ico lo hi → c.start + 2 ^ c.order ≤ curr ∨ curr ≤ c.start

theorem boundary_start (cap lo hi : ℕ) : Boundary cap lo hi lo :=
  fun c _ sub => Or.inr (sub c.start_mem).1

/-- The largest admissible block at a boundary is maximal in the interval, and its end is the next
boundary. -/
theorem greedy_step (boundary : Boundary cap lo hi b.start) (le : b.order ≤ cap) (low : lo ≤ b.start)
    (high : b.start + 2 ^ b.order ≤ hi)
    (largest : ∀ c : Block, c.start = b.start → c.order ≤ cap → c.start + 2 ^ c.order ≤ hi →
      c.order ≤ b.order) :
    IsMaximal cap (Set.Ico lo hi) b ∧ Boundary cap lo hi (b.start + 2 ^ b.order) := by
  have ending : ∀ c : Block, c.frames ⊆ Set.Ico lo hi → c.start + 2 ^ c.order ≤ hi := by
    intro c sub
    have positive : 0 < 2 ^ c.order := by positivity
    have last := (sub (show c.start + 2 ^ c.order - 1 ∈ c.frames from ⟨by omega, by omega⟩)).2
    omega
  have bounded : ∀ c : Block, c.order ≤ cap → c.frames ⊆ Set.Ico lo hi → b.frames ⊆ c.frames → c = b := by
    intro c cLe cSub outer
    have first := outer b.start_mem
    have start : c.start = b.start := by
      rcases boundary c cLe cSub with before | after
      · exact absurd first.2 (by omega)
      · exact Nat.le_antisymm first.1 after
    exact (eq_of_subset outer (largest c start cLe (ending c cSub))).symm
  refine ⟨⟨le, fun x member => ⟨low.trans member.1, member.2.trans_le high⟩, bounded⟩, fun c cLe cSub => ?_⟩
  rcases boundary c cLe cSub with before | after
  · exact Or.inl (before.trans (Nat.le_add_right _ _))
  · rcases Nat.lt_or_ge c.start (b.start + 2 ^ b.order) with meets | beyond
    · have inB : c.start ∈ b.frames := ⟨after, meets⟩
      rcases subset_or_subset c.start_mem inB with inside | outer
      · have positive : 0 < 2 ^ c.order := by positivity
        have last := (inside (show c.start + 2 ^ c.order - 1 ∈ c.frames from ⟨by omega, by omega⟩)).2
        exact Or.inl (by omega)
      · rw [bounded c cLe cSub outer]
        exact Or.inl le_rfl
    · exact Or.inr beyond

end Greedy

end Block

end Pke.Lib
