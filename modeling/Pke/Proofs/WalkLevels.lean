import Pke.Proofs.MapPages

/-! # The target level of `page_walk`

The loop stops at the table of the target level, but the index behind the loop is that of level 0. The
address returned is therefore the one asked for exactly where the two indices agree. With `alloc`
the walk returns a table if `alloc_page` gives a page for every table that is missing on the way.
-/

namespace Pke.Proofs

open Pke.Lib Pke.Model

variable {σ : Type} {env : PageEnv σ}

/-- The indices of `n` levels above `level`, from the top. -/
def pathDown (level va : ℕ) : ℕ → List ℕ
  | 0 => []
  | n + 1 => PX (level + n + 1) va :: pathDown level va n

/-- The table of a level on the path of an address. -/
def levelTable (mem : ℕ → ℕ → ℕ) (r level va : ℕ) : Option ℕ := follow mem r (pathDown level va (2 - level))

/-- The number of missing tables on the way from table `pt` down `n` levels. -/
def lacking (mem : ℕ → ℕ → ℕ) (level va : ℕ) : ℕ → ℕ → ℕ
  | 0, _ => 0
  | n + 1, pt =>
    let pte := mem pt (PX (level + n + 1) va)
    if has pte PTE_V then lacking mem level va n (PTE2PA pte / PGSIZE) else n + 1

/-- What a call of `alloc_page` does depends on the allocator and the hart only. -/
def PoolOnly (env : PageEnv σ) : Prop := ∀ k k' : Kernel σ, k'.tp = k.tp → k'.pool = k.pool →
    env.alloc k' = env.alloc k

/-- `alloc_page` returns a page `n` times in a row. -/
def Gives (env : PageEnv σ) (tp : ℕ) : ℕ → σ → Prop
  | 0, _ => True
  | n + 1, pool => ∃ page pool', page ≠ 0 ∧
    (∀ k : Kernel σ, k.tp = tp → k.pool = pool → env.alloc k = .ok page pool') ∧
    Gives env tp n pool'

/-- The pages that `alloc_page` returns in the next `n` calls are not in use, in particular not as a
table of `used`. -/
def Unused (env : PageEnv σ) (tp : ℕ) : ℕ → σ → Set ℕ → Prop
  | 0, _, _ => True
  | n + 1, pool, used => ∀ k : Kernel σ, k.tp = tp → k.pool = pool →
    ∀ page pool', env.alloc k = .ok page pool' →
    page ≠ 0 → ∃ f, page = f * PGSIZE ∧ f < 2 ^ 44 ∧ f ∉ used ∧ Unused env tp n pool' (insert f used)

theorem Unused.fewer {tp : ℕ} : ∀ {n : ℕ} {pool : σ} {used : Set ℕ}, Unused env tp (n + 1) pool used →
    Unused env tp n pool used := by
  intro n
  induction n with
  | zero => exact fun _ => trivial
  | succ n ih =>
    intro pool used unused k hart state page pool' call nonzero
    obtain ⟨f, same, small, fresh, rest⟩ := unused k hart state page pool' call nonzero
    exact ⟨f, same, small, fresh, ih rest⟩

private theorem lacking_blank {mem : ℕ → ℕ → ℕ} {level va pt : ℕ} (blank : mem pt = fun _ => 0) (n : ℕ) :
    lacking mem level va n pt = n := by
  cases n with
  | zero => rfl
  | succ n =>
    have invalid : ¬ has (mem pt (PX (level + n + 1) va)) PTE_V = true := by
      rw [blank, not_has_zero]
      decide
    rw [lacking, if_neg invalid]

private theorem follow_cons (mem : ℕ → ℕ → ℕ) (r i : ℕ) (p : List ℕ) :
    follow mem r (i :: p) = (tableBelow mem r i).bind fun t => follow mem t p := rfl

/-- Without `alloc` the loop follows the path and changes nothing. -/
theorem walkLoop_looks (env : PageEnv σ) (k : Kernel σ) (level va : ℕ) : ∀ n pt : ℕ,
    pageWalkLoop env va level false n pt k = .ok (follow k.mem pt (pathDown level va n)) k ∧
      (follow k.mem pt (pathDown level va n) = none ↔ lacking k.mem level va n pt ≠ 0) := by
  intro n
  induction n with
  | zero => exact fun pt => ⟨rfl, by simp [follow, pathDown, lacking]⟩
  | succ n ih =>
    intro pt
    rw [pathDown, follow_cons, lacking, pageWalkLoop, bind_of_ok (get_apply k)]
    by_cases valid : has (k.mem pt (PX (level + n + 1) va)) PTE_V = true
    · have entry : has (pteAt k (pt, PX (level + n + 1) va)) PTE_V = true := valid
      have below : tableBelow k.mem pt (PX (level + n + 1) va) =
          some (PTE2PA (k.mem pt (PX (level + n + 1) va)) / PGSIZE) :=
        if_pos ⟨px_lt _ va, valid⟩
      simp only [if_pos entry, if_pos valid, below, Option.bind_some]
      exact ih _
    · have entry : ¬ has (pteAt k (pt, PX (level + n + 1) va)) PTE_V = true := valid
      have below : tableBelow k.mem pt (PX (level + n + 1) va) = none := if_neg fun both => valid both.2
      simp only [if_neg entry, if_neg valid, below, Option.bind_none]
      exact ⟨rfl, by simp⟩

/-- With `alloc` the loop returns a table exactly if it gets a page for every missing one, and that
table is the one at the end of the path. -/
private theorem walkLoop_adds {r level va : ℕ} (reads : PoolOnly env) :
    ∀ (n pt : ℕ) (k : Kernel σ) (own : Owner) (p : List ℕ),
    Rooted k.mem r own → own pt = some (r, p) → p.length + n ≤ 2 → Unused env k.tp n k.pool {t | own t ≠ none} →
    (∀ t k', pageWalkLoop env va level true n pt k = .ok (some t) k' →
      follow k'.mem r (p ++ pathDown level va n) = some t) ∧
    ((∃ t k', pageWalkLoop env va level true n pt k = .ok (some t) k') ↔
      Gives env k.tp (lacking k.mem level va n pt) k.pool) := by
  intro n
  induction n with
  | zero =>
    intro pt k own p rooted named _ _
    refine ⟨fun t k' call => ?_, fun _ => trivial, fun _ => ⟨pt, k, rfl⟩⟩
    obtain ⟨same, rfl⟩ := EStateM.Result.ok.inj call
    obtain rfl := Option.some.inj same
    rw [pathDown, List.append_nil]
    exact (rooted.reached pt r p named).2
  | succ n ih =>
    intro pt k own p rooted named depth unused
    set i := PX (level + n + 1) va with index
    have short : p.length < 2 := by omega
    have path : p ++ pathDown level va (n + 1) = (p ++ [i]) ++ pathDown level va n := by
      rw [pathDown, List.append_assoc]
      rfl
    rw [path, pageWalkLoop, bind_of_ok (get_apply k), lacking, ← index]
    by_cases valid : has (k.mem pt i) PTE_V = true
    · have entry : has (pteAt k (pt, i)) PTE_V = true := valid
      obtain ⟨_, child⟩ := rooted.tables.down named short (px_lt _ va) valid
      simp only [if_pos entry, if_pos valid]
      exact ih _ k own (p ++ [i]) rooted child (by simp; omega) unused.fewer
    · have entry : ¬ has (pteAt k (pt, i)) PTE_V = true := valid
      have empty : k.mem pt i = 0 := by
        by_contra nonzero
        exact valid (rooted.tables.below pt r p named short i (px_lt _ va) nonzero).1
      simp only [if_neg entry, if_neg valid, if_true]
      cases call : env.alloc k with
      | error e pool =>
        have stops : env.allocPage k = .error e { k with pool := pool } := by rw [PageEnv.allocPage, call]
        rw [bind_of_error stops]
        refine ⟨fun t k' found => (by cases found), ?_, ?_⟩
        · rintro ⟨t, k', found⟩
          cases found
        · rintro ⟨_, _, _, all, _⟩
          have ok := all k rfl rfl
          rw [call] at ok
          cases ok
      | ok page pool =>
        have take : env.allocPage k = .ok page (k.took page pool) := by rw [PageEnv.allocPage, call]
        rw [bind_of_ok take]
        by_cases nonzero : page ≠ 0
        · obtain ⟨f, rfl, small, fresh, rest⟩ := unused k rfl rfl page pool call nonzero
          have free : own f = none := by
            by_contra table
            exact fresh table
          have publish : casPte (pt, i) 0 (PA2PTE (f * PGSIZE) ||| PTE_V) (k.took (f * PGSIZE) pool) =
              .ok true ((k.took (f * PGSIZE) pool).setWord pt i (f * 2 ^ 10 ||| PTE_V)) := by
            simp only [casPte, bind_apply, get_apply, pteAt, setPte, PA2PTE_page]
            rw [if_pos (show (k.took (f * PGSIZE) pool).mem pt i = 0 from empty)]
            rfl
          rw [if_pos nonzero, bind_of_ok publish, if_pos rfl, page_div,
            bind_of_ok (show clearPage f _ = .ok () _ from rfl)]
          let hung : Kernel σ := { k.took (f * PGSIZE) pool with mem := Tables.hang k.mem pt i f }
          have tables : {t | Function.update own f (some (r, p ++ [i])) t ≠ none} =
            insert f {t | own t ≠ none} := by
            ext t
            by_cases same : t = f
            · simp [same]
            · simp [same]
          have next := ih f hung _ (p ++ [i]) (rooted.hang named short (px_lt _ va) empty free small)
            (Function.update_self ..) (by simp; omega) (by rw [tables]; exact rest)
          rw [lacking_blank (Tables.hang_page k.mem pt i f)] at next
          refine ⟨next.1, next.2.trans ⟨fun gives => ?_, fun gives => ?_⟩⟩
          · exact ⟨f * PGSIZE, pool, nonzero, fun k' hart state => (reads k k' hart state).trans call, gives⟩
          · obtain ⟨_, _, _, all, gives⟩ := gives
            obtain ⟨-, rfl⟩ := EStateM.Result.ok.inj (call.symm.trans (all k rfl rfl))
            exact gives
        · rw [if_neg nonzero]
          refine ⟨fun t k' found => (by cases found), ?_, ?_⟩
          · rintro ⟨t, k', found⟩
            cases found
          · rintro ⟨_, _, other, all, _⟩
            obtain ⟨rfl, -⟩ := EStateM.Result.ok.inj (call.symm.trans (all k rfl rfl))
            exact absurd other nonzero

/-- The table of the target level can be reached, or is added. -/
def Obtains (env : PageEnv σ) (k : Kernel σ) (r va level : ℕ) (alloc : Bool) : Prop :=
  let n := lacking k.mem level va (2 - level) r
  n = 0 ∨ alloc = true ∧ Gives env k.tp n k.pool

/-- What a caller of `page_walk(dir, va, level, alloc)` relies on: an entry that is returned is the
one of `va` in the table of that level, and a walk without `alloc` only looks, and fails exactly if
a table on the way is missing. -/
structure HonoursLevel (env : PageEnv σ) (k : Kernel σ) (r va level : ℕ) (alloc : Bool) : Prop where
  slot : ∀ slot k', pageWalk env (r * PGSIZE) va level alloc k = .ok (some slot) k' →
    ∃ t, levelTable k'.mem r level va = some t ∧ slot = (t, PX level va)
  looks : alloc = false → ∃ result, pageWalk env (r * PGSIZE) va level alloc k = .ok result k ∧
    (result = none ↔ levelTable k.mem r level va = none)

/-- The level is honoured exactly if the index of level 0 is the same, or there is nothing to return. -/
theorem page_walk_level {k : Kernel σ} {r va level : ℕ} {alloc : Bool} (formed : WellFormed k.mem r)
    (inside : 0 < va ∧ va < MAXVA) (reads : PoolOnly env)
    (unused : alloc = true → Unused env k.tp (2 - level) k.pool {t | IsTable k.mem r t}) :
    HonoursLevel env k r va level alloc ↔ PX level va = PX 0 va ∨ ¬ Obtains env k r va level alloc := by
  obtain ⟨own, rooted⟩ := formed.rooted
  have tables : {t | IsTable k.mem r t} = {t | own t ≠ none} := Set.ext rooted.isTable_iff
  rw [tables] at unused
  have walk : ∀ result k', pageWalkLoop env va level alloc (2 - level) r k = .ok result k' →
      pageWalk env (r * PGSIZE) va level alloc k = .ok (result.map fun t => (t, PX 0 va)) k' := by
    intro result k' loop
    rw [pageWalk, bind_of_ok (rangeCheck inside k), page_div, bind_of_ok loop]
    cases result <;> rfl
  -- what the loop returns, and when it returns a table
  have loop : (∀ t k', pageWalkLoop env va level alloc (2 - level) r k = .ok (some t) k' →
        levelTable k'.mem r level va = some t) ∧
      ((∃ t k', pageWalkLoop env va level alloc (2 - level) r k = .ok (some t) k') ↔
        Obtains env k r va level alloc) := by
    cases alloc with
    | false =>
      obtain ⟨call, none⟩ := walkLoop_looks env k level va (2 - level) r
      rw [call]
      constructor
      · intro t k' found
        obtain ⟨same, rfl⟩ := EStateM.Result.ok.inj found
        exact same
      · constructor
        · rintro ⟨t, k', found⟩
          obtain ⟨same, -⟩ := EStateM.Result.ok.inj found
          exact Or.inl (by_contra fun lacks => by simp [none.mpr lacks] at same)
        · rintro (complete | ⟨impossible, _⟩)
          · obtain ⟨t, found⟩ := Option.ne_none_iff_exists'.mp (mt none.mp (not_not_intro complete))
            exact ⟨t, k, by rw [found]⟩
          · cases impossible
    | true =>
      obtain ⟨ends, returns⟩ := walkLoop_adds reads (2 - level) r k own [] rooted rooted.root
        (by simp) (unused rfl)
      refine ⟨ends, returns.trans ⟨fun gives => Or.inr ⟨rfl, gives⟩, ?_⟩⟩
      rintro (complete | ⟨_, gives⟩)
      · rw [complete]
        trivial
      · exact gives
  constructor
  · intro honours
    by_contra neither
    push Not at neither
    obtain ⟨t, k', call⟩ := loop.2.mpr neither.2
    obtain ⟨_, _, same⟩ := honours.slot _ _ (walk _ _ call)
    exact neither.1 (Prod.mk.inj same).2.symm
  · intro condition
    refine ⟨fun slot k' found => ?_, ?_⟩
    · cases call : pageWalkLoop env va level alloc (2 - level) r k with
      | error e k'' =>
        rw [pageWalk, bind_of_ok (rangeCheck inside k), page_div, bind_of_error call] at found
        cases found
      | ok result k'' =>
        rw [walk _ _ call] at found
        obtain ⟨same, rfl⟩ := EStateM.Result.ok.inj found
        obtain ⟨t, rfl, rfl⟩ := Option.map_eq_some_iff.mp same
        refine ⟨t, loop.1 t _ call, ?_⟩
        rw [condition.resolve_right (not_not_intro (loop.2.mp ⟨t, _, call⟩))]
    · rintro rfl
      obtain ⟨call, _⟩ := walkLoop_looks env k level va (2 - level) r
      exact ⟨_, walk _ _ call, by rw [levelTable, Option.map_eq_none_iff]⟩

private theorem Unused.of_deals {tp : ℕ} {pool : σ} {frames : List ℕ} (deals : Deals env tp pool frames) :
    ∀ {n : ℕ} {used : Set ℕ}, n ≤ frames.length → frames.Nodup → (∀ f ∈ frames, f < 2 ^ 44 ∧ f ∉ used) →
    Unused env tp n pool used := by
  induction deals with
  | nil =>
    intro n used enough _ _
    obtain rfl := Nat.le_zero.mp enough
    trivial
  | @cons pool pool' f frames returns _ ih =>
    intro n used enough nodup fresh
    obtain ⟨distinct, nodup⟩ := List.nodup_cons.mp nodup
    cases n with
    | zero => trivial
    | succ n =>
      intro k hart state page pool'' call _
      obtain ⟨rfl, rfl⟩ := EStateM.Result.ok.inj ((returns k hart state).symm.trans call)
      obtain ⟨small, free⟩ := fresh f List.mem_cons_self
      refine ⟨f, rfl, small, free, ih (by simpa using enough) nodup fun g member => ?_⟩
      obtain ⟨small, free⟩ := fresh g (List.mem_cons_of_mem _ member)
      refine ⟨small, ?_⟩
      rintro (rfl | old)
      · exact distinct member
      · exact free old

private theorem pmmEnv_poolOnly : PoolOnly pmmEnv := by
  intro k k' hart state
  simp only [pmmEnv, hart, state]

/-- The two indices of 0x201000 agree, so a walk to level 1 that adds the table is right. -/
theorem page_walk_level_small : ∃ r k, pmmEnv.allocPage smallKernel = .ok (r * PGSIZE) k ∧
    HonoursLevel pmmEnv k r 0x201000 1 true := by
  obtain ⟨r, k, call, blank, _, stock⟩ := bootKernel_root smallBoot_booted smallKernel_boot
  obtain ⟨frames, provides⟩ := stock {[PX 2 0x201000]} (by decide)
  have absent : [PX 2 0x201000] ∈ missing k.mem r {[PX 2 0x201000]} := by
    rw [blank]
    refine Finset.mem_filter.mpr ⟨Finset.mem_singleton_self _, ?_⟩
    simp [follow, tableBelow, not_has_zero]
  have enough : 1 ≤ frames.length := (Finset.card_pos.mpr ⟨_, absent⟩).trans_le provides.enough
  have unused : Unused pmmEnv k.tp 1 k.pool {t | IsTable k.mem r t} :=
    .of_deals provides.deals enough provides.nodup fun f member => (provides.fresh f member).2
  have formed : WellFormed k.mem r := by
    rw [blank]
    exact wellFormed_zero r
  exact ⟨r, k, call, (page_walk_level formed (by decide) pmmEnv_poolOnly fun _ => unused).mpr
    (Or.inl (by decide))⟩

/-- A walk of 0x1000 to level 2 in an empty page directory returns the entry 1 of the directory, not
the entry 0. -/
theorem page_walk_level_top : WellFormed smallKernel.mem 0x80300 ∧
    pageWalk pmmEnv (0x80300 * PGSIZE) 0x1000 2 false smallKernel = .ok (some (0x80300, 1)) smallKernel ∧
    ¬ HonoursLevel pmmEnv smallKernel 0x80300 0x1000 2 false := by
  have call : pageWalk pmmEnv (0x80300 * PGSIZE) 0x1000 2 false smallKernel =
    .ok (some (0x80300, 1)) smallKernel := by
    rw [pageWalk, bind_of_ok (rangeCheck (by decide) smallKernel)]
    rfl
  refine ⟨wellFormed_zero _, call, fun honours => ?_⟩
  obtain ⟨t, _, same⟩ := honours.slot _ _ call
  exact absurd (Prod.mk.inj same).2 (by decide)

end Pke.Proofs
