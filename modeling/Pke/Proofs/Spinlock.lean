import Pke.Lib.Run
import Pke.Model.Spinlock

/-! # The spinlock is a mutex

A mutex is held by one party or by none. The spinlock refines it in every schedule: a swap that
returns 0 takes the mutex, the store in `lock_release` gives it back, and every other step, a swap
that loses included, is none of the mutex. The lock word says whether the mutex is held.
-/

namespace Pke.Proofs

open Pke.Lib Pke.Model

variable {H : Type}

/-- The steps of a mutex with its owner: a party takes it, gives it back, or does something else. -/
inductive MutexStep : Option H → H → Option H → Prop
  | other (owner : Option H) (h : H) : MutexStep owner h owner
  | take (h : H) : MutexStep none h (some h)
  | give (h : H) : MutexStep (some h) h none

/-- Between the swap that took the lock and the store that gives it back. -/
def LockPc.Holding : LockPc → Prop
  | .acquired => True
  | .critical => True
  | .release => True
  | _ => False

/-- The spinlock in which this hart holds the lock. -/
structure Guards (s : Spin H) (owner : Option H) : Prop where
  word : s.word = if owner.isSome then 1 else 0
  holder : ∀ h, LockPc.Holding (s.pc h) ↔ owner = some h

private theorem guards_start : Guards (Spin.start : Spin H) none :=
  ⟨rfl, fun _ => ⟨False.elim, fun same => by cases same⟩⟩

namespace Guards

variable {s : Spin H} {owner : Option H} {h : H} {pc : LockPc}

/-- The word is zero exactly if nobody holds the lock. -/
theorem word_eq_zero_iff (guards : Guards s owner) : s.word = 0 ↔ owner = none := by
  rw [guards.word]
  cases owner with
  | none => simp
  | some h => simp

/-- A swap that returns 1 stores the word that was there. -/
theorem lose (guards : Guards s (some h)) : (s.atomicSwap 1).2 = s := by
  have word : s.word = 1 := guards.word
  rw [Spin.atomicSwap, ← word]

variable [DecidableEq H]

private theorem goto_here (s : Spin H) (h : H) (pc : LockPc) : (s.goto h pc).pc h = pc :=
  Function.update_self ..

private theorem goto_other (s : Spin H) {g h : H} (other : g ≠ h) (pc : LockPc) : (s.goto h pc).pc g = s.pc g :=
  Function.update_of_ne other _ _

/-- A hart that goes on, and holds the lock if it held it before. -/
theorem goto (guards : Guards s owner) (same : LockPc.Holding pc ↔ LockPc.Holding (s.pc h)) :
    Guards (s.goto h pc) owner := by
  refine ⟨guards.word, fun g => ?_⟩
  by_cases here : g = h
  · subst here
    rw [goto_here, same]
    exact guards.holder g
  · rw [goto_other _ here]
    exact guards.holder g

/-- A swap that returns 0. -/
theorem take (guards : Guards s none) : Guards ((s.atomicSwap 1).2.goto h .acquired) (some h) := by
  refine ⟨rfl, fun g => ?_⟩
  by_cases here : g = h
  · subst here
    rw [goto_here]
    exact ⟨fun _ => rfl, fun _ => trivial⟩
  · rw [goto_other _ here]
    constructor
    · intro holding
      cases (guards.holder g).mp holding
    · intro same
      exact absurd (Option.some.inj same).symm here

/-- The store of `lock_release`. -/
theorem give (guards : Guards s (some h)) : Guards ((s.atomicSetRelease 0).goto h .outside) none := by
  refine ⟨rfl, fun g => ?_⟩
  by_cases here : g = h
  · subst here
    rw [goto_here]
    exact ⟨False.elim, fun same => by cases same⟩
  · rw [goto_other _ here]
    constructor
    · intro holding
      exact absurd (Option.some.inj ((guards.holder g).mp holding)).symm here
    · intro same
      cases same

/-- Every step of a hart is one of the mutex. -/
theorem step (guards : Guards s owner) (h : H) : ∃ owner', MutexStep owner h owner' ∧
    Guards (s.step h) owner' := by
  unfold Spin.step
  cases pc : s.pc h with
  | outside => exact ⟨owner, .other owner h, guards.goto (by rw [pc]; exact Iff.rfl)⟩
  | load =>
    refine ⟨owner, .other owner h, guards.goto ?_⟩
    rw [pc]
    split
    · exact Iff.rfl
    · exact Iff.rfl
  | swap =>
    have test := guards.word_eq_zero_iff
    cases owner with
    | none =>
      refine ⟨some h, .take h, ?_⟩
      change Guards ((s.atomicSwap 1).2.goto h (if s.word = 0 then .acquired else .pause)) _
      rw [if_pos (test.mpr rfl)]
      exact guards.take
    | some g =>
      refine ⟨some g, .other _ h, ?_⟩
      change Guards ((s.atomicSwap 1).2.goto h (if s.word = 0 then .acquired else .pause)) _
      rw [if_neg (test.not.mpr (Option.some_ne_none g)), guards.lose]
      exact guards.goto (by rw [pc]; exact Iff.rfl)
  | pause => exact ⟨owner, .other owner h, guards.goto (by rw [pc]; exact Iff.rfl)⟩
  | acquired => exact ⟨owner, .other owner h, guards.goto (by rw [pc]; exact Iff.rfl)⟩
  | critical => exact ⟨owner, .other owner h, guards.goto (by rw [pc]; exact Iff.rfl)⟩
  | release =>
    have mine : owner = some h := (guards.holder h).mp (by rw [pc]; trivial)
    subst mine
    exact ⟨none, .give h, guards.give⟩

end Guards

variable [DecidableEq H]

/-- In every schedule the spinlock refines the mutex. -/
private theorem spinlock_refines (schedule : List H) :
    ∃ owner, Run MutexStep none schedule owner ∧ Guards (Spin.run schedule) owner := by
  refine (Run.of_foldl Spin.step Spin.start schedule).simulates ?_ guards_start
  rintro s h _ owner guards rfl
  exact guards.step h

/-- At most one hart is between the return of `lock_acquire` and the store of `lock_release`, and
the lock word is 1 exactly while a hart is between its successful swap and that store. -/
theorem spinlock_excludes (schedule : List H) :
    (∀ g h, (Spin.run schedule).pc g = .critical → (Spin.run schedule).pc h = .critical → g = h) ∧
      (∀ g h, LockPc.Holding ((Spin.run schedule).pc g) → LockPc.Holding ((Spin.run schedule).pc h) → g = h) ∧
      ((Spin.run schedule).word = 1 ↔ ∃ h, LockPc.Holding ((Spin.run schedule).pc h)) ∧
      ((Spin.run schedule).word = 0 ↔ ∀ h, ¬ LockPc.Holding ((Spin.run schedule).pc h)) := by
  obtain ⟨owner, _, guards⟩ := spinlock_refines schedule
  have single : ∀ g h, LockPc.Holding ((Spin.run schedule).pc g) →
    LockPc.Holding ((Spin.run schedule).pc h) → g = h := by
    intro g h first second
    rw [guards.holder] at first second
    exact Option.some.inj (first.symm.trans second)
  refine ⟨fun g h first second => ?_, single, ?_, ?_⟩
  · apply single g h
    · rw [first]
      trivial
    · rw [second]
      trivial
  · rw [guards.word]
    simp only [guards.holder]
    cases owner with
    | none => simp
    | some h => simp
  · rw [guards.word_eq_zero_iff]
    simp only [guards.holder]
    cases owner with
    | none => simp
    | some h => simp

end Pke.Proofs
