import Mathlib.Data.Nat.Notation
import Mathlib.Data.Nat.Basic

/-! # Loops with a bound

`whileLoop test body n` runs a loop for at most `n` rounds and says `none` if the test still holds
then. The rules are those of total and partial correctness: a variant that every round lowers bounds
the number of rounds, and what every round keeps holds at the end. A loop whose test never fails
ends for no bound.
-/

namespace Pke.Lib

variable {σ : Type*} {test : σ → Bool} {body : σ → σ}

/-- `while (test s) s = body s`, for at most `n` rounds. -/
def whileLoop (test : σ → Bool) (body : σ → σ) : ℕ → σ → Option σ
  | 0, s => if test s then none else some s
  | n + 1, s => if test s then whileLoop test body n (body s) else some s

theorem whileLoop_stop {s : σ} (stop : test s = false) (n : ℕ) : whileLoop test body n s = some s := by
  cases n <;> simp [whileLoop, stop]

private theorem whileLoop_round {s : σ} (go : test s = true) (n : ℕ) :
    whileLoop test body (n + 1) s = whileLoop test body n (body s) := by
  rw [whileLoop, if_pos go]

/-- The rule of total correctness: an invariant, and a variant that every round lowers. -/
theorem whileLoop_total (inv : σ → Prop) (left : σ → ℕ)
    (round : ∀ s, inv s → test s = true → inv (body s) ∧ left (body s) < left s) {n : ℕ} {s : σ} (start : inv s)
    (enough : left s ≤ n) : ∃ t, whileLoop test body n s = some t ∧ inv t ∧ test t = false := by
  induction n generalizing s with
  | zero =>
    cases go : test s with
    | false => exact ⟨s, whileLoop_stop go 0, start, go⟩
    | true => exact absurd (round s start go).2 (by omega)
  | succ n ih =>
    cases go : test s with
    | false => exact ⟨s, whileLoop_stop go _, start, go⟩
    | true =>
      obtain ⟨next, lower⟩ := round s start go
      rw [whileLoop_round go]
      exact ih next (by omega)

/-- A loop whose invariant implies its test ends for no bound. -/
theorem whileLoop_forever (inv : σ → Prop) (round : ∀ s, inv s → test s = true ∧ inv (body s)) (n : ℕ) {s : σ}
    (start : inv s) : whileLoop test body n s = none := by
  induction n generalizing s with
  | zero => rw [whileLoop, if_pos (round s start).1]
  | succ n ih =>
    obtain ⟨go, next⟩ := round s start
    rw [whileLoop_round go]
    exact ih next

end Pke.Lib
