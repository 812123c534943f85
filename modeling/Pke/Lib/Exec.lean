import Mathlib.Data.Nat.Notation
import Mathlib.Logic.Basic

/-! # Inverting computations with state and errors

Small inversion rules for `EStateM`: a sequence returns exactly when its parts return one after the
other. `EStateM.Result.state` is the state at the end of a call whichever way it ended, and
`Advances` is the rule for relations that every part of a program respects on all paths.
-/

namespace Pke.Lib

variable {ε σ α β : Type}

/-- The state in which a call ends, by returning or by an error. -/
def finalState : EStateM.Result ε σ α → σ
  | .ok _ s => s
  | .error _ s => s

@[simp] theorem finalState_ok (a : α) (s : σ) : finalState (.ok a s : EStateM.Result ε σ α) = s := rfl

@[simp] theorem finalState_error (e : ε) (s : σ) : finalState (.error e s : EStateM.Result ε σ α) = s := rfl

/-- Running a sequence on a given state; with the rules below `simp` runs a program symbolically. -/
theorem bind_apply (x : EStateM ε σ α) (f : α → EStateM ε σ β) (s : σ) :
    (x >>= f) s = match x s with
      | .ok a mid => f a mid
      | .error e mid => .error e mid := rfl

theorem map_apply (g : α → β) (x : EStateM ε σ α) (s : σ) :
    (g <$> x) s = match x s with
      | .ok a mid => .ok (g a) mid
      | .error e mid => .error e mid := rfl

theorem bind_eq_ok {x : EStateM ε σ α} {f : α → EStateM ε σ β} {s t : σ} {b : β} :
    (x >>= f) s = .ok b t ↔ ∃ a mid, x s = .ok a mid ∧ f a mid = .ok b t := by
  change EStateM.bind x f s = _ ↔ _
  unfold EStateM.bind
  cases x s with
  | ok a mid =>
    simp only [EStateM.Result.ok.injEq]
    constructor
    · intro rest
      exact ⟨a, mid, ⟨rfl, rfl⟩, rest⟩
    · rintro ⟨_, _, ⟨rfl, rfl⟩, rest⟩
      exact rest
  | error e mid => simp

theorem bind_of_ok {x : EStateM ε σ α} {f : α → EStateM ε σ β} {s mid : σ} {a : α} (first : x s = .ok a mid) :
    (x >>= f) s = f a mid := by
  change EStateM.bind x f s = _
  simp [EStateM.bind, first]

theorem bind_of_error {x : EStateM ε σ α} {f : α → EStateM ε σ β} {s mid : σ} {e : ε}
    (first : x s = .error e mid) :
    (x >>= f) s = .error e mid := by
  change EStateM.bind x f s = _
  simp [EStateM.bind, first]

@[simp] theorem pure_apply (a : α) (s : σ) : (pure a : EStateM ε σ α) s = .ok a s := rfl

@[simp] theorem get_apply (s : σ) : (get : EStateM ε σ σ) s = .ok s s := rfl

@[simp] theorem modify_apply (f : σ → σ) (s : σ) : (modify f : EStateM ε σ PUnit) s = .ok () (f s) := rfl

@[simp] theorem throw_apply (e : ε) (s : σ) : (throw e : EStateM ε σ α) s = .error e s := rfl

/-- Whether a call returned with a result that passes a test. -/
def returned (check : α → σ → Bool) : EStateM.Result ε σ α → Bool
  | .ok a s => check a s
  | .error _ _ => false

theorem returned_eq_true {check : α → σ → Bool} {result : EStateM.Result ε σ α}
    (passed : returned check result = true) : ∃ a s, result = .ok a s ∧ check a s = true := by
  cases result with
  | ok a s => exact ⟨a, s, rfl, passed⟩
  | error e s => cases passed

/-- A counting loop runs its first rounds and then the last one. -/
theorem forM_range_succ (body : ℕ → EStateM ε σ Unit) (n : ℕ) :
    (List.range (n + 1)).forM body = (List.range n).forM body >>= fun _ => body n := by
  rw [List.range_succ, List.forM_eq_forM, List.forM_append]
  congr
  funext _
  rw [List.forM_cons, List.forM_nil, bind_pure_unit]

/-- A reflexive and transitive relation between the first and the last state of every call of `x`. -/
def Advances (rel : σ → σ → Prop) (x : EStateM ε σ α) : Prop := ∀ s, rel s (finalState (x s))

namespace Advances

variable {rel : σ → σ → Prop} {x : EStateM ε σ α} {f : α → EStateM ε σ β}

theorem bind (trans : ∀ {a b c}, rel a b → rel b c → rel a c) (first : Advances rel x)
    (second : ∀ a, Advances rel (f a)) : Advances rel (x >>= f) := by
  intro s
  have head := first s
  cases result : x s with
  | ok a mid =>
    rw [result] at head
    rw [bind_of_ok result]
    exact trans head (second a mid)
  | error e mid =>
    rw [result] at head
    rw [bind_of_error result]
    exact head

theorem pure (refl : ∀ s, rel s s) (a : α) : Advances rel (Pure.pure a : EStateM ε σ α) := fun s => refl s

theorem throw (refl : ∀ s, rel s s) (e : ε) : Advances rel (MonadExcept.throw e : EStateM ε σ α) :=
  fun s => refl s

end Advances

/-- The call of `x` in `s` returns with `post`, or stops with an error that `stop` allows. -/
def Ensures (x : EStateM ε σ α) (s : σ) (post : α → σ → Prop) (stop : ε → Prop) : Prop :=
  match x s with
  | .ok a t => post a t
  | .error e _ => stop e

/-- If the call returns, it returns with `post`. -/
abbrev Yields (x : EStateM ε σ α) (s : σ) (post : α → σ → Prop) : Prop := Ensures x s post fun _ => True

namespace Ensures

variable {x : EStateM ε σ α} {f : α → EStateM ε σ β} {s : σ} {post weaker : α → σ → Prop} {stop : ε → Prop}

theorem of_ok (holds : Ensures x s post stop) {a : α} {t : σ} (call : x s = .ok a t) : post a t := by
  rw [Ensures, call] at holds
  exact holds

/-- What holds of every result holds of the call. -/
theorem of_run (holds : ∀ a t, x s = .ok a t → post a t) : Yields x s post := by
  unfold Yields Ensures
  cases result : x s with
  | ok a t => exact holds a t result
  | error e t => trivial

theorem mono (holds : Ensures x s post stop) (imp : ∀ a t, post a t → weaker a t) :
    Ensures x s weaker stop := by
  unfold Ensures at *
  cases result : x s with
  | ok a t =>
    rw [result] at holds
    exact imp a t holds
  | error e t =>
    rw [result] at holds
    exact holds

/-- The sequence rule: the continuation starts in a state that the first part ensures. -/
theorem bind {result : β → σ → Prop} (first : Ensures x s post stop)
    (second : ∀ a t, post a t → Ensures (f a) t result stop) : Ensures (x >>= f) s result stop := by
  unfold Ensures at first
  cases head : x s with
  | ok a t =>
    rw [head] at first
    rw [Ensures, bind_of_ok head]
    exact second a t first
  | error e t =>
    rw [head] at first
    rw [Ensures, bind_of_error head]
    exact first

theorem pure {a : α} (holds : post a s) : Ensures (Pure.pure a) s post stop := holds

theorem throw {e : ε} (allowed : stop e) : Ensures (MonadExcept.throw e) s post stop := allowed

/-- A part whose result is known is run. -/
theorem step {result : β → σ → Prop} {a : α} {t : σ} (head : x s = .ok a t)
    (rest : Ensures (f a) t result stop) :
    Ensures (x >>= f) s result stop := by
  rw [Ensures, bind_of_ok head]
  exact rest

/-- A part that stops ends the sequence. -/
theorem fails {result : β → σ → Prop} {e : ε} {t : σ} (head : x s = .error e t) (allowed : stop e) :
    Ensures (x >>= f) s result stop := by
  rw [Ensures, bind_of_error head]
  exact allowed

/-- A counting loop keeps what each of its rounds keeps. -/
theorem forM_range {body : ℕ → EStateM ε σ Unit} {holds : ℕ → σ → Prop} {n : ℕ} (start : holds 0 s)
    (round : ∀ i < n, ∀ t, holds i t → Ensures (body i) t (fun _ => holds (i + 1)) stop) :
    Ensures ((List.range n).forM body) s (fun _ => holds n) stop := by
  induction n with
  | zero => exact start
  | succ n ih =>
    rw [forM_range_succ]
    refine bind (ih fun i below => round i (Nat.lt_succ_of_lt below)) fun _ t mid => ?_
    exact round n (Nat.lt_succ_self n) t mid

end Ensures

end Pke.Lib
