import Mathlib.Logic.Relation

/-! # Labelled runs and invariants

`Run step s es t` is a finite run of a labelled step relation that performs the events `es`. An
invariant of every step is an invariant of every run, and a simulation step by step is one of runs; a
run all of whose steps meet a side condition is a run of the restricted relation.
-/

namespace Pke.Lib

variable {σ ε : Type*} {step : σ → ε → σ → Prop}

/-- A finite run carrying exactly its labels. -/
inductive Run (step : σ → ε → σ → Prop) : σ → List ε → σ → Prop
  | nil (s : σ) : Run step s [] s
  | cons {s mid t : σ} {e : ε} {es : List ε} : step s e mid → Run step mid es t → Run step s (e :: es) t

/-- The run of a step function. -/
def evalRun (next : σ → ε → Option σ) : σ → List ε → Option σ
  | s, [] => some s
  | s, e :: es => (next s e).bind fun mid => evalRun next mid es

/-- The steps that start in a state where the side condition holds of their label. -/
def Guarded (guard : σ → ε → Prop) (step : σ → ε → σ → Prop) (s : σ) (e : ε) (t : σ) : Prop :=
  guard s e ∧ step s e t

namespace Run

theorem append {s mid t : σ} {first second : List ε} (left : Run step s first mid)
    (right : Run step mid second t) :
    Run step s (first ++ second) t := by
  induction left with
  | nil => exact right
  | cons head _ ih => exact .cons head (ih right)

theorem single_iff {s t : σ} {e : ε} : Run step s [e] t ↔ step s e t := by
  constructor
  · intro run
    cases run with
    | cons first rest =>
      cases rest
      exact first
  · exact fun first => .cons first (.nil t)

/-- A run found by evaluation, with what was checked of its last state. -/
theorem of_eval {next : σ → ε → Option σ} (sound : ∀ s e t, next s e = some t → step s e t)
    {s : σ} {es : List ε} {check : σ → Bool} (checked : (evalRun next s es).any check = true) :
    ∃ t, Run step s es t ∧ check t = true := by
  induction es generalizing s with
  | nil => exact ⟨s, .nil s, checked⟩
  | cons e es ih =>
    rw [evalRun] at checked
    cases first : next s e with
    | none =>
      rw [first] at checked
      cases checked
    | some mid =>
      rw [first] at checked
      obtain ⟨t, run, passed⟩ := ih checked
      exact ⟨t, .cons (sound s e mid first) run, passed⟩

/-- A run of one relation is a run of another one that has its steps. -/
theorem imp {step' : σ → ε → σ → Prop} {s t : σ} {es : List ε} (run : Run step s es t)
    (steps : ∀ e ∈ es, ∀ s t, step s e t → step' s e t) : Run step' s es t := by
  induction run with
  | nil => exact .nil _
  | cons head _ ih =>
    exact .cons (steps _ List.mem_cons_self _ _ head)
      (ih fun e member => steps e (List.mem_cons_of_mem _ member))

/-- The invariant rule: what every step keeps, every run keeps. -/
theorem invariant {holds : σ → Prop} (keep : ∀ s e t, holds s → step s e t → holds t) {s t : σ} {es : List ε}
    (run : Run step s es t) (start : holds s) : holds t := by
  induction run with
  | nil => exact start
  | cons head _ ih => exact ih (keep _ _ _ start head)

/-- The simulation rule: if every step is matched by a step of another relation on the same label,
every run is matched by a run. -/
theorem simulates {α : Type*} {step' : α → ε → α → Prop} {rel : σ → α → Prop}
    (match_step : ∀ s e t a, rel s a → step s e t → ∃ b, step' a e b ∧ rel t b) {s t : σ} {es : List ε}
    (run : Run step s es t) {a : α} (start : rel s a) : ∃ b, Run step' a es b ∧ rel t b := by
  induction run generalizing a with
  | nil => exact ⟨a, .nil a, start⟩
  | cons head _ ih =>
    obtain ⟨mid, first, related⟩ := match_step _ _ _ _ start head
    obtain ⟨b, rest, last⟩ := ih related
    exact ⟨b, .cons first rest, last⟩

/-- The run of a total step function. -/
theorem of_foldl (next : σ → ε → σ) (s : σ)
    (es : List ε) : Run (fun s e t => next s e = t) s es (es.foldl next s) := by
  induction es generalizing s with
  | nil => exact .nil s
  | cons e es ih => exact .cons rfl (ih (next s e))

end Run

/-- Each of the labels `es` meets `holds` in every state that the labels before it can lead to. -/
def Throughout (holds : σ → ε → Prop) (step : σ → ε → σ → Prop) (s : σ) (es : List ε) : Prop :=
  ∀ before e after mid, es = before ++ e :: after → Run step s before mid → holds mid e

variable {holds : σ → ε → Prop}

theorem throughout_cons {s : σ} {e : ε} {es : List ε} :
    Throughout holds step s (e :: es) ↔ holds s e ∧ ∀ t, step s e t → Throughout holds step t es := by
  constructor
  · intro all
    refine ⟨all [] e es s rfl (.nil s), ?_⟩
    intro t first before e' after mid shape run
    exact all (e :: before) e' after mid (by rw [shape, List.cons_append]) (.cons first run)
  · rintro ⟨head, rest⟩ before e' after mid shape run
    cases run with
    | nil =>
      obtain ⟨rfl, -⟩ := List.cons.inj shape
      exact head
    | cons first run =>
      obtain ⟨rfl, rfl⟩ := List.cons.inj shape
      exact rest _ first _ _ _ _ rfl run

end Pke.Lib
