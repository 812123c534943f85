import Mathlib.Data.Finset.Basic
import Mathlib.Data.Finset.Dedup
import Mathlib.Data.Finset.Erase
import Pke.Lib.Run

/-! # Queues without duplicates

An element joins the end of the queue unless it waits in it, and leaves it at the front. The labels
of a run determine which insertions count: an element waits from its insertion to its dispatch. In
every run what has left, followed by what is left, is what was there at first, followed by the
insertions that count, in the same order.
-/

namespace Pke.Lib

/-- An insertion, and a dispatch with the element that leaves. -/
inductive FifoOp (α : Type*) where
  | insert (a : α)
  | dispatch (a : α)

variable {α : Type*}

inductive FifoStep : List α → FifoOp α → List α → Prop
  | join {q : List α} {a : α} (absent : a ∉ q) : FifoStep q (.insert a) (q ++ [a])
  | stay {q : List α} {a : α} (waits : a ∈ q) : FifoStep q (.insert a) q
  | leave {q : List α} {a : α} : FifoStep (a :: q) (.dispatch a) q

/-- The elements that leave. -/
def dispatches : List (FifoOp α) → List α
  | [] => []
  | .insert _ :: ops => dispatches ops
  | .dispatch a :: ops => a :: dispatches ops

/-- The insertions of elements that do not wait at that time. -/
def arrivals [DecidableEq α] : Finset α → List (FifoOp α) → List α
  | _, [] => []
  | waiting, .insert a :: ops => if a ∈ waiting then arrivals waiting ops
    else a :: arrivals (insert a waiting) ops
  | waiting, .dispatch a :: ops => arrivals (waiting.erase a) ops

theorem FifoStep.nodup {q q' : List α} {op : FifoOp α} (step : FifoStep q op q') (nodup : q.Nodup) :
    q'.Nodup := by
  cases step with
  | join absent => exact List.nodup_append.mpr ⟨nodup, List.nodup_singleton _, by grind⟩
  | stay => exact nodup
  | leave => exact (List.nodup_cons.mp nodup).2

/-- First in, first out. -/
theorem Run.fifo [DecidableEq α] {q q' : List α} {ops : List (FifoOp α)} (run : Run FifoStep q ops q')
    (nodup : q.Nodup) : q ++ arrivals q.toFinset ops = dispatches ops ++ q' := by
  induction run with
  | nil q => exact List.append_nil q
  | @cons q mid _ _ ops step _ ih =>
    have rest := ih (step.nodup nodup)
    cases step with
    | @join _ a absent =>
      have waiting : (q ++ [a]).toFinset = insert a q.toFinset := by
        ext b
        rw [List.mem_toFinset, List.mem_append, List.mem_singleton, Finset.mem_insert,
          List.mem_toFinset, or_comm]
      rw [waiting, List.append_assoc] at rest
      rw [arrivals, if_neg (List.mem_toFinset.not.mpr absent)]
      exact rest
    | stay waits =>
      rw [arrivals, if_pos (List.mem_toFinset.mpr waits)]
      exact rest
    | @leave _ a =>
      have waiting : (a :: mid).toFinset.erase a = mid.toFinset := by
        rw [List.toFinset_cons, Finset.erase_insert (List.mem_toFinset.not.mpr (List.nodup_cons.mp nodup).1)]
      rw [arrivals, waiting]
      exact congrArg (a :: ·) rest

end Pke.Lib
