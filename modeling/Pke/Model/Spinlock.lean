import Mathlib.Logic.Function.Basic

/-! # The spinlock of `sync_utils.c`

Any number of harts on one lock word. The plain load in `lock_acquire`, the `atomic_swap` and the
`atomic_set_release` in `lock_release` are steps of their own. A hart has one next step at any time;
a schedule is the list of the harts in the order in which they take steps.
-/

namespace Pke.Model

/-- Where a hart stands. In `lock_acquire`: before the plain load, before the swap, before `pause`,
or behind a swap that returned 0. Then in its critical section, and in `lock_release` before the
store. -/
inductive LockPc where
  | outside
  | load
  | swap
  | pause
  | acquired
  | critical
  | release
deriving DecidableEq, Repr

/-- The lock word, and where each hart stands. -/
structure Spin (H : Type) where
  word : UInt32
  pc : H → LockPc

namespace Spin

variable {H : Type} [DecidableEq H]

def start : Spin H := ⟨0, fun _ => .outside⟩

def goto (s : Spin H) (h : H) (pc : LockPc) : Spin H := { s with pc := Function.update s.pc h pc }

/-- `atomic_swap`: the old word, and the state with the new one. -/
def atomicSwap (s : Spin H) (new : UInt32) : UInt32 × Spin H := (s.word, { s with word := new })

/-- `atomic_set_release`. -/
def atomicSetRelease (s : Spin H) (value : UInt32) : Spin H := { s with word := value }

/-- The next step of hart `h`. -/
def step (s : Spin H) (h : H) : Spin H :=
  match s.pc h with
  | .outside => s.goto h .load
  | .load => s.goto h (if s.word = 0 then .swap else .pause)
  | .swap =>
    let (old, s) := s.atomicSwap 1
    s.goto h (if old = 0 then .acquired else .pause)
  | .pause => s.goto h .load
  | .acquired => s.goto h .critical
  | .critical => s.goto h .release
  | .release => (s.atomicSetRelease 0).goto h .outside

/-- The state after a schedule. -/
def run (schedule : List H) : Spin H := schedule.foldl step start

end Spin

end Pke.Model
