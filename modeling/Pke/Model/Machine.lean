import Mathlib.Data.Nat.Bitwise

/-! # Constants, rounding and the ways a kernel call can end

The constants are those of `riscv.h`, `memlayout.h`, `config.h`, `pmm.h` and `process.h`. Addresses
and machine words are natural numbers; operations that can leave the 64-bit range are reduced
explicitly where they occur. A call that does not return to its caller ends in a `Stop`: the machine
was shut down by `panic`, `kassert`, `assert` or `shutdown`, the hart spins forever, a null pointer
or an address that the kernel does not map was read, or an access left its array, behind which C
promises nothing.
-/

namespace Pke.Model

def PGSIZE : ℕ := 4096
def DRAM_BASE : ℕ := 0x80000000
def KERN_BASE : ℕ := 0x80000000
def PKE_MAX_ALLOWABLE_RAM : ℕ := 128 * 1024 * 1024
def PHYS_TOP : ℕ := DRAM_BASE + PKE_MAX_ALLOWABLE_RAM
def NCPU : ℕ := 1
def MAX_ORDER : ℕ := 11
def PCPU_CACHE_SIZE : ℕ := 32

/-- The number of values of a `uint64`. -/
def WORD : ℕ := 2 ^ 64

/-- `++` and `--` on a `uint32`. -/
def incr32 (n : ℕ) : ℕ := (n + 1) % 2 ^ 32
def decr32 (n : ℕ) : ℕ := (n + (2 ^ 32 - 1)) % 2 ^ 32

/-- `ROUNDUP(a, b)` for a power of two `b`. -/
def ROUNDUP (a b : ℕ) : ℕ := (a + b - 1) / b * b

/-- `ROUNDDOWN(a, b)` for a power of two `b`. -/
def ROUNDDOWN (a b : ℕ) : ℕ := a / b * b

/-- Why a call never returns to its caller. -/
inductive Stop where
  | panic (message : String)
  | kassertFailed (condition : String)
  | assertFailed (condition : String)
  | spinsForever
  | nullDereference
  | accessFault
  | outOfBounds
  | shutdown (code : ℕ)
deriving DecidableEq, Repr

/-- A kernel function: it returns a value and a new state, or stops in some state. -/
abbrev Exec (σ : Type) := EStateM Stop σ

def kassert {σ : Type} (condition : Bool) (text : String) : Exec σ Unit :=
  if condition then pure () else throw (.kassertFailed text)

def assert {σ : Type} (condition : Bool) (text : String) : Exec σ Unit :=
  if condition then pure () else throw (.assertFailed text)

/-- `__builtin_ctzll`: trailing zero bits of a nonzero 64-bit word. -/
def ctzll (n : ℕ) : ℕ :=
  go n 64
where
  go (n : ℕ) : ℕ → ℕ
    | 0 => 0
    | fuel + 1 => if n % 2 = 1 then 0 else go (n / 2) fuel + 1

/-- `__builtin_clzll`: leading zero bits of a nonzero 64-bit word. -/
def clzll (n : ℕ) : ℕ := 63 - n.log2

/-- A divisor `2 ^ k` of a nonzero word bounds its number of trailing zeros from below. -/
theorem le_ctzll {n k : ℕ} (small : k ≤ 64) (divides : 2 ^ k ∣ n) : k ≤ ctzll n := by
  suffices general : ∀ fuel n k, k ≤ fuel → 2 ^ k ∣ n → k ≤ ctzll.go n fuel from
    general 64 n k small divides
  intro fuel
  induction fuel with
  | zero => intro n k bound _; exact bound
  | succ fuel ih =>
    intro n k bound divides
    cases k with
    | zero => exact Nat.zero_le _
    | succ k =>
      obtain ⟨q, rfl⟩ := divides
      have half : 2 ^ (k + 1) * q / 2 = 2 ^ k * q := by
        rw [Nat.pow_succ, Nat.mul_right_comm, Nat.mul_div_cancel _ (by decide)]
      have even : 2 ^ (k + 1) * q % 2 ≠ 1 := by
        rw [Nat.pow_succ, Nat.mul_right_comm, Nat.mul_mod_left]
        decide
      rw [ctzll.go, if_neg even, half]
      exact Nat.succ_le_succ (ih _ _ (Nat.le_of_succ_le_succ bound) ⟨q, rfl⟩)

theorem two_pow_ctzll_dvd (n : ℕ) : 2 ^ ctzll n ∣ n := by
  suffices general : ∀ fuel n, 2 ^ ctzll.go n fuel ∣ n from general 64 n
  intro fuel
  induction fuel with
  | zero => intro n; exact Nat.one_dvd _
  | succ fuel ih =>
    intro n
    rw [ctzll.go]
    split
    · exact Nat.one_dvd _
    · have whole : n = n / 2 * 2 := by omega
      conv_rhs => rw [whole]
      rw [Nat.pow_succ]
      exact Nat.mul_dvd_mul_right (ih _) 2

end Pke.Model
