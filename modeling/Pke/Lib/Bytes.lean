import Mathlib.Data.Nat.Digits.Lemmas
import Mathlib.Logic.Function.Basic

/-! # Memory of bytes

Memory is a total function from addresses to bytes. A doubleword is eight bytes, the lowest first;
loading it and storing it elsewhere moves its bytes. `Block m a bytes` says what the memory holds
from an address on, and `Text` that it holds a string with its terminator. `copied` and `filled` are
what copying and filling a region should do.
-/

namespace Pke.Lib

abbrev Bytes := ℕ → UInt8

namespace Bytes

variable {m : Bytes} {a b x w : ℕ}

def store (m : Bytes) (a : ℕ) (byte : UInt8) : Bytes := Function.update m a byte

/-- The doubleword at `a`. -/
def loadWord (m : Bytes) (a : ℕ) : ℕ := Nat.ofDigits 256 ((List.range 8).map fun i => (m (a + i)).toNat)

/-- The memory after a doubleword was stored at `a`. -/
def storeWord (m : Bytes) (a w : ℕ) : Bytes := fun x =>
  if a ≤ x ∧ x < a + 8 then UInt8.ofNat (w / 256 ^ (x - a) % 256) else m x

private theorem loadWord_byte (m : Bytes) (a : ℕ) {i : ℕ} (inside : i < 8) :
    m.loadWord a / 256 ^ i % 256 = (m (a + i)).toNat := by
  have digits : ∀ d ∈ (List.range 8).map fun i => (m (a + i)).toNat, d < 256 := by
    intro d member
    obtain ⟨j, -, rfl⟩ := List.mem_map.mp member
    exact (m (a + j)).toNat_lt
  have long : i < ((List.range 8).map fun i => (m (a + i)).toNat).length := by simpa using inside
  rw [loadWord, Nat.ofDigits_div_pow_eq_ofDigits_drop i (by decide) _ digits, List.drop_eq_getElem_cons long,
    Nat.ofDigits_cons, Nat.add_mul_mod_self_left, List.getElem_map, List.getElem_range]
  exact Nat.mod_eq_of_lt (m (a + i)).toNat_lt

/-- A loaded doubleword, stored elsewhere, is its eight bytes. -/
private theorem storeWord_loadWord (m : Bytes) (a b x : ℕ) :
    m.storeWord a (m.loadWord b) x = if a ≤ x ∧ x < a + 8 then m (b + (x - a)) else m x := by
  rw [storeWord]
  split_ifs with inside
  · rw [loadWord_byte m b (by omega), UInt8.ofNat_toNat]
  · rfl

/-- The `n` bytes at `dst` replaced by those that were at `src`. -/
def copied (m : Bytes) (dst src n : ℕ) : Bytes := fun x => if dst ≤ x ∧
    x < dst + n then m (src + (x - dst)) else m x

/-- The `n` bytes at `dst` replaced by one byte. -/
def filled (m : Bytes) (dst n : ℕ) (byte : UInt8) : Bytes := fun x => if dst ≤ x ∧
    x < dst + n then byte else m x

theorem copied_outside {dst src n : ℕ} (outside : ¬ (dst ≤ x ∧ x < dst + n)) : m.copied dst src n x = m x :=
  if_neg outside

theorem copied_inside {dst src n i : ℕ} (inside : i < n) : m.copied dst src n (dst + i) = m (src + i) := by
  rw [copied, if_pos (by omega), Nat.add_sub_cancel_left]

@[simp] theorem copied_zero (m : Bytes) (dst src : ℕ) : m.copied dst src 0 = m :=
  funext fun x => copied_outside (by omega)

@[simp] theorem filled_zero (m : Bytes) (dst : ℕ) (byte : UInt8) : m.filled dst 0 byte = m :=
  funext fun x => if_neg (by omega)

theorem store_eq_copied (m : Bytes) (d s : ℕ) : m.store d (m s) = m.copied d s 1 := by
  funext x
  by_cases here : x = d
  · subst here
    rw [store, Function.update_self, copied, if_pos (by omega), Nat.sub_self, Nat.add_zero]
  · rw [store, Function.update_of_ne here, copied_outside (by omega)]

theorem storeWord_eq_copied (m : Bytes) (d s : ℕ) : m.storeWord d (m.loadWord s) = m.copied d s 8 :=
  funext fun x => storeWord_loadWord m d s x

theorem store_eq_filled (m : Bytes) (d : ℕ) (byte : UInt8) : m.store d byte = m.filled d 1 byte := by
  funext x
  by_cases here : x = d
  · subst here
    rw [store, Function.update_self, filled, if_pos (by omega)]
  · rw [store, Function.update_of_ne here, filled, if_neg (by omega)]

/-- Copying may go on from where it stopped, if what is left of the source was not overwritten. -/
theorem copied_add {dst src k n : ℕ} (clear : dst ≤ src ∨ src + (k + n) ≤ dst) :
    (m.copied dst src k).copied (dst + k) (src + k) n = m.copied dst src (k + n) := by
  funext x
  by_cases late : dst + k ≤ x ∧ x < dst + k + n
  · have source : src + k + (x - (dst + k)) = src + (x - dst) := by omega
    rw [copied, if_pos late, copied_outside (by omega), source, copied, if_pos (by omega)]
  · rw [copied_outside late, copied, copied]
    by_cases early : dst ≤ x ∧ x < dst + k
    · rw [if_pos early, if_pos (by omega)]
    · rw [if_neg early, if_neg (by omega)]

/-- Copying may go on before the bytes already copied, if the destination is not before the source. -/
theorem copied_add_before {dst src k : ℕ} (below : src ≤ dst) :
    (m.copied (dst + k) (src + k) 1).copied dst src k = m.copied dst src (k + 1) := by
  funext x
  by_cases early : dst ≤ x ∧ x < dst + k
  · rw [copied, if_pos early, copied_outside (by omega), copied, if_pos (by omega)]
  · rw [copied_outside early, copied, copied]
    by_cases last : x = dst + k
    · rw [if_pos (by omega), if_pos (by omega), last, Nat.sub_self, Nat.add_zero, Nat.add_sub_cancel_left]
    · rw [if_neg (by omega), if_neg (by omega)]

/-- Filling may go on from where it stopped. -/
theorem filled_add {dst k n : ℕ} {byte : UInt8} :
    (m.filled dst k byte).filled (dst + k) n byte = m.filled dst (k + n) byte := by
  funext x
  simp only [filled]
  split_ifs <;> first | rfl | omega

/-- The number that `n` bytes make with the most significant byte first. -/
def bigEndian (m : Bytes) (a : ℕ) : ℕ → ℕ
  | 0 => 0
  | n + 1 => bigEndian m a n * 256 + (m (a + n)).toNat

/-- A number of more bytes goes on from where it stopped. -/
theorem bigEndian_add (m : Bytes) (a k n : ℕ) :
    m.bigEndian a (k + n) = m.bigEndian a k * 256 ^ n + m.bigEndian (a + k) n := by
  induction n with
  | zero => simp [bigEndian]
  | succ n ih =>
    calc m.bigEndian a (k + n + 1) = (m.bigEndian a k * 256 ^ n + m.bigEndian (a + k) n) * 256 + (m
      (a + (k + n))).toNat := by
          rw [bigEndian, ih]
      _ = m.bigEndian a k * 256 ^ (n + 1) + m.bigEndian (a + k) (n + 1) := by
          rw [bigEndian, Nat.pow_succ, Nat.add_mul, Nat.mul_assoc, Nat.add_assoc, Nat.add_assoc a k n]

/-- The memory holds these bytes from `a` on. -/
def Block (m : Bytes) (a : ℕ) (bytes : List UInt8) : Prop := ∀ i, (inside : i < bytes.length) →
    m (a + i) = bytes[i]

theorem block_append {s t : List UInt8} : Block m a (s ++ t) ↔ Block m a s ∧ Block m (a + s.length) t := by
  constructor
  · intro block
    refine ⟨fun i inside => ?_, fun i inside => ?_⟩
    · rw [block i (by rw [List.length_append]; omega), List.getElem_append_left inside]
    · rw [Nat.add_assoc, block (s.length + i) (by rw [List.length_append]; omega),
        List.getElem_append_right (Nat.le_add_right _ _)]
      simp only [Nat.add_sub_cancel_left]
  · rintro ⟨first, second⟩ i inside
    rw [List.length_append] at inside
    rcases Nat.lt_or_ge i s.length with before | behind
    · rw [first i before, List.getElem_append_left before]
    · obtain ⟨j, rfl⟩ := Nat.exists_eq_add_of_le behind
      rw [← Nat.add_assoc, second j (by omega), List.getElem_append_right behind]
      simp only [Nat.add_sub_cancel_left]

theorem Block.unique {s t : List UInt8} (first : Block m a s) (second : Block m a t)
    (length : s.length = t.length) : s = t :=
  List.ext_getElem length fun i inside inside' => (first i inside).symm.trans (second i inside')

/-- The memory holds this string and its terminator. -/
structure Text (m : Bytes) (a : ℕ) (s : List UInt8) : Prop where
  block : Block m a s
  nonzero : ∀ c ∈ s, c ≠ 0
  ends : m (a + s.length) = 0

theorem Text.byte_ne_zero {s : List UInt8} (text : Text m a s) {i : ℕ} (inside : i < s.length) :
    m (a + i) ≠ 0 := by
  rw [text.block i inside]
  exact text.nonzero _ (List.getElem_mem inside)

/-- A terminator ends the string: there is one string at an address. -/
theorem Text.unique {s t : List UInt8} (first : Text m a s) (second : Text m a t) : s = t := by
  have length : s.length = t.length := by
    rcases Nat.lt_trichotomy s.length t.length with less | same | more
    · exact absurd first.ends (second.byte_ne_zero less)
    · exact same
    · exact absurd second.ends (first.byte_ne_zero more)
  exact first.block.unique second.block length

end Bytes

end Pke.Lib
