import Pke.Lib.Bytes
import Pke.Lib.Loop
import Pke.Model.Machine

/-! # Memory and strings: `string.c`

The functions work on the memory of bytes. A loop whose end depends on what the memory holds, or on
a pointer that can wrap, has a bound on its rounds, and no result within the bound is `none`; a loop
that counts down is a recursion on its counter. A string that is only read is given by its bytes
from the pointer on.
-/

namespace Pke.Model

open Pke.Lib

/-- The two pointers of a copying loop, and the memory. -/
structure Copying where
  d : ℕ
  s : ℕ
  mem : Bytes

namespace Copying

/-- `*d++ = *s++` on bytes. -/
def byte (c : Copying) : Copying := ⟨c.d + 1, c.s + 1, c.mem.store c.d (c.mem c.s)⟩

/-- `*(uintptr_t*)d = *(const uintptr_t*)s`, and both pointers advance by eight bytes. -/
def word (c : Copying) : Copying := ⟨c.d + 8, c.s + 8, c.mem.storeWord c.d (c.mem.loadWord c.s)⟩

end Copying

/-- `memcpy`: doublewords first, if both pointers are aligned, and then the bytes that are left. -/
def memcpy (bound : ℕ) (m : Bytes) (dest src len : ℕ) : Option Bytes := do
  let start : Copying := ⟨dest, src, m⟩
  let words ← if (dest ||| src) &&& 7 = 0
    then whileLoop (fun c => c.d < (dest + len + (WORD - 7)) % WORD) Copying.word bound start
    else some start
  let bytes ← whileLoop (fun c => c.d < (dest + len) % WORD) Copying.byte bound words
  return bytes.mem

/-- The doubleword that `memset` stores. -/
def fillWord (byte : ℕ) : ℕ :=
  let word := byte &&& 0xFF
  let word := word ||| word <<< 8 % WORD
  let word := word ||| word <<< 16 % WORD
  word ||| (word <<< 16 % WORD) <<< 16 % WORD

/-- `memset`: by doublewords if pointer and length are multiples of eight, and else by bytes. -/
def memset (bound : ℕ) (m : Bytes) (dest byte len : ℕ) : Option Bytes :=
  if (dest ||| len) &&& 7 = 0 then
    (whileLoop (fun c : ℕ × Bytes => c.1 < (dest + len) % WORD)
      (fun c => (c.1 + 8, c.2.storeWord c.1 (fillWord byte))) bound (dest, m)).map Prod.snd
  else
    (whileLoop (fun c : ℕ × Bytes => c.1 < (dest + len) % WORD)
      (fun c => (c.1 + 1, c.2.store c.1 (UInt8.ofNat byte))) bound (dest, m)).map Prod.snd

def strlen (bound : ℕ) (s : ℕ → UInt8) : Option ℕ := whileLoop (fun p => s p ≠ 0) (· + 1) bound 0

/-- `strcmp`; the bytes are unsigned. -/
def strcmp (bound : ℕ) (s1 s2 : ℕ → UInt8) : Option ℤ :=
  (whileLoop (fun i => s1 i ≠ 0 && s1 i = s2 i) (· + 1) bound 0).map fun i =>
    ((s1 i).toNat : ℤ) - ((s2 i).toNat : ℤ)

/-- `strcpy`: the terminator is copied too. -/
def strcpy (bound : ℕ) (m : Bytes) (dest src : ℕ) : Option Bytes :=
  (whileLoop (fun c : Copying => c.mem c.s ≠ 0) Copying.byte bound ⟨dest, src, m⟩).map fun c => c.byte.mem

/-- The low 64 bits as a `long`. -/
def wrapLong (n : ℤ) : ℤ := n.bmod WORD

/-- `atol`; the loop over the digits takes any byte for a digit. -/
def atol (bound : ℕ) (str : ℕ → UInt8) : Option ℤ := do
  let first ← whileLoop (fun p => str p = ' '.toUInt8) (· + 1) bound 0
  let signed := str first = '-'.toUInt8 || str first = '+'.toUInt8
  let start := if signed then first + 1 else first
  let (_, res) ← whileLoop (fun c : ℕ × ℤ => str c.1 ≠ 0)
    (fun c => (c.1 + 1, wrapLong (wrapLong (c.2 * 10) + (((str c.1).toNat : ℤ) - ('0'.toNat : ℤ)))))
    bound (start, 0)
  return if str first = '-'.toUInt8 then wrapLong (-res) else res

/-- `while (n-- > 0) *--d = *--s`. -/
def moveBackward : ℕ → ℕ → ℕ → Bytes → Bytes
  | 0, _, _, m => m
  | n + 1, d, s, m => moveBackward n (d - 1) (s - 1) (m.store (d - 1) (m (s - 1)))

/-- `while (n-- > 0) *d++ = *s++`. -/
def moveForward : ℕ → ℕ → ℕ → Bytes → Bytes
  | 0, _, _, m => m
  | n + 1, d, s, m => moveForward n (d + 1) (s + 1) (m.store d (m s))

def memmove (m : Bytes) (dst src n : ℕ) : Bytes :=
  if src < dst ∧ (src + n) % WORD > dst then moveBackward n (dst + n) (src + n) m else moveForward n dst src m

/-- `while (--n > 0 && (*s++ = *t++) != 0)`. -/
def safestrcpyLoop : ℕ → Copying → Copying
  | 0, c => c
  | n + 1, c => if n > 0 then if c.mem c.s ≠ 0 then safestrcpyLoop n c.byte else c.byte else c

def safestrcpy (m : Bytes) (s t : ℕ) (n : ℤ) : Bytes :=
  if n ≤ 0 then m
  else
    let c := safestrcpyLoop n.toNat ⟨s, t, m⟩
    c.mem.store c.d 0

end Pke.Model
