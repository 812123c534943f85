import Pke.Model.Vmm

/-! # Printing: `snprintf.c`, `spike_utils.c` and `sys_user_print`

Physical memory is read byte by byte. The arguments of a variadic call are a sequence of words, of
which the callee takes the next one with `va_arg`; how many there are is not known to it. A string
in memory need not end, so the loops over strings have a bound, and no result within the bound is
`none`. The kernel's page table maps the physical memory only, so a call that reads another address
does not return.
-/

namespace Pke.Model

variable {σ : Type}

/-- The byte at a physical address. -/
def physByte (mem : ℕ → ℕ → ℕ) (pa : ℕ) : ℕ :=
  mem (pa / PGSIZE) (pa % PGSIZE / 8) / 256 ^ (pa % PGSIZE % 8) % 256

/-- The state of `vsnprintf`: its variables, the number of arguments taken and the addresses read. -/
structure Printer where
  out : ℕ → ℕ
  pos : ℕ
  format : Bool
  longarg : Bool
  taken : ℕ
  reads : List ℕ

namespace Printer

/-- `if (++pos < n) out[pos - 1] = c`. -/
def put (n c : ℕ) (p : Printer) : Printer :=
  { p with pos := p.pos + 1, out := if p.pos + 1 < n then Function.update p.out p.pos c else p.out }

/-- The end of a conversion. -/
def done (p : Printer) : Printer := { p with longarg := false, format := false }

end Printer

/-- The low `w` bits of a word as a signed number. -/
def signedWord (w word : ℕ) : ℤ :=
  if word % 2 ^ w < 2 ^ (w - 1) then (word % 2 ^ w : ℕ) else (word % 2 ^ w : ℕ) - 2 ^ w

/-- `long num = longarg ? va_arg(vl, long) : va_arg(vl, int)`. -/
def longArg (args : ℕ → ℕ) (p : Printer) : ℤ := signedWord (if p.longarg then 64 else 32) (args p.taken)

/-- A hexadecimal digit. -/
def hexDigit (d : ℕ) : ℕ := if d < 10 then '0'.toNat + d else 'a'.toNat + d - 10

/-- The conversion `%x`. -/
def printHex (args : ℕ → ℕ) (n : ℕ) (p : Printer) : Printer :=
  let num := (longArg args p % 2 ^ 64).toNat
  let digits := (List.range (if p.longarg then 16 else 8)).reverse
  (digits.foldl (fun (q : Printer) i => q.put n (hexDigit (num / 16 ^ i % 16)))
    { p with taken := p.taken + 1 }).done

/-- The byte of digit `i` of `digits` of a decimal number. -/
def decimalByte (num : ℤ) (digits i : ℕ) : ℕ :=
  (('0'.toNat + (num.tdiv (10 ^ (digits - 1 - i))).tmod 10) % 256).toNat

/-- The conversion `%d`. The negation wraps. -/
def printDecimal (args : ℕ → ℕ) (n : ℕ) (p : Printer) : Printer :=
  let num := longArg args p
  let p := { p with taken := p.taken + 1 }
  let p := if num < 0 then p.put n '-'.toNat else p
  let num := if num < 0 ∧ num ≠ -2 ^ 63 then -num else num
  let digits := (Nat.toDigits 10 num.natAbs).length
  let out := fun j =>
    if p.pos ≤ j ∧ j < p.pos + digits ∧ j + 1 < n then decimalByte num digits (j - p.pos) else p.out j
  { p with out, pos := p.pos + digits }.done

/-- `if (++pos < n) out[pos - 1] = (char)va_arg(vl, int)` of the conversion `%c`: an argument is
taken only for a byte that fits. -/
def printChar (args : ℕ → ℕ) (n : ℕ) (p : Printer) : Printer :=
  { p with taken := if p.pos + 1 < n then p.taken + 1 else p.taken }.put n (args p.taken % 256)

/-- The loop of the conversion `%s`. -/
def printString (byte : ℕ → ℕ) (n : ℕ) : ℕ → ℕ → Printer → Option Printer
  | 0, _, _ => none
  | fuel + 1, s, p =>
    let p := { p with reads := s :: p.reads }
    if byte s = 0 then some p.done else printString byte n fuel (s + 1) (p.put n (byte s))

/-- A character of the format string behind a `%`. -/
def printConversion (byte args : ℕ → ℕ) (n fuel c : ℕ) (p : Printer) : Option Printer :=
  if c = 'l'.toNat then some { p with longarg := true }
  else if c = 'p'.toNat then
    some (printHex args n (({ p with longarg := true }.put n '0'.toNat).put n 'x'.toNat))
  else if c = 'x'.toNat then some (printHex args n p)
  else if c = 'd'.toNat then some (printDecimal args n p)
  else if c = 's'.toNat then printString byte n fuel (args p.taken) { p with taken := p.taken + 1 }
  else if c = 'c'.toNat then some (printChar args n p).done
  else some p

/-- The loop of `vsnprintf` over the format string at `s`. -/
def vsnprintfLoop (byte args : ℕ → ℕ) (n : ℕ) : ℕ → ℕ → Printer → Option Printer
  | 0, _, _ => none
  | fuel + 1, s, p =>
    let p := { p with reads := s :: p.reads }
    if byte s = 0 then some p
    else if p.format then
      (printConversion byte args n fuel (byte s) p).bind (vsnprintfLoop byte args n fuel (s + 1))
    else if byte s = '%'.toNat then vsnprintfLoop byte args n fuel (s + 1) { p with format := true }
    else vsnprintfLoop byte args n fuel (s + 1) (p.put n (byte s))

/-- `vsnprintf` into the buffer `out` of `n` bytes; the result is `pos`. -/
def vsnprintf (byte args : ℕ → ℕ) (fuel : ℕ) (out : ℕ → ℕ) (n s : ℕ) : Option Printer :=
  (vsnprintfLoop byte args n fuel s ⟨out, 0, false, false, 0, []⟩).map fun p =>
    if p.pos < n then { p with out := Function.update p.out p.pos 0 }
    else if n ≠ 0 then { p with out := Function.update p.out (n - 1) 0 }
    else p

/-- What a call of `sprint` writes, how many arguments it takes, and what it reads. -/
structure Printed where
  text : List ℕ
  taken : ℕ
  reads : List ℕ

/-- The size of the buffer of `vprintk`. -/
def OUT_SIZE : ℕ := 256

/-- The number of bytes that `vprintk` writes. The result of `vsnprintf` is an `int`, and a negative
one is larger than the size of the buffer. -/
def writtenLength (pos : ℕ) : ℕ := if pos % 2 ^ 32 < OUT_SIZE then pos % 2 ^ 32 else OUT_SIZE

/-- `sprint`, by way of `vprintk`, whose buffer is not initialised. -/
def sprint (byte args : ℕ → ℕ) (fuel : ℕ) (out : ℕ → ℕ) (s : ℕ) : Option Printed :=
  (vsnprintf byte args fuel out OUT_SIZE s).map fun p =>
    ⟨(List.range (writtenLength p.pos)).map p.out, p.taken, p.reads⟩

/-- An address that the kernel's page table maps. -/
def inRam (pa : ℕ) : Bool := KERN_BASE ≤ pa && pa < PHYS_TOP

/-- A bound for the loops over strings: a format string and a string of one of its conversions, both
inside the physical memory, are shorter. -/
def STRING_BOUND : ℕ := 2 * PKE_MAX_ALLOWABLE_RAM

/-- What `sys_user_print` prints: the text at the translated address is the format string of
`sprint`, and no arguments are passed. -/
def sysUserPrintText (env : PageEnv σ) (args out : ℕ → ℕ) (buf : ℕ) : Exec (Kernel σ) Printed := do
  match ← userVaToPa env ((← get).procs (← get).current).pagetable buf with
  | none => throw .nullDereference
  | some pa =>
    match sprint (physByte (← get).mem) args STRING_BOUND out pa with
    | none => throw .accessFault
    | some printed => if printed.reads.all inRam then return printed else throw .accessFault

/-- `sys_user_print`. What the buffer of `vprintk` holds before does not matter to the caller. -/
def sysUserPrint (env : PageEnv σ) (buf : ℕ) : Exec (Kernel σ) ℕ := do
  let _ ← sysUserPrintText env (← get).varargs (fun _ => 0) buf
  return 0

end Pke.Model
