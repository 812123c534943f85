import Pke.Model.Printf
import Pke.Proofs.ElfLoad

/-! # What `sys_user_print` prints

The text of the user is the format string of `sprint`, read at the physical address of its first
byte. A text without a `%` that ends inside the buffer, after at most 255 bytes, and that lies in
consecutive frames is printed as it is; every other text is not.
-/

namespace Pke.Proofs

open Pke.Lib Pke.Model

variable {σ : Type} {env : PageEnv σ}

section

variable {byte args : ℕ → ℕ} {n fuel s : ℕ} {p p' : Printer}

private theorem foldl_put_taken (n : ℕ) (char : ℕ → ℕ) (digits : List ℕ) : ∀ p : Printer,
    (digits.foldl (fun (q : Printer) i => q.put n (char i)) p).taken = p.taken := by
  induction digits with
  | nil =>
    intro p
    rfl
  | cons i digits ih =>
    intro p
    exact ih (p.put n (char i))

private theorem printHex_taken (args : ℕ → ℕ) (n : ℕ) (p : Printer) : (printHex args n p).taken = p.taken + 1 :=
  foldl_put_taken n _ _ _

private theorem printDecimal_taken (args : ℕ → ℕ) (n : ℕ)
    (p : Printer) : (printDecimal args n p).taken = p.taken + 1 := by
  simp only [printDecimal, Printer.done]
  split_ifs
  · rfl
  · rfl

private theorem printString_taken :
    ∀ {fuel s : ℕ} {p : Printer}, printString byte n fuel s p = some p' → p'.taken = p.taken := by
  intro fuel
  induction fuel with
  | zero =>
    intro s p result
    cases result
  | succ fuel ih =>
    intro s p result
    rw [printString] at result
    split_ifs at result
    · obtain rfl := Option.some.inj result
      rfl
    · have later := ih result
      exact later

/-- A character behind a `%` that takes no argument: it prints nothing, or it is a `%c` behind the
end of the buffer, which counts. -/
inductive Unconverted (n : ℕ) (p p' : Printer) : Prop
  | waits (taken : p'.taken = p.taken) (pos : p'.pos = p.pos) (out : p'.out = p.out)
      (format : p'.format = p.format) (reads : p'.reads = p.reads)
  | counts (taken : p'.taken = p.taken) (full : n ≤ p.pos + 1) (pos : p'.pos = p.pos + 1) (out : p'.out = p.out)
      (reads : p'.reads = p.reads)

private theorem printConversion_cases {c : ℕ} (result : printConversion byte args n fuel c p = some p') :
    p'.taken = p.taken + 1 ∨ Unconverted n p p' := by
  rw [printConversion] at result
  split_ifs at result
  · obtain rfl := Option.some.inj result
    exact Or.inr (.waits rfl rfl rfl rfl rfl)
  · obtain rfl := Option.some.inj result
    exact Or.inl (printHex_taken ..)
  · obtain rfl := Option.some.inj result
    exact Or.inl (printHex_taken ..)
  · obtain rfl := Option.some.inj result
    exact Or.inl (printDecimal_taken ..)
  · exact Or.inl (printString_taken result)
  · obtain rfl := Option.some.inj result
    by_cases room : p.pos + 1 < n
    · exact Or.inl (if_pos room)
    · exact Or.inr (.counts (if_neg room) (Nat.not_lt.mp room) rfl (if_neg room) rfl)
  · obtain rfl := Option.some.inj result
    exact Or.inr (.waits rfl rfl rfl rfl rfl)

/-- One round of the loop of `vsnprintf`. -/
inductive PrintRound (byte args : ℕ → ℕ) (n fuel s : ℕ) (p p' : Printer) : Prop
  | last (ends : byte s = 0) (result : p' = { p with reads := s :: p.reads })
  | convert {q : Printer} (going : byte s ≠ 0) (format : p.format = true)
      (step : q.taken = p.taken + 1 ∨ Unconverted n { p with reads := s :: p.reads } q)
      (rest : vsnprintfLoop byte args n fuel (s + 1) q = some p')
  | percent (format : p.format = false) (sign : byte s = '%'.toNat)
      (rest : vsnprintfLoop byte args n fuel (s + 1) { p with reads := s :: p.reads, format := true } = some p')
  | plain (going : byte s ≠ 0) (format : p.format = false) (other : byte s ≠ '%'.toNat)
      (rest : vsnprintfLoop byte args n fuel (s + 1)
        ({ p with reads := s :: p.reads }.put n (byte s)) = some p')

private theorem printRound (result : vsnprintfLoop byte args n (fuel + 1) s p = some p') :
    PrintRound byte args n fuel s p p' := by
  rw [vsnprintfLoop] at result
  by_cases ends : byte s = 0
  · rw [if_pos ends] at result
    exact .last ends (Option.some.inj result).symm
  rw [if_neg ends] at result
  by_cases format : p.format = true
  · rw [if_pos format] at result
    obtain ⟨q, step, rest⟩ := Option.bind_eq_some_iff.mp result
    exact .convert ends format (printConversion_cases step) rest
  · rw [if_neg format] at result
    split_ifs at result with sign
    · exact .percent (Bool.eq_false_of_not_eq_true format) sign result
    · exact .plain ends (Bool.eq_false_of_not_eq_true format) sign result

/-- Arguments are not given back. -/
private theorem taken_le : ∀ {fuel s : ℕ} {p : Printer}, vsnprintfLoop byte args n fuel s p = some p' →
    p.taken ≤ p'.taken := by
  intro fuel
  induction fuel with
  | zero =>
    intro s p result
    cases result
  | succ fuel ih =>
    intro s p result
    cases printRound result with
    | last _ result =>
      rw [result]
    | convert _ _ step rest =>
      have later := ih rest
      rcases step with more | ⟨same, _, _, _, _⟩ | ⟨same, _, _, _, _⟩
      · omega
      · exact same.symm.trans_le later
      · exact same.symm.trans_le later
    | percent _ _ rest =>
      have later := ih rest
      exact later
    | plain _ _ _ rest =>
      have later := ih rest
      exact later

/-- The loop read the string at `s` up to offset `last`, and it printed what precedes offset
`shown`. What it counts behind that does not fit the buffer. -/
structure TextScanned (byte : ℕ → ℕ) (n s shown last : ℕ) (p p' : Printer) : Prop where
  order : shown ≤ last
  reads : (∀ a ∈ p.reads, a ∈ p'.reads) ∧ ∀ i ≤ last, s + i ∈ p'.reads
  plain : ∀ i < shown, byte (s + i) ≠ 0 ∧ byte (s + i) ≠ '%'.toNat
  pos : p.pos + shown ≤ p'.pos ∧ p'.pos ≤ p.pos + last
  fits : p'.pos < n → p'.pos = p.pos + shown
  text : ∀ i < shown, p.pos + i + 1 < n → p'.out (p.pos + i) = byte (s + i)
  before : ∀ j < p.pos, p'.out j = p.out j

/-- The reads of a round and of the rounds behind it. -/
theorem TextScanned.reads_cons {shown last : ℕ} {q : Printer}
    (scanned : TextScanned byte n (s + 1) shown last q p')
    (reads : q.reads = s :: p.reads) : (∀ a ∈ p.reads, a ∈ p'.reads) ∧ ∀ i ≤ last + 1, s + i ∈ p'.reads := by
  have earlier := scanned.reads.1
  rw [reads] at earlier
  refine ⟨fun a member => earlier a (List.mem_cons_of_mem _ member), fun i low => ?_⟩
  cases i with
  | zero => exact earlier s List.mem_cons_self
  | succ i =>
    rw [show s + (i + 1) = s + 1 + i by omega]
    exact scanned.reads.2 i (by omega)

/-- The start of the last round: only its byte is read. -/
private theorem TextScanned.last (byte : ℕ → ℕ) (n s : ℕ) (p : Printer) :
    TextScanned byte n s 0 0 p { p with reads := s :: p.reads } := by
  refine ⟨le_refl 0, ⟨fun a member => List.mem_cons_of_mem _ member,
    fun i low => ?_⟩, by simp, ⟨le_refl _, le_refl _⟩, fun _ => rfl, by simp, fun _ _ => rfl⟩
  obtain rfl := Nat.le_zero.mp low
  exact List.mem_cons_self

/-- A round that prints nothing, before rounds that print nothing. -/
private theorem TextScanned.silent {last : ℕ} {q : Printer} (scanned : TextScanned byte n (s + 1) 0 last q p')
    (reads : q.reads = s :: p.reads) (out : q.out = p.out) (pos : q.pos = p.pos ∨ n ≤ p.pos + 1 ∧
      q.pos = p.pos + 1) :
    TextScanned byte n s 0 (last + 1) p p' := by
  obtain ⟨low, high⟩ := scanned.pos
  have fits := scanned.fits
  refine ⟨Nat.zero_le _, scanned.reads_cons
    reads, by simp, ⟨by omega, by omega⟩, fun room => by omega, by simp, fun j below => ?_⟩
  rw [scanned.before j (by omega), out]

/-- Behind a `%`, and behind the end of the buffer, nothing is printed unless an argument is taken. -/
private theorem scanned_format : ∀ {fuel s : ℕ} {p : Printer}, vsnprintfLoop byte args n fuel s p = some p' →
    p.format = true ∨ n ≤ p.pos → p'.taken = p.taken → ∃ last, TextScanned byte n s 0 last p p' := by
  intro fuel
  induction fuel with
  | zero =>
    intro s p result
    cases result
  | succ fuel ih =>
    intro s p result silent taken
    cases printRound result with
    | last ends result =>
      subst result
      exact ⟨0, .last byte n s p⟩
    | @convert q _ format step rest =>
      have later := taken_le rest
      rcases step with more | ⟨same, pos, out, format', reads⟩ | ⟨same, full, pos, out, reads⟩
      · omega
      · obtain ⟨last, scanned⟩ := ih rest (.inl (format'.trans format)) (taken.trans same.symm)
        exact ⟨last + 1, scanned.silent reads out (.inl pos)⟩
      · obtain ⟨last, scanned⟩ := ih rest (.inr (full.trans pos.symm.le)) (taken.trans same.symm)
        exact ⟨last + 1, scanned.silent reads out (.inr ⟨full, pos⟩)⟩
    | percent plain _ rest =>
      obtain ⟨last, scanned⟩ := ih rest (.inl rfl) taken
      exact ⟨last + 1, scanned.silent rfl rfl (.inl rfl)⟩
    | plain _ plain _ rest =>
      have full : n ≤ p.pos := silent.resolve_left (by rw [plain]; decide)
      obtain ⟨last, scanned⟩ := ih rest (.inr (full.trans (Nat.le_succ _))) taken
      refine ⟨last + 1, scanned.silent rfl ?_ (.inr ⟨full.trans (Nat.le_succ _), rfl⟩)⟩
      simp only [Printer.put, if_neg (show ¬ p.pos + 1 < n by omega)]

/-- Without arguments, the bytes before the first `%` are printed, and the string is read to its end. -/
private theorem scanned_plain :
    ∀ {fuel s : ℕ} {p : Printer}, vsnprintfLoop byte args n fuel s p = some p' → p.format = false →
      p'.taken = p.taken → ∃ shown last, TextScanned byte n s shown last p p' ∧
      (byte (s + shown) = 0 ∧ last = shown ∨ byte (s + shown) = '%'.toNat) := by
  intro fuel
  induction fuel with
  | zero =>
    intro s p result
    cases result
  | succ fuel ih =>
    intro s p result format taken
    cases printRound result with
    | last ends result =>
      subst result
      exact ⟨0, 0, .last byte n s p, Or.inl ⟨ends, rfl⟩⟩
    | convert _ other _ _ =>
      rw [format] at other
      cases other
    | percent _ sign rest =>
      obtain ⟨last, scanned⟩ := scanned_format rest (.inl rfl) taken
      exact ⟨0, last + 1, scanned.silent rfl rfl (.inl rfl), Or.inr sign⟩
    | plain going _ other rest =>
      obtain ⟨shown, last, scanned, stops⟩ := ih rest format taken
      obtain ⟨low, high⟩ := scanned.pos
      have fits := scanned.fits
      change p.pos + 1 + shown ≤ p'.pos at low
      change p'.pos ≤ p.pos + 1 + last at high
      change p'.pos < n → p'.pos = p.pos + 1 + shown at fits
      have here : p.pos + 1 < n → p'.out p.pos = byte s := by
        intro room
        rw [scanned.before p.pos (Nat.lt_succ_self _)]
        simp only [Printer.put, if_pos room, Function.update_self]
      rw [show s + 1 + shown = s + (shown + 1) by omega] at stops
      have stops' := stops.imp_left fun ends => (⟨ends.1, congrArg (· + 1) ends.2⟩ : _ ∧ last + 1 = shown + 1)
      refine ⟨shown + 1, last + 1, ⟨Nat.succ_le_succ scanned.order, scanned.reads_cons rfl, fun i below => ?_,
        ⟨by omega, by omega⟩, fun room => by omega, fun i below room => ?_, fun j below => ?_⟩, stops'⟩
      · cases i with
        | zero => exact ⟨going, other⟩
        | succ i =>
          rw [show s + (i + 1) = s + 1 + i by omega]
          exact scanned.plain i (by omega)
      · cases i with
        | zero => exact here room
        | succ i =>
          rw [show s + (i + 1) = s + 1 + i by omega, show p.pos + (i + 1) = p.pos + 1 + i by omega]
          exact scanned.text i (by omega) (by change p.pos + 1 + i + 1 < n; omega)
      · rw [scanned.before j (Nat.lt_succ_of_lt below)]
        simp only [Printer.put]
        split_ifs
        · exact Function.update_of_ne (Nat.ne_of_lt below) _ _
        · rfl

/-- A string without `%` is printed as it is. -/
private theorem print_plain :
    ∀ {r fuel s : ℕ} {p : Printer}, r < fuel → (∀ i < r, byte (s + i) ≠ 0 ∧ byte (s + i) ≠ '%'.toNat) →
    byte (s + r) = 0 →
      p.format = false → ∃ p', vsnprintfLoop byte args n fuel s p = some p' ∧ p'.taken = p.taken ∧
      ∀ a ∈ p'.reads, a ∈ p.reads ∨ ∃ i ≤ r, a = s + i := by
  intro r fuel
  induction fuel generalizing r with
  | zero =>
    intro s p enough
    exact absurd enough (Nat.not_lt_zero r)
  | succ fuel ih =>
    intro s p enough plain ends format
    cases r with
    | zero =>
      rw [Nat.add_zero] at ends
      refine ⟨{ p with reads := s :: p.reads }, ?_, rfl, fun a member => ?_⟩
      · rw [vsnprintfLoop, if_pos ends]
      · rcases List.mem_cons.mp member with rfl | old
        · exact Or.inr ⟨0, le_refl 0, rfl⟩
        · exact Or.inl old
    | succ r =>
      obtain ⟨going, other⟩ := plain 0 (Nat.succ_pos r)
      rw [Nat.add_zero] at going other
      have shifted : ∀ i, s + 1 + i = s + (i + 1) := fun i => by omega
      have ends' : byte (s + 1 + r) = 0 := by rwa [shifted]
      have plain' : ∀ i < r, byte (s + 1 + i) ≠ 0 ∧ byte (s + 1 + i) ≠ '%'.toNat := by
        intro i below
        rw [shifted]
        exact plain (i + 1) (Nat.succ_lt_succ below)
      obtain ⟨p', result, taken, reads⟩ := @ih r (s + 1) ({ p with reads := s :: p.reads }.put n (byte s))
        (Nat.lt_of_succ_lt_succ enough) plain' ends' format
      refine ⟨p', ?_, taken, fun a member => ?_⟩
      · rw [vsnprintfLoop, if_neg going]
        simp only [format, Bool.false_eq_true, if_false]
        rw [if_neg other, ← result]
        simp only [format]
      · rcases reads a member with old | ⟨i, low, rfl⟩
        · rcases List.mem_cons.mp old with rfl | older
          · exact Or.inr ⟨0, Nat.zero_le _, rfl⟩
          · exact Or.inl older
        · exact Or.inr ⟨i + 1, Nat.succ_le_succ low, shifted i⟩

/-- What `sprint` prints if it takes no argument: the bytes before the first `%` or the end, and a
zero if they fill the buffer. -/
theorem sprint_shown {out : ℕ → ℕ} {printed : Printed} (call : sprint byte args fuel out s = some printed)
    (none : printed.taken = 0) :
    ∃ shown pos last, shown ≤ pos ∧ pos ≤ last ∧ (∀ i ≤ last, s + i ∈ printed.reads) ∧
      (∀ i < shown, byte (s + i) ≠ 0 ∧ byte (s + i) ≠ '%'.toNat) ∧
      (byte (s + shown) = 0 ∧ last = shown ∨ byte (s + shown) = '%'.toNat) ∧
      printed.text.length = writtenLength pos ∧
      (pos < OUT_SIZE → pos = shown ∧ printed.text = (List.range shown).map fun i => byte (s + i)) ∧
      (pos = OUT_SIZE → 0 ∈ printed.text) := by
  rw [sprint, vsnprintf, Option.map_map] at call
  obtain ⟨p, loop, rfl⟩ := Option.map_eq_some_iff.mp call
  have taken : p.taken = 0 := by
    rw [← none]
    simp only [Function.comp_apply]
    split_ifs <;> rfl
  obtain ⟨shown, last, scanned, stops⟩ := scanned_plain loop rfl taken
  obtain ⟨low, high⟩ := scanned.pos
  have fits := scanned.fits
  have text := scanned.text
  simp only [Nat.zero_add] at low high fits text
  refine ⟨shown, p.pos, last, low, high, fun i low => ?_, scanned.plain, stops, ?_,
    fun room => ⟨fits room, ?_⟩, fun full => ?_⟩
  · have read := scanned.reads.2 i low
    simp only [Function.comp_apply]
    split_ifs <;> exact read
  · simp only [Function.comp_apply, List.length_map, List.length_range]
    split_ifs <;> rfl
  · have pos := fits room
    rw [pos] at room
    have written : writtenLength shown = shown := by
      rw [writtenLength, Nat.mod_eq_of_lt (room.trans (by decide)), if_pos room]
    simp only [Function.comp_apply, pos, if_pos room, written]
    refine List.map_congr_left fun i member => ?_
    have below := List.mem_range.mp member
    rw [Function.update_of_ne (Nat.ne_of_lt below)]
    exact text i below (by omega)
  · have buffer : OUT_SIZE ≠ 0 := by decide
    simp only [Function.comp_apply, full, lt_irrefl, if_false, if_pos buffer]
    exact List.mem_map.mpr ⟨OUT_SIZE - 1, by decide, Function.update_self ..⟩

end

/-- The bytes before the first zero. -/
private theorem takeWhile_range (u : ℕ → ℕ) (n : ℕ) : ∃ len ≤ n, (∀ i < len, u i ≠ 0) ∧ (len = n ∨ u len = 0) ∧
    ((List.range n).map u).takeWhile (fun b => decide (b ≠ 0)) = (List.range len).map u := by
  induction n with
  | zero => exact ⟨0, le_refl 0, by simp, Or.inl rfl, rfl⟩
  | succ n ih =>
    obtain ⟨len, low, nonzero, stops, text⟩ := ih
    rw [List.range_succ, List.map_append, List.takeWhile_append, text, List.length_map, List.length_range,
      List.length_map, List.length_range]
    by_cases whole : len = n
    · subst whole
      rw [if_pos rfl]
      by_cases zero : u len = 0
      · refine ⟨len, Nat.le_succ _, nonzero, Or.inr zero, ?_⟩
        simp [zero]
      · refine ⟨len + 1, le_refl _, fun i below => ?_, Or.inl rfl, ?_⟩
        · rcases Nat.lt_succ_iff_lt_or_eq.mp below with early | rfl
          · exact nonzero i early
          · exact zero
        · simp [zero, List.range_succ]
    · rw [if_neg whole]
      exact ⟨len, Nat.le_succ_of_le low, nonzero, Or.inr (stops.resolve_left whole), rfl⟩

/-- The bytes that the running process reads in its buffer, up to the first zero. -/
def userText (k : Kernel σ) (va n : ℕ) : List ℕ :=
  ((List.range n).map fun i => (userByte k k.current (va + i)).getD 0).takeWhile fun b => decide (b ≠ 0)

/-- The physical address of a byte of the running process. -/
def physAddr (k : Kernel σ) (va : ℕ) : ℕ := frameOf (pteOf k k.current va) * PGSIZE + va % PGSIZE

/-- The running process can read the byte at `va`. -/
def Readable (k : Kernel σ) (va : ℕ) : Prop :=
  UserLeaf (pteOf k k.current va) ∧ has (pteOf k k.current va) PTE_R = true ∧
  frameOf (pteOf k k.current va) < 2 ^ 44

section

variable {k : Kernel σ} {va n : ℕ}

theorem physByte_page (mem : ℕ → ℕ → ℕ) (f : ℕ) {o : ℕ} (inside : o < PGSIZE) :
    physByte mem (f * PGSIZE + o) = byteOf (mem f) o := by
  have page : (f * PGSIZE + o) / PGSIZE = f := by
    rw [Nat.mul_comm, Nat.mul_add_div (by decide), Nat.div_eq_of_lt inside, Nat.add_zero]
  have offset : (f * PGSIZE + o) % PGSIZE = o := by rw [Nat.mul_comm, Nat.mul_add_mod, Nat.mod_eq_of_lt inside]
  rw [physByte, page, offset, byteOf]

theorem Readable.userByte (readable : Readable k va) :
    userByte k k.current va = some (physByte k.mem (physAddr k va)) := by
  rw [Proofs.userByte, if_pos ⟨readable.1, readable.2.1⟩, physAddr,
    physByte_page _ _ (Nat.mod_lt _ (by decide))]

/-- The address that `user_va_to_pa` computes. -/
theorem userPa_eq (small : frameOf (pteOf k k.current va) < 2 ^ 44) : userPa k va = physAddr k va := by
  have offset : va % PGSIZE < 2 ^ 12 := Nat.mod_lt _ (by decide)
  have page : frameOf (pteOf k k.current va) * PGSIZE = 2 ^ 12 * frameOf (pteOf k k.current va) :=
    Nat.mul_comm _ _
  rw [userPa, PTE2PA_eq small, physAddr, page, Nat.two_pow_add_eq_or_of_lt offset]

/-- The call prints the text of the user in the buffer of `n` bytes at `va`; it takes no arguments
and reads no memory but the text and the zero behind it. -/
def PrintsExactly (env : PageEnv σ) (args out : ℕ → ℕ) (k : Kernel σ) (va n : ℕ) : Prop :=
  ∃ printed, sysUserPrintText env args out va k = .ok printed k ∧ printed.text = userText k va n ∧
    printed.taken = 0 ∧ ∀ a ∈ printed.reads, ∃ i < n, i ≤ (userText k va n).length ∧ a = physAddr k (va + i)

/-- The buffer holds a text of at most 255 bytes without `%`, and it lies in one piece in the
physical memory. -/
def PlainString (k : Kernel σ) (va n : ℕ) : Prop :=
  0 < va ∧ va < MAXVA ∧ ∃ r < n, r < OUT_SIZE ∧ userByte k k.current (va + r) = some 0 ∧
    (∀ i < r, userByte k k.current (va + i) ≠ some 0 ∧ userByte k k.current (va + i) ≠ some '%'.toNat) ∧
    (∀ i ≤ r, physAddr k (va + i) = physAddr k va + i) ∧ inRam (physAddr k va) = true ∧
    inRam (physAddr k (va + r)) = true

private theorem userText_eq (mapped : ∀ i < n, Readable k (va + i)) :
    ∃ len ≤ n, (∀ i < len, physByte k.mem (physAddr k (va + i)) ≠ 0) ∧
      (len = n ∨ physByte k.mem (physAddr k (va + len)) = 0) ∧
      userText k va n = (List.range len).map fun i => physByte k.mem (physAddr k (va + i)) := by
  have bytes : ((List.range n).map fun i => (userByte k k.current (va + i)).getD 0) =
      (List.range n).map fun i => physByte k.mem (physAddr k (va + i)) := by
    refine List.map_congr_left fun i member => ?_
    rw [(mapped i (List.mem_range.mp member)).userByte]
    rfl
  rw [userText, bytes]
  exact takeWhile_range _ n

/-- A range of less than a page whose physical bytes are those of the virtual range lies in one piece. -/
private theorem contiguous {r : ℕ} (short : r < OUT_SIZE)
    (inside : ∀ i ≤ r, ∃ j ≤ r, physAddr k va + i = physAddr k (va + j)) :
    ∀ i ≤ r, physAddr k (va + i) = physAddr k va + i := by
  have first : ∀ i, va % PGSIZE + i < PGSIZE → physAddr k (va + i) = physAddr k va + i := by
    intro i near
    have page : pageOf (va + i) = pageOf va := by
      simp only [pageOf, PGSIZE] at *
      omega
    have offset : (va + i) % PGSIZE = va % PGSIZE + i := by
      simp only [PGSIZE] at *
      omega
    rw [physAddr, physAddr, pteOf_congr page, offset, Nat.add_assoc]
  -- the second page starts at offset `c`, and its first byte is read behind the first frame
  intro i low
  by_cases near : va % PGSIZE + i < PGSIZE
  · exact first i near
  have bound : va % PGSIZE < PGSIZE := Nat.mod_lt _ (by decide)
  obtain ⟨c, crossing⟩ : ∃ c, va % PGSIZE + c = PGSIZE := ⟨PGSIZE - va % PGSIZE, by omega⟩
  have second : ∀ j, c ≤ j → j ≤ r → physAddr k (va + j) =
    frameOf (pteOf k k.current (va + c)) * PGSIZE + (j - c) := by
    intro j above below
    have page : pageOf (va + j) = pageOf (va + c) := by
      simp only [pageOf, PGSIZE, OUT_SIZE] at *
      omega
    have offset : (va + j) % PGSIZE = j - c := by
      simp only [PGSIZE, OUT_SIZE] at *
      omega
    rw [physAddr, pteOf_congr page, offset]
  have start : physAddr k va + c = (frameOf (pteOf k k.current va) + 1) * PGSIZE := by
    rw [physAddr, Nat.add_assoc, crossing, Nat.add_mul, Nat.one_mul]
  obtain ⟨j, below, same⟩ := inside c (by omega)
  have next : frameOf (pteOf k k.current (va + c)) = frameOf (pteOf k k.current va) + 1 := by
    rw [start] at same
    by_cases early : j < c
    · rw [first j (by omega), physAddr] at same
      simp only [PGSIZE] at *
      omega
    · rw [second j (Nat.not_lt.mp early) below] at same
      simp only [PGSIZE, OUT_SIZE] at *
      omega
  rw [second i (by omega) low, next, ← start]
  omega

/-- Addresses in a row that lie among those of `m` bytes are at most `m`. -/
private theorem row_le {a last m : ℕ} {address : ℕ → ℕ} (inside : ∀ i ≤ last, ∃ j < m, a + i = address j) :
    last < m := by
  have subset : (Finset.range (last + 1)).image (a + ·) ⊆ (Finset.range m).image address := by
    intro b member
    obtain ⟨i, below, rfl⟩ := Finset.mem_image.mp member
    obtain ⟨j, low, same⟩ := inside i (Nat.lt_succ_iff.mp (Finset.mem_range.mp below))
    exact Finset.mem_image.mpr ⟨j, Finset.mem_range.mpr low, same.symm⟩
  have count := Finset.card_le_card subset
  rw [Finset.card_image_of_injective _ (add_right_injective a), Finset.card_range] at count
  have bound := count.trans Finset.card_image_le
  rw [Finset.card_range] at bound
  exact bound

/-- A text that is printed was found, and all that is read of it and for it is memory. -/
private theorem sysUserPrintText_ok {args out : ℕ → ℕ} {printed : Printed} {k' : Kernel σ}
    (call : sysUserPrintText env args out va k = .ok printed k') :
    0 < va ∧ va < MAXVA ∧ sprint (physByte k.mem) args STRING_BOUND out (userPa k va) = some printed ∧
      ∀ a ∈ printed.reads, inRam a = true := by
  rw [sysUserPrintText_eq] at call
  split_ifs at call with range found
  cases result : sprint (physByte k.mem) args STRING_BOUND out (userPa k va) with
  | none =>
    rw [result] at call
    cases call
  | some q =>
    rw [result] at call
    dsimp only at call
    split_ifs at call with inside
    obtain ⟨rfl, -⟩ := EStateM.Result.ok.inj call
    exact ⟨range.1, range.2, rfl, List.all_eq_true.mp inside⟩

/-- Only a plain string is printed exactly: every other text is cut, read elsewhere or taken for a format. -/
theorem plain_of_prints {args out : ℕ → ℕ} (mapped : ∀ i < n, Readable k (va + i))
    (prints : PrintsExactly env args out k va n) : PlainString k va n := by
  obtain ⟨printed, call, text, taken, reads⟩ := prints
  obtain ⟨positive, below, result, ram⟩ := sysUserPrintText_ok call
  obtain ⟨shown, pos, last, order, most, readsAt, plain, _, length, whole, full⟩ := sprint_shown result taken
  obtain ⟨j, inside, _⟩ := reads _ (readsAt 0 (Nat.zero_le _))
  have small : frameOf (pteOf k k.current va) < 2 ^ 44 := (mapped 0 (by omega)).2.2
  rw [userPa_eq small] at readsAt plain whole
  obtain ⟨len, low, nonzero, stops, user⟩ := userText_eq mapped
  rw [user] at text reads
  simp only [List.length_map, List.length_range] at reads
  rw [text, List.length_map, List.length_range] at length
  have bound : last < min n (len + 1) := by
    refine @row_le (physAddr k va) last _ (fun j => physAddr k (va + j)) fun i below => ?_
    obtain ⟨j, inside, near, same⟩ := reads _ (readsAt i below)
    exact ⟨j, lt_min inside (by omega), same⟩
  have fits : len ≤ OUT_SIZE := by
    rw [length, writtenLength]
    split_ifs with small
    · exact small.le
    · exact le_refl _
  rcases Nat.lt_or_eq_of_le (show pos ≤ OUT_SIZE by omega) with short | exact
  · obtain ⟨rfl, written⟩ := whole short
    have same : writtenLength pos = pos := by
      rw [writtenLength, Nat.mod_eq_of_lt (short.trans (by decide)), if_pos short]
    obtain rfl : len = pos := length.trans same
    obtain rfl : last = len := by omega
    have bytes : ∀ i < last, physByte k.mem (physAddr k va + i) = physByte k.mem (physAddr k (va + i)) := by
      intro i below
      exact List.map_inj_left.mp (written.symm.trans text) i (List.mem_range.mpr below)
    have piece := contiguous short fun i below => by
      obtain ⟨j, _, near, same⟩ := reads _ (readsAt i below)
      exact ⟨j, near, same⟩
    have start := readsAt 0 (Nat.zero_le _)
    rw [Nat.add_zero] at start
    refine ⟨positive, below, last, by omega, short, ?_, fun i below => ?_, piece, ram _ start, ?_⟩
    · rw [(mapped last (by omega)).userByte, stops.resolve_left (by omega)]
    · rw [(mapped i (by omega)).userByte]
      refine ⟨fun zero => nonzero i below (Option.some.inj zero), fun sign => (plain i below).2 ?_⟩
      rw [bytes i below]
      exact Option.some.inj sign
    · rw [piece last (le_refl last)]
      exact ram _ (readsAt last (le_refl last))
  · have zero := full exact
    rw [text] at zero
    obtain ⟨i, below, byte⟩ := List.mem_map.mp zero
    exact absurd byte (nonzero i (List.mem_range.mp below))

/-- A range with both ends in the physical memory lies in it. -/
private theorem inRam_between {a b c : ℕ} (first : inRam a = true) (last : inRam c = true) (low : a ≤ b)
    (high : b ≤ c) :
    inRam b = true := by
  have above : KERN_BASE ≤ a := of_decide_eq_true (Bool.and_eq_true_iff.mp first).1
  have below : c < PHYS_TOP := of_decide_eq_true (Bool.and_eq_true_iff.mp last).2
  exact Bool.and_eq_true_iff.mpr ⟨decide_eq_true (above.trans low), decide_eq_true (high.trans_lt below)⟩

private theorem bufferBound : OUT_SIZE < STRING_BOUND := by
  simp only [OUT_SIZE, STRING_BOUND, PKE_MAX_ALLOWABLE_RAM]
  omega

/-- A plain string is printed exactly. -/
private theorem prints_of_plain (env : PageEnv σ) (args out : ℕ → ℕ) (mapped : ∀ i < n, Readable k (va + i))
    (plain : PlainString k va n) : PrintsExactly env args out k va n := by
  obtain ⟨low, high, r, inside, short, ends, others, piece, bottom, top⟩ := plain
  have bytes : ∀ i ≤ r, userByte k k.current (va + i) = some (physByte k.mem (physAddr k va + i)) := by
    intro i below
    rw [(mapped i (by omega)).userByte, piece i below]
  have last : physByte k.mem (physAddr k va + r) = 0 := Option.some.inj ((bytes r (le_refl r)).symm.trans ends)
  have string : ∀ i < r, physByte k.mem (physAddr k va + i) ≠ 0 ∧
    physByte k.mem (physAddr k va + i) ≠ '%'.toNat := by
    intro i below
    have byte := others i below
    rw [bytes i below.le] at byte
    exact ⟨fun zero => byte.1 (by rw [zero]), fun sign => byte.2 (by rw [sign])⟩
  have first := mapped 0 (by omega)
  obtain ⟨p, loop, taken, reads⟩ := @print_plain (physByte k.mem) args OUT_SIZE r STRING_BOUND (physAddr k va)
    ⟨out, 0, false, false, 0, []⟩ (short.trans bufferBound) string last rfl
  obtain ⟨printed, result, none, same⟩ :
    ∃ printed, sprint (physByte k.mem) args STRING_BOUND out (physAddr k va) = some printed ∧
      printed.taken = 0 ∧ printed.reads = p.reads := by
    rw [sprint, vsnprintf, loop]
    refine ⟨_, rfl, ?_, ?_⟩
    · simp only
      split_ifs <;> exact taken
    · simp only
      split_ifs <;> rfl
  have near : ∀ a ∈ printed.reads, ∃ i ≤ r, a = physAddr k va + i := by
    intro a member
    rw [same] at member
    rcases reads a member with old | found
    · cases old
    · exact found
  have ram : printed.reads.all inRam = true := by
    refine List.all_eq_true.mpr fun a member => ?_
    obtain ⟨i, below, rfl⟩ := near a member
    rw [piece r (le_refl r)] at top
    exact inRam_between bottom top (Nat.le_add_right ..) (Nat.add_le_add_left below _)
  have address := userPa_eq first.2.2
  have nonzero : userPa k va ≠ 0 := by
    rw [show va = va + 0 from rfl, address]
    intro null
    rw [Nat.add_zero] at null
    rw [null] at bottom
    exact absurd bottom (by decide)
  have call : sysUserPrintText env args out va k = .ok printed k := by
    rw [sysUserPrintText_eq, if_pos ⟨low, high⟩, if_pos ⟨first.1.1, nonzero⟩, show userPa k va = physAddr k va
      from address, result]
    exact if_pos ram
  obtain ⟨shown, pos, last', order, most, _, printable, stops, _, whole, _⟩ := sprint_shown result none
  obtain rfl : shown = r := by
    rcases Nat.lt_trichotomy shown r with early | exact | late
    · exact absurd (stops.imp_left And.left) (not_or.mpr (string shown early))
    · exact exact
    · exact absurd last (printable r late).1
  obtain rfl : last' = shown := (stops.resolve_right fun sign => absurd (last.symm.trans sign) (by decide)).2
  obtain ⟨len, _, nonzero', ends', user⟩ := userText_eq mapped
  obtain rfl : len = last' := by
    rcases Nat.lt_trichotomy len last' with early | exact | late
    · have zero := ends'.resolve_left (by omega)
      rw [piece len early.le] at zero
      exact absurd zero (string len early).1
    · exact exact
    · have byte := nonzero' last' late
      rw [piece last' (le_refl last')] at byte
      exact absurd last byte
  refine ⟨printed, call, ?_, none, fun a member => ?_⟩
  · rw [(whole (by omega)).2, user]
    refine List.map_congr_left fun i member => ?_
    rw [piece i (List.mem_range.mp member).le]
  · obtain ⟨i, below, rfl⟩ := near a member
    refine ⟨i, by omega, ?_, (piece i below).symm⟩
    rw [user, List.length_map, List.length_range]
    exact below

/-- `sys_user_print` prints the buffer exactly if it holds a plain string. -/
theorem sysUserPrint_exact (args out : ℕ → ℕ) (mapped : ∀ i < n, Readable k (va + i)) :
    PrintsExactly env args out k va n ↔ PlainString k va n :=
  ⟨plain_of_prints mapped, prints_of_plain env args out mapped⟩

end

instance (k : Kernel σ) (va : ℕ) : Decidable (Readable k va) := inferInstanceAs (Decidable (_ ∧ _ ∧ _))

instance (k : Kernel σ) (va n : ℕ) : Decidable (PlainString k va n) :=
  inferInstanceAs (Decidable (_ ∧ _ ∧ ∃ r < n, _))

/-- A process prints `hi` and a line feed. -/
theorem sysUserPrint_exact_small :
    ∃ k, Run (Step pmmEnv smallLayout) smallKernel (smallStart ++ [.store STACK_PAGE 0 0x0a6968]) k ∧
      PlainString k STACK_PAGE 4 ∧ PrintsExactly pmmEnv (fun _ => 0) (fun _ => 0) k STACK_PAGE 4 := by
  have checked : (execute pmmEnv smallLayout (smallStart ++ [.store STACK_PAGE 0 0x0a6968]) smallKernel).any
      (fun k =>
      decide ((∀ i < (4 : ℕ), Readable k (STACK_PAGE + i)) ∧ PlainString k STACK_PAGE 4)) =
        true := by decide +kernel
  obtain ⟨k, run, check⟩ := run_of_check checked
  obtain ⟨mapped, plain⟩ := of_decide_eq_true check
  exact ⟨k, run, plain, (sysUserPrint_exact _ _ mapped).mpr plain⟩

/-- The text `%d` takes an argument that was not passed. -/
theorem sysUserPrint_formats :
    ∃ k, Run (Step pmmEnv smallLayout) smallKernel (smallStart ++ [.store STACK_PAGE 0 0x6425]) k ∧
      (∀ i < 3, Readable k (STACK_PAGE + i)) ∧ userText k STACK_PAGE 3 = ['%'.toNat, 'd'.toNat] ∧
      ∀ args out, ¬ PrintsExactly pmmEnv args out k STACK_PAGE 3 := by
  have checked : (execute pmmEnv smallLayout (smallStart ++ [.store STACK_PAGE 0 0x6425]) smallKernel).any
      (fun k =>
      decide ((∀ i < (3 : ℕ), Readable k (STACK_PAGE + i)) ∧
        userText k STACK_PAGE 3 = ['%'.toNat, 'd'.toNat] ∧ ¬ PlainString k STACK_PAGE 3)) =
      true := by decide +kernel
  obtain ⟨k, run, check⟩ := run_of_check checked
  obtain ⟨mapped, text, other⟩ := of_decide_eq_true check
  exact ⟨k, run, mapped, text, fun args out prints => other (plain_of_prints mapped prints)⟩

end Pke.Proofs
