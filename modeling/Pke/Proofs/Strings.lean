import Pke.Model.Strings
import Pke.Proofs.UserPrint

/-! # Copying, filling and comparing

`memmove` copies a region whatever the overlap, and `memcpy` exactly if the destination does not
begin inside the source behind its first byte; the paths by doublewords do what the paths by bytes
do. On the pages of physical memory they are the operations that the rest of the kernel is modelled
with. `strcmp` is the lexicographic order, `safestrcpy` always leaves a string, and `atol` reads
back what `vsnprintf` printed.
-/

namespace Pke.Proofs

open Pke.Lib Pke.Model

section Copy

variable {m : Bytes} {dest src len : ℕ}

/-- A copying loop after `k` bytes. -/
private def copiedTo (m : Bytes) (dest src k : ℕ) : Copying := ⟨dest + k, src + k, m.copied dest src k⟩

private theorem copiedTo_byte {k : ℕ} (clear : dest ≤ src ∨ src + (k + 1) ≤ dest) :
    (copiedTo m dest src k).byte = copiedTo m dest src (k + 1) := by
  simp only [copiedTo, Copying.byte, Bytes.store_eq_copied, Bytes.copied_add clear, Nat.add_assoc]

private theorem aligned_pair (a b : ℕ) : (a ||| b) &&& 7 = 0 ↔ a % 8 = 0 ∧ b % 8 = 0 := by
  rw [Nat.and_or_distrib_right, Nat.or_eq_zero_iff, show 7 = 2 ^ 3 - 1 from rfl, Nat.and_two_pow_sub_one_eq_mod,
    Nat.and_two_pow_sub_one_eq_mod]

/-- The loop of `memcpy` over doublewords stops before the last seven bytes. -/
private theorem word_test {d : ℕ} (nonnull : 8 ≤ dest) (top : dest + len < WORD) :
    d < (dest + len + (WORD - 7)) % WORD ↔ d + 8 ≤ dest + len := by
  simp only [WORD] at *
  omega

/-- A copying loop that stands `k` bytes behind its start. -/
private def At (dest src : ℕ) (inv : ℕ → Bytes → Prop) (len : ℕ) (c : Copying) : Prop :=
  ∃ k ≤ len, c.d = dest + k ∧ c.s = src + k ∧ inv k c.mem

/-- The rule of `memcpy`: what both kinds of steps keep holds at the end. A step by a doubleword
happens for aligned pointers only. -/
theorem memcpy_rule (inv : ℕ → Bytes → Prop) {bound : ℕ} (nonnull : 0 < dest) (top : dest + len < WORD)
    (enough : len ≤ bound) (start : inv 0 m)
    (byte : ∀ k m', inv k m' → k < len → inv (k + 1) (m'.store (dest + k) (m' (src + k))))
    (word : ∀ k m', inv k m' → k + 8 ≤ len → dest % 8 = 0 → src % 8 = 0 →
      inv (k + 8) (m'.storeWord (dest + k) (m'.loadWord (src + k)))) :
    ∃ m', memcpy bound m dest src len = some m' ∧ inv len m' := by
  have words : ∃ c, (if (dest ||| src) &&& 7 = 0
      then whileLoop (fun c : Copying => c.d < (dest + len + (WORD - 7)) % WORD) Copying.word bound
        ⟨dest, src, m⟩
      else some ⟨dest, src, m⟩) = some c ∧ At dest src inv len c := by
    have here : At dest src inv len ⟨dest, src, m⟩ := ⟨0, Nat.zero_le _, rfl, rfl, start⟩
    split_ifs with aligned
    · obtain ⟨evenDest, evenSrc⟩ := (aligned_pair dest src).mp aligned
      have round : ∀ c, At dest src inv len c → decide (c.d < (dest + len + (WORD - 7)) % WORD) = true →
          At dest src inv len c.word ∧ dest + len - c.word.d < dest + len - c.d := by
        rintro ⟨d, s, m'⟩ ⟨k, inside, rfl, rfl, holds⟩ go
        have more := (word_test (by omega) top).mp (of_decide_eq_true go)
        have room : k + 8 ≤ len := by
          simp only at more
          omega
        exact ⟨⟨k + 8, room, rfl, rfl, word k m' holds room evenDest
          evenSrc⟩, by simp only [Copying.word]; omega⟩
      have short : dest + len - dest ≤ bound := by omega
      obtain ⟨c, loop, inv, -⟩ := whileLoop_total (At dest src inv len)
        (fun c => dest + len - c.d) round here short
      exact ⟨c, loop, inv⟩
    · exact ⟨_, rfl, here⟩
  obtain ⟨c, call, holds⟩ := words
  have noWrap : (dest + len) % WORD = dest + len := Nat.mod_eq_of_lt top
  have round : ∀ c, At dest src inv len c → decide (c.d < (dest + len) % WORD) = true →
      At dest src inv len c.byte ∧ dest + len - c.byte.d < dest + len - c.d := by
    rintro ⟨d, s, m'⟩ ⟨k, inside, rfl, rfl, holds⟩ go
    have more := of_decide_eq_true go
    rw [noWrap] at more
    simp only at more
    exact ⟨⟨k + 1, by omega, rfl, rfl, byte k m' holds (by omega)⟩, by simp only [Copying.byte]; omega⟩
  have left : dest + len - c.d ≤ bound := by
    obtain ⟨k, -, place, -⟩ := holds
    omega
  obtain ⟨e, loop, ⟨k, inside, place, -, last⟩, stop⟩ :=
    whileLoop_total (At dest src inv len) (fun c => dest + len - c.d) round holds left
  have final : k = len := by
    rw [noWrap, place] at stop
    have := of_decide_eq_false stop
    omega
  refine ⟨e.mem, ?_, final ▸ last⟩
  rw [memcpy]
  split_ifs at call ⊢
  · simp only [call, loop, Option.bind_eq_bind, Option.bind_some, Option.pure_def]
  · obtain rfl := Option.some.inj call
    simp only [loop, Option.bind_eq_bind, Option.bind_some, Option.pure_def]

/-- `memcpy` copies if the destination does not begin behind the first byte of the source. -/
theorem memcpy_copies {bound : ℕ} (nonnull : 0 < dest) (top : dest + len < WORD) (enough : len ≤ bound)
    (clear : dest ≤ src ∨ src + len ≤ dest) : memcpy bound m dest src len = some (m.copied dest src len) := by
  obtain ⟨m', call, rfl⟩ : ∃ m', memcpy bound m dest src len = some m' ∧ m' = m.copied dest src len :=
    memcpy_rule (fun k m' => m' = m.copied dest src k) nonnull top enough
    (Bytes.copied_zero m dest src).symm
    (fun k m' same inside => by
      rw [same, Bytes.store_eq_copied, Bytes.copied_add (by omega)])
    (fun k m' same inside _ _ => by
      rw [same, Bytes.storeWord_eq_copied, Bytes.copied_add (by omega)])
  exact call

/-- Only the byte at `dest` may be set, and it is not after the first step. -/
private def Lost (dest k : ℕ) (m : Bytes) : Prop := (∀ x, x ≠ dest → m x = 0) ∧ (0 < k → m dest = 0)

private theorem Lost.step {k n : ℕ} (lost : Lost dest k m) (some : 0 < n) (before : src + n ≤ dest) :
    Lost dest (k + n) (m.copied (dest + k) (src + k) n) := by
  have zero : ∀ x, m.copied (dest + k) (src + k) n x = 0 ∨
    (x = dest ∧ 0 < k ∧ m.copied (dest + k) (src + k) n x = m dest) := by
    intro x
    by_cases written : dest + k ≤ x ∧ x < dest + k + n
    · rw [Bytes.copied, if_pos written]
      by_cases read : src + k + (x - (dest + k)) = dest
      · rw [read]
        exact Or.inl (lost.2 (by omega))
      · exact Or.inl (lost.1 _ read)
    · rw [Bytes.copied_outside written]
      by_cases here : x = dest
      · exact Or.inr ⟨here, by omega, by rw [here]⟩
      · exact Or.inl (lost.1 x here)
  constructor
  · intro x other
    rcases zero x with zero | ⟨here, -⟩
    · exact zero
    · exact absurd here other
  · intro _
    rcases zero dest with zero | ⟨-, later, same⟩
    · exact zero
    · rw [same]
      exact lost.2 later

/-- `memcpy` copies every memory exactly if the destination does not begin behind the first byte of
the source and before its end. -/
theorem memcpy_copies_iff {bound : ℕ} (nonnull : 0 < dest) (top : dest + len < WORD) (enough : len ≤ bound) :
    (∀ m, memcpy bound m dest src len = some (m.copied dest src len)) ↔ dest ≤ src ∨ src + len ≤ dest := by
  constructor
  · intro copies
    by_contra overlap
    set m : Bytes := Bytes.store (fun _ => 0) dest 1 with shape
    have start : Lost dest 0 m := ⟨fun x other => Function.update_of_ne other _ _, by omega⟩
    obtain ⟨m', call, lost⟩ : ∃ m', memcpy bound m dest src len = some m' ∧ Lost dest len m' :=
      memcpy_rule (Lost dest) nonnull top enough start
      (fun k m' lost inside => by
        rw [Bytes.store_eq_copied]
        exact lost.step (by decide) (by omega))
      (fun k m' lost inside evenDest evenSrc => by
        rw [Bytes.storeWord_eq_copied]
        exact lost.step (by decide) (by omega))
    obtain rfl := Option.some.inj (call.symm.trans (copies m))
    have copied : m.copied dest src len (dest + (dest - src)) = 1 := by
      rw [Bytes.copied_inside (by omega), show src + (dest - src) = dest by omega]
      exact Function.update_self _ _ _
    rw [lost.1 _ (by omega)] at copied
    exact absurd copied (by decide)
  · intro clear m
    exact memcpy_copies nonnull top enough clear

/-- A destination behind the source, and one inside it. -/
theorem memcpy_copies_iff_small :
    (∀ m, memcpy 24 m 32 8 24 = some (Bytes.copied m 32 8 24)) ∧
      ¬ ∀ m, memcpy 24 m 16 8 24 = some (Bytes.copied m 16 8 24) :=
  ⟨(memcpy_copies_iff (by decide) (by decide) (by decide)).mpr (by decide),
    mt (memcpy_copies_iff (by decide) (by decide) (by decide)).mp (by decide)⟩

private theorem moveForward_copies : ∀ {n d s : ℕ} {m : Bytes}, d ≤ s ∨
    s + n ≤ d → moveForward n d s m = m.copied d s n := by
  intro n
  induction n with
  | zero =>
    intro d s m _
    exact (Bytes.copied_zero m d s).symm
  | succ n ih =>
    intro d s m clear
    rw [moveForward, ih (by omega), Bytes.store_eq_copied, Bytes.copied_add (by omega), Nat.add_comm]

private theorem moveBackward_copies : ∀ {n d s : ℕ} {m : Bytes}, s ≤ d →
    moveBackward n (d + n) (s + n) m = m.copied d s n := by
  intro n
  induction n with
  | zero =>
    intro d s m _
    exact (Bytes.copied_zero m d s).symm
  | succ n ih =>
    intro d s m below
    have previous : moveBackward (n + 1) (d + (n + 1)) (s + (n + 1)) m =
      moveBackward n (d + n) (s + n) (m.store (d + n) (m (s + n))) := rfl
    rw [previous, ih below, Bytes.store_eq_copied, Bytes.copied_add_before below]

/-- `memmove` copies, whatever the overlap. -/
theorem memmove_copies {n : ℕ} (m : Bytes) (top : src + n < WORD) :
    memmove m dest src n = m.copied dest src n := by
  have noWrap : (src + n) % WORD = src + n := Nat.mod_eq_of_lt top
  rw [memmove, noWrap]
  split_ifs with overlap
  · exact moveBackward_copies (Nat.le_of_lt overlap.1)
  · exact moveForward_copies (by omega)

theorem memmove_copies_overlap :
    memmove (fun x => UInt8.ofNat x) 16 8 24 = Bytes.copied (fun x => UInt8.ofNat x) 16 8 24 :=
  memmove_copies _ (by decide)

end Copy

section Fill

variable {m : Bytes} {dest len : ℕ}

/-- Every byte of the doubleword that `memset` stores is the low byte of its argument. -/
private theorem fillWord_byte (byte : ℕ) {i : ℕ} (inside : i < 8) :
    fillWord byte / 256 ^ i % 256 = byte % 256 := by
  have low : fillWord byte = fillWord (byte % 256) := by
    rw [fillWord, fillWord, show 0xFF = 2 ^ 8 - 1 from rfl, Nat.and_two_pow_sub_one_eq_mod,
      Nat.and_two_pow_sub_one_eq_mod, Nat.mod_mod]
  have table : ∀ b < 256, ∀ i < 8, fillWord b / 256 ^ i % 256 = b := by decide +kernel
  rw [low, table _ (Nat.mod_lt _ (by decide)) i inside]

private theorem storeWord_fillWord (m : Bytes)
    (d byte : ℕ) : m.storeWord d (fillWord byte) = m.filled d 8 (UInt8.ofNat byte) := by
  funext x
  rw [Bytes.storeWord, Bytes.filled]
  split_ifs with inside
  · rw [fillWord_byte byte (by omega)]
    exact UInt8.ofNat_mod_size
  · rfl

/-- `memset` fills the region, by doublewords or by bytes. -/
private theorem memset_fills {bound byte : ℕ} (m : Bytes) (top : dest + len < WORD) (enough : len ≤ bound) :
    memset bound m dest byte len = some (m.filled dest len (UInt8.ofNat byte)) := by
  have noWrap : (dest + len) % WORD = dest + len := Nat.mod_eq_of_lt top
  -- both loops step by a number of bytes that divides the length
  have loops : ∀ (size : ℕ) (fill : ℕ → Bytes → Bytes), 0 < size → size ∣ len →
      (∀ d m, fill d m = m.filled d size (UInt8.ofNat byte)) →
      (whileLoop (fun c : ℕ × Bytes => c.1 < (dest + len) % WORD) (fun c => (c.1 + size, fill c.1 c.2)) bound
        (dest, m)).map Prod.snd =
        some (m.filled dest len (UInt8.ofNat byte)) := by
    intro size fill positive divides fills
    have round : ∀ c : ℕ × Bytes, (∃ k, size ∣ k ∧ k ≤ len ∧
        c = (dest + k, m.filled dest k (UInt8.ofNat byte))) →
        decide (c.1 < (dest + len) % WORD) = true →
        (∃ k, size ∣ k ∧ k ≤ len ∧ (c.1 + size, fill c.1 c.2) =
          (dest + k, m.filled dest k (UInt8.ofNat byte))) ∧
          dest + len - (c.1 + size) < dest + len - c.1 := by
      rintro _ ⟨k, steps, inside, rfl⟩ go
      have more : dest + k < dest + len := noWrap ▸ of_decide_eq_true go
      have room : k + size ≤ len := by
        have rest : size ≤ len - k := Nat.le_of_dvd (by omega) (Nat.dvd_sub divides steps)
        omega
      refine ⟨⟨k + size, Nat.dvd_add steps (dvd_refl size), room, ?_⟩, by simp only; omega⟩
      rw [fills, Bytes.filled_add, Nat.add_assoc]
    have start : ∃ k, size ∣ k ∧ k ≤ len ∧ (dest, m) = (dest + k, m.filled dest k (UInt8.ofNat byte)) :=
      ⟨0, Nat.dvd_zero _, Nat.zero_le _, by rw [Bytes.filled_zero, Nat.add_zero]⟩
    have short : dest + len - dest ≤ bound := by omega
    obtain ⟨c, loop, ⟨k, -, inside, rfl⟩, stop⟩ := whileLoop_total _
      (fun c : ℕ × Bytes => dest + len - c.1) round start short
    have final : k = len := by
      have last : ¬ dest + k < dest + len := noWrap ▸ of_decide_eq_false stop
      omega
    rw [loop, Option.map_some, final]
  rw [memset]
  split_ifs with aligned
  · have whole : len % 8 = 0 := ((aligned_pair dest len).mp aligned).2
    exact loops 8 (fun d m => m.storeWord d (fillWord byte)) (by decide) (Nat.dvd_of_mod_eq_zero whole)
      (fun d m => storeWord_fillWord m d byte)
  · exact loops 1 (fun d m => m.store d (UInt8.ofNat byte)) (by decide) (Nat.one_dvd _)
      (fun d m => Bytes.store_eq_filled m d _)

end Fill

section Pages

/-- The bytes of physical memory. -/
def memoryBytes (mem : ℕ → ℕ → ℕ) : Bytes := fun pa => UInt8.ofNat (physByte mem pa)

private theorem memoryBytes_update (mem : ℕ → ℕ → ℕ) (f : ℕ) (words : ℕ → ℕ) (x : ℕ) :
    memoryBytes (Function.update mem f words) x =
      if f * PGSIZE ≤ x ∧ x < f * PGSIZE + PGSIZE then UInt8.ofNat (byteOf words (x - f * PGSIZE))
      else memoryBytes mem x := by
  have page : f * PGSIZE ≤ x ∧ x < f * PGSIZE + PGSIZE ↔ x / PGSIZE = f := by
    simp only [PGSIZE]
    omega
  rw [memoryBytes, memoryBytes]
  split_ifs with inside
  · have offset : f * PGSIZE + (x - f * PGSIZE) = x := by omega
    rw [← offset, physByte_page _ _ (by omega), Function.update_self, offset]
  · have other : x / PGSIZE ≠ f := fun same => inside (page.mpr same)
    rw [physByte, physByte, Function.update_of_ne other]

/-- On the bytes of memory, `memset(page, 0, PGSIZE)` and `memcpy(page, other, PGSIZE)` are the
operations on pages that the kernel is modelled with: a page is cleared, and a page gets the content
of another. -/
theorem page_calls {σ : Type} {bound f : ℕ} (k : Kernel σ) (nonnull : 0 < f) (top : f * PGSIZE + PGSIZE < WORD)
    (enough : PGSIZE ≤ bound) :
    memset bound (memoryBytes k.mem) (f * PGSIZE) 0 PGSIZE = some (memoryBytes (k.setPage f fun _ => 0).mem) ∧
      ∀ g, memcpy bound (memoryBytes k.mem) (f * PGSIZE) (g * PGSIZE) PGSIZE =
        some (memoryBytes (k.setPage f (k.mem g)).mem) := by
  constructor
  · rw [memset_fills _ top enough]
    congr 1
    funext x
    rw [Kernel.setPage, memoryBytes_update, Bytes.filled]
    split_ifs
    · rw [byteOf, Nat.zero_div, Nat.zero_mod]
    · rfl
  · intro g
    have apart : f * PGSIZE ≤ g * PGSIZE ∨ g * PGSIZE + PGSIZE ≤ f * PGSIZE := by
      simp only [PGSIZE]
      omega
    rw [memcpy_copies (Nat.mul_pos nonnull (by decide)) top enough apart]
    congr 1
    funext x
    rw [Kernel.setPage, memoryBytes_update, Bytes.copied]
    split_ifs
    · rw [memoryBytes, physByte_page _ _ (by omega)]
    · rfl

theorem page_calls_small :
    memset PGSIZE (memoryBytes smallKernel.mem) (2 * PGSIZE) 0 PGSIZE =
        some (memoryBytes (smallKernel.setPage 2 fun _ => 0).mem) ∧
      ∀ g, memcpy PGSIZE (memoryBytes smallKernel.mem) (2 * PGSIZE) (g * PGSIZE) PGSIZE =
        some (memoryBytes (smallKernel.setPage 2 (smallKernel.mem g)).mem) :=
  page_calls smallKernel (by decide) (by decide) (le_refl PGSIZE)

end Pages

section Text

/-- A memory that holds one string at 16, and the rest of it behind its first byte. -/
private def smallMemory : Bytes := fun x => if x = 16 then 98 else if x = 17 then 97 else 0

private theorem smallMemory_text : Bytes.Text smallMemory 16 [98, 97] ∧ Bytes.Text smallMemory 17 [97] := by
  refine ⟨⟨fun i inside => ?_, by decide +kernel, rfl⟩, ⟨fun i inside => ?_, by decide +kernel, rfl⟩⟩
  · have : i = 0 ∨ i = 1 := by simp at inside; omega
    rcases this with rfl | rfl <;> rfl
  · have : i = 0 := by simpa using inside
    subst this
    rfl

variable {m : Bytes} {a b bound : ℕ} {s t : List UInt8}

theorem strlen_length (text : Bytes.Text m a s) (enough : s.length ≤ bound) :
    strlen bound (fun i => m (a + i)) = some s.length := by
  have round : ∀ p, p ≤ s.length → decide (m (a + p) ≠ 0) = true → p + 1 ≤ s.length ∧
    s.length - (p + 1) < s.length - p := by
    intro p inside go
    have more : p ≠ s.length := fun last => of_decide_eq_true go (last ▸ text.ends)
    omega
  obtain ⟨p, loop, inside, stop⟩ := whileLoop_total (· ≤ s.length) (fun p => s.length - p) round
    (Nat.zero_le _) enough
  have last : p = s.length := by
    rcases Nat.lt_or_ge p s.length with early | late
    · exact absurd (text.byte_ne_zero early) (of_decide_eq_false stop)
    · omega
  rw [strlen, loop, last]

/-- The loop of `strcmp` ends at the first difference, or at the end of both strings. -/
private theorem strcmp_difference (first : Bytes.Text m a s) (enough : s.length ≤ bound) :
    ∃ i ≤ s.length, strcmp bound (fun i => m (a + i)) (fun i => m (b + i)) =
        some (((m (a + i)).toNat : ℤ) - ((m (b + i)).toNat : ℤ)) ∧
      (∀ j < i, m (a + j) ≠ 0 ∧ m (a + j) = m (b + j)) ∧ ¬ (m (a + i) ≠ 0 ∧ m (a + i) = m (b + i)) := by
  have round : ∀ i, (i ≤ s.length ∧ ∀ j < i, m (a + j) ≠ 0 ∧ m (a + j) = m (b + j)) →
      (decide (m (a + i) ≠ 0) && decide (m (a + i) = m (b + i))) = true →
      (i + 1 ≤ s.length ∧ ∀ j < i + 1, m (a + j) ≠ 0 ∧ m (a + j) = m (b + j)) ∧
      s.length - (i + 1) < s.length - i := by
    rintro i ⟨inside, same⟩ go
    obtain ⟨nonzero, equal⟩ : m (a + i) ≠ 0 ∧ m (a + i) = m (b + i) := by simpa using go
    have more : i ≠ s.length := fun last => nonzero (last ▸ first.ends)
    refine ⟨⟨by omega, fun j before => ?_⟩, by omega⟩
    rcases Nat.lt_succ_iff_lt_or_eq.mp before with earlier | rfl
    · exact same j earlier
    · exact ⟨nonzero, equal⟩
  obtain ⟨i, loop, ⟨inside, same⟩, stop⟩ := whileLoop_total
    (fun i => i ≤ s.length ∧ ∀ j < i, m (a + j) ≠ 0 ∧ m (a + j) = m (b + j)) (fun i => s.length - i) round
    ⟨Nat.zero_le _, fun j none => absurd none (Nat.not_lt_zero j)⟩ enough
  refine ⟨i, inside, ?_, same, by simpa using stop⟩
  rw [strcmp, loop, Option.map_some]

/-- `strcmp` decides the lexicographic order of the two strings by the sign of its result. -/
theorem strcmp_sign (first : Bytes.Text m a s) (second : Bytes.Text m b t) (enough : s.length ≤ bound) :
    ∃ r, strcmp bound (fun i => m (a + i)) (fun i => m (b + i)) = some r ∧
      (r < 0 → s < t) ∧ (r = 0 → s = t) ∧ (0 < r → t < s) := by
  obtain ⟨i, inside, call, same, stop⟩ := strcmp_difference (b := b) first enough
  have reached : i ≤ t.length := by
    by_contra beyond
    have := same t.length (by omega)
    exact this.1 (this.2.trans second.ends)
  have common : ∀ j, j < i → ∀ (left : j < s.length) (right : j < t.length), s[j] = t[j] := by
    intro j here left right
    rw [← first.block j left, ← second.block j right]
    exact (same j here).2
  refine ⟨_, call, ?_⟩
  rcases Nat.lt_or_eq_of_le inside with more | rfl
  · rcases Nat.lt_or_eq_of_le reached with more' | rfl
    · -- both strings go on, with different bytes
      have different : m (a + i) ≠ m (b + i) := fun equal => stop ⟨first.byte_ne_zero more, equal⟩
      rw [first.block i more, second.block i more'] at *
      refine ⟨fun below => ?_, fun equal => ?_, fun above => ?_⟩
      · exact List.lt_iff_exists.mpr (Or.inr ⟨i, more, more', fun j here => common j here _ _,
          UInt8.lt_iff_toNat_lt.mpr (by omega)⟩)
      · exact absurd (UInt8.toNat_inj.mp (by omega)) different
      · exact List.lt_iff_exists.mpr (Or.inr ⟨i, more', more, fun j here => (common j here _ _).symm,
          UInt8.lt_iff_toNat_lt.mpr (by omega)⟩)
    · -- the second string is a proper beginning of the first
      have longer : 0 < (m (a + t.length)).toNat := Nat.pos_of_ne_zero fun zero =>
        first.byte_ne_zero more (UInt8.toNat_inj.mp zero)
      rw [second.ends]
      have zero : ((0 : UInt8).toNat : ℤ) = 0 := rfl
      refine ⟨fun below => by omega, fun equal => by omega, fun _ => ?_⟩
      refine List.lt_iff_exists.mpr (Or.inl ⟨List.ext_getElem (by simp; omega) fun j here _ => ?_, more⟩)
      rw [List.getElem_take]
      exact (common j here _ _).symm
  · rw [first.ends]
    have zero : ((0 : UInt8).toNat : ℤ) = 0 := rfl
    refine ⟨fun below => ?_, fun equal => ?_, fun above => by omega⟩
    · have more : s.length ≠ t.length := fun last => by
        rw [last, second.ends] at below
        omega
      refine List.lt_iff_exists.mpr (Or.inl ⟨List.ext_getElem (by simp; omega) fun j here _ => ?_, by omega⟩)
      rw [List.getElem_take]
      exact common j here _ _
    · have ends : s.length = t.length := by
        rcases Nat.lt_or_eq_of_le reached with more | last
        · exact absurd (UInt8.toNat_inj.mp (by omega)) (second.byte_ne_zero more)
        · exact last
      exact List.ext_getElem ends fun j here below => common j here here below

theorem strcmp_sign_small :
    ∃ r, strcmp 2 (fun i => smallMemory (16 + i)) (fun i => smallMemory (17 + i)) = some r ∧
    (r < 0 → [98, 97] < ([97] : List UInt8)) ∧ (r = 0 → [98, 97] = ([97] : List UInt8)) ∧
      (0 < r → ([97] : List UInt8) < [98, 97]) :=
  strcmp_sign smallMemory_text.1 smallMemory_text.2 (by decide)

/-- A copied string is a string. -/
private theorem text_copied {k : ℕ} (block : ∀ i, (inside : i < s.length) → m (b + i) = s[i])
    (nonzero : ∀ c ∈ s, c ≠ 0) (long : s.length ≤ k) (ends : m.copied a b k (a + s.length) = 0) :
    Bytes.Text (m.copied a b k) a s := by
  refine ⟨fun i inside => ?_, nonzero, ends⟩
  rw [Bytes.copied_inside (by omega)]
  exact block i inside

/-- A loop that copies up to `n` bytes of a string stands after `k` of them. -/
private def CopiedUpTo (m : Bytes) (a b n : ℕ) (c : Copying) : Prop := ∃ k ≤ n, c = copiedTo m a b k

private theorem strcpy_copies (text : Bytes.Text m b s) (clear : a ≤ b ∨ b + s.length < a)
    (enough : s.length ≤ bound) :
    strcpy bound m a b = some (m.copied a b (s.length + 1)) ∧ Bytes.Text (m.copied a b (s.length + 1)) a s := by
  have reads : ∀ k ≤ s.length, m.copied a b k (b + k) = m (b + k) :=
    fun k inside => Bytes.copied_outside (by omega)
  have round : ∀ c, CopiedUpTo m a b s.length c → decide (c.mem c.s ≠ 0) = true →
      CopiedUpTo m a b s.length c.byte ∧ b + s.length - c.byte.s < b + s.length - c.s := by
    rintro _ ⟨k, inside, rfl⟩ go
    have more : k ≠ s.length := by
      rintro rfl
      exact of_decide_eq_true go ((reads _ (le_refl _)).trans text.ends)
    rw [copiedTo_byte (by omega)]
    exact ⟨⟨k + 1, by omega, rfl⟩, by simp only [copiedTo]; omega⟩
  have start : CopiedUpTo m a b s.length ⟨a, b, m⟩ :=
    ⟨0, Nat.zero_le _, by rw [copiedTo, Bytes.copied_zero]; rfl⟩
  have short : b + s.length - b ≤ bound := by omega
  obtain ⟨_, loop, ⟨k, inside, rfl⟩, stop⟩ := whileLoop_total (CopiedUpTo m a b s.length)
    (fun c => b + s.length - c.s) round start short
  have last : k = s.length := by
    have zero : m (b + k) = 0 := by simpa [copiedTo, reads k inside] using stop
    by_contra early
    exact text.byte_ne_zero (by omega) zero
  subst last
  constructor
  · rw [strcpy, loop, Option.map_some, copiedTo_byte (by omega)]
    rfl
  · apply text_copied text.block text.nonzero (Nat.le_succ _)
    rw [Bytes.copied_inside (Nat.lt_succ_self _)]
    exact text.ends

/-- `strcpy` copies the string and its terminator, unless the destination begins inside the string:
then it overwrites the terminator and never returns. -/
theorem strcpy_returns_iff (text : Bytes.Text m b s) :
    (∃ bound m', strcpy bound m a b = some m') ↔ a ≤ b ∨ b + s.length < a := by
  constructor
  · rintro ⟨bound, m', returns⟩
    by_contra inside
    -- every byte from the source up to the write pointer stays nonzero
    have round : ∀ c : Copying, (c.s < c.d ∧ ∀ x, c.s ≤ x → x < c.d → c.mem x ≠ 0) →
        decide (c.mem c.s ≠ 0) = true ∧
          (c.byte.s < c.byte.d ∧ ∀ x, c.byte.s ≤ x → x < c.byte.d → c.byte.mem x ≠ 0) := by
      rintro ⟨d, r, m⟩ ⟨behind, nonzero⟩
      simp only [Copying.byte] at *
      refine ⟨decide_eq_true (nonzero r (le_refl r) behind), by omega, fun x after before => ?_⟩
      by_cases here : x = d
      · rw [Bytes.store, here, Function.update_self]
        exact nonzero r (le_refl r) behind
      · rw [Bytes.store, Function.update_of_ne here]
        exact nonzero x (by omega) (by omega)
    have start : (b < a ∧ ∀ x, b ≤ x → x < a → m x ≠ 0) := by
      refine ⟨by omega, fun x after before => ?_⟩
      obtain ⟨i, rfl⟩ := Nat.exists_eq_add_of_le after
      exact text.byte_ne_zero (by omega)
    rw [strcpy, whileLoop_forever (fun c : Copying => c.s < c.d ∧ ∀ x, c.s ≤ x → x < c.d →
      c.mem x ≠ 0) round bound start] at returns
    cases returns
  · intro clear
    exact ⟨s.length, _, (strcpy_copies text clear (le_refl _)).1⟩

/-- A destination behind the string, and one inside it. -/
theorem strcpy_returns_iff_small :
    (∃ bound m', strcpy bound smallMemory 32 16 = some m') ∧
    ¬ ∃ bound m', strcpy bound smallMemory 17 16 = some m' :=
  ⟨(strcpy_returns_iff smallMemory_text.1).mpr (by decide),
    mt (strcpy_returns_iff smallMemory_text.1).mp (by decide)⟩

private theorem safestrcpyLoop_copies (text : Bytes.Text m b s) (clear : a ≤ b ∨ b + s.length < a) :
    ∀ n {k : ℕ}, k ≤ s.length → safestrcpyLoop (n + 1) (copiedTo m a b k) =
    copiedTo m a b (min (k + n) (s.length + 1)) := by
  intro n
  induction n with
  | zero =>
    intro k inside
    rw [safestrcpyLoop, if_neg (by decide), Nat.min_eq_left (by omega), Nat.add_zero]
  | succ n ih =>
    intro k inside
    have reads : m.copied a b k (b + k) = m (b + k) := Bytes.copied_outside (by omega)
    have test : (copiedTo m a b k).mem (copiedTo m a b k).s = m (b + k) := reads
    rw [safestrcpyLoop, if_pos (Nat.succ_pos n), test, copiedTo_byte (by omega)]
    split_ifs with go
    · have more : k ≠ s.length := fun last => go (last ▸ text.ends)
      rw [ih (by omega), Nat.add_assoc, Nat.add_comm 1 n]
    · have last : k = s.length := by
        by_contra early
        exact go (text.byte_ne_zero (by omega))
      rw [last, Nat.min_eq_right (by omega)]

/-- The loop stops inside the buffer and writes nothing behind the byte that it stopped at. -/
private theorem safestrcpyLoop_bounds (n : ℕ) (c : Copying) : ∃ j ≤ n, (safestrcpyLoop (n + 1) c).d = c.d + j ∧
    ∀ x, ¬ (c.d ≤ x ∧ x < c.d + j) → (safestrcpyLoop (n + 1) c).mem x = c.mem x := by
  induction n generalizing c with
  | zero =>
    rw [safestrcpyLoop, if_neg (by decide)]
    exact ⟨0, le_rfl, rfl, fun _ _ => rfl⟩
  | succ n ih =>
    have byte : ∀ x, x ≠ c.d → c.byte.mem x = c.mem x := fun x other => Function.update_of_ne other _ _
    rw [safestrcpyLoop, if_pos (Nat.succ_pos n)]
    split_ifs with more
    · obtain ⟨j, inside, stop, same⟩ := ih c.byte
      have next : c.byte.d = c.d + 1 := rfl
      rw [next] at stop same
      refine ⟨j + 1, Nat.succ_le_succ inside, by omega, fun x outside => ?_⟩
      rw [same x (by omega), byte x (by omega)]
    · exact ⟨1, by omega, rfl, fun x outside => byte x (by omega)⟩

/-- `safestrcpy` writes nothing for an empty buffer. Into any other it writes a terminator, whatever
overlaps, and nothing outside; if no byte of the string is overwritten before it is read, the buffer
holds the beginning of the string that fits. -/
theorem safestrcpy_text (m : Bytes) (a b : ℕ) (n : ℤ) :
    (n ≤ 0 → safestrcpy m a b n = m) ∧
    (0 < n → (∃ i < n.toNat, safestrcpy m a b n (a + i) = 0) ∧
      ∀ x, ¬ (a ≤ x ∧ x < a + n.toNat) → safestrcpy m a b n x = m x) ∧
    ∀ s, Bytes.Text m b s → 0 < n → (a ≤ b ∨ b + s.length < a) →
      Bytes.Text (safestrcpy m a b n) a (s.take (n.toNat - 1)) := by
  refine ⟨fun empty => if_pos empty, fun positive => ?_, fun s text positive clear => ?_⟩
  · obtain ⟨room, size⟩ : ∃ room, n.toNat = room + 1 := ⟨n.toNat - 1, by omega⟩
    obtain ⟨j, inside, stop, same⟩ := safestrcpyLoop_bounds room ⟨a, b, m⟩
    have ends : (safestrcpyLoop (room + 1) ⟨a, b, m⟩).d = a + j := stop
    rw [safestrcpy, if_neg (by omega), size, ends]
    refine ⟨⟨j, by omega, Function.update_self _ _ _⟩, fun x outside => ?_⟩
    rw [Bytes.store, Function.update_of_ne (by omega)]
    exact same x fun both => outside ⟨both.1, lt_of_lt_of_le both.2 (Nat.add_le_add_left (by omega) a)⟩
  obtain ⟨room, size⟩ : ∃ room, n.toNat = room + 1 := ⟨n.toNat - 1, by omega⟩
  have result : safestrcpy m a b n = (m.copied a b (min room (s.length + 1))).store
    (a + min room (s.length + 1)) 0 := by
    have start : (⟨a, b, m⟩ : Copying) = copiedTo m a b 0 := by
      rw [copiedTo, Bytes.copied_zero]
      rfl
    rw [safestrcpy, if_neg (by omega), size, start,
      safestrcpyLoop_copies text clear room (Nat.zero_le _), Nat.zero_add]
    rfl
  rw [result, size, Nat.add_sub_cancel]
  refine ⟨fun i inside => ?_, fun c member => text.nonzero c (List.mem_of_mem_take member), ?_⟩
  · rw [List.length_take] at inside
    rw [Bytes.store, Function.update_of_ne (by omega), Bytes.copied_inside (by omega), List.getElem_take]
    exact text.block i (by omega)
  · rw [List.length_take]
    by_cases last : min room s.length = min room (s.length + 1)
    · rw [last]
      exact Function.update_self _ _ _
    · have whole : min room s.length = s.length := by omega
      rw [Bytes.store, Function.update_of_ne (by omega), Bytes.copied_inside (by omega), whole]
      exact text.ends

/-- The buffer gets one character and the terminator; a buffer inside the string is terminated as well. -/
theorem safestrcpy_text_small : Bytes.Text (safestrcpy smallMemory 32 16 2) 32 [98] ∧
    (∃ i < 2, safestrcpy smallMemory 17 16 2 (17 + i) = 0) ∧
    ∀ x, ¬ (17 ≤ x ∧ x < 17 + 2) → safestrcpy smallMemory 17 16 2 x = smallMemory x :=
  ⟨(safestrcpy_text smallMemory 32 16 2).2.2 _ smallMemory_text.1 (by decide) (Or.inr (by decide)),
    (safestrcpy_text smallMemory 17 16 2).2.1 (by decide)⟩

end Text

section Decimal

variable {str : ℕ → UInt8} {num : ℤ} {start digits : ℕ}

private theorem tdiv_ten_step (num : ℤ) (e : ℕ) :
    num.tdiv (10 ^ (e + 1)) * 10 + (num.tdiv (10 ^ e)).tmod 10 = num.tdiv (10 ^ e) := by
  have natural : ∀ N : ℕ, ((N : ℤ).tdiv (10 ^ (e + 1))) * 10 + ((N : ℤ).tdiv (10 ^ e)).tmod 10 =
    (N : ℤ).tdiv (10 ^ e) := by
    intro N
    have whole : N / 10 ^ (e + 1) * 10 + N / 10 ^ e % 10 = N / 10 ^ e := by
      rw [Nat.pow_succ, ← Nat.div_div_eq_div_mul]
      omega
    have cast := congrArg (Nat.cast : ℕ → ℤ) whole
    push_cast at cast
    have nonneg : (0 : ℤ) ≤ (N : ℤ).tdiv (10 ^ e) := Int.tdiv_nonneg (Int.natCast_nonneg N) (by positivity)
    rw [Int.tmod_eq_emod_of_nonneg nonneg, Int.tdiv_eq_ediv_of_nonneg (Int.natCast_nonneg N),
      Int.tdiv_eq_ediv_of_nonneg (Int.natCast_nonneg N)]
    exact cast
  obtain ⟨N, rfl | rfl⟩ := Int.eq_nat_or_neg num
  · exact natural N
  · rw [Int.neg_tdiv, Int.neg_tdiv, Int.neg_tmod, Int.neg_mul, ← Int.neg_add, natural N]

/-- A `long` is not changed by wrapping. -/
theorem wrapLong_eq {v : ℤ} (low : -2 ^ 63 ≤ v) (high : v < 2 ^ 63) : wrapLong v = v := by
  rw [wrapLong, Int.bmod_eq_iff (by decide)]
  simp only [WORD]
  omega

private theorem wrapLong_neg_min : wrapLong (-(-2 ^ 63)) = -2 ^ 63 := by decide

/-- A printed digit is its distance from the character `0`; a remainder of a negative number lies
before it. -/
theorem decimalByte_toNat (num : ℤ) (digits i : ℕ) :
    ((UInt8.ofNat (decimalByte num digits i)).toNat : ℤ) - ('0'.toNat : ℤ) =
    (num.tdiv (10 ^ (digits - 1 - i))).tmod 10 ∧
      UInt8.ofNat (decimalByte num digits i) ≠ 0 := by
  set t := (num.tdiv (10 ^ (digits - 1 - i))).tmod 10 with digit
  have high : t < 10 := Int.tmod_lt_of_pos _ (by decide)
  have low : -10 < t := by
    have := Int.lt_tmod_of_pos (num.tdiv (10 ^ (digits - 1 - i))) (show (0 : ℤ) < 10 by decide)
    exact this
  have zero : ('0'.toNat : ℤ) = 48 := rfl
  have byte : ((decimalByte num digits i : ℕ) : ℤ) = 48 + t := by
    rw [decimalByte, ← digit, zero]
    omega
  have value : (UInt8.ofNat (decimalByte num digits i)).toNat = decimalByte num digits i := by
    rw [UInt8.toNat_ofNat']
    exact Nat.mod_eq_of_lt (by omega)
  constructor
  · rw [value, byte, zero]
    omega
  · intro none
    rw [none] at value
    have : (0 : UInt8).toNat = 0 := rfl
    omega

/-- The decimal digits of a number, and what ends them. -/
structure Decimal (str : ℕ → UInt8) (start digits : ℕ) (num : ℤ) : Prop where
  digit : ∀ i < digits, str (start + i) = UInt8.ofNat (decimalByte num digits i)
  ends : str (start + digits) = 0
  enough : num.natAbs < 10 ^ digits
  low : -2 ^ 63 ≤ num
  high : num < 2 ^ 63

private theorem tdiv_between {num : ℤ} (low : -2 ^ 63 ≤ num) (high : num < 2 ^ 63) (e : ℕ) :
    -2 ^ 63 ≤ num.tdiv (10 ^ e) ∧ num.tdiv (10 ^ e) < 2 ^ 63 ∧ (0 ≤ num → 0 ≤ num.tdiv (10 ^ e)) ∧
      (num ≤ 0 → num.tdiv (10 ^ e) ≤ 0) := by
  have natural : ∀ N : ℕ, 0 ≤ (N : ℤ).tdiv (10 ^ e) ∧ (N : ℤ).tdiv (10 ^ e) ≤ N := by
    intro N
    rw [Int.tdiv_eq_ediv_of_nonneg (Int.natCast_nonneg N)]
    exact ⟨by positivity, Int.ediv_le_self _ (Int.natCast_nonneg N)⟩
  obtain ⟨N, rfl | rfl⟩ := Int.eq_nat_or_neg num
  · have := natural N
    omega
  · have := natural N
    rw [Int.neg_tdiv]
    omega

/-- The loop of `atol` over printed digits computes the number. -/
theorem atol_digits {bound : ℕ} (text : Decimal str start digits num) (enough : digits ≤ bound) :
    whileLoop (fun c : ℕ × ℤ => str c.1 ≠ 0)
      (fun c => (c.1 + 1, wrapLong (wrapLong (c.2 * 10) + (((str c.1).toNat : ℤ) - ('0'.toNat : ℤ)))))
      bound (start, 0) =
        some (start + digits, num) := by
  have round : ∀ c : ℕ × ℤ, (∃ i ≤ digits, c = (start + i, num.tdiv (10 ^ (digits - i)))) →
      decide (str c.1 ≠ 0) = true →
      (∃ i ≤ digits, (c.1 + 1, wrapLong (wrapLong (c.2 * 10) + (((str c.1).toNat : ℤ) - ('0'.toNat : ℤ)))) =
        (start + i, num.tdiv (10 ^ (digits - i)))) ∧ start + digits - (c.1 + 1) < start + digits - c.1 := by
    rintro _ ⟨i, inside, rfl⟩ go
    have more : i ≠ digits := fun last => of_decide_eq_true go (last ▸ text.ends)
    refine ⟨⟨i + 1, by omega, ?_⟩, by simp only; omega⟩
    obtain ⟨e, rest⟩ : ∃ e, digits - i = e + 1 := ⟨digits - i - 1, by omega⟩
    have here : digits - 1 - i = e := by omega
    have next : digits - (i + 1) = e := by omega
    have digit : ((str (start + i)).toNat : ℤ) - ('0'.toNat : ℤ) = (num.tdiv (10 ^ e)).tmod 10 := by
      rw [text.digit i (by omega), (decimalByte_toNat num digits i).1, here]
    have step := tdiv_ten_step num e
    obtain ⟨low, high, positive, negative⟩ := tdiv_between text.low text.high e
    have bounds := tdiv_between text.low text.high (e + 1)
    have tens : -2 ^ 63 ≤ num.tdiv (10 ^ (e + 1)) * 10 ∧ num.tdiv (10 ^ (e + 1)) * 10 < 2 ^ 63 := by
      rcases Int.le_total 0 num with nonneg | nonpos
      · have := Int.tmod_nonneg 10 (positive nonneg)
        have := bounds.2.2.1 nonneg
        omega
      · have := Int.tmod_nonneg 10 (Int.neg_nonneg_of_nonpos (negative nonpos))
        rw [Int.neg_tmod] at this
        have := bounds.2.2.2 nonpos
        omega
    simp only [rest, next, digit]
    rw [wrapLong_eq tens.1 tens.2, step, wrapLong_eq low high, Nat.add_assoc]
  have first : num.tdiv (10 ^ (digits - 0)) = 0 := by
    have natural : ∀ N : ℕ, N < 10 ^ digits → (N : ℤ).tdiv (10 ^ digits) = 0 := fun N small =>
      Int.tdiv_eq_zero_of_lt (Int.natCast_nonneg N) (by exact_mod_cast small)
    have enough := text.enough
    obtain ⟨N, rfl | rfl⟩ := Int.eq_nat_or_neg num
    · exact natural N (by omega)
    · rw [Nat.sub_zero, Int.neg_tdiv, natural N (by omega), Int.neg_zero]
  obtain ⟨c, loop, ⟨i, inside, rfl⟩, stop⟩ := whileLoop_total _ (fun c : ℕ × ℤ => start + digits - c.1) round
    ⟨0, Nat.zero_le _, by rw [first, Nat.add_zero]⟩ (show start + digits - start ≤ bound by omega)
  have last : i = digits := by
    by_contra early
    have nonzero := (decimalByte_toNat num digits i).2
    rw [← text.digit i (by omega)] at nonzero
    exact nonzero (by simpa using stop)
  rw [loop, last, Nat.sub_self, Int.pow_zero, Int.tdiv_one]

private theorem atol_positive {bound : ℕ} (text : Decimal str 0 digits num) (positive : 0 ≤ num)
    (nonempty : 0 < digits) (enough : digits ≤ bound) : atol bound str = some num := by
  have digit : 0 ≤ (num.tdiv (10 ^ (digits - 1 - 0))).tmod 10 :=
    Int.tmod_nonneg 10 ((tdiv_between text.low text.high _).2.2.1 positive)
  have first : 48 ≤ (str 0).toNat := by
    have value := (decimalByte_toNat num digits 0).1
    rw [← text.digit 0 nonempty, Nat.zero_add] at value
    have zero : ('0'.toNat : ℤ) = 48 := rfl
    omega
  have noSpace : str 0 ≠ ' '.toUInt8 := fun same => absurd first (by rw [same]; decide)
  have noMinus : str 0 ≠ '-'.toUInt8 := fun same => absurd first (by rw [same]; decide)
  have noPlus : str 0 ≠ '+'.toUInt8 := fun same => absurd first (by rw [same]; decide)
  have skip : whileLoop (fun p => str p = ' '.toUInt8) (· + 1) bound 0 = some 0 :=
    whileLoop_stop (by simpa using noSpace) bound
  rw [atol, skip]
  simp only [Option.bind_eq_bind, Option.bind_some, decide_eq_false noMinus, decide_eq_false noPlus,
    Bool.or_false, Bool.false_eq_true, if_false, atol_digits text enough, if_neg noMinus, Option.pure_def]

private theorem atol_negative {bound : ℕ} (sign : str 0 = '-'.toUInt8) (text : Decimal str 1 digits num)
    (enough : digits ≤ bound) :
    atol bound str = some (wrapLong (-num)) := by
  have noSpace : str 0 ≠ ' '.toUInt8 := fun same => absurd (sign.symm.trans same) (by decide)
  have skip : whileLoop (fun p => str p = ' '.toUInt8) (· + 1) bound 0 = some 0 :=
    whileLoop_stop (by simpa using noSpace) bound
  rw [atol, skip]
  simp only [Option.bind_eq_bind, Option.bind_some, decide_eq_true sign, Bool.true_or, if_true, if_pos sign,
    Nat.zero_add, atol_digits text enough, Option.pure_def]

/-- The bytes of `%ld`. -/
structure LongFormat (byte : ℕ → ℕ) (s : ℕ) : Prop where
  percent : byte s = '%'.toNat
  long : byte (s + 1) = 'l'.toNat
  decimal : byte (s + 2) = 'd'.toNat
  ends : byte (s + 3) = 0

/-- What `%ld` prints: the digits behind a sign, in a buffer that is long enough. -/
private theorem vsnprintf_long {byte args out : ℕ → ℕ} {fuel n s : ℕ} (format : LongFormat byte s) :
    ∃ p, vsnprintf byte args (fuel + 4) out n s = some p ∧
      ∀ q, printDecimal args n ⟨out, 0, true, true, 0, [s + 2, s + 1, s]⟩ = q → q.pos < n →
        p.out = Function.update q.out q.pos 0 := by
  have loop : vsnprintfLoop byte args n (fuel + 4) s ⟨out, 0, false, false, 0, []⟩ =
      some { printDecimal args n ⟨out, 0, true, true, 0, [s + 2, s + 1, s]⟩ with
        reads := (s + 3) :: (printDecimal args n ⟨out, 0, true, true, 0, [s + 2, s + 1, s]⟩).reads } := by
    have formatted : ∀ p, (printDecimal args n p).format = false := fun p => rfl
    have percent : '%'.toNat ≠ 0 := by decide
    have long : 'l'.toNat ≠ 0 := by decide
    have decimal : 'd'.toNat ≠ 0 := by decide
    rw [vsnprintfLoop]
    simp only [format.percent, if_neg percent, if_true, Bool.false_eq_true, if_false]
    rw [vsnprintfLoop]
    simp only [format.long, if_neg long, if_true, printConversion, Option.bind_some]
    rw [vsnprintfLoop]
    have other : 'd'.toNat ≠ 'l'.toNat ∧ 'd'.toNat ≠ 'p'.toNat ∧ 'd'.toNat ≠ 'x'.toNat := by decide
    simp only [format.decimal, if_neg decimal, if_true, printConversion, if_neg other.1, if_neg other.2.1,
      if_neg other.2.2, Option.bind_some]
    rw [vsnprintfLoop]
    simp only [format.ends, if_true]
  rw [vsnprintf, loop]
  refine ⟨_, rfl, ?_⟩
  rintro q rfl room
  simp only [if_pos room]

/-- What `vsnprintf` prints for `%ld` is read back by `atol`, for every `long`. The negation of the
least one wraps, so that its digits are printed as the characters before `0`; `atol` reads these
back too, and its negation wraps as well. -/
theorem atol_vsnprintf {byte args out : ℕ → ℕ} {fuel n s bound : ℕ} {v : ℤ} (format : LongFormat byte s)
    (low : -2 ^ 63 ≤ v) (high : v < 2 ^ 63) (argument : args 0 = (v % 2 ^ 64).toNat) (room : 21 ≤ n)
    (enough : 19 ≤ bound) :
    ∃ p, vsnprintf byte args (fuel + 4) out n s = some p ∧
      atol bound (fun i => UInt8.ofNat (p.out i)) = some v := by
  obtain ⟨p, call, result⟩ := @vsnprintf_long byte args out fuel n s format
  refine ⟨p, call, ?_⟩
  have value : longArg args ⟨out, 0, true, true, 0, [s + 2, s + 1, s]⟩ = v := by
    simp only [longArg, signedWord, argument, if_true]
    omega
  set num := if v < 0 ∧ v ≠ -2 ^ 63 then -v else v with magnitude
  set digits := (Nat.toDigits 10 num.natAbs).length with count
  have nonempty : 0 < digits := Nat.length_toDigits_pos
  have range : -2 ^ 63 ≤ num ∧ num < 2 ^ 63 := by
    rw [magnitude]
    split_ifs <;> omega
  have few : digits ≤ 19 := (Nat.length_toDigits_le_iff (by decide) (by decide)).mpr (by omega)
  have fits : num.natAbs < 10 ^ digits := (Nat.length_toDigits_le_iff (by decide) nonempty).mp (le_refl _)
  have shape : ∀ start, start ≤ 1 → (∀ i, p.out (start + i) =
      Function.update (fun j => if start ≤ j ∧ j < start + digits ∧
        j + 1 < n then decimalByte num digits (j - start) else
        if v < 0 ∧ j = 0 then '-'.toNat else out j) (start + digits) 0 (start + i)) →
      Decimal (fun i => UInt8.ofNat (p.out i)) start digits num := by
    intro start near same
    refine ⟨fun i inside => ?_, ?_, fits, range.1, range.2⟩
    · have place : start + i ≠ start + digits := by omega
      simp only [same, Function.update_of_ne place]
      rw [if_pos (by omega), Nat.add_sub_cancel_left]
    · simp only [same, Function.update_self]
      rfl
  have room' : ∀ start, start ≤ 1 → start + digits < n := by omega
  by_cases negative : v < 0
  · have printed := result _ rfl
    simp only [printDecimal, value, if_pos negative, Printer.put, Printer.done, Nat.zero_add,
      if_pos (show 1 < n by omega), ← magnitude, ← count] at printed
    have text : Decimal (fun i => UInt8.ofNat (p.out i)) 1 digits num := by
      apply shape 1 (le_refl 1)
      intro i
      rw [printed (room' 1 (le_refl 1))]
      have later : 1 + i ≠ 0 := by omega
      simp only [Function.update_apply, negative, later, and_false, if_false]
    have sign : UInt8.ofNat (p.out 0) = '-'.toUInt8 := by
      have before : ¬ (1 ≤ 0 ∧ 0 < 1 + digits ∧ 0 + 1 < n) := by omega
      rw [printed (room' 1 (le_refl 1)), Function.update_of_ne (by omega), if_neg before, Function.update_self]
      rfl
    rw [atol_negative sign text (by omega), magnitude]
    split_ifs with greater
    · rw [Int.neg_neg, wrapLong_eq low high]
    · have least : v = -2 ^ 63 := by omega
      rw [least, wrapLong_neg_min]
  · have printed := result _ rfl
    simp only [printDecimal, value, if_neg negative, Printer.done, Nat.zero_add, ← magnitude,
      ← count] at printed
    have text : Decimal (fun i => UInt8.ofNat (p.out i)) 0 digits num := by
      apply shape 0 (Nat.zero_le 1)
      intro i
      rw [printed (by omega)]
      simp only [Function.update_apply, Nat.zero_add, negative, false_and, if_false]
    have same : num = v := by
      rw [magnitude, if_neg (by omega)]
    rw [atol_positive text (by omega) nonempty (by omega), same]

/-- The text `%ld` at the address 0. -/
private def longText (i : ℕ) : ℕ := if i = 0 then '%'.toNat else if i = 1 then 'l'.toNat else if i = 2
    then 'd'.toNat else 0

theorem atol_vsnprintf_min : ∃ p, vsnprintf longText (fun _ => 2 ^ 63) 4 (fun _ => 0) 21 0 = some p ∧
    atol 19 (fun i => UInt8.ofNat (p.out i)) = some (-2 ^ 63) :=
  atol_vsnprintf ⟨rfl, rfl, rfl, rfl⟩ (by decide) (by decide) (by decide) (by decide) (by decide)

end Decimal

end Pke.Proofs
