import Mathlib.Data.Multiset.Count
import Mathlib.Tactic.SplitIfs
import Pke.Lib.Run
import Pke.Model.Htif

/-! # The words of the Host-Target Interface

A command that the hart stores to `tohost` is never zero and names its device and command. The
commands and answers on their way are counted by their headers: what the host does moves them on and
leaves their number alone, as long as it answers only commands that it executed, in a free word and
with a message that is not zero.
-/

namespace Pke.Proofs

open Pke.Lib Pke.Model

def SYSCALL : Word × Word := (0, 0)

def READ : Word × Word := (1, 0)

def WRITE : Word × Word := (1, 1)

private theorem getLsbD_small {w : Word} {n i : ℕ} (small : w.toNat < 2 ^ n) (high : n ≤ i) :
    w.getLsbD i = false :=
  Nat.testBit_lt_two_pow (small.trans_le (Nat.pow_le_pow_right (by decide) high))

/-- The fields of a message are what it was made of, if they fit. -/
private theorem message_fields {dev cmd payload : Word} (devSmall : dev.toNat < 2 ^ 8)
    (cmdSmall : cmd.toNat < 2 ^ 8) (payloadSmall : payload.toNat < 2 ^ 48) :
    header (TOHOST_CMD dev cmd payload) = (dev, cmd) ∧
    FROMHOST_DATA (TOHOST_CMD dev cmd payload) = payload := by
  have devHigh : ∀ i, 8 ≤ i → dev.getLsbD i = false := fun i => getLsbD_small devSmall
  have cmdHigh : ∀ i, 8 ≤ i → cmd.getLsbD i = false := fun i => getLsbD_small cmdSmall
  have payloadHigh : ∀ i, 48 ≤ i → payload.getLsbD i = false := fun i => getLsbD_small payloadSmall
  refine ⟨Prod.ext (BitVec.eq_of_getLsbD_eq fun i _ => ?_) (BitVec.eq_of_getLsbD_eq fun i _ => ?_),
    BitVec.eq_of_getLsbD_eq fun i _ => ?_⟩
  · simp only [header, FROMHOST_DEV, TOHOST_CMD, BitVec.getLsbD_ushiftRight, BitVec.getLsbD_or,
      BitVec.getLsbD_shiftLeft]
    rw [payloadHigh (56 + i) (by omega), cmdHigh (56 + i - 48) (by omega)]
    by_cases low : i < 8
    · simp [show 56 + i < 64 by omega]
    · rw [devHigh i (by omega)]
      simp [show ¬ 56 + i < 64 by omega]
  · simp only [header, FROMHOST_CMD, TOHOST_CMD, BitVec.getLsbD_ushiftRight, BitVec.getLsbD_or,
      BitVec.getLsbD_shiftLeft]
    by_cases low : i < 8
    · rw [payloadHigh (56 + i - 8) (by omega), show 56 + i - 8 - 48 = i by omega]
      simp [show 56 + i < 64 by omega, show 56 + i - 8 < 56 by omega, show 56 + i - 8 < 64 by omega,
        show ¬ 56 + i - 8 < 48 by omega, show 8 ≤ 56 + i by omega]
    · rw [cmdHigh i (by omega)]
      simp [show ¬ 56 + i < 64 by omega]
  · simp only [FROMHOST_DATA, TOHOST_CMD, BitVec.getLsbD_ushiftRight, BitVec.getLsbD_or,
      BitVec.getLsbD_shiftLeft]
    by_cases low : i < 48
    · simp [show 16 + i < 64 by omega, show i < 56 by omega, low]
    · rw [payloadHigh i (by omega)]
      simp [show ¬ 16 + i < 64 by omega]

/-- An address that a message can carry, and that is not zero. -/
structure Carried (magic : Word) : Prop where
  nonzero : magic ≠ 0
  small : magic.toNat < 2 ^ 48

theorem command_fields {magic : Word} (carried : Carried magic) (call : HtifCall) :
    header (call.command magic) = call.device ∧ FROMHOST_DATA (call.command magic) = call.data magic := by
  have numbers : call.device.1.toNat < 2 ^ 8 ∧ call.device.2.toNat < 2 ^ 8 := by
    cases call with
    | _ => simp [HtifCall.device]
  refine message_fields numbers.1 numbers.2 ?_
  cases call with
  | frontendSyscall args => exact carried.small
  | consolePutchar ch =>
    simp only [HtifCall.data, BitVec.toNat_setWidth]
    have := ch.isLt
    omega
  | consoleGetchar => simp [HtifCall.data]

theorem command_nonzero {magic : Word} (carried : Carried magic) (call : HtifCall) :
    call.command magic ≠ 0 := by
  intro zero
  obtain ⟨device, data⟩ := command_fields carried call
  rw [zero] at device data
  cases call with
  | frontendSyscall args => exact carried.nonzero data.symm
  | consolePutchar ch => exact absurd (show header 0 = WRITE from device) (by decide)
  | consoleGetchar => exact absurd (show header 0 = READ from device) (by decide)

/-- The character of a message of the console. -/
def letter (message : Word) : ℤ := ((FROMHOST_DATA message).setWidth 8).toNat

/-- What a word of the mailbox holds: zero is no message. -/
def mail (word : Word) : List Word := if word = 0 then [] else [word]

@[simp] theorem mail_zero : mail 0 = [] := rfl

theorem mail_of_ne {word : Word} (nonzero : word ≠ 0) : mail word = [word] := if_neg nonzero

/-- The headers of the commands that the host has not executed. -/
def asked (s : Htif) : Multiset (Word × Word) := ((mail s.tohost ++ s.taken).map header : List (Word × Word))

/-- The headers of the commands that it executed, up to the answer that the hart has not cleared. -/
def answered (s : Htif) : Multiset (Word × Word) :=
  ((s.done ++ mail s.fromhost).map header : List (Word × Word))

/-- The message answers a command that was executed, and the hart cleared the last one. -/
def Answers (s : Htif) (message : Word) : Prop :=
  s.fromhost = 0 ∧ message ≠ 0 ∧ ∃ command ∈ s.done, header command = header message

/-- The host sends nothing but answers. -/
def Honest (s : Htif) : HtifOp → Prop
  | .send message => Answers s message
  | _ => True

instance (s : Htif) (message : Word) : Decidable (Answers s message) := inferInstanceAs (Decidable (_ ∧ _ ∧ _))

instance (s : Htif) : (op : HtifOp) → Decidable (Honest s op)
  | .send message => inferInstanceAs (Decidable (Answers s message))
  | .call _ => inferInstanceAs (Decidable True)
  | .go => inferInstanceAs (Decidable True)
  | .receive => inferInstanceAs (Decidable True)
  | .execute _ _ => inferInstanceAs (Decidable True)

section

variable (s : Htif)

@[simp] theorem asked_goto (pc : HtifPc) : asked (s.goto pc) = asked s := rfl

@[simp] theorem answered_goto (pc : HtifPc) : answered (s.goto pc) = answered s := rfl

@[simp] theorem asked_record (e : HtifEvent) : asked (s.record e) = asked s := rfl

@[simp] theorem answered_record (e : HtifEvent) : answered (s.record e) = answered s := rfl

end

/-- Taking a command off `tohost`. -/
theorem asked_receive {s : Htif} (full : s.tohost ≠ 0) :
    asked { s with tohost := 0, taken := s.taken ++ [s.tohost] } = asked s := by
  refine Multiset.coe_eq_coe.mpr ?_
  rw [mail_zero, mail_of_ne full, List.nil_append]
  exact List.perm_append_comm.map header

/-- Executing a command. -/
theorem asked_execute {s : Htif} {command : Word} (member : command ∈ s.taken) :
    asked s = header command ::ₘ asked { s with taken := s.taken.erase command } := by
  refine Multiset.coe_eq_coe.mpr ?_
  refine (((List.perm_cons_erase member).append_left (mail s.tohost)).map header).trans ?_
  rw [List.map_append, List.map_cons]
  refine List.perm_middle.trans ?_
  rw [← List.map_append]

theorem answered_execute (s : Htif) (command : Word) :
    answered { s with done := s.done ++ [command] } = header command ::ₘ answered s := by
  refine Multiset.coe_eq_coe.mpr ?_
  rw [List.append_assoc, List.map_append, List.singleton_append, List.map_cons]
  refine List.perm_middle.trans ?_
  rw [← List.map_append]

/-- Answering a command. -/
theorem answered_send {s : Htif} {message : Word} (answers : Answers s message) :
    answered { s with fromhost := message, done := s.done.eraseP fun command => header command = header message } =
      answered s := by
  obtain ⟨free, nonzero, command, member, same⟩ := answers
  obtain ⟨found, before, behind, -, equal, split, rest⟩ :=
    List.exists_of_eraseP (p := fun command => decide (header command = header message)) member
    (decide_eq_true same)
  refine Multiset.coe_eq_coe.mpr ?_
  rw [rest, split, free, mail_zero, mail_of_ne nonzero, List.append_nil]
  simp only [List.map_append, List.map_cons, List.map_nil, of_decide_eq_true equal]
  refine List.perm_append_comm.trans ?_
  rw [List.singleton_append]
  exact List.perm_middle.symm

end Pke.Proofs
