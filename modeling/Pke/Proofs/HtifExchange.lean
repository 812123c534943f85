import Pke.Proofs.HtifMessages

/-! # What the hart and the host exchange

`Access` lists what one access of the hart does. `Exchange` is the invariant of all interleavings: a
system call is on its way exactly while `do_tohost_fromhost` waits for it, a request for a character
exactly while `htif_console_buf` is -1 and the request was stored, and nothing else that the hart
has to wait for. `Remote` adds what the arguments and results of system calls are.
-/

namespace Pke.Proofs

open Pke.Lib Pke.Model

/-- One access of the hart. -/
inductive Access (magic : Word) (s : Htif) : Htif → Prop
  | marshal (i : Fin 8) (pc : s.pc = .marshal i) :
    Access magic s ({ s with magicMem := Function.update s.magicMem i (s.call.args i) }.goto
      (if i = 7 then .setTohost else .marshal (i + 1)))
  | free (pc : s.pc = .setTohost) (empty : s.tohost = 0) : Access magic s (s.goto .post)
  | busy (pc : s.pc = .setTohost) : Access magic s (s.goto (.check .setTohost))
  | ask (pc : s.pc = .post) (args : Fin 8 → Word) (call : s.call = .frontendSyscall args) :
    Access magic s ({ s.record (.posted (s.call.command magic))
      with tohost := s.call.command magic }.goto .await)
  | write (pc : s.pc = .post) (ch : BitVec 8) (call : s.call = .consolePutchar ch) :
    Access magic s (({ s.record (.posted (s.call.command magic)) with tohost := s.call.command magic }.record
      (.putchar ch)).goto .idle)
  | request (pc : s.pc = .post) (call : s.call = .consoleGetchar) :
    Access magic s (({ s.record (.posted (s.call.command magic)) with tohost := s.call.command magic }.record
      (.getchar (s.ch - 1))).goto .idle)
  | spin (pc : s.pc = .await) (none : s.fromhost = 0) : Access magic s s
  | reply (pc : s.pc = .await) (some : s.fromhost ≠ 0) (own : header s.fromhost = s.call.device) :
    Access magic s (s.goto .accept)
  | other (pc : s.pc = .await) (some : s.fromhost ≠ 0) (foreign : header s.fromhost ≠ s.call.device) :
    Access magic s (s.goto (.check .doTohostFromhost))
  | accept (pc : s.pc = .accept) : Access magic s ({ s with fromhost := 0 }.goto .result)
  | result (pc : s.pc = .result) :
    Access magic s ((s.record (.syscall s.call.args (s.magicMem 0))).goto .idle)
  | nothing (site : CheckSite) (pc : s.pc = .check site) (none : s.fromhost = 0) :
    Access magic s (s.goto site.resume)
  | found (site : CheckSite) (pc : s.pc = .check site) (some : s.fromhost ≠ 0) :
    Access magic s (s.goto (.clear s.fromhost site))
  | read (fh : Word) (site : CheckSite) (pc : s.pc = .clear fh site) (kind : header fh = READ) :
    Access magic s ({ s with fromhost := 0, consoleBuf := 1 + letter fh }.goto site.resume)
  | written (fh : Word) (site : CheckSite) (pc : s.pc = .clear fh site) (kind : header fh = WRITE) :
    Access magic s ({ s with fromhost := 0 }.goto site.resume)
  | fail (fh : Word) (site : CheckSite) (pc : s.pc = .clear fh site) (noRead : header fh ≠ READ)
    (noWrite : header fh ≠ WRITE) : Access magic s ({ s with fromhost := 0 }.goto .failed)
  | fetch (pc : s.pc = .console) (full : 0 ≤ s.consoleBuf) :
    Access magic s ({ s with ch := s.consoleBuf, consoleBuf := -1 }.goto .setTohost)
  | dry (pc : s.pc = .console) (empty : s.consoleBuf < 0) :
    Access magic s ((s.record (.getchar (s.consoleBuf - 1))).goto .idle)

theorem Access.of_go {magic : Word} {s s' : Htif} (step : s.go magic = some s') : Access magic s s' := by
  unfold Htif.go at step
  cases pc : s.pc with
  | idle =>
    rw [pc] at step
    cases step
  | failed =>
    rw [pc] at step
    cases step
  | marshal i =>
    rw [pc] at step
    cases step
    exact .marshal i pc
  | setTohost =>
    rw [pc] at step
    by_cases empty : s.tohost = 0
    · simp only [if_pos empty] at step
      cases step
      exact .free pc empty
    · simp only [if_neg empty] at step
      cases step
      exact .busy pc
  | post =>
    rw [pc] at step
    dsimp only at step
    split at step
    · rename_i args call
      cases step
      exact .ask pc args call
    · rename_i ch call
      cases step
      exact .write pc ch call
    · rename_i call
      cases step
      exact .request pc call
  | await =>
    rw [pc] at step
    dsimp only at step
    split_ifs at step with none own
    · cases step
      exact .spin pc none
    · cases step
      exact .reply pc none (Prod.ext own.1 own.2)
    · cases step
      refine .other pc none fun same => own ?_
      exact ⟨congrArg Prod.fst same, congrArg Prod.snd same⟩
  | accept =>
    rw [pc] at step
    cases step
    exact .accept pc
  | result =>
    rw [pc] at step
    cases step
    exact .result pc
  | check site =>
    rw [pc] at step
    by_cases none : s.fromhost = 0
    · simp only [if_pos none] at step
      cases step
      exact .nothing site pc none
    · simp only [if_neg none] at step
      cases step
      exact .found site pc none
  | clear fh site =>
    rw [pc] at step
    dsimp only at step
    split_ifs at step with console read write
    · cases step
      exact .read fh site pc (Prod.ext console read)
    · cases step
      exact .written fh site pc (Prod.ext console write)
    · cases step
      refine .fail fh site pc (fun same => read ?_) fun same => write ?_
      · exact congrArg Prod.snd same
      · exact congrArg Prod.snd same
    · cases step
      refine .fail fh site pc (fun same => console ?_) fun same => console ?_
      · exact congrArg Prod.fst same
      · exact congrArg Prod.fst same
  | console =>
    rw [pc] at step
    dsimp only at step
    split_ifs at step with full
    · cases step
      exact .fetch pc full
    · cases step
      exact .dry pc (not_le.mp full)

/-- Between the store to `tohost` and the store that clears the answer. -/
def waiting : HtifPc → Bool
  | .await => true
  | .accept => true
  | .check .doTohostFromhost => true
  | .clear _ .doTohostFromhost => true
  | _ => false

/-- In `__set_tohost`. -/
def posting : HtifPc → Bool
  | .setTohost => true
  | .post => true
  | .check .setTohost => true
  | .clear _ .setTohost => true
  | _ => false

/-- `htif_console_getchar` emptied its buffer and has not stored the request for the next character. -/
def requesting (s : Htif) : Bool := posting s.pc && s.call.device == READ

/-- What a call of `__check_fromhost` was made for. -/
def SiteFits (s : Htif) : CheckSite → Prop
  | .setTohost => True
  | .doTohostFromhost => s.call.device = SYSCALL
  | .consoleGetchar => s.call.device = READ

/-- What the hart knows at a place in its code. -/
def FitsAt (s : Htif) : HtifPc → Prop
  | .idle => True
  | .marshal _ => s.call.device = SYSCALL
  | .setTohost => True
  | .post => s.tohost = 0
  | .await => s.call.device = SYSCALL
  | .accept => s.call.device = SYSCALL ∧ s.fromhost ≠ 0 ∧ header s.fromhost = SYSCALL
  | .result => s.call.device = SYSCALL
  | .check .doTohostFromhost => s.call.device = SYSCALL ∧ s.fromhost ≠ 0 ∧ header s.fromhost ≠ SYSCALL
  | .check site => SiteFits s site
  | .clear fh site => SiteFits s site ∧ s.fromhost = fh ∧ fh ≠ 0 ∧ header fh ≠ SYSCALL
  | .console => s.call.device = READ
  | .failed => False

def posted? : HtifEvent → Option Word
  | .posted command => some command
  | _ => none

def received? : HtifEvent → Option Word
  | .received command => some command
  | _ => none

/-- The invariant of the mailbox. -/
structure Exchange (s : Htif) : Prop where
  fits : FitsAt s s.pc
  kinds : ∀ h ∈ asked s + answered s, h = SYSCALL ∨ h = READ ∨ h = WRITE
  calls : (asked s + answered s).count SYSCALL = if waiting s.pc then 1 else 0
  reads : (asked s + answered s).count READ = if s.consoleBuf = -1 ∧ requesting s = false then 1 else 0
  buffer : -1 ≤ s.consoleBuf
  request : requesting s = true → s.consoleBuf = -1 ∧ 0 ≤ s.ch
  order : s.log.filterMap posted? = mail s.tohost ++ s.log.filterMap received?

theorem posting_resume (site : CheckSite) : posting site.resume = posting (.check site) := by
  cases site with
  | _ => rfl

theorem waiting_resume (site : CheckSite) : waiting site.resume = waiting (.check site) := by
  cases site with
  | _ => rfl

theorem posting_clear (fh : Word) (site : CheckSite) : posting (.clear fh site) = posting (.check site) := by
  cases site with
  | _ => rfl

private theorem waiting_clear (fh : Word) (site : CheckSite) :
    waiting (.clear fh site) = waiting (.check site) := by
  cases site with
  | _ => rfl

theorem requesting_outside {s : Htif} {pc : HtifPc} (here : s.pc = pc) (outside : posting pc = false) :
    requesting s = false := by
  rw [requesting, here, outside]
  rfl

theorem requesting_syscall {s : Htif} (device : s.call.device = SYSCALL) : requesting s = false := by
  rw [requesting, device]
  exact Bool.and_false _

theorem requesting_goto {s : Htif} {old pc : HtifPc} (here : s.pc = old) (post : posting pc = posting old) :
    requesting (s.goto pc) = requesting s := by
  rw [requesting, requesting, here, ← post]
  rfl

private theorem not_posting {pc : HtifPc} (wait : waiting pc = true) : posting pc = false := by
  cases pc with
  | check site =>
    cases site with
    | setTohost => cases wait
    | _ => rfl
  | clear fh site =>
    cases site with
    | setTohost => cases wait
    | _ => rfl
  | setTohost => cases wait
  | post => cases wait
  | _ => rfl

theorem SiteFits.resume {s : Htif} {site : CheckSite} (fits : SiteFits s site) : FitsAt s site.resume := by
  cases site with
  | setTohost => exact trivial
  | doTohostFromhost => exact fits
  | consoleGetchar => exact fits

/-- What the hart knows stays true if the mailbox words change by an access of the other side only. -/
theorem FitsAt.congr {s s' : Htif} {pc : HtifPc} (fits : FitsAt s pc) (call : s'.call = s.call)
    (toHost : s.tohost = 0 → s'.tohost = 0) (fromHost : s.fromhost ≠ 0 → s'.fromhost = s.fromhost) :
    FitsAt s' pc := by
  have device : s'.call.device = s.call.device := congrArg HtifCall.device call
  cases pc with
  | idle => trivial
  | marshal i => exact device.trans fits
  | setTohost => trivial
  | post => exact toHost fits
  | await => exact device.trans fits
  | accept =>
    obtain ⟨own, some, kind⟩ := fits
    exact ⟨device.trans own, fromHost some ▸ some, fromHost some ▸ kind⟩
  | result => exact device.trans fits
  | check site =>
    cases site with
    | setTohost => trivial
    | doTohostFromhost =>
      obtain ⟨own, some, foreign⟩ := fits
      exact ⟨device.trans own, fromHost some ▸ some, fromHost some ▸ foreign⟩
    | consoleGetchar => exact device.trans fits
  | clear fh site =>
    obtain ⟨own, same, some, foreign⟩ := fits
    refine ⟨?_, (fromHost (same ▸ some)).trans same, some, foreign⟩
    cases site with
    | setTohost => trivial
    | _ => exact device.trans own
  | console => exact device.trans fits
  | failed => exact fits

/-- Storing a command in the free word. -/
theorem asked_post {s : Htif} {command : Word} (free : s.tohost = 0) (nonzero : command ≠ 0) :
    asked { s with tohost := command } = header command ::ₘ asked s := by
  rw [asked, asked, mail_of_ne nonzero, free, mail_zero, List.nil_append, List.singleton_append, List.map_cons,
    Multiset.cons_coe]

/-- Clearing the answer. -/
theorem answered_clear {s : Htif} (some : s.fromhost ≠ 0) :
    answered s = header s.fromhost ::ₘ answered { s with fromhost := 0 } := by
  refine Multiset.coe_eq_coe.mpr ?_
  rw [mail_of_ne some, mail_zero, List.append_nil, List.map_append, List.map_singleton]
  exact List.perm_append_comm

namespace Exchange

variable {magic : Word} {s s' : Htif}

theorem at_pc (inv : Exchange s) {pc : HtifPc} (here : s.pc = pc) : FitsAt s pc := here ▸ inv.fits

/-- A step that leaves the number of messages on their way alone. -/
private theorem keep (inv : Exchange s) (sum : asked s' + answered s' = asked s + answered s)
    (wait : waiting s'.pc = waiting s.pc)
    (read : (s'.consoleBuf = -1 ∧ requesting s' = false) ↔ (s.consoleBuf = -1 ∧ requesting s = false))
    (fits : FitsAt s' s'.pc) (buffer : -1 ≤ s'.consoleBuf) (request : requesting s' = true →
      s'.consoleBuf = -1 ∧ 0 ≤ s'.ch)
    (order : s'.log.filterMap posted? = mail s'.tohost ++ s'.log.filterMap received?) : Exchange s' := by
  refine ⟨fits, ?_, ?_, ?_, buffer, request, order⟩
  · rw [sum]
    exact inv.kinds
  · rw [sum, wait]
    exact inv.calls
  · rw [sum, inv.reads]
    exact if_congr read.symm rfl rfl

/-- A step of the host. -/
private theorem host (inv : Exchange s) (sum : asked s' + answered s' = asked s + answered s)
    (pc : s'.pc = s.pc) (call : s'.call = s.call) (buf : s'.consoleBuf = s.consoleBuf) (ch : s'.ch = s.ch)
    (toHost : s.tohost = 0 → s'.tohost = 0) (fromHost : s.fromhost ≠ 0 → s'.fromhost = s.fromhost)
    (order : s'.log.filterMap posted? = mail s'.tohost ++ s'.log.filterMap received?) : Exchange s' := by
  have asks : requesting s' = requesting s := by rw [requesting, requesting, pc, call]
  refine inv.keep sum (congrArg waiting pc) ?_ (pc ▸ inv.fits.congr call toHost fromHost) ?_ ?_ order
  · rw [buf, asks]
  · rw [buf]
    exact inv.buffer
  · rw [buf, asks, ch]
    exact inv.request

/-- A step of the hart that touches neither word of the mailbox nor the buffer. -/
private theorem move (inv : Exchange s) {old pc : HtifPc} (here : s.pc = old) (wait : waiting pc = waiting old)
    (post : posting pc = posting old) (fits : FitsAt s pc) : Exchange (s.goto pc) := by
  have asks : requesting (s.goto pc) = requesting s := requesting_goto here post
  refine inv.keep rfl (here ▸ wait) ?_ (fits.congr rfl id fun _ => rfl) inv.buffer ?_ inv.order
  · rw [asks]
    exact Iff.rfl
  · rw [asks]
    exact inv.request

/-- Nothing but an answer of the console is cleared by `__check_fromhost`. -/
theorem cleared (inv : Exchange s) {fh : Word} {site : CheckSite} (pc : s.pc = .clear fh site) :
    SiteFits s site ∧ s.fromhost = fh ∧ fh ≠ 0 ∧ header fh ≠ SYSCALL ∧
    (header fh = READ ∨ header fh = WRITE) := by
  obtain ⟨device, same, some, foreign⟩ : FitsAt s (.clear fh site) := inv.at_pc pc
  refine ⟨device, same, some, foreign, ?_⟩
  have member : header fh ∈ asked s + answered s := by
    rw [Multiset.mem_add, answered_clear (same ▸ some), same]
    exact Or.inr (Multiset.mem_cons_self _ _)
  exact (inv.kinds _ member).resolve_left foreign

/-- While the answer of a read is in `fromhost`, the buffer is empty and the request was stored. -/
theorem empty_of_read (inv : Exchange s) (some : s.fromhost ≠ 0) (kind : header s.fromhost = READ) :
    s.consoleBuf = -1 ∧ requesting s = false := by
  by_contra full
  have none := inv.reads
  rw [if_neg full, answered_clear some, kind, Multiset.add_cons, Multiset.count_cons_self] at none
  exact Nat.succ_ne_zero _ none

/-- A record of something else than a command. -/
private theorem record (inv : Exchange s) {e : HtifEvent} (posted : posted? e = none)
    (received : received? e = none) :
    Exchange (s.record e) := by
  refine inv.keep rfl rfl Iff.rfl (inv.fits.congr rfl id fun _ => rfl) inv.buffer inv.request ?_
  rw [Htif.record, List.filterMap_cons_none posted, List.filterMap_cons_none received]
  exact inv.order

/-- The return of a call. -/
private theorem finish (inv : Exchange s) {old : HtifPc} (here : s.pc = old) (wait : waiting old = false)
    (post : posting old = false) {e : HtifEvent} (posted : posted? e = none) (received : received? e = none) :
    Exchange ((s.record e).goto .idle) :=
  (inv.record posted received).move here wait.symm post.symm trivial

/-- Storing a command. -/
private theorem post (inv : Exchange s) (carried : Carried magic) (here : s.pc = .post) {pc : HtifPc}
    (wait : waiting pc = (s.call.device == SYSCALL)) (post : posting pc = false)
    (fits : FitsAt { s with tohost := s.call.command magic } pc) :
    Exchange ({ s.record (.posted (s.call.command magic)) with tohost := s.call.command magic }.goto pc) := by
  have free : s.tohost = 0 := inv.at_pc here
  have nonzero := command_nonzero carried s.call
  obtain ⟨stored, named⟩ : ∃ s', s' = { s.record (.posted (s.call.command magic))
    with tohost := s.call.command magic }.goto pc :=
    ⟨_, rfl⟩
  have sum : asked stored + answered stored = s.call.device ::ₘ (asked s + answered s) := by
    rw [← (command_fields carried s.call).1, ← Multiset.cons_add, ← asked_post free nonzero, named]
    rfl
  have silent : requesting stored = false := by
    rw [named]
    exact requesting_outside rfl post
  have asks : requesting s = (s.call.device == READ) := by
    rw [requesting, here]
    rfl
  rw [← named]
  refine ⟨?_, fun h member => ?_, ?_, ?_, ?_, fun some => ?_, ?_⟩
  · rw [named]
    exact fits.congr rfl id fun _ => rfl
  · rw [sum] at member
    rcases Multiset.mem_cons.mp member with rfl | old
    · cases s.call with
      | frontendSyscall args => exact Or.inl rfl
      | consolePutchar ch => exact Or.inr (Or.inr rfl)
      | consoleGetchar => exact Or.inr (Or.inl rfl)
    · exact inv.kinds h old
  · have calls := inv.calls
    rw [here] at calls
    rw [sum, Multiset.count_cons, calls, named]
    change 0 + _ = if waiting pc = true then 1 else 0
    rw [wait, zero_add]
    exact if_congr (eq_comm.trans beq_iff_eq.symm) rfl rfl
  · rw [sum, Multiset.count_cons, inv.reads, silent, asks, named]
    by_cases read : s.call.device = READ
    · have buf := (inv.request (by rw [asks, read]; rfl)).1
      simp [read, Htif.goto, Htif.record, buf]
    · have other : ¬ READ = s.call.device := fun same => read same.symm
      simp [read, other, Htif.goto, Htif.record]
  · rw [named]
    exact inv.buffer
  · rw [silent] at some
    cases some
  · have order := inv.order
    rw [free, mail_zero, List.nil_append] at order
    rw [named]
    change (HtifEvent.posted _ :: s.log).filterMap posted? = mail (s.call.command magic) ++ _
    rw [mail_of_ne nonzero]
    exact congrArg (List.cons (s.call.command magic)) order

/-- The numbers of messages before the answer in `fromhost` is cleared. -/
private theorem count_clear (some : s.fromhost ≠ 0) (h : Word × Word) :
    (asked s + answered s).count h =
      (asked s + answered { s with fromhost := 0 }).count h + if h = header s.fromhost then 1 else 0 := by
  rw [answered_clear some, Multiset.add_cons, Multiset.count_cons]

private theorem kinds_clear (inv : Exchange s) (some : s.fromhost ≠ 0) :
    ∀ h ∈ asked s + answered { s with fromhost := 0 }, h = SYSCALL ∨ h = READ ∨ h = WRITE := by
  intro h member
  refine inv.kinds h ?_
  rw [answered_clear some, Multiset.add_cons]
  exact Multiset.mem_cons_of_mem member

/-- An answer to a system call is in `fromhost` only while the hart waits for it. -/
private theorem waits (inv : Exchange s) (some : s.fromhost ≠ 0) (kind : header s.fromhost = SYSCALL) :
    waiting s.pc = true := by
  by_contra idle
  have none := inv.calls
  rw [if_neg idle, count_clear some, kind, if_pos rfl] at none
  exact Nat.succ_ne_zero _ none

/-- Clearing an answer of the console. -/
private theorem resume (inv : Exchange s) {fh : Word} {site : CheckSite} (pc : s.pc = .clear fh site) {buf : ℤ}
    (reads : (asked s + answered { s with fromhost := 0 }).count READ = if buf = -1 ∧ requesting s = false
      then 1 else 0)
    (lower : -1 ≤ buf) (request : requesting s = true → buf = -1) :
    Exchange ({ s with fromhost := 0, consoleBuf := buf }.goto site.resume) := by
  obtain ⟨fits, rfl, some, foreign, -⟩ := inv.cleared pc
  have wait : waiting site.resume = waiting s.pc := by rw [waiting_resume, pc, waiting_clear]
  have post : posting site.resume = posting (.clear s.fromhost site) := by rw [posting_resume, posting_clear]
  have asks : requesting ({ s with fromhost := 0, consoleBuf := buf }.goto site.resume) = requesting s :=
    requesting_goto (s := { s with fromhost := 0, consoleBuf := buf }) pc post
  refine ⟨SiteFits.resume (show SiteFits _ site from fits), inv.kinds_clear some, ?_, ?_, lower,
    fun on => ?_, inv.order⟩
  · have calls := inv.calls
    rw [count_clear some, if_neg (Ne.symm foreign), ← wait] at calls
    exact calls
  · rw [asks]
    exact reads
  · rw [asks] at on
    exact ⟨request on, (inv.request on).2⟩

/-- An access of the hart keeps the invariant. -/
theorem access (inv : Exchange s) (carried : Carried magic) (access : Access magic s s') : Exchange s' := by
  cases access with
  | marshal i pc =>
    have device : s.call.device = SYSCALL := inv.at_pc pc
    have asks : requesting s = false := requesting_outside pc rfl
    have next : ∀ p, p = .setTohost ∨ (∃ j, p = .marshal j) →
        Exchange ({ s with magicMem := Function.update s.magicMem i (s.call.args i) }.goto p) := by
      intro p cases
      have none : requesting ({ s with magicMem := Function.update s.magicMem i (s.call.args i) }.goto p) =
        false :=
        requesting_syscall device
      refine inv.keep rfl ?_ ?_ ?_ inv.buffer (fun some => ?_) inv.order
      · rw [pc]
        rcases cases with rfl | ⟨j, rfl⟩
        · rfl
        · rfl
      · rw [none, asks]
        exact Iff.rfl
      · rcases cases with rfl | ⟨j, rfl⟩
        · exact trivial
        · exact device
      · rw [none] at some
        cases some
    split_ifs
    · exact next _ (Or.inl rfl)
    · exact next _ (Or.inr ⟨_, rfl⟩)
  | free pc empty => exact inv.move pc rfl rfl empty
  | busy pc => exact inv.move pc rfl rfl trivial
  | spin pc none => exact inv
  | reply pc some own =>
    have device : s.call.device = SYSCALL := inv.at_pc pc
    exact inv.move pc rfl rfl ⟨device, some, own.trans device⟩
  | other pc some foreign =>
    have device : s.call.device = SYSCALL := inv.at_pc pc
    exact inv.move pc rfl rfl ⟨device, some, device ▸ foreign⟩
  | result pc => exact inv.finish pc rfl rfl rfl rfl
  | nothing site pc none =>
    have fits : FitsAt s (.check site) := inv.at_pc pc
    refine inv.move pc (waiting_resume site) (posting_resume site) (SiteFits.resume ?_)
    cases site with
    | doTohostFromhost => exact fits.1
    | _ => exact fits
  | found site pc some =>
    have fits : FitsAt s (.check site) := inv.at_pc pc
    cases site with
    | setTohost =>
      refine inv.move pc rfl rfl ⟨fits, rfl, some, fun kind => ?_⟩
      exact absurd (inv.waits some kind) (by rw [pc]; decide)
    | doTohostFromhost =>
      obtain ⟨device, _, foreign⟩ := fits
      exact inv.move pc rfl rfl ⟨device, rfl, some, foreign⟩
    | consoleGetchar =>
      refine inv.move pc rfl rfl ⟨fits, rfl, some, fun kind => ?_⟩
      exact absurd (inv.waits some kind) (by rw [pc]; decide)
  | ask pc args call => exact inv.post carried pc (by rw [call]; rfl) rfl (congrArg HtifCall.device call)
  | write pc ch call =>
    have stored : Exchange ({ s.record (.posted (s.call.command magic))
      with tohost := s.call.command magic }.goto .idle) :=
      inv.post carried pc (by rw [call]; rfl) rfl trivial
    exact stored.finish rfl rfl rfl rfl rfl
  | request pc call =>
    have stored : Exchange ({ s.record (.posted (s.call.command magic))
      with tohost := s.call.command magic }.goto .idle) :=
      inv.post carried pc (by rw [call]; rfl) rfl trivial
    exact stored.finish rfl rfl rfl rfl rfl
  | accept pc =>
    obtain ⟨device, some, kind⟩ : FitsAt s .accept := inv.at_pc pc
    have silent : requesting s = false := requesting_outside pc rfl
    refine ⟨device, inv.kinds_clear some, ?_, ?_, inv.buffer, fun asks => ?_, inv.order⟩
    · have calls := inv.calls
      rw [count_clear some, kind, if_pos rfl, pc] at calls
      exact Nat.succ.inj calls
    · have reads := inv.reads
      rw [count_clear some, kind, if_neg (by decide), silent] at reads
      exact reads
    · cases asks
  | read fh site pc kind =>
    obtain ⟨fits, rfl, some, -, -⟩ := inv.cleared pc
    obtain ⟨empty, silent⟩ := inv.empty_of_read some kind
    have full : (0 : ℤ) ≤ letter s.fromhost := Int.natCast_nonneg _
    refine inv.resume pc ?_ (by omega) fun asks => ?_
    · have reads := inv.reads
      rw [count_clear some, kind, if_pos rfl, if_pos ⟨empty, silent⟩] at reads
      refine (Nat.succ.inj reads).trans (if_neg fun wrong => ?_).symm
      have := wrong.1
      omega
    · rw [silent] at asks
      cases asks
  | written fh site pc kind =>
    obtain ⟨fits, rfl, some, -, -⟩ := inv.cleared pc
    refine inv.resume pc ?_ inv.buffer fun asks => (inv.request asks).1
    have reads := inv.reads
    rw [count_clear some, kind, if_neg (by decide)] at reads
    exact reads
  | fail fh site pc noRead noWrite =>
    obtain ⟨-, -, -, -, read | write⟩ := inv.cleared pc
    · exact absurd read noRead
    · exact absurd write noWrite
  | fetch pc full =>
    have device : s.call.device = READ := inv.at_pc pc
    have asks : requesting ({ s with ch := s.consoleBuf, consoleBuf := -1 }.goto .setTohost) = true := by
      change (posting .setTohost && s.call.device == READ) = true
      rw [device]
      rfl
    refine inv.keep rfl (by rw [pc]; rfl) ?_ trivial le_rfl (fun _ => ⟨rfl, full⟩) inv.order
    constructor
    · intro both
      rw [asks] at both
      cases both.2
    · intro both
      have := both.1
      omega
  | dry pc empty => exact inv.finish pc rfl rfl rfl rfl

/-- The start of a call. -/
private theorem enter (inv : Exchange s) (idle : s.pc = .idle) (call : HtifCall) : Exchange (s.enter call) := by
  have asks : requesting s = false := requesting_outside idle rfl
  have silent : requesting (s.enter call) = false := by
    cases call with
    | _ => rfl
  refine inv.keep ?_ ?_ ?_ ?_ ?_ (fun on => ?_) ?_
  · cases call with
    | _ => rfl
  · rw [idle]
    cases call with
    | _ => rfl
  · rw [silent, asks]
    cases call with
    | _ => exact Iff.rfl
  · cases call with
    | consolePutchar ch => trivial
    | _ => exact rfl
  · cases call with
    | _ => exact inv.buffer
  · rw [silent] at on
    cases on
  · cases call with
    | _ => exact inv.order

/-- An executed command is answered next. -/
private theorem sum_execute {command : Word} (member : command ∈ s.taken) :
    asked { s with taken := s.taken.erase command } + answered { s with done := s.done ++ [command] } =
      asked s + answered s := by
  rw [answered_execute, asked_execute member, Multiset.add_cons, Multiset.cons_add]

/-- Every step keeps the invariant, if the host answers only what it was asked. -/
theorem step (inv : Exchange s) (carried : Carried magic) {op : HtifOp} (honest : Honest s op)
    (step : s.step magic op = some s') : Exchange s' := by
  cases op with
  | call call =>
    rw [Htif.step] at step
    split_ifs at step with idle
    cases step
    exact inv.enter idle call
  | go => exact inv.access carried (.of_go step)
  | receive =>
    rw [Htif.step] at step
    split_ifs at step with empty
    cases step
    refine inv.host ?_ rfl rfl rfl rfl (fun _ => rfl) (fun _ => rfl) ?_
    · exact congrArg (· + answered s) (asked_receive empty)
    · have order := inv.order
      rw [mail_of_ne empty] at order
      exact order
  | execute command result =>
    rw [Htif.step] at step
    split_ifs at step with member device
    · cases step
      exact inv.host (sum_execute member) rfl rfl rfl rfl id (fun _ => rfl) inv.order
    · cases step
      exact inv.host (sum_execute member) rfl rfl rfl rfl id (fun _ => rfl) inv.order
  | send message =>
    cases step
    refine inv.host ?_ rfl rfl rfl rfl id (fun some => absurd honest.1 some) inv.order
    exact congrArg (asked s + ·) (answered_send honest)

end Exchange

/-- The relation of the steps. -/
def HtifStep (magic : Word) (s : Htif) (op : HtifOp) (s' : Htif) : Prop := s.step magic op = some s'

theorem Exchange.start : Exchange .start :=
  ⟨trivial, fun _ none => absurd none (Multiset.notMem_zero _), rfl,
    rfl, by decide, fun on => absurd on (by decide), rfl⟩

def executed? : HtifEvent → Option ((Fin 8 → Word) × Word)
  | .executed args result => some (args, result)
  | _ => none

def returned? : HtifEvent → Option ((Fin 8 → Word) × Word)
  | .syscall args result => some (args, result)
  | _ => none

/-- No system call was executed whose call has not returned. -/
def Settled (s : Htif) : Prop := s.log.filterMap executed? = s.log.filterMap returned?

/-- The system call of the hart is the only one of them. -/
def Underway (s : Htif) : Prop :=
  s.log.filterMap executed? = (s.call.args, s.reply) :: s.log.filterMap returned?

/-- The invariant of the system calls. -/
structure Remote (s : Htif) : Prop where
  filled : ∀ i, s.pc = .marshal i → ∀ j < i, s.magicMem j = s.call.args j
  ready : posting s.pc = true → s.call.device = SYSCALL → s.magicMem = s.call.args
  waits : waiting s.pc = true → (SYSCALL ∈ asked s ∧ s.magicMem = s.call.args ∧ Settled s) ∨
    (SYSCALL ∈ answered s ∧ Underway s)
  reply : s.pc = .result → Underway s
  settled : waiting s.pc = false → s.pc ≠ .result → Settled s

namespace Remote

variable {magic : Word} {s s' : Htif}

/-- A step that leaves the call, the array and the kind of place in the code alone. -/
private theorem keep (remote : Remote s) (mem : s'.magicMem = s.magicMem) (call : s'.call = s.call)
    (executed : s'.log.filterMap executed? = s.log.filterMap executed?)
    (returned : s'.log.filterMap returned? = s.log.filterMap returned?) (wait : waiting s'.pc = waiting s.pc)
    (post : posting s'.pc = true → posting s.pc = true) (filled : ∀ i, s'.pc = .marshal i → s.pc = .marshal i)
    (result : s'.pc = .result ↔ s.pc = .result)
    (messages : waiting s.pc = true → (SYSCALL ∈ asked s → SYSCALL ∈ asked s') ∧
      (SYSCALL ∈ answered s → SYSCALL ∈ answered s')) :
    Remote s' := by
  have settled : Settled s → Settled s' := fun even => executed.trans (even.trans returned.symm)
  have underway : Underway s → Underway s' := by
    intro odd
    rw [Underway, executed, returned, call, Htif.reply, mem]
    exact odd
  refine ⟨fun i here => ?_, fun here => ?_, fun here => ?_, fun here => ?_, fun here apart => ?_⟩
  · rw [mem, call]
    exact remote.filled i (filled i here)
  · rw [mem, call]
    exact remote.ready (post here)
  · rw [wait] at here
    rw [mem, call]
    obtain ⟨still, also⟩ := messages here
    exact (remote.waits here).imp (fun old => ⟨still old.1, old.2.1, settled old.2.2⟩) fun old =>
      ⟨also old.1, underway old.2⟩
  · exact underway (remote.reply (result.mp here))
  · exact settled (remote.settled (wait ▸ here) fun same => apart (result.mpr same))

/-- An access that only leads on. -/
private theorem move (remote : Remote s) {old pc : HtifPc} (here : s.pc = old) (wait : waiting pc = waiting old)
    (post : posting pc = true → posting old = true) (marshals : ∀ i, pc ≠ .marshal i) (result : pc ≠ .result)
    (before : old ≠ .result) : Remote (s.goto pc) := by
  refine remote.keep rfl rfl rfl rfl (here ▸ wait) (fun on => here ▸ post on)
    (fun i same => absurd same (marshals i)) ?_
    fun _ => ⟨id, id⟩
  rw [here]
  exact ⟨fun same => absurd same result, fun same => absurd same before⟩

private theorem settled_at (remote : Remote s) {pc : HtifPc} (here : s.pc = pc) (wait : waiting pc = false)
    (apart : pc ≠ .result) : Settled s :=
  remote.settled (here ▸ wait) (here ▸ apart)

/-- No call is underway. -/
private theorem rest (idle : s.pc = .idle) (settled : Settled s) : Remote s := by
  refine ⟨fun i here => ?_, fun here => ?_, fun here => ?_, fun here => ?_, fun _ _ => settled⟩
  · rw [idle] at here
    cases here
  · rw [idle] at here
    cases here
  · rw [idle] at here
    cases here
  · rw [idle] at here
    cases here

/-- Clearing an answer of the console. -/
private theorem clear (remote : Remote s) (inv : Exchange s) {fh : Word} {site : CheckSite}
    (pc : s.pc = .clear fh site) (buf : ℤ) :
    Remote ({ s with fromhost := 0, consoleBuf := buf }.goto site.resume) := by
  obtain ⟨-, rfl, some, foreign, -⟩ := inv.cleared pc
  refine remote.keep rfl rfl rfl rfl ?_ (fun on => ?_) (fun i here => ?_) ?_ fun _ => ⟨id, fun member => ?_⟩
  · rw [pc, waiting_clear]
    exact waiting_resume site
  · rw [pc, posting_clear]
    exact (posting_resume site).symm.trans on
  · cases site with
    | _ => cases here
  · rw [pc]
    cases site with
    | _ => exact ⟨nofun, nofun⟩
  · rw [answered_clear some] at member
    exact (Multiset.mem_cons.mp member).resolve_left foreign.symm

/-- A system call cannot be in two places. -/
private theorem single (inv : Exchange s) (inAsked : SYSCALL ∈ asked s)
    (inAnswered : SYSCALL ∈ answered s) : False := by
  have calls := inv.calls
  rw [Multiset.count_add] at calls
  have first := Multiset.count_pos.mpr inAsked
  have second := Multiset.count_pos.mpr inAnswered
  split_ifs at calls
  · omega
  · omega

/-- An access of the hart keeps the invariant. -/
theorem access (remote : Remote s) (inv : Exchange s) (carried : Carried magic) (access : Access magic s s') :
    Remote s' := by
  cases access with
  | marshal i pc =>
    have settled : Settled s := remote.settled_at pc rfl nofun
    have stored : ∀ j ≤ i, Function.update s.magicMem i (s.call.args i) j = s.call.args j := by
      intro j upTo
      rcases upTo.eq_or_lt with rfl | below
      · rw [Function.update_self]
      · rw [Function.update_of_ne below.ne]
        exact remote.filled i pc j below
    by_cases last : i = 7
    · rw [if_pos last]
      exact ⟨nofun, fun _ _ => funext fun j => stored j (by omega), nofun, nofun, fun _ _ => settled⟩
    · rw [if_neg last]
      refine ⟨fun next here j below => ?_, nofun, nofun, nofun, fun _ _ => settled⟩
      cases here
      exact stored j (by omega)
  | free pc empty => exact remote.move pc rfl (fun _ => rfl) nofun nofun nofun
  | busy pc => exact remote.move pc rfl (fun _ => rfl) nofun nofun nofun
  | ask pc args call =>
    have device : s.call.device = SYSCALL := by rw [call]; rfl
    have free : s.tohost = 0 := inv.at_pc pc
    have listed : SYSCALL ∈ asked { s with tohost := s.call.command magic } := by
      rw [asked_post free (command_nonzero carried _), (command_fields carried _).1, device]
      exact Multiset.mem_cons_self _ _
    exact ⟨nofun, nofun, fun _ => Or.inl ⟨listed, remote.ready (by rw [pc]; rfl) device,
      remote.settled_at pc rfl nofun⟩, nofun, nofun⟩
  | write pc ch call => exact rest rfl (remote.settled_at pc rfl nofun)
  | request pc call => exact rest rfl (remote.settled_at pc rfl nofun)
  | spin pc none => exact remote
  | reply pc some own => exact remote.move pc rfl nofun nofun nofun nofun
  | other pc some foreign => exact remote.move pc rfl nofun nofun nofun nofun
  | accept pc =>
    obtain ⟨-, some, kind⟩ : FitsAt s .accept := inv.at_pc pc
    have listed : SYSCALL ∈ answered s := by
      rw [answered_clear some, kind]
      exact Multiset.mem_cons_self _ _
    refine ⟨nofun, nofun, nofun, fun _ => ?_, fun _ apart => absurd rfl apart⟩
    rcases remote.waits (by rw [pc]; rfl) with ⟨unserved, -, -⟩ | ⟨-, underway⟩
    · exact (single inv unserved listed).elim
    · exact underway
  | result pc =>
    refine rest rfl ?_
    exact remote.reply pc
  | nothing site pc none =>
    refine remote.move pc (waiting_resume site) (fun on => (posting_resume site).symm.trans on) ?_ ?_ nofun
    · cases site with
      | _ => nofun
    · cases site with
      | _ => nofun
  | found site pc some =>
    exact remote.move pc (waiting_clear s.fromhost site)
      (fun on => posting_clear s.fromhost site ▸ on) nofun nofun nofun
  | read fh site pc kind => exact remote.clear inv pc _
  | written fh site pc kind => exact remote.clear inv pc _
  | fail fh site pc noRead noWrite =>
    obtain ⟨-, -, -, -, read | write⟩ := inv.cleared pc
    · exact absurd read noRead
    · exact absurd write noWrite
  | fetch pc full =>
    have device : s.call.device = READ := inv.at_pc pc
    refine ⟨nofun, fun _ own => ?_, nofun, nofun, fun _ _ => remote.settled_at pc rfl nofun⟩
    exact absurd (device.symm.trans own) (by decide)
  | dry pc empty => exact rest rfl (remote.settled_at pc rfl nofun)

/-- A command of device 0 is a system call. -/
private theorem device_zero (inv : Exchange s) {command : Word} (member : command ∈ s.taken)
    (device : FROMHOST_DEV command = 0) : header command = SYSCALL := by
  have listed : header command ∈ asked s + answered s := by
    rw [Multiset.mem_add, asked_execute member]
    exact Or.inl (Multiset.mem_cons_self _ _)
  rcases inv.kinds _ listed with call | read | write
  · exact call
  · exact absurd (device.symm.trans (congrArg Prod.fst read)) (by decide)
  · exact absurd (device.symm.trans (congrArg Prod.fst write)) (by decide)

/-- The host executes the system call: it finds the arguments of the call in the array. -/
private theorem serve (remote : Remote s) (inv : Exchange s) {command : Word} (member : command ∈ s.taken)
    (kind : header command = SYSCALL) (result : Word) :
    Remote { ({ s with taken := s.taken.erase command, done := s.done ++ [command] } : Htif).record
      (.executed s.magicMem result) with magicMem := Function.update s.magicMem 0 result } := by
  have unserved : SYSCALL ∈ asked s := by
    rw [asked_execute member, kind]
    exact Multiset.mem_cons_self _ _
  have wait : waiting s.pc = true := by
    by_contra idle
    have none := inv.calls
    rw [if_neg idle, Multiset.count_eq_zero, Multiset.mem_add] at none
    exact none (Or.inl unserved)
  have notPosting := not_posting wait
  have listed : SYSCALL ∈ answered { s with done := s.done ++ [command] } := by
    rw [answered_execute, kind]
    exact Multiset.mem_cons_self _ _
  obtain ⟨-, mem, settled⟩ := (remote.waits wait).resolve_right fun other => single inv unserved other.1
  refine ⟨fun i here => ?_, fun here => ?_, fun _ => Or.inr ⟨listed, ?_⟩, fun here => ?_, fun idle => ?_⟩
  · rw [show s.pc = .marshal i from here] at wait
    cases wait
  · rw [show posting s.pc = true from here] at notPosting
    cases notPosting
  · change (s.magicMem, result) :: s.log.filterMap executed? =
      (s.call.args, Function.update s.magicMem 0 result 0) :: _
    rw [mem, Function.update_self, settled]
    rfl
  · rw [show s.pc = .result from here] at wait
    cases wait
  · exact absurd wait (by rw [show waiting s.pc = false from idle]; decide)

/-- Every step keeps the invariant. -/
theorem step (remote : Remote s) (inv : Exchange s) (carried : Carried magic) {op : HtifOp}
    (honest : Honest s op) (step : s.step magic op = some s') : Remote s' := by
  cases op with
  | call call =>
    rw [Htif.step] at step
    split_ifs at step with idle
    cases step
    have settled : Settled s := remote.settled_at idle rfl nofun
    cases call with
    | frontendSyscall args =>
      refine ⟨fun i here j below => ?_, nofun, nofun, nofun, fun _ _ => settled⟩
      cases here
      exact absurd below (Fin.not_lt_zero j)
    | consolePutchar ch => exact ⟨nofun, fun _ own => absurd (show WRITE = SYSCALL from own) (by decide),
      nofun, nofun, fun _ _ => settled⟩
    | consoleGetchar => exact ⟨nofun, nofun, nofun, nofun, fun _ _ => settled⟩
  | go => exact remote.access inv carried (.of_go step)
  | receive =>
    rw [Htif.step] at step
    split_ifs at step with empty
    cases step
    exact remote.keep rfl rfl rfl rfl rfl id (fun _ => id) Iff.rfl fun _ =>
      ⟨fun old => (asked_receive empty).symm ▸ old, id⟩
  | execute command result =>
    rw [Htif.step] at step
    split_ifs at step with member device
    · cases step
      exact remote.serve inv member (device_zero inv member device) result
    · cases step
      refine remote.keep rfl rfl rfl rfl rfl id (fun _ => id) Iff.rfl fun _ => ⟨fun old => ?_, fun old => ?_⟩
      · rw [asked_execute member] at old
        refine (Multiset.mem_cons.mp old).resolve_left fun same => device ?_
        exact congrArg Prod.fst same.symm
      · change SYSCALL ∈ answered { s with done := s.done ++ [command] }
        rw [answered_execute]
        exact Multiset.mem_cons_of_mem old
  | send message =>
    cases step
    exact remote.keep rfl rfl rfl rfl rfl id (fun _ => id) Iff.rfl fun _ =>
      ⟨id, fun old => (answered_send honest).symm ▸ old⟩

end Remote

theorem Remote.start : Remote .start :=
  .rest rfl rfl

/-- The invariants hold in every interleaving. -/
theorem exchange_run {magic : Word} (carried : Carried magic) {ops : List HtifOp} {s : Htif}
    (run : Run (Guarded Honest (HtifStep magic)) .start ops s) : Exchange s ∧ Remote s := by
  have keep : ∀ (s : Htif) (op : HtifOp) (s' : Htif), Exchange s ∧
      Remote s → Guarded Honest (HtifStep magic) s op s' →
      Exchange s' ∧ Remote s' := by
    rintro s op s' ⟨inv, remote⟩ ⟨honest, step⟩
    exact ⟨inv.step carried honest step, remote.step inv carried honest step⟩
  exact run.invariant keep ⟨.start, .start⟩

/-- In every interleaving with a host that only answers, no assertion of `__check_fromhost` fails,
the host takes the commands in the order of the stores to `tohost` and misses none, and it executes
the system calls in the order of the calls of `frontend_syscall`, each once, with the arguments of
the call; the call returns the result. -/
theorem htif_exactly_once {magic : Word} (carried : Carried magic) {ops : List HtifOp} {s : Htif}
    (run : Run (Guarded Honest (HtifStep magic)) .start ops s) :
    s.pc ≠ .failed ∧ s.log.filterMap posted? = mail s.tohost ++ s.log.filterMap received? ∧
      (s.log.filterMap executed? = s.log.filterMap returned? ∨
        s.pc ≠ .idle ∧
          s.log.filterMap executed? = (s.call.args, s.magicMem 0) :: s.log.filterMap returned?) := by
  obtain ⟨inv, remote⟩ := exchange_run carried run
  refine ⟨fun failed => inv.at_pc failed, inv.order, ?_⟩
  by_cases wait : waiting s.pc = true
  · refine (remote.waits wait).imp (fun old => old.2.2) fun old => ⟨fun idle => ?_, old.2⟩
    rw [idle] at wait
    cases wait
  · by_cases result : s.pc = .result
    · refine Or.inr ⟨fun idle => ?_, remote.reply result⟩
      rw [result] at idle
      cases idle
    · exact Or.inl (remote.settled (Bool.not_eq_true _ ▸ wait) result)

theorem carried_small : Carried 0x80010000 := ⟨by decide, by decide⟩

/-- Arguments that differ from each other. -/
def writtenArgs (i : Fin 8) : Word := BitVec.ofNat 64 (64 + i.val)

/-- A system call from its first access to its return. -/
private theorem written_run : ∃ s, Run (Guarded Honest (HtifStep 0x80010000)) .start
    [.call (.frontendSyscall writtenArgs), .go, .go, .go, .go, .go, .go, .go, .go, .go, .go, .receive,
      .execute (TOHOST_CMD 0 0 0x80010000) 42, .send 1, .go, .go, .go] s ∧
    s.log.filterMap returned? = [(writtenArgs, 42)] :=
  ⟨_, .cons ⟨trivial, rfl⟩ <| .cons ⟨trivial, rfl⟩ <| .cons ⟨trivial, rfl⟩ <| .cons ⟨trivial, rfl⟩ <|
    .cons ⟨trivial, rfl⟩ <| .cons ⟨trivial, rfl⟩ <| .cons ⟨trivial, rfl⟩ <| .cons ⟨trivial, rfl⟩ <|
    .cons ⟨trivial, rfl⟩ <| .cons ⟨trivial, rfl⟩ <| .cons ⟨trivial, rfl⟩ <| .cons ⟨trivial, rfl⟩ <|
    .cons ⟨trivial, rfl⟩ <| .cons ⟨⟨rfl, by decide, _, List.mem_cons_self, rfl⟩, rfl⟩ <| .cons ⟨trivial, rfl⟩ <|
    .cons ⟨trivial, rfl⟩ <| .cons ⟨trivial, rfl⟩ (.nil _), rfl⟩

theorem htif_exactly_once_small : ∃ s : Htif, s.log.filterMap returned? = [(writtenArgs, 42)] ∧
    s.pc ≠ .failed ∧ s.log.filterMap posted? = mail s.tohost ++ s.log.filterMap received? ∧
      (s.log.filterMap executed? = s.log.filterMap returned? ∨
        s.pc ≠ .idle ∧
          s.log.filterMap executed? = (s.call.args, s.magicMem 0) :: s.log.filterMap returned?) := by
  obtain ⟨s, run, returned⟩ := written_run
  exact ⟨s, returned, htif_exactly_once carried_small run⟩

end Pke.Proofs
