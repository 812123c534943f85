import Pke.Lib.Run
import Pke.Model.Walks
import Pke.Proofs.MapPages

/-! # Concurrent growth of a page table

A table is published by the `atomic_cas_d` and zeroed afterwards, so in between it holds whatever
the page held before. `settled` is the memory in which the tables that await their `memset` are zero
already: it is a well-formed page table in every state of a run in which no hart takes the entry of
such a table, and in which a hart looks at a leaf entry only while no other hart is about to store
to it.
-/

namespace Pke.Proofs

open Pke.Lib Pke.Model

/-- The page that a hart is about to zero. -/
def wiped : WalkPc → Option ℕ
  | .wipe _ _ page => some page
  | _ => none

/-- The page that a hart got from `alloc_page` and has neither published nor given back. -/
def holding : WalkPc → List ℕ
  | .cas _ _ page => [page]
  | .drop _ _ page => [page]
  | _ => []

/-- The table whose entry a hart is about to read or write. -/
def tableOf : WalkPc → Option ℕ
  | .test _ pt => some pt
  | .follow _ pt => some pt
  | .grow _ pt => some pt
  | .cas _ pt _ => some pt
  | .drop _ pt _ => some pt
  | .check pt => some pt
  | .store pt => some pt
  | _ => none

/-- The entry for a table. -/
def entryFor (page : ℕ) : ℕ := PA2PTE (page * PGSIZE) ||| PTE_V

section

variable {n : ℕ}

/-- A table was published and awaits its `memset`. -/
def Awaits (s : Walks n) (t : ℕ) : Prop := ∃ h, wiped (s.walkers h).pc = some t

def publishedSlots (log : List (Fin n × WalkEvent)) : List Slot :=
  log.filterMap fun e => match e.2 with
    | .publish slot _ => some slot
    | _ => none

def allocated (log : List (Fin n × WalkEvent)) (h : Fin n) : List ℕ :=
  log.filterMap fun e => match e.2 with
    | .alloc page => if e.1 = h then some page else none
    | _ => none

def released (log : List (Fin n × WalkEvent)) (h : Fin n) : List ℕ :=
  log.filterMap fun e => match e.2 with
    | .release page => if e.1 = h then some page else none
    | _ => none

def publishedBy (log : List (Fin n × WalkEvent)) (h : Fin n) : List ℕ :=
  log.filterMap fun e => match e.2 with
    | .publish _ page => if e.1 = h then some page else none
    | _ => none

/-- Nothing is lost: a directory entry gets a table once and keeps it, `page_walk` returns one slot
for an address, a hart publishes each page it allocated or gives it back once, no hart stands at a
table that was not zeroed yet, and every stored leaf entry is still there. -/
structure NothingLost (s : Walks n) : Prop where
  once : (publishedSlots s.log).Nodup
  named : ∀ h slot page, (h, .publish slot page) ∈ s.log → s.mem slot.1 slot.2 = entryFor page
  same : ∀ h h' va slot slot', (h, .arrive va slot) ∈ s.log → (h', .arrive va slot') ∈ s.log → slot = slot'
  returned : ∀ h, (allocated s.log h).Perm (released s.log h ++ publishedBy s.log h ++ holding (s.walkers h).pc)
  zeroed : ∀ h t, tableOf (s.walkers h).pc = some t → ¬ Awaits s t
  kept : ∀ h slot pte, (h, .stored slot pte) ∈ s.log → s.mem slot.1 slot.2 = pte

/-- The entry of a new table that is to be zeroed. -/
def wipedSlot (w : Walker) : Option Slot :=
  match w.pc with
  | .wipe level pt _ => some (pt, PX level w.va)
  | _ => none

/-- The entry from which a hart is about to take the next table. -/
def takenSlot (w : Walker) : Option Slot :=
  match w.pc with
  | .follow level pt => some (pt, PX level w.va)
  | _ => none

/-- The leaf entry that a hart is about to test. -/
def testedSlot (w : Walker) : Option Slot :=
  match w.pc with
  | .check pt => some (pt, PX 0 w.va)
  | _ => none

/-- The leaf entry that a hart tested and is about to store to. -/
def storedSlot (w : Walker) : Option Slot :=
  match w.pc with
  | .store pt => some (pt, PX 0 w.va)
  | _ => none

/-- The condition on a schedule: a hart takes the entry of a table only when the table is zeroed,
and tests a leaf entry only when no other hart is between its test and its store there. -/
def Patient (s : Walks n) : Fin n × WalkOp → Prop
  | (h, .go) => ∀ h', (∀ slot ∈ takenSlot (s.walkers h), wipedSlot (s.walkers h') ≠ some slot) ∧
      (h' ≠ h → ∀ slot ∈ testedSlot (s.walkers h), storedSlot (s.walkers h') ≠ some slot)
  | _ => True

instance (s : Walks n) (e : Fin n × WalkOp) : Decidable (Patient s e) :=
  match e with
  | (h, .go) => inferInstanceAs (Decidable
    (∀ h', (∀ slot ∈ takenSlot (s.walkers h), wipedSlot (s.walkers h') ≠ some slot) ∧
      (h' ≠ h → ∀ slot ∈ testedSlot (s.walkers h), storedSlot (s.walkers h') ≠ some slot)))
  | (_, .start ..) => isTrue trivial
  | (_, .alloc ..) => isTrue trivial

open Classical in
/-- The memory with the pending `memset`s done. -/
noncomputable def settled (s : Walks n) : ℕ → ℕ → ℕ := fun t => if Awaits s t then fun _ => 0 else s.mem t

/-- The path of the table that a walk for `va` reads at a level. -/
def pathTo (va : ℕ) : ℕ → List ℕ
  | 2 => []
  | 1 => [PX 2 va]
  | _ => [PX 2 va, PX 1 va]

/-- A page is the table on a path, and zeroed. -/
structure Stands (dir : ℕ) (own : Owner) (s : Walks n) (path : List ℕ) (t : ℕ) : Prop where
  owner : own t = some (dir, path)
  ready : ¬ Awaits s t

/-- What holds of a hart at each program counter. -/
def WalkerOk (dir : ℕ) (own : Owner) (s : Walks n) (w : Walker) : Prop :=
  match w.pc with
  | .idle => True
  | .halted => True
  | .test level pt => (level = 1 ∨ level = 2) ∧ Stands dir own s (pathTo w.va level) pt
  | .grow level pt => (level = 1 ∨ level = 2) ∧ Stands dir own s (pathTo w.va level) pt
  | .follow level pt => (level = 1 ∨ level = 2) ∧ Stands dir own s (pathTo w.va level) pt ∧
      has (s.mem pt (PX level w.va)) PTE_V = true
  | .cas level pt page => (level = 1 ∨ level = 2) ∧ Stands dir own s (pathTo w.va level) pt ∧
      own page = none ∧ page ∈ s.out ∧ page < 2 ^ 44
  | .drop level pt page => (level = 1 ∨ level = 2) ∧ Stands dir own s (pathTo w.va level) pt ∧
      has (s.mem pt (PX level w.va)) PTE_V = true ∧ own page = none ∧ page ∈ s.out
  | .wipe level pt page => (level = 1 ∨ level = 2) ∧ Stands dir own s (pathTo w.va level) pt ∧
      own page = some (dir, pathTo w.va (level - 1))
  | .check pt => Stands dir own s (pathTo w.va 0) pt
  | .store pt => Stands dir own s (pathTo w.va 0) pt ∧ s.mem pt (PX 0 w.va) = 0

/-- The invariant, for the owner function of the settled memory. -/
structure Growth (dir : ℕ) (own : Owner) (s : Walks n) : Prop where
  rooted : Rooted (settled s) dir own
  used : ∀ t, own t ≠ none → t ∈ s.out
  nodup : s.out.Nodup
  walkers : ∀ h, WalkerOk dir own s (s.walkers h)
  valid : ∀ h, (s.walkers h).pc ≠ .idle → has (s.walkers h).pte PTE_V = true
  apart : ∀ h h', h ≠ h' → ∀ f, f ∈ holding (s.walkers h).pc → f ∉ holding (s.walkers h').pc
  alone : ∀ h h', h ≠ h' → ∀ f, wiped (s.walkers h).pc = some f → wiped (s.walkers h').pc ≠ some f
  stores : ∀ h h', h ≠ h' → ∀ pt, (s.walkers h).pc = .store pt → (s.walkers h').pc = .store pt →
    PX 0 (s.walkers h).va ≠ PX 0 (s.walkers h').va
  published : ∀ h slot page, (h, .publish slot page) ∈ s.log →
    (∃ path, Stands dir own s path slot.1) ∧ s.mem slot.1 slot.2 = entryFor page
  once : (publishedSlots s.log).Nodup
  arrived : ∀ h va slot, (h, .arrive va slot) ∈ s.log → own slot.1 = some (dir, pathTo va 0) ∧ slot.2 = PX 0 va
  kept : ∀ h slot pte, (h, .stored slot pte) ∈ s.log →
    (∃ path, Stands dir own s path slot.1) ∧ s.mem slot.1 slot.2 = pte ∧ pte ≠ 0
  ledger : ∀ h, (allocated s.log h).Perm (released s.log h ++ publishedBy s.log h ++ holding (s.walkers h).pc)

private theorem entryFor_valid (page : ℕ) : has (entryFor page) PTE_V = true := has_valid_or _

/-- The table on a path is unique. -/
theorem Rooted.owner_inj {mem : ℕ → ℕ → ℕ} {r t t' : ℕ} {own : Owner} {p : List ℕ} (rooted : Rooted mem r own)
    (first : own t = some (r, p)) (second : own t' = some (r, p)) : t = t' :=
  Option.some.inj ((rooted.reached t r p first).2.symm.trans (rooted.reached t' r p second).2)

private theorem Growth.nothingLost {dir : ℕ} {own : Owner} {s : Walks n} (growth : Growth dir own s) :
    NothingLost s := by
  refine ⟨growth.once, fun h slot page member => (growth.published h slot page member).2, ?_,
    growth.ledger, ?_, ?_⟩
  · intro h h' va slot slot' member member'
    obtain ⟨owner, index⟩ := growth.arrived h va slot member
    obtain ⟨owner', index'⟩ := growth.arrived h' va slot' member'
    exact Prod.ext (growth.rooted.owner_inj owner owner') (index.trans index'.symm)
  · intro h t stands
    have ok := growth.walkers h
    unfold WalkerOk at ok
    cases pc : (s.walkers h).pc with
    | idle => rw [pc] at stands; cases stands
    | halted => rw [pc] at stands; cases stands
    | wipe level pt page => rw [pc] at stands; cases stands
    | test level pt => rw [pc] at stands ok; cases stands; exact ok.2.ready
    | grow level pt => rw [pc] at stands ok; cases stands; exact ok.2.ready
    | follow level pt => rw [pc] at stands ok; cases stands; exact ok.2.1.ready
    | cas level pt page => rw [pc] at stands ok; cases stands; exact ok.2.1.ready
    | drop level pt page => rw [pc] at stands ok; cases stands; exact ok.2.1.ready
    | check pt => rw [pc] at stands ok; cases stands; exact ok.ready
    | store pt => rw [pc] at stands ok; cases stands; exact ok.1.ready
  · intro h slot pte member
    exact (growth.kept h slot pte member).2.1

/-- What a step of hart `h` leaves to the others: tables stay zeroed tables, their entries stay, and
so do the pages the others hold and the empty leaf entries they are about to store to. -/
structure Discreet (dir : ℕ) (own : Owner) (s : Walks n) (own' : Owner) (s' : Walks n) (h : Fin n) : Prop where
  walkers : ∀ h', h' ≠ h → s'.walkers h' = s.walkers h'
  tables : ∀ t q, own t = some q → own' t = some q
  ready : ∀ t q, own t = some q → ¬ Awaits s t → ¬ Awaits s' t
  entries : ∀ t q, own t = some q → ¬ Awaits s t → ∀ i, s.mem t i ≠ 0 → s'.mem t i = s.mem t i
  held : ∀ h', h' ≠ h → ∀ f ∈ holding (s.walkers h').pc, own f = none → f ∈ s.out → own' f = none ∧ f ∈ s'.out
  leaf : ∀ h', h' ≠ h → ∀ pt, (s.walkers h').pc = .store pt → Stands dir own s (pathTo (s.walkers h').va 0) pt →
    s.mem pt (PX 0 (s.walkers h').va) = 0 → s'.mem pt (PX 0 (s.walkers h').va) = 0

namespace Discreet

variable {dir : ℕ} {own own' : Owner} {s s' : Walks n} {h h' : Fin n}

theorem stands (discreet : Discreet dir own s own' s' h) {path : List ℕ} {t : ℕ}
    (stands : Stands dir own s path t) :
    Stands dir own' s' path t := ⟨discreet.tables t _ stands.owner,
      discreet.ready t _ stands.owner stands.ready⟩

theorem entry (discreet : Discreet dir own s own' s' h) {path : List ℕ} {t i : ℕ}
    (stands : Stands dir own s path t) (valid : has (s.mem t i) PTE_V = true) :
    has (s'.mem t i) PTE_V = true := by
  rw [discreet.entries t _ stands.owner stands.ready i (Tables.valid_ne_zero valid)]
  exact valid

private theorem walkerOk (discreet : Discreet dir own s own' s' h) (other : h' ≠ h)
    (ok : WalkerOk dir own s (s.walkers h')) :
    WalkerOk dir own' s' (s'.walkers h') := by
  have held := discreet.held h' other
  have leaf := discreet.leaf h' other
  rw [discreet.walkers h' other]
  unfold WalkerOk at ok ⊢
  cases pc : (s.walkers h').pc with
  | idle => trivial
  | halted => trivial
  | test level pt =>
    rw [pc] at ok
    exact ⟨ok.1, discreet.stands ok.2⟩
  | grow level pt =>
    rw [pc] at ok
    exact ⟨ok.1, discreet.stands ok.2⟩
  | follow level pt =>
    rw [pc] at ok
    exact ⟨ok.1, discreet.stands ok.2.1, discreet.entry ok.2.1 ok.2.2⟩
  | cas level pt page =>
    rw [pc] at ok held
    obtain ⟨depth, stands, fresh, out, small⟩ := ok
    obtain ⟨fresh', out'⟩ := held page List.mem_cons_self fresh out
    exact ⟨depth, discreet.stands stands, fresh', out', small⟩
  | drop level pt page =>
    rw [pc] at ok held
    obtain ⟨depth, stands, valid, fresh, out⟩ := ok
    obtain ⟨fresh', out'⟩ := held page List.mem_cons_self fresh out
    exact ⟨depth, discreet.stands stands, discreet.entry stands valid, fresh', out'⟩
  | wipe level pt page =>
    rw [pc] at ok
    exact ⟨ok.1, discreet.stands ok.2.1, discreet.tables page _ ok.2.2⟩
  | check pt =>
    rw [pc] at ok
    exact discreet.stands ok
  | store pt =>
    rw [pc] at ok leaf
    exact ⟨discreet.stands ok.1, leaf pt rfl ok.1 ok.2⟩

end Discreet

/-- The events of one hart. -/
def tagged (h : Fin n) (news : List WalkEvent) : List (Fin n × WalkEvent) := news.map fun e => (h, e)

private theorem allocated_other {h h' : Fin n} (other : h' ≠ h) (news : List WalkEvent)
    (log : List (Fin n × WalkEvent)) :
    allocated (tagged h news ++ log) h' = allocated log h' ∧
    released (tagged h news ++ log) h' = released log h' ∧
      publishedBy (tagged h news ++ log) h' = publishedBy log h' := by
  induction news with
  | nil => exact ⟨rfl, rfl, rfl⟩
  | cons e news ih =>
    obtain ⟨first, second, third⟩ := ih
    have different : ¬ h = h' := Ne.symm other
    cases e with
    | alloc page => exact ⟨by simpa [tagged, allocated, different] using first, second, third⟩
    | release page => exact ⟨first, by simpa [tagged, released, different] using second, third⟩
    | publish slot page => exact ⟨first, second, by simpa [tagged, publishedBy, different] using third⟩
    | arrive va slot => exact ⟨first, second, third⟩
    | stored slot pte => exact ⟨first, second, third⟩

/-- The pages a hart holds are in use and no tables. -/
theorem WalkerOk.held {dir : ℕ} {own : Owner} {s : Walks n} {w : Walker} (ok : WalkerOk dir own s w) {f : ℕ}
    (member : f ∈ holding w.pc) : own f = none ∧ f ∈ s.out := by
  unfold WalkerOk at ok
  cases pc : w.pc with
  | cas level pt page =>
    rw [pc] at ok member
    obtain rfl := List.mem_singleton.mp member
    exact ⟨ok.2.2.1, ok.2.2.2.1⟩
  | drop level pt page =>
    rw [pc] at ok member
    obtain rfl := List.mem_singleton.mp member
    exact ⟨ok.2.2.2.1, ok.2.2.2.2⟩
  | _ =>
    rw [pc] at member
    exact absurd member List.not_mem_nil

/-- A page that awaits its `memset` is a table. -/
theorem WalkerOk.wiped {dir : ℕ} {own : Owner} {s : Walks n} {w : Walker} (ok : WalkerOk dir own s w) {f : ℕ}
    (wipes : wiped w.pc = some f) : ∃ path, own f = some (dir, path) := by
  unfold WalkerOk at ok
  cases pc : w.pc with
  | wipe level pt page =>
    rw [pc] at ok wipes
    cases wipes
    exact ⟨_, ok.2.2⟩
  | _ =>
    rw [pc] at wipes
    cases wipes

/-- The step rule: what is left to show of a step of hart `h`. -/
theorem Growth.next {dir : ℕ} {own own' : Owner} {s s' : Walks n} {h : Fin n} (news : List WalkEvent)
    (growth : Growth dir own s) (discreet : Discreet dir own s own' s' h)
    (rooted : Rooted (settled s') dir own') (used : ∀ t, own' t ≠ none → t ∈ s'.out) (nodup : s'.out.Nodup)
    (walker : WalkerOk dir own' s' (s'.walkers h)) (valid : (s'.walkers h).pc ≠ .idle →
      has (s'.walkers h).pte PTE_V = true)
    (held : ∀ f ∈ holding (s'.walkers h).pc, f ∈ holding (s.walkers h).pc ∨ f ∉ s.out)
    (wipes : ∀ f, Proofs.wiped (s'.walkers h).pc = some f → f ∈ holding (s.walkers h).pc)
    (storing : ∀ pt, (s'.walkers h).pc = .store pt → ∀ h', h' ≠ h → (s.walkers h').pc = .store pt →
      PX 0 (s.walkers h').va ≠ PX 0 (s'.walkers h).va)
    (log : s'.log = tagged h news ++ s.log)
    (published : ∀ slot page, .publish slot page ∈ news → (∃ path, Stands dir own' s' path slot.1) ∧
      s'.mem slot.1 slot.2 = entryFor page)
    (once : (publishedSlots s'.log).Nodup)
    (arrived : ∀ va slot, .arrive va slot ∈ news → own' slot.1 = some (dir, pathTo va 0) ∧ slot.2 = PX 0 va)
    (kept : ∀ slot pte, .stored slot pte ∈ news → (∃ path, Stands dir own' s' path slot.1) ∧
      s'.mem slot.1 slot.2 = pte ∧ pte ≠ 0)
    (ledger : (allocated s'.log h).Perm
      (released s'.log h ++ publishedBy s'.log h ++ holding (s'.walkers h).pc)) :
    Growth dir own' s' := by
  have cases : ∀ h' e, (h', e) ∈ s'.log → (h' = h ∧ e ∈ news) ∨ (h', e) ∈ s.log := by
    intro h' e member
    rw [log] at member
    rcases List.mem_append.mp member with new | old
    · obtain ⟨e', inside, same⟩ := List.mem_map.mp new
      cases same
      exact Or.inl ⟨rfl, inside⟩
    · exact Or.inr old
  have entryKept : ∀ {path : List ℕ} {slot : Slot}, Stands dir own s path slot.1 → s.mem slot.1 slot.2 ≠ 0 →
      s'.mem slot.1 slot.2 = s.mem slot.1 slot.2 := fun stands nonzero =>
    discreet.entries _ _ stands.owner stands.ready _ nonzero
  have fresh : ∀ h' f, f ∈ holding (s'.walkers h).pc → h' ≠ h → f ∉ holding (s.walkers h').pc := by
    intro h' f mine other theirs
    rcases held f mine with old | free
    · exact growth.apart h h' other.symm f old theirs
    · exact free ((growth.walkers h').held theirs).2
  have single : ∀ h' f, Proofs.wiped (s'.walkers h).pc = some f → h' ≠ h →
    Proofs.wiped (s.walkers h').pc ≠ some f := by
    intro h' f mine _ theirs
    obtain ⟨path, table⟩ := (growth.walkers h').wiped theirs
    rw [((growth.walkers h).held (wipes f mine)).1] at table
    cases table
  refine ⟨rooted, used, nodup, fun h' => ?_, fun h' => ?_, fun h₁ h₂ different f => ?_,
    fun h₁ h₂ different f => ?_, fun h₁ h₂ different pt => ?_, fun h' slot page member => ?_, once,
      fun h' va slot member => ?_, fun h' slot pte member => ?_,
    fun h' => ?_⟩
  · by_cases same : h' = h
    · exact same ▸ walker
    · exact discreet.walkerOk same (growth.walkers h')
  · by_cases same : h' = h
    · exact same ▸ valid
    · rw [discreet.walkers h' same]
      exact growth.valid h'
  · by_cases first : h₁ = h
    · subst first
      rw [discreet.walkers h₂ different.symm]
      exact fun mine => fresh h₂ f mine different.symm
    · by_cases second : h₂ = h
      · subst second
        rw [discreet.walkers h₁ different]
        exact fun theirs mine => fresh h₁ f mine different theirs
      · rw [discreet.walkers h₁ first, discreet.walkers h₂ second]
        exact growth.apart h₁ h₂ different f
  · by_cases first : h₁ = h
    · subst first
      rw [discreet.walkers h₂ different.symm]
      exact fun mine => single h₂ f mine different.symm
    · by_cases second : h₂ = h
      · subst second
        rw [discreet.walkers h₁ different]
        exact fun theirs mine => single h₁ f mine different theirs
      · rw [discreet.walkers h₁ first, discreet.walkers h₂ second]
        exact growth.alone h₁ h₂ different f
  · by_cases first : h₁ = h
    · subst first
      rw [discreet.walkers h₂ different.symm]
      exact fun mine theirs => (storing pt mine h₂ different.symm theirs).symm
    · by_cases second : h₂ = h
      · subst second
        rw [discreet.walkers h₁ different]
        exact fun theirs mine => storing pt mine h₁ different theirs
      · rw [discreet.walkers h₁ first, discreet.walkers h₂ second]
        exact growth.stores h₁ h₂ different pt
  · rcases cases h' _ member with ⟨_, new⟩ | old
    · exact published slot page new
    · obtain ⟨⟨path, stands⟩, entry⟩ := growth.published h' slot page old
      have nonzero : s.mem slot.1 slot.2 ≠ 0 := entry ▸ Tables.valid_ne_zero (entryFor_valid page)
      exact ⟨⟨path, discreet.stands stands⟩, (entryKept stands nonzero).trans entry⟩
  · rcases cases h' _ member with ⟨_, new⟩ | old
    · exact arrived va slot new
    · obtain ⟨owner, index⟩ := growth.arrived h' va slot old
      exact ⟨discreet.tables _ _ owner, index⟩
  · rcases cases h' _ member with ⟨_, new⟩ | old
    · exact kept slot pte new
    · obtain ⟨⟨path, stands⟩, entry, nonzero⟩ := growth.kept h' slot pte old
      exact ⟨⟨path, discreet.stands stands⟩, (entryKept stands (entry ▸ nonzero)).trans entry, nonzero⟩
  · by_cases same : h' = h
    · exact same ▸ ledger
    · obtain ⟨first, second, third⟩ := allocated_other same news s.log
      rw [log, first, second, third, discreet.walkers h' same]
      exact growth.ledger h'

section

variable {dir : ℕ} {own : Owner} {s s' : Walks n} {h : Fin n}

theorem settled_of_ready {t : ℕ} (ready : ¬ Awaits s t) : settled s t = s.mem t := if_neg ready

theorem settled_of_awaits {t : ℕ} (awaits : Awaits s t) : settled s t = fun _ => 0 := if_pos awaits

private theorem settled_congr (awaits : ∀ t, Awaits s' t ↔ Awaits s t)
    (mem : ∀ t, ¬ Awaits s t → s'.mem t = s.mem t) :
    settled s' = settled s := by
  funext t
  by_cases waits : Awaits s t
  · rw [settled_of_awaits waits, settled_of_awaits ((awaits t).mpr waits)]
  · rw [settled_of_ready waits, settled_of_ready ((awaits t).not.mpr waits), mem t waits]

/-- A step that neither publishes nor zeroes a table. -/
theorem awaits_iff (walkers : ∀ h', h' ≠ h → s'.walkers h' = s.walkers h')
    (same : wiped (s'.walkers h).pc = wiped (s.walkers h).pc) (t : ℕ) : Awaits s' t ↔ Awaits s t := by
  have each : ∀ h', wiped (s'.walkers h').pc = wiped (s.walkers h').pc := by
    intro h'
    by_cases here : h' = h
    · exact here ▸ same
    · rw [walkers h' here]
  exact exists_congr fun h' => by rw [each h']

private theorem allocated_arrivals (h : Fin n) {news : List WalkEvent}
    (arrivals : ∀ e ∈ news, ∃ va slot, e = .arrive va slot)
    (log : List (Fin n × WalkEvent)) : allocated (tagged h news ++ log) h = allocated log h ∧
      released (tagged h news ++ log) h = released log h ∧
      publishedBy (tagged h news ++ log) h = publishedBy log h ∧
      publishedSlots (tagged h news ++ log) = publishedSlots log := by
  induction news with
  | nil => exact ⟨rfl, rfl, rfl, rfl⟩
  | cons e news ih =>
    obtain ⟨va, slot, rfl⟩ := arrivals e List.mem_cons_self
    exact ih fun e member => arrivals e (List.mem_cons_of_mem _ member)

/-- A step that changes the program counter only. -/
theorem Growth.turn (news : List WalkEvent) (growth : Growth dir own s) (mem : s'.mem = s.mem)
    (out : s'.out = s.out) (walkers : ∀ h', h' ≠ h → s'.walkers h' = s.walkers h')
    (before : wiped (s.walkers h).pc = none) (after : wiped (s'.walkers h).pc = none)
    (hold : holding (s'.walkers h).pc = holding (s.walkers h).pc)
    (walker : (∀ path t, Stands dir own s path t → Stands dir own s' path t) →
      WalkerOk dir own s' (s'.walkers h))
    (valid : (s'.walkers h).pc ≠ .idle → has (s'.walkers h).pte PTE_V = true)
    (storing : ∀ pt, (s'.walkers h).pc = .store pt → ∀ h', h' ≠ h → (s.walkers h').pc = .store pt →
      PX 0 (s.walkers h').va ≠ PX 0 (s'.walkers h).va)
    (log : s'.log = tagged h news ++ s.log) (arrivals : ∀ e ∈ news, ∃ va slot, e = .arrive va slot)
    (arrived : ∀ va slot, .arrive va slot ∈ news → own slot.1 = some (dir, pathTo va 0) ∧ slot.2 = PX 0 va) :
    Growth dir own s' := by
  have awaits := awaits_iff walkers (after.trans before.symm)
  have same : settled s' = settled s := settled_congr awaits fun t _ => by rw [mem]
  have discreet : Discreet dir own s own s' h := by
    refine ⟨walkers, fun t q owner => owner, fun t q _ ready => (awaits t).not.mpr ready, ?_, ?_, ?_⟩
    · intro t q _ _ i _
      rw [mem]
    · intro h' _ f _ free inside
      exact ⟨free, out ▸ inside⟩
    · intro h' _ pt _ _ zero
      rw [mem]
      exact zero
  obtain ⟨first, second, third, fourth⟩ := allocated_arrivals h arrivals s.log
  refine growth.next news discreet (same ▸ growth.rooted) (out ▸ growth.used) (out ▸ growth.nodup)
    (walker fun path t stands => discreet.stands stands) valid
    (fun f member => Or.inl (hold ▸ member)) ?_ storing log ?_ ?_ arrived ?_ ?_
  · intro f wipes
    rw [after] at wipes
    cases wipes
  · intro slot page new
    obtain ⟨_, _, same⟩ := arrivals _ new
    cases same
  · rw [log, fourth]
    exact growth.once
  · intro slot pte new
    obtain ⟨_, _, same⟩ := arrivals _ new
    cases same
  · rw [log, first, second, third, hold]
    exact growth.ledger h

theorem pathTo_depth {level : ℕ} (range : level = 1 ∨ level = 2) (va : ℕ) :
    (pathTo va level).length < 2 ∧ pathTo va level ++ [PX level va] = pathTo va (level - 1) ∧
      pathTo va (level - 1) ≠ [] := by
  rcases range with rfl | rfl
  · exact ⟨Nat.lt_succ_self 1, rfl, List.cons_ne_nil _ _⟩
  · exact ⟨Nat.zero_lt_two, rfl, List.cons_ne_nil _ _⟩

namespace Growth

/-- The directory never awaits a `memset`. -/
theorem root (growth : Growth dir own s) : Stands dir own s [] dir := by
  refine ⟨growth.rooted.root, ?_⟩
  rintro ⟨h, wipes⟩
  have ok := growth.walkers h
  unfold WalkerOk at ok
  cases pc : (s.walkers h).pc with
  | wipe level pt page =>
    rw [pc] at ok wipes
    cases wipes
    have path := growth.rooted.root.symm.trans ok.2.2
    exact (pathTo_depth ok.1 _).2.2 (Prod.mk.inj (Option.some.inj path)).2.symm
  | _ =>
    rw [pc] at wipes
    cases wipes

/-- An entry of a directory table, as the loads see it. -/
theorem directory (growth : Growth dir own s) {va level pt : ℕ} (depth : level = 1 ∨ level = 2)
    (stands : Stands dir own s (pathTo va level) pt) (nonzero : s.mem pt (PX level va) ≠ 0) :
    has (s.mem pt (PX level va)) PTE_V = true ∧
      own (PTE2PA (s.mem pt (PX level va)) / PGSIZE) = some (dir, pathTo va (level - 1)) := by
  obtain ⟨short, path, _⟩ := pathTo_depth depth va
  have same := settled_of_ready stands.ready
  have below := growth.rooted.tables.below pt dir _ stands.owner short _ (px_lt level va)
  have down := growth.rooted.tables.down stands.owner short (px_lt level va)
  rw [same, path] at down
  rw [same] at below
  exact ⟨(below nonzero).1, (down (below nonzero).1).2⟩

/-- A step that gives a hart another program counter and leaves the memory alone. -/
theorem move (growth : Growth dir own s) {w : Walker} (before : wiped (s.walkers h).pc = none)
    (after : wiped w.pc = none) (hold : holding w.pc = holding (s.walkers h).pc)
    (walker : (∀ path t, Stands dir own s path t → Stands dir own (s.setWalker h w) path t) →
      WalkerOk dir own (s.setWalker h w) w)
    (valid : w.pc ≠ .idle → has w.pte PTE_V = true)
    (storing : ∀ pt, w.pc = .store pt → ∀ h', h' ≠ h → (s.walkers h').pc = .store pt →
      PX 0 (s.walkers h').va ≠ PX 0 w.va) :
    Growth dir own (s.setWalker h w) := by
  have here : (s.setWalker h w).walkers h = w := Function.update_self ..
  refine growth.turn [] rfl rfl (fun h' other => Function.update_of_ne other _ _) before ?_ ?_ ?_
    ?_ ?_ rfl ?_ ?_
  · rw [here]
    exact after
  · rw [here]
    exact hold
  · rw [here]
    exact walker
  · rw [here]
    exact valid
  · rw [here]
    exact storing
  · exact fun e member => absurd member List.not_mem_nil
  · exact fun va slot member => absurd member List.not_mem_nil

theorem start (growth : Growth dir own s) (va pte : ℕ) (pc : (s.walkers h).pc = .idle)
    (valid : has pte PTE_V = true) :
    Growth dir own (s.setWalker h ⟨.test 2 dir, va, pte⟩) := by
  apply growth.move (by rw [pc]; rfl) rfl (by rw [pc]; rfl)
  · exact fun keep => ⟨Or.inr rfl, keep _ _ growth.root⟩
  · exact fun _ => valid
  · exact fun pt store => nomatch store

/-- What the end of an iteration at `level` records. -/
def arrival (level va t : ℕ) : List WalkEvent := if level = 1 then [.arrive va (t, PX 0 va)] else []

/-- The end of an iteration. -/
theorem enter_spec (s : Walks n) (h : Fin n) (level t : ℕ) :
    (s.enter h level t).mem = s.mem ∧ (s.enter h level t).out = s.out ∧
      (∀ h', h' ≠ h → (s.enter h level t).walkers h' = s.walkers h') ∧
      (s.enter h level t).walkers h =
        { s.walkers h with pc := if level = 1 then .check t else .test (level - 1) t } ∧
      (s.enter h level t).log = tagged h (arrival level (s.walkers h).va t) ++ s.log := by
  unfold Walks.enter arrival
  split_ifs with last
  · exact ⟨rfl, rfl, fun h' other => Function.update_of_ne other _ _, Function.update_self .., rfl⟩
  · exact ⟨rfl, rfl, fun h' other => Function.update_of_ne other _ _, Function.update_self .., rfl⟩

/-- A hart that arrives at a zeroed table of the next level. -/
theorem walkerOk_enter {w : Walker} {level t : ℕ} (depth : level = 1 ∨ level = 2)
    (stands : Stands dir own s (pathTo w.va (level - 1)) t) :
    WalkerOk dir own s { w with pc := if level = 1 then .check t else .test (level - 1) t } := by
  rcases depth with rfl | rfl
  · exact stands
  · exact ⟨Or.inl rfl, stands⟩

private theorem arrival_news (va t : ℕ) {level : ℕ} (depth : level = 1 ∨ level = 2)
    (owner : own t = some (dir, pathTo va (level - 1))) :
    (∀ e ∈ arrival level va t, ∃ va slot, e = .arrive va slot) ∧
      ∀ va' slot, .arrive va' slot ∈ arrival level va t → own slot.1 = some (dir, pathTo va' 0) ∧
      slot.2 = PX 0 va' := by
  rcases depth with rfl | rfl
  · refine ⟨fun e member => ⟨_, _, List.mem_singleton.mp member⟩, fun va' slot member => ?_⟩
    cases List.mem_singleton.mp member
    exact ⟨owner, rfl⟩
  · exact ⟨fun e member => absurd member List.not_mem_nil, fun va' slot member =>
      absurd member List.not_mem_nil⟩

/-- The table in an entry is zeroed unless the hart that published it is about to do so. -/
theorem follow (growth : Growth dir own s) {level pt : ℕ} (pc : (s.walkers h).pc = .follow level pt)
    (patient : Patient s (h, .go)) :
    Growth dir own (s.enter h level (PTE2PA (s.mem pt (PX level (s.walkers h).va)) / PGSIZE)) := by
  have ok := growth.walkers h
  unfold WalkerOk at ok
  rw [pc] at ok
  obtain ⟨depth, stands, valid⟩ := ok
  obtain ⟨_, owner⟩ := growth.directory depth stands (Tables.valid_ne_zero valid)
  set va := (s.walkers h).va
  set t := PTE2PA (s.mem pt (PX level va)) / PGSIZE
  have ready : ¬ Awaits s t := by
    rintro ⟨h', wipes⟩
    have ok' := growth.walkers h'
    unfold WalkerOk at ok'
    cases pc' : (s.walkers h').pc with
    | wipe level' pt' page =>
      rw [pc'] at ok' wipes
      cases wipes
      obtain ⟨depth', stands', owner'⟩ := ok'
      have paths := (Prod.mk.inj (Option.some.inj (owner'.symm.trans owner))).2
      rw [← (pathTo_depth depth' _).2.1, ← (pathTo_depth depth va).2.1] at paths
      obtain ⟨upper, index⟩ := List.append_inj' paths rfl
      obtain rfl : pt' = pt := growth.rooted.owner_inj stands'.owner (upper ▸ stands.owner)
      apply (patient h').1 (pt', PX level va)
      · simp only [takenSlot, pc, Option.mem_def]
        rfl
      · simp only [wipedSlot, pc']
        rw [List.singleton_inj.mp index]
    | _ =>
      rw [pc'] at wipes
      cases wipes
  obtain ⟨mem, out, walkers, here, log⟩ := enter_spec s h level t
  obtain ⟨arrivals, arrived⟩ := arrival_news va t depth owner
  have notStore : ∀ pt, (if level = 1 then WalkPc.check t else .test (level - 1) t) ≠ .store pt := by
    intro pt
    split_ifs <;> simp
  refine growth.turn _ mem out walkers (by rw [pc]; rfl) ?_ ?_ (fun keep => ?_) ?_ ?_ log arrivals arrived
  · rw [here]
    dsimp only
    split_ifs <;> rfl
  · rw [here, pc]
    dsimp only
    split_ifs <;> rfl
  · rw [here]
    exact walkerOk_enter depth (keep _ _ ⟨owner, ready⟩)
  · rw [here]
    exact fun _ => growth.valid h (by rw [pc]; simp)
  · intro pt' store
    rw [here] at store
    exact absurd store (notStore pt')

/-- `alloc_page` returned a null pointer. -/
private theorem allocNull (growth : Growth dir own s) {level pt : ℕ} (pc : (s.walkers h).pc = .grow level pt) :
    Growth dir own (s.setWalker h { s.walkers h with pc := .idle }) := by
  apply growth.move (by rw [pc]; rfl) rfl (by rw [pc]; rfl)
  · exact fun _ => trivial
  · exact fun busy => absurd rfl busy
  · exact fun pt store => nomatch store

theorem test (growth : Growth dir own s) {level pt : ℕ} (pc : (s.walkers h).pc = .test level pt) :
    Growth dir own (s.setWalker h { s.walkers h with
      pc := if has (s.mem pt (PX level (s.walkers h).va)) PTE_V then .follow level pt
      else .grow level pt }) := by
  have ok := growth.walkers h
  unfold WalkerOk at ok
  rw [pc] at ok
  have valid := growth.valid h (by rw [pc]; simp)
  split_ifs with entry
  · apply growth.move (by rw [pc]; rfl) rfl (by rw [pc]; rfl)
    · exact fun keep => ⟨ok.1, keep _ _ ok.2, entry⟩
    · exact fun _ => valid
    · exact fun pt store => nomatch store
  · apply growth.move (by rw [pc]; rfl) rfl (by rw [pc]; rfl)
    · exact fun keep => ⟨ok.1, keep _ _ ok.2⟩
    · exact fun _ => valid
    · exact fun pt store => nomatch store

/-- A lost race: the entry has a table. -/
private theorem casLost (growth : Growth dir own s) {level pt page : ℕ}
    (pc : (s.walkers h).pc = .cas level pt page) (taken : s.mem pt (PX level (s.walkers h).va) ≠ 0) :
    Growth dir own (s.setWalker h { s.walkers h with pc := .drop level pt page }) := by
  have ok := growth.walkers h
  unfold WalkerOk at ok
  rw [pc] at ok
  obtain ⟨depth, stands, fresh, out, _⟩ := ok
  apply growth.move (by rw [pc]; rfl) rfl (by rw [pc]; rfl)
  · exact fun keep => ⟨depth, keep _ _ stands, (growth.directory depth stands taken).1, fresh, out⟩
  · exact fun _ => growth.valid h (by rw [pc]; simp)
  · exact fun pt store => nomatch store

/-- The test of `map_pages`: an entry that is not valid is empty. -/
theorem check (growth : Growth dir own s) {pt : ℕ} (pc : (s.walkers h).pc = .check pt)
    (patient : Patient s (h, .go)) :
    Growth dir own (s.setWalker h { s.walkers h with
      pc := if has (s.mem pt (PX 0 (s.walkers h).va)) PTE_V then .halted else .store pt }) := by
  have ok := growth.walkers h
  unfold WalkerOk at ok
  rw [pc] at ok
  have valid := growth.valid h (by rw [pc]; simp)
  split_ifs with entry
  · apply growth.move (by rw [pc]; rfl) rfl (by rw [pc]; rfl)
    · exact fun _ => trivial
    · exact fun _ => valid
    · exact fun pt store => nomatch store
  · have empty : s.mem pt (PX 0 (s.walkers h).va) = 0 := by
      by_contra nonzero
      have leaf := growth.rooted.leaves pt _ ok.owner rfl _ (px_lt 0 (s.walkers h).va)
      rw [settled_of_ready ok.ready] at leaf
      exact entry (leaf nonzero)
    apply growth.move (by rw [pc]; rfl) rfl (by rw [pc]; rfl)
    · exact fun keep => ⟨keep _ _ ok, empty⟩
    · exact fun _ => valid
    · intro pt' store h' other theirs
      cases store
      intro index
      apply (patient h').2 other (pt, PX 0 (s.walkers h).va)
      · simp only [testedSlot, pc, Option.mem_def]
      · simp only [storedSlot, theirs]
        rw [index]

/-- A page from `alloc_page` is no table and no hart holds it. -/
theorem alloc (growth : Growth dir own s) {level pt page : ℕ} (content : ℕ → ℕ)
    (pc : (s.walkers h).pc = .grow level pt) (free : page ∉ s.out) (small : page < 2 ^ 44) :
    Growth dir own (({ (s.setPage page content).record h (.alloc page) with out := page :: s.out } :
      Walks n).setWalker
      h { s.walkers h with pc := .cas level pt page }) := by
  have ok := growth.walkers h
  unfold WalkerOk at ok
  rw [pc] at ok
  set w : Walker := { s.walkers h with pc := .cas level pt page }
  set s' := ({ (s.setPage page content).record h (.alloc page) with out := page :: s.out } :
    Walks n).setWalker h w with shape
  have here : s'.walkers h = w := Function.update_self ..
  have walkers : ∀ h', h' ≠ h → s'.walkers h' = s.walkers h' := fun h' other => Function.update_of_ne other _ _
  have fresh : own page = none := by
    by_contra named
    exact free (growth.used page named)
  have same : ∀ t q, own t = some q → s'.mem t = s.mem t := by
    intro t q named
    apply Function.update_of_ne
    rintro rfl
    rw [fresh] at named
    cases named
  have awaits : ∀ t, Awaits s' t ↔ Awaits s t := awaits_iff walkers (by rw [here, pc]; rfl)
  have discreet : Discreet dir own s own s' h := by
    refine ⟨walkers, fun t q named => named, fun t q _ ready => (awaits t).not.mpr ready, ?_, ?_, ?_⟩
    · exact fun t q named _ i _ => congrFun (same t q named) i
    · exact fun h' _ f _ unnamed inside => ⟨unnamed, List.mem_cons_of_mem _ inside⟩
    · intro h' _ pt _ stands zero
      rw [same pt _ stands.owner]
      exact zero
  have settle : ∀ t q, own t = some q → settled s' t = settled s t := by
    intro t q named
    by_cases waits : Awaits s t
    · rw [settled_of_awaits waits, settled_of_awaits ((awaits t).mpr waits)]
    · rw [settled_of_ready waits, settled_of_ready ((awaits t).not.mpr waits), same t q named]
  refine growth.next [.alloc page] discreet ?_ ?_ (List.nodup_cons.mpr ⟨free, growth.nodup⟩) ?_ ?_ ?_ ?_ ?_
    rfl ?_ growth.once ?_ ?_ ?_
  · apply growth.rooted.congr
    · exact fun t r q named _ => settle t _ named
    · intro t q named length
      rw [settle t _ named]
      exact growth.rooted.leaves t q named length
  · exact fun t named => List.mem_cons_of_mem _ (growth.used t named)
  · rw [here]
    exact ⟨ok.1, discreet.stands ok.2, fresh, List.mem_cons_self, small⟩
  · rw [here]
    exact fun _ => growth.valid h (by rw [pc]; simp)
  · intro f member
    rw [here] at member
    exact Or.inr (List.mem_singleton.mp member ▸ free)
  · intro f wipes
    rw [here] at wipes
    cases wipes
  · intro pt store
    rw [here] at store
    cases store
  · exact fun slot page member => nomatch List.mem_singleton.mp member
  · exact fun va slot member => nomatch List.mem_singleton.mp member
  · exact fun slot pte member => nomatch List.mem_singleton.mp member
  · have balance := growth.ledger h
    rw [pc] at balance
    have gains : allocated s'.log h = page :: allocated s.log h := by
      simp [shape, Walks.setWalker, Walks.record, Walks.setPage, allocated]
    rw [here, gains]
    change (page :: allocated s.log h).Perm (released s.log h ++ publishedBy s.log h ++ [page])
    change (allocated s.log h).Perm (released s.log h ++ publishedBy s.log h ++ []) at balance
    rw [List.append_nil] at balance
    exact (balance.cons page).trans (List.perm_append_singleton page _).symm

/-- `pfree` after a lost race: the page is the hart's own. -/
theorem drop (growth : Growth dir own s) {level pt page : ℕ} (pc : (s.walkers h).pc = .drop level pt page) :
    Growth dir own (({ s.record h (.release page) with out := s.out.erase page } : Walks n).setWalker h
      { s.walkers h with pc := .follow level pt }) := by
  have ok := growth.walkers h
  unfold WalkerOk at ok
  rw [pc] at ok
  obtain ⟨depth, stands, entry, fresh, out⟩ := ok
  set w : Walker := { s.walkers h with pc := .follow level pt }
  set s' := ({ s.record h (.release page) with out := s.out.erase page } : Walks n).setWalker h w with shape
  have here : s'.walkers h = w := Function.update_self ..
  have walkers : ∀ h', h' ≠ h → s'.walkers h' = s.walkers h' := fun h' other => Function.update_of_ne other _ _
  have mine : page ∈ holding (s.walkers h).pc := by
    rw [pc]
    exact List.mem_singleton_self page
  have awaits : ∀ t, Awaits s' t ↔ Awaits s t := awaits_iff walkers (by rw [here, pc]; rfl)
  have discreet : Discreet dir own s own s' h := by
    refine ⟨walkers, fun t q named => named, fun t q _ ready => (awaits t).not.mpr ready,
      fun t q _ _ i _ => rfl, ?_, ?_⟩
    · intro h' other f theirs unnamed inside
      have apart : f ≠ page := fun same => growth.apart h h' other.symm page mine (same ▸ theirs)
      exact ⟨unnamed, (List.mem_erase_of_ne apart).mpr inside⟩
    · exact fun h' _ pt _ _ zero => zero
  have same : settled s' = settled s := settled_congr awaits fun t _ => rfl
  refine growth.next [.release page] discreet (same ▸ growth.rooted) ?_
    (growth.nodup.erase page) ?_ ?_ ?_ ?_ ?_ rfl ?_ growth.once ?_ ?_ ?_
  · intro t named
    have apart : t ≠ page := by
      rintro rfl
      exact named fresh
    exact (List.mem_erase_of_ne apart).mpr (growth.used t named)
  · rw [here]
    exact ⟨depth, discreet.stands stands, entry⟩
  · rw [here]
    exact fun _ => growth.valid h (by rw [pc]; simp)
  · intro f member
    rw [here] at member
    cases member
  · intro f wipes
    rw [here] at wipes
    cases wipes
  · intro pt store
    rw [here] at store
    cases store
  · exact fun slot page member => nomatch List.mem_singleton.mp member
  · exact fun va slot member => nomatch List.mem_singleton.mp member
  · exact fun slot pte member => nomatch List.mem_singleton.mp member
  · have balance := growth.ledger h
    rw [pc] at balance
    have gains : released s'.log h = page :: released s.log h := by
      simp [shape, Walks.setWalker, Walks.record, released]
    rw [here, gains]
    change (allocated s.log h).Perm (page :: released s.log h ++ publishedBy s.log h ++ [])
    rw [List.append_nil, List.cons_append]
    exact balance.trans (List.perm_append_singleton page _)

private theorem setWord_self (s : Walks n) (slot : Slot)
    (word : ℕ) : (s.setWord slot word).mem slot.1 slot.2 = word := by
  simp [Walks.setWord]

private theorem setWord_of_ne (s : Walks n) {slot : Slot} (word : ℕ) {t j : ℕ}
    (other : t ≠ slot.1 ∨ j ≠ slot.2) :
    (s.setWord slot word).mem t j = s.mem t j := by
  unfold Walks.setWord
  by_cases table : t = slot.1
  · subst table
    dsimp only
    rw [Function.update_self, Function.update_of_ne (other.resolve_left fun differ => differ rfl)]
  · exact congrFun (Function.update_of_ne table _ _) j

/-- A won race: the empty entry gets the page, which is a table from now on and awaits its `memset`. -/
private theorem casWon (growth : Growth dir own s) {level pt page : ℕ}
    (pc : (s.walkers h).pc = .cas level pt page) (empty : s.mem pt (PX level (s.walkers h).va) = 0) :
    ∃ own', Growth dir own' (((s.setWord (pt, PX level (s.walkers h).va)
      (PA2PTE (page * PGSIZE) ||| PTE_V)).record h
      (.publish (pt, PX level (s.walkers h).va) page)).setWalker h
        { s.walkers h with pc := .wipe level pt page }) := by
  have ok := growth.walkers h
  unfold WalkerOk at ok
  rw [pc] at ok
  obtain ⟨depth, stands, fresh, out, small⟩ := ok
  set va := (s.walkers h).va
  set i := PX level va
  set w : Walker := { s.walkers h with pc := .wipe level pt page }
  set s' := ((s.setWord (pt, i) (entryFor page)).record h (.publish (pt, i) page)).setWalker h w with shape
  change ∃ own', Growth dir own' s'
  obtain ⟨short, path, _⟩ := pathTo_depth depth va
  set own' : Owner := Function.update own page (some (dir, pathTo va level ++ [i])) with names
  have here : s'.walkers h = w := Function.update_self ..
  have walkers : ∀ h', h' ≠ h → s'.walkers h' = s.walkers h' := fun h' other => Function.update_of_ne other _ _
  have mine : page ∈ holding (s.walkers h).pc := by
    rw [pc]
    exact List.mem_singleton_self page
  have apart : ∀ {t q}, own t = some q → t ≠ page := by
    rintro t q named rfl
    rw [fresh] at named
    cases named
  have elsewhere : ∀ t j, t ≠ pt ∨ j ≠ i → s'.mem t j = s.mem t j := fun t j other => setWord_of_ne s _ other
  have slot : s'.mem pt i = entryFor page := setWord_self s (pt, i) _
  have awaits : ∀ t, Awaits s' t ↔ Awaits s t ∨ t = page := by
    intro t
    constructor
    · rintro ⟨h', wipes⟩
      by_cases same : h' = h
      · subst same
        rw [here] at wipes
        exact Or.inr (Option.some.inj wipes).symm
      · rw [walkers h' same] at wipes
        exact Or.inl ⟨h', wipes⟩
    · rintro (⟨h', wipes⟩ | rfl)
      · have other : h' ≠ h := by
          rintro rfl
          rw [pc] at wipes
          cases wipes
        exact ⟨h', (walkers h' other).symm ▸ wipes⟩
      · exact ⟨h, by rw [here]; rfl⟩
  have settle : settled s' = Tables.hang (settled s) pt i page := by
    funext t
    by_cases same : t = page
    · subst same
      rw [settled_of_awaits ((awaits t).mpr (Or.inr rfl)), Tables.hang_page]
    · by_cases waits : Awaits s t
      · have table : t ≠ pt := fun eq => stands.ready (eq ▸ waits)
        rw [settled_of_awaits ((awaits t).mpr (Or.inl waits))]
        funext j
        rw [Tables.hang_other same (Or.inl table), settled_of_awaits waits]
      · rw [settled_of_ready fun waits' => ((awaits t).mp waits').elim waits same]
        funext j
        by_cases entry : t = pt ∧ j = i
        · obtain ⟨rfl, rfl⟩ := entry
          rw [slot, Tables.hang_slot same, entryFor, PA2PTE_page]
        · rw [not_and_or] at entry
          rw [elsewhere t j entry, Tables.hang_other same entry, settled_of_ready waits]
  have empty' : settled s pt i = 0 := by
    rw [settled_of_ready stands.ready]
    exact empty
  have discreet : Discreet dir own s own' s' h := by
    refine ⟨walkers, ?_, ?_, ?_, ?_, ?_⟩
    · intro t q named
      rw [names, Function.update_of_ne (apart named)]
      exact named
    · intro t q named ready waits
      exact ((awaits t).mp waits).elim ready (apart named)
    · intro t q named ready j nonzero
      apply elsewhere
      rw [← not_and_or]
      rintro ⟨rfl, rfl⟩
      exact nonzero empty
    · intro h' other f theirs unnamed inside
      have differ : f ≠ page := fun same => growth.apart h h' other.symm page mine (same ▸ theirs)
      rw [names, Function.update_of_ne differ]
      exact ⟨unnamed, inside⟩
    · intro h' _ pt' _ leaf zero
      rw [elsewhere pt' _ (Or.inl ?_)]
      · exact zero
      · rintro rfl
        have paths := (Prod.mk.inj (Option.some.inj (leaf.owner.symm.trans stands.owner))).2
        rw [← paths] at short
        exact absurd short (by simp [pathTo])
  refine ⟨own', growth.next [.publish (pt, i) page] discreet ?_ ?_ growth.nodup ?_ ?_ ?_ ?_ ?_ rfl
    ?_ ?_ ?_ ?_ ?_⟩
  · rw [settle]
    exact growth.rooted.hang stands.owner short (px_lt level va) empty' fresh small
  · intro t named
    by_cases same : t = page
    · exact same ▸ out
    · rw [names, Function.update_of_ne same] at named
      exact growth.used t named
  · rw [here]
    refine ⟨depth, discreet.stands stands, ?_⟩
    rw [names, Function.update_self, path]
  · rw [here]
    exact fun _ => growth.valid h (by rw [pc]; simp)
  · intro f member
    rw [here] at member
    cases member
  · intro f wipes
    rw [here] at wipes
    exact Option.some.inj wipes ▸ mine
  · intro pt store
    rw [here] at store
    cases store
  · intro slot' page' member
    cases List.mem_singleton.mp member
    exact ⟨⟨_, discreet.stands stands⟩, slot⟩
  · have gains : publishedSlots s'.log = (pt, i) :: publishedSlots s.log := by
      simp [shape, Walks.setWalker, Walks.record, Walks.setWord, publishedSlots]
    rw [gains]
    refine List.nodup_cons.mpr ⟨fun member => ?_, growth.once⟩
    obtain ⟨⟨h', e⟩, inside, event⟩ := List.mem_filterMap.mp member
    cases e with
    | publish slot' page' =>
      cases event
      have entry := (growth.published h' _ page' inside).2
      exact Tables.valid_ne_zero (entryFor_valid page') (entry.symm.trans empty)
    | alloc page' => cases event
    | release page' => cases event
    | arrive va' slot' => cases event
    | stored slot' pte => cases event
  · exact fun va slot member => nomatch List.mem_singleton.mp member
  · exact fun slot pte member => nomatch List.mem_singleton.mp member
  · have balance := growth.ledger h
    rw [pc] at balance
    have gains : publishedBy s'.log h = page :: publishedBy s.log h := by
      simp [shape, Walks.setWalker, Walks.record, Walks.setWord, publishedBy]
    rw [here, gains]
    change (allocated s.log h).Perm (released s.log h ++ page :: publishedBy s.log h ++ [])
    rw [List.append_nil]
    exact (balance.trans (List.perm_append_singleton page _)).trans List.perm_middle.symm

/-- The `memset`: no other hart has been at the page. -/
theorem wipe (growth : Growth dir own s) {level pt page : ℕ} (pc : (s.walkers h).pc = .wipe level pt page) :
    Growth dir own ((s.setPage page fun _ => 0).enter h level page) := by
  have ok := growth.walkers h
  unfold WalkerOk at ok
  rw [pc] at ok
  obtain ⟨depth, _, owner⟩ := ok
  obtain ⟨mem, out, walkers, here, log⟩ := enter_spec (s.setPage page fun _ => 0) h level page
  change _ = tagged h (arrival level (s.walkers h).va page) ++ s.log at log
  obtain ⟨arrivals, arrived⟩ := arrival_news (s.walkers h).va page depth owner
  set s' := (s.setPage page fun _ => 0).enter h level page
  have mine : Awaits s page := ⟨h, by rw [pc]; rfl⟩
  have same : ∀ t, t ≠ page → s'.mem t = s.mem t := by
    intro t other
    rw [mem]
    exact Function.update_of_ne other _ _
  have done : wiped (s'.walkers h).pc = none := by
    rw [here]
    dsimp only
    split_ifs <;> rfl
  have awaits : ∀ t, Awaits s' t ↔ Awaits s t ∧ t ≠ page := by
    intro t
    constructor
    · rintro ⟨h', wipes⟩
      have other : h' ≠ h := by
        rintro rfl
        rw [done] at wipes
        cases wipes
      rw [walkers h' other] at wipes
      refine ⟨⟨h', wipes⟩, ?_⟩
      rintro rfl
      exact growth.alone h' h other t wipes (by rw [pc]; rfl)
    · rintro ⟨⟨h', wipes⟩, differ⟩
      have other : h' ≠ h := by
        rintro rfl
        rw [pc] at wipes
        exact differ (Option.some.inj wipes).symm
      refine ⟨h', ?_⟩
      rw [walkers h' other]
      exact wipes
  have settle : settled s' = settled s := by
    funext t
    by_cases here : t = page
    · subst here
      rw [settled_of_awaits mine, settled_of_ready fun waits => ((awaits t).mp waits).2 rfl, mem]
      exact Function.update_self ..
    · by_cases waits : Awaits s t
      · rw [settled_of_awaits waits, settled_of_awaits ((awaits t).mpr ⟨waits, here⟩)]
      · rw [settled_of_ready waits, settled_of_ready fun waits' => waits ((awaits t).mp waits').1, same t here]
  have discreet : Discreet dir own s own s' h := by
    refine ⟨walkers, fun t q named => named, fun t q _ ready waits => ready ((awaits t).mp waits).1, ?_, ?_, ?_⟩
    · intro t q _ ready i _
      rw [same t fun eq => ready (eq ▸ mine)]
    · intro h' _ f _ unnamed inside
      exact ⟨unnamed, out ▸ inside⟩
    · intro h' _ pt _ stands zero
      rw [same pt fun eq => stands.ready (eq ▸ mine)]
      exact zero
  have empty : holding (s'.walkers h).pc = [] := by
    rw [here]
    dsimp only
    split_ifs <;> rfl
  obtain ⟨first, second, third, fourth⟩ := allocated_arrivals h arrivals s.log
  refine growth.next _ discreet (settle ▸ growth.rooted) (out ▸ growth.used)
    (out ▸ growth.nodup) ?_ ?_ ?_ ?_ ?_ log ?_ ?_ arrived ?_ ?_
  · rw [here]
    exact walkerOk_enter depth ⟨owner, fun waits => ((awaits page).mp waits).2 rfl⟩
  · rw [here]
    exact fun _ => growth.valid h (by rw [pc]; simp)
  · intro f member
    rw [empty] at member
    cases member
  · intro f wipes
    rw [done] at wipes
    cases wipes
  · intro pt store
    rw [here] at store
    dsimp only at store
    split_ifs at store
  · intro slot page new
    obtain ⟨_, _, event⟩ := arrivals _ new
    cases event
  · rw [log]
    exact fourth ▸ growth.once
  · intro slot pte new
    obtain ⟨_, _, event⟩ := arrivals _ new
    cases event
  · have balance := growth.ledger h
    rw [pc] at balance
    rw [log, empty, first, second, third]
    exact balance

/-- The store of the leaf entry: the entry was empty, and no other hart is about to store to it. -/
theorem store (growth : Growth dir own s) {pt : ℕ} (pc : (s.walkers h).pc = .store pt) :
    Growth dir own (((s.setWord (pt, PX 0 (s.walkers h).va) (s.walkers h).pte).record h
      (.stored (pt, PX 0 (s.walkers h).va) (s.walkers h).pte)).setWalker h { s.walkers h with pc :=
  .idle }) := by
  have ok := growth.walkers h
  unfold WalkerOk at ok
  rw [pc] at ok
  obtain ⟨stands, empty⟩ := ok
  have valid := growth.valid h (by rw [pc]; simp)
  set i := PX 0 (s.walkers h).va
  set pte := (s.walkers h).pte
  set w : Walker := { s.walkers h with pc := .idle }
  set s' := ((s.setWord (pt, i) pte).record h (.stored (pt, i) pte)).setWalker h w with shape
  have here : s'.walkers h = w := Function.update_self ..
  have walkers : ∀ h', h' ≠ h → s'.walkers h' = s.walkers h' := fun h' other => Function.update_of_ne other _ _
  have elsewhere : ∀ t j, t ≠ pt ∨ j ≠ i → s'.mem t j = s.mem t j := fun t j other => setWord_of_ne s _ other
  have slot : s'.mem pt i = pte := setWord_self s (pt, i) _
  have awaits : ∀ t, Awaits s' t ↔ Awaits s t := awaits_iff walkers (by rw [here, pc]; rfl)
  have settle : settled s' = Function.update (settled s) pt (Function.update (settled s pt) i pte) := by
    funext t
    by_cases table : t = pt
    · subst table
      rw [Function.update_self, settled_of_ready stands.ready,
        settled_of_ready ((awaits t).not.mpr stands.ready)]
      exact Function.update_self ..
    · rw [Function.update_of_ne table]
      by_cases waits : Awaits s t
      · rw [settled_of_awaits waits, settled_of_awaits ((awaits t).mpr waits)]
      · rw [settled_of_ready waits, settled_of_ready ((awaits t).not.mpr waits)]
        exact Function.update_of_ne table _ _
  have discreet : Discreet dir own s own s' h := by
    refine ⟨walkers, fun t q named => named, fun t q _ ready => (awaits t).not.mpr ready, ?_, ?_, ?_⟩
    · intro t q _ _ j nonzero
      apply elsewhere
      rw [← not_and_or]
      rintro ⟨rfl, rfl⟩
      exact nonzero empty
    · exact fun h' _ f _ unnamed inside => ⟨unnamed, inside⟩
    · intro h' other pt' theirs _ zero
      rw [elsewhere pt' _ ?_]
      · exact zero
      · rw [← not_and_or]
        rintro ⟨rfl, index⟩
        exact growth.stores h' h other pt' theirs pc index
  refine growth.next [.stored (pt, i) pte] discreet ?_ growth.used growth.nodup ?_ ?_ ?_ ?_ ?_ rfl ?_
    growth.once ?_ ?_ ?_
  · rw [settle]
    exact growth.rooted.setLeaf stands.owner rfl pte fun _ => valid
  · rw [here]
    trivial
  · rw [here]
    exact fun busy => absurd rfl busy
  · intro f member
    rw [here] at member
    cases member
  · intro f wipes
    rw [here] at wipes
    cases wipes
  · intro pt store
    rw [here] at store
    cases store
  · exact fun slot page member => nomatch List.mem_singleton.mp member
  · exact fun va slot member => nomatch List.mem_singleton.mp member
  · intro slot' pte' member
    cases List.mem_singleton.mp member
    exact ⟨⟨_, discreet.stands stands⟩, slot, Tables.valid_ne_zero valid⟩
  · have balance := growth.ledger h
    rw [pc] at balance
    rw [here]
    exact balance

theorem step (growth : Growth dir own s) {e : Fin n × WalkOp} (patient : Patient s e)
    (step : s.step dir e = some s') :
    ∃ own', Growth dir own' s' := by
  obtain ⟨h, op⟩ := e
  cases op with
  | start va pa perm =>
    simp only [Walks.step] at step
    split_ifs at step with legal
    cases step
    exact ⟨own, growth.start va _ legal.1 (has_valid_or _)⟩
  | alloc page content =>
    cases pc : (s.walkers h).pc with
    | grow level pt =>
      simp only [Walks.step, pc] at step
      split_ifs at step with null legal
      · cases step
        exact ⟨own, growth.allocNull pc⟩
      · cases step
        exact ⟨own, growth.alloc content pc legal.1 legal.2⟩
    | _ =>
      simp only [Walks.step, pc] at step
      cases step
  | go =>
    simp only [Walks.step, Walks.go] at step
    cases pc : (s.walkers h).pc with
    | idle =>
      rw [pc] at step
      cases step
    | grow level pt =>
      rw [pc] at step
      cases step
    | halted =>
      rw [pc] at step
      cases step
    | test level pt =>
      rw [pc] at step
      cases step
      exact ⟨own, growth.test pc⟩
    | follow level pt =>
      rw [pc] at step
      cases step
      exact ⟨own, growth.follow pc patient⟩
    | cas level pt page =>
      rw [pc] at step
      dsimp only at step
      split_ifs at step with empty
      · cases step
        exact growth.casWon pc empty
      · cases step
        exact ⟨own, growth.casLost pc empty⟩
    | drop level pt page =>
      rw [pc] at step
      cases step
      exact ⟨own, growth.drop pc⟩
    | wipe level pt page =>
      rw [pc] at step
      cases step
      exact ⟨own, growth.wipe pc⟩
    | check pt =>
      rw [pc] at step
      cases step
      exact ⟨own, growth.check pc patient⟩
    | store pt =>
      rw [pc] at step
      cases step
      exact ⟨own, growth.store pc⟩

/-- Harts that have not started yet, on a well-formed table. -/
private theorem ofIdle (formed : WellFormed s.mem dir) (idle : ∀ h, (s.walkers h).pc = .idle) (log : s.log = [])
    (nodup : s.out.Nodup) (used : ∀ t, IsTable s.mem dir t → t ∈ s.out) : ∃ own, Growth dir own s := by
  obtain ⟨own, rooted⟩ := formed.rooted
  have ready : ∀ t, ¬ Awaits s t := by
    rintro t ⟨h, wipes⟩
    rw [idle h] at wipes
    cases wipes
  have same : settled s = s.mem := funext fun t => settled_of_ready (ready t)
  refine ⟨own, same ▸ rooted, fun t named => used t ((rooted.isTable_iff t).mpr named), nodup, ?_, ?_, ?_, ?_,
    ?_, ?_, ?_, ?_, ?_, ?_⟩
  · intro h
    unfold WalkerOk
    rw [idle h]
    trivial
  · exact fun h busy => absurd (idle h) busy
  · intro h h' _ f member
    rw [idle h] at member
    cases member
  · intro h h' _ f wipes
    rw [idle h] at wipes
    cases wipes
  · intro h h' _ pt store
    rw [idle h] at store
    cases store
  · intro h slot page member
    rw [log] at member
    cases member
  · rw [log]
    exact List.nodup_nil
  · intro h va slot member
    rw [log] at member
    cases member
  · intro h slot pte member
    rw [log] at member
    cases member
  · intro h
    rw [log, idle h]
    exact List.Perm.refl _

end Growth

end

/-- The start of the harts: the directory is well formed and its tables are in use. -/
structure WalksStart (dir : ℕ) (s : Walks n) : Prop where
  formed : WellFormed s.mem dir
  idle : ∀ h, (s.walkers h).pc = .idle
  log : s.log = []
  nodup : s.out.Nodup
  used : ∀ t, IsTable s.mem dir t → t ∈ s.out

def WalksStep (dir : ℕ) (s : Walks n) (e : Fin n × WalkOp) (t : Walks n) : Prop := s.step dir e = some t

/-- For any number of harts and any schedule that is patient at every step, concurrent growth of a
page table loses nothing. -/
theorem table_growth {dir : ℕ} {s t : Walks n} {es : List (Fin n × WalkOp)} (start : WalksStart dir s)
    (run : Run (Guarded Patient (WalksStep dir)) s es t) : NothingLost t := by
  have keep : ∀ s e t, (∃ own, Growth dir own s) → Guarded Patient (WalksStep (n := n) dir) s e t →
    ∃ own, Growth dir own t := by
    rintro s e t ⟨own, growth⟩ ⟨patient, step⟩
    exact growth.step patient step
  obtain ⟨own, growth⟩ := run.invariant keep
    (Growth.ofIdle start.formed start.idle start.log start.nodup start.used)
  exact growth.nothingLost

end

/-- Two idle harts on an empty directory in page 1. -/
private def emptyWalks : Walks 2 := ⟨fun _ _ => 0, [1], fun _ => ⟨.idle, 0, 0⟩, []⟩

private theorem emptyWalks_start : WalksStart 1 emptyWalks where
  formed := wellFormed_zero 1
  idle _ := rfl
  log := rfl
  nodup := List.nodup_singleton 1
  used t := by
    rintro ⟨p, _, reached⟩
    cases p with
    | nil =>
      cases reached
      exact List.mem_singleton_self 1
    | cons i p => simp [follow, tableBelow, emptyWalks, not_has_zero] at reached

private def patientStep (s : Walks 2) (e : Fin 2 × WalkOp) : Option (Walks 2) :=
  if Patient s e then s.step 1 e else none

private theorem patientStep_guarded (s : Walks 2) (e : Fin 2 × WalkOp) (t : Walks 2)
    (step : patientStep s e = some t) :
    Guarded Patient (WalksStep 1) s e t := by
  rw [patientStep] at step
  split_ifs at step with patient
  exact ⟨patient, step⟩

/-- Hart 1 loses the race for the upper table and gives page 3 back; hart 0 gets the page for the
leaf table, and both harts store an entry there. -/
theorem table_growth_small :
    ∃ (es : List (Fin 2 × WalkOp)) (t : Walks 2), Run (Guarded Patient (WalksStep 1)) emptyWalks es t ∧
      NothingLost t ∧ released t.log 1 = [3] ∧ t.mem 3 1 = 0x20000001 ∧ t.mem 3 2 = 0x20000401 := by
  have checked : (evalRun patientStep emptyWalks
      [(0, .start 0x1000 0x80000000 0), (1, .start 0x2000 0x80001000 0), (0, .go), (1, .go),
        (0, .alloc 2 fun _ => 1), (1, .alloc 3 fun _ => 1), (0, .go), (1, .go), (1, .go), (0, .go), (1, .go),
        (0, .go), (0, .alloc 3 fun _ => 1), (0, .go), (0, .go), (1, .go), (1, .go), (0, .go), (1, .go),
        (0, .go), (1, .go)]).any
      (fun t => decide (released t.log 1 = [3] ∧ t.mem 3 1 = 0x20000001 ∧ t.mem 3 2 = 0x20000401)) =
      true := by decide +kernel
  obtain ⟨t, run, stored⟩ := Run.of_eval patientStep_guarded checked
  exact ⟨_, t, run, table_growth emptyWalks_start run, of_decide_eq_true stored⟩

/-- Hart 0 published page 3 as the leaf table and has not zeroed it. Hart 1 stands at its entry 2,
stores a leaf entry, and the `memset` of hart 0 erases it. In a second run both harts map one
address: both find the entry empty, and the second store replaces the first. -/
theorem table_growth_late_memset_small :
    (∃ (first second : List (Fin 2 × WalkOp)) (t u : Walks 2), Run (WalksStep 1) emptyWalks first t ∧
      (t.walkers 1).pc = .check 3 ∧ (t.walkers 0).pc = .wipe 1 2 3 ∧ ¬ NothingLost t ∧
      Run (WalksStep 1) t second u ∧
      (1, .stored (3, 2) 0x20000401) ∈ u.log ∧ u.mem 3 2 = 0 ∧ ¬ NothingLost u) ∧
    ∃ (es : List (Fin 2 × WalkOp)) (t : Walks 2), Run (WalksStep 1) emptyWalks es t ∧
      (0, .stored (3, 1) 0x20000001) ∈ t.log ∧ t.mem 3 1 = 0x20000401 ∧ ¬ NothingLost t := by
  have sound : ∀ (s : Walks 2) e t, s.step 1 e = some t → WalksStep 1 s e t := fun _ _ _ step => step
  constructor
  · have checked : (evalRun (Walks.step 1) emptyWalks
        [(0, .start 0x1000 0x80000000 0), (0, .go), (0, .alloc 2 fun _ => 0), (0, .go), (0, .go), (0, .go),
          (0, .alloc 3 fun _ => 0), (0, .go), (1, .start 0x2000 0x80001000 0), (1, .go), (1, .go), (1, .go),
          (1, .go)]).any
        (fun t => decide ((t.walkers 1).pc = .check 3 ∧ (t.walkers 0).pc = .wipe 1 2 3) &&
          (evalRun (Walks.step 1) t [(1, .go), (1, .go), (0, .go)]).any fun u =>
            decide ((1, .stored (3, 2) 0x20000401) ∈ u.log ∧ u.mem 3 2 = 0)) = true := by decide +kernel
    obtain ⟨t, run, passed⟩ := Run.of_eval sound checked
    simp only [Bool.and_eq_true, decide_eq_true_eq] at passed
    obtain ⟨⟨stands, wipes⟩, rest⟩ := passed
    obtain ⟨u, run', last⟩ := Run.of_eval sound rest
    obtain ⟨stored, erased⟩ := of_decide_eq_true last
    refine ⟨_, _, t, u, run, stands, wipes, fun safe => ?_, run', stored, erased, fun safe => ?_⟩
    · exact safe.zeroed 1 3 (by rw [stands]; rfl) ⟨0, by rw [wipes]; rfl⟩
    · exact absurd (erased.symm.trans (safe.kept 1 _ _ stored)) (by decide)
  · have checked : (evalRun (Walks.step 1) emptyWalks
        [(0, .start 0x1000 0x80000000 0), (0, .go), (0, .alloc 2 fun _ => 0), (0, .go), (0, .go), (0, .go),
          (0, .alloc 3 fun _ => 0), (0, .go), (0, .go), (1, .start 0x1000 0x80001000 0), (1, .go), (1, .go),
          (1, .go), (1, .go), (0, .go), (1, .go), (0, .go), (1, .go)]).any
        (fun t => decide ((0, .stored (3, 1) 0x20000001) ∈ t.log ∧ t.mem 3 1 = 0x20000401)) = true := by
        decide +kernel
    obtain ⟨t, run, passed⟩ := Run.of_eval sound checked
    obtain ⟨stored, replaced⟩ := of_decide_eq_true passed
    exact ⟨_, t, run, stored, replaced,
      fun safe => absurd (replaced.symm.trans (safe.kept 0 _ _ stored)) (by decide)⟩

end Pke.Proofs
