import Pke.Proofs.MapPages

/-! # What `elf_load` does to a page table

The effect of loading segments at arbitrary addresses: a segment gets one page, and `map_pages` maps
that page and, if the address of the segment is not aligned, the physical page behind it. The tables
stay trees, since the pages that `alloc_page` returns are not in use.
-/

namespace Pke.Proofs

open Pke.Lib Pke.Model

variable {σ : Type} {env : PageEnv σ} {trapSec : ℕ}

/-- A supply whose pages are not in use, whatever the processes map. -/
structure Pages (env : PageEnv σ) (trapSec : ℕ) extends Supply env trapSec where
  fresh : ∀ {k : Kernel σ} {pa : ℕ} {pool : σ}, Ok k → env.alloc k = .ok pa pool →
    ∃ f, pa = f * PGSIZE ∧ KERN_BASE ≤ f * PGSIZE ∧ f < 2 ^ 44 ∧ f ∉ handed k.trace ∧ Ok (k.took pa pool)

def pmmPages (lay : Layout) : Pages pmmEnv (lay.trapSecStart / PGSIZE) where
  toSupply := pmmSupply lay
  fresh ok call := by
    obtain ⟨f, address, ram, small, fresh, _, next⟩ := PoolOk.alloc ok call
    exact ⟨f, address, ram, small, fresh, next⟩

/-- The page table with root `r` is intact, its pages are in use, and so is the supply. -/
structure Site (P : Pages env trapSec) (k : Kernel σ) (r : ℕ) (own : Owner) : Prop where
  ok : P.Ok k
  tables : Tables k.mem own
  root : own r = some (r, [])
  taken : ∀ t, own t ≠ none → t ∈ handed k.trace

theorem Space.site {P : Pages env trapSec} {k : Kernel σ} {own : Owner}
    (space : Space P.toSupply k own) {pid : ℕ} (inside : HasSpace k pid) : Site P k (rootOf k pid) own :=
  ⟨space.ok, space.tables, space.roots pid inside, space.reserved⟩

/-- What building up a page table leaves alone: processes, and pages in use that are not tables. -/
structure Keeps (k : Kernel σ) (own : Owner) (k' : Kernel σ) (own' : Owner) : Prop where
  procs : k'.procs = k.procs
  current : k'.current = k.current
  taken : ∀ f ∈ handed k.trace, f ∈ handed k'.trace
  data : ∀ f ∈ handed k.trace, own f = none → own' f = none ∧ k'.mem f = k.mem f

namespace Keeps

variable {k k' k'' : Kernel σ} {own own' own'' : Owner}

theorem refl (k : Kernel σ) (own : Owner) : Keeps k own k own :=
  ⟨rfl, rfl, fun _ inside => inside, fun _ _ free => ⟨free, rfl⟩⟩

theorem trans (first : Keeps k own k' own') (second : Keeps k' own' k'' own'') : Keeps k own k'' own'' := by
  refine ⟨second.procs.trans first.procs, second.current.trans first.current,
    fun f inside => second.taken f (first.taken f inside), fun f inside free => ?_⟩
  obtain ⟨free', same⟩ := first.data f inside free
  obtain ⟨free'', same'⟩ := second.data f (first.taken f inside) free'
  exact ⟨free'', same'.trans same⟩

end Keeps

/-- What adding tables below a root does: the pages that it takes become tables of the tree. -/
structure Grafts (P : Pages env trapSec) (r : ℕ) (k : Kernel σ) (own : Owner) (k' : Kernel σ)
    (own' : Owner) : Prop
    extends Keeps k own k' own' where
  site : Site P k' r own'
  rooted : Rooted k.mem r own → Rooted k'.mem r own'
  tables : ∀ t, own t ≠ none → own' t ≠ none
  pages : ∃ frames : List ℕ, k'.trace = frames.map (fun f => .alloc (f * PGSIZE)) ++ k.trace ∧
    ∀ f ∈ frames, own' f ≠ none

namespace Grafts

variable {P : Pages env trapSec} {k k' k'' : Kernel σ} {r : ℕ} {own own' own'' : Owner}

theorem refl (site : Site P k r own) : Grafts P r k own k own :=
  ⟨.refl k own, site, id, fun _ named => named, [], rfl, by simp⟩

theorem trans (first : Grafts P r k own k' own') (second : Grafts P r k' own' k'' own'') :
    Grafts P r k own k'' own'' := by
  refine ⟨first.toKeeps.trans second.toKeeps, second.site, fun rooted => second.rooted (first.rooted rooted),
    fun t named => second.tables t (first.tables t named), ?_⟩
  obtain ⟨frames, trace, named⟩ := first.pages
  obtain ⟨frames', trace', named'⟩ := second.pages
  refine ⟨frames' ++ frames, by rw [trace', trace, List.map_append, List.append_assoc], fun f member => ?_⟩
  rcases List.mem_append.mp member with late | early
  · exact named' f late
  · exact second.tables f (named f early)

end Grafts

namespace Site

variable {P : Pages env trapSec} {k : Kernel σ} {r : ℕ} {own : Owner} {stop : Stop → Prop}

/-- A page from the supply is a page that nobody uses. -/
theorem alloc (site : Site P k r own) (errors : AllocStops env stop) :
    Ensures env.allocPage k (fun pa k' => ∃ f pool, env.alloc k = .ok pa pool ∧ pa = f * PGSIZE ∧
      pa ≠ 0 ∧ f < 2 ^ 44 ∧
      f ∉ handed k.trace ∧ f ∈ handed k'.trace ∧ own f = none ∧ k'.mem = k.mem ∧
      k'.trace = .alloc (f * PGSIZE) :: k.trace ∧
      Site P k' r own ∧ Keeps k own k' own) stop := by
  rw [Ensures, PageEnv.allocPage]
  cases take : env.alloc k with
  | error e pool => exact errors k e pool take
  | ok pa pool =>
    obtain ⟨f, rfl, ram, small, fresh, ok⟩ := P.fresh site.ok take
    have more : ∀ g ∈ handed k.trace, g ∈ handed (k.took (f * PGSIZE) pool).trace := fun g inside => by
      rw [Kernel.took, handed_alloc]
      exact List.mem_cons_of_mem _ inside
    have new : f ∈ handed (k.took (f * PGSIZE) pool).trace := by
      rw [Kernel.took, handed_alloc]
      exact List.mem_cons_self
    have free : own f = none := by
      by_contra table
      exact fresh (site.taken f table)
    exact ⟨f, pool, rfl, rfl, ram_ne_zero ram, small, fresh, new, free, rfl, rfl,
      ⟨ok, site.tables, site.root, fun t table => more t (site.taken t table)⟩, rfl, rfl, more,
        fun _ _ free => ⟨free, rfl⟩⟩

/-- Hanging a page that `alloc_page` just returned into the tables. -/
theorem hang {k₁ : Kernel σ} (site₁ : Site P k₁ r own) (keeps : Keeps k own k₁ own) {pt i f : ℕ}
    {p : List ℕ} (named : own pt = some (r, p)) (short : p.length < 2) (empty : k₁.mem pt i = 0)
    (free : own f = none) (small : f < 2 ^ 44) (fresh : f ∉ handed k.trace) (taken : f ∈ handed k₁.trace) :
    Site P { k₁ with mem := Tables.hang k₁.mem pt i f } r (Function.update own f (some (r, p ++ [i]))) ∧
      Keeps k own { k₁ with mem := Tables.hang k₁.mem pt i f }
      (Function.update own f (some (r, p ++ [i]))) := by
  have notFresh : ∀ {t q}, own t = some q → t ≠ f := by
    rintro t q owner rfl
    rw [free] at owner
    cases owner
  refine ⟨⟨?_, site₁.tables.hang_tables named short free small, ?_, fun t table => ?_⟩, keeps.procs,
    keeps.current, keeps.taken, fun g inUse data => ?_⟩
  · exact P.stable (k := k₁) rfl rfl rfl site₁.ok
  · rw [Function.update_of_ne (notFresh site₁.root)]
    exact site₁.root
  · by_cases here : t = f
    · exact here ▸ taken
    · rw [Function.update_of_ne here] at table
      exact site₁.taken t table
  · obtain ⟨_, same⟩ := keeps.data g inUse data
    have apart : g ≠ f := by
      rintro rfl
      exact fresh inUse
    have table : g ≠ pt := by
      rintro rfl
      rw [data] at named
      cases named
    rw [Function.update_of_ne apart, ← same]
    refine ⟨data, funext fun j => Tables.hang_other apart (Or.inl table)⟩

/-- One round of a walk that may add a table. -/
theorem walkRound (errors : AllocStops env stop) (site : Site P k r own) {va pt n : ℕ} {p : List ℕ}
    (named : own pt = some (r, p)) (short : p.length < 2) {post : Option ℕ → Kernel σ → Prop}
    (next : ∀ k' own' pt', Grafts P r k own k' own' →
      (∀ va', translate k'.mem r va' = translate k.mem r va') →
      (∀ t j, own t ≠ none → k.mem t j ≠ 0 → own' t = own t ∧ k'.mem t j = k.mem t j) →
      own' pt' = some (r, p ++ [PX (n + 1) va]) → has (k'.mem pt (PX (n + 1) va)) PTE_V = true →
      PTE2PA (k'.mem pt (PX (n + 1) va)) / PGSIZE = pt' →
      Ensures (pageWalkLoop env va 0 true n pt') k' post stop) :
    Ensures (pageWalkLoop env va 0 true (n + 1) pt) k post stop := by
  have supply : Ensures env.allocPage k (fun pa k' => ∃ f, pa = f * PGSIZE ∧ pa ≠ 0 ∧ f < 2 ^ 44 ∧
      own f = none ∧
      k'.mem = k.mem ∧ (f ∉ handed k.trace ∧ f ∈ handed k'.trace ∧ k'.trace = .alloc (f * PGSIZE) :: k.trace ∧
        Site P k' r own ∧
      Keeps k own k' own)) stop := by
    apply Ensures.mono (site.alloc errors)
    rintro _ _ ⟨f, _, _, rfl, nonzero, small, fresh, taken, free, mem, trace, site₁, keeps⟩
    exact ⟨f, rfl, nonzero, small, free, mem, fresh, taken, trace, site₁, keeps⟩
  apply site.tables.walkRound named short supply
  · intro valid
    obtain ⟨_, child⟩ := site.tables.down named short (px_lt _ va) valid
    exact next k own _ (.refl site) (fun _ => rfl) (fun _ _ _ _ => ⟨rfl, rfl⟩) child valid rfl
  · rintro k₁ f ⟨fresh, taken, trace, site₁, keeps⟩ free small mem empty valid entry
    obtain ⟨site₂, keeps₂⟩ := site₁.hang keeps named short empty free small fresh taken
    have grafts : Grafts P r k own { k₁ with mem := Tables.hang k₁.mem pt (PX (n + 1) va) f }
        (Function.update own f (some (r, p ++ [PX (n + 1) va]))) := by
      refine ⟨keeps₂, site₂, fun rooted => ?_, fun t table => ?_, [f], trace, fun g member => ?_⟩
      · rw [← mem] at rooted
        exact rooted.hang named short (px_lt _ va) empty free small
      · rw [Function.update_of_ne]
        · exact table
        · rintro rfl
          exact table free
      · rw [List.mem_singleton.mp member, Function.update_self]
        exact Option.some_ne_none _
    refine next _ _ f grafts (fun va' => ?_) (fun t j table stored => ?_) (Function.update_self ..) valid entry
    · exact (site₁.tables.hang_translate named short free small empty site.root).trans (by rw [mem])
    · have other : t ≠ f := by
        rintro rfl
        exact table free
      refine ⟨Function.update_of_ne other _ _, ?_⟩
      rw [← mem] at stored ⊢
      apply Tables.hang_other other
      by_contra both
      push Not at both
      rw [both.1, both.2] at stored
      exact stored empty

/-- `page_walk` with `alloc` set finds or makes the leaf table. -/
theorem walk {dir va : ℕ} (errors : AllocStops env stop) (site : Site P k (dir / PGSIZE) own)
    (range : ¬ (0 < va ∧ va < MAXVA) → ∀ text, stop (.kassertFailed text)) :
    Ensures (pageWalk env dir va 0 true) k (fun slot? k' => 0 < va ∧ va < MAXVA ∧
      ∃ own' t, slot? = some (t, PX 0 va) ∧
      Grafts P (dir / PGSIZE) k own k' own' ∧ leafTable k'.mem (dir / PGSIZE) va = some t ∧
      ∀ va', translate k'.mem (dir / PGSIZE) va' = translate k.mem (dir / PGSIZE) va') stop := by
  rw [pageWalk]
  by_cases inside : 0 < va ∧ va < MAXVA
  · refine Ensures.step (rangeCheck inside k) ?_
    have loop : Ensures (pageWalkLoop env va 0 true 2 (dir / PGSIZE)) k (fun pt? k' => ∃ own' t, pt? = some t ∧
        Grafts P (dir / PGSIZE) k own k' own' ∧ leafTable k'.mem (dir / PGSIZE) va = some t ∧
        ∀ va', translate k'.mem (dir / PGSIZE) va' = translate k.mem (dir / PGSIZE) va') stop := by
      refine site.walkRound errors site.root (by simp) fun k₁ own₁ t₁ grafts₁ same₁ _ owner₁ valid₁ entry₁ => ?_
      refine grafts₁.site.walkRound errors owner₁ (by simp) fun k₂ own₂ t₂ grafts₂ same₂ entries₂ owner₂
        valid₂ entry₂ => ?_
      have table : own₁ (dir / PGSIZE) ≠ none := by rw [grafts₁.site.root]; simp
      have kept := (entries₂ (dir / PGSIZE) (PX 2 va) table (Tables.valid_ne_zero valid₁)).2
      refine ⟨own₂, t₂, rfl, grafts₁.trans grafts₂, ?_, fun va' => (same₂ va').trans (same₁ va')⟩
      change has (k₁.mem (dir / PGSIZE) (PX 2 va)) PTE_V = true at valid₁
      change PTE2PA (k₁.mem (dir / PGSIZE) (PX 2 va)) / PGSIZE = t₁ at entry₁
      change has (k₂.mem t₁ (PX 1 va)) PTE_V = true at valid₂
      change PTE2PA (k₂.mem t₁ (PX 1 va)) / PGSIZE = t₂ at entry₂
      simp only [leafTable, kept, valid₁, entry₁, valid₂, entry₂, if_true]
    refine Ensures.bind loop ?_
    rintro _ k' ⟨own', t, rfl, rest⟩
    exact ⟨inside.1, inside.2, own', t, rfl, rest⟩
  · exact Ensures.fails (rangeCheck_fails inside k) (range inside _)

/-- Storing the leaf entry of an address. -/
theorem setLeaf (site : Site P k r own) {va t : ℕ} (found : leafTable k.mem r va = some t) (pte : ℕ) :
    Site P (k.setWord t (PX 0 va) pte) r own ∧ Keeps k own (k.setWord t (PX 0 va) pte) own ∧
      ∀ va', translate (k.setWord t (PX 0 va) pte).mem r va' = if pageOf va' = pageOf va then pte
      else translate k.mem r va' := by
  have named := site.tables.leafTable_owner site.root found
  have tables := site.tables.congr fun _ _ _ =>
    Tables.update_leaf named rfl (Function.update (k.mem t) (PX 0 va) pte)
  refine ⟨⟨P.stable (k := k) rfl rfl rfl site.ok, tables, site.root, site.taken⟩,
    ⟨rfl, rfl, fun _ inside => inside, ?_⟩, ?_⟩
  · intro f _ free
    refine ⟨free, Function.update_of_ne ?_ _ _⟩
    rintro rfl
    rw [free] at named
    cases named
  · intro va'
    refine (site.tables.translate_setLeaf site.root site.root found pte).trans ?_
    simp only [true_and]

end Site

/-- The addresses and the physical pages of `n` rounds of `map_pages`. -/
def pagesFrom : ℕ → ℕ → ℕ → List (ℕ × ℕ)
  | 0, _, _ => []
  | n + 1, first, f => (first, f) :: pagesFrom n (first + PGSIZE) (f + 1)

/-- These pages were not mapped, and now they are; other translations are the same. -/
structure MapsPages (mem : ℕ → ℕ → ℕ) (r perm : ℕ) (pages : List (ℕ × ℕ)) (mem' : ℕ → ℕ → ℕ) : Prop where
  range : ∀ m ∈ pages, 0 < m.1 ∧ m.1 < MAXVA
  vacant : ∀ m ∈ pages, has (translate mem r m.1) PTE_V = false
  entries : ∀ m ∈ pages, translate mem' r m.1 = m.2 * 2 ^ 10 ||| perm ||| PTE_V
  others : ∀ va, (∀ m ∈ pages, pageOf va ≠ pageOf m.1) → translate mem' r va = translate mem r va
  distinct : pages.Pairwise fun m m' => pageOf m'.1 ≠ pageOf m.1

namespace MapsPages

variable {mem mem₁ mem₂ : ℕ → ℕ → ℕ} {r perm : ℕ} {first second : List (ℕ × ℕ)}

theorem nil (same : ∀ va, translate mem₁ r va = translate mem r va) : MapsPages mem r perm [] mem₁ :=
  ⟨by simp, by simp, by simp, fun va _ => same va, .nil⟩

theorem congr (maps : MapsPages mem r perm first mem₁)
    (before : ∀ va, translate mem r va = translate mem₂ r va) :
    MapsPages mem₂ r perm first mem₁ :=
  ⟨maps.range, fun m member => before m.1 ▸ maps.vacant m member, maps.entries,
    fun va elsewhere => (maps.others va elsewhere).trans (before va), maps.distinct⟩

/-- A page that is mapped later was vacant in between, so it is another page. -/
theorem apart (left : MapsPages mem r perm first mem₁) (right : MapsPages mem₁ r perm second mem₂) :
    ∀ m ∈ first, ∀ m' ∈ second, pageOf m'.1 ≠ pageOf m.1 := by
  intro m member m' member' equal
  have vacant := right.vacant m' member'
  rw [translate_congr equal, left.entries m member, has_valid_or] at vacant
  cases vacant

theorem append (left : MapsPages mem r perm first mem₁) (right : MapsPages mem₁ r perm second mem₂) :
    MapsPages mem r perm (first ++ second) mem₂ := by
  have apart := left.apart right
  constructor
  · intro m member
    rcases List.mem_append.mp member with early | late
    · exact left.range m early
    · exact right.range m late
  · intro m member
    rcases List.mem_append.mp member with early | late
    · exact left.vacant m early
    · rw [← left.others m.1 fun m' early => apart m' early m late]
      exact right.vacant m late
  · intro m member
    rcases List.mem_append.mp member with early | late
    · rw [right.others m.1 fun m' late => (apart m early m' late).symm]
      exact left.entries m early
    · exact right.entries m late
  · intro va elsewhere
    rw [right.others va fun m late => elsewhere m (List.mem_append_right _ late),
      left.others va fun m early => elsewhere m (List.mem_append_left _ early)]
  · exact List.pairwise_append.mpr ⟨left.distinct, right.distinct, apart⟩

end MapsPages

/-- Storing a valid entry after a walk that may have added tables. -/
theorem Grafts.setLeaf {P : Pages env trapSec} {k k₁ : Kernel σ} {r va t pte : ℕ} {own own₁ : Owner}
    (grafts : Grafts P r k own k₁ own₁) (found : leafTable k₁.mem r va = some t)
    (valid : has pte PTE_V = true) :
    Grafts P r k own (k₁.setWord t (PX 0 va) pte) own₁ ∧
    ∀ va', translate (k₁.setWord t (PX 0 va) pte).mem r va' =
      if pageOf va' = pageOf va then pte else translate k₁.mem r va' := by
  obtain ⟨site, keeps, ptes⟩ := grafts.site.setLeaf found pte
  have named := grafts.site.tables.leafTable_owner grafts.site.root found
  exact ⟨⟨grafts.toKeeps.trans keeps, site,
    fun rooted => (grafts.rooted rooted).setLeaf named rfl pte fun _ => valid,
    grafts.tables, grafts.pages⟩, ptes⟩

/-- One round of the loop of `map_pages`. -/
theorem Site.mapRound {P : Pages env trapSec} {stop : Stop → Prop} {dir perm n first pa : ℕ}
    {k : Kernel σ} {own : Owner} {post : Bool → Kernel σ → Prop} (errors : AllocStops env stop)
    (site : Site P k (dir / PGSIZE) own) (range : ¬ (0 < first ∧ first < MAXVA) →
      ∀ text, stop (.kassertFailed text))
    (taken : has (translate k.mem (dir / PGSIZE) first) PTE_V = true → ∀ text, stop (.panic text))
    (next : ∀ k' own', 0 < first → first < MAXVA → has (translate k.mem (dir / PGSIZE) first) PTE_V = false →
      Grafts P (dir / PGSIZE) k own k' own' →
      (∀ va, translate k'.mem (dir / PGSIZE) va =
        if pageOf va = pageOf first then PA2PTE pa ||| perm ||| PTE_V else translate k.mem (dir / PGSIZE) va) →
      Ensures (mapPagesLoop env dir perm n ((first + PGSIZE) % WORD) ((pa + PGSIZE) % WORD)) k' post stop) :
    Ensures (mapPagesLoop env dir perm (n + 1) first pa) k post stop := by
  rw [mapPagesLoop]
  refine Ensures.bind (site.walk errors range) ?_
  rintro _ k₁ ⟨low, high, own₁, t, rfl, grafts, found, same₁⟩
  have entry : k₁.mem t (PX 0 first) = translate k.mem (dir / PGSIZE) first := by
    rw [← same₁, translate, found]
  refine Ensures.step (get_apply k₁) ?_
  simp only [pteAt, entry]
  by_cases valid : has (translate k.mem (dir / PGSIZE) first) PTE_V = true
  · rw [if_pos valid]
    exact Ensures.throw (taken valid _)
  rw [if_neg valid]
  refine Ensures.step (modify_apply _ _) ?_
  obtain ⟨grafts', ptes⟩ := grafts.setLeaf found (has_valid_or (PA2PTE pa ||| perm))
  refine next _ own₁ low high (Bool.eq_false_of_not_eq_true valid) grafts' fun va => ?_
  rw [ptes, same₁]

/-- The loop of `map_pages`. -/
theorem Site.mapLoop {P : Pages env trapSec} {dir perm : ℕ} :
    ∀ (n first f : ℕ) (k : Kernel σ) (own : Owner), Site P k (dir / PGSIZE) own → f + n ≤ 2 ^ 44 + 1 →
      Yields (mapPagesLoop env dir perm n first (f * PGSIZE)) k fun done k' => done = true ∧
      MapsPages k.mem (dir / PGSIZE) perm (pagesFrom n first f) k'.mem ∧
      ∃ own', Grafts P (dir / PGSIZE) k own k' own' := by
  intro n
  induction n with
  | zero =>
    intro first f k own site _
    exact ⟨rfl, .nil fun _ => rfl, own, .refl site⟩
  | succ n ih =>
    intro first f k own site small
    refine site.mapRound (trivialStops env) (fun _ _ => trivial) (fun _ _ => trivial) ?_
    intro k₁ own₁ low high vacant grafts₁ ptes₁
    rw [PA2PTE_page] at ptes₁
    have nextVa : (first + PGSIZE) % WORD = first + PGSIZE := by
      simp only [MAXVA, PGSIZE, WORD] at *
      omega
    have nextPa : (f * PGSIZE + PGSIZE) % WORD = (f + 1) * PGSIZE := by
      simp only [PGSIZE, WORD] at *
      omega
    have head : MapsPages k.mem (dir / PGSIZE) perm [(first, f)] k₁.mem := by
      refine ⟨?_, ?_, ?_, fun va elsewhere => ?_, List.pairwise_singleton _ _⟩
      · rintro _ (_ | ⟨_, ⟨⟩⟩)
        exact ⟨low, high⟩
      · rintro _ (_ | ⟨_, ⟨⟩⟩)
        exact vacant
      · rintro _ (_ | ⟨_, ⟨⟩⟩)
        exact (ptes₁ first).trans (if_pos rfl)
      · rw [ptes₁, if_neg (elsewhere _ List.mem_cons_self)]
    rw [nextVa, nextPa]
    refine Ensures.mono (ih (first + PGSIZE) (f + 1) _ own₁ grafts₁.site (by omega)) ?_
    rintro done k' ⟨finished, rest, own', grafts'⟩
    exact ⟨finished, head.append rest, own', grafts₁.trans grafts'⟩

/-- The number of pages that `map_pages(va, PGSIZE)` maps: two if the address is not aligned, and
none if the end of the page is beyond the last address. -/
def roundsFor (va : ℕ) : ℕ := if va % PGSIZE = 0 then 1 else if va + PGSIZE ≤ WORD then 2 else 0

/-- The pages that `elf_alloc_mb` maps for a segment at `va` whose page is `f`. -/
def segmentMappings (va f : ℕ) : List (ℕ × ℕ) := pagesFrom (roundsFor va) (ROUNDDOWN va PGSIZE) f

theorem mapPages_roundsFor (env : PageEnv σ) (dir pa perm : ℕ) {va : ℕ} (word : va < WORD) :
    mapPages env dir va PGSIZE pa perm = mapPagesLoop env dir perm (roundsFor va) (ROUNDDOWN va PGSIZE) pa := by
  have count : (if ROUNDDOWN va PGSIZE ≤ ROUNDDOWN ((va + PGSIZE + WORD - 1) % WORD) PGSIZE then
      (ROUNDDOWN ((va + PGSIZE + WORD - 1) % WORD) PGSIZE - ROUNDDOWN va PGSIZE) / PGSIZE + 1 else 0) =
      roundsFor va := by
    rw [roundsFor]
    by_cases aligned : va % PGSIZE = 0
    · rw [if_pos aligned, roundDown_self aligned, roundDown_last aligned word, if_pos le_rfl,
        Nat.sub_self, Nat.zero_div]
    rw [if_neg aligned]
    by_cases below : va + PGSIZE ≤ WORD
    · have last : ROUNDDOWN ((va + PGSIZE + WORD - 1) % WORD) PGSIZE = ROUNDDOWN va PGSIZE + PGSIZE := by
        simp only [ROUNDDOWN, PGSIZE, WORD] at *
        omega
      rw [last, if_pos (Nat.le_add_right _ _), Nat.add_sub_cancel_left, if_pos below, Nat.div_self (by decide)]
    · have last : ROUNDDOWN ((va + PGSIZE + WORD - 1) % WORD) PGSIZE < ROUNDDOWN va PGSIZE := by
        simp only [ROUNDDOWN, PGSIZE, WORD] at *
        omega
      rw [if_neg (Nat.not_le.mpr last), if_neg below]
  simp only [mapPages, count]

private theorem roundsFor_le (va : ℕ) : roundsFor va ≤ 2 := by
  rw [roundsFor]
  split_ifs
  · decide
  · decide
  · decide

/-- The entry of a page that holds a segment. -/
def segmentPerm : ℕ := protToType true true true true

section

variable {P : Pages env trapSec} {k : Kernel σ} {own : Owner} {pid : ℕ}

/-- Filling a page that was not in use before. -/
theorem Keeps.setPage {k₁ : Kernel σ} {own₁ : Owner} (keeps : Keeps k own k₁ own₁) {f : ℕ}
    (fresh : f ∉ handed k.trace) (words : ℕ → ℕ) : Keeps k own (k₁.setPage f words) own₁ := by
  refine ⟨keeps.procs, keeps.current, keeps.taken, fun g inside free => ?_⟩
  obtain ⟨free', same⟩ := keeps.data g inside free
  refine ⟨free', (Function.update_of_ne ?_ _ _).trans same⟩
  rintro rfl
  exact fresh inside

theorem Site.setPage {r : ℕ} (site : Site P k r own) {f : ℕ} (free : own f = none) (words : ℕ → ℕ) :
    Site P (k.setPage f words) r own ∧ ∀ va, translate (k.setPage f words).mem r va = translate k.mem r va := by
  have tables : Tables (k.setPage f words).mem own :=
    site.tables.congr fun _ _ _ named _ => Tables.update_data free words named
  exact ⟨⟨P.stable (k := k) rfl rfl rfl site.ok, tables, site.root, site.taken⟩,
    fun va => site.tables.translate_data free words site.root⟩

/-- `user_vm_map` of one page at any address. -/
theorem Site.userVmMap {dir va f perm : ℕ} (site : Site P k (dir / PGSIZE) own) (word : va < WORD)
    (small : f < 2 ^ 44) :
    Yields (userVmMap env dir va PGSIZE (f * PGSIZE) perm) k fun _ k' => MapsPages k.mem (dir / PGSIZE)
      perm (segmentMappings va f) k'.mem ∧ ∃ own', Grafts P (dir / PGSIZE) k own k' own' := by
  rw [Model.userVmMap, mapPages_roundsFor env _ _ _ word]
  have rounds := roundsFor_le va
  refine Ensures.bind (Site.mapLoop (roundsFor va) (ROUNDDOWN va PGSIZE) f k own site (by omega)) ?_
  rintro _ k' ⟨rfl, maps, rest⟩
  exact ⟨maps, rest⟩

/-- `elf_alloc_mb` obtains one page and maps it, and the page behind it for an address that is not aligned. -/
theorem Site.elfAllocMb (site : Site P k (rootOf k pid) own) {va size : ℕ} (word : va < WORD) :
    Yields (elfAllocMb env pid va size) k fun dest k' => ∃ f own', dest = f * PGSIZE ∧
    size < PGSIZE ∧ f < 2 ^ 44 ∧
      f ∉ handed k.trace ∧ f ∈ handed k'.trace ∧ own' f = none ∧ (k'.mem f = fun _ => 0) ∧
      Site P k' (rootOf k pid) own' ∧ Keeps k own k' own' ∧
      MapsPages k.mem (rootOf k pid) segmentPerm (segmentMappings va f) k'.mem ∧
      (Rooted k.mem (rootOf k pid) own → Rooted k'.mem (rootOf k pid) own') := by
  rw [Model.elfAllocMb]
  by_cases fits : size < PGSIZE
  · have check : kassert (decide (size < PGSIZE)) "size < PGSIZE" k = .ok () k := by simp [kassert, fits]
    refine Ensures.step check ?_
    refine Ensures.bind (site.alloc (trivialStops env)) ?_
    rintro _ k₁ ⟨f, _, _, rfl, nonzero, small, fresh, taken, free, mem, _, site₁, keeps₁⟩
    rw [if_neg nonzero, Nat.mul_div_cancel f (show 0 < PGSIZE by decide)]
    refine Ensures.step (modify_apply _ _) ?_
    obtain ⟨site₂, same₂⟩ := site₁.setPage free fun _ => 0
    have keeps₂ := keeps₁.setPage fresh fun _ => 0
    refine Ensures.step (get_apply _) ?_
    have root : ((k₁.setPage f fun _ => 0).procs pid).pagetable = (k.procs pid).pagetable := by
      rw [show (k₁.setPage f fun _ => 0).procs = k.procs from keeps₁.procs]
    rw [root]
    refine Ensures.bind (site₂.userVmMap word small) ?_
    rintro _ k' ⟨maps, own', grafts⟩
    have inUse : f ∈ handed (k₁.setPage f fun _ => 0).trace := taken
    obtain ⟨free', blank⟩ := grafts.data f inUse free
    have before : ∀ a, translate (k₁.setPage f fun _ => 0).mem (rootOf k pid) a =
      translate k.mem (rootOf k pid) a := fun a => by
      rw [same₂, mem]
    refine ⟨f, own', rfl, fits, small, fresh, grafts.taken f inUse, free',
      blank.trans (Function.update_self ..), grafts.site, keeps₂.trans grafts.toKeeps, maps.congr before,
      fun rooted => grafts.rooted (rooted.keep fun t table => ?_)⟩
    rw [← mem]
    refine Function.update_of_ne ?_ _ _
    rintro rfl
    exact table free
  · have check : kassert (decide (size < PGSIZE)) "size < PGSIZE" k =
      .error (.kassertFailed "size < PGSIZE") k := by
      simp [kassert, fits]
    exact Ensures.fails check trivial

end

/-- The process after a segment was entered in its region table. -/
def registerSegment (va : ℕ) (type : SegmentType) (p : Process) : Process :=
  { p with
    regions := Function.update p.regions (freeRegion p.regions) ⟨va, 1, type⟩
    totalMappedRegion := p.totalMappedRegion + 1 }

/-- The words of a page after the bytes of a segment were read to its start. -/
def segmentWords (file : HostFile) (ph : ProgHeader) (old : ℕ → ℕ) : ℕ → ℕ :=
  storedWord old ph.memsz fun n => (file.byte (ph.off + n)).toNat

/-- A segment was loaded and the loop goes on. -/
theorem loadSegment_none {pid : ℕ} {file : HostFile} {ph : ProgHeader} {k k' : Kernel σ}
    (call : loadSegment env pid file ph k = .ok none k') :
    ∃ dest k₁ type, ph.filesz ≤ ph.memsz ∧ elfAllocMb env pid ph.vaddr ph.memsz k = .ok dest k₁ ∧
      file.pread ph.memsz ph.off = ph.memsz ∧ segmentOf ph.flags = some type ∧
      k' = (k₁.setPage (dest / PGSIZE) (segmentWords file ph (k₁.mem (dest / PGSIZE)))).setProc pid
        (registerSegment ph.vaddr type) := by
  rw [loadSegment] at call
  split_ifs at call with large wraps
  · cases call
  · cases call
  obtain ⟨dest, k₁, inner, rest⟩ := bind_eq_ok.mp call
  rw [bind_of_ok (modify_apply _ k₁)] at rest
  split_ifs at rest with short
  · cases rest
  have whole := not_not.mp short
  rw [bind_of_ok (get_apply _), bind_of_ok (modify_apply _ _), whole] at rest
  cases found : segmentOf ph.flags with
  | none =>
    rw [found] at rest
    cases rest
  | some type =>
    simp only [found, bind_of_ok (modify_apply _ _)] at rest
    obtain ⟨-, rfl⟩ := EStateM.Result.ok.inj rest
    refine ⟨dest, k₁, type, Nat.not_lt.mp large, inner, whole, rfl, ?_⟩
    simp only [Kernel.setProc, registerSegment, Function.update_self, Function.update_idem]
    rfl

/-- A segment that ends the loop is an error. -/
private theorem loadSegment_some {pid : ℕ} {file : HostFile} {ph : ProgHeader} {k k' : Kernel σ}
    {status : ElfStatus} (call : loadSegment env pid file ph k = .ok (some status) k') : status ≠ .EL_OK := by
  rintro rfl
  rw [loadSegment] at call
  split_ifs at call with large wraps
  · cases call
  · cases call
  obtain ⟨dest, k₁, _, rest⟩ := bind_eq_ok.mp call
  rw [bind_of_ok (modify_apply _ k₁)] at rest
  split_ifs at rest with short
  · cases rest
  rw [bind_of_ok (get_apply _), bind_of_ok (modify_apply _ _)] at rest
  cases found : segmentOf ph.flags with
  | none =>
    rw [found] at rest
    cases rest
  | some type =>
    simp only [found, bind_of_ok (modify_apply _ _)] at rest
    cases rest

/-- What loading a segment into page `f` does. -/
structure SegmentLoaded (P : Pages env trapSec) (pid : ℕ) (file : HostFile) (ph : ProgHeader) (f : ℕ)
    (k : Kernel σ) (own : Owner) (k' : Kernel σ) (own' : Owner) : Prop where
  filesz : ph.filesz ≤ ph.memsz
  memsz : ph.memsz < PGSIZE
  inside : file.pread ph.memsz ph.off = ph.memsz
  small : f < 2 ^ 44
  fresh : f ∉ handed k.trace
  inUse : f ∈ handed k'.trace
  free : own' f = none
  words : k'.mem f = segmentWords file ph fun _ => 0
  site : Site P k' (rootOf k pid) own'
  root : rootOf k' pid = rootOf k pid
  taken : ∀ g ∈ handed k.trace, g ∈ handed k'.trace
  data : ∀ g ∈ handed k.trace, own g = none → own' g = none ∧ k'.mem g = k.mem g
  maps : MapsPages k.mem (rootOf k pid) segmentPerm (segmentMappings ph.vaddr f) k'.mem
  procs : ∃ type, k'.procs = Function.update k.procs pid (registerSegment ph.vaddr type (k.procs pid))

namespace SegmentLoaded

variable {P : Pages env trapSec} {pid f : ℕ} {file : HostFile} {ph : ProgHeader} {k k' : Kernel σ}
  {own own' : Owner}

theorem siteNext (segment : SegmentLoaded P pid file ph f k own k' own') : Site P k' (rootOf k' pid) own' :=
  segment.root ▸ segment.site

/-- Only the region table of the process is changed. -/
theorem registered (segment : SegmentLoaded P pid file ph f k own k' own') :
    (∃ type, k'.procs pid = registerSegment ph.vaddr type (k.procs pid)) ∧
    ∀ j, j ≠ pid → k'.procs j = k.procs j := by
  obtain ⟨type, procs⟩ := segment.procs
  refine ⟨⟨type, ?_⟩, fun j other => ?_⟩
  · rw [procs, Function.update_self]
  · rw [procs, Function.update_of_ne other]

end SegmentLoaded

theorem Site.loadSegment {P : Pages env trapSec} {pid : ℕ} {file : HostFile} {ph : ProgHeader} {k k' : Kernel σ}
    {own : Owner} (site : Site P k (rootOf k pid) own) (word : ph.vaddr < WORD)
    (call : loadSegment env pid file ph k = .ok none k') :
    ∃ own', SegmentLoaded P pid file ph (segmentPage env pid ph k) k own k' own' ∧
      (Rooted k.mem (rootOf k pid) own → Rooted k'.mem (rootOf k pid) own') := by
  obtain ⟨dest, k₁, type, filesz, inner, whole, _, rfl⟩ := loadSegment_none call
  obtain ⟨f, own', rfl, memsz, small, fresh, inUse, free, blank, site₁, keeps, maps, rooted⟩ :=
    (site.elfAllocMb word).of_ok inner
  have page : segmentPage env pid ph k = f := by
    rw [segmentPage, inner]
    exact Nat.mul_div_cancel f (by decide)
  have div : f * PGSIZE / PGSIZE = f := Nat.mul_div_cancel f (by decide)
  rw [page, div, blank]
  obtain ⟨site₂, same₂⟩ := site₁.setPage free (segmentWords file ph fun _ => 0)
  have procs : ((k₁.setPage f (segmentWords file ph fun _ => 0)).setProc pid
      (registerSegment ph.vaddr type)).procs =
      Function.update k.procs pid (registerSegment ph.vaddr type (k.procs pid)) := by
    rw [← keeps.procs]
    rfl
  refine ⟨own', ⟨filesz, memsz, whole, small, fresh, inUse, free, Function.update_self .., ?_, ?_,
    keeps.taken, ?_, ?_, type, procs⟩, fun before => (rooted before).keep fun t table => ?_⟩
  · exact ⟨P.stable (k := k₁) rfl rfl rfl site₁.ok, site₂.tables, site₂.root, site₂.taken⟩
  · rw [rootOf, procs, Function.update_self]
    rfl
  · exact (keeps.setPage fresh (segmentWords file ph fun _ => 0)).data
  · refine ⟨maps.range, maps.vacant, fun m member => ?_, fun va elsewhere => ?_, maps.distinct⟩
    · exact (same₂ m.1).trans (maps.entries m member)
    · exact (same₂ va).trans (maps.others va elsewhere)
  · refine Function.update_of_ne ?_ _ _
    rintro rfl
    exact table free

/-- The header that `elf_load` reads in round `i`. -/
def headerAt (file : HostFile) (ehdr : ElfHeader) (i : ℕ) : ProgHeader :=
  file.progHeader (throughInt (ehdr.phoff + PROG_HEADER_SIZE * i))

/-- The loadable ones of `n` headers from header `i` on. -/
def loadHeaders (file : HostFile) (ehdr : ElfHeader) (i n : ℕ) : List ProgHeader :=
  ((List.range' i n).map (headerAt file ehdr)).filter fun ph => ph.type = ELF_PROG_LOAD

private theorem loadHeaders_succ (file : HostFile) (ehdr : ElfHeader)
    (i n : ℕ) : loadHeaders file ehdr i (n + 1) =
    if (headerAt file ehdr i).type = ELF_PROG_LOAD then headerAt file ehdr i :: loadHeaders file ehdr (i + 1) n
    else loadHeaders file ehdr (i + 1) n := by
  simp [loadHeaders, List.range'_succ, List.filter_cons]

theorem loadHeaders_word {file : HostFile} {ehdr : ElfHeader} {i n : ℕ} {ph : ProgHeader}
    (listed : ph ∈ loadHeaders file ehdr i n) : ph.vaddr < WORD := by
  obtain ⟨j, _, rfl⟩ := List.mem_map.mp (List.mem_of_mem_filter listed)
  exact vaddr_word file _

/-- Segments that are loaded one after the other, with their pages. -/
inductive Loads (env : PageEnv σ) (pid : ℕ) (file : HostFile) : Kernel σ → List (ProgHeader × ℕ) →
    Kernel σ → Prop
  | nil (k : Kernel σ) : Loads env pid file k [] k
  | cons {k k₁ k' : Kernel σ} {ph : ProgHeader} {segments : List (ProgHeader × ℕ)}
      (call : loadSegment env pid file ph k = .ok none k₁) (rest : Loads env pid file k₁ segments k') :
      Loads env pid file k ((ph, segmentPage env pid ph k) :: segments) k'

/-- One round of the loop of `elf_load`: it ends at a header that cannot be read, goes on behind a
header that is not loadable, or loads a segment. -/
inductive LoopRound (env : PageEnv σ) (pid : ℕ) (file : HostFile) (ehdr : ElfHeader) (n i : ℕ)
    (k : Kernel σ) : Prop
  | unread (result : elfLoadLoop env pid file ehdr (n + 1) i k = .ok ElfStatus.EL_EIO k)
      (stores : storedRegions env pid file ehdr (n + 1) i k = [])
  | skip (headers : loadHeaders file ehdr i (n + 1) = loadHeaders file ehdr (i + 1) n)
      (result : elfLoadLoop env pid file ehdr (n + 1) i k = elfLoadLoop env pid file ehdr n (i + 1) k)
      (segments : loadedSegments env pid file ehdr (n + 1) i k = loadedSegments env pid file ehdr n (i + 1) k)
      (stores : storedRegions env pid file ehdr (n + 1) i k = storedRegions env pid file ehdr n (i + 1) k)
  | stop (headers : loadHeaders file ehdr i (n + 1) = headerAt file ehdr i :: loadHeaders file ehdr (i + 1) n)
      (result : ∀ k', elfLoadLoop env pid file ehdr (n + 1) i k ≠ .ok .EL_OK k')
      (stores : storedRegions env pid file ehdr (n + 1) i k =
        (segmentSlot env pid file (headerAt file ehdr i) k).toList)
  | load {k₁ : Kernel σ} (headers : loadHeaders file ehdr i (n + 1) = headerAt file ehdr i ::
    loadHeaders file ehdr (i + 1) n)
      (call : loadSegment env pid file (headerAt file ehdr i) k = .ok none k₁)
      (result : elfLoadLoop env pid file ehdr (n + 1) i k = elfLoadLoop env pid file ehdr n (i + 1) k₁)
      (segments : loadedSegments env pid file ehdr (n + 1) i k =
        (headerAt file ehdr i, segmentPage env pid (headerAt file ehdr i) k) ::
        loadedSegments env pid file ehdr n (i + 1) k₁)
      (stores : storedRegions env pid file ehdr (n + 1) i k =
        (segmentSlot env pid file (headerAt file ehdr i) k).toList ++
        storedRegions env pid file ehdr n (i + 1) k₁)

theorem loopRound (env : PageEnv σ) (pid : ℕ) (file : HostFile) (ehdr : ElfHeader) (n i : ℕ) (k : Kernel σ) :
    LoopRound env pid file ehdr n i k := by
  have headers := loadHeaders_succ file ehdr i n
  have loop : elfLoadLoop env pid file ehdr (n + 1) i = _ := elfLoadLoop.eq_2 env pid file ehdr i n
  have segments := loadedSegments.eq_2 env pid file ehdr i k n
  have stores := storedRegions.eq_2 env pid file ehdr i k n
  simp only [← headerAt.eq_1] at loop segments stores
  by_cases short : file.pread PROG_HEADER_SIZE (throughInt (ehdr.phoff + PROG_HEADER_SIZE * i)) ≠
    PROG_HEADER_SIZE
  · rw [if_pos short] at loop stores
    exact .unread (by rw [loop]; rfl) stores
  rw [if_neg short] at loop segments stores
  by_cases other : (headerAt file ehdr i).type ≠ ELF_PROG_LOAD
  · rw [if_pos other] at loop segments stores
    rw [if_neg other] at headers
    exact .skip headers (by rw [loop]) segments stores
  rw [if_neg other] at loop segments stores
  rw [if_pos (not_not.mp other)] at headers
  cases call : loadSegment env pid file (headerAt file ehdr i) k with
  | error e k₁ =>
    rw [call] at stores
    refine .stop headers (fun k' => ?_) (stores.trans (List.append_nil _))
    rw [loop, bind_of_error call]
    intro same
    cases same
  | ok status k₁ =>
    cases status with
    | some status =>
      rw [call] at stores
      refine .stop headers (fun k' => ?_) (stores.trans (List.append_nil _))
      rw [loop, bind_of_ok call]
      intro same
      exact loadSegment_some call (EStateM.Result.ok.inj same).1
    | none =>
      rw [call] at segments stores
      exact .load headers call (by rw [loop, bind_of_ok call]) segments stores

/-- A loop that returns `EL_OK` loads every loadable segment. -/
theorem elfLoadLoop_ok {pid : ℕ} {file : HostFile} {ehdr : ElfHeader} : ∀ (n i : ℕ) {k k' : Kernel σ},
    elfLoadLoop env pid file ehdr n i k = .ok .EL_OK k' →
    Loads env pid file k (loadedSegments env pid file ehdr n i k) k' ∧
      (loadedSegments env pid file ehdr n i k).map Prod.fst = loadHeaders file ehdr i n := by
  intro n
  induction n with
  | zero =>
    intro i k k' call
    obtain ⟨-, rfl⟩ := EStateM.Result.ok.inj call
    exact ⟨.nil k, rfl⟩
  | succ n ih =>
    intro i k k' call
    cases loopRound env pid file ehdr n i k with
    | unread result stores =>
      rw [result] at call
      cases call
    | skip headers result segments stores =>
      rw [headers, segments]
      exact ih (i + 1) (result ▸ call)
    | stop headers result stores => exact absurd call (result k')
    | load headers inner result segments stores =>
      obtain ⟨loads, rest⟩ := ih (i + 1) (result ▸ call)
      rw [headers, segments, List.map_cons, rest]
      exact ⟨.cons inner loads, rfl⟩

/-- What loading the segments does to page table and memory of the process. -/
structure FileLoaded (P : Pages env trapSec) (pid : ℕ) (file : HostFile) (segments : List (ProgHeader × ℕ))
    (k : Kernel σ) (own : Owner) (k' : Kernel σ) (own' : Owner) : Prop where
  site : Site P k' (rootOf k pid) own'
  root : rootOf k' pid = rootOf k pid
  taken : ∀ g ∈ handed k.trace, g ∈ handed k'.trace
  data : ∀ g ∈ handed k.trace, own g = none → own' g = none ∧ k'.mem g = k.mem g
  sizes : ∀ s ∈ segments, s.1.filesz ≤ s.1.memsz ∧ s.1.memsz < PGSIZE ∧ file.pread s.1.memsz s.1.off = s.1.memsz
  frames : ∀ s ∈ segments, s.2 < 2 ^ 44 ∧ k'.mem s.2 = segmentWords file s.1 fun _ => 0
  maps : MapsPages k.mem (rootOf k pid) segmentPerm
    (segments.flatMap fun s => segmentMappings s.1.vaddr s.2) k'.mem

theorem Loads.effect {P : Pages env trapSec} {pid : ℕ} {file : HostFile} {k k' : Kernel σ}
    {segments : List (ProgHeader × ℕ)} (loads : Loads env pid file k segments k') :
    ∀ {own : Owner}, Site P k (rootOf k pid) own → (∀ s ∈ segments, s.1.vaddr < WORD) →
      ∃ own', FileLoaded P pid file segments k own k' own' ∧
      (Rooted k.mem (rootOf k pid) own → Rooted k'.mem (rootOf k pid) own') := by
  induction loads with
  | nil k =>
    intro own site _
    exact ⟨own, ⟨site, rfl, fun _ inside => inside,
      fun _ _ free => ⟨free, rfl⟩, by simp, by simp, .nil fun _ => rfl⟩, id⟩
  | @cons k k₁ k' ph segments call rest ih =>
    intro own site words
    obtain ⟨own₁, segment, rooted₁⟩ := site.loadSegment (words _ List.mem_cons_self) call
    obtain ⟨own', loaded, rooted'⟩ := ih segment.siteNext fun s member =>
      words s (List.mem_cons_of_mem _ member)
    rw [segment.root] at rooted'
    refine ⟨own', ⟨?_, loaded.root.trans segment.root,
      fun g inside => loaded.taken g (segment.taken g inside), ?_, ?_, ?_, ?_⟩,
      fun before => rooted' (rooted₁ before)⟩
    · exact segment.root ▸ loaded.site
    · intro g inside free
      obtain ⟨free₁, same₁⟩ := segment.data g inside free
      obtain ⟨free', same'⟩ := loaded.data g (segment.taken g inside) free₁
      exact ⟨free', same'.trans same₁⟩
    · intro s member
      rcases List.mem_cons.mp member with rfl | later
      · exact ⟨segment.filesz, segment.memsz, segment.inside⟩
      · exact loaded.sizes s later
    · intro s member
      rcases List.mem_cons.mp member with rfl | later
      · exact ⟨segment.small, (loaded.data _ segment.inUse segment.free).2.trans segment.words⟩
      · exact loaded.frames s later
    · have tail := loaded.maps
      rw [segment.root] at tail
      exact segment.maps.append tail

/-- `elf_load` that returns `EL_OK`. -/
theorem Site.elfLoad {P : Pages env trapSec} {pid : ℕ} {file : HostFile} {ehdr : ElfHeader} {k k' : Kernel σ}
    {own : Owner} (site : Site P k (rootOf k pid) own) (call : elfLoad env pid file ehdr k = .ok .EL_OK k') :
    (loadedSegments env pid file ehdr ehdr.phnum 0 k).map Prod.fst = loadHeaders file ehdr 0 ehdr.phnum ∧
      ∃ own', FileLoaded P pid file (loadedSegments env pid file ehdr ehdr.phnum 0 k) k own k' own' ∧
      (Rooted k.mem (rootOf k pid) own → Rooted k'.mem (rootOf k pid) own') := by
  obtain ⟨loads, headers⟩ := elfLoadLoop_ok ehdr.phnum 0 call
  refine ⟨headers, loads.effect site fun s member => ?_⟩
  exact loadHeaders_word (headers ▸ List.mem_map_of_mem member)

end Pke.Proofs
