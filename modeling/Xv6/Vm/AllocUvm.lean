import Xv6.Vm.Dealloc
import Xv6.Vm.Space
import Mathlib.Data.Nat.Find

set_option autoImplicit false

/-! # What `allocuvm` maps

Each round of `allocuvm` takes a page and maps it, and for that it may need a page for a page table.
The source looks at what `kalloc` returns for the page, and not at what `mappages` returns. So
`allocuvm` is truthful exactly if there is memory for every page table that it comes to need
(`allocuvm_truthful_iff`). -/

namespace Xv6

namespace Uvm

open Function

namespace Pgdir

variable {pgdir pgdir' : Pgdir} {m : Kmem} {a b k : ℕ}

/-! ## `mappages` of one page -/

/-- From `pgdir` to `pgdir'` entry `a` has been set, in a page table that is new if there was
    none. -/
structure SetsEntry (m : Kmem) (a : ℕ) (pte : Pte) (pgdir pgdir' : Pgdir) : Prop where
  walk : ∀ b, pgdir'.walk b =
    if b = a then some pte
    else if pgdir.walk a = none ∧ b / nptentries = a / nptentries then some .zero
    else pgdir.walk b
  page : pgdir'.page = pgdir.page
  tables : ∀ d t, pgdir'.pgtab d = some t →
    (∃ t0, pgdir.pgtab d = some t0 ∧ t0.page = t.page) ∨ m.give (.table a) = some t.page

theorem SetsEntry.present {pte : Pte} (h : SetsEntry m a pte pgdir pgdir') (hb : pgdir'.Present b)
    (hne : b ≠ a) :
    pgdir.Present b ∧ pgdir'.frame b = pgdir.frame b := by
  have hwalk := h.walk b
  rw [if_neg hne] at hwalk
  split_ifs at hwalk with hnew
  · exact absurd hb (not_present_of_walk_zero hwalk)
  · obtain ⟨q, hq, hp⟩ := hb
    exact ⟨⟨q, hwalk.symm.trans hq, hp⟩, by rw [frame, frame, hwalk]⟩

theorem pgtab_setTab (d : ℕ) (t : Option Pgtab) (e : ℕ) :
    (pgdir.setTab d t).pgtab e = if e = d then t else pgdir.pgtab e :=
  update_apply ..

/-- A page table keeps its page. -/
theorem pgtab_setPte_page {pte : Pte} {d : ℕ} {t : Pgtab}
    (h : (pgdir.setPte a pte).pgtab d = some t) :
    ∃ t0, pgdir.pgtab d = some t0 ∧ t0.page = t.page := by
  rw [setPte, pgtab_setTab] at h
  split_ifs at h with hd
  · obtain ⟨t0, ht0, rfl⟩ := Option.map_eq_some_iff.1 h
    exact ⟨t0, hd ▸ ht0, rfl⟩
  · exact ⟨t, h, rfl⟩

/-- The page table that is needed for `a` is there, or is made. -/
theorem walkAlloc_some {page : ℕ} (h : pgdir.walk a = none) (hm : m.give (.table a) = some page) :
    pgdir.walkAlloc a m = some (pgdir.setTab (a / nptentries) (some ⟨page, fun _ => .zero⟩)) := by
  rw [walk_eq_none] at h
  simp [walkAlloc, h, hm]

theorem walkAlloc_of_table (h : pgdir.walk a ≠ none) : pgdir.walkAlloc a m = some pgdir := by
  rw [Ne, walk_eq_none] at h
  obtain ⟨t, ht⟩ := Option.ne_none_iff_exists'.1 h
  simp [walkAlloc, ht]

theorem walkAlloc_none (h : pgdir.walk a = none) (hm : m.give (.table a) = none) :
    pgdir.walkAlloc a m = none := by
  rw [walk_eq_none] at h
  simp [walkAlloc, h, hm]

/-- There is a page table after all. -/
theorem mappages_of_table (h : ¬pgdir.Present a) (hwalk : pgdir.walk a ≠ none) (n : ℕ)
    (perm : BitVec 12) :
    mappages (n + 1) a k perm pgdir m = mappages n (a + 1)
    (k + 1) perm (pgdir.setPte a ⟨k, perm ||| pteP⟩) m := by
  obtain ⟨pte, hpte⟩ := Option.ne_none_iff_exists'.1 hwalk
  have hp : ¬pte.has pteP := fun hp => h ⟨pte, hpte, hp⟩
  rw [mappages, walkAlloc_of_table hwalk]
  simp [hpte, hp]

/-- `mappages` finds or makes the page table for `a`, and sets the entry. -/
theorem mappages_succ (h : ¬pgdir.Present a) (n : ℕ) (perm : BitVec 12)
    (htable : pgdir.walk a = none → m.give (.table a) ≠ none) :
    ∃ pgdir', mappages (n + 1) a k perm pgdir m = mappages n (a + 1) (k + 1) perm pgdir' m ∧
      SetsEntry m a ⟨k, perm ||| pteP⟩ pgdir pgdir' := by
  by_cases hwalk : pgdir.walk a = none
  · obtain ⟨page, hpage⟩ := Option.ne_none_iff_exists'.1 (htable hwalk)
    let pgdir1 := pgdir.setTab (a / nptentries) (some ⟨page, fun _ => .zero⟩)
    have hzero : ∀ b, pgdir1.walk b = if b / nptentries = a / nptentries then some .zero
        else pgdir.walk b :=
      fun b => walk_setTab (a / nptentries) _ b
    have hwalk1 : pgdir1.walk a = some .zero := by rw [hzero, if_pos rfl]
    refine ⟨pgdir1.setPte a ⟨k, perm ||| pteP⟩, ?_, fun b => ?_, rfl, fun d t ht => ?_⟩
    · rw [← mappages_of_table (not_present_of_walk_zero hwalk1) (by simp [hwalk1]), mappages,
        mappages, walkAlloc_some hwalk hpage, walkAlloc_of_table (by simp [hwalk1])]
    · rw [walk_setPte (by simp [hwalk1]), hzero]
      simp only [hwalk, true_and]
    · obtain ⟨t1, ht1, hpage1⟩ := pgtab_setPte_page ht
      rw [pgtab_setTab] at ht1
      split_ifs at ht1
      · cases ht1
        exact .inr (hpage1 ▸ hpage)
      · exact .inl ⟨t1, ht1, hpage1⟩
  · refine ⟨pgdir.setPte a ⟨k, perm ||| pteP⟩, mappages_of_table h hwalk n perm, fun b => ?_, rfl,
      fun d t ht => .inl (pgtab_setPte_page ht)⟩
    rw [walk_setPte hwalk, if_neg (c := pgdir.walk a = none ∧ _) fun h => hwalk h.1]

theorem mappages_fails (hwalk : pgdir.walk a = none) (hm : m.give (.table a) = none) (n : ℕ)
    (perm : BitVec 12) :
    mappages (n + 1) a k perm pgdir m = .ok (false, pgdir) := by
  rw [mappages, walkAlloc_none hwalk hm]

/-! ## The loop -/

/-- The entries that the loop sets are present. -/
theorem has_wup (k : ℕ) : Pte.has pteP ⟨k, pteW ||| pteU ||| pteP⟩ :=
  show (pteW ||| pteU ||| pteP) &&& pteP ≠ 0 by decide

/-- What the memory has of `kalloc` does not change in the loop. -/
structure SameKalloc (m m' : Kmem) : Prop where
  give : m'.give = m.give
  kend : m'.kend = m.kend
  freed : m'.freed = m.freed

/-- A rule for the loop: an invariant of the page at hand. -/
theorem allocLoop_rule {I : ℕ → Pgdir → Kmem → Prop} (give : Site → Option ℕ) (top : ℕ)
    (hgive : ∀ a pgdir m, I a pgdir m → m.give = give)
    (hstep : ∀ a pgdir m k, I a pgdir m → a < top → give (.page a) = some k →
      ∃ ok pgdir', pgdir.mappages 1 a k (pteW ||| pteU) (m.fill k fun _ => 0) = .ok (ok, pgdir') ∧
        I (a + 1) pgdir' (m.fill k fun _ => 0)) :
    ∀ (n a : ℕ) (pgdir : Pgdir) (m : Kmem), a + n = top → I a pgdir m →
      (∃ pgdir' m', allocLoop n a pgdir m = .ok (true, pgdir', m') ∧ I top pgdir' m' ∧
        ∀ b, a ≤ b → b < top → give (.page b) ≠ none) ∨
      ∃ c pgdir' m', allocLoop n a pgdir m = .ok (false, pgdir', m') ∧ I c pgdir' m' ∧ a ≤ c ∧
      c < top ∧
        give (.page c) = none ∧ ∀ b, a ≤ b → b < c → give (.page b) ≠ none := by
  intro n
  induction n with
  | zero =>
    intro a pgdir m htop hI
    rw [Nat.add_zero] at htop
    subst htop
    exact .inl ⟨pgdir, m, rfl, hI, fun b hlo hhi => absurd hlo (Nat.not_le.2 hhi)⟩
  | succ n ih =>
    intro a pgdir m htop hI
    have hm := hgive a pgdir m hI
    rw [allocLoop, hm]
    cases hk : give (.page a) with
    | none =>
      refine .inr ⟨a, pgdir, m, rfl, hI, Nat.le_refl a, by omega, hk, fun b hlo hhi => ?_⟩
      exact absurd hlo (Nat.not_le.2 hhi)
    | some k =>
      obtain ⟨ok, pgdir', hmap, hI'⟩ := hstep a pgdir m k hI (by omega) hk
      dsimp only
      rw [hmap]
      have hfirst : ∀ b, a ≤ b → (a + 1 ≤ b → give (.page b) ≠ none) → give (.page b) ≠ none := by
        intro b hlo hlater
        rcases Nat.eq_or_lt_of_le hlo with rfl | hlt
        · rw [hk]
          exact Option.some_ne_none k
        · exact hlater hlt
      rcases ih (a + 1) pgdir' (m.fill k fun _ => 0) (by omega) hI' with
        ⟨pgdir1, m1, heq, hI1, hall⟩ | ⟨c, pgdir1, m1, heq, hI1, hac, hctop, hnone, hall⟩
      · exact .inl ⟨pgdir1, m1, heq, hI1, fun b hlo hhi => hfirst b hlo fun h => hall b h hhi⟩
      · exact .inr ⟨c, pgdir1, m1, heq, hI1, by omega, hctop, hnone,
          fun b hlo hhi => hfirst b hlo fun h => hall b h hhi⟩

/-- The page is the directory, one of its page tables, or a page of the user. The kernel's part maps
the whole of the memory, and holds nothing. -/
def Holds (pgdir : Pgdir) (k : ℕ) : Prop :=
  pgdir.page = k ∨ (∃ d t, pgdir.pgtab d = some t ∧ t.page = k) ∨ ∃ a < kernPage, pgdir.Present a ∧
    pgdir.frame a = k

/-- What `kalloc` returns is not in use, and no page twice. -/
structure Fresh (m : Kmem) (pgdir : Pgdir) : Prop where
  owns : ∀ x k, m.give x = some k → m.Owns k
  inj : ∀ x y k, m.give x = some k → m.give y = some k → x = y
  unused : ∀ x k, m.give x = some k → ¬pgdir.Holds k

/-- From page `s` on, what is mapped is below `a` and was mapped by the loop. -/
structure Growing (m0 : Kmem) (s a : ℕ) (pgdir : Pgdir) (m : Kmem) : Prop where
  kalloc : SameKalloc m0 m
  mapped : ∀ b, s ≤ b → b < kernPage → pgdir.Present b → b < a ∧
    m0.give (.page b) = some (pgdir.frame b)

variable {m0 : Kmem} {s : ℕ}

theorem Growing.setsEntry {perm : BitVec 12} (h : Growing m0 s a pgdir m)
    (hk : m0.give (.page a) = some k) {m1 : Kmem} (hset : SetsEntry m1 a ⟨k, perm⟩ pgdir pgdir')
    (bytes : ℕ → Byte) : Growing m0 s (a + 1) pgdir' (m.fill k bytes) := by
  refine ⟨⟨h.kalloc.give, h.kalloc.kend, h.kalloc.freed⟩, fun b hs hkern hb => ?_⟩
  by_cases hba : b = a
  · subst hba
    have hwalk := hset.walk b
    rw [if_pos rfl] at hwalk
    exact ⟨Nat.lt_succ_self b, by rw [frame, hwalk]; exact hk⟩
  · obtain ⟨hold, hframe⟩ := hset.present hb hba
    obtain ⟨hlt, hgive⟩ := h.mapped b hs hkern hold
    exact ⟨by omega, by rw [hframe]; exact hgive⟩

/-- A round whose page is lost. -/
theorem Growing.skip (h : Growing m0 s a pgdir m) (k : ℕ) (bytes : ℕ → Byte) :
    Growing m0 s (a + 1) pgdir (m.fill k bytes) := by
  refine ⟨⟨h.kalloc.give, h.kalloc.kend, h.kalloc.freed⟩, fun b hs hkern hb => ?_⟩
  obtain ⟨hlt, hgive⟩ := h.mapped b hs hkern hb
  exact ⟨by omega, hgive⟩

/-- One round, whatever there is memory for. -/
theorem Growing.round (h : Growing m0 s a pgdir m) (hs : s ≤ a) (ha : a < kernPage)
    (hk : m0.give (.page a) = some k) (bytes : ℕ → Byte) :
    ∃ ok pgdir', pgdir.mappages 1 a k (pteW ||| pteU) (m.fill k bytes) = .ok (ok, pgdir') ∧
      Growing m0 s (a + 1) pgdir' (m.fill k bytes) ∧
      (pgdir' = pgdir ∨ SetsEntry (m.fill k bytes) a ⟨k, pteW ||| pteU ||| pteP⟩ pgdir pgdir') := by
  have habsent : ¬pgdir.Present a := fun hp => Nat.lt_irrefl a (h.mapped a hs ha hp).1
  by_cases htable : pgdir.walk a = none ∧ m0.give (.table a) = none
  · have hm : (m.fill k bytes).give (.table a) = none := by
      rw [← htable.2, ← h.kalloc.give]
      rfl
    exact ⟨false, pgdir, mappages_fails htable.1 hm 0 _, h.skip k bytes, .inl rfl⟩
  · have htable' : pgdir.walk a = none → (m.fill k bytes).give (.table a) ≠ none := by
      intro hwalk hm
      refine htable ⟨hwalk, ?_⟩
      rw [← h.kalloc.give]
      exact hm
    obtain ⟨pgdir', hmap, hset⟩ := mappages_succ (k := k) habsent 0 (pteW ||| pteU) htable'
    exact ⟨true, pgdir', hmap, h.setsEntry hk hset bytes, .inr hset⟩

/-! ## With memory for the page tables -/

/-- `allocuvm` comes to page `a` and finds no page table for it. -/
structure NeedsTable (pgdir : Pgdir) (m : Kmem) (s a : ℕ) : Prop where
  missing : pgdir.walk a = none
  first : a = s ∨ a % nptentries = 0
  given : ∀ b, s ≤ b → b ≤ a → m.give (.page b) ≠ none

/-- The pages from `s` to `a` are mapped as they should be. -/
structure Filled (pgdir0 : Pgdir) (m0 : Kmem) (s a : ℕ) (pgdir : Pgdir) (m : Kmem) : Prop where
  growing : Growing m0 s a pgdir m
  entry : ∀ b, s ≤ b → b < a → ∃ k, pgdir.walk b = some ⟨k, pteW ||| pteU ||| pteP⟩ ∧
    m0.give (.page b) = some k ∧ m.mem k = fun _ => 0
  missing : ∀ b, a ≤ b → pgdir.walk b = none → pgdir0.walk b = none
  still : ∀ b, pgdir0.walk b = none → (∀ c, s ≤ c → c < a → c / nptentries ≠ b / nptentries) →
    pgdir.walk b = none

variable {pgdir0 : Pgdir}

/-- A page table that is missing at page `a` was missing before, and `a` is the first page in its
    reach. -/
theorem Filled.needsTable (h : Filled pgdir0 m0 s a pgdir m) (hs : s ≤ a)
    (hk : m0.give (.page a) = some k) (hwalk : pgdir.walk a = none) : NeedsTable pgdir0 m0 s a := by
  refine ⟨h.missing a (Nat.le_refl a) hwalk, ?_, fun b hlo hhi => ?_⟩
  · by_contra hno
    rw [not_or] at hno
    obtain ⟨k', hentry, -⟩ := h.entry (a - 1) (by omega) (by omega)
    have hsame : (a - 1) / nptentries = a / nptentries := by
      simp only [nptentries] at hno ⊢
      omega
    have hnone : pgdir.walk (a - 1) = none := by
      rw [walk_eq_none] at hwalk ⊢
      rw [hsame, hwalk]
    cases hnone.symm.trans hentry
  · rcases Nat.eq_or_lt_of_le hhi with rfl | hlt
    · rw [hk]
      exact Option.some_ne_none k
    · obtain ⟨k', -, hgive, -⟩ := h.entry b hlo hlt
      rw [hgive]
      exact Option.some_ne_none k'

/-- One round with memory for the page table. -/
theorem Filled.round (h : Filled pgdir0 m0 s a pgdir m)
    (hinj : ∀ x y k, m0.give x = some k → m0.give y = some k → x = y) (hs : s ≤ a)
    (ha : a < kernPage)
    (hk : m0.give (.page a) = some k) (htable : NeedsTable pgdir0 m0 s a →
      m0.give (.table a) ≠ none) :
    ∃ ok pgdir', pgdir.mappages 1 a k (pteW ||| pteU) (m.fill k fun _ => 0) = .ok (ok, pgdir') ∧
      Filled pgdir0 m0 s (a + 1) pgdir' (m.fill k fun _ => 0) := by
  have habsent : ¬pgdir.Present a := fun hp => Nat.lt_irrefl a (h.growing.mapped a hs ha hp).1
  have hgive : pgdir.walk a = none → (m.fill k fun _ => 0).give (.table a) ≠ none := by
    intro hwalk
    have hm := htable (h.needsTable hs hk hwalk)
    rw [← h.growing.kalloc.give] at hm
    exact hm
  obtain ⟨pgdir', hmap, hset⟩ := mappages_succ (k := k) habsent 0 (pteW ||| pteU) hgive
  refine ⟨true, pgdir', hmap, h.growing.setsEntry hk hset _, fun b hlo hhi => ?_,
    fun b hb hwalk => ?_, fun b hnone hother => ?_⟩
  · by_cases hba : b = a
    · subst hba
      refine ⟨k, ?_, hk, ?_⟩
      · rw [hset.walk b, if_pos rfl]
      · exact update_self ..
    · obtain ⟨k', hentry, hgive', hzero⟩ := h.entry b hlo (by omega)
      refine ⟨k', ?_, hgive', ?_⟩
      · -- a page table that has an entry for `b` is not new
        have hold : ¬(pgdir.walk a = none ∧ b / nptentries = a / nptentries) := by
          rintro ⟨hnone, hsame⟩
          have hnone' : pgdir.walk b = none := by
            rw [walk_eq_none] at hnone ⊢
            rw [hsame, hnone]
          cases hnone'.symm.trans hentry
        rw [hset.walk b, if_neg hba, if_neg hold, hentry]
      · have hne : k' ≠ k := by
          rintro rfl
          cases hinj _ _ _ hgive' hk
          exact hba rfl
        rw [← hzero]
        exact update_of_ne hne ..
  · rw [hset.walk b, if_neg (by omega)] at hwalk
    split_ifs at hwalk
    exact h.missing b (by omega) hwalk
  · have hne := hother a hs (Nat.lt_succ_self a)
    have hba : b ≠ a := fun hba => hne (hba ▸ rfl)
    rw [hset.walk b, if_neg hba, if_neg fun hnew => hne hnew.2.symm]
    exact h.still b hnone fun c hlo hhi => hother c hlo (by omega)

/-- Up to a page whose page table is needed, it stays missing. -/
theorem Filled.walk_eq_none (h : Filled pgdir0 m0 s a pgdir m)
    (hneeds : NeedsTable pgdir0 m0 s a) : pgdir.walk a = none := by
  refine h.still a hneeds.missing fun c hlo hhi hsame => ?_
  rcases hneeds.first with rfl | haligned
  · omega
  · simp only [nptentries] at haligned hsame
    omega

/-! ## Undoing -/

theorem lt_of_pages_lt {n n' : ℕ} (h : pages n < pages n') : n < n' := by
  by_contra hle
  exact absurd (pages_mono (Nat.not_lt.1 hle)) (Nat.not_le.2 h)

/-- What the loop has mapped can all be freed. -/
theorem Growing.dealloc {oldsz newsz c : ℕ} (h : Growing m0 (pages oldsz) c pgdir m)
    (howns : ∀ x k, m0.give x = some k → m0.Owns k) (hsz : oldsz < newsz)
    (hkern : pages newsz ≤ kernPage) :
    ∃ pgdir' m', pgdir.deallocuvm newsz oldsz m = .ok (pgdir', m') ∧
      Freed pgdir (pgdir.victims (pages oldsz) (pages newsz)) m pgdir' m' := by
  rcases deallocuvm_cases pgdir m hsz with ⟨pgdir', m', heq, hfreed, -⟩ | ⟨-, b, hb, hno⟩
  · exact ⟨pgdir', m', heq, hfreed⟩
  · obtain ⟨⟨hlo, hhi⟩, hp, -⟩ := mem_victims.1 hb
    have hown := howns _ _ (h.mapped b hlo (by omega) hp).2
    refine absurd ?_ hno
    rw [Kmem.Owns, h.kalloc.kend]
    exact hown

/-- Nothing is skipped, as the first page has been mapped. -/
theorem Filled.victims {oldsz newsz c : ℕ}
    (h : Filled pgdir0 m0 (pages oldsz) c pgdir m) (hkern : pages newsz ≤ kernPage) :
    pgdir.victims (pages oldsz) (pages newsz) = pgdir.inRange newsz oldsz := by
  refine victims_eq_inRange fun b hlo hhi hp => ?_
  have hbc := (h.growing.mapped b hlo (by omega) hp).1
  obtain ⟨k, hentry, -⟩ := h.entry (pages oldsz) (Nat.le_refl _) (by omega)
  exact not_skips_of_table (by simp [hentry]) b

/-! ## When the result is truthful -/

/-- Every page of `[PGROUNDUP(oldsz), newsz)` is present, the user's, writeable and zero, and has a
physical page of its own that was in no use. -/
structure Grown (pgdir : Pgdir) (oldsz newsz : ℕ) (m : Kmem) (pgdir' : Pgdir)
    (m' : Kmem) : Prop where
  entry : ∀ a, pages oldsz ≤ a → a < pages newsz → ∃ k, pgdir'.walk a = some ⟨k,
    pteW ||| pteU ||| pteP⟩ ∧ m.give (.page a) = some k ∧ m'.mem k = fun _ => 0
  distinct : ∀ a b, pages oldsz ≤ a → a < pages newsz → pages oldsz ≤ b → b < pages newsz →
    pgdir'.frame a = pgdir'.frame b → a = b
  fresh : ∀ a, pages oldsz ≤ a → a < pages newsz → ¬pgdir.Holds (pgdir'.frame a)

/-- Nothing is mapped from `PGROUNDUP(oldsz)` on, and every page that was taken is free again. -/
structure Undone (oldsz newsz : ℕ) (m : Kmem) (pgdir' : Pgdir) (m' : Kmem) : Prop where
  absent : ∀ a, pages oldsz ≤ a → a < kernPage → ¬pgdir'.Present a
  freed : ∃ ks, m'.freed = m.freed ++ ks ∧ ∀ a k, pages oldsz ≤ a → a < pages newsz →
    (∀ b, pages oldsz ≤ b → b < a → m.give (.page b) ≠ none) → m.give (.page a) = some k → k ∈ ks

/-- `allocuvm` returns, and what it returns is true. -/
def Truthful (pgdir : Pgdir) (oldsz newsz : ℕ) (m : Kmem) : Prop :=
  ∃ r pgdir' m', pgdir.allocuvm oldsz newsz m = .ok (r, pgdir', m') ∧ (r = newsz ∨ r = 0) ∧
    (r = newsz → Grown pgdir oldsz newsz m pgdir' m') ∧ (r = 0 → Undone oldsz newsz m pgdir' m')

/-- There is memory for each page table that `allocuvm` comes to need. -/
def TablesGiven (pgdir : Pgdir) (oldsz newsz : ℕ) (m : Kmem) : Prop :=
  ∀ a, pages oldsz ≤ a → a < pages newsz → NeedsTable pgdir m (pages oldsz) a →
    m.give (.table a) ≠ none

section

variable {oldsz newsz : ℕ}

theorem allocuvm_eq (hle : oldsz ≤ newsz) (hlt : newsz < kernbase) :
    pgdir.allocuvm oldsz newsz m = (do
      let (ok, pgdir, m) ← allocLoop (pages newsz - pages oldsz) (pages oldsz) pgdir m
      if ok then .ok (newsz, pgdir, m)
      else do
        let (pgdir, m) ← pgdir.deallocuvm newsz oldsz m
        .ok (0, pgdir, m)) := by
  rw [allocuvm, if_neg (Nat.not_le.2 hlt), if_neg (Nat.not_lt.2 hle)]

theorem Growing.start (habsent : ∀ a, pages oldsz ≤ a → a < kernPage → ¬pgdir.Present a) :
    Growing m (pages oldsz) (pages oldsz) pgdir m :=
  ⟨⟨rfl, rfl, rfl⟩, fun b hs hkern hp => absurd hp (habsent b hs hkern)⟩

theorem Filled.start (habsent : ∀ a, pages oldsz ≤ a → a < kernPage → ¬pgdir.Present a) :
    Filled pgdir m (pages oldsz) (pages oldsz) pgdir m :=
  ⟨.start habsent, fun _ hlo hhi => absurd hlo (Nat.not_le.2 hhi), fun _ _ h => h, fun _ h _ => h⟩

/-- At the end of the loop. -/
theorem Filled.grown {m0 : Kmem} (h : Filled pgdir0 m0 (pages oldsz) (pages newsz) pgdir m)
    (hfresh : Fresh m0 pgdir0) : Grown pgdir0 oldsz newsz m0 pgdir m := by
  have hframe : ∀ a, pages oldsz ≤ a → a < pages newsz → m0.give (.page a) = some (pgdir.frame a) :=
    by
    intro a hlo hhi
    obtain ⟨k, hentry, hgive, -⟩ := h.entry a hlo hhi
    rw [frame, hentry]
    exact hgive
  refine ⟨h.entry, fun a b halo hahi hblo hbhi heq => ?_, fun a hlo hhi => ?_⟩
  · have ha := hframe a halo hahi
    rw [heq] at ha
    cases hfresh.inj _ _ _ ha (hframe b hblo hbhi)
    rfl
  · exact hfresh.unused _ _ (hframe a hlo hhi)

/-- After a page could not be allocated. -/
theorem Filled.undone {pgdir0 pgdir' : Pgdir} {m0 m' : Kmem} {c : ℕ}
    (h : Filled pgdir0 m0 (pages oldsz) c pgdir m) (hc : c < pages newsz)
    (hnone : m0.give (.page c) = none) (hclo : pages oldsz ≤ c) (hkern : pages newsz ≤ kernPage)
    (hfreed : Freed pgdir (pgdir.victims (pages oldsz) (pages newsz)) m pgdir' m') :
    Undone oldsz newsz m0 pgdir' m' := by
  rw [h.victims hkern] at hfreed
  refine ⟨fun a hlo hhi hp => ?_, _, hfreed.freed.trans (by rw [h.growing.kalloc.freed]), ?_⟩
  · obtain ⟨pte, hpte, hpp⟩ := hp
    have hwalk := hfreed.walk a
    split_ifs at hwalk with hmem
    · exact not_present_of_walk_zero hwalk ⟨pte, hpte, hpp⟩
    · have hold : pgdir.Present a := ⟨pte, hwalk.symm.trans hpte, hpp⟩
      have hac := (h.growing.mapped a hlo hhi hold).1
      exact hmem (mem_inRange.2 ⟨⟨hlo, by omega⟩, hold⟩)
  · intro a k hlo hhi hgiven hk
    -- the loop has not gone past `c`
    have hac : a < c := by
      by_contra hge
      rcases Nat.eq_or_lt_of_le (Nat.not_lt.1 hge) with rfl | hlt
      · cases hnone.symm.trans hk
      · exact hgiven c hclo hlt hnone
    obtain ⟨k', hentry, hgive, -⟩ := h.entry a hlo hac
    cases hgive.symm.trans hk
    refine List.mem_map.2 ⟨a, mem_inRange.2 ⟨⟨hlo, hhi⟩, _, hentry, has_wup _⟩, ?_⟩
    rw [frame, hentry]
    rfl

section

variable (hle : oldsz ≤ newsz) (hlt : newsz < kernbase)
  (habsent : ∀ a, pages oldsz ≤ a → a < kernPage → ¬pgdir.Present a)

include hle hlt habsent

theorem Truthful.of_tablesGiven (hfresh : Fresh m pgdir)
    (htables : TablesGiven pgdir oldsz newsz m) : Truthful pgdir oldsz newsz m := by
  have hkern := pages_le_kernPage hlt.le
  have hmono := pages_mono hle
  have hloop := allocLoop_rule m.give (pages newsz)
    (I := fun a pgdir1 m1 => pages oldsz ≤ a ∧ Filled pgdir m (pages oldsz) a pgdir1 m1)
    (fun a pgdir1 m1 hI => hI.2.growing.kalloc.give)
    (fun a pgdir1 m1 k hI ha hk => by
      obtain ⟨ok, pgdir', hmap, hfilled⟩ :=
        hI.2.round hfresh.inj hI.1 (by omega) hk (htables a hI.1 ha)
      exact ⟨ok, pgdir', hmap, by omega, hfilled⟩)
    (pages newsz - pages oldsz) (pages oldsz) pgdir m (by omega) ⟨Nat.le_refl _, .start habsent⟩
  rcases hloop with ⟨pgdir', m', heq, hI, -⟩ | ⟨c, pgdir', m', heq, hI, hlo, hhi, hnone, -⟩
  · refine ⟨newsz, pgdir', m', ?_, .inl rfl, fun _ => hI.2.grown hfresh, fun hzero => ?_⟩
    · rw [allocuvm_eq hle hlt, heq]
      rfl
    · -- nothing was to be done
      have hz : pages newsz = 0 := by rw [hzero]; rfl
      refine ⟨fun a hlo hhi hp => ?_, [], ?_, fun a k hlo hhi => by omega⟩
      · have := (hI.2.growing.mapped a hlo hhi hp).1
        omega
      · rw [hI.2.growing.kalloc.freed, List.append_nil]
  · have hsz : oldsz < newsz := lt_of_pages_lt (by omega)
    obtain ⟨pgdir2, m2, hdealloc, hfreed⟩ := hI.2.growing.dealloc hfresh.owns hsz hkern
    refine ⟨0, pgdir2, m2, ?_, .inr rfl, fun hzero => ?_, fun _ => ?_⟩
    · rw [allocuvm_eq hle hlt, heq]
      change (pgdir'.deallocuvm newsz oldsz m' >>= _) = _
      rw [hdealloc]
      rfl
    · omega
    · exact hI.2.undone hhi hnone hlo hkern hfreed

/-- The loop goes on past the first page for whose page table there is no memory, and leaves it
    unmapped. -/
theorem allocLoop_lost
    (hinj : ∀ x y k, m.give x = some k → m.give y = some k → x = y) (hlo : pages oldsz ≤ a)
    (hhi : a < pages newsz)
    (hneeds : NeedsTable pgdir m (pages oldsz) a) (hnotab : m.give (.table a) = none)
    (hbefore : ∀ b < a, ¬(pages oldsz ≤ b ∧ b < pages newsz ∧ NeedsTable pgdir m (pages oldsz) b ∧
      m.give (.table b) = none)) :
    (∃ pgdir' m', allocLoop (pages newsz - pages oldsz) (pages oldsz) pgdir m = .ok (true, pgdir', m') ∧
      Growing m (pages oldsz) (pages newsz) pgdir' m' ∧ ¬pgdir'.Present a) ∨
    ∃ c pgdir' m', allocLoop (pages newsz - pages oldsz)
    (pages oldsz) pgdir m = .ok (false, pgdir', m') ∧
      Growing m (pages oldsz) c pgdir' m' ∧ ¬pgdir'.Present a ∧ c < pages newsz := by
  have hkern := pages_le_kernPage hlt.le
  have hmono := pages_mono hle
  -- up to `a` all pages are mapped, and after `a` that one is not
  have hloop := allocLoop_rule m.give (pages newsz)
    (I := fun x pgdir1 m1 => pages oldsz ≤ x ∧ Growing m (pages oldsz) x pgdir1 m1 ∧
      (x ≤ a → Filled pgdir m (pages oldsz) x pgdir1 m1) ∧ (a < x → ¬pgdir1.Present a))
    (fun x pgdir1 m1 hI => hI.2.1.kalloc.give)
    (fun x pgdir1 m1 k hI hx hk => by
      obtain ⟨hxlo, hgrowing, hfilled, hlost⟩ := hI
      rcases Nat.lt_trichotomy x a with hxa | rfl | hax
      · have htable : NeedsTable pgdir m (pages oldsz) x → m.give (.table x) ≠ none :=
          fun hneeds hnone => hbefore x hxa ⟨hxlo, hx, hneeds, hnone⟩
        obtain ⟨ok, pgdir', hmap, hfilled'⟩ := (hfilled hxa.le).round hinj hxlo (by omega) hk htable
        exact ⟨ok, pgdir', hmap, by omega, hfilled'.growing, fun _ => hfilled', fun _ => by omega⟩
      · have hwalk := (hfilled (Nat.le_refl x)).walk_eq_none hneeds
        have hm : (m1.fill k fun _ => 0).give (.table x) = none := by
          rw [← hnotab, ← hgrowing.kalloc.give]
          rfl
        refine ⟨false, pgdir1, mappages_fails hwalk hm 0 _, by omega, hgrowing.skip k _, by omega,
          fun _ => ?_⟩
        rintro ⟨pte, hpte, -⟩
        cases hwalk.symm.trans hpte
      · obtain ⟨ok, pgdir', hmap, hgrowing', hset⟩ := hgrowing.round hxlo (by omega) hk fun _ => 0
        refine ⟨ok, pgdir', hmap, by omega, hgrowing', by omega, fun _ hp => ?_⟩
        rcases hset with rfl | hset
        · exact hlost hax hp
        · exact hlost hax (hset.present hp (by omega)).1)
    (pages newsz - pages oldsz) (pages oldsz) pgdir m (by omega)
    ⟨Nat.le_refl _, .start habsent, fun _ => .start habsent, by omega⟩
  rcases hloop with ⟨pgdir', m', heq, ⟨-, hgrowing, -, hlost⟩, -⟩ |
    ⟨c, pgdir', m', heq, ⟨-, hgrowing, -, hlost⟩, hclo, hchi, hnone, -⟩
  · exact .inl ⟨pgdir', m', heq, hgrowing, hlost hhi⟩
  · have hac : a < c := by
      by_contra hle
      exact hneeds.given c hclo (Nat.not_lt.1 hle) hnone
    exact .inr ⟨c, pgdir', m', heq, hgrowing, hlost hac, hchi⟩

/-- A page for whose page table there is no memory is lost: it is not mapped and not freed. -/
theorem Truthful.tablesGiven (hfresh : Fresh m pgdir)
    (htrue : Truthful pgdir oldsz newsz m) : TablesGiven pgdir oldsz newsz m := by
  have hkern := pages_le_kernPage hlt.le
  by_contra hno
  -- the first such page
  have hex : ∃ a, pages oldsz ≤ a ∧ a < pages newsz ∧ NeedsTable pgdir m (pages oldsz) a ∧
      m.give (.table a) = none := by
    simp only [TablesGiven, not_forall, not_not] at hno
    obtain ⟨a, hlo, hhi, hneeds, hnone⟩ := hno
    exact ⟨a, hlo, hhi, hneeds, hnone⟩
  classical
  obtain ⟨hlo, hhi, hneeds, hnotab⟩ := Nat.find_spec hex
  have hbefore := fun b hb => Nat.find_min hex (m := b) hb
  generalize Nat.find hex = a at hlo hhi hneeds hnotab hbefore
  obtain ⟨k, hk⟩ := Option.ne_none_iff_exists'.1 (hneeds.given a hlo (Nat.le_refl a))
  rcases allocLoop_lost hle hlt habsent hfresh.inj hlo hhi hneeds hnotab hbefore with
    ⟨pgdir1, m1, heq, -, hlost⟩ | ⟨c, pgdir1, m1, heq, hgrowing, hlost, -⟩
  · obtain ⟨r, pgdir', m', hr, -, hgrown, -⟩ := htrue
    rw [allocuvm_eq hle hlt, heq] at hr
    cases hr
    obtain ⟨k', hentry, -⟩ := (hgrown rfl).entry a hlo hhi
    exact hlost ⟨_, hentry, has_wup k'⟩
  · have hsz : oldsz < newsz := lt_of_pages_lt (by omega)
    obtain ⟨pgdir2, m2, hdealloc, hfreed⟩ := hgrowing.dealloc hfresh.owns hsz hkern
    obtain ⟨r, pgdir', m', hr, -, -, hundone⟩ := htrue
    rw [allocuvm_eq hle hlt, heq] at hr
    change (pgdir1.deallocuvm newsz oldsz m1 >>= _) = _ at hr
    rw [hdealloc] at hr
    cases hr
    obtain ⟨ks, hks, hback⟩ := (hundone rfl).freed
    rw [hfreed.freed, hgrowing.kalloc.freed, List.append_cancel_left_eq] at hks
    have hmem := hback a k hlo hhi (fun b hb hba => hneeds.given b hb hba.le) hk
    rw [← hks] at hmem
    obtain ⟨b, hb, hframe⟩ := List.mem_map.1 hmem
    obtain ⟨⟨hblo, hbhi⟩, hp, -⟩ := mem_victims.1 hb
    have hgive := (hgrowing.mapped b hblo (by omega) hp).2
    rw [hframe] at hgive
    cases hfresh.inj _ _ _ hgive hk
    exact hlost hp

end

/-- `allocuvm` tells the truth exactly if there is memory for the page tables that it comes to
    need. -/
theorem allocuvm_truthful_iff (pgdir : Pgdir) (oldsz newsz : ℕ) (m : Kmem) (hle : oldsz ≤ newsz)
    (hlt : newsz < kernbase) (habsent : ∀ a, pages oldsz ≤ a → a < kernPage → ¬pgdir.Present a)
    (hfresh : Fresh m pgdir) : Truthful pgdir oldsz newsz m ↔ TablesGiven pgdir oldsz newsz m :=
  ⟨Truthful.tablesGiven hle hlt habsent hfresh, Truthful.of_tablesGiven hle hlt habsent hfresh⟩

end

/-- A directory in which nothing is mapped. -/
def empty : Pgdir := ⟨0, fun _ => none⟩

theorem not_present_empty (a : ℕ) : ¬empty.Present a := nofun

/-- Memory for the first page and, if `table` says so, for its page table. -/
def onePage (table : Bool) : Kmem where
  give x := if x = .page 0 then some 2 else if x = .table 0 ∧ table then some 3 else none
  kend := 1
  kend_pos := Nat.one_pos
  mem _ _ := 0
  freed := []

theorem give_onePage {table : Bool} {x : Site} (h : (onePage table).give x = some k) :
    x = .page 0 ∧ k = 2 ∨ x = .table 0 ∧ k = 3 := by
  simp only [onePage] at h
  split_ifs at h with hpage htable
  · exact .inl ⟨hpage, (Option.some.inj h).symm⟩
  · exact .inr ⟨htable.1, (Option.some.inj h).symm⟩

theorem fresh_onePage (table : Bool) : Fresh (onePage table) empty := by
  refine ⟨fun x k hx => ?_, fun x y k hx hy => ?_, fun x k hx => ?_⟩
  · rcases give_onePage hx with ⟨-, rfl⟩ | ⟨-, rfl⟩
    · exact ⟨show 1 ≤ 2 by decide, by decide⟩
    · exact ⟨show 1 ≤ 3 by decide, by decide⟩
  · rcases give_onePage hx with ⟨rfl, rfl⟩ | ⟨rfl, rfl⟩ <;> rcases give_onePage hy with ⟨rfl,
      hk⟩ | ⟨rfl, hk⟩
    · rfl
    · cases hk
    · cases hk
    · rfl
  · rintro (hdir | ⟨d, t, ht, -⟩ | ⟨a, -, hp, -⟩)
    · rcases give_onePage hx with ⟨-, rfl⟩ | ⟨-, rfl⟩ <;> cases hdir
    · cases ht
    · exact not_present_empty a hp

theorem allocuvm_truthful_onePage : Truthful empty 0 pgsize (onePage true) := by
  refine (allocuvm_truthful_iff empty 0 pgsize (onePage true) (by decide) (by decide)
    (fun a _ _ => not_present_empty a) (fresh_onePage true)).2 fun a _ ha _ => ?_
  obtain rfl : a = 0 := Nat.lt_one_iff.1 ha
  decide

/-- With a page and no page table, `allocuvm` returns the new size and the page is not mapped. -/
theorem allocuvm_loses_page : (∀ a, pages 0 ≤ a → a < kernPage → ¬empty.Present a) ∧
    Fresh (onePage false) empty ∧ ¬Truthful empty 0 pgsize (onePage false) := by
  refine ⟨fun a _ _ => not_present_empty a, fresh_onePage false, ?_⟩
  rintro ⟨r, pgdir', m', heq, -, hgrown, -⟩
  obtain ⟨x, hx, hsize, habsent⟩ :=
    Stoppable.exists_ok (x := empty.allocuvm 0 pgsize (onePage false))
    (fun x => x.1 = pgsize ∧ ¬x.2.1.Present 0) (by decide +kernel)
  cases hx.symm.trans heq
  obtain ⟨k, hentry, -⟩ := (hgrown hsize).entry 0 (by decide) (by decide)
  exact habsent ⟨_, hentry, has_wup k⟩

end Pgdir

end Uvm

end Xv6
