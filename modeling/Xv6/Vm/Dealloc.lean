import Xv6.Lib.Stoppable
import Xv6.Vm.Uvm
import Mathlib.Data.List.Range

set_option autoImplicit false

/-! # What `deallocuvm` frees

Where `deallocuvm` finds no page table it goes on 1024 pages further up, and not at the next page
table. If it starts in the middle of the reach of a page table that is missing, it comes to the
middle of the next one and misses the pages before (`Skips`). The pages that it frees are those of
the range that are present and that it does not skip (`deallocuvm_cases`). -/

namespace Xv6

namespace Uvm

open Function

namespace Pgdir

variable {pgdir : Pgdir} {m : Kmem} {a b : ℕ}

/-! ## Entries -/

theorem walk_eq_none : pgdir.walk a = none ↔ pgdir.pgtab (a / nptentries) = none :=
  Option.map_eq_none_iff

theorem walk_setTab (d : ℕ) (t : Option Pgtab) (b : ℕ) :
    (pgdir.setTab d t).walk b = if b / nptentries = d then t.map (·.pte (b % nptentries)) else pgdir.walk b := by
  unfold walk setTab
  by_cases hd : b / nptentries = d
  · subst hd
    simp
  · simp [hd]

theorem walk_setPte (h : pgdir.walk a ≠ none) (pte : Pte) (b : ℕ) :
    (pgdir.setPte a pte).walk b = if b = a then some pte else pgdir.walk b := by
  obtain ⟨t, ht⟩ : ∃ t, pgdir.pgtab (a / nptentries) = some t :=
    Option.ne_none_iff_exists'.1 fun hn => h (walk_eq_none.2 hn)
  rw [setPte, walk_setTab, ht]
  by_cases hd : b / nptentries = a / nptentries
  · rw [if_pos hd]
    by_cases he : b % nptentries = a % nptentries
    · have hab : b = a := by rw [← Nat.div_add_mod b nptentries, hd, he, Nat.div_add_mod]
      rw [if_pos hab, he]
      simp
    · have hab : b ≠ a := fun h => he (h ▸ rfl)
      rw [if_neg hab, walk, hd, ht]
      simp [update_of_ne he]
  · have hab : b ≠ a := fun h => hd (h ▸ rfl)
    rw [if_neg hd, if_neg hab]

/-- A page table is where it was. -/
theorem pgtab_setPte_eq_none (pgdir : Pgdir) (a : ℕ) (pte : Pte) (d : ℕ) :
    (pgdir.setPte a pte).pgtab d = none ↔ pgdir.pgtab d = none := by
  unfold setPte setTab
  by_cases hd : d = a / nptentries
  · subst hd
    simp
  · simp [update_of_ne hd]

/-- The page is mapped. -/
def Present (pgdir : Pgdir) (a : ℕ) : Prop := ∃ pte, pgdir.walk a = some pte ∧ pte.has pteP

instance (pgdir : Pgdir) (a : ℕ) : Decidable (pgdir.Present a) :=
  match h : pgdir.walk a with
  | none => .isFalse fun ⟨_, hpte, _⟩ => by rw [h] at hpte; cases hpte
  | some pte => decidable_of_iff (pte.has pteP) ⟨fun hp => ⟨pte, h, hp⟩, fun ⟨_, hpte, hp⟩ => by
      rw [h] at hpte; cases hpte; exact hp⟩

/-- The physical page of an entry. -/
def frame (pgdir : Pgdir) (a : ℕ) : ℕ := ((pgdir.walk a).map Pte.ppn).getD 0

theorem not_present_of_walk_zero (h : pgdir.walk a = some .zero) : ¬pgdir.Present a := by
  rintro ⟨pte, hpte, hp⟩
  rw [h] at hpte
  cases hpte
  exact hp (by decide)

/-! ## The pages that are skipped -/

/-- Between page `a` and page `b` there is no page table, and `b` is not as far from the beginning
of its page table as `a` is. -/
def Skips (pgdir : Pgdir) (a b : ℕ) : Prop :=
  a / nptentries < b / nptentries ∧ (∀ d < b / nptentries, a / nptentries ≤ d →
    pgdir.pgtab d = none) ∧ b % nptentries < a % nptentries

instance (pgdir : Pgdir) (a b : ℕ) : Decidable (pgdir.Skips a b) := by
  have : DecidablePred fun d => pgdir.pgtab d = none :=
    fun d => decidable_of_iff _ Option.isNone_iff_eq_none
  exact inferInstanceAs (Decidable (_ ∧ _ ∧ _))

theorem not_skips_of_table (h : pgdir.walk a ≠ none) (b : ℕ) : ¬pgdir.Skips a b := fun hs =>
  h (walk_eq_none.2 (hs.2.1 _ hs.1 (Nat.le_refl _)))

theorem not_skips_of_aligned (h : a % nptentries = 0) (b : ℕ) : ¬pgdir.Skips a b := fun hs => by
  have := hs.2.2
  omega

/-- One page on from a page that has a page table. -/
theorem not_skips_succ (h : pgdir.walk a ≠ none) (b : ℕ) : ¬pgdir.Skips (a + 1) b := by
  by_cases hd : (a + 1) / nptentries = a / nptentries
  · refine not_skips_of_table (fun hn => h ?_) b
    rw [walk_eq_none] at hn ⊢
    rwa [hd] at hn
  · refine not_skips_of_aligned ?_ b
    simp only [nptentries] at hd ⊢
    omega

/-- From a page without page table, 1024 pages on. -/
theorem skips_add (h : pgdir.walk a = none) (hb : a + nptentries ≤ b) :
    pgdir.Skips (a + nptentries) b ↔ pgdir.Skips a b := by
  rw [walk_eq_none] at h
  have hdiv : (a + nptentries) / nptentries = a / nptentries + 1 := by simp
  have hmod : (a + nptentries) % nptentries = a % nptentries := by simp
  constructor
  · rintro ⟨hlt, hnone, hoff⟩
    rw [hdiv] at hlt hnone
    rw [hmod] at hoff
    refine ⟨by omega, fun d hd had => ?_, hoff⟩
    rcases Nat.eq_or_lt_of_le had with rfl | hlt'
    · exact h
    · exact hnone d hd hlt'
  · rintro ⟨hlt, hnone, hoff⟩
    refine ⟨?_, fun d hd had => ?_, ?_⟩
    · simp only [nptentries] at hb hlt hoff ⊢
      omega
    · rw [hdiv] at had
      exact hnone d hd (Nat.le_of_succ_le had)
    · rwa [hmod]

/-- What lies in between is not present or skipped. -/
theorem skips_of_lt (h : pgdir.walk a = none) (hab : a ≤ b) (hb : b < a + nptentries)
    (hp : pgdir.Present b) :
    pgdir.Skips a b := by
  rw [walk_eq_none] at h
  have hd : b / nptentries ≠ a / nptentries := by
    intro hd
    obtain ⟨pte, hpte, -⟩ := hp
    have hnone : pgdir.walk b = none := by rw [walk_eq_none, hd, h]
    cases hnone.symm.trans hpte
  refine ⟨?_, fun d hd' had => ?_, ?_⟩
  · simp only [nptentries] at hab hb hd ⊢
    omega
  · obtain rfl : d = a / nptentries := by
      simp only [nptentries] at hab hb hd hd' had ⊢
      omega
    exact h
  · simp only [nptentries] at hab hb hd ⊢
    omega

theorem skips_setPte (pte : Pte) (c : ℕ) : (pgdir.setPte c pte).Skips a b ↔ pgdir.Skips a b := by
  simp only [Skips, pgtab_setPte_eq_none]

/-! ## The loop -/

/-- The pages from `a` to `top` that the loop frees. -/
def victims (pgdir : Pgdir) (a top : ℕ) : List ℕ :=
  (List.range' a (top - a)).filter fun b => pgdir.Present b ∧ ¬pgdir.Skips a b

theorem mem_victims {top : ℕ} : b ∈ pgdir.victims a top ↔
    (a ≤ b ∧ b < top) ∧ pgdir.Present b ∧ ¬pgdir.Skips a b := by
  simp only [victims, List.mem_filter, List.mem_range'_1, decide_eq_true_eq]
  constructor
  · rintro ⟨hb, hp⟩
    exact ⟨by omega, hp⟩
  · rintro ⟨hb, hp⟩
    exact ⟨by omega, hp⟩

/-- Pages that fail the test may be left out in front. -/
theorem filter_range'_add {p : ℕ → Bool} {n c : ℕ} (h : ∀ b, a ≤ b → b < a + c → p b = false) :
    (List.range' a n).filter p = (List.range' (a + c) (n - c)).filter p := by
  by_cases hc : c ≤ n
  · have hsplit : List.range' a n = List.range' a c ++ List.range' (a + c) (n - c) := by
      rw [List.range'_append_1, Nat.add_sub_cancel' hc]
    rw [hsplit, List.filter_append, List.filter_eq_nil_iff.2, List.nil_append]
    intro b hb
    rw [List.mem_range'_1] at hb
    simp [h b hb.1 hb.2]
  · rw [show n - c = 0 by omega, List.range'_zero, List.filter_nil, List.filter_eq_nil_iff]
    intro b hb
    rw [List.mem_range'_1] at hb
    simp [h b hb.1 (by omega)]

theorem victims_skip (h : pgdir.walk a = none) (top : ℕ) :
    pgdir.victims a top = pgdir.victims (a + nptentries) top := by
  unfold victims
  rw [filter_range'_add (c := nptentries), Nat.sub_sub]
  · refine List.filter_congr fun b hb => ?_
    rw [List.mem_range'_1] at hb
    simp only [skips_add h hb.1]
  · intro b hab hb
    simp only [decide_eq_false_iff_not, not_and, not_not]
    exact skips_of_lt h hab hb

theorem victims_cons {top : ℕ} (h : pgdir.walk a ≠ none) (ha : a < top) :
    pgdir.victims a top =
      if pgdir.Present a then a :: pgdir.victims (a + 1) top else pgdir.victims (a + 1) top := by
  have hrange : List.range' a (top - a) = a :: List.range' (a + 1) (top - (a + 1)) := by
    rw [show top - a = top - (a + 1) + 1 by omega, List.range'_succ]
  unfold victims
  simp only [hrange, List.filter_cons, not_skips_of_table h, not_skips_succ h, not_false_eq_true,
    and_true, decide_eq_true_eq]

/-- A page that has been freed is not looked at again. -/
theorem victims_setPte (top : ℕ) (hc : pgdir.walk b ≠ none) (hb : b < a) :
    (pgdir.setPte b .zero).victims a top = pgdir.victims a top := by
  refine List.filter_congr fun x hx => ?_
  rw [List.mem_range'_1] at hx
  have hwalk : (pgdir.setPte b .zero).walk x = pgdir.walk x := by
    rw [walk_setPte hc, if_neg (by omega)]
  refine decide_eq_decide.2 ?_
  simp only [skips_setPte, Present, hwalk]

/-- The pages of the directory `pgdir` at the addresses `bs` have been passed to `kfree`. -/
structure Freed (pgdir : Pgdir) (bs : List ℕ) (m : Kmem) (pgdir' : Pgdir) (m' : Kmem) : Prop where
  walk : ∀ b, pgdir'.walk b = if b ∈ bs then some .zero else pgdir.walk b
  freed : m'.freed = m.freed ++ bs.map pgdir.frame
  give : m'.give = m.give
  kend : m'.kend = m.kend
  mem : ∀ k, k ∉ bs.map pgdir.frame → m'.mem k = m.mem k

theorem Freed.nil (pgdir : Pgdir) (m : Kmem) : Freed pgdir [] m pgdir m :=
  ⟨fun b => by simp, by simp, rfl, rfl, fun _ _ => rfl⟩

/-- One page more in front. -/
theorem Freed.cons {bs : List ℕ} {pgdir' : Pgdir} {m' : Kmem} (ha : pgdir.walk a ≠ none)
    (hbs : a ∉ bs) (h : Freed (pgdir.setPte a .zero) bs
      { m.fill (pgdir.frame a) fun _ => 1 with freed := m.freed ++ [pgdir.frame a] } pgdir' m') :
    Freed pgdir (a :: bs) m pgdir' m' := by
  have hframe : bs.map (pgdir.setPte a .zero).frame = bs.map pgdir.frame := by
    refine List.map_congr_left fun b hb => ?_
    have hne : b ≠ a := fun he => hbs (he ▸ hb)
    rw [frame, frame, walk_setPte ha, if_neg hne]
  refine ⟨fun b => ?_, ?_, h.give, h.kend, fun k hk => ?_⟩
  · rw [h.walk b, walk_setPte ha]
    by_cases hb : b = a
    · subst hb
      simp [hbs]
    · simp [hb]
  · rw [h.freed, hframe, List.map_cons, List.append_assoc]
    rfl
  · rw [List.map_cons, List.mem_cons, not_or] at hk
    rw [h.mem k (hframe ▸ hk.2)]
    exact update_of_ne hk.1 ..

theorem le_mul_pgsize_iff {n : ℕ} : n ≤ a * pgsize ↔ pages n ≤ a := by
  simp only [pages, pgsize]
  omega

/-- The loop passes the pages to `kfree`, or comes to one that `kfree` does not take. -/
theorem deallocLoop_cases (oldsz : ℕ) : ∀ (fuel a : ℕ) (pgdir : Pgdir)
    (m : Kmem), pages oldsz ≤ a + fuel →
    (∃ pgdir' m', deallocLoop oldsz fuel a pgdir m = .ok (pgdir', m') ∧
        Freed pgdir (pgdir.victims a (pages oldsz)) m pgdir' m' ∧
        ∀ b ∈ pgdir.victims a (pages oldsz), m.Owns (pgdir.frame b)) ∨
      deallocLoop oldsz fuel a pgdir m = .error .kfree ∧
        ∃ b ∈ pgdir.victims a (pages oldsz), ¬m.Owns (pgdir.frame b) := by
  have hdone : ∀ {a : ℕ} (pgdir : Pgdir), pages oldsz ≤ a → pgdir.victims a (pages oldsz) = [] := by
    intro a pgdir ha
    simp [victims, Nat.sub_eq_zero_of_le ha]
  intro fuel
  induction fuel with
  | zero =>
    intro a pgdir m hfuel
    rw [hdone (a := a) pgdir hfuel]
    exact .inl ⟨pgdir, m, rfl, .nil pgdir m, nofun⟩
  | succ fuel ih =>
    intro a pgdir m hfuel
    rw [deallocLoop]
    by_cases hend : oldsz ≤ a * pgsize
    · rw [if_pos hend, hdone pgdir (le_mul_pgsize_iff.1 hend)]
      exact .inl ⟨pgdir, m, rfl, .nil pgdir m, nofun⟩
    rw [if_neg hend]
    have hlt : a < pages oldsz := by
      rw [le_mul_pgsize_iff] at hend
      omega
    cases hwalk : pgdir.walk a with
    | none =>
      rw [victims_skip hwalk]
      refine ih (a + nptentries) pgdir m ?_
      simp only [nptentries]
      omega
    | some pte =>
      have hne : pgdir.walk a ≠ none := by simp [hwalk]
      rw [victims_cons hne hlt]
      dsimp only
      by_cases hp : pte.has pteP
      · have hpresent : pgdir.Present a := ⟨pte, hwalk, hp⟩
        have hframe : pgdir.frame a = pte.ppn := by simp [frame, hwalk]
        rw [if_pos hp, if_pos hpresent]
        have hvictims := victims_setPte (pages oldsz) hne (Nat.lt_succ_self a)
        -- what is freed later is mapped as before
        have hlater : ∀ b ∈ pgdir.victims (a + 1) (pages oldsz),
            (pgdir.setPte a .zero).frame b = pgdir.frame b := by
          intro b hb
          have hab := (mem_victims.1 hb).1.1
          rw [frame, frame, walk_setPte hne, if_neg (by omega)]
        by_cases howns : m.Owns pte.ppn
        · have hkfree : m.kfree pte.ppn =
              .ok { m.fill (pgdir.frame a) fun _ => 1 with freed := m.freed ++ [pgdir.frame a] } :=
                by
            rw [Kmem.kfree, if_pos howns, hframe]
          rw [hkfree]
          have hrest := ih (a + 1) (pgdir.setPte a .zero)
            { m.fill (pgdir.frame a) fun _ => 1 with freed := m.freed ++ [pgdir.frame a] }
              (by omega)
          rw [hvictims] at hrest
          rcases hrest with ⟨pgdir', m', heq, hfreed, hall⟩ | ⟨heq, b, hb, hno⟩
          · refine .inl ⟨pgdir', m', heq, .cons hne (fun ha => ?_) hfreed, fun b hb => ?_⟩
            · have := (mem_victims.1 ha).1.1
              omega
            · rcases List.mem_cons.1 hb with rfl | hb
              · exact hframe ▸ howns
              · exact hlater b hb ▸ hall b hb
          · exact .inr ⟨heq, b, List.mem_cons_of_mem a hb, fun h => hno ((hlater b hb).symm ▸ h)⟩
        · refine .inr ⟨?_, a, List.mem_cons_self, fun h => howns (hframe ▸ h)⟩
          rw [Kmem.kfree, if_neg howns]
          rfl
      · have habsent : ¬pgdir.Present a := by
          rintro ⟨q, hq, hqp⟩
          cases hwalk.symm.trans hq
          exact hp hqp
        rw [if_neg hp, if_neg habsent]
        exact ih (a + 1) pgdir m (by omega)

variable {oldsz newsz : ℕ}

theorem deallocuvm_cases (pgdir : Pgdir) (m : Kmem) (hsz : newsz < oldsz) :
    (∃ pgdir' m', pgdir.deallocuvm oldsz newsz m = .ok (pgdir', m') ∧
        Freed pgdir (pgdir.victims (pages newsz) (pages oldsz)) m pgdir' m' ∧
        ∀ b ∈ pgdir.victims (pages newsz) (pages oldsz), m.Owns (pgdir.frame b)) ∨
      pgdir.deallocuvm oldsz newsz m = .error .kfree ∧
        ∃ b ∈ pgdir.victims (pages newsz) (pages oldsz), ¬m.Owns (pgdir.frame b) := by
  rw [deallocuvm, if_neg (Nat.not_le.2 hsz)]
  exact deallocLoop_cases oldsz (pages oldsz) (pages newsz) pgdir m (by omega)

/-! ## When everything is freed -/

/-- The present pages of the range `[PGROUNDUP(newsz), oldsz)`. -/
def inRange (pgdir : Pgdir) (oldsz newsz : ℕ) : List ℕ :=
  (List.range' (pages newsz) (pages oldsz - pages newsz)).filter fun b => pgdir.Present b

theorem mem_inRange : b ∈ pgdir.inRange oldsz newsz ↔
    (pages newsz ≤ b ∧ b < pages oldsz) ∧ pgdir.Present b := by
  simp only [inRange, List.mem_filter, List.mem_range'_1, decide_eq_true_eq]
  constructor
  · rintro ⟨hb, hp⟩
    exact ⟨by omega, hp⟩
  · rintro ⟨hb, hp⟩
    exact ⟨by omega, hp⟩

/-- `deallocuvm` returns, no page of the range is present, each one that was present has been passed
to `kfree` once, and all other entries are as before. -/
structure Completes (pgdir : Pgdir) (oldsz newsz : ℕ) (m : Kmem) (pgdir' : Pgdir)
    (m' : Kmem) : Prop where
  returns : pgdir.deallocuvm oldsz newsz m = .ok (pgdir', m')
  absent : ∀ b, pages newsz ≤ b → b < pages oldsz → ¬pgdir'.Present b
  freed : m'.freed = m.freed ++ (pgdir.inRange oldsz newsz).map pgdir.frame
  others : ∀ b, ¬(pages newsz ≤ b ∧ b < pages oldsz) → pgdir'.walk b = pgdir.walk b

/-- The present pages of the range belong to `kalloc`, and none is skipped. -/
def Reached (pgdir : Pgdir) (oldsz newsz : ℕ) (m : Kmem) : Prop :=
  ∀ b, pages newsz ≤ b → b < pages oldsz → pgdir.Present b →
    m.Owns (pgdir.frame b) ∧ ¬pgdir.Skips (pages newsz) b

theorem victims_eq_inRange
    (h : ∀ b, pages newsz ≤ b → b < pages oldsz → pgdir.Present b → ¬pgdir.Skips (pages newsz) b) :
    pgdir.victims (pages newsz) (pages oldsz) = pgdir.inRange oldsz newsz := by
  refine List.filter_congr fun b hb => decide_eq_decide.2 ?_
  rw [List.mem_range'_1] at hb
  exact ⟨fun hp => hp.1, fun hp => ⟨hp, h b hb.1 (by omega) hp⟩⟩

/-- `deallocuvm` does all that it should exactly if the present pages of the range came from
`kalloc` and no present page is skipped on the way up from a page whose page table is missing. -/
theorem deallocuvm_complete_iff (pgdir : Pgdir) (oldsz newsz : ℕ) (m : Kmem) (hsz : newsz < oldsz) :
    (∃ pgdir' m', Completes pgdir oldsz newsz m pgdir' m') ↔ Reached pgdir oldsz newsz m := by
  constructor
  · rintro ⟨pgdir', m', hdone⟩ b hlo hhi hp
    rcases deallocuvm_cases pgdir m hsz with ⟨pgdir1, m1, heq, hfreed, howns⟩ | ⟨heq, -⟩
    · cases heq.symm.trans hdone.returns
      -- a page that was present and is not any more has been freed
      have hmem : b ∈ pgdir.victims (pages newsz) (pages oldsz) := by
        by_contra hno
        have hwalk := hfreed.walk b
        rw [if_neg hno] at hwalk
        obtain ⟨pte, hpte, hpp⟩ := hp
        exact hdone.absent b hlo hhi ⟨pte, hwalk.trans hpte, hpp⟩
      exact ⟨howns b hmem, (mem_victims.1 hmem).2.2⟩
    · cases heq.symm.trans hdone.returns
  · intro hreach
    have hvictims := victims_eq_inRange fun b hlo hhi hp => (hreach b hlo hhi hp).2
    rcases deallocuvm_cases pgdir m hsz with ⟨pgdir', m', heq, hfreed, -⟩ | ⟨-, b, hb, hno⟩
    · rw [hvictims] at hfreed
      refine ⟨pgdir', m', heq, fun b hlo hhi hp => ?_, hfreed.freed, fun b hb => ?_⟩
      · obtain ⟨pte, hpte, hpp⟩ := hp
        have hwalk := hfreed.walk b
        split_ifs at hwalk with hmem
        · exact not_present_of_walk_zero hwalk ⟨pte, hpte, hpp⟩
        · exact hmem (mem_inRange.2 ⟨⟨hlo, hhi⟩, pte, hwalk.symm.trans hpte, hpp⟩)
      · rw [hfreed.walk b, if_neg fun hmem => hb (mem_inRange.1 hmem).1]
    · obtain ⟨⟨hlo, hhi⟩, hp, -⟩ := mem_victims.1 hb
      exact absurd (hreach b hlo hhi hp).1 hno

/-- A directory with the second page table only, which maps its first page. -/
def upperOnly : Pgdir where
  page := 0
  pgtab d := if d = 1 then some ⟨1, fun e => if e = 0 then ⟨2, pteP ||| pteW ||| pteU⟩ else .zero⟩
    else none

def fewPages : Kmem where
  give _ := none
  kend := 1
  kend_pos := Nat.one_pos
  mem _ _ := 0
  freed := []

/-- From the beginning of the first page table, the second one is reached at its beginning. -/
theorem deallocuvm_complete_upperOnly :
    ∃ pgdir' m', Completes upperOnly (1025 * pgsize) 0 fewPages pgdir' m' := by
  refine (deallocuvm_complete_iff upperOnly (1025 * pgsize) 0 fewPages (by decide)).2 ?_
  intro b _ hhi hp
  have hd : b / nptentries = 1 := by
    obtain ⟨pte, hpte, -⟩ := hp
    by_contra hne
    simp [walk, upperOnly, hne] at hpte
  have hb : b = 1024 := by
    simp only [nptentries, pages, pgsize] at hd hhi
    omega
  subst hb
  exact ⟨by decide, by decide⟩

/-- From page 1 on, the second page table is reached after its first page, which stays mapped. -/
theorem deallocuvm_skips :
    ¬∃ pgdir' m', Completes upperOnly (1025 * pgsize) pgsize fewPages pgdir' m' := by
  rintro ⟨pgdir', m', h⟩
  obtain ⟨r, hr, hp⟩ :=
    Stoppable.exists_ok (x := upperOnly.deallocuvm (1025 * pgsize) pgsize fewPages)
    (fun r => r.1.Present 1024) (by decide +kernel)
  cases hr.symm.trans h.returns
  exact h.absent 1024 (by decide) (by decide) hp

end Pgdir

end Uvm

end Xv6
