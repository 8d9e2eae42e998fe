import Xv6.Lib.Stoppable
import Xv6.Vm.Paging

set_option autoImplicit false

/-! # The address space of a new image

While `exec` builds an image, its page directory has one shape (`Space n`): an entry below
`KERNBASE` is empty, or is one of the first `n` pages and mapped to a page that `allocuvm` has
allocated, and the part above `KERNBASE` is the kernel's. Nothing is said of which page tables there
are: `allocuvm` does not notice when there is no memory for one. A directory that is only to be
freed needs less (`Freeable`): what is mapped below `KERNBASE` came from `kalloc`. -/

namespace Xv6

open Function Stoppable

/-- The first page of the kernel's part. -/
abbrev kernPage : ℕ := 524288

theorem pages_mono {n n' : ℕ} (h : n ≤ n') : pages n ≤ pages n' :=
  Nat.div_le_div_right (by omega)

theorem le_pages_mul (n : ℕ) : n ≤ pages n * pgsize := by
  simp only [pages, pgsize]
  omega

theorem pages_le_kernPage {n : ℕ} (h : n ≤ kernbase) : pages n ≤ kernPage := pages_mono h

/-- `loaduvm` has stored only to pages that `allocuvm` has mapped, below `KERNBASE`. -/
structure Kmem.Safe (m : Kmem) : Prop where
  mapped : m.stores ⊆ m.mapped
  below : ∀ x ∈ m.mapped, x.1 < kernPage

namespace Pgdir

variable {pgdir pgdir' : Pgdir} {m : Kmem} {a n : ℕ}

/-! ## What the operations do to the entries -/

theorem walk_setPte (h : (walk pgdir a).isSome = true) (pte : Pte) (b : ℕ) :
    walk (setPte pgdir a pte) b = if b = a then some pte else walk pgdir b := by
  obtain ⟨table, htable⟩ : ∃ table, pgdir (a / nptentries) = some table := by
    simpa [walk, Option.isSome_iff_exists] using h
  unfold walk setPte
  rw [htable]
  by_cases hd : b / nptentries = a / nptentries
  · rw [hd, update_self, htable]
    by_cases he : b % nptentries = a % nptentries
    · have hab : b = a := by rw [← Nat.div_add_mod b nptentries, hd, he, Nat.div_add_mod]
      simp [hab]
    · have hab : b ≠ a := fun h => he (h ▸ rfl)
      simp [hab, update_of_ne he]
  · have hab : b ≠ a := fun h => hd (h ▸ rfl)
    rw [update_of_ne hd, if_neg hab]

/-- From `pgdir` to `pgdir'` entry `a` has been set, in a page table that is new if there was
    none. -/
def SetsEntry (a : ℕ) (pte : Pte) (pgdir pgdir' : Pgdir) : Prop :=
  ∀ b, walk pgdir' b =
    if b = a then some pte
    else if walk pgdir a = none ∧ b / nptentries = a / nptentries then some .zero
    else walk pgdir b

/-- `walkpgdir` finds a page table, or makes one if there is memory. -/
theorem walkAlloc_cases (pgdir : Pgdir) (a : ℕ) (m : Kmem) :
    ∃ found calls, walkAlloc pgdir a m = (found, { m with calls := calls }) ∧
      ∀ pgdir', found = some pgdir' → ∀ b, walk pgdir' b =
        if walk pgdir a = none ∧ b / nptentries = a / nptentries then some .zero
          else walk pgdir b := by
  unfold walkAlloc
  cases htable : pgdir (a / nptentries) with
  | some table =>
    refine ⟨some pgdir, m.calls, rfl, ?_⟩
    rintro _ ⟨⟩ b
    simp [walk, htable]
  | none =>
    have hnone : walk pgdir a = none := by simp [walk, htable]
    by_cases havail : m.avail .table m.calls = true
    · refine ⟨_, m.calls + 1, by simp [Kmem.kalloc, havail]; rfl, ?_⟩
      rintro _ ⟨⟩ b
      by_cases hd : b / nptentries = a / nptentries
      · simp [walk, hd, htable]
      · simp [walk, hd]
    · exact ⟨none, m.calls + 1, by simp [Kmem.kalloc, havail], by rintro _ ⟨⟩⟩

/-- `mappages` of a page that is not mapped leaves the directory as it is or sets the entry. -/
theorem mappages_cases (h : ∀ q, walk pgdir a = some q → q.present = false) (pte : Pte) (m : Kmem) :
    ∃ ok pgdir' calls, mappages pgdir a pte m = .ok (ok, pgdir', { m with calls := calls }) ∧
      if ok then SetsEntry a pte pgdir pgdir' else pgdir' = pgdir := by
  obtain ⟨found, calls, hwalk, hspec⟩ := walkAlloc_cases pgdir a m
  rcases found with _ | pgdir1
  · exact ⟨false, pgdir, calls, by simp [mappages, hwalk], rfl⟩
  replace hspec := hspec pgdir1 rfl
  obtain ⟨q, hq, hpresent⟩ : ∃ q, walk pgdir1 a = some q ∧ q.present = false := by
    rw [hspec a]
    cases hq : walk pgdir a with
    | none => exact ⟨.zero, by simp, rfl⟩
    | some q => exact ⟨q, by simp, h q hq⟩
  refine ⟨true, setPte pgdir1 a pte, calls, by simp [mappages, hwalk, hq, hpresent], fun b => ?_⟩
  rw [walk_setPte (by simp [hq])]
  split_ifs with hb hnew
  · rfl
  · rw [hspec b, if_pos hnew]
  · rw [hspec b, if_neg hnew]

/-! ## Freeing a directory -/

/-- What is mapped below `KERNBASE` came from `kalloc`. -/
def Freeable (pgdir : Pgdir) : Prop :=
  ∀ a < kernPage, ∀ q, walk pgdir a = some q → q.present = true → ∃ k, q.frame = .page k

theorem Freeable.setPte_zero (h : Freeable pgdir) (ha : (walk pgdir a).isSome = true) :
    Freeable (setPte pgdir a .zero) := by
  intro b hb q hq hpresent
  rw [walk_setPte ha] at hq
  split_ifs at hq with hba
  · cases hq
    cases hpresent
  · exact h b hb q hq hpresent

variable {oldsz : ℕ}

theorem deallocLoop_yields (hsz : oldsz ≤ kernbase) (fuel : ℕ) (h : Freeable pgdir) :
    Yields (fun _ => False) (fun x => Freeable x.1 ∧ ∃ freed, x.2 = { m with freed := freed })
      (deallocLoop oldsz fuel a pgdir m) := by
  induction fuel generalizing a pgdir m with
  | zero => exact .ok ⟨h, m.freed, rfl⟩
  | succ fuel ih =>
    rw [deallocLoop]
    split_ifs with hend
    · exact .ok ⟨h, m.freed, rfl⟩
    cases hq : walk pgdir a with
    | none => exact ih h
    | some q =>
      dsimp only
      split_ifs with hpresent
      · have ha : a < kernPage := by
          simp only [kernbase, pgsize, kernPage] at hsz hend ⊢
          omega
        obtain ⟨k, hk⟩ := h a ha q hq hpresent
        rw [hk]
        refine (ih (h.setPte_zero (by simp [hq]))).post ?_
        rintro x ⟨hx, freed, hm⟩
        exact ⟨hx, freed, hm⟩
      · exact ih h

theorem deallocuvm_yields (newsz : ℕ) (hsz : oldsz ≤ kernbase) (h : Freeable pgdir) :
    Yields (fun _ => False) (fun x => Freeable x.1 ∧ ∃ freed, x.2 = { m with freed := freed })
      (deallocuvm pgdir oldsz newsz m) := by
  rw [deallocuvm]
  split_ifs
  · exact .ok ⟨h, m.freed, rfl⟩
  · exact deallocLoop_yields hsz _ h

theorem freevm_yields (h : Freeable pgdir) :
    Yields (fun _ => False) (fun m' => ∃ freed, m' = { m with freed := freed })
    (freevm pgdir m) := by
  refine (deallocuvm_yields 0 (Nat.le_refl _) h).bind ?_
  rintro ⟨pgdir', m'⟩ ⟨-, hm⟩
  exact .ok hm

/-! ## The shape of a new image -/

/-- The pages of the user's part are among the first `n`. -/
structure Space (n : ℕ) (m : Kmem) (pgdir : Pgdir) : Prop where
  le : n ≤ kernPage
  user : ∀ a < kernPage, ∀ q, walk pgdir a = some q →
    q = .zero ∨ a < n ∧ ∃ k u, q = ⟨.page k, true, u⟩ ∧ (a, k) ∈ m.mapped
  kernel : ∀ a, kernPage ≤ a → walk pgdir a = walk Pgdir.kernel a

theorem Space.freeable (h : Space n m pgdir) : Freeable pgdir := by
  intro a ha q hq hpresent
  obtain rfl | ⟨-, k, u, rfl, -⟩ := h.user a ha q hq
  · cases hpresent
  · exact ⟨k, rfl⟩

theorem Space.mono {m' : Kmem} {n' : ℕ} (h : Space n m pgdir) (hn : n ≤ n') (hle : n' ≤ kernPage)
    (hm : m.mapped ⊆ m'.mapped) : Space n' m' pgdir where
  le := hle
  user a ha q hq :=
    (h.user a ha q hq).imp_right fun ⟨hlt, k, u, hk, hmem⟩ => ⟨by omega, k, u, hk, hm hmem⟩
  kernel := h.kernel

theorem space_kernel (m : Kmem) : Space 0 m Pgdir.kernel where
  le := Nat.zero_le _
  user a ha q hq := by
    have hd : a / nptentries < 512 := Nat.div_lt_of_lt_mul ha
    simp [walk, Pgdir.kernel, Nat.not_le.2 hd,
      Nat.not_le.2 (Nat.lt_trans hd (by decide : 512 < 1016))] at hq
  kernel _ _ := rfl

/-- Setting an entry that is not the kernel's. -/
theorem Space.setPte {pte : Pte} (h : Space n m pgdir) (ha : a < kernPage)
    (hsome : (walk pgdir a).isSome = true)
    (hpte : pte = .zero ∨ a < n ∧ ∃ k u, pte = ⟨.page k, true, u⟩ ∧ (a, k) ∈ m.mapped) :
    Space n m (setPte pgdir a pte) where
  le := h.le
  user b hb q hq := by
    rw [walk_setPte hsome] at hq
    split_ifs at hq with hba
    · cases hq
      exact hba ▸ hpte
    · exact h.user b hb q hq
  kernel b hb := by rw [walk_setPte hsome, if_neg (by omega), h.kernel b hb]

/-! ## `allocuvm` -/

/-- One round of `allocuvm` makes the image a page longer. -/
theorem Space.setsEntry {k : ℕ} (h : Space n m pgdir) (hn : n < kernPage)
    (hset : SetsEntry n ⟨.page k, true, true⟩ pgdir pgdir') (hk : (n, k) ∈ m.mapped) :
    Space (n + 1) m pgdir' where
  le := hn
  user a ha q hq := by
    rw [hset a] at hq
    split_ifs at hq with han hnew
    · cases hq
      exact .inr ⟨by omega, k, true, rfl, han ▸ hk⟩
    · cases hq
      exact .inl rfl
    · exact (h.mono (Nat.le_succ n) hn (List.Subset.refl _)).user a ha q hq
  kernel a ha := by
    have hd : a / nptentries ≠ n / nptentries := by
      simp only [nptentries, kernPage] at ha hn ⊢
      omega
    rw [hset a, if_neg (by omega), if_neg (fun h => hd h.2), h.kernel a ha]

theorem allocLoop_yields (hs : m.Safe) (cnt : ℕ) (h : Space n m pgdir) (hle : n + cnt ≤ kernPage) :
    Yields (fun _ => False) (fun x => x.2.2.Safe ∧ Space (n + cnt) x.2.2 x.2.1)
      (allocLoop cnt n pgdir m) := by
  induction cnt generalizing n pgdir m with
  | zero => exact .ok ⟨hs, h⟩
  | succ cnt ih =>
    rw [allocLoop]
    by_cases havail : m.avail .page m.calls = true
    swap
    · simp only [Kmem.kalloc, havail]
      exact .ok ⟨⟨hs.mapped, hs.below⟩,
        h.mono (Nat.le_add_right _ _) hle (List.Subset.refl _)⟩
    simp only [Kmem.kalloc, havail, if_true]
    have habsent (q : Pte) (hq : walk pgdir n = some q) : q.present = false := by
      obtain rfl | ⟨hlt, -⟩ := h.user n (by omega) q hq
      · rfl
      · exact absurd hlt (Nat.lt_irrefl n)
    obtain ⟨ok, pgdir', calls, hmap, hset⟩ := mappages_cases habsent
      ⟨.page m.calls, true, true⟩ ({ m with calls := m.calls + 1 }.zero m.calls)
    refine Yields.bind_eq hmap ?_
    dsimp only
    rw [show n + (cnt + 1) = n + 1 + cnt by omega] at hle ⊢
    cases ok with
    | false =>
      obtain rfl : pgdir' = pgdir := hset
      exact ih ⟨hs.mapped, hs.below⟩ (h.mono (Nat.le_succ n) (by omega) (List.Subset.refl _)) hle
    | true =>
      rw [if_pos rfl]
      generalize hm' : Kmem.mk _ _ _ _ _ _ _ = m'
      have hmapped : m'.mapped = m.mapped ++ [(n, m.calls)] := hm' ▸ rfl
      have hstores : m'.stores = m.stores := hm' ▸ rfl
      have hgrown : m.mapped ⊆ m'.mapped := hmapped ▸ List.subset_append_left _ _
      have hsafe : m'.Safe := by
        refine ⟨fun x hx => hgrown (hs.mapped (hstores ▸ hx)), fun x hx => ?_⟩
        rcases List.mem_append.1 (hmapped ▸ hx) with hx | hx
        · exact hs.below x hx
        · rw [List.mem_singleton.1 hx]
          exact Nat.lt_of_lt_of_le (Nat.lt_succ_self n) (Nat.le_trans (Nat.le_add_right _ _) hle)
      have hspace : Space (n + 1) m' pgdir' :=
        (h.mono (Nat.le_refl n) h.le hgrown).setsEntry (by omega) hset (by simp [hmapped])
      exact ih hsafe hspace hle

/-- Whatever memory there is, `allocuvm` does not stop, and where it returns a size the image has
    it. -/
theorem allocuvm_yields (newsz : ℕ) (hs : m.Safe) (h : Space (pages oldsz) m pgdir) :
    Yields (fun _ => False)
      (fun x => x.2.2.Safe ∧ Freeable x.2.1 ∧ (x.1 ≠ 0 → Space (pages x.1) x.2.2 x.2.1))
      (allocuvm pgdir oldsz newsz m) := by
  rw [allocuvm]
  split_ifs with hkern hlt
  · exact .ok ⟨hs, h.freeable, fun hx => (hx rfl).elim⟩
  · exact .ok ⟨hs, h.freeable, fun _ => h⟩
  · have hpages : pages oldsz + (pages newsz - pages oldsz) = pages newsz :=
      Nat.add_sub_cancel' (pages_mono (by omega))
    refine (allocLoop_yields hs _ h ?_).bind ?_
    · rw [hpages]
      exact pages_le_kernPage (by omega)
    rintro ⟨ok, pgdir', m'⟩ ⟨hsafe, hspace⟩
    rw [hpages] at hspace
    cases ok with
    | true => exact .ok ⟨hsafe, hspace.freeable, fun _ => hspace⟩
    | false =>
      refine (deallocuvm_yields (m := m') oldsz (Nat.le_of_lt (Nat.lt_of_not_le hkern))
        hspace.freeable).bind ?_
      rintro ⟨pgdir'', m''⟩ ⟨hfree, freed, hm''⟩
      cases hm''
      exact .ok ⟨⟨hsafe.mapped, hsafe.below⟩, hfree, fun hx => (hx rfl).elim⟩

end Pgdir

end Xv6
