import Xv6.Vm.AllocUvm

set_option autoImplicit false

/-! # What `copyuvm` copies

The new directory has the kernel's part first, from `setupkvm`, which leaves the user's part empty.
Then each page of the parent gets a page with the same bytes and an entry with the same bits. All
pages of the child come from `kalloc`, so that none is a page of the parent (`copyuvm_faithful`). A
size above `KERNBASE` does not get that far: the page at `KERNBASE` is the kernel's already, and
`mappages` panics. -/

namespace Xv6

namespace Uvm

open Function

namespace Pgdir

variable {pgdir pgdir' d d' : Pgdir} {m m' : Kmem} {a b k n : ℕ} {perm : BitVec 12}

/-! ## The bit for present pages -/

theorem getElem_pteP (i : ℕ) (hi : i < 12) : pteP[i] = decide (i = 0) := BitVec.getElem_one hi

theorem has_or_present (k : ℕ) (perm : BitVec 12) : Pte.has pteP ⟨k, perm ||| pteP⟩ := by
  have hbit : (perm ||| pteP) &&& pteP = pteP := by
    ext i hi
    rw [BitVec.getElem_and, BitVec.getElem_or]
    cases perm[i] <;> simp
  show (perm ||| pteP) &&& pteP ≠ 0
  rw [hbit]
  decide

variable {pte : Pte}

/-- The entry of a present page is set again as it was. -/
theorem flags_or_present (h : pte.has pteP) : pte.flags ||| pteP = pte.flags := by
  have hbit : pte.flags[0] = true := by
    by_contra hno
    rw [Bool.not_eq_true] at hno
    refine h (BitVec.eq_of_getElem_eq fun i hi => ?_)
    rw [BitVec.getElem_and, getElem_pteP]
    by_cases h0 : i = 0
    · subst h0
      simp [hno]
    · simp [h0]
  ext i hi
  rw [BitVec.getElem_or, getElem_pteP]
  by_cases h0 : i = 0
  · subst h0
    simp [hbit]
  · simp [h0]

/-! ## `mappages` of a range -/

theorem mappages_remap (h : pgdir.Present a) (n : ℕ) :
    mappages (n + 1) a k perm pgdir m = .error .remap := by
  obtain ⟨pte, hpte, hp⟩ := h
  rw [mappages, walkAlloc_of_table (by simp [hpte])]
  simp [hpte, hp]

/-- The first page of a range that has been mapped. -/
theorem mappages_true (h : mappages (n + 1) a k perm pgdir m = .ok (true, pgdir')) :
    ¬pgdir.Present a ∧ ∃ pgdir1, SetsEntry m a ⟨k, perm ||| pteP⟩ pgdir pgdir1 ∧
      mappages n (a + 1) (k + 1) perm pgdir1 m = .ok (true, pgdir') := by
  have habsent : ¬pgdir.Present a := by
    intro hp
    rw [mappages_remap hp] at h
    cases h
  have htable : pgdir.walk a = none → m.give (.table a) ≠ none := by
    intro hwalk hm
    rw [mappages_fails hwalk hm] at h
    cases h
  obtain ⟨pgdir1, heq, hset⟩ := mappages_succ (k := k) habsent n perm htable
  exact ⟨habsent, pgdir1, hset, heq ▸ h⟩

/-- The directory and the page tables came from `kalloc`. -/
structure Given (m : Kmem) (d : Pgdir) : Prop where
  page : ∃ x, m.give x = some d.page
  tables : ∀ e t, d.pgtab e = some t → ∃ x, m.give x = some t.page

theorem Given.setsEntry {m1 : Kmem} (h : Given m d) (hset : SetsEntry m1 a pte d d')
    (hgive : m1.give = m.give) : Given m d' := by
  refine ⟨hset.page ▸ h.page, fun e t ht => ?_⟩
  rcases hset.tables e t ht with ⟨t0, ht0, hpage⟩ | hnew
  · exact hpage ▸ h.tables e t0 ht0
  · exact ⟨.table a, hgive ▸ hnew⟩

/-- In other page tables nothing changes. -/
theorem SetsEntry.walk_of_ne (h : SetsEntry m a pte pgdir pgdir')
    (hne : b / nptentries ≠ a / nptentries) : pgdir'.walk b = pgdir.walk b := by
  have hba : b ≠ a := fun hba => hne (hba ▸ rfl)
  rw [h.walk b, if_neg hba, if_neg fun hnew => hne hnew.2]

/-- A page that is there already keeps its entry. -/
theorem SetsEntry.walk_of_some {pte q : Pte} (h : SetsEntry m a pte pgdir pgdir')
    (hq : pgdir.walk b = some q) (hba : b ≠ a) : pgdir'.walk b = some q := by
  have hold : ¬(pgdir.walk a = none ∧ b / nptentries = a / nptentries) := by
    rintro ⟨hnone, hsame⟩
    rw [walk_eq_none] at hnone
    have hnone' : pgdir.walk b = none := by rw [walk_eq_none, hsame, hnone]
    cases hnone'.symm.trans hq
  rw [h.walk b, if_neg hba, if_neg hold, hq]

theorem SetsEntry.present_of (h : SetsEntry m a ⟨k, perm ||| pteP⟩ pgdir pgdir')
    (hb : pgdir.Present b) :
    pgdir'.Present b := by
  by_cases hba : b = a
  · subst hba
    refine ⟨_, by rw [h.walk b, if_pos rfl], ?_⟩
    exact has_or_present k perm
  · obtain ⟨pte, hpte, hp⟩ := hb
    exact ⟨pte, h.walk_of_some hpte hba, hp⟩

/-! ## The kernel's part -/

/-- From `d` to `d'` pages of the kernel's part have been mapped. -/
structure KernelGrows (m : Kmem) (d d' : Pgdir) : Prop where
  user : ∀ b < kernPage, d'.walk b = d.walk b
  present : ∀ b, d.Present b → d'.Present b
  given : Given m d → Given m d'

theorem KernelGrows.refl (m : Kmem) (d : Pgdir) : KernelGrows m d d :=
  ⟨fun _ _ => rfl, fun _ h => h, fun h => h⟩

theorem KernelGrows.trans {d1 d2 d3 : Pgdir} (h : KernelGrows m d1 d2) (h' : KernelGrows m d2 d3) :
    KernelGrows m d1 d3 :=
  ⟨fun b hb => (h'.user b hb).trans (h.user b hb), fun b hb => h'.present b (h.present b hb),
    fun hg => h'.given (h.given hg)⟩

theorem SetsEntry.kernelGrows (h : SetsEntry m a ⟨k, perm ||| pteP⟩ d d') (ha : kernPage ≤ a) :
    KernelGrows m d d' := by
  refine ⟨fun b hb => h.walk_of_ne ?_, fun b hb => h.present_of hb, fun hg => hg.setsEntry h rfl⟩
  -- no page table reaches over `KERNBASE`
  simp only [nptentries, kernPage] at ha hb ⊢
  omega

theorem mappages_kernelGrows : ∀ {n a k : ℕ} {d : Pgdir}, kernPage ≤ a →
    mappages n a k perm d m = .ok (true, d') → KernelGrows m d d' := by
  intro n
  induction n with
  | zero =>
    intro a k d _ h
    cases h
    exact .refl m _
  | succ n ih =>
    intro a k d ha h
    obtain ⟨-, d1, hset, hrest⟩ := mappages_true h
    exact (hset.kernelGrows ha).trans (ih (by omega) hrest)

/-- The first page of the range is mapped. -/
theorem mappages_present_first (ha : kernPage ≤ a)
    (h : mappages (n + 1) a k perm d m = .ok (true, d')) :
    d'.Present a := by
  obtain ⟨-, d1, hset, hrest⟩ := mappages_true h
  refine (mappages_kernelGrows (by omega) hrest).present a ⟨_, ?_, has_or_present k perm⟩
  rw [hset.walk a, if_pos rfl]

variable {es : List Kmap}

theorem mapKernel_cons {e : Kmap} (h : mapKernel (e :: es) d m = .ok (some d')) :
    ∃ d1, mappages e.count e.virt e.physStart e.perm d m = .ok (true, d1) ∧
      mapKernel es d1 m = .ok (some d') := by
  rw [mapKernel] at h
  generalize hmap : mappages e.count e.virt e.physStart e.perm d m = r at h
  match r with
  | .error _ => cases h
  | .ok (false, _) => cases h
  | .ok (true, d1) => exact ⟨d1, rfl, h⟩

theorem mapKernel_kernelGrows : ∀ {d : Pgdir}, (∀ e ∈ es, kernPage ≤ e.virt) →
    mapKernel es d m = .ok (some d') → KernelGrows m d d' := by
  induction es with
  | nil =>
    intro d _ h
    cases h
    exact .refl m _
  | cons e es ih =>
    intro d hes h
    obtain ⟨d1, hmap, hrest⟩ := mapKernel_cons h
    rw [List.forall_mem_cons] at hes
    exact (mappages_kernelGrows hes.1 hmap).trans (ih hes.2 hrest)

theorem kernPage_le_of_mem_kmap (data : ℕ) {e : Kmap} (h : e ∈ kmap data) : kernPage ≤ e.virt := by
  simp only [kmap, List.mem_cons, List.not_mem_nil, or_false] at h
  rcases h with rfl | rfl | rfl | rfl
  · exact Nat.le_refl _
  · exact Nat.le_add_right _ _
  · exact Nat.le_add_right _ _
  · show kernPage ≤ devspace / pgsize
    decide

/-- The kernel's part alone is mapped, from `KERNBASE` on, and with pages of `kalloc`. -/
structure KernelOnly (m : Kmem) (d : Pgdir) : Prop where
  user : ∀ b < kernPage, d.walk b = none
  first : d.Present kernPage
  given : Given m d

theorem setupkvm_kernelOnly {data : ℕ} (h : setupkvm data m = .ok (some d)) : KernelOnly m d := by
  unfold setupkvm at h
  cases hdir : m.give .dir with
  | none =>
    rw [hdir] at h
    cases h
  | some page =>
    rw [hdir] at h
    have hgiven : Given m ⟨page, fun _ => none⟩ := ⟨⟨.dir, hdir⟩, nofun⟩
    have hgrows := mapKernel_kernelGrows (fun e he => kernPage_le_of_mem_kmap data he) h
    refine ⟨fun b hb => hgrows.user b hb, ?_, hgrows.given hgiven⟩
    obtain ⟨d1, hmap, hrest⟩ := mapKernel_cons h
    have hfirst := mappages_present_first (n := 0xff) (Nat.le_refl _) hmap
    exact (mapKernel_kernelGrows
      (fun e he => kernPage_le_of_mem_kmap data (List.mem_cons_of_mem _ he)) hrest).present _ hfirst

/-! ## The copy -/

/-- Pages below `i` have been copied to the directory `d`, which was `d0`. -/
structure Copying (pgdir : Pgdir) (m0 : Kmem) (d0 : Pgdir) (i : ℕ) (d : Pgdir)
    (m : Kmem) : Prop where
  entry : ∀ a < i, ∃ pte k, pgdir.walk a = some pte ∧ d.walk a = some ⟨k, pte.flags⟩ ∧
    m0.give (.page a) = some k ∧ m.mem k = m0.mem pte.ppn
  above : ∀ a, i ≤ a → a < kernPage → ¬d.Present a
  kernel : ∀ a, kernPage ≤ a → d.walk a = d0.walk a
  given : Given m0 d
  give : m.give = m0.give
  others : ∀ k, (∀ a, m0.give (.page a) ≠ some k) → m.mem k = m0.mem k

theorem Copying.start (pgdir : Pgdir) (hd : KernelOnly m d) : Copying pgdir m d 0 d m := by
  refine ⟨nofun, fun a _ ha hp => ?_, fun _ _ => rfl, hd.given, rfl, fun _ _ => rfl⟩
  obtain ⟨pte, hpte, -⟩ := hp
  cases (hd.user a ha).symm.trans hpte

theorem Holds.of_present (ha : a < kernPage) (hwalk : pgdir.walk a = some pte) (hp : pte.has pteP) :
    pgdir.Holds pte.ppn :=
  .inr (.inr ⟨a, ha, ⟨pte, hwalk, hp⟩, by rw [frame, hwalk]; rfl⟩)

variable {d0 : Pgdir}

/-- One page more. -/
theorem Copying.round {m0 m1 : Kmem} {i : ℕ} (h : Copying pgdir m0 d0 i d m)
    (hfresh : Fresh m0 pgdir) (hi : i < kernPage) (hwalk : pgdir.walk i = some pte)
    (hp : pte.has pteP)
    (hk : m0.give (.page i) = some k) (hset : SetsEntry m1 i ⟨k, pte.flags ||| pteP⟩ d d')
    (hgive : m1.give = m0.give) : Copying pgdir m0 d0 (i + 1) d' (m.fill k (m.mem pte.ppn)) := by
  rw [flags_or_present hp] at hset
  have hsource : m.mem pte.ppn = m0.mem pte.ppn :=
    h.others _ fun a ha => hfresh.unused _ _ ha (.of_present hi hwalk hp)
  refine ⟨fun a ha => ?_, fun a hlo hhi hpa => ?_, fun a ha => ?_,
    h.given.setsEntry hset hgive, h.give, fun k' hk' => ?_⟩
  · by_cases hai : a = i
    · subst hai
      refine ⟨pte, k, hwalk, by rw [hset.walk a, if_pos rfl], hk, ?_⟩
      rw [← hsource]
      exact update_self ..
    · obtain ⟨q, k', hq, hd, hgive', hmem⟩ := h.entry a (by omega)
      refine ⟨q, k', hq, hset.walk_of_some hd hai, hgive', ?_⟩
      have hne : k' ≠ k := by
        rintro rfl
        cases hfresh.inj _ _ _ hgive' hk
        exact hai rfl
      rw [← hmem]
      exact update_of_ne hne ..
  · exact h.above a (by omega) hhi (hset.present hpa (by omega)).1
  · rw [← h.kernel a ha]
    refine hset.walk_of_ne ?_
    simp only [nptentries, kernPage] at ha hi ⊢
    omega
  · rw [← h.others k' hk']
    refine update_of_ne ?_ ..
    rintro rfl
    exact hk' i hk

theorem copyLoop_succ {i : ℕ} (h : copyLoop pgdir (n + 1) i d m = .ok (some d', m')) :
    ∃ pte k d1, pgdir.walk i = some pte ∧ pte.has pteP ∧ m.give (.page i) = some k ∧
      d.mappages 1 i k pte.flags (m.fill k (m.mem pte.ppn)) = .ok (true, d1) ∧
      copyLoop pgdir n (i + 1) d1 (m.fill k (m.mem pte.ppn)) = .ok (some d', m') := by
  -- what is returned after `freevm` is not a directory
  have hbad : ∀ (d : Pgdir) (m : Kmem), (do let m ← d.freevm m; .ok ((none : Option Pgdir), m)) ≠
      (.ok (some d', m') : Except Stop (Option Pgdir × Kmem)) := by
    intro d m heq
    cases hfree : d.freevm m with
    | error _ => rw [hfree] at heq; cases heq
    | ok _ => rw [hfree] at heq; cases heq
  rw [copyLoop] at h
  cases hwalk : pgdir.walk i with
  | none => rw [hwalk] at h; cases h
  | some pte =>
    rw [hwalk] at h
    dsimp only at h
    by_cases hp : pte.has pteP
    · rw [if_pos hp] at h
      cases hk : m.give (.page i) with
      | none => rw [hk] at h; exact absurd h (hbad d m)
      | some k =>
        rw [hk] at h
        dsimp only at h
        generalize hmap : d.mappages 1 i k pte.flags (m.fill k (m.mem pte.ppn)) = r at h
        match r with
        | .error _ => cases h
        | .ok (false, d1) => exact absurd h (hbad d1 _)
        | .ok (true, d1) => exact ⟨pte, k, d1, rfl, hp, rfl, hmap, h⟩
    · rw [if_neg hp] at h
      cases h

theorem copyLoop_copying {m0 : Kmem} (hfresh : Fresh m0 pgdir) (hkern : d0.Present kernPage) :
    ∀ {n i : ℕ} {d : Pgdir} {m : Kmem}, i ≤ kernPage → Copying pgdir m0 d0 i d m →
      copyLoop pgdir n i d m = .ok (some d', m') → i + n ≤ kernPage ∧
      Copying pgdir m0 d0 (i + n) d' m' := by
  intro n
  induction n with
  | zero =>
    intro i d m hi hcopy h
    cases h
    exact ⟨hi, hcopy⟩
  | succ n ih =>
    intro i d m hi hcopy h
    obtain ⟨pte, k, d1, hwalk, hp, hk, hmap, hrest⟩ := copyLoop_succ h
    obtain ⟨habsent, d2, hset, hdone⟩ := mappages_true hmap
    cases hdone
    have hlt : i < kernPage := by
      rcases Nat.eq_or_lt_of_le hi with rfl | hlt
      · obtain ⟨q, hq, hqp⟩ := hkern
        exact absurd ⟨q, (hcopy.kernel _ (Nat.le_refl _)).trans hq, hqp⟩ habsent
      · exact hlt
    have hstep := hcopy.round hfresh hlt hwalk hp (hcopy.give ▸ hk) hset hcopy.give
    obtain ⟨hle, hend⟩ := ih hlt hstep hrest
    rw [show i + (n + 1) = i + 1 + n by omega]
    exact ⟨hle, hend⟩

/-- The directory `d` is a copy of the pages of `pgdir` below `sz`, with the kernel's part of `d0`,
and shares no page with `pgdir`. -/
structure Copy (pgdir : Pgdir) (sz : ℕ) (m : Kmem) (d0 d : Pgdir) (m' : Kmem) : Prop where
  entry : ∀ a < pages sz, ∃ pte k, pgdir.walk a = some pte ∧ d.walk a = some ⟨k, pte.flags⟩ ∧
    m.give (.page a) = some k ∧ m'.mem k = m.mem pte.ppn
  distinct : ∀ a < pages sz, ∀ b < pages sz, d.frame a = d.frame b → a = b
  above : ∀ a, pages sz ≤ a → a < kernPage → ¬d.Present a
  kernel : ∀ a, kernPage ≤ a → d.walk a = d0.walk a
  parent : ∀ k, pgdir.Holds k → m'.mem k = m.mem k
  apart : ∀ k, d.Holds k → ¬pgdir.Holds k
  /-- A store to a page of the one is not seen by the other. -/
  invisible : ∀ k k' o bytes, d.Holds k → pgdir.Holds k' →
    (m'.store k o bytes).mem k' = m'.mem k' ∧ (m'.store k' o bytes).mem k = m'.mem k

/-- All that the child holds came from `kalloc`. -/
theorem Copying.give_of_holds {m0 : Kmem} {i : ℕ} (h : Copying pgdir m0 d0 i d m)
    (hk : d.Holds k) : ∃ x, m0.give x = some k := by
  rcases hk with rfl | ⟨e, t, ht, rfl⟩ | ⟨a, ha, hp, rfl⟩
  · exact h.given.page
  · exact h.given.tables e t ht
  · have hai : a < i := by
      by_contra hge
      exact h.above a (Nat.not_lt.1 hge) ha hp
    obtain ⟨pte, k, -, hd, hgive, -⟩ := h.entry a hai
    exact ⟨.page a, by rw [frame, hd]; exact hgive⟩

theorem mem_store_of_ne {k' : ℕ} (hne : k' ≠ k) (o : ℕ) (bytes : List Byte) :
    (m.store k o bytes).mem k' = m.mem k' :=
  update_of_ne hne ..

theorem Copying.copy {sz : ℕ} (h : Copying pgdir m d0 (pages sz) d m') (hfresh : Fresh m pgdir) :
    Copy pgdir sz m d0 d m' := by
  have hapart : ∀ k, d.Holds k → ¬pgdir.Holds k := by
    intro k hk
    obtain ⟨x, hx⟩ := h.give_of_holds hk
    exact hfresh.unused x k hx
  refine ⟨h.entry, fun a ha b hb heq => ?_, h.above, h.kernel, fun k hk => ?_, hapart,
    fun k k' o bytes hk hk' => ?_⟩
  · obtain ⟨p, k, -, hda, hga, -⟩ := h.entry a ha
    obtain ⟨q, k', -, hdb, hgb, -⟩ := h.entry b hb
    have hkk : k = k' := by simpa [frame, hda, hdb] using heq
    subst hkk
    cases hfresh.inj _ _ _ hga hgb
    rfl
  · exact h.others k fun a ha => hfresh.unused _ _ ha hk
  · have hne : k' ≠ k := by
      rintro rfl
      exact hapart k' hk hk'
    exact ⟨mem_store_of_ne hne o bytes, mem_store_of_ne hne.symm o bytes⟩

/-- If `copyuvm` succeeds, the child has a copy of the parent's pages that shares no page with the
    parent. -/
theorem copyuvm_faithful (data : ℕ) (pgdir : Pgdir) (sz : ℕ) (m : Kmem) (d : Pgdir) (m' : Kmem)
    (hfresh : Fresh m pgdir) (h : copyuvm data pgdir sz m = .ok (some d, m')) :
    ∃ d0, setupkvm data m = .ok (some d0) ∧ Copy pgdir sz m d0 d m' := by
  rw [copyuvm] at h
  generalize hsetup : setupkvm data m = r at h
  match r with
  | .error _ => cases h
  | .ok none => cases h
  | .ok (some d0) =>
    have hkernel := setupkvm_kernelOnly hsetup
    obtain ⟨-, hcopy⟩ :=
      copyLoop_copying hfresh hkernel.first (Nat.zero_le _) (.start pgdir hkernel) h
    rw [Nat.zero_add] at hcopy
    exact ⟨d0, rfl, hcopy.copy hfresh⟩

/-! ## With memory, it succeeds -/

theorem SetsEntry.present_iff (h : SetsEntry m a ⟨k, perm ||| pteP⟩ d d') :
    d'.Present b ↔ d.Present b ∨ b = a := by
  constructor
  · intro hb
    by_cases hba : b = a
    · exact .inr hba
    · exact .inl (h.present hb hba).1
  · rintro (hb | rfl)
    · exact h.present_of hb
    · exact ⟨_, by rw [h.walk b, if_pos rfl], has_or_present k perm⟩

/-- After a page that is mapped a page table is missing only if a new one begins. -/
theorem aligned_of_missing (h : a % nptentries = 0 ∨ 0 < a ∧ d.Present (a - 1))
    (hwalk : d.walk a = none) :
    a % nptentries = 0 := by
  rcases h with haligned | ⟨hpos, pte, hpte, -⟩
  · exact haligned
  · by_contra hne
    have hsame : (a - 1) / nptentries = a / nptentries := by
      simp only [nptentries] at hne ⊢
      omega
    rw [walk_eq_none] at hwalk
    have hnone : d.walk (a - 1) = none := by rw [walk_eq_none, hsame, hwalk]
    cases hnone.symm.trans hpte

theorem mappages_total (m : Kmem) (perm : BitVec 12) :
    ∀ (n a k : ℕ) (d : Pgdir), (∀ b, a ≤ b → b < a + n → ¬d.Present b) →
    (a % nptentries = 0 ∨ 0 < a ∧ d.Present (a - 1)) →
    (∀ b, a ≤ b → b < a + n → b % nptentries = 0 → m.give (.table b) ≠ none) →
    ∃ d', mappages n a k perm d m = .ok (true, d') ∧ ∀ b, d'.Present b ↔ d.Present b ∨ a ≤ b ∧
    b < a + n := by
  intro n
  induction n with
  | zero =>
    intro a k d _ _ _
    exact ⟨d, rfl, fun b => ⟨.inl, fun hb => hb.resolve_right (by omega)⟩⟩
  | succ n ih =>
    intro a k d hfree hstart htables
    obtain ⟨d1, heq, hset⟩ := mappages_succ (k := k) (hfree a (Nat.le_refl a) (by omega)) n perm
      fun hwalk => htables a (Nat.le_refl a) (by omega) (aligned_of_missing hstart hwalk)
    obtain ⟨d', hmap, hd'⟩ := ih (a + 1) (k + 1) d1
      (fun b hlo hhi hb => by
        rcases hset.present_iff.1 hb with hb | rfl
        · exact hfree b (by omega) (by omega) hb
        · omega)
      (.inr ⟨Nat.succ_pos a, hset.present_iff.2 (.inr rfl)⟩)
      (fun b hlo hhi => htables b (by omega) (by omega))
    refine ⟨d', heq.trans hmap, fun b => ?_⟩
    rw [hd' b, hset.present_iff, or_assoc]
    refine or_congr_right ?_
    omega

theorem mapKernel_of_mappages {d1 : Pgdir} (h : mappages n a k perm d m = .ok (true, d1)) :
    mapKernel (⟨a, k, n, perm⟩ :: es) d m = mapKernel es d1 m := by
  rw [mapKernel, h]
  rfl

/-- `kalloc` has memory for the directory and for the page tables of whole multiples of 4 MB. -/
structure HasTables (m : Kmem) : Prop where
  dir : m.give .dir ≠ none
  table : ∀ b < 2 ^ 20, b % nptentries = 0 → m.give (.table b) ≠ none

theorem setupkvm_total {data : ℕ} (hlo : 0x100 < data) (hhi : data < phystop / pgsize)
    (hm : HasTables m) :
    ∃ d, setupkvm data m = .ok (some d) := by
  obtain ⟨page, hpage⟩ := Option.ne_none_iff_exists'.1 hm.dir
  simp only [phystop, pgsize] at hhi
  have hkern : kernbase / pgsize = 524288 := by decide
  have hphys : phystop / pgsize = 57344 := by decide
  have hdev : devspace / pgsize = 1040384 := by decide
  have hrest : (2 ^ 32 - devspace) / pgsize = 8192 := by decide
  have hnone : ∀ b, ¬Present ⟨page, fun _ => none⟩ b := fun _ => nofun
  obtain ⟨d1, h1, hp1⟩ := mappages_total m pteW 0x100 524288 0 ⟨page, fun _ => none⟩
    (fun b _ _ => hnone b) (.inl (by decide)) (fun b _ _ => hm.table b (by omega))
  obtain ⟨d2, h2, hp2⟩ := mappages_total m 0 (data - 0x100) (524288 + 0x100) 0x100 d1
    (fun b _ _ hb => by have := (hp1 b).1 hb; simp only [hnone, false_or] at this; omega)
    (.inr ⟨by omega, (hp1 _).2 (.inr (by omega))⟩) (fun b _ _ => hm.table b (by omega))
  obtain ⟨d3, h3, hp3⟩ := mappages_total m pteW (57344 - data) (524288 + data) data d2
    (fun b _ _ hb => by
      have := (hp2 b).1 hb; rw [hp1] at this; simp only [hnone, false_or] at this; omega)
    (.inr ⟨by omega, (hp2 _).2 (.inr (by omega))⟩) (fun b _ _ => hm.table b (by omega))
  obtain ⟨d4, h4, -⟩ := mappages_total m pteW 8192 1040384 1040384 d3
    (fun b _ _ hb => by
      have := (hp3 b).1 hb
      rw [hp2, hp1] at this
      simp only [hnone, false_or] at this
      omega)
    (.inl (by decide)) (fun b _ _ => hm.table b (by omega))
  refine ⟨d4, ?_⟩
  rw [setupkvm, hpage, kmap, hkern, hphys, hdev, hrest]
  dsimp only
  rw [mapKernel_of_mappages h1, mapKernel_of_mappages h2, mapKernel_of_mappages h3,
    mapKernel_of_mappages h4]
  rfl

theorem copyLoop_total (pgdir : Pgdir) (hm : HasTables m) :
    ∀ (n i : ℕ) (d : Pgdir) (m1 : Kmem), i + n ≤ kernPage →
    m1.give = m.give → (∀ a, i ≤ a → a < i + n → pgdir.Present a ∧ m.give (.page a) ≠ none) →
    (∀ a, i ≤ a → a < kernPage → ¬d.Present a) → (i = 0 ∨ 0 < i ∧ d.Present (i - 1)) →
    ∃ d' m', copyLoop pgdir n i d m1 = .ok (some d', m') := by
  intro n
  induction n with
  | zero =>
    intro i d m1 _ _ _ _ _
    exact ⟨d, m1, rfl⟩
  | succ n ih =>
    intro i d m1 hle hgive hpages habsent hstart
    obtain ⟨⟨pte, hpte, hp⟩, hk⟩ := hpages i (Nat.le_refl i) (by omega)
    obtain ⟨k, hk⟩ := Option.ne_none_iff_exists'.1 hk
    have hstart' : i % nptentries = 0 ∨ 0 < i ∧ d.Present (i - 1) := by
      rcases hstart with rfl | hstart
      · exact .inl (Nat.zero_mod _)
      · exact .inr hstart
    have htable : ∀ b, i ≤ b → b < i + 1 → b % nptentries = 0 →
        (m1.fill k (m1.mem pte.ppn)).give (.table b) ≠ none := by
      intro b _ hb haligned hnone
      refine hm.table b (by simp only [kernPage] at hle; omega) haligned ?_
      rw [← hgive]
      exact hnone
    obtain ⟨d1, hmap, hd1⟩ := mappages_total (m1.fill k (m1.mem pte.ppn)) pte.flags 1 i k d
      (fun b hlo hhi => habsent b hlo (by omega)) hstart' htable
    obtain ⟨d', m', hrest⟩ := ih (i + 1) d1 (m1.fill k (m1.mem pte.ppn)) (by omega) hgive
      (fun a hlo hhi => hpages a (by omega) (by omega))
      (fun a hlo hhi hp => by
        rcases (hd1 a).1 hp with hp | hai
        · exact habsent a (by omega) hhi hp
        · omega)
      (.inr ⟨Nat.succ_pos i, (hd1 i).2 (.inr ⟨Nat.le_refl i, Nat.lt_succ_self i⟩)⟩)
    refine ⟨d', m', ?_⟩
    rw [copyLoop, hpte]
    dsimp only
    rw [if_pos hp, hgive, hk]
    dsimp only
    rw [hmap]
    exact hrest

/-- With memory for its pages and page tables, `copyuvm` succeeds. -/
theorem copyuvm_total (data : ℕ) {sz : ℕ} (hlo : 0x100 < data) (hhi : data < phystop / pgsize)
    (hm : HasTables m)
    (hsz : sz ≤ kernbase) (hpages : ∀ a < pages sz, pgdir.Present a ∧ m.give (.page a) ≠ none) :
    ∃ d m', copyuvm data pgdir sz m = .ok (some d, m') := by
  obtain ⟨d0, hsetup⟩ := setupkvm_total hlo hhi hm
  have hkernel := setupkvm_kernelOnly hsetup
  have hkern := pages_le_kernPage hsz
  obtain ⟨d, m', hloop⟩ := copyLoop_total pgdir hm (pages sz) 0 d0 m (by omega) rfl
    (fun a _ ha => hpages a (by omega)) (fun a => (Copying.start pgdir hkernel).above a) (.inl rfl)
  refine ⟨d, m', ?_⟩
  rw [copyuvm, hsetup]
  exact hloop

/-- A stack page above its guard page. -/
def stackAndGuard : Pgdir where
  page := 10
  pgtab d := if d = 0 then
      some ⟨11, fun e => if e = 0 then ⟨12, pteP ||| pteW⟩ else if e = 1 then ⟨13, pteP ||| pteW ||| pteU⟩ else .zero⟩
    else none

/-- A page for each place at which `copyuvm` asks for one. -/
def plenty : Kmem where
  give
    | .dir => some 1024
    | .table a => if a % nptentries = 0 ∧ a < 2 ^ 20 then some (2048 + a / nptentries) else none
    | .page a => if a < 1024 then some (4096 + a) else none
  kend := 16
  kend_pos := by decide
  mem k _ := .ofNat 8 k
  freed := []

theorem hasTables_plenty : HasTables plenty := by
  refine ⟨by decide, fun b hb haligned => ?_⟩
  show (if b % nptentries = 0 ∧ b < 2 ^ 20 then some (2048 + b / nptentries) else none) ≠ none
  rw [if_pos ⟨haligned, hb⟩]
  exact Option.some_ne_none _

/-- Each place has its own range of pages, all above those of `stackAndGuard`. -/
theorem give_plenty {x : Site} (h : plenty.give x = some k) :
    x = .dir ∧ k = 1024 ∨ (∃ a, x = .table a ∧ a % nptentries = 0 ∧ a < 2 ^ 20 ∧
      k = 2048 + a / nptentries) ∨ ∃ a < 1024, x = .page a ∧ k = 4096 + a := by
  cases x with
  | dir => exact .inl ⟨rfl, (Option.some.inj h).symm⟩
  | table a =>
    simp only [plenty] at h
    split_ifs at h with ha
    exact .inr (.inl ⟨a, rfl, ha.1, ha.2, (Option.some.inj h).symm⟩)
  | page a =>
    simp only [plenty] at h
    split_ifs at h with ha
    exact .inr (.inr ⟨a, ha, rfl, (Option.some.inj h).symm⟩)

theorem lt_of_stackAndGuard_holds (h : stackAndGuard.Holds k) : k < 16 := by
  rcases h with rfl | ⟨d, t, ht, rfl⟩ | ⟨a, -, ⟨pte, hpte, -⟩, rfl⟩
  · decide
  · simp only [stackAndGuard] at ht
    split_ifs at ht
    cases ht
    decide
  · rw [frame, hpte]
    simp only [walk, stackAndGuard] at hpte
    split_ifs at hpte
    · cases hpte
      dsimp only
      split_ifs <;> decide
    · cases hpte

theorem fresh_plenty : Fresh plenty stackAndGuard := by
  refine ⟨fun x k hx => ?_, fun x y k hx hy => ?_, fun x k hx hk => ?_⟩
  · have hphys : phystop / pgsize = 57344 := by decide
    have hkend : plenty.kend = 16 := rfl
    rw [Kmem.Owns, hphys, hkend]
    rcases give_plenty hx with ⟨-, rfl⟩ | ⟨a, -, -, ha, rfl⟩ | ⟨a, ha, -, rfl⟩
    · omega
    · simp only [nptentries]
      omega
    · omega
  · rcases give_plenty hx with ⟨rfl, hk⟩ | ⟨a, rfl, ha, hlt, hk⟩ | ⟨a, ha, rfl, hk⟩ <;>
      rcases give_plenty hy with ⟨rfl, hk'⟩ | ⟨b, rfl, hb, hlt', hk'⟩ | ⟨b, hb, rfl, hk'⟩ <;>
      simp only [nptentries, Site.table.injEq, Site.page.injEq, reduceCtorEq] at * <;> omega
  · have hlt := lt_of_stackAndGuard_holds hk
    rcases give_plenty hx with ⟨-, rfl⟩ | ⟨a, -, -, -, rfl⟩ | ⟨a, -, -, rfl⟩
    · omega
    · exact absurd hlt (Nat.not_lt.2 (Nat.le_trans (by decide) (Nat.le_add_right 2048 _)))
    · omega

theorem copyuvm_faithful_stackAndGuard : ∃ d m', copyuvm 0x110 stackAndGuard (2 * pgsize) plenty =
    .ok (some d, m') ∧
    ∃ d0, setupkvm 0x110 plenty = .ok (some d0) ∧
    Copy stackAndGuard (2 * pgsize) plenty d0 d m' := by
  have hpages : ∀ a < pages (2 * pgsize), stackAndGuard.Present a ∧ plenty.give (.page a) ≠ none :=
    by decide
  obtain ⟨d, m', h⟩ :=
    copyuvm_total 0x110 (by decide) (by decide) hasTables_plenty (by decide) hpages
  exact ⟨d, m', h, copyuvm_faithful 0x110 stackAndGuard (2 * pgsize) plenty d m' fresh_plenty h⟩

end Pgdir

end Uvm

end Xv6
