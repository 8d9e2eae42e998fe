import Xv6.Vm.PageOrder

set_option autoImplicit false

/-! # Growing and shrinking a process (`growproc`)

What `allocuvm` and `deallocuvm` do to the mappings of a process, and to the contents of its pages.
`allocuvm` does not look at what `mappages` returns, so a page for which there is no page table is
left out without an error; whether there is such a page is known from the requests that find no
memory (`refusals`). `growproc` takes the 0 that `deallocuvm` returns for the new size 0 as an
error, and a size that has wrapped round as no change. -/

namespace Xv6

open Function Assoc PageMem

/-- What the requests are for that find no memory, where `n` user pages from page `a` on are
    allocated; after one for a page the loop ends. -/
def PageUse.refusals (fail : ℕ → Bool) : ℕ → ℕ → List ℕ → ℕ → ℕ → List PageUse
  | 0, _, _, _, _ => []
  | n + 1, a, ts, i, free =>
    if fail i ∨ free = 0 then [.page]
    else if a / nptentries ∈ ts then refusals fail n (a + 1) ts (i + 1) (free - 1)
    else if fail (i + 1) ∨ free - 1 = 0 then .table :: refusals fail n (a + 1) ts (i + 2) (free - 1)
    else refusals fail n (a + 1) (a / nptentries :: ts) (i + 2) (free - 2)

namespace PageMem

variable {m m1 m2 : PageMem} {n a k t : ℕ} {ts : List ℕ}

def refusals (n a : ℕ) (ts : List ℕ) (m : PageMem) : List PageUse :=
  PageUse.refusals m.fail n a ts m.calls m.freelist.length

theorem refusals_page (hk : m.kalloc = (none, m1)) : m.refusals (n + 1) a ts = [.page] :=
  if_pos (denied_of_none hk)

theorem refusals_tabled (hg : Grants m m1) (ht : a / nptentries ∈ ts) :
    m.refusals (n + 1) a ts = m1.refusals n (a + 1) ts := by
  rw [refusals, PageUse.refusals, if_neg hg.granted, if_pos ht, refusals, hg.fail,
    hg.calls, hg.free]

theorem refusals_table (hg : Grants m m1) (ht : a / nptentries ∉ ts) (hk : m1.kalloc = (none, m2)) :
    m.refusals (n + 1) a ts = .table :: m2.refusals n (a + 1) ts := by
  have hdenied := denied_of_none hk
  rw [hg.fail, hg.calls, hg.free] at hdenied
  rw [refusals, PageUse.refusals, if_neg hg.granted, if_neg ht, if_pos hdenied, refusals,
    kalloc_none hk]
  simp only [hg.fail, hg.calls, hg.free]

theorem refusals_both (hg : Grants m m1) (ht : a / nptentries ∉ ts) (hg' : Grants m1 m2) :
    m.refusals (n + 1) a ts = m2.refusals n (a + 1) (a / nptentries :: ts) := by
  have hgranted := hg'.granted
  rw [hg.fail, hg.calls, hg.free] at hgranted
  rw [refusals, PageUse.refusals, if_neg hg.granted, if_neg ht, if_neg hgranted, refusals, hg'.fail,
    hg'.calls, hg'.free, hg.fail, hg.calls, hg.free]
  rfl

/-- A request for a page that is refused is the last one. -/
theorem refusals_of_refuses (h : m.refuses (PageUse.userOrder n a ts) ≠ some .table) :
    .table ∉ m.refusals n a ts := by
  induction n generalizing a ts m with
  | zero => simp [refusals, PageUse.refusals]
  | succ n ih =>
    rw [PageUse.userOrder] at h
    cases hk : m.kalloc with
    | mk k m1 =>
      cases k with
      | none => simp [refusals_page hk]
      | some k =>
        by_cases ht : a / nptentries ∈ ts
        · rw [if_pos ht, (grants_of_some hk).refuses] at h
          rw [refusals_tabled (grants_of_some hk) ht]
          exact ih h
        · rw [if_neg ht, (grants_of_some hk).refuses] at h
          cases hk' : m1.kalloc with
          | mk t m2 =>
            cases t with
            | none => exact absurd (refuses_none hk') h
            | some t =>
              rw [(grants_of_some hk').refuses] at h
              rw [refusals_both (grants_of_some hk) ht (grants_of_some hk')]
              exact ih h

end PageMem

variable {m : PageMem}

theorem PageMem.Holds.freelist_nodup {all own : Multiset ℕ} {lost : List ℕ}
    (h : Holds all lost m own) : m.freelist.Nodup := by
  refine List.nodup_iff_count_le_one.2 fun k => ?_
  have := h.count_le k
  omega

theorem PageMem.Holds.own_nodup {all own rest : Multiset ℕ} {lost : List ℕ}
    (h : Holds all lost m (own + rest)) : own.Nodup := by
  refine Multiset.nodup_iff_count_le_one.2 fun k => ?_
  have := h.count_le k
  rw [Multiset.count_add] at this
  omega

namespace AddrSpace

variable {all rest : Multiset ℕ} {lost : List ℕ} {m m' : PageMem} {sp sp' : AddrSpace} {a k n : ℕ}
  {ok : Bool}

/-! ## `allocuvm` -/

/-- The mappings after the loop for the pages `[a, a + n)`, where memory was refused for `R`. -/
structure Grown (R : List PageUse) (a n : ℕ) (sp : AddrSpace) (ok : Bool)
    (sp' : AddrSpace) : Prop where
  ok_iff : ok = true ↔ .page ∉ R
  old : ∀ e < a, get e sp'.entries = get e sp.entries
  below : ∀ e ∈ keys sp'.entries, e < a + n
  full : .table ∉ R → ok = true → ∀ e, a ≤ e → e < a + n → e ∈ keys sp'.entries
  hole : .table ∈ R → ok = true → ∃ e, a ≤ e ∧ e < a + n ∧ e ∉ keys sp'.entries
  tables : ∀ d ∈ keys sp.tables, d ∈ keys sp'.tables

theorem mappages_ok (ha : a ∉ keys sp.entries) (m : PageMem) :
    ∃ ok sp' m', mappages a k sp m = .ok (ok, sp', m') := by
  unfold mappages
  split
  · rw [if_neg fun h => ha (get_isSome.1 h)]
    exact ⟨_, _, _, rfl⟩
  · split
    · exact ⟨_, _, _, rfl⟩
    · exact ⟨_, _, _, rfl⟩

variable {R : List PageUse}

/-- Page `a` is mapped, and the loop goes on. -/
theorem Grown.step {sp1 : AddrSpace} (h : Grown R (a + 1) n sp1 ok sp')
    (hentries : sp1.entries = (a, k) :: sp.entries)
    (htables : ∀ d ∈ keys sp.tables, d ∈ keys sp1.tables) :
    Grown R a (n + 1) sp ok sp' where
  ok_iff := h.ok_iff
  old := by
    intro e he
    rw [h.old e (by omega), hentries, get_cons_of_ne (by omega)]
  below := by
    intro e he
    have := h.below e he
    omega
  full := by
    intro hR hok e hle hlt
    by_cases hea : e = a
    · rw [← get_isSome, h.old e (by omega), hentries, hea, get_cons_self]
      rfl
    · exact h.full hR hok e (by omega) (by omega)
  hole := by
    intro hR hok
    obtain ⟨e, hle, hlt, hno⟩ := h.hole hR hok
    exact ⟨e, by omega, by omega, hno⟩
  tables d hd := h.tables d (htables d hd)

/-- There is no page table for page `a`, and the loop goes on. -/
theorem Grown.skip (h : Grown R (a + 1) n sp ok sp') (hnew : a ∉ keys sp.entries) :
    Grown (.table :: R) a (n + 1) sp ok sp' where
  ok_iff := by
    rw [h.ok_iff]
    simp
  old e he := h.old e (by omega)
  below := by
    intro e he
    have := h.below e he
    omega
  full hR := absurd List.mem_cons_self hR
  hole := by
    intro _ _
    refine ⟨a, le_rfl, by omega, ?_⟩
    rw [← get_eq_none, h.old a (by omega)]
    exact get_eq_none.2 hnew
  tables := h.tables

theorem allocLoop_grown (hnew : ∀ e ∈ keys sp.entries, e < a) (m : PageMem) :
    ∃ ok sp' m', allocLoop n a sp m = .ok (ok, sp', m') ∧
      Grown (m.refusals n a (keys sp.tables)) a n sp ok sp' := by
  induction n generalizing a sp m with
  | zero =>
    refine ⟨true, sp, m, rfl, ?_⟩
    constructor
    · simp [refusals, PageUse.refusals]
    · exact fun _ _ => rfl
    · exact hnew
    · intro _ _ e hle hlt
      omega
    · intro hR
      cases hR
    · exact fun _ hd => hd
  | succ n ih =>
    have ha : a ∉ keys sp.entries := fun h => absurd (hnew a h) (lt_irrefl a)
    rw [allocLoop]
    cases hk : m.kalloc with
    | mk k m1 =>
      cases k with
      | none =>
        refine ⟨false, sp, m1, rfl, ?_⟩
        rw [refusals_page hk]
        constructor
        · simp
        · exact fun _ _ => rfl
        · intro e he
          have := hnew e he
          omega
        · intro _ hno
          cases hno
        · intro _ hno
          cases hno
        · exact fun _ hd => hd
      | some k =>
        have hnew1 : ∀ e ∈ a :: keys sp.entries, e < a + 1 := by
          intro e he
          obtain rfl | he := List.mem_cons.1 he
          · omega
          · exact (hnew e he).trans (Nat.lt_succ_self a)
        have hpage := (grants_of_some hk).fill k fun _ => 0
        obtain ⟨ok1, sp1, m2, hmap⟩ := mappages_ok (k := k) ha (m1.fill k fun _ => 0)
        simp only [hmap]
        obtain ⟨ht, -, rfl, hsp, rfl⟩ | ⟨ht, hk', rfl, hsp⟩ | ⟨ht, t, hk', rfl, hsp⟩ :=
          mappages_cases hmap
        · subst sp1
          obtain ⟨ok, sp', m', he, hgrown⟩ :=
            ih (show ∀ e ∈ keys (sp.addEntry a k).entries, e < a + 1 from hnew1) _
          refine ⟨ok, sp', m', he, ?_⟩
          rw [refusals_tabled hpage ht]
          exact hgrown.step rfl fun _ hd => hd
        · subst sp1
          obtain ⟨ok, sp', m', he, hgrown⟩ :=
            ih (fun e he => hnew1 e (List.mem_cons_of_mem _ he)) (m2.lose [k])
          refine ⟨ok, sp', m', he, ?_⟩
          rw [refusals_table hpage ht hk']
          exact hgrown.skip ha
        · subst sp1
          obtain ⟨ok, sp', m', he, hgrown⟩ :=
            ih (show ∀ e ∈ keys ((sp.addTable (a / nptentries) t).addEntry a k).entries,
              e < a + 1 from hnew1) m2
          refine ⟨ok, sp', m', he, ?_⟩
          rw [refusals_both hpage ht (grants_of_some hk')]
          exact hgrown.step rfl fun _ hd => List.mem_cons_of_mem _ hd

/-- All user pages are below page `n`, and there are page tables up to there. -/
structure Covered (sp : AddrSpace) (n : ℕ) : Prop where
  tables : ∀ e < n, e / nptentries ∈ keys sp.tables
  below : ∀ e ∈ keys sp.entries, e < n

/-- Exactly the first `n` pages are mapped. -/
def Maps (sp : AddrSpace) (n : ℕ) : Prop := ∀ a, a ∈ keys sp.entries ↔ a < n

theorem Maps.covered (h : sp.Maps n) (hs : sp.Sound) : sp.Covered n :=
  ⟨fun e he => hs.tabled e ((h e).2 he), fun e he => (h e).1 he⟩

/-- Where the first page has no page table, it is the first page of one. -/
theorem Covered.aligned (h : sp.Covered a) (hno : a / nptentries ∉ keys sp.tables) :
    a % nptentries = 0 := by
  by_contra hne
  refine hno ?_
  have hmem := h.tables (a - 1) (by simp only [nptentries] at hne; omega)
  have heq : (a - 1) / nptentries = a / nptentries := by
    simp only [nptentries] at hne ⊢
    omega
  rwa [heq] at hmem

/-- Without a page table that is missing, all pages are mapped. -/
theorem Grown.maps (h : Grown R a n sp true sp') (hR : .table ∉ R) (hmaps : sp.Maps a) :
    sp'.Maps (a + n) := by
  intro e
  refine ⟨h.below e, fun he => ?_⟩
  by_cases hlt : e < a
  · rw [← get_isSome, h.old e hlt, get_isSome]
    exact (hmaps e).2 hlt
  · exact h.full hR rfl e (by omega) he

/-- The requests of `allocuvm` that find no memory. -/
abbrev allocRefusals (oldsz newsz : ℕ) (sp : AddrSpace) (m : PageMem) : List PageUse :=
  m.refusals (Xv6.pages newsz - Xv6.pages oldsz) (Xv6.pages oldsz) (keys sp.tables)

/-- `allocuvm` grows the address space, or leaves its mappings as they were. -/
theorem allocuvm_grown {oldsz newsz : ℕ} (hs : sp.Sound) (hm : Holds all lost m (sp.pages + rest))
    (hcov : sp.Covered (Xv6.pages oldsz)) (hle : oldsz ≤ newsz) (hlt : newsz < kernbase) :
    ∃ sz sp' m', allocuvm oldsz newsz sp m = .ok (sz, sp', m') ∧
      ((sz = newsz ∧ .page ∉ allocRefusals oldsz newsz sp m ∧
          allocLoop (Xv6.pages newsz - Xv6.pages oldsz)
          (Xv6.pages oldsz) sp m = .ok (true, sp', m') ∧
          Grown (allocRefusals oldsz newsz sp m) (Xv6.pages oldsz)
          (Xv6.pages newsz - Xv6.pages oldsz) sp true sp') ∨
        (sz = 0 ∧ .page ∈ allocRefusals oldsz newsz sp m ∧
          (∀ e, get e sp'.entries = get e sp.entries) ∧
          ∀ d ∈ keys sp.tables, d ∈ keys sp'.tables)) := by
  have hmono := pages_mono hle
  have hkern := pages_le_kernPage hlt.le
  obtain ⟨ok, sp1, m1, hloop, hgrown⟩ :=
    allocLoop_grown (n := Xv6.pages newsz - Xv6.pages oldsz) hcov.below m
  rw [allocuvm, if_neg (by omega), if_neg (by omega), hloop]
  cases ok with
  | true => exact ⟨newsz, sp1, m1, rfl, .inl ⟨rfl, hgrown.ok_iff.1 rfl, rfl, hgrown⟩⟩
  | false =>
    have hpage : .page ∈ allocRefusals oldsz newsz sp m := by
      by_contra hno
      exact absurd (hgrown.ok_iff.2 hno) (by decide)
    have hs1 : sp1.Sound := (allocLoop_holds hs (by omega) hm hloop).1
    have hless : oldsz < newsz := by
      refine lt_of_le_of_ne hle fun he => ?_
      subst he
      rw [Nat.sub_self] at hloop
      cases hloop
    have hget := fun e => deallocuvm_get e hless
      (fun hno => .inl (hcov.aligned fun hmem => hno (hgrown.tables _ hmem))) hs1 m1
    have htables := deallocuvm_tables newsz oldsz sp1 m1
    dsimp only
    generalize deallocuvm newsz oldsz sp1 m1 = r at hget htables ⊢
    obtain ⟨sp2, m2⟩ := r
    refine ⟨0, sp2, m2, rfl, .inr ⟨rfl, hpage, fun e => ?_, fun d hd => ?_⟩⟩
    · have hold : Xv6.pages oldsz ≤ e → get e sp.entries = none := by
        intro hge
        exact get_eq_none.2 fun hmem => absurd (hcov.below e hmem) (by omega)
      rw [hget e]
      split
      · next hor =>
        obtain hlt' | hge := hor
        · exact hgrown.old e hlt'
        · rw [hold (by omega)]
          exact get_eq_none.2 fun hmem => absurd (hgrown.below e hmem) (by omega)
      · next hor => rw [hold (by omega)]
    · rw [htables]
      exact hgrown.tables d hd

/-! ## `deallocuvm` -/

theorem deallocuvm_covered {oldsz newsz : ℕ} (hs : sp.Sound) (hcov : sp.Covered (Xv6.pages oldsz))
    (hlt : newsz < oldsz) (m : PageMem) (e : ℕ) :
    get e (deallocuvm oldsz newsz sp m).1.entries =
      if e < Xv6.pages newsz then get e sp.entries else none := by
  rw [deallocuvm_get e hlt ?_ hs m]
  · by_cases he : Xv6.pages oldsz ≤ e
    · have hnone : get e sp.entries = none :=
        get_eq_none.2 fun hmem => absurd (hcov.below e hmem) (by omega)
      rw [hnone, ite_self, ite_self]
    · refine if_congr ?_ rfl rfl
      omega
  · intro hno
    refine .inr fun b hb => (hcov.below b hb).trans_le ?_
    by_contra hge
    exact hno (hcov.tables _ (by omega))

/-! ## Contents -/

/-- The new pages are zero, and pages that were in use keep their contents. -/
theorem allocLoop_mem (hfree : m.freelist.Nodup) (hnew : ∀ e ∈ keys sp.entries, e < a)
    (h : allocLoop n a sp m = .ok (ok, sp', m')) :
    (∀ k ∉ m.freelist, m'.mem k = m.mem k) ∧
      ∀ e k, a ≤ e → get e sp'.entries = some k → m'.mem k = fun _ => 0 := by
  induction n generalizing a sp m with
  | zero =>
    cases h
    refine ⟨fun _ _ => rfl, fun e k hle hk => ?_⟩
    have := hnew e (get_isSome.1 (by rw [hk]; rfl))
    omega
  | succ n ih =>
    rw [allocLoop] at h
    split at h
    · next hk =>
      cases h
      rw [kalloc_none hk]
      refine ⟨fun _ _ => rfl, fun e k hle hk => ?_⟩
      have := hnew e (get_isSome.1 (by rw [hk]; rfl))
      omega
    · next k m1 hk =>
      obtain ⟨rest, hlist, rfl⟩ := kalloc_some hk
      rw [hlist] at hfree ⊢
      obtain ⟨hkrest, hrest⟩ := List.nodup_cons.1 hfree
      -- The rest of the loop takes its pages from `rest`.
      have hgo : ∀ (sp1 : AddrSpace) (m2 : PageMem), m2.freelist.Sublist rest →
          m2.mem = update m.mem k (fun _ => 0) →
          (sp1.entries = (a, k) :: sp.entries ∨ sp1.entries = sp.entries) →
          allocLoop n (a + 1) sp1 m2 = .ok (ok, sp', m') →
          (∀ j ∉ k :: rest, m'.mem j = m.mem j) ∧
            ∀ e j, a ≤ e → get e sp'.entries = some j → m'.mem j = fun _ => 0 := by
        intro sp1 m2 hsub hmem hentries hloop
        have hnew1 : ∀ e ∈ keys sp1.entries, e < a + 1 := by
          intro e he
          obtain hadd | hsame := hentries
          · rw [hadd] at he
            obtain rfl | he := List.mem_cons.1 he
            · omega
            · exact (hnew e he).trans (Nat.lt_succ_self a)
          · rw [hsame] at he
            exact (hnew e he).trans (Nat.lt_succ_self a)
        obtain ⟨hkept, hzero⟩ := ih (hrest.sublist hsub) hnew1 hloop
        refine ⟨fun j hj => ?_, fun e j hle hget => ?_⟩
        · have hjk : j ≠ k := fun e => hj (e ▸ List.mem_cons_self)
          rw [hkept j fun hin => hj (List.mem_cons_of_mem _ (hsub.subset hin)), hmem,
            update_of_ne hjk]
        · obtain rfl | hlt := Nat.eq_or_lt_of_le hle
          · obtain ⟨_, _, _, he, hgrown⟩ := allocLoop_grown (n := n) hnew1 m2
            rw [hloop] at he
            cases he
            rw [hgrown.old a (Nat.lt_succ_self a)] at hget
            obtain hadd | hsame := hentries
            · rw [hadd, get_cons_self] at hget
              cases hget
              rw [hkept k fun hin => hkrest (hsub.subset hin), hmem, update_self]
            · rw [hsame] at hget
              exact absurd (hnew a (get_isSome.1 (by rw [hget]; rfl))) (lt_irrefl a)
          · exact hzero e j hlt hget
      split at h
      · cases h
      · next hmap =>
        obtain ⟨-, -, rfl, rfl, rfl⟩ | ⟨-, hk', rfl, rfl⟩ | ⟨-, t, hk', rfl, rfl⟩ :=
          mappages_cases hmap
        · exact hgo _ _ (List.Sublist.refl _) rfl (.inl rfl) h
        · refine hgo _ _ ?_ ?_ (.inr rfl) h
          · rw [kalloc_none hk']
            exact List.Sublist.refl _
          · rw [kalloc_none hk']
            rfl
        · refine hgo _ _ ?_ ?_ (.inl rfl) h
          · obtain ⟨rest', hlist', rfl⟩ := kalloc_some hk'
            exact (List.sublist_cons_self t rest').trans (hlist' ▸ List.Sublist.refl _)
          · obtain ⟨rest', hlist', rfl⟩ := kalloc_some hk'
            rfl

/-- What stays mapped keeps its contents. -/
theorem deallocuvm_mem {oldsz newsz b : ℕ} (hs : sp.Sound) (hnodup : (sp.pages : Multiset ℕ).Nodup)
    (h : get b (deallocuvm oldsz newsz sp m).1.entries = some k) :
    (deallocuvm oldsz newsz sp m).2.mem k = m.mem k := by
  refine (deallocuvm_rec (R := fun sp' m' => sp'.Sound ∧ (sp'.pages : Multiset ℕ).Nodup ∧
    (get b sp'.entries = some k → m'.mem k = m.mem k)) ?_ _ _ ⟨hs, hnodup, fun _ => rfl⟩).2.2 h
  rintro sp1 m1 a j ⟨hs1, hnodup1, hkept⟩ hj
  rw [pages_delEntry hs1 hj, Multiset.nodup_cons] at hnodup1
  refine ⟨hs1.delEntry, hnodup1.2, fun hget => ?_⟩
  have hba : b ≠ a := by
    rintro rfl
    rw [delEntry, get_del_self] at hget
    cases hget
  have hkj : k ≠ j := by
    rintro rfl
    refine hnodup1.1 ?_
    have hin := List.mem_map_of_mem (f := Prod.snd) (mem_of_get hget)
    rw [coe_pages]
    exact Multiset.mem_cons_of_mem (Multiset.mem_add.2 (.inr hin))
  rw [delEntry, get_del_of_ne hba] at hget
  exact (update_of_ne hkj _ _).trans (hkept hget)

end AddrSpace

/-! ## `growproc` -/

namespace PageSys

open AddrSpace

/-- The byte of a process at an address. -/
def byte (p : Fin nproc) (addr : ℕ) (s : PageSys) : Option Byte :=
  (get (addr / pgsize) (s.proc p).space.entries).map fun k => s.mem.mem k (addr % pgsize)

/-- Exactly the pages of a process are mapped. -/
def Full (p : Fin nproc) (s : PageSys) : Prop := (s.proc p).space.Maps (pages (s.proc p).sz)

/-- What `sbrk` is to do: on success the size is as asked for, exactly the pages up to there are
    mapped, what was there is unchanged and new pages are zero; on failure size and mappings are as
    before. -/
def GrowsExactly (p : Fin nproc) (n : Word) (s : PageSys) : Bool × PageSys → Prop
  | (true, s') =>
    ((s'.proc p).sz : Int) = (s.proc p).sz + n.toInt ∧ (s'.proc p).sz < kernbase ∧ s'.Full p ∧
      (∀ addr < min (s.proc p).sz (s'.proc p).sz, s'.byte p addr = s.byte p addr) ∧
      ∀ addr, pages (s.proc p).sz * pgsize ≤ addr → addr < pages (s'.proc p).sz * pgsize →
        s'.byte p addr = some 0
  | (false, s') =>
    (s'.proc p).sz = (s.proc p).sz ∧
      ∀ a, get a (s'.proc p).space.entries = get a (s.proc p).space.entries

/-- The requests of `sbrk` that find no memory. -/
def sbrkRefusals (p : Fin nproc) (n : Word) (fail : ℕ → Bool) (s : PageSys) : List PageUse :=
  PageUse.refusals fail (pages (BitVec.ofNat 32 (s.proc p).sz + n).toNat - pages (s.proc p).sz)
    (pages (s.proc p).sz) (keys (s.proc p).space.tables) 0 s.mem.freelist.length

/-- Where the process grows, there is memory for all page tables or not for all pages. -/
def GrowOk (p : Fin nproc) (n : Word) (fail : ℕ → Bool) (s : PageSys) : Prop :=
  0 < n.toInt → (s.proc p).sz + n.toInt < kernbase →
    .table ∈ s.sbrkRefusals p n fail → .page ∈ s.sbrkRefusals p n fail

/-- A process that shrinks does so to a size above 0, and one that grows has memory. -/
structure SbrkOk (p : Fin nproc) (n : Word) (fail : ℕ → Bool) (s : PageSys) : Prop where
  shrink : n.toInt < 0 → (s.proc p).sz = 0 ∨ 0 < (s.proc p).sz + n.toInt
  grow : s.GrowOk p n fail

/-- The sum of an `uint` size and an `int`. -/
theorem newsz_cases {sz : ℕ} (hsz : sz < kernbase) (n : Word) :
    (0 ≤ sz + n.toInt ∧ ((BitVec.ofNat 32 sz + n).toNat : Int) = sz + n.toInt) ∨
    (sz + n.toInt < 0 ∧ sz ≤ (BitVec.ofNat 32 sz + n).toNat) := by
  rw [BitVec.toInt_eq_toNat_cond, BitVec.toNat_add, BitVec.toNat_ofNat]
  have := n.isLt
  simp only [kernbase] at hsz
  split <;> omega

variable {all : Multiset ℕ} {lost : List ℕ} {s s' : PageSys} {p : Fin nproc} {n : Word} {fail : ℕ →
  Bool}

/-- The frames of a process are not free. -/
theorem Inv.frame_notFree (h : Inv all lost s) (hp : (s.proc p).state ≠ .unused) {e k : ℕ}
    (hk : get e (s.proc p).space.entries = some k) : k ∉ s.mem.freelist := by
  intro hfree
  have hcount := h.holds.count_le k
  have hpos := List.count_pos_iff.2 hfree
  have hown : k ∈ s.owners := by
    obtain ⟨rest, hsplit, -⟩ := owners_split s p
    rw [hsplit, PageProc.owned_used hp, coe_pages]
    have hin := List.mem_map_of_mem (f := Prod.snd) (mem_of_get hk)
    refine Multiset.mem_add.2 (.inl ?_)
    exact Multiset.mem_cons_of_mem (Multiset.mem_cons_of_mem (Multiset.mem_add.2 (.inr hin)))
  have := Multiset.count_pos.2 hown
  omega

@[simp]
theorem setProc_proc (s : PageSys) (p : Fin nproc) (x : PageProc) : (s.setProc p x).proc p = x :=
  update_self ..

/-- The pages of a process, apart from those of the others. -/
theorem Inv.space_holds (h : Inv all lost s) (hp : (s.proc p).state ≠ .unused) :
    ∃ rest, Holds all lost s.mem ((s.proc p).space.pages + rest) := by
  obtain ⟨rest, hsplit, -⟩ := owners_split s p
  have hm := h.holds
  rw [hsplit, PageProc.owned_used hp, Multiset.cons_add, ← Multiset.add_cons] at hm
  exact ⟨_, hm⟩

variable {sp : AddrSpace}

theorem sbrk_alloc {sz : ℕ} (hn : 0 < n.toInt)
    (he : (s.proc p).space.allocuvm (s.proc p).sz (BitVec.ofNat 32 (s.proc p).sz + n).toNat s.mem =
      .ok (sz, sp, m)) :
    s.sbrk p n = .ok (decide (sz ≠ 0), (s.setMem m).setProc p
      { s.proc p with space := sp, sz := if sz = 0 then (s.proc p).sz else sz }) := by
  simp only [sbrk, if_pos hn, he]

theorem setProc_byte (s : PageSys) (p : Fin nproc) (x : PageProc) (addr : ℕ) :
    (s.setProc p x).byte p addr =
      (get (addr / pgsize) x.space.entries).map fun k => s.mem.mem k (addr % pgsize) := by
  rw [byte, setProc_proc]
  rfl

/-- The process has grown to the size `N`. -/
theorem grown_exactly {N : ℕ} (hinv : Inv all lost s)
    (hused : (s.proc p).state ≠ .unused) (hnew : (N : Int) = (s.proc p).sz + n.toInt)
    (hlt : N < kernbase) (hmaps : sp.Maps (pages N))
    (hold : ∀ e < pages (s.proc p).sz, get e sp.entries = get e (s.proc p).space.entries)
    (hmem : (∀ k ∉ s.mem.freelist, m.mem k = s.mem.mem k) ∧
      ∀ e k, pages (s.proc p).sz ≤ e → get e sp.entries = some k → m.mem k = fun _ => 0) :
    GrowsExactly p n s (true, (s.setMem m).setProc p { s.proc p with space := sp, sz := N }) := by
  simp only [GrowsExactly, Full, setProc_proc, setProc_byte]
  refine ⟨hnew, hlt, hmaps, fun addr haddr => ?_, fun addr hlo hhi => ?_⟩
  · have hpage : addr / pgsize < pages (s.proc p).sz := by
      simp only [pages, pgsize]
      omega
    rw [hold _ hpage, byte]
    refine Option.map_congr fun k hk => ?_
    exact congrFun (hmem.1 k (hinv.frame_notFree hused hk)) _
  · have hlo' : pages (s.proc p).sz ≤ addr / pgsize := (Nat.le_div_iff_mul_le (by decide)).2 hlo
    have hhi' : addr / pgsize < pages N := (Nat.div_lt_iff_lt_mul (by decide)).2 hhi
    obtain ⟨k, hk⟩ := Option.isSome_iff_exists.1 (get_isSome.2 ((hmaps _).2 hhi'))
    rw [hk, Option.map_some]
    exact congrArg some (congrFun (hmem.2 _ k hlo' hk) _)

/-- Size and mappings are as they were. -/
theorem failed_exactly {s1 : PageSys} {x : PageProc} (hsz : x.sz = (s.proc p).sz)
    (hsame : ∀ a, get a x.space.entries = get a (s.proc p).space.entries) :
    GrowsExactly p n s (false, s1.setProc p x) := by
  simp only [GrowsExactly, setProc_proc]
  exact ⟨hsz, hsame⟩

/-- A process that grows. -/
theorem sbrk_grow (hinv : Inv all lost s) (hused : (s.proc p).state ≠ .unused) (hfull : s.Full p)
    (hn : 0 < n.toInt) :
    ∃ r, (s.enter fail).sbrk p n = .ok r ∧ (GrowsExactly p n s r ↔ SbrkOk p n fail s) := by
  have hsz := hinv.size p hused
  have hs := hinv.sound p hused
  obtain ⟨rest, hm⟩ := (hinv.enter fail).space_holds hused
  obtain ⟨hpos, hnew⟩ | ⟨hneg, -⟩ := newsz_cases hsz n
  · have hok : SbrkOk p n fail s ↔ ((s.proc p).sz + n.toInt < kernbase →
        .table ∈ s.sbrkRefusals p n fail → .page ∈ s.sbrkRefusals p n fail) :=
      ⟨fun h => h.grow hn, fun h => ⟨fun hneg => absurd hneg (by omega), fun _ => h⟩⟩
    rw [hok]
    by_cases hkern : kernbase ≤ (BitVec.ofNat 32 (s.proc p).sz + n).toNat
    · have he : (s.proc p).space.allocuvm (s.proc p).sz (BitVec.ofNat 32 (s.proc p).sz + n).toNat
          (s.enter fail).mem = .ok (0, (s.proc p).space, (s.enter fail).mem) := by
        rw [allocuvm, if_pos hkern]
      refine ⟨_, sbrk_alloc hn he, iff_of_true ?_ fun hlt => absurd hlt (by omega)⟩
      exact failed_exactly rfl fun _ => rfl
    · obtain ⟨sz, sp', m', he, ⟨rfl, hpage, hloop, hgrown⟩ | ⟨rfl, hpage, hsame, -⟩⟩ :=
        allocuvm_grown hs hm (hfull.covered hs) (by omega) (Nat.lt_of_not_le hkern)
      · have hne : (BitVec.ofNat 32 (s.proc p).sz + n).toNat ≠ 0 := by omega
        have hmono := pages_mono (show (s.proc p).sz ≤ (BitVec.ofNat 32 (s.proc p).sz + n).toNat by
          omega)
        refine ⟨_, sbrk_alloc hn he, ?_⟩
        rw [decide_eq_true hne, if_neg hne]
        by_cases htable : .table ∈ s.sbrkRefusals p n fail
        · -- A page without a page table is left out.
          refine iff_of_false (fun hexact => ?_) fun h => hpage (h (by omega) htable)
          obtain ⟨e, hge, hlt, hno⟩ := hgrown.hole htable rfl
          have hmaps := hexact.2.2.1
          rw [Full, setProc_proc] at hmaps
          have hlt' : e < pages (BitVec.ofNat 32 (s.proc p).sz + n).toNat := by omega
          exact hno ((hmaps e).2 hlt')
        · refine iff_of_true ?_ fun _ h => absurd h htable
          have hmem := allocLoop_mem hm.freelist_nodup (hfull.covered hs).below hloop
          have hmaps := hgrown.maps htable hfull
          rw [Nat.add_sub_of_le hmono] at hmaps
          exact grown_exactly hinv hused hnew (Nat.lt_of_not_le hkern) hmaps hgrown.old hmem
      · exact ⟨_, sbrk_alloc hn he, iff_of_true (failed_exactly rfl hsame) fun _ _ => hpage⟩
  · omega

theorem sbrk_dealloc (hn : n.toInt < 0) {N sz : ℕ}
    (hN : (BitVec.ofNat 32 (s.proc p).sz + n).toNat = N)
    (hsz : (if (s.proc p).sz ≤ N then (s.proc p).sz else N) = sz) :
    s.sbrk p n = .ok (decide (sz ≠ 0), (s.setMem ((s.proc p).space.deallocuvm (s.proc p).sz N s.mem).2).setProc p
      { s.proc p with
        space := ((s.proc p).space.deallocuvm (s.proc p).sz N s.mem).1
        sz := if sz = 0 then (s.proc p).sz else sz }) := by
  have hpos : ¬0 < n.toInt := by omega
  simp only [sbrk, if_neg hpos, if_pos hn, hN, hsz]

/-- The process has shrunk to the size `N`. -/
theorem shrunk_exactly {N : ℕ} (hfull : s.Full p)
    (hnew : (N : Int) = (s.proc p).sz + n.toInt) (hlt : N < (s.proc p).sz) (hkern : N < kernbase)
    (hget : ∀ e, get e sp.entries = if e < pages N then get e (s.proc p).space.entries else none)
    (hmem : ∀ e k, get e sp.entries = some k → m.mem k = s.mem.mem k) :
    GrowsExactly p n s (true, (s.setMem m).setProc p { s.proc p with space := sp, sz := N }) := by
  have hmono := pages_mono hlt.le
  simp only [GrowsExactly, Full, setProc_proc, setProc_byte]
  refine ⟨hnew, hkern, fun e => ?_, fun addr haddr => ?_, fun addr hlo hhi => ?_⟩
  · rw [← get_isSome, hget]
    split
    · next he => exact iff_of_true (get_isSome.2 ((hfull e).2 (by omega))) he
    · next he => exact iff_of_false (by simp) he
  · have hN : addr < N := (lt_min_iff.1 haddr).2
    have hpage : addr / pgsize < pages N := by
      simp only [pages, pgsize]
      omega
    have hsame := hget (addr / pgsize)
    rw [if_pos hpage] at hsame
    rw [byte, ← hsame]
    refine Option.map_congr fun k hk => ?_
    exact congrFun (hmem _ k hk) _
  · have hle : pages N * pgsize ≤ pages (s.proc p).sz * pgsize := Nat.mul_le_mul_right _ hmono
    exact absurd (lt_of_le_of_lt hlo hhi) (Nat.not_lt.2 hle)

/-- A process that shrinks. -/
theorem sbrk_shrink (hinv : Inv all lost s) (hused : (s.proc p).state ≠ .unused) (hfull : s.Full p)
    (hn : n.toInt < 0) :
    ∃ r, (s.enter fail).sbrk p n = .ok r ∧ (GrowsExactly p n s r ↔ SbrkOk p n fail s) := by
  have hsz := hinv.size p hused
  have hs := hinv.sound p hused
  obtain ⟨rest, hm⟩ := (hinv.enter fail).space_holds hused
  have hok : SbrkOk p n fail s ↔ ((s.proc p).sz = 0 ∨ 0 < (s.proc p).sz + n.toInt) :=
    ⟨fun h => h.shrink hn, fun h => ⟨fun _ => h, fun hpos => absurd hpos (by omega)⟩⟩
  rw [hok]
  obtain ⟨hpos, hnew⟩ | ⟨hneg, hge⟩ := newsz_cases hsz n
  · generalize hN : (BitVec.ofNat 32 (s.proc p).sz + n).toNat = N at hnew
    have hlt : N < (s.proc p).sz := by omega
    have hget := deallocuvm_covered hs (hfull.covered hs) hlt (s.enter fail).mem
    refine ⟨_, sbrk_dealloc (s := s.enter fail) hn hN (if_neg (Nat.not_le.2 hlt)), ?_⟩
    by_cases hzero : N = 0
    · -- All pages are gone, and the process is told that it has failed.
      rw [decide_eq_false (not_not.2 hzero)]
      refine iff_of_false (fun hexact => ?_) (by omega)
      have hfirst := hexact.2 0
      rw [setProc_proc] at hfirst
      have hnone := (hget 0).symm.trans hfirst
      rw [hzero, if_neg (by simp [pages])] at hnone
      refine get_eq_none.1 hnone.symm ((hfull 0).2 ?_)
      exact Nat.div_pos (by omega) (by decide)
    · rw [decide_eq_true hzero, if_neg hzero]
      refine iff_of_true ?_ (.inr (by omega))
      exact shrunk_exactly hfull hnew hlt (hlt.trans hsz) hget fun e k hk =>
        deallocuvm_mem hs hm.own_nodup hk
  · generalize hN : (BitVec.ofNat 32 (s.proc p).sz + n).toNat = N at hge
    have hsame : (s.proc p).space.deallocuvm (s.proc p).sz N (s.enter fail).mem =
        ((s.proc p).space, (s.enter fail).mem) := if_pos hge
    have hsize : (if (s.proc p).sz ≤ N then (s.proc p).sz else N) = (s.proc p).sz := if_pos hge
    refine ⟨_, sbrk_dealloc (s := s.enter fail) hn hN hsize, ?_⟩
    by_cases hzero : (s.proc p).sz = 0
    · rw [decide_eq_false (not_not.2 hzero)]
      refine iff_of_true (failed_exactly (if_pos hzero) fun a => ?_) (.inl hzero)
      exact congrArg (fun r : AddrSpace × PageMem => get a r.1.entries) hsame
    · -- The size has wrapped round: nothing is done, and the process is told that it has succeeded.
      rw [decide_eq_true hzero]
      refine iff_of_false (fun hexact => ?_) (by omega)
      have hsum := hexact.1
      rw [setProc_proc, if_neg hzero] at hsum
      have hsum' : ((s.proc p).sz : Int) = (s.proc p).sz + n.toInt := hsum
      omega

/-- One call of `sbrk`. -/
theorem sbrk_exact (hinv : Inv all lost s) (hused : (s.proc p).state ≠ .unused) (hfull : s.Full p) :
    ∃ r, (s.enter fail).sbrk p n = .ok r ∧ (GrowsExactly p n s r ↔ SbrkOk p n fail s) := by
  by_cases hpos : 0 < n.toInt
  · exact sbrk_grow hinv hused hfull hpos
  · by_cases hneg : n.toInt < 0
    · exact sbrk_shrink hinv hused hfull hneg
    · refine ⟨(true, s.enter fail), by simp only [sbrk, if_neg hpos, if_neg hneg],
        iff_of_true ?_ ?_⟩
      · refine ⟨?_, hinv.size p hused, hfull, fun _ _ => rfl, fun addr hlo hhi => ?_⟩
        · have hsame : ((s.enter fail).proc p).sz = (s.proc p).sz := rfl
          rw [hsame]
          omega
        · exact absurd (lt_of_le_of_lt hlo hhi) (lt_irrefl _)
      · exact ⟨fun h => absurd h hneg, fun h => absurd h hpos⟩

end PageSys

end Xv6
