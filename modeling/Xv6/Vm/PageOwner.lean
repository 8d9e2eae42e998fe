import Xv6.Vm.PageSys
import Xv6.Vm.Space
import Mathlib.Algebra.Order.Group.Multiset
import Mathlib.Tactic.Abel

set_option autoImplicit false

/-! # The pages of an address space

What each function of `vm.c` does to the ownership of pages, as a rule: `Holds all lost m own` says
that the pages `all` are the free ones, the lost ones and those in `own`, no page twice, and that so
far `kalloc` and `kfree` have been used as they should. The rest of the kernel's pages is carried
along as a part of `own` that a function does not touch.

That `freevm` finds every page takes the shape of an address space (`Sound`): where a user page is
mapped there is a page table for it, and the loop of `deallocuvm` starts at a page table's first
page. -/

namespace Xv6

open Assoc Stoppable

namespace PageMem

/-! ## The allocator -/

/-- By the history, `kalloc` has returned the page and it has not been freed since. -/
def inUse (k : ℕ) : List PageEvent → Bool
  | [] => false
  | .kalloc j :: past => if j = k then true else inUse k past
  | .kfree j :: past => if j = k then false else inUse k past

/-- `kalloc` has returned no page that was in use, and `kfree` was given only pages that were. -/
def Proper : List PageEvent → Prop
  | [] => True
  | .kalloc k :: past => inUse k past = false ∧ Proper past
  | .kfree k :: past => inUse k past = true ∧ Proper past

structure Holds (all : Multiset ℕ) (lost : List ℕ) (m : PageMem) (own : Multiset ℕ) : Prop where
  nodup : all.Nodup
  total : (m.freelist : Multiset ℕ) + m.lost + own = all
  inUse : ∀ k, inUse k m.history = true ↔ k ∈ m.lost ∨ k ∈ own
  proper : Proper m.history
  /-- Nothing that was lost before is found again. -/
  lost : lost <:+ m.lost

variable {all own : Multiset ℕ} {lost : List ℕ} {m m' : PageMem} {k : ℕ} {ks : List ℕ}

theorem kalloc_some (h : m.kalloc = (some k, m')) :
    ∃ rest, m.freelist = k :: rest ∧
      m' = { m with freelist := rest, calls := m.calls + 1, history := .kalloc k :: m.history } := by
  unfold kalloc at h
  split at h
  · next rest _ hfree =>
    cases h
    exact ⟨_, hfree, rfl⟩
  · cases h

theorem kalloc_none (h : m.kalloc = (none, m')) : m' = { m with calls := m.calls + 1 } := by
  unfold kalloc at h
  split at h
  · cases h
  · cases h
    rfl

namespace Holds

section

variable (h : Holds all lost m own)

include h

theorem count_le (k : ℕ) :
    m.freelist.count k + m.lost.count k + own.count k ≤ 1 := by
  have hle := Multiset.nodup_iff_count_le_one.1 h.nodup k
  rwa [← h.total, Multiset.count_add, Multiset.count_add, Multiset.coe_count,
    Multiset.coe_count] at hle

theorem congr (hfree : m'.freelist = m.freelist) (hlost : m'.lost = m.lost)
    (hhist : m'.history = m.history) : Holds all lost m' own := by
  constructor
  · exact h.nodup
  · rw [hfree, hlost]
    exact h.total
  · rw [hhist, hlost]
    exact h.inUse
  · rw [hhist]
    exact h.proper
  · rw [hlost]
    exact h.lost

theorem fill (k : ℕ) (bytes : ℕ → Byte) : Holds all lost (m.fill k bytes) own :=
  h.congr rfl rfl rfl

theorem kalloc_none (hk : m.kalloc = (none, m')) : Holds all lost m' own := by
  rw [PageMem.kalloc_none hk]
  exact h.congr rfl rfl rfl

theorem kalloc_some (hk : m.kalloc = (some k, m')) :
    Holds all lost m' (k ::ₘ own) := by
  obtain ⟨rest, hfree, rfl⟩ := PageMem.kalloc_some hk
  have hcount := h.count_le k
  rw [hfree, List.count_cons_self] at hcount
  constructor
  · exact h.nodup
  · rw [← h.total, hfree]
    simp [← Multiset.cons_coe]
  · intro j
    have hj := h.inUse j
    by_cases hjk : k = j
    · simp [PageMem.inUse, hjk]
    · simp [PageMem.inUse, hjk, hj, Ne.symm hjk]
  · refine ⟨?_, h.proper⟩
    rw [Bool.eq_false_iff, Ne, h.inUse, ← List.count_pos_iff, ← Multiset.count_pos]
    omega
  · exact h.lost

end

theorem kfree (h : Holds all lost m (k ::ₘ own)) : Holds all lost (m.kfree k) own := by
  have hcount := h.count_le k
  rw [Multiset.count_cons_self] at hcount
  constructor
  · exact h.nodup
  · rw [← h.total]
    simp [PageMem.kfree, PageMem.fill, ← Multiset.cons_coe]
  · intro j
    have hj := h.inUse j
    by_cases hjk : k = j
    · subst hjk
      have hout : ¬(k ∈ m.lost ∨ k ∈ own) := by
        rw [← List.count_pos_iff, ← Multiset.count_pos]
        omega
      simpa [PageMem.kfree, PageMem.fill, PageMem.inUse] using hout
    · simpa [PageMem.kfree, PageMem.fill, PageMem.inUse, hjk, Ne.symm hjk] using hj
  · exact ⟨(h.inUse k).2 (.inr (Multiset.mem_cons_self _ _)), h.proper⟩
  · exact h.lost

theorem kfreeAll (h : Holds all lost m (ks + own)) : Holds all lost (m.kfreeAll ks) own := by
  induction ks generalizing m with
  | nil => simpa [PageMem.kfreeAll] using h
  | cons k ks ih =>
    rw [← Multiset.cons_coe, Multiset.cons_add] at h
    exact ih h.kfree

theorem lose (h : Holds all lost m (ks + own)) : Holds all lost (m.lose ks) own := by
  constructor
  · exact h.nodup
  · rw [← h.total, PageMem.lose, ← Multiset.coe_add]
    abel
  · intro j
    rw [show (m.lose ks).history = m.history from rfl, h.inUse]
    simp [PageMem.lose, or_left_comm, or_assoc]
  · exact h.proper
  · exact h.lost.trans (List.suffix_append _ _)

end Holds

end PageMem

/-! ## Address spaces -/

namespace AddrSpace

open PageMem

variable {all rest : Multiset ℕ} {lost : List ℕ} {m m' : PageMem} {sp sp' : AddrSpace} {a k t n : ℕ}

theorem coe_pages (sp : AddrSpace) :
    (sp.pages : Multiset ℕ) = sp.dir ::ₘ (sp.kernel + values sp.tables + values sp.entries) := rfl

theorem pages_addKernel : ((sp.addKernel t).pages : Multiset ℕ) = t ::ₘ sp.pages := by
  rw [coe_pages, coe_pages, addKernel, ← Multiset.coe_add, ← Multiset.singleton_add,
    ← Multiset.singleton_add, ← Multiset.singleton_add, Multiset.coe_singleton]
  abel

theorem pages_addTable : ((sp.addTable a t).pages : Multiset ℕ) = t ::ₘ sp.pages := by
  rw [coe_pages, coe_pages, addTable, values_cons, ← Multiset.cons_coe, Multiset.add_cons,
    Multiset.cons_add, Multiset.cons_swap]

theorem pages_addEntry : ((sp.addEntry a k).pages : Multiset ℕ) = k ::ₘ sp.pages := by
  rw [coe_pages, coe_pages, addEntry, values_cons, ← Multiset.cons_coe, Multiset.add_cons,
    Multiset.cons_swap]

/-- What the kernel relies on in a page directory. -/
structure Sound (sp : AddrSpace) : Prop where
  tables : (keys sp.tables).Nodup
  below : ∀ d ∈ keys sp.tables, d < 512
  entries : (keys sp.entries).Nodup
  tabled : ∀ a ∈ keys sp.entries, a / nptentries ∈ keys sp.tables

theorem pages_delEntry (hs : sp.Sound) (hk : get a sp.entries = some k) :
    (sp.pages : Multiset ℕ) = k ::ₘ (sp.delEntry a).pages := by
  have hvalues : (values sp.entries : Multiset ℕ) = k ::ₘ values (del a sp.entries) :=
    Multiset.coe_eq_coe.2 (values_perm_del hs.entries hk)
  rw [coe_pages, coe_pages, delEntry, hvalues, Multiset.add_cons, Multiset.cons_swap]

namespace Sound

theorem addEntry (hs : sp.Sound) (ht : a / nptentries ∈ keys sp.tables) (ha : a ∉ keys sp.entries) :
    (sp.addEntry a k).Sound where
  tables := hs.tables
  below := hs.below
  entries := List.nodup_cons.2 ⟨ha, hs.entries⟩
  tabled := by
    intro b hb
    obtain rfl | hb := List.mem_cons.1 hb
    · exact ht
    · exact hs.tabled b hb

theorem addTable {d : ℕ} (hs : sp.Sound) (hd : d < 512) (hnew : d ∉ keys sp.tables) :
    (sp.addTable d t).Sound where
  tables := List.nodup_cons.2 ⟨hnew, hs.tables⟩
  below := by
    intro c hc
    obtain rfl | hc := List.mem_cons.1 hc
    · exact hd
    · exact hs.below c hc
  entries := hs.entries
  tabled b hb := List.mem_cons_of_mem _ (hs.tabled b hb)

theorem addKernel (hs : sp.Sound) : (sp.addKernel t).Sound :=
  ⟨hs.tables, hs.below, hs.entries, hs.tabled⟩

theorem delEntry (hs : sp.Sound) : (sp.delEntry a).Sound where
  tables := hs.tables
  below := hs.below
  entries := nodup_keys_del hs.entries
  tabled b hb := hs.tabled b (mem_keys_del.1 hb).1

end Sound

/-! ### Mapping pages -/

/-- What `mappages` can do. -/
theorem mappages_cases {ok : Bool} (h : mappages a k sp m = .ok (ok, sp', m')) :
    (a / nptentries ∈ keys sp.tables ∧ a ∉ keys sp.entries ∧ ok = true ∧ sp' = sp.addEntry a k ∧
      m' = m) ∨
    (a / nptentries ∉ keys sp.tables ∧ m.kalloc = (none, m') ∧ ok = false ∧ sp' = sp) ∨
    (a / nptentries ∉ keys sp.tables ∧ ∃ t, m.kalloc = (some t, m') ∧ ok = true ∧
      sp' = (sp.addTable (a / nptentries) t).addEntry a k) := by
  unfold mappages at h
  split at h
  · next ht =>
    have hmem : a / nptentries ∈ keys sp.tables := by
      by_contra hno
      rw [get_eq_none.2 hno] at ht
      cases ht
    split_ifs at h with hnone
    cases h
    refine .inl ⟨hmem, get_eq_none.1 ?_, rfl, rfl, rfl⟩
    simpa using hnone
  · next ht =>
    have hmem := get_eq_none.1 ht
    split at h
    · next hk =>
      cases h
      exact .inr (.inl ⟨hmem, hk, rfl, rfl⟩)
    · next t _ hk =>
      cases h
      exact .inr (.inr ⟨hmem, t, hk, rfl, rfl⟩)

theorem mappages_holds {ok : Bool} (hs : sp.Sound) (ha : a < kernPage)
    (hm : Holds all lost m (k ::ₘ (sp.pages + rest))) (h : mappages a k sp m = .ok (ok, sp', m')) :
    sp'.Sound ∧
      Holds all lost m' (if ok then sp'.pages + rest else k ::ₘ (sp'.pages + rest)) := by
  obtain ⟨ht, hnew, rfl, rfl, rfl⟩ | ⟨ht, hk, rfl, rfl⟩ | ⟨ht, t, hk, rfl, rfl⟩ := mappages_cases h
  · refine ⟨hs.addEntry ht hnew, ?_⟩
    rw [if_pos rfl, pages_addEntry, Multiset.cons_add]
    exact hm
  · exact ⟨hs, hm.kalloc_none hk⟩
  · have hd : a / nptentries < 512 := Nat.div_lt_of_lt_mul ha
    have hnew : a ∉ keys sp.entries := fun hmem => ht (hs.tabled a hmem)
    refine ⟨(hs.addTable hd ht).addEntry (List.mem_cons_self ..) hnew, ?_⟩
    rw [if_pos rfl, pages_addEntry, pages_addTable, Multiset.cons_add, Multiset.cons_add,
      Multiset.cons_swap]
    exact hm.kalloc_some hk

/-- What a new page of `allocuvm` leads to. -/
theorem allocLoop_holds {ok : Bool} (hs : sp.Sound) (ha : a + n ≤ kernPage)
    (hm : Holds all lost m (sp.pages + rest)) (h : allocLoop n a sp m = .ok (ok, sp', m')) :
    sp'.Sound ∧ Holds all lost m' (sp'.pages + rest) := by
  induction n generalizing a sp m with
  | zero =>
    cases h
    exact ⟨hs, hm⟩
  | succ n ih =>
    rw [allocLoop] at h
    split at h
    · next hk =>
      cases h
      exact ⟨hs, hm.kalloc_none hk⟩
    · next k m1 hk =>
      split at h
      · cases h
      · next b sp1 m2 hmap =>
        obtain ⟨hs1, hm2⟩ := mappages_holds hs (by omega) ((hm.kalloc_some hk).fill _ _) hmap
        refine ih hs1 (by omega) ?_ h
        cases b with
        | true => exact hm2
        | false =>
          rw [if_neg (by decide), ← Multiset.singleton_add] at hm2
          exact hm2.lose

/-! ### Freeing pages -/

variable {R : AddrSpace → PageMem → Prop}

/-- What one page that is freed keeps, the loop keeps. -/
theorem deallocLoop_rec
    (hstep : ∀ {sp m a k}, R sp m → get a sp.entries = some k → R (sp.delEntry a) (m.kfree k))
    (oldsz fuel a : ℕ) (h : R sp m) :
    R (deallocLoop oldsz fuel a sp m).1 (deallocLoop oldsz fuel a sp m).2 := by
  induction fuel generalizing a sp m with
  | zero => exact h
  | succ fuel ih =>
    rw [deallocLoop]
    split
    · exact h
    · split
      · exact ih _ h
      · split
        · next hk => exact ih _ (hstep h hk)
        · exact ih _ h

theorem deallocuvm_rec
    (hstep : ∀ {sp m a k}, R sp m → get a sp.entries = some k → R (sp.delEntry a) (m.kfree k))
    (oldsz newsz : ℕ) (h : R sp m) :
    R (deallocuvm oldsz newsz sp m).1 (deallocuvm oldsz newsz sp m).2 := by
  unfold deallocuvm
  split
  · exact h
  · exact deallocLoop_rec hstep _ _ _ h

theorem kfreeAll_rec {Q : PageMem → Prop} (hQ : ∀ {m k}, Q m → Q (m.kfree k)) (ks : List ℕ)
    (h : Q m) :
    Q (m.kfreeAll ks) := by
  induction ks generalizing m with
  | nil => exact h
  | cons k ks ih => exact ih (hQ h)

theorem freevm_rec {Q : PageMem → Prop} (hQ : ∀ {m k}, Q m → Q (m.kfree k)) (h : Q m) :
    Q (sp.freevm m) := by
  have hdealloc : Q (deallocuvm kernbase 0 sp m).2 :=
    deallocuvm_rec (R := fun _ m => Q m) (fun h _ => hQ h) kernbase 0 h
  unfold freevm
  generalize deallocuvm kernbase 0 sp m = r at hdealloc ⊢
  exact hQ (kfreeAll_rec hQ _ hdealloc)

variable {oldsz newsz sz : ℕ}

/-- Where a page table is missing the loop goes up by 1024 pages, which skips nothing if it stands
    at the first page of the table, or above all that is mapped. -/
theorem deallocLoop_get {fuel : ℕ} (b : ℕ) (hfuel : Xv6.pages oldsz ≤ a + fuel)
    (hskip : a / nptentries ∉ keys sp.tables → a % nptentries = 0 ∨ ∀ e ∈ keys sp.entries, e < a)
    (hs : sp.Sound) :
    get b (deallocLoop oldsz fuel a sp m).1.entries =
      if b < a ∨ Xv6.pages oldsz ≤ b then get b sp.entries else none := by
  have hend : ∀ {a : ℕ}, oldsz ≤ a * pgsize ↔ Xv6.pages oldsz ≤ a := by
    intro a
    simp only [Xv6.pages, pgsize]
    omega
  induction fuel generalizing a sp m with
  | zero =>
    rw [deallocLoop, if_pos (by omega)]
  | succ fuel ih =>
    rw [deallocLoop]
    split
    · next hle =>
      have hle := hend.1 hle
      rw [if_pos (by omega)]
    · next hlt =>
      rw [hend] at hlt
      split
      · next ht =>
        have ht' := get_eq_none.1 ht
        have hskip := hskip ht'
        have hfuel' : Xv6.pages oldsz ≤ a + nptentries + fuel := by
          simp only [nptentries]
          omega
        rw [ih hfuel' (fun _ => ?_) hs]
        · by_cases hb : b ∈ keys sp.entries
          · have hgap : b < a ∨ a + nptentries ≤ b := by
              obtain hal | hall := hskip
              · -- Every page of the missing table is unmapped.
                have hne : b / nptentries ≠ a / nptentries := fun e => ht' (e ▸ hs.tabled b hb)
                simp only [nptentries] at hal hne ⊢
                omega
              · exact .inl (hall b hb)
            refine if_congr ?_ rfl rfl
            omega
          · rw [get_eq_none.2 hb, ite_self, ite_self]
        · obtain hal | hall := hskip
          · left
            simpa using hal
          · right
            intro e he
            exact (hall e he).trans_le (Nat.le_add_right _ _)
      · next t ht =>
        have hnext : (a + 1) / nptentries ∉ keys sp.tables → (a + 1) % nptentries = 0 := by
          intro hno
          have hmem := List.mem_map_of_mem (f := Prod.fst) (mem_of_get ht)
          have hne : (a + 1) / nptentries ≠ a / nptentries := fun e => hno (e ▸ hmem)
          simp only [nptentries] at hne ⊢
          omega
        split
        · next k hk =>
          have hskip' : (a + 1) / nptentries ∉ keys (sp.delEntry a).tables →
              (a + 1) % nptentries = 0 ∨ ∀ e ∈ keys (sp.delEntry a).entries, e < a + 1 :=
            fun hno => .inl (hnext hno)
          rw [ih (by omega) hskip' hs.delEntry, delEntry]
          by_cases hb : b = a
          · rw [hb, get_del_self, ite_self, if_neg (by omega)]
          · rw [get_del_of_ne hb]
            refine if_congr ?_ rfl rfl
            omega
        · next hk =>
          rw [ih (by omega) (fun hno => .inl (hnext hno)) hs]
          by_cases hb : b = a
          · rw [hb, hk, ite_self, ite_self]
          · refine if_congr ?_ rfl rfl
            omega

/-- `deallocuvm` changes nothing but entries. -/
theorem deallocuvm_tables (oldsz newsz : ℕ) (sp : AddrSpace) (m : PageMem) :
    (deallocuvm oldsz newsz sp m).1.tables = sp.tables :=
  deallocuvm_rec (R := fun sp' _ => sp'.tables = sp.tables) (fun h _ => h) oldsz newsz rfl

theorem deallocuvm_get (b : ℕ) (hlt : newsz < oldsz)
    (hskip : Xv6.pages newsz / nptentries ∉ keys sp.tables →
      Xv6.pages newsz % nptentries = 0 ∨ ∀ e ∈ keys sp.entries, e < Xv6.pages newsz)
    (hs : sp.Sound) (m : PageMem) :
    get b (deallocuvm oldsz newsz sp m).1.entries =
      if b < Xv6.pages newsz ∨ Xv6.pages oldsz ≤ b then get b sp.entries else none := by
  rw [deallocuvm, if_neg (Nat.not_le.2 hlt)]
  exact deallocLoop_get b (Nat.le_add_left _ _) hskip hs

theorem deallocuvm_holds (oldsz newsz : ℕ) (hs : sp.Sound)
    (hm : Holds all lost m (sp.pages + rest)) :
    (deallocuvm oldsz newsz sp m).1.Sound ∧
      Holds all lost (deallocuvm oldsz newsz sp m).2 ((deallocuvm oldsz newsz sp m).1.pages + rest) := by
  refine deallocuvm_rec (R := fun sp m => sp.Sound ∧
    Holds all lost m (sp.pages + rest)) ?_ _ _ ⟨hs, hm⟩
  rintro sp m a k ⟨hs, hm⟩ hk
  rw [pages_delEntry hs hk, Multiset.cons_add] at hm
  exact ⟨hs.delEntry, hm.kfree⟩

theorem found_perm (hs : sp.Sound) : sp.found.Perm (values sp.tables ++ sp.kernel) := by
  refine List.Perm.append_right _ (filterMap_get_perm List.nodup_range hs.tables fun d hd => ?_)
  exact List.mem_range.2 (hs.below d hd)

/-- After the loop from page 0 on nothing is mapped. -/
theorem deallocuvm_empty (hs : sp.Sound) : (deallocuvm kernbase 0 sp m).1.entries = [] := by
  have hkeys : ∀ b, b ∉ keys (deallocuvm kernbase 0 sp m).1.entries := by
    intro b hb
    rw [← get_isSome, deallocuvm_get b (by decide) (fun _ => .inl rfl) hs] at hb
    split at hb
    · next hor =>
      have hle : Xv6.pages kernbase ≤ b := hor.resolve_left (Nat.not_lt_zero b)
      have hb := get_isSome.1 hb
      have hd := hs.below _ (hs.tabled b hb)
      have hkern : Xv6.pages kernbase = kernPage := rfl
      simp only [hkern, nptentries, kernPage] at hle hd
      omega
    · cases hb
  exact List.map_eq_nil_iff.1 (List.eq_nil_iff_forall_not_mem.2 hkeys)

/-- `freevm` frees every page of the address space. -/
theorem freevm_holds (hs : sp.Sound) (hm : Holds all lost m (sp.pages + rest)) :
    Holds all lost (sp.freevm m) rest := by
  obtain ⟨hs1, hm1⟩ := deallocuvm_holds kernbase 0 hs hm
  have hempty := deallocuvm_empty (m := m) hs
  unfold freevm
  generalize deallocuvm kernbase 0 sp m = r at hs1 hm1 hempty ⊢
  obtain ⟨sp1, m1⟩ := r
  rw [coe_pages, hempty] at hm1
  refine Holds.kfree (Holds.kfreeAll ?_)
  rw [Multiset.coe_eq_coe.2 (found_perm hs1), ← Multiset.coe_add, Multiset.add_cons]
  simp only [values, List.map_nil, Multiset.coe_nil, add_zero, Multiset.cons_add] at hm1
  rw [add_comm (values sp1.tables : Multiset ℕ)]
  exact hm1

/-! ### Whole address spaces -/

/-- `allocuvm` never grows an address space up to the kernel's part. -/
theorem allocuvm_holds (hs : sp.Sound) (hm : Holds all lost m (sp.pages + rest))
    (h : allocuvm oldsz newsz sp m = .ok (sz, sp', m')) :
    sp'.Sound ∧ Holds all lost m' (sp'.pages + rest) := by
  unfold allocuvm at h
  split at h
  · cases h
    exact ⟨hs, hm⟩
  · next hlt =>
    split at h
    · cases h
      exact ⟨hs, hm⟩
    · next hle =>
      have hpages := pages_le_kernPage (Nat.le_of_not_le hlt)
      have hmono := pages_mono (Nat.le_of_not_lt hle)
      split at h
      · cases h
      · next hloop =>
        cases h
        exact allocLoop_holds hs (by omega) hm hloop
      · next hloop =>
        obtain ⟨hs1, hm1⟩ := allocLoop_holds hs (by omega) hm hloop
        cases h
        exact deallocuvm_holds newsz oldsz hs1 hm1

/-- A function that builds an address space has built one, or takes nothing with it but what is
    lost. -/
def Builds (all : Multiset ℕ) (lost : List ℕ) (rest : Multiset ℕ) :
    Option AddrSpace × PageMem → Prop
  | (some sp, m) => sp.Sound ∧ Holds all lost m (sp.pages + rest)
  | (none, m) => Holds all lost m rest

theorem kernelTables_builds (hs : sp.Sound) (hm : Holds all lost m (sp.pages + rest)) :
    Builds all lost rest (kernelTables n sp m) := by
  induction n generalizing sp m with
  | zero => exact ⟨hs, hm⟩
  | succ n ih =>
    rw [kernelTables]
    split
    · next hk => exact (hm.kalloc_none hk).lose
    · next t m1 hk =>
      refine ih hs.addKernel ?_
      rw [pages_addKernel, Multiset.cons_add]
      exact hm.kalloc_some hk

theorem sound_new (k : ℕ) : (⟨k, [], [], []⟩ : AddrSpace).Sound := by
  constructor <;> simp [keys]

theorem setupkvm_builds (hm : Holds all lost m rest) : Builds all lost rest (setupkvm m) := by
  unfold setupkvm
  split
  · next hk => exact hm.kalloc_none hk
  · next k m1 hk =>
    refine kernelTables_builds (sound_new k) ?_
    exact hm.kalloc_some hk

variable {r : Option AddrSpace × PageMem}

theorem copyLoop_builds {old d : AddrSpace} {i : ℕ} (hi : i + n ≤ kernPage)
    (hs : d.Sound) (hm : Holds all lost m (d.pages + rest)) (h : copyLoop old n i d m = .ok r) :
    Builds all lost rest r := by
  induction n generalizing i d m with
  | zero =>
    cases h
    exact ⟨hs, hm⟩
  | succ n ih =>
    have hlt : i < kernPage := by omega
    rw [copyLoop] at h
    split at h
    · cases h
    · cases h
    · next frame _ _ =>
      split at h
      · next hk =>
        cases h
        exact freevm_holds hs (hm.kalloc_none hk)
      · next k m1 hk =>
        have hm1 := (hm.kalloc_some hk).fill k (m1.mem frame)
        split at h
        · cases h
        · next hmap =>
          obtain ⟨hs2, hm2⟩ := mappages_holds hs hlt hm1 hmap
          exact ih (by omega) hs2 hm2 h
        · next hmap =>
          obtain ⟨hs2, hm2⟩ := mappages_holds hs hlt hm1 hmap
          rw [if_neg (by decide), ← Multiset.singleton_add] at hm2
          cases h
          exact freevm_holds hs2 hm2.lose

theorem copyuvm_builds {old : AddrSpace} (hsz : sz ≤ kernbase)
    (hm : Holds all lost m rest) (h : copyuvm old sz m = .ok r) : Builds all lost rest r := by
  have hsetup := setupkvm_builds hm
  unfold copyuvm at h
  split at h
  · next he =>
    rw [he] at hsetup
    cases h
    exact hsetup
  · next he =>
    rw [he] at hsetup
    exact copyLoop_builds (by simpa using pages_le_kernPage hsz) hsetup.1 hsetup.2 h

/-- The size that `allocuvm` returns. -/
theorem allocuvm_size (hsz : newsz < oldsz → oldsz < kernbase)
    (h : allocuvm oldsz newsz sp m = .ok (sz, sp', m')) : sz < kernbase := by
  unfold allocuvm at h
  split at h
  · cases h
    decide
  · next hlt =>
    split at h
    · next hless =>
      cases h
      exact hsz hless
    · split at h
      · cases h
      · cases h
        exact Nat.lt_of_not_le hlt
      · cases h
        decide

theorem loadLoop_yields (g : SegmentLoad) (sp : AddrSpace) (fuel i : ℕ) (m : PageMem)
    (hfuel : g.filesz.toNat ≤ i + fuel * pgsize) (hi : min i g.filesz.toNat ≤ g.data.length) :
    Yields (fun e => e ≠ .remap) (fun x => x.1 = g.loaded ∧ ∃ mem, x.2 = { m with mem := mem })
      (loadLoop g sp fuel i m) := by
  induction fuel generalizing i m with
  | zero =>
    refine .ok ⟨?_, m.mem, rfl⟩
    simp only [SegmentLoad.loaded, Bool.true_eq, decide_eq_true_eq]
    omega
  | succ fuel ih =>
    rw [loadLoop]
    split_ifs with hend
    · refine .ok ⟨?_, m.mem, rfl⟩
      simp only [SegmentLoad.loaded, Bool.true_eq, decide_eq_true_eq]
      omega
    have hlen : ((g.data.drop i).take (min (g.filesz.toNat - i) pgsize)).length =
        min (min (g.filesz.toNat - i) pgsize) (g.data.length - i) := by
      rw [List.length_take, List.length_drop]
    dsimp only
    generalize (g.data.drop i).take (min (g.filesz.toNat - i) pgsize) = bytes at hlen ⊢
    have hshort (hne : bytes.length ≠ min (g.filesz.toNat - i) pgsize) : false = g.loaded := by
      simp only [SegmentLoad.loaded, Bool.false_eq, decide_eq_false_iff_not, pgsize] at hne hlen ⊢
      omega
    split
    · exact .error (by decide)
    · split_ifs with hnil
      · refine .ok ⟨hshort ?_, m.mem, rfl⟩
        rw [hnil, List.length_nil]
        simp only [pgsize]
        omega
      · exact .error (by decide)
    · split_ifs with hfull
      · refine (ih (i + pgsize) _ (by rw [Nat.add_one_mul] at hfuel; omega) ?_).post ?_
        · simp only [pgsize] at hfull hlen ⊢
          omega
        · rintro x ⟨hx, mem, hm⟩
          exact ⟨hx, mem, hm⟩
      · exact .ok ⟨hshort hfull, _, rfl⟩

/-- `loaduvm` changes the contents of pages and nothing else. -/
theorem loaduvm_yields (g : SegmentLoad) (sp : AddrSpace) (m : PageMem) :
    Yields (fun e => e ≠ .remap) (fun x => x.1 = g.loaded ∧ ∃ mem, x.2 = { m with mem := mem })
      (loaduvm g sp m) := by
  unfold loaduvm
  split
  · exact .error (by decide)
  · exact loadLoop_yields g sp _ 0 m (by rw [Nat.zero_add]; exact le_pages_mul _) (Nat.zero_le _)

variable {r : Option ℕ}

/-- A segment for which there is memory: it is loaded, and the next ones follow if it was loaded in
    full. -/
theorem loadSegments_cons {g : SegmentLoad} {gs : List SegmentLoad} (hsane : g.sane = true)
    (h : loadSegments (g :: gs) sz sp m = .ok (r, sp', m')) :
    ∃ sz1 sp1 m1 mem, allocuvm sz g.top.toNat sp m = .ok (sz1, sp1, m1) ∧
      if sz1 = 0 ∨ g.loaded = false then r = none ∧ sp' = sp1 ∧ m' = { m1 with mem := mem }
      else loadSegments gs sz1 sp1 { m1 with mem := mem } = .ok (r, sp', m') := by
  rw [loadSegments, if_pos hsane] at h
  split at h
  · cases h
  · next sz1 sp1 m1 halloc =>
    split at h
    · next hzero =>
      cases h
      exact ⟨sz1, sp', m', m'.mem, halloc, by rw [if_pos (.inl hzero)]; exact ⟨rfl, rfl, rfl⟩⟩
    · next hzero =>
      have hload := loaduvm_yields g sp1 m1
      split at h
      · cases h
      · next hres =>
        obtain ⟨hno, mem, hm⟩ := hload.1 _ hres
        cases h
        exact ⟨sz1, sp', m1, mem, halloc, by rw [if_pos (.inr hno.symm)]; exact ⟨rfl, rfl, hm⟩⟩
      · next hres =>
        obtain ⟨hyes, mem, rfl⟩ := hload.1 _ hres
        refine ⟨sz1, sp1, m1, mem, halloc, ?_⟩
        rw [if_neg (by simp [hzero, ← hyes])]
        exact h

theorem loadSegments_holds {gs : List SegmentLoad} (hs : sp.Sound)
    (hm : Holds all lost m (sp.pages + rest)) (h : loadSegments gs sz sp m = .ok (r, sp', m')) :
    sp'.Sound ∧ Holds all lost m' (sp'.pages + rest) := by
  induction gs generalizing sz sp m with
  | nil =>
    cases h
    exact ⟨hs, hm⟩
  | cons g gs ih =>
    by_cases hsane : g.sane = true
    · obtain ⟨sz1, sp1, m1, mem, halloc, hload⟩ := loadSegments_cons hsane h
      obtain ⟨hs1, hm1⟩ := allocuvm_holds hs hm halloc
      split at hload
      · obtain ⟨-, rfl, rfl⟩ := hload
        exact ⟨hs1, hm1.congr rfl rfl rfl⟩
      · exact ih hs1 (m := { m1 with mem := mem }) (hm1.congr rfl rfl rfl) hload
    · rw [loadSegments, if_neg hsane] at h
      cases h
      exact ⟨hs, hm⟩

theorem userStack_holds (hs : sp.Sound) (hm : Holds all lost m (sp.pages + rest))
    (h : userStack sz sp m = .ok (r, sp', m')) :
    sp'.Sound ∧ Holds all lost m' (sp'.pages + rest) := by
  unfold userStack at h
  split at h
  · cases h
  · next halloc =>
    split at h
    · cases h
      exact allocuvm_holds hs hm halloc
    · split at h
      · cases h
      · cases h
        exact allocuvm_holds hs hm halloc

theorem image_builds {x : ExecFacts} {r : Option (ℕ × AddrSpace)} (hm : Holds all lost m rest)
    (h : image x m = .ok (r, m')) : Builds all lost rest (r.map Prod.snd, m') := by
  have hsetup := setupkvm_builds hm
  unfold image at h
  split at h
  · next he =>
    rw [he] at hsetup
    cases h
    exact hsetup
  · next he =>
    rw [he] at hsetup
    obtain ⟨hs0, hm0⟩ := hsetup
    split at h
    · cases h
    · next hload =>
      obtain ⟨hs1, hm1⟩ := loadSegments_holds hs0 hm0 hload
      cases h
      exact freevm_holds hs1 hm1
    · next hload =>
      obtain ⟨hs1, hm1⟩ := loadSegments_holds hs0 hm0 hload
      split at h
      · cases h
      · next hstack =>
        obtain ⟨hs2, hm2⟩ := userStack_holds hs1 hm1 hstack
        cases h
        exact freevm_holds hs2 hm2
      · next hstack =>
        obtain ⟨hs2, hm2⟩ := userStack_holds hs1 hm1 hstack
        split at h
        · cases h
        · cases h
          exact freevm_holds hs2 hm2
        · cases h
          exact ⟨hs2, hm2⟩

theorem image_size {x : ExecFacts} (h : image x m = .ok (some (sz, sp), m')) : sz < kernbase := by
  unfold image at h
  split at h
  · cases h
  · split at h
    · cases h
    · cases h
    · split at h
      · cases h
      · cases h
      · next hstack =>
        split at h
        · cases h
        · cases h
        · cases h
          unfold userStack at hstack
          split at hstack
          · cases hstack
          · next halloc =>
            split at hstack
            · cases hstack
            · split at hstack
              · cases hstack
              · cases hstack
                exact allocuvm_size (fun hless => absurd hless (by omega)) halloc

end AddrSpace

end Xv6
