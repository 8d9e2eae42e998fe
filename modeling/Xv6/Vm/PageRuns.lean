import Xv6.Vm.PageGrow

set_option autoImplicit false

/-! # Page ownership over whole runs

Two results about every sequence of calls. No page ever has two owners, whatever calls of `kalloc`
fail. And as long as no page table is missed where `allocuvm` goes on without it, the mappings of a
process stay in order, so that `mappages` finds no page mapped already and `copyuvm` finds all that
it copies. -/

namespace Xv6

open Transition Assoc PageMem PageUse Stoppable

namespace PageMem

theorem refuses_append {m : PageMem} {o : List PageUse} {u : PageUse} (h : m.refuses o = some u)
    (us : List PageUse) : m.refuses (o ++ us) = some u := by
  unfold refuses at h ⊢
  generalize m.calls = i, m.freelist.length = free at h ⊢
  induction o generalizing i free with
  | nil => cases h
  | cons v o ih =>
    rw [List.cons_append, refused]
    rw [refused] at h
    split at h
    · next hno =>
      rw [if_pos hno]
      exact h
    · next hno =>
      rw [if_neg hno]
      exact ih _ _ h

end PageMem

namespace AddrSpace

variable {all rest : Multiset ℕ} {lost : List ℕ} {m m' : PageMem} {sp sp' : AddrSpace} {a k n : ℕ}

/-! ## New address spaces -/

theorem pages_aligned (n : ℕ) : Xv6.pages (n * pgsize) = n := by
  simp only [Xv6.pages, pgsize]
  omega

/-- `allocuvm` on an address space without gaps, where no page table is missed. -/
theorem allocuvm_maps {oldsz newsz : ℕ} (hs : sp.Sound) (hm : Holds all lost m (sp.pages + rest))
    (hmaps : sp.Maps (Xv6.pages oldsz))
    (hr : m.refuses (allocOrder oldsz newsz (keys sp.tables)) ≠ some .table) :
    ∃ sz sp' m', allocuvm oldsz newsz sp m = .ok (sz, sp', m') ∧
    (sz ≠ 0 → sp'.Maps (Xv6.pages sz)) := by
  by_cases hkern : kernbase ≤ newsz
  · exact ⟨0, sp, m, by rw [allocuvm, if_pos hkern], fun h => absurd rfl h⟩
  · by_cases hlt : newsz < oldsz
    · exact ⟨oldsz, sp, m, by rw [allocuvm, if_neg hkern, if_pos hlt], fun _ => hmaps⟩
    · rw [allocOrder, if_neg (not_or.2 ⟨hkern, hlt⟩)] at hr
      have hle := Nat.le_of_not_lt hlt
      obtain ⟨sz, sp', m', he, ⟨rfl, -, -, hgrown⟩ | ⟨rfl, -⟩⟩ :=
        allocuvm_grown hs hm (hmaps.covered hs) hle (Nat.lt_of_not_le hkern)
      · refine ⟨_, sp', m', he, fun _ => ?_⟩
        have hgrow := hgrown.maps (refusals_of_refuses hr) hmaps
        rwa [Nat.add_sub_of_le (pages_mono hle)] at hgrow
      · exact ⟨0, sp', m', he, fun h => absurd rfl h⟩

theorem maps_nil (h : sp.entries = []) : sp.Maps 0 := by
  intro a
  rw [h]
  simp [keys]

variable {sz : ℕ}

theorem loadSegments_maps {gs : List SegmentLoad} (hs : sp.Sound)
    (hm : Holds all lost m (sp.pages + rest)) (hmaps : sp.Maps (Xv6.pages sz))
    (hr : m.refuses (imageOrder gs sz (keys sp.tables)) ≠ some .table) :
    Yields (fun e => e ≠ .remap)
      (fun x => ∀ sz', x.1 = some sz' → x.2.1.Maps (Xv6.pages sz') ∧
        x.2.2.refuses (imageOrder [] sz' (keys x.2.1.tables)) ≠ some .table)
      (loadSegments gs sz sp m) := by
  induction gs generalizing sz sp m with
  | nil =>
    refine .ok ?_
    rintro _ ⟨⟩
    exact ⟨hmaps, hr⟩
  | cons g gs ih =>
    rw [loadSegments]
    rw [imageOrder] at hr
    by_cases hsane : g.sane = true
    swap
    · rw [if_neg hsane]
      exact .ok (by rintro _ ⟨⟩)
    rw [if_pos hsane] at hr ⊢
    obtain ⟨sz1, sp1, m1, he, hmaps1⟩ :=
      allocuvm_maps hs hm hmaps fun hno => hr (refuses_append hno _)
    obtain ⟨hs1, hm1⟩ := allocuvm_holds hs hm he
    rw [he]
    dsimp only
    split_ifs with hzero
    · exact .ok (by rintro _ ⟨⟩)
    have hload := loaduvm_yields g sp1 m1
    rcases hres : loaduvm g sp1 m1 with e | ⟨ok, m2⟩
    · exact .error (hload.2 e hres)
    obtain ⟨hok, mem, hm2⟩ := hload.1 _ hres
    dsimp only at hok hm2
    cases ok with
    | false => exact .ok (by rintro _ ⟨⟩)
    | true =>
      subst hm2
      have hgo : ¬(sz1 = 0 ∨ g.loaded = false) := by simp [hzero, ← hok]
      cases allocuvm_answers he with
      | granted hd _ hnext =>
        obtain ⟨rfl, ht⟩ := hd
        refine ih hs1 (m := { m1 with mem := mem }) (hm1.congr rfl rfl rfl) (hmaps1 hzero) ?_
        rwa [hnext, if_neg hgo, ← ht] at hr
      | out u _ _ hf _ => exact absurd hf hzero
      | leaked hrefuses _ => exact absurd (hrefuses _) hr

theorem userStack_maps (hs : sp.Sound) (hm : Holds all lost m (sp.pages + rest))
    (hmaps : sp.Maps (Xv6.pages sz))
    (hr : m.refuses (imageOrder [] sz (keys sp.tables)) ≠ some .table) :
    Yields (fun e => e ≠ .remap) (fun x => ∀ sz', x.1 = some sz' → x.2.1.Maps (Xv6.pages sz'))
      (userStack sz sp m) := by
  have hmaps' : sp.Maps (Xv6.pages (Xv6.pages sz * pgsize)) := by
    rw [pages_aligned]
    exact hmaps
  rw [imageOrder] at hr
  obtain ⟨sz1, sp1, m1, halloc, hmaps1⟩ := allocuvm_maps hs hm hmaps' hr
  unfold userStack
  rw [halloc]
  dsimp only
  split_ifs with hzero
  · exact .ok (by rintro _ ⟨⟩)
  · split
    · exact .error (by decide)
    · refine .ok ?_
      rintro _ ⟨⟩
      exact hmaps1 hzero

/-- The new image has no gaps, and no page is mapped twice. -/
theorem image_maps {x : ExecFacts} (hm : Holds all lost m rest)
    (hr : m.refuses (kernelOrder (imageOrder x.segments 0 [])) ≠ some .table) :
    Yields (fun e => e ≠ .remap) (fun y => ∀ sz sp, y.1 = some (sz, sp) → sp.Maps (Xv6.pages sz))
      (image x m) := by
  unfold image
  obtain ⟨d, m1, he, ⟨ht, hnil⟩, -, hr1⟩ | ⟨m1, he, -⟩ := setupkvm_cases m
  swap
  · rw [he]
    exact .ok nofun
  have hbuilds := setupkvm_builds hm
  rw [he] at hbuilds ⊢
  obtain ⟨hs1, hm1⟩ := hbuilds
  have htables : keys d.tables = [] := by
    rw [ht]
    rfl
  have hzero : d.Maps (Xv6.pages 0) := maps_nil hnil
  rw [hr1, ← htables] at hr
  have hsegments := loadSegments_maps hs1 hm1 hzero hr
  dsimp only
  split
  · next hload => exact .error (hsegments.2 _ hload)
  · exact .ok nofun
  · next hload =>
    obtain ⟨hs2, hm2⟩ := loadSegments_holds hs1 hm1 hload
    obtain ⟨hmaps, hr2⟩ := hsegments.1 _ hload _ rfl
    have hstack := userStack_maps hs2 hm2 hmaps hr2
    split
    · next hstop => exact .error (hstack.2 _ hstop)
    · exact .ok nofun
    · next hok =>
      split
      · exact .error (by decide)
      · exact .ok nofun
      · refine .ok ?_
        rintro _ _ ⟨⟩
        exact hstack.1 _ hok _ rfl

/-! ## Copies -/

theorem Maps.add (h : sp.Maps n) (he : sp'.entries = (n, k) :: sp.entries) : sp'.Maps (n + 1) := by
  intro a
  rw [he, keys_cons, List.mem_cons, h a]
  omega

/-- What `copyuvm` makes has no gaps. -/
theorem copyLoop_maps {old d d' : AddrSpace} {i : ℕ} (hmaps : d.Maps i)
    (h : copyLoop old n i d m = .ok (some d', m')) : d'.Maps (i + n) := by
  induction n generalizing i d m with
  | zero =>
    cases h
    exact hmaps
  | succ n ih =>
    rw [copyLoop] at h
    split at h
    · cases h
    · cases h
    · split at h
      · cases h
      · split at h
        · cases h
        · next hmap =>
          rw [show i + (n + 1) = i + 1 + n by omega]
          obtain ⟨-, -, -, rfl, rfl⟩ | ⟨_, _, hno, _⟩ | ⟨-, t, -, -, rfl⟩ := mappages_cases hmap
          · exact ih (hmaps.add rfl) h
          · cases hno
          · exact ih (hmaps.add rfl) h
        · cases h

/-- `copyuvm` maps no page twice, and where nothing is missing it finds all pages. -/
theorem copyLoop_error {old d : AddrSpace} {i N : ℕ} {e : PagePanic} (hmaps : d.Maps i)
    (h : copyLoop old n i d m = .error e) : e ≠ .remap ∧ (old.Sound → old.Maps N → N < i + n) := by
  induction n generalizing i d m with
  | zero => cases h
  | succ n ih =>
    rw [copyLoop] at h
    have hnew : i ∉ keys d.entries := fun hmem => absurd ((hmaps i).1 hmem) (lt_irrefl i)
    split at h
    · next hno =>
      cases h
      refine ⟨by decide, fun hs hold => ?_⟩
      by_contra hlt
      exact get_eq_none.1 hno (hs.tabled i ((hold i).2 (by omega)))
    · next hno =>
      cases h
      refine ⟨by decide, fun hs hold => ?_⟩
      by_contra hlt
      exact get_eq_none.1 hno ((hold i).2 (by omega))
    · next frame _ _ =>
      split at h
      · cases h
      · next k m1 hk =>
        obtain ⟨ok1, sp1, m2, hmap⟩ := mappages_ok (k := k) hnew (m1.fill k (m1.mem frame))
        rw [hmap] at h
        rw [show i + (n + 1) = i + 1 + n by omega]
        obtain ⟨-, -, rfl, rfl, rfl⟩ | ⟨_, _, rfl, _⟩ | ⟨-, t, -, rfl, rfl⟩ := mappages_cases hmap
        · exact ih (hmaps.add rfl) h
        · cases h
        · exact ih (hmaps.add rfl) h

theorem copyuvm_maps {old d : AddrSpace} (h : copyuvm old sz m = .ok (some d, m')) :
    d.Maps (Xv6.pages sz) := by
  unfold copyuvm at h
  obtain ⟨d0, m1, he, ⟨-, hnil⟩, -⟩ | ⟨m1, he, -⟩ := setupkvm_cases m
  · rw [he] at h
    have hmaps := copyLoop_maps (maps_nil hnil) h
    rwa [Nat.zero_add] at hmaps
  · rw [he] at h
    cases h

theorem copyuvm_error {old : AddrSpace} {e : PagePanic} (h : copyuvm old sz m = .error e) :
    e ≠ .remap ∧ (old.Sound → ¬old.Maps (Xv6.pages sz)) := by
  unfold copyuvm at h
  obtain ⟨d0, m1, he, ⟨-, hnil⟩, -⟩ | ⟨m1, he, -⟩ := setupkvm_cases m
  · rw [he] at h
    obtain ⟨hne, hfound⟩ := copyLoop_error (maps_nil hnil) h
    refine ⟨hne, fun hs hmaps => ?_⟩
    have := hfound hs hmaps
    omega
  · rw [he] at h
    cases h

end AddrSpace

/-! ## One call -/

namespace PageSys

open AddrSpace

variable {all : Multiset ℕ} {lost : List ℕ} {s s' : PageSys} {p : Fin nproc} {c : PageCall}
  {r : Bool}

/-- Of the address space and the size of every process that is live, `Q` holds. -/
def Spaces (Q : AddrSpace → ℕ → Prop) (s : PageSys) : Prop :=
  ∀ p, (s.proc p).state = .live → Q (s.proc p).space (s.proc p).sz

variable {Q : AddrSpace → ℕ → Prop} {q : Fin nproc}

/-- Only the row of `c` has changed. -/
theorem Spaces.replaced (h : Spaces Q s)
    (hother : ∀ p ≠ q, s'.proc p = s.proc p) (hq : (s'.proc q).state = .live →
      Q (s'.proc q).space (s'.proc q).sz) :
    Spaces Q s' := by
  intro p hp
  by_cases hpq : p = q
  · subst hpq
    exact hq hp
  · rw [hother p hpq] at hp ⊢
    exact h p hp

theorem setProc_of_ne (h : q ≠ p) (s : PageSys) (x : PageProc) :
    (s.setProc p x).proc q = s.proc q :=
  Function.update_of_ne h _ _

variable {n : Word}

theorem sbrk_other (h : s.sbrk p n = .ok (r, s')) (hq : q ≠ p) :
    s'.proc q = s.proc q := by
  simp only [sbrk] at h
  split at h
  · split at h
    · cases h
    · cases h
      exact setProc_of_ne hq _ _
  · split at h
    · cases h
      exact setProc_of_ne hq _ _
    · cases h
      rfl

theorem pipe_proc {addr : Bool} (h : s.pipe p addr = .ok (r, s')) : s'.proc = s.proc := by
  simp only [pipe] at h
  split at h
  · cases h
  · split at h
    · split at h
      · cases h
        rfl
      · cases h
        rfl
    · cases h
      rfl

theorem close_proc {fd : Int} (h : s.close p fd = .ok (r, s')) : s'.proc = s.proc := by
  unfold close at h
  split at h
  · cases h
  · cases h
    rfl

theorem fork_error {e : PagePanic} (h : s.fork p = .error (.panic e)) :
    ∃ m, (s.proc p).space.copyuvm (s.proc p).sz m = .error e := by
  unfold fork at h
  split at h
  · cases h
  · split at h
    · cases h
    · split at h
      · next hcopy =>
        cases h
        exact ⟨_, hcopy⟩
      · cases h
      · split at h <;> cases h

/-- No process becomes live by `exit`, and no address space changes. -/
theorem exit_live (h : s.exit p = .ok (r, s')) (hq : (s'.proc q).state = .live) :
    (s.proc q).state = .live ∧ (s'.proc q).space = (s.proc q).space ∧
    (s'.proc q).sz = (s.proc q).sz := by
  unfold exit at h
  split at h
  · cases h
  · split at h
    · cases h
    · cases h
      by_cases hqp : q = p
      · subst hqp
        rw [setProc_proc] at hq
        cases hq
      · rw [setProc_of_ne hqp] at hq ⊢
        simp only [abandon] at hq ⊢
        split at hq
        · next hparent =>
          rw [if_pos hparent]
          exact ⟨hq, rfl, rfl⟩
        · next hparent =>
          rw [if_neg hparent]
          exact ⟨hq, rfl, rfl⟩

/-- A call keeps what holds of all address spaces without gaps and is kept by `sbrk`. -/
theorem call_spaces (hQ : ∀ sp sz, sp.Sound → sp.Maps (pages sz) → Q sp sz)
    (hinv : Inv all lost s) (hall : Spaces Q s)
    (hexec : ∀ x fail, c = .exec x fail → s.refused p c ≠ some .table)
    (hsbrk : (s.proc p).state = .live → ∀ n fail, c = .sbrk n fail → ∀ r s',
      (s.enter fail).sbrk p n = .ok (r, s') → Q (s'.proc p).space (s'.proc p).sz)
    (hc : s.call p c = .ok (r, s')) : Spaces Q s' := by
  have hinv' := call_inv hinv hc
  unfold call at hc
  split at hc
  · next hp =>
    cases c with
    | fork fail =>
      simp only [fork] at hc
      split at hc
      · cases hc
        exact hall
      · next c _ =>
        split at hc
        · cases hc
          exact hall
        · split at hc
          · cases hc
          · cases hc
            exact hall
          · next d m hcopy =>
            split at hc
            · cases hc
            · cases hc
              refine hall.replaced (q := c) (fun q hq => setProc_of_ne hq _ _) fun _ => ?_
              have hsound := hinv'.sound c (by rw [setProc_proc]; exact nofun)
              rw [setProc_proc] at hsound ⊢
              exact hQ _ _ hsound (copyuvm_maps hcopy)
    | exec x fail =>
      have hr := hexec x fail rfl
      simp only [exec] at hc
      split at hc
      · next hrun =>
        simp only [PageSys.refused, order, if_pos hrun] at hr
        split at hc
        · cases hc
        · cases hc
          exact hall
        · next sz sp m himage =>
          cases hc
          refine hall.replaced (q := p) (fun q hq => setProc_of_ne hq _ _) fun hlive => ?_
          have hsound := hinv'.sound p (by rw [hlive]; decide)
          rw [setProc_proc] at hsound ⊢
          exact hQ _ _ hsound ((image_maps (hinv.enter fail).holds hr).1 _ himage _ _ rfl)
      · cases hc
        exact hall
    | sbrk n fail =>
      have hq := hsbrk hp n fail rfl r s' hc
      exact hall.replaced (q := p) (fun q hne => sbrk_other (s := s.enter fail) hc hne) fun _ => hq
    | pipe addr fail =>
      intro q hq
      rw [pipe_proc hc] at hq ⊢
      exact hall q hq
    | close fd =>
      intro q hq
      rw [close_proc hc] at hq ⊢
      exact hall q hq
    | exit =>
      intro q hq
      obtain ⟨hlive, hspace, hsz⟩ := exit_live hc hq
      rw [hspace, hsz]
      exact hall q hlive
    | wait =>
      simp only [wait] at hc
      split at hc
      · cases hc
        exact hall
      · next c _ =>
        cases hc
        refine hall.replaced (q := c) (fun q hq => setProc_of_ne hq _ _) fun hlive => ?_
        rw [setProc_proc] at hlive
        cases hlive
  · cases hc

/-! ## All runs -/

/-- No page table is missed: in `exec` the first request that finds no memory is not one for a page
    table, and in `sbrk` there is memory for all page tables or not for all pages. -/
def TablesOk (a : Fin nproc × PageCall) (s : PageSys) : Prop :=
  match a.2 with
  | .exec _ _ => s.refused a.1 a.2 ≠ some .table
  | .sbrk n fail => s.GrowOk a.1 n fail
  | _ => True

variable {fail : ℕ → Bool}

section

variable (hinv : Inv all lost s)

include hinv

section

variable (hused : (s.proc p).state ≠ .unused)
  (hcov : (s.proc p).space.Covered (pages (s.proc p).sz))

include hused hcov

theorem sbrk_covered_grow (hok : s.GrowOk p n fail) (hpos : 0 < n.toInt) :
    ∃ r s', (s.enter fail).sbrk p n = .ok (r, s') ∧
    (s'.proc p).space.Covered (pages (s'.proc p).sz) := by
  have hs := hinv.sound p hused
  obtain ⟨rest, hm⟩ := (hinv.enter fail).space_holds hused
  obtain ⟨-, hnew⟩ | ⟨hneg, -⟩ := newsz_cases (hinv.size p hused) n
  · by_cases hkern : kernbase ≤ (BitVec.ofNat 32 (s.proc p).sz + n).toNat
    · have he : (s.proc p).space.allocuvm (s.proc p).sz (BitVec.ofNat 32 (s.proc p).sz + n).toNat
          (s.enter fail).mem = .ok (0, (s.proc p).space, (s.enter fail).mem) := by
        rw [allocuvm, if_pos hkern]
      refine ⟨_, _, sbrk_alloc hpos he, ?_⟩
      rw [setProc_proc]
      exact hcov
    · have hle : (s.proc p).sz ≤ (BitVec.ofNat 32 (s.proc p).sz + n).toNat := by omega
      have hmono := pages_mono hle
      obtain ⟨sz, sp', m', he, ⟨rfl, hpage, -, hgrown⟩ | ⟨rfl, -, hsame, htables⟩⟩ :=
        allocuvm_grown hs hm hcov hle (Nat.lt_of_not_le hkern)
      · have hne : (BitVec.ofNat 32 (s.proc p).sz + n).toNat ≠ 0 := by omega
        have htable : .table ∉ s.sbrkRefusals p n fail := fun h => hpage (hok hpos (by omega) h)
        refine ⟨_, _, sbrk_alloc hpos he, ?_⟩
        rw [setProc_proc, if_neg hne]
        constructor
        · intro e hlt
          by_cases hold : e < pages (s.proc p).sz
          · exact hgrown.tables _ (hcov.tables e hold)
          · refine (allocuvm_holds hs hm he).1.tabled e (hgrown.full htable rfl e (by omega) ?_)
            rwa [Nat.add_sub_of_le hmono]
        · intro e hmem
          have := hgrown.below e hmem
          rwa [Nat.add_sub_of_le hmono] at this
      · refine ⟨_, _, sbrk_alloc hpos he, ?_⟩
        rw [setProc_proc]
        refine ⟨fun e hlt => htables _ (hcov.tables e hlt), fun e hmem => hcov.below e ?_⟩
        rwa [← get_isSome, ← hsame e, get_isSome]
  · omega

theorem sbrk_covered_shrink (hneg : n.toInt < 0) :
    ∃ r s', (s.enter fail).sbrk p n = .ok (r, s') ∧
    (s'.proc p).space.Covered (pages (s'.proc p).sz) := by
  have hs := hinv.sound p hused
  obtain ⟨-, hnew⟩ | ⟨-, hge⟩ := newsz_cases (hinv.size p hused) n
  · generalize hN : (BitVec.ofNat 32 (s.proc p).sz + n).toNat = N at hnew
    have hlt : N < (s.proc p).sz := by omega
    have hget := deallocuvm_covered hs hcov hlt (s.enter fail).mem
    have htables := deallocuvm_tables (s.proc p).sz N (s.proc p).space (s.enter fail).mem
    have hshrunk : ∀ k, pages N ≤ k → k ≤ pages (s.proc p).sz →
        ((s.proc p).space.deallocuvm (s.proc p).sz N (s.enter fail).mem).1.Covered k := by
      intro k hlo hhi
      constructor
      · intro e he
        rw [htables]
        exact hcov.tables e (by omega)
      · intro e he
        rw [← get_isSome, hget e] at he
        split at he
        · omega
        · cases he
    refine ⟨_, _, sbrk_dealloc (s := s.enter fail) hneg hN (if_neg (Nat.not_le.2 hlt)), ?_⟩
    rw [setProc_proc]
    refine hshrunk _ (pages_mono ?_) (pages_mono ?_)
    · dsimp only
      split <;> omega
    · dsimp only
      split
      · exact le_rfl
      · exact hlt.le
  · generalize hN : (BitVec.ofNat 32 (s.proc p).sz + n).toNat = N at hge
    have hsize : (if (s.proc p).sz ≤ N then (s.proc p).sz else N) = (s.proc p).sz := if_pos hge
    have hsame : ((s.proc p).space.deallocuvm (s.proc p).sz N (s.enter fail).mem).1 =
        (s.proc p).space :=
      congrArg Prod.fst (if_pos hge)
    refine ⟨_, _, sbrk_dealloc (s := s.enter fail) hneg hN hsize, ?_⟩
    have hrow : (s.enter fail).proc p = s.proc p := rfl
    rw [setProc_proc]
    dsimp only
    rw [hrow, ite_self, hsame]
    exact hcov

/-- As long as no page table is missed, `sbrk` returns, and leaves no page above the size. -/
theorem sbrk_covered (hok : s.GrowOk p n fail) :
    ∃ r s', (s.enter fail).sbrk p n = .ok (r, s') ∧
    (s'.proc p).space.Covered (pages (s'.proc p).sz) := by
  by_cases hpos : 0 < n.toInt
  · exact sbrk_covered_grow hinv hused hcov hok hpos
  · by_cases hneg : n.toInt < 0
    · exact sbrk_covered_shrink hinv hused hcov hneg
    · exact ⟨true, s.enter fail, by simp only [sbrk, if_neg hpos, if_neg hneg], hcov⟩

end

/-- Where no page table is missed, no call maps a page twice. -/
theorem step_remap (hcov : Spaces (fun sp sz => sp.Covered (pages sz)) s)
    {a : Fin nproc × PageCall} (hok : TablesOk a s) : s.step a ≠ .error (.panic .remap) := by
  obtain ⟨p, c⟩ := a
  intro hstep
  have hcall : s.call p c = .error (.panic .remap) := by
    unfold step at hstep
    cases h : s.call p c with
    | ok x =>
      rw [h] at hstep
      cases hstep
    | error e =>
      rw [h] at hstep
      cases hstep
      rfl
  unfold call at hcall
  split at hcall
  · next hp =>
    cases c with
    | fork fail =>
      obtain ⟨m, hcopy⟩ := fork_error hcall
      exact (copyuvm_error hcopy).1 rfl
    | exec x fail =>
      have hr : s.refused p (.exec x fail) ≠ some .table := hok
      simp only [exec] at hcall
      split at hcall
      · next hrun =>
        simp only [PageSys.refused, order, if_pos hrun] at hr
        split at hcall
        · next himage =>
          cases hcall
          exact (image_maps (hinv.enter fail).holds hr).2 _ himage rfl
        · cases hcall
        · cases hcall
      · cases hcall
    | sbrk n fail =>
      obtain ⟨r, s', he, -⟩ := sbrk_covered hinv (by rw [hp]; decide) (hcov p hp) hok
      have hsbrk : (s.enter fail).sbrk p n = .error (.panic .remap) := hcall
      rw [he] at hsbrk
      cases hsbrk
    | pipe addr fail =>
      simp only [pipe] at hcall
      split at hcall
      · cases hcall
      · split at hcall
        · split at hcall <;> cases hcall
        · cases hcall
    | close fd =>
      simp only [close] at hcall
      split at hcall <;> cases hcall
    | exit =>
      simp only [exit] at hcall
      split at hcall
      · cases hcall
      · split at hcall <;> cases hcall
    | wait =>
      simp only [wait] at hcall
      split at hcall <;> cases hcall
  · cases hcall

end

theorem full_init (rest : List ℕ) : Spaces (fun sp sz => sp.Maps (pages sz)) (init rest) := by
  intro p hp
  by_cases hinit : p = initproc
  · subst hinit
    intro a
    have hkeys : a ∈ keys ((init rest).proc initproc).space.entries ↔ a ∈ [0] := Iff.rfl
    have hsz : ((init rest).proc initproc).sz = pgsize := rfl
    rw [hkeys, hsz, show pages pgsize = 1 from rfl]
    simp
  · simp [init, hinit] at hp

variable {rest : List ℕ}

/-- What holds of all address spaces without gaps and is kept by `sbrk` holds in every run in which
    `exec` misses no page table. -/
theorem spaces_reachable (hQ : ∀ sp sz, sp.Sound → sp.Maps (pages sz) → Q sp sz)
    {ok : Fin nproc × PageCall → PageSys → Prop}
    (hexec : ∀ p x fail s, ok (p, .exec x fail) s → s.refused p (.exec x fail) ≠ some .table)
    (hrest : (allPages rest).Nodup)
    (hsbrk : ∀ p n fail s, Inv (allPages rest) [] s → Spaces Q s → (s.proc p).state = .live →
      ok (p, .sbrk n fail) s → ∃ r s', (s.enter fail).sbrk p n = .ok (r, s') ∧
      Q (s'.proc p).space (s'.proc p).sz)
    (h : Reachable step (· = init rest) ok s) : Spaces Q s := by
  suffices hboth : Inv (allPages rest) [] s ∧ Spaces Q s from hboth.2
  refine h.invariant (P := fun s => Inv (allPages rest) [] s ∧ Spaces Q s) ?_ ?_
  · rintro _ rfl
    have hinv := inv_init hrest
    exact ⟨hinv, fun p hp => hQ _ _ (hinv.sound p (by rw [hp]; decide)) (full_init rest p hp)⟩
  · rintro ⟨p, c⟩ s s' ⟨hinv, hall⟩ hok hstep
    obtain ⟨r, hcall⟩ := step_call hstep
    refine ⟨call_inv hinv hcall, call_spaces hQ hinv hall ?_ ?_ hcall⟩
    · rintro x fail rfl
      exact hexec p x fail s hok
    · rintro hp n fail rfl r s1 he
      obtain ⟨r', s2, he', hq⟩ := hsbrk p n fail s hinv hall hp hok
      rw [he'] at he
      cases he
      exact hq

theorem covered_reachable (hrest : (allPages rest).Nodup)
    (h : Reachable step (· = init rest) TablesOk s) :
    Spaces (fun sp sz => sp.Covered (pages sz)) s := by
  refine spaces_reachable (fun _ _ hs hmaps => hmaps.covered hs) (fun _ _ _ _ hok => hok) hrest ?_ h
  intro p n fail s hinv hcov hp hok
  exact sbrk_covered hinv (by rw [hp]; decide) (hcov p hp) hok

/-- No page has two owners, in any run: it is on the free list once, or belongs to one process or
    one open pipe, for one thing. `kalloc` has returned no page that was in use, and no page has
    been freed twice. And in a run in which no page table is missed, `mappages` never finds a page
    mapped already. -/
theorem pages_owned_once (hrest : (allPages rest).Nodup) :
    (∀ s, Reachable step (· = init rest) (fun _ _ => True) s →
      ((s.mem.freelist : Multiset ℕ) + s.owners).Nodup ∧ Proper s.mem.history) ∧
    ∀ s, Reachable step (· = init rest) TablesOk s →
      ∀ a, TablesOk a s → s.step a ≠ .error (.panic .remap) := by
  refine ⟨fun s h => ?_, fun s h a hok => ?_⟩
  · have hinv := inv_reachable hrest h
    refine ⟨Multiset.nodup_iff_count_le_one.2 fun k => ?_, hinv.holds.proper⟩
    have hcount := hinv.holds.count_le k
    rw [Multiset.count_add, Multiset.coe_count]
    omega
  · exact step_remap (inv_reachable hrest h) (covered_reachable hrest h) hok

/-- A process that has forked. -/
theorem pages_owned_once_fork :
    ∃ s, Reachable step (· = init (List.range' 68 70)) TablesOk s ∧ (s.proc 1).state = .live ∧
      ((s.mem.freelist : Multiset ℕ) + s.owners).Nodup ∧ Proper s.mem.history ∧
      s.step (1, .wait) ≠ .error (.panic .remap) := by
  obtain ⟨s, hexec, hlive⟩ := execOk_any step (fun a _ => a.2 matches .fork _)
    [(initproc, .fork fun _ => false)] (init (List.range' 68 70))
      (fun s => (s.proc 1).state = .live)
    (by decide +kernel)
  have hreach : Reachable step (· = init (List.range' 68 70)) TablesOk s := by
    refine Reachable.execOk ?_ _ _ s (.init rfl) hexec
    rintro ⟨p, c⟩ s hc
    cases c with
    | fork fail => trivial
    | _ => cases hc
  have hnodup : (allPages (List.range' 68 70)).Nodup := (List.nodup_range : (List.range 138).Nodup)
  obtain ⟨honce, hremap⟩ := pages_owned_once hnodup
  obtain ⟨hown, hproper⟩ := honce s (hreach.mono fun _ _ _ => trivial)
  exact ⟨s, hreach, hlive, hown, hproper, hremap s hreach _ trivial⟩

/-- A segment of 1024 pages of which the file has no bytes. -/
def segmentOfTable : ExecFacts where
  runnable := true
  segments := [{ read := true, vaddr := 0, filesz := 0, memsz := 4194304, data := [] }]
  pushed := some true

/-- There is no memory for its page table, at each of its pages. -/
def tableRefused (i : ℕ) : Bool := 66 ≤ i && i ≤ 2112 && i % 2 == 0

/-- The pages of a big segment are lost one after the other as there is no memory for their page
    table. When the process shrinks into the segment, `deallocuvm` finds no page table at page 1023
    and goes past its stack, and when it grows again the stack is still there. -/
theorem remap_reached :
    ∃ s, Reachable step (· = init (List.range' 68 1098)) (fun _ _ => True) s ∧
      s.step (initproc, .sbrk 8192 fun _ => false) = .error (.panic .remap) := by
  obtain ⟨s, hreach, hstop⟩ := reachable_any step (· = init (List.range' 68 1098))
    (fun _ _ => True)
    [(initproc, .exec segmentOfTable tableRefused), (initproc, .sbrk (-12288) fun _ => false)] rfl
    (fun s => stop (s.step (initproc, .sbrk 8192 fun _ => false)) = some (.panic .remap))
    (by decide +kernel)
  exact ⟨s, hreach, eq_error_of_stop hstop⟩

/-- Steps in which `sbrk` does exactly what it is asked for, and `exec` misses no page table. -/
def SizesOk (a : Fin nproc × PageCall) (s : PageSys) : Prop :=
  match a.2 with
  | .exec _ _ => s.refused a.1 a.2 ≠ some .table
  | .sbrk n fail => s.SbrkOk a.1 n fail
  | _ => True

theorem GrowsExactly.full (h : GrowsExactly p n s (r, s')) (hfull : s.Full p) : s'.Full p := by
  cases r with
  | true => exact h.2.2.1
  | false =>
    intro a
    rw [h.1, ← get_isSome, h.2 a, get_isSome]
    exact hfull a

theorem full_reachable (hrest : (allPages rest).Nodup)
    (h : Reachable step (· = init rest) SizesOk s) :
    Spaces (fun sp sz => sp.Maps (pages sz)) s := by
  refine spaces_reachable (fun _ _ _ hmaps => hmaps) (fun _ _ _ _ hok => hok) hrest ?_ h
  intro p n fail s hinv hfull hp hok
  obtain ⟨⟨r, s'⟩, he, hexact⟩ := sbrk_exact hinv (by rw [hp]; decide) (hfull p hp)
  exact ⟨r, s', he, GrowsExactly.full (hexact.2 hok) (hfull p hp)⟩

/-- `sbrk` does exactly what it is asked for, or nothing, unless the process gives back all its
    memory, or more than it has, or there is no memory for a page table. In runs without such steps
    all pages of every process are there, and `copyuvm` never misses one. -/
theorem sbrk_changes_exactly (hrest : (allPages rest).Nodup) :
    (∀ s, Reachable step (· = init rest) (fun _ _ => True) s →
      ∀ p n fail, (s.proc p).state = .live → s.Full p →
        ∃ r, s.call p (.sbrk n fail) = .ok r ∧ (GrowsExactly p n s r ↔ s.SbrkOk p n fail)) ∧
    ∀ s, Reachable step (· = init rest) SizesOk s →
      (∀ p, (s.proc p).state = .live → s.Full p) ∧
        ∀ p fail, s.call p (.fork fail) ≠ .error (.panic .copyuvmExist) ∧
          s.call p (.fork fail) ≠ .error (.panic .copyuvmPresent) := by
  refine ⟨fun s h p n fail hp hfull => ?_, fun s h => ⟨full_reachable hrest h, fun p fail => ?_⟩⟩
  · obtain ⟨r, he, hiff⟩ := sbrk_exact (inv_reachable hrest h) (by rw [hp]; decide) hfull
    exact ⟨r, (if_pos hp).trans he, hiff⟩
  · have herror : ∀ e, s.call p (.fork fail) = .error (.panic e) → False := by
      intro e hcall
      unfold call at hcall
      split at hcall
      · next hp =>
        have hs := (inv_reachable hrest h).sound p (by rw [hp]; decide)
        obtain ⟨m, hcopy⟩ := fork_error hcall
        exact (copyuvm_error hcopy).2 hs (full_reachable hrest h p hp)
      · cases hcall
    exact ⟨fun hcall => herror _ hcall, fun hcall => herror _ hcall⟩

/-- The first process grows by a page and forks. -/
theorem sbrk_changes_exactly_page :
    ∃ s r, Reachable step (· = init (List.range' 68 70)) SizesOk s ∧ s.Full initproc ∧
      s.call initproc (.sbrk 4096 fun _ => false) = .ok r ∧ GrowsExactly initproc 4096 s r := by
  have hnodup : (allPages (List.range' 68 70)).Nodup := (List.nodup_range : (List.range 138).Nodup)
  obtain ⟨hexact, hruns⟩ := sbrk_changes_exactly hnodup
  have hfull := (hruns _ (.init rfl)).1 initproc rfl
  obtain ⟨r, hcall, hiff⟩ := hexact _ (.init rfl) initproc 4096 (fun _ => false) rfl hfull
  refine ⟨_, r, .init rfl, hfull, hcall,
    hiff.2 ⟨fun h => absurd h (by decide), fun _ _ htable => ?_⟩⟩
  exact absurd htable (by decide)

/-- The first process gives back all its memory: it is told that it has failed, but its page is
    gone, and when it forks then `copyuvm` panics. -/
theorem sbrk_all_frees_page :
    ∃ s, (init (List.range' 68 70)).call initproc (.sbrk (-4096) fun _ => false) = .ok (false, s) ∧
      ¬GrowsExactly initproc (-4096) (init (List.range' 68 70)) (false, s) ∧
      s.call initproc (.fork fun _ => false) = .error (.panic .copyuvmPresent) := by
  obtain ⟨⟨_, s⟩, hcall, rfl, hentries, hfork⟩ := Stoppable.exists_ok
    (x := (init (List.range' 68 70)).call initproc (.sbrk (-4096) fun _ => false))
    (fun a => a.1 = false ∧ get 0 (a.2.proc initproc).space.entries = none ∧
      Stoppable.stop (a.2.call initproc (.fork fun _ => false)) =
        some (.panic .copyuvmPresent)) (by decide +kernel)
  refine ⟨s, hcall, fun hexact => ?_, ?_⟩
  · have := hexact.2 0
    rw [hentries] at this
    cases this
  · exact Stoppable.eq_error_of_stop hfork

end PageSys

end Xv6
