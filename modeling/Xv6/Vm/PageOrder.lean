import Xv6.Vm.PageInv

set_option autoImplicit false

/-! # Running out of memory

The requests for pages that a call makes are known before the call (`PageSys.order`): they depend on
the size of the process, on the page tables it has and on what `exec` reads. The first request that
finds no memory decides what is lost. Where it is one for the kernel stack, for a directory or for a
user page, the call gives back all that it has taken. Where it is one for a page table, nothing is
given back of what the page table was needed for: `setupkvm` returns without freeing the directory
and the page tables it has, `copyuvm` does not free the page it was about to map, and `allocuvm`
does not even notice. -/

namespace Xv6

open Assoc PageMem

/-- What a page is requested for. -/
inductive PageUse
  | kstack
  | dir
  | table
  | page
  deriving DecidableEq, Repr

/-! ## The order of the requests -/

namespace PageUse

/-- The requests for `n` user pages from page `a` on, where `ts` are the page tables there are. -/
def userOrder : ℕ → ℕ → List ℕ → List PageUse
  | 0, _, _ => []
  | n + 1, a, ts =>
    if a / nptentries ∈ ts then .page :: userOrder n (a + 1) ts
    else .page :: .table :: userOrder n (a + 1) (a / nptentries :: ts)

/-- The page tables there are then. -/
def userTables : ℕ → ℕ → List ℕ → List ℕ
  | 0, _, ts => ts
  | n + 1, a, ts => userTables n (a + 1) (if a / nptentries ∈ ts then ts else a / nptentries :: ts)

/-- `allocuvm`. -/
def allocOrder (oldsz newsz : ℕ) (ts : List ℕ) : List PageUse :=
  if kernbase ≤ newsz ∨ newsz < oldsz then []
    else userOrder (pages newsz - pages oldsz) (pages oldsz) ts

def allocTables (oldsz newsz : ℕ) (ts : List ℕ) : List ℕ :=
  if kernbase ≤ newsz ∨ newsz < oldsz then ts
    else userTables (pages newsz - pages oldsz) (pages oldsz) ts

/-- What `allocuvm` returns where there is memory. -/
def allocSize (oldsz newsz : ℕ) : ℕ :=
  if kernbase ≤ newsz then 0 else if newsz < oldsz then oldsz else newsz

/-- The segments from size `sz` on, and the stack. -/
def imageOrder : List SegmentLoad → ℕ → List ℕ → List PageUse
  | [], sz, ts => allocOrder (pages sz * pgsize) (pages sz * pgsize + 2 * pgsize) ts
  | g :: gs, sz, ts =>
    if g.sane then
      allocOrder sz g.top.toNat ts ++
        if allocSize sz g.top.toNat = 0 ∨ g.loaded = false then []
        else imageOrder gs (allocSize sz g.top.toNat) (allocTables sz g.top.toNat ts)
    else []

/-- `setupkvm`, before the requests `us`. -/
def kernelOrder (us : List PageUse) : List PageUse :=
  .dir :: (List.replicate AddrSpace.kernelCount .table ++ us)

/-- What the first request is for that finds no memory, where call `i` of `kalloc` is the next one
    and `free` pages are left. -/
def refused (fail : ℕ → Bool) : ℕ → ℕ → List PageUse → Option PageUse
  | _, _, [] => none
  | i, free, u :: us => if fail i ∨ free = 0 then some u else refused fail (i + 1) (free - 1) us

end PageUse

open PageUse

/-- The requests of a call. -/
def PageSys.order (p : Fin nproc) (c : PageCall) (s : PageSys) : List PageUse :=
  match c with
  | .fork _ =>
    match s.freeSlot with
    | none => []
    | some _ => .kstack :: kernelOrder (userOrder (pages (s.proc p).sz) 0 [])
  | .exec x _ => if x.runnable then kernelOrder (imageOrder x.segments 0 []) else []
  | .sbrk n _ =>
    if 0 < n.toInt then
      allocOrder (s.proc p).sz (BitVec.ofNat 32 (s.proc p).sz + n).toNat
        (keys (s.proc p).space.tables)
    else []
  | _ => []

/-- Which calls of `kalloc` fail in a call. -/
def PageCall.fail : PageCall → ℕ → Bool
  | .fork fail => fail
  | .exec _ fail => fail
  | .sbrk _ fail => fail
  | .pipe _ fail => fail
  | _ => fun _ => false

/-- The first request of the call that finds no memory. -/
def PageSys.refused (p : Fin nproc) (c : PageCall) (s : PageSys) : Option PageUse :=
  PageUse.refused c.fail 0 s.mem.freelist.length (s.order p c)

/-! ## What is lost -/

namespace PageMem

variable {m m' m'' : PageMem} {k : ℕ} {u : PageUse} {us o o' : List PageUse} {D F D' F' : Prop}

def refuses (m : PageMem) (us : List PageUse) : Option PageUse :=
  refused m.fail m.calls m.freelist.length us

theorem denied_of_none (h : m.kalloc = (none, m')) :
    m.fail m.calls = true ∨ m.freelist.length = 0 := by
  unfold kalloc at h
  split at h
  · cases h
  · next hne =>
    by_contra hno
    obtain ⟨hfail, hfree⟩ := not_or.1 hno
    obtain ⟨j, rest, hcons⟩ := List.exists_cons_of_length_pos (Nat.pos_of_ne_zero hfree)
    exact hne j rest (Bool.eq_false_iff.2 hfail) hcons

/-- A call of `kalloc` in `m` finds memory; the next one is made in `m'`. -/
structure Grants (m m' : PageMem) : Prop where
  granted : ¬(m.fail m.calls = true ∨ m.freelist.length = 0)
  fail : m'.fail = m.fail
  calls : m'.calls = m.calls + 1
  free : m'.freelist.length = m.freelist.length - 1
  lost : m'.lost = m.lost

theorem grants_of_some (h : m.kalloc = (some k, m')) : Grants m m' := by
  unfold kalloc at h
  split at h
  · next hfail hfree =>
    cases h
    exact ⟨by simp [hfail, hfree], rfl, rfl, by simp [hfree], rfl⟩
  · cases h

theorem Grants.fill (h : Grants m m') (k : ℕ) (bytes : ℕ → Byte) : Grants m (m'.fill k bytes) :=
  ⟨h.granted, h.fail, h.calls, h.free, h.lost⟩

theorem refuses_none (h : m.kalloc = (none, m')) : m.refuses (u :: us) = some u :=
  if_pos (denied_of_none h)

theorem Grants.refuses (h : Grants m m') : m.refuses (u :: us) = m'.refuses us := by
  rw [PageMem.refuses, refused, if_neg h.granted, PageMem.refuses, h.fail, h.calls, h.free]

/-- What a function does whose requests are `o`: they are granted and `D` holds, or one of them is
    refused and it gives up with `F`, or it has lost something. -/
inductive Answers (o : List PageUse) (m m' : PageMem) (D F : Prop) : Prop
  | granted : D → m'.lost = m.lost → (∀ us, m.refuses (o ++ us) = m'.refuses us) →
  Answers o m m' D F
  | out (u : PageUse) : u ≠ .table → (∀ us, m.refuses (o ++ us) = some u) → F → m'.lost = m.lost →
      Answers o m m' D F
  | leaked : (∀ us, m.refuses (o ++ us) = some .table) → m.lost.length < m'.lost.length →
      Answers o m m' D F

namespace Answers

theorem lost_le (h : Answers o m m' D F) : m.lost.length ≤ m'.lost.length := by
  cases h with
  | granted _ hlost _ => rw [hlost]
  | out u _ _ _ hlost => rw [hlost]
  | leaked _ hlost => exact hlost.le

theorem mono (h : Answers o m m' D F) (hD : D → D') (hF : F → F') : Answers o m m' D' F' := by
  cases h with
  | granted hd hlost hnext => exact .granted (hD hd) hlost hnext
  | out u hu hrefuses hf hlost => exact .out u hu hrefuses (hF hf) hlost
  | leaked hrefuses hlost => exact .leaked hrefuses hlost

/-- One more request, which is granted, before the others. -/
theorem cons (h : Answers o m' m'' D F) (hg : Grants m m') : Answers (u :: o) m m'' D F := by
  cases h with
  | granted hd hlost hnext =>
    exact .granted hd (hlost.trans hg.lost) fun us => hg.refuses.trans (hnext us)
  | out v hv hrefuses hf hlost =>
    exact .out v hv (fun us => hg.refuses.trans (hrefuses us)) hf (hlost.trans hg.lost)
  | leaked hrefuses hlost =>
    exact .leaked (fun us => hg.refuses.trans (hrefuses us)) (hg.lost ▸ hlost)

end Answers

end PageMem

namespace AddrSpace

variable {m m' : PageMem} {sp sp' : AddrSpace} {a k n : ℕ}

theorem allocLoop_answers {ok : Bool} (h : allocLoop n a sp m = .ok (ok, sp', m')) :
    Answers (userOrder n a (keys sp.tables)) m m'
      (ok = true ∧ keys sp'.tables = userTables n a (keys sp.tables)) (ok = false) := by
  induction n generalizing a sp m with
  | zero =>
    cases h
    exact .granted ⟨rfl, rfl⟩ rfl fun _ => rfl
  | succ n ih =>
    rw [allocLoop] at h
    rw [userOrder, userTables]
    split at h
    · next hk =>
      cases h
      refine .out .page (by decide) (fun us => ?_) rfl ?_
      · split
        · exact refuses_none hk
        · exact refuses_none hk
      · rw [kalloc_none hk]
    · next k m1 hk =>
      have hpage := (grants_of_some hk).fill k fun _ => 0
      split at h
      · cases h
      · next hmap =>
        obtain ⟨ht, -, rfl, rfl, rfl⟩ | ⟨ht, hk', rfl, rfl⟩ | ⟨ht, t, hk', rfl, rfl⟩ :=
          mappages_cases hmap
        · rw [if_pos ht, if_pos ht]
          exact (ih h).cons hpage
        · -- The page is lost, and stays so whatever the loop does then.
          rw [if_neg ht, if_neg ht]
          refine .leaked (fun us => hpage.refuses.trans (refuses_none hk')) ?_
          have hle := (ih h).lost_le
          rw [if_neg (by decide), lose, kalloc_none hk'] at hle
          simp only [List.length_append, List.length_singleton, hpage.lost] at hle
          omega
        · rw [if_neg ht, if_neg ht]
          exact ((ih h).cons (grants_of_some hk')).cons hpage

theorem deallocuvm_lost (oldsz newsz : ℕ) (sp : AddrSpace) (m : PageMem) :
    (deallocuvm oldsz newsz sp m).2.lost = m.lost :=
  deallocuvm_rec (R := fun _ m' => m'.lost = m.lost) (fun h _ => h) oldsz newsz rfl

theorem kfreeAll_lost (ks : List ℕ) (m : PageMem) : (m.kfreeAll ks).lost = m.lost :=
  kfreeAll_rec (Q := fun m' => m'.lost = m.lost) (fun h => h) ks rfl

theorem freevm_lost (sp : AddrSpace) (m : PageMem) : (sp.freevm m).lost = m.lost :=
  freevm_rec (Q := fun m' => m'.lost = m.lost) (fun h => h) rfl

theorem allocuvm_answers {oldsz newsz sz : ℕ} (h : allocuvm oldsz newsz sp m = .ok (sz, sp', m')) :
    Answers (allocOrder oldsz newsz (keys sp.tables)) m m'
      (sz = allocSize oldsz newsz ∧ keys sp'.tables = allocTables oldsz newsz (keys sp.tables))
      (sz = 0) := by
  unfold allocuvm at h
  rw [allocOrder, allocTables, allocSize]
  split at h
  · next hle =>
    cases h
    have hboth : kernbase ≤ newsz ∨ newsz < oldsz := .inl hle
    rw [if_pos hboth, if_pos hboth, if_pos hle]
    exact .granted ⟨rfl, rfl⟩ rfl fun _ => rfl
  · next hle =>
    rw [if_neg hle]
    split at h
    · next hlt =>
      cases h
      have hboth : kernbase ≤ newsz ∨ newsz < oldsz := .inr hlt
      rw [if_pos hboth, if_pos hboth, if_pos hlt]
      exact .granted ⟨rfl, rfl⟩ rfl fun _ => rfl
    · next hlt =>
      have hboth : ¬(kernbase ≤ newsz ∨ newsz < oldsz) := not_or.2 ⟨hle, hlt⟩
      rw [if_neg hboth, if_neg hboth, if_neg hlt]
      split at h
      · cases h
      · next hloop =>
        cases h
        exact (allocLoop_answers hloop).mono (fun hd => ⟨rfl, hd.2⟩) fun hf => absurd hf (by decide)
      · next sp1 m1 hloop =>
        have hlost := deallocuvm_lost newsz oldsz sp1 m1
        generalize deallocuvm newsz oldsz sp1 m1 = r at h hlost
        obtain ⟨sp2, m2⟩ := r
        cases h
        cases allocLoop_answers hloop with
        | granted hd _ _ => exact absurd hd.1 (by decide)
        | out u hu hrefuses _ hsame => exact .out u hu hrefuses rfl (hlost.trans hsame)
        | leaked hrefuses hless => exact .leaked hrefuses (by rwa [hlost])

/-- The page tables of the kernel: there are all of them, or the directory is lost. -/
theorem kernelTables_cases (n : ℕ) (sp : AddrSpace) (m : PageMem) :
    (∃ sp' m', kernelTables n sp m = (some sp', m') ∧
      (sp'.tables = sp.tables ∧ sp'.entries = sp.entries) ∧
      m'.lost = m.lost ∧ ∀ us, m.refuses (.replicate n .table ++ us) = m'.refuses us) ∨
    ∃ m', kernelTables n sp m = (none, m') ∧ m.lost.length < m'.lost.length ∧
      ∀ us, m.refuses (.replicate n .table ++ us) = some .table := by
  induction n generalizing sp m with
  | zero => exact .inl ⟨sp, m, rfl, ⟨rfl, rfl⟩, rfl, fun _ => rfl⟩
  | succ n ih =>
    rw [kernelTables, List.replicate_succ]
    split
    · next m1 hk =>
      refine .inr ⟨_, rfl, ?_, fun us => refuses_none hk⟩
      rw [kalloc_none hk, lose, pages]
      simp only [List.length_append, List.length_cons]
      omega
    · next t m1 hk =>
      have hg := grants_of_some hk
      obtain ⟨sp', m', he, ht, hl, hr⟩ | ⟨m', he, hl, hr⟩ := ih (sp.addKernel t) m1
      · exact .inl ⟨sp', m', he, ht, hl.trans hg.lost, fun us => hg.refuses.trans (hr us)⟩
      · exact .inr ⟨m', he, hg.lost ▸ hl, fun us => hg.refuses.trans (hr us)⟩

/-- Nothing more is lost, unless the first request that finds no memory is one for a page table. -/
structure Leaks (o : List PageUse) (m m' : PageMem) : Prop where
  le : m.lost.length ≤ m'.lost.length
  iff : m'.lost = m.lost ↔ m.refuses o ≠ some .table

namespace Leaks

variable {o : List PageUse} {u : PageUse} {m1 : PageMem}

theorem of_same (hlost : m'.lost = m.lost) (h : m.refuses o ≠ some .table) : Leaks o m m' :=
  ⟨by rw [hlost], fun _ => h, fun _ => hlost⟩

theorem of_none (hlost : m'.lost = m.lost) : Leaks [] m m' :=
  of_same hlost (by simp [refuses, PageUse.refused])

theorem of_refused (hrefuses : m.refuses o = some u) (hu : u ≠ .table) (hlost : m'.lost = m.lost) :
    Leaks o m m' := by
  refine of_same hlost ?_
  rw [hrefuses]
  exact fun h => hu (Option.some.inj h)

theorem of_leaked (hrefuses : m.refuses o = some .table) (hlost : m.lost.length < m'.lost.length) :
    Leaks o m m' := by
  refine ⟨hlost.le, fun h => ?_, fun h => absurd hrefuses h⟩
  rw [h] at hlost
  exact absurd hlost (lt_irrefl _)

/-- The first requests are granted. -/
theorem after {o' : List PageUse} (h : Leaks o m1 m') (hlost : m1.lost = m.lost)
    (hnext : m.refuses o' = m1.refuses o) : Leaks o' m m' := by
  constructor
  · rw [← hlost]
    exact h.le
  · rw [hnext, ← hlost]
    exact h.iff

theorem congr {m'' : PageMem} (h : Leaks o m m') (hlost : m''.lost = m'.lost) : Leaks o m m'' := by
  constructor
  · rw [hlost]
    exact h.le
  · rw [hlost]
    exact h.iff

theorem of_answers {D F : Prop} (h : Answers o m m' D F) : Leaks o m m' := by
  cases h with
  | granted _ hlost hnext =>
    refine of_same hlost ?_
    have := hnext []
    rw [List.append_nil] at this
    rw [this]
    simp [refuses, PageUse.refused]
  | out u hu hrefuses _ hlost => exact of_refused (by simpa using hrefuses []) hu hlost
  | leaked hrefuses hlost => exact of_leaked (by simpa using hrefuses []) hlost

end Leaks

theorem copyLoop_leaks {old d : AddrSpace} {i : ℕ} {r : Option AddrSpace}
    (h : copyLoop old n i d m = .ok (r, m')) : Leaks (userOrder n i (keys d.tables)) m m' := by
  induction n generalizing i d m with
  | zero =>
    cases h
    exact .of_none rfl
  | succ n ih =>
    rw [copyLoop] at h
    split at h
    · cases h
    · cases h
    · next frame _ _ =>
      split at h
      · next hk =>
        cases h
        refine .of_refused (u := .page) ?_ (by decide) ?_
        · rw [userOrder]
          split
          · exact refuses_none hk
          · exact refuses_none hk
        · rw [freevm_lost, kalloc_none hk]
      · next k m1 hk =>
        have hpage := (grants_of_some hk).fill k (m1.mem frame)
        rw [userOrder]
        split at h
        · cases h
        · next hmap =>
          obtain ⟨ht, -, -, rfl, rfl⟩ | ⟨_, _, hno, _⟩ | ⟨ht, t, hk', -, rfl⟩ := mappages_cases hmap
          · rw [if_pos ht]
            exact (ih h).after hpage.lost hpage.refuses
          · cases hno
          · have htable := grants_of_some hk'
            rw [if_neg ht]
            exact (ih h).after (htable.lost.trans hpage.lost) (hpage.refuses.trans htable.refuses)
        · next hmap =>
          obtain ⟨_, _, hno, _⟩ | ⟨ht, hk', -, rfl⟩ | ⟨_, _, _, hno, _⟩ := mappages_cases hmap
          · cases hno
          · cases h
            rw [if_neg ht]
            refine .of_leaked (hpage.refuses.trans (refuses_none hk')) ?_
            rw [freevm_lost, lose, kalloc_none hk']
            simp only [List.length_append, List.length_singleton, hpage.lost]
            omega
          · cases hno

theorem setupkvm_cases (m : PageMem) :
    (∃ d m', setupkvm m = (some d, m') ∧ (d.tables = [] ∧ d.entries = []) ∧ m'.lost = m.lost ∧
      ∀ us, m.refuses (kernelOrder us) = m'.refuses us) ∨
    ∃ m', setupkvm m = (none, m') ∧ ∀ us, Leaks (kernelOrder us) m m' := by
  unfold setupkvm
  cases hk : m.kalloc with
  | mk k m1 =>
    cases k with
    | none =>
      refine .inr ⟨m1, rfl, fun us => .of_refused (refuses_none hk) (by decide) ?_⟩
      rw [kalloc_none hk]
    | some k =>
      have hdir := grants_of_some hk
      obtain ⟨d, m2, he, ht, hl, hr⟩ | ⟨m2, he, hl, hr⟩ :=
        kernelTables_cases kernelCount ⟨k, [], [], []⟩ m1
      · exact .inl ⟨d, m2, he, ht, hl.trans hdir.lost, fun us => hdir.refuses.trans (hr us)⟩
      · exact .inr ⟨m2, he, fun us => .of_leaked (hdir.refuses.trans (hr us)) (hdir.lost ▸ hl)⟩

theorem copyuvm_leaks {old : AddrSpace} {sz : ℕ} {r : Option AddrSpace}
    (h : copyuvm old sz m = .ok (r, m')) :
    Leaks (kernelOrder (userOrder (Xv6.pages sz) 0 [])) m m' := by
  unfold copyuvm at h
  obtain ⟨d, m1, he, ⟨ht, -⟩, hl, hr⟩ | ⟨m1, he, hleaks⟩ := setupkvm_cases m
  · rw [he] at h
    have hcopy := copyLoop_leaks h
    rw [ht] at hcopy
    exact hcopy.after hl (hr _)
  · rw [he] at h
    cases h
    exact hleaks _

variable {r : Option ℕ}

/-- What is left to be requested after the segments. -/
theorem loadSegments_order {gs : List SegmentLoad} {sz : ℕ}
    (h : loadSegments gs sz sp m = .ok (r, sp', m')) :
    (∃ sz', r = some sz' ∧ m'.lost = m.lost ∧
      m.refuses (imageOrder gs sz (keys sp.tables)) =
        m'.refuses (imageOrder [] sz' (keys sp'.tables))) ∨
    (r = none ∧ Leaks (imageOrder gs sz (keys sp.tables)) m m') ∨
    (m.lost.length < m'.lost.length ∧
      m.refuses (imageOrder gs sz (keys sp.tables)) = some .table) := by
  induction gs generalizing sz sp m with
  | nil =>
    cases h
    exact .inl ⟨sz, rfl, rfl, rfl⟩
  | cons g gs ih =>
    rw [imageOrder]
    by_cases hsane : g.sane = true
    · obtain ⟨sz1, sp1, m1, mem, halloc, hload⟩ := loadSegments_cons hsane h
      rw [if_pos hsane]
      cases allocuvm_answers halloc with
      | granted hd hlost hnext =>
        obtain ⟨rfl, ht⟩ := hd
        rw [hnext, ← ht]
        split at hload
        · next hstop =>
          obtain ⟨rfl, rfl, rfl⟩ := hload
          rw [if_pos hstop]
          refine .inr (.inl ⟨rfl, ?_⟩)
          rw [List.append_nil]
          exact ((Leaks.of_none rfl).after hlost (by simpa using hnext [])).congr rfl
        · next hgo =>
          rw [if_neg hgo]
          obtain ⟨sz', rfl, hl, hr⟩ | ⟨rfl, hl⟩ | ⟨hl, hr⟩ := ih hload
          · exact .inl ⟨sz', rfl, hl.trans hlost, hr⟩
          · exact .inr (.inl ⟨rfl, hl.after hlost (hnext _)⟩)
          · exact .inr (.inr ⟨hlost ▸ hl, hr⟩)
      | out u hu hrefuses hf hlost =>
        rw [if_pos (.inl hf)] at hload
        obtain ⟨rfl, -, rfl⟩ := hload
        exact .inr (.inl ⟨rfl, .of_refused (hrefuses _) hu hlost⟩)
      | leaked hrefuses hlost =>
        refine .inr (.inr ⟨?_, hrefuses _⟩)
        split at hload
        · obtain ⟨-, -, rfl⟩ := hload
          exact hlost
        · refine hlost.trans_le ?_
          obtain ⟨sz', -, hl, -⟩ | ⟨-, hl⟩ | ⟨hl, -⟩ := ih hload
          · rw [hl]
          · exact hl.le
          · exact hl.le
    · rw [loadSegments, if_neg hsane] at h
      cases h
      rw [if_neg hsane]
      exact .inr (.inl ⟨rfl, .of_none rfl⟩)

theorem userStack_answers {sz : ℕ} (h : userStack sz sp m = .ok (r, sp', m')) :
    Answers (imageOrder [] sz (keys sp.tables)) m m' True (r = none) := by
  unfold userStack at h
  split at h
  · cases h
  · next sz1 sp1 m1 halloc =>
    have hanswers := allocuvm_answers halloc
    split at h
    · cases h
      exact hanswers.mono (fun _ => trivial) fun _ => rfl
    · next hne =>
      split at h
      · cases h
      · cases h
        exact hanswers.mono (fun _ => trivial) fun hf => absurd hf hne

/-- The segments and the stack. -/
theorem imageOrder_leaks {gs : List SegmentLoad} {sz sz1 : ℕ} {sp1 : AddrSpace} {m1 : PageMem}
    (hload : loadSegments gs sz sp m = .ok (some sz1, sp1, m1))
    (hstack : userStack sz1 sp1 m1 = .ok (r, sp', m')) :
    Leaks (imageOrder gs sz (keys sp.tables)) m m' := by
  have hleaks := Leaks.of_answers (userStack_answers hstack)
  obtain ⟨sz', he, hl, hr⟩ | ⟨hno, _⟩ | ⟨hl, hr⟩ := loadSegments_order hload
  · cases he
    exact hleaks.after hl hr
  · cases hno
  · exact .of_leaked hr (hl.trans_le hleaks.le)

theorem image_leaks {x : ExecFacts} {r : Option (ℕ × AddrSpace)} (h : image x m = .ok (r, m')) :
    Leaks (kernelOrder (imageOrder x.segments 0 [])) m m' := by
  unfold image at h
  obtain ⟨d, m1, he, ⟨ht, -⟩, hl, hr⟩ | ⟨m1, he, hleaks⟩ := setupkvm_cases m
  · refine Leaks.after ?_ hl (hr _)
    have hnil : keys d.tables = [] := by
      rw [ht]
      rfl
    rw [he] at h
    simp only at h
    split at h
    · cases h
    · next sp1 m2 hload =>
      cases h
      refine Leaks.congr ?_ (freevm_lost sp1 m2)
      obtain ⟨_, hno, _⟩ | ⟨-, hl⟩ | ⟨hl, hr⟩ := loadSegments_order hload
      · cases hno
      · rwa [hnil] at hl
      · rw [hnil] at hr
        exact .of_leaked hr hl
    · next hload =>
      split at h
      · cases h
      · next sp2 m3 hstack =>
        cases h
        have hleaks := imageOrder_leaks hload hstack
        rw [hnil] at hleaks
        exact hleaks.congr (freevm_lost sp2 m3)
      · next sz2 sp2 m3 hstack =>
        have hleaks := imageOrder_leaks hload hstack
        rw [hnil] at hleaks
        split at h
        · cases h
        · cases h
          exact hleaks.congr (freevm_lost sp2 m3)
        · cases h
          exact hleaks
  · rw [he] at h
    cases h
    exact hleaks _

end AddrSpace

/-! ## Calls -/

namespace PageSys

open AddrSpace

variable {s s' : PageSys} {p : Fin nproc} {r : Bool} {m : PageMem}

theorem setFiles_lost (files : OpenSys (Fin nproc)) (s : PageSys) :
    (s.setFiles files).mem.lost = s.mem.lost :=
  kfreeAll_lost _ _

theorem fork_leaks (fail : ℕ → Bool) (h : (s.enter fail).fork p = .ok (r, s')) :
    Leaks (s.order p (.fork fail)) (s.enter fail).mem s'.mem := by
  unfold fork at h
  rw [show (s.enter fail).freeSlot = s.freeSlot from rfl] at h
  split at h
  · next hslot =>
    cases h
    simp only [order, hslot]
    exact .of_none rfl
  · next c hslot =>
    simp only [order, hslot]
    split at h
    · next hk =>
      cases h
      refine .of_refused (refuses_none hk) (by decide) ?_
      rw [kalloc_none hk]
      rfl
    · next k m1 hk =>
      have hstack := grants_of_some hk
      split at h
      · cases h
      · next hcopy =>
        cases h
        refine Leaks.after (Leaks.congr (copyuvm_leaks hcopy) ?_) hstack.lost hstack.refuses
        rfl
      · next d m2 hcopy =>
        split at h
        · cases h
        · next files _ =>
          cases h
          refine Leaks.after (Leaks.congr (copyuvm_leaks hcopy) ?_) hstack.lost hstack.refuses
          exact setFiles_lost files _

theorem exec_leaks (x : ExecFacts) (fail : ℕ → Bool) (h : (s.enter fail).exec p x = .ok (r, s')) :
    Leaks (s.order p (.exec x fail)) (s.enter fail).mem s'.mem := by
  unfold exec at h
  simp only [order]
  split at h
  · next hrun =>
    rw [if_pos hrun]
    split at h
    · cases h
    · next himage =>
      cases h
      exact (image_leaks himage).congr rfl
    · next himage =>
      cases h
      exact (image_leaks himage).congr (freevm_lost _ _)
  · next hrun =>
    rw [if_neg hrun]
    cases h
    exact .of_none rfl

theorem sbrk_leaks (n : Word) (fail : ℕ → Bool) (h : (s.enter fail).sbrk p n = .ok (r, s')) :
    Leaks (s.order p (.sbrk n fail)) (s.enter fail).mem s'.mem := by
  simp only [sbrk] at h
  simp only [order]
  split at h
  · next hpos =>
    rw [if_pos hpos]
    split at h
    · cases h
    · next halloc =>
      cases h
      exact .of_answers (allocuvm_answers halloc)
  · next hpos =>
    rw [if_neg hpos]
    split at h
    · cases h
      exact .of_none (deallocuvm_lost _ _ _ _)
    · cases h
      exact .of_none rfl

/-- Every page is on the free list, or belongs to a process that is not `UNUSED` or to an open
    pipe. -/
def Accounted (all : List ℕ) (s : PageSys) : Prop := ∀ k ∈ all, k ∈ s.mem.freelist ∨ k ∈ s.owners

theorem Inv.accounted {all lost : List ℕ} (h : Inv all lost s) :
    Accounted all s ↔ s.mem.lost = [] := by
  have hmem : ∀ k, k ∈ all ↔ k ∈ s.mem.freelist ∨ k ∈ s.mem.lost ∨ k ∈ s.owners := by
    intro k
    rw [← Multiset.mem_coe, ← h.holds.total]
    simp [or_assoc]
  constructor
  · intro hall
    refine List.eq_nil_iff_forall_not_mem.2 fun k hk => ?_
    have hcount := h.holds.count_le k
    have hlost := List.count_pos_iff.2 hk
    obtain hfree | hown := hall k ((hmem k).2 (.inr (.inl hk)))
    · have := List.count_pos_iff.2 hfree
      omega
    · have := Multiset.count_pos.2 hown
      omega
  · intro hnil k hk
    have := (hmem k).1 hk
    simpa [hnil] using this

theorem pipe_lost {addr : Bool} (h : s.pipe p addr = .ok (r, s')) : s'.mem.lost = s.mem.lost := by
  have hkalloc : s.mem.kalloc.2.lost = s.mem.lost := by
    cases hk : s.mem.kalloc with
    | mk k m =>
      cases k with
      | none => rw [kalloc_none hk]
      | some k => exact (grants_of_some hk).lost
  simp only [pipe] at h
  split at h
  · cases h
  · split at h
    · split at h
      · cases h
        exact setFiles_lost ..
      · cases h
        exact (setFiles_lost ..).trans hkalloc
    · cases h
      exact setFiles_lost ..

theorem close_lost {fd : Int} (h : s.close p fd = .ok (r, s')) : s'.mem.lost = s.mem.lost := by
  unfold close at h
  split at h
  · cases h
  · cases h
    exact setFiles_lost ..

theorem exit_lost (h : s.exit p = .ok (r, s')) : s'.mem.lost = s.mem.lost := by
  unfold exit at h
  split_ifs at h
  split at h
  · cases h
  · cases h
    exact setFiles_lost ..

theorem wait_lost (h : s.wait p = .ok (r, s')) : s'.mem.lost = s.mem.lost := by
  simp only [wait] at h
  split at h
  · cases h
    rfl
  · cases h
    exact (freevm_lost _ _).trans rfl

/-- What a call loses. -/
theorem call_lost {c : PageCall} (h : s.call p c = .ok (r, s')) :
    s'.mem.lost = s.mem.lost ↔ s.refused p c ≠ some .table := by
  unfold call at h
  split_ifs at h
  cases c with
  | fork fail => exact (fork_leaks fail h).iff
  | exec x fail => exact (exec_leaks x fail h).iff
  | sbrk n fail => exact (sbrk_leaks n fail h).iff
  | pipe addr fail => exact iff_of_true (pipe_lost (s := s.enter fail) h) nofun
  | close fd => exact iff_of_true (close_lost h) nofun
  | exit => exact iff_of_true (exit_lost h) nofun
  | wait => exact iff_of_true (wait_lost h) nofun

/-! ## Memory that runs out -/

/-- After a call has failed every page is accounted for, if it was before and the first request that
    found no memory was not one for a page table; otherwise a page is lost. -/
theorem failed_call_accounted {rest : List ℕ} (hrest : (allPages rest).Nodup)
    (h : Transition.Reachable step (· = init rest) (fun _ _ => True) s) {c : PageCall}
    (hcall : s.call p c = .ok (false, s')) :
    Accounted (allPages rest) s' ↔ Accounted (allPages rest) s ∧ s.refused p c ≠ some .table := by
  have hinv := inv_reachable hrest h
  have hinv' := call_inv hinv hcall
  have hkept : s.mem.lost <:+ s'.mem.lost :=
    (call_inv ⟨⟨hinv.holds.nodup, hinv.holds.total, hinv.holds.inUse, hinv.holds.proper, List.suffix_refl _⟩,
      hinv.sound, hinv.size⟩ hcall).holds.lost
  rw [hinv.accounted, hinv'.accounted, ← call_lost hcall]
  constructor
  · intro hnil
    rw [hnil, List.suffix_nil] at hkept
    exact ⟨hkept, hnil.trans hkept.symm⟩
  · rintro ⟨hnil, hsame⟩
    exact hsame.trans hnil

/-- The first process forks, and there is no memory for the page directory of the child. -/
theorem failed_call_accounted_fork :
    ∃ s', (init (List.range' 68 9)).call initproc (.fork fun i => i = 1) = .ok (false, s') ∧
      Accounted (allPages (List.range' 68 9)) s' := by
  obtain ⟨⟨_, s'⟩, hcall, rfl⟩ := Stoppable.exists_ok
    (x := (init (List.range' 68 9)).call initproc (.fork fun i => i = 1)) (fun a => a.1 = false)
    (by decide +kernel)
  have hnodup : (allPages (List.range' 68 9)).Nodup := (List.nodup_range : (List.range 77).Nodup)
  refine ⟨s', hcall, (failed_call_accounted hnodup (.init rfl) hcall).2 ⟨?_, by decide⟩⟩
  exact (inv_init hnodup).accounted.2 rfl

/-- There is no memory for the first page table of the child: its page directory is lost. -/
theorem fork_loses_directory :
    ∃ s', (init (List.range' 68 9)).call initproc (.fork fun i => i = 2) = .ok (false, s') ∧
      ¬Accounted (allPages (List.range' 68 9)) s' := by
  obtain ⟨⟨_, s'⟩, hcall, rfl, hlost⟩ := Stoppable.exists_ok
    (x := (init (List.range' 68 9)).call initproc (.fork fun i => i = 2))
    (fun a => a.1 = false ∧ a.2.mem.lost ≠ []) (by decide +kernel)
  have hnodup : (allPages (List.range' 68 9)).Nodup := (List.nodup_range : (List.range 77).Nodup)
  exact ⟨s', hcall, mt (call_inv (inv_init hnodup) hcall).accounted.1 hlost⟩

end PageSys

end Xv6
