import Xv6.Vm.Space

set_option autoImplicit false

/-! # What `loaduvm` and `copyout` require

`loaduvm` trusts its caller: it takes the page of each entry that `walkpgdir` finds, present or not,
the kernel's own or not. This file says of every page directory that `exec` builds which segments of
which files it loads without a panic and without a store outside the image (`Loads`), and that these
are the only ones. `copyout` looks at the bits of an entry but takes it for granted that there is
one (`Copies`). -/

namespace Xv6

open Stoppable

/-! ## `readi` -/

namespace Content

variable {f : Content} {off n : Word}

theorem readi_beyond (h : f.bytes.length < off.toNat) : f.readi off n = (-1, []) := by
  simp [readi, h]

/-- A read that starts inside the file returns what is left of it. -/
theorem readi_within (off n : Word) (h : off.toNat ≤ f.bytes.length) (hn : n.toNat ≤ pgsize) :
    f.readi off n = (((min n.toNat (f.bytes.length - off.toNat) : ℕ) : Int),
      (f.bytes.drop off.toNat).take (min n.toNat (f.bytes.length - off.toNat))) := by
  have hsize := f.size_le
  simp only [bsize, pgsize] at hsize hn
  have hsum : (off + n).toNat = off.toNat + n.toNat := by
    rw [BitVec.toNat_add]
    omega
  have hwrap : ¬off + n < off := by
    rw [BitVec.lt_def]
    omega
  have hmin : (if f.bytes.length < (off + n).toNat then f.bytes.length - off.toNat else n.toNat) =
      min n.toNat (f.bytes.length - off.toNat) := by
    split_ifs <;> omega
  rw [readi, if_neg (by simp only [hwrap, or_false]; omega)]
  simp only [hmin]

end Content

namespace Pgdir

variable {pgdir : Pgdir} {m : Kmem} {n : ℕ}

/-- The entries of a new image: a page of the image, or an entry that the user may not use and that
    points at physical memory. -/
theorem Space.walk_cases (h : Space n m pgdir) {a : ℕ} {q : Pte} (hq : walk pgdir a = some q) :
    (∃ k, q.frame = .page k ∧ (a, k) ∈ m.mapped ∧ a < kernPage ∧ q.present = true) ∨
      (∃ p, q.frame = .phys p) ∧ ¬(a < kernPage ∧ q.present = true) ∧
      (q.present && q.user) = false := by
  by_cases ha : a < kernPage
  · obtain rfl | ⟨-, k, u, rfl, hk⟩ := h.user a ha q hq
    · exact .inr ⟨⟨0, rfl⟩, by simp [Pte.zero], rfl⟩
    · exact .inl ⟨k, rfl, hk, ha, rfl⟩
  · rw [h.kernel a (Nat.not_lt.1 ha)] at hq
    simp only [walk, Pgdir.kernel, Option.map_eq_some_iff] at hq
    obtain ⟨table, htable, rfl⟩ := hq
    refine .inr ?_
    split_ifs at htable
    all_goals
      cases htable
      exact ⟨⟨_, rfl⟩, fun h => ha h.1, rfl⟩

/-! ## `loaduvm` -/

/-- The page that byte `4096 * j` of a segment at `addr` belongs to. -/
def segmentPage (addr : Word) (j : ℕ) : ℕ := (addr + .ofNat 32 (j * pgsize)).toNat / pgsize

/-- For page `j` of the segment there is an entry, and where the file has bytes for it the entry is
    that of a page mapped below `KERNBASE`. -/
def PageLoads (pgdir : Pgdir) (f : Content) (addr offset : Word) (j : ℕ) : Prop :=
  ∃ q, walk pgdir (segmentPage addr j) = some q ∧
    (offset.toNat + j * pgsize < f.bytes.length → segmentPage addr j < kernPage ∧ q.present = true)

/-- The pages that `loaduvm` comes to, from page `j0` of the segment on. -/
def LoadsFrom (pgdir : Pgdir) (f : Content) (addr offset : Word) (sz j0 : ℕ) : Prop :=
  ∀ j, j0 ≤ j → j * pgsize < sz → (j = j0 ∨ offset.toNat + j * pgsize ≤ f.bytes.length) →
    PageLoads pgdir f addr offset j

/-- The segments that `loaduvm` takes. -/
def Loads (pgdir : Pgdir) (f : Content) (addr offset : Word) (sz : ℕ) : Prop :=
  addr.toNat % pgsize = 0 ∧ LoadsFrom pgdir f addr offset sz 0

section

variable {f : Content} {addr offset : Word} {sz j : ℕ}

/-- After a page that was read in full, what is left to require is about the pages after it. -/
theorem loadsFrom_succ (hfull : offset.toNat + min sz ((j + 1) * pgsize) ≤ f.bytes.length)
    (hhead : PageLoads pgdir f addr offset j) :
    LoadsFrom pgdir f addr offset sz j ↔ LoadsFrom pgdir f addr offset sz (j + 1) := by
  simp only [pgsize] at *
  constructor
  · intro h i hi hisz _
    exact h i (by omega) hisz (.inr (by simp only [pgsize] at *; omega))
  · intro h i hi hisz hread
    by_cases hij : i = j
    · subst hij
      exact hhead
    · refine h i (by omega) hisz ?_
      simp only [pgsize] at *
      omega

/-- A page that could not be read in full is the last one. -/
theorem loadsFrom_last (hshort : f.bytes.length < offset.toNat + min sz ((j + 1) * pgsize))
    (hhead : PageLoads pgdir f addr offset j) : LoadsFrom pgdir f addr offset sz j := by
  intro i hi hisz hread
  by_cases hij : i = j
  · subst hij
    exact hhead
  · simp only [pgsize] at *
    omega

theorem loadsFrom_end (hend : sz ≤ j * pgsize) : LoadsFrom pgdir f addr offset sz j := by
  intro i hi hisz
  simp only [pgsize] at *
  omega

/-- What a read of page `j` of the segment gives. -/
theorem readi_segment (hj : j = 0 ∨ offset.toNat + j * pgsize ≤ f.bytes.length)
    (hsz : j * pgsize < sz) (hlt : sz < 2 ^ 32) :
    let r := f.readi (offset + .ofNat 32 (j * pgsize)) (.ofNat 32 (min (sz - j * pgsize) pgsize))
    (r.1 = ((min (sz - j * pgsize) pgsize : ℕ) : Int) ↔
        offset.toNat + min sz ((j + 1) * pgsize) ≤ f.bytes.length) ∧
      (r.2 = [] ↔ f.bytes.length ≤ offset.toNat + j * pgsize) := by
  have hsize := f.size_le
  have hoff : (offset + .ofNat 32 (j * pgsize)).toNat = offset.toNat + j * pgsize := by
    have := offset.isLt
    simp only [bsize, pgsize] at *
    rw [BitVec.toNat_add, BitVec.toNat_ofNat]
    omega
  have hn : (BitVec.ofNat 32 (min (sz - j * pgsize) pgsize)).toNat = min (sz - j * pgsize) pgsize :=
    by
    rw [BitVec.toNat_ofNat, Nat.mod_eq_of_lt]
    omega
  by_cases hin : offset.toNat + j * pgsize ≤ f.bytes.length
  · rw [Content.readi_within _ _ (by omega) (by omega), hoff, hn]
    simp only [List.take_eq_nil_iff, List.drop_eq_nil_iff]
    simp only [bsize, pgsize] at *
    omega
  · rw [Content.readi_beyond (by omega)]
    simp only [bsize, pgsize, true_iff] at *
    omega

theorem start_succ {off size : ℕ} (hfull : off + min sz ((j + 1) * pgsize) ≤ size) :
    sz ≤ (j + 1) * pgsize ∨ j + 1 = 0 ∨ off + (j + 1) * pgsize ≤ size := by
  simp only [pgsize] at *
  omega

/-- From page `j` on, where the pages before have been read in full. -/
theorem loadLoop_yields (addr offset : Word) (fuel : ℕ) (hs : m.Safe) (h : Space n m pgdir)
    (hlt : sz < 2 ^ 32) (hfuel : sz ≤ (j + fuel) * pgsize)
    (hj : sz ≤ j * pgsize ∨ j = 0 ∨ offset.toNat + j * pgsize ≤ f.bytes.length) :
    Yields (fun _ => ¬LoadsFrom pgdir f addr offset sz j)
      (fun x => LoadsFrom pgdir f addr offset sz j ∧ x.2.Safe ∧ x.2.mapped = m.mapped)
      (loadLoop pgdir addr (.file f) offset sz fuel (j * pgsize) m) := by
  induction fuel generalizing j m with
  | zero => exact .ok ⟨loadsFrom_end hfuel, hs, rfl⟩
  | succ fuel ih =>
    rw [loadLoop]
    split_ifs with hend
    · exact .ok ⟨loadsFrom_end hend, hs, rfl⟩
    have hstart : j = 0 ∨ offset.toNat + j * pgsize ≤ f.bytes.length := hj.resolve_left hend
    obtain ⟨hr, hb⟩ := readi_segment hstart (Nat.lt_of_not_le hend) hlt
    generalize hres : f.readi (offset + .ofNat 32 (j * pgsize))
      (.ofNat 32 (min (sz - j * pgsize) pgsize)) = res at hr hb
    obtain ⟨r, bytes⟩ := res
    dsimp only at hr hb
    -- After the store: on to the next page, or the end for a page that was not read in full.
    have hgo (m' : Kmem) (hsafe : m'.Safe) (hmapped : m'.mapped = m.mapped)
        (hpage : PageLoads pgdir f addr offset j) :
        Yields (fun _ => ¬LoadsFrom pgdir f addr offset sz j)
          (fun x => LoadsFrom pgdir f addr offset sz j ∧ x.2.Safe ∧ x.2.mapped = m.mapped)
          (if r = ((min (sz - j * pgsize) pgsize : ℕ) : Int) then
            loadLoop pgdir addr (.file f) offset sz fuel (j * pgsize + pgsize) m'
          else .ok (false, m')) := by
      split_ifs with hrn
      · have hfull := hr.1 hrn
        have hsucc : j * pgsize + pgsize = (j + 1) * pgsize := by rw [Nat.add_one_mul]
        have hadd : j + 1 + fuel = j + (fuel + 1) := by omega
        rw [loadsFrom_succ hfull hpage, hsucc, ← hmapped]
        exact ih hsafe (h.mono (Nat.le_refl n) h.le (hmapped ▸ List.Subset.refl _)) (hadd ▸ hfuel)
          (start_succ hfull)
      · exact .ok ⟨loadsFrom_last (Nat.lt_of_not_le (mt hr.2 hrn)) hpage, hsafe, hmapped⟩
    have hhead (hloads : LoadsFrom pgdir f addr offset sz j) : PageLoads pgdir f addr offset j :=
      hloads j (Nat.le_refl j) (Nat.lt_of_not_le hend) (.inl rfl)
    dsimp only
    rw [show (addr + .ofNat 32 (j * pgsize)).toNat / pgsize = segmentPage addr j from rfl]
    simp only [Source.readi, hres]
    cases hwalk : walk pgdir (segmentPage addr j) with
    | none =>
      refine .error fun hloads => ?_
      obtain ⟨q, hq, -⟩ := hhead hloads
      cases hwalk.symm.trans hq
    | some q =>
      cases bytes with
      | nil => exact hgo m hs rfl ⟨q, hwalk, fun hlt => absurd (hb.1 rfl) (Nat.not_le.2 hlt)⟩
      | cons c bytes =>
        obtain ⟨k, hk, hmem, hin⟩ | ⟨⟨p, hp⟩, hout, -⟩ := h.walk_cases hwalk
        · dsimp only
          rw [hk]
          refine hgo _ ⟨fun x hx => ?_, hs.below⟩ rfl ⟨q, hwalk, fun _ => hin⟩
          rcases List.mem_append.1 hx with hx | hx
          · exact hs.mapped hx
          · rwa [List.mem_singleton.1 hx]
        · dsimp only
          rw [hp]
          refine .error fun hloads => ?_
          obtain ⟨q', hq', hin⟩ := hhead hloads
          cases hwalk.symm.trans hq'
          exact hout (hin (Nat.lt_of_not_le (mt hb.2 (by simp))))

/-- `loaduvm` stops if and only if the segment is not one of those it takes. -/
theorem loaduvm_yields (hs : m.Safe) (h : Space n m pgdir) (hlt : sz < 2 ^ 32) :
    Yields (fun _ => ¬Loads pgdir f addr offset sz)
      (fun x => Loads pgdir f addr offset sz ∧ x.2.Safe ∧ x.2.mapped = m.mapped)
      (loaduvm pgdir addr (.file f) offset sz m) := by
  rw [loaduvm]
  split_ifs with halign
  · exact .error fun hloads => halign hloads.1
  · have hloop := loadLoop_yields (f := f) (j := 0) addr offset (pages sz) hs h hlt
      (by rw [Nat.zero_add]; exact le_pages_mul sz) (.inr (.inl rfl))
    rw [Nat.zero_mul] at hloop
    exact hloop.mono (fun _ he hloads => he hloads.2) fun x hx => ⟨⟨not_not.1 halign, hx.1⟩, hx.2⟩

end

/-! ## `clearpteu` and `copyout` -/

theorem clearpteu_yields (h : Space n m pgdir) {a : ℕ} (ha : a < kernPage) :
    Yields (fun _ => walk pgdir a = none)
      (fun d => ∃ q, walk pgdir a = some q ∧ d = setPte pgdir a { q with user := false } ∧
        Space n m d)
      (clearpteu pgdir a) := by
  rw [clearpteu]
  cases hq : walk pgdir a with
  | none => exact .error rfl
  | some q =>
    refine .ok ⟨q, rfl, rfl, h.setPte ha (by simp [hq]) ?_⟩
    obtain rfl | ⟨hlt, k, u, rfl, hk⟩ := h.user a ha q hq
    · exact .inl rfl
    · exact .inr ⟨hlt, k, false, rfl, hk⟩

/-- Page `i` of those that `copyout` comes to from `va` on. -/
def copyPage (va : Word) (i : ℕ) : ℕ := (va.toNat / pgsize + i) % 1048576

/-- The user may use the page. -/
def Usable (pgdir : Pgdir) (a : ℕ) : Prop :=
  ∃ q, walk pgdir a = some q ∧ (q.present && q.user) = true

/-- Where `copyout` of `len` bytes comes to a page, there is an entry for it. -/
def Copies (pgdir : Pgdir) (va : Word) (len : ℕ) : Prop :=
  ∀ i, i * pgsize < va.toNat % pgsize + len → (∀ j < i, Usable pgdir (copyPage va j)) →
    ∃ q, walk pgdir (copyPage va i) = some q

/-- `copyout` of `len` bytes can write all of them. -/
def Copied (pgdir : Pgdir) (va : Word) (len : ℕ) : Prop :=
  ∀ i, i * pgsize < va.toNat % pgsize + len → Usable pgdir (copyPage va i)

theorem copyPage_zero (va : Word) : copyPage va 0 = va.toNat / pgsize :=
  Nat.mod_eq_of_lt (Nat.div_lt_of_lt_mul va.isLt)

/-- The pages after the first one. -/
theorem copyPage_next (va : Word) (i : ℕ) :
    copyPage (.ofNat 32 ((va.toNat / pgsize + 1) * pgsize)) i = copyPage va (i + 1) := by
  simp only [copyPage, BitVec.toNat_ofNat, pgsize]
  omega

theorem next_mod (va : Word) :
    (BitVec.ofNat 32 ((va.toNat / pgsize + 1) * pgsize)).toNat % pgsize = 0 := by
  simp only [BitVec.toNat_ofNat, pgsize]
  omega

/-- After a page that could be written, what is left to require is about the pages after it. -/
theorem copies_next {va : Word} (h : Usable pgdir (copyPage va 0)) (len : ℕ) :
    let va' : Word := .ofNat 32 ((va.toNat / pgsize + 1) * pgsize)
    let len' := len - min (pgsize - va.toNat % pgsize) len
    (Copies pgdir va len ↔ Copies pgdir va' len') ∧ (Copied pgdir va len ↔ Copied pgdir va' len') :=
      by
  have hlen (i : ℕ) : i * pgsize < 0 + (len - min (pgsize - va.toNat % pgsize) len) ↔
      (i + 1) * pgsize < va.toNat % pgsize + len := by
    simp only [pgsize]
    omega
  have husable (i : ℕ) : (∀ j < i + 1, Usable pgdir (copyPage va j)) ↔
      ∀ j < i, Usable pgdir (copyPage va (j + 1)) := by
    rw [Nat.forall_lt_succ_left]
    simp only [h, true_and]
  simp only [Copies, Copied, next_mod, hlen, copyPage_next, ← husable]
  refine ⟨⟨fun hcopies i => hcopies (i + 1), fun hcopies i => ?_⟩,
    ⟨fun hcopied i => hcopied (i + 1), fun hcopied i => ?_⟩⟩
  · cases i with
    | zero =>
      intro _ _
      obtain ⟨q, hq, -⟩ := h
      exact ⟨q, hq⟩
    | succ i => exact hcopies i
  · cases i with
    | zero => exact fun _ => h
    | succ i => exact hcopied i

/-- `copyout` stops if and only if it comes to a page without a page table; what it writes goes to
    pages of the image. -/
theorem copyLoop_yields (h : Space n m pgdir) (fuel : ℕ) (va : Word) (buf : List Byte) {m' : Kmem}
    (hfuel : buf.length ≤ fuel) (hbuf : buf = [] → va.toNat % pgsize = 0) :
    Yields (fun _ => ¬Copies pgdir va buf.length)
      (fun x => Copies pgdir va buf.length ∧ (x.1 = true ↔ Copied pgdir va buf.length) ∧
        ∃ mem, x.2 = { m' with mem := mem })
      (copyLoop pgdir fuel va buf m') := by
  induction fuel generalizing va buf m' with
  | zero =>
    obtain rfl := List.length_eq_zero_iff.1 (Nat.le_zero.1 hfuel)
    exact .ok ⟨by simp [Copies, hbuf rfl], by simp [Copied, hbuf rfl], m'.mem, rfl⟩
  | succ fuel ih =>
    cases buf with
    | nil => exact .ok ⟨by simp [Copies, hbuf rfl], by simp [Copied, hbuf rfl], m'.mem, rfl⟩
    | cons c buf =>
      have hpage := copyPage_zero va
      have hfirst : 0 * pgsize < va.toNat % pgsize + (c :: buf).length := by
        simp only [List.length_cons]
        omega
      simp only [copyLoop, uva2ka]
      cases hq : walk pgdir (va.toNat / pgsize) with
      | none =>
        refine .error fun hcopies => ?_
        obtain ⟨q, hq'⟩ := hcopies 0 hfirst (by simp)
        rw [hpage, hq] at hq'
        cases hq'
      | some q =>
        dsimp only
        rw [← hpage] at hq
        by_cases hbits : (q.present && q.user) = true
        · obtain ⟨k, hk, -⟩ | ⟨-, -, hno⟩ := h.walk_cases hq
          · obtain ⟨hcopies, hcopied⟩ := copies_next ⟨q, hq, hbits⟩ (c :: buf).length
            rw [hcopies, hcopied, ← List.length_drop, if_pos hbits, hk]
            refine (ih _ _ ?_ fun _ => next_mod va).post fun x hx => hx
            have hlt := Nat.mod_lt va.toNat (by decide : 0 < pgsize)
            simp only [List.length_drop, List.length_cons] at hfuel ⊢
            omega
          · cases hbits.symm.trans hno
        · have hno : ¬Usable pgdir (copyPage va 0) := by
            rintro ⟨q', hq', hbits'⟩
            cases hq.symm.trans hq'
            exact hbits hbits'
          rw [if_neg hbits]
          refine .ok ⟨fun i _ husable => ?_, by simpa using fun hall => hno (hall 0 hfirst),
            m'.mem, rfl⟩
          cases i with
          | zero => exact ⟨q, hq⟩
          | succ i => exact absurd (husable 0 (Nat.succ_pos i)) hno

end Pgdir

end Xv6
