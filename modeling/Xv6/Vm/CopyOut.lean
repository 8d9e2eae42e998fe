import Xv6.Vm.Dealloc
import Mathlib.Data.List.GetD

set_option autoImplicit false

/-! # What `copyout` stores

`copyout` goes from page to page and asks `uva2ka` for each of them. `uva2ka` reads the entry of the
page without a look at the pointer, which is null where the page table is missing (`copyout_cases`).
Addresses are 32-bit, so a range may go on at address 0. -/

namespace Xv6

namespace Uvm

open Function

namespace Pgdir

variable {pgdir : Pgdir} {m m1 m2 : Kmem} {va : Word} {bytes buf : List Byte}

/-- The page is present and the user's. -/
def UserPage (pgdir : Pgdir) (a : ℕ) : Prop :=
  ∃ pte, pgdir.walk a = some pte ∧ pte.has pteP ∧ pte.has pteU

/-- The physical page and the offset that an address is mapped to. -/
def place (pgdir : Pgdir) (va : Word) : ℕ × ℕ :=
  (pgdir.frame (va.toNat / pgsize), va.toNat % pgsize)

/-- The `i`-th byte from `va` on. -/
def byteAt (va : Word) (i : ℕ) : Word := va + .ofNat 32 i

/-- From `m` to `m'` the bytes have been stored from `va` on, and nothing else has changed. Where
two addresses are mapped to one place it has the byte that was stored last. -/
structure Stored (pgdir : Pgdir) (va : Word) (bytes : List Byte) (m m' : Kmem) : Prop where
  range : ∀ i b, bytes[i]? = some b →
    (∀ j, i < j → j < bytes.length → pgdir.place (byteAt va j) ≠ pgdir.place (byteAt va i)) →
    m'.mem (pgdir.place (byteAt va i)).1 (pgdir.place (byteAt va i)).2 = b
  others : ∀ k o, (∀ i < bytes.length, pgdir.place (byteAt va i) ≠ (k, o)) → m'.mem k o = m.mem k o
  rest : m'.give = m.give ∧ m'.kend = m.kend ∧ m'.freed = m.freed

theorem byteAt_add (va : Word) (i j : ℕ) : byteAt (byteAt va i) j = byteAt va (i + j) := by
  rw [byteAt, byteAt, byteAt, BitVec.ofNat_add, BitVec.add_assoc]

theorem Stored.nil (pgdir : Pgdir) (va : Word) (m : Kmem) : Stored pgdir va [] m m :=
  ⟨nofun, fun _ _ _ => rfl, rfl, rfl, rfl⟩

/-- One store after the other. -/
theorem Stored.append {bytes' : List Byte} (h : Stored pgdir va bytes m m1)
    (h' : Stored pgdir (byteAt va bytes.length) bytes' m1 m2) :
    Stored pgdir va (bytes ++ bytes') m m2 := by
  refine ⟨fun i b hi hlast => ?_, fun k o hne => ?_, ?_⟩
  · by_cases hlt : i < bytes.length
    · rw [List.getElem?_append_left hlt] at hi
      rw [h'.others _ _ fun j hj => ?_]
      · refine h.range i b hi fun j hij hj => hlast j hij ?_
        rw [List.length_append]
        omega
      · rw [byteAt_add]
        refine hlast _ (by omega) ?_
        rw [List.length_append]
        omega
    · have hle : bytes.length ≤ i := Nat.not_lt.1 hlt
      rw [List.getElem?_append_right hle] at hi
      have haddr : byteAt (byteAt va bytes.length) (i - bytes.length) = byteAt va i := by
        rw [byteAt_add, Nat.add_sub_cancel' hle]
      rw [← haddr]
      refine h'.range _ b hi fun j hij hj => ?_
      rw [haddr, byteAt_add]
      refine hlast _ (by omega) ?_
      rw [List.length_append]
      omega
  · rw [h'.others k o fun i hi => ?_, h.others k o fun i hi => ?_]
    · refine hne i ?_
      rw [List.length_append]
      omega
    · rw [byteAt_add]
      refine hne _ ?_
      rw [List.length_append]
      omega
  · exact ⟨h'.rest.1.trans h.rest.1, h'.rest.2.1.trans h.rest.2.1, h'.rest.2.2.trans h.rest.2.2⟩

/-- Within a page the offset goes up with the address. -/
theorem place_byteAt {i : ℕ} (h : va.toNat % pgsize + i < pgsize) :
    pgdir.place (byteAt va i) = (pgdir.frame (va.toNat / pgsize), va.toNat % pgsize + i) := by
  have hlt := va.isLt
  have htoNat : (byteAt va i).toNat = va.toNat + i := by
    rw [byteAt, BitVec.toNat_add, BitVec.toNat_ofNat]
    simp only [pgsize] at h
    omega
  simp only [pgsize] at h
  rw [place, htoNat]
  refine Prod.ext (congrArg pgdir.frame ?_) ?_
  · simp only [pgsize]
    omega
  · simp only [pgsize]
    omega

/-- The `memmove` of one round. -/
theorem stored_store (h : va.toNat % pgsize + bytes.length ≤ pgsize) :
    Stored pgdir va bytes m (m.store (pgdir.frame (va.toNat / pgsize)) (va.toNat % pgsize) bytes) := by
  refine ⟨fun i b hi _ => ?_, fun k o hne => ?_, rfl, rfl, rfl⟩
  · have hlen : i < bytes.length := (List.getElem?_eq_some_iff.1 hi).1
    rw [place_byteAt (by omega)]
    simp [Kmem.store, Kmem.fill, hi]
  · by_cases hk : k = pgdir.frame (va.toNat / pgsize)
    · subst hk
      simp only [Kmem.store, Kmem.fill, update_self]
      split_ifs with ho
      · rw [List.getD_eq_default]
        by_contra hlen
        refine hne (o - va.toNat % pgsize) (by omega) ?_
        rw [place_byteAt (by omega)]
        refine Prod.ext rfl ?_
        show va.toNat % pgsize + (o - va.toNat % pgsize) = o
        omega
      · rfl
    · simp [Kmem.store, Kmem.fill, hk]

/-! ## The pages of a range -/

/-- The `j`-th page of the range from `va` on. -/
def pageAt (va : Word) (j : ℕ) : ℕ := (va.toNat / pgsize + j) % 2 ^ 20

/-- How many pages overlap a range. -/
def pageCount (va : Word) (len : ℕ) : ℕ :=
  if len = 0 then 0 else (va.toNat % pgsize + len - 1) / pgsize + 1

/-- The bytes of a range before its `j`-th page. -/
def bytesBefore (va : Word) (j : ℕ) : ℕ := j * pgsize - va.toNat % pgsize

/-- The first page of the range that is not the user's. -/
structure FirstBad (pgdir : Pgdir) (va : Word) (len j : ℕ) : Prop where
  lt : j < pageCount va len
  before : ∀ i < j, pgdir.UserPage (pageAt va i)
  bad : ¬pgdir.UserPage (pageAt va j)

/-- The address at which a round goes on. -/
def nextPage (va : Word) : Word := .ofNat 32 ((va.toNat / pgsize + 1) * pgsize)

section

variable (va : Word)

theorem toNat_nextPage : (nextPage va).toNat = (va.toNat / pgsize + 1) * pgsize % 2 ^ 32 :=
  BitVec.toNat_ofNat ..

theorem pageAt_zero : pageAt va 0 = va.toNat / pgsize := by
  have := va.isLt
  simp only [pageAt, pgsize]
  omega

theorem pageAt_nextPage (j : ℕ) : pageAt (nextPage va) j = pageAt va (j + 1) := by
  simp only [pageAt, toNat_nextPage, pgsize]
  omega

theorem nextPage_eq : nextPage va = byteAt va (pgsize - va.toNat % pgsize) := by
  apply BitVec.eq_of_toNat_eq
  rw [toNat_nextPage, byteAt, BitVec.toNat_add, BitVec.toNat_ofNat]
  simp only [pgsize]
  omega

theorem pageCount_nextPage {len : ℕ} (hlen : 0 < len) :
    pageCount va len = pageCount (nextPage va)
    (len - min (pgsize - va.toNat % pgsize) len) + 1 := by
  simp only [pageCount, toNat_nextPage, pgsize]
  split_ifs <;> omega

theorem bytesBefore_nextPage (j : ℕ) :
    bytesBefore va (j + 1) = (pgsize - va.toNat % pgsize) + bytesBefore (nextPage va) j := by
  simp only [bytesBefore, toNat_nextPage, pgsize]
  omega

end

/-! ## The loop -/

/-- How the loop ends: after the last page, at a page that is not the user's, or at a missing page
    table. -/
inductive Copied (pgdir : Pgdir) (va : Word) (buf : List Byte) (m : Kmem) :
    Except Stop (Int × Kmem) → Prop
  | all {m' : Kmem} (hpages : ∀ j < pageCount va buf.length, pgdir.UserPage (pageAt va j))
      (hstored : Stored pgdir va buf m m') : Copied pgdir va buf m (.ok (0, m'))
  | refused {j : ℕ} {m' : Kmem} (hbad : FirstBad pgdir va buf.length j)
      (htable : pgdir.walk (pageAt va j) ≠ none)
      (hstored : Stored pgdir va (buf.take (bytesBefore va j)) m m') :
      Copied pgdir va buf m (.ok (-1, m'))
  | null {j : ℕ} (hbad : FirstBad pgdir va buf.length j)
      (htable : pgdir.walk (pageAt va j) = none) :
      Copied pgdir va buf m (.error .nullPte)

theorem frame_of_walk {a : ℕ} {pte : Pte} (h : pgdir.walk a = some pte) :
    pgdir.frame a = pte.ppn := by
  simp [frame, h]

/-- The first bad page of the rest of a range. -/
theorem FirstBad.next {len j : ℕ} (hlen : 0 < len) (hfirst : pgdir.UserPage (va.toNat / pgsize))
    (h : FirstBad pgdir (nextPage va) (len - min (pgsize - va.toNat % pgsize) len) j) :
    FirstBad pgdir va len (j + 1) := by
  refine ⟨?_, fun i hi => ?_, ?_⟩
  · rw [pageCount_nextPage va hlen]
    exact Nat.succ_lt_succ h.lt
  · cases i with
    | zero => rwa [pageAt_zero]
    | succ i =>
      rw [← pageAt_nextPage]
      exact h.before i (by omega)
  · rw [← pageAt_nextPage]
    exact h.bad

/-- What has been stored of the rest of a range, with the first part. -/
theorem Stored.next (buf : List Byte) (hpos : 0 < pgsize - va.toNat % pgsize) (cnt : ℕ)
    (h : Stored pgdir (nextPage va) ((buf.drop (min (pgsize - va.toNat % pgsize) buf.length)).take cnt)
      (m.store (pgdir.frame (va.toNat / pgsize)) (va.toNat % pgsize)
        (buf.take (min (pgsize - va.toNat % pgsize) buf.length))) m1) :
    Stored pgdir va (buf.take (min (pgsize - va.toNat % pgsize) buf.length + cnt)) m m1 := by
  have hlen : (buf.take (min (pgsize - va.toNat % pgsize) buf.length)).length =
      min (pgsize - va.toNat % pgsize) buf.length := by
    rw [List.length_take]
    omega
  rw [List.take_add]
  refine Stored.append (stored_store ?_) ?_
  · rw [hlen]
    omega
  · rw [hlen]
    by_cases hall : buf.length ≤ pgsize - va.toNat % pgsize
    · -- nothing is left, so it does not matter where the loop would go on
      have hnil : (buf.drop (min (pgsize - va.toNat % pgsize) buf.length)).take cnt = [] := by
        rw [Nat.min_eq_right hall, List.drop_length, List.take_nil]
      rw [hnil] at h ⊢
      exact ⟨nofun, fun k o _ => h.others k o nofun, h.rest⟩
    · rw [nextPage_eq] at h
      rwa [Nat.min_eq_left (by omega)] at h ⊢

/-- A round that has copied something. -/
theorem Copied.next {r : Except Stop (Int × Kmem)} (hlen : 0 < buf.length)
    (hpos : 0 < pgsize - va.toNat % pgsize) (hfirst : pgdir.UserPage (va.toNat / pgsize))
    (h : Copied pgdir (nextPage va) (buf.drop (min (pgsize - va.toNat % pgsize) buf.length))
      (m.store (pgdir.frame (va.toNat / pgsize)) (va.toNat % pgsize)
        (buf.take (min (pgsize - va.toNat % pgsize) buf.length))) r) : Copied pgdir va buf m r := by
  have hdrop := List.length_drop (l := buf) (i := min (pgsize - va.toNat % pgsize) buf.length)
  cases h with
  | all hpages hstored =>
    refine .all (fun j hj => ?_) ?_
    · cases j with
      | zero => rwa [pageAt_zero]
      | succ j =>
        rw [← pageAt_nextPage]
        refine hpages j ?_
        rw [pageCount_nextPage va hlen] at hj
        rw [hdrop]
        exact Nat.lt_of_succ_lt_succ hj
    · have hrest := Stored.next (m := m) buf hpos
        (buf.drop (min (pgsize - va.toNat % pgsize) buf.length)).length (by rwa [List.take_length])
      rwa [hdrop, Nat.add_sub_cancel' (Nat.min_le_right ..), List.take_length] at hrest
  | @refused j m' hbad htable hstored =>
    rw [hdrop] at hbad
    have hmore : pgsize - va.toNat % pgsize < buf.length := by
      by_contra hno
      have hlt := hbad.lt
      rw [Nat.min_eq_right (Nat.not_lt.1 hno), Nat.sub_self] at hlt
      exact absurd hlt (Nat.not_lt_zero j)
    refine .refused (hbad.next hlen hfirst) (by rwa [← pageAt_nextPage]) ?_
    have hrest := Stored.next (m := m) buf hpos (bytesBefore (nextPage va) j) hstored
    rwa [bytesBefore_nextPage, ← Nat.min_eq_left (Nat.le_of_lt hmore)]
  | null hbad htable =>
    rw [hdrop] at hbad
    exact .null (hbad.next hlen hfirst) (by rwa [← pageAt_nextPage])

theorem copyoutLoop_copied (pgdir : Pgdir) : ∀ (fuel : ℕ) (va : Word) (buf : List Byte) (m : Kmem),
    buf.length ≤ fuel → Copied pgdir va buf m (copyoutLoop pgdir fuel va buf m) := by
  have hdone : ∀ (va : Word) (m : Kmem), Copied pgdir va [] m (.ok (0, m)) := fun va m =>
    .all (fun j hj => absurd hj (by simp [pageCount])) (.nil pgdir va m)
  intro fuel
  induction fuel with
  | zero =>
    intro va buf m hfuel
    obtain rfl := List.length_eq_zero_iff.1 (Nat.le_zero.1 hfuel)
    exact hdone va m
  | succ fuel ih =>
    intro va buf m hfuel
    by_cases hbuf : buf = []
    · subst hbuf
      exact hdone va m
    · have hlen := List.length_pos_of_ne_nil hbuf
      have hpos : 0 < pgsize - va.toNat % pgsize := Nat.sub_pos_of_lt (Nat.mod_lt _ (by decide))
      have hcount := pageCount_nextPage va hlen
      have hzero : 0 < pageCount va buf.length := by omega
      rw [copyoutLoop, uva2ka]
      swap
      · exact hbuf
      cases hwalk : pgdir.walk (va.toNat / pgsize) with
      | none =>
        refine .null (j := 0) ⟨hzero, by simp, ?_⟩ (by rw [pageAt_zero, hwalk])
        rintro ⟨pte, hpte, -⟩
        rw [pageAt_zero, hwalk] at hpte
        cases hpte
      | some pte =>
        by_cases huser : pte.has pteP ∧ pte.has pteU
        · have hfirst : pgdir.UserPage (va.toNat / pgsize) := ⟨pte, hwalk, huser⟩
          dsimp only
          rw [if_pos huser]
          have hrest := ih (nextPage va) (buf.drop (min (pgsize - va.toNat % pgsize) buf.length))
            (m.store pte.ppn (va.toNat % pgsize) (buf.take (min (pgsize - va.toNat % pgsize) buf.length)))
            (by rw [List.length_drop]; omega)
          rw [← frame_of_walk hwalk] at hrest ⊢
          exact hrest.next hlen hpos hfirst
        · dsimp only
          rw [if_neg huser]
          refine .refused (j := 0) ⟨hzero, by simp, ?_⟩ (by simp [pageAt_zero, hwalk]) ?_
          · rintro ⟨q, hq, hqu⟩
            rw [pageAt_zero, hwalk] at hq
            cases hq
            exact huser hqu
          · rw [bytesBefore, Nat.zero_mul, Nat.zero_sub, List.take_zero]
            exact .nil pgdir va m

theorem copyout_copied (pgdir : Pgdir) (va : Word) (buf : List Byte) (m : Kmem) :
    Copied pgdir va buf m (pgdir.copyout va buf m) :=
  copyoutLoop_copied pgdir buf.length va buf m (Nat.le_refl _)

/-- `copyout` returns 0 if all pages of the range are the user's, and has then stored the bytes;
otherwise it returns `-1`, and has stored to the pages before the first one that is not the
user's. -/
def CopiesOut (pgdir : Pgdir) (va : Word) (buf : List Byte) (m : Kmem) : Prop :=
  (∃ m', pgdir.copyout va buf m = .ok (0, m') ∧
    (∀ j < pageCount va buf.length, pgdir.UserPage (pageAt va j)) ∧ Stored pgdir va buf m m') ∨
  ∃ m' j, pgdir.copyout va buf m = .ok (-1, m') ∧ FirstBad pgdir va buf.length j ∧
    Stored pgdir va (buf.take (bytesBefore va j)) m m'

/-- There is a first bad page or none. -/
theorem FirstBad.unique {len i j : ℕ} (hi : FirstBad pgdir va len i)
    (hj : FirstBad pgdir va len j) : i = j := by
  rcases Nat.lt_trichotomy i j with hlt | heq | hlt
  · exact absurd (hj.before i hlt) hi.bad
  · exact heq
  · exact absurd (hi.before j hlt) hj.bad

/-- `copyout` does what it should exactly if the first page that is not the user's has a page
    table. -/
theorem copyout_sound_iff (pgdir : Pgdir) (va : Word) (buf : List Byte) (m : Kmem) :
    CopiesOut pgdir va buf m ↔ ∀ j, FirstBad pgdir va buf.length j →
    pgdir.walk (pageAt va j) ≠ none := by
  have hcopied := copyout_copied pgdir va buf m
  constructor
  · intro hsound j hj
    generalize hr : pgdir.copyout va buf m = r at hcopied
    cases hcopied with
    | all hpages hstored => exact absurd (hpages j hj.lt) hj.bad
    | refused hbad htable hstored => exact hj.unique hbad ▸ htable
    | null hbad htable =>
      rcases hsound with ⟨m', heq, -⟩ | ⟨m', _, heq, -⟩
      · cases heq.symm.trans hr
      · cases heq.symm.trans hr
  · intro htables
    generalize hr : pgdir.copyout va buf m = r at hcopied
    cases hcopied with
    | all hpages hstored => exact .inl ⟨_, hr, hpages, hstored⟩
    | refused hbad htable hstored => exact .inr ⟨_, _, hr, hbad, hstored⟩
    | null hbad htable => exact absurd htable (htables _ hbad)

/-- No page table maps an address between the memory of the kernel and the devices. -/
theorem copyout_reads_null : ¬CopiesOut upperOnly 0xC0000000 [0] fewPages := by
  have hr : upperOnly.copyout 0xC0000000 [0] fewPages = .error .nullPte := rfl
  rintro (⟨m', heq, -⟩ | ⟨m', j, heq, -⟩)
  · cases heq.symm.trans hr
  · cases heq.symm.trans hr

end Pgdir

end Uvm

end Xv6
