import Xv6.Fs.Content
import Xv6.Fs.Dir

set_option autoImplicit false

/-! # Directories as files (`namecmp`, `dirlookup` and `dirlink` of `fs.c`)

A directory is a file of entries of sixteen bytes. `dirlookup` and `dirlink` are followed here down
to `readi`, `writei` and the bytes of the entries, on the file system of `Content`.

What the two functions see of a name is its bytes up to the first zero, at most `DIRSIZ` of them
(`cut`). If the used entries of a directory have different names in this sense, the directory is a
finite map (`directory_is_map`).

`dirlookup` returns the number of the inode and not an entry of the inode cache, and the `iput` of
the inode that `dirlink` has found is left out: they do not touch the directory. -/

namespace Xv6

/-! ## Strings -/

/-- `strncmp` of the bytes at two addresses. -/
def strncmp : ℕ → (ℕ → Byte) → (ℕ → Byte) → Int
  | 0, _, _ => 0
  | n + 1, p, q =>
    if p 0 ≠ 0 ∧ p 0 = q 0 then strncmp n (fun i => p (i + 1)) fun i => q (i + 1)
    else (p 0).toNat - (q 0).toNat

/-- The bytes that `strncpy` stores. -/
def strncpy : ℕ → (ℕ → Byte) → List Byte
  | 0, _ => []
  | n + 1, t => if t 0 = 0 then List.replicate (n + 1) 0 else t 0 :: strncpy n fun i => t (i + 1)

/-- The bytes at an address up to the first zero, at most `n`. -/
def cut : ℕ → (ℕ → Byte) → List Byte
  | 0, _ => []
  | n + 1, p => if p 0 = 0 then [] else p 0 :: cut n fun i => p (i + 1)

theorem strncmp_eq_zero (n : ℕ) : ∀ p q : ℕ → Byte, strncmp n p q = 0 ↔ cut n p = cut n q := by
  induction n with
  | zero =>
    intro p q
    exact iff_of_true rfl rfl
  | succ n ih =>
    intro p q
    rw [strncmp, cut, cut]
    by_cases hsame : p 0 = q 0
    · by_cases hzero : p 0 = 0
      · rw [if_neg fun h => h.1 hzero, if_pos hzero, if_pos (hsame ▸ hzero), hsame]
        simp
      · rw [if_pos ⟨hzero, hsame⟩, if_neg hzero, if_neg (hsame ▸ hzero), ih, hsame]
        simp
    · have hdiff : ((p 0).toNat : Int) - (q 0).toNat ≠ 0 :=
        fun h => hsame (BitVec.eq_of_toNat_eq (by omega))
      rw [if_neg fun h => hsame h.2]
      refine iff_of_false hdiff fun heq => ?_
      split_ifs at heq with hp hq
      · exact hsame (hp.trans hq.symm)
      · exact hsame (List.cons.inj heq).1

theorem length_strncpy (n : ℕ) : ∀ t : ℕ → Byte, (strncpy n t).length = n := by
  induction n with
  | zero =>
    intro t
    rfl
  | succ n ih =>
    intro t
    rw [strncpy]
    split_ifs
    · exact List.length_replicate
    · rw [List.length_cons, ih]

/-- What has been copied is the name. -/
theorem cut_strncpy (n : ℕ) :
    ∀ t : ℕ → Byte, (cut n fun i => (strncpy n t).getD i 0) = cut n t := by
  induction n with
  | zero =>
    intro t
    rfl
  | succ n ih =>
    intro t
    rw [cut, cut, strncpy]
    by_cases ht : t 0 = 0
    · rw [if_pos ht, if_pos ht]
      simp
    · rw [if_neg ht, if_neg ht]
      simp only [List.getD_cons_zero, List.getD_cons_succ]
      rw [if_neg ht, ih]

/-! ## Entries -/

def tDir : BitVec 16 := 1

/-- The fields of the entry in sixteen bytes. -/
def deInum (de : List Byte) : ℕ := (de.getD 0 0).toNat + 256 * (de.getD 1 0).toNat

def deName (de : List Byte) (i : ℕ) : Byte := de.getD (2 + i) 0

/-- The entry that `dirlink` writes; `de.inum` has 16 bits. -/
def newDirent (inum : ℕ) (name : ℕ → Byte) : List Byte :=
  .ofNat 8 inum :: .ofNat 8 (inum / 256) :: strncpy dirsiz name

theorem length_newDirent (inum : ℕ) (name : ℕ → Byte) :
    (newDirent inum name).length = direntSize := by
  simp [newDirent, length_strncpy]

variable {inum : ℕ}

theorem deInum_newDirent (h : inum < 2 ^ 16) (name : ℕ → Byte) :
    deInum (newDirent inum name) = inum := by
  simp only [deInum, newDirent, List.getD_cons_zero, List.getD_cons_succ, BitVec.toNat_ofNat]
  omega

theorem cut_newDirent (inum : ℕ) (name : ℕ → Byte) :
    cut dirsiz (deName (newDirent inum name)) = cut dirsiz name := by
  have hname : deName (newDirent inum name) = fun i => (strncpy dirsiz name).getD i 0 := by
    funext i
    simp only [deName, newDirent]
    rw [show 2 + i = i + 1 + 1 by omega, List.getD_cons_succ, List.getD_cons_succ]
  rw [hname, cut_strncpy]

/-! ## The functions -/

inductive DirStop
  | fs (e : FsPanic)
  | notDir
  /-- `panic("dirlink read")`. -/
  | read
  | dirlink
  | unlink
  deriving DecidableEq, Repr

namespace Fs

variable {v : FsBuild}

/-- The loop of `dirlookup`. -/
def lookupLoop (rdev : DevswRead) (name : ℕ → Byte) :
    ℕ → ℕ → Inode v → Fs → Except DirStop (Option (ℕ × ℕ) × Inode v × Fs)
  | 0, _, dp, fs => .ok (none, dp, fs)
  | fuel + 1, off, dp, fs =>
    if off < dp.size.toNat then do
      let (r, de, dp, fs) ← (readi rdev dp (.ofNat 32 off) (.ofNat 32 direntSize) fs).mapError .fs
      if r ≠ direntSize then .error .read
      else if deInum de ≠ 0 ∧ strncmp dirsiz name (deName de) = 0 then
        .ok (some (deInum de, off), dp, fs)
      else lookupLoop rdev name fuel (off + direntSize) dp fs
    else .ok (none, dp, fs)

/-- The number of the inode that the name has in `dp`, and the offset of the entry. -/
def dirlookup (rdev : DevswRead) (dp : Inode v) (name : ℕ → Byte) (fs : Fs) :
    Except DirStop (Option (ℕ × ℕ) × Inode v × Fs) :=
  if dp.type ≠ tDir then .error .notDir else lookupLoop rdev name dp.size.toNat 0 dp fs

/-- The loop of `dirlink`, which looks for an empty entry. -/
def emptyLoop (rdev : DevswRead) : ℕ → ℕ → Inode v → Fs → Except DirStop (ℕ × Inode v × Fs)
  | 0, off, dp, fs => .ok (off, dp, fs)
  | fuel + 1, off, dp, fs =>
    if off < dp.size.toNat then do
      let (r, de, dp, fs) ← (readi rdev dp (.ofNat 32 off) (.ofNat 32 direntSize) fs).mapError .fs
      if r ≠ direntSize then .error .read
      else if deInum de = 0 then .ok (off, dp, fs)
      else emptyLoop rdev fuel (off + direntSize) dp fs
    else .ok (off, dp, fs)

/-- Write an entry, where the source stops with `e` if it cannot be written. -/
def putDirent (wdev : Devsw) (e : DirStop) (dp : Inode v) (de : List Byte) (off : ℕ) (fs : Fs) :
    Except DirStop (Inode v × Fs) := do
  let (r, dp, fs) ← (writei wdev dp (fun i => de.getD i 0) (.ofNat 32 off)
    (.ofNat 32 direntSize) fs).mapError .fs
  if r ≠ direntSize then .error e else .ok (dp, fs)

def dirlink (wdev : Devsw) (rdev : DevswRead) (dp : Inode v) (name : ℕ → Byte) (inum : ℕ)
    (fs : Fs) :
    Except DirStop (Int × Inode v × Fs) := do
  let (found, dp, fs) ← dirlookup rdev dp name fs
  if found.isSome then .ok (-1, dp, fs)
  else do
    let (off, dp, fs) ← emptyLoop rdev dp.size.toNat 0 dp fs
    let (dp, fs) ← putDirent wdev .dirlink dp (newDirent inum name) off fs
    .ok (0, dp, fs)

/-- The entry at `off` cleared, as `sys_unlink` does. -/
def clearDirent (wdev : Devsw) (dp : Inode v) (off : ℕ) (fs : Fs) : Except DirStop (Inode v × Fs) :=
  putDirent wdev .unlink dp (List.replicate direntSize 0) off fs

end Fs

/-! ## Contents -/

namespace DirFile

variable {c : List Byte} {name : ℕ → Byte} {e : ℕ}

/-- The number of entries. -/
def count (c : List Byte) : ℕ := c.length / direntSize

/-- Entry `e`. -/
def slot (c : List Byte) (e : ℕ) : List Byte := (c.drop (direntSize * e)).take direntSize

/-- Entry `e` is in use, and has the name. -/
def Hit (c : List Byte) (name : ℕ → Byte) (e : ℕ) : Prop :=
  deInum (slot c e) ≠ 0 ∧ cut dirsiz (deName (slot c e)) = cut dirsiz name

instance (c : List Byte) (name : ℕ → Byte) (e : ℕ) : Decidable (Hit c name e) :=
  inferInstanceAs (Decidable (_ ∧ _))

/-- The first entry with the name. -/
def find (c : List Byte) (name : ℕ → Byte) : Option ℕ :=
  (List.range (count c)).find? fun e => Hit c name e

/-- The first empty entry, or the end. -/
def vacant (c : List Byte) : ℕ :=
  ((List.range (count c)).find? fun e => deInum (slot c e) = 0).getD (count c)

/-- What the directory gives for the name: an inode number and an offset. -/
def get (c : List Byte) (name : ℕ → Byte) : Option (ℕ × ℕ) :=
  (find c name).map fun e => (deInum (slot c e), direntSize * e)

/-- Used entries have different names. -/
def Distinct (c : List Byte) : Prop := ∀ e < count c, ∀ e' < count c, deInum (slot c e) ≠ 0 →
    deInum (slot c e') ≠ 0 →
  cut dirsiz (deName (slot c e)) = cut dirsiz (deName (slot c e')) → e = e'

/-- Only what `cut` leaves of a name counts. -/
theorem get_congr {name' : ℕ → Byte} (h : cut dirsiz name' = cut dirsiz name) :
    get c name' = get c name := by
  have hhit : ∀ e, Hit c name' e ↔ Hit c name e := by
    intro e
    rw [Hit, Hit, h]
  simp only [get, find, hhit]

theorem find_eq_some (hd : Distinct c) : find c name = some e ↔ e < count c ∧ Hit c name e := by
  constructor
  · intro h
    exact ⟨List.mem_range.1 (List.mem_of_find?_eq_some h), by simpa using List.find?_some h⟩
  · rintro ⟨he, hhit⟩
    cases hf : find c name with
    | none => exact absurd hhit (by simpa using List.find?_eq_none.1 hf e (List.mem_range.2 he))
    | some e' =>
      have he' : e' < count c := List.mem_range.1 (List.mem_of_find?_eq_some hf)
      have hhit' : Hit c name e' := by simpa using List.find?_some hf
      rw [hd e' he' e he hhit'.1 hhit.1 (hhit'.2.trans hhit.2.symm)]

theorem find_eq_none : find c name = none ↔ ∀ e < count c, ¬Hit c name e := by
  simp [find, List.find?_eq_none]

theorem vacant_le (c : List Byte) : vacant c ≤ count c := by
  unfold vacant
  cases hf : (List.range (count c)).find? fun e => decide (deInum (slot c e) = 0) with
  | none => exact Nat.le_refl _
  | some e => exact Nat.le_of_lt (List.mem_range.1 (List.mem_of_find?_eq_some hf))

theorem deInum_vacant (h : vacant c < count c) : deInum (slot c (vacant c)) = 0 := by
  unfold vacant at h ⊢
  cases hf : (List.range (count c)).find? fun e => decide (deInum (slot c e) = 0) with
  | none =>
    rw [hf] at h
    exact absurd h (Nat.lt_irrefl _)
  | some e => simpa using List.find?_some hf

/-! ## One entry written -/

/-- From `c` to `c'` entry `e` has been written. -/
structure Puts (c : List Byte) (e : ℕ) (de : List Byte) (c' : List Byte) : Prop where
  aligned : c'.length % direntSize = 0
  length : count c' = max (count c) (e + 1)
  entry : ∀ x < count c', slot c' x = if x = e then de else slot c x

theorem puts_splice {de : List Byte} (halign : c.length % direntSize = 0) (he : e ≤ count c)
    (hde : de.length = direntSize) :
    Puts c e de (Fs.splice c (direntSize * e) direntSize fun i => de.getD i 0) := by
  have hoff : direntSize * e ≤ c.length := by
    simp only [count, direntSize] at he ⊢
    omega
  have hlen : (Fs.splice c (direntSize * e) direntSize fun i => de.getD i 0).length =
      max c.length (direntSize * e + direntSize) := by
    simp only [Fs.splice, List.length_append, List.length_take, List.length_map, List.length_range,
      List.length_drop]
    omega
  refine ⟨?_, ?_, fun x hx => List.ext_getElem? fun j => ?_⟩
  · rw [hlen]
    simp only [direntSize] at halign ⊢
    omega
  · simp only [count, hlen, direntSize] at halign ⊢
    omega
  · rw [slot, List.getElem?_take, List.getElem?_drop, Fs.getElem?_splice hoff]
    by_cases hj : j < direntSize
    · rw [if_pos hj]
      by_cases hxe : x = e
      · subst hxe
        have hjde : j < de.length := by omega
        rw [if_pos rfl, if_pos (by omega), Nat.add_sub_cancel_left, List.getD_eq_getElem?_getD,
          List.getElem?_eq_getElem hjde, Option.getD_some]
      · rw [if_neg hxe, if_neg (by simp only [direntSize] at hj ⊢; omega), slot, List.getElem?_take,
          if_pos hj, List.getElem?_drop]
    · rw [if_neg hj]
      by_cases hxe : x = e
      · rw [if_pos hxe, List.getElem?_eq_none (by omega)]
      · rw [if_neg hxe, slot, List.getElem?_take, if_neg hj]

/-- Entry `e` is none of the names'. -/
theorem Puts.hit {de c' : List Byte} (h : Puts c e de c') {x : ℕ} (hx : x < count c')
    (hxe : x ≠ e) :
    Hit c' name x ↔ Hit c name x := by
  rw [Hit, Hit, h.entry x hx, if_neg hxe]

/-- A new name in an empty entry, or at the end. -/
theorem Puts.insert {c' : List Byte} (hd : Distinct c) (h : Puts c e (newDirent inum name) c')
    (hfree : e < count c → deInum (slot c e) = 0) (he : e ≤ count c) (hnone : find c name = none)
    (hpos : 0 < inum) (hlt : inum < 2 ^ 16) :
    Distinct c' ∧ ∀ name', get c' name' =
      if cut dirsiz name' = cut dirsiz name then some (inum, direntSize * e) else get c name' := by
  have he' : e < count c' := by
    rw [h.length]
    omega
  have hslot : slot c' e = newDirent inum name := by rw [h.entry e he', if_pos rfl]
  have hbound : ∀ {x}, x < count c' → x ≠ e → x < count c := by
    intro x hx hxe
    rw [h.length] at hx
    omega
  have hgrow : ∀ {x}, x < count c → x < count c' := by
    intro x hx
    rw [h.length]
    omega
  -- an old entry does not have the new name
  have hother : ∀ x < count c', x ≠ e → deInum (slot c' x) ≠ 0 →
      cut dirsiz (deName (slot c' x)) ≠ cut dirsiz name := by
    intro x hx hxe hused hname
    exact find_eq_none.1 hnone x (hbound hx hxe) ((h.hit hx hxe).1 ⟨hused, hname⟩)
  have hdist : Distinct c' := by
    intro x hx y hy hux huy hname
    by_cases hxe : x = e
    · by_cases hye : y = e
      · rw [hxe, hye]
      · subst hxe
        rw [hslot, cut_newDirent] at hname
        exact absurd hname.symm (hother y hy hye huy)
    · by_cases hye : y = e
      · subst hye
        rw [hslot, cut_newDirent] at hname
        exact absurd hname (hother x hx hxe hux)
      · rw [h.entry x hx, if_neg hxe] at hux hname
        rw [h.entry y hy, if_neg hye] at huy hname
        exact hd x (hbound hx hxe) y (hbound hy hye) hux huy hname
  refine ⟨hdist, fun name' => ?_⟩
  by_cases hname : cut dirsiz name' = cut dirsiz name
  · have hfind : find c' name' = some e := by
      refine (find_eq_some hdist).2 ⟨he', ?_⟩
      rw [Hit, hslot, deInum_newDirent hlt, cut_newDirent]
      exact ⟨by omega, hname.symm⟩
    rw [if_pos hname, get, hfind, Option.map_some, hslot, deInum_newDirent hlt]
  · rw [if_neg hname, get, get]
    cases hf : find c name' with
    | some x =>
      obtain ⟨hx, hhit⟩ := (find_eq_some hd).1 hf
      have hxe : x ≠ e := by
        rintro rfl
        exact hhit.1 (hfree hx)
      rw [(find_eq_some hdist).2 ⟨hgrow hx, (h.hit (hgrow hx) hxe).2 hhit⟩, Option.map_some,
        Option.map_some, h.entry x (hgrow hx), if_neg hxe]
    | none =>
      have hnone' : find c' name' = none := by
        refine find_eq_none.2 fun x hx hhit => ?_
        by_cases hxe : x = e
        · subst hxe
          rw [Hit, hslot, cut_newDirent] at hhit
          exact hname hhit.2.symm
        · exact find_eq_none.1 hf x (hbound hx hxe) ((h.hit hx hxe).1 hhit)
      rw [hnone']
      rfl

theorem deInum_zero : deInum (List.replicate direntSize 0) = 0 := by decide

/-- The entry of a name cleared. -/
theorem Puts.erase {c' : List Byte} (hd : Distinct c)
    (h : Puts c e (List.replicate direntSize 0) c') (hfind : find c name = some e) :
    Distinct c' ∧ ∀ name', get c' name' = if cut dirsiz name' = cut dirsiz name then none else get c name' := by
  obtain ⟨he, hhit⟩ := (find_eq_some hd).1 hfind
  have hcount : count c' = count c := by
    rw [h.length]
    omega
  have hslot : slot c' e = List.replicate direntSize 0 := by rw [h.entry e (by omega), if_pos rfl]
  have hused : ∀ {x}, deInum (slot c' x) ≠ 0 → x ≠ e := by
    rintro x hx rfl
    rw [hslot] at hx
    exact hx deInum_zero
  have hdist : Distinct c' := by
    intro x hx y hy hux huy hname
    have hxe := hused hux
    have hye := hused huy
    rw [h.entry x hx, if_neg hxe] at hux hname
    rw [h.entry y hy, if_neg hye] at huy hname
    exact hd x (hcount ▸ hx) y (hcount ▸ hy) hux huy hname
  refine ⟨hdist, fun name' => ?_⟩
  by_cases hname : cut dirsiz name' = cut dirsiz name
  · have hnone : find c' name' = none := by
      refine find_eq_none.2 fun x hx hhit' => ?_
      have hxe := hused hhit'.1
      have hold := (h.hit hx hxe).1 hhit'
      exact hxe (hd x (hcount ▸ hx) e he hold.1 hhit.1 ((hold.2.trans hname).trans hhit.2.symm))
    rw [if_pos hname, get, hnone]
    rfl
  · rw [if_neg hname, get, get]
    cases hf : find c name' with
    | some x =>
      obtain ⟨hx, hhit'⟩ := (find_eq_some hd).1 hf
      have hxe : x ≠ e := by
        rintro rfl
        exact hname (hhit'.2.symm.trans hhit.2)
      rw [(find_eq_some hdist).2 ⟨hcount.symm ▸ hx, (h.hit (hcount.symm ▸ hx) hxe).2 hhit'⟩,
        Option.map_some, Option.map_some, h.entry x (hcount.symm ▸ hx), if_neg hxe]
    | none =>
      have hnone' : find c' name' = none := by
        refine find_eq_none.2 fun x hx hhit' => ?_
        exact find_eq_none.1 hf x (hcount ▸ hx) ((h.hit hx (hused hhit'.1)).1 hhit')
      rw [hnone']
      rfl

end DirFile

namespace Fs

open DirFile

variable {v : FsBuild} {fs : Fs} {dp : Inode v} {rdev : DevswRead} {name : ℕ → Byte} {e : ℕ}

/-! ## The loops on the content -/

/-- A directory of whole entries, all of whose blocks are there. -/
structure IsDir (fs : Fs) (dp : Inode v) : Prop where
  type : dp.type = tDir
  aligned : dp.size.toNat % direntSize = 0
  size_le : dp.size.toNat ≤ v.maxFile * bsize
  mapped : ∀ x < dp.size.toNat, lookup fs dp (x / bsize) ≠ 0

theorem IsDir.not_dev (h : IsDir fs dp) : dp.type ≠ tDev := by
  rw [h.type]
  decide

theorem count_content (fs : Fs) (dp : Inode v) :
    count (content fs dp) = dp.size.toNat / direntSize := by
  rw [count, length_content]

/-- The bounds of the entries. -/
theorem IsDir.entry_le (h : IsDir fs dp) (he : e < count (content fs dp)) :
    direntSize * e + direntSize ≤ dp.size.toNat ∧ direntSize * e + direntSize < 2 ^ 32 := by
  have hsize := h.size_le
  have hpow := maxFile_mul_bsize_lt v
  rw [count_content] at he
  simp only [direntSize] at he ⊢
  omega

theorem IsDir.lt_size (h : IsDir fs dp) :
    direntSize * e < dp.size.toNat ↔ e < count (content fs dp) := by
  have halign := h.aligned
  rw [count_content]
  simp only [direntSize] at halign ⊢
  omega

theorem IsDir.readi (h : IsDir fs dp) (he : e < count (content fs dp)) :
    readi rdev dp (.ofNat 32 (direntSize * e)) (.ofNat 32 direntSize) fs =
      .ok (direntSize, slot (content fs dp) e, dp, fs) := by
  obtain ⟨hle, hlt⟩ := h.entry_le he
  have hoff : (BitVec.ofNat 32 (direntSize * e)).toNat = direntSize * e := by
    rw [BitVec.toNat_ofNat, Nat.mod_eq_of_lt (by omega)]
  have hn : (BitVec.ofNat 32 direntSize).toNat = direntSize := rfl
  rw [readi_content rdev h.not_dev h.mapped h.size_le (by rw [hoff, hn]; omega), hoff, hn,
    Nat.min_eq_left (by omega)]
  rfl

theorem lookupLoop_eq (rdev : DevswRead) (name : ℕ → Byte) (h : IsDir fs dp) :
    ∀ fuel e, count (content fs dp) ≤ e + fuel → lookupLoop rdev name fuel (direntSize * e) dp fs =
      .ok (((List.range' e (count (content fs dp) - e)).find? fun e => Hit (content fs dp) name e).map fun e =>
        (deInum (slot (content fs dp) e), direntSize * e), dp, fs) := by
  intro fuel
  induction fuel with
  | zero =>
    intro e hfuel
    rw [show count (content fs dp) - e = 0 by omega]
    rfl
  | succ fuel ih =>
    intro e hfuel
    rw [lookupLoop]
    by_cases he : e < count (content fs dp)
    · rw [if_pos (h.lt_size.2 he), h.readi he]
      simp only [Except.mapError, bind, Except.bind, ne_eq, not_true_eq_false, if_false]
      rw [show count (content fs dp) - e = count (content fs dp) - (e + 1) + 1 by omega,
        List.range'_succ, List.find?_cons]
      by_cases hhit : Hit (content fs dp) name e
      · rw [if_pos ⟨hhit.1, (strncmp_eq_zero ..).2 hhit.2.symm⟩, decide_eq_true hhit]
        rfl
      · rw [if_neg fun hp => hhit ⟨hp.1, ((strncmp_eq_zero ..).1 hp.2).symm⟩, decide_eq_false hhit]
        exact ih (e + 1) (by omega)
    · rw [if_neg (h.lt_size.not.2 he), show count (content fs dp) - e = 0 by omega]
      rfl

/-- What `dirlookup` finds; it changes nothing. -/
theorem IsDir.dirlookup (h : IsDir fs dp) (rdev : DevswRead) (name : ℕ → Byte) :
    dirlookup rdev dp name fs = .ok (get (content fs dp) name, dp, fs) := by
  rw [Fs.dirlookup, if_neg (not_not.2 h.type)]
  have hloop := lookupLoop_eq rdev name h dp.size.toNat 0 (by
    rw [count_content]
    simp only [direntSize]
    omega)
  rw [Nat.mul_zero, Nat.sub_zero, ← List.range_eq_range'] at hloop
  exact hloop

theorem emptyLoop_eq (rdev : DevswRead) (h : IsDir fs dp) :
    ∀ fuel e, count (content fs dp) ≤ e + fuel → e ≤ count (content fs dp) →
    emptyLoop rdev fuel (direntSize * e) dp fs =
      .ok (direntSize * ((List.range' e (count (content fs dp) - e)).find? fun e =>
        deInum (slot (content fs dp) e) = 0).getD (count (content fs dp)), dp, fs) := by
  intro fuel
  induction fuel with
  | zero =>
    intro e hfuel hle
    rw [show e = count (content fs dp) by omega, Nat.sub_self]
    rfl
  | succ fuel ih =>
    intro e hfuel hle
    rw [emptyLoop]
    by_cases he : e < count (content fs dp)
    · rw [if_pos (h.lt_size.2 he), h.readi he]
      simp only [Except.mapError, bind, Except.bind, ne_eq, not_true_eq_false, if_false]
      rw [show count (content fs dp) - e = count (content fs dp) - (e + 1) + 1 by omega,
        List.range'_succ, List.find?_cons]
      by_cases hfree : deInum (slot (content fs dp) e) = 0
      · rw [if_pos hfree, decide_eq_true hfree]
        rfl
      · rw [if_neg hfree, decide_eq_false hfree]
        exact ih (e + 1) (by omega) (by omega)
    · obtain rfl : e = count (content fs dp) := by omega
      rw [Nat.sub_self, if_neg (h.lt_size.not.2 (Nat.lt_irrefl _))]
      rfl

/-- The offset at which `dirlink` writes. -/
theorem IsDir.emptyLoop (h : IsDir fs dp) (rdev : DevswRead) :
    emptyLoop rdev dp.size.toNat 0 dp fs = .ok (direntSize * vacant (content fs dp), dp, fs) := by
  have hloop := emptyLoop_eq rdev h dp.size.toNat 0 (by
    rw [count_content]
    simp only [direntSize]
    omega) (Nat.zero_le _)
  rw [Nat.mul_zero, Nat.sub_zero, ← List.range_eq_range'] at hloop
  exact hloop

/-! ## Writing an entry -/

section

variable {data ninodes i : ℕ} {node : ℕ → Inode v} {de : List Byte}

theorem WellFormed.isDir (h : WellFormed data ninodes fs node) (hi : i < ninodes)
    (hdir : (node i).type = tDir)
    (halign : (node i).size.toNat % direntSize = 0) : IsDir fs (node i) :=
  ⟨hdir, halign, h.size_le i hi, h.mapped i hi⟩

/-- An entry lies in one block. -/
theorem covered_dirent (e : ℕ) :
    covered (direntSize * e) direntSize = {direntSize * e / bsize} := by
  rw [covered, if_neg (by decide), show (direntSize * e + direntSize - 1) / bsize =
    direntSize * e / bsize by
    simp only [direntSize, bsize]
    omega]
  exact Finset.Icc_self _

theorem entry_not_tooFar (he : e ≤ count (content fs dp))
    (hmax : direntSize * e + direntSize ≤ v.maxFile * bsize) :
    (BitVec.ofNat 32 (direntSize * e)).toNat = direntSize * e ∧
      ¬TooFar dp (.ofNat 32 (direntSize * e)) (.ofNat 32 direntSize) := by
  have hpow := maxFile_mul_bsize_lt v
  have hoff : (BitVec.ofNat 32 (direntSize * e)).toNat = direntSize * e := by
    rw [BitVec.toNat_ofNat, Nat.mod_eq_of_lt (by omega)]
  have hn : (BitVec.ofNat 32 direntSize).toNat = direntSize := rfl
  refine ⟨hoff, ?_⟩
  rw [count_content] at he
  rw [TooFar, hoff, hn]
  simp only [direntSize] at he hmax ⊢
  omega

/-- The inode `i` is now the directory `dp'`, in which the names are found as `names` says; the
other inodes are as before. -/
structure Becomes (rdev : DevswRead) (data ninodes : ℕ) (fs : Fs) (node : ℕ → Inode v) (i : ℕ)
    (dp' : Inode v) (fs' : Fs) (names : (ℕ → Byte) → Option (ℕ × ℕ)) : Prop where
  changed : Changed data ninodes fs node i dp' fs'
  isDir : IsDir fs' dp'
  distinct : Distinct (content fs' dp')
  lookups : ∀ name, dirlookup rdev dp' name fs' = .ok (names name, dp', fs')

/-- A directory that is not full. -/
theorem IsDir.room (h : IsDir fs dp) (hsize : dp.size.toNat < v.maxFile * bsize) :
    direntSize * vacant (content fs dp) + direntSize ≤ v.maxFile * bsize := by
  have hle := vacant_le (content fs dp)
  have halign := h.aligned
  rw [count_content] at hle
  simp only [direntSize, bsize] at hle halign hsize ⊢
  omega

section

variable (wdev : Devsw) (rdev : DevswRead) (h : WellFormed data ninodes fs node) (hi : i < ninodes)
  (hdir : IsDir fs (node i))

include h hi hdir

theorem putDirent_ok (stop : DirStop) (he : e ≤ count (content fs (node i)))
    (hde : de.length = direntSize) (hmax : direntSize * e + direntSize ≤ v.maxFile * bsize)
    (hfree : bmapCost fs (node i) (direntSize * e / bsize) ≤ (free fs).card) :
    ∃ dp' fs', putDirent wdev stop (node i) de (direntSize * e) fs = .ok (dp', fs') ∧
      Changed data ninodes fs node i dp' fs' ∧ IsDir fs' dp' ∧
      Puts (content fs (node i)) e de (content fs' dp') := by
  obtain ⟨hoff, hfar⟩ := entry_not_tooFar he hmax
  have hn : (BitVec.ofNat 32 direntSize).toNat = direntSize := rfl
  have hneed : need fs (node i)
      (covered (BitVec.ofNat 32 (direntSize * e)).toNat (BitVec.ofNat 32 direntSize).toNat) ≤
        (free fs).card := by
    rwa [hoff, hn, covered_dirent, need_singleton]
  obtain ⟨dp', fs', hwrite, hchanged, hcontent, htype⟩ :=
    writei_changed wdev h hi hdir.not_dev (fun k => de.getD k 0) hfar hneed
  rw [hoff, hn] at hcontent
  have hputs : Puts (content fs (node i)) e de (content fs' dp') := by
    rw [hcontent]
    exact puts_splice (by rw [length_content]; exact hdir.aligned) he hde
  have hself : Function.update node i dp' i = dp' := Function.update_self ..
  refine ⟨dp', fs', ?_, hchanged, ⟨htype.trans hdir.type, ?_, ?_, ?_⟩, hputs⟩
  · rw [putDirent, hwrite]
    simp [Except.mapError, bind, Except.bind]
  · rw [← length_content fs' dp']
    exact hputs.aligned
  · have hle := hchanged.wellFormed.size_le i hi
    rwa [hself] at hle
  · have hmapped := hchanged.wellFormed.mapped i hi
    rwa [hself] at hmapped

theorem putDirent_noBlocks (stop : DirStop) (he : e ≤ count (content fs (node i)))
    (hmax : direntSize * e + direntSize ≤ v.maxFile * bsize)
    (hfree : (free fs).card < bmapCost fs (node i) (direntSize * e / bsize)) :
    putDirent wdev stop (node i) de (direntSize * e) fs = .error (.fs .outOfBlocks) := by
  obtain ⟨hoff, hfar⟩ := entry_not_tooFar he hmax
  have hn : (BitVec.ofNat 32 direntSize).toNat = direntSize := rfl
  simp only [TooFar, hoff, hn, not_or, Nat.not_lt, Nat.not_le] at hfar
  obtain ⟨hlo, hwrap, hhi⟩ := hfar
  have hk : direntSize * e / bsize < v.maxFile := by
    rw [Nat.div_lt_iff_lt_mul (by decide)]
    simp only [direntSize] at hhi ⊢
    omega
  have hloop : writeLoop (fun k => de.getD k 0) direntSize direntSize 0 (direntSize * e)
    (node i) fs =
      .error .outOfBlocks := by
    rw [writeLoop, if_pos (by decide), bmap_fails (h.owned i hi) hk hfree]
    rfl
  rw [putDirent, writei, if_neg hdir.not_dev,
    if_neg (by rw [not_or, BitVec.lt_def, add_lt_iff, hoff, hn]; omega),
    if_neg (by rw [toNat_add_of_not_lt (by rw [hoff, hn]; omega), hoff, hn]; omega), hoff,
      hn, hloop]
  rfl

/-- The bytes that `dirlink` leaves. -/
theorem dirlink_puts (inum : ℕ) (hnone : get (content fs (node i)) name = none)
    (hmax : direntSize * vacant (content fs (node i)) + direntSize ≤ v.maxFile * bsize)
    (hfree : bmapCost fs (node i) (direntSize * vacant (content fs (node i)) / bsize) ≤ (free fs).card) :
    ∃ dp' fs', dirlink wdev rdev (node i) name inum fs = .ok (0, dp', fs') ∧
      Changed data ninodes fs node i dp' fs' ∧ IsDir fs' dp' ∧
      Puts (content fs (node i)) (vacant (content fs (node i))) (newDirent inum name)
      (content fs' dp') := by
  obtain ⟨dp', fs', hput, hafter⟩ := putDirent_ok wdev h hi hdir .dirlink (vacant_le _)
    (length_newDirent inum name) hmax hfree
  refine ⟨dp', fs', ?_, hafter⟩
  rw [dirlink, hdir.dirlookup, hnone]
  simp only [bind, Except.bind, Option.isSome_none, Bool.false_eq_true, if_false]
  rw [hdir.emptyLoop]
  simp only [hput]

theorem dirlink_new (hd : Distinct (content fs (node i))) (hpos : 0 < inum)
    (hlt : inum < 2 ^ 16) (hnone : get (content fs (node i)) name = none)
    (hmax : direntSize * vacant (content fs (node i)) + direntSize ≤ v.maxFile * bsize)
    (hfree : bmapCost fs (node i) (direntSize * vacant (content fs (node i)) / bsize) ≤ (free fs).card) :
    ∃ dp' fs', dirlink wdev rdev (node i) name inum fs = .ok (0, dp', fs') ∧
      Becomes rdev data ninodes fs node i dp' fs' fun name' =>
        if cut dirsiz name' = cut dirsiz name then some (inum,
          direntSize * vacant (content fs (node i)))
        else get (content fs (node i)) name' := by
  obtain ⟨dp', fs', hlink, hchanged, hdir', hputs⟩ :=
    dirlink_puts wdev rdev h hi hdir inum hnone hmax hfree
  obtain ⟨hd', hget⟩ :=
    hputs.insert hd deInum_vacant (vacant_le _) (Option.map_eq_none_iff.1 hnone) hpos hlt
  exact ⟨dp', fs', hlink, hchanged, hdir', hd', fun name' => by rw [hdir'.dirlookup, hget]⟩

theorem dirlink_noBlocks (hnone : get (content fs (node i)) name = none)
    (hmax : direntSize * vacant (content fs (node i)) + direntSize ≤ v.maxFile * bsize)
    (hfree : (free fs).card < bmapCost fs (node i) (direntSize * vacant (content fs (node i)) / bsize)) :
    dirlink wdev rdev (node i) name inum fs = .error (.fs .outOfBlocks) := by
  rw [dirlink, hdir.dirlookup, hnone]
  simp only [bind, Except.bind, Option.isSome_none, Bool.false_eq_true, if_false]
  rw [hdir.emptyLoop]
  simp only [putDirent_noBlocks wdev h hi hdir .dirlink (vacant_le _) hmax hfree]

theorem clearDirent_found {inum off : ℕ} (hd : Distinct (content fs (node i)))
    (hget : get (content fs (node i)) name = some (inum, off)) :
    ∃ dp' fs', clearDirent wdev (node i) off fs = .ok (dp', fs') ∧
      Becomes rdev data ninodes fs node i dp' fs' fun name' =>
        if cut dirsiz name' = cut dirsiz name then none else get (content fs (node i)) name' := by
  obtain ⟨e, hfind, hpair⟩ := Option.map_eq_some_iff.1 hget
  cases hpair
  have he := ((find_eq_some hd).1 hfind).1
  have hsize := (hdir.entry_le he).1
  -- the block of the entry is there
  have hcost : bmapCost fs (node i) (direntSize * e / bsize) = 0 :=
    if_pos (hdir.mapped _ (by simp only [direntSize] at hsize ⊢; omega))
  obtain ⟨dp', fs', hput, hchanged, hdir', hputs⟩ :=
    putDirent_ok wdev h hi hdir .unlink (Nat.le_of_lt he)
    (List.length_replicate (n := direntSize) (a := (0 : Byte))) (Nat.le_trans hsize hdir.size_le)
    (by omega)
  obtain ⟨hd', hlookup⟩ := hputs.erase hd hfind
  exact ⟨dp', fs', hput, hchanged, hdir', hd', fun name' => by rw [hdir'.dirlookup, hlookup]⟩

end

theorem dirlink_found (wdev : Devsw) (rdev : DevswRead) (hdir : IsDir fs dp)
    (hsome : (get (content fs dp) name).isSome) :
    dirlink wdev rdev dp name inum fs = .ok (-1, dp, fs) := by
  rw [dirlink, hdir.dirlookup]
  simp only [bind, Except.bind, hsome, if_true]

/-- A directory is a finite map from names, as `cut` leaves them, to the numbers of inodes. -/
theorem directory_is_map (wdev : Devsw) (rdev : DevswRead) (data ninodes : ℕ) (fs : Fs) (node : ℕ →
      Inode v) (i : ℕ)
    (name : ℕ → Byte) (inum : ℕ) (h : WellFormed data ninodes fs node) (hi : i < ninodes)
    (hdir : (node i).type = tDir) (halign : (node i).size.toNat % direntSize = 0)
    (hd : Distinct (content fs (node i))) (hpos : 0 < inum) (hlt : inum < 2 ^ 16) :
    dirlookup rdev (node i) name fs = .ok (get (content fs (node i)) name, node i, fs) ∧
    (∀ name', cut dirsiz name' = cut dirsiz name →
      dirlookup rdev (node i) name' fs = dirlookup rdev (node i) name fs) ∧
    ((get (content fs (node i)) name).isSome →
      dirlink wdev rdev (node i) name inum fs = .ok (-1, node i, fs)) ∧
    (get (content fs (node i)) name = none → (node i).size.toNat < v.maxFile * bsize →
      if bmapCost fs (node i)
      (direntSize * vacant (content fs (node i)) / bsize) ≤ (free fs).card then
        ∃ dp' fs', dirlink wdev rdev (node i) name inum fs = .ok (0, dp', fs') ∧
          Becomes rdev data ninodes fs node i dp' fs' fun name' =>
            if cut dirsiz name' = cut dirsiz name then some (inum,
              direntSize * vacant (content fs (node i)))
            else get (content fs (node i)) name'
      else dirlink wdev rdev (node i) name inum fs = .error (.fs .outOfBlocks)) ∧
    (∀ inum' off, get (content fs (node i)) name = some (inum', off) →
      ∃ dp' fs', clearDirent wdev (node i) off fs = .ok (dp', fs') ∧
        Becomes rdev data ninodes fs node i dp' fs' fun name' =>
          if cut dirsiz name' = cut dirsiz name then none
            else get (content fs (node i)) name') := by
  have his := h.isDir hi hdir halign
  refine ⟨his.dirlookup rdev name, fun name' hname => ?_, dirlink_found wdev rdev his,
    fun hnone hsize => ?_, fun inum' off hget => clearDirent_found wdev rdev h hi his hd hget⟩
  · rw [his.dirlookup, his.dirlookup, get_congr hname]
  · split_ifs with hfree
    · exact dirlink_new wdev rdev h hi his hd hpos hlt hnone (his.room hsize) hfree
    · exact dirlink_noBlocks wdev rdev h hi his hnone (his.room hsize) (Nat.lt_of_not_le hfree)

end

/-- Directories without entries, on the empty disk. -/
def emptyDir (i : ℕ) : Inode .p5 := { emptyNode i with type := tDir }

theorem emptyDir_wellFormed : WellFormed 59 8 emptyDisk emptyDir where
  inum _ _ := rfl
  owned i hi :=
    have h := emptyNode_wellFormed.owned i hi
    ⟨h.size_le, h.data_le, h.bitmap_lt, h.iblock_lt, h.iblock_ne, h.meta_used, h.ptr_range,
      h.ptr_inj⟩
  size_le := emptyNode_wellFormed.size_le
  mapped := emptyNode_wellFormed.mapped
  apart := emptyNode_wellFormed.apart

/-- The name of one letter. -/
def letter (c : Byte) (i : ℕ) : Byte := if i = 0 then c else 0

set_option maxRecDepth 100000 in
/-- A directory with a name: the name cannot be linked again, and another one goes behind it. -/
theorem directory_is_map_secondEntry : ∃ dp fs dp' fs',
    dirlink (fun _ => none) (fun _ => none) (emptyDir 1)
    (letter 0x61) 5 emptyDisk = .ok (0, dp, fs) ∧
    dirlink (fun _ => none) (fun _ => none) dp (letter 0x61) 6 fs = .ok (-1, dp, fs) ∧
    dirlink (fun _ => none) (fun _ => none) dp (letter 0x62) 6 fs = .ok (0, dp', fs') ∧
    dirlookup (fun _ => none) dp' (letter 0x61) fs' = .ok (some (5, 0), dp', fs') ∧
    dirlookup (fun _ => none) dp' (letter 0x62) fs' = .ok (some (6, 16), dp', fs') := by
  have hd : Distinct (content emptyDisk (emptyDir 1)) := fun _ he => absurd he (Nat.not_lt_zero _)
  have hempty := directory_is_map (fun _ => none) (fun _ => none) 59 8 emptyDisk emptyDir 1
    (letter 0x61) 5 emptyDir_wellFormed (by decide) rfl rfl hd (by decide) (by decide)
  have hlink := hempty.2.2.2.1 rfl (by decide)
  rw [if_pos (by decide +kernel)] at hlink
  obtain ⟨dp, fs, hok, hafter⟩ := hlink
  have hfacts : (dirlink (fun _ => none) (fun _ => none) (emptyDir 1) (letter 0x61) 5
      emptyDisk).toOption.any (fun r => decide (get (content r.2.2 r.2.1) (letter 0x61) = some (5, 0) ∧
        get (content r.2.2 r.2.1) (letter 0x62) = none ∧
        r.2.1.size.toNat < FsBuild.p5.maxFile * bsize ∧ vacant (content r.2.2 r.2.1) = 1 ∧
        bmapCost r.2.2 r.2.1 (direntSize * 1 / bsize) ≤ (free r.2.2).card)) = true := by
    decide +kernel
  rw [hok] at hfacts
  obtain ⟨hold, hnew, hsize, hvacant, hcost⟩ := of_decide_eq_true hfacts
  dsimp only at hold hnew hsize hvacant hcost
  have hmap := fun c => directory_is_map (fun _ => none) (fun _ => none) 59 8 fs
    (Function.update emptyDir 1 dp) 1 (letter c) 6 hafter.changed.wellFormed (by decide)
    (by rw [Function.update_self]; exact hafter.isDir.type)
    (by rw [Function.update_self]; exact hafter.isDir.aligned)
    (by rw [Function.update_self]; exact hafter.distinct) (by decide) (by decide)
  simp only [Function.update_self] at hmap
  have hlink := (hmap 0x62).2.2.2.1 hnew hsize
  rw [hvacant, if_pos hcost] at hlink
  obtain ⟨dp', fs', hok', hafter'⟩ := hlink
  refine ⟨dp, fs, dp', fs', hok, (hmap 0x61).2.2.1 (by rw [hold]; rfl), hok', ?_, hafter'.lookups _⟩
  rw [hafter'.lookups, if_neg (by decide), hold]

end Fs

end Xv6
