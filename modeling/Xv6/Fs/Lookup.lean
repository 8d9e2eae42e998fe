import Xv6.Fs.Icache

set_option autoImplicit false

/-! # Path lookup

`resolve` says which inode a path names, as a function of the table of inodes. `namex` finds that
inode, leaves the table as it is and holds one reference to what it returns. -/

namespace Xv6

open Function Stoppable

/-! ## What a path names -/

def resolveLoop (t : Itable) (parent : Bool) : List Name → ℕ → Option (ℕ × Name)
  | [], i => if parent then none else some (i, [])
  | name :: path, i =>
    if (t i).type ≠ .dir then none
    else if parent ∧ path = [] then some (i, name)
    else
      match findEntry name (t i).entries with
      | none => none
      | some off => resolveLoop t parent path ((t i).entries.getD off ⟨0, []⟩).inum

/-- The inode that a path names, seen from `cwd`, or its parent with the last element. -/
def resolve (t : Itable) (cwd : ℕ) (path : List Byte) (parent : Bool) : Option (ℕ × Name) :=
  resolveLoop t parent (pathElems path) (if path.head?.any isSlash then rootino else cwd)

variable {name : Name} {t : Itable}

/-- The parent of a path is a directory. -/
theorem resolveLoop_dir {path : List Name} {i dp : ℕ}
    (h : resolveLoop t true path i = some (dp, name)) : (t dp).type = .dir := by
  induction path generalizing i with
  | nil => simp [resolveLoop] at h
  | cons name' path ih =>
    rw [resolveLoop] at h
    split at h
    · cases h
    · next hdir =>
        split at h
        · cases h
          simpa using hdir
        · split at h
          · cases h
          · exact ih h

/-- What a path names does not depend on link counts. -/
theorem resolveLoop_congr {t t' : Itable}
    (h : ∀ i, (t' i).type = (t i).type ∧ (t' i).entries = (t i).entries) (parent : Bool)
    (path : List Name) (i : ℕ) : resolveLoop t' parent path i = resolveLoop t parent path i := by
  induction path generalizing i with
  | nil => rfl
  | cons name path ih =>
    simp only [resolveLoop, (h i).1, (h i).2, ih]

theorem mem_of_findEntry {es : List Dirent} {off : ℕ} (h : findEntry name es = some off) :
    es.getD off ⟨0, []⟩ ∈ es ∧ (es.getD off ⟨0, []⟩).inum ≠ 0 := by
  obtain ⟨i, hi, hget⟩ := findEntry_some h
  rw [List.getD_eq_getElem?_getD, hget]
  exact ⟨List.mem_of_getElem? hget, hi⟩

/-- Inodes that a walk never leaves: the root is one, they all have a type, and their entries name
    only such inodes. -/
structure Walkable (t : Itable) (good : ℕ → Prop) : Prop where
  root : good rootino
  alloc : ∀ i, good i → (t i).type ≠ .free
  next : ∀ i, good i → (t i).type = .dir → ∀ de ∈ (t i).entries, de.inum ≠ 0 → good de.inum

theorem TreeOk.walkable {n : ℕ} (h : TreeOk n t) : Walkable t (Anchored t) where
  root := h.anchored_of_live h.root
  alloc := fun _ hi => hi.1
  next := fun _ hi hdir _ hde hne => h.anchored_of_mem hi hdir hde hne

namespace Walkable

variable {t t' : Itable} {good : ℕ → Prop}

theorem congr (h : Walkable t good)
    (htt' : ∀ i, (t' i).type = (t i).type ∧ (t' i).entries = (t i).entries) : Walkable t' good where
  root := h.root
  alloc := fun i hi => (htt' i).1 ▸ h.alloc i hi
  next := fun i hi hdir de hde => h.next i hi ((htt' i).1 ▸ hdir) de ((htt' i).2 ▸ hde)

theorem resolveLoop (h : Walkable t good) {parent : Bool} {path : List Name} {i j : ℕ}
    (hi : good i) (hr : resolveLoop t parent path i = some (j, name)) : good j := by
  induction path generalizing i with
  | nil =>
    rw [Xv6.resolveLoop] at hr
    split_ifs at hr
    cases hr
    exact hi
  | cons name' path ih =>
    rw [Xv6.resolveLoop] at hr
    split at hr
    · cases hr
    · next hdir =>
        split at hr
        · cases hr
          exact hi
        · split at hr
          · cases hr
          · next off hoff =>
              obtain ⟨hmem, hne⟩ := mem_of_findEntry hoff
              exact ih (h.next i hi (by simpa using hdir) _ hmem hne) hr

theorem resolve (h : Walkable t good) {cwd j : ℕ} {path : List Byte} {parent : Bool}
    (hcwd : good cwd) (hr : resolve t cwd path parent = some (j, name)) : good j := by
  refine h.resolveLoop ?_ hr
  split
  · exact h.root
  · exact hcwd

end Walkable

namespace DirFs

variable {s : DirFs} {held : List ℕ} {safe : Prop} {P : DirPanic → Prop}

/-! ## `dirlookup` -/

theorem dirlookup_none {dp : ℕ} (hdir : (s.inode dp).type = .dir)
    (h : findEntry name (s.inode dp).entries = none) : s.dirlookup dp name = .ok (none, s) := by
  rw [dirlookup, if_neg (not_not.2 hdir), h]

theorem dirlookup_some {dp off : ℕ} (hP : Allows P safe s (held.length + 1))
    (hdir : (s.inode dp).type = .dir) (h : findEntry name (s.inode dp).entries = some off)
    (hs : CacheOk s held) :
    Yields P
      (fun r => r.1 = some (((s.inode dp).entries.getD off ⟨0, []⟩).inum, off) ∧ SameTree s r.2 ∧
        CacheOk r.2 (((s.inode dp).entries.getD off ⟨0, []⟩).inum :: held) ∧
        ∀ j ∈ held, r.2.valid j = s.valid j)
      (s.dirlookup dp name) := by
  rw [dirlookup, if_neg (not_not.2 hdir), h]
  exact (iget_yields hP hs _).bind fun s' hs' => .ok ⟨rfl, hs'⟩

/-! ## `namex` -/

/-- The references a lookup holds at its end. -/
def holding (r : Option (ℕ × Name)) (held : List ℕ) : List ℕ := (r.map Prod.fst).toList ++ held

variable {good : ℕ → Prop}

theorem namexLoop_yields (hgood : safe → Walkable t good) (parent : Bool)
    (path : List Name) (i : ℕ) (s : DirFs) (hP : Allows P safe s (held.length + 2))
    (hinode : s.inode = t) (hs : CacheOk s (i :: held)) (hk : Kept s held) (hi : safe → good i) :
    Yields P
      (fun r => r.1 = resolveLoop t parent path i ∧ SameTree s r.2 ∧ CacheOk r.2 (holding r.1 held))
      (namexLoop parent path i s) := by
  induction path generalizing i s with
  | nil =>
    rw [namexLoop, resolveLoop]
    cases parent with
    | true => exact .ok ⟨rfl, (iput_same hs hk).1, iput_cache hs⟩
    | false => exact .ok ⟨rfl, .refl, hs⟩
  | cons name path ih =>
    rw [namexLoop, resolveLoop]
    refine (ilock_yields hP.noType hs List.mem_cons_self fun hsafe =>
      hinode ▸ (hgood hsafe).alloc i (hi hsafe)).bind ?_
    rintro s1 ⟨hsame, hs1, -⟩
    have hk1 := hk.congr hsame
    have hinode1 : s1.inode = t := hsame.inode.trans hinode
    rw [hinode1]
    by_cases hdir : (t i).type = .dir
    · rw [if_neg (not_not.2 hdir), if_neg (not_not.2 hdir)]
      by_cases hstop : parent ∧ path = []
      · rw [if_pos hstop, if_pos hstop]
        exact .ok ⟨rfl, hsame, hs1⟩
      · rw [if_neg hstop, if_neg hstop]
        have hdir1 : (s1.inode i).type = .dir := by rw [hinode1, hdir]
        cases hfind : findEntry name (t i).entries with
        | none =>
          rw [dirlookup_none hdir1 (by rw [hinode1, hfind])]
          refine .ok ⟨rfl, hsame.trans (iput_same hs1 hk1).1, iput_cache hs1⟩
        | some off =>
          refine (dirlookup_some (hP.congr hsame (Nat.le_refl _)) hdir1
            (by rw [hinode1, hfind]) hs1).bind ?_
          rintro ⟨_, s2⟩ ⟨rfl, hsame2, hs2, -⟩
          rw [hinode1] at hs2 ⊢
          dsimp only
          -- the reference to the directory goes back before the walk goes on
          have hswap := hs2.perm (List.Perm.swap ..)
          obtain ⟨hsame3, hs3, -⟩ := iput_same hswap ((hk1.congr hsame2).cons _)
          have hsame' := (hsame.trans hsame2).trans hsame3
          refine (ih _ _ (hP.congr hsame' (Nat.le_refl _)) (hsame'.inode.trans hinode) hs3
            (hk.congr hsame') fun hsafe => ?_).post ?_
          · obtain ⟨hmem, hne⟩ := mem_of_findEntry hfind
            exact (hgood hsafe).next i (hi hsafe) hdir _ hmem hne
          · rintro r ⟨hr, hsame4, hs4⟩
            exact ⟨hr, hsame'.trans hsame4, hs4⟩
    · rw [if_pos hdir, if_pos hdir]
      exact .ok ⟨rfl, hsame.trans (iput_same hs1 hk1).1, iput_cache hs1⟩

theorem namex_yields {cwd : ℕ} (hP : Allows P safe s (held.length + 2)) (path : List Byte)
    (parent : Bool) (hgood : safe → Walkable s.inode good) (hs : CacheOk s held)
    (hcwd : 0 < s.ref cwd) (hi : safe → good cwd) :
    Yields P
      (fun r => r.1 = resolve s.inode cwd path parent ∧ SameTree s r.2 ∧
        CacheOk r.2 (holding r.1 held))
      (s.namex cwd path parent) := by
  rw [namex, resolve]
  split
  · refine (iget_yields (hP.congr .refl (by omega)) hs rootino).bind ?_
    rintro s1 ⟨hsame, hs1, -⟩
    refine (namexLoop_yields hgood parent _ _ s1 (hP.congr hsame (Nat.le_refl _)) hsame.inode hs1
      (hs.kept.congr hsame) fun hsafe => (hgood hsafe).root).post ?_
    rintro r ⟨hr, hsame2, hs2⟩
    exact ⟨hr, hsame.trans hsame2, hs2⟩
  · have hsame : SameTree s (s.idup cwd) := ⟨rfl, rfl, rfl, rfl⟩
    refine (namexLoop_yields hgood parent _ _ (s.idup cwd) (hP.congr hsame (Nat.le_refl _)) rfl
      (idup_cache hs hcwd) (hs.kept.congr hsame) hi).post ?_
    rintro r ⟨hr, hsame2, hs2⟩
    exact ⟨hr, hsame.trans hsame2, hs2⟩

theorem namei_yields {cwd : ℕ} (hP : Allows P safe s (held.length + 2)) (path : List Byte)
    (hgood : safe → Walkable s.inode good) (hs : CacheOk s held) (hcwd : 0 < s.ref cwd)
    (hi : safe → good cwd) :
    Yields P
      (fun r => r.1 = (resolve s.inode cwd path false).map Prod.fst ∧ SameTree s r.2 ∧
        CacheOk r.2 (r.1.toList ++ held))
      (s.namei cwd path) := by
  refine (namex_yields hP path false hgood hs hcwd hi).bind ?_
  rintro ⟨r, s'⟩ ⟨hr, hsame, hs'⟩
  exact .ok ⟨congrArg (Option.map Prod.fst) hr, hsame, hs'⟩

end DirFs

end Xv6
