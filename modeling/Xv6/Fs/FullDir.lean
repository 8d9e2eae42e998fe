import Xv6.Fs.Failed

set_option autoImplicit false

/-! # Calls that add a name

`link`, `mkdir`, `mknod` and `open` with `O_CREATE` end in `dirlink`, which stops the machine if the
entry cannot be written. With an inode on the disk and entries of the inode cache to be had, this is
the only way in which these calls can stop, and it happens exactly if the directory has `MAXFILE`
blocks and all its entries are in use (`adding_names_iff`). -/

namespace Xv6

open Function Stoppable

namespace DirFs

variable {s : DirFs}

/-! ## Where a call stops -/

/-- The computation returns if `ok`, and otherwise stops with `panic("dirlink")`. -/
def Stops {α : Type} (ok : Prop) (x : Except DirPanic α) : Prop :=
  Yields (fun e => e = .dirlink ∧ ¬ok) (fun _ => ok) x

theorem Stops.returns_iff {α : Type} {ok : Prop} {x : Except DirPanic α} (h : Stops ok x) :
    (∃ a, x = .ok a) ↔ ok := by
  constructor
  · rintro ⟨a, ha⟩
    exact h.1 a ha
  · intro hok
    cases hx : x with
    | ok a => exact ⟨a, rfl⟩
    | error e => exact absurd hok (h.2 e hx).2

theorem Stops.eq_error {α : Type} {ok : Prop} {x : Except DirPanic α} (h : Stops ok x) (hno : ¬ok) :
    x = .error .dirlink := by
  cases hx : x with
  | ok a => exact absurd (h.1 a hx) hno
  | error e => rw [(h.2 e hx).1]

section

variable {cwd : ℕ} (h : FsOk s) (hown : 0 < s.owned cwd) (hi : Anchored s.inode cwd)
  (hfree : FreeInode s) (hroom : s.cached + 3 ≤ ninode)

include h hown hi hfree hroom

omit hown hi hfree in
/-- With the supplies that a call needs, only `dirlink` stops it. -/
theorem allows_stops (ok : Prop) : Allows (fun e => e = .dirlink ∧ ¬ok) True s 3 :=
  ⟨absurd trivial, .inr (by have := h.cache.users_le; omega)⟩

omit h hown hi hroom in
theorem allowsNew_stops (ok : Prop) : AllowsNew (fun e => e = .dirlink ∧ ¬ok) s ok :=
  ⟨fun hno => absurd hfree hno, fun hno => ⟨rfl, hno⟩⟩

theorem sysCreate_stops (path : List Byte) (type : Ftype) (major minor : BitVec 16)
    (htype : type ≠ .free) :
    Stops (EntryRoom s.inode cwd path) (s.sysCreate cwd path type major minor) :=
  (@sysCreate_yields s True (fun _ => True) _ cwd path type major minor
    ((allows_stops h hroom _).congr .refl (by decide))
      (allowsNew_stops hfree _) h.tree h.small h.cache
    (h.cache.ref_pos_of_owned hown) (fun _ => hi) htype).post fun _ hr => hr.1

theorem sysOpen_stops (p : Fin nproc) (path : List Byte) {omode : Word}
    (hmode : omode &&& oCreate ≠ 0) :
    Stops (EntryRoom s.inode cwd path) (s.sysOpen p cwd path omode) := by
  rw [sysOpen, openInode, if_pos hmode]
  refine (create_yields ((allows_stops h hroom _).congr .refl (by decide))
    (allowsNew_stops hfree _) h.tree h.small
    h.cache (h.cache.ref_pos_of_owned hown) (fun _ => hi) (by decide)).bind ?_
  rintro ⟨r, s1⟩ ⟨hok, -⟩
  cases r with
  | none => exact .ok hok
  | some ip =>
    dsimp only
    cases hfa : s1.filealloc with
    | none => exact .ok hok
    | some x =>
      obtain ⟨f, s2⟩ := x
      obtain ⟨-, rfl⟩ := filealloc_ref hfa
      dsimp only
      cases (s1.setFile f { s1.file f with ref := 1 }).fdalloc p f with
      | none =>
        -- the entry has just been allocated, so it can be closed
        have hslot : (s1.setFile f { s1.file f with ref := 1 }).file f =
            { s1.file f with ref := 1 } :=
          update_self ..
        dsimp only
        rw [fileclose, hslot]
        dsimp only
        rw [if_neg (by decide), if_neg (by decide)]
        cases (s1.file f).type with
        | none => exact .ok hok
        | inode => exact .ok hok
      | some y => exact .ok hok

omit hfree in
theorem sysLink_stops (old new : List Byte) :
    Stops (LinkRoom s.inode cwd old new) (s.sysLink cwd old new) :=
  (@sysLink_yields s True (fun _ => True) _ cwd old new (allows_stops h hroom _)
    (fun hno => ⟨rfl, hno⟩) h.tree
    h.small h.cache hown fun _ => hi).post fun _ hr => hr.1

end

end DirFs

namespace LogFs

/-! ## The calls -/

/-- The calls that may add a name. -/
def PathCall.Adds : PathCall → Prop
  | .openPath _ (some omode) => omode &&& DirFs.oCreate ≠ 0
  | .openPath _ none => True
  | .link _ _ => True
  | .mkdir _ => True
  | .mknod _ _ _ => True
  | _ => False

/-- A name that is added finds room in its directory, and a file that is made finds a descriptor. -/
def NamesFit (s : DirFs) (p : Fin nproc) (cwd : ℕ) : PathCall → Prop
  | .openPath (some path) (some _) =>
    EntryRoom s.inode cwd path ∧ (Creates s.inode cwd path → DirFs.Room s p)
  | .link (some old) (some new) => DirFs.LinkRoom s.inode cwd old new
  | .mkdir (some path) => EntryRoom s.inode cwd path
  | .mknod (some path) (some _) (some _) => EntryRoom s.inode cwd path
  | _ => True

/-- The call returns normally: with an effect, or with -1 and without one. -/
def Normal (s : LogFs) (x : Except DirPanic (Int × LogFs)) : Prop :=
  ∃ r s', x = .ok (r, s') ∧ (r = -1 → Unchanged s s')

variable {s : LogFs} {p : Fin nproc} {cwd : ℕ}

theorem normal_refl (s : LogFs) : Normal s (.ok (-1, s)) := ⟨-1, s, rfl, fun _ => .refl s⟩

/-- A call that refuses without an effect is normal if it returns. -/
theorem normal_iff_of_refuses (h : Quiet s) {ok : Prop} {x : Except DirPanic (Int × DirFs)}
    (hstops : DirFs.Stops ok x)
    (hrefuses : DirFs.Refuses s.fs x) : Normal s (x.map (back s.outstanding)) ↔ ok := by
  rw [← hstops.returns_iff]
  constructor
  · rintro ⟨r, s', hs', -⟩
    cases x with
    | ok y => exact ⟨y, rfl⟩
    | error e => cases hs'
  · rintro ⟨y, rfl⟩
    exact ⟨y.1, ⟨y.2, s.outstanding⟩, rfl, fun hr => h.unchanged_of_map hrefuses rfl hr⟩

theorem sysOpen_normal_iff (h : Quiet s) (hp : (s.fs.proc p).cwd = some cwd) (path : List Byte)
    {omode : Word}
    (hmode : omode &&& DirFs.oCreate ≠ 0)
    (hstops : DirFs.Stops (EntryRoom s.fs.inode cwd path) (s.fs.sysOpen p cwd path omode)) :
    Normal s (s.sysOpen p cwd (some path) (some omode)) ↔
      EntryRoom s.fs.inode cwd path ∧ (Creates s.fs.inode cwd path → DirFs.Room s.fs p) := by
  constructor
  · rintro ⟨r, s', hs', hsame⟩
    have hroom := (sysOpen_unchanged_iff h hp path omode hs').1 hsame hmode
    refine ⟨hstops.returns_iff.1 ?_, hroom⟩
    rw [sysOpen_eq] at hs'
    cases hx : s.fs.sysOpen p cwd path omode with
    | ok y => exact ⟨y, rfl⟩
    | error e =>
      rw [hx] at hs'
      cases hs'
  · rintro ⟨hfits, hroom⟩
    obtain ⟨y, hy⟩ := hstops.returns_iff.2 hfits
    have hcall : s.sysOpen p cwd (some path) (some omode) = .ok (back s.outstanding y) := by
      rw [sysOpen_eq, hy]
      rfl
    exact ⟨y.1, ⟨y.2, s.outstanding⟩, hcall,
      (sysOpen_unchanged_iff h hp path omode hcall).2 fun _ => hroom⟩

/-- With an inode and room in the cache, a call that adds a name returns normally if and only if its
directory has room for the name and, in the case of `open`, there is a descriptor for the file. -/
theorem adding_names_iff (s : LogFs) (h : Quiet s) (p : Fin nproc) (cwd : ℕ)
    (hp : (s.fs.proc p).cwd = some cwd)
    (hcwd : Anchored s.fs.inode cwd) (hfree : s.fs.FreeInode) (hroom : s.fs.cached + 3 ≤ ninode)
    (c : PathCall) (hc : c.Adds) : Normal s (s.call p cwd c) ↔ NamesFit s.fs p cwd c := by
  have hown := DirFs.owned_of_cwd hp
  have hdone : s.beginOp.endOp = s := beginOp_endOp s.fs s.outstanding
  have hrefused : Normal s (.ok (-1, s.beginOp.endOp)) := by
    rw [hdone]
    exact normal_refl s
  -- `mkdir` and `mknod`
  have hcreate : ∀ path type major minor, type ≠ Ftype.free →
      (Normal s (s.beginOp.createPath cwd path type major minor) ↔ EntryRoom s.fs.inode cwd path) :=
        by
    intro path type major minor htype
    rw [beginOp, createPath_eq]
    exact normal_iff_of_refuses h (DirFs.sysCreate_stops h.ok hown hcwd hfree hroom path type major minor htype)
      (DirFs.sysCreate_refuses h.ok hp path htype major minor)
  cases c with
  | openPath path omode =>
    rcases path with _ | path
    · exact iff_of_true (normal_refl s) trivial
    rcases omode with _ | omode
    · exact iff_of_true (normal_refl s) trivial
    exact sysOpen_normal_iff h hp path hc (DirFs.sysOpen_stops h.ok hown hcwd hfree hroom p path hc)
  | link old new =>
    rcases old with _ | old
    · exact iff_of_true (normal_refl s) trivial
    rcases new with _ | new
    · exact iff_of_true (normal_refl s) trivial
    rw [call, sysLink_eq]
    exact normal_iff_of_refuses h (DirFs.sysLink_stops h.ok hown hcwd hroom old new)
      (DirFs.sysLink_refuses h.ok hp old new)
  | mkdir path =>
    rcases path with _ | path
    · exact iff_of_true hrefused trivial
    exact hcreate path .dir 0 0 (by decide)
  | mknod path major minor =>
    rcases path with _ | path
    · exact iff_of_true hrefused trivial
    rcases major with _ | major
    · exact iff_of_true hrefused trivial
    rcases minor with _ | minor
    · exact iff_of_true hrefused trivial
    exact hcreate path .dev _ _ (by decide)
  | unlink path | chdir path | chmod path mode | chown path uid | chgrp path gid => exact hc.elim

/-- `mkdir` of `/d` in an empty root directory. -/
theorem adding_names_iff_mkdir :
    Normal ⟨DirFs.boot 8 DirFs.rootOnly 0, 0⟩
      ((⟨DirFs.boot 8 DirFs.rootOnly 0, 0⟩ : LogFs).call 0 rootino (.mkdir (some [0x2f, 0x64]))) := by
  have hok := DirFs.rootOnly_consistent.fsOk 0
  exact (adding_names_iff ⟨DirFs.boot 8 DirFs.rootOnly 0, 0⟩ ⟨hok, rfl⟩ 0 rootino (by decide)
    (hok.tree.anchored_of_live hok.tree.root) ⟨2, by decide⟩ (by decide)
      (.mkdir (some [0x2f, 0x64])) trivial).2
    (show EntryRoom DirFs.rootOnly rootino [0x2f, 0x64] by decide)

end LogFs

/-! ## A full directory -/

namespace DirFs

/-- Names of two bytes, none of which is zero or a slash. -/
def nthName (k : ℕ) : Name := [.ofNat 8 (k % 128 + 128), .ofNat 8 (k / 128 + 128)]

/-- The entries that a directory can have besides `.` and `..`, all of them names of the inode 2. -/
def manyNames : List Dirent := (List.range (maxDirents - 2)).map fun k => ⟨2, nthName k⟩

/-- A root directory of `MAXFILE` blocks in which no entry is free. -/
def fullRoot : Itable :=
  update (update (fun _ => ⟨.free, 0, 0, 0, 0, 0, 0, [], []⟩) 2
      ⟨.file, 0, 0, .ofNat 16 (maxDirents - 2), 0, 0, 0, [], []⟩)
    rootino ⟨.dir, 0, 0, 1, 0, 0, 0, ⟨rootino, dot⟩ :: ⟨rootino, dotdot⟩ :: manyNames, []⟩

theorem mem_manyNames {de : Dirent} (h : de ∈ manyNames) :
    de.inum = 2 ∧ ∃ k, de.name = nthName k := by
  obtain ⟨k, -, rfl⟩ := List.mem_map.1 h
  exact ⟨rfl, k, rfl⟩

theorem length_manyNames : manyNames.length = maxDirents - 2 := by
  rw [manyNames, List.length_map, List.length_range]

/-- The first byte of a name is not an ASCII character. -/
theorem nthName_ne (k : ℕ) {b : Byte} {bs : List Byte} (hb : b.toNat < 128) :
    nthName k ≠ b :: bs := by
  intro heq
  have hhead := congrArg BitVec.toNat (List.cons.inj heq).1
  rw [BitVec.toNat_ofNat] at hhead
  omega

theorem fullRoot_root : fullRoot rootino =
    ⟨.dir, 0, 0, 1, 0, 0, 0, ⟨rootino, dot⟩ :: ⟨rootino, dotdot⟩ :: manyNames, []⟩ := update_self ..

theorem fullRoot_file : fullRoot 2 = ⟨.file, 0, 0, .ofNat 16 (maxDirents - 2), 0, 0, 0, [], []⟩ :=
  rfl

theorem fullRoot_free {i : ℕ} (hi : i ≠ rootino) (hi' : i ≠ 2) :
    fullRoot i = ⟨.free, 0, 0, 0, 0, 0, 0, [], []⟩ := by
  rw [fullRoot, update_of_ne hi, update_of_ne hi']

theorem fullRoot_dir {d : ℕ} (hd : (fullRoot d).type = .dir) : d = rootino := by
  by_contra hne
  by_cases htwo : d = 2
  · rw [htwo] at hd
    cases hd
  · rw [fullRoot_free hne htwo] at hd
    cases hd

theorem fullRoot_live : (fullRoot rootino).Live := by
  rw [fullRoot_root]
  exact ⟨rfl, show 0 < (1 : BitVec 16).toInt by decide⟩

/-- The names of each inode. -/
theorem fullRoot_naming (i d : ℕ) : (fullRoot d).naming i =
    if rootino = d then (if i = rootino then 1 else if i = 2 then maxDirents - 2 else 0) else 0 := by
  by_cases hd : d = rootino
  · subst hd
    rw [Dnode.naming, if_pos fullRoot_live, if_pos rfl, fullRoot_root,
      List.countP_cons_of_neg (by simp), List.countP_cons]
    have hdots : (decide (rootino = i ∧ dotdot ≠ dot)) = decide (i = rootino) := by
      simp [dotdot, dot, eq_comm]
    by_cases htwo : i = 2
    · subst htwo
      have hall : (manyNames.countP fun de => decide (de.inum = 2 ∧ de.name ≠ dot)) = manyNames.length := by
        refine List.countP_eq_length.2 fun de hde => ?_
        obtain ⟨hinum, k, hk⟩ := mem_manyNames hde
        rw [decide_eq_true_eq, hk]
        exact ⟨hinum, nthName_ne k (by decide)⟩
      rw [hall, length_manyNames, hdots]
      rfl
    · have hnone : (manyNames.countP fun de => decide (de.inum = i ∧ de.name ≠ dot)) = 0 := by
        refine List.countP_eq_zero.2 fun de hde => ?_
        rw [decide_eq_true_eq, (mem_manyNames hde).1]
        exact fun h => htwo h.1.symm
      rw [hnone, hdots, if_neg htwo]
      by_cases hroot : i = rootino
      · rw [hroot]
        rfl
      · simp [hroot]
  · have hlive : ¬(fullRoot d).Live := fun hlive => hd (fullRoot_dir hlive.1)
    rw [Dnode.naming_of_not_live hlive, if_neg (Ne.symm hd)]

theorem fullRoot_consistent : Consistent 8 fullRoot where
  tree := {
    root := fullRoot_live
    root_parent := by
      rw [fullRoot_root]
      rfl
    bound := by
      intro i hi
      by_cases hroot : i = rootino
      · rw [hroot]
        decide
      · by_cases htwo : i = 2
        · rw [htwo]
          decide
        · rw [fullRoot_free hroot htwo] at hi
          exact absurd rfl hi
    dots := by
      intro d hd
      obtain rfl := fullRoot_dir hd
      rw [fullRoot_root]
      refine ⟨rfl, fun de hde _ => ?_⟩
      obtain ⟨-, k, hk⟩ := mem_manyNames hde
      rw [hk]
      exact ⟨nthName_ne k (by decide), nthName_ne k (by decide)⟩
    removed := by
      intro d hd hlive
      obtain rfl := fullRoot_dir hd
      exact absurd fullRoot_live hlive
    parent_live := by
      intro d hd
      obtain rfl := fullRoot_dir hd.1
      have hparent : (fullRoot rootino).parent = rootino := by
        rw [fullRoot_root]
        rfl
      rw [hparent]
      exact hd
    once := by
      intro d c hd hc
      obtain rfl := fullRoot_dir hd.1
      obtain rfl := fullRoot_dir hc.1
      rw [if_neg fun h => h.1 rfl, fullRoot_root]
      refine List.countP_eq_zero.2 fun de hde => ?_
      rw [decide_eq_true_eq, (mem_manyNames hde).1]
      decide
    exact := by
      intro i hi
      simp only [names, fullRoot_naming]
      rw [Finset.sum_ite_eq, if_pos (by decide)]
      by_cases hroot : i = rootino
      · rw [hroot, fullRoot_root]
        rfl
      · rw [if_neg hroot]
        by_cases htwo : i = 2
        · rw [htwo, if_pos rfl, fullRoot_file]
          decide
        · rw [if_neg htwo, fullRoot_free hroot htwo]
          rfl }
  named := by
    intro i hi
    by_cases hroot : i = rootino
    · rw [hroot, fullRoot_root]
      decide
    · by_cases htwo : i = 2
      · rw [htwo, fullRoot_file]
        decide
      · rw [fullRoot_free hroot htwo] at hi
        exact absurd rfl hi
  small := by decide

/-- The name `d` is not there, and there is no place for it. -/
theorem fullRoot_noRoom : ¬EntryRoom fullRoot rootino [0x2f, 0x64] := by
  have hmax : maxDirents = maxDirents - 2 + 2 := by decide
  have hresolve : resolve fullRoot rootino [0x2f, 0x64] true = some (rootino, [0x64]) := by
    show resolveLoop fullRoot true [[0x64]] rootino = _
    rw [resolveLoop, if_neg (not_not.2 fullRoot_live.1), if_pos ⟨rfl, rfl⟩]
  have habsent : findEntry [0x64] (fullRoot rootino).entries = none := by
    rw [fullRoot_root]
    refine List.findIdx?_eq_none_iff.2 fun de hde => ?_
    rw [decide_eq_false_iff_not]
    rintro ⟨-, hname⟩
    rcases List.mem_cons.1 hde with rfl | hde
    · cases hname
    rcases List.mem_cons.1 hde with rfl | hde
    · cases hname
    · obtain ⟨-, k, hk⟩ := mem_manyNames hde
      exact nthName_ne k (by decide) (hk.symm.trans hname)
  have hused : (fullRoot rootino).entries.findIdx Dirent.isFree =
      (fullRoot rootino).entries.length := by
    rw [fullRoot_root]
    refine List.findIdx_eq_length.2 fun de hde => ?_
    rcases List.mem_cons.1 hde with rfl | hde
    · rfl
    rcases List.mem_cons.1 hde with rfl | hde
    · rfl
    · rw [Dirent.isFree, (mem_manyNames hde).1]
      rfl
  have hlength : (fullRoot rootino).entries.length = maxDirents := by
    rw [fullRoot_root, List.length_cons, List.length_cons, length_manyNames, ← hmax]
  rw [entryRoom_some hresolve]
  intro hroom
  have hlt := hroom habsent
  rw [HasRoom, hused, hlength] at hlt
  exact Nat.lt_irrefl _ hlt

end DirFs

/-- `mkdir` of `/d` in a root directory that is full stops the machine. -/
theorem LogFs.mkdir_stops : ∃ s : LogFs, Quiet s ∧ (s.fs.proc 0).cwd = some rootino ∧
    Anchored s.fs.inode rootino ∧
    s.fs.FreeInode ∧ s.fs.cached + 3 ≤ ninode ∧ (s.fs.inode rootino).entries.length = maxDirents ∧
    s.call 0 rootino (.mkdir (some [0x2f, 0x64])) = .error .dirlink := by
  have hok := DirFs.fullRoot_consistent.fsOk 0
  have hcwd : ((DirFs.boot 8 DirFs.fullRoot 0).proc 0).cwd = some rootino := by
    rw [DirFs.boot_cwd, if_pos rfl]
  have hanchored := hok.tree.anchored_of_live hok.tree.root
  have hfree : (DirFs.boot 8 DirFs.fullRoot 0).FreeInode := ⟨3, by decide, by decide, rfl⟩
  have hroom : (DirFs.boot 8 DirFs.fullRoot 0).cached + 3 ≤ ninode := by decide
  refine ⟨⟨DirFs.boot 8 DirFs.fullRoot 0, 0⟩, ⟨hok, rfl⟩, hcwd, hanchored, hfree, hroom, ?_, ?_⟩
  · show (DirFs.fullRoot rootino).entries.length = maxDirents
    rw [DirFs.fullRoot_root, List.length_cons, List.length_cons, DirFs.length_manyNames]
    decide
  · have hstops := DirFs.sysCreate_stops hok (DirFs.owned_of_cwd hcwd) hanchored hfree hroom [0x2f,
      0x64] .dir
      0 0 (by decide)
    show (⟨DirFs.boot 8 DirFs.fullRoot 0, 0 + 1⟩ : LogFs).createPath rootino [0x2f,
      0x64] .dir 0 0 = _
    rw [createPath_eq, hstops.eq_error DirFs.fullRoot_noRoom]
    rfl

end Xv6
