import Xv6.Fs.Lookup

set_option autoImplicit false

/-! # `create`

What `create` does to the table of inodes is one `Edit`, where the path leads to a live
directory. -/

namespace Xv6

open Function Stoppable

/-- A new entry at `path` goes to a live directory, which can have one more link if it needs one. -/
def EntryOk (t : Itable) (cwd : ℕ) (path : List Byte) (type : Ftype) : Prop :=
  ∀ dp name, resolve t cwd path true = some (dp, name) →
    (t dp).Live ∧ (type = .dir → (t dp).nlink.toInt < 32767)

/-- `create` makes a new inode: the path leads to a directory that has no entry with the last
    element. -/
def Creates (t : Itable) (cwd : ℕ) (path : List Byte) : Prop :=
  ∃ x ∈ resolve t cwd path true, findEntry x.2 (t x.1).entries = none

instance (t : Itable) (cwd : ℕ) (path : List Byte) (type : Ftype) :
    Decidable (EntryOk t cwd path type) :=
  decidable_of_iff (∀ x ∈ resolve t cwd path true,
      (t x.1).Live ∧ (type = .dir → (t x.1).nlink.toInt < 32767))
    ⟨fun h dp name hr => h (dp, name) hr, fun h x hx => h x.1 x.2 hx⟩

/-- A new name at `path` finds room in its directory. -/
def EntryRoom (t : Itable) (cwd : ℕ) (path : List Byte) : Prop :=
  ∀ x ∈ resolve t cwd path true, findEntry x.2 (t x.1).entries = none → HasRoom (t x.1).entries

instance (t : Itable) (cwd : ℕ) (path : List Byte) : Decidable (EntryRoom t cwd path) :=
  inferInstanceAs (Decidable (∀ x ∈ resolve t cwd path true, _))

variable {path : List Byte} {t : Itable}

theorem entryRoom_none {cwd : ℕ} (h : resolve t cwd path true = none) :
    EntryRoom t cwd path := by
  intro x hx
  rw [h] at hx
  cases hx

theorem entryRoom_some {cwd dp : ℕ} {name : Name} (h : resolve t cwd path true = some (dp, name)) :
    EntryRoom t cwd path ↔ (findEntry name (t dp).entries = none → HasRoom (t dp).entries) := by
  unfold EntryRoom
  rw [h]
  simp

namespace DirFs

variable {s s' : DirFs} {held : List ℕ} {safe : Prop} {P : DirPanic → Prop}

/-! ## New records -/

variable {i dp : ℕ}

/-- A record is replaced by an allocated one; without links it has to be locked. -/
theorem CacheOk.setInode (h : CacheOk s held) {y : Dnode} (halloc : y.type ≠ .free)
    (hy : y.nlink = 0 → s.valid i = true ∧ 0 < s.ref i) : CacheOk (s.setInode i y) held := by
  refine h.change i rfl rfl (fun _ _ => rfl) (fun j hj => ⟨rfl, rfl, update_of_ne hj _ _⟩) ?_
  simp only [DirFs.setInode, update_self]
  exact ⟨(h i).ref_eq, fun _ => halloc, fun _ _ => halloc, fun _ => hy⟩

/-- A free inode has no references. -/
theorem CacheOk.ref_of_free (h : CacheOk s held) (hfree : (s.inode i).type = .free)
    (hi : i ∉ held) : s.ref i = 0 := by
  have hown : s.owned i = 0 := by
    by_contra hne
    exact (h i).owned_alloc (Nat.pos_of_ne_zero hne) hfree
  rw [(h i).ref_eq, hown, List.count_eq_zero_of_not_mem hi]
  rfl

/-- The state in which `create` has locked its new inode. -/
def withNew (s : DirFs) (i : ℕ) (y : Dnode) : DirFs :=
  { s with
    inode := update s.inode i y
    ref := update s.ref i 1
    valid := update s.valid i true }

@[simp] theorem withNew_inode (s : DirFs) (i : ℕ) (y : Dnode) : (s.withNew i y).inode i = y :=
  update_self ..

@[simp] theorem withNew_setInode (s : DirFs) (i : ℕ) (x y : Dnode) :
    (s.withNew i x).setInode i y = s.withNew i y := by
  simp [withNew, setInode]

theorem CacheOk.withNew (h : CacheOk s held) {y : Dnode} (hfree : (s.inode i).type = .free)
    (hi : i ∉ held) (halloc : y.type ≠ .free) : CacheOk (s.withNew i y) (i :: held) := by
  refine h.change i rfl rfl (fun j hj => count_cons_of_ne hj held)
    (fun j hj => ⟨update_of_ne hj _ _, update_of_ne hj _ _, update_of_ne hj _ _⟩) ?_
  have href := (h i).ref_eq
  rw [h.ref_of_free hfree hi] at href
  simp only [DirFs.withNew, update_self, List.count_cons_self]
  exact ⟨by omega, fun _ => halloc, fun _ _ => halloc, fun _ _ => ⟨rfl, by omega⟩⟩

/-- A free inode for `ialloc`. -/
def FreeInode (s : DirFs) : Prop := ∃ i, 0 < i ∧ i < s.ninodes ∧ (s.inode i).type = .free

theorem FreeInode.congr (h : FreeInode s) (hsame : SameTree s s') : FreeInode s' := by
  obtain ⟨i, hi, hlt, hfree⟩ := h
  exact ⟨i, hi, hsame.ninodes ▸ hlt, by rw [hsame.inode, hfree]⟩

variable {type : Ftype}

theorem ialloc_yields (hP : Allows P safe s (held.length + 1))
    (hfree : ¬FreeInode s → P .iallocNoInodes) (hs : CacheOk s held)
    (hheld : ∀ i ∈ held, (s.inode i).type ≠ .free) :
    Yields P
      (fun r => ∃ i, 0 < i ∧ i < s.ninodes ∧ (s.inode i).type = .free ∧
        r = (i, { s with
          inode := update s.inode i ⟨type, 0, 0, 0, 0, 0, 0, [], []⟩
          ref := update s.ref i 1
          valid := update s.valid i false }))
      (s.ialloc type) := by
  rw [ialloc]
  cases hfind : (List.range' 1 (s.ninodes - 1)).find? fun i => (s.inode i).type = .free with
  | none =>
    refine .error (hfree ?_)
    rintro ⟨i, hpos, hlt, hi⟩
    have hmem : i ∈ List.range' 1 (s.ninodes - 1) := List.mem_range'_1.2 ⟨hpos, by omega⟩
    exact absurd (decide_eq_true hi) (List.find?_eq_none.1 hfind i hmem)
  | some i =>
    have hfree : (s.inode i).type = .free := by simpa using List.find?_some hfind
    have hmem := List.mem_range'_1.1 (List.mem_of_find?_eq_some hfind)
    have href := hs.ref_of_free hfree fun hi => hheld i hi hfree
    dsimp only
    rw [iget, if_neg (by simp [setInode, href])]
    by_cases hfull : ninode ≤ (s.setInode i ⟨type, 0, 0, 0, 0, 0, 0, [], []⟩).cached
    · have hle := hs.cached_le
      have hcached : (s.setInode i ⟨type, 0, 0, 0, 0, 0, 0, [], []⟩).cached = s.cached := rfl
      rw [if_pos hfull]
      exact .error (hP.noInodes.resolve_right (by omega))
    · rw [if_neg hfull]
      exact .ok ⟨i, by omega, by omega, hfree, rfl⟩

theorem ilock_new {y : Dnode} (halloc : y.type ≠ .free) :
    ilock { s with
      inode := update s.inode i y
      ref := update s.ref i 1
      valid := update s.valid i false } i = .ok (s.withNew i y) := by
  simp [ilock, withNew, halloc]

/-! ## `dirlink` -/

variable {name : Name}

theorem dirlink_none (hdir : (s.inode dp).type = .dir)
    (h : findEntry name (s.inode dp).entries = none) (hroom : HasRoom (s.inode dp).entries)
    (hi : i < 2 ^ 16) :
    s.dirlink dp name i = .ok (true, s.setInode dp
      { s.inode dp with entries := putEntry ⟨i, name⟩ (s.inode dp).entries }) := by
  rw [dirlink, dirlookup_none hdir h, Nat.mod_eq_of_lt hi]
  simp only [bind, Except.bind]
  rw [if_pos hroom]
  rfl

theorem dirlink_full (hdir : (s.inode dp).type = .dir)
    (h : findEntry name (s.inode dp).entries = none) (hroom : ¬HasRoom (s.inode dp).entries) :
    s.dirlink dp name i = .error .dirlink := by
  rw [dirlink, dirlookup_none hdir h]
  simp only [bind, Except.bind]
  rw [if_neg hroom]
  rfl

theorem dirlink_some {off : ℕ} (hP : Allows P safe s (held.length + 1))
    (hdir : (s.inode dp).type = .dir) (h : findEntry name (s.inode dp).entries = some off)
    (hs : CacheOk s held) :
    Yields P (fun r => r.1 = false ∧ SameTree s r.2 ∧ CacheOk r.2 held)
      (s.dirlink dp name i) := by
  rw [dirlink]
  refine (dirlookup_some hP hdir h hs).bind ?_
  rintro ⟨_, s1⟩ ⟨rfl, hsame, hs1, -⟩
  obtain ⟨hsame2, hs2, -⟩ := iput_same hs1 (hs.kept.congr hsame)
  exact .ok ⟨rfl, hsame.trans hsame2, hs2⟩

theorem dirlinkOr_none (e : DirPanic) (hdir : (s.inode dp).type = .dir)
    (h : findEntry name (s.inode dp).entries = none) (hroom : HasRoom (s.inode dp).entries)
    (hi : i < 2 ^ 16) :
    s.dirlinkOr e dp name i = .ok (s.setInode dp
      { s.inode dp with entries := putEntry ⟨i, name⟩ (s.inode dp).entries }) := by
  rw [dirlinkOr, dirlink_none hdir h hroom hi]
  rfl

theorem dirlinkOr_full (e : DirPanic) (hdir : (s.inode dp).type = .dir)
    (h : findEntry name (s.inode dp).entries = none) (hroom : ¬HasRoom (s.inode dp).entries) :
    s.dirlinkOr e dp name i = .error .dirlink := by
  rw [dirlinkOr, dirlink_full hdir h hroom]
  rfl

theorem hasRoom_nil : HasRoom [] := by decide

theorem hasRoom_singleton (de : Dirent) : HasRoom [de] :=
  Nat.lt_of_le_of_lt (List.findIdx_le_length ..) (show 1 < maxDirents by decide)

theorem createDots_eq {ip : ℕ} (hne : ip ≠ dp) (hdir : (s.inode ip).type = .dir)
    (hnil : (s.inode ip).entries = []) (hip : 0 < ip) (hip' : ip < 2 ^ 16) (hdp : dp < 2 ^ 16) :
    s.createDots .dir dp ip = .ok
      ((s.setInode dp { s.inode dp with nlink := (s.inode dp).nlink + 1 }).setInode ip
        { s.inode ip with entries := [⟨ip, dot⟩, ⟨dp, dotdot⟩] }) := by
  rw [createDots, if_pos rfl]
  dsimp only
  rw [dirlinkOr_none _ (by simp [setInode, hne, hdir])
    (by simp [setInode, hne, hnil, findEntry])
      (by simpa [setInode, hne, hnil] using hasRoom_nil) hip']
  simp only [bind, Except.bind]
  rw [dirlinkOr_none _ (by simp [setInode, hne, hdir]) ?_
    (by simpa [setInode, hne, hnil, putEntry] using hasRoom_singleton _) hdp]
  · simp [setInode, hne, hnil, putEntry, Dirent.isFree, hip.ne']
  · simp [setInode, hne, hnil, findEntry, putEntry, List.findIdx?_cons, show dot ≠ dotdot by decide]

/-! ## The new inode -/

/-- The record of the new inode. -/
def newDnode (type : Ftype) (major minor : BitVec 16) (dp ip : ℕ) : Dnode :=
  ⟨type, major, minor, 1, 0, 0, 0, if type = .dir then [⟨ip, dot⟩, ⟨dp, dotdot⟩] else [], []⟩

@[simp] theorem newDnode_type (type : Ftype) (major minor : BitVec 16) (dp ip : ℕ) :
    (newDnode type major minor dp ip).type = type := rfl

/-- The link count of the directory that gets the new inode. -/
def newNlink (type : Ftype) (nlink : BitVec 16) : BitVec 16 :=
  if type = .dir then nlink + 1 else nlink

theorem insert_new {n : ℕ} (major minor : BitVec 16)
    (hlive : (t dp).Live) (hcount : type = .dir → (t dp).nlink.toInt < 32767)
    (habsent : findEntry name (t dp).entries = none) (hpos : 0 < i) (hlt : i < n)
    (hfree : (t i).type = .free) (htype : type ≠ .free) :
    Insert n t dp i name (newNlink type (t dp).nlink) (newDnode type major minor dp i) where
  live := hlive
  absent := habsent
  bound := ⟨hpos, hlt⟩
  not_dir := by simp [hfree]
  alloc := htype
  links := by
    rw [Dnode.links, if_pos hfree]
    rfl
  count := by
    rw [newDnode_type, newNlink]
    split
    · next hdir => rw [toInt_add_one (hcount hdir)]
    · rw [Int.add_zero]
  dir := by
    intro hdir
    exact ⟨hfree, if_pos hdir⟩

/-- The state in which the new inode has its entry. -/
def withEntry (s : DirFs) (dp i : ℕ) (name : Name) (type : Ftype) (major minor : BitVec 16) :
    DirFs :=
  { s with
    inode := inserted s.inode dp i name (newNlink type (s.inode dp).nlink)
      (newDnode type major minor dp i)
    ref := update s.ref i 1
    valid := update s.valid i true }

variable {major minor : BitVec 16}

/-- The entries of a new directory and the entry that names the new inode. -/
theorem linkNew_eq (hne : i ≠ dp) (hdir : (s.inode dp).type = .dir)
    (habsent : findEntry name (s.inode dp).entries = none) (hpos : 0 < i) (hi : i < 2 ^ 16)
    (hdp : dp < 2 ^ 16) :
    ((s.withNew i ⟨type, major, minor, 1, 0, 0, 0, [], []⟩).createDots type dp i >>= fun s =>
      s.dirlinkOr .createDirlink dp name i) =
      if HasRoom (s.inode dp).entries then .ok (s.withEntry dp i name type major minor)
        else .error .dirlink := by
  obtain ⟨s1, hdots, hat, hentry⟩ : ∃ s1,
      (s.withNew i ⟨type, major, minor, 1, 0, 0, 0, [], []⟩).createDots type dp i = .ok s1 ∧
      s1.inode dp = { s.inode dp with nlink := newNlink type (s.inode dp).nlink } ∧
      s1.setInode dp { s1.inode dp with entries := putEntry ⟨i, name⟩ (s1.inode dp).entries } =
        s.withEntry dp i name type major minor := by
    by_cases htype : type = .dir
    · subst htype
      refine ⟨_, createDots_eq hne (by simp [withNew]) (by simp [withNew]) hpos hi hdp, ?_, ?_⟩
      · simp [setInode, withNew, hne.symm, newNlink]
      · simp only [withEntry, withNew, setInode, inserted, newDnode, newNlink, update_self,
          update_idem, update_of_ne hne.symm, update_comm hne.symm, if_true]
    · refine ⟨_, by rw [createDots, if_neg htype], ?_, ?_⟩
      · simp [withNew, hne.symm, newNlink, htype]
      · simp [withEntry, withNew, setInode, inserted, newDnode, newNlink, htype, hne.symm]
  have hdir1 : (s1.inode dp).type = .dir := by rw [hat, hdir]
  have hentries1 : (s1.inode dp).entries = (s.inode dp).entries := by rw [hat]
  rw [hdots]
  simp only [bind, Except.bind]
  split_ifs with hroom
  · rw [dirlinkOr_none _ hdir1 (by rw [hentries1, habsent]) (by rwa [hentries1]) hi, hentry]
  · rw [dirlinkOr_full _ hdir1 (by rw [hentries1, habsent]) (by rwa [hentries1])]

theorem CacheOk.withEntry
    (hs : CacheOk s [dp]) (hvalid : s.valid dp = true) (hdir : (s.inode dp).type = .dir)
    (hfree : (s.inode i).type = .free) (htype : type ≠ .free) :
    CacheOk (s.withEntry dp i name type major minor) [dp, i] := by
  have hne : i ≠ dp := fun heq => by simp [heq ▸ hfree] at hdir
  have hnew := hs.withNew (y := newDnode type major minor dp i) hfree (by simpa using hne) htype
  refine (hnew.perm (List.Perm.swap ..)).setInode (i := dp)
    (y := { s.inode dp with
      nlink := newNlink type (s.inode dp).nlink
      entries := putEntry ⟨i, name⟩ (s.inode dp).entries }) (by simp [hdir]) fun _ => ?_
  simp only [DirFs.withNew, update_of_ne hne.symm]
  exact ⟨hvalid, hs.ref_pos List.mem_cons_self⟩

/-- What `P` holds of when an inode is made in the directory that `path` names: there is no free
inode, or no room for the name. -/
structure AllowsNew (P : DirPanic → Prop) (s : DirFs) (room : Prop) : Prop where
  noInodes : ¬FreeInode s → P .iallocNoInodes
  full : ¬room → P .dirlink

theorem allowsNew_noType (s : DirFs) (room : Prop) : AllowsNew (NoType safe) s room :=
  ⟨fun _ => nofun, fun _ => nofun⟩

theorem createNew_yields
    (hP : Allows P safe s 2) (hnew : AllowsNew P s (HasRoom (s.inode dp).entries))
    (hs : CacheOk s [dp]) (hvalid : s.valid dp = true) (hn : s.ninodes ≤ 2 ^ 16)
    (hdp : dp < s.ninodes)
    (hdir : (s.inode dp).type = .dir) (habsent : findEntry name (s.inode dp).entries = none)
    (htype : type ≠ .free) :
    Yields P
      (fun r => HasRoom (s.inode dp).entries ∧ ∃ i, 0 < i ∧ i < s.ninodes ∧
        (s.inode i).type = .free ∧ CacheOk (s.withEntry dp i name type major minor) [dp, i] ∧
        r = (some i, (s.withEntry dp i name type major minor).iput dp))
      (s.createNew dp name type major minor) := by
  rw [createNew]
  refine (ialloc_yields hP hnew.noInodes hs (by simp [hdir])).bind ?_
  rintro _ ⟨i, hpos, hlt, hfree, rfl⟩
  have hne : i ≠ dp := fun heq => by simp [heq ▸ hfree] at hdir
  refine Yields.bind_eq (ilock_new htype) ?_
  simp only [withNew_inode, withNew_setInode]
  rw [← bind_assoc, linkNew_eq hne hdir habsent hpos (by omega) (by omega)]
  split_ifs with hroom
  · exact .ok ⟨hroom, i, hpos, hlt, hfree, hs.withEntry hvalid hdir hfree htype, rfl⟩
  · exact .error (hnew.full hroom)

/-! ## `create` -/

/-- What `create` leaves, with a reference to the inode that it returns: open files and processes as
    they were, and an edit of the table if `ok`. It has made the inode if `new`. -/
structure Created (s : DirFs) (ok new : Prop) (r : Option ℕ × DirFs) : Prop where
  cache : CacheOk r.2 r.1.toList
  ninodes : r.2.ninodes = s.ninodes
  file : r.2.file = s.file
  proc : r.2.proc = s.proc
  alloc : ∀ ip, r.1 = some ip → (r.2.inode ip).type ≠ .free
  edit : ok → ∀ removable, Edit s.ninodes removable s.inode r.2.inode
  same : ¬new → SameTree s r.2
  made : new → ∃ ip, r.1 = some ip ∧ (s.inode ip).type = .free ∧ (r.2.inode ip).nlink = 1

theorem Created.of_same {ok new : Prop} {r : Option ℕ × DirFs} (hnew : ¬new)
    (hsame : SameTree s r.2)
    (hcache : CacheOk r.2 r.1.toList) (halloc : ∀ ip, r.1 = some ip → (r.2.inode ip).type ≠ .free) :
    Created s ok new r :=
  ⟨hcache, hsame.ninodes, hsame.file, hsame.proc, halloc, fun _ _ => hsame.inode ▸ .same,
    fun _ => hsame, fun h => absurd h hnew⟩

theorem Created.failed {ok new : Prop} {s' : DirFs} (h : Created s ok new (none, s')) :
    SameTree s s' := by
  refine h.same fun hnew => ?_
  obtain ⟨ip, hip, -⟩ := h.made hnew
  cases hip

theorem create_yields {cwd : ℕ}
    (hP : Allows P safe s 2) (hnew : AllowsNew P s (EntryRoom s.inode cwd path))
    (ht : TreeOk s.ninodes s.inode) (hn : s.ninodes ≤ 2 ^ 16) (hs : CacheOk s [])
    (hcwd : 0 < s.ref cwd) (hi : safe → Anchored s.inode cwd) (htype : type ≠ .free) :
    Yields P (fun r => EntryRoom s.inode cwd path ∧
        Created s (EntryOk s.inode cwd path type) (Creates s.inode cwd path) r)
      (s.create cwd path type major minor) := by
  rw [create, nameiparent]
  refine (namex_yields hP path true (fun _ => ht.walkable) hs hcwd hi).bind ?_
  rintro ⟨r, s1⟩ ⟨hr, hsame1, hs1⟩
  dsimp only at hr hsame1 hs1 ⊢
  match r, hr, hs1 with
  | none, hr, hs1 =>
    have hcreates : ¬Creates s.inode cwd path := by
      rintro ⟨x, hx, -⟩
      cases hr.trans hx
    exact .ok ⟨entryRoom_none hr.symm, .of_same hcreates hsame1 hs1 (by simp)⟩
  | some (dp, name), hr, hs1 =>
    have hdir : (s.inode dp).type = .dir := resolveLoop_dir hr.symm
    refine (ilock_yields hP.noType hs1 List.mem_cons_self fun _ => by
      simp [hsame1.inode, hdir]).bind ?_
    rintro s2 ⟨hsame2, hs2, -, hvalid, -⟩
    have hsame := hsame1.trans hsame2
    have hP2 := hP.congr hsame (Nat.le_refl 2)
    have hdir2 : (s2.inode dp).type = .dir := by rw [hsame.inode, hdir]
    cases hfind : findEntry name (s2.inode dp).entries with
    | some off =>
      have hcreates : ¬Creates s.inode cwd path := by
        rintro ⟨x, hx, habsent⟩
        cases hr.trans hx
        rw [← hsame.inode, hfind] at habsent
        cases habsent
      have hroom : EntryRoom s.inode cwd path := (entryRoom_some hr.symm).2 fun hnone => by
        rw [← hsame.inode, hfind] at hnone
        cases hnone
      obtain ⟨hmem, hne⟩ := mem_of_findEntry hfind
      refine (dirlookup_some hP2 hdir2 hfind hs2).bind ?_
      rintro ⟨_, s3⟩ ⟨rfl, hsame3, hs3, -⟩
      generalize hde : (s2.inode dp).entries.getD off ⟨0, []⟩ = de at hmem hne hs3 ⊢
      dsimp only at hsame3 hs3 ⊢
      have hkept := hs.kept.congr (hsame.trans hsame3)
      obtain ⟨hsame4, hs4, -⟩ := iput_same (hs3.perm (List.Perm.swap ..)) (hkept.cons _)
      have hsame' := (hsame.trans hsame3).trans hsame4
      refine (ilock_yields hP.noType hs4 List.mem_cons_self fun hsafe => ?_).bind ?_
      · rw [hsame'.inode]
        rw [hsame.inode] at hmem
        exact (ht.anchored_of_mem (ht.walkable.resolve (hi hsafe) hr.symm) hdir hmem hne).1
      · rintro s5 ⟨hsame5, hs5, -⟩
        have hsame'' := hsame'.trans hsame5
        split
        · next hfile =>
            exact .ok ⟨hroom, .of_same hcreates hsame'' hs5 (by simp [hfile.2])⟩
        · obtain ⟨hsame6, hs6, -⟩ := iput_same hs5 (hs.kept.congr hsame'')
          exact .ok ⟨hroom, .of_same hcreates (hsame''.trans hsame6) hs6 (by simp)⟩
    | none =>
      refine Yields.bind_eq (dirlookup_none hdir2 hfind) ?_
      have hiff : EntryRoom s.inode cwd path ↔ HasRoom (s2.inode dp).entries := by
        rw [entryRoom_some hr.symm, ← hsame.inode]
        exact ⟨fun hfits => hfits hfind, fun hfits _ => hfits⟩
      refine (createNew_yields hP2 ⟨fun h => hnew.noInodes fun hf => h (hf.congr hsame),
        fun h => hnew.full fun hf => h (hiff.1 hf)⟩ hs2 hvalid (by rw [hsame.ninodes]; exact hn)
        (by rw [hsame.ninodes]; exact (ht.bound dp (by simp [hdir])).2) hdir2 hfind htype).post ?_
      rintro _ ⟨hroom, i, hpos, hlt, hfree, hcache, rfl⟩
      have hne : i ≠ dp := fun heq => by simp [heq ▸ hfree] at hdir2
      have hinode : ((s2.withEntry dp i name type major minor).iput dp).inode i =
          newDnode type major minor dp i := by
        rw [(iput_of_ne _ hne).2.2]
        simp [withEntry, inserted, hne]
      have hcreates : Creates s.inode cwd path :=
        ⟨(dp, name), hr.symm, by rw [← hsame.inode, hfind]⟩
      refine ⟨hiff.2 hroom, iput_cache hcache, by simp [withEntry, hsame.ninodes],
        by simp [withEntry, hsame.file],
        by simp [withEntry, hsame.proc], ?_, fun hentry removable => ?_,
        fun hcreated => absurd hcreates hcreated, fun _ => ⟨i, rfl, ?_, ?_⟩⟩
      · rintro ip ⟨⟩
        rw [hinode]
        exact htype
      rotate_left
      · rw [← hsame.inode, hfree]
      · rw [hinode]
        rfl
      obtain ⟨hlive, hcount⟩ := hentry dp name hr.symm
      rw [← hsame.inode] at hlive hcount ⊢
      rw [← hsame.ninodes]
      have hinsert := insert_new (n := s2.ninodes) major minor hlive hcount hfind
        hpos hlt hfree htype
      have hkeep := iput_inode hcache fun _ hzero => by
        have hpos := hinsert.dp_live.2
        rw [show (inserted s2.inode dp i name _ _ dp).nlink = 0 from hzero] at hpos
        exact absurd hpos (by decide)
      rw [hkeep.1]
      exact .insert hinsert

end DirFs

end Xv6
