import Xv6.Fs.Create

set_option autoImplicit false

/-! # `link` and `unlink`

Each of the two calls is one edit of the table, after which inodes may be freed. -/

namespace Xv6

open Function Stoppable

/-- The link count of the inode at `path` can grow. -/
def CountOk (t : Itable) (cwd : ℕ) (path : List Byte) : Prop :=
  ∀ i name, resolve t cwd path false = some (i, name) → (t i).nlink.toInt < 32767

/-- A directory that `unlink` would remove at `path` is one of the removable ones. -/
def RemoveOk (removable : ℕ → Prop) (t : Itable) (cwd : ℕ) (path : List Byte) : Prop :=
  ∀ dp name off, resolve t cwd path true = some (dp, name) →
    findEntry name (t dp).entries = some off →
    (t ((t dp).entries.getD off ⟨0, []⟩).inum).type = .dir →
    removable ((t dp).entries.getD off ⟨0, []⟩).inum

instance (t : Itable) (cwd : ℕ) (path : List Byte) : Decidable (CountOk t cwd path) :=
  decidable_of_iff (∀ x ∈ resolve t cwd path false, (t x.1).nlink.toInt < 32767)
    ⟨fun h i name hr => h (i, name) hr, fun h x hx => h x.1 x.2 hx⟩

instance (removable : ℕ → Prop) [DecidablePred removable] (t : Itable) (cwd : ℕ)
    (path : List Byte) :
    Decidable (RemoveOk removable t cwd path) :=
  decidable_of_iff (∀ x ∈ resolve t cwd path true, ∀ off ∈ findEntry x.2 (t x.1).entries,
      (t ((t x.1).entries.getD off ⟨0, []⟩).inum).type = .dir →
        removable ((t x.1).entries.getD off ⟨0, []⟩).inum)
    ⟨fun h dp name off hr hoff => h (dp, name) hr off hoff,
      fun h x hx off hoff => h x.1 x.2 off hx hoff⟩

namespace DirFs

variable {s : DirFs} {held : List ℕ} {safe : Prop} {removable : ℕ → Prop} {P : DirPanic → Prop}

/-- What a call leaves that does not touch open files and processes. -/
structure Edited (s : DirFs) (ok : Prop) (removable : ℕ → Prop) (s' : DirFs) : Prop where
  cache : CacheOk s' []
  ninodes : s'.ninodes = s.ninodes
  file : s'.file = s.file
  proc : s'.proc = s.proc
  table : ok → ∃ t, Edit s.ninodes removable s.inode t ∧ Freed t s'.inode

theorem Edited.of_same {ok : Prop} {s' : DirFs} (hsame : SameTree s s') (hcache : CacheOk s' []) :
    Edited s ok removable s' :=
  ⟨hcache, hsame.ninodes, hsame.file, hsame.proc, fun _ => ⟨_, .same, hsame.inode ▸ .refl⟩⟩

/-- A call that returns -1 changes nothing but the cache. -/
def Refused (s : DirFs) (r : Int × DirFs) : Prop := r.1 = -1 → SameTree s r.2

theorem Edited.refused {ok : Prop} {r : Int × DirFs} (hsame : SameTree s r.2)
    (hcache : CacheOk r.2 []) :
    Edited s ok removable r.2 ∧ Refused s r :=
  ⟨.of_same hsame hcache, fun _ => hsame⟩

theorem refused_of_ok {s' : DirFs} : Refused s (0, s') := fun h => by cases h

/-! ## `mkdir` and `mknod` -/

theorem sysCreate_yields {cwd : ℕ} {path : List Byte} {type : Ftype} {major minor : BitVec 16}
    (hP : Allows P safe s 2) (hnew : AllowsNew P s (EntryRoom s.inode cwd path))
    (ht : TreeOk s.ninodes s.inode) (hn : s.ninodes ≤ 2 ^ 16) (hs : CacheOk s [])
    (hcwd : 0 < s.ref cwd) (hi : safe → Anchored s.inode cwd) (htype : type ≠ .free) :
    Yields P (fun r => EntryRoom s.inode cwd path ∧
        Edited s (EntryOk s.inode cwd path type) removable r.2 ∧ Refused s r)
      (s.sysCreate cwd path type major minor) := by
  refine (create_yields hP hnew ht hn hs hcwd hi htype).bind ?_
  rintro ⟨r, s'⟩ ⟨hroom, hr⟩
  cases r with
  | none => exact .ok ⟨hroom, Edited.refused hr.failed hr.cache⟩
  | some ip =>
    obtain ⟨hcache, hninodes, hfile, hproc, -, hedit, -⟩ := hr
    dsimp only at hcache hninodes hfile hproc hedit ⊢
    exact .ok ⟨hroom, ⟨iput_cache hcache, by simp [hninodes], by simp [hfile], by simp [hproc],
      fun h => ⟨_, hedit h _, iput_freed hcache⟩⟩, refused_of_ok⟩

/-! ## `link` -/

/-- The table while `link` has counted the new name already. -/
def counted (t : Itable) (ip : ℕ) : Itable := update t ip { t ip with nlink := (t ip).nlink + 1 }

theorem counted_same (t : Itable) (ip i : ℕ) :
    (counted t ip i).type = (t i).type ∧ (counted t ip i).entries = (t i).entries := by
  by_cases hi : i = ip
  · simp [counted, hi]
  · simp [counted, hi]

/-- The label `bad` takes the new link back. -/
theorem linkBad_yields {ip : ℕ} {t : Itable} (hs : CacheOk s [ip]) (hinode : s.inode = counted t ip)
    (halloc : (t ip).type ≠ .free) (hkept : (t ip).nlink = 0 → 0 < s.owned ip) :
    Yields P
      (fun r => CacheOk r.2 [] ∧ r.2.inode = t ∧ r.2.ninodes = s.ninodes ∧ r.2.file = s.file ∧
        r.2.proc = s.proc)
      (s.linkBad ip) := by
  refine (ilock_yields (absurd trivial) hs List.mem_cons_self fun _ => by
    simpa [hinode, counted] using halloc).bind ?_
  rintro s1 ⟨hsame, hs1, -, hvalid, -⟩
  have hback : (s1.setInode ip { s1.inode ip with nlink := (s1.inode ip).nlink - 1 }).inode = t :=
    by
    simp only [setInode, hsame.inode, hinode, counted, update_self, update_idem,
      BitVec.add_sub_cancel, update_eq_self]
  have hs2 := hs1.setInode (i := ip) (y := { s1.inode ip with nlink := (s1.inode ip).nlink - 1 })
    (by simpa [hsame.inode, hinode, counted] using halloc)
    fun _ => ⟨hvalid, hs1.ref_pos List.mem_cons_self⟩
  have hkeep := iput_inode hs2 fun _ hzero => by
    rw [hback] at hzero
    rw [setInode_owned, owned_congr hsame.file hsame.proc]
    exact Nat.add_pos_left (hkept hzero) _
  refine .ok ⟨iput_cache hs2, hkeep.1.trans hback, ?_, ?_, ?_⟩
  · simp [setInode, hsame.ninodes]
  · simp [setInode, hsame.file]
  · simp [setInode, hsame.proc]

/-- The name is put into `dp`. -/
theorem insert_link {n dp ip : ℕ} {t : Itable} {name : Name} (ht : TreeOk n t)
    (hlive : (t dp).Live) (habsent : findEntry name (t dp).entries = none)
    (hcount : (t ip).nlink.toInt < 32767) (halloc : (t ip).type ≠ .free)
    (hfile : (t ip).type ≠ .dir) :
    Insert n t dp ip name (t dp).nlink { t ip with nlink := (t ip).nlink + 1 } where
  live := hlive
  absent := habsent
  bound := ht.bound ip halloc
  not_dir := hfile
  alloc := halloc
  links := by rw [Dnode.links_of_ne halloc, toInt_add_one hcount]
  count := by simp [hfile]
  dir := fun hdir => absurd hdir hfile

theorem resolve_counted (t : Itable) (ip cwd : ℕ) (path : List Byte) (parent : Bool) :
    resolve (counted t ip) cwd path parent = resolve t cwd path parent :=
  resolveLoop_congr (counted_same t ip) ..

/-- `link` after the count has been raised. -/
theorem linkName_yields (removable : ℕ → Prop) {cwd ip : ℕ} {new : List Byte} {s1 : DirFs}
    (hP : Allows P safe s 3) (hfull : ¬EntryRoom s.inode cwd new → P .dirlink)
    (ht : TreeOk s.ninodes s.inode) (hn : s.ninodes ≤ 2 ^ 16) (hs : CacheOk s [])
    (hcwd : 0 < s.owned cwd) (hi : safe → Anchored s.inode cwd) (halloc : (s.inode ip).type ≠ .free)
    (hfile : (s.inode ip).type ≠ .dir) (hs1 : CacheOk s1 [ip])
    (hinode : s1.inode = counted s.inode ip)
    (hninodes : s1.ninodes = s.ninodes) (hfiles : s1.file = s.file) (hproc : s1.proc = s.proc) :
    Yields P
      (fun r => EntryRoom s.inode cwd new ∧
        Edited s (EntryOk s.inode cwd new .file ∧ (s.inode ip).nlink.toInt < 32767) removable r.2 ∧
        Refused s r)
      (do
        let (r, s) ← s1.nameiparent cwd new
        match r with
        | none => s.linkBad ip
        | some (dp, name) =>
          let s ← s.ilock dp
          let (ok, s) ← s.dirlink dp name ip
          if ok then return (0, (s.iput dp).iput ip)
          else (s.iput dp).linkBad ip) := by
  -- every failure ends at the label `bad`
  have hbad : EntryRoom s.inode cwd new → ∀ s2, SameTree s1 s2 → CacheOk s2 [ip] → Yields P
      (fun r => EntryRoom s.inode cwd new ∧
        Edited s (EntryOk s.inode cwd new .file ∧ (s.inode ip).nlink.toInt < 32767) removable r.2 ∧
          Refused s r)
      (s2.linkBad ip) := by
    intro hroom s2 hsame hs2
    refine (linkBad_yields hs2 (hsame.inode.trans hinode) halloc fun hzero => ?_).post ?_
    · rw [owned_congr (hsame.file.trans hfiles) (hsame.proc.trans hproc)]
      simpa using hs.kept ip halloc hzero
    · rintro r ⟨hcache, htable, hnin, hfil, hpro⟩
      exact ⟨hroom, Edited.refused ⟨hnin.trans (hsame.ninodes.trans hninodes), htable,
        hfil.trans (hsame.file.trans hfiles), hpro.trans (hsame.proc.trans hproc)⟩ hcache⟩
  have hcwd1 : 0 < s1.ref cwd := hs1.ref_pos_of_owned (by rwa [owned_congr hfiles hproc])
  have hP1 : Allows P safe s1 3 := hP.of_users (users_congr hninodes hfiles hproc) (Nat.le_refl _)
  rw [nameiparent]
  refine (namex_yields hP1 new true (fun _ => hinode ▸ ht.walkable.congr (counted_same s.inode ip)) hs1
    hcwd1 hi).bind ?_
  rintro ⟨r, s2⟩ ⟨hr, hsame, hs2⟩
  dsimp only at hr hsame hs2 ⊢
  rw [hinode, resolve_counted] at hr
  rcases r with _ | ⟨dp, name⟩
  · exact hbad (entryRoom_none hr.symm) s2 hsame hs2
  · have hdir : (s.inode dp).type = .dir := resolveLoop_dir hr.symm
    have hne : dp ≠ ip := fun heq => hfile (heq ▸ hdir)
    have hdp : s1.inode dp = s.inode dp := by simp [hinode, counted, hne]
    refine (ilock_yields hP.noType hs2 List.mem_cons_self fun _ => by
      simp [hsame.inode, hdp, hdir]).bind ?_
    rintro s3 ⟨hsame3, hs3, -, hvalid, -⟩
    have hsame' := hsame.trans hsame3
    have hdp3 : s3.inode dp = s.inode dp := by rw [hsame'.inode, hdp]
    have hdir3 : (s3.inode dp).type = .dir := by rw [hdp3, hdir]
    cases hfind : findEntry name (s3.inode dp).entries with
    | some off =>
      have hroom : EntryRoom s.inode cwd new := (entryRoom_some hr.symm).2 fun hnone => by
        rw [← hdp3, hfind] at hnone
        cases hnone
      refine (dirlink_some (hP1.congr hsame' (Nat.le_refl _)) hdir3 hfind hs3).bind ?_
      rintro ⟨_, s4⟩ ⟨rfl, hsame4, hs4⟩
      have hsame'' := hsame'.trans hsame4
      obtain ⟨hsame5, hs5, -⟩ := iput_same hs4 (hs1.kept.congr hsame'')
      exact hbad hroom _ (hsame''.trans hsame5) hs5
    | none =>
      have hip : ip < 2 ^ 16 := (ht.bound ip halloc).2.trans_le hn
      have hiff : EntryRoom s.inode cwd new ↔ HasRoom (s3.inode dp).entries := by
        rw [entryRoom_some hr.symm, ← hdp3]
        exact ⟨fun hfits => hfits hfind, fun hfits _ => hfits⟩
      by_cases hroom : HasRoom (s3.inode dp).entries
      swap
      · rw [dirlink_full hdir3 hfind hroom]
        exact .error (hfull fun hok => hroom (hiff.1 hok))
      refine Yields.bind_eq (dirlink_none hdir3 hfind hroom hip) ?_
      have hs4 := hs3.setInode (i := dp)
        (y := { s3.inode dp with entries := putEntry ⟨ip, name⟩ (s3.inode dp).entries })
        (by simp [hdir3]) fun _ => ⟨hvalid, hs3.ref_pos List.mem_cons_self⟩
      refine .ok ⟨hiff.2 hroom, ⟨iput_cache (iput_cache hs4), ?_, ?_, ?_, ?_⟩, refused_of_ok⟩
      · simp [setInode, hsame'.ninodes, hninodes]
      · simp [setInode, hsame'.file, hfiles]
      · simp [setInode, hsame'.proc, hproc]
      · rintro ⟨hentry, hcount⟩
        rw [hdp3] at hfind
        have hlive := (hentry dp name hr.symm).1
        refine ⟨_, .insert (insert_link ht hlive hfind hcount halloc hfile), ?_⟩
        have htable : inserted s.inode dp ip name (s.inode dp).nlink
            { s.inode ip with nlink := (s.inode ip).nlink + 1 } =
            (s3.setInode dp { s3.inode dp with
              entries := putEntry ⟨ip, name⟩ (s3.inode dp).entries }).inode := by
          rw [hdp3]
          simp [inserted, setInode, hsame'.inode, hinode, counted]
        rw [htable]
        exact (iput_freed hs4).trans (iput_freed (iput_cache hs4))

/-- The new name of `link` finds room, if it is put anywhere. -/
def LinkRoom (t : Itable) (cwd : ℕ) (old new : List Byte) : Prop :=
  ∀ x ∈ resolve t cwd old false, (t x.1).type ≠ .dir → EntryRoom t cwd new

theorem sysLink_yields {cwd : ℕ} {old new : List Byte} (hP : Allows P safe s 3)
    (hfull : ¬LinkRoom s.inode cwd old new → P .dirlink) (ht : TreeOk s.ninodes s.inode)
    (hn : s.ninodes ≤ 2 ^ 16) (hs : CacheOk s []) (hcwd : 0 < s.owned cwd)
    (hi : safe → Anchored s.inode cwd) :
    Yields P
      (fun r => LinkRoom s.inode cwd old new ∧
        Edited s (EntryOk s.inode cwd new .file ∧ CountOk s.inode cwd old) removable r.2 ∧
        Refused s r)
      (s.sysLink cwd old new) := by
  rw [sysLink]
  refine (namei_yields (hP.congr .refl (by decide)) old (fun _ => ht.walkable) hs
    (hs.ref_pos_of_owned hcwd) hi).bind ?_
  rintro ⟨r, s1⟩ ⟨hr, hsame1, hs1⟩
  dsimp only at hr hsame1 hs1 ⊢
  match r, hr, hs1 with
  | none, hr, hs1 =>
    refine .ok ⟨fun x hx => ?_, Edited.refused hsame1 hs1⟩
    rw [Option.mem_def] at hx
    rw [hx] at hr
    cases hr
  | some ip, hr, hs1 =>
    obtain ⟨⟨ip, name'⟩, hip, rfl⟩ := Option.map_eq_some_iff.1 hr.symm
    dsimp only at hs1 ⊢
    have hroom : LinkRoom s.inode cwd old new ↔
        ((s.inode ip).type ≠ .dir → EntryRoom s.inode cwd new) := by
      rw [LinkRoom, hip]
      simp
    rw [hroom] at hfull ⊢
    refine (ilock_yields hP.noType hs1 List.mem_cons_self fun hsafe => ?_).bind ?_
    · rw [hsame1.inode]
      exact (ht.walkable.resolve (hi hsafe) hip).1
    rintro s2 ⟨hsame2, hs2, halloc, hvalid, -⟩
    have hsame := hsame1.trans hsame2
    rw [hsame1.inode] at halloc
    rw [hsame.inode]
    split
    · next hdir =>
        obtain ⟨hsame3, hs3, -⟩ := iput_same hs2 (hs.kept.congr hsame)
        exact .ok ⟨fun hne => absurd hdir hne, Edited.refused (hsame.trans hsame3) hs3⟩
    · next hfile =>
        have hs3 := hs2.setInode
          (y := { s.inode ip with nlink := (s.inode ip).nlink + 1 }) halloc
          fun _ => ⟨hvalid, hs2.ref_pos List.mem_cons_self⟩
        refine (linkName_yields removable hP (fun h => hfull fun hok => h (hok hfile))
          ht hn hs hcwd hi halloc hfile hs3
            (by simp [setInode, counted, hsame.inode]) hsame.ninodes hsame.file
          hsame.proc).post ?_
        rintro r ⟨hok, hedited, hrefused⟩
        exact ⟨fun _ => hok, { hedited with table := fun h => hedited.table ⟨h.1, h.2 _ _ hip⟩ },
          hrefused⟩

/-! ## `unlink` -/

theorem unlinkEntry_edited {dp ip off : ℕ} {name : Name} (ht : TreeOk s.ninodes s.inode)
    (e : Clear s.inode dp ip name off) (hs : CacheOk s [ip, dp]) (hdp : s.valid dp = true)
    (hip : s.valid ip = true) :
    CacheOk (s.unlinkEntry dp ip off) [] ∧ Freed (cleared s.inode dp ip off)
      (s.unlinkEntry dp ip off).inode ∧ (s.unlinkEntry dp ip off).ninodes = s.ninodes ∧
      (s.unlinkEntry dp ip off).file = s.file ∧ (s.unlinkEntry dp ip off).proc = s.proc := by
  have hne := e.ne ht
  -- the directory without the entry
  have hstate : (
      let s1 := s.setInode dp { s.inode dp with entries := (s.inode dp).entries.set off ⟨0, []⟩ }
      if (s1.inode ip).type = .dir then
        s1.setInode dp { s1.inode dp with nlink := (s1.inode dp).nlink - 1 }
      else s1) = s.setInode dp (cleared s.inode dp ip off dp) := by
    rw [Clear.at_dp hne]
    simp only [setInode, update_of_ne hne]
    split <;> simp_all
  have hs1 := (hs.perm (List.Perm.swap ..)).setInode (y := cleared s.inode dp ip off dp)
    (e.dp_live ht).ne_free fun _ => ⟨hdp, hs.ref_pos (by simp)⟩
  have hkeep := iput_inode hs1 fun _ hzero => by
    have hpos := (e.dp_live ht).2
    simp only [setInode, update_self] at hzero
    rw [hzero] at hpos
    exact absurd hpos (by decide)
  have hs2 := iput_cache hs1
  have hinode : ((s.setInode dp (cleared s.inode dp ip off dp)).iput dp).inode ip = s.inode ip := by
    rw [hkeep.1]
    simp [setInode, hne]
  have hs3 := hs2.setInode (i := ip) (y := cleared s.inode dp ip off ip)
    (by rw [Clear.type_eq]; exact e.alloc ht) fun _ =>
      ⟨by rw [hkeep.2]; exact hip, hs2.ref_pos List.mem_cons_self⟩
  have htable : (((s.setInode dp (cleared s.inode dp ip off dp)).iput dp).setInode ip
      (cleared s.inode dp ip off ip)).inode = cleared s.inode dp ip off := by
    simp only [setInode] at hkeep ⊢
    rw [hkeep.1, Clear.at_dp hne, Clear.at_i]
    rfl
  have hfinal : s.unlinkEntry dp ip off =
      (((s.setInode dp (cleared s.inode dp ip off dp)).iput dp).setInode ip
        (cleared s.inode dp ip off ip)).iput ip := by
    rw [Clear.at_i, unlinkEntry, hstate]
    dsimp only
    rw [hinode]
  have hfreed := iput_freed hs3
  rw [htable] at hfreed
  rw [hfinal]
  refine ⟨iput_cache hs3, hfreed, ?_, ?_, ?_⟩
  · simp [setInode]
  · simp [setInode]
  · simp [setInode]

theorem sysUnlink_yields {cwd : ℕ} {path : List Byte} (ht : TreeOk s.ninodes s.inode)
    (hs : CacheOk s []) (hcwd : 0 < s.ref cwd) (hi : safe → Anchored s.inode cwd) :
    Yields (NoType safe)
      (fun r => Edited s (RemoveOk removable s.inode cwd path) removable r.2 ∧ Refused s r)
      (s.sysUnlink cwd path) := by
  rw [sysUnlink, nameiparent]
  refine (namex_yields (allows_noType s _) path true (fun _ => ht.walkable) hs hcwd hi).bind ?_
  rintro ⟨r, s1⟩ ⟨hr, hsame1, hs1⟩
  dsimp only at hr hsame1 hs1 ⊢
  rcases r with _ | ⟨dp, name⟩
  · exact .ok (Edited.refused hsame1 hs1)
  · have hdir : (s.inode dp).type = .dir := resolveLoop_dir hr.symm
    refine (ilock_yields (allows_noType s 0).noType hs1 List.mem_cons_self fun _ => by
      simp [hsame1.inode, hdir]).bind ?_
    rintro s2 ⟨hsame2, hs2, -, hvalid2, -⟩
    have hsame := hsame1.trans hsame2
    have hdir2 : (s2.inode dp).type = .dir := by rw [hsame.inode, hdir]
    obtain ⟨hput, hcache, -⟩ := iput_same hs2 (hs.kept.congr hsame)
    by_cases hdots : name = dot ∨ name = dotdot
    · rw [if_pos hdots]
      exact .ok (Edited.refused (hsame.trans hput) hcache)
    rw [if_neg hdots]
    cases hfind : findEntry name (s2.inode dp).entries with
    | none =>
      refine Yields.bind_eq (dirlookup_none hdir2 hfind) ?_
      exact .ok (Edited.refused (hsame.trans hput) hcache)
    | some off =>
      obtain ⟨hmem, hne⟩ := mem_of_findEntry hfind
      refine (dirlookup_some (allows_noType s2 _) hdir2 hfind hs2).bind ?_
      rintro ⟨_, s3⟩ ⟨rfl, hsame3, hs3, hkeep3⟩
      rw [hsame.inode] at hfind hmem hne hs3 ⊢
      generalize hde : (s.inode dp).entries.getD off ⟨0, []⟩ = de at hmem hne hs3 ⊢
      dsimp only at hsame3 hs3 hkeep3 ⊢
      refine (ilock_yields (allows_noType s 0).noType hs3 List.mem_cons_self
        fun hsafe => ?_).bind ?_
      · rw [hsame3.inode, hsame.inode]
        exact (ht.anchored_of_mem (ht.walkable.resolve (hi hsafe) hr.symm) hdir hmem hne).1
      rintro s4 ⟨hsame4, hs4, -, hvalid4, hmono4⟩
      have hsame' := (hsame.trans hsame3).trans hsame4
      rw [hsame'.inode]
      by_cases hnlink : (s.inode de.inum).nlink.toInt < 1
      · rw [if_pos hnlink]
        exact .error (fun hne => by cases hne)
      rw [if_neg hnlink]
      by_cases hempty : (s.inode de.inum).type = .dir ∧ isdirempty (s.inode de.inum) = false
      · rw [if_pos hempty]
        have hkept := hs.kept.congr hsame'
        obtain ⟨hsame5, hs5, -⟩ := iput_same hs4 (hkept.cons dp)
        obtain ⟨hsame6, hs6, -⟩ := iput_same hs5 (hkept.congr hsame5)
        exact .ok (Edited.refused ((hsame'.trans hsame5).trans hsame6) hs6)
      · rw [if_neg hempty]
        have hclear : Clear s.inode dp de.inum name off :=
          ⟨hdir, not_or.1 hdots, hfind, congrArg Dirent.inum hde, fun hdir => by
            simpa [hdir] using hempty⟩
        have hdp4 : s4.valid dp = true := hmono4 dp (by rw [hkeep3 dp List.mem_cons_self, hvalid2])
        obtain ⟨hcache', hfreed, hninodes, hfile, hproc⟩ := unlinkEntry_edited
          (by rwa [hsame'.ninodes, hsame'.inode]) (by rwa [hsame'.inode]) hs4 hdp4 hvalid4
        rw [hsame'.inode] at hfreed
        refine .ok ⟨⟨hcache', hninodes.trans hsame'.ninodes, hfile.trans hsame'.file,
          hproc.trans hsame'.proc, fun hok => ⟨_, .clear hclear fun hdir' => ?_, hfreed⟩⟩,
            refused_of_ok⟩
        have hremove := hok dp name off hr.symm hfind
        rw [hde] at hremove
        exact hremove hdir'

end DirFs

end Xv6
