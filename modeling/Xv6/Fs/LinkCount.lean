import Xv6.Fs.Calls

set_option autoImplicit false

/-! # Exact link counts

In a run in which new entries go to directories that have a name, every link count is the number of
names, and an inode that no process refers to is allocated exactly while it has one. Directories
stay a tree.

A directory that has been removed while it is somebody's current directory still takes new entries
(`create_in_removed`): the new file has link count one, but the entry that names it is in a
directory without links, which is freed with its entries when the process leaves it. -/

namespace Xv6

open Transition Function

namespace DirFs

/-- Some process has the inode as its current directory or has a descriptor for it. -/
def Referenced (s : DirFs) (i : ℕ) : Prop :=
  (∃ p, (s.proc p).cwd = some i) ∨
    ∃ p fd f, (s.proc p).ofile fd = some f ∧ (s.file f).type = .inode ∧ (s.file f).ip = i

structure LinksExact (s : DirFs) : Prop where
  count : ∀ i, (s.inode i).type ≠ .free → (s.inode i).nlink.toInt = names s.ninodes s.inode i
  unreferenced : ∀ i, i ≠ 0 → ¬Referenced s i →
    ((s.inode i).type ≠ .free ↔ 0 < names s.ninodes s.inode i)

/-! ## The invariant gives exact counts -/

variable {s : DirFs}

theorem referenced_of_owned (h : FileOk s []) {i : ℕ} (hi : 0 < s.owned i) :
    Referenced s i := by
  by_cases hcwd : 0 < s.cwds i
  · obtain ⟨p, -, hp⟩ := Finset.exists_ne_zero_of_sum_ne_zero hcwd.ne'
    by_cases hpi : (s.proc p).cwd = some i
    · exact .inl ⟨p, hpi⟩
    · exact absurd (if_neg hpi) hp
  · have hopen : s.opens i ≠ 0 := by
      unfold owned at hi
      omega
    obtain ⟨f, -, hf⟩ := Finset.exists_ne_zero_of_sum_ne_zero hopen
    by_cases hfi : (s.file f).IsOpen i
    · -- an open file has a descriptor
      have hfds : s.fds f ≠ 0 := by
        have href := h.ref f
        have hpos := hfi.1
        rw [List.count_nil] at href
        omega
      obtain ⟨p, -, hp⟩ := Finset.exists_ne_zero_of_sum_ne_zero hfds
      obtain ⟨fd, -, hfd⟩ := Finset.exists_ne_zero_of_sum_ne_zero hp
      by_cases hpf : (s.proc p).ofile fd = some f
      · exact .inr ⟨p, fd, f, hpf, hfi.2⟩
      · exact absurd (if_neg hpf) hfd
    · exact absurd (if_neg hfi) hf

theorem FsOk.linksExact (h : FsOk s) : LinksExact s where
  count := by
    intro i hi
    rw [h.tree.exact i (h.tree.bound i hi).1.ne', Dnode.links_of_ne hi]
  unreferenced := by
    intro i hi href
    have hexact := h.tree.exact i hi
    constructor
    · intro halloc
      have hnlink : (s.inode i).nlink ≠ 0 := by
        intro hzero
        have hpos := h.cache.kept i halloc hzero
        exact href (referenced_of_owned h.files (by simpa using hpos))
      rw [Dnode.links_of_ne halloc] at hexact
      have hne : (s.inode i).nlink.toInt ≠ 0 := fun hzero => hnlink (toInt_eq_zero.1 hzero)
      omega
    · intro hpos
      exact Dnode.ne_free_of_links (by omega)

/-! ## Runs -/

/-- New entries go to directories with a name, and link counts stay in range. -/
def EntriesOk (a : Fin nproc × FsCall) (s : DirFs) : Prop := CallOk (fun _ _ => True) a s

instance (a : Fin nproc × FsCall) (s : DirFs) : Decidable (EntriesOk a s) :=
  inferInstanceAs (Decidable (CallOk _ a s))

theorem fsOk_of_reachable (h : Reachable step Boots EntriesOk s) : FsOk s := by
  refine h.invariant ?_ fun a s s' hs hok hstep => hs.step hok hstep
  rintro _ ⟨n, t, p, hcons, rfl⟩
  exact hcons.fsOk p

/-! ## A small image -/

/-- The root directory and seven free inodes. -/
def rootOnly : Itable :=
  update (fun _ => ⟨.free, 0, 0, 0, 0, 0, 0, [], []⟩) rootino
    ⟨.dir, 0, 0, 1, 0, 0, 0, [⟨rootino, dot⟩, ⟨rootino, dotdot⟩], []⟩

theorem rootOnly_root :
    rootOnly rootino = ⟨.dir, 0, 0, 1, 0, 0, 0, [⟨rootino, dot⟩, ⟨rootino, dotdot⟩], []⟩ :=
  update_self ..

theorem rootOnly_free {i : ℕ} (hi : i ≠ rootino) : rootOnly i = ⟨.free, 0, 0, 0, 0, 0, 0, [], []⟩ :=
  update_of_ne hi ..

theorem rootOnly_dir {d : ℕ} (hd : (rootOnly d).type = .dir) : d = rootino := by
  by_contra hne
  rw [rootOnly_free hne] at hd
  cases hd

theorem rootOnly_consistent : Consistent 8 rootOnly where
  tree := {
    root := by decide
    root_parent := by decide
    bound := by
      intro i hi
      have : i = rootino := by
        by_contra hne
        exact hi (by rw [rootOnly_free hne])
      rw [this]
      decide
    dots := by
      intro d hd
      obtain rfl := rootOnly_dir hd
      exact ⟨by decide, by decide⟩
    removed := by
      intro d hd hlive
      obtain rfl := rootOnly_dir hd
      exact absurd (by decide) hlive
    parent_live := by
      intro d hd
      obtain rfl := rootOnly_dir hd.1
      decide
    once := by
      intro d c hd hc
      obtain rfl := rootOnly_dir hd.1
      obtain rfl := rootOnly_dir hc.1
      decide
    exact := by
      intro i hi
      have hnaming : ∀ d, (rootOnly d).naming i = if rootino = d then (if i = rootino then 1 else 0)
          else 0 := by
        intro d
        by_cases hd : d = rootino
        · subst hd
          rw [rootOnly_root]
          simp [Dnode.naming, Dnode.Live, dotdot, dot, eq_comm]
        · rw [rootOnly_free hd, if_neg (Ne.symm hd)]
          rfl
      simp only [names, hnaming]
      rw [Finset.sum_ite_eq, if_pos (by decide)]
      by_cases hroot : i = rootino
      · subst hroot
        decide
      · rw [if_neg hroot, rootOnly_free hroot]
        rfl }
  named := by
    intro i hi
    have : i = rootino := by
      by_contra hne
      exact hi (by rw [rootOnly_free hne])
    rw [this]
    decide
  small := by decide

theorem boots_rootOnly (p : Fin nproc) : Boots (boot 8 rootOnly p) :=
  ⟨8, rootOnly, p, rootOnly_consistent, rfl⟩

/-! ## Exact counts -/

theorem links_exact (h : Reachable step Boots EntriesOk s) : LinksExact s :=
  (fsOk_of_reachable h).linksExact

/-- `mkdir d`, `open d/f` with `O_CREATE`, `link d/f g`, `unlink d/f`: the file keeps the name
    `g`. -/
def linkedRun : List (Fin nproc × FsCall) :=
  [(0, .mkdir [0x64]), (0, .openPath [0x64, 0x2f, 0x66] oCreate),
    (0, .link [0x64, 0x2f, 0x66] [0x67]), (0, .unlink [0x64, 0x2f, 0x66])]

set_option maxRecDepth 100000 in
theorem linkedRun_reaches : ∃ s, Reachable step Boots EntriesOk s ∧
    (s.inode 3).type = .file ∧ (s.inode 3).nlink = 1 ∧ s.ref 3 = 1 := by
  exact reachable_any step Boots EntriesOk linkedRun (boots_rootOnly 0)
    (fun s => (s.inode 3).type = .file ∧ (s.inode 3).nlink = 1 ∧ s.ref 3 = 1) (by decide +kernel)

theorem links_exact_linked : ∃ s, Reachable step Boots EntriesOk s ∧
    (s.inode 3).type = .file ∧ (s.inode 3).nlink = 1 ∧ LinksExact s := by
  obtain ⟨s, hreach, htype, hnlink, -⟩ := linkedRun_reaches
  exact ⟨s, hreach, htype, hnlink, links_exact hreach⟩

/-- The counts of the inode cache and of the file table are exact too, and nobody refers to a free
    inode. -/
theorem references_exact (h : Reachable step Boots EntriesOk s) :
    (∀ i, s.ref i = s.owned i ∧ (0 < s.owned i → (s.inode i).type ≠ .free)) ∧
    ∀ f, (s.file f).ref = s.fds f := by
  have hok := fsOk_of_reachable h
  refine ⟨fun i => ⟨?_, (hok.cache i).owned_alloc⟩, fun f => ?_⟩
  · rw [(hok.cache i).ref_eq, List.count_nil, Nat.add_zero]
  · rw [hok.files.ref f, List.count_nil, Nat.add_zero]

theorem references_exact_linked :
    ∃ s, Reachable step Boots EntriesOk s ∧ s.ref 3 = 1 ∧ s.owned 3 = 1 := by
  obtain ⟨s, hreach, -, -, href⟩ := linkedRun_reaches
  have hexact := (references_exact hreach).1 3
  exact ⟨s, hreach, href, by omega⟩

/-- `mkdir d`, `chdir d`, `unlink ../d`, `open f` with `O_CREATE`. -/
def removedRun : List (Fin nproc × FsCall) :=
  [(0, .mkdir [0x64]), (0, .chdir [0x64]), (0, .unlink [0x2e, 0x2e, 0x2f, 0x64]),
    (0, .openPath [0x66] oCreate)]

set_option maxRecDepth 100000 in
theorem create_in_removed :
    ¬∀ s, Reachable step Boots (fun _ _ => True) s → LinksExact s := by
  intro h
  obtain ⟨s, hreach, htype, hcount⟩ := reachable_any step Boots (fun _ _ => True) removedRun
    (boots_rootOnly 0)
    (fun s => (s.inode 3).type ≠ .free ∧ (s.inode 3).nlink.toInt ≠ names s.ninodes s.inode 3)
    (by decide +kernel)
  exact hcount ((h s hreach).count 3 htype)

end DirFs

/-! ## The directory tree -/

/-- Following `..` leads to the root. -/
inductive LeadsUp (t : Itable) : ℕ → Prop
  | root : LeadsUp t rootino
  | up {d : ℕ} : LeadsUp t (t d).parent → LeadsUp t d

def Rooted (t : Itable) : Prop := ∀ d, (t d).Live → LeadsUp t d

/-- Each live directory has a way up to the root, a live parent and, unless it is the root, one
    name, which is in its parent. -/
def OneTree (t : Itable) : Prop :=
  Rooted t ∧ ∀ c, (t c).Live → (t (t c).parent).Live ∧ ∀ d, (t d).Live →
    (t d).rest.countP (fun de => de.inum = c) = if c ≠ rootino ∧ (t c).parent = d then 1 else 0

section

variable {n d : ℕ} {removable : ℕ → Prop} {t t' : Itable}

/-- The way up is the same where live directories keep their parents. -/
theorem LeadsUp.keep (ht : TreeOk n t) (ht' : TreeOk n t') (h : LeadsUp t d)
    (hparent : ∀ d, (t d).Live → (t' d).Live → (t' d).parent = (t d).parent) (hd : (t d).Live)
    (hd' : (t' d).Live) : LeadsUp t' d := by
  induction h with
  | root => exact .root
  | @up d _ ih =>
    have hlive := ht'.parent_live d hd'
    refine .up ?_
    rw [hparent d hd hd'] at hlive ⊢
    exact ih (ht.parent_live d hd) hlive

theorem Rooted.edit (ht : TreeOk n t) (h : Rooted t) (e : Edit n removable t t') : Rooted t' := by
  have ht' := e.treeOk ht
  intro d hd'
  cases e with
  | same => exact h d hd'
  | @insert dp i name k y e =>
    have hkeep : ∀ d, (t d).Live → (inserted t dp i name k y d).Live →
        LeadsUp (inserted t dp i name k y) d := by
      intro d hd
      refine (h d hd).keep ht ht' (fun c hc hc' => ?_) hd
      exact ((e.dir_cases ht hc'.1).resolve_left fun hi => e.ne_of_live hc hi.1).2.2.1
    obtain ⟨rfl, hdir⟩ | ⟨-, -, -, hlive⟩ := e.dir_cases ht hd'.1
    · refine .up ?_
      rw [e.at_i, (e.i_dotted hdir).2.1]
      exact hkeep dp e.live e.dp_live
    · exact hkeep d (hlive hd') hd'
  | clear e _ =>
    have hd := ((e.live_iff ht d).1 hd').1
    exact (h d hd).keep ht ht' (fun c _ hc' => e.parent_eq ht c ((e.live_iff ht c).1 hc').2) hd hd'

end

namespace DirFs

/-- From an image whose directories are a tree no run makes anything else of them. -/
theorem directories_tree {s : DirFs} (h : Reachable step (fun s => Boots s ∧ Rooted s.inode) EntriesOk s) :
    OneTree s.inode := by
  have hall : FsOk s ∧ Rooted s.inode := by
    refine h.invariant (P := fun s => FsOk s ∧ Rooted s.inode) ?_ ?_
    · rintro s ⟨hboots, hrooted⟩
      exact ⟨fsOk_of_reachable (.init hboots), hrooted⟩
    · rintro a s s' ⟨hs, hrooted⟩ hok hstep
      refine ⟨hs.step hok hstep, fun d hd => ?_⟩
      obtain ⟨t, hedit, hfreed⟩ := ((step_yields hs _ a).1 s' hstep).table hok
      have hd0 := (hfreed.live_iff d).1 hd
      have ht := hedit.treeOk hs.tree
      exact (hrooted.edit hs.tree hedit d hd0).keep ht (hfreed.treeOk ht)
        (fun c _ hc => by rw [hfreed.eq_of_alloc hc.ne_free]) hd0 hd
  exact ⟨hall.2, fun c hc => ⟨hall.1.tree.parent_live c hc, fun d hd => hall.1.tree.once d c hd hc⟩⟩

set_option maxRecDepth 100000 in
/-- `mkdir d` and `mkdir d/e`. -/
theorem directories_tree_nested :
    ∃ s, Reachable step (fun s => Boots s ∧ Rooted s.inode) EntriesOk s ∧ OneTree s.inode ∧
      (s.inode 3).Live ∧ (s.inode 3).parent = 2 := by
  have hrooted : Rooted (boot 8 rootOnly 0).inode := by
    intro d hd
    rw [rootOnly_dir hd.1]
    exact .root
  obtain ⟨s, hreach, hdir⟩ := reachable_any step (fun s => Boots s ∧ Rooted s.inode) EntriesOk
    [(0, .mkdir [0x64]), (0, .mkdir [0x64, 0x2f, 0x65])] ⟨boots_rootOnly 0, hrooted⟩
    (fun s => (s.inode 3).Live ∧ (s.inode 3).parent = 2) (by decide +kernel)
  exact ⟨s, hreach, directories_tree hreach, hdir⟩

end DirFs

end Xv6
