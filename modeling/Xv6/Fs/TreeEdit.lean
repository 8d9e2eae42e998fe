import Xv6.Fs.Tree

set_option autoImplicit false

/-! # Edits of the directory tree

`inserted` puts an entry for `i` into `dp` and stores the record `y` for `i`: the new inode of
`create`, or the old one with one more link. `cleared` clears an entry for `i` in `dp` and takes one
link from `i`. Where `i` is a directory, the link count of `dp` changes too, on account of the entry
`..` of `i`. -/

namespace Xv6

open Function

/-! ## An entry is put into a live directory -/

def inserted (t : Itable) (dp i : ℕ) (name : Name) (k : BitVec 16) (y : Dnode) : Itable :=
  update (update t i y) dp { t dp with nlink := k, entries := putEntry ⟨i, name⟩ (t dp).entries }

structure Insert (n : ℕ) (t : Itable) (dp i : ℕ) (name : Name) (k : BitVec 16)
    (y : Dnode) : Prop where
  live : (t dp).Live
  absent : findEntry name (t dp).entries = none
  bound : 0 < i ∧ i < n
  not_dir : (t i).type ≠ .dir
  alloc : y.type ≠ .free
  links : y.nlink.toInt = (t i).links + 1
  count : k.toInt = (t dp).nlink.toInt + if y.type = .dir then 1 else 0
  /-- A directory is new and has the entries `.` and `..`. -/
  dir : y.type = .dir → (t i).type = .free ∧ y.entries = [⟨i, dot⟩, ⟨dp, dotdot⟩]

namespace Insert

variable {n dp i : ℕ} {t : Itable} {name : Name} {k : BitVec 16} {y : Dnode} {d : ℕ}

theorem ne_of_live (e : Insert n t dp i name k y) (hd : (t d).Live) : d ≠ i :=
  fun hi => e.not_dir (hi ▸ hd.1)

theorem ne (e : Insert n t dp i name k y) : i ≠ dp := (e.ne_of_live e.live).symm

theorem at_dp : inserted t dp i name k y dp =
    { t dp with nlink := k, entries := putEntry ⟨i, name⟩ (t dp).entries } := by
  simp [inserted]

theorem at_i (e : Insert n t dp i name k y) : inserted t dp i name k y i = y := by
  simp [inserted, e.ne]

theorem at_other (hdp : d ≠ dp) (hi : d ≠ i) : inserted t dp i name k y d = t d := by
  simp [inserted, hdp, hi]

section

variable (e : Insert n t dp i name k y)

include e

theorem name_ne (h : TreeOk n t) : name ≠ dot ∧ name ≠ dotdot := by
  have hdots := h.dots dp e.live.1
  have hmem : ∀ de : Dirent, de = ⟨dp, dot⟩ ∨ de = ⟨(t dp).parent, dotdot⟩ →
      de ∈ (t dp).entries := by
    rintro de (rfl | rfl)
    all_goals
      rw [hdots.entries_eq]
      simp
  exact ⟨(findEntry_none e.absent (hmem _ (.inl rfl)) (h.live_pos e.live)).symm,
    (findEntry_none e.absent (hmem _ (.inr rfl)) (h.parent_pos e.live)).symm⟩

/-- The directory that gets the entry. -/
theorem dp_dotted (h : TreeOk n t) :
    (inserted t dp i name k y dp).Dotted dp ∧
      (inserted t dp i name k y dp).parent = (t dp).parent ∧
      (inserted t dp i name k y dp).rest = putEntry ⟨i, name⟩ (t dp).rest :=
  (h.dots dp e.live.1).put (h.live_pos e.live) (h.parent_pos e.live) (e.name_ne h) (by rw [at_dp])

theorem dp_live : (inserted t dp i name k y dp).Live := by
  rw [at_dp]
  refine ⟨e.live.1, ?_⟩
  have hpos := e.live.2
  dsimp only
  rw [e.count]
  split <;> omega

/-- The new directory. -/
theorem i_dotted (hdir : y.type = .dir) :
    y.Dotted i ∧ y.parent = dp ∧ y.rest = [] :=
  Dnode.dotted_of_entries (e.dir hdir).2 (by simp)

theorem i_live (hdir : y.type = .dir) : y.Live := by
  refine ⟨hdir, ?_⟩
  have := e.links
  rw [Dnode.links, if_pos (e.dir hdir).1] at this
  omega

/-- Live directories stay live. -/
theorem live_of_live (hd : (t d).Live) :
    (inserted t dp i name k y d).Live := by
  by_cases hdp : d = dp
  · rw [hdp]
    exact e.dp_live
  · rwa [at_other hdp (e.ne_of_live hd)]

/-- A directory of the new table is the new one, or a directory of the old table with the same
    parent. -/
theorem dir_cases (h : TreeOk n t) (hd : (inserted t dp i name k y d).type = .dir) :
    (d = i ∧ y.type = .dir) ∨
      d ≠ i ∧ (t d).type = .dir ∧ (inserted t dp i name k y d).parent = (t d).parent ∧
        ((inserted t dp i name k y d).Live → (t d).Live) := by
  by_cases hi : d = i
  · subst hi
    exact .inl ⟨rfl, by rwa [e.at_i] at hd⟩
  · right
    by_cases hdp : d = dp
    · subst hdp
      exact ⟨hi, e.live.1, (e.dp_dotted h).2.1, fun _ => e.live⟩
    · rw [at_other hdp hi] at hd ⊢
      exact ⟨hi, hd, rfl, id⟩

/-- How often an entry behind `..` names an inode. -/
theorem countP_rest (h : TreeOk n t) {d c : ℕ} (hd : (t d).Live) (hc : c ≠ 0) :
    (inserted t dp i name k y d).rest.countP (fun de => de.inum = c) =
      (t d).rest.countP (fun de => de.inum = c) + if d = dp ∧ c = i then 1 else 0 := by
  by_cases hdp : d = dp
  · subst hdp
    rw [(e.dp_dotted h).2.2, countP_putEntry (by simp; omega)]
    simp [eq_comm]
  · rw [at_other hdp (e.ne_of_live hd)]
    simp [hdp]

theorem names_eq (h : TreeOk n t) {j : ℕ} (hj : j ≠ 0) :
    names n (inserted t dp i name k y) j =
      names n t j + (if j = i then 1 else 0) + if y.type = .dir ∧ j = dp then 1 else 0 := by
  have hsum := Tally.sum_update2 (Finset.range n) (fun _ x => Dnode.naming x j) t
    (Finset.mem_range.2 e.bound.2) (Finset.mem_range.2 (h.live_lt e.live)) e.ne.symm y
    { t dp with nlink := k, entries := putEntry ⟨i, name⟩ (t dp).entries }
  have hold : (t i).naming j = 0 := Dnode.naming_of_not_live (fun hlive => e.not_dir hlive.1) j
  have hdp : (inserted t dp i name k y dp).naming j = (t dp).naming j + if j = i then 1 else 0 := by
    rw [(e.dp_dotted h).1.naming_eq e.dp_live hj, (h.dots dp e.live.1).naming_eq e.live hj,
      (e.dp_dotted h).2.1, e.countP_rest h e.live hj]
    simp [Nat.add_assoc]
  have hnew : y.naming j = if y.type = .dir ∧ j = dp then 1 else 0 := by
    by_cases hdir : y.type = .dir
    · obtain ⟨hdotted, hparent, hrest⟩ := e.i_dotted hdir
      rw [hdotted.naming_eq (e.i_live hdir) hj, hparent, hrest]
      simp [hdir, eq_comm]
    · rw [Dnode.naming_of_not_live (fun hlive => hdir hlive.1)]
      simp [hdir]
  rw [at_dp] at hdp
  simp only [hold, hdp, hnew] at hsum
  simp only [names, inserted]
  omega

end

/-- A free inode has no name behind `..`. -/
theorem unnamed (h : TreeOk n t) (hi : i ≠ 0) (hfree : (t i).type = .free) (hd : (t d).Live) :
    (t d).rest.countP (fun de => de.inum = i) = 0 := by
  by_contra hne
  obtain ⟨de, hde, hde_i⟩ := List.countP_pos_iff.1 (Nat.pos_of_ne_zero hne)
  simp only [decide_eq_true_eq] at hde_i
  have hpos := h.links_pos_of_rest hd hde (by omega)
  exact Dnode.ne_free_of_links (hde_i ▸ hpos) hfree

theorem once (e : Insert n t dp i name k y) (h : TreeOk n t) (d c : ℕ)
    (hd : (inserted t dp i name k y d).Live) (hc : (inserted t dp i name k y c).Live) :
    (inserted t dp i name k y d).rest.countP (fun de => de.inum = c) =
      if c ≠ rootino ∧ (inserted t dp i name k y c).parent = d then 1 else 0 := by
  have hroot : i ≠ rootino := (e.ne_of_live h.root).symm
  rcases e.dir_cases h hd.1 with ⟨rfl, hdir⟩ | ⟨-, -, -, hold⟩
  · -- the new directory holds nothing and is nobody's parent
    rw [e.at_i, (e.i_dotted hdir).2.2]
    rcases e.dir_cases h hc.1 with ⟨rfl, -⟩ | ⟨-, -, hparent, hold⟩
    · simp [e.at_i, (e.i_dotted hdir).2.1, e.ne.symm]
    · have : (t c).parent ≠ d := e.ne_of_live (h.parent_live c (hold hc))
      simp [hparent, this]
  · rcases e.dir_cases h hc.1 with ⟨rfl, hdir⟩ | ⟨hne, -, hparent, holdc⟩
    · rw [e.countP_rest h (hold hd) e.bound.1.ne', unnamed h e.bound.1.ne' (e.dir hdir).1 (hold hd),
        e.at_i, (e.i_dotted hdir).2.1]
      simp [hroot, eq_comm]
    · rw [e.countP_rest h (hold hd) (h.live_pos (holdc hc)),
        h.once d c (hold hd) (holdc hc), hparent]
      simp [hne]

theorem treeOk (e : Insert n t dp i name k y) (h : TreeOk n t) :
    TreeOk n (inserted t dp i name k y) where
  root := e.live_of_live h.root
  root_parent := by
    rcases e.dir_cases h (e.live_of_live h.root).1 with ⟨hi, -⟩ | ⟨-, -, hparent, -⟩
    · exact absurd hi (e.ne_of_live h.root)
    · rw [hparent, h.root_parent]
  bound := by
    intro j hj
    by_cases hi : j = i
    · exact hi ▸ e.bound
    · by_cases hdp : j = dp
      · exact hdp ▸ h.bound dp e.live.ne_free
      · exact h.bound j (by rwa [at_other hdp hi] at hj)
  dots := by
    intro d hd
    by_cases hdp : d = dp
    · rw [hdp]
      exact (e.dp_dotted h).1
    · rcases e.dir_cases h hd with ⟨rfl, hdir⟩ | ⟨hi, hold, -⟩
      · rw [e.at_i]
        exact (e.i_dotted hdir).1
      · rw [at_other hdp hi]
        exact h.dots d hold
  removed := by
    intro d hd hlive
    have hdp : d ≠ dp := fun hdp => hlive (hdp ▸ e.dp_live)
    rcases e.dir_cases h hd with ⟨rfl, hdir⟩ | ⟨hi, hold, -⟩
    · rw [e.at_i] at hlive
      exact absurd (e.i_live hdir) hlive
    · rw [at_other hdp hi] at hlive ⊢
      exact h.removed d hold hlive
  parent_live := by
    intro d hd
    rcases e.dir_cases h hd.1 with ⟨rfl, hdir⟩ | ⟨-, -, hparent, hold⟩
    · rw [e.at_i, (e.i_dotted hdir).2.1]
      exact e.dp_live
    · rw [hparent]
      exact e.live_of_live (h.parent_live d (hold hd))
  once := e.once h
  exact := by
    intro j hj
    have hexact := h.exact j hj
    rw [e.names_eq h hj]
    by_cases hi : j = i
    · subst hi
      rw [e.at_i, Dnode.links_of_ne e.alloc, e.links]
      simp [e.ne, hexact]
    · by_cases hdp : j = dp
      · subst hdp
        rw [Dnode.links_of_ne e.dp_live.ne_free, at_dp]
        rw [Dnode.links_of_ne e.live.ne_free] at hexact
        simp only [hi, e.count, ← hexact, if_false, and_true, Nat.add_zero, Int.natCast_add]
        split <;> rfl
      · rw [at_other hdp hi]
        simp [hi, hdp, hexact]

end Insert

/-! ## An entry is cleared -/

def cleared (t : Itable) (dp i off : ℕ) : Itable :=
  update
    (update t dp
      { t dp with
        nlink := if (t i).type = .dir then (t dp).nlink - 1 else (t dp).nlink
        entries := (t dp).entries.set off ⟨0, []⟩ })
    i { t i with nlink := (t i).nlink - 1 }

structure Clear (t : Itable) (dp i : ℕ) (name : Name) (off : ℕ) : Prop where
  dir : (t dp).type = .dir
  name_ne : name ≠ dot ∧ name ≠ dotdot
  found : findEntry name (t dp).entries = some off
  entry : ((t dp).entries.getD off ⟨0, []⟩).inum = i
  empty : (t i).type = .dir → isdirempty (t i) = true

namespace Clear

variable {n dp i off : ℕ} {t : Itable} {name : Name}

section

variable (e : Clear t dp i name off)

include e

section

variable (h : TreeOk n t)

include h

theorem at_rest :
    ∃ k, off = k + 2 ∧ i ≠ 0 ∧ (t dp).rest[k]? = some ⟨i, name⟩ := by
  obtain ⟨j, hj, hget⟩ := findEntry_some e.found
  have hji : j = i := by rw [← e.entry, List.getD_eq_getElem?_getD, hget, Option.getD_some]
  obtain ⟨k, hk, hrest⟩ := (h.dots dp e.dir).found e.name_ne.1 e.name_ne.2 hget
  exact ⟨k, hk, hji ▸ hj, hji ▸ hrest⟩

theorem mem_rest : i ≠ 0 ∧ ⟨i, name⟩ ∈ (t dp).rest := by
  obtain ⟨k, -, hi, hrest⟩ := e.at_rest h
  exact ⟨hi, List.mem_of_getElem? hrest⟩

theorem live : (t dp).Live := by
  by_contra hlive
  exact (e.mem_rest h).1 (h.removed dp e.dir hlive _ (e.mem_rest h).2)

theorem links_pos : 0 < (t i).links :=
  h.links_pos_of_rest (e.live h) (e.mem_rest h).2 (e.mem_rest h).1

theorem alloc : (t i).type ≠ .free :=
  Dnode.ne_free_of_links (e.links_pos h)

theorem nlink_pos : 0 < (t i).nlink.toInt := by
  have hpos := e.links_pos h
  rwa [Dnode.links_of_ne (e.alloc h)] at hpos

theorem lt : i < n := (h.bound i (e.alloc h)).2

end

/-- A directory that is removed holds nothing. -/
theorem rest_free (hdir : (t i).type = .dir) :
    ∀ de ∈ (t i).rest, de.inum = 0 := by
  intro de hde
  have hempty := e.empty hdir
  rw [isdirempty, List.all_eq_true] at hempty
  simpa [Dirent.isFree] using hempty de hde

theorem countP_rest_free (hdir : (t i).type = .dir) {c : ℕ} (hc : c ≠ 0) :
    (t i).rest.countP (fun de => de.inum = c) = 0 := by
  rw [List.countP_eq_zero]
  intro de hde
  have := e.rest_free hdir de hde
  simp only [decide_eq_true_eq]
  omega

theorem ne (h : TreeOk n t) : i ≠ dp := by
  rintro rfl
  exact (e.mem_rest h).1 (e.rest_free e.dir _ (e.mem_rest h).2)

end

section Directory

variable (e : Clear t dp i name off) (h : TreeOk n t) (hdir : (t i).type = .dir)

include e h hdir

theorem dir_live : (t i).Live := Dnode.live_of_links hdir (e.links_pos h)

theorem dir_parent : i ≠ rootino ∧ (t i).parent = dp := by
  have honce := h.once dp i (e.live h) (e.dir_live h hdir)
  have hpos : 0 < (t dp).rest.countP fun de => de.inum = i :=
    List.countP_pos_iff.2 ⟨_, (e.mem_rest h).2, by simp⟩
  by_contra hnot
  rw [if_neg hnot] at honce
  omega

/-- No live directory is in it. -/
theorem no_child {c : ℕ} (hc : (t c).Live) : (t c).parent ≠ i := by
  intro hparent
  by_cases hroot : c = rootino
  · rw [hroot, h.root_parent] at hparent
    exact (e.dir_parent h hdir).1 hparent.symm
  · have honce := h.once i c (e.dir_live h hdir) hc
    rw [e.countP_rest_free hdir (h.live_pos hc), if_pos ⟨hroot, hparent⟩] at honce
    omega

/-- Its only name is the one that is cleared. -/
theorem dir_names : names n t i = 1 := by
  have hnaming : ∀ d, (t d).naming i = if dp = d then 1 else 0 := by
    intro d
    by_cases hd : (t d).Live
    · rw [(h.dots d hd.1).naming_eq hd (e.mem_rest h).1, if_neg (e.no_child h hdir hd),
        Nat.zero_add, h.once d i hd (e.dir_live h hdir), (e.dir_parent h hdir).2]
      simp [(e.dir_parent h hdir).1]
    · rw [Dnode.naming_of_not_live hd, if_neg]
      rintro rfl
      exact hd (e.live h)
  simp [names, hnaming, h.live_lt (e.live h)]

theorem dir_nlink : (t i).nlink.toInt = 1 := by
  have hexact := h.exact i (e.mem_rest h).1
  rw [e.dir_names h hdir, Dnode.links_of_ne (e.alloc h)] at hexact
  exact hexact.symm

theorem dir_naming {j : ℕ} (hj : j ≠ 0) : (t i).naming j = if j = dp then 1 else 0 := by
  rw [(h.dots i hdir).naming_eq (e.dir_live h hdir) hj, e.countP_rest_free hdir hj,
    (e.dir_parent h hdir).2]
  simp [eq_comm]

/-- The parent has a link from the entry `..` of the removed directory and another one from where it
    is itself. -/
theorem two_le_nlink : 2 ≤ (t dp).nlink.toInt := by
  have hdp := e.live h
  have hpos := h.live_pos hdp
  have hi : 0 < (t i).naming dp := by simp [e.dir_naming h hdir hpos]
  obtain ⟨q, hq, hqi, hname⟩ : ∃ q, (t q).Live ∧ q ≠ i ∧ 0 < (t q).naming dp := by
    by_cases hroot : dp = rootino
    · refine ⟨dp, hdp, (e.ne h).symm, ?_⟩
      rw [(h.dots dp hdp.1).naming_eq hdp hpos, hroot, h.root_parent]
      simp
    · have hq := h.parent_live dp hdp
      refine ⟨_, hq, e.no_child h hdir hdp, ?_⟩
      have honce := h.once _ dp hq hdp
      rw [if_pos ⟨hroot, rfl⟩] at honce
      rw [(h.dots _ hq.1).naming_eq hq hpos, honce]
      omega
  have htwo : 2 ≤ names n t dp :=
    Tally.two_le_sum (Finset.mem_range.2 (h.live_lt hq)) (Finset.mem_range.2 (e.lt h)) hqi hname hi
  have hexact := h.exact dp hpos
  rw [Dnode.links_of_ne hdp.ne_free] at hexact
  omega

end Directory

theorem at_i : cleared t dp i off i = { t i with nlink := (t i).nlink - 1 } := by
  simp [cleared]

theorem at_dp (hne : i ≠ dp) : cleared t dp i off dp = { t dp with
      nlink := if (t i).type = .dir then (t dp).nlink - 1 else (t dp).nlink
      entries := (t dp).entries.set off ⟨0, []⟩ } := by
  simp [cleared, hne.symm]

theorem at_other {d : ℕ} (hdp : d ≠ dp) (hi : d ≠ i) : cleared t dp i off d = t d := by
  simp [cleared, hdp, hi]

theorem type_eq (d : ℕ) : (cleared t dp i off d).type = (t d).type := by
  by_cases hi : d = i
  · subst hi
    rw [at_i]
  · by_cases hdp : d = dp
    · subst hdp
      rw [at_dp (Ne.symm hi)]
    · rw [at_other hdp hi]

variable (e : Clear t dp i name off) (h : TreeOk n t)

include e h

theorem dp_dotted :
    (cleared t dp i off dp).Dotted dp ∧ (cleared t dp i off dp).parent = (t dp).parent ∧
      ∀ c, c ≠ 0 → (cleared t dp i off dp).rest.countP (fun de => de.inum = c) +
        (if c = i then 1 else 0) = (t dp).rest.countP (fun de => de.inum = c) := by
  obtain ⟨k, hk, -, hrest⟩ := e.at_rest h
  obtain ⟨hdotted, hparent, hset⟩ := (h.dots dp e.dir).clear k
    (y := cleared t dp i off dp) (by rw [at_dp (e.ne h), hk])
  refine ⟨hdotted, hparent, fun c hc => ?_⟩
  obtain ⟨hlt, hget⟩ := List.getElem?_eq_some_iff.1 hrest
  have hmem : ⟨i, name⟩ ∈ (t dp).rest := (e.mem_rest h).2
  rw [hset, List.countP_set hlt, hget]
  by_cases hci : c = i
  · have hpos : 0 < (t dp).rest.countP fun de => de.inum = c :=
      List.countP_pos_iff.2 ⟨_, hmem, by simp [hci]⟩
    simp only [hci.symm, hc.symm, decide_true, decide_false, if_true, Bool.false_eq_true, if_false]
    omega
  · simp [Ne.symm hci, hci, hc.symm]

theorem dp_live : (cleared t dp i off dp).Live := by
  rw [at_dp (e.ne h)]
  refine ⟨e.dir, ?_⟩
  dsimp only
  split
  · next hdir =>
      have htwo := e.two_le_nlink h hdir
      rw [toInt_sub_one (by omega)]
      omega
  · exact (e.live h).2

/-- A directory that has been removed is not live. -/
theorem i_not_live : ¬(cleared t dp i off i).Live := by
  rw [at_i]
  rintro ⟨hdir, hpos⟩
  dsimp only at hdir hpos
  rw [toInt_sub_one (e.nlink_pos h), e.dir_nlink h hdir] at hpos
  omega

theorem live_iff (d : ℕ) : (cleared t dp i off d).Live ↔ (t d).Live ∧ d ≠ i := by
  by_cases hi : d = i
  · simp [hi, e.i_not_live h]
  · by_cases hdp : d = dp
    · subst hdp
      simp [e.dp_live h, e.live h, hi]
    · simp [at_other hdp hi, hi]

theorem parent_eq (d : ℕ) (hd : d ≠ i) : (cleared t dp i off d).parent = (t d).parent := by
  by_cases hdp : d = dp
  · rw [hdp]
    exact (e.dp_dotted h).2.1
  · rw [at_other hdp hd]

theorem names_eq {j : ℕ} (hj : j ≠ 0) :
    names n (cleared t dp i off) j + (if j = i then 1 else 0) +
      (if (t i).type = .dir ∧ j = dp then 1 else 0) = names n t j := by
  have hsum := Tally.sum_update2 (Finset.range n) (fun _ x => Dnode.naming x j) t
    (Finset.mem_range.2 (h.live_lt (e.live h))) (Finset.mem_range.2 (e.lt h)) (e.ne h)
    (cleared t dp i off dp) (cleared t dp i off i)
  have hnew : (cleared t dp i off i).naming j = 0 := Dnode.naming_of_not_live (e.i_not_live h) j
  have hdp : (cleared t dp i off dp).naming j + (if j = i then 1 else 0) = (t dp).naming j := by
    rw [(e.dp_dotted h).1.naming_eq (e.dp_live h) hj, (h.dots dp e.dir).naming_eq (e.live h) hj,
      (e.dp_dotted h).2.1, ← (e.dp_dotted h).2.2 j hj, Nat.add_assoc]
  have hold : (t i).naming j = if (t i).type = .dir ∧ j = dp then 1 else 0 := by
    by_cases hdir : (t i).type = .dir
    · simp [e.dir_naming h hdir hj, hdir]
    · rw [Dnode.naming_of_not_live (fun hlive => hdir hlive.1)]
      simp [hdir]
  have htable : update (update t dp (cleared t dp i off dp)) i (cleared t dp i off i) =
      cleared t dp i off := by
    rw [at_dp (e.ne h), at_i]
    rfl
  rw [htable] at hsum
  simp only [hnew, hold] at hsum
  simp only [names]
  omega

theorem treeOk : TreeOk n (cleared t dp i off) where
  root := by
    rw [e.live_iff h]
    refine ⟨h.root, fun hroot => ?_⟩
    exact (e.dir_parent h (hroot ▸ h.root.1)).1 hroot.symm
  root_parent := by
    rw [e.parent_eq h, h.root_parent]
    exact fun hroot => (e.dir_parent h (hroot ▸ h.root.1)).1 hroot.symm
  bound := fun j hj => h.bound j (by rwa [type_eq] at hj)
  dots := by
    intro d hd
    rw [type_eq] at hd
    by_cases hdp : d = dp
    · rw [hdp]
      exact (e.dp_dotted h).1
    · by_cases hi : d = i
      · subst hi
        rw [at_i]
        exact ⟨(h.dots d hd).1, (h.dots d hd).2⟩
      · rw [at_other hdp hi]
        exact h.dots d hd
  removed := by
    intro d hd hlive
    rw [type_eq] at hd
    by_cases hi : d = i
    · subst hi
      rw [at_i]
      exact e.rest_free hd
    · have hdp : d ≠ dp := fun hdp => hlive (hdp ▸ e.dp_live h)
      rw [at_other hdp hi] at hlive ⊢
      exact h.removed d hd hlive
  parent_live := by
    intro d hd
    obtain ⟨hlive, hi⟩ := (e.live_iff h d).1 hd
    rw [e.parent_eq h d hi, e.live_iff h]
    refine ⟨h.parent_live d hlive, fun hparent => ?_⟩
    have hdir : (t i).type = .dir := hparent ▸ (h.parent_live d hlive).1
    exact e.no_child h hdir hlive hparent
  once := by
    intro d c hd hc
    obtain ⟨hlived, -⟩ := (e.live_iff h d).1 hd
    obtain ⟨hlivec, hci⟩ := (e.live_iff h c).1 hc
    rw [e.parent_eq h c hci, ← h.once d c hlived hlivec]
    by_cases hdp : d = dp
    · subst hdp
      have hcount := (e.dp_dotted h).2.2 c (h.live_pos hlivec)
      simpa [hci] using hcount
    · rw [at_other hdp ((e.live_iff h d).1 hd).2]
  exact := by
    intro j hj
    have hexact := h.exact j hj
    have hnames := e.names_eq h hj
    by_cases hi : j = i
    · subst hi
      rw [Dnode.links_of_ne (by rw [type_eq]; exact e.alloc h), at_i]
      rw [Dnode.links_of_ne (e.alloc h)] at hexact
      dsimp only
      rw [toInt_sub_one (e.nlink_pos h)]
      simp only [if_true, e.ne h, and_false, if_false] at hnames
      omega
    · by_cases hdp : j = dp
      · subst hdp
        rw [Dnode.links_of_ne (e.dp_live h).ne_free, at_dp (e.ne h)]
        rw [Dnode.links_of_ne (e.live h).ne_free] at hexact
        dsimp only
        split
        · next hdir =>
            rw [toInt_sub_one (e.live h).2]
            simp only [hi, if_false, hdir, and_self, if_true] at hnames
            omega
        · next hdir =>
            simp only [hi, if_false, hdir, false_and] at hnames
            omega
      · rw [at_other hdp hi]
        simp only [hi, hdp, if_false, and_false] at hnames
        omega

end Clear

/-! ## Inodes are freed -/

/-- Allocated inodes with link count zero may have been freed. -/
def Freed (t t' : Itable) : Prop :=
  ∀ j, t' j = t j ∨ (t j).type ≠ .free ∧ (t j).nlink = 0 ∧ t' j = (t j).truncated

namespace Freed

variable {n : ℕ} {t t' t'' : Itable}

theorem refl : Freed t t := fun _ => .inl rfl

section

variable (h : Freed t t')

include h

theorem trans (h' : Freed t' t'') : Freed t t'' := by
  intro j
  rcases h j with hj | ⟨halloc, hnlink, hj⟩
  · have := h' j
    rwa [hj] at this
  · rcases h' j with hj' | ⟨halloc', -, -⟩
    · exact .inr ⟨halloc, hnlink, hj'.trans hj⟩
    · exact absurd (by rw [hj]; rfl) halloc'

/-- What still has a type has not been touched. -/
theorem eq_of_alloc {j : ℕ} (hj : (t' j).type ≠ .free) : t' j = t j :=
  (h j).resolve_right fun hfreed => hj (by rw [hfreed.2.2]; rfl)

theorem eq_of_live {j : ℕ} (hj : (t j).Live) : t' j = t j := by
  refine (h j).resolve_right fun hfreed => ?_
  have hpos := hj.2
  rw [hfreed.2.1] at hpos
  exact absurd hpos (by decide)

theorem live_iff (j : ℕ) : (t' j).Live ↔ (t j).Live :=
  ⟨fun hj => h.eq_of_alloc hj.ne_free ▸ hj, fun hj => (h.eq_of_live hj).symm ▸ hj⟩

theorem naming_eq (d i : ℕ) : (t' d).naming i = (t d).naming i := by
  by_cases hd : (t d).Live
  · rw [h.eq_of_live hd]
  · rw [Dnode.naming_of_not_live hd,
      Dnode.naming_of_not_live (fun hd' => hd ((h.live_iff d).1 hd'))]

theorem links_eq (i : ℕ) : (t' i).links = (t i).links := by
  rcases h i with hi | ⟨halloc, hnlink, hi⟩
  · rw [hi]
  · rw [hi, Dnode.links_of_ne halloc, hnlink]
    rfl

theorem treeOk (ht : TreeOk n t) : TreeOk n t' where
  root := (h.live_iff _).2 ht.root
  root_parent := by rw [h.eq_of_live ht.root, ht.root_parent]
  bound := fun i hi => ht.bound i (h.eq_of_alloc hi ▸ hi)
  dots := by
    intro d hd
    have heq := h.eq_of_alloc (j := d) (by rw [hd]; decide)
    rw [heq] at hd ⊢
    exact ht.dots d hd
  removed := by
    intro d hd hlive
    have heq := h.eq_of_alloc (j := d) (by rw [hd]; decide)
    rw [heq] at hd hlive ⊢
    exact ht.removed d hd hlive
  parent_live := by
    intro d hd
    rw [h.eq_of_alloc hd.ne_free, h.live_iff]
    exact ht.parent_live d ((h.live_iff d).1 hd)
  once := by
    intro d c hd hc
    rw [h.eq_of_alloc hd.ne_free, h.eq_of_alloc hc.ne_free]
    exact ht.once d c ((h.live_iff d).1 hd) ((h.live_iff c).1 hc)
  exact := by
    intro i hi
    rw [h.links_eq, ← ht.exact i hi]
    simp only [names, h.naming_eq]

end

end Freed

/-! ## What a call does to the table -/

/-- One edit of the table. A directory may be removed where `removable` allows it. -/
inductive Edit (n : ℕ) (removable : ℕ → Prop) (t : Itable) : Itable → Prop
  | same : Edit n removable t t
  | insert {dp i : ℕ} {name : Name} {k : BitVec 16} {y : Dnode} :
      Insert n t dp i name k y → Edit n removable t (inserted t dp i name k y)
  | clear {dp i off : ℕ} {name : Name} :
      Clear t dp i name off → ((t i).type = .dir → removable i) →
        Edit n removable t (cleared t dp i off)

variable {removable : ℕ → Prop}

theorem Edit.treeOk {n : ℕ} {t t' : Itable} (e : Edit n removable t t')
    (h : TreeOk n t) : TreeOk n t' := by
  cases e with
  | same => exact h
  | insert e => exact e.treeOk h
  | clear e _ => exact e.treeOk h

/-! ## Directories with a live parent

A removed directory keeps the entry `..`. An inode is anchored while it has a type and, if it is a
directory, what its `..` names is live. -/

def Anchored (t : Itable) (c : ℕ) : Prop :=
  (t c).type ≠ .free ∧ ((t c).type = .dir → (t (t c).parent).Live)

namespace TreeOk

variable {n : ℕ} {t : Itable} (h : TreeOk n t)

include h

theorem anchored_of_live {d : ℕ} (hd : (t d).Live) : Anchored t d :=
  ⟨hd.ne_free, fun _ => h.parent_live d hd⟩

/-- What a live directory has behind `..` is anchored. -/
theorem anchored_of_links {i : ℕ} (hi : 0 < (t i).links) : Anchored t i :=
  ⟨Dnode.ne_free_of_links hi, fun hdir => h.parent_live i (Dnode.live_of_links hdir hi)⟩

/-- The entries of an anchored directory name anchored inodes. -/
theorem anchored_of_mem {d : ℕ} (hd : Anchored t d) (hdir : (t d).type = .dir) {de : Dirent}
    (hde : de ∈ (t d).entries) (hi : de.inum ≠ 0) : Anchored t de.inum := by
  rw [(h.dots d hdir).entries_eq] at hde
  rcases List.mem_cons.1 hde with rfl | hde
  · exact hd
  rcases List.mem_cons.1 hde with rfl | hde
  · exact h.anchored_of_live (hd.2 hdir)
  by_cases hlive : (t d).Live
  · exact h.anchored_of_links (h.links_pos_of_rest hlive hde hi)
  · exact absurd (h.removed d hdir hlive de hde) hi

/-- An edit that removes no parent of a removed directory keeps what is anchored. -/
theorem anchored_of_edit {t' : Itable} (e : Edit n removable t t') {c : ℕ}
    (hc : Anchored t c) (hsafe : ∀ i, removable i → ¬(t c).Live → (t c).parent ≠ i) :
    Anchored t' c := by
  cases e with
  | same => exact hc
  | @insert dp i name k y e =>
    by_cases hi : c = i
    · subst hi
      rw [Anchored, e.at_i]
      exact ⟨e.alloc, fun hdir => absurd (e.dir hdir).1 hc.1⟩
    · have htype : (inserted t dp i name k y c).type = (t c).type := by
        by_cases hdp : c = dp
        · rw [hdp, Insert.at_dp]
        · rw [Insert.at_other hdp hi]
      refine ⟨htype ▸ hc.1, fun hdir => ?_⟩
      rcases e.dir_cases h hdir with ⟨heq, -⟩ | ⟨-, hold, hparent, -⟩
      · exact absurd heq hi
      · rw [hparent]
        exact e.live_of_live (hc.2 hold)
  | @clear dp i off name e hremovable =>
    have ht' := e.treeOk h
    refine ⟨(Clear.type_eq c).symm ▸ hc.1, fun hdir => ?_⟩
    rw [Clear.type_eq] at hdir
    by_cases hi : c = i
    · subst hi
      have hparent : (cleared t dp c off c).parent = dp := by
        rw [Clear.at_i]
        exact (e.dir_parent h hdir).2
      rw [hparent]
      exact e.dp_live h
    · by_cases hlive : (t c).Live
      · exact ht'.parent_live c ((e.live_iff h c).2 ⟨hlive, hi⟩)
      · rw [e.parent_eq h c hi, e.live_iff h]
        refine ⟨hc.2 hdir, fun hparent => ?_⟩
        have hdir' : (t i).type = .dir := hparent ▸ (hc.2 hdir).1
        exact hsafe i (hremovable hdir') hlive hparent

end TreeOk

theorem Freed.anchored {t t' : Itable} (h : Freed t t') {c : ℕ} (hc : Anchored t c)
    (halloc : (t' c).type ≠ .free) : Anchored t' c := by
  refine ⟨halloc, fun hdir => ?_⟩
  rw [h.eq_of_alloc halloc] at hdir ⊢
  rw [h.live_iff]
  exact hc.2 hdir

end Xv6
