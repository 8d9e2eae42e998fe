import Xv6.Fs.Dir
import Xv6.Lib.Tally

set_option autoImplicit false

/-! # The directory tree

The table of inodes as a tree of directories, without the cache and the processes. A directory is
live while its own link count is positive; `names` counts the entries other than `.` of live
directories that name an inode. `TreeOk` is the shape of the tree together with the equality of
`names` and the link counts.

An `Edit` is what a system call does to the table: an entry is put into a live directory for a new
inode or for one more name, or an entry is cleared. `Freed` is what the last `iput` of inodes
without a name does to it. Both keep `TreeOk`. -/

namespace Xv6

open Function

abbrev Itable := ℕ → Dnode

namespace Dnode

/-- A directory whose own link count is positive. -/
def Live (x : Dnode) : Prop := x.type = .dir ∧ 0 < x.nlink.toInt

instance (x : Dnode) : Decidable x.Live := inferInstanceAs (Decidable (_ ∧ _))

/-- What the entry `..` names. -/
def parent (x : Dnode) : ℕ := (x.entries.getD 1 ⟨0, []⟩).inum

/-- The entries after `.` and `..`. -/
def rest (x : Dnode) : List Dirent := x.entries.drop 2

/-- The names that a live directory gives to the inode `i`. -/
def naming (x : Dnode) (i : ℕ) : ℕ :=
  if x.Live then x.entries.countP fun de => de.inum = i ∧ de.name ≠ dot else 0

/-- The link count of an inode; a free one has none. -/
def links (x : Dnode) : Int := if x.type = .free then 0 else x.nlink.toInt

/-- What the freeing `iput` leaves. -/
def truncated (x : Dnode) : Dnode := { x with type := .free, entries := [], data := [] }

theorem Live.ne_free {x : Dnode} (h : x.Live) : x.type ≠ .free := by
  rw [h.1]
  decide

theorem naming_of_not_live {x : Dnode} (h : ¬x.Live) (i : ℕ) : x.naming i = 0 := if_neg h

theorem links_of_ne {x : Dnode} (h : x.type ≠ .free) : x.links = x.nlink.toInt := if_neg h

/-- The entries `.` and `..` of a directory come first. -/
structure Dotted (x : Dnode) (d : ℕ) : Prop where
  entries_eq : x.entries = ⟨d, dot⟩ :: ⟨x.parent, dotdot⟩ :: x.rest
  rest_names : ∀ de ∈ x.rest, de.inum ≠ 0 → de.name ≠ dot ∧ de.name ≠ dotdot

end Dnode

/-- The entries other than `.` that name the inode `i` in live directories. -/
def names (n : ℕ) (t : Itable) (i : ℕ) : ℕ := ∑ d ∈ Finset.range n, (t d).naming i

/-- The shape of the directory tree over `n` inodes, with exact link counts. -/
structure TreeOk (n : ℕ) (t : Itable) : Prop where
  root : (t rootino).Live
  root_parent : (t rootino).parent = rootino
  bound : ∀ i, (t i).type ≠ .free → 0 < i ∧ i < n
  dots : ∀ d, (t d).type = .dir → (t d).Dotted d
  /-- A removed directory holds nothing. -/
  removed : ∀ d, (t d).type = .dir → ¬(t d).Live → ∀ de ∈ (t d).rest, de.inum = 0
  parent_live : ∀ d, (t d).Live → (t (t d).parent).Live
  /-- A directory has one name, in its parent. -/
  once : ∀ d c, (t d).Live → (t c).Live →
    (t d).rest.countP (fun de => de.inum = c) = if c ≠ rootino ∧ (t c).parent = d then 1 else 0
  exact : ∀ i, i ≠ 0 → (names n t i : Int) = (t i).links

/-! ## Link counts -/

variable {x : BitVec 16}

theorem toInt_add_one (h : x.toInt < 32767) : (x + 1).toInt = x.toInt + 1 := by
  have := x.le_toInt
  rw [BitVec.toInt_add]
  simp only [Int.bmod_def, show (1 : BitVec 16).toInt = 1 from rfl]
  omega

theorem toInt_sub_one (h : 0 < x.toInt) : (x - 1).toInt = x.toInt - 1 := by
  have := x.toInt_lt
  rw [BitVec.toInt_sub]
  simp only [Int.bmod_def, show (1 : BitVec 16).toInt = 1 from rfl]
  omega

theorem toInt_eq_zero : x.toInt = 0 ↔ x = 0 := by
  rw [← BitVec.toInt_inj]
  rfl

/-! ## Entries -/

theorem countP_putEntry {q : Dirent → Bool} (hq : ∀ de, de.inum = 0 → q de = false) (new : Dirent)
    (es : List Dirent) : (putEntry new es).countP q = es.countP q + if q new then 1 else 0 := by
  induction es with
  | nil => simp [putEntry, List.countP_cons]
  | cons de es ih =>
    by_cases hfree : de.isFree
    · have hde : q de = false := hq de (by simpa [Dirent.isFree] using hfree)
      simp [putEntry, hfree, List.countP_cons, hde]
    · simp only [putEntry, hfree, Bool.false_eq_true, if_false, List.countP_cons, ih]
      omega

variable {es : List Dirent}

theorem mem_putEntry {new de : Dirent} (h : de ∈ putEntry new es) :
    de = new ∨ de ∈ es := by
  induction es with
  | nil => exact .inl (by simpa [putEntry] using h)
  | cons e es ih =>
    simp only [putEntry] at h
    split at h
    · rcases List.mem_cons.1 h with h | h
      · exact .inl h
      · exact .inr (List.mem_cons_of_mem e h)
    · rcases List.mem_cons.1 h with h | h
      · exact .inr (h ▸ List.mem_cons_self)
      · exact (ih h).imp_right (List.mem_cons_of_mem e)

variable {name : Name}

/-- What `findEntry` finds. -/
theorem findEntry_some {off : ℕ} (h : findEntry name es = some off) :
    ∃ i, i ≠ 0 ∧ es[off]? = some ⟨i, name⟩ := by
  obtain ⟨hlt, hfound, -⟩ := List.findIdx?_eq_some_iff_getElem.1 h
  simp only [decide_eq_true_eq] at hfound
  refine ⟨es[off].inum, hfound.1, ?_⟩
  rw [List.getElem?_eq_getElem hlt, ← hfound.2]

theorem findEntry_none (h : findEntry name es = none) {de : Dirent}
    (hde : de ∈ es) (hi : de.inum ≠ 0) : de.name ≠ name := by
  have := List.findIdx?_eq_none_iff.1 h de hde
  simp only [decide_eq_false_iff_not] at this
  exact fun hname => this ⟨hi, hname⟩

namespace Dnode

/-- A directory given by its entries. -/
theorem dotted_of_entries {x : Dnode} {d p : ℕ} (h : x.entries = ⟨d, dot⟩ :: ⟨p, dotdot⟩ :: es)
    (hes : ∀ de ∈ es, de.inum ≠ 0 → de.name ≠ dot ∧ de.name ≠ dotdot) :
    x.Dotted d ∧ x.parent = p ∧ x.rest = es := by
  have hparent : x.parent = p := by simp [parent, h]
  have hrest : x.rest = es := by simp [rest, h]
  exact ⟨⟨by rw [hparent, hrest, h], by rwa [hrest]⟩, hparent, hrest⟩

variable {x : Dnode} {d : ℕ}

/-- A new entry goes behind `..`. -/
theorem Dotted.put (hx : x.Dotted d) (hd : d ≠ 0) (hp : x.parent ≠ 0) {new : Dirent}
    (hnew : new.name ≠ dot ∧ new.name ≠ dotdot) {y : Dnode}
    (hy : y.entries = putEntry new x.entries) :
    y.Dotted d ∧ y.parent = x.parent ∧ y.rest = putEntry new x.rest := by
  refine dotted_of_entries (p := x.parent) ?_ ?_
  · rw [hy, hx.entries_eq]
    simp [putEntry, Dirent.isFree, hd, hp]
  · intro de hde hi
    rcases mem_putEntry hde with rfl | hde
    · exact hnew
    · exact hx.rest_names de hde hi

/-- An entry behind `..` is cleared. -/
theorem Dotted.clear (hx : x.Dotted d) (k : ℕ) {y : Dnode}
    (hy : y.entries = x.entries.set (k + 2) ⟨0, []⟩) :
    y.Dotted d ∧ y.parent = x.parent ∧ y.rest = x.rest.set k ⟨0, []⟩ := by
  refine dotted_of_entries (p := x.parent) ?_ ?_
  · rw [hy, hx.entries_eq]
    rfl
  · intro de hde hi
    rcases List.mem_or_eq_of_mem_set hde with hde | rfl
    · exact hx.rest_names de hde hi
    · exact absurd rfl hi

/-- An entry found under another name than `.` and `..` stands behind them. -/
theorem Dotted.found (hx : x.Dotted d) (hdot : name ≠ dot) (hdotdot : name ≠ dotdot)
    {off i : ℕ} (h : x.entries[off]? = some ⟨i, name⟩) :
    ∃ k, off = k + 2 ∧ x.rest[k]? = some ⟨i, name⟩ := by
  rw [hx.entries_eq] at h
  match off, h with
  | 0, h => exact absurd (by simpa using h : _ ∧ dot = name).2.symm hdot
  | 1, h => exact absurd (by simpa using h : _ ∧ dotdot = name).2.symm hdotdot
  | k + 2, h => exact ⟨k, rfl, h⟩

/-- What a live directory names: its parent, and what stands behind `..`. -/
theorem Dotted.naming_eq (hx : x.Dotted d) (hlive : x.Live) {i : ℕ} (hi : i ≠ 0) :
    x.naming i = (if x.parent = i then 1 else 0) + x.rest.countP fun de => de.inum = i := by
  have hrest : x.rest.countP (fun de => de.inum = i ∧ de.name ≠ dot) =
      x.rest.countP fun de => de.inum = i := by
    refine List.countP_congr fun de hde => ?_
    simp only [decide_eq_true_eq]
    exact ⟨And.left, fun h => ⟨h, (hx.rest_names de hde (h ▸ hi)).1⟩⟩
  rw [naming, if_pos hlive, hx.entries_eq, List.countP_cons, List.countP_cons, hrest]
  simp only [ne_eq, not_true_eq_false, and_false, decide_false, Bool.false_eq_true, if_false,
    decide_eq_true_eq, show (¬dotdot = dot) = True from by decide, and_true]
  omega

end Dnode

namespace TreeOk

variable {n : ℕ} {t : Itable} (h : TreeOk n t)

include h

variable {d : ℕ}

theorem live_pos (hd : (t d).Live) : d ≠ 0 := (h.bound d hd.ne_free).1.ne'

theorem live_lt (hd : (t d).Live) : d < n := (h.bound d hd.ne_free).2

theorem parent_pos (hd : (t d).Live) : (t d).parent ≠ 0 := h.live_pos (h.parent_live d hd)

theorem naming_le_names (hd : (t d).Live) (i : ℕ) : (t d).naming i ≤ names n t i :=
  Finset.single_le_sum (f := fun d => (t d).naming i) (fun _ _ => Nat.zero_le _)
    (Finset.mem_range.2 (h.live_lt hd))

/-- What a live directory names has links. -/
theorem links_pos {d i : ℕ} (hd : (t d).Live) (hi : i ≠ 0) (hnaming : 0 < (t d).naming i) :
    0 < (t i).links := by
  have hle := h.naming_le_names hd i
  have hexact := h.exact i hi
  omega

theorem links_pos_of_rest (hd : (t d).Live) {de : Dirent} (hde : de ∈ (t d).rest)
    (hi : de.inum ≠ 0) : 0 < (t de.inum).links := by
  refine h.links_pos hd hi ?_
  rw [(h.dots d hd.1).naming_eq hd hi]
  have : 0 < (t d).rest.countP fun e => e.inum = de.inum :=
    List.countP_pos_iff.2 ⟨de, hde, by simp⟩
  omega

end TreeOk

namespace Dnode

theorem ne_free_of_links {x : Dnode} (h : 0 < x.links) : x.type ≠ .free := by
  intro hfree
  rw [links, if_pos hfree] at h
  omega

theorem live_of_links {x : Dnode} (hdir : x.type = .dir) (h : 0 < x.links) : x.Live :=
  ⟨hdir, by rwa [links_of_ne (ne_free_of_links h)] at h⟩

end Dnode

end Xv6
