import Xv6.Fs.TreeEdit
import Xv6.Lib.Stoppable

set_option autoImplicit false

/-! # References to cached inodes

`owned` counts the references that processes keep between calls: current directories and open files.
A running call holds further references, listed in `held`. `CacheOk` says that `ref` is their sum,
that what is owned or valid has a type, and that an allocated inode without links is still
referenced.

The last point is what keeps a lookup from freeing anything: when `iput` takes back the reference of
the lookup, an inode without links has another one. -/

namespace Xv6

open Function Stoppable

/-- An open file on the inode `i`. -/
def FileSlot.IsOpen (x : FileSlot) (i : ℕ) : Prop := 0 < x.ref ∧ x.type = .inode ∧ x.ip = i

instance (x : FileSlot) (i : ℕ) : Decidable (x.IsOpen i) := inferInstanceAs (Decidable (_ ∧ _))

namespace DirFs

/-- The processes whose current directory is `i`. -/
def cwds (s : DirFs) (i : ℕ) : ℕ := ∑ p, if (s.proc p).cwd = some i then 1 else 0

/-- The open files on the inode `i`. -/
def opens (s : DirFs) (i : ℕ) : ℕ := ∑ f, if (s.file f).IsOpen i then 1 else 0

def owned (s : DirFs) (i : ℕ) : ℕ := s.cwds i + s.opens i

/-- Only the cache differs. -/
structure SameTree (s s' : DirFs) : Prop where
  ninodes : s'.ninodes = s.ninodes
  inode : s'.inode = s.inode
  file : s'.file = s.file
  proc : s'.proc = s.proc

namespace SameTree

variable {s s' s'' : DirFs}

theorem refl : SameTree s s := ⟨rfl, rfl, rfl, rfl⟩

theorem trans (h : SameTree s s') (h' : SameTree s' s'') : SameTree s s'' :=
  ⟨h'.ninodes.trans h.ninodes, h'.inode.trans h.inode, h'.file.trans h.file, h'.proc.trans h.proc⟩

end SameTree

theorem owned_congr {s s' : DirFs} (hfile : s'.file = s.file) (hproc : s'.proc = s.proc) (i : ℕ) :
    s'.owned i = s.owned i := by
  simp only [owned, cwds, opens, hfile, hproc]

@[simp] theorem setInode_owned (s : DirFs) (i : ℕ) (y : Dnode) (j : ℕ) :
    (s.setInode i y).owned j = s.owned j := owned_congr rfl rfl j

theorem owned_of_cwd {s : DirFs} {p : Fin nproc} {c : ℕ} (h : (s.proc p).cwd = some c) :
    0 < s.owned c := by
  have hle : (if (s.proc p).cwd = some c then 1 else 0) ≤ s.cwds c :=
    Finset.single_le_sum (f := fun q => if (s.proc q).cwd = some c then 1 else 0)
      (fun _ _ => Nat.zero_le _) (Finset.mem_univ p)
  rw [if_pos h] at hle
  unfold owned
  omega

/-! ## The invariant of the cache -/

/-- What holds of one inode: of the references that processes own and that the call holds, of the
    entry of the cache and of the record. -/
structure CacheAt (own hold : ℕ) (ref : Int) (valid : Bool) (x : Dnode) : Prop where
  ref_eq : ref = ((own + hold : ℕ) : Int)
  owned_alloc : 0 < own → x.type ≠ .free
  valid_alloc : valid = true → 0 < ref → x.type ≠ .free
  unlinked : x.type ≠ .free → x.nlink = 0 → valid = true ∧ 0 < ref

def CacheOk (s : DirFs) (held : List ℕ) : Prop :=
  ∀ i, CacheAt (s.owned i) (held.count i) (s.ref i) (s.valid i) (s.inode i)

/-- Inodes without links are referenced, also without the reference that the call got last. -/
def Kept (s : DirFs) (held : List ℕ) : Prop :=
  ∀ i, (s.inode i).type ≠ .free → (s.inode i).nlink = 0 → 0 < s.owned i + held.count i

theorem Kept.congr {s s' : DirFs} {held : List ℕ} (h : Kept s held) (hs : SameTree s s') :
    Kept s' held := by
  intro i
  rw [hs.inode, owned_congr hs.file hs.proc]
  exact h i

theorem Kept.cons {s : DirFs} {held : List ℕ} (h : Kept s held) (k : ℕ) : Kept s (k :: held) := by
  intro i halloc hnlink
  have hpos := h i halloc hnlink
  rw [List.count_cons]
  omega

namespace CacheOk

variable {s s' : DirFs} {held held' : List ℕ}

section

variable (h : CacheOk s held)

include h

theorem kept : Kept s held := by
  intro i halloc hnlink
  have hpos := ((h i).unlinked halloc hnlink).2
  rw [(h i).ref_eq] at hpos
  omega

theorem perm (hperm : held.Perm held') : CacheOk s held' :=
  fun i => hperm.count_eq i ▸ h i

theorem ref_pos {i : ℕ} (hi : i ∈ held) : 0 < s.ref i := by
  have := List.count_pos_iff.2 hi
  rw [(h i).ref_eq]
  omega

theorem ref_pos_of_owned {i : ℕ} (hi : 0 < s.owned i) : 0 < s.ref i := by
  rw [(h i).ref_eq]
  omega

/-- One inode is looked at; the others stay as they are. -/
theorem change (i : ℕ) (hfile : s'.file = s.file) (hproc : s'.proc = s.proc)
    (hheld : ∀ j, j ≠ i → held'.count j = held.count j)
    (hother : ∀ j, j ≠ i → s'.ref j = s.ref j ∧ s'.valid j = s.valid j ∧ s'.inode j = s.inode j)
    (hi : CacheAt (s.owned i) (held'.count i) (s'.ref i) (s'.valid i) (s'.inode i)) :
    CacheOk s' held' := by
  intro j
  rw [owned_congr hfile hproc]
  by_cases hji : j = i
  · exact hji ▸ hi
  · obtain ⟨href, hvalid, hinode⟩ := hother j hji
    rw [hheld j hji, href, hvalid, hinode]
    exact h j

end

end CacheOk

theorem count_cons_of_ne {i j : ℕ} (hne : j ≠ i) (held : List ℕ) :
    (i :: held).count j = held.count j := List.count_cons_of_ne (Ne.symm hne)

/-! ## `iget`, `idup`, `ilock`, `iput` -/

/-- The panic `ilock: no type` only where `safe` fails. -/
def NoType (safe : Prop) (e : DirPanic) : Prop := e = .ilockNoType → ¬safe

variable {s s' : DirFs} {held : List ℕ} {safe : Prop} {i : ℕ} {P : DirPanic → Prop}

/-- The inodes that processes keep in the cache. -/
def users (s : DirFs) : ℕ := (List.range s.ninodes).countP fun i => 0 < s.owned i

theorem users_congr (hninodes : s'.ninodes = s.ninodes) (hfile : s'.file = s.file)
    (hproc : s'.proc = s.proc) :
    s'.users = s.users := by
  unfold users
  rw [hninodes]
  simp only [owned_congr hfile hproc]

/-- Every entry of the cache is kept by a process or held by the call. -/
theorem CacheOk.cached_le (h : CacheOk s held) : s.cached ≤ s.users + held.length := by
  have hsplit : ∀ l : List ℕ, (l.countP fun i => 0 < s.ref i) ≤
      (l.countP fun i => 0 < s.owned i) + (l.filter fun i => i ∈ held).length := by
    intro l
    induction l with
    | nil => exact Nat.zero_le _
    | cons i l ih =>
      have hi : 0 < s.ref i → 0 < s.owned i ∨ i ∈ held := by
        intro hpos
        rw [(h i).ref_eq] at hpos
        rw [← List.count_pos_iff]
        omega
      rw [List.countP_cons, List.countP_cons, List.filter_cons]
      by_cases hheld : i ∈ held
      · simp only [hheld, decide_true, if_true, List.length_cons]
        split <;> omega
      · simp only [hheld, decide_false, Bool.false_eq_true, if_false, decide_eq_true_eq]
        by_cases hpos : 0 < s.ref i
        · rw [if_pos hpos, if_pos ((hi hpos).resolve_right hheld)]
          omega
        · rw [if_neg hpos]
          omega
  refine Nat.le_trans (hsplit _) (Nat.add_le_add_left ?_ _)
  exact (List.nodup_range.filter _).length_le_of_subset fun i hi => by
    simpa using (List.mem_filter.1 hi).2

theorem CacheOk.users_le (h : CacheOk s []) : s.users ≤ s.cached := by
  refine List.countP_mono_left fun i _ hi => ?_
  rw [decide_eq_true_eq] at hi ⊢
  exact h.ref_pos_of_owned hi

/-- `P` holds of the stops of a lookup that holds `n` references: an inode without a type is met
only where `safe` fails, and the cache is full only if the processes leave no room for `n` more. -/
structure Allows (P : DirPanic → Prop) (safe : Prop) (s : DirFs) (n : ℕ) : Prop where
  noType : ¬safe → P .ilockNoType
  noInodes : P .igetNoInodes ∨ s.users + n ≤ ninode

theorem allows_noType (s : DirFs) (n : ℕ) : Allows (NoType safe) safe s n :=
  ⟨fun h _ => h, .inl nofun⟩

theorem Allows.of_users {n m : ℕ} (h : Allows P safe s n) (husers : s'.users = s.users)
    (hle : m ≤ n) :
    Allows P safe s' m := ⟨h.noType, h.noInodes.imp_right fun hroom => by omega⟩

theorem Allows.congr {n m : ℕ} (h : Allows P safe s n) (hsame : SameTree s s') (hle : m ≤ n) :
    Allows P safe s' m :=
  h.of_users (users_congr hsame.ninodes hsame.file hsame.proc) hle

/-- One more reference to an inode that has one. -/
theorem CacheOk.ref_succ (h : CacheOk s held) (hpos : 0 < s.ref i) :
    CacheOk { s with ref := update s.ref i (s.ref i + 1) } (i :: held) := by
  refine h.change i rfl rfl (fun j hj => count_cons_of_ne hj held)
    (fun j hj => ⟨update_of_ne hj _ _, rfl, rfl⟩) ?_
  have hi := h i
  simp only [update_self, List.count_cons_self]
  exact ⟨by have := hi.ref_eq; omega, hi.owned_alloc, fun hv _ => hi.valid_alloc hv hpos,
    fun ha hn => ⟨(hi.unlinked ha hn).1, by omega⟩⟩

theorem iget_yields (hP : Allows P safe s (held.length + 1)) (h : CacheOk s held) (i : ℕ) :
    Yields P
      (fun s' => SameTree s s' ∧ CacheOk s' (i :: held) ∧ ∀ j ∈ held, s'.valid j = s.valid j)
      (s.iget i) := by
  rw [iget]
  split
  · next hpos =>
      exact .ok ⟨⟨rfl, rfl, rfl, rfl⟩, h.ref_succ hpos, fun _ _ => rfl⟩
  · next hpos =>
      split
      · next hfull =>
          have hle := h.cached_le
          exact .error (hP.noInodes.resolve_right (by omega))
      · refine .ok ⟨⟨rfl, rfl, rfl, rfl⟩, ?_, fun j hj => ?_⟩
        swap
        · have hji : j ≠ i := fun hji => hpos (hji ▸ h.ref_pos hj)
          exact update_of_ne hji _ _
        refine h.change i rfl rfl (fun j hj => count_cons_of_ne hj held)
          (fun j hj => ⟨update_of_ne hj _ _, update_of_ne hj _ _, rfl⟩) ?_
        have hi := h i
        have hzero : s.owned i + held.count i = 0 := by
          have := hi.ref_eq
          omega
        simp only [update_self, List.count_cons_self]
        exact ⟨by omega, hi.owned_alloc, fun hv => (by cases hv),
          fun ha hn => absurd (hi.unlinked ha hn).2 hpos⟩

theorem idup_cache (h : CacheOk s held) (hpos : 0 < s.ref i) : CacheOk (s.idup i) (i :: held) :=
  h.ref_succ hpos

theorem ilock_yields (hP : ¬safe → P .ilockNoType) (h : CacheOk s held) (hi : i ∈ held)
    (hsafe : safe → (s.inode i).type ≠ .free) :
    Yields P
      (fun s' => SameTree s s' ∧ CacheOk s' held ∧ (s.inode i).type ≠ .free ∧ s'.valid i = true ∧
        ∀ j, s.valid j = true → s'.valid j = true)
      (s.ilock i) := by
  have hpos := h.ref_pos hi
  rw [ilock, if_neg (by omega)]
  split
  · next hv => exact .ok ⟨.refl, h, (h i).valid_alloc hv hpos, hv, fun _ hj => hj⟩
  · split
    · next hfree => exact .error (hP fun hs => hsafe hs hfree)
    · next halloc =>
        refine .ok ⟨⟨rfl, rfl, rfl, rfl⟩, ?_, halloc, by simp, fun j hj => ?_⟩
        · refine h.change i rfl rfl (fun _ _ => rfl)
            (fun j hj => ⟨rfl, update_of_ne hj _ _, rfl⟩) ?_
          simp only [update_self]
          exact ⟨(h i).ref_eq, (h i).owned_alloc, fun _ _ => halloc, fun _ _ => ⟨rfl, hpos⟩⟩
        · by_cases hji : j = i
          · simp [hji]
          · simpa [update_of_ne hji] using hj

@[simp] theorem iput_ninodes (s : DirFs) (i : ℕ) : (s.iput i).ninodes = s.ninodes := by
  rw [iput]
  split <;> rfl

@[simp] theorem iput_file (s : DirFs) (i : ℕ) : (s.iput i).file = s.file := by
  rw [iput]
  split <;> rfl

@[simp] theorem iput_proc (s : DirFs) (i : ℕ) : (s.iput i).proc = s.proc := by
  rw [iput]
  split <;> rfl

theorem iput_of_ne (s : DirFs) {i j : ℕ} (hne : j ≠ i) :
    (s.iput i).ref j = s.ref j ∧ (s.iput i).valid j = s.valid j ∧
    (s.iput i).inode j = s.inode j := by
  rw [iput]
  split
  · exact ⟨by simp [ifree, setInode, hne], by simp [ifree, hne], by simp [ifree, setInode, hne]⟩
  · exact ⟨by simp [hne], rfl, rfl⟩

section

variable (h : CacheOk s (i :: held))

include h

theorem iput_cache : CacheOk (s.iput i) held := by
  refine h.change i (by simp) (by simp) (fun j hj => (count_cons_of_ne hj held).symm)
    (fun j hj => iput_of_ne s hj) ?_
  have hi := h i
  have href := hi.ref_eq
  rw [List.count_cons_self] at href
  rw [iput]
  split
  · -- the last reference to an inode without links
    simp only [ifree, setInode, update_self]
    exact ⟨by omega, fun hown => by omega, fun hv => (by cases hv), fun ha => absurd rfl ha⟩
  · next hkeep =>
      simp only [update_self]
      refine ⟨by omega, hi.owned_alloc, fun hv _ => hi.valid_alloc hv (by omega), fun ha hn => ?_⟩
      have hv := (hi.unlinked ha hn).1
      refine ⟨hv, ?_⟩
      have hone : s.ref i ≠ 1 := fun hone => hkeep ⟨hone, hv, hn⟩
      omega

theorem iput_freed : Freed s.inode (s.iput i).inode := by
  intro j
  by_cases hji : j = i
  · subst hji
    rw [iput]
    split
    · next hlast =>
        refine .inr ⟨(h j).valid_alloc hlast.2.1 (by omega), hlast.2.2, ?_⟩
        simp [ifree, setInode, Dnode.truncated]
    · exact .inl rfl
  · exact .inl (iput_of_ne s hji).2.2

/-- An inode that has links or another reference is not freed. -/
theorem iput_inode
    (hi : (s.inode i).type ≠ .free → (s.inode i).nlink = 0 → 0 < s.owned i + held.count i) :
    (s.iput i).inode = s.inode ∧ (s.iput i).valid = s.valid := by
  have href := (h i).ref_eq
  rw [List.count_cons_self] at href
  rw [iput, if_neg]
  · exact ⟨rfl, rfl⟩
  · rintro ⟨hone, hv, hn⟩
    have := hi ((h i).valid_alloc hv (by omega)) hn
    omega

/-- A lookup gives its reference back. -/
theorem iput_same (hk : Kept s held) :
    SameTree s (s.iput i) ∧ CacheOk (s.iput i) held ∧ (s.iput i).valid = s.valid :=
  have hsame := iput_inode h (hk i)
  ⟨⟨by simp, hsame.1, by simp, by simp⟩, iput_cache h, hsame.2⟩

end

end DirFs

end Xv6
