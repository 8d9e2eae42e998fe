import Xv6.Fs.InodeMoves

set_option autoImplicit false

/-! # Protection attributes of inodes (`CS333_P5`)

`chmod`, `chown` and `chgrp` check their argument, lock the inode, assign to one field and call
`iupdate`; `fstat` locks the inode and copies the fields with `stati`. Nothing else assigns to
`uid`, `gid` or `mode` of a cached inode, but `ilock` reads them and `ialloc` clears them.

The bound of `sys_chmod` is written `1777` and so is decimal, where the ten flags of `mode_t` make
up the octal `01777`. A mode between the two is stored with bits that are no flag
(`chmod_stores_padding`), and in a run without such a call every attribute is well formed
(`attributes_sound`). -/

namespace Xv6

open Transition Function

/-- The attributes are in range: user and group as in the comments of `sys_chown` and `sys_chgrp`,
and a mode with no bit outside the flags of `mode_t`. -/
structure Dinode.WellFormed {v : FsBuild} (x : Dinode v) : Prop where
  uid : x.uid.toNat ≤ 32767
  gid : x.gid.toNat ≤ 32767
  mode : x.mode.toNat ≤ 0o1777

instance {v : FsBuild} (x : Dinode v) : Decidable x.WellFormed :=
  decidable_of_iff (x.uid.toNat ≤ 32767 ∧ x.gid.toNat ≤ 32767 ∧ x.mode.toNat ≤ 0o1777)
    ⟨fun ⟨hu, hg, hm⟩ => ⟨hu, hg, hm⟩, fun h => ⟨h.uid, h.gid, h.mode⟩⟩

variable {v : FsBuild}

def Dinode.attrs (x : Dinode v) : BitVec 16 × BitVec 16 × Word := (x.uid, x.gid, x.mode)

theorem Dinode.WellFormed.congr {x y : Dinode v} (h : x.WellFormed) (hxy : y.attrs = x.attrs) :
    y.WellFormed := by
  simp only [attrs, Prod.mk.injEq] at hxy
  obtain ⟨hu, hg, hm⟩ := hxy
  exact ⟨hu ▸ h.uid, hg ▸ h.gid, hm ▸ h.mode⟩

theorem Dinode.wellFormed_blank (type : BitVec 16) : (blank type : Dinode v).WellFormed :=
  ⟨by simp [blank], by simp [blank], by simp [blank]⟩

/-- What `ialloc` of `mkfs` writes, with `UID`, `GID` and `MODE` of `param.h`. -/
def Dinode.mkfs (type : BitVec 16) : Dinode .p5 :=
  { blank type with nlink := 1, uid := 0, gid := 0, mode := 0o755 }

/-- `struct stat`. -/
structure Stat where
  type : BitVec 16
  dev : ℕ
  ino : ℕ
  nlink : BitVec 16
  size : Word
  mode : Word
  uid : BitVec 16
  gid : BitVec 16

def stati (ip : CacheEntry v) : Stat where
  dev := ip.dev
  ino := ip.inum
  type := ip.node.type
  nlink := ip.node.nlink
  size := ip.node.size
  uid := ip.node.uid
  gid := ip.node.gid
  mode := ip.node.mode

inductive AttrCall
  | chmod
  | chown
  | chgrp
  deriving DecidableEq, Repr

namespace AttrCall

/-- The largest argument. That of `sys_chmod` is written without the leading zero of an octal
    number. -/
def max : AttrCall → Int
  | chmod => 1777
  | chown | chgrp => 32767

/-- The call does not return `-1` for its second argument. -/
def Accepts (c : AttrCall) (arg : Word) : Prop := ¬(arg.toInt < 0 ∨ c.max < arg.toInt)

instance (c : AttrCall) : DecidablePred c.Accepts := fun _ => inferInstanceAs (Decidable (¬_))

/-- The assignment to the locked inode. -/
def set (arg : Word) (ip : Dinode v) : AttrCall → Dinode v
  | chmod => { ip with mode := arg }
  | chown => { ip with uid := arg.setWidth 16 }
  | chgrp => { ip with gid := arg.setWidth 16 }

/-- The field of an inode. -/
def field (c : AttrCall) (ip : Dinode v) : Word :=
  match c with
  | chmod => ip.mode
  | chown => ip.uid.setWidth 32
  | chgrp => ip.gid.setWidth 32

/-- The field of `struct stat`. -/
def stat (c : AttrCall) (st : Stat) : Word :=
  match c with
  | chmod => st.mode
  | chown => st.uid.setWidth 32
  | chgrp => st.gid.setWidth 32

variable {v : FsBuild} {c : AttrCall} {arg : Word}

theorem stat_stati (c : AttrCall) (ip : CacheEntry v) : c.stat (stati ip) = c.field ip.node := by
  cases c <;> rfl

theorem field_truncated (c : AttrCall) (x : Dinode v) : c.field x.truncated = c.field x := by
  cases c <;> rfl

theorem field_clear (c : AttrCall) (x : Dinode v) : c.field { x with type := 0 } = c.field x := by
  cases c <;> rfl

theorem field_congr (c : AttrCall) {x y : Dinode v} (h : x.attrs = y.attrs) :
    c.field x = c.field y := by
  simp only [Dinode.attrs, Prod.mk.injEq] at h
  obtain ⟨hu, hg, hm⟩ := h
  cases c with
  | chmod => exact hm
  | chown => exact congrArg (BitVec.setWidth 32) hu
  | chgrp => exact congrArg (BitVec.setWidth 32) hg

theorem Accepts.toNat_le (h : c.Accepts arg) : (arg.toNat : Int) ≤ c.max := by
  have hlt := arg.isLt
  simp only [Accepts, BitVec.toInt_eq_toNat_cond] at h
  split_ifs at h <;> omega

theorem accepts_of_toNat_le (h : (arg.toNat : Int) ≤ c.max) : c.Accepts arg := by
  have hmax : c.max ≤ 32767 := by cases c <;> decide
  have hlt := arg.isLt
  simp only [Accepts, BitVec.toInt_eq_toNat_cond]
  split_ifs <;> omega

/-- A number that a call accepts is not cut off by the width of the field. -/
theorem field_set (h : c.Accepts arg) (ip : Dinode v) : c.field (c.set arg ip) = arg := by
  have hle := h.toNat_le
  cases c with
  | chmod => rfl
  | chown | chgrp =>
    apply BitVec.eq_of_toNat_eq
    simp only [max] at hle
    simp only [field, set, BitVec.toNat_setWidth]
    omega

/-- One call leaves the fields of the others. -/
theorem field_set_ne {d : AttrCall} (hne : d ≠ c) (ip : Dinode v) :
    d.field (c.set arg ip) = d.field ip := by
  cases c <;> cases d <;> first | rfl | exact absurd rfl hne

theorem wellFormed_set (h : c.Accepts arg) (hmode : c = .chmod → arg.toNat ≤ 0o1777) {ip : Dinode v}
    (hip : ip.WellFormed) : (c.set arg ip).WellFormed := by
  have hle := h.toNat_le
  have hmod := Nat.mod_le arg.toNat (2 ^ 16)
  cases c with
  | chmod => exact ⟨hip.uid, hip.gid, hmode rfl⟩
  | chown =>
    refine ⟨?_, hip.gid, hip.mode⟩
    simp only [set, BitVec.toNat_setWidth, max] at hle ⊢
    omega
  | chgrp =>
    refine ⟨hip.uid, ?_, hip.mode⟩
    simp only [set, BitVec.toNat_setWidth, max] at hle ⊢
    omega

end AttrCall

/-! ## The calls and the cache -/

inductive AttrAct (P : Type)
  /-- A call that process `p` makes for the inode of the entry, at its assignment if it comes to
      it. -/
  | call (c : AttrCall) (p : P) (e : Fin ninode) (arg : Word)
  | other (a : InodeAct .p5 P)

/-- The action does not assign to the attributes of a cached inode. -/
def InodeAct.KeepsAttrs {P : Type} (s : InodeSys .p5 P) : InodeAct .p5 P → Prop
  | .modify _ e x => x.attrs = (s.entry e).node.attrs
  | _ => True

instance {P : Type} (s : InodeSys .p5 P) : DecidablePred (InodeAct.KeepsAttrs s)
  | .modify .. => inferInstanceAs (Decidable (_ = _))
  | .iget .. | .idup .. | .ilock .. | .iupdate .. | .iunlock .. | .iput .. | .give ..
  | .ialloc .. | .run _ => .isTrue trivial

def InodeAct.proc {P : Type} : InodeAct v P → P
  | .iget p .. | .idup p _ | .ilock p _ | .modify p .. | .iupdate p _ | .iunlock p _ | .iput p _ | .give p ..
  | .ialloc p .. | .run p => p

def AttrAct.proc {P : Type} : AttrAct P → P
  | .call _ p .. => p
  | .other a => a.proc

namespace InodeSys

variable {P : Type} [DecidableEq P]

/-- A call with an argument that it does not accept returns before it comes to an inode. -/
def attrStep (a : AttrAct P) (s : InodeSys .p5 P) : Except InodeStop (InodeSys .p5 P) :=
  match a with
  | .call c p e arg =>
    if c.Accepts arg then s.step (.modify p e (c.set arg (s.entry e).node)) else .ok s
  | .other a => if a.KeepsAttrs s then s.step a else .error .blocked

/-- Every inode in use, in the cache or on the disk, is well formed. The inodes are those below
    `n`. -/
structure Protected (n : ℕ) (s : InodeSys .p5 P) : Prop where
  cached : ∀ e, 0 < (s.entry e).ref → (s.entry e).valid = true → (s.entry e).node.type ≠ 0 →
    (s.entry e).inum < n → (s.entry e).node.WellFormed
  onDisk : ∀ k, k.2 < n → (s.disk k).type ≠ 0 → (s.disk k).WellFormed

/-- No `chmod` of an inode below `n` is called with a number from the octal to the decimal
    `1777`. -/
def ModeFits (n : ℕ) (a : AttrAct P) (s : InodeSys .p5 P) : Prop :=
  match a with
  | .call .chmod _ e arg => (s.entry e).inum < n → ¬(0o1777 < arg.toNat ∧ arg.toNat ≤ 1777)
  | _ => True

/-- What the steps keep: a valid copy and an inode on the disk are well formed even when they are
    not in use. -/
structure AllFormed (n : ℕ) (s : InodeSys .p5 P) : Prop where
  copy : ∀ e, (s.entry e).valid = true → (s.entry e).inum < n → (s.entry e).node.WellFormed
  disk : ∀ k, k.2 < n → (s.disk k).WellFormed

variable {n : ℕ} {a : AttrAct P} {s s' : InodeSys .p5 P} {p : P} {e : Fin ninode}

omit [DecidableEq P] in
theorem AllFormed.protected (h : AllFormed n s) : Protected n s :=
  ⟨fun e _ hvalid _ hn => h.copy e hvalid hn, fun k hk _ => h.disk k hk⟩

/-- A step is one of the cache, or nothing. -/
theorem attrStep_cases (hs : s.attrStep a = .ok s') :
    (∃ c p e arg, a = .call c p e arg ∧ ¬c.Accepts arg ∧ s' = s) ∨
      (∃ c p e arg, a = .call c p e arg ∧ c.Accepts arg ∧
        s.step (.modify p e (c.set arg (s.entry e).node)) = .ok s') ∨
      ∃ b, a = .other b ∧ b.KeepsAttrs s ∧ s.step b = .ok s' := by
  cases a with
  | call c p e arg =>
    simp only [attrStep] at hs
    split_ifs at hs with hacc
    · exact .inr (.inl ⟨c, p, e, arg, rfl, hacc, hs⟩)
    · exact .inl ⟨c, p, e, arg, rfl, hacc, (Except.ok.inj hs).symm⟩
  | other b =>
    simp only [attrStep] at hs
    split_ifs at hs with hkeeps
    exact .inr (.inr ⟨b, rfl, hkeeps, hs⟩)

theorem step_modify {x : Dinode .p5} (hs : s.step (.modify p e x) = .ok s') :
    s.pc p = .idle ∧ s.locks p e = true ∧ s' = (s.setNode e x).setDirty e true := by
  simp only [step] at hs
  split_ifs at hs with hg
  exact ⟨hg.1, hg.2.1, (Except.ok.inj hs).symm⟩

section

variable [Fintype P]

theorem Holds.attrStep (h : Holds s) (hs : s.attrStep a = .ok s') : Holds s' := by
  obtain ⟨_, _, _, _, -, -, rfl⟩ | ⟨c, p, e, arg, -, -, hstep⟩ | ⟨b, -, -, hstep⟩ :=
    attrStep_cases hs
  · exact h
  · exact h.step hstep
  · exact h.step hstep

/-- A step of the cache that stores well-formed copies only. -/
theorem AllFormed.step (h : AllFormed n s) (hheld : Holds s) {b : InodeAct .p5 P}
    (hs : s.step b = .ok s')
    (hmodify : ∀ p e x, b = .modify p e x → (s.entry e).valid = true → (s.entry e).inum < n →
      x.WellFormed) :
    AllFormed n s' := by
  have hcopy := fun e hvalid =>
    hheld.field_copy (f := Dinode.attrs) (fun _ => rfl) (fun _ => rfl) hs (e := e) hvalid
  refine ⟨fun e hvalid hn => ?_, fun k hk => ?_⟩
  · obtain ⟨hkey, -, hfrom⟩ := hcopy e hvalid
    have hinum : (s'.entry e).inum = (s.entry e).inum := congrArg Prod.snd hkey
    rw [hinum] at hn
    rcases hfrom with ⟨hvalid0, hsame⟩ | ⟨-, hdisk⟩ | ⟨p, hmod, hlock⟩
    · exact (h.copy e hvalid0 hn).congr hsame
    · exact (h.disk (s.entry e).key hn).congr hdisk
    · subst hmod
      exact hmodify p e _ rfl (hheld.of_idle (step_modify hs).1 hlock).1 hn
  · rcases hheld.field_disk (f := Dinode.attrs) (fun _ => rfl) (fun _ => rfl) hs k with
      hsame | ⟨e, hkey, hvalid, -, hnode⟩ | ⟨-, type, hblank⟩
    · exact (h.disk k hk).congr hsame
    · refine (h.copy e hvalid ?_).congr hnode
      have hinum : (s.entry e).inum = k.2 := congrArg Prod.snd hkey
      rwa [hinum]
    · rw [hblank]
      exact Dinode.wellFormed_blank type

theorem AllFormed.attrStep (h : AllFormed n s) (hheld : Holds s) (hfits : ModeFits n a s)
    (hs : s.attrStep a = .ok s') : AllFormed n s' := by
  obtain ⟨_, _, _, _, -, -, rfl⟩ | ⟨c, p, e, arg, rfl, hacc, hstep⟩ | ⟨b, rfl, hkeeps, hstep⟩ :=
    attrStep_cases hs
  · exact h
  · refine h.step hheld hstep fun p' e' x hx hvalid hn => ?_
    cases hx
    refine AttrCall.wellFormed_set hacc (fun hc => ?_) (h.copy e hvalid hn)
    subst hc
    have hmax := hacc.toNat_le
    have hrange : ¬(0o1777 < arg.toNat ∧ arg.toNat ≤ 1777) := hfits hn
    simp only [AttrCall.max] at hmax
    omega
  · refine h.step hheld hstep fun p' e' x hx hvalid hn => ?_
    subst hx
    exact (h.copy e' hvalid hn).congr hkeeps

omit [DecidableEq P] in
/-- The process that has locked an inode and is between two calls has an inode in use. -/
theorem Holds.type_of_idle (h : Holds s) (hpc : s.pc p = .idle) (hlock : s.locks p e = true) :
    (s.entry e).node.type ≠ 0 :=
  h.typed_of_lock hlock (h.of_idle hpc hlock).1 (by simp [hpc])

/-- A step after which the inodes in use are well formed is no `chmod` with a number that is too
    large. -/
theorem Protected.modeFits (hheld : Holds s) (hs : s.attrStep a = .ok s') (h : Protected n s') :
    ModeFits n a s := by
  obtain ⟨c, p, e, arg, rfl, hacc, rfl⟩ | ⟨c, p, e, arg, rfl, hacc, hstep⟩ | ⟨b, rfl, -, -⟩ :=
    attrStep_cases hs
  · cases c with
    | chmod =>
      rintro - ⟨-, hle⟩
      exact hacc (AttrCall.accepts_of_toNat_le (by simp only [AttrCall.max]; omega))
    | chown | chgrp => trivial
  · cases c with
    | chmod =>
      rintro hn ⟨hlt, -⟩
      obtain ⟨hpc, hlock, rfl⟩ := step_modify hstep
      obtain ⟨hvalid, hpos⟩ := hheld.of_idle hpc hlock
      have hentry := setNode_entry s e (AttrCall.chmod.set arg (s.entry e).node)
      have hwell : (AttrCall.chmod.set arg (s.entry e).node).WellFormed := by
        have hcached := h.cached e
        simp only [setDirty, hentry] at hcached
        exact hcached hpos hvalid (hheld.type_of_idle hpc hlock) hn
      have hmode : arg.toNat ≤ 0o1777 := hwell.mode
      omega
    | chown | chgrp => trivial
  · trivial

end

/-! ## What a later `fstat` returns -/

/-- Process `p` has the entry locked, and its copy has the number that was stored. -/
structure Stored (c : AttrCall) (p : P) (e : Fin ninode) (k : ℕ × ℕ) (arg : Word)
    (s : InodeSys .p5 P) :
    Prop where
  idle : s.pc p = .idle
  lock : s.locks p e = true
  key : (s.entry e).key = k
  value : c.field (s.entry e).node = arg

/-- The disk and the copies in use have the number. -/
structure Kept (c : AttrCall) (k : ℕ × ℕ) (arg : Word) (s : InodeSys .p5 P) : Prop where
  disk : c.field (s.disk k) = arg
  copy : ∀ e, (s.entry e).key = k → 0 < (s.entry e).ref → (s.entry e).valid = true →
    c.field (s.entry e).node = arg

/-- The inode is in use, and no other call of the kind stores a number in it. -/
def Undisturbed (c : AttrCall) (k : ℕ × ℕ) (a : AttrAct P) (s : InodeSys .p5 P) : Prop :=
  (s.disk k).type ≠ 0 ∧ ∀ p e arg, a = .call c p e arg → c.Accepts arg → (s.entry e).key ≠ k

theorem iget_locks {dev inum : ℕ} (h : s.iget p dev inum = .ok s') : s'.locks = s.locks := by
  obtain ⟨e, -, -, rfl⟩ | ⟨e, -, -, rfl⟩ := iget_cases h
  · rfl
  · rfl

theorem run_bystander {q : P} (hs : s.run q = .ok s') (hne : p ≠ q) :
    s'.pc p = s.pc p ∧ s'.locks p = s.locks p := by
  unfold run at hs
  cases hpc : s.pc q with
  | idle =>
    rw [hpc] at hs
    cases hs
  | ilockWait e =>
    rw [hpc] at hs
    dsimp only at hs
    split_ifs at hs
    cases hs
    exact ⟨update_of_ne hne .., update_of_ne hne ..⟩
  | ilockLoad e =>
    rw [hpc] at hs
    dsimp only at hs
    split_ifs at hs <;> cases hs <;> exact ⟨update_of_ne hne .., rfl⟩
  | iunlock e =>
    rw [hpc] at hs
    cases hs
    exact ⟨update_of_ne hne .., update_of_ne hne ..⟩
  | iput e stage =>
    rw [hpc] at hs
    cases stage with
    | trunc | clear =>
      cases hs
      exact ⟨update_of_ne hne .., rfl⟩
    | finish =>
      cases hs
      exact ⟨update_of_ne hne .., update_of_ne hne ..⟩
  | ialloc dev type inum =>
    rw [hpc] at hs
    dsimp only at hs
    split_ifs at hs <;> cases hs <;> exact ⟨update_of_ne hne .., rfl⟩
  | iallocGet dev inum =>
    rw [hpc] at hs
    dsimp only at hs
    cases hget : s.iget q dev inum with
    | error x =>
      rw [hget] at hs
      cases hs
    | ok s1 =>
      rw [hget] at hs
      cases hs
      refine ⟨(update_of_ne hne ..).trans ?_, ?_⟩
      · rw [(iget_same hget).1]
      · exact congrFun (iget_locks hget) p

variable {b : InodeAct .p5 P}

/-- An action leaves the place and the locks of the other processes. -/
theorem step_bystander (hs : s.step b = .ok s') (hp : b.proc ≠ p) :
    s'.pc p = s.pc p ∧ s'.locks p = s.locks p := by
  have hne : p ≠ b.proc := Ne.symm hp
  cases b with
  | iget q dev inum =>
    simp only [step] at hs
    split_ifs at hs
    exact ⟨congrFun (iget_same hs).1 p, congrFun (iget_locks hs) p⟩
  | idup q e | modify q e x | iupdate q e | give q r e =>
    simp only [step] at hs
    split_ifs at hs
    cases hs
    exact ⟨rfl, rfl⟩
  | ilock q e | iunlock q e | ialloc q dev type =>
    simp only [step] at hs
    split_ifs at hs
    cases hs
    exact ⟨update_of_ne hne .., rfl⟩
  | iput q e =>
    simp only [step] at hs
    split_ifs at hs
    · cases hs
      exact ⟨update_of_ne hne .., update_of_ne hne ..⟩
    · cases hs
      exact ⟨rfl, rfl⟩
  | run q => exact run_bystander hs hne

section

variable [Fintype P] {c : AttrCall} {k : ℕ × ℕ} {arg : Word}

theorem Stored.step (h : Stored c p e k arg s) (hheld : Holds s) (hs : s.step b = .ok s')
    (hp : b.proc ≠ p) : Stored c p e k arg s' := by
  obtain ⟨hpc, hlocks⟩ := step_bystander hs hp
  have hlock : s'.locks p e = true := by
    rw [hlocks]
    exact h.lock
  have hvalid := ((hheld.step hs).of_idle (hpc.trans h.idle) hlock).1
  obtain ⟨hkey, -, hfrom⟩ := hheld.field_copy c.field_truncated c.field_clear hs hvalid
  refine ⟨hpc.trans h.idle, hlock, hkey.trans h.key, ?_⟩
  rcases hfrom with ⟨-, hsame⟩ | ⟨hinvalid, -⟩ | ⟨q, rfl, hq⟩
  · exact hsame.trans h.value
  · cases hinvalid.symm.trans (hheld.of_idle h.idle h.lock).1
  · exact absurd ((hheld.held e).excl q p hq h.lock) hp

theorem Stored.attrStep (h : Stored c p e k arg s) (hheld : Holds s) (hs : s.attrStep a = .ok s')
    (hp : a.proc ≠ p) : Stored c p e k arg s' := by
  obtain ⟨_, _, _, _, -, -, rfl⟩ | ⟨c, q, e, arg, rfl, -, hstep⟩ | ⟨b, rfl, -, hstep⟩ :=
    attrStep_cases hs
  · exact h
  · exact h.step hheld hstep hp
  · exact h.step hheld hstep hp

omit [Fintype P] in
/-- The call stores its argument. -/
theorem stored_of_call (hacc : c.Accepts arg) (hs : s.attrStep (.call c p e arg) = .ok s') :
    Stored c p e (s.entry e).key arg s' := by
  simp only [InodeSys.attrStep, if_pos hacc] at hs
  obtain ⟨hpc, hlock, rfl⟩ := step_modify hs
  have hentry : ((s.setNode e (c.set arg (s.entry e).node)).setDirty e true).entry e =
      { s.entry e with node := c.set arg (s.entry e).node } := setNode_entry ..
  refine ⟨hpc, hlock, ?_, ?_⟩
  · rw [hentry]
    rfl
  · rw [hentry]
    exact AttrCall.field_set hacc _

/-- The `iupdate` of the call. -/
theorem Stored.kept (h : Stored c p e k arg s) (hheld : Holds s)
    (hs : s.attrStep (.other (.iupdate p e)) = .ok s') : Kept c k arg s' := by
  have hstep : s' = s.writeBack e := by
    simp only [InodeSys.attrStep, InodeAct.KeepsAttrs, if_true, InodeSys.step, h.idle, h.lock,
      and_self] at hs
    exact (Except.ok.inj hs).symm
  subst hstep
  refine ⟨?_, fun e' hkey hpos _ => ?_⟩
  · show c.field (update s.disk (s.entry e).key (s.entry e).node k) = arg
    rw [h.key, update_self]
    exact h.value
  · obtain rfl := hheld.unique e' e hpos (hheld.of_idle h.idle h.lock).2 (hkey.trans h.key.symm)
    exact h.value

/-- A step of the cache that stores no other number in the inode. -/
theorem Kept.step (h : Kept c k arg s) (hheld : Holds s) (hs : s.step b = .ok s')
    (htype : (s.disk k).type ≠ 0)
    (hmodify : ∀ p e x, b = .modify p e x → (s.entry e).key = k →
      c.field x = c.field (s.entry e).node) :
    Kept c k arg s' := by
  refine ⟨?_, fun e hkey' hpos' hvalid' => ?_⟩
  · rcases hheld.field_disk c.field_truncated c.field_clear hs k with hsame | ⟨e, hkey, hvalid,
      hpos, hnode⟩ | ⟨hz, -⟩
    · exact hsame.trans h.disk
    · exact hnode.trans (h.copy e hkey hpos hvalid)
    · exact absurd hz htype
  · obtain ⟨hkey, hpos, hfrom⟩ := hheld.field_copy c.field_truncated c.field_clear hs hvalid'
    have hkey0 : (s.entry e).key = k := hkey.symm.trans hkey'
    rcases hfrom with ⟨hvalid, hsame⟩ | ⟨-, hdisk⟩ | ⟨q, hmod, hq⟩
    · exact hsame.trans (h.copy e hkey0 (hpos hpos') hvalid)
    · rw [hdisk, hkey0]
      exact h.disk
    · have hvalid : (s.entry e).valid = true := by
        subst hmod
        exact (hheld.of_idle (step_modify hs).1 hq).1
      exact (hmodify q e _ hmod hkey0).trans (h.copy e hkey0 (hpos hpos') hvalid)

theorem Kept.attrStep (h : Kept c k arg s) (hheld : Holds s) (hs : s.attrStep a = .ok s')
    (hquiet : Undisturbed c k a s) : Kept c k arg s' := by
  obtain ⟨_, _, _, _, -, -, rfl⟩ | ⟨d, q, e, arg', rfl, hacc, hstep⟩ | ⟨b, rfl, hkeeps, hstep⟩ :=
    attrStep_cases hs
  · exact h
  · refine h.step hheld hstep hquiet.1 fun q' e' x hx hkey => ?_
    cases hx
    by_cases hd : c = d
    · subst hd
      exact absurd hkey (hquiet.2 q e arg' rfl hacc)
    · exact AttrCall.field_set_ne hd _
  · refine h.step hheld hstep hquiet.1 fun q' e' x hx _ => ?_
    subst hx
    exact c.field_congr hkeeps

omit [DecidableEq P] in
/-- What `fstat` copies while the inode is locked. -/
theorem Kept.stat (h : Kept c k arg s) (hheld : Holds s) (hpc : s.pc p = .idle)
    (hlock : s.locks p e = true)
    (hkey : (s.entry e).key = k) : c.stat (stati (s.entry e)) = arg := by
  obtain ⟨hvalid, hpos⟩ := hheld.of_idle hpc hlock
  rw [AttrCall.stat_stati]
  exact h.copy e hkey hpos hvalid

end

/-! ## Runs -/

/-- The inodes below `n` are as `mkfs` leaves them: free, or made by its `ialloc` and given blocks
by its `iappend`. -/
def FromMkfs (n : ℕ) (disk : ℕ × ℕ → Dinode .p5) : Prop :=
  ∀ k : ℕ × ℕ, k.2 < n → disk k = .blank 0 ∨
    ∃ type size addrs, disk k = { Dinode.mkfs type with size := size, addrs := addrs }

omit [DecidableEq P] in
theorem allFormed_init {disk : ℕ × ℕ → Dinode .p5} (hdisk : FromMkfs n disk) :
    AllFormed n (init n disk : InodeSys .p5 P) := by
  refine ⟨nofun, fun k hk => ?_⟩
  show (disk k).WellFormed
  rcases hdisk k hk with hfree | ⟨type, size, addrs, hmade⟩
  · rw [hfree]
    exact Dinode.wellFormed_blank 0
  · rw [hmade]
    exact ⟨by simp [Dinode.mkfs], by simp [Dinode.mkfs], by simp [Dinode.mkfs]⟩

section

variable [Fintype P]

theorem holds_reachable {init : InodeSys .p5 P → Prop} {ok : AttrAct P → InodeSys .p5 P → Prop}
    (hinit : ∀ s, init s → Holds s) (h : Reachable attrStep init ok s) : Holds s :=
  h.invariant (P := Holds) hinit fun _ _ _ hheld _ hs => hheld.attrStep hs

/-- From the call on, while the process has not come to its `iupdate`. -/
theorem stored_reachable {c : AttrCall} {k : ℕ × ℕ} {arg : Word} {s1 : InodeSys .p5 P}
    (hheld : Holds s1) (hstored : Stored c p e k arg s1)
    (h : Reachable attrStep (· = s1) (fun a _ => a.proc ≠ p) s) :
    Holds s ∧ Stored c p e k arg s := by
  refine h.invariant (P := fun s => Holds s ∧ Stored c p e k arg s) ?_ ?_
  · rintro _ rfl
    exact ⟨hheld, hstored⟩
  · rintro a s s' ⟨hheld, hstored⟩ hp hs
    exact ⟨hheld.attrStep hs, hstored.attrStep hheld hs hp⟩

/-- From the `iupdate` on. -/
theorem kept_reachable {c : AttrCall} {k : ℕ × ℕ} {arg : Word} {s1 : InodeSys .p5 P}
    (hheld : Holds s1)
    (hkept : Kept c k arg s1) (h : Reachable attrStep (· = s1) (Undisturbed c k) s) :
    Holds s ∧ Kept c k arg s := by
  refine h.invariant (P := fun s => Holds s ∧ Kept c k arg s) ?_ ?_
  · rintro _ rfl
    exact ⟨hheld, hkept⟩
  · rintro a s s' ⟨hheld, hkept⟩ hquiet hs
    exact ⟨hheld.attrStep hs, hkept.attrStep hheld hs hquiet⟩

/-- The inodes in use are well formed in every state of a run exactly when no `chmod` is called with
a number that is more than the flags of `mode_t` and not more than the decimal `1777`. Every mode
made of the flags is accepted, and a number that a call has stored is what `fstat` returns until
another call of the kind stores one or the inode is freed. -/
theorem attributes_sound (n : ℕ) (disk : ℕ × ℕ → Dinode .p5) (hdisk : FromMkfs n disk) :
    (Protected n (init n disk : InodeSys .p5 P) ∧ ∀ r : List (AttrAct P × InodeSys .p5 P),
      Run attrStep (init n disk) r →
      ((∀ x ∈ r, Protected n x.2) ↔ StepsMeet (ModeFits n) (init n disk) r)) ∧
    (∀ mode : Word, mode.toNat ≤ 0o1777 → AttrCall.chmod.Accepts mode) ∧
    ∀ s : InodeSys .p5 P, Reachable attrStep (· = init n disk) (fun _ _ => True) s →
      ∀ c p e arg s1 s2 s3 s4, AttrCall.Accepts c arg → s.attrStep (.call c p e arg) = .ok s1 →
        Reachable attrStep (· = s1) (fun a _ => a.proc ≠ p) s2 →
        s2.attrStep (.other (.iupdate p e)) = .ok s3 →
        Reachable attrStep (· = s3) (Undisturbed c (s.entry e).key) s4 →
        ∀ q e', s4.pc q = .idle → s4.locks q e' = true → (s4.entry e').key = (s.entry e).key →
          c.stat (stati (s4.entry e')) = arg := by
  have hformed : AllFormed n (init n disk : InodeSys .p5 P) := allFormed_init hdisk
  refine ⟨⟨hformed.protected, fun r hrun => ?_⟩, fun mode hmode => ?_, ?_⟩
  · have hok : StepsMeet (fun (_ : AttrAct P) (_ : InodeSys .p5 P) => True) (init n disk) r :=
      .of_forall (fun _ _ _ => trivial) _
    exact Run.always_iff_of_strong (I := Holds) (P := AllFormed n)
      (fun _ => AllFormed.protected) (fun _ _ _ hheld _ hs => hheld.attrStep hs)
      (fun _ _ _ hheld _ h hfits hs => h.attrStep hheld hfits hs)
      (fun _ _ _ hheld _ _ hs h => h.modeFits hheld hs) r _ hrun hok (holds_init n disk) hformed
  · refine AttrCall.accepts_of_toNat_le ?_
    simp only [AttrCall.max]
    omega
  · intro s hreach c p e arg s1 s2 s3 s4 hacc hcall hwait hupdate hlater q e' hpc hlock hkey
    have hheld : Holds s := holds_reachable (by rintro _ rfl; exact holds_init n disk) hreach
    obtain ⟨hheld2, hstored⟩ :=
      stored_reachable (hheld.attrStep hcall) (stored_of_call hacc hcall) hwait
    obtain ⟨hheld4, hkept⟩ :=
      kept_reachable (hheld2.attrStep hupdate) (hstored.kept hheld2 hupdate) hlater
    exact hkept.stat hheld4 hpc hlock hkey

end

/-- The root directory of a new file system is the only inode in use. -/
def rootDisk : ℕ × ℕ → Dinode .p5 := update (fun _ => .blank 0) (1, 1) (.mkfs 1)

/-- A process gets the root directory and locks it. -/
def lockRoot (p : Bool) : List (AttrAct Bool) :=
  [.other (.iget p 1 1), .other (.ilock p 0), .other (.run p), .other (.run p)]

theorem fromMkfs_rootDisk : FromMkfs 200 rootDisk := by
  intro k _
  by_cases hk : k = (1, 1)
  · exact .inr ⟨1, 0, fun _ => 0, by rw [rootDisk, hk, update_self]; rfl⟩
  · exact .inl (by rw [rootDisk, update_of_ne hk])

/-- No call is made, and the root directory stays in use. -/
def rootQuiet (a : AttrAct Bool) (s : InodeSys .p5 Bool) : Bool :=
  match a with
  | .call .. => false
  | .other _ => (s.disk (1, 1)).type ≠ 0

theorem undisturbed_of_rootQuiet (a : AttrAct Bool) (s : InodeSys .p5 Bool)
    (h : rootQuiet a s = true) :
    Undisturbed .chmod (1, 1) a s := by
  cases a with
  | call => cases h
  | other b => exact ⟨of_decide_eq_true h, nofun⟩

/-- Another process finds the mode that one has stored. -/
theorem attributes_sound_chmod : ∃ s s1 s3 s4 : InodeSys .p5 Bool,
    Reachable attrStep (· = init 200 rootDisk) (fun _ _ => True) s ∧
    s.attrStep (.call .chmod false 0 0o644) = .ok s1 ∧
    s1.attrStep (.other (.iupdate false 0)) = .ok s3 ∧
    Reachable attrStep (· = s3) (Undisturbed .chmod (1, 1)) s4 ∧
    s4.locks true 0 = true ∧ AttrCall.chmod.stat (stati (s4.entry 0)) = 0o644 := by
  let acts := [.other (.iunlock false 0), .other (.run false)] ++ lockRoot true
  have hrun : (execOk attrStep (fun _ _ => true) (lockRoot false) (init 200 rootDisk)).any (fun s =>
      (s.entry 0).key = (1, 1) ∧
        (execOk attrStep (fun _ _ => true) [.call .chmod false 0 0o644] s).any fun s1 =>
        (execOk attrStep (fun _ _ => true) [.other (.iupdate false 0)] s1).any fun s3 =>
          (execOk attrStep rootQuiet acts s3).any fun s4 =>
            s4.pc true = .idle ∧ s4.locks true 0 = true ∧ (s4.entry 0).key = (1, 1)) = true := by
    decide +kernel
  simp only [Option.any_eq_true, decide_eq_true_eq, execOk_one] at hrun
  obtain ⟨s, hs, hkey, s1, hcall, s3, hupdate, s4, hlater, hpc, hlock, hkey'⟩ := hrun
  have hreach : Reachable attrStep (· = init 200 rootDisk) (fun _ _ => True) s :=
    Reachable.execOk (fun _ _ _ => trivial) (lockRoot false) _ s (.init rfl) hs
  have hreach' : Reachable attrStep (· = s3) (Undisturbed .chmod (1, 1)) s4 :=
    Reachable.execOk undisturbed_of_rootQuiet acts _ s4 (.init rfl) hlater
  have hstat :=
    (attributes_sound 200 rootDisk fromMkfs_rootDisk).2.2 s hreach .chmod false 0 0o644 s1 s1 s3 s4
    (by decide) hcall (.init rfl) hupdate (hkey ▸ hreach') true 0 hpc hlock (hkey'.trans hkey.symm)
  exact ⟨s, s1, s3, s4, hreach, hcall, hupdate, hreach', hlock, hstat⟩

/-- `chmod` of the root directory with the decimal `1024`, the lowest bit that is no flag. -/
theorem chmod_stores_padding : ¬∀ s : InodeSys .p5 Bool,
    Reachable attrStep (· = init 200 rootDisk) (fun _ _ => True) s → Protected 200 s := by
  intro h
  let acts := lockRoot false ++ [.call .chmod false 0 1024]
  obtain ⟨s, hreach, hpos, hvalid, htype, hinum, hmode⟩ := reachable_any attrStep
    (· = init 200 rootDisk) (fun _ _ => True) acts rfl (fun s => 0 < (s.entry 0).ref ∧
      (s.entry 0).valid = true ∧ (s.entry 0).node.type ≠ 0 ∧ (s.entry 0).inum < 200 ∧ ¬(s.entry 0).node.WellFormed) (by decide +kernel)
  exact hmode ((h s hreach).cached 0 hpos hvalid htype hinum)

end InodeSys

end Xv6
