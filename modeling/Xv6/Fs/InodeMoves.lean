import Xv6.Fs.InodeEntry

set_option autoImplicit false

/-! # What an action does to the inode cache

Every action works on one entry, and the others see at most that an inode on the disk has changed
(`step_worksOn`). From this follows what holds of references and locks in every run, whatever `iget`
and `ialloc` do while an inode is freed: the count is the number of references, the process that has
locked an entry is the only one and has read the inode, and no two entries in use are for one inode
(`Holds`). -/

namespace Xv6

open Function

namespace InodeSys

variable {v : FsBuild} {P : Type} {s s' : InodeSys v P} {p : P} {e : Fin ninode}

/-- What the state says of one entry. -/
def view (s : InodeSys v P) (e : Fin ninode) : EntryView v P where
  entry := s.entry e
  refs p := s.refs p e
  locks p := s.locks p e
  dirty := s.dirty e
  disk := s.disk (s.entry e).key
  pc p := (s.pc p).on e

theorem on_iput {c : InodePc} {stage : IputPc} :
    c.on e = some (.iput stage) ↔ c = .iput e stage := by
  cases c <;> simp [InodePc.on]

/-! ## Views after an update -/

section

variable (s : InodeSys v P)

@[simp] theorem setEntry_entry (e e' : Fin ninode) (x : CacheEntry v) :
    (s.setEntry e x).entry e' = if e' = e then x else s.entry e' := update_apply ..

theorem setNode_entry (e : Fin ninode) (x : Dinode v) :
    (s.setNode e x).entry e = { s.entry e with node := x } := by simp [setNode]

theorem view_setEntry {e : Fin ninode} {x : CacheEntry v} (hx : x.key = (s.entry e).key) :
    (s.setEntry e x).view e = { s.view e with entry := x } := by
  simp only [view, setEntry_entry, if_pos, hx]
  rfl

theorem view_setEntry_ne {e e' : Fin ninode} (x : CacheEntry v) (hne : e' ≠ e) :
    (s.setEntry e x).view e' = s.view e' := by
  simp only [view, setEntry_entry, if_neg hne]
  rfl

theorem view_setDirty (e : Fin ninode) (b : Bool) :
    (s.setDirty e b).view e = { s.view e with dirty := b } := by
  simp only [view, setDirty, update_self]

theorem view_setDirty_ne {e e' : Fin ninode} (b : Bool) (hne : e' ≠ e) :
    (s.setDirty e b).view e' = s.view e' := by
  simp only [view, setDirty, update_of_ne hne]

theorem view_setDisk {k : ℕ × ℕ} (x : Dinode v) (hk : (s.entry e).key = k) :
    (s.setDisk k x).view e = { s.view e with disk := x } := by
  subst hk
  simp only [view, setDisk, update_self]

theorem view_setDisk_ne {k : ℕ × ℕ} (x : Dinode v) (hk : (s.entry e).key ≠ k) :
    (s.setDisk k x).view e = s.view e := by
  simp only [view, setDisk, update_of_ne hk]

end

variable [DecidableEq P]

section

variable {e' : Fin ninode}

/-- What the processes have of an entry, where one of them has something else of the entry `e`. -/
theorem update_column {α : Type} (f : P → Fin ninode → α) (p : P) (e : Fin ninode) (x : α) :
    (fun q => update f p (update (f p) e x) q e) = update (fun q => f q e) p x := by
  funext q
  by_cases hq : q = p
  · subst hq
    simp
  · simp [hq]

theorem update_column_ne {α : Type} (f : P → Fin ninode → α) (p : P) (x : α) (hne : e' ≠ e) :
    (fun q => update f p (update (f p) e x) q e') = fun q => f q e' := by
  funext q
  by_cases hq : q = p
  · subst hq
    simp [hne]
  · simp [hq]

section

variable (s : InodeSys v P)

theorem view_setRefs (p : P) (e : Fin ninode) (n : ℕ) :
    (s.setRefs p e n).view e = { s.view e with refs := update (s.view e).refs p n } := by
  simp only [view, setRefs, update_column]

theorem view_setRefs_ne (p : P) {e : Fin ninode} (n : ℕ) (hne : e' ≠ e) :
    (s.setRefs p e n).view e' = s.view e' := by
  simp only [view, setRefs, update_column_ne _ _ _ hne]

theorem view_setLocks (p : P) (e : Fin ninode) (b : Bool) :
    (s.setLocks p e b).view e = { s.view e with locks := update (s.view e).locks p b } := by
  simp only [view, setLocks, update_column]

theorem view_setLocks_ne (p : P) {e : Fin ninode} (b : Bool) (hne : e' ≠ e) :
    (s.setLocks p e b).view e' = s.view e' := by
  simp only [view, setLocks, update_column_ne _ _ _ hne]

theorem view_goto (p : P) (c : InodePc) (e : Fin ninode) :
    (s.goto p c).view e = { s.view e with pc := update (s.view e).pc p (c.on e) } := by
  simp only [view, goto]
  congr 1
  funext q
  by_cases hq : q = p
  · subst hq
    simp
  · simp [hq]

end

variable {c : InodePc} {e : Fin ninode} {p : P}

/-- A process that works on another entry moves. -/
theorem view_goto_ne (s : InodeSys v P) (hp : (s.pc p).on e = none)
    (hc : c.on e = none) : (s.goto p c).view e = s.view e := by
  rw [view_goto, hc, ← hp]
  simp [view]

/-! ## Views after an action -/

section

variable (s : InodeSys v P)

theorem view_addRef (p : P) (e : Fin ninode) :
    (s.addRef p e).view e = { s.view e with
      entry := { s.entry e with ref := (s.entry e).ref + 1 }
      refs := update (s.view e).refs p ((s.view e).refs p + 1) } := by
  rw [addRef, view_setRefs, view_setEntry _ (by rfl)]
  rfl

theorem view_addRef_ne (p : P) (hne : e' ≠ e) :
    (s.addRef p e).view e' = s.view e' := by
  rw [addRef, view_setRefs_ne _ _ _ hne, view_setEntry_ne _ _ hne]

theorem view_dropRef (p : P) (e : Fin ninode) :
    (s.dropRef p e).view e = { s.view e with
      entry := { s.entry e with ref := (s.entry e).ref - 1 }
      refs := update (s.view e).refs p ((s.view e).refs p - 1) } := by
  rw [dropRef, view_setRefs, view_setEntry _ (by rfl)]
  rfl

theorem view_dropRef_ne (p : P) (hne : e' ≠ e) :
    (s.dropRef p e).view e' = s.view e' := by
  rw [dropRef, view_setRefs_ne _ _ _ hne, view_setEntry_ne _ _ hne]

theorem view_giveRef (p q : P) (e : Fin ninode) :
    (s.giveRef p q e).view e = { s.view e with refs := EntryView.passed (s.view e).refs p q } := by
  have hq : (s.setRefs p e (s.refs p e - 1)).refs q e =
      update (s.view e).refs p ((s.view e).refs p - 1) q :=
    congrFun (congrArg EntryView.refs (view_setRefs s p e (s.refs p e - 1))) q
  simp only [giveRef]
  rw [view_setRefs, view_setRefs, hq]
  rfl

theorem view_giveRef_ne (p q : P) (hne : e' ≠ e) :
    (s.giveRef p q e).view e' = s.view e' := by
  simp only [giveRef]
  rw [view_setRefs_ne _ _ _ hne, view_setRefs_ne _ _ _ hne]

theorem view_recycle (p : P) (e : Fin ninode) (dev inum : ℕ) :
    (s.recycle p e dev inum).view e = { s.view e with
      entry := ⟨dev, inum, 1, false, false, (s.view e).entry.node⟩
      refs := update (s.view e).refs p ((s.view e).refs p + 1)
      disk := s.disk (dev, inum) } := by
  rw [recycle, view_setRefs]
  simp only [view, setEntry, update_self]
  rfl

theorem view_recycle_ne (p : P) (dev inum : ℕ) (hne : e' ≠ e) :
    (s.recycle p e dev inum).view e' = s.view e' := by
  rw [recycle, view_setRefs_ne _ _ _ hne, view_setEntry_ne _ _ hne]

theorem view_take (p : P) (e : Fin ninode) (c : InodePc) :
    (s.take p e c).view e = { s.view e with
      entry := { s.entry e with busy := true }
      locks := update (s.view e).locks p true
      pc := update (s.view e).pc p (c.on e) } := by
  rw [take, view_goto, view_setLocks, view_setEntry _ (by rfl)]

end

/-- The process works on no entry but `e`. -/
def Elsewhere (e : Fin ninode) (c : InodePc) : Prop := ∀ e', e' ≠ e → c.on e' = none

section

variable (e : Fin ninode)

theorem elsewhere_idle : Elsewhere e .idle := fun _ _ => rfl

theorem elsewhere_ilockWait : Elsewhere e (.ilockWait e) := fun _ hne => if_neg (Ne.symm hne)

theorem elsewhere_ilockLoad : Elsewhere e (.ilockLoad e) := fun _ hne => if_neg (Ne.symm hne)

theorem elsewhere_iunlock : Elsewhere e (.iunlock e) := fun _ hne => if_neg (Ne.symm hne)

theorem elsewhere_iput (stage : IputPc) : Elsewhere e (.iput e stage) := fun _ hne =>
  if_neg (Ne.symm hne)

end

theorem view_take_ne (s : InodeSys v P) (hp : Elsewhere e (s.pc p))
    (hc : Elsewhere e c) (hne : e' ≠ e) : (s.take p e c).view e' = s.view e' := by
  rw [take, view_goto_ne, view_setLocks_ne _ _ _ hne, view_setEntry_ne _ _ hne]
  · exact hp e' hne
  · exact hc e' hne

/-- `ilock` reads the inode. -/
def load (p : P) (e : Fin ninode) (s : InodeSys v P) : InodeSys v P :=
  ((s.setEntry e { s.entry e with valid := true, node := s.disk (s.entry e).key }).setDirty e false).goto p .idle

theorem view_load (s : InodeSys v P) (p : P) (e : Fin ninode) :
    (s.load p e).view e = { s.view e with
      entry := { s.entry e with valid := true, node := (s.view e).disk }
      dirty := false
      pc := update (s.view e).pc p none } := by
  rw [load, view_goto, view_setDirty, view_setEntry _ (by rfl)]
  rfl

theorem view_load_ne (s : InodeSys v P) (hp : Elsewhere e (s.pc p)) (hne : e' ≠ e) :
    (s.load p e).view e' = s.view e' := by
  rw [load, view_goto_ne, view_setDirty_ne _ _ hne, view_setEntry_ne _ _ hne]
  · exact hp e' hne
  · rfl

/-- `iunlock` at its end. -/
def unlock (p : P) (e : Fin ninode) (s : InodeSys v P) : InodeSys v P :=
  ((s.setEntry e { s.entry e with busy := false }).setLocks p e false).goto p .idle

theorem view_unlock (s : InodeSys v P) (p : P) (e : Fin ninode) :
    (s.unlock p e).view e = { s.view e with
      entry := { s.entry e with busy := false }
      locks := update (s.view e).locks p false
      pc := update (s.view e).pc p none } := by
  rw [unlock, view_goto, view_setLocks, view_setEntry _ (by rfl)]
  rfl

theorem view_unlock_ne (s : InodeSys v P) (hp : Elsewhere e (s.pc p))
    (hne : e' ≠ e) : (s.unlock p e).view e' = s.view e' := by
  rw [unlock, view_goto_ne, view_setLocks_ne _ _ _ hne, view_setEntry_ne _ _ hne]
  · exact hp e' hne
  · rfl

/-- `iput` at its end, after it has freed the inode. -/
def finish (p : P) (e : Fin ninode) (s : InodeSys v P) : InodeSys v P :=
  (((s.setEntry e { s.entry e with busy := false, valid := false }).setLocks p e false).dropRef p e).goto p .idle

theorem view_finish (s : InodeSys v P) (p : P) (e : Fin ninode) :
    (s.finish p e).view e = { s.view e with
      entry := { s.entry e with ref := (s.entry e).ref - 1, busy := false, valid := false }
      refs := update (s.view e).refs p ((s.view e).refs p - 1)
      locks := update (s.view e).locks p false
      pc := update (s.view e).pc p none } := by
  rw [finish, view_goto, dropRef, view_setRefs, view_setEntry _ (by rfl), view_setLocks,
    view_setEntry _ (by rfl)]
  simp [setLocks, view, InodePc.on]
  rfl

theorem view_finish_ne (s : InodeSys v P) (hp : Elsewhere e (s.pc p))
    (hne : e' ≠ e) : (s.finish p e).view e' = s.view e' := by
  rw [finish, view_goto_ne, view_dropRef_ne _ _ hne, view_setLocks_ne _ _ _ hne,
    view_setEntry_ne _ _ hne]
  · exact hp e' hne
  · rfl

/-- The copy is changed and written to the disk. -/
def store (p : P) (e : Fin ninode) (x : Dinode v) (c : InodePc) (s : InodeSys v P) : InodeSys v P :=
  ((s.setNode e x).writeBack e).goto p c

/-- `iupdate` of a process between two calls. -/
theorem store_node (hpc : s.pc p = .idle) : s.store p e (s.entry e).node .idle = s.writeBack e := by
  have hnode : s.setNode e (s.entry e).node = s := by simp [setNode, setEntry]
  have hgoto : (s.writeBack e).goto p .idle = s.writeBack e := by
    simp [goto, writeBack, setDisk, setDirty, ← hpc]
  rw [store, hnode, hgoto]

theorem view_store (s : InodeSys v P) (p : P) (e : Fin ninode) (x : Dinode v) (c : InodePc) :
    (s.store p e x c).view e = { s.view e with
      entry := { s.entry e with node := x }
      dirty := false
      disk := x
      pc := update (s.view e).pc p (c.on e) } := by
  rw [store, view_goto, writeBack, view_setDirty, setNode_entry,
    view_setDisk _ _ (by rw [setNode_entry]), setNode, view_setEntry _ (by rfl)]

/-- The other entries see at most that the inode on the disk has changed. -/
theorem view_store_ne (s : InodeSys v P) (x : Dinode v)
    (hp : Elsewhere e (s.pc p)) (hc : Elsewhere e c) (hne : e' ≠ e) :
    (s.store p e x c).view e' = { s.view e' with
      disk := if (s.entry e').key = (s.entry e).key then x else (s.view e').disk } := by
  have hview : (s.store p e x c).view e' = ((s.setNode e x).setDisk (s.entry e).key x).view e' := by
    rw [store, view_goto_ne, writeBack, view_setDirty_ne _ _ hne, setNode_entry]
    · rfl
    · exact hp e' hne
    · exact hc e' hne
  have hsame : (s.setNode e x).view e' = s.view e' := by rw [setNode, view_setEntry_ne _ _ hne]
  have hkey' : ((s.setNode e x).entry e').key = (s.entry e').key := by simp [setNode, hne]
  rw [hview]
  by_cases hkey : (s.entry e').key = (s.entry e).key
  · rw [view_setDisk _ _ (hkey'.trans hkey), hsame, if_pos hkey]
  · rw [view_setDisk_ne _ _ (hkey' ▸ hkey), hsame, if_neg hkey]

end

/-! ## Actions while an inode is freed -/

/-- The inode is being freed by `iput`. -/
def Freeing (s : InodeSys v P) (k : ℕ × ℕ) : Prop := ∃ q, ∃ e ∈ (s.pc q).freed, (s.entry e).key = k

instance [Fintype P] (s : InodeSys v P) (k : ℕ × ℕ) : Decidable (s.Freeing k) :=
  inferInstanceAs (Decidable (∃ q, ∃ e ∈ (s.pc q).freed, _))

/-- The next action of a process at the place takes no inode that is being freed. -/
def CalmAt (s : InodeSys v P) : InodePc → Prop
  | .ialloc dev _ inum => (s.disk (dev, inum)).type = 0 → ¬s.Freeing (dev, inum)
  | .iallocGet dev inum => ¬s.Freeing (dev, inum)
  | _ => True

/-- No `iget` and no `ialloc` takes an inode while `iput` frees it. -/
def Calm (a : InodeAct v P) (s : InodeSys v P) : Prop :=
  match a with
  | .iget _ dev inum => ¬s.Freeing (dev, inum)
  | .run p => s.CalmAt (s.pc p)
  | _ => True

instance [Fintype P] (s : InodeSys v P) : DecidablePred s.CalmAt
  | .ialloc .. => inferInstanceAs (Decidable (_ → ¬_))
  | .iallocGet .. => inferInstanceAs (Decidable (¬_))
  | .idle | .ilockWait _ | .ilockLoad _ | .iunlock _ | .iput .. => .isTrue trivial

instance [Fintype P] (a : InodeAct v P) (s : InodeSys v P) : Decidable (Calm a s) :=
  match a with
  | .iget .. => inferInstanceAs (Decidable (¬_))
  | .run p => inferInstanceAs (Decidable (s.CalmAt (s.pc p)))
  | .idup .. | .ilock .. | .modify .. | .iupdate .. | .iunlock .. | .iput .. | .give .. | .ialloc .. =>
    .isTrue trivial

variable {dev inum : ℕ}

section

omit [DecidableEq P]

theorem unfreed_of_not_freeing (h : ¬s.Freeing (s.entry e).key) : (s.view e).Unfreed :=
  fun q stage hq =>
  h ⟨q, e, by rw [on_iput.1 hq]; rfl, rfl⟩

theorem findEntry_some (h : s.findEntry dev inum = some e) :
    0 < (s.entry e).ref ∧ (s.entry e).key = (dev, inum) := by
  have := List.find?_some h
  simpa [CacheEntry.key] using this

theorem findEntry_none (h : s.findEntry dev inum = none) (e : Fin ninode)
    (hpos : 0 < (s.entry e).ref) : (s.entry e).key ≠ (dev, inum) := by
  have := List.find?_eq_none.1 h e (List.mem_finRange e)
  simp only [decide_eq_true_eq] at this
  intro hk
  exact this ⟨hpos, congrArg Prod.fst hk, congrArg Prod.snd hk⟩

end

theorem iget_cases (h : s.iget p dev inum = .ok s') :
    (∃ e, 0 < (s.entry e).ref ∧ (s.entry e).key = (dev, inum) ∧ s' = s.addRef p e) ∨
      ∃ e, (s.entry e).ref = 0 ∧ (∀ e', 0 < (s.entry e').ref → (s.entry e').key ≠ (dev, inum)) ∧
        s' = s.recycle p e dev inum := by
  unfold iget at h
  split at h
  · next e hfind =>
      cases h
      obtain ⟨hpos, hkey⟩ := findEntry_some hfind
      exact .inl ⟨e, hpos, hkey, rfl⟩
  · next hnone =>
      split at h
      · cases h
      · next e hempty =>
          cases h
          have hzero : (s.entry e).ref = 0 := by simpa using List.find?_some hempty
          exact .inr ⟨e, hzero, findEntry_none hnone, rfl⟩

theorem iget_same (h : s.iget p dev inum = .ok s') : s'.pc = s.pc ∧ s'.disk = s.disk := by
  obtain ⟨e, -, -, rfl⟩ | ⟨e, -, -, rfl⟩ := iget_cases h
  · exact ⟨rfl, rfl⟩
  · exact ⟨rfl, rfl⟩

/-! ## One action -/

variable {a : InodeAct v P}

/-- The inode has an entry in use. -/
def Used (s : InodeSys v P) (k : ℕ × ℕ) : Prop := ∃ e, 0 < (s.entry e).ref ∧ (s.entry e).key = k

/-- The entry `e` is worked on, and the others see at most a new inode on the disk. -/
def WorksOn (a : InodeAct v P) (s s' : InodeSys v P) (e : Fin ninode) : Prop :=
  EntryView.Moves s.Used (fun p x => a = .modify p e x) (s.view e) (s'.view e) ∧
    ∀ e', e' ≠ e → ∃ x, s'.view e' = { s.view e' with disk := x }

/-- A calm action takes no reference to an inode that is being freed. -/
def Gains (a : InodeAct v P) (s s' : InodeSys v P) (e : Fin ninode) : Prop :=
  Calm a s → (s.entry e).ref < (s'.entry e).ref → 0 < (s.entry e).ref →
    (s.view e).Unfreed ∨ ∃ p, (s.view e).pc p = none ∧ 0 < s.refs p e

theorem worksOn_of_view {l : EntryView v P}
    (hm : EntryView.Moves s.Used (fun p x => a = .modify p e x) (s.view e) l)
    (hview : s'.view e = l)
    (hle : l.entry.ref ≤ (s.entry e).ref) (hother : ∀ e', e' ≠ e → s'.view e' = s.view e') :
    ∃ e, WorksOn a s s' e ∧ Gains a s s' e := by
  subst hview
  exact ⟨e, ⟨hm, fun e' hne => ⟨(s.view e').disk, hother e' hne⟩⟩,
    fun _ hlt => absurd hle (not_le.2 hlt)⟩

/-- The action works on no entry. -/
theorem worksOn_of_disk (h : ∀ e, ∃ x, s'.view e = { s.view e with disk := x }) :
    ∃ e, WorksOn a s s' e ∧ Gains a s s' e := by
  obtain ⟨x, hx⟩ := h 0
  have hentry : s'.entry 0 = s.entry 0 := congrArg EntryView.entry hx
  exact ⟨0, ⟨hx ▸ .disk x, fun e' _ => h e'⟩, fun _ hlt => absurd hlt (hentry ▸ lt_irrefl _)⟩

theorem addRef_worksOn (hpos : 0 < (s.entry e).ref ∨ 0 < s.refs p e)
    (hgain : Calm a s → (s.view e).Unfreed ∨ ∃ p, (s.view e).pc p = none ∧ 0 < s.refs p e) :
    ∃ e', WorksOn a s (s.addRef p e) e' ∧ Gains a s (s.addRef p e) e' := by
  refine ⟨e, ⟨?_, fun e' hne => ⟨_, view_addRef_ne s p hne⟩⟩, fun hcalm _ _ => hgain hcalm⟩
  rw [view_addRef]
  exact .addRef p hpos

theorem iget_worksOn (hcalm : Calm a s → ¬s.Freeing (dev, inum)) (h : s.iget p dev inum = .ok s') :
    ∃ e, WorksOn a s s' e ∧ Gains a s s' e := by
  obtain ⟨e, hpos, hkey, rfl⟩ | ⟨e, hzero, hnone, rfl⟩ := iget_cases h
  · exact addRef_worksOn (.inl hpos) fun ha => .inl (unfreed_of_not_freeing (hkey ▸ hcalm ha))
  · refine ⟨e, ⟨?_, fun e' hne => ⟨_, view_recycle_ne s p dev inum hne⟩⟩, fun _ _ hpos => ?_⟩
    · rw [view_recycle]
      exact .recycle p dev inum _ hzero fun ⟨e', hpos, hkey⟩ => hnone e' hpos hkey
    · exact absurd hzero (ne_of_gt hpos)

theorem store_worksOn {x : Dinode v} {c : InodePc} (hp : Elsewhere e (s.pc p)) (hc : Elsewhere e c)
    (hx : (s.view e).pc p = none ∧ c.on e = none ∧ s.locks p e = true ∧ x = (s.entry e).node ∨
      (s.view e).pc p = some (.iput .trunc) ∧ c.on e = some (.iput .clear) ∧
      x = (s.entry e).node.truncated ∨
      (s.view e).pc p = some (.iput .clear) ∧ c.on e = some (.iput .finish) ∧
        x = { (s.entry e).node with type := 0 }) :
    ∃ e', WorksOn a s (s.store p e x c) e' ∧ Gains a s (s.store p e x c) e' := by
  have hview := view_store s p e x c
  have hentry : (s.store p e x c).entry e = { s.entry e with node := x } :=
    congrArg EntryView.entry hview
  refine ⟨e, ⟨?_, fun e' hne => ⟨_, view_store_ne s x hp hc hne⟩⟩, fun _ hlt => ?_⟩
  · rw [hview]
    exact .store p x _ hx
  · exact absurd hlt (by simp [hentry])

theorem run_worksOn (h : s.run p = .ok s') :
    ∃ e, WorksOn (.run p) s s' e ∧ Gains (.run p) s s' e := by
  unfold InodeSys.run at h
  have hon : ∀ {c : InodePc} (e : Fin ninode), s.pc p = c → (s.view e).pc p = c.on e := fun e hpc =>
    congrArg (InodePc.on e) hpc
  cases hpc : s.pc p with
  | idle =>
    rw [hpc] at h
    cases h
  | ilockWait e =>
    rw [hpc] at h
    dsimp only at h
    split_ifs at h with hbusy
    cases h
    refine worksOn_of_view (.take p ((hon e hpc).trans (if_pos rfl))
      (eq_false_of_ne_true hbusy)) ?_ le_rfl
      fun e' hne => view_take_ne s (hpc ▸ elsewhere_ilockWait e) (elsewhere_ilockLoad e) hne
    rw [view_take, show (InodePc.ilockLoad e).on e = some .load from if_pos rfl]
    rfl
  | ilockLoad e =>
    rw [hpc] at h
    dsimp only at h
    have hload : (s.view e).pc p = some .load := (hon e hpc).trans (if_pos rfl)
    split_ifs at h with hvalid htype
    · cases h
      exact worksOn_of_view (.loaded p hload hvalid) (view_goto s p _ e) le_rfl fun e' hne =>
        view_goto_ne s (hpc ▸ elsewhere_ilockLoad e e' hne) rfl
    · cases h
      exact worksOn_of_view (.load p hload (eq_false_of_ne_true hvalid) htype)
        (view_load s p e) le_rfl
        fun e' hne => view_load_ne s (hpc ▸ elsewhere_ilockLoad e) hne
  | iunlock e =>
    rw [hpc] at h
    cases h
    exact worksOn_of_view (.unlock p ((hon e hpc).trans (if_pos rfl))) (view_unlock s p e) le_rfl
      fun e' hne =>
      view_unlock_ne s (hpc ▸ elsewhere_iunlock e) hne
  | iput e stage =>
    rw [hpc] at h
    have hstage : (s.view e).pc p = some (.iput stage) := (hon e hpc).trans (if_pos rfl)
    cases stage with
    | trunc =>
      cases h
      exact store_worksOn (hpc ▸ elsewhere_iput e _) (elsewhere_iput e _)
        (.inr (.inl ⟨hstage, if_pos rfl, rfl⟩))
    | clear =>
      cases h
      exact store_worksOn (hpc ▸ elsewhere_iput e _) (elsewhere_iput e _)
        (.inr (.inr ⟨hstage, if_pos rfl, rfl⟩))
    | finish =>
      cases h
      exact worksOn_of_view (.finish p hstage) (view_finish s p e) (Int.sub_le_self _ (by decide))
        fun e' hne =>
        view_finish_ne s (hpc ▸ elsewhere_iput e _) hne
  | ialloc dev type inum =>
    rw [hpc] at h
    dsimp only at h
    split_ifs at h with hend hfree
    · cases h
      refine worksOn_of_disk fun e => ?_
      rw [view_goto_ne _ (show ((s.setDisk (dev, inum) (.blank type)).pc p).on e = none from hon e hpc) rfl]
      by_cases hk : (s.entry e).key = (dev, inum)
      · exact ⟨_, view_setDisk s _ hk⟩
      · exact ⟨(s.view e).disk, view_setDisk_ne s _ hk⟩
    · cases h
      exact worksOn_of_disk fun e => ⟨(s.view e).disk, view_goto_ne s (hon e hpc) rfl⟩
  | iallocGet dev inum =>
    rw [hpc] at h
    dsimp only at h
    cases hget : s.iget p dev inum with
    | error x =>
      rw [hget] at h
      cases h
    | ok s1 =>
      rw [hget] at h
      cases h
      have hview : ∀ e, (s1.goto p .idle).view e = s1.view e := fun e => by
        refine view_goto_ne s1 ?_ rfl
        rw [(iget_same hget).1, hpc]
        rfl
      have hcalm : Calm (.run p) s → ¬s.Freeing (dev, inum) := fun ha => by
        have ha : s.CalmAt (s.pc p) := ha
        rwa [hpc] at ha
      obtain ⟨e, ⟨hmoves, hother⟩, hgain⟩ := iget_worksOn hcalm hget
      refine ⟨e, ⟨?_, fun e' hne => ?_⟩, hgain⟩
      · rw [hview]
        exact hmoves
      · rw [hview]
        exact hother e' hne

theorem step_worksOn (h : s.step a = .ok s') : ∃ e, WorksOn a s s' e ∧ Gains a s s' e := by
  cases a with
  | iget p dev inum =>
    simp only [InodeSys.step] at h
    split_ifs at h with hpc
    exact iget_worksOn id h
  | idup p e =>
    simp only [InodeSys.step] at h
    split_ifs at h with hg
    cases h
    exact addRef_worksOn (.inr hg.2) fun _ => .inr ⟨p, congrArg (InodePc.on e) hg.1, hg.2⟩
  | ilock p e =>
    simp only [InodeSys.step] at h
    split_ifs at h with hg href
    cases h
    refine worksOn_of_view (.wait p (congrArg (InodePc.on e) hg.1) hg.2.1) ?_ le_rfl fun e' hne =>
      view_goto_ne s (by rw [hg.1]; rfl) (elsewhere_ilockWait e e' hne)
    rw [view_goto, show (InodePc.ilockWait e).on e = some .wait from if_pos rfl]
  | modify p e x =>
    simp only [InodeSys.step] at h
    split_ifs at h with hg
    cases h
    refine worksOn_of_view (.modify p x rfl (congrArg (InodePc.on e) hg.1) hg.2.1 hg.2.2) ?_ le_rfl
      fun e' hne => ?_
    · rw [view_setDirty, setNode, view_setEntry _ (by rfl)]
      rfl
    · rw [view_setDirty_ne _ _ hne, setNode, view_setEntry_ne _ _ hne]
  | iupdate p e =>
    simp only [InodeSys.step] at h
    split_ifs at h with hg
    cases h
    rw [← store_node hg.1]
    exact store_worksOn (hg.1 ▸ elsewhere_idle e) (elsewhere_idle e)
      (.inl ⟨congrArg (InodePc.on e) hg.1, rfl, hg.2, rfl⟩)
  | iunlock p e =>
    simp only [InodeSys.step] at h
    split_ifs at h with hg hcheck
    cases h
    refine worksOn_of_view (.leave p (congrArg (InodePc.on e) hg.1) hg.2) ?_ le_rfl fun e' hne =>
      view_goto_ne s (by rw [hg.1]; rfl) (elsewhere_iunlock e e' hne)
    rw [view_goto, show (InodePc.iunlock e).on e = some .unlock from if_pos rfl]
  | iput p e =>
    simp only [InodeSys.step] at h
    split_ifs at h with hg hfrees hbusy
    · cases h
      refine worksOn_of_view (.free p (congrArg (InodePc.on e) hg.1) hg.2.1
        (eq_false_of_ne_true hbusy) hfrees) ?_
        le_rfl fun e' hne => view_take_ne s (hg.1 ▸ elsewhere_idle e) (elsewhere_iput e _) hne
      rw [view_take, show (InodePc.iput e .trunc).on e = some (.iput .trunc) from if_pos rfl]
      rfl
    · cases h
      exact worksOn_of_view (.dropRef p (congrArg (InodePc.on e) hg.1) hg.2.1 hg.2.2)
        (view_dropRef s p e) (Int.sub_le_self _ (by decide)) fun e' hne => view_dropRef_ne s p hne
  | give p q e =>
    simp only [InodeSys.step] at h
    split_ifs at h with hg
    cases h
    exact worksOn_of_view (.give p q (congrArg (InodePc.on e) hg.1) hg.2.1 hg.2.2)
      (view_giveRef s p q e) le_rfl
      fun e' hne => view_giveRef_ne s p q hne
  | ialloc p dev type =>
    simp only [InodeSys.step] at h
    split_ifs at h with hpc
    cases h
    exact worksOn_of_disk fun e => ⟨(s.view e).disk, view_goto_ne s (by rw [hpc]; rfl) rfl⟩
  | run p => exact run_worksOn h

/-- How one action changes the disk. -/
theorem step_disk (hs : s.step a = .ok s') :
    s'.disk = s.disk ∨
      (∃ p e x, (s.pc p = .idle ∧ s.locks p e = true ∧ x = (s.entry e).node ∨
          s.pc p = .iput e .trunc ∧ x = (s.entry e).node.truncated ∨
          a = .run p ∧ s.pc p = .iput e .clear ∧ x = { (s.entry e).node with type := 0 }) ∧
        (s'.entry e).node = x ∧ s'.disk = update s.disk (s.entry e).key x) ∨
      ∃ k type, (s.disk k).type = 0 ∧ (Calm a s → ¬s.Freeing k) ∧
        s'.disk = update s.disk k (.blank type) := by
  cases a with
  | iget p dev inum =>
    simp only [InodeSys.step] at hs
    split_ifs at hs
    exact .inl (iget_same hs).2
  | idup p e | modify p e x | give p q e | ialloc p dev type =>
    simp only [InodeSys.step] at hs
    split_ifs at hs
    cases hs
    exact .inl rfl
  | ilock p e | iunlock p e =>
    simp only [InodeSys.step] at hs
    split_ifs at hs
    cases hs
    exact .inl rfl
  | iput p e =>
    simp only [InodeSys.step] at hs
    split_ifs at hs <;> cases hs <;> exact .inl rfl
  | iupdate p e =>
    simp only [InodeSys.step] at hs
    split_ifs at hs with hg
    cases hs
    exact .inr (.inl ⟨p, e, _, .inl ⟨hg.1, hg.2, rfl⟩, rfl, rfl⟩)
  | run p =>
    simp only [InodeSys.step, InodeSys.run] at hs
    cases hpc : s.pc p with
    | idle =>
      rw [hpc] at hs
      cases hs
    | ilockWait e =>
      rw [hpc] at hs
      dsimp only at hs
      split_ifs at hs
      cases hs
      exact .inl rfl
    | ilockLoad e =>
      rw [hpc] at hs
      dsimp only at hs
      split_ifs at hs <;> cases hs <;> exact .inl rfl
    | iunlock e =>
      rw [hpc] at hs
      cases hs
      exact .inl rfl
    | iput e stage =>
      rw [hpc] at hs
      cases stage with
      | trunc =>
        cases hs
        refine .inr (.inl ⟨p, e, _, .inr (.inl ⟨hpc, rfl⟩), ?_⟩)
        simp [InodeSys.goto, writeBack, setDirty, InodeSys.setDisk, setNode, CacheEntry.key,
          setEntry]
      | clear =>
        cases hs
        refine .inr (.inl ⟨p, e, _, .inr (.inr ⟨rfl, hpc, rfl⟩), ?_⟩)
        simp [InodeSys.goto, writeBack, setDirty, InodeSys.setDisk, setNode, CacheEntry.key,
          setEntry]
      | finish =>
        cases hs
        exact .inl rfl
    | ialloc dev type inum =>
      rw [hpc] at hs
      dsimp only at hs
      split_ifs at hs with hend hfree
      · cases hs
        refine .inr (.inr ⟨(dev, inum), _, hfree, fun hcalm => ?_, rfl⟩)
        have hcalm : s.CalmAt (s.pc p) := hcalm
        rw [hpc] at hcalm
        exact hcalm hfree
      · cases hs
        exact .inl rfl
    | iallocGet dev inum =>
      rw [hpc] at hs
      dsimp only at hs
      cases hget : s.iget p dev inum with
      | error x =>
        rw [hget] at hs
        cases hs
      | ok s1 =>
        rw [hget] at hs
        cases hs
        exact .inl (iget_same hget).2

/-! ## References and locks in every run -/

structure Holds [Fintype P] (s : InodeSys v P) : Prop where
  held : ∀ e, (s.view e).Held
  unique : ∀ e e', 0 < (s.entry e).ref → 0 < (s.entry e').ref →
    (s.entry e).key = (s.entry e').key → e = e'

section

variable [Fintype P]

theorem Holds.step (h : Holds s) (hs : s.step a = .ok s') : Holds s' := by
  obtain ⟨e0, ⟨hmoves, hother⟩, -⟩ := step_worksOn hs
  have hentry : ∀ e, e ≠ e0 → s'.entry e = s.entry e := by
    intro e hne
    obtain ⟨x, hx⟩ := hother e hne
    exact congrArg EntryView.entry hx
  refine ⟨fun e => ?_, fun e e' he he' hk => ?_⟩
  · by_cases hne : e = e0
    · exact hne ▸ (h.held e0).moves hmoves
    · obtain ⟨x, hx⟩ := hother e hne
      rw [hx]
      exact (h.held e).disk x
  · -- an entry that is used for another inode now has a key that no entry in use had
    have hkey : ∀ e, e ≠ e0 → 0 < (s.entry e).ref → (s'.entry e0).key = (s.entry e).key →
        0 < (s'.entry e0).ref → e = e0 := by
      intro e hne hpos hk hpos0
      rcases hmoves.key (h.held e0) with ⟨hsame, hused⟩ | ⟨-, hnew⟩
      · exact h.unique e e0 hpos (hused hpos0) (hk.symm.trans hsame)
      · exact absurd ⟨e, hpos, hk.symm⟩ hnew
    by_cases hne : e = e0
    · subst hne
      by_cases hne' : e' = e
      · exact hne'.symm
      · rw [hentry e' hne'] at he' hk
        exact (hkey e' hne' he' hk he).symm
    · rw [hentry e hne] at he hk
      by_cases hne' : e' = e0
      · subst hne'
        exact hkey e hne he hk.symm he'
      · rw [hentry e' hne'] at he' hk
        exact h.unique e e' he he' hk

section

omit [DecidableEq P]

theorem holds_init (n : ℕ) (disk : ℕ × ℕ → Dinode v) : Holds (init n disk : InodeSys v P) := by
  refine ⟨fun e => ⟨?_, nofun, nofun, nofun, nofun, nofun, nofun⟩, fun e e' he => ?_⟩
  · simp [view, init]
  · simp [init] at he

variable {e : Fin ninode}

/-- A process that has locked an entry and is between two calls has read the inode. -/
theorem Holds.of_idle (h : Holds s) (hpc : s.pc p = .idle) (hlock : s.locks p e = true) :
    (s.entry e).valid = true ∧ 0 < (s.entry e).ref :=
  ⟨(h.held e).loaded p hlock (by simp [view, hpc, InodePc.on]),
    (h.held e).pos ((h.held e).ref p hlock)⟩

theorem Holds.of_iput (h : Holds s) {stage : IputPc} (hpc : s.pc p = .iput e stage) :
    (s.entry e).valid = true ∧ 0 < (s.entry e).ref := by
  have hlock : s.locks p e = true := (h.held e).place p _ (on_iput.2 hpc)
  exact ⟨(h.held e).loaded p hlock (by simp [view, hpc, InodePc.on]),
    (h.held e).pos ((h.held e).ref p hlock)⟩

/-- The process that has locked the entry is not about to finish the freeing of the inode. -/
theorem Holds.typed_of_lock (h : Holds s) (hlock : s.locks p e = true)
    (hvalid : (s.entry e).valid = true) (hpc : s.pc p ≠ .iput e .finish) :
    (s.entry e).node.type ≠ 0 := by
  refine (h.held e).typed hvalid fun q hq => ?_
  obtain rfl := (h.held e).excl q p ((h.held e).place q _ hq) hlock
  exact hpc (on_iput.1 hq)

end

section

variable {β : Type} {f : Dinode v → β}

/-- Where a field of a valid copy comes from in one action. -/
theorem Holds.field_copy (htrunc : ∀ x, f x.truncated = f x)
    (hclear : ∀ x, f { x with type := 0 } = f x)
    (h : Holds s) (hs : s.step a = .ok s') {e : Fin ninode} (hvalid : (s'.entry e).valid = true) :
    (s'.entry e).key = (s.entry e).key ∧ (0 < (s'.entry e).ref → 0 < (s.entry e).ref) ∧
      ((s.entry e).valid = true ∧ f (s'.entry e).node = f (s.entry e).node ∨
        (s.entry e).valid = false ∧ f (s'.entry e).node = f (s.disk (s.entry e).key) ∨
        ∃ p, a = .modify p e (s'.entry e).node ∧ s.locks p e = true) := by
  obtain ⟨e0, ⟨hmoves, hother⟩, -⟩ := step_worksOn hs
  by_cases hne : e = e0
  · subst hne
    exact hmoves.field htrunc hclear (h.held e) hvalid
  · obtain ⟨x, hx⟩ := hother e hne
    have hentry : s'.entry e = s.entry e := congrArg EntryView.entry hx
    rw [hentry] at hvalid ⊢
    exact ⟨rfl, id, .inl ⟨hvalid, rfl⟩⟩

/-- Where a field of an inode on the disk comes from. -/
theorem Holds.field_disk (htrunc : ∀ x, f x.truncated = f x)
    (hclear : ∀ x, f { x with type := 0 } = f x)
    (h : Holds s) (hs : s.step a = .ok s') (k : ℕ × ℕ) :
    f (s'.disk k) = f (s.disk k) ∨
      (∃ e, (s.entry e).key = k ∧ (s.entry e).valid = true ∧ 0 < (s.entry e).ref ∧
        f (s'.disk k) = f (s.entry e).node) ∨
      (s.disk k).type = 0 ∧ ∃ type, s'.disk k = .blank type := by
  rcases step_disk hs with hd | ⟨p, e, x, hx, -, hd⟩ | ⟨k0, type, hz, -, hd⟩
  · exact .inl (by rw [hd])
  · obtain ⟨⟨hvalid, hpos⟩, hfx⟩ : ((s.entry e).valid = true ∧ 0 < (s.entry e).ref) ∧
      f x = f (s.entry e).node := by
      rcases hx with ⟨hpc, hlock, rfl⟩ | ⟨hpc, rfl⟩ | ⟨-, hpc, rfl⟩
      · exact ⟨h.of_idle hpc hlock, rfl⟩
      · exact ⟨h.of_iput hpc, htrunc _⟩
      · exact ⟨h.of_iput hpc, hclear _⟩
    by_cases hk : k = (s.entry e).key
    · exact .inr (.inl ⟨e, hk.symm, hvalid, hpos, by rw [hd, hk, update_self, hfx]⟩)
    · exact .inl (by rw [hd, update_of_ne hk])
  · by_cases hk : k = k0
    · subst hk
      exact .inr (.inr ⟨hz, type, by rw [hd, update_self]⟩)
    · exact .inl (by rw [hd, update_of_ne hk])

end

end

end InodeSys

end Xv6
