import Xv6.Fs.InodeCache
import Xv6.Lib.Tally

set_option autoImplicit false

/-! # One entry of the inode cache

What the processes do with one entry of the cache does not depend on the other entries, so the
invariants are stated of an `EntryView`: the entry, the inode on the disk that it is for, and what
each process has of it. `Moves` says what an action does to the entry that it works on.

Every action keeps `Held`: the count is the number of references, and the process that has locked
the entry is the only one and has read the inode. An action that takes no inode that is being freed
(`Calmly`) also keeps `Ok`: the entry is busy for the one process that has locked it, and a valid
copy is what the disk has, unless it has changed since the last `iupdate`. -/

namespace Xv6

open Function

/-- Where a process stands that works on the entry. -/
inductive EntryPlace
  | wait
  | load
  | unlock
  | iput (stage : IputPc)
  deriving DecidableEq, Repr

def InodePc.on (e : Fin ninode) : InodePc → Option EntryPlace
  | .idle | .ialloc .. | .iallocGet .. => none
  | .ilockWait e' => if e' = e then some .wait else none
  | .ilockLoad e' => if e' = e then some .load else none
  | .iunlock e' => if e' = e then some .unlock else none
  | .iput e' stage => if e' = e then some (.iput stage) else none

/-- The entry whose inode is being freed. -/
def InodePc.freed : InodePc → Option (Fin ninode)
  | .iput e _ => some e
  | _ => none

structure EntryView (v : FsBuild) (P : Type) where
  entry : CacheEntry v
  refs : P → ℕ
  locks : P → Bool
  dirty : Bool
  disk : Dinode v
  pc : P → Option EntryPlace

namespace EntryView

variable {v : FsBuild} {P : Type} {l : EntryView v P} {p q : P}

def Frees (l : EntryView v P) : Prop :=
  l.entry.ref = 1 ∧ l.entry.valid = true ∧ l.entry.node.nlink = 0

/-- What a process has where it stands. -/
def At (l : EntryView v P) (p : P) : EntryPlace → Prop
  | .wait => 0 < l.refs p
  | .load | .unlock => l.locks p = true
  | .iput _ => l.locks p = true ∧ l.Frees

structure Ok [Fintype P] (l : EntryView v P) : Prop where
  counted : l.entry.ref = ((∑ p, l.refs p : ℕ) : Int)
  busy : l.entry.busy = true ↔ ∃ p, l.locks p = true
  excl : ∀ p q, l.locks p = true → l.locks q = true → p = q
  ref : ∀ p, l.locks p = true → 0 < l.refs p
  place : ∀ p c, l.pc p = some c → l.At p c
  loaded : ∀ p, l.locks p = true → l.pc p ≠ some .load → l.entry.valid = true
  agrees : 0 < l.entry.ref → l.entry.valid = true → l.dirty = false → l.entry.node = l.disk
  typed : 0 < l.entry.ref → l.entry.valid = true → (∀ p, l.pc p ≠ some (.iput .finish)) →
    l.entry.node.type ≠ 0 ∧ l.disk.type = l.entry.node.type

/-- Nobody is freeing the inode. -/
def Unfreed (l : EntryView v P) : Prop := ∀ q stage, l.pc q ≠ some (.iput stage)

/-- One reference of `p` goes to `q`. -/
def passed [DecidableEq P] (refs : P → ℕ) (p q : P) : P → ℕ :=
  update (update refs p (refs p - 1)) q (update refs p (refs p - 1) q + 1)

variable [DecidableEq P]

/-- What an action does to the entry that it works on. `used` are the inodes with an entry in use,
and `stores` are the changes to the copy that the action may be. -/
inductive Moves (used : ℕ × ℕ → Prop) (stores : P → Dinode v → Prop) (l : EntryView v P) :
    EntryView v P → Prop
  | disk (x : Dinode v) : Moves used stores l { l with disk := x }
  | addRef (p : P) (hpos : 0 < l.entry.ref ∨ 0 < l.refs p) : Moves used stores l { l with
      entry := { l.entry with ref := l.entry.ref + 1 }
      refs := update l.refs p (l.refs p + 1) }
  | recycle (p : P) (dev inum : ℕ) (x : Dinode v) (hzero : l.entry.ref = 0)
      (hnew : ¬used (dev, inum)) :
      Moves used stores l { l with
        entry := ⟨dev, inum, 1, false, false, l.entry.node⟩
        refs := update l.refs p (l.refs p + 1)
        disk := x }
  | wait (p : P) (hpc : l.pc p = none) (href : 0 < l.refs p) :
      Moves used stores l { l with pc := update l.pc p (some .wait) }
  | take (p : P) (hpc : l.pc p = some .wait)
      (hbusy : l.entry.busy = false) : Moves used stores l { l with
      entry := { l.entry with busy := true }
      locks := update l.locks p true
      pc := update l.pc p (some .load) }
  | loaded (p : P) (hpc : l.pc p = some .load) (hvalid : l.entry.valid = true) :
      Moves used stores l { l with pc := update l.pc p none }
  | load (p : P) (hpc : l.pc p = some .load) (hvalid : l.entry.valid = false)
      (htype : l.disk.type ≠ 0) :
      Moves used stores l { l with
      entry := { l.entry with valid := true, node := l.disk }
      dirty := false
      pc := update l.pc p none }
  | modify (p : P) (x : Dinode v) (hx : stores p x) (hpc : l.pc p = none) (hlock : l.locks p = true)
      (htype : x.type = l.entry.node.type) :
      Moves used stores l { l with entry := { l.entry with node := x }, dirty := true }
  /-- `iupdate`, and the two with which `iput` frees the inode. -/
  | store (p : P) (x : Dinode v) (c : Option EntryPlace)
      (hx : l.pc p = none ∧ c = none ∧ l.locks p = true ∧ x = l.entry.node ∨
        l.pc p = some (.iput .trunc) ∧ c = some (.iput .clear) ∧ x = l.entry.node.truncated ∨
        l.pc p = some (.iput .clear) ∧ c = some (.iput .finish) ∧
          x = { l.entry.node with type := 0 }) :
      Moves used stores l { l with
        entry := { l.entry with node := x }
        dirty := false
        disk := x
        pc := update l.pc p c }
  | leave (p : P) (hpc : l.pc p = none) (hlock : l.locks p = true) :
      Moves used stores l { l with pc := update l.pc p (some .unlock) }
  | unlock (p : P) (hpc : l.pc p = some .unlock) : Moves used stores l { l with
      entry := { l.entry with busy := false }
      locks := update l.locks p false
      pc := update l.pc p none }
  | free (p : P) (hpc : l.pc p = none) (href : 0 < l.refs p) (hbusy : l.entry.busy = false)
      (hfrees : l.Frees) :
      Moves used stores l { l with
        entry := { l.entry with busy := true }
        locks := update l.locks p true
        pc := update l.pc p (some (.iput .trunc)) }
  | finish (p : P) (hpc : l.pc p = some (.iput .finish)) : Moves used stores l { l with
      entry := { l.entry with ref := l.entry.ref - 1, busy := false, valid := false }
      refs := update l.refs p (l.refs p - 1)
      locks := update l.locks p false
      pc := update l.pc p none }
  | dropRef (p : P) (hpc : l.pc p = none) (href : 0 < l.refs p) (hlock : l.locks p = true →
      1 < l.refs p) :
      Moves used stores l { l with
        entry := { l.entry with ref := l.entry.ref - 1 }
        refs := update l.refs p (l.refs p - 1) }
  | give (p q : P) (hpc : l.pc p = none) (href : 0 < l.refs p) (hlock : l.locks p = true →
      1 < l.refs p) :
      Moves used stores l { l with refs := passed l.refs p q }

/-! ## References and locks -/

attribute [grind cases] EntryPlace

/-- What a process has where it stands. -/
@[grind] def Has (l : EntryView v P) (p : P) : EntryPlace → Prop
  | .wait => 0 < l.refs p
  | .load | .unlock | .iput _ => l.locks p = true

structure Held [Fintype P] (l : EntryView v P) : Prop where
  counted : l.entry.ref = ((∑ p, l.refs p : ℕ) : Int)
  busy : ∀ p, l.locks p = true → l.entry.busy = true
  excl : ∀ p q, l.locks p = true → l.locks q = true → p = q
  ref : ∀ p, l.locks p = true → 0 < l.refs p
  place : ∀ p c, l.pc p = some c → l.Has p c
  loaded : ∀ p, l.locks p = true → l.pc p ≠ some .load → l.entry.valid = true
  typed : l.entry.valid = true → (∀ p, l.pc p ≠ some (.iput .finish)) → l.entry.node.type ≠ 0

section

variable [Fintype P] {used : ℕ × ℕ → Prop} {stores : P → Dinode v → Prop} {l' : EntryView v P}

theorem sum_refs (l : EntryView v P) (p : P) (n : ℕ) :
    ∑ q, update l.refs p n q + l.refs p = ∑ q, l.refs q + n :=
  Tally.sum_update Finset.univ (fun _ k => k) l.refs (Finset.mem_univ p) n

theorem sum_passed {refs : P → ℕ} (hp : 0 < refs p) (q : P) :
    ∑ r, passed refs p q r = ∑ r, refs r := by
  have h1 := Tally.sum_update Finset.univ (fun _ k => k) refs (Finset.mem_univ p) (refs p - 1)
  have h2 := Tally.sum_update Finset.univ (fun _ k => k) (update refs p (refs p - 1))
    (Finset.mem_univ q) (update refs p (refs p - 1) q + 1)
  rw [passed]
  omega

omit [Fintype P] in
theorem passed_pos {refs : P → ℕ} {r : P} (hr : 0 < refs r) (hp : r = p → 1 < refs p) (q : P) :
    0 < passed refs p q r := by
  by_cases hrq : r = q
  · rw [passed, hrq, update_self]
    exact Nat.succ_pos _
  · rw [passed, update_of_ne hrq]
    by_cases hrp : r = p
    · have := hp hrp
      rw [hrp, update_self]
      omega
    · rwa [update_of_ne hrp]

section

omit [DecidableEq P]

theorem Held.refs_le (h : Held l) (p : P) : l.refs p ≤ l.entry.ref := by
  have hle : l.refs p ≤ ∑ q, l.refs q :=
    Finset.single_le_sum (fun _ _ => Nat.zero_le _) (Finset.mem_univ p)
  rw [h.counted]
  exact Int.ofNat_le.2 hle

theorem Held.pos (h : Held l) (hp : 0 < l.refs p) : 0 < l.entry.ref := by
  have hle := h.refs_le p
  omega

/-- An entry that is not in use is nobody's. -/
theorem Held.unused (h : Held l) (hzero : l.entry.ref = 0) (p : P) :
    l.refs p = 0 ∧ l.locks p = false ∧ l.pc p = none := by
  have hrefs : l.refs p = 0 := by
    by_contra hne
    have := h.pos (Nat.pos_of_ne_zero hne)
    omega
  have hlock : l.locks p = false := by
    by_contra hlock
    have := h.ref p (by simpa using hlock)
    omega
  refine ⟨hrefs, hlock, ?_⟩
  cases hc : l.pc p with
  | none => rfl
  | some c =>
    have hplace := h.place p c hc
    cases c <;> simp [Has, hrefs, hlock] at hplace

end

/-- Where there is one reference, one process has it. -/
theorem Held.alone (h : Held l) (hone : l.entry.ref = 1) (hp : 0 < l.refs p) (hq : 0 < l.refs q) :
    p = q := by
  by_contra hne
  have htwo : 2 ≤ ∑ q, l.refs q :=
    Tally.two_le_sum (Finset.mem_univ p) (Finset.mem_univ q) hne hp hq
  have hcount := h.counted
  omega

variable {c : Option EntryPlace} {pc : P → Option EntryPlace}

omit [Fintype P] in
/-- One process goes on while nobody is about to finish the freeing of the inode. -/
theorem finish_of_update
    (hp : pc p ≠ some (.iput .finish)) (h : ∀ q, update pc p c q ≠ some (.iput .finish)) (q : P) :
    pc q ≠ some (.iput .finish) := by
  by_cases hq : q = p
  · exact hq ▸ hp
  · have hne := h q
    rwa [update_of_ne hq] at hne

omit [DecidableEq P] in
theorem Held.disk (h : Held l) (x : Dinode v) : Held { l with disk := x } :=
  ⟨h.counted, h.busy, h.excl, h.ref, h.place, h.loaded, h.typed⟩

section

variable (h : Held l)

include h

/-- The count and the references of `p` change by the same, and `p` keeps one that it needs. -/
theorem Held.setRefs {n : ℕ} {r : Int} (hr : r + l.refs p = l.entry.ref + n)
    (hp : l.locks p = true ∨ l.pc p = some .wait → 0 < n) :
    Held { l with entry := { l.entry with ref := r }, refs := update l.refs p n } := by
  have hsum := sum_refs l p n
  have hcount := h.counted
  have href := h.ref
  have hplace := h.place
  refine ⟨by dsimp only; omega, h.busy, h.excl, ?_, ?_, h.loaded, h.typed⟩
  · grind [update_apply]
  · grind [update_apply]

theorem Held.recycle (hzero : l.entry.ref = 0) (p : P) (dev inum : ℕ) (x : Dinode v) :
    Held { l with
      entry := ⟨dev, inum, 1, false, false, l.entry.node⟩
      refs := update l.refs p (l.refs p + 1)
      disk := x } := by
  have hsum := sum_refs l p (l.refs p + 1)
  have hcount := h.counted
  have hnone := h.unused hzero
  refine ⟨by dsimp only; omega, ?_, ?_, ?_, ?_, ?_, nofun⟩ <;> grind

/-- A process that is not in `iput` moves to a place for which it has what it needs. -/
theorem Held.goto (hp : ∀ stage, l.pc p ≠ some (.iput stage))
    (hc : ∀ d, c = some d → d ≠ .load ∧ l.Has p d) (hload : l.locks p = true →
      l.entry.valid = true) :
    Held { l with pc := update l.pc p c } := by
  refine ⟨h.counted, h.busy, h.excl, h.ref, fun q d hq => ?_, fun q hq hqc => ?_, fun hv hfin =>
    h.typed hv (finish_of_update (hp .finish) hfin)⟩
  · have hq : update l.pc p c q = some d := hq
    by_cases hqp : q = p
    · subst hqp
      rw [update_self] at hq
      exact (hc d hq).2
    · rw [update_of_ne hqp] at hq
      exact h.place q d hq
  · have hqc : update l.pc p c q ≠ some .load := hqc
    by_cases hqp : q = p
    · subst hqp
      exact hload hq
    · rw [update_of_ne hqp] at hqc
      exact h.loaded q hq hqc

/-- Process `p` makes the entry busy, and needs the inode to be read for all but `ilock`. -/
theorem Held.take {c : EntryPlace} (hbusy : l.entry.busy = false) (href : 0 < l.refs p)
    (hp : ∀ stage, l.pc p ≠ some (.iput stage)) (hc : c = .load ∨ c = .iput .trunc ∧
      l.entry.valid = true) :
    Held { l with
      entry := { l.entry with busy := true }
      locks := update l.locks p true
      pc := update l.pc p (some c) } := by
  have hbusy' := h.busy
  have hplace := h.place
  have hloaded := h.loaded
  refine ⟨h.counted,
    ?_, ?_, ?_, ?_, ?_, fun hv hfin => h.typed hv (finish_of_update (hp .finish) hfin)⟩
  · exact fun _ _ => rfl
  · grind [update_apply]
  · grind [update_apply]
  · grind [update_apply]
  · grind [update_apply]

theorem Held.load (p : P) (htype : l.disk.type ≠ 0) :
    Held { l with
      entry := { l.entry with valid := true, node := l.disk }
      dirty := false
      pc := update l.pc p none } := by
  have hplace := h.place
  refine ⟨h.counted, h.busy, h.excl, h.ref, ?_, fun _ _ _ => rfl, fun _ _ => htype⟩
  grind [update_apply]

theorem Held.store {x : Dinode v}
    (hx : l.pc p = none ∧ c = none ∧ l.locks p = true ∧ x = l.entry.node ∨
      l.pc p = some (.iput .trunc) ∧ c = some (.iput .clear) ∧ x = l.entry.node.truncated ∨
      l.pc p = some (.iput .clear) ∧ c = some (.iput .finish) ∧
      x = { l.entry.node with type := 0 }) :
    Held { l with
      entry := { l.entry with node := x }
      dirty := false
      disk := x
      pc := update l.pc p c } := by
  have hplace := h.place
  have hloaded := h.loaded
  refine ⟨h.counted, h.busy, h.excl, h.ref, ?_, ?_, fun hv hfin => ?_⟩
  · grind [update_apply]
  · grind [update_apply]
  · rcases hx with ⟨hpc, -, -, rfl⟩ | ⟨hpc, -, rfl⟩ | ⟨-, rfl, -⟩
    · exact h.typed hv (finish_of_update (by simp [hpc]) hfin)
    · exact h.typed hv (finish_of_update (by simp [hpc]) hfin)
    · exact absurd (update_self ..) (hfin p)

/-- The one process that has the entry locked gives the lock back. -/
theorem Held.unlock (hp : l.locks p = true) (hpc : ∀ stage, l.pc p ≠ some (.iput stage)) :
    Held { l with
      entry := { l.entry with busy := false }
      locks := update l.locks p false
      pc := update l.pc p none } := by
  have hexcl := h.excl
  have hplace := h.place
  refine ⟨h.counted,
    ?_, ?_, ?_, ?_, ?_, fun hv hfin => h.typed hv (finish_of_update (hpc .finish) hfin)⟩ <;>
    grind [update_apply]

theorem Held.finish (hpc : l.pc p = some (.iput .finish)) :
    Held { l with
      entry := { l.entry with ref := l.entry.ref - 1, busy := false, valid := false }
      refs := update l.refs p (l.refs p - 1)
      locks := update l.locks p false
      pc := update l.pc p none } := by
  have hlock : l.locks p = true := h.place p _ hpc
  have hpos := h.ref p hlock
  have hsum := sum_refs l p (l.refs p - 1)
  have hcount := h.counted
  have hexcl := h.excl
  have hplace := h.place
  refine ⟨by dsimp only; omega, ?_, ?_, ?_, ?_, ?_, nofun⟩ <;> grind [update_apply]

theorem Held.give (hpc : l.pc p = none) (hp : 0 < l.refs p)
    (hlock : l.locks p = true → 1 < l.refs p) (q : P) :
    Held { l with refs := passed l.refs p q } := by
  refine ⟨?_, h.busy, h.excl, fun r hr => ?_, fun r c hr => ?_, h.loaded, h.typed⟩
  · rw [sum_passed hp]
    exact h.counted
  · exact passed_pos (h.ref r hr) (fun hrp => hlock (hrp ▸ hr)) q
  · have hhas := h.place r c hr
    cases c with
    | wait => exact passed_pos hhas (fun hrp => by cases hpc.symm.trans (hrp ▸ hr)) q
    | load | unlock | iput stage => exact hhas

theorem Held.moves (hm : Moves used stores l l') : Held l' := by
  have hidle : ∀ {p : P}, l.pc p = none → l.locks p = true → l.entry.valid = true :=
    fun hpc hlock =>
    h.loaded _ hlock (by simp [hpc])
  cases hm with
  | disk x => exact h.disk x
  | addRef p hpos => exact h.setRefs (by push_cast; omega) fun _ => Nat.succ_pos _
  | recycle p dev inum x hzero hnew => exact h.recycle hzero p dev inum x
  | wait p hpc hp => exact h.goto (by simp [hpc]) (by rintro _ ⟨⟩; exact ⟨nofun, hp⟩) (hidle hpc)
  | take p hpc hfree => exact h.take hfree (h.place p _ hpc) (by simp [hpc]) (.inl rfl)
  | loaded p hpc hvalid => exact h.goto (by simp [hpc]) nofun fun _ => hvalid
  | load p hpc hinvalid htype => exact h.load p htype
  | modify p x hx hpc hlock htype =>
    exact ⟨h.counted, h.busy, h.excl, h.ref, h.place, h.loaded,
      fun hv hfin => htype ▸ h.typed hv hfin⟩
  | store p x c hx => exact h.store hx
  | leave p hpc hlock =>
    exact h.goto (by simp [hpc]) (by rintro _ ⟨⟩; exact ⟨nofun, hlock⟩) (hidle hpc)
  | unlock p hpc => exact h.unlock (h.place p _ hpc) (by simp [hpc])
  | free p hpc hp hfree hfrees => exact h.take hfree hp (by simp [hpc]) (.inr ⟨rfl, hfrees.2.1⟩)
  | finish p hpc => exact h.finish hpc
  | dropRef p hpc hp hlock =>
    refine h.setRefs (by omega) fun hneed => ?_
    rcases hneed with hl | hw
    · have := hlock hl
      omega
    · cases hpc.symm.trans hw
  | give p q hpc hp hlock => exact h.give hpc hp hlock q

end

/-- Only an entry that was not in use becomes an entry for another inode, and a count that was zero
    stays so. -/
theorem Moves.key (hm : Moves used stores l l') (h : Held l) :
    l'.entry.key = l.entry.key ∧ (0 < l'.entry.ref → 0 < l.entry.ref) ∨
      l.entry.ref = 0 ∧ ¬used l'.entry.key := by
  cases hm with
  | recycle p dev inum x hzero hnew => exact .inr ⟨hzero, hnew⟩
  | addRef p hpos =>
    refine .inl ⟨rfl, fun _ => ?_⟩
    rcases hpos with hpos | hp
    · exact hpos
    · exact h.pos hp
  | finish p hpc => exact .inl ⟨rfl, fun _ => h.pos (h.ref p (h.place p _ hpc))⟩
  | dropRef p hpc hp => exact .inl ⟨rfl, fun _ => h.pos hp⟩
  | disk | wait | take | loaded | load | modify | store | leave | unlock | free | give =>
    exact .inl ⟨rfl, id⟩

/-- Where a field of a valid copy comes from, if `iput` does not change it when it frees the inode:
from the copy as it was, from the disk or from the action. -/
theorem Moves.field {β : Type} {f : Dinode v → β} (htrunc : ∀ x, f x.truncated = f x)
    (hclear : ∀ x, f { x with type := 0 } = f x) (hm : Moves used stores l l') (h : Held l)
    (hvalid : l'.entry.valid = true) :
    l'.entry.key = l.entry.key ∧ (0 < l'.entry.ref → 0 < l.entry.ref) ∧
      (l.entry.valid = true ∧ f l'.entry.node = f l.entry.node ∨
        l.entry.valid = false ∧ f l'.entry.node = f l.disk ∨
        ∃ p, stores p l'.entry.node ∧ l.locks p = true) := by
  cases hm with
  | recycle p dev inum x hzero hnew => cases hvalid
  | finish p hpc => cases hvalid
  | addRef p hpos =>
    refine ⟨rfl, fun _ => ?_, .inl ⟨hvalid, rfl⟩⟩
    rcases hpos with hpos | hp
    · exact hpos
    · exact h.pos hp
  | dropRef p hpc hp => exact ⟨rfl, fun _ => h.pos hp, .inl ⟨hvalid, rfl⟩⟩
  | load p hpc hinvalid htype => exact ⟨rfl, id, .inr (.inl ⟨hinvalid, rfl⟩)⟩
  | modify p x hx hpc hlock htype => exact ⟨rfl, id, .inr (.inr ⟨p, hx, hlock⟩)⟩
  | store p x c hx =>
    refine ⟨rfl, id, .inl ⟨hvalid, ?_⟩⟩
    rcases hx with ⟨-, -, -, rfl⟩ | ⟨-, -, rfl⟩ | ⟨-, -, rfl⟩
    · rfl
    · exact htrunc _
    · exact hclear _
  | disk | wait | take | loaded | leave | unlock | free | give => exact ⟨rfl, id,
      .inl ⟨hvalid, rfl⟩⟩

/-! ## The copy of one entry -/

/-- What an action does while nobody gets hold of an inode that is being freed: a reference more is
to another inode, and the inode on the disk becomes what the entry has, or was free. -/
structure Calmly (l l' : EntryView v P) : Prop where
  gain : l.entry.ref < l'.entry.ref → 0 < l.entry.ref → l.Unfreed ∨ ∃ p, l.pc p = none ∧
    0 < l.refs p
  disk : 0 < l.entry.ref → l'.disk = l.disk ∨ l'.disk = l'.entry.node ∨ l.disk.type = 0 ∧ l.Unfreed

omit [DecidableEq P] in
theorem Ok.frees (h : Ok l) {stage : IputPc} (hp : l.pc p = some (.iput stage)) : l.Frees :=
  (h.place p _ hp).2

/-- A process that is not in `iput` has a reference, so nobody frees the inode. -/
theorem Ok.unfreed (h : Ok l) (hheld : Held l) (hp : 0 < l.refs p)
    (hpc : ∀ stage, l.pc p ≠ some (.iput stage)) : l.Unfreed := by
  intro q stage hq
  obtain ⟨hlock, hfrees⟩ := h.place q _ hq
  obtain rfl : p = q := hheld.alone hfrees.1 hp (h.ref q hlock)
  exact hpc stage hq

omit [DecidableEq P] in
theorem Ok.of_held (hheld : Held l) (hbusy : l.entry.busy = true → ∃ p, l.locks p = true)
    (hfrees : ∀ p stage, l.pc p = some (.iput stage) → l.Frees)
    (hagrees : 0 < l.entry.ref → l.entry.valid = true → l.dirty = false → l.entry.node = l.disk)
    (htyped : 0 < l.entry.ref → l.entry.valid = true → (∀ p, l.pc p ≠ some (.iput .finish)) →
      l.disk.type = l.entry.node.type) : Ok l := by
  refine ⟨hheld.counted, ⟨hbusy, fun ⟨p, hp⟩ => hheld.busy p hp⟩, hheld.excl, hheld.ref,
    fun p c hp => ?_,
    hheld.loaded, hagrees, fun hpos hv hfin => ⟨hheld.typed hv hfin, htyped hpos hv hfin⟩⟩
  have hhas := hheld.place p c hp
  cases c with
  | wait | load | unlock => exact hhas
  | iput stage => exact ⟨hhas, hfrees p stage hp⟩

omit [DecidableEq P] in
/-- The inode on the disk changes. -/
theorem Ok.setDisk (h : Ok l) (hheld : Held l) {x : Dinode v}
    (hx : 0 < l.entry.ref → x = l.disk ∨ x = l.entry.node ∨ l.disk.type = 0 ∧ l.Unfreed) :
    Ok { l with disk := x } := by
  refine .of_held (hheld.disk x) h.busy.1 (fun p stage => h.frees) (fun hpos hv hd => ?_)
    fun hpos hv hfin => ?_
  · rcases hx hpos with rfl | rfl | ⟨hzero, hu⟩
    · exact h.agrees hpos hv hd
    · rfl
    · obtain ⟨htype, hdisk⟩ := h.typed hpos hv fun q => hu q .finish
      exact absurd (hdisk.symm.trans hzero) htype
  · obtain ⟨htype, hdisk⟩ := h.typed hpos hv hfin
    rcases hx hpos with rfl | rfl | ⟨hzero, -⟩
    · exact hdisk
    · rfl
    · exact absurd (hdisk.symm.trans hzero) htype

omit [Fintype P] in
theorem iput_of_update {stage : IputPc}
    (hc : c ≠ some (.iput stage)) (hq : update pc p c q = some (.iput stage)) :
    pc q = some (.iput stage) := by
  by_cases hqp : q = p
  · rw [hqp, update_self] at hq
    exact absurd hq hc
  · rwa [update_of_ne hqp] at hq

/-- Process `p` goes on. -/
theorem Ok.goes (h : Ok l) {b : Bool} {locks : P → Bool}
    (hheld : Held { l with entry := { l.entry with busy := b }, locks := locks, pc := update l.pc p c })
    (hb : b = true → ∃ q, locks q = true) (hp : l.pc p ≠ some (.iput .finish))
    (hc : (∀ stage, c ≠ some (.iput stage)) ∨ l.Frees) :
    Ok { l with entry := { l.entry with busy := b }, locks := locks, pc := update l.pc p c } := by
  refine .of_held hheld hb (fun q stage hq => ?_) h.agrees fun hpos hv hfin =>
    (h.typed hpos hv (finish_of_update hp hfin)).2
  rcases hc with hc | hfrees
  · exact h.frees (iput_of_update (hc stage) hq)
  · exact hfrees

theorem Ok.moves (h : Ok l) (hheld : Held l) (hm : Moves used stores l l') (hcalm : Calmly l l') :
    Ok l' := by
  have hheld' := hheld.moves hm
  cases hm with
  | disk x => exact h.setDisk hheld hcalm.disk
  | addRef p hpos =>
    have hpos : 0 < l.entry.ref := hpos.elim id hheld.pos
    have hu : l.Unfreed := by
      rcases hcalm.gain (Int.lt_succ _) hpos with hu | ⟨q, hpc, hq⟩
      · exact hu
      · exact h.unfreed hheld hq (by simp [hpc])
    exact .of_held hheld' h.busy.1 (fun q stage hq => absurd hq (hu q stage))
      (fun _ => h.agrees hpos) fun _ hv hfin =>
      (h.typed hpos hv hfin).2
  | recycle p dev inum x hzero hnew =>
    refine .of_held hheld' nofun (fun q stage hq => ?_) nofun nofun
    cases (hheld.unused hzero q).2.2.symm.trans hq
  | wait p hpc hp => exact h.goes hheld' h.busy.1 (by simp [hpc]) (.inl nofun)
  | take p hpc hfree =>
    exact h.goes hheld' (fun _ => ⟨p, update_self ..⟩) (by simp [hpc]) (.inl nofun)
  | loaded p hpc hvalid => exact h.goes hheld' h.busy.1 (by simp [hpc]) (.inl nofun)
  | load p hpc hinvalid htype =>
    have hu : l.Unfreed := h.unfreed hheld (h.ref p (h.place p _ hpc)) (by simp [hpc])
    refine .of_held hheld' h.busy.1 (fun q stage hq => ?_) (fun _ _ _ => rfl) fun _ _ _ => rfl
    exact absurd (iput_of_update (c := none) nofun hq) (hu q stage)
  | modify p x hx hpc hlock htype =>
    have hu : l.Unfreed := h.unfreed hheld (h.ref p hlock) (by simp [hpc])
    exact .of_held hheld' h.busy.1 (fun q stage hq => absurd hq (hu q stage)) nofun
      fun hpos hv hfin =>
      (h.typed hpos hv hfin).2.trans htype.symm
  | store p x c hx =>
    refine .of_held hheld' h.busy.1 (fun q stage hq => ?_) (fun _ _ _ => rfl) fun _ _ _ => rfl
    rcases hx with ⟨hpc, rfl, hlock, -⟩ | ⟨hpc, -, rfl⟩ | ⟨hpc, -, rfl⟩
    · exact absurd (iput_of_update (c := none) nofun hq) (h.unfreed hheld (h.ref p hlock)
        (by simp [hpc]) q stage)
    · exact h.frees hpc
    · exact h.frees hpc
  | leave p hpc hlock => exact h.goes hheld' h.busy.1 (by simp [hpc]) (.inl nofun)
  | unlock p hpc => exact h.goes hheld' nofun (by simp [hpc]) (.inl nofun)
  | free p hpc hp hfree hfrees =>
    exact h.goes hheld' (fun _ => ⟨p, update_self ..⟩) (by simp [hpc]) (.inr hfrees)
  | finish p hpc =>
    refine .of_held hheld' nofun (fun q stage hq => ?_) nofun nofun
    have hlock : update l.locks p false q = true := hheld'.place q _ hq
    have hq : l.pc q = some (.iput stage) := iput_of_update (c := none) nofun hq
    obtain rfl := hheld.excl q p (hheld.place q _ hq) (hheld.place p _ hpc)
    simp at hlock
  | dropRef p hpc hp hlock =>
    have hu : l.Unfreed := h.unfreed hheld hp (by simp [hpc])
    exact .of_held hheld' h.busy.1 (fun q stage hq => absurd hq (hu q stage))
      (fun _ => h.agrees (hheld.pos hp)) fun _ hv hfin => (h.typed (hheld.pos hp) hv hfin).2
  | give p q hpc hp hlock =>
    exact .of_held hheld' h.busy.1 (fun q stage => h.frees) h.agrees fun hpos hv hfin =>
      (h.typed hpos hv hfin).2

end

end EntryView

end Xv6
