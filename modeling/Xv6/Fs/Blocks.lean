import Xv6.Fs.Inode
import Mathlib.Data.Finset.Card

set_option autoImplicit false

/-! # The blocks of a file

The pointers of an inode are its direct entries, its indirect block and the entries of that block.
They are `Owned` when they lie in the data region, are marked in the bitmap and are all different.
`balloc` hands out an unmarked block and marks it, so `bmap` keeps this. -/

namespace Xv6

open Function

namespace Fs

variable {v : FsBuild} {fs fs' : Fs} {ip ip' : Inode v}

/-! ## The bitmap -/

variable {b data k : ℕ}

theorem bblock_eq (hsize : fs.sb.size ≤ bpb) (hb : b < fs.sb.size) :
    bblock fs.sb b = fs.sb.bmapstart := by
  unfold bblock
  rw [Nat.div_eq_of_lt (Nat.lt_of_lt_of_le hb hsize), Nat.zero_add]

/-- Setting one bit changes no other. -/
theorem getLsbD_markUsed (blk : Block) {a : ℕ} (ha : a < bpb) (hb : b < bpb) :
    ((markUsed blk a).word (b % bpb / 32)).getLsbD (b % 32) =
      ((blk.word (b % bpb / 32)).getLsbD (b % 32) || decide (b = a)) := by
  rw [Nat.mod_eq_of_lt hb]
  have hword : b / 32 < blockWords := by
    have : bpb = blockWords * 32 := rfl
    omega
  have hbit : a % 32 < 32 := Nat.mod_lt _ (by decide)
  simp only [markUsed, Block.word, Fin.ofNat, Nat.mod_eq_of_lt hword, Nat.mod_eq_of_lt ha]
  by_cases hw : b / 32 = a / 32
  · simp only [hw, if_true, BitVec.getLsbD_or, BitVec.getLsbD_twoPow, hbit, decide_true,
      Bool.true_and]
    congr 1
    exact decide_eq_decide.2 (by omega)
  · have hne : b ≠ a := by
      rintro rfl
      exact hw rfl
    simp [hw, hne]

/-- The blocks that are not in use. -/
def free (fs : Fs) : Finset ℕ := (Finset.range fs.sb.size).filter (fun b => fs.used b = false)

/-- What `balloc` does when it returns block `addr`. -/
structure Alloc (fs : Fs) (addr : Word) (fs' : Fs) : Prop where
  lt : addr.toNat < fs.sb.size
  fresh : fs.used addr.toNat = false
  sb : fs'.sb = fs.sb
  logged : fs'.logged = fs.logged ++ [fs.sb.bmapstart, addr.toNat]
  zero : fs'.blocks addr.toNat = fun _ => 0
  frame : ∀ x, x ≠ fs.sb.bmapstart → x ≠ addr.toNat → fs'.blocks x = fs.blocks x
  used : ∀ x < fs.sb.size, fs'.used x = (fs.used x || decide (x = addr.toNat))

variable {addr : Word}

theorem balloc_ok (hsize : fs.sb.size ≤ bpb)
    (hbitmap : fs.used fs.sb.bmapstart = true) (h : balloc fs = .ok (addr, fs')) :
    Alloc fs addr fs' := by
  unfold balloc at h
  split at h
  · next b hfind =>
      have hlt : b < fs.sb.size := List.mem_range.1 (List.mem_of_find?_eq_some hfind)
      have hfree : fs.used b = false := by simpa using List.find?_some hfind
      have hne : fs.sb.bmapstart ≠ b := by
        rintro he
        rw [he, hfree] at hbitmap
        cases hbitmap
      have hb : (BitVec.ofNat 32 b).toNat = b := by
        rw [BitVec.toNat_ofNat]
        exact Nat.mod_eq_of_lt (by simp only [bpb, bsize] at hsize; omega)
      simp only [bblock_eq hsize hlt, Except.ok.injEq, Prod.mk.injEq] at h
      obtain ⟨rfl, rfl⟩ := h
      rw [← hb] at hlt hfree hne
      refine ⟨hlt, hfree, rfl, ?_, ?_, ?_, ?_⟩
      · simp [bzero, logWrite, hb]
      · simp [bzero, logWrite, hb]
      · intro x hx hx'
        rw [hb] at hx'
        simp [bzero, logWrite, hx, hx']
      · intro x hx
        rw [hb] at hne ⊢
        have hblk : (bzero b (fs.logWrite fs.sb.bmapstart
            (markUsed (fs.blocks fs.sb.bmapstart) b))).blocks (bblock fs.sb x) =
              markUsed (fs.blocks (bblock fs.sb x)) b := by
          rw [bblock_eq hsize hx]
          simp [bzero, logWrite, hne]
        have hmark := getLsbD_markUsed (fs.blocks (bblock fs.sb x)) (a := b) (b := x)
          (by omega) (by omega)
        rw [← hblk] at hmark
        exact hmark
  · cases h

theorem balloc_returns (fs : Fs) (h : 0 < (free fs).card) :
    ∃ addr fs', balloc fs = .ok (addr, fs') := by
  unfold balloc
  cases hfind : (List.range fs.sb.size).find? (fun b => !fs.used b) with
  | some b => exact ⟨_, _, rfl⟩
  | none =>
    obtain ⟨b, hb⟩ := Finset.card_pos.1 h
    obtain ⟨hlt, hfree⟩ := Finset.mem_filter.1 hb
    have := List.find?_eq_none.1 hfind b (List.mem_range.2 (Finset.mem_range.1 hlt))
    rw [hfree] at this
    exact absurd rfl this

/-- An allocation uses up one block. -/
theorem Alloc.free_card (h : Alloc fs addr fs') :
    (free fs).card = (free fs').card + 1 := by
  have hmem : addr.toNat ∈ free fs :=
    Finset.mem_filter.2 ⟨Finset.mem_range.2 h.lt, h.fresh⟩
  have herase : free fs' = (free fs).erase addr.toNat := by
    ext x
    simp only [free, Finset.mem_erase, Finset.mem_filter, Finset.mem_range, h.sb]
    constructor
    · rintro ⟨hlt, hx⟩
      rw [h.used x hlt, Bool.or_eq_false_iff, decide_eq_false_iff_not] at hx
      exact ⟨hx.2, hlt, hx.1⟩
    · rintro ⟨hne, hlt, hx⟩
      refine ⟨hlt, ?_⟩
      rw [h.used x hlt, hx]
      simpa using hne
  rw [herase, Finset.card_erase_of_mem hmem]
  have := Finset.card_pos.2 ⟨_, hmem⟩
  omega

/-- Writing any block but the bitmap leaves the bitmap alone. -/
theorem used_logWrite (hsize : fs.sb.size ≤ bpb) (hb : b ≠ fs.sb.bmapstart) (data : Block)
    {x : ℕ} (hx : x < fs.sb.size) : (fs.logWrite b data).used x = fs.used x := by
  have hblk : (fs.logWrite b data).blocks (bblock fs.sb x) = fs.blocks (bblock fs.sb x) := by
    rw [bblock_eq hsize hx]
    simp [logWrite, hb.symm]
  exact congrArg (fun blk : Block => (blk.word (x % bpb / 32)).getLsbD (x % 32)) hblk

theorem free_logWrite (hsize : fs.sb.size ≤ bpb) (hb : b ≠ fs.sb.bmapstart)
    (data : Block) : free (fs.logWrite b data) = free fs := by
  refine Finset.filter_congr fun x hx => ?_
  rw [used_logWrite hsize hb data (Finset.mem_range.1 hx)]

/-! ## The pointers of an inode -/

/-- The block number of block `k` of a file, or 0. -/
def lookup (fs : Fs) (ip : Inode v) (k : ℕ) : Word :=
  if k < v.ndirect then ip.addrs (Fin.ofNat _ k)
  else if k - v.ndirect < nindirect ∧ ip.addrs (Fin.last _) ≠ 0 then
    (fs.blocks (ip.addrs (Fin.last _)).toNat).word (k - v.ndirect)
  else 0

/-- All block numbers of a file: those of its blocks, and that of the indirect block. -/
def ptr (fs : Fs) (ip : Inode v) : Option ℕ → Word
  | some k => lookup fs ip k
  | none => ip.addrs (Fin.last _)

/-- What an indirect block may cost the file beside the blocks behind it. -/
def indirectCost (ip : Inode v) : ℕ := if ip.addrs (Fin.last _) = 0 then 1 else 0

theorem indirectCost_congr (h : ip'.addrs (Fin.last _) = ip.addrs (Fin.last _)) :
    indirectCost ip' = indirectCost ip := by
  simp only [indirectCost, h]

/-- The inode's blocks lie in the data region, which begins at block `data`, and are different from
    each other; the bitmap is one block and marks them, and everything before the data region. -/
structure Owned (data : ℕ) (fs : Fs) (ip : Inode v) : Prop where
  size_le : fs.sb.size ≤ bpb
  data_le : data ≤ fs.sb.size
  bitmap_lt : fs.sb.bmapstart < data
  iblock_lt : ip.iblock fs.sb < data
  iblock_ne : ip.iblock fs.sb ≠ fs.sb.bmapstart
  meta_used : ∀ b < data, fs.used b = true
  ptr_range : ∀ i, ptr fs ip i ≠ 0 → data ≤ (ptr fs ip i).toNat ∧
    (ptr fs ip i).toNat < fs.sb.size ∧ fs.used (ptr fs ip i).toNat = true
  ptr_inj : ∀ i j, ptr fs ip i ≠ 0 → ptr fs ip i = ptr fs ip j → i = j

theorem Owned.balloc_ok (h : Owned data fs ip)
    (ha : balloc fs = .ok (addr, fs')) : Alloc fs addr fs' ∧ data ≤ addr.toNat := by
  have halloc := Fs.balloc_ok h.size_le (h.meta_used _ h.bitmap_lt) ha
  refine ⟨halloc, ?_⟩
  by_contra hlt
  have := h.meta_used addr.toNat (by omega)
  rw [halloc.fresh] at this
  cases this

/-- A fresh block becomes one of the inode's blocks. -/
theorem Owned.insert (h : Owned data fs ip) (i0 : Option ℕ)
    (hsb : fs'.sb = fs.sb) (hinum : ip'.inum = ip.inum) (hge : data ≤ addr.toNat)
    (hlt : addr.toNat < fs.sb.size) (hfresh : fs.used addr.toNat = false)
    (hused : ∀ x < fs.sb.size, fs'.used x = (fs.used x || decide (x = addr.toNat)))
    (hnew : ptr fs' ip' i0 = addr) (hold : ∀ i, i ≠ i0 → ptr fs' ip' i = ptr fs ip i) :
    Owned data fs' ip' := by
  have hiblock : ip'.iblock fs'.sb = ip.iblock fs.sb := by
    rw [Inode.iblock, Inode.iblock, hinum, hsb]
  refine ⟨by rw [hsb]; exact h.size_le, by rw [hsb]; exact h.data_le,
    by rw [hsb]; exact h.bitmap_lt, by rw [hiblock]; exact h.iblock_lt,
    by rw [hiblock, hsb]; exact h.iblock_ne, ?_, ?_, ?_⟩
  · intro b hb
    rw [hused b (Nat.lt_of_lt_of_le hb h.data_le), h.meta_used b hb, Bool.true_or]
  · intro i hi
    by_cases hi0 : i = i0
    · rw [hi0, hnew, hsb, hused _ hlt]
      exact ⟨hge, hlt, by simp⟩
    · rw [hold i hi0] at hi ⊢
      obtain ⟨h1, h2, h3⟩ := h.ptr_range i hi
      rw [hsb, hused _ h2, h3]
      exact ⟨h1, h2, rfl⟩
  · -- the fresh block is none of the others, because those are marked
    have hne : ∀ i, ptr fs ip i ≠ 0 → ptr fs ip i ≠ addr := by
      intro i hi he
      have := (h.ptr_range i hi).2.2
      rw [he, hfresh] at this
      cases this
    intro i j hi he
    by_cases hi0 : i = i0 <;> by_cases hj0 : j = i0
    · rw [hi0, hj0]
    · rw [hi0, hnew, hold j hj0] at he
      rw [hi0, hnew, he] at hi
      exact absurd he.symm (hne j hi)
    · rw [hj0, hnew, hold i hi0] at he
      rw [hold i hi0] at hi
      exact absurd he (hne i hi)
    · rw [hold i hi0] at hi he
      rw [hold j hj0] at he
      exact h.ptr_inj i j hi he

theorem Owned.data_pos (h : Owned data fs ip) : 0 < data :=
  Nat.lt_of_le_of_lt (Nat.zero_le _) h.bitmap_lt

theorem direct_ne_last (hk : k < v.ndirect) :
    (Fin.ofNat (v.ndirect + 1) k) ≠ Fin.last v.ndirect := by
  intro he
  have := congrArg Fin.val he
  simp only [Fin.ofNat, Fin.val_last, Nat.mod_eq_of_lt (Nat.lt_succ_of_lt hk)] at this
  omega

theorem direct_inj {j : ℕ} (hj : j < v.ndirect) (hk : k < v.ndirect)
    (he : Fin.ofNat (v.ndirect + 1) j = Fin.ofNat (v.ndirect + 1) k) : j = k := by
  have := congrArg Fin.val he
  simpa only [Fin.ofNat, Nat.mod_eq_of_lt (Nat.lt_succ_of_lt hj),
    Nat.mod_eq_of_lt (Nat.lt_succ_of_lt hk)] using this

/-- What `bmap` does for block `k` of the file when it returns `addr`. -/
structure Mapped (data k : ℕ) (fs : Fs) (ip : Inode v) (addr : Word) (ip' : Inode v) (fs' : Fs) :
    Prop where
  owned : Owned data fs' ip'
  sb : fs'.sb = fs.sb
  inode : ip' = { ip with addrs := ip'.addrs }
  addr_eq : lookup fs' ip' k = addr
  addr_ne : addr ≠ 0
  keeps : ∀ i, ptr fs ip i ≠ 0 → ptr fs' ip' i = ptr fs ip i
  others : ∀ j, j ≠ k → lookup fs' ip' j = lookup fs ip j
  logged : ∀ x, x ∈ fs'.logged ↔ x ∈ fs.logged ∨ lookup fs ip k = 0 ∧
    (x = fs.sb.bmapstart ∨ x = addr.toNat ∨ v.ndirect ≤ k ∧ x = (ptr fs' ip' none).toNat)

/-- A block that the file has already. -/
theorem Mapped.refl (h : Owned data fs ip) (hk : lookup fs ip k ≠ 0) :
    Mapped data k fs ip (lookup fs ip k) ip fs where
  owned := h
  sb := rfl
  inode := rfl
  addr_eq := rfl
  addr_ne := hk
  keeps _ _ := rfl
  others _ _ := rfl
  logged _ := ⟨Or.inl, fun hx => hx.elim id fun hzero => absurd hzero.1 hk⟩

theorem Alloc.ne_zero (h : Owned data fs ip) (hge : data ≤ addr.toNat) :
    addr ≠ 0 := by
  rintro rfl
  have := h.data_pos
  simp at hge
  omega

/-- The blocks of the file are not touched by an allocation. -/
theorem Owned.alloc_frame (h : Owned data fs ip) (ha : Alloc fs addr fs')
    {i : Option ℕ} (hi : ptr fs ip i ≠ 0) :
    fs'.blocks (ptr fs ip i).toNat = fs.blocks (ptr fs ip i).toNat := by
  obtain ⟨hge, _, hused⟩ := h.ptr_range i hi
  refine ha.frame _ ?_ ?_
  · have := h.bitmap_lt
    omega
  · intro he
    rw [he, ha.fresh] at hused
    cases hused

/-- The entries behind the indirect block do not change while it keeps its contents. -/
theorem lookup_indirect (hk : ¬k < v.ndirect)
    (hlast : ip'.addrs (Fin.last _) = ip.addrs (Fin.last _))
    (hblk : ip.addrs (Fin.last _) ≠ 0 → fs'.blocks (ip.addrs (Fin.last _)).toNat =
      fs.blocks (ip.addrs (Fin.last _)).toNat) :
    lookup fs' ip' k = lookup fs ip k := by
  unfold lookup
  rw [if_neg hk, if_neg hk, hlast]
  split_ifs with hc
  · rw [hblk hc.2]
  · rfl

/-- Allocation of a direct block. -/
theorem mapped_direct (h : Owned data fs ip) (hk : k < v.ndirect)
    (hzero : ip.addrs (Fin.ofNat _ k) = 0) (ha : balloc fs = .ok (addr, fs')) :
    Mapped data k fs ip addr
      { ip with addrs := update ip.addrs (Fin.ofNat _ k) addr } fs' := by
  obtain ⟨halloc, hge⟩ := h.balloc_ok ha
  have hlookup : lookup fs ip k = 0 := by rw [lookup, if_pos hk, hzero]
  have hnew : lookup fs' { ip with addrs := update ip.addrs (Fin.ofNat _ k) addr } k =
      addr := by
    simp [lookup, hk]
  have hothers : ∀ j, j ≠ k →
      lookup fs' { ip with addrs := update ip.addrs (Fin.ofNat _ k) addr } j =
        lookup fs ip j := by
    intro j hj
    by_cases hjd : j < v.ndirect
    · simp only [lookup, if_pos hjd]
      exact update_of_ne (fun he => hj (direct_inj hjd hk he)) ..
    · refine lookup_indirect hjd (update_of_ne (direct_ne_last hk).symm ..) ?_
      exact fun hne => h.alloc_frame (i := none) halloc hne
  have hnone : ptr fs' { ip with addrs := update ip.addrs (Fin.ofNat _ k) addr } none =
      ptr fs ip none :=
    update_of_ne (direct_ne_last hk).symm ..
  have hold : ∀ i, i ≠ some k →
      ptr fs' { ip with addrs := update ip.addrs (Fin.ofNat _ k) addr } i =
        ptr fs ip i := by
    intro i hi
    cases i with
    | none => exact hnone
    | some j => exact hothers j fun he => hi (congrArg some he)
  refine ⟨h.insert (some k) halloc.sb rfl hge halloc.lt halloc.fresh halloc.used hnew hold,
    halloc.sb, rfl, hnew, Alloc.ne_zero h hge, ?_, hothers, ?_⟩
  · intro i hi
    refine hold i fun he => ?_
    rw [he] at hi
    exact hi hlookup
  · intro x
    rw [halloc.logged, List.mem_append, List.mem_cons, List.mem_singleton]
    have hdirect : ¬v.ndirect ≤ k := Nat.not_le_of_lt hk
    simp only [hlookup, hdirect, false_and, or_false, true_and]

/-- What `bmap` has done once it has an indirect block. -/
structure Loaded (data : ℕ) (fs : Fs) (ip ip' : Inode v) (fs' : Fs) : Prop where
  owned : Owned data fs' ip'
  sb : fs'.sb = fs.sb
  inode : ip' = { ip with addrs := ip'.addrs }
  some_eq : ∀ j, lookup fs' ip' j = lookup fs ip j
  none_ne : ptr fs' ip' none ≠ 0
  none_eq : ptr fs ip none ≠ 0 → ptr fs' ip' none = ptr fs ip none
  logged : ∀ x, x ∈ fs'.logged ↔ x ∈ fs.logged ∨ ptr fs ip none = 0 ∧
    (x = fs.sb.bmapstart ∨ x = (ptr fs' ip' none).toNat)
  free : (free fs).card = (Fs.free fs').card + indirectCost ip

theorem loadIndirect_spec (h : Owned data fs ip) (hfree : indirectCost ip ≤ (free fs).card) :
    ∃ ip' fs', loadIndirect ip fs = .ok (ip', fs') ∧ Loaded data fs ip ip' fs' := by
  unfold loadIndirect
  split_ifs with hzero
  · rw [indirectCost, if_pos hzero] at hfree
    obtain ⟨addr, fs', ha⟩ := balloc_returns fs hfree
    obtain ⟨halloc, hge⟩ := h.balloc_ok ha
    refine ⟨_, fs', by rw [ha]; rfl, ?_⟩
    have hnone : ptr fs' { ip with addrs := update ip.addrs (Fin.last _) addr } none =
        addr :=
      update_self ..
    -- a new indirect block is zeroed, so it has no entries
    have hsome : ∀ j,
        lookup fs' { ip with addrs := update ip.addrs (Fin.last _) addr } j =
          lookup fs ip j := by
      intro j
      unfold lookup
      by_cases hj : j < v.ndirect
      · simp only [if_pos hj]
        exact update_of_ne (direct_ne_last hj) ..
      · simp only [if_neg hj, hzero, ne_eq, not_true_eq_false, and_false, if_false,
          update_self, halloc.zero]
        split_ifs <;> rfl
    have hold : ∀ i, i ≠ none →
        ptr fs' { ip with addrs := update ip.addrs (Fin.last _) addr } i =
          ptr fs ip i := by
      intro i hi
      cases i with
      | none => exact absurd rfl hi
      | some j => exact hsome j
    refine ⟨h.insert none halloc.sb rfl hge halloc.lt halloc.fresh halloc.used hnone hold,
      halloc.sb, rfl, hsome, ?_, fun hne => absurd hzero hne, ?_, ?_⟩
    · rw [hnone]
      exact Alloc.ne_zero h hge
    · intro x
      rw [halloc.logged, List.mem_append, List.mem_cons, List.mem_singleton, hnone]
      simp only [show ptr fs ip none = 0 from hzero, true_and]
    · rw [halloc.free_card, indirectCost, if_pos hzero]
  · refine ⟨ip, fs, rfl, h, rfl, rfl, fun _ => rfl, hzero, fun _ => rfl, ?_,
      by rw [indirectCost, if_neg hzero, Nat.add_zero]⟩
    exact fun x => ⟨Or.inl, fun hx => hx.elim id fun hz => absurd hz.1 hzero⟩

/-- The file system once the entry for block `k` in the indirect block has been stored. -/
def storeEntry (ip : Inode v) (k : ℕ) (addr : Word) (a : Block) (fs : Fs) : Fs :=
  fs.logWrite (ip.addrs (Fin.last _)).toNat (update a (Fin.ofNat _ (k - v.ndirect)) addr)

/-- Allocation of a block behind the indirect block. -/
theorem mapped_entry (h : Owned data fs ip) (hk : ¬k < v.ndirect)
    (hmax : k - v.ndirect < nindirect) (hlast : ptr fs ip none ≠ 0) (hzero : lookup fs ip k = 0)
     (ha : balloc fs = .ok (addr, fs')) :
    Mapped data k fs ip addr ip
        (storeEntry ip k addr (fs.blocks (ip.addrs (Fin.last _)).toNat) fs') ∧
      (free fs).card ≤
        (free (storeEntry ip k addr (fs.blocks (ip.addrs (Fin.last _)).toNat) fs')).card + 1 := by
  obtain ⟨halloc, hge⟩ := h.balloc_ok ha
  have hrange := h.ptr_range none hlast
  have hne : (ip.addrs (Fin.last _)).toNat ≠ fs.sb.bmapstart := by
    have := h.bitmap_lt
    have := hrange.1
    simp only [ptr] at this
    omega
  have hlast' : ip.addrs (Fin.last _) ≠ 0 := hlast
  have hblk : (storeEntry ip k addr (fs.blocks (ip.addrs (Fin.last _)).toNat) fs').blocks
      (ip.addrs (Fin.last _)).toNat =
        update (fs.blocks (ip.addrs (Fin.last _)).toNat)
          (Fin.ofNat _ (k - v.ndirect)) addr :=
    update_self ..
  have hnew : lookup (storeEntry ip k addr (fs.blocks (ip.addrs (Fin.last _)).toNat) fs') ip k =
      addr := by
    unfold lookup
    rw [if_neg hk, if_pos ⟨hmax, hlast'⟩, hblk]
    exact update_self ..
  have hothers : ∀ j, j ≠ k →
      lookup (storeEntry ip k addr (fs.blocks (ip.addrs (Fin.last _)).toNat) fs') ip j =
        lookup fs ip j := by
    intro j hj
    unfold lookup
    split_ifs with hjd hjm
    · rfl
    · rw [hblk]
      refine update_of_ne (fun he => hj ?_) ..
      have := congrArg Fin.val he
      simp only [Fin.ofNat, Nat.mod_eq_of_lt hjm.1, Nat.mod_eq_of_lt hmax] at this
      omega
    · rfl
  have hold : ∀ i, i ≠ some k →
      ptr (storeEntry ip k addr (fs.blocks (ip.addrs (Fin.last _)).toNat) fs') ip i =
        ptr fs ip i := by
    intro i hi
    cases i with
    | none => rfl
    | some j => exact hothers j fun he => hi (congrArg some he)
  have hused : ∀ x < fs.sb.size,
      (storeEntry ip k addr (fs.blocks (ip.addrs (Fin.last _)).toNat) fs').used x =
        (fs.used x || decide (x = addr.toNat)) := by
    intro x hx
    rw [← halloc.used x hx]
    exact used_logWrite (by rw [halloc.sb]; exact h.size_le) (by rw [halloc.sb]; exact hne) _
      (by rw [halloc.sb]; exact hx)
  have hfree : (free fs).card ≤
      (free (storeEntry ip k addr (fs.blocks (ip.addrs (Fin.last _)).toNat) fs')).card + 1 := by
    have hsize : fs'.sb.size ≤ bpb := by rw [halloc.sb]; exact h.size_le
    have hne' : (ip.addrs (Fin.last _)).toNat ≠ fs'.sb.bmapstart := by rw [halloc.sb]; exact hne
    rw [storeEntry, free_logWrite hsize hne', halloc.free_card]
  refine ⟨⟨h.insert (some k) halloc.sb rfl hge halloc.lt halloc.fresh hused hnew hold, halloc.sb,
    rfl, hnew, Alloc.ne_zero h hge, ?_, hothers, ?_⟩, hfree⟩
  · intro i hi
    refine hold i fun he => ?_
    rw [he] at hi
    exact hi hzero
  · intro x
    have hkd : v.ndirect ≤ k := Nat.le_of_not_lt hk
    simp only [storeEntry, logWrite, halloc.logged, List.mem_append, List.mem_cons,
      List.not_mem_nil, or_false, hzero, hkd, true_and, ptr, or_assoc]

theorem Loaded.mapped {ip1 : Inode v} {fs1 : Fs}
    (h : Loaded data fs ip ip1 fs1) (hk : ¬k < v.ndirect)
    (hm : Mapped data k fs1 ip1 addr ip' fs') :
    Mapped data k fs ip addr ip' fs' := by
  have hnone : ptr fs' ip' none = ptr fs1 ip1 none := hm.keeps none h.none_ne
  refine ⟨hm.owned, hm.sb.trans h.sb, ?_, hm.addr_eq, hm.addr_ne, ?_,
    fun j hj => (hm.others j hj).trans (h.some_eq j), ?_⟩
  · rw [hm.inode, h.inode]
  · intro i hi
    cases i with
    | none => exact hnone.trans (h.none_eq hi)
    | some j =>
      refine (hm.keeps (some j) ?_).trans (h.some_eq j)
      rwa [show ptr fs1 ip1 (some j) = ptr fs ip (some j) from h.some_eq j]
  · -- without an indirect block the file has no block `k`
    have hzero : ptr fs ip none = 0 → lookup fs ip k = 0 := by
      intro hz
      rw [lookup, if_neg hk, if_neg fun hc => hc.2 hz]
    intro x
    rw [hm.logged, h.logged, h.some_eq, h.sb, hnone]
    have hkd : v.ndirect ≤ k := Nat.le_of_not_lt hk
    constructor
    · rintro ((hx | ⟨hz, hx | hx⟩) | hx)
      · exact Or.inl hx
      · exact Or.inr ⟨hzero hz, Or.inl hx⟩
      · exact Or.inr ⟨hzero hz, Or.inr (Or.inr ⟨hkd, hx⟩)⟩
      · exact Or.inr hx
    · rintro (hx | hx)
      · exact Or.inl (Or.inl hx)
      · exact Or.inr hx

/-! ## Writing into a block of the file -/

section

variable (h : Owned data fs ip)

include h

/-- Writing into a block of the file changes none of its pointers. -/
theorem Owned.ptr_logWrite (k : ℕ) (blk : Block) (i : Option ℕ) :
    ptr (fs.logWrite (lookup fs ip k).toNat blk) ip i = ptr fs ip i := by
  have hblk : ip.addrs (Fin.last _) ≠ 0 →
      (fs.logWrite (lookup fs ip k).toNat blk).blocks (ip.addrs (Fin.last _)).toNat =
        fs.blocks (ip.addrs (Fin.last _)).toNat := by
    intro hlast
    refine Function.update_of_ne (fun he => ?_) ..
    have hsame : ptr fs ip none = ptr fs ip (some k) := BitVec.eq_of_toNat_eq he
    cases h.ptr_inj none (some k) hlast hsame
  cases i with
  | none => rfl
  | some j =>
    by_cases hj : j < v.ndirect
    · simp [ptr, lookup, hj]
    · exact lookup_indirect hj rfl hblk

/-- The data block that a pointer of the file names is not the bitmap. -/
theorem Owned.lookup_ne_bitmap {k : ℕ} (hk : lookup fs ip k ≠ 0) :
    (lookup fs ip k).toNat ≠ fs.sb.bmapstart := by
  have := (h.ptr_range (some k) hk).1
  have := h.bitmap_lt
  simp only [ptr] at *
  omega

theorem Owned.logWrite {k : ℕ} (hk : lookup fs ip k ≠ 0) (blk : Block) :
    Owned data (fs.logWrite (lookup fs ip k).toNat blk) ip := by
  have hused : ∀ x < fs.sb.size,
      (fs.logWrite (lookup fs ip k).toNat blk).used x = fs.used x :=
    fun x hx => used_logWrite h.size_le (h.lookup_ne_bitmap hk) blk hx
  refine ⟨h.size_le, h.data_le, h.bitmap_lt, h.iblock_lt, h.iblock_ne, ?_, ?_, ?_⟩
  · intro b hb
    rw [hused b (Nat.lt_of_lt_of_le hb h.data_le)]
    exact h.meta_used b hb
  · intro i hi
    rw [h.ptr_logWrite k] at hi ⊢
    obtain ⟨h1, h2, h3⟩ := h.ptr_range i hi
    exact ⟨h1, h2, by rw [hused _ h2, h3]⟩
  · intro i j hi he
    rw [h.ptr_logWrite k] at hi
    rw [h.ptr_logWrite k, h.ptr_logWrite k] at he
    exact h.ptr_inj i j hi he

end

/-- A block behind the indirect block can only be there with the indirect block. -/
theorem ptr_none_ne {k : ℕ} (hk : v.ndirect ≤ k) (h : lookup fs ip k ≠ 0) : ptr fs ip none ≠ 0 := by
  intro hz
  refine h ?_
  rw [lookup, if_neg (Nat.not_lt_of_le hk), if_neg fun hc => hc.2 hz]

/-! ## An empty disk -/

/-- A small disk with the layout of `mkfs`, on which only the blocks before the data region are in
    use, and an empty file on it. -/
def emptyDisk : Fs where
  sb := { size := 100, inodestart := 32, bmapstart := 58 }
  blocks b i := if b = 58 then (if i = 0 then 0xffffffff else if i = 1 then 0x07ffffff else 0) else 0
  logged := []

def emptyFile : Inode .p5 where
  inum := 2
  type := 2
  major := 0
  minor := 0
  nlink := 1
  uid := 0
  gid := 0
  mode := 0
  size := 0
  addrs _ := 0

theorem emptyFile_ptr (i : Option ℕ) : ptr emptyDisk emptyFile i = 0 := by
  cases i with
  | none => rfl
  | some k => simp [ptr, lookup, emptyFile]

set_option maxRecDepth 10000 in
theorem emptyFile_owned : Owned 59 emptyDisk emptyFile where
  size_le := by decide
  data_le := by decide
  bitmap_lt := by decide
  iblock_lt := by decide
  iblock_ne := by decide
  meta_used := by decide +kernel
  ptr_range i hi := absurd (emptyFile_ptr i) hi
  ptr_inj i j hi := absurd (emptyFile_ptr i) hi

end Fs

end Xv6
