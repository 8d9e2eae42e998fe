import Xv6.Fs.Blocks
import Mathlib.Order.Interval.Finset.Nat

set_option autoImplicit false

/-! # What a write to one file leaves alone

`Mapped` and `Written` say what `bmap` and the loop of `writei` do to the pointers of the file.
`Effect` says what they leave alone: pointers that were there, marks in the bitmap, and every block
in use that is not the file's. Also counted here is how many blocks `bmap` needs (`bmapCost`): none
for a block that is there, and one more than the block if the indirect block is missing. -/

namespace Xv6

open Function

namespace Fs

variable {v : FsBuild} {fs fs' fs'' : Fs} {ip ip' ip'' : Inode v} {data : ℕ} {addr : Word}

/-- From `fs` to `fs'` the file `ip`, now `ip'`, has only been given blocks that were free, and no
block in use has been written that is not the file's. -/
structure Effect (data : ℕ) (fs : Fs) (ip ip' : Inode v) (fs' : Fs) : Prop where
  owned : Owned data fs' ip'
  sb : fs'.sb = fs.sb
  inode : ip' = { ip with addrs := ip'.addrs }
  keeps : ∀ p, ptr fs ip p ≠ 0 → ptr fs' ip' p = ptr fs ip p
  fresh : ∀ p, ptr fs' ip' p ≠ ptr fs ip p → fs.used (ptr fs' ip' p).toNat = false
  used : ∀ b < fs.sb.size, fs.used b = true → fs'.used b = true
  frame : ∀ b < fs.sb.size, fs.used b = true → b ≠ fs.sb.bmapstart →
    (∀ p, ptr fs ip p ≠ 0 → (ptr fs ip p).toNat ≠ b) → fs'.blocks b = fs.blocks b

theorem Effect.refl (h : Owned data fs ip) : Effect data fs ip ip fs where
  owned := h
  sb := rfl
  inode := rfl
  keeps _ _ := rfl
  fresh _ hp := absurd rfl hp
  used _ _ hb := hb
  frame _ _ _ _ _ := rfl

/-- A pointer that was free before is not null, as block 0 is in use. -/
theorem Owned.ne_zero_of_fresh (h : Owned data fs ip) (hfresh : fs.used addr.toNat = false) :
    addr ≠ 0 := by
  rintro rfl
  have hused := h.meta_used 0 h.data_pos
  rw [show (0 : Word).toNat = 0 from rfl, hused] at hfresh
  cases hfresh

theorem Effect.trans (h0 : Owned data fs ip) (h : Effect data fs ip ip' fs')
    (h' : Effect data fs' ip' ip'' fs'') :
    Effect data fs ip ip'' fs'' := by
  refine ⟨h'.owned, h'.sb.trans h.sb, by rw [h'.inode, h.inode], fun p hp => ?_, fun p hp => ?_,
    fun b hb hu => h'.used b (h.sb ▸ hb) (h.used b hb hu), fun b hb hu hmap hnot => ?_⟩
  · have hp' := h.keeps p hp
    rw [h'.keeps p (by rw [hp']; exact hp), hp']
  · by_cases hsame : ptr fs' ip' p = ptr fs ip p
    · -- given by the second part, and free before that
      have hfresh := h'.fresh p fun he => hp (he.trans hsame)
      have hne := h.owned.ne_zero_of_fresh hfresh
      have hlt := (h'.owned.ptr_range p hne).2.1
      rw [h'.sb, h.sb] at hlt
      cases hu : fs.used (ptr fs'' ip'' p).toNat with
      | false => rfl
      | true =>
        rw [h.used _ hlt hu] at hfresh
        cases hfresh
    · have hfresh := h.fresh p hsame
      rwa [h'.keeps p (h0.ne_zero_of_fresh hfresh)]
  · rw [← h.frame b hb hu hmap hnot]
    refine h'.frame b (h.sb ▸ hb) (h.used b hb hu) (h.sb ▸ hmap) fun p hp he => ?_
    by_cases hsame : ptr fs' ip' p = ptr fs ip p
    · rw [hsame] at hp he
      exact hnot p hp he
    · have hfresh := h.fresh p hsame
      rw [he, hu] at hfresh
      cases hfresh

/-! ## `bmap` -/

/-- The blocks that `bmap` allocates for block `k` of the file. -/
def bmapCost (fs : Fs) (ip : Inode v) (k : ℕ) : ℕ :=
  if lookup fs ip k ≠ 0 then 0 else if k < v.ndirect then 1 else indirectCost ip + 1

/-- Allocation leaves the blocks in use alone. -/
theorem Alloc.in_use (ha : Alloc fs addr fs') {b : ℕ} (hb : b < fs.sb.size)
    (hu : fs.used b = true) :
    fs'.used b = true ∧ (b ≠ fs.sb.bmapstart → fs'.blocks b = fs.blocks b) := by
  refine ⟨by rw [ha.used b hb, hu, Bool.true_or], fun hmap => ha.frame b hmap ?_⟩
  rintro rfl
  rw [ha.fresh] at hu
  cases hu

/-- What `bmap` did, with the blocks that it took. -/
structure Maps (data k : ℕ) (fs : Fs) (ip : Inode v) (addr : Word) (ip' : Inode v)
    (fs' : Fs) : Prop where
  mapped : Mapped data k fs ip addr ip' fs'
  effect : Effect data fs ip ip' fs'
  cost : (free fs).card ≤ (free fs').card + bmapCost fs ip k
  indirect : indirectCost ip' = if lookup fs ip k = 0 ∧ v.ndirect ≤ k then 0 else indirectCost ip
  own : ∀ j, lookup fs ip j ≠ 0 → fs'.blocks (lookup fs ip j).toNat =
    fs.blocks (lookup fs ip j).toNat

variable {k : ℕ}

section

variable (h : Owned data fs ip)

include h

theorem Maps.refl (hk : lookup fs ip k ≠ 0) :
    Maps data k fs ip (lookup fs ip k) ip fs where
  mapped := .refl h hk
  effect := .refl h
  cost := Nat.le_add_right _ _
  indirect := by rw [if_neg fun hz => hk hz.1]
  own _ _ := rfl

theorem maps_direct (hk : k < v.ndirect) (hzero : ip.addrs (Fin.ofNat _ k) = 0)
    (ha : balloc fs = .ok (addr, fs')) :
    Maps data k fs ip addr { ip with addrs := update ip.addrs (Fin.ofNat _ k) addr } fs' := by
  have hm := mapped_direct h hk hzero ha
  have halloc := (h.balloc_ok ha).1
  have hlookup : lookup fs ip k = 0 := by rw [lookup, if_pos hk, hzero]
  have hlast : ptr fs' { ip with addrs := update ip.addrs (Fin.ofNat _ k) addr } none =
      ptr fs ip none :=
    update_of_ne (direct_ne_last hk).symm ..
  refine ⟨hm, ⟨hm.owned, hm.sb, rfl, hm.keeps, fun p hp => ?_, fun b hb hu => (halloc.in_use hb hu).1,
    fun b hb hu hmap _ => (halloc.in_use hb hu).2 hmap⟩, ?_, ?_,
      fun j hj => h.alloc_frame (i := some j) halloc hj⟩
  · cases p with
    | none => exact absurd hlast hp
    | some j =>
      by_cases hj : j = k
      · subst hj
        rw [show ptr fs' _ (some j) = addr from hm.addr_eq]
        exact halloc.fresh
      · exact absurd (hm.others j hj) hp
  · rw [halloc.free_card, bmapCost, if_neg (not_not.2 hlookup), if_pos hk]
  · rw [if_neg fun hz => Nat.not_le.2 hk hz.2]
    exact indirectCost_congr hlast

/-- The indirect block, once it is there. -/
theorem loadIndirect_effect (hl : Loaded data fs ip ip' fs')
    (hload : loadIndirect ip fs = .ok (ip', fs')) : Effect data fs ip ip' fs' := by
  unfold loadIndirect at hload
  split_ifs at hload with hzero
  · cases ha : balloc fs with
    | error e =>
      rw [ha] at hload
      cases hload
    | ok r =>
      rw [ha] at hload
      cases hload
      have halloc := (h.balloc_ok ha).1
      refine ⟨hl.owned, hl.sb, rfl, fun p hp => ?_, fun p hp => ?_,
        fun b hb hu => (halloc.in_use hb hu).1, fun b hb hu hmap _ => (halloc.in_use hb hu).2 hmap⟩
      · cases p with
        | none => exact absurd hzero hp
        | some j => exact hl.some_eq j
      · cases p with
        | none =>
          have hnone : ptr r.2 { ip with addrs := update ip.addrs (Fin.last _) r.1 } none = r.1 :=
            update_self ..
          rw [hnone]
          exact halloc.fresh
        | some j => exact absurd (hl.some_eq j) hp
  · cases hload
    exact .refl h

theorem loadIndirect_own (hload : loadIndirect ip fs = .ok (ip', fs')) {j : ℕ}
    (hj : lookup fs ip j ≠ 0) :
    fs'.blocks (lookup fs ip j).toNat = fs.blocks (lookup fs ip j).toNat := by
  unfold loadIndirect at hload
  split_ifs at hload
  · cases ha : balloc fs with
    | error e =>
      rw [ha] at hload
      cases hload
    | ok r =>
      rw [ha] at hload
      cases hload
      exact h.alloc_frame (i := some j) (h.balloc_ok ha).1 hj
  · cases hload
    rfl

theorem storeEntry_own {j : ℕ} (hlast : ptr fs ip none ≠ 0) (ha : balloc fs = .ok (addr, fs'))
    (hj : lookup fs ip j ≠ 0) (a : Block) :
    (storeEntry ip k addr a fs').blocks (lookup fs ip j).toNat =
      fs.blocks (lookup fs ip j).toNat := by
  refine Eq.trans (update_of_ne (fun he => ?_) ..) (h.alloc_frame (i := some j)
    (h.balloc_ok ha).1 hj)
  have hsame : ptr fs ip none = ptr fs ip (some j) := BitVec.eq_of_toNat_eq he.symm
  cases h.ptr_inj none (some j) hlast hsame

theorem maps_entry (hk : ¬k < v.ndirect) (hmax : k - v.ndirect < nindirect)
    (hlast : ptr fs ip none ≠ 0) (hzero : lookup fs ip k = 0) (ha : balloc fs = .ok (addr, fs')) :
    Effect data fs ip ip (storeEntry ip k addr (fs.blocks (ip.addrs (Fin.last _)).toNat) fs') := by
  have hm := (mapped_entry h hk hmax hlast hzero ha).1
  have halloc := (h.balloc_ok ha).1
  have hne : (ip.addrs (Fin.last _)).toNat ≠ fs.sb.bmapstart := by
    have := h.bitmap_lt
    have := (h.ptr_range none hlast).1
    simp only [ptr] at this
    omega
  have hsize : fs'.sb.size ≤ bpb := by rw [halloc.sb]; exact h.size_le
  refine ⟨hm.owned, hm.sb, rfl, hm.keeps, fun p hp => ?_, fun b hb hu => ?_,
    fun b hb hu hmap hnot => ?_⟩
  · cases p with
    | none => exact absurd rfl hp
    | some j =>
      by_cases hj : j = k
      · subst hj
        rw [show ptr _ ip (some j) = addr from hm.addr_eq]
        exact halloc.fresh
      · exact absurd (hm.others j hj) hp
  · rw [storeEntry,
      used_logWrite hsize (by rw [halloc.sb]; exact hne) _ (by rw [halloc.sb]; exact hb)]
    exact (halloc.in_use hb hu).1
  · rw [← (halloc.in_use hb hu).2 hmap]
    exact update_of_ne (fun he => hnot none hlast he.symm) ..

/-- `bmap` with as many free blocks as it needs. -/
theorem bmap_maps (hk : k < v.maxFile) (hfree : bmapCost fs ip k ≤ (free fs).card) :
    ∃ addr ip' fs', bmap ip k fs = .ok (addr, ip', fs') ∧ Maps data k fs ip addr ip' fs' := by
  unfold bmap
  split_ifs with hd hzero hmax
  · have hlookup : lookup fs ip k = 0 := by rw [lookup, if_pos hd, hzero]
    rw [bmapCost, if_neg (not_not.2 hlookup), if_pos hd] at hfree
    obtain ⟨addr, fs', ha⟩ := balloc_returns fs hfree
    exact ⟨addr, _, fs', by rw [ha]; rfl, maps_direct h hd hzero ha⟩
  · have hlookup : lookup fs ip k = ip.addrs (Fin.ofNat _ k) := by rw [lookup, if_pos hd]
    refine ⟨_, ip, fs, rfl, ?_⟩
    rw [← hlookup]
    exact .refl h (by rwa [hlookup])
  · have hkd : v.ndirect ≤ k := Nat.le_of_not_lt hd
    -- a block behind the indirect block comes with it
    have hcost : lookup fs ip k ≠ 0 → indirectCost ip = 0 := fun hne => if_neg (ptr_none_ne hkd hne)
    have hload : indirectCost ip ≤ (free fs).card := by
      by_cases hz : lookup fs ip k = 0
      · rw [bmapCost, if_neg (not_not.2 hz), if_neg hd] at hfree
        omega
      · rw [hcost hz]
        exact Nat.zero_le _
    obtain ⟨ip1, fs1, hload, hl⟩ := loadIndirect_spec h hload
    have heffect := loadIndirect_effect h hl hload
    have hentry : lookup fs1 ip1 k = (fs1.blocks (ip1.addrs (Fin.last _)).toNat).word
        (k - v.ndirect) := by
      rw [lookup, if_neg hd, if_pos ⟨hmax, hl.none_ne⟩]
    have hcost1 : indirectCost ip1 = 0 := if_neg hl.none_ne
    have hfree1 := hl.free
    simp only [hload, bind, Except.bind]
    rw [← hentry]
    split_ifs with hz
    · have hz0 : lookup fs ip k = 0 := (hl.some_eq k).symm.trans hz
      rw [bmapCost, if_neg (not_not.2 hz0), if_neg hd] at hfree
      obtain ⟨addr, fs2, ha⟩ := balloc_returns fs1 (by omega)
      obtain ⟨hm, hcard⟩ := mapped_entry hl.owned hd hmax hl.none_ne hz ha
      refine ⟨addr, ip1, _, by rw [ha]; rfl, hl.mapped hd hm,
        heffect.trans h (maps_entry hl.owned hd hmax hl.none_ne hz ha), ?_, ?_, fun j hj => ?_⟩
      · rw [bmapCost, if_neg (not_not.2 hz0), if_neg hd]
        omega
      · rw [hcost1, if_pos ⟨hz0, hkd⟩]
      · rw [← loadIndirect_own h hload hj, ← hl.some_eq j]
        exact storeEntry_own hl.owned hl.none_ne ha (by rwa [hl.some_eq j]) _
    · have hz0 : lookup fs ip k ≠ 0 := fun he => hz ((hl.some_eq k).trans he)
      refine ⟨_, ip1, fs1, rfl, hl.mapped hd (.refl hl.owned hz), heffect, ?_, ?_,
        fun j hj => loadIndirect_own h hload hj⟩
      · have := hcost hz0
        omega
      · rw [hcost1, if_neg fun he => hz0 he.1, hcost hz0]
  · unfold FsBuild.maxFile at hk
    omega

end

theorem balloc_fails (fs : Fs) (h : (free fs).card = 0) : balloc fs = .error .outOfBlocks := by
  unfold balloc
  cases hfind : (List.range fs.sb.size).find? fun b => !fs.used b with
  | none => rfl
  | some b =>
    have hlt : b < fs.sb.size := List.mem_range.1 (List.mem_of_find?_eq_some hfind)
    have hfree : fs.used b = false := by simpa using List.find?_some hfind
    have hmem : b ∈ free fs := Finset.mem_filter.2 ⟨Finset.mem_range.2 hlt, hfree⟩
    rw [Finset.card_eq_zero.1 h] at hmem
    cases hmem

/-- `bmap` with fewer free blocks. -/
theorem bmap_fails (h : Owned data fs ip) (hk : k < v.maxFile)
    (hfree : (free fs).card < bmapCost fs ip k) :
    bmap ip k fs = .error .outOfBlocks := by
  have hzero : lookup fs ip k = 0 := by
    by_contra hne
    rw [bmapCost, if_pos hne] at hfree
    omega
  rw [bmapCost, if_neg (not_not.2 hzero)] at hfree
  unfold bmap
  split_ifs with hd ha hmax
  · rw [if_pos hd] at hfree
    rw [balloc_fails fs (by omega)]
    rfl
  · rw [lookup, if_pos hd] at hzero
    exact absurd hzero ha
  · rw [if_neg hd] at hfree
    by_cases hload : indirectCost ip ≤ (free fs).card
    · obtain ⟨ip1, fs1, hok, hl⟩ := loadIndirect_spec h hload
      have hentry : (fs1.blocks (ip1.addrs (Fin.last _)).toNat).word (k - v.ndirect) = 0 := by
        rw [← hzero, ← hl.some_eq k, lookup, if_neg hd, if_pos ⟨hmax, hl.none_ne⟩]
      have hfree1 := hl.free
      simp only [hok, bind, Except.bind]
      rw [if_pos hentry, balloc_fails fs1 (by omega)]
    · -- there is none for the indirect block either
      have hone : indirectCost ip ≤ 1 := by
        unfold indirectCost
        split_ifs <;> omega
      have hlast : ip.addrs (Fin.last _) = 0 := by
        by_contra hne
        rw [indirectCost, if_neg hne] at hload
        omega
      rw [loadIndirect, if_pos hlast, balloc_fails fs (by omega)]
      rfl
  · unfold FsBuild.maxFile at hk
    omega

/-- Writing to a block of the file. -/
theorem Effect.logWrite (h : Owned data fs ip) (hk : lookup fs ip k ≠ 0) (blk : Block) :
    Effect data fs ip ip (fs.logWrite (lookup fs ip k).toNat blk) where
  owned := h.logWrite hk blk
  sb := rfl
  inode := rfl
  keeps p _ := h.ptr_logWrite k blk p
  fresh p hp := absurd (h.ptr_logWrite k blk p) hp
  used b hb hu := by rw [used_logWrite h.size_le (h.lookup_ne_bitmap hk) blk hb, hu]
  frame b _ _ _ hnot := update_of_ne (fun he => hnot (some k) hk he.symm) ..

/-! ## The blocks that a range needs -/

/-- The blocks that writing the blocks `K` of a file allocates. -/
def need (fs : Fs) (ip : Inode v) (K : Finset ℕ) : ℕ :=
  (K.filter fun k => lookup fs ip k = 0).card +
    if ∃ k ∈ K, v.ndirect ≤ k ∧ lookup fs ip k = 0 then indirectCost ip else 0

theorem need_singleton (fs : Fs) (ip : Inode v) (k : ℕ) : need fs ip {k} = bmapCost fs ip k := by
  unfold need bmapCost
  rw [Finset.filter_singleton]
  simp only [Finset.mem_singleton, exists_eq_left]
  by_cases hz : lookup fs ip k = 0
  · by_cases hd : k < v.ndirect
    · simp [hz, hd, Nat.not_le.2 hd]
    · simp [hz, hd, Nat.le_of_not_lt hd, Nat.add_comm]
  · rw [if_neg hz, if_neg fun he => hz he.2, if_pos hz]
    rfl

theorem need_congr {K : Finset ℕ} (h : ∀ k ∈ K, lookup fs' ip' k = lookup fs ip k) :
    need fs' ip' K = (K.filter fun k => lookup fs ip k = 0).card +
      if ∃ k ∈ K, v.ndirect ≤ k ∧ lookup fs ip k = 0 then indirectCost ip' else 0 := by
  unfold need
  congr 1
  · exact congrArg Finset.card (Finset.filter_congr fun k hk => by rw [h k hk])
  · refine if_congr (exists_congr fun k => and_congr_right fun hk => ?_) rfl rfl
    rw [h k hk]

/-- What the first block of a range costs and what the others need then is what all of them need. -/
theorem Maps.need {K : Finset ℕ} (h : Maps data k fs ip addr ip' fs') (hk : k ∉ K) :
    bmapCost fs ip k + need fs' ip' K ≤ Fs.need fs ip ({k} ∪ K) := by
  rw [need_congr fun j hj => h.mapped.others j fun he => hk (he ▸ hj), h.indirect, Fs.need,
    Finset.filter_union,
    Finset.card_union_of_disjoint (Finset.disjoint_filter_filter
      (Finset.disjoint_singleton_left.2 hk)),
    Finset.filter_singleton]
  have hmem : ∀ j, j ∈ ({k} ∪ K : Finset ℕ) ↔ j = k ∨ j ∈ K := by simp
  simp only [hmem, or_and_right, exists_or, exists_eq_left, bmapCost]
  by_cases hz : lookup fs ip k = 0
  · by_cases hd : v.ndirect ≤ k
    · simp only [hz, hd, Nat.not_lt.2 hd, ne_eq, not_true_eq_false, if_false, if_true,
        true_and, true_or, Finset.card_singleton, ite_self]
      omega
    · simp only [hz, hd, Nat.not_le.1 hd, ne_eq, not_true_eq_false, if_false, if_true, false_and,
        and_false, false_or, Finset.card_singleton]
      omega
  · simp only [hz, ne_eq, not_false_eq_true, if_true, if_false, false_and, and_false, false_or,
      Finset.card_empty]
    omega

theorem bmapCost_le_need (fs : Fs) (ip : Inode v) (k : ℕ) (K : Finset ℕ) :
    bmapCost fs ip k ≤ need fs ip ({k} ∪ K) := by
  by_cases hz : lookup fs ip k = 0
  · have hmem : k ∈ ({k} ∪ K : Finset ℕ).filter fun k => lookup fs ip k = 0 :=
      Finset.mem_filter.2 ⟨Finset.mem_union_left _ (Finset.mem_singleton_self k), hz⟩
    have hpos := Finset.card_pos.2 ⟨k, hmem⟩
    rw [bmapCost, if_neg (not_not.2 hz), need]
    by_cases hd : k < v.ndirect
    · rw [if_pos hd]
      omega
    · rw [if_neg hd,
        if_pos ⟨k, Finset.mem_union_left _ (Finset.mem_singleton_self k), Nat.le_of_not_lt hd, hz⟩]
      omega
  · rw [bmapCost, if_pos hz]
    exact Nat.zero_le _

/-- Writing to the block that `bmap` returned does not change what is needed. -/
theorem need_logWrite (h : Maps data k fs ip addr ip' fs') (blk : Block) (K : Finset ℕ) :
    need (fs'.logWrite addr.toNat blk) ip' K = need fs' ip' K := by
  obtain rfl := h.mapped.addr_eq
  exact need_congr fun j _ => h.mapped.owned.ptr_logWrite k blk (some j)

/-! ## The blocks that are logged -/

/-- The blocks of a file that a range of bytes touches. -/
def covered (off n : ℕ) : Finset ℕ :=
  if n = 0 then ∅ else Finset.Icc (off / bsize) ((off + n - 1) / bsize)

/-- What the loop of `writei` does to the blocks `K` of a file. -/
structure Written (data : ℕ) (K : Finset ℕ) (fs : Fs) (ip ip' : Inode v) (fs' : Fs) : Prop where
  owned : Owned data fs' ip'
  sb : fs'.sb = fs.sb
  inode : ip' = { ip with addrs := ip'.addrs }
  keeps : ∀ i, ptr fs ip i ≠ 0 → ptr fs' ip' i = ptr fs ip i
  others : ∀ j, j ∉ K → lookup fs' ip' j = lookup fs ip j
  mapped : ∀ k ∈ K, lookup fs' ip' k ≠ 0
  logged : ∀ x, x ∈ fs'.logged ↔ x ∈ fs.logged ∨ (∃ k ∈ K, x = (lookup fs' ip' k).toNat) ∨
    ∃ k ∈ K, lookup fs ip k = 0 ∧
      (x = fs.sb.bmapstart ∨ v.ndirect ≤ k ∧ x = (ptr fs' ip' none).toNat)

theorem Written.refl (h : Owned data fs ip) : Written data ∅ fs ip ip fs where
  owned := h
  sb := rfl
  inode := rfl
  keeps _ _ := rfl
  others _ _ := rfl
  mapped k hk := absurd hk (Finset.notMem_empty k)
  logged x := by simp

/-- One pass of the loop: `bmap`, and the `log_write` of the data block. -/
theorem Mapped.written {k : ℕ} {addr : Word} (h : Mapped data k fs ip addr ip' fs') (blk : Block) :
    Written data {k} fs ip ip' (fs'.logWrite addr.toNat blk) := by
  obtain rfl := h.addr_eq
  have hptr := h.owned.ptr_logWrite k blk
  have hlookup : ∀ j, lookup (fs'.logWrite (lookup fs' ip' k).toNat blk) ip' j = lookup fs' ip' j :=
    fun j => hptr (some j)
  refine ⟨h.owned.logWrite h.addr_ne blk, h.sb, h.inode, fun i hi => (hptr i).trans (h.keeps i hi),
    ?_, ?_, ?_⟩
  · intro j hj
    rw [hlookup]
    exact h.others j fun he => hj (Finset.mem_singleton.2 he)
  · intro j hj
    rw [Finset.mem_singleton.1 hj, hlookup]
    exact h.addr_ne
  · intro x
    simp only [Fs.logWrite, List.mem_append, List.mem_singleton, h.logged, Finset.mem_singleton,
      exists_eq_left]
    have hnone := hptr none
    simp only [Fs.logWrite] at hnone hlookup
    rw [hnone, hlookup]
    constructor
    · rintro ((hx | ⟨hz, hx | hx | hx⟩) | hx)
      · exact Or.inl hx
      · exact Or.inr (Or.inr ⟨hz, Or.inl hx⟩)
      · exact Or.inr (Or.inl hx)
      · exact Or.inr (Or.inr ⟨hz, Or.inr hx⟩)
      · exact Or.inr (Or.inl hx)
    · rintro (hx | hx | ⟨hz, hx | hx⟩)
      · exact Or.inl (Or.inl hx)
      · exact Or.inr hx
      · exact Or.inl (Or.inr ⟨hz, Or.inl hx⟩)
      · exact Or.inl (Or.inr ⟨hz, Or.inr (Or.inr hx)⟩)

theorem Written.trans {K K' : Finset ℕ} (h : Written data K fs ip ip' fs')
    (h' : Written data K' fs' ip' ip'' fs'') (hdisj : Disjoint K K') :
    Written data (K ∪ K') fs ip ip'' fs'' := by
  have hnot : ∀ {j}, j ∈ K' → j ∉ K := fun hj hj' => Finset.disjoint_left.1 hdisj hj' hj
  -- what the first part has mapped, the second part leaves alone
  have hkept : ∀ {k}, k ∈ K → lookup fs'' ip'' k = lookup fs' ip' k := fun hk =>
    h'.keeps (some _) (h.mapped _ hk)
  have hnone : ∀ {k}, k ∈ K → v.ndirect ≤ k → ptr fs'' ip'' none = ptr fs' ip' none :=
    fun hk hkd => h'.keeps none (ptr_none_ne hkd (h.mapped _ hk))
  refine ⟨h'.owned, h'.sb.trans h.sb, by rw [h'.inode, h.inode], ?_, ?_, ?_, ?_⟩
  · intro i hi
    have hi' := h.keeps i hi
    rw [h'.keeps i (by rw [hi']; exact hi), hi']
  · intro j hj
    rw [Finset.mem_union, not_or] at hj
    rw [h'.others j hj.2, h.others j hj.1]
  · intro k hk
    rcases Finset.mem_union.1 hk with hk | hk
    · rw [hkept hk]
      exact h.mapped k hk
    · exact h'.mapped k hk
  · intro x
    rw [h'.logged, h.logged, h.sb]
    constructor
    · rintro ((hx | ⟨k, hk, hx⟩ | ⟨k, hk, hz, hx⟩) | ⟨k, hk, hx⟩ | ⟨k, hk, hz, hx⟩)
      · exact Or.inl hx
      · exact Or.inr (Or.inl ⟨k, Finset.mem_union_left _ hk, by rw [hkept hk]; exact hx⟩)
      · refine Or.inr (Or.inr ⟨k, Finset.mem_union_left _ hk, hz, hx.imp id ?_⟩)
        rintro ⟨hkd, hx⟩
        exact ⟨hkd, by rw [hnone hk hkd]; exact hx⟩
      · exact Or.inr (Or.inl ⟨k, Finset.mem_union_right _ hk, hx⟩)
      · rw [h.others k (hnot hk)] at hz
        exact Or.inr (Or.inr ⟨k, Finset.mem_union_right _ hk, hz, hx⟩)
    · rintro (hx | ⟨k, hk, hx⟩ | ⟨k, hk, hz, hx⟩)
      · exact Or.inl (Or.inl hx)
      · rcases Finset.mem_union.1 hk with hk | hk
        · exact Or.inl (Or.inr (Or.inl ⟨k, hk, by rw [← hkept hk]; exact hx⟩))
        · exact Or.inr (Or.inl ⟨k, hk, hx⟩)
      · rcases Finset.mem_union.1 hk with hk | hk
        · refine Or.inl (Or.inr (Or.inr ⟨k, hk, hz, hx.imp id ?_⟩))
          rintro ⟨hkd, hx⟩
          exact ⟨hkd, by rw [← hnone hk hkd]; exact hx⟩
        · rw [← h.others k (hnot hk)] at hz
          exact Or.inr (Or.inr ⟨k, hk, hz, hx⟩)

/-- A pass of the loop takes the first block of the range off it. -/
theorem covered_step {off r m : ℕ} (hr : 0 < r) (hm : m = min r (bsize - off % bsize)) :
    covered off r = {off / bsize} ∪ covered (off + m) (r - m) ∧
      Disjoint {off / bsize} (covered (off + m) (r - m)) := by
  unfold covered
  simp only [bsize] at hm ⊢
  rw [if_neg (by omega)]
  by_cases hlast : r - m = 0
  · rw [if_pos hlast, Finset.union_empty, show (off + r - 1) / 512 = off / 512 by omega]
    exact ⟨Finset.Icc_self _, Finset.disjoint_empty_right _⟩
  · rw [if_neg hlast]
    constructor
    · ext k
      simp only [Finset.mem_union, Finset.mem_singleton, Finset.mem_Icc]
      omega
    · rw [Finset.disjoint_singleton_left, Finset.mem_Icc]
      omega

end Fs

end Xv6
