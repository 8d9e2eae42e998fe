import Xv6.Fs.Content

set_option autoImplicit false

/-! # The blocks that one operation of `filewrite` logs

A call of `writei` logs the data blocks of the range it writes, the bitmap if one of them has to be
allocated, the indirect block if one behind it has to be, and the block of the inode if the file
grows. The chunk of `filewrite` is computed from the size of the whole log, so these are up to
seventeen blocks, while `begin_op` reserves ten. -/

namespace Xv6

namespace Fs

variable {v : FsBuild} {fs fs' : Fs} {ip ip' : Inode v} {data : ℕ}

/-! ## Counting the logged blocks -/

/-- The blocks beside the data blocks that writing the blocks `K` of a file logs. -/
def allocCost (fs : Fs) (ip : Inode v) (K : Finset ℕ) : ℕ :=
  (if ∃ k ∈ K, lookup fs ip k = 0 then 1 else 0) +
    (if ∃ k ∈ K, v.ndirect ≤ k ∧ lookup fs ip k = 0 then 1 else 0)

theorem Written.card_logged {K : Finset ℕ} (h : Written data K fs ip ip' fs')
    (hstart : fs.logged = []) : fs'.logged.toFinset.card = K.card + allocCost fs ip K := by
  have hset : fs'.logged.toFinset = K.image (fun k => (lookup fs' ip' k).toNat) ∪
      ((if ∃ k ∈ K, lookup fs ip k = 0 then {fs.sb.bmapstart} else ∅) ∪
        if ∃ k ∈ K, v.ndirect ≤ k ∧ lookup fs ip k = 0 then {(ptr fs' ip' none).toNat} else ∅) := by
    ext x
    rw [List.mem_toFinset, h.logged, hstart]
    simp only [List.not_mem_nil, false_or, Finset.mem_union, Finset.mem_image, eq_comm (a := x)]
    refine or_congr Iff.rfl ?_
    constructor
    · rintro ⟨k, hk, hz, hx | ⟨hkd, hx⟩⟩
      · exact Or.inl (by rw [if_pos ⟨k, hk, hz⟩]; exact Finset.mem_singleton.2 hx.symm)
      · exact Or.inr (by rw [if_pos ⟨k, hk, hkd, hz⟩]; exact Finset.mem_singleton.2 hx.symm)
    · rintro (hx | hx)
      · split_ifs at hx with hc
        · obtain ⟨k, hk, hz⟩ := hc
          exact ⟨k, hk, hz, Or.inl (Finset.mem_singleton.1 hx).symm⟩
        · exact absurd hx (Finset.notMem_empty x)
      · split_ifs at hx with hc
        · obtain ⟨k, hk, hkd, hz⟩ := hc
          exact ⟨k, hk, hz, Or.inr ⟨hkd, (Finset.mem_singleton.1 hx).symm⟩⟩
        · exact absurd hx (Finset.notMem_empty x)
  have hinj : Set.InjOn (fun k => (lookup fs' ip' k).toNat) K := by
    intro j hj k _ he
    have := h.owned.ptr_inj (some j) (some k) (h.mapped j hj) (BitVec.eq_of_toNat_eq he)
    exact Option.some.inj this
  have hbitmap : fs.sb.bmapstart < data := by
    rw [← h.sb]
    exact h.owned.bitmap_lt
  -- an indirect block that is logged lies in the data region, and is no data block
  have hnone : ∀ {k}, k ∈ K → v.ndirect ≤ k → ptr fs' ip' none ≠ 0 := fun hk hkd =>
    ptr_none_ne hkd (h.mapped _ hk)
  rw [hset, Finset.card_union_of_disjoint, Finset.card_union_of_disjoint,
    Finset.card_image_of_injOn hinj, allocCost]
  · congr 1
    congr 1 <;> split_ifs <;> rfl
  · split_ifs with hA hI
    · obtain ⟨k, hk, hkd, _⟩ := hI
      have := (h.owned.ptr_range none (hnone hk hkd)).1
      rw [Finset.disjoint_singleton]
      omega
    · exact Finset.disjoint_empty_right _
    · exact Finset.disjoint_empty_left _
    · exact Finset.disjoint_empty_left _
  · rw [Finset.disjoint_left]
    intro x hx hx'
    obtain ⟨j, hj, rfl⟩ := Finset.mem_image.1 hx
    have hj' := (h.owned.ptr_range (some j) (h.mapped j hj)).1
    rcases Finset.mem_union.1 hx' with hx' | hx'
    · split_ifs at hx' with hc
      · have := Finset.mem_singleton.1 hx'
        simp only [ptr] at hj'
        omega
      · exact absurd hx' (Finset.notMem_empty _)
    · split_ifs at hx' with hc
      · obtain ⟨k, hk, hkd, _⟩ := hc
        have he : ptr fs' ip' none = ptr fs' ip' (some j) :=
          BitVec.eq_of_toNat_eq (Finset.mem_singleton.1 hx').symm
        cases h.owned.ptr_inj none (some j) (hnone hk hkd) he
      · exact absurd hx' (Finset.notMem_empty _)

/-- The loop does not log the block of the inode. -/
theorem Written.iblock_not_logged {K : Finset ℕ} (h : Written data K fs ip ip' fs')
    (hstart : fs.logged = []) : ip'.iblock fs'.sb ∉ fs'.logged := by
  intro hx
  have hlt := h.owned.iblock_lt
  rw [h.logged, hstart] at hx
  rcases hx with hx | ⟨k, hk, hx⟩ | ⟨k, hk, _, hx | ⟨hkd, hx⟩⟩
  · cases hx
  · have := (h.owned.ptr_range (some k) (h.mapped k hk)).1
    simp only [ptr] at this
    omega
  · exact h.owned.iblock_ne (by rw [hx, h.sb])
  · have := (h.owned.ptr_range none (ptr_none_ne hkd (h.mapped k hk))).1
    omega

/-- `writei` does not write: the inode is a device, or the range is refused. -/
def Refused (ip : Inode v) (off n : Word) : Prop :=
  ip.type = tDev ∨ (ip.size < off ∨ off + n < off) ∨ v.maxFile * bsize < (off + n).toNat

instance (ip : Inode v) (off n : Word) : Decidable (Refused ip off n) :=
  inferInstanceAs (Decidable (_ ∨ _))

/-- How many blocks `writei` logs: the data blocks, those that allocation needs, and the block of
    the inode if the file grows. -/
def logCost (fs : Fs) (ip : Inode v) (off n : ℕ) : ℕ :=
  (covered off n).card + allocCost fs ip (covered off n) +
    if ip.size.toNat < off + n then 1 else 0

theorem writei_refused (devsw : Devsw) {off n : Word} (h : Refused ip off n) (src : ℕ → BitVec 8)
    (fs : Fs) : ∃ r, writei devsw ip src off n fs = .ok (r, ip, fs) := by
  unfold writei
  by_cases hdev : ip.type = tDev
  · rw [if_pos hdev]
    split_ifs
    · exact ⟨_, rfl⟩
    · cases devsw ip.major.toNat with
      | some write => exact ⟨_, rfl⟩
      | none => exact ⟨_, rfl⟩
  · rw [if_neg hdev]
    rcases h with hdev' | hoff | hmax
    · exact absurd hdev' hdev
    · exact ⟨_, if_pos hoff⟩
    · split_ifs
      · exact ⟨_, rfl⟩
      · exact ⟨_, rfl⟩

theorem card_toFinset_snoc {l : List ℕ} {b : ℕ} (hb : b ∉ l) :
    (l ++ [b]).toFinset.card = l.toFinset.card + 1 := by
  rw [List.toFinset_append, Finset.card_union_of_disjoint]
  · simp
  · simpa using hb

theorem writei_logged (devsw : Devsw) {off n : Word} (h : Owned data fs ip)
    (hstart : fs.logged = []) (hok : ¬Refused ip off n)
    (hfree : need fs ip (covered off.toNat n.toNat) ≤ (free fs).card)
    (src : ℕ → BitVec 8) :
    ∃ r ip' fs', writei devsw ip src off n fs = .ok (r, ip', fs') ∧
      fs'.logged.toFinset.card = logCost fs ip off.toNat n.toNat := by
  simp only [Refused, not_or] at hok
  obtain ⟨hdev, hrange, hmax⟩ := hok
  have hadd : (off + n).toNat = off.toNat + n.toNat := by
    have hwrap := hrange.2
    rw [BitVec.lt_def, BitVec.toNat_add] at hwrap
    rw [BitVec.toNat_add]
    have := off.isLt
    have := n.isLt
    omega
  obtain ⟨ip', fs', hloop, -, hw⟩ := writeLoop_wrote src n.toNat n.toNat 0 off.toNat h (by omega)
    (Nat.zero_le _) (by omega) (by simpa using hfree)
  have hsize : ip'.size = ip.size := by rw [hw.inode]
  have hcard := hw.card_logged hstart
  simp only [Nat.sub_zero] at hcard hloop
  unfold writei
  rw [if_neg hdev, if_neg (not_or.2 hrange), if_neg hmax]
  simp only [hloop, bind, Except.bind, hsize]
  by_cases hgrow : ip.size.toNat < off.toNat + n.toNat
  · -- a range that ends behind the end of the file is not empty
    have hpos : 0 < n.toNat := by
      have := hrange.1
      rw [BitVec.lt_def] at this
      omega
    rw [if_pos ⟨hpos, hgrow⟩]
    refine ⟨_, _, _, rfl, ?_⟩
    refine (card_toFinset_snoc (hw.iblock_not_logged hstart)).trans ?_
    rw [hcard, logCost, if_pos hgrow]
  · rw [if_neg fun hc => hgrow hc.2]
    refine ⟨_, _, _, rfl, ?_⟩
    rw [hcard, logCost, if_neg hgrow, Nat.add_zero]

/-! ## The operations of `filewrite` -/

theorem chunk_toNat (n i : ℕ) : (BitVec.ofNat 32 (chunk n i)).toNat = chunk n i := by
  have hle : chunk n i ≤ maxChunk := Nat.min_le_right ..
  have : maxChunk < 2 ^ 32 := by decide
  rw [BitVec.toNat_ofNat, Nat.mod_eq_of_lt (by omega)]

theorem filewriteOp_ok {devsw : Devsw} {src : ℕ → BitVec 8} {n i : ℕ} {off : Word} {r : Int}
    (h : writei devsw ip (fun k => src (i + k)) off (BitVec.ofNat 32 (chunk n i))
      { fs with logged := [] } = .ok (r, ip', fs')) :
    filewriteOp devsw src n i off ip fs =
      .ok (r, if 0 < r then off + BitVec.ofInt 32 r else off, ip', fs') := by
  simp only [filewriteOp, h, bind, Except.bind]

/-- An operation of `filewrite` that `writei` does not refuse logs as many blocks as it costs. -/
theorem filewriteOp_logged (devsw : Devsw) (src : ℕ → BitVec 8) (n i : ℕ) (off : Word)
    (h : Owned data fs ip) (hok : ¬Refused ip off (BitVec.ofNat 32 (chunk n i)))
    (hfree : need fs ip (covered off.toNat (chunk n i)) ≤ (free fs).card) :
    ∃ r off' ip' fs', filewriteOp devsw src n i off ip fs = .ok (r, off', ip', fs') ∧
      fs'.logged.toFinset.card = logCost fs ip off.toNat (chunk n i) := by
  have hstart : Owned data { fs with logged := [] } ip :=
    ⟨h.size_le, h.data_le, h.bitmap_lt, h.iblock_lt, h.iblock_ne, h.meta_used, h.ptr_range,
      h.ptr_inj⟩
  obtain ⟨r, ip', fs', hw, hcard⟩ := writei_logged devsw hstart rfl hok
    (by rwa [chunk_toNat]) (fun k => src (i + k))
  rw [chunk_toNat] at hcard
  exact ⟨r, _, ip', fs', filewriteOp_ok hw, hcard⟩

/-- For every file of a disk with one bitmap block, every offset and every length: an operation of
    `filewrite` that finds enough free blocks returns, and stays within the reservation of
    `begin_op` exactly if `writei` refuses the range or the blocks it has to log are at most that
    many. -/
theorem filewriteOp_reservation (devsw : Devsw) (src : ℕ → BitVec 8) (n i : ℕ) (off : Word)
    (h : Owned data fs ip) (hfree : Refused ip off (BitVec.ofNat 32 (chunk n i)) ∨
      need fs ip (covered off.toNat (chunk n i)) ≤ (free fs).card) :
    ∃ r off' ip' fs', filewriteOp devsw src n i off ip fs = .ok (r, off', ip', fs') ∧
      (fs'.logged.toFinset.card ≤ maxOpBlocks ↔
        Refused ip off (BitVec.ofNat 32 (chunk n i)) ∨
          logCost fs ip off.toNat (chunk n i) ≤ maxOpBlocks) := by
  by_cases href : Refused ip off (BitVec.ofNat 32 (chunk n i))
  · obtain ⟨r, hw⟩ := writei_refused devsw href (fun k => src (i + k)) { fs with logged := [] }
    exact ⟨r, _, ip, _, filewriteOp_ok hw, iff_of_true (Nat.zero_le _) (Or.inl href)⟩
  · obtain ⟨r, off', ip', fs', hop, hcard⟩ :=
      filewriteOp_logged devsw src n i off h href (hfree.resolve_left href)
    refine ⟨r, off', ip', fs', hop, ?_⟩
    rw [hcard]
    exact ⟨Or.inr, fun hc => hc.resolve_left href⟩

set_option maxRecDepth 10000 in
/-- Writing one block of the file logs its block, the bitmap and the block of the inode. -/
theorem filewriteOp_reservation_oneBlock : ∃ r off' ip' fs',
    filewriteOp (fun _ => none) (fun _ => 65) 512 0 0 emptyFile emptyDisk =
      .ok (r, off', ip', fs') ∧ fs'.logged.toFinset.card ≤ maxOpBlocks := by
  obtain ⟨r, off', ip', fs', hop, hiff⟩ := filewriteOp_reservation (fun _ => none) (fun _ => 65)
    512 0 0 emptyFile_owned (Or.inr (by decide +kernel))
  exact ⟨r, off', ip', fs', hop, hiff.2 (Or.inr (by decide +kernel))⟩

set_option maxRecDepth 10000 in
/-- A full chunk at the beginning of the file: thirteen data blocks, the indirect block, the bitmap
    and the block of the inode. -/
theorem filewriteOp_overruns : ∃ r off' ip' fs',
    filewriteOp (fun _ => none) (fun _ => 65) 6656 0 0 emptyFile emptyDisk =
      .ok (r, off', ip', fs') ∧ fs'.logged.toFinset.card = 16 ∧
      ¬fs'.logged.toFinset.card ≤ maxOpBlocks := by
  obtain ⟨r, off', ip', fs', hop, hcard⟩ := filewriteOp_logged (fun _ => none) (fun _ => 65)
    6656 0 0 emptyFile_owned (by decide) (by decide +kernel)
  rw [show logCost emptyDisk emptyFile (0 : Word).toNat (chunk 6656 0) = 16 by decide +kernel]
    at hcard
  exact ⟨r, off', ip', fs', hop, hcard, by rw [hcard]; decide⟩

end Fs

end Xv6
