import Xv6.Fs.Effect

set_option autoImplicit false

/-! # Files are byte arrays (`readi` and `writei` of `fs.c`)

The content of a file is the first `size` bytes of its blocks. In a well-formed file system all of
these blocks are there, and no block belongs to two inodes. Then `readi` returns a slice of the
content, and `writei` replaces a part of it, extends it if need be, and leaves the contents of all
other inodes as they are. -/

namespace Xv6

open Function

namespace Block

/-- The bytes of a word that has been put together from bytes. -/
theorem extractLsb'_bytes (b : ℕ → BitVec 8) {j : ℕ} (hj : j < 4) :
    BitVec.extractLsb' (8 * j) 8 (b 3 ++ b 2 ++ b 1 ++ b 0) = b j := by
  ext x hx
  rw [BitVec.getElem_extractLsb', BitVec.getLsbD_append, BitVec.getLsbD_append,
    BitVec.getLsbD_append]
  obtain rfl | rfl | rfl | rfl : j = 0 ∨ j = 1 ∨ j = 2 ∨ j = 3 := by omega
  · rw [if_pos (by omega), show 8 * 0 + x = x by omega, BitVec.getLsbD_eq_getElem hx]
  · rw [if_neg (by omega), if_pos (by omega), show 8 * 1 + x - 8 = x by omega,
      BitVec.getLsbD_eq_getElem hx]
  · rw [if_neg (by omega), if_neg (by omega), if_pos (by omega),
      show 8 * 2 + x - 8 - 8 = x by omega, BitVec.getLsbD_eq_getElem hx]
  · rw [if_neg (by omega), if_neg (by omega), if_neg (by omega),
      show 8 * 3 + x - 8 - 8 - 8 = x by omega, BitVec.getLsbD_eq_getElem hx]

theorem byte_copyIn (blk : Block) (o m : ℕ) (src : ℕ → BitVec 8) {i : ℕ} (hi : i < bsize) :
    (blk.copyIn o m src).byte i = if o ≤ i ∧ i < o + m then src (i - o) else blk.byte i := by
  have hw : i / 4 < blockWords := by
    simp only [bsize, blockWords] at *
    omega
  have hword : ((Fin.ofNat blockWords (i / 4)).val) = i / 4 := Nat.mod_eq_of_lt hw
  have hbytes := extractLsb'_bytes (fun j =>
    if o ≤ 4 * (i / 4) + j ∧ 4 * (i / 4) + j < o + m then src (4 * (i / 4) + j - o)
      else blk.byte (4 * (i / 4) + j))
    (Nat.mod_lt i (by decide : 0 < 4))
  rw [Nat.div_add_mod i 4] at hbytes
  rw [← hbytes, Block.byte, Block.word, Block.copyIn, hword]

end Block

namespace Fs

variable {v : FsBuild} {fs fs' fs'' : Fs} {ip ip' ip'' : Inode v} {data : ℕ} {addr : Word}

/-! ## Reading -/

/-- The loop of `readi`, with the bytes that it copies. -/
def readLoop (n : ℕ) : ℕ → (tot off : ℕ) → Inode v → Fs → Except FsPanic (List Byte × Inode v × Fs)
  | 0, _, _, ip, fs => .ok ([], ip, fs)
  | fuel + 1, tot, off, ip, fs =>
    if tot < n then do
      let (addr, ip, fs) ← bmap ip (off / bsize) fs
      let m := min (n - tot) (bsize - off % bsize)
      let bytes := (List.range m).map fun k => (fs.blocks addr.toNat).byte (off % bsize + k)
      let (rest, ip, fs) ← readLoop n fuel (tot + m) (off + m) ip fs
      .ok (bytes ++ rest, ip, fs)
    else .ok ([], ip, fs)

/-- The functions that `devsw` has for reading. -/
abbrev DevswRead := ℕ → Option (Word → Int × List Byte)

/-- `readi`, with the bytes that it copies to `dst`. -/
def readi (devsw : DevswRead) (ip : Inode v) (off n : Word) (fs : Fs) :
    Except FsPanic (Int × List Byte × Inode v × Fs) :=
  if ip.type = tDev then
    if ip.major.toInt < 0 ∨ ndev ≤ ip.major.toInt then .ok (-1, [], ip, fs)
    else
      match devsw ip.major.toNat with
      | some read => .ok ((read n).1, (read n).2, ip, fs)
      | none => .ok (-1, [], ip, fs)
  else if ip.size < off ∨ off + n < off then .ok (-1, [], ip, fs)
  else do
    let n := if ip.size < off + n then ip.size - off else n
    let (bytes, ip, fs) ← readLoop n.toNat n.toNat 0 off.toNat ip fs
    .ok (n.toInt, bytes, ip, fs)

/-! ## Contents -/

/-- Byte `x` of a file. -/
def fileByte (fs : Fs) (ip : Inode v) (x : ℕ) : Byte :=
  (fs.blocks (lookup fs ip (x / bsize)).toNat).byte (x % bsize)

/-- The first `size` bytes of the file's blocks. -/
def content (fs : Fs) (ip : Inode v) : List Byte := (List.range ip.size.toNat).map (fileByte fs ip)

theorem length_content (fs : Fs) (ip : Inode v) : (content fs ip).length = ip.size.toNat := by
  simp [content]

/-- `bmap` on a block that is there changes nothing. -/
theorem bmap_of_lookup {k : ℕ} (hk : lookup fs ip k ≠ 0) :
    bmap ip k fs = .ok (lookup fs ip k, ip, fs) := by
  unfold bmap lookup at *
  by_cases hd : k < v.ndirect
  · rw [if_pos hd] at hk
    rw [if_pos hd, if_neg hk, if_pos hd]
  · rw [if_neg hd] at hk ⊢
    split_ifs at hk with hmax
    · rw [if_pos hmax.1, loadIndirect, if_neg hmax.2, if_neg hd, if_pos hmax]
      simp only [bind, Except.bind]
      rw [if_neg hk]
    · exact absurd rfl hk

theorem readLoop_content (fs : Fs) (ip : Inode v) (n : ℕ) :
    ∀ (fuel tot off : ℕ), n ≤ tot + fuel → tot ≤ n →
    (∀ k, off ≤ k → k < off + (n - tot) → lookup fs ip (k / bsize) ≠ 0) →
    readLoop n fuel tot off ip fs = .ok ((List.range (n - tot)).map fun k => fileByte fs ip (off + k), ip, fs) := by
  intro fuel
  induction fuel with
  | zero =>
    intro tot off hfuel htot _
    rw [show n - tot = 0 by omega]
    rfl
  | succ fuel ih =>
    intro tot off hfuel htot hmapped
    rw [readLoop]
    by_cases hlt : tot < n
    · rw [if_pos hlt, bmap_of_lookup (hmapped off (Nat.le_refl off) (by omega))]
      obtain ⟨m, hm⟩ : ∃ m, m = min (n - tot) (bsize - off % bsize) := ⟨_, rfl⟩
      have hmod : off % bsize < bsize := Nat.mod_lt _ (by decide)
      have hrest := ih (tot + m) (off + m) (by omega) (by omega) fun k hlo hhi =>
        hmapped k (by omega) (by omega)
      simp only [bind, Except.bind, ← hm]
      rw [hrest]
      dsimp only
      have hsplit : n - tot = m + (n - (tot + m)) := by omega
      rw [hsplit, List.range_add, List.map_append, List.map_map]
      congr 3
      · refine List.map_congr_left fun k hk => ?_
        rw [List.mem_range] at hk
        have hdiv : (off + k) / bsize = off / bsize := by
          simp only [bsize] at hm hmod ⊢
          omega
        have hmod' : (off + k) % bsize = off % bsize + k := by
          simp only [bsize] at hm hmod ⊢
          omega
        rw [fileByte, hdiv, hmod']
      · refine List.map_congr_left fun k _ => ?_
        rw [Function.comp_apply, Nat.add_assoc]
    · rw [if_neg hlt, show n - tot = 0 by omega]
      rfl

/-! ## Writing -/

/-- The bytes from `off` on have been written. -/
structure Wrote (data off n : ℕ) (src : ℕ → Byte) (fs : Fs) (ip ip' : Inode v)
    (fs' : Fs) : Prop where
  effect : Effect data fs ip ip' fs'
  mapped : ∀ x, off ≤ x → x < off + n → lookup fs' ip' (x / bsize) ≠ 0
  inside : ∀ x, off ≤ x → x < off + n → fileByte fs' ip' x = src (x - off)
  outside : ∀ x, ¬(off ≤ x ∧ x < off + n) → lookup fs ip (x / bsize) ≠ 0 →
    fileByte fs' ip' x = fileByte fs ip x

theorem Wrote.refl (h : Owned data fs ip) (off : ℕ) (src : ℕ → Byte) :
    Wrote data off 0 src fs ip ip fs where
  effect := .refl h
  mapped _ hlo hhi := absurd hlo (Nat.not_le.2 hhi)
  inside _ hlo hhi := absurd hlo (Nat.not_le.2 hhi)
  outside _ _ _ := rfl

variable {ninodes i : ℕ} {src : ℕ → Byte}

/-- Two parts of a range, one after the other. -/
theorem Wrote.trans {off m r : ℕ} (h0 : Owned data fs ip) (h : Wrote data off m src fs ip ip' fs')
    (h' : Wrote data (off + m) r (fun k => src (m + k)) fs' ip' ip'' fs'') :
    Wrote data off (m + r) src fs ip ip'' fs'' := by
  have hkeep : ∀ x, lookup fs' ip' (x / bsize) ≠ 0 →
      lookup fs'' ip'' (x / bsize) = lookup fs' ip' (x / bsize) :=
    fun x hx => h'.effect.keeps (some _) hx
  refine ⟨h.effect.trans h0 h'.effect, fun x hlo hhi => ?_, fun x hlo hhi => ?_,
    fun x hx hold => ?_⟩
  · by_cases hxm : x < off + m
    · have hmap := h.mapped x hlo hxm
      rwa [hkeep x hmap]
    · exact h'.mapped x (by omega) (by omega)
  · by_cases hxm : x < off + m
    · rw [h'.outside x (by omega) (h.mapped x hlo hxm), h.inside x hlo hxm]
    · rw [h'.inside x (by omega) (by omega)]
      congr 1
      omega
  · have hkept : lookup fs' ip' (x / bsize) = lookup fs ip (x / bsize) :=
      h.effect.keeps (some _) hold
    rw [h'.outside x (by omega) (by rwa [hkept]), h.outside x (by omega) hold]

/-- One round of the loop of `writei`, which stays in one block. -/
theorem Maps.wrote {off m : ℕ} (h0 : Owned data fs ip)
    (h : Maps data (off / bsize) fs ip addr ip' fs')
    (hm : m ≤ bsize - off % bsize) (src : ℕ → Byte) :
    Wrote data off m src fs ip ip'
      (fs'.logWrite addr.toNat ((fs'.blocks addr.toNat).copyIn (off % bsize) m src)) := by
  obtain rfl := h.mapped.addr_eq
  have howned := h.mapped.owned
  have hne := h.mapped.addr_ne
  have hblock : ∀ x, off ≤ x → x < off + m → x / bsize = off / bsize := by
    intro x hlo hhi
    have hmod : off % bsize < bsize := Nat.mod_lt _ (by decide)
    simp only [bsize] at hm hmod ⊢
    omega
  obtain ⟨blk, hblk⟩ : ∃ blk, blk = (fs'.blocks (lookup fs' ip' (off / bsize)).toNat).copyIn
    (off % bsize) m src :=
    ⟨_, rfl⟩
  rw [← hblk]
  have hlookup : ∀ k, lookup (fs'.logWrite (lookup fs' ip' (off / bsize)).toNat blk) ip' k =
      lookup fs' ip' k :=
    fun k => howned.ptr_logWrite _ blk (some k)
  -- the bytes of the block that is written
  have hsame : ∀ x, x / bsize = off / bsize →
      fileByte (fs'.logWrite (lookup fs' ip' (off / bsize)).toNat blk) ip' x =
        if off ≤ x ∧ x < off + m then src (x - off) else fileByte fs' ip' x := by
    intro x hx
    have hmod : x % bsize < bsize := Nat.mod_lt _ (by decide)
    have hiff : (off % bsize ≤ x % bsize ∧ x % bsize < off % bsize + m) ↔
        (off ≤ x ∧ x < off + m) := by
      simp only [bsize] at hx ⊢
      omega
    have hsub : x % bsize - off % bsize = x - off := by
      simp only [bsize] at hx ⊢
      omega
    rw [fileByte, fileByte, hlookup, hx, logWrite]
    dsimp only
    rw [update_self, hblk, Block.byte_copyIn _ _ _ _ hmod, hsub]
    exact if_congr hiff rfl rfl
  -- what was in the file's blocks before `bmap`
  have hold : ∀ x, lookup fs ip (x / bsize) ≠ 0 → fileByte fs' ip' x = fileByte fs ip x := by
    intro x hx
    have hkept : lookup fs' ip' (x / bsize) = lookup fs ip (x / bsize) := h.effect.keeps (some _) hx
    rw [fileByte, fileByte, hkept, h.own _ hx]
  refine ⟨h.effect.trans h0 (.logWrite howned hne blk), fun x hlo hhi => ?_, fun x hlo hhi => ?_,
    fun x hx hmap => ?_⟩
  · rw [hlookup, hblock x hlo hhi]
    exact hne
  · rw [hsame x (hblock x hlo hhi), if_pos ⟨hlo, hhi⟩]
  · rw [← hold x hmap]
    by_cases hk : x / bsize = off / bsize
    · rw [hsame x hk, if_neg hx]
    · have hmap' : lookup fs' ip' (x / bsize) ≠ 0 := by
        rw [show lookup fs' ip' (x / bsize) = lookup fs ip (x / bsize) from h.effect.keeps
          (some _) hmap]
        exact hmap
      rw [fileByte, fileByte, hlookup]
      congr 1
      refine update_of_ne (fun he => hk ?_) ..
      have hinj :=
        howned.ptr_inj (some (x / bsize)) (some (off / bsize)) hmap' (BitVec.eq_of_toNat_eq he)
      exact Option.some.inj hinj

/-- The loop of `writei` writes every block of its range. -/
theorem writeLoop_wrote (src : ℕ → Byte) (n : ℕ) : ∀ (fuel tot off : ℕ) {ip : Inode v} {fs : Fs},
    Owned data fs ip → n ≤ tot + fuel → tot ≤ n → off + (n - tot) ≤ v.maxFile * bsize →
    need fs ip (covered off (n - tot)) ≤ (free fs).card →
    ∃ ip' fs', writeLoop src n fuel tot off ip fs = .ok (off + (n - tot), ip', fs') ∧
      Wrote data off (n - tot) (fun k => src (tot + k)) fs ip ip' fs' ∧
      Written data (covered off (n - tot)) fs ip ip' fs' := by
  intro fuel
  induction fuel with
  | zero =>
    intro tot off ip fs h hfuel htot _ _
    rw [show n - tot = 0 by omega]
    exact ⟨ip, fs, rfl, .refl h off _, .refl h⟩
  | succ fuel ih =>
    intro tot off ip fs h hfuel htot hmax hfree
    rw [writeLoop]
    by_cases hlt : tot < n
    · rw [if_pos hlt]
      obtain ⟨m, hm⟩ : ∃ m, m = min (n - tot) (bsize - off % bsize) := ⟨_, rfl⟩
      have hmod : off % bsize < bsize := Nat.mod_lt _ (by decide)
      obtain ⟨hcov, hdisj⟩ := covered_step (by omega) hm
      have hk : off / bsize < v.maxFile := by
        rw [Nat.div_lt_iff_lt_mul (by decide)]
        omega
      have hnot : off / bsize ∉ covered (off + m) (n - tot - m) :=
        Finset.disjoint_singleton_left.1 hdisj
      -- `bmap` needs no more than the whole range
      have hcost : bmapCost fs ip (off / bsize) ≤ (free fs).card := by
        refine Nat.le_trans ?_ hfree
        rw [hcov]
        exact bmapCost_le_need fs ip _ _
      obtain ⟨addr, ip1, fs1, hbmap, hmap⟩ := bmap_maps h hk hcost
      simp only [hbmap, bind, Except.bind, ← hm]
      obtain ⟨data1, hdata1⟩ : ∃ blk, blk = (fs1.blocks addr.toNat).copyIn (off % bsize) m
        (fun k => src (tot + k)) :=
        ⟨_, rfl⟩
      have hw := hmap.wrote h (m := m) (by omega) fun k => src (tot + k)
      rw [← hdata1] at hw ⊢
      have hneed := hmap.need hnot
      have hfree1 := hmap.cost
      have hbitmap : addr.toNat ≠ fs1.sb.bmapstart := by
        have hne := hmap.mapped.owned.lookup_ne_bitmap
          (by rw [hmap.mapped.addr_eq]; exact hmap.mapped.addr_ne)
        rwa [hmap.mapped.addr_eq] at hne
      have hneed1 : need (fs1.logWrite addr.toNat data1) ip1 (covered (off + m) (n - (tot + m))) ≤
          (free (fs1.logWrite addr.toNat data1)).card := by
        rw [free_logWrite hmap.mapped.owned.size_le hbitmap, need_logWrite hmap, Nat.sub_add_eq]
        rw [hcov] at hfree
        omega
      obtain ⟨ip2, fs2, hloop, hw', hlog'⟩ := ih (tot + m) (off + m) hw.effect.owned (by omega)
        (by omega) (by omega) hneed1
      refine ⟨ip2, fs2, ?_, ?_, ?_⟩
      · rw [hloop, show off + m + (n - (tot + m)) = off + (n - tot) by omega]
      · have hall := hw.trans h (r := n - (tot + m)) (by simpa only [Nat.add_assoc] using hw')
        rwa [show m + (n - (tot + m)) = n - tot by omega] at hall
      · rw [Nat.sub_sub] at hcov hdisj
        rw [hcov]
        exact (hmap.mapped.written data1).trans hlog' hdisj
    · rw [if_neg hlt, show n - tot = 0 by omega]
      exact ⟨ip, fs, rfl, .refl h off _, .refl h⟩

/-! ## The other inodes -/

/-- What holds of an inode none of whose blocks has been written. -/
structure Same (data : ℕ) (fs fs' : Fs) (jp : Inode v) : Prop where
  owned : Owned data fs' jp
  ptr : ∀ p, Fs.ptr fs' jp p = Fs.ptr fs jp p
  bytes : ∀ x, lookup fs jp (x / bsize) ≠ 0 → fileByte fs' jp x = fileByte fs jp x

variable {jp : Inode v}

theorem Owned.same (h : Owned data fs jp) (hsb : fs'.sb = fs.sb)
    (hused : ∀ b < fs.sb.size, fs.used b = true → fs'.used b = true)
    (hblocks : ∀ p, ptr fs jp p ≠ 0 →
      fs'.blocks (ptr fs jp p).toNat = fs.blocks (ptr fs jp p).toNat) :
    Same data fs fs' jp := by
  have hptr : ∀ p, ptr fs' jp p = ptr fs jp p := by
    intro p
    cases p with
    | none => rfl
    | some k =>
      by_cases hk : k < v.ndirect
      · simp [ptr, lookup, hk]
      · exact lookup_indirect hk rfl fun hlast => hblocks none hlast
  refine ⟨⟨hsb ▸ h.size_le, hsb ▸ h.data_le, hsb ▸ h.bitmap_lt, hsb ▸ h.iblock_lt, hsb ▸ h.iblock_ne,
    fun b hb => hused b (Nat.lt_of_lt_of_le hb h.data_le) (h.meta_used b hb), fun p hp => ?_,
      fun p q hp he => ?_⟩,
    hptr, fun x hx => ?_⟩
  · rw [hptr p] at hp ⊢
    obtain ⟨hge, hlt, hu⟩ := h.ptr_range p hp
    exact ⟨hge, hsb ▸ hlt, hused _ hlt hu⟩
  · rw [hptr p] at hp he
    rw [hptr q] at he
    exact h.ptr_inj p q hp he
  · rw [fileByte, fileByte, show lookup fs' jp (x / bsize) =
      lookup fs jp (x / bsize) from hptr (some _)]
    exact congrArg (fun blk : Block => blk.byte (x % bsize)) (hblocks (some _) hx)

theorem Same.trans (h : Same data fs fs' jp) (h' : Same data fs' fs'' jp) :
    Same data fs fs'' jp := by
  refine ⟨h'.owned, fun p => (h'.ptr p).trans (h.ptr p), fun x hx => ?_⟩
  have hx' : lookup fs' jp (x / bsize) ≠ 0 := by
    rw [show lookup fs' jp (x / bsize) = lookup fs jp (x / bsize) from h.ptr (some _)]
    exact hx
  rw [h'.bytes x hx', h.bytes x hx]

/-- Another inode while one is written to. -/
theorem Effect.same (h : Effect data fs ip ip' fs') (hj : Owned data fs jp)
    (hapart : ∀ p q, ptr fs ip p ≠ 0 → ptr fs ip p ≠ ptr fs jp q) : Same data fs fs' jp := by
  refine hj.same h.sb h.used fun p hp => ?_
  obtain ⟨hge, hlt, hu⟩ := hj.ptr_range p hp
  refine h.frame _ hlt hu (by have := hj.bitmap_lt; omega) fun q hq he => ?_
  exact hapart q p hq (BitVec.eq_of_toNat_eq he)

/-- `iupdate` writes to a block of inodes only. -/
theorem Owned.iupdate (hi : Owned data fs ip) (hj : Owned data fs jp) :
    Same data fs (iupdate ip fs) jp := by
  refine hj.same rfl (fun b hb hu => ?_) fun p hp => ?_
  · unfold Fs.iupdate
    rw [used_logWrite hi.size_le hi.iblock_ne _ hb, hu]
  · refine update_of_ne (fun he => ?_) ..
    have hge := (hj.ptr_range p hp).1
    have hlt := hi.iblock_lt
    omega

/-- Word `w` of the inode numbered `j`, on the disk. -/
def onDisk (fs : Fs) (j w : ℕ) : Word :=
  (fs.blocks (j / ipb + fs.sb.inodestart)).word (j % ipb * dinodeWords + w)

theorem onDisk_iupdate {j w : ℕ} (hne : j ≠ ip.inum) (hw : w < dinodeWords) :
    onDisk (iupdate ip fs) j w = onDisk fs j w := by
  unfold onDisk iupdate logWrite Inode.iblock
  dsimp only
  by_cases hb : j / ipb + fs.sb.inodestart = ip.inum / ipb + fs.sb.inodestart
  · have hmod : j % ipb ≠ ip.inum % ipb := by
      simp only [ipb] at hb ⊢
      omega
    have hlt : j % ipb * dinodeWords + w < blockWords := by
      simp only [ipb, dinodeWords, blockWords] at hw ⊢
      omega
    have hdiv : (j % ipb * dinodeWords + w) / dinodeWords = j % ipb := by
      simp only [dinodeWords] at hw ⊢
      omega
    rw [hb, update_self, Block.word, Block.word]
    simp only [Fin.ofNat, Nat.mod_eq_of_lt hlt, hdiv, if_neg hmod]
  · rw [update_of_ne hb]

/-- The blocks of inodes are not the file's. -/
theorem Effect.onDisk {j : ℕ} (h : Effect data fs ip ip' fs') (h0 : Owned data fs ip)
    (hj : Owned data fs jp) (hinum : jp.inum = j) (w : ℕ) : onDisk fs' j w = Fs.onDisk fs j w := by
  subst hinum
  have hlt := hj.iblock_lt
  have hframe :=
    h.frame (jp.iblock fs.sb) (Nat.lt_of_lt_of_le hlt hj.data_le) (hj.meta_used _ hlt) hj.iblock_ne
    fun p hp he => by
      have hge := (h0.ptr_range p hp).1
      omega
  unfold Fs.onDisk
  rw [h.sb]
  exact congrArg (fun blk : Block => blk.word _) hframe

/-! ## Well-formed file systems -/

/-- Every inode below `ninodes` has the blocks of its content, and no block belongs to two
    inodes. -/
structure WellFormed (data ninodes : ℕ) (fs : Fs) (node : ℕ → Inode v) : Prop where
  inum : ∀ i < ninodes, (node i).inum = i
  owned : ∀ i < ninodes, Owned data fs (node i)
  size_le : ∀ i < ninodes, (node i).size.toNat ≤ v.maxFile * bsize
  mapped : ∀ i < ninodes, ∀ x < (node i).size.toNat, lookup fs (node i) (x / bsize) ≠ 0
  apart : ∀ i < ninodes, ∀ j < ninodes, i ≠ j → ∀ p q, ptr fs (node i) p ≠ 0 →
    ptr fs (node i) p ≠ ptr fs (node j) q

/-- What `writei` has done to the file system: the inode `i` is now `ip'`, and the others are as
    before. -/
structure Changed (data ninodes : ℕ) (fs : Fs) (node : ℕ → Inode v) (i : ℕ) (ip' : Inode v)
    (fs' : Fs) : Prop where
  wellFormed : WellFormed data ninodes fs' (update node i ip')
  contents : ∀ j < ninodes, j ≠ i → content fs' (node j) = content fs (node j)
  onDisk : ∀ j < ninodes, j ≠ i → ∀ w < dinodeWords, Fs.onDisk fs' j w = Fs.onDisk fs j w

theorem content_eq_of_same (h : Same data fs fs' jp)
    (hmapped : ∀ x < jp.size.toNat, lookup fs jp (x / bsize) ≠ 0) :
    content fs' jp = content fs jp := by
  refine List.map_congr_left fun x hx => h.bytes x (hmapped x (List.mem_range.1 hx))

variable {node : ℕ → Inode v}

/-- The pieces that make up a well-formed file system after a write to the inode `i`. -/
theorem WellFormed.changed (h : WellFormed data ninodes fs node) (hi : i < ninodes)
    (hinum : ip'.inum = i) (howned : Owned data fs' ip')
    (hsize : ip'.size.toNat ≤ v.maxFile * bsize)
    (hmapped : ∀ x < ip'.size.toNat, lookup fs' ip' (x / bsize) ≠ 0)
    (hfresh : ∀ p, ptr fs' ip' p ≠ ptr fs (node i) p → fs.used (ptr fs' ip' p).toNat = false)
    (hsame : ∀ j < ninodes, j ≠ i → Same data fs fs' (node j))
    (hdisk : ∀ j < ninodes, j ≠ i → ∀ w < dinodeWords, Fs.onDisk fs' j w = Fs.onDisk fs j w) :
    Changed data ninodes fs node i ip' fs' := by
  have hat : ∀ j, j ≠ i → update node i ip' j = node j := fun j hj => update_of_ne hj ..
  -- a pointer of the file is one of before or was free
  have hcross : ∀ j < ninodes, j ≠ i → ∀ p q, ptr fs' ip' p ≠ 0 →
      ptr fs' ip' p ≠ ptr fs' (node j) q := by
    intro j hj hji p q hp he
    rw [(hsame j hj hji).ptr q] at he
    by_cases hold : ptr fs' ip' p = ptr fs (node i) p
    · rw [hold] at hp he
      exact h.apart i hi j hj (Ne.symm hji) p q hp he
    · have hu := (h.owned j hj).ptr_range q (by rw [← he]; exact hp)
      rw [← he, hfresh p hold] at hu
      cases hu.2.2
  refine ⟨⟨fun j hj => ?_, fun j hj => ?_, fun j hj => ?_, fun j hj x hx => ?_, fun j hj k hk hjk p q hp he => ?_⟩,
    fun j hj hji => content_eq_of_same (hsame j hj hji) (h.mapped j hj), hdisk⟩
  · by_cases hji : j = i
    · subst hji
      rw [update_self, hinum]
    · rw [hat j hji, h.inum j hj]
  · by_cases hji : j = i
    · subst hji
      rwa [update_self]
    · rw [hat j hji]
      exact (hsame j hj hji).owned
  · by_cases hji : j = i
    · subst hji
      rwa [update_self]
    · rw [hat j hji]
      exact h.size_le j hj
  · by_cases hji : j = i
    · subst hji
      rw [update_self] at hx ⊢
      exact hmapped x hx
    · rw [hat j hji] at hx ⊢
      rw [show lookup fs' (node j) (x / bsize) = _ from (hsame j hj hji).ptr (some _)]
      exact h.mapped j hj x hx
  · by_cases hji : j = i
    · subst hji
      rw [update_self] at hp he
      rw [hat k (Ne.symm hjk)] at he
      exact hcross k hk (Ne.symm hjk) p q hp he
    · rw [hat j hji] at hp he
      by_cases hki : k = i
      · subst hki
        rw [update_self] at he
        exact hcross j hj hji q p (by rw [← he]; exact hp) he.symm
      · rw [hat k hki, (hsame k hk hki).ptr] at he
        rw [(hsame j hj hji).ptr] at hp he
        exact h.apart j hj k hk hjk p q hp he

/-! ## The calls -/

/-- The offset is past the end, the sum wraps, or the file would become too long. -/
def TooFar (ip : Inode v) (off n : Word) : Prop :=
  ip.size.toNat < off.toNat ∨ 2 ^ 32 ≤ off.toNat + n.toNat ∨ v.maxFile * bsize < off.toNat + n.toNat

instance (ip : Inode v) (off n : Word) : Decidable (TooFar ip off n) :=
  inferInstanceAs (Decidable (_ ∨ _ ∨ _))

/-- `n` bytes from `off` on replaced. -/
def splice (c : List Byte) (off n : ℕ) (src : ℕ → Byte) : List Byte :=
  c.take off ++ (List.range n).map src ++ c.drop (off + n)

theorem maxFile_mul_bsize_lt (v : FsBuild) : v.maxFile * bsize < 2 ^ 31 := by cases v <;> decide

/-- The test of `readi` and `writei` for a wrap. -/
theorem add_lt_iff (off n : Word) : off + n < off ↔ 2 ^ 32 ≤ off.toNat + n.toNat := by
  have hoff := off.isLt
  have hn := n.isLt
  rw [BitVec.lt_def, BitVec.toNat_add]
  constructor
  · intro h
    by_contra hno
    rw [Nat.mod_eq_of_lt (by omega)] at h
    omega
  · intro h
    rw [Nat.mod_eq_sub_mod h, Nat.mod_eq_of_lt (by omega)]
    omega

variable {n : Word} {off : Word}

theorem toNat_add_of_not_lt (h : off.toNat + n.toNat < 2 ^ 32) :
    (off + n).toNat = off.toNat + n.toNat := by
  rw [BitVec.toNat_add, Nat.mod_eq_of_lt h]

theorem writei_tooFar (devsw : Devsw) (hfile : ip.type ≠ tDev) (src : ℕ → Byte) (fs : Fs)
    (h : TooFar ip off n) : writei devsw ip src off n fs = .ok (-1, ip, fs) := by
  rw [writei, if_neg hfile]
  by_cases hfirst : ip.size < off ∨ off + n < off
  · rw [if_pos hfirst]
  · rw [not_or, BitVec.lt_def, add_lt_iff] at hfirst
    have hlong : v.maxFile * bsize < off.toNat + n.toNat :=
      (h.resolve_left hfirst.1).resolve_left hfirst.2
    rw [if_neg (by rw [not_or, BitVec.lt_def, add_lt_iff]; exact hfirst),
      if_pos (by rwa [toNat_add_of_not_lt (by omega)])]

theorem getElem?_splice {b : List Byte} {off : ℕ} (hoff : off ≤ b.length) (n : ℕ) (src : ℕ → Byte)
    (x : ℕ) :
    (splice b off n src)[x]? = if off ≤ x ∧ x < off + n then some (src (x - off)) else b[x]? := by
  unfold splice
  have htake : (b.take off).length = off := by rw [List.length_take, Nat.min_eq_left hoff]
  have hmid : ((List.range n).map src).length = n := by simp
  by_cases hlo : x < off
  · rw [List.append_assoc, List.getElem?_append_left (by omega), List.getElem?_take_of_lt hlo,
      if_neg (by omega)]
  · by_cases hhi : x < off + n
    · rw [List.append_assoc, List.getElem?_append_right (by omega), htake,
        List.getElem?_append_left (by omega),
        if_pos ⟨by omega, hhi⟩, List.getElem?_map, List.getElem?_range (by omega)]
      rfl
    · rw [List.getElem?_append_right (by rw [List.length_append]; omega), List.length_append,
        htake, hmid, List.getElem?_drop, if_neg (by omega), Nat.add_sub_cancel' (by omega)]

theorem getElem?_content (fs : Fs) (ip : Inode v) (x : ℕ) :
    (content fs ip)[x]? = if x < ip.size.toNat then some (fileByte fs ip x) else none := by
  rw [content, List.getElem?_map]
  split_ifs with hx
  · rw [List.getElem?_range hx]
    rfl
  · rw [List.getElem?_eq_none (by simpa using hx)]
    rfl

/-- The content of a file after a write that has left its size right. -/
theorem Wrote.content {off n : ℕ} {size : Word} (h : Wrote data off n src fs ip ip' fs')
    (hoff : off ≤ ip.size.toNat) (hmapped : ∀ x < ip.size.toNat, lookup fs ip (x / bsize) ≠ 0)
    (hsize : size.toNat = max ip.size.toNat (off + n)) :
    Fs.content fs' { ip' with size := size } = splice (Fs.content fs ip) off n src := by
  refine List.ext_getElem? fun x => ?_
  rw [getElem?_splice (by rwa [length_content]), getElem?_content, getElem?_content]
  dsimp only
  have hbyte : fileByte fs' { ip' with size := size } x = fileByte fs' ip' x := rfl
  rw [hbyte, hsize]
  by_cases hin : off ≤ x ∧ x < off + n
  · rw [if_pos hin, if_pos (by omega), h.inside x hin.1 hin.2]
  · rw [if_neg hin]
    by_cases hx : x < ip.size.toNat
    · rw [if_pos hx, if_pos (by omega), h.outside x hin (hmapped x hx)]
    · rw [if_neg hx, if_neg (by omega)]

/-- The size of a file is no matter of its blocks. -/
theorem Owned.withSize (h : Owned data fs ip) (size : Word) :
    Owned data fs { ip with size := size } :=
  ⟨h.size_le, h.data_le, h.bitmap_lt, h.iblock_lt, h.iblock_ne, h.meta_used, h.ptr_range, h.ptr_inj⟩

/-- The file after a write, with its new size. -/
theorem WellFormed.wrote {off n : ℕ} (size : Word)
    (h : WellFormed data ninodes fs node) (hi : i < ninodes)
    (hw : Wrote data off n src fs (node i) ip' fs')
    (hoff : off ≤ (node i).size.toNat) (hend : off + n ≤ v.maxFile * bsize)
    (hsize : size.toNat = max (node i).size.toNat (off + n))
    (hfs : fs'' = fs' ∨ fs'' = iupdate { ip' with size := size } fs') :
    Changed data ninodes fs node i { ip' with size := size } fs'' ∧
      Fs.content fs'' { ip' with size := size } = splice (Fs.content fs (node i)) off n src := by
  have hold := h.owned i hi
  have hinum : ip'.inum = i := by
    rw [hw.effect.inode]
    exact h.inum i hi
  have howned : Owned data fs' { ip' with size := size } := hw.effect.owned.withSize size
  -- the last `iupdate` touches no block of any file
  have hsame : ∀ {jp : Inode v}, Owned data fs' jp → Same data fs' fs'' jp := by
    intro jp hj
    rcases hfs with rfl | rfl
    · exact hj.same rfl (fun _ _ hu => hu) fun _ _ => rfl
    · exact howned.iupdate hj
  have hothers : ∀ j < ninodes, j ≠ i → Same data fs fs'' (node j) := by
    intro j hj hji
    have hfirst := hw.effect.same (h.owned j hj) (h.apart i hi j hj (Ne.symm hji))
    exact hfirst.trans (hsame hfirst.owned)
  have hself := hsame howned
  have hmapped : ∀ x < size.toNat, lookup fs' ip' (x / bsize) ≠ 0 := by
    intro x hx
    by_cases hxo : x < (node i).size.toNat
    · have hkept : lookup fs' ip' (x / bsize) = _ := hw.effect.keeps (some _) (h.mapped i hi x hxo)
      rw [hkept]
      exact h.mapped i hi x hxo
    · exact hw.mapped x (by omega) (by omega)
  refine ⟨h.changed hi hinum hself.owned ?_ (fun x hx => ?_) (fun p hp => ?_) hothers
    fun j hj hji w hlt => ?_, ?_⟩
  · change size.toNat ≤ _
    have := h.size_le i hi
    omega
  · rw [show lookup fs'' { ip' with size := size } (x / bsize) = _ from hself.ptr (some _)]
    exact hmapped x hx
  · rw [hself.ptr p] at hp ⊢
    exact hw.effect.fresh p hp
  · rw [← hw.effect.onDisk hold (h.owned j hj) (h.inum j hj) w]
    rcases hfs with rfl | rfl
    · rfl
    · exact onDisk_iupdate (by rw [show ({ ip' with size := size } : Inode v).inum = i from hinum]; exact hji) hlt
  · rw [content_eq_of_same hself hmapped]
    exact hw.content hoff (h.mapped i hi) hsize

theorem writei_changed (devsw : Devsw) (h : WellFormed data ninodes fs node)
    (hi : i < ninodes) (hfile : (node i).type ≠ tDev) (src : ℕ → Byte)
    (hfar : ¬TooFar (node i) off n)
    (hfree : need fs (node i) (covered off.toNat n.toNat) ≤ (free fs).card) :
    ∃ ip' fs', writei devsw (node i) src off n fs = .ok (n.toNat, ip', fs') ∧
      Changed data ninodes fs node i ip' fs' ∧
      Fs.content fs' ip' = splice (Fs.content fs (node i)) off.toNat n.toNat src ∧
      ip'.type = (node i).type := by
  simp only [TooFar, not_or, Nat.not_lt, Nat.not_le] at hfar
  obtain ⟨hoff, hwrap, hlong⟩ := hfar
  have hpow := maxFile_mul_bsize_lt v
  have hold := h.size_le i hi
  obtain ⟨ip1, fs1, hloop, hw, -⟩ := writeLoop_wrote src n.toNat n.toNat 0 off.toNat (h.owned i hi)
    (by omega) (Nat.zero_le _) (by omega) hfree
  rw [Nat.sub_zero] at hloop hw
  simp only [Nat.zero_add] at hw
  have hsize1 : ip1.size = (node i).size := by rw [hw.effect.inode]
  have htype1 : ip1.type = (node i).type := by rw [hw.effect.inode]
  rw [writei, if_neg hfile, if_neg (by rw [not_or, BitVec.lt_def, add_lt_iff]; omega),
    if_neg (by rw [toNat_add_of_not_lt hwrap]; omega), hloop]
  simp only [bind, Except.bind, hsize1]
  by_cases hgrow : 0 < n.toNat ∧ (node i).size.toNat < off.toNat + n.toNat
  · rw [if_pos hgrow]
    have hnat : (BitVec.ofNat 32 (off.toNat + n.toNat)).toNat = off.toNat + n.toNat := by
      rw [BitVec.toNat_ofNat, Nat.mod_eq_of_lt hwrap]
    have hall :=
      h.wrote (.ofNat 32 (off.toNat + n.toNat)) hi hw hoff hlong (by rw [hnat]; omega) (.inr rfl)
    exact ⟨_, _, rfl, hall.1, hall.2, htype1⟩
  · rw [if_neg hgrow]
    have hall := h.wrote (node i).size hi hw hoff hlong (by omega) (.inl rfl)
    have hip : ({ ip1 with size := (node i).size } : Inode v) = ip1 := by rw [← hsize1]
    rw [hip] at hall
    exact ⟨ip1, fs1, rfl, hall.1, hall.2, htype1⟩

theorem readi_content (devsw : DevswRead) (hfile : ip.type ≠ tDev)
    (hmapped : ∀ x < ip.size.toNat, lookup fs ip (x / bsize) ≠ 0)
    (hsize : ip.size.toNat ≤ v.maxFile * bsize)
    (hok : ¬(ip.size.toNat < off.toNat ∨ 2 ^ 32 ≤ off.toNat + n.toNat)) :
    readi devsw ip off n fs = .ok (((min n.toNat (ip.size.toNat - off.toNat) : ℕ) : Int),
      ((content fs ip).drop off.toNat).take n.toNat, ip, fs) := by
  rw [not_or, Nat.not_lt, Nat.not_le] at hok
  obtain ⟨hoff, hwrap⟩ := hok
  have hpow := maxFile_mul_bsize_lt v
  rw [readi, if_neg hfile, if_neg (by rw [not_or, BitVec.lt_def, add_lt_iff]; omega)]
  obtain ⟨k, hk⟩ : ∃ k : Word, k = if ip.size < off + n then ip.size - off else n := ⟨_, rfl⟩
  have hnat : k.toNat = min n.toNat (ip.size.toNat - off.toNat) := by
    have hsub : (ip.size - off).toNat = ip.size.toNat - off.toNat :=
      BitVec.toNat_sub_of_le (BitVec.le_def.2 hoff)
    rw [hk]
    split_ifs with hlt
    · rw [BitVec.lt_def, toNat_add_of_not_lt hwrap] at hlt
      omega
    · rw [BitVec.lt_def, toNat_add_of_not_lt hwrap] at hlt
      omega
  have hint : k.toInt = k.toNat := BitVec.toInt_eq_toNat_of_lt (by omega)
  have hloop := readLoop_content fs ip k.toNat k.toNat 0 off.toNat (by omega) (Nat.zero_le _)
    fun x _ hx => hmapped x (by omega)
  simp only [bind, Except.bind, ← hk]
  rw [hloop]
  dsimp only
  rw [hint, hnat, Nat.sub_zero]
  congr 3
  refine List.ext_getElem? fun x => ?_
  rw [List.getElem?_take, List.getElem?_drop, getElem?_content, List.getElem?_map]
  by_cases hx : x < min n.toNat (ip.size.toNat - off.toNat)
  · rw [List.getElem?_range hx, if_pos (by omega), if_pos (by omega)]
    rfl
  · rw [List.getElem?_eq_none (by rw [List.length_range]; exact Nat.not_lt.1 hx)]
    by_cases hxn : x < n.toNat
    · rw [if_pos hxn, if_neg (by omega)]
      rfl
    · rw [if_neg hxn]
      rfl

theorem readi_refused (devsw : DevswRead) (hfile : ip.type ≠ tDev) (fs : Fs)
    (h : ip.size.toNat < off.toNat ∨ 2 ^ 32 ≤ off.toNat + n.toNat) :
    readi devsw ip off n fs = .ok (-1, [], ip, fs) := by
  rw [readi, if_neg hfile, if_pos (by rw [BitVec.lt_def, add_lt_iff]; exact h)]

/-- In a well-formed file system `readi` and `writei` work on files as on arrays of bytes. -/
theorem files_are_byte_arrays (wdev : Devsw) (rdev : DevswRead) (data ninodes : ℕ) (fs : Fs)
    (node : ℕ → Inode v)
    (i : ℕ) (src : ℕ → Byte) (off n : Word) (h : WellFormed data ninodes fs node) (hi : i < ninodes)
    (hfile : (node i).type ≠ tDev) :
    (TooFar (node i) off n → writei wdev (node i) src off n fs = .ok (-1, node i, fs)) ∧
    (¬TooFar (node i) off n → need fs (node i) (covered off.toNat n.toNat) ≤ (free fs).card →
      ∃ ip' fs', writei wdev (node i) src off n fs = .ok (n.toNat, ip', fs') ∧
        Changed data ninodes fs node i ip' fs' ∧
        content fs' ip' = splice (content fs (node i)) off.toNat n.toNat src) ∧
    ((node i).size.toNat < off.toNat ∨ 2 ^ 32 ≤ off.toNat + n.toNat →
      readi rdev (node i) off n fs = .ok (-1, [], node i, fs)) ∧
    (¬((node i).size.toNat < off.toNat ∨ 2 ^ 32 ≤ off.toNat + n.toNat) →
      readi rdev (node i) off n fs = .ok (((min n.toNat ((node i).size.toNat - off.toNat) : ℕ) : Int),
        ((content fs (node i)).drop off.toNat).take n.toNat, node i, fs)) := by
  refine ⟨writei_tooFar wdev hfile src fs, fun hfar hfree => ?_, readi_refused rdev hfile fs,
    readi_content rdev hfile (h.mapped i hi) (h.size_le i hi)⟩
  obtain ⟨ip', fs', hwrite, hchanged, hcontent, _⟩ := writei_changed wdev h hi hfile src hfar hfree
  exact ⟨ip', fs', hwrite, hchanged, hcontent⟩

/-- Inodes without blocks, on the empty disk. -/
def emptyNode (i : ℕ) : Inode .p5 := { emptyFile with inum := i }

theorem emptyNode_ptr (i : ℕ) (p : Option ℕ) : ptr emptyDisk (emptyNode i) p = 0 := emptyFile_ptr p

theorem emptyNode_wellFormed : WellFormed 59 8 emptyDisk emptyNode where
  inum _ _ := rfl
  owned i hi := by
    have hiblock : (emptyNode i).iblock emptyDisk.sb = emptyFile.iblock emptyDisk.sb := by
      show i / 8 + 32 = 2 / 8 + 32
      omega
    exact { emptyFile_owned with
      iblock_lt := hiblock ▸ emptyFile_owned.iblock_lt
      iblock_ne := hiblock ▸ emptyFile_owned.iblock_ne }
  size_le _ _ := Nat.zero_le _
  mapped _ _ _ hx := absurd hx (Nat.not_lt_zero _)
  apart i _ _ _ _ p _ hp := absurd (emptyNode_ptr i p) hp

set_option maxRecDepth 10000 in
/-- The first 600 bytes of a file, which take two blocks. -/
theorem files_are_byte_arrays_firstWrite : ∃ ip' fs',
    writei (fun _ => none) (emptyNode 2) (fun _ => 65) 0 600 emptyDisk = .ok (600, ip', fs') ∧
      Changed 59 8 emptyDisk emptyNode 2 ip' fs' ∧
      content fs' ip' = splice [] 0 600 fun _ => 65 := by
  have hall :=
    files_are_byte_arrays (fun _ => none) (fun _ => none) 59 8 emptyDisk emptyNode 2
      (fun _ => 65) 0 600
    emptyNode_wellFormed (by decide) (by decide)
  exact hall.2.1 (by decide) (by decide +kernel)

end Fs

end Xv6
