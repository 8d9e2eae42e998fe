import Xv6.Fs.DirFile
import Xv6.Fs.Create

set_option autoImplicit false

/-! # The two models of directories

`DirFs` has the content of a directory as a list of entries, and `DirFile` as the bytes of a file on
the disk. Here `dirlookup` and `dirlink` of `DirFile` are shown to do to the list that is read off
the bytes what `findEntry`, `HasRoom` and `putEntry` of `DirFs` say. -/

namespace Xv6

/-- Each place keeps its entry, except the one that is written to. -/
theorem getElem?_putEntry (new : Dirent) (es : List Dirent) (x : ℕ) :
    (putEntry new es)[x]? = if x = es.findIdx Dirent.isFree then some new else es[x]? := by
  induction es generalizing x with
  | nil =>
    rw [putEntry, List.findIdx_nil]
    cases x with
    | zero => rfl
    | succ x => simp
  | cons de es ih =>
    rw [putEntry, List.findIdx_cons]
    by_cases hfree : de.isFree = true
    · rw [if_pos hfree, hfree]
      cases x with
      | zero => rfl
      | succ x => simp
    · rw [if_neg hfree, Bool.eq_false_iff.2 hfree]
      cases x with
      | zero => simp
      | succ x => simpa using ih x

namespace DirFile

variable {c c' : List Byte} {name : ℕ → Byte}

/-- The entries, with the names cut. -/
def entriesOf (c : List Byte) : List Dirent :=
  (List.range (count c)).map fun e => ⟨deInum (slot c e), cut dirsiz (deName (slot c e))⟩

theorem length_entriesOf (c : List Byte) : (entriesOf c).length = count c := by simp [entriesOf]

theorem getElem?_entriesOf (c : List Byte) (x : ℕ) :
    (entriesOf c)[x]? =
      if x < count c then some ⟨deInum (slot c x), cut dirsiz (deName (slot c x))⟩ else none := by
  rw [entriesOf, List.getElem?_map]
  split_ifs with hx
  · rw [List.getElem?_range hx]
    rfl
  · rw [List.getElem?_eq_none (by simpa using hx)]
    rfl

theorem findIdx?_range (n : ℕ) (p : ℕ → Bool) :
    (List.range n).findIdx? p = (List.range n).find? p := by
  rw [List.findIdx?_eq_map_findFinIdx?_val, List.find?_eq_map_findFinIdx?_getElem]
  congr 1
  funext x
  simp

theorem findEntry_entriesOf (c : List Byte) (name : ℕ → Byte) :
    findEntry (cut dirsiz name) (entriesOf c) = find c name := by
  rw [findEntry, entriesOf, List.findIdx?_map, findIdx?_range]
  rfl

theorem findIdx_entriesOf (c : List Byte) : (entriesOf c).findIdx Dirent.isFree = vacant c := by
  rw [List.findIdx_eq_getD_findIdx?, length_entriesOf, entriesOf, List.findIdx?_map, findIdx?_range]
  rfl

theorem Puts.entriesOf {inum : ℕ} (h : Puts c (vacant c) (newDirent inum name) c')
    (hlt : inum < 2 ^ 16) :
    entriesOf c' = putEntry ⟨inum, cut dirsiz name⟩ (DirFile.entriesOf c) := by
  have hle := vacant_le c
  refine List.ext_getElem? fun x => ?_
  rw [getElem?_putEntry, getElem?_entriesOf, getElem?_entriesOf, findIdx_entriesOf]
  by_cases hx : x < count c'
  · rw [if_pos hx, h.entry x hx]
    by_cases hxv : x = vacant c
    · rw [if_pos hxv, if_pos hxv, deInum_newDirent hlt, cut_newDirent]
    · rw [if_neg hxv, if_neg hxv, if_pos (by rw [h.length] at hx; omega)]
  · rw [if_neg hx]
    rw [h.length] at hx
    rw [if_neg (by omega), if_neg (by omega)]

end DirFile

namespace Fs

open DirFile

variable {data ninodes i inum : ℕ} {fs : Fs} {node : ℕ → Inode .p5} {name : ℕ → Byte}

/-- There is a place below `MAXFILE` blocks. -/
theorem hasRoom_iff (c : List Byte) :
    HasRoom (entriesOf c) ↔ direntSize * vacant c + direntSize ≤ FsBuild.p5.maxFile * bsize := by
  have hmax : FsBuild.p5.maxFile * bsize = direntSize * maxDirents := by decide
  rw [HasRoom, findIdx_entriesOf, hmax]
  simp only [direntSize]
  omega

/-- A directory of `MAXFILE` blocks in which all entries are used. -/
theorem dirlink_stops (wdev : Devsw) (rdev : DevswRead) (h : WellFormed data ninodes fs node)
    (hi : i < ninodes) (hdir : IsDir fs (node i)) (hnone : get (content fs (node i)) name = none)
    (hroom : ¬HasRoom (entriesOf (content fs (node i)))) :
    dirlink wdev rdev (node i) name inum fs = .error .dirlink := by
  have hle := vacant_le (content fs (node i))
  have hsize := h.size_le i hi
  have hpow := maxFile_mul_bsize_lt .p5
  rw [hasRoom_iff] at hroom
  rw [count_content] at hle
  have hoff : (BitVec.ofNat 32 (direntSize * vacant (content fs (node i)))).toNat =
      direntSize * vacant (content fs (node i)) := by
    rw [BitVec.toNat_ofNat, Nat.mod_eq_of_lt (by simp only [direntSize] at hle ⊢; omega)]
  have hfar : TooFar (node i) (.ofNat 32 (direntSize * vacant (content fs (node i))))
      (.ofNat 32 direntSize) := by
    refine .inr (.inr ?_)
    rw [hoff]
    exact Nat.lt_of_not_le hroom
  rw [dirlink, hdir.dirlookup, hnone]
  simp only [bind, Except.bind, Option.isSome_none, Bool.false_eq_true, if_false]
  rw [hdir.emptyLoop]
  simp only [putDirent]
  rw [writei_tooFar wdev hdir.not_dev _ fs hfar]
  rfl

/-- `dirlink` on the disk does what `dirlink` of `DirFs` does to the list of entries. -/
theorem dirlink_refines (wdev : Devsw) (rdev : DevswRead) (h : WellFormed data ninodes fs node)
    (hi : i < ninodes) (hdir : IsDir fs (node i)) (hlt : inum < 2 ^ 16)
    (hfree : bmapCost fs (node i) (direntSize * vacant (content fs (node i)) / bsize) ≤ (free fs).card) :
    match findEntry (cut dirsiz name) (entriesOf (content fs (node i))) with
    | some _ => dirlink wdev rdev (node i) name inum fs = .ok (-1, node i, fs)
    | none =>
      if HasRoom (entriesOf (content fs (node i))) then
        ∃ dp' fs', dirlink wdev rdev (node i) name inum fs = .ok (0, dp', fs') ∧
          Changed data ninodes fs node i dp' fs' ∧
          entriesOf (content fs' dp') = putEntry ⟨inum,
            cut dirsiz name⟩ (entriesOf (content fs (node i)))
      else dirlink wdev rdev (node i) name inum fs = .error .dirlink := by
  rw [findEntry_entriesOf]
  cases hfind : find (content fs (node i)) name with
  | some e => exact dirlink_found wdev rdev hdir (by rw [DirFile.get, hfind]; rfl)
  | none =>
    have hnone : get (content fs (node i)) name = none := by
      rw [DirFile.get, hfind, Option.map_none]
    dsimp only
    split_ifs with hroom
    · obtain ⟨dp', fs', hlink, hchanged, _, hputs⟩ :=
        dirlink_puts wdev rdev h hi hdir inum hnone ((hasRoom_iff _).1 hroom) hfree
      exact ⟨dp', fs', hlink, hchanged, hputs.entriesOf hlt⟩
    · exact dirlink_stops wdev rdev h hi hdir hnone hroom

theorem dirlink_refines_firstEntry : ∃ dp' fs',
    dirlink (fun _ => none) (fun _ => none) (emptyDir 1)
    (fun _ => 0x61) 5 emptyDisk = .ok (0, dp', fs') ∧
      entriesOf (content fs' dp') = [⟨5, List.replicate 14 0x61⟩] := by
  have h := @dirlink_refines 59 8 1 5 emptyDisk emptyDir (fun _ => 0x61) (fun _ => none)
    (fun _ => none)
    emptyDir_wellFormed (by decide) (emptyDir_wellFormed.isDir (by decide) rfl rfl) (by decide)
      (by decide +kernel)
  obtain ⟨dp', fs', hlink, -, hentries⟩ := h
  exact ⟨dp', fs', hlink, hentries⟩

end Fs

end Xv6
