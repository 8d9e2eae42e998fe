import Mathlib.Data.List.Nodup
import Mathlib.Data.List.Perm.Basic
import Mathlib.Data.List.Range

set_option autoImplicit false

/-! # Finite maps as association lists

A finite map is a list of keys with their values, no key twice. An entry is put in at the front;
taking one out removes its key. Up to their order the values change by the one value that is put in
or taken out, and looking up all keys of a range one after the other finds them all. -/

namespace Assoc

variable {κ β : Type*} [DecidableEq κ]

def keys (l : List (κ × β)) : List κ := l.map Prod.fst

def values (l : List (κ × β)) : List β := l.map Prod.snd

def get (k : κ) : List (κ × β) → Option β
  | [] => none
  | (k', v) :: l => if k' = k then some v else get k l

def del (k : κ) (l : List (κ × β)) : List (κ × β) := l.filter fun x => x.1 ≠ k

omit [DecidableEq κ] in
@[simp] theorem keys_cons (k : κ) (v : β) (l : List (κ × β)) : keys ((k, v) :: l) = k :: keys l :=
  rfl

omit [DecidableEq κ] in
@[simp] theorem values_cons (k : κ) (v : β) (l : List (κ × β)) :
    values ((k, v) :: l) = v :: values l := rfl

variable {k k' : κ} {l : List (κ × β)}

theorem get_eq_none : get k l = none ↔ k ∉ keys l := by
  induction l with
  | nil => simp [get, keys]
  | cons x l ih =>
    obtain ⟨k', v⟩ := x
    by_cases hk : k' = k
    · simp [get, hk]
    · simp [get, hk, Ne.symm hk, ih]

theorem get_isSome : (get k l).isSome = true ↔ k ∈ keys l := by
  rw [Option.isSome_iff_ne_none, Ne, get_eq_none, not_not]

theorem get_cons_self (k : κ) (v : β) (l : List (κ × β)) : get k ((k, v) :: l) = some v :=
  if_pos rfl

theorem get_cons_of_ne (h : k' ≠ k) (v : β) (l : List (κ × β)) :
    get k ((k', v) :: l) = get k l := if_neg h

theorem mem_of_get {v : β} (h : get k l = some v) : (k, v) ∈ l := by
  induction l with
  | nil => cases h
  | cons x l ih =>
    obtain ⟨k', v'⟩ := x
    rw [get] at h
    split at h
    · next hk =>
      cases h
      simp [hk]
    · exact List.mem_cons_of_mem _ (ih h)

theorem mem_keys_del : k' ∈ keys (del k l) ↔ k' ∈ keys l ∧ k' ≠ k := by
  simp only [keys, del, List.mem_map, List.mem_filter, decide_eq_true_eq]
  constructor
  · rintro ⟨x, ⟨hx, hne⟩, rfl⟩
    exact ⟨⟨x, hx, rfl⟩, hne⟩
  · rintro ⟨⟨x, hx, rfl⟩, hne⟩
    exact ⟨x, ⟨hx, hne⟩, rfl⟩

theorem get_del_self (k : κ) (l : List (κ × β)) : get k (del k l) = none :=
  get_eq_none.2 fun h => (mem_keys_del.1 h).2 rfl

theorem get_del_of_ne (h : k' ≠ k) (l : List (κ × β)) : get k' (del k l) = get k' l := by
  induction l with
  | nil => rfl
  | cons x l ih =>
    obtain ⟨j, v⟩ := x
    by_cases hj : j = k
    · have hout : del k ((j, v) :: l) = del k l := List.filter_cons_of_neg (by simpa using hj)
      have hne : j ≠ k' := fun e => h (e.symm.trans hj)
      rw [hout, ih, get_cons_of_ne hne]
    · have hin : del k ((j, v) :: l) = (j, v) :: del k l :=
        List.filter_cons_of_pos (by simpa using hj)
      rw [hin, get, get, ih]

theorem nodup_keys_del (h : (keys l).Nodup) : (keys (del k l)).Nodup :=
  h.sublist ((List.filter_sublist (p := fun x : κ × β => decide (x.1 ≠ k))).map Prod.fst)

theorem del_of_notMem (h : k ∉ keys l) : del k l = l := by
  rw [del, List.filter_eq_self]
  intro x hx
  have : x.1 ≠ k := fun e => h (e ▸ List.mem_map_of_mem hx)
  simpa using this

/-- What is taken out is one value. -/
theorem perm_del {v : β} (hnodup : (keys l).Nodup) (h : get k l = some v) :
    l.Perm ((k, v) :: del k l) := by
  induction l with
  | nil => cases h
  | cons x l ih =>
    obtain ⟨k', v'⟩ := x
    obtain ⟨hk', hnodup'⟩ := List.nodup_cons.1 hnodup
    by_cases hk : k' = k
    · subst hk
      rw [get, if_pos rfl] at h
      cases h
      have hdel : del k' ((k', v) :: l) = l := by
        rw [del, List.filter_cons_of_neg (by simp)]
        exact del_of_notMem hk'
      rw [hdel]
    · rw [get, if_neg hk] at h
      have hdel : del k ((k', v') :: l) = (k', v') :: del k l :=
        List.filter_cons_of_pos (by simpa using hk)
      rw [hdel]
      exact ((ih hnodup' h).cons _).trans (.swap _ _ _)

theorem values_perm_del {v : β} (hnodup : (keys l).Nodup) (h : get k l = some v) :
    (values l).Perm (v :: values (del k l)) :=
  (perm_del hnodup h).map Prod.snd

/-- Looking up all keys one after the other. -/
theorem filterMap_get_perm {ks : List κ} (hks : ks.Nodup) (hnodup : (keys l).Nodup)
    (hall : ∀ k ∈ keys l, k ∈ ks) : (ks.filterMap fun k => get k l).Perm (values l) := by
  induction l with
  | nil =>
    have hnone : (ks.filterMap fun k => get k ([] : List (κ × β))) = [] := by simp [get]
    rw [hnone]
    exact .nil
  | cons x l ih =>
    obtain ⟨k, v⟩ := x
    obtain ⟨hk, hnodup'⟩ := List.nodup_cons.1 hnodup
    have hmem : k ∈ ks := hall k (by simp)
    have hperm := List.perm_cons_erase hmem
    have hrest : ((ks.erase k).filterMap fun k' => get k' ((k, v) :: l)) =
        (ks.erase k).filterMap fun k' => get k' l := by
      refine List.filterMap_congr fun k' hk' => ?_
      have hne : k ≠ k' := fun e => (hks.mem_erase_iff.1 hk').1 e.symm
      rw [get, if_neg hne]
    have hfirst : get k ((k, v) :: l) = some v := if_pos rfl
    have hnone : get k l = none := get_eq_none.2 hk
    have htail : (ks.filterMap fun k' => get k' l).Perm ((ks.erase k).filterMap
        fun k' => get k' l) := by
      have := hperm.filterMap fun k' => get k' l
      rwa [List.filterMap_cons, hnone] at this
    have hhead := hperm.filterMap fun k' => get k' ((k, v) :: l)
    rw [List.filterMap_cons, hfirst, hrest] at hhead
    refine hhead.trans (.cons v (htail.symm.trans ?_))
    exact ih hnodup' fun k' hk' => hall k' (by simp [hk'])

end Assoc
