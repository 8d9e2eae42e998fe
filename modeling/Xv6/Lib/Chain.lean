import Mathlib.Data.Fintype.Card

set_option autoImplicit false

/-! # Intrusive singly linked lists

A linked list whose links live in the nodes themselves is a link function `next : α → Option α`
together with a head pointer. `Chain next h xs` says that following `next` from `h` visits exactly
the nodes `xs` and then stops. A finite chain never repeats a node (`Chain.nodup`), so on a finite
node type its length is bounded and a traversal with enough fuel always ends.

`IsList` adds the tail pointer. It constrains the tail of a *non-empty* list only: clients that
empty a list by advancing its head may leave the tail pointer stale.

The lemmas on `IsList` give the effect of the pointer updates by which clients append to a list and
take a node out of it. A `Family` is several such lists over the same links, pairwise disjoint: what
changes one of them leaves the others.

The traversals `walk` (run a body at every node) and `search` (stop at the first node that passes a
test) read the link of a node *after* the body has run there, as a C `for` loop does. -/

namespace LinkedList

open Function

variable {α : Type*}

/-! ## Chains -/

/-- Following `next` from the pointer `h` visits exactly `xs`, in order, and then reaches null. -/
def Chain (next : α → Option α) : Option α → List α → Prop
  | h, [] => h = none
  | h, x :: xs => h = some x ∧ Chain next (next x) xs

variable {next : α → Option α}

@[simp] theorem chain_nil {h : Option α} : Chain next h [] ↔ h = none :=
  Iff.rfl

variable {xs : List α}

@[simp] theorem chain_cons {h : Option α} {x : α} :
    Chain next h (x :: xs) ↔ h = some x ∧ Chain next (next x) xs := Iff.rfl

namespace Chain

variable {next next' : α → Option α} {h : Option α} {xs ys : List α}

/-- A pointer determines its chain. -/
theorem unique (hx : Chain next h xs) (hy : Chain next h ys) : xs = ys := by
  induction xs generalizing h ys with
  | nil =>
    cases ys with
    | nil => rfl
    | cons y ys =>
      rw [chain_nil] at hx
      rw [chain_cons, hx] at hy
      exact absurd hy.1 (by simp)
  | cons x xs ih =>
    obtain ⟨hhx, hrest⟩ := hx
    cases ys with
    | nil =>
      rw [chain_nil, hhx] at hy
      exact absurd hy (by simp)
    | cons y ys =>
      obtain ⟨hhy, hrest'⟩ := hy
      have hxy : x = y := Option.some.inj (hhx.symm.trans hhy)
      subst hxy
      rw [ih hrest hrest']

/-- Only the links of the chain's own nodes matter. -/
theorem congr (hc : Chain next h xs) (heq : ∀ x ∈ xs, next' x = next x) : Chain next' h xs := by
  induction xs generalizing h with
  | nil => exact hc
  | cons x xs ih =>
    obtain ⟨hh, hrest⟩ := hc
    refine ⟨hh, ?_⟩
    rw [heq x (List.mem_cons_self ..)]
    exact ih hrest (fun y hy => heq y (List.mem_cons_of_mem _ hy))

/-- A chain through `y`: the part from `y` on is a chain of its own. -/
theorem suffix {pre : List α} {y : α} (hc : Chain next h (pre ++ y :: ys)) :
    Chain next (next y) ys := by
  induction pre generalizing h with
  | nil => exact hc.2
  | cons x pre ih => exact ih hc.2

section

variable (hc : Chain next h xs)

include hc

/-- A finite chain visits no node twice. -/
theorem nodup : xs.Nodup := by
  induction xs generalizing h with
  | nil => exact List.nodup_nil
  | cons x xs ih =>
    refine List.nodup_cons.2 ⟨fun hmem => ?_, ih hc.2⟩
    -- a second visit to `x` would make the chain after it both shorter and equal
    obtain ⟨pre, post, rfl⟩ := List.append_of_mem hmem
    have hlen := congrArg List.length (hc.2.unique hc.2.suffix)
    simp only [List.length_append, List.length_cons] at hlen
    omega

theorem length_le_card [Fintype α] : xs.length ≤ Fintype.card α :=
  hc.nodup.length_le_card

theorem head_eq : h = xs.head? := by
  cases xs with
  | nil => exact hc
  | cons x xs => exact hc.1

/-- The links along a chain are those of any other chain over the same nodes. -/
theorem next_eq {h' : Option α} (hc' : Chain next' h' xs) : ∀ x ∈ xs, next x = next' x := by
  induction xs generalizing h h' with
  | nil =>
    intro x hx
    cases hx
  | cons y ys ih =>
    intro x hx
    rcases List.mem_cons.1 hx with rfl | hx
    · exact hc.2.head_eq.trans hc'.2.head_eq.symm
    · exact ih hc.2 hc'.2 x hx

/-- The link of the last node is null. -/
theorem next_last {x : α} (hx : xs.getLast? = some x) : next x = none := by
  obtain ⟨pre, rfl⟩ := List.getLast?_eq_some_iff.1 hx
  exact hc.suffix

end

end Chain

/-! ## Updating one link -/

section Update

variable [DecidableEq α] {next : α → Option α} {h : Option α}

theorem Chain.update_of_not_mem {p : α} {v : Option α} (hc : Chain next h xs)
    (hp : p ∉ xs) : Chain (update next p v) h xs :=
  hc.congr (fun x hx => update_of_ne (fun he : x = p => hp (he ▸ hx)) _ _)

/-- Linking a fresh node `p` behind the last node `t`. -/
theorem Chain.snoc {t p : α} (hc : Chain next h xs) (ht : xs.getLast? = some t) (hp : p ∉ xs) :
    Chain (update (update next t (some p)) p none) h (xs ++ [p]) := by
  induction xs generalizing h with
  | nil => simp at ht
  | cons x xs ih =>
    have hnd := hc.nodup
    obtain ⟨hh, hrest⟩ := hc
    rw [List.mem_cons, not_or] at hp
    refine ⟨hh, ?_⟩
    rw [update_of_ne (fun he => hp.1 he.symm)]
    cases xs with
    | nil =>
      obtain rfl : x = t := by simpa using ht
      simp
    | cons y ys =>
      have ht' : (y :: ys).getLast? = some t := by simpa using ht
      have hxt : x ≠ t := by
        rintro rfl
        exact (List.nodup_cons.1 hnd).1 (List.mem_of_getLast? ht')
      rw [update_of_ne hxt]
      exact ih hrest ht' hp.2

/-- Unlinking `p` by redirecting its predecessor's link to its successor. -/
theorem Chain.unlink {pre post : List α} {q p : α} (hc : Chain next h (pre ++ q :: p :: post)) :
    Chain (update next q (next p)) h (pre ++ q :: post) := by
  induction pre generalizing h with
  | nil =>
    have hnd := hc.nodup
    obtain ⟨hh, hq, hpost⟩ := hc
    refine ⟨hh, ?_⟩
    rw [update_self]
    refine hpost.update_of_not_mem (fun hmem => ?_)
    exact (List.nodup_cons.1 hnd).1 (List.mem_cons_of_mem _ hmem)
  | cons x pre ih =>
    have hnd := hc.nodup
    have hxq : x ≠ q := by
      rintro rfl
      exact (List.nodup_cons.1 hnd).1 (by simp)
    refine ⟨hc.1, ?_⟩
    rw [update_of_ne hxq]
    exact ih hc.2

end Update

/-! ## Lists with a tail pointer -/

/-- `head` and `tail` delimit the list `xs`; the tail of an empty list is unconstrained. -/
structure IsList (next : α → Option α) (head tail : Option α) (xs : List α) : Prop where
  chain : Chain next head xs
  tail_eq : xs ≠ [] → tail = xs.getLast?

namespace IsList

variable {next next' : α → Option α} {head tail : Option α} {xs : List α}

theorem congr (hl : IsList next head tail xs) (heq : ∀ x ∈ xs, next' x = next x) :
    IsList next' head tail xs :=
  ⟨hl.chain.congr heq, hl.tail_eq⟩

variable {p q : α} {pre post : List α}

/-- Drop the head; neither the tail nor the link of the dropped node changes. -/
theorem pop (hl : IsList next head tail (p :: post)) : IsList next (next p) tail post := by
  refine ⟨hl.chain.2, fun hne => ?_⟩
  obtain ⟨y, ys, rfl⟩ := List.exists_cons_of_ne_nil hne
  rw [hl.tail_eq (by simp), List.getLast?_cons_cons]

variable [DecidableEq α]

theorem push_nil (next : α → Option α) (p : α) :
    IsList (update next p none) (some p) (some p) [p] :=
  ⟨by simp, fun _ => rfl⟩

theorem push_last {t : α} (hl : IsList next head tail xs) (ht : xs.getLast? = some t)
    (hp : p ∉ xs) :
    IsList (update (update next t (some p)) p none) head (some p) (xs ++ [p]) :=
  ⟨hl.chain.snoc ht hp, fun _ => by simp⟩

/-- A node that has left the list keeps no link into it. -/
theorem clear (hl : IsList next head tail xs) (hp : p ∉ xs) :
    IsList (update next p none) head tail xs :=
  hl.congr fun x hx => update_of_ne (fun he : x = p => hp (he ▸ hx)) ..

/-- Unlink `p` behind `q`. -/
theorem unlink_mid (hl : IsList next head tail (pre ++ q :: p :: post)) (hpost : post ≠ []) :
    IsList (update next q (next p)) head tail (pre ++ q :: post) := by
  refine ⟨hl.chain.unlink, fun _ => ?_⟩
  obtain ⟨y, ys, rfl⟩ := List.exists_cons_of_ne_nil hpost
  rw [hl.tail_eq (by simp)]
  simp [List.getLast?_append, List.getLast?_cons_cons]

/-- Unlink the last node `p` behind `q`, which becomes the tail. -/
theorem unlink_last (hl : IsList next head tail (pre ++ [q, p])) :
    IsList (update next q none) head (some q) (pre ++ [q]) := by
  have hunlink := hl.chain.unlink
  rw [hl.chain.next_last (x := p) (by simp)] at hunlink
  exact ⟨hunlink, fun _ => by simp⟩

end IsList

/-! ## Families of disjoint lists -/

section Family

variable {ι : Type*}

/-- Lists `L i` that share one link function, with their head and tail pointers; `w p` is the list
    the node `p` is on, if any. That `w` is a function makes the lists disjoint. -/
structure Family (next : α → Option α) (head tail : ι → Option α) (L : ι → List α)
    (w : α → Option ι) : Prop where
  isList : ∀ i, IsList next (head i) (tail i) (L i)
  mem_iff : ∀ p i, p ∈ L i ↔ w p = some i

namespace Family

variable {next : α → Option α} {head tail : ι → Option α} {L : ι → List α} {w : α → Option ι}

theorem nodup (h : Family next head tail L w) (i : ι) : (L i).Nodup := (h.isList i).chain.nodup

variable {p : α}

theorem not_mem (h : Family next head tail L w) (hp : w p = none) (i : ι) : p ∉ L i := by
  intro hmem
  rw [h.mem_iff, hp] at hmem
  exact absurd hmem (by simp)

variable {i : ι}

/-- A list other than `i` keeps its links if only members of `i` and unlisted nodes change
    theirs. -/
theorem isList_of_ne (h : Family next head tail L w) {j : ι} (hne : j ≠ i)
    {next' : α → Option α} (heq : ∀ x, w x ≠ some i → w x ≠ none → next' x = next x) :
    IsList next' (head j) (tail j) (L j) := by
  refine (h.isList j).congr (fun x hx => ?_)
  have hw := (h.mem_iff x j).1 hx
  refine heq x ?_ ?_
  · rw [hw]
    exact fun he => hne (Option.some.inj he)
  · rw [hw]
    simp

/-- Replace list `i`, whose members and unlisted nodes alone may have new links. -/
theorem update_list [DecidableEq ι] (h : Family next head tail L w)
    (next' : α → Option α) (hd tl : Option α) (xs : List α) {w' : α → Option ι}
    (heq : ∀ x, w x ≠ some i → w x ≠ none → next' x = next x)
    (hxs : IsList next' hd tl xs) (hw : ∀ x, x ∈ xs ↔ w' x = some i)
    (hw' : ∀ x j, j ≠ i → (w x = some j ↔ w' x = some j)) :
    Family next' (update head i hd) (update tail i tl)
      (update L i xs) w' := by
  refine ⟨fun j => ?_, fun x j => ?_⟩
  · by_cases hj : j = i
    · subst hj
      simpa using hxs
    · simpa [hj] using h.isList_of_ne hj heq
  · by_cases hj : j = i
    · subst hj
      rw [update_self]
      exact hw x
    · rw [update_of_ne hj, h.mem_iff]
      exact hw' x j hj

variable [DecidableEq α] [DecidableEq ι] {next' : α → Option α} {hd tl : Option α}

/-- An unlisted node enters list `i`. -/
theorem push (h : Family next head tail L w) (hp : w p = none)
    (hl : IsList next' hd tl (L i ++ [p])) (heq : ∀ x ∉ L i, x ≠ p → next' x = next x) :
    Family next' (update head i hd) (update tail i tl) (update L i (L i ++ [p]))
    (update w p (some i)) := by
  refine h.update_list _ _ _ _ (fun x hx hx' => ?_) hl (fun x => ?_) fun x j hj => ?_
  · exact heq x (fun hmem => hx ((h.mem_iff x i).1 hmem)) fun he => hx' (by rw [he, hp])
  · by_cases hx : x = p
    · subst hx
      simp
    · simp [hx, h.mem_iff]
  · by_cases hx : x = p
    · subst hx
      simp [hp, Ne.symm hj]
    · simp [hx]

/-- A member leaves list `i`. -/
theorem erase (h : Family next head tail L w) (hp : w p = some i)
    (hl : IsList next' hd tl ((L i).erase p)) (heq : ∀ x ∉ L i, next' x = next x) :
    Family next' (update head i hd) (update tail i tl) (update L i ((L i).erase p))
    (update w p none) := by
  refine h.update_list _ _ _ _ (fun x hx _ => heq x fun hmem => hx ((h.mem_iff x i).1 hmem)) hl
    (fun x => ?_) fun x j hj => ?_
  · rw [(h.nodup i).mem_erase_iff, h.mem_iff]
    by_cases hx : x = p
    · subst hx
      simp
    · simp [hx]
  · by_cases hx : x = p
    · subst hx
      simp [hp, Ne.symm hj]
    · simp [hx]

end Family

end Family

/-! ## Traversals -/

variable {σ ε : Type*}

/-- `for(p = h; p; p = p->next) body(p)`: the link is read in the state the body leaves. Running
    out of fuel reports `hang`. -/
def walk (next : σ → α → Option α) (body : α → σ → Except ε σ) (hang : ε) :
    Nat → Option α → σ → Except ε σ
  | _, none, s => .ok s
  | 0, some _, _ => .error hang
  | fuel + 1, some p, s => do
      let s ← body p s
      walk next body hang fuel (next s p) s

/-- `for(p = h; p; p = p->next) if(test(p)) break;`: the node the loop stops at, if any. -/
def search (next : α → Option α) (test : α → Bool) (hang : ε) :
    Nat → Option α → Except ε (Option α)
  | _, none => .ok none
  | 0, some _ => .error hang
  | fuel + 1, some p => if test p then .ok (some p) else search next test hang fuel (next p)

/-- `for(pp = &h; *pp; pp = &(*pp)->next) ;`: the node whose link `pp` ends up at, or none if that
    is `h` itself; `owner` is the node of the link at hand. -/
def lastNode (next : α → Option α) (hang : ε) : Nat → Option α → Option α → Except ε (Option α)
  | _, owner, none => .ok owner
  | 0, _, some _ => .error hang
  | fuel + 1, _, some p => lastNode next hang fuel (some p) (next p)

variable {body : α → σ → Except ε σ} {hang : ε}

/-- A body that leaves the links alone turns the traversal into a fold over the chain. -/
theorem walk_eq_foldlM {next : σ → α → Option α}
    (hbody : ∀ p s s', body p s = .ok s' → next s' = next s) :
    ∀ (fuel : Nat) (h : Option α) (s : σ) (xs : List α),
      Chain (next s) h xs → xs.length ≤ fuel →
      walk next body hang fuel h s = xs.foldlM (fun s p => body p s) s := by
  intro fuel h s xs
  induction xs generalizing fuel h s with
  | nil =>
    intro hc _
    rw [chain_nil] at hc
    subst hc
    cases fuel <;> rfl
  | cons x xs ih =>
    intro hc hlen
    obtain ⟨rfl, hrest⟩ := hc
    cases fuel with
    | zero => simp at hlen
    | succ fuel =>
      rw [walk, List.foldlM_cons]
      cases hb : body x s with
      | error e => rfl
      | ok s' =>
        have hnext := hbody x s s' hb
        have hc' : Chain (next s') (next s' x) xs := by rw [hnext]; exact hrest
        exact ih fuel _ s' hc' (by simpa using hlen)

/-- A body that unlinks every node it acts on, so that the link it leaves there is null, acts on the
    first such node only. -/
theorem walk_eq_first (next : σ → α → Option α) (body : α → σ → Except ε σ) (hang : ε)
    (test : α → Bool) (s : σ) (hskip : ∀ p, test p = false → body p s = .ok s) :
    ∀ (fuel : Nat) (h : Option α) (xs : List α),
      (∀ p ∈ xs, test p = true → ∀ s', body p s = .ok s' → next s' p = none) →
      Chain (next s) h xs → xs.length ≤ fuel →
      walk next body hang fuel h s =
        match xs.find? test with
        | none => .ok s
        | some p => body p s := by
  intro fuel h xs
  induction xs generalizing fuel h with
  | nil =>
    intro _ hc _
    rw [chain_nil] at hc
    subst hc
    cases fuel <;> rfl
  | cons x xs ih =>
    intro hstop hc hlen
    obtain ⟨rfl, hrest⟩ := hc
    cases fuel with
    | zero => simp at hlen
    | succ fuel =>
      rw [walk, List.find?_cons]
      cases hx : test x with
      | false =>
        rw [hskip x hx]
        exact ih fuel _ (fun p hp => hstop p (List.mem_cons_of_mem _ hp)) hrest
          (by simpa using hlen)
      | true =>
        show (body x s >>= fun s => walk next body hang fuel (next s x) s) = body x s
        cases hb : body x s with
        | error e => rfl
        | ok s' =>
          have hnone := hstop x (List.mem_cons_self ..) hx s' hb
          show walk next body hang fuel (next s' x) s' = .ok s'
          rw [hnone]
          cases fuel <;> rfl

/-- A change of the state that neither the links nor the body sees. -/
theorem walk_map {next : σ → α → Option α} {G : σ → σ}
    (hnext : ∀ s, next (G s) = next s) (hbody : ∀ p s, body p (G s) = (body p s).map G) :
    ∀ (fuel : Nat) (h : Option α) (s : σ),
      walk next body hang fuel h (G s) = (walk next body hang fuel h s).map G := by
  intro fuel
  induction fuel with
  | zero =>
    intro h s
    cases h <;> rfl
  | succ fuel ih =>
    intro h s
    cases h with
    | none => rfl
    | some p =>
      rw [walk, walk, hbody]
      cases body p s with
      | error e => rfl
      | ok s' =>
        show walk next body hang fuel (next (G s') p) (G s') = _
        rw [hnext]
        exact ih (next s' p) s'

theorem search_eq_find? {test : α → Bool} :
    ∀ (fuel : Nat) (h : Option α) (xs : List α), Chain next h xs → xs.length ≤ fuel →
      search next test hang fuel h = .ok (xs.find? test) := by
  intro fuel h xs
  induction xs generalizing fuel h with
  | nil =>
    intro hc _
    rw [chain_nil] at hc
    subst hc
    cases fuel <;> rfl
  | cons x xs ih =>
    intro hc hlen
    obtain ⟨rfl, hrest⟩ := hc
    cases fuel with
    | zero => simp at hlen
    | succ fuel =>
      rw [search, List.find?_cons]
      cases test x with
      | true => rfl
      | false => exact ih fuel _ hrest (by simpa using hlen)

theorem lastNode_eq {fuel : Nat} {owner h : Option α}
    (hc : Chain next h xs) (hlen : xs.length ≤ fuel) :
    lastNode next hang fuel owner h = .ok (xs.getLast?.or owner) := by
  induction xs generalizing fuel owner h with
  | nil =>
    rw [chain_nil] at hc
    subst hc
    cases fuel <;> rfl
  | cons x xs ih =>
    obtain ⟨rfl, hrest⟩ := hc
    cases fuel with
    | zero => simp at hlen
    | succ fuel =>
      rw [lastNode, ih hrest (by simpa using hlen), List.getLast?_cons]
      cases xs.getLast? <;> rfl

end LinkedList
