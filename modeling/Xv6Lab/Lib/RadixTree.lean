import Mathlib.Data.Set.Lattice
import Mathlib.Tactic.Set

/-!
# Radix trees in a memory

A memory maps node names to arrays of words. A word is valid or not, and a valid word of an inner
node names a child. A key is resolved by one index for each level; level 0 holds the values.

`nodes` is the set of nodes of a tree, and `Tree` says that no node is shared between two places.
The three rules of this module say what the operations of a page-table walk do to a tree:

- `congr`: memories that agree on the nodes hold the same tree;
- `Tree.attach`: a fresh blank node hung under an unused index changes no lookup;
- `Tree.write`: a word written into the slot of a key changes the lookup of the keys with the same
  indices and no other.

`Inner` is a property of the words of inner nodes, `Bare` says that the tree holds no value.
-/

namespace Xv6Lab.Lib.RadixTree

open Function

variable {P ι W V : Type}

/-- How words and keys are read. -/
structure Format (P ι W V : Type) where
  valid : W → Bool
  child : W → P
  index : Nat → V → ι

section Definitions

variable (F : Format P ι W V) (m : P → ι → W)

/-- The valid word stored for key `v` in the tree of height `l` at node `p`. -/
def lookup : Nat → P → V → Option W
  | 0, p, v => if F.valid (m p (F.index 0 v)) then some (m p (F.index 0 v)) else none
  | l + 1, p, v =>
    if F.valid (m p (F.index (l + 1) v)) then lookup l (F.child (m p (F.index (l + 1) v))) v
    else none

/-- The nodes of the tree of height `l` at `p`. -/
def nodes : Nat → P → Set P
  | 0, p => {p}
  | l + 1, p => {p} ∪ { q | ∃ i, F.valid (m p i) = true ∧ q ∈ nodes l (F.child (m p i)) }

/-- No node occurs at two places of the tree. -/
def Tree : Nat → P → Prop
  | 0, _ => True
  | l + 1, p =>
    (∀ i, F.valid (m p i) = true → p ∉ nodes F m l (F.child (m p i)) ∧ Tree l (F.child (m p i))) ∧
    ∀ i j, F.valid (m p i) = true → F.valid (m p j) = true → i ≠ j →
      ∀ q ∈ nodes F m l (F.child (m p i)), q ∉ nodes F m l (F.child (m p j))

/-- Every valid word of an inner node satisfies `Q`. -/
def Inner (Q : W → Prop) : Nat → P → Prop
  | 0, _ => True
  | l + 1, p => ∀ i, F.valid (m p i) = true → Q (m p i) ∧ Inner Q l (F.child (m p i))

/-- The tree holds no value. -/
def Bare : Nat → P → Prop
  | 0, p => ∀ i, F.valid (m p i) = false
  | l + 1, p => ∀ i, F.valid (m p i) = true → Bare l (F.child (m p i))

/-- Node `q` holds the value slot of key `v`. -/
def Slot : Nat → P → V → P → Prop
  | 0, p, _, q => q = p
  | l + 1, p, v, q =>
    F.valid (m p (F.index (l + 1) v)) = true ∧ Slot l (F.child (m p (F.index (l + 1) v))) v q

/-- Keys that agree in the indices of levels `0` to `l`. -/
def Same (l : Nat) (v w : V) : Prop := ∀ k, k ≤ l → F.index k w = F.index k v

end Definitions

variable {F : Format P ι W V} {m m' : P → ι → W} {Q : W → Prop} {l : Nat} {p q : P} {i : ι}

theorem root_mem_nodes (l : Nat) (p : P) : p ∈ nodes F m l p := by
  cases l with
  | zero => exact rfl
  | succ l => exact Or.inl rfl

theorem child_mem_nodes (hi : F.valid (m p i) = true)
    (hq : q ∈ nodes F m l (F.child (m p i))) : q ∈ nodes F m (l + 1) p :=
  Or.inr ⟨i, hi, hq⟩

theorem slot_mem_nodes {v : V} (h : Slot F m l p v q) : q ∈ nodes F m l p := by
  induction l generalizing p with
  | zero => exact h
  | succ l ih => exact child_mem_nodes h.1 (ih h.2)

/-- The value of a key stands in its slot. -/
theorem lookup_of_slot {v : V} (h : Slot F m l p v q) :
    lookup F m l p v = if F.valid (m q (F.index 0 v)) then some (m q (F.index 0 v)) else none := by
  induction l generalizing p with
  | zero =>
    obtain rfl : q = p := h
    rfl
  | succ l ih =>
    rw [lookup, if_pos h.1]
    exact ih h.2

section

variable (h : ∀ q ∈ nodes F m l p, m' q = m q)
include h

/-- Memories that agree on the nodes of a tree hold the same tree. -/
theorem nodes_congr : nodes F m' l p = nodes F m l p := by
  induction l generalizing p with
  | zero => rfl
  | succ l ih =>
    have hp : m' p = m p := h p (root_mem_nodes _ _)
    have hchild : ∀ i, F.valid (m p i) = true →
        nodes F m' l (F.child (m p i)) = nodes F m l (F.child (m p i)) :=
      fun i hi => ih fun q hq => h q (child_mem_nodes hi hq)
    ext q
    constructor
    · rintro (hq | ⟨i, hi, hq⟩)
      · exact Or.inl hq
      · rw [hp] at hi hq
        rw [hchild i hi] at hq
        exact Or.inr ⟨i, hi, hq⟩
    · rintro (hq | ⟨i, hi, hq⟩)
      · exact Or.inl hq
      · rw [← hchild i hi] at hq
        rw [← hp] at hi hq
        exact Or.inr ⟨i, hi, hq⟩

theorem lookup_congr (v : V) : lookup F m' l p v = lookup F m l p v := by
  induction l generalizing p with
  | zero => rw [lookup, lookup, h p (root_mem_nodes _ _)]
  | succ l ih =>
    rw [lookup, lookup, h p (root_mem_nodes _ _)]
    split
    · next hi => exact ih fun q hq => h q (child_mem_nodes hi hq)
    · rfl

theorem tree_congr (ht : Tree F m l p) : Tree F m' l p := by
  induction l generalizing p with
  | zero => trivial
  | succ l ih =>
    have hp : m' p = m p := h p (root_mem_nodes _ _)
    have hagree : ∀ i, F.valid (m p i) = true →
        ∀ q ∈ nodes F m l (F.child (m p i)), m' q = m q :=
      fun i hi q hq => h q (child_mem_nodes hi hq)
    refine ⟨fun i hi => ?_, fun i j hi hj hij q hq => ?_⟩
    · rw [hp] at hi ⊢
      obtain ⟨hnot, hsub⟩ := ht.1 i hi
      rw [nodes_congr (hagree i hi)]
      exact ⟨hnot, ih (hagree i hi) hsub⟩
    · rw [hp] at hi hj hq ⊢
      rw [nodes_congr (hagree i hi)] at hq
      rw [nodes_congr (hagree j hj)]
      exact ht.2 i j hi hj hij q hq

end

theorem slot_congr {v : V} (h : ∀ q ∈ nodes F m l p, m' q = m q) (hs : Slot F m l p v q) : Slot F m' l p v q := by
  induction l generalizing p with
  | zero => exact hs
  | succ l ih =>
    obtain ⟨hi, hs⟩ := hs
    have hp : m' p = m p := h p (root_mem_nodes _ _)
    rw [Slot, hp]
    exact ⟨hi, ih (fun q hq => h q (child_mem_nodes hi hq)) hs⟩

theorem inner_congr (h : ∀ q ∈ nodes F m l p, m' q = m q) (hin : Inner F m Q l p) : Inner F m' Q l p := by
  induction l generalizing p with
  | zero => trivial
  | succ l ih =>
    intro i hi
    rw [h p (root_mem_nodes _ _)] at hi ⊢
    obtain ⟨hQ, hsub⟩ := hin i hi
    exact ⟨hQ, ih (fun q hq => h q (child_mem_nodes hi hq)) hsub⟩

theorem bare_congr (h : ∀ q ∈ nodes F m l p, m' q = m q) (hbare : Bare F m l p) : Bare F m' l p := by
  induction l generalizing p with
  | zero =>
    intro i
    rw [h p (root_mem_nodes _ _)]
    exact hbare i
  | succ l ih =>
    intro i hi
    rw [h p (root_mem_nodes _ _)] at hi ⊢
    exact ih (fun q hq => h q (child_mem_nodes hi hq)) (hbare i hi)

/-- Keys with the same indices have the same value. -/
theorem lookup_of_same {v w : V} (h : Same F l v w) : lookup F m l p w = lookup F m l p v := by
  induction l generalizing p with
  | zero => rw [lookup, lookup, h 0 (Nat.le_refl 0)]
  | succ l ih =>
    rw [lookup, lookup, h (l + 1) (Nat.le_refl _)]
    split
    · exact ih fun k hk => h k (Nat.le_succ_of_le hk)
    · rfl

/-- A tree in which no key has a value is bare, if every sequence of indices is that of a key. -/
theorem bare_of_lookup {n : Nat} (hsurj : ∀ f : Nat → ι, ∃ v, ∀ k ≤ n, F.index k v = f k)
    (hl : l ≤ n) (h : ∀ v, lookup F m l p v = none) : Bare F m l p := by
  classical
  induction l generalizing p with
  | zero =>
    intro i
    obtain ⟨v, hv⟩ := hsurj fun _ => i
    have hnone := h v
    rw [lookup, hv 0 (Nat.zero_le n)] at hnone
    by_contra hi
    rw [if_pos (Bool.not_eq_false _ ▸ hi)] at hnone
    cases hnone
  | succ l ih =>
    intro i hi
    refine ih (Nat.le_of_succ_le hl) fun v => ?_
    -- a key with index `i` here and the indices of `v` below
    obtain ⟨w, hw⟩ := hsurj fun k => if k = l + 1 then i else F.index k v
    have hnone := h w
    rw [lookup, hw (l + 1) hl, if_pos rfl, if_pos hi] at hnone
    rw [← hnone]
    refine (lookup_of_same fun k hk => ?_)
    rw [hw k (by omega), if_neg (by omega)]

section

variable (h : ∀ i, F.valid (m p i) = false)
include h

/-- The tree of a node without valid words. -/
theorem nodes_blank : nodes F m l p = {p} := by
  cases l with
  | zero => rfl
  | succ l =>
    ext q
    constructor
    · rintro (hq | ⟨i, hi, -⟩)
      · exact hq
      · rw [h i] at hi
        cases hi
    · exact Or.inl

theorem lookup_blank (v : V) : lookup F m l p v = none := by
  cases l with
  | zero | succ => simp [lookup, h]

theorem inner_blank : Inner F m Q l p := by
  cases l with
  | zero => trivial
  | succ l =>
    intro i hi
    rw [h i] at hi
    cases hi

theorem tree_blank : Tree F m l p := by
  cases l with
  | zero => trivial
  | succ l =>
    refine ⟨fun i hi => ?_, fun i j hi => ?_⟩
    · rw [h i] at hi
      cases hi
    · rw [h i] at hi
      cases hi

end

/-! ## Changes below one child -/

section

variable {X : Set P} (ht : Tree F m (l + 1) p) (hi : F.valid (m p i) = true)
  (hX : ∀ q ∈ X, q ∉ nodes F m (l + 1) p) (hagree : ∀ q ∉ nodes F m l (F.child (m p i)), q ∉ X → m' q = m q)
include ht hi hX hagree

/-- The root and the trees of the other children are untouched. -/
theorem Tree.update_other : m' p = m p ∧
    ∀ j, F.valid (m p j) = true → j ≠ i → ∀ q ∈ nodes F m l (F.child (m p j)), m' q = m q := by
  constructor
  · refine hagree p (ht.1 i hi).1 fun hpX => ?_
    exact hX p hpX (root_mem_nodes _ _)
  · intro j hj hji q hq
    refine hagree q (ht.2 j i hj hi hji q hq) fun hqX => ?_
    exact hX q hqX (child_mem_nodes hj hq)

/-- A change inside the tree of one child, which may also take nodes of a fresh set `X`, changes the
lookups through that child only. -/
theorem Tree.update_child (hsub : Tree F m' l (F.child (m p i)))
    (hnodes : nodes F m' l (F.child (m p i)) = nodes F m l (F.child (m p i)) ∪ X) :
    m' p = m p ∧ Tree F m' (l + 1) p ∧ nodes F m' (l + 1) p = nodes F m (l + 1) p ∪ X ∧
      ∀ v, F.index (l + 1) v ≠ i → lookup F m' (l + 1) p v = lookup F m (l + 1) p v := by
  obtain ⟨hp, hother⟩ := ht.update_other hi hX hagree
  -- where the nodes of a child of the new tree come from
  have hfrom : ∀ j, F.valid (m p j) = true → ∀ q ∈ nodes F m' l (F.child (m p j)),
      q ∈ nodes F m l (F.child (m p j)) ∨ (j = i ∧ q ∈ X) := by
    intro j hj q hq
    rcases eq_or_ne j i with rfl | hji
    · rw [hnodes] at hq
      exact hq.imp_right fun hq => ⟨rfl, hq⟩
    · rw [nodes_congr (hother j hj hji)] at hq
      exact Or.inl hq
  refine ⟨hp, ⟨fun j hj => ?_, fun j k hj hk hjk q hq hqk => ?_⟩, ?_, fun v hv => ?_⟩
  · rw [hp] at hj ⊢
    refine ⟨fun hpj => ?_, ?_⟩
    · rcases hfrom j hj p hpj with hpj | ⟨-, hpX⟩
      · exact (ht.1 j hj).1 hpj
      · exact hX p hpX (root_mem_nodes _ _)
    by_cases hji : j = i
    · rw [hji]
      exact hsub
    · exact tree_congr (hother j hj hji) (ht.1 j hj).2
  · rw [hp] at hj hk hq hqk
    rcases hfrom j hj q hq with hqj | ⟨rfl, hqX⟩
    · rcases hfrom k hk q hqk with hqk | ⟨rfl, hqX⟩
      · exact ht.2 j k hj hk hjk q hqj hqk
      · exact hX q hqX (child_mem_nodes hj hqj)
    · rcases hfrom k hk q hqk with hqk | ⟨rfl, -⟩
      · exact hX q hqX (child_mem_nodes hk hqk)
      · exact hjk rfl
  · ext q
    constructor
    · rintro (hq | ⟨j, hj, hq⟩)
      · exact Or.inl (Or.inl hq)
      rw [hp] at hj hq
      rcases hfrom j hj q hq with hq | ⟨-, hq⟩
      · exact Or.inl (child_mem_nodes hj hq)
      · exact Or.inr hq
    have hin : ∀ r ∈ nodes F m' l (F.child (m p i)), r ∈ nodes F m' (l + 1) p := by
      intro r hr
      rw [← hp] at hi hr
      exact child_mem_nodes hi hr
    rintro ((hq | ⟨j, hj, hq⟩) | hq)
    · exact Or.inl hq
    · rcases eq_or_ne j i with rfl | hji
      · exact hin q (hnodes ▸ Or.inl hq)
      · rw [← nodes_congr (hother j hj hji)] at hq
        rw [← hp] at hj hq
        exact child_mem_nodes hj hq
    · exact hin q (hnodes ▸ Or.inr hq)
  · rw [lookup, lookup, hp]
    split
    · next hvalid => exact lookup_congr (hother _ hvalid hv) v
    · rfl

/-- The inner words after such a change. -/
theorem Inner.update_child (hin : Inner F m Q (l + 1) p) (hsub : Inner F m' Q l (F.child (m p i))) :
    Inner F m' Q (l + 1) p := by
  obtain ⟨hp, hother⟩ := ht.update_other hi hX hagree
  intro j hj
  rw [hp] at hj ⊢
  refine ⟨(hin j hj).1, ?_⟩
  by_cases hji : j = i
  · rw [hji]
    exact hsub
  · exact inner_congr (hother j hj hji) (hin j hj).2

end

/-! ## The operations of a walk -/

variable [DecidableEq ι]

/-- A fresh blank node under an unused index changes no lookup. -/
theorem Tree.attach {e : W} (ht : Tree F m (l + 1) p) (hfree : F.valid (m p i) = false) (hq : q ∉ nodes F m (l + 1) p)
    (hp : m' p = update (m p) i e) (he : F.valid e = true) (hc : F.child e = q)
    (hblank : ∀ j, F.valid (m' q j) = false) (hagree : ∀ r ≠ p, r ≠ q → m' r = m r) :
    Tree F m' (l + 1) p ∧ nodes F m' (l + 1) p = nodes F m (l + 1) p ∪ {q} ∧
      (∀ v, lookup F m' (l + 1) p v = lookup F m (l + 1) p v) ∧
      (Inner F m Q (l + 1) p → Q e → Inner F m' Q (l + 1) p) := by
  have hqp : p ≠ q := by
    rintro rfl
    exact hq (root_mem_nodes _ _)
  have hself : m' p i = e := by rw [hp, update_self]
  have hne : ∀ j ≠ i, m' p j = m p j := by
    intro j hj
    rw [hp, update_of_ne hj]
  -- the old children keep their trees
  have hold : ∀ j, F.valid (m p j) = true → ∀ r ∈ nodes F m l (F.child (m p j)), m' r = m r := by
    intro j hj r hr
    refine hagree r ?_ ?_
    · rintro rfl
      exact (ht.1 j hj).1 hr
    · rintro rfl
      exact hq (child_mem_nodes hj hr)
  have hcases : ∀ j, F.valid (m' p j) = true → (j = i ∧ nodes F m' l (F.child (m' p j)) = {q}) ∨
      (j ≠ i ∧ F.valid (m p j) = true ∧ m' p j = m p j ∧
        nodes F m' l (F.child (m' p j)) = nodes F m l (F.child (m p j))) := by
    intro j hj
    by_cases hji : j = i
    · refine Or.inl ⟨hji, ?_⟩
      rw [hji, hself, hc]
      exact nodes_blank hblank
    · rw [hne j hji] at hj ⊢
      exact Or.inr ⟨hji, hj, rfl, nodes_congr (hold j hj)⟩
  refine ⟨⟨fun j hj => ?_, fun j k hj hk hjk r hr hrk => ?_⟩, ?_, fun v => ?_, fun hin hQ j hj => ?_⟩
  · rcases hcases j hj with ⟨rfl, hn⟩ | ⟨hji, hj', heq, hn⟩
    · rw [hn, hself, hc]
      exact ⟨hqp, tree_blank hblank⟩
    · rw [hn, heq]
      exact ⟨(ht.1 j hj').1, tree_congr (hold j hj') (ht.1 j hj').2⟩
  · rcases hcases j hj with ⟨rfl, hn⟩ | ⟨hji, hj', heq, hn⟩
    · rcases hcases k hk with ⟨rfl, -⟩ | ⟨-, hk', -, hnk⟩
      · exact hjk rfl
      rw [hn] at hr
      rw [hnk] at hrk
      obtain rfl : r = q := hr
      exact hq (child_mem_nodes hk' hrk)
    · rw [hn] at hr
      rcases hcases k hk with ⟨-, hnk⟩ | ⟨-, hk', -, hnk⟩
      · rw [hnk] at hrk
        obtain rfl : r = q := hrk
        exact hq (child_mem_nodes hj' hr)
      · rw [hnk] at hrk
        exact ht.2 j k hj' hk' hjk r hr hrk
  · ext r
    constructor
    · rintro (hr | ⟨j, hj, hr⟩)
      · exact Or.inl (Or.inl hr)
      rcases hcases j hj with ⟨-, hn⟩ | ⟨-, hj', -, hn⟩
      · rw [hn] at hr
        exact Or.inr hr
      · rw [hn] at hr
        exact Or.inl (child_mem_nodes hj' hr)
    · rintro ((hr | ⟨j, hj, hr⟩) | hr)
      · exact Or.inl hr
      · have hji : j ≠ i := by
          rintro rfl
          rw [hfree] at hj
          cases hj
        rw [← nodes_congr (hold j hj)] at hr
        rw [← hne j hji] at hj hr
        exact child_mem_nodes hj hr
      · refine child_mem_nodes (i := i) (hself ▸ he) ?_
        rw [hself, hc, nodes_blank hblank]
        exact hr
  · rw [lookup, lookup]
    by_cases hv : F.index (l + 1) v = i
    · rw [hv, hself, if_pos he, hc, hfree, lookup_blank hblank]
      rfl
    rw [hne _ hv]
    split
    · next hvalid => exact lookup_congr (hold _ hvalid) v
    · rfl
  · by_cases hji : j = i
    · rw [hji, hself, hc]
      exact ⟨hQ, inner_blank hblank⟩
    · rw [hne j hji] at hj ⊢
      exact ⟨(hin j hj).1, inner_congr (hold j hj) (hin j hj).2⟩

/-- A word written into the slot of key `v`. -/
theorem Tree.write {v : V} {e : W} (ht : Tree F m l p) (hs : Slot F m l p v q)
    (hq : m' q = update (m q) (F.index 0 v) e) (hagree : ∀ r ≠ q, m' r = m r) :
    Tree F m' l p ∧ nodes F m' l p = nodes F m l p ∧
      (∀ w, Same F l v w → lookup F m' l p w = if F.valid e then some e else none) ∧
      (∀ w, ¬ Same F l v w → lookup F m' l p w = lookup F m l p w) ∧
      (Inner F m Q l p → Inner F m' Q l p) := by
  induction l generalizing p with
  | zero =>
    obtain rfl : q = p := hs
    refine ⟨trivial, rfl, fun w hw => ?_, fun w hw => ?_, fun _ => trivial⟩
    · rw [lookup, hq, hw 0 (Nat.le_refl 0), update_self]
    have hne : F.index 0 w ≠ F.index 0 v := by
      intro h0
      refine hw fun k hk => ?_
      obtain rfl : k = 0 := Nat.le_zero.mp hk
      exact h0
    rw [lookup, lookup, hq, update_of_ne hne]
  | succ l ih =>
    obtain ⟨hi, hs'⟩ := hs
    set i := F.index (l + 1) v with hidef
    obtain ⟨hsub, hnodes, hsame, hdiff, hinner⟩ := ih (ht.1 i hi).2 hs'
    have hqmem : q ∈ nodes F m l (F.child (m p i)) := slot_mem_nodes hs'
    have hout : ∀ r ∈ (∅ : Set P), r ∉ nodes F m (l + 1) p := fun r hr => absurd hr (Set.notMem_empty r)
    have hagree' : ∀ r ∉ nodes F m l (F.child (m p i)), r ∉ (∅ : Set P) → m' r = m r :=
      fun r hr _ => hagree r fun h => hr (h ▸ hqmem)
    obtain ⟨hp, htree, hall, hrest⟩ := ht.update_child hi hout hagree' hsub (hnodes.trans (Set.union_empty _).symm)
    refine ⟨htree, hall.trans (Set.union_empty _), fun w hw => ?_, fun w hw => ?_, fun hin => ?_⟩
    · have hwi : F.index (l + 1) w = i := hw (l + 1) (Nat.le_refl _)
      rw [lookup, hwi, hp, if_pos hi]
      exact hsame w fun k hk => hw k (Nat.le_succ_of_le hk)
    · by_cases hwi : F.index (l + 1) w = i
      · rw [lookup, lookup, hwi, hp, if_pos hi, if_pos hi]
        refine hdiff w fun hlow => hw fun k hk => ?_
        rcases Nat.le_succ_iff.mp hk with hk | rfl
        · exact hlow k hk
        · exact hwi
      · exact hrest w hwi
    · exact hin.update_child ht hi hout hagree' (hinner (hin i hi).2)

end Xv6Lab.Lib.RadixTree
