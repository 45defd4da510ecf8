import Mathlib.Data.List.Nodup

/-!
# Circular doubly linked lists

The nodes of an intrusive list are the elements of a type and one sentinel, written `none`. `Linked L l` says
that the pointers `L` lay out the list `l`: following `next` from the sentinel visits `l` in order and comes
back to the sentinel, and following `prev` visits it in reverse.

The two edits of such a list keep it laid out: unlinking a node (`Linked.remove`) and linking one in behind
the sentinel (`Linked.insertFront`). Loops that follow the pointers compute what the list functions do
(`follow_eq`, `search_eq`).
-/

namespace Xv6Lab.Lib.LinkedList

open Function List

open Function (update)

variable {α : Type} {f g : Option α → Option α} {x : Option α} {l l₁ l₂ : List α} {b : α}

/-! ## Paths -/

/-- Following `f` from the node `x` visits `l` and then the sentinel. -/
def Path (f : Option α → Option α) : Option α → List α → Prop
  | x, [] => f x = none
  | x, a :: l => f x = some a ∧ Path f (some a) l

theorem Path.head (h : Path f x l) : f x = l.head? := by
  cases l with
  | nil => exact h
  | cons a l => exact h.1

/-- A path reads the pointers of its start and of the nodes it visits. -/
theorem Path.congr (h : Path f x l) (hx : g x = f x) (hl : ∀ a ∈ l, g (some a) = f (some a)) : Path g x l := by
  induction l generalizing x with
  | nil => exact hx.trans h
  | cons a l ih =>
    constructor
    · exact hx.trans h.1
    · apply ih h.2 (hl a mem_cons_self)
      intro c hc
      exact hl c (mem_cons_of_mem a hc)

theorem Path.after (h : Path f x (l₁ ++ b :: l₂)) : Path f (some b) l₂ := by
  induction l₁ generalizing x with
  | nil => exact h.2
  | cons a l₁ ih => exact ih h.2

/-! ## Loops over a list -/

/-- The nodes met from `x` on, up to the sentinel. -/
def follow (f : Option α → Option α) : Nat → Option α → List α
  | 0, _ => []
  | _ + 1, none => []
  | n + 1, some a => a :: follow f n (f (some a))

/-- The first node from `x` on that satisfies `p`. -/
def search (f : Option α → Option α) (p : α → Bool) : Nat → Option α → Option α
  | 0, _ => none
  | _ + 1, none => none
  | n + 1, some a => if p a then some a else search f p n (f (some a))

theorem follow_eq {n : Nat} (h : Path f x l) (hn : l.length < n) : follow f n (f x) = l := by
  induction l generalizing x n with
  | nil =>
    rw [h.head]
    cases n <;> rfl
  | cons a l ih =>
    cases n with
    | zero => exact absurd hn (Nat.not_lt_zero _)
    | succ n =>
      rw [h.1, follow, ih h.2 (Nat.lt_of_succ_lt_succ hn)]

theorem search_eq {n : Nat} {p : α → Bool} (h : Path f x l) (hn : l.length < n) : search f p n (f x) = l.find? p := by
  induction l generalizing x n with
  | nil =>
    rw [h.head]
    cases n <;> rfl
  | cons a l ih =>
    cases n with
    | zero => exact absurd hn (Nat.not_lt_zero _)
    | succ n =>
      rw [h.1, search, find?_cons, ih h.2 (Nat.lt_of_succ_lt_succ hn)]
      cases p a <;> rfl

/-! ## Edits of a path -/

/-- The last node before the end of a path that starts at `x`. -/
def lastNode (x : Option α) (l : List α) : Option α := (l.getLast?).or x

theorem lastNode_cons (a : α) : lastNode x (a :: l) = lastNode (some a) l := by
  cases l with
  | nil => rfl
  | cons c l => simp [lastNode, getLast?_cons]

@[simp] theorem lastNode_none : lastNode none l = l.getLast? := by simp [lastNode]

/-- The last node is among the visited ones. -/
theorem ne_lastNode {a : α} (h : ∀ c ∈ a :: l, x ≠ some c) : x ≠ lastNode (some a) l := by
  induction l generalizing a with
  | nil => exact h a mem_cons_self
  | cons d l ih =>
    rw [lastNode_cons]
    apply ih
    intro c hc
    exact h c (mem_cons_of_mem a hc)

variable [DecidableEq α]

/-- Let the node before `b` point past `b`. -/
theorem Path.skip (h : Path f x (l₁ ++ b :: l₂)) (hx : ∀ a ∈ l₁ ++ b :: l₂, x ≠ some a)
    (hnodup : (l₁ ++ b :: l₂).Nodup) : Path (update f (lastNode x l₁) (f (some b))) x (l₁ ++ l₂) := by
  induction l₁ generalizing x with
  | nil =>
    -- the start itself is redirected; the nodes behind `b` keep their pointers
    have hrest : Path f (some b) l₂ := h.2
    have hsame : ∀ a ∈ l₂, update f x (f (some b)) (some a) = f (some a) := by
      intro a ha
      apply update_of_ne
      exact (hx a (mem_cons_of_mem b ha)).symm
    cases l₂ with
    | nil => simpa [Path, lastNode] using hrest
    | cons a l =>
      constructor
      · simpa [lastNode] using hrest.1
      apply hrest.2.congr
      · exact hsame a mem_cons_self
      · intro c hc
        exact hsame c (mem_cons_of_mem a hc)
  | cons a l₁ ih =>
    rw [cons_append, nodup_cons] at hnodup
    rw [lastNode_cons]
    have hlast : x ≠ lastNode (some a) l₁ :=
      ne_lastNode fun c hc => hx c (mem_append_left (b :: l₂) hc)
    constructor
    · rw [update_of_ne hlast]
      exact h.1
    apply ih h.2 _ hnodup.2
    rintro c hc heq
    cases heq
    exact hnodup.1 hc

/-- Let the last node of a path point to `b`, and `b` to the sentinel. -/
theorem Path.snoc (h : Path f x l) (hx : x ≠ some b) (hb : b ∉ l) (hl : ∀ a ∈ l, x ≠ some a) (hnodup : l.Nodup) :
    Path (update (update f (some b) none) (lastNode x l) (some b)) x (l ++ [b]) := by
  induction l generalizing x with
  | nil =>
    constructor
    · simp [lastNode]
    · simp [Path, lastNode, update_of_ne hx.symm]
  | cons a l ih =>
    rw [nodup_cons] at hnodup
    rw [mem_cons, not_or] at hb
    rw [lastNode_cons]
    have hlast : x ≠ lastNode (some a) l := ne_lastNode hl
    constructor
    · rw [update_of_ne hlast, update_of_ne hx]
      exact h.1
    apply ih h.2 _ hb.2 _ hnodup.2
    · intro heq
      exact hb.1 (Option.some.inj heq).symm
    · rintro c hc heq
      cases heq
      exact hnodup.1 hc

/-! ## Lists and their edits -/

/-- The pointers of a list. -/
structure Links (α : Type) where
  next : Option α → Option α
  prev : Option α → Option α

/-- The pointers `L` lay out the list `l`. -/
structure Linked (L : Links α) (l : List α) : Prop where
  forward : Path L.next none l
  backward : Path L.prev none l.reverse
  nodup : l.Nodup

/-- The sentinel points to itself both ways. -/
def Links.empty : Links α := ⟨fun _ => none, fun _ => none⟩

/-- Unlink the node `b`. -/
def Links.remove (L : Links α) (b : α) : Links α :=
  let L₁ := { L with prev := update L.prev (L.next (some b)) (L.prev (some b)) }
  { L₁ with next := update L₁.next (L₁.prev (some b)) (L₁.next (some b)) }

/-- Link the node `b` in behind the sentinel. -/
def Links.insertFront (L : Links α) (b : α) : Links α :=
  let L₁ := { L with next := update L.next (some b) (L.next none) }
  let L₂ := { L₁ with prev := update L₁.prev (some b) none }
  let L₃ := { L₂ with prev := update L₂.prev (L₂.next none) (some b) }
  { L₃ with next := update L₃.next none (some b) }

variable {L : Links α}

omit [DecidableEq α] in
theorem linked_empty : Linked (α := α) .empty [] := ⟨rfl, rfl, List.nodup_nil⟩

theorem Linked.remove (h : Linked L (l₁ ++ b :: l₂)) : Linked (L.remove b) (l₁ ++ l₂) := by
  have hback : Path L.prev none (l₂.reverse ++ b :: l₁.reverse) := by simpa using h.backward
  have hnodup := h.nodup
  have hnext : L.next (some b) = l₂.head? := h.forward.after.head
  have hprev : L.prev (some b) = l₁.getLast? := by
    rw [hback.after.head, head?_reverse]
  have hself : some b ≠ l₂.head? := by
    intro heq
    have hmem : b ∈ l₂ := mem_of_mem_head? heq.symm
    simp [nodup_append, hmem] at hnodup
  -- the assignments are independent: the successor of `b` is not `b`
  have hremove : L.remove b = ⟨update L.next l₁.getLast? l₂.head?, update L.prev l₂.head? l₁.getLast?⟩ := by
    simp [Links.remove, hnext, hprev, update_of_ne hself]
  rw [hremove]
  constructor
  · have hskip := h.forward.skip (fun _ _ => (Option.some_ne_none _).symm) hnodup
    rwa [hnext, lastNode_none] at hskip
  · have hskip := hback.skip (fun _ _ => (Option.some_ne_none _).symm) (by simpa using nodup_reverse.mpr hnodup)
    rw [hprev, lastNode_none, getLast?_reverse] at hskip
    rwa [reverse_append]
  · exact hnodup.sublist (List.Sublist.append_left (sublist_cons_self b l₂) l₁)

theorem Linked.insertFront (h : Linked L l) (hb : b ∉ l) : Linked (L.insertFront b) (b :: l) := by
  have hhead : L.next none = l.head? := h.forward.head
  have hinsert : L.insertFront b = ⟨update (update L.next (some b) l.head?) none (some b),
      update (update L.prev (some b) none) l.head? (some b)⟩ := by
    simp [Links.insertFront, hhead]
  have hsame : ∀ a ∈ l, update (update L.next (some b) l.head?) none (some b) (some a) = L.next (some a) := by
    intro a ha
    rw [update_of_ne (Option.some_ne_none a), update_of_ne]
    intro heq
    cases heq
    exact hb ha
  have hnew : update (update L.next (some b) l.head?) none (some b) (some b) = l.head? := by
    rw [update_of_ne (Option.some_ne_none b), update_self]
  rw [hinsert]
  constructor
  · constructor
    · simp
    cases l with
    | nil => exact hnew
    | cons a l =>
      constructor
      · exact hnew
      · apply h.forward.2.congr (hsame a mem_cons_self)
        intro c hc
        exact hsame c (mem_cons_of_mem a hc)
  · have hsnoc := h.backward.snoc (b := b) (Option.some_ne_none b).symm (by simpa using hb)
      (fun _ _ => (Option.some_ne_none _).symm) (nodup_reverse.mpr h.nodup)
    rw [lastNode_none, getLast?_reverse] at hsnoc
    rwa [reverse_cons]
  · exact nodup_cons.mpr ⟨hb, h.nodup⟩

end Xv6Lab.Lib.LinkedList
