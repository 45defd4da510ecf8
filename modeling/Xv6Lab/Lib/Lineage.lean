import Mathlib.Data.List.Nodup
import Mathlib.Data.Set.Basic

/-!
# Families with a root

Members live in slots and have parents. A member is built by its creator, lives, leaves with a status and is
collected by its parent, which records the status. Before a member leaves, its children are handed to the root.
Members have numbers that are never used again. `Valid` says that parents are alive, that the numbers, the exits
and the collected members fit together, and that the parent of a member is its creator or, for a creator that is
leaving or has left, the root. Every operation of a family keeps it.
-/

namespace Xv6Lab.Lib.Lineage

open Function List

variable {V S : Type}

inductive Stage (S : Type) where
  | building
  | alive
  | left (status : S)

structure Member (V S : Type) where
  stage : Stage S
  parent : Option V
  gen : Nat
  creator : Nat

/-- A collected member, its creator, the member that collected it and the status that was recorded. -/
structure Reap (S : Type) where
  child : Nat
  creator : Nat
  caller : Nat
  stored : Option S

structure Family (V S : Type) where
  member : V → Option (Member V S)
  /-- The number of members ever created. -/
  births : Nat
  exits : List (Nat × S)
  reaps : List (Reap S)

/-- The members that have left. -/
def Family.exited (F : Family V S) : List Nat := F.exits.map Prod.fst

/-- A well-formed family; `L` are the members that are leaving or have left. -/
structure Valid (root : V) (L : Set Nat) (F : Family V S) : Prop where
  root_alive : ∃ m, F.member root = some m ∧ m.stage = .alive ∧ m.gen = 0
  parent_alive : ∀ q m r, F.member q = some m → m.parent = some r → ∃ mr, F.member r = some mr ∧ mr.stage = .alive
  has_parent : ∀ q m, F.member q = some m → q ≠ root → m.stage ≠ .building → m.parent ≠ none
  creator : ∀ q m r mr, F.member q = some m → m.parent = some r → F.member r = some mr →
    mr.gen = m.creator ∨ r = root ∧ m.creator ∈ L
  gen_lt : ∀ q m, F.member q = some m → m.gen < F.births
  gen_inj : ∀ q r m m', F.member q = some m → F.member r = some m' → m.gen = m'.gen → q = r
  exits_lt : ∀ e ∈ F.exits, e.1 < F.births
  exits_nodup : F.exited.Nodup
  exited_left : ∀ e ∈ F.exits, ∀ q m, F.member q = some m → m.gen = e.1 → m.stage = .left e.2
  left_exited : ∀ q m status, F.member q = some m → m.stage = .left status → (m.gen, status) ∈ F.exits
  reaps_nodup : (F.reaps.map Reap.child).Nodup
  reaped_gone : ∀ e ∈ F.reaps, ∀ q m, F.member q = some m → m.gen ≠ e.child
  reap_status : ∀ e ∈ F.reaps, ∃ status, (e.child, status) ∈ F.exits ∧ ∀ x, e.stored = some x → x = status
  reap_parent : ∀ e ∈ F.reaps, e.caller = e.creator ∨ e.caller = 0 ∧ e.creator ∈ F.exited

variable {root : V} {L L' : Set Nat} {F : Family V S} {p q r : V} {m n mp x : Member V S}

theorem Valid.mono (h : Valid root L F) (hL : L ⊆ L') : Valid root L' F :=
  { h with
    creator := fun q m r mr hq hr hm => (h.creator q m r mr hq hr hm).imp id fun hroot => ⟨hroot.1, hL hroot.2⟩ }

/-- A creation that fails uses up a number. -/
theorem Valid.fail (h : Valid root L F) : Valid root L { F with births := F.births + 1 } :=
  { h with
    gen_lt := fun q m hq => Nat.lt_succ_of_lt (h.gen_lt q m hq)
    exits_lt := fun e he => Nat.lt_succ_of_lt (h.exits_lt e he) }

variable [DecidableEq V]

def Family.set (F : Family V S) (q : V) (m : Option (Member V S)) : Family V S :=
  { F with member := update F.member q m }

theorem set_member_eq_some {m : Option (Member V S)} (h : (F.set q m).member r = some x) :
    r = q ∧ m = some x ∨ r ≠ q ∧ F.member r = some x := by
  have h : update F.member q m r = some x := h
  rcases eq_or_ne r q with rfl | hne
  · rw [update_self] at h
    exact .inl ⟨rfl, h⟩
  · rw [update_of_ne hne] at h
    exact .inr ⟨hne, h⟩

theorem set_member_self (F : Family V S) (q : V) (m : Option (Member V S)) :
    (F.set q m).member q = m := update_self ..

theorem set_member_ne (F : Family V S) (m : Option (Member V S)) (h : r ≠ q) :
    (F.set q m).member r = F.member r := update_of_ne h ..

theorem set_set (F : Family V S) (q : V) (m m' : Option (Member V S)) : (F.set q m).set q m' = F.set q m' := by
  unfold Family.set
  rw [update_idem]

/-! ## Operations -/

/-- The slot `q` gets the member `n`, and the family the exits `es` and the births `b`. What is asked of the others is
that they can keep `q` as their parent. -/
theorem Valid.set {es : List (Nat × S)} {b : Nat} (h : Valid root L F) (hb : F.births ≤ b) (hgen : n.gen < b)
    (hinj : ∀ r x, r ≠ q → F.member r = some x → x.gen ≠ n.gen) (hroot : q = root → n.stage = .alive ∧ n.gen = 0)
    (hchild : ∀ r x, r ≠ q → F.member r = some x → x.parent = some q →
      n.stage = .alive ∧ (n.gen = x.creator ∨ q = root ∧ x.creator ∈ L))
    (hparent : q ≠ root → n.stage ≠ .building → n.parent ≠ none)
    (halive : ∀ u, n.parent = some u → ∃ y, (F.set q (some n)).member u = some y ∧ y.stage = .alive ∧
      (y.gen = n.creator ∨ u = root ∧ n.creator ∈ L))
    (hnodup : (es.map Prod.fst).Nodup) (hsub : F.exits ⊆ es) (hnew : ∀ e ∈ es, e ∈ F.exits ∨ n.gen = e.1)
    (hleft : ∀ e ∈ es, n.gen = e.1 → n.stage = .left e.2)
    (hexit : ∀ status, n.stage = .left status → (n.gen, status) ∈ es)
    (hreap : ∀ e ∈ F.reaps, n.gen ≠ e.child) :
    Valid root L { F.set q (some n) with births := b, exits := es } := by
  have hcase : ∀ r x, (F.set q (some n)).member r = some x → r = q ∧ x = n ∨ r ≠ q ∧ F.member r = some x :=
    fun r x hr => (set_member_eq_some hr).imp (fun h => ⟨h.1, (Option.some.inj h.2).symm⟩) id
  refine
    { root_alive := ?_
      parent_alive := fun r x u hr hu => ?_
      has_parent := fun r x hr hne hstage => ?_
      creator := fun r x u y hr hu hy => ?_
      gen_lt := fun r x hr => ?_
      gen_inj := fun r u x y hr hu hxy => ?_
      exits_lt := fun e he => ?_
      exits_nodup := hnodup
      exited_left := fun e he r x hr hx => ?_
      left_exited := fun r x status hr hstage => ?_
      reaps_nodup := h.reaps_nodup
      reaped_gone := fun e he r x hr => ?_
      reap_status := fun e he => ?_
      reap_parent := fun e he => (h.reap_parent e he).imp id fun hc => ⟨hc.1, map_subset _ hsub hc.2⟩ }
  · obtain ⟨y, hy, hal⟩ := h.root_alive
    rcases eq_or_ne q root with heq | hne
    · exact ⟨n, heq ▸ set_member_self .., hroot heq⟩
    · exact ⟨y, (set_member_ne F _ hne.symm).trans hy, hal⟩
  · rcases hcase r x hr with ⟨-, rfl⟩ | ⟨hrq, hold⟩
    · obtain ⟨y, hy, hal, -⟩ := halive u hu
      exact ⟨y, hy, hal⟩
    rcases eq_or_ne u q with rfl | hne
    · exact ⟨n, set_member_self .., (hchild r x hrq hold hu).1⟩
    · obtain ⟨y, hy, hal⟩ := h.parent_alive r x u hold hu
      exact ⟨y, (set_member_ne F _ hne).trans hy, hal⟩
  · rcases hcase r x hr with ⟨rfl, rfl⟩ | ⟨-, hr⟩
    · exact hparent hne hstage
    · exact h.has_parent r x hr hne hstage
  · rcases hcase r x hr with ⟨-, rfl⟩ | ⟨hrq, hold⟩
    · obtain ⟨z, hz, -, hcreator⟩ := halive u hu
      obtain rfl : z = y := Option.some.inj (hz.symm.trans hy)
      exact hcreator
    rcases hcase u y hy with ⟨rfl, rfl⟩ | ⟨-, hy⟩
    · exact (hchild r x hrq hold hu).2
    · exact h.creator r x u y hold hu hy
  · rcases hcase r x hr with ⟨-, rfl⟩ | ⟨-, hr⟩
    · exact hgen
    · exact (h.gen_lt r x hr).trans_le hb
  · rcases hcase r x hr with ⟨rfl, rfl⟩ | ⟨hrq, hold⟩
    · rcases hcase u y hu with ⟨rfl, -⟩ | ⟨huq, hu⟩
      · rfl
      · exact absurd hxy.symm (hinj u y huq hu)
    · rcases hcase u y hu with ⟨-, rfl⟩ | ⟨-, hu⟩
      · exact absurd hxy (hinj r x hrq hold)
      · exact h.gen_inj r u x y hold hu hxy
  · rcases hnew e he with he | he
    · exact (h.exits_lt e he).trans_le hb
    · rw [← he]
      exact hgen
  · rcases hcase r x hr with ⟨-, rfl⟩ | ⟨hrq, hr⟩
    · exact hleft e he hx
    · rcases hnew e he with he | he
      · exact h.exited_left e he r x hr hx
      · exact absurd (hx.trans he.symm) (hinj r x hrq hr)
  · rcases hcase r x hr with ⟨-, rfl⟩ | ⟨-, hr⟩
    · exact hexit status hstage
    · exact hsub (h.left_exited r x status hr hstage)
  · rcases hcase r x hr with ⟨-, rfl⟩ | ⟨-, hr⟩
    · exact hreap e he
    · exact h.reaped_gone e he r x hr
  · obtain ⟨status, hmem, hstored⟩ := h.reap_status e he
    exact ⟨status, hsub hmem, hstored⟩

/-- A member in a free slot, with a new number and under construction. -/
theorem Valid.create (h : Valid root L F) (hq : F.member q = none) (creator : Nat) :
    Valid root L { F.set q (some ⟨.building, none, F.births, creator⟩) with births := F.births + 1 } := by
  have hempty : ∀ {x}, F.member q ≠ some x := by
    intro x hx
    rw [hq] at hx
    cases hx
  refine h.set (Nat.le_succ _) (Nat.lt_succ_self _) (fun r x _ hr => (h.gen_lt r x hr).ne) ?_ ?_
    (fun _ hstage => absurd rfl hstage) nofun h.exits_nodup (Subset.refl _) (fun _ => .inl) ?_ nofun ?_
  · rintro rfl
    obtain ⟨m, hm, -⟩ := h.root_alive
    exact absurd hm hempty
  · intro r x _ hr hx
    obtain ⟨m, hm, -⟩ := h.parent_alive r x q hr hx
    exact absurd hm hempty
  · intro e he hgen
    exact absurd hgen (h.exits_lt e he).ne'
  · intro e he
    obtain ⟨status, hexit, -⟩ := h.reap_status e he
    exact (h.exits_lt _ hexit).ne'

/-- A member gets another parent, or is finished. -/
theorem Valid.replace (h : Valid root L F) (hq : F.member q = some m) (hgen : n.gen = m.gen)
    (hstage : n.stage = m.stage ∨ m.stage = .building ∧ n.stage = .alive)
    (hparent : q ≠ root → n.stage ≠ .building → n.parent ≠ none)
    (halive : ∀ r, n.parent = some r → ∃ mr, F.member r = some mr ∧ mr.stage = .alive)
    (hcreator : ∀ r mr, n.parent = some r → F.member r = some mr → mr.gen = n.creator ∨ r = root ∧ n.creator ∈ L) :
    Valid root L (F.set q (some n)) := by
  have hlives : m.stage = .alive → n.stage = .alive := fun hm => hstage.elim (fun hs => hs.trans hm) fun hs => hs.2
  have hleft : ∀ status, n.stage = .left status ↔ m.stage = .left status := by
    intro status
    rcases hstage with hs | ⟨hb, ha⟩
    · rw [hs]
    · rw [hb, ha]
      exact iff_of_false nofun nofun
  refine h.set le_rfl (hgen ▸ h.gen_lt q m hq) (fun r x hrq hr hx => ?_) ?_ (fun r x _ hr hx => ?_) hparent
    (fun u hu => ?_) h.exits_nodup (Subset.refl _) (fun _ => .inl) ?_ ?_ fun e he => ?_
  · exact hrq (h.gen_inj r q x m hr hq (hx.trans hgen))
  · rintro rfl
    obtain ⟨y, hy, hal, hzero⟩ := h.root_alive
    obtain rfl : m = y := Option.some.inj (hq.symm.trans hy)
    exact ⟨hlives hal, hgen.trans hzero⟩
  · obtain ⟨y, hy, hal⟩ := h.parent_alive r x q hr hx
    obtain rfl : m = y := Option.some.inj (hq.symm.trans hy)
    rw [hgen]
    exact ⟨hlives hal, h.creator r x q m hr hx hq⟩
  · obtain ⟨y, hy, hal⟩ := halive u hu
    have hc := hcreator u y hu hy
    rcases eq_or_ne u q with rfl | hne
    · obtain rfl : m = y := Option.some.inj (hq.symm.trans hy)
      exact ⟨n, set_member_self .., hlives hal, hgen ▸ hc⟩
    · exact ⟨y, (set_member_ne F _ hne).trans hy, hal, hc⟩
  · intro e he hx
    exact (hleft _).mpr (h.exited_left e he q m hq (hgen.symm.trans hx))
  · intro status hst
    rw [hgen]
    exact h.left_exited q m status hq ((hleft status).mp hst)
  · rw [hgen]
    exact h.reaped_gone e he q m hq

/-- A member without children leaves. -/
theorem Valid.exit (h : Valid root L F) (hp : F.member p = some m) (halive : m.stage = .alive)
    (hroot : p ≠ root) (hnone : ∀ q x, F.member q = some x → x.parent ≠ some p) (status : S) :
    Valid root L { F.set p (some { m with stage := .left status }) with exits := (m.gen, status) :: F.exits } := by
  -- the member was alive, so it has not left before
  have hnew : m.gen ∉ F.exited := by
    intro hmem
    obtain ⟨e, he, hgen⟩ := mem_map.mp hmem
    have hstage := h.exited_left e he p m hp hgen.symm
    rw [halive] at hstage
    cases hstage
  refine h.set le_rfl (h.gen_lt p m hp) (fun r x hne hr hx => hne (h.gen_inj r p x m hr hp hx))
    (fun heq => absurd heq hroot) (fun r x _ hr hx => absurd hx (hnone r x hr))
    (fun hne _ => h.has_parent p m hp hne ?_) (fun u hu => ?_) (nodup_cons.mpr ⟨hnew, h.exits_nodup⟩)
    (subset_cons_self _ _) (fun e he => ?_) (fun e he hx => ?_) ?_ fun e he => h.reaped_gone e he p m hp
  · rw [halive]
    exact nofun
  · obtain ⟨y, hy, hal⟩ := h.parent_alive p m u hp hu
    have hne : u ≠ p := by
      rintro rfl
      exact hnone u m hp hu
    exact ⟨y, (set_member_ne F _ hne).trans hy, hal, h.creator p m u y hp hu hy⟩
  · rcases mem_cons.mp he with rfl | he
    · exact .inr rfl
    · exact .inl he
  · rcases mem_cons.mp he with rfl | he
    · rfl
    · exact absurd (mem_map.mpr ⟨e, he, hx.symm⟩) hnew
  · rintro st ⟨⟩
    exact mem_cons_self

/-- A parent collects a child that has left. -/
theorem Valid.reap (h : Valid root L F) (hq : F.member q = some m) {status : S}
    (hleft : m.stage = .left status) (hparent : m.parent = some p) (hp : F.member p = some mp)
    (hL : ∀ id ∈ L, id ∈ F.exited) {stored : Option S} (hstored : ∀ x, stored = some x → x = status) :
    Valid root L { F.set q none with reaps := ⟨m.gen, m.creator, mp.gen, stored⟩ :: F.reaps } := by
  have hold : ∀ r x, (F.set q none).member r = some x → r ≠ q ∧ F.member r = some x := by
    intro r x hr
    rcases set_member_eq_some hr with ⟨-, hnone⟩ | hr
    · cases hnone
    · exact hr
  have halive : ∀ r mr, F.member r = some mr → mr.stage = .alive → (F.set q none).member r = some mr := by
    intro r mr hr hal
    refine (set_member_ne F _ fun heq => ?_).trans hr
    obtain rfl : m = mr := Option.some.inj (hq.symm.trans (heq ▸ hr))
    rw [hleft] at hal
    cases hal
  refine
    { root_alive := ?_
      parent_alive := fun r x u hr hu => ?_
      has_parent := fun r x hr => h.has_parent r x (hold r x hr).2
      creator := fun r x u mu hr hu hmu => h.creator r x u mu (hold r x hr).2 hu (hold u mu hmu).2
      gen_lt := fun r x hr => h.gen_lt r x (hold r x hr).2
      gen_inj := fun r u x y hr hu => h.gen_inj r u x y (hold r x hr).2 (hold u y hu).2
      exits_lt := h.exits_lt
      exits_nodup := h.exits_nodup
      exited_left := fun e he r x hr => h.exited_left e he r x (hold r x hr).2
      left_exited := fun r x st hr => h.left_exited r x st (hold r x hr).2
      reaps_nodup := nodup_cons.mpr ⟨fun hmem => ?_, h.reaps_nodup⟩
      reaped_gone := fun e he r x hr hgen => ?_
      reap_status := fun e he => ?_
      reap_parent := fun e he => ?_ }
  · obtain ⟨mr, hmr, hal⟩ := h.root_alive
    exact ⟨mr, halive root mr hmr hal.1, hal⟩
  · obtain ⟨mr, hmr, hal⟩ := h.parent_alive r x u (hold r x hr).2 hu
    exact ⟨mr, halive u mr hmr hal, hal⟩
  · obtain ⟨e, he, hchild⟩ := mem_map.mp hmem
    exact h.reaped_gone e he q m hq hchild.symm
  · obtain ⟨hne, hr⟩ := hold r x hr
    rcases mem_cons.mp he with rfl | he
    · exact hne (h.gen_inj r q x m hr hq hgen)
    · exact h.reaped_gone e he r x hr hgen
  · rcases mem_cons.mp he with rfl | he
    · exact ⟨status, h.left_exited q m status hq hleft, hstored⟩
    · exact h.reap_status e he
  · rcases mem_cons.mp he with rfl | he
    · rcases h.creator q m p mp hq hparent hp with hgen | ⟨rfl, hmem⟩
      · exact .inl hgen
      · obtain ⟨mr, hmr, -, hzero⟩ := h.root_alive
        obtain rfl : mr = mp := Option.some.inj (hmr.symm.trans hp)
        exact .inr ⟨hzero, hL _ hmem⟩
    · exact h.reap_parent e he

end Xv6Lab.Lib.Lineage
