import Xv6Lab.Lib.Tally

/-!
# Tables of shared handles

A table has entries with reference counts; slots point to entries. Code that works on such a table holds
references that are in no slot yet, or has filled and emptied slots without having counted that yet:
`Exact hold ref loose owed` is the equation between the counts and the slots with both kinds of differences.
When nothing is loose and nothing is owed, a count is the number of slots (`Exact.ref_eq`).

An entry can stand for a resource that has to be given back once. `Matched` says that the resources that are
open are those that an entry carries, each by one entry, and those that are on their way.
-/

namespace Xv6Lab.Lib.Handles

open Lib.Tally Multiset List Option

/-! ## Counts -/

section Counts

variable {H E : Type} [Fintype H] [DecidableEq E] {hold hold' : H → Option E} {ref ref' : E → Nat}
  {loose owed : Multiset E} {e f : E} {h : H}

/-- The count of an entry is the number of its slots and loose references, up to what is owed. -/
def Exact (hold : H → Option E) (ref : E → Nat) (loose owed : Multiset E) : Prop :=
  ∀ e, ref e + owed.count e = tally Finset.univ hold (some e) + loose.count e

theorem exact_empty (hhold : ∀ h, hold h = none) (href : ∀ e, ref e = 0) : Exact hold ref 0 0 := by
  intro e
  have hnone : tally Finset.univ hold (some e) = 0 :=
    tally_eq_zero.mpr fun h _ => by
      rw [hhold h]
      exact (some_ne_none e).symm
  rw [href e, hnone]

theorem Exact.ref_eq (hex : Exact hold ref 0 0) (e : E) : ref e = tally Finset.univ hold (some e) :=
  hex e

/-- Without debts an entry that a slot points to has a reference. -/
theorem Exact.pos_of_hold (hex : Exact hold ref loose 0) (hhold : hold h = some e) : 0 < ref e := by
  have hpos : 0 < tally Finset.univ hold (some e) := tally_pos.mpr ⟨h, Finset.mem_univ h, hhold⟩
  have hcount := hex e
  rw [count_zero] at hcount
  omega

/-- Without debts an entry with a loose reference has a reference. -/
theorem Exact.pos_of_loose (hex : Exact hold ref (e ::ₘ loose) 0) : 0 < ref e := by
  have hcount := hex e
  rw [Multiset.count_zero, Multiset.count_cons_self] at hcount
  omega

/-- One more reference is counted, and is loose. -/
theorem Exact.count (hex : Exact hold ref loose owed) (hself : ref' e = ref e + 1)
    (hne : ∀ f ≠ e, ref' f = ref f) : Exact hold ref' (e ::ₘ loose) owed := by
  intro f
  have hf := hex f
  rcases eq_or_ne f e with rfl | hfe
  · rw [hself, Multiset.count_cons_self]
    omega
  · rw [hne f hfe, Multiset.count_cons_of_ne hfe]
    exact hf

/-- A loose reference is given up. -/
theorem Exact.drop (hex : Exact hold ref (e ::ₘ loose) owed) (hself : ref' e + 1 = ref e)
    (hne : ∀ f ≠ e, ref' f = ref f) : Exact hold ref' loose owed := by
  intro f
  have hf := hex f
  rcases eq_or_ne f e with rfl | hfe
  · rw [Multiset.count_cons_self] at hf
    omega
  · rw [Multiset.count_cons_of_ne hfe] at hf
    rw [hne f hfe]
    exact hf

/-- A reference that is both loose and owed is neither. -/
theorem exact_borrow : Exact hold ref (e ::ₘ loose) (e ::ₘ owed) ↔ Exact hold ref loose owed := by
  refine forall_congr' fun f => ?_
  rw [Multiset.count_cons, Multiset.count_cons]
  omega

variable [DecidableEq H]

/-- An empty slot gets a loose reference. -/
theorem exact_store (hempty : hold h = none) :
    Exact (Function.update hold h (some e)) ref loose owed ↔ Exact hold ref (e ::ₘ loose) owed := by
  refine forall_congr' fun f => ?_
  have htally := tally_update (g := hold) (b := some f) (Finset.mem_univ h) (some e)
  rw [hempty, if_neg (some_ne_none f).symm] at htally
  rcases eq_or_ne f e with rfl | hfe
  · rw [if_pos rfl] at htally
    rw [Multiset.count_cons_self]
    omega
  · rw [if_neg fun heq => hfe (some.inj heq).symm] at htally
    rw [Multiset.count_cons_of_ne hfe]
    omega

/-- A slot is emptied, its reference is loose. -/
theorem Exact.take (hex : Exact hold ref loose owed) (hfull : hold h = some e) :
    Exact (Function.update hold h none) ref (e ::ₘ loose) owed := by
  apply (exact_store (Function.update_self ..)).mp
  rw [Function.update_idem, ← hfull, Function.update_eq_self]
  exact hex

end Counts

/-! ## Resources -/

section Resources

variable {E R : Type} {carries carries' : E → Option R} {isOpen isOpen' : R → Prop} {pending : List R}
  {e : E} {r : R}

/-- Every open resource is carried by one entry or is pending. -/
structure Matched (carries : E → Option R) (isOpen : R → Prop) (pending : List R) : Prop where
  inj : ∀ e f r, carries e = some r → carries f = some r → e = f
  apart : ∀ r ∈ pending, ∀ e, carries e ≠ some r
  nodup : pending.Nodup
  cover : ∀ r, isOpen r ↔ (∃ e, carries e = some r) ∨ r ∈ pending

theorem matched_empty (hcarries : ∀ e, carries e = none) (hopen : ∀ r, ¬ isOpen r) :
    Matched carries isOpen [] where
  inj e f r he := absurd (he.symm.trans (hcarries e)) (some_ne_none r)
  apart r hr := absurd hr not_mem_nil
  nodup := nodup_nil
  cover r := by
    refine ⟨fun h => absurd h (hopen r), ?_⟩
    rintro (⟨e, he⟩ | hr)
    · exact absurd (he.symm.trans (hcarries e)) (some_ne_none r)
    · exact absurd hr not_mem_nil

theorem Matched.isOpen_of_carries (h : Matched carries isOpen pending) (he : carries e = some r) : isOpen r :=
  (h.cover r).mpr (.inl ⟨e, he⟩)

theorem Matched.congr (h : Matched carries isOpen pending) (hcarries : ∀ e, carries' e = carries e)
    (hopen : ∀ r, isOpen' r ↔ isOpen r) : Matched carries' isOpen' pending := by
  obtain rfl : carries' = carries := funext hcarries
  exact ⟨h.inj, h.apart, h.nodup, fun r => (hopen r).trans (h.cover r)⟩

/-- A resource is opened. -/
theorem Matched.acquire (h : Matched carries isOpen pending) (hclosed : ¬ isOpen r)
    (hopen : ∀ q, isOpen' q ↔ q = r ∨ isOpen q) : Matched carries isOpen' (r :: pending) where
  inj := h.inj
  apart q hq e he := by
    rcases mem_cons.mp hq with rfl | hq
    · exact hclosed (h.isOpen_of_carries he)
    · exact h.apart q hq e he
  nodup := nodup_cons.mpr ⟨fun hr => hclosed ((h.cover r).mpr (.inr hr)), h.nodup⟩
  cover q := by
    rw [hopen q, h.cover q, List.mem_cons]
    exact or_left_comm

/-- An entry that carries nothing gets a pending resource. -/
theorem Matched.attach (h : Matched carries isOpen (r :: pending)) (hnone : carries e = none)
    (hself : carries' e = some r) (hne : ∀ f ≠ e, carries' f = carries f) :
    Matched carries' isOpen pending := by
  have hold : ∀ f q, carries f = some q → carries' f = some q := by
    intro f q hf
    refine (hne f ?_).trans hf
    rintro rfl
    exact some_ne_none q (hf.symm.trans hnone)
  have hnew : ∀ f q, carries' f = some q → (f = e ∧ q = r) ∨ carries f = some q := by
    intro f q hf
    rcases eq_or_ne f e with rfl | hfe
    · exact .inl ⟨rfl, some.inj (hf.symm.trans hself)⟩
    · exact .inr ((hne f hfe).symm.trans hf)
  have hr := h.apart r mem_cons_self
  obtain ⟨hnotin, hnodup⟩ := nodup_cons.mp h.nodup
  refine ⟨fun f g q hf hg => ?_, fun q hq f hf => ?_, hnodup, fun q => ?_⟩
  · rcases hnew f q hf with ⟨rfl, rfl⟩ | hf
    · rcases hnew g q hg with ⟨rfl, -⟩ | hg
      · rfl
      · exact absurd hg (hr g)
    · rcases hnew g q hg with ⟨rfl, rfl⟩ | hg
      · exact absurd hf (hr f)
      · exact h.inj f g q hf hg
  · rcases hnew f q hf with ⟨-, rfl⟩ | hf
    · exact hnotin hq
    · exact h.apart q (mem_cons_of_mem r hq) f hf
  · rw [h.cover q]
    constructor
    · rintro (⟨f, hf⟩ | hq)
      · exact .inl ⟨f, hold f q hf⟩
      · rcases mem_cons.mp hq with rfl | hq
        · exact .inl ⟨e, hself⟩
        · exact .inr hq
    · rintro (⟨f, hf⟩ | hq)
      · rcases hnew f q hf with ⟨-, rfl⟩ | hf
        · exact .inr mem_cons_self
        · exact .inl ⟨f, hf⟩
      · exact .inr (mem_cons_of_mem r hq)

/-- An entry parts with its resource. -/
theorem Matched.detach (h : Matched carries isOpen pending) (hsome : carries e = some r)
    (hself : carries' e = none) (hne : ∀ f ≠ e, carries' f = carries f) :
    Matched carries' isOpen (r :: pending) := by
  have hnew : ∀ f q, carries' f = some q → f ≠ e ∧ carries f = some q := by
    intro f q hf
    have hfe : f ≠ e := by
      rintro rfl
      exact some_ne_none q (hf.symm.trans hself)
    exact ⟨hfe, (hne f hfe).symm.trans hf⟩
  refine ⟨fun f g q hf hg => ?_, fun q hq f hf => ?_, ?_, fun q => ?_⟩
  · exact h.inj f g q (hnew f q hf).2 (hnew g q hg).2
  · obtain ⟨hfe, hf⟩ := hnew f q hf
    rcases mem_cons.mp hq with rfl | hq
    · exact hfe (h.inj f e q hf hsome)
    · exact h.apart q hq f hf
  · exact nodup_cons.mpr ⟨fun hr => h.apart r hr e hsome, h.nodup⟩
  · rw [h.cover q]
    constructor
    · rintro (⟨f, hf⟩ | hq)
      · rcases eq_or_ne f e with rfl | hfe
        · exact .inr (mem_cons.mpr (.inl (some.inj (hf.symm.trans hsome))))
        · exact .inl ⟨f, (hne f hfe).trans hf⟩
      · exact .inr (mem_cons_of_mem r hq)
    · rintro (⟨f, hf⟩ | hq)
      · exact .inl ⟨f, (hnew f q hf).2⟩
      · rcases mem_cons.mp hq with rfl | hq
        · exact .inl ⟨e, hsome⟩
        · exact .inr hq

/-- An entry parts with what it carries, if it carries anything. -/
theorem Matched.clear (h : Matched carries isOpen pending) (hself : carries' e = none)
    (hne : ∀ f ≠ e, carries' f = carries f) :
    Matched carries' isOpen ((carries e).toList ++ pending) := by
  cases hr : carries e with
  | some r => exact h.detach hr hself hne
  | none =>
    refine h.congr (fun f => ?_) fun _ => Iff.rfl
    rcases eq_or_ne f e with rfl | hfe
    · exact hself.trans hr.symm
    · exact hne f hfe

/-- A pending resource is given back. -/
theorem Matched.release (h : Matched carries isOpen (r :: pending))
    (hopen : ∀ q, isOpen' q ↔ q ≠ r ∧ isOpen q) : Matched carries isOpen' pending := by
  obtain ⟨hnotin, hnodup⟩ := nodup_cons.mp h.nodup
  have hr := h.apart r mem_cons_self
  refine ⟨h.inj, fun q hq => h.apart q (mem_cons_of_mem r hq), hnodup, fun q => ?_⟩
  rw [hopen q, h.cover q, List.mem_cons]
  constructor
  · rintro ⟨hqr, he | rfl | hq⟩
    · exact .inl he
    · exact absurd rfl hqr
    · exact .inr hq
  · rintro (⟨e, he⟩ | hq)
    · refine ⟨?_, .inl ⟨e, he⟩⟩
      rintro rfl
      exact hr e he
    · refine ⟨?_, .inr (.inr hq)⟩
      rintro rfl
      exact hnotin hq

end Resources

end Xv6Lab.Lib.Handles
