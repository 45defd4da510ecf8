import Xv6Lab.Lib.Tally

/-!
# Graphs with link counts

A directory graph has vertices that are live or not, some of them directories. A directory has numbered
places that may name vertices, and it names a parent. Every vertex carries a link count. The operations
are the making of a vertex, the linking and unlinking of a place, and the removal of vertices without
links.

`weight` is what a link count should be: the number of places that name the vertex, plus the number of its
own places that name directories (whose parent it is), plus one for the root. `link` and `unlink` change
count and weight of every vertex by the same amount. Two invariants follow: `Bounded`, which only bounds
the weight by the count, so that a vertex without links is named by no place, and `Balanced`, in which the
two are equal and count the parents of the live directories (`Balanced.nlink_eq`).
-/

namespace Xv6Lab.Lib.LinkGraph

open Function Classical Lib.Tally

variable {V : Type}

/-- A graph of directories. -/
@[ext] structure DirGraph (V : Type) where
  live : V → Prop
  dir : V → Prop
  nlink : V → Int
  child : V × Nat → Option V
  parent : V → Option V

namespace DirGraph

variable {G : DirGraph V} {root v w d e : V} {k : Nat} {isDir : Prop} {par : Option V} {S : V → Prop}
  {x : V × Nat}

/-! ## Operations -/

/-- The number of places that name a vertex. -/
noncomputable def names (G : DirGraph V) (v : V) : Nat := points G.child v

/-- The places of a vertex that name directories. -/
noncomputable def subs (G : DirGraph V) (v : V) (k : Nat) : Option Unit :=
  if ∃ w, G.child (v, k) = some w ∧ G.dir w then some () else none

noncomputable def subdirs (G : DirGraph V) (v : V) : Nat := points (G.subs v) ()

/-- What the link count of a vertex should be. -/
noncomputable def weight (G : DirGraph V) (root v : V) : Nat :=
  G.names v + G.subdirs v + if v = root then 1 else 0

/-- A vertex comes into use without links. -/
noncomputable def make (G : DirGraph V) (v : V) (isDir : Prop) (par : Option V) : DirGraph V where
  live j := j = v ∨ G.live j
  dir j := if j = v then isDir else G.dir j
  nlink := update G.nlink v 0
  child := G.child
  parent := update G.parent v par

/-- By how much linking `v` into `d` changes the link count of `j`. -/
noncomputable def gain (G : DirGraph V) (d v j : V) : Nat :=
  (if v = j then 1 else 0) + if d = j ∧ G.dir v then 1 else 0

/-- Place `k` of `d` comes to name `v`. -/
noncomputable def link (G : DirGraph V) (d : V) (k : Nat) (v : V) : DirGraph V where
  live := G.live
  dir := G.dir
  nlink j := G.nlink j + G.gain d v j
  child := update G.child (d, k) (some v)
  parent := G.parent

/-- Place `k` of `d`, which names `v`, is erased. -/
noncomputable def unlink (G : DirGraph V) (d : V) (k : Nat) (v : V) : DirGraph V where
  live := G.live
  dir := G.dir
  nlink j := G.nlink j - G.gain d v j
  child := update G.child (d, k) none
  parent := G.parent

/-- The vertices of `S` go out of use. -/
noncomputable def reap (G : DirGraph V) (S : V → Prop) : DirGraph V where
  live j := G.live j ∧ ¬ S j
  dir j := G.dir j ∧ ¬ S j
  nlink j := if S j then 0 else G.nlink j
  child x := if S x.1 then none else G.child x
  parent j := if S j then none else G.parent j

theorem make_dir_self : (G.make v isDir par).dir v = isDir := if_pos rfl

theorem make_dir_ne (h : w ≠ v) : (G.make v isDir par).dir w = G.dir w := if_neg h

theorem make_nlink_self : (G.make v isDir par).nlink v = 0 :=
  update_self v 0 G.nlink

theorem make_nlink_ne (h : w ≠ v) : (G.make v isDir par).nlink w = G.nlink w :=
  update_of_ne h ..

theorem make_parent_self : (G.make v isDir par).parent v = par := by
  show update G.parent v par v = par
  rw [update_self]

theorem make_parent_ne (h : w ≠ v) : (G.make v isDir par).parent w = G.parent w :=
  update_of_ne h ..

@[simp] theorem link_child_self : (G.link d k v).child (d, k) = some v := update_self ..

theorem link_child_ne (h : x ≠ (d, k)) : (G.link d k v).child x = G.child x :=
  update_of_ne h ..

@[simp] theorem unlink_child_self : (G.unlink d k v).child (d, k) = none := update_self ..

theorem unlink_child_ne (h : x ≠ (d, k)) : (G.unlink d k v).child x = G.child x :=
  update_of_ne h ..

theorem subs_eq_some : G.subs v k = some () ↔ ∃ w, G.child (v, k) = some w ∧ G.dir w := by
  unfold subs
  split
  next hw => exact ⟨fun _ => hw, fun _ => rfl⟩
  next hw => exact ⟨fun h => absurd h (Option.some_ne_none ()).symm, fun h => absurd h hw⟩

/-! ## Well-formed graphs -/

/-- Places belong to directories and name other live vertices. -/
structure WF (root : V) (G : DirGraph V) : Prop where
  sparse : Sparse G.child
  root_dir : G.dir root
  dir_live : ∀ v, G.dir v → G.live v
  child_live : ∀ x v, G.child x = some v → G.live v
  owner_dir : ∀ x v, G.child x = some v → G.dir x.1
  no_loop : ∀ x v, G.child x = some v → v ≠ x.1

theorem WF.sparse_subs (h : G.WF root) (v : V) : Sparse (G.subs v) := by
  refine Set.Finite.subset (Set.Finite.preimage (Prod.mk_right_injective v).injOn h.sparse) ?_
  intro k hk hnone
  refine hk (if_neg ?_)
  rintro ⟨w, hw, -⟩
  rw [hnone] at hw
  cases hw

/-- A vertex that is not live is not named. -/
theorem WF.not_named (h : G.WF root) (hv : ¬ G.live v) (x : V × Nat) : G.child x ≠ some v :=
  fun hx => hv (h.child_live x v hx)

/-- A vertex that is not a directory has no places. -/
theorem WF.no_places (h : G.WF root) (hv : ¬ G.dir v) (k : Nat) : G.child (v, k) = none := by
  cases hc : G.child (v, k) with
  | none => rfl
  | some w => exact absurd (h.owner_dir (v, k) w hc) hv

theorem subs_eq_none (h : G.child (v, k) = none) : G.subs v k = none := by
  refine if_neg ?_
  rintro ⟨w, hw, -⟩
  rw [h] at hw
  cases hw

theorem subdirs_eq_zero (h : ∀ k, G.child (v, k) = none) : G.subdirs v = 0 := by
  have hnone : G.subs v = fun _ => none := funext fun k => subs_eq_none (h k)
  rw [subdirs, hnone, points]
  simp

theorem WF.names_eq_zero (h : G.WF root) : G.names v = 0 ↔ ∀ x, G.child x ≠ some v :=
  points_eq_zero h.sparse

/-! ## Weights -/

/-- The places of `d` that name directories, after a change of place `k`. -/
theorem subs_update (G : DirGraph V) {H : DirGraph V} (hdir : H.dir = G.dir) {c : Option V}
    (hc : H.child = update G.child (d, k) c) (v : V) :
    H.subs v = if d = v then update (G.subs v) k (if ∃ w, c = some w ∧ G.dir w then some () else none)
      else G.subs v := by
  funext j
  have hsub : H.subs v j =
      if ∃ w, update G.child (d, k) c (v, j) = some w ∧ G.dir w then some () else none := by
    rw [subs, hc, hdir]
  rw [hsub]
  rcases eq_or_ne d v with rfl | hv
  · rw [if_pos rfl]
    rcases eq_or_ne j k with rfl | hj
    · rw [update_self, update_self]
    · rw [update_of_ne hj, update_of_ne fun he => hj (Prod.ext_iff.mp he).2]
      rfl
  · rw [if_neg hv, update_of_ne fun he => hv (Prod.ext_iff.mp he).1.symm]
    rfl

theorem WF.names_link (h : G.WF root) (hk : G.child (d, k) = none) (j : V) :
    (G.link d k v).names j = G.names j + if v = j then 1 else 0 := by
  have hpoints := points_update (b := j) h.sparse (d, k) (some v)
  simp only [hk, reduceCtorEq, if_false, Option.some_inj] at hpoints
  exact hpoints

theorem WF.names_unlink (h : G.WF root) (hk : G.child (d, k) = some v) (j : V) :
    (G.unlink d k v).names j + (if v = j then 1 else 0) = G.names j := by
  have hpoints := points_update (b := j) h.sparse (d, k) none
  simp only [hk, reduceCtorEq, if_false, Option.some_inj] at hpoints
  exact hpoints

/-- A link adds as much to the weight of a vertex as to its count. -/
theorem WF.weight_link (h : G.WF root) (hk : G.child (d, k) = none) (v j : V) :
    (G.link d k v).weight root j = G.weight root j + G.gain d v j := by
  have hsubs : (G.link d k v).subdirs j = G.subdirs j + if d = j ∧ G.dir v then 1 else 0 := by
    have hpoints := points_update (b := ()) (h.sparse_subs j) k
      (if ∃ w, some v = some w ∧ G.dir w then some () else none)
    rw [subdirs, subs_update (H := G.link d k v) G rfl rfl]
    split
    next hj =>
      subst hj
      rw [subs_eq_none hk] at hpoints
      simpa [subdirs] using hpoints
    next hj => simp [subdirs, hj]
  rw [weight, h.names_link hk, hsubs, weight, gain]
  omega

theorem WF.weight_unlink (h : G.WF root) (hk : G.child (d, k) = some v) (j : V) :
    (G.unlink d k v).weight root j + G.gain d v j = G.weight root j := by
  have hnames := h.names_unlink hk j
  have hsubs : (G.unlink d k v).subdirs j + (if d = j ∧ G.dir v then 1 else 0) = G.subdirs j := by
    have hpoints := points_update (b := ()) (h.sparse_subs j) k none
    rw [subdirs, subs_update (H := G.unlink d k v) G rfl rfl]
    split
    next hj =>
      subst hj
      have hsub : G.subs d k = if G.dir v then some () else none := by
        unfold subs
        simp [hk]
      rw [hsub] at hpoints
      simpa [subdirs] using hpoints
    next hj => simp [subdirs, hj]
  rw [weight, weight, gain]
  omega

/-- A vertex that comes into use is not named yet and names nothing. -/
theorem WF.weight_make (h : G.WF root) (hv : ¬ G.live v) (j : V) :
    (G.make v isDir par).weight root j = G.weight root j := by
  have hsubs : (G.make v isDir par).subs j = G.subs j := by
    funext k
    refine if_congr ?_ rfl rfl
    refine exists_congr fun w => and_congr_right fun hw => ?_
    have hne : w ≠ v := by
      rintro rfl
      exact h.not_named hv _ hw
    show (if w = v then isDir else G.dir w) ↔ _
    rw [if_neg hne]
  rw [weight, weight, subdirs, hsubs]
  rfl

theorem WF.weight_eq_zero (h : G.WF root) (hv : ¬ G.live v) : G.weight root v = 0 := by
  have hnames : G.names v = 0 := h.names_eq_zero.mpr (h.not_named hv)
  have hsubs : G.subdirs v = 0 := subdirs_eq_zero (h.no_places fun hd => hv (h.dir_live v hd))
  have hroot : v ≠ root := by
    rintro rfl
    exact hv (h.dir_live v h.root_dir)
  rw [weight, hnames, hsubs, if_neg hroot]

/-! ## The operations keep graphs well-formed -/

theorem WF.make (h : G.WF root) (hv : ¬ G.live v) : (G.make v isDir par).WF root := by
  have hne : ∀ w, G.live w → w ≠ v := fun w hw he => hv (he ▸ hw)
  have hdir : ∀ w, G.live w → ((G.make v isDir par).dir w ↔ G.dir w) := by
    intro w hw
    show (if w = v then isDir else G.dir w) ↔ _
    rw [if_neg (hne w hw)]
  refine ⟨h.sparse, ?_, fun w hw => ?_, fun x w hw => .inr (h.child_live x w hw), fun x w hw => ?_, h.no_loop⟩
  · exact (hdir root (h.dir_live root h.root_dir)).mpr h.root_dir
  · by_cases hwv : w = v
    · exact .inl hwv
    · have hw : (if w = v then isDir else G.dir w) := hw
      rw [if_neg hwv] at hw
      exact .inr (h.dir_live w hw)
  · have howner := h.owner_dir x w hw
    exact (hdir x.1 (h.dir_live x.1 howner)).mpr howner

theorem WF.link (h : G.WF root) (hd : G.dir d) (hv : G.live v) (hne : v ≠ d) : (G.link d k v).WF root := by
  have hplace : ∀ x w, (G.link d k v).child x = some w → x = (d, k) ∧ w = v ∨ G.child x = some w := by
    intro x w hw
    have hw : update G.child (d, k) (some v) x = some w := hw
    rcases eq_or_ne x (d, k) with rfl | hx
    · rw [update_self] at hw
      exact .inl ⟨rfl, (Option.some.inj hw).symm⟩
    · rw [update_of_ne hx] at hw
      exact .inr hw
  refine ⟨h.sparse.update _ _, h.root_dir, h.dir_live, fun x w hw => ?_, fun x w hw => ?_, fun x w hw => ?_⟩
  all_goals rcases hplace x w hw with ⟨rfl, rfl⟩ | hw
  · exact hv
  · exact h.child_live x w hw
  · exact hd
  · exact h.owner_dir x w hw
  · exact hne
  · exact h.no_loop x w hw

/-- Fewer places. -/
theorem child_of_unlink (hw : (G.unlink d k v).child x = some w) : G.child x = some w := by
  have hw : update G.child (d, k) none x = some w := hw
  rcases eq_or_ne x (d, k) with rfl | hx
  · rw [update_self] at hw
    cases hw
  · rwa [update_of_ne hx] at hw

theorem WF.unlink (h : G.WF root) : (G.unlink d k v).WF root :=
  ⟨h.sparse.update _ _, h.root_dir, h.dir_live, fun x w hw => h.child_live x w (child_of_unlink hw),
    fun x w hw => h.owner_dir x w (child_of_unlink hw), fun x w hw => h.no_loop x w (child_of_unlink hw)⟩

theorem child_of_reap (hw : (G.reap S).child x = some w) : ¬ S x.1 ∧ G.child x = some w := by
  have hw : (if S x.1 then none else G.child x) = some w := hw
  split at hw
  · cases hw
  next hx => exact ⟨hx, hw⟩

/-- Vertices that no place names go out of use. -/
theorem WF.reap (h : G.WF root) (hS : ∀ j, S j → j ≠ root ∧ ∀ x, G.child x ≠ some j) : (G.reap S).WF root := by
  refine ⟨h.sparse.mono fun x hx hnone => hx ?_, ⟨h.root_dir, fun hr => (hS root hr).1 rfl⟩,
    fun w hw => ⟨h.dir_live w hw.1, hw.2⟩, fun x w hw => ?_, fun x w hw => ?_, fun x w hw => ?_⟩
  · show (if S x.1 then none else G.child x) = none
    rw [hnone, ite_self]
  all_goals obtain ⟨hx, hw⟩ := child_of_reap hw
  · exact ⟨h.child_live x w hw, fun hs => (hS w hs).2 x hw⟩
  · exact ⟨h.owner_dir x w hw, hx⟩
  · exact h.no_loop x w hw

/-! ## Counts that bound the weights -/

/-- No link count is less than the weight. -/
structure Bounded (root : V) (G : DirGraph V) : Prop extends WF root G where
  bound : ∀ v, G.live v → (G.weight root v : Int) ≤ G.nlink v

section

variable (h : G.Bounded root)
include h

theorem Bounded.nonneg (hv : G.live v) : 0 ≤ G.nlink v :=
  (Int.natCast_nonneg _).trans (h.bound v hv)

/-- A vertex without links is not the root and no place names it. -/
theorem Bounded.not_named_of_zero (h0 : G.nlink v = 0) : v ≠ root ∧ ∀ x, G.child x ≠ some v := by
  by_cases hv : G.live v
  · have hbound := h.bound v hv
    have hweight : G.weight root v = 0 := by omega
    unfold weight at hweight
    refine ⟨fun hr => ?_, h.names_eq_zero.mp (by omega)⟩
    rw [if_pos hr] at hweight
    omega
  · exact ⟨fun hr => hv (hr ▸ h.dir_live root h.root_dir), h.not_named hv⟩

theorem Bounded.make (hv : ¬ G.live v) : (G.make v isDir par).Bounded root := by
  refine ⟨h.toWF.make hv, fun j hj => ?_⟩
  rw [h.weight_make hv]
  show _ ≤ update G.nlink v 0 j
  rcases eq_or_ne j v with rfl | hne
  · rw [h.weight_eq_zero hv, update_self]
    rfl
  · rw [update_of_ne hne]
    exact h.bound j (hj.resolve_left hne)

theorem Bounded.link (hd : G.dir d) (hv : G.live v) (hne : v ≠ d)
    (hk : G.child (d, k) = none) : (G.link d k v).Bounded root := by
  refine ⟨h.toWF.link hd hv hne, fun j hj => ?_⟩
  have hbound := h.bound j hj
  rw [h.weight_link hk]
  show _ ≤ G.nlink j + G.gain d v j
  omega

theorem Bounded.unlink (hk : G.child (d, k) = some v) : (G.unlink d k v).Bounded root := by
  refine ⟨h.toWF.unlink, fun j hj => ?_⟩
  have hbound := h.bound j hj
  have hweight := h.weight_unlink hk j
  show _ ≤ G.nlink j - G.gain d v j
  omega

end

theorem WF.weight_reap_le (h : G.WF root) (v : V) : (G.reap S).weight root v ≤ G.weight root v := by
  have hnames : (G.reap S).names v ≤ G.names v :=
    points_le h.sparse fun x hx => (child_of_reap hx).2
  have hsubs : (G.reap S).subdirs v ≤ G.subdirs v := by
    refine points_le (h.sparse_subs v) fun k hk => ?_
    by_cases hsub : ∃ w, (G.reap S).child (v, k) = some w ∧ (G.reap S).dir w
    · obtain ⟨w, hw, hd⟩ := hsub
      exact if_pos ⟨w, (child_of_reap hw).2, hd.1⟩
    · rw [subs, if_neg hsub] at hk
      cases hk
  rw [weight, weight]
  omega

theorem Bounded.reap (h : G.Bounded root) (hS : ∀ j, S j → G.nlink j = 0) : (G.reap S).Bounded root := by
  refine ⟨h.toWF.reap fun j hj => h.not_named_of_zero (hS j hj), fun j hj => ?_⟩
  have hbound := h.bound j hj.1
  have hle := h.weight_reap_le (S := S) j
  show _ ≤ if S j then 0 else G.nlink j
  rw [if_neg hj.2]
  omega

/-- The parent of a directory is live and has links. -/
def Climbs (G : DirGraph V) : Prop :=
  ∀ e p, G.dir e → G.parent e = some p → p ≠ e → G.live p ∧ G.nlink p ≠ 0

theorem Bounded.climbs_link (h : G.Bounded root) (hc : G.Climbs) : (G.link d k v).Climbs := by
  intro e p he hp hne
  obtain ⟨hlive, h0⟩ := hc e p he hp hne
  have hnonneg := h.nonneg hlive
  refine ⟨hlive, ?_⟩
  show G.nlink p + G.gain d v p ≠ 0
  omega

/-- A new vertex is linked into its parent. -/
theorem Bounded.climbs_create (h : G.Bounded root) (hc : G.Climbs) (hv : ¬ G.live v) (hd : G.live d)
    (hne : v ≠ d) (hpar : isDir → par = some d) : ((G.make v isDir par).link d k v).Climbs := by
  intro e p he hp hpe
  have he : if e = v then isDir else G.dir e := he
  have hp : update G.parent v par e = some p := hp
  show (p = v ∨ G.live p) ∧ update G.nlink v 0 p + (G.make v isDir par).gain d v p ≠ 0
  by_cases hev : e = v
  · rw [if_pos hev] at he
    rw [hev, update_self, hpar he] at hp
    cases hp
    have hgain : (G.make v isDir par).gain d v d = 1 := by
      have hdir : (G.make v isDir par).dir v := (if_pos rfl).mpr he
      rw [gain, if_neg hne, if_pos ⟨rfl, hdir⟩]
    have hnonneg := h.nonneg hd
    rw [hgain, update_of_ne hne.symm]
    exact ⟨.inr hd, by omega⟩
  · rw [if_neg hev] at he
    rw [update_of_ne hev] at hp
    obtain ⟨hlive, h0⟩ := hc e p he hp hpe
    have hnonneg := h.nonneg hlive
    have hpv : p ≠ v := fun hpv => hv (hpv ▸ hlive)
    rw [update_of_ne hpv]
    exact ⟨.inr hlive, by omega⟩

/-- A link count changes by at most one. -/
theorem gain_cases (hne : v ≠ d) (j : V) : G.gain d v j = 0 ∨ G.gain d v j = 1 ∧ (j = v ∨ j = d ∧ G.dir v) := by
  unfold gain
  rcases eq_or_ne j v with rfl | hv
  · exact .inr ⟨by rw [if_pos rfl, if_neg fun h => hne h.1.symm], .inl rfl⟩
  · by_cases hd : d = j ∧ G.dir v
    · exact .inr ⟨by rw [if_neg hv.symm, if_pos hd], .inr ⟨hd.1.symm, hd.2⟩⟩
    · exact .inl (by rw [if_neg hv.symm, if_neg hd])

/-- An entry is erased and no parent loses its last link. -/
theorem climbs_unlink (hc : G.Climbs) (hne : v ≠ d)
    (hsafe : ∀ x, x = v ∨ x = d ∧ G.dir v → G.nlink x = 1 → ∀ e, G.dir e → e ≠ x →
      G.parent e ≠ some x) : (G.unlink d k v).Climbs := by
  intro e p he hp hpe
  obtain ⟨hlive, h0⟩ := hc e p he hp hpe
  refine ⟨hlive, fun hzero => ?_⟩
  have hzero : G.nlink p - G.gain d v p = 0 := hzero
  rcases G.gain_cases hne p with hgain | ⟨hgain, hloses⟩
  · rw [hgain] at hzero
    omega
  · rw [hgain] at hzero
    exact hsafe p hloses (by omega) e he hpe.symm hp

theorem climbs_reap (hc : G.Climbs) (hS : ∀ j, S j → G.nlink j = 0) : (G.reap S).Climbs := by
  intro e p he hp hne
  have hp : (if S e then none else G.parent e) = some p := hp
  rw [if_neg he.2] at hp
  obtain ⟨hlive, h0⟩ := hc e p he.1 hp hne
  have hSp : ¬ S p := fun hs => h0 (hS p hs)
  refine ⟨⟨hlive, hSp⟩, ?_⟩
  show (if S p then 0 else G.nlink p) ≠ 0
  rwa [if_neg hSp]

/-! ## Counts that equal the weights -/

/-- Link counts are the weights, a directory is named once and by its parent, and one that is not named is
empty. -/
structure Balanced (root : V) (G : DirGraph V) : Prop extends WF root G where
  balance : ∀ v, G.live v → G.nlink v = G.weight root v
  home : ∀ d k v, G.child (d, k) = some v → G.dir v → G.parent v = some d ∧ G.names v = 1 ∧ v ≠ root
  nameless : ∀ d, G.dir d → d ≠ root → G.names d = 0 → ∀ k, G.child (d, k) = none
  root_parent : G.parent root = some root

theorem Balanced.bounded (h : G.Balanced root) : G.Bounded root :=
  ⟨h.toWF, fun v hv => (h.balance v hv).ge⟩

/-- A graph in which the root is the only directory and names every other vertex once. -/
theorem Balanced.flat (hsparse : Sparse G.child) (hdir : ∀ v, G.dir v ↔ v = root)
    (hroot : G.live root ∧ G.nlink root = 1 ∧ G.parent root = some root)
    (hchild : ∀ x v, G.child x = some v → x.1 = root ∧ v ≠ root ∧ G.live v)
    (hone : ∀ v, G.live v → v ≠ root → G.nlink v = 1 ∧ G.names v = 1) : G.Balanced root := by
  have hwf : G.WF root := by
    refine ⟨hsparse, (hdir root).mpr rfl, fun v hv => (hdir v).mp hv ▸ hroot.1,
      fun x v hx => (hchild x v hx).2.2, fun x v hx => (hdir _).mpr (hchild x v hx).1, ?_⟩
    rintro x v hx rfl
    exact (hchild x _ hx).2.1 (hchild x _ hx).1
  have hsubs : ∀ v, G.subdirs v = 0 := by
    intro v
    refine (points_eq_zero (hwf.sparse_subs v)).mpr fun k hk => ?_
    obtain ⟨w, hw, hd⟩ := subs_eq_some.mp hk
    exact (hchild _ w hw).2.1 ((hdir w).mp hd)
  refine ⟨hwf, fun v hv => ?_, fun d k v hv hd => ?_, fun d hd hne => ?_, hroot.2.2⟩
  · rw [weight, hsubs]
    by_cases hr : v = root
    · have hnames : G.names v = 0 := hwf.names_eq_zero.mpr fun x hx => (hchild x v hx).2.1 hr
      rw [if_pos hr, hnames, hr, hroot.2.1]
      rfl
    · rw [if_neg hr, (hone v hv hr).1, (hone v hv hr).2]
      rfl
  · exact absurd ((hdir v).mp hd) (hchild _ v hv).2.1
  · exact absurd ((hdir d).mp hd) hne

/-- A directory without links has no entries. -/
theorem Balanced.empty_of_zero (h : G.Balanced root) (h0 : G.nlink d = 0) (k : Nat) : G.child (d, k) = none := by
  by_cases hd : G.dir d
  · obtain ⟨hroot, hnot⟩ := h.bounded.not_named_of_zero h0
    exact h.nameless d hd hroot (h.names_eq_zero.mpr hnot) k
  · exact h.no_places hd k

/-- A directory with links that is not the root is named. -/
theorem Balanced.named (h : G.Balanced root) (hd : G.dir d) (h0 : G.nlink d ≠ 0) (hr : d ≠ root) : G.names d ≠ 0 := by
  intro hn
  have hempty := h.nameless d hd hr hn
  have hbalance := h.balance d (h.dir_live d hd)
  rw [weight, hn, subdirs_eq_zero hempty, if_neg hr] at hbalance
  exact h0 hbalance

theorem Balanced.make (h : G.Balanced root) (hv : ¬ G.live v) : (G.make v isDir par).Balanced root := by
  have hroot : root ≠ v := fun hr => hv (hr ▸ h.dir_live root h.root_dir)
  refine ⟨h.toWF.make hv, fun j hj => ?_, fun d k w hw hd => ?_, fun e he hr hn k => ?_, ?_⟩
  · rw [h.weight_make hv]
    show update G.nlink v 0 j = _
    rcases eq_or_ne j v with rfl | hne
    · rw [h.weight_eq_zero hv, update_self]
      rfl
    · rw [update_of_ne hne]
      exact h.balance j (hj.resolve_left hne)
  · have hne : w ≠ v := by
      rintro rfl
      exact h.not_named hv _ hw
    have hd : if w = v then isDir else G.dir w := hd
    rw [if_neg hne] at hd
    obtain ⟨hp, hn, hr⟩ := h.home d k w hw hd
    refine ⟨?_, hn, hr⟩
    show update G.parent v par w = _
    rwa [update_of_ne hne]
  · by_cases hev : e = v
    · rw [hev]
      exact h.no_places (fun hd => hv (h.dir_live v hd)) k
    · have he : if e = v then isDir else G.dir e := he
      rw [if_neg hev] at he
      exact h.nameless e he hr hn k
  · show update G.parent v par root = _
    rw [update_of_ne hroot]
    exact h.root_parent

section

variable (h : G.Balanced root)
include h

theorem Balanced.link (hd : G.dir d) (hv : G.live v) (hne : v ≠ d) (hk : G.child (d, k) = none) (h0 : G.nlink d ≠ 0)
    (hdir : G.dir v → G.parent v = some d ∧ G.names v = 0 ∧ v ≠ root) :
    (G.link d k v).Balanced root := by
  refine ⟨h.toWF.link hd hv hne, fun j hj => ?_, fun e m w hw hdw => ?_, fun e he hr hn m => ?_, h.root_parent⟩
  · rw [h.weight_link hk]
    show G.nlink j + G.gain d v j = _
    rw [h.balance j hj]
    exact (Int.natCast_add _ _).symm
  · rw [h.names_link hk]
    have hw : update G.child (d, k) (some v) (e, m) = some w := hw
    rcases eq_or_ne (e, m) (d, k) with he | he
    · rw [he, update_self] at hw
      cases hw
      have hed : e = d := (Prod.ext_iff.mp he).1
      obtain ⟨hp, hn, hr⟩ := hdir hdw
      rw [hed, hn, if_pos rfl]
      exact ⟨hp, rfl, hr⟩
    · rw [update_of_ne he] at hw
      obtain ⟨hp, hn, hr⟩ := h.home e m w hw hdw
      refine ⟨hp, ?_, hr⟩
      rw [hn, if_neg]
      rintro rfl
      rw [(hdir hdw).2.1] at hn
      cases hn
  · rw [h.names_link hk] at hn
    show update G.child (d, k) (some v) (e, m) = none
    rw [update_of_ne]
    · exact h.nameless e he hr (by omega) m
    · intro heq
      have hed : e = d := (Prod.ext_iff.mp heq).1
      refine h.named he (hed ▸ h0) hr (by omega)

theorem Balanced.unlink (hk : G.child (d, k) = some v)
    (hempty : G.dir v → ∀ m, G.child (v, m) = none) : (G.unlink d k v).Balanced root := by
  refine ⟨h.toWF.unlink, fun j hj => ?_, fun e m w hw hdw => ?_, fun e he hr hn m => ?_, h.root_parent⟩
  · have hweight := h.weight_unlink hk j
    have hbalance := h.balance j hj
    show G.nlink j - G.gain d v j = _
    omega
  · obtain ⟨hp, hn, hr⟩ := h.home e m w (child_of_unlink hw) hdw
    have hnames := h.names_unlink hk w
    refine ⟨hp, ?_, hr⟩
    split at hnames
    next hvw =>
      -- a directory is named once, so the erased place was the one
      have hzero : (G.unlink d k v).names w = 0 := by omega
      exact absurd hw (h.toWF.unlink.names_eq_zero.mp hzero (e, m))
    · omega
  · have hnames := h.names_unlink hk e
    have hchild : G.child (e, m) = none := by
      split at hnames
      next hve =>
        rw [← hve]
        exact hempty (hve ▸ he) m
      · exact h.nameless e he hr (by omega) m
    cases hc : (G.unlink d k v).child (e, m) with
    | none => rfl
    | some w =>
      rw [child_of_unlink hc] at hchild
      cases hchild

theorem Balanced.reap (hS : ∀ j, S j → G.nlink j = 0) : (G.reap S).Balanced root := by
  have hnot := fun j hj => h.bounded.not_named_of_zero (hS j hj)
  have hchild : (G.reap S).child = G.child := by
    funext x
    show (if S x.1 then none else G.child x) = _
    split
    next hx => exact (h.empty_of_zero (hS x.1 hx) x.2).symm
    · rfl
  have hsubs : ∀ v, (G.reap S).subs v = G.subs v := by
    intro v
    funext k
    refine if_congr ?_ rfl rfl
    rw [hchild]
    refine exists_congr fun w => and_congr_right fun hw => ?_
    exact ⟨fun hd => hd.1, fun hd => ⟨hd, fun hs => (hnot w hs).2 _ hw⟩⟩
  have hnames : (G.reap S).names = G.names := by
    funext v
    rw [names, hchild]
    rfl
  refine ⟨h.toWF.reap hnot, fun j hj => ?_, fun d k v hv hd => ?_, fun d hd hr hn k => ?_, ?_⟩
  · rw [weight, subdirs, hsubs, hnames]
    show (if S j then 0 else G.nlink j) = _
    rw [if_neg hj.2]
    exact h.balance j hj.1
  · rw [hnames]
    rw [hchild] at hv
    show (if S v then none else G.parent v) = some d ∧ _
    rw [if_neg hd.2]
    exact h.home d k v hv hd.1
  · rw [hchild]
    rw [hnames] at hn
    exact h.nameless d hd.1 hr hn k
  · show (if S root then none else G.parent root) = _
    rw [if_neg fun hs => (hnot root hs).1 rfl]
    exact h.root_parent

/-- Two places that name one directory are the same. -/
theorem Balanced.place_unique (hw : G.dir w) {y : V × Nat}
    (hx : G.child x = some w) (hy : G.child y = some w) : x = y := by
  obtain ⟨-, hn, -⟩ := h.home x.1 x.2 w hx hw
  obtain ⟨z, hz⟩ := Set.ncard_eq_one.mp hn
  have hxz : x ∈ ({z} : Set (V × Nat)) := hz ▸ hx
  have hyz : y ∈ ({z} : Set (V × Nat)) := hz ▸ hy
  exact hxz.trans hyz.symm

/-- The directories that name `v` as their parent and have links are the subdirectories of `v`. -/
theorem Balanced.subdirs_eq (hv : v ≠ root) :
    G.subdirs v = Set.ncard { d | G.dir d ∧ G.nlink d ≠ 0 ∧ G.parent d = some v } := by
  refine Set.ncard_congr (fun k _ => (G.child (v, k)).getD v) ?_ ?_ ?_
  · intro k hk
    obtain ⟨w, hw, hd⟩ := subs_eq_some.mp hk
    obtain ⟨hp, hn, -⟩ := h.home v k w hw hd
    have hbalance := h.balance w (h.dir_live w hd)
    have hlinks : G.nlink w ≠ 0 := by
      unfold weight at hbalance
      omega
    rw [hw]
    exact ⟨hd, hlinks, hp⟩
  · intro k m hk hm heq
    obtain ⟨w, hw, hd⟩ := subs_eq_some.mp hk
    obtain ⟨u, hu, -⟩ := subs_eq_some.mp hm
    rw [hw, hu] at heq
    have heq : w = u := heq
    exact (Prod.ext_iff.mp (h.place_unique hd hw (heq ▸ hu))).2
  · rintro w ⟨hd, hlinks, hp⟩
    have hroot : w ≠ root := by
      rintro rfl
      rw [h.root_parent] at hp
      exact hv (Option.some_inj.mp hp).symm
    -- a directory with links is named, and only its parent names it
    obtain ⟨⟨e, k⟩, hk⟩ := (points_pos h.sparse).mp (Nat.pos_of_ne_zero (h.named hd hlinks hroot))
    obtain ⟨hpe, -, -⟩ := h.home e k w hk hd
    have hev : e = v := Option.some_inj.mp (hpe.symm.trans hp)
    rw [hev] at hk
    refine ⟨k, subs_eq_some.mpr ⟨w, hk, hd⟩, ?_⟩
    rw [hk]
    rfl

/-- Link counts count names and the parents of directories with links. -/
theorem Balanced.nlink_eq (hlive : G.live v) (hv : v ≠ root) :
    G.nlink v = Set.ncard { x | G.child x = some v } +
      Set.ncard { d | G.dir d ∧ G.nlink d ≠ 0 ∧ G.parent d = some v } := by
  rw [h.balance v hlive, weight, if_neg hv, ← h.subdirs_eq hv, names, points]
  push_cast
  exact add_zero _

end

/-! ## Trees -/

/-- The directories with links are a tree: each but the root is named at one place, of the parent it names,
which has links too, and the root is reached from it by parents. -/
def IsTree (root : V) (G : DirGraph V) : Prop :=
  G.parent root = some root ∧ ∀ d, G.dir d → G.nlink d ≠ 0 →
    Relation.ReflTransGen (fun a b => G.parent a = some b) d root ∧
    (d ≠ root → ∃ x, G.child x = some d ∧ G.parent d = some x.1 ∧ G.nlink x.1 ≠ 0 ∧
      ∀ y, G.child y = some d → y = x)

/-- A directory is deeper than the one that names it. -/
def Ranked (G : DirGraph V) (rank : V → Nat) : Prop :=
  ∀ x v, G.child x = some v → G.dir v → rank x.1 < rank v

section Ranked

variable {H : DirGraph V} {rank : V → Nat}

/-- No place comes to name a directory. -/
theorem Ranked.mono (h : G.Ranked rank)
    (hsub : ∀ x v, H.child x = some v → H.dir v → G.child x = some v ∧ G.dir v) : H.Ranked rank := by
  intro x v hx hv
  obtain ⟨hx, hv⟩ := hsub x v hx hv
  exact h x v hx hv

theorem Ranked.reap (h : G.Ranked rank) : (G.reap S).Ranked rank := by
  apply h.mono
  intro x v hx hv
  have hx : (if S x.1 then none else G.child x) = some v := hx
  split at hx
  · cases hx
  · exact ⟨hx, hv.1⟩

/-- A new vertex is one deeper than the directory it is linked into. -/
theorem Ranked.create (h : G.Ranked rank) (hwf : G.WF root) (hv : ¬ G.live v) (hd : G.live d) :
    ((G.make v isDir par).link d k v).Ranked (update rank v (rank d + 1)) := by
  intro x w hx hw
  have hne : ∀ {j}, G.live j → j ≠ v := fun hj hjv => hv (hjv ▸ hj)
  by_cases hxk : x = (d, k)
  · obtain rfl : v = w := by simpa [hxk] using hx
    simp [hxk, hne hd]
  · rw [link_child_ne hxk] at hx
    -- the place is an old one, so neither end of it is the new vertex
    have hwv := hne (hwf.child_live x w hx)
    have hxv := hne (hwf.dir_live _ (hwf.owner_dir x w hx))
    have hw : if w = v then isDir else G.dir w := hw
    rw [if_neg hwv] at hw
    rw [update_of_ne hwv, update_of_ne hxv]
    exact h x w hx hw

theorem Balanced.home_place (h : G.Balanced root) (hd : G.dir d) (h0 : G.nlink d ≠ 0) (hr : d ≠ root) :
    ∃ x, G.child x = some d ∧ G.parent d = some x.1 ∧ G.nlink x.1 ≠ 0 := by
  obtain ⟨x, hx⟩ : ∃ x, G.child x = some d := Set.nonempty_of_ncard_ne_zero (h.named hd h0 hr)
  refine ⟨x, hx, (h.home x.1 x.2 d hx hd).1, fun hx0 => ?_⟩
  rw [h.empty_of_zero hx0 x.2] at hx
  cases hx

theorem Balanced.isTree (h : G.Balanced root) (hr : G.Ranked rank) : G.IsTree root := by
  refine ⟨h.root_parent, fun d hd h0 => ⟨?_, fun hne => ?_⟩⟩
  · -- by induction on the depth
    induction hn : rank d using Nat.strong_induction_on generalizing d with
    | _ n ih =>
      by_cases hne : d = root
      · exact hne ▸ .refl
      · obtain ⟨x, hx, hparent, hlinks⟩ := h.home_place hd h0 hne
        exact .head hparent (ih _ (hn ▸ hr x d hx hd) x.1 (h.owner_dir x d hx) hlinks rfl)
  · obtain ⟨x, hx, hparent, hlinks⟩ := h.home_place hd h0 hne
    exact ⟨x, hx, hparent, hlinks, fun y hy => h.place_unique hd hy hx⟩

end Ranked

end DirGraph

end Xv6Lab.Lib.LinkGraph
