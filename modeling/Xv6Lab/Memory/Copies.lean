import Xv6Lab.Memory.Creation

/-!
# Copies between kernel and user memory

`copyout` and `copyin` work page by page; `copyoutPage` and `copyinPage` are one round of their loops. What a round
does to the memory of the process is said in terms of `userView`, and the loops are followed by induction on the number
of rounds. `copyout_inverse` puts the results together: what `copyout` stored is what `copyin` reads, no other byte
changes, and `copyout` fails exactly at a page that is not writable and cannot be faulted in.
-/

namespace Xv6Lab.Memory

open Lib.Exec List

/-! ## Bytes of a page -/

theorem wordOf_byteOf (i : Nat) : 8 * (wordOf i).val + (byteOf i).val = i % pgsize := by
  show 8 * (i % 4096 / 8) + i % 8 = i % 4096
  omega

theorem getByte_setBytes (data : Page) {off n i : Nat} (src : Nat → UInt8) (hi : i < pgsize) :
    getByte (setBytes data off n src) i =
      if off ≤ i ∧ i < off + n then src (i - off) else getByte data i := by
  have hpos : 8 * (wordOf i).val + (byteOf i).val = i := (wordOf_byteOf i).trans (Nat.mod_eq_of_lt hi)
  show (if off ≤ 8 * (wordOf i).val + (byteOf i).val ∧ 8 * (wordOf i).val + (byteOf i).val < off + n
    then src (8 * (wordOf i).val + (byteOf i).val - off) else data (wordOf i) (byteOf i)) = _
  rw [hpos]
  rfl

/-! ## One round of `copyout` -/

/-- Byte `k` from `va` on lies in the page of `va`. -/
theorem same_page {va k : Nat} (hk : va % pgsize + k < pgsize) :
    (va + k) / pgsize = va / pgsize ∧ (va + k) % pgsize = va % pgsize + k := by
  have hk : va % 4096 + k < 4096 := hk
  show (va + k) / 4096 = va / 4096 ∧ (va + k) % 4096 = va % 4096 + k
  omega

section Copyout

variable {img : Image} {A B : Abs} {s t : Vm} {p : Space} {pt va len v : Nat}

theorem firstPart_le (va len : Nat) : firstPart va len ≤ len := Nat.min_le_right ..

theorem sub_pgrounddown (va : Nat) : va - pgrounddown va = va % pgsize := by
  show va - va / 4096 * 4096 = va % 4096
  omega

theorem firstPart_eq (va len : Nat) : firstPart va len = min (pgsize - va % pgsize) len := by
  rw [firstPart, sub_pgrounddown]

theorem firstPart_pos (va : Nat) (hlen : len ≠ 0) : 0 < firstPart va len := by
  rw [firstPart_eq]
  show 0 < min (4096 - va % 4096) len
  omega

@[simp] theorem copyoutLoop_zero (rounds : Nat) (src : Nat → UInt8) :
    copyoutLoop img p pt rounds va src 0 = pure true := by
  cases rounds with
  | zero => rfl
  | succ rounds => rw [copyoutLoop, if_pos rfl]

/-- More rounds than bytes make no difference. -/
theorem copyoutLoop_rounds {rounds rounds' : Nat} (src : Nat → UInt8) (h : len ≤ rounds) (h' : len ≤ rounds') :
    copyoutLoop img p pt rounds va src len = copyoutLoop img p pt rounds' va src len := by
  induction rounds generalizing rounds' va src len with
  | zero =>
    obtain rfl : len = 0 := Nat.le_zero.mp h
    simp
  | succ rounds ih =>
    rcases eq_or_ne len 0 with rfl | hlen
    · simp
    obtain ⟨rounds', rfl⟩ := Nat.exists_eq_succ_of_ne_zero (show rounds' ≠ 0 by omega)
    have hpos := firstPart_pos va hlen
    have hrest := fun src => @ih (pgrounddown va + pgsize) (len - firstPart va len) rounds' src (by omega) (by omega)
    rw [copyoutLoop, copyoutLoop, if_neg hlen, if_neg hlen, hrest]

@[simp] theorem copyout_zero (src : Nat → UInt8) : copyout img p pt va src 0 = pure true := rfl

/-- The first part of a copy ends with the copy or with the page. -/
theorem firstPart_cases (va len : Nat) :
    firstPart va len = len ∨ (firstPart va len < len ∧ va + firstPart va len = pgrounddown va + pgsize) := by
  rw [firstPart_eq]
  show min (4096 - va % 4096) len = len ∨
    (min (4096 - va % 4096) len < len ∧ va + min (4096 - va % 4096) len = va / 4096 * 4096 + 4096)
  omega

theorem firstPart_in_page (va len : Nat) : va % pgsize + firstPart va len ≤ pgsize := by
  rw [firstPart_eq]
  show va % 4096 + min (4096 - va % 4096) len ≤ 4096
  omega

theorem page_of_firstPart {k : Nat} (hk : k < firstPart va len) : (va + k) / pgsize = va / pgsize := by
  have hin := firstPart_in_page va len
  exact (same_page (by omega)).1

/-- `copyout` of a range is its first round followed by `copyout` of the rest. -/
theorem copyout_cons (src : Nat → UInt8) (hlen : len ≠ 0) :
    copyout img p pt va src len = (do
      let ok ← copyoutPage img p pt va src (firstPart va len)
      if ok then
        copyout img p pt (va + firstPart va len) (fun k => src (k + firstPart va len)) (len - firstPart va len)
      else pure false) := by
  obtain ⟨rounds, rfl⟩ := Nat.exists_eq_add_one_of_ne_zero hlen
  have hpos := firstPart_pos va hlen
  rw [copyout, copyoutLoop, if_neg hlen]
  congr 1
  funext ok
  split
  · rcases firstPart_cases va (rounds + 1) with hall | ⟨hlt, hend⟩
    · rw [hall, Nat.sub_self]
      simp
    · rw [hend, copyout]
      exact copyoutLoop_rounds _ (by omega) (Nat.le_refl _)
  · rfl

/-- The kernel can write to the page on behalf of the process. -/
def CanWrite (A : Abs) (s : Vm) (p : Space) (v : Nat) : Prop :=
  v < 2 ^ 26 ∧ ((∃ e, A.ent p.pagetable v = some e ∧ e.testBit 4 = true ∧ e.testBit 2 = true) ∨
    (A.ent p.pagetable v = none ∧ v * pgsize < p.sz ∧ needed s.mem p.pagetable (v * pgsize) ≤ s.free.length))

section

variable (src : Nat → UInt8) (h : Good img A s) (hp : UserSpace img A p)
include src h hp

/-- Writing into a user page changes these bytes of the process and no others. -/
theorem setBytes_view {e off n : Nat} (hv : v < 2 ^ 26) (he : A.ent p.pagetable v = some e) (hu : e.testBit 4 = true) :
    wp (setPage (pte2page e) (setBytes (s.mem (pte2page e)) off n src)) (fun _ t => Touched img p A A s t ∧
      ∀ a, userView t p a = if a / pgsize = v ∧ off ≤ a % pgsize ∧ a % pgsize < off + n
        then some (src (a % pgsize - off)) else userView s p a) Never s := by
  have hlt := hp.lt_trapVpn hv he hu
  have hleaf := h.leaves.own_of_ent hp.root hlt he
  refine wp_post (h.setPage (h.leaves.isData hp.root hlt he) _) fun _ t ht => ?_
  obtain ⟨hgood, hpage, hother, -⟩ := ht
  refine ⟨⟨hgood, hp, Within.refl _ A, fun _ _ => rfl, fun _ _ => id, fun q hq => hother q ?_⟩, fun a => ?_⟩
  · rintro rfl
    rw [hleaf] at hq
    exact hq rfl
  have hmod : a % pgsize < pgsize := Nat.mod_lt a (by decide)
  by_cases ha : a / pgsize = v
  · have hva : a < maxva := lt_maxva_iff.mpr (ha ▸ hv)
    rw [userView_eq hgood.rep hp.root hva, userView_eq h.rep hp.root hva, ha, he]
    simp only [hu, if_true, true_and, hpage, getByte_setBytes _ src hmod]
    split <;> rfl
  · rw [if_neg fun hall => ha hall.1]
    refine userView_congr h hgood.rep hp hp.root rfl fun q hleaf' => ?_
    -- a page is mapped at one place only
    rw [hother]
    rintro rfl
    rw [hleaf] at hleaf'
    exact ha (Owner.leaf.inj hleaf').2.symm

theorem copyoutPage_spec {n : Nat} (hn : va % pgsize + n ≤ pgsize) :
    wp (copyoutPage img p p.pagetable va src n) (fun ok t => ∃ B, Touched img p A B s t ∧
      (∀ w ≠ va / pgsize, B.ent p.pagetable w = A.ent p.pagetable w) ∧
      (∀ a, ¬ (va ≤ a ∧ a < va + n) → userView t p a = userView s p a) ∧
      (ok = true ↔ CanWrite A s p (va / pgsize)) ∧
      (ok = true → (∀ k < n, userView t p (va + k) = some (src k)) ∧ UserMapped B p (va / pgsize))) Never s := by
  have hdiv := page_vpn (va / pgsize)
  dsimp only [copyoutPage]
  rw [sub_pgrounddown, pgrounddown]
  by_cases hge : va / pgsize * pgsize ≥ maxva
  · have hnot : ¬ va / pgsize < 2 ^ 26 := fun hlt => absurd (vpn_lt_maxva hlt) (Nat.not_lt.mpr hge)
    rw [if_pos hge]
    exact wp_pure.mpr ⟨A, Touched.refl h hp, fun _ _ => rfl, fun _ _ => rfl,
      iff_of_false Bool.false_ne_true fun hw => hnot hw.1, by simp⟩
  have hva : va / pgsize * pgsize < maxva := Nat.not_le.mp hge
  have hv : va / pgsize < 2 ^ 26 := hdiv ▸ lt_maxva_iff.mp hva
  rw [if_neg hge]
  refine wp_then (faultIn_spec h hp (va / pgsize)) fun r t ht => ?_
  obtain ⟨B, htouched, hview, hkept, hr⟩ := ht
  cases r with
  | none =>
    refine wp_pure.mpr ⟨B, htouched, hkept, fun a _ => hview a, iff_of_false Bool.false_ne_true fun hw => ?_, by simp⟩
    refine hr (hw.2.imp ?_ id)
    rintro ⟨e, he, hu, -⟩
    exact ⟨hv, e, he, hu⟩
  | some q =>
    obtain ⟨-, e, he, rfl, hu, hreach, hold⟩ := hr
    refine wp_then (walk_find_spec htouched.good.rep htouched.space.root hva) ?_
    rintro (_ | ⟨node, i⟩) t' ⟨rfl, hfound⟩ <;> rw [hdiv, he] at hfound
    · cases hfound
    · obtain ⟨-, -, hent⟩ := hfound
      have hpte : (t'.mem node i).toNat = e := by
        split at hent
        · exact (Option.some.inj hent).symm
        · cases hent
      refine wp_bind.mpr (wp_readWord.mpr ?_)
      rw [hpte]
      by_cases hw : e.testBit 2 = true
      · rw [if_neg (by rw [hw]; decide)]
        refine wp_bind.mpr (wp_get.mpr ?_)
        refine wp_then (setBytes_view src htouched.good htouched.space hv he hu) fun _ u hu' => ?_
        obtain ⟨hwrite, hview'⟩ := hu'
        have hcan : CanWrite A s p (va / pgsize) := by
          refine ⟨hv, hreach.imp ?_ id⟩
          rintro ⟨-, e', he', hu'⟩
          refine ⟨e', he', hu', ?_⟩
          rw [htouched.ent _ _ he'] at he
          rwa [Option.some.inj he]
        refine wp_pure.mpr ⟨B, htouched.trans hwrite, hkept, fun a ha => ?_, iff_of_true rfl hcan,
          fun _ => ⟨fun k hk => ?_, hv, e, he, hu⟩⟩
        · rw [hview' a, if_neg, hview a]
          rintro ⟨hpage, hlo, hhi⟩
          apply ha
          have hpage : a / 4096 = va / 4096 := hpage
          have hlo : va % 4096 ≤ a % 4096 := hlo
          have hhi : a % 4096 < va % 4096 + n := hhi
          omega
        · obtain ⟨hpage, hoff⟩ := @same_page va k (by omega)
          rw [hview' (va + k), hpage, hoff, if_pos ⟨rfl, by omega⟩, Nat.add_sub_cancel_left]
      · rw [if_pos (Bool.eq_false_iff.mpr hw)]
        refine wp_pure.mpr ⟨B, htouched, hkept, fun a _ => hview a, iff_of_false Bool.false_ne_true ?_, by simp⟩
        rintro ⟨-, ⟨e', he', -, hw'⟩ | ⟨hnone, -⟩⟩
        · rw [htouched.ent _ _ he'] at he
          rw [Option.some.inj he] at hw'
          exact hw hw'
        rcases hold with ⟨hsome, -⟩ | ⟨-, hwrite⟩
        · rw [hnone] at hsome
          cases hsome
        · exact hw hwrite

/-- A `copyout` as a whole: only bytes of the range change, and all of them if it succeeds. -/
theorem copyout_spec :
    wp (copyout img p p.pagetable va src len) (fun ok t => ∃ B, Touched img p A B s t ∧
      (∀ a, ¬ (va ≤ a ∧ a < va + len) → userView t p a = userView s p a) ∧
      (ok = true → ∀ k < len, userView t p (va + k) = some (src k) ∧
        UserMapped B p ((va + k) / pgsize))) Never s := by
  induction len using Nat.strong_induction_on generalizing va src A s with
  | _ len ih =>
  rcases eq_or_ne len 0 with rfl | hlen
  · exact wp_pure.mpr ⟨A, Touched.refl h hp, fun _ _ => rfl, fun _ k hk => absurd hk (Nat.not_lt_zero k)⟩
  have hpos := firstPart_pos va hlen
  have hle := firstPart_le va len
  rw [copyout_cons src hlen]
  refine wp_then (copyoutPage_spec src h hp (firstPart_in_page va len)) fun ok t ht => ?_
  obtain ⟨B, htouched, -, hframe, -, hbytes⟩ := ht
  cases ok with
  | false => exact wp_pure.mpr ⟨B, htouched, fun a ha => hframe a (by omega), by simp⟩
  | true =>
    obtain ⟨hbytes, hv, e, he, hu⟩ := hbytes rfl
    refine wp_post (ih _ (by omega) _ htouched.good htouched.space) fun ok u hu' => ?_
    obtain ⟨C, htouched', hframe', hbytes'⟩ := hu'
    refine ⟨C, htouched.trans htouched', fun a ha => ?_, fun hok k hk => ?_⟩
    · rw [hframe' a (by omega), hframe a (by omega)]
    by_cases hfirst : k < firstPart va len
    · rw [hframe' (va + k) (by omega), page_of_firstPart hfirst]
      exact ⟨hbytes k hfirst, hv, e, htouched'.ent _ _ he, hu⟩
    have hrest := hbytes' hok (k - firstPart va len) (by omega)
    rw [show va + firstPart va len + (k - firstPart va len) = va + k by omega,
      show k - firstPart va len + firstPart va len = k by omega] at hrest
    exact hrest

end

/-! ## When `copyout` fails -/

/-- The page is mapped for user access and writable. -/
def UserWritable (s : Vm) (p : Space) (v : Nat) : Prop :=
  ∃ e, translate s.mem p.pagetable (v * pgsize) = some e ∧ e.testBit 4 = true ∧ e.testBit 2 = true

/-- The page is not mapped yet, it is below the size, and when a copy to `va` gets to it there are pages for it and for
the nodes of the page table that are missing. -/
def FaultsIn (img : Image) (s : Vm) (p : Space) (va : Nat) (src : Nat → UInt8) (v : Nat) : Prop :=
  translate s.mem p.pagetable (v * pgsize) = none ∧ v * pgsize < p.sz ∧
    ∀ t, copyout img p p.pagetable va src (v * pgsize - va) s = .ok true t →
      needed t.mem p.pagetable (v * pgsize) ≤ t.free.length

theorem translate_ent (h : Rep img A s) (hpt : A.own pt = .node pt) (hv : v < 2 ^ 26) :
    translate s.mem pt (v * pgsize) = A.ent pt v := by
  rw [translate_at h hpt (vpn_lt_maxva hv), page_vpn]

/-- The first page of a copy is the page that the copy starts with. -/
theorem canWrite_iff (src : Nat → UInt8) (h : Good img A s) (hp : UserSpace img A p) :
    CanWrite A s p (va / pgsize) ↔ UserWritable s p (va / pgsize) ∨ FaultsIn img s p va src (va / pgsize) := by
  have hstart : va / pgsize * pgsize - va = 0 := Nat.sub_eq_zero_of_le (Nat.div_mul_le_self va pgsize)
  rw [UserWritable, FaultsIn, hstart, copyout_zero]
  by_cases hv : va / pgsize < 2 ^ 26
  · rw [translate_ent h.rep hp.root hv, CanWrite]
    constructor
    · rintro ⟨-, hmapped | ⟨hnone, hsz, hneed⟩⟩
      · exact .inl hmapped
      · refine .inr ⟨hnone, hsz, fun t ht => ?_⟩
        cases ht
        exact hneed
    · rintro (hmapped | ⟨hnone, hsz, hneed⟩)
      · exact ⟨hv, .inl hmapped⟩
      · exact ⟨hv, .inr ⟨hnone, hsz, hneed s rfl⟩⟩
  · rw [translate_above s.mem hv]
    constructor
    · intro hcan
      exact absurd hcan.1 hv
    rintro (⟨e, he, -⟩ | ⟨-, hsz, -⟩)
    · cases he
    · have hlt := hp.lt_of_below hsz
      exact absurd (lt_of_lt_trapVpn hlt) hv

/-- What a round leaves of the later pages. -/
theorem later_page {src : Nat → UInt8} {n : Nat} (hA : Good img A s) (hp : UserSpace img A p)
    (htouched : Touched img p A B s t) (hkept : ∀ w ≠ va / pgsize, B.ent p.pagetable w = A.ent p.pagetable w)
    (hrun : copyoutPage img p p.pagetable va src n s = .ok true t) (hn : va + n = pgrounddown va + pgsize)
    (hv : va / pgsize < v) :
    (UserWritable t p v ↔ UserWritable s p v) ∧
    (FaultsIn img t p (va + n) (fun k => src (k + n)) v ↔ FaultsIn img s p va src v) := by
  have htrans : translate t.mem p.pagetable (v * pgsize) = translate s.mem p.pagetable (v * pgsize) := by
    by_cases hlt : v < 2 ^ 26
    · rw [translate_ent htouched.good.rep htouched.space.root hlt, translate_ent hA.rep hp.root hlt,
        hkept v (Nat.ne_of_gt hv)]
    · rw [translate_above t.mem hlt, translate_above s.mem hlt]
  have hend : va + n = va / 4096 * 4096 + 4096 := hn
  have hv' : va / 4096 < v := hv
  -- the copy up to page `v` begins with the same round
  have hfirst : firstPart va (v * pgsize - va) = n := by
    rw [firstPart_eq]
    show min (4096 - va % 4096) (v * 4096 - va) = n
    omega
  have hne : v * pgsize - va ≠ 0 := by
    show v * 4096 - va ≠ 0
    omega
  have hcopy : copyout img p p.pagetable va src (v * pgsize - va) s =
      copyout img p p.pagetable (va + n) (fun k => src (k + n)) (v * pgsize - (va + n)) t := by
    rw [copyout_cons src hne, hfirst, bind_of_ok hrun, if_pos rfl, Nat.sub_sub]
  refine ⟨by rw [UserWritable, UserWritable, htrans], ?_⟩
  rw [FaultsIn, FaultsIn, htrans, hcopy]

theorem copyout_fails (src : Nat → UInt8) (h : Good img A s) (hp : UserSpace img A p) :
    wp (copyout img p p.pagetable va src len) (fun ok _ => ok = false ↔
      ∃ k < len, ¬ UserWritable s p ((va + k) / pgsize) ∧ ¬ FaultsIn img s p va src ((va + k) / pgsize))
      Never s := by
  induction len using Nat.strong_induction_on generalizing va src A s with
  | _ len ih =>
  rcases eq_or_ne len 0 with rfl | hlen
  · refine wp_pure.mpr (iff_of_false Bool.noConfusion ?_)
    rintro ⟨k, hk, -⟩
    exact absurd hk (Nat.not_lt_zero k)
  have hpos := firstPart_pos va hlen
  obtain ⟨ok, t, hrun, B, htouched, hkept, -, hok, -⟩ :=
    wp_returns (copyoutPage_spec src h hp (firstPart_in_page va len)) fun _ => id
  rw [copyout_cons src hlen]
  refine wp_bind.mpr (wp_of_ok hrun ?_)
  rw [canWrite_iff src h hp] at hok
  cases ok with
  | false =>
    -- the first page stops the copy
    have hstop := not_or.mp fun hcan => Bool.false_ne_true (hok.mpr hcan)
    exact wp_pure.mpr (iff_of_true rfl ⟨0, Nat.pos_of_ne_zero hlen, hstop.1, hstop.2⟩)
  | true =>
    rw [if_pos rfl]
    have hfirst : ∀ k < firstPart va len,
        ¬ (¬ UserWritable s p ((va + k) / pgsize) ∧ ¬ FaultsIn img s p va src ((va + k) / pgsize)) := by
      intro k hk hbad
      rw [page_of_firstPart hk] at hbad
      exact (hok.mp rfl).elim hbad.1 hbad.2
    have hlater : ∀ k, firstPart va len ≤ k → k < len →
        (UserWritable t p ((va + k) / pgsize) ↔ UserWritable s p ((va + k) / pgsize)) ∧
        (FaultsIn img t p (va + firstPart va len) (fun k => src (k + firstPart va len)) ((va + k) / pgsize) ↔
          FaultsIn img s p va src ((va + k) / pgsize)) := by
      intro k hk hlt
      obtain ⟨-, hend⟩ := (firstPart_cases va len).resolve_left (by omega)
      refine later_page h hp htouched hkept hrun hend ?_
      have hend : va + firstPart va len = va / 4096 * 4096 + 4096 := hend
      show va / 4096 < (va + k) / 4096
      omega
    refine wp_post (ih _ (by omega) _ htouched.good htouched.space) fun ok u hu => hu.trans ⟨?_, ?_⟩
    · rintro ⟨k, hk, hbad⟩
      rw [Nat.add_assoc, (hlater _ (Nat.le_add_right ..) (by omega)).1,
        (hlater _ (Nat.le_add_right ..) (by omega)).2] at hbad
      exact ⟨firstPart va len + k, by omega, hbad⟩
    · rintro ⟨k, hk, hbad⟩
      have hge : firstPart va len ≤ k := Nat.not_lt.mp fun hlt => hfirst k hlt hbad
      refine ⟨k - firstPart va len, by omega, ?_⟩
      rw [show va + firstPart va len + (k - firstPart va len) = va + k by omega, (hlater k hge hk).1,
        (hlater k hge hk).2]
      exact hbad

end Copyout

/-! ## `copyin` -/

section Copyin

variable {img : Image} {A B : Abs} {s t : Vm} {p : Space} {pt va len v : Nat}

@[simp] theorem copyinLoop_zero (rounds : Nat) (acc : List UInt8) :
    copyinLoop img p pt rounds va 0 acc = pure (some acc) := by
  cases rounds with
  | zero => rfl
  | succ rounds => rw [copyinLoop, if_pos rfl]

/-- The bytes copied so far come first. -/
theorem copyinLoop_acc (rounds va len : Nat) (acc : List UInt8) :
    copyinLoop img p pt rounds va len acc = Option.map (acc ++ ·) <$> copyinLoop img p pt rounds va len [] := by
  induction rounds generalizing va len acc with
  | zero => simp [copyinLoop]
  | succ rounds ih =>
    rcases eq_or_ne len 0 with rfl | hlen
    · simp
    rw [copyinLoop, copyinLoop, if_neg hlen, if_neg hlen, map_bind]
    congr 1
    funext bytes
    cases bytes with
    | none => simp
    | some bytes =>
      simp only [nil_append]
      rw [ih _ _ (acc ++ bytes), ih _ _ bytes, Functor.map_map]
      congr 1
      funext r
      cases r <;> simp

/-- More rounds than bytes make no difference. -/
theorem copyinLoop_rounds {rounds rounds' : Nat} (acc : List UInt8) (h : len ≤ rounds) (h' : len ≤ rounds') :
    copyinLoop img p pt rounds va len acc = copyinLoop img p pt rounds' va len acc := by
  induction rounds generalizing rounds' va len acc with
  | zero =>
    obtain rfl : len = 0 := Nat.le_zero.mp h
    simp
  | succ rounds ih =>
    rcases eq_or_ne len 0 with rfl | hlen
    · simp
    obtain ⟨rounds', rfl⟩ := Nat.exists_eq_add_one_of_ne_zero (show rounds' ≠ 0 by omega)
    have hpos := firstPart_pos va hlen
    have hrest := fun acc => @ih (pgrounddown va + pgsize) (len - firstPart va len) rounds' acc (by omega) (by omega)
    rw [copyinLoop, copyinLoop, if_neg hlen, if_neg hlen]
    simp only [hrest]

/-- `copyin` of a range is its first round followed by `copyin` of the rest. -/
theorem copyin_cons (hlen : len ≠ 0) :
    copyin img p pt va len = (do
      let bytes ← copyinPage img p pt va (firstPart va len)
      match bytes with
      | none => pure none
      | some bytes =>
        Option.map (bytes ++ ·) <$> copyin img p pt (va + firstPart va len) (len - firstPart va len)) := by
  obtain ⟨rounds, rfl⟩ := Nat.exists_eq_add_one_of_ne_zero hlen
  have hpos := firstPart_pos va hlen
  rw [copyin, copyinLoop, if_neg hlen]
  congr 1
  funext bytes
  cases bytes with
  | none => rfl
  | some bytes =>
    simp only [nil_append]
    rw [copyinLoop_acc]
    rcases firstPart_cases va (rounds + 1) with hall | ⟨hlt, hend⟩
    · rw [hall, Nat.sub_self, copyin]
      simp
    · rw [hend, copyin, copyinLoop_rounds [] (by omega) (Nat.le_refl _)]

theorem copyinPage_spec {n : Nat} (h : Good img A s) (hp : UserSpace img A p) (hn : va % pgsize + n ≤ pgsize) :
    wp (copyinPage img p p.pagetable va n) (fun r t => ∃ B, Touched img p A B s t ∧
      (∀ a, userView t p a = userView s p a) ∧ (UserMapped A p (va / pgsize) → t = s) ∧
      (r.isSome = true ↔ CanReach A s p (va / pgsize)) ∧
      ∀ bytes, r = some bytes → bytes.map some = (List.range n).map fun k => userView s p (va + k)) Never s := by
  dsimp only [copyinPage]
  rw [sub_pgrounddown, pgrounddown]
  refine wp_then (faultIn_spec h hp (va / pgsize)) fun r t ht => ?_
  obtain ⟨B, htouched, hview, -, hr⟩ := ht
  cases r with
  | none =>
    refine wp_pure.mpr ⟨B, htouched, hview, fun hm => absurd (.inl hm) hr, iff_of_false (by simp) hr, by simp⟩
  | some q =>
    obtain ⟨hv, e, he, rfl, hu, hreach, hold⟩ := hr
    refine wp_bind.mpr (wp_get.mpr (wp_pure.mpr ⟨B, htouched, hview, ?_, iff_of_true rfl hreach, ?_⟩))
    · rintro ⟨-, e', he', -⟩
      rcases hold with ⟨-, rfl⟩ | ⟨hnone, -⟩
      · rfl
      · rw [he'] at hnone
        cases hnone
    intro bytes hbytes
    rw [← Option.some.inj hbytes, map_map]
    refine map_congr_left fun k hk => ?_
    have hk : k < n := mem_range.mp hk
    obtain ⟨hpage, hoff⟩ := @same_page va k (by omega)
    have hva : va + k < maxva := lt_maxva_iff.mpr (hpage ▸ hv)
    rw [← hview, userView_eq htouched.good.rep htouched.space.root hva, hpage, he]
    simp only [hu, if_true, hoff, Function.comp_apply]

/-- A `copyin` as a whole returns what the process sees, and changes nothing of that. -/
theorem copyin_spec (h : Good img A s) (hp : UserSpace img A p) :
    wp (copyin img p p.pagetable va len) (fun r t => ∃ B, Touched img p A B s t ∧
      (∀ a, userView t p a = userView s p a) ∧
      ∀ bytes, r = some bytes → bytes.map some = (List.range len).map fun k => userView s p (va + k)) Never s := by
  induction len using Nat.strong_induction_on generalizing va A s with
  | _ len ih =>
  rcases eq_or_ne len 0 with rfl | hlen
  · refine wp_pure.mpr ⟨A, Touched.refl h hp, fun _ => rfl, fun bytes hbytes => ?_⟩
    cases hbytes
    rfl
  have hpos := firstPart_pos va hlen
  have hle := firstPart_le va len
  rw [copyin_cons hlen]
  refine wp_then (copyinPage_spec h hp (firstPart_in_page va len)) fun r t ht => ?_
  obtain ⟨B, htouched, hview, -, -, hbytes⟩ := ht
  cases r with
  | none => exact wp_pure.mpr ⟨B, htouched, hview, by simp⟩
  | some first =>
    refine wp_map.mpr (wp_post (ih _ (by omega) htouched.good htouched.space) fun r u hu => ?_)
    obtain ⟨C, htouched', hview', hrest⟩ := hu
    refine ⟨C, htouched.trans htouched', fun a => (hview' a).trans (hview a), fun bytes hall => ?_⟩
    obtain ⟨rest, rfl, rfl⟩ := Option.map_eq_some_iff.mp hall
    have hsplit : range len = range (firstPart va len) ++
        (range (len - firstPart va len)).map (firstPart va len + ·) := by
      rw [← range_add, Nat.add_sub_cancel' hle]
    rw [map_append, hbytes first rfl, hrest rest rfl, hsplit, map_append, map_map]
    congr 1
    refine map_congr_left fun k _ => ?_
    rw [hview, Nat.add_assoc]
    rfl

/-- `copyin` succeeds if all pages of the range are mapped for user access, but for the last one, which may have to be
faulted in. -/
theorem copyin_succeeds (h : Good img A s) (hp : UserSpace img A p)
    (hall : ∀ k < len, UserMapped A p ((va + k) / pgsize) ∨
      ((va + k) / pgsize = (va + (len - 1)) / pgsize ∧ CanReach A s p ((va + k) / pgsize))) :
    wp (copyin img p p.pagetable va len) (fun r t => r.isSome = true ∧
      ((∀ k < len, UserMapped A p ((va + k) / pgsize)) → t = s)) Never s := by
  induction len using Nat.strong_induction_on generalizing va with
  | _ len ih =>
  rcases eq_or_ne len 0 with rfl | hlen
  · exact wp_pure.mpr ⟨rfl, fun _ => rfl⟩
  have hpos := firstPart_pos va hlen
  rw [copyin_cons hlen]
  refine wp_then (copyinPage_spec h hp (firstPart_in_page va len)) fun r t ht => ?_
  obtain ⟨B, htouched, hview, hsame, hreach, hbytes⟩ := ht
  have hfirst := hall 0 (Nat.pos_of_ne_zero hlen)
  have hcan : CanReach A s p (va / pgsize) := hfirst.elim .inl fun hl => hl.2
  obtain ⟨first, rfl⟩ := Option.isSome_iff_exists.mp (hreach.mpr hcan)
  refine wp_map.mpr ?_
  rcases firstPart_cases va len with hone | ⟨hlt, hend⟩
  · -- the range ends in the first page
    rw [hone, Nat.sub_self]
    exact wp_pure.mpr ⟨rfl, fun hmapped => hsame (hmapped 0 (Nat.pos_of_ne_zero hlen))⟩
  have hmapped : UserMapped A p (va / pgsize) := by
    refine hfirst.resolve_right fun hl => ?_
    have hpage : va / 4096 = (va + (len - 1)) / 4096 := hl.1
    have hend : va + firstPart va len = va / 4096 * 4096 + 4096 := hend
    omega
  obtain rfl := hsame hmapped
  have hnext : ∀ k, va + firstPart va len + k = va + (firstPart va len + k) := fun k => Nat.add_assoc ..
  have hlast : firstPart va len + (len - firstPart va len - 1) = len - 1 := by omega
  refine wp_post (ih (len - firstPart va len) (by omega) fun k hk => ?_) fun r u hu => ?_
  · rw [hnext, hnext, hlast]
    exact hall _ (by omega)
  · refine ⟨by simpa using hu.1, fun hm => hu.2 fun k hk => ?_⟩
    rw [hnext]
    exact hm _ (by omega)

end Copyin

/-! ## Both together -/

section Inverse

variable {img : Image} {s : Vm} {p : Space}

/-- What `copyout` stored is what `copyin` reads; no other byte of the process changes; `copyout` fails exactly if some
page of the range is not mapped for writing and cannot be faulted in; and neither of the two stops with an error, whatever
the range. -/
theorem copyout_inverse (h : SpaceInv img s p) (va : Nat) (bs : List UInt8) :
    (∃ ok t, copyout img p p.pagetable va (bs.getD · 0) bs.length s = .ok ok t ∧ SpaceInv img t p ∧
      (∀ a, ¬ (va ≤ a ∧ a < va + bs.length) → userView t p a = userView s p a) ∧
      (ok = true → copyin img p p.pagetable va bs.length t = .ok (some bs) t) ∧
      (ok = false ↔ ∃ k, k < bs.length ∧ ¬ UserWritable s p ((va + k) / pgsize) ∧
        ¬ FaultsIn img s p va (bs.getD · 0) ((va + k) / pgsize))) ∧
    ∀ len, ∃ r t, copyin img p p.pagetable va len s = .ok r t ∧ SpaceInv img t p ∧
      ∀ a, userView t p a = userView s p a := by
  obtain ⟨A, hgood, hp⟩ := h
  constructor
  · obtain ⟨ok, t, hrun, ⟨B, htouched, hframe, hbytes⟩, hfails⟩ :=
      wp_returns (x := copyout img p p.pagetable va (bs.getD · 0) bs.length) (wp_and (copyout_spec (bs.getD · 0) hgood hp)
        (copyout_fails (bs.getD · 0) hgood hp)) fun _ he => he.1
    refine ⟨ok, t, hrun, ⟨B, htouched.good, htouched.space⟩, hframe, fun hok => ?_, hfails⟩
    have hmapped : ∀ k, k < bs.length → UserMapped B p ((va + k) / pgsize) := fun k hk => (hbytes hok k hk).2
    obtain ⟨r, u, hread, ⟨hsome, hsame⟩, C, -, -, hreads⟩ :=
      wp_returns (wp_and (copyin_succeeds htouched.good htouched.space fun k hk => .inl (hmapped k hk))
        (copyin_spec htouched.good htouched.space)) fun _ he => he.1
    obtain ⟨bytes, rfl⟩ := Option.isSome_iff_exists.mp hsome
    obtain rfl := hsame hmapped
    have hall : bytes.map some = bs.map some := by
      rw [hreads bytes rfl]
      refine ext_getElem (by simp) fun k hk _ => ?_
      have hk : k < bs.length := by simpa using hk
      simp only [getElem_map, getElem_range, (hbytes hok k hk).1]
      rw [getD_eq_getElem?_getD, getElem?_eq_getElem hk, Option.getD_some]
    rw [hread, map_injective_iff.mpr (Option.some_injective _) hall]
  · intro len
    obtain ⟨r, t, hrun, B, htouched, hview, -⟩ := wp_returns (copyin_spec hgood hp) fun _ => id
    exact ⟨r, t, hrun, ⟨B, htouched.good, htouched.space⟩, hview⟩

/-- Four bytes across a page boundary, in memory that the process has reserved and not touched. -/
theorem copyout_inverse_small : ∃ s p t, SpaceInv smallImage s p ∧
    copyout smallImage p p.pagetable 4094 (fun k => [104, 105, 33, 0].getD k 0) 4 s = .ok true t ∧
    copyin smallImage p p.pagetable 4094 4 t = .ok (some [104, 105, 33, 0]) t := by
  have hrun : yields (smallProc 8192) smallVm (fun r s => r.any fun p =>
      yields (copyout smallImage p p.pagetable 4094 (fun k => [104, 105, 33, 0].getD k 0) 4) s fun ok _ => ok) =
      true := by decide +kernel
  obtain ⟨p, s, hproc, hrun⟩ := yields_some hrun
  have hinv := smallProc_inv (by decide) hproc
  obtain ⟨⟨ok, t, hcopy, -, -, hback, -⟩, -⟩ := copyout_inverse hinv 4094 [104, 105, 33, 0]
  obtain ⟨ok', t', hcopy', rfl⟩ := yields_true hrun
  cases hcopy'.symm.trans hcopy
  exact ⟨s, p, t, hinv, hcopy, hback rfl⟩

end Inverse

end Xv6Lab.Memory
