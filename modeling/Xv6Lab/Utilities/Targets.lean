import Mathlib.Data.List.DropRight

/-!
# Targets of custom_cp and custom_mv

The loop of `main` that both programs have, as far as it computes the target of each source for a destination that is
a directory. The target is the destination followed by what stands behind the last slash of the source (`base_eq`),
which is empty if the source ends with a slash (`targets_kept_iff`).
-/

namespace Xv6Lab.Utilities.Targets

open List

/-- `strrchr(s, '/') + 1`, if there is a slash. -/
def afterSlash : List Char → Option (List Char)
  | [] => none
  | c :: s => (afterSlash s).or (if c = '/' then some s else none)

/-- The variable `base` of `main`. -/
def base (src : List Char) : List Char := (afterSlash src).getD src

/-- The string that `snprintf` leaves in `target`, which has 4096 bytes. -/
def target (dst src : List Char) : List Char := (dst ++ '/' :: base src).take 4095

/-- The last component of a path that is not empty. -/
def lastComponent (src : List Char) : List Char := (src.rdropWhile (· = '/')).rtakeWhile (· ≠ '/')

/-- A path in the directory `dst` leads to `dst` itself; `root` says that `dst` is the root directory. -/
def Itself (root : Bool) (dst path : List Char) : Prop :=
  path = dst ++ ['/'] ∨ path = dst ++ ['/', '.'] ∨ root = true ∧ path = dst ++ ['/', '.', '.']

theorem afterSlash_concat (s : List Char) (c : Char) :
    afterSlash (s ++ [c]) = if c = '/' then some [] else (afterSlash s).map (· ++ [c]) := by
  induction s with
  | nil => simp [afterSlash]
  | cons x s ih =>
    rw [cons_append, afterSlash, ih, afterSlash]
    by_cases hc : c = '/'
    · simp [hc]
    · cases afterSlash s <;> by_cases hx : x = '/' <;> simp [hc, hx]

/-- What follows the last slash, by induction from the end. -/
theorem base_eq (src : List Char) : base src = src.rtakeWhile (· ≠ '/') := by
  induction src using reverseRecOn with
  | nil => rfl
  | append_singleton s c ih =>
    rw [rtakeWhile_concat, ← ih, base, base, afterSlash_concat]
    by_cases hc : c = '/'
    · simp [hc]
    · simp [hc, Option.getD_map]

variable {root : Bool} {dst src : List Char}

theorem lastComponent_of_not_slash (h : src.getLast? ≠ some '/') : lastComponent src = base src := by
  have hself : src.rdropWhile (· = '/') = src := by
    rw [rdropWhile_eq_self_iff]
    intro hne hlast
    apply h
    rw [getLast?_eq_some_getLast hne, of_decide_eq_true hlast]
  rw [lastComponent, hself, base_eq]

theorem lastComponent_ne_nil (h : ∃ c ∈ src, c ≠ '/') : lastComponent src ≠ [] := by
  obtain ⟨c, hc, hne⟩ := h
  have hrest : src.rdropWhile (· = '/') ≠ [] := by
    rw [Ne, rdropWhile_eq_nil_iff]
    intro hall
    exact hne (of_decide_eq_true (hall c hc))
  have hlast := rdropWhile_last_not _ _ hrest
  rw [lastComponent, Ne, rtakeWhile_eq_nil_iff]
  intro h
  exact h hrest (by simpa using hlast)

theorem target_of_not_slash (h : src.getLast? ≠ some '/') (hlen : (dst ++ '/' :: lastComponent src).length < 4096) :
    target dst src = dst ++ '/' :: lastComponent src := by
  rw [target, ← lastComponent_of_not_slash h]
  exact take_of_length_le (Nat.le_of_lt_succ hlen)

/-- A source that ends with a slash is copied over the destination. -/
theorem target_of_slash (h : src.getLast? = some '/') (hlen : dst.length + 1 < 4096) :
    target dst src = dst ++ ['/'] := by
  have hnil : base src = [] := by
    rw [base_eq, rtakeWhile_eq_nil_iff]
    intro hne
    rw [getLast?_eq_some_getLast hne, Option.some.injEq] at h
    simp [h]
  rw [target, hnil]
  exact take_of_length_le (by simpa using Nat.le_of_lt_succ hlen)

/-- Every source has a target named after its last component, sources with different ones have different targets and
no target is the destination itself, if no source ends with a slash and none leads back to the destination; and only
then. -/
theorem targets_kept_iff (root : Bool) (dst : List Char) (sources : List (List Char))
    (hname : ∀ src ∈ sources, ∃ c ∈ src, c ≠ '/')
    (hlen : ∀ src ∈ sources, (dst ++ '/' :: lastComponent src).length < 4096) :
    (∀ src ∈ sources, target dst src = dst ++ '/' :: lastComponent src) ∧
      (∀ src ∈ sources, ∀ src' ∈ sources, lastComponent src ≠ lastComponent src' → target dst src ≠ target dst src') ∧
      (∀ src ∈ sources, ¬ Itself root dst (target dst src)) ↔
    ∀ src ∈ sources, src.getLast? ≠ some '/' ∧ lastComponent src ≠ ['.'] ∧
      (root = true → lastComponent src ≠ ['.', '.']) := by
  constructor
  · rintro ⟨hkeep, -, hself⟩ src hsrc
    have ht := hkeep src hsrc
    refine ⟨fun hend => ?_, fun hdot => ?_, fun hroot hdots => ?_⟩ <;> apply hself src hsrc
    · have hlen := hlen src hsrc
      rw [length_append, length_cons] at hlen
      exact .inl (target_of_slash hend (by omega))
    · rw [ht, hdot]
      exact .inr (.inl rfl)
    · rw [ht, hdots]
      exact .inr (.inr ⟨hroot, rfl⟩)
  · intro h
    have hkeep : ∀ src ∈ sources, target dst src = dst ++ '/' :: lastComponent src :=
      fun src hsrc => target_of_not_slash (h src hsrc).1 (hlen src hsrc)
    refine ⟨hkeep, fun src hsrc src' hsrc' hne heq => ?_, fun src hsrc hself => ?_⟩
    · rw [hkeep src hsrc, hkeep src' hsrc', append_cancel_left_eq] at heq
      exact hne (cons.inj heq).2
    · obtain ⟨-, hdot, hdots⟩ := h src hsrc
      rw [hkeep src hsrc] at hself
      simp only [Itself, append_cancel_left_eq, cons.injEq, true_and] at hself
      rcases hself with hnil | hself | ⟨hroot, hself⟩
      · exact lastComponent_ne_nil (hname src hsrc) hnil
      · exact hdot hself
      · exact hdots hroot hself

/-- The files `a` and `d/b` are copied to `t/a` and `t/b`. -/
theorem targets_kept_two : target ['t'] ['a'] = ['t', '/', 'a'] ∧ target ['t'] ['d', '/', 'b'] = ['t', '/', 'b'] := by
  have h := (targets_kept_iff false ['t'] [['a'], ['d', '/', 'b']] (by simp) (by decide)).mpr (by decide)
  exact ⟨h.1 ['a'] (by decide), h.1 ['d', '/', 'b'] (by decide)⟩

/-- The source `s/` is copied to `t/` itself instead of `t/s`. -/
theorem target_of_directory : target ['t'] ['s', '/'] = ['t', '/'] ∧ lastComponent ['s', '/'] = ['s'] := by
  decide

end Xv6Lab.Utilities.Targets
