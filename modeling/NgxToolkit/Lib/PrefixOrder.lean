import Mathlib

/-! Prefixes in the lexicographic order of lists.

A prefix of a list is at most the list, and the lists that extend `w` are an
interval of the order: what lies between `w` and an extension of `w` extends
`w`.  Sorting by this order therefore puts the extensions of a list right
behind it.

* `prefix_of_between`: the interval.
* `append_lt`: where `x < y` and `y` does not extend `x`, all that extends `x`
  is below `y`.
* `take_le_take`, `take_lt_iff`: comparing only the first `n` entries. -/

namespace Lib

theorem take_eq_iff {α : Type*} {x y : List α} {n : Nat} (h : x.length < n ∨ y.length < n) :
    x.take n = y.take n ↔ x = y := by
  refine ⟨fun heq => ?_, fun heq => by rw [heq]⟩
  have hl := congrArg List.length heq
  rw [List.length_take, List.length_take] at hl
  rwa [List.take_of_length_le (by omega), List.take_of_length_le (by omega)] at heq

section
variable {α : Type*} [LinearOrder α]

theorem nil_le (y : List α) : [] ≤ y := by
  cases y with
  | nil => exact le_refl _
  | cons b y => exact le_of_lt List.Lex.nil

theorem cons_le_cons_iff {a b : α} {x y : List α} :
    a :: x ≤ b :: y ↔ a < b ∨ a = b ∧ x ≤ y := by
  rw [le_iff_lt_or_eq, List.cons_lt_cons_iff, List.cons.injEq, le_iff_lt_or_eq]
  tauto

theorem prefix_le {x y : List α} (h : x <+: y) : x ≤ y := by
  induction x generalizing y with
  | nil => exact nil_le y
  | cons a x ih =>
    obtain ⟨z, rfl⟩ := h
    rw [List.cons_append, cons_le_cons_iff]
    exact Or.inr ⟨rfl, ih (List.prefix_append x z)⟩

theorem prefix_lt {x y : List α} (h : x <+: y) (hne : x ≠ y) : x < y :=
  lt_of_le_of_ne (prefix_le h) hne

/-- The extensions of `w` are an interval. -/
theorem prefix_of_between {w x y : List α} (hy : w <+: y) (hwx : w ≤ x) (hxy : x ≤ y) :
    w <+: x := by
  induction w generalizing x y with
  | nil => exact List.nil_prefix
  | cons a w ih =>
    obtain ⟨z, rfl⟩ := hy
    cases x with
    | nil => exact absurd (lt_of_lt_of_le List.Lex.nil hwx) (lt_irrefl _)
    | cons b x =>
      rw [cons_le_cons_iff] at hwx
      rw [List.cons_append, cons_le_cons_iff] at hxy
      -- The heads are squeezed between `a` and `a`.
      rcases hwx with hab | ⟨rfl, hwx⟩
      · rcases hxy with hba | ⟨rfl, _⟩
        · exact absurd hab (not_lt_of_gt hba)
        · exact absurd hab (lt_irrefl _)
      · rcases hxy with haa | ⟨_, hxy⟩
        · exact absurd haa (lt_irrefl _)
        · rw [List.cons_prefix_cons]
          exact ⟨rfl, ih (List.prefix_append w z) hwx hxy⟩

theorem append_lt {x y : List α} (h : x < y) (hp : ¬ x <+: y) (z : List α) : x ++ z < y := by
  by_contra hle
  exact hp (prefix_of_between (List.prefix_append x z) (le_of_lt h) (not_lt.mp hle))

theorem append_lt_append_iff (x : List α) {y z : List α} : x ++ y < x ++ z ↔ y < z := by
  induction x with
  | nil => exact Iff.rfl
  | cons a x ih =>
    rw [List.cons_append, List.cons_append, List.cons_lt_cons_iff, ih]
    simp only [lt_irrefl, true_and, false_or]

theorem take_le_take {x y : List α} (n : Nat) (h : x ≤ y) : x.take n ≤ y.take n := by
  induction n generalizing x y with
  | zero => simp
  | succ n ih =>
    cases x with
    | nil => exact nil_le _
    | cons a x =>
      cases y with
      | nil => exact absurd (lt_of_lt_of_le List.Lex.nil h) (lt_irrefl _)
      | cons b y =>
        rw [List.take_succ_cons, List.take_succ_cons]
        rw [cons_le_cons_iff] at h ⊢
        exact h.imp id fun h => ⟨h.1, ih h.2⟩

theorem lt_of_take_lt {x y : List α} {n : Nat} (h : x.take n < y.take n) : x < y := by
  by_contra hle
  exact not_lt_of_ge (take_le_take n (not_lt.mp hle)) h

/-- More entries than the shorter list has decide the order of the whole lists. -/
theorem take_lt_iff {x y : List α} {n : Nat} (h : x.length < n ∨ y.length < n) :
    x.take n < y.take n ↔ x < y := by
  refine ⟨lt_of_take_lt, fun hlt => lt_of_le_of_ne (take_le_take n (le_of_lt hlt)) fun heq => ?_⟩
  have hl := congrArg List.length heq
  rw [List.length_take, List.length_take] at hl
  rw [List.take_of_length_le (by omega), List.take_of_length_le (by omega)] at heq
  exact absurd hlt (heq ▸ lt_irrefl _)

end

end Lib
