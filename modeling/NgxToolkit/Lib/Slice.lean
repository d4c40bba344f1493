import Mathlib.Data.List.Basic
import Mathlib.Data.List.TakeWhile
import Mathlib.Tactic.Common

/-! Segments of a list and the search for an entry inside a segment.

A position is a number of entries from the start.  The lemmas take the list cut
at the positions involved, so that a parser that searches for one delimiter
after another can be followed along an appended text.

* `slice_append`: the middle of a list cut in three.
* `find_hit`, `find_miss`: the search from the first cut on.
* `find_eq_some`: what a search that succeeds says about the list.
* `Segment.find_cases`: the search over a segment cuts it as `cutAt` does. -/

namespace Lib

section
variable {α : Type*}

/-- The entries of `s` from position `a` up to `b`. -/
def slice (s : List α) (a b : Nat) : List α := (s.drop a).take (b - a)

theorem slice_append {s x y z : List α} {a b : Nat} (hs : s = x ++ (y ++ z)) (ha : a = x.length)
    (hb : b = x.length + y.length) : slice s a b = y := by
  subst hs ha hb
  rw [slice, List.drop_left, Nat.add_sub_cancel_left, List.take_left]

theorem slice_tail {s x y : List α} {a b : Nat} (hs : s = x ++ y) (ha : a = x.length)
    (hb : b = s.length) : slice s a b = y := by
  refine slice_append (z := []) (by rw [hs, List.append_nil]) ha ?_
  rw [hb, hs, List.length_append]

theorem slice_all (s : List α) : slice s 0 s.length = s := slice_tail (x := []) rfl rfl rfl

theorem slice_length (s : List α) (a : Nat) : slice s a s.length = s.drop a :=
  List.take_of_length_le (Nat.le_of_eq List.length_drop)

section
variable [DecidableEq α]

/-- The first position of `c` from `p` on and before `last`. -/
def find (s : List α) (p last : Nat) (c : α) : Option Nat :=
  ((slice s p last).idxOf? c).map (p + ·)

theorem idxOf?_append_cons {x y : List α} {c : α} (h : c ∉ x) :
    (x ++ c :: y).idxOf? c = some x.length := by
  induction x with
  | nil => simp [List.idxOf?_cons]
  | cons a x ih =>
    rw [List.mem_cons, not_or] at h
    rw [List.cons_append, List.idxOf?_cons, ih h.2]
    simp [Ne.symm h.1]

/-- The place of the first `c` cuts a list in one way. -/
theorem cut_unique {x y x' y' : List α} {c : α} (h : x ++ c :: y = x' ++ c :: y') (hx : c ∉ x)
    (hx' : c ∉ x') : x = x' ∧ y = y' := by
  have hl : x.length = x'.length := by
    have := congrArg (List.idxOf? c) h
    rwa [idxOf?_append_cons hx, idxOf?_append_cons hx', Option.some.injEq] at this
  obtain ⟨rfl, hy⟩ := List.append_inj h hl
  exact ⟨rfl, (List.cons.inj hy).2⟩

/-- The segment is `y` up to the first `c`. -/
theorem find_hit {s x y z : List α} {p last : Nat} {c : α} (hs : s = x ++ (y ++ c :: z))
    (hp : p = x.length) (hc : c ∉ y) (hlast : x.length + y.length < last) :
    find s p last c = some (x.length + y.length) := by
  obtain ⟨k, hk⟩ : ∃ k, last - p = y.length + (k + 1) :=
    ⟨last - p - y.length - 1, by omega⟩
  have hseg : slice s p last = y ++ c :: z.take k := by
    rw [slice, hs, hp, List.drop_left, ← hp, hk, List.take_length_add_append, List.take_succ_cons]
  rw [find, hseg, idxOf?_append_cons hc, hp]
  rfl

theorem find_miss {s x y z : List α} {p last : Nat} {c : α} (hs : s = x ++ (y ++ z))
    (hp : p = x.length) (hc : c ∉ y) (hlast : last = x.length + y.length) :
    find s p last c = none := by
  rw [find, slice_append hs hp hlast, List.idxOf?_eq_none_iff.mpr hc]
  rfl

theorem find_eq_none {s : List α} {p last : Nat} {c : α} :
    find s p last c = none ↔ c ∉ slice s p last := by
  rw [find, Option.map_eq_none_iff, List.idxOf?_eq_none_iff]

/-- A search that succeeds cuts the segment at the first `c`. -/
theorem find_eq_some {s : List α} {p last i : Nat} {c : α} :
    find s p last c = some i ↔
      ∃ y z, slice s p last = y ++ c :: z ∧ c ∉ y ∧ i = p + y.length := by
  rw [find, Option.map_eq_some_iff]
  constructor
  · rintro ⟨k, hk, rfl⟩
    have hmem : c ∈ slice s p last := by
      by_contra hn
      rw [List.idxOf?_eq_none_iff.mpr hn] at hk
      cases hk
    obtain ⟨y, z, hyz, hc⟩ := List.eq_append_cons_of_mem hmem
    rw [hyz, idxOf?_append_cons hc] at hk
    exact ⟨y, z, hyz, hc, by rw [Option.some.inj hk]⟩
  · rintro ⟨y, z, hyz, hc, rfl⟩
    exact ⟨y.length, by rw [hyz, idxOf?_append_cons hc], rfl⟩

theorem find_bounds {s : List α} {p last i : Nat} {c : α} (h : find s p last c = some i) :
    p ≤ i ∧ i < last := by
  obtain ⟨y, z, hyz, -, rfl⟩ := find_eq_some.mp h
  have hlen := congrArg List.length hyz
  have hle : (slice s p last).length ≤ last - p := List.length_take_le _ _
  rw [List.length_append, List.length_cons] at hlen
  omega

/-- A list up to the first `c`, and what stands behind that. -/
def cutAt (c : α) (s : List α) : List α × Option (List α) :=
  (s.takeWhile (· ≠ c), (s.dropWhile (· ≠ c)).tail?)

theorem cutAt_of_not_mem {c : α} {s : List α} (h : c ∉ s) : cutAt c s = (s, none) := by
  have hne : ∀ a ∈ s, decide (a ≠ c) = true := fun a ha =>
    decide_eq_true fun he => h (he ▸ ha)
  rw [cutAt, List.takeWhile_eq_self_iff.mpr hne, List.dropWhile_eq_nil_iff.mpr hne]
  rfl

theorem cutAt_append_cons {c : α} {x : List α} (y : List α) (h : c ∉ x) :
    cutAt c (x ++ c :: y) = (x, some y) := by
  have hne : ∀ a ∈ x, decide (a ≠ c) = true := fun a ha =>
    decide_eq_true fun he => h (he ▸ ha)
  rw [cutAt, List.takeWhile_append_of_pos hne, List.dropWhile_append_of_pos hne]
  simp

/-- A list has no `c` or is cut at the first one. -/
theorem cutAt_cases (c : α) (s : List α) :
    (c ∉ s ∧ cutAt c s = (s, none)) ∨
      ∃ x y, s = x ++ c :: y ∧ c ∉ x ∧ cutAt c s = (x, some y) := by
  by_cases h : c ∈ s
  · obtain ⟨x, y, rfl, hx⟩ := List.eq_append_cons_of_mem h
    exact .inr ⟨x, y, rfl, hx, cutAt_append_cons y hx⟩
  · exact .inl ⟨h, cutAt_of_not_mem h⟩

/-- The parts of a cut put together. -/
theorem cutAt_append (c : α) (s : List α) :
    s = (cutAt c s).1 ++ (cutAt c s).2.elim [] (c :: ·) := by
  rcases cutAt_cases c s with ⟨-, h⟩ | ⟨x, y, rfl, -, h⟩
  · rw [h]
    exact (List.append_nil s).symm
  · rw [h]
    rfl

end

/-- The list `t` stands in `s` from position `p` on. -/
def Segment (s : List α) (p : Nat) (t : List α) : Prop :=
  ∃ x z, s = x ++ (t ++ z) ∧ p = x.length

theorem Segment.slice {s t : List α} {p last : Nat} (h : Segment s p t)
    (hlast : last = p + t.length) : Lib.slice s p last = t := by
  obtain ⟨x, z, hs, rfl⟩ := h
  exact slice_append hs rfl hlast

theorem Segment.left {s t u : List α} {p : Nat} (h : Segment s p (t ++ u)) : Segment s p t := by
  obtain ⟨x, z, rfl, rfl⟩ := h
  exact ⟨x, u ++ z, by rw [List.append_assoc], rfl⟩

theorem Segment.right {s t u : List α} {p q : Nat} (h : Segment s p (t ++ u))
    (hq : q = p + t.length) : Segment s q u := by
  obtain ⟨x, z, rfl, rfl⟩ := h
  exact ⟨x ++ t, z, by simp only [List.append_assoc], by rw [hq, List.length_append]⟩

theorem Segment.behind {s t u : List α} {c : α} {p q : Nat} (h : Segment s p (t ++ c :: u))
    (hq : q = p + t.length + 1) : Segment s q u :=
  Segment.right (t := [c]) (h.right rfl) hq

/-- The search for `c` over a segment cuts it at the first `c`. -/
theorem Segment.find_cases [DecidableEq α] {s t : List α} {p last : Nat} (h : Segment s p t)
    (c : α) (hlast : last = p + t.length) :
    (c ∉ t ∧ find s p last c = none ∧ cutAt c t = (t, none)) ∨
      ∃ x y, t = x ++ c :: y ∧ c ∉ x ∧ find s p last c = some (p + x.length) ∧
        cutAt c t = (x, some y) := by
  rcases cutAt_cases c t with ⟨hc, hcut⟩ | ⟨x, y, rfl, hx, hcut⟩
  · refine .inl ⟨hc, ?_, hcut⟩
    rw [find_eq_none, h.slice hlast]
    exact hc
  · refine .inr ⟨x, y, rfl, hx, ?_, hcut⟩
    exact find_eq_some.mpr ⟨x, y, h.slice hlast, hx, rfl⟩

end

end Lib
