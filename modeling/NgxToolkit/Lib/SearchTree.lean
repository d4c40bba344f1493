import Mathlib.Data.List.Nodup
import Mathlib.Data.Tree.Basic
import Mathlib.Tactic.Common

/-! Search trees by a cut of their in-order sequence.

`f a` says where the sought place lies relative to the entry `a`: `.lt` before
it, `.gt` behind it, `.eq` at it.  `Cut f l` says that `f` cuts the sequence
`l`: what comes behind an entry that is not before the place is behind it.

* `search_eq_some`: the descent by a cut finds the entry at the place.
* `insertAt_spec`: where no entry is at the place, the descent ends at a nil
  and a new entry put there splits the in-order sequence at the place.

The shape of the tree plays no role: all is said of the in-order sequence. -/

namespace Lib

variable {α : Type*}

def inorder : BinaryTree α → List α
  | .nil => []
  | .node a l r => inorder l ++ a :: inorder r

@[simp] theorem inorder_nil : inorder (.nil : BinaryTree α) = [] := rfl

@[simp] theorem inorder_node (a : α) (l r : BinaryTree α) :
    inorder (.node a l r) = inorder l ++ a :: inorder r := rfl

/-- The sought place of `f` cuts the sequence `l`. -/
def Cut (f : α → Ordering) (l : List α) : Prop :=
  l.Pairwise fun a b => f a ≠ .gt → f b = .lt

theorem cut_append {f : α → Ordering} {l r : List α} {a : α} :
    Cut f (l ++ a :: r) ↔ Cut f l ∧ Cut f r ∧ (f a ≠ .gt → ∀ b ∈ r, f b = .lt) ∧
      (f a ≠ .lt → ∀ b ∈ l, f b = .gt) ∧ ∀ b ∈ l, f b ≠ .gt → ∀ c ∈ r, f c = .lt := by
  unfold Cut
  rw [List.pairwise_append, List.pairwise_cons]
  constructor
  · rintro ⟨hl, ⟨har, hr⟩, hlr⟩
    refine ⟨hl, hr, fun ha b hb => har b hb ha, fun ha b hb => ?_, fun b hb hgt c hc =>
      hlr b hb c (List.mem_cons_of_mem _ hc) hgt⟩
    by_contra hgt
    exact ha (hlr b hb a List.mem_cons_self hgt)
  · rintro ⟨hl, hr, har, hla, hlr⟩
    refine ⟨hl, ⟨fun b hb ha => har ha b hb, hr⟩, fun b hb c hc hgt => ?_⟩
    rcases List.mem_cons.mp hc with rfl | hc
    · by_contra hlt
      exact hgt (hla hlt b hb)
    · exact hlr b hb hgt c hc

/-- The descent from the root to the entry at the place of `f`. -/
def search (f : α → Ordering) : BinaryTree α → Option α
  | .nil => none
  | .node a l r =>
    match f a with
    | .lt => search f l
    | .gt => search f r
    | .eq => some a

/-- **Search.**  The descent finds an entry exactly when it is at the place. -/
theorem search_eq_some {f : α → Ordering} {t : BinaryTree α} (h : Cut f (inorder t)) {b : α} :
    search f t = some b ↔ b ∈ inorder t ∧ f b = .eq := by
  induction t with
  | nil => simp [search]
  | node a l r ihl ihr =>
    rw [inorder_node, cut_append] at h
    obtain ⟨hl, hr, har, hla, -⟩ := h
    rw [search, inorder_node, List.mem_append, List.mem_cons]
    cases hf : f a with
    | lt =>
      simp only [ihl hl]
      refine ⟨fun hb => ⟨.inl hb.1, hb.2⟩, fun ⟨hb, he⟩ => ⟨?_, he⟩⟩
      rcases hb with hb | rfl | hb
      · exact hb
      · rw [hf] at he; cases he
      · rw [har (by rw [hf]; decide) b hb] at he; cases he
    | gt =>
      simp only [ihr hr]
      refine ⟨fun hb => ⟨.inr (.inr hb.1), hb.2⟩, fun ⟨hb, he⟩ => ⟨?_, he⟩⟩
      rcases hb with hb | rfl | hb
      · rw [hla (by rw [hf]; decide) b hb] at he; cases he
      · rw [hf] at he; cases he
      · exact hb
    | eq =>
      simp only [Option.some.injEq]
      refine ⟨fun hb => by subst hb; exact ⟨.inr (.inl rfl), hf⟩, fun ⟨hb, he⟩ => ?_⟩
      rcases hb with hb | rfl | hb
      · rw [hla (by rw [hf]; decide) b hb] at he; cases he
      · rfl
      · rw [har (by rw [hf]; decide) b hb] at he; cases he

/-- The descent to a nil, where `b` is put; `none` when an entry is at the place. -/
def insertAt (f : α → Ordering) (b : α) : BinaryTree α → Option (BinaryTree α)
  | .nil => some (.node b .nil .nil)
  | .node a l r =>
    match f a with
    | .lt => (insertAt f b l).map fun l' => .node a l' r
    | .gt => (insertAt f b r).map fun r' => .node a l r'
    | .eq => none

/-- **Insertion.**  Where no entry is at the place, the descent ends at the nil
between the entries before the place and those behind it. -/
theorem insertAt_spec {f : α → Ordering} {b : α} {t : BinaryTree α} (h : Cut f (inorder t))
    (hne : ∀ a ∈ inorder t, f a ≠ .eq) :
    ∃ t' l₁ l₂, insertAt f b t = some t' ∧ inorder t = l₁ ++ l₂ ∧ inorder t' = l₁ ++ b :: l₂ ∧
      (∀ a ∈ l₁, f a = .gt) ∧ ∀ a ∈ l₂, f a = .lt := by
  induction t with
  | nil => exact ⟨_, [], [], rfl, rfl, rfl, by simp, by simp⟩
  | node a l r ihl ihr =>
    rw [inorder_node, cut_append] at h
    obtain ⟨hl, hr, har, hla, -⟩ := h
    rw [inorder_node] at hne ⊢
    cases hf : f a with
    | lt =>
      obtain ⟨t', l₁, l₂, ht, hsplit, ht', h1, h2⟩ :=
        ihl hl fun c hc => hne c (List.mem_append_left _ hc)
      refine ⟨.node a t' r, l₁, l₂ ++ a :: inorder r, ?_, ?_, ?_, h1, ?_⟩
      · simp only [insertAt, hf, ht, Option.map_some]
      · rw [hsplit, List.append_assoc]
      · rw [inorder_node, ht', List.append_assoc, List.cons_append]
      · intro c hc
        rw [List.mem_append, List.mem_cons] at hc
        rcases hc with hc | rfl | hc
        · exact h2 c hc
        · exact hf
        · exact har (by rw [hf]; decide) c hc
    | gt =>
      obtain ⟨t', l₁, l₂, ht, hsplit, ht', h1, h2⟩ :=
        ihr hr fun c hc => hne c (List.mem_append_right _ (List.mem_cons_of_mem _ hc))
      refine ⟨.node a l t', inorder l ++ a :: l₁, l₂, ?_, ?_, ?_, ?_, h2⟩
      · simp only [insertAt, hf, ht, Option.map_some]
      · rw [hsplit, List.append_assoc, List.cons_append]
      · rw [inorder_node, ht', List.append_assoc, List.cons_append]
      · intro c hc
        rw [List.mem_append, List.mem_cons] at hc
        rcases hc with hc | rfl | hc
        · exact hla (by rw [hf]; decide) c hc
        · exact hf
        · exact h1 c hc
    | eq => exact absurd hf (hne a (List.mem_append_right _ List.mem_cons_self))

end Lib
