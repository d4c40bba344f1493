import NgxToolkit.Lib.TreeWalk

/-! Trees spelled by the links of their nodes.

`Spells` says that links hold a tree and that every child knows its parent; the
parent of the root may be anything.  Loops over links take fuel.

* `Spells.place`: the links at a place of the tree and on the way up from it.
* `Spells.descend_left`, `Climbs.climb_left`: what the loops down and up find.
* `Spells.swap`: left and right exchanged spell the mirrored tree. -/

namespace Lib

variable {α : Type*}

/-- The root of a tree and the links of its nodes; `none` is no node. -/
structure Links (α : Type*) where
  root : Option α
  left : α → Option α
  right : α → Option α
  parent : α → Option α

/-- The links from `p` down spell the tree, and each child in it knows its parent. -/
def Links.Spells (s : Links α) : BinaryTree α → Option α → Prop
  | .nil, p => p = none
  | .node a l r, p => p = some a ∧ s.Spells l (s.left a) ∧ s.Spells r (s.right a) ∧
      (∀ b, s.left a = some b → s.parent b = some a) ∧
      ∀ b, s.right a = some b → s.parent b = some a

/-- The links from `a` up spell the way up: only its end is the root, and the
parents know on which side they were reached. -/
def Links.Climbs (s : Links α) : α → List (Parent α) → Prop
  | a, [] => s.root = some a
  | a, .left b _ :: up =>
    s.root ≠ some a ∧ s.parent a = some b ∧ s.left b = some a ∧ s.Climbs b up
  | a, .right b _ :: up =>
    s.root ≠ some a ∧ s.parent a = some b ∧ s.left b ≠ some a ∧ s.Climbs b up

/-- Along one side as long as it goes; `none` when the fuel runs out. -/
def descend (side : α → Option α) : ℕ → α → Option α
  | 0, _ => none
  | fuel + 1, p =>
    match side p with
    | none => some p
    | some q => descend side fuel q

/-- Up to the first parent whose child on the side `side` is below, or to the
root, where the loop ends with no node; `none` at a node that has no parent. -/
def climb [DecidableEq α] (root : Option α) (parent side : α → Option α) :
    ℕ → α → Option (Option α)
  | 0, _ => none
  | fuel + 1, p =>
    if root = some p then some none
    else
      match parent p with
      | none => none
      | some q => if side q = some p then some (some q) else climb root parent side fuel q

/-! ## Links at a place of the tree -/

theorem length_plug (t : BinaryTree α) (up : List (Parent α)) :
    up.length + (inorder t).length ≤ (inorder (plug t up)).length := by
  induction up generalizing t with
  | nil => exact Nat.le_of_eq (Nat.zero_add _)
  | cons p up ih =>
    cases p with
    | left b r =>
      have := ih (.node b t r)
      simp only [plug, inorder_node, List.length_append, List.length_cons] at this ⊢
      omega
    | right b l =>
      have := ih (.node b l t)
      simp only [plug, inorder_node, List.length_append, List.length_cons] at this ⊢
      omega

/-- The root of a tree stands beside every place that is not at the root. -/
theorem plug_cons_top (t : BinaryTree α) (p : Parent α) (up : List (Parent α)) :
    ∃ x l r, plug t (p :: up) = .node x l r ∧ (x ∈ leftOf (p :: up) ∨ x ∈ rightOf (p :: up)) := by
  induction up generalizing t p with
  | nil =>
    cases p with
    | left b r => exact ⟨b, t, r, rfl, .inr List.mem_cons_self⟩
    | right b l => exact ⟨b, l, t, rfl, .inl (by simp [leftOf])⟩
  | cons q up ih =>
    cases p with
    | left b r =>
      obtain ⟨x, xl, xr, hx, hm⟩ := ih (.node b t r) q
      refine ⟨x, xl, xr, hx, hm.imp id fun h => ?_⟩
      exact List.mem_cons_of_mem _ (List.mem_append_right _ h)
    | right b l =>
      obtain ⟨x, xl, xr, hx, hm⟩ := ih (.node b l t) q
      exact ⟨x, xl, xr, hx, hm.imp (List.mem_append_left _) id⟩

theorem Links.Spells.top_mem {s : Links α} {t : BinaryTree α} {a : α} (h : s.Spells t (some a)) :
    a ∈ inorder t := by
  cases t with
  | nil => cases h
  | node b l r =>
    obtain ⟨hb, -⟩ := h
    rw [Option.some.injEq] at hb
    rw [hb, inorder_node]
    exact List.mem_append_right _ List.mem_cons_self

/-- Where links spell a tree with no entry twice, they spell every subtree and
the way up from it. -/
theorem Links.Spells.place {s : Links α} {a : α} {l r : BinaryTree α} {up : List (Parent α)}
    (h : s.Spells (plug (.node a l r) up) s.root)
    (hnd : (inorder (plug (.node a l r) up)).Nodup) :
    s.Spells (.node a l r) (some a) ∧ s.Climbs a up := by
  induction up generalizing a l r with
  | nil =>
    have hroot : s.root = some a := h.1
    rw [hroot] at h
    exact ⟨h, hroot⟩
  | cons p up ih =>
    -- the entry stands between what is on both sides, so it is none of these
    have hside : a ∉ leftOf (p :: up) ∧ a ∉ rightOf (p :: up) := by
      rw [inorder_plug, inorder_node, List.nodup_append] at hnd
      obtain ⟨-, hr, hlr⟩ := hnd
      rw [List.nodup_append] at hr
      have ha : a ∈ inorder l ++ a :: inorder r := List.mem_append_right _ List.mem_cons_self
      exact ⟨fun hl => hlr a hl a (List.mem_append_left _ ha) rfl, fun hl => hr.2.2 a ha a hl rfl⟩
    have hroot : s.root ≠ some a := by
      intro he
      obtain ⟨x, xl, xr, hx, hm⟩ := plug_cons_top (.node a l r) p up
      rw [hx, he] at h
      have hxa : some a = some x := h.1
      rw [Option.some.injEq] at hxa
      rw [← hxa] at hm
      exact hm.elim hside.1 hside.2
    cases p with
    | left b r' =>
      obtain ⟨⟨-, hl, -, hpar, -⟩, hup⟩ := ih (a := b) (l := .node a l r) (r := r') h hnd
      have hla : s.left b = some a := hl.1
      rw [hla] at hl
      exact ⟨hl, hroot, hpar a hla, hla, hup⟩
    | right b l' =>
      obtain ⟨⟨-, hl, hr, -, hpar⟩, hup⟩ := ih (a := b) (l := l') (r := .node a l r) h hnd
      have hra : s.right b = some a := hr.1
      rw [hra] at hr
      refine ⟨hr, hroot, hpar a hra, fun hla => ?_, hup⟩
      rw [hla] at hl
      apply hside.1
      show a ∈ leftOf up ++ (inorder l' ++ [b])
      exact List.mem_append_right _ (List.mem_append_left _ hl.top_mem)

/-! ## The loops -/

theorem Links.Spells.descend_left {s : Links α} {a : α} {l : BinaryTree α} {fuel : ℕ}
    (h : s.Spells l (s.left a)) (hf : (inorder l).length < fuel) :
    descend s.left fuel a = some (least a l) := by
  induction l generalizing a fuel with
  | nil =>
    obtain ⟨f, rfl⟩ := Nat.exists_eq_add_of_lt hf
    have hno : s.left a = none := h
    rw [descend, hno]
    rfl
  | node b l r ihl _ =>
    obtain ⟨hb, hl, -⟩ := h
    rw [inorder_node, List.length_append, List.length_cons] at hf
    cases fuel with
    | zero => omega
    | succ fuel =>
      rw [descend, hb]
      exact ihl hl (by omega)

theorem Links.Climbs.climb_left [DecidableEq α] {s : Links α} {a : α} {up : List (Parent α)}
    {fuel : ℕ} (h : s.Climbs a up) (hf : up.length < fuel) :
    climb s.root s.parent s.left fuel a = some (above up) := by
  induction up generalizing a fuel with
  | nil =>
    obtain ⟨f, rfl⟩ := Nat.exists_eq_add_of_lt hf
    have hroot : s.root = some a := h
    rw [climb, if_pos hroot]
    rfl
  | cons p up ih =>
    cases fuel with
    | zero => omega
    | succ fuel =>
      rw [List.length_cons] at hf
      cases p with
      | left b r =>
        obtain ⟨hroot, hpar, hl, -⟩ := h
        rw [climb, if_neg hroot, hpar]
        show (if s.left b = some a then _ else _) = _
        rw [if_pos hl]
        rfl
      | right b l =>
        obtain ⟨hroot, hpar, hl, hup⟩ := h
        rw [climb, if_neg hroot, hpar]
        show (if s.left b = some a then _ else _) = _
        rw [if_neg hl]
        exact ih hup (by omega)

/-! ## Left and right exchanged -/

def mirror : BinaryTree α → BinaryTree α
  | .nil => .nil
  | .node a l r => .node a (mirror r) (mirror l)

theorem inorder_mirror (t : BinaryTree α) : inorder (mirror t) = (inorder t).reverse := by
  induction t with
  | nil => rfl
  | node a l r ihl ihr => simp [mirror, ihl, ihr]

def Links.swap (s : Links α) : Links α := { s with left := s.right, right := s.left }

theorem Links.Spells.swap {s : Links α} {t : BinaryTree α} {p : Option α} (h : s.Spells t p) :
    s.swap.Spells (mirror t) p := by
  induction t generalizing p with
  | nil => exact h
  | node a l r ihl ihr =>
    obtain ⟨hp, hl, hr, hpl, hpr⟩ := h
    exact ⟨hp, ihr hr, ihl hl, hpr, hpl⟩

end Lib
