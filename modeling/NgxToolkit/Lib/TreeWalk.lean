import NgxToolkit.Lib.SearchTree

/-! Walks over a tree whose nodes know their parents.

A place in a tree is a subtree with the way up from it: the parents, the nearest
one first, each with its other subtree.  `plug` puts the tree together again.

* `inorder_plug`: what the way up says about the entries on both sides.
* `locate_plug`, `locate_mem`: the place of an entry.
* `least_eq_head`, `above_eq_head`: the two ways to the entry behind a place.
* `visit_eq`: a loop that goes to the entry behind visits a sequence in order. -/

namespace Lib

variable {α : Type*}

/-- A parent with its other subtree: the subtree below is its left one, or its right one. -/
inductive Parent (α : Type*) where
  | left (a : α) (r : BinaryTree α)
  | right (a : α) (l : BinaryTree α)

def plug : BinaryTree α → List (Parent α) → BinaryTree α
  | t, [] => t
  | t, .left a r :: up => plug (.node a t r) up
  | t, .right a l :: up => plug (.node a l t) up

/-- The entries on the left of a place. -/
def leftOf : List (Parent α) → List α
  | [] => []
  | .left _ _ :: up => leftOf up
  | .right a l :: up => leftOf up ++ (inorder l ++ [a])

/-- The entries on the right of a place. -/
def rightOf : List (Parent α) → List α
  | [] => []
  | .left a r :: up => a :: (inorder r ++ rightOf up)
  | .right _ _ :: up => rightOf up

theorem inorder_plug (t : BinaryTree α) (up : List (Parent α)) :
    inorder (plug t up) = leftOf up ++ (inorder t ++ rightOf up) := by
  induction up generalizing t with
  | nil => simp [plug, leftOf, rightOf]
  | cons p up ih =>
    cases p with
    | left a r => simp [plug, leftOf, rightOf, ih]
    | right a l => simp [plug, leftOf, rightOf, ih]

/-- The subtrees of the entry `a` and the way up from it. -/
def locate [DecidableEq α] (a : α) :
    BinaryTree α → List (Parent α) → Option (BinaryTree α × BinaryTree α × List (Parent α))
  | .nil, _ => none
  | .node b l r, up =>
    if b = a then some (l, r, up)
    else (locate a l (.left b r :: up)).or (locate a r (.right b l :: up))

theorem locate_plug [DecidableEq α] {a : α} {t l r : BinaryTree α} {up up' : List (Parent α)}
    (h : locate a t up = some (l, r, up')) : plug (.node a l r) up' = plug t up := by
  induction t generalizing up with
  | nil => cases h
  | node b tl tr ihl ihr =>
    rw [locate] at h
    split at h
    · next hb =>
      cases h
      rw [hb]
    · rcases Option.or_eq_some_iff.mp h with h | ⟨-, h⟩
      · exact ihl h
      · exact ihr h

theorem locate_mem [DecidableEq α] {a : α} {t : BinaryTree α} (up : List (Parent α))
    (h : a ∈ inorder t) : ∃ l r up', locate a t up = some (l, r, up') := by
  induction t generalizing up with
  | nil => cases h
  | node b tl tr ihl ihr =>
    rw [locate]
    by_cases hb : b = a
    · rw [if_pos hb]
      exact ⟨tl, tr, up, rfl⟩
    · rw [if_neg hb]
      cases hl : locate a tl (.left b tr :: up) with
      | some p => exact ⟨p.1, p.2.1, p.2.2, rfl⟩
      | none =>
        rw [Option.none_or]
        rw [inorder_node, List.mem_append, List.mem_cons] at h
        rcases h with h | h | h
        · obtain ⟨l, r, up', he⟩ := ihl (.left b tr :: up) h
          rw [hl] at he
          cases he
        · exact absurd h.symm hb
        · exact ihr (.right b tl :: up) h

/-- The least entry of a tree that is not empty. -/
def least (a : α) : BinaryTree α → α
  | .nil => a
  | .node b l _ => least b l

theorem least_eq_head (a : α) (l r : BinaryTree α) :
    (inorder (.node a l r)).head? = some (least a l) := by
  induction l generalizing a r with
  | nil => rfl
  | node b l r' ihl _ =>
    rw [inorder_node, List.head?_append, ihl b r']
    rfl

/-- The nearest parent whose left subtree is below. -/
def above : List (Parent α) → Option α
  | [] => none
  | .left a _ :: _ => some a
  | .right _ _ :: up => above up

theorem above_eq_head (up : List (Parent α)) : above up = (rightOf up).head? := by
  induction up with
  | nil => rfl
  | cons p up ih =>
    cases p with
    | left a r => rfl
    | right a l => exact ih

/-- `for (; p; p = next(p))`, with the nodes it visits; `none` when the fuel runs
out or `next` fails. -/
def visit (next : α → Option (Option α)) : ℕ → Option α → Option (List α)
  | _, none => some []
  | 0, some _ => none
  | fuel + 1, some p => (next p).bind fun q => (visit next fuel q).map (p :: ·)

/-- A loop that goes from each entry of a sequence to the one behind it visits
the rest of the sequence from any entry on. -/
theorem visit_eq {next : α → Option (Option α)} {l : List α}
    (hnext : ∀ xs n ys, l = xs ++ n :: ys → next n = some ys.head?) (xs : List α) {ys : List α}
    {fuel : ℕ} (hl : l = xs ++ ys) (hf : ys.length ≤ fuel) :
    visit next fuel ys.head? = some ys := by
  induction ys generalizing xs fuel with
  | nil =>
    cases fuel with
    | zero => rfl
    | succ fuel => rfl
  | cons n ys ih =>
    cases fuel with
    | zero => simp at hf
    | succ fuel =>
      rw [List.length_cons] at hf
      rw [List.head?_cons, visit, hnext xs n ys hl, Option.bind_some,
        ih (xs ++ [n]) (by rw [hl, List.append_assoc]; rfl) (by omega)]
      rfl

end Lib
