import NgxToolkit.Lib.Slice
import NgxToolkit.Lib.TreeWalk
import NgxToolkit.NgxMap

/-! Walks over a map (`ngx_map_begin`, `ngx_map_next`).

* `mapNext_eq_head`: the next node is the one behind in the in-order sequence.
* `walk_begin`: a walk from the first node on visits the linked nodes in order
  and ends. -/

namespace NgxToolkit.NgxMap

open Lib

variable {K : Type}

/-- `ngx_map_begin`. -/
def mapBegin (map : Map K) : Option Nat :=
  match map.root with
  | .nil => none
  | .node p l _ => some (least p l)

/-- `ngx_map_next`. -/
def mapNext (map : Map K) (n : Nat) : Option Nat :=
  match locate n map.root [] with
  | none => none
  | some (_, .node top l _, _) => some (least top l)
  | some (_, .nil, up) => above up

/-- `for (node = p; node; node = ngx_map_next(node))`; `none` when the fuel runs out. -/
def walk (map : Map K) : Nat → Option Nat → Option (List Nat)
  | _, none => some []
  | 0, some _ => none
  | fuel + 1, some n => (walk map fuel (mapNext map n)).map (n :: ·)

variable {map : Map K}

theorem mapBegin_eq_head (map : Map K) : mapBegin map = map.linked.head? := by
  unfold mapBegin Map.linked
  cases map.root with
  | nil => rfl
  | node p l r => exact (least_eq_head p l r).symm

theorem mapNext_eq_head {xs ys : List Nat} {n : Nat} (h : map.linked.Nodup)
    (hl : map.linked = xs ++ n :: ys) : mapNext map n = ys.head? := by
  have hn : n ∈ inorder map.root := by
    show n ∈ map.linked
    rw [hl]
    simp
  obtain ⟨l, r, up, hloc⟩ := locate_mem [] hn
  have hsplit : map.linked = (leftOf up ++ inorder l) ++ n :: (inorder r ++ rightOf up) := by
    show inorder map.root = _
    have hplug : plug (.node n l r) up = map.root := locate_plug hloc
    rw [← hplug, inorder_plug, inorder_node]
    simp only [List.append_assoc, List.cons_append]
  -- the node stands in the sequence once
  have hys : ys = inorder r ++ rightOf up := by
    rw [hl] at hsplit h
    have hx := (List.nodup_append.mp h).2.2
    have h' := h
    rw [hsplit] at h'
    have hx' := (List.nodup_append.mp h').2.2
    have hni : n ∉ xs := fun hm => hx n hm n List.mem_cons_self rfl
    have hni' : n ∉ leftOf up ++ inorder l := fun hm => hx' n hm n List.mem_cons_self rfl
    exact (cut_unique hsplit hni hni').2
  rw [hys]
  unfold mapNext
  rw [hloc]
  cases r with
  | nil => exact above_eq_head up
  | node top rl rr =>
    rw [List.head?_append, least_eq_head top rl rr]
    rfl

theorem walk_eq_visit (map : Map K) (fuel : Nat) (p : Option Nat) :
    walk map fuel p = visit (fun n => some (mapNext map n)) fuel p := by
  induction fuel generalizing p with
  | zero =>
    cases p with
    | none => rfl
    | some n => rfl
  | succ fuel ih =>
    cases p with
    | none => rfl
    | some n =>
      rw [walk, ih]
      rfl

/-- A walk from a node on visits the nodes behind it. -/
theorem walk_eq (xs : List Nat) {ys : List Nat} {fuel : Nat} (h : map.linked.Nodup)
    (hl : map.linked = xs ++ ys) (hf : ys.length ≤ fuel) : walk map fuel ys.head? = some ys := by
  rw [walk_eq_visit]
  exact visit_eq (fun _ _ _ hs => congrArg some (mapNext_eq_head h hs)) xs hl hf

/-- **Walks.**  The walk over a map ends and visits the linked nodes in order. -/
theorem walk_begin {fuel : Nat} (h : map.linked.Nodup) (hf : map.linked.length ≤ fuel) :
    walk map fuel (mapBegin map) = some map.linked := by
  rw [mapBegin_eq_head]
  exact walk_eq [] h rfl hf

end NgxToolkit.NgxMap
