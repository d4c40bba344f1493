import Mathlib.Tactic.Common
import NgxToolkit.Lib.Machine
import NgxToolkit.NgxMap

/-! Runs of a map refine a finite map.

`specOf` is the finite map that a list of operations stands for, up to the
compare function.

* `reach_finiteMap`: over every run `ngx_map_find` answers as `specOf`, provided
  keys that compare equal have equal hashes.
* `hash_apart`: where they have not, a key that is there is not found. -/

namespace NgxToolkit.NgxMap

open Lib Std

/-- An operation that has been called, with the key it was called on. -/
inductive Op (K : Type) where
  | insert (key : K) (node : Nat) (covered : Bool)
  | delete (key : K)

/-- The finite map after a list of operations, the newest one first. -/
def specOf {K : Type} (cmp : K → K → Ordering) : List (Op K) → K → Option Nat
  | [], _ => none
  | .insert key node covered :: ops, k =>
    if cmp k key = .eq ∧ ¬ ((specOf cmp ops key).isSome ∧ covered = false) then some node
    else specOf cmp ops k
  | .delete key :: ops, k => if cmp k key = .eq then none else specOf cmp ops k

/-- The map and a record of the operations that no step reads. -/
structure World (K : Type) where
  map : Map K
  ops : List (Op K)

inductive Label (K : Type) where
  | insert (node : Nat) (covered : Bool)
  | delete (key : K)
  /-- the owner of a node that is not linked writes its `raw_key` -/
  | setKey (node : Nat) (key : K)

variable {K : Type}

def World.step (core : Rbtree) (hash : K → Nat) (cmp : K → K → Ordering) (w : World K) :
    Label K → Option (World K)
  | .insert node covered =>
    if node ∈ w.map.linked then none
    else (insert core hash cmp w.map node covered).map fun map =>
      ⟨map, .insert (w.map.mem node).rawKey node covered :: w.ops⟩
  | .delete key => some ⟨delete core hash cmp w.map key, .delete key :: w.ops⟩
  | .setKey node key =>
    if node ∈ w.map.linked then none
    else
      let mem := Function.update w.map.mem node { w.map.mem node with rawKey := key }
      some { w with map := { w.map with mem } }

/-- A map after `ngx_map_init`; its nodes live in `mem`. -/
def machine (core : Rbtree) (hash : K → Nat) (cmp : K → K → Ordering) (mem : Nat → MapNode K) :
    Machine (World K) (Label K) where
  start := ⟨⟨.nil, mem, fun _ => false⟩, []⟩
  step := World.step core hash cmp

section
variable {core : Rbtree} {hash : K → Nat} {cmp : K → K → Ordering} {w : World K}

/-- With equal hashes for equal keys, the order of the tree has the equality of `cmp`. -/
theorem keyCmp_eq_eq (hhash : ∀ k k', cmp k k' = .eq → hash k = hash k') (k k' : K) :
    keyCmp hash cmp k k' = .eq ↔ cmp k k' = .eq := by
  show (compare (hash k) (hash k')).then (cmp k k') = .eq ↔ _
  rw [Ordering.then_eq_eq, Nat.compare_eq_eq]
  exact and_iff_right_of_imp (hhash k k')

/-- The map is sorted and answers as the finite map of its operations. -/
def Refines (hash : K → Nat) (cmp : K → K → Ordering) (w : World K) : Prop :=
  Inv hash cmp w.map ∧ ∀ k, find hash cmp w.map k = specOf cmp w.ops k

theorem Refines.step [TransCmp cmp] (hhash : ∀ k k', cmp k k' = .eq → hash k = hash k')
    (hw : Refines hash cmp w) {l : Label K} {w' : World K} (h : w.step core hash cmp l = some w') :
    Refines hash cmp w' := by
  obtain ⟨hm, hspec⟩ := hw
  cases l with
  | insert n covered =>
    simp only [World.step] at h
    split at h
    · cases h
    · next hn =>
      obtain ⟨map', hins, hinv, -, hfind⟩ := hm.insert core hn covered
      rw [hins, Option.map_some, Option.some.injEq] at h
      subst h
      refine ⟨hinv, fun k => ?_⟩
      rw [hfind]
      unfold specOf
      simp only [keyCmp_eq_eq hhash, hspec]
  | delete key =>
    cases h
    refine ⟨(hm.delete core key).1, fun k => ?_⟩
    rw [find_delete hm]
    unfold specOf
    simp only [keyCmp_eq_eq hhash, hspec]
  | setKey n key =>
    simp only [World.step] at h
    split at h
    · cases h
    · next hn =>
      cases h
      exact ⟨hm.write hn _, fun k => (find_write hm hn _ k).trans (hspec k)⟩

end

/-- **The map is a finite map.**  Over every run whose keys that compare equal
have equal hashes, `ngx_map_find` answers as the finite map of the operations
so far; the linked nodes are those found under their keys; and every insertion
of a node that is not linked ends. -/
theorem reach_finiteMap (core : Rbtree) (hash : K → Nat) (cmp : K → K → Ordering) [TransCmp cmp]
    (hhash : ∀ k k', cmp k k' = .eq → hash k = hash k') (mem : Nat → MapNode K) (w : World K)
    (hr : (machine core hash cmp mem).Reach w) :
    (∀ k, find hash cmp w.map k = specOf cmp w.ops k) ∧
    (∀ n, n ∈ w.map.linked ↔ specOf cmp w.ops (w.map.mem n).rawKey = some n) ∧
    ∀ n covered, n ∉ w.map.linked → (insert core hash cmp w.map n covered).isSome := by
  obtain ⟨hm, hspec⟩ : Refines hash cmp w := by
    refine hr.invariant (P := Refines hash cmp) ⟨⟨by simp [machine, Map.linked], ?_⟩, fun _ => rfl⟩
      fun _ _ _ _ hw hst => hw.step hhash hst
    exact List.Pairwise.nil
  refine ⟨hspec, fun n => ?_, fun n covered hn => ?_⟩
  · rw [← hspec]
    exact ⟨find_rawKey hm, fun h => ((find_eq_some hm).mp h).1⟩
  · obtain ⟨map', hins, -⟩ := hm.insert core hn covered
    rw [hins]
    rfl

/-! ## A tree that is never rotated -/

/-- The least node of a tree that is not empty, and the rest. -/
def popMin (a : Nat) : BinaryTree Nat → BinaryTree Nat → Nat × BinaryTree Nat
  | .nil, r => (a, r)
  | .node b l r', r => ((popMin b l r').1, .node a (popMin b l r').2 r)

theorem popMin_inorder (a : Nat) (l r : BinaryTree Nat) :
    (popMin a l r).1 :: inorder (popMin a l r).2 = inorder l ++ a :: inorder r := by
  induction l generalizing a r with
  | nil => rfl
  | node b l r' ihl _ =>
    rw [inorder_node, ← ihl b r']
    simp only [popMin, inorder_node, List.cons_append]

/-- The tree of two subtrees whose root is removed. -/
def join : BinaryTree Nat → BinaryTree Nat → BinaryTree Nat
  | .nil, r => r
  | .node a l r, .nil => .node a l r
  | .node a l r, .node b l' r' => .node (popMin b l' r').1 (.node a l r) (popMin b l' r').2

theorem join_inorder (l r : BinaryTree Nat) : inorder (join l r) = inorder l ++ inorder r := by
  cases l with
  | nil => rfl
  | node a l r1 =>
    cases r with
    | nil => simp [join]
    | node b l' r' =>
      unfold join
      rw [inorder_node, popMin_inorder]
      rfl

def removeNode (n : Nat) : BinaryTree Nat → BinaryTree Nat
  | .nil => .nil
  | .node a l r => if a = n then join (removeNode n l) (removeNode n r)
    else .node a (removeNode n l) (removeNode n r)

theorem removeNode_inorder (n : Nat) (t : BinaryTree Nat) :
    inorder (removeNode n t) = (inorder t).filter (· ≠ n) := by
  induction t with
  | nil => rfl
  | node a l r ihl ihr =>
    rw [inorder_node, List.filter_append, List.filter_cons, ← ihl, ← ihr]
    by_cases h : a = n
    · rw [removeNode, if_pos h, join_inorder, if_neg (by simpa using h)]
    · rw [removeNode, if_neg h, inorder_node, if_pos (by simpa using h)]

/-- What nginx's tree does as long as nothing has to be rotated. -/
def flatRbtree : Rbtree where
  rebalance red t _ := (red, t)
  unlink red t n := (red, removeNode n t)
  inorder_rebalance _ _ _ := rfl
  inorder_unlink _ t n _ _ := removeNode_inorder n t

/-- Nodes 0 to 3 with the keys 4, 2, 5 and 2. -/
def someMem : Nat → MapNode Nat := fun n => ⟨0, [4, 2, 5, 2].getD n 0⟩

/-- Keys 4 and 2 share their hash; node 3 replaces node 1, and node 2 is deleted. -/
theorem reach_finiteMap_replaced : ∃ w : World Nat,
    (machine flatRbtree (· % 2) compare someMem).run
      (machine flatRbtree (· % 2) compare someMem).start
      [.insert 0 false, .insert 1 false, .insert 2 false, .insert 3 true, .delete 5] = some w ∧
    find (· % 2) compare w.map 2 = some 3 ∧ find (· % 2) compare w.map 5 = none := by
  have hr := (machine flatRbtree (· % 2) compare someMem).reach_run
    [.insert 0 false, .insert 1 false, .insert 2 false, .insert 3 true, .delete 5] rfl
  obtain ⟨hfind, -, -⟩ := reach_finiteMap flatRbtree (· % 2) compare
    (fun k k' h => by rw [Nat.compare_eq_eq.mp h]) someMem _ hr
  refine ⟨_, rfl, ?_, ?_⟩
  · rw [hfind]
    rfl
  · rw [hfind]
    rfl

/-- Keys that compare equal and have different hashes: the node inserted under
one is not found under the other. -/
theorem hash_apart : ¬ ∀ (hash : Nat → Nat) (cmp : Nat → Nat → Ordering), TransCmp cmp →
    ∀ (mem : Nat → MapNode Nat) (w : World Nat), (machine flatRbtree hash cmp mem).Reach w →
      ∀ k, find hash cmp w.map k = specOf cmp w.ops k := by
  intro hall
  have hr := (machine flatRbtree id (compareOn (· / 2)) someMem).reach_run [.insert 1 false] rfl
  have := hall id (compareOn (· / 2)) inferInstance someMem _ hr 3
  cases this

end NgxToolkit.NgxMap
