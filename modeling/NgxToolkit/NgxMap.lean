import Mathlib.Logic.Function.Basic
import Mathlib.Tactic.Common
import NgxToolkit.Lib.Machine
import NgxToolkit.Lib.SearchTree

/-! The map (`ngx_map.c`): nodes of the user in a red-black tree, ordered by the
hash of the key and, where hashes are equal, by the compare function.

A node is named by a number; `mem` is the memory of all nodes, `root` the tree
of those that are linked.  What nginx core does to the tree, the rebalancing
after an insertion and the removal of a node, is an `Rbtree`.

* `find_eq_some`: on a sorted tree `ngx_map_find` finds the linked node whose
  hash and key compare equal.
* `Inv.insert`, `Inv.delete`: one call keeps the tree sorted and changes what
  is found under the keys that compare equal to its own. -/

namespace NgxToolkit.NgxMap

open Lib Std

/-- The fields `rn.key` and `raw_key` of an `ngx_map_node_t`. -/
structure MapNode (K : Type) where
  key : Nat
  rawKey : K

/-- An `ngx_map_t` with the memory of its nodes and their colours. -/
structure Map (K : Type) where
  root : BinaryTree Nat
  mem : Nat → MapNode K
  red : Nat → Bool

/-- What `ngx_rbtree_insert` does after the node is linked, and how
`ngx_rbtree_delete` unlinks a node: the new colours and the new tree.  Rotations
keep the in-order sequence. -/
structure Rbtree where
  rebalance : (Nat → Bool) → BinaryTree Nat → Nat → (Nat → Bool) × BinaryTree Nat
  unlink : (Nat → Bool) → BinaryTree Nat → Nat → (Nat → Bool) × BinaryTree Nat
  inorder_rebalance : ∀ red t n, inorder (rebalance red t n).2 = inorder t
  inorder_unlink : ∀ red t n, (inorder t).Nodup → n ∈ inorder t →
    inorder (unlink red t n).2 = (inorder t).filter (· ≠ n)

variable {K : Type}

/-- `ngx_map_rbtree_insert_value`; `none` is the return at "key is duplicate". -/
def insertValue (cmp : K → K → Ordering) (mem : Nat → MapNode K) (node : Nat) :
    BinaryTree Nat → Option (BinaryTree Nat)
  | .nil => some (.node node .nil .nil)
  | .node temp l r =>
    if (mem node).key < (mem temp).key then
      (insertValue cmp mem node l).map fun l => .node temp l r
    else if (mem node).key > (mem temp).key then
      (insertValue cmp mem node r).map fun r => .node temp l r
    else
      match cmp (mem node).rawKey (mem temp).rawKey with
      | .lt => (insertValue cmp mem node l).map fun l => .node temp l r
      | .gt => (insertValue cmp mem node r).map fun r => .node temp l r
      | .eq => none

/-- `ngx_rbtree_insert`; `none` if it would rebalance from a node that
`ngx_map_rbtree_insert_value` left unlinked. -/
def rbtreeInsert (core : Rbtree) (cmp : K → K → Ordering) (map : Map K) (node : Nat) :
    Option (Map K) :=
  match map.root with
  | .nil => some { map with
      root := .node node .nil .nil, red := Function.update map.red node false }
  | .node _ _ _ =>
    (insertValue cmp map.mem node map.root).map fun root =>
      let r := core.rebalance (Function.update map.red node true) root node
      { map with root := r.2, red := r.1 }

/-- `ngx_rbtree_delete`, which clears the key of the node. -/
def rbtreeDelete (core : Rbtree) (map : Map K) (node : Nat) : Map K :=
  let r := core.unlink map.red map.root node
  { root := r.2
    mem := Function.update map.mem node { map.mem node with key := 0 }
    red := r.1 }

/-- The loop of `ngx_map_find` from the node `p` on; `k` is the hash of `key`. -/
def findFrom (cmp : K → K → Ordering) (mem : Nat → MapNode K) (k : Nat) (key : K) :
    BinaryTree Nat → Option Nat
  | .nil => none
  | .node p l r =>
    if k < (mem p).key then findFrom cmp mem k key l
    else if k > (mem p).key then findFrom cmp mem k key r
    else
      match cmp key (mem p).rawKey with
      | .lt => findFrom cmp mem k key l
      | .gt => findFrom cmp mem k key r
      | .eq => some p

/-- `ngx_map_find`. -/
def find (hash : K → Nat) (cmp : K → K → Ordering) (map : Map K) (key : K) : Option Nat :=
  findFrom cmp map.mem (hash key) key map.root

/-- `ngx_map_delete`. -/
def delete (core : Rbtree) (hash : K → Nat) (cmp : K → K → Ordering) (map : Map K) (key : K) :
    Map K :=
  match find hash cmp map key with
  | some node => rbtreeDelete core map node
  | none => map

/-- `ngx_map_insert`. -/
def insert (core : Rbtree) (hash : K → Nat) (cmp : K → K → Ordering) (map : Map K) (node : Nat)
    (covered : Bool) : Option (Map K) :=
  let rawKey := (map.mem node).rawKey
  let map := { map with mem := Function.update map.mem node ⟨hash rawKey, rawKey⟩ }
  match find hash cmp map rawKey with
  | none => rbtreeInsert core cmp map node
  | some _ =>
    if covered then rbtreeInsert core cmp (delete core hash cmp map rawKey) node else some map

/-- The linked nodes in the order of the tree. -/
def Map.linked (map : Map K) : List Nat := inorder map.root

/-! ## Sorted maps -/

/-- The order of the tree: by the hash, then by the compare function. -/
def keyCmp (hash : K → Nat) (cmp : K → K → Ordering) : K → K → Ordering :=
  compareLex (compareOn hash) cmp

instance {hash : K → Nat} {cmp : K → K → Ordering} [TransCmp cmp] : TransCmp (keyCmp hash cmp) :=
  inferInstanceAs (TransCmp (compareLex _ _))

/-- Every linked node holds the hash of its key, and the keys ascend. -/
structure Inv (hash : K → Nat) (cmp : K → K → Ordering) (map : Map K) : Prop where
  key : ∀ n ∈ map.linked, (map.mem n).key = hash (map.mem n).rawKey
  sorted : map.linked.Pairwise fun a b =>
    keyCmp hash cmp (map.mem a).rawKey (map.mem b).rawKey = .lt

section
variable {hash : K → Nat} {cmp : K → K → Ordering} {map : Map K}

theorem insertValue_eq_insertAt (mem : Nat → MapNode K) (node : Nat) (t : BinaryTree Nat) :
    insertValue cmp mem node t = insertAt (fun temp =>
      (compare (mem node).key (mem temp).key).then (cmp (mem node).rawKey (mem temp).rawKey))
      node t := by
  induction t with
  | nil => rfl
  | node temp l r ihl ihr =>
    unfold insertValue insertAt
    rw [ihl, ihr]
    rcases Nat.lt_trichotomy (mem node).key (mem temp).key with h | h | h
    · rw [if_pos h, Nat.compare_eq_lt.mpr h]
      rfl
    · rw [if_neg (by omega), if_neg (by omega), Nat.compare_eq_eq.mpr h]
      rfl
    · rw [if_neg (by omega), if_pos h, Nat.compare_eq_gt.mpr h]
      rfl

theorem findFrom_eq_search (mem : Nat → MapNode K) (k : Nat) (key : K) (t : BinaryTree Nat) :
    findFrom cmp mem k key t = search (fun p =>
      (compare k (mem p).key).then (cmp key (mem p).rawKey)) t := by
  induction t with
  | nil => rfl
  | node p l r ihl ihr =>
    unfold findFrom search
    rw [ihl, ihr]
    rcases Nat.lt_trichotomy k (mem p).key with h | h | h
    · rw [if_pos h, Nat.compare_eq_lt.mpr h]
      rfl
    · rw [if_neg (by omega), if_neg (by omega), Nat.compare_eq_eq.mpr h]
      rfl
    · rw [if_neg (by omega), if_pos h, Nat.compare_eq_gt.mpr h]
      rfl

/-- On the nodes of a map that holds their hashes, the descent goes by `keyCmp`. -/
theorem then_eq_keyCmp {mem : Nat → MapNode K} {key : K} {n : Nat}
    (hn : (mem n).key = hash (mem n).rawKey) :
    (compare (hash key) (mem n).key).then (cmp key (mem n).rawKey) =
      keyCmp hash cmp key (mem n).rawKey := by
  rw [hn]
  rfl

theorem Inv.cut [TransCmp cmp] (hm : Inv hash cmp map) (key : K) :
    Cut (fun n => (compare (hash key) (map.mem n).key).then (cmp key (map.mem n).rawKey))
      (inorder map.root) := by
  refine hm.sorted.imp_of_mem fun {a b} ha hb hab => ?_
  show (compare (hash key) (map.mem a).key).then (cmp key (map.mem a).rawKey) ≠ .gt →
    (compare (hash key) (map.mem b).key).then (cmp key (map.mem b).rawKey) = .lt
  rw [then_eq_keyCmp (hm.key a ha), then_eq_keyCmp (hm.key b hb)]
  intro hgt
  have hle : (keyCmp hash cmp key (map.mem a).rawKey).isLE = true := by
    cases h : keyCmp hash cmp key (map.mem a).rawKey with
    | lt => rfl
    | eq => rfl
    | gt => exact absurd h hgt
  exact TransCmp.lt_of_isLE_of_lt hle hab

/-- `ngx_map_find` finds the linked node whose hash and key compare equal. -/
theorem find_eq_some [TransCmp cmp] (hm : Inv hash cmp map) {key : K} {n : Nat} :
    find hash cmp map key = some n ↔
      n ∈ map.linked ∧ keyCmp hash cmp key (map.mem n).rawKey = .eq := by
  unfold find
  rw [findFrom_eq_search, search_eq_some (hm.cut key)]
  refine and_congr_right fun hn => ?_
  rw [then_eq_keyCmp (hm.key n hn)]

theorem Inv.nodup [TransCmp cmp] (hm : Inv hash cmp map) : map.linked.Nodup := by
  refine hm.sorted.imp fun {a b} hab he => ?_
  subst he
  have hself : keyCmp hash cmp (map.mem a).rawKey (map.mem a).rawKey = .eq := ReflCmp.compare_self
  rw [hself] at hab
  cases hab

/-- Keys that compare equal are found alike. -/
theorem find_congr [TransCmp cmp] (hm : Inv hash cmp map) {k k' : K}
    (h : keyCmp hash cmp k' k = .eq) : find hash cmp map k' = find hash cmp map k := by
  refine Option.ext fun n => ?_
  rw [find_eq_some hm, find_eq_some hm, TransCmp.congr_left h]

/-- A linked node is the one found under its key. -/
theorem find_rawKey [TransCmp cmp] (hm : Inv hash cmp map) {n : Nat} (hn : n ∈ map.linked) :
    find hash cmp map (map.mem n).rawKey = some n :=
  (find_eq_some hm).mpr ⟨hn, ReflCmp.compare_self⟩

theorem Inv.rbtreeDelete [TransCmp cmp] (hm : Inv hash cmp map) (core : Rbtree) {n : Nat}
    (hn : n ∈ map.linked) :
    Inv hash cmp (rbtreeDelete core map n) ∧
      (∀ a, a ∈ (rbtreeDelete core map n).linked ↔ a ∈ map.linked ∧ a ≠ n) ∧
      ∀ a, ((rbtreeDelete core map n).mem a).rawKey = (map.mem a).rawKey := by
  have hlinked : (NgxMap.rbtreeDelete core map n).linked = map.linked.filter (· ≠ n) :=
    core.inorder_unlink map.red map.root n hm.nodup hn
  have hmem : ∀ a, a ∈ (NgxMap.rbtreeDelete core map n).linked ↔ a ∈ map.linked ∧ a ≠ n := by
    intro a
    rw [hlinked, List.mem_filter, decide_eq_true_eq]
  have hraw : ∀ a, ((NgxMap.rbtreeDelete core map n).mem a).rawKey = (map.mem a).rawKey := by
    intro a
    by_cases ha : a = n
    · subst ha
      simp [NgxMap.rbtreeDelete]
    · simp [NgxMap.rbtreeDelete, ha]
  refine ⟨⟨fun a ha => ?_, ?_⟩, hmem, hraw⟩
  · obtain ⟨ha, hne⟩ := (hmem a).mp ha
    have hsame : (NgxMap.rbtreeDelete core map n).mem a = map.mem a := by
      simp [NgxMap.rbtreeDelete, hne]
    rw [hsame]
    exact hm.key a ha
  · simp only [hraw]
    rw [hlinked]
    exact hm.sorted.filter _

/-- A node with the hash of a key that no linked node has is linked at its place. -/
theorem Inv.rbtreeInsert [TransCmp cmp] (hm : Inv hash cmp map) (core : Rbtree) {n : Nat}
    (hkey : (map.mem n).key = hash (map.mem n).rawKey)
    (hnew : ∀ a ∈ map.linked, keyCmp hash cmp (map.mem n).rawKey (map.mem a).rawKey ≠ .eq) :
    ∃ map', rbtreeInsert core cmp map n = some map' ∧ map'.mem = map.mem ∧ Inv hash cmp map' ∧
      ∀ a, a ∈ map'.linked ↔ a = n ∨ a ∈ map.linked := by
  have hcut := hm.cut (map.mem n).rawKey
  have hne : ∀ a ∈ inorder map.root, (compare (hash (map.mem n).rawKey) (map.mem a).key).then
      (cmp (map.mem n).rawKey (map.mem a).rawKey) ≠ .eq := by
    intro a ha
    rw [then_eq_keyCmp (hm.key a ha)]
    exact hnew a ha
  obtain ⟨t', l₁, l₂, ht, hsplit, ht', h1, h2⟩ := insertAt_spec (b := n) hcut hne
  -- whatever the shape, the new in-order sequence is `l₁ ++ n :: l₂`
  have hres : ∃ map', NgxMap.rbtreeInsert core cmp map n = some map' ∧ map'.mem = map.mem ∧
      map'.linked = l₁ ++ n :: l₂ := by
    unfold NgxMap.rbtreeInsert
    rw [insertValue_eq_insertAt, hkey, ht]
    cases hroot : map.root with
    | nil =>
      rw [hroot, inorder_nil, eq_comm, List.append_eq_nil_iff] at hsplit
      exact ⟨_, rfl, rfl, by rw [hsplit.1, hsplit.2]; rfl⟩
    | node a l r =>
      exact ⟨_, rfl, rfl, (core.inorder_rebalance _ _ _).trans ht'⟩
  obtain ⟨map', hins, hmem, hlinked⟩ := hres
  have hin : ∀ a, a ∈ map'.linked ↔ a = n ∨ a ∈ map.linked := by
    intro a
    have hold : map.linked = l₁ ++ l₂ := hsplit
    rw [hlinked, hold, List.mem_append, List.mem_append, List.mem_cons]
    exact or_left_comm
  refine ⟨map', hins, hmem, ⟨fun a ha => ?_, ?_⟩, hin⟩
  · rw [hmem]
    rcases (hin a).mp ha with rfl | ha
    · exact hkey
    · exact hm.key a ha
  · have hs := hm.sorted
    have hold : map.linked = l₁ ++ l₂ := hsplit
    rw [hold, List.pairwise_append] at hs
    rw [hlinked, hmem, List.pairwise_append, List.pairwise_cons]
    have hlt : ∀ a ∈ l₂, keyCmp hash cmp (map.mem n).rawKey (map.mem a).rawKey = .lt := by
      intro a ha
      have := h2 a ha
      rwa [then_eq_keyCmp (hm.key a (hold ▸ List.mem_append_right _ ha))] at this
    have hgt : ∀ a ∈ l₁, keyCmp hash cmp (map.mem a).rawKey (map.mem n).rawKey = .lt := by
      intro a ha
      have := h1 a ha
      rw [then_eq_keyCmp (hm.key a (hold ▸ List.mem_append_left _ ha))] at this
      exact OrientedCmp.lt_of_gt this
    refine ⟨hs.1, ⟨hlt, hs.2.1⟩, fun a ha b hb => ?_⟩
    rcases List.mem_cons.mp hb with rfl | hb
    · exact hgt a ha
    · exact hs.2.2 a ha b hb

/-- `ngx_map_delete` takes away the node of the key, if any, and nothing else. -/
theorem Inv.delete [TransCmp cmp] (hm : Inv hash cmp map) (core : Rbtree) (k : K) :
    Inv hash cmp (delete core hash cmp map k) ∧
      (∀ a, a ∈ (delete core hash cmp map k).linked ↔
        a ∈ map.linked ∧ keyCmp hash cmp k (map.mem a).rawKey ≠ .eq) ∧
      ∀ a, ((delete core hash cmp map k).mem a).rawKey = (map.mem a).rawKey := by
  unfold NgxMap.delete
  cases hf : find hash cmp map k with
  | none =>
    refine ⟨hm, fun a => ⟨fun ha => ⟨ha, fun he => ?_⟩, fun ha => ha.1⟩, fun _ => rfl⟩
    rw [(find_eq_some hm).mpr ⟨ha, he⟩] at hf
    cases hf
  | some n =>
    obtain ⟨hn, he⟩ := (find_eq_some hm).mp hf
    obtain ⟨hinv, hmem, hraw⟩ := hm.rbtreeDelete core hn
    refine ⟨hinv, fun a => ?_, hraw⟩
    rw [hmem]
    refine and_congr_right fun ha => not_congr ⟨fun h => h ▸ he, fun h => ?_⟩
    have := (find_eq_some hm).mpr ⟨ha, h⟩
    rw [hf, Option.some.injEq] at this
    exact this.symm

theorem find_delete [TransCmp cmp] (hm : Inv hash cmp map) (core : Rbtree) (k k' : K) :
    find hash cmp (delete core hash cmp map k) k' =
      if keyCmp hash cmp k' k = .eq then none else find hash cmp map k' := by
  obtain ⟨hinv, hmem, hraw⟩ := hm.delete core k
  refine Option.ext fun n => ?_
  rw [find_eq_some hinv, hmem, hraw]
  by_cases h : keyCmp hash cmp k' k = .eq
  · rw [if_pos h, TransCmp.congr_left h]
    simp only [reduceCtorEq, iff_false]
    exact fun hn => hn.1.2 hn.2
  · rw [if_neg h, find_eq_some hm]
    refine ⟨fun hn => ⟨hn.1.1, hn.2⟩, fun hn => ⟨⟨hn.1, fun he => h ?_⟩, hn.2⟩⟩
    rw [TransCmp.congr_left hn.2]
    exact OrientedCmp.eq_symm he

/-- The node that is found leaves the linked nodes. -/
theorem Inv.delete_perm [TransCmp cmp] (hm : Inv hash cmp map) (core : Rbtree) {k : K} {n : Nat}
    (hf : find hash cmp map k = some n) :
    map.linked.Perm (n :: (NgxMap.delete core hash cmp map k).linked) := by
  obtain ⟨hn, -⟩ := (find_eq_some hm).mp hf
  have hlinked : (NgxMap.delete core hash cmp map k).linked = map.linked.filter (· ≠ n) := by
    unfold NgxMap.delete
    rw [hf]
    exact core.inorder_unlink map.red map.root n hm.nodup hn
  have herase : map.linked.erase n = map.linked.filter (· ≠ n) :=
    (hm.nodup.erase_eq_filter n).trans (List.filter_congr fun a _ => Bool.eq_iff_iff.mpr (by simp))
  rw [hlinked, ← herase]
  exact List.perm_cons_erase hn

/-- `ngx_map_delete` writes linked nodes only. -/
theorem delete_mem [TransCmp cmp] (hm : Inv hash cmp map) {n : Nat} (hn : n ∉ map.linked)
    (core : Rbtree) (k : K) :
    (delete core hash cmp map k).mem n = map.mem n := by
  unfold NgxMap.delete
  cases hf : find hash cmp map k with
  | none => rfl
  | some m =>
    have hne : n ≠ m := fun e => hn (e ▸ ((find_eq_some hm).mp hf).1)
    exact Function.update_of_ne hne _ _

/-- Writing a node that is not linked leaves the map. -/
theorem Inv.write (hm : Inv hash cmp map) {n : Nat} (hn : n ∉ map.linked) (x : MapNode K) :
    Inv hash cmp { map with mem := Function.update map.mem n x } := by
  have hsame : ∀ a ∈ map.linked, Function.update map.mem n x a = map.mem a := fun a ha =>
    Function.update_of_ne (fun e : a = n => hn (e ▸ ha)) _ _
  refine ⟨fun a ha => ?_, hm.sorted.imp_of_mem fun {a b} ha hb hab => ?_⟩
  · simp only [hsame a ha]
    exact hm.key a ha
  · simp only [hsame a ha, hsame b hb]
    exact hab

theorem find_write [TransCmp cmp] (hm : Inv hash cmp map) {n : Nat} (hn : n ∉ map.linked)
    (x : MapNode K) (k : K) :
    find hash cmp { map with mem := Function.update map.mem n x } k = find hash cmp map k := by
  refine Option.ext fun a => ?_
  rw [find_eq_some (hm.write hn x), find_eq_some hm]
  refine and_congr_right fun ha => ?_
  have hne : a ≠ n := fun e => hn (e ▸ ha)
  simp only [Function.update_of_ne hne]

/-- A node that was linked is found under its key, and the rest as before. -/
theorem find_linked [TransCmp cmp] {map' : Map K} {n : Nat} (hm : Inv hash cmp map)
    (hm' : Inv hash cmp map') (hmem : map'.mem = map.mem)
    (hin : ∀ a, a ∈ map'.linked ↔ a = n ∨ a ∈ map.linked) (k : K) :
    find hash cmp map' k =
      if keyCmp hash cmp k (map.mem n).rawKey = .eq then some n else find hash cmp map k := by
  refine Option.ext fun a => ?_
  rw [find_eq_some hm', hin, hmem]
  by_cases h : keyCmp hash cmp k (map.mem n).rawKey = .eq
  · rw [if_pos h, Option.some.injEq]
    refine ⟨fun ⟨_, he⟩ => ?_, fun e => ⟨.inl e.symm, e ▸ h⟩⟩
    have h1 : find hash cmp map' k = some n :=
      (find_eq_some hm').mpr ⟨(hin n).mpr (.inl rfl), by rwa [hmem]⟩
    have h2 : find hash cmp map' k = some a :=
      (find_eq_some hm').mpr ⟨(hin a).mpr ‹_›, by rwa [hmem]⟩
    rw [h1, Option.some.injEq] at h2
    exact h2
  · rw [if_neg h, find_eq_some hm]
    refine ⟨fun ⟨ha, he⟩ => ⟨ha.resolve_left fun e => h (e ▸ he), he⟩, fun ⟨ha, he⟩ => ⟨.inr ha, he⟩⟩

/-- **Insertion.**  `ngx_map_insert` of a node that is not linked ends, keeps
the tree sorted and the keys of all nodes; unless its key is there and
`covered` is 0, the node is what is found under its key, and nothing else
changes. -/
theorem Inv.insert [TransCmp cmp] (hm : Inv hash cmp map) (core : Rbtree) {n : Nat}
    (hn : n ∉ map.linked) (covered : Bool) :
    ∃ map', insert core hash cmp map n covered = some map' ∧ Inv hash cmp map' ∧
      (∀ a, (map'.mem a).rawKey = (map.mem a).rawKey) ∧
      ∀ k, find hash cmp map' k =
        if keyCmp hash cmp k (map.mem n).rawKey = .eq ∧
          ¬ ((find hash cmp map (map.mem n).rawKey).isSome ∧ covered = false)
        then some n else find hash cmp map k := by
  unfold NgxMap.insert
  obtain ⟨x, hx⟩ : ∃ x, x = (⟨hash (map.mem n).rawKey, (map.mem n).rawKey⟩ : MapNode K) := ⟨_, rfl⟩
  have hm1 := hm.write hn x
  have hfind := find_write hm hn x
  have hself : Function.update map.mem n x n = x := Function.update_self _ _ _
  have hraw : ∀ a, (Function.update map.mem n x a).rawKey = (map.mem a).rawKey := by
    intro a
    by_cases ha : a = n
    · rw [ha, hself, hx]
    · rw [Function.update_of_ne ha]
  obtain ⟨map1, hmap1⟩ : ∃ map1, map1 = { map with mem := Function.update map.mem n x } := ⟨_, rfl⟩
  rw [← hmap1] at hm1 hfind
  have hn1 : n ∉ map1.linked := by rw [hmap1]; exact hn
  have hx1 : map1.mem n = x := by rw [hmap1]; exact hself
  have hraw1 : ∀ a, (map1.mem a).rawKey = (map.mem a).rawKey := by rw [hmap1]; exact hraw
  have hrawx : x.rawKey = (map.mem n).rawKey := by rw [hx]
  have hkeyx : x.key = hash x.rawKey := by rw [hx]
  simp only [← hx, ← hmap1]
  cases hf : find hash cmp map1 (map.mem n).rawKey with
  | none =>
    obtain ⟨map', hins, hmem, hinv, hin⟩ :=
      hm1.rbtreeInsert core (n := n) (by rw [hx1]; exact hkeyx) (fun a ha he => by
        rw [hx1, hrawx] at he
        rw [(find_eq_some hm1).mpr ⟨ha, he⟩] at hf
        cases hf)
    refine ⟨map', hins, hinv, fun a => by rw [hmem, hraw1], fun k => ?_⟩
    rw [find_linked hm1 hinv hmem hin, hfind, hx1, hrawx, ← hfind (map.mem n).rawKey, hf]
    simp
  | some m =>
    cases covered with
    | false =>
      refine ⟨map1, rfl, hm1, hraw1, fun k => ?_⟩
      rw [hfind, ← hfind (map.mem n).rawKey, hf]
      simp
    | true =>
      obtain ⟨hinv2, hmem2, hraw2⟩ := hm1.delete core (map.mem n).rawKey
      have hx2 := (delete_mem hm1 hn1 core (map.mem n).rawKey).trans hx1
      obtain ⟨map', hins, hmem, hinv, hin⟩ :=
        hinv2.rbtreeInsert core (n := n) (by rw [hx2]; exact hkeyx) (fun a ha => by
          rw [hx2, hrawx, hraw2]
          exact ((hmem2 a).mp ha).2)
      refine ⟨map', hins, hinv, fun a => by rw [hmem, hraw2, hraw1], fun k => ?_⟩
      rw [find_linked hinv2 hinv hmem hin, hx2, hrawx, find_delete hm1, hfind]
      by_cases he : keyCmp hash cmp k (map.mem n).rawKey = .eq
      · simp [he]
      · simp [he]

/-- The node of a key that is not there joins the linked nodes. -/
theorem Inv.insert_perm [TransCmp cmp] (hm : Inv hash cmp map) (core : Rbtree) {n : Nat}
    (hn : n ∉ map.linked) (hf : find hash cmp map (map.mem n).rawKey = none) (covered : Bool) :
    ∃ map', NgxMap.insert core hash cmp map n covered = some map' ∧ Inv hash cmp map' ∧
      (∀ a, (map'.mem a).rawKey = (map.mem a).rawKey) ∧ map'.linked.Perm (n :: map.linked) := by
  obtain ⟨map', hins, hinv, hraw, hfind⟩ := hm.insert core hn covered
  refine ⟨map', hins, hinv, hraw, (List.perm_ext_iff_of_nodup hinv.nodup
    (List.nodup_cons.mpr ⟨hn, hm.nodup⟩)).mpr fun a => ?_⟩
  have hnew : ¬ ((find hash cmp map (map.mem n).rawKey).isSome ∧ covered = false) := by
    rw [hf]
    exact fun h => absurd h.1 (by decide)
  have hlink : a ∈ map'.linked ↔ find hash cmp map' (map.mem a).rawKey = some a := by
    rw [← hraw]
    exact ⟨find_rawKey hinv, fun h => ((find_eq_some hinv).mp h).1⟩
  rw [hlink, hfind, List.mem_cons]
  by_cases he : keyCmp hash cmp (map.mem a).rawKey (map.mem n).rawKey = .eq
  · rw [if_pos ⟨he, hnew⟩, Option.some.injEq]
    refine ⟨fun h => .inl h.symm, fun h => ?_⟩
    rcases h with h | h
    · exact h.symm
    · have hno := find_congr hm he
      rw [find_rawKey hm h, hf] at hno
      cases hno
  · rw [if_neg fun h => he h.1]
    refine ⟨fun h => .inr ((find_eq_some hm).mp h).1, fun h => ?_⟩
    rcases h with rfl | h
    · exact absurd ReflCmp.compare_self he
    · exact find_rawKey hm h

end

/-! ## Maps of numbers -/

section
variable {hash : Nat → Nat}

theorem keyCmp_eq (k k' : Nat) : keyCmp hash compare k k' = .eq ↔ k = k' := by
  show (compare (hash k) (hash k')).then (compare k k') = .eq ↔ _
  rw [Ordering.then_eq_eq, Nat.compare_eq_eq, Nat.compare_eq_eq]
  exact and_iff_right_of_imp fun h => by rw [h]

/-- A key that is not there is inserted with a node that is not linked. -/
theorem insert_new (core : Rbtree) {map : Map Nat} (hm : Inv hash compare map) {n k : Nat}
    (hn : n ∉ map.linked) (hk : find hash compare map k = none)
    (x : MapNode Nat) (hx : x.rawKey = k) :
    ∃ map', insert core hash compare { map with mem := Function.update map.mem n x } n false =
        some map' ∧ Inv hash compare map' ∧
      ∀ j, find hash compare map' j =
        if j = k then some n else find hash compare map j := by
  obtain ⟨map', hins, hinv, -, hfind⟩ := (hm.write hn x).insert core (n := n) hn false
  refine ⟨map', hins, hinv, fun j => ?_⟩
  rw [hfind]
  simp only [Function.update_self, hx, keyCmp_eq, find_write hm hn, hk, Option.isSome_none,
    Bool.false_eq_true, not_false_eq_true, and_true]

end

end NgxToolkit.NgxMap
