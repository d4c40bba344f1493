import NgxToolkit.Lib.TreeWalk
import NgxToolkit.NgxMapAgain

/-! Where the descents of `ngx_map_find` and `ngx_map_rbtree_insert_value` end.

A sentinel of the tree is given by the way up from it: `plug .nil up` is the tree,
and `plug (.node n .nil .nil) up` is the tree with the node `n` linked there.

* `insertStop_eq`: the two descents for one key end alike, in every tree.
* `insertValue_plug`: the node is linked where the descent ends.
* `reachIf_descends`: in runs that replace no node by itself, an insertion never
  finds its key on the way down. -/

namespace NgxToolkit.NgxMap

open Lib Std

variable {K : Type}

/-- The sentinel at which the loop of `ngx_map_find` ends; `none` if it returns a node. -/
def findStop (cmp : K → K → Ordering) (mem : Nat → MapNode K) (k : Nat) (key : K) :
    BinaryTree Nat → List (Parent Nat) → Option (List (Parent Nat))
  | .nil, up => some up
  | .node p l r, up =>
    if k < (mem p).key then findStop cmp mem k key l (.left p r :: up)
    else if k > (mem p).key then findStop cmp mem k key r (.right p l :: up)
    else
      match cmp key (mem p).rawKey with
      | .lt => findStop cmp mem k key l (.left p r :: up)
      | .gt => findStop cmp mem k key r (.right p l :: up)
      | .eq => none

/-- The sentinel at which the loop of `ngx_map_rbtree_insert_value` ends; `none` if it
returns at "key is duplicate". -/
def insertStop (cmp : K → K → Ordering) (mem : Nat → MapNode K) (node : Nat) :
    BinaryTree Nat → List (Parent Nat) → Option (List (Parent Nat))
  | .nil, up => some up
  | .node temp l r, up =>
    if (mem node).key < (mem temp).key then insertStop cmp mem node l (.left temp r :: up)
    else if (mem node).key > (mem temp).key then insertStop cmp mem node r (.right temp l :: up)
    else
      match cmp (mem node).rawKey (mem temp).rawKey with
      | .lt => insertStop cmp mem node l (.left temp r :: up)
      | .gt => insertStop cmp mem node r (.right temp l :: up)
      | .eq => none

/-- The map for which `ngx_map_insert` calls `ngx_rbtree_insert`, if it does. -/
def handed (core : Rbtree) (hash : K → Nat) (cmp : K → K → Ordering) (map : Map K) (node : Nat)
    (covered : Bool) : Option (Map K) :=
  let rawKey := (map.mem node).rawKey
  let map := { map with mem := Function.update map.mem node ⟨hash rawKey, rawKey⟩ }
  match find hash cmp map rawKey with
  | none => some map
  | some _ => if covered then some (delete core hash cmp map rawKey) else none

/-- The key of the node is not found in the map, both descents end at one sentinel, and
`ngx_rbtree_insert` links the node there before it rebalances. -/
structure Descends (core : Rbtree) (hash : K → Nat) (cmp : K → K → Ordering) (map : Map K)
    (node : Nat) : Prop where
  failed : find hash cmp map (map.mem node).rawKey = none
  stop : ∃ up, plug .nil up = map.root ∧
    findStop cmp map.mem (hash (map.mem node).rawKey) (map.mem node).rawKey map.root [] =
      some up ∧
    insertStop cmp map.mem node map.root [] = some up ∧
    insertValue cmp map.mem node map.root = some (plug (.node node .nil .nil) up)
  inserted : (rbtreeInsert core cmp map node).isSome

section
variable {core : Rbtree} {hash : K → Nat} {cmp : K → K → Ordering} {map : Map K}
  {mem : Nat → MapNode K}

/-- **One way down.**  Whatever the tree is, both descents go the same way. -/
theorem insertStop_eq (node : Nat) (t : BinaryTree Nat) (up : List (Parent Nat)) :
    insertStop cmp mem node t up = findStop cmp mem (mem node).key (mem node).rawKey t up := by
  induction t generalizing up with
  | nil => rfl
  | node p l r ihl ihr =>
    unfold insertStop findStop
    rw [ihl, ihr]

/-- A search that finds no node ends at a sentinel of the tree. -/
theorem findStop_of_none {k : Nat} {key : K} {t : BinaryTree Nat} (up : List (Parent Nat))
    (h : findFrom cmp mem k key t = none) :
    ∃ up', findStop cmp mem k key t up = some up' ∧ plug .nil up' = plug t up := by
  induction t generalizing up with
  | nil => exact ⟨up, rfl, rfl⟩
  | node p l r ihl ihr =>
    unfold findFrom at h
    unfold findStop
    by_cases hlt : k < (mem p).key
    · rw [if_pos hlt] at h ⊢
      exact ihl (.left p r :: up) h
    rw [if_neg hlt] at h ⊢
    by_cases hgt : k > (mem p).key
    · rw [if_pos hgt] at h ⊢
      exact ihr (.right p l :: up) h
    rw [if_neg hgt] at h ⊢
    cases hcmp : cmp key (mem p).rawKey with
    | lt =>
      rw [hcmp] at h
      exact ihl (.left p r :: up) h
    | gt =>
      rw [hcmp] at h
      exact ihr (.right p l :: up) h
    | eq =>
      rw [hcmp] at h
      cases h

/-- The node is linked at the sentinel where the descent ends. -/
theorem insertValue_plug (cmp : K → K → Ordering) (mem : Nat → MapNode K) (node : Nat)
    (t : BinaryTree Nat) (up : List (Parent Nat)) :
    (insertValue cmp mem node t).map (plug · up) =
      (insertStop cmp mem node t up).map (plug (.node node .nil .nil)) := by
  induction t generalizing up with
  | nil => rfl
  | node temp l r ihl ihr =>
    have hl : ((insertValue cmp mem node l).map fun l => BinaryTree.node temp l r).map (plug · up) =
        (insertStop cmp mem node l (.left temp r :: up)).map (plug (.node node .nil .nil)) := by
      rw [← ihl, Option.map_map]
      rfl
    have hr : ((insertValue cmp mem node r).map fun r => BinaryTree.node temp l r).map (plug · up) =
        (insertStop cmp mem node r (.right temp l :: up)).map (plug (.node node .nil .nil)) := by
      rw [← ihr, Option.map_map]
      rfl
    unfold insertValue insertStop
    by_cases hlt : (mem node).key < (mem temp).key
    · rw [if_pos hlt, if_pos hlt]
      exact hl
    rw [if_neg hlt, if_neg hlt]
    by_cases hgt : (mem node).key > (mem temp).key
    · rw [if_pos hgt, if_pos hgt]
      exact hr
    rw [if_neg hgt, if_neg hgt]
    cases cmp (mem node).rawKey (mem temp).rawKey with
    | lt => exact hl
    | gt => exact hr
    | eq => rfl

/-- A node that holds its hash, and whose key is not in the tree, is linked. -/
theorem Descends.of_none {n : Nat} (hkey : (map.mem n).key = hash (map.mem n).rawKey)
    (hf : find hash cmp map (map.mem n).rawKey = none) : Descends core hash cmp map n := by
  obtain ⟨up, hstop, hplug⟩ := findStop_of_none [] hf
  have hins : insertStop cmp map.mem n map.root [] = some up := by
    rw [insertStop_eq, hkey]
    exact hstop
  have hvalue : insertValue cmp map.mem n map.root = some (plug (.node n .nil .nil) up) := by
    have hmap := insertValue_plug cmp map.mem n map.root []
    rw [hins] at hmap
    exact Option.map_id'.symm.trans hmap
  refine ⟨hf, ⟨up, hplug, hstop, hins, hvalue⟩, ?_⟩
  unfold rbtreeInsert
  cases hroot : map.root with
  | nil => rfl
  | node p l r =>
    rw [hroot] at hvalue
    dsimp only
    rw [hvalue]
    rfl

theorem insert_eq_handed {n : Nat} {covered : Bool} {map' : Map K}
    (h : handed core hash cmp map n covered = some map') :
    insert core hash cmp map n covered = rbtreeInsert core cmp map' n := by
  unfold handed at h
  unfold insert
  dsimp only at h ⊢
  generalize hf : find hash cmp _ (map.mem n).rawKey = found at h ⊢
  cases found with
  | none =>
    cases h
    rfl
  | some p =>
    cases covered with
    | false => cases h
    | true =>
      cases h
      rfl

/-- What an insertion of a node that is not linked gives to `ngx_rbtree_insert`. -/
theorem Inv.descends [TransCmp cmp] (hm : Inv hash cmp map) {n : Nat} (hn : n ∉ map.linked)
    {covered : Bool} {map' : Map K} (h : handed core hash cmp map n covered = some map') :
    Descends core hash cmp map' n := by
  obtain ⟨x, hx⟩ : ∃ x, x = (⟨hash (map.mem n).rawKey, (map.mem n).rawKey⟩ : MapNode K) := ⟨_, rfl⟩
  obtain ⟨map1, hmap1⟩ : ∃ map1, map1 = { map with mem := Function.update map.mem n x } := ⟨_, rfl⟩
  have hm1 : Inv hash cmp map1 := hmap1 ▸ hm.write hn x
  have hn1 : n ∉ map1.linked := hmap1 ▸ hn
  have hx1 : map1.mem n = x := by
    rw [hmap1]
    exact Function.update_self _ _ _
  unfold handed at h
  simp only [← hx, ← hmap1] at h
  split at h
  · next hf =>
    cases h
    refine .of_none ?_ ?_
    · rw [hx1, hx]
    · rw [hx1, hx]
      exact hf
  · split at h
    · cases h
      -- after the deletion the key is not in the tree, whatever shape it has now
      have hx2 := (delete_mem hm1 hn1 core (map.mem n).rawKey).trans hx1
      refine .of_none ?_ ?_
      · rw [hx2, hx]
      · rw [hx2, hx, find_delete hm1, if_pos ReflCmp.compare_self]
    · cases h

end

/-- **No duplicate on the way down.**  In a run that has replaced no node by itself,
every insertion of a node that is not linked ends, with or without `covered`, and if
`ngx_rbtree_insert` is called, both descents end at one sentinel of its tree. -/
theorem reachIf_descends (core : Rbtree) (hash : K → Nat) (cmp : K → K → Ordering)
    [TransCmp cmp] (mem : Nat → MapNode K) (map : Map K)
    (hr : (calls core hash cmp mem).ReachIf (NotItself hash) map) (n : Nat)
    (hn : n ∉ map.linked) (covered : Bool) :
    (insert core hash cmp map n covered).isSome ∧
    ∀ map', handed core hash cmp map n covered = some map' →
      insert core hash cmp map n covered = rbtreeInsert core cmp map' n ∧
      Descends core hash cmp map' n := by
  have hm := reachIf_inv hr
  constructor
  · obtain ⟨map', hins, -⟩ := hm.insert core hn covered
    rw [hins]
    rfl
  · intro map' h
    exact ⟨insert_eq_handed h, hm.descends hn h⟩

/-- Node 3 replaces node 1, which has its key and its hash. -/
theorem reachIf_descends_replaced : ∃ map map' : Map Nat,
    (calls flatRbtree (· % 2) compare someMem).run
      (calls flatRbtree (· % 2) compare someMem).start
      [.insert 0 false, .insert 1 false, .insert 2 false] = some map ∧
    handed flatRbtree (· % 2) compare map 3 true = some map' ∧ map'.linked = [0, 2] ∧
    Descends flatRbtree (· % 2) compare map' 3 := by
  have hmeets : (calls flatRbtree (· % 2) compare someMem).Meets (NotItself (· % 2))
      (calls flatRbtree (· % 2) compare someMem).start
      [.insert 0 false, .insert 1 false, .insert 2 false] :=
    .cons (fun _ h => by cases h) rfl <| .cons (fun _ h => by cases h) rfl <|
      .cons (fun _ h => by cases h) rfl trivial
  have hr := Machine.ReachIf.of_meets .start hmeets rfl
  obtain ⟨-, hhanded⟩ :=
    reachIf_descends flatRbtree (· % 2) compare someMem _ hr 3 (by decide) true
  exact ⟨_, _, rfl, rfl, rfl, (hhanded _ rfl).2⟩

/-- A node is replaced by itself and loses its hash, another one with its key is
inserted, and an insertion of the first one writes its hash back: two linked nodes have
the key, and after the deletion of one the descent of a new node meets the other. -/
theorem duplicate_met : ¬ ∀ (core : Rbtree) (hash : Nat → Nat) (cmp : Nat → Nat → Ordering),
    TransCmp cmp → ∀ (mem : Nat → MapNode Nat) (map : Map Nat),
      (calls core hash cmp mem).Reach map → ∀ n, n ∉ map.linked → ∀ covered,
        (insert core hash cmp map n covered).isSome ∧
        ∀ map', handed core hash cmp map n covered = some map' →
          insert core hash cmp map n covered = rbtreeInsert core cmp map' n ∧
          Descends core hash cmp map' n := by
  intro hall
  have hr := (calls flatRbtree (· + 1) compare someMem).reach_run
    [.insert 4 false, .insert 4 true, .insert 5 false, .insert 4 false] rfl
  have h := hall flatRbtree (· + 1) compare inferInstance someMem _ hr 6 (by decide) true
  exact absurd h.1 (by decide)

end NgxToolkit.NgxMap
