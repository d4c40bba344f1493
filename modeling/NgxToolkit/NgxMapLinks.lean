import NgxToolkit.Lib.TreeLinks
import NgxToolkit.NgxMapAgain
import NgxToolkit.NgxMapWalk

/-! Walks over a map by the links of its nodes (`ngx_map_begin`, `ngx_map_next`,
`ngx_map_rbegin`, `ngx_map_prev`), in every run.

Of the links it is known only that they spell the tree after each call; the
parent of the root may be stale.

* `mapNext_eq_tree`: the loops over links find the next node of the tree.
* `mapPrev_eq`: what holds of the next nodes holds of those before, in the
  mirrored tree.
* `reachIf_walks`: in runs that replace no node by itself, the walks visit the
  nodes of the map in the order of hash and key, and back. -/

namespace NgxToolkit.NgxMap

open Lib Std

variable {K : Type}

/-! ## The functions of the source -/

namespace Links

/-- `ngx_map_begin`; `none` when the fuel runs out. -/
def mapBegin (s : Links Nat) (fuel : Nat) : Option (Option Nat) :=
  match s.root with
  | none => some none
  | some p => (descend s.left fuel p).map some

/-- `ngx_map_rbegin`. -/
def mapRbegin (s : Links Nat) (fuel : Nat) : Option (Option Nat) :=
  match s.root with
  | none => some none
  | some p => (descend s.right fuel p).map some

/-- `ngx_map_next`, where `s` are the links of `n->map`; also `none` if a node
without a parent is followed up. -/
def mapNext (s : Links Nat) (fuel : Nat) (n : Nat) : Option (Option Nat) :=
  match s.right n with
  | some top => (descend s.left fuel top).map some
  | none => climb s.root s.parent s.left fuel n

/-- `ngx_map_prev`. -/
def mapPrev (s : Links Nat) (fuel : Nat) (n : Nat) : Option (Option Nat) :=
  match s.left n with
  | some top => (descend s.right fuel top).map some
  | none => climb s.root s.parent s.right fuel n

/-- The walk from `ngx_map_begin` on with `ngx_map_next`. -/
def walk (s : Links Nat) (fuel : Nat) : Option (List Nat) :=
  (mapBegin s fuel).bind (visit (mapNext s fuel) fuel)

/-- The walk from `ngx_map_rbegin` on with `ngx_map_prev`. -/
def rwalk (s : Links Nat) (fuel : Nat) : Option (List Nat) :=
  (mapRbegin s fuel).bind (visit (mapPrev s fuel) fuel)

/-! ## Walks over the links of one map -/

section
variable {s : Links Nat} {map : Map K} {fuel : Nat}

/-- The loops over links find the next node of the tree. -/
theorem mapNext_eq_tree (h : s.Spells map.root s.root) (hnd : map.linked.Nodup)
    (hf : map.linked.length ≤ fuel) {n : Nat} (hn : n ∈ map.linked) :
    mapNext s fuel n = some (NgxMap.mapNext map n) := by
  obtain ⟨l, r, up, hloc⟩ := locate_mem [] (show n ∈ inorder map.root from hn)
  have hplug : plug (.node n l r) up = map.root := locate_plug hloc
  have hlen := length_plug (.node n l r) up
  have hnd' : (inorder map.root).Nodup := hnd
  have hf' : (inorder map.root).length ≤ fuel := hf
  rw [← hplug] at h hnd' hf'
  obtain ⟨⟨-, -, hr, -, -⟩, hup⟩ := h.place hnd'
  rw [inorder_node, List.length_append, List.length_cons] at hlen
  unfold mapNext NgxMap.mapNext
  rw [hloc]
  cases r with
  | nil =>
    have hno : s.right n = none := hr
    rw [hno]
    exact hup.climb_left (by omega)
  | node top rl rr =>
    obtain ⟨htop, hrl, -⟩ := hr
    rw [inorder_node, List.length_append, List.length_cons] at hlen
    rw [htop]
    show (descend s.left fuel top).map some = _
    rw [hrl.descend_left (by omega)]
    rfl

theorem mapNext_eq (h : s.Spells map.root s.root) (hnd : map.linked.Nodup)
    (hf : map.linked.length ≤ fuel) (xs : List Nat) (n : Nat) (ys : List Nat)
    (hl : map.linked = xs ++ n :: ys) : mapNext s fuel n = some ys.head? := by
  have hn : n ∈ map.linked := by
    rw [hl]
    exact List.mem_append_right _ List.mem_cons_self
  rw [mapNext_eq_tree h hnd hf hn, mapNext_eq_head hnd hl]

theorem mapBegin_eq (h : s.Spells map.root s.root) (hf : map.linked.length ≤ fuel) :
    mapBegin s fuel = some map.linked.head? := by
  have hlen : (inorder map.root).length ≤ fuel := hf
  unfold mapBegin
  rw [← mapBegin_eq_head]
  unfold NgxMap.mapBegin
  cases hroot : map.root with
  | nil =>
    rw [hroot] at h
    have hno : s.root = none := h
    rw [hno]
  | node p l r =>
    rw [hroot] at h hlen
    obtain ⟨hp, hl, -⟩ := h
    rw [inorder_node, List.length_append, List.length_cons] at hlen
    rw [hp]
    show (descend s.left fuel p).map some = _
    rw [hl.descend_left (by omega)]
    rfl

theorem walk_eq (h : s.Spells map.root s.root) (hnd : map.linked.Nodup)
    (hf : map.linked.length ≤ fuel) : walk s fuel = some map.linked := by
  unfold walk
  rw [mapBegin_eq h hf]
  exact visit_eq (mapNext_eq h hnd hf) [] rfl hf

/-- The map whose tree is mirrored. -/
def mirrored (map : Map K) : Map K := { map with root := mirror map.root }

theorem mirrored_linked : (mirrored map).linked = map.linked.reverse := inorder_mirror map.root

theorem mirrored_nodup (hnd : map.linked.Nodup) : (mirrored map).linked.Nodup := by
  rw [mirrored_linked]
  exact List.nodup_reverse.mpr hnd

theorem mirrored_length (hf : map.linked.length ≤ fuel) :
    (mirrored map).linked.length ≤ fuel := by
  rw [mirrored_linked, List.length_reverse]
  exact hf

theorem mapPrev_eq (h : s.Spells map.root s.root) (hnd : map.linked.Nodup)
    (hf : map.linked.length ≤ fuel) (xs : List Nat) (n : Nat) (ys : List Nat)
    (hl : map.linked = xs ++ n :: ys) : mapPrev s fuel n = some xs.getLast? := by
  have hrev : (mirrored map).linked = ys.reverse ++ n :: xs.reverse := by
    rw [mirrored_linked, hl]
    simp
  rw [← List.head?_reverse]
  exact mapNext_eq h.swap (mirrored_nodup hnd) (mirrored_length hf) _ _ _ hrev

theorem mapRbegin_eq (h : s.Spells map.root s.root) (hf : map.linked.length ≤ fuel) :
    mapRbegin s fuel = some map.linked.getLast? := by
  rw [← List.head?_reverse, ← mirrored_linked]
  have hs : s.swap.Spells (mirrored map).root s.swap.root := h.swap
  exact mapBegin_eq hs (mirrored_length hf)

theorem rwalk_eq (h : s.Spells map.root s.root) (hnd : map.linked.Nodup)
    (hf : map.linked.length ≤ fuel) : rwalk s fuel = some map.linked.reverse := by
  rw [← mirrored_linked]
  have hs : s.swap.Spells (mirrored map).root s.swap.root := h.swap
  exact walk_eq hs (mirrored_nodup hnd) (mirrored_length hf)

/-- The node behind and the node before undo each other. -/
theorem mapNext_iff_mapPrev (h : s.Spells map.root s.root) (hnd : map.linked.Nodup)
    (hf : map.linked.length ≤ fuel) {a b : Nat} (ha : a ∈ map.linked) (hb : b ∈ map.linked) :
    mapNext s fuel a = some (some b) ↔ mapPrev s fuel b = some (some a) := by
  constructor
  · intro hab
    obtain ⟨xs, ys, hl⟩ := List.append_of_mem ha
    rw [mapNext_eq h hnd hf xs a ys hl, Option.some.injEq, List.head?_eq_some_iff] at hab
    obtain ⟨ys', rfl⟩ := hab
    rw [mapPrev_eq h hnd hf (xs ++ [a]) b ys' (by rw [hl]; simp), List.getLast?_concat]
  · intro hba
    obtain ⟨xs, ys, hl⟩ := List.append_of_mem hb
    rw [mapPrev_eq h hnd hf xs b ys hl, Option.some.injEq, List.getLast?_eq_some_iff] at hba
    obtain ⟨xs', rfl⟩ := hba
    rw [mapNext_eq h hnd hf xs' a (b :: ys) (by rw [hl]; simp), List.head?_cons]

end

end Links

/-! ## Walks in a run -/

/-- What the walks over a map are to do. -/
structure Walks (hash : K → Nat) (cmp : K → K → Ordering) (map : Map K) (s : Links Nat)
    (fuel : Nat) : Prop where
  once : map.linked.Nodup
  mem : ∀ n, n ∈ map.linked ↔ find hash cmp map (map.mem n).rawKey = some n
  ascending : map.linked.Pairwise fun a b =>
    keyCmp hash cmp (map.mem a).rawKey (map.mem b).rawKey = .lt
  walk : Links.walk s fuel = some map.linked
  rwalk : Links.rwalk s fuel = some map.linked.reverse
  undo : ∀ a ∈ map.linked, ∀ b ∈ map.linked,
    Links.mapNext s fuel a = some (some b) ↔ Links.mapPrev s fuel b = some (some a)

theorem Inv.walks {hash : K → Nat} {cmp : K → K → Ordering} [TransCmp cmp] {map : Map K}
    (hm : Inv hash cmp map) {s : Links Nat} (hs : s.Spells map.root s.root) {fuel : Nat}
    (hf : map.linked.length ≤ fuel) : Walks hash cmp map s fuel where
  once := hm.nodup
  mem _ := ⟨find_rawKey hm, fun h => ((find_eq_some hm).mp h).1⟩
  ascending := hm.sorted
  walk := Links.walk_eq hs hm.nodup hf
  rwalk := Links.rwalk_eq hs hm.nodup hf
  undo _ ha _ hb := Links.mapNext_iff_mapPrev hs hm.nodup hf ha hb

/-- **Walks.**  In every run that replaces no node by itself, the walks over the
links of a map end, visit every node once, in the order of hash and key and back,
and undo each other. -/
theorem reachIf_walks (core : Rbtree) (hash : K → Nat) (cmp : K → K → Ordering) [TransCmp cmp]
    (mem : Nat → MapNode K) (map : Map K)
    (hr : (calls core hash cmp mem).ReachIf (NotItself hash) map) (s : Links Nat)
    (hs : s.Spells map.root s.root) (fuel : Nat) (hf : map.linked.length ≤ fuel) :
    Walks hash cmp map s fuel :=
  (reachIf_inv hr).walks hs hf

/-- The nodes 1, 0 and 2 in this order, where the parent of the root 0 is stale. -/
def someLinks : Links Nat where
  root := some 0
  left := fun n => if n = 0 then some 1 else none
  right := fun n => if n = 0 then some 2 else none
  parent := fun n => if n = 0 then some 3 else some 0

theorem reachIf_walks_some : ∃ map : Map Nat,
    (calls flatRbtree id compare someMem).run (calls flatRbtree id compare someMem).start
      [.insert 0 false, .insert 1 false, .insert 2 true] = some map ∧
    Walks id compare map someLinks 3 := by
  have hmeets : (calls flatRbtree id compare someMem).Meets (NotItself id)
      (calls flatRbtree id compare someMem).start
      [.insert 0 false, .insert 1 false, .insert 2 true] :=
    .cons (fun _ h => by cases h) rfl <| .cons (fun _ h => by cases h) rfl <|
      .cons (fun h => absurd h (by decide)) rfl trivial
  have hr := Machine.ReachIf.of_meets .start hmeets rfl
  refine ⟨_, rfl, reachIf_walks flatRbtree id compare someMem _ hr someLinks ?_ 3 (by decide)⟩
  refine ⟨rfl, ⟨rfl, rfl, rfl, ?_, ?_⟩, ⟨rfl, rfl, rfl, ?_, ?_⟩, ?_, ?_⟩
  · exact fun _ h => by cases h
  · exact fun _ h => by cases h
  · exact fun _ h => by cases h
  · exact fun _ h => by cases h
  · exact fun _ h => by cases h; rfl
  · exact fun _ h => by cases h; rfl

/-- A node that is replaced by itself stands at the front, whatever its key. -/
theorem itself_unsorted : ¬ ∀ (core : Rbtree) (hash : Nat → Nat) (cmp : Nat → Nat → Ordering),
    TransCmp cmp → ∀ (mem : Nat → MapNode Nat) (map : Map Nat),
      (calls core hash cmp mem).Reach map → ∀ s : Links Nat, s.Spells map.root s.root →
        ∀ fuel, map.linked.length ≤ fuel → Walks hash cmp map s fuel := by
  intro hall
  have hr := (calls flatRbtree id compare someMem).reach_run
    [.insert 0 false, .insert 2 false, .insert 2 true] rfl
  have hw := hall flatRbtree id compare inferInstance someMem _ hr
    ⟨some 0, fun n => if n = 0 then some 2 else none, fun _ => none, fun _ => some 0⟩
    ⟨rfl, ⟨rfl, rfl, rfl, fun _ h => (by cases h), fun _ h => (by cases h)⟩, rfl,
      fun _ h => (by cases h; rfl), fun _ h => (by cases h)⟩ 2 (by decide)
  exact absurd (List.pairwise_pair.mp hw.ascending) (by decide)

end NgxToolkit.NgxMap
