import NgxToolkit.NgxMapRuns

/-! Runs of a map in which a node that is linked may be inserted once more.

`ngx_map_insert` with `covered` replaces the node it finds.  When that is the
inserted node itself, `ngx_rbtree_delete` has cleared the hash that was written
before, and the node is linked again with the hash 0.

* `insert_linked`: harmless without `covered`, and where 0 is the hash.
* `reachIf_inv`: runs without the other case keep the map sorted.
* `reachIf_insert_again`: the finite map stays if and only if the hash is 0. -/

namespace NgxToolkit.NgxMap

open Lib Std

variable {K : Type}

/-- A call, also of `ngx_map_insert` on a node that is linked; the owner writes
the key of nodes that are not. -/
def Map.step (core : Rbtree) (hash : K → Nat) (cmp : K → K → Ordering) (map : Map K) :
    Label K → Option (Map K)
  | .insert node covered => insert core hash cmp map node covered
  | .delete key => some (delete core hash cmp map key)
  | .setKey node key =>
    if node ∈ map.linked then none
    else
      let mem := Function.update map.mem node { map.mem node with rawKey := key }
      some { map with mem }

/-- A map after `ngx_map_init`; its nodes live in `mem`. -/
def calls (core : Rbtree) (hash : K → Nat) (cmp : K → K → Ordering) (mem : Nat → MapNode K) :
    Machine (Map K) (Label K) where
  start := ⟨.nil, mem, fun _ => false⟩
  step := Map.step core hash cmp

/-- The call does not replace a node by itself, unless the hash of its key is 0. -/
def NotItself (hash : K → Nat) (map : Map K) : Label K → Prop
  | .insert node covered => node ∈ map.linked → covered = true → hash (map.mem node).rawKey = 0
  | .delete _ => True
  | .setKey _ _ => True

/-- The map answers as before, and finds the node under its key. -/
structure Unchanged (hash : K → Nat) (cmp : K → K → Ordering) (map map' : Map K) (n : Nat) :
    Prop where
  inv : Inv hash cmp map'
  found : find hash cmp map' (map.mem n).rawKey = some n
  same : ∀ k, find hash cmp map' k = find hash cmp map k

section
variable {core : Rbtree} {hash : K → Nat} {cmp : K → K → Ordering} {map : Map K}

/-- A linked node holds its hash already. -/
theorem update_hash (hm : Inv hash cmp map) {n : Nat} (hn : n ∈ map.linked) :
    Function.update map.mem n ⟨hash (map.mem n).rawKey, (map.mem n).rawKey⟩ = map.mem := by
  have hsame : (⟨hash (map.mem n).rawKey, (map.mem n).rawKey⟩ : MapNode K) = map.mem n := by
    rw [← hm.key n hn]
  rw [hsame, Function.update_eq_self]

/-- What `ngx_map_insert` does with a node that is linked. -/
theorem insert_linked_eq [TransCmp cmp] (hm : Inv hash cmp map) {n : Nat}
    (hn : n ∈ map.linked) (covered : Bool) :
    insert core hash cmp map n covered =
      if covered then rbtreeInsert core cmp (rbtreeDelete core map n) n else some map := by
  have hf := find_rawKey hm hn
  unfold NgxMap.insert
  simp only [update_hash hm hn, hf]
  unfold delete
  rw [hf]

theorem insert_linked [TransCmp cmp] (hm : Inv hash cmp map) {n : Nat} (hn : n ∈ map.linked)
    {covered : Bool} (h0 : covered = true → hash (map.mem n).rawKey = 0) :
    ∃ map', insert core hash cmp map n covered = some map' ∧ Unchanged hash cmp map map' n := by
  have hf := find_rawKey hm hn
  rw [insert_linked_eq hm hn]
  cases covered with
  | false => exact ⟨map, rfl, hm, hf, fun _ => rfl⟩
  | true =>
    obtain ⟨hinv, hmem, hraw⟩ := hm.rbtreeDelete core hn
    have hkey : ((rbtreeDelete core map n).mem n).key = 0 :=
      congrArg MapNode.key (Function.update_self n _ map.mem)
    have hraw' := h0 rfl
    rw [← hraw] at hraw'
    obtain ⟨map', hins, hmem', hinv', hin⟩ :=
      hinv.rbtreeInsert core (hkey.trans hraw'.symm) fun a ha he => by
        obtain ⟨ha, hne⟩ := (hmem a).mp ha
        rw [hraw, hraw] at he
        apply hne
        have hfa := (find_eq_some hm).mpr ⟨ha, he⟩
        rw [hf, Option.some.injEq] at hfa
        exact hfa.symm
    have hfind : ∀ k, find hash cmp map' k = find hash cmp map k := by
      intro k
      have hdel : find hash cmp (rbtreeDelete core map n) k =
          if keyCmp hash cmp k (map.mem n).rawKey = .eq then none else find hash cmp map k := by
        rw [← find_delete hm core]
        unfold delete
        rw [hf]
      rw [find_linked hinv hinv' hmem' hin, hraw, hdel]
      by_cases he : keyCmp hash cmp k (map.mem n).rawKey = .eq
      · rw [if_pos he, find_congr hm he, hf]
      · rw [if_neg he, if_neg he]
    exact ⟨map', hins, hinv', (hfind _).trans hf, hfind⟩

/-- `ngx_map_find` returns only nodes that hold the hash of the key. -/
theorem findFrom_key {mem : Nat → MapNode K} {k : Nat} {key : K} {t : BinaryTree Nat} {p : Nat}
    (h : findFrom cmp mem k key t = some p) : (mem p).key = k := by
  induction t with
  | nil => cases h
  | node a l r ihl ihr =>
    unfold findFrom at h
    split at h
    · exact ihl h
    · split at h
      · exact ihr h
      · split at h
        · exact ihl h
        · exact ihr h
        · rw [Option.some.injEq] at h
          subst h
          omega

theorem rbtreeInsert_mem {n : Nat} {map' : Map K} (h : rbtreeInsert core cmp map n = some map') :
    map'.mem = map.mem := by
  unfold rbtreeInsert at h
  split at h
  · rw [Option.some.injEq] at h
    rw [← h]
  · obtain ⟨root, -, h⟩ := Option.map_eq_some_iff.mp h
    rw [← h]

/-- A node that is replaced by itself is not found again, unless its hash is 0. -/
theorem insert_itself [TransCmp cmp] (hm : Inv hash cmp map) {n : Nat} (hn : n ∈ map.linked)
    {map' : Map K} (h : insert core hash cmp map n true = some map')
    (hf : find hash cmp map' (map.mem n).rawKey = some n) : hash (map.mem n).rawKey = 0 := by
  rw [insert_linked_eq hm hn, if_pos rfl] at h
  have hkey : (map'.mem n).key = 0 := by
    rw [rbtreeInsert_mem h]
    exact congrArg MapNode.key (Function.update_self n _ map.mem)
  rw [← findFrom_key hf, hkey]

/-- One call that does not replace a node by itself keeps the map sorted. -/
theorem Inv.step [TransCmp cmp] (hm : Inv hash cmp map) {l : Label K} {map' : Map K}
    (hok : NotItself hash map l) (h : map.step core hash cmp l = some map') :
    Inv hash cmp map' := by
  cases l with
  | insert n covered =>
    have hins : NgxMap.insert core hash cmp map n covered = some map' := h
    by_cases hn : n ∈ map.linked
    · obtain ⟨map'', hins', hun⟩ : ∃ map'', NgxMap.insert core hash cmp map n covered = some map'' ∧
          Unchanged hash cmp map map'' n := insert_linked hm hn (hok hn)
      rw [hins, Option.some.injEq] at hins'
      rw [hins']
      exact hun.inv
    · obtain ⟨map'', hins', hinv, -⟩ := hm.insert core hn covered
      rw [hins, Option.some.injEq] at hins'
      rw [hins']
      exact hinv
  | delete key =>
    cases h
    exact (hm.delete core key).1
  | setKey n key =>
    simp only [Map.step] at h
    split at h
    · cases h
    · next hn =>
      cases h
      exact hm.write hn _

theorem reachIf_inv [TransCmp cmp] {mem : Nat → MapNode K}
    (hr : (calls core hash cmp mem).ReachIf (NotItself hash) map) : Inv hash cmp map := by
  refine hr.invariant (P := Inv hash cmp) ⟨?_, List.Pairwise.nil⟩ fun _ _ _ _ hm hok hst =>
    hm.step hok hst
  intro n hn
  cases hn

end

/-- **Insertion of a linked node.**  In a run that has replaced no node by
itself, `ngx_map_insert` of a linked node with `covered` leaves the finite map if
and only if the hash of the node's key is 0. -/
theorem reachIf_insert_again (core : Rbtree) (hash : K → Nat) (cmp : K → K → Ordering)
    [TransCmp cmp] (mem : Nat → MapNode K) (map : Map K)
    (hr : (calls core hash cmp mem).ReachIf (NotItself hash) map) (n : Nat)
    (hn : n ∈ map.linked) :
    (∃ map', insert core hash cmp map n true = some map' ∧ Unchanged hash cmp map map' n) ↔
      hash (map.mem n).rawKey = 0 := by
  have hm := reachIf_inv hr
  constructor
  · rintro ⟨map', hins, hun⟩
    exact insert_itself hm hn hins hun.found
  · intro h0
    exact insert_linked hm hn fun _ => h0

/-- The keys 4 and 2 have the hash 0, the key 5 the hash 1. -/
theorem reachIf_insert_again_some : ∃ map : Map Nat,
    (calls flatRbtree (· % 2) compare someMem).run
      (calls flatRbtree (· % 2) compare someMem).start
      [.insert 0 false, .insert 1 false, .insert 2 false, .insert 1 true] = some map ∧
    (∃ map', insert flatRbtree (· % 2) compare map 0 true = some map' ∧
      Unchanged (· % 2) compare map map' 0) ∧
    ¬ ∃ map', insert flatRbtree (· % 2) compare map 2 true = some map' ∧
      Unchanged (· % 2) compare map map' 2 := by
  have hmeets : (calls flatRbtree (· % 2) compare someMem).Meets (NotItself (· % 2))
      (calls flatRbtree (· % 2) compare someMem).start
      [.insert 0 false, .insert 1 false, .insert 2 false, .insert 1 true] :=
    .cons (fun _ h => by cases h) rfl <| .cons (fun _ h => by cases h) rfl <|
      .cons (fun _ h => by cases h) rfl <| .cons (fun _ _ => rfl) rfl trivial
  have hr := Machine.ReachIf.of_meets .start hmeets rfl
  refine ⟨_, rfl, ?_, ?_⟩
  · exact (reachIf_insert_again flatRbtree (· % 2) compare someMem _ hr 0 (by decide)).mpr rfl
  · intro h
    have h0 := (reachIf_insert_again flatRbtree (· % 2) compare someMem _ hr 2 (by decide)).mp h
    cases h0

/-- A node is inserted under the key 4 and once more: it is not found. -/
theorem insert_again_lost : ¬ ∀ (core : Rbtree) (hash : Nat → Nat) (cmp : Nat → Nat → Ordering),
    TransCmp cmp → ∀ (mem : Nat → MapNode Nat) (map : Map Nat),
      (calls core hash cmp mem).Reach map → ∀ n ∈ map.linked,
        ∃ map', insert core hash cmp map n true = some map' ∧ Unchanged hash cmp map map' n := by
  intro hall
  have hr := (calls flatRbtree id compare someMem).reach_run [.insert 0 false] rfl
  obtain ⟨map', hins, hun⟩ := hall flatRbtree id compare inferInstance someMem _ hr 0 (by decide)
  cases hins
  exact absurd hun.found (by decide)

end NgxToolkit.NgxMap
