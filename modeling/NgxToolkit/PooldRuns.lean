import Mathlib.Tactic.Common
import NgxToolkit.Poold

/-! Runs of the record of pools.

`Nodes` ties the map, the free list and the pools that are alive together; each
call keeps it, unless a creation fails. -/

namespace NgxToolkit.Poold

open Lib

/-! ## The invariant -/

def Tracker.next (d : Tracker) (n : Nat) : Option Nat := (d.node n).next

structure Nodes (hash : Nat → Nat) (d : Tracker) : Prop where
  sorted : NgxMap.Inv hash compare d.map
  rawKey : ∀ n ∈ d.map.linked, (d.map.mem n).rawKey = (d.node n).pool
  live : (d.map.linked.map fun n => (d.node n).created).Perm d.live
  nonnull : ∀ c ∈ d.live, c.pool ≠ 0
  free : FreeNodes d.next d.freeNode d.nalloc d.nfree d.map.linked
  /-- before the first creation there is nothing -/
  off : d.pool = false → d.map.root = .nil ∧ d.freeNode = none ∧ d.nalloc = 0 ∧ d.nfree = 0

section
variable {core : NgxMap.Rbtree} {hash : Nat → Nat} {d d' : Tracker}

theorem Nodes.find_iff (h : Nodes hash d) {p n : Nat} :
    NgxMap.find hash compare d.map p = some n ↔ n ∈ d.map.linked ∧ (d.node n).pool = p := by
  rw [NgxMap.find_eq_some h.sorted, NgxMap.keyCmp_eq]
  refine and_congr_right fun hn => ?_
  rw [h.rawKey n hn]
  exact eq_comm

theorem Nodes.mem_live (h : Nodes hash d) {c : Created} :
    c ∈ d.live ↔ ∃ n ∈ d.map.linked, (d.node n).created = c := by
  rw [← h.live.mem_iff, List.mem_map]

/-- The keys of the map are the pools that are alive. -/
theorem Nodes.keys (h : Nodes hash d) (p : Nat) :
    (NgxMap.find hash compare d.map p).isSome ↔ p ∈ d.live.map Created.pool := by
  rw [Option.isSome_iff_exists, List.mem_map]
  constructor
  · rintro ⟨n, hf⟩
    obtain ⟨hn, hp⟩ := h.find_iff.mp hf
    exact ⟨(d.node n).created, h.mem_live.mpr ⟨n, hn, rfl⟩, hp⟩
  · rintro ⟨c, hc, rfl⟩
    obtain ⟨n, hn, rfl⟩ := h.mem_live.mp hc
    exact ⟨n, h.find_iff.mpr ⟨hn, rfl⟩⟩

theorem Nodes.tracks (h : Nodes hash d) : Tracks hash d := by
  have hcount := h.free.count
  refine ⟨h.keys, ?_, fun c hc => ?_, ⟨hcount.1, ?_⟩, fun fuel hf detail => ?_⟩
  · have hkeys : d.map.linked.map (fun n => (d.map.mem n).rawKey) =
        (d.map.linked.map fun n => (d.node n).created).map Created.pool := by
      rw [List.map_map]
      exact List.map_congr_left fun n hn => h.rawKey n hn
    rw [hkeys]
    exact h.live.map _
  · obtain ⟨n, hn, rfl⟩ := h.mem_live.mp hc
    exact ⟨n, h.find_iff.mpr ⟨hn, rfl⟩, rfl⟩
  · rw [hcount.2, ← h.live.length_eq, List.length_map]
  · obtain ⟨b, hb, hlines, hfit, -⟩ := debugState_spec _ _ _ h.sorted.nodup
      (n := d.nalloc - d.nfree) (by omega) hf detail
    exact ⟨b, hb, hlines, hfit⟩

/-! ## Calls -/

/-- After the first call the module is initialised. -/
theorem Nodes.init (h : Nodes hash d) :
    Nodes hash (if d.pool then d else pooldInit d) ∧
      (if d.pool then d else pooldInit d).pool = true ∧
      (if d.pool then d else pooldInit d).map = d.map ∧
      (if d.pool then d else pooldInit d).live = d.live := by
  by_cases hp : d.pool = true
  · rw [if_pos hp]
    exact ⟨h, hp, rfl, rfl⟩
  · rw [if_neg hp]
    simp only [Bool.not_eq_true] at hp
    obtain ⟨hroot, hfree, hnalloc, hnfree⟩ := h.off hp
    have heq : pooldInit d = { d with pool := true } := by
      unfold pooldInit
      rw [hfree, hnalloc, hnfree, ← hroot]
    rw [heq]
    exact ⟨⟨h.sorted, h.rawKey, h.live, h.nonnull, h.free, fun hf => (by cases hf)⟩, rfl, rfl, rfl⟩

theorem getNode_eq (d : Tracker) {n nalloc nfree : Nat} {freeNode : Option Nat}
    (ht : takeNode d.next d.freeNode d.nalloc d.nfree = (n, freeNode, nalloc, nfree)) :
    getNode d = (n, { d.zero n with freeNode, nalloc, nfree }) := by
  unfold takeNode at ht
  unfold getNode
  cases hf : d.freeNode with
  | none =>
    have hzero : (d.zero d.nalloc).freeNode = none := hf
    rw [hf] at ht
    cases ht
    exact congrArg (fun freeNode => (d.nalloc,
      { d.zero d.nalloc with freeNode, nalloc := d.nalloc + 1, nfree := d.nfree })) hzero
  | some n =>
    rw [hf] at ht
    cases ht
    rfl

theorem next_node (d : Tracker) (n : Nat) (x : Node) :
    (fun m => (Function.update d.node n x m).next) = Function.update d.next n x.next :=
  Function.comp_update Node.next d.node n x

/-- A node is linked for a new pool. -/
theorem Nodes.link (h : Nodes hash d) (hpool : d.pool = true) {n nalloc nfree : Nat}
    {freeNode : Option Nat} {map : NgxMap.Map Nat} {x : Node}
    (hfree : FreeNodes (Function.update d.next n none) freeNode nalloc nfree (n :: d.map.linked))
    (hn : n ∉ d.map.linked) (hsorted : NgxMap.Inv hash compare map)
    (hraw : ∀ m, (map.mem m).rawKey = (Function.update d.map.mem n ⟨0, x.pool⟩ m).rawKey)
    (hperm : map.linked.Perm (n :: d.map.linked)) (h0 : x.pool ≠ 0) (hx : x.next = none) :
    Nodes hash { d with
      freeNode, nalloc, nfree, map
      node := Function.update d.node n x
      live := x.created :: d.live } := by
  -- the other nodes stay as they are
  have hother : ∀ m ∈ d.map.linked, Function.update d.node n x m = d.node m := fun m hm =>
    Function.update_of_ne (fun e : m = n => hn (e ▸ hm)) _ _
  refine ⟨hsorted, fun m hm => ?_, ?_, fun c hc => ?_, ?_,
    fun hf => absurd (hpool.symm.trans hf) (by decide)⟩
  · show _ = (Function.update d.node n x m).pool
    rw [hraw]
    rcases List.mem_cons.mp (hperm.mem_iff.mp hm) with rfl | hm
    · rw [Function.update_self, Function.update_self]
    · rw [hother m hm, Function.update_of_ne fun e : m = n => hn (e ▸ hm)]
      exact h.rawKey m hm
  · show (map.linked.map fun m => (Function.update d.node n x m).created).Perm
      (x.created :: d.live)
    have hrest : (d.map.linked.map fun m => (Function.update d.node n x m).created) =
        d.map.linked.map fun m => (d.node m).created :=
      List.map_congr_left fun m hm => by rw [hother m hm]
    refine (hperm.map _).trans ?_
    rw [List.map_cons, hrest, Function.update_self]
    exact h.live.cons _
  · rcases List.mem_cons.mp hc with rfl | hc
    · exact h0
    · exact h.nonnull c hc
  · show FreeNodes (fun m => (Function.update d.node n x m).next) freeNode nalloc nfree map.linked
    rw [next_node, hx]
    exact hfree.perm hperm

variable (core) in
/-- `ngx_create_pool_debug` links a node for what `ngx_create_pool` has returned. -/
theorem Nodes.create (h : Nodes hash d) {p : Nat} (hp : p ∉ d.live.map Created.pool) (file : String)
    (line : Nat) :
    ∃ d', createPoolDebug core hash d p file line = some (p, d') ∧
      d'.live = (if p = 0 then d.live else ⟨p, file, line⟩ :: d.live) ∧
      (∃ n, NgxMap.find hash compare d'.map p = some n) ∧ (p ≠ 0 → Nodes hash d') := by
  obtain ⟨h1, hpool, hmap1, hlive1⟩ := h.init
  obtain ⟨d1, hd1⟩ : ∃ d1, d1 = if d.pool then d else pooldInit d := ⟨_, rfl⟩
  rw [← hd1] at h1 hpool hmap1 hlive1
  obtain ⟨⟨n, freeNode, nalloc, nfree⟩, ht⟩ : ∃ t,
      takeNode d1.next d1.freeNode d1.nalloc d1.nfree = t := ⟨_, rfl⟩
  obtain ⟨hfree, hn⟩ := h1.free.take ht
  have hget := getNode_eq d1 ht
  have hnone : NgxMap.find hash compare d1.map p = none := by
    rw [← Option.not_isSome_iff_eq_none, h1.keys, hlive1]
    exact hp
  have hkey : (Function.update d1.map.mem n ⟨0, p⟩ n).rawKey = p := by
    rw [Function.update_self]
  have hnone' : NgxMap.find hash compare
      { d1.map with mem := Function.update d1.map.mem n ⟨0, p⟩ }
      (Function.update d1.map.mem n ⟨0, p⟩ n).rawKey = none := by
    rw [hkey, NgxMap.find_write h1.sorted hn]
    exact hnone
  obtain ⟨map, hins, hsorted, hraw, hperm⟩ :=
    (h1.sorted.write hn ⟨0, p⟩).insert_perm core hn hnone' false
  obtain ⟨x, hx⟩ : ∃ x : Node, x = { zeroNode with pool := p, file, line } := ⟨_, rfl⟩
  have hzero : (d1.zero n).node n = zeroNode := Function.update_self _ _ _
  have hnode : Function.update (d1.zero n).node n x = Function.update d1.node n x :=
    Function.update_idem _ _ _
  have hins' : NgxMap.insert core hash compare
      { d1.map with mem := Function.update d1.map.mem n ⟨0, p⟩ } n false = some map := hins
  refine ⟨{ d1 with
    freeNode, nalloc, nfree, map
    node := Function.update d1.node n x
    live := if p = 0 then d.live else ⟨p, file, line⟩ :: d.live }, ?_, rfl, ⟨n, ?_⟩, fun h0 => ?_⟩
  · have hzmap : (d1.zero n).map = d1.map := rfl
    have hzlive : (d1.zero n).live = d.live := hlive1
    have hpx : (Function.update d1.node n x n).pool = p := by
      rw [Function.update_self, hx]
    unfold createPoolDebug
    simp only [← hd1, hget, hzero, ← hx, hzmap, hzlive, hins', Option.map_some, hnode, hpx]
    rfl
  · refine (NgxMap.find_eq_some hsorted).mpr ⟨hperm.mem_iff.mpr List.mem_cons_self, ?_⟩
    rw [NgxMap.keyCmp_eq, hraw]
    exact hkey.symm
  · have hlink := h1.link hpool hfree hn hsorted (x := x) (by rw [hx]; exact hraw)
      hperm (by rw [hx]; exact h0) (by rw [hx]; rfl)
    rw [if_neg h0, ← hlive1]
    rw [hx] at hlink ⊢
    exact hlink

variable (core) in
/-- `ngx_destroy_pool_debug`. -/
theorem Nodes.destroy (h : Nodes hash d) (p : Nat) :
    ∃ d', destroyPoolDebug core hash d p = some d' ∧ Nodes hash d' := by
  unfold destroyPoolDebug
  cases hf : NgxMap.find hash compare d.map p with
  | none => exact ⟨d, rfl, h⟩
  | some n =>
    obtain ⟨hn, hp⟩ := h.find_iff.mp hf
    have h0 : p ≠ 0 := by
      rw [← hp]
      exact h.nonnull _ (h.mem_live.mpr ⟨n, hn, rfl⟩)
    have hpool : d.pool = true := by
      by_contra hoff
      simp only [Bool.not_eq_true] at hoff
      have hlt := h.free.lt hn
      rw [(h.off hoff).2.2.1] at hlt
      exact Nat.not_lt_zero n hlt
    obtain ⟨hsorted, hmem, hraw⟩ := h.sorted.delete core p
    have hperm := h.sorted.delete_perm core hf
    have hnot := (List.nodup_cons.mp (hperm.nodup_iff.mp h.sorted.nodup)).1
    have hsub : ∀ m ∈ (NgxMap.delete core hash compare d.map p).linked, m ∈ d.map.linked ∧ m ≠ n :=
      fun m hm => ⟨((hmem m).mp hm).1, fun e => hnot (e ▸ hm)⟩
    obtain ⟨x, hx⟩ : ∃ x : Node, x = { d.node n with next := d.freeNode } := ⟨_, rfl⟩
    have hsame : ∀ m ∈ (NgxMap.delete core hash compare d.map p).linked,
        Function.update d.node n x m = d.node m := fun m hm =>
      Function.update_of_ne (hsub m hm).2 _ _
    simp only [if_neg h0, putNode, hpool, ← hx]
    rw [if_neg (by decide)]
    refine ⟨_, rfl, hsorted, fun m hm => ?_, ?_, fun c hc => ?_, ?_, fun hoff => (by cases hoff)⟩
    · show _ = (Function.update d.node n x m).pool
      rw [hsame m hm, hraw]
      exact h.rawKey m (hsub m hm).1
    · -- the pools of the other nodes are not `p`
      have hrest : ((NgxMap.delete core hash compare d.map p).linked.map fun m =>
          (Function.update d.node n x m).created) =
          (NgxMap.delete core hash compare d.map p).linked.map fun m => (d.node m).created :=
        List.map_congr_left fun m hm => by rw [hsame m hm]
      have hlive := (hperm.map fun m => (d.node m).created).symm.trans h.live
      have hfilter := (hlive.filter fun c => decide (c.pool ≠ p)).symm
      rw [List.map_cons, List.filter_cons_of_neg (by simp [Node.created, hp])] at hfilter
      refine (List.Perm.of_eq hrest).trans (List.Perm.trans (List.Perm.of_eq ?_) hfilter.symm)
      refine (List.filter_eq_self.mpr fun c hc => ?_).symm
      obtain ⟨m, hm, rfl⟩ := List.mem_map.mp hc
      refine decide_eq_true fun he => (hsub m hm).2 ?_
      have hfm := h.find_iff.mpr ⟨(hsub m hm).1, he⟩
      rw [hf, Option.some.injEq] at hfm
      exact hfm.symm
    · exact h.nonnull c (List.mem_of_mem_filter hc)
    · show FreeNodes (fun m => (Function.update d.node n x m).next) (some n) d.nalloc (d.nfree + 1) _
      rw [next_node, hx]
      exact FreeNodes.put (h.free.perm hperm.symm)

end

/-! ## Runs -/

section
variable {core : NgxMap.Rbtree} {hash : Nat → Nat} {d d' : Tracker}

theorem Nodes.step (h : Nodes hash d) {i : Label} (hok : Succeeds d i)
    (hst : d.step core hash i = some d') : Nodes hash d' := by
  cases i with
  | create p file line =>
    unfold Tracker.step at hst
    dsimp only at hst
    split at hst
    · cases hst
    · next hp =>
      obtain ⟨d1, hcreate, -, -, h1⟩ := h.create core hp file line
      rw [hcreate] at hst
      cases hst
      exact h1 hok
  | destroy p =>
    obtain ⟨d1, hdestroy, h1⟩ := h.destroy core p
    obtain rfl : d1 = d' := Option.some.inj (hdestroy.symm.trans hst)
    exact h1

/-- A creation that fails leaves a node for `NULL` in the map. -/
theorem Nodes.fail (h : Nodes hash d) {i : Label} (hok : ¬ Succeeds d i)
    (hst : d.step core hash i = some d') : ¬ Tracks hash d' := by
  cases i with
  | create p file line =>
    have h0 : p = 0 := not_not.mp hok
    subst h0
    have hp : 0 ∉ d.live.map Created.pool := fun hm => by
      obtain ⟨c, hc, he⟩ := List.mem_map.mp hm
      exact h.nonnull c hc he
    obtain ⟨d1, hcreate, hlive, ⟨n, hf⟩, -⟩ := h.create core hp file line
    unfold Tracker.step at hst
    dsimp only at hst
    rw [if_neg hp, hcreate] at hst
    cases hst
    intro ht
    have hin := (ht.keys 0).mp (by rw [hf]; rfl)
    rw [hlive, if_pos rfl] at hin
    exact hp hin
  | destroy p => exact absurd trivial hok

end

theorem nodes_start (core : NgxMap.Rbtree) (hash : Nat → Nat) :
    Nodes hash (poold core hash).start where
  sorted := ⟨fun _ h => (by cases h), List.Pairwise.nil⟩
  rawKey _ h := by cases h
  live := .refl _
  nonnull _ h := by cases h
  free := FreeNodes.empty _
  off _ := ⟨rfl, rfl, rfl, rfl⟩

/-- **Pools that are alive.**  In every run in which no creation fails, the map finds
the pools that are alive, each with the place of its own creation, and the counters
tell how many there are; and this holds after a step if and only if its creation
does not fail. -/
theorem reachIf_tracks (core : NgxMap.Rbtree) (hash : Nat → Nat) (d : Tracker)
    (hr : (poold core hash).ReachIf Succeeds d) :
    Tracks hash d ∧
      ∀ i d', (poold core hash).step d i = some d' → (Succeeds d i ↔ Tracks hash d') := by
  have h : Nodes hash d := hr.invariant (P := Nodes hash) (nodes_start core hash)
    fun _ _ _ _ h hok hst => h.step hok hst
  refine ⟨h.tracks, fun i d' hst => ⟨fun hok => (h.step hok hst).tracks, fun ht => ?_⟩⟩
  by_contra hok
  exact h.fail hok hst ht

/-- The address of a pool that was destroyed, once too often, is used again. -/
theorem reachIf_tracks_again : ∃ d : Tracker,
    (poold NgxMap.flatRbtree id).run (poold NgxMap.flatRbtree id).start
      [.create 8 "a.c" 1, .create 4 "b.c" 2, .destroy 8, .destroy 8, .create 8 "c.c" 3] = some d ∧
    d.live = [⟨8, "c.c", 3⟩, ⟨4, "b.c", 2⟩] ∧ Tracks id d := by
  have hok : (poold NgxMap.flatRbtree id).Meets Succeeds (poold NgxMap.flatRbtree id).start
      [.create 8 "a.c" 1, .create 4 "b.c" 2, .destroy 8, .destroy 8, .create 8 "c.c" 3] :=
    Machine.Meets.of_forall (fun i hi t => by
      simp only [List.mem_cons, List.not_mem_nil, or_false] at hi
      rcases hi with rfl | rfl | rfl | rfl | rfl <;> simp [Succeeds]) _
  exact ⟨_, rfl, rfl, (reachIf_tracks _ _ _ (Machine.ReachIf.start.of_meets hok rfl)).1⟩

/-- Two creations that fail: the map has the key `NULL`, the counters tell of two
pools, and one node is neither in the map nor free. -/
theorem create_fails : ∃ d : Tracker,
    (poold NgxMap.flatRbtree id).run (poold NgxMap.flatRbtree id).start
      [.create 0 "a.c" 1, .create 0 "b.c" 2] = some d ∧
    d.live = [] ∧ NgxMap.find id compare d.map 0 = some 0 ∧ d.map.linked = [0] ∧
    d.freeNode = none ∧ d.nalloc - d.nfree = 2 ∧ ¬ Tracks id d :=
  ⟨_, rfl, rfl, rfl, rfl, rfl, rfl, fun ht => (by cases (ht.keys 0).mp rfl)⟩

end NgxToolkit.Poold
