import Mathlib
import NgxToolkit.Lib.Chains
import NgxToolkit.Lib.Machine
import NgxToolkit.NgxMapRuns

/-! Recycled chain buffers (`ngx_rbuf.c`, debug build).

Chains and the nodes of the size map are named by numbers in the order of their
allocation; a chain is its own key in the map `using`.  The buffer of a chain
and the place of the call are left out, `size` is kept.

`World` adds to the module's state which `ngx_get_chainbuf` call handed out
which chain and whether its caller still holds it; no step of the module reads
that record.

* `Inv.get`, `Inv.put`: the two calls keep the invariant, `put` on a chain that
  its caller holds.
* `reach_recycled`: the free lists and counters of every run that meets `PutOnce`. -/

namespace NgxToolkit.Rbuf

open Lib

/-- The static variables of the module with the heap of its chains and nodes. -/
structure State where
  /-- `ngx_rbuf_pool != NULL` -/
  pool : Bool
  rbufMap : NgxMap.Map Nat
  /-- `cn->free` -/
  free : Nat → Option Nat
  nallocNode : Nat
  nallocChain : Nat
  nfreeChain : Nat
  used : NgxMap.Map Nat
  /-- `cl->next` -/
  next : Nat → Option Nat
  /-- `cb->size` -/
  size : Nat → Nat

/-- `ngx_rbuf_init`; `false` is `NGX_ERROR`, which it returns if `ngx_create_pool` fails. -/
def rbufInit (s : State) (createPool : Bool) : Bool × State :=
  if createPool then
    (true, { s with
      pool := true
      rbufMap := { s.rbufMap with root := .nil }
      nallocNode := 0
      nallocChain := 0
      nfreeChain := 0
      used := { s.used with root := .nil } })
  else (false, { s with pool := false })

/-- The module is initialised by its first get, which does not look at what `ngx_rbuf_init`
returns. -/
def initialised (s : State) (createPool : Bool) : State :=
  if s.pool then s else (rbufInit s createPool).2

section
variable (core : NgxMap.Rbtree) (hash : Nat → Nat)

/-- The node of `size`, which is made if there is none; no node if
`ngx_pcalloc` fails. -/
def getNode (s : State) (size : Nat) (pcalloc : Bool) : Option (Option Nat × State) :=
  match NgxMap.find hash compare s.rbufMap size with
  | some cn => some (some cn, s)
  | none =>
    if pcalloc then
      let cn := s.nallocNode
      let mem := Function.update s.rbufMap.mem cn ⟨0, size⟩
      (NgxMap.insert core hash compare { s.rbufMap with mem } cn false).map fun rbufMap =>
        (some cn, { s with
          rbufMap, free := Function.update s.free cn none, nallocNode := s.nallocNode + 1 })
    else some (none, s)

/-- The first free chain of the node, or a new one. -/
def getChain (s : State) (cn size : Nat) (pcalloc : Bool) : Option Nat × State :=
  match s.free cn with
  | some cl =>
    (some cl, { s with
      free := Function.update s.free cn (s.next cl)
      next := Function.update s.next cl none
      nfreeChain := s.nfreeChain - 1 })
  | none =>
    if pcalloc then
      let cl := s.nallocChain
      (some cl, { s with
        next := Function.update s.next cl none
        size := Function.update s.size cl size
        nallocChain := s.nallocChain + 1 })
    else (none, s)

/-- "record chainbuf in using map". -/
def recordUsed (s : State) (cl : Nat) : Option State :=
  let mem := Function.update s.used.mem cl { s.used.mem cl with rawKey := cl }
  (NgxMap.insert core hash compare { s.used with mem } cl false).map fun used => { s with used }

/-- `ngx_get_chainbuf_debug`; the arguments tell whether `ngx_create_pool` and each `ngx_pcalloc`
succeeds. -/
def getChainbuf (s : State) (size : Nat) (createPool pcallocNode pcallocChain : Bool) :
    Option (Option Nat × State) :=
  let s := initialised s createPool
  if s.pool then
    match getNode core hash s size pcallocNode with
    | none => none
    | some (none, s) => some (none, s)
    | some (some cn, s) =>
      match getChain s cn size pcallocChain with
      | (none, s) => some (none, s)
      | (some cl, s) => (recordUsed core hash s cl).map fun s => (some cl, s)
  else none -- the map has no node yet, and `ngx_pcalloc` reads through the NULL pool

/-- `ngx_put_chainbuf_debug`. -/
def putChainbuf (s : State) (cl : Option Nat) : State :=
  if s.pool = false then s
  else
    match cl with
    | none => s
    | some cl =>
      match NgxMap.find hash compare s.rbufMap (s.size cl) with
      | none => s
      | some cn =>
        let s := { s with
          next := Function.update s.next cl (s.free cn)
          free := Function.update s.free cn (some cl)
          nfreeChain := s.nfreeChain + 1 }
        match NgxMap.find hash compare s.used cl with
        | none => s -- "destroy chainbuf twice"
        | some _ => { s with used := NgxMap.delete core hash compare s.used cl }

/-! ## Runs -/

/-- The module and its callers: the chain each successful get returned, and the
gets whose chain was not put since. -/
structure World where
  state : State
  gets : List Nat
  held : List Nat

inductive Label where
  | get (size : Nat) (createPool pcallocNode pcallocChain : Bool)
  /-- the caller of the get `k` puts its chain -/
  | put (k : Nat)
  | putNull
  /-- a caller that holds the chain of the get `k` links it to another chain -/
  | link (k : Nat) (next : Option Nat)
deriving DecidableEq

/-- The chain the get `k` returned. -/
def World.chain (w : World) (k : Nat) : Nat := w.gets.getD k 0

def World.step (w : World) : Label → Option World
  | .get size createPool pcallocNode pcallocChain =>
    (getChainbuf core hash w.state size createPool pcallocNode pcallocChain).map fun r =>
      match r with
      | (none, state) => { w with state }
      | (some cl, state) =>
        { state, gets := w.gets ++ [cl], held := w.gets.length :: w.held }
  | .put k =>
    if k < w.gets.length then
      some { w with
        state := putChainbuf core hash w.state (some (w.chain k)), held := w.held.erase k }
    else none
  | .putNull => some { w with state := putChainbuf core hash w.state none }
  | .link k next =>
    if k ∈ w.held then
      some { w with
        state := { w.state with next := Function.update w.state.next (w.chain k) next } }
    else none

/-- A worker that has not called the module; its static variables are zero. -/
def machine : Machine World Label where
  start := {
    state := {
      pool := false
      rbufMap := ⟨.nil, fun _ => ⟨0, 0⟩, fun _ => false⟩
      free := fun _ => none
      nallocNode := 0
      nallocChain := 0
      nfreeChain := 0
      used := ⟨.nil, fun _ => ⟨0, 0⟩, fun _ => false⟩
      next := fun _ => none
      size := fun _ => 0 }
    gets := []
    held := [] }
  step := World.step core hash

/-- Every put is of a chain its caller still holds. -/
def PutOnce (w : World) : Label → Prop
  | .put k => k ∈ w.held
  | _ => True

/-- The total length of the free lists `ls`. -/
def totalFree (n : Nat) (ls : Nat → List Nat) : Nat :=
  ((List.range n).map fun cn => (ls cn).length).sum

/-- What the calls promise: no chain is held twice, every free list ends and
visits no chain twice, and the counters count. -/
structure Recycled (w : World) : Prop where
  held : ∀ k ∈ w.held, ∀ k' ∈ w.held, w.chain k = w.chain k' → k = k'
  free : ∃ ls : Nat → List Nat, (∀ cn, Linked w.state.next (w.state.free cn) (ls cn)) ∧
    (∀ cn, (ls cn).Nodup) ∧ w.state.nfreeChain = totalFree w.state.nallocNode ls
  nfree : w.state.nfreeChain ≤ w.state.nallocChain

end

/-! ## The maps -/

section
variable {core : NgxMap.Rbtree} {hash : Nat → Nat}

/-- The sizes that have a node. -/
structure SizeMap (hash : Nat → Nat) (s : State) : Prop where
  sorted : NgxMap.Inv hash compare s.rbufMap
  lt : ∀ k cn, NgxMap.find hash compare s.rbufMap k = some cn → cn < s.nallocNode
  sized : ∀ cl < s.nallocChain, ∃ cn, NgxMap.find hash compare s.rbufMap (s.size cl) = some cn

theorem SizeMap.not_linked {s : State} (hs : SizeMap hash s) : s.nallocNode ∉ s.rbufMap.linked :=
  fun h => Nat.lt_irrefl _ (hs.lt _ _ (NgxMap.find_rawKey hs.sorted h))

variable (core) in
/-- After the first step of a get the node of the size is there, the free lists
are as before, and a new node has none. -/
theorem SizeMap.getNode {s : State} (hs : SizeMap hash s) (hfree : s.free s.nallocNode = none)
    (size : Nat) (pcalloc : Bool) :
    getNode core hash s size pcalloc = some (none, s) ∨
    ∃ cn rbufMap n, Rbuf.getNode core hash s size pcalloc =
        some (some cn, { s with rbufMap, nallocNode := n }) ∧
      SizeMap hash { s with rbufMap, nallocNode := n } ∧
      NgxMap.find hash compare rbufMap size = some cn ∧ s.nallocNode ≤ n ∧
      ∀ k cn, NgxMap.find hash compare s.rbufMap k = some cn →
        NgxMap.find hash compare rbufMap k = some cn := by
  unfold Rbuf.getNode
  cases hf : NgxMap.find hash compare s.rbufMap size with
  | some cn =>
    exact Or.inr ⟨cn, s.rbufMap, s.nallocNode, rfl, hs, hf, Nat.le_refl _, fun _ _ hk => hk⟩
  | none =>
    cases pcalloc with
    | false => exact Or.inl rfl
    | true =>
      obtain ⟨map', hins, hinv, hfind⟩ :=
        NgxMap.insert_new core hs.sorted hs.not_linked hf ⟨0, size⟩ rfl
      have hupd : Function.update s.free s.nallocNode none = s.free := by
        rw [← hfree, Function.update_eq_self]
      refine Or.inr ⟨s.nallocNode, map', s.nallocNode + 1, ?_, ⟨hinv, fun k cn hk => ?_, ?_⟩, ?_,
        Nat.le_succ _, fun k cn hk => ?_⟩
      · simp only [if_true]
        rw [hins, Option.map_some, hupd]
      · dsimp only at hk ⊢
        rw [hfind] at hk
        split at hk
        · cases hk
          exact Nat.lt_succ_self _
        · exact Nat.lt_succ_of_lt (hs.lt k cn hk)
      · intro cl hcl
        obtain ⟨cn, hcn⟩ := hs.sized cl hcl
        dsimp only
        rw [hfind]
        split
        · exact ⟨_, rfl⟩
        · exact ⟨cn, hcn⟩
      · rw [hfind, if_pos rfl]
      · have hne : k ≠ size := by
          rintro rfl
          rw [hf] at hk
          cases hk
        rw [hfind, if_neg hne]
        exact hk

/-! ## The sum of the free lists -/

theorem totalFree_update {n cn : Nat} (hcn : cn < n) (ls : Nat → List Nat) (l : List Nat) :
    totalFree n (Function.update ls cn l) + (ls cn).length = totalFree n ls + l.length := by
  unfold totalFree
  induction n with
  | zero => omega
  | succ n ih =>
    rw [List.range_succ, List.map_append, List.map_append, List.sum_append, List.sum_append]
    by_cases h : cn = n
    · subst h
      have hsame : (List.range cn).map (fun i => (Function.update ls cn l i).length) =
          (List.range cn).map fun i => (ls i).length := by
        refine List.map_congr_left fun i hi => ?_
        rw [Function.update_of_ne (Nat.ne_of_lt (List.mem_range.mp hi))]
      rw [hsame]
      simp only [List.map_cons, List.map_nil, List.sum_cons, List.sum_nil, Function.update_self]
      omega
    · have := ih (by omega)
      simp only [List.map_cons, List.map_nil, List.sum_cons, List.sum_nil]
      rw [Function.update_of_ne (Ne.symm h)]
      omega

theorem totalFree_le {n n' : Nat} (h : n ≤ n') {ls : Nat → List Nat}
    (hls : ∀ cn, n ≤ cn → ls cn = []) : totalFree n' ls = totalFree n ls := by
  induction n' with
  | zero =>
    obtain rfl : n = 0 := by omega
    rfl
  | succ n' ih =>
    rcases Nat.lt_or_ge n' n with hlt | hge
    · obtain rfl : n = n' + 1 := by omega
      rfl
    · have := ih hge
      unfold totalFree at this ⊢
      rw [List.range_succ, List.map_append, List.sum_append, this]
      simp [hls n' hge]

/-! ## The invariant -/

/-- The chains that callers hold. -/
def World.chains (w : World) : List Nat := w.held.map w.chain

/-- What every step keeps that puts only held chains; `ls` are the free lists. -/
structure Inv (hash : Nat → Nat) (w : World) (ls : Nat → List Nat) : Prop where
  off : w.state.pool = false → w.state.rbufMap.root = .nil ∧ w.state.nallocNode = 0 ∧
    w.state.nallocChain = 0 ∧ w.state.nfreeChain = 0 ∧ w.state.used.root = .nil
  sizes : SizeMap hash w.state
  pool : Pool w.state.next w.state.free ls w.state.nallocChain w.chains
  fresh : ∀ cn, w.state.nallocNode ≤ cn → ls cn = []
  used : NgxMap.Inv hash compare w.state.used
  usedFind : ∀ cl,
    NgxMap.find hash compare w.state.used cl = if cl ∈ w.chains then some cl else none
  nfree : w.state.nfreeChain = totalFree w.state.nallocNode ls
  count : w.state.nfreeChain + w.held.length = w.state.nallocChain
  held_lt : ∀ k ∈ w.held, k < w.gets.length

section
variable {w w' : World} {ls : Nat → List Nat}

variable (core) in
theorem inv_start : Inv hash (machine core hash).start fun _ => [] where
  off _ := ⟨rfl, rfl, rfl, rfl, rfl⟩
  sizes := ⟨⟨fun _ h => (by cases h), List.Pairwise.nil⟩, fun _ _ h => (by cases h),
    fun _ h => (by cases h)⟩
  pool := Pool.empty fun _ => rfl
  fresh _ _ := rfl
  used := ⟨fun _ h => (by cases h), List.Pairwise.nil⟩
  usedFind _ := rfl
  nfree := rfl
  count := rfl
  held_lt _ h := (by cases h)

theorem Inv.held_nodup (hw : Inv hash w ls) : w.held.Nodup := hw.pool.nodup.of_map _

theorem Inv.recycled (hw : Inv hash w ls) : Recycled w where
  held k hk k' hk' h := List.inj_on_of_nodup_map hw.pool.nodup hk hk' h
  free := ⟨ls, hw.pool.chains.linked, hw.pool.chains.nodup, hw.nfree⟩
  nfree := by
    have := hw.count
    omega

/-- The chain a get hands out is put on record. -/
theorem Inv.not_used (hw : Inv hash w ls) {cl : Nat} (hcl : cl ∉ w.chains) :
    cl ∉ w.state.used.linked := by
  intro h
  have hf := NgxMap.find_rawKey hw.used h
  rw [hw.usedFind] at hf
  split at hf
  · next hm =>
    rw [Option.some.inj hf] at hm
    exact hcl hm
  · cases hf

/-- The pool is there after a get has initialised the module, unless it cannot be created. -/
theorem initialised_pool {s : State} {createPool : Bool} :
    (initialised s createPool).pool = true ↔ s.pool = true ∨ createPool = true := by
  unfold initialised rbufInit
  cases hp : s.pool <;> cases createPool <;> simp [hp]

/-- A get that returns has found the pool, or created it. -/
theorem pool_of_get {s : State} {size : Nat} {p0 p1 p2 : Bool} {r : Option Nat × State}
    (hget : getChainbuf core hash s size p0 p1 p2 = some r) : (initialised s p0).pool = true := by
  unfold getChainbuf at hget
  by_contra hp
  rw [if_neg hp] at hget
  cases hget

/-- In a worker that has not called the module `ngx_rbuf_init` creates the pool, no more. -/
theorem Inv.initialised_eq (hw : Inv hash w ls) {createPool : Bool}
    (hp : (initialised w.state createPool).pool = true) :
    initialised w.state createPool = { w.state with pool := true } := by
  obtain ⟨⟨pool, map, free, n1, n2, n3, used, next, size⟩, gets, held⟩ := w
  cases pool with
  | true => rfl
  | false =>
    obtain ⟨h1, h2, h3, h4, h5⟩ := hw.off rfl
    obtain rfl : createPool = true := (initialised_pool.mp hp).resolve_left (by simp)
    dsimp only at h1 h2 h3 h4 h5
    unfold initialised rbufInit
    simp only [Bool.false_eq_true, if_false, if_true]
    rw [h2, h3, h4, ← h1]
    congr 1
    rw [h1, ← h5]

theorem Inv.init (hw : Inv hash w ls) :
    Inv hash { w with state := { w.state with pool := true } } ls :=
  ⟨fun h => (by cases h), ⟨hw.sizes.sorted, hw.sizes.lt, hw.sizes.sized⟩, hw.pool, hw.fresh,
    hw.used, hw.usedFind, hw.nfree, hw.count, hw.held_lt⟩

/-- What the record of a get adds. -/
theorem chains_get (hlt : ∀ k ∈ w.held, k < w.gets.length) (cl : Nat) (state : State) :
    World.chains { state, gets := w.gets ++ [cl], held := w.gets.length :: w.held } =
      cl :: w.chains := by
  unfold World.chains World.chain
  rw [List.map_cons]
  congr 1
  · simp
  · refine List.map_congr_left fun k hk => ?_
    rw [List.getD_eq_getElem?_getD, List.getD_eq_getElem?_getD,
      List.getElem?_append_left (hlt k hk)]

variable (core) in
/-- A chain that nobody holds is handed to the caller of a get. -/
theorem Inv.hand {s : State} {cl : Nat} (hpool : s.pool = true) (hsizes : SizeMap hash s)
    (hp : Pool s.next s.free ls s.nallocChain (cl :: w.chains))
    (hfresh : ∀ cn, s.nallocNode ≤ cn → ls cn = []) (hused : s.used = w.state.used)
    (hnfree : s.nfreeChain = totalFree s.nallocNode ls)
    (hcount : s.nfreeChain + (w.held.length + 1) = s.nallocChain) {ls' : Nat → List Nat}
    (hw : Inv hash w ls') :
    ∃ s', recordUsed core hash s cl = some s' ∧
      Inv hash { state := s', gets := w.gets ++ [cl], held := w.gets.length :: w.held } ls := by
  have hcl : cl ∉ w.chains := (List.nodup_cons.mp hp.nodup).1
  obtain ⟨used, hins, hinv, hfind⟩ := NgxMap.insert_new core hw.used (hw.not_used hcl)
    (by rw [hw.usedFind, if_neg hcl]) { w.state.used.mem cl with rawKey := cl } rfl
  have hch := chains_get hw.held_lt cl { s with used }
  refine ⟨{ s with used }, ?_, fun h => ?_, ⟨hsizes.sorted, hsizes.lt, hsizes.sized⟩, ?_, hfresh,
    hinv, ?_, hnfree, ?_, ?_⟩
  · unfold recordUsed
    rw [hused]
    dsimp only
    rw [hins, Option.map_some]
  · dsimp only at h
    rw [hpool] at h
    cases h
  · rw [hch]
    exact hp
  · intro k
    rw [hch]
    dsimp only
    rw [hfind]
    by_cases hk : k = cl
    · subst hk
      rw [if_pos rfl, if_pos List.mem_cons_self]
    · rw [if_neg hk, hw.usedFind]
      simp [hk]
  · rw [List.length_cons]
    exact hcount
  · intro k hk
    rw [List.length_append]
    rcases List.mem_cons.mp hk with rfl | hk
    · exact Nat.lt_succ_self _
    · exact Nat.lt_succ_of_lt (hw.held_lt k hk)

/-- The state after a get that returned no chain, or its chain with the record. -/
def World.got (w : World) : Option Nat × State → World
  | (none, state) => { w with state }
  | (some cl, state) => { state, gets := w.gets ++ [cl], held := w.gets.length :: w.held }

/-- The chain `cl` of a get was the first one on the free list of the node `cn`,
or it is new. -/
def Took (w : World) (ls : Nat → List Nat) (size cn cl : Nat) (s : State) (ls' : Nat → List Nat) :
    Prop :=
  cl ∉ w.chains ∧ s.next cl = none ∧ s.rbufMap = w.state.rbufMap ∧
    ((w.state.free cn = some cl ∧ (∃ l, ls cn = cl :: l ∧ ls' = Function.update ls cn l) ∧
        s.size = w.state.size ∧ s.nallocChain = w.state.nallocChain) ∨
      (w.state.free cn = none ∧ cl = w.state.nallocChain ∧ ls' = ls ∧
        s.size = Function.update w.state.size cl size ∧ s.nallocChain = w.state.nallocChain + 1))

theorem recordUsed_eq {s s' : State} {cl : Nat} (h : recordUsed core hash s cl = some s') :
    ∃ used, s' = { s with used } := by
  unfold recordUsed at h
  obtain ⟨used, -, hs⟩ := Option.map_eq_some_iff.mp h
  exact ⟨used, hs.symm⟩

variable (core) in
/-- A get with the node of its size at hand. -/
theorem Inv.getChain (hw : Inv hash w ls) (hpool : w.state.pool = true) {size cn : Nat}
    (hcn : NgxMap.find hash compare w.state.rbufMap size = some cn) (pcalloc : Bool) :
    Rbuf.getChain w.state cn size pcalloc = (none, w.state) ∨
    ∃ cl s s' ls', Rbuf.getChain w.state cn size pcalloc = (some cl, s) ∧
      recordUsed core hash s cl = some s' ∧ Inv hash (w.got (some cl, s')) ls' ∧
      Took w ls size cn cl s' ls' := by
  have hlt : cn < w.state.nallocNode := hw.sizes.lt size cn hcn
  have hcount := hw.count
  unfold Rbuf.getChain
  cases hfree : w.state.free cn with
  | some cl =>
    -- The chain is taken off the free list of its size.
    obtain ⟨l, hl⟩ : ∃ l, ls cn = cl :: l := by
      have := hw.pool.chains.head_eq cn
      rw [hfree] at this
      cases hls : ls cn with
      | nil =>
        rw [hls] at this
        cases this
      | cons a l =>
        rw [hls, List.head?_cons] at this
        cases this
        exact ⟨l, rfl⟩
    have htotal := totalFree_update hlt ls l
    rw [hl, List.length_cons] at htotal
    have hnfree := hw.nfree
    have hpop := (hw.pool.pop hl).write List.mem_cons_self none
    have hfresh : ∀ i, w.state.nallocNode ≤ i → Function.update ls cn l i = [] := by
      intro i hi
      rw [Function.update_of_ne (by omega)]
      exact hw.fresh i hi
    obtain ⟨s', hrec, hinv⟩ := Inv.hand core (w := w)
      (s := { w.state with
        free := Function.update w.state.free cn (w.state.next cl)
        next := Function.update w.state.next cl none
        nfreeChain := w.state.nfreeChain - 1 })
      hpool ⟨hw.sizes.sorted, hw.sizes.lt, hw.sizes.sized⟩ hpop hfresh rfl
      (by dsimp only; omega) (by dsimp only; omega) hw
    have hnot : cl ∉ w.chains := (List.nodup_cons.mp hpop.nodup).1
    obtain ⟨used, rfl⟩ := recordUsed_eq hrec
    exact Or.inr ⟨cl, _, _, _, rfl, hrec, hinv, hnot, Function.update_self _ _ _, rfl,
      .inl ⟨hfree, ⟨l, hl, rfl⟩, rfl, rfl⟩⟩
  | none =>
    cases pcalloc with
    | false => exact Or.inl rfl
    | true =>
      -- A new chain is allocated.
      have hsized : ∀ cl < w.state.nallocChain + 1, ∃ cn', NgxMap.find hash compare w.state.rbufMap
          (Function.update w.state.size w.state.nallocChain size cl) = some cn' := by
        intro cl hcl
        by_cases hc : cl = w.state.nallocChain
        · subst hc
          rw [Function.update_self]
          exact ⟨cn, hcn⟩
        · rw [Function.update_of_ne hc]
          exact hw.sizes.sized cl (by omega)
      obtain ⟨s', hrec, hinv⟩ := Inv.hand core (w := w)
        (s := { w.state with
          next := Function.update w.state.next w.state.nallocChain none
          size := Function.update w.state.size w.state.nallocChain size
          nallocChain := w.state.nallocChain + 1 })
        hpool ⟨hw.sizes.sorted, hw.sizes.lt, hsized⟩ (hw.pool.alloc none) hw.fresh rfl hw.nfree
        (by dsimp only; omega) hw
      have hnot : w.state.nallocChain ∉ w.chains := fun hm =>
        Nat.lt_irrefl _ (hw.pool.off _ hm).1
      obtain ⟨used, rfl⟩ := recordUsed_eq hrec
      exact Or.inr ⟨_, _, _, _, rfl, hrec, hinv, hnot, Function.update_self _ _ _, rfl,
        .inr ⟨hfree, rfl, rfl, rfl, rfl⟩⟩

variable (core) in
/-- The first half of a get: the module is initialised, and the node of the size is
there unless its allocation has failed. -/
theorem Inv.node (hw : Inv hash w ls) {createPool : Bool}
    (hp : (initialised w.state createPool).pool = true) (size : Nat) (pcalloc : Bool) :
    ∃ r s1, getNode core hash (initialised w.state createPool) size pcalloc = some (r, s1) ∧
      Inv hash { w with state := s1 } ls ∧ s1.size = w.state.size ∧
      s1.nallocChain = w.state.nallocChain ∧
      (∀ k cn, NgxMap.find hash compare w.state.rbufMap k = some cn →
        NgxMap.find hash compare s1.rbufMap k = some cn) ∧
      ∀ cn, r = some cn → s1.pool = true ∧ NgxMap.find hash compare s1.rbufMap size = some cn := by
  rw [hw.initialised_eq hp]
  have hw0 := hw.init
  have hfree : w.state.free w.state.nallocNode = none := by
    rw [hw.pool.chains.head_eq, hw.fresh _ (Nat.le_refl _)]
    rfl
  rcases hw0.sizes.getNode core hfree size pcalloc with hn | ⟨cn, map, n, hn, hsz, hcn, hle, hkeep⟩
  · exact ⟨none, _, hn, hw0, rfl, rfl, fun k cn hk => hk, fun cn hc => (by cases hc)⟩
  · have hw1 : Inv hash { w with
        state := { w.state with pool := true, rbufMap := map, nallocNode := n } } ls :=
      ⟨fun h => (by cases h), hsz, hw0.pool, fun i hi => hw0.fresh i (Nat.le_trans hle hi),
        hw0.used, hw0.usedFind, hw0.nfree.trans (totalFree_le hle hw0.fresh).symm, hw0.count, hw0.held_lt⟩
    refine ⟨some cn, _, hn, hw1, rfl, rfl, hkeep, fun c hc => ?_⟩
    cases hc
    exact ⟨rfl, hcn⟩

theorem Inv.get (hw : Inv hash w ls) {size : Nat} {p0 p1 p2 : Bool} {r : Option Nat × State}
    (hget : getChainbuf core hash w.state size p0 p1 p2 = some r) :
    ∃ ls', Inv hash (w.got r) ls' := by
  have hp := pool_of_get hget
  unfold getChainbuf at hget
  dsimp only at hget
  obtain ⟨r1, s1, hn, hw1, -, -, -, hsome⟩ := hw.node core hp size p1
  rw [if_pos hp, hn] at hget
  cases r1 with
  | none =>
    cases hget
    exact ⟨ls, hw1⟩
  | some cn =>
    obtain ⟨hpool, hcn⟩ := hsome cn rfl
    dsimp only at hget
    rcases hw1.getChain core hpool hcn p2 with hc | ⟨cl, s2, s', ls', hc, hrec, hinv, -⟩
    · dsimp only at hc
      rw [hc] at hget
      cases hget
      exact ⟨ls, hw1⟩
    · dsimp only at hc
      rw [hc] at hget
      dsimp only at hget
      rw [hrec] at hget
      cases hget
      exact ⟨ls', hinv⟩

variable (core) in
/-- A put of a chain that its caller holds. -/
theorem Inv.put (hw : Inv hash w ls) {k : Nat} (hk : k ∈ w.held) :
    ∃ cn used, NgxMap.find hash compare w.state.rbufMap (w.state.size (w.chain k)) = some cn ∧
      putChainbuf core hash w.state (some (w.chain k)) = { w.state with
        next := Function.update w.state.next (w.chain k) (w.state.free cn)
        free := Function.update w.state.free cn (some (w.chain k))
        nfreeChain := w.state.nfreeChain + 1
        used } ∧
      Inv hash { w with
        state := putChainbuf core hash w.state (some (w.chain k)), held := w.held.erase k }
        (Function.update ls cn (w.chain k :: ls cn)) := by
  have hmem : w.chain k ∈ w.chains := List.mem_map_of_mem hk
  obtain ⟨hltc, -⟩ := hw.pool.off _ hmem
  have hpool : w.state.pool = true := by
    by_contra hp
    have := (hw.off (by simpa using hp)).2.2.1
    omega
  obtain ⟨cn, hcn⟩ := hw.sizes.sized _ hltc
  have hlt : cn < w.state.nallocNode := hw.sizes.lt _ cn hcn
  have hperm : w.held.Perm (k :: w.held.erase k) := List.perm_cons_erase hk
  have hchains : w.chains.Perm (w.chain k :: (w.held.erase k).map w.chain) := hperm.map _
  have hpush := (hw.pool.perm hchains.symm).push cn
  have hfind := hw.usedFind (w.chain k)
  rw [if_pos hmem] at hfind
  have htotal := totalFree_update hlt ls (w.chain k :: ls cn)
  rw [List.length_cons] at htotal
  have hnfree := hw.nfree
  have hcount := hw.count
  have hlen := hperm.length_eq
  rw [List.length_cons] at hlen
  have hput : putChainbuf core hash w.state (some (w.chain k)) = { w.state with
      next := Function.update w.state.next (w.chain k) (w.state.free cn)
      free := Function.update w.state.free cn (some (w.chain k))
      nfreeChain := w.state.nfreeChain + 1
      used := NgxMap.delete core hash compare w.state.used (w.chain k) } := by
    unfold putChainbuf
    rw [if_neg (by simp [hpool])]
    dsimp only
    rw [hcn]
    dsimp only
    rw [hfind]
  have hnot : w.chain k ∉ (w.held.erase k).map w.chain := by
    have hnd := hchains.nodup_iff.mp hw.pool.nodup
    exact (List.nodup_cons.mp hnd).1
  refine ⟨cn, _, hcn, hput, ?_⟩
  rw [hput]
  refine ⟨fun h => ?_,
    ⟨hw.sizes.sorted, hw.sizes.lt, hw.sizes.sized⟩, hpush, fun i hi => ?_,
    (hw.used.delete core _).1, fun cl => ?_, ?_, ?_, ?_⟩
  · exact absurd (hpool.symm.trans h) (by decide)
  · dsimp only at hi
    rw [Function.update_of_ne (by omega)]
    exact hw.fresh i hi
  · dsimp only
    rw [NgxMap.find_delete hw.used, hw.usedFind]
    simp only [NgxMap.keyCmp_eq]
    show _ = if cl ∈ (w.held.erase k).map w.chain then some cl else none
    by_cases hc : cl = w.chain k
    · rw [if_pos hc, hc, if_neg hnot]
    · rw [if_neg hc]
      have : cl ∈ w.chains ↔ cl ∈ (w.held.erase k).map w.chain := by
        rw [hchains.mem_iff, List.mem_cons]
        exact or_iff_right hc
      simp only [this]
  · dsimp only
    omega
  · dsimp only
    omega
  · exact fun j hj => hw.held_lt j (List.mem_of_mem_erase hj)

theorem putChainbuf_null (s : State) : putChainbuf core hash s none = s := by
  unfold putChainbuf
  split <;> rfl

/-- A holder links its chain. -/
theorem Inv.link (hw : Inv hash w ls) {k : Nat} (hk : k ∈ w.held) (next : Option Nat) :
    Inv hash { w with state := { w.state with
      next := Function.update w.state.next (w.chain k) next } } ls :=
  ⟨hw.off, ⟨hw.sizes.sorted, hw.sizes.lt, hw.sizes.sized⟩,
    hw.pool.write (List.mem_map_of_mem hk) next, hw.fresh, hw.used, hw.usedFind, hw.nfree,
    hw.count, hw.held_lt⟩

theorem Inv.step {l : Label} (hw : Inv hash w ls) (hok : PutOnce w l)
    (hst : w.step core hash l = some w') : ∃ ls', Inv hash w' ls' := by
  cases l with
  | get size p0 p1 p2 =>
    obtain ⟨r, hr, rfl⟩ := Option.map_eq_some_iff.mp hst
    exact hw.get hr
  | put k =>
    simp only [World.step] at hst
    split at hst
    · cases hst
      obtain ⟨cn, used, -, -, h⟩ := hw.put core hok
      exact ⟨_, h⟩
    · cases hst
  | putNull =>
    simp only [World.step] at hst
    cases hst
    rw [putChainbuf_null]
    exact ⟨ls, hw⟩
  | link k next =>
    simp only [World.step] at hst
    split at hst
    · next hk =>
      cases hst
      exact ⟨ls, hw.link hk next⟩
    · cases hst

end

/-- **Recycling.**  In every run in which a chain is put only by the caller that
holds it, no chain is held twice, every free list ends without a cycle or a
duplicate, and the counters are the lengths. -/
theorem reach_recycled (core : NgxMap.Rbtree) (hash : Nat → Nat) (w : World)
    (hr : (machine core hash).ReachIf PutOnce w) : Recycled w := by
  have hinv : ∃ ls, Inv hash w ls := Machine.ReachIf.invariant (P := fun w => ∃ ls, Inv hash w ls)
    ⟨_, inv_start core⟩ (fun _ _ _ _ ⟨_, h⟩ hok hst => h.step hok hst) hr
  obtain ⟨ls, hw⟩ := hinv
  exact hw.recycled

end

/-- A chain is put twice: it is on its free list twice, as its own successor. -/
theorem put_twice : ¬ ∀ (core : NgxMap.Rbtree) (hash : Nat → Nat) (w : World),
    (machine core hash).Reach w → Recycled w := by
  intro hall
  have hr := (machine NgxMap.flatRbtree id).reach_run [.get 10 true true true, .put 0, .put 0] rfl
  have := (hall NgxMap.flatRbtree id _ hr).nfree
  revert this
  decide

/-- Two gets of one size, a put, and a get of another size. -/
theorem reach_recycled_reused : ∃ w : World,
    (machine NgxMap.flatRbtree id).run (machine NgxMap.flatRbtree id).start
      [.get 10 true true true, .get 10 true true true, .put 0, .get 20 true true true] = some w ∧
    Recycled w := by
  have h1 : (machine NgxMap.flatRbtree id).ReachIf PutOnce _ :=
    .step .start (i := Label.get 10 true true true) trivial rfl
  have h2 : (machine NgxMap.flatRbtree id).ReachIf PutOnce _ :=
    h1.step (i := Label.get 10 true true true) trivial rfl
  have h3 : (machine NgxMap.flatRbtree id).ReachIf PutOnce _ :=
    h2.step (i := Label.put 0) (List.mem_cons_of_mem _ List.mem_cons_self) rfl
  have h4 : (machine NgxMap.flatRbtree id).ReachIf PutOnce _ :=
    h3.step (i := Label.get 20 true true true) trivial rfl
  exact ⟨_, rfl, reach_recycled NgxMap.flatRbtree id _ h4⟩

end NgxToolkit.Rbuf
