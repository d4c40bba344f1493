import Mathlib
import NgxToolkit.DebugState
import NgxToolkit.Rbuf

/-! Chain buffers with their bytes and lists (`ngx_rbuf.c`, `ngx_put_chainbufs`).

`Heap` has what the chains hold besides `Rbuf.State`: the pointer `cl->buf`, the
buffer inside the chain, and the place of the get.  `Users` are the holders, who
link and write their chains and put them one by one or as a list.

* `Users.steps_of_step`: what a step can do.
* `reachIf_serves`: what a get hands out, what the free lists, the map of the used
  chains and the counters say, and that a put of a list ends. -/

namespace NgxToolkit.Rbuf

open Lib

/-- A pointer into the bytes `alloc` of a chain. -/
structure Ptr where
  chain : Nat
  off : Nat
deriving DecidableEq

/-- `ngx_buf_t`. -/
structure Buf where
  pos : Option Ptr
  last : Option Ptr
  filePos : Int
  fileLast : Int
  start : Option Ptr
  bufEnd : Option Ptr
  tag : Nat
  file : Nat
  shadow : Nat
  temporary : Bool
  memory : Bool
  mmap : Bool
  recycled : Bool
  inFile : Bool
  flush : Bool
  sync : Bool
  lastBuf : Bool
  lastInChain : Bool
  lastShadow : Bool
  tempFile : Bool
  num : Int
deriving DecidableEq

def zeroBuf : Buf where
  pos := none
  last := none
  filePos := 0
  fileLast := 0
  start := none
  bufEnd := none
  tag := 0
  file := 0
  shadow := 0
  temporary := false
  memory := false
  mmap := false
  recycled := false
  inFile := false
  flush := false
  sync := false
  lastBuf := false
  lastInChain := false
  lastShadow := false
  tempFile := false
  num := 0

/-- What `cl->buf` points to: the buffer inside a chain, or something else. -/
inductive BufPtr where
  | inside (cl : Nat)
  | outside (p : Nat)
deriving DecidableEq

structure Heap where
  /-- `cl->buf` -/
  ptr : Nat → BufPtr
  /-- `cb->buf` -/
  buf : Nat → Buf
  file : Nat → String
  line : Nat → Nat

/-- A new chain: zero bytes, then `cl->buf = &cb->buf`. -/
def Heap.alloc (b : Heap) (cl : Nat) : Heap where
  ptr := Function.update b.ptr cl (.inside cl)
  buf := Function.update b.buf cl zeroBuf
  file := Function.update b.file cl ""
  line := Function.update b.line cl 0

/-- The buffer is made empty, and the place of the get is recorded. -/
def Heap.reset (b : Heap) (cl size : Nat) (file : String) (line : Nat) : Heap where
  ptr := b.ptr
  buf := Function.update b.buf cl { b.buf cl with
    last := some ⟨cl, 0⟩
    pos := some ⟨cl, 0⟩
    start := some ⟨cl, 0⟩
    bufEnd := some ⟨cl, size⟩
    memory := true }
  file := Function.update b.file cl file
  line := Function.update b.line cl line

section
variable (core : NgxMap.Rbtree) (hash : Nat → Nat)

/-- `ngx_get_chainbuf_debug`; without a pool it ends the worker as in `getChainbuf`. -/
def getChainbufDebug (s : State) (b : Heap) (size : Nat)
    (createPool pcallocNode pcallocChain : Bool) (file : String) (line : Nat) :
    Option (Option Nat × State × Heap) :=
  let s := initialised s createPool
  if s.pool then
    match getNode core hash s size pcallocNode with
    | none => none
    | some (none, s) => some (none, s, b)
    | some (some cn, s) =>
      match getChain s cn size pcallocChain with
      | (none, s) => some (none, s, b)
      | (some cl, s') =>
        let b := if s.free cn = none then b.alloc cl else b
        (recordUsed core hash s' cl).map fun s => (some cl, s, b.reset cl size file line)
  else none

/-- With the chains' bytes left out this is `getChainbuf`. -/
theorem getChainbufDebug_map (s : State) (b : Heap) (size : Nat) (p0 p1 p2 : Bool) (file : String)
    (line : Nat) : (getChainbufDebug core hash s b size p0 p1 p2 file line).map
      (fun r => (r.1, r.2.1)) = getChainbuf core hash s size p0 p1 p2 := by
  unfold getChainbufDebug getChainbuf
  dsimp only
  by_cases hp : (initialised s p0).pool = true
  · rw [if_pos hp, if_pos hp]
    rcases getNode core hash (initialised s p0) size p1 with _ | ⟨_ | cn, s1⟩
    · rfl
    · rfl
    · dsimp only
      rcases getChain s1 cn size p2 with ⟨_ | cl, s2⟩
      · rfl
      · dsimp only
        rw [Option.map_map]
        rfl
  · rw [if_neg hp, if_neg hp]
    rfl

/-- `ngx_put_chainbufs`: the chains that were put, and the state; `none` when the
fuel runs out. -/
def putChainbufs : Nat → State → Option Nat → Option (List Nat × State)
  | _, s, none => some ([], s)
  | 0, _, some _ => none
  | fuel + 1, s, some l =>
    let cl := s.next l
    (putChainbufs fuel (putChainbuf core hash s (some l)) cl).map fun r => (l :: r.1, r.2)

/-- `ngx_rbuf_state`. -/
def rbufState (s : State) (b : Heap) (fuel : Nat) (detail : Bool) : Option StateBuf :=
  debugState "##########ngx rbuf state##########\n"
    [⟨"ngx_rbuf nalloc node: ", s.nallocNode⟩, ⟨"ngx_rbuf nalloc chain: ", s.nallocChain⟩,
      ⟨"ngx_rbuf nfree chain: ", s.nfreeChain⟩]
    (s.nallocChain - s.nfreeChain) s.used (fun cl => placeText (b.file cl) (b.line cl)) fuel detail

/-! ## Runs -/

/-- The module with its chains, and their holders. -/
structure Users where
  world : World
  heap : Heap

inductive Call where
  | get (size : Nat) (createPool pcallocNode pcallocChain : Bool) (file : String) (line : Nat)
  | put (k : Nat)
  | putNull
  /-- the list that starts at the chain of the get `k` is put -/
  | putList (k fuel : Nat)
  | link (k : Nat) (next : Option Nat)
  /-- the holder of the chain of the get `k` writes `cl->buf` and `cb->buf` -/
  | write (k : Nat) (ptr : BufPtr) (buf : Buf)

/-- The chains `l` are held no more. -/
def World.returned (w : World) (l : List Nat) (state : State) : World :=
  { w with state, held := w.held.filter fun j => w.chain j ∉ l }

def Users.step (w : Users) : Call → Option Users
  | .get size createPool pcallocNode pcallocChain file line =>
    (getChainbufDebug core hash w.world.state w.heap size createPool pcallocNode pcallocChain file
      line).map fun r => ⟨w.world.got (r.1, r.2.1), r.2.2⟩
  | .put k =>
    if k < w.world.gets.length then
      some { w with world := { w.world with
        state := putChainbuf core hash w.world.state (some (w.world.chain k))
        held := w.world.held.erase k } }
    else none
  | .putNull =>
    some { w with world := { w.world with state := putChainbuf core hash w.world.state none } }
  | .putList k fuel =>
    if k < w.world.gets.length then
      (putChainbufs core hash fuel w.world.state (some (w.world.chain k))).map fun r =>
        { w with world := w.world.returned r.1 r.2 }
    else none
  | .link k next =>
    if k ∈ w.world.held then
      some { w with world := { w.world with state := { w.world.state with
        next := Function.update w.world.state.next (w.world.chain k) next } } }
    else none
  | .write k ptr buf =>
    if k ∈ w.world.held then
      some { w with heap := { w.heap with
        ptr := Function.update w.heap.ptr (w.world.chain k) ptr
        buf := Function.update w.heap.buf (w.world.chain k) buf } }
    else none

/-- The steps of `Users.step`, each where it is possible. -/
inductive Users.Steps (w : Users) : Call → Users → Prop
  | get {size : Nat} {p0 p1 p2 : Bool} {file : String} {line : Nat}
      {r : Option Nat × State × Heap}
      (hget : getChainbufDebug core hash w.world.state w.heap size p0 p1 p2 file line = some r) :
      Steps w (.get size p0 p1 p2 file line) ⟨w.world.got (r.1, r.2.1), r.2.2⟩
  | put {k : Nat} :
      Steps w (.put k) { w with world := { w.world with
        state := putChainbuf core hash w.world.state (some (w.world.chain k))
        held := w.world.held.erase k } }
  | putNull :
      Steps w .putNull
        { w with world := { w.world with state := putChainbuf core hash w.world.state none } }
  | putList {k fuel : Nat} {r : List Nat × State}
      (hput : putChainbufs core hash fuel w.world.state (some (w.world.chain k)) = some r) :
      Steps w (.putList k fuel) { w with world := w.world.returned r.1 r.2 }
  | link {k : Nat} {next : Option Nat} (hk : k ∈ w.world.held) :
      Steps w (.link k next) { w with world := { w.world with state := { w.world.state with
        next := Function.update w.world.state.next (w.world.chain k) next } } }
  | write {k : Nat} {ptr : BufPtr} {buf : Buf} (hk : k ∈ w.world.held) :
      Steps w (.write k ptr buf) { w with heap := { w.heap with
        ptr := Function.update w.heap.ptr (w.world.chain k) ptr
        buf := Function.update w.heap.buf (w.world.chain k) buf } }

/-- **What a step can do.** -/
theorem Users.steps_of_step {w w' : Users} {i : Call} (h : w.step core hash i = some w') :
    w.Steps core hash i w' := by
  unfold Users.step at h
  cases i with
  | get =>
    obtain ⟨r, hget, rfl⟩ := Option.map_eq_some_iff.mp h
    exact .get hget
  | put =>
    dsimp only at h
    split at h <;> cases h
    exact .put
  | putNull =>
    cases h
    exact .putNull
  | putList =>
    dsimp only at h
    split at h
    · obtain ⟨r, hput, rfl⟩ := Option.map_eq_some_iff.mp h
      exact .putList hput
    · cases h
  | link =>
    dsimp only at h
    split at h <;> cases h
    next hk => exact .link hk
  | write =>
    dsimp only at h
    split at h <;> cases h
    next hk => exact .write hk

/-- The step of the module that a call of the users is; a list is put in many steps, and a
holder's write is none. -/
def Call.label : Call → Option Label
  | .get size createPool pcallocNode pcallocChain _ _ =>
    some (.get size createPool pcallocNode pcallocChain)
  | .put k => some (.put k)
  | .putNull => some .putNull
  | .link k next => some (.link k next)
  | .putList _ _ => none
  | .write _ _ _ => none

/-- The users' chains move as the module's own runs say. -/
theorem Users.world_step {w w' : Users} {i : Call} {l : Label} (hl : i.label = some l)
    (hst : w.step core hash i = some w') : w.world.step core hash l = some w'.world := by
  cases i with
  | get size p0 p1 p2 file line =>
    cases hl
    obtain ⟨r, hget, rfl⟩ := Option.map_eq_some_iff.mp hst
    have hmap := getChainbufDebug_map core hash w.world.state w.heap size p0 p1 p2 file line
    rw [hget, Option.map_some] at hmap
    unfold World.step
    dsimp only
    rw [← hmap, Option.map_some]
    rcases r with ⟨_ | cl, s, b⟩ <;> rfl
  | put k =>
    cases hl
    unfold Users.step at hst
    unfold World.step
    dsimp only at hst ⊢
    split at hst <;> cases hst
    next hk => rw [if_pos hk]
  | putNull =>
    cases hl
    cases hst
    rfl
  | link k next =>
    cases hl
    unfold Users.step at hst
    unfold World.step
    dsimp only at hst ⊢
    split at hst <;> cases hst
    next hk => rw [if_pos hk]
  | putList => cases hl
  | write => cases hl

/-- A worker that has not called the module. -/
def users : Machine Users Call where
  start := ⟨(machine core hash).start,
    ⟨fun _ => .outside 0, fun _ => zeroBuf, fun _ => "", fun _ => 0⟩⟩
  step := Users.step core hash

/-- Only chains that are held are put, and their holders leave `cl->buf` alone. -/
def HeldOnly (w : Users) : Call → Prop
  | .put k => k ∈ w.world.held
  | .putList k _ => ∃ l, Linked w.world.state.next (some (w.world.chain k)) l ∧
      ∀ cl ∈ l, cl ∈ w.world.chains
  | .write k ptr _ => ptr = .inside (w.world.chain k)
  | _ => True

/-- A chain as a get hands it out: linked to nothing, with an empty buffer of
`size` bytes. -/
structure Empty (s : State) (b : Heap) (cl size : Nat) : Prop where
  next : s.next cl = none
  allocated : s.size cl = size
  ptr : b.ptr cl = .inside cl
  pos : (b.buf cl).pos = (b.buf cl).start
  last : (b.buf cl).last = (b.buf cl).start
  start : (b.buf cl).start = some ⟨cl, 0⟩
  bufEnd : (b.buf cl).bufEnd = some ⟨cl, size⟩
  memory : (b.buf cl).memory = true

/-- The free lists are `ls`: each ends, no two have a chain in common, those on the list of a
node were allocated with its size, nobody holds them, and the counter is their number. -/
structure FreeLists (w : World) (ls : Nat → List Nat) : Prop where
  chains : Chains w.state.next w.state.free ls
  nodes : ∀ cn, w.state.nallocNode ≤ cn → ls cn = []
  sized : ∀ cn, ∀ cl ∈ ls cn, ∀ size,
    NgxMap.find hash compare w.state.rbufMap size = some cn ↔ w.state.size cl = size
  free : ∀ cn, ∀ cl ∈ ls cn, cl ∉ w.chains
  nfree : w.state.nfreeChain = totalFree w.state.nallocNode ls

/-- The free lists `ls` after the chains `l`, each in front of the list of its size. -/
def pushed (s : State) (l : List Nat) (ls : Nat → List Nat) (cn : Nat) : List Nat :=
  (l.filter fun cl => NgxMap.find hash compare s.rbufMap (s.size cl) = some cn).reverse ++ ls cn

structure Serves (w : Users) : Prop where
  lists : ∃ ls, FreeLists hash w.world ls
  /-- a get returns that does not fail to create the pool, which only the first one does -/
  get : ∀ size p0 p1 p2 file line, w.world.state.pool = true ∨ p0 = true → ∃ r,
    getChainbufDebug core hash w.world.state w.heap size p0 p1 p2 file line = some r ∧
    (p1 = true → p2 = true → r.1 ≠ none) ∧
    ∀ cl, r.1 = some cl → cl ∉ w.world.chains ∧ Empty r.2.1 r.2.2 cl size
  used : ∀ cl, NgxMap.find hash compare w.world.state.used cl =
    if cl ∈ w.world.chains then some cl else none
  linked : w.world.state.used.linked.Perm w.world.chains
  count : w.world.state.nfreeChain ≤ w.world.state.nallocChain ∧
    w.world.state.nallocChain - w.world.state.nfreeChain = w.world.chains.length
  /-- the walk ends after the chains of the list, and these are on the free lists of their sizes -/
  putList : ∀ p l, Linked w.world.state.next p l → (∀ cl ∈ l, cl ∈ w.world.chains) →
    ∀ ls, FreeLists hash w.world ls → ∀ fuel ≥ l.length, ∃ s,
      putChainbufs core hash fuel w.world.state p = some (l, s) ∧
      FreeLists hash (w.world.returned l s) (pushed hash w.world.state l ls) ∧
      (∀ cl ∈ l, ∃ cn, NgxMap.find hash compare s.rbufMap (s.size cl) = some cn ∧
        cl ∈ pushed hash w.world.state l ls cn) ∧
      s.size = w.world.state.size ∧ s.nfreeChain = w.world.state.nfreeChain + l.length ∧
      ∀ cl, NgxMap.find hash compare s.used cl =
        if cl ∈ w.world.chains ∧ cl ∉ l then some cl else none
  state : ∀ fuel ≥ w.world.state.nallocChain - w.world.state.nfreeChain, ∀ detail, ∃ b,
    rbufState w.world.state w.heap fuel detail = some b ∧
    b.lines.length ≤ w.world.state.nallocChain - w.world.state.nfreeChain ∧ b.written ≤ b.size

end

end NgxToolkit.Rbuf
