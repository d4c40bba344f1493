import Mathlib.Tactic.Common
import NgxToolkit.Lib.Chains
import NgxToolkit.Lib.Machine
import NgxToolkit.Lib.TimerQueue
import NgxToolkit.NgxMapRuns

/-! Timers with footprints (`ngx_timerd.c`) in the two builds.

In the release build `NGX_ADD_TIMER` and `NGX_DEL_TIMER` are `ngx_add_timer` and
`ngx_del_timer` on the event of the user.  In the debug build they arm the event
of a node, which the map finds under the address of the user's event.

The user's events are named by their addresses, the nodes by numbers in the
order of their allocation.  `Timers` is what nginx core keeps of the events that
are armed: those of the user in the one build, those of the nodes in the other.

The pool of the module and its nodes are allocated whenever they are asked for.  Where
that fails `ngx_pcalloc` reads through the `NULL` pool, or `ngx_add_timer_debug` writes to
the `NULL` node, and the worker ends: there is no state after such a call, and no run
has it.

* `debug_simulates`: the debug build runs the same handlers, and the flags of
  the user's events are the same, as long as `Owned` holds of every call. -/

namespace NgxToolkit.Timerd

open Lib

/-! ## The timers of nginx

These are nginx core's (`ngx_event_timer.c`), which is not part of the module: the
definitions are what the module relies on of it, the order of the keys with its wrap
and the lazy update of a timer that moves by less than `NGX_TIMER_LAZY_DELAY`. -/

/-- Is `(ngx_msec_int_t) (k - k') < 0`? -/
def before (k k' : UInt64) : Bool := (k - k').toInt64 < 0

/-- Is `ngx_abs((ngx_msec_int_t) (k - k')) < NGX_TIMER_LAZY_DELAY`? -/
def close (k k' : UInt64) : Bool := (k - k').toInt64.abs < 300

/-- `ngx_current_msec` and `ngx_event_timer_rbtree` with the fields `timer.key`,
`timer_set` and `timedout` of the events. -/
structure Timers where
  now : UInt64
  queue : TimerQueue UInt64 Nat
  timedout : Nat → Bool

/-- `ngx_event_add_timer` of nginx core. -/
def addTimer (t : Timers) (ev : Nat) (timer : UInt64) : Timers :=
  { t with queue := t.queue.add before close 0 ev (t.now + timer) }

/-- `ngx_event_del_timer` of nginx core. -/
def delTimer (t : Timers) (ev : Nat) : Timers := { t with queue := t.queue.remove ev 0 }

/-- A turn of `ngx_event_expire_timers` of nginx core: the event whose handler is
called next. -/
def expireTimers (t : Timers) : Option (Nat × Timers) :=
  match t.queue.order with
  | [] => none
  | ev :: _ =>
    if (t.queue.key ev - t.now).toInt64 > 0 then none
    else some (ev, { t with
      queue := t.queue.remove ev 0, timedout := Function.update t.timedout ev true })

/-- The memory of the owners: `ev->data` of their events, and what it points to. -/
structure Owners where
  data : Nat → Int
  mem : Int → Nat

/-- `*(ngx_uint_t *) ((char *) ev->data + fpoff)`. -/
def Owners.footprint (o : Owners) (ev : Nat) (fpoff : Int) : Nat := o.mem (o.data ev + fpoff)

/-! ## The debug build -/

/-- The arguments `__FILE__` and `__LINE__`. -/
structure Place where
  file : String
  line : Nat
deriving DecidableEq

/-- `ngx_timerd_node_t` without `m` and the fields of `ev` that `Timers` has;
`data` is `ev.data`, which is set together with the handler of `ev`. -/
structure Node where
  next : Option Nat
  footprint : Nat
  fpoff : Int
  data : Option Nat
  posted : Bool
  uev : Nat
  place : Place

def zeroNode : Node := ⟨none, 0, 0, none, false, 0, ⟨"", 0⟩⟩

/-- The static variables of the module, its nodes, and the flags of the user's
events.  `running` is the node whose user handler is running; `called` are the
user handlers that were called, the last one first. -/
structure Debug where
  timers : Timers
  owners : Owners
  timerSet : Nat → Bool
  timedout : Nat → Bool
  /-- `ngx_timerd_pool != NULL` -/
  pool : Bool
  map : NgxMap.Map Nat
  freeNode : Option Nat
  nalloc : Nat
  nfree : Nat
  node : Nat → Node
  running : Option Nat
  called : List Nat

/-- `ngx_timerd_init`, when `ngx_create_pool` returns a pool. -/
def timerdInit (d : Debug) : Debug :=
  { d with
    pool := true
    map := { d.map with root := .nil }
    freeNode := none
    nalloc := 0
    nfree := 0 }

/-- The node `n` with zero bytes. -/
def Debug.zero (d : Debug) (n : Nat) : Debug :=
  { d with
    node := Function.update d.node n zeroNode
    timers := { d.timers with
      queue := d.timers.queue.reset n 0
      timedout := Function.update d.timers.timedout n false } }

/-- `ngx_timerd_get_node`, when the pool has memory for the node. -/
def getNode (d : Debug) : Nat × Debug :=
  match d.freeNode with
  | none => (d.nalloc, { d.zero d.nalloc with nalloc := d.nalloc + 1 })
  | some n => (n, { d.zero n with freeNode := (d.node n).next, nfree := d.nfree - 1 })

/-- `ngx_timerd_put_node`. -/
def putNode (d : Debug) (n : Nat) : Debug :=
  if d.pool = false then d
  else { d with
    node := Function.update d.node n { d.node n with next := d.freeNode }
    freeNode := some n
    nfree := d.nfree + 1 }

section
variable (core : NgxMap.Rbtree) (hash : Nat → Nat)

/-- `ngx_timerd_wrap` up to the call of the user's handler; `none` if the event
has no node. -/
def timerdWrap (d : Debug) (ev : Nat) : Option Debug :=
  match (d.node ev).data with
  | none => none
  | some n =>
    let uev := (d.node n).uev
    if d.owners.footprint uev (d.node n).fpoff ≠ (d.node n).footprint then some d
    else some { d with
      map := NgxMap.delete core hash compare d.map uev
      timerSet := Function.update d.timerSet uev false
      timedout := Function.update d.timedout uev true
      running := some n
      called := uev :: d.called }

/-- `ngx_add_timer_debug`. -/
def addTimerDebug (d : Debug) (ev : Nat) (timer : UInt64) (fpoff : Int) (place : Place) :
    Option Debug :=
  let d := if d.pool then d else timerdInit d
  let fp := d.owners.footprint ev fpoff
  let arm (d : Debug) (n : Nat) : Debug :=
    { d with
      timerSet := Function.update d.timerSet ev true, timers := addTimer d.timers n timer }
  match NgxMap.find hash compare d.map ev with
  | none =>
    let (n, d) := getNode d
    let mem := Function.update d.map.mem n ⟨0, ev⟩
    (NgxMap.insert core hash compare { d.map with mem } n false).map fun map =>
      arm { d with
        map
        node := Function.update d.node n
          { d.node n with footprint := fp, fpoff, data := some n, uev := ev, place } } n
  | some n => if (d.node n).footprint ≠ fp then some d else some (arm d n)

/-- `ngx_del_timer_debug`. -/
def delTimerDebug (d : Debug) (ev footprint : Nat) : Debug :=
  match NgxMap.find hash compare d.map ev with
  | none => d
  | some n =>
    if (d.node n).footprint ≠ footprint then d
    else
      let d := { d with map := NgxMap.delete core hash compare d.map ev }
      let d :=
        if d.timers.queue.armed n then
          { d with
            timerSet := Function.update d.timerSet ev false, timers := delTimer d.timers n }
        else d
      -- `ngx_delete_posted_event`
      let d :=
        if (d.node n).posted then
          { d with node := Function.update d.node n { d.node n with posted := false } }
        else d
      putNode d n

end

/-! ## Runs -/

/-- What happens in a worker: the time is updated, the owners write their memory
or the flag `timedout` of an event, a timer is added or deleted, nginx looks for
a timer that has expired, and the handler that it has called returns. -/
inductive Label where
  | time (now : UInt64)
  | own (owners : Owners)
  | mark (ev : Nat) (timedout : Bool)
  | add (ev : Nat) (timer : UInt64) (fpoff : Int) (place : Place)
  | del (ev footprint : Nat)
  | expire
  | ret

section
variable (core : NgxMap.Rbtree) (hash : Nat → Nat)

def Debug.step (d : Debug) : Label → Option Debug
  | .time now => some { d with timers := { d.timers with now } }
  | .own owners => some { d with owners }
  | .mark ev timedout => some { d with timedout := Function.update d.timedout ev timedout }
  | .add ev timer fpoff place => addTimerDebug core hash d ev timer fpoff place
  | .del ev footprint => some (delTimerDebug core hash d ev footprint)
  | .expire =>
    if d.running = none then
      match expireTimers d.timers with
      | none => some d
      | some (ev, timers) => timerdWrap core hash { d with timers } ev
    else none
  | .ret =>
    match d.running with
    | none => none
    | some n => some { putNode d n with running := none }

/-- Nothing is armed. -/
def noTimers (now : UInt64) : Timers := ⟨now, ⟨[], fun _ => 0, fun _ => false⟩, fun _ => false⟩

/-- A worker of the debug build that has added no timer. -/
def debug (now : UInt64) (owners : Owners) : Machine Debug Label where
  start := {
    timers := noTimers now, owners
    timerSet := fun _ => false, timedout := fun _ => false
    pool := false, map := ⟨.nil, fun _ => ⟨0, 0⟩, fun _ => false⟩
    freeNode := none, nalloc := 0, nfree := 0, node := fun _ => zeroNode
    running := none, called := [] }
  step := Debug.step core hash

end

/-- The release build.  `fpoff` is where the owner of a pending timer keeps its
footprint, as it has told with the first add; no step reads it. -/
structure Release where
  timers : Timers
  owners : Owners
  running : Option Nat
  called : List Nat
  fpoff : Nat → Int

/-- Is the timer of `ev` pending? -/
def Release.pending (r : Release) (ev : Nat) : Bool := r.timers.queue.armed ev

def Release.step (r : Release) : Label → Option Release
  | .time now => some { r with timers := { r.timers with now } }
  | .own owners => some { r with owners }
  | .mark ev timedout => some { r with
      timers := { r.timers with timedout := Function.update r.timers.timedout ev timedout } }
  | .add ev timer fpoff _ => some { r with
      timers := addTimer r.timers ev timer
      fpoff := if r.pending ev then r.fpoff else Function.update r.fpoff ev fpoff }
  | .del ev _ => some { r with timers := delTimer r.timers ev }
  | .expire =>
    if r.running = none then
      match expireTimers r.timers with
      | none => some r
      | some (ev, timers) => some { r with timers, running := some ev, called := ev :: r.called }
    else none
  | .ret => if r.running = none then none else some { r with running := none }

def release (now : UInt64) (owners : Owners) : Machine Release Label where
  start := {
    timers := noTimers now, owners, running := none, called := [], fpoff := fun _ => 0 }
  step := Release.step

/-- The footprint of a pending timer. -/
def Release.footprint (r : Release) (ev : Nat) : Nat := r.owners.footprint ev (r.fpoff ev)

/-- The owners keep the footprints of pending timers where they are and as they
are, and delete pending timers only, with their footprints. -/
def Owned (r : Release) : Label → Prop
  | .own owners =>
    ∀ ev, r.pending ev = true → owners.footprint ev (r.fpoff ev) = r.footprint ev
  | .add ev _ fpoff _ => r.pending ev = true → fpoff = r.fpoff ev
  | .del ev footprint => r.pending ev = true ∧ footprint = r.footprint ev
  | _ => True

end NgxToolkit.Timerd
