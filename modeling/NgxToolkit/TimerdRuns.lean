import Mathlib.Tactic.Common
import NgxToolkit.Timerd

/-! The debug build of the timers simulates the release build.

`Sim r d` relates two workers: the armed nodes of `d` are the pending events of
`r` in the same order and with the same keys, the map finds the nodes of just
these events, and each of them holds the footprint of its owner.  Every call
keeps it (`Sim.step`). -/

namespace NgxToolkit.Timerd

open Lib

variable {core : NgxMap.Rbtree} {hash : Nat → Nat}

/-- The events of the user, by their nodes. -/
def Debug.uev (d : Debug) (n : Nat) : Nat := (d.node n).uev

def Debug.next (d : Debug) (n : Nat) : Option Nat := (d.node n).next

/-- What the node `n` of a pending timer holds. -/
structure Armed (fpoff : Nat → Int) (footprint : Nat → Nat) (x : Node) (n : Nat) : Prop where
  data : x.data = some n
  posted : x.posted = false
  fpoff : x.fpoff = fpoff x.uev
  footprint : x.footprint = footprint x.uev

/-- The free list `l` has no node that is armed or whose handler is running. -/
def FreeList (next : Nat → Option Nat) (freeNode : Option Nat) (l : List Nat) (nalloc : Nat)
    (used : List Nat) : Prop :=
  Pool next (fun _ : Unit => freeNode) (fun _ => l) nalloc used

structure Sim (hash : Nat → Nat) (r : Release) (d : Debug) : Prop where
  now : d.timers.now = r.timers.now
  owners : d.owners = r.owners
  called : d.called = r.called
  timerSet : d.timerSet = r.timers.queue.armed
  timedout : d.timedout = r.timers.timedout
  queue : Image d.uev d.timers.queue r.timers.queue
  armed : ∀ n ∈ d.timers.queue.order, Armed r.fpoff r.footprint (d.node n) n
  sorted : NgxMap.Inv hash compare d.map
  find : ∀ ev n, NgxMap.find hash compare d.map ev = some n ↔
    n ∈ d.timers.queue.order ∧ d.uev n = ev
  free : ∃ l, FreeList d.next d.freeNode l d.nalloc (d.running.toList ++ d.timers.queue.order)
  running : r.running = d.running.map d.uev
  /-- before the first add there is nothing -/
  off : d.pool = false →
    d.map.root = .nil ∧ d.freeNode = none ∧ d.nalloc = 0 ∧ d.nfree = 0

section
variable {r r' : Release} {d d' : Debug}

/-! ## Lookups -/

theorem Sim.find_none (h : Sim hash r d) {ev : Nat} :
    NgxMap.find hash compare d.map ev = none ↔ r.pending ev = false := by
  rw [Option.eq_none_iff_forall_ne_some, ← Bool.not_eq_true]
  unfold Release.pending
  rw [h.queue.right, h.queue.mem, not_exists]
  exact forall_congr' fun n => not_congr (h.find ev n)

/-- The node of a pending timer. -/
theorem Sim.find_some (h : Sim hash r d) {ev : Nat} (hp : r.pending ev = true) :
    ∃ n, NgxMap.find hash compare d.map ev = some n ∧ n ∈ d.timers.queue.order ∧ d.uev n = ev := by
  unfold Release.pending at hp
  obtain ⟨n, hn, he⟩ := h.queue.mem.mp ((h.queue.right ev).mp hp)
  exact ⟨n, (h.find ev n).mpr ⟨hn, he⟩, hn, he⟩

/-- The nodes in the map are armed. -/
theorem Sim.linked (h : Sim hash r d) {n : Nat} (hn : n ∈ d.map.linked) :
    n ∈ d.timers.queue.order :=
  ((h.find _ n).mp (NgxMap.find_rawKey h.sorted hn)).1

/-- After the first call the module is initialised. -/
theorem Sim.init (h : Sim hash r d) : Sim hash r (if d.pool then d else timerdInit d) := by
  by_cases hp : d.pool = true
  · rw [if_pos hp]
    exact h
  · rw [if_neg hp]
    simp only [Bool.not_eq_true] at hp
    obtain ⟨hroot, hfree, hnalloc, hnfree⟩ := h.off hp
    have heq : timerdInit d = { d with pool := true } := by
      unfold timerdInit
      rw [hfree, hnalloc, hnfree, ← hroot]
    rw [heq]
    exact ⟨h.now, h.owners, h.called, h.timerSet, h.timedout, h.queue, h.armed, h.sorted, h.find,
      h.free, h.running, fun hf => (by cases hf)⟩

/-! ## Steps of the owners -/

theorem Sim.time (h : Sim hash r d) (now : UInt64) :
    Sim hash { r with timers := { r.timers with now } } { d with timers := { d.timers with now } } :=
  ⟨rfl, h.owners, h.called, h.timerSet, h.timedout, h.queue, h.armed, h.sorted, h.find, h.free,
    h.running, h.off⟩

theorem Sim.mark (h : Sim hash r d) (ev : Nat) (timedout : Bool) :
    Sim hash
      { r with timers := { r.timers with timedout := Function.update r.timers.timedout ev timedout } }
      { d with timedout := Function.update d.timedout ev timedout } :=
  ⟨h.now, h.owners, h.called, h.timerSet, congrArg (Function.update · ev timedout) h.timedout,
    h.queue, h.armed, h.sorted, h.find, h.free, h.running, h.off⟩

theorem Sim.own (h : Sim hash r d) {owners : Owners} (hok : Owned r (.own owners)) :
    Sim hash { r with owners } { d with owners } := by
  refine ⟨h.now, rfl, h.called, h.timerSet, h.timedout, h.queue, fun n hn => ?_, h.sorted, h.find,
    h.free, h.running, h.off⟩
  have ha := h.armed n hn
  have hp : r.pending (d.uev n) = true := (h.queue.right _).mpr (h.queue.mem.mpr ⟨n, hn, rfl⟩)
  exact ⟨ha.data, ha.posted, ha.fpoff, ha.footprint.trans (hok _ hp).symm⟩

/-! ## Nodes -/

theorem uev_update (d : Debug) (n : Nat) (x : Node) :
    (fun m => (Function.update d.node n x m).uev) = Function.update d.uev n x.uev := by
  funext m
  by_cases hm : m = n
  · subst hm
    rw [Function.update_self, Function.update_self]
  · rw [Function.update_of_ne hm, Function.update_of_ne hm]
    rfl

theorem next_update (d : Debug) (n : Nat) (x : Node) :
    (fun m => (Function.update d.node n x m).next) = Function.update d.next n x.next := by
  funext m
  by_cases hm : m = n
  · subst hm
    rw [Function.update_self, Function.update_self]
  · rw [Function.update_of_ne hm, Function.update_of_ne hm]
    rfl

theorem update_unit {α : Type} (f : Unit → α) (a : α) : Function.update f () a = fun _ => a :=
  Function.update_eq_const_of_subsingleton _ _ _

/-- A node that is taken is not armed, and the rest of the free list is one. -/
theorem Sim.getNode (h : Sim hash r d) :
    ∃ n d' l, getNode d = (n, d') ∧ n ∉ d.timers.queue.order ∧ d.running ≠ some n ∧
      (∃ freeNode nalloc nfree, d' = { d.zero n with freeNode, nalloc, nfree }) ∧
      FreeList d'.next d'.freeNode l d'.nalloc
        (n :: (d.running.toList ++ d.timers.queue.order)) := by
  obtain ⟨l, hl⟩ := h.free
  have hnext : ∀ n, (d.zero n).next = Function.update d.next n none := fun n =>
    next_update d n zeroNode
  unfold Timerd.getNode
  cases hf : d.freeNode with
  | none =>
    have hoff : ∀ a ∈ d.running.toList ++ d.timers.queue.order, a ≠ d.nalloc := fun a ha e =>
      Nat.lt_irrefl d.nalloc (e ▸ (hl.off a ha).1)
    refine ⟨d.nalloc, _, l, rfl, fun hn => ?_, fun hr => ?_, ⟨_, _, _, rfl⟩, ?_⟩
    · exact hoff _ (List.mem_append_right _ hn) rfl
    · refine hoff d.nalloc (List.mem_append_left _ ?_) rfl
      rw [hr]
      exact List.mem_cons_self
    · have halloc := hl.alloc none
      rw [← hnext] at halloc
      exact halloc
  | some n =>
    have hhead : d.freeNode = l.head? := hl.chains.head_eq ()
    rw [hf] at hhead
    obtain ⟨l', hl'⟩ := List.head?_eq_some_iff.mp hhead.symm
    have hn : n ∈ l := by
      rw [hl']
      exact List.mem_cons_self
    refine ⟨n, _, l', rfl, fun ho => ?_, fun hr => ?_, ⟨_, _, _, rfl⟩, ?_⟩
    · exact (hl.off n (List.mem_append_right _ ho)).2 () hn
    · refine (hl.off n (List.mem_append_left _ ?_)).2 () hn
      rw [hr]
      exact List.mem_cons_self
    · have hpop := (hl.pop (i := ()) hl').write List.mem_cons_self none
      rw [← hnext, update_unit, update_unit] at hpop
      exact hpop

/-- An index of the armed nodes by their events, after the node `n` is armed for `ev`. -/
theorem index_insert {f : Nat → Option Nat} {order : List Nat} {uev : Nat → Nat} {n ev : Nat}
    (hf : ∀ e m, f e = some m ↔ m ∈ order ∧ uev m = e) (hn : n ∉ order)
    (hev : ∀ m ∈ order, uev m ≠ ev) (e m : Nat) :
    (if e = ev then some n else f e) = some m ↔
      (m = n ∨ m ∈ order) ∧ Function.update uev n ev m = e := by
  by_cases he : e = ev
  · subst he
    rw [if_pos rfl, Option.some.injEq]
    constructor
    · rintro rfl
      exact ⟨.inl rfl, Function.update_self _ _ _⟩
    · rintro ⟨rfl | hm, hu⟩
      · rfl
      · rw [Function.update_of_ne (ne_of_mem_of_not_mem hm hn)] at hu
        exact absurd hu (hev m hm)
  · rw [if_neg he, hf]
    by_cases hmn : m = n
    · subst hmn
      rw [Function.update_self]
      exact ⟨fun hm => absurd hm.1 hn, fun hm => absurd hm.2.symm he⟩
    · rw [Function.update_of_ne hmn]
      simp [hmn]

/-- The node of another event stays armed when `ev` records another offset. -/
theorem Armed.update {owners : Owners} {fpoff : Nat → Int} {x : Node} {n ev : Nat}
    (h : Armed fpoff (fun e => owners.footprint e (fpoff e)) x n) (hev : x.uev ≠ ev) (off : Int) :
    Armed (Function.update fpoff ev off)
      (fun e => owners.footprint e (Function.update fpoff ev off e)) x n := by
  have hoff : Function.update fpoff ev off x.uev = fpoff x.uev := Function.update_of_ne hev _ _
  refine ⟨h.data, h.posted, h.fpoff.trans hoff.symm, ?_⟩
  rw [hoff]
  exact h.footprint

/-! ## Steps of the timers -/

/-- A free node is armed and linked for an event that is not pending. -/
theorem Sim.arm (h : Sim hash r d) (hpool : d.pool = true) {ev n nalloc : Nat} (nfree : Nat)
    {freeNode : Option Nat} {l : List Nat} {map' : NgxMap.Map Nat} {x : Node}
    (hp : r.pending ev = false) (timer : UInt64) (fpoff : Int) (place : Place)
    (hn : n ∉ d.timers.queue.order) (hr : d.running ≠ some n)
    (hl : FreeList (d.zero n).next freeNode l nalloc
      (n :: (d.running.toList ++ d.timers.queue.order)))
    (hsorted : NgxMap.Inv hash compare map')
    (hfind : ∀ e, NgxMap.find hash compare map' e =
      if e = ev then some n else NgxMap.find hash compare d.map e)
    (hx : x = { zeroNode with
      footprint := d.owners.footprint ev fpoff, fpoff, data := some n, uev := ev, place }) :
    Sim hash
      { r with
        timers := addTimer r.timers ev timer, fpoff := Function.update r.fpoff ev fpoff }
      { d.zero n with
        freeNode, nalloc, nfree, map := map'
        node := Function.update d.node n x
        timerSet := Function.update d.timerSet ev true
        timers := addTimer (d.zero n).timers n timer } := by
  have huev : (fun m => (Function.update d.node n x m).uev) = Function.update d.uev n ev := by
    rw [uev_update, hx]
  have hne : ∀ m ∈ d.timers.queue.order, m ≠ n := fun m hm e => hn (e ▸ hm)
  have hev : ev ∉ r.timers.queue.order := fun hm => by
    unfold Release.pending at hp
    rw [(h.queue.right ev).mpr hm] at hp
    cases hp
  have huevs : ∀ m ∈ d.timers.queue.order, d.uev m ≠ ev := fun m hm e =>
    hev (h.queue.mem.mpr ⟨m, hm, e⟩)
  have hqueue : (addTimer (d.zero n).timers n timer).queue =
      (d.timers.queue.reset n 0).insert before n (r.timers.now + timer) := by
    rw [← h.now]
    exact TimerQueue.add_new (Function.update_self _ _ _) _ _
  have hqueue' : (addTimer r.timers ev timer).queue =
      r.timers.queue.insert before ev (r.timers.now + timer) := TimerQueue.add_new hp _ _
  have horder : ∀ m, m ∈ (addTimer (d.zero n).timers n timer).queue.order ↔
      m = n ∨ m ∈ d.timers.queue.order := fun m => by
    rw [hqueue]
    exact mem_place
  refine ⟨h.now, h.owners, h.called, ?_, h.timedout, ?_, fun m hm => ?_, hsorted, fun e m => ?_,
    ⟨l, ?_⟩, ?_, fun hf => absurd (hpool.symm.trans hf) (by decide)⟩
  · rw [hqueue', h.timerSet]
    rfl
  · show Image (fun m => (Function.update d.node n x m).uev)
      (addTimer (d.zero n).timers n timer).queue (addTimer r.timers ev timer).queue
    rw [huev, hqueue, hqueue']
    have hreset := (h.queue.congr fun m hm => Function.update_of_ne (hne m hm) ev d.uev).reset hn 0
    have himage : Image _ ((d.timers.queue.reset n 0).insert before n (r.timers.now + timer)) _ :=
      hreset.insert hn (by rwa [Function.update_self]) (r.timers.now + timer)
    rwa [Function.update_self] at himage
  · dsimp only
    by_cases hmn : m = n
    · subst hmn
      rw [Function.update_self, hx]
      refine ⟨rfl, rfl, ?_, ?_⟩
      · show fpoff = Function.update r.fpoff ev fpoff ev
        rw [Function.update_self]
      · show _ = r.owners.footprint ev (Function.update r.fpoff ev fpoff ev)
        rw [Function.update_self, h.owners]
    · have ho := ((horder m).mp hm).resolve_left hmn
      rw [Function.update_of_ne hmn]
      exact (h.armed m ho).update (huevs m ho) fpoff
  · have huevm : (Function.update d.node n x m).uev = Function.update d.uev n ev m :=
      congrFun huev m
    show _ ↔ m ∈ (addTimer (d.zero n).timers n timer).queue.order ∧
      (Function.update d.node n x m).uev = e
    rw [hfind, horder, huevm]
    exact index_insert h.find hn huevs e m
  · have hnext : (fun m => (Function.update d.node n x m).next) = (d.zero n).next := by
      rw [next_update, hx]
      exact (next_update d n zeroNode).symm
    show FreeList (fun m => (Function.update d.node n x m).next) freeNode l nalloc
      (d.running.toList ++ (addTimer (d.zero n).timers n timer).queue.order)
    rw [hnext, hqueue]
    refine Pool.perm hl ?_
    exact ((place_perm (l := d.timers.queue.order)).append_left d.running.toList).trans
      List.perm_middle
  · show r.running = d.running.map fun m => (Function.update d.node n x m).uev
    rw [huev, h.running]
    refine Option.map_congr fun m hm => ?_
    have hmn : m ≠ n := fun e => hr (by rw [← e, hm])
    rw [Function.update_of_ne hmn]

/-- The timer of an event that is not pending is added. -/
theorem Sim.addNew (h : Sim hash r d) (hpool : d.pool = true) {ev : Nat}
    (hp : r.pending ev = false) (timer : UInt64) (fpoff : Int) (place : Place) :
    ∃ d', addTimerDebug core hash d ev timer fpoff place = some d' ∧
      Sim hash { r with
        timers := addTimer r.timers ev timer, fpoff := Function.update r.fpoff ev fpoff } d' := by
  obtain ⟨n, d1, l, hg, hn, hr, ⟨freeNode, nalloc, nfree, rfl⟩, hl⟩ := h.getNode
  have hnone := h.find_none.mpr hp
  have hnl : n ∉ d.map.linked := fun hm => hn (h.linked hm)
  obtain ⟨map', hins, hsorted, hfind⟩ :=
    NgxMap.insert_new core h.sorted hnl hnone ⟨0, ev⟩ rfl
  -- the node that the timer gets
  obtain ⟨x, hx⟩ : ∃ x : Node, x = { zeroNode with
    footprint := d.owners.footprint ev fpoff, fpoff, data := some n, uev := ev, place } := ⟨_, rfl⟩
  have hself : (d.zero n).node n = zeroNode := Function.update_self _ _ _
  have hmap : (d.zero n).map = d.map := rfl
  have hnode : Function.update (d.zero n).node n x = Function.update d.node n x :=
    Function.update_idem _ _ _
  refine ⟨_, ?_, h.arm hpool nfree hp timer fpoff place hn hr hl hsorted hfind hx⟩
  unfold addTimerDebug
  simp only [if_pos hpool, hnone, hg, hmap, hins, hself, ← hx, Option.map_some, hnode]
  rfl

/-- The timer of a pending event is added again. -/
theorem Sim.addAgain (h : Sim hash r d) (hpool : d.pool = true) {ev : Nat}
    (hp : r.pending ev = true) (timer : UInt64) (place : Place) :
    ∃ d', addTimerDebug core hash d ev timer (r.fpoff ev) place = some d' ∧
      Sim hash { r with timers := addTimer r.timers ev timer } d' := by
  obtain ⟨n, hf, hn, hu⟩ := h.find_some hp
  have ha := h.armed n hn
  have hfp : (d.node n).footprint = d.owners.footprint ev (r.fpoff ev) := by
    rw [ha.footprint, h.owners]
    show r.footprint (d.uev n) = r.footprint ev
    rw [hu]
  have hres : addTimerDebug core hash d ev timer (r.fpoff ev) place = some { d with
      timerSet := Function.update d.timerSet ev true, timers := addTimer d.timers n timer } := by
    unfold addTimerDebug
    simp only [if_pos hpool, hf, hfp, ne_eq, not_true_eq_false, if_false]
  have hperm : (addTimer d.timers n timer).queue.order.Perm d.timers.queue.order :=
    h.queue.add_perm hn _ _
  refine ⟨_, hres, h.now, h.owners, h.called, ?_, h.timedout, ?_, fun m hm => ?_, h.sorted,
    fun e m => ?_, ?_, h.running, h.off⟩
  · rw [h.timerSet]
    exact (TimerQueue.add_armed _ _).symm
  · have himage : Image d.uev (d.timers.queue.add before close 0 n (r.timers.now + timer)) _ :=
      h.queue.add hn 0 (r.timers.now + timer)
    rw [hu] at himage
    show Image d.uev (d.timers.queue.add before close 0 n (d.timers.now + timer)) _
    rw [h.now]
    exact himage
  · exact h.armed m (hperm.mem_iff.mp hm)
  · show _ ↔ m ∈ (addTimer d.timers n timer).queue.order ∧ d.uev m = e
    rw [hperm.mem_iff]
    exact h.find e m
  · obtain ⟨l, hl⟩ := h.free
    exact ⟨l, Pool.perm hl (hperm.append_left _)⟩

/-- `NGX_ADD_TIMER`. -/
theorem Sim.add (h : Sim hash r d) {ev : Nat} {timer : UInt64} {fpoff : Int} {place : Place}
    (hok : Owned r (.add ev timer fpoff place)) (hr : r.step (.add ev timer fpoff place) = some r') :
    ∃ d', addTimerDebug core hash d ev timer fpoff place = some d' ∧ Sim hash r' d' := by
  have hinit := h.init
  have hpool : (if d.pool then d else timerdInit d).pool = true := by
    split
    · assumption
    · rfl
  have heq : addTimerDebug core hash d ev timer fpoff place =
      addTimerDebug core hash (if d.pool then d else timerdInit d) ev timer fpoff place := by
    conv_rhs => unfold addTimerDebug
    rw [if_pos hpool]
    rfl
  rw [heq]
  cases hr
  cases hp : r.pending ev with
  | false => exact hinit.addNew hpool hp timer fpoff place
  | true =>
    obtain rfl : fpoff = r.fpoff ev := hok hp
    exact hinit.addAgain hpool hp timer place

/-- A node whose timer was pending is put on the free list. -/
theorem FreeList.put {next : Nat → Option Nat} {freeNode : Option Nat} {l used used' : List Nat}
    {nalloc n : Nat} (h : FreeList next freeNode l nalloc used) (hp : used.Perm (n :: used')) :
    FreeList (Function.update next n freeNode) (some n) (n :: l) nalloc used' := by
  have hpush := (Pool.perm h hp.symm).push ()
  rw [update_unit, update_unit] at hpush
  exact hpush

/-- If a node is in use, the module is initialised. -/
theorem Sim.pool (h : Sim hash r d) {n : Nat}
    (hn : n ∈ d.running.toList ++ d.timers.queue.order) : d.pool = true := by
  by_contra hp
  simp only [Bool.not_eq_true] at hp
  obtain ⟨l, hl⟩ := h.free
  have hlt := (hl.off n hn).1
  rw [(h.off hp).2.2.1] at hlt
  exact Nat.not_lt_zero n hlt

variable (core) in
/-- The timer of a node is disarmed, and the node leaves the map. -/
theorem Sim.take (h : Sim hash r d) {n : Nat} (hn : n ∈ d.timers.queue.order) :
    Sim hash { r with timers := delTimer r.timers (d.uev n) }
      { d with
        map := NgxMap.delete core hash compare d.map (d.uev n)
        timerSet := Function.update d.timerSet (d.uev n) false
        timers := delTimer d.timers n } ∧
    ∃ l, FreeList d.next d.freeNode l d.nalloc
      (n :: (d.running.toList ++ (delTimer d.timers n).queue.order)) := by
  have hmem : ∀ m, m ∈ (delTimer d.timers n).queue.order ↔ m ≠ n ∧ m ∈ d.timers.queue.order :=
    fun m => h.queue.nodup_left.mem_erase_iff
  have hperm : (d.running.toList ++ d.timers.queue.order).Perm
      (n :: (d.running.toList ++ (delTimer d.timers n).queue.order)) :=
    ((List.perm_cons_erase hn).append_left _).trans List.perm_middle
  obtain ⟨l, hl⟩ := h.free
  have hl' := Pool.perm hl hperm.symm
  refine ⟨⟨h.now, h.owners, h.called, ?_, h.timedout, h.queue.remove hn 0, fun m hm => ?_,
    (h.sorted.delete core _).1, fun e m => ?_, ⟨l, ?_⟩, h.running, fun hf => ?_⟩, l, hl'⟩
  · rw [h.timerSet]
    rfl
  · exact h.armed m ((hmem m).mp hm).2
  · show _ ↔ m ∈ (delTimer d.timers n).queue.order ∧ d.uev m = e
    rw [NgxMap.find_delete h.sorted, hmem]
    simp only [NgxMap.keyCmp_eq]
    by_cases he : e = d.uev n
    · rw [if_pos he]
      refine ⟨fun hc => (by cases hc), fun ⟨⟨hne, hm⟩, hu⟩ => ?_⟩
      exact absurd (h.queue.inj hm hn (hu.trans he)) hne
    · rw [if_neg he, h.find]
      refine ⟨fun ⟨hm, hu⟩ => ⟨⟨fun e' => he ?_, hm⟩, hu⟩, fun hm => ⟨hm.1.2, hm.2⟩⟩
      rw [← hu, e']
  · exact ⟨hl'.chains, hl'.lt, (List.nodup_cons.mp hl'.nodup).2,
      fun a ha => hl'.off a (List.mem_cons_of_mem _ ha)⟩
  · exact absurd (h.pool (List.mem_append_right _ hn)) (by rw [hf]; decide)

/-- A node that is not in use any more goes back to the free list. -/
theorem Sim.put (h : Sim hash r d) {n : Nat} {l : List Nat} (hpool : d.pool = true)
    (hl : FreeList d.next d.freeNode l d.nalloc
      (n :: (d.running.toList ++ d.timers.queue.order))) : Sim hash r (putNode d n) := by
  have hn := (List.nodup_cons.mp hl.nodup).1
  rw [List.mem_append, not_or] at hn
  have huev : (fun m => (Function.update d.node n { d.node n with next := d.freeNode } m).uev) =
      d.uev := (uev_update d n _).trans (Function.update_eq_self n d.uev)
  have hnext : (fun m => (Function.update d.node n { d.node n with next := d.freeNode } m).next) =
      Function.update d.next n d.freeNode := next_update d n _
  have heq : putNode d n = { d with
      node := Function.update d.node n { d.node n with next := d.freeNode }
      freeNode := some n
      nfree := d.nfree + 1 } := by
    unfold putNode
    rw [if_neg (by simp [hpool])]
  rw [heq]
  refine ⟨h.now, h.owners, h.called, h.timerSet, h.timedout, ?_, fun m hm => ?_, h.sorted,
    fun e m => ?_, ⟨n :: l, ?_⟩, ?_, fun hf => absurd (hpool.symm.trans hf) (by decide)⟩
  · show Image (fun m => (Function.update d.node n _ m).uev) _ _
    rw [huev]
    exact h.queue
  · have hmn : m ≠ n := fun e => hn.2 (e ▸ hm)
    dsimp only
    rw [Function.update_of_ne hmn]
    exact h.armed m hm
  · show _ ↔ m ∈ d.timers.queue.order ∧ (fun m => (Function.update d.node n _ m).uev) m = e
    rw [huev]
    exact h.find e m
  · show FreeList (fun m => (Function.update d.node n _ m).next) (some n) (n :: l) d.nalloc _
    rw [hnext]
    exact hl.put (.refl _)
  · show r.running = d.running.map fun m => (Function.update d.node n _ m).uev
    rw [huev]
    exact h.running

/-- `NGX_DEL_TIMER`. -/
theorem Sim.del (h : Sim hash r d) {ev footprint : Nat} (hok : Owned r (.del ev footprint)) :
    Sim hash { r with timers := delTimer r.timers ev } (delTimerDebug core hash d ev footprint) := by
  obtain ⟨hp, rfl⟩ := hok
  obtain ⟨n, hf, hn, rfl⟩ := h.find_some hp
  obtain ⟨hs, l, hl⟩ := h.take core hn
  have ha := h.armed n hn
  have hset : d.timers.queue.armed n = true := (h.queue.left n).mpr hn
  have hfp : (d.node n).footprint = r.footprint (d.uev n) := ha.footprint
  have hres : delTimerDebug core hash d (d.uev n) (r.footprint (d.uev n)) = putNode { d with
      map := NgxMap.delete core hash compare d.map (d.uev n)
      timerSet := Function.update d.timerSet (d.uev n) false
      timers := delTimer d.timers n } n := by
    unfold delTimerDebug
    simp only [hf, hfp, ne_eq, not_true_eq_false, if_false, hset, if_true, ha.posted,
      Bool.false_eq_true]
  rw [hres]
  exact hs.put (h.pool (List.mem_append_right _ hn)) hl

/-- A turn of the loop over the timers that have expired. -/
theorem Sim.expire (h : Sim hash r d) (hr : r.step .expire = some r') :
    ∃ d', d.step core hash .expire = some d' ∧ Sim hash r' d' := by
  unfold Release.step at hr
  dsimp only at hr
  by_cases hnone : r.running = none
  swap
  · rw [if_neg hnone] at hr
    cases hr
  rw [if_pos hnone] at hr
  have hrun : d.running = none := by
    have hmap := h.running
    rw [hnone] at hmap
    exact Option.map_eq_none_iff.mp hmap.symm
  have hidle : expireTimers d.timers = none → d.step core hash .expire = some d := fun he => by
    unfold Debug.step
    simp only [if_pos hrun, he]
  have hfire : ∀ ev timers, expireTimers d.timers = some (ev, timers) →
      d.step core hash .expire = timerdWrap core hash { d with timers } ev := fun ev timers he => by
    unfold Debug.step
    simp only [if_pos hrun, he]
  unfold expireTimers at hr
  cases ho : d.timers.queue.order with
  | nil =>
    rw [h.queue.order, ho] at hr
    cases hr
    refine ⟨d, hidle ?_, h⟩
    unfold expireTimers
    rw [ho]
  | cons n ns =>
    have hn : n ∈ d.timers.queue.order := by
      rw [ho]
      exact List.mem_cons_self
    have hkey : r.timers.queue.key (d.uev n) = d.timers.queue.key n := h.queue.key n hn
    rw [h.queue.order, ho, List.map_cons] at hr
    dsimp only at hr
    rw [hkey, ← h.now] at hr
    by_cases hdue : (d.timers.queue.key n - d.timers.now).toInt64 > 0
    · rw [if_pos hdue] at hr
      cases hr
      refine ⟨d, hidle ?_, h⟩
      unfold expireTimers
      simp only [ho, if_pos hdue]
    · rw [if_neg hdue] at hr
      cases hr
      have hexp : expireTimers d.timers = some (n, { d.timers with
          queue := d.timers.queue.remove n 0
          timedout := Function.update d.timers.timedout n true }) := by
        unfold expireTimers
        simp only [ho, if_neg hdue]
      rw [hfire n _ hexp]
      obtain ⟨hs, l, hl⟩ := h.take core hn
      have ha := h.armed n hn
      have hfp : d.owners.footprint (d.node n).uev (d.node n).fpoff = (d.node n).footprint := by
        rw [ha.footprint, ha.fpoff, h.owners]
        rfl
      unfold timerdWrap
      simp only [ha.data, hfp, ne_eq, not_true_eq_false, if_false]
      refine ⟨_, rfl, rfl, h.owners, ?_, hs.timerSet, ?_, hs.queue, hs.armed, hs.sorted, hs.find,
        ⟨l, ?_⟩, rfl, hs.off⟩
      · exact congrArg (d.uev n :: ·) h.called
      · exact congrArg (Function.update · (d.uev n) true) h.timedout
      · rw [hrun] at hl
        exact hl

/-- The handler returns. -/
theorem Sim.ret (h : Sim hash r d) (hr : r.step .ret = some r') :
    ∃ d', d.step core hash .ret = some d' ∧ Sim hash r' d' := by
  unfold Release.step at hr
  dsimp only at hr
  cases hrun : d.running with
  | none =>
    have hmap := h.running
    rw [hrun, Option.map_none] at hmap
    rw [if_pos hmap] at hr
    cases hr
  | some n =>
    rw [if_neg (by rw [h.running, hrun]; simp)] at hr
    cases hr
    have hpool : d.pool = true := h.pool (by rw [hrun]; exact List.mem_cons_self)
    obtain ⟨l, hl⟩ := h.free
    rw [hrun] at hl
    have hfree : FreeList d.next d.freeNode l d.nalloc d.timers.queue.order :=
      ⟨hl.chains, hl.lt, (List.nodup_cons.mp hl.nodup).2,
        fun a ha => hl.off a (List.mem_cons_of_mem _ ha)⟩
    have hs : Sim hash { r with running := none } { d with running := none } :=
      ⟨h.now, h.owners, h.called, h.timerSet, h.timedout, h.queue, h.armed, h.sorted, h.find,
        ⟨l, hfree⟩, rfl, h.off⟩
    refine ⟨_, ?_, hs.put hpool hl⟩
    unfold Debug.step putNode
    simp only [hrun, hpool]
    rfl

/-- **Steps.**  A call that keeps the rules is matched in the debug build. -/
theorem Sim.step (h : Sim hash r d) {i : Label} (hok : Owned r i) (hr : r.step i = some r') :
    ∃ d', d.step core hash i = some d' ∧ Sim hash r' d' := by
  cases i with
  | time now =>
    cases hr
    exact ⟨_, rfl, h.time now⟩
  | own owners =>
    cases hr
    exact ⟨_, rfl, h.own hok⟩
  | mark ev timedout =>
    cases hr
    exact ⟨_, rfl, h.mark ev timedout⟩
  | add ev timer fpoff place => exact h.add hok hr
  | del ev footprint =>
    cases hr
    exact ⟨_, rfl, h.del hok⟩
  | expire => exact h.expire hr
  | ret => exact h.ret hr

end

/-! ## Runs -/

theorem sim_start (now : UInt64) (owners : Owners) :
    Sim hash (release now owners).start (debug core hash now owners).start where
  now := rfl
  owners := rfl
  called := rfl
  timerSet := rfl
  timedout := rfl
  queue := ⟨rfl, List.nodup_nil, fun _ h => (by cases h), fun _ => ⟨fun h => (by cases h),
    fun h => (by cases h)⟩, fun _ => ⟨fun h => (by cases h), fun h => (by cases h)⟩⟩
  armed _ h := by cases h
  sorted := ⟨fun _ h => (by cases h), List.Pairwise.nil⟩
  find _ _ := ⟨fun h => (by cases h), fun h => (by cases h.1)⟩
  free := ⟨[], Pool.empty fun _ => rfl⟩
  running := rfl
  off _ := ⟨rfl, rfl, rfl, rfl⟩

/-- **Simulation.**  In every run of the release build that keeps the rules, the
debug build can do the same; the same handlers were called in the same order,
and `timer_set` and `timedout` of all events are the same. -/
theorem debug_simulates (core : NgxMap.Rbtree) (hash : Nat → Nat) (now : UInt64)
    (owners : Owners) {is : List Label} {r : Release}
    (hok : (release now owners).Meets Owned (release now owners).start is)
    (hr : (release now owners).run (release now owners).start is = some r) :
    ∃ d, (debug core hash now owners).run (debug core hash now owners).start is = some d ∧
      d.called = r.called ∧ d.running.map d.uev = r.running ∧
      d.timerSet = r.timers.queue.armed ∧ d.timedout = r.timers.timedout := by
  obtain ⟨d, hd, hs⟩ := Machine.simulate (M := release now owners)
    (N := debug core hash now owners) (fun hs hok hr => hs.step hok hr) (sim_start now owners) hok hr
  exact ⟨d, hd, hs.called, hs.running.symm, hs.timerSet, hs.timedout⟩

/-- An event is added again by its own handler, which deletes another one. -/
theorem debug_simulates_again : ∃ d : Debug,
    (debug NgxMap.flatRbtree id 0 ⟨fun _ => 0, fun _ => 7⟩).run
      (debug NgxMap.flatRbtree id 0 ⟨fun _ => 0, fun _ => 7⟩).start
      [.add 1 10 0 ⟨"", 0⟩, .add 2 5 0 ⟨"", 0⟩, .time 5, .expire, .add 2 5 0 ⟨"", 0⟩, .del 1 7,
        .ret, .time 10, .expire] = some d ∧
      d.called = [2, 2] ∧ d.running.map d.uev = some 2 ∧ d.timerSet 1 = false := by
  have hok : (release 0 ⟨fun _ => 0, fun _ => 7⟩).Meets Owned
      (release 0 ⟨fun _ => 0, fun _ => 7⟩).start
      [.add 1 10 0 ⟨"", 0⟩, .add 2 5 0 ⟨"", 0⟩, .time 5, .expire, .add 2 5 0 ⟨"", 0⟩, .del 1 7,
        .ret, .time 10, .expire] := by
    refine .cons (fun h => (by cases h)) rfl (.cons (fun h => (by cases h)) rfl ?_)
    refine .cons trivial rfl (.cons trivial rfl (.cons (fun h => (by cases h)) rfl ?_))
    exact .cons ⟨rfl, rfl⟩ rfl (.cons trivial rfl (.cons trivial rfl (.cons trivial rfl trivial)))
  obtain ⟨d, hd, hcalled, hrunning, hset, -⟩ :=
    debug_simulates NgxMap.flatRbtree id 0 ⟨fun _ => 0, fun _ => 7⟩ hok rfl
  exact ⟨d, hd, hcalled, hrunning, congrFun hset 1⟩

end NgxToolkit.Timerd
