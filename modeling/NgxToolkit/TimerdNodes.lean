import Mathlib.Tactic.Common
import NgxToolkit.DebugState
import NgxToolkit.Lib.FreeNodes
import NgxToolkit.TimerdRuns

/-! The nodes of the debug timers (`ngx_timerd.c`) over all runs, with footprints
that do not match, deletions of unknown timers, and handlers that add and delete.

`Nodes hash d held` says that the nodes of the state `d` are those of the map, those
on the free list and the nodes `held`, and that only nodes of the map are armed.

* `reach_accounts`: it holds in every state reached, where the node of the running
  handler is held, and so `ngx_timerd_state` stays in its buffer. -/

namespace NgxToolkit.Timerd

open Lib

variable {core : NgxMap.Rbtree} {hash : Nat → Nat}

structure Nodes (hash : Nat → Nat) (d : Debug) (held : List Nat) : Prop where
  sorted : NgxMap.Inv hash compare d.map
  rawKey : ∀ n ∈ d.map.linked, (d.map.mem n).rawKey = d.uev n
  shadow : ∀ n ∈ d.map.linked, (d.node n).data = some n ∧ (d.node n).posted = false
  queue : Image id d.timers.queue d.timers.queue
  armed : ∀ n ∈ d.timers.queue.order, n ∈ d.map.linked
  free : FreeNodes d.next d.freeNode d.nalloc d.nfree (held ++ d.map.linked)
  /-- before the first add there is nothing -/
  off : d.pool = false → d.map.root = .nil ∧ d.freeNode = none ∧ d.nalloc = 0 ∧ d.nfree = 0

section
variable {d d' : Debug} {held : List Nat}

/-! ## Lookups -/

theorem Nodes.find_iff (h : Nodes hash d held) {ev n : Nat} :
    NgxMap.find hash compare d.map ev = some n ↔ n ∈ d.map.linked ∧ d.uev n = ev := by
  rw [NgxMap.find_eq_some h.sorted, NgxMap.keyCmp_eq]
  refine and_congr_right fun hn => ?_
  rw [h.rawKey n hn]
  exact eq_comm

/-- An event address has at most one node in the map. -/
theorem Nodes.unique (h : Nodes hash d held) {n n' : Nat} (hn : n ∈ d.map.linked)
    (hn' : n' ∈ d.map.linked) (he : d.uev n = d.uev n') : n = n' := by
  have hf := h.find_iff.mpr ⟨hn, he⟩
  rw [h.find_iff.mpr ⟨hn', rfl⟩, Option.some.injEq] at hf
  exact hf.symm

theorem Nodes.armed_iff (h : Nodes hash d held) (n : Nat) :
    d.timers.queue.armed n = true ↔ n ∈ d.timers.queue.order :=
  h.queue.left n

/-- A node that is held is not in the map. -/
theorem Nodes.not_mem {n : Nat} (h : Nodes hash d (n :: held)) : n ∉ d.map.linked := by
  have hnd : n ∉ held ++ d.map.linked := (List.nodup_cons.mp h.free.nodup).1
  rw [List.mem_append, not_or] at hnd
  exact hnd.2

theorem Nodes.pool {n : Nat} (h : Nodes hash d held) (hn : n ∈ held ++ d.map.linked) :
    d.pool = true := by
  by_contra hp
  simp only [Bool.not_eq_true] at hp
  have hlt := h.free.lt hn
  rw [(h.off hp).2.2.1] at hlt
  exact Nat.not_lt_zero n hlt

/-- What the owners and the handlers write. -/
theorem Nodes.frame (h : Nodes hash d held) (owners : Owners) (timerSet timedout : Nat → Bool)
    (running : Option Nat) (called : List Nat) :
    Nodes hash { d with owners, timerSet, timedout, running, called } held :=
  ⟨h.sorted, h.rawKey, h.shadow, h.queue, h.armed, h.free, h.off⟩

/-- The queue changes, and armed nodes are still in the map. -/
theorem Nodes.setTimers (h : Nodes hash d held) (timers : Timers)
    (hq : Image id timers.queue timers.queue) (ha : ∀ n ∈ timers.queue.order, n ∈ d.map.linked) :
    Nodes hash { d with timers } held :=
  ⟨h.sorted, h.rawKey, h.shadow, hq, ha, h.free, h.off⟩

/-! ## Arming -/

theorem Nodes.disarm (h : Nodes hash d held) {n : Nat} (hn : n ∈ d.timers.queue.order)
    (timers : Timers) (ht : timers.queue = d.timers.queue.remove n 0) :
    Nodes hash { d with timers } held := by
  refine h.setTimers timers ?_ fun m hm => ?_
  · rw [ht]
    exact h.queue.remove hn 0
  · rw [ht] at hm
    exact h.armed m (List.mem_of_mem_erase hm)

theorem Nodes.arm (h : Nodes hash d held) {n : Nat} (hn : n ∈ d.map.linked) (timer : UInt64) :
    Nodes hash { d with timers := addTimer d.timers n timer } held := by
  by_cases ho : n ∈ d.timers.queue.order
  · have hperm : (addTimer d.timers n timer).queue.order.Perm d.timers.queue.order :=
      h.queue.add_perm ho _ _
    exact h.setTimers _ (h.queue.add ho 0 _) fun m hm => h.armed m (hperm.mem_iff.mp hm)
  · have hnew : d.timers.queue.armed n = false := by
      rw [← Bool.not_eq_true, h.armed_iff]
      exact ho
    have hq : (addTimer d.timers n timer).queue =
        d.timers.queue.insert before n (d.timers.now + timer) := TimerQueue.add_new hnew _ _
    refine h.setTimers _ ?_ fun m hm => ?_
    · rw [hq]
      exact h.queue.insert ho ho _
    · rw [hq] at hm
      rcases mem_place.mp hm with rfl | hm
      · exact hn
      · exact h.armed m hm

theorem addTimer_armed (t : Timers) (n : Nat) (timer : UInt64) :
    (addTimer t n timer).queue.armed = Function.update t.queue.armed n true :=
  TimerQueue.add_armed _ _

/-! ## The map and the free list -/

/-- After the first call the module is initialised. -/
theorem Nodes.init (h : Nodes hash d held) :
    Nodes hash (if d.pool then d else timerdInit d) held ∧
      (if d.pool then d else timerdInit d).pool = true := by
  by_cases hp : d.pool = true
  · rw [if_pos hp]
    exact ⟨h, hp⟩
  · rw [if_neg hp]
    simp only [Bool.not_eq_true] at hp
    obtain ⟨hroot, hfree, hnalloc, hnfree⟩ := h.off hp
    have heq : timerdInit d = { d with pool := true } := by
      unfold timerdInit
      rw [hfree, hnalloc, hnfree, ← hroot]
    rw [heq]
    exact ⟨⟨h.sorted, h.rawKey, h.shadow, h.queue, h.armed, h.free, fun hf => (by cases hf)⟩, rfl⟩

variable (core) in
/-- `ngx_map_delete` of the address of a node that is not armed. -/
theorem Nodes.unmap (h : Nodes hash d held) {ev n : Nat}
    (hf : NgxMap.find hash compare d.map ev = some n) (hn : n ∉ d.timers.queue.order) :
    Nodes hash { d with map := NgxMap.delete core hash compare d.map ev } (n :: held) := by
  obtain ⟨hsorted, hmem, hraw⟩ := h.sorted.delete core ev
  have hperm := h.sorted.delete_perm core hf
  have hsub : ∀ m ∈ (NgxMap.delete core hash compare d.map ev).linked, m ∈ d.map.linked :=
    fun m hm => ((hmem m).mp hm).1
  refine ⟨hsorted, fun m hm => (hraw m).trans (h.rawKey m (hsub m hm)),
    fun m hm => h.shadow m (hsub m hm), h.queue, fun m hm => ?_, ?_, fun hp => ?_⟩
  · have hmn : m ≠ n := fun e => hn (e ▸ hm)
    exact (List.mem_cons.mp (hperm.mem_iff.mp (h.armed m hm))).resolve_left hmn
  · exact h.free.perm (List.perm_middle.symm.trans (hperm.symm.append_left held))
  · have hlink := (h.find_iff.mp hf).1
    rw [h.pool (List.mem_append_right held hlink)] at hp
    cases hp

/-- A node that is not in the map is written. -/
theorem Nodes.write (h : Nodes hash d held) (hpool : d.pool = true) {n : Nat}
    (hn : n ∉ d.map.linked) (x : Node) {freeNode : Option Nat} {nalloc nfree : Nat}
    {held' : List Nat} (hfree : FreeNodes (Function.update d.next n x.next) freeNode nalloc nfree
      (held' ++ d.map.linked)) :
    Nodes hash { d with node := Function.update d.node n x, freeNode, nalloc, nfree } held' := by
  have hsame : ∀ m ∈ d.map.linked, Function.update d.node n x m = d.node m := fun m hm =>
    Function.update_of_ne (fun e : m = n => hn (e ▸ hm)) _ _
  refine ⟨h.sorted, fun m hm => ?_, fun m hm => ?_, h.queue, h.armed, ?_,
    fun hp => absurd (hpool.symm.trans hp) (by decide)⟩
  · show _ = (Function.update d.node n x m).uev
    rw [hsame m hm]
    exact h.rawKey m hm
  · show (Function.update d.node n x m).data = some m ∧ (Function.update d.node n x m).posted = false
    rw [hsame m hm]
    exact h.shadow m hm
  · show FreeNodes (fun m => (Function.update d.node n x m).next) freeNode nalloc nfree _
    rw [next_update]
    exact hfree

/-- `ngx_timerd_put_node` of a node that is held. -/
theorem Nodes.put {n : Nat} (h : Nodes hash d (n :: held)) : Nodes hash (putNode d n) held := by
  have hpool : d.pool = true := h.pool List.mem_cons_self
  have heq : putNode d n = { d with
      node := Function.update d.node n { d.node n with next := d.freeNode }
      freeNode := some n
      nfree := d.nfree + 1 } := by
    unfold putNode
    rw [if_neg (by simp [hpool])]
  rw [heq]
  exact h.write hpool h.not_mem _ (FreeNodes.put h.free)

theorem getNode_eq (d : Debug) {n nalloc nfree : Nat} {freeNode : Option Nat}
    (ht : takeNode d.next d.freeNode d.nalloc d.nfree = (n, freeNode, nalloc, nfree)) :
    getNode d = (n, { d.zero n with freeNode, nalloc, nfree }) := by
  unfold takeNode at ht
  unfold getNode
  cases hf : d.freeNode with
  | none =>
    have hzero : (d.zero d.nalloc).freeNode = none := hf
    rw [hf] at ht
    cases ht
    exact congrArg (fun freeNode => (d.nalloc,
      { d.zero d.nalloc with freeNode, nalloc := d.nalloc + 1, nfree := d.nfree })) hzero
  | some n =>
    rw [hf] at ht
    cases ht
    rfl

/-- `ngx_timerd_get_node`: the node was free or is new. -/
theorem Nodes.get (h : Nodes hash d held) (hpool : d.pool = true) :
    ∃ n d', getNode d = (n, d') ∧ Nodes hash d' (n :: held) ∧ d'.node n = zeroNode ∧
      ∃ freeNode nalloc nfree, d' = { d.zero n with freeNode, nalloc, nfree } := by
  obtain ⟨⟨n, freeNode, nalloc, nfree⟩, ht⟩ : ∃ t,
      takeNode d.next d.freeNode d.nalloc d.nfree = t := ⟨_, rfl⟩
  obtain ⟨hfree, hn⟩ := h.free.take ht
  rw [List.mem_append, not_or] at hn
  have hno : n ∉ d.timers.queue.order := fun hm => hn.2 (h.armed n hm)
  have hreset : Nodes hash { d with timers := (d.zero n).timers } held :=
    h.setTimers _ (h.queue.reset hno 0).left_self h.armed
  exact ⟨n, _, getNode_eq d ht, hreset.write hpool hn.2 zeroNode hfree, Function.update_self _ _ _,
    freeNode, nalloc, nfree, rfl⟩

variable (core) in
/-- A node that is held is filled in and linked under the address of an event
that has none. -/
theorem Nodes.link {n ev : Nat} (h : Nodes hash d (n :: held))
    (hf : NgxMap.find hash compare d.map ev = none) {x : Node} (hdata : x.data = some n)
    (hposted : x.posted = false) (huev : x.uev = ev) (hnext : x.next = (d.node n).next) :
    ∃ map, NgxMap.insert core hash compare
        { d.map with mem := Function.update d.map.mem n ⟨0, ev⟩ } n false = some map ∧
      map.linked.Perm (n :: d.map.linked) ∧
      Nodes hash { d with map, node := Function.update d.node n x } held := by
  have hn := h.not_mem
  have hkey : (Function.update d.map.mem n ⟨0, ev⟩ n).rawKey = ev := by
    rw [Function.update_self]
  have hnone : NgxMap.find hash compare { d.map with mem := Function.update d.map.mem n ⟨0, ev⟩ }
      (Function.update d.map.mem n ⟨0, ev⟩ n).rawKey = none := by
    rw [hkey, NgxMap.find_write h.sorted hn]
    exact hf
  obtain ⟨map, hins, hsorted, hraw, hperm⟩ :=
    (h.sorted.write hn ⟨0, ev⟩).insert_perm core hn hnone false
  have hlinked : ∀ m, m ∈ map.linked ↔ m = n ∨ m ∈ d.map.linked := fun m => by
    rw [hperm.mem_iff, List.mem_cons]
    rfl
  have hne : ∀ m ∈ d.map.linked, m ≠ n := fun m hm e => hn (e ▸ hm)
  refine ⟨map, hins, hperm, hsorted, fun m hm => ?_, fun m hm => ?_, h.queue,
    fun m hm => (hlinked m).mpr (.inr (h.armed m hm)), ?_,
    fun hp => absurd ((h.pool List.mem_cons_self).symm.trans hp) (by decide)⟩
  · show _ = (Function.update d.node n x m).uev
    rw [hraw]
    show (Function.update d.map.mem n ⟨0, ev⟩ m).rawKey = _
    rcases (hlinked m).mp hm with rfl | hm
    · rw [hkey, Function.update_self, huev]
    · rw [Function.update_of_ne (hne m hm), Function.update_of_ne (hne m hm)]
      exact h.rawKey m hm
  · show (Function.update d.node n x m).data = some m ∧ (Function.update d.node n x m).posted = false
    rcases (hlinked m).mp hm with rfl | hm
    · rw [Function.update_self]
      exact ⟨hdata, hposted⟩
    · rw [Function.update_of_ne (hne m hm)]
      exact h.shadow m hm
  · have hsame : (fun m => (Function.update d.node n x m).next) = d.next := by
      rw [next_update, hnext]
      exact Function.update_eq_self n d.next
    show FreeNodes (fun m => (Function.update d.node n x m).next) d.freeNode d.nalloc d.nfree
      (held ++ map.linked)
    rw [hsame]
    exact h.free.perm ((hperm.append_left held).trans List.perm_middle)

/-! ## Calls -/

/-- A node of the map whose timer is not armed. -/
def Debug.Stale (d : Debug) (n : Nat) : Prop :=
  n ∈ d.map.linked ∧ d.timers.queue.armed n = false

/-- Only the names of the events, the map and the armed nodes matter. -/
theorem Debug.Stale.of_eq {n : Nat} (h : d'.Stale n) (hm : d'.map = d.map)
    (ht : d'.timers.queue = d.timers.queue) : d.Stale n := by
  unfold Debug.Stale at h ⊢
  rwa [hm, ht] at h

theorem Debug.Stale.disarmed {n m : Nat} (h : d'.Stale m)
    (ha : d'.timers.queue.armed = Function.update d.timers.queue.armed n true) :
    m ≠ n ∧ d.timers.queue.armed m = false := by
  have hoff := h.2
  rw [ha] at hoff
  have hmn : m ≠ n := by
    rintro rfl
    rw [Function.update_self] at hoff
    cases hoff
  rw [Function.update_of_ne hmn] at hoff
  exact ⟨hmn, hoff⟩

variable (core) in
/-- `ngx_add_timer_debug` of an event without a node. -/
theorem Nodes.addNew (h : Nodes hash d held) (hpool : d.pool = true) {ev : Nat}
    (hf : NgxMap.find hash compare d.map ev = none) (timer : UInt64) (fpoff : Int) (place : Place) :
    ∃ n d', addTimerDebug core hash d ev timer fpoff place = some d' ∧ Nodes hash d' held ∧
      d'.running = d.running ∧ d'.map.linked.Perm (n :: d.map.linked) ∧ d'.uev n = ev ∧
      d'.timers.queue.armed = Function.update d.timers.queue.armed n true ∧
      d'.owners = d.owners ∧ d'.node = Function.update d.node n { zeroNode with
        footprint := d.owners.footprint ev fpoff, fpoff, data := some n, uev := ev, place } := by
  obtain ⟨n, d1, hget, h1, hzero, freeNode, nalloc, nfree, rfl⟩ := h.get hpool
  -- the node that the timer gets
  obtain ⟨x, hx⟩ : ∃ x : Node, x = { zeroNode with
    footprint := d.owners.footprint ev fpoff, fpoff, data := some n, uev := ev, place } := ⟨_, rfl⟩
  obtain ⟨map, hins, hperm, h2⟩ := h1.link core hf (x := x) (by rw [hx]) (by rw [hx]; rfl)
    (by rw [hx]) (by rw [hx, hzero])
  have h3 := (h2.arm (hperm.mem_iff.mpr List.mem_cons_self) timer).frame d.owners
    (Function.update d.timerSet ev true) d.timedout d.running d.called
  refine ⟨n, _, ?_, h3, rfl, hperm, ?_, ?_, rfl, ?_⟩
  · have hself : (d.zero n).node n = zeroNode := hzero
    have hmap : (d.zero n).map = d.map := rfl
    have hlink : NgxMap.insert core hash compare
        { d.map with mem := Function.update d.map.mem n ⟨0, ev⟩ } n false = some map := hins
    unfold addTimerDebug
    simp only [if_pos hpool, hf, hget, hmap, hself, ← hx, hlink]
    rfl
  · show (Function.update (d.zero n).node n x n).uev = ev
    rw [Function.update_self, hx]
  · exact (addTimer_armed _ _ _).trans (Function.update_idem _ _ _)
  · rw [← hx]
    exact Function.update_idem _ _ _

variable (core) in
/-- The first call of `ngx_add_timer_debug` initialises the module. -/
theorem Nodes.initAdd (h : Nodes hash d held) (ev : Nat) (timer : UInt64) (fpoff : Int)
    (place : Place) :
    ∃ d1, addTimerDebug core hash d ev timer fpoff place =
        addTimerDebug core hash d1 ev timer fpoff place ∧ Nodes hash d1 held ∧ d1.pool = true ∧
      d1.map = d.map ∧ d1.timers = d.timers ∧ d1.running = d.running ∧ d1.owners = d.owners ∧
      d1.node = d.node := by
  obtain ⟨hinit, hpool⟩ := h.init
  obtain ⟨d1, hd1⟩ : ∃ d1, d1 = if d.pool then d else timerdInit d := ⟨_, rfl⟩
  rw [← hd1] at hinit hpool
  refine ⟨d1, ?_, hinit, hpool, ?_, ?_, ?_, ?_, ?_⟩
  · conv_rhs => unfold addTimerDebug
    rw [if_pos hpool, hd1]
    rfl
  · rw [hd1]
    split
    · rfl
    · next hp =>
      have hroot := (h.off (by simpa using hp)).1
      unfold timerdInit
      rw [← hroot]
  all_goals
    rw [hd1]
    split <;> rfl

variable (core) in
/-- `ngx_add_timer_debug`. -/
theorem Nodes.add (h : Nodes hash d held) (ev : Nat) (timer : UInt64) (fpoff : Int)
    (place : Place) :
    ∃ d', addTimerDebug core hash d ev timer fpoff place = some d' ∧ Nodes hash d' held ∧
      d'.running = d.running ∧ (∀ n, d'.Stale n → d.Stale n) ∧
      (NgxMap.find hash compare d.map ev = none →
        ∃ n, NgxMap.find hash compare d'.map ev = some n ∧ d'.timers.queue.armed n = true) := by
  obtain ⟨d1, heq, hinit, hpool, hmap, htimers, hrunning, -⟩ := h.initAdd core ev timer fpoff place
  rw [heq, ← hmap, ← hrunning]
  cases hf : NgxMap.find hash compare d1.map ev with
  | none =>
    obtain ⟨n, d', hadd, h', hrun, hperm, huev, harmed, -⟩ :=
      hinit.addNew core hpool hf timer fpoff place
    have hn : n ∈ d'.map.linked := hperm.mem_iff.mpr List.mem_cons_self
    have hself : d'.timers.queue.armed n = true := by
      rw [harmed, Function.update_self]
    refine ⟨d', hadd, h', hrun, fun m hm => ?_, fun _ => ⟨n, h'.find_iff.mpr ⟨hn, huev⟩, hself⟩⟩
    obtain ⟨hmn, hoff⟩ := hm.disarmed harmed
    have hold := (List.mem_cons.mp (hperm.mem_iff.mp hm.1)).resolve_left hmn
    have hstale : d1.Stale m := ⟨hold, hoff⟩
    exact hstale.of_eq hmap (by rw [htimers])
  | some n =>
    have hlink := (hinit.find_iff.mp hf).1
    unfold addTimerDebug
    simp only [if_pos hpool, hf]
    split
    · exact ⟨d1, rfl, hinit, rfl, fun m hm => hm.of_eq hmap (by rw [htimers]), fun hc => (by cases hc)⟩
    · refine ⟨_, rfl, (hinit.arm hlink timer).frame d1.owners _ d1.timedout d1.running d1.called, rfl,
        fun m hm => ?_, fun hc => (by cases hc)⟩
      have hstale : d1.Stale m := ⟨hm.1, (hm.disarmed (addTimer_armed _ _ _)).2⟩
      exact hstale.of_eq hmap (by rw [htimers])

variable (core) in
/-- A node that leaves the map is not stale, and the others are as before. -/
theorem Nodes.stale_delete (h : Nodes hash d held) {ev n : Nat}
    (hf : NgxMap.find hash compare d.map ev = some n)
    (hm : d'.map = NgxMap.delete core hash compare d.map ev)
    (ha : ∀ m ≠ n, d'.timers.queue.armed m = d.timers.queue.armed m) {m : Nat} (hs : d'.Stale m) :
    d.Stale m := by
  obtain ⟨hlink, hoff⟩ := hs
  have hperm := h.sorted.delete_perm core hf
  rw [hm] at hlink
  have hmn : m ≠ n := by
    rintro rfl
    exact (List.nodup_cons.mp (hperm.nodup_iff.mp h.sorted.nodup)).1 hlink
  exact ⟨hperm.mem_iff.mpr (List.mem_cons_of_mem _ hlink), (ha m hmn).symm.trans hoff⟩

theorem putNode_map (d : Debug) (n : Nat) : (putNode d n).map = d.map := by
  unfold putNode
  split <;> rfl

theorem putNode_timers (d : Debug) (n : Nat) : (putNode d n).timers = d.timers := by
  unfold putNode
  split <;> rfl

theorem putNode_running (d : Debug) (n : Nat) : (putNode d n).running = d.running := by
  unfold putNode
  split <;> rfl

/-- A node that was taken out of the queue is not in it. -/
theorem Nodes.not_armed (h : Nodes hash d held) (n : Nat) :
    n ∉ (d.timers.queue.remove n 0).order :=
  fun hm => (h.queue.nodup_left.mem_erase_iff.mp hm).1 rfl

variable (core) in
/-- `ngx_del_timer_debug`. -/
theorem Nodes.del (h : Nodes hash d held) (ev footprint : Nat) :
    Nodes hash (delTimerDebug core hash d ev footprint) held ∧
      (delTimerDebug core hash d ev footprint).running = d.running ∧
      ∀ n, (delTimerDebug core hash d ev footprint).Stale n → d.Stale n := by
  unfold delTimerDebug
  cases hf : NgxMap.find hash compare d.map ev with
  | none => exact ⟨h, rfl, fun _ hn => hn⟩
  | some n =>
    dsimp only
    split
    · exact ⟨h, rfl, fun _ hn => hn⟩
    · have hlink := (h.find_iff.mp hf).1
      rw [if_neg (by split <;> simp [(h.shadow n hlink).2])]
      by_cases ha : d.timers.queue.armed n = true
      · have hn := (h.armed_iff n).mp ha
        have hoff := ((h.disarm hn (delTimer d.timers n) rfl).unmap core hf
          (h.not_armed n)).frame d.owners (Function.update d.timerSet ev false) d.timedout d.running
          d.called
        rw [if_pos ha]
        refine ⟨hoff.put, putNode_running _ _, fun m hm => ?_⟩
        refine h.stale_delete core hf (putNode_map _ _) (fun m hm => ?_) hm
        rw [putNode_timers]
        exact Function.update_of_ne hm _ _
      · have hn : n ∉ d.timers.queue.order := fun hn => ha ((h.armed_iff n).mpr hn)
        rw [if_neg ha]
        refine ⟨(h.unmap core hf hn).put, putNode_running _ _, fun m hm => ?_⟩
        refine h.stale_delete core hf (putNode_map _ _) (fun m hm => ?_) hm
        rw [putNode_timers]

/-- The event of a timer that expires still has the footprint of its node. -/
def Debug.OwnerKept (d : Debug) : Label → Prop
  | .expire => ∀ n timers, expireTimers d.timers = some (n, timers) →
      d.owners.footprint (d.uev n) (d.node n).fpoff = (d.node n).footprint
  | _ => True

theorem expireTimers_eq_some {t t' : Timers} {n : Nat} (h : expireTimers t = some (n, t')) :
    n ∈ t.queue.order ∧ t'.queue = t.queue.remove n 0 := by
  unfold expireTimers at h
  cases ho : t.queue.order with
  | nil =>
    rw [ho] at h
    cases h
  | cons m ms =>
    rw [ho] at h
    dsimp only at h
    split at h
    · cases h
    · cases h
      exact ⟨List.mem_cons_self, rfl⟩

variable (core) in
/-- A turn of the loop over the timers that have expired, outside handlers. -/
theorem Nodes.expire (h : Nodes hash d []) (hrun : d.running = none) :
    ∃ d', d.step core hash .expire = some d' ∧ Nodes hash d' d'.running.toList ∧
      (d.OwnerKept .expire ↔ ∀ n, d'.Stale n → d.Stale n) := by
  unfold Debug.step
  simp only [if_pos hrun]
  cases he : expireTimers d.timers with
  | none =>
    refine ⟨d, rfl, ?_, ⟨fun _ _ hn => hn, fun _ n t hn => ?_⟩⟩
    · rw [hrun]
      exact h
    · rw [he] at hn
      cases hn
  | some p =>
    obtain ⟨n, timers⟩ := p
    obtain ⟨hn, hq⟩ := expireTimers_eq_some he
    have hoff := h.disarm hn timers hq
    have hlink := h.armed n hn
    have hset : ∀ m ≠ n, timers.queue.armed m = d.timers.queue.armed m := fun m hm => by
      rw [hq]
      exact Function.update_of_ne hm _ _
    unfold timerdWrap
    simp only [(h.shadow n hlink).1]
    by_cases hfp : d.owners.footprint (d.node n).uev (d.node n).fpoff = (d.node n).footprint
    · rw [if_neg (by simpa using hfp)]
      have hf : NgxMap.find hash compare d.map (d.node n).uev = some n :=
        h.find_iff.mpr ⟨hlink, rfl⟩
      have hnot : n ∉ timers.queue.order := by
        rw [hq]
        exact h.not_armed n
      have hdrop : ∀ m, Debug.Stale { d with
          timers, map := NgxMap.delete core hash compare d.map (d.node n).uev } m → d.Stale m :=
        fun m hm => h.stale_delete core hf rfl hset hm
      refine ⟨_, rfl, (hoff.unmap core hf hnot).frame d.owners _ _ (some n) _,
        fun _ => hdrop, fun _ m t hm => ?_⟩
      rw [he, Option.some.injEq, Prod.mk.injEq] at hm
      obtain ⟨rfl, -⟩ := hm
      exact hfp
    · rw [if_pos hfp]
      have hnew : Debug.Stale { d with timers } n := by
        refine ⟨hlink, ?_⟩
        show timers.queue.armed n = false
        rw [hq]
        exact Function.update_self _ _ _
      have hold : ¬ d.Stale n := fun hs => by
        have ha := (h.armed_iff n).mpr hn
        rw [hs.2] at ha
        cases ha
      have hheld : d.running.toList = [] := by
        rw [hrun]
        rfl
      refine ⟨_, rfl, ?_, fun hok => absurd (hok n timers he) hfp,
        fun hall => absurd (hall n hnew) hold⟩
      show Nodes hash { d with timers } d.running.toList
      rw [hheld]
      exact hoff

/-- The handler returns. -/
theorem Nodes.ret {n : Nat} (h : Nodes hash d [n]) :
    Nodes hash { putNode d n with running := none } [] :=
  h.put.frame _ _ _ none _

/-- **Steps.**  A step keeps the account of the nodes; no node becomes stale unless
a timer expires whose owner is gone. -/
theorem Nodes.step (h : Nodes hash d d.running.toList) {i : Label}
    (hst : d.step core hash i = some d') :
    Nodes hash d' d'.running.toList ∧ (d.OwnerKept i ↔ ∀ n, d'.Stale n → d.Stale n) := by
  cases i with
  | time now =>
    cases hst
    exact ⟨h.setTimers { d.timers with now } h.queue h.armed,
      ⟨fun _ _ hn => hn, fun _ => trivial⟩⟩
  | own owners =>
    cases hst
    exact ⟨h.frame owners _ _ _ _, ⟨fun _ _ hn => hn, fun _ => trivial⟩⟩
  | mark ev timedout =>
    cases hst
    exact ⟨h.frame _ _ _ _ _, ⟨fun _ _ hn => hn, fun _ => trivial⟩⟩
  | add ev timer fpoff place =>
    obtain ⟨d1, hadd, h1, hrun, hstale, -⟩ := h.add core ev timer fpoff place
    obtain rfl : d1 = d' := Option.some.inj (hadd.symm.trans hst)
    rw [hrun]
    exact ⟨h1, fun _ => hstale, fun _ => trivial⟩
  | del ev footprint =>
    obtain ⟨h1, hrun, hstale⟩ := h.del core ev footprint
    cases hst
    rw [hrun]
    exact ⟨h1, fun _ => hstale, fun _ => trivial⟩
  | expire =>
    by_cases hrun : d.running = none
    · rw [hrun] at h
      obtain ⟨d1, hexp, h1, hstale⟩ := h.expire core hrun
      obtain rfl : d1 = d' := Option.some.inj (hexp.symm.trans hst)
      exact ⟨h1, hstale⟩
    · unfold Debug.step at hst
      rw [if_neg hrun] at hst
      cases hst
  | ret =>
    unfold Debug.step at hst
    cases hrun : d.running with
    | none =>
      simp only [hrun] at hst
      cases hst
    | some n =>
      simp only [hrun] at hst
      cases hst
      rw [hrun] at h
      refine ⟨h.ret, fun _ m hm => hm.of_eq (putNode_map d n) ?_, fun _ => trivial⟩
      exact congrArg Timers.queue (putNode_timers d n)

end

/-! ## Runs -/

/-- `ngx_timerd_state`. -/
def timerdState (d : Debug) (fuel : Nat) (detail : Bool) : Option StateBuf :=
  debugState "##########ngx debug pool##########\n"
    [⟨"ngx_timerd nalloc node: ", d.nalloc⟩, ⟨"ngx_timerd nfree node: ", d.nfree⟩]
    (d.nalloc - d.nfree) d.map
    (fun n => placeText (d.node n).place.file (d.node n).place.line) fuel detail

/-- What holds of the nodes in every state. -/
structure Accounts (core : NgxMap.Rbtree) (hash : Nat → Nat) (d : Debug) : Prop where
  find : ∀ ev n, NgxMap.find hash compare d.map ev = some n ↔ n ∈ d.map.linked ∧ d.uev n = ev
  unique : ∀ n ∈ d.map.linked, ∀ n' ∈ d.map.linked, d.uev n = d.uev n' → n = n'
  /-- the nodes of the map, the free ones and the one whose handler is running -/
  split : ∃ free, Linked d.next d.freeNode free ∧
    (d.map.linked ++ (free ++ d.running.toList)).Perm (List.range d.nalloc) ∧
    ∀ n, n ∈ free ∨ d.running = some n →
      n ∉ d.timers.queue.order ∧ d.timers.queue.armed n = false
  count : d.nfree ≤ d.nalloc ∧
    d.nalloc - d.nfree = d.map.linked.length + d.running.toList.length
  state : ∀ fuel ≥ d.nalloc - d.nfree, ∀ detail, ∃ b, timerdState d fuel detail = some b ∧
    b.lines.length ≤ d.nalloc - d.nfree ∧ b.written ≤ b.size
  /-- no call gets stuck -/
  add : ∀ ev timer fpoff place, (addTimerDebug core hash d ev timer fpoff place).isSome
  expire : d.running = none → (d.step core hash .expire).isSome

theorem Nodes.accounts (core : NgxMap.Rbtree) {d : Debug} (h : Nodes hash d d.running.toList) :
    Accounts core hash d := by
  have hcount := h.free.count
  rw [List.length_append, Nat.add_comm] at hcount
  refine ⟨fun _ _ => h.find_iff, fun _ hn _ hn' => h.unique hn hn', ?_, hcount,
    fun fuel hf detail => ?_, fun ev timer fpoff place => ?_, fun hrun => ?_⟩
  · obtain ⟨free, hfree, hperm, -⟩ := h.free
    refine ⟨free, hfree, ?_, fun n hn => ?_⟩
    · refine List.Perm.trans ?_ hperm
      rw [← List.append_assoc, List.append_assoc d.running.toList]
      exact List.perm_append_comm
    · -- a node of the map is neither free nor running
      have hnd := hperm.nodup_iff.mpr List.nodup_range
      have hlink : n ∉ d.map.linked := fun hm => by
        rcases hn with hn | hn
        · exact (List.nodup_append.mp hnd).2.2 n (List.mem_append_right _ hm) n hn rfl
        · rw [hn] at hnd
          have hcons : n ∉ d.map.linked ++ free := (List.nodup_cons.mp hnd).1
          exact hcons (List.mem_append_left _ hm)
      have hno : n ∉ d.timers.queue.order := fun hm => hlink (h.armed n hm)
      refine ⟨hno, ?_⟩
      rw [← Bool.not_eq_true, h.armed_iff]
      exact hno
  · obtain ⟨b, hb, hlines, hfit, -⟩ := debugState_spec _ _ _ h.sorted.nodup
      (n := d.nalloc - d.nfree) (by omega) hf detail
    exact ⟨b, hb, hlines, hfit⟩
  · obtain ⟨d', hadd, -⟩ := h.add core ev timer fpoff place
    rw [hadd]
    rfl
  · rw [hrun] at h
    obtain ⟨d', hexp, -⟩ := h.expire core hrun
    rw [hexp]
    rfl

theorem nodes_start (now : UInt64) (owners : Owners) :
    Nodes hash (debug core hash now owners).start [] where
  sorted := ⟨fun _ h => (by cases h), List.Pairwise.nil⟩
  rawKey _ h := by cases h
  shadow _ h := by cases h
  queue := ⟨rfl, List.nodup_nil, fun _ h => (by cases h), fun _ => ⟨fun h => (by cases h),
    fun h => (by cases h)⟩, fun _ => ⟨fun h => (by cases h), fun h => (by cases h)⟩⟩
  armed _ h := by cases h
  free := FreeNodes.empty _
  off _ := ⟨rfl, rfl, rfl, rfl⟩

theorem reach_nodes {now : UInt64} {owners : Owners} {d : Debug}
    (hr : (debug core hash now owners).Reach d) : Nodes hash d d.running.toList :=
  hr.invariant (P := fun d => Nodes hash d d.running.toList) (nodes_start now owners)
    fun _ _ _ _ h hst => (h.step hst).1

/-- **The nodes are accounted for.**  In every state that calls, expiries and
changes of the owners' memory lead to, an event has at most one node in the map;
the nodes are those of the map, the free ones and the one whose handler is running,
and the counters say so; only nodes of the map are armed; and the status is no
longer than its buffer. -/
theorem reach_accounts (core : NgxMap.Rbtree) (hash : Nat → Nat) (now : UInt64) (owners : Owners)
    (d : Debug) (hr : (debug core hash now owners).Reach d) : Accounts core hash d :=
  (reach_nodes hr).accounts core

/-- Event 1 is deleted with a wrong footprint and then twice; event 2 is added again by
its own handler. -/
theorem reach_accounts_twice : ∃ d : Debug,
    (debug NgxMap.flatRbtree id 0 ⟨fun _ => 0, fun _ => 7⟩).run
      (debug NgxMap.flatRbtree id 0 ⟨fun _ => 0, fun _ => 7⟩).start
      [.add 1 10 0 ⟨"a.c", 3⟩, .add 2 5 0 ⟨"b.c", 4⟩, .del 1 8, .del 1 7, .del 1 7, .time 5, .expire,
        .add 2 5 0 ⟨"b.c", 5⟩] = some d ∧
      d.map.linked = [0] ∧ d.running = some 1 ∧ d.nalloc = 2 ∧ d.nfree = 0 ∧
      Accounts NgxMap.flatRbtree id d :=
  ⟨_, rfl, rfl, rfl, rfl, rfl, reach_accounts _ _ 0 ⟨fun _ => 0, fun _ => 7⟩ _
    (Machine.reach_run _ [.add 1 10 0 ⟨"a.c", 3⟩, .add 2 5 0 ⟨"b.c", 4⟩, .del 1 8, .del 1 7,
      .del 1 7, .time 5, .expire, .add 2 5 0 ⟨"b.c", 5⟩] rfl)⟩

/-- **Owners.**  As long as every timer that expires finds the footprint of its node,
the nodes of the map are armed, and an event without a timer gets one; a timer
that expires without it leaves a node that is not armed. -/
theorem reachIf_armed (core : NgxMap.Rbtree) (hash : Nat → Nat) (now : UInt64) (owners : Owners)
    (d : Debug) (hr : (debug core hash now owners).ReachIf Debug.OwnerKept d) :
    (∀ n ∈ d.map.linked, d.timers.queue.armed n = true) ∧
    (∀ ev timer fpoff place, (∀ n, d.timers.queue.armed n = true → d.uev n ≠ ev) →
      ∃ d' n, addTimerDebug core hash d ev timer fpoff place = some d' ∧
        NgxMap.find hash compare d'.map ev = some n ∧ d'.timers.queue.armed n = true) ∧
    ∀ i d', (debug core hash now owners).step d i = some d' →
      (d.OwnerKept i ↔ ∀ n ∈ d'.map.linked, d'.timers.queue.armed n = true) := by
  have hnodes := reach_nodes hr.reach
  have hstale : ∀ n, ¬ d.Stale n := by
    refine hr.invariant (P := fun d => ∀ n, ¬ d.Stale n) (fun _ hs => (by cases hs.1))
      fun s i s' hs hP hok hst n hn => ?_
    exact hP n (((reach_nodes hs.reach).step hst).2.mp hok n hn)
  have harmed : ∀ d : Debug, (∀ n ∈ d.map.linked, d.timers.queue.armed n = true) ↔
      ∀ n, ¬ d.Stale n := by
    intro d
    unfold Debug.Stale
    simp only [not_and, Bool.not_eq_false]
  refine ⟨(harmed d).mpr hstale, fun ev timer fpoff place hev => ?_, fun i d' hst => ?_⟩
  · have hnone : NgxMap.find hash compare d.map ev = none := by
      rw [Option.eq_none_iff_forall_ne_some]
      intro n hf
      obtain ⟨hn, hu⟩ := hnodes.find_iff.mp hf
      exact hev n ((harmed d).mpr hstale n hn) hu
    obtain ⟨d', hadd, -, -, -, hfind⟩ := hnodes.add core ev timer fpoff place
    obtain ⟨n, hf, ha⟩ := hfind hnone
    exact ⟨d', n, hadd, hf, ha⟩
  · rw [(hnodes.step hst).2, harmed]
    exact forall_congr' fun n => ⟨fun h hs => hstale n (h hs), fun h hs => absurd hs (h hs).elim⟩

/-- An event is added again when its timer has expired with the footprint it had. -/
theorem reachIf_armed_again : ∃ d d' : Debug, ∃ n,
    (debug NgxMap.flatRbtree id 0 ⟨fun _ => 0, fun _ => 7⟩).run
      (debug NgxMap.flatRbtree id 0 ⟨fun _ => 0, fun _ => 7⟩).start
      [.add 1 10 0 ⟨"", 0⟩, .time 10, .expire, .ret] = some d ∧
    addTimerDebug NgxMap.flatRbtree id d 1 10 0 ⟨"", 0⟩ = some d' ∧
    NgxMap.find id compare d'.map 1 = some n ∧ d'.timers.queue.armed n = true := by
  have hok : (debug NgxMap.flatRbtree id 0 ⟨fun _ => 0, fun _ => 7⟩).Meets Debug.OwnerKept
      (debug NgxMap.flatRbtree id 0 ⟨fun _ => 0, fun _ => 7⟩).start
      [.add 1 10 0 ⟨"", 0⟩, .time 10, .expire, .ret] := by
    refine .cons trivial rfl (.cons trivial rfl (.cons (fun n timers h => ?_) rfl ?_))
    · cases h
      rfl
    · exact .cons trivial rfl trivial
  have hr := Machine.ReachIf.start.of_meets hok rfl
  obtain ⟨-, hadd, -⟩ := reachIf_armed _ _ _ _ _ hr
  obtain ⟨d', n, hd', hf, ha⟩ := hadd 1 10 0 ⟨"", 0⟩ fun n hn => by
    have hmem : n ∈ ([] : List Nat) := ((reach_nodes hr.reach).armed_iff n).mp hn
    cases hmem
  exact ⟨_, d', n, rfl, hd', hf, ha⟩

/-- The footprint of a pending timer changes: when it expires, its node stays in the
map, and the new owner of the event gets no timer. -/
theorem stale_owner : ∃ d d' : Debug,
    (debug NgxMap.flatRbtree id 0 ⟨fun _ => 0, fun _ => 7⟩).run
      (debug NgxMap.flatRbtree id 0 ⟨fun _ => 0, fun _ => 7⟩).start
      [.add 1 10 0 ⟨"", 0⟩, .own ⟨fun _ => 0, fun _ => 8⟩, .time 10, .expire] = some d ∧
    d.running = none ∧ 0 ∈ d.map.linked ∧ d.timers.queue.armed 0 = false ∧
    addTimerDebug NgxMap.flatRbtree id d 1 10 0 ⟨"", 0⟩ = some d' ∧ d'.timers.queue.order = [] :=
  ⟨_, _, rfl, rfl, List.mem_singleton.mpr rfl, rfl, rfl, rfl⟩

end NgxToolkit.Timerd
