import Mathlib.Data.List.Perm.Basic
import Mathlib.Tactic.Common
import NgxToolkit.PooldRuns
import NgxToolkit.RbufBuffersRuns
import NgxToolkit.StateReports
import NgxToolkit.TimerdOwners

/-! What the status functions of the debug build list (`ngx_poold_state`, `ngx_rbuf_state`,
`ngx_timerd_state`).

Who takes a pool, a chain or a timer and does not give it back is to be found in the report, by
the file and the line of the call.

* `debugState_lists`: a report has a line for each thing that the nodes of the map stand for.
* `reachIf_pooldState`: the places at which the pools that are alive were created.
* `reachIf_rbufState`: the places of the gets whose chains are held.
* `reach_timerdState`: the places at which the timers that are pending were added. -/

namespace NgxToolkit

open Lib

/-- A report for the things `live`, of which the nodes of the map have the lines. -/
theorem debugState_lists {γ : Type} (title : String) (counters : List Counter) {n fuel : Nat}
    {map : NgxMap.Map Nat} {line : Nat → List UInt8} {live : List γ} {text : γ → List UInt8}
    (hmap : map.linked.Nodup) (hlive : (map.linked.map line).Perm (live.map text))
    (hn : live.length ≤ n) (hf : n ≤ fuel) (detail : Bool) :
    ∃ b, debugState title counters n map line fuel detail = some b ∧ b.written ≤ b.size ∧
      (detail = true → b.lines.Perm (live.map fun x => snprintf lineSize (text x))) ∧
      readReport title (counters.map Counter.label) b.head =
        some (counters.map fun c => c.value % 2 ^ 64) := by
  have hlen := hlive.length_eq
  rw [List.length_map, List.length_map] at hlen
  obtain ⟨b, hb, -, hfit, hlines⟩ :=
    debugState_spec title counters line hmap (by omega : map.linked.length ≤ n) hf detail
  refine ⟨b, hb, hfit, fun hdetail => ?_, debugState_reads title counters hb⟩
  have hcut := hlive.map (snprintf lineSize)
  rw [List.map_map, List.map_map] at hcut
  rw [hlines hdetail]
  exact hcut

/-! ## Pools -/

/-- **The pools in the report.**  In every run in which no creation fails, the report has one
line for each pool that is alive, with the place where it was created, and what it says to be
in use is their number. -/
theorem Poold.reachIf_pooldState (core : NgxMap.Rbtree) (hash : Nat → Nat) (d : Poold.Tracker)
    (hr : (Poold.poold core hash).ReachIf Poold.Succeeds d) {fuel : Nat}
    (hf : d.nalloc - d.nfree ≤ fuel) (detail : Bool) :
    ∃ b, Poold.pooldState d fuel detail = some b ∧ b.written ≤ b.size ∧
      (detail = true →
        b.lines.Perm (d.live.map fun c => snprintf lineSize (placeText c.file c.line))) ∧
      ∃ alloc free, readReport "##########ngx debug pool##########\n"
          ["ngx_poold nalloc node: ", "ngx_poold nfree node: "] b.head = some [alloc, free] ∧
        inUse alloc free = d.live.length % 2 ^ 64 := by
  have h : Poold.Nodes hash d := hr.invariant (P := Poold.Nodes hash)
    (Poold.nodes_start core hash) fun _ _ _ _ h hok hst => h.step hok hst
  have hcount := h.tracks.count
  have huse : d.nalloc = d.nfree + d.live.length := by omega
  have hlines := h.live.map fun c => placeText c.file c.line
  rw [List.map_map] at hlines
  obtain ⟨b, hb, hfit, hlist, hread⟩ := debugState_lists "##########ngx debug pool##########\n"
    [⟨"ngx_poold nalloc node: ", d.nalloc⟩, ⟨"ngx_poold nfree node: ", d.nfree⟩]
    h.sorted.nodup hlines (by omega : d.live.length ≤ d.nalloc - d.nfree) hf detail
  exact ⟨b, hb, hfit, hlist, _, _, hread, inUse_eq huse⟩

/-- Of two pools one is destroyed; the other one is in the report. -/
theorem Poold.reachIf_pooldState_two : ∃ d b, Poold.pooldState d 2 true = some b ∧
    b.lines.Perm [placeText "b.c" 4] ∧ ∃ alloc free, inUse alloc free = 1 ∧
      readReport "##########ngx debug pool##########\n"
        ["ngx_poold nalloc node: ", "ngx_poold nfree node: "] b.head = some [alloc, free] := by
  have hok : (Poold.poold NgxMap.flatRbtree id).Meets Poold.Succeeds
      (Poold.poold NgxMap.flatRbtree id).start
      [.create 8 "a.c" 1, .create 4 "b.c" 4, .destroy 8] :=
    .cons (by decide : (8 : Nat) ≠ 0) rfl (.cons (by decide : (4 : Nat) ≠ 0) rfl
      (.cons trivial rfl trivial))
  obtain ⟨b, hb, -, hlines, alloc, free, hread, huse⟩ := Poold.reachIf_pooldState _ _ _
    (Machine.ReachIf.start.of_meets hok rfl) (by decide : 2 - 1 ≤ 2) true
  exact ⟨_, b, hb, hlines rfl, alloc, free, huse, hread⟩

/-! ## Chains -/

namespace Rbuf

/-- The holders of chains with the places of their gets. -/
structure Noted where
  users : Users
  places : List (String × Nat)

/-- The place of the get `k`. -/
def Noted.place (w : Noted) (k : Nat) : String × Nat := w.places.getD k ("", 0)

section
variable (core : NgxMap.Rbtree) (hash : Nat → Nat)

/-- A get that hands out a chain is noted. -/
def Noted.note (w : Noted) (users : Users) : Call → List (String × Nat)
  | .get _ _ _ _ file line =>
    if w.users.world.gets.length < users.world.gets.length then w.places ++ [(file, line)]
    else w.places
  | _ => w.places

def Noted.step (w : Noted) (i : Call) : Option Noted :=
  (w.users.step core hash i).map fun users => ⟨users, w.note users i⟩

def noted : Machine Noted Call where
  start := ⟨(users core hash).start, []⟩
  step := Noted.step core hash

end

/-- Every chain that is held has the place of its get. -/
structure Noted.Sound (hash : Nat → Nat) (w : Noted) : Prop where
  holds : ∃ ls, Holds hash w.users ls
  length : w.places.length = w.users.world.gets.length
  place : ∀ k ∈ w.users.world.held,
    (w.users.heap.file (w.users.world.chain k), w.users.heap.line (w.users.world.chain k)) =
      w.place k

section
variable {core : NgxMap.Rbtree} {hash : Nat → Nat} {w w' : Noted}

/-- A chain that another get hands out is not touched. -/
theorem Comes.place_eq {w : World} {ls ls' : Nat → List Nat} {b b' : Heap} {cl : Nat} {s : State}
    (h : Comes w ls b cl s b' ls') {c : Nat} (hne : c ≠ cl) (size : Nat) (file : String)
    (line : Nat) : (b'.reset cl size file line).file c = b.file c ∧
      (b'.reset cl size file line).line c = b.line c := by
  have hreset : (b'.reset cl size file line).file c = b'.file c ∧
      (b'.reset cl size file line).line c = b'.line c :=
    ⟨Function.update_of_ne hne _ _, Function.update_of_ne hne _ _⟩
  rw [hreset.1, hreset.2]
  cases h with
  | recycled hl hn => exact ⟨rfl, rfl⟩
  | fresh hcl hn => exact ⟨Function.update_of_ne hne _ _, Function.update_of_ne hne _ _⟩

theorem Noted.Sound.get (h : w.Sound hash) {size : Nat} {p0 p1 p2 : Bool} {file : String}
    {line : Nat} (hst : w.step core hash (.get size p0 p1 p2 file line) = some w') :
    w'.Sound hash := by
  obtain ⟨users, husers, rfl⟩ := Option.map_eq_some_iff.mp hst
  obtain ⟨ls, hholds⟩ := h.holds
  have hnext := hholds.step (i := .get size p0 p1 p2 file line) trivial husers
  obtain ⟨r, hget, rfl⟩ := Option.map_eq_some_iff.mp husers
  rcases hholds.stocked.get core w.users.heap size (pool_of_getDebug hget) p1 p2 file line with
    ⟨s, heq, -⟩ | ⟨cl, s, b', ls', heq, hcomes, hcl, -⟩
  · -- nothing is handed out
    obtain rfl := Option.some.inj (heq.symm.trans hget)
    have hsame : w.note ⟨w.users.world.got (none, s), w.users.heap⟩ (.get size p0 p1 p2 file line) =
        w.places := if_neg (Nat.lt_irrefl _)
    refine ⟨hnext, ?_, ?_⟩
    · rw [hsame]
      exact h.length
    · rw [hsame]
      exact h.place
  · obtain rfl := Option.some.inj (heq.symm.trans hget)
    have hlen : (w.users.world.got (some cl, s)).gets.length =
        w.users.world.gets.length + 1 := List.length_append
    have hnote : w.note ⟨w.users.world.got (some cl, s), b'.reset cl size file line⟩
        (.get size p0 p1 p2 file line) = w.places ++ [(file, line)] :=
      if_pos (by rw [hlen]; exact Nat.lt_succ_self _)
    refine ⟨hnext, ?_, fun k hk => ?_⟩
    · rw [hnote]
      show (w.places ++ [(file, line)]).length = _
      rw [List.length_append, h.length, hlen]
      rfl
    · rw [hnote]
      show _ = (w.places ++ [(file, line)]).getD k ("", 0)
      rcases List.mem_cons.mp hk with rfl | hk
      · have hchain : (w.users.world.got (some cl, s)).chain w.users.world.gets.length = cl := by
          show (w.users.world.gets ++ [cl]).getD w.users.world.gets.length 0 = cl
          rw [List.getD_append_right _ _ _ _ (Nat.le_refl _), Nat.sub_self]
          rfl
        dsimp only
        rw [hchain, ← h.length, List.getD_append_right _ _ _ _ (Nat.le_refl _), Nat.sub_self]
        exact Prod.ext (Function.update_self _ _ _) (Function.update_self _ _ _)
      · have hlt := hholds.inv.held_lt k hk
        have hchain : (w.users.world.got (some cl, s)).chain k = w.users.world.chain k :=
          List.getD_append _ _ _ _ hlt
        have hne : w.users.world.chain k ≠ cl := fun e => hcl (e ▸ List.mem_map_of_mem hk)
        dsimp only
        rw [hchain, (hcomes.place_eq hne size file line).1, (hcomes.place_eq hne size file line).2,
          List.getD_append _ _ _ _ (by rw [h.length]; exact hlt)]
        exact h.place k hk

/-- A step that gets no chain and moves none. -/
theorem Noted.Sound.keep (h : w.Sound hash) {users : Users} (hholds : ∃ ls, Holds hash users ls)
    (hgets : users.world.gets = w.users.world.gets)
    (hheld : ∀ k ∈ users.world.held, k ∈ w.users.world.held)
    (hfile : users.heap.file = w.users.heap.file) (hline : users.heap.line = w.users.heap.line) :
    Noted.Sound hash ⟨users, w.places⟩ := by
  refine ⟨hholds, h.length.trans (congrArg List.length hgets).symm, fun k hk => ?_⟩
  have hchain : users.world.chain k = w.users.world.chain k := by
    unfold World.chain
    rw [hgets]
  show (users.heap.file (users.world.chain k), users.heap.line (users.world.chain k)) = _
  rw [hchain, hfile, hline]
  exact h.place k (hheld k hk)

theorem Noted.Sound.step (h : w.Sound hash) {i : Call} (hok : HeldOnly w.users i)
    (hst : w.step core hash i = some w') : w'.Sound hash := by
  have hmap := hst
  obtain ⟨users, husers, rfl⟩ := Option.map_eq_some_iff.mp hmap
  obtain ⟨ls, hholds⟩ := h.holds
  have hnext := hholds.step hok husers
  cases Users.steps_of_step core hash husers with
  | get _ => exact h.get hst
  | put => exact h.keep hnext rfl (fun _ hk => List.mem_of_mem_erase hk) rfl rfl
  | putNull => exact h.keep hnext rfl (fun _ hk => hk) rfl rfl
  | putList _ => exact h.keep hnext rfl (fun _ hk => List.mem_of_mem_filter hk) rfl rfl
  | link _ => exact h.keep hnext rfl (fun _ hk => hk) rfl rfl
  | write _ => exact h.keep hnext rfl (fun _ hk => hk) rfl rfl

end

/-- **The chains in the report.**  In every run in which only chains that are held are put, the
report has one line for each chain that is held, with the place of the get that handed it out,
and what it says to be in use is their number. -/
theorem reachIf_rbufState (core : NgxMap.Rbtree) (hash : Nat → Nat) (w : Noted)
    (hr : (noted core hash).ReachIf (fun w => HeldOnly w.users) w) {fuel : Nat}
    (hf : w.users.world.state.nallocChain - w.users.world.state.nfreeChain ≤ fuel)
    (detail : Bool) :
    ∃ b, rbufState w.users.world.state w.users.heap fuel detail = some b ∧ b.written ≤ b.size ∧
      (detail = true → b.lines.Perm (w.users.world.held.map fun k =>
        snprintf lineSize (placeText (w.place k).1 (w.place k).2))) ∧
      ∃ nodes alloc free, readReport "##########ngx rbuf state##########\n"
          ["ngx_rbuf nalloc node: ", "ngx_rbuf nalloc chain: ", "ngx_rbuf nfree chain: "] b.head =
            some [nodes, alloc, free] ∧
        inUse alloc free = w.users.world.held.length % 2 ^ 64 := by
  have h : w.Sound hash := hr.invariant (P := Noted.Sound hash)
    ⟨⟨_, holds_start core hash⟩, rfl, fun _ hk => (by cases hk)⟩
    fun _ _ _ _ h hok hst => h.step hok hst
  obtain ⟨ls, hholds⟩ := h.holds
  have hcount := hholds.inv.count
  have huse : w.users.world.state.nallocChain =
      w.users.world.state.nfreeChain + w.users.world.held.length := by omega
  have hlines : (w.users.world.state.used.linked.map fun cl =>
      placeText (w.users.heap.file cl) (w.users.heap.line cl)).Perm
        (w.users.world.held.map fun k => placeText (w.place k).1 (w.place k).2) := by
    refine (hholds.inv.used_perm.map _).trans (List.Perm.of_eq ?_)
    unfold World.chains
    rw [List.map_map]
    refine List.map_congr_left fun k hk => ?_
    rw [← h.place k hk]
    rfl
  obtain ⟨b, hb, hfit, hlist, hread⟩ := debugState_lists "##########ngx rbuf state##########\n"
    [⟨"ngx_rbuf nalloc node: ", w.users.world.state.nallocNode⟩,
      ⟨"ngx_rbuf nalloc chain: ", w.users.world.state.nallocChain⟩,
      ⟨"ngx_rbuf nfree chain: ", w.users.world.state.nfreeChain⟩]
    hholds.inv.used.nodup hlines (by omega) hf detail
  exact ⟨b, hb, hfit, hlist, _, _, _, hread, inUse_eq huse⟩

/-- A chain is put and handed out again by another get, which is the one in the report. -/
theorem reachIf_rbufState_again : ∃ (w : Noted) (b : StateBuf), w.users.world.held = [1] ∧
    rbufState w.users.world.state w.users.heap 1 true = some b ∧
    b.lines.Perm [placeText "b.c" 4] := by
  have hok : (noted NgxMap.flatRbtree id).Meets (fun w => HeldOnly w.users)
      (noted NgxMap.flatRbtree id).start
      [.get 10 true true true "a.c" 1, .put 0, .get 10 true true true "b.c" 4] :=
    .cons trivial rfl (.cons (List.mem_singleton.mpr rfl) rfl (.cons trivial rfl trivial))
  obtain ⟨b, hb, -, hlines, -⟩ := reachIf_rbufState _ _ _
    (Machine.ReachIf.start.of_meets hok rfl) (by decide : 1 - 0 ≤ 1) true
  exact ⟨_, b, rfl, hb, hlines rfl⟩

end Rbuf

/-! ## Timers -/

namespace Timerd

/-- A timer that was added: the event and its owner's footprint, and where. -/
structure Entry where
  uev : Nat
  footprint : Nat
  fpoff : Int
  place : Place

def Node.entry (x : Node) : Entry := ⟨x.uev, x.footprint, x.fpoff, x.place⟩

/-- A worker with the timers that were added, and neither deleted nor fired. -/
structure Recorded where
  debug : Debug
  added : List Entry

/-- An event is added once, and leaves with a footprint that is its owner's. -/
def Recorded.note (w : Recorded) : Label → List Entry
  | .add ev _ fpoff place =>
    if ev ∈ w.added.map Entry.uev then w.added
    else ⟨ev, w.debug.owners.footprint ev fpoff, fpoff, place⟩ :: w.added
  | .del ev footprint => w.added.filter fun e => ¬ (e.uev = ev ∧ e.footprint = footprint)
  | .expire =>
    match expireTimers w.debug.timers with
    | none => w.added
    | some (n, _) => w.added.filter fun e =>
        ¬ (e.uev = w.debug.uev n ∧ w.debug.owners.footprint e.uev e.fpoff = e.footprint)
  | _ => w.added

def recorded (core : NgxMap.Rbtree) (hash : Nat → Nat) (now : UInt64) (owners : Owners) :
    Machine Recorded Label where
  start := ⟨(debug core hash now owners).start, []⟩
  step w i := (w.debug.step core hash i).map fun debug => ⟨debug, w.note i⟩

/-- The nodes of the map are the entries. -/
def Debug.Listed (d : Debug) (added : List Entry) : Prop :=
  (d.map.linked.map fun n => (d.node n).entry).Perm added

section
variable {core : NgxMap.Rbtree} {hash : Nat → Nat} {d d' : Debug} {held : List Nat}
  {added : List Entry}

theorem Debug.Listed.mem_iff (h : d.Listed added) (hd : Nodes hash d held) (ev : Nat) :
    ev ∈ added.map Entry.uev ↔ (NgxMap.find hash compare d.map ev).isSome := by
  rw [← (h.map Entry.uev).mem_iff, List.map_map, List.mem_map, Option.isSome_iff_exists]
  exact exists_congr fun n => hd.find_iff.symm

/-- Nothing is written that the entries have. -/
theorem Debug.Listed.congr (h : d.Listed added) (hmap : d'.map = d.map)
    (hnode : ∀ n ∈ d.map.linked, d'.node n = d.node n) : d'.Listed added := by
  unfold Debug.Listed
  rw [hmap, List.map_congr_left fun n hn => congrArg Node.entry (hnode n hn)]
  exact h

/-- The node of an event leaves the map, or it does not. -/
theorem Debug.Listed.drop (h : d.Listed added) (hd : Nodes hash d held) {ev n : Nat}
    (hf : NgxMap.find hash compare d.map ev = some n) {c : Prop} [Decidable c]
    (hmap : d'.map = if c then NgxMap.delete core hash compare d.map ev else d.map)
    (hnode : ∀ k ∈ d'.map.linked, d'.node k = d.node k) {p : Entry → Prop} [DecidablePred p]
    (hp : ∀ k ∈ d.map.linked, p (d.node k).entry ↔ k = n ∧ c) :
    d'.Listed (added.filter fun e => ¬ p e) := by
  unfold Debug.Listed
  rw [List.map_congr_left fun k hk => congrArg Node.entry (hnode k hk), hmap]
  refine List.Perm.trans ?_ (h.filter _)
  by_cases hc : c
  · have hperm := hd.sorted.delete_perm core hf
    have hn : p (d.node n).entry := (hp n (hd.find_iff.mp hf).1).mpr ⟨rfl, hc⟩
    have hrest : ∀ k ∈ (NgxMap.delete core hash compare d.map ev).linked,
        ¬ p (d.node k).entry := fun k hk => by
      obtain ⟨hlink, hne⟩ := hd.mem_delete core hf hk
      exact fun hpk => hne ((hp k hlink).mp hpk).1
    rw [if_pos hc]
    refine List.Perm.trans ?_ ((hperm.map fun k => (d.node k).entry).symm.filter _)
    rw [List.map_cons, List.filter_cons_of_neg (by simpa using hn), List.filter_eq_self.mpr ?_]
    intro e he
    obtain ⟨k, hk, rfl⟩ := List.mem_map.mp he
    exact decide_eq_true (hrest k hk)
  · rw [if_neg hc, List.filter_eq_self.mpr ?_]
    intro e he
    obtain ⟨k, hk, rfl⟩ := List.mem_map.mp he
    exact decide_eq_true fun hpk => hc ((hp k hk).mp hpk).2

/-- The entry of a new timer is that of a node that was not in the map. -/
theorem Debug.Listed.add (h : d.Listed added) (hd : Nodes hash d held) (ev : Nat) (timer : UInt64)
    (fpoff : Int) (place : Place) (hst : d.step core hash (.add ev timer fpoff place) = some d') :
    d'.Listed (Recorded.note ⟨d, added⟩ (.add ev timer fpoff place)) := by
  obtain ⟨d1, heq, h1, hpool, hmap, -, -, howners, hnode⟩ := hd.initAdd core ev timer fpoff place
  have hst' : addTimerDebug core hash d1 ev timer fpoff place = some d' := heq.symm.trans hst
  have hnote : Recorded.note ⟨d, added⟩ (.add ev timer fpoff place) =
      if (NgxMap.find hash compare d.map ev).isSome then added
      else ⟨ev, d.owners.footprint ev fpoff, fpoff, place⟩ :: added :=
    if_congr (h.mem_iff hd ev) rfl rfl
  rw [hnote]
  cases hf : NgxMap.find hash compare d.map ev with
  | some n =>
    obtain ⟨d2, hadd, -, -, -, hmap', hnode'⟩ :=
      h1.addKnown core hpool (hmap ▸ hf) timer fpoff place
    obtain rfl := Option.some.inj (hadd.symm.trans hst')
    exact h.congr (hmap'.trans hmap) fun k _ => congrFun (hnode'.trans hnode) k
  | none =>
    obtain ⟨n, d2, hadd, h2, -, hperm, -, -, -, hnode'⟩ :=
      h1.addNew core hpool (hmap ▸ hf) timer fpoff place
    obtain rfl := Option.some.inj (hadd.symm.trans hst')
    rw [hmap] at hperm
    have hn : n ∉ d.map.linked := (List.nodup_cons.mp (hperm.nodup_iff.mp h2.sorted.nodup)).1
    refine (hperm.map fun k => (d2.node k).entry).trans ?_
    rw [List.map_cons, hnode', howners, Function.update_self]
    refine List.Perm.cons _ (List.Perm.trans (List.Perm.of_eq ?_) h)
    refine List.map_congr_left fun k hk => ?_
    have hne : k ≠ n := fun e => hn (e ▸ hk)
    rw [Function.update_of_ne hne, hnode]

/-- The entry of an event leaves if the footprint is the one of the entry. -/
theorem Debug.Listed.del (h : d.Listed added) (hd : Nodes hash d held) (core : NgxMap.Rbtree)
    (ev footprint : Nat) :
    (delTimerDebug core hash d ev footprint).Listed
      (added.filter fun e => ¬ (e.uev = ev ∧ e.footprint = footprint)) := by
  cases hf : NgxMap.find hash compare d.map ev with
  | none =>
    have hsame : delTimerDebug core hash d ev footprint = d := by
      unfold delTimerDebug
      rw [hf]
    have hall : (added.filter fun e => ¬ (e.uev = ev ∧ e.footprint = footprint)) = added := by
      refine List.filter_eq_self.mpr fun e he => decide_eq_true fun hp => ?_
      have hmem := (h.mem_iff hd ev).mp (List.mem_map.mpr ⟨e, he, hp.1⟩)
      rw [hf] at hmem
      cases hmem
    rw [hsame, hall]
    exact h
  | some n =>
    obtain ⟨hlink, huev⟩ := hd.find_iff.mp hf
    obtain ⟨-, hmap, hnode⟩ := hd.delKnown core hf footprint
    refine h.drop hd hf hmap (fun k hk => (hnode k hk).2) fun k hk => ⟨fun hp => ?_, ?_⟩
    · obtain rfl := hd.unique hk hlink (hp.1.trans huev.symm)
      exact ⟨rfl, hp.2⟩
    · rintro ⟨rfl, hfp⟩
      exact ⟨huev, hfp⟩

/-- The entry of the event whose timer expires leaves if its owner's footprint is there. -/
theorem Debug.Listed.expire (h : d.Listed added) (hd : Nodes hash d held)
    (hst : d.step core hash .expire = some d') :
    d'.Listed (Recorded.note ⟨d, added⟩ .expire) := by
  have hrun : d.running = none := by
    by_contra hr
    unfold Debug.step at hst
    rw [if_neg hr] at hst
    cases hst
  unfold Recorded.note
  dsimp only
  cases he : expireTimers d.timers with
  | none =>
    unfold Debug.step at hst
    rw [if_pos hrun, he] at hst
    obtain rfl := Option.some.inj hst
    exact h
  | some p =>
    obtain ⟨n, timers⟩ := p
    obtain ⟨hlink, -, hnode, -, hmap⟩ := hd.expireKnown hrun he hst
    have hf : NgxMap.find hash compare d.map (d.uev n) = some n := hd.find_iff.mpr ⟨hlink, rfl⟩
    refine h.drop hd hf hmap (fun k _ => congrFun hnode k) fun k hk => ⟨fun hp => ?_, ?_⟩
    · obtain rfl := hd.unique hk hlink hp.1
      exact ⟨rfl, hp.2⟩
    · rintro ⟨rfl, hfp⟩
      exact ⟨rfl, hfp⟩

theorem Debug.Listed.step (h : d.Listed added) (hd : Nodes hash d d.running.toList) {i : Label}
    (hst : d.step core hash i = some d') : d'.Listed (Recorded.note ⟨d, added⟩ i) := by
  cases i with
  | add ev timer fpoff place => exact h.add hd ev timer fpoff place hst
  | del ev footprint =>
    obtain rfl := Option.some.inj hst
    exact h.del hd core ev footprint
  | expire => exact h.expire hd hst
  | ret =>
    unfold Debug.step at hst
    cases hrun : d.running with
    | none =>
      simp only [hrun] at hst
      cases hst
    | some n =>
      simp only [hrun] at hst
      cases hst
      rw [hrun] at hd
      have hfree : Nodes hash d [n] := hd
      refine h.congr (putNode_map d n) fun k hk => putNode_node d ?_
      exact fun e => hfree.not_mem (e ▸ hk)
  | _ =>
    cases hst
    exact h.congr rfl fun _ _ => rfl

end

/-- **The timers in the report.**  Whatever calls, expiries and owners there were, the report has
one line for each timer that was added and neither deleted with its footprint nor fired for its
owner, with the place where it was added first, and what it says to be in use are these and the
timer whose handler runs. -/
theorem reach_timerdState (core : NgxMap.Rbtree) (hash : Nat → Nat) (now : UInt64)
    (owners : Owners) (w : Recorded) (hr : (recorded core hash now owners).Reach w) {fuel : Nat}
    (hf : w.debug.nalloc - w.debug.nfree ≤ fuel) (detail : Bool) :
    ∃ b, timerdState w.debug fuel detail = some b ∧ b.written ≤ b.size ∧
      (detail = true → b.lines.Perm (w.added.map fun e =>
        snprintf lineSize (placeText e.place.file e.place.line))) ∧
      ∃ alloc free, readReport "##########ngx debug pool##########\n"
          ["ngx_timerd nalloc node: ", "ngx_timerd nfree node: "] b.head = some [alloc, free] ∧
        inUse alloc free = (w.added.length + w.debug.running.toList.length) % 2 ^ 64 := by
  obtain ⟨hnodes, hlisted⟩ := hr.invariant
    (P := fun w => Nodes hash w.debug w.debug.running.toList ∧ w.debug.Listed w.added)
    ⟨@nodes_start core hash now owners, .refl _⟩ fun w i w' _ h hst => by
      obtain ⟨d, hd, rfl⟩ := Option.map_eq_some_iff.mp hst
      exact ⟨(h.1.step hd).1, h.2.step h.1 hd⟩
  have hcount := hnodes.free.count
  rw [List.length_append] at hcount
  have hlen := hlisted.length_eq
  rw [List.length_map] at hlen
  have huse : w.debug.nalloc =
      w.debug.nfree + (w.added.length + w.debug.running.toList.length) := by omega
  have hlines := hlisted.map fun e => placeText e.place.file e.place.line
  rw [List.map_map] at hlines
  obtain ⟨b, hb, hfit, hlist, hread⟩ := debugState_lists "##########ngx debug pool##########\n"
    [⟨"ngx_timerd nalloc node: ", w.debug.nalloc⟩, ⟨"ngx_timerd nfree node: ", w.debug.nfree⟩]
    hnodes.sorted.nodup hlines (by omega : _ ≤ w.debug.nalloc - w.debug.nfree) hf detail
  exact ⟨b, hb, hfit, hlist, _, _, hread, inUse_eq huse⟩

/-- Event 1 is deleted with a wrong footprint, and the memory of event 2 is taken over before
its timer expires: both are in the report. -/
theorem reach_timerdState_left : ∃ (w : Recorded) (b : StateBuf), w.debug.running = none ∧
    timerdState w.debug 2 true = some b ∧
    b.lines.Perm [placeText "b.c" 4, placeText "a.c" 3] := by
  have hr := (recorded NgxMap.flatRbtree id 0 ⟨Int.ofNat, fun _ => 7⟩).reach_run
    [.add 1 10 0 ⟨"a.c", 3⟩, .add 2 5 0 ⟨"b.c", 4⟩, .del 1 8,
      .own ⟨Int.ofNat, fun p => if p = 2 then 9 else 7⟩, .time 5, .expire] rfl
  obtain ⟨b, hb, -, hlines, -⟩ := reach_timerdState _ _ _ _ _ hr (by decide : 2 - 0 ≤ 2) true
  exact ⟨_, b, rfl, hb, hlines rfl⟩

end Timerd

end NgxToolkit
