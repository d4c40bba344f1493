import Mathlib.Tactic.Common
import NgxToolkit.TimerdNodes

/-! What the footprints of `ngx_timerd.c` are for.

Memory is freed and taken by a new owner while a timer of the old one is pending.  Every owner
takes a footprint from `ngx_timerd_footprint` and keeps it at a place in its memory, and the
debug build compares it with the one of the timer.

* `hosted`: owners that come and go, add timers, and delete them, also when they are gone.
* `reach_outcomes`: a handler runs, and a timer is deleted, exactly for the owner that added
  the timer. -/

namespace NgxToolkit.Timerd

open Lib

/-- What `ngx_timerd_footprint` returns to the owner with the number `k`. -/
def timerdFootprint (k : Nat) : Nat := k % 2 ^ 64

/-- What becomes of a timer that expires or is deleted: who added it, for whom it is now, and
whether the handler is called, or the timer deleted. -/
structure Outcome where
  adder : Option Nat
  owner : Option Nat
  done : Bool
deriving DecidableEq

/-- A worker with the owners of its memory: `taken` is their number so far, `owner` the one of a
place now, and `adder` the owner that added the timer of a node. -/
structure Hosted where
  debug : Debug
  taken : Nat
  owner : Int → Option Nat
  adder : Nat → Option Nat
  outcomes : List Outcome

/-- The places of the footprints: `ev->data`, and the offset that is given to
`ngx_add_timer_debug`. -/
structure Layout where
  data : Nat → Int
  fpoff : Nat → Int

def Layout.at (m : Layout) (ev : Nat) : Int := m.data ev + m.fpoff ev

inductive HostedLabel where
  /-- a new owner takes the memory of a place -/
  | take (place : Int)
  /-- the owner of the event adds a timer -/
  | add (ev : Nat) (timer : UInt64) (place : Place)
  /-- an owner, whether it still is one or not, deletes the timer of an event -/
  | del (ev owner : Nat)
  | time (now : UInt64)
  | mark (ev : Nat) (timedout : Bool)
  | expire
  | ret

section
variable (core : NgxMap.Rbtree) (hash : Nat → Nat) (m : Layout)

def Hosted.step (w : Hosted) : HostedLabel → Option Hosted
  | .take place => some { w with
      debug := { w.debug with owners := { w.debug.owners with
        mem := Function.update w.debug.owners.mem place (timerdFootprint w.taken) } }
      taken := w.taken + 1
      owner := Function.update w.owner place (some w.taken) }
  | .add ev timer place =>
    match w.owner (m.at ev) with
    | none => none
    | some k =>
      (w.debug.step core hash (.add ev timer (m.fpoff ev) place)).map fun debug =>
        match NgxMap.find hash compare w.debug.map ev, NgxMap.find hash compare debug.map ev with
        | none, some n => { w with debug, adder := Function.update w.adder n (some k) }
        | _, _ => { w with debug }
  | .del ev k =>
    if k < w.taken then
      (w.debug.step core hash (.del ev (timerdFootprint k))).map fun debug =>
        match NgxMap.find hash compare w.debug.map ev with
        | none => { w with debug }
        | some n =>
          let done := (NgxMap.find hash compare debug.map ev).isNone
          { w with debug, outcomes := ⟨w.adder n, some k, done⟩ :: w.outcomes }
    else none
  | .expire =>
    (w.debug.step core hash .expire).map fun debug =>
      match expireTimers w.debug.timers with
      | none => { w with debug }
      | some (n, _) =>
        let done := debug.running == some n
        { w with
          debug
          outcomes := ⟨w.adder n, w.owner (m.at (w.debug.uev n)), done⟩ :: w.outcomes }
  | .time now => (w.debug.step core hash (.time now)).map fun debug => { w with debug }
  | .mark ev timedout =>
    (w.debug.step core hash (.mark ev timedout)).map fun debug => { w with debug }
  | .ret => (w.debug.step core hash .ret).map fun debug => { w with debug }

/-- Nobody has taken any memory. -/
def hosted (now : UInt64) (mem : Int → Nat) : Machine Hosted HostedLabel where
  start := ⟨(debug core hash now ⟨m.data, mem⟩).start, 0, fun _ => none, fun _ => none, []⟩
  step := Hosted.step core hash m

end

variable {core : NgxMap.Rbtree} {hash : Nat → Nat} {m : Layout}

/-! ## Nodes -/

/-- The footprint of a node is the one of the owner that added its timer, and is compared at the
place of its event. -/
structure Hosted.Signed (m : Layout) (w : Hosted) (n : Nat) : Prop where
  adder : ∃ k, w.adder n = some k ∧ k < w.taken ∧ (w.debug.node n).footprint = timerdFootprint k
  fpoff : (w.debug.node n).fpoff = m.fpoff (w.debug.uev n)
  owned : (w.owner (m.at (w.debug.uev n))).isSome

structure Hosted.Sound (hash : Nat → Nat) (m : Layout) (w : Hosted) : Prop where
  nodes : Nodes hash w.debug w.debug.running.toList
  data : w.debug.owners.data = m.data
  place : ∀ p k, w.owner p = some k → k < w.taken ∧ w.debug.owners.mem p = timerdFootprint k
  signed : ∀ n ∈ w.debug.map.linked, w.Signed m n
  outcomes : w.taken ≤ 2 ^ 64 → ∀ o ∈ w.outcomes, o.done = true ↔ o.adder = o.owner

/-- As long as there are not too many, owners have different footprints. -/
theorem timerdFootprint_inj {k k' taken : Nat} (htaken : taken ≤ 2 ^ 64) (hk : k < taken)
    (hk' : k' < taken) : timerdFootprint k = timerdFootprint k' ↔ k = k' := by
  unfold timerdFootprint
  rw [Nat.mod_eq_of_lt (by omega), Nat.mod_eq_of_lt (by omega)]

section
variable {w : Hosted}

/-- The comparison at the place of an event is one of owners. -/
theorem Hosted.Sound.footprint_iff (h : w.Sound hash m) (htaken : w.taken ≤ 2 ^ 64) {n : Nat}
    (hn : n ∈ w.debug.map.linked) :
    w.debug.owners.footprint (w.debug.uev n) (w.debug.node n).fpoff =
        (w.debug.node n).footprint ↔
      w.adder n = w.owner (m.at (w.debug.uev n)) := by
  obtain ⟨⟨k, hk, hklt, hfoot⟩, hfpoff, howned⟩ := h.signed n hn
  obtain ⟨k', hk'⟩ := Option.isSome_iff_exists.mp howned
  obtain ⟨hklt', hmem⟩ := h.place _ k' hk'
  have hread : w.debug.owners.footprint (w.debug.uev n) (w.debug.node n).fpoff =
      timerdFootprint k' := by
    unfold Owners.footprint
    rw [h.data, hfpoff]
    exact hmem
  rw [hread, hfoot, hk, hk', Option.some.injEq, timerdFootprint_inj htaken hklt' hklt]
  exact eq_comm

/-- What is left of the map keeps its signatures. -/
theorem Hosted.Signed.congr {w' : Hosted} {n : Nat} (h : w.Signed m n)
    (hnode : w'.debug.node n = w.debug.node n) (hadder : w'.adder n = w.adder n)
    (htaken : w'.taken = w.taken) (howner : w'.owner = w.owner) : w'.Signed m n := by
  have huev : w'.debug.uev n = w.debug.uev n := congrArg Node.uev hnode
  refine ⟨?_, ?_, ?_⟩
  · rw [hnode, hadder, htaken]
    exact h.adder
  · rw [hnode, huev]
    exact h.fpoff
  · rw [huev, howner]
    exact h.owned

/-- A new owner: the timers of the old one stay signed by it. -/
theorem Hosted.Sound.take (h : w.Sound hash m) (place : Int) :
    Hosted.Sound hash m { w with
      debug := { w.debug with owners := { w.debug.owners with
        mem := Function.update w.debug.owners.mem place (timerdFootprint w.taken) } }
      taken := w.taken + 1
      owner := Function.update w.owner place (some w.taken) } := by
  refine ⟨h.nodes.frame _ _ _ _ _, h.data, fun p k hk => ?_, fun n hn => ?_, fun htaken => ?_⟩
  · show k < w.taken + 1 ∧ Function.update w.debug.owners.mem place _ p = _
    change Function.update w.owner place (some w.taken) p = some k at hk
    by_cases hp : p = place
    · subst hp
      rw [Function.update_self] at hk ⊢
      obtain rfl := Option.some.inj hk
      exact ⟨Nat.lt_succ_self _, rfl⟩
    · rw [Function.update_of_ne hp] at hk ⊢
      obtain ⟨hlt, hmem⟩ := h.place p k hk
      exact ⟨Nat.lt_succ_of_lt hlt, hmem⟩
  · obtain ⟨⟨k, hk, hklt, hfoot⟩, hfpoff, howned⟩ := h.signed n hn
    refine ⟨⟨k, hk, Nat.lt_succ_of_lt hklt, hfoot⟩, hfpoff, ?_⟩
    show (Function.update w.owner place (some w.taken) (m.at (w.debug.uev n))).isSome
    by_cases hp : m.at (w.debug.uev n) = place
    · rw [hp, Function.update_self]
      rfl
    · rw [Function.update_of_ne hp]
      exact howned
  · exact h.outcomes (Nat.le_of_succ_le htaken)

/-- A step of the module that leaves the nodes of the map as they are. -/
theorem Hosted.Sound.keep (h : w.Sound hash m) {d : Debug}
    (hnodes : Nodes hash d d.running.toList) (howners : d.owners = w.debug.owners)
    (hnode : ∀ n ∈ d.map.linked, n ∈ w.debug.map.linked ∧ d.node n = w.debug.node n) :
    Hosted.Sound hash m { w with debug := d } := by
  refine ⟨hnodes, ?_, fun p k hk => ?_, fun n hn => ?_, h.outcomes⟩
  · show d.owners.data = _
    rw [howners]
    exact h.data
  · show _ ∧ d.owners.mem p = _
    rw [howners]
    exact h.place p k hk
  · obtain ⟨hmem, hsame⟩ := hnode n hn
    exact (h.signed n hmem).congr hsame rfl rfl rfl

theorem Hosted.Sound.log (h : w.Sound hash m) {o : Outcome}
    (ho : w.taken ≤ 2 ^ 64 → (o.done = true ↔ o.adder = o.owner)) :
    Hosted.Sound hash m { w with outcomes := o :: w.outcomes } := by
  refine ⟨h.nodes, h.data, h.place, fun n hn => (h.signed n hn).congr rfl rfl rfl rfl,
    fun htaken o' ho' => ?_⟩
  rcases List.mem_cons.mp ho' with rfl | ho'
  · exact ho htaken
  · exact h.outcomes htaken o' ho'

end

/-! ## What a call does to the nodes of the map -/

section
variable {d d' : Debug} {held : List Nat}

variable (core) in
/-- `ngx_add_timer_debug` of an event with a node writes no node. -/
theorem Nodes.addKnown (h : Nodes hash d held) (hpool : d.pool = true) {ev n : Nat}
    (hf : NgxMap.find hash compare d.map ev = some n) (timer : UInt64) (fpoff : Int)
    (place : Place) :
    ∃ d', addTimerDebug core hash d ev timer fpoff place = some d' ∧ Nodes hash d' held ∧
      d'.running = d.running ∧ d'.owners = d.owners ∧ d'.map = d.map ∧ d'.node = d.node := by
  have hlink := (h.find_iff.mp hf).1
  unfold addTimerDebug
  simp only [if_pos hpool, hf]
  split
  · exact ⟨d, rfl, h, rfl, rfl, rfl, rfl⟩
  · exact ⟨_, rfl, (h.arm hlink timer).frame d.owners _ d.timedout d.running d.called, rfl, rfl,
      rfl, rfl⟩

/-- A node that leaves the map is not one of those left. -/
theorem Nodes.mem_delete (h : Nodes hash d held) (core : NgxMap.Rbtree) {ev n : Nat}
    (hf : NgxMap.find hash compare d.map ev = some n) {k : Nat}
    (hk : k ∈ (NgxMap.delete core hash compare d.map ev).linked) :
    k ∈ d.map.linked ∧ k ≠ n := by
  have hperm := h.sorted.delete_perm core hf
  refine ⟨hperm.mem_iff.mpr (List.mem_cons_of_mem _ hk), ?_⟩
  rintro rfl
  exact (List.nodup_cons.mp (hperm.nodup_iff.mp h.sorted.nodup)).1 hk

theorem putNode_owners (d : Debug) (n : Nat) : (putNode d n).owners = d.owners := by
  unfold putNode
  split <;> rfl

theorem putNode_node (d : Debug) {n k : Nat} (hk : k ≠ n) : (putNode d n).node k = d.node k := by
  unfold putNode
  split
  · rfl
  · exact Function.update_of_ne hk _ _

/-- `ngx_del_timer_debug` takes the node out of the map if its footprint is the one given,
and leaves the others. -/
theorem Nodes.delKnown (h : Nodes hash d held) (core : NgxMap.Rbtree) {ev n : Nat}
    (hf : NgxMap.find hash compare d.map ev = some n) (footprint : Nat) :
    (delTimerDebug core hash d ev footprint).owners = d.owners ∧
    (delTimerDebug core hash d ev footprint).map =
      (if (d.node n).footprint = footprint then NgxMap.delete core hash compare d.map ev
      else d.map) ∧
    ∀ k ∈ (delTimerDebug core hash d ev footprint).map.linked,
      k ∈ d.map.linked ∧ (delTimerDebug core hash d ev footprint).node k = d.node k := by
  have hposted := (h.shadow n (h.find_iff.mp hf).1).2
  by_cases hfp : (d.node n).footprint = footprint
  · obtain ⟨d', hd', hmap, howners, hnode⟩ : ∃ d', delTimerDebug core hash d ev footprint =
        putNode d' n ∧ d'.map = NgxMap.delete core hash compare d.map ev ∧
        d'.owners = d.owners ∧ d'.node = d.node := by
      unfold delTimerDebug
      simp only [hf, hfp, ne_eq, not_true_eq_false, if_false]
      rw [if_neg (by split <;> simp [hposted])]
      split <;> exact ⟨_, rfl, rfl, rfl, rfl⟩
    rw [hd', putNode_owners, putNode_map, if_pos hfp]
    refine ⟨howners, hmap, fun k hk => ?_⟩
    rw [hmap] at hk
    obtain ⟨hmem, hne⟩ := h.mem_delete core hf hk
    rw [putNode_node d' hne, hnode]
    exact ⟨hmem, rfl⟩
  · have heq : delTimerDebug core hash d ev footprint = d := by
      unfold delTimerDebug
      simp only [hf, if_pos hfp]
    rw [heq, if_neg hfp]
    exact ⟨rfl, rfl, fun k hk => ⟨hk, rfl⟩⟩

/-- When a timer expires, its handler is called if the footprint of its node is at the place
of its event, and the other nodes are left. -/
theorem Nodes.expireKnown (h : Nodes hash d held) {n : Nat} {timers : Timers}
    (hrun : d.running = none) (he : expireTimers d.timers = some (n, timers))
    (hst : d.step core hash .expire = some d') :
    n ∈ d.map.linked ∧ d'.owners = d.owners ∧ d'.node = d.node ∧
    (d'.running = some n ↔
      d.owners.footprint (d.uev n) (d.node n).fpoff = (d.node n).footprint) ∧
    d'.map = if d.owners.footprint (d.uev n) (d.node n).fpoff = (d.node n).footprint then
      NgxMap.delete core hash compare d.map (d.uev n) else d.map := by
  have hlink := h.armed n (expireTimers_eq_some he).1
  unfold Debug.step at hst
  rw [if_pos hrun, he] at hst
  unfold timerdWrap at hst
  simp only [(h.shadow n hlink).1] at hst
  refine ⟨hlink, ?_⟩
  by_cases hfp : d.owners.footprint (d.node n).uev (d.node n).fpoff = (d.node n).footprint
  · rw [if_neg (by simpa using hfp)] at hst
    cases hst
    exact ⟨rfl, rfl, ⟨fun _ => hfp, fun _ => rfl⟩, (if_pos hfp).symm⟩
  · rw [if_pos hfp] at hst
    cases hst
    refine ⟨rfl, rfl, ⟨fun hr => ?_, fun hr => absurd hr hfp⟩, (if_neg hfp).symm⟩
    rw [show d.running = some n from hr] at hrun
    cases hrun

end

/-! ## Steps -/

section
variable {w w' : Hosted}

/-- The owner of an event gets a node for it. -/
theorem Hosted.Sound.enter (h : w.Sound hash m) {d : Debug} {n k : Nat}
    (hnodes : Nodes hash d d.running.toList) (howners : d.owners = w.debug.owners)
    (hlinked : ∀ n' ∈ d.map.linked, n' = n ∨ n' ∈ w.debug.map.linked)
    (hold : ∀ n' ≠ n, d.node n' = w.debug.node n') (hk : w.owner (m.at (d.uev n)) = some k)
    (hfoot : (d.node n).footprint = timerdFootprint k)
    (hfpoff : (d.node n).fpoff = m.fpoff (d.uev n)) :
    Hosted.Sound hash m { w with debug := d, adder := Function.update w.adder n (some k) } := by
  refine ⟨hnodes, ?_, fun p k' hk' => ?_, fun n' hn' => ?_, h.outcomes⟩
  · show d.owners.data = _
    rw [howners]
    exact h.data
  · show _ ∧ d.owners.mem p = _
    rw [howners]
    exact h.place p k' hk'
  · by_cases hne : n' = n
    · subst hne
      refine ⟨⟨k, Function.update_self _ _ _, (h.place _ k hk).1, hfoot⟩, hfpoff, ?_⟩
      show (w.owner (m.at (d.uev n'))).isSome
      rw [hk]
      rfl
    · have hmem := (hlinked n' hn').resolve_left hne
      exact (h.signed n' hmem).congr (hold n' hne) (Function.update_of_ne hne _ _) rfl rfl

/-- The owner of an event adds a timer. -/
theorem Hosted.Sound.add (h : w.Sound hash m) {ev : Nat} {timer : UInt64} {place : Place}
    (hst : w.step core hash m (.add ev timer place) = some w') : w'.Sound hash m := by
  simp only [Hosted.step] at hst
  cases hk : w.owner (m.at ev) with
  | none =>
    rw [hk] at hst
    cases hst
  | some k =>
    rw [hk] at hst
    obtain ⟨d1, heq, h1, hpool, hmap, -, hrun, howners, hnode⟩ :=
      h.nodes.initAdd core ev timer (m.fpoff ev) place
    cases hf : NgxMap.find hash compare w.debug.map ev with
    | some n =>
      obtain ⟨d, hadd, hd, hrun', howners', hmap', hnode'⟩ :=
        h1.addKnown core hpool (hmap ▸ hf) timer (m.fpoff ev) place
      have hadd' : w.debug.step core hash (.add ev timer (m.fpoff ev) place) = some d :=
        heq.trans hadd
      simp only [hadd', hf, Option.map_some, Option.some.injEq] at hst
      subst hst
      rw [← hrun, ← hrun'] at hd
      refine h.keep hd (howners'.trans howners) fun k hk => ?_
      rw [hmap', hmap] at hk
      rw [hnode', hnode]
      exact ⟨hk, rfl⟩
    | none =>
      obtain ⟨n, d, hadd, hd, hrun', hperm, huev, -, howners', hnode'⟩ :=
        h1.addNew core hpool (hmap ▸ hf) timer (m.fpoff ev) place
      have hadd' : w.debug.step core hash (.add ev timer (m.fpoff ev) place) = some d :=
        heq.trans hadd
      have hlink : n ∈ d.map.linked := hperm.mem_iff.mpr List.mem_cons_self
      have hfind : NgxMap.find hash compare d.map ev = some n := hd.find_iff.mpr ⟨hlink, huev⟩
      simp only [hadd', hf, hfind, Option.map_some, Option.some.injEq] at hst
      subst hst
      rw [← hrun, ← hrun'] at hd
      rw [hmap] at hperm
      refine h.enter hd (howners'.trans howners)
        (fun n' hn' => List.mem_cons.mp (hperm.mem_iff.mp hn')) (fun n' hne => ?_)
        (by rw [huev]; exact hk) ?_ ?_
      · rw [hnode', Function.update_of_ne hne, hnode]
      · rw [hnode', Function.update_self, howners]
        show w.debug.owners.mem (w.debug.owners.data ev + m.fpoff ev) = _
        rw [h.data]
        exact (h.place _ k hk).2
      · rw [huev, hnode', Function.update_self]

/-- An owner deletes a timer, maybe one of another owner. -/
theorem Hosted.Sound.del (h : w.Sound hash m) {ev k : Nat}
    (hst : w.step core hash m (.del ev k) = some w') : w'.Sound hash m := by
  simp only [Hosted.step] at hst
  by_cases hk : k < w.taken
  · obtain ⟨hd, hrun, -⟩ := h.nodes.del core ev (timerdFootprint k)
    rw [← hrun] at hd
    simp only [if_pos hk, Debug.step, Option.map_some, Option.some.injEq] at hst
    cases hf : NgxMap.find hash compare w.debug.map ev with
    | none =>
      have heq : delTimerDebug core hash w.debug ev (timerdFootprint k) = w.debug := by
        unfold delTimerDebug
        rw [hf]
      rw [hf] at hst
      subst hst
      dsimp only
      rw [heq]
      exact h
    | some n =>
      obtain ⟨howners, hmap, hnode⟩ := h.nodes.delKnown core hf (timerdFootprint k)
      obtain ⟨hlink, huev⟩ := h.nodes.find_iff.mp hf
      obtain ⟨⟨k', hk', hklt', hfoot⟩, -, -⟩ := h.signed n hlink
      rw [hf] at hst
      subst hst
      refine (h.keep hd howners hnode).log fun htaken => ?_
      show (NgxMap.find hash compare _ ev).isNone = true ↔ w.adder n = some k
      rw [hk', Option.some.injEq, ← timerdFootprint_inj htaken hklt' hk, ← hfoot, hmap]
      by_cases hfp : (w.debug.node n).footprint = timerdFootprint k
      · rw [if_pos hfp, NgxMap.find_delete h.nodes.sorted, if_pos Std.ReflCmp.compare_self]
        exact ⟨fun _ => hfp, fun _ => rfl⟩
      · rw [if_neg hfp, hf]
        exact ⟨fun hc => (by cases hc), fun hc => absurd hc hfp⟩
  · rw [if_neg hk] at hst
    cases hst

/-- A timer expires, maybe one of an owner that is gone. -/
theorem Hosted.Sound.expire (h : w.Sound hash m)
    (hst : w.step core hash m .expire = some w') : w'.Sound hash m := by
  simp only [Hosted.step] at hst
  obtain ⟨d, hd, hw⟩ := Option.map_eq_some_iff.mp hst
  have hnodes := (h.nodes.step hd).1
  have hrun : w.debug.running = none := by
    by_contra hr
    unfold Debug.step at hd
    rw [if_neg hr] at hd
    cases hd
  cases he : expireTimers w.debug.timers with
  | none =>
    have hsame : d = w.debug := by
      unfold Debug.step at hd
      rw [if_pos hrun, he] at hd
      exact (Option.some.inj hd).symm
    rw [he] at hw
    subst hw
    rw [hsame]
    exact h
  | some p =>
    obtain ⟨n, timers⟩ := p
    obtain ⟨hlink, howners, hsame, hdone, hmap⟩ := h.nodes.expireKnown hrun he hd
    have hf : NgxMap.find hash compare w.debug.map (w.debug.uev n) = some n :=
      h.nodes.find_iff.mpr ⟨hlink, rfl⟩
    rw [he] at hw
    subst hw
    refine Hosted.Sound.log (h.keep hnodes howners fun k hk => ?_) fun htaken => ?_
    · rw [hsame]
      refine ⟨?_, rfl⟩
      rw [hmap] at hk
      split at hk
      · exact (h.nodes.mem_delete core hf hk).1
      · exact hk
    show (d.running == some n) = true ↔ w.adder n = w.owner (m.at (w.debug.uev n))
    rw [beq_iff_eq, hdone]
    exact h.footprint_iff htaken hlink

/-- The handler returns, and its node is free. -/
theorem Hosted.Sound.ret (h : w.Sound hash m)
    (hst : w.step core hash m .ret = some w') : w'.Sound hash m := by
  simp only [Hosted.step] at hst
  obtain ⟨d, hd, rfl⟩ := Option.map_eq_some_iff.mp hst
  have hnodes := (h.nodes.step hd).1
  unfold Debug.step at hd
  cases hrun : w.debug.running with
  | none =>
    simp only [hrun] at hd
    cases hd
  | some n =>
    simp only [hrun] at hd
    cases hd
    have hheld : Nodes hash w.debug [n] := by
      have := h.nodes
      rwa [hrun] at this
    refine h.keep hnodes (putNode_owners _ _) fun k hk => ?_
    rw [show (putNode w.debug n).map = w.debug.map from putNode_map _ _] at hk
    have hne : k ≠ n := fun e => hheld.not_mem (e ▸ hk)
    exact ⟨hk, putNode_node _ hne⟩

theorem Hosted.Sound.step (h : w.Sound hash m) {i : HostedLabel}
    (hst : w.step core hash m i = some w') : w'.Sound hash m := by
  cases i with
  | take place =>
    cases hst
    exact h.take place
  | add ev timer place => exact h.add hst
  | del ev k => exact h.del hst
  | time now =>
    unfold Hosted.step at hst
    obtain ⟨d, hd, rfl⟩ := Option.map_eq_some_iff.mp hst
    have hnodes := (h.nodes.step hd).1
    cases hd
    exact h.keep hnodes rfl fun k hk => ⟨hk, rfl⟩
  | mark ev timedout =>
    unfold Hosted.step at hst
    obtain ⟨d, hd, rfl⟩ := Option.map_eq_some_iff.mp hst
    have hnodes := (h.nodes.step hd).1
    cases hd
    exact h.keep hnodes rfl fun k hk => ⟨hk, rfl⟩
  | expire => exact h.expire hst
  | ret => exact h.ret hst

end

/-! ## Runs -/

/-- **Timers and their owners.**  Whatever owners come and go, and whoever adds and deletes
timers: as long as no more than 2 ^ 64 of them have taken a footprint, a timer that expires
calls its handler exactly if its memory still is of the owner that added it, and a timer is
deleted exactly by that owner. -/
theorem reach_outcomes (core : NgxMap.Rbtree) (hash : Nat → Nat) (m : Layout) (now : UInt64)
    (mem : Int → Nat) (w : Hosted) (hr : (hosted core hash m now mem).Reach w)
    (htaken : w.taken ≤ 2 ^ 64) : ∀ o ∈ w.outcomes, o.done = true ↔ o.adder = o.owner := by
  have hsound : w.Sound hash m := by
    refine hr.invariant (P := fun w => w.Sound hash m) ?_ fun _ _ _ _ h hst => h.step hst
    exact ⟨@nodes_start core hash now _, rfl, fun _ _ hk => (by cases hk),
      fun _ hn => (by cases hn), fun _ _ ho => (by cases ho)⟩
  exact hsound.outcomes htaken

/-- The memory of event 2 gets a new owner, which can neither delete the old timer nor is
called for it. -/
theorem reach_outcomes_gone : ∃ w : Hosted,
    (hosted NgxMap.flatRbtree id ⟨Int.ofNat, fun _ => 0⟩ 0 fun _ => 7).run
      (hosted NgxMap.flatRbtree id ⟨Int.ofNat, fun _ => 0⟩ 0 fun _ => 7).start
      [.take 1, .add 1 10 ⟨"a.c", 3⟩, .take 2, .add 2 20 ⟨"b.c", 4⟩, .take 2, .del 2 2, .time 20,
        .expire, .ret, .expire] = some w ∧
      w.outcomes = [⟨some 1, some 2, false⟩, ⟨some 0, some 0, true⟩, ⟨some 1, some 2, false⟩] ∧
      w.debug.called = [1] ∧
      ∀ o ∈ w.outcomes, o.done = true ↔ o.adder = o.owner :=
  ⟨_, rfl, rfl, rfl, reach_outcomes NgxMap.flatRbtree id ⟨Int.ofNat, fun _ => 0⟩ 0 (fun _ => 7) _
    (Machine.reach_run _ [.take 1, .add 1 10 ⟨"a.c", 3⟩, .take 2, .add 2 20 ⟨"b.c", 4⟩, .take 2,
      .del 2 2, .time 20, .expire, .ret, .expire] rfl) (by decide)⟩

end NgxToolkit.Timerd
