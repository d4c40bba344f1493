import Mathlib.Data.List.Nodup
import NgxToolkit.EventTimer
import NgxToolkit.Lib.Chain
import NgxToolkit.Lib.Machine

/-! Runs of the event timer module: adds, deletes and expiries in any order and
nested in any way.

`World` adds to the module's state the C stack of running event handlers and a
record of the run: which `add_timer` call was handed which slot (`adds`, the
index of an entry is the call's number), and what fired and was cancelled
(`log`).  The record is not read by any step.

`Inv` is what every step keeps.  It says of each slot that it is free, armed or
running (`Slot`), that the free list visits the free slots, and that an armed
slot still holds what its own `add_timer` call stored. -/

namespace NgxToolkit.EventTimer

open Lib

/-- A successful `add_timer` call: its handler, its argument and the id it returned. -/
structure Add (η δ : Type) where
  handler : η
  data : δ
  timerid : Nat
deriving DecidableEq

/-- What ends an armed timer: it fires, making a user call, or a `del_timer`
through the id of the add call `via` cancels it. -/
inductive Event (η δ : Type) where
  | fired (k : Nat) (call : Option (η × δ))
  | cancelled (k : Nat) (via : Option Nat)
deriving DecidableEq

/-- The add call whose timer an event ends. -/
def Event.ends {η δ : Type} : Event η δ → Nat
  | .fired k _ => k
  | .cancelled k _ => k

structure World (η δ : Type) where
  etcf : Conf η δ
  /-- slots whose `ngx_event_timer_event_handler` is on the C stack, innermost first -/
  running : List Nat
  /-- the add call that a slot was last handed to -/
  owner : Nat → Nat
  adds : List (Add η δ)
  log : List (Event η δ)

/-- What the clients and the event loop can do.  `del timerid via` deletes an
id which the add call `via` returned (`none`: an id from anywhere). -/
inductive Label (η δ : Type) where
  | add (h : Option η) (data : δ)
  | del (timerid : Nat) (via : Option Nat)
  | expire (slot : Nat)
  | ret

variable {η δ : Type}

def World.add (w : World η δ) (h : Option η) (data : δ) : Option (World η δ) :=
  match h, addTimer w.etcf h data with
  | some h, some (.ofNat id, etcf) =>
    some { w with etcf, owner := Function.update w.owner id w.adds.length
                  adds := w.adds ++ [⟨h, data, id⟩] }
  | _, some (_, etcf) => some { w with etcf }
  | _, none => none

def World.del (w : World η δ) (timerid : Nat) (via : Option Nat) : World η δ :=
  { w with
    etcf := delTimer w.etcf timerid
    log := if (w.etcf.timerCtx timerid).timerSet then
        .cancelled (w.owner timerid) via :: w.log else w.log }

def World.expire (w : World η δ) (slot : Nat) : Option (World η δ) :=
  (expireTimer w.etcf slot).map fun (ctx, call, etcf) =>
    { w with etcf, running := ctx :: w.running, log := .fired (w.owner slot) call :: w.log }

/-- One step.  Adds and deletes come from anywhere, also from inside a running
handler; an expiry may interrupt anything; `ret` is the return of the innermost
user handler, after which its slot is freed. -/
def World.step (w : World η δ) : Label η δ → Option (World η δ)
  | .add h data => w.add h data
  | .del timerid via =>
    if timerid < w.etcf.timerN ∧ (∀ k, via = some k → (w.adds[k]?.map (·.timerid)) = some timerid) then
      some (w.del timerid via)
    else none
  | .expire slot =>
    if slot < w.etcf.timerN ∧ (w.etcf.timerCtx slot).timerSet then w.expire slot else none
  | .ret =>
    match w.running with
    | [] => none
    | ctx :: running => some { w with etcf := freeTimer w.etcf ctx, running }

/-- The module in a worker with `timerN` slots, from `ngx_event_timer_process_init` on. -/
def machine (timerN : Nat) (mem : Nat → TimerCtx η δ) : Machine (World η δ) (Label η δ) where
  start := ⟨processInit timerN mem, [], fun _ => 0, [], []⟩
  step := World.step

/-! ## The invariant -/

/-- The cell that a free slot links to. -/
def Conf.next (etcf : Conf η δ) (i : Nat) : Option Nat := (etcf.timerCtx i).data.next

/-- The record of a run agrees with the slots: an armed slot holds what its own
add call stored and has not ended, a fired timer called its own handler, no
timer ended twice, and a call's timer is either armed in its slot or ended. -/
structure Record (n : Nat) (w : World η δ) : Prop where
  armed : ∀ i < n, (w.etcf.timerCtx i).timerSet = true →
    (w.etcf.timerCtx i).eventData = some i ∧ (∀ e ∈ w.log, e.ends ≠ w.owner i) ∧
      ∃ a, w.adds[w.owner i]? = some a ∧ a.timerid = i ∧
        (w.etcf.timerCtx i).handler = some a.handler ∧ (w.etcf.timerCtx i).data = .user a.data
  fired : ∀ k call, .fired k call ∈ w.log →
    ∃ a, w.adds[k]? = some a ∧ call = some (a.handler, a.data)
  ends_lt : ∀ e ∈ w.log, e.ends < w.adds.length
  ends_nodup : (w.log.map Event.ends).Nodup
  handed : ∀ k a, w.adds[k]? = some a → a.timerid < n ∧ k ≤ w.owner a.timerid ∧
    (((w.etcf.timerCtx a.timerid).timerSet = true ∧ w.owner a.timerid = k) ∨
      ∃ e ∈ w.log, e.ends = k)

/-- What every step keeps; `free` is the free list. -/
structure Inv (n : Nat) (w : World η δ) (free : List Nat) : Prop extends Record n w where
  timerN : w.etcf.timerN = n
  chain : Linked w.etcf.next w.etcf.freeTimers free
  length : w.etcf.freeTimerN = free.length
  free_slot : ∀ i ∈ free, i < n ∧ (w.etcf.timerCtx i).timerSet = false ∧ i ∉ w.running ∧
    ∃ p, (w.etcf.timerCtx i).data = .link p
  running_slot : ∀ i ∈ w.running, i < n ∧ (w.etcf.timerCtx i).timerSet = false
  running_nodup : w.running.Nodup
  slot : ∀ i < n, i ∈ free ∨ (w.etcf.timerCtx i).timerSet = true ∨ i ∈ w.running
  timerid : ∀ i < n, (w.etcf.timerCtx i).timerid = i

/-- After the loop of `process_init` the slots below `i` are linked in front of
the chain the loop was given. -/
theorem initLoop_spec : ∀ (i : Nat) (t : Nat → TimerCtx η δ) (p : Option Nat) (l : List Nat),
    (∀ j ∈ l, i ≤ j) → Linked (fun j => (t j).data.next) p l →
    Linked (fun j => ((initLoop i t p).1 j).data.next) (initLoop i t p).2 (List.range i ++ l) ∧
      (∀ j < i, ((initLoop i t p).1 j).timerid = j ∧ ((initLoop i t p).1 j).timerSet = false ∧
        ∃ q, ((initLoop i t p).1 j).data = .link q) ∧
      ∀ j, i ≤ j → (initLoop i t p).1 j = t j
  | 0, t, p, l, _, h => ⟨h, by simp, fun _ _ => rfl⟩
  | i + 1, t, p, l, hl, h => by
    have hi : i ∉ l := fun hm => by have := hl i hm; omega
    have hfun : (fun j => (Function.update t i { t i with
        timerid := i, timerSet := false, handler := none, data := .link p } j).data.next) =
        Function.update (fun j => (t j).data.next) i p := by
      funext j
      by_cases hj : j = i
      · subst hj; simp [Data.next]
      · simp [hj]
    obtain ⟨h1, h2, h3⟩ := initLoop_spec i (Function.update t i { t i with
      timerid := i, timerSet := false, handler := none, data := .link p }) (some i) (i :: l)
      (by
        intro j hj
        rcases List.mem_cons.mp hj with rfl | hj
        · exact Nat.le_refl _
        · have := hl j hj; omega)
      (by rw [hfun]; exact h.push hi)
    rw [initLoop]
    refine ⟨?_, fun j hj => ?_, fun j hj => ?_⟩
    · rw [List.range_succ, List.append_assoc]
      exact h1
    · rcases Nat.lt_succ_iff_lt_or_eq.mp hj with hj | rfl
      · exact h2 j hj
      · rw [h3 j (Nat.le_refl _)]
        simp
    · rw [h3 j (by omega)]
      exact Function.update_of_ne (by omega) _ _

theorem inv_start (n : Nat) (mem : Nat → TimerCtx η δ) :
    ∃ free, Inv n (machine n mem).start free := by
  by_cases hn : n = 0
  · subst hn
    refine ⟨[], ?_⟩
    constructor
    · constructor <;> simp [machine, processInit]
    all_goals simp [machine, processInit]
  · obtain ⟨h1, h2, -⟩ := initLoop_spec n mem none [] (by simp) (by simp)
    rw [List.append_nil] at h1
    refine ⟨List.range n, ?_⟩
    have he : (machine n mem).start.etcf = ⟨n, (initLoop n mem none).1, (initLoop n mem none).2, n⟩ := by
      simp [machine, processInit, hn]
    have ht : ∀ i < n, (((machine n mem).start.etcf).timerCtx i).timerSet = false := by
      intro i hi
      rw [he]
      exact (h2 i hi).2.1
    constructor
    · constructor
      · intro i hi hs
        rw [ht i hi] at hs
        cases hs
      all_goals simp [machine]
    · rw [he]
    · rw [he]; exact h1
    · rw [he, List.length_range]
    · intro i hi
      rw [List.mem_range] at hi
      refine ⟨hi, ht i hi, by simp [machine], ?_⟩
      rw [he]
      exact (h2 i hi).2.2
    · simp [machine]
    · simp [machine]
    · exact fun i hi => Or.inl (List.mem_range.mpr hi)
    · intro i hi
      rw [he]
      exact (h2 i hi).1

/-! ## One step -/

section
variable {n : Nat} {w : World η δ} {free : List Nat}

theorem Inv.getTimer_nil (hw : Inv n w []) : getTimer w.etcf = some (none, w.etcf) := by
  unfold getTimer
  rw [if_pos (by simpa using hw.length)]

theorem Inv.getTimer_cons {i : Nat} {rest : List Nat} (hw : Inv n w (i :: rest)) :
    getTimer w.etcf =
      some (some i, { w.etcf with freeTimers := w.etcf.next i, freeTimerN := rest.length }) := by
  have hlen := hw.length
  rw [List.length_cons] at hlen
  obtain ⟨-, -, -, p, hp⟩ := hw.free_slot i List.mem_cons_self
  unfold getTimer
  rw [if_neg (by omega), hw.chain.1]
  simp only [hp, Conf.next, Data.next, hlen, Nat.add_sub_cancel]

/-- `add_timer` fails exactly when there is no handler or no free slot, and
otherwise hands out the head of the free list. -/
theorem Inv.addTimer_spec (hw : Inv n w free) (h : Option η) (data : δ) :
    (addTimer w.etcf h data = some (ngxError, w.etcf) ∧ (h = none ∨ free = [])) ∨
    ∃ h' i rest, h = some h' ∧ free = i :: rest ∧ addTimer w.etcf h data = some ((i : Int),
      { w.etcf with
        freeTimers := w.etcf.next i, freeTimerN := rest.length
        timerCtx := Function.update w.etcf.timerCtx i
          { w.etcf.timerCtx i with
            eventData := some i, handler := some h', data := .user data, timerSet := true } }) := by
  cases h with
  | none => exact Or.inl ⟨rfl, Or.inl rfl⟩
  | some h =>
    cases free with
    | nil =>
      left
      simp only [addTimer, hw.getTimer_nil, or_true, and_self]
    | cons i rest =>
      right
      refine ⟨h, i, rest, rfl, rfl, ?_⟩
      simp only [addTimer, hw.getTimer_cons]
      rw [hw.timerid i (hw.free_slot i List.mem_cons_self).1]

/-- What an armed slot does when it expires. -/
theorem Record.expireTimer_spec (hw : Record n w) {slot : Nat} (hid : slot < n)
    (hs : (w.etcf.timerCtx slot).timerSet = true) :
    ∃ a, w.adds[w.owner slot]? = some a ∧ a.timerid = slot ∧
      expireTimer w.etcf slot =
        some (slot, some (a.handler, a.data), clearTimerSet w.etcf slot) := by
  obtain ⟨hed, -, a, ha, haid, hh, hd⟩ := hw.armed slot hid hs
  refine ⟨a, ha, haid, ?_⟩
  simp only [expireTimer, hed, hh, hd]

theorem Record.add (hw : Record n w) {etcf : Conf η δ} {i : Nat} {h : η} {data : δ} (hin : i < n)
    (hset : (w.etcf.timerCtx i).timerSet = false)
    (hself : etcf.timerCtx i = { w.etcf.timerCtx i with
      eventData := some i, handler := some h, data := .user data, timerSet := true })
    (hother : ∀ j, j ≠ i → etcf.timerCtx j = w.etcf.timerCtx j) :
    Record n { w with etcf, owner := Function.update w.owner i w.adds.length
                      adds := w.adds ++ [⟨h, data, i⟩] } := by
  have hold : ∀ {k a}, w.adds[k]? = some a → (w.adds ++ [⟨h, data, i⟩])[k]? = some a :=
    fun hk => List.getElem?_append_left (List.getElem?_eq_some_iff.mp hk).1 ▸ hk
  constructor
  · intro j hj hs
    by_cases hji : j = i
    · subst hji
      simp only [hself, Function.update_self]
      refine ⟨trivial, fun e he => ?_, ⟨h, data, j⟩, by simp, rfl, rfl, rfl⟩
      have := hw.ends_lt e he
      omega
    · simp only [hother j hji, Function.update_of_ne hji] at hs ⊢
      obtain ⟨h1, h2, a, h3, h4⟩ := hw.armed j hj hs
      exact ⟨h1, h2, a, hold h3, h4⟩
  · intro k call hk
    obtain ⟨a, h1, h2⟩ := hw.fired k call hk
    exact ⟨a, hold h1, h2⟩
  · intro e he
    have := hw.ends_lt e he
    simp only [List.length_append, List.length_singleton]
    omega
  · exact hw.ends_nodup
  · intro k a hk
    simp only [List.getElem?_append] at hk
    split at hk
    · obtain ⟨h1, h2, h3⟩ := hw.handed k a hk
      by_cases hai : a.timerid = i
      · -- the slot was free, so the earlier call's timer had ended
        rw [hai, hset] at h3
        refine ⟨h1, ?_, ?_⟩
        · simp only [hai, Function.update_self]
          omega
        · rcases h3 with ⟨h3, -⟩ | h3
          · cases h3
          · exact Or.inr h3
      · simpa [hother _ hai, Function.update_of_ne hai] using And.intro h1 (And.intro h2 h3)
    · rw [List.getElem?_singleton] at hk
      split at hk
      · cases hk
        have hk' : k = w.adds.length := by omega
        simp [hk', hin, hself]
      · cases hk

/-- An armed slot is cleared and the end of its timer is recorded. -/
theorem Record.ended (hw : Record n w) {etcf : Conf η δ} {running : List Nat} {slot : Nat}
    {e : Event η δ} (hid : slot < n) (hs : (w.etcf.timerCtx slot).timerSet = true)
    (he : e.ends = w.owner slot)
    (hcall : ∀ k call, e = .fired k call →
      ∃ a, w.adds[k]? = some a ∧ call = some (a.handler, a.data))
    (hself : (etcf.timerCtx slot).timerSet = false)
    (hother : ∀ j, j ≠ slot → etcf.timerCtx j = w.etcf.timerCtx j) :
    Record n { w with etcf, running, log := e :: w.log } := by
  obtain ⟨-, hopen, a, hown, haid, -⟩ := hw.armed slot hid hs
  constructor
  · intro j hj hjs
    by_cases hj' : j = slot
    · subst hj'
      rw [hself] at hjs
      cases hjs
    · simp only [hother j hj'] at hjs ⊢
      obtain ⟨h1, h2, b, h3, h4, h5⟩ := hw.armed j hj hjs
      refine ⟨h1, fun e' he' => ?_, b, h3, h4, h5⟩
      rcases List.mem_cons.mp he' with rfl | he'
      · -- two armed slots have different owners
        intro ho
        rw [← he, ho, h3] at hown
        cases hown
        exact hj' (h4.symm.trans haid)
      · exact h2 e' he'
  · intro k call hk
    rcases List.mem_cons.mp hk with hk | hk
    · exact hcall k call hk.symm
    · exact hw.fired k call hk
  · intro e' he'
    rcases List.mem_cons.mp he' with rfl | he'
    · rw [he]
      exact (List.getElem?_eq_some_iff.mp hown).1
    · exact hw.ends_lt e' he'
  · rw [List.map_cons, List.nodup_cons]
    refine ⟨fun hm => ?_, hw.ends_nodup⟩
    obtain ⟨e', he', h1⟩ := List.mem_map.mp hm
    exact hopen e' he' (h1.trans he)
  · intro k b hk
    obtain ⟨h1, h2, h3⟩ := hw.handed k b hk
    refine ⟨h1, h2, ?_⟩
    rcases h3 with ⟨h3, h4⟩ | ⟨e', he', h4⟩
    · by_cases hb : b.timerid = slot
      · exact Or.inr ⟨e, List.mem_cons_self, by rw [he, ← h4, hb]⟩
      · left
        simpa [hother _ hb] using And.intro h3 h4
    · exact Or.inr ⟨e', List.mem_cons_of_mem _ he', h4⟩

theorem Inv.add {h : Option η} {data : δ} {w' : World η δ} (hw : Inv n w free)
    (hst : w.add h data = some w') : ∃ free', Inv n w' free' := by
  rcases hw.addTimer_spec h data with ⟨he, -⟩ | ⟨h', i, rest, rfl, rfl, he⟩
  · simp only [World.add, he, ngxError] at hst
    have hw' : w' = w := by
      cases h <;> cases hst <;> rfl
    exact ⟨free, hw' ▸ hw⟩
  · refine ⟨rest, ?_⟩
    simp only [World.add, he] at hst
    obtain ⟨hin, hset, hnr, -⟩ := hw.free_slot i List.mem_cons_self
    have hnd := List.nodup_cons.mp hw.chain.nodup
    cases hst
    constructor
    · exact hw.toRecord.add hin hset (by simp) (fun j hj => by simp [hj])
    · exact hw.timerN
    · refine hw.chain.2.congr fun j hj => ?_
      have hji : j ≠ i := fun e => hnd.1 (e ▸ hj)
      simp [Conf.next, hji]
    · rfl
    · intro j hj
      have hji : j ≠ i := fun e => hnd.1 (e ▸ hj)
      simpa [hji] using hw.free_slot j (List.mem_cons_of_mem _ hj)
    · intro j hj
      have hji : j ≠ i := fun e => hnr (e ▸ hj)
      simpa [hji] using hw.running_slot j hj
    · exact hw.running_nodup
    · intro j hj
      by_cases hji : j = i
      · subst hji; simp
      · simpa [hji] using hw.slot j hj
    · intro j hj
      by_cases hji : j = i
      · subst hji; simpa using hw.timerid j hj
      · simpa [hji] using hw.timerid j hj

theorem Inv.armed_not_free (hw : Inv n w free) {i : Nat}
    (hs : (w.etcf.timerCtx i).timerSet = true) : i ∉ free ∧ i ∉ w.running := by
  refine ⟨fun hm => ?_, fun hm => ?_⟩
  · have := (hw.free_slot i hm).2.1
    rw [hs] at this
    cases this
  · have := (hw.running_slot i hm).2
    rw [hs] at this
    cases this

theorem Inv.del {timerid : Nat} {via : Option Nat} (hw : Inv n w free) (hid : timerid < n) :
    ∃ free', Inv n (w.del timerid via) free' := by
  by_cases hs : (w.etcf.timerCtx timerid).timerSet = true
  · obtain ⟨hnf, hnr⟩ := hw.armed_not_free hs
    refine ⟨timerid :: free, ?_⟩
    unfold World.del delTimer freeTimer clearTimerSet
    rw [if_pos hs, if_pos hs]
    constructor
    · refine hw.toRecord.ended hid hs rfl (fun k call h => ?_) (by simp) (fun j hj => by simp [hj])
      cases h
    · exact hw.timerN
    · refine (hw.chain.push hnf).congr fun j hj => ?_
      by_cases hj' : j = timerid
      · subst hj'; simp [Conf.next, Data.next]
      · simp [Conf.next, hj']
    · simp [hw.length]
    · intro j hj
      by_cases hj' : j = timerid
      · subst hj'; simpa using ⟨hid, hnr⟩
      · simpa [hj'] using hw.free_slot j (List.mem_of_ne_of_mem hj' hj)
    · intro j hj
      have hj' : j ≠ timerid := fun e => hnr (e ▸ hj)
      simpa [hj'] using hw.running_slot j hj
    · exact hw.running_nodup
    · intro j hj
      by_cases hj' : j = timerid
      · subst hj'; simp
      · simpa [hj'] using hw.slot j hj
    · intro j hj
      by_cases hj' : j = timerid
      · subst hj'; simpa using hw.timerid j hj
      · simpa [hj'] using hw.timerid j hj
  · refine ⟨free, ?_⟩
    have he : w.del timerid via = w := by
      unfold World.del delTimer
      rw [if_neg hs, if_neg hs]
    rw [he]
    exact hw

theorem Inv.expire {slot : Nat} {w' : World η δ} (hw : Inv n w free) (hid : slot < n)
    (hs : (w.etcf.timerCtx slot).timerSet = true) (hst : w.expire slot = some w') :
    Inv n w' free := by
  obtain ⟨hnf, hnr⟩ := hw.armed_not_free hs
  obtain ⟨a, hown, haid, hexp⟩ := hw.expireTimer_spec hid hs
  simp only [World.expire, hexp, Option.map_some, Option.some.injEq] at hst
  cases hst
  constructor
  · refine hw.toRecord.ended hid hs rfl (fun k call h => ?_) (by simp [clearTimerSet])
      (fun j hj => by simp [clearTimerSet, hj])
    cases h
    exact ⟨a, hown, rfl⟩
  · exact hw.timerN
  · refine hw.chain.congr fun j hj => ?_
    have hj' : j ≠ slot := fun e => hnf (e ▸ hj)
    simp [clearTimerSet, Conf.next, hj']
  · exact hw.length
  · intro j hj
    have hj' : j ≠ slot := fun e => hnf (e ▸ hj)
    simpa [clearTimerSet, hj'] using hw.free_slot j hj
  · intro j hj
    by_cases hj' : j = slot
    · subst hj'; simpa [clearTimerSet] using hid
    · simpa [clearTimerSet, hj'] using hw.running_slot j (List.mem_of_ne_of_mem hj' hj)
  · exact List.nodup_cons.mpr ⟨hnr, hw.running_nodup⟩
  · intro j hj
    by_cases hj' : j = slot
    · subst hj'; simp
    · simpa [clearTimerSet, hj'] using hw.slot j hj
  · intro j hj
    by_cases hj' : j = slot
    · subst hj'; simpa [clearTimerSet] using hw.timerid j hj
    · simpa [clearTimerSet, hj'] using hw.timerid j hj

theorem Inv.ret {ctx : Nat} {running : List Nat} (hw : Inv n w free)
    (hr : w.running = ctx :: running) :
    Inv n { w with etcf := freeTimer w.etcf ctx, running } (ctx :: free) := by
  obtain ⟨hid, hs⟩ := hw.running_slot ctx (by simp [hr])
  have hnd := hw.running_nodup
  rw [hr, List.nodup_cons] at hnd
  have hnf : ctx ∉ free := fun hm => (hw.free_slot ctx hm).2.2.1 (by simp [hr])
  -- freeing a slot that is not armed touches its `data` word only
  have hset : ∀ j, ((freeTimer w.etcf ctx).timerCtx j).timerSet = (w.etcf.timerCtx j).timerSet := by
    intro j
    by_cases hj : j = ctx
    · subst hj; simp [freeTimer]
    · simp [freeTimer, hj]
  constructor
  · constructor
    · intro j hj hjs
      rw [hset] at hjs
      have hj' : j ≠ ctx := by
        rintro rfl
        rw [hs] at hjs
        cases hjs
      simpa [freeTimer, hj'] using hw.armed j hj hjs
    · exact hw.fired
    · exact hw.ends_lt
    · exact hw.ends_nodup
    · simp only [hset]
      exact hw.handed
  · exact hw.timerN
  · refine (hw.chain.push hnf).congr fun j hj => ?_
    by_cases hj' : j = ctx
    · subst hj'; simp [freeTimer, Conf.next, Data.next]
    · simp [freeTimer, Conf.next, hj']
  · simp [freeTimer, hw.length]
  · intro j hj
    rw [hset]
    by_cases hj' : j = ctx
    · subst hj'; simpa [freeTimer] using ⟨hid, hs, hnd.1⟩
    · obtain ⟨h1, h2, h3, h4⟩ := hw.free_slot j (List.mem_of_ne_of_mem hj' hj)
      refine ⟨h1, h2, fun hm => h3 ?_, by simpa [freeTimer, hj'] using h4⟩
      rw [hr]
      exact List.mem_cons_of_mem _ hm
  · intro j hj
    rw [hset]
    exact hw.running_slot j (by simp [hr, hj])
  · exact hnd.2
  · intro j hj
    rw [hset]
    by_cases hj' : j = ctx
    · subst hj'; simp
    · simpa [hj', hr] using hw.slot j hj
  · intro j hj
    by_cases hj' : j = ctx
    · subst hj'; simpa [freeTimer] using hw.timerid j hj
    · simpa [freeTimer, hj'] using hw.timerid j hj

/-- Every step keeps the invariant. -/
theorem Inv.step {l : Label η δ} {w' : World η δ} (hw : Inv n w free) (hst : w.step l = some w') :
    ∃ free', Inv n w' free' := by
  cases l with
  | add h data => exact hw.add hst
  | del timerid via =>
    simp only [World.step] at hst
    split at hst
    · next hid =>
      cases hst
      exact hw.del (hw.timerN ▸ hid.1)
    · cases hst
  | expire slot =>
    simp only [World.step] at hst
    split at hst
    · next hid => exact ⟨free, hw.expire (hw.timerN ▸ hid.1) hid.2 hst⟩
    · cases hst
  | ret =>
    simp only [World.step] at hst
    split at hst
    · cases hst
    · next ctx running hr =>
      cases hst
      exact ⟨ctx :: free, hw.ret hr⟩

end

/-- Every state of every run keeps the invariant. -/
theorem reach_inv {n : Nat} {mem : Nat → TimerCtx η δ} {w : World η δ}
    (hr : (machine n mem).Reach w) : ∃ free, Inv n w free :=
  Machine.Reach.invariant (P := fun w => ∃ free, Inv n w free) (inv_start n mem)
    (fun _ _ _ _ ⟨_, h⟩ hst => h.step hst) hr

/-! ## The slots of a reachable state -/

/-- The `n` slots are split into free, armed and running ones, and the free
list visits the free ones. -/
structure Partition (n : Nat) (w : World η δ) (free : List Nat) : Prop where
  chain : Linked w.etcf.next w.etcf.freeTimers free
  nodup : free.Nodup
  length : free.length = w.etcf.freeTimerN
  lt : ∀ i, i ∈ free ∨ i ∈ w.running → i < n
  running_nodup : w.running.Nodup
  class_of : ∀ i < n,
    (i ∈ free ∧ (w.etcf.timerCtx i).timerSet = false ∧ i ∉ w.running) ∨
    (i ∉ free ∧ (w.etcf.timerCtx i).timerSet = true ∧ i ∉ w.running) ∨
    (i ∉ free ∧ (w.etcf.timerCtx i).timerSet = false ∧ i ∈ w.running)

theorem Inv.partition {n : Nat} {w : World η δ} {free : List Nat} (hw : Inv n w free) :
    Partition n w free where
  chain := hw.chain
  nodup := hw.chain.nodup
  length := hw.length.symm
  lt := by
    rintro i (hi | hi)
    · exact (hw.free_slot i hi).1
    · exact (hw.running_slot i hi).1
  running_nodup := hw.running_nodup
  class_of := by
    intro i hi
    by_cases hf : i ∈ free
    · obtain ⟨-, h1, h2, -⟩ := hw.free_slot i hf
      exact Or.inl ⟨hf, h1, h2⟩
    · by_cases hr : i ∈ w.running
      · exact Or.inr (Or.inr ⟨hf, (hw.running_slot i hr).2, hr⟩)
      · rcases hw.slot i hi with h | h | h
        · exact absurd h hf
        · exact Or.inr (Or.inl ⟨hf, h, hr⟩)
        · exact absurd h hr

/-- **The slots of every reachable state.**  They are partitioned; `add_timer`
fails exactly without a handler or a free slot and otherwise arms a slot that
was free; an armed slot, when it expires, calls the handler of the `add_timer`
call that armed it with that call's data; no call's timer ends twice. -/
theorem reach_partition (n : Nat) (mem : Nat → TimerCtx η δ) (w : World η δ)
    (hr : (machine n mem).Reach w) :
    ∃ free, Partition n w free ∧
      (∀ h data, ∃ rc etcf, addTimer w.etcf h data = some (rc, etcf) ∧
        (rc = ngxError ↔ h = none ∨ free = []) ∧
        (rc ≠ ngxError → ∃ i ∈ free, rc = (i : Int) ∧ (etcf.timerCtx i).timerSet = true)) ∧
      (∀ i < n, (w.etcf.timerCtx i).timerSet = true → ∃ a etcf, w.adds[w.owner i]? = some a ∧
        a.timerid = i ∧ expireTimer w.etcf i = some (i, some (a.handler, a.data), etcf)) ∧
      (∀ k call, .fired k call ∈ w.log →
        ∃ a, w.adds[k]? = some a ∧ call = some (a.handler, a.data)) ∧
      (w.log.map Event.ends).Nodup := by
  obtain ⟨free, hw⟩ := reach_inv hr
  refine ⟨free, hw.partition, fun h data => ?_, fun i hi hs => ?_, hw.fired, hw.ends_nodup⟩
  · rcases hw.addTimer_spec h data with ⟨he, hf⟩ | ⟨h', i, rest, rfl, rfl, he⟩
    · exact ⟨_, _, he, by simp [hf], fun hne => absurd rfl hne⟩
    · refine ⟨_, _, he, by simp [ngxError], fun _ => ⟨i, List.mem_cons_self, rfl, by simp⟩⟩
  · obtain ⟨a, ha, hid, hexp⟩ := hw.expireTimer_spec hi hs
    exact ⟨a, _, ha, hid, hexp⟩

/-- Slots that `ngx_alloc` returned, whatever they hold. -/
def someMem : Nat → TimerCtx Nat Nat := fun _ => ⟨7, true, none, none, .user 7⟩

/-- A handler that deletes its own id and adds a timer while it runs. -/
theorem reach_partition_nested : ∃ w free,
    (machine 2 someMem).run (machine 2 someMem).start
      [.add (some 1) 10, .expire 0, .del 0 (some 0), .add (some 2) 20] = some w ∧
    Partition 2 w free := by
  have hr := (machine 2 someMem).reach_run
    [.add (some 1) 10, .expire 0, .del 0 (some 0), .add (some 2) 20] rfl
  obtain ⟨free, hp, -⟩ := reach_partition 2 someMem _ hr
  exact ⟨_, free, rfl, hp⟩

/-! ## Deletes through an old id -/

/-- The label deletes only through an id that an own `add_timer` call returned. -/
def OwnId : Label η δ → Prop
  | .del _ via => via.isSome
  | _ => True

/-- When `del_timer` is called with the id of the add call `j`, the timer of
every later add call that was handed the same id has already ended. -/
def NotReused (w : World η δ) : Label η δ → Prop
  | .del timerid via => ∃ j, via = some j ∧ ∀ k a, j < k → w.adds[k]? = some a →
      a.timerid = timerid → ∃ e ∈ w.log, e.ends = k
  | _ => True

/-- One slot, two clients: the first one's timer fires, the second one is
handed the same id, and the first one's late delete cancels the second timer. -/
theorem own_id_cancels_other :
    ¬ ∀ (n : Nat) (mem : Nat → TimerCtx Nat Nat) (w : World Nat Nat),
      (machine n mem).ReachIf (fun _ => OwnId) w →
        ∀ k via, .cancelled k via ∈ w.log → via = some k := by
  intro hall
  have h0 : (machine 1 someMem).ReachIf (fun _ => OwnId) (machine 1 someMem).start := .start
  have hr := h0.of_run
    [.add (some 10) 100, .expire 0, .ret, .add (some 20) 200, .del 0 (some 0)]
    (by simp [OwnId]) rfl
  have := hall 1 someMem _ hr 1 (some 0) List.mem_cons_self
  cases this

/-- A delete through the id of the add call `j` cancels another call's timer
exactly when a later call was handed the same id and its timer is pending. -/
theorem Inv.del_cancels {n : Nat} {w : World η δ} {free : List Nat} (hw : Inv n w free)
    {timerid j : Nat} (hid : timerid < n) (hj : (w.adds[j]?.map (·.timerid)) = some timerid) :
    (∀ k via, .cancelled k via ∈ (w.del timerid (some j)).log →
        .cancelled k via ∈ w.log ∨ via = some k) ↔ NotReused w (.del timerid (some j)) := by
  obtain ⟨b, hb, hbid⟩ := Option.map_eq_some_iff.mp hj
  obtain ⟨-, hle, -⟩ := hw.handed j b hb
  rw [hbid] at hle
  constructor
  · intro h
    refine ⟨j, rfl, fun k a hjk hk hka => ?_⟩
    obtain ⟨-, -, h3⟩ := hw.handed k a hk
    rcases h3 with ⟨hs, ho⟩ | h3
    · rw [hka] at hs ho
      have hlog : (w.del timerid (some j)).log = .cancelled k (some j) :: w.log := by
        unfold World.del
        rw [if_pos hs, ho]
      rcases h k (some j) (by rw [hlog]; exact List.mem_cons_self) with h1 | h1
      · exact ⟨_, h1, rfl⟩
      · cases h1
        omega
    · exact h3
  · rintro ⟨j', hj', hlater⟩ k via hk
    cases hj'
    unfold World.del at hk
    split at hk
    · next hs =>
      rcases List.mem_cons.mp hk with hk | hk
      · right
        cases hk
        obtain ⟨-, hopen, a, ha, haid, -⟩ := hw.armed timerid hid hs
        rcases Nat.lt_or_eq_of_le hle with hlt | heq
        · obtain ⟨e, he, h1⟩ := hlater _ a hlt ha haid
          exact absurd h1 (hopen e he)
        · rw [heq]
      · exact Or.inl hk
    · exact Or.inl hk

/-- **Late deletes.**  In every run in which an id is deleted only while no
later add call that was handed it has a pending timer, no `del_timer` cancels
the timer of a different `add_timer` call; and in every reachable state a
delete that breaks this condition does cancel one. -/
theorem del_timer_own_only (n : Nat) (mem : Nat → TimerCtx η δ) (w : World η δ) :
    ((machine n mem).ReachIf NotReused w → ∀ k via, .cancelled k via ∈ w.log → via = some k) ∧
    ((machine n mem).Reach w → ∀ timerid j, timerid < n →
      (w.adds[j]?.map (·.timerid)) = some timerid →
      ((∀ k via, .cancelled k via ∈ (w.del timerid (some j)).log →
          .cancelled k via ∈ w.log ∨ via = some k) ↔ NotReused w (.del timerid (some j)))) := by
  refine ⟨fun hr => ?_, fun hr timerid j hid hj => ?_⟩
  · refine Machine.ReachIf.invariant (P := fun w => ∀ k via, .cancelled k via ∈ w.log → via = some k)
      (by simp [machine]) (fun w l w' hr hP hok hst => ?_) hr
    obtain ⟨free, hw⟩ := reach_inv hr.reach
    cases l with
    | add h data =>
      have hlog : w'.log = w.log := by
        simp only [machine, World.step, World.add] at hst
        split at hst <;> cases hst <;> rfl
      rwa [hlog]
    | del timerid via =>
      simp only [machine, World.step] at hst
      split at hst
      · next hid =>
        cases hst
        obtain ⟨j, rfl, hlater⟩ := hok
        intro k via hk
        exact ((hw.del_cancels (hw.timerN ▸ hid.1) (hid.2 j rfl)).mpr ⟨j, rfl, hlater⟩ k via hk).elim
          (hP k via) id
      · cases hst
    | expire slot =>
      simp only [machine, World.step] at hst
      split at hst
      · simp only [World.expire, Option.map_eq_some_iff] at hst
        obtain ⟨r, -, rfl⟩ := hst
        simpa using hP
      · cases hst
    | ret =>
      simp only [machine, World.step] at hst
      split at hst
      · cases hst
      · cases hst
        exact hP
  · obtain ⟨free, hw⟩ := reach_inv hr
    exact hw.del_cancels hid hj

/-- A client deletes its own pending timer. -/
theorem del_timer_own_only_pending : ∃ w : World Nat Nat,
    Event.cancelled 0 (some 0) ∈ w.log ∧ ∀ k via, .cancelled k via ∈ w.log → via = some k := by
  have h1 : (machine 1 someMem).ReachIf NotReused _ := .step .start (i := .add (some 10) 100) trivial rfl
  have h2 : (machine 1 someMem).ReachIf NotReused _ :=
    h1.step (i := .del 0 (some 0)) ⟨0, rfl, fun k a hk ha _ => by
      obtain ⟨hlt, -⟩ := List.getElem?_eq_some_iff.mp ha
      have hlt' : k < 1 := hlt
      omega⟩ rfl
  exact ⟨_, List.mem_cons_self, (del_timer_own_only 1 someMem _).1 h2⟩

end NgxToolkit.EventTimer
