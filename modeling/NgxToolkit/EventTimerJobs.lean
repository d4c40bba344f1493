import NgxToolkit.EventTimerRuns

/-! The periodic jobs on the event timer module: `ngx_dynamic_conf_check_conf`
and `ngx_dynamic_resolver_on_timer`.

Each job is a timer handler that arms its own timer again before it returns.
`JobWorld` runs them on the slots of `EventTimer.World`, next to clients that
add and delete timers at any time, also from inside a running handler.  A
`Frame` says what the handler of a running slot is doing.

* `JobInv`: a job that was armed is either pending in one slot or in one
  running handler that has yet to arm it again.
* `reach_one_pending`: what follows outside handlers, for runs that meet `Kept`. -/

namespace NgxToolkit.EventTimer

open Lib

/-- `ngx_dynamic_conf_check_conf` and `ngx_dynamic_resolver_on_timer`. -/
inductive Job where
  | checkConf
  | onTimer
deriving DecidableEq, Repr

/-- The handlers of the worker's timers; only the two modules have theirs. -/
inductive Handler (η : Type) where
  | job (j : Job)
  | other (h : η)
deriving DecidableEq

/-- A handler on the C stack; `rearmed` says that a job has called `add_timer`,
or returns at once as `ngx_exiting` was set. -/
inductive Frame where
  | user
  | job (j : Job) (rearmed : Bool)
deriving DecidableEq

/-- The timers of a worker and its two jobs. -/
structure JobWorld (η δ : Type) where
  timers : World (Handler η) δ
  /-- `ngx_exiting` -/
  exiting : Bool
  /-- the handlers of the running slots, innermost first -/
  frames : List Frame
  /-- `process_init` of the job's module is done -/
  inited : Job → Bool
  /-- the first `add_timer` of the job returned an id -/
  armed : Job → Bool

/-- `init j` is the end of `process_init`, after a first load that succeeded;
`rearm` is the call of `add_timer` at the end of a job. -/
inductive JobLabel (η δ : Type) where
  | init (j : Job)
  | add (h : Option η) (data : δ)
  | del (timerid : Nat) (via : Option Nat)
  | expire (slot : Nat)
  | rearm
  | ret
  | exit

section
variable {η δ : Type}

/-- Does `add_timer` return an id? -/
def added (etcf : Conf (Handler η) δ) (h : Handler η) (data : δ) : Bool :=
  (addTimer etcf (some h) data).any (·.1 ≠ ngxError)

/-- The frame of the handler that an expiry calls. -/
def frameOf (exiting : Bool) : Option (Handler η × δ) → Frame
  | some (.job j, _) => .job j exiting
  | _ => .user

variable (refreshInterval : Nat) (jobData : Job → δ)

/-- One step of the worker; `jobData` is the argument of the job's timer. -/
def JobWorld.step (w : JobWorld η δ) : JobLabel η δ → Option (JobWorld η δ)
  | .init j =>
    if w.inited j then none
    else if j = .onTimer ∧ refreshInterval = 0 then
      some { w with inited := Function.update w.inited j true }
    else
      (w.timers.step (.add (some (.job j)) (jobData j))).map fun timers =>
        { w with
          timers
          inited := Function.update w.inited j true
          armed := Function.update w.armed j (added w.timers.etcf (.job j) (jobData j)) }
  | .add h data =>
    (w.timers.step (.add (h.map .other) data)).map fun timers => { w with timers }
  | .del timerid via => (w.timers.step (.del timerid via)).map fun timers => { w with timers }
  | .expire slot =>
    match expireTimer w.timers.etcf slot, w.timers.step (.expire slot) with
    | some (_, call, _), some timers =>
      some { w with timers, frames := frameOf w.exiting call :: w.frames }
    | _, _ => none
  | .rearm =>
    match w.frames with
    | .job j false :: frames =>
      -- the result of `add_timer` is not looked at
      (w.timers.step (.add (some (.job j)) (jobData j))).map fun timers =>
        { w with timers, frames := .job j true :: frames }
    | _ => none
  | .ret =>
    match w.frames with
    | [] => none
    | .job _ false :: _ => none
    | _ :: frames => (w.timers.step .ret).map fun timers => { w with timers, frames }
  | .exit => some { w with exiting := true }

/-- A worker with `timerN` timer slots. -/
def jobMachine (timerN : Nat) (mem : Nat → TimerCtx (Handler η) δ) :
    Machine (JobWorld η δ) (JobLabel η δ) where
  start := {
    timers := (machine timerN mem).start
    exiting := false
    frames := []
    inited := fun _ => false
    armed := fun _ => false }
  step := JobWorld.step refreshInterval jobData

/-- The slot `i` is armed with the job's timer. -/
def Pending (n : Nat) (w : World (Handler η) δ) (j : Job) (i : Nat) : Prop :=
  i < n ∧ (w.etcf.timerCtx i).timerSet = true ∧ (w.etcf.timerCtx i).handler = some (.job j)

/-- What no step may break: when a job arms its timer again there is a free
slot, and no client deletes through an id whose slot holds a job's timer. -/
def Kept (n : Nat) (w : JobWorld η δ) : JobLabel η δ → Prop
  | .rearm => 0 < w.timers.etcf.freeTimerN
  | .del timerid _ => ∀ j, ¬ Pending n w.timers j timerid
  | _ => True

/-! ## The timers under a job -/

section
variable {n : Nat} {w w' : World (Handler η) δ} {free : List Nat} {j : Job} {i : Nat}

/-- A failed `add_timer` changes no slot; otherwise the slot it hands out was
not armed and now holds its handler. -/
theorem Inv.add_pending (hw : Inv n w free) {h : Option (Handler η)} {data : δ}
    (hst : w.step (.add h data) = some w') :
    (w'.etcf = w.etcf ∧ (h = none ∨ free = [])) ∨
    ∃ h' k, h = some h' ∧ k < n ∧ free ≠ [] ∧ (w.etcf.timerCtx k).timerSet = false ∧
      ∀ j i, Pending n w' j i ↔ if i = k then h' = .job j else Pending n w j i := by
  rcases hw.addTimer_spec h data with ⟨he, hf⟩ | ⟨h', k, rest, rfl, rfl, he⟩
  · left
    simp only [World.step, World.add, he, ngxError] at hst
    cases hst
    exact ⟨rfl, hf⟩
  · right
    simp only [World.step, World.add, he] at hst
    obtain ⟨hk, hs, -, -⟩ := hw.free_slot k List.mem_cons_self
    refine ⟨h', k, rfl, hk, List.cons_ne_nil _ _, hs, fun j i => ?_⟩
    cases hst
    unfold Pending
    by_cases hik : i = k
    · subst hik
      simp [hk]
    · simp [hik]

theorem added_iff (hw : Inv n w free) (h : Handler η) (data : δ) :
    added w.etcf h data = true ↔ free ≠ [] := by
  unfold added
  rcases hw.addTimer_spec (some h) data with ⟨he, hf⟩ | ⟨h', k, rest, _, rfl, he⟩
  · rcases hf with hf | rfl
    · cases hf
    · rw [he]
      simp
  · rw [he]
    simp [ngxError]

theorem del_pending {via : Option Nat} (hst : w.step (.del i via) = some w') (j : Job) (k : Nat) :
    Pending n w' j k ↔ Pending n w j k ∧ k ≠ i := by
  simp only [World.step] at hst
  split at hst
  · cases hst
    unfold Pending World.del delTimer
    by_cases hs : (w.etcf.timerCtx i).timerSet = true
    · by_cases hki : k = i
      · subst hki
        simp [hs, freeTimer, clearTimerSet]
      · simp [hs, freeTimer, clearTimerSet, hki]
    · simp only [hs, Bool.false_eq_true, if_false]
      refine ⟨fun h => ⟨h, fun hki => hs (hki ▸ h.2.1)⟩, And.left⟩
  · cases hst

/-- An expiry calls the handler that its slot holds. -/
theorem Inv.expire_pending (hw : Inv n w free) (hst : w.step (.expire i) = some w') :
    ∃ h data, expireTimer w.etcf i = some (i, some (h, data), clearTimerSet w.etcf i) ∧
      (∀ j, h = .job j ↔ Pending n w j i) ∧
      ∀ j k, Pending n w' j k ↔ Pending n w j k ∧ k ≠ i := by
  simp only [World.step] at hst
  split at hst
  · next hid =>
    have hin : i < n := hw.timerN ▸ hid.1
    obtain ⟨hed, -, a, ha, haid, hh, hd⟩ := hw.armed i hin hid.2
    obtain ⟨b, hb, hbid, hexp⟩ := hw.expireTimer_spec hin hid.2
    rw [ha] at hb
    cases hb
    refine ⟨a.handler, a.data, hexp, fun j => ?_, fun j k => ?_⟩
    · unfold Pending
      rw [hh, Option.some.injEq]
      exact ⟨fun h => ⟨hin, hid.2, h⟩, fun h => h.2.2⟩
    · simp only [World.expire, hexp, Option.map_some, Option.some.injEq] at hst
      cases hst
      unfold Pending clearTimerSet
      by_cases hki : k = i
      · subst hki
        simp
      · simp [hki]
  · cases hst

theorem ret_pending (hst : w.step .ret = some w') (j : Job) (k : Nat) :
    Pending n w' j k ↔ Pending n w j k := by
  simp only [World.step] at hst
  split at hst
  · cases hst
  · next ctx running hr =>
    cases hst
    unfold Pending freeTimer
    by_cases hk : k = ctx
    · subst hk
      simp
    · simp [hk]

/-- A job's `add_timer` that finds a free slot makes the slot pending. -/
theorem Inv.add_job_pending (hw : Inv n w free) {data : δ} (hfree : free ≠ [])
    (hst : w.step (.add (some (.job j)) data) = some w') :
    ∃ k, (∀ i, Pending n w' j i ↔ i = k ∨ Pending n w j i) ∧
      ∀ j' i, j' ≠ j → (Pending n w' j' i ↔ Pending n w j' i) := by
  rcases hw.add_pending hst with ⟨-, hf⟩ | ⟨h', k, hh, hk, -, hset, hp⟩
  · rcases hf with hf | hf
    · cases hf
    · exact absurd hf hfree
  · cases hh
    refine ⟨k, fun i => ?_, fun j' i hjj => ?_⟩
    · rw [hp]
      split
      · simp_all
      · simp_all
    · rw [hp]
      split
      · next hik =>
        subst hik
        refine iff_of_false (fun h => ?_) (fun h => ?_)
        · cases h
          exact hjj rfl
        · rw [h.2.1] at hset
          cases hset
      · rfl

/-- The other clients' `add_timer` leaves the jobs' slots alone. -/
theorem Inv.add_other_pending (hw : Inv n w free) {h : Option η} {data : δ}
    (hst : w.step (.add (h.map .other) data) = some w') (j : Job) (i : Nat) :
    Pending n w' j i ↔ Pending n w j i := by
  rcases hw.add_pending hst with ⟨he, -⟩ | ⟨h', k, hh, hk, -, hset, hp⟩
  · unfold Pending
    rw [he]
  · rw [hp]
    split
    · next hik =>
      subst hik
      obtain ⟨h'', -, rfl⟩ := Option.map_eq_some_iff.mp hh
      refine iff_of_false (fun h => ?_) (fun h => ?_)
      · cases h
      · rw [h.2.1] at hset
        cases hset
    · rfl

end

/-! ## The invariant -/

/-- A job that is armed, in a worker that is not exiting, is in one place:
pending in a slot, or in the body of a running handler. -/
def OnePlace (armed exiting : Bool) (bodies : Nat) (P : Nat → Prop) : Prop :=
  (armed = false → bodies = 0 ∧ ∀ i, ¬ P i) ∧
  (armed = true → exiting = false → (bodies = 0 ∧ ∃! i, P i) ∨ (bodies = 1 ∧ ∀ i, ¬ P i))

theorem OnePlace.congr {armed exiting : Bool} {bodies bodies' : Nat} {P P' : Nat → Prop}
    (h : OnePlace armed exiting bodies P) (hb : bodies' = bodies) (hP : ∀ i, P' i ↔ P i) :
    OnePlace armed exiting bodies' P' := by
  obtain rfl : P' = P := funext fun i => propext (hP i)
  rwa [hb]

/-- What every step of a run that meets `Kept` keeps. -/
structure JobInv (n : Nat) (w : JobWorld η δ) : Prop where
  timers : ∃ free, Inv n w.timers free
  inited : ∀ j, w.armed j = true → w.inited j = true
  place : ∀ j, OnePlace (w.armed j) w.exiting (w.frames.count (.job j false))
    (Pending n w.timers j)

section
variable {n : Nat} {w w' : JobWorld η δ} {t : World (Handler η) δ} {free : List Nat} {j : Job}

theorem jobInv_start (mem : Nat → TimerCtx (Handler η) δ) :
    JobInv n (jobMachine refreshInterval jobData n mem).start := by
  obtain ⟨free, hf⟩ := inv_start (η := Handler η) n mem
  refine ⟨⟨free, hf⟩, fun _ h => (by cases h), fun j => ⟨fun _ => ⟨rfl, fun i hp => ?_⟩, fun h => ?_⟩⟩
  · obtain ⟨-, -, a, ha, -⟩ := hf.armed i hp.1 hp.2.1
    simp [machine] at ha
  · cases h

/-- The first `add_timer` of a job. -/
theorem JobInv.init (hw : JobInv n w) (hf : Inv n w.timers free) (hin : w.inited j ≠ true)
    (ht : w.timers.step (.add (some (.job j)) (jobData j)) = some t) :
    JobInv n { w with
      timers := t
      inited := Function.update w.inited j true
      armed := Function.update w.armed j (added w.timers.etcf (.job j) (jobData j)) } := by
  have harm : w.armed j = false := by
    by_contra h
    exact hin (hw.inited j (by simpa using h))
  obtain ⟨hcount, hnone⟩ := (hw.place j).1 harm
  refine ⟨hf.step ht, fun j' hj' => ?_, fun j' => ?_⟩
  · by_cases hjj : j' = j
    · subst hjj
      exact Function.update_self _ _ _
    · dsimp only at hj' ⊢
      rw [Function.update_of_ne hjj] at hj' ⊢
      exact hw.inited j' hj'
  · dsimp only
    by_cases hfree : free = []
    · have hp : ∀ i, Pending n t j' i ↔ Pending n w.timers j' i := by
        rcases hf.add_pending ht with ⟨he, -⟩ | ⟨_, _, _, _, hne, _⟩
        · intro i
          unfold Pending
          rw [he]
        · exact absurd hfree hne
      have hno : added w.timers.etcf (.job j) (jobData j) = w.armed j := by
        rw [harm, Bool.eq_false_iff]
        exact fun h => (added_iff hf _ _).mp h hfree
      rw [hno, Function.update_eq_self]
      exact (hw.place j').congr rfl hp
    · obtain ⟨k, hk, hother⟩ := hf.add_job_pending hfree ht
      by_cases hjj : j' = j
      · subst hjj
        rw [Function.update_self, (added_iff hf _ _).mpr hfree]
        refine ⟨fun h => (by cases h), fun _ _ => Or.inl ⟨hcount, k, (hk k).mpr (Or.inl rfl), ?_⟩⟩
        exact fun i hi => ((hk i).mp hi).resolve_right (hnone i)
      · rw [Function.update_of_ne hjj]
        exact (hw.place j').congr rfl fun i => hother j' i hjj

/-- A job that arms its timer again while a slot is free moves from its handler
to the slot. -/
theorem JobInv.rearm (hw : JobInv n w) (hf : Inv n w.timers free) {frames : List Frame}
    (hfr : w.frames = .job j false :: frames) (hfree : free ≠ [])
    (ht : w.timers.step (.add (some (.job j)) (jobData j)) = some t) :
    JobInv n { w with timers := t, frames := .job j true :: frames } := by
  obtain ⟨k, hk, hother⟩ := hf.add_job_pending hfree ht
  refine ⟨hf.step ht, hw.inited, fun j' => ?_⟩
  have hplace := hw.place j'
  rw [hfr] at hplace
  by_cases hjj : j' = j
  · subst hjj
    have hc : (Frame.job j' false :: frames).count (.job j' false) =
        (Frame.job j' true :: frames).count (.job j' false) + 1 := by
      rw [List.count_cons_self, List.count_cons_of_ne (by simp)]
    rw [hc] at hplace
    refine ⟨fun h => absurd (hplace.1 h).1 (by omega), fun h he => Or.inl ?_⟩
    rcases hplace.2 h he with ⟨h0, -⟩ | ⟨h1, hnone⟩
    · omega
    · exact ⟨by dsimp only; omega, k, (hk k).mpr (Or.inl rfl),
        fun i hi => ((hk i).mp hi).resolve_right (hnone i)⟩
  · refine hplace.congr ?_ fun i => hother j' i hjj
    rw [List.count_cons_of_ne (by simp), List.count_cons_of_ne (by simp [Ne.symm hjj])]

/-- An expiry of a job's slot moves the job into its handler. -/
theorem JobInv.expire (hw : JobInv n w) (hf : Inv n w.timers free) {slot ctx : Nat}
    {call : Option (Handler η × δ)} {etcf : Conf (Handler η) δ}
    (hexp : expireTimer w.timers.etcf slot = some (ctx, call, etcf))
    (ht : w.timers.step (.expire slot) = some t) :
    JobInv n { w with timers := t, frames := frameOf w.exiting call :: w.frames } := by
  obtain ⟨h, data, he, hcall, hp⟩ := hf.expire_pending ht
  rw [hexp] at he
  cases he
  refine ⟨hf.step ht, hw.inited, fun j => ?_⟩
  have hplace := hw.place j
  by_cases hslot : Pending n w.timers j slot
  · rw [← hcall] at hslot
    subst hslot
    have hslot := (hcall j).mp rfl
    refine ⟨fun ha => absurd hslot ((hplace.1 ha).2 slot), fun ha hex => Or.inr ?_⟩
    dsimp only at hex
    rcases hplace.2 ha hex with ⟨h0, i, hi, hu⟩ | ⟨-, hnone⟩
    · refine ⟨?_, fun k hk => ?_⟩
      · dsimp only [frameOf]
        rw [hex, List.count_cons_self, h0]
      · obtain ⟨hk, hne⟩ := (hp j k).mp hk
        exact hne ((hu k hk).trans (hu slot hslot).symm)
    · exact absurd hslot (hnone slot)
  · refine hplace.congr ?_ fun i => ?_
    · refine List.count_cons_of_ne ?_
      rw [← hcall] at hslot
      cases h with
      | job j' =>
        simp only [frameOf, ne_eq, Frame.job.injEq, not_and]
        exact fun hjj _ => hslot (by rw [hjj])
      | other h => simp [frameOf]
    · rw [hp]
      exact and_iff_left_of_imp fun hi hs => hslot (hs ▸ hi)

theorem JobInv.ret (hw : JobInv n w) (hf : Inv n w.timers free) {f : Frame} {frames : List Frame}
    (hfr : w.frames = f :: frames) (hne : ∀ j, f ≠ .job j false)
    (ht : w.timers.step .ret = some t) : JobInv n { w with timers := t, frames } := by
  refine ⟨hf.step ht, hw.inited, fun j => ?_⟩
  have hplace := hw.place j
  rw [hfr, List.count_cons_of_ne (hne j)] at hplace
  exact hplace.congr rfl (ret_pending ht j)

theorem JobInv.step {l : JobLabel η δ} (hw : JobInv n w) (hok : Kept n w l)
    (hst : w.step refreshInterval jobData l = some w') : JobInv n w' := by
  obtain ⟨free, hf⟩ := hw.timers
  cases l with
  | init j =>
    simp only [JobWorld.step] at hst
    split at hst
    · cases hst
    · next hin =>
      split at hst
      · cases hst
        refine ⟨hw.timers, fun j' hj' => ?_, hw.place⟩
        by_cases hjj : j' = j
        · subst hjj
          exact Function.update_self _ _ _
        · dsimp only
          rw [Function.update_of_ne hjj]
          exact hw.inited j' hj'
      · obtain ⟨t, ht, rfl⟩ := Option.map_eq_some_iff.mp hst
        exact hw.init jobData hf hin ht
  | add h data =>
    obtain ⟨t, ht, rfl⟩ := Option.map_eq_some_iff.mp hst
    exact ⟨hf.step ht, hw.inited, fun j => (hw.place j).congr rfl (hf.add_other_pending ht j)⟩
  | del timerid via =>
    obtain ⟨t, ht, rfl⟩ := Option.map_eq_some_iff.mp hst
    refine ⟨hf.step ht, hw.inited, fun j => (hw.place j).congr rfl fun i => ?_⟩
    rw [del_pending ht]
    exact and_iff_left_of_imp fun h hi => hok j (hi ▸ h)
  | expire slot =>
    simp only [JobWorld.step] at hst
    split at hst
    · next ctx call etcf t hexp ht =>
      cases hst
      exact hw.expire hf hexp ht
    · cases hst
  | rearm =>
    simp only [JobWorld.step] at hst
    split at hst
    · next j frames hfr =>
      obtain ⟨t, ht, rfl⟩ := Option.map_eq_some_iff.mp hst
      have hfree : free ≠ [] := by
        rintro rfl
        have h0 : 0 < w.timers.etcf.freeTimerN := hok
        rw [hf.length] at h0
        exact Nat.lt_irrefl 0 h0
      exact hw.rearm jobData hf hfr hfree ht
    · cases hst
  | ret =>
    simp only [JobWorld.step] at hst
    split at hst
    · cases hst
    · cases hst
    · next f frames hne hfr =>
      obtain ⟨t, ht, rfl⟩ := Option.map_eq_some_iff.mp hst
      exact hw.ret hf hfr (fun j hj => hne j hj) ht
  | exit =>
    cases hst
    exact ⟨hw.timers, hw.inited, fun j => ⟨(hw.place j).1, fun _ h => by cases h⟩⟩

end

/-- **One pending timer.**  In every run in which a job finds a free slot when it
arms its timer again and no client deletes through an id whose slot holds a
job's timer: outside handlers, while the worker is not exiting, a job that was
armed has exactly one pending timer. -/
theorem reach_one_pending (n : Nat) (mem : Nat → TimerCtx (Handler η) δ) (w : JobWorld η δ)
    (hr : (jobMachine refreshInterval jobData n mem).ReachIf (Kept n) w) (j : Job)
    (harmed : w.armed j = true) (hex : w.exiting = false) (hout : w.frames = []) :
    ∃! i, Pending n w.timers j i := by
  have hw : JobInv n w := Machine.ReachIf.invariant (jobInv_start refreshInterval jobData mem)
    (fun _ _ _ _ h hok hst => h.step refreshInterval jobData hok hst) hr
  rcases (hw.place j).2 harmed hex with ⟨-, h⟩ | ⟨h, -⟩
  · exact h
  · rw [hout] at h
    cases h

end

/-- Slots that `ngx_alloc` returned, for a worker without other clients. -/
def jobMem : Nat → TimerCtx (Handler Nat) Nat := fun _ => ⟨7, true, none, none, .user 7⟩

/-- With two slots, one held by another client, the check finds no slot for its
own timer and is never run again. -/
theorem check_lost :
    ¬ ∀ (n : Nat) (mem : Nat → TimerCtx (Handler Nat) Nat) (w : JobWorld Nat Nat),
      (jobMachine 0 (fun _ => 0) n mem).Reach w → ∀ j, w.armed j = true → w.exiting = false →
        w.frames = [] → ∃! i, Pending n w.timers j i := by
  intro hall
  have hr := (jobMachine 0 (fun _ => 0) 2 jobMem).reach_run
    [.init .checkConf, .add (some 1) 10, .expire 0, .rearm, .ret] rfl
  obtain ⟨i, ⟨hi, hset, hh⟩, -⟩ := hall 2 jobMem _ hr .checkConf rfl rfl rfl
  match i, hi with
  | 0, _ => cases hset
  | 1, _ => cases hh

/-- The check runs once, with a slot to spare. -/
theorem reach_one_pending_check : ∃ w : JobWorld Nat Nat,
    w.armed .checkConf = true ∧ ∃! i, Pending 2 w.timers .checkConf i := by
  have h1 : (jobMachine 0 (fun _ => 0) 2 jobMem).ReachIf (Kept 2) _ :=
    .step .start (i := JobLabel.init .checkConf) trivial rfl
  have h2 : (jobMachine 0 (fun _ => 0) 2 jobMem).ReachIf (Kept 2) _ :=
    h1.step (i := JobLabel.expire 0) trivial rfl
  have h3 : (jobMachine 0 (fun _ => 0) 2 jobMem).ReachIf (Kept 2) _ :=
    h2.step (i := JobLabel.rearm) Nat.one_pos rfl
  have h4 : (jobMachine 0 (fun _ => 0) 2 jobMem).ReachIf (Kept 2) _ :=
    h3.step (i := JobLabel.ret) trivial rfl
  exact ⟨_, rfl, reach_one_pending 0 (fun _ => 0) 2 jobMem _ h4 .checkConf rfl rfl rfl⟩

end NgxToolkit.EventTimer
