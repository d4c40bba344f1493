import Mathlib.Tactic.Common
import NgxToolkit.DynamicResolverAddrs
import NgxToolkit.DynamicResolverRuns
import NgxToolkit.DynamicResolverSettings

/-! What one step of the worker does to the table and to the stack.

* `World.step_changes`: a step leaves the buckets, or puts one record in front of
  its bucket, or takes one out, and then it is a call of
  `ngx_dynamic_resolver_del_domain`.
* `World.step_stack`: a turn is one of the function on top; other steps leave
  all functions that run. -/

namespace NgxToolkit.DynamicResolver

open Lib

variable {η δ : Type}

/-! ## Buckets -/

/-- What a step does to the buckets; the index is the record that it takes out. -/
inductive Changes (s s' : Conf η δ) (ds ds' : Option Nat → List Nat) : Option Nat → Prop
  | same (hds : ∀ b, ds' (some b) = ds (some b))
    (hentry : ∀ temp e, Entry s' ds' temp e ↔ Entry s ds temp e) : Changes s s' ds ds' none
  | added {temp : List UInt8} {d : Nat}
    (hds : ∀ b, ds' (some b) = if b = s.idx temp then d :: ds (some b) else ds (some b))
    (hoff : ∀ b, d ∉ ds (some b))
    (hentry : ∀ temp' e, Entry s' ds' temp' e ↔ (temp' = temp ∧ e = d) ∨ Entry s ds temp' e) :
    Changes s s' ds ds' none
  | dropped {temp : List UInt8} {l₁ l₂ : List Nat} {d : Nat}
    (hb : ds (some (s.idx temp)) = l₁ ++ d :: l₂)
    (hds : ∀ b, ds' (some b) = if b = s.idx temp then l₁ ++ l₂ else ds (some b))
    (hd : Entry s ds temp d)
    (hentry : ∀ temp' e, Entry s' ds' temp' e ↔ temp' ≠ temp ∧ Entry s ds temp' e) :
    Changes s s' ds ds' (some d)

section
variable {w w' : World η δ} {s s' s'' : Conf η δ} {ws ws' ds ds' ds'' : Option Nat → List Nat}
  {o : Option Nat} {pton : List UInt8 → Nat}

/-- A move that leaves the buckets leaves the entries. -/
theorem Move.same {R : Rules η δ} (hm : Move R w ws ds w' ws' ds') (hw : Sound w ws ds)
    (hds : ∀ b, ds' (some b) = ds (some b)) : Changes w.conf w'.conf ds ds' none := by
  have htable' := (hm.sound hw).shape.table
  refine .same hds fun temp e => ?_
  rcases hm.names hw with hs | ⟨temp', hs⟩ | ⟨temp', d, hs⟩
  · exact hs.entry temp e
  · refine (hs.entry temp e).trans (and_iff_right_of_imp fun he => ?_)
    -- the record would still be in its bucket
    rintro rfl
    have hmem : e ∈ ds' (some (w.conf.idx temp)) := by
      rw [hds]
      exact he.1
    obtain ⟨hne, he'⟩ := (hs.entry _ e).mp (htable'.entry hmem)
    exact hne (he'.2.symm.trans he.2)
  · have hd := ((hs.entry temp' d).mpr (.inl ⟨rfl, rfl⟩)).1
    rw [hds] at hd
    exact absurd (hw.shape.table.entry hd) (hs.off _)

/-- Two steps of which the second one leaves the buckets. -/
theorem Changes.trans (h : Changes s s' ds ds' o) (h' : Changes s' s'' ds' ds'' none)
    (hsame : ∀ b, ds'' (some b) = ds' (some b)) : Changes s s'' ds ds'' o := by
  have hentry : ∀ temp e, Entry s'' ds'' temp e ↔ Entry s' ds' temp e := by
    cases h' with
    | same _ hentry => exact hentry
    | @added temp d hds hoff _ =>
      have hd := hsame (s'.idx temp)
      rw [hds, if_pos rfl] at hd
      exact absurd hd (List.cons_ne_self _ _)
  cases h with
  | same hds he =>
    exact .same (fun b => (hsame b).trans (hds b)) fun t e => (hentry t e).trans (he t e)
  | added hds hoff he =>
    exact .added (fun b => (hsame b).trans (hds b)) hoff fun t e => (hentry t e).trans (he t e)
  | dropped hb hds hd he =>
    exact .dropped hb (fun b => (hsame b).trans (hds b)) hd fun t e => (hentry t e).trans (he t e)

/-- A fault leaves everything else. -/
theorem Sound.of_fault (hw : Sound w ws ds) (e : Option Fault) :
    Sound { w with fault := e } ws ds :=
  ⟨hw.shape.congr rfl rfl rfl fun _ => rfl, hw.loops.below, hw.loops.fresh, hw.loops.ticks,
    hw.loops.loop⟩

theorem Changes.refl (s : Conf η δ) (ds : Option Nat → List Nat) : Changes s s ds ds none :=
  .same (fun _ => rfl) fun _ _ => Iff.rfl

theorem World.add_changes (hw : Sound w ws ds) (huser : w.user = true)
    (domain : Option (List UInt8)) (pcalloc : Bool) :
    ∃ ws' ds', Sound (w.add pton domain pcalloc) ws' ds' ∧
      Changes w.conf (w.add pton domain pcalloc).conf ds ds' none := by
  rcases World.add_cases hw.shape pton domain pcalloc with
    ⟨e, heq, -⟩ | ⟨ds', temp, d, s, -, hent, hshape, heq⟩
  · rw [heq]
    exact ⟨ws, ds, hw.of_fault e, .refl _ _⟩
  · rw [heq]
    exact ⟨ws, ds', (Move.enter (R := Rules.free) huser hent hshape).sound hw,
      .added hent.buckets hent.off hent.entry⟩

theorem World.del_changes (hw : Sound w ws ds) (huser : w.user = true) (hfresh : w.fresh = none)
    (domain : Option (List UInt8)) :
    ∃ ws' ds' o, Sound (w.del pton domain) ws' ds' ∧
      Changes w.conf (w.del pton domain).conf ds ds' o ∧ ∀ d, o = some d → w.Finds pton domain d := by
  rcases World.del_cases hw.shape pton domain with
    ⟨e, heq, -⟩ | ⟨temp, hno, heq⟩ | ⟨temp, l₁, d, l₂, hfinds, hb, hd, heq⟩
  · rw [heq]
    exact ⟨ws, ds, none, hw.of_fault e, .refl _ _, fun d hd => by cases hd⟩
  · rw [heq]
    exact ⟨ws, ds, none, (Move.gone (R := Rules.free) huser hno).sound hw, .refl _ _,
      fun d hd => by cases hd⟩
  · rw [heq]
    refine ⟨ws, _, some d, (Move.unlink (R := Rules.free) huser hfresh hb hd).sound hw,
      .dropped hb (fun b => ?_) hd (entry_unlink hw.shape.table hb hd), fun e he => ?_⟩
    · by_cases hbi : b = w.conf.idx temp
      · subst hbi
        rw [Function.update_self, if_pos rfl]
      · rw [Function.update_of_ne (by simpa using hbi), if_neg hbi]
    · cases he
      exact hfinds

theorem World.startEntry_changes (hw : Sound w ws ds) (huser : w.user = true) {temp : List UInt8}
    {d : Nat} (hd : Entry w.conf ds temp d) (h : η) (data : δ) (pcalloc : Bool) (rand : Nat) :
    ∃ ws', Sound (w.startEntry d h data pcalloc rand) ws' ds ∧
      Changes w.conf (w.startEntry d h data pcalloc rand).conf ds ds none := by
  rcases World.startEntry_cases hw.shape hd h data pcalloc rand with
    ⟨arg, heq⟩ | ⟨hnaddrs, -, c, s, l, hc, hdom, hctx, -, hidx, hshape, heq⟩
  · rw [heq]
    exact ⟨ws, (Move.direct (R := Rules.free) h data arg huser).sound hw, .refl _ _⟩
  · have hm := Move.wait (R := Rules.free) h data huser hd hnaddrs hc hdom hctx hidx hshape
    rw [heq]
    exact ⟨_, hm.sound hw, hm.same hw fun _ => rfl⟩

theorem World.start_changes (hw : Sound w ws ds) (huser : w.user = true)
    (domain : Option (List UInt8)) (h : η) (data : δ) (pcallocDomain pcallocCtx : Bool)
    (rand : Nat) :
    ∃ ws' ds', Sound (w.start pton domain h data pcallocDomain pcallocCtx rand) ws' ds' ∧
      Changes w.conf (w.start pton domain h data pcallocDomain pcallocCtx rand).conf ds ds'
        none := by
  rcases World.start_cases hw.shape pton domain h data pcallocDomain pcallocCtx rand with
    ⟨e, heq, -⟩ | ⟨arg, heq⟩ | ⟨temp, d, -, hd, heq⟩ | ⟨ds', temp, d, s, -, -, hent, hshape, heq⟩
  · rw [heq]
    exact ⟨ws, ds, ((Move.lost (R := Rules.free) h data huser trivial).sound hw).of_fault e,
      .refl _ _⟩
  · rw [heq]
    exact ⟨ws, ds, (Move.direct (R := Rules.free) h data arg huser).sound hw, .refl _ _⟩
  · rw [heq]
    obtain ⟨ws', hs, hch⟩ := World.startEntry_changes hw huser hd h data pcallocCtx rand
    exact ⟨ws', ds, hs, hch⟩
  · rw [heq]
    have hsound := (Move.enter (R := Rules.free) huser hent hshape).sound hw
    obtain ⟨ws', hs, hch⟩ := World.startEntry_changes hsound huser
      ((hent.entry _ _).mpr (.inl ⟨rfl, rfl⟩)) h data pcallocCtx rand
    have hadd : Changes w.conf s ds ds' none :=
      .added hent.buckets hent.off hent.entry
    exact ⟨ws', ds', hs, hadd.trans hch fun _ => rfl⟩

/-- **Buckets.**  A step takes no record out of the table but one that
`ngx_dynamic_resolver_del_domain` is called for. -/
theorem World.step_changes (hw : Sound w ws ds) {l : Label η δ} (h : w.step pton l = some w') :
    ∃ ws' ds' o, Sound w' ws' ds' ∧ Changes w.conf w'.conf ds ds' o ∧
      ∀ d, o = some d → ∃ domain, l = .del domain ∧ w.Finds pton domain d := by
  have hw0 : Sound { w with fresh := none } ws ds := (Move.fresh (R := Rules.free)).sound hw
  -- to forget what was asked for last leaves the buckets
  have hnone : ∀ {w' ws' ds'}, Sound w' ws' ds' → Changes w.conf w'.conf ds ds' none →
      ∃ ws' ds' o, Sound w' ws' ds' ∧ Changes w.conf w'.conf ds ds' o ∧
        ∀ d, o = some d → ∃ domain, l = .del domain ∧ w.Finds pton domain d :=
    fun {w' ws' ds'} hs hch => ⟨ws', ds', none, hs, hch, fun d hd => by cases hd⟩
  have hmove : ∀ {w' ws' ds'}, Move (Rules.free (η := η) (δ := δ)) { w with fresh := none } ws ds
      w' ws' ds' → (∀ b, ds' (some b) = ds (some b)) →
      ∃ ws' ds' o, Sound w' ws' ds' ∧ Changes w.conf w'.conf ds ds' o ∧
        ∀ d, o = some d → ∃ domain, l = .del domain ∧ w.Finds pton domain d :=
    fun {w' ws' ds'} hm hds => hnone (hm.sound hw0) (hm.same hw0 hds)
  cases (World.steps_of_step h).2 with
  | add huser =>
    obtain ⟨ws', ds', hs, hch⟩ := World.add_changes hw0 huser _ _
    exact hnone hs hch
  | @del domain huser =>
    obtain ⟨ws', ds', o, hs, hch, hfinds⟩ := World.del_changes hw0 huser rfl domain
    exact ⟨ws', ds', o, hs, hch, fun d hd => ⟨domain, rfl, hfinds d hd⟩⟩
  | start huser =>
    obtain ⟨ws', ds', hs, hch⟩ := World.start_changes hw0 huser _ _ _ _ _ _
    exact hnone hs hch
  | host | timer => exact hnone hw0 (.refl _ _)
  | hostFault | timerFault => exact hnone (hw0.of_fault _) (.refl _ _)
  | @reply q rep hq hwhen =>
    have hm : Move (Rules.free (η := η) (δ := δ)) w ws ds ((World.answer { w with
        fresh := none, queries := w.queries.erase q } q rep).onResult q rep) ws ds :=
      .reply hq hwhen trivial trivial
    exact hnone (hm.sound hw) (hm.same hw fun _ => rfl)
  | tick hstack =>
    rw [hstack]
    exact hmove (.timer _ hstack rfl) fun _ => rfl
  | run hrun =>
    obtain ⟨ws', ds', hm, hds⟩ := World.run_move (R := Rules.free) hw0 rfl
      (fun _ _ _ _ _ => trivial) hrun
    exact hmove hm hds
  | ret hret =>
    obtain ⟨ws', ds', hm, hds⟩ := World.ret_move (R := Rules.free)
      (w := { w with fresh := none }) ws ds rfl hret
    exact hmove hm hds

/-! ## The stack -/

theorem World.add_stack (hw : Shape w ws ds) (domain : Option (List UInt8)) (pcalloc : Bool) :
    (w.add pton domain pcalloc).stack = w.stack := by
  rcases World.add_cases hw pton domain pcalloc with
    ⟨e, heq, -⟩ | ⟨ds', temp, d, s, -, hent, hshape, heq⟩
  · rw [heq]
  · rw [heq]
    rfl

theorem World.del_stack (pton : List UInt8 → Nat) (hw : Shape w ws ds)
    (domain : Option (List UInt8)) :
    ∃ st, (w.del pton domain).stack = st ++ w.stack := by
  rcases World.del_cases hw pton domain with
    ⟨e, heq, -⟩ | ⟨temp, hno, heq⟩ | ⟨temp, l₁, d, l₂, hfinds, hb, hd, heq⟩
  · exact ⟨[], by rw [heq]; rfl⟩
  · exact ⟨[], by rw [heq]; rfl⟩
  · exact ⟨[.del d none], by rw [heq]; rfl⟩

theorem World.startEntry_stack (w : World η δ) (d : Nat) (h : η) (data : δ) (pcalloc : Bool)
    (rand : Nat) : ∃ st, (w.startEntry d h data pcalloc rand).stack = st ++ w.stack := by
  unfold World.startEntry
  dsimp only
  split
  · split
    · exact ⟨[.direct], rfl⟩
    · exact ⟨[], rfl⟩
  · exact ⟨[.direct], rfl⟩

theorem World.start_stack (pton : List UInt8 → Nat) (hw : Shape w ws ds)
    (domain : Option (List UInt8)) (h : η) (data : δ)
    (pcallocDomain pcallocCtx : Bool) (rand : Nat) :
    ∃ st, (w.start pton domain h data pcallocDomain pcallocCtx rand).stack = st ++ w.stack := by
  rcases World.start_cases hw pton domain h data pcallocDomain pcallocCtx rand with
    ⟨e, heq, -⟩ | ⟨arg, heq⟩ | ⟨temp, d, -, hd, heq⟩ | ⟨ds', temp, d, s, -, -, hent, hshape, heq⟩
  · exact ⟨[], by rw [heq]; rfl⟩
  · exact ⟨[.direct], by rw [heq]; rfl⟩
  · rw [heq]
    exact World.startEntry_stack _ _ _ _ _ _
  · rw [heq]
    exact World.startEntry_stack _ _ _ _ _ _

theorem World.invoke_stack (w : World η δ) (s : Conf η δ) {f f' : Frame} {st : List Frame}
    (hstack : w.stack = f :: st) (ctx : Nat) (arg : Arg) (reply : Option Query) :
    ∃ g, (w.invoke s (f' :: st) ctx arg reply).stack = g :: st := by
  unfold World.invoke
  split
  · exact ⟨f', rfl⟩
  · exact ⟨f, hstack⟩

/-- A turn of the function on top. -/
theorem World.run_stack {rand : Nat} (h : w.run rand = some w') :
    ∃ f st, w.stack = f :: st ∧
      (w'.stack = st ∧ w'.fault = w.fault ∨ ∃ g, w'.stack = g :: st) := by
  unfold World.run at h
  split at h
  · next hstack =>
    refine ⟨_, _, hstack, ?_⟩
    split at h <;> cases h
    · exact .inl ⟨rfl, rfl⟩
    · exact .inr (World.invoke_stack _ _ hstack _ _ _)
  · next hstack =>
    refine ⟨_, _, hstack, ?_⟩
    dsimp only at h
    split at h
    · split at h <;> cases h
      · exact .inr ⟨_, hstack⟩
      · exact .inr ⟨_, rfl⟩
    · cases h
      exact .inl ⟨rfl, rfl⟩
  · next hstack =>
    refine ⟨_, _, hstack, ?_⟩
    split at h <;> cases h
    · exact .inr ⟨_, rfl⟩
    · exact .inr (World.invoke_stack _ _ hstack _ _ _)
  · next hstack =>
    refine ⟨_, _, hstack, ?_⟩
    split at h <;> cases h
    · exact .inl ⟨rfl, rfl⟩
    · exact .inr (World.invoke_stack _ _ hstack _ _ _)
  · next hstack =>
    cases h
    exact ⟨_, _, hstack, .inr ⟨_, rfl⟩⟩
  · next hstack =>
    cases h
    exact ⟨_, _, hstack, .inr ⟨_, rfl⟩⟩
  · next hstack =>
    refine ⟨_, _, hstack, ?_⟩
    split at h <;> cases h
    · exact .inr ⟨_, rfl⟩
    · exact .inl ⟨rfl, rfl⟩
  · cases h

theorem World.ret_stack (h : w.ret = some w') :
    ∃ f st, w.stack = f :: st ∧
      (w'.stack = st ∧ w'.fault = w.fault ∨ ∃ g, w'.stack = g :: st) := by
  unfold World.ret at h
  split at h
  · next hstack =>
    cases h
    exact ⟨_, _, hstack, .inl ⟨rfl, rfl⟩⟩
  · next hstack =>
    cases h
    exact ⟨_, _, hstack, .inr ⟨_, rfl⟩⟩
  · next hstack =>
    refine ⟨_, _, hstack, ?_⟩
    dsimp only at h
    split at h <;> cases h
    · exact .inr ⟨_, hstack⟩
    · exact .inr ⟨_, rfl⟩
  · next hstack =>
    cases h
    exact ⟨_, _, hstack, .inr ⟨_, rfl⟩⟩
  · cases h

theorem World.onResult_stack (w : World η δ) (q : Query) (rep : List Addr) :
    ∃ f, (w.onResult q rep).stack = f :: w.stack := by
  unfold World.onResult
  split <;> exact ⟨_, rfl⟩

/-- **The stack.**  A turn is one of the function on top; another step leaves all
functions, and if no user code runs it starts one. -/
theorem World.step_stack (hw : Sound w ws ds) {l : Label η δ} (h : w.step pton l = some w') :
    (l.isTurn = true ∧ ∃ f st, w.stack = f :: st ∧
      (w'.stack = st ∧ w'.fault = none ∨ ∃ g, w'.stack = g :: st)) ∨
    (l.isTurn = false ∧ ∃ st, w'.stack = st ++ w.stack ∧
      (w.user = true ∨ w.stack = [] ∨ st ≠ [])) := by
  have hw0 : Shape { w with fresh := none } ws ds :=
    ((Move.fresh (R := Rules.free)).sound hw).shape
  obtain ⟨hfault, hsteps⟩ := World.steps_of_step h
  cases hsteps with
  | add huser => exact .inr ⟨rfl, [], World.add_stack hw0 _ _, .inl huser⟩
  | del huser =>
    obtain ⟨st, hst⟩ := World.del_stack pton hw0 _
    exact .inr ⟨rfl, st, hst, .inl huser⟩
  | start huser =>
    obtain ⟨st, hst⟩ := World.start_stack pton hw0 _ _ _ _ _ _
    exact .inr ⟨rfl, st, hst, .inl huser⟩
  | host huser | hostFault huser => exact .inr ⟨rfl, [], rfl, .inl huser⟩
  | @reply q rep =>
    obtain ⟨live, heq⟩ :=
      World.answer_eq { w with fresh := none, queries := w.queries.erase q } q rep
    rw [heq]
    obtain ⟨f, hf⟩ := World.onResult_stack
      { w with fresh := none, queries := w.queries.erase q, live } q rep
    exact .inr ⟨rfl, [f], hf, .inr (.inr (by simp))⟩
  | timer hstack | timerFault hstack => exact .inr ⟨rfl, [], rfl, .inr (.inl hstack)⟩
  | tick hstack => exact .inr ⟨rfl, [_], rfl, .inr (.inl hstack)⟩
  | run hrun =>
    obtain ⟨f, st, hst, hcase⟩ := World.run_stack hrun
    exact .inl ⟨rfl, f, st, hst, hcase.imp_left fun h => ⟨h.1, h.2.trans hfault⟩⟩
  | ret hret =>
    obtain ⟨f, st, hst, hcase⟩ := World.ret_stack hret
    exact .inl ⟨rfl, f, st, hst, hcase.imp_left fun h => ⟨h.1, h.2.trans hfault⟩⟩

end

end NgxToolkit.DynamicResolver
