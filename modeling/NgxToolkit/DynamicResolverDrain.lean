import Mathlib.Data.List.Basic
import Mathlib.Tactic.Common
import NgxToolkit.DynamicResolverRuns
import NgxToolkit.DynamicResolverSettings

/-! What user handlers do while `ngx_dynamic_resolver_on_result` calls them.

`Spares` is a condition on the steps of handlers: none of them takes the record
that is being answered away or gives it new waiters.  Then it is left as it is
(`Leaves`), by the calls of the handlers (`World.call_leaves`) and by the
functions that they have called (`World.beside_leaves`). -/

namespace NgxToolkit.DynamicResolver

open Lib

variable {η δ : Type}

/-! ## Handlers -/

/-- A condition on the steps of the handlers that are called for an answer to the
record `d`; `good` says that there are addresses in it.  Nothing is answered,
the domain is not deleted while it has waiters, no call makes a new record of it
and lets somebody wait, and none waits on it. -/
def Spares (pton : List UInt8 → Nat) (d : Nat) (good : Prop) (w : World η δ) : Label η δ → Prop
  | .reply _ _ => False
  | .add domain _ => good → ¬ w.Takes pton domain d
  | .del domain => w.Finds pton domain d → (w.conf.dom d).ctx = none
  | .start domain _ _ _ pcallocCtx _ =>
    (domain = none ∨ domain = some [] ∨ w.Answers pton domain) ∧
    (w.Takes pton domain d → ¬ good ∧ pcallocCtx = false ∧ w.conf.freeCtx = none) ∧
    (w.Finds pton domain d → (w.conf.dom d).naddrs = 0 →
      pcallocCtx = false ∧ w.conf.freeCtx = none)
  | _ => True

/-- A function that a handler has called and that calls none of the waiters `l` of `d`. -/
def Frame.Beside (d : Nat) (l : List Nat) : Frame → Prop
  | .direct => True
  | .del e _ => e = d → l = []
  | _ => False

/-- Only such functions run above the frames `st`. -/
def Over (d : Nat) (st : List Frame) (w : World η δ) (ws : Option Nat → List Nat) : Prop :=
  ∃ above, w.stack = above ++ st ∧ ∀ g ∈ above, g.Beside d (ws (some d))

/-- A step leaves the waiters of `d`, and its addresses if `good`, and calls nobody
for an answer. -/
structure Leaves (d : Nat) (good : Prop) (st : List Frame) (w : World η δ)
    (ws : Option Nat → List Nat) (w' : World η δ) (ws' : Option Nat → List Nat) : Prop where
  above : Over d st w' ws'
  fault : w'.fault = w.fault
  waiters : ws' (some d) = ws (some d)
  owner : ∀ c ∈ ws (some d), w'.owner c = w.owner c
  record : good → (w'.conf.dom d).naddrs = (w.conf.dom d).naddrs ∧
    (w'.conf.dom d).addrs = (w.conf.dom d).addrs
  called : ∃ l, w'.called = l ++ w.called ∧ ∀ k ∈ l, k.reply = none

section
variable {w w' w'' : World η δ} {ws ws' ws'' ds : Option Nat → List Nat} {d : Nat} {good : Prop}
  {st : List Frame} {pton : List UInt8 → Nat}

theorem Leaves.trans (h : Leaves d good st w ws w' ws') (h' : Leaves d good st w' ws' w'' ws'') :
    Leaves d good st w ws w'' ws'' := by
  refine ⟨h'.above, h'.fault.trans h.fault, h'.waiters.trans h.waiters, fun c hc => ?_,
    fun hg => ?_, ?_⟩
  · rw [h'.owner c (by rw [h.waiters]; exact hc), h.owner c hc]
  · exact ⟨(h'.record hg).1.trans (h.record hg).1, (h'.record hg).2.trans (h.record hg).2⟩
  · obtain ⟨l, hl, hr⟩ := h.called
    obtain ⟨l', hl', hr'⟩ := h'.called
    refine ⟨l' ++ l, by rw [hl', hl, List.append_assoc], fun k hk => ?_⟩
    rcases List.mem_append.mp hk with hk | hk
    · exact hr' k hk
    · exact hr k hk

/-- To forget what was asked for last is no step. -/
theorem Leaves.of_fresh (h : Leaves d good st { w with fresh := none } ws w' ws') :
    Leaves d good st w ws w' ws' :=
  ⟨h.above, h.fault, h.waiters, h.owner, h.record, h.called⟩

theorem Over.push (h : Over d st w ws) {g : Frame} (hg : g.Beside d (ws (some d)))
    (hstack : w'.stack = g :: w.stack) (hws : ws' (some d) = ws (some d)) : Over d st w' ws' := by
  obtain ⟨above, hst, hall⟩ := h
  refine ⟨g :: above, by rw [hstack, hst, List.cons_append], fun f hf => ?_⟩
  rw [hws]
  rcases List.mem_cons.mp hf with rfl | hf
  · exact hg
  · exact hall f hf

theorem Over.congr (h : Over d st w ws) (hstack : w'.stack = w.stack)
    (hws : ws' (some d) = ws (some d)) : Over d st w' ws' := by
  unfold Over
  rw [hstack, hws]
  exact h

/-- A step that leaves the records and calls nobody. -/
theorem Leaves.of_same (hover : Over d st w' ws) (hfault : w'.fault = w.fault)
    (howner : w'.owner = w.owner) (hdom : good → w'.conf.dom d = w.conf.dom d)
    (hcalled : w'.called = w.called) : Leaves d good st w ws w' ws := by
  refine ⟨hover, hfault, rfl, fun c _ => by rw [howner], fun hg => ?_, [], hcalled, ?_⟩
  · rw [hdom hg]
    exact ⟨rfl, rfl⟩
  · intro k hk
    cases hk

theorem World.direct_leaves (hw : Sound w ws ds) (huser : w.user = true) (hover : Over d st w ws)
    (h : η) (data : δ) (arg : Arg) :
    Sound (w.direct h data arg) ws ds ∧ Leaves d good st w ws (w.direct h data arg) ws := by
  refine ⟨(Move.direct (R := Rules.free) h data arg huser).sound hw,
    hover.push (g := .direct) trivial rfl rfl, rfl, rfl, fun _ _ => rfl, fun _ => ⟨rfl, rfl⟩,
    [_], rfl, fun k hk => ?_⟩
  rw [List.mem_singleton.mp hk]

/-- A start call on the entry `e`. -/
theorem World.startEntry_leaves (good : Prop) (hw : Sound w ws ds) (huser : w.user = true)
    (hover : Over d st w ws) {temp : List UInt8} {e : Nat} (he : Entry w.conf ds temp e) (h : η)
    (data : δ) (pcalloc : Bool) (rand : Nat)
    (hspare : e = d → (w.conf.dom d).naddrs = 0 → pcalloc = false ∧ w.conf.freeCtx = none) :
    ∃ ws' ds', Sound (w.startEntry e h data pcalloc rand) ws' ds' ∧
      Leaves d good st w ws (w.startEntry e h data pcalloc rand) ws' := by
  rcases World.startEntry_cases hw.shape he h data pcalloc rand with
    ⟨arg, heq⟩ | ⟨hnaddrs, halloc, c, s, l, hc, hdom, hctx, -, hidx, hshape, heq⟩
  · rw [heq]
    exact ⟨ws, ds, World.direct_leaves hw huser hover h data arg⟩
  · have hed : e ≠ d := by
      rintro rfl
      obtain ⟨h1, h2⟩ := hspare rfl hnaddrs
      rw [h1, h2] at halloc
      simp at halloc
    have hws : Function.update (Function.update ws none l) (some e) (c :: ws (some e)) (some d) =
        ws (some d) := update_update_some _ _ hed.symm
    rw [heq]
    refine ⟨_, ds, (Move.wait (R := Rules.free) h data huser he hnaddrs hc hdom hctx hidx
      hshape).sound hw, hover.congr rfl hws, rfl, hws, fun c' hc' => ?_, fun _ => ?_, [], rfl, ?_⟩
    · exact Function.update_of_ne (fun hcc => hc _ (hcc ▸ hc')) _ _
    · have hrec : (pushCtx s e c h data).dom d = w.conf.dom d := by
        unfold pushCtx
        rw [Conf.setDom_of_ne _ _ hed.symm, ← hdom]
        rfl
      show ((pushCtx s e c h data).dom d).naddrs = _ ∧ ((pushCtx s e c h data).dom d).addrs = _
      rw [hrec]
      exact ⟨rfl, rfl⟩
    · intro k hk
      cases hk

theorem World.enter_leaves (good : Prop) (hw : Sound w ws ds) (huser : w.user = true)
    (hover : Over d st w ws)
    {ds' : Option Nat → List Nat} {temp : List UInt8} {e : Nat} {s : Conf η δ}
    (hent : Entered w ws ds ds' temp e s)
    (hshape : Shape (World.enter { w with conf := s } temp e) ws ds') (hspare : good → e ≠ d) :
    Sound (World.enter { w with conf := s } temp e) ws ds' ∧
      Leaves d good st w ws (World.enter { w with conf := s } temp e) ws := by
  refine ⟨(Move.enter (R := Rules.free) huser hent hshape).sound hw, ?_⟩
  exact .of_same (hover.congr rfl rfl) rfl rfl (fun hg => hent.other d (hspare hg).symm) rfl

theorem World.add_leaves (good : Prop) (hw : Sound w ws ds) (huser : w.user = true)
    (hover : Over d st w ws)
    (hhash : w.conf.hashFault = none) {domain : Option (List UInt8)} (pcalloc : Bool)
    (hspare : good → ¬ w.Takes pton domain d) :
    ∃ ws' ds', Sound (w.add pton domain pcalloc) ws' ds' ∧
      Leaves d good st w ws (w.add pton domain pcalloc) ws' := by
  rcases World.add_cases hw.shape pton domain pcalloc with
    ⟨e, heq, hf⟩ | ⟨ds', temp, e, s, htakes, hent, hshape, heq⟩
  · rw [heq, hf.resolve_right fun h => h.2 hhash]
    exact ⟨ws, ds, hw, .of_same hover rfl rfl (fun _ => rfl) rfl⟩
  · rw [heq]
    refine ⟨ws, ds', World.enter_leaves good hw huser hover hent hshape fun hg => ?_⟩
    rintro rfl
    exact hspare hg htakes

theorem World.del_leaves (good : Prop) (hw : Sound w ws ds) (huser : w.user = true)
    (hfresh : w.fresh = none)
    (hover : Over d st w ws) (hhash : w.conf.hashFault = none) {domain : Option (List UInt8)}
    (hspare : w.Finds pton domain d → (w.conf.dom d).ctx = none) :
    ∃ ws' ds', Sound (w.del pton domain) ws' ds' ∧
      Leaves d good st w ws (w.del pton domain) ws' := by
  rcases World.del_cases hw.shape pton domain with
    ⟨e, heq, hf⟩ | ⟨temp, hno, heq⟩ | ⟨temp, l₁, e, l₂, hfinds, hb, he, heq⟩
  · rw [heq, hf.resolve_right fun h => h.2 hhash]
    exact ⟨ws, ds, hw, .of_same hover rfl rfl (fun _ => rfl) rfl⟩
  · rw [heq]
    exact ⟨ws, ds, (Move.gone (R := Rules.free) huser hno).sound hw,
      .of_same (hover.congr rfl rfl) rfl rfl (fun _ => rfl) rfl⟩
  · rw [heq]
    have hbeside : Frame.Beside d (ws (some d)) (.del e none) := by
      rintro rfl
      have hhead : (w.conf.dom e).ctx = (ws (some e)).head? :=
        hw.shape.table.ctxs.chains.head_eq (some e)
      rw [hspare hfinds] at hhead
      exact List.head?_eq_none_iff.mp hhead.symm
    refine ⟨ws, _, (Move.unlink (R := Rules.free) huser hfresh hb he).sound hw,
      hover.push hbeside rfl rfl, rfl, rfl, fun _ _ => rfl, fun _ => ?_, [], rfl, ?_⟩
    · exact (unlink_domain w.conf (w.conf.idx temp) l₁.getLast? e d).2
    · intro k hk
      cases hk

theorem World.start_leaves (hw : Sound w ws ds) (huser : w.user = true) (hover : Over d st w ws)
    {domain : Option (List UInt8)} (h : η) (data : δ) (pcallocDomain pcallocCtx : Bool) (rand : Nat)
    (hspare : Spares pton d good w (.start domain h data pcallocDomain pcallocCtx rand)) :
    ∃ ws' ds', Sound (w.start pton domain h data pcallocDomain pcallocCtx rand) ws' ds' ∧
      Leaves d good st w ws (w.start pton domain h data pcallocDomain pcallocCtx rand) ws' := by
  obtain ⟨hanswers, htakes, hfinds⟩ := hspare
  rcases World.start_cases hw.shape pton domain h data pcallocDomain pcallocCtx rand with
    ⟨e, heq, hno, hf⟩ | ⟨arg, heq⟩ | ⟨temp, e, hfind, he, heq⟩ |
      ⟨ds', temp, e, s, htake, hfree, hent, hshape, heq⟩
  · have he : e = w.fault := hf.resolve_right fun ⟨_, h1, h2⟩ => by
      rcases hanswers with h | h | h
      · exact h1 h
      · exact h2 h
      · exact hno h
    rw [heq, he]
    exact ⟨ws, ds, (Move.lost (R := Rules.free) h data huser trivial).sound hw,
      .of_same (hover.congr rfl rfl) rfl rfl (fun _ => rfl) rfl⟩
  · rw [heq]
    exact ⟨ws, ds, World.direct_leaves hw huser hover h data arg⟩
  · rw [heq]
    refine World.startEntry_leaves good hw huser hover he h data pcallocCtx rand fun hed => ?_
    subst hed
    exact hfinds hfind
  · rw [heq]
    have hspare' : good → e ≠ d := by
      rintro hg rfl
      exact (htakes htake).1 hg
    obtain ⟨hw', hl⟩ := World.enter_leaves good hw huser hover hent hshape hspare'
    obtain ⟨ws', ds'', hw'', hl'⟩ := World.startEntry_leaves good hw' huser hl.above
      ((hent.entry _ _).mpr (.inl ⟨rfl, rfl⟩)) h data pcallocCtx rand fun hed _ => by
        subst hed
        exact ⟨(htakes htake).2.1, hfree.trans (htakes htake).2.2⟩
    exact ⟨ws', ds'', hw'', hl.trans hl'⟩

/-- **Handlers.**  A call by a handler that spares the record leaves it. -/
theorem World.call_leaves (hw : Sound w ws ds) (hst : st ≠ []) (hover : Over d st w ws)
    (hhash : w.conf.hashFault = none) {l : Label η δ} (hspare : Spares pton d good w l)
    (hrun : ∀ rand, l ≠ .run rand) (hret : l ≠ .ret) (h : w.step pton l = some w') :
    ∃ ws' ds', Sound w' ws' ds' ∧ Leaves d good st w ws w' ws' := by
  have hw0 : Sound { w with fresh := none } ws ds := (Move.fresh (R := Rules.free)).sound hw
  have hstack : w.stack ≠ [] := by
    obtain ⟨above, hst', -⟩ := hover
    rw [hst']
    simp [hst]
  cases (World.steps_of_step h).2 with
  | add huser =>
    obtain ⟨ws', ds', hs, hl⟩ := World.add_leaves good hw0 huser hover hhash _ hspare
    exact ⟨ws', ds', hs, hl.of_fresh⟩
  | del huser =>
    obtain ⟨ws', ds', hs, hl⟩ := World.del_leaves good hw0 huser rfl hover hhash hspare
    exact ⟨ws', ds', hs, hl.of_fresh⟩
  | start huser =>
    obtain ⟨ws', ds', hs, hl⟩ := World.start_leaves hw0 huser hover _ _ _ _ _ hspare
    exact ⟨ws', ds', hs, hl.of_fresh⟩
  | host => exact ⟨ws, ds, hw0, .of_same (hover.congr rfl rfl) rfl rfl (fun _ => rfl) rfl⟩
  | @hostFault domain rand e _ hhost =>
    obtain ⟨arg, hok⟩ := hw.shape.gethostbyname_ok hhash pton domain rand
    rw [hok] at hhost
    cases hhost
  | reply => exact hspare.elim
  | timer hempty | timerFault hempty | tick hempty => exact absurd hempty hstack
  | @run rand => exact absurd rfl (hrun rand)
  | ret => exact absurd rfl hret

theorem putDomain_record (s : Conf η δ) (e d : Nat) :
    ((putDomain s e).dom d).naddrs = (s.dom d).naddrs ∧
      ((putDomain s e).dom d).addrs = (s.dom d).addrs := by
  by_cases hd : d = e
  · subst hd
    simp [putDomain, Conf.setDom]
  · simp [putDomain, Conf.setDom, hd]

section
variable {g : Frame} {above : List Frame}

/-- A function beside goes on. -/
theorem World.run_leaves (good : Prop) (hw : Sound w ws ds) (hstack : w.stack = g :: (above ++ st))
    (hg : g.Beside d (ws (some d))) (habove : ∀ g ∈ above, g.Beside d (ws (some d))) {rand : Nat}
    (h : w.run rand = some w') :
    ∃ ws' ds', Sound w' ws' ds' ∧ Leaves d good st w ws w' ws' := by
  unfold World.run at h
  rw [hstack] at h
  cases g with
  | del e ctx =>
    cases ctx with
    | some c => cases h
    | none =>
      dsimp only at h
      split at h
      · next hpop =>
        cases h
        refine ⟨ws, _, (Move.freed (R := Rules.free) hstack (hw.shape.table.popCtx_none hpop)).sound
          hw, ⟨above, rfl, habove⟩, rfl, rfl, fun _ _ => rfl, fun _ => putDomain_record _ _ _,
          [], rfl, fun k hk => by cases hk⟩
      · next c s hpop =>
        cases h
        obtain ⟨l, h, data, hl, hh, hdata, rfl, heq, hshape⟩ :=
          hw.shape.invoke .null none hstack rfl
            (show Frame.calls (.del e (some c)) = _ from rfl) rfl hpop
        -- a function beside calls no waiter of the record
        have hed : e ≠ d := by
          rintro rfl
          rw [hg rfl] at hl
          cases hl
        have hws : Function.update ws (some e) l (some d) = ws (some d) :=
          Function.update_of_ne (by simpa using hed.symm) _ _
        have hdom : (w.conf.setDom e { w.conf.dom e with ctx := (w.conf.ctx c).next }).dom d =
            w.conf.dom d := Conf.setDom_of_ne _ _ hed.symm
        rw [heq]
        have hf : (Frame.del e none).Alike (.del e (some c)) := ⟨rfl, rfl, rfl, rfl, rfl⟩
        refine ⟨_, ds, (Move.invoke (R := Rules.free) .null hstack rfl rfl hf rfl
          (fun _ _ => trivial) hl hh hdata hshape).sound hw,
          ⟨.del e (some c) :: above, rfl, ?_⟩, rfl, hws, fun _ _ => rfl, fun _ => ?_, [_], rfl, ?_⟩
        · intro f hf
          rw [hws]
          rcases List.mem_cons.mp hf with rfl | hf
          · exact fun h => absurd h hed
          · exact habove f hf
        · show Domain.naddrs (Conf.dom _ d) = _ ∧ Domain.addrs (Conf.dom _ d) = _
          rw [hdom]
          exact ⟨rfl, rfl⟩
        · intro k hk
          rw [List.mem_singleton.mp hk]
  | direct => cases h
  | _ => exact hg.elim

/-- The handler that a function beside has called returns. -/
theorem World.ret_leaves (good : Prop) (hw : Sound w ws ds) (hfresh : w.fresh = none)
    (hstack : w.stack = g :: (above ++ st)) (hg : g.Beside d (ws (some d)))
    (habove : ∀ g ∈ above, g.Beside d (ws (some d))) (h : w.ret = some w') :
    ∃ ws' ds', Sound w' ws' ds' ∧ Leaves d good st w ws w' ws' := by
  unfold World.ret at h
  rw [hstack] at h
  cases g with
  | direct =>
    cases h
    exact ⟨ws, ds, (Move.ended (R := Rules.free) hstack rfl rfl (fun d hd => by cases hd)
      fun _ _ _ h => by cases h).sound hw,
      .of_same ⟨above, rfl, habove⟩ rfl rfl (fun _ => rfl) rfl⟩
  | del e ctx =>
    cases ctx with
    | none => cases h
    | some c =>
      cases h
      have hws : Function.update ws none (c :: ws none) (some d) = ws (some d) :=
        Function.update_of_ne (by simp) _ _
      have hf : (Frame.del e (some c)).Alike (.del e none) := ⟨rfl, rfl, rfl, rfl, rfl⟩
      refine ⟨_, ds, (Move.giveBack (R := Rules.free) hstack rfl rfl hf hfresh
        fun q rep i h => by cases h).sound hw, ⟨.del e none :: above, rfl, fun f hf => ?_⟩, rfl, hws,
        fun _ _ => rfl, fun _ => ⟨rfl, rfl⟩, [], rfl, fun k hk => by cases hk⟩
      rw [hws]
      rcases List.mem_cons.mp hf with rfl | hf
      · exact hg
      · exact habove f hf
  | _ => exact hg.elim

/-- **Functions beside.**  A step of a function that a handler has called leaves the record. -/
theorem World.beside_leaves (hw : Sound w ws ds) (hstack : w.stack = g :: (above ++ st))
    (hg : g.Beside d (ws (some d))) (habove : ∀ g ∈ above, g.Beside d (ws (some d)))
    {l : Label η δ} (hl : (∃ rand, l = .run rand) ∨ l = .ret) (h : w.step pton l = some w') :
    ∃ ws' ds', Sound w' ws' ds' ∧ Leaves d good st w ws w' ws' := by
  have hw0 : Sound { w with fresh := none } ws ds := (Move.fresh (R := Rules.free)).sound hw
  unfold World.step at h
  dsimp only at h
  split at h
  · cases h
  rcases hl with ⟨rand, rfl⟩ | rfl
  · obtain ⟨ws', ds', hs, hl⟩ := World.run_leaves good hw0 hstack hg habove h
    exact ⟨ws', ds', hs, hl.of_fresh⟩
  · obtain ⟨ws', ds', hs, hl⟩ := World.ret_leaves good hw0 rfl hstack hg habove h
    exact ⟨ws', ds', hs, hl.of_fresh⟩

end

end

end NgxToolkit.DynamicResolver
