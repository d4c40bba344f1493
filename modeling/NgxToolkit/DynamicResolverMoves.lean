import Mathlib.Tactic.Common
import NgxToolkit.DynamicResolverCalls

/-! The moves of the dynamic resolver.

A step of the machine is a few moves (`Move`), and each move does one thing to
the heaps, the stack or the record of the run.  `Sound` is kept by every move
(`Move.sound`), and what every move keeps, every step keeps (`Sound.step`):
what is proved about runs is proved about the moves.

`Rules` are the conditions that a run may put on its moves. -/

namespace NgxToolkit.DynamicResolver

open Lib

variable {η δ : Type}

/-! ## The stack -/

/-- Does the function wait for a call of its own to return? -/
def Frame.paused : Frame → Bool
  | .direct | .fail _ (some _) | .wait _ _ _ _ (some _) | .del _ (some _) | .ticked _ _ => true
  | _ => false

theorem Frame.paused_of_calls {f : Frame} {c : Nat} (h : f.calls = some c) : f.paused = true := by
  cases f <;> cases h <;> rfl

theorem Frame.not_store {f : Frame} (h : f.paused = true) (q : Query) (rep : List Addr) (i : Nat) :
    f ≠ .store q rep i := by
  rintro rfl
  cases h

/-- What the stack is like between two steps. -/
structure Loops (w : World η δ) (ws : Option Nat → List Nat) : Prop where
  below : ∀ f ∈ w.stack.tail, f.paused = true
  fresh : w.fresh ≠ none → ∀ f ∈ w.stack, f.paused = true
  /-- the timer starts from the event loop -/
  ticks : ∀ st' f st, w.stack = st' ++ f :: st → f.ticks = true → st = []
  /-- the waiters are called in the first turn of the loop over `i` -/
  loop : ∀ q rep i st, w.stack = .store q rep i :: st →
    (i = 0 ∧ 0 < (w.conf.dom q.dom).naddrs) ∨ ws (some q.dom) = []

section
variable {w w' : World η δ} {ws ws' ds ds' : Option Nat → List Nat} {f f' : Frame}
  {st : List Frame}

theorem World.user_paused (h : w.user = true) (hstack : w.stack = f :: st) : f.paused = true := by
  unfold World.user at h
  rw [hstack] at h
  cases f with
  | direct => rfl
  | fail q ctx => cases ctx <;> first | rfl | cases h
  | store q rep i => cases h
  | wait q rep i n ctx => cases ctx <;> first | rfl | cases h
  | del d ctx => cases ctx <;> first | rfl | cases h
  | tick i d => cases h
  | ticked i d => cases h

theorem Loops.all_paused (hw : Loops w ws) (huser : w.user = true) :
    ∀ f ∈ w.stack, f.paused = true := by
  intro f hf
  cases hstack : w.stack with
  | nil =>
    rw [hstack] at hf
    cases hf
  | cons g st =>
    rw [hstack] at hf
    rcases List.mem_cons.mp hf with rfl | hf
    · exact World.user_paused huser hstack
    · refine hw.below f ?_
      rw [hstack]
      exact hf

/-- User code runs, and the stack stays. -/
theorem Loops.of_user (hw : Loops w ws) (huser : w.user = true) (hstack : w'.stack = w.stack) :
    Loops w' ws' := by
  refine ⟨?_, fun _ => ?_, ?_, fun q rep i st h => ?_⟩
  · rw [hstack]
    exact hw.below
  · rw [hstack]
    exact hw.all_paused huser
  · rw [hstack]
    exact hw.ticks
  · rw [hstack] at h
    exact absurd rfl (Frame.not_store (World.user_paused huser h) q rep i)

theorem Loops.push (hw : ∀ f ∈ w.stack, f.paused = true) (ht : Loops w ws)
    (hstack : w'.stack = f' :: w.stack) (hticks : f'.ticks = true → w.stack = [])
    (hfresh : w'.fresh = none ∨ f'.paused = true)
    (hloop : ∀ q rep i, f' = .store q rep i →
      (i = 0 ∧ 0 < (w'.conf.dom q.dom).naddrs) ∨ ws' (some q.dom) = []) : Loops w' ws' := by
  refine ⟨?_, fun hne => ?_, fun st' f st h hf => ?_, fun q rep i st h => ?_⟩
  · rw [hstack]
    exact hw
  · rw [hstack]
    intro f hf
    rcases List.mem_cons.mp hf with rfl | hf
    · exact hfresh.resolve_left hne
    · exact hw f hf
  · rw [hstack] at h
    cases st' with
    | nil =>
      cases h
      exact hticks hf
    | cons g st' =>
      obtain ⟨-, h⟩ := List.cons.inj h
      exact ht.ticks st' f st h hf
  · rw [hstack] at h
    cases h
    exact hloop q rep i rfl

theorem Loops.pop (hw : Loops w ws) (hstack : w.stack = f :: st) (hstack' : w'.stack = st) :
    Loops w' ws' := by
  have hst : ∀ g ∈ st, g.paused = true := fun g hg => hw.below g (by rw [hstack]; exact hg)
  refine ⟨fun g hg => ?_, fun _ => ?_, fun st' g st'' h hg => ?_, fun q rep i st' h => ?_⟩
  · rw [hstack'] at hg
    exact hst g (List.mem_of_mem_tail hg)
  · rw [hstack']
    exact hst
  · refine hw.ticks (f :: st') g st'' ?_ hg
    rw [hstack, ← hstack', h]
    rfl
  · rw [hstack'] at h
    exact absurd rfl (Frame.not_store (hst _ (by rw [h]; exact List.mem_cons_self)) q rep i)

theorem Loops.top (hw : Loops w ws) (hstack : w.stack = f :: st) (hstack' : w'.stack = f' :: st)
    (hticks : f'.ticks = f.ticks) (hfresh : w'.fresh = none ∨ f'.paused = true)
    (hloop : ∀ q rep i, f' = .store q rep i → ws' (some q.dom) = []) : Loops w' ws' := by
  have hst : ∀ g ∈ st, g.paused = true := fun g hg => hw.below g (by rw [hstack]; exact hg)
  refine ⟨?_, fun hne => ?_, fun st' g st'' h hg => ?_, fun q rep i st' h => ?_⟩
  · rw [hstack']
    exact hst
  · rw [hstack']
    intro g hg
    rcases List.mem_cons.mp hg with rfl | hg
    · exact hfresh.resolve_left hne
    · exact hst g hg
  · rw [hstack'] at h
    cases st' with
    | nil =>
      cases h
      exact hw.ticks [] f st hstack (hticks ▸ hg)
    | cons g' st' =>
      obtain ⟨-, h⟩ := List.cons.inj h
      exact hw.ticks (f :: st') g st'' (by rw [hstack, h]; rfl) hg
  · rw [hstack'] at h
    cases h
    exact .inr (hloop q rep i rfl)

end

/-! ## Moves -/

/-- Conditions on the moves: whether a start call may be lost, which replies may
be delivered, and to which query `ngx_dynamic_resolver_on_result` may go on. -/
structure Rules (η δ : Type) where
  lost : Prop
  fits : List Addr → Prop
  goes : World η δ → Query → Prop

structure Sound (w : World η δ) (ws ds : Option Nat → List Nat) : Prop where
  shape : Shape w ws ds
  loops : Loops w ws

inductive Move (R : Rules η δ) (w : World η δ) (ws ds : Option Nat → List Nat) :
    World η δ → (Option Nat → List Nat) → (Option Nat → List Nat) → Prop
  /-- what was asked for last is forgotten -/
  | fresh : Move R w ws ds { w with fresh := none } ws ds
  | crash (e : Fault) : Move R w ws ds (w.crash e) ws ds
  /-- a start call returns or hangs without a call of `h` -/
  | lost (h : η) (data : δ) (huser : w.user = true) (hlost : R.lost) :
    Move R w ws ds { w with started := w.started ++ [⟨h, data, none⟩] } ws ds
  /-- a start call calls `h` -/
  | direct (h : η) (data : δ) (arg : Arg) (huser : w.user = true) :
    Move R w ws ds (w.direct h data arg) ws ds
  /-- a name that is not in the table is deleted -/
  | gone {temp : List UInt8} (huser : w.user = true) (hno : ∀ d, ¬ Entry w.conf ds temp d) :
    Move R w ws ds { w with live := Function.update w.live temp none } ws ds
  /-- a name is put into the table -/
  | enter {ds' : Option Nat → List Nat} {temp : List UInt8} {d : Nat} {s : Conf η δ}
    (huser : w.user = true) (hent : Entered w ws ds ds' temp d s)
    (hshape : Shape (World.enter { w with conf := s } temp d) ws ds') :
    Move R w ws ds (World.enter { w with conf := s } temp d) ws ds'
  /-- a start call waits on an entry and asks for its name -/
  | wait {temp : List UInt8} {d c : Nat} {s : Conf η δ} {l : List Nat} (h : η) (data : δ)
    (huser : w.user = true) (hd : Entry w.conf ds temp d) (hnaddrs : (w.conf.dom d).naddrs = 0)
    (hc : ∀ i, c ∉ ws (some i)) (hdom : s.dom = w.conf.dom)
    (hctx : ∀ e, e ≠ c → (pushCtx s d c h data).ctx e = w.conf.ctx e)
    (hidx : ∀ temp, s.idx temp = w.conf.idx temp)
    (hshape : Shape { w with conf := pushCtx s d c h data }
      (Function.update (Function.update ws none l) (some d) (c :: ws (some d))) ds) :
    Move R w ws ds
      (World.issue { w with
        conf := pushCtx s d c h data
        owner := Function.update w.owner c w.started.length
        started := w.started ++ [⟨h, data, some (w.inc d)⟩] } d)
      (Function.update (Function.update ws none l) (some d) (c :: ws (some d))) ds
  /-- a name is taken out of the table -/
  | unlink {temp : List UInt8} {d : Nat} {l₁ l₂ : List Nat} (huser : w.user = true)
    (hfresh : w.fresh = none) (hb : ds (some (w.conf.idx temp)) = l₁ ++ d :: l₂)
    (hd : Entry w.conf ds temp d) :
    Move R w ws ds
      { w with
        conf := w.conf.unlink (w.conf.idx temp) l₁.getLast? d, stack := .del d none :: w.stack
        live := Function.update w.live temp none }
      ws (Function.update ds (some (w.conf.idx temp)) (l₁ ++ l₂))
  /-- the timer starts -/
  | timer (p : Option Nat) (hstack : w.stack = []) (hfresh : w.fresh = none) :
    Move R w ws ds { w with stack := [.tick 0 p] } ws ds
  /-- the timer asks for the name of `d` -/
  | issue {i d : Nat} (hstack : w.stack = [.tick i (some d)]) :
    Move R w ws ds (World.issue { w with stack := [.ticked i d] } d) ws ds
  /-- a function returns -/
  | ended {f : Frame} {st : List Frame} (hstack : w.stack = f :: st) (hcalls : f.calls = none)
    (hholds : f.holds = none) (hdrains : ∀ d, f.drains = some d → ws (some d) = [])
    (hstored : ∀ q rep i, f.stored = some (q, rep, i) → (w.conf.dom q.dom).naddrs ≤ i) :
    Move R w ws ds { w with stack := st } ws ds
  /-- a function goes on -/
  | turned {f f' : Frame} {st : List Frame} (hstack : w.stack = f :: st) (hcalls : f.calls = none)
    (hcalls' : f'.calls = none) (halike : f.Alike f') (hfresh : w.fresh = none)
    (hloop : ∀ q rep i, f' = .store q rep i → ws (some q.dom) = []) :
    Move R w ws ds { w with stack := f' :: st } ws ds
  /-- a function calls the handler of a waiter -/
  | invoke {f f' : Frame} {st : List Frame} {d c : Nat} {l : List Nat} {h : η} {data : δ}
    (arg : Arg) (hstack : w.stack = f :: st) (hcalls : f.calls = none) (hcalls' : f'.calls = some c)
    (halike : f.Alike f') (hdrains : f.drains = some d)
    (hgoes : ∀ q, f.reply = some q → R.goes w q) (hl : ws (some d) = c :: l)
    (hh : (w.conf.ctx c).h = some h) (hdata : (w.conf.ctx c).data = some data)
    (hshape : Shape { w with
      conf := w.conf.setDom d { w.conf.dom d with ctx := (w.conf.ctx c).next }
      stack := f' :: st
      called := ⟨w.owner c, h, data, arg, f.reply⟩ :: w.called }
      (Function.update ws (some d) l) ds) :
    Move R w ws ds
      { w with
        conf := w.conf.setDom d { w.conf.dom d with ctx := (w.conf.ctx c).next }
        stack := f' :: st
        called := ⟨w.owner c, h, data, arg, f.reply⟩ :: w.called }
      (Function.update ws (some d) l) ds
  /-- the handler returns -/
  | giveBack {f f' : Frame} {st : List Frame} {c : Nat} (hstack : w.stack = f :: st)
    (hcalls : f.calls = some c) (hcalls' : f'.calls = none) (halike : f.Alike f')
    (hfresh : w.fresh = none) (hloop : ∀ q rep i, f' ≠ .store q rep i) :
    Move R w ws ds { w with conf := putCtx w.conf c, stack := f' :: st }
      (Function.update ws none (c :: ws none)) ds
  /-- a deleted record is freed -/
  | freed {d : Nat} {st : List Frame} (hstack : w.stack = .del d none :: st)
    (hd : ws (some d) = []) :
    Move R w ws ds { w with conf := putDomain w.conf d, stack := st } ws
      (Function.update ds none (d :: ds none))
  /-- a query is answered -/
  | reply {q : Query} {rep : List Addr} (hq : q ∈ w.queries)
    (hwhen : w.stack = [] ∨ w.fresh = some q) (hgoes : R.goes w q) (hfits : R.fits rep) :
    Move R w ws ds
      ((World.answer { w with fresh := none, queries := w.queries.erase q } q rep).onResult q rep)
      ws ds
  /-- an address is stored -/
  | store {q : Query} {rep : List Addr} {i n : Nat} {a : Addr} {st : List Frame}
    (hstack : w.stack = .store q rep i :: st) (hi : i < (w.conf.dom q.dom).naddrs)
    (ha : rep[i]? = some a) (hgoes : R.goes w q) (hfresh : w.fresh = none) :
    Move R w ws ds
      { w with
        conf := w.conf.setDom q.dom
          { w.conf.dom q.dom with addrs := storeAddr (w.conf.dom q.dom).addrs i a }
        stack := .wait q rep i n none :: st }
      ws ds

section
variable {w w' : World η δ} {ws ws' ds ds' : Option Nat → List Nat}

theorem World.answer_eq (w : World η δ) (q : Query) (rep : List Addr) :
    ∃ live, w.answer q rep = { w with live } := by
  unfold World.answer
  split
  · split <;> exact ⟨_, rfl⟩
  · exact ⟨_, rfl⟩

/-- A reply puts no name into the table and takes none out. -/
theorem World.answer_live (w : World η δ) (q : Query) (rep : List Addr) (temp : List UInt8) :
    ((w.answer q rep).live temp).isSome = (w.live temp).isSome := by
  unfold World.answer
  split
  · next i as hq =>
    split
    · by_cases ht : temp = q.name
      · subst ht
        simp [hq]
      · simp [Function.update_of_ne ht]
    · rfl
  · rfl

theorem Shape.answer (hw : Shape w ws ds) (q : Query) (rep : List Addr) :
    Shape (w.answer q rep) ws ds := by
  have hlive := w.answer_live q rep
  obtain ⟨live, heq⟩ := w.answer_eq q rep
  rw [heq] at hlive ⊢
  exact hw.congr rfl rfl rfl hlive

theorem Shape.onResult (hw : Shape w ws ds) (q : Query) (rep : List Addr) :
    Shape (w.onResult q rep) ws ds := by
  unfold World.onResult
  split
  · exact hw.congr rfl rfl rfl fun _ => rfl
  · exact (hw.setDom (d := q.dom) (x := { w.conf.dom q.dom with naddrs := min rep.length maxAddrs })
      rfl rfl rfl).congr rfl rfl rfl fun _ => rfl

theorem Loops.onResult (hw : Loops w ws) (hall : ∀ f ∈ w.stack, f.paused = true)
    (hfresh : w.fresh = none) (q : Query) (rep : List Addr) : Loops (w.onResult q rep) ws := by
  unfold World.onResult
  split
  · refine hw.push hall rfl (fun h => by cases h) (.inl hfresh) fun q' rep' i h => by cases h
  · next hlen =>
    refine hw.push hall rfl (fun h => by cases h) (.inl hfresh) fun q' rep' i h => ?_
    cases h
    refine .inl ⟨rfl, ?_⟩
    show 0 < ((w.conf.setDom q.dom _).dom q.dom).naddrs
    rw [Conf.setDom_self]
    unfold maxAddrs
    show 0 < min rep.length 8
    omega

/-- **Moves** keep the lists, the handlers, the names and the order of the stack. -/
theorem Move.sound {R : Rules η δ} (h : Move R w ws ds w' ws' ds') (hw : Sound w ws ds) :
    Sound w' ws' ds' := by
  obtain ⟨hs, hl⟩ := hw
  cases h with
  | fresh =>
    exact ⟨hs.congr rfl rfl rfl fun _ => rfl, hl.below, fun h => absurd rfl h, hl.ticks, hl.loop⟩
  | crash e => exact ⟨hs.congr rfl rfl rfl fun _ => rfl, hl.below, hl.fresh, hl.ticks, hl.loop⟩
  | lost h data huser hlost => exact ⟨hs.congr rfl rfl rfl fun _ => rfl, hl.of_user huser rfl⟩
  | direct h data arg huser =>
    refine ⟨hs.congr rfl rfl rfl fun _ => rfl, ?_⟩
    exact hl.push (hl.all_paused huser) rfl (fun h => by cases h) (.inr rfl)
      fun q rep i h => by cases h
  | gone huser hno => exact ⟨hs.gone hno, hl.of_user huser rfl⟩
  | enter huser hent hshape => exact ⟨hshape, hl.of_user huser rfl⟩
  | wait h data huser hd hnaddrs hc hdom hctx hidx hshape =>
    exact ⟨hshape.congr rfl rfl rfl fun _ => rfl, hl.of_user huser rfl⟩
  | unlink huser hfresh hb hd =>
    refine ⟨hs.unlink hb hd, ?_⟩
    exact hl.push (hl.all_paused huser) rfl (fun h => by cases h) (.inl hfresh)
      fun q rep i h => by cases h
  | timer p hstack hfresh =>
    refine ⟨hs.congr rfl (by rw [hstack]; rfl) (by rw [hstack]; rfl) fun _ => rfl, ?_⟩
    refine hl.push (fun f hf => ?_) (by rw [hstack]) (fun _ => hstack) (.inl hfresh)
      fun q rep i h => by cases h
    rw [hstack] at hf
    cases hf
  | issue hstack =>
    refine ⟨hs.congr rfl (by rw [hstack]; rfl) (by rw [hstack]; rfl) fun _ => rfl, ?_⟩
    exact hl.top hstack rfl rfl (.inr rfl) fun q rep i h => by cases h
  | ended hstack hcalls hholds hdrains hstored =>
    refine ⟨hs.congr rfl ?_ ?_ fun _ => rfl, hl.pop hstack rfl⟩
    · rw [hstack, List.filterMap_cons, hcalls]
    · rw [hstack, List.filterMap_cons, hholds]
  | turned hstack hcalls hcalls' halike hfresh hloop =>
    refine ⟨hs.congr rfl ?_ ?_ fun _ => rfl, ?_⟩
    · rw [hstack, List.filterMap_cons, List.filterMap_cons, hcalls, hcalls']
    · rw [hstack, List.filterMap_cons, List.filterMap_cons, halike.holds]
    · exact hl.top hstack rfl halike.ticks (.inl hfresh) hloop
  | invoke arg hstack hcalls hcalls' halike hdrains hgoes hws hh hdata hshape =>
    refine ⟨hshape, hl.top hstack rfl halike.ticks (.inr (Frame.paused_of_calls hcalls')) ?_⟩
    rintro q rep i rfl
    cases hcalls'
  | giveBack hstack hcalls hcalls' halike hfresh hloop =>
    refine ⟨hs.giveBack hstack hcalls hcalls' halike.holds, ?_⟩
    exact hl.top hstack rfl halike.ticks (.inl hfresh) fun q rep i h => absurd h (hloop q rep i)
  | freed hstack hd => exact ⟨hs.freed hstack hd, hl.pop hstack rfl⟩
  | @reply q rep hq hwhen hgoes hfits =>
    have hall : ∀ f ∈ w.stack, f.paused = true := by
      rcases hwhen with hnil | hfresh
      · rw [hnil]
        exact fun f hf => by cases hf
      · exact hl.fresh (by rw [hfresh]; simp)
    refine ⟨?_, ?_⟩
    · refine (Shape.answer ?_ q rep).onResult q rep
      exact hs.congr rfl rfl rfl fun _ => rfl
    · obtain ⟨live, heq⟩ :=
        World.answer_eq { w with fresh := none, queries := w.queries.erase q } q rep
      rw [heq]
      exact Loops.onResult (w := { w with fresh := none, queries := w.queries.erase q, live })
        ⟨hl.below, fun h => absurd rfl h, hl.ticks, hl.loop⟩ hall rfl q rep
  | @store q rep i n a st hstack hi ha hgoes hfresh =>
    have hset := hs.setDom (d := q.dom)
      (x := { w.conf.dom q.dom with addrs := storeAddr (w.conf.dom q.dom).addrs i a }) rfl rfl rfl
    refine ⟨hset.congr rfl ?_ ?_ fun _ => rfl, ?_⟩
    · show _ = w.stack.filterMap Frame.calls
      rw [hstack]
      rfl
    · show _ = w.stack.filterMap Frame.holds
      rw [hstack]
      rfl
    · exact hl.top hstack rfl rfl (.inl hfresh) fun q rep i h => by cases h

end

/-! ## Steps -/

/-- A property that every move keeps. -/
def Closed (R : Rules η δ)
    (P : World η δ → (Option Nat → List Nat) → (Option Nat → List Nat) → Prop) : Prop :=
  ∀ {w w' : World η δ} {ws ds ws' ds' : Option Nat → List Nat},
    Sound w ws ds → P w ws ds → Move R w ws ds w' ws' ds' → P w' ws' ds'

def Kept (P : World η δ → (Option Nat → List Nat) → (Option Nat → List Nat) → Prop)
    (w : World η δ) : Prop :=
  ∃ ws ds, Sound w ws ds ∧ P w ws ds

/-- The labels whose moves the rules allow. -/
def Rules.allow (R : Rules η δ) (pton : List UInt8 → Nat) (w : World η δ) : Label η δ → Prop
  | .start domain _ _ _ _ _ => w.Answers pton domain ∨ R.lost
  | .reply q rep => R.goes w q ∧ R.fits rep
  | .run _ => ∀ f st q, w.stack = f :: st → f.reply = some q → R.goes { w with fresh := none } q
  | _ => True

section
variable {R : Rules η δ}
  {P : World η δ → (Option Nat → List Nat) → (Option Nat → List Nat) → Prop}
  {w w' : World η δ} {ws ds ws' ds' : Option Nat → List Nat} {pton : List UInt8 → Nat}

theorem Closed.move (hP : Closed R P) (hw : Sound w ws ds) (hp : P w ws ds)
    (hm : Move R w ws ds w' ws' ds') : Kept P w' :=
  ⟨ws', ds', hm.sound hw, hP hw hp hm⟩

/-- The worker as it is, or with a fault. -/
theorem Closed.fault (hP : Closed R P) (hw : Sound w ws ds) (hp : P w ws ds) {e : Option Fault}
    (he : e = w.fault ∨ e ≠ none) : Kept P { w with fault := e } := by
  rcases he with rfl | he
  · exact ⟨ws, ds, hw, hp⟩
  · obtain ⟨f, rfl⟩ := Option.ne_none_iff_exists'.mp he
    exact hP.move hw hp (.crash f)

theorem Closed.add (hP : Closed R P) (hw : Sound w ws ds) (hp : P w ws ds) (huser : w.user = true)
    (domain : Option (List UInt8)) (pcalloc : Bool) : Kept P (w.add pton domain pcalloc) := by
  rcases World.add_cases hw.shape pton domain pcalloc with
    ⟨e, he, hf⟩ | ⟨ds', temp, d, s, -, hent, hshape, he⟩
  · rw [he]
    exact hP.fault hw hp (hf.imp_right And.left)
  · rw [he]
    exact hP.move hw hp (.enter huser hent hshape)

theorem Closed.del (hP : Closed R P) (hw : Sound w ws ds) (hp : P w ws ds) (huser : w.user = true)
    (hfresh : w.fresh = none) (domain : Option (List UInt8)) : Kept P (w.del pton domain) := by
  rcases World.del_cases hw.shape pton domain with
    ⟨e, he, hf⟩ | ⟨temp, hno, he⟩ | ⟨temp, l₁, d, l₂, -, hb, hd, he⟩
  · rw [he]
    exact hP.fault hw hp (hf.imp_right And.left)
  · rw [he]
    exact hP.move hw hp (.gone huser hno)
  · rw [he]
    exact hP.move hw hp (.unlink huser hfresh hb hd)

/-- A start call on an entry. -/
theorem Closed.startEntry (hP : Closed R P) (hw : Sound w ws ds) (hp : P w ws ds)
    (huser : w.user = true) {temp : List UInt8} {d : Nat} (hd : Entry w.conf ds temp d) (h : η)
    (data : δ) (pcalloc : Bool) (rand : Nat) : Kept P (w.startEntry d h data pcalloc rand) := by
  rcases World.startEntry_cases hw.shape hd h data pcalloc rand with
    ⟨arg, he⟩ | ⟨hnaddrs, -, c, s, l, hc, hdom, hctx, -, hidx, hshape, he⟩
  · rw [he]
    exact hP.move hw hp (.direct h data arg huser)
  · rw [he]
    exact hP.move hw hp (.wait h data huser hd hnaddrs hc hdom hctx hidx hshape)

theorem Closed.start (hP : Closed R P) (hw : Sound w ws ds) (hp : P w ws ds)
    (huser : w.user = true) {domain : Option (List UInt8)}
    (hlost : w.Answers pton domain ∨ R.lost) (h : η) (data : δ) (pcallocDomain pcallocCtx : Bool)
    (rand : Nat) : Kept P (w.start pton domain h data pcallocDomain pcallocCtx rand) := by
  rcases World.start_cases hw.shape pton domain h data pcallocDomain pcallocCtx rand with
    ⟨e, he, hno, hf⟩ | ⟨arg, he⟩ | ⟨temp, d, -, hd, he⟩ |
      ⟨ds', temp, d, s, -, -, hent, hshape, he⟩
  · rw [he]
    have hm : Move R w ws ds { w with started := w.started ++ [⟨h, data, none⟩] } ws ds :=
      .lost h data huser (hlost.resolve_left hno)
    exact hP.fault (hm.sound hw) (hP hw hp hm) (hf.imp_right And.left)
  · rw [he]
    exact hP.move hw hp (.direct h data arg huser)
  · rw [he]
    exact hP.startEntry hw hp huser hd h data pcallocCtx rand
  · rw [he]
    have hm : Move R w ws ds (World.enter { w with conf := s } temp d) ws ds' :=
      .enter huser hent hshape
    exact hP.startEntry (hm.sound hw) (hP hw hp hm) huser
      ((hent.entry _ _).mpr (.inl ⟨rfl, rfl⟩)) h data pcallocCtx rand

/-- One turn of a loop that calls the waiters of `d`. -/
theorem World.invoke_move (hw : Sound w ws ds) {f f' : Frame} {st : List Frame} {d c : Nat}
    {s : Conf η δ} (arg : Arg) (hstack : w.stack = f :: st) (hcalls : f.calls = none)
    (hcalls' : f'.calls = some c) (halike : f.Alike f') (hdrains : f.drains = some d)
    (hgoes : ∀ q, f.reply = some q → R.goes w q) (hpop : popCtx w.conf d = some (c, s)) :
    ∃ ws' ds', Move R w ws ds (w.invoke s (f' :: st) c arg f.reply) ws' ds' ∧
      ∀ b, ds' (some b) = ds (some b) := by
  obtain ⟨l, h, data, hl, hh, hdata, rfl, heq, hshape⟩ :=
    hw.shape.invoke arg f.reply hstack hcalls hcalls' halike.holds hpop
  rw [heq]
  exact ⟨_, ds, .invoke arg hstack hcalls hcalls' halike hdrains hgoes hl hh hdata hshape,
    fun _ => rfl⟩

/-- A turn of a C function is one move, and leaves the buckets. -/
theorem World.run_move (hw : Sound w ws ds) (hfresh : w.fresh = none)
    (hgoes : ∀ f st q, w.stack = f :: st → f.reply = some q → R.goes w q) {rand : Nat}
    (h : w.run rand = some w') :
    ∃ ws' ds', Move R w ws ds w' ws' ds' ∧ ∀ b, ds' (some b) = ds (some b) := by
  unfold World.run at h
  split at h
  · next q st hstack =>
    split at h
    · next hpop =>
      cases h
      refine ⟨ws, ds, .ended hstack rfl rfl (fun d hd => ?_) fun _ _ _ h => (by cases h),
        fun _ => rfl⟩
      cases hd
      exact hw.shape.table.popCtx_none hpop
    · next c s hpop =>
      cases h
      exact World.invoke_move hw (f := .fail q none) .null hstack rfl rfl ⟨rfl, rfl, rfl, rfl, rfl⟩ rfl
        (fun q' => hgoes _ st q' hstack) hpop
  · next q rep i st hstack =>
    dsimp only at h
    split at h
    · next hi =>
      split at h
      · cases h
        exact ⟨ws, ds, .crash .overread, fun _ => rfl⟩
      · next a ha =>
        cases h
        exact ⟨ws, ds, .store hstack hi ha (hgoes _ st q hstack rfl) hfresh, fun _ => rfl⟩
    · next hi =>
      cases h
      refine ⟨ws, ds, .ended hstack rfl rfl (fun d hd => ?_) fun q' rep' i' h' => ?_, fun _ => rfl⟩
      · cases hd
        refine (hw.loops.loop q rep i st hstack).resolve_left fun ⟨h0, hpos⟩ => hi ?_
        omega
      · cases h'
        exact Nat.not_lt.mp hi
  · next q rep i n st hstack =>
    split at h
    · next hpop =>
      cases h
      refine ⟨ws, ds, .turned hstack rfl rfl ⟨rfl, rfl, rfl, rfl, rfl⟩ hfresh
        fun q' rep' i' h' => ?_, fun _ => rfl⟩
      cases h'
      exact hw.shape.table.popCtx_none hpop
    · next c s hpop =>
      cases h
      exact World.invoke_move hw (f := .wait q rep i n none) _ hstack rfl rfl ⟨rfl, rfl, rfl, rfl, rfl⟩
        rfl (fun q' => hgoes _ st q' hstack) hpop
  · next d st hstack =>
    split at h
    · next hpop =>
      cases h
      exact ⟨ws, _, .freed hstack (hw.shape.table.popCtx_none hpop),
        fun b => Function.update_of_ne (by simp) _ _⟩
    · next c s hpop =>
      cases h
      exact World.invoke_move hw (f := .del d none) .null hstack rfl rfl ⟨rfl, rfl, rfl, rfl, rfl⟩
        rfl (fun q' => hgoes _ st q' hstack) hpop
  · next i d st hstack =>
    cases h
    have hst : st = [] := hw.loops.ticks [] _ st hstack rfl
    subst hst
    exact ⟨ws, ds, .issue hstack, fun _ => rfl⟩
  · next i d st hstack =>
    cases h
    exact ⟨ws, ds, .turned hstack rfl rfl ⟨rfl, rfl, rfl, rfl, rfl⟩ hfresh
      fun q rep i h => (by cases h), fun _ => rfl⟩
  · next i st hstack =>
    split at h
    · cases h
      exact ⟨ws, ds, .turned hstack rfl rfl ⟨rfl, rfl, rfl, rfl, rfl⟩ hfresh
        fun q rep i h => (by cases h), fun _ => rfl⟩
    · cases h
      exact ⟨ws, ds, .ended hstack rfl rfl (fun d hd => by cases hd)
        fun _ _ _ h => (by cases h), fun _ => rfl⟩
  · cases h

/-- The return of a handler is one move, and leaves the buckets. -/
theorem World.ret_move (ws ds : Option Nat → List Nat) (hfresh : w.fresh = none)
    (h : w.ret = some w') :
    ∃ ws' ds', Move R w ws ds w' ws' ds' ∧ ∀ b, ds' (some b) = ds (some b) := by
  unfold World.ret at h
  split at h
  · next st hstack =>
    cases h
    exact ⟨ws, ds, .ended hstack rfl rfl (fun d hd => by cases hd)
      fun _ _ _ h => (by cases h), fun _ => rfl⟩
  · next q c st hstack =>
    cases h
    exact ⟨_, ds, .giveBack hstack rfl rfl ⟨rfl, rfl, rfl, rfl, rfl⟩ hfresh
      fun q rep i h => (by cases h), fun _ => rfl⟩
  · next q rep i n c st hstack =>
    dsimp only at h
    split at h
    · cases h
      exact ⟨ws, ds, .crash .divByZero, fun _ => rfl⟩
    · cases h
      exact ⟨_, ds, .giveBack hstack rfl rfl ⟨rfl, rfl, rfl, rfl, rfl⟩ hfresh
        fun q rep i h => (by cases h), fun _ => rfl⟩
  · next d c st hstack =>
    cases h
    exact ⟨_, ds, .giveBack hstack rfl rfl ⟨rfl, rfl, rfl, rfl, rfl⟩ hfresh
      fun q rep i h => (by cases h), fun _ => rfl⟩
  · cases h

/-- **Steps.**  What every move keeps, every step keeps whose label is allowed. -/
theorem Closed.step (hP : Closed R P) (hw : Kept P w) {l : Label η δ} (hl : R.allow pton w l)
    (h : w.step pton l = some w') : Kept P w' := by
  obtain ⟨ws, ds, hw, hp⟩ := hw
  -- every step but a reply first forgets what was asked for last
  have hm : Move R w ws ds { w with fresh := none } ws ds := .fresh
  have hw0 := hm.sound hw
  have hp0 := hP hw hp hm
  cases (World.steps_of_step h).2 with
  | add huser => exact hP.add hw0 hp0 huser _ _
  | del huser => exact hP.del hw0 hp0 huser rfl _
  | start huser => exact hP.start hw0 hp0 huser hl _ _ _ _ _
  | host | timer => exact ⟨ws, ds, hw0, hp0⟩
  | @hostFault _ _ e => exact hP.move hw0 hp0 (.crash e)
  | reply hq hwhen => exact hP.move hw hp (.reply hq hwhen hl.1 hl.2)
  | timerFault => exact hP.move hw0 hp0 (.crash .nullHash)
  | tick hstack =>
    rw [hstack]
    exact hP.move hw0 hp0 (.timer _ hstack rfl)
  | run hrun =>
    obtain ⟨ws', ds', hm, -⟩ := World.run_move hw0 rfl (fun f st q => hl f st q) hrun
    exact hP.move hw0 hp0 hm
  | ret hret =>
    obtain ⟨ws', ds', hm, -⟩ := World.ret_move ws ds rfl hret
    exact hP.move hw0 hp0 hm

end

/-! ## Runs -/

section
variable {pton : List UInt8 → Nat} {refreshInterval domainBuckets : Nat} {hashed : Bool}

/-- Nothing is in the heaps at the start. -/
theorem sound_start : Sound (η := η) (δ := δ)
    (machine pton refreshInterval domainBuckets hashed).start (fun _ => []) (fun _ => []) := by
  refine ⟨⟨⟨?_, ?_, ?_, fun b => List.nodup_nil, fun _ _ => rfl⟩, ?_, fun temp => ?_⟩,
    ⟨?_, fun h => absurd rfl h, fun st' f st h => ?_, ?_⟩⟩
  · exact Pool.empty fun i => by cases i <;> rfl
  · exact Pool.empty fun i => by cases i <;> rfl
  · intro b d hd
    cases hd
  · intro d c hc
    cases hc
  · constructor
    · intro h
      cases h
    · rintro ⟨d, hd, -⟩
      cases hd
  · intro f hf
    cases hf
  · exact absurd h.symm (by simp [machine])
  · intro q rep i st h
    cases h

/-- **Runs.**  What holds at the start and every move keeps holds in every state
that a run reaches whose labels are allowed. -/
theorem Closed.reach {R : Rules η δ}
    {P : World η δ → (Option Nat → List Nat) → (Option Nat → List Nat) → Prop} (hP : Closed R P)
    (h0 : P (machine pton refreshInterval domainBuckets hashed).start (fun _ => []) fun _ => [])
    {ok : World η δ → Label η δ → Prop} (hok : ∀ w l, ok w l → R.allow pton w l) {w : World η δ}
    (hw : (machine pton refreshInterval domainBuckets hashed).ReachIf ok w) : Kept P w :=
  hw.invariant ⟨_, _, sound_start, h0⟩ fun w l _ _ hk hl hst => hP.step hk (hok w l hl) hst

end

end NgxToolkit.DynamicResolver
