import Mathlib.Data.List.Basic
import Mathlib.Tactic.Common
import NgxToolkit.DynamicResolverAddrs
import NgxToolkit.DynamicResolverDrain

/-! One call of `ngx_dynamic_resolver_on_result`, from the reply to its return.

`Draining w₀ q rep cs r above f k w ws ds` is the worker in the middle of it: it
came to the state `w₀`, in which the record of `q` had the waiters `cs`; `f` is
its frame, under those that its handlers have called, and `k` of the waiters have
been called.  `Turn` says where in its loops it is and how many turns are left.

* `Draining.leaves`: the handlers leave it where it is, if they spare its record.
* `Draining.turn`: its next turn is possible, and brings it nearer to its return. -/

namespace NgxToolkit.DynamicResolver

open Lib

variable {η δ : Type}

/-- The slots when the first addresses of an answer are stored. -/
def storeFirst (old : Nat → Slot) (rep : List Addr) : Nat → Nat → Slot
  | 0 => old
  | i + 1 =>
    match rep[i]? with
    | none => storeFirst old rep i
    | some a => storeAddr (storeFirst old rep i) i a

/-- What a waiter is called with if the turn is at the slot `n`. -/
def handArg (old : Nat → Slot) (rep : List Addr) (n : Nat) : Arg :=
  if rep = [] then .null else .addr (storeFirst old rep 1 (n % min rep.length maxAddrs))

/-- The start calls of the waiters `cs` and what they are called with, from the
random value `r` on. -/
def handOuts (w : World η δ) (q : Query) (rep : List Addr) (cs : List Nat) (r : Nat) :
    List (Nat × Arg) :=
  cs.mapIdx fun j c => (w.owner c, handArg (w.conf.dom q.dom).addrs rep (r + j))

/-- The calls among `l` that are made for an answer to `q`, the first one first. -/
def answers (q : Query) (l : List (Call η δ)) : List (Nat × Arg) :=
  ((l.filter fun k => decide (k.reply = some q)).map fun k => (k.start, k.arg)).reverse

/-! ## Turns -/

/-- `ngx_dynamic_resolver_on_result` with the answer `rep` to `q`, called for a
record with `n` waiters and the addresses `old`: in the frame, after so many
calls, it has so many turns left, and the record is as it should be. -/
inductive Turn (q : Query) (rep : List Addr) (old : Nat → Slot) (n r : Nat) :
    Frame → Nat → Nat → Domain → Prop
  | fail {k : Nat} {x : Domain} (hrep : rep = []) :
    Turn q rep old n r (.fail q none) k (2 * (n - k) + 1) x
  | failed {k c : Nat} {x : Domain} (hrep : rep = []) :
    Turn q rep old n r (.fail q (some c)) k (2 * (n - k) + 2) x
  | start {x : Domain} (hrep : rep ≠ []) (hx : x.naddrs = min rep.length maxAddrs)
    (haddrs : x.addrs = old) :
    Turn q rep old n r (.store q rep 0) 0 (2 * n + 2 * min rep.length maxAddrs + 1) x
  | wait {k : Nat} {x : Domain} (hrep : rep ≠ []) (hx : x.naddrs = min rep.length maxAddrs)
    (haddrs : x.addrs = storeFirst old rep 1) :
    Turn q rep old n r (.wait q rep 0 ((r + k) % min rep.length maxAddrs) none) k
      (2 * (n - k) + 2 * min rep.length maxAddrs) x
  | call {k c : Nat} {x : Domain} (hrep : rep ≠ []) (hx : x.naddrs = min rep.length maxAddrs)
    (haddrs : x.addrs = storeFirst old rep 1) :
    Turn q rep old n r (.wait q rep 0 ((r + k) % min rep.length maxAddrs) (some c)) (k + 1)
      (2 * (n - (k + 1)) + 2 * min rep.length maxAddrs + 1) x
  | store {i : Nat} {x : Domain} (hi : 0 < i) (hin : i ≤ min rep.length maxAddrs)
    (hx : x.naddrs = min rep.length maxAddrs) (haddrs : x.addrs = storeFirst old rep i) :
    Turn q rep old n r (.store q rep i) n (2 * (min rep.length maxAddrs - i) + 1) x
  | fill {i p : Nat} {x : Domain} (hi : 0 < i) (hin : i < min rep.length maxAddrs)
    (hx : x.naddrs = min rep.length maxAddrs) (haddrs : x.addrs = storeFirst old rep (i + 1)) :
    Turn q rep old n r (.wait q rep i p none) n (2 * (min rep.length maxAddrs - i)) x

section
variable {q : Query} {rep : List Addr} {old : Nat → Slot} {n r k t : Nat} {f : Frame}
  {x x' : Domain}

theorem Turn.congr (h : Turn q rep old n r f k t x)
    (hx : rep ≠ [] → x'.naddrs = x.naddrs ∧ x'.addrs = x.addrs) : Turn q rep old n r f k t x' := by
  have hpos : 0 < min rep.length maxAddrs → rep ≠ [] := by
    rintro hm rfl
    simp at hm
  cases h with
  | fail hrep => exact .fail hrep
  | failed hrep => exact .failed hrep
  | start hrep hn ha => exact .start hrep ((hx hrep).1.trans hn) ((hx hrep).2.trans ha)
  | wait hrep hn ha => exact .wait hrep ((hx hrep).1.trans hn) ((hx hrep).2.trans ha)
  | call hrep hn ha => exact .call hrep ((hx hrep).1.trans hn) ((hx hrep).2.trans ha)
  | store hi hin hn ha =>
    have hrep := hpos (by omega)
    exact .store hi hin ((hx hrep).1.trans hn) ((hx hrep).2.trans ha)
  | fill hi hin hn ha =>
    have hrep := hpos (by omega)
    exact .fill hi hin ((hx hrep).1.trans hn) ((hx hrep).2.trans ha)

end

/-! ## Draining -/

structure Draining (w₀ : World η δ) (q : Query) (rep : List Addr) (cs : List Nat) (r : Nat)
    (above : List Frame) (f : Frame) (k : Nat) (w : World η δ) (ws ds : Option Nat → List Nat) :
    Prop where
  sound : Sound w ws ds
  fault : w.fault = none
  hash : w.conf.hashFault = none
  stack : w.stack = above ++ f :: w₀.stack
  beside : ∀ g ∈ above, g.Beside q.dom (ws (some q.dom))
  waiters : ws (some q.dom) = cs.drop k
  owner : ∀ c ∈ cs.drop k, w.owner c = w₀.owner c
  called : ∃ l, w.called = l ++ w₀.called ∧ answers q l = (handOuts w₀ q rep cs r).take k

/-- The worker behind the return. -/
structure Drained (w₀ : World η δ) (q : Query) (rep : List Addr) (cs : List Nat) (r : Nat)
    (w : World η δ) (ws ds : Option Nat → List Nat) : Prop where
  sound : Sound w ws ds
  fault : w.fault = none
  stack : w.stack = w₀.stack
  waiters : ws (some q.dom) = []
  called : ∃ l, w.called = l ++ w₀.called ∧ answers q l = handOuts w₀ q rep cs r
  record : rep ≠ [] → (w.conf.dom q.dom).naddrs = min rep.length maxAddrs ∧
    (w.conf.dom q.dom).addrs =
      storeFirst (w₀.conf.dom q.dom).addrs rep (min rep.length maxAddrs)

section
variable {w₀ w w' : World η δ} {q : Query} {rep : List Addr} {cs : List Nat} {r k : Nat}
  {above : List Frame} {f f' : Frame} {ws ws' ds ds' : Option Nat → List Nat}
  {pton : List UInt8 → Nat}

theorem answers_append (q : Query) (l l' : List (Call η δ)) :
    answers q (l ++ l') = answers q l' ++ answers q l := by
  unfold answers
  rw [List.filter_append, List.map_append, List.reverse_append]

theorem answers_none {l : List (Call η δ)} (q : Query) (h : ∀ k ∈ l, k.reply = none) :
    answers q l = [] := by
  unfold answers
  rw [List.filter_eq_nil_iff.mpr fun k hk => by rw [h k hk]; simp]
  rfl

theorem Draining.leaves (h : Draining w₀ q rep cs r above f k w ws ds)
    (hl : Leaves q.dom (rep ≠ []) (f :: w₀.stack) w ws w' ws') (hsound : Sound w' ws' ds')
    (hhash : w'.conf.hashFault = none) :
    ∃ above', Draining w₀ q rep cs r above' f k w' ws' ds' := by
  obtain ⟨above', hstack, hbeside⟩ := hl.above
  refine ⟨above', hsound, hl.fault.trans h.fault, hhash, hstack, hbeside,
    hl.waiters.trans h.waiters, fun c hc => ?_, ?_⟩
  · rw [hl.owner c (by rw [h.waiters]; exact hc), h.owner c hc]
  · obtain ⟨l, hl0, hans⟩ := h.called
    obtain ⟨l', hl', hnone⟩ := hl.called
    refine ⟨l' ++ l, by rw [hl', hl0, List.append_assoc], ?_⟩
    rw [answers_append, answers_none q hnone, List.append_nil, hans]

/-- The call goes on in another frame. -/
theorem Draining.turned (h : Draining w₀ q rep cs r above f k w ws ds) (hsound : Sound w' ws' ds')
    (hstack : w'.stack = f' :: w₀.stack) (hfault : w'.fault = w.fault)
    (hhash : w'.conf.hashFault = w.conf.hashFault) (hws : ws' (some q.dom) = ws (some q.dom))
    (howner : w'.owner = w.owner) (hcalled : w'.called = w.called) :
    Draining w₀ q rep cs r [] f' k w' ws' ds' := by
  refine ⟨hsound, hfault.trans h.fault, hhash.trans h.hash, hstack, fun g hg => (by cases hg),
    hws.trans h.waiters, ?_, ?_⟩
  · rw [howner]
    exact h.owner
  · rw [hcalled]
    exact h.called

theorem handOuts_take {c : Nat} {l : List Nat} (w₀ : World η δ) (q : Query) (rep : List Addr)
    (r : Nat) (h : cs.drop k = c :: l) :
    (handOuts w₀ q rep cs r).take (k + 1) = (handOuts w₀ q rep cs r).take k ++
      [(w₀.owner c, handArg (w₀.conf.dom q.dom).addrs rep (r + k))] := by
  have hk : cs[k]? = some c := by
    rw [← List.head?_drop, h, List.head?_cons]
  rw [List.take_add_one]
  unfold handOuts
  rw [List.getElem?_mapIdx, hk]
  rfl

/-- The handler of the next waiter is called. -/
theorem Draining.invoke (h : Draining w₀ q rep cs r [] f k w ws ds) {c : Nat} {s : Conf η δ}
    {arg : Arg} (hcalls : f.calls = none) (hcalls' : f'.calls = some c) (halike : f.Alike f')
    (hreply : f.reply = some q) (hdrains : f.drains = some q.dom)
    (hpop : popCtx w.conf q.dom = some (c, s))
    (harg : arg = handArg (w₀.conf.dom q.dom).addrs rep (r + k)) :
    ∃ ws',
      Draining w₀ q rep cs r [] f' (k + 1) (w.invoke s (f' :: w₀.stack) c arg (some q)) ws' ds ∧
      ((w.invoke s (f' :: w₀.stack) c arg (some q)).conf.dom q.dom).naddrs =
        (w.conf.dom q.dom).naddrs ∧
      ((w.invoke s (f' :: w₀.stack) c arg (some q)).conf.dom q.dom).addrs =
        (w.conf.dom q.dom).addrs ∧ k < cs.length := by
  obtain ⟨l, hd, data, hl, hh, hdata, rfl, heq, hshape⟩ :=
    h.sound.shape.invoke arg (some q) h.stack hcalls hcalls' halike.holds hpop
  rw [heq]
  have hdrop : cs.drop k = c :: l := h.waiters.symm.trans hl
  have hdrop' : cs.drop (k + 1) = l := by
    rw [← List.drop_drop, hdrop]
    rfl
  have hsound := hreply ▸ (Move.invoke (R := Rules.free) arg h.stack hcalls hcalls' halike hdrains
    (fun _ _ => trivial) hl hh hdata (hreply ▸ hshape)).sound h.sound
  refine ⟨_, ⟨hsound, h.fault, h.hash, rfl, fun g hg => (by cases hg), ?_, fun c' hc' => ?_, ?_⟩,
    ?_, ?_, ?_⟩
  · rw [Function.update_self, hdrop']
  · rw [hdrop'] at hc'
    refine h.owner c' ?_
    rw [hdrop]
    exact List.mem_cons_of_mem _ hc'
  · obtain ⟨m, hm, hans⟩ := h.called
    refine ⟨⟨w.owner c, hd, data, arg, some q⟩ :: m, by rw [hm]; rfl, ?_⟩
    have hc : w.owner c = w₀.owner c := h.owner c (by rw [hdrop]; exact List.mem_cons_self)
    have hone : answers q [(⟨w.owner c, hd, data, arg, some q⟩ : Call η δ)] =
        [(w₀.owner c, handArg (w₀.conf.dom q.dom).addrs rep (r + k))] := by
      rw [← harg, ← hc]
      simp [answers]
    rw [← List.singleton_append, answers_append, hans, hone, handOuts_take w₀ q rep r hdrop]
  · show Domain.naddrs (Conf.dom (Conf.setDom _ _ _) q.dom) = _
    rw [Conf.setDom_self]
  · show Domain.addrs (Conf.dom (Conf.setDom _ _ _) q.dom) = _
    rw [Conf.setDom_self]
  · by_contra hk
    rw [List.drop_eq_nil_of_le (Nat.le_of_not_lt hk)] at hdrop
    cases hdrop

/-- The call is in the frame `f`, with `t` turns left. -/
def World.Hands (w₀ : World η δ) (q : Query) (rep : List Addr) (cs : List Nat) (r : Nat)
    (above : List Frame) (f : Frame) (t : Nat) (w : World η δ) : Prop :=
  ∃ k ws ds, Draining w₀ q rep cs r above f k w ws ds ∧
    Turn q rep (w₀.conf.dom q.dom).addrs cs.length r f k t (w.conf.dom q.dom)

/-- The call has returned. -/
def World.Handed (w₀ : World η δ) (q : Query) (rep : List Addr) (cs : List Nat) (r : Nat)
    (w : World η δ) : Prop :=
  ∃ ws ds, Drained w₀ q rep cs r w ws ds

/-- The last turn. -/
theorem Draining.drained (h : Draining w₀ q rep cs r [] f k w ws ds) (hcalls : f.calls = none)
    (hholds : f.holds = none) (hdrains : ∀ d, f.drains = some d → ws (some d) = [])
    (hstored : ∀ q rep i, f.stored = some (q, rep, i) → (w.conf.dom q.dom).naddrs ≤ i)
    (hws : ws (some q.dom) = [])
    (hrecord : rep ≠ [] → (w.conf.dom q.dom).naddrs = min rep.length maxAddrs ∧
      (w.conf.dom q.dom).addrs =
        storeFirst (w₀.conf.dom q.dom).addrs rep (min rep.length maxAddrs)) :
    w₀.Handed q rep cs r { w with stack := w₀.stack } := by
  have hk : cs.length ≤ k := List.drop_eq_nil_iff.mp (h.waiters.symm.trans hws)
  refine ⟨ws, ds, (Move.ended (R := Rules.free) h.stack hcalls hholds hdrains hstored).sound h.sound,
    h.fault, rfl, hws, ?_, hrecord⟩
  obtain ⟨l, hl, hans⟩ := h.called
  refine ⟨l, hl, hans.trans (List.take_of_length_le ?_)⟩
  unfold handOuts
  rwa [List.length_mapIdx]

/-- The loop of a failure goes on. -/
theorem Draining.run_fail (h : Draining w₀ q rep cs r [] (.fail q none) k w ws ds) (hrep : rep = [])
    {rand : Nat} (hrun : w.run rand = some w') :
    (∃ c, w₀.Hands q rep cs r [] (.fail q (some c)) (2 * (cs.length - k)) w' ∧ k < cs.length) ∨
      w₀.Handed q rep cs r w' ∧ cs.length ≤ k := by
  unfold World.run at hrun
  rw [h.stack] at hrun
  dsimp only [List.nil_append] at hrun
  split at hrun
  · next hpop =>
    cases hrun
    have hws := h.sound.shape.table.popCtx_none hpop
    refine .inr ⟨h.drained rfl rfl (fun d hd => ?_) (fun _ _ _ h => by cases h) hws
      fun hne => absurd hrep hne, List.drop_eq_nil_iff.mp (h.waiters.symm.trans hws)⟩
    cases hd
    exact hws
  · next c s hpop =>
    cases hrun
    have harg : Arg.null = handArg (w₀.conf.dom q.dom).addrs rep (r + k) := by
      unfold handArg
      rw [if_pos hrep]
    obtain ⟨ws', h', -, -, hk⟩ := h.invoke rfl (show Frame.calls (.fail q (some c)) = _ from rfl)
      ⟨rfl, rfl, rfl, rfl, rfl⟩ rfl rfl hpop harg
    have ht : 2 * (cs.length - k) = 2 * (cs.length - (k + 1)) + 2 := by omega
    rw [ht]
    exact .inl ⟨c, ⟨k + 1, ws', ds, h', .failed hrep⟩, hk⟩

/-- The waiters are called with an address. -/
theorem Draining.run_wait (h : Draining w₀ q rep cs r [] f k w ws ds)
    (hf : f = .wait q rep 0 ((r + k) % min rep.length maxAddrs) none)
    (hfresh : w.fresh = none) (hrep : rep ≠ [])
    (hx : (w.conf.dom q.dom).naddrs = min rep.length maxAddrs)
    (haddrs : (w.conf.dom q.dom).addrs = storeFirst (w₀.conf.dom q.dom).addrs rep 1) {rand : Nat}
    (hrun : w.run rand = some w') :
    ∃ f', f' ≠ .store q rep 0 ∧
      w₀.Hands q rep cs r [] f' (2 * (cs.length - k) + 2 * min rep.length maxAddrs - 1) w' := by
  have hpos : 0 < min rep.length maxAddrs := by
    have := List.length_pos_iff.mpr hrep
    unfold maxAddrs
    omega
  subst hf
  unfold World.run at hrun
  rw [h.stack] at hrun
  dsimp only [List.nil_append] at hrun
  split at hrun
  · next hpop =>
    cases hrun
    have hws := h.sound.shape.table.popCtx_none hpop
    have hk : cs.length ≤ k := List.drop_eq_nil_iff.mp (h.waiters.symm.trans hws)
    have halike : Frame.Alike (.wait q rep 0 ((r + k) % min rep.length maxAddrs) none)
        (.store q rep 1) := ⟨rfl, rfl, rfl, rfl, rfl⟩
    have hsound := (Move.turned (R := Rules.free) h.stack rfl rfl halike hfresh
      fun q' rep' i h => by cases h; exact hws).sound h.sound
    have hall := h.turned hsound rfl rfl rfl rfl rfl rfl
    -- all waiters have been called
    have hdone : Draining w₀ q rep cs r [] (.store q rep 1) cs.length
        { w with stack := .store q rep 1 :: w₀.stack } ws ds := by
      refine ⟨hall.sound, hall.fault, hall.hash, hall.stack, fun g hg => (by cases hg), ?_, ?_, ?_⟩
      · rw [List.drop_length]
        exact hws
      · rw [List.drop_length]
        intro c hc
        cases hc
      · obtain ⟨l, hl, hans⟩ := h.called
        have hlen : (handOuts w₀ q rep cs r).length = cs.length := List.length_mapIdx
        rw [List.take_of_length_le (by omega)] at hans
        refine ⟨l, hl, hans.trans ?_⟩
        rw [List.take_of_length_le (by omega)]
    have ht : 2 * (cs.length - k) + 2 * min rep.length maxAddrs - 1 =
        2 * (min rep.length maxAddrs - 1) + 1 := by omega
    rw [ht]
    exact ⟨.store q rep 1, by simp, cs.length, ws, ds, hdone,
      .store Nat.one_pos hpos hx haddrs⟩
  · next c s hpop =>
    cases hrun
    have harg : Arg.addr ((w.conf.dom q.dom).addrs ((r + k) % min rep.length maxAddrs)) =
        handArg (w₀.conf.dom q.dom).addrs rep (r + k) := by
      unfold handArg
      rw [if_neg hrep, haddrs]
    obtain ⟨ws', h', hx', haddrs', hk⟩ := h.invoke rfl
      (show Frame.calls (.wait q rep 0 ((r + k) % min rep.length maxAddrs) (some c)) = _ from rfl)
      ⟨rfl, rfl, rfl, rfl, rfl⟩ rfl rfl hpop harg
    have ht : 2 * (cs.length - k) + 2 * min rep.length maxAddrs - 1 =
        2 * (cs.length - (k + 1)) + 2 * min rep.length maxAddrs + 1 := by omega
    rw [ht]
    exact ⟨_, by simp, k + 1, ws', ds, h', .call hrep (hx'.trans hx) (haddrs'.trans haddrs)⟩

theorem storeFirst_succ (old : Nat → Slot) {rep : List Addr} {i : Nat} {a : Addr}
    (h : rep[i]? = some a) : storeFirst old rep (i + 1) = storeAddr (storeFirst old rep i) i a := by
  show (match rep[i]? with | none => _ | some a => _) = _
  rw [h]

/-- Address `i` is stored. -/
theorem Draining.run_store (h : Draining w₀ q rep cs r [] f k w ws ds) {i : Nat}
    (hf : f = .store q rep i) (hfresh : w.fresh = none)
    (hi : i < min rep.length maxAddrs) (hx : (w.conf.dom q.dom).naddrs = min rep.length maxAddrs)
    (haddrs : (w.conf.dom q.dom).addrs = storeFirst (w₀.conf.dom q.dom).addrs rep i) {rand : Nat}
    (hrun : w.run rand = some w') :
    Draining w₀ q rep cs r [] (.wait q rep i (rand % min rep.length maxAddrs) none) k w' ws ds ∧
      (w'.conf.dom q.dom).naddrs = min rep.length maxAddrs ∧
      (w'.conf.dom q.dom).addrs = storeFirst (w₀.conf.dom q.dom).addrs rep (i + 1) := by
  subst hf
  have hlt : i < rep.length := by omega
  have ha : rep[i]? = some rep[i] := List.getElem?_eq_getElem hlt
  unfold World.run at hrun
  rw [h.stack] at hrun
  dsimp only [List.nil_append] at hrun
  rw [if_pos (by omega), ha] at hrun
  cases hrun
  have hsound := (Move.store (R := Rules.free) (n := rand % (w.conf.dom q.dom).naddrs) h.stack
    (by omega) ha trivial hfresh).sound h.sound
  refine ⟨h.turned hsound ?_ rfl rfl rfl rfl rfl, ?_, ?_⟩
  · show Frame.wait q rep i (rand % (w.conf.dom q.dom).naddrs) none :: _ = _
    rw [hx]
  · show Domain.naddrs (Conf.dom (Conf.setDom _ _ _) q.dom) = _
    rw [Conf.setDom_self]
    exact hx
  · show Domain.addrs (Conf.dom (Conf.setDom _ _ _) q.dom) = _
    rw [Conf.setDom_self, storeFirst_succ _ ha, haddrs]

/-- Behind the last address the call returns. -/
theorem Draining.run_end (h : Draining w₀ q rep cs r [] (.store q rep (min rep.length maxAddrs))
      cs.length w ws ds) (hx : (w.conf.dom q.dom).naddrs = min rep.length maxAddrs)
    (haddrs : (w.conf.dom q.dom).addrs =
      storeFirst (w₀.conf.dom q.dom).addrs rep (min rep.length maxAddrs)) {rand : Nat}
    (hrun : w.run rand = some w') : w₀.Handed q rep cs r w' := by
  have hws : ws (some q.dom) = [] := by
    rw [h.waiters, List.drop_length]
  unfold World.run at hrun
  rw [h.stack] at hrun
  dsimp only [List.nil_append] at hrun
  rw [hx, if_neg (Nat.lt_irrefl _)] at hrun
  cases hrun
  refine h.drained rfl rfl (fun d hd => ?_) (fun q' rep' i' h' => ?_) hws fun _ => ⟨hx, haddrs⟩
  · cases hd
    exact hws
  · cases h'
    exact Nat.le_of_eq hx

/-- Behind the first address nobody waits any more. -/
theorem Draining.run_fill {i p : Nat} (h : Draining w₀ q rep cs r [] (.wait q rep i p none)
      cs.length w ws ds) (hfresh : w.fresh = none) {rand : Nat} (hrun : w.run rand = some w') :
    Draining w₀ q rep cs r [] (.store q rep (i + 1)) cs.length w' ws ds ∧ w'.conf = w.conf := by
  have hws : ws (some q.dom) = [] := by
    rw [h.waiters, List.drop_length]
  have hctx : (w.conf.dom q.dom).ctx = (ws (some q.dom)).head? :=
    h.sound.shape.table.ctxs.chains.head_eq (some q.dom)
  rw [hws] at hctx
  have hpop : popCtx w.conf q.dom = none := by
    unfold popCtx
    rw [hctx]
    rfl
  unfold World.run at hrun
  rw [h.stack] at hrun
  dsimp only [List.nil_append] at hrun
  rw [hpop] at hrun
  cases hrun
  have halike : Frame.Alike (.wait q rep i p none) (.store q rep (i + 1)) :=
    ⟨rfl, rfl, rfl, rfl, rfl⟩
  have hsound := (Move.turned (R := Rules.free) h.stack rfl rfl halike hfresh
    fun q' rep' i h => by cases h; exact hws).sound h.sound
  exact ⟨h.turned hsound rfl rfl rfl rfl rfl rfl, rfl⟩

/-- A handler that is called for the answer returns. -/
theorem Draining.ret (h : Draining w₀ q rep cs r [] f k w ws ds) (hfresh : w.fresh = none) {c : Nat}
    (hcalls : f.calls = some c) (hcalls' : f'.calls = none)
    (halike : f.Alike f') (hloop : ∀ q rep i, f' ≠ .store q rep i) :
    Draining w₀ q rep cs r [] f' k { w with conf := putCtx w.conf c, stack := f' :: w₀.stack }
      (Function.update ws none (c :: ws none)) ds := by
  have hsound := (Move.giveBack (R := Rules.free) h.stack hcalls hcalls' halike hfresh hloop).sound
    h.sound
  exact h.turned hsound rfl rfl rfl (Function.update_of_ne (by simp) _ _) rfl rfl

/-- **Turns.**  A turn of the call brings it nearer to its return. -/
theorem World.Hands.turn {t : Nat} (h : w₀.Hands q rep cs r [] f t w)
    {l : Label η δ} (hl : (∃ rand, l = .run rand) ∨ l = .ret) (hstep : w.step pton l = some w') :
    (∃ r' f' t', w₀.Hands q rep cs r' [] f' t' w' ∧ t = t' + 1 ∧ f' ≠ .store q rep 0 ∧
      (f = .store q rep 0 → l = .run r') ∧ (f ≠ .store q rep 0 → r' = r)) ∨
    w₀.Handed q rep cs r w' ∧ t = 1 ∧ f ≠ .store q rep 0 := by
  obtain ⟨k, ws, ds, h, ht⟩ := h
  -- what was asked for last is forgotten
  have h0 : Draining w₀ q rep cs r [] f k { w with fresh := none } ws ds :=
    ⟨(Move.fresh (R := Rules.free)).sound h.sound, h.fault, h.hash, h.stack, h.beside, h.waiters,
      h.owner, h.called⟩
  have hstack : w.stack = f :: w₀.stack := h.stack
  unfold World.step at hstep
  dsimp only at hstep
  rw [if_neg (not_not.mpr h.fault)] at hstep
  cases ht with
  | fail hrep =>
    rcases hl with ⟨rand, rfl⟩ | rfl
    · rcases h0.run_fail hrep hstep with ⟨c, h', hk⟩ | ⟨h', hk⟩
      · exact .inl ⟨r, _, _, h', rfl, by simp, fun h => (by cases h), fun _ => rfl⟩
      · exact .inr ⟨h', by omega, by simp⟩
    · simp [World.ret, hstack] at hstep
  | failed hrep =>
    rcases hl with ⟨rand, rfl⟩ | rfl
    · simp [World.run, hstack] at hstep
    · simp only [World.ret, hstack, Option.some.injEq] at hstep
      subst hstep
      have h' := h0.ret rfl rfl (show Frame.calls (.fail q none) = none from rfl)
        ⟨rfl, rfl, rfl, rfl, rfl⟩ fun q rep i h => by cases h
      exact .inl ⟨r, _, _, ⟨k, _, ds, h', .fail hrep⟩, rfl, by simp, fun h => (by cases h),
        fun _ => rfl⟩
  | start hrep hx haddrs =>
    rcases hl with ⟨rand, rfl⟩ | rfl
    · have hpos : 0 < min rep.length maxAddrs := by
        have := List.length_pos_iff.mpr hrep
        unfold maxAddrs
        omega
      obtain ⟨h', hx', haddrs'⟩ := h0.run_store rfl rfl hpos hx haddrs hstep
      have hr : rand % min rep.length maxAddrs = (rand + 0) % min rep.length maxAddrs := rfl
      rw [hr] at h'
      refine .inl ⟨rand, _, _, ⟨0, ws, ds, ?_, .wait hrep hx' haddrs'⟩, ?_, by simp, fun _ => rfl,
        fun h => absurd rfl h⟩
      · exact ⟨h'.sound, h'.fault, h'.hash, h'.stack, h'.beside, h'.waiters, h'.owner, h'.called⟩
      · omega
    · simp [World.ret, hstack] at hstep
  | wait hrep hx haddrs =>
    rcases hl with ⟨rand, rfl⟩ | rfl
    · obtain ⟨f', hf', h'⟩ := h0.run_wait rfl rfl hrep hx haddrs hstep
      have hpos := List.length_pos_iff.mpr hrep
      refine .inl ⟨r, f', _, h', ?_, hf', fun h => (by cases h), fun _ => rfl⟩
      unfold maxAddrs
      omega
    · simp [World.ret, hstack] at hstep
  | @call k c _ hrep hx haddrs =>
    rcases hl with ⟨rand, rfl⟩ | rfl
    · simp [World.run, hstack] at hstep
    · have hpos := List.length_pos_iff.mpr hrep
      have hn : min rep.length maxAddrs ≠ 0 := by
        unfold maxAddrs
        omega
      simp only [World.ret, hstack, hx, if_neg hn, Option.some.injEq] at hstep
      subst hstep
      have hnext : ((r + k) % min rep.length maxAddrs + 1) % min rep.length maxAddrs =
          (r + (k + 1)) % min rep.length maxAddrs := by
        rw [Nat.mod_add_mod, Nat.add_assoc]
      rw [hnext]
      have h' := h0.ret rfl rfl
        (show Frame.calls (.wait q rep 0 ((r + (k + 1)) % min rep.length maxAddrs) none) = none
          from rfl)
        ⟨rfl, rfl, rfl, rfl, rfl⟩ fun q rep i h => by cases h
      exact .inl ⟨r, _, _, ⟨k + 1, _, ds, h', .wait hrep hx haddrs⟩, rfl, by simp,
        fun h => (by cases h), fun _ => rfl⟩
  | @store i _ hi hin hx haddrs =>
    have hne : Frame.store q rep i ≠ .store q rep 0 := by
      simp only [ne_eq, Frame.store.injEq, true_and]
      omega
    rcases hl with ⟨rand, rfl⟩ | rfl
    · by_cases hlt : i < min rep.length maxAddrs
      · obtain ⟨h', hx', haddrs'⟩ := h0.run_store rfl rfl hlt hx haddrs hstep
        exact .inl ⟨r, _, _, ⟨cs.length, ws, ds, h', .fill hi hlt hx' haddrs'⟩, rfl, by simp,
          fun h => absurd h hne, fun _ => rfl⟩
      · obtain rfl : i = min rep.length maxAddrs := by omega
        exact .inr ⟨h0.run_end hx haddrs hstep, by omega, hne⟩
    · simp [World.ret, hstack] at hstep
  | @fill i p _ hi hin hx haddrs =>
    rcases hl with ⟨rand, rfl⟩ | rfl
    · obtain ⟨h', hconf⟩ := h0.run_fill rfl hstep
      have ht : 2 * (min rep.length maxAddrs - i) =
          2 * (min rep.length maxAddrs - (i + 1)) + 1 + 1 := by omega
      have hx' : (w'.conf.dom q.dom).naddrs = min rep.length maxAddrs := by
        rw [hconf]
        exact hx
      have haddrs' : (w'.conf.dom q.dom).addrs =
          storeFirst (w₀.conf.dom q.dom).addrs rep (i + 1) := by
        rw [hconf]
        exact haddrs
      exact .inl ⟨r, _, _, ⟨cs.length, ws, ds, h', .store (Nat.succ_pos i) hin hx' haddrs'⟩, ht,
        by simp, fun h => (by cases h), fun _ => rfl⟩
    · simp [World.ret, hstack] at hstep

/-- The next turn of the call is possible, whatever `ngx_random()` gives. -/
theorem World.Hands.goes {t : Nat} (h : w₀.Hands q rep cs r [] f t w) (pton : List UInt8 → Nat)
    (rand : Nat) : (w.step pton (if w.user then .ret else .run rand)).isSome := by
  obtain ⟨k, ws, ds, h, ht⟩ := h
  have hstack : w.stack = f :: w₀.stack := h.stack
  unfold World.step
  dsimp only
  rw [if_neg (not_not.mpr h.fault)]
  cases ht with
  | fail hrep =>
    simp only [World.user, hstack, Bool.false_eq_true, if_false, World.run]
    split <;> rfl
  | failed hrep => simp [World.user, hstack, World.ret]
  | start hrep hx haddrs =>
    simp only [World.user, hstack, Bool.false_eq_true, if_false, World.run]
    split
    · split <;> rfl
    · rfl
  | wait hrep hx haddrs =>
    simp only [World.user, hstack, Bool.false_eq_true, if_false, World.run]
    split <;> rfl
  | call hrep hx haddrs =>
    simp only [World.user, hstack, if_true, World.ret]
    split <;> rfl
  | store hi hin hx haddrs =>
    simp only [World.user, hstack, Bool.false_eq_true, if_false, World.run]
    split
    · split <;> rfl
    · rfl
  | fill hi hin hx haddrs =>
    simp only [World.user, hstack, Bool.false_eq_true, if_false, World.run]
    split <;> rfl

end

/-! ## Runs of the call -/

/-- The turns that the function above `n` others takes in a run. -/
def turns (pton : List UInt8 → Nat) (n : Nat) : World η δ → List (Label η δ) → Nat
  | _, [] => 0
  | w, l :: is =>
    (if w.stack.length = n + 1 ∧ l.isTurn = true then 1 else 0) +
      ((w.step pton l).map fun w' => turns pton n w' is).getD 0

/-- The steps of a call of `ngx_dynamic_resolver_on_result`, from `w₀` on, whose
handlers spare the record. -/
def Within (pton : List UInt8 → Nat) (w₀ : World η δ) (q : Query) (rep : List Addr)
    (w : World η δ) (l : Label η δ) : Prop :=
  w₀.stack.length < w.stack.length ∧ Spares pton q.dom (rep ≠ []) w l

section
variable {w₀ w w' : World η δ} {q : Query} {rep : List Addr} {cs : List Nat} {r t : Nat}
  {above : List Frame} {f : Frame} {pton : List UInt8 → Nat}

/-- In the part of a run that ends in `w` the call, then in the function `f`, takes `n` of
the `t` turns that it has left, and it goes on or has returned. -/
def World.Rest (w₀ : World η δ) (q : Query) (rep : List Addr) (cs : List Nat) (r : Nat) (f : Frame)
    (t n : Nat) (w : World η δ) : Prop :=
  ∃ r', (f ≠ .store q rep 0 → r' = r) ∧
    ((∃ above' f' t', w₀.Hands q rep cs r' above' f' t' w ∧ t = t' + n ∧
      (f ≠ .store q rep 0 → f' ≠ .store q rep 0)) ∨
    w₀.Handed q rep cs r' w ∧ t = n)

/-- **Steps.**  A step within the call is a turn of it, or leaves it where it is. -/
theorem World.Hands.step (h : w₀.Hands q rep cs r above f t w) {l : Label η δ}
    (hl : Within pton w₀ q rep w l) (hstep : w.step pton l = some w') :
    w₀.Rest q rep cs r f t
      (if w.stack.length = w₀.stack.length + 1 ∧ l.isTurn = true then 1 else 0) w' := by
  obtain ⟨k, ws, ds, h, ht⟩ := h
  have hlen : w.stack.length = above.length + 1 + w₀.stack.length := by
    rw [h.stack, List.length_append, List.length_cons]
    omega
  have hover : Over q.dom (f :: w₀.stack) w ws := ⟨above, h.stack, h.beside⟩
  have hhash : w'.conf.hashFault = none :=
    (hashFault_congr (World.step_settings hstep)).trans h.hash
  -- the call stays where it is
  have hstays : (¬ (w.stack.length = w₀.stack.length + 1 ∧ l.isTurn = true)) →
      (∃ ws' ds', Sound w' ws' ds' ∧ Leaves q.dom (rep ≠ []) (f :: w₀.stack) w ws w' ws') →
      w₀.Rest q rep cs r f t
        (if w.stack.length = w₀.stack.length + 1 ∧ l.isTurn = true then 1 else 0) w' := by
    rintro hno ⟨ws', ds', hsound, hleaves⟩
    obtain ⟨above', h'⟩ := h.leaves hleaves hsound hhash
    rw [if_neg hno]
    exact ⟨r, fun _ => rfl, .inl ⟨above', f, t, ⟨k, ws', ds', h', ht.congr hleaves.record⟩, rfl,
      fun hf => hf⟩⟩
  by_cases hturn : (∃ rand, l = .run rand) ∨ l = .ret
  · have histurn : l.isTurn = true := by
      rcases hturn with ⟨rand, rfl⟩ | rfl <;> rfl
    cases above with
    | nil =>
      have hone : w.stack.length = w₀.stack.length + 1 ∧ l.isTurn = true := by
        refine ⟨?_, histurn⟩
        rw [hlen, List.length_nil]
        omega
      rw [if_pos hone]
      rcases World.Hands.turn ⟨k, ws, ds, h, ht⟩ hturn hstep with
        ⟨r', f', t', h', ht', hf', -, hr⟩ | ⟨h', ht', -⟩
      · exact ⟨r', hr, .inl ⟨[], f', t', h', ht', fun _ => hf'⟩⟩
      · exact ⟨r, fun _ => rfl, .inr ⟨h', ht'⟩⟩
    | cons g above =>
      refine hstays (fun hno => ?_) ?_
      · rw [List.length_cons] at hlen
        omega
      · exact World.beside_leaves h.sound h.stack (h.beside g List.mem_cons_self)
          (fun f hf => h.beside f (List.mem_cons_of_mem _ hf)) hturn hstep
  · rw [not_or, not_exists] at hturn
    refine hstays (fun hno => ?_) ?_
    · cases l with
      | run rand => exact hturn.1 rand rfl
      | ret => exact hturn.2 rfl
      | _ => cases hno.2
    · exact World.call_leaves h.sound (by simp) hover h.hash hl.2 hturn.1 hturn.2 hstep

/-- **Runs.**  A run within the call uses up its turns. -/
theorem World.Hands.run {M : Machine (World η δ) (Label η δ)} (hM : M.step = World.step pton)
    {is : List (Label η δ)} (h : w₀.Hands q rep cs r above f t w)
    (hok : M.Meets (Within pton w₀ q rep) w is) (hrun : M.run w is = some w') :
    w₀.Rest q rep cs r f t (turns pton w₀.stack.length w is) w' := by
  induction is generalizing r above f t w with
  | nil =>
    simp only [Machine.run, Option.some.injEq] at hrun
    subst hrun
    exact ⟨r, fun _ => rfl, .inl ⟨above, f, t, h, rfl, fun hf => hf⟩⟩
  | cons l is ih =>
    simp only [Machine.run, Option.bind_eq_some_iff] at hrun
    obtain ⟨w1, h1, hrun⟩ := hrun
    have hok1 := hok.2 w1 h1
    rw [hM] at h1
    have hturns : turns pton w₀.stack.length w (l :: is) =
        (if w.stack.length = w₀.stack.length + 1 ∧ l.isTurn = true then 1 else 0) +
          turns pton w₀.stack.length w1 is := by
      rw [turns, h1]
      rfl
    rw [hturns]
    obtain ⟨r1, hr1, ⟨above1, f1, t1, h', ht1, hf1⟩ | ⟨h', ht1⟩⟩ := h.step hok.1 h1
    · obtain ⟨r', hr', hcase⟩ := ih h' hok1 hrun
      refine ⟨r', fun hf => (hr' (hf1 hf)).trans (hr1 hf), ?_⟩
      rcases hcase with ⟨above', f', t', h'', ht', hf'⟩ | ⟨h'', ht'⟩
      · exact .inl ⟨above', f', t', h'', by omega, fun hf => hf' (hf1 hf)⟩
      · exact .inr ⟨h'', by omega⟩
    · -- the call has returned: the run is over
      refine ⟨r1, hr1, .inr ?_⟩
      cases is with
      | nil =>
        simp only [Machine.run, Option.some.injEq] at hrun
        subst hrun
        exact ⟨h', by rw [ht1]; rfl⟩
      | cons l' is =>
        obtain ⟨ws, ds, hd⟩ := h'
        have hlt := hok1.1.1
        rw [hd.stack] at hlt
        exact absurd hlt (Nat.lt_irrefl _)

/-- A turn is within the call. -/
theorem within_turn {st : List Frame} (hstack : w.stack = st ++ f :: w₀.stack) {l : Label η δ}
    (hl : (∃ rand, l = .run rand) ∨ l = .ret) : Within pton w₀ q rep w l := by
  refine ⟨?_, ?_⟩
  · rw [hstack, List.length_append, List.length_cons]
    omega
  · rcases hl with ⟨rand, rfl⟩ | rfl <;> trivial

/-- If the handlers just return, so does the call. -/
theorem World.Hands.finish {M : Machine (World η δ) (Label η δ)} (hM : M.step = World.step pton)
    (h : w₀.Hands q rep cs r [] f t w) (hf : f ≠ .store q rep 0) :
    ∃ is w', M.Meets (Within pton w₀ q rep) w is ∧ M.run w is = some w' ∧
      w₀.Handed q rep cs r w' := by
  induction t generalizing f w with
  | zero =>
    obtain ⟨w1, h1⟩ := Option.isSome_iff_exists.mp (h.goes pton 0)
    rcases h.turn (by cases w.user <;> simp) h1 with ⟨r', f', t', -, ht, -⟩ | ⟨-, ht, -⟩ <;> omega
  | succ t ih =>
    obtain ⟨w1, h1⟩ := Option.isSome_iff_exists.mp (h.goes pton 0)
    have hl : (∃ rand, (if w.user then .ret else .run 0 : Label η δ) = .run rand) ∨
        (if w.user then .ret else .run 0 : Label η δ) = .ret := by cases w.user <;> simp
    have hstep := h1
    rw [← hM] at hstep
    obtain ⟨k, ws, ds, hd, -⟩ := id h
    have hin : Within pton w₀ q rep w _ := within_turn hd.stack hl
    rcases h.turn hl h1 with ⟨r', f', t', h', ht, hf', -, hr⟩ | ⟨h', ht, -⟩
    · obtain rfl := hr hf
      obtain rfl : t = t' := by omega
      obtain ⟨is, w', hok, hrun, hdone⟩ := ih h' hf'
      refine ⟨_ :: is, w', .cons hin hstep hok, ?_, hdone⟩
      rw [Machine.run, hstep]
      exact hrun
    · refine ⟨[_], w1, .cons hin hstep trivial, ?_, h'⟩
      rw [Machine.run, hstep]
      rfl

/-- **Arrival.**  An answer finds the waiters of its record. -/
theorem Sound.arrive {ws ds : Option Nat → List Nat} (hw : Sound w ws ds)
    (hhash : w.conf.hashFault = none) (hstep : w.step pton (.reply q rep) = some w') (r : Nat) :
    w.Hands q rep (ws (some q.dom)) r [] (if rep = [] then .fail q none else .store q rep 0)
      (2 * (ws (some q.dom)).length + 2 * min rep.length maxAddrs + 1) w' := by
  have hhash' : w'.conf.hashFault = none :=
    (hashFault_congr (World.step_settings hstep)).trans hhash
  obtain ⟨hfault, hsteps⟩ := World.steps_of_step hstep
  cases hsteps with | reply hq hwhen => ?_
  have hmove : Move Rules.free w ws ds ((World.answer { w with
      fresh := none, queries := w.queries.erase q } q rep).onResult q rep) ws ds :=
    .reply hq hwhen trivial trivial
  have hsound := hmove.sound hw
  obtain ⟨live, heq⟩ :=
    World.answer_eq { w with fresh := none, queries := w.queries.erase q } q rep
  rw [heq] at hsound hhash' ⊢
  obtain ⟨f, n, -, -, -, hres, hcase⟩ := World.onResult_eq
    { w with fresh := none, queries := w.queries.erase q, live } q rep
  rw [hres] at hsound hhash' ⊢
  have hdrain : ∀ f', f' = f → Draining w q rep (ws (some q.dom)) r [] f' 0 _ ws ds :=
    fun f' hf' => ⟨hsound, hfault, hhash', hf' ▸ rfl, fun g hg => (by cases hg), rfl,
      fun _ _ => rfl, [], rfl, rfl⟩
  rcases hcase with ⟨hrep, hf, -⟩ | ⟨hrep, hf, hn⟩
  · rw [if_pos hrep]
    refine ⟨0, ws, ds, hdrain _ hf.symm, ?_⟩
    rw [hrep]
    exact .fail rfl
  · rw [if_neg hrep]
    refine ⟨0, ws, ds, hdrain _ hf.symm, .start hrep ?_ ?_⟩
    · show Domain.naddrs (Conf.dom (Conf.setDom _ _ _) q.dom) = _
      rw [Conf.setDom_self]
      exact hn
    · show Domain.addrs (Conf.dom (Conf.setDom _ _ _) q.dom) = _
      rw [Conf.setDom_self]

/-! ## Completion -/

/-- The worker `w` in a run from a call of `ngx_dynamic_resolver_on_result` on,
which came to `w₀` and found the waiters `cs`; `used` are its turns so far. -/
structure Completes (pton : List UInt8 → Nat) (w₀ : World η δ) (q : Query) (rep : List Addr)
    (cs : List Nat) (used : Nat) (w : World η δ) : Prop where
  /-- the waiters of `cs` are completed one after the other, and nobody else -/
  order : ∃ l, w.called = l ++ w₀.called ∧ (answers q l).map (·.1) <+: cs.map w₀.owner
  /-- the call goes on unless a handler runs, with so many turns at most -/
  goes : w.fault = none ∧ (w.stack.length = w₀.stack.length + 1 →
    ∀ rand, (w.step pton (if w.user then .ret else .run rand)).isSome)
  bound : used ≤ 2 * cs.length + 2 * min rep.length maxAddrs + 1
  /-- when it has returned, all of them are completed -/
  returned : w.stack.length ≤ w₀.stack.length → w.stack = w₀.stack ∧
    (w.conf.dom q.dom).ctx = none ∧
    ∃ l, w.called = l ++ w₀.called ∧ (answers q l).map (·.1) = cs.map w₀.owner

theorem handOuts_start (w : World η δ) (q : Query) (rep : List Addr) (cs : List Nat) (r : Nat) :
    (handOuts w q rep cs r).map (·.1) = cs.map w.owner := by
  unfold handOuts
  apply List.ext_getElem?
  intro j
  rw [List.getElem?_map, List.getElem?_mapIdx, List.getElem?_map, Option.map_map]
  rfl

theorem World.Handed.completes (h : w₀.Handed q rep cs r w) (pton : List UInt8 → Nat) {used : Nat}
    (hused : used ≤ 2 * cs.length + 2 * min rep.length maxAddrs + 1) :
    Completes pton w₀ q rep cs used w := by
  obtain ⟨ws, ds, h⟩ := h
  obtain ⟨l, hl, hans⟩ := h.called
  have hall : (answers q l).map (·.1) = cs.map w₀.owner := by
    rw [hans, handOuts_start]
  have hctx : (w.conf.dom q.dom).ctx = (ws (some q.dom)).head? :=
    h.sound.shape.table.ctxs.chains.head_eq (some q.dom)
  refine ⟨⟨l, hl, hall ▸ List.prefix_refl _⟩, ⟨h.fault, fun hlen => ?_⟩, hused,
    fun _ => ⟨h.stack, ?_, l, hl, hall⟩⟩
  · rw [h.stack] at hlen
    omega
  · rw [hctx, h.waiters]
    rfl

theorem World.Hands.completes (h : w₀.Hands q rep cs r above f t w) (pton : List UInt8 → Nat)
    {used : Nat} (hused : used ≤ 2 * cs.length + 2 * min rep.length maxAddrs + 1) :
    Completes pton w₀ q rep cs used w := by
  obtain ⟨k, ws, ds, hd, ht⟩ := id h
  obtain ⟨l, hl, hans⟩ := hd.called
  have hlen : w.stack.length = above.length + 1 + w₀.stack.length := by
    rw [hd.stack, List.length_append, List.length_cons]
    omega
  refine ⟨⟨l, hl, ?_⟩, ⟨hd.fault, fun hone rand => ?_⟩, hused, fun hle => ?_⟩
  · rw [hans, ← handOuts_start w₀ q rep cs r]
    exact (List.take_prefix k _).map _
  · have hnil : above = [] := List.length_eq_zero_iff.mp (by omega)
    subst hnil
    exact h.goes pton rand
  · omega

end

section
variable {pton : List UInt8 → Nat} {refreshInterval domainBuckets : Nat} {hashed : Bool}

/-- **Completion.**  If the handlers spare the record, every call of
`ngx_dynamic_resolver_on_result` completes the waiters that it found, and nobody
else, and ends. -/
theorem onResult_completes {w w₁ : World η δ}
    (hw : (machine pton refreshInterval domainBuckets hashed).Reach w) {q : Query} {rep : List Addr}
    (hstep : w.step pton (.reply q rep) = some w₁) :
    ∃ cs, Linked w.conf.ctxNext (w.conf.dom q.dom).ctx cs ∧ ∀ is w',
      (machine pton refreshInterval domainBuckets hashed).Meets (Within pton w q rep) w₁ is →
      (machine pton refreshInterval domainBuckets hashed).run w₁ is = some w' →
      Completes pton w q rep cs (turns pton w.stack.length w₁ is) w' := by
  obtain ⟨ws, ds, hs⟩ := reach_sound hw
  have hhash : w.conf.hashFault = none := by
    refine (reach_hashFault hw).resolve_right fun hidle => ?_
    cases (World.steps_of_step hstep).2 with
    | reply hq =>
      rw [hidle.queries] at hq
      cases hq
  refine ⟨ws (some q.dom), hs.shape.table.ctxs.chains.linked (some q.dom), fun is w' hok hrun => ?_⟩
  obtain ⟨r, -, ⟨above, f, t, h, ht, -⟩ | ⟨h, ht⟩⟩ :=
    (hs.arrive hhash hstep 0).run rfl hok hrun
  · exact h.completes pton (by omega)
  · exact h.completes pton (by omega)

/-- A failure of a name with two waiters; the handler of the first one starts another name. -/
theorem onResult_completes_two : ∃ (w w₁ w' : World Unit Unit) (cs : List Nat),
    (machine (fun _ => 0) 60 2 true).Reach w ∧
      w.step (fun _ => 0) (.reply ⟨0, [97], some 0⟩ []) = some w₁ ∧
      w'.called.map (·.start) = [0, 1] ∧ w'.started.length = 3 ∧ w'.stack = [] ∧
      Completes (fun _ => 0) w ⟨0, [97], some 0⟩ [] cs 5 w' := by
  have hr := (machine (η := Unit) (δ := Unit) (fun _ => 0) 60 2 true).reach_run
    [.start (some [97]) () () true true 0, .start (some [97]) () () true true 0] rfl
  obtain ⟨cs, -, hall⟩ := onResult_completes hr
    (show World.step (fun _ => 0) _ (.reply ⟨0, [97], some 0⟩ []) = some _ from rfl)
  refine ⟨_, _, _, cs, hr, rfl, ?_, ?_, ?_,
    hall [.run 0, .start (some [98]) () () true true 0, .ret, .run 0, .ret, .run 0] _ ?_ rfl⟩
  · rfl
  · rfl
  · rfl
  · refine .cons ⟨Nat.one_pos, trivial⟩ rfl (.cons ⟨Nat.one_pos, ?_⟩ rfl
      (.cons ⟨Nat.one_pos, trivial⟩ rfl (.cons ⟨Nat.one_pos, trivial⟩ rfl
        (.cons ⟨Nat.one_pos, trivial⟩ rfl (.cons ⟨Nat.one_pos, trivial⟩ rfl trivial)))))
    -- the bucket of the other name is empty, and its record is a new one
    refine ⟨.inr (.inr ⟨[98], rfl, by decide, fun _ _ _ => ⟨rfl, fun d hd => ?_⟩⟩),
      fun htakes => ?_, fun hfinds => ?_⟩
    · cases hd
    · obtain ⟨text, -, -, -, -, -, -, hd⟩ := htakes
      cases hd
    · obtain ⟨text, htext, -, -, -, -, hd⟩ := hfinds
      cases htext
      cases hd

/-- A handler that starts the same name again when it gets a failure: the new
call is completed by the answer to the old one. -/
theorem retry_completed :
    ¬ ∀ (w w₁ w' : World Unit Unit) (q : Query) (rep : List Addr) (cs : List Nat)
        (is : List (Label Unit Unit)),
      (machine (fun _ => 0) 60 1 true).Reach w → w.step (fun _ => 0) (.reply q rep) = some w₁ →
      Linked w.conf.ctxNext (w.conf.dom q.dom).ctx cs →
      (machine (fun _ => 0) 60 1 true).Meets (fun v l => w.stack.length < v.stack.length ∧
        ∀ q rep, l ≠ .reply q rep) w₁ is →
      (machine (fun _ => 0) 60 1 true).run w₁ is = some w' →
      Completes (fun _ => 0) w q rep cs (turns (fun _ => 0) w.stack.length w₁ is) w' := by
  intro hall
  have hr := (machine (η := Unit) (δ := Unit) (fun _ => 0) 60 1 true).reach_run
    [.start (some [97]) () () true true 0] rfl
  have h := hall _ _ _ ⟨0, [97], some 0⟩ [] [0]
    [.run 0, .start (some [97]) () () true true 0, .ret, .run 0] hr rfl
    ((linked_cons _ _ _ _).mpr ⟨rfl, (linked_nil _ _).mpr rfl⟩)
    (.cons ⟨Nat.one_pos, by simp⟩ rfl (.cons ⟨Nat.one_pos, by simp⟩ rfl
      (.cons ⟨Nat.one_pos, by simp⟩ rfl (.cons ⟨Nat.one_pos, by simp⟩ rfl trivial)))) rfl
  obtain ⟨l, hl, hle⟩ := h.order
  have hlen := hle.length_le
  rw [← hl.trans (List.append_nil l)] at hlen
  exact absurd hlen (by decide)

end

end NgxToolkit.DynamicResolver
