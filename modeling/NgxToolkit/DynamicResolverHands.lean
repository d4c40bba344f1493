import Mathlib.Tactic.Common
import NgxToolkit.DynamicResolverDrainRuns

/-! Which addresses `ngx_dynamic_resolver_on_result` hands to the waiters.

All waiters are called in the first turn of the loop over `i`, with the slots
from a random one on, but only slot 0 has been written then: the others hold
what earlier answers left in them (`onResult_hands`). -/

namespace NgxToolkit.DynamicResolver

open Lib

variable {η δ : Type}

/-! ## Slots -/

section
variable {old : Nat → Slot} {rep : List Addr}

/-- The first turn writes no slot but the first, if the address fits. -/
theorem storeFirst_one (hrep : ∀ a ∈ rep, a.sockaddr.length = 16) {n : Nat} (hn : n ≠ 0) :
    storeFirst old rep 1 n = old n := by
  cases ha : rep[0]? with
  | none => simp [storeFirst, ha]
  | some a =>
    have hlen := hrep a (List.mem_of_getElem? ha)
    rw [storeFirst_succ old ha]
    unfold storeAddr storeFirst
    rw [Function.update_of_ne hn, List.drop_eq_nil_of_le (by omega)]
    by_cases h1 : n = 1
    · subst h1
      rw [Function.update_self]
      rfl
    · rw [Function.update_of_ne h1]

/-- Behind turn `i` the first `i` addresses are stored. -/
theorem storeFirst_of_lt (old : Nat → Slot) (hrep : ∀ a ∈ rep, a.sockaddr.length = 16) {i j : Nat}
    (hj : j < i)
    (hi : i ≤ rep.length) : ∃ a, rep[j]? = some a ∧ storeFirst old rep i j = a.slot := by
  induction i with
  | zero => omega
  | succ i ih =>
    have hlt : i < rep.length := by omega
    have ha : rep[i]? = some rep[i] := List.getElem?_eq_getElem hlt
    rw [storeFirst_succ old ha]
    by_cases hji : j = i
    · subst hji
      exact ⟨_, ha, storeAddr_self _ _ (hrep _ (List.mem_of_getElem? ha))⟩
    · obtain ⟨a, ha', hs⟩ := ih (by omega) (by omega)
      exact ⟨a, ha', by rw [storeAddr_of_lt _ _ (by omega), hs]⟩

/-- The slot holds one of the addresses that are stored of `rep`, with its length. -/
def Slot.Holds (s : Slot) (rep : List Addr) : Prop :=
  0 < s.socklen ∧ ∃ a ∈ rep.take maxAddrs, s.sockaddr = a.sockaddr ∧ s.socklen = a.sockaddr.length

theorem Addr.slot_holds {a : Addr} (ha : a ∈ rep.take maxAddrs) : a.slot.Holds rep := by
  refine ⟨?_, a, ha, rfl, rfl⟩
  show 0 < a.sockaddr.length
  rcases a.socklen_eq with h | h <;> omega

/-- A slot that is handed out in the first turn is the first one or an old one. -/
theorem storeFirst_one_holds (hrep : ∀ a ∈ rep, a.sockaddr.length = 16) (hne : rep ≠ []) (n : Nat) :
    (storeFirst old rep 1 n).Holds rep ↔ n = 0 ∨ (old n).Holds rep := by
  by_cases hn : n = 0
  · subst hn
    obtain ⟨a, ha, hs⟩ := storeFirst_of_lt old hrep Nat.one_pos (List.length_pos_iff.mpr hne)
    rw [hs]
    refine ⟨fun _ => .inl rfl, fun _ => Addr.slot_holds ?_⟩
    have htake : (rep.take maxAddrs)[0]? = some a := by
      rw [List.getElem?_take_of_lt (by decide), ha]
    exact List.mem_of_getElem? htake
  · rw [storeFirst_one hrep hn, or_iff_right hn]

end

/-! ## Waiters -/

/-- A call of `ngx_dynamic_resolver_on_result` that came to `w₀` and found the
waiters `cs` has completed each of them with one of the addresses that are
stored of `rep`, and the record of `q` stores exactly these. -/
structure HandsOut (w₀ : World η δ) (q : Query) (rep : List Addr) (cs : List Nat) (w : World η δ) :
    Prop where
  waiters : ∃ l, w.called = l ++ w₀.called ∧ (answers q l).map (·.1) = cs.map w₀.owner ∧
    ∀ x ∈ answers q l, ∃ s : Slot, x.2 = .addr s ∧ s.Holds rep
  stored : (w.conf.dom q.dom).Stored rep (min rep.length maxAddrs)

section
variable {w₀ w w' w₁ : World η δ} {ws ds : Option Nat → List Nat} {q : Query} {rep : List Addr}
  {cs : List Nat} {r : Nat} {pton : List UInt8 → Nat} {refreshInterval domainBuckets : Nat}
  {hashed : Bool}

theorem mem_handOuts {x : Nat × Arg} : x ∈ handOuts w₀ q rep cs r ↔
    ∃ j c, cs[j]? = some c ∧
      (w₀.owner c, handArg (w₀.conf.dom q.dom).addrs rep (r + j)) = x := by
  unfold handOuts
  rw [List.mem_iff_getElem?]
  simp only [List.getElem?_mapIdx, Option.map_eq_some_iff]

theorem World.Handed.stored (h : w₀.Handed q rep cs r w) (hne : rep ≠ [])
    (hrep : ∀ a ∈ rep, a.sockaddr.length = 16) :
    (w.conf.dom q.dom).Stored rep (min rep.length maxAddrs) := by
  obtain ⟨ws, ds, h⟩ := h
  obtain ⟨hn, haddrs⟩ := h.record hne
  refine ⟨hn, fun j hj _ => ?_⟩
  rw [haddrs]
  exact storeFirst_of_lt _ hrep hj (Nat.min_le_left _ _)

theorem World.Handed.handsOut_iff (h : w₀.Handed q rep cs r w) (hne : rep ≠ [])
    (hrep : ∀ a ∈ rep, a.sockaddr.length = 16) : HandsOut w₀ q rep cs w ↔
      ∀ j < cs.length, (r + j) % min rep.length maxAddrs = 0 ∨
        ((w₀.conf.dom q.dom).addrs ((r + j) % min rep.length maxAddrs)).Holds rep := by
  obtain ⟨ws, ds, hd⟩ := id h
  obtain ⟨l, hl, hans⟩ := hd.called
  have harg : ∀ j, handArg (w₀.conf.dom q.dom).addrs rep (r + j) =
      .addr (storeFirst (w₀.conf.dom q.dom).addrs rep 1 ((r + j) % min rep.length maxAddrs)) :=
    fun j => if_neg hne
  constructor
  · rintro ⟨⟨l', hl', -, hall⟩, -⟩ j hj
    have hll : l' = l := List.append_cancel_right (hl'.symm.trans hl)
    subst hll
    obtain ⟨s, hs, hholds⟩ := hall _ (hans ▸ mem_handOuts.mpr
      ⟨j, cs[j], List.getElem?_eq_getElem hj, rfl⟩)
    rw [harg] at hs
    cases hs
    exact (storeFirst_one_holds hrep hne _).mp hholds
  · intro hall
    refine ⟨⟨l, hl, by rw [hans, handOuts_start], fun x hx => ?_⟩, h.stored hne hrep⟩
    rw [hans] at hx
    obtain ⟨j, c, hj, rfl⟩ := mem_handOuts.mp hx
    have hlt : j < cs.length := (List.getElem?_eq_some_iff.mp hj).1
    exact ⟨_, harg j, (storeFirst_one_holds hrep hne _).mpr (hall j hlt)⟩

/-- **Addresses.**  If the handlers spare the record, a call with good addresses
comes to its end, and it hands each waiter one of them if and only if each slot
that is used is the first one or held one of them before. -/
theorem onResult_hands (hw : Sound w ws ds) (hhash : w.conf.hashFault = none) (hne : rep ≠ [])
    (hrep : ∀ a ∈ rep, a.sockaddr.length = 16) (hstep : w.step pton (.reply q rep) = some w₁)
    (rand : Nat) :
    (∃ is w', (machine pton refreshInterval domainBuckets hashed).Meets (Within pton w q rep) w₁
        (.run rand :: is) ∧
      (machine pton refreshInterval domainBuckets hashed).run w₁ (.run rand :: is) = some w' ∧
      w'.stack = w.stack) ∧
    ∀ is w', (machine pton refreshInterval domainBuckets hashed).Meets (Within pton w q rep) w₁
        (.run rand :: is) →
      (machine pton refreshInterval domainBuckets hashed).run w₁ (.run rand :: is) = some w' →
      w'.stack = w.stack →
      (HandsOut w q rep (ws (some q.dom)) w' ↔
        ∀ j < (ws (some q.dom)).length, (rand + j) % min rep.length maxAddrs = 0 ∨
          ((w.conf.dom q.dom).addrs ((rand + j) % min rep.length maxAddrs)).Holds rep) := by
  have harrive := hw.arrive hhash hstep 0
  rw [if_neg hne] at harrive
  -- the first turn stores the first address and draws the first slot
  have hfirst : ∀ {w₂ : World η δ}, w₁.step pton (.run rand) = some w₂ →
      ∃ f t, w.Hands q rep (ws (some q.dom)) rand [] f t w₂ ∧ f ≠ .store q rep 0 := by
    intro w₂ h2
    rcases harrive.turn (.inl ⟨rand, rfl⟩) h2 with ⟨r, f, t, h', -, hf, hr, -⟩ | ⟨-, -, hno⟩
    · cases hr rfl
      exact ⟨f, t, h', hf⟩
    · exact absurd rfl hno
  obtain ⟨k, ws', ds', hd, -⟩ := id harrive
  have huser : w₁.user = false := by
    unfold World.user
    rw [hd.stack]
    rfl
  refine ⟨?_, fun is w' hok hrun hstack => ?_⟩
  · have hgoes := harrive.goes pton rand
    rw [huser] at hgoes
    obtain ⟨w₂, h2⟩ := Option.isSome_iff_exists.mp hgoes
    obtain ⟨f, t, h', hf⟩ := hfirst h2
    obtain ⟨is, w', hok, hrun, ws'', ds'', hdone⟩ := h'.finish
      (M := machine pton refreshInterval domainBuckets hashed) rfl hf
    refine ⟨is, w', .cons (within_turn hd.stack (.inl ⟨rand, rfl⟩)) h2 hok, ?_, hdone.stack⟩
    rw [Machine.run]
    exact Option.bind_eq_some_iff.mpr ⟨w₂, h2, hrun⟩
  · simp only [Machine.run, Option.bind_eq_some_iff] at hrun
    obtain ⟨w₂, h2, hrun⟩ := hrun
    obtain ⟨f, t, h', hf⟩ := hfirst h2
    obtain ⟨r, hr, ⟨above, f', t', h'', -⟩ | ⟨h'', -⟩⟩ := h'.run rfl (hok.2 w₂ h2) hrun
    · -- the call has not returned
      obtain ⟨k', ws'', ds'', hd', -⟩ := h''
      have hlen := congrArg List.length (hd'.stack.symm.trans hstack)
      rw [List.length_append, List.length_cons] at hlen
      omega
    · obtain rfl := hr hf
      exact h''.handsOut_iff hne hrep

end

/-- Two waiters get one address, and the handler of the first one starts the name again; one
waiter gets the first one of two addresses. -/
theorem onResult_hands_two :
    (∃ (w w' : World Unit Unit) (cs : List Nat), (machine (fun _ => 0) 60 1 true).Reach w ∧
      cs = [1, 0] ∧ w'.called.map (·.start) = [0, 2, 1] ∧
      HandsOut w ⟨0, [97], some 0⟩ [someAddr] cs w') ∧
    ∃ (w w' : World Unit Unit) (cs : List Nat), (machine (fun _ => 0) 60 1 true).Reach w ∧
      cs = [0] ∧ w'.called.map (·.start) = [0] ∧
      HandsOut w ⟨0, [97], some 0⟩ [someAddr, otherAddr] cs w' := by
  constructor
  · have hr := (machine (η := Unit) (δ := Unit) (fun _ => 0) 60 1 true).reach_run
      [.start (some [97]) () () true true 0, .start (some [97]) () () true true 0] rfl
    obtain ⟨ws, ds, hs⟩ := reach_sound hr
    have hws : ws (some 0) = [1, 0] :=
      (hs.shape.table.ctxs.chains.linked (some 0)).unique ⟨rfl, rfl, rfl⟩
    have hiff := (@onResult_hands Unit Unit _ _ ws ds ⟨0, [97], some 0⟩ [someAddr] (fun _ => 0) 60 1
      true hs rfl (by simp)
      (fun a ha => twoAddrs_length a (List.mem_cons.mpr (.inl (List.mem_singleton.mp ha)))) rfl 0).2
      [.run 0, .start (some [97]) () () true true 0, .ret, .ret, .run 0, .ret, .run 0, .run 0] _
      (by
        refine .cons ⟨Nat.one_pos, trivial⟩ rfl ?_
        refine .cons ⟨Nat.one_pos, trivial⟩ rfl ?_
        refine .cons ⟨Nat.one_pos, ?_⟩ rfl ?_
        · -- the name is found, with an address
          refine ⟨.inr (.inr ⟨[97], rfl, by decide, fun _ _ _ => ⟨rfl, fun d hd => ?_⟩⟩),
            fun htakes => ?_, fun hfinds hno => ?_⟩
          · cases hd
            rfl
          · obtain ⟨text, htext, -, -, -, -, hnone, -⟩ := htakes
            cases htext
            cases hnone
          · cases hno
        refine .cons ⟨Nat.two_pos, trivial⟩ rfl ?_
        refine .cons ⟨Nat.one_pos, trivial⟩ rfl ?_
        refine .cons ⟨Nat.one_pos, trivial⟩ rfl ?_
        refine .cons ⟨Nat.one_pos, trivial⟩ rfl ?_
        refine .cons ⟨Nat.one_pos, trivial⟩ rfl ?_
        exact .cons ⟨Nat.one_pos, trivial⟩ rfl trivial) rfl rfl
    exact ⟨_, _, _, hr, hws, rfl, hiff.mpr fun j _ => .inl (Nat.mod_one _)⟩
  · have hr := (machine (η := Unit) (δ := Unit) (fun _ => 0) 60 1 true).reach_run
      [.start (some [97]) () () true true 0] rfl
    obtain ⟨ws, ds, hs⟩ := reach_sound hr
    have hws : ws (some 0) = [0] :=
      (hs.shape.table.ctxs.chains.linked (some 0)).unique ⟨rfl, rfl⟩
    have hiff := (@onResult_hands Unit Unit _ _ ws ds ⟨0, [97], some 0⟩ [someAddr, otherAddr]
      (fun _ => 0) 60 1 true hs rfl (by simp) twoAddrs_length rfl 0).2
      [.run 0, .ret, .run 0, .run 0, .run 0, .run 0] _
      (.cons ⟨Nat.one_pos, trivial⟩ rfl (.cons ⟨Nat.one_pos, trivial⟩ rfl
        (.cons ⟨Nat.one_pos, trivial⟩ rfl (.cons ⟨Nat.one_pos, trivial⟩ rfl
          (.cons ⟨Nat.one_pos, trivial⟩ rfl (.cons ⟨Nat.one_pos, trivial⟩ rfl
            (.cons ⟨Nat.one_pos, trivial⟩ rfl trivial))))))) rfl rfl
    have hlast := hiff.mpr fun j hj => .inl <| by
      rw [show ws (some 0) = [0] from hws] at hj
      obtain rfl : j = 0 := Nat.lt_one_iff.mp hj
      rfl
    exact ⟨_, _, _, hr, hws, rfl, hlast⟩

/-- Two addresses and the random value 1: the waiter gets the empty slot 1. -/
theorem empty_slot_handed :
    ¬ ∀ (w w₁ w' : World Unit Unit) (ws ds : Option Nat → List Nat) (q : Query) (rep : List Addr)
        (is : List (Label Unit Unit)),
      Sound w ws ds → w.conf.hashFault = none → rep ≠ [] →
      (∀ a ∈ rep, a.sockaddr.length = 16) → w.step (fun _ => 0) (.reply q rep) = some w₁ →
      (machine (fun _ => 0) 60 1 true).Meets (Within (fun _ => 0) w q rep) w₁ is →
      (machine (fun _ => 0) 60 1 true).run w₁ is = some w' → w'.stack = w.stack →
      HandsOut w q rep (ws (some q.dom)) w' := by
  intro hall
  have hr := (machine (η := Unit) (δ := Unit) (fun _ => 0) 60 1 true).reach_run
    [.start (some [97]) () () true true 0] rfl
  obtain ⟨ws, ds, hs⟩ := reach_sound hr
  have hlen : ∀ a ∈ [someAddr, someAddr], a.sockaddr.length = 16 := fun a ha => by
    rw [List.mem_cons, List.mem_singleton, or_self] at ha
    rw [ha]
    rfl
  obtain ⟨l, hl, -, hholds⟩ := (hall _ _ _ ws ds ⟨0, [97], some 0⟩ [someAddr, someAddr]
    [.run 1, .run 0, .ret, .run 0, .run 0, .run 0, .run 0] hs rfl (by simp) hlen rfl
    (.cons ⟨Nat.one_pos, trivial⟩ rfl (.cons ⟨Nat.one_pos, trivial⟩ rfl
      (.cons ⟨Nat.one_pos, trivial⟩ rfl (.cons ⟨Nat.one_pos, trivial⟩ rfl
        (.cons ⟨Nat.one_pos, trivial⟩ rfl (.cons ⟨Nat.one_pos, trivial⟩ rfl
          (.cons ⟨Nat.one_pos, trivial⟩ rfl trivial))))))) rfl rfl).waiters
  rw [← hl.trans (List.append_nil l)] at hholds
  obtain ⟨s, hs, hpos, -⟩ := hholds (0, .addr zeroSlot) List.mem_cons_self
  cases hs
  exact absurd hpos (by decide)

end NgxToolkit.DynamicResolver
