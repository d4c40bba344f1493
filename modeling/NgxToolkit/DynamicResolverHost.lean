import Mathlib.Tactic.Common
import NgxToolkit.DynamicResolverAddrs
import NgxToolkit.DynamicResolverCalls
import NgxToolkit.DynamicResolverSettings

/-! What a name resolves to in a run of the dynamic resolver.

* `Current.gethostbyname`: what `ngx_dynamic_resolver_gethostbyname` returns.
* `Shape.start_resolved`: a start call for a resolved name calls back with the same.
* `reach_gethostbyname`: in every reachable state this is one of the addresses of the last good
  reply for the name since it was added. -/

namespace NgxToolkit.DynamicResolver

open Lib

variable {η δ : Type}

/-- What a worker knows of a name, by the random number `rand`: one of the first addresses of the
last good reply, or nothing. -/
def World.Known (w : World η δ) (temp : List UInt8) (rand : Nat) (arg : Arg) : Prop :=
  match w.live temp with
  | some (_, a :: as) => ∃ b, (a :: as)[rand % min (as.length + 1) maxAddrs]? = some b ∧
      arg = .addr b.slot
  | _ => arg = .null

/-- No reply is being stored. -/
def World.Settled (w : World η δ) : Prop := ∀ f ∈ w.stack, f.stored = none

section
variable {w : World η δ}

theorem World.Settled.storing (h : w.Settled) (d i : Nat) : w.storing d i = [] := by
  refine List.filterMap_eq_nil_iff.mpr fun f hf => ?_
  unfold Frame.storing
  rw [h f hf]

/-- An entry with addresses holds those of the reply. -/
theorem World.Keeps.addr {d i : Nat} {as : List Addr} (h : w.Keeps d i as) (hs : w.Settled)
    (hne : as ≠ []) (rand : Nat) :
    (w.conf.dom d).naddrs ≠ 0 ∧ ∃ b, as[rand % min as.length maxAddrs]? = some b ∧
      (w.conf.dom d).addrs (rand % (w.conf.dom d).naddrs) = b.slot := by
  have hpos := List.length_pos_of_ne_nil hne
  have hmin : 0 < min as.length maxAddrs := Nat.lt_min.mpr ⟨hpos, by decide⟩
  have hn := h.naddrs
  rcases h with ⟨-, hstored⟩ | ⟨n, hstoring, -⟩
  · refine ⟨by omega, ?_⟩
    have hlt : rand % (w.conf.dom d).naddrs < (w.conf.dom d).naddrs := Nat.mod_lt _ (by omega)
    obtain ⟨b, hb, hslot⟩ := hstored.2 _ hlt hlt
    refine ⟨b, ?_, hslot⟩
    rw [← hn]
    exact hb
  · rw [hs.storing] at hstoring
    cases hstoring

section
variable {pton : List UInt8 → Nat} {domain : List UInt8}

/-- `ngx_dynamic_resolver_gethostbyname` for a name. -/
theorem Current.gethostbyname (h : Current w) (hs : w.Settled) (hhash : w.conf.hashFault = none)
    (hpton : pton domain = 0) (hrefresh : w.conf.refreshInterval ≠ 0)
    (hlen : domain.length ≤ maxDomainLen) (rand : Nat) :
    ∃ arg, gethostbyname pton w.conf (some domain) rand = .ok arg ∧
      w.Known (strlow domain) rand arg := by
  unfold DynamicResolver.gethostbyname World.Known
  dsimp only
  rw [if_neg (not_not.mpr hpton), if_neg (not_or.mpr ⟨hrefresh, Nat.not_lt.mpr hlen⟩), hhash]
  dsimp only
  match hlive : w.live (strlow domain) with
  | none =>
    rw [h.gone _ hlive]
    exact ⟨_, rfl, rfl⟩
  | some (i, []) =>
    obtain ⟨d, hd, -, hkeeps⟩ := h.entry _ i [] hlive
    have hzero : (w.conf.dom d).naddrs = 0 := hkeeps.naddrs
    rw [hd]
    dsimp only
    rw [if_pos hzero]
    exact ⟨_, rfl, rfl⟩
  | some (i, a :: as) =>
    obtain ⟨d, hd, -, hkeeps⟩ := h.entry _ i (a :: as) hlive
    obtain ⟨hne, b, hb, hslot⟩ := hkeeps.addr hs (List.cons_ne_nil a as) rand
    rw [hd]
    dsimp only
    rw [if_neg hne, hslot]
    exact ⟨_, rfl, b, hb, rfl⟩

/-- A start call for a name with an address, if its search ends. -/
theorem Shape.start_resolved {ws ds : Option Nat → List Nat} (hw : Shape w ws ds)
    (hhash : w.conf.hashFault = none) (hne : domain ≠ []) (hpton : pton domain = 0)
    (hrefresh : w.conf.refreshInterval ≠ 0) (hlen : domain.length ≤ maxDomainLen) {rand : Nat}
    {arg : Arg} (harg : DynamicResolver.gethostbyname pton w.conf (some domain) rand = .ok arg)
    (hnull : arg ≠ .null) (hhead : HeadNamed w.conf (strlow domain)) (hd : η) (data : δ)
    (pcallocDomain pcallocCtx : Bool) :
    w.start pton (some domain) hd data pcallocDomain pcallocCtx rand = w.direct hd data arg := by
  unfold DynamicResolver.gethostbyname at harg
  dsimp only at harg
  rw [if_neg (not_not.mpr hpton), if_neg (not_or.mpr ⟨hrefresh, Nat.not_lt.mpr hlen⟩), hhash,
    hw.table.hostSearch_eq _ (Nat.le_refl _)] at harg
  dsimp only at harg
  cases hfind : (ds (some (w.conf.idx (strlow domain)))).find? (w.conf.named (strlow domain)) with
  | none =>
    rw [hfind] at harg
    exact absurd (Except.ok.inj harg).symm hnull
  | some d =>
    rw [hfind] at harg
    dsimp only at harg
    by_cases hzero : (w.conf.dom d).naddrs = 0
    · rw [if_pos hzero] at harg
      exact absurd (Except.ok.inj harg).symm hnull
    · rw [if_neg hzero] at harg
      obtain rfl := Except.ok.inj harg
      -- the search ends at the entry that the other search finds
      have hsearch : startSearch w.conf (strlow domain) w.conf.nallocDomain = some (some d) := by
        cases hr : startSearch w.conf (strlow domain) w.conf.nallocDomain with
        | none => exact absurd hhead (hw.startSearch_none hr)
        | some r =>
          have heq := hw.table.startSearch_eq hr
          rw [hfind] at heq
          rw [heq]
      unfold World.start
      split
      · next hnone => cases hnone
      · next hnil => exact absurd (Option.some.inj hnil) hne
      · next text htext hsome =>
        obtain rfl := Option.some.inj hsome
        rw [if_neg (not_not.mpr hpton), if_neg (not_or.mpr ⟨hrefresh, Nat.not_lt.mpr hlen⟩), hhash]
        dsimp only
        rw [hsearch]
        unfold World.startEntry
        exact if_neg hzero

end

end

section
variable {pton : List UInt8 → Nat} {refreshInterval domainBuckets : Nat}

/-- **What a name resolves to.**  In every state of a run with at least one bucket, whose answers
find the record of their query and have IPv4 addresses where these are stored, while no reply is
being stored, `ngx_dynamic_resolver_gethostbyname` returns for a name in the table one of the
first addresses of the last good reply since the name was added, and nothing if there was none
or the name is not in the table; and a start call for a name that is resolved calls back at once
with the same address, if its search ends. -/
theorem reach_gethostbyname {w : World η δ}
    (hw : (machine pton refreshInterval domainBuckets true).ReachIf Timely w)
    (hbuckets : 0 < domainBuckets) (hs : w.Settled) {domain : List UInt8} (hne : domain ≠ [])
    (hpton : pton domain = 0) (hrefresh : w.conf.refreshInterval ≠ 0)
    (hlen : domain.length ≤ maxDomainLen) (rand : Nat) :
    ∃ arg, gethostbyname pton w.conf (some domain) rand = .ok arg ∧
      w.Known (strlow domain) rand arg ∧
      (arg ≠ .null → HeadNamed w.conf (strlow domain) → ∀ h data pcallocDomain pcallocCtx,
        w.start pton (some domain) h data pcallocDomain pcallocCtx rand = w.direct h data arg) := by
  have hhash : w.conf.hashFault = none := by
    have hset := reach_settings hw.reach
    have hb : w.conf.domainBuckets = domainBuckets := congrArg Prod.fst hset
    have hh : w.conf.hashed = true := congrArg Prod.snd hset
    unfold Conf.hashFault
    rw [hb, hh, if_neg hbuckets.ne', if_neg (by decide)]
  obtain ⟨ws, ds, hsound, haddrs⟩ := Addrs.closed.reach addrs_start (fun w l => timely_allow) hw
  obtain ⟨arg, harg, hknown⟩ :=
    (haddrs.current hsound.shape).gethostbyname hs hhash hpton hrefresh hlen rand
  refine ⟨arg, harg, hknown, fun hnull hhead h data pcallocDomain pcallocCtx => ?_⟩
  exact hsound.shape.start_resolved hhash hne hpton hrefresh hlen harg hnull hhead h data
    pcallocDomain pcallocCtx

theorem timely_run {w : World η δ} {f : Frame} {st : List Frame} {q : Query} {rand : Nat}
    (hstack : w.stack = f :: st) (hreply : f.reply = some q) (hserves : w.Serves q) :
    Timely w (.run rand) := by
  intro f' st' q' hstack' hreply'
  obtain ⟨rfl, rfl⟩ := List.cons.inj (hstack.symm.trans hstack')
  obtain rfl := Option.some.inj (hreply.symm.trans hreply')
  exact hserves

/-- A name whose first query is answered with an address. -/
theorem reach_gethostbyname_answered : ∃ w : World Unit Unit,
    w.live [97] = some (0, [someAddr]) ∧ ∃ arg,
      gethostbyname (fun _ => 0) w.conf (some [65]) 3 = .ok arg ∧ w.Known (strlow [65]) 3 arg ∧
      (arg ≠ .null → HeadNamed w.conf (strlow [65]) → ∀ h data pcallocDomain pcallocCtx,
        w.start (fun _ => 0) (some [65]) h data pcallocDomain pcallocCtx 3 =
          w.direct h data arg) := by
  have h0 : (machine (η := Unit) (δ := Unit) (fun _ => 0) 60 1 true).ReachIf Timely _ := .start
  have h1 := h0.step (i := Label.start (some [97]) () () true true 0) trivial rfl
  have hfits : Fits [someAddr] := fun a ha => by
    rw [List.mem_singleton.mp ha]
    rfl
  have hnone : ∀ {x y : Nat × List Addr} (temp : List UInt8), temp ≠ [97] →
      Function.update (Function.update (fun _ => none) [97] (some x)) [97] (some y) temp = none :=
    fun {x y} temp ht => by
      rw [Function.update_of_ne ht, Function.update_of_ne ht]
  have h2 := h1.step (i := Label.reply ⟨0, [97], some 0⟩ [someAddr])
    ⟨serves_only [97] (fun temp ht => Function.update_of_ne ht _ _) rfl rfl, hfits⟩ rfl
  -- the answer is stored and handed to the caller, whose handler returns
  have h3 := h2.step (i := Label.run 0) (timely_run rfl rfl (serves_only [97] hnone rfl rfl)) rfl
  have h4 := h3.step (i := Label.run 0) (timely_run rfl rfl (serves_only [97] hnone rfl rfl)) rfl
  have h5 := h4.step (i := Label.ret) trivial rfl
  have h6 := h5.step (i := Label.run 0) (timely_run rfl rfl (serves_only [97] hnone rfl rfl)) rfl
  have h7 := h6.step (i := Label.run 0) (timely_run rfl rfl (serves_only [97] hnone rfl rfl)) rfl
  exact ⟨_, rfl, reach_gethostbyname h7 (by decide) (fun f hf => (by cases hf)) (by decide) rfl
    (by decide) (by decide) 3⟩

end

end NgxToolkit.DynamicResolver
