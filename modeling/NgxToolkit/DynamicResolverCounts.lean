import Mathlib.Tactic.Common
import NgxToolkit.DynamicResolverMoves

/-! The entries of the dynamic resolver and its counters.

`Ledger` adds to the table what the counters say: every context and every record
is on a list or held by a running function, the free lists have the lengths
`nfreeCtx` and `nfreeDomain`, and the names are lower-cased domains.

* `reach_records`: in every reachable state the lists are disjoint and end, a
  name has one entry at most, in its bucket, and in the event loop the counters
  are the numbers of the entries and of the waiters. -/

namespace NgxToolkit.DynamicResolver

open Lib

variable {η δ : Type}

/-- The text that `temp` holds for some domain. -/
def Lowered (temp : List UInt8) : Prop :=
  ∃ domain : List UInt8, domain ≠ [] ∧ domain.length ≤ maxDomainLen ∧ temp = strlow domain

structure Ledger (s : Conf η δ) (ws ds : Option Nat → List Nat) (cs rs : List Nat) : Prop where
  table : Table s ws ds cs rs
  ctxs : Full ws s.nallocCtx cs
  doms : Full ds s.nallocDomain rs
  freeCtxs : s.nfreeCtx = (ws none).length
  freeDoms : s.nfreeDomain = (ds none).length
  names : ∀ b d, d ∈ ds (some b) → Lowered (s.dom d).domain ∧ 0 < s.domainBuckets

section
variable {s s' : Conf η δ} {ws ds : Option Nat → List Nat} {cs rs : List Nat}

/-! ## Contexts -/

/-- Writing the addresses of a record. -/
theorem Ledger.setDom (h : Ledger s ws ds cs rs) {d : Nat} {x : Domain}
    (hname : x.domain = (s.dom d).domain) (hctx : x.ctx = (s.dom d).ctx)
    (hnext : x.next = (s.dom d).next) : Ledger (s.setDom d x) ws ds cs rs := by
  refine ⟨h.table.setDom hname hctx hnext, h.ctxs, h.doms, h.freeCtxs, h.freeDoms, ?_⟩
  intro b e he
  rw [s.setDom_domain hname]
  exact h.names b e he

theorem Ledger.popCtx (h : Ledger s ws ds cs rs) {d c : Nat} (hp : popCtx s d = some (c, s')) :
    ∃ l, Ledger s' (Function.update ws (some d) l) ds (c :: cs) rs := by
  obtain ⟨l, hl, htable, rfl⟩ := h.table.popCtx hp
  have hfull : Full (Function.update ws (some d) ([] ++ l)) s.nallocCtx (c :: cs) :=
    h.ctxs.unlink hl
  refine ⟨l, htable, hfull, h.doms, ?_, h.freeDoms, fun b e he => ?_⟩
  · rw [Function.update_of_ne (by simp)]
    exact h.freeCtxs
  · rw [s.setDom_domain (d := d) (x := { s.dom d with ctx := (s.ctx c).next }) rfl]
    exact h.names b e he

theorem Ledger.putCtx {c : Nat} (h : Ledger s ws ds (c :: cs) rs) :
    Ledger (putCtx s c) (Function.update ws none (c :: ws none)) ds cs rs := by
  refine ⟨h.table.putCtx, h.ctxs.push none, h.doms, ?_, h.freeDoms, h.names⟩
  rw [Function.update_self, List.length_cons, ← h.freeCtxs]
  rfl

theorem Ledger.getCtx (h : Ledger s ws ds cs rs) {pcalloc : Bool} {c : Nat}
    (hg : getCtx s pcalloc = (some c, s')) :
    ∃ l, Ledger s' (Function.update ws none l) ds (c :: cs) rs ∧
      s'.dom = s.dom ∧ s'.nallocDomain = s.nallocDomain := by
  obtain ⟨l, htable, hdom, -, htop, hbuckets⟩ := h.table.getCtx hg
  -- the rest of the free list is what its head now starts
  have hlinked : Linked s'.ctxNext s'.freeCtx l := by
    have hlink := htable.ctxs.chains.linked none
    rwa [Function.update_self] at hlink
  have hhead : s.freeCtx = (ws none).head? := h.table.ctxs.chains.head_eq none
  have hnames : ∀ b d, d ∈ ds (some b) → Lowered (s'.dom d).domain ∧ 0 < s'.domainBuckets := by
    rw [hdom, hbuckets]
    exact h.names
  refine ⟨l, ?_, hdom, htop⟩
  unfold DynamicResolver.getCtx at hg
  split at hg
  · next hn =>
    split at hg
    · cases hg
      have hl : l = [] := linked_none.mp (hn ▸ hlinked)
      have hws : ws none = [] := List.head?_eq_none_iff.mp (hhead.symm.trans hn)
      subst hl
      rw [← hws, Function.update_eq_self] at htable ⊢
      exact ⟨htable, h.ctxs.alloc, h.doms, h.freeCtxs, h.freeDoms, hnames⟩
    · cases hg
  · next c' hc =>
    cases hg
    rw [hc] at hhead
    obtain ⟨l', hl'⟩ := List.head?_eq_some_iff.mp hhead.symm
    have hnext := htable.ctxs.chains
    have hold := h.table.ctxs.chains.linked none
    have hn := h.table.ctxs.chains.nodup none
    rw [hl'] at hold hn
    have hl : l = l' := by
      refine hlinked.unique ?_
      have hupd := hold.2.update (List.nodup_cons.mp hn).1 (q := none)
      rwa [← ctxNext_update s c ⟨none, none, none⟩] at hupd
    subst hl
    have hfull : Full (Function.update ws none ([] ++ l)) s.nallocCtx (c :: cs) :=
      h.ctxs.unlink hl'
    refine ⟨htable, hfull, h.doms, ?_, h.freeDoms, hnames⟩
    rw [Function.update_self]
    show s.nfreeCtx - 1 = l.length
    rw [h.freeCtxs, hl']
    rfl

theorem Ledger.pushCtx {c : Nat} (h : Ledger s ws ds (c :: cs) rs) {d : Nat} (hd : η) (data : δ)
    (hfree : d ∉ ds none) (hlt : d < s.nallocDomain) :
    Ledger (pushCtx s d c hd data) (Function.update ws (some d) (c :: ws (some d))) ds cs rs := by
  refine ⟨h.table.pushCtx hd data hfree hlt, h.ctxs.push (some d), h.doms, ?_, h.freeDoms, ?_⟩
  · rw [Function.update_of_ne (by simp)]
    exact h.freeCtxs
  · intro b e he
    have hname : ((DynamicResolver.pushCtx s d c hd data).dom e).domain = (s.dom e).domain :=
      (s.setCtx c _).setDom_domain (d := d) (x := { s.dom d with ctx := some c }) rfl e
    rw [hname]
    exact h.names b e he

/-! ## Records -/

theorem Ledger.getDomain (h : Ledger s ws ds cs rs) {pcalloc : Bool} {d : Nat}
    (hg : getDomain s pcalloc = (some d, s')) :
    ∃ l, Ledger s' ws (Function.update ds none l) cs (d :: rs) ∧
      s'.dom = Function.update s.dom d zeroDomain ∧ s'.domainBuckets = s.domainBuckets ∧
      ∀ b, d ∉ ds (some b) := by
  obtain ⟨l, htable, -, hdom, -, hbuckets, hoff, -⟩ := h.table.getDomain hg
  have hlinked : Linked s'.domNext s'.freeDomain l := by
    have hlink := htable.doms.chains.linked none
    rwa [Function.update_self] at hlink
  have hhead : s.freeDomain = (ds none).head? := h.table.doms.chains.head_eq none
  have hnames : ∀ b e, e ∈ Function.update ds none l (some b) →
      Lowered (s'.dom e).domain ∧ 0 < s'.domainBuckets := fun b e he => by
    rw [Function.update_of_ne (by simp)] at he
    have hed : e ≠ d := fun hed => hoff b (hed ▸ he)
    rw [hdom, hbuckets, Function.update_of_ne hed]
    exact h.names b e he
  refine ⟨l, ?_, hdom, hbuckets, hoff⟩
  unfold DynamicResolver.getDomain at hg
  split at hg
  · next hn =>
    split at hg
    · cases hg
      have hl : l = [] := linked_none.mp (hn ▸ hlinked)
      have hds : ds none = [] := List.head?_eq_none_iff.mp (hhead.symm.trans hn)
      subst hl
      rw [← hds, Function.update_eq_self] at htable hnames ⊢
      exact ⟨htable, h.ctxs, h.doms.alloc, h.freeCtxs, h.freeDoms, hnames⟩
    · cases hg
  · next d' hd =>
    cases hg
    rw [hd] at hhead
    obtain ⟨l', hl'⟩ := List.head?_eq_some_iff.mp hhead.symm
    have hold := h.table.doms.chains.linked none
    have hn := h.table.doms.chains.nodup none
    rw [hl'] at hold hn
    have hl : l = l' := by
      refine hlinked.unique ?_
      have hupd := hold.2.update (List.nodup_cons.mp hn).1 (q := zeroDomain.next)
      rwa [← domNext_update s d zeroDomain] at hupd
    subst hl
    have hfull : Full (Function.update ds none ([] ++ l)) s.nallocDomain (d :: rs) :=
      h.doms.unlink hl'
    refine ⟨htable, h.ctxs, hfull, h.freeCtxs, ?_, hnames⟩
    rw [Function.update_self]
    show s.nfreeDomain - 1 = l.length
    rw [h.freeDoms, hl']
    rfl

theorem Ledger.link {d : Nat} (h : Ledger s ws ds cs (d :: rs)) {temp : List UInt8}
    (htemp : Lowered temp) (hbuckets : 0 < s.domainBuckets)
    (hnew : ∀ e ∈ ds (some (s.idx temp)), (s.dom e).domain ≠ temp) :
    Ledger (s.link temp d) ws
      (Function.update ds (some (s.idx temp)) (d :: ds (some (s.idx temp)))) cs rs := by
  refine ⟨h.table.link temp hnew, h.ctxs, h.doms.push _, h.freeCtxs, ?_, fun b e he => ?_⟩
  · rw [Function.update_of_ne (by simp)]
    exact h.freeDoms
  · refine ⟨?_, hbuckets⟩
    rw [link_dom]
    by_cases hed : e = d
    · subst hed
      rw [Function.update_self]
      exact htemp
    · rw [Function.update_of_ne hed]
      refine (h.names b e ?_).1
      by_cases hb : b = s.idx temp
      · subst hb
        rw [Function.update_self] at he
        exact (List.mem_cons.mp he).resolve_left hed
      · rwa [Function.update_of_ne (by simpa using hb)] at he

/-- A record is made for a name that has none. -/
theorem Ledger.addEntry (h : Ledger s ws ds cs rs) {temp : List UInt8} {pcalloc : Bool} {d : Nat}
    (hg : addEntry s temp pcalloc = (some d, s')) (htemp : Lowered temp)
    (hbuckets : 0 < s.domainBuckets) (hno : ∀ e, ¬ Entry s ds temp e) :
    ∃ ds', Ledger s' ws ds' cs rs ∧ Entry s' ds' temp d := by
  unfold DynamicResolver.addEntry at hg
  split at hg
  · cases hg
  · next d' s1 hd =>
    cases hg
    obtain ⟨l, h1, hdom, hsame, hoff⟩ := h.getDomain hd
    have hidx : s1.idx temp = s.idx temp := by
      unfold Conf.idx
      rw [hsame]
    have h2 := h1.link htemp (by rw [hsame]; exact hbuckets) fun e he => by
      rw [hidx, Function.update_of_ne (by simp)] at he
      have hed : e ≠ d := fun hed => hoff _ (hed ▸ he)
      rw [hdom, Function.update_of_ne hed]
      exact fun hname => hno e ⟨he, hname⟩
    refine ⟨_, h2, ?_, ?_⟩
    · have hmem := List.mem_cons_self (a := d) (l := Function.update ds none l (some (s1.idx temp)))
      rwa [← Function.update_self (some (s1.idx temp)) (d :: _) (Function.update ds none l)] at hmem
    · rw [link_dom, Function.update_self]

theorem Ledger.putDomain {d : Nat} (h : Ledger s ws ds cs (d :: rs)) (hw : ws (some d) = []) :
    Ledger (putDomain s d) ws (Function.update ds none (d :: ds none)) cs rs := by
  refine ⟨h.table.putDomain hw, h.ctxs, h.doms.push none, h.freeCtxs, ?_, fun b e he => ?_⟩
  · rw [Function.update_self, List.length_cons, ← h.freeDoms]
    rfl
  · rw [Function.update_of_ne (by simp)] at he
    have hname : ((DynamicResolver.putDomain s d).dom e).domain = (s.dom e).domain :=
      s.setDom_domain (d := d) (x := { s.dom d with next := s.freeDomain }) rfl e
    rw [hname]
    exact h.names b e he

theorem unlink_counters (s : Conf η δ) (b : Nat) (pd : Option Nat) (d : Nat) :
    (s.unlink b pd d).nallocCtx = s.nallocCtx ∧ (s.unlink b pd d).nfreeCtx = s.nfreeCtx ∧
      (s.unlink b pd d).nallocDomain = s.nallocDomain ∧
      (s.unlink b pd d).nfreeDomain = s.nfreeDomain ∧
      (s.unlink b pd d).domainBuckets = s.domainBuckets := by
  unfold Conf.unlink
  cases pd <;> exact ⟨rfl, rfl, rfl, rfl, rfl⟩

theorem Ledger.unlink (h : Ledger s ws ds cs rs) {b d : Nat} {l₁ l₂ : List Nat}
    (hb : ds (some b) = l₁ ++ d :: l₂) :
    Ledger (s.unlink b l₁.getLast? d) ws (Function.update ds (some b) (l₁ ++ l₂)) cs (d :: rs) := by
  obtain ⟨h1, h2, h3, h4, h5⟩ := unlink_counters s b l₁.getLast? d
  refine ⟨h.table.unlink hb, ?_, ?_, ?_, ?_, fun b' e he => ?_⟩
  · rw [h1]
    exact h.ctxs
  · rw [h3]
    exact h.doms.unlink hb
  · rw [h2]
    exact h.freeCtxs
  · rw [h4, Function.update_of_ne (by simp)]
    exact h.freeDoms
  · rw [h5, (unlink_domain s b l₁.getLast? d e).1]
    refine h.names b' e (mem_update_of_sub (fun a ha => ?_) he)
    rw [hb]
    simp only [List.mem_append, List.mem_cons] at ha ⊢
    tauto

end

/-! ## Steps -/

/-- The contexts and records of a worker are all accounted for. -/
def World.Accounted (w : World η δ) : Prop :=
  ∃ ws ds, Ledger w.conf ws ds (w.stack.filterMap Frame.calls) (w.stack.filterMap Frame.holds)

section
variable {w w' : World η δ} {pton : List UInt8 → Nat}

/-- A step that leaves the heaps and what the running functions hold. -/
theorem World.Accounted.congr (h : w.Accounted) (hconf : w'.conf = w.conf)
    (hcalls : w'.stack.filterMap Frame.calls = w.stack.filterMap Frame.calls)
    (hholds : w'.stack.filterMap Frame.holds = w.stack.filterMap Frame.holds) : w'.Accounted := by
  unfold Accounted
  rw [hconf, hcalls, hholds]
  exact h

theorem World.Accounted.direct (h : w.Accounted) (hd : η) (data : δ) (arg : Arg) :
    (w.direct hd data arg).Accounted :=
  h.congr rfl rfl rfl

/-- A name that passes the checks of a call. -/
theorem lowered_strlow {domain : List UInt8} (hne : domain ≠ [])
    (hlen : ¬ maxDomainLen < domain.length) : Lowered (strlow domain) :=
  ⟨domain, hne, Nat.not_lt.mp hlen, rfl⟩

theorem hashFault_none {s : Conf η δ} (h : s.hashFault = none) : 0 < s.domainBuckets := by
  unfold Conf.hashFault at h
  split at h
  · cases h
  · next hne => exact Nat.pos_of_ne_zero hne

theorem World.Accounted.add (h : w.Accounted) (domain : Option (List UInt8)) (pcalloc : Bool) :
    (w.add pton domain pcalloc).Accounted := by
  have ⟨ws, ds, hl⟩ := h
  unfold World.add
  split
  · exact h
  · exact h
  · next text hne =>
    split
    · exact h
    · next hset =>
      simp only [not_or] at hset
      split
      · exact h.congr rfl rfl rfl
      · next hhash =>
        have hno : _ ↔ ∀ d, ¬ Entry w.conf ds (strlow text) d := hl.table.find?_eq_none
        dsimp only
        rw [hl.table.addSearch_eq _ (Nat.le_refl _)]
        cases hf : (ds (some (w.conf.idx (strlow text)))).find? (w.conf.named (strlow text)) with
        | some d => exact h
        | none =>
          dsimp only
          split
          · next s hs =>
            rw [addEntry_none hs]
            exact h
          · next d s hs =>
            have htemp : Lowered (strlow text) :=
              lowered_strlow hne hset.2.2
            obtain ⟨ds', hl', -⟩ := hl.addEntry hs htemp (hashFault_none hhash) (hno.mp hf)
            exact ⟨ws, ds', hl'⟩

theorem World.Accounted.del (h : w.Accounted) (domain : Option (List UInt8)) :
    (w.del pton domain).Accounted := by
  have ⟨ws, ds, hl⟩ := h
  unfold World.del
  split
  · exact h
  · exact h
  · next text _ =>
    split
    · exact h
    · split
      · exact h.congr rfl rfl rfl
      · dsimp only
        rcases hl.table.delSearch_eq (strlow text) (Nat.le_refl _) with
          ⟨-, hs⟩ | ⟨l₁, d, l₂, hb, -, hs⟩
        · rw [hs]
          exact h.congr rfl rfl rfl
        · rw [hs]
          exact ⟨ws, _, hl.unlink hb⟩

theorem Ledger.startEntry {ws ds : Option Nat → List Nat}
    (hl : Ledger w.conf ws ds (w.stack.filterMap Frame.calls) (w.stack.filterMap Frame.holds))
    {temp : List UInt8} {d : Nat} (hd : Entry w.conf ds temp d) (h : η) (data : δ) (pcalloc : Bool)
    (rand : Nat) : (w.startEntry d h data pcalloc rand).Accounted := by
  have hw : w.Accounted := ⟨ws, ds, hl⟩
  unfold World.startEntry
  dsimp only
  split
  · split
    · next s hs =>
      rw [getCtx_none hs]
      exact hw.direct h data .null
    · next c s hs =>
      obtain ⟨l, hl', hdom, htop⟩ := hl.getCtx hs
      have hfree : d ∉ ds none := fun hf => by
        cases hl.table.doms.chains.disjoint none _ d hf hd.1
      have hlt : d < s.nallocDomain := by
        rw [htop]
        exact hl.table.doms.lt _ d hd.1
      exact ⟨_, ds, hl'.pushCtx h data hfree hlt⟩
  · exact hw.direct h data _

theorem World.Accounted.start (h : w.Accounted) (domain : Option (List UInt8)) (hd : η) (data : δ)
    (pcallocDomain pcallocCtx : Bool) (rand : Nat) :
    (w.start pton domain hd data pcallocDomain pcallocCtx rand).Accounted := by
  have ⟨ws, ds, hl⟩ := h
  unfold World.start
  split
  · exact h.congr rfl rfl rfl
  · exact h.congr rfl rfl rfl
  · next text hne =>
    split
    · exact h.direct hd data _
    · split
      · exact h.direct hd data .null
      · next hset =>
        simp only [not_or] at hset
        split
        · exact h.congr rfl rfl rfl
        · next hhash =>
          dsimp only
          cases hs : startSearch w.conf (strlow text) w.conf.nallocDomain with
          | none => exact h.congr rfl rfl rfl
          | some r =>
            have hr := hl.table.startSearch_eq hs
            cases r with
            | some d => exact hl.startEntry (hl.table.find?_eq_some.mp hr.symm) hd data _ _
            | none =>
              dsimp only
              split
              · next s he =>
                rw [addEntry_none he]
                exact h.direct hd data .null
              · next d s he =>
                obtain ⟨ds', hl', hent⟩ := hl.addEntry he (lowered_strlow hne hset.2)
                  (hashFault_none hhash) (hl.table.find?_eq_none.mp hr.symm)
                exact Ledger.startEntry (w := World.enter { w with conf := s } (strlow text) d)
                  hl' hent hd data _ _

/-- One turn of a loop that calls the waiters of `d`. -/
theorem World.Accounted.invoke (h : w.Accounted) {f f' : Frame} {st : List Frame} {d c : Nat}
    {s : Conf η δ} (arg : Arg) (reply : Option Query) (hstack : w.stack = f :: st)
    (hcalls : f.calls = none) (hcalls' : f'.calls = some c) (hholds : f'.holds = f.holds)
    (hpop : popCtx w.conf d = some (c, s)) :
    (w.invoke s (f' :: st) c arg reply).Accounted := by
  have ⟨ws, ds, hl⟩ := h
  obtain ⟨l, hl'⟩ := hl.popCtx hpop
  unfold World.invoke
  split
  · refine ⟨Function.update ws (some d) l, ds, ?_⟩
    rw [hstack, List.filterMap_cons, List.filterMap_cons, hcalls] at hl'
    show Ledger s _ ds ((f' :: st).filterMap Frame.calls) ((f' :: st).filterMap Frame.holds)
    rw [List.filterMap_cons, List.filterMap_cons, hcalls', hholds]
    exact hl'
  · exact h.congr rfl rfl rfl

/-- The handler of a context has returned: the context is freed. -/
theorem World.Accounted.giveBack (h : w.Accounted) {f f' : Frame} {st : List Frame} {c : Nat}
    (hstack : w.stack = f :: st) (hcalls : f.calls = some c) (hcalls' : f'.calls = none)
    (hholds : f'.holds = f.holds) :
    World.Accounted { w with conf := putCtx w.conf c, stack := f' :: st } := by
  obtain ⟨ws, ds, hl⟩ := h
  rw [hstack, List.filterMap_cons, List.filterMap_cons, hcalls] at hl
  refine ⟨Function.update ws none (c :: ws none), ds, ?_⟩
  show Ledger (putCtx w.conf c) _ ds ((f' :: st).filterMap Frame.calls)
    ((f' :: st).filterMap Frame.holds)
  rw [List.filterMap_cons, List.filterMap_cons, hcalls', hholds]
  exact hl.putCtx

/-- The function on top of the stack returns, or goes on with what it held. -/
theorem World.Accounted.turn (h : w.Accounted) {f : Frame} {st st' : List Frame}
    (hstack : w.stack = f :: st)
    (hcalls : st'.filterMap Frame.calls = (f :: st).filterMap Frame.calls)
    (hholds : st'.filterMap Frame.holds = (f :: st).filterMap Frame.holds) :
    World.Accounted { w with stack := st' } := by
  refine h.congr rfl ?_ ?_
  · rw [hstack]
    exact hcalls
  · rw [hstack]
    exact hholds

theorem World.Accounted.run (h : w.Accounted) {rand : Nat} (hr : w.run rand = some w') :
    w'.Accounted := by
  have ⟨ws, ds, hl⟩ := h
  unfold World.run at hr
  split at hr
  · next q st hstack =>
    split at hr
    · cases hr
      exact h.turn hstack rfl rfl
    · next c s hpop =>
      cases hr
      exact h.invoke .null _ hstack rfl rfl rfl hpop
  · next q rep i st hstack =>
    dsimp only at hr
    split at hr
    · split at hr
      · cases hr
        exact h.congr rfl rfl rfl
      · next a ha =>
        cases hr
        refine ⟨ws, ds, ?_⟩
        rw [hstack] at hl
        exact hl.setDom rfl rfl rfl
    · cases hr
      exact h.turn hstack rfl rfl
  · next q rep i n st hstack =>
    split at hr
    · cases hr
      exact h.turn hstack rfl rfl
    · next c s hpop =>
      cases hr
      exact h.invoke _ _ hstack rfl rfl rfl hpop
  · next d st hstack =>
    split at hr
    · next hpop =>
      cases hr
      rw [hstack] at hl
      exact ⟨ws, _, hl.putDomain (hl.table.popCtx_none hpop)⟩
    · next c s hpop =>
      cases hr
      exact h.invoke .null none hstack rfl rfl rfl hpop
  · next i d st hstack =>
    cases hr
    have ht : World.Accounted { w with stack := .ticked i d :: st } := h.turn hstack rfl rfl
    exact ht.congr rfl rfl rfl
  · next i d st hstack =>
    cases hr
    exact h.turn hstack rfl rfl
  · next i st hstack =>
    split at hr
    · cases hr
      exact h.turn hstack rfl rfl
    · cases hr
      exact h.turn hstack rfl rfl
  · cases hr

theorem World.Accounted.ret (h : w.Accounted) (hr : w.ret = some w') : w'.Accounted := by
  unfold World.ret at hr
  split at hr
  · next st hstack =>
    cases hr
    exact h.turn hstack rfl rfl
  · next q c st hstack =>
    cases hr
    exact h.giveBack hstack rfl rfl rfl
  · next q rep i n c st hstack =>
    dsimp only at hr
    split at hr
    · cases hr
      exact h.congr rfl rfl rfl
    · cases hr
      exact h.giveBack hstack rfl rfl rfl
  · next d c st hstack =>
    cases hr
    exact h.giveBack hstack rfl rfl rfl
  · cases hr

theorem World.Accounted.onResult (h : w.Accounted) (q : Query) (rep : List Addr) :
    (w.onResult q rep).Accounted := by
  have ⟨ws, ds, hl⟩ := h
  unfold World.onResult
  split
  · exact h.congr rfl rfl rfl
  · exact ⟨ws, ds, hl.setDom rfl rfl rfl⟩

theorem World.Accounted.answer (h : w.Accounted) (q : Query) (rep : List Addr) :
    (w.answer q rep).Accounted := by
  unfold World.answer
  split
  · split
    · exact h.congr rfl rfl rfl
    · exact h
  · exact h

/-- **Steps** keep the accounts. -/
theorem World.Accounted.step (h : w.Accounted) {l : Label η δ} (hs : w.step pton l = some w') :
    w'.Accounted := by
  have hu : World.Accounted { w with fresh := none } := h.congr rfl rfl rfl
  cases (World.steps_of_step hs).2 with
  | add => exact hu.add _ _
  | del => exact hu.del _
  | start => exact hu.start _ _ _ _ _ _
  | host | timer => exact hu
  | hostFault | timerFault | tick => exact hu.congr rfl rfl rfl
  | @reply q rep =>
    have hq : World.Accounted { w with fresh := none, queries := w.queries.erase q } :=
      h.congr rfl rfl rfl
    exact (hq.answer q rep).onResult q rep
  | run hrun => exact hu.run hrun
  | ret hret => exact hu.ret hret

end

/-! ## Runs -/

/-- The records of the table, bucket by bucket. -/
def Conf.entries (s : Conf η δ) (ds : Option Nat → List Nat) : List Nat :=
  (List.range s.domainBuckets).flatMap fun b => ds (some b)

/-- The lists of the contexts and of the records, free, waiting and in buckets. -/
structure Records (s : Conf η δ) (ws ds : Option Nat → List Nat) : Prop where
  /-- the lists end where the links do -/
  ctxLists : ∀ i, Linked s.ctxNext (s.ctxHead i) (ws i)
  domLists : ∀ i, Linked s.domNext (s.domHead i) (ds i)
  ctxNodup : ∀ i, (ws i).Nodup
  domNodup : ∀ i, (ds i).Nodup
  ctxDisjoint : ∀ i j c, c ∈ ws i → c ∈ ws j → i = j
  domDisjoint : ∀ i j d, d ∈ ds i → d ∈ ds j → i = j
  lowered : ∀ b d, d ∈ ds (some b) → ∃ domain, (s.dom d).domain = strlow domain
  placed : ∀ b d, d ∈ ds (some b) → b = hashKey (s.dom d).domain % s.domainBuckets
  once : ∀ b b' d d', d ∈ ds (some b) → d' ∈ ds (some b') →
    (s.dom d).domain = (s.dom d').domain → d = d'

section
variable {s : Conf η δ} {ws ds : Option Nat → List Nat} {cs rs : List Nat}

theorem Ledger.records (h : Ledger s ws ds cs rs) : Records s ws ds := by
  refine ⟨h.table.ctxs.chains.linked, h.table.doms.chains.linked, h.table.ctxs.chains.nodup,
    h.table.doms.chains.nodup, h.table.ctxs.chains.disjoint, h.table.doms.chains.disjoint,
    fun b d hd => ?_, fun b d hd => (h.table.bucket b d hd).symm, fun b b' d d' hd hd' he => ?_⟩
  · obtain ⟨domain, -, -, hname⟩ := (h.names b d hd).1
    exact ⟨domain, hname⟩
  · have h1 := h.table.entry hd
    have h2 := h.table.entry hd'
    rw [← he] at h2
    exact h.table.entry_unique h1 h2

/-- A bucket that is not empty is one of the table's. -/
theorem Ledger.mem_entries (h : Ledger s ws ds cs rs) {b d : Nat} (hd : d ∈ ds (some b)) :
    b < s.domainBuckets ∧ d ∈ s.entries ds := by
  have hb : b < s.domainBuckets := by
    rw [← h.table.bucket b d hd]
    exact Nat.mod_lt _ (h.names b d hd).2
  exact ⟨hb, List.mem_flatMap.mpr ⟨b, List.mem_range.mpr hb, hd⟩⟩

theorem nodup_none_map {is : List Nat} (h : is.Nodup) : (none :: is.map some).Nodup := by
  refine List.nodup_cons.mpr ⟨by simp, ?_⟩
  exact h.map fun _ _ => Option.some.inj

theorem Ledger.count_doms (h : Ledger s ws ds cs []) :
    s.nallocDomain = s.nfreeDomain + (s.entries ds).length := by
  have hcount := h.table.doms.count h.doms
    (none :: (List.range s.domainBuckets).map some) (nodup_none_map List.nodup_range)
    fun i d hd => by
      cases i with
      | none => exact List.mem_cons_self
      | some b =>
        refine List.mem_cons_of_mem _ (List.mem_map_of_mem ?_)
        exact List.mem_range.mpr (h.mem_entries hd).1
  rw [List.flatMap_cons, List.length_append, List.flatMap_map, ← h.freeDoms] at hcount
  exact hcount.symm

/-- If no record is held, all waiters wait for entries. -/
theorem Ledger.count_ctxs (h : Ledger s ws ds [] []) :
    s.nallocCtx = s.nfreeCtx + ((s.entries ds).flatMap fun d => ws (some d)).length := by
  have hnodup : (s.entries ds).Nodup := by
    have hall := h.table.doms.nodup_flatMap (nodup_none_map (List.nodup_range (n := s.domainBuckets)))
    rw [List.flatMap_cons, List.flatMap_map] at hall
    exact (List.nodup_append.mp hall).2.1
  have hcount := h.table.ctxs.count h.ctxs (none :: (s.entries ds).map some)
    (nodup_none_map hnodup) fun i c hc => by
      cases i with
      | none => exact List.mem_cons_self
      | some d =>
        refine List.mem_cons_of_mem _ (List.mem_map_of_mem ?_)
        have hbusy : ¬ (d ∈ ds none ∨ s.nallocDomain ≤ d) := fun hidle => by
          rw [h.table.idle d hidle] at hc
          cases hc
        simp only [not_or, Nat.not_le] at hbusy
        obtain ⟨i, hi⟩ := (h.doms d hbusy.2).resolve_left List.not_mem_nil
        cases i with
        | none => exact absurd hi hbusy.1
        | some b => exact (h.mem_entries hi).2
  rw [List.flatMap_cons, List.length_append, List.flatMap_map, ← h.freeCtxs] at hcount
  exact hcount.symm

end

section
variable {pton : List UInt8 → Nat} {refreshInterval domainBuckets : Nat} {hashed : Bool}

theorem accounted_start : World.Accounted (η := η) (δ := δ)
    (machine pton refreshInterval domainBuckets hashed).start := by
  refine ⟨fun _ => [], fun _ => [], sound_start.shape.table, ?_, ?_, rfl, rfl, ?_⟩
  · intro c hc
    exact absurd hc (Nat.not_lt_zero c)
  · intro d hd
    exact absurd hd (Nat.not_lt_zero d)
  · intro b d hd
    cases hd

/-- **Records.**  In every reachable state the waiting lists, the buckets and the
two free lists end, have nothing twice and nothing in common, and a lower-cased
name has one entry at most, in the bucket of its hash; in the event loop what is
not free are the entries of the table and the contexts that wait for them. -/
theorem reach_records {w : World η δ}
    (hw : (machine pton refreshInterval domainBuckets hashed).Reach w) :
    ∃ ws ds, Records w.conf ws ds ∧ (w.stack = [] →
      w.conf.nallocDomain = w.conf.nfreeDomain + (w.conf.entries ds).length ∧
      w.conf.nallocCtx =
        w.conf.nfreeCtx + ((w.conf.entries ds).flatMap fun d => ws (some d)).length) := by
  obtain ⟨ws, ds, hl⟩ := hw.invariant accounted_start fun _ _ _ _ h hs => h.step hs
  refine ⟨ws, ds, hl.records, fun hstack => ?_⟩
  rw [hstack] at hl
  exact ⟨hl.count_doms, hl.count_ctxs⟩

/-- A name is added while the waiter of a deleted one is called, and waited for. -/
theorem reach_records_reentered : ∃ w : World Unit Unit,
    (machine (fun _ => 0) 60 1 true).Reach w ∧
      w.conf.nallocDomain = 3 ∧ w.conf.nfreeDomain = 1 ∧
      ∃ ws ds, Records w.conf ws ds ∧ (w.conf.entries ds).length = 2 ∧
        ((w.conf.entries ds).flatMap fun d => ws (some d)).length = 1 := by
  obtain ⟨w, hr, hstack, hn, hf, hn', hf'⟩ : ∃ w : World Unit Unit,
      (machine (fun _ => 0) 60 1 true).Reach w ∧ w.stack = [] ∧ w.conf.nallocDomain = 3 ∧
        w.conf.nfreeDomain = 1 ∧ w.conf.nallocCtx = 1 ∧ w.conf.nfreeCtx = 0 :=
    ⟨_, Machine.reach_run _
      [.start (some [65]) () () true true 0, .add (some [98]) true, .del (some [97]), .run 0,
        .add (some [99]) true, .ret, .run 0, .start (some [67]) () () true true 0] rfl,
      rfl, rfl, rfl, rfl, rfl⟩
  obtain ⟨ws, ds, hrec, hcount⟩ := reach_records hr
  obtain ⟨hdoms, hctxs⟩ := hcount hstack
  refine ⟨w, hr, hn, hf, ws, ds, hrec, ?_, ?_⟩
  · omega
  · omega

end

end NgxToolkit.DynamicResolver
