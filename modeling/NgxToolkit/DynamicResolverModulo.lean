import Mathlib.Tactic.Common
import NgxToolkit.DynamicResolverSteps

/-! The divisors of the dynamic resolver: `domain_buckets` in `idx %= ..`, and the
`naddrs` of a record in `ngx_random() % ..` and in `n %= ..`.

`ngx_random() % ..` stands behind a check of `naddrs`.  `n %= ..` does not: it
divides behind a user handler by the `naddrs` that the answer has written before.

* `World.step_divByZero`: in which steps a modulo by zero is executed.
* `World.Counted.step`: as long as no call makes a new entry of a record whose
  answer is handed out, this record keeps its addresses.
* `modulo_nonzero`: no run of such steps executes a modulo by zero. -/

namespace NgxToolkit.DynamicResolver

open Lib

variable {η δ : Type}

/-! ## Configurations -/

/-- `ngx_dynamic_resolver_init_conf`: the two settings and whether there is a hash.  A directive
that is not set is `none`, `pcalloc` says whether the allocation succeeds. -/
def initConf (refreshInterval domainBuckets : Option Nat) (pcalloc : Bool) : Nat × Nat × Bool :=
  let refreshInterval := refreshInterval.getD 0
  let domainBuckets := domainBuckets.getD 101
  (refreshInterval, domainBuckets, decide (0 < refreshInterval ∧ 0 < domainBuckets) && pcalloc)

/-- A worker with a configuration that `ngx_dynamic_resolver_init_conf` has accepted. -/
def configured (pton : List UInt8 → Nat) (refreshInterval domainBuckets : Option Nat)
    (pcalloc : Bool) : Machine (World η δ) (Label η δ) :=
  let conf := initConf refreshInterval domainBuckets pcalloc
  machine pton conf.1 conf.2.1 conf.2.2

/-- A call with `domain` comes to the index of its bucket. -/
def World.Indexes (pton : List UInt8 → Nat) (w : World η δ) (domain : Option (List UInt8)) : Prop :=
  ∃ text, domain = some text ∧ pton text = 0 ∧ w.conf.refreshInterval ≠ 0 ∧
    text.length ≤ maxDomainLen

/-- The addresses of an answer to the record `d` are handed out. -/
def World.Answering (w : World η δ) (d : Nat) : Prop :=
  ∃ f ∈ w.stack, ∃ q rep i, f.stored = some (q, rep, i) ∧ q.dom = d

/-- A condition on the steps: no call comes to the index of a bucket if there are
no buckets, and none makes an entry of a record whose addresses are handed out. -/
def Divides (pton : List UInt8 → Nat) (w : World η δ) : Label η δ → Prop
  | .add domain _ | .start domain _ _ _ _ _ =>
    (w.Indexes pton domain → domain = some [] ∨ w.conf.domainBuckets ≠ 0) ∧
      ∀ d, w.Answering d → ¬ w.Takes pton domain d
  | .del domain => w.Indexes pton domain → domain = some [] ∨ w.conf.domainBuckets ≠ 0
  | .host domain _ => w.Indexes pton domain → w.conf.domainBuckets ≠ 0
  | _ => True

section
variable {w w' : World η δ} {ws ws' ds ds' : Option Nat → List Nat} {pton : List UInt8 → Nat}

/-! ## Records -/

/-- A record whose addresses are handed out has some. -/
def World.Counted (w : World η δ) : Prop := ∀ d, w.Answering d → (w.conf.dom d).naddrs ≠ 0

theorem World.Counted.congr (hw : w.Counted)
    (hnaddrs : ∀ d, (w'.conf.dom d).naddrs = (w.conf.dom d).naddrs)
    (hstack : ∀ d, w'.Answering d → w.Answering d) : w'.Counted := by
  intro d hd
  rw [hnaddrs]
  exact hw d (hstack d hd)

theorem World.Answering.of_stack (hstack : w'.stack = w.stack) {d : Nat} (h : w'.Answering d) :
    w.Answering d := by
  unfold World.Answering at h ⊢
  rwa [hstack] at h

/-- Fewer functions run, or another one that hands nothing out. -/
theorem World.Answering.of_push {f : Frame} (hstack : w'.stack = f :: w.stack)
    (hstored : f.stored = none) {d : Nat} (h : w'.Answering d) : w.Answering d := by
  obtain ⟨g, hg, q, rep, i, hs, hd⟩ := h
  rw [hstack] at hg
  rcases List.mem_cons.mp hg with rfl | hg
  · rw [hstored] at hs
    cases hs
  · exact ⟨g, hg, q, rep, i, hs, hd⟩

theorem World.Answering.of_pop {f : Frame} {st : List Frame} (hstack : w.stack = f :: st)
    (hstack' : w'.stack = st) {d : Nat} (h : w'.Answering d) : w.Answering d := by
  obtain ⟨g, hg, hs⟩ := h
  rw [hstack'] at hg
  refine ⟨g, ?_, hs⟩
  rw [hstack]
  exact List.mem_cons_of_mem _ hg

/-- The function on top goes on in the same answer. -/
theorem World.Answering.of_top {f f' : Frame} {st : List Frame} (hstack : w.stack = f :: st)
    (hstack' : w'.stack = f' :: st)
    (hdom : ∀ q rep i, f'.stored = some (q, rep, i) → ∃ i', f.stored = some (q, rep, i')) {d : Nat}
    (h : w'.Answering d) : w.Answering d := by
  obtain ⟨g, hg, q, rep, i, hs, hd⟩ := h
  rw [hstack'] at hg
  unfold World.Answering
  rw [hstack]
  rcases List.mem_cons.mp hg with rfl | hg
  · obtain ⟨i', hi'⟩ := hdom q rep i hs
    exact ⟨f, List.mem_cons_self, q, rep, i', hi', hd⟩
  · exact ⟨g, List.mem_cons_of_mem _ hg, q, rep, i, hs, hd⟩

/-- An answer with addresses leaves some in its record. -/
theorem World.Counted.onResult (hw : w.Counted) (q : Query) (rep : List Addr) :
    (w.onResult q rep).Counted := by
  obtain ⟨f, n, -, -, -, heq, hcase⟩ := w.onResult_eq q rep
  rw [heq]
  rcases hcase with ⟨-, rfl, rfl⟩ | ⟨hrep, rfl, rfl⟩
  · refine hw.congr (fun d => ?_) fun d => World.Answering.of_push rfl rfl
    exact (SameRecords.setDom (s := w.conf) (d := q.dom) rfl rfl rfl d).2.1
  · rintro d ⟨g, hg, q', rep', i, hs, rfl⟩
    show ((w.conf.setDom q.dom _).dom q'.dom).naddrs ≠ 0
    by_cases hd : q'.dom = q.dom
    · have hlen := List.length_pos_iff.mpr hrep
      rw [hd, Conf.setDom_self]
      show min rep.length 8 ≠ 0
      omega
    · rw [Conf.setDom_of_ne _ _ hd]
      refine hw _ ⟨g, (List.mem_cons.mp hg).resolve_left ?_, q', rep', i, hs, rfl⟩
      rintro rfl
      cases hs
      exact hd rfl

theorem World.Counted.reply (hw : w.Counted) (q : Query) (rep : List Addr) :
    World.Counted ((World.answer { w with fresh := none, queries := w.queries.erase q } q
      rep).onResult q rep) := by
  obtain ⟨live, heq⟩ :=
    World.answer_eq { w with fresh := none, queries := w.queries.erase q } q rep
  rw [heq]
  exact World.Counted.onResult (w := { w with fresh := none, queries := w.queries.erase q, live })
    hw q rep

/-- **Moves.**  What is no new entry leaves each record that is handed out its addresses. -/
theorem World.Counted.move {R : Rules η δ} (hw : w.Counted) (hm : Move R w ws ds w' ws' ds')
    (hadds : w'.adds = w.adds) : w'.Counted := by
  cases hm with
  | fresh => exact hw
  | crash e => exact hw
  | lost h data huser hlost => exact hw
  | direct h data arg huser => exact hw.congr (fun _ => rfl) fun _ => .of_push rfl rfl
  | gone huser hno => exact hw
  | enter huser hent hshape => exact absurd hadds (Nat.succ_ne_self _)
  | @wait temp d c s l h data huser hd hnaddrs hc hdom hctx hidx hshape =>
    exact hw.congr (fun e => (SameRecords.waits hdom d c h data e).2.1) fun _ => .of_stack rfl
  | unlink huser hfresh hb hd =>
    exact hw.congr (fun e => (unlink_domain _ _ _ _ e).2.1) fun _ => .of_push rfl rfl
  | timer p hstack hfresh =>
    exact hw.congr (fun _ => rfl) fun _ => .of_push (f := .tick 0 p) (by rw [hstack]) rfl
  | issue hstack =>
    exact hw.congr (fun _ => rfl) fun _ => .of_top hstack rfl fun q rep i h => (by cases h)
  | ended hstack hcalls hholds hdrains hstored =>
    exact hw.congr (fun _ => rfl) fun _ => .of_pop hstack rfl
  | turned hstack hcalls hcalls' halike hfresh hloop =>
    refine hw.congr (fun _ => rfl) fun _ => .of_top hstack rfl fun q rep i h => ⟨i, ?_⟩
    rw [← halike.stored, h]
  | @invoke f f' st d c l h data arg hstack hcalls hcalls' halike hdrains hgoes hl hh hdata hshape =>
    have hsame : SameRecords w.conf
        (w.conf.setDom d { w.conf.dom d with ctx := (w.conf.ctx c).next }) := .setDom rfl rfl rfl
    refine hw.congr (fun e => (hsame e).2.1) fun _ => .of_top hstack rfl fun q rep i h => ⟨i, ?_⟩
    rw [← halike.stored, h]
  | giveBack hstack hcalls hcalls' halike hfresh hloop =>
    refine hw.congr (fun _ => rfl) fun _ => .of_top hstack rfl fun q rep i h => ⟨i, ?_⟩
    rw [← halike.stored, h]
  | freed hstack hd =>
    exact hw.congr (fun e => (SameRecords.putDomain _ _ e).2.1) fun _ => .of_pop hstack rfl
  | @reply q rep hq hwhen hgoes hfits => exact hw.reply q rep
  | @store q rep i n a st hstack hi ha hgoes hfresh =>
    refine hw.congr (fun e => ?_) fun _ => .of_top hstack rfl fun q' rep' i' h => ?_
    · show ((w.conf.setDom q.dom _).dom e).naddrs = _
      by_cases he : e = q.dom
      · subst he
        rw [Conf.setDom_self]
      · rw [Conf.setDom_of_ne _ _ he]
    · cases h
      exact ⟨i, rfl⟩

/-- A new entry is none of the records that are handed out. -/
theorem World.Counted.enter (hw : w.Counted) {temp : List UInt8} {d : Nat} {s : Conf η δ}
    (hent : Entered w ws ds ds' temp d s) (hd : ¬ w.Answering d) :
    (World.enter { w with conf := s } temp d).Counted := by
  intro e he
  have he' : w.Answering e := he
  show (s.dom e).naddrs ≠ 0
  rw [hent.other e fun h => hd (h ▸ he')]
  exact hw e he'

theorem World.Counted.startEntry (hw : w.Counted) (hs : Sound w ws ds) (huser : w.user = true)
    {temp : List UInt8} {d : Nat} (hd : Entry w.conf ds temp d) (h : η) (data : δ)
    (pcalloc : Bool) (rand : Nat) : (w.startEntry d h data pcalloc rand).Counted := by
  rcases World.startEntry_cases hs.shape hd h data pcalloc rand with
    ⟨arg, heq⟩ | ⟨hnaddrs, -, c, s, l, hc, hdom, hctx, -, hidx, hshape, heq⟩
  · rw [heq]
    have hm : Move Rules.free w ws ds (w.direct h data arg) ws ds := .direct h data arg huser
    exact hw.move hm rfl
  · rw [heq]
    exact hw.move (.wait (R := Rules.free) h data huser hd hnaddrs hc hdom hctx hidx hshape) rfl

/-- A move that leaves the buckets makes no entry. -/
theorem Move.adds {R : Rules η δ} (hm : Move R w ws ds w' ws' ds') (hw : Sound w ws ds)
    (hds : ∀ b, ds' (some b) = ds (some b)) : w'.adds = w.adds := by
  rcases hm.names hw with hs | ⟨temp, hs⟩ | ⟨temp, d, hs⟩
  · exact hs.adds
  · exact hs.adds
  · have hd := ((hs.entry temp d).mpr (.inl ⟨rfl, rfl⟩)).1
    rw [hds] at hd
    exact absurd (hw.shape.table.entry hd) (hs.off _)

theorem World.Counted.add (hw : w.Counted) (hs : Sound w ws ds)
    {domain : Option (List UInt8)} (hfree : ∀ d, w.Answering d → ¬ w.Takes pton domain d)
    (pcalloc : Bool) : (w.add pton domain pcalloc).Counted := by
  rcases World.add_cases hs.shape pton domain pcalloc with
    ⟨e, heq, -⟩ | ⟨ds', temp, d, s, htakes, hent, -, heq⟩
  · rw [heq]
    exact hw
  · rw [heq]
    exact hw.enter hent fun hd => hfree d hd htakes

theorem World.Counted.del (hw : w.Counted) (hs : Sound w ws ds) (domain : Option (List UInt8)) :
    (w.del pton domain).Counted := by
  rcases World.del_cases hs.shape pton domain with
    ⟨e, heq, -⟩ | ⟨temp, hno, heq⟩ | ⟨temp, l₁, d, l₂, -, hb, hd, heq⟩
  · rw [heq]
    exact hw
  · rw [heq]
    exact hw
  · rw [heq]
    exact hw.congr (fun e => (unlink_domain _ _ _ _ e).2.1) fun _ => .of_push rfl rfl

theorem World.Counted.start (hw : w.Counted) (hs : Sound w ws ds) (huser : w.user = true)
    {domain : Option (List UInt8)} (hfree : ∀ d, w.Answering d → ¬ w.Takes pton domain d) (h : η)
    (data : δ) (pcallocDomain pcallocCtx : Bool) (rand : Nat) :
    (w.start pton domain h data pcallocDomain pcallocCtx rand).Counted := by
  rcases World.start_cases hs.shape pton domain h data pcallocDomain pcallocCtx rand with
    ⟨e, heq, -⟩ | ⟨arg, heq⟩ | ⟨temp, d, -, hd, heq⟩ |
      ⟨ds', temp, d, s, htakes, -, hent, hshape, heq⟩
  · rw [heq]
    exact hw
  · rw [heq]
    have hm : Move Rules.free w ws ds (w.direct h data arg) ws ds := .direct h data arg huser
    exact hw.move hm rfl
  · rw [heq]
    exact hw.startEntry hs huser hd h data pcallocCtx rand
  · rw [heq]
    have hsound := (Move.enter (R := Rules.free) huser hent hshape).sound hs
    exact (hw.enter hent fun hd => hfree d hd htakes).startEntry hsound huser
      ((hent.entry _ _).mpr (.inl ⟨rfl, rfl⟩)) h data pcallocCtx rand

/-- **Steps.**  A step makes no entry of a record that is handed out, so it keeps its addresses. -/
theorem World.Counted.step (hw : w.Counted) (hs : Sound w ws ds) {l : Label η δ}
    (hok : Divides pton w l) (h : w.step pton l = some w') : w'.Counted := by
  have hs0 : Sound { w with fresh := none } ws ds := (Move.fresh (R := Rules.free)).sound hs
  have hw0 : World.Counted { w with fresh := none } := hw
  cases (World.steps_of_step h).2 with
  | add => exact hw0.add hs0 hok.2 _
  | del => exact hw0.del hs0 _
  | start huser => exact hw0.start hs0 huser hok.2 _ _ _ _ _
  | host | hostFault | timer | timerFault => exact hw
  | @reply q rep => exact hw.reply q rep
  | tick => exact hw.congr (fun _ => rfl) fun _ => .of_push (f := .tick 0 _) rfl rfl
  | run hrun =>
    obtain ⟨ws', ds', hm, hds⟩ := World.run_move (R := Rules.free) hs0 rfl
      (fun _ _ _ _ _ => trivial) hrun
    exact hw0.move hm (hm.adds hs0 hds)
  | ret hret =>
    obtain ⟨ws', ds', hm, hds⟩ := World.ret_move (R := Rules.free)
      (w := { w with fresh := none }) ws ds rfl hret
    exact hw0.move hm (hm.adds hs0 hds)

/-! ## Faults -/

theorem hashFault_divByZero {s : Conf η δ} (h : s.hashFault = some .divByZero) :
    s.domainBuckets = 0 := by
  unfold Conf.hashFault at h
  split at h
  · assumption
  · split at h <;> cases h

theorem World.add_divByZero (hfault : w.fault = none) {domain : Option (List UInt8)}
    {pcalloc : Bool} (h : (w.add pton domain pcalloc).fault = some .divByZero) :
    w.Indexes pton domain ∧ domain ≠ some [] ∧ w.conf.domainBuckets = 0 := by
  unfold World.add at h
  split at h
  · rw [hfault] at h
    cases h
  · rw [hfault] at h
    cases h
  · next text hne =>
    split at h
    · rw [hfault] at h
      cases h
    · next hset =>
      simp only [not_or, not_not, Nat.not_lt] at hset
      split at h
      · next e he =>
        cases h
        exact ⟨⟨text, rfl, hset⟩, fun h => hne (Option.some.inj h), hashFault_divByZero he⟩
      · dsimp only at h
        split at h
        · cases h
        · rw [hfault] at h
          cases h
        · split at h <;> exact absurd (hfault.symm.trans h) (by simp)

theorem World.del_divByZero (hfault : w.fault = none) {domain : Option (List UInt8)}
    (h : (w.del pton domain).fault = some .divByZero) :
    w.Indexes pton domain ∧ domain ≠ some [] ∧ w.conf.domainBuckets = 0 := by
  unfold World.del at h
  split at h
  · rw [hfault] at h
    cases h
  · rw [hfault] at h
    cases h
  · next text hne =>
    split at h
    · rw [hfault] at h
      cases h
    · next hset =>
      simp only [not_or, not_not, Nat.not_lt] at hset
      split at h
      · next e he =>
        cases h
        exact ⟨⟨text, rfl, hset⟩, fun h => hne (Option.some.inj h), hashFault_divByZero he⟩
      · dsimp only at h
        split at h
        · cases h
        · exact absurd (hfault.symm.trans h) (by simp)
        · exact absurd (hfault.symm.trans h) (by simp)

theorem World.startEntry_fault (w : World η δ) (d : Nat) (h : η) (data : δ) (pcalloc : Bool)
    (rand : Nat) : (w.startEntry d h data pcalloc rand).fault = w.fault := by
  unfold World.startEntry
  dsimp only
  split
  · split <;> rfl
  · rfl

theorem World.start_divByZero (hfault : w.fault = none) {domain : Option (List UInt8)} {h : η}
    {data : δ} {pcallocDomain pcallocCtx : Bool} {rand : Nat}
    (hf : (w.start pton domain h data pcallocDomain pcallocCtx rand).fault = some .divByZero) :
    w.Indexes pton domain ∧ domain ≠ some [] ∧ w.conf.domainBuckets = 0 := by
  have hleft : w.fault ≠ some .divByZero := by
    rw [hfault]
    simp
  unfold World.start at hf
  dsimp only at hf
  split at hf
  · exact absurd hf hleft
  · exact absurd hf hleft
  · next text hne =>
    split at hf
    · exact absurd hf hleft
    · next hpton =>
      split at hf
      · exact absurd hf hleft
      · next hset =>
        simp only [not_or, Nat.not_lt] at hset
        split at hf
        · next e he =>
          cases hf
          exact ⟨⟨text, rfl, not_not.mp hpton, hset⟩, fun h => hne (Option.some.inj h),
            hashFault_divByZero he⟩
        · split at hf
          · cases hf
          · rw [World.startEntry_fault] at hf
            exact absurd hf hleft
          · split at hf
            · exact absurd hf hleft
            · rw [World.startEntry_fault] at hf
              exact absurd hf hleft

theorem gethostbyname_divByZero {s : Conf η δ} {domain : Option (List UInt8)} {rand : Nat}
    (h : gethostbyname pton s domain rand = .error .divByZero) (hs : w.conf = s) :
    w.Indexes pton domain ∧ w.conf.domainBuckets = 0 := by
  subst hs
  unfold gethostbyname at h
  split at h
  · cases h
  · next text =>
    split at h
    · cases h
    · next hpton =>
      split at h
      · cases h
      · next hset =>
        simp only [not_or, Nat.not_lt] at hset
        split at h
        · next e he =>
          cases h
          exact ⟨⟨text, rfl, not_not.mp hpton, hset⟩, hashFault_divByZero he⟩
        · split at h
          · cases h
          · cases h
          · dsimp only at h
            split at h <;> cases h

theorem World.run_divByZero (hfault : w.fault = none) {rand : Nat} (h : w.run rand = some w') :
    w'.fault ≠ some .divByZero := by
  have hleft : w.fault ≠ some .divByZero := by
    rw [hfault]
    simp
  have hinvoke : ∀ (s : Conf η δ) st c arg reply,
      (w.invoke s st c arg reply).fault ≠ some .divByZero := by
    intro s st c arg reply
    unfold World.invoke
    split
    · exact hleft
    · exact fun h => by cases h
  unfold World.run at h
  split at h
  · split at h <;> cases h
    · exact hleft
    · exact hinvoke _ _ _ _ _
  · dsimp only at h
    split at h
    · split at h <;> cases h
      · exact fun h => by cases h
      · exact hleft
    · cases h
      exact hleft
  · split at h <;> cases h
    · exact hleft
    · exact hinvoke _ _ _ _ _
  · split at h <;> cases h
    · exact hleft
    · exact hinvoke _ _ _ _ _
  · cases h
    exact hleft
  · cases h
    exact hleft
  · split at h <;> cases h <;> exact hleft
  · cases h

/-- A handler comes back to the drain loop, and the record has no addresses. -/
theorem World.ret_divByZero (hfault : w.fault = none) (h : w.ret = some w')
    (hf : w'.fault = some .divByZero) : ∃ d, w.Answering d ∧ (w.conf.dom d).naddrs = 0 := by
  have hleft : w.fault ≠ some .divByZero := by
    rw [hfault]
    simp
  unfold World.ret at h
  split at h
  · cases h
    exact absurd hf hleft
  · cases h
    exact absurd hf hleft
  · next q rep i n c st hstack =>
    dsimp only at h
    split at h
    · next hzero =>
      refine ⟨q.dom, ⟨.wait q rep i n (some c), ?_, q, rep, i + 1, rfl, rfl⟩, hzero⟩
      rw [hstack]
      exact List.mem_cons_self
    · cases h
      exact absurd hf hleft
  · cases h
    exact absurd hf hleft
  · cases h

/-- **Divisors.**  A step divides by no zero. -/
theorem World.step_divByZero (hw : w.Counted) {l : Label η δ} (hok : Divides pton w l)
    (h : w.step pton l = some w') : w'.fault ≠ some .divByZero := by
  intro hf
  obtain ⟨hnone, hsteps⟩ := World.steps_of_step h
  have hleft : w.fault ≠ some .divByZero := by
    rw [hnone]
    simp
  cases hsteps with
  | add =>
    obtain ⟨hindex, hne, hzero⟩ := World.add_divByZero (w := { w with fresh := none }) hnone hf
    exact (hok.1 hindex).elim hne fun hb => hb hzero
  | del =>
    obtain ⟨hindex, hne, hzero⟩ := World.del_divByZero (w := { w with fresh := none }) hnone hf
    exact (hok hindex).elim hne fun hb => hb hzero
  | start =>
    obtain ⟨hindex, hne, hzero⟩ := World.start_divByZero (w := { w with fresh := none }) hnone hf
    exact (hok.1 hindex).elim hne fun hb => hb hzero
  | host | timer | tick => exact hleft hf
  | hostFault _ hhost =>
    cases hf
    obtain ⟨hindex, hzero⟩ := gethostbyname_divByZero hhost rfl
    exact hok hindex hzero
  | @reply q rep =>
    obtain ⟨live, heq⟩ :=
      World.answer_eq { w with fresh := none, queries := w.queries.erase q } q rep
    rw [heq] at hf
    unfold World.onResult at hf
    split at hf <;> exact hleft hf
  | timerFault => cases hf
  | run hrun => exact World.run_divByZero (w := { w with fresh := none }) hnone hrun hf
  | ret hret =>
    obtain ⟨d, hd, hzero⟩ := World.ret_divByZero (w := { w with fresh := none }) hnone hret hf
    exact hw d hd hzero

/-! ## Runs -/

/-- **No modulo by zero** is executed in a run in which no call comes to the index of a
bucket without buckets, and no call makes an entry of a record whose addresses
are handed out. -/
theorem modulo_nonzero {refreshInterval domainBuckets : Option Nat} {pcalloc : Bool}
    (hw : (configured pton refreshInterval domainBuckets pcalloc).ReachIf (Divides pton) w) :
    w.fault ≠ some .divByZero := by
  have hstart : World.Counted (η := η) (δ := δ)
      (configured pton refreshInterval domainBuckets pcalloc).start := by
    rintro d ⟨f, hf, -⟩
    cases hf
  refine (hw.invariant (P := fun w => w.Counted ∧ w.fault ≠ some .divByZero)
    ⟨hstart, fun h => by cases h⟩ fun w l w' hr ⟨hc, _⟩ hok hst => ?_).2
  obtain ⟨ws, ds, hs⟩ := reach_sound hr.reach
  exact ⟨hc.step hs hok hst, World.step_divByZero hc hok hst⟩

/-- A call while nobody is answered. -/
theorem Divides.of_idle {domain : Option (List UInt8)} (hb : w.conf.domainBuckets ≠ 0)
    (hstack : w.stack = []) : (w.Indexes pton domain → domain = some [] ∨ w.conf.domainBuckets ≠ 0) ∧
      ∀ d, w.Answering d → ¬ w.Takes pton domain d := by
  refine ⟨fun _ => .inr hb, ?_⟩
  rintro d ⟨f, hf, -⟩
  rw [hstack] at hf
  cases hf

/-- The handler of a waiter deletes another name than its own and adds a new one. -/
theorem modulo_nonzero_other : ∃ w : World Unit Unit,
    (configured (fun _ => 0) (some 60) none true).ReachIf (Divides fun _ => 0) w ∧
      w.conf.domainBuckets = 101 ∧ w.called.length = 1 ∧ w.stack = [] ∧
      w.fault ≠ some .divByZero := by
  have hmeets : Machine.Meets (configured (fun _ => 0) (some 60) none true) (Divides fun _ => 0)
      (Machine.start (configured (η := Unit) (δ := Unit) (fun _ => 0) (some 60) none true))
      [.start (some [97]) () () true true 0, .add (some [98]) true,
        .reply ⟨0, [97], some 0⟩ [someAddr], .run 0, .run 0, .del (some [98]), .run 0,
        .add (some [99]) true, .ret, .run 0, .run 0] := by
    refine .cons (.of_idle (by decide) rfl) rfl (.cons (.of_idle (by decide) rfl) rfl
      (.cons trivial rfl (.cons trivial rfl (.cons trivial rfl
        (.cons (fun _ => .inr (by decide)) rfl (.cons trivial rfl
          (.cons ⟨fun _ => .inr (by decide), ?_⟩ rfl (.cons trivial rfl (.cons trivial rfl
            (.cons trivial rfl trivial))))))))))
    -- the record that is free is not the one that is handed out
    rintro d ⟨f, hf, q, rep, i, hs, rfl⟩ ⟨text, -, -, -, -, -, -, htake⟩
    cases List.mem_singleton.mp hf
    cases hs
    exact absurd htake (by decide)
  have hr := Machine.ReachIf.of_meets .start hmeets rfl
  exact ⟨_, hr, rfl, rfl, rfl, modulo_nonzero hr⟩

/-- Without buckets a lookup divides by zero.  With buckets so does the drain loop behind a
handler that deletes the name it is called for and adds another one. -/
theorem modulo_zero :
    (¬ ∀ w : World Unit Unit, (configured (fun _ => 0) (some 60) (some 0) true).Reach w →
      w.fault ≠ some .divByZero) ∧
    ¬ ∀ w : World Unit Unit, (configured (fun _ => 0) (some 60) none true).Reach w →
      w.fault ≠ some .divByZero := by
  constructor
  · intro hall
    refine hall _ (Machine.reach_run _ [.add (some [97]) true] rfl) rfl
  · intro hall
    refine hall _ (Machine.reach_run _ [.start (some [97]) () () true true 0,
      .reply ⟨0, [97], some 0⟩ [someAddr], .run 0, .run 0, .del (some [97]), .run 0,
      .add (some [98]) true, .ret] rfl) rfl

end

end NgxToolkit.DynamicResolver
