import Mathlib.Tactic.Common
import NgxToolkit.DynamicResolverMachine
import NgxToolkit.DynamicResolverSearch

/-! The shape of the dynamic resolver's heaps over whole runs.

`Shape w ws ds` holds in every reachable state: the heaps are the table `Table`,
with the contexts and records that running functions hold, every waiter has a
handler, and the names on record are those of the table.  Each thing a step can
do to the heaps has its lemma. -/

namespace NgxToolkit.DynamicResolver

open Lib

variable {η δ : Type}

/-! ## Frames -/

/-- The context whose handler is running. -/
def Frame.calls : Frame → Option Nat
  | .fail _ ctx | .wait _ _ _ _ ctx | .del _ ctx => ctx
  | _ => none

/-- The record that `ngx_dynamic_resolver_del_domain` has taken out of the table. -/
def Frame.holds : Frame → Option Nat
  | .del d _ => some d
  | _ => none

/-- The query whose answer is handed out. -/
def Frame.reply : Frame → Option Query
  | .fail q _ | .store q _ _ | .wait q _ _ _ _ => some q
  | _ => none

/-- The record whose waiters are called. -/
def Frame.drains : Frame → Option Nat
  | .fail q _ | .store q _ _ | .wait q _ _ _ _ => some q.dom
  | .del d _ => some d
  | _ => none

/-- The answer that is stored and how many addresses of it already are. -/
def Frame.stored : Frame → Option (Query × List Addr × Nat)
  | .store q rep i => some (q, rep, i)
  | .wait q rep i _ _ => some (q, rep, i + 1)
  | _ => none

/-- Is it the timer? -/
def Frame.ticks : Frame → Bool
  | .tick _ _ | .ticked _ _ => true
  | _ => false

/-- The same function in another turn of its loop. -/
structure Frame.Alike (f f' : Frame) : Prop where
  holds : f'.holds = f.holds
  reply : f'.reply = f.reply
  drains : f'.drains = f.drains
  stored : f'.stored = f.stored
  ticks : f'.ticks = f.ticks

/-! ## The shape -/

structure Shape (w : World η δ) (ws ds : Option Nat → List Nat) : Prop where
  table : Table w.conf ws ds (w.stack.filterMap Frame.calls) (w.stack.filterMap Frame.holds)
  handlers : ∀ d c, c ∈ ws (some d) →
    (w.conf.ctx c).h.isSome ∧ (w.conf.ctx c).data.isSome
  live : ∀ temp, (w.live temp).isSome ↔ ∃ d, Entry w.conf ds temp d

section
variable {w w' : World η δ} {ws ds : Option Nat → List Nat} {f f' : Frame} {st : List Frame}

/-- A step that leaves the heaps and the names. -/
theorem Shape.congr (hw : Shape w ws ds) (hconf : w'.conf = w.conf)
    (hcalls : w'.stack.filterMap Frame.calls = w.stack.filterMap Frame.calls)
    (hholds : w'.stack.filterMap Frame.holds = w.stack.filterMap Frame.holds)
    (hlive : ∀ temp, (w'.live temp).isSome = (w.live temp).isSome) : Shape w' ws ds := by
  refine ⟨?_, ?_, fun temp => ?_⟩
  · rw [hconf, hcalls, hholds]
    exact hw.table
  · rw [hconf]
    exact hw.handlers
  · rw [hlive, hconf]
    exact hw.live temp

/-- Writing the addresses of a record. -/
theorem Shape.setDom (hw : Shape w ws ds) {d : Nat} {x : Domain}
    (hname : x.domain = (w.conf.dom d).domain) (hctx : x.ctx = (w.conf.dom d).ctx)
    (hnext : x.next = (w.conf.dom d).next) : Shape { w with conf := w.conf.setDom d x } ws ds := by
  refine ⟨hw.table.setDom hname hctx hnext, hw.handlers, fun temp => ?_⟩
  rw [hw.live]
  refine exists_congr fun e => and_congr_right fun _ => ?_
  by_cases he : e = d
  · subst he
    simp [Conf.setDom, hname]
  · simp [Conf.setDom, he]

/-- A function calls the handler of the first waiter of `d`. -/
theorem Shape.invoke (hw : Shape w ws ds) {d c : Nat} {s : Conf η δ} (arg : Arg)
    (reply : Option Query) (hstack : w.stack = f :: st) (hf : f.calls = none)
    (hf' : f'.calls = some c) (hholds : f'.holds = f.holds)
    (hp : popCtx w.conf d = some (c, s)) :
    ∃ l h data, ws (some d) = c :: l ∧ (w.conf.ctx c).h = some h ∧
      (w.conf.ctx c).data = some data ∧
      s = w.conf.setDom d { w.conf.dom d with ctx := (w.conf.ctx c).next } ∧
      w.invoke s (f' :: st) c arg reply =
        { w with
          conf := s, stack := f' :: st
          called := ⟨w.owner c, h, data, arg, reply⟩ :: w.called } ∧
      Shape { w with
        conf := s, stack := f' :: st
        called := ⟨w.owner c, h, data, arg, reply⟩ :: w.called }
        (Function.update ws (some d) l) ds := by
  obtain ⟨l, hl, htable, hs⟩ := hw.table.popCtx hp
  obtain ⟨hh, hd⟩ := hw.handlers d c (by rw [hl]; exact List.mem_cons_self)
  obtain ⟨h, hh⟩ := Option.isSome_iff_exists.mp hh
  obtain ⟨data, hd⟩ := Option.isSome_iff_exists.mp hd
  have hctx : s.ctx = w.conf.ctx := by rw [hs]; rfl
  refine ⟨l, h, data, hl, hh, hd, hs, ?_, ?_, fun e c' hc' => ?_, fun temp => ?_⟩
  · unfold World.invoke
    rw [hctx, hh, hd]
  · show Table s _ ds ((f' :: st).filterMap Frame.calls) ((f' :: st).filterMap Frame.holds)
    rw [hstack, List.filterMap_cons, List.filterMap_cons, hf] at htable
    rw [List.filterMap_cons, List.filterMap_cons, hf', hholds]
    exact htable
  · show (s.ctx c').h.isSome ∧ (s.ctx c').data.isSome
    rw [hctx]
    refine hw.handlers e c' (mem_update_of_sub (fun a ha => ?_) hc')
    rw [hl]
    exact List.mem_cons_of_mem _ ha
  · rw [hw.live]
    refine exists_congr fun e => ?_
    show Entry w.conf ds temp e ↔ Entry s ds temp e
    rw [hs]
    refine and_congr_right fun _ => ?_
    by_cases he : e = d
    · subst he
      simp [Conf.setDom]
    · simp [Conf.setDom, he]

/-- The handler of a context has returned: the context is freed. -/
theorem Shape.giveBack (hw : Shape w ws ds) {c : Nat} (hstack : w.stack = f :: st)
    (hf : f.calls = some c) (hf' : f'.calls = none) (hholds : f'.holds = f.holds) :
    Shape { w with conf := putCtx w.conf c, stack := f' :: st }
      (Function.update ws none (c :: ws none)) ds := by
  have htable := hw.table
  rw [hstack, List.filterMap_cons, List.filterMap_cons, hf] at htable
  refine ⟨?_, fun d c' hc' => ?_, fun temp => hw.live temp⟩
  · show Table (putCtx w.conf c) _ ds ((f' :: st).filterMap Frame.calls)
      ((f' :: st).filterMap Frame.holds)
    rw [List.filterMap_cons, List.filterMap_cons, hf', hholds]
    exact htable.putCtx
  · rw [Function.update_of_ne (by simp)] at hc'
    have hne : c' ≠ c := fun e => (htable.ctxs.off c List.mem_cons_self).2 (some d) (e ▸ hc')
    have hsame : (putCtx w.conf c).ctx c' = w.conf.ctx c' := Function.update_of_ne hne _ _
    show ((putCtx w.conf c).ctx c').h.isSome ∧ ((putCtx w.conf c).ctx c').data.isSome
    rw [hsame]
    exact hw.handlers d c' hc'

/-- The last waiter of a deleted record has been called: the record is freed. -/
theorem Shape.freed (hw : Shape w ws ds) {d : Nat} (hstack : w.stack = .del d none :: st)
    (hd : ws (some d) = []) :
    Shape { w with conf := putDomain w.conf d, stack := st } ws
      (Function.update ds none (d :: ds none)) := by
  have htable := hw.table
  rw [hstack] at htable
  refine ⟨htable.putDomain hd, hw.handlers, fun temp => (hw.live temp).trans ?_⟩
  refine exists_congr fun e => and_congr ?_ ?_
  · rw [Function.update_of_ne (by simp)]
    rfl
  · by_cases he : e = d
    · subst he
      simp [putDomain, Conf.setDom]
    · simp [putDomain, Conf.setDom, he]

/-- A name that is not in the table is struck off the record. -/
theorem Shape.gone (hw : Shape w ws ds) {temp : List UInt8}
    (hno : ∀ d, ¬ Entry w.conf ds temp d) :
    Shape { w with live := Function.update w.live temp none } ws ds := by
  refine ⟨hw.table, hw.handlers, fun temp' => ?_⟩
  by_cases he : temp' = temp
  · subst he
    simp only [Function.update_self, Option.isSome_none, Bool.false_eq_true, false_iff]
    exact fun ⟨d, hd⟩ => hno d hd
  · simp only [Function.update_of_ne he]
    exact hw.live temp'

theorem unlink_domain (s : Conf η δ) (b : Nat) (pd : Option Nat) (d e : Nat) :
    ((s.unlink b pd d).dom e).domain = (s.dom e).domain ∧
      ((s.unlink b pd d).dom e).naddrs = (s.dom e).naddrs ∧
      ((s.unlink b pd d).dom e).addrs = (s.dom e).addrs := by
  unfold Conf.unlink
  cases pd with
  | none => exact ⟨rfl, rfl, rfl⟩
  | some p =>
    by_cases he : e = p
    · subst he
      simp [Conf.setDom]
    · simp [Conf.setDom, he]

/-- The settings never change. -/
theorem unlink_idx (s : Conf η δ) (b : Nat) (pd : Option Nat) (d : Nat) (temp : List UInt8) :
    (s.unlink b pd d).idx temp = s.idx temp := by
  unfold Conf.unlink
  cases pd <;> rfl

theorem unlink_ctx (s : Conf η δ) (b : Nat) (pd : Option Nat) (d : Nat) :
    (s.unlink b pd d).ctx = s.ctx := by
  unfold Conf.unlink
  cases pd <;> rfl

/-- The entries without that of `temp`. -/
theorem entry_unlink {s : Conf η δ} {cs rs : List Nat} (h : Table s ws ds cs rs) {temp : List UInt8}
    {d : Nat} {l₁ l₂ : List Nat} (hb : ds (some (s.idx temp)) = l₁ ++ d :: l₂)
    (hd : Entry s ds temp d) (temp' : List UInt8) (e : Nat) :
    Entry (s.unlink (s.idx temp) l₁.getLast? d)
      (Function.update ds (some (s.idx temp)) (l₁ ++ l₂)) temp' e ↔
        temp' ≠ temp ∧ Entry s ds temp' e := by
  have hout := ((h.unlink hb).doms.off d List.mem_cons_self).2 (some (s.idx temp))
  unfold Entry
  rw [unlink_idx, (unlink_domain _ _ _ _ _).1]
  constructor
  · rintro ⟨he, hname⟩
    have hmem : e ∈ ds (some (s.idx temp')) := mem_update_of_sub (fun a ha => by
      rw [hb]
      simp only [List.mem_append, List.mem_cons] at ha ⊢
      tauto) he
    refine ⟨fun ht => hout ?_, hmem, hname⟩
    subst ht
    rwa [h.entry_unique ⟨hmem, hname⟩ hd] at he
  · rintro ⟨ht, he, hname⟩
    refine ⟨?_, hname⟩
    have hed : e ≠ d := fun hed => ht (by rw [← hname, hed, hd.2])
    by_cases hi : s.idx temp' = s.idx temp
    · rw [hi, hb] at he
      rw [hi, Function.update_self]
      simp only [List.mem_append, List.mem_cons] at he ⊢
      tauto
    · rwa [Function.update_of_ne (by simpa using hi)]

/-- An entry is taken out of the table. -/
theorem Shape.unlink (hw : Shape w ws ds) {temp : List UInt8} {d : Nat} {l₁ l₂ : List Nat}
    (hb : ds (some (w.conf.idx temp)) = l₁ ++ d :: l₂) (hd : Entry w.conf ds temp d) :
    Shape { w with
      conf := w.conf.unlink (w.conf.idx temp) l₁.getLast? d, stack := .del d none :: w.stack
      live := Function.update w.live temp none } ws
      (Function.update ds (some (w.conf.idx temp)) (l₁ ++ l₂)) := by
  refine ⟨hw.table.unlink hb, ?_, fun temp' => ?_⟩
  · show ∀ e c, c ∈ ws (some e) → ((w.conf.unlink _ _ d).ctx c).h.isSome ∧
      ((w.conf.unlink _ _ d).ctx c).data.isSome
    rw [unlink_ctx]
    exact hw.handlers
  · show (Function.update w.live temp none temp').isSome ↔
      ∃ e, Entry (w.conf.unlink _ l₁.getLast? d) _ temp' e
    simp only [entry_unlink hw.table hb hd]
    by_cases he : temp' = temp
    · subst he
      simp
    · rw [Function.update_of_ne he, hw.live]
      exact exists_congr fun e => ⟨fun h => ⟨he, h⟩, fun h => h.2⟩

/-- What a new entry `d` for `temp` is: `s` is the configuration with it. -/
structure Entered (w : World η δ) (ws ds ds' : Option Nat → List Nat) (temp : List UInt8) (d : Nat)
    (s : Conf η δ) : Prop where
  new : ∀ e, ¬ Entry w.conf ds temp e
  buckets : ∀ b, ds' (some b) =
    if b = w.conf.idx temp then d :: ds (some b) else ds (some b)
  waiters : ws (some d) = []
  off : ∀ b, d ∉ ds (some b)
  name : (s.dom d).domain = temp
  naddrs : (s.dom d).naddrs = 0
  other : ∀ e, e ≠ d → s.dom e = w.conf.dom e
  ctx : s.ctx = w.conf.ctx
  idx : ∀ temp, s.idx temp = w.conf.idx temp
  top : (w.conf.freeDomain = some d ∧ s.nallocDomain = w.conf.nallocDomain) ∨
    (d = w.conf.nallocDomain ∧ s.nallocDomain = d + 1)

theorem Entered.entry {s : Conf η δ} {ds' : Option Nat → List Nat} {temp : List UInt8} {d : Nat}
    (h : Entered w ws ds ds' temp d s) (temp' : List UInt8) (e : Nat) :
    Entry s ds' temp' e ↔ (temp' = temp ∧ e = d) ∨ Entry w.conf ds temp' e := by
  have hne : ∀ b a, a ∈ ds (some b) → a ≠ d := fun b a ha had => h.off b (had ▸ ha)
  unfold Entry
  rw [h.idx, h.buckets]
  constructor
  · rintro ⟨he, hname⟩
    by_cases hed : e = d
    · subst hed
      exact .inl ⟨hname.symm.trans h.name, rfl⟩
    · rw [h.other e hed] at hname
      refine .inr ⟨?_, hname⟩
      split at he
      · exact (List.mem_cons.mp he).resolve_left hed
      · exact he
  · rintro (⟨rfl, rfl⟩ | ⟨he, hname⟩)
    · rw [if_pos rfl]
      exact ⟨List.mem_cons_self, h.name⟩
    · rw [h.other e (hne _ e he)]
      refine ⟨?_, hname⟩
      split
      · exact List.mem_cons_of_mem _ he
      · exact he

/-- Lists of which the one of `d` and the free list change. -/
theorem update_update_some {ls : Option Nat → List Nat} {d e : Nat} (l l' : List Nat)
    (h : e ≠ d) : Function.update (Function.update ls none l) (some d) l' (some e) = ls (some e) := by
  rw [Function.update_of_ne (by simpa using h), Function.update_of_ne (by simp)]

/-- The waiters are those of before and the new one. -/
theorem mem_pushed {d c e c' : Nat} {l : List Nat} :
    c' ∈ Function.update (Function.update ws none l) (some d) (c :: ws (some d)) (some e) ↔
      (c' = c ∧ e = d) ∨ c' ∈ ws (some e) := by
  by_cases he : e = d
  · subst he
    rw [Function.update_self, List.mem_cons, and_iff_left rfl]
  · rw [update_update_some _ _ he]
    exact ⟨.inr, fun h => h.resolve_left fun h => he h.2⟩

/-- The start calls keep their numbers. -/
theorem getElem?_started (w : World η δ) (x : Start η δ) (k : Nat) (st : Start η δ)
    (hst : w.started[k]? = some st) : (w.started ++ [x])[k]? = some st := by
  rw [List.getElem?_append_left (List.getElem?_eq_some_iff.mp hst).1]
  exact hst

/-- A new name is put into the table. -/
theorem Shape.enter (hw : Shape w ws ds) {temp : List UInt8} {pcalloc : Bool} {d : Nat}
    {s : Conf η δ} (hno : ∀ e, ¬ Entry w.conf ds temp e)
    (hg : addEntry w.conf temp pcalloc = (some d, s)) :
    ∃ ds', Entered w ws ds ds' temp d s ∧
      Shape (World.enter { w with conf := s } temp d) ws ds' := by
  obtain ⟨l, htable, hwd, hoff, -, hname, hnaddrs, hother, hctx, hbuckets, htop⟩ :=
    hw.table.addEntry hg fun e he hname => hno e ⟨he, hname⟩
  have hidx : ∀ temp, s.idx temp = w.conf.idx temp := fun temp => by
    unfold Conf.idx
    rw [hbuckets]
  have hent : Entered w ws ds (Function.update (Function.update ds none l)
      (some (w.conf.idx temp)) (d :: ds (some (w.conf.idx temp)))) temp d s := by
    refine ⟨hno, fun b => ?_, hwd, hoff, hname, hnaddrs, hother, hctx, hidx, htop⟩
    by_cases hb : b = w.conf.idx temp
    · subst hb
      rw [Function.update_self, if_pos rfl]
    · rw [update_update_some _ _ hb, if_neg hb]
  refine ⟨_, hent, htable, ?_, fun temp' => ?_⟩
  · show ∀ e c, c ∈ ws (some e) → (s.ctx c).h.isSome ∧ (s.ctx c).data.isSome
    rw [hctx]
    exact hw.handlers
  · show (Function.update w.live temp (some (w.adds, [])) temp').isSome ↔ ∃ e, Entry s _ temp' e
    simp only [hent.entry]
    by_cases he : temp' = temp
    · subst he
      rw [Function.update_self]
      exact ⟨fun _ => ⟨d, .inl ⟨rfl, rfl⟩⟩, fun _ => rfl⟩
    · rw [Function.update_of_ne he, hw.live]
      refine exists_congr fun e => ⟨.inr, fun h => h.resolve_left fun h => he h.1⟩

/-- A caller is put on the list of an entry. -/
theorem Shape.wait (hw : Shape w ws ds) {pcalloc : Bool} {temp : List UInt8} {d c : Nat}
    {s : Conf η δ} (hd : Entry w.conf ds temp d) (hg : getCtx w.conf pcalloc = (some c, s)) (h : η)
    (data : δ) :
    ∃ l, (∀ i, c ∉ ws (some i)) ∧ s.dom = w.conf.dom ∧
      (∀ e, e ≠ c → (pushCtx s d c h data).ctx e = w.conf.ctx e) ∧
      s.nallocDomain = w.conf.nallocDomain ∧ (∀ temp, s.idx temp = w.conf.idx temp) ∧
      Shape { w with conf := pushCtx s d c h data }
        (Function.update (Function.update ws none l) (some d) (c :: ws (some d))) ds := by
  obtain ⟨l, htable, hdom, hctx, htop, hbuckets⟩ := hw.table.getCtx hg
  have hfree : d ∉ ds none := fun hf => by
    cases hw.table.doms.chains.disjoint none _ d hf hd.1
  have hlt : d < s.nallocDomain := by
    rw [htop]
    exact hw.table.doms.lt _ d hd.1
  have hc : ∀ i, c ∉ ws (some i) := fun i hi => by
    have := (htable.ctxs.off c List.mem_cons_self).2 (some i)
    rw [Function.update_of_ne (by simp)] at this
    exact this hi
  have hother : ∀ e, e ≠ c → (pushCtx s d c h data).ctx e = w.conf.ctx e := fun e he => by
    show Function.update s.ctx c _ e = _
    rw [Function.update_of_ne he, hctx, Function.update_of_ne he]
  have hidx : ∀ temp, s.idx temp = w.conf.idx temp := fun temp => by
    unfold Conf.idx
    rw [hbuckets]
  have hpush := htable.pushCtx h data hfree hlt
  rw [Function.update_of_ne (by simp : some d ≠ none)] at hpush
  refine ⟨l, hc, hdom, hother, htop, hidx, hpush, fun e c' hc' => ?_, fun temp' => ?_⟩
  · by_cases hcc : c' = c
    · subst hcc
      have hself : (pushCtx s d c' h data).ctx c' = ⟨some h, some data, (s.dom d).ctx⟩ :=
        Function.update_self _ _ _
      show ((pushCtx s d c' h data).ctx c').h.isSome ∧ _
      rw [hself]
      exact ⟨rfl, rfl⟩
    · show ((pushCtx s d c h data).ctx c').h.isSome ∧ ((pushCtx s d c h data).ctx c').data.isSome
      rw [hother c' hcc]
      exact hw.handlers e c' ((mem_pushed.mp hc').resolve_left fun h => hcc h.1)
  · refine (hw.live temp').trans (exists_congr fun e => ?_)
    have hname : ((pushCtx s d c h data).dom e).domain = (w.conf.dom e).domain := by
      by_cases hed : e = d
      · subst hed
        simp [pushCtx, Conf.setDom, hdom]
      · simp [pushCtx, Conf.setDom, Conf.setCtx, hed, hdom]
    show Entry w.conf ds temp' e ↔ e ∈ ds (some (s.idx temp')) ∧
      ((pushCtx s d c h data).dom e).domain = temp'
    rw [hname, hidx]
    rfl

end

end NgxToolkit.DynamicResolver
