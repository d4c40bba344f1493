import Mathlib.Data.List.Nodup
import Mathlib.Tactic.Common
import NgxToolkit.DynamicResolverMoves

/-! Runs of the dynamic resolver: its searches and its callbacks.

* `reach_searches`: in every reachable state the four searches for a name end
  and agree with the record of the names, if and only if the bucket of the name
  is empty or begins with its entry.
* `started_once`: as long as every start call comes to an answer, each is called
  back once or waits for a query or a running function to do so. -/

namespace NgxToolkit.DynamicResolver

open Lib

variable {η δ : Type}

/-! ## Searches -/

/-- The four searches for `temp` end and find `r`. -/
def Agree (s : Conf η δ) (temp : List UInt8) (r : Option Nat) : Prop :=
  (∃ fuel, addSearch s temp fuel = some r) ∧ (∃ fuel, hostSearch s temp fuel = some r) ∧
    (∃ fuel, startSearch s temp fuel = some r) ∧
    ∃ fuel p, delSearch s temp fuel = some p ∧ p.map (·.2) = r

section
variable {w : World η δ} {ws ds : Option Nat → List Nat}

theorem Shape.agree (hw : Shape w ws ds) {temp : List UInt8} (h : HeadNamed w.conf temp) :
    ∃ r, Agree w.conf temp r ∧ (r.isSome ↔ (w.live temp).isSome) := by
  obtain ⟨fuel, r, hr⟩ := startSearch_ends.mpr h
  have hfind := hw.table.startSearch_eq hr
  have hadd := hw.table.addSearch_eq temp (Nat.le_refl _)
  have hhost := hw.table.hostSearch_eq temp (Nat.le_refl _)
  rw [← hfind] at hadd hhost
  refine ⟨r, ⟨⟨_, hadd⟩, ⟨_, hhost⟩, ⟨fuel, hr⟩, w.conf.nallocDomain, ?_⟩, ?_⟩
  · rcases hw.table.delSearch_eq temp (Nat.le_refl _) with ⟨hno, hl⟩ | ⟨l₁, d, l₂, hb, hd, hl⟩
    · refine ⟨none, hl, ?_⟩
      rw [hfind, hw.table.find?_eq_none.mpr hno]
      rfl
    · refine ⟨some (l₁.getLast?, d), hl, ?_⟩
      rw [hfind, hw.table.find?_eq_some.mpr hd]
      rfl
  · rw [hw.live, hfind, Option.isSome_iff_exists]
    exact exists_congr fun d => hw.table.find?_eq_some

end

/-- No condition at all. -/
def Rules.free : Rules η δ := ⟨True, fun _ => True, fun _ _ => True⟩

theorem Rules.free_allow (pton : List UInt8 → Nat) (w : World η δ) (l : Label η δ) :
    Rules.free.allow pton w l := by
  cases l with
  | start domain h data pcallocDomain pcallocCtx rand => exact .inr trivial
  | reply q rep => exact ⟨trivial, trivial⟩
  | run rand => exact fun _ _ _ _ _ => trivial
  | _ => trivial

section
variable {pton : List UInt8 → Nat} {refreshInterval domainBuckets : Nat} {hashed : Bool}

theorem reach_sound {w : World η δ}
    (hw : (machine pton refreshInterval domainBuckets hashed).Reach w) :
    ∃ ws ds, Sound w ws ds := by
  have hP : Closed (Rules.free (η := η) (δ := δ)) fun _ _ _ => True := fun _ _ _ => trivial
  obtain ⟨ws, ds, hs, -⟩ := hP.reach trivial (fun w l _ => Rules.free_allow pton w l) hw
  exact ⟨ws, ds, hs⟩

/-- **Searches.**  In every reachable state and for every text, the four searches
end, find the same, and find an entry exactly if the name is in the table: if
and only if the bucket is empty or begins with the entry. -/
theorem reach_searches {w : World η δ}
    (hw : (machine pton refreshInterval domainBuckets hashed).Reach w) (domain : List UInt8) :
    (∃ r, Agree w.conf (strlow domain) r ∧ (r.isSome ↔ (w.live (strlow domain)).isSome)) ↔
      HeadNamed w.conf (strlow domain) := by
  obtain ⟨ws, ds, hs⟩ := reach_sound hw
  constructor
  · rintro ⟨r, ⟨-, -, ⟨fuel, hr⟩, -⟩, -⟩
    exact startSearch_ends.mp ⟨fuel, r, hr⟩
  · exact hs.shape.agree

/-- The query for `a` fails, and its handler starts `b`, which has another bucket. -/
theorem reach_searches_two : ∃ w : World Unit Unit,
    (machine (fun _ => 0) 60 2 true).Reach w ∧ w.stack.length = 1 ∧ w.user = true ∧
      ∀ domain ∈ [[65], [66]], (w.live (strlow domain)).isSome ∧
        ∃ r, Agree w.conf (strlow domain) r ∧ (r.isSome ↔ (w.live (strlow domain)).isSome) := by
  obtain ⟨w, hrun, hstack, huser, hall⟩ : ∃ w : World Unit Unit,
      (machine (fun _ => 0) 60 2 true).run (machine (fun _ => 0) 60 2 true).start
        [.start (some [97]) () () true true 0, .reply ⟨0, [97], some 0⟩ [], .run 0,
          .start (some [98]) () () true true 0] = some w ∧
      w.stack.length = 1 ∧ w.user = true ∧
      ∀ domain ∈ [[65], [66]], (w.live (strlow domain)).isSome ∧
        (w.conf.resolverHash (w.conf.idx (strlow domain))).map (fun d => (w.conf.dom d).domain) =
          some (strlow domain) :=
    ⟨_, rfl, by decide⟩
  have hr := (machine (fun _ => 0) 60 2 true).reach_run _ hrun
  refine ⟨w, hr, hstack, huser, fun domain hdomain => ?_⟩
  obtain ⟨hlive, hhead⟩ := hall domain hdomain
  refine ⟨hlive, (reach_searches hr domain).mpr fun d hd => ?_⟩
  rw [hd, Option.map_some] at hhead
  exact Option.some.inj hhead

/-- Two names share a bucket: the search of `ngx_dynamic_resolver_start_resolver`
for the one behind does not end. -/
theorem search_hangs :
    ¬ ∀ (w : World Unit Unit), (machine (fun _ => 0) 60 1 true).Reach w →
      ∀ domain : List UInt8, domain ≠ [] → domain.length ≤ maxDomainLen →
        ∃ r, Agree w.conf (strlow domain) r ∧ (r.isSome ↔ (w.live (strlow domain)).isSome) := by
  intro hall
  have hr := (machine (η := Unit) (δ := Unit) (fun _ => 0) 60 1 true).reach_run
    [.add (some [97]) true, .add (some [98]) true] rfl
  obtain ⟨r, ⟨-, -, ⟨fuel, hf⟩, -⟩, -⟩ := hall _ hr [97] (by decide) (by decide)
  have hname := startSearch_ends.mp ⟨fuel, r, hf⟩ 1 rfl
  exact absurd hname (by decide)

end

/-! ## Callbacks -/

/-- A waiter of `d` will be called: by the answer to a query in flight or by a
function that is calling the waiters of `d`. -/
def World.Served (w : World η δ) (d : Nat) : Prop :=
  (∃ q ∈ w.queries, q.dom = d ∧ q.name = (w.conf.dom d).domain) ∨ ∃ f ∈ w.stack, f.drains = some d

/-- The start call `k` waits on the record `d`. -/
def World.Waits (w : World η δ) (d k : Nat) : Prop :=
  ∃ l, Linked w.conf.ctxNext (w.conf.dom d).ctx l ∧ ∃ c ∈ l, w.owner c = k ∧
    ∃ st, w.started[k]? = some st ∧ (w.conf.ctx c).h = some st.h ∧ (w.conf.ctx c).data = some st.data

/-- Each user call is that of a start call, with its handler and data; no start
call has two, and one that has none waits and will be called. -/
structure Lawful (w : World η δ) : Prop where
  calls : ∀ k ∈ w.called, ∃ st, w.started[k.start]? = some st ∧ k.h = st.h ∧ k.data = st.data
  once : (w.called.map Call.start).Nodup
  waits : ∀ k < w.started.length, k ∉ w.called.map Call.start → ∃ d, w.Waits d k ∧ w.Served d

structure Once (w : World η δ) (ws : Option Nat → List Nat) : Prop where
  calls : ∀ k ∈ w.called, ∃ st, w.started[k.start]? = some st ∧ k.h = st.h ∧ k.data = st.data
  once : (w.called.map Call.start).Nodup
  waits : ∀ d c, c ∈ ws (some d) → w.owner c ∉ w.called.map Call.start ∧
    ∃ st, w.started[w.owner c]? = some st ∧ (w.conf.ctx c).h = some st.h ∧
      (w.conf.ctx c).data = some st.data
  apart : ∀ d d' c c', c ∈ ws (some d) → c' ∈ ws (some d') → w.owner c = w.owner c' → c = c'
  all : ∀ k < w.started.length, k ∈ w.called.map Call.start ∨ ∃ d c, c ∈ ws (some d) ∧ w.owner c = k
  served : ∀ d, ws (some d) ≠ [] → w.Served d

section
variable {w w' : World η δ} {ws ws' ds : Option Nat → List Nat}

theorem Once.lawful (h : Once w ws) (hs : Shape w ws ds) : Lawful w := by
  refine ⟨h.calls, h.once, fun k hk hno => ?_⟩
  obtain ⟨d, c, hc, rfl⟩ := (h.all k hk).resolve_left hno
  obtain ⟨-, st, hst, hh, hdata⟩ := h.waits d c hc
  refine ⟨d, ⟨ws (some d), hs.table.ctxs.chains.linked (some d), c, hc, rfl, st, hst, hh, hdata⟩,
    h.served d fun hnil => ?_⟩
  rw [hnil] at hc
  cases hc

/-- A move that calls nobody and starts nothing. -/
theorem Once.congr (h : Once w ws) (hcalled : w'.called = w.called)
    (hstarted : w'.started = w.started) (howner : w'.owner = w.owner)
    (hws : ∀ d, ws' (some d) = ws (some d))
    (hctx : ∀ c, (w'.conf.ctx c).h = (w.conf.ctx c).h ∧ (w'.conf.ctx c).data = (w.conf.ctx c).data)
    (hserved : ∀ d, ws (some d) ≠ [] → w.Served d → w'.Served d) : Once w' ws' := by
  refine ⟨?_, ?_, fun d c hc => ?_, fun d d' c c' hc hc' => ?_, ?_, fun d hd => ?_⟩
  · rw [hcalled, hstarted]
    exact h.calls
  · rw [hcalled]
    exact h.once
  · rw [hws] at hc
    rw [hcalled, hstarted, howner, (hctx c).1, (hctx c).2]
    exact h.waits d c hc
  · rw [hws] at hc hc'
    rw [howner]
    exact h.apart d d' c c' hc hc'
  · rw [hcalled, hstarted, howner]
    simp only [hws]
    exact h.all
  · rw [hws] at hd
    exact hserved d hd (h.served d hd)

theorem Served.congr {d : Nat} (h : w.Served d) (hqueries : ∀ q ∈ w.queries, q ∈ w'.queries)
    (hname : (w'.conf.dom d).domain = (w.conf.dom d).domain)
    (hstack : ∀ f ∈ w.stack, f.drains = some d → ∃ f' ∈ w'.stack, f'.drains = some d) :
    w'.Served d := by
  refine h.imp (fun ⟨q, hq, hd, hn⟩ => ⟨q, hqueries q hq, hd, ?_⟩) fun ⟨f, hf, hd⟩ => hstack f hf hd
  rw [hname]
  exact hn

/-- Every call made is one of a start call. -/
theorem Once.called_lt (h : Once w ws) {k : Nat} (hk : k ∈ w.called.map Call.start) :
    k < w.started.length := by
  obtain ⟨x, hx, rfl⟩ := List.mem_map.mp hk
  obtain ⟨st, hst, -⟩ := h.calls x hx
  exact (List.getElem?_eq_some_iff.mp hst).1

theorem Once.owner_lt (h : Once w ws) {d c : Nat} (hc : c ∈ ws (some d)) :
    w.owner c < w.started.length := by
  obtain ⟨-, st, hst, -⟩ := h.waits d c hc
  exact (List.getElem?_eq_some_iff.mp hst).1

/-- A start call that calls `h`. -/
theorem Once.direct (h : Once w ws) (hd : η) (data : δ) (arg : Arg) :
    Once (w.direct hd data arg) ws := by
  have hold := getElem?_started w ⟨hd, data, none⟩
  have hlast : (w.started ++ [⟨hd, data, none⟩])[w.started.length]? = some ⟨hd, data, none⟩ :=
    List.getElem?_concat_length
  refine ⟨fun k hk => ?_, ?_, fun d c hc => ?_, h.apart, fun k hk => ?_, fun d hws => ?_⟩
  · rcases List.mem_cons.mp hk with rfl | hk
    · exact ⟨_, hlast, rfl, rfl⟩
    · obtain ⟨st, hst, heq⟩ := h.calls k hk
      exact ⟨st, hold _ _ hst, heq⟩
  · exact List.nodup_cons.mpr ⟨fun hm => Nat.lt_irrefl _ (h.called_lt hm), h.once⟩
  · obtain ⟨hno, st, hst, heq⟩ := h.waits d c hc
    refine ⟨fun hm => ?_, st, hold _ _ hst, heq⟩
    rcases List.mem_cons.mp hm with hm | hm
    · have hlt := h.owner_lt hc
      exact Nat.ne_of_lt hlt hm
    · exact hno hm
  · have hlen : (w.direct hd data arg).started.length = w.started.length + 1 := List.length_append
    rw [hlen] at hk
    rcases Nat.lt_succ_iff_lt_or_eq.mp hk with hk | rfl
    · exact (h.all k hk).imp_left (List.mem_cons_of_mem _)
    · exact .inl List.mem_cons_self
  · exact Served.congr (h.served d hws) (fun q hq => hq) rfl
      fun f hf hfd => ⟨f, List.mem_cons_of_mem _ hf, hfd⟩

theorem pushCtx_name (s : Conf η δ) (d c : Nat) (h : η) (data : δ) (e : Nat) :
    ((pushCtx s d c h data).dom e).domain = (s.dom e).domain :=
  Conf.setDom_domain (s.setCtx c ⟨some h, some data, (s.dom d).ctx⟩) (by rfl) e

/-- A start call that waits. -/
theorem Once.wait (h : Once w ws) {d c : Nat} {s : Conf η δ} {l : List Nat} (hd : η) (data : δ)
    (hc : ∀ i, c ∉ ws (some i)) (hdom : s.dom = w.conf.dom)
    (hctx : ∀ e, e ≠ c → (pushCtx s d c hd data).ctx e = w.conf.ctx e) :
    Once
      (World.issue { w with
        conf := pushCtx s d c hd data
        owner := Function.update w.owner c w.started.length
        started := w.started ++ [⟨hd, data, some (w.inc d)⟩] } d)
      (Function.update (Function.update ws none l) (some d) (c :: ws (some d))) := by
  have hold := getElem?_started w ⟨hd, data, some (w.inc d)⟩
  have hlast : (w.started ++ [⟨hd, data, some (w.inc d)⟩])[w.started.length]? =
      some ⟨hd, data, some (w.inc d)⟩ := List.getElem?_concat_length
  have hself : Function.update w.owner c w.started.length c = w.started.length :=
    Function.update_self _ _ _
  have hother : ∀ {e c' : Nat}, c' ∈ ws (some e) →
      c' ≠ c ∧ Function.update w.owner c w.started.length c' = w.owner c' := fun {e c'} hc' => by
    have hne : c' ≠ c := fun he => hc e (he ▸ hc')
    exact ⟨hne, Function.update_of_ne hne _ _⟩
  refine ⟨fun k hk => ?_, h.once, fun e c' hc' => ?_, fun e e' c₁ c₂ h₁ h₂ heq => ?_, fun k hk => ?_,
    fun e he => ?_⟩
  · obtain ⟨st, hst, heq⟩ := h.calls k hk
    exact ⟨st, hold _ _ hst, heq⟩
  · show Function.update w.owner c w.started.length c' ∉ w.called.map Call.start ∧
      ∃ st, (w.started ++ [_])[Function.update w.owner c w.started.length c']? = some st ∧
        ((pushCtx s d c hd data).ctx c').h = some st.h ∧
        ((pushCtx s d c hd data).ctx c').data = some st.data
    rcases mem_pushed.mp hc' with ⟨rfl, -⟩ | hc'
    · rw [hself]
      have hctx' : (pushCtx s d c' hd data).ctx c' = ⟨some hd, some data, (s.dom d).ctx⟩ :=
        Function.update_self _ _ _
      rw [hctx']
      exact ⟨fun hm => Nat.lt_irrefl _ (h.called_lt hm), _, hlast, rfl, rfl⟩
    · obtain ⟨hne, howner⟩ := hother hc'
      obtain ⟨hno, st, hst, heq⟩ := h.waits e c' hc'
      rw [howner, hctx c' hne]
      exact ⟨hno, st, hold _ _ hst, heq⟩
  · change Function.update w.owner c w.started.length c₁ =
      Function.update w.owner c w.started.length c₂ at heq
    rcases mem_pushed.mp h₁ with ⟨h₁, -⟩ | m₁ <;> rcases mem_pushed.mp h₂ with ⟨h₂, -⟩ | m₂
    · rw [h₁, h₂]
    · rw [h₁, hself, (hother m₂).2] at heq
      exact absurd heq.symm (Nat.ne_of_lt (h.owner_lt m₂))
    · rw [h₂, hself, (hother m₁).2] at heq
      exact absurd heq (Nat.ne_of_lt (h.owner_lt m₁))
    · rw [(hother m₁).2, (hother m₂).2] at heq
      exact h.apart e e' c₁ c₂ m₁ m₂ heq
  · have hlen : (w.started ++ [⟨hd, data, some (w.inc d)⟩] : List (Start η δ)).length =
        w.started.length + 1 := List.length_append
    change k < (w.started ++ [⟨hd, data, some (w.inc d)⟩] : List (Start η δ)).length at hk
    rw [hlen] at hk
    rcases Nat.lt_succ_iff_lt_or_eq.mp hk with hk | rfl
    · refine (h.all k hk).imp_right ?_
      rintro ⟨e, c', hc', rfl⟩
      exact ⟨e, c', mem_pushed.mpr (.inr hc'), (hother hc').2⟩
    · exact .inr ⟨d, c, mem_pushed.mpr (.inl ⟨rfl, rfl⟩), hself⟩
  · by_cases hed : e = d
    · subst hed
      exact .inl ⟨_, List.mem_cons_self, rfl, rfl⟩
    · rw [update_update_some _ _ hed] at he
      refine Served.congr (h.served e he) (fun q hq => List.mem_cons_of_mem _ hq) ?_
        fun f hf hfd => ⟨f, hf, hfd⟩
      show ((pushCtx s d c hd data).dom e).domain = _
      rw [pushCtx_name, hdom]

theorem Frame.Alike.drains_mem {f f' g : Frame} {st : List Frame} {d : Nat} (h : f.Alike f')
    (hstack : w.stack = f :: st) (hg : g ∈ w.stack) (hgd : g.drains = some d) :
    ∃ g' ∈ f' :: st, g'.drains = some d := by
  rw [hstack] at hg
  rcases List.mem_cons.mp hg with rfl | hg
  · exact ⟨f', List.mem_cons_self, h.drains.trans hgd⟩
  · exact ⟨g, List.mem_cons_of_mem _ hg, hgd⟩

/-- The call of a waiter's handler. -/
theorem Once.invoke (h : Once w ws) (hs : Shape w ws ds) {f f' : Frame} {st : List Frame}
    {d c : Nat} {l : List Nat} {hd : η} {data : δ} (arg : Arg) (hstack : w.stack = f :: st)
    (halike : f.Alike f') (hl : ws (some d) = c :: l) (hh : (w.conf.ctx c).h = some hd)
    (hdata : (w.conf.ctx c).data = some data) :
    Once { w with
      conf := w.conf.setDom d { w.conf.dom d with ctx := (w.conf.ctx c).next }
      stack := f' :: st
      called := ⟨w.owner c, hd, data, arg, f.reply⟩ :: w.called } (Function.update ws (some d) l) := by
  have hc : c ∈ ws (some d) := by
    rw [hl]
    exact List.mem_cons_self
  have hnodup := hs.table.ctxs.chains.nodup (some d)
  rw [hl, List.nodup_cons] at hnodup
  have hsub : ∀ {e c' : Nat}, c' ∈ Function.update ws (some d) l (some e) →
      c' ∈ ws (some e) ∧ c' ≠ c := fun {e c'} hc' => by
    have hmem : c' ∈ ws (some e) := mem_update_of_sub (fun a ha => by
      rw [hl]
      exact List.mem_cons_of_mem _ ha) hc'
    refine ⟨hmem, fun hcc => ?_⟩
    subst hcc
    cases hs.table.ctxs.chains.disjoint (some e) (some d) c' hmem hc
    rw [Function.update_self] at hc'
    exact hnodup.1 hc'
  obtain ⟨hno, st', hst', hh', hdata'⟩ := h.waits d c hc
  rw [hh] at hh'
  rw [hdata] at hdata'
  refine ⟨fun k hk => ?_, List.nodup_cons.mpr ⟨hno, h.once⟩, fun e c' hc' => ?_,
    fun e e' c₁ c₂ h₁ h₂ => h.apart e e' c₁ c₂ (hsub h₁).1 (hsub h₂).1, fun k hk => ?_,
    fun e he => ?_⟩
  · rcases List.mem_cons.mp hk with rfl | hk
    · exact ⟨st', hst', Option.some.inj hh', Option.some.inj hdata'⟩
    · exact h.calls k hk
  · obtain ⟨hmem, hne⟩ := hsub hc'
    obtain ⟨hno', hrest⟩ := h.waits e c' hmem
    refine ⟨fun hm => ?_, hrest⟩
    rcases List.mem_cons.mp hm with hm | hm
    · exact hne (h.apart e d c' c hmem hc hm)
    · exact hno' hm
  · rcases h.all k hk with hk | ⟨e, c', hc', rfl⟩
    · exact .inl (List.mem_cons_of_mem _ hk)
    · by_cases hcc : c' = c
      · subst hcc
        exact .inl List.mem_cons_self
      · refine .inr ⟨e, c', ?_, rfl⟩
        by_cases hed : e = d
        · subst hed
          rw [hl] at hc'
          rw [Function.update_self]
          exact (List.mem_cons.mp hc').resolve_left hcc
        · rwa [Function.update_of_ne (by simpa using hed)]
  · have hne : ws (some e) ≠ [] := fun hnil => by
      obtain ⟨c', hc'⟩ := List.exists_mem_of_ne_nil _ he
      have := (hsub hc').1
      rw [hnil] at this
      cases this
    refine Served.congr (h.served e hne) (fun q hq => hq) ?_ fun g => halike.drains_mem hstack
    exact w.conf.setDom_domain (by rfl) e

theorem putCtx_handler (s : Conf η δ) (c e : Nat) :
    ((putCtx s c).ctx e).h = (s.ctx e).h ∧ ((putCtx s c).ctx e).data = (s.ctx e).data := by
  by_cases he : e = c
  · subst he
    simp [putCtx, Conf.setCtx]
  · simp [putCtx, Conf.setCtx, he]

theorem putDomain_name (s : Conf η δ) (d e : Nat) :
    ((putDomain s d).dom e).domain = (s.dom e).domain :=
  s.setDom_domain (x := { s.dom d with next := s.freeDomain }) rfl e

/-- The delivery of an answer: the waiters of its record will be called. -/
theorem Once.reply (h : Once w ws) (q : Query) (rep : List Addr) :
    Once ((World.answer { w with fresh := none, queries := w.queries.erase q } q rep).onResult q rep)
      ws := by
  have hserved : ∀ {w' : World η δ} {f : Frame}, w'.queries = w.queries.erase q →
      w'.stack = f :: w.stack → f.drains = some q.dom →
      (∀ e, (w'.conf.dom e).domain = (w.conf.dom e).domain) →
      ∀ d, w.Served d → w'.Served d := by
    intro w' f hqueries hstack hdrains hname d hd
    rcases hd with ⟨q', hq', hqd, hqn⟩ | ⟨g, hg, hgd⟩
    · by_cases hqq : q' = q
      · subst hqq
        exact .inr ⟨f, by rw [hstack]; exact List.mem_cons_self, hqd ▸ hdrains⟩
      · refine .inl ⟨q', ?_, hqd, by rw [hname]; exact hqn⟩
        rw [hqueries]
        exact (List.mem_erase_of_ne hqq).mpr hq'
    · exact .inr ⟨g, by rw [hstack]; exact List.mem_cons_of_mem _ hg, hgd⟩
  obtain ⟨live, heq⟩ :=
    World.answer_eq { w with fresh := none, queries := w.queries.erase q } q rep
  rw [heq]
  unfold World.onResult
  split
  · refine h.congr rfl rfl rfl (fun _ => rfl) (fun _ => ⟨rfl, rfl⟩) fun d _ => ?_
    apply hserved (f := .fail q none) <;> intros <;> rfl
  · refine h.congr rfl rfl rfl (fun _ => rfl) (fun _ => ⟨rfl, rfl⟩) fun d _ => ?_
    apply hserved (f := .store q rep 0)
    · rfl
    · rfl
    · rfl
    · exact w.conf.setDom_domain (by rfl)

/-- Every start call comes to an answer. -/
def Rules.answering : Rules η δ := ⟨False, fun _ => True, fun _ _ => True⟩

theorem Once.closed : Closed (η := η) (δ := δ) Rules.answering fun w ws _ => Once w ws := by
  intro w w' ws ds ws' ds' hw h hm
  cases hm with
  | fresh => exact ⟨h.calls, h.once, h.waits, h.apart, h.all, h.served⟩
  | crash e => exact ⟨h.calls, h.once, h.waits, h.apart, h.all, h.served⟩
  | lost hd data huser hlost => exact hlost.elim
  | direct hd data arg huser => exact h.direct hd data arg
  | gone huser hno => exact ⟨h.calls, h.once, h.waits, h.apart, h.all, h.served⟩
  | @enter _ temp d s huser hent hshape =>
    refine h.congr rfl rfl rfl (fun _ => rfl) (fun c => ?_) fun e he hs => ?_
    · show (s.ctx c).h = _ ∧ (s.ctx c).data = _
      rw [hent.ctx]
      exact ⟨rfl, rfl⟩
    · have hed : e ≠ d := fun hed => he (hed ▸ hent.waiters)
      refine Served.congr hs (fun q hq => hq) ?_ fun f hf hfd => ⟨f, hf, hfd⟩
      exact congrArg Domain.domain (hent.other e hed)
  | wait hd data huser hent hnaddrs hc hdom hctx hidx hshape => exact h.wait hd data hc hdom hctx
  | @unlink temp d l₁ l₂ huser hfresh hb hd =>
    refine h.congr rfl rfl rfl (fun _ => rfl) (fun c => ?_) fun e _ hs => ?_
    · show ((w.conf.unlink _ _ d).ctx c).h = _ ∧ ((w.conf.unlink _ _ d).ctx c).data = _
      rw [unlink_ctx]
      exact ⟨rfl, rfl⟩
    · exact Served.congr hs (fun q hq => hq) (unlink_domain _ _ _ _ _).1
        fun f hf hfd => ⟨f, List.mem_cons_of_mem _ hf, hfd⟩
  | timer p hstack hfresh =>
    refine h.congr rfl rfl rfl (fun _ => rfl) (fun _ => ⟨rfl, rfl⟩) fun e _ hs => ?_
    refine Served.congr hs (fun q hq => hq) rfl fun f hf _ => ?_
    rw [hstack] at hf
    cases hf
  | issue hstack =>
    refine h.congr rfl rfl rfl (fun _ => rfl) (fun _ => ⟨rfl, rfl⟩) fun e _ hs => ?_
    refine Served.congr hs (fun q hq => List.mem_cons_of_mem _ hq) rfl fun f hf hfd => ?_
    rw [hstack, List.mem_singleton] at hf
    subst hf
    cases hfd
  | ended hstack hcalls hholds hdrains hstored =>
    refine h.congr rfl rfl rfl (fun _ => rfl) (fun _ => ⟨rfl, rfl⟩) fun e he hs => ?_
    refine Served.congr hs (fun q hq => hq) rfl fun g hg hgd => ?_
    rw [hstack] at hg
    rcases List.mem_cons.mp hg with rfl | hg
    · exact absurd (hdrains e hgd) he
    · exact ⟨g, hg, hgd⟩
  | turned hstack hcalls hcalls' halike hfresh hloop =>
    refine h.congr rfl rfl rfl (fun _ => rfl) (fun _ => ⟨rfl, rfl⟩) fun e _ hs => ?_
    exact Served.congr hs (fun q hq => hq) rfl fun g => halike.drains_mem hstack
  | invoke arg hstack hcalls hcalls' halike hdrains hgoes hl hh hdata hshape =>
    exact h.invoke hw.shape arg hstack halike hl hh hdata
  | giveBack hstack hcalls hcalls' halike hfresh hloop =>
    refine h.congr rfl rfl rfl (fun _ => Function.update_of_ne (by simp) _ _)
      (fun e => putCtx_handler _ _ e) fun e _ hs => ?_
    exact Served.congr hs (fun q hq => hq) rfl fun g => halike.drains_mem hstack
  | @freed d st hstack hd =>
    refine h.congr rfl rfl rfl (fun _ => rfl) (fun _ => ⟨rfl, rfl⟩) fun e he hs => ?_
    refine Served.congr hs (fun q hq => hq) (putDomain_name _ _ _) fun g hg hgd => ?_
    rw [hstack] at hg
    rcases List.mem_cons.mp hg with rfl | hg
    · cases hgd
      exact absurd hd he
    · exact ⟨g, hg, hgd⟩
  | reply hq hwhen hgoes hfits => exact h.reply _ _
  | @store q rep i n a st hstack hi ha hgoes hfresh =>
    refine h.congr rfl rfl rfl (fun _ => rfl) (fun _ => ⟨rfl, rfl⟩) fun e _ hs => ?_
    refine Served.congr hs (fun q hq => hq) (w.conf.setDom_domain (by rfl) e) fun g hg hgd => ?_
    rw [hstack] at hg
    rcases List.mem_cons.mp hg with rfl | hg
    · exact ⟨_, List.mem_cons_self, hgd⟩
    · exact ⟨g, List.mem_cons_of_mem _ hg, hgd⟩

end

/-! ## Runs -/

/-- Every start call comes to an answer. -/
def Answering (pton : List UInt8 → Nat) (w : World η δ) : Label η δ → Prop
  | .start domain _ _ _ _ _ => w.Answers pton domain
  | _ => True

theorem answering_allow {pton : List UInt8 → Nat} {w : World η δ} {l : Label η δ}
    (h : Answering pton w l) : Rules.answering.allow pton w l := by
  cases l with
  | start domain hd data pcallocDomain pcallocCtx rand => exact .inl h
  | reply q rep => exact ⟨trivial, trivial⟩
  | run rand => exact fun _ _ _ _ _ => trivial
  | _ => trivial

/-- A start call that comes to no answer does nothing but return or hang. -/
theorem World.start_lost {pton : List UInt8 → Nat} {w : World η δ} {domain : Option (List UInt8)}
    (hno : ¬ w.Answers pton domain) (h : η) (data : δ) (pcallocDomain pcallocCtx : Bool)
    (rand : Nat) :
    ∃ e, w.start pton domain h data pcallocDomain pcallocCtx rand =
      { w with started := w.started ++ [⟨h, data, none⟩], fault := e } := by
  unfold World.start
  split
  · exact ⟨_, rfl⟩
  · exact ⟨_, rfl⟩
  · next text hne =>
    have hbad : ¬ (pton text = 0 → w.conf.refreshInterval ≠ 0 → text.length ≤ maxDomainLen →
        w.conf.hashFault = none ∧ HeadNamed w.conf (strlow text)) := fun hgood =>
      hno ⟨text, rfl, fun hnil => hne (by rw [hnil]), hgood⟩
    rw [Classical.not_imp, Classical.not_imp, Classical.not_imp] at hbad
    obtain ⟨hpton, hrefresh, hlen, hbad⟩ := hbad
    rw [if_neg (not_not.mpr hpton), if_neg (not_or.mpr ⟨hrefresh, Nat.not_lt.mpr hlen⟩)]
    split
    · exact ⟨_, rfl⟩
    · next hf =>
      have hs : startSearch w.conf (strlow text) w.conf.nallocDomain = none := by
        rw [Option.eq_none_iff_forall_ne_some]
        intro r hr
        exact hbad ⟨hf, startSearch_ends.mp ⟨_, r, hr⟩⟩
      dsimp only
      rw [hs]
      exact ⟨_, rfl⟩

section
variable {pton : List UInt8 → Nat} {refreshInterval domainBuckets : Nat} {hashed : Bool}

/-- **Callbacks.**  While every start call comes to an answer, each one is
called back exactly once or waits and will be; a start call that does not come
to an answer is never called back. -/
theorem started_once {w : World η δ}
    (hw : (machine pton refreshInterval domainBuckets hashed).ReachIf (Answering pton) w) :
    Lawful w ∧ ∀ domain h data pcallocDomain pcallocCtx rand w',
      w.step pton (.start domain h data pcallocDomain pcallocCtx rand) = some w' →
        (Lawful w' ↔ w.Answers pton domain) := by
  have hkept : ∀ {v : World η δ},
      (machine pton refreshInterval domainBuckets hashed).ReachIf (Answering pton) v →
        Kept (fun w ws _ => Once w ws) v := fun {v} hv => by
    refine Once.closed.reach ⟨?_, List.nodup_nil, ?_, ?_, ?_, fun d hd => absurd rfl hd⟩
      (fun w l => answering_allow) hv
    · intro k hk
      cases hk
    · intro d c hc
      cases hc
    · intro d d' c c' hc
      cases hc
    · intro k hk
      cases hk
  have hlawful : ∀ {v : World η δ},
      (machine pton refreshInterval domainBuckets hashed).ReachIf (Answering pton) v → Lawful v :=
    fun {v} hv => by
      obtain ⟨ws, ds, hs, ho⟩ := hkept hv
      exact ho.lawful hs.shape
  refine ⟨hlawful hw, fun domain h data a b rand w' hst => ⟨fun hl => ?_, fun ha => ?_⟩⟩
  · by_contra hno
    obtain ⟨ws, ds, hs, ho⟩ := hkept hw
    cases (World.steps_of_step hst).2
    obtain ⟨e, he⟩ := World.start_lost (w := { w with fresh := none }) hno h data a b rand
    rw [he] at hl
    -- the new start call would have to be called or to wait
    obtain ⟨d, ⟨l, hlink, c, hc, howner, -⟩, -⟩ := hl.waits w.started.length
      (by simp) fun hm => Nat.lt_irrefl _ (ho.called_lt hm)
    have hws : l = ws (some d) :=
      hlink.unique (hs.shape.table.ctxs.chains.linked (some d))
    subst hws
    exact absurd howner (Nat.ne_of_lt (ho.owner_lt hc))
  · exact hlawful (hw.step (i := .start domain h data a b rand) ha hst)

/-- A start call that waits and is answered with a failure. -/
theorem started_once_answered : ∃ w : World Unit Unit,
    (machine (fun _ => 0) 60 1 true).ReachIf (Answering fun _ => 0) w ∧ w.called.length = 1 ∧
      Lawful w := by
  have h0 : (machine (η := Unit) (δ := Unit) (fun _ => 0) 60 1 true).ReachIf
      (Answering fun _ => 0) _ := .start
  have ha : World.Answers (fun _ => 0)
      (machine (η := Unit) (δ := Unit) (fun _ => 0) 60 1 true).start (some [97]) :=
    ⟨[97], rfl, by simp, fun _ _ _ => ⟨rfl, fun d hd => by cases hd⟩⟩
  have h1 := h0.step (i := Label.start (some [97]) () () true true 0) ha rfl
  have h2 := h1.of_run [.reply ⟨0, [97], some 0⟩ [], .run 0, .ret, .run 0]
    (by simp [Answering]) rfl
  exact ⟨_, h2, rfl, (started_once h2).1⟩

/-- A start call for the empty name is never called back. -/
theorem empty_domain_unlawful :
    ¬ ∀ w : World Unit Unit, (machine (fun _ => 0) 60 1 true).Reach w → Lawful w := by
  intro hall
  have hr := (machine (η := Unit) (δ := Unit) (fun _ => 0) 60 1 true).reach_run
    [.start (some []) () () true true 0] rfl
  obtain ⟨d, ⟨l, hlink, c, hc, -⟩, -⟩ := (hall _ hr).waits 0 (by decide) (by decide)
  rw [linked_none.mp hlink] at hc
  cases hc

end

end NgxToolkit.DynamicResolver
