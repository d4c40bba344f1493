import Mathlib.Data.List.Nodup
import Mathlib.Logic.Function.Basic
import Mathlib.Tactic.Common
import NgxToolkit.DynamicResolver
import NgxToolkit.Lib.Chains

/-! The heaps of the dynamic resolver.

`Table s ws ds cs rs` says that the free contexts `ws none` and the waiting
lists `ws (some d)` are chains in one heap, the free records `ds none` and the
buckets `ds (some b)` chains in another; that records stand in the bucket of
their name, each name once; and that the contexts `cs` and the records `rs` are
on no chain (handlers that are running hold them).

Each function on the heaps has its lemma: `Table.getCtx`, `Table.putCtx`,
`Table.popCtx`, `Table.pushCtx`, `Table.getDomain`, `Table.link`,
`Table.unlink`, `Table.putDomain`.  `Table.searches` is about the four loops. -/

namespace NgxToolkit.DynamicResolver

open Lib

variable {η δ : Type}

def Conf.ctxNext (s : Conf η δ) (c : Nat) : Option Nat := (s.ctx c).next

def Conf.domNext (s : Conf η δ) (d : Nat) : Option Nat := (s.dom d).next

/-- The heads of the context lists: the free list and the waiting lists. -/
def Conf.ctxHead (s : Conf η δ) : Option Nat → Option Nat
  | none => s.freeCtx
  | some d => (s.dom d).ctx

/-- The heads of the record lists: the free list and the buckets. -/
def Conf.domHead (s : Conf η δ) : Option Nat → Option Nat
  | none => s.freeDomain
  | some b => s.resolverHash b

theorem ctxNext_update (s : Conf η δ) (c : Nat) (x : Ctx η δ) :
    (fun e => (Function.update s.ctx c x e).next) = Function.update s.ctxNext c x.next := by
  funext e
  by_cases he : e = c
  · subst he
    rw [Function.update_self, Function.update_self]
  · rw [Function.update_of_ne he, Function.update_of_ne he]
    rfl

theorem domNext_update (s : Conf η δ) (d : Nat) (x : Domain) :
    (fun e => (Function.update s.dom d x e).next) = Function.update s.domNext d x.next := by
  funext e
  by_cases he : e = d
  · subst he
    rw [Function.update_self, Function.update_self]
  · rw [Function.update_of_ne he, Function.update_of_ne he]
    rfl

/-- The heads of two configurations that differ in the first list of `d` and in
the free list. -/
theorem ctxHead_eq {s s' : Conf η δ} {i : Option Nat} {p : Option Nat}
    (hi : s'.ctxHead i = p) (hne : ∀ j, j ≠ i → s'.ctxHead j = s.ctxHead j) :
    s'.ctxHead = Function.update s.ctxHead i p := by
  funext j
  by_cases hj : j = i
  · subst hj
    rw [Function.update_self, hi]
  · rw [Function.update_of_ne hj, hne j hj]

theorem domHead_eq {s s' : Conf η δ} {i : Option Nat} {p : Option Nat}
    (hi : s'.domHead i = p) (hne : ∀ j, j ≠ i → s'.domHead j = s.domHead j) :
    s'.domHead = Function.update s.domHead i p := by
  funext j
  by_cases hj : j = i
  · subst hj
    rw [Function.update_self, hi]
  · rw [Function.update_of_ne hj, hne j hj]

structure Table (s : Conf η δ) (ws ds : Option Nat → List Nat) (cs rs : List Nat) : Prop where
  ctxs : Pool s.ctxNext s.ctxHead ws s.nallocCtx cs
  doms : Pool s.domNext s.domHead ds s.nallocDomain rs
  bucket : ∀ b d, d ∈ ds (some b) → s.idx (s.dom d).domain = b
  names : ∀ b, ((ds (some b)).map fun d => (s.dom d).domain).Nodup
  /-- a record that is free or not allocated has no waiters -/
  idle : ∀ d, d ∈ ds none ∨ s.nallocDomain ≤ d → ws (some d) = []

section
variable {s s' : Conf η δ} {ws ws' ds : Option Nat → List Nat} {cs cs' rs : List Nat}

/-- A change of the contexts and their lists only. -/
theorem Table.of_ctxs (h : Table s ws ds cs rs)
    (hctxs : Pool s'.ctxNext s'.ctxHead ws' s'.nallocCtx cs') (hnext : s'.domNext = s.domNext)
    (hhead : s'.domHead = s.domHead) (htop : s'.nallocDomain = s.nallocDomain)
    (hname : ∀ d, (s'.dom d).domain = (s.dom d).domain)
    (hbuckets : s'.domainBuckets = s.domainBuckets)
    (hidle : ∀ d, d ∈ ds none ∨ s.nallocDomain ≤ d → ws' (some d) = []) :
    Table s' ws' ds cs' rs := by
  refine ⟨hctxs, ?_, fun b d hd => ?_, fun b => ?_, by rw [htop]; exact hidle⟩
  · rw [hnext, hhead, htop]
    exact h.doms
  · rw [hname]
    unfold Conf.idx
    rw [hbuckets]
    exact h.bucket b d hd
  · simp only [hname]
    exact h.names b

/-- Writing the addresses of a record. -/
theorem Table.setDom (h : Table s ws ds cs rs) {d : Nat} {x : Domain}
    (hname : x.domain = (s.dom d).domain) (hctx : x.ctx = (s.dom d).ctx)
    (hnext : x.next = (s.dom d).next) : Table (s.setDom d x) ws ds cs rs := by
  have hhead : (s.setDom d x).ctxHead = s.ctxHead := by
    funext i
    cases i with
    | none => rfl
    | some e =>
      by_cases he : e = d
      · subst he
        simp [Conf.ctxHead, Conf.setDom, hctx]
      · simp [Conf.ctxHead, Conf.setDom, he]
  refine h.of_ctxs ?_ ?_ rfl rfl (fun e => ?_) rfl h.idle
  · rw [hhead]
    exact h.ctxs
  · refine (domNext_update s d x).trans ?_
    rw [hnext]
    exact Function.update_eq_self d s.domNext
  · by_cases he : e = d
    · subst he
      simp [Conf.setDom, hname]
    · simp [Conf.setDom, he]

/-! ## Contexts -/

theorem Table.popCtx_none (h : Table s ws ds cs rs) {d : Nat} (hp : popCtx s d = none) :
    ws (some d) = [] := by
  have hhead : (s.dom d).ctx = (ws (some d)).head? := h.ctxs.chains.head_eq (some d)
  unfold popCtx at hp
  split at hp
  · next hn =>
    rw [hn] at hhead
    exact List.head?_eq_none_iff.mp hhead.symm
  · cases hp

/-- The first waiter of `d` is taken off its list. -/
theorem Table.popCtx (h : Table s ws ds cs rs) {d c : Nat} (hp : popCtx s d = some (c, s')) :
    ∃ l, ws (some d) = c :: l ∧ Table s' (Function.update ws (some d) l) ds (c :: cs) rs ∧
      s' = s.setDom d { s.dom d with ctx := (s.ctx c).next } := by
  have hhead : (s.dom d).ctx = (ws (some d)).head? := h.ctxs.chains.head_eq (some d)
  unfold DynamicResolver.popCtx at hp
  split at hp
  · cases hp
  · next c' hc =>
    cases hp
    rw [hc] at hhead
    obtain ⟨l, hl⟩ := List.head?_eq_some_iff.mp hhead.symm
    refine ⟨l, hl, ?_, rfl⟩
    refine h.of_ctxs ?_ ?_ rfl rfl (fun e => ?_) rfl fun e he => ?_
    · rw [ctxHead_eq (s := s) (i := some d) (p := s.ctxNext c)]
      · exact h.ctxs.pop hl
      · simp [Conf.ctxHead, Conf.setDom, Conf.ctxNext]
      · intro j hj
        cases j with
        | none => rfl
        | some e =>
          have he : e ≠ d := fun e' => hj (congrArg some e')
          simp [Conf.ctxHead, Conf.setDom, he]
    · refine (domNext_update s d _).trans ?_
      exact Function.update_eq_self d s.domNext
    · by_cases he : e = d
      · subst he
        simp [Conf.setDom]
      · simp [Conf.setDom, he]
    · have hnil := h.idle e he
      have hed : some e ≠ some d := by
        rintro ⟨⟩
        rw [hl] at hnil
        cases hnil
      rw [Function.update_of_ne hed]
      exact hnil

/-- A context that is held goes back to the free list. -/
theorem Table.putCtx {c : Nat} (h : Table s ws ds (c :: cs) rs) :
    Table (putCtx s c) (Function.update ws none (c :: ws none)) ds cs rs := by
  refine h.of_ctxs ?_ rfl rfl rfl (fun _ => rfl) rfl fun d hd => ?_
  · have hnext : (DynamicResolver.putCtx s c).ctxNext =
        Function.update s.ctxNext c (s.ctxHead none) := ctxNext_update s c _
    have hhead : (DynamicResolver.putCtx s c).ctxHead =
        Function.update s.ctxHead none (some c) := ctxHead_eq rfl fun j hj => by
      cases j with
      | none => exact absurd rfl hj
      | some e => rfl
    rw [hnext, hhead]
    exact h.ctxs.push none
  · rw [Function.update_of_ne (by simp)]
    exact h.idle d hd

/-- A context that is free or new is taken and held. -/
theorem Table.getCtx (h : Table s ws ds cs rs) {pcalloc : Bool} {c : Nat}
    (hg : getCtx s pcalloc = (some c, s')) :
    ∃ l, Table s' (Function.update ws none l) ds (c :: cs) rs ∧ s'.dom = s.dom ∧
      s'.ctx = Function.update s.ctx c ⟨none, none, none⟩ ∧
      s'.nallocDomain = s.nallocDomain ∧ s'.domainBuckets = s.domainBuckets := by
  have hhead : s.freeCtx = (ws none).head? := h.ctxs.chains.head_eq none
  unfold DynamicResolver.getCtx at hg
  split at hg
  · next hn =>
    split at hg
    · cases hg
      refine ⟨ws none, ?_, rfl, rfl, rfl, rfl⟩
      rw [Function.update_eq_self]
      refine h.of_ctxs ?_ rfl rfl rfl (fun _ => rfl) rfl h.idle
      have hnext : Conf.ctxNext { s.setCtx s.nallocCtx ⟨none, none, none⟩ with
          nallocCtx := s.nallocCtx + 1 } = Function.update s.ctxNext s.nallocCtx none :=
        ctxNext_update s s.nallocCtx _
      rw [hnext]
      exact h.ctxs.alloc none
    · cases hg
  · next c' hc =>
    cases hg
    rw [hc] at hhead
    obtain ⟨l, hl⟩ := List.head?_eq_some_iff.mp hhead.symm
    refine ⟨l, ?_, rfl, rfl, rfl, rfl⟩
    refine h.of_ctxs ?_ rfl rfl rfl (fun _ => rfl) rfl fun d hd => ?_
    · have hnext : Conf.ctxNext { s.setCtx c ⟨none, none, none⟩ with
          freeCtx := (s.ctx c).next, nfreeCtx := s.nfreeCtx - 1 } =
          Function.update s.ctxNext c none := ctxNext_update s c _
      rw [hnext, ctxHead_eq (s := s) (i := none) (p := s.ctxNext c) rfl]
      · exact (h.ctxs.pop hl).write List.mem_cons_self none
      · intro j hj
        cases j with
        | none => exact absurd rfl hj
        | some e => rfl
    · rw [Function.update_of_ne (by simp)]
      exact h.idle d hd

/-- A context that is held is put on the list of a record in use. -/
theorem Table.pushCtx {c : Nat} (h : Table s ws ds (c :: cs) rs) {d : Nat} (hd : η) (data : δ)
    (hfree : d ∉ ds none) (hlt : d < s.nallocDomain) :
    Table (pushCtx s d c hd data) (Function.update ws (some d) (c :: ws (some d))) ds cs rs := by
  refine h.of_ctxs ?_ ?_ rfl rfl (fun e => ?_) rfl fun e he => ?_
  · have hnext : (DynamicResolver.pushCtx s d c hd data).ctxNext =
        Function.update s.ctxNext c (s.ctxHead (some d)) := ctxNext_update s c _
    have hhead : (DynamicResolver.pushCtx s d c hd data).ctxHead =
        Function.update s.ctxHead (some d) (some c) := by
      refine ctxHead_eq ?_ fun j hj => ?_
      · simp [DynamicResolver.pushCtx, Conf.ctxHead, Conf.setDom]
      · cases j with
        | none => rfl
        | some e =>
          have he : e ≠ d := fun e' => hj (congrArg some e')
          simp [DynamicResolver.pushCtx, Conf.ctxHead, Conf.setDom, Conf.setCtx, he]
    rw [hnext, hhead]
    exact h.ctxs.push (some d)
  · refine (domNext_update (s.setCtx c _) d _).trans ?_
    exact Function.update_eq_self d s.domNext
  · by_cases he : e = d
    · subst he
      simp [DynamicResolver.pushCtx, Conf.setDom]
    · simp [DynamicResolver.pushCtx, Conf.setDom, Conf.setCtx, he]
  · have hed : some e ≠ some d := by
      rintro ⟨⟩
      rcases he with he | he
      · exact hfree he
      · omega
    rw [Function.update_of_ne hed]
    exact h.idle e he

/-! ## Records -/

/-- Zeroing a record that has no waiters and is in no bucket. -/
theorem Table.zero (h : Table s ws ds cs rs) {d : Nat} {ds' : Option Nat → List Nat}
    {rs' : List Nat} (hw : ws (some d) = []) (hoff : ∀ b, d ∉ ds (some b))
    (hds : ∀ b, ds' (some b) = ds (some b))
    (hdom : s'.dom = Function.update s.dom d zeroDomain) (hctx : s'.ctx = s.ctx)
    (hfree : s'.freeCtx = s.freeCtx) (hctop : s'.nallocCtx = s.nallocCtx)
    (hbuckets : s'.domainBuckets = s.domainBuckets)
    (hdoms : Pool s'.domNext s'.domHead ds' s'.nallocDomain rs')
    (hidle : ∀ e, e ∈ ds' none ∨ s'.nallocDomain ≤ e → ws (some e) = []) :
    Table s' ws ds' cs rs' := by
  have hother : ∀ e, e ≠ d → s'.dom e = s.dom e := fun e he => by
    rw [hdom, Function.update_of_ne he]
  have hne : ∀ b e, e ∈ ds (some b) → e ≠ d := fun b e he hed => hoff b (hed ▸ he)
  have hhead : s'.ctxHead = s.ctxHead := by
    funext i
    cases i with
    | none => exact hfree
    | some e =>
      by_cases he : e = d
      · subst he
        have h1 : s.ctxHead (some e) = (ws (some e)).head? := h.ctxs.chains.head_eq (some e)
        rw [h1, hw]
        show (s'.dom e).ctx = none
        rw [hdom, Function.update_self]
        rfl
      · show (s'.dom e).ctx = (s.dom e).ctx
        rw [hother e he]
  have hnext : s'.ctxNext = s.ctxNext := by
    funext c
    unfold Conf.ctxNext
    rw [hctx]
  refine ⟨by rw [hhead, hnext, hctop]; exact h.ctxs, hdoms, fun b e he => ?_, fun b => ?_, hidle⟩
  · rw [hds] at he
    rw [hother e (hne b e he)]
    unfold Conf.idx
    rw [hbuckets]
    exact h.bucket b e he
  · rw [hds]
    have hmap : (ds (some b)).map (fun e => (s'.dom e).domain) =
        (ds (some b)).map fun e => (s.dom e).domain :=
      List.map_congr_left fun e he => by rw [hother e (hne b e he)]
    rw [hmap]
    exact h.names b

/-- A record that is free or new is zeroed and held. -/
theorem Table.getDomain (h : Table s ws ds cs rs) {pcalloc : Bool} {d : Nat}
    (hg : getDomain s pcalloc = (some d, s')) :
    ∃ l, Table s' ws (Function.update ds none l) cs (d :: rs) ∧ ws (some d) = [] ∧
      s'.dom = Function.update s.dom d zeroDomain ∧ s'.ctx = s.ctx ∧
      s'.domainBuckets = s.domainBuckets ∧ (∀ b, d ∉ ds (some b)) ∧ d ∉ rs ∧
      ((s.freeDomain = some d ∧ s'.nallocDomain = s.nallocDomain) ∨
        (d = s.nallocDomain ∧ s'.nallocDomain = d + 1)) := by
  have hhead : s.freeDomain = (ds none).head? := h.doms.chains.head_eq none
  unfold DynamicResolver.getDomain at hg
  split at hg
  · next hn =>
    split at hg
    · cases hg
      have hw := h.idle s.nallocDomain (.inr (Nat.le_refl _))
      have hoff : ∀ i, s.nallocDomain ∉ ds i := fun i hi => Nat.lt_irrefl _ (h.doms.lt i _ hi)
      refine ⟨ds none, ?_, hw, rfl, rfl, rfl, fun b => hoff (some b), fun hm =>
        Nat.lt_irrefl _ (h.doms.off _ hm).1, .inr ⟨rfl, rfl⟩⟩
      rw [Function.update_eq_self]
      refine h.zero hw (fun b => hoff (some b)) (fun _ => rfl) rfl rfl rfl rfl rfl ?_ fun e he => ?_
      · have hnext : Conf.domNext { s.setDom s.nallocDomain zeroDomain with
            nallocDomain := s.nallocDomain + 1 } =
            Function.update s.domNext s.nallocDomain none := domNext_update s s.nallocDomain _
        rw [hnext]
        exact h.doms.alloc none
      · refine h.idle e (he.imp_right fun hle => ?_)
        exact Nat.le_of_succ_le hle
    · cases hg
  · next d' hd =>
    cases hg
    rw [hd] at hhead
    obtain ⟨l, hl⟩ := List.head?_eq_some_iff.mp hhead.symm
    have hmem : d ∈ ds none := by rw [hl]; exact List.mem_cons_self
    have hw := h.idle d (.inl hmem)
    have hoff : ∀ b, d ∉ ds (some b) := fun b hb => by
      cases h.doms.chains.disjoint none (some b) d hmem hb
    refine ⟨l, ?_, hw, rfl, rfl, rfl, hoff, fun hm => (h.doms.off d hm).2 none hmem,
      .inl ⟨hd, rfl⟩⟩
    refine h.zero hw hoff (fun b => Function.update_of_ne (by simp) _ _) rfl rfl rfl rfl rfl ?_
      fun e he => ?_
    · have hnext : Conf.domNext { s.setDom d zeroDomain with
          freeDomain := (s.dom d).next, nfreeDomain := s.nfreeDomain - 1 } =
          Function.update s.domNext d none := domNext_update s d _
      have hhead : Conf.domHead { s.setDom d zeroDomain with
          freeDomain := (s.dom d).next, nfreeDomain := s.nfreeDomain - 1 } =
          Function.update s.domHead none (s.domNext d) := domHead_eq rfl fun j hj => by
        cases j with
        | none => exact absurd rfl hj
        | some e => rfl
      rw [hnext, hhead]
      exact (h.doms.pop hl).write List.mem_cons_self none
    · refine h.idle e (he.imp_left fun hm => ?_)
      rw [Function.update_self] at hm
      rw [hl]
      exact List.mem_cons_of_mem _ hm

theorem link_dom (s : Conf η δ) (temp : List UInt8) (d : Nat) : (s.link temp d).dom =
    Function.update s.dom d
      { s.dom d with next := s.resolverHash (s.idx temp), domain := temp } := rfl

/-- A record that is held and has no waiters is named and put in front of its bucket. -/
theorem Table.link {d : Nat} (h : Table s ws ds cs (d :: rs)) (temp : List UInt8)
    (hnew : ∀ e ∈ ds (some (s.idx temp)), (s.dom e).domain ≠ temp) :
    Table (s.link temp d) ws
      (Function.update ds (some (s.idx temp)) (d :: ds (some (s.idx temp)))) cs rs := by
  obtain ⟨hlt, hoff⟩ := h.doms.off d List.mem_cons_self
  have hne : ∀ b e, e ∈ ds (some b) → e ≠ d := fun b e he hed => hoff (some b) (hed ▸ he)
  have hself : ((s.link temp d).dom d).domain = temp := by
    rw [link_dom, Function.update_self]
  have hother : ∀ b e, e ∈ ds (some b) → (s.link temp d).dom e = s.dom e := fun b e he => by
    rw [link_dom, Function.update_of_ne (hne b e he)]
  have hmap : ∀ b, (ds (some b)).map (fun e => ((s.link temp d).dom e).domain) =
      (ds (some b)).map fun e => (s.dom e).domain := fun b =>
    List.map_congr_left fun e he => by rw [hother b e he]
  constructor
  · have hhead : (s.link temp d).ctxHead = s.ctxHead := by
      funext i
      cases i with
      | none => rfl
      | some e =>
        show ((s.link temp d).dom e).ctx = (s.dom e).ctx
        rw [link_dom]
        by_cases he : e = d
        · subst he
          rw [Function.update_self]
        · rw [Function.update_of_ne he]
    rw [hhead]
    exact h.ctxs
  · have hnext : (s.link temp d).domNext =
        Function.update s.domNext d (s.domHead (some (s.idx temp))) := domNext_update s d _
    have hhead : (s.link temp d).domHead =
        Function.update s.domHead (some (s.idx temp)) (some d) := by
      refine domHead_eq (Function.update_self _ _ _) fun j hj => ?_
      cases j with
      | none => rfl
      | some b => exact Function.update_of_ne (fun e => hj (congrArg some e)) _ _
    rw [hnext, hhead]
    exact h.doms.push (some (s.idx temp))
  · intro b e he
    show s.idx ((s.link temp d).dom e).domain = b
    by_cases hb : b = s.idx temp
    · subst hb
      rw [Function.update_self] at he
      rcases List.mem_cons.mp he with rfl | he
      · rw [hself]
      · rw [hother _ e he]
        exact h.bucket _ e he
    · rw [Function.update_of_ne (by simpa using hb)] at he
      rw [hother b e he]
      exact h.bucket b e he
  · intro b
    by_cases hb : b = s.idx temp
    · subst hb
      rw [Function.update_self, List.map_cons, List.nodup_cons, hself, hmap]
      refine ⟨fun hm => ?_, h.names _⟩
      obtain ⟨e, he, heq⟩ := List.mem_map.mp hm
      exact hnew e he heq
    · rw [Function.update_of_ne (by simpa using hb), hmap]
      exact h.names b
  · intro e he
    refine h.idle e (he.imp_left fun hm => ?_)
    rwa [Function.update_of_ne (by simp)] at hm

/-- A record is got for a name that no record of its bucket has. -/
theorem Table.addEntry (h : Table s ws ds cs rs) {temp : List UInt8} {pcalloc : Bool} {d : Nat}
    (hg : addEntry s temp pcalloc = (some d, s'))
    (hnew : ∀ e ∈ ds (some (s.idx temp)), (s.dom e).domain ≠ temp) :
    ∃ l, Table s' ws (Function.update (Function.update ds none l) (some (s.idx temp))
        (d :: ds (some (s.idx temp)))) cs rs ∧
      ws (some d) = [] ∧ (∀ b, d ∉ ds (some b)) ∧ d ∉ rs ∧
      (s'.dom d).domain = temp ∧ (s'.dom d).naddrs = 0 ∧
      (∀ e, e ≠ d → s'.dom e = s.dom e) ∧ s'.ctx = s.ctx ∧
      s'.domainBuckets = s.domainBuckets ∧
      ((s.freeDomain = some d ∧ s'.nallocDomain = s.nallocDomain) ∨
        (d = s.nallocDomain ∧ s'.nallocDomain = d + 1)) := by
  unfold DynamicResolver.addEntry at hg
  split at hg
  · cases hg
  · next d' s1 hd =>
    cases hg
    obtain ⟨l, h1, hw, hdom, hctx, hbuckets, hoff, hrs, htop⟩ := h.getDomain hd
    have hidx : s1.idx temp = s.idx temp := by
      unfold Conf.idx
      rw [hbuckets]
    have hds : ∀ b, Function.update ds none l (some b) = ds (some b) := fun b =>
      Function.update_of_ne (by simp) _ _
    have h2 := h1.link temp fun e he => by
      rw [hidx, hds] at he
      rw [hdom, Function.update_of_ne (fun hed => hoff _ (hed ▸ he))]
      exact hnew e he
    rw [hidx, hds] at h2
    refine ⟨l, h2, hw, hoff, hrs, ?_, ?_, fun e he => ?_, hctx, hbuckets, htop⟩
    · rw [link_dom, Function.update_self]
    · rw [link_dom, Function.update_self, hdom, Function.update_self]
      rfl
    · rw [link_dom, Function.update_of_ne he, hdom, Function.update_of_ne he]

/-- A failed allocation leaves the table. -/
theorem addEntry_none {temp : List UInt8} {pcalloc : Bool}
    (hg : DynamicResolver.addEntry s temp pcalloc = (none, s')) : s' = s := by
  unfold DynamicResolver.addEntry at hg
  split at hg
  · next s1 hd =>
    cases hg
    unfold DynamicResolver.getDomain at hd
    split at hd
    · split at hd <;> cases hd
      rfl
    · cases hd
  · cases hg

theorem getCtx_none {pcalloc : Bool} (hg : DynamicResolver.getCtx s pcalloc = (none, s')) :
    s' = s := by
  unfold DynamicResolver.getCtx at hg
  split at hg
  · split at hg <;> cases hg
    rfl
  · cases hg

/-- A record without waiters that is held goes back to the free list. -/
theorem Table.putDomain {d : Nat} (h : Table s ws ds cs (d :: rs)) (hw : ws (some d) = []) :
    Table (putDomain s d) ws (Function.update ds none (d :: ds none)) cs rs := by
  have hds : ∀ b, Function.update ds none (d :: ds none) (some b) = ds (some b) := fun b =>
    Function.update_of_ne (by simp) _ _
  have hname : ∀ e, ((DynamicResolver.putDomain s d).dom e).domain = (s.dom e).domain := by
    intro e
    by_cases he : e = d
    · subst he
      simp [DynamicResolver.putDomain, Conf.setDom]
    · simp [DynamicResolver.putDomain, Conf.setDom, he]
  constructor
  · have hhead : (DynamicResolver.putDomain s d).ctxHead = s.ctxHead := by
      funext i
      cases i with
      | none => rfl
      | some e =>
        by_cases he : e = d
        · subst he
          simp [DynamicResolver.putDomain, Conf.ctxHead, Conf.setDom]
        · simp [DynamicResolver.putDomain, Conf.ctxHead, Conf.setDom, he]
    rw [hhead]
    exact h.ctxs
  · have hnext : (DynamicResolver.putDomain s d).domNext =
        Function.update s.domNext d (s.domHead none) := domNext_update s d _
    have hhead : (DynamicResolver.putDomain s d).domHead =
        Function.update s.domHead none (some d) := domHead_eq rfl fun j hj => by
      cases j with
      | none => exact absurd rfl hj
      | some e => rfl
    rw [hnext, hhead]
    exact h.doms.push none
  · intro b e he
    rw [hds] at he
    rw [hname]
    exact h.bucket b e he
  · intro b
    rw [hds]
    simp only [hname]
    exact h.names b
  · intro e he
    rw [Function.update_self, List.mem_cons] at he
    rcases he with (rfl | he) | he
    · exact hw
    · exact h.idle e (.inl he)
    · exact h.idle e (.inr he)

/-- The record behind `pd` is taken out of its bucket and held. -/
theorem Table.unlink (h : Table s ws ds cs rs) {b d : Nat} {l₁ l₂ : List Nat}
    (hb : ds (some b) = l₁ ++ d :: l₂) :
    Table (s.unlink b l₁.getLast? d) ws (Function.update ds (some b) (l₁ ++ l₂)) cs (d :: rs) := by
  have hname : ∀ e, ((s.unlink b l₁.getLast? d).dom e).domain = (s.dom e).domain := by
    intro e
    unfold Conf.unlink
    split
    · rfl
    · next p _ =>
      by_cases he : e = p
      · subst he
        simp [Conf.setDom]
      · simp [Conf.setDom, he]
  have hhead : (s.unlink b l₁.getLast? d).ctxHead = s.ctxHead := by
    funext i
    unfold Conf.unlink
    split
    · rfl
    · next p _ =>
      cases i with
      | none => rfl
      | some e =>
        by_cases he : e = p
        · subst he
          simp [Conf.ctxHead, Conf.setDom]
        · simp [Conf.ctxHead, Conf.setDom, he]
  have hctxNext : (s.unlink b l₁.getLast? d).ctxNext = s.ctxNext := by
    unfold Conf.unlink
    split <;> rfl
  have htop : (s.unlink b l₁.getLast? d).nallocCtx = s.nallocCtx ∧
      (s.unlink b l₁.getLast? d).nallocDomain = s.nallocDomain ∧
      (s.unlink b l₁.getLast? d).domainBuckets = s.domainBuckets := by
    unfold Conf.unlink
    split <;> exact ⟨rfl, rfl, rfl⟩
  have hsub : ∀ i e, e ∈ Function.update ds (some b) (l₁ ++ l₂) i → e ∈ ds i := fun i e =>
    mem_update_of_sub fun a ha => by
      rw [hb]
      simp only [List.mem_append, List.mem_cons] at ha ⊢
      tauto
  refine ⟨by rw [hhead, hctxNext, htop.1]; exact h.ctxs, ?_, fun b' e he => ?_, fun b' => ?_,
    fun e he => h.idle e (he.imp (hsub none e) fun hle => by rwa [htop.2.1] at hle)⟩
  · rw [htop.2.1]
    rcases List.eq_nil_or_concat l₁ with rfl | ⟨l, p, rfl⟩
    · have hdomHead : (s.unlink b ([] : List Nat).getLast? d).domHead =
          Function.update s.domHead (some b) (s.domNext d) := by
        refine domHead_eq (Function.update_self _ _ _) fun j hj => ?_
        cases j with
        | none => rfl
        | some e => exact Function.update_of_ne (fun h => hj (congrArg some h)) _ _
      rw [hdomHead]
      exact h.doms.pop hb
    · rw [List.concat_eq_append] at hb ⊢
      rw [List.append_assoc] at hb
      rw [List.getLast?_concat, List.append_assoc]
      have hdomNext : (s.unlink b (some p) d).domNext =
          Function.update s.domNext p (s.domNext d) := domNext_update s p _
      rw [hdomNext]
      exact h.doms.unlink hb
  · rw [hname]
    unfold Conf.idx
    rw [htop.2.2]
    exact h.bucket b' e (hsub (some b') e he)
  · simp only [hname]
    by_cases hbb : b' = b
    · subst hbb
      have hn := h.names b'
      rw [hb] at hn
      rw [Function.update_self]
      refine hn.sublist (List.Sublist.map _ ?_)
      exact (List.Sublist.refl l₁).append (List.sublist_cons_self d l₂)
    · rw [Function.update_of_ne (by simpa using hbb)]
      exact h.names b'

end

end NgxToolkit.DynamicResolver
