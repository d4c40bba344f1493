import Mathlib.Tactic.Common
import NgxToolkit.DynamicResolverMoves

/-! The addresses of the dynamic resolver's entries over whole runs.

A query carries the pointer of a record.  As long as every answer finds its
record to be the entry of the name that was asked for (`World.Serves`), and no
address is longer than its slot, each entry holds the addresses of the last good
reply to a query for its name since the name was added (`reach_current`), and
no reply is handed to a waiter of another add.

* `Numbers`: each add has its own number, and entries know theirs.
* `Asked`: the add that a query was issued for is one of the query's name.
* `Slots`: what is stored in the records of the table.
* `Waiters`: whose waiters a record has. -/

namespace NgxToolkit.DynamicResolver

open Lib

variable {η δ : Type}

/-- The slot of an address that is not longer than it. -/
def Addr.slot (a : Addr) : Slot := ⟨a.sockaddr, a.sockaddr.length, a.priority, a.weight⟩

/-- The record has room for the addresses `as` and holds the first `n` of them. -/
def Domain.Stored (x : Domain) (as : List Addr) (n : Nat) : Prop :=
  x.naddrs = min as.length maxAddrs ∧
    ∀ j < n, j < x.naddrs → ∃ a, as[j]? = some a ∧ x.addrs j = a.slot

/-- The answer to a query of the add `i` that is being stored in the record `d`. -/
def Frame.storing (d i : Nat) (f : Frame) : Option (List Addr × Nat) :=
  match f.stored with
  | some (q, rep, n) => if q.dom = d ∧ q.add = some i then some (rep, n) else none
  | none => none

def World.storing (w : World η δ) (d i : Nat) : List (List Addr × Nat) :=
  w.stack.filterMap (Frame.storing d i)

/-- The addresses fit their slots. -/
def Fits (rep : List Addr) : Prop := ∀ a ∈ rep.take maxAddrs, a.sockaddr.length = 16

/-- The number of the last add of a name that is in the table. -/
def World.num (w : World η δ) (temp : List UInt8) : Option Nat := (w.live temp).map (·.1)

/-- The record of the query is the entry of a name exactly if the query was
issued for that name since it was added. -/
def World.Serves (w : World η δ) (q : Query) : Prop :=
  ∀ temp i d, w.num temp = some i →
    hostSearch w.conf temp w.conf.nallocDomain = some (some d) → (q.dom = d ↔ q.add = some i)

/-- Every answer finds the entry it was asked for and fits. -/
def Rules.timely : Rules η δ := ⟨True, Fits, World.Serves⟩

/-! ## Records -/

/-- Records that differ in their links only. -/
def SameRecords (s s' : Conf η δ) : Prop :=
  ∀ d, (s'.dom d).domain = (s.dom d).domain ∧ (s'.dom d).naddrs = (s.dom d).naddrs ∧
    (s'.dom d).addrs = (s.dom d).addrs

section
variable {s s' : Conf η δ} {ds ds' : Option Nat → List Nat}

theorem SameRecords.refl (s : Conf η δ) : SameRecords s s := fun _ => ⟨rfl, rfl, rfl⟩

theorem SameRecords.setDom {d : Nat} {x : Domain} (hname : x.domain = (s.dom d).domain)
    (hnaddrs : x.naddrs = (s.dom d).naddrs) (haddrs : x.addrs = (s.dom d).addrs) :
    SameRecords s (s.setDom d x) := by
  intro e
  by_cases he : e = d
  · subst he
    rw [Conf.setDom_self]
    exact ⟨hname, hnaddrs, haddrs⟩
  · rw [Conf.setDom_of_ne _ _ he]
    exact ⟨rfl, rfl, rfl⟩

theorem SameRecords.stored (h : SameRecords s s') {d n : Nat} {as : List Addr}
    (hd : (s.dom d).Stored as n) : (s'.dom d).Stored as n := by
  unfold Domain.Stored
  rw [(h d).2.1, (h d).2.2]
  exact hd

theorem entry_congr (hidx : ∀ temp, s'.idx temp = s.idx temp)
    (hds : ∀ b, ds' (some b) = ds (some b)) (hname : ∀ d, (s'.dom d).domain = (s.dom d).domain)
    (temp : List UInt8) (d : Nat) : Entry s' ds' temp d ↔ Entry s ds temp d := by
  unfold Entry
  rw [hidx, hds, hname]

end

/-- The slot that takes a short address holds it. -/
theorem storeAddr_self (addrs : Nat → Slot) (i : Nat) {a : Addr} (h : a.sockaddr.length = 16) :
    storeAddr addrs i a i = a.slot := by
  unfold storeAddr Addr.slot
  rw [Function.update_self, List.take_of_length_le (Nat.le_of_eq h)]

/-- The slots before it keep theirs. -/
theorem storeAddr_of_lt (addrs : Nat → Slot) {i j : Nat} (a : Addr) (h : j < i) :
    storeAddr addrs i a j = addrs j := by
  unfold storeAddr
  rw [Function.update_of_ne (Nat.ne_of_lt h), Function.update_of_ne (by omega)]

theorem Fits.length {rep : List Addr} {k : Nat} {a : Addr} (h : Fits rep) (hk : k < maxAddrs)
    (ha : rep[k]? = some a) : a.sockaddr.length = 16 := by
  refine h a ?_
  rw [List.mem_take_iff_getElem]
  obtain ⟨hlen, hget⟩ := List.getElem?_eq_some_iff.mp ha
  exact ⟨k, by omega, hget⟩

/-- The next address is stored. -/
theorem Domain.Stored.next {x : Domain} {rep : List Addr} {k : Nat} {a : Addr}
    (h : x.Stored rep k) (hk : k < x.naddrs) (ha : rep[k]? = some a) (hfits : Fits rep) :
    Domain.Stored { x with addrs := storeAddr x.addrs k a } rep (k + 1) := by
  refine ⟨h.1, fun j hj hjn => ?_⟩
  show ∃ b, rep[j]? = some b ∧ storeAddr x.addrs k a j = b.slot
  rcases Nat.lt_succ_iff_lt_or_eq.mp hj with hj | rfl
  · obtain ⟨b, hb, hslot⟩ := h.2 j hj hjn
    exact ⟨b, hb, (storeAddr_of_lt _ _ hj).trans hslot⟩
  · have hlen := h.1
    exact ⟨a, ha, storeAddr_self _ _ (hfits.length (by omega) ha)⟩

/-! ## Names -/

/-- A move that leaves the names and their numbers. -/
structure SameNames (w w' : World η δ) (ds ds' : Option Nat → List Nat) : Prop where
  num : ∀ temp, w'.num temp = w.num temp
  inc : w'.inc = w.inc
  adds : w'.adds = w.adds
  entry : ∀ temp d, Entry w'.conf ds' temp d ↔ Entry w.conf ds temp d

/-- A move that takes `temp` out of the table. -/
structure Dropped (w w' : World η δ) (ds ds' : Option Nat → List Nat) (temp : List UInt8) :
    Prop where
  num : ∀ temp' i, w'.num temp' = some i → w.num temp' = some i
  inc : w'.inc = w.inc
  adds : w'.adds = w.adds
  entry : ∀ temp' d, Entry w'.conf ds' temp' d ↔ temp' ≠ temp ∧ Entry w.conf ds temp' d

/-- A move that makes `d` the entry of the new name `temp`. -/
structure Added (w w' : World η δ) (ds ds' : Option Nat → List Nat) (temp : List UInt8) (d : Nat) :
    Prop where
  num : ∀ temp', w'.num temp' = if temp' = temp then some w.adds else w.num temp'
  inc : w'.inc = Function.update w.inc d w.adds
  adds : w'.adds = w.adds + 1
  entry : ∀ temp' e, Entry w'.conf ds' temp' e ↔ (temp' = temp ∧ e = d) ∨ Entry w.conf ds temp' e
  new : ∀ e, ¬ Entry w.conf ds temp e
  off : ∀ temp', ¬ Entry w.conf ds temp' d

section
variable {w w' : World η δ} {ws ws' ds ds' : Option Nat → List Nat}

theorem SameNames.of_conf (hconf : w'.conf = w.conf) (hlive : w'.live = w.live)
    (hinc : w'.inc = w.inc) (hadds : w'.adds = w.adds) : SameNames w w' ds ds :=
  ⟨fun _ => by unfold World.num; rw [hlive], hinc, hadds, fun _ _ => by rw [hconf]⟩

theorem SameNames.of_records (hlive : w'.live = w.live) (hinc : w'.inc = w.inc)
    (hadds : w'.adds = w.adds) (hidx : ∀ temp, w'.conf.idx temp = w.conf.idx temp)
    (hds : ∀ b, ds' (some b) = ds (some b)) (hrecords : SameRecords w.conf w'.conf) :
    SameNames w w' ds ds' :=
  ⟨fun _ => by unfold World.num; rw [hlive], hinc, hadds,
    entry_congr hidx hds fun d => (hrecords d).1⟩

theorem World.answer_num (w : World η δ) (q : Query) (rep : List Addr) (temp : List UInt8) :
    (w.answer q rep).num temp = w.num temp := by
  unfold World.answer World.num
  split
  · next i as hq =>
    split
    · by_cases ht : temp = q.name
      · subst ht
        rw [hq]
        simp
      · simp [Function.update_of_ne ht]
    · rfl
  · rfl

/-- The number of addresses is the only thing `ngx_dynamic_resolver_on_result`
writes before its loops. -/
theorem World.onResult_eq (w : World η δ) (q : Query) (rep : List Addr) :
    ∃ f n, f.reply = some q ∧ f.holds = none ∧ f.calls = none ∧
      w.onResult q rep = { w with
        conf := w.conf.setDom q.dom { w.conf.dom q.dom with naddrs := n }, stack := f :: w.stack } ∧
      ((rep = [] ∧ f = .fail q none ∧ n = (w.conf.dom q.dom).naddrs) ∨
        (rep ≠ [] ∧ f = .store q rep 0 ∧ n = min rep.length maxAddrs)) := by
  unfold World.onResult
  split
  · next hlen =>
    refine ⟨.fail q none, (w.conf.dom q.dom).naddrs, rfl, rfl, rfl, ?_,
      .inl ⟨List.length_eq_zero_iff.mp hlen, rfl, rfl⟩⟩
    unfold Conf.setDom
    rw [Function.update_eq_self]
  · next hlen =>
    exact ⟨.store q rep 0, _, rfl, rfl, rfl, rfl,
      .inr ⟨fun hnil => hlen (by rw [hnil]; rfl), rfl, rfl⟩⟩

theorem SameRecords.pushCtx (s : Conf η δ) (d c : Nat) (h : η) (data : δ) :
    SameRecords s (pushCtx s d c h data) := by
  intro e
  by_cases he : e = d
  · subst he
    unfold DynamicResolver.pushCtx
    rw [Conf.setDom_self]
    exact ⟨rfl, rfl, rfl⟩
  · unfold DynamicResolver.pushCtx
    rw [Conf.setDom_of_ne _ _ he]
    exact ⟨rfl, rfl, rfl⟩

theorem SameRecords.waits {s s' : Conf η δ} (hdom : s'.dom = s.dom) (d c : Nat) (h : η)
    (data : δ) :
    SameRecords s (DynamicResolver.pushCtx s' d c h data) := by
  intro e
  have hpush := SameRecords.pushCtx s' d c h data e
  rw [hdom] at hpush
  exact hpush

theorem SameRecords.putDomain (s : Conf η δ) (d : Nat) : SameRecords s (putDomain s d) :=
  fun e => SameRecords.setDom (d := d) (x := { s.dom d with next := s.freeDomain }) rfl rfl rfl e

theorem SameNames.reply (w : World η δ) (ds : Option Nat → List Nat) (q : Query)
    (rep : List Addr) :
    SameNames w
      ((World.answer { w with fresh := none, queries := w.queries.erase q } q rep).onResult q rep)
      ds ds := by
  have hnum := World.answer_num { w with fresh := none, queries := w.queries.erase q } q rep
  obtain ⟨live, heq⟩ :=
    World.answer_eq { w with fresh := none, queries := w.queries.erase q } q rep
  rw [heq] at hnum ⊢
  obtain ⟨f, n, -, -, -, hres, -⟩ := World.onResult_eq
    { w with fresh := none, queries := w.queries.erase q, live } q rep
  rw [hres]
  exact ⟨hnum, rfl, rfl, entry_congr (fun _ => rfl) (fun _ => rfl) (w.conf.setDom_domain (by rfl))⟩

theorem SameNames.setDom {d : Nat} {x : Domain} (hx : x.domain = (w.conf.dom d).domain)
    (st : List Frame) (ds : Option Nat → List Nat) :
    SameNames w { w with conf := w.conf.setDom d x, stack := st } ds ds :=
  ⟨fun _ => rfl, rfl, rfl, entry_congr (fun _ => rfl) (fun _ => rfl) (w.conf.setDom_domain hx)⟩

/-- **Names.**  What a move does to the names. -/
theorem Move.names {R : Rules η δ} (hm : Move R w ws ds w' ws' ds') (hw : Sound w ws ds) :
    SameNames w w' ds ds' ∨ (∃ temp, Dropped w w' ds ds' temp) ∨
      ∃ temp d, Added w w' ds ds' temp d := by
  cases hm with
  | fresh => exact .inl (.of_conf rfl rfl rfl rfl)
  | crash e => exact .inl (.of_conf rfl rfl rfl rfl)
  | lost h data huser hlost => exact .inl (.of_conf rfl rfl rfl rfl)
  | direct h data arg huser => exact .inl (.of_conf rfl rfl rfl rfl)
  | @gone temp huser hno =>
    refine .inr (.inl ⟨temp, fun temp' i hi => ?_, rfl, rfl, fun temp' d => ?_⟩)
    · unfold World.num at hi ⊢
      by_cases ht : temp' = temp
      · subst ht
        simp at hi
      · simpa [Function.update_of_ne ht] using hi
    · refine ⟨fun hd => ⟨fun ht => hno d (ht ▸ hd), hd⟩, fun hd => hd.2⟩
  | @enter _ temp d s huser hent hshape =>
    refine .inr (.inr ⟨temp, d, fun temp' => ?_, rfl, rfl, hent.entry, hent.new,
      fun temp' hd => hent.off _ hd.1⟩)
    unfold World.num World.enter
    by_cases ht : temp' = temp
    · subst ht
      simp
    · simp [ht]
  | @wait temp d c s l h data huser hd hnaddrs hc hdom hctx hidx hshape =>
    exact .inl (.of_records rfl rfl rfl hidx (fun _ => rfl) (.waits hdom d c h data))
  | @unlink temp d l₁ l₂ huser hfresh hb hd =>
    refine .inr (.inl ⟨temp, fun temp' i hi => ?_, rfl, rfl,
      entry_unlink hw.shape.table hb hd⟩)
    unfold World.num at hi ⊢
    by_cases ht : temp' = temp
    · subst ht
      simp at hi
    · simpa [Function.update_of_ne ht] using hi
  | timer p hstack hfresh => exact .inl (.of_conf rfl rfl rfl rfl)
  | issue hstack => exact .inl (.of_conf rfl rfl rfl rfl)
  | ended hstack hcalls hholds hdrains hstored => exact .inl (.of_conf rfl rfl rfl rfl)
  | turned hstack hcalls hcalls' halike hfresh hloop => exact .inl (.of_conf rfl rfl rfl rfl)
  | invoke arg hstack hcalls hcalls' halike hdrains hgoes hl hh hdata hshape =>
    exact .inl (.of_records rfl rfl rfl (fun _ => rfl) (fun _ => rfl) (.setDom rfl rfl rfl))
  | giveBack hstack hcalls hcalls' halike hfresh hloop =>
    exact .inl (.of_records rfl rfl rfl (fun _ => rfl) (fun _ => rfl) (.refl _))
  | freed hstack hd =>
    refine .inl (.of_records rfl rfl rfl (fun _ => rfl) (fun _ => ?_) (.putDomain _ _))
    exact Function.update_of_ne (by simp) _ _
  | @reply q rep hq hwhen hgoes hfits => exact .inl (.reply w ds q rep)
  | store hstack hi ha hgoes hfresh => exact .inl (.setDom (by rfl) _ ds)

/-- Each add has its own number, and entries know theirs. -/
structure Numbers (w : World η δ) (ds : Option Nat → List Nat) : Prop where
  entry : ∀ temp i d, w.num temp = some i → Entry w.conf ds temp d → w.inc d = i
  inj : ∀ temp temp' i, w.num temp = some i → w.num temp' = some i → temp = temp'
  lt : ∀ temp i, w.num temp = some i → i < w.adds

theorem Numbers.move {R : Rules η δ} (h : Numbers w ds) (hm : Move R w ws ds w' ws' ds')
    (hw : Sound w ws ds) : Numbers w' ds' := by
  rcases hm.names hw with hs | ⟨temp, hs⟩ | ⟨temp, d, hs⟩
  · refine ⟨fun temp i d hi hd => ?_, fun temp temp' i hi hi' => ?_, fun temp i hi => ?_⟩
    · rw [hs.inc]
      exact h.entry temp i d (hs.num temp ▸ hi) ((hs.entry temp d).mp hd)
    · exact h.inj temp temp' i (hs.num temp ▸ hi) (hs.num temp' ▸ hi')
    · rw [hs.adds]
      exact h.lt temp i (hs.num temp ▸ hi)
  · refine ⟨fun temp' i d hi hd => ?_, fun temp' temp'' i hi hi' => ?_, fun temp' i hi => ?_⟩
    · rw [hs.inc]
      exact h.entry temp' i d (hs.num temp' i hi) ((hs.entry temp' d).mp hd).2
    · exact h.inj temp' temp'' i (hs.num temp' i hi) (hs.num temp'' i hi')
    · rw [hs.adds]
      exact h.lt temp' i (hs.num temp' i hi)
  · -- the number of the new entry is larger than all others
    have hnum : ∀ {temp' i}, w'.num temp' = some i →
        (temp' = temp ∧ i = w.adds) ∨ (temp' ≠ temp ∧ w.num temp' = some i) := by
      intro temp' i hi
      rw [hs.num] at hi
      split at hi
      · next ht => exact .inl ⟨ht, (Option.some.inj hi).symm⟩
      · next ht => exact .inr ⟨ht, hi⟩
    refine ⟨fun temp' i e hi he => ?_, fun temp' temp'' i hi hi' => ?_, fun temp' i hi => ?_⟩
    · rw [hs.inc]
      rcases (hs.entry temp' e).mp he with ⟨ht, hed⟩ | he
      · rw [hed, Function.update_self]
        rcases hnum hi with ⟨-, hi⟩ | ⟨hne, -⟩
        · exact hi.symm
        · exact absurd ht hne
      · rw [Function.update_of_ne fun hed : e = d => hs.off temp' (hed ▸ he)]
        rcases hnum hi with ⟨ht, -⟩ | ⟨-, hi⟩
        · exact absurd (ht ▸ he) (hs.new e)
        · exact h.entry temp' i e hi he
    · rcases hnum hi with ⟨ht, hn⟩ | ⟨-, hn⟩ <;> rcases hnum hi' with ⟨ht', hn'⟩ | ⟨-, hn'⟩
      · rw [ht, ht']
      · exact absurd (h.lt _ _ hn') (by omega)
      · exact absurd (h.lt _ _ hn) (by omega)
      · exact h.inj _ _ i hn hn'
    · rw [hs.adds]
      rcases hnum hi with ⟨-, hn⟩ | ⟨-, hn⟩
      · omega
      · have := h.lt _ _ hn
        omega

/-! ## Queries -/

/-- The query is in flight or its answer is being handed out. -/
def World.Asks (w : World η δ) (q : Query) : Prop :=
  q ∈ w.queries ∨ ∃ f ∈ w.stack, f.reply = some q

/-- A move that asks nothing new. -/
theorem Asks.of_sub {q : Query} (h : w'.Asks q) (hqueries : ∀ q ∈ w'.queries, q ∈ w.queries)
    (hstack : ∀ f ∈ w'.stack, f.reply ≠ none → ∃ g ∈ w.stack, g.reply = f.reply) : w.Asks q := by
  refine h.imp (hqueries q) ?_
  rintro ⟨f, hf, hr⟩
  obtain ⟨g, hg, hgr⟩ := hstack f hf (by rw [hr]; simp)
  exact ⟨g, hg, hgr.trans hr⟩

/-- A move that asks once. -/
theorem Asks.issue {q : Query} {d : Nat} (h : (w.issue d).Asks q) :
    w.Asks q ∨ q.add = w.num q.name := by
  rcases h with hq | hf
  · rcases List.mem_cons.mp hq with rfl | hq
    · exact .inr rfl
    · exact .inl (.inl hq)
  · exact .inl (.inr hf)

theorem Frame.Alike.reply_mem {f f' : Frame} {st : List Frame} (h : f.Alike f')
    (hstack : w.stack = f :: st) :
    ∀ g ∈ f' :: st, g.reply ≠ none → ∃ g' ∈ w.stack, g'.reply = g.reply := by
  intro g hg _
  rw [hstack]
  rcases List.mem_cons.mp hg with rfl | hg
  · exact ⟨f, List.mem_cons_self, h.reply.symm⟩
  · exact ⟨g, List.mem_cons_of_mem _ hg, rfl⟩

theorem reply_mem_push {f : Frame} (hf : f.reply = none) :
    ∀ g ∈ f :: w.stack, g.reply ≠ none → ∃ g' ∈ w.stack, g'.reply = g.reply := by
  intro g hg hr
  rcases List.mem_cons.mp hg with rfl | hg
  · exact absurd hf hr
  · exact ⟨g, hg, rfl⟩

theorem reply_mem_pop {f : Frame} {st : List Frame} (hstack : w.stack = f :: st) :
    ∀ g ∈ st, g.reply ≠ none → ∃ g' ∈ w.stack, g'.reply = g.reply := by
  intro g hg _
  rw [hstack]
  exact ⟨g, List.mem_cons_of_mem _ hg, rfl⟩

/-- **Queries.**  A query is for the add that its name has when it is issued. -/
theorem Move.asks {R : Rules η δ} (hm : Move R w ws ds w' ws' ds') {q : Query} (h : w'.Asks q) :
    w.Asks q ∨ (q.add = w.num q.name ∧ w'.num = w.num ∧ w'.adds = w.adds) := by
  have hsame : ∀ g ∈ w.stack, g.reply ≠ none → ∃ g' ∈ w.stack, g'.reply = g.reply :=
    fun g hg _ => ⟨g, hg, rfl⟩
  cases hm with
  | fresh => exact .inl h
  | crash e => exact .inl h
  | lost hd data huser hlost => exact .inl h
  | direct hd data arg huser => exact .inl (Asks.of_sub h (fun _ hq => hq) (reply_mem_push rfl))
  | gone huser hno => exact .inl h
  | enter huser hent hshape => exact .inl h
  | wait hd data huser hent hnaddrs hc hdom hctx hidx hshape =>
    exact (Asks.issue h).imp_right fun hq => ⟨hq, rfl, rfl⟩
  | unlink huser hfresh hb hd =>
    exact .inl (Asks.of_sub h (fun _ hq => hq) (reply_mem_push rfl))
  | timer p hstack hfresh =>
    refine .inl (Asks.of_sub h (fun _ hq => hq) fun g hg hr => ?_)
    rw [List.mem_singleton.mp hg] at hr
    exact absurd rfl hr
  | issue hstack =>
    refine (Asks.issue h).imp (fun hq => ?_) fun hq => ⟨hq, rfl, rfl⟩
    refine Asks.of_sub hq (fun _ hq => hq) fun g hg hr => ?_
    rw [List.mem_singleton.mp hg] at hr
    exact absurd rfl hr
  | ended hstack hcalls hholds hdrains hstored =>
    exact .inl (Asks.of_sub h (fun _ hq => hq) (reply_mem_pop hstack))
  | turned hstack hcalls hcalls' halike hfresh hloop =>
    exact .inl (Asks.of_sub h (fun _ hq => hq) (halike.reply_mem hstack))
  | invoke arg hstack hcalls hcalls' halike hdrains hgoes hl hh hdata hshape =>
    exact .inl (Asks.of_sub h (fun _ hq => hq) (halike.reply_mem hstack))
  | giveBack hstack hcalls hcalls' halike hfresh hloop =>
    exact .inl (Asks.of_sub h (fun _ hq => hq) (halike.reply_mem hstack))
  | freed hstack hd => exact .inl (Asks.of_sub h (fun _ hq => hq) (reply_mem_pop hstack))
  | @reply q' rep hq hwhen hgoes hfits =>
    obtain ⟨live, heq⟩ :=
      World.answer_eq { w with fresh := none, queries := w.queries.erase q' } q' rep
    obtain ⟨f, n, hf, -, -, hres, -⟩ := World.onResult_eq
      { w with fresh := none, queries := w.queries.erase q', live } q' rep
    rw [heq, hres] at h
    rcases h with hm | ⟨g, hg, hr⟩
    · exact .inl (.inl (List.mem_of_mem_erase hm))
    · rcases List.mem_cons.mp hg with rfl | hg
      · rw [hf] at hr
        cases hr
        exact .inl (.inl hq)
      · exact .inl (.inr ⟨g, hg, hr⟩)
  | @store q' rep i n a st hstack hi ha hgoes hfresh =>
    have halike : Frame.reply (.store q' rep i) = Frame.reply (.wait q' rep i n none) := rfl
    refine .inl (Asks.of_sub h (fun _ hq => hq) fun g hg _ => ?_)
    rw [hstack]
    rcases List.mem_cons.mp hg with rfl | hg
    · exact ⟨_, List.mem_cons_self, halike⟩
    · exact ⟨g, List.mem_cons_of_mem _ hg, rfl⟩

/-- The add that a query was issued for is one of the query's name. -/
structure Asked (w : World η δ) : Prop where
  lt : ∀ q i, w.Asks q → q.add = some i → i < w.adds
  name : ∀ q i temp, w.Asks q → q.add = some i → w.num temp = some i → q.name = temp

theorem Asked.move {R : Rules η δ} (h : Asked w) (hn : Numbers w ds)
    (hm : Move R w ws ds w' ws' ds') (hw : Sound w ws ds) : Asked w' := by
  have hle : w.adds ≤ w'.adds := by
    rcases hm.names hw with hs | ⟨temp, hs⟩ | ⟨temp, d, hs⟩
    · exact Nat.le_of_eq hs.adds.symm
    · exact Nat.le_of_eq hs.adds.symm
    · rw [hs.adds]
      exact Nat.le_succ _
  refine ⟨fun q i hq hi => ?_, fun q i temp hq hi htemp => ?_⟩
  · rcases hm.asks hq with hq | ⟨hadd, -, hadds⟩
    · exact Nat.lt_of_lt_of_le (h.lt q i hq hi) hle
    · rw [hadds]
      exact hn.lt q.name i (hadd.symm.trans hi)
  · rcases hm.asks hq with hq | ⟨hadd, hnum, -⟩
    · rcases hm.names hw with hs | ⟨temp', hs⟩ | ⟨temp', d, hs⟩
      · exact h.name q i temp hq hi (hs.num temp ▸ htemp)
      · exact h.name q i temp hq hi (hs.num temp i htemp)
      · rw [hs.num] at htemp
        split at htemp
        · -- the number of the new entry is not that of an old query
          have hlt := h.lt q i hq hi
          cases htemp
          exact absurd hlt (Nat.lt_irrefl _)
        · exact h.name q i temp hq hi htemp
    · rw [hnum] at htemp
      exact hn.inj q.name temp i (hadd.symm.trans hi) htemp

/-! ## Waiters -/

theorem World.Serves.iff {q : Query} (h : w.Serves q) (hs : Shape w ws ds) {temp : List UInt8}
    {i d : Nat} (hi : w.num temp = some i) (hd : Entry w.conf ds temp d) :
    q.dom = d ↔ q.add = some i := by
  refine h temp i d hi ?_
  rw [hs.table.hostSearch_eq temp (Nat.le_refl _), hs.table.find?_eq_some.mpr hd]

/-- An entry's name has a number. -/
theorem Shape.num (hs : Shape w ws ds) {temp : List UInt8} {d : Nat}
    (hd : Entry w.conf ds temp d) : ∃ i as, w.live temp = some (i, as) := by
  obtain ⟨⟨i, as⟩, hi⟩ := Option.isSome_iff_exists.mp ((hs.live temp).mpr ⟨d, hd⟩)
  exact ⟨i, as, hi⟩

theorem World.num_eq {temp : List UInt8} {i : Nat} {as : List Addr}
    (h : w.live temp = some (i, as)) : w.num temp = some i := by
  unfold World.num
  rw [h]
  rfl

/-- A function that hands out an answer was not called by one that deletes its record. -/
def Below : List Frame → Prop
  | [] => True
  | f :: st => (∀ q, f.reply = some q → q.dom ∉ st.filterMap Frame.holds) ∧ Below st

theorem below_cons (f : Frame) (st : List Frame) :
    Below (f :: st) ↔ (∀ q, f.reply = some q → q.dom ∉ st.filterMap Frame.holds) ∧ Below st :=
  Iff.rfl

theorem Below.push {f : Frame} {st : List Frame} (hf : f.reply = none) (h : Below st) :
    Below (f :: st) := by
  rw [below_cons, hf]
  exact ⟨fun q hq => (by cases hq), h⟩

/-- The waiters of a record are those of the add it serves. -/
structure Waiters (w : World η δ) (ws ds : Option Nat → List Nat) : Prop where
  waits : ∀ d c, c ∈ ws (some d) →
    ∃ st, w.started[w.owner c]? = some st ∧ st.add = some (w.inc d)
  used : ∀ d, ws (some d) ≠ [] →
    (∃ temp, Entry w.conf ds temp d) ∨ d ∈ w.stack.filterMap Frame.holds
  below : Below w.stack
  fresh : ∀ q, w.fresh = some q → q.dom ∉ w.stack.filterMap Frame.holds
  handed : ∀ k ∈ w.called, ∀ q, k.reply = some q →
    ∃ i st, q.add = some i ∧ w.started[k.start]? = some st ∧ st.add = some i

theorem Waiters.congr (h : Waiters w ws ds) (hs : SameNames w w' ds ds')
    (hstarted : ∀ (k : Nat) (st : Start η δ), w.started[k]? = some st → w'.started[k]? = some st)
    (howner : w'.owner = w.owner) (hws : ∀ d c, c ∈ ws' (some d) → c ∈ ws (some d))
    (hholds : ∀ d, ws' (some d) ≠ [] → d ∈ w.stack.filterMap Frame.holds →
      d ∈ w'.stack.filterMap Frame.holds)
    (hbelow : Below w'.stack) (hfresh : ∀ q, w'.fresh = some q →
      q.dom ∉ w'.stack.filterMap Frame.holds)
    (hcalled : ∀ k ∈ w'.called, k ∈ w.called ∨ ∀ q, k.reply = some q →
      ∃ i st, q.add = some i ∧ w.started[k.start]? = some st ∧ st.add = some i) :
    Waiters w' ws' ds' := by
  refine ⟨fun d c hc => ?_, fun d hd => ?_, hbelow, hfresh, fun k hk q hq => ?_⟩
  · obtain ⟨st, hst, hadd⟩ := h.waits d c (hws d c hc)
    rw [howner, hs.inc]
    exact ⟨st, hstarted _ st hst, hadd⟩
  · have hne : ws (some d) ≠ [] := fun hnil => by
      obtain ⟨c, hc⟩ := List.exists_mem_of_ne_nil _ hd
      have hc' := hws d c hc
      rw [hnil] at hc'
      cases hc'
    refine (h.used d hne).imp ?_ (hholds d hd)
    rintro ⟨temp, ht⟩
    exact ⟨temp, (hs.entry temp d).mpr ht⟩
  · have hold : ∃ i st, q.add = some i ∧ w.started[k.start]? = some st ∧ st.add = some i :=
      (hcalled k hk).elim (fun hk => h.handed k hk q hq) fun hk => hk q hq
    obtain ⟨i, st, hi, hst, hadd⟩ := hold
    exact ⟨i, st, hi, hstarted _ st hst, hadd⟩

theorem Frame.holds_of_reply {f : Frame} {q : Query} (h : f.reply = some q) :
    f.holds = none ∧ f.drains = some q.dom := by
  cases f <;> cases h <;> exact ⟨rfl, rfl⟩

theorem filterMap_holds_cons {f : Frame} (hf : f.holds = none) (st : List Frame) :
    (f :: st).filterMap Frame.holds = st.filterMap Frame.holds := by
  rw [List.filterMap_cons, hf]

/-- The function on top becomes one with the same record and the same answer. -/
theorem Waiters.exchange (h : Waiters w ws ds) (hs : SameNames w w' ds ds') {f f' : Frame}
    {st : List Frame} (hstack : w.stack = f :: st) (hstack' : w'.stack = f' :: st)
    (hholds : f'.holds = f.holds) (hreply : f'.reply = f.reply) (hstarted : w'.started = w.started)
    (howner : w'.owner = w.owner) (hfresh : w'.fresh = w.fresh)
    (hws : ∀ d c, c ∈ ws' (some d) → c ∈ ws (some d))
    (hcalled : ∀ k ∈ w'.called, k ∈ w.called ∨ ∀ q, k.reply = some q →
      ∃ i st, q.add = some i ∧ w.started[k.start]? = some st ∧ st.add = some i) :
    Waiters w' ws' ds' := by
  have heq : w'.stack.filterMap Frame.holds = w.stack.filterMap Frame.holds := by
    rw [hstack, hstack', List.filterMap_cons, List.filterMap_cons, hholds]
  have hb := h.below
  rw [hstack, below_cons, ← hreply] at hb
  refine h.congr hs (fun k st' hst => ?_) howner hws (fun d _ hd => ?_) ?_ (fun q hq => ?_) hcalled
  · rw [hstarted]
    exact hst
  · rw [heq]
    exact hd
  · rw [hstack']
    exact hb
  · rw [heq]
    exact h.fresh q (hfresh ▸ hq)

/-- A waiter is called by the answer to a query of its add. -/
theorem Waiters.own (h : Waiters w ws ds) (hn : Numbers w ds) (hs : Shape w ws ds) {f : Frame}
    {st : List Frame} {c d : Nat} {q : Query} (hstack : w.stack = f :: st)
    (hdrains : f.drains = some d) (hc : c ∈ ws (some d)) (hq : f.reply = some q)
    (hgoes : w.Serves q) :
    ∃ i st, q.add = some i ∧ w.started[w.owner c]? = some st ∧ st.add = some i := by
  obtain ⟨hholds, hd⟩ := Frame.holds_of_reply hq
  rw [hdrains] at hd
  cases hd
  have hne : ws (some q.dom) ≠ [] := fun hnil => by
    rw [hnil] at hc
    cases hc
  have hb := h.below
  rw [hstack, below_cons] at hb
  rcases h.used q.dom hne with ⟨temp, ht⟩ | hm
  · obtain ⟨i, as, hi⟩ := hs.num ht
    obtain ⟨st', hst, hadd⟩ := h.waits q.dom c hc
    rw [hn.entry temp i q.dom (World.num_eq hi) ht] at hadd
    exact ⟨i, st', (hgoes.iff hs (World.num_eq hi) ht).mp rfl, hst, hadd⟩
  · rw [hstack, filterMap_holds_cons hholds] at hm
    exact absurd hm (hb.1 q hq)

/-- A call that waits. -/
theorem Waiters.wait (h : Waiters w ws ds) (hw : Sound w ws ds) {temp : List UInt8} {d c : Nat}
    {s : Conf η δ} {l : List Nat} (hd : η) (data : δ) (hent : Entry w.conf ds temp d)
    (hc : ∀ i, c ∉ ws (some i)) (hdom : s.dom = w.conf.dom)
    (hidx : ∀ temp, s.idx temp = w.conf.idx temp) :
    Waiters
      (World.issue { w with
        conf := pushCtx s d c hd data
        owner := Function.update w.owner c w.started.length
        started := w.started ++ [⟨hd, data, some (w.inc d)⟩] } d)
      (Function.update (Function.update ws none l) (some d) (c :: ws (some d))) ds := by
  have hrec := SameRecords.waits hdom d c hd data
  have hentry : ∀ temp' e, Entry w.conf ds temp' e → Entry (pushCtx s d c hd data) ds temp' e :=
    fun temp' e => (entry_congr (show ∀ temp, (pushCtx s d c hd data).idx temp = _ from hidx)
      (fun _ => rfl) (fun e => (hrec e).1) temp' e).mpr
  refine ⟨fun e c' hc' => ?_, fun e he => ?_, h.below, fun q hq => ?_, fun k hk q hq => ?_⟩
  · show ∃ st, (w.started ++ [_])[Function.update w.owner c w.started.length c']? = some st ∧
      st.add = some (w.inc e)
    rcases mem_pushed.mp hc' with ⟨rfl, rfl⟩ | hmem
    · rw [Function.update_self]
      exact ⟨_, List.getElem?_concat_length, rfl⟩
    · obtain ⟨st, hst, hadd⟩ := h.waits e c' hmem
      rw [Function.update_of_ne fun hcc : c' = c => hc e (hcc ▸ hmem)]
      exact ⟨st, getElem?_started w _ _ st hst, hadd⟩
  · by_cases hed : e = d
    · subst hed
      exact .inl ⟨temp, hentry temp e hent⟩
    · rw [update_update_some _ _ hed] at he
      refine (h.used e he).imp_left ?_
      rintro ⟨temp', ht⟩
      exact ⟨temp', hentry temp' e ht⟩
  · cases hq
    exact fun hm => (hw.shape.table.doms.off d hm).2 _ hent.1
  · obtain ⟨i, st, hi, hst, hadd⟩ := h.handed k hk q hq
    exact ⟨i, st, hi, getElem?_started w _ _ st hst, hadd⟩

/-- An answer arrives at a record that no function deletes. -/
theorem Waiters.reply (h : Waiters w ws ds) {q : Query} (rep : List Addr)
    (hwhen : w.stack = [] ∨ w.fresh = some q) :
    Waiters
      ((World.answer { w with fresh := none, queries := w.queries.erase q } q rep).onResult q rep)
      ws ds := by
  have hsame := SameNames.reply w ds q rep
  have hout : q.dom ∉ w.stack.filterMap Frame.holds := by
    rcases hwhen with hnil | hfr
    · rw [hnil]
      exact fun hm => by cases hm
    · exact h.fresh q hfr
  obtain ⟨live, heq⟩ :=
    World.answer_eq { w with fresh := none, queries := w.queries.erase q } q rep
  obtain ⟨f, n, hf, hholds, -, hres, -⟩ := World.onResult_eq
    { w with fresh := none, queries := w.queries.erase q, live } q rep
  rw [heq, hres] at hsame ⊢
  refine h.congr hsame (fun _ _ hst => hst) rfl (fun _ _ hc => hc) (fun d _ hd => ?_)
    ⟨fun q' hq' => ?_, h.below⟩ (fun q hq => by cases hq) fun k hk => .inl hk
  · show d ∈ (f :: w.stack).filterMap Frame.holds
    rwa [filterMap_holds_cons hholds]
  · rw [hf] at hq'
    cases hq'
    exact hout

theorem Waiters.move (h : Waiters w ws ds) (hn : Numbers w ds)
    (hm : Move Rules.timely w ws ds w' ws' ds') (hw : Sound w ws ds) : Waiters w' ws' ds' := by
  have hb := h.below
  cases hm with
  | fresh => exact ⟨h.waits, h.used, h.below, (fun q hq => by cases hq), h.handed⟩
  | crash e => exact ⟨h.waits, h.used, h.below, h.fresh, h.handed⟩
  | lost hd data huser hlost =>
    exact h.congr (.of_conf rfl rfl rfl rfl) (getElem?_started w _) rfl (fun _ _ hc => hc)
      (fun _ _ hd => hd) hb h.fresh fun k hk => .inl hk
  | direct hd data arg huser =>
    refine h.congr (.of_conf rfl rfl rfl rfl) (getElem?_started w _) rfl (fun _ _ hc => hc)
      (fun _ _ hd => hd) (hb.push rfl) h.fresh fun k hk => ?_
    rcases List.mem_cons.mp hk with rfl | hk
    · exact .inr fun q hq => by cases hq
    · exact .inl hk
  | gone huser hno => exact ⟨h.waits, h.used, h.below, h.fresh, h.handed⟩
  | @enter _ temp d s huser hent hshape =>
    refine ⟨fun e c hc => ?_, fun e he => ?_, hb, h.fresh, h.handed⟩
    · have hed : e ≠ d := fun hed => by
        rw [hed, hent.waiters] at hc
        cases hc
      show ∃ st, w.started[w.owner c]? = some st ∧ st.add = some (Function.update w.inc d w.adds e)
      rw [Function.update_of_ne hed]
      exact h.waits e c hc
    · refine (h.used e he).imp_left ?_
      rintro ⟨temp', ht⟩
      exact ⟨temp', (hent.entry temp' e).mpr (.inr ht)⟩
  | wait hd data huser hent hnaddrs hc hdom hctx hidx hshape =>
    exact h.wait hw hd data hent hc hdom hidx
  | @unlink temp d l₁ l₂ huser hfresh hbk hd =>
    refine ⟨h.waits, fun e he => ?_, (hb.push rfl), fun q hq => ?_, h.handed⟩
    · rcases h.used e he with ⟨temp', ht⟩ | hm
      · by_cases htt : temp' = temp
        · subst htt
          rw [hw.shape.table.entry_unique ht hd]
          exact .inr List.mem_cons_self
        · exact .inl ⟨temp', (entry_unlink hw.shape.table hbk hd temp' e).mpr ⟨htt, ht⟩⟩
      · exact .inr (List.mem_cons_of_mem _ hm)
    · change w.fresh = some q at hq
      rw [hfresh] at hq
      cases hq
  | timer p hstack hfresh =>
    refine h.congr (.of_conf rfl rfl rfl rfl) (fun _ _ hst => hst) rfl (fun _ _ hc => hc)
      (fun d _ hd => ?_) (Below.push rfl trivial) (fun q _ hm => by cases hm)
      fun k hk => .inl hk
    rw [hstack] at hd
    cases hd
  | issue hstack =>
    refine h.congr (.of_conf rfl rfl rfl rfl) (fun _ _ hst => hst) rfl (fun _ _ hc => hc)
      (fun d _ hd => ?_) (Below.push rfl trivial) (fun q _ hm => by cases hm)
      fun k hk => .inl hk
    rw [hstack] at hd
    cases hd
  | @ended f st hstack hcalls hholds hdrains hstored =>
    have heq : w.stack.filterMap Frame.holds = st.filterMap Frame.holds := by
      rw [hstack, filterMap_holds_cons hholds]
    rw [hstack] at hb
    refine h.congr (.of_conf rfl rfl rfl rfl) (fun _ _ hst => hst) rfl (fun _ _ hc => hc)
      (fun d _ hd => heq ▸ hd) hb.2 (fun q hq => heq ▸ h.fresh q hq) fun k hk => .inl hk
  | turned hstack hcalls hcalls' halike hfresh hloop =>
    exact h.exchange (.of_conf rfl rfl rfl rfl) hstack rfl halike.holds halike.reply rfl rfl rfl
      (fun _ _ hc => hc) fun k hk => .inl hk
  | @invoke f f' st d c l hd data arg hstack hcalls hcalls' halike hdrains hgoes hl hh hdata
      hshape =>
    refine h.exchange (.of_records rfl rfl rfl (fun _ => rfl) (fun _ => rfl) (.setDom rfl rfl rfl))
      hstack rfl halike.holds halike.reply rfl rfl rfl (fun e c' hc' => ?_) fun k hk => ?_
    · refine mem_update_of_sub (fun a ha => ?_) hc'
      rw [hl]
      exact List.mem_cons_of_mem _ ha
    · rcases List.mem_cons.mp hk with rfl | hk
      · have hc : c ∈ ws (some d) := by
          rw [hl]
          exact List.mem_cons_self
        exact .inr fun q hq => h.own hn hw.shape hstack hdrains hc hq (hgoes q hq)
      · exact .inl hk
  | @giveBack f f' st c hstack hcalls hcalls' halike hfresh hloop =>
    have hws : ∀ d, Function.update ws none (c :: ws none) (some d) = ws (some d) := fun d =>
      Function.update_of_ne (by simp) _ _
    exact h.exchange (.of_records rfl rfl rfl (fun _ => rfl) (fun _ => rfl) (.refl _)) hstack rfl
      halike.holds halike.reply rfl rfl rfl (fun d c' hc' => hws d ▸ hc') fun k hk => .inl hk
  | @freed d st hstack hd =>
    have heq : w.stack.filterMap Frame.holds = d :: st.filterMap Frame.holds := by
      rw [hstack]
      rfl
    rw [hstack] at hb
    refine h.congr (.of_records rfl rfl rfl (fun _ => rfl)
      (fun b => Function.update_of_ne (by simp) _ _) (.putDomain _ _)) (fun _ _ hst => hst) rfl
      (fun _ _ hc => hc) (fun e he hm => ?_) hb.2 (fun q hq hm => ?_) fun k hk => .inl hk
    · rw [heq] at hm
      exact (List.mem_cons.mp hm).resolve_left fun hed => he (hed ▸ hd)
    · refine h.fresh q hq ?_
      rw [heq]
      exact List.mem_cons_of_mem _ hm
  | reply hq hwhen hgoes hfits => exact h.reply _ hwhen
  | store hstack hi ha hgoes hfresh =>
    exact h.exchange (.setDom (by rfl) _ ds) hstack rfl rfl rfl rfl rfl rfl (fun _ _ hc => hc)
      fun k hk => .inl hk

/-! ## Slots -/

theorem Frame.storing_eq_some {d i n : Nat} {f : Frame} {rep : List Addr} :
    f.storing d i = some (rep, n) ↔
      ∃ q, f.stored = some (q, rep, n) ∧ q.dom = d ∧ q.add = some i := by
  unfold Frame.storing
  constructor
  · intro h
    split at h
    · next q rep' n' hf =>
      split at h
      · next hq =>
        cases h
        exact ⟨q, hf, hq⟩
      · cases h
    · cases h
  · rintro ⟨q, hf, hq⟩
    rw [hf]
    exact if_pos hq

theorem Frame.storing_none {f : Frame} (hf : f.stored = none) (d i : Nat) :
    f.storing d i = none := by
  unfold Frame.storing
  rw [hf]

theorem Frame.reply_of_stored {f : Frame} {q : Query} {rep : List Addr} {n : Nat}
    (h : f.stored = some (q, rep, n)) : f.reply = some q := by
  cases f <;> cases h <;> rfl

/-- A function with an answer for another record. -/
theorem Frame.storing_of_ne {f : Frame} {q : Query} {d i : Nat} (hreply : f.reply = some q)
    (hd : q.dom ≠ d) : f.storing d i = none := by
  rw [Option.eq_none_iff_forall_ne_some]
  rintro ⟨rep, n⟩ hfs
  obtain ⟨q', hstored, hq', -⟩ := Frame.storing_eq_some.mp hfs
  have hqq := Frame.reply_of_stored hstored
  rw [hreply] at hqq
  cases hqq
  exact hd hq'

theorem Frame.Alike.storing {f f' : Frame} (h : f.Alike f') (d i : Nat) :
    f'.storing d i = f.storing d i := by
  unfold Frame.storing
  rw [h.stored]

/-- What the record `d` of the add `i` holds: the addresses `as`, or as many of
them as have been stored. -/
def World.Keeps (w : World η δ) (d i : Nat) (as : List Addr) : Prop :=
  (w.storing d i = [] ∧ (w.conf.dom d).Stored as (w.conf.dom d).naddrs) ∨
    ∃ n, w.storing d i = [(as, n)] ∧ (w.conf.dom d).Stored as n

theorem World.Keeps.naddrs {d i : Nat} {as : List Addr} (h : w.Keeps d i as) :
    (w.conf.dom d).naddrs = min as.length maxAddrs := by
  rcases h with ⟨-, h⟩ | ⟨n, -, h⟩ <;> exact h.1

structure Slots (w : World η δ) (ds : Option Nat → List Nat) : Prop where
  stored : ∀ temp i as d, w.live temp = some (i, as) → Entry w.conf ds temp d → w.Keeps d i as
  fits : ∀ f ∈ w.stack, ∀ q rep n, f.stored = some (q, rep, n) → rep ≠ [] ∧ Fits rep
  fresh : ∀ q, w.fresh = some q → ∀ temp i as, w.live temp = some (i, as) →
    Entry w.conf ds temp q.dom → w.storing q.dom i = []

theorem Slots.congr (h : Slots w ds)
    (hlive : ∀ temp i as, w'.live temp = some (i, as) → w.live temp = some (i, as))
    (hentry : ∀ temp d, Entry w'.conf ds' temp d → Entry w.conf ds temp d)
    (hrec : SameRecords w.conf w'.conf) (hstoring : ∀ d i, w'.storing d i = w.storing d i)
    (hfits : ∀ f ∈ w'.stack, f.stored ≠ none → ∃ g ∈ w.stack, g.stored = f.stored)
    (hfresh : ∀ q, w'.fresh = some q → w.fresh = some q ∨ ∀ temp i as,
      w.live temp = some (i, as) → Entry w.conf ds temp q.dom → w.storing q.dom i = []) :
    Slots w' ds' := by
  refine ⟨fun temp i as d hl hd => ?_, fun f hf q rep n hs => ?_, fun q hq temp i as hl hd => ?_⟩
  · unfold World.Keeps
    rw [hstoring, (hrec d).2.1]
    exact (h.stored temp i as d (hlive temp i as hl) (hentry temp d hd)).imp
      (fun hk => ⟨hk.1, hrec.stored hk.2⟩) fun ⟨n, hk⟩ => ⟨n, hk.1, hrec.stored hk.2⟩
  · obtain ⟨g, hg, hgs⟩ := hfits f hf (by rw [hs]; simp)
    exact h.fits g hg q rep n (hgs.trans hs)
  · rw [hstoring]
    have hl' := hlive temp i as hl
    have hd' := hentry temp q.dom hd
    exact (hfresh q hq).elim (fun hq => h.fresh q hq temp i as hl' hd') fun hq =>
      hq temp i as hl' hd'

theorem storing_push {f : Frame} {st : List Frame} (hf : f.stored = none) (d i : Nat) :
    (f :: st).filterMap (Frame.storing d i) = st.filterMap (Frame.storing d i) := by
  rw [List.filterMap_cons, Frame.storing_none hf]

theorem Frame.Alike.filterMap_storing {f f' : Frame} (h : f.Alike f') (st : List Frame)
    (d i : Nat) : (f' :: st).filterMap (Frame.storing d i) =
      (f :: st).filterMap (Frame.storing d i) := by
  rw [List.filterMap_cons, List.filterMap_cons, h.storing]

theorem stored_mem_push {f : Frame} (hf : f.stored = none) :
    ∀ g ∈ f :: w.stack, g.stored ≠ none → ∃ g' ∈ w.stack, g'.stored = g.stored := by
  intro g hg hr
  rcases List.mem_cons.mp hg with rfl | hg
  · exact absurd hf hr
  · exact ⟨g, hg, rfl⟩

theorem stored_mem_pop {f : Frame} {st : List Frame} (hstack : w.stack = f :: st) :
    ∀ g ∈ st, g.stored ≠ none → ∃ g' ∈ w.stack, g'.stored = g.stored := by
  intro g hg _
  rw [hstack]
  exact ⟨g, List.mem_cons_of_mem _ hg, rfl⟩

theorem Frame.Alike.stored_mem {f f' : Frame} {st : List Frame} (h : f.Alike f')
    (hstack : w.stack = f :: st) :
    ∀ g ∈ f' :: st, g.stored ≠ none → ∃ g' ∈ w.stack, g'.stored = g.stored := by
  intro g hg _
  rw [hstack]
  rcases List.mem_cons.mp hg with rfl | hg
  · exact ⟨f, List.mem_cons_self, h.stored.symm⟩
  · exact ⟨g, List.mem_cons_of_mem _ hg, rfl⟩

/-- No answer is being stored for an add that has no number yet. -/
theorem Asked.storing_nil (h : Asked w) (d : Nat) : w.storing d w.adds = [] := by
  unfold World.storing
  rw [List.filterMap_eq_nil_iff]
  intro f hf
  rw [Option.eq_none_iff_forall_ne_some]
  rintro ⟨rep, n⟩ hs
  obtain ⟨q, hfs, -, hadd⟩ := Frame.storing_eq_some.mp hs
  exact Nat.lt_irrefl _ (h.lt q w.adds (.inr ⟨f, hf, Frame.reply_of_stored hfs⟩) hadd)

/-- A record without addresses has no answer stored in it. -/
theorem Slots.storing_nil (h : Slots w ds) {temp : List UInt8} {i d : Nat} {as : List Addr}
    (hl : w.live temp = some (i, as)) (hd : Entry w.conf ds temp d)
    (hnaddrs : (w.conf.dom d).naddrs = 0) : w.storing d i = [] := by
  rcases h.stored temp i as d hl hd with ⟨hnil, -⟩ | ⟨n, hs, hst⟩
  · exact hnil
  · have hmem : (as, n) ∈ w.storing d i := by
      rw [hs]
      exact List.mem_cons_self
    obtain ⟨f, hf, hfs⟩ := List.mem_filterMap.mp hmem
    obtain ⟨q, hfs, -⟩ := Frame.storing_eq_some.mp hfs
    have hlen := hst.1
    rw [hnaddrs] at hlen
    unfold maxAddrs at hlen
    have hpos := List.length_pos_of_ne_nil (h.fits f hf q as n hfs).1
    omega

/-- A function that has stored an answer returns. -/
theorem Slots.ended (h : Slots w ds) {f : Frame} {st : List Frame} (hstack : w.stack = f :: st)
    (hstored : ∀ q rep i, f.stored = some (q, rep, i) → (w.conf.dom q.dom).naddrs ≤ i) :
    Slots { w with stack := st } ds := by
  have hcons : ∀ d i, w.storing d i = (f :: st).filterMap (Frame.storing d i) := fun d i => by
    rw [← hstack]
    rfl
  refine ⟨fun temp i as d hl hd => ?_, fun g hg => h.fits g ?_, fun q hq temp i as hl hd => ?_⟩
  · have hk := h.stored temp i as d hl hd
    unfold World.Keeps at hk
    rw [hcons, List.filterMap_cons] at hk
    cases hs : f.storing d i with
    | none =>
      rw [hs] at hk
      exact hk
    | some x =>
      rw [hs] at hk
      rcases hk with ⟨hnil, -⟩ | ⟨n, heq, hst⟩
      · cases hnil
      · obtain ⟨rfl, hrest⟩ := List.cons.inj heq
        obtain ⟨q, hfs, hqd, -⟩ := Frame.storing_eq_some.mp hs
        have hle := hstored q as n hfs
        rw [hqd] at hle
        exact .inl ⟨hrest, hst.1, fun j hj => hst.2 j (Nat.lt_of_lt_of_le hj hle)⟩
  · rw [hstack]
    exact List.mem_cons_of_mem _ hg
  · have hnil := h.fresh q hq temp i as hl hd
    rw [hcons, List.filterMap_eq_nil_iff] at hnil
    show st.filterMap _ = []
    rw [List.filterMap_eq_nil_iff]
    exact fun g hg => hnil g (List.mem_cons_of_mem _ hg)

/-- An address is stored. -/
theorem Slots.store (h : Slots w ds) (hs : Shape w ws ds) {q : Query} {rep : List Addr} {k n : Nat}
    {a : Addr} {st : List Frame} (hstack : w.stack = .store q rep k :: st)
    (hk : k < (w.conf.dom q.dom).naddrs) (ha : rep[k]? = some a) (hgoes : w.Serves q)
    (hfresh : w.fresh = none) :
    Slots { w with
      conf := w.conf.setDom q.dom
        { w.conf.dom q.dom with addrs := storeAddr (w.conf.dom q.dom).addrs k a }
      stack := .wait q rep k n none :: st } ds := by
  have hcons : ∀ d i, w.storing d i = (.store q rep k :: st).filterMap (Frame.storing d i) :=
    fun d i => by
      rw [← hstack]
      rfl
  have hfit := h.fits _ (by rw [hstack]; exact List.mem_cons_self) q rep k rfl
  have hentry := (SameNames.setDom (w := w) (d := q.dom)
    (x := { w.conf.dom q.dom with addrs := storeAddr (w.conf.dom q.dom).addrs k a }) rfl
    (.wait q rep k n none :: st) ds).entry
  refine ⟨fun temp i as d hl hd => ?_, fun f hf q' rep' n' hfs => ?_, fun q' hq' => ?_⟩
  · have hd' := (hentry temp d).mp hd
    have hkeeps := h.stored temp i as d hl hd'
    unfold World.Keeps at hkeeps
    rw [hcons, List.filterMap_cons] at hkeeps
    have hiff := hgoes.iff hs (World.num_eq hl) hd'
    show (_ ∧ ((w.conf.setDom q.dom _).dom d).Stored as _) ∨
      ∃ n, _ ∧ ((w.conf.setDom q.dom _).dom d).Stored as n
    by_cases hqd : q.dom = d
    · -- the answer is that of the entry
      subst hqd
      have hq : q.dom = q.dom ∧ q.add = some i := ⟨rfl, hiff.mp rfl⟩
      have h1 : Frame.storing q.dom i (.store q rep k) = some (rep, k) :=
        Frame.storing_eq_some.mpr ⟨q, rfl, hq⟩
      have h2 : Frame.storing q.dom i (.wait q rep k n none) = some (rep, k + 1) :=
        Frame.storing_eq_some.mpr ⟨q, rfl, hq⟩
      rw [h1] at hkeeps
      obtain ⟨hnil, -⟩ | ⟨n', heq, hst⟩ := hkeeps
      · cases hnil
      · obtain ⟨hpair, hrest⟩ := List.cons.inj heq
        cases hpair
        refine .inr ⟨k + 1, ?_, ?_⟩
        · show (Frame.wait q rep k n none :: st).filterMap _ = _
          rw [List.filterMap_cons, h2, hrest]
        · rw [Conf.setDom_self]
          exact hst.next hk ha hfit.2
    · rw [Frame.storing_of_ne (q := q) rfl hqd] at hkeeps
      have hst : (Frame.wait q rep k n none :: st).filterMap (Frame.storing d i) =
          st.filterMap (Frame.storing d i) := by
        rw [List.filterMap_cons, Frame.storing_of_ne (q := q) rfl hqd]
      rw [Conf.setDom_of_ne _ _ (Ne.symm hqd)]
      show ((Frame.wait q rep k n none :: st).filterMap _ = [] ∧ _) ∨
        ∃ n', (Frame.wait q rep k n none :: st).filterMap _ = _ ∧ _
      rw [hst]
      exact hkeeps
  · rcases List.mem_cons.mp hf with rfl | hf
    · cases hfs
      exact hfit
    · refine h.fits f ?_ q' rep' n' hfs
      rw [hstack]
      exact List.mem_cons_of_mem _ hf
  · change w.fresh = some q' at hq'
    rw [hfresh] at hq'
    cases hq'

/-- What a reply does to the record of the names. -/
theorem World.answer_eq_some {q : Query} {rep : List Addr} {temp : List UInt8} {i : Nat}
    {as : List Addr} (h : (w.answer q rep).live temp = some (i, as)) :
    (temp = q.name ∧ q.add = some i ∧ rep ≠ [] ∧ as = rep) ∨
      (w.live temp = some (i, as) ∧ (temp = q.name → q.add = some i → rep = [])) := by
  unfold World.answer at h
  split at h
  · next j as' hq =>
    split at h
    · next hr =>
      change Function.update w.live q.name (some (j, rep)) temp = some (i, as) at h
      by_cases ht : temp = q.name
      · subst ht
        rw [Function.update_self] at h
        cases h
        exact .inl ⟨rfl, hr.1, hr.2, rfl⟩
      · rw [Function.update_of_ne ht] at h
        exact .inr ⟨h, fun h' => absurd h' ht⟩
    · next hr =>
      refine .inr ⟨h, fun ht hi => ?_⟩
      rw [ht, hq] at h
      cases h
      by_contra hne
      exact hr ⟨hi, hne⟩
  · next hq =>
    refine .inr ⟨h, fun ht _ => ?_⟩
    rw [ht, hq] at h
    cases h

/-- An answer is delivered. -/
theorem Slots.reply (h : Slots w ds) (hs : Shape w ws ds) (hasked : Asked w) {q : Query}
    {rep : List Addr} (hq : q ∈ w.queries) (hwhen : w.stack = [] ∨ w.fresh = some q)
    (hgoes : w.Serves q) (hfits : Fits rep) :
    Slots ((World.answer { w with fresh := none, queries := w.queries.erase q } q rep).onResult q
      rep) ds := by
  have hsame := SameNames.reply w ds q rep
  have hanswer := @World.answer_eq_some η δ
    { w with fresh := none, queries := w.queries.erase q } q rep
  obtain ⟨live, heq⟩ :=
    World.answer_eq { w with fresh := none, queries := w.queries.erase q } q rep
  rw [heq] at hsame hanswer ⊢
  obtain ⟨f, n, hreply, -, -, hres, hcase⟩ := World.onResult_eq
    { w with fresh := none, queries := w.queries.erase q, live } q rep
  rw [hres] at hsame ⊢
  -- the entry asked for has no answer being stored in it
  have hidle : ∀ temp i as, w.live temp = some (i, as) → Entry w.conf ds temp q.dom →
      w.storing q.dom i = [] := fun temp i as hl hd => by
    rcases hwhen with hnil | hfr
    · unfold World.storing
      rw [hnil]
      rfl
    · exact h.fresh q hfr temp i as hl hd
  refine ⟨fun temp i as d hl hd => ?_, fun g hg q' rep' n' hfs => ?_, fun q' hq' => by cases hq'⟩
  · have hd' := (hsame.entry temp d).mp hd
    obtain ⟨i', as', hl'⟩ := hs.num hd'
    have hi : i' = i := by
      have hnum := hsame.num temp
      rw [World.num_eq hl, World.num_eq hl'] at hnum
      exact (Option.some.inj hnum).symm
    subst hi
    have hiff := hgoes.iff hs (World.num_eq hl') hd'
    have hkeeps := h.stored temp i' as' d hl' hd'
    show ((f :: w.stack).filterMap (Frame.storing d i') = [] ∧
      ((w.conf.setDom q.dom _).dom d).Stored as _) ∨
      ∃ k, (f :: w.stack).filterMap (Frame.storing d i') = [(as, k)] ∧
        ((w.conf.setDom q.dom _).dom d).Stored as k
    by_cases hqd : q.dom = d
    · subst hqd
      have hadd := hiff.mp rfl
      have hname : q.name = temp := hasked.name q i' temp (.inl hq) hadd (World.num_eq hl')
      rcases hcase with ⟨hrep, hf, hn⟩ | ⟨hrep, hf, hn⟩
      · -- a failure keeps the last good addresses
        have hlive : w.live temp = some (i', as) := by
          rcases hanswer hl with ⟨-, -, hne, -⟩ | ⟨hl, -⟩
          · exact absurd hrep hne
          · exact hl
        rw [hl'] at hlive
        cases hlive
        rw [storing_push (by rw [hf]; rfl), Conf.setDom_self, hn]
        exact hkeeps
      · have has : as = rep := by
          rcases hanswer hl with ⟨-, -, -, has⟩ | ⟨-, hnone⟩
          · exact has
          · exact absurd (hnone hname.symm hadd) hrep
        subst has
        refine .inr ⟨0, ?_, ?_⟩
        · have h1 : f.storing q.dom i' = some (as, 0) :=
            Frame.storing_eq_some.mpr ⟨q, by rw [hf]; rfl, rfl, hadd⟩
          have h2 := hidle temp i' as' hl' hd'
          rw [List.filterMap_cons, h1]
          exact congrArg _ h2
        · rw [Conf.setDom_self]
          exact ⟨hn, fun j hj => absurd hj (Nat.not_lt_zero j)⟩
    · -- another record: neither it nor the addresses of its name change
      have hadd : q.add ≠ some i' := fun hadd => hqd (hiff.mpr hadd)
      have hlive : w.live temp = some (i', as) := by
        rcases hanswer hl with ⟨-, ha, -⟩ | ⟨hl, -⟩
        · exact absurd ha hadd
        · exact hl
      rw [hl'] at hlive
      cases hlive
      rw [List.filterMap_cons, Frame.storing_of_ne hreply hqd, Conf.setDom_of_ne _ _ (Ne.symm hqd)]
      exact hkeeps
  · rcases List.mem_cons.mp hg with rfl | hg
    · rcases hcase with ⟨-, hf, -⟩ | ⟨hrep, hf, -⟩
      · rw [hf] at hfs
        cases hfs
      · rw [hf] at hfs
        cases hfs
        exact ⟨hrep, hfits⟩
    · exact h.fits g hg q' rep' n' hfs

theorem live_drop {temp temp' : List UInt8} {x : Nat × List Addr}
    (h : Function.update w.live temp none temp' = some x) : w.live temp' = some x := by
  by_cases ht : temp' = temp
  · subst ht
    rw [Function.update_self] at h
    cases h
  · rwa [Function.update_of_ne ht] at h

theorem Frame.Alike.storing_eq {f f' : Frame} {st : List Frame} (h : f.Alike f')
    (hstack : w.stack = f :: st) (d i : Nat) :
    (f' :: st).filterMap (Frame.storing d i) = w.storing d i := by
  unfold World.storing
  rw [h.filterMap_storing, hstack]

/-- A new entry has no addresses. -/
theorem Slots.enter (h : Slots w ds) (hasked : Asked w) {temp : List UInt8} {d : Nat}
    {s : Conf η δ} (hent : Entered w ws ds ds' temp d s) :
    Slots (World.enter { w with conf := s } temp d) ds' := by
  have hcase : ∀ {temp' i as e},
      Function.update w.live temp (some (w.adds, [])) temp' = some (i, as) →
      Entry s ds' temp' e → (i = w.adds ∧ as = [] ∧ e = d) ∨
        (w.live temp' = some (i, as) ∧ Entry w.conf ds temp' e ∧ e ≠ d) := by
    intro temp' i as e hl he
    rcases (hent.entry temp' e).mp he with ⟨ht, hed⟩ | he
    · rw [ht, Function.update_self] at hl
      cases hl
      exact .inl ⟨rfl, rfl, hed⟩
    · rw [Function.update_of_ne fun ht : temp' = temp => hent.new e (ht ▸ he)] at hl
      exact .inr ⟨hl, he, fun hed => hent.off _ (hed ▸ he.1)⟩
  refine ⟨fun temp' i as e hl he => ?_, h.fits, fun q hq temp' i as hl he => ?_⟩
  · show (w.storing e i = [] ∧ (s.dom e).Stored as (s.dom e).naddrs) ∨
      ∃ n, w.storing e i = [(as, n)] ∧ (s.dom e).Stored as n
    rcases hcase hl he with ⟨rfl, rfl, rfl⟩ | ⟨hl, he, hne⟩
    · refine .inl ⟨hasked.storing_nil e, ?_, fun j hj hjn => ?_⟩
      · rw [hent.naddrs]
        rfl
      · rw [hent.naddrs] at hjn
        exact absurd hjn (Nat.not_lt_zero j)
    · rw [hent.other e hne]
      exact h.stored temp' i as e hl he
  · rcases hcase hl he with ⟨rfl, -, -⟩ | ⟨hl, he, -⟩
    · exact hasked.storing_nil _
    · exact h.fresh q hq temp' i as hl he

theorem Slots.move (h : Slots w ds) (hasked : Asked w) (hm : Move Rules.timely w ws ds w' ws' ds')
    (hw : Sound w ws ds) : Slots w' ds' := by
  cases hm with
  | fresh => exact ⟨h.stored, h.fits, fun q hq => by cases hq⟩
  | crash e => exact ⟨h.stored, h.fits, h.fresh⟩
  | lost hd data huser hlost => exact ⟨h.stored, h.fits, h.fresh⟩
  | direct hd data arg huser =>
    exact h.congr (fun _ _ _ hl => hl) (fun _ _ hd => hd) (.refl _) (storing_push rfl)
      (stored_mem_push rfl) fun q hq => .inl hq
  | @gone temp huser hno =>
    exact h.congr (fun _ _ _ => live_drop) (fun _ _ hd => hd) (.refl _) (fun _ _ => rfl)
      (fun g hg _ => ⟨g, hg, rfl⟩) fun q hq => .inl hq
  | enter huser hent hshape => exact h.enter hasked hent
  | @wait temp d c s l hd data huser hent hnaddrs hc hdom hctx hidx hshape =>
    have hrec := SameRecords.waits hdom d c hd data
    refine h.congr (fun _ _ _ hl => hl) (fun temp' e => ?_) hrec (fun _ _ => rfl)
      (fun g hg _ => ⟨g, hg, rfl⟩) fun q hq => ?_
    · exact (entry_congr (show ∀ temp, (pushCtx s d c hd data).idx temp = _ from hidx)
        (fun _ => rfl) (fun e => (hrec e).1) temp' e).mp
    · cases hq
      exact .inr fun temp' i as hl hd => h.storing_nil hl hd hnaddrs
  | @unlink temp d l₁ l₂ huser hfresh hbk hd =>
    exact h.congr (fun _ _ _ => live_drop)
      (fun temp' e he => ((entry_unlink hw.shape.table hbk hd temp' e).mp he).2)
      (fun e => unlink_domain _ _ _ _ e) (storing_push rfl) (stored_mem_push rfl)
      fun q hq => .inl hq
  | timer p hstack hfresh =>
    refine h.congr (fun _ _ _ hl => hl) (fun _ _ hd => hd) (.refl _) (fun d i => ?_)
      (fun g hg hr => ?_) fun q hq => .inl hq
    · show [Frame.tick 0 p].filterMap _ = w.stack.filterMap _
      rw [hstack]
      rfl
    · rw [List.mem_singleton.mp hg] at hr
      exact absurd rfl hr
  | @issue i d hstack =>
    have halike : Frame.Alike (.tick i (some d)) (.ticked i d) := ⟨rfl, rfl, rfl, rfl, rfl⟩
    refine h.congr (fun _ _ _ hl => hl) (fun _ _ hd => hd) (.refl _) (fun e j => ?_)
      (halike.stored_mem hstack) fun q hq => .inr fun _ _ _ _ _ => ?_
    · show [Frame.ticked i d].filterMap _ = w.stack.filterMap _
      rw [hstack]
      rfl
    · unfold World.storing
      rw [hstack]
      rfl
  | ended hstack hcalls hholds hdrains hstored => exact h.ended hstack hstored
  | @turned f f' st hstack hcalls hcalls' halike hfresh hloop =>
    exact h.congr (fun _ _ _ hl => hl) (fun _ _ hd => hd) (.refl _)
      (halike.storing_eq hstack) (halike.stored_mem hstack) fun q hq => .inl hq
  | @invoke f f' st d c l hd data arg hstack hcalls hcalls' halike hdrains hgoes hl hh hdata
      hshape =>
    exact h.congr (fun _ _ _ hl => hl)
      (fun temp e => ((SameNames.setDom (by rfl) st ds).entry temp e).mp)
      (.setDom rfl rfl rfl) (halike.storing_eq hstack) (halike.stored_mem hstack)
      fun q hq => .inl hq
  | @giveBack f f' st c hstack hcalls hcalls' halike hfresh hloop =>
    exact h.congr (fun _ _ _ hl => hl) (fun _ _ hd => hd) (.refl _)
      (halike.storing_eq hstack) (halike.stored_mem hstack) fun q hq => .inl hq
  | @freed d st hstack hd =>
    have hs : SameNames w { w with conf := putDomain w.conf d, stack := st } ds
        (Function.update ds none (d :: ds none)) :=
      .of_records rfl rfl rfl (fun _ => rfl) (fun b => Function.update_of_ne (by simp) _ _)
        (.putDomain _ _)
    refine h.congr (fun _ _ _ hl => hl) (fun temp e => (hs.entry temp e).mp) (.putDomain _ _)
      (fun e i => ?_) (stored_mem_pop hstack) fun q hq => .inl hq
    show st.filterMap _ = w.stack.filterMap _
    rw [hstack, storing_push rfl]
  | reply hq hwhen hgoes hfits => exact h.reply hw.shape hasked hq hwhen hgoes hfits
  | store hstack hi ha hgoes hfresh => exact h.store hw.shape hstack hi ha hgoes hfresh

end

/-! ## Runs -/

/-- All of the above. -/
structure Addrs (w : World η δ) (ws ds : Option Nat → List Nat) : Prop where
  numbers : Numbers w ds
  asked : Asked w
  waiters : Waiters w ws ds
  slots : Slots w ds

theorem Addrs.closed : Closed (η := η) (δ := δ) Rules.timely Addrs := fun hw h hm =>
  ⟨h.numbers.move hm hw, h.asked.move h.numbers hm hw, h.waiters.move h.numbers hm hw,
    h.slots.move h.asked hm hw⟩

/-- Whenever `ngx_dynamic_resolver_on_result` is called, and whenever it goes on
behind a user handler, the record of its query serves that query; the addresses
of an answer fit their slots. -/
def Timely (w : World η δ) : Label η δ → Prop
  | .reply q rep => w.Serves q ∧ Fits rep
  | .run _ => ∀ f st q, w.stack = f :: st → f.reply = some q → w.Serves q
  | _ => True

theorem timely_allow {pton : List UInt8 → Nat} {w : World η δ} {l : Label η δ}
    (h : Timely w l) : Rules.timely.allow pton w l := by
  cases l with
  | start domain hd data pcallocDomain pcallocCtx rand => exact .inr trivial
  | reply q rep => exact h
  | run rand => exact h
  | _ => trivial

/-- A name in the table has an entry, with the addresses of the last good reply
to a query for the name since it was added (the first of them, while that reply
is being stored); other names have none; and answers are handed to the waiters
of the add they were asked for. -/
structure Current (w : World η δ) : Prop where
  entry : ∀ temp i as, w.live temp = some (i, as) → ∃ d,
    hostSearch w.conf temp w.conf.nallocDomain = some (some d) ∧ (w.conf.dom d).domain = temp ∧
      w.Keeps d i as
  gone : ∀ temp, w.live temp = none → hostSearch w.conf temp w.conf.nallocDomain = some none
  handed : ∀ k ∈ w.called, ∀ q, k.reply = some q →
    ∃ i st, q.add = some i ∧ w.started[k.start]? = some st ∧ st.add = some i

theorem Addrs.current {w : World η δ} {ws ds : Option Nat → List Nat} (h : Addrs w ws ds)
    (hs : Shape w ws ds) : Current w := by
  refine ⟨fun temp i as hl => ?_, fun temp hl => ?_, h.waiters.handed⟩
  · obtain ⟨d, hd⟩ := (hs.live temp).mp (by rw [hl]; rfl)
    refine ⟨d, ?_, hd.2, h.slots.stored temp i as d hl hd⟩
    rw [hs.table.hostSearch_eq temp (Nat.le_refl _), hs.table.find?_eq_some.mpr hd]
  · rw [hs.table.hostSearch_eq temp (Nat.le_refl _), hs.table.find?_eq_none.mpr fun d hd => ?_]
    have := (hs.live temp).mpr ⟨d, hd⟩
    rw [hl] at this
    cases this

section
variable {pton : List UInt8 → Nat} {refreshInterval domainBuckets : Nat} {hashed : Bool}

/-- Nobody has asked for anything at the start. -/
theorem addrs_start : Addrs (η := η) (δ := δ)
    (machine pton refreshInterval domainBuckets hashed).start (fun _ => []) (fun _ => []) := by
  have hasks : ∀ q, ¬ (machine (η := η) (δ := δ) pton refreshInterval domainBuckets
      hashed).start.Asks q := by
    rintro q (hq | ⟨f, hf, -⟩)
    · cases hq
    · cases hf
  refine ⟨⟨?_, ?_, ?_⟩, ⟨fun q i hq => absurd hq (hasks q), fun q i temp hq => absurd hq (hasks q)⟩,
    ⟨?_, fun d hd => absurd rfl hd, trivial, ?_, ?_⟩, ⟨?_, ?_, ?_⟩⟩
  · intro temp i d hi
    cases hi
  · intro temp temp' i hi
    cases hi
  · intro temp i hi
    cases hi
  · intro d c hc
    cases hc
  · intro q hq
    cases hq
  · intro k hk
    cases hk
  · intro temp i as d hl
    cases hl
  · intro f hf
    cases hf
  · intro q hq
    cases hq

/-- **Addresses.**  In every state of a run whose answers find the record of
their query, each entry holds the addresses of the last good reply for its name. -/
theorem reach_current {w : World η δ}
    (hw : (machine pton refreshInterval domainBuckets hashed).ReachIf Timely w) : Current w := by
  obtain ⟨ws, ds, hs, h⟩ := Addrs.closed.reach addrs_start (fun w l => timely_allow) hw
  exact h.current hs.shape

/-- One name in the table, whose query is answered. -/
theorem serves_only {w : World η δ} {q : Query} (temp : List UInt8)
    (hlive : ∀ temp', temp' ≠ temp → w.live temp' = none) (hadd : w.num temp = q.add)
    (hs : hostSearch w.conf temp w.conf.nallocDomain = some (some q.dom)) : w.Serves q := by
  intro temp' i d hi hd
  have ht : temp' = temp := by
    by_contra hne
    unfold World.num at hi
    rw [hlive temp' hne] at hi
    cases hi
  rw [ht] at hi hd
  rw [hs] at hd
  cases hd
  rw [← hadd, hi]
  exact ⟨fun _ => rfl, fun _ => rfl⟩

/-- An address of zero bytes. -/
def someAddr : Addr := ⟨List.replicate 16 0, 0, 1, .inl rfl⟩

def otherAddr : Addr := ⟨List.replicate 16 1, 0, 1, .inl rfl⟩

theorem twoAddrs_length : ∀ a ∈ [someAddr, otherAddr], a.sockaddr.length = 16 := by
  intro a ha
  rcases List.mem_cons.mp ha with rfl | ha
  · rfl
  · rw [List.mem_singleton.mp ha]
    rfl

/-- Two waiters and two addresses; the handler of the first waiter starts the name again. -/
theorem reach_current_two : ∃ w : World Unit Unit,
    (machine (fun _ => 0) 60 1 true).ReachIf Timely w ∧ w.stack = [] ∧
      w.live [97] = some (0, [someAddr, otherAddr]) ∧ w.called.map (·.start) = [0, 2, 1] ∧
      Current w := by
  -- in all states of the run `a` is the only name
  have hrun {w : World Unit Unit} {f : Frame} {x y : Nat × List Addr} (hstack : w.stack = [f])
      (hreply : f.reply = some ⟨0, [97], some 0⟩)
      (hlive : w.live = Function.update (Function.update (fun _ => none) [97] (some x)) [97]
        (some y)) (hy : y.1 = 0)
      (hhost : hostSearch w.conf [97] w.conf.nallocDomain = some (some 0)) (r : Nat) :
      Timely w (.run r) := by
    intro f' st q hstack' hreply'
    cases hstack.symm.trans hstack'
    cases hreply.symm.trans hreply'
    refine serves_only [97] (fun temp ht => ?_) ?_ hhost
    · rw [hlive, Function.update_of_ne ht, Function.update_of_ne ht]
    · unfold World.num
      rw [hlive, Function.update_self, Option.map_some, hy]
  have hok : (machine (fun _ => 0) 60 1 true).Meets Timely (machine (fun _ => 0) 60 1 true).start
      [.start (some [97]) () () true true 0, .start (some [97]) () () true true 0,
        .reply ⟨0, [97], some 0⟩ [someAddr, otherAddr], .run 0, .run 0,
        .start (some [97]) () () true true 0, .ret, .ret, .run 0, .ret, .run 0, .run 0, .run 0,
        .run 0] := by
    refine .cons trivial rfl (.cons trivial rfl (.cons ⟨serves_only [97]
      (fun temp ht => Function.update_of_ne ht _ _) rfl rfl, twoAddrs_length⟩ rfl ?_))
    refine .cons (hrun rfl rfl rfl rfl rfl _) rfl (.cons (hrun rfl rfl rfl rfl rfl _) rfl
      (.cons trivial rfl (.cons trivial rfl (.cons trivial rfl ?_))))
    refine .cons (hrun rfl rfl rfl rfl rfl _) rfl (.cons trivial rfl ?_)
    exact .cons (hrun rfl rfl rfl rfl rfl _) rfl (.cons (hrun rfl rfl rfl rfl rfl _) rfl
      (.cons (hrun rfl rfl rfl rfl rfl _) rfl (.cons (hrun rfl rfl rfl rfl rfl _) rfl trivial)))
  have hr := Machine.ReachIf.start.of_meets hok rfl
  exact ⟨_, hr, rfl, rfl, rfl, reach_current hr⟩

/-- The late answer for a name that was deleted is stored in the entry of the
name that was added after it. -/
theorem late_reply_stored :
    ¬ ∀ w : World Unit Unit, (machine (fun _ => 0) 60 1 true).Reach w → Current w := by
  intro hall
  have hr := (machine (η := Unit) (δ := Unit) (fun _ => 0) 60 1 true).reach_run
    [.start (some [97]) () () true true 0, .del (some [97]), .run 0, .ret, .run 0,
      .add (some [98]) true, .reply ⟨0, [97], some 0⟩ [someAddr], .run 0, .run 0, .run 0] rfl
  obtain ⟨d, hd, -, hk⟩ := (hall _ hr).entry [98] 1 [] rfl
  have h0 : some (some 0) = some (some d) := hd
  cases h0
  exact absurd hk.naddrs (by decide)

end

end NgxToolkit.DynamicResolver
