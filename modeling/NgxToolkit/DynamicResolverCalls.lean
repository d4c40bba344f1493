import Mathlib.Tactic.Common
import NgxToolkit.DynamicResolverShape

/-! What a call of the dynamic resolver's functions does.

Each call has one lemma that says all it can do to a worker: `World.add_cases`,
`World.del_cases`, `World.startEntry_cases` and `World.start_cases`.  A call
that does not get to the table leaves the worker, but for a fault or for the
record of a start call. -/

namespace NgxToolkit.DynamicResolver

open Lib

variable {η δ : Type}

/-- A C function goes on, or a handler returns to it. -/
def Label.isTurn : Label η δ → Bool
  | .run _ | .ret => true
  | _ => false

/-- `ngx_dynamic_resolver_start_resolver` comes to a call of `h` or waits. -/
def World.Answers (pton : List UInt8 → Nat) (w : World η δ) (domain : Option (List UInt8)) : Prop :=
  ∃ text, domain = some text ∧ text ≠ [] ∧
    (pton text = 0 → w.conf.refreshInterval ≠ 0 → text.length ≤ maxDomainLen →
      w.conf.hashFault = none ∧ HeadNamed w.conf (strlow text))

/-- A call with `domain` gets to the table, and the entry of its name is `d`. -/
def World.Finds (pton : List UInt8 → Nat) (w : World η δ) (domain : Option (List UInt8)) (d : Nat) :
    Prop :=
  ∃ text, domain = some text ∧ text ≠ [] ∧ pton text = 0 ∧ w.conf.refreshInterval ≠ 0 ∧
    text.length ≤ maxDomainLen ∧
    hostSearch w.conf (strlow text) w.conf.nallocDomain = some (some d)

/-- A call with `domain` gets to the table and finds no entry; the record for a new one is `d`. -/
def World.Takes (pton : List UInt8 → Nat) (w : World η δ) (domain : Option (List UInt8)) (d : Nat) :
    Prop :=
  ∃ text, domain = some text ∧ text ≠ [] ∧ pton text = 0 ∧ w.conf.refreshInterval ≠ 0 ∧
    text.length ≤ maxDomainLen ∧
    hostSearch w.conf (strlow text) w.conf.nallocDomain = some none ∧
    w.conf.freeDomain.getD w.conf.nallocDomain = d

section
variable {s s' : Conf η δ} {temp : List UInt8} {pcalloc : Bool} {d : Nat}

theorem getDomain_some (h : getDomain s pcalloc = (some d, s')) :
    s.freeDomain.getD s.nallocDomain = d ∧ s'.freeCtx = s.freeCtx := by
  unfold getDomain at h
  split at h
  · next hf =>
    split at h <;> cases h
    rw [hf]
    exact ⟨rfl, rfl⟩
  · next hf =>
    cases h
    rw [hf]
    exact ⟨rfl, rfl⟩

theorem addEntry_some (h : addEntry s temp pcalloc = (some d, s')) :
    s.freeDomain.getD s.nallocDomain = d ∧ s'.freeCtx = s.freeCtx := by
  unfold addEntry at h
  split at h
  · cases h
  · next hg =>
    cases h
    obtain ⟨hd, hfree⟩ := getDomain_some hg
    exact ⟨hd, hfree⟩

end

section
variable {w : World η δ} {ws ds : Option Nat → List Nat} {pton : List UInt8 → Nat}
  {domain : Option (List UInt8)}

theorem Shape.takes (hw : Shape w ws ds) {text : List UInt8} {d : Nat} {pcalloc : Bool}
    {s : Conf η δ} (hne : text ≠ []) (hpton : pton text = 0) (hrefresh : w.conf.refreshInterval ≠ 0)
    (hlen : text.length ≤ maxDomainLen) (hno : ∀ e, ¬ Entry w.conf ds (strlow text) e)
    (h : addEntry w.conf (strlow text) pcalloc = (some d, s)) : w.Takes pton (some text) d := by
  refine ⟨text, rfl, hne, hpton, hrefresh, hlen, ?_, (addEntry_some h).1⟩
  rw [hw.table.hostSearch_eq _ (Nat.le_refl _), hw.table.find?_eq_none.mpr hno]

theorem Shape.finds (hw : Shape w ws ds) {text : List UInt8} {d : Nat} (hne : text ≠ [])
    (hpton : pton text = 0) (hrefresh : w.conf.refreshInterval ≠ 0)
    (hlen : text.length ≤ maxDomainLen) (hd : Entry w.conf ds (strlow text) d) :
    w.Finds pton (some text) d := by
  refine ⟨text, rfl, hne, hpton, hrefresh, hlen, ?_⟩
  rw [hw.table.hostSearch_eq _ (Nat.le_refl _), hw.table.find?_eq_some.mpr hd]

/-- `ngx_dynamic_resolver_gethostbyname` comes back with a table. -/
theorem Shape.gethostbyname_ok (hw : Shape w ws ds) (hhash : w.conf.hashFault = none)
    (pton : List UInt8 → Nat) (domain : Option (List UInt8)) (rand : Nat) :
    ∃ arg, gethostbyname pton w.conf domain rand = .ok arg := by
  unfold gethostbyname
  split
  · exact ⟨_, rfl⟩
  · split
    · exact ⟨_, rfl⟩
    · split
      · exact ⟨_, rfl⟩
      · rw [hhash]
        dsimp only
        rw [hw.table.hostSearch_eq _ (Nat.le_refl _)]
        split
        · next h => cases h
        · exact ⟨_, rfl⟩
        · split <;> exact ⟨_, rfl⟩

/-- `ngx_dynamic_resolver_add_domain` leaves the worker, or faults, or makes an entry. -/
theorem World.add_cases (hw : Shape w ws ds) (pton : List UInt8 → Nat)
    (domain : Option (List UInt8)) (pcalloc : Bool) :
    (∃ e, w.add pton domain pcalloc = { w with fault := e } ∧
      (e = w.fault ∨ e ≠ none ∧ w.conf.hashFault ≠ none)) ∨
    ∃ ds' temp d s, w.Takes pton domain d ∧ Entered w ws ds ds' temp d s ∧
      Shape (World.enter { w with conf := s } temp d) ws ds' ∧
      w.add pton domain pcalloc = World.enter { w with conf := s } temp d := by
  have hleft : ∃ e, w = { w with fault := e } ∧
      (e = w.fault ∨ e ≠ none ∧ w.conf.hashFault ≠ none) :=
    ⟨w.fault, rfl, .inl rfl⟩
  unfold World.add
  split
  · exact .inl hleft
  · exact .inl hleft
  · next text hne =>
    split
    · exact .inl hleft
    · next hset =>
      simp only [not_or, not_not, Nat.not_lt] at hset
      split
      · next e he =>
        exact .inl ⟨some e, rfl, .inr ⟨by simp, by rw [he]; simp⟩⟩
      · dsimp only
        rw [hw.table.addSearch_eq _ (Nat.le_refl _)]
        cases hf : (ds (some (w.conf.idx (strlow text)))).find? (w.conf.named (strlow text)) with
        | some d => exact .inl hleft
        | none =>
          dsimp only
          split
          · next s hs =>
            rw [addEntry_none hs]
            exact .inl hleft
          · next d s hs =>
            have hno := hw.table.find?_eq_none.mp hf
            obtain ⟨ds', hent, hshape⟩ := hw.enter hno hs
            exact .inr ⟨ds', _, d, s, hw.takes hne hset.1 hset.2.1 hset.2.2 hno hs, hent, hshape,
              rfl⟩

/-- `ngx_dynamic_resolver_del_domain` leaves the worker, or faults, or finds no entry, or
takes the one that it finds out of the table. -/
theorem World.del_cases (hw : Shape w ws ds) (pton : List UInt8 → Nat)
    (domain : Option (List UInt8)) :
    (∃ e, w.del pton domain = { w with fault := e } ∧
      (e = w.fault ∨ e ≠ none ∧ w.conf.hashFault ≠ none)) ∨
    (∃ temp, (∀ d, ¬ Entry w.conf ds temp d) ∧
      w.del pton domain = { w with live := Function.update w.live temp none }) ∨
    ∃ temp l₁ d l₂, w.Finds pton domain d ∧ ds (some (w.conf.idx temp)) = l₁ ++ d :: l₂ ∧
      Entry w.conf ds temp d ∧
      w.del pton domain = { w with
        conf := w.conf.unlink (w.conf.idx temp) l₁.getLast? d, stack := .del d none :: w.stack
        live := Function.update w.live temp none } := by
  have hleft : ∃ e, w = { w with fault := e } ∧
      (e = w.fault ∨ e ≠ none ∧ w.conf.hashFault ≠ none) :=
    ⟨w.fault, rfl, .inl rfl⟩
  unfold World.del
  split
  · exact .inl hleft
  · exact .inl hleft
  · next text hne =>
    split
    · exact .inl hleft
    · next hset =>
      simp only [not_or, not_not, Nat.not_lt] at hset
      split
      · next e he =>
        exact .inl ⟨some e, rfl, .inr ⟨by simp, by rw [he]; simp⟩⟩
      · dsimp only
        rcases hw.table.delSearch_eq (strlow text) (Nat.le_refl _) with
          ⟨hno, hl⟩ | ⟨l₁, d, l₂, hb, hd, hl⟩
        · rw [hl]
          exact .inr (.inl ⟨_, hno, rfl⟩)
        · rw [hl]
          exact .inr (.inr ⟨_, l₁, d, l₂, hw.finds hne hset.1 hset.2.1 hset.2.2 hd, hb, hd, rfl⟩)

/-- A start call on an entry calls `h`, or waits if there is no address. -/
theorem World.startEntry_cases (hw : Shape w ws ds) {temp : List UInt8} {d : Nat}
    (hd : Entry w.conf ds temp d) (h : η) (data : δ) (pcalloc : Bool) (rand : Nat) :
    (∃ arg, w.startEntry d h data pcalloc rand = w.direct h data arg) ∨
    ((w.conf.dom d).naddrs = 0 ∧ (pcalloc = true ∨ w.conf.freeCtx ≠ none) ∧
      ∃ c s l, (∀ i, c ∉ ws (some i)) ∧ s.dom = w.conf.dom ∧
        (∀ e, e ≠ c → (pushCtx s d c h data).ctx e = w.conf.ctx e) ∧
        s.nallocDomain = w.conf.nallocDomain ∧
        (∀ temp, s.idx temp = w.conf.idx temp) ∧
        Shape { w with conf := pushCtx s d c h data }
          (Function.update (Function.update ws none l) (some d) (c :: ws (some d))) ds ∧
        w.startEntry d h data pcalloc rand = World.issue { w with
          conf := pushCtx s d c h data
          owner := Function.update w.owner c w.started.length
          started := w.started ++ [⟨h, data, some (w.inc d)⟩] } d) := by
  unfold World.startEntry
  dsimp only
  split
  · next hnaddrs =>
    split
    · next s hs =>
      rw [getCtx_none hs]
      exact .inl ⟨_, rfl⟩
    · next c s hs =>
      obtain ⟨l, hc, hdom, hctx, htop, hidx, hshape⟩ := hw.wait hd hs h data
      refine .inr ⟨hnaddrs, ?_, c, s, l, hc, hdom, hctx, htop, hidx, hshape, rfl⟩
      unfold getCtx at hs
      split at hs
      · split at hs
        · next hp => exact .inl hp
        · cases hs
      · next ctx hf => exact .inr (by rw [hf]; simp)
  · exact .inl ⟨_, rfl⟩

/-- The search of a start call hangs only if the bucket begins with another name. -/
theorem Shape.startSearch_none (hw : Shape w ws ds) {temp : List UInt8}
    (h : startSearch w.conf temp w.conf.nallocDomain = none) : ¬ HeadNamed w.conf temp := by
  intro hhead
  have hok : ∀ d, w.conf.resolverHash (w.conf.idx temp) = some d →
      w.conf.named temp d = true := fun d hd => decide_eq_true (hhead d hd)
  unfold startSearch at h
  cases hr : w.conf.resolverHash (w.conf.idx temp) with
  | none =>
    rw [hr] at h
    unfold startLoop at h
    cases h
  | some d =>
    have hmem : d ∈ ds (some (w.conf.idx temp)) := by
      have hl : w.conf.resolverHash (w.conf.idx temp) = (ds (some (w.conf.idx temp))).head? :=
        hw.table.doms.chains.head_eq (some (w.conf.idx temp))
      rw [hr] at hl
      exact List.mem_of_head? hl.symm
    have hlt := hw.table.doms.lt _ d hmem
    obtain ⟨fuel, hfuel⟩ := Nat.exists_eq_succ_of_ne_zero (Nat.ne_of_gt (Nat.zero_lt_of_lt hlt))
    rw [hfuel, startLoop_ends hok] at h
    cases h

/-- `ngx_dynamic_resolver_start_resolver` comes to no answer, or calls `h`, or goes on with
the entry that it finds or makes. -/
theorem World.start_cases (hw : Shape w ws ds) (pton : List UInt8 → Nat)
    (domain : Option (List UInt8)) (h : η) (data : δ) (pcallocDomain pcallocCtx : Bool)
    (rand : Nat) :
    (∃ e, w.start pton domain h data pcallocDomain pcallocCtx rand =
        { w with started := w.started ++ [⟨h, data, none⟩], fault := e } ∧
      ¬ w.Answers pton domain ∧ (e = w.fault ∨ e ≠ none ∧ domain ≠ none ∧ domain ≠ some [])) ∨
    (∃ arg, w.start pton domain h data pcallocDomain pcallocCtx rand = w.direct h data arg) ∨
    (∃ temp d, w.Finds pton domain d ∧ Entry w.conf ds temp d ∧
      w.start pton domain h data pcallocDomain pcallocCtx rand =
        w.startEntry d h data pcallocCtx rand) ∨
    ∃ ds' temp d s, w.Takes pton domain d ∧ s.freeCtx = w.conf.freeCtx ∧
      Entered w ws ds ds' temp d s ∧ Shape (World.enter { w with conf := s } temp d) ws ds' ∧
      w.start pton domain h data pcallocDomain pcallocCtx rand =
        (World.enter { w with conf := s } temp d).startEntry d h data pcallocCtx rand := by
  unfold World.start
  split
  · exact .inl ⟨w.fault, rfl, fun ⟨_, hne, _⟩ => (by cases hne), .inl rfl⟩
  · exact .inl ⟨w.fault, rfl, fun ⟨_, heq, hne, _⟩ => by cases heq; exact hne rfl, .inl rfl⟩
  · next text hne =>
    have hsome : some text ≠ none ∧ some text ≠ some [] :=
      ⟨by simp, fun h => hne (Option.some.inj h)⟩
    split
    · exact .inr (.inl ⟨_, rfl⟩)
    · next hpton =>
      split
      · exact .inr (.inl ⟨_, rfl⟩)
      · next hset =>
        simp only [not_or, Nat.not_lt] at hset
        have hgood : w.Answers pton (some text) →
            w.conf.hashFault = none ∧ HeadNamed w.conf (strlow text) := by
          rintro ⟨_, ⟨⟩, -, hgood⟩
          exact hgood (not_not.mp hpton) hset.1 hset.2
        split
        · next e he =>
          refine .inl ⟨some e, rfl, fun ha => ?_, .inr ⟨by simp, hsome⟩⟩
          rw [(hgood ha).1] at he
          cases he
        · dsimp only
          cases hs : startSearch w.conf (strlow text) w.conf.nallocDomain with
          | none =>
            exact .inl ⟨some .spin, rfl, fun ha => hw.startSearch_none hs (hgood ha).2,
              .inr ⟨by simp, hsome⟩⟩
          | some r =>
            have hr := hw.table.startSearch_eq hs
            cases r with
            | some d =>
              have hd := hw.table.find?_eq_some.mp hr.symm
              exact .inr (.inr (.inl ⟨_, d,
                hw.finds hne (not_not.mp hpton) hset.1 hset.2 hd, hd, rfl⟩))
            | none =>
              dsimp only
              split
              · next s hs =>
                rw [addEntry_none hs]
                exact .inr (.inl ⟨_, rfl⟩)
              · next d s hs =>
                have hno := hw.table.find?_eq_none.mp hr.symm
                obtain ⟨ds', hent, hshape⟩ := hw.enter hno hs
                exact .inr (.inr (.inr ⟨ds', _, d, s,
                  hw.takes hne (not_not.mp hpton) hset.1 hset.2 hno hs, (addEntry_some hs).2, hent,
                  hshape, rfl⟩))

end

end NgxToolkit.DynamicResolver
