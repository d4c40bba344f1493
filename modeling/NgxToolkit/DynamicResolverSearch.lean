import Mathlib.Data.List.Nodup
import Mathlib.Data.List.Perm.Subperm
import Mathlib.Data.List.Range
import Mathlib.Tactic.Common
import NgxToolkit.DynamicResolverTable

/-! The four searches of the dynamic resolver's table.

`Entry s ds temp d` says that the record `d` is the entry of the lower-cased
name `temp`; a name has one entry at most.

* `Table.addSearch_eq`, `Table.hostSearch_eq`, `Table.delSearch_eq`: three of
  the loops end and find the entry, if there is one.
* `startSearch_ends`: the fourth ends only if the bucket is empty or begins
  with the entry. -/

namespace NgxToolkit.DynamicResolver

open Lib

variable {η δ : Type} {s : Conf η δ} {ws ds : Option Nat → List Nat} {cs rs : List Nat}

/-- The record `d` is in the bucket of `temp` and has that name. -/
def Entry (s : Conf η δ) (ds : Option Nat → List Nat) (temp : List UInt8) (d : Nat) : Prop :=
  d ∈ ds (some (s.idx temp)) ∧ (s.dom d).domain = temp

theorem Table.bucket_length (h : Table s ws ds cs rs) (i : Option Nat) :
    (ds i).length ≤ s.nallocDomain := by
  have hsub : ds i ⊆ List.range s.nallocDomain := fun d hd =>
    List.mem_range.mpr (h.doms.lt i d hd)
  have hle := ((h.doms.chains.nodup i).subperm hsub).length_le
  rwa [List.length_range] at hle

/-- A name has one entry at most. -/
theorem Table.entry_unique (h : Table s ws ds cs rs) {temp : List UInt8} {d e : Nat}
    (hd : Entry s ds temp d) (he : Entry s ds temp e) : d = e :=
  List.inj_on_of_nodup_map (h.names _) hd.1 he.1 (hd.2.trans he.2.symm)

/-- A record in any bucket is the entry of its name. -/
theorem Table.entry (h : Table s ws ds cs rs) {b d : Nat} (hd : d ∈ ds (some b)) :
    Entry s ds (s.dom d).domain d := by
  refine ⟨?_, rfl⟩
  rw [h.bucket b d hd]
  exact hd

theorem Table.find?_eq_some (h : Table s ws ds cs rs) {temp : List UInt8} {d : Nat} :
    (ds (some (s.idx temp))).find? (s.named temp) = some d ↔ Entry s ds temp d := by
  have hsound : ∀ e, (ds (some (s.idx temp))).find? (s.named temp) = some e →
      Entry s ds temp e := fun e he => by
    refine ⟨List.mem_of_find?_eq_some he, ?_⟩
    have hok := List.find?_some he
    unfold Conf.named at hok
    exact of_decide_eq_true hok
  refine ⟨hsound d, fun hd => ?_⟩
  cases hf : (ds (some (s.idx temp))).find? (s.named temp) with
  | none =>
    have := List.find?_eq_none.mp hf d hd.1
    exact absurd (decide_eq_true hd.2) this
  | some e => rw [h.entry_unique (hsound e hf) hd]

theorem Table.find?_eq_none (h : Table s ws ds cs rs) {temp : List UInt8} :
    (ds (some (s.idx temp))).find? (s.named temp) = none ↔ ∀ d, ¬ Entry s ds temp d := by
  rw [Option.eq_none_iff_forall_ne_some]
  exact forall_congr' fun d => not_congr h.find?_eq_some

theorem Table.addSearch_eq (h : Table s ws ds cs rs) (temp : List UInt8) {fuel : Nat}
    (hf : s.nallocDomain ≤ fuel) :
    addSearch s temp fuel = some ((ds (some (s.idx temp))).find? (s.named temp)) :=
  walk_linked _ (h.doms.chains.linked (some (s.idx temp)))
    (Nat.le_trans (h.bucket_length _) hf)

theorem Table.hostSearch_eq (h : Table s ws ds cs rs) (temp : List UInt8) {fuel : Nat}
    (hf : s.nallocDomain ≤ fuel) :
    hostSearch s temp fuel = some ((ds (some (s.idx temp))).find? (s.named temp)) :=
  h.addSearch_eq temp hf

/-- Behind the cells `l₁` of a chain comes the first of the rest. -/
theorem deref_eq_head? {b : Nat} {l₁ l₂ : List Nat}
    (h : Linked s.domNext (s.resolverHash b) (l₁ ++ l₂)) : s.deref b l₁.getLast? = l₂.head? := by
  rcases List.eq_nil_or_concat l₁ with rfl | ⟨l, p, rfl⟩
  · exact h.head
  · rw [List.concat_eq_append, List.append_assoc, List.singleton_append] at h
    rw [List.concat_eq_append, List.getLast?_concat]
    exact h.suffix.2.head

/-- The loop of `ngx_dynamic_resolver_del_domain` ends and finds the first
record that passes the test, with the place of its pointer. -/
theorem delLoop_spec (ok : Nat → Bool) {b : Nat} {l₁ l₂ : List Nat} {fuel : Nat}
    (h : Linked s.domNext (s.resolverHash b) (l₁ ++ l₂)) (hf : l₂.length ≤ fuel) :
    (l₂.find? ok = none ∧ delLoop s ok b fuel l₁.getLast? = some none) ∨
    ∃ m₁ d m₂, l₂ = m₁ ++ d :: m₂ ∧ l₂.find? ok = some d ∧
      delLoop s ok b fuel l₁.getLast? = some (some ((l₁ ++ m₁).getLast?, d)) := by
  induction l₂ generalizing l₁ fuel with
  | nil =>
    left
    have hd := deref_eq_head? h
    unfold delLoop
    cases fuel <;> rw [hd] <;> exact ⟨rfl, rfl⟩
  | cons d l₂ ih =>
    have hd := deref_eq_head? h
    cases fuel with
    | zero => simp at hf
    | succ fuel =>
      unfold delLoop
      rw [hd]
      simp only [List.head?_cons, List.find?_cons]
      cases hok : ok d with
      | true =>
        right
        exact ⟨[], d, l₂, rfl, rfl, by rw [List.append_nil]; rfl⟩
      | false =>
        have hlast : (l₁ ++ [d]).getLast? = some d := List.getLast?_concat
        have hlink : Linked s.domNext (s.resolverHash b) ((l₁ ++ [d]) ++ l₂) := by
          rwa [List.append_assoc, List.singleton_append]
        have hlen : l₂.length ≤ fuel := by
          rw [List.length_cons] at hf
          omega
        rcases ih hlink hlen with ⟨hn, hl⟩ | ⟨m₁, e, m₂, hm, hs, hl⟩
        · left
          rw [hlast] at hl
          exact ⟨hn, hl⟩
        · right
          refine ⟨d :: m₁, e, m₂, by rw [hm]; rfl, hs, ?_⟩
          rw [hlast] at hl
          rw [List.append_assoc, List.singleton_append] at hl
          exact hl

theorem Table.delSearch_eq (h : Table s ws ds cs rs) (temp : List UInt8) {fuel : Nat}
    (hf : s.nallocDomain ≤ fuel) :
    ((∀ d, ¬ Entry s ds temp d) ∧ delSearch s temp fuel = some none) ∨
    ∃ l₁ d l₂, ds (some (s.idx temp)) = l₁ ++ d :: l₂ ∧ Entry s ds temp d ∧
      delSearch s temp fuel = some (some (l₁.getLast?, d)) := by
  have hlink : Linked s.domNext (s.resolverHash (s.idx temp)) ([] ++ ds (some (s.idx temp))) :=
    h.doms.chains.linked (some (s.idx temp))
  rcases delLoop_spec (s.named temp) hlink (Nat.le_trans (h.bucket_length _) hf) with
    ⟨hn, hl⟩ | ⟨m₁, d, m₂, hm, hs, hl⟩
  · exact .inl ⟨h.find?_eq_none.mp hn, hl⟩
  · exact .inr ⟨m₁, d, m₂, hm, h.find?_eq_some.mp hs, hl⟩

/-- The loop of `ngx_dynamic_resolver_start_resolver` on a pointer: it ends at
once or never. -/
theorem startLoop_eq_some {ok : Nat → Bool} {fuel : Nat} {p r : Option Nat}
    (h : startLoop ok fuel p = some r) : r = p ∧ ∀ d, p = some d → ok d = true := by
  induction fuel with
  | zero =>
    cases p with
    | none =>
      cases h
      exact ⟨rfl, fun d hd => by cases hd⟩
    | some d => cases h
  | succ fuel ih =>
    cases p with
    | none =>
      cases h
      exact ⟨rfl, fun d hd => by cases hd⟩
    | some d =>
      unfold startLoop at h
      split at h
      · next hok =>
        cases h
        exact ⟨rfl, fun e he => by cases he; exact hok⟩
      · exact ih h

theorem startLoop_ends {ok : Nat → Bool} {p : Option Nat} (h : ∀ d, p = some d → ok d = true)
    (fuel : Nat) : startLoop ok (fuel + 1) p = some p := by
  cases p with
  | none => rfl
  | some d =>
    unfold startLoop
    rw [if_pos (h d rfl)]

/-- The bucket of `temp` is empty or begins with the entry of `temp`. -/
def HeadNamed (s : Conf η δ) (temp : List UInt8) : Prop :=
  ∀ d, s.resolverHash (s.idx temp) = some d → (s.dom d).domain = temp

/-- **The search of `ngx_dynamic_resolver_start_resolver`** ends exactly when the
bucket is empty or begins with the entry. -/
theorem startSearch_ends {temp : List UInt8} :
    (∃ fuel r, startSearch s temp fuel = some r) ↔ HeadNamed s temp := by
  unfold startSearch HeadNamed
  constructor
  · rintro ⟨fuel, r, hr⟩ d hd
    exact of_decide_eq_true ((startLoop_eq_some hr).2 d hd)
  · intro h
    exact ⟨1, _, startLoop_ends (fun d hd => decide_eq_true (h d hd)) 0⟩

/-- Where it ends it finds what the other searches find. -/
theorem Table.startSearch_eq (h : Table s ws ds cs rs) {temp : List UInt8} {fuel : Nat}
    {r : Option Nat} (hr : startSearch s temp fuel = some r) :
    r = (ds (some (s.idx temp))).find? (s.named temp) := by
  obtain ⟨hp, hok⟩ := startLoop_eq_some hr
  have hhead : s.resolverHash (s.idx temp) = (ds (some (s.idx temp))).head? :=
    h.doms.chains.head_eq (some (s.idx temp))
  cases hl : ds (some (s.idx temp)) with
  | nil =>
    rw [hp, hhead, hl]
    rfl
  | cons d l =>
    rw [hl, List.head?_cons] at hhead
    rw [hp, hhead, List.find?_cons, hok d hhead]

end NgxToolkit.DynamicResolver
