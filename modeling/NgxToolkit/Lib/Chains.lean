import Mathlib.Data.List.Nodup
import Mathlib.Logic.Function.Basic
import Mathlib.Tactic.Common
import NgxToolkit.Lib.Chain

/-! Families of null-terminated chains that share one heap.

`Chains next head ls` says that the chain of the name `i` starts at `head i` and
visits the cells `ls i`, and that no cell is on two chains.  A free list and the
lists its cells move between are such a family.

* `Chains.push`, `Chains.pop`, `Chains.unlink`: a cell off all chains is put in
  front of one, the head of one is taken off, a cell behind another is taken off.
* `Chains.write`: the link of a cell off all chains may hold anything.

`Pool` adds what a heap that only grows needs: the cells are numbered below
`top`, and the cells `loose` are on no chain because someone holds them.  `Full`
says that there are no others, so that the cells can be counted (`Pool.count`). -/

namespace Lib

variable {α ι : Type*}

structure Chains (next : α → Option α) (head : ι → Option α) (ls : ι → List α) : Prop where
  linked : ∀ i, Linked next (head i) (ls i)
  disjoint : ∀ i j a, a ∈ ls i → a ∈ ls j → i = j

theorem Chains.head_eq {next : α → Option α} {head : ι → Option α} {ls : ι → List α}
    (h : Chains next head ls) (i : ι) : head i = (ls i).head? :=
  (h.linked i).head

theorem Chains.nodup {next : α → Option α} {head : ι → Option α} {ls : ι → List α}
    (h : Chains next head ls) (i : ι) : (ls i).Nodup :=
  (h.linked i).nodup

section
variable {next : α → Option α} {head : ι → Option α} {ls : ι → List α}

theorem Chains.write [DecidableEq α] (h : Chains next head ls) {a : α} (ha : ∀ i, a ∉ ls i)
    (p : Option α) :
    Chains (Function.update next a p) head ls :=
  ⟨fun i => (h.linked i).update (ha i), h.disjoint⟩

theorem Chains.push [DecidableEq α] [DecidableEq ι] (h : Chains next head ls) {a : α}
    (ha : ∀ i, a ∉ ls i) (i : ι) :
    Chains (Function.update next a (head i)) (Function.update head i (some a))
      (Function.update ls i (a :: ls i)) := by
  constructor
  · intro j
    by_cases hj : j = i
    · subst hj
      rw [Function.update_self, Function.update_self]
      exact (h.linked j).push (ha j)
    · rw [Function.update_of_ne hj, Function.update_of_ne hj]
      exact (h.linked j).update (ha j)
  · have hmem : ∀ j b, b ∈ Function.update ls i (a :: ls i) j → (b = a ∧ j = i) ∨ b ∈ ls j := by
      intro j b hb
      by_cases hj : j = i
      · subst hj
        rw [Function.update_self, List.mem_cons] at hb
        exact hb.imp_left fun hba => ⟨hba, rfl⟩
      · rw [Function.update_of_ne hj] at hb
        exact .inr hb
    intro j k b hb hb'
    rcases hmem j b hb with ⟨hba, hj⟩ | hb1
    · rcases hmem k b hb' with ⟨-, hk⟩ | hb2
      · rw [hj, hk]
      · exact absurd hb2 (hba ▸ ha k)
    · rcases hmem k b hb' with ⟨hba, -⟩ | hb2
      · exact absurd hb1 (hba ▸ ha j)
      · exact h.disjoint j k b hb1 hb2

theorem Chains.pop [DecidableEq ι] (h : Chains next head ls) {i : ι} {a : α} {l : List α}
    (hi : ls i = a :: l) :
    Chains next (Function.update head i (next a)) (Function.update ls i l) ∧
      ∀ j, a ∉ Function.update ls i l j := by
  have hl := h.linked i
  have hn := h.nodup i
  rw [hi] at hl hn
  have hsub : ∀ j b, b ∈ Function.update ls i l j → b ∈ ls j := by
    intro j b hb
    by_cases hj : j = i
    · subst hj
      rw [Function.update_self] at hb
      rw [hi]
      exact List.mem_cons_of_mem _ hb
    · rwa [Function.update_of_ne hj] at hb
  refine ⟨⟨fun j => ?_, fun j k b hb hb' => h.disjoint j k b (hsub j b hb) (hsub k b hb')⟩,
    fun j hj => ?_⟩
  · by_cases hj : j = i
    · subst hj
      rw [Function.update_self, Function.update_self]
      exact hl.2
    · rw [Function.update_of_ne hj, Function.update_of_ne hj]
      exact h.linked j
  · have hji : j = i := h.disjoint j i a (hsub j a hj) (by rw [hi]; exact List.mem_cons_self)
    subst hji
    rw [Function.update_self] at hj
    exact (List.nodup_cons.mp hn).1 hj

theorem Chains.unlink [DecidableEq α] [DecidableEq ι] (h : Chains next head ls) {i : ι} {a b : α}
    {l₁ l₂ : List α}
    (hi : ls i = l₁ ++ a :: b :: l₂) :
    Chains (Function.update next a (next b)) head (Function.update ls i (l₁ ++ a :: l₂)) ∧
      ∀ j, b ∉ Function.update ls i (l₁ ++ a :: l₂) j := by
  have hl := h.linked i
  have hn := h.nodup i
  rw [hi] at hl hn
  have hsub : ∀ j c, c ∈ Function.update ls i (l₁ ++ a :: l₂) j → c ∈ ls j := by
    intro j c hc
    by_cases hj : j = i
    · subst hj
      rw [Function.update_self] at hc
      rw [hi]
      simp only [List.mem_append, List.mem_cons] at hc ⊢
      tauto
    · rwa [Function.update_of_ne hj] at hc
  have ha : a ∈ ls i := by rw [hi]; simp
  refine ⟨⟨fun j => ?_, fun j k c hc hc' => h.disjoint j k c (hsub j c hc) (hsub k c hc')⟩,
    fun j hj => ?_⟩
  · by_cases hj : j = i
    · subst hj
      rw [Function.update_self]
      exact hl.unlink
    · rw [Function.update_of_ne hj]
      exact (h.linked j).update fun haj => hj (h.disjoint j i a haj ha)
  · have hji : j = i := h.disjoint j i b (hsub j b hj) (by rw [hi]; simp)
    subst hji
    rw [Function.update_self] at hj
    rw [List.nodup_append] at hn
    obtain ⟨-, h2, h3⟩ := hn
    simp only [List.nodup_cons, List.mem_cons, not_or] at h2
    rcases List.mem_append.mp hj with hj | hj
    · exact h3 b hj b (by simp) rfl
    · rcases List.mem_cons.mp hj with rfl | hj
      · exact h2.1.1 rfl
      · exact h2.2.1 hj

end

/-! ## Pools -/

structure Pool (next : Nat → Option Nat) (head : ι → Option Nat) (ls : ι → List Nat) (top : Nat)
    (loose : List Nat) : Prop where
  chains : Chains next head ls
  lt : ∀ i a, a ∈ ls i → a < top
  nodup : loose.Nodup
  off : ∀ a ∈ loose, a < top ∧ ∀ i, a ∉ ls i

section
variable {next : Nat → Option Nat} {head : ι → Option Nat} {ls : ι → List Nat} {top : Nat}
  {loose : List Nat}

theorem Pool.write (h : Pool next head ls top loose) {a : Nat} (ha : a ∈ loose) (p : Option Nat) :
    Pool (Function.update next a p) head ls top loose :=
  ⟨h.chains.write (h.off a ha).2 p, h.lt, h.nodup, h.off⟩

theorem Pool.perm (h : Pool next head ls top loose) {loose' : List Nat} (hp : loose'.Perm loose) :
    Pool next head ls top loose' :=
  ⟨h.chains, h.lt, hp.nodup_iff.mpr h.nodup, fun a ha => h.off a (hp.mem_iff.mp ha)⟩

/-- All chains are empty and nothing is held. -/
theorem Pool.empty (h : ∀ i, head i = none) : Pool next head (fun _ => []) top [] :=
  ⟨⟨h, fun _ _ _ ha => (by cases ha)⟩, fun _ _ ha => (by cases ha), List.nodup_nil,
    fun _ ha => (by cases ha)⟩

/-- A new cell is held by its creator. -/
theorem Pool.alloc (h : Pool next head ls top loose) (p : Option Nat) :
    Pool (Function.update next top p) head ls (top + 1) (top :: loose) := by
  have htop : ∀ i, top ∉ ls i := fun i hi => Nat.lt_irrefl _ (h.lt i top hi)
  refine ⟨h.chains.write htop p, fun i a ha => Nat.lt_succ_of_lt (h.lt i a ha), ?_, fun a ha => ?_⟩
  · exact List.nodup_cons.mpr ⟨fun hm => Nat.lt_irrefl _ (h.off top hm).1, h.nodup⟩
  · rcases List.mem_cons.mp ha with rfl | ha
    · exact ⟨Nat.lt_succ_self _, htop⟩
    · exact ⟨Nat.lt_succ_of_lt (h.off a ha).1, (h.off a ha).2⟩

variable [DecidableEq ι]

theorem mem_update_of_sub {i j : ι} {l : List Nat} {a : Nat} (hl : ∀ b ∈ l, b ∈ ls i)
    (h : a ∈ Function.update ls i l j) : a ∈ ls j := by
  by_cases hj : j = i
  · subst hj
    rw [Function.update_self] at h
    exact hl a h
  · rwa [Function.update_of_ne hj] at h

/-- The head of a chain is taken off and held. -/
theorem Pool.pop (h : Pool next head ls top loose) {i : ι} {a : Nat} {l : List Nat}
    (hi : ls i = a :: l) :
    Pool next (Function.update head i (next a)) (Function.update ls i l) top (a :: loose) := by
  obtain ⟨hc, hoff⟩ := h.chains.pop hi
  have hsub : ∀ j b, b ∈ Function.update ls i l j → b ∈ ls j := fun j b =>
    mem_update_of_sub fun c hcl => by rw [hi]; exact List.mem_cons_of_mem _ hcl
  have ha : a ∈ ls i := by rw [hi]; exact List.mem_cons_self
  refine ⟨hc, fun j b hb => h.lt j b (hsub j b hb), ?_, fun b hb => ?_⟩
  · exact List.nodup_cons.mpr ⟨fun hm => (h.off a hm).2 i ha, h.nodup⟩
  · rcases List.mem_cons.mp hb with rfl | hb
    · exact ⟨h.lt i b ha, hoff⟩
    · exact ⟨(h.off b hb).1, fun j hj => (h.off b hb).2 j (hsub j b hj)⟩

/-- A cell behind another one is taken off and held. -/
theorem Pool.unlink (h : Pool next head ls top loose) {i : ι} {a b : Nat} {l₁ l₂ : List Nat}
    (hi : ls i = l₁ ++ a :: b :: l₂) :
    Pool (Function.update next a (next b)) head (Function.update ls i (l₁ ++ a :: l₂)) top
      (b :: loose) := by
  obtain ⟨hc, hoff⟩ := h.chains.unlink hi
  have hsub : ∀ j c, c ∈ Function.update ls i (l₁ ++ a :: l₂) j → c ∈ ls j := fun j c =>
    mem_update_of_sub fun d hd => by
      rw [hi]
      simp only [List.mem_append, List.mem_cons] at hd ⊢
      tauto
  have hb : b ∈ ls i := by rw [hi]; simp
  refine ⟨hc, fun j c hcj => h.lt j c (hsub j c hcj), ?_, fun c hcl => ?_⟩
  · exact List.nodup_cons.mpr ⟨fun hm => (h.off b hm).2 i hb, h.nodup⟩
  · rcases List.mem_cons.mp hcl with rfl | hcl
    · exact ⟨h.lt i c hb, hoff⟩
    · exact ⟨(h.off c hcl).1, fun j hj => (h.off c hcl).2 j (hsub j c hj)⟩

/-- A cell that is held is put in front of a chain. -/
theorem Pool.push {a : Nat} (h : Pool next head ls top (a :: loose)) (i : ι) :
    Pool (Function.update next a (head i)) (Function.update head i (some a))
      (Function.update ls i (a :: ls i)) top loose := by
  obtain ⟨hal, hnd⟩ := List.nodup_cons.mp h.nodup
  obtain ⟨hlt, hoff⟩ := h.off a List.mem_cons_self
  have hmem : ∀ j b, b ∈ Function.update ls i (a :: ls i) j → b = a ∨ b ∈ ls j := by
    intro j b hb
    by_cases hj : j = i
    · subst hj
      rw [Function.update_self] at hb
      exact List.mem_cons.mp hb
    · rw [Function.update_of_ne hj] at hb
      exact .inr hb
  refine ⟨h.chains.push hoff i, fun j b hb => ?_, hnd, fun b hb => ?_⟩
  · rcases hmem j b hb with rfl | hb
    · exact hlt
    · exact h.lt j b hb
  · obtain ⟨hblt, hboff⟩ := h.off b (List.mem_cons_of_mem _ hb)
    refine ⟨hblt, fun j hj => ?_⟩
    rcases hmem j b hj with rfl | hj
    · exact hal hb
    · exact hboff j hj

/-! ## Full pools -/

/-- Every cell below `top` is on a chain or held. -/
def Full (ls : ι → List Nat) (top : Nat) (loose : List Nat) : Prop :=
  ∀ a < top, a ∈ loose ∨ ∃ i, a ∈ ls i

theorem Full.alloc {ι : Type*} {ls : ι → List Nat} (h : Full ls top loose) :
    Full ls (top + 1) (top :: loose) := by
  intro a ha
  rcases Nat.lt_or_eq_of_le (Nat.le_of_lt_succ ha) with hlt | rfl
  · exact (h a hlt).imp_left fun hl => List.mem_cons_of_mem _ hl
  · exact .inl List.mem_cons_self

/-- A cell is taken off a chain and held. -/
theorem Full.unlink (h : Full ls top loose) {i : ι} {b : Nat} {l₁ l₂ : List Nat}
    (hi : ls i = l₁ ++ b :: l₂) : Full (Function.update ls i (l₁ ++ l₂)) top (b :: loose) := by
  intro a ha
  rcases h a ha with hl | ⟨j, hj⟩
  · exact .inl (List.mem_cons_of_mem _ hl)
  · by_cases hab : a = b
    · exact .inl (hab ▸ List.mem_cons_self)
    · refine .inr ⟨j, ?_⟩
      by_cases hji : j = i
      · subst hji
        rw [hi] at hj
        rw [Function.update_self]
        simp only [List.mem_append, List.mem_cons] at hj ⊢
        tauto
      · rwa [Function.update_of_ne hji]

/-- A cell that is held is put in front of a chain. -/
theorem Full.push {a : Nat} (h : Full ls top (a :: loose)) (i : ι) :
    Full (Function.update ls i (a :: ls i)) top loose := by
  intro b hb
  have hself : a ∈ Function.update ls i (a :: ls i) i := by
    rw [Function.update_self]
    exact List.mem_cons_self
  rcases h b hb with hl | ⟨j, hj⟩
  · rcases List.mem_cons.mp hl with rfl | hl
    · exact .inr ⟨i, hself⟩
    · exact .inl hl
  · refine .inr ⟨j, ?_⟩
    by_cases hji : j = i
    · subst hji
      rw [Function.update_self]
      exact List.mem_cons_of_mem _ hj
    · rwa [Function.update_of_ne hji]

/-- The chains of a pool together have no cell twice. -/
theorem Pool.nodup_flatMap {ι : Type*} {head : ι → Option Nat} {ls : ι → List Nat}
    (h : Pool next head ls top loose) {is : List ι} (his : is.Nodup) : (is.flatMap ls).Nodup := by
  refine List.nodup_flatMap.mpr ⟨fun i _ => h.chains.nodup i, his.imp fun hij => ?_⟩
  exact List.disjoint_left.mpr fun a ha ha' => hij (h.chains.disjoint _ _ a ha ha')

/-- **Counting.**  If nothing is held, the lengths of the chains add up to `top`. -/
theorem Pool.count {ι : Type*} {head : ι → Option Nat} {ls : ι → List Nat}
    (h : Pool next head ls top []) (hfull : Full ls top []) (is : List ι) (his : is.Nodup)
    (hall : ∀ i a, a ∈ ls i → i ∈ is) : (is.flatMap ls).length = top := by
  have hperm : (is.flatMap ls).Perm (List.range top) := by
    refine (List.perm_ext_iff_of_nodup (h.nodup_flatMap his) List.nodup_range).mpr fun a => ?_
    rw [List.mem_flatMap, List.mem_range]
    constructor
    · rintro ⟨i, -, ha⟩
      exact h.lt i a ha
    · intro ha
      obtain ⟨i, hi⟩ := (hfull a ha).resolve_left (List.not_mem_nil)
      exact ⟨i, hall i a hi, hi⟩
  rw [hperm.length_eq, List.length_range]

end

end Lib
