import Mathlib.Data.List.Perm.Basic
import Mathlib.Tactic.Common
import NgxToolkit.Lib.Chain

/-! An allocator of numbered nodes with a free list and two counters.

`FreeNodes next free nalloc nfree used` says that the nodes below `nalloc` are the
nodes `used` and those on the list that starts at `free`, each of them once, and
that `nfree` is the length of the list.

* `FreeNodes.take`: a node is taken into use, and its link is cleared.
* `FreeNodes.put`: a node that was in use goes in front of the list.
* `FreeNodes.count`: the counters tell the number of the nodes in use. -/

namespace Lib

def FreeNodes (next : Nat → Option Nat) (free : Option Nat) (nalloc nfree : Nat)
    (used : List Nat) : Prop :=
  ∃ l, Linked next free l ∧ (used ++ l).Perm (List.range nalloc) ∧ nfree = l.length

section
variable {next : Nat → Option Nat} {free : Option Nat} {nalloc nfree : Nat} {used used' : List Nat}

theorem FreeNodes.empty (next : Nat → Option Nat) : FreeNodes next none 0 0 [] :=
  ⟨[], rfl, .refl _, rfl⟩

theorem FreeNodes.perm (h : FreeNodes next free nalloc nfree used) (hp : used'.Perm used) :
    FreeNodes next free nalloc nfree used' := by
  obtain ⟨l, hl, hperm, hn⟩ := h
  exact ⟨l, hl, (hp.append_right l).trans hperm, hn⟩

theorem FreeNodes.nodup (h : FreeNodes next free nalloc nfree used) : used.Nodup := by
  obtain ⟨l, -, hperm, -⟩ := h
  exact (List.nodup_append.mp (hperm.nodup_iff.mpr List.nodup_range)).1

theorem FreeNodes.lt (h : FreeNodes next free nalloc nfree used) {a : Nat} (ha : a ∈ used) :
    a < nalloc := by
  obtain ⟨l, -, hperm, -⟩ := h
  exact List.mem_range.mp (hperm.mem_iff.mp (List.mem_append_left l ha))

/-- **Counting.**  What was allocated and is not free is in use. -/
theorem FreeNodes.count (h : FreeNodes next free nalloc nfree used) :
    nfree ≤ nalloc ∧ nalloc - nfree = used.length := by
  obtain ⟨l, -, hperm, hn⟩ := h
  have hlen := hperm.length_eq
  rw [List.length_append, List.length_range] at hlen
  omega

/-- The node that is taken, and the list and the counters after that: the first one
of the list, or a new one. -/
def takeNode (next : Nat → Option Nat) (free : Option Nat) (nalloc nfree : Nat) :
    Nat × Option Nat × Nat × Nat :=
  match free with
  | none => (nalloc, none, nalloc + 1, nfree)
  | some n => (n, next n, nalloc, nfree - 1)

theorem FreeNodes.take (h : FreeNodes next free nalloc nfree used) {n nalloc' nfree' : Nat}
    {free' : Option Nat} (ht : takeNode next free nalloc nfree = (n, free', nalloc', nfree')) :
    FreeNodes (Function.update next n none) free' nalloc' nfree' (n :: used) ∧ n ∉ used := by
  obtain ⟨l, hl, hperm, hn⟩ := id h
  unfold takeNode at ht
  cases free with
  | none =>
    cases ht
    obtain rfl := linked_none.mp hl
    refine ⟨⟨[], rfl, ?_, hn⟩, fun hu => Nat.lt_irrefl _ (h.lt hu)⟩
    rw [List.append_nil] at hperm ⊢
    rw [List.range_succ]
    exact (hperm.cons nalloc).trans (List.perm_append_singleton _ _).symm
  | some n =>
    cases ht
    obtain ⟨l, rfl⟩ := List.head?_eq_some_iff.mp hl.head.symm
    obtain ⟨hnl, -⟩ := List.nodup_cons.mp hl.nodup
    refine ⟨⟨l, hl.2.update hnl, List.perm_middle.symm.trans hperm, ?_⟩, fun hu => ?_⟩
    · rw [hn, List.length_cons]
      rfl
    · have hnd := hperm.nodup_iff.mpr List.nodup_range
      exact (List.nodup_append.mp hnd).2.2 n hu n List.mem_cons_self rfl

/-- A node that was in use is put in front of the list. -/
theorem FreeNodes.put {n : Nat} (h : FreeNodes next free nalloc nfree (n :: used)) :
    FreeNodes (Function.update next n free) (some n) nalloc (nfree + 1) used := by
  obtain ⟨l, hl, hperm, hn⟩ := h
  have hnl : n ∉ l := by
    have hnd := hperm.nodup_iff.mpr List.nodup_range
    rw [List.cons_append, List.nodup_cons, List.mem_append, not_or] at hnd
    exact hnd.1.2
  refine ⟨n :: l, hl.push hnl, List.perm_middle.trans hperm, ?_⟩
  rw [hn, List.length_cons]

end

end Lib
