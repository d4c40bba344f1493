import Mathlib.Data.List.Nodup
import Mathlib.Logic.Function.Basic

/-! Null-terminated chains of cells in a heap.

`next a` is the link stored in the cell `a`.  `Linked next p l` says that
following the links from the pointer `p` visits exactly the cells `l`, in
order, and then meets the null pointer.

* `Linked.unique`, `Linked.nodup`: a pointer starts at most one chain, and a
  chain that ends visits no cell twice (it has no cycle).
* `Linked.update`, `Linked.push`, `Linked.unlink`: the chain after writing the
  link of a cell off the chain, after a push at the head and after unlinking a
  cell behind another one.
* `walk`: the first cell of a chain that passes a test, with fuel; on a chain
  it is `List.find?` (`walk_linked`). -/

namespace Lib

section
variable {α : Type*}

/-- Following `next` from `p` visits exactly the cells `l` and then null. -/
def Linked (next : α → Option α) : Option α → List α → Prop
  | p, [] => p = none
  | p, a :: l => p = some a ∧ Linked next (next a) l

@[simp] theorem linked_nil (next : α → Option α) (p : Option α) :
    Linked next p [] ↔ p = none := Iff.rfl

@[simp] theorem linked_cons (next : α → Option α) (p : Option α) (a : α) (l : List α) :
    Linked next p (a :: l) ↔ p = some a ∧ Linked next (next a) l := Iff.rfl

theorem linked_none {next : α → Option α} {l : List α} : Linked next none l ↔ l = [] := by
  cases l <;> simp

theorem Linked.unique {next : α → Option α} : ∀ {p : Option α} {l l' : List α},
    Linked next p l → Linked next p l' → l = l'
  | p, [], l', h, h' => by
    rw [linked_nil] at h
    subst h
    exact (linked_none.mp h').symm
  | p, a :: l, [], h, h' => by
    rw [linked_nil] at h'
    subst h'
    exact linked_none.mp h
  | p, a :: l, b :: l', h, h' => by
    obtain ⟨rfl, h⟩ := h
    obtain ⟨hb, h'⟩ := h'
    cases hb
    rw [Linked.unique h h']

theorem Linked.head {next : α → Option α} {p : Option α} {l : List α} (h : Linked next p l) :
    p = l.head? := by
  cases l with
  | nil => exact h
  | cons a l => exact h.1

/-- The cells from a visited cell on are themselves a chain. -/
theorem Linked.suffix {next : α → Option α} {a : α} {l₂ : List α} :
    ∀ {l₁ : List α} {p : Option α}, Linked next p (l₁ ++ a :: l₂) → Linked next (some a) (a :: l₂)
  | [], _, h => ⟨rfl, h.2⟩
  | _ :: _, _, h => Linked.suffix h.2

/-- A chain that ends has no cycle. -/
theorem Linked.nodup {next : α → Option α} : ∀ {l : List α} {p : Option α},
    Linked next p l → l.Nodup
  | [], _, _ => List.nodup_nil
  | a :: l, p, h => by
    refine List.nodup_cons.mpr ⟨fun hm => ?_, h.2.nodup⟩
    obtain ⟨l₁, l₂, rfl⟩ := List.append_of_mem hm
    have h2 : Linked next (some a) (a :: l₂) := h.2.suffix
    have h1 : Linked next (some a) (a :: (l₁ ++ a :: l₂)) := ⟨rfl, h.2⟩
    have hl := congrArg List.length (h1.unique h2)
    simp only [List.length_cons, List.length_append] at hl
    omega

theorem Linked.congr {next next' : α → Option α} : ∀ {l : List α} {p : Option α},
    (∀ a ∈ l, next' a = next a) → Linked next p l → Linked next' p l
  | [], _, _, h => h
  | a :: l, _, hn, h => by
    refine ⟨h.1, ?_⟩
    rw [hn a List.mem_cons_self]
    exact Linked.congr (fun b hb => hn b (List.mem_cons_of_mem _ hb)) h.2

variable [DecidableEq α]

/-- Writing the link of a cell off the chain leaves the chain. -/
theorem Linked.update {next : α → Option α} {p q : Option α} {l : List α} {a : α}
    (h : Linked next p l) (ha : a ∉ l) : Linked (Function.update next a q) p l :=
  h.congr fun b hb => Function.update_of_ne (fun e : b = a => ha (e ▸ hb)) _ _

/-- A cell off the chain whose link is set to the head is the new head. -/
theorem Linked.push {next : α → Option α} {p : Option α} {l : List α} {a : α}
    (h : Linked next p l) (ha : a ∉ l) : Linked (Function.update next a p) (some a) (a :: l) := by
  refine ⟨rfl, ?_⟩
  rw [Function.update_self]
  exact h.update ha

/-- Copying the link of `b` into the cell before it unlinks `b`. -/
theorem Linked.unlink {next : α → Option α} {a b : α} {l₂ : List α} :
    ∀ {l₁ : List α} {p : Option α}, Linked next p (l₁ ++ a :: b :: l₂) →
      Linked (Function.update next a (next b)) p (l₁ ++ a :: l₂)
  | [], p, h => by
    have hn := h.nodup
    obtain ⟨rfl, hb, h⟩ := h
    refine ⟨rfl, ?_⟩
    rw [Function.update_self]
    refine h.update fun ha => ?_
    simp only [List.nil_append, List.nodup_cons, List.mem_cons, not_or] at hn
    exact hn.1.2 ha
  | c :: l₁, p, h => by
    have hn := h.nodup
    obtain ⟨rfl, h⟩ := h
    refine ⟨rfl, ?_⟩
    have hc : c ≠ a := by
      rintro rfl
      simp at hn
    rw [Function.update_of_ne hc]
    exact Linked.unlink h

end

section
variable {α : Type*}

/-- The first cell from `p` on that passes `ok`, with `fuel` looks: `none` when
the fuel runs out, `some none` when the chain ends. -/
def walk (next : α → Option α) (ok : α → Bool) : Nat → Option α → Option (Option α)
  | _, none => some none
  | 0, some _ => none
  | fuel + 1, some a => if ok a then some (some a) else walk next ok fuel (next a)

/-- On a chain, a walk with fuel for every cell finds what `List.find?` finds. -/
theorem walk_linked {next : α → Option α} (ok : α → Bool) : ∀ {l : List α} {p : Option α}
    {fuel : Nat}, Linked next p l → l.length ≤ fuel → walk next ok fuel p = some (l.find? ok)
  | [], p, fuel, h, _ => by
    rw [linked_nil] at h
    subst h
    cases fuel <;> rfl
  | a :: l, p, 0, _, hf => by simp at hf
  | a :: l, p, fuel + 1, h, hf => by
    obtain ⟨rfl, h⟩ := h
    rw [List.length_cons] at hf
    rw [walk, List.find?_cons]
    cases ha : ok a with
    | true => simp
    | false => simpa using walk_linked ok h (by omega)

end

end Lib
