import Mathlib.Data.List.Nodup
import Mathlib.Logic.Function.Basic
import Mathlib.Tactic.Common

/-! Timer queues: events in the order of their keys, each with a flag that says
whether it is armed.

`before k k'` says that a timer of key `k` goes in front of one of key `k'`;
nothing is assumed of it.  `close k k'` says that a timer of key `k'` need not
be moved for `k`.

`Image f p q` says that `q` is the queue `p` with the events renamed by `f`: the
operations cannot tell the two apart.

* `Image.insert`, `Image.remove`, `Image.reset`, `Image.add`: the operations keep
  `Image`. -/

namespace Lib

variable {κ α β : Type*}

structure TimerQueue (κ α : Type*) where
  order : List α
  key : α → κ
  armed : α → Bool

/-- The list `l` with `a` in front of the first event that it goes before. -/
def place (before : κ → κ → Bool) (key : α → κ) (a : α) : List α → List α
  | [] => [a]
  | b :: l => if before (key a) (key b) then a :: b :: l else b :: place before key a l

namespace TimerQueue

variable [DecidableEq α] [DecidableEq β]

def insert (before : κ → κ → Bool) (q : TimerQueue κ α) (a : α) (k : κ) : TimerQueue κ α where
  order := place before (Function.update q.key a k) a q.order
  key := Function.update q.key a k
  armed := Function.update q.armed a true

/-- The event is taken out and its key becomes `k`. -/
def remove (q : TimerQueue κ α) (a : α) (k : κ) : TimerQueue κ α where
  order := q.order.erase a
  key := Function.update q.key a k
  armed := Function.update q.armed a false

/-- The event, which is not armed, gets the key `k`. -/
def reset (q : TimerQueue κ α) (a : α) (k : κ) : TimerQueue κ α where
  order := q.order
  key := Function.update q.key a k
  armed := Function.update q.armed a false

/-- An armed event is moved, unless the new key is close to its own; `zero` is
the key of an event that was taken out. -/
def add (before close : κ → κ → Bool) (zero : κ) (q : TimerQueue κ α) (a : α) (k : κ) :
    TimerQueue κ α :=
  if q.armed a then
    if close k (q.key a) then q else (q.remove a zero).insert before a k
  else q.insert before a k

end TimerQueue

namespace TimerQueue

variable [DecidableEq α] {before close : κ → κ → Bool} {q : TimerQueue κ α} {a : α}

theorem add_armed (zero k : κ) :
    (q.add before close zero a k).armed = Function.update q.armed a true := by
  unfold add
  split
  · next h =>
    split
    · rw [← h, Function.update_eq_self]
    · exact Function.update_idem _ _ _
  · rfl

theorem add_new (h : q.armed a = false) (zero k : κ) :
    q.add before close zero a k = q.insert before a k := by
  unfold add
  rw [if_neg (by simp [h])]

end TimerQueue

/-! ## Renamed queues -/

section
variable {before close : κ → κ → Bool}

theorem place_perm {key : α → κ} {a : α} {l : List α} : (place before key a l).Perm (a :: l) := by
  induction l with
  | nil => exact .refl _
  | cons b l ih =>
    unfold place
    split
    · exact .refl _
    · exact (ih.cons b).trans (.swap a b l)

theorem mem_place {key : α → κ} {a b : α} {l : List α} :
    b ∈ place before key a l ↔ b = a ∨ b ∈ l := by
  rw [place_perm.mem_iff, List.mem_cons]

theorem map_place {f : α → β} {key : α → κ} {key' : β → κ} {a : α} {l : List α}
    (ha : key' (f a) = key a) (hl : ∀ b ∈ l, key' (f b) = key b) :
    (place before key a l).map f = place before key' (f a) (l.map f) := by
  induction l with
  | nil => rfl
  | cons b l ih =>
    have hb := hl b List.mem_cons_self
    rw [List.map_cons]
    unfold place
    rw [ha, hb]
    split
    · rfl
    · rw [List.map_cons, ih fun c hc => hl c (List.mem_cons_of_mem _ hc)]

/-- `q` is `p` with the events renamed. -/
structure Image (f : α → β) (p : TimerQueue κ α) (q : TimerQueue κ β) : Prop where
  order : q.order = p.order.map f
  nodup : q.order.Nodup
  key : ∀ a ∈ p.order, q.key (f a) = p.key a
  left : ∀ a, p.armed a = true ↔ a ∈ p.order
  right : ∀ b, q.armed b = true ↔ b ∈ q.order

variable {f : α → β} {p : TimerQueue κ α} {q : TimerQueue κ β}

theorem Image.mem (h : Image f p q) {b : β} : b ∈ q.order ↔ ∃ a ∈ p.order, f a = b := by
  rw [h.order, List.mem_map]

theorem Image.nodup_left (h : Image f p q) : p.order.Nodup := by
  have hn := h.nodup
  rw [h.order] at hn
  exact hn.of_map f

theorem Image.inj (h : Image f p q) {a a' : α} (ha : a ∈ p.order) (ha' : a' ∈ p.order)
    (he : f a = f a') : a = a' := by
  have hn := h.nodup
  rw [h.order] at hn
  exact List.inj_on_of_nodup_map hn ha ha' he

/-- The renamed queue is forgotten. -/
theorem Image.left_self (h : Image f p q) : Image id p p :=
  ⟨(List.map_id _).symm, h.nodup_left, fun _ _ => rfl, h.left, h.left⟩

/-- The names of events off the queue do not matter. -/
theorem Image.congr (h : Image f p q) {f' : α → β} (hf : ∀ a ∈ p.order, f' a = f a) :
    Image f' p q := by
  refine ⟨?_, h.nodup, fun a ha => ?_, h.left, h.right⟩
  · rw [h.order]
    exact List.map_congr_left fun a ha => (hf a ha).symm
  · rw [hf a ha]
    exact h.key a ha

variable [DecidableEq α]

/-- An event that is not armed is written. -/
theorem Image.reset (h : Image f p q) {a : α} (ha : a ∉ p.order) (k : κ) :
    Image f (p.reset a k) q := by
  have hne : ∀ b ∈ p.order, b ≠ a := fun b hb e => ha (e ▸ hb)
  refine ⟨h.order, h.nodup, fun b hb => ?_, fun b => ?_, h.right⟩
  · show q.key (f b) = Function.update p.key a k b
    rw [Function.update_of_ne (hne b hb)]
    exact h.key b hb
  · show Function.update p.armed a false b = true ↔ b ∈ p.order
    by_cases hb : b = a
    · subst hb
      simp [ha]
    · rw [Function.update_of_ne hb]
      exact h.left b

theorem Image.add_perm (h : Image f p q) {a : α} (ha : a ∈ p.order) (zero k : κ) :
    (p.add before close zero a k).order.Perm p.order := by
  unfold TimerQueue.add
  rw [if_pos ((h.left a).mpr ha)]
  split
  · exact .refl _
  · exact place_perm.trans (List.perm_cons_erase ha).symm

variable [DecidableEq β]

theorem Image.insert (h : Image f p q) {a : α} (ha : a ∉ p.order) (hfa : f a ∉ q.order) (k : κ) :
    Image f (p.insert before a k) (q.insert before (f a) k) := by
  have hkey : ∀ b ∈ p.order,
      Function.update q.key (f a) k (f b) = Function.update p.key a k b := fun b hb => by
    have hne : b ≠ a := fun e => ha (e ▸ hb)
    have hfne : f b ≠ f a := fun e => hfa (h.mem.mpr ⟨b, hb, e⟩)
    rw [Function.update_of_ne hne, Function.update_of_ne hfne]
    exact h.key b hb
  have hself : Function.update q.key (f a) k (f a) = Function.update p.key a k a := by
    rw [Function.update_self, Function.update_self]
  refine ⟨?_, place_perm.nodup_iff.mpr (List.nodup_cons.mpr ⟨hfa, h.nodup⟩), fun b hb => ?_,
    fun b => ?_, fun b => ?_⟩
  · show place before _ (f a) q.order = (place before _ a p.order).map f
    rw [h.order]
    exact (map_place hself hkey).symm
  · rcases mem_place.mp hb with rfl | hb
    · exact hself
    · exact hkey b hb
  · show Function.update p.armed a true b = true ↔ b ∈ place before _ a p.order
    rw [mem_place]
    by_cases hb : b = a
    · subst hb
      simp
    · rw [Function.update_of_ne hb, h.left]
      simp [hb]
  · show Function.update q.armed (f a) true b = true ↔ b ∈ place before _ (f a) q.order
    rw [mem_place]
    by_cases hb : b = f a
    · subst hb
      simp
    · rw [Function.update_of_ne hb, h.right]
      simp [hb]

theorem Image.remove (h : Image f p q) {a : α} (ha : a ∈ p.order) (k : κ) :
    Image f (p.remove a k) (q.remove (f a) k) := by
  have hsub : ∀ b, b ∈ p.order.erase a ↔ b ≠ a ∧ b ∈ p.order := fun b =>
    h.nodup_left.mem_erase_iff
  have hsub' : ∀ b, b ∈ q.order.erase (f a) ↔ b ≠ f a ∧ b ∈ q.order := fun b =>
    h.nodup.mem_erase_iff
  refine ⟨?_, h.nodup.erase _, fun b hb => ?_, fun b => ?_, fun b => ?_⟩
  · show q.order.erase (f a) = (p.order.erase a).map f
    rw [h.nodup.erase_eq_filter, h.nodup_left.erase_eq_filter, h.order, List.filter_map]
    refine congrArg (List.map f) (List.filter_congr fun b hb => ?_)
    rw [Function.comp_apply, Bool.eq_iff_iff, bne_iff_ne, bne_iff_ne, not_iff_not]
    exact ⟨fun e => h.inj hb ha e, fun e => congrArg f e⟩
  · obtain ⟨hne, hb⟩ := (hsub b).mp hb
    have hfne : f b ≠ f a := fun e => hne (h.inj hb ha e)
    show Function.update q.key (f a) k (f b) = Function.update p.key a k b
    rw [Function.update_of_ne hne, Function.update_of_ne hfne]
    exact h.key b hb
  · show Function.update p.armed a false b = true ↔ b ∈ p.order.erase a
    rw [hsub]
    by_cases hb : b = a
    · subst hb
      simp
    · rw [Function.update_of_ne hb, h.left]
      simp [hb]
  · show Function.update q.armed (f a) false b = true ↔ b ∈ q.order.erase (f a)
    rw [hsub']
    by_cases hb : b = f a
    · subst hb
      simp
    · rw [Function.update_of_ne hb, h.right]
      simp [hb]

/-- An armed event is added again. -/
theorem Image.add (h : Image f p q) {a : α} (ha : a ∈ p.order) (zero k : κ) :
    Image f (p.add before close zero a k) (q.add before close zero (f a) k) := by
  have hfa : f a ∈ q.order := h.mem.mpr ⟨a, ha, rfl⟩
  unfold TimerQueue.add
  rw [if_pos ((h.left a).mpr ha), if_pos ((h.right (f a)).mpr hfa), h.key a ha]
  split
  · exact h
  · refine (h.remove ha zero).insert ?_ ?_ k
    · exact fun hm => (h.nodup_left.mem_erase_iff.mp hm).1 rfl
    · exact fun hm => (h.nodup.mem_erase_iff.mp hm).1 rfl

end

end Lib
