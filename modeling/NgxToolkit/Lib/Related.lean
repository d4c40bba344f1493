import Mathlib.Data.List.Forall2
import Mathlib.Data.List.MinMax

/-! Choices from related lists.

Two lists are related if their entries are, one by one (`List.Forall₂`).  What is chosen from
the one by something that related entries agree on is related to what is chosen from the
other.  So a specification may choose among descriptions and a program among the things that
it made of them.

* `find?_related`, `argmax_related`: the first entry, and the one with the greatest value.
* `Search`, `search_related`: the first entry that answers, where an answer may be a refusal. -/

namespace Lib

variable {α β γ : Type*} {R : α → β → Prop} {l : List α} {l' : List β}

theorem mem_related (h : List.Forall₂ R l l') {b : β} (hb : b ∈ l') : ∃ a ∈ l, R a b := by
  induction h with
  | nil => cases hb
  | @cons a b' l l' hab _ ih =>
    rcases List.mem_cons.mp hb with rfl | hb
    · exact ⟨a, List.mem_cons_self, hab⟩
    · obtain ⟨a', ha', hab'⟩ := ih hb
      exact ⟨a', List.mem_cons_of_mem a ha', hab'⟩

theorem map_related {f : α → γ} {g : β → γ} (h : List.Forall₂ R l l')
    (hfg : ∀ a b, R a b → f a = g b) : l.map f = l'.map g := by
  induction h with
  | nil => rfl
  | cons hab _ ih => rw [List.map_cons, List.map_cons, hfg _ _ hab, ih]

theorem find?_related {p : α → Bool} {q : β → Bool} (h : List.Forall₂ R l l')
    (hpq : ∀ a b, R a b → p a = q b) : Option.Rel R (l.find? p) (l'.find? q) := by
  induction h with
  | nil => exact .none
  | @cons a b l l' hab _ ih =>
    rw [List.find?_cons, List.find?_cons, hpq a b hab]
    cases q b with
    | true => exact .some hab
    | false => exact ih

theorem filter_related {p : α → Bool} {q : β → Bool} (h : List.Forall₂ R l l')
    (hpq : ∀ a b, R a b → p a = q b) : List.Forall₂ R (l.filter p) (l'.filter q) :=
  List.rel_filter (fun a b hab => iff_of_eq (congrArg (· = true) (hpq a b hab))) h

theorem argmax_related [LinearOrder γ] {f : α → γ} {g : β → γ} (h : List.Forall₂ R l l')
    (hfg : ∀ a b, R a b → f a = g b) : Option.Rel R (l.argmax f) (l'.argmax g) := by
  induction h with
  | nil => exact .none
  | @cons a b l l' hab _ ih =>
    rw [List.argmax_cons, List.argmax_cons]
    generalize l.argmax f = m at ih ⊢
    generalize l'.argmax g = m' at ih ⊢
    cases ih with
    | none => exact .some hab
    | @some c d hcd =>
      dsimp only
      rw [hfg a b hab, hfg c d hcd]
      split
      · exact .some hcd
      · exact .some hab

/-- What a try of an entry says. -/
inductive Search where
  | here
  | next
  | refuse

/-- What the first entry has whose try does not say `next`, if that is no refusal; `rest` if
there is none. -/
def searchFirst (t : α → Search) (f : α → γ) (rest : Option γ) : List α → Option γ
  | [] => rest
  | a :: l =>
    match t a with
    | .here => some (f a)
    | .next => searchFirst t f rest l
    | .refuse => none

theorem searchFirst_next {t : α → Search} {f : α → γ} {rest : Option γ}
    (h : ∀ a ∈ l, t a = .next) : searchFirst t f rest l = rest := by
  induction l with
  | nil => rfl
  | cons a l ih =>
    unfold searchFirst
    rw [h a List.mem_cons_self]
    exact ih fun b hb => h b (List.mem_cons_of_mem a hb)

theorem search_related {γ' : Type*} {S : γ → γ' → Prop} {t : α → Search} {u : β → Search}
    {f : α → γ} {g : β → γ'} {rest : Option γ} {rest' : Option γ'} (h : List.Forall₂ R l l')
    (htu : ∀ a b, R a b → t a = u b) (hfg : ∀ a b, R a b → S (f a) (g b))
    (hrest : Option.Rel S rest rest') :
    Option.Rel S (searchFirst t f rest l) (searchFirst u g rest' l') := by
  induction h with
  | nil => exact hrest
  | @cons a b l l' hab _ ih =>
    unfold searchFirst
    rw [htu a b hab]
    cases u b with
    | here => exact .some (hfg a b hab)
    | next => exact ih
    | refuse => exact .none

end Lib
