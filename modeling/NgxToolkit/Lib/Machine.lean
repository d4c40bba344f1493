import Mathlib.Order.WellFounded
import Mathlib.Tactic.Common

/-! Labelled step machines and what holds of all their runs.

A `Machine` starts in one state and takes labelled steps; the label carries
every choice of the outside world, so a step is a partial function.  A run is
a list of labels.  `ReachIf M ok s` says that some run whose every step meets
the condition `ok` ends in `s`; `Reach` is the case without a condition.

* `ReachIf.invariant`: what holds at the start and is kept by every step
  holds in every state reached.
* `ReachIf.of_run`, `reach_run`: a list of labels that runs ends in a reached state.
* `simulate`: if every step of one machine is matched by a step of another one
  with the same label, so is every run.
* `finite_turns`: a measure that no step raises is lowered only finitely often. -/

namespace Lib

/-- A start state and partial labelled steps. -/
structure Machine (σ ι : Type*) where
  start : σ
  step : σ → ι → Option σ

namespace Machine

variable {σ ι : Type*}

/-- The state after a list of labels, if every step is enabled. -/
def run (M : Machine σ ι) : σ → List ι → Option σ
  | s, [] => some s
  | s, i :: is => (M.step s i).bind fun s' => run M s' is

/-- The states that runs reach whose every step meets `ok`. -/
inductive ReachIf (M : Machine σ ι) (ok : σ → ι → Prop) : σ → Prop
  | start : ReachIf M ok M.start
  | step {s s' : σ} {i : ι} :
      ReachIf M ok s → ok s i → M.step s i = some s' → ReachIf M ok s'

/-- The states that runs reach. -/
def Reach (M : Machine σ ι) (s : σ) : Prop := ReachIf M (fun _ _ => True) s

theorem ReachIf.mono {M : Machine σ ι} {ok ok' : σ → ι → Prop} (h : ∀ s i, ok s i → ok' s i)
    {s : σ} (hs : ReachIf M ok s) : ReachIf M ok' s := by
  induction hs with
  | start => exact .start
  | step _ hok hst ih => exact .step ih (h _ _ hok) hst

theorem ReachIf.reach {M : Machine σ ι} {ok : σ → ι → Prop} {s : σ} (hs : ReachIf M ok s) :
    M.Reach s :=
  hs.mono fun _ _ _ => trivial

/-- **Invariants.**  A property of the start state that every step from a
reached state keeps holds in every reached state. -/
theorem ReachIf.invariant {M : Machine σ ι} {ok : σ → ι → Prop} {P : σ → Prop} (h0 : P M.start)
    (hstep : ∀ s i s', ReachIf M ok s → P s → ok s i → M.step s i = some s' → P s')
    {s : σ} (hs : ReachIf M ok s) : P s := by
  induction hs with
  | start => exact h0
  | step hr hok hst ih => exact hstep _ _ _ hr ih hok hst

/-- The case of `ReachIf.invariant` with no condition on the steps. -/
theorem Reach.invariant {M : Machine σ ι} {P : σ → Prop} (h0 : P M.start)
    (hstep : ∀ s i s', M.Reach s → P s → M.step s i = some s' → P s') {s : σ} (hs : M.Reach s) :
    P s :=
  ReachIf.invariant h0 (fun s i s' hr hP _ hst => hstep s i s' hr hP hst) hs

/-- Every step of the run of `is` meets `ok`. -/
def Meets (M : Machine σ ι) (ok : σ → ι → Prop) : σ → List ι → Prop
  | _, [] => True
  | s, i :: is => ok s i ∧ ∀ s', M.step s i = some s' → Meets M ok s' is

/-- A run whose steps meet `ok` ends in a reached state. -/
theorem ReachIf.of_meets {M : Machine σ ι} {ok : σ → ι → Prop} {s s' : σ} (hs : M.ReachIf ok s)
    {is : List ι} (hok : M.Meets ok s is) (h : M.run s is = some s') : M.ReachIf ok s' := by
  induction is generalizing s with
  | nil =>
    simp only [run, Option.some.injEq] at h
    exact h ▸ hs
  | cons i is ih =>
    simp only [run, Option.bind_eq_some_iff] at h
    obtain ⟨s1, h1, h2⟩ := h
    exact ih (hs.step hok.1 h1) (hok.2 s1 h1) h2

theorem Meets.cons {M : Machine σ ι} {ok : σ → ι → Prop} {s s' : σ} {i : ι} {is : List ι}
    (hok : ok s i) (h : M.step s i = some s') (hs : M.Meets ok s' is) : M.Meets ok s (i :: is) := by
  refine ⟨hok, fun s'' h' => ?_⟩
  rw [h, Option.some.injEq] at h'
  exact h' ▸ hs

theorem Meets.of_forall {M : Machine σ ι} {ok : σ → ι → Prop} {is : List ι}
    (hok : ∀ i ∈ is, ∀ t, ok t i) (s : σ) : M.Meets ok s is := by
  induction is generalizing s with
  | nil => trivial
  | cons i is ih =>
    exact ⟨hok i List.mem_cons_self s, fun s' _ =>
      ih (fun j hj => hok j (List.mem_cons_of_mem _ hj)) s'⟩

/-- A run whose labels all meet `ok` in every state ends in a reached state. -/
theorem ReachIf.of_run {M : Machine σ ι} {ok : σ → ι → Prop} {s s' : σ} (hs : M.ReachIf ok s)
    (is : List ι) (hok : ∀ i ∈ is, ∀ t, ok t i) (h : M.run s is = some s') : M.ReachIf ok s' :=
  hs.of_meets (Meets.of_forall hok s) h

/-- A run from the start ends in a reached state. -/
theorem reach_run (M : Machine σ ι) (is : List ι) {s' : σ} (h : M.run M.start is = some s') :
    M.Reach s' :=
  ReachIf.of_run .start is (fun _ _ _ => trivial) h

/-- **Lockstep simulation.**  States that are related stay related in runs with
the same labels. -/
theorem simulate {τ : Type*} {M : Machine σ ι} {N : Machine τ ι} {ok : σ → ι → Prop}
    {R : σ → τ → Prop}
    (hstep : ∀ {s t i s'}, R s t → ok s i → M.step s i = some s' →
      ∃ t', N.step t i = some t' ∧ R s' t')
    {s s' : σ} {t : τ} (hR : R s t) {is : List ι} (hok : M.Meets ok s is)
    (hrun : M.run s is = some s') : ∃ t', N.run t is = some t' ∧ R s' t' := by
  induction is generalizing s t with
  | nil =>
    simp only [run, Option.some.injEq] at hrun
    exact ⟨t, rfl, hrun ▸ hR⟩
  | cons i is ih =>
    simp only [run, Option.bind_eq_some_iff] at hrun ⊢
    obtain ⟨s1, h1, h2⟩ := hrun
    obtain ⟨t1, ht1, hR1⟩ := hstep hR hok.1 h1
    obtain ⟨t', ht', hR'⟩ := ih hR1 (hok.2 s1 h1) h2
    exact ⟨t', ⟨t1, ht1, ht'⟩, hR'⟩

/-- **Infinite runs.**  In an infinite sequence of states no step raises the
measure, so only finitely many steps lower it. -/
theorem finite_turns {μ : Type*} [Preorder μ] [WellFoundedLT μ] {P : μ → σ → Prop} {s : ℕ → σ}
    {turn : ℕ → Prop} (hstep : ∀ n m, P m (s n) → ∃ m', m' ≤ m ∧ P m' (s (n + 1)) ∧
      (turn n → m' < m)) {m : μ} (h0 : P m (s 0)) : ∃ N, ∀ n, N ≤ n → ¬ turn n := by
  -- by induction on the measure of any later state
  suffices h : ∀ k, P m (s k) → ∃ N, ∀ n, N ≤ n → ¬ turn n from h 0 h0
  clear h0
  induction m using WellFoundedLT.induction with
  | ind m ih =>
    intro k hk
    by_cases hno : ∀ n, k ≤ n → ¬ turn n
    · exact ⟨k, hno⟩
    · push Not at hno
      obtain ⟨n, hkn, hn⟩ := hno
      have hlater : ∀ d, ∃ m', m' ≤ m ∧ P m' (s (k + d)) := by
        intro d
        induction d with
        | zero => exact ⟨m, le_refl m, hk⟩
        | succ d ihd =>
          obtain ⟨m', hm', hP⟩ := ihd
          obtain ⟨m'', hm'', hP', -⟩ := hstep (k + d) m' hP
          exact ⟨m'', hm''.trans hm', hP'⟩
      obtain ⟨m', hm', hP⟩ := hlater (n - k)
      rw [Nat.add_sub_cancel' hkn] at hP
      obtain ⟨m'', -, hP', hlt⟩ := hstep n m' hP
      exact ih m'' (lt_of_lt_of_le (hlt hn) hm') (n + 1) hP'

end Machine

end Lib
