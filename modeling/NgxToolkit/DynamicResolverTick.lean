import Mathlib.Data.List.Nodup
import Mathlib.Data.Prod.Lex
import Mathlib.Tactic.Common
import NgxToolkit.DynamicResolverSteps

/-! One run of `ngx_dynamic_resolver_on_timer`.

Behind each query the timer reads the link of the record that it has asked for.
As long as no handler deletes this domain meanwhile (`Undisturbed`), the records
behind it in the bucket are those still to come, less those that are deleted
(`Changes.place`).

* `Ticking.step`: what a step does to the timer.
* `timer_refreshes`: each domain that stays in the table is asked for once. -/

namespace NgxToolkit.DynamicResolver

open Lib

variable {η δ : Type}

/-- A condition on the steps while the timer runs: none deletes the domain whose
query it has just started. -/
def Undisturbed (pton : List UInt8 → Nat) (w : World η δ) : Label η δ → Prop
  | .del domain => w.stack ≠ [] ∧
    ∀ i d, w.stack.getLast? = some (.ticked i d) → ¬ w.Finds pton domain d
  | _ => w.stack ≠ []

theorem Undisturbed.stack {pton : List UInt8 → Nat} {w : World η δ} {l : Label η δ}
    (h : Undisturbed pton w l) : w.stack ≠ [] := by
  cases l with
  | del => exact h.1
  | _ => exact h

/-- Is the step a turn of the function at the bottom of the stack? -/
def World.ownTurn (w : World η δ) (l : Label η δ) : Bool := l.isTurn && w.stack.length == 1

/-- The name that the last step has asked for. -/
def World.freshName (w : World η δ) : List (List UInt8) := w.fresh.toList.map (·.name)

/-- The names that the timer asks for in a run. -/
def asked (pton : List UInt8 → Nat) : World η δ → List (Label η δ) → List (List UInt8)
  | _, [] => []
  | w, l :: is =>
    ((w.step pton l).map fun w' =>
      (if w.ownTurn l then w'.freshName else []) ++ asked pton w' is).getD []

/-- A name is in the table in every state of a run. -/
def Stays (pton : List UInt8 → Nat) (temp : List UInt8) : World η δ → List (Label η δ) → Prop
  | w, [] => (w.live temp).isSome
  | w, l :: is => (w.live temp).isSome ∧ ∀ w', w.step pton l = some w' → Stays pton temp w' is

/-! ## Places -/

/-- The names of records. -/
def Conf.names (s : Conf η δ) (l : List Nat) : List (List UInt8) := l.map fun d => (s.dom d).domain

/-- How often the timer will ask for `temp`, in bucket `i` with the records `l` to come. -/
def due (s : Conf η δ) (i : Nat) (l : List Nat) (temp : List UInt8) : Nat :=
  (if i < s.idx temp then 1 else 0) + (s.names l).count temp

/-- The timer is in a frame, in bucket `i`, with the records `l` and `n` turns to
come in this bucket. -/
inductive Place (ds : Option Nat → List Nat) : List Frame → Frame → Nat → List Nat → Nat → Prop
  | look {i : Nat} {l₁ l : List Nat} (h : ds (some i) = l₁ ++ l) :
    Place ds [] (.tick i l.head?) i l (2 * l.length)
  | behind {above : List Frame} {i d : Nat} {l₁ l : List Nat} (h : ds (some i) = l₁ ++ d :: l) :
    Place ds above (.ticked i d) i l (2 * l.length + 1)

section
variable {s s' : Conf η δ} {ws ds ds' : Option Nat → List Nat} {cs rs : List Nat} {o : Option Nat}

/-- A name in the table is once in its bucket and in no other one. -/
theorem Table.count_names (h : Table s ws ds cs rs) {temp : List UInt8}
    (he : ∃ e, Entry s ds temp e) (b : Nat) :
    (s.names (ds (some b))).count temp = if b = s.idx temp then 1 else 0 := by
  obtain ⟨e, he⟩ := he
  split
  · next hb =>
    subst hb
    exact List.count_eq_one_of_mem (h.names _) (List.mem_map.mpr ⟨e, he⟩)
  · next hb =>
    rw [List.count_eq_zero]
    intro hm
    obtain ⟨d, hd, hname⟩ := List.mem_map.mp hm
    exact hb (by rw [← hname, h.bucket b d hd])

theorem names_append (s : Conf η δ) (l l' : List Nat) :
    s.names (l ++ l') = s.names l ++ s.names l' := List.map_append

/-- Entries that stay keep their names. -/
theorem names_congr (l : List Nat) (h : ∀ e ∈ l, (s'.dom e).domain = (s.dom e).domain) :
    s'.names l = s.names l := List.map_congr_left h

/-- A list from which another element than `d` is taken out. -/
theorem split_remove {m₁ m₂ l₁ l : List Nat} {d₀ d : Nat} (h : m₁ ++ d₀ :: m₂ = l₁ ++ d :: l)
    (hne : d₀ ≠ d) : ∃ l₁' l', m₁ ++ m₂ = l₁' ++ d :: l' ∧
      (l' = l ∨ ∃ a b, l = a ++ d₀ :: b ∧ l' = a ++ b) := by
  rcases List.append_eq_append_iff.mp h with ⟨a, rfl, ha⟩ | ⟨a, rfl, ha⟩
  · cases a with
    | nil => exact absurd (List.cons.inj ha).1 hne
    | cons x a =>
      rw [List.cons_append] at ha
      obtain ⟨rfl, rfl⟩ := List.cons.inj ha
      exact ⟨m₁ ++ a, l, by rw [List.append_assoc], .inl rfl⟩
  · cases a with
    | nil => exact absurd (List.cons.inj ha).1.symm hne
    | cons x a =>
      rw [List.cons_append] at ha
      obtain ⟨rfl, rfl⟩ := List.cons.inj ha
      exact ⟨l₁, a ++ m₂, by rw [List.append_assoc, List.cons_append], .inr ⟨a, m₂, rfl, rfl⟩⟩

/-- **Places.**  The records behind `d` stay, but for one that is taken out. -/
theorem Changes.place (h : Changes s s' ds ds' o) (ht : Table s ws ds cs rs) {i d : Nat}
    {l₁ l : List Nat} (hb : ds (some i) = l₁ ++ d :: l) (ho : o ≠ some d) :
    ∃ l₁' l', ds' (some i) = l₁' ++ d :: l' ∧ l'.length ≤ l.length ∧
      ∀ temp, (∃ e, Entry s' ds' temp e) → (s'.names l').count temp = (s.names l).count temp := by
  have hmem : ∀ e ∈ l, e ∈ ds (some i) := fun e he => by
    rw [hb]
    exact List.mem_append_right _ (List.mem_cons_of_mem _ he)
  cases h with
  | same hds hentry =>
    refine ⟨l₁, l, (hds i).trans hb, Nat.le_refl _, fun temp _ => ?_⟩
    rw [names_congr l fun e he => ((hentry _ e).mpr (ht.entry (hmem e he))).2]
  | @added temp₀ d₀ hds hoff hentry =>
    have hnames : s'.names l = s.names l :=
      names_congr l fun e he => ((hentry _ e).mpr (.inr (ht.entry (hmem e he)))).2
    by_cases hi : i = s.idx temp₀
    · refine ⟨d₀ :: l₁, l, ?_, Nat.le_refl _, fun temp _ => by rw [hnames]⟩
      rw [hds, if_pos hi, hb, List.cons_append]
    · refine ⟨l₁, l, ?_, Nat.le_refl _, fun temp _ => by rw [hnames]⟩
      rw [hds, if_neg hi, hb]
  | @dropped temp₀ m₁ m₂ d₀ hm hds hd hentry =>
    have hne : d₀ ≠ d := fun hdd => ho (congrArg some hdd)
    -- the other records keep their names
    have hname : ∀ e ∈ ds (some i), e ≠ d₀ → (s'.dom e).domain = (s.dom e).domain := by
      intro e he hed
      refine ((hentry _ e).mpr ⟨fun htemp => hed ?_, ht.entry he⟩).2
      exact ht.entry_unique (htemp ▸ ht.entry he) hd
    by_cases hi : i = s.idx temp₀
    · rw [← hi] at hm
      have hnodup := ht.doms.chains.nodup (some i)
      rw [hb] at hnodup
      obtain ⟨l₁', l', hsplit, hl⟩ := split_remove (hm.symm.trans hb) hne
      have hds' : ds' (some i) = l₁' ++ d :: l' := by
        rw [hds, if_pos hi, hsplit]
      rcases hl with rfl | ⟨a, b, rfl, rfl⟩
      · refine ⟨l₁', l', hds', Nat.le_refl _, fun temp _ => ?_⟩
        rw [names_congr l' fun e he => hname e (hmem e he) ?_]
        rintro rfl
        -- the record would be in the bucket without it
        have hmem' : e ∈ m₁ ++ m₂ := by
          rw [hsplit]
          exact List.mem_append_right _ (List.mem_cons_of_mem _ he)
        have hnodup' := ht.doms.chains.nodup (some i)
        rw [hm, List.nodup_middle, List.nodup_cons] at hnodup'
        exact hnodup'.1 hmem'
      · have hnodup' := (List.nodup_cons.mp (List.nodup_append.mp hnodup).2.1).2
        rw [List.nodup_middle, List.nodup_cons] at hnodup'
        refine ⟨l₁', a ++ b, hds', ?_, fun temp he => ?_⟩
        · rw [List.length_append, List.length_append, List.length_cons]
          omega
        · have htemp : (s.dom d₀).domain ≠ temp := by
            obtain ⟨e, he⟩ := he
            rw [hd.2]
            exact ((hentry temp e).mp he).1.symm
          rw [names_congr (a ++ b) fun e he => hname e (hmem e ?_) ?_, names_append, names_append,
            List.count_append, List.count_append]
          · exact congrArg _ (List.count_cons_of_ne htemp).symm
          · simp only [List.mem_append, List.mem_cons] at he ⊢
            tauto
          · rintro rfl
            exact hnodup'.1 he
    · refine ⟨l₁, l, ?_, Nat.le_refl _, fun temp _ => ?_⟩
      · rw [hds, if_neg hi, hb]
      · rw [names_congr l fun e he => hname e (hmem e he) ?_]
        rintro rfl
        -- a record is in one bucket
        have hin : e ∈ ds (some (s.idx temp₀)) := by
          rw [hm]
          simp
        exact hi (Option.some.inj (ht.doms.chains.disjoint _ _ e (hmem e he) hin))

end

/-! ## Steps -/

structure Ticking (w : World η δ) (ws ds : Option Nat → List Nat) (above : List Frame) (f : Frame)
    (i : Nat) (l : List Nat) (n : Nat) : Prop where
  sound : Sound w ws ds
  stack : w.stack = above ++ [f]
  fault : above = [] → w.fault = none
  lt : i < w.conf.domainBuckets
  place : Place ds above f i l n

/-- The buckets and the turns that are left. -/
def measure (w : World η δ) (i n : Nat) : Nat ×ₗ Nat := toLex (w.conf.domainBuckets - i, n)

section
variable {w w' : World η δ} {ws ws' ds ds' : Option Nat → List Nat} {above : List Frame} {f : Frame}
  {i n : Nat} {l : List Nat} {lab : Label η δ} {pton : List UInt8 → Nat}

theorem exists_entry (hw : Sound w ws ds) {temp : List UInt8} (h : (w.live temp).isSome) :
    ∃ e, Entry w.conf ds temp e := (hw.shape.live temp).mp h

/-- The timer goes on to the next bucket, or ends. -/
theorem due_nil (hw : Sound w ws ds) {temp : List UInt8} (h : (w.live temp).isSome) (i : Nat) :
    due w.conf i [] temp = due w.conf (i + 1) (ds (some (i + 1))) temp := by
  unfold due
  rw [hw.shape.table.count_names (exists_entry hw h)]
  show (if i < w.conf.idx temp then 1 else 0) + 0 = _
  split <;> split <;> split <;> omega

/-- At the start every name in the table is still to come. -/
theorem due_start (hw : Sound w ws ds) {temp : List UInt8} (h : (w.live temp).isSome) :
    due w.conf 0 (ds (some 0)) temp = 1 := by
  unfold due
  rw [hw.shape.table.count_names (exists_entry hw h)]
  split <;> split <;> omega

/-- Nothing but its next turn is possible where the timer looks at a record. -/
theorem Ticking.run_of_look {p : Option Nat} (h : Ticking w ws ds [] (.tick i p) i l n)
    (hstep : w.step pton lab = some w') : ∃ rand, lab = .run rand := by
  have hstack : w.stack = [.tick i p] := h.stack
  have huser : w.user = false := by
    unfold World.user
    rw [hstack]
  cases (World.steps_of_step hstep).2 with
  | add hu | del hu | start hu | host hu | hostFault hu =>
    rw [huser] at hu
    cases hu
  | reply _ hwhen =>
    have hfresh := hwhen.resolve_left (by simp [hstack])
    have := h.sound.loops.fresh (by simp [hfresh]) (.tick i p) (by simp [hstack])
    cases this
  | timer hempty | timerFault hempty | tick hempty =>
    rw [hstack] at hempty
    cases hempty
  | run => exact ⟨_, rfl⟩
  | ret hret => simp [World.ret, hstack] at hret

/-- The step of the timer alone is its turn. -/
theorem Ticking.run_eq (h : Ticking w ws ds [] f i l n) {rand : Nat} :
    w.step pton (.run rand) = World.run { w with fresh := none, stack := [f] } rand := by
  have hstack : w.stack = [f] := h.stack
  unfold World.step
  dsimp only
  rw [if_neg (not_not.mpr (h.fault rfl)), hstack]

/-- Behind the last record of its bucket the timer goes to the next bucket or returns. -/
theorem Ticking.turn_nil {p : Option Nat} (h : Ticking w ws ds [] (.tick i p) i [] n)
    (hp : p = none) {rand : Nat} (hstep : w.step pton (.run rand) = some w') :
    (Ticking w' ws ds [] (.tick (i + 1) (ds (some (i + 1))).head?) (i + 1) (ds (some (i + 1)))
        (2 * (ds (some (i + 1))).length) ∧ w'.fresh = none ∧ w'.conf = w.conf) ∨
      (w'.stack = [] ∧ w'.fresh = none ∧ w.conf.domainBuckets ≤ i + 1) := by
  subst hp
  have hstack : w.stack = [.tick i none] := h.stack
  have hw0 : Sound { w with fresh := none } ws ds := (Move.fresh (R := Rules.free)).sound h.sound
  rw [h.run_eq] at hstep
  unfold World.run at hstep
  dsimp only at hstep
  split at hstep
  · next hlt =>
    cases hstep
    have halike : Frame.Alike (.tick i none) (.tick (i + 1) (w.conf.resolverHash (i + 1))) :=
      ⟨rfl, rfl, rfl, rfl, rfl⟩
    have hm := (Move.turned (R := Rules.free) (w := { w with fresh := none }) hstack rfl rfl
      halike rfl fun q rep i h => by cases h).sound hw0
    have hhead : w.conf.resolverHash (i + 1) = (ds (some (i + 1))).head? :=
      h.sound.shape.table.doms.chains.head_eq (some (i + 1))
    rw [hhead] at hm ⊢
    exact .inl ⟨⟨hm, rfl, fun _ => h.fault rfl, hlt, .look (List.nil_append _).symm⟩, rfl, rfl⟩
  · next hlt =>
    cases hstep
    exact .inr ⟨rfl, rfl, Nat.not_lt.mp hlt⟩

/-- The timer asks for the name of a record. -/
theorem Ticking.turn_cons {d : Nat} {l₁ : List Nat} {p : Option Nat}
    (h : Ticking w ws ds [] (.tick i p) i (d :: l) n) (hp : p = some d)
    (hb : ds (some i) = l₁ ++ d :: l) {rand : Nat} (hstep : w.step pton (.run rand) = some w') :
    Ticking w' ws ds [] (.ticked i d) i l (2 * l.length + 1) ∧
      (∃ add, w'.fresh = some ⟨d, (w.conf.dom d).domain, add⟩) ∧ w'.conf = w.conf := by
  subst hp
  have hstack : w.stack = [.tick i (some d)] := h.stack
  have hw0 : Sound { w with fresh := none } ws ds := (Move.fresh (R := Rules.free)).sound h.sound
  rw [h.run_eq] at hstep
  unfold World.run at hstep
  dsimp only at hstep
  cases hstep
  have hm := (Move.issue (R := Rules.free) (w := { w with fresh := none }) hstack).sound hw0
  exact ⟨⟨hm, rfl, fun _ => h.fault rfl, h.lt, .behind hb⟩, ⟨_, rfl⟩, rfl⟩

/-- Behind its query the timer reads the link of the record. -/
theorem Ticking.turn_behind {d : Nat} {l₁ : List Nat}
    (h : Ticking w ws ds [] (.ticked i d) i l n) (hb : ds (some i) = l₁ ++ d :: l) {rand : Nat}
    (hstep : w.step pton (.run rand) = some w') :
    Ticking w' ws ds [] (.tick i l.head?) i l (2 * l.length) ∧ w'.fresh = none ∧
      w'.conf = w.conf := by
  have hstack : w.stack = [.ticked i d] := h.stack
  have hw0 : Sound { w with fresh := none } ws ds := (Move.fresh (R := Rules.free)).sound h.sound
  rw [h.run_eq] at hstep
  unfold World.run at hstep
  dsimp only at hstep
  cases hstep
  have hlink := h.sound.shape.table.doms.chains.linked (some i)
  rw [hb] at hlink
  have hnext : (w.conf.dom d).next = l.head? := hlink.suffix.2.head
  have halike : Frame.Alike (.ticked i d) (.tick i (w.conf.dom d).next) :=
    ⟨rfl, rfl, rfl, rfl, rfl⟩
  have hm := (Move.turned (R := Rules.free) (w := { w with fresh := none }) hstack rfl rfl
    halike rfl fun q rep i h => by cases h).sound hw0
  rw [hnext] at hm ⊢
  have hb' : ds (some i) = (l₁ ++ [d]) ++ l := by
    rw [hb, List.append_assoc]
    rfl
  exact ⟨⟨hm, rfl, fun _ => h.fault rfl, h.lt, .look hb'⟩, rfl, rfl⟩

theorem freshName_nil (h : w.fresh = none) : w.freshName = [] := by
  unfold World.freshName
  rw [h]
  rfl

/-- **Turns.**  A turn of the timer. -/
theorem Ticking.turn (h : Ticking w ws ds [] f i l n) {rand : Nat}
    (hstep : w.step pton (.run rand) = some w') :
    (∃ f' i' l' n', Ticking w' ws ds [] f' i' l' n' ∧ measure w' i' n' < measure w i n ∧
      ∀ temp, (w.live temp).isSome →
        due w.conf i l temp = w'.freshName.count temp + due w'.conf i' l' temp) ∨
    (w'.stack = [] ∧ ∀ temp, (w.live temp).isSome →
      due w.conf i l temp = w'.freshName.count temp) := by
  cases hplace : h.place with
  | @look _ l₁ _ hb =>
    cases l with
    | nil =>
      rcases h.turn_nil rfl hstep with ⟨ht, hfresh, hconf⟩ | ⟨hstack, hfresh, hle⟩
      · refine .inl ⟨_, _, _, _, ht, ?_, fun temp htemp => ?_⟩
        · have := h.lt
          unfold measure
          rw [hconf]
          refine Prod.Lex.toLex_lt_toLex.mpr (.inl ?_)
          show w.conf.domainBuckets - (i + 1) < w.conf.domainBuckets - i
          omega
        · rw [freshName_nil hfresh, hconf, due_nil h.sound htemp i, List.count_nil, Nat.zero_add]
      · refine .inr ⟨hstack, fun temp htemp => ?_⟩
        have hidx : w.conf.idx temp < w.conf.domainBuckets :=
          Nat.mod_lt _ (Nat.zero_lt_of_lt h.lt)
        unfold due
        rw [freshName_nil hfresh, if_neg (by omega)]
        rfl
    | cons d l =>
      obtain ⟨ht, ⟨add, hfresh⟩, hconf⟩ := h.turn_cons rfl hb hstep
      have hname : w'.freshName = [(w.conf.dom d).domain] := by
        unfold World.freshName
        rw [hfresh]
        rfl
      refine .inl ⟨_, _, _, _, ht, ?_, fun temp _ => ?_⟩
      · unfold measure
        rw [hconf]
        refine Prod.Lex.toLex_lt_toLex.mpr (.inr ⟨rfl, ?_⟩)
        rw [List.length_cons]
        omega
      · have hcount : (w.conf.names (d :: l)).count temp =
            [(w.conf.dom d).domain].count temp + (w.conf.names l).count temp := by
          rw [← List.count_append]
          rfl
        unfold due
        rw [hcount, hname, hconf]
        exact Nat.add_left_comm _ _ _
  | @behind _ _ d l₁ _ hb =>
    obtain ⟨ht, hfresh, hconf⟩ := h.turn_behind hb hstep
    refine .inl ⟨_, _, _, _, ht, ?_, fun temp _ => ?_⟩
    · unfold measure
      rw [hconf]
      exact Prod.Lex.toLex_lt_toLex.mpr (.inr ⟨rfl, Nat.lt_succ_self _⟩)
    · rw [freshName_nil hfresh, hconf, List.count_nil, Nat.zero_add]

/-- Steps of the functions that the timer has called, or of their replies. -/
theorem Ticking.beside {d : Nat} (h : Ticking w ws ds above (.ticked i d) i l n)
    (hok : Undisturbed pton w lab) (hown : w.ownTurn lab = false)
    (hstep : w.step pton lab = some w') :
    ∃ ws' ds' above' l' n', Ticking w' ws' ds' above' (.ticked i d) i l' n' ∧
      measure w' i n' ≤ measure w i n ∧
      ∀ temp, (w'.live temp).isSome → due w.conf i l temp = due w'.conf i l' temp := by
  obtain ⟨ws', ds', o, hw', hch, ho⟩ := World.step_changes h.sound hstep
  have hset := World.step_settings hstep
  have hbuckets : w'.conf.domainBuckets = w.conf.domainBuckets := congrArg Prod.fst hset
  cases h.place with
  | @behind _ _ _ l₁ _ hb =>
  have hod : o ≠ some d := by
    intro hod
    obtain ⟨domain, rfl, hfinds⟩ := ho d hod
    refine hok.2 i d ?_ hfinds
    rw [h.stack, List.getLast?_concat]
  obtain ⟨l₁', l', hb', hlen, hcount⟩ := hch.place h.sound.shape.table hb hod
  -- the timer is still at the bottom of the stack
  have hstack : ∃ above', w'.stack = above' ++ [.ticked i d] ∧
      (above' = [] → w'.fault = none) := by
    rcases World.step_stack h.sound hstep with ⟨hturn, g, st, hst, hnew⟩ | ⟨-, st, hst, hgrow⟩
    · cases above with
      | nil =>
        unfold World.ownTurn at hown
        rw [h.stack, hturn] at hown
        cases hown
      | cons g' above =>
        have hcons := hst.symm.trans h.stack
        rw [List.cons_append] at hcons
        obtain ⟨rfl, rfl⟩ := List.cons.inj hcons
        rcases hnew with ⟨hpop, hf⟩ | ⟨g', hg'⟩
        · exact ⟨above, hpop, fun _ => hf⟩
        · exact ⟨g' :: above, hg', fun he => by cases he⟩
    · refine ⟨st ++ above, by rw [hst, h.stack, List.append_assoc], fun he => ?_⟩
      -- a query behind which nothing runs is answered by a function that starts
      obtain ⟨rfl, rfl⟩ := List.append_eq_nil_iff.mp he
      have huser : w.user = false := by
        unfold World.user
        rw [h.stack]
        rfl
      rw [huser, h.stack] at hgrow
      simp at hgrow
  obtain ⟨above', hstack', hfault'⟩ := hstack
  refine ⟨ws', ds', above', l', _, ⟨hw', hstack', hfault', ?_, .behind hb'⟩, ?_,
    fun temp htemp => ?_⟩
  · rw [hbuckets]
    exact h.lt
  · unfold measure
    rw [hbuckets]
    refine Prod.Lex.toLex_le_toLex.mpr (.inr ⟨rfl, ?_⟩)
    show 2 * l'.length + 1 ≤ 2 * l.length + 1
    omega
  · unfold due
    rw [hcount temp (exists_entry hw' htemp), idx_congr hset]

/-- The timer runs; `m` is what is left, and it will ask for each name that often. -/
def Timing (w : World η δ) (m : Nat ×ₗ Nat) (times : List UInt8 → Nat) : Prop :=
  ∃ ws ds above f i l n, Ticking w ws ds above f i l n ∧ m = measure w i n ∧
    times = due w.conf i l

/-- The timer is the only function that runs where it looks at a record. -/
theorem Timing.frame {m : Nat ×ₗ Nat} {times : List UInt8 → Nat} (h : Timing w m times)
    (hstack : w.stack.length = 1) : ∃ ws ds f i l n, Ticking w ws ds [] f i l n := by
  obtain ⟨ws, ds, above, f, i, l, n, ht, -, -⟩ := h
  have habove : above = [] := by
    rw [ht.stack, List.length_append, List.length_singleton] at hstack
    exact List.length_eq_zero_iff.mp (by omega)
  subst habove
  exact ⟨ws, ds, f, i, l, n, ht⟩

/-- The only turn of the timer itself is its next one. -/
theorem Ticking.run_of_turn (h : Ticking w ws ds [] f i l n) (hturn : lab.isTurn = true)
    (hstep : w.step pton lab = some w') : ∃ rand, lab = .run rand := by
  cases lab with
  | run rand => exact ⟨rand, rfl⟩
  | ret =>
    cases h.place with
    | look => exact h.run_of_look hstep
    | behind =>
      have hstack := h.stack
      cases (World.steps_of_step hstep).2 with
      | ret hret => simp [World.ret, hstack] at hret
  | _ => cases hturn

/-- **The timer.**  A step leaves less to do if it is one of the timer, and else
not more. -/
theorem Timing.step {m : Nat ×ₗ Nat} {times : List UInt8 → Nat} (h : Timing w m times)
    (hok : Undisturbed pton w lab) (hstep : w.step pton lab = some w') :
    (∃ m' times', Timing w' m' times' ∧ m' ≤ m ∧ (w.ownTurn lab = true → m' < m) ∧
      ∀ temp, (w.live temp).isSome → (w'.live temp).isSome →
        times temp = (if w.ownTurn lab then w'.freshName else []).count temp + times' temp) ∨
    (w'.stack = [] ∧ ∀ temp, (w.live temp).isSome →
      times temp = (if w.ownTurn lab then w'.freshName else []).count temp) := by
  obtain ⟨ws, ds, above, f, i, l, n, ht, rfl, rfl⟩ := h
  by_cases hown : w.ownTurn lab = true
  · have hboth := hown
    unfold World.ownTurn at hboth
    rw [Bool.and_eq_true, beq_iff_eq, ht.stack, List.length_append, List.length_singleton] at hboth
    obtain rfl : above = [] := List.length_eq_zero_iff.mp (by omega)
    obtain ⟨rand, rfl⟩ := ht.run_of_turn hboth.1 hstep
    rw [if_pos hown]
    rcases ht.turn hstep with ⟨f', i', l', n', ht', hlt, hdue⟩ | ⟨hstack, hdue⟩
    · exact .inl ⟨_, _, ⟨ws, ds, [], f', i', l', n', ht', rfl, rfl⟩, hlt.le, fun _ => hlt,
        fun temp htemp _ => hdue temp htemp⟩
    · exact .inr ⟨hstack, hdue⟩
  · rw [if_neg hown]
    have hfalse := Bool.eq_false_iff.mpr hown
    cases hplace : ht.place with
    | look =>
      -- where it looks at a record nothing else is possible
      obtain ⟨rand, rfl⟩ := ht.run_of_look hstep
      unfold World.ownTurn at hown
      rw [ht.stack] at hown
      exact absurd rfl hown
    | @behind _ _ d =>
      obtain ⟨ws', ds', above', l', n', ht', hle, hdue⟩ := ht.beside hok hfalse hstep
      refine .inl ⟨_, _, ⟨ws', ds', above', _, i, l', n', ht', rfl, rfl⟩, hle,
        fun ho => absurd ho hown, fun temp _ htemp => ?_⟩
      rw [List.count_nil, Nat.zero_add]
      exact hdue temp htemp

end

/-! ## Runs -/

section
variable {w w₁ w' : World η δ} {pton : List UInt8 → Nat}

theorem Stays.start {temp : List UInt8} {is : List (Label η δ)} (h : Stays pton temp w is) :
    (w.live temp).isSome := by
  cases is with
  | nil => exact h
  | cons l is => exact h.1

theorem asked_cons {l : Label η δ} (hstep : w.step pton l = some w') (is : List (Label η δ)) :
    asked pton w (l :: is) =
      (if w.ownTurn l then w'.freshName else []) ++ asked pton w' is := by
  unfold asked
  rw [hstep]
  cases is <;> rfl

/-- **Runs.**  While the timer runs, what it has asked for and what it will ask for
is what it would have asked for at the start. -/
theorem Timing.run {refreshInterval domainBuckets : Nat} {hashed : Bool} {m : Nat ×ₗ Nat}
    {times : List UInt8 → Nat} (h : Timing w m times) {is : List (Label η δ)}
    (hok : (machine pton refreshInterval domainBuckets hashed).Meets (Undisturbed pton) w is)
    (hrun : (machine pton refreshInterval domainBuckets hashed).run w is = some w') :
    (∃ m' times', Timing w' m' times') ∨
    (w'.stack = [] ∧ ∀ temp, Stays pton temp w is →
      (asked pton w is).count temp = times temp) := by
  induction is generalizing w m times with
  | nil =>
    simp only [Machine.run, Option.some.injEq] at hrun
    subst hrun
    exact .inl ⟨m, times, h⟩
  | cons l is ih =>
    simp only [Machine.run, Option.bind_eq_some_iff] at hrun
    obtain ⟨w₁, hstep, hrun⟩ := hrun
    rcases h.step hok.1 hstep with ⟨m', times', ht', -, -, htimes⟩ | ⟨hstack, htimes⟩
    · refine (ih ht' (hok.2 w₁ hstep) hrun).imp_right ?_
      rintro ⟨hstack, hasked⟩
      refine ⟨hstack, fun temp htemp => ?_⟩
      rw [asked_cons hstep, List.count_append, hasked temp (htemp.2 w₁ hstep),
        htimes temp htemp.1 (htemp.2 w₁ hstep).start]
    · cases is with
      | nil =>
        simp only [Machine.run, Option.some.injEq] at hrun
        subst hrun
        refine .inr ⟨hstack, fun temp htemp => ?_⟩
        rw [asked_cons hstep, htimes temp htemp.1]
        show ((if w.ownTurn l then w₁.freshName else []) ++ []).count temp = _
        rw [List.append_nil]
      | cons l' is =>
        -- behind its end the run of the timer has no step
        exact absurd hstack (hok.2 w₁ hstep).1.stack

/-- One run of the timer. -/
structure Refreshed (pton : List UInt8 → Nat) (w w' : World η δ) (is : List (Label η δ)) :
    Prop where
  /-- A query is for a record in the table. -/
  listed : ∀ rand w'' q, w'.stack.length = 1 → w'.step pton (.run rand) = some w'' →
    w''.fresh = some q → hostSearch w'.conf q.name w'.conf.nallocDomain = some (some q.dom)
  /-- The timer goes on when the functions have returned that it has called. -/
  goes : w'.stack.length = 1 → ∀ rand, (w'.step pton (.run rand)).isSome
  /-- At its end it has asked once for each name that was in the table all the time. -/
  once : w'.stack = [] → ∀ temp, Stays pton temp w is → (asked pton w is).count temp = 1

theorem Refreshed.of_ended {is : List (Label η δ)} (hstack : w'.stack = [])
    (h : ∀ temp, Stays pton temp w is → (asked pton w is).count temp = 1) :
    Refreshed pton w w' is := by
  have hlen : w'.stack.length ≠ 1 := by
    rw [hstack]
    exact Nat.zero_ne_one
  exact ⟨fun _ _ _ h1 => absurd h1 hlen, fun h1 => absurd h1 hlen, fun _ => h⟩

theorem Timing.goes {m : Nat ×ₗ Nat} {times : List UInt8 → Nat} (h : Timing w m times)
    (pton : List UInt8 → Nat) (hstack : w.stack.length = 1) (rand : Nat) :
    (w.step pton (.run rand)).isSome := by
  obtain ⟨ws, ds, f, i, l, n, ht⟩ := h.frame hstack
  rw [ht.run_eq]
  unfold World.run
  cases ht.place with
  | look =>
    cases l with
    | nil =>
      dsimp only [List.head?_nil]
      split <;> rfl
    | cons => rfl
  | behind => rfl

theorem Timing.listed {m : Nat ×ₗ Nat} {times : List UInt8 → Nat} (h : Timing w m times)
    (hstack : w.stack.length = 1) {rand : Nat} (hstep : w.step pton (.run rand) = some w')
    {q : Query} (hq : w'.fresh = some q) :
    hostSearch w.conf q.name w.conf.nallocDomain = some (some q.dom) := by
  obtain ⟨ws, ds, f, i, l, n, ht⟩ := h.frame hstack
  cases hplace : ht.place with
  | @look _ l₁ _ hb =>
    cases l with
    | nil =>
      rcases ht.turn_nil rfl hstep with ⟨-, hfresh, -⟩ | ⟨-, hfresh, -⟩
      · rw [hfresh] at hq
        cases hq
      · rw [hfresh] at hq
        cases hq
    | cons d l =>
      obtain ⟨-, ⟨add, hfresh⟩, -⟩ := ht.turn_cons rfl hb hstep
      rw [hfresh] at hq
      cases hq
      have hd : Entry w.conf ds (w.conf.dom d).domain d :=
        ht.sound.shape.table.entry (by rw [hb]; simp)
      show hostSearch w.conf (w.conf.dom d).domain w.conf.nallocDomain = some (some d)
      rw [ht.sound.shape.table.hostSearch_eq _ (Nat.le_refl _),
        ht.sound.shape.table.find?_eq_some.mpr hd]
  | behind hb =>
    obtain ⟨-, hfresh, -⟩ := ht.turn_behind hb hstep
    rw [hfresh] at hq
    cases hq

/-- The timer starts with every name in the table still to come. -/
theorem timing_start {ws ds : Option Nat → List Nat} (hw : Sound w ws ds)
    (hbuckets : w.conf.domainBuckets ≠ 0) (hhashed : w.conf.hashed = true)
    (hstep : w.step pton (.timer false) = some w₁) :
    ∃ m times, Timing w₁ m times ∧ ∀ temp, (w₁.live temp).isSome → times temp = 1 := by
  have hw0 : Sound { w with fresh := none } ws ds := (Move.fresh (R := Rules.free)).sound hw
  have hhead : w.conf.resolverHash 0 = (ds (some 0)).head? :=
    hw.shape.table.doms.chains.head_eq (some 0)
  obtain ⟨hfault, hsteps⟩ := World.steps_of_step hstep
  cases hsteps with
  | timer _ hleft => exact absurd hleft (by simp [hbuckets])
  | timerFault _ _ hnohash => exact absurd hnohash (by simp [hhashed])
  | tick hempty =>
    rw [hempty, hhead]
    have hm := (Move.timer (R := Rules.free) (w := { w with fresh := none }) (ds (some 0)).head?
      hempty rfl).sound hw0
    have hplace : Place ds [] (.tick 0 (ds (some 0)).head?) 0 (ds (some 0)) _ :=
      .look (List.nil_append _).symm
    exact ⟨_, _, ⟨ws, ds, [], _, 0, _, _, ⟨hm, rfl, fun _ => hfault,
      Nat.pos_of_ne_zero hbuckets, hplace⟩, rfl, rfl⟩, fun temp htemp => due_start hm htemp⟩

/-- Without buckets the timer returns at once, and there is no name. -/
theorem timer_none {refreshInterval domainBuckets : Nat} {hashed : Bool}
    (hw : (machine pton refreshInterval domainBuckets hashed).Reach w) (hzero : domainBuckets = 0)
    (hstep : w.step pton (.timer false) = some w₁) :
    w₁.stack = [] ∧ ∀ temp, w₁.live temp = none := by
  have hbuckets : w.conf.domainBuckets = 0 := (congrArg Prod.fst (reach_settings hw)).trans hzero
  have hidle : w.Idle := (reach_hashFault hw).resolve_left fun hno => by
    unfold Conf.hashFault at hno
    rw [if_pos hbuckets] at hno
    cases hno
  cases (World.steps_of_step hstep).2 with
  | timer hempty => exact ⟨hempty, hidle.live⟩
  | timerFault _ hne | tick _ hne => exact absurd hbuckets hne

/-- **The timer.**  As long as no handler deletes the domain whose query the timer has
just started, it asks once for each domain that stays in the table and for no deleted
record, and after finitely many of its turns it is at its end. -/
theorem timer_refreshes {refreshInterval domainBuckets : Nat} {hashed : Bool}
    (hw : (machine pton refreshInterval domainBuckets hashed).Reach w)
    (hhash : domainBuckets = 0 ∨ hashed = true)
    (hstep : w.step pton (.timer false) = some w₁) :
    (∀ is w',
      (machine pton refreshInterval domainBuckets hashed).Meets (Undisturbed pton) w₁ is →
      (machine pton refreshInterval domainBuckets hashed).run w₁ is = some w' →
      Refreshed pton w₁ w' is) ∧
    ∀ (s : Nat → World η δ) (ls : Nat → Label η δ), s 0 = w₁ →
      (∀ n, Undisturbed pton (s n) (ls n)) →
      (∀ n, (s n).step pton (ls n) = some (s (n + 1))) →
      ∃ N, ∀ n, N ≤ n → (s n).ownTurn (ls n) = false := by
  have hset := reach_settings hw
  have hbuckets : w.conf.domainBuckets = domainBuckets := congrArg Prod.fst hset
  have hhashed : w.conf.hashed = hashed := congrArg Prod.snd hset
  obtain ⟨ws, ds, hs⟩ := reach_sound hw
  by_cases hzero : domainBuckets = 0
  · have hw₁ := timer_none hw hzero hstep
    refine ⟨fun is w' hok hrun => ?_, fun s ls h0 hok hrun => ?_⟩
    · cases is with
      | nil =>
        simp only [Machine.run, Option.some.injEq] at hrun
        subst hrun
        refine .of_ended hw₁.1 fun temp htemp => ?_
        have hlive := htemp.start
        rw [hw₁.2 temp] at hlive
        cases hlive
      | cons l is => exact absurd hw₁.1 hok.1.stack
    · exact absurd (h0 ▸ hw₁.1) (hok 0).stack
  · obtain ⟨m, times, ht, htimes⟩ := timing_start hs (hbuckets ▸ hzero)
      (hhashed.trans (hhash.resolve_left hzero)) hstep
    refine ⟨fun is w' hok hrun => ?_, fun s ls h0 hok hrun => ?_⟩
    · rcases ht.run hok hrun with ⟨m', times', ht'⟩ | ⟨hstack, hasked⟩
      · refine ⟨fun rand w'' q hlen h hq => ht'.listed hlen h hq,
          fun hlen rand => ht'.goes pton hlen rand, fun hstack => ?_⟩
        obtain ⟨ws', ds', above, f, i, l, n, ht'', -, -⟩ := ht'
        have := ht''.stack.symm.trans hstack
        simp at this
      · refine .of_ended hstack fun temp htemp => ?_
        rw [hasked temp htemp, htimes temp htemp.start]
    · have hturns : ∃ N, ∀ n, N ≤ n → ¬ (s n).ownTurn (ls n) = true := by
        refine Machine.finite_turns (P := fun m w => ∃ times, Timing w m times) (s := s)
          ?_ ⟨times, h0.symm ▸ ht⟩
        rintro n m ⟨times, ht⟩
        rcases ht.step (hok n) (hrun n) with ⟨m', times', ht', hle, hlt, -⟩ | ⟨hstack, -⟩
        · exact ⟨m', hle, ⟨times', ht'⟩, hlt⟩
        · exact absurd hstack (hok (n + 1)).stack
      obtain ⟨N, hN⟩ := hturns
      exact ⟨N, fun n hn => Bool.eq_false_iff.mpr (hN n hn)⟩

end

/-- Two names; the first query fails at once, and the handler adds a third name to the bucket
that is still to come. -/
theorem timer_refreshes_two : ∃ (w w₁ w' : World Unit Unit) (is : List (Label Unit Unit)),
    (machine (fun _ => 0) 60 2 true).Reach w ∧ w.step (fun _ => 0) (.timer false) = some w₁ ∧
      w'.stack = [] ∧ w'.called.length = 1 ∧ asked (fun _ => 0) w₁ is = [[98], [99], [97]] ∧
      Refreshed (fun _ => 0) w₁ w' is := by
  have hr := (machine (η := Unit) (δ := Unit) (fun _ => 0) 60 2 true).reach_run
    [.start (some [97]) () () true true 0, .start (some [98]) () () true true 0] rfl
  have hne : ∀ {f : Frame} {l : List Frame}, f :: l ≠ [] := List.cons_ne_nil _ _
  have h := (@timer_refreshes Unit Unit _ _ (fun _ => 0) 60 2 true hr (.inr rfl) rfl).1
    [.run 0, .reply ⟨1, [98], some 1⟩ [], .run 0, .add (some [99]) true, .ret, .run 0, .run 0,
      .run 0, .run 0, .run 0, .run 0, .run 0, .run 0] _
    (.cons hne rfl (.cons hne rfl (.cons hne rfl (.cons hne rfl (.cons hne rfl (.cons hne rfl
      (.cons hne rfl (.cons hne rfl (.cons hne rfl (.cons hne rfl (.cons hne rfl (.cons hne rfl
        (.cons hne rfl trivial))))))))))))) rfl
  exact ⟨_, _, _, _, hr, rfl, rfl, rfl, rfl, h⟩

/-- A handler deletes the domain whose query has just failed at once: the timer goes on with
the records on the free list. -/
theorem freed_asked :
    ¬ ∀ (w w₁ w' : World Unit Unit) (is : List (Label Unit Unit)),
      (machine (fun _ => 0) 60 1 true).Reach w →
      w.step (fun _ => 0) (.timer false) = some w₁ →
      (machine (fun _ => 0) 60 1 true).Meets (fun w _ => w.stack ≠ []) w₁ is →
      (machine (fun _ => 0) 60 1 true).run w₁ is = some w' → Refreshed (fun _ => 0) w₁ w' is := by
  intro hall
  have hr := (machine (η := Unit) (δ := Unit) (fun _ => 0) 60 1 true).reach_run
    [.start (some [97]) () () true true 0, .add (some [120]) true, .del (some [120]), .run 0] rfl
  have hne : ∀ {f : Frame} {l : List Frame}, f :: l ≠ [] := List.cons_ne_nil _ _
  have h := (hall _ _ _ [.run 0, .reply ⟨0, [97], some 0⟩ [], .run 0, .del (some [97]), .run 0,
    .ret, .run 0, .run 0] hr rfl
    (.cons hne rfl (.cons hne rfl (.cons hne rfl (.cons hne rfl (.cons hne rfl (.cons hne rfl
      (.cons hne rfl (.cons hne rfl trivial)))))))) rfl).listed 0 _ ⟨1, [120], none⟩ rfl rfl rfl
  exact absurd h (by decide)

end NgxToolkit.DynamicResolver
