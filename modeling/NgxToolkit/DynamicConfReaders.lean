import Mathlib.Tactic.Common
import NgxToolkit.DynamicConfRuns

/-! Readers that keep an object of the dynamic configuration across loads.

`ngx_get_dconf` gives a reader a pointer into the configuration in use; the
reader may keep it while the worker loads.  A successful load destroys the
configuration in use before it switches to the new one (`switchConf`), so what
a reader keeps lives until the next successful load only, and not until the
second next, as two slots would allow. -/

namespace NgxToolkit.DynamicConf

open Lib

variable {α κ δ : Type}

/-- A pointer that `ngx_get_dconf` returned: the object, the pool that it is in, and
how many loads had succeeded. -/
structure Reader (α : Type) where
  obj : α
  pool : Nat
  gen : Nat

/-- The file, the worker and the readers. -/
structure Readers (α κ δ : Type) where
  world : World α κ δ
  readers : List (Reader α)

inductive ReadersLabel (α κ : Type) where
  /-- a step of the writer or the worker -/
  | world (l : Label α κ)
  /-- `ngx_get_dconf`; `NULL` is not kept -/
  | get (m : Module)
  /-- the reader at the position `i` drops its pointer -/
  | drop (i : Nat)

def Readers.get (s : Readers α κ δ) (m : Module) : Readers α κ δ :=
  match s.world.dccf.conf s.world.dccf.used, getDconf s.world.dccf m with
  | some conf, some obj =>
    { s with readers := ⟨obj, conf.pool, s.world.loads.length⟩ :: s.readers }
  | _, _ => s

/-- The machine of the loads with readers. -/
def readers [DecidableEq δ] (cycle : Cycle) (md5 : κ → δ) (configured : Bool) (text : κ) :
    Machine (Readers α κ δ) (ReadersLabel α κ) where
  start := ⟨(machine cycle md5 configured text).start, []⟩
  step s
    | .world l => (s.world.step cycle md5 l).map fun w => { s with world := w }
    | .get m => some (s.get m)
    | .drop i => some { s with readers := s.readers.eraseIdx i }

/-- A pointer is good until the second load that succeeds after it was read. -/
def Kept (s : Readers α κ δ) : Prop :=
  ∀ r ∈ s.readers, s.world.loads.length ≤ r.gen + 1 → r.pool ∉ s.world.pools.destroyed

/-- No load succeeds while a pointer into the configuration in use is kept. -/
def Dropped (cycle : Cycle) (s : Readers α κ δ) : ReadersLabel α κ → Prop
  | .world (.load env) =>
    env.Accepts cycle s.world.file → ∀ r ∈ s.readers, r.gen ≠ s.world.loads.length
  | _ => True

/-- What such runs keep: a pointer is into the configuration in use, or older than the
one before it. -/
structure Recent (cycle : Cycle) (s : Readers α κ δ) : Prop where
  inv : Inv cycle s.world
  gen : ∀ r ∈ s.readers, r.gen ≤ s.world.loads.length
  current : ∀ r ∈ s.readers, r.gen = s.world.loads.length →
    s.world.loads.head?.map (·.pool) = some r.pool
  previous : ∀ r ∈ s.readers, r.gen + 1 ≠ s.world.loads.length

section
variable {cycle : Cycle} {s : Readers α κ δ}

theorem Recent.kept (h : Recent cycle s) : Kept s := by
  intro r hr hgen
  have hle := h.gen r hr
  have hne := h.previous r hr
  obtain ⟨l, hl, hp⟩ := Option.map_eq_some_iff.mp (h.current r hr (by omega))
  have hact := h.inv.active l hl
  rwa [hp] at hact

theorem Recent.get (h : Recent cycle s) (m : Module) : Recent cycle (s.get m) := by
  unfold Readers.get
  split
  · next conf obj hconf hobj =>
    refine ⟨h.inv, List.forall_mem_cons.mpr ⟨Nat.le_refl _, h.gen⟩,
      List.forall_mem_cons.mpr ⟨fun _ => h.inv.used_pool hconf, h.current⟩,
      List.forall_mem_cons.mpr ⟨Nat.succ_ne_self _, h.previous⟩⟩
  · exact h

theorem Recent.drop (h : Recent cycle s) (i : Nat) :
    Recent cycle { s with readers := s.readers.eraseIdx i } := by
  have hsub := fun r (hr : r ∈ s.readers.eraseIdx i) => List.mem_of_mem_eraseIdx hr
  exact ⟨h.inv, fun r hr => h.gen r (hsub r hr), fun r hr => h.current r (hsub r hr),
    fun r hr => h.previous r (hsub r hr)⟩

/-- A step of the worker that no load succeeds in. -/
theorem Recent.frame (h : Recent cycle s) {w : World α κ δ} (hw : Inv cycle w)
    (hloads : w.loads = s.world.loads) : Recent cycle { s with world := w } := by
  refine ⟨hw, ?_, ?_, ?_⟩
  · show ∀ r ∈ s.readers, r.gen ≤ w.loads.length
    rw [hloads]
    exact h.gen
  · show ∀ r ∈ s.readers, r.gen = w.loads.length → w.loads.head?.map (·.pool) = some r.pool
    rw [hloads]
    exact h.current
  · show ∀ r ∈ s.readers, r.gen + 1 ≠ w.loads.length
    rw [hloads]
    exact h.previous

/-- After a load that succeeds, every older configuration's pool is destroyed; so the
pointers are still good if and only if none was into the one in use. -/
theorem Recent.load (h : Recent cycle s) (env : LoadEnv α κ) (ok error : Pc δ)
    (run : Option (List κ)) (hacc : env.Accepts cycle s.world.file) :
    let s' : Readers α κ δ := { s with world := s.world.load cycle env ok error run }
    ((∀ r ∈ s.readers, r.gen ≠ s.world.loads.length) → Recent cycle s') ∧
      (Kept s' → ∀ r ∈ s.readers, r.gen ≠ s.world.loads.length) := by
  intro s'
  have hinv := h.inv.load env ok error run
  have hloads : s'.world.loads = ⟨env, s.world.file, s.world.pools.made⟩ :: s.world.loads :=
    if_pos (loadConf_ok.mpr hacc)
  have hlength : s'.world.loads.length = s.world.loads.length + 1 := by
    rw [hloads, List.length_cons]
  constructor
  · intro hne
    refine ⟨hinv, fun r hr => ?_, fun r hr hgen => ?_, fun r hr hgen => ?_⟩
    · have := h.gen r hr
      omega
    · have := h.gen r hr
      omega
    · exact hne r hr (by omega)
  · intro hkept r hr hgen
    obtain ⟨l, hl, hp⟩ := Option.map_eq_some_iff.mp (h.current r hr hgen)
    have hcount := hinv.superseded l (by
      rw [show (s.world.load cycle env ok error run).loads = s'.world.loads from rfl, hloads]
      exact List.mem_of_mem_head? hl)
    have hle : s'.world.loads.length ≤ r.gen + 1 := by omega
    refine hkept r hr hle ?_
    rw [← hp]
    exact List.count_pos_iff.mp (Nat.lt_of_lt_of_eq Nat.one_pos hcount.symm)

/-- A step of the writer or the worker. -/
theorem Recent.world [DecidableEq δ] {md5 : κ → δ} (h : Recent cycle s) {l : Label α κ}
    {w : World α κ δ} (hst : s.world.step cycle md5 l = some w) :
    (Dropped cycle s (.world l) → Recent cycle { s with world := w }) ∧
      (Kept { s with world := w } → Dropped cycle s (.world l)) := by
  have hinv := h.inv.step hst
  by_cases hl : ∃ env, l = .load env
  · obtain ⟨env, rfl⟩ := hl
    obtain ⟨ok, error, run, rfl⟩ := step_load hst
    by_cases hacc : env.Accepts cycle s.world.file
    · obtain ⟨h1, h2⟩ := h.load env ok error run hacc
      exact ⟨fun hd => h1 (hd hacc), fun hk _ => h2 hk⟩
    · exact ⟨fun _ => h.frame hinv (if_neg fun hok => hacc (loadConf_ok.mp hok)),
        fun _ ha => absurd ha hacc⟩
  · rcases step_frame hst with ⟨env, -, -, -, he, -⟩ | ⟨-, -, -, hloads⟩
    · exact absurd ⟨env, he⟩ hl
    · refine ⟨fun _ => h.frame hinv hloads, fun _ => ?_⟩
      cases l with
      | load env => exact absurd ⟨env, rfl⟩ hl
      | _ => trivial

theorem Recent.step [DecidableEq δ] {md5 : κ → δ} {configured : Bool} {text : κ}
    (h : Recent cycle s) {l : ReadersLabel α κ} {s' : Readers α κ δ}
    (hst : (readers cycle md5 configured text).step s l = some s') :
    (Dropped cycle s l → Recent cycle s') ∧ (Kept s' → Dropped cycle s l) := by
  cases l with
  | world l =>
    obtain ⟨w, hw, rfl⟩ := Option.map_eq_some_iff.mp hst
    exact h.world hw
  | get m =>
    cases hst
    exact ⟨fun _ => h.get m, fun _ => trivial⟩
  | drop i =>
    cases hst
    exact ⟨fun _ => h.drop i, fun _ => trivial⟩

end

/-- **Pointers across a load.**  In every run in which no load succeeds while a pointer
into the configuration in use is kept, every pointer is good until the second next
successful load; and this holds after a step if and only if it is no such load. -/
theorem reachIf_kept [DecidableEq δ] (cycle : Cycle) (md5 : κ → δ) (configured : Bool) (text : κ)
    (s : Readers α κ δ) (hr : (readers cycle md5 configured text).ReachIf (Dropped cycle) s) :
    Kept s ∧ ∀ l s', (readers cycle md5 configured text).step s l = some s' →
      (Dropped cycle s l ↔ Kept s') := by
  have hworld : (machine cycle md5 configured text : Machine (World α κ δ) _).Reach
      (machine cycle md5 configured text).start := .start
  have hstart : Recent cycle (readers cycle md5 configured text : Machine (Readers α κ δ) _).start :=
    ⟨reach_inv hworld, fun _ h => (by cases h), fun _ h => (by cases h), fun _ h => by cases h⟩
  have h : Recent cycle s := hr.invariant (P := Recent cycle) hstart
    fun _ _ _ _ h hok hst => (h.step hst).1 hok
  exact ⟨h.kept, fun l s' hst => ⟨fun hd => ((h.step hst).1 hd).kept, (h.step hst).2⟩⟩

/-- A pointer is dropped before the next load succeeds; a load that fails leaves it. -/
theorem reachIf_kept_dropped : ∃ s : Readers Nat Nat Nat,
    (readers someCycle id true 1).run (readers someCycle id true 1).start
      [.world (.init true), .world (.load (someEnv true)), .world (.md5 true), .world .record,
        .get ⟨true, 0, none⟩, .world (.write 2), .world (.fire false true), .world (.md5 true),
        .world .compare, .world (.load (someEnv false))] = some s ∧
    s.readers.map (·.obj) = [1] ∧ Kept s := by
  have hok : (readers someCycle id true 1).Meets (Dropped someCycle)
      (readers someCycle id true 1).start
      [.world (.init true), .world (.load (someEnv true)), .world (.md5 true), .world .record,
        .get ⟨true, 0, none⟩, .world (.write 2), .world (.fire false true), .world (.md5 true),
        .world .compare, .world (.load (someEnv false))] := by
    refine .cons trivial rfl (.cons (fun _ _ h => (by cases h)) rfl ?_)
    refine .cons trivial rfl (.cons trivial rfl (.cons trivial rfl ?_))
    refine .cons trivial rfl (.cons trivial rfl (.cons trivial rfl (.cons trivial rfl ?_)))
    exact .cons (fun h => absurd h.parse Bool.false_ne_true) rfl trivial
  exact ⟨_, rfl, rfl, (reachIf_kept _ _ _ _ _ (Machine.ReachIf.start.of_meets hok rfl)).1⟩

/-- A pointer that was read before a successful load is into a destroyed pool after it. -/
theorem load_destroys_current : ∃ s : Readers Nat Nat Nat,
    (readers someCycle id true 1).run (readers someCycle id true 1).start
      [.world (.init true), .world (.load (someEnv true)), .world (.md5 true), .world .record,
        .get ⟨true, 0, none⟩, .world (.write 2), .world (.fire false true), .world (.md5 true),
        .world .compare, .world (.load (someEnv true))] = some s ∧
    s.world.loads.length = 2 ∧
    (∃ r ∈ s.readers, r.gen = 1 ∧ r.pool ∈ s.world.pools.destroyed) ∧ ¬ Kept s := by
  refine ⟨_, rfl, rfl, ⟨⟨1, 0, 1⟩, .head _, rfl, .head _⟩, fun h => ?_⟩
  exact h ⟨1, 0, 1⟩ (.head _) (Nat.le_refl 2) (.head _)

end NgxToolkit.DynamicConf
