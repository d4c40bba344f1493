import Mathlib.Data.List.Count
import Mathlib.Logic.Function.Basic
import Mathlib.Tactic.Common
import NgxToolkit.DynamicConf

/-! What one load does, and what runs of loads keep.

* `loadConf_cases`, `loadConf_error`, `switchConf_spec`: one load.
* `reach_doubleBuffer`: over every run, the slot in use holds what the last
  successful load built and the other slot is empty; a superseded pool is
  destroyed exactly once, the active one never. -/

namespace NgxToolkit.DynamicConf

open Lib

variable {α κ δ : Type}

/-! ## One load -/

/-- The objects after the `create_conf` loop: a module with a `create_conf` has
what it returned, and every other index keeps what it had. -/
theorem createConfs_spec {createConf : Nat → Option α} {ms : List Module} {i : Nat}
    {moduleConf moduleConf' : List (Option α)}
    (h : createConfs createConf ms i moduleConf = some moduleConf')
    (hlt : ∀ m ∈ ms, m.core = true → m.ctxIndex < moduleConf.length)
    (hne : ms.Pairwise fun m m' => m.core = true → m'.core = true → m.ctxIndex ≠ m'.ctxIndex) :
    (∀ (j : Nat) (m : Module), ms[j]? = some m → m.core = true → moduleConf'[m.ctxIndex]?.join =
      if m.creates then createConf (i + j) else moduleConf[m.ctxIndex]?.join) ∧
    ∀ n, (∀ m ∈ ms, m.core = true → m.ctxIndex ≠ n) → moduleConf'[n]? = moduleConf[n]? := by
  induction ms generalizing i moduleConf with
  | nil =>
    simp only [createConfs, Option.some.injEq] at h
    subst h
    exact ⟨fun j m hj => by simp at hj, fun n _ => rfl⟩
  | cons m ms ih =>
    rw [List.pairwise_cons] at hne
    have hlt' := fun m' hm' => hlt m' (List.mem_cons_of_mem _ hm')
    unfold createConfs at h
    by_cases hc : m.creates = true
    · have hcore : m.core = true := by
        unfold Module.creates at hc
        rw [Bool.and_eq_true] at hc
        exact hc.1
      rw [if_pos hc] at h
      split at h
      · cases h
      · next rv hrv =>
        have hih := ih h (by simpa using hlt') hne.2
        refine ⟨fun j m' hj hcore' => ?_, fun n hn => ?_⟩
        · cases j with
          | zero =>
            rw [List.getElem?_cons_zero, Option.some.injEq] at hj
            subst hj
            rw [hih.2 _ fun m' hm' h' => (hne.1 m' hm' hcore h').symm, if_pos hc, Nat.add_zero, hrv,
              List.getElem?_set_self (hlt m List.mem_cons_self hcore)]
            rfl
          | succ j =>
            rw [List.getElem?_cons_succ] at hj
            have hmem := List.mem_of_getElem? hj
            rw [hih.1 j m' hj hcore', List.getElem?_set_ne (hne.1 m' hmem hcore hcore')]
            rw [show i + 1 + j = i + (j + 1) by omega]
        · rw [hih.2 n fun m' hm' => hn m' (List.mem_cons_of_mem _ hm')]
          exact List.getElem?_set_ne (hn m List.mem_cons_self hcore)
    · rw [if_neg hc] at h
      have hih := ih h hlt' hne.2
      refine ⟨fun j m' hj hcore' => ?_, fun n hn =>
        hih.2 n fun m' hm' => hn m' (List.mem_cons_of_mem _ hm')⟩
      cases j with
      | zero =>
        rw [List.getElem?_cons_zero, Option.some.injEq] at hj
        subst hj
        rw [hih.2 _ fun m' hm' h' => (hne.1 m' hm' hcore' h').symm, if_neg hc]
      | succ j =>
        rw [List.getElem?_cons_succ] at hj
        rw [hih.1 j m' hj hcore']
        rw [show i + 1 + j = i + (j + 1) by omega]

/-- What the successful load `l` built, as the source stores it. -/
def Load.ctx (cycle : Cycle) (l : Load α κ) : Option (Ctx α κ) :=
  (createConfs l.env.createConf cycle.modules 0 (List.replicate cycle.coreMaxModule none)).map
    fun moduleConf => ⟨moduleConf, l.pool, l.text⟩

/-- The object that a load builds for the module `m` at the position `i`. -/
def Load.built (l : Load α κ) (i : Nat) (m : Module) : Option α :=
  if m.creates then l.env.createConf i else none

theorem Load.ctx_built {cycle : Cycle} {l : Load α κ} {conf : Ctx α κ} (h : l.ctx cycle = some conf)
    {i : Nat} {m : Module} (hi : cycle.modules[i]? = some m) (hm : m.core = true) :
    conf.moduleConf[m.ctxIndex]?.join = l.built i m := by
  obtain ⟨moduleConf, hc, rfl⟩ := Option.map_eq_some_iff.mp h
  have hlt : ∀ m ∈ cycle.modules, m.core = true →
      m.ctxIndex < (List.replicate cycle.coreMaxModule (none : Option α)).length := by
    intro m hmem hcore
    rw [List.length_replicate]
    exact cycle.ctxIndex_lt m hmem hcore
  have hspec := (createConfs_spec hc hlt cycle.ctxIndex_ne).1 i m hi hm
  rw [Nat.zero_add] at hspec
  rw [show (⟨moduleConf, l.pool, l.text⟩ : Ctx α κ).moduleConf = moduleConf from rfl, hspec]
  have hnone : (List.replicate cycle.coreMaxModule (none : Option α))[m.ctxIndex]?.join = none := by
    rw [List.getElem?_replicate]
    split <;> rfl
  unfold Load.built
  rw [hnone]

/-- What a load does: it fails, leaves the configuration and destroys only pools
of its own, or it builds a configuration and switches to it. -/
theorem loadConf_cases (cycle : Cycle) (env : LoadEnv α κ) (text : κ) (pools : Pools)
    (dccf : Conf α κ δ) :
    (∃ made l, pools.made ≤ made ∧ (∀ p ∈ l, pools.made ≤ p ∧ p < made) ∧
      loadConf cycle env text pools dccf = (false, ⟨made, l ++ pools.destroyed⟩, dccf)) ∨
    ∃ conf made, (⟨env, text, pools.made⟩ : Load α κ).ctx cycle = some conf ∧ pools.made < made ∧
      loadConf cycle env text pools dccf =
        (true, switchConf conf ⟨made, pools.destroyed⟩ dccf) := by
  unfold loadConf
  split
  · exact .inl ⟨pools.made, [], Nat.le_refl _, by simp, rfl⟩
  · dsimp only
    split
    · refine .inl ⟨pools.made + 1, [pools.made], by omega, ?_, rfl⟩
      intro p hp
      rw [List.mem_singleton] at hp
      omega
    · -- the exits that destroy `temp_pool` and `pool`
      have hfailed : ∀ p ∈ [pools.made, pools.made + 1],
          pools.made ≤ p ∧ p < pools.made + 1 + 1 + env.left := by
        intro p hp
        simp only [List.mem_cons, List.not_mem_nil, or_false] at hp
        omega
      split
      · exact .inl ⟨pools.made + 1 + 1 + env.left, _, by omega, hfailed, rfl⟩
      · next moduleConf hc =>
        split
        · exact .inl ⟨pools.made + 1 + 1 + env.left, _, by omega, hfailed, rfl⟩
        · split
          · exact .inl ⟨pools.made + 1 + 1 + env.left, _, by omega, hfailed, rfl⟩
          · refine .inr ⟨_, pools.made + 1 + 1 + env.left, ?_, by omega, rfl⟩
            unfold Load.ctx
            rw [hc]
            rfl

theorem forall_getElem?_cons {β : Type} {a : β} {l : List β} {P : Nat → β → Prop} :
    (∀ j b, (a :: l)[j]? = some b → P j b) ↔ P 0 a ∧ ∀ j b, l[j]? = some b → P (j + 1) b := by
  constructor
  · intro h
    exact ⟨h 0 a rfl, fun j b hj => h (j + 1) b (by rw [List.getElem?_cons_succ]; exact hj)⟩
  · rintro ⟨h0, h⟩ j b hj
    cases j with
    | zero =>
      rw [List.getElem?_cons_zero, Option.some.injEq] at hj
      exact hj ▸ h0
    | succ j => exact h j b (by rw [List.getElem?_cons_succ] at hj; exact hj)

/-- No `create_conf` fails. -/
theorem createConfs_isSome (createConf : Nat → Option α) (ms : List Module) (i : Nat)
    (moduleConf : List (Option α)) : (createConfs createConf ms i moduleConf).isSome = true ↔
      ∀ j m, ms[j]? = some m → m.creates = true → (createConf (j + i)).isSome = true := by
  induction ms generalizing i moduleConf with
  | nil => simp [createConfs]
  | cons m ms ih =>
    rw [forall_getElem?_cons, Nat.zero_add]
    simp only [Nat.add_assoc, Nat.add_comm 1 i]
    unfold createConfs
    split
    · next hm =>
      cases hc : createConf i with
      | none => simp [hm]
      | some rv =>
        rw [← ih (i + 1) (moduleConf.set m.ctxIndex (some rv))]
        simp
    · next hm => rw [ih, and_iff_right fun h => absurd h hm]

/-- No `init_conf` fails. -/
theorem initConfs_eq_true (initConf : Nat → Bool) (ms : List Module) (i : Nat) :
    initConfs initConf ms i = true ↔
      ∀ j m, ms[j]? = some m → m.inits = true → initConf (j + i) = true := by
  induction ms generalizing i with
  | nil => simp [initConfs]
  | cons m ms ih =>
    rw [forall_getElem?_cons, Nat.zero_add]
    simp only [Nat.add_assoc, Nat.add_comm 1 i]
    unfold initConfs
    split
    · next hm =>
      rw [← ih]
      simp [hm]
    · next hm => rw [ih, and_iff_right fun h => absurd h hm]

/-- Nothing fails in the load of a file that holds `text`. -/
structure LoadEnv.Accepts (cycle : Cycle) (env : LoadEnv α κ) (text : κ) : Prop where
  pool : env.pool = true
  conf : env.conf = true
  moduleConf : env.moduleConf = true
  args : env.args = true
  tempPool : env.tempPool = true
  createConf : ∀ i m, cycle.modules[i]? = some m → m.creates = true →
    (env.createConf i).isSome = true
  parse : env.parse text = true
  initConf : ∀ i m, cycle.modules[i]? = some m → m.inits = true → env.initConf i = true

/-- A load returns `NGX_OK` if nothing fails. -/
theorem loadConf_ok {cycle : Cycle} {env : LoadEnv α κ} {text : κ} {pools : Pools}
    {dccf : Conf α κ δ} :
    (loadConf cycle env text pools dccf).1 = true ↔ env.Accepts cycle text := by
  have hcreate := createConfs_isSome env.createConf cycle.modules 0
    (List.replicate cycle.coreMaxModule none)
  have hinit := initConfs_eq_true env.initConf cycle.modules 0
  simp only [Nat.add_zero] at hcreate hinit
  constructor
  · intro h
    unfold loadConf at h
    split at h
    · cases h
    · next hpool =>
      dsimp only at h
      split at h
      · cases h
      · next halloc =>
        simp only [not_or, Bool.not_eq_false] at hpool halloc
        split at h
        · cases h
        · next moduleConf hc =>
          split at h
          · cases h
          · next hparse =>
            split at h
            · cases h
            · next hi =>
              rw [Bool.not_eq_false] at hparse hi
              exact ⟨hpool, halloc.1, halloc.2.1, halloc.2.2.1, halloc.2.2.2,
                hcreate.mp (by rw [hc]; rfl), hparse, hinit.mp hi⟩
  · intro h
    obtain ⟨moduleConf, hc⟩ := Option.isSome_iff_exists.mp (hcreate.mpr h.createConf)
    unfold loadConf
    simp [h.pool, h.conf, h.moduleConf, h.args, h.tempPool, hc, h.parse, hinit.mpr h.initConf]

/-- **A failed load changes nothing.**  `conf`, `used` and `md5key` are as before. -/
theorem loadConf_error {cycle : Cycle} {env : LoadEnv α κ} {text : κ} {pools : Pools}
    {dccf : Conf α κ δ} (h : (loadConf cycle env text pools dccf).1 = false) :
    (loadConf cycle env text pools dccf).2.2 = dccf := by
  rcases loadConf_cases cycle env text pools dccf with ⟨_, _, -, -, he⟩ | ⟨_, _, -, -, he⟩
  · rw [he]
  · rw [he] at h
    cases h

/-- The slot that `switchConf` fills is the one in use afterwards. -/
theorem switchConf_used (conf : Ctx α κ) (pools : Pools) (dccf : Conf α κ δ) :
    (switchConf conf pools dccf).2.conf (switchConf conf pools dccf).2.used = some conf ∧
      (switchConf conf pools dccf).2.md5key = dccf.md5key := by
  unfold switchConf
  cases dccf.conf dccf.used with
  | none => exact ⟨Function.update_self _ _ _, rfl⟩
  | some old => exact ⟨Function.update_self _ _ _, rfl⟩

/-- From a buffer with nothing in the other slot to one with the new
configuration alone; the superseded pool is destroyed. -/
theorem switchConf_spec (conf : Ctx α κ) (pools : Pools) {dccf : Conf α κ δ}
    {old : Option (Ctx α κ)} (h : dccf.conf = Function.update (fun _ => none) dccf.used old) :
    (switchConf conf pools dccf).2.conf =
        Function.update (fun _ => none) (switchConf conf pools dccf).2.used (some conf) ∧
      (switchConf conf pools dccf).1 =
        ⟨pools.made, (old.map (·.pool)).toList ++ pools.destroyed⟩ := by
  have hused : dccf.conf dccf.used = old := by rw [h, Function.update_self]
  have hflip : ∀ i : Fin 2, i ≠ (if dccf.used ≠ 0 then 0 else 1) → i = dccf.used := by
    intro i hi
    split at hi <;> omega
  unfold switchConf
  rw [hused]
  cases old with
  | none =>
    refine ⟨?_, rfl⟩
    funext i
    by_cases hi : i = (if dccf.used ≠ 0 then 0 else 1)
    · simp only [hi, Function.update_self]
    · simp only [Function.update_of_ne hi]
      rw [hflip i hi, hused]
  | some old =>
    refine ⟨?_, rfl⟩
    funext i
    by_cases hi : i = (if dccf.used ≠ 0 then 0 else 1)
    · simp only [hi, Function.update_self]
    · simp only [Function.update_of_ne hi]
      rw [hflip i hi, Function.update_self]

/-! ## The double buffer over whole runs -/

/-- What every step keeps: the slot in use holds the configuration of the last
successful load and the other one is empty; a superseded pool was destroyed
once, the active one was not, and no pool is destroyed before it is created. -/
structure Inv (cycle : Cycle) (w : World α κ δ) : Prop where
  slots : w.dccf.conf =
    Function.update (fun _ => none) w.dccf.used (w.loads.head?.bind (·.ctx cycle))
  built : ∀ l ∈ w.loads, (l.ctx cycle).isSome
  made : ∀ p ∈ w.pools.destroyed ++ w.loads.map (·.pool), p < w.pools.made
  nodup : (w.loads.map (·.pool)).Nodup
  superseded : ∀ l ∈ w.loads.tail, w.pools.destroyed.count l.pool = 1
  active : ∀ l ∈ w.loads.head?, l.pool ∉ w.pools.destroyed

theorem step_load [DecidableEq δ] {cycle : Cycle} {md5 : κ → δ} {w w' : World α κ δ}
    {env : LoadEnv α κ} (h : w.step cycle md5 (.load env) = some w') :
    ∃ ok error run, w' = w.load cycle env ok error run := by
  simp only [World.step] at h
  split at h <;> cases h
  · exact ⟨_, _, _, rfl⟩
  · exact ⟨_, _, _, rfl⟩

/-- A step that is no load leaves the buffer, the pools and the loads. -/
theorem step_frame [DecidableEq δ] {cycle : Cycle} {md5 : κ → δ} {w w' : World α κ δ}
    {l : Label α κ} (h : w.step cycle md5 l = some w') :
    (∃ env ok error run, l = .load env ∧ w' = w.load cycle env ok error run) ∨
    (w'.dccf.conf = w.dccf.conf ∧ w'.dccf.used = w.dccf.used ∧ w'.pools = w.pools ∧
      w'.loads = w.loads) := by
  cases l with
  | load env =>
    obtain ⟨ok, error, run, hw⟩ := step_load h
    exact .inl ⟨env, ok, error, run, rfl, hw⟩
  | write text =>
    cases h
    exact .inr ⟨rfl, rfl, rfl, rfl⟩
  | init fd =>
    simp only [World.step] at h
    split at h
    · split at h <;> cases h <;> exact .inr ⟨rfl, rfl, rfl, rfl⟩
    · cases h
  | fire exiting fd =>
    simp only [World.step] at h
    split at h
    · split at h <;> cases h <;> exact .inr ⟨rfl, rfl, rfl, rfl⟩
    · cases h
  | compare =>
    simp only [World.step] at h
    split at h
    · split at h <;> cases h <;> exact .inr ⟨rfl, rfl, rfl, rfl⟩
    · cases h
  | md5 ok =>
    simp only [World.step] at h
    split at h <;> cases h <;> exact .inr ⟨rfl, rfl, rfl, rfl⟩
  | record =>
    simp only [World.step] at h
    split at h <;> cases h <;> exact .inr ⟨rfl, rfl, rfl, rfl⟩

section
variable {cycle : Cycle} {w : World α κ δ}

/-- The pool of the configuration in use is that of the last successful load. -/
theorem Inv.active_pool (hw : Inv cycle w) :
    (w.loads.head?.bind (·.ctx cycle)).map (·.pool) = w.loads.head?.map (·.pool) := by
  cases hl : w.loads.head? with
  | none => rfl
  | some l =>
    obtain ⟨conf, hc⟩ := Option.isSome_iff_exists.mp (hw.built l (List.mem_of_mem_head? hl))
    obtain ⟨moduleConf, -, rfl⟩ := Option.map_eq_some_iff.mp hc
    rw [Option.bind_some, hc]
    rfl

theorem Inv.used_pool (hw : Inv cycle w) {conf : Ctx α κ}
    (hc : w.dccf.conf w.dccf.used = some conf) : w.loads.head?.map (·.pool) = some conf.pool := by
  rw [← hw.active_pool]
  rw [hw.slots, Function.update_self] at hc
  rw [hc]
  rfl

/-- When the active pool is destroyed, every earlier pool has been, once. -/
theorem Inv.superseded_cons (hw : Inv cycle w) : ∀ l ∈ w.loads,
    ((w.loads.head?.map (·.pool)).toList ++ w.pools.destroyed).count l.pool = 1 := by
  have hnd := hw.nodup
  have hact := hw.active
  have hsup := hw.superseded
  cases hl : w.loads with
  | nil => simp
  | cons l0 rest =>
    rw [hl, List.map_cons, List.nodup_cons] at hnd
    rw [hl] at hact hsup
    intro l hmem
    have hcount : ((List.head? (l0 :: rest)).map (·.pool)).toList ++ w.pools.destroyed =
        l0.pool :: w.pools.destroyed := rfl
    rw [hcount]
    rcases List.mem_cons.mp hmem with rfl | hmem
    · rw [List.count_cons_self, List.count_eq_zero.mpr (hact l rfl)]
    · have hne : l0.pool ≠ l.pool := fun e => hnd.1 (e ▸ List.mem_map_of_mem hmem)
      rw [List.count_cons_of_ne hne]
      exact hsup l hmem

theorem Inv.load (hw : Inv cycle w) (env : LoadEnv α κ) (ok error : Pc δ)
    (run : Option (List κ)) : Inv cycle (w.load cycle env ok error run) := by
  have hfresh : w.pools.made ∉ w.pools.destroyed ++ w.loads.map (·.pool) := fun hm =>
    Nat.lt_irrefl _ (hw.made _ hm)
  rw [List.mem_append, not_or] at hfresh
  unfold World.load
  rcases loadConf_cases cycle env w.file w.pools w.dccf with
    ⟨made, l, hmade, hl, he⟩ | ⟨conf, made, hconf, hmade, he⟩
  · -- the pools destroyed are new, so no earlier load's
    have hnew : ∀ x ∈ w.loads, x.pool ∉ l := fun x hx hm => by
      have h1 := (hl _ hm).1
      have h2 := hw.made x.pool (List.mem_append_right _ (List.mem_map_of_mem hx))
      omega
    simp only [he, Bool.false_eq_true, if_false]
    refine ⟨hw.slots, hw.built, ?_, hw.nodup, ?_, ?_⟩
    · intro p hp
      rw [List.append_assoc, List.mem_append] at hp
      rcases hp with hp | hp
      · exact (hl p hp).2
      · exact Nat.lt_of_lt_of_le (hw.made p hp) hmade
    · intro x hx
      rw [List.count_append, hw.superseded x hx]
      rw [List.count_eq_zero.mpr (hnew x (List.mem_of_mem_tail hx))]
    · intro x hx hm
      rcases List.mem_append.mp hm with hm | hm
      · exact hnew x (List.mem_of_mem_head? hx) hm
      · exact hw.active x hx hm
  · obtain ⟨hslots, hpools⟩ :=
      switchConf_spec conf ⟨made, w.pools.destroyed⟩ hw.slots
    rw [hw.active_pool] at hpools
    simp only [he, if_true, hpools]
    refine ⟨?_, ?_, ?_, ?_, ?_, ?_⟩
    · rw [hslots, List.head?_cons, Option.bind_some, hconf]
    · intro x hx
      rcases List.mem_cons.mp hx with rfl | hx
      · rw [hconf]; rfl
      · exact hw.built x hx
    · intro p hp
      simp only [List.map_cons, List.mem_append, List.mem_cons, Option.mem_toList] at hp
      have hold : p ∈ w.pools.destroyed ++ w.loads.map (·.pool) → p < made := fun h =>
        Nat.lt_trans (hw.made p h) hmade
      rcases hp with (hp | hp) | rfl | hp
      · obtain ⟨l, hl, rfl⟩ := Option.map_eq_some_iff.mp hp
        exact hold (List.mem_append_right _ (List.mem_map_of_mem (List.mem_of_mem_head? hl)))
      · exact hold (List.mem_append_left _ hp)
      · exact hmade
      · exact hold (List.mem_append_right _ (by simpa using hp))
    · rw [List.map_cons, List.nodup_cons]
      exact ⟨hfresh.2, hw.nodup⟩
    · exact hw.superseded_cons
    · intro x hx hm
      cases hx
      rcases List.mem_append.mp hm with hm | hm
      · rw [Option.mem_toList] at hm
        obtain ⟨l, hl, hp⟩ := Option.map_eq_some_iff.mp hm
        have hmem : l.pool ∈ w.loads.map (·.pool) :=
          List.mem_map_of_mem (List.mem_of_mem_head? hl)
        rw [hp] at hmem
        exact hfresh.2 hmem
      · exact hfresh.1 hm

theorem Inv.step [DecidableEq δ] {md5 : κ → δ} (hw : Inv cycle w) {l : Label α κ}
    {w' : World α κ δ} (h : w.step cycle md5 l = some w') : Inv cycle w' := by
  rcases step_frame h with ⟨env, ok, error, run, -, rfl⟩ | ⟨hconf, hused, hpools, hloads⟩
  · exact hw.load env ok error run
  · refine ⟨?_, ?_, ?_, ?_, ?_, ?_⟩
    · rw [hconf, hused, hloads]; exact hw.slots
    · rw [hloads]; exact hw.built
    · rw [hpools, hloads]; exact hw.made
    · rw [hloads]; exact hw.nodup
    · rw [hpools, hloads]; exact hw.superseded
    · rw [hpools, hloads]; exact hw.active

end

theorem reach_inv [DecidableEq δ] {cycle : Cycle} {md5 : κ → δ} {configured : Bool} {text : κ}
    {w : World α κ δ} (hr : (machine cycle md5 configured text).Reach w) : Inv cycle w := by
  refine hr.invariant ?_ (fun _ _ _ _ hw hst => hw.step hst)
  refine ⟨?_, by simp [machine], by simp [machine], by simp [machine], by simp [machine],
    by simp [machine]⟩
  funext i
  by_cases hi : i = (if configured then 1 else 0) <;> simp [machine]

/-- **The double buffer.**  In every reachable state only the slot in use can
be filled; `ngx_get_dconf` gives every core module the object that the last
successful load built for it; a load that fails leaves `conf`, `used` and
`md5key`; every superseded pool has been destroyed once and the active one not. -/
theorem reach_doubleBuffer [DecidableEq δ] (cycle : Cycle) (md5 : κ → δ) (configured : Bool)
    (text : κ) (w : World α κ δ) (hr : (machine cycle md5 configured text).Reach w) :
    (∀ i conf, w.dccf.conf i = some conf → i = w.dccf.used) ∧
    (∀ i m, cycle.modules[i]? = some m → m.core = true →
      getDconf w.dccf m = w.loads.head?.bind fun l => l.built i m) ∧
    (∀ env file, (loadConf cycle env file w.pools w.dccf).1 = false →
      (loadConf cycle env file w.pools w.dccf).2.2 = w.dccf) ∧
    (∀ l ∈ w.loads.tail, w.pools.destroyed.count l.pool = 1) ∧
    (∀ conf, w.dccf.conf w.dccf.used = some conf →
      w.loads.head?.map (·.pool) = some conf.pool ∧ conf.pool ∉ w.pools.destroyed) := by
  have hw := reach_inv hr
  have hused : w.dccf.conf w.dccf.used = w.loads.head?.bind (·.ctx cycle) := by
    rw [hw.slots, Function.update_self]
  refine ⟨fun i conf hi => ?_, fun i m hi hm => ?_, fun env file h => loadConf_error h,
    hw.superseded, fun conf hc => ?_⟩
  · by_contra hne
    rw [hw.slots, Function.update_of_ne hne] at hi
    cases hi
  · unfold getDconf
    rw [hused]
    cases hl : w.loads.head? with
    | none => rfl
    | some l =>
      obtain ⟨conf, hc⟩ := Option.isSome_iff_exists.mp (hw.built l (List.mem_of_mem_head? hl))
      rw [Option.bind_some, Option.bind_some, hc]
      exact Load.ctx_built hc hi hm
  · refine ⟨hw.used_pool hc, ?_⟩
    obtain ⟨l, hl, hp⟩ := Option.map_eq_some_iff.mp (hw.used_pool hc)
    have hact := hw.active l hl
    rwa [hp] at hact

/-- A cycle with one module that has a dynamic configuration. -/
def someCycle : Cycle where
  modules := [⟨false, 0, none⟩, ⟨true, 0, some ⟨true, true⟩⟩]
  coreMaxModule := 1
  ctxIndex_lt := by decide
  ctxIndex_ne := by decide

/-- A load in which only the parse may fail. -/
def someEnv (parse : Bool) : LoadEnv Nat Nat :=
  ⟨true, true, true, true, true, fun i => some i, fun _ => parse, fun _ => true, 0⟩

/-- A first load, a failed one and a second one. -/
theorem reach_doubleBuffer_reload : ∃ w : World Nat Nat Nat,
    (machine someCycle id true 1).run (machine someCycle id true 1).start
      [.init true, .load (someEnv true), .md5 true, .record,
        .write 2, .fire false true, .md5 true, .compare, .load (someEnv false),
        .fire false true, .md5 true, .compare, .load (someEnv true), .record] = some w ∧
    w.loads.length = 2 ∧ ∀ l ∈ w.loads.tail, w.pools.destroyed.count l.pool = 1 :=
  ⟨_, rfl, rfl, (reach_doubleBuffer someCycle id true 1 _
    ((machine someCycle id true 1).reach_run
      [.init true, .load (someEnv true), .md5 true, .record,
        .write 2, .fire false true, .md5 true, .compare, .load (someEnv false),
        .fire false true, .md5 true, .compare, .load (someEnv true), .record] rfl)).2.2.2.1⟩

end NgxToolkit.DynamicConf
