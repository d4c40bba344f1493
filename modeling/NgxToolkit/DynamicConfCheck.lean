import Mathlib.Tactic.Common
import NgxToolkit.DynamicConfRuns

/-! The periodic md5 check of the dynamic configuration file.

A writer replaces the file between any two reads of the worker.

* `check_upToDate`: a check during which the file kept one loadable content
  leaves that content active, provided the content whose md5 is recorded is
  the one that was loaded.
* `loadThenMd5_stale`: `ngx_dynamic_conf_process_init` takes the md5 after the
  load, so a write between the two is never loaded. -/

namespace NgxToolkit.DynamicConf

open Lib

variable {α κ δ : Type}

/-- The content that the active configuration was parsed from. -/
def activeText (dccf : Conf α κ δ) : Option κ := (dccf.conf dccf.used).map (·.text)

/-- If the file kept one loadable content during the last check, that content is
the active one. -/
def UpToDate (loads : κ → Bool) (w : World α κ δ) : Prop :=
  ∀ run, w.lastRun = some run → ∀ c, loads c = true → (∀ t ∈ run, t = c) →
    activeText w.dccf = some c

/-- Loading is the function `loads` of the content read. -/
def Loads (cycle : Cycle) (loads : κ → Bool) (w : World α κ δ) : Label α κ → Prop
  | .load env => (loadConf cycle env w.file w.pools w.dccf).1 = loads w.file
  | _ => True

/-- The content whose md5 will be recorded with a load is the content that the
load reads, unless it could not be loaded itself. -/
def SameRead (md5 : κ → δ) (loads : κ → Bool) (w : World α κ δ) : Label α κ → Prop
  | .md5 true => w.pc = .initMd5 → loads w.file = true → activeText w.dccf = some w.file
  | .load _ => ∀ md5key, w.pc = .checkLoad md5key → loads w.file = true →
      ∀ c, md5 c = md5key → loads c = true → c = w.file
  | _ => True

/-- Every loadable content with the md5 `md5key` is the active one. -/
def Records (md5 : κ → δ) (loads : κ → Bool) (w : World α κ δ) (md5key : δ) : Prop :=
  ∃ t, activeText w.dccf = some t ∧ ∀ c, md5 c = md5key → loads c = true → c = t

/-- What holds where the worker stands. -/
def PcInv (md5 : κ → δ) (loads : κ → Bool) (w : World α κ δ) : Prop :=
  match w.pc with
  | .start | .initLoad | .failed | .off => w.lastRun = none
  | .initMd5 => w.lastRun = none ∧ ∃ t, activeText w.dccf = some t
  | .initRecord md5key => w.lastRun = none ∧ Records md5 loads w md5key
  | .idle | .exiting =>
    UpToDate loads w ∧ ∃ k, w.dccf.md5key = some k ∧ Records md5 loads w k
  | .checkMd5 =>
    w.lastRun = none ∧ w.file ∈ w.seen ∧ ∃ k, w.dccf.md5key = some k ∧ Records md5 loads w k
  | .checkCompare md5key | .checkLoad md5key =>
    w.lastRun = none ∧ w.file ∈ w.seen ∧ (∃ k, w.dccf.md5key = some k ∧ Records md5 loads w k) ∧
      ∃ c ∈ w.seen, md5 c = md5key
  | .checkRecord md5key =>
    w.lastRun = none ∧ Records md5 loads w md5key ∧ ∃ t ∈ w.seen, activeText w.dccf = some t

theorem upToDate_none {loads : κ → Bool} {w : World α κ δ} (h : w.lastRun = none) :
    UpToDate loads w := by
  intro run hrun
  rw [h] at hrun
  cases hrun

theorem PcInv.upToDate {md5 : κ → δ} {loads : κ → Bool} {w : World α κ δ}
    (hw : PcInv md5 loads w) : UpToDate loads w := by
  unfold PcInv at hw
  split at hw <;> first | exact hw.1 | exact upToDate_none hw | exact upToDate_none hw.1

/-- The load step: it fails and leaves the buffer, or the content it read is active. -/
theorem load_text (cycle : Cycle) (w : World α κ δ) (env : LoadEnv α κ) (ok error : Pc δ)
    (run : Option (List κ)) :
    ((loadConf cycle env w.file w.pools w.dccf).1 = false ∧
      (w.load cycle env ok error run).dccf = w.dccf ∧
      (w.load cycle env ok error run).pc = error ∧
      (w.load cycle env ok error run).lastRun = run) ∨
    ((loadConf cycle env w.file w.pools w.dccf).1 = true ∧
      activeText (w.load cycle env ok error run).dccf = some w.file ∧
      (w.load cycle env ok error run).pc = ok ∧
      (w.load cycle env ok error run).lastRun = w.lastRun) := by
  unfold World.load
  rcases loadConf_cases cycle env w.file w.pools w.dccf with
    ⟨_, _, -, -, he⟩ | ⟨conf, made, hconf, -, he⟩
  · left
    rw [he]
    exact ⟨rfl, rfl, rfl, rfl⟩
  · right
    rw [he]
    refine ⟨rfl, ?_, rfl, rfl⟩
    obtain ⟨moduleConf, -, rfl⟩ := Option.map_eq_some_iff.mp hconf
    show activeText (switchConf _ _ w.dccf).2 = some w.file
    unfold activeText
    rw [(switchConf_used _ _ _).1]
    rfl

section
variable {cycle : Cycle} {md5 : κ → δ} {loads : κ → Bool} {w : World α κ δ}

theorem PcInv.write (hw : PcInv md5 loads w) (text : κ) :
    PcInv md5 loads { w with file := text, seen := text :: w.seen } := by
  unfold PcInv at hw ⊢
  cases hpc : w.pc <;> simp only [hpc] at hw ⊢ <;> first | exact hw | skip
  · exact ⟨hw.1, List.mem_cons_self, hw.2.2⟩
  · obtain ⟨h1, -, h3, c, hc, hk⟩ := hw
    exact ⟨h1, List.mem_cons_self, h3, c, List.mem_cons_of_mem _ hc, hk⟩
  · obtain ⟨h1, -, h3, c, hc, hk⟩ := hw
    exact ⟨h1, List.mem_cons_self, h3, c, List.mem_cons_of_mem _ hc, hk⟩
  · obtain ⟨h1, h2, t, ht, ha⟩ := hw
    exact ⟨h1, h2, t, List.mem_cons_of_mem _ ht, ha⟩

theorem PcInv.load (hw : PcInv md5 loads w) {env : LoadEnv α κ}
    (hloads : Loads cycle loads w (.load env)) (hsame : SameRead md5 loads w (.load env))
    {md5key : δ} (hpc : w.pc = .checkLoad md5key) :
    PcInv md5 loads (w.load cycle env (.checkRecord md5key) .idle (some w.seen)) := by
  unfold PcInv at hw
  simp only [hpc] at hw
  obtain ⟨hlast, hfile, hkey, c, hc, hk⟩ := hw
  have hres : (loadConf cycle env w.file w.pools w.dccf).1 = loads w.file := hloads
  rcases load_text cycle w env (.checkRecord md5key) .idle (some w.seen) with
    ⟨hr, hd, hp, hl⟩ | ⟨hr, ht, hp, hl⟩
  · unfold PcInv
    simp only [hp]
    refine ⟨?_, by rw [hd]; exact hkey.imp fun k h => ⟨h.1, by unfold Records; rw [hd]; exact h.2⟩⟩
    -- a steady content would have been loaded
    intro run hrun d hd' hall
    rw [hl, Option.some.injEq] at hrun
    subst hrun
    rw [hres, hall _ hfile, hd'] at hr
    cases hr
  · unfold PcInv
    simp only [hp]
    refine ⟨hl.trans hlast, ⟨w.file, ht, hsame md5key hpc (hres.symm.trans hr)⟩, w.file, hfile, ht⟩

theorem PcInv.init [DecidableEq δ] (hw : PcInv md5 loads w) {fd : Bool} {w' : World α κ δ}
    (h : w.step cycle md5 (.init fd) = some w') : PcInv md5 loads w' := by
  simp only [World.step] at h
  split at h
  · next hpc =>
    unfold PcInv at hw
    simp only [hpc] at hw
    split at h
    · cases h
      exact hw
    · cases h
      cases fd <;> exact hw
  · cases h

theorem PcInv.fire [DecidableEq δ] (hw : PcInv md5 loads w) {exiting fd : Bool} {w' : World α κ δ}
    (h : w.step cycle md5 (.fire exiting fd) = some w') : PcInv md5 loads w' := by
  simp only [World.step] at h
  split at h
  · next hpc =>
    unfold PcInv at hw
    simp only [hpc] at hw
    split at h
    · cases h
      exact hw
    · cases h
      cases fd with
      | true => exact ⟨rfl, List.mem_cons_self, hw.2⟩
      | false => exact ⟨upToDate_none rfl, hw.2⟩
  · cases h

theorem PcInv.takeMd5 [DecidableEq δ] (hmd5 : Function.Injective md5) (hw : PcInv md5 loads w)
    {ok : Bool} {w' : World α κ δ} (hsame : SameRead md5 loads w (.md5 ok))
    (h : w.step cycle md5 (.md5 ok) = some w') : PcInv md5 loads w' := by
  simp only [World.step] at h
  unfold PcInv at hw
  split at h
  · next hpc =>
    simp only [hpc] at hw
    obtain ⟨hlast, t, ht⟩ := hw
    cases h
    cases ok with
    | false => exact hlast
    | true =>
      refine ⟨hlast, t, ht, fun c hc hcl => ?_⟩
      have hcf : c = w.file := hmd5 hc
      subst hcf
      have hact := hsame hpc hcl
      rw [ht, Option.some.injEq] at hact
      exact hact.symm
  · next hpc =>
    simp only [hpc] at hw
    obtain ⟨hlast, hfile, hkey⟩ := hw
    cases h
    cases ok with
    | false => exact ⟨upToDate_none hlast, hkey⟩
    | true => exact ⟨hlast, hfile, hkey, w.file, hfile, rfl⟩
  · cases h

theorem PcInv.compare [DecidableEq δ] (hw : PcInv md5 loads w) {w' : World α κ δ}
    (h : w.step cycle md5 .compare = some w') : PcInv md5 loads w' := by
  simp only [World.step] at h
  split at h
  · next md5key hpc =>
    unfold PcInv at hw
    simp only [hpc] at hw
    obtain ⟨hlast, hfile, ⟨k, hkey, hrec⟩, c, hc, hk⟩ := hw
    split at h
    · next heq =>
      cases h
      refine ⟨?_, k, hkey, hrec⟩
      -- the recorded md5 is that of the steady content
      intro run hrun d hd hall
      cases hrun
      rw [heq, Option.some.injEq] at hkey
      subst hkey
      obtain ⟨t, ht, hall'⟩ := hrec
      have hcd : md5 d = md5key := by rw [← hall c hc, hk]
      rw [ht, hall' d hcd hd]
    · cases h
      exact ⟨hlast, hfile, ⟨k, hkey, hrec⟩, c, hc, hk⟩
  · cases h

theorem PcInv.record [DecidableEq δ] (hw : PcInv md5 loads w) {w' : World α κ δ}
    (h : w.step cycle md5 .record = some w') : PcInv md5 loads w' := by
  simp only [World.step] at h
  unfold PcInv at hw
  split at h
  · next md5key hpc =>
    simp only [hpc] at hw
    cases h
    exact ⟨upToDate_none hw.1, md5key, rfl, hw.2⟩
  · next md5key hpc =>
    simp only [hpc] at hw
    obtain ⟨hlast, hrec, t, hseen, ht⟩ := hw
    cases h
    refine ⟨?_, md5key, rfl, hrec⟩
    intro run hrun c _ hall
    cases hrun
    exact ht.trans (congrArg some (hall t hseen))
  · cases h

/-- The load when the process starts. -/
theorem PcInv.firstLoad (hw : PcInv md5 loads w) (env : LoadEnv α κ) (hpc : w.pc = .initLoad) :
    PcInv md5 loads (w.load cycle env .initMd5 .failed none) := by
  unfold PcInv at hw
  simp only [hpc] at hw
  unfold PcInv
  rcases load_text cycle w env .initMd5 .failed none with ⟨-, -, hp, hl⟩ | ⟨-, ht, hp, hl⟩
  · simp only [hp]
    exact hl
  · simp only [hp]
    exact ⟨hl.trans hw, w.file, ht⟩

/-- Every step of a run that loads what it took the md5 of keeps the invariant. -/
theorem PcInv.step [DecidableEq δ] (hmd5 : Function.Injective md5) (hw : PcInv md5 loads w)
    {l : Label α κ} {w' : World α κ δ} (hloads : Loads cycle loads w l)
    (hsame : SameRead md5 loads w l) (h : w.step cycle md5 l = some w') : PcInv md5 loads w' := by
  cases l with
  | write text =>
    cases h
    exact hw.write text
  | init fd => exact hw.init h
  | fire exiting fd => exact hw.fire h
  | md5 ok => exact hw.takeMd5 hmd5 hsame h
  | compare => exact hw.compare h
  | load env =>
    simp only [World.step] at h
    split at h
    · next hpc =>
      cases h
      exact hw.firstLoad env hpc
    · next md5key hpc =>
      cases h
      exact hw.load hloads hsame hpc
    · cases h
  | record => exact hw.record h

end

theorem reach_pcInv [DecidableEq δ] {cycle : Cycle} {md5 : κ → δ} {loads : κ → Bool}
    {configured : Bool} {text : κ} {w : World α κ δ} (hmd5 : Function.Injective md5)
    (hr : (machine cycle md5 configured text).ReachIf
      (fun w l => Loads cycle loads w l ∧ SameRead md5 loads w l) w) : PcInv md5 loads w := by
  refine hr.invariant (P := PcInv md5 loads) ?_ fun _ _ _ _ hw hok hst =>
    hw.step hmd5 hok.1 hok.2 hst
  rfl

/-- Once the md5 of a loadable content that is not active is about to be
recorded, the writer makes the next check skip that content. -/
theorem stale_run [DecidableEq δ] (cycle : Cycle) {md5 : κ → δ} {loads : κ → Bool}
    (configured : Bool) (text : κ) {w : World α κ δ} {md5key : δ} {c : κ}
    (hpc : w.pc = .initRecord md5key ∨ w.pc = .checkRecord md5key) (hk : md5 c = md5key)
    (hc : loads c = true) (hact : activeText w.dccf ≠ some c) :
    ∃ w', (machine cycle md5 configured text).run w
        [.record, .write c, .fire false true, .md5 true, .compare] = some w' ∧
      ¬ UpToDate loads w' := by
  have hstale : ∀ w' : World α κ δ, w'.dccf.conf = w.dccf.conf → w'.dccf.used = w.dccf.used →
      w'.lastRun = some [c] → ¬ UpToDate loads w' := by
    intro w' hconf hused hlast hup
    have := hup [c] hlast c hc (by simp)
    unfold activeText at this hact
    rw [hconf, hused] at this
    exact hact this
  refine ⟨{ w with
    file := c, dccf := { w.dccf with md5key := some md5key }, pc := .idle, seen := [c]
    lastRun := some [c] }, ?_, hstale _ rfl rfl rfl⟩
  rcases hpc with hpc | hpc
  · simp [Machine.run, machine, World.step, hpc, hk]
  · simp [Machine.run, machine, World.step, hpc, hk]

/-- **The md5 check.**  In every run in which the content whose md5 is recorded
is the content that was loaded, a check during which the file kept one loadable
content ends with that content active; and a step of such a run that breaks the
condition lets the next check miss a loadable content. -/
theorem check_upToDate [DecidableEq δ] (cycle : Cycle) (md5 : κ → δ)
    (hmd5 : Function.Injective md5) (loads : κ → Bool) (configured : Bool) (text : κ)
    (w : World α κ δ)
    (hr : (machine cycle md5 configured text).ReachIf
      (fun w l => Loads cycle loads w l ∧ SameRead md5 loads w l) w) :
    UpToDate loads w ∧
    ∀ l w', Loads cycle loads w l → ¬ SameRead md5 loads w l → w.step cycle md5 l = some w' →
      ∃ c w'', (machine cycle md5 configured text).run w'
          [.record, .write c, .fire false true, .md5 true, .compare] = some w'' ∧
        ¬ UpToDate loads w'' := by
  refine ⟨(reach_pcInv hmd5 hr).upToDate, fun l w' hl hno hst => ?_⟩
  cases l with
  | md5 ok =>
    cases ok with
    | false => exact absurd trivial hno
    | true =>
      simp only [SameRead, Classical.not_imp] at hno
      obtain ⟨hpc, hfile, hact⟩ := hno
      simp only [World.step, hpc, if_true, Option.some.injEq] at hst
      subst hst
      obtain ⟨w'', h⟩ := stale_run cycle configured text
        (w := { w with pc := .initRecord (md5 w.file) }) (.inl rfl) rfl hfile hact
      exact ⟨w.file, w'', h⟩
  | load env =>
    simp only [SameRead, Classical.not_forall] at hno
    obtain ⟨md5key, hpc, hfile, c, hk, hc, hne⟩ := hno
    simp only [World.step, hpc, Option.some.injEq] at hst
    subst hst
    have hres : (loadConf cycle env w.file w.pools w.dccf).1 = loads w.file := hl
    rcases load_text cycle w env (.checkRecord md5key) .idle (some w.seen) with
      ⟨hr', -, -, -⟩ | ⟨-, ht, hp, -⟩
    · rw [hres, hfile] at hr'
      cases hr'
    · obtain ⟨w'', h⟩ := stale_run cycle configured text
        (.inr hp) hk hc (by rw [ht]; intro he; cases he; exact hne rfl)
      exact ⟨c, w'', h⟩
  | write text => exact absurd trivial hno
  | init fd => exact absurd trivial hno
  | fire exiting fd => exact absurd trivial hno
  | compare => exact absurd trivial hno
  | record => exact absurd trivial hno

/-- The file changes between the first load and its md5: the check that follows
finds the md5 unchanged and the old content stays active. -/
theorem loadThenMd5_stale :
    ¬ ∀ (w : World Nat Nat Nat), (machine someCycle id true 1).ReachIf
      (fun w l => Loads someCycle (fun _ => true) w l) w → UpToDate (fun _ => true) w := by
  intro hall
  have h1 : (machine someCycle (id : Nat → Nat) true 1).ReachIf
      (fun w l => Loads someCycle (fun _ => true) w l) _ :=
    .step (i := .load (someEnv true)) (.step (i := .init true) .start trivial rfl) rfl rfl
  have h2 := h1.of_run [.write 2, .md5 true, .record, .fire false true, .md5 true, .compare]
    (by simp [Loads]) rfl
  have := hall _ h2 [2] rfl 2 rfl (by simp)
  cases this

/-- The content is replaced between two checks: the second one loads it. -/
theorem check_upToDate_replaced : ∃ w : World Nat Nat Nat,
    (machine someCycle id true 1).run (machine someCycle id true 1).start
      [.init true, .load (someEnv true), .md5 true, .record, .write 2, .fire false true,
        .md5 true, .compare, .load (someEnv true), .record] = some w ∧
    w.lastRun = some [2] ∧ UpToDate (fun _ => true) w := by
  have h1 : (machine someCycle (id : Nat → Nat) true 1).ReachIf
      (fun w l => Loads someCycle (fun _ => true) w l ∧ SameRead id (fun _ => true) w l) _ :=
    .step (i := .load (someEnv true)) (.step (i := .init true) .start ⟨trivial, trivial⟩ rfl)
      ⟨rfl, fun k hk => by cases hk⟩ rfl
  have h2 := h1.step (i := Label.md5 true) ⟨trivial, fun _ _ => rfl⟩ rfl
  have h3 := h2.of_run [.record, .write 2, .fire false true] (by simp [Loads, SameRead]) rfl
  have h4 := h3.step (i := Label.md5 true) ⟨trivial, fun hk => by cases hk⟩ rfl
  have h5 := h4.step (i := Label.compare) ⟨trivial, trivial⟩ rfl
  have h6 := h5.step (i := Label.load (someEnv true)) ⟨rfl, fun k hk _ c hc _ => by
    cases hk
    exact hc⟩ rfl
  have h7 := h6.step (i := Label.record) ⟨trivial, trivial⟩ rfl
  exact ⟨_, rfl, rfl,
    (check_upToDate someCycle id Function.injective_id (fun _ => true) true 1 _ h7).1⟩

end NgxToolkit.DynamicConf
