import Mathlib
import NgxToolkit.DynamicConfCheck
import NgxToolkit.HttpDynamicRoute

/-! Requests while the file is written and loaded again.

A worker loads the file and checks it, a writer replaces it, and requests come between any two
steps.  What the modules are given follows the content of the last load that was accepted.

* `activeHttp`: what `ngx_get_dconf` leads to, for `ngx_http_dynamic_module`.
* `reach_requests`: what a request is given in every state of a run. -/

namespace NgxToolkit.HttpDynamic

open DynamicConf.Parse Lib

variable {ρ α δ : Type} {env : Env ρ} {cycle : Cycle}

/-- The configuration of HTTP that requests are given: what the parse of the active content
has made. -/
def activeHttp (env : Env ρ) (cycle : Cycle) (dccf : DynamicConf.Conf α Bytes δ) :
    Option (Load ρ) :=
  (DynamicConf.activeText dccf).bind (load env cycle)

/-- A load parses the HTTP configuration: it accepts no content that this refuses.  It may
refuse more, as a directive of another module or an allocation can fail. -/
def ParsesHttp (env : Env ρ) (cycle : Cycle) (_ : DynamicConf.World α Bytes δ) :
    DynamicConf.Label α Bytes → Prop
  | .load e => ∀ content, e.parse content = true → (load env cycle content).isSome = true
  | _ => True

section
variable {coreCycle : DynamicConf.Cycle} {md5 : Bytes → δ}
  {w w' : DynamicConf.World α Bytes δ} {label : DynamicConf.Label α Bytes}

theorem activeText_frame (hconf : w'.dccf.conf = w.dccf.conf) (hused : w'.dccf.used = w.dccf.used) :
    DynamicConf.activeText w'.dccf = DynamicConf.activeText w.dccf := by
  unfold DynamicConf.activeText
  rw [hconf, hused]

variable [DecidableEq δ]

/-- **A step and the active content.**  Either the step is a load that was accepted, and the
content is the one it read, or the active content and the accepted loads are as before. -/
theorem step_active (hok : ParsesHttp env cycle w label)
    (h : w.step coreCycle md5 label = some w') :
    (∃ e, label = .load e ∧ (load env cycle w.file).isSome = true ∧
      DynamicConf.activeText w'.dccf = some w.file ∧
      w'.loads = ⟨e, w.file, w.pools.made⟩ :: w.loads) ∨
    (DynamicConf.activeText w'.dccf = DynamicConf.activeText w.dccf ∧ w'.loads = w.loads) := by
  obtain ⟨e, ok, error, run, rfl, rfl⟩ | ⟨hconf, hused, -, hloads⟩ := DynamicConf.step_frame h
  · obtain ⟨hfailed, hdccf, -, -⟩ | ⟨hdone, htext, -, -⟩ :=
      DynamicConf.load_text coreCycle w e ok error run
    · refine .inr ⟨by rw [hdccf], ?_⟩
      unfold DynamicConf.World.load
      dsimp only
      rw [hfailed]
      exact if_neg Bool.false_ne_true
    · refine .inl ⟨e, rfl, hok w.file (DynamicConf.loadConf_ok.mp hdone).parse, htext, ?_⟩
      unfold DynamicConf.World.load
      dsimp only
      rw [hdone]
      exact if_pos rfl
  · exact .inr ⟨activeText_frame hconf hused, hloads⟩

/-- The active content is that of the last accepted load, and its parse accepts it. -/
structure Accepted (env : Env ρ) (cycle : Cycle) (w : DynamicConf.World α Bytes δ) : Prop where
  text : DynamicConf.activeText w.dccf = w.loads.head?.map (·.text)
  parse : ∀ r ∈ w.loads, (load env cycle r.text).isSome = true

theorem Accepted.step (hw : Accepted env cycle w) (hok : ParsesHttp env cycle w label)
    (h : w.step coreCycle md5 label = some w') : Accepted env cycle w' := by
  obtain ⟨e, -, hparse, htext, hloads⟩ | ⟨htext, hloads⟩ := step_active hok h
  · constructor
    · rw [htext, hloads]
      rfl
    · rw [hloads]
      intro r hr
      rcases List.mem_cons.mp hr with rfl | hr
      · exact hparse
      · exact hw.parse r hr
  · exact ⟨by rw [htext, hloads, hw.text], by rw [hloads]; exact hw.parse⟩

theorem reach_accepted {configured : Bool} {text : Bytes}
    (hr : (DynamicConf.machine coreCycle md5 configured text).ReachIf (ParsesHttp env cycle) w) :
    Accepted (α := α) env cycle w := by
  refine hr.invariant ⟨?_, nofun⟩ fun w label w' _ hw hok hstep => hw.step hok hstep
  rfl

end

/-- **Requests over a run.**  Before a load is accepted the modules get `NULL`.  Afterwards
every request gets what the file prescribes that was accepted last, whatever was written to the
file since; and only a load that is accepted changes what requests get. -/
theorem reach_requests [DecidableEq δ] (env : Env ρ) (cycle : Cycle) (hdoc : env.Documented)
    (coreCycle : DynamicConf.Cycle) (md5 : Bytes → δ) (configured : Bool) (text : Bytes)
    (w : DynamicConf.World α Bytes δ)
    (hr : (DynamicConf.machine coreCycle md5 configured text).ReachIf (ParsesHttp env cycle) w) :
    (w.loads = [] → ∀ host uri m, getModuleMainDconf (activeHttp env cycle w.dccf) m = .ok none ∧
      getModuleSrvDconf env cycle (activeHttp env cycle w.dccf) host m = .ok none ∧
      getModuleLocDconf env cycle (activeHttp env cycle w.dccf) host uri m = .ok none) ∧
    (∀ r, w.loads.head? = some r → ∀ items http : Items,
      File items r.text → lastBlock items = some http → blocks http ≠ [] →
      DistinctNames ((plainNames (hostNames env cycle http)).map Prod.fst) → ∀ host m,
      ∃ conf, getModuleSrvDconf env cycle (activeHttp env cycle w.dccf) host m = .ok conf ∧
        match serverFor env cycle http host with
        | some srv => Given env cycle (·.createSrvConf) ⟨.http, .httpSrv⟩
            (loadCalls env cycle r.text) srv m conf
        | none => conf = none) ∧
    ∀ label w', ParsesHttp env cycle w label → w.step coreCycle md5 label = some w' →
      activeHttp env cycle w'.dccf = activeHttp env cycle w.dccf ∨
        ∃ e, label = .load e ∧ (load env cycle w.file).isSome = true ∧
          activeHttp env cycle w'.dccf = load env cycle w.file := by
  have hw := reach_accepted hr
  unfold activeHttp
  refine ⟨?_, ?_, ?_⟩
  · intro hnone host uri m
    rw [hw.text, hnone]
    exact ⟨rfl, rfl, rfl⟩
  · intro r hlast items http hitems hhttp hblocks hdistinct host m
    obtain ⟨l, hl⟩ := Option.isSome_iff_exists.mp (hw.parse r (List.mem_of_mem_head? hlast))
    rw [hw.text, hlast, Option.map_some, Option.bind_some, hl]
    exact srvDconf_given hdoc hl hitems hhttp hblocks hdistinct host m
  · intro label w' hok hstep
    obtain ⟨e, rfl, hparse, htext, -⟩ | ⟨htext, -⟩ := step_active hok hstep
    · exact .inr ⟨e, rfl, hparse, by rw [htext]; rfl⟩
    · exact .inl (by rw [htext])

/-- A load in which only the parse can fail. -/
def reloadEnv : DynamicConf.LoadEnv Unit Bytes :=
  ⟨true, true, true, true, true, fun _ => some (),
    fun content => (load routeEnv routeCycle content).isSome, fun _ => true, 0⟩

/-- `http{server_names_hash_max_size 1;server_names_hash_max_size 1;}` -/
def duplicateFile : Bytes :=
  let setting : Bytes := [115, 101, 114, 118, 101, 114, 95, 110, 97, 109, 101, 115, 95, 104, 97,
    115, 104, 95, 109, 97, 120, 95, 115, 105, 122, 101, 32, 49, 59]
  [104, 116, 116, 112, 123] ++ (setting ++ (setting ++ [125]))

/-- The worker loads `routeFile`; then a file with a duplicate setting is written, which a check
refuses. -/
def reloadRun : List (DynamicConf.Label Unit Bytes) :=
  [.init true, .load reloadEnv, .md5 true, .record, .write duplicateFile, .fire false true,
    .md5 true, .compare, .load reloadEnv]

theorem reloadRun_texts :
    ((DynamicConf.machine DynamicConf.someCycle id true routeFile).run
      (DynamicConf.machine DynamicConf.someCycle id true routeFile).start reloadRun).map
        (fun w => (w.file, w.loads.head?.map (·.text))) = some (duplicateFile, some routeFile) := by
  decide +kernel

theorem reloadRun_ends : ∃ w, (DynamicConf.machine DynamicConf.someCycle id true routeFile).run
    (DynamicConf.machine DynamicConf.someCycle id true routeFile).start reloadRun = some w ∧
    w.file = duplicateFile ∧ w.loads.head?.map (·.text) = some routeFile := by
  obtain ⟨w, hrun, htexts⟩ := Option.map_eq_some_iff.mp reloadRun_texts
  exact ⟨w, hrun, congrArg Prod.fst htexts, congrArg Prod.snd htexts⟩

/-- The host `a` still gets the conf of `routeFile`. -/
theorem reach_requests_refused : ∃ (w : DynamicConf.World Unit Bytes Bytes) (conf : Option Obj),
    (DynamicConf.machine DynamicConf.someCycle id true routeFile).Reach w ∧
    w.file = duplicateFile ∧
    getModuleSrvDconf routeEnv routeCycle (activeHttp routeEnv routeCycle w.dccf) [97] 1 =
      .ok conf ∧
    Given routeEnv routeCycle (·.createSrvConf) ⟨.http, .httpSrv⟩
      (loadCalls routeEnv routeCycle routeFile) routeServer 1 conf := by
  obtain ⟨w, hrun, hfile, hlast⟩ := reloadRun_ends
  have hok : ∀ label ∈ reloadRun, ∀ w : DynamicConf.World Unit Bytes Bytes,
      ParsesHttp routeEnv routeCycle w label := by
    intro label hlabel w
    cases label with
    | load e =>
      have he : e = reloadEnv := by simpa [reloadRun] using hlabel
      rw [he]
      exact fun _ hparse => hparse
    | _ => trivial
  have hr := Machine.ReachIf.of_run .start reloadRun hok hrun
  obtain ⟨r, hr', htext⟩ := Option.map_eq_some_iff.mp hlast
  have hsrv : serverFor routeEnv routeCycle routeHttp [97] = some routeServer := by decide
  obtain ⟨conf, hget, hgiven⟩ := (reach_requests routeEnv routeCycle routeEnv_documented
    DynamicConf.someCycle id true routeFile w hr).2.1 r hr' _ routeHttp
    (htext ▸ routeFile_items) rfl (by decide) routeNames_distinct [97] 1
  rw [hsrv, htext] at hgiven
  exact ⟨w, conf, hr.reach, hfile, hget, hgiven⟩

end NgxToolkit.HttpDynamic
