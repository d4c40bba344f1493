import Mathlib
import NgxToolkit.DynamicConfParseRuns
import NgxToolkit.HttpDynamic
import NgxToolkit.HttpLocationNodes

/-! What a load of the dynamic configuration leaves for the requests.

The parser calls the handlers for nested directives in the order of the file
(`parse_outcome`), so that what a load makes is found by going through these: first the
directives in a `location`, which change nothing, then those of a `server`, of an `http`
block, and of the file.

* `load_made`: what an accepted file makes.
* `dconf_safe`: when the lookups follow assigned pointers only.
* `dconf_unsafe_empty`: an accepted file for which they do not. -/

namespace NgxToolkit.HttpDynamic

open DynamicConf DynamicConf.Parse Lib

variable {ρ : Type} {env : Env ρ} {cycle : Cycle}

/-! ## Which handler a directive has -/

/-- The command that a directive gets, by the context. -/
inductive Known (env : Env ρ) (cycle : Cycle) :
    CmdConf → Command (Option Obj) (Option (Load ρ)) → Prop where
  | http : Known env cycle .main (httpCommand env cycle)
  | hash (cmd) (h : cmd ∈ hashCommands env) : Known env cycle .httpMain cmd
  | server : Known env cycle .httpMain (serverCommand cycle)
  | serverName : Known env cycle .httpSrv (serverNameCommand env)
  | location : Known env cycle .httpSrv (locationCommand env cycle)
  | other (p : CmdConf) (name : Bytes) (type : CmdType) :
      Known env cycle p (simpleCommand name { type with block := false } fun _ => some)

theorem known_of_entry {p : Place} {last : Bool} {args : Args}
    {e : Module (Option Obj) (Option (Load ρ)) × Command (Option Obj) (Option (Load ρ))}
    (he : entryOf (cycle.tables env) p last args = some e) : Known env cycle p.cmdType e.2 := by
  have hfind := (Option.filter_eq_some_iff.mp he).1
  have hsuits := List.find?_some hfind
  rw [suits, Bool.and_eq_true, List.contains_iff_mem] at hsuits
  have hcontext := hsuits.2
  obtain ⟨m, hm, he⟩ := List.mem_flatMap.mp (List.mem_of_find?_eq_some hfind)
  obtain ⟨cm, -, rfl⟩ := List.mem_map.mp hm
  obtain ⟨cmd, hcmd, rfl⟩ := List.mem_map.mp he
  generalize p.cmdType = context at hcontext
  cases cm with
  | httpDynamic =>
    obtain rfl := List.mem_singleton.mp hcmd
    obtain rfl := List.mem_singleton.mp hcontext
    exact .http
  | httpDynamicCore =>
    rcases List.mem_append.mp hcmd with hcmd | hcmd
    · obtain ⟨slot, -, rfl⟩ := List.mem_map.mp hcmd
      obtain rfl := List.mem_singleton.mp hcontext
      exact .hash _ hcmd
    · rcases List.mem_cons.mp hcmd with rfl | hcmd
      · obtain rfl := List.mem_singleton.mp hcontext
        exact .server
      rcases List.mem_cons.mp hcmd with rfl | hcmd
      · obtain rfl := List.mem_singleton.mp hcontext
        exact .serverName
      obtain rfl := List.mem_singleton.mp hcmd
      obtain rfl := List.mem_singleton.mp hcontext
      exact .location
  | other type ctxIndex dctx dcommands =>
    obtain ⟨⟨name, type⟩, -, rfl⟩ := List.mem_map.mp hcmd
    exact .other _ name type

theorem other_set (name : Bytes) (type : CmdType) (w : Option (Load ρ)) (args : Args)
    (conf : Option Obj) : (simpleCommand name type fun _ => some).set w args conf = w := by
  cases w <;> rfl

/-- The settings of the hash change their own field only. -/
theorem NumSlot.set_eq {slot : NumSlot ρ} (h : slot ∈ hashSlots) (main : MainConf ρ) (n : Nat) :
    ∃ maxSize bucketSize, slot.set main n = { main with
      serverNamesHashMaxSize := maxSize, serverNamesHashBucketSize := bucketSize } := by
  rcases List.mem_cons.mp h with rfl | h
  · exact ⟨n, _, rfl⟩
  · obtain rfl := List.mem_singleton.mp h
    exact ⟨_, n, rfl⟩

/-- What a setting of the hash does to the main conf. -/
theorem hash_set {cmd : Command (Option Obj) (Option (Load ρ))} (hcmd : cmd ∈ hashCommands env)
    {w : Option (Load ρ)} {args : Args} {conf : Option Obj} {l' : Load ρ}
    (hset : cmd.set w args conf = some l') :
    ∃ l, w = some l ∧ l'.created = l.created ∧ ∀ main, l.mainConf = some main →
      ∃ maxSize bucketSize, l'.mainConf = some { main with
        serverNamesHashMaxSize := maxSize, serverNamesHashBucketSize := bucketSize } := by
  obtain ⟨slot, hslot, rfl⟩ := List.mem_map.mp hcmd
  obtain ⟨l, hw, hwrite⟩ := Option.bind_eq_some_iff.mp hset
  obtain ⟨main, hmain, hwrite⟩ := Option.bind_eq_some_iff.mp hwrite
  split at hwrite
  · cases hwrite
  · obtain ⟨n, -, hwrite⟩ := Option.bind_eq_some_iff.mp hwrite
    cases hwrite
    refine ⟨l, hw, rfl, fun main' hmain' => ?_⟩
    cases hmain.symm.trans hmain'
    obtain ⟨maxSize, bucketSize, heq⟩ := NumSlot.set_eq hslot main n
    exact ⟨maxSize, bucketSize, congrArg some heq⟩

/-- The commands of blocks. -/
theorem Known.block {context : CmdConf} {cmd : Command (Option Obj) (Option (Load ρ))}
    (h : Known env cycle context cmd) (hblock : cmd.type.block = true) :
    context = .main ∧ cmd = httpCommand env cycle ∨
      context = .httpMain ∧ cmd = serverCommand cycle ∨
      context = .httpSrv ∧ cmd = locationCommand env cycle := by
  cases h with
  | http => exact .inl ⟨rfl, rfl⟩
  | hash cmd hcmd =>
    obtain ⟨slot, -, rfl⟩ := List.mem_map.mp hcmd
    cases hblock
  | server => exact .inr (.inl ⟨rfl, rfl⟩)
  | serverName => cases hblock
  | location => exact .inr (.inr ⟨rfl, rfl⟩)
  | other => cases hblock

/-! ## Going through the directives -/

section
variable {p : Place} {ctx : Nat → Option Obj} {w : Option (Load ρ)} {args : Args}
  {body next : Items}
  {e : Module (Option Obj) (Option (Load ρ)) × Command (Option Obj) (Option (Load ρ))}

theorem run_simple (he : entryOf (cycle.tables env) p false args = some e) :
    ((Items.simple args next).run (cycle.tables env) p ctx w).2 =
      (next.run (cycle.tables env) p ctx (e.2.set w args (ctx e.1.ctxIndex))).2 := by
  rw [Items.run, he]

/-- What a block does, all of it. -/
def blockRun (tables : List (Module (Option Obj) (Option (Load ρ)))) (p : Place)
    (cmd : Command (Option Obj) (Option (Load ρ))) (args : Args) (body : Items) (conf : Option Obj)
    (w : Option (Load ρ)) : Option (Load ρ) :=
  let opened := cmd.enter w args conf
  cmd.leave (body.run tables (cmd.inside p args) opened.2 opened.1).2

theorem run_block (he : entryOf (cycle.tables env) p true args = some e) :
    ((Items.block args body next).run (cycle.tables env) p ctx w).2 =
      (next.run (cycle.tables env) p ctx
        (blockRun (cycle.tables env) p e.2 args body (ctx e.1.ctxIndex) w)).2 := by
  rw [Items.run, he]
  rfl

/-- **The rule for a sequence of directives.**  `R items l l'` says what the sequence does
to `l`; it holds if each directive does its part of it.  A load that has failed stays so. -/
theorem run_rule {R : Items → Load ρ → Load ρ → Prop} (hnil : ∀ l, R .nil l l)
    (hsimple : ∀ args next cmd conf w l₁ l', Known env cycle p.cmdType cmd →
      cmd.type.block = false → cmd.set w args conf = some l₁ → R next l₁ l' →
      ∃ l, w = some l ∧ R (.simple args next) l l')
    (hblock : ∀ args body next cmd conf w l₁ l', Known env cycle p.cmdType cmd →
      cmd.type.block = true →
      body.Accepted (IsEntry (cycle.tables env)) (cmd.inside p args) →
      blockRun (cycle.tables env) p cmd args body conf w = some l₁ → R next l₁ l' →
      ∃ l, w = some l ∧ R (.block args body next) l l')
    (items : Items) (haccepted : items.Accepted (IsEntry (cycle.tables env)) p) {l' : Load ρ}
    (h : (items.run (cycle.tables env) p ctx w).2 = some l') : ∃ l, w = some l ∧ R items l l' := by
  induction items generalizing w with
  | nil => exact ⟨l', h, hnil l'⟩
  | simple args next ih =>
    obtain ⟨⟨e, he⟩, hnext⟩ := haccepted
    rw [run_simple he] at h
    obtain ⟨l₁, hset, hR⟩ := ih hnext h
    exact hsimple args next e.2 _ w l₁ l' (known_of_entry he) (entryOf_block he) hset hR
  | block args body next _ ih =>
    obtain ⟨⟨e, he, hbody⟩, hnext⟩ := haccepted
    rw [run_block he] at h
    obtain ⟨l₁, hblk, hR⟩ := ih hnext h
    exact hblock args body next e.2 _ w l₁ l' (known_of_entry he) (entryOf_block he) hbody hblk hR

/-- Directives in a `location` change nothing. -/
theorem run_location (hp : p.cmdType = .httpLoc) (items : Items)
    (haccepted : items.Accepted (IsEntry (cycle.tables env)) p) {l' : Load ρ}
    (h : (items.run (cycle.tables env) p ctx w).2 = some l') : w = some l' := by
  have hrule : ∃ l, w = some l ∧ l = l' := by
    refine run_rule (R := fun _ l l' => l = l') (fun _ => rfl) ?_ ?_ items haccepted h
    · intro args next cmd conf w l₁ l' hknown hblock hset heq
      rw [hp] at hknown
      obtain ⟨⟩ := hknown
      exact ⟨l₁, by rwa [other_set] at hset, heq⟩
    · intro args body next cmd conf w l₁ l' hknown hblock
      rw [hp] at hknown
      obtain ⟨h, -⟩ | ⟨h, -⟩ | ⟨h, -⟩ := hknown.block hblock <;> cases h
  obtain ⟨l, hw, rfl⟩ := hrule
  exact hw

end

/-! ## What is made -/

/-- The confs of the array were created for their modules. -/
def Made (created : List Obj) (confs : Confs) : Prop :=
  ∀ m conf, confs m = some conf → conf ∈ created ∧ conf.module = m

theorem Made.mono {created created' : List Obj} {confs : Confs} (h : Made created confs)
    (hsub : created ⊆ created') : Made created' confs :=
  fun m conf hconf => ⟨hsub (h m conf hconf).1, (h m conf hconf).2⟩

theorem createConfs_made (create : Dctx → Bool) (modules : List CycleModule) (confs : Confs)
    (created : List Obj) (h : Made created confs) :
    created ⊆ (createConfs create modules confs created).2 ∧
      Made (createConfs create modules confs created).2
        (createConfs create modules confs created).1 := by
  induction modules generalizing confs created with
  | nil => exact ⟨fun _ hx => hx, h⟩
  | cons m modules ih =>
    unfold createConfs
    split
    · have hmade : Made (created ++ [⟨m.ctxIndex, created.length⟩])
          (Function.update confs m.ctxIndex (some ⟨m.ctxIndex, created.length⟩)) := by
        intro i conf hconf
        by_cases hi : i = m.ctxIndex
        · rw [hi, Function.update_self] at hconf
          cases hconf
          exact ⟨List.mem_append_right _ (List.mem_singleton_self _), hi.symm⟩
        · rw [Function.update_of_ne hi] at hconf
          obtain ⟨hmem, hmodule⟩ := h i conf hconf
          exact ⟨List.mem_append_left _ hmem, hmodule⟩
      obtain ⟨hsub, hall⟩ := ih _ _ hmade
      exact ⟨fun x hx => hsub (List.mem_append_left _ hx), hall⟩
    · exact ih confs created h

/-- What is not `NULL` stays so. -/
theorem createConfs_ne_none (create : Dctx → Bool) (modules : List CycleModule) (confs : Confs)
    (created : List Obj) (i : Nat)
    (h : confs i ≠ none ∨ ∃ m ∈ modules, m.ctxIndex = i ∧ m.dctx.any create = true) :
    (createConfs create modules confs created).1 i ≠ none := by
  induction modules generalizing confs created with
  | nil =>
    rcases h with h | ⟨m, hm, -⟩
    · exact h
    · cases hm
  | cons m modules ih =>
    unfold createConfs
    split
    · apply ih
      by_cases hi : i = m.ctxIndex
      · left
        rw [hi, Function.update_self]
        nofun
      · rw [Function.update_of_ne hi]
        rcases h with h | ⟨m', hm', hindex, hany⟩
        · exact .inl h
        · rcases List.mem_cons.mp hm' with rfl | hm'
          · exact absurd hindex.symm hi
          · exact .inr ⟨m', hm', hindex, hany⟩
    · next hnot =>
      apply ih
      rcases h with h | ⟨m', hm', hindex, hany⟩
      · exact .inl h
      · rcases List.mem_cons.mp hm' with rfl | hm'
        · exact absurd hany hnot
        · exact .inr ⟨m', hm', hindex, hany⟩

/-- The array that a block creates. -/
theorem created_array (cycle : Cycle) (create : Dctx → Bool) (created : List Obj)
    (hcreate : create ⟨true, true, true⟩ = true) :
    created ⊆ (createConfs create cycle.modules (fun _ => none) created).2 ∧
      Made (createConfs create cycle.modules (fun _ => none) created).2
        (createConfs create cycle.modules (fun _ => none) created).1 ∧
      (createConfs create cycle.modules (fun _ => none) created).1 cycle.core ≠ none := by
  obtain ⟨hsub, hmade⟩ := createConfs_made create cycle.modules (fun _ => none) created nofun
  exact ⟨hsub, hmade, createConfs_ne_none _ _ _ _ _ (.inr ⟨_, cycle.core_mem, rfl, hcreate⟩)⟩

/-- A server whose block is open. -/
structure SrvConf.Open (core : Nat) (created : List Obj) (s : SrvConf ρ) : Prop where
  made : Made created s.srvConf
  own : s.srvConf core ≠ none
  queue : ∃ confs : List (LocConf ρ Confs), s.locations = confs.map LocConf.entry ∧
    ∀ c ∈ confs, Made created c.locConf

/-- A server behind its block: what is found in it was made. -/
structure SrvConf.Done (core : Nat) (created : List Obj) (s : SrvConf ρ) : Prop where
  made : Made created s.srvConf
  own : s.srvConf core ≠ none
  found : ∀ exec uri, ∃ r, findLocation exec uri s.hdclcf = .ok r ∧
    Found (fun c => Made created c.locConf) r

/-- An `http` block that is open. -/
structure MainConf.Open (core : Nat) (created : List Obj) (main : MainConf ρ) : Prop where
  made : Made created main.mainConf
  own : main.mainConf core ≠ none
  servers : ∀ s ∈ main.servers, s.Done core created

/-- An `http` block behind its end. -/
structure MainConf.Done (core : Nat) (created : List Obj) (main : MainConf ρ) : Prop where
  made : Made created main.mainConf
  own : main.mainConf core ≠ none
  names : ∀ host s, main.names host = some s → s.Done core created
  regex : ∀ re s, (re, s) ∈ main.regex → s.Done core created
  default : ∀ s servers, main.servers = s :: servers →
    main.defaultServer = .to s ∧ s.Done core created
  empty : main.servers = [] → main.defaultServer = .unassigned ∧ main.regex = [] ∧
    ∀ host, main.names host = none

section
variable {core : Nat} {created created' : List Obj}

theorem SrvConf.Open.mono {s : SrvConf ρ} (h : s.Open core created) (hsub : created ⊆ created') :
    s.Open core created' where
  made := h.made.mono hsub
  own := h.own
  queue := by
    obtain ⟨confs, hqueue, hall⟩ := h.queue
    exact ⟨confs, hqueue, fun c hc => (hall c hc).mono hsub⟩

theorem SrvConf.Done.mono {s : SrvConf ρ} (h : s.Done core created) (hsub : created ⊆ created') :
    s.Done core created' where
  made := h.made.mono hsub
  own := h.own
  found := fun exec uri => by
    obtain ⟨r, hr, hfound⟩ := h.found exec uri
    exact ⟨r, hr, hfound.1, fun c hc => (hfound.2 c hc).mono hsub⟩

theorem MainConf.Done.mono {main : MainConf ρ} (h : main.Done core created)
    (hsub : created ⊆ created') : main.Done core created' where
  made := h.made.mono hsub
  own := h.own
  names := fun host s hs => (h.names host s hs).mono hsub
  regex := fun re s hs => (h.regex re s hs).mono hsub
  default := fun s servers hs => ⟨(h.default s servers hs).1, (h.default s servers hs).2.mono hsub⟩
  empty := h.empty

end

/-! ## The directives of a server -/

theorem updateServer_eq {f : SrvConf ρ → Option (SrvConf ρ)} {l l' : Load ρ}
    (h : l.updateServer f = some l') : ∃ main servers s s', l.mainConf = some main ∧
      main.servers = servers ++ [s] ∧ f s = some s' ∧
      l' = { l with mainConf := some { main with servers := servers ++ [s'] } } := by
  unfold Load.updateServer at h
  obtain ⟨main, hmain, h⟩ := Option.bind_eq_some_iff.mp h
  obtain ⟨s, hs, h⟩ := Option.bind_eq_some_iff.mp h
  obtain ⟨s', hs', h⟩ := Option.bind_eq_some_iff.mp h
  obtain ⟨servers, hservers⟩ := List.getLast?_eq_some_iff.mp hs
  refine ⟨main, servers, s, s', hmain, hservers, hs', ?_⟩
  rw [hservers, List.dropLast_concat] at h
  exact (Option.some.inj h).symm

/-- The last server, which is open, is changed. -/
def ServerStep (core : Nat) (l l' : Load ρ) : Prop :=
  l.created ⊆ l'.created ∧ ∀ main servers s, l.mainConf = some main →
    main.servers = servers ++ [s] → s.Open core l.created →
    ∃ s', l'.mainConf = some { main with servers := servers ++ [s'] } ∧ s'.Open core l'.created

theorem ServerStep.refl (core : Nat) (l : Load ρ) : ServerStep core l l :=
  ⟨fun _ hx => hx, fun main servers s hmain hservers hs => ⟨s, by rw [hmain, ← hservers], hs⟩⟩

theorem ServerStep.trans {core : Nat} {l l₁ l' : Load ρ} (h : ServerStep core l l₁)
    (h' : ServerStep core l₁ l') : ServerStep core l l' := by
  refine ⟨fun x hx => h'.1 (h.1 hx), ?_⟩
  intro main servers s hmain hservers hs
  obtain ⟨s₁, hmain₁, hs₁⟩ := h.2 main servers s hmain hservers hs
  exact h'.2 { main with servers := servers ++ [s₁] } servers s₁ hmain₁ rfl hs₁

/-- A change of the last server that keeps it open. -/
theorem ServerStep.update {core : Nat} {f : SrvConf ρ → Option (SrvConf ρ)} {l l' : Load ρ}
    (h : l.updateServer f = some l')
    (hf : ∀ s s', f s = some s' → s.Open core l.created → s'.Open core l.created) :
    ServerStep core l l' := by
  obtain ⟨main, servers, s, s', hmain, hservers, hfs, rfl⟩ := updateServer_eq h
  refine ⟨fun _ hx => hx, ?_⟩
  intro main' servers' t hmain' hservers' ht
  cases hmain.symm.trans hmain'
  obtain ⟨rfl, ht'⟩ := List.append_inj' (hservers.symm.trans hservers') rfl
  cases ht'
  exact ⟨s', rfl, hf s s' hfs ht⟩

theorem serverNames_open {core : Nat} {created : List Obj} {args : Args} {s s' : SrvConf ρ}
    (h : serverNames env args s = some s') (hs : s.Open core created) : s'.Open core created := by
  obtain ⟨names, -, rfl⟩ := Option.map_eq_some_iff.mp h
  exact ⟨hs.made, hs.own, hs.queue⟩

theorem predealLocation_locConf {α : Type} {compile : Bytes → Bool → Option ρ}
    {args : List Bytes} {locConf : α} {c : LocConf ρ α}
    (h : predealLocation compile args locConf = some c) : c.locConf = locConf := by
  have hregex (name : Bytes) (caseless : Bool) (h : (compile name caseless).map (fun re =>
      (⟨name, some re, false, false, locConf⟩ : LocConf ρ α)) = some c) :
      c.locConf = locConf := by
    obtain ⟨re, -, rfl⟩ := Option.map_eq_some_iff.mp h
    rfl
  unfold predealLocation at h
  dsimp only at h
  split_ifs at h
  · cases h
    rfl
  · cases h
    rfl
  · exact hregex _ _ h
  · exact hregex _ _ h
  · split at h
    · cases h
      rfl
    · cases h
      rfl
    · exact hregex _ _ h
    · exact hregex _ _ h
    · cases h
      rfl

theorem addLocation_open {core : Nat} {created : List Obj} {args : Args} {confs : Confs}
    {s s' : SrvConf ρ} (hmade : Made created confs)
    (h : ((addLocation env.compile args confs s.locations).map fun locations =>
      { s with locations }) = some s') (hs : s.Open core created) : s'.Open core created := by
  obtain ⟨locations, hlocations, rfl⟩ := Option.map_eq_some_iff.mp h
  obtain ⟨c, hc, rfl⟩ := Option.map_eq_some_iff.mp hlocations
  obtain ⟨queue, hqueue, hall⟩ := hs.queue
  refine ⟨hs.made, hs.own, queue ++ [c], ?_, ?_⟩
  · rw [hqueue, List.map_append, List.map_singleton]
  · intro c' hc'
    rcases List.mem_append.mp hc' with hc' | hc'
    · exact hall c' hc'
    · rw [List.mem_singleton.mp hc']
      rw [predealLocation_locConf hc]
      exact hmade

section
variable {p : Place} {ctx : Nat → Option Obj} {w : Option (Load ρ)} {args : Args}
  {body next : Items} {conf : Option Obj} {l' : Load ρ}

/-- The confs that a block creates, and what is created then. -/
def Load.create (cycle : Cycle) (create : Dctx → Bool) (l : Load ρ) : Confs × Load ρ :=
  let made := createConfs create cycle.modules (fun _ => none) l.created
  (made.1, { l with created := made.2 })

/-- A block goes through its beginning, its directives and its end. -/
theorem blockRun_eq {name : Bytes} {type : CmdType} {create : Dctx → Bool}
    {enter : Args → Confs → Load ρ → Option (Load ρ)} {inside : Place → Place}
    {leave : Load ρ → Option (Load ρ)} {tables : List (Module (Option Obj) (Option (Load ρ)))}
    (h : blockRun tables p (blockCommand cycle name type create enter inside leave) args body conf
      w = some l') :
    ∃ ctx opened l₁, (body.run tables (inside p) ctx opened).2 = some l₁ ∧ leave l₁ = some l' ∧
      ∀ l₀, opened = some l₀ → ∃ l, w = some l ∧
        enter args (l.create cycle create).1 (l.create cycle create).2 = some l₀ := by
  obtain ⟨l₁, hrun, hleave⟩ := Option.bind_eq_some_iff.mp h
  refine ⟨_, _, l₁, hrun, hleave, ?_⟩
  intro l₀ hopened
  cases w with
  | none => cases hopened
  | some l => exact ⟨l, rfl, hopened⟩

/-- **A server's directives** change the server only, and keep it open. -/
theorem run_server (hp : p.cmdType = .httpSrv) (items : Items)
    (haccepted : items.Accepted (IsEntry (cycle.tables env)) p)
    (h : (items.run (cycle.tables env) p ctx w).2 = some l') :
    ∃ l, w = some l ∧ ServerStep cycle.core l l' := by
  refine run_rule (R := fun _ l l' => ServerStep cycle.core l l') (.refl _) ?_ ?_ items haccepted h
  · intro args next cmd conf w l₁ l' hknown hblock hset hnext
    rw [hp] at hknown
    cases hknown with
    | serverName =>
      obtain ⟨l, hw, hupdate⟩ := Option.bind_eq_some_iff.mp hset
      exact ⟨l, hw, (ServerStep.update hupdate fun s s' => serverNames_open).trans hnext⟩
    | location => cases hblock
    | other => exact ⟨l₁, by rwa [other_set] at hset, hnext⟩
  · intro args body next cmd conf w l₁ l' hknown hblock hbody hrun hnext
    rw [hp] at hknown
    obtain ⟨h, -⟩ | ⟨h, -⟩ | ⟨-, rfl⟩ := hknown.block hblock
    · cases h
    · cases h
    obtain ⟨ctx, opened, l₂, hrun, hleave, hopened⟩ := blockRun_eq hrun
    cases hleave
    obtain ⟨l, hw, henter⟩ := hopened _ (run_location rfl body hbody hrun)
    obtain ⟨hsub, hmade, -⟩ := created_array cycle (·.createLocConf) l.created rfl
    refine ⟨l, hw, ServerStep.trans ⟨hsub, ?_⟩ (.trans (.update henter ?_) hnext)⟩
    · intro main servers s hmain hservers hs
      exact ⟨s, by rw [← hservers]; exact hmain, hs.mono hsub⟩
    · intro s s' hs'
      exact addLocation_open hmade hs'

end

/-! ## The servers of an `http` block -/

theorem init_done {core : Nat} {created : List Obj} {s s' : SrvConf ρ} (h : s.init = some s')
    (hs : s.Open core created) : s'.Done core created := by
  obtain ⟨confs, hqueue, hall⟩ := hs.queue
  obtain ⟨tree, htree, rfl⟩ := Option.map_eq_some_iff.mp h
  rw [hqueue] at htree
  refine ⟨hs.made, hs.own, fun exec uri => ?_⟩
  have hfound := findLocation_sound exec uri confs hall htree
  rwa [← hqueue] at hfound

/-- Is there a block among the directives? -/
def hasBlock : Items → Bool
  | .nil => false
  | .simple _ next => hasBlock next
  | .block _ _ _ => true

/-- The open `http` block gets the servers of its directives. -/
def HttpStep (core : Nat) (items : Items) (l l' : Load ρ) : Prop :=
  l.created ⊆ l'.created ∧ ∀ main, l.mainConf = some main → main.Open core l.created →
    ∃ main', l'.mainConf = some main' ∧ main'.Open core l'.created ∧
      (main'.servers ≠ [] ↔ main.servers ≠ [] ∨ hasBlock items = true)

section
variable {p : Place} {ctx : Nat → Option Obj} {w : Option (Load ρ)} {args : Args}
  {body : Items} {conf : Option Obj} {l' : Load ρ}

/-- A `server` block adds a server. -/
theorem run_serverBlock (hbody : body.Accepted (IsEntry (cycle.tables env))
      { p with cmdType := .httpSrv })
    (h : blockRun (cycle.tables env) p (serverCommand cycle) args body conf w = some l') :
    ∃ l, w = some l ∧ l.created ⊆ l'.created ∧ ∀ main, l.mainConf = some main →
      main.Open cycle.core l.created → ∃ s,
        l'.mainConf = some { main with servers := main.servers ++ [s] } ∧
        s.Done cycle.core l'.created := by
  obtain ⟨ctx, opened, l₁, hrun, hleave, hopened⟩ := blockRun_eq h
  obtain ⟨l₀, hl₀, hstep⟩ := run_server rfl body hbody hrun
  obtain ⟨l, hw, henter⟩ := hopened l₀ hl₀
  obtain ⟨hsub, hmade, hown⟩ := created_array cycle (·.createSrvConf) l.created rfl
  obtain ⟨main, hmain, henter⟩ := Option.bind_eq_some_iff.mp henter
  cases henter
  obtain ⟨main₁, servers₁, s₁, s', hmain₁, hservers₁, hinit, rfl⟩ := updateServer_eq hleave
  refine ⟨l, hw, fun x hx => hstep.1 (hsub hx), ?_⟩
  intro main' hmain' hopen
  cases hmain.symm.trans hmain'
  obtain ⟨s, hs, hsopen⟩ := hstep.2 _ main.servers _ rfl rfl ⟨hmade, hown, [], rfl, nofun⟩
  cases hmain₁.symm.trans hs
  obtain ⟨rfl, hs₁⟩ := List.append_inj' hservers₁ rfl
  cases hs₁
  exact ⟨s', rfl, init_done hinit hsopen⟩

/-- **An `http` block's directives** add its servers. -/
theorem run_http (hp : p.cmdType = .httpMain) (items : Items)
    (haccepted : items.Accepted (IsEntry (cycle.tables env)) p)
    (h : (items.run (cycle.tables env) p ctx w).2 = some l') :
    ∃ l, w = some l ∧ HttpStep cycle.core items l l' := by
  refine run_rule (R := HttpStep cycle.core) ?_ ?_ ?_ items haccepted h
  · intro l
    refine ⟨fun _ hx => hx, fun main hmain hopen => ⟨main, hmain, hopen, ?_⟩⟩
    simp [hasBlock]
  · intro args next cmd conf w l₁ l' hknown hblock hset hnext
    rw [hp] at hknown
    cases hknown with
    | hash cmd hcmd =>
      obtain ⟨l, hw, hcreated, hslot⟩ := hash_set hcmd hset
      refine ⟨l, hw, hcreated ▸ hnext.1, fun main hmain hopen => ?_⟩
      obtain ⟨maxSize, bucketSize, hmain₁⟩ := hslot main hmain
      have hopen₁ : MainConf.Open cycle.core l₁.created { main with
          serverNamesHashMaxSize := maxSize, serverNamesHashBucketSize := bucketSize } := by
        rw [hcreated]
        exact ⟨hopen.made, hopen.own, hopen.servers⟩
      obtain ⟨main', hmain', hopen', hservers⟩ := hnext.2 _ hmain₁ hopen₁
      exact ⟨main', hmain', hopen', hservers⟩
    | server => cases hblock
    | other => exact ⟨l₁, by rwa [other_set] at hset, hnext⟩
  · intro args body next cmd conf w l₁ l' hknown hblock hbody hrun hnext
    rw [hp] at hknown
    obtain ⟨h, -⟩ | ⟨-, rfl⟩ | ⟨h, -⟩ := hknown.block hblock
    · cases h
    · obtain ⟨l, hw, hsub, hadd⟩ := run_serverBlock hbody hrun
      refine ⟨l, hw, fun x hx => hnext.1 (hsub hx), ?_⟩
      intro main hmain hopen
      obtain ⟨s, hmain₁, hs⟩ := hadd main hmain hopen
      have hopen₁ : MainConf.Open cycle.core l₁.created
          { main with servers := main.servers ++ [s] } := by
        refine ⟨hopen.made.mono hsub, hopen.own, ?_⟩
        intro t ht
        rcases List.mem_append.mp ht with ht | ht
        · exact (hopen.servers t ht).mono hsub
        · rw [List.mem_singleton.mp ht]
          exact hs
      obtain ⟨main', hmain', hopen', hservers⟩ := hnext.2 _ hmain₁ hopen₁
      refine ⟨main', hmain', hopen', ?_⟩
      simp [hasBlock, hservers]
    · cases h

end

/-! ## The file -/

theorem mem_names {servers : List (SrvConf ρ)} {name : ServerName ρ} {s : SrvConf ρ}
    (h : (name, s) ∈ servers.flatMap fun server =>
      server.serverNames.map fun name => (name, server)) : s ∈ servers := by
  obtain ⟨server, hserver, h⟩ := List.mem_flatMap.mp h
  obtain ⟨_, -, heq⟩ := List.mem_map.mp h
  cases heq
  exact hserver

theorem initVirtualServers_done {core : Nat} {created : List Obj} {main main' : MainConf ρ}
    (h : main.initVirtualServers env = some main') (hopen : main.Open core created) :
    main'.Done core created ∧ main'.servers = main.servers := by
  obtain ⟨find, hfind, rfl⟩ := Option.map_eq_some_iff.mp h
  refine ⟨⟨hopen.made, hopen.own, ?_, ?_, ?_, ?_⟩, rfl⟩
  · intro host s hs
    apply hopen.servers
    split at hfind
    · cases hfind
      cases hs
    · obtain ⟨name, hmem⟩ := env.hash_mem _ _ _ _ hfind host s hs
      obtain ⟨⟨name', server⟩, hname, heq⟩ := List.mem_filterMap.mp hmem
      dsimp only at heq
      split at heq
      · cases heq
      · cases heq
        exact mem_names hname
  · intro re s hs
    apply hopen.servers
    obtain ⟨⟨name, server⟩, hname, heq⟩ := List.mem_filterMap.mp hs
    obtain ⟨_, -, heq⟩ := Option.map_eq_some_iff.mp heq
    cases heq
    exact mem_names hname
  · intro s servers hs
    dsimp only at hs ⊢
    rw [hs]
    exact ⟨rfl, hopen.servers s (by rw [hs]; exact List.mem_cons_self)⟩
  · intro hs
    dsimp only at hs hfind ⊢
    rw [hs] at hfind ⊢
    cases hfind
    exact ⟨rfl, rfl, fun _ => rfl⟩

/-- The directives of the last block, if there is one. -/
def lastBlock : Items → Option Items
  | .nil => none
  | .simple _ next => lastBlock next
  | .block _ body next =>
    match lastBlock next with
    | none => some body
    | some last => some last

/-- The `http` blocks of the file replace each other. -/
def FileStep (core : Nat) (items : Items) (l l' : Load ρ) : Prop :=
  l.created ⊆ l'.created ∧ (lastBlock items = none → l'.mainConf = l.mainConf) ∧
    ∀ body, lastBlock items = some body → ∃ main, l'.mainConf = some main ∧
      main.Done core l'.created ∧ (main.servers ≠ [] ↔ hasBlock body = true)

section
variable {p : Place} {ctx : Nat → Option Obj} {w : Option (Load ρ)} {args : Args}
  {body : Items} {conf : Option Obj} {l' : Load ρ}

/-- An `http` block. -/
theorem run_httpBlock (hbody : body.Accepted (IsEntry (cycle.tables env)) ⟨.http, .httpMain⟩)
    (h : blockRun (cycle.tables env) p (httpCommand env cycle) args body conf w = some l') :
    ∃ l, w = some l ∧ l.created ⊆ l'.created ∧ ∃ main, l'.mainConf = some main ∧
      main.Done cycle.core l'.created ∧ (main.servers ≠ [] ↔ hasBlock body = true) := by
  obtain ⟨ctx, opened, l₁, hrun, hleave, hopened⟩ := blockRun_eq h
  obtain ⟨l₀, hl₀, hstep⟩ := run_http rfl body hbody hrun
  obtain ⟨l, hw, henter⟩ := hopened l₀ hl₀
  obtain ⟨hsub, hmade, hown⟩ := created_array cycle (·.createMainConf) l.created rfl
  cases henter
  obtain ⟨main, hmain, hopen, hservers⟩ := hstep.2 _ rfl ⟨hmade, hown, nofun⟩
  obtain ⟨main₁, hmain₁, hleave⟩ := Option.bind_eq_some_iff.mp hleave
  cases hmain.symm.trans hmain₁
  obtain ⟨main', hinit, hleave⟩ := Option.bind_eq_some_iff.mp hleave
  cases hleave
  obtain ⟨hdone, heq⟩ := initVirtualServers_done hinit ⟨hopen.made, hopen.own, hopen.servers⟩
  refine ⟨l, hw, fun x hx => hstep.1 (hsub hx), main', rfl, hdone, ?_⟩
  rw [heq]
  show main.servers ≠ [] ↔ _
  rw [hservers]
  simp

/-- **The directives of a file** leave its last `http` block. -/
theorem run_file (hp : p.cmdType = .main) (items : Items)
    (haccepted : items.Accepted (IsEntry (cycle.tables env)) p)
    (h : (items.run (cycle.tables env) p ctx w).2 = some l') :
    ∃ l, w = some l ∧ FileStep cycle.core items l l' := by
  refine run_rule (R := FileStep cycle.core) ?_ ?_ ?_ items haccepted h
  · exact fun l => ⟨fun _ hx => hx, fun _ => rfl, nofun⟩
  · intro args next cmd conf w l₁ l' hknown hblock hset hnext
    rw [hp] at hknown
    cases hknown with
    | http => cases hblock
    | other => exact ⟨l₁, by rwa [other_set] at hset, hnext⟩
  · intro args body next cmd conf w l₁ l' hknown hblock hbody hrun hnext
    rw [hp] at hknown
    obtain ⟨-, rfl⟩ | ⟨h, -⟩ | ⟨h, -⟩ := hknown.block hblock
    · obtain ⟨l, hw, hsub, main, hmain, hdone, hservers⟩ := run_httpBlock hbody hrun
      obtain ⟨hsub', hnone, hsome⟩ := hnext
      refine ⟨l, hw, fun x hx => hsub' (hsub hx), ?_, ?_⟩
      · intro hlast
        unfold lastBlock at hlast
        split at hlast <;> cases hlast
      · intro last hlast
        unfold lastBlock at hlast
        cases hnext : lastBlock next with
        | none =>
          rw [hnext] at hlast
          cases hlast
          exact ⟨main, by rw [hnone hnext, hmain], hdone.mono hsub', hservers⟩
        | some last' =>
          rw [hnext] at hlast
          cases hlast
          exact hsome _ hnext
    · cases h
    · cases h

end

/-- **What an accepted file makes.** -/
theorem load_made {content : Bytes} {l : Load ρ} (h : load env cycle content = some l) :
    ∃ items : Items, Delivers (readToken content) .opened (items.tokens ++ [.fileDone]) ∧
      FileStep cycle.core items ⟨[], none⟩ l := by
  obtain ⟨ts, hts, hlen⟩ := readToken_delivers content
  obtain ⟨rc, cf, hparse, houtcome⟩ :=
    parse_outcome (cycle.tables env) (content.length + 1) true startCf hts hlen
  unfold load at h
  rw [hparse] at h
  cases houtcome with
  | ok items rest file heq haccepted hrest =>
    have hnil := hts.last_eq_nil heq rfl
    subst hnil
    obtain ⟨l₀, hl₀, hstep⟩ := run_file rfl items haccepted h
    cases hl₀
    exact ⟨items, heq ▸ hts, hstep⟩
  | error => cases h

/-! ## The lookups -/

/-- Does the last `http` block of the file have a server? -/
def LastHttpServes (content : Bytes) : Prop :=
  ∃ items body : Items, Delivers (readToken content) .opened (items.tokens ++ [.fileDone]) ∧
    lastBlock items = some body ∧ hasBlock body = true

/-- A lookup follows assigned pointers only, and returns `NULL` or a conf that was created
for the module. -/
def Safe (created : List Obj) (m : Nat) (r : Except Fault (Option Obj)) : Prop :=
  ∃ conf, r = .ok conf ∧ ∀ o, conf = some o → o ∈ created ∧ o.module = m

section
variable {core : Nat} {created : List Obj} {main : MainConf ρ}

theorem findVirtualServer_done (env : Env ρ) (hdone : main.Done core created) (host : Bytes) :
    (∃ s, findVirtualServer env main host = (.ok, .to s) ∧ s.Done core created) ∨
      findVirtualServer env main host = (.declined, .unassigned) ∨
      findVirtualServer env main host = (.error, .unassigned) := by
  have hgo (names : List (ρ × SrvConf ρ)) (h : ∀ re s, (re, s) ∈ names → s.Done core created) :
      (∃ s, findVirtualServer.go env host names = (.ok, .to s) ∧ s.Done core created) ∨
        findVirtualServer.go env host names = (.declined, .unassigned) ∨
        findVirtualServer.go env host names = (.error, .unassigned) := by
    induction names with
    | nil => exact .inr (.inl rfl)
    | cons name names ih =>
      obtain ⟨re, s⟩ := name
      unfold findVirtualServer.go
      cases env.exec re host with
      | noMatch => exact ih fun re s hs => h re s (List.mem_cons_of_mem _ hs)
      | matched => exact .inl ⟨s, rfl, h re s List.mem_cons_self⟩
      | failed => exact .inr (.inr rfl)
  unfold findVirtualServer
  cases hnames : main.names host with
  | some s => exact .inl ⟨s, rfl, hdone.names host s hnames⟩
  | none =>
    dsimp only
    split
    · exact .inr (.inl rfl)
    · exact hgo main.regex hdone.regex

/-- With a server there is always one to look in. -/
theorem followSrvConf_done (env : Env ρ) {l : Load ρ} (hmain : l.mainConf = some main)
    (hdone : main.Done cycle.core l.created) (hservers : main.servers ≠ []) (host : Bytes) :
    ∃ s, followSrvConf env cycle (some l) host = .ok s ∧
      ∀ s', s = some s' → s'.Done cycle.core l.created := by
  unfold followSrvConf followMainConf
  dsimp only
  rw [hmain]
  dsimp only
  rw [if_neg hdone.own]
  obtain ⟨s, hfind, hs⟩ | hfind | hfind := findVirtualServer_done env hdone host
  · rw [hfind]
    refine ⟨some s, rfl, ?_⟩
    rintro _ ⟨⟩
    exact hs
  · rw [hfind]
    obtain ⟨s, servers, heq⟩ := List.exists_cons_of_ne_nil hservers
    obtain ⟨hdefault, hs⟩ := hdone.default s servers heq
    dsimp only
    rw [hdefault]
    refine ⟨some s, rfl, ?_⟩
    rintro _ ⟨⟩
    exact hs
  · rw [hfind]
    exact ⟨none, rfl, nofun⟩

/-- The lookup of a location's conf, once there is a server to look in. -/
theorem getModuleLocDconf_done {l : Load ρ} {host : Bytes} {s : Option (SrvConf ρ)}
    (hsrv : followSrvConf env cycle (some l) host = .ok s)
    (hs : ∀ s', s = some s' → s'.Done cycle.core l.created) (uri : Bytes) (m : Nat) :
    Safe l.created m (getModuleLocDconf env cycle (some l) host uri m) := by
  unfold getModuleLocDconf
  rw [hsrv]
  cases s with
  | none => exact ⟨none, rfl, nofun⟩
  | some s =>
    have hdone := hs s rfl
    obtain ⟨⟨rc, hdclcf⟩, hlocation, hfound⟩ := hdone.found env.exec uri
    dsimp only
    rw [if_neg hdone.own, hlocation]
    have hmade : ∀ conf, hdclcf.bind (·.locConf m) = some conf →
        conf ∈ l.created ∧ conf.module = m := by
      intro conf hconf
      obtain ⟨c, rfl, hconf⟩ := Option.bind_eq_some_iff.mp hconf
      exact hfound.2 c rfl m conf hconf
    cases rc with
    | error => exact ⟨none, rfl, nofun⟩
    | ok => exact ⟨_, rfl, hmade⟩
    | again => exact ⟨_, rfl, hmade⟩
    | declined => exact ⟨_, rfl, hmade⟩

/-- Without a server the one for other hosts was never assigned. -/
theorem followSrvConf_empty {l : Load ρ} (hmain : l.mainConf = some main)
    (hdone : main.Done cycle.core l.created) (hservers : main.servers = []) (host : Bytes) :
    followSrvConf env cycle (some l) host = .error .unassigned := by
  obtain ⟨hdefault, hregex, hnames⟩ := hdone.empty hservers
  have hfind : findVirtualServer env main host = (.declined, .unassigned) := by
    unfold findVirtualServer
    rw [hnames host, hregex]
    dsimp only
    split <;> rfl
  unfold followSrvConf followMainConf
  dsimp only
  rw [hmain]
  dsimp only
  rw [if_neg hdone.own, hfind]
  dsimp only
  rw [hdefault]
  rfl

end

/-- The module of this file and its core, and a hash that is a list. -/
def someCycle : Cycle where
  modules := [.httpDynamic 0, .httpDynamicCore 0]
  core := 0
  core_mem := List.mem_cons_of_mem _ (List.mem_singleton_self _)
  ctxIndex_ne := by
    refine List.pairwise_pair.mpr ?_
    rintro ⟨⟩

def someEnv : Env Unit where
  compile := fun _ _ => some ()
  exec := fun _ _ => .noMatch
  hostname := []
  atoi := decimal
  cachelineSize := 64
  hashInit := fun _ _ keys => some fun host => (keys.find? (·.1 == host)).map (·.2)
  hash_mem := by
    rintro maxSize bucketSize keys _ ⟨⟩ host server h
    obtain ⟨key, hkey, rfl⟩ := Option.map_eq_some_iff.mp h
    exact ⟨key.1, List.mem_of_find?_eq_some hkey⟩

/-- `http{server{}}` -/
def oneServer : Bytes := [104, 116, 116, 112, 123, 115, 101, 114, 118, 101, 114, 123, 125, 125]

/-- **The lookups are safe** for every request if and only if the last `http` block of the
file has a server. -/
theorem dconf_safe (env : Env ρ) (cycle : Cycle) (content : Bytes) {l : Load ρ}
    (h : load env cycle content = some l) :
    (∀ (host uri : Bytes), ∀ m ∈ cycle.modules, m.type = .http →
      Safe l.created m.ctxIndex (getModuleMainDconf (some l) m.ctxIndex) ∧
      Safe l.created m.ctxIndex (getModuleSrvDconf env cycle (some l) host m.ctxIndex) ∧
      Safe l.created m.ctxIndex (getModuleLocDconf env cycle (some l) host uri m.ctxIndex)) ↔
    LastHttpServes content := by
  obtain ⟨items, hdelivers, hsub, hnone, hsome⟩ := load_made h
  constructor
  · intro hsafe
    obtain ⟨⟨main, hget, -⟩, ⟨srv, hsrv, -⟩, -⟩ := hsafe [] [] _ cycle.core_mem rfl
    cases hlast : lastBlock items with
    | none =>
      unfold getModuleMainDconf followMainConf at hget
      dsimp only at hget
      rw [hnone hlast] at hget
      cases hget
    | some body =>
      obtain ⟨main, hmain, hdone, hservers⟩ := hsome body hlast
      refine ⟨items, body, hdelivers, hlast, hservers.mp ?_⟩
      intro hempty
      unfold getModuleSrvDconf at hsrv
      rw [followSrvConf_empty hmain hdone hempty] at hsrv
      cases hsrv
  · rintro ⟨items', body, hdelivers', hlast, hblock⟩ host uri m - -
    obtain ⟨rfl, -⟩ := Items.tokens_inj true (hdelivers.unique hdelivers')
    obtain ⟨main, hmain, hdone, hservers⟩ := hsome body hlast
    have hfollow : followMainConf (some l) = .ok (some main) := by
      unfold followMainConf
      dsimp only
      rw [hmain]
    obtain ⟨s, hsrv, hs⟩ := followSrvConf_done env hmain hdone (hservers.mpr hblock) host
    refine ⟨⟨main.mainConf m.ctxIndex, ?_, hdone.made m.ctxIndex⟩,
      ⟨s.bind (·.srvConf m.ctxIndex), ?_, ?_⟩, ?_⟩
    · unfold getModuleMainDconf
      rw [hfollow]
      rfl
    · unfold getModuleSrvDconf
      rw [hsrv]
      rfl
    · intro conf hconf
      obtain ⟨s', rfl, hconf⟩ := Option.bind_eq_some_iff.mp hconf
      exact (hs s' rfl).made m.ctxIndex conf hconf
    · exact getModuleLocDconf_done hsrv hs uri m.ctxIndex

/-- **`http{server{}}`**: every lookup answers. -/
theorem dconf_safe_server : ∃ l, load someEnv someCycle oneServer = some l ∧
    ∀ (host uri : Bytes), ∀ m ∈ someCycle.modules, m.type = .http →
      Safe l.created m.ctxIndex (getModuleMainDconf (some l) m.ctxIndex) ∧
      Safe l.created m.ctxIndex (getModuleSrvDconf someEnv someCycle (some l) host m.ctxIndex) ∧
      Safe l.created m.ctxIndex
        (getModuleLocDconf someEnv someCycle (some l) host uri m.ctxIndex) := by
  have haccepted : (load someEnv someCycle oneServer).isSome = true := by decide
  obtain ⟨l, hload⟩ := Option.isSome_iff_exists.mp haccepted
  refine ⟨l, hload, (dconf_safe someEnv someCycle oneServer hload).mpr ?_⟩
  have hdelivers : Delivers (readToken oneServer) .opened
      [.blockStart [[104, 116, 116, 112]], .blockStart [[115, 101, 114, 118, 101, 114]],
        .blockDone, .blockDone, .fileDone] :=
    .next rfl rfl (.next rfl rfl (.next rfl rfl (.next rfl rfl (.last rfl rfl))))
  exact ⟨.block _ (.block _ .nil .nil) .nil, _, hdelivers, rfl, rfl⟩

/-- The empty file is accepted, and `main_conf` is followed as `NULL`; so is `http{}`, where
the server for other hosts was never assigned. -/
theorem dconf_unsafe_empty :
    (∃ l, load someEnv someCycle [] = some l ∧ getModuleMainDconf (some l) 0 = .error .null) ∧
    ∃ l, load someEnv someCycle [104, 116, 116, 112, 123, 125] = some l ∧
      getModuleSrvDconf someEnv someCycle (some l) [] 0 = .error .unassigned := by
  exact ⟨⟨_, rfl, rfl⟩, ⟨_, rfl, rfl⟩⟩

end NgxToolkit.HttpDynamic
