import Mathlib
import NgxToolkit.DynamicConfFile
import NgxToolkit.HttpDynamicCalls
import NgxToolkit.HttpLocationRuns

/-! What a load makes of the blocks of its file.

Every `server` block makes a server with the names that its directives give it and with the
locations of its `location` blocks, in their order, and every block makes an array of confs
for which the handlers of its own directives are called.  The last `http` block of the file is
the one that stays.

* `Delivered`: an array has the confs of a block.
* `SrvConf.Serves`, `MainConf.Serves`: a server is that of a block, and so are all servers.
* `load_serves`: what a load leaves of the last `http` block. -/

namespace NgxToolkit.HttpDynamic

open DynamicConf DynamicConf.Parse

variable {ρ : Type} {env : Env ρ} {cycle : Cycle}

/-! ## What is in a block -/

/-- The blocks among the directives, with their arguments. -/
def blocks : Items → List (Args × Items)
  | .nil => []
  | .simple _ next => blocks next
  | .block args body next => (args, body) :: blocks next

/-- Is the entry one of `ngx_http_dynamic_core_module`? -/
def Cycle.isCore (cycle : Cycle) (m : Module (Option Obj) (Option (Load ρ))) : Bool :=
  m.type == .http && cycle.modules.any fun cm =>
    match cm with
    | .httpDynamicCore ctxIndex => ctxIndex == m.ctxIndex
    | _ => false

/-- The names that the directives of a server give it. -/
def namesIn (env : Env ρ) (cycle : Cycle) (p : Place) : Items → List (ServerName ρ)
  | .nil => []
  | .simple args next =>
    if (entryOf (cycle.tables env) p false args).any fun e => cycle.isCore e.1 then
      args.tail.filterMap (serverName env) ++ namesIn env cycle p next
    else namesIn env cycle p next
  | .block _ _ next => namesIn env cycle p next

/-! ## The commands in a server -/

theorem entry_mem {p : Place} {last : Bool} {args : Args}
    {e : Module (Option Obj) (Option (Load ρ)) × Command (Option Obj) (Option (Load ρ))}
    (he : entryOf (cycle.tables env) p last args = some e) :
    ∃ cm ∈ cycle.modules, e.1 = ⟨cm.type, cm.ctxIndex, cm.commands env cycle⟩ ∧
      e.2 ∈ cm.commands env cycle ∧ p.cmdType ∈ e.2.type.contexts := by
  have hfind := (Option.filter_eq_some_iff.mp he).1
  have hsuits := List.find?_some hfind
  rw [suits, Bool.and_eq_true, List.contains_iff_mem] at hsuits
  obtain ⟨m, hm, hmem⟩ := List.mem_flatMap.mp (List.mem_of_find?_eq_some hfind)
  obtain ⟨cm, hcm, rfl⟩ := List.mem_map.mp hm
  obtain ⟨cmd, hcmd, rfl⟩ := List.mem_map.mp hmem
  exact ⟨cm, hcm, rfl, hcmd, hsuits.2⟩

/-- The core module shares its index with no other HTTP module. -/
theorem Cycle.isCore_other {cm : CycleModule} (hcm : cm ∈ cycle.modules)
    (hnot : ∀ i, cm ≠ .httpDynamicCore i)
    {commands : List (Command (Option Obj) (Option (Load ρ)))} :
    cycle.isCore ⟨cm.type, cm.ctxIndex, commands⟩ = false := by
  rw [← Bool.not_eq_true]
  intro h
  rw [Cycle.isCore, Bool.and_eq_true, beq_iff_eq, List.any_eq_true] at h
  obtain ⟨htype, cm', hcm', h⟩ := h
  cases cm' with
  | httpDynamicCore i =>
    rw [beq_iff_eq] at h
    have hne : CycleModule.httpDynamicCore i ≠ cm := fun heq => hnot i heq.symm
    have hsymm : Std.Symm fun m m' : CycleModule =>
        m.type = .http → m'.type = .http → m.ctxIndex ≠ m'.ctxIndex :=
      ⟨fun _ _ hapart htype htype' => (hapart htype' htype).symm⟩
    exact cycle.ctxIndex_ne.forall hcm' hcm hne rfl htype h
  | httpDynamic i => cases h
  | other => cases h

/-- A simple directive in a server is `server_name`, or changes nothing that is modelled. -/
theorem srv_entry {p : Place} (hp : p.cmdType = .httpSrv) {args : Args}
    {e : Module (Option Obj) (Option (Load ρ)) × Command (Option Obj) (Option (Load ρ))}
    (he : entryOf (cycle.tables env) p false args = some e) :
    (cycle.isCore e.1 = true ∧ e.2 = serverNameCommand env) ∨
      cycle.isCore e.1 = false ∧ ∃ name type, e.2 = simpleCommand name type fun _ => some := by
  have hblock := entryOf_block he
  obtain ⟨cm, hcm, hmodule, hcmd, hcontext⟩ := entry_mem he
  rw [hp] at hcontext
  rw [hmodule]
  cases cm with
  | httpDynamic i =>
    rw [List.mem_singleton.mp hcmd] at hblock
    cases hblock
  | httpDynamicCore i =>
    have hcore : cycle.isCore (ρ := ρ) ⟨.http, i, CycleModule.commands env cycle
        (.httpDynamicCore i)⟩ = true := by
      rw [Cycle.isCore, Bool.and_eq_true, List.any_eq_true]
      exact ⟨rfl, _, hcm, beq_self_eq_true i⟩
    refine .inl ⟨hcore, ?_⟩
    rcases List.mem_append.mp hcmd with hcmd | hcmd
    · obtain ⟨slot, -, heq⟩ := List.mem_map.mp hcmd
      rw [← heq] at hcontext
      cases List.mem_singleton.mp hcontext
    rcases List.mem_cons.mp hcmd with heq | hcmd
    · rw [heq] at hblock
      cases hblock
    rcases List.mem_cons.mp hcmd with heq | hcmd
    · exact heq
    · rw [List.mem_singleton.mp hcmd] at hblock
      cases hblock
  | other type i dctx dcommands =>
    refine .inr ⟨Cycle.isCore_other hcm nofun, ?_⟩
    obtain ⟨⟨name, type⟩, -, heq⟩ := List.mem_map.mp hcmd
    exact ⟨name, _, heq.symm⟩

/-! ## Arrays and their directives -/

/-- The array was made for the block, and the handlers were called with its confs for the
directives of the block. -/
structure Delivered (env : Env ρ) (cycle : Cycle) (create : Dctx → Bool) (p : Place)
    (calls : List (Call (Option Obj) (Option (Load ρ)))) (a b : Nat) (body : Items)
    (confs : Confs) : Prop where
  fresh : Fresh cycle create a b confs
  called : ∀ m o, confs m = some o →
    callsFor o calls = directivesFor (cycle.tables env) p m body

section
variable {create : Dctx → Bool} {p : Place} {a b a' b' : Nat} {body : Items} {confs : Confs}
  {calls pre post : List (Call (Option Obj) (Option (Load ρ)))}

theorem Fresh.mono (h : Fresh cycle create a b confs) (ha : a' ≤ a) (hb : b ≤ b') :
    Fresh cycle create a' b' confs := by
  refine ⟨h.isSome, fun m o ho => ?_⟩
  obtain ⟨hmodule, hle, hlt⟩ := h.made m o ho
  exact ⟨hmodule, by omega, by omega⟩

theorem Delivered.mono (h : Delivered env cycle create p calls a b body confs) (ha : a' ≤ a)
    (hb : b ≤ b') : Delivered env cycle create p calls a' b' body confs :=
  ⟨h.fresh.mono ha hb, h.called⟩

/-- The calls for the rest of the file are for other confs. -/
theorem Delivered.around (h : Delivered env cycle create p calls a b body confs)
    (hpre : Quiet a b pre) (hpost : Quiet a b post) :
    Delivered env cycle create p (pre ++ (calls ++ post)) a b body confs := by
  refine ⟨h.fresh, fun m o ho => ?_⟩
  obtain ⟨-, hle, hlt⟩ := h.fresh.made m o ho
  rw [callsFor_append, callsFor_append, hpre.callsFor hle hlt, hpost.callsFor hle hlt,
    List.nil_append, List.append_nil, h.called m o ho]

theorem Quiet.mono (h : Quiet a b calls) (ha : a ≤ a') (hb : b' ≤ b) : Quiet a' b' calls :=
  fun c hc o ho hrange => h c hc o ho ⟨by omega, by omega⟩

/-- Calls with confs from elsewhere. -/
theorem quiet_range {n n' : Nat} (h : ∀ c ∈ calls, ∀ o, c.conf = some o →
    n ≤ o.serial ∧ o.serial < n') (hn : n' ≤ a ∨ b ≤ n) : Quiet a b calls := by
  rintro c hc o ho ⟨hle, hlt⟩
  have hrange := h c hc o ho
  omega

theorem quiet_single {n : Nat} {ctx : Nat → Option Obj} (hctx : Old n ctx) (hn : n ≤ a)
    (e : Module (Option Obj) (Option (Load ρ)) × Command (Option Obj) (Option (Load ρ)))
    (args : Args) (i : Nat) : Quiet a b [⟨e, args, ctx i⟩] := by
  rintro c hc o ho ⟨hle, -⟩
  rw [List.mem_singleton.mp hc] at ho
  have hlt := (hctx i o ho).2
  omega

end

/-! ## Going through the directives and their calls -/

section
variable {p : Place} {ctx : Nat → Option Obj} {w : Option (Load ρ)} {l' : Load ρ}

/-- **The rule for a sequence of directives and the calls for it.** -/
theorem run_rule_calls
    {R : Items → List (Call (Option Obj) (Option (Load ρ))) → Load ρ → Load ρ → Prop}
    (hnil : ∀ l, R .nil [] l l)
    (hsimple : ∀ args next e w l₁ l' calls, entryOf (cycle.tables env) p false args = some e →
      e.2.set w args (ctx e.1.ctxIndex) = some l₁ → R next calls l₁ l' →
      ∃ l, w = some l ∧ R (.simple args next) (⟨e, args, ctx e.1.ctxIndex⟩ :: calls) l l')
    (hblock : ∀ args body next e w l₁ l' calls, entryOf (cycle.tables env) p true args = some e →
      body.Accepted (IsEntry (cycle.tables env)) (e.2.inside p args) →
      blockRun (cycle.tables env) p e.2 args body (ctx e.1.ctxIndex) w = some l₁ →
      l₁.created.length ≤ l'.created.length →
      (Old l₁.created.length ctx →
        Called env cycle p ctx l₁.created.length l'.created.length next calls) →
      R next calls l₁ l' →
      ∃ l, w = some l ∧ R (.block args body next) ([⟨e, args, ctx e.1.ctxIndex⟩] ++
        (blockCalls (cycle.tables env) p e.2 args body (ctx e.1.ctxIndex) w ++ calls)) l l')
    (items : Items) (haccepted : items.Accepted (IsEntry (cycle.tables env)) p)
    (h : (items.run (cycle.tables env) p ctx w).2 = some l') :
    ∃ l, w = some l ∧ R items (items.run (cycle.tables env) p ctx w).1 l l' := by
  induction items generalizing w with
  | nil => exact ⟨l', h, hnil l'⟩
  | simple args next ih =>
    obtain ⟨⟨e, he⟩, hnext⟩ := haccepted
    rw [run_simple he] at h
    rw [run_simple_calls he]
    obtain ⟨l₁, hset, hR⟩ := ih hnext h
    exact hsimple args next e w l₁ l' _ he hset hR
  | block args body next _ ih =>
    obtain ⟨⟨e, he, hbody⟩, hnext⟩ := haccepted
    rw [run_block he] at h
    rw [run_block_calls he]
    obtain ⟨l₁, hrun, hR⟩ := ih hnext h
    obtain ⟨l₂, hl₂, hlen, hcalled⟩ := run_called next hnext h
    cases hrun.symm.trans hl₂
    exact hblock args body next e w l₁ l' _ he hbody hrun hlen hcalled hR

end

/-! ## The directives of a server -/

/-- What a `location` block has made: the arguments are those of the block, they are a
location's, and the array is that of the block. -/
structure LocMade (env : Env ρ) (cycle : Cycle)
    (calls : List (Call (Option Obj) (Option (Load ρ)))) (a b : Nat) (d : Args × Items)
    (made : Args × Confs) : Prop where
  args : made.1 = d.1
  accepted : (predealLocation env.compile made.1 made.2).isSome = true
  confs : Delivered env cycle (·.createLocConf) ⟨.http, .httpLoc⟩ calls a b d.2 made.2

/-- The open server gets the names and the locations of its directives. -/
structure SrvStep (env : Env ρ) (cycle : Cycle) (n : Nat) (items : Items)
    (calls : List (Call (Option Obj) (Option (Load ρ)))) (l l' : Load ρ) : Prop where
  mono : l.created.length ≤ l'.created.length
  server : n ≤ l.created.length → ∀ main servers s, l.mainConf = some main →
    main.servers = servers ++ [s] → ∃ made,
      List.Forall₂ (LocMade env cycle calls l.created.length l'.created.length) (blocks items)
        made ∧
      l'.mainConf = some { main with servers := servers ++ [{ s with
        serverNames := s.serverNames ++ namesIn env cycle ⟨.http, .httpSrv⟩ items
        locations := s.locations ++ (confsOf env.compile made).map LocConf.entry }] }

section
variable {ctx : Nat → Option Obj} {w : Option (Load ρ)} {args : Args} {body next items : Items}
  {conf : Option Obj} {l l₁ l' : Load ρ} {n a b a' b' : Nat}
  {calls pre post : List (Call (Option Obj) (Option (Load ρ)))}
  {e : Module (Option Obj) (Option (Load ρ)) × Command (Option Obj) (Option (Load ρ))}

theorem LocMade.around {d : Args × Items} {made : Args × Confs}
    (h : LocMade env cycle calls a b d made) (hpre : Quiet a b pre) (hpost : Quiet a b post) :
    LocMade env cycle (pre ++ (calls ++ post)) a b d made :=
  ⟨h.args, h.accepted, h.confs.around hpre hpost⟩

theorem LocMade.mono {d : Args × Items} {made : Args × Confs}
    (h : LocMade env cycle calls a b d made) (ha : a' ≤ a) (hb : b ≤ b') :
    LocMade env cycle calls a' b' d made :=
  ⟨h.args, h.accepted, h.confs.mono ha hb⟩

theorem quiet_nil : Quiet (ρ := ρ) a b [] := fun _ hc => absurd hc List.not_mem_nil

theorem serverNames_eq {s s' : SrvConf ρ} (h : serverNames env args s = some s') :
    s' = { s with serverNames := s.serverNames ++ args.tail.filterMap (serverName env) } := by
  obtain ⟨names, hnames, rfl⟩ := Option.map_eq_some_iff.mp h
  have hmap (values : List Bytes) (names : List (ServerName ρ))
      (h : values.mapM (serverName env) = some names) :
      names = values.filterMap (serverName env) := by
    induction values generalizing names with
    | nil =>
      cases h
      rfl
    | cons value values ih =>
      rw [List.mapM_cons] at h
      obtain ⟨name, hname, h⟩ := Option.bind_eq_some_iff.mp h
      obtain ⟨rest, hrest, h⟩ := Option.bind_eq_some_iff.mp h
      cases h
      rw [List.filterMap_cons_some hname, ih rest hrest]
  rw [hmap _ _ hnames]

theorem namesIn_core (he : entryOf (cycle.tables env) ⟨.http, .httpSrv⟩ false args = some e)
    (hcore : cycle.isCore e.1 = true) :
    namesIn env cycle ⟨.http, .httpSrv⟩ (.simple args next) =
      args.tail.filterMap (serverName env) ++ namesIn env cycle ⟨.http, .httpSrv⟩ next := by
  rw [namesIn, he, Option.any_some, hcore, if_pos rfl]

theorem namesIn_other (he : entryOf (cycle.tables env) ⟨.http, .httpSrv⟩ false args = some e)
    (hcore : cycle.isCore e.1 = false) :
    namesIn env cycle ⟨.http, .httpSrv⟩ (.simple args next) =
      namesIn env cycle ⟨.http, .httpSrv⟩ next := by
  rw [namesIn, he, Option.any_some, hcore, if_neg Bool.false_ne_true]

theorem SrvStep.nil (l : Load ρ) : SrvStep env cycle n .nil [] l l := by
  refine ⟨Nat.le_refl _, fun _ main servers s hmain hservers => ⟨[], .nil, ?_⟩⟩
  rw [hmain]
  simp [namesIn, confsOf, ← hservers]

/-- A call for another conf in front. -/
theorem SrvStep.call (c : Call (Option Obj) (Option (Load ρ))) {made : List (Args × Confs)}
    (hc : Quiet a b [c])
    (h : List.Forall₂ (LocMade env cycle calls a b) (blocks next) made) :
    List.Forall₂ (LocMade env cycle (c :: calls) a b) (blocks next) made := by
  refine h.imp fun d m hm => ?_
  have hmade := hm.around hc quiet_nil
  rwa [List.append_nil] at hmade

/-- `server_name` or a directive of another module. -/
theorem SrvStep.simple (hctx : Old n ctx)
    (he : entryOf (cycle.tables env) ⟨.http, .httpSrv⟩ false args = some e)
    (hset : e.2.set w args (ctx e.1.ctxIndex) = some l₁)
    (h : SrvStep env cycle n next calls l₁ l') :
    ∃ l, w = some l ∧ SrvStep env cycle n (.simple args next)
      (⟨e, args, ctx e.1.ctxIndex⟩ :: calls) l l' := by
  obtain ⟨hcore, hcmd⟩ | ⟨hcore, name, type, hcmd⟩ := srv_entry rfl he
  · rw [hcmd] at hset
    obtain ⟨l, hw, hupdate⟩ := Option.bind_eq_some_iff.mp hset
    obtain ⟨main₁, servers₁, s₁, s₁', hmain₁, hservers₁, hnames, rfl⟩ := updateServer_eq hupdate
    refine ⟨l, hw, h.mono, fun hn main servers s hmain hservers => ?_⟩
    cases hmain₁.symm.trans hmain
    obtain ⟨rfl, hs⟩ := List.append_inj' (hservers₁.symm.trans hservers) rfl
    cases hs
    obtain ⟨made, hmade, hmain'⟩ := h.server hn _ _ _ rfl rfl
    refine ⟨made, SrvStep.call _ (quiet_single hctx hn e args _) hmade, ?_⟩
    rw [hmain', serverNames_eq hnames, namesIn_core he hcore, List.append_assoc]
  · rw [hcmd, other_set] at hset
    refine ⟨l₁, hset, h.mono, fun hn main servers s hmain hservers => ?_⟩
    obtain ⟨made, hmade, hmain'⟩ := h.server hn main servers s hmain hservers
    refine ⟨made, SrvStep.call _ (quiet_single hctx hn e args _) hmade, ?_⟩
    rw [hmain', namesIn_other he hcore]

/-- A `location` block. -/
theorem SrvStep.block (hctx : Old n ctx)
    (he : entryOf (cycle.tables env) ⟨.http, .httpSrv⟩ true args = some e)
    (hbody : body.Accepted (IsEntry (cycle.tables env)) (e.2.inside ⟨.http, .httpSrv⟩ args))
    (hrun : blockRun (cycle.tables env) ⟨.http, .httpSrv⟩ e.2 args body (ctx e.1.ctxIndex) w =
      some l₁)
    (hlen : l₁.created.length ≤ l'.created.length)
    (hcalled : Old l₁.created.length ctx → Called env cycle ⟨.http, .httpSrv⟩ ctx
      l₁.created.length l'.created.length next calls)
    (h : SrvStep env cycle n next calls l₁ l') :
    ∃ l, w = some l ∧ SrvStep env cycle n (.block args body next) ([⟨e, args, ctx e.1.ctxIndex⟩] ++
      (blockCalls (cycle.tables env) ⟨.http, .httpSrv⟩ e.2 args body (ctx e.1.ctxIndex) w ++
        calls)) l l' := by
  obtain ⟨hcontext, -⟩ | ⟨hcontext, -⟩ | ⟨-, hcmd⟩ :=
    (known_of_entry he).block (entryOf_block he)
  · cases hcontext
  · cases hcontext
  rw [hcmd] at hbody hrun ⊢
  obtain ⟨l, hw, hblock⟩ := block_called (location_makes env cycle)
    (fun ctx w l' => run_called body hbody) hrun
  obtain ⟨ctx₁, opened, l₂, hinner, hleave, hopened⟩ := blockRun_eq hrun
  cases hleave
  obtain ⟨l₀, hl₀, henter⟩ := hopened _ (run_location rfl body hbody hinner)
  cases hw.symm.trans hl₀
  obtain ⟨main₁, servers₁, s₁, s₁', hmain₁, hservers₁, hadd, heq⟩ := updateServer_eq henter
  obtain ⟨locations, hlocations, rfl⟩ := Option.map_eq_some_iff.mp hadd
  obtain ⟨c, hc, rfl⟩ := Option.map_eq_some_iff.mp hlocations
  refine ⟨l, hw, hblock.mono.trans hlen, fun hn main servers s hmain hservers => ?_⟩
  cases hmain₁.symm.trans hmain
  obtain ⟨rfl, hs⟩ := List.append_inj' (hservers₁.symm.trans hservers) rfl
  cases hs
  have hhead (m : Nat) : Quiet l.created.length m [⟨e, args, ctx e.1.ctxIndex⟩] :=
    quiet_single hctx hn e args _
  obtain ⟨made, hmade, hmain'⟩ := h.server (hn.trans hblock.mono) _ servers₁ _
    (by rw [heq]) rfl
  refine ⟨(args, (l.create cycle (·.createLocConf)).1) :: made, .cons ?_ ?_, ?_⟩
  · have hnew : LocMade env cycle
        (blockCalls (cycle.tables env) ⟨.http, .httpSrv⟩ (locationCommand env cycle) args body
          (ctx e.1.ctxIndex) w) l.created.length l₁.created.length (args, body)
        (args, (l.create cycle (·.createLocConf)).1) :=
      ⟨rfl, by rw [hc]; rfl, hblock.fresh, hblock.called⟩
    refine (hnew.around (hhead _) ?_).mono (Nat.le_refl _) hlen
    exact (hcalled (hctx.mono (hn.trans hblock.mono))).quiet (hctx.mono hn) (Nat.le_refl _)
  · refine hmade.imp fun d m hm => ?_
    have hinner : Quiet l₁.created.length l'.created.length
        (blockCalls (cycle.tables env) ⟨.http, .httpSrv⟩ (locationCommand env cycle) args body
          (ctx e.1.ctxIndex) w) := quiet_range hblock.range (.inl (Nat.le_refl _))
    have hpre := ((hhead l'.created.length).mono hblock.mono (Nat.le_refl _)).append hinner
    have hrest := (hm.around hpre quiet_nil).mono hblock.mono (Nat.le_refl _)
    rwa [List.append_nil, List.append_assoc] at hrest
  · have hconfs : confsOf env.compile ((args, (l.create cycle (·.createLocConf)).1) :: made) =
        c :: confsOf env.compile made := List.filterMap_cons_some hc
    rw [hmain', hconfs, List.map_cons, List.append_assoc]
    rfl

/-- **The directives of a server.** -/
theorem run_srv (hctx : Old n ctx) (items : Items)
    (haccepted : items.Accepted (IsEntry (cycle.tables env)) ⟨.http, .httpSrv⟩)
    (h : (items.run (cycle.tables env) ⟨.http, .httpSrv⟩ ctx w).2 = some l') :
    ∃ l, w = some l ∧ SrvStep env cycle n items
      (items.run (cycle.tables env) ⟨.http, .httpSrv⟩ ctx w).1 l l' := by
  refine run_rule_calls (R := SrvStep env cycle n) .nil ?_ ?_ items haccepted h
  · intro args next e w l₁ l' calls he hset hnext
    exact SrvStep.simple hctx he hset hnext
  · intro args body next e w l₁ l' calls he hbody hrun hlen hcalled hnext
    exact SrvStep.block hctx he hbody hrun hlen hcalled hnext

end

/-! ## The servers of an `http` block -/

/-- The server is that of the block: it has its names, its array and its locations. -/
structure SrvConf.Serves (env : Env ρ) (cycle : Cycle)
    (calls : List (Call (Option Obj) (Option (Load ρ)))) (a b : Nat) (body : Items)
    (s : SrvConf ρ) : Prop where
  confs : Delivered env cycle (·.createSrvConf) ⟨.http, .httpSrv⟩ calls a b body s.srvConf
  names : s.serverNames = namesIn env cycle ⟨.http, .httpSrv⟩ body
  locations : ∃ made tree, List.Forall₂ (LocMade env cycle calls a b) (blocks body) made ∧
    initStaticLocationTrees (initLocations ((confsOf env.compile made).map LocConf.entry)).1 =
      some tree ∧
    s.hdclcf = ⟨tree, (initLocations ((confsOf env.compile made).map LocConf.entry)).2⟩

/-- The open `http` block gets the servers of its directives. -/
structure MainStep (env : Env ρ) (cycle : Cycle) (n : Nat) (items : Items)
    (calls : List (Call (Option Obj) (Option (Load ρ)))) (l l' : Load ρ) : Prop where
  mono : l.created.length ≤ l'.created.length
  main : n ≤ l.created.length → ∀ main, l.mainConf = some main → ∃ servers main',
    List.Forall₂ (fun d s => SrvConf.Serves env cycle calls l.created.length l'.created.length
      d.2 s) (blocks items) servers ∧
    l'.mainConf = some main' ∧ main'.mainConf = main.mainConf ∧
      main'.servers = main.servers ++ servers

section
variable {p : Place} {ctx : Nat → Option Obj} {w : Option (Load ρ)} {args : Args}
  {body next items : Items} {l l₁ l' : Load ρ} {n a b a' b' : Nat} {s : SrvConf ρ}
  {calls pre post : List (Call (Option Obj) (Option (Load ρ)))}
  {e : Module (Option Obj) (Option (Load ρ)) × Command (Option Obj) (Option (Load ρ))}

theorem SrvConf.Serves.around (h : s.Serves env cycle calls a b body) (hpre : Quiet a b pre)
    (hpost : Quiet a b post) : s.Serves env cycle (pre ++ (calls ++ post)) a b body := by
  obtain ⟨made, tree, hmade, htree⟩ := h.locations
  exact ⟨h.confs.around hpre hpost, h.names, made, tree,
    hmade.imp fun d m hm => hm.around hpre hpost, htree⟩

theorem SrvConf.Serves.mono (h : s.Serves env cycle calls a b body) (ha : a' ≤ a) (hb : b ≤ b') :
    s.Serves env cycle calls a' b' body := by
  obtain ⟨made, tree, hmade, htree⟩ := h.locations
  exact ⟨h.confs.mono ha hb, h.names, made, tree, hmade.imp fun d m hm => hm.mono ha hb, htree⟩

/-- **A `server` block** adds the server that it describes. -/
theorem run_srvBlock {conf : Option Obj}
    (hbody : body.Accepted (IsEntry (cycle.tables env)) ⟨.http, .httpSrv⟩)
    (hrun : blockRun (cycle.tables env) ⟨.http, .httpMain⟩ (serverCommand cycle) args body conf w =
      some l₁) :
    ∃ l, w = some l ∧ BlockCalled env cycle (·.createSrvConf) ⟨.http, .httpSrv⟩ body l l₁
        (blockCalls (cycle.tables env) ⟨.http, .httpMain⟩ (serverCommand cycle) args body conf w) ∧
      ∀ main, l.mainConf = some main → ∃ s,
        l₁.mainConf = some { main with servers := main.servers ++ [s] } ∧
        s.Serves env cycle (blockCalls (cycle.tables env) ⟨.http, .httpMain⟩ (serverCommand cycle)
          args body conf w) l.created.length l₁.created.length body := by
  obtain ⟨l, rfl, hblock⟩ := block_called (server_makes cycle)
    (fun ctx w l' => run_called body hbody) hrun
  refine ⟨l, rfl, hblock, fun main hmain => ?_⟩
  obtain ⟨l₂, hl₂, hleave⟩ := Option.bind_eq_some_iff.mp hrun
  obtain ⟨l₀, hl₀, hstep⟩ := run_srv (create_fresh cycle (·.createSrvConf) l).old body hbody hl₂
  obtain ⟨main₁, hmain₁, henter⟩ := Option.bind_eq_some_iff.mp hl₀
  cases hmain₁.symm.trans hmain
  cases henter
  obtain ⟨made, hmade, hmain₂⟩ := hstep.server (Nat.le_refl _) _ main.servers _ rfl rfl
  obtain ⟨main₂, servers₂, s₂, s, hmain₂', hservers₂, hinit, rfl⟩ := updateServer_eq hleave
  cases hmain₂.symm.trans hmain₂'
  obtain ⟨rfl, hs₂⟩ := List.append_inj' hservers₂ rfl
  cases hs₂
  obtain ⟨tree, htree, rfl⟩ := Option.map_eq_some_iff.mp hinit
  refine ⟨_, rfl, ⟨hblock.fresh, hblock.called⟩, List.nil_append _, made, tree, ?_, htree, rfl⟩
  exact hmade.imp fun d m hm => hm.mono (create_length cycle _ l) (Nat.le_refl _)

/-- A simple directive in an `http` block changes no array and no server. -/
theorem main_set {p : Place} (hp : p.cmdType = .httpMain) {conf : Option Obj}
    (he : entryOf (cycle.tables env) p false args = some e)
    (hset : e.2.set w args conf = some l₁) :
    ∃ l, w = some l ∧ l₁.created = l.created ∧ ∀ main, l.mainConf = some main →
      ∃ main₁, l₁.mainConf = some main₁ ∧ main₁.mainConf = main.mainConf ∧
        main₁.servers = main.servers := by
  have hknown := known_of_entry he
  have hblock := entryOf_block he
  rw [hp] at hknown
  generalize e.2 = cmd at hknown hblock hset
  cases hknown with
  | hash cmd hcmd =>
    obtain ⟨l, hw, hcreated, hslot⟩ := hash_set hcmd hset
    refine ⟨l, hw, hcreated, fun main hmain => ?_⟩
    obtain ⟨maxSize, bucketSize, hmain₁⟩ := hslot main hmain
    exact ⟨_, hmain₁, rfl, rfl⟩
  | server => cases hblock
  | other =>
    rw [other_set] at hset
    exact ⟨l₁, hset, rfl, fun main hmain => ⟨main, hmain, rfl, rfl⟩⟩

theorem MainStep.nil (l : Load ρ) : MainStep env cycle n .nil [] l l := by
  exact ⟨Nat.le_refl _, fun _ main hmain =>
    ⟨[], main, .nil, hmain, rfl, (List.append_nil _).symm⟩⟩

theorem MainStep.simple (hctx : Old n ctx)
    (he : entryOf (cycle.tables env) ⟨.http, .httpMain⟩ false args = some e)
    (hset : e.2.set w args (ctx e.1.ctxIndex) = some l₁)
    (h : MainStep env cycle n next calls l₁ l') :
    ∃ l, w = some l ∧ MainStep env cycle n (.simple args next)
      (⟨e, args, ctx e.1.ctxIndex⟩ :: calls) l l' := by
  obtain ⟨l, hw, hcreated, hmain₁⟩ := main_set rfl he hset
  refine ⟨l, hw, hcreated ▸ h.mono, fun hn main hmain => ?_⟩
  obtain ⟨main₁, hmain₁, hconfs, heq⟩ := hmain₁ main hmain
  obtain ⟨servers, main', hservers, hmain', hconfs', heq'⟩ := h.main (hcreated ▸ hn) main₁ hmain₁
  rw [hcreated] at hservers
  refine ⟨servers, main', hservers.imp fun d s hs => ?_, hmain', hconfs'.trans hconfs, heq ▸ heq'⟩
  have hserves := hs.around (quiet_single hctx hn e args e.1.ctxIndex) quiet_nil
  rwa [List.append_nil] at hserves

theorem MainStep.block (hctx : Old n ctx)
    (he : entryOf (cycle.tables env) ⟨.http, .httpMain⟩ true args = some e)
    (hbody : body.Accepted (IsEntry (cycle.tables env)) (e.2.inside ⟨.http, .httpMain⟩ args))
    (hrun : blockRun (cycle.tables env) ⟨.http, .httpMain⟩ e.2 args body (ctx e.1.ctxIndex) w =
      some l₁)
    (hlen : l₁.created.length ≤ l'.created.length)
    (hcalled : Old l₁.created.length ctx → Called env cycle ⟨.http, .httpMain⟩ ctx
      l₁.created.length l'.created.length next calls)
    (h : MainStep env cycle n next calls l₁ l') :
    ∃ l, w = some l ∧ MainStep env cycle n (.block args body next)
      ([⟨e, args, ctx e.1.ctxIndex⟩] ++ (blockCalls (cycle.tables env) ⟨.http, .httpMain⟩ e.2 args
        body (ctx e.1.ctxIndex) w ++ calls)) l l' := by
  obtain ⟨hcontext, -⟩ | ⟨-, hcmd⟩ | ⟨hcontext, -⟩ :=
    (known_of_entry he).block (entryOf_block he)
  · cases hcontext
  rw [hcmd] at hbody hrun ⊢
  obtain ⟨l, hw, hblock, hadd⟩ := run_srvBlock hbody hrun
  refine ⟨l, hw, hblock.mono.trans hlen, fun hn main hmain => ?_⟩
  have hhead (m : Nat) : Quiet l.created.length m [⟨e, args, ctx e.1.ctxIndex⟩] :=
    quiet_single hctx hn e args _
  obtain ⟨s, hmain₁, hs⟩ := hadd main hmain
  obtain ⟨servers, main', hservers, hmain', hconfs, heq⟩ := h.main (hn.trans hblock.mono) _ hmain₁
  refine ⟨s :: servers, main', .cons ?_ ?_, hmain', hconfs, ?_⟩
  · refine (hs.around (hhead _) ?_).mono (Nat.le_refl _) hlen
    exact (hcalled (hctx.mono (hn.trans hblock.mono))).quiet (hctx.mono hn) (Nat.le_refl _)
  · refine hservers.imp fun d s hs => ?_
    have hinner := quiet_range (a := l₁.created.length) (b := l'.created.length) hblock.range
      (.inl (Nat.le_refl _))
    have hpre := ((hhead l'.created.length).mono hblock.mono (Nat.le_refl _)).append hinner
    have hrest := (hs.around hpre quiet_nil).mono hblock.mono (Nat.le_refl _)
    rwa [List.append_nil, List.append_assoc] at hrest
  · rw [heq, List.append_assoc]
    rfl
  · cases hcontext

/-- **The directives of an `http` block.** -/
theorem run_main (hctx : Old n ctx) (items : Items)
    (haccepted : items.Accepted (IsEntry (cycle.tables env)) ⟨.http, .httpMain⟩)
    (h : (items.run (cycle.tables env) ⟨.http, .httpMain⟩ ctx w).2 = some l') :
    ∃ l, w = some l ∧ MainStep env cycle n items
      (items.run (cycle.tables env) ⟨.http, .httpMain⟩ ctx w).1 l l' := by
  refine run_rule_calls (R := MainStep env cycle n) .nil ?_ ?_ items haccepted h
  · intro args next e w l₁ l' calls he hset hnext
    exact MainStep.simple hctx he hset hnext
  · intro args body next e w l₁ l' calls he hbody hrun hlen hcalled hnext
    exact MainStep.block hctx he hbody hrun hlen hcalled hnext

end

/-! ## The file -/

/-- The `http` block's array and its servers, found by their names. -/
structure MainConf.Serves (env : Env ρ) (cycle : Cycle)
    (calls : List (Call (Option Obj) (Option (Load ρ)))) (a b : Nat) (body : Items)
    (main : MainConf ρ) : Prop where
  confs : Delivered env cycle (·.createMainConf) ⟨.http, .httpMain⟩ calls a b body main.mainConf
  servers : List.Forall₂ (fun d s => SrvConf.Serves env cycle calls a b d.2 s) (blocks body)
    main.servers
  init : ∃ main₀ : MainConf ρ, main₀.servers = main.servers ∧
    main₀.initVirtualServers env = some main

/-- The last `http` block is the one that stays. -/
structure FileServes (env : Env ρ) (cycle : Cycle) (items : Items)
    (calls : List (Call (Option Obj) (Option (Load ρ)))) (l l' : Load ρ) : Prop where
  none : lastBlock items = none → l'.mainConf = l.mainConf
  last : ∀ body, lastBlock items = some body → ∃ main, l'.mainConf = some main ∧
    main.Serves env cycle calls l.created.length l'.created.length body

section
variable {w : Option (Load ρ)} {args : Args} {body items : Items} {l l₁ l' : Load ρ}
  {a b a' b' : Nat} {main : MainConf ρ}
  {calls pre post : List (Call (Option Obj) (Option (Load ρ)))}

theorem MainConf.Serves.around (h : main.Serves env cycle calls a b body) (hpre : Quiet a b pre)
    (hpost : Quiet a b post) : main.Serves env cycle (pre ++ (calls ++ post)) a b body :=
  ⟨h.confs.around hpre hpost, h.servers.imp fun _ _ hs => hs.around hpre hpost, h.init⟩

theorem MainConf.Serves.mono (h : main.Serves env cycle calls a b body) (ha : a' ≤ a)
    (hb : b ≤ b') : main.Serves env cycle calls a' b' body :=
  ⟨h.confs.mono ha hb, h.servers.imp fun _ _ hs => hs.mono ha hb, h.init⟩

/-- **An `http` block** leaves what it describes. -/
theorem run_mainBlock {p : Place} {conf : Option Obj}
    (hbody : body.Accepted (IsEntry (cycle.tables env)) ⟨.http, .httpMain⟩)
    (hrun : blockRun (cycle.tables env) p (httpCommand env cycle) args body conf w = some l₁) :
    ∃ l, w = some l ∧ BlockCalled env cycle (·.createMainConf) ⟨.http, .httpMain⟩ body l l₁
        (blockCalls (cycle.tables env) p (httpCommand env cycle) args body conf w) ∧
      ∃ main, l₁.mainConf = some main ∧ main.Serves env cycle
        (blockCalls (cycle.tables env) p (httpCommand env cycle) args body conf w)
        l.created.length l₁.created.length body := by
  obtain ⟨l, rfl, hblock⟩ := block_called (http_makes env cycle)
    (fun ctx w l' => run_called body hbody) hrun
  refine ⟨l, rfl, hblock, ?_⟩
  obtain ⟨l₂, hl₂, hleave⟩ := Option.bind_eq_some_iff.mp hrun
  obtain ⟨l₀, hl₀, hstep⟩ := run_main (create_fresh cycle (·.createMainConf) l).old body hbody hl₂
  cases hl₀
  obtain ⟨servers, main₁, hservers, hmain, hconfs, heq⟩ := hstep.main (Nat.le_refl _) _ rfl
  obtain ⟨main₂, hmain₂, hleave⟩ := Option.bind_eq_some_iff.mp hleave
  cases hmain.symm.trans hmain₂
  obtain ⟨main, hinit, hleave⟩ := Option.bind_eq_some_iff.mp hleave
  cases hleave
  have hmono := create_length cycle (·.createMainConf) l
  obtain ⟨find, hfind, rfl⟩ := Option.map_eq_some_iff.mp hinit
  refine ⟨_, rfl, ?_, ?_, _, rfl, hinit⟩
  · show Delivered env cycle _ _ _ _ _ body main₁.mainConf
    rw [hconfs]
    exact ⟨hblock.fresh, hblock.called⟩
  · show List.Forall₂ _ (blocks body) main₁.servers
    rw [heq]
    exact hservers.imp fun d s hs => hs.mono hmono (Nat.le_refl _)

/-- **The directives of a file.** -/
theorem run_fileCalls {p : Place} (hp : p.cmdType = .main) {ctx : Nat → Option Obj}
    (hctx : Old 0 ctx) (items : Items)
    (haccepted : items.Accepted (IsEntry (cycle.tables env)) p)
    (h : (items.run (cycle.tables env) p ctx w).2 = some l') :
    ∃ l, w = some l ∧ FileServes env cycle items (items.run (cycle.tables env) p ctx w).1 l l' := by
  refine run_rule_calls (R := FileServes env cycle) ?_ ?_ ?_ items haccepted h
  · exact fun l => ⟨fun _ => rfl, nofun⟩
  · intro args next e w l₁ l' calls he hset hnext
    have hknown := known_of_entry he
    have hblock := entryOf_block he
    rw [hp] at hknown
    have hw : w = some l₁ := by
      generalize e.2 = cmd at hknown hblock hset
      cases hknown with
      | http => cases hblock
      | other => rwa [other_set] at hset
    refine ⟨l₁, hw, hnext.none, fun body hlast => ?_⟩
    obtain ⟨main, hmain, hserves⟩ := hnext.last body hlast
    refine ⟨main, hmain, ?_⟩
    have hquiet := quiet_single (a := l₁.created.length) (b := l'.created.length) hctx
      (Nat.zero_le _) e args e.1.ctxIndex
    have hcons := hserves.around hquiet quiet_nil
    rwa [List.append_nil] at hcons
  · intro args body next e w l₁ l' calls he hbody hrun hlen hcalled hnext
    have hcontext := (known_of_entry he).block (entryOf_block he)
    rw [hp] at hcontext
    obtain ⟨-, hcmd⟩ | ⟨hcontext, -⟩ | ⟨hcontext, -⟩ := hcontext
    · rw [hcmd] at hbody hrun ⊢
      obtain ⟨l, hw, hblock, main, hmain, hserves⟩ := run_mainBlock hbody hrun
      have hhead (a b : Nat) : Quiet a b [⟨e, args, ctx e.1.ctxIndex⟩] :=
        quiet_single hctx (Nat.zero_le _) e args _
      refine ⟨l, hw, fun hlast => ?_, fun last hlast => ?_⟩
      · unfold lastBlock at hlast
        split at hlast <;> cases hlast
      unfold lastBlock at hlast
      cases hnone : lastBlock next with
      | none =>
        rw [hnone] at hlast
        cases hlast
        refine ⟨main, by rw [hnext.none hnone, hmain], ?_⟩
        refine (hserves.around (hhead _ _) ?_).mono (Nat.le_refl _) hlen
        exact (hcalled (hctx.mono (Nat.zero_le _))).quiet (hctx.mono (Nat.zero_le _))
          (Nat.le_refl _)
      | some last' =>
        rw [hnone] at hlast
        cases hlast
        obtain ⟨main', hmain', hserves'⟩ := hnext.last _ hnone
        refine ⟨main', hmain', ?_⟩
        have hinner := quiet_range (a := l₁.created.length) (b := l'.created.length) hblock.range
          (.inl (Nat.le_refl _))
        have hrest := (hserves'.around ((hhead _ _).append hinner) quiet_nil).mono hblock.mono
          (Nat.le_refl _)
        rwa [List.append_nil, List.append_assoc] at hrest
    · cases hcontext
    · cases hcontext

/-- The calls that a load makes. -/
def loadCalls (env : Env ρ) (cycle : Cycle) (content : Bytes) :
    List (Call (Option Obj) (Option (Load ρ))) :=
  match parse (readToken content) (cycle.tables env) (content.length + 1) true startCf with
  | some (_, cf) => cf.calls
  | none => []

/-- **What a load leaves** of the last `http` block of its file. -/
theorem load_serves {content : Bytes} {l : Load ρ} (h : load env cycle content = some l)
    {items body : Items} (hitems : File items content) (hlast : lastBlock items = some body) :
    ∃ main, l.mainConf = some main ∧
      main.Serves env cycle (loadCalls env cycle content) 0 l.created.length body := by
  obtain ⟨ts, hts, hlen⟩ := readToken_delivers content
  obtain ⟨rc, cf, hparse, houtcome⟩ :=
    parse_outcome (cycle.tables env) (content.length + 1) true startCf hts hlen
  unfold load at h
  unfold loadCalls
  rw [hparse] at h ⊢
  cases houtcome with
  | ok items' rest file heq haccepted hrest =>
    have hnil := hts.last_eq_nil heq rfl
    subst hnil
    obtain rfl := ((delivers_iff content items').mp (heq ▸ hts)).unique hitems
    obtain ⟨l₀, hl₀, hserves⟩ := run_fileCalls rfl (by nofun) items' haccepted h
    cases hl₀
    exact hserves.last body hlast
  | error => cases h

end

end NgxToolkit.HttpDynamic
