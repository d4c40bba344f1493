import Mathlib
import NgxToolkit.DynamicConfParse
import NgxToolkit.HttpLocation
import NgxToolkit.Lib.Ascii

/-! The dynamic configuration of HTTP (`ngx_http_dynamic.c`): its directives, and what
the modules ask of it for a request.

`commands` are the handlers of `http`, `server`, `server_name` and `location`.  What they
change is a `Load`; a handler that fails leaves `none`, and the load is refused.  The
directives of other modules change confs that are not modelled.  Allocations succeed.

`getModuleMainDconf`, `getModuleSrvDconf` and `getModuleLocDconf` are the lookups; what
they follow may be `NULL` or never assigned, which is a `Fault`. -/

namespace NgxToolkit.HttpDynamic

open DynamicConf DynamicConf.Parse Lib

/-- A conf that a load made: for which module, by its context index, and as how manieth. -/
structure Obj where
  module : Nat
  serial : Nat
deriving DecidableEq

/-- An array of confs, by the context index. -/
abbrev Confs := Nat → Option Obj

/-- A pointer that may never have been assigned. -/
inductive Pointer (α : Type) where
  | unassigned
  | to (a : α)

def Pointer.follow {α : Type} : Pointer α → Except Fault α
  | .unassigned => .error .unassigned
  | .to a => .ok a

/-! ## The modules -/

/-- `ngx_http_dynamic_module_t`: which functions are not `NULL`. -/
structure Dctx where
  createMainConf : Bool
  createSrvConf : Bool
  createLocConf : Bool

/-- A module of `cycle->modules`: the two of this file, and others, whose dynamic commands
are simple directives. -/
inductive CycleModule where
  | httpDynamic (ctxIndex : Nat)
  | httpDynamicCore (ctxIndex : Nat)
  | other (type : ModuleType) (ctxIndex : Nat) (dctx : Option Dctx)
      (dcommands : List (Bytes × CmdType))

def CycleModule.type : CycleModule → ModuleType
  | .httpDynamic _ => .core
  | .httpDynamicCore _ => .http
  | .other type _ _ _ => type

def CycleModule.ctxIndex : CycleModule → Nat
  | .httpDynamic ctxIndex | .httpDynamicCore ctxIndex | .other _ ctxIndex _ _ => ctxIndex

/-- `spare_hook0` of a module of type `NGX_HTTP_MODULE`. -/
def CycleModule.dctx : CycleModule → Option Dctx
  | .httpDynamic _ => none
  | .httpDynamicCore _ => some ⟨true, true, true⟩
  | .other type _ dctx _ => if type = .http then dctx else none

/-- `cycle->modules`, with the context indices that nginx gives the HTTP modules; `core` is
that of `ngx_http_dynamic_core_module`. -/
structure Cycle where
  modules : List CycleModule
  core : Nat
  core_mem : .httpDynamicCore core ∈ modules
  ctxIndex_ne : modules.Pairwise fun m m' =>
    m.type = .http → m'.type = .http → m.ctxIndex ≠ m'.ctxIndex

/-- The loops that call the `create` functions of the HTTP modules. -/
def createConfs (create : Dctx → Bool) :
    List CycleModule → Confs → List Obj → Confs × List Obj
  | [], confs, created => (confs, created)
  | m :: modules, confs, created =>
    if m.dctx.any create then
      let conf : Obj := ⟨m.ctxIndex, created.length⟩
      createConfs create modules (Function.update confs m.ctxIndex (some conf)) (created ++ [conf])
    else createConfs create modules confs created

/-! ## The configuration -/

variable {ρ : Type}

/-- `ngx_http_dynamic_server_name_t`, without its server. -/
structure ServerName (ρ : Type) where
  name : Bytes
  regex : Option ρ

/-- `ngx_http_dynamic_core_srv_conf_t`; `locations` is the queue of its `hdclcf`. -/
structure SrvConf (ρ : Type) where
  srvConf : Confs
  serverNames : List (ServerName ρ)
  locations : List (LocationQueue ρ Confs)
  hdclcf : ServerLocations ρ Confs

/-- `NGX_CONF_UNSET_UINT`. -/
def confUnsetUint : Nat := 2 ^ 64 - 1

/-- `ngx_conf_init_uint_value`. -/
def confInitUintValue (conf default : Nat) : Nat := if conf = confUnsetUint then default else conf

/-- `ngx_http_dynamic_core_main_conf_t`, with the array `main_conf` that it is in. -/
structure MainConf (ρ : Type) where
  mainConf : Confs
  servers : List (SrvConf ρ)
  serverNamesHashMaxSize : Nat
  serverNamesHashBucketSize : Nat
  defaultServer : Pointer (SrvConf ρ)
  names : Bytes → Option (SrvConf ρ)
  regex : List (ρ × SrvConf ρ)

/-- What is made by a load: the confs, and `main_conf` of the `ngx_http_dynamic_conf_t`. -/
structure Load (ρ : Type) where
  created : List Obj
  mainConf : Option (MainConf ρ)

/-- What nginx gives: regexes, its host name, `ngx_atoi` (`none` is `NGX_ERROR`), the size of
a cache line, and the hash of the server names for its two sizes, which finds what was added. -/
structure Env (ρ : Type) where
  compile : Bytes → Bool → Option ρ
  exec : ρ → Bytes → Exec
  hostname : Bytes
  atoi : Bytes → Option Nat
  cachelineSize : Nat
  hashInit : (maxSize bucketSize : Nat) → List (Bytes × SrvConf ρ) →
    Option (Bytes → Option (SrvConf ρ))
  hash_mem : ∀ maxSize bucketSize keys find, hashInit maxSize bucketSize keys = some find →
    ∀ host server, find host = some server → ∃ name, (name, server) ∈ keys

/-- A value of `ngx_http_dynamic_core_server_name`; `$hostname` is its name for the host. -/
def serverName (env : Env ρ) (value : Bytes) : Option (ServerName ρ) :=
  let ch := value.headD 0
  if (ch = 42 ∧ (value.length < 3 ∨ value.getD 1 0 ≠ 46)) ∨ (ch = 46 ∧ value.length < 2) then none
  else if ch = 126 then
    if value.length = 1 then none
    else
      let pattern := value.tail
      (env.compile pattern (pattern.any fun c => 65 ≤ c ∧ c ≤ 90)).map fun re =>
        ⟨pattern, some re⟩
  else
    let name :=
      if (value.takeWhile (· ≠ 0)).map tolower = [36, 104, 111, 115, 116, 110, 97, 109, 101] then
        env.hostname
      else value
    some ⟨name.map tolower, none⟩

/-- `ngx_http_dynamic_core_server_name`. -/
def serverNames (env : Env ρ) (args : Args) (hdcscf : SrvConf ρ) : Option (SrvConf ρ) :=
  (args.tail.mapM (serverName env)).map fun names =>
    { hdcscf with serverNames := hdcscf.serverNames ++ names }

/-- `ngx_http_dynamic_core_init_locations` and `.._init_static_location_trees`. -/
def SrvConf.init (hdcscf : SrvConf ρ) : Option (SrvConf ρ) :=
  let (locations, regexLocations) := initLocations hdcscf.locations
  (initStaticLocationTrees locations).map fun staticLocations =>
    { hdcscf with hdclcf := ⟨staticLocations, regexLocations⟩ }

/-- `ngx_http_dynamic_core_init_main_conf`. -/
def MainConf.init (env : Env ρ) (hdcmcf : MainConf ρ) : MainConf ρ :=
  { hdcmcf with
    serverNamesHashMaxSize := confInitUintValue hdcmcf.serverNamesHashMaxSize 512
    serverNamesHashBucketSize :=
      confInitUintValue hdcmcf.serverNamesHashBucketSize env.cachelineSize }

/-- `ngx_http_dynamic_core_init_virtual_servers`.  If there is no server, `elts[0]` was
never assigned. -/
def MainConf.initVirtualServers (env : Env ρ) (hdcmcf : MainConf ρ) : Option (MainConf ρ) :=
  let names := hdcmcf.servers.flatMap fun server =>
    server.serverNames.map fun name => (name, server)
  let keys := names.filterMap fun (name, server) =>
    if name.regex.isSome then none else some (name.name, server)
  let regex := names.filterMap fun (name, server) => name.regex.map fun re => (re, server)
  let hash :=
    if keys.isEmpty then some fun _ => none
    else env.hashInit hdcmcf.serverNamesHashMaxSize hdcmcf.serverNamesHashBucketSize keys
  hash.map fun find =>
    { hdcmcf with
      defaultServer :=
        match hdcmcf.servers with
        | [] => .unassigned
        | server :: _ => .to server
      names := find
      regex := regex }

/-- The server whose block is open is the last of the array. -/
def Load.updateServer (f : SrvConf ρ → Option (SrvConf ρ)) (l : Load ρ) : Option (Load ρ) := do
  let hdcmcf ← l.mainConf
  let hdcscf ← hdcmcf.servers.getLast?
  let hdcscf ← f hdcscf
  return { l with mainConf := some { hdcmcf with servers := hdcmcf.servers.dropLast ++ [hdcscf] } }

/-! ## The handlers -/

/-- Its bits: a block or not, the numbers of arguments, and the context. -/
def cmdType (block more1 : Bool) (takes : List Nat) (context : CmdConf) : CmdType :=
  ⟨block, false, false, more1, false, takes, [context]⟩

/-- A command whose directives are simple. -/
def simpleCommand (name : Bytes) (type : CmdType)
    (set : Args → Load ρ → Option (Load ρ)) : Command (Option Obj) (Option (Load ρ)) where
  name
  type
  set := fun w args _ => w.bind (set args)
  enter := fun w _ _ => (w, fun _ => none)
  inside := fun p _ => p
  leave := fun w => w

/-- A command of a block: the confs that it creates, what is done with them, the place of
the directives in it, and its end. -/
def blockCommand (cycle : Cycle) (name : Bytes) (type : CmdType) (create : Dctx → Bool)
    (enter : Args → Confs → Load ρ → Option (Load ρ)) (inside : Place → Place)
    (leave : Load ρ → Option (Load ρ)) : Command (Option Obj) (Option (Load ρ)) where
  name
  type
  set := fun w _ _ => w
  enter := fun w args _ =>
    match w with
    | none => (none, fun _ => none)
    | some l =>
      let (confs, created) := createConfs create cycle.modules (fun _ => none) l.created
      (enter args confs { l with created }, confs)
  inside := fun p _ => inside p
  leave := fun w => w.bind leave

/-- `http`, `ngx_http_dynamic_block`. -/
def httpCommand (env : Env ρ) (cycle : Cycle) : Command (Option Obj) (Option (Load ρ)) :=
  blockCommand cycle [104, 116, 116, 112] (cmdType true false [0] .main) (·.createMainConf)
    (fun _ confs l =>
      let hdcmcf := ⟨confs, [], confUnsetUint, confUnsetUint, .unassigned, fun _ => none, []⟩
      some { l with mainConf := some hdcmcf })
    (fun _ => ⟨.http, .httpMain⟩)
    (fun l => do
      let hdcmcf ← l.mainConf
      let hdcmcf ← (hdcmcf.init env).initVirtualServers env
      return { l with mainConf := some hdcmcf })

/-- A directive for a field of type `ngx_uint_t`. -/
structure NumSlot (ρ : Type) where
  name : Bytes
  get : MainConf ρ → Nat
  set : MainConf ρ → Nat → MainConf ρ

/-- `ngx_conf_set_num_slot`, which refuses a field that is set ("is duplicate") and what is not
a number ("invalid number"). -/
def NumSlot.write (slot : NumSlot ρ) (env : Env ρ) (args : Args) (l : Load ρ) :
    Option (Load ρ) := do
  let hdcmcf ← l.mainConf
  if slot.get hdcmcf ≠ confUnsetUint then none
  else
    let n ← env.atoi (args.getD 1 [])
    return { l with mainConf := some (slot.set hdcmcf n) }

/-- `server_names_hash_max_size` and `server_names_hash_bucket_size`. -/
def hashSlots : List (NumSlot ρ) :=
  let text : Bytes :=
    [115, 101, 114, 118, 101, 114, 95, 110, 97, 109, 101, 115, 95, 104, 97, 115, 104, 95]
  [⟨text ++ [109, 97, 120, 95, 115, 105, 122, 101], (·.serverNamesHashMaxSize),
      fun hdcmcf n => { hdcmcf with serverNamesHashMaxSize := n }⟩,
    ⟨text ++ [98, 117, 99, 107, 101, 116, 95, 115, 105, 122, 101], (·.serverNamesHashBucketSize),
      fun hdcmcf n => { hdcmcf with serverNamesHashBucketSize := n }⟩]

def hashCommands (env : Env ρ) : List (Command (Option Obj) (Option (Load ρ))) :=
  hashSlots.map fun slot =>
    simpleCommand slot.name (cmdType false false [1] .httpMain) (slot.write env)

/-- `server`, `ngx_http_dynamic_core_server`. -/
def serverCommand (cycle : Cycle) : Command (Option Obj) (Option (Load ρ)) :=
  blockCommand cycle [115, 101, 114, 118, 101, 114] (cmdType true false [0] .httpMain)
    (·.createSrvConf)
    (fun _ confs l => do
      let hdcmcf ← l.mainConf
      let hdcscf : SrvConf ρ := ⟨confs, [], [], ⟨.nil, none⟩⟩
      return { l with mainConf := some { hdcmcf with servers := hdcmcf.servers ++ [hdcscf] } })
    (fun p => { p with cmdType := .httpSrv }) (Load.updateServer SrvConf.init)

/-- `server_name`. -/
def serverNameCommand (env : Env ρ) : Command (Option Obj) (Option (Load ρ)) :=
  simpleCommand [115, 101, 114, 118, 101, 114, 95, 110, 97, 109, 101]
    (cmdType false true [] .httpSrv) fun args => Load.updateServer (serverNames env args)

/-- `location`, `ngx_http_dynamic_core_location`. -/
def locationCommand (env : Env ρ) (cycle : Cycle) : Command (Option Obj) (Option (Load ρ)) :=
  blockCommand cycle [108, 111, 99, 97, 116, 105, 111, 110] (cmdType true false [1, 2] .httpSrv)
    (·.createLocConf)
    (fun args confs => Load.updateServer fun hdcscf =>
      (addLocation env.compile args confs hdcscf.locations).map fun locations =>
        { hdcscf with locations })
    (fun p => { p with cmdType := .httpLoc }) some

/-- `spare_hook1` of a module. -/
def CycleModule.commands (env : Env ρ) (cycle : Cycle) :
    CycleModule → List (Command (Option Obj) (Option (Load ρ)))
  | .httpDynamic _ => [httpCommand env cycle]
  | .httpDynamicCore _ =>
    hashCommands env ++ [serverCommand cycle, serverNameCommand env, locationCommand env cycle]
  | .other _ _ _ dcommands => dcommands.map fun (name, type) =>
    simpleCommand name { type with block := false } fun _ => some

def Cycle.tables (env : Env ρ) (cycle : Cycle) : List (Module (Option Obj) (Option (Load ρ))) :=
  cycle.modules.map fun m => ⟨m.type, m.ctxIndex, m.commands env cycle⟩

/-- The `ngx_conf_t` with which `ngx_dynamic_conf_load_conf` calls the parser. -/
def startCf : Cf ConfFile (Option Obj) (Option (Load ρ)) where
  file := .opened
  place := ⟨.core, .main⟩
  ctx := fun _ => none
  world := some ⟨[], none⟩
  calls := []

/-- What a load of the file makes, if it is accepted. -/
def load (env : Env ρ) (cycle : Cycle) (content : Bytes) : Option (Load ρ) :=
  match parse (readToken content) (cycle.tables env) (content.length + 1) true startCf with
  | some (true, cf) => cf.world
  | _ => none

/-! ## A request -/

/-- `ngx_http_dynamic_core_find_virtual_server`; `hdcscfp` is assigned with `NGX_OK` only. -/
def findVirtualServer (env : Env ρ) (hdcmcf : MainConf ρ) (host : Bytes) :
    Rc × Pointer (SrvConf ρ) :=
  match hdcmcf.names host with
  | some hdcscf => (.ok, .to hdcscf)
  | none => if host = [] then (.declined, .unassigned) else go hdcmcf.regex
where
  go : List (ρ × SrvConf ρ) → Rc × Pointer (SrvConf ρ)
    | [] => (.declined, .unassigned)
    | (re, server) :: names =>
      match env.exec re host with
      | .noMatch => go names
      | .matched => (.ok, .to server)
      | .failed => (.error, .unassigned)

/-- `hdcf->main_conf`; `hdcf` is what `ngx_get_dconf` gives. -/
def followMainConf (hdcf : Option (Load ρ)) : Except Fault (Option (MainConf ρ)) :=
  match hdcf with
  | none => .ok none
  | some hdcf =>
    match hdcf.mainConf with
    | none => .error .null
    | some mainConf => .ok (some mainConf)

/-- `ngx_http_get_module_main_dconf`. -/
def getModuleMainDconf (hdcf : Option (Load ρ)) (m : Nat) : Except Fault (Option Obj) :=
  (followMainConf hdcf).map fun mainConf => mainConf.bind (·.mainConf m)

/-- The server in whose array `ngx_http_get_module_srv_dconf` looks. -/
def followSrvConf (env : Env ρ) (cycle : Cycle) (hdcf : Option (Load ρ)) (host : Bytes) :
    Except Fault (Option (SrvConf ρ)) :=
  match followMainConf hdcf with
  | .error fault => .error fault
  | .ok none => .ok none
  | .ok (some hdcmcf) =>
    if hdcmcf.mainConf cycle.core = none then .ok none
    else
      match findVirtualServer env hdcmcf host with
      | (.error, _) => .ok none
      | (.declined, _) => hdcmcf.defaultServer.follow.map some
      | (_, hdcscf) => hdcscf.follow.map some

/-- `ngx_http_get_module_srv_dconf`. -/
def getModuleSrvDconf (env : Env ρ) (cycle : Cycle) (hdcf : Option (Load ρ)) (host : Bytes)
    (m : Nat) : Except Fault (Option Obj) :=
  (followSrvConf env cycle hdcf host).map fun hdcscf => hdcscf.bind (·.srvConf m)

/-- `ngx_http_get_module_loc_dconf`. -/
def getModuleLocDconf (env : Env ρ) (cycle : Cycle) (hdcf : Option (Load ρ)) (host uri : Bytes)
    (m : Nat) : Except Fault (Option Obj) :=
  match followSrvConf env cycle hdcf host with
  | .error fault => .error fault
  | .ok none => .ok none
  | .ok (some hdcscf) =>
    if hdcscf.srvConf cycle.core = none then .ok none
    else
      match findLocation env.exec uri hdcscf.hdclcf with
      | .error fault => .error fault
      | .ok (.error, _) => .ok none
      | .ok (_, hdclcf) => .ok (hdclcf.bind (·.locConf m))

end NgxToolkit.HttpDynamic
