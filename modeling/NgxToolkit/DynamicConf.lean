import Mathlib.Data.Fintype.Basic
import Mathlib.Logic.Function.Basic
import Mathlib.Tactic.Common
import NgxToolkit.Lib.Machine

/-! The dynamic configuration (`ngx_dynamic_conf.c`): loads, the two-slot double
buffer and the periodic check of the file's md5.

`loadConf` is `ngx_dynamic_conf_load_conf`; what the outside answers during one
load (allocations, the parse of the file's content, the modules' callbacks) is
a `LoadEnv`.  Memory pools are named by numbers in the order of their creation.

The machine interleaves an external writer of the file with the worker, which
reads the file once per step: `ngx_dynamic_conf_process_init` loads and then
takes the md5, `ngx_dynamic_conf_check_conf` takes the md5, compares, loads and
records the md5. -/

namespace NgxToolkit.DynamicConf

open Lib

/-- `ngx_dynamic_core_module_t`: which callbacks are not `NULL`. -/
structure CoreModule where
  createConf : Bool
  initConf : Bool

/-- `ngx_module_t`, as far as a load reads it. -/
structure Module where
  /-- `type == NGX_CORE_MODULE` -/
  core : Bool
  ctxIndex : Nat
  /-- `spare_hook0` -/
  dctx : Option CoreModule

/-- `ngx_cycle->modules`, with the context indices that `ngx_count_modules`
gives the core modules: distinct and below its result. -/
structure Cycle where
  modules : List Module
  coreMaxModule : Nat
  ctxIndex_lt : ∀ m ∈ modules, m.core = true → m.ctxIndex < coreMaxModule
  ctxIndex_ne : modules.Pairwise fun m m' =>
    m.core = true → m'.core = true → m.ctxIndex ≠ m'.ctxIndex

/-- Has the module a `create_conf` that a load calls? -/
def Module.creates (m : Module) : Bool := m.core && m.dctx.any (·.createConf)

/-- Has the module an `init_conf` that a load calls? -/
def Module.inits (m : Module) : Bool := m.core && m.dctx.any (·.initConf)

/-- What the outside answers during one `ngx_dynamic_conf_load_conf`: do the
allocations succeed, what does the `create_conf` of the module at a position of
`ngx_cycle->modules` return, does the parse of a content succeed, does the
`init_conf` at a position succeed, and how many pools do the callbacks leave. -/
structure LoadEnv (α κ : Type) where
  pool : Bool
  conf : Bool
  moduleConf : Bool
  args : Bool
  tempPool : Bool
  createConf : Nat → Option α
  parse : κ → Bool
  initConf : Nat → Bool
  left : Nat

/-- `ngx_dynamic_conf_ctx_t`; `text` is the content its parse read. -/
structure Ctx (α κ : Type) where
  moduleConf : List (Option α)
  pool : Nat
  text : κ

/-- `ngx_dynamic_conf_conf_t`; `file` says that a file is configured, `md5key`
is `none` while its bytes are the zeros of `ngx_pcalloc`. -/
structure Conf (α κ δ : Type) where
  conf : Fin 2 → Option (Ctx α κ)
  used : Fin 2
  file : Bool
  md5key : Option δ

/-- The memory pools: how many were created, and the calls of `ngx_destroy_pool`. -/
structure Pools where
  made : Nat
  destroyed : List Nat
deriving DecidableEq, Repr

def Pools.create (p : Pools) (n : Nat) : Pools := { p with made := p.made + n }

def Pools.destroy (p : Pools) (pool : Nat) : Pools := { p with destroyed := pool :: p.destroyed }

variable {α κ δ : Type}

/-- The `create_conf` loop from the position `i` on; `none` is `goto failed`. -/
def createConfs (createConf : Nat → Option α) :
    List Module → Nat → List (Option α) → Option (List (Option α))
  | [], _, moduleConf => some moduleConf
  | m :: ms, i, moduleConf =>
    if m.creates then
      match createConf i with
      | none => none
      | some rv => createConfs createConf ms (i + 1) (moduleConf.set m.ctxIndex (some rv))
    else createConfs createConf ms (i + 1) moduleConf

/-- The `init_conf` loop from the position `i` on. -/
def initConfs (initConf : Nat → Bool) : List Module → Nat → Bool
  | [], _ => true
  | m :: ms, i =>
    if m.inits then
      if initConf i then initConfs initConf ms (i + 1) else false
    else initConfs initConf ms (i + 1)

/-- The end of a load that succeeds: the slot in use is emptied and its pool
destroyed, the other slot is filled and used. -/
def switchConf (conf : Ctx α κ) (pools : Pools) (dccf : Conf α κ δ) : Pools × Conf α κ δ :=
  let used := if dccf.used ≠ 0 then 0 else 1
  match dccf.conf dccf.used with
  | some old => (pools.destroy old.pool,
      { dccf with
        conf := Function.update (Function.update dccf.conf dccf.used none) used (some conf), used })
  | none => (pools, { dccf with conf := Function.update dccf.conf used (some conf), used })

/-- `ngx_dynamic_conf_load_conf` on a file that holds `text`: does it return
`NGX_OK`, and the pools and the configuration after it. -/
def loadConf (cycle : Cycle) (env : LoadEnv α κ) (text : κ) (pools : Pools) (dccf : Conf α κ δ) :
    Bool × Pools × Conf α κ δ :=
  if env.pool = false then (false, pools, dccf)
  else
    let pool := pools.made
    let pools := pools.create 1
    if env.conf = false ∨ env.moduleConf = false ∨ env.args = false ∨ env.tempPool = false then
      (false, pools.destroy pool, dccf)
    else
      let tempPool := pools.made
      let pools := (pools.create 1).create env.left
      let failed := (false, (pools.destroy tempPool).destroy pool, dccf)
      match createConfs env.createConf cycle.modules 0 (List.replicate cycle.coreMaxModule none) with
      | none => failed
      | some moduleConf =>
        if env.parse text = false then failed
        else if initConfs env.initConf cycle.modules 0 = false then failed
        else
          -- `temp_pool` is not destroyed here
          (true, switchConf ⟨moduleConf, pool, text⟩ pools dccf)

/-- `ngx_get_dconf`. -/
def getDconf (dccf : Conf α κ δ) (m : Module) : Option α :=
  match dccf.conf dccf.used with
  | none => none
  | some conf => conf.moduleConf[m.ctxIndex]?.join

/-! ## Runs -/

/-- Where the worker stands between two reads of the file. -/
inductive Pc (δ : Type) where
  /-- before `ngx_dynamic_conf_process_init` -/
  | start
  | initLoad
  | initMd5
  | initRecord (md5key : δ)
  /-- `ngx_dynamic_conf_process_init` returned `NGX_ERROR`: the worker exits -/
  | failed
  /-- no file is configured -/
  | off
  /-- the check timer is armed -/
  | idle
  | checkMd5
  | checkCompare (md5key : δ)
  | checkLoad (md5key : δ)
  | checkRecord (md5key : δ)
  /-- `ngx_dynamic_conf_check_conf` saw `ngx_exiting` -/
  | exiting
deriving DecidableEq, Repr

/-- A load that returned `NGX_OK`. -/
structure Load (α κ : Type) where
  env : LoadEnv α κ
  text : κ
  pool : Nat

/-- The file and the worker, with a record of the run that no step reads: the
loads that succeeded, the contents the file has had since the current check
began, and those of the last check that ended and could read the file. -/
structure World (α κ δ : Type) where
  file : κ
  dccf : Conf α κ δ
  pools : Pools
  pc : Pc δ
  loads : List (Load α κ)
  seen : List κ
  lastRun : Option (List κ)

inductive Label (α κ : Type) where
  /-- the writer replaces the content -/
  | write (text : κ)
  /-- the worker starts; does `ngx_open_file` succeed -/
  | init (fd : Bool)
  /-- the check timer fires -/
  | fire (exiting fd : Bool)
  | md5 (ok : Bool)
  | compare
  | load (env : LoadEnv α κ)
  | record

/-- The load step: the worker goes on at `ok`, or at `error` with the record
`run` of the check that ends there. -/
def World.load (w : World α κ δ) (cycle : Cycle) (env : LoadEnv α κ) (ok error : Pc δ)
    (run : Option (List κ)) : World α κ δ :=
  let r := loadConf cycle env w.file w.pools w.dccf
  { w with
    pools := r.2.1, dccf := r.2.2
    loads := if r.1 then ⟨env, w.file, w.pools.made⟩ :: w.loads else w.loads
    pc := if r.1 then ok else error
    lastRun := if r.1 then w.lastRun else run }

section
variable [DecidableEq δ]

/-- One step of the writer or the worker. -/
def World.step (cycle : Cycle) (md5 : κ → δ) (w : World α κ δ) : Label α κ → Option (World α κ δ)
  | .write text => some { w with file := text, seen := text :: w.seen }
  | .init fd =>
    match w.pc with
    | .start =>
      if w.dccf.file = false then some { w with pc := .off }
      else some { w with pc := if fd then .initLoad else .failed }
    | _ => none
  | .fire exiting fd =>
    match w.pc with
    | .idle =>
      if exiting then some { w with pc := .exiting }
      else some { w with pc := if fd then .checkMd5 else .idle, seen := [w.file], lastRun := none }
    | _ => none
  | .md5 ok =>
    match w.pc with
    | .initMd5 => some { w with pc := if ok then .initRecord (md5 w.file) else .failed }
    | .checkMd5 => some { w with pc := if ok then .checkCompare (md5 w.file) else .idle }
    | _ => none
  | .compare =>
    match w.pc with
    | .checkCompare md5key =>
      if w.dccf.md5key = some md5key then some { w with pc := .idle, lastRun := some w.seen }
      else some { w with pc := .checkLoad md5key }
    | _ => none
  | .load env =>
    match w.pc with
    | .initLoad => some (w.load cycle env .initMd5 .failed none)
    | .checkLoad md5key => some (w.load cycle env (.checkRecord md5key) .idle (some w.seen))
    | _ => none
  | .record =>
    match w.pc with
    | .initRecord md5key =>
      some { w with dccf := { w.dccf with md5key := some md5key }, pc := .idle }
    | .checkRecord md5key =>
      some { w with
        dccf := { w.dccf with md5key := some md5key }, pc := .idle, lastRun := some w.seen }
    | _ => none

/-- A worker whose cycle has the directive `dynamic_conf` (`configured`) or not,
on a file that holds `text`.  The directive sets `used` to 1. -/
def machine (cycle : Cycle) (md5 : κ → δ) (configured : Bool) (text : κ) :
    Machine (World α κ δ) (Label α κ) where
  start := {
    file := text
    dccf := ⟨fun _ => none, if configured then 1 else 0, configured, none⟩
    pools := ⟨0, []⟩
    pc := .start
    loads := []
    seen := []
    lastRun := none }
  step := World.step cycle md5

end

end NgxToolkit.DynamicConf
