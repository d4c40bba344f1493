import Mathlib.Data.List.Basic
import Mathlib.Tactic.Common
import NgxToolkit.DebugState
import NgxToolkit.Lib.Ascii
import NgxToolkit.Lib.Machine

/-! The trace ids and the debug level of a request (`ngx_http_trace_module.c`).

The handler of the POST_READ phase makes the context of a main request.  It copies the
ids from three headers, or draws new ids and adds the headers; and it raises the log level
of the connection for a request that asks for it.  The handler of the LOG phase puts
the level back.

* `handler`, `endHandler`: the two handlers.
* `connection`: the requests on a keep-alive connection. -/

namespace NgxToolkit.HttpTrace

open Lib

/-! ## Data -/

def NGX_LOG_DEBUG : Nat := 8

/-- `sizeof("http_") - 1` -/
def httpLen : Nat := 5

/-- `u_char[32]` -/
structure Id where
  bytes : List UInt8
  size : bytes.length = 32

def Id.zero : Id := ⟨List.replicate 32 0, List.length_replicate⟩

/-- `ngx_memcpy(id, v, ngx_min(len, sizeof(id)))` -/
def Id.memcpy (id : Id) (v : List UInt8) : Id where
  bytes := v.take (min v.length 32) ++ id.bytes.drop (min v.length 32)
  size := by
    have := id.size
    rw [List.length_append, List.length_take, List.length_drop]
    omega

def hexDigit (d : Nat) : UInt8 := (if d < 10 then 48 + d else 87 + d).toUInt8

/-- The text of `%08xD`. -/
def hex8 (n : BitVec 32) : List UInt8 :=
  (List.range 8).map fun i => hexDigit (n.toNat / 16 ^ (7 - i) % 16)

/-- `ngx_random32`, from what the calls of `ngx_random` return. -/
def random32 (n : Fin 4 → BitVec 32) : Id :=
  ⟨hex8 (n 0) ++ hex8 (n 1) ++ hex8 (n 2) ++ hex8 (n 3), rfl⟩

/-- `ngx_http_trace_ctx_t` -/
structure Ctx where
  traceid : Id
  cid : Id
  pid : Id
  debug : Bool
  rawLevel : Nat

/-- The memory of `ngx_pcalloc`. -/
def Ctx.zero : Ctx := ⟨.zero, .zero, .zero, false, 0⟩

/-- `ngx_table_elt_t`; a header that is taken out of the list has the hash 0. -/
structure Header where
  key : List UInt8
  value : List UInt8
  lowcaseKey : Option (List UInt8)
  hash : Nat

/-- What the handlers use of `ngx_http_request_t`. -/
structure Request where
  /-- `r == r->main` -/
  main : Bool
  headers : List Header
  ctx : Option Ctx

/-- `r->connection->log`; `traced` says that its handler is `ngx_http_trace_log_error`. -/
structure Log where
  level : Nat
  traced : Bool

inductive Ret where
  | declined
  | internalServerError
  deriving DecidableEq

/-! ## nginx core -/

/-- A header name as the variables `$http_...` spell it. -/
def varName (key : List UInt8) : List UInt8 :=
  key.map fun c => if tolower c = 45 then 95 else tolower c

/-- `ngx_http_variable_unknown_header`, `none` for `not_found`, and `ngx_hash_strlow`,
the text in lower case with its hash. -/
structure Core where
  unknownHeader : List Header → List UInt8 → Nat → Option (List UInt8)
  hashStrlow : List UInt8 → List UInt8 × Nat
  unknownHeader_some : ∀ headers var n v, unknownHeader headers var n = some v →
    ∃ h ∈ headers, h.hash ≠ 0 ∧ varName h.key = var.drop n ∧ h.value = v
  unknownHeader_none : ∀ headers var n, unknownHeader headers var n = none →
    ∀ h ∈ headers, h.hash ≠ 0 → varName h.key ≠ var.drop n
  hashStrlow_eq : ∀ key, hashStrlow key =
    (key.map tolower, (key.map tolower).foldl (fun hash c => (hash * 31 + c.toNat) % 2 ^ 64) 0)

/-- The first header that has the name. -/
def firstCore : Core where
  unknownHeader headers var n :=
    (headers.find? fun h => h.hash != 0 && varName h.key == var.drop n).map Header.value
  hashStrlow key :=
    (key.map tolower, (key.map tolower).foldl (fun hash c => (hash * 31 + c.toNat) % 2 ^ 64) 0)
  unknownHeader_some headers var n v hv := by
    obtain ⟨h, hfind, rfl⟩ := Option.map_eq_some_iff.mp hv
    have hnamed := List.find?_some hfind
    rw [Bool.and_eq_true, bne_iff_ne, beq_iff_eq] at hnamed
    exact ⟨h, List.mem_of_find?_eq_some hfind, hnamed.1, hnamed.2, rfl⟩
  unknownHeader_none headers var n hnone h hmem hlive hname := by
    have hno := List.find?_eq_none.mp (Option.map_eq_none_iff.mp hnone) h hmem
    rw [Bool.and_eq_true, bne_iff_ne, beq_iff_eq] at hno
    exact hno ⟨hlive, hname⟩
  hashStrlow_eq _ := rfl

/-! ## The ids -/

inductive IdField where
  | traceid
  | currentid
  | parentid
  deriving DecidableEq

namespace IdField

def header : IdField → List UInt8
  | traceid => bytes "X-NTM-Traceid"
  | currentid => bytes "X-NTM-Currentid"
  | parentid => bytes "X-NTM-Parentid"

def var : IdField → List UInt8
  | traceid => bytes "http_x_ntm_traceid"
  | currentid => bytes "http_x_ntm_currentid"
  | parentid => bytes "http_x_ntm_parentid"

def id : IdField → Ctx → Id
  | traceid => Ctx.traceid
  | currentid => Ctx.cid
  | parentid => Ctx.pid

def set (ctx : Ctx) (id : Id) : IdField → Ctx
  | traceid => { ctx with traceid := id }
  | currentid => { ctx with cid := id }
  | parentid => { ctx with pid := id }

end IdField

/-- What the calls for an added header return: whether `ngx_list_push` and `ngx_pnalloc`
have memory, and which hash is in it before. -/
structure Push where
  elt : Bool
  lowcase : Bool
  prior : Nat

/-- What the calls of nginx core return to `ngx_http_trace_handler`: whether `ngx_pcalloc`
has memory, the numbers of `ngx_random`, and the calls for the added headers. -/
structure Calls where
  pcalloc : Bool
  traceid : Fin 4 → BitVec 32
  cid : Fin 4 → BitVec 32
  push : IdField → Push

section
variable (core : Core)

/-- A header is added; `false` for `NGX_ERROR`. -/
def pushHeader (p : Push) (key : List UInt8) (id : Id) (headers : List Header) :
    Bool × List Header :=
  if p.elt = false then (false, headers)
  else if p.lowcase = false then (false, headers ++ [⟨key, id.bytes, none, p.prior⟩])
  else
    let (lowcaseKey, hash) := core.hashStrlow key
    (true, headers ++ [⟨key, id.bytes, some lowcaseKey, hash⟩])

/-- `ngx_http_trace_first_request` -/
def firstRequest (calls : Calls) (ctx : Ctx) (headers : List Header) :
    Bool × Ctx × List Header :=
  let ctx := { ctx with
    traceid := random32 calls.traceid
    cid := random32 calls.cid
    pid := ⟨List.replicate 32 48, List.length_replicate⟩ }
  match pushHeader core (calls.push .traceid) IdField.traceid.header ctx.traceid headers with
  | (false, headers) => (false, ctx, headers)
  | (true, headers) =>
    match pushHeader core (calls.push .currentid) IdField.currentid.header ctx.cid headers with
    | (false, headers) => (false, ctx, headers)
    | (true, headers) =>
      let (ok, headers) :=
        pushHeader core (calls.push .parentid) IdField.parentid.header ctx.pid headers
      (ok, ctx, headers)

/-- An id is copied from its header; `none` for `goto notfound`. -/
def readId (headers : List Header) (f : IdField) (ctx : Ctx) : Option Ctx :=
  (core.unknownHeader headers f.var httpLen).map fun v => f.set ctx ((f.id ctx).memcpy v)

/-- The ids are copied one after the other; `false` for `goto notfound`. -/
def readIds (headers : List Header) (ctx : Ctx) : Bool × Ctx :=
  match readId core headers .traceid ctx with
  | none => (false, ctx)
  | some ctx =>
    match readId core headers .currentid ctx with
    | none => (false, ctx)
    | some ctx =>
      match readId core headers .parentid ctx with
      | none => (false, ctx)
      | some ctx => (true, ctx)

/-- The request has the header `X-NTM-Debug: 1`. -/
def asksDebug (headers : List Header) : Bool :=
  match core.unknownHeader headers (bytes "http_x_ntm_debug") httpLen with
  | none => false
  | some v => v == [49]

/-- The context of a request, and the log level that it asks for. -/
def startDebug (headers : List Header) (log : Log) : Ctx × Log :=
  if asksDebug core headers then
    ({ Ctx.zero with debug := true, rawLevel := log.level }, { log with level := NGX_LOG_DEBUG })
  else (Ctx.zero, log)

/-- The ids are from the headers, or new ones behind `notfound`. -/
def fillIds (calls : Calls) (ctx : Ctx) (headers : List Header) : Bool × Ctx × List Header :=
  match readIds core headers ctx with
  | (true, ctx) => (true, ctx, headers)
  | (false, ctx) => firstRequest core calls ctx headers

/-- `ngx_http_trace_handler`; `trace` is `tmcf->trace`. -/
def handler (trace : Bool) (calls : Calls) (r : Request) (log : Log) : Ret × Request × Log :=
  if r.main = false then (.declined, r, log)
  else if trace = false then (.declined, r, log)
  -- entered twice
  else if r.ctx.isSome then (.declined, r, log)
  else if calls.pcalloc = false then (.internalServerError, r, log)
  else
    let (ctx, log) := startDebug core r.headers { log with traced := true }
    let (ok, ctx, headers) := fillIds core calls ctx r.headers
    (if ok then .declined else .internalServerError, { r with headers, ctx := some ctx }, log)

end

/-- `ngx_http_trace_end_handler` -/
def endHandler (r : Request) (log : Log) : Log :=
  match r.ctx with
  | none => log
  | some ctx => if ctx.debug = false then log else { log with level := ctx.rawLevel }

/-- The variables of the ids; `none` for `not_found`. -/
def idVariable (id : Ctx → Id) (r : Request) : Option (List UInt8) :=
  r.ctx.map fun ctx => (id ctx).bytes

/-- `ngx_http_trace_traceid_variable` -/
def traceidVariable : Request → Option (List UInt8) := idVariable Ctx.traceid

/-- `ngx_http_trace_currentid_variable` -/
def currentidVariable : Request → Option (List UInt8) := idVariable Ctx.cid

/-- `ngx_http_trace_parentid_variable` -/
def parentidVariable : Request → Option (List UInt8) := idVariable Ctx.pid

def IdField.variable : IdField → Request → Option (List UInt8)
  | traceid => traceidVariable
  | currentid => currentidVariable
  | parentid => parentidVariable

/-- The text of three ids in the error log. -/
def logText (traceid currentid parentid : List UInt8) : List UInt8 :=
  bytes ", [NGINX-TRACE] traceid: " ++ traceid ++ bytes ", currentid: " ++ currentid ++
    bytes ", parentid: " ++ parentid ++ bytes " [NGINX-TRACE-END]"

/-- What `ngx_http_trace_log_error` adds to the text of nginx. -/
def logIds (r : Request) : List UInt8 :=
  match r.ctx with
  | none => []
  | some ctx => logText ctx.traceid.bytes ctx.cid.bytes ctx.pid.bytes

/-! ## Requests on a connection -/

/-- A request between its POST_READ and LOG phases, with what it came with. -/
structure Active where
  request : Request
  sent : List Header
  calls : Calls
  redirects : Nat
  /-- the log level before `ngx_http_trace_handler` -/
  before : Nat

/-- A request whose LOG phase is over, with the log level after it. -/
structure Served where
  active : Active
  after : Nat

structure Conn where
  log : Log
  active : Option Active
  served : List Served

inductive Label where
  /-- the headers of a request are read -/
  | postRead (sent : List Header) (calls : Calls)
  /-- `ngx_http_internal_redirect` clears the contexts -/
  | redirect
  | log

/-- Requests of a connection come one after the other.  The two handlers are all that
writes `log_level`: that nginx core leaves it alone between them is an assumption. -/
def Conn.step (core : Core) (trace : Bool) (s : Conn) : Label → Option Conn
  | .postRead sent calls =>
    match s.active with
    | some _ => none
    | none =>
      let (_, request, log) := handler core trace calls ⟨true, sent, none⟩ s.log
      some { s with log, active := some ⟨request, sent, calls, 0, s.log.level⟩ }
  | .redirect =>
    s.active.map fun a =>
      { s with
        active := some { a with
          request := { a.request with ctx := none }
          redirects := a.redirects + 1 } }
  | .log =>
    s.active.map fun a =>
      let log := endHandler a.request s.log
      { log, active := none, served := ⟨a, log.level⟩ :: s.served }

def connection (core : Core) (trace : Bool) (log : Log) : Machine Conn Label where
  start := ⟨log, none, []⟩
  step := Conn.step core trace

end NgxToolkit.HttpTrace
