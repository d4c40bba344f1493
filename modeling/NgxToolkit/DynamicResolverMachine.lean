import Mathlib.Tactic.Common
import NgxToolkit.DynamicResolver

/-! The dynamic resolver as a machine.

`add`, `del`, `start` and `host` are calls of the four functions, from the
event loop or from a user handler that is running.  `reply` is the event
resolver's answer to a query: at once, while the query is the last thing that
happened, or later from the event loop.  `timer` starts
`ngx_dynamic_resolver_on_timer`.  `run` takes the C function on top of the
stack one turn of its loop further, and `ret` is the return of the user handler
that it has called.

* `World.steps_of_step`: what a step can do, one case for each branch. -/

namespace NgxToolkit.DynamicResolver

open Lib

/-- What a user handler is called with: `NULL`, the address that the domain
text is, or an address slot. -/
inductive Arg where
  | null
  | literal (len : Nat)
  | addr (slot : Slot)
deriving DecidableEq

/-- A query of the event resolver: the record it will be answered to and the
name asked for.  `add` is the number of the last add of the name. -/
structure Query where
  dom : Nat
  name : List UInt8
  add : Option Nat
deriving DecidableEq

/-- A C function that has not returned; `ctx` is the context whose user handler
it has called, if that is running. -/
inductive Frame where
  /-- `ngx_dynamic_resolver_start_resolver` in `h(data, ..)`, its last action -/
  | direct
  /-- `ngx_dynamic_resolver_on_result` in the loop of a failure -/
  | fail (q : Query) (ctx : Option Nat)
  /-- `ngx_dynamic_resolver_on_result` at the head of its loop over `i` -/
  | store (q : Query) (rep : List Addr) (i : Nat)
  /-- `ngx_dynamic_resolver_on_result` in its inner loop -/
  | wait (q : Query) (rep : List Addr) (i n : Nat) (ctx : Option Nat)
  /-- `ngx_dynamic_resolver_del_domain` in its inner loop -/
  | del (d : Nat) (ctx : Option Nat)
  /-- `ngx_dynamic_resolver_on_timer` in bucket `i`, about to look at `domain` -/
  | tick (i : Nat) (domain : Option Nat)
  /-- the same behind the query for `d` -/
  | ticked (i d : Nat)

/-- A call of `ngx_dynamic_resolver_start_resolver`; `add` is the number of the
add on whose entry it waits. -/
structure Start (η δ : Type) where
  h : η
  data : δ
  add : Option Nat

/-- A user call: for which start call, with what, and by which reply. -/
structure Call (η δ : Type) where
  start : Nat
  h : η
  data : δ
  arg : Arg
  reply : Option Query

/-- The worker, with a record of the run that no step reads: the start calls,
the user calls, the start call of each context, the names in the table with the
number of their add and the addresses of the last good reply since then, how
many adds there were and which one each record serves. -/
structure World (η δ : Type) where
  conf : Conf η δ
  queries : List Query
  fresh : Option Query
  stack : List Frame
  fault : Option Fault
  started : List (Start η δ)
  called : List (Call η δ)
  owner : Nat → Nat
  live : List UInt8 → Option (Nat × List Addr)
  adds : Nat
  inc : Nat → Nat

variable {η δ : Type}

def World.crash (w : World η δ) (f : Fault) : World η δ := { w with fault := some f }

/-- `ctx->h(ctx->data, ..)` on the context `ctx` in the configuration `s`. -/
def World.invoke (w : World η δ) (s : Conf η δ) (stack : List Frame) (ctx : Nat) (arg : Arg)
    (reply : Option Query) : World η δ :=
  match (s.ctx ctx).h, (s.ctx ctx).data with
  | some h, some data =>
    { w with
      conf := s, stack, called := ⟨w.owner ctx, h, data, arg, reply⟩ :: w.called }
  | _, _ => w.crash .nullCall

/-- `h(data, ..)` at the end of `ngx_dynamic_resolver_start_resolver`. -/
def World.direct (w : World η δ) (h : η) (data : δ) (arg : Arg) : World η δ :=
  { w with
    stack := .direct :: w.stack
    called := ⟨w.started.length, h, data, arg, none⟩ :: w.called
    started := w.started ++ [⟨h, data, none⟩] }

/-- `ngx_event_resolver_start_resolver` for the record `d`. -/
def World.issue (w : World η δ) (d : Nat) : World η δ :=
  let name := (w.conf.dom d).domain
  let q : Query := ⟨d, name, (w.live name).map (·.1)⟩
  { w with queries := q :: w.queries, fresh := some q }

/-- The record of an entry made for `temp`. -/
def World.enter (w : World η δ) (temp : List UInt8) (d : Nat) : World η δ :=
  { w with
    live := Function.update w.live temp (some (w.adds, []))
    inc := Function.update w.inc d w.adds
    adds := w.adds + 1 }

/-- The record of a reply to `q`. -/
def World.answer (w : World η δ) (q : Query) (rep : List Addr) : World η δ :=
  match w.live q.name with
  | some (i, _) =>
    if q.add = some i ∧ rep ≠ [] then
      { w with live := Function.update w.live q.name (some (i, rep)) }
    else w
  | none => w

/-! ## Steps -/

/-- `ngx_dynamic_resolver_add_domain`. -/
def World.add (pton : List UInt8 → Nat) (w : World η δ) (domain : Option (List UInt8))
    (pcalloc : Bool) : World η δ :=
  match domain with
  | none | some [] => w
  | some domain =>
    if pton domain ≠ 0 ∨ w.conf.refreshInterval = 0 ∨ maxDomainLen < domain.length then w
    else
      match w.conf.hashFault with
      | some f => w.crash f
      | none =>
        let temp := strlow domain
        match addSearch w.conf temp w.conf.nallocDomain with
        | none => w.crash .spin
        | some (some _) => w
        | some none =>
          match addEntry w.conf temp pcalloc with
          | (none, conf) => { w with conf }
          | (some d, conf) => { w with conf }.enter temp d

/-- `ngx_dynamic_resolver_del_domain` up to its inner loop. -/
def World.del (pton : List UInt8 → Nat) (w : World η δ) (domain : Option (List UInt8)) :
    World η δ :=
  match domain with
  | none | some [] => w
  | some domain =>
    if pton domain ≠ 0 ∨ w.conf.refreshInterval = 0 ∨ maxDomainLen < domain.length then w
    else
      match w.conf.hashFault with
      | some f => w.crash f
      | none =>
        let temp := strlow domain
        let gone : World η δ := { w with live := Function.update w.live temp none }
        match delSearch w.conf temp w.conf.nallocDomain with
        | none => w.crash .spin
        | some none => gone
        | some (some (pd, d)) =>
          { gone with
            conf := w.conf.unlink (w.conf.idx temp) pd d, stack := .del d none :: w.stack }

/-- `ngx_dynamic_resolver_start_resolver` on the entry `d`. -/
def World.startEntry (w : World η δ) (d : Nat) (h : η) (data : δ) (pcalloc : Bool) (rand : Nat) :
    World η δ :=
  let naddrs := (w.conf.dom d).naddrs
  if naddrs = 0 then
    match getCtx w.conf pcalloc with
    | (none, conf) => { w with conf }.direct h data .null
    | (some ctx, conf) =>
      let w : World η δ := { w with
        conf := pushCtx conf d ctx h data
        owner := Function.update w.owner ctx w.started.length
        started := w.started ++ [⟨h, data, some (w.inc d)⟩] }
      w.issue d
  else w.direct h data (.addr ((w.conf.dom d).addrs (rand % naddrs)))

/-- `ngx_dynamic_resolver_start_resolver`; `pcallocDomain` and `pcallocCtx` say
whether the allocations succeed, `rand` is `ngx_random()`. -/
def World.start (pton : List UInt8 → Nat) (w : World η δ) (domain : Option (List UInt8)) (h : η)
    (data : δ) (pcallocDomain pcallocCtx : Bool) (rand : Nat) : World η δ :=
  let returned : World η δ := { w with started := w.started ++ [⟨h, data, none⟩] }
  match domain with
  | none | some [] => returned
  | some domain =>
    if pton domain ≠ 0 then w.direct h data (.literal (pton domain))
    else if w.conf.refreshInterval = 0 ∨ maxDomainLen < domain.length then w.direct h data .null
    else
      match w.conf.hashFault with
      | some f => returned.crash f
      | none =>
        let temp := strlow domain
        match startSearch w.conf temp w.conf.nallocDomain with
        | none => returned.crash .spin
        | some (some d) => w.startEntry d h data pcallocCtx rand
        | some none =>
          match addEntry w.conf temp pcallocDomain with
          | (none, conf) => { w with conf }.direct h data .null
          | (some d, conf) => ({ w with conf }.enter temp d).startEntry d h data pcallocCtx rand

/-- `ngx_dynamic_resolver_gethostbyname`. -/
def gethostbyname (pton : List UInt8 → Nat) (s : Conf η δ) (domain : Option (List UInt8))
    (rand : Nat) : Except Fault Arg :=
  match domain with
  | none => .ok .null
  | some domain =>
    if pton domain ≠ 0 then .ok (.literal (pton domain))
    else if s.refreshInterval = 0 ∨ maxDomainLen < domain.length then .ok .null
    else
      match s.hashFault with
      | some f => .error f
      | none =>
        match hostSearch s (strlow domain) s.nallocDomain with
        | none => .error .spin
        | some none => .ok .null
        | some (some d) =>
          let naddrs := (s.dom d).naddrs
          if naddrs = 0 then .ok .null else .ok (.addr ((s.dom d).addrs (rand % naddrs)))

/-- `ngx_dynamic_resolver_on_result` up to its loops. -/
def World.onResult (w : World η δ) (q : Query) (rep : List Addr) : World η δ :=
  if rep.length = 0 then { w with stack := .fail q none :: w.stack }
  else
    let domain := w.conf.dom q.dom
    { w with
      conf := w.conf.setDom q.dom { domain with naddrs := min rep.length maxAddrs }
      stack := .store q rep 0 :: w.stack }

/-- `ngx_dynamic_resolver_on_timer` up to its first record. -/
def World.timer (w : World η δ) (exiting : Bool) : World η δ :=
  if exiting = true ∨ w.conf.domainBuckets = 0 then w
  else if w.conf.hashed = false then w.crash .nullHash
  else { w with stack := .tick 0 (w.conf.resolverHash 0) :: w.stack }

/-- The C function on top of the stack goes on; `rand` is `ngx_random()`. -/
def World.run (w : World η δ) (rand : Nat) : Option (World η δ) :=
  match w.stack with
  | .fail q none :: stack =>
    match popCtx w.conf q.dom with
    | none => some { w with stack }
    | some (ctx, s) => some (w.invoke s (.fail q (some ctx) :: stack) ctx .null (some q))
  | .store q rep i :: stack =>
    let domain := w.conf.dom q.dom
    if i < domain.naddrs then
      match rep[i]? with
      | none => some (w.crash .overread)
      | some a => some { w with
          conf := w.conf.setDom q.dom { domain with addrs := storeAddr domain.addrs i a }
          stack := .wait q rep i (rand % domain.naddrs) none :: stack }
    else some { w with stack }
  | .wait q rep i n none :: stack =>
    match popCtx w.conf q.dom with
    | none => some { w with stack := .store q rep (i + 1) :: stack }
    | some (ctx, s) =>
      some (w.invoke s (.wait q rep i n (some ctx) :: stack) ctx
        (.addr ((w.conf.dom q.dom).addrs n)) (some q))
  | .del d none :: stack =>
    match popCtx w.conf d with
    | none => some { w with conf := putDomain w.conf d, stack }
    | some (ctx, s) => some (w.invoke s (.del d (some ctx) :: stack) ctx .null none)
  | .tick i (some d) :: stack => some ({ w with stack := .ticked i d :: stack }.issue d)
  | .ticked i d :: stack => some { w with stack := .tick i (w.conf.dom d).next :: stack }
  | .tick i none :: stack =>
    if i + 1 < w.conf.domainBuckets then
      some { w with stack := .tick (i + 1) (w.conf.resolverHash (i + 1)) :: stack }
    else some { w with stack }
  | _ => none

/-- The user handler that the C function on top of the stack has called returns. -/
def World.ret (w : World η δ) : Option (World η δ) :=
  match w.stack with
  | .direct :: stack => some { w with stack }
  | .fail q (some ctx) :: stack =>
    some { w with conf := putCtx w.conf ctx, stack := .fail q none :: stack }
  | .wait q rep i n (some ctx) :: stack =>
    let naddrs := (w.conf.dom q.dom).naddrs
    if naddrs = 0 then some (w.crash .divByZero)
    else some { w with
      conf := putCtx w.conf ctx, stack := .wait q rep i ((n + 1) % naddrs) none :: stack }
  | .del d (some ctx) :: stack =>
    some { w with conf := putCtx w.conf ctx, stack := .del d none :: stack }
  | _ => none

inductive Label (η δ : Type) where
  | add (domain : Option (List UInt8)) (pcalloc : Bool)
  | del (domain : Option (List UInt8))
  | start (domain : Option (List UInt8)) (h : η) (data : δ) (pcallocDomain pcallocCtx : Bool)
    (rand : Nat)
  | host (domain : Option (List UInt8)) (rand : Nat)
  | reply (q : Query) (rep : List Addr)
  | timer (exiting : Bool)
  | run (rand : Nat)
  | ret

/-- Is user code running: in the event loop or in a handler? -/
def World.user (w : World η δ) : Bool :=
  match w.stack with
  | [] | .direct :: _ | .fail _ (some _) :: _ | .wait _ _ _ _ (some _) :: _
  | .del _ (some _) :: _ => true
  | _ => false

def World.step (pton : List UInt8 → Nat) (w : World η δ) (l : Label η δ) : Option (World η δ) :=
  let u := { w with fresh := none }
  if w.fault ≠ none then none
  else
    match l with
    | .add domain pcalloc => if w.user then some (u.add pton domain pcalloc) else none
    | .del domain => if w.user then some (u.del pton domain) else none
    | .start domain h data pcallocDomain pcallocCtx rand =>
      if w.user then some (u.start pton domain h data pcallocDomain pcallocCtx rand) else none
    | .host domain rand =>
      if w.user then
        match gethostbyname pton w.conf domain rand with
        | .ok _ => some u
        | .error f => some (u.crash f)
      else none
    | .reply q rep =>
      if q ∈ w.queries ∧ (w.stack = [] ∨ w.fresh = some q) then
        some (({ u with queries := w.queries.erase q }.answer q rep).onResult q rep)
      else none
    | .timer exiting =>
      if w.stack = [] ∧ w.conf.refreshInterval ≠ 0 then some (u.timer exiting) else none
    | .run rand => u.run rand
    | .ret => u.ret

/-- The steps of `World.step`, each where it is possible. -/
inductive World.Steps (pton : List UInt8 → Nat) (w : World η δ) : Label η δ → World η δ → Prop
  | add {domain : Option (List UInt8)} {pcalloc : Bool} (huser : w.user = true) :
      Steps pton w (.add domain pcalloc) (World.add pton { w with fresh := none } domain pcalloc)
  | del {domain : Option (List UInt8)} (huser : w.user = true) :
      Steps pton w (.del domain) (World.del pton { w with fresh := none } domain)
  | start {domain : Option (List UInt8)} {h : η} {data : δ} {pcallocDomain pcallocCtx : Bool}
      {rand : Nat} (huser : w.user = true) :
      Steps pton w (.start domain h data pcallocDomain pcallocCtx rand)
        (World.start pton { w with fresh := none } domain h data pcallocDomain pcallocCtx rand)
  | host {domain : Option (List UInt8)} {rand : Nat} {arg : Arg} (huser : w.user = true)
      (hhost : gethostbyname pton w.conf domain rand = .ok arg) :
      Steps pton w (.host domain rand) { w with fresh := none }
  | hostFault {domain : Option (List UInt8)} {rand : Nat} {e : Fault} (huser : w.user = true)
      (hhost : gethostbyname pton w.conf domain rand = .error e) :
      Steps pton w (.host domain rand) (World.crash { w with fresh := none } e)
  | reply {q : Query} {rep : List Addr} (hq : q ∈ w.queries)
      (hwhen : w.stack = [] ∨ w.fresh = some q) :
      Steps pton w (.reply q rep) ((World.answer { w with
        fresh := none, queries := w.queries.erase q } q rep).onResult q rep)
  | timer {exiting : Bool} (hstack : w.stack = [])
      (hleft : exiting = true ∨ w.conf.domainBuckets = 0) :
      Steps pton w (.timer exiting) { w with fresh := none }
  | timerFault {exiting : Bool} (hstack : w.stack = []) (hbuckets : w.conf.domainBuckets ≠ 0)
      (hhashed : w.conf.hashed = false) :
      Steps pton w (.timer exiting) (World.crash { w with fresh := none } .nullHash)
  | tick {exiting : Bool} (hstack : w.stack = []) (hbuckets : w.conf.domainBuckets ≠ 0)
      (hhashed : w.conf.hashed = true) :
      Steps pton w (.timer exiting)
        { w with fresh := none, stack := .tick 0 (w.conf.resolverHash 0) :: w.stack }
  | run {rand : Nat} {w' : World η δ} (hrun : World.run { w with fresh := none } rand = some w') :
      Steps pton w (.run rand) w'
  | ret {w' : World η δ} (hret : World.ret { w with fresh := none } = some w') :
      Steps pton w .ret w'

/-- **What a step can do.** -/
theorem World.steps_of_step {pton : List UInt8 → Nat} {w w' : World η δ} {l : Label η δ}
    (h : w.step pton l = some w') : w.fault = none ∧ w.Steps pton l w' := by
  unfold World.step at h
  dsimp only at h
  split at h
  · cases h
  next hfault =>
  refine ⟨not_not.mp hfault, ?_⟩
  cases l with
  | add | del | start =>
    dsimp only at h
    split at h <;> cases h
    constructor
    assumption
  | host domain rand =>
    dsimp only at h
    split at h
    · next huser =>
      split at h
      · next hhost =>
        cases h
        exact .host huser hhost
      · next hhost =>
        cases h
        exact .hostFault huser hhost
    · cases h
  | reply q rep =>
    dsimp only at h
    split at h <;> cases h
    next hq => exact .reply hq.1 hq.2
  | timer exiting =>
    dsimp only at h
    split at h <;> cases h
    next hstack =>
    unfold World.timer
    split
    · next hleft => exact .timer hstack.1 hleft
    · next hleft =>
      have hbuckets : w.conf.domainBuckets ≠ 0 := fun hb => hleft (.inr hb)
      split
      · next hhashed => exact .timerFault hstack.1 hbuckets hhashed
      · next hhashed => exact .tick hstack.1 hbuckets (Bool.eq_true_of_not_eq_false hhashed)
  | run rand => exact .run h
  | ret => exact .ret h

/-- A worker with the given settings and with heaps of zero bytes. -/
def machine (pton : List UInt8 → Nat) (refreshInterval domainBuckets : Nat) (hashed : Bool) :
    Machine (World η δ) (Label η δ) where
  start := {
    conf := {
      refreshInterval, domainBuckets, hashed, resolverHash := fun _ => none
      freeCtx := none, freeDomain := none
      nallocCtx := 0, nfreeCtx := 0, nallocDomain := 0, nfreeDomain := 0
      ctx := fun _ => ⟨none, none, none⟩, dom := fun _ => zeroDomain }
    queries := [], fresh := none, stack := [], fault := none, started := [], called := []
    owner := fun _ => 0, live := fun _ => none, adds := 0, inc := fun _ => 0 }
  step := World.step pton

end NgxToolkit.DynamicResolver
