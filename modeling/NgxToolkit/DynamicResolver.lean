import Mathlib.Logic.Function.Basic
import Mathlib.Tactic.Common
import NgxToolkit.Lib.Ascii
import NgxToolkit.Lib.Chain
import NgxToolkit.Lib.Machine

/-! The dynamic resolver (`ngx_dynamic_resolver.c`): a hash table of domain
records that are refreshed by a timer, and lists of callers that wait for the
first answer.

Records and contexts live in two heaps and are named by numbers in the order
of their allocation; `nallocDomain` and `nallocCtx` are the next numbers.  Both
go back to a free list and are reused.  A query that the event resolver has not
answered carries the pointer of its record.

`pton` is the length `ngx_sock_pton` returns for a text, 0 if it is no address.
User handlers may call back, so the machine keeps the C stack of functions that
are interrupted by one; `fault` says that the C code does not go on. -/

namespace NgxToolkit.DynamicResolver

open Lib

/-- `MAX_DOMAIN_LEN`. -/
def maxDomainLen : Nat := 128

/-- `MAX_ADDRS`. -/
def maxAddrs : Nat := 8

/-- `ngx_resolver_addr_t`; `socklen` is the length of `sockaddr`, that of a
`sockaddr_in` or a `sockaddr_in6`. -/
structure Addr where
  sockaddr : List UInt8
  priority : Nat
  weight : Nat
  socklen_eq : sockaddr.length = 16 ∨ sockaddr.length = 28
deriving DecidableEq

/-- `ngx_dynamic_resolver_addr_t`; `sockaddr` has the 16 bytes of its type. -/
structure Slot where
  sockaddr : List UInt8
  socklen : Nat
  priority : Nat
  weight : Nat
deriving DecidableEq

/-- `ngx_dynamic_resolver_ctx_t`. -/
structure Ctx (η δ : Type) where
  h : Option η
  data : Option δ
  next : Option Nat

/-- `ngx_dynamic_resolver_domain_t`; `domain` are the first `domain.len` bytes
of `domain_cstr`. -/
structure Domain where
  domain : List UInt8
  naddrs : Nat
  addrs : Nat → Slot
  ctx : Option Nat
  next : Option Nat

def zeroSlot : Slot := ⟨List.replicate 16 0, 0, 0, 0⟩

/-- A record of zero bytes. -/
def zeroDomain : Domain := ⟨[], 0, fun _ => zeroSlot, none, none⟩

/-- `ngx_dynamic_resolver_conf_t` with its two heaps. -/
structure Conf (η δ : Type) where
  refreshInterval : Nat
  domainBuckets : Nat
  /-- `resolver_hash != NULL` -/
  hashed : Bool
  resolverHash : Nat → Option Nat
  freeCtx : Option Nat
  freeDomain : Option Nat
  nallocCtx : Nat
  nfreeCtx : Nat
  nallocDomain : Nat
  nfreeDomain : Nat
  ctx : Nat → Ctx η δ
  dom : Nat → Domain

variable {η δ : Type}

def Conf.setCtx (s : Conf η δ) (c : Nat) (x : Ctx η δ) : Conf η δ :=
  { s with ctx := Function.update s.ctx c x }

def Conf.setDom (s : Conf η δ) (d : Nat) (x : Domain) : Conf η δ :=
  { s with dom := Function.update s.dom d x }

@[simp]
theorem Conf.setDom_self (s : Conf η δ) (d : Nat) (x : Domain) : (s.setDom d x).dom d = x :=
  Function.update_self _ _ _

theorem Conf.setDom_of_ne (s : Conf η δ) {d e : Nat} (x : Domain) (h : e ≠ d) :
    (s.setDom d x).dom e = s.dom e :=
  Function.update_of_ne h _ _

theorem Conf.setDom_domain (s : Conf η δ) {d : Nat} {x : Domain}
    (h : x.domain = (s.dom d).domain) (e : Nat) :
    ((s.setDom d x).dom e).domain = (s.dom e).domain := by
  by_cases he : e = d
  · subst he
    rw [setDom_self, h]
  · rw [setDom_of_ne _ _ he]

/-- `ngx_dynamic_resolver_get_ctx`. -/
def getCtx (s : Conf η δ) (pcalloc : Bool) : Option Nat × Conf η δ :=
  match s.freeCtx with
  | none =>
    if pcalloc then
      (some s.nallocCtx,
        { s.setCtx s.nallocCtx ⟨none, none, none⟩ with nallocCtx := s.nallocCtx + 1 })
    else (none, s)
  | some ctx =>
    (some ctx,
      { s.setCtx ctx ⟨none, none, none⟩ with
        freeCtx := (s.ctx ctx).next, nfreeCtx := s.nfreeCtx - 1 })

/-- `ngx_dynamic_resolver_put_ctx`. -/
def putCtx (s : Conf η δ) (ctx : Nat) : Conf η δ :=
  { s.setCtx ctx { s.ctx ctx with next := s.freeCtx } with
    freeCtx := some ctx, nfreeCtx := s.nfreeCtx + 1 }

/-- `ngx_dynamic_resolver_get_domain`. -/
def getDomain (s : Conf η δ) (pcalloc : Bool) : Option Nat × Conf η δ :=
  match s.freeDomain with
  | none =>
    if pcalloc then
      (some s.nallocDomain,
        { s.setDom s.nallocDomain zeroDomain with nallocDomain := s.nallocDomain + 1 })
    else (none, s)
  | some domain =>
    (some domain,
      { s.setDom domain zeroDomain with
        freeDomain := (s.dom domain).next, nfreeDomain := s.nfreeDomain - 1 })

/-- `ngx_dynamic_resolver_put_domain`. -/
def putDomain (s : Conf η δ) (domain : Nat) : Conf η δ :=
  { s.setDom domain { s.dom domain with next := s.freeDomain } with
    freeDomain := some domain, nfreeDomain := s.nfreeDomain + 1 }

/-! ## The table -/

/-- The text that `ngx_hash_strlow` writes. -/
def strlow (text : List UInt8) : List UInt8 := text.map tolower

/-- The hash `ngx_hash_strlow` returns, from the lower-cased text. -/
def hashKey (temp : List UInt8) : Nat :=
  temp.foldl (fun key c => (key * 31 + c.toNat) % UInt64.size) 0

/-- The bucket of a lower-cased name. -/
def Conf.idx (s : Conf η δ) (temp : List UInt8) : Nat := hashKey temp % s.domainBuckets

/-- The comparison of a record with a lower-cased name. -/
def Conf.named (s : Conf η δ) (temp : List UInt8) (d : Nat) : Bool :=
  decide ((s.dom d).domain = temp)

/-- The loop of `ngx_dynamic_resolver_add_domain`, with fuel. -/
def addSearch (s : Conf η δ) (temp : List UInt8) (fuel : Nat) : Option (Option Nat) :=
  walk (fun d => (s.dom d).next) (s.named temp) fuel (s.resolverHash (s.idx temp))

/-- The loop of `ngx_dynamic_resolver_gethostbyname`, with fuel. -/
def hostSearch (s : Conf η δ) (temp : List UInt8) (fuel : Nat) : Option (Option Nat) :=
  walk (fun d => (s.dom d).next) (s.named temp) fuel (s.resolverHash (s.idx temp))

/-- The loop of `ngx_dynamic_resolver_start_resolver` at `d`: it moves a context
pointer on and leaves `d`. -/
def startLoop (ok : Nat → Bool) : Nat → Option Nat → Option (Option Nat)
  | _, none => some none
  | 0, some _ => none
  | fuel + 1, some d => if ok d then some (some d) else startLoop ok fuel (some d)

def startSearch (s : Conf η δ) (temp : List UInt8) (fuel : Nat) : Option (Option Nat) :=
  startLoop (s.named temp) fuel (s.resolverHash (s.idx temp))

/-- `*pd` in `ngx_dynamic_resolver_del_domain`: the bucket, or the link of a record. -/
def Conf.deref (s : Conf η δ) (idx : Nat) : Option Nat → Option Nat
  | none => s.resolverHash idx
  | some p => (s.dom p).next

/-- The loop of `ngx_dynamic_resolver_del_domain` at `pd`: the place and the
record found there. -/
def delLoop (s : Conf η δ) (ok : Nat → Bool) (idx : Nat) :
    Nat → Option Nat → Option (Option (Option Nat × Nat))
  | fuel, pd =>
    match fuel, s.deref idx pd with
    | _, none => some none
    | 0, some _ => none
    | fuel + 1, some d => if ok d then some (some (pd, d)) else delLoop s ok idx fuel (some d)

def delSearch (s : Conf η δ) (temp : List UInt8) (fuel : Nat) :
    Option (Option (Option Nat × Nat)) :=
  delLoop s (s.named temp) (s.idx temp) fuel none

/-- `*pd = (*pd)->next` where `*pd` is the record `d`. -/
def Conf.unlink (s : Conf η δ) (idx : Nat) (pd : Option Nat) (d : Nat) : Conf η δ :=
  match pd with
  | none => { s with resolverHash := Function.update s.resolverHash idx (s.dom d).next }
  | some p => s.setDom p { s.dom p with next := (s.dom d).next }

/-- The record `d` gets the name `temp` and is put in front of its bucket. -/
def Conf.link (s : Conf η δ) (temp : List UInt8) (d : Nat) : Conf η δ :=
  { s.setDom d { s.dom d with next := s.resolverHash (s.idx temp), domain := temp } with
    resolverHash := Function.update s.resolverHash (s.idx temp) (some d) }

/-- What `ngx_dynamic_resolver_add_domain` and `ngx_dynamic_resolver_start_resolver`
do for a name that is not found. -/
def addEntry (s : Conf η δ) (temp : List UInt8) (pcalloc : Bool) : Option Nat × Conf η δ :=
  match getDomain s pcalloc with
  | (none, s) => (none, s)
  | (some d, s) => (some d, s.link temp d)

/-- Why the C code does not go on. -/
inductive Fault where
  /-- the loop of `ngx_dynamic_resolver_start_resolver` does not end -/
  | spin
  /-- a modulo by zero -/
  | divByZero
  /-- `resolver_hash` is `NULL` -/
  | nullHash
  /-- a read behind the addresses of a reply -/
  | overread
  /-- a call of a null handler -/
  | nullCall
deriving DecidableEq, Repr

/-- What goes wrong in the access to the bucket of a name. -/
def Conf.hashFault (s : Conf η δ) : Option Fault :=
  if s.domainBuckets = 0 then some .divByZero else if s.hashed = false then some .nullHash else none

/-- `while (domain->ctx)`: the first context is taken off the list. -/
def popCtx (s : Conf η δ) (d : Nat) : Option (Nat × Conf η δ) :=
  match (s.dom d).ctx with
  | none => none
  | some ctx => some (ctx, s.setDom d { s.dom d with ctx := (s.ctx ctx).next })

/-- The context that `ngx_dynamic_resolver_start_resolver` puts on the list of `d`. -/
def pushCtx (s : Conf η δ) (d ctx : Nat) (h : η) (data : δ) : Conf η δ :=
  (s.setCtx ctx ⟨some h, some data, (s.dom d).ctx⟩).setDom d { s.dom d with ctx := some ctx }

/-- The copy of an address into slot `i`.  The bytes from the 17th on fall on
`socklen`, `priority` and `weight`, which are written next, those from the 25th
on fall on the next slot (on `ctx` behind the last one: they are the scope id 0
and `ctx` is `NULL` then). -/
def storeAddr (addrs : Nat → Slot) (i : Nat) (a : Addr) : Nat → Slot :=
  let excess := a.sockaddr.drop 24
  let next := addrs (i + 1)
  Function.update
    (Function.update addrs (i + 1)
      { next with sockaddr := excess ++ next.sockaddr.drop excess.length })
    i ⟨a.sockaddr.take 16, a.sockaddr.length, a.priority, a.weight⟩

end NgxToolkit.DynamicResolver
