import Mathlib.Data.List.Perm.Basic
import Mathlib.Data.List.Range
import Mathlib.Logic.Function.Basic
import Mathlib.Tactic.Common
import NgxToolkit.Lib.Chain
import NgxToolkit.Lib.Machine

/-! The event resolver (`ngx_event_resolver.c`): name queries through nginx's
resolver, with a free list of query contexts.

An `ngx_event_resolver_ctx_t` cell holds the user's handler and data while its
query runs and the free-list link afterwards.  nginx's side is what
`ngx_resolve_start` and `ngx_resolve_name` answer (`Env`); a context that
`ngx_resolve_start` returned is named by a number.

`startResolver` and `resolverHandler` stop where the C functions call the
user's handler; what follows that call is `failedTail` (the end of the `failed`
label) or `handlerTail` (the end of `ngx_event_resolver_handler`).  A user
handler may start queries and be interrupted by replies, so the machine below
keeps the C stack of handlers that have not returned. -/

namespace NgxToolkit.EventResolver

open Lib

/-- `ngx_event_resolver_ctx_t`; the fields are zero after `ngx_pcalloc`. -/
structure Ctx (η δ : Type) where
  handler : Option η
  data : Option δ
  next : Option Nat

/-- `ngx_event_resolver_conf_t` with the memory its contexts live in; `top`
cells have been allocated. -/
structure Conf (η δ : Type) where
  /-- `ercf->resolver != NULL` -/
  resolver : Bool
  freeCtx : Option Nat
  nalloc : Nat
  nfree : Nat
  ctx : Nat → Ctx η δ
  top : Nat

/-- A value of type `ngx_resolver_ctx_t *`. -/
inductive RCtx where
  | null
  | noResolver
  | ctx (n : Nat)
deriving DecidableEq, Repr

/-- What `ngx_resolve_start` answers: `NULL`, `NGX_NO_RESOLVER` or a context. -/
inductive StartAnswer where
  | null
  | noResolver
  | ctx
deriving DecidableEq, Repr

/-- What the outside answers during one `ngx_event_resolver_start_resolver`:
does `ngx_pcalloc` succeed, what does `ngx_resolve_start` return, does
`ngx_resolve_name` return `NGX_OK`. -/
structure Env where
  pcalloc : Bool
  start : StartAnswer
  name : Bool
deriving DecidableEq, Repr

/-- How far `ngx_event_resolver_start_resolver` gets. -/
inductive Started where
  /-- no resolver is configured: the user's handler is called, nothing follows -/
  | direct
  /-- no context: it returns at once -/
  | noCtx
  /-- the user's handler is called at the label `failed` -/
  | failed (ctx : RCtx) (erctx : Nat)
  /-- nginx will answer on the context `n` -/
  | inFlight (n erctx : Nat)
deriving DecidableEq, Repr

variable {η δ : Type}

/-- `ngx_event_resolver_get_ctx`. -/
def getCtx (ercf : Conf η δ) (pcalloc : Bool) : Option Nat × Conf η δ :=
  match ercf.freeCtx with
  | none =>
    -- `++ercf->nalloc` also when the allocation failed
    if pcalloc then
      (some ercf.top, { ercf with
        ctx := Function.update ercf.ctx ercf.top ⟨none, none, none⟩
        top := ercf.top + 1, nalloc := ercf.nalloc + 1 })
    else (none, { ercf with nalloc := ercf.nalloc + 1 })
  | some ctx =>
    (some ctx, { ercf with
      freeCtx := (ercf.ctx ctx).next
      ctx := Function.update ercf.ctx ctx { ercf.ctx ctx with next := none }
      nfree := ercf.nfree - 1 })

/-- `ngx_event_resolver_put_ctx`. -/
def putCtx (ercf : Conf η δ) (ctx : Nat) : Conf η δ :=
  { ercf with
    ctx := Function.update ercf.ctx ctx { ercf.ctx ctx with next := ercf.freeCtx }
    freeCtx := some ctx
    nfree := ercf.nfree + 1 }

/-- `ngx_event_resolver_start_resolver` up to the user call, if any; `n` is the
context that `ngx_resolve_start` returns when it returns one. -/
def startResolver (ercf : Conf η δ) (h : η) (data : δ) (env : Env) (n : Nat) :
    Started × Conf η δ :=
  if ercf.resolver = false then (.direct, ercf)
  else
    match getCtx ercf env.pcalloc with
    | (none, ercf) => (.noCtx, ercf)
    | (some erctx, ercf) =>
      let ercf := { ercf with
        ctx := Function.update ercf.ctx erctx
          { ercf.ctx erctx with handler := some h, data := some data } }
      match env.start with
      | .null => (.failed .null erctx, ercf)
      | .noResolver => (.failed .noResolver erctx, ercf)
      | .ctx => if env.name then (.inFlight n erctx, ercf) else (.failed (.ctx n) erctx, ercf)

/-- The end of `ngx_event_resolver_start_resolver` after the user call at
`failed`: what `ngx_resolve_name_done` is called on, and the new state. -/
def failedTail (ercf : Conf η δ) (ctx : RCtx) (erctx : Nat) : Option RCtx × Conf η δ :=
  if ctx = .null ∨ ctx = .noResolver then (some ctx, putCtx ercf erctx) else (none, ercf)

/-- `ngx_event_resolver_handler` up to the user call: the handler and the data
it is called with. -/
def resolverHandler (ercf : Conf η δ) (erctx : Nat) : Option (η × δ) :=
  match (ercf.ctx erctx).handler, (ercf.ctx erctx).data with
  | some h, some d => some (h, d)
  | _, _ => none

/-- The end of `ngx_event_resolver_handler` after the user call. -/
def handlerTail (ercf : Conf η δ) (n erctx : Nat) : Option RCtx × Conf η δ :=
  (some (.ctx n), putCtx ercf erctx)

/-! ## Runs -/

/-- A user handler that has not returned yet, by who called it. -/
inductive Frame where
  | direct
  | failed (ctx : RCtx) (erctx : Nat)
  | handler (n erctx : Nat)
deriving DecidableEq, Repr

/-- The worker: the module's state, nginx's contexts and the C stack, with a
record of the run (`started`, `called`, `reached`, `dropped`, `done`) that no
step reads. -/
structure World (η δ : Type) where
  ercf : Conf η δ
  /-- contexts `ngx_resolve_start` has returned so far -/
  nctx : Nat
  /-- queries nginx has not answered: the context and its `data` -/
  pending : List (Nat × Nat)
  stack : List Frame
  /-- the arguments of every `start_resolver` call -/
  started : List (η × δ)
  /-- the user calls made -/
  called : List (η × δ)
  /-- the contexts nginx called the handler on -/
  reached : List Nat
  /-- the contexts that `ngx_resolve_name` freed itself -/
  dropped : List Nat
  /-- the arguments of `ngx_resolve_name_done` -/
  done : List RCtx

inductive Label (η δ : Type) where
  | start (h : η) (data : δ) (env : Env)
  | reply (n erctx : Nat)
  | ret

def World.start (w : World η δ) (h : η) (data : δ) (env : Env) : World η δ :=
  let r := startResolver w.ercf h data env w.nctx
  let w := { w with ercf := r.2, started := (h, data) :: w.started }
  match r.1 with
  | .direct => { w with stack := .direct :: w.stack, called := (h, data) :: w.called }
  | .noCtx => w
  | .failed (.ctx n) erctx =>
    { w with
      nctx := n + 1, dropped := n :: w.dropped, called := (h, data) :: w.called
      stack := .failed (.ctx n) erctx :: w.stack }
  | .failed ctx erctx =>
    { w with stack := .failed ctx erctx :: w.stack, called := (h, data) :: w.called }
  | .inFlight n erctx => { w with nctx := n + 1, pending := (n, erctx) :: w.pending }

/-- One step.  Calls and replies come at any time, also while user handlers
are running; a synchronous answer of `ngx_resolve_name` is a reply right after
the call.  `ret` is the return of the innermost user handler. -/
def World.step (w : World η δ) : Label η δ → Option (World η δ)
  | .start h data env => some (w.start h data env)
  | .reply n erctx =>
    if (n, erctx) ∈ w.pending then
      (resolverHandler w.ercf erctx).map fun call =>
        { w with
          pending := w.pending.erase (n, erctx), called := call :: w.called
          reached := n :: w.reached, stack := .handler n erctx :: w.stack }
    else none
  | .ret =>
    match w.stack with
    | [] => none
    | .direct :: stack => some { w with stack }
    | .failed ctx erctx :: stack =>
      let r := failedTail w.ercf ctx erctx
      some { w with ercf := r.2, stack, done := r.1.toList ++ w.done }
    | .handler n erctx :: stack =>
      let r := handlerTail w.ercf n erctx
      some { w with ercf := r.2, stack, done := r.1.toList ++ w.done }

/-- A worker that has a resolver configured or not; its contexts live in `mem`. -/
def machine (resolver : Bool) (mem : Nat → Ctx η δ) : Machine (World η δ) (Label η δ) where
  start := ⟨⟨resolver, none, 0, 0, mem, 0⟩, 0, [], [], [], [], [], [], []⟩
  step := World.step

/-- The queries whose handler nginx has called and which has not returned. -/
def World.handling (w : World η δ) : List (Nat × Nat) :=
  w.stack.filterMap fun
    | .handler n erctx => some (n, erctx)
    | _ => none

/-- The user calls that the unanswered queries will make. -/
def World.waiting (w : World η δ) : List (η × δ) :=
  w.pending.filterMap fun p => resolverHandler w.ercf p.2

/-- What a run must keep: every call's handler was called once or waits for an
answer; `ngx_resolve_name_done` was called once on every context whose handler
returned and on nothing else; `nalloc - nfree` counts the queries in flight. -/
structure Lawful (w : World η δ) : Prop where
  once : (w.called ++ w.waiting).Perm w.started
  done_reached : (w.done ++ w.handling.map fun p => RCtx.ctx p.1).Perm (w.reached.map RCtx.ctx)
  reached_nodup : (w.reached ++ w.dropped).Nodup
  count : w.ercf.nalloc = w.ercf.nfree + w.pending.length + w.handling.length

/-! ## Runs in which nginx answers -/

/-- A `start_resolver` call finds no resolver configured, or gets its context,
gets one from `ngx_resolve_start`, and `ngx_resolve_name` returns `NGX_OK`. -/
def Answered (w : World η δ) : Label η δ → Prop
  | .start _ _ env => w.ercf.resolver = false ∨
      ((w.ercf.freeCtx ≠ none ∨ env.pcalloc = true) ∧ env.start = .ctx ∧ env.name = true)
  | _ => True

/-- What every answered step keeps; `free` is the free list. -/
structure Inv (w : World η δ) (free : List Nat) : Prop where
  chain : Linked (fun c => (w.ercf.ctx c).next) w.ercf.freeCtx free
  nfree : w.ercf.nfree = free.length
  nalloc : w.ercf.nalloc = w.ercf.top
  -- every cell is free, in flight or being handled
  cells : (free ++ (w.pending.map (·.2) ++ w.handling.map (·.2))).Perm (List.range w.ercf.top)
  nctx : ∀ n ∈ w.pending.map (·.1) ++ w.reached, n < w.nctx
  ctx_nodup : (w.pending.map (·.1) ++ w.reached).Nodup
  dropped : w.dropped = []
  calls : ∀ p ∈ w.pending, (resolverHandler w.ercf p.2).isSome
  not_failed : ∀ ctx erctx, .failed ctx erctx ∉ w.stack
  once : (w.called ++ w.waiting).Perm w.started
  done_reached : (w.done ++ w.handling.map fun p => RCtx.ctx p.1).Perm (w.reached.map RCtx.ctx)

section
variable {w : World η δ} {free : List Nat}

theorem Inv.lawful (hw : Inv w free) : Lawful w where
  once := hw.once
  done_reached := hw.done_reached
  reached_nodup := by
    rw [hw.dropped, List.append_nil]
    exact (List.nodup_append.mp hw.ctx_nodup).2.1
  count := by
    have h := hw.cells.length_eq
    simp only [List.length_append, List.length_map, List.length_range] at h
    rw [hw.nalloc, hw.nfree]
    omega

theorem Inv.cells_nodup (hw : Inv w free) :
    (free ++ (w.pending.map (·.2) ++ w.handling.map (·.2))).Nodup :=
  hw.cells.nodup_iff.mpr List.nodup_range

/-- Changing a cell that no unanswered query uses changes no waiting call. -/
theorem waiting_update {pending : List (Nat × Nat)} (ercf ercf' : Conf η δ) {c : Nat}
    (hc : c ∉ pending.map (·.2)) (h : ∀ e, e ≠ c → ercf'.ctx e = ercf.ctx e) :
    (pending.filterMap fun p => resolverHandler ercf' p.2) =
      pending.filterMap fun p => resolverHandler ercf p.2 := by
  refine List.filterMap_congr fun p hp => ?_
  have hpc : p.2 ≠ c := fun e => hc (e ▸ List.mem_map_of_mem hp)
  simp only [resolverHandler, h p.2 hpc]

/-- With a cell `c` that was free or is new, an answered call puts one query in
flight. -/
theorem Inv.inFlight (hw : Inv w free) {ercf : Conf η δ} {free' : List Nat} {h : η} {data : δ}
    {c : Nat} (hh : (ercf.ctx c).handler = some h) (hd : (ercf.ctx c).data = some data)
    (hother : ∀ e, e ≠ c → ercf.ctx e = w.ercf.ctx e)
    (hchain : Linked (fun c => (ercf.ctx c).next) ercf.freeCtx free')
    (hnfree : ercf.nfree = free'.length) (hnalloc : ercf.nalloc = ercf.top)
    (hc : c ∉ w.pending.map (·.2))
    (hcells : (free' ++ (c :: w.pending.map (·.2) ++ w.handling.map (·.2))).Perm
      (List.range ercf.top)) :
    Inv { w with
      ercf, nctx := w.nctx + 1, pending := (w.nctx, c) :: w.pending
      started := (h, data) :: w.started } free' := by
  have hwait : resolverHandler ercf c = some (h, data) := by
    simp only [resolverHandler, hh, hd]
  constructor
  · exact hchain
  · exact hnfree
  · exact hnalloc
  · exact hcells
  · intro n hn
    simp only [List.map_cons, List.cons_append, List.mem_cons] at hn
    rcases hn with rfl | hn
    · exact Nat.lt_succ_self _
    · exact Nat.lt_succ_of_lt (hw.nctx n hn)
  · simp only [List.map_cons, List.cons_append, List.nodup_cons]
    exact ⟨fun hm => Nat.lt_irrefl _ (hw.nctx _ hm), hw.ctx_nodup⟩
  · exact hw.dropped
  · intro p hp
    rcases List.mem_cons.mp hp with rfl | hp
    · simp [hwait]
    · have hpc : p.2 ≠ c := fun e => hc (e ▸ List.mem_map_of_mem hp)
      simpa only [resolverHandler, hother p.2 hpc] using hw.calls p hp
  · exact hw.not_failed
  · have hrest := waiting_update w.ercf ercf hc hother
    simp only [World.waiting, List.filterMap_cons, hwait, hrest]
    exact List.perm_middle.trans (hw.once.cons _)
  · exact hw.done_reached

theorem Inv.start (hw : Inv w free) {h : η} {data : δ} {env : Env}
    (hok : Answered w (.start h data env)) : ∃ free', Inv (w.start h data env) free' := by
  by_cases hres : w.ercf.resolver = false
  · refine ⟨free, ?_⟩
    simp only [World.start, startResolver, if_pos hres]
    constructor
    · exact hw.chain
    · exact hw.nfree
    · exact hw.nalloc
    · exact hw.cells
    · exact hw.nctx
    · exact hw.ctx_nodup
    · exact hw.dropped
    · exact hw.calls
    · intro ctx erctx hm
      exact hw.not_failed ctx erctx (by simpa using hm)
    · exact hw.once.cons _
    · exact hw.done_reached
  · obtain ⟨hctx, hstart, hname⟩ := hok.resolve_left hres
    have hnd := hw.cells_nodup
    cases hfree : w.ercf.freeCtx with
    | none =>
      have hpc : env.pcalloc = true := hctx.resolve_left (absurd hfree)
      have hnil : free = [] := by
        have := hw.chain
        rwa [hfree, linked_none] at this
      subst hnil
      have htop : w.ercf.top ∉ w.pending.map (·.2) ++ w.handling.map (·.2) := fun hm => by
        have := (hw.cells.mem_iff (a := w.ercf.top)).mp (by simpa using hm)
        simp at this
      refine ⟨[], ?_⟩
      simp only [World.start, startResolver, if_neg hres, getCtx, hfree, hpc, hstart, hname, if_true]
      refine hw.inFlight (c := w.ercf.top) (by simp) (by simp) (fun e he => by simp [he]) rfl hw.nfree
        (by simp [hw.nalloc]) (fun hm => htop (List.mem_append_left _ hm)) ?_
      · have h1 := hw.cells
        simp only [List.nil_append, List.cons_append] at h1 ⊢
        rw [List.range_succ]
        exact (h1.cons _).trans (List.perm_append_singleton _ _).symm
    | some c =>
      cases free with
      | nil =>
        have := hw.chain
        rw [hfree] at this
        cases this
      | cons c' rest =>
        have hchain := hw.chain
        rw [hfree] at hchain
        obtain ⟨hcc, hchain⟩ := hchain
        cases hcc
        have hcn := List.nodup_append.mp hnd
        have hcr : c ∉ rest := (List.nodup_cons.mp hcn.1).1
        have hcp : c ∉ w.pending.map (·.2) ++ w.handling.map (·.2) := fun hm =>
          hcn.2.2 c List.mem_cons_self c hm rfl
        refine ⟨rest, ?_⟩
        simp only [World.start, startResolver, if_neg hres, getCtx, hfree, hstart, hname, if_true]
        refine hw.inFlight (c := c) (by simp) (by simp) (fun e he => by simp [he]) ?_ (by simp [hw.nfree])
          hw.nalloc (fun hm => hcp (List.mem_append_left _ hm)) ?_
        · refine hchain.congr fun e he => ?_
          have hec : e ≠ c := fun h => hcr (h ▸ he)
          simp [hec]
        · exact (List.perm_middle.trans (by simp)).trans hw.cells

theorem Inv.reply (hw : Inv w free) {n erctx : Nat} (hm : (n, erctx) ∈ w.pending) :
    ∃ call, resolverHandler w.ercf erctx = some call ∧
      Inv { w with
        pending := w.pending.erase (n, erctx), called := call :: w.called
        reached := n :: w.reached, stack := .handler n erctx :: w.stack } free := by
  obtain ⟨call, hcall⟩ := Option.isSome_iff_exists.mp (hw.calls _ hm)
  have hperm := List.perm_cons_erase hm
  refine ⟨call, hcall, ?_⟩
  constructor
  · exact hw.chain
  · exact hw.nfree
  · exact hw.nalloc
  · have h2 : (w.pending.map (·.2)).Perm (erctx :: (w.pending.erase (n, erctx)).map (·.2)) :=
      hperm.map (·.2)
    refine List.Perm.trans ?_ hw.cells
    refine List.Perm.append_left _ ?_
    show ((w.pending.erase (n, erctx)).map (·.2) ++ erctx :: w.handling.map (·.2)).Perm _
    exact List.perm_middle.trans (h2.symm.append_right _)
  · intro m hm'
    refine hw.nctx m ?_
    have h1 : (w.pending.map (·.1)).Perm (n :: (w.pending.erase (n, erctx)).map (·.1)) :=
      hperm.map (·.1)
    exact ((List.perm_middle.trans (h1.symm.append_right _)).mem_iff).mp hm'
  · have h1 : (w.pending.map (·.1)).Perm (n :: (w.pending.erase (n, erctx)).map (·.1)) :=
      hperm.map (·.1)
    exact ((List.perm_middle.trans (h1.symm.append_right _)).nodup_iff).mpr hw.ctx_nodup
  · exact hw.dropped
  · exact fun p hp => hw.calls p (List.mem_of_mem_erase hp)
  · intro ctx erctx' hm'
    exact hw.not_failed ctx erctx' (by simpa using hm')
  · have h1 : w.waiting.Perm
        (call :: (w.pending.erase (n, erctx)).filterMap fun p => resolverHandler w.ercf p.2) := by
      have := hperm.filterMap fun p => resolverHandler w.ercf p.2
      simpa only [World.waiting, List.filterMap_cons, hcall] using this
    refine List.Perm.trans ?_ hw.once
    exact (List.perm_middle.symm).trans (h1.symm.append_left _)
  · show (w.done ++ RCtx.ctx n :: w.handling.map fun p => RCtx.ctx p.1).Perm _
    exact List.perm_middle.trans (hw.done_reached.cons _)

/-- The innermost handler returns: its context is done and its cell is free. -/
theorem Inv.handlerTail (hw : Inv w free) {n erctx : Nat} {stack : List Frame}
    (hs : w.stack = .handler n erctx :: stack) :
    Inv { w with ercf := putCtx w.ercf erctx, stack, done := .ctx n :: w.done } (erctx :: free) := by
  have hhand : w.handling = (n, erctx) ::
      ({ w with ercf := putCtx w.ercf erctx, stack, done := .ctx n :: w.done } : World η δ).handling := by
    simp only [World.handling, hs, List.filterMap_cons]
  have hnd := hw.cells_nodup
  rw [hhand, List.map_cons, ← List.append_assoc] at hnd
  have hmid := List.perm_middle.nodup_iff.mp hnd
  rw [List.nodup_cons] at hmid
  have hef : erctx ∉ free := fun h => hmid.1 (by simp [h])
  have hep : erctx ∉ w.pending.map (·.2) := fun h =>
    hmid.1 (List.mem_append_left _ (List.mem_append_right _ h))
  have hother : ∀ e, e ≠ erctx → (putCtx w.ercf erctx).ctx e = w.ercf.ctx e := fun e he => by
    simp [putCtx, he]
  constructor
  · refine (hw.chain.push hef).congr fun e he => ?_
    by_cases h : e = erctx
    · subst h; simp [putCtx]
    · simp [putCtx, h]
  · simp [putCtx, hw.nfree]
  · exact hw.nalloc
  · have h1 := hw.cells
    rw [hhand, List.map_cons] at h1
    refine List.Perm.trans ?_ h1
    rw [List.cons_append, ← List.append_assoc, ← List.append_assoc]
    exact List.perm_middle.symm
  · exact hw.nctx
  · exact hw.ctx_nodup
  · exact hw.dropped
  · intro p hp
    have hpc : p.2 ≠ erctx := fun e => hep (e ▸ List.mem_map_of_mem hp)
    simpa only [resolverHandler, hother p.2 hpc] using hw.calls p hp
  · intro ctx erctx' hm
    exact hw.not_failed ctx erctx' (by rw [hs]; exact List.mem_cons_of_mem _ hm)
  · have := waiting_update w.ercf (putCtx w.ercf erctx) hep hother
    simp only [World.waiting, this]
    exact hw.once
  · have h1 := hw.done_reached
    rw [hhand, List.map_cons] at h1
    exact List.perm_middle.symm.trans h1

/-- Every answered step keeps the invariant. -/
theorem Inv.step (hw : Inv w free) {l : Label η δ} {w' : World η δ} (hok : Answered w l)
    (hst : w.step l = some w') : ∃ free', Inv w' free' := by
  cases l with
  | start h data env =>
    simp only [World.step, Option.some.injEq] at hst
    exact hst ▸ hw.start hok
  | reply n erctx =>
    simp only [World.step] at hst
    split at hst
    · next hm =>
      obtain ⟨call, hcall, hinv⟩ := hw.reply hm
      rw [hcall, Option.map_some, Option.some.injEq] at hst
      exact ⟨free, hst ▸ hinv⟩
    · cases hst
  | ret =>
    simp only [World.step] at hst
    split at hst
    · cases hst
    · next stack hs =>
      cases hst
      have hhand : ({ w with stack } : World η δ).handling = w.handling := by
        simp only [World.handling, hs, List.filterMap_cons]
      refine ⟨free, ⟨hw.chain, hw.nfree, hw.nalloc, ?_, hw.nctx, hw.ctx_nodup, hw.dropped, hw.calls,
        fun ctx erctx hm => ?_, hw.once, ?_⟩⟩
      · rw [hhand]; exact hw.cells
      · exact hw.not_failed ctx erctx (by rw [hs]; exact List.mem_cons_of_mem _ hm)
      · rw [hhand]; exact hw.done_reached
    · next ctx erctx stack hs => exact absurd (by simp [hs]) (hw.not_failed ctx erctx)
    · next n erctx stack hs =>
      cases hst
      exact ⟨erctx :: free, hw.handlerTail hs⟩

end

theorem reach_inv {resolver : Bool} {mem : Nat → Ctx η δ} {w : World η δ}
    (hr : (machine resolver mem).ReachIf Answered w) : ∃ free, Inv w free := by
  refine Machine.ReachIf.invariant (P := fun w => ∃ free, Inv w free) ⟨[], ?_⟩
    (fun _ _ _ _ ⟨_, h⟩ hok hst => h.step hok hst) hr
  constructor <;> simp [machine, World.handling, World.waiting]

/-! ## Calls that nginx does not answer -/

/-- No resolver is `NULL` or `NGX_NO_RESOLVER`: done on one of them is not lawful. -/
theorem Lawful.done_ctx {w : World η δ} (hw : Lawful w) {c : RCtx} (hc : c ∈ w.done) :
    ∃ n, c = .ctx n := by
  have h := (hw.done_reached.mem_iff (a := c)).mp (List.mem_append_left _ hc)
  obtain ⟨n, -, rfl⟩ := List.mem_map.mp h
  exact ⟨n, rfl⟩

/-- A context taken for a query raises `nalloc - nfree` by one. -/
theorem getCtx_count {ercf ercf' : Conf η δ} {pcalloc : Bool} {c : Nat}
    (hfree : ercf.freeCtx ≠ none → 0 < ercf.nfree)
    (h : getCtx ercf pcalloc = (some c, ercf')) :
    ercf'.nalloc + ercf.nfree = ercf.nalloc + ercf'.nfree + 1 := by
  cases hc : ercf.freeCtx with
  | none =>
    cases pcalloc with
    | false =>
      simp only [getCtx, hc, Bool.false_eq_true, if_false, Prod.mk.injEq, reduceCtorEq,
        false_and] at h
    | true =>
      simp only [getCtx, hc, if_true, Prod.mk.injEq] at h
      rw [← h.2]
      simp only
      omega
  | some d =>
    simp only [getCtx, hc, Prod.mk.injEq] at h
    have := hfree (by simp [hc])
    rw [← h.2]
    simp only
    omega

/-- A call that nginx does not answer breaks the law, at the latest when the
user handler it called returns. -/
theorem Inv.unanswered {w : World η δ} {free : List Nat} (hw : Inv w free) {h : η} {data : δ}
    {env : Env} (hno : ¬ Answered w (.start h data env)) :
    ¬ Lawful (w.start h data env) ∨
      ∃ w', (w.start h data env).step .ret = some w' ∧ ¬ Lawful w' := by
  simp only [Answered, not_or] at hno
  obtain ⟨hres, hno⟩ := hno
  have hfree : w.ercf.freeCtx ≠ none → 0 < w.ercf.nfree := by
    intro hne
    rw [hw.nfree]
    cases free with
    | nil => exact absurd hw.chain hne
    | cons c l => exact Nat.succ_pos _
  cases hget : getCtx w.ercf env.pcalloc with
  | mk c ercf =>
  cases c with
  | none =>
    -- the handler is never called
    left
    intro hl
    have hpend : (w.start h data env).called = w.called ∧
        (w.start h data env).waiting = w.waiting ∧
        (w.start h data env).started = (h, data) :: w.started := by
      have hctx : ercf.ctx = w.ercf.ctx := by
        unfold getCtx at hget
        split at hget
        · split at hget <;> cases hget
          rfl
        · cases hget
      simp only [World.start, startResolver, if_neg hres, hget, World.waiting, resolverHandler, hctx,
        and_self]
    have h1 := hl.once.length_eq
    have h2 := hw.once.length_eq
    simp only [hpend, List.length_append, List.length_cons] at h1 h2
    omega
  | some c =>
    right
    have hcount := getCtx_count hfree hget
    cases hs : env.start with
    | null =>
      refine ⟨_, by simp only [World.start, startResolver, if_neg hres, hget, hs, World.step]; rfl,
        fun hl => ?_⟩
      obtain ⟨n, hn⟩ := hl.done_ctx (c := .null) (by simp [failedTail])
      cases hn
    | noResolver =>
      refine ⟨_, by simp only [World.start, startResolver, if_neg hres, hget, hs, World.step]; rfl,
        fun hl => ?_⟩
      obtain ⟨n, hn⟩ := hl.done_ctx (c := .noResolver) (by simp [failedTail])
      cases hn
    | ctx =>
      have hname : env.name = false := by
        cases hn : env.name with
        | false => rfl
        | true =>
          refine absurd ⟨?_, hs, hn⟩ hno
          by_contra hc
          simp only [not_or, not_not] at hc
          unfold getCtx at hget
          rw [hc.1] at hget
          simp [hc.2] at hget
      -- the query's cell is neither in flight nor free
      refine ⟨_, by
        simp only [World.start, startResolver, if_neg hres, hget, hs, hname, Bool.false_eq_true,
          if_false, World.step]
        rfl, fun hl => ?_⟩
      have h1 : ercf.nalloc = ercf.nfree + w.pending.length + w.handling.length := hl.count
      have h2 := hw.lawful.count
      omega

/-- **The law of the event resolver.**  It holds in every state of every run
whose calls nginx answers; and from a state of such a run, any call that nginx
does not answer breaks it. -/
theorem answered_lawful (resolver : Bool) (mem : Nat → Ctx η δ) (w : World η δ)
    (hr : (machine resolver mem).ReachIf Answered w) :
    Lawful w ∧ ∀ h data env, ¬ Answered w (.start h data env) →
      ¬ Lawful (w.start h data env) ∨
        ∃ w', (w.start h data env).step .ret = some w' ∧ ¬ Lawful w' := by
  obtain ⟨free, hw⟩ := reach_inv hr
  exact ⟨hw.lawful, fun h data env hno => hw.unanswered hno⟩

/-- Memory for contexts, whatever it holds. -/
def someMem : Nat → Ctx Nat Nat := fun _ => ⟨none, none, none⟩

/-- `ngx_resolve_start` returns `NULL`: once the user's handler returned,
`ngx_resolve_name_done` is called on the null pointer. -/
theorem null_context_unlawful :
    ¬ ∀ (resolver : Bool) (mem : Nat → Ctx Nat Nat) (w : World Nat Nat),
      (machine resolver mem).Reach w → Lawful w := by
  intro hall
  have hr := (machine true someMem).reach_run
    [.start 10 100 ⟨true, .null, true⟩, .ret] rfl
  obtain ⟨n, hn⟩ := (hall true someMem _ hr).done_ctx (c := .null) List.mem_cons_self
  cases hn

/-- Two queries, the second one started from the first one's handler. -/
theorem answered_lawful_nested : ∃ w,
    (machine true someMem).run (machine true someMem).start
      [.start 10 100 ⟨true, .ctx, true⟩, .reply 0 0, .start 20 200 ⟨true, .ctx, true⟩, .ret,
        .reply 1 1] = some w ∧ Lawful w := by
  have h1 : (machine true someMem).ReachIf Answered _ :=
    .step .start (i := .start 10 100 ⟨true, .ctx, true⟩) (Or.inr ⟨Or.inr rfl, rfl, rfl⟩) rfl
  have h2 : (machine true someMem).ReachIf Answered _ := h1.step (i := .reply 0 0) trivial rfl
  have h3 : (machine true someMem).ReachIf Answered _ :=
    h2.step (i := .start 20 200 ⟨true, .ctx, true⟩) (Or.inr ⟨Or.inr rfl, rfl, rfl⟩) rfl
  have h4 : (machine true someMem).ReachIf Answered _ := h3.step (i := .ret) trivial rfl
  have h5 : (machine true someMem).ReachIf Answered _ := h4.step (i := .reply 1 1) trivial rfl
  exact ⟨_, rfl, (answered_lawful true someMem _ h5).1⟩

end NgxToolkit.EventResolver
