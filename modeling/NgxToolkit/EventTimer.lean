import Mathlib.Logic.Function.Basic
import Mathlib.Tactic.Common

/-! The event timer module (`ngx_event_timer_module.c`): a fixed array of timer
slots with a free list.

`worker_timers` slots are allocated once.  A slot's `data` word is the user's
argument while the slot is handed out and the free-list link while it is free
(`Data`).  `ngx_event_t` is kept as far as the module uses it: `timer_set` and
`data`.  A function that would follow a null pointer, or read a user argument
as a link, has no result (`none`). -/

namespace NgxToolkit.EventTimer

/-- `NGX_ERROR`. -/
def ngxError : Int := -1

/-- What the `data` word of a slot holds. -/
inductive Data (δ : Type) where
  | user (d : δ)
  | link (next : Option Nat)
deriving DecidableEq, Repr

/-- The cell a `data` word links to (null for a user argument). -/
def Data.next {δ : Type} : Data δ → Option Nat
  | .user _ => none
  | .link next => next

/-- `ngx_event_timer_ctx_t`. -/
structure TimerCtx (η δ : Type) where
  timerid : Nat
  /-- `event.timer_set` -/
  timerSet : Bool
  /-- `event.data`, the slot itself once it was handed out -/
  eventData : Option Nat
  handler : Option η
  data : Data δ

/-- `ngx_event_timer_conf_t`; slots are named by their index in `timer_ctx`. -/
structure Conf (η δ : Type) where
  timerN : Nat
  timerCtx : Nat → TimerCtx η δ
  freeTimers : Option Nat
  freeTimerN : Nat

variable {η δ : Type}

/-- The `do … while (i)` loop of `ngx_event_timer_process_init`, from slot `i - 1` down. -/
def initLoop : Nat → (Nat → TimerCtx η δ) → Option Nat → (Nat → TimerCtx η δ) × Option Nat
  | 0, t, next => (t, next)
  | i + 1, t, next =>
    initLoop i (Function.update t i
      { t i with timerid := i, timerSet := false, handler := none, data := .link next }) (some i)

/-- `ngx_event_timer_process_init`; `mem` is the uninitialised array `ngx_alloc` returns. -/
def processInit (timerN : Nat) (mem : Nat → TimerCtx η δ) : Conf η δ :=
  if timerN = 0 then ⟨0, mem, none, 0⟩
  else
    let r := initLoop timerN mem none
    ⟨timerN, r.1, r.2, timerN⟩

/-- `ngx_event_timer_get_timer`: the slot taken off the free list, if any. -/
def getTimer (etcf : Conf η δ) : Option (Option Nat × Conf η δ) :=
  if etcf.freeTimerN = 0 then some (none, etcf)
  else
    match etcf.freeTimers with
    | none => none
    | some free =>
      match (etcf.timerCtx free).data with
      | .user _ => none
      | .link next =>
        some (some free, { etcf with freeTimers := next, freeTimerN := etcf.freeTimerN - 1 })

/-- `ngx_event_timer_free_timer`. -/
def freeTimer (etcf : Conf η δ) (ctx : Nat) : Conf η δ :=
  { etcf with
    timerCtx := Function.update etcf.timerCtx ctx
      { etcf.timerCtx ctx with data := .link etcf.freeTimers }
    freeTimers := some ctx
    freeTimerN := etcf.freeTimerN + 1 }

/-- `ngx_event_timer_add_timer`: the result and the new state. -/
def addTimer (etcf : Conf η δ) (h : Option η) (data : δ) : Option (Int × Conf η δ) :=
  match h with
  | none => some (ngxError, etcf)
  | some h =>
    match getTimer etcf with
    | none => none
    | some (none, etcf) => some (ngxError, etcf)
    | some (some ctx, etcf) =>
      -- `ngx_event_add_timer` sets `timer_set`
      some ((etcf.timerCtx ctx).timerid, { etcf with
        timerCtx := Function.update etcf.timerCtx ctx
          { etcf.timerCtx ctx with
            eventData := some ctx, handler := some h, data := .user data, timerSet := true } })

/-- nginx takes the slot's event off its timer tree: `ev->timer_set = 0`. -/
def clearTimerSet (etcf : Conf η δ) (slot : Nat) : Conf η δ :=
  { etcf with
    timerCtx := Function.update etcf.timerCtx slot
      { etcf.timerCtx slot with timerSet := false } }

/-- `ngx_event_timer_del_timer`. -/
def delTimer (etcf : Conf η δ) (timerid : Nat) : Conf η δ :=
  if (etcf.timerCtx timerid).timerSet then freeTimer (clearTimerSet etcf timerid) timerid
  else etcf

/-- nginx expires the timer of `slot`: `timer_set` is cleared and
`ngx_event_timer_event_handler` starts on `event.data`.  The result names the
slot it works on and the user call it makes. -/
def expireTimer (etcf : Conf η δ) (slot : Nat) : Option (Nat × Option (η × δ) × Conf η δ) :=
  match (etcf.timerCtx slot).eventData with
  | none => none
  | some ctx =>
    match (etcf.timerCtx ctx).handler, (etcf.timerCtx ctx).data with
    | some h, .user d => some (ctx, some (h, d), clearTimerSet etcf slot)
    | some _, .link _ => none
    | none, _ => some (ctx, none, clearTimerSet etcf slot)

end NgxToolkit.EventTimer
