import Mathlib.Tactic.Common
import NgxToolkit.HttpTrace

/-! The log level of a connection over its requests.

The level before a request that asks for debug is kept in the context of the request, so
`ngx_http_trace_end_handler` puts it back unless a redirect clears the context.

* `handler_level`, `endHandler_level`: what the two handlers do to the level.
* `reach_level`: after which requests the level is as before. -/

namespace NgxToolkit.HttpTrace

open Lib

variable {core : Core} {trace : Bool}

/-! ## The handlers -/

/-- The context of the request, if any, has the level `before` to put back. -/
def Request.Keeps (r : Request) (before : Nat) : Prop :=
  ∃ ctx, r.ctx = some ctx ∧ ctx.debug = true ∧ ctx.rawLevel = before

/-- There is no level to put back. -/
def Request.Quiet (r : Request) : Prop := ∀ ctx, r.ctx = some ctx → ctx.debug = false

/-- The handler raises the level for a request. -/
def Raises (core : Core) (trace : Bool) (calls : Calls) (sent : List Header) : Prop :=
  trace = true ∧ calls.pcalloc = true ∧ asksDebug core sent = true

def Active.Raised (core : Core) (trace : Bool) (a : Active) : Prop :=
  Raises core trace a.calls a.sent

/-- What no new id changes, the handler keeps. -/
theorem readIds_rule {P : Ctx → Prop} (hset : ∀ (f : IdField) ctx id, P ctx → P (f.set ctx id))
    (core : Core) (headers : List Header) {ctx : Ctx} (h : P ctx) :
    P (readIds core headers ctx).2 := by
  have hread : ∀ {f ctx ctx'}, readId core headers f ctx = some ctx' → P ctx → P ctx' := by
    intro f ctx ctx' hsome hP
    obtain ⟨v, -, rfl⟩ := Option.map_eq_some_iff.mp hsome
    exact hset f ctx _ hP
  unfold readIds
  split
  · exact h
  · next ctx1 h1 =>
    have hP1 := hread h1 h
    split
    · exact hP1
    · next ctx2 h2 =>
      have hP2 := hread h2 hP1
      split
      · exact hP2
      · next ctx3 h3 => exact hread h3 hP2

theorem firstRequest_rule {P : Ctx → Prop}
    (hset : ∀ (f : IdField) ctx id, P ctx → P (f.set ctx id)) (core : Core) (calls : Calls)
    (headers : List Header) {ctx : Ctx} (h : P ctx) :
    P (firstRequest core calls ctx headers).2.1 := by
  have hids := hset .parentid _ ⟨List.replicate 32 48, List.length_replicate⟩
    (hset .currentid _ (random32 calls.cid) (hset .traceid _ (random32 calls.traceid) h))
  unfold firstRequest
  dsimp only
  split
  · exact hids
  · split <;> exact hids

theorem fillIds_rule {P : Ctx → Prop} (hset : ∀ (f : IdField) ctx id, P ctx → P (f.set ctx id))
    (core : Core) (calls : Calls) (headers : List Header) {ctx : Ctx} (h : P ctx) :
    P (fillIds core calls ctx headers).2.1 := by
  have hread := readIds_rule hset core headers h
  unfold fillIds
  split
  · next ctx1 heq =>
    rw [heq] at hread
    exact hread
  · next ctx1 heq =>
    rw [heq] at hread
    exact firstRequest_rule hset core calls headers hread

theorem fillIds_debug (core : Core) (calls : Calls) (ctx : Ctx) (headers : List Header) :
    (fillIds core calls ctx headers).2.1.debug = ctx.debug ∧
      (fillIds core calls ctx headers).2.1.rawLevel = ctx.rawLevel := by
  refine fillIds_rule (P := fun c => c.debug = ctx.debug ∧ c.rawLevel = ctx.rawLevel)
    (fun f c id h => ?_) core calls headers ⟨rfl, rfl⟩
  cases f <;> exact h

/-- The handler for a new main request. -/
theorem handler_traced {r : Request} (hmain : r.main = true) (hctx : r.ctx = none) {calls : Calls}
    (hpcalloc : calls.pcalloc = true) (log : Log) {ctx : Ctx} {log' : Log}
    (hstart : startDebug core r.headers { log with traced := true } = (ctx, log')) :
    handler core true calls r log =
      (if (fillIds core calls ctx r.headers).1 then .declined else .internalServerError,
        { r with
          headers := (fillIds core calls ctx r.headers).2.2
          ctx := some (fillIds core calls ctx r.headers).2.1 },
        log') := by
  unfold handler
  rw [hmain, hctx, hpcalloc, hstart]
  rfl

/-- A new main request without a context after the handler. -/
theorem handler_untraced (core : Core) {r : Request} (hctx : r.ctx = none) {calls : Calls}
    (h : ¬ (trace = true ∧ calls.pcalloc = true)) (log : Log) :
    ∃ ret, handler core trace calls r log = (ret, r, log) := by
  unfold handler
  rw [hctx]
  by_cases hmain : r.main = false
  · exact ⟨_, if_pos hmain⟩
  rw [if_neg hmain]
  by_cases htrace : trace = false
  · exact ⟨_, if_pos htrace⟩
  have hpcalloc : calls.pcalloc = false := by
    rw [Bool.not_eq_false] at htrace
    exact Bool.eq_false_iff.mpr fun hp => h ⟨htrace, hp⟩
  rw [if_neg htrace, if_neg (by simp), if_pos hpcalloc]
  exact ⟨_, rfl⟩

/-- What the handler does to the level for a new request. -/
theorem handler_level (core : Core) (trace : Bool) (calls : Calls) (sent : List Header)
    (log : Log) :
    ∃ ret r log', handler core trace calls ⟨true, sent, none⟩ log = (ret, r, log') ∧
      (Raises core trace calls sent → log'.level = NGX_LOG_DEBUG ∧ r.Keeps log.level) ∧
      (¬ Raises core trace calls sent → log'.level = log.level ∧ r.Quiet) := by
  by_cases htraced : trace = true ∧ calls.pcalloc = true
  · obtain ⟨rfl, hpcalloc⟩ := htraced
    rcases hstart : startDebug core sent { log with traced := true } with ⟨ctx, log'⟩
    have hfill := fillIds_debug core calls ctx sent
    refine ⟨_, _, _, handler_traced rfl rfl hpcalloc log hstart, ?_⟩
    unfold startDebug at hstart
    split at hstart
    · next hasks =>
      cases hstart
      refine ⟨fun _ => ⟨rfl, _, rfl, hfill.1, hfill.2⟩, fun hnot => ?_⟩
      exact absurd ⟨rfl, hpcalloc, hasks⟩ hnot
    · next hasks =>
      cases hstart
      refine ⟨fun hraises => absurd hraises.2.2 hasks, fun _ => ⟨rfl, fun ctx hctx => ?_⟩⟩
      cases hctx
      exact hfill.1
  · obtain ⟨ret, heq⟩ := handler_untraced core (r := ⟨true, sent, none⟩) rfl htraced log
    refine ⟨ret, _, _, heq, fun hraises => absurd ⟨hraises.1, hraises.2.1⟩ htraced, fun _ => ?_⟩
    exact ⟨rfl, fun ctx hctx => (by cases hctx)⟩

theorem endHandler_keeps {r : Request} {before : Nat} (h : r.Keeps before) (log : Log) :
    (endHandler r log).level = before := by
  obtain ⟨ctx, hctx, hdebug, rfl⟩ := h
  unfold endHandler
  rw [hctx]
  dsimp only
  rw [if_neg (by rw [hdebug]; exact Bool.noConfusion)]

theorem endHandler_quiet {r : Request} (h : r.Quiet) (log : Log) : endHandler r log = log := by
  unfold endHandler
  split
  · rfl
  · next ctx hctx => exact if_pos (h ctx hctx)

/-! ## Runs -/

/-- The level and the context while the request is handled. -/
structure Active.Sound (core : Core) (trace : Bool) (a : Active) (level : Nat) : Prop where
  raised : a.Raised core trace → level = NGX_LOG_DEBUG ∧
    if a.redirects = 0 then a.request.Keeps a.before else a.request.Quiet
  plain : ¬ a.Raised core trace → level = a.before ∧ a.request.Quiet

/-- The level is as before: it was not raised, or there was no redirect, or the level was
`NGX_LOG_DEBUG` before. -/
def Active.Restored (core : Core) (trace : Bool) (a : Active) : Prop :=
  a.Raised core trace → a.redirects = 0 ∨ a.before = NGX_LOG_DEBUG

theorem Active.Sound.log {a : Active} {log : Log} (h : a.Sound core trace log.level) :
    (endHandler a.request log).level = a.before ↔ a.Restored core trace := by
  unfold Active.Restored
  by_cases hraised : a.Raised core trace
  · obtain ⟨hlevel, hctx⟩ := h.raised hraised
    by_cases hzero : a.redirects = 0
    · rw [if_pos hzero] at hctx
      rw [endHandler_keeps hctx]
      exact iff_of_true rfl fun _ => .inl hzero
    · rw [if_neg hzero] at hctx
      rw [endHandler_quiet hctx, hlevel]
      exact ⟨fun h => fun _ => .inr h.symm, fun h => ((h hraised).resolve_left hzero).symm⟩
  · obtain ⟨hlevel, hctx⟩ := h.plain hraised
    rw [endHandler_quiet hctx]
    exact iff_of_true hlevel fun h => absurd h hraised

theorem Active.Sound.redirect {a : Active} {level : Nat} (h : a.Sound core trace level) :
    Active.Sound core trace { a with
      request := { a.request with ctx := none }
      redirects := a.redirects + 1 } level where
  raised hraised := ⟨(h.raised hraised).1, fun ctx hctx => (by cases hctx)⟩
  plain hraised := ⟨(h.plain hraised).1, fun ctx hctx => (by cases hctx)⟩

/-- What holds of a connection whose first level was `level`. -/
structure Conn.Sound (core : Core) (trace : Bool) (level : Nat) (s : Conn) : Prop where
  active : ∀ a, s.active = some a → a.Sound core trace s.log.level
  served : ∀ q ∈ s.served, q.after = q.active.before ↔ q.active.Restored core trace
  level : (∀ q ∈ s.served, q.active.Restored core trace) →
    (s.active.elim s.log.level Active.before) = level

theorem Conn.Sound.step {level : Nat} {s s' : Conn} (h : s.Sound core trace level) (i : Label)
    (hst : s.step core trace i = some s') : s'.Sound core trace level := by
  cases hactive : s.active with
  | none =>
    cases i with
    | postRead sent calls =>
      obtain ⟨ret, r, log, heq, hraised, hplain⟩ := handler_level core trace calls sent s.log
      unfold Conn.step at hst
      rw [hactive] at hst
      dsimp only at hst
      rw [heq] at hst
      cases hst
      refine ⟨fun a ha => ?_, h.served, fun hall => ?_⟩
      · cases ha
        exact ⟨hraised, hplain⟩
      · have hbefore := h.level hall
        rw [hactive] at hbefore
        exact hbefore
    | redirect | log =>
      unfold Conn.step at hst
      rw [hactive] at hst
      cases hst
  | some a =>
    have ha := h.active a hactive
    have hbefore : (∀ q ∈ s.served, q.active.Restored core trace) → a.before = level := by
      intro hall
      have hlevel := h.level hall
      rw [hactive] at hlevel
      exact hlevel
    unfold Conn.step at hst
    cases i with
    | postRead =>
      rw [hactive] at hst
      cases hst
    | redirect =>
      rw [hactive] at hst
      cases hst
      refine ⟨fun a' ha' => ?_, h.served, hbefore⟩
      cases ha'
      exact ha.redirect
    | log =>
      rw [hactive] at hst
      cases hst
      refine ⟨fun a' ha' => (by cases ha'), fun q hq => ?_, fun hall => ?_⟩
      · rcases List.mem_cons.mp hq with rfl | hq
        · exact ha.log
        · exact h.served q hq
      · show (endHandler a.request s.log).level = level
        rw [ha.log.mpr (hall _ List.mem_cons_self),
          hbefore fun q hq => hall q (List.mem_cons_of_mem _ hq)]

/-- **The log level of a connection.**  After the LOG phase of a request the level is what it
was before the request if and only if the handler did not raise it for the request, or
there was no redirect, or it was `NGX_LOG_DEBUG` before.  As long as this is so for every
request, the level between the requests is the first one. -/
theorem reach_level (core : Core) (trace : Bool) (log : Log) (s : Conn)
    (hs : (connection core trace log).Reach s) :
    (∀ q ∈ s.served, q.after = q.active.before ↔ q.active.Restored core trace) ∧
      ((∀ q ∈ s.served, q.active.Restored core trace) → s.active = none →
        s.log.level = log.level) := by
  have h : s.Sound core trace log.level :=
    hs.invariant (P := Conn.Sound core trace log.level)
      ⟨fun _ ha => (by cases ha), fun _ hq => (by cases hq), fun _ => rfl⟩
      fun _ i _ _ h hst => h.step i hst
  refine ⟨h.served, fun hall hnone => ?_⟩
  have hlevel := h.level hall
  rw [hnone] at hlevel
  exact hlevel

/-- The header `X-NTM-Debug: 1`. -/
def debugHeader : Header := ⟨bytes "X-NTM-Debug", [49], some (bytes "x-ntm-debug"), 1⟩

/-- Every call has memory. -/
def fullCalls : Calls := ⟨true, fun _ => 0, fun _ => 0, fun _ => ⟨true, true, 0⟩⟩

/-- Three requests that ask for debug, a redirect in the second one. -/
theorem reach_level_three : ∃ s : Conn,
    (connection firstCore true ⟨4, false⟩).run (connection firstCore true ⟨4, false⟩).start
      [.postRead [debugHeader] fullCalls, .log, .postRead [debugHeader] fullCalls, .redirect, .log,
        .postRead [debugHeader] fullCalls, .log] = some s ∧
    s.served.map (fun q => (q.active.before, q.after)) = [(8, 8), (4, 8), (4, 4)] ∧
    ∀ q ∈ s.served, q.after = q.active.before ↔ q.active.Restored firstCore true := by
  refine ⟨_, rfl, rfl, (reach_level firstCore true ⟨4, false⟩ _ ?_).1⟩
  exact Machine.reach_run _
    [.postRead [debugHeader] fullCalls, .log, .postRead [debugHeader] fullCalls, .redirect, .log,
      .postRead [debugHeader] fullCalls, .log] rfl

/-- A request that asks for debug is redirected once: its level stays. -/
theorem level_kept : ∃ s : Conn,
    (connection firstCore true ⟨4, false⟩).run (connection firstCore true ⟨4, false⟩).start
      [.postRead [debugHeader] fullCalls, .redirect, .log] = some s ∧
    (∃ q ∈ s.served, q.active.before = 4 ∧ q.after = NGX_LOG_DEBUG) ∧ s.active = none ∧
    s.log.level = NGX_LOG_DEBUG :=
  ⟨_, rfl, ⟨_, List.mem_cons_self, rfl, rfl⟩, rfl, rfl⟩

end NgxToolkit.HttpTrace
