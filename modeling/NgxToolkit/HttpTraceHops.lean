import Mathlib.Data.List.Chain
import Mathlib.Tactic.Common
import NgxToolkit.HttpTraceHeaders

/-! A request that goes from server to server.

A traced server gives the next one its own id as the parent's and a new id as the current one,
by `proxy_set_header X-NTM-Parentid $ntm_currentid` and
`proxy_set_header X-NTM-Currentid $ntm_newid`; the other headers of the ids are passed on.

* `Proxy`: what a proxied request carries of the headers.
* `hops`: the servers that a request passes, each traced or an ordinary proxy.
* `reach_hops`: all have one trace id, and the parent of each is the traced one before it. -/

namespace NgxToolkit.HttpTrace

open Lib

variable {core : Core}

/-! ## The other variables -/

/-- `ngx_http_trace_debug_variable` -/
def debugVariable (r : Request) : Option (List UInt8) :=
  r.ctx.map fun ctx => if ctx.debug then [49] else [48]

/-- `ngx_http_trace_newid_variable`; the outer `none` is `NGX_ERROR`. -/
def newidVariable (pcalloc : Bool) (numbers : Fin 4 → BitVec 32) (r : Request) :
    Option (Option (List UInt8)) :=
  match r.ctx with
  | none => some none
  | some _ => if pcalloc = false then none else some (some (random32 numbers).bytes)

/-! ## Headers on their way -/

/-- The values of the headers of a name. -/
def values (name : List UInt8) (headers : List Header) : List (List UInt8) :=
  (headers.filter (Header.named name)).map Header.value

def debugName : List UInt8 := bytes "X-NTM-Debug"

/-- The value goes over a connection as it is: no byte of it ends a line, and there are no
blanks around it. -/
structure Clean (value : List UInt8) : Prop where
  plain : ∀ c ∈ value, c ≠ 0 ∧ c ≠ 10 ∧ c ≠ 13
  head : value.head? ≠ some 32
  last : value.getLast? ≠ some 32

/-- A header as nginx reads it from a connection that does not allow `_` in names. -/
structure Header.Sound (h : Header) : Prop where
  plain : 95 ∉ h.key
  clean : Clean h.value
  lowcase : h.lowcaseKey = some (h.key.map tolower)

def idNames : List (List UInt8) := [IdField.traceid, .currentid, .parentid].map IdField.header

/-- The headers that a location sets, of those that the module reads. -/
structure SetSound (hs : List (List UInt8 × List UInt8)) : Prop where
  known : ∀ p ∈ hs, p.1 ∈ debugName :: idNames
  clean : ∀ p ∈ hs, Clean p.2 ∧ p.2 ≠ []
  distinct : (hs.map fun p => p.1.map tolower).Nodup

/-- What the next server reads of the headers of a request, for the headers that the location
sets: these once, and the others that the module reads as they came. -/
structure Proxy where
  forward : List Header → List (List UInt8 × List UInt8) → List Header
  sound : ∀ headers hs, (∀ h ∈ headers, h.Sound) → SetSound hs →
    ∀ h ∈ forward headers hs, h.Sound
  set : ∀ headers hs, (∀ h ∈ headers, h.Sound) → SetSound hs → ∀ p ∈ hs,
    values p.1 (forward headers hs) = [p.2]
  kept : ∀ headers hs, (∀ h ∈ headers, h.Sound) → SetSound hs → ∀ name ∈ debugName :: idNames,
    (∀ p ∈ hs, p.1.map tolower ≠ name.map tolower) →
      values name (forward headers hs) = values name headers

/-! ## Hops -/

/-- A traced server, with what the calls of nginx core return there. -/
structure Hop where
  calls : Calls
  log : Log
  newidPcalloc : Bool
  newid : Fin 4 → BitVec 32

/-- A request between two servers, and the contexts of the traced ones it passed, the last
first. -/
structure Wire where
  headers : List Header
  passed : List Ctx

inductive HopLabel where
  /-- a traced server passes the request on -/
  | traced (hop : Hop)
  /-- a proxy that sets none of the headers -/
  | relay

/-- The request is read, its ids are taken or made, and it is passed on. -/
def Wire.step (core : Core) (proxy : Proxy) (w : Wire) : HopLabel → Option Wire
  | .relay => some { w with headers := proxy.forward w.headers [] }
  | .traced hop =>
    match handler core true hop.calls ⟨true, w.headers, none⟩ hop.log with
    | (.internalServerError, _, _) => none
    | (.declined, r, _) => do
      let ctx ← r.ctx
      let currentid ← currentidVariable r
      let newid ← (← newidVariable hop.newidPcalloc hop.newid r)
      return ⟨proxy.forward r.headers
        [(IdField.parentid.header, currentid), (IdField.currentid.header, newid)],
        ctx :: w.passed⟩

def hops (core : Core) (proxy : Proxy) (headers : List Header) : Machine Wire HopLabel where
  start := ⟨headers, []⟩
  step := Wire.step core proxy

/-! ## Values -/

theorem clean_of_lt {value : List UInt8} (h : ∀ c ∈ value, 32 < c) : Clean value := by
  constructor
  · intro c hc
    have hlt := h c hc
    refine ⟨?_, ?_, ?_⟩ <;> rintro rfl <;> exact absurd hlt (by decide)
  · intro hhead
    exact absurd (h 32 (List.mem_of_mem_head? hhead)) (by decide)
  · intro hlast
    exact absurd (h 32 (List.mem_of_getLast? hlast)) (by decide)

theorem hexDigit_lt (d : Nat) (hd : d < 16) : 32 < hexDigit d := by
  have hall : ∀ d < 16, 32 < hexDigit d := by decide
  exact hall d hd

theorem random32_clean (n : Fin 4 → BitVec 32) : Clean (random32 n).bytes := by
  refine clean_of_lt fun c hc => ?_
  have hhex (n : BitVec 32) (hc : c ∈ hex8 n) : 32 < c := by
    obtain ⟨i, -, rfl⟩ := List.mem_map.mp hc
    exact hexDigit_lt _ (Nat.mod_lt _ (by decide))
  rcases List.mem_append.mp hc with hc | hc
  · rcases List.mem_append.mp hc with hc | hc
    · rcases List.mem_append.mp hc with hc | hc
      · exact hhex _ hc
      · exact hhex _ hc
    · exact hhex _ hc
  · exact hhex _ hc

theorem values_mem {name v : List UInt8} {headers : List Header} (h : values name headers = [v]) :
    ∃ x ∈ headers, x.named name = true ∧ x.value = v := by
  obtain ⟨x, hx, hv⟩ := List.mem_map.mp (h ▸ List.mem_singleton_self v)
  obtain ⟨hmem, hnamed⟩ := List.mem_filter.mp hx
  exact ⟨x, hmem, hnamed, hv⟩

/-- A header of the name has the one value. -/
theorem value_eq {name v : List UInt8} {headers : List Header} (h : values name headers = [v])
    {x : Header} (hx : x ∈ headers) (hnamed : x.named name = true) : x.value = v := by
  have hmem : x.value ∈ values name headers :=
    List.mem_map_of_mem (List.mem_filter.mpr ⟨hx, hnamed⟩)
  rw [h] at hmem
  exact List.mem_singleton.mp hmem

/-- Without `_` a variable is for the header of its name. -/
theorem varName_eq_iff {key name : List UInt8} (hkey : 95 ∉ key) (hname : 95 ∉ name) :
    varName key = varName name ↔ key.map tolower = name.map tolower := by
  constructor
  · intro heq
    rw [← varName_back hkey, heq, varName_back hname]
  · intro heq
    have hmap := congrArg (List.map fun c => if c = 45 then 95 else c) heq
    rw [List.map_map, List.map_map] at hmap
    exact hmap

section
variable {name var v : List UInt8} {headers : List Header}

/-- What is read for a name that is there once. -/
theorem unknownHeader_one (hplain : ∀ h ∈ headers, 95 ∉ h.key) (hname : 95 ∉ name)
    (hvar : var.drop httpLen = varName name) (h : values name headers = [v]) :
    core.unknownHeader headers var httpLen = some v := by
  obtain ⟨x, hx, hnamed, -⟩ := values_mem h
  rw [Header.named_iff] at hnamed
  cases hread : core.unknownHeader headers var httpLen with
  | none =>
    refine absurd ?_ (core.unknownHeader_none _ _ _ hread x hx hnamed.1)
    rw [hvar]
    exact (varName_eq_iff (hplain x hx) hname).mpr hnamed.2
  | some v' =>
    obtain ⟨y, hy, hlive, hyname, rfl⟩ := core.unknownHeader_some _ _ _ _ hread
    rw [hvar] at hyname
    have hsame := (varName_eq_iff (hplain y hy) hname).mp hyname
    rw [value_eq h hy (Header.named_iff.mpr ⟨hlive, hsame⟩)]

/-- Nothing is read for a name that is not there. -/
theorem unknownHeader_nil (hplain : ∀ h ∈ headers, 95 ∉ h.key) (hname : 95 ∉ name)
    (hvar : var.drop httpLen = varName name) (h : values name headers = []) :
    core.unknownHeader headers var httpLen = none := by
  by_contra hread
  obtain ⟨v, hv⟩ := Option.ne_none_iff_exists'.mp hread
  obtain ⟨x, hx, hlive, hxname, -⟩ := core.unknownHeader_some _ _ _ _ hv
  rw [hvar] at hxname
  have hnamed := Header.named_iff.mpr ⟨hlive, (varName_eq_iff (hplain x hx) hname).mp hxname⟩
  have hmem : x.value ∈ values name headers :=
    List.mem_map_of_mem (List.mem_filter.mpr ⟨hx, hnamed⟩)
  rw [h] at hmem
  cases hmem

end

/-- The debug header that is read, if there is at most one. -/
theorem asksDebug_iff {headers : List Header} (hplain : ∀ h ∈ headers, 95 ∉ h.key)
    (hone : (values debugName headers).length ≤ 1) :
    asksDebug core headers = true ↔ values debugName headers = [[49]] := by
  have hname : 95 ∉ debugName := by decide
  have hvar : (bytes "http_x_ntm_debug").drop httpLen = varName debugName := by decide
  unfold asksDebug
  match hvalues : values debugName headers with
  | [] =>
    rw [unknownHeader_nil hplain hname hvar hvalues]
    simp
  | [v] =>
    rw [unknownHeader_one hplain hname hvar hvalues]
    simp
  | _ :: _ :: _ =>
    rw [hvalues] at hone
    simp at hone

theorem IdField.header_plain (f : IdField) : 95 ∉ f.header := by cases f <;> decide

theorem IdField.var_drop (f : IdField) : f.var.drop httpLen = varName f.header := by
  cases f <;> rfl

theorem IdField.header_debug (f : IdField) : f.header.map tolower ≠ debugName.map tolower := by
  cases f <;> decide

theorem IdField.known (f : IdField) : f.header ∈ debugName :: idNames := by cases f <;> decide

/-! ## One server -/

/-- What `ngx_http_trace_first_request` leaves of the context. -/
theorem firstRequest_ctx (core : Core) (calls : Calls) (ctx : Ctx) (headers : List Header) :
    (firstRequest core calls ctx headers).2.1 = { ctx with
      traceid := random32 calls.traceid
      cid := random32 calls.cid
      pid := ⟨List.replicate 32 48, List.length_replicate⟩ } := by
  unfold firstRequest
  dsimp only
  split
  · rfl
  · split <;> rfl

theorem fillIds_new (calls : Calls) (ctx : Ctx) {headers : List Header}
    (h : ∃ f : IdField, core.unknownHeader headers f.var httpLen = none) :
    ∃ ctx1, fillIds core calls ctx headers = firstRequest core calls ctx1 headers := by
  obtain ⟨f, hf⟩ := h
  unfold fillIds
  rcases readIds_cases core headers ctx with ⟨ctx1, -, hread⟩ | ⟨ctx1, heq, -⟩
  · obtain ⟨v, hv, -⟩ := hread f
    rw [hf] at hv
    cases hv
  · rw [heq]
    exact ⟨ctx1, rfl⟩

/-- The context and the headers of a request that goes on. -/
theorem handler_declined {calls : Calls} {headers : List Header} {log log' : Log} {r : Request}
    (h : handler core true calls ⟨true, headers, none⟩ log = (.declined, r, log')) :
    ∃ ctx headers', r = ⟨true, headers', some ctx⟩ ∧
      fillIds core calls (startDebug core headers { log with traced := true }).1 headers =
        (true, ctx, headers') := by
  have hpcalloc : calls.pcalloc = true := by
    by_contra hno
    rw [Bool.not_eq_true] at hno
    unfold handler at h
    rw [hno] at h
    cases h
  rcases hstart : startDebug core headers { log with traced := true } with ⟨ctx0, log0⟩
  rw [handler_traced rfl rfl hpcalloc log hstart] at h
  rcases hfill : fillIds core calls ctx0 headers with ⟨ok, ctx, headers'⟩
  rw [hfill] at h
  cases ok with
  | false => cases h
  | true => exact ⟨ctx, headers', (congrArg (fun x => x.2.1) h).symm, rfl⟩

/-- Before a server: none of the ids is sent, or all are with 32 bytes. -/
def Sends (headers : List Header) : Prop :=
  (∀ f : IdField, values f.header headers = []) ∨
    ∀ f : IdField, ∃ v, values f.header headers = [v] ∧ v.length = 32

/-- The ids of the first server: those that are sent, or new ones without a parent. -/
def Begins (headers : List Header) (ctx : Ctx) : Prop :=
  (∀ f : IdField, values f.header headers = [(f.id ctx).bytes]) ∨
    (∀ f : IdField, values f.header headers = []) ∧ ctx.pid.bytes = List.replicate 32 48

/-- What a server makes of the headers of a request. -/
structure Taken (core : Core) (headers headers' : List Header) (ctx : Ctx) : Prop where
  sound : ∀ h ∈ headers', h.Sound
  begins : Begins headers ctx
  debug : ctx.debug = asksDebug core headers
  values_debug : values debugName headers' = values debugName headers
  values_id : ∀ f : IdField, values f.header headers' = [(f.id ctx).bytes]

theorem added_sound {core : Core} {ctx : Ctx} (h : ∀ f : IdField, Clean (f.id ctx).bytes) :
    ∀ x ∈ [added core ctx .traceid, added core ctx .currentid, added core ctx .parentid],
      x.Sound := by
  have hone (f : IdField) : (added core ctx f).Sound := by
    refine ⟨f.header_plain, h f, ?_⟩
    show some (core.hashStrlow f.header).1 = _
    rw [core.hashStrlow_eq]
    rfl
  intro x hx
  simp only [List.mem_cons, List.not_mem_nil, or_false] at hx
  rcases hx with rfl | rfl | rfl
  · exact hone .traceid
  · exact hone .currentid
  · exact hone .parentid

theorem values_added_debug (core : Core) (ctx : Ctx) (headers : List Header) :
    values debugName
        (headers ++
          [added core ctx .traceid, added core ctx .currentid, added core ctx .parentid]) =
      values debugName headers := by
  have hnot (f : IdField) : (added core ctx f).named debugName = false := by
    rw [Bool.eq_false_iff, Ne, Header.named_iff]
    rintro ⟨-, hname⟩
    exact f.header_debug hname
  unfold values
  rw [List.filter_append]
  simp only [List.filter_cons, List.filter_nil, hnot, Bool.false_eq_true, if_false,
    List.append_nil]

theorem startDebug_debug (headers : List Header) (log : Log) :
    (startDebug core headers log).1.debug = asksDebug core headers := by
  unfold startDebug
  split
  · next hasks => exact hasks.symm
  · next hasks => exact (Bool.eq_false_iff.mpr hasks).symm

/-- New ids, and a header for each: what a server does with a request that sends none. -/
theorem taken_new {calls : Calls} {ctx ctx' : Ctx} {headers headers' : List Header}
    (hsound : ∀ h ∈ headers, h.Sound) (hnone : ∀ f : IdField, values f.header headers = [])
    (hdebug : ctx'.debug = asksDebug core headers)
    (hfill : fillIds core calls ctx headers = (true, ctx', headers')) :
    Taken core headers headers' ctx' := by
  have hmissing : core.unknownHeader headers IdField.traceid.var httpLen = none :=
    unknownHeader_nil (fun h hh => (hsound h hh).plain) IdField.traceid.header_plain
      IdField.traceid.var_drop (hnone .traceid)
  obtain ⟨ctx1, hnew⟩ := fillIds_new calls ctx ⟨.traceid, hmissing⟩
  rw [hfill] at hnew
  have hctx := (congrArg (fun x => x.2.1) hnew).trans (firstRequest_ctx core calls ctx1 headers)
  have hheaders : headers' = _ := firstRequest_true hnew.symm
  have hclean (f : IdField) : Clean (f.id ctx').bytes := by
    subst hctx
    cases f with
    | traceid => exact random32_clean calls.traceid
    | currentid => exact random32_clean calls.cid
    | parentid =>
      refine clean_of_lt fun c hc => ?_
      rw [List.eq_of_mem_replicate hc]
      decide
  subst hheaders
  refine ⟨fun x hx => ?_, .inr ⟨hnone, ?_⟩, hdebug, values_added_debug .., fun f => ?_⟩
  · rcases List.mem_append.mp hx with hx | hx
    · exact hsound x hx
    · exact added_sound hclean x hx
  · subst hctx
    rfl
  · have hf := hnone f
    unfold values at hf ⊢
    rw [filter_added, List.map_append, hf]
    rfl

/-- The ids that a request sends are read, and the headers stay. -/
theorem taken_sent {calls : Calls} {ctx ctx' : Ctx} {headers headers' : List Header}
    (hsound : ∀ h ∈ headers, h.Sound)
    (hall : ∀ f : IdField, ∃ v, values f.header headers = [v] ∧ v.length = 32)
    (hzero : ∀ f : IdField, f.id ctx = Id.zero)
    (hdebug : ctx'.debug = asksDebug core headers)
    (hfill : fillIds core calls ctx headers = (true, ctx', headers')) :
    Taken core headers headers' ctx' := by
  have hread (f : IdField) {v} (hv : values f.header headers = [v]) :
      core.unknownHeader headers f.var httpLen = some v :=
    unknownHeader_one (fun h hh => (hsound h hh).plain) f.header_plain f.var_drop hv
  rcases fillIds_cases hfill with ⟨rfl, hids⟩ | ⟨⟨f, hf⟩, -⟩
  · have hsame (f : IdField) : values f.header headers' = [(f.id ctx').bytes] := by
      obtain ⟨v, hv, hlen⟩ := hall f
      obtain ⟨v', hv', hid⟩ := hids f
      obtain rfl : v = v' := Option.some.inj ((hread f hv).symm.trans hv')
      rw [hid, hzero, hv, memcpy_zero, List.take_append_of_le_length hlen.ge,
        List.take_of_length_le hlen.le]
    exact ⟨hsound, .inl hsame, hdebug, rfl, hsame⟩
  · obtain ⟨v, hv, -⟩ := hall f
    rw [hread f hv] at hf
    cases hf

theorem taken {calls : Calls} {headers : List Header} {log log' : Log} {r : Request}
    (hsound : ∀ h ∈ headers, h.Sound) (hsends : Sends headers)
    (h : handler core true calls ⟨true, headers, none⟩ log = (.declined, r, log')) :
    ∃ ctx headers', r = ⟨true, headers', some ctx⟩ ∧ Taken core headers headers' ctx := by
  obtain ⟨ctx, headers', rfl, hfill⟩ := handler_declined h
  have hdebug : ctx.debug = asksDebug core headers := by
    have hkept := (fillIds_debug core calls
      (startDebug core headers { log with traced := true }).1 headers).1
    rw [hfill] at hkept
    exact hkept.trans (startDebug_debug headers _)
  refine ⟨ctx, headers', rfl, ?_⟩
  rcases hsends with hnone | hall
  · exact taken_new hsound hnone hdebug hfill
  · exact taken_sent hsound hall (startDebug_id core headers _) hdebug hfill

/-! ## Runs -/

theorem values_clean {name v : List UInt8} {headers : List Header}
    (hsound : ∀ h ∈ headers, h.Sound) (h : values name headers = [v]) : Clean v := by
  obtain ⟨x, hx, -, rfl⟩ := values_mem h
  exact (hsound x hx).clean

/-- The headers that a traced server sets for the next one. -/
def nextIds (cid newid : Id) : List (List UInt8 × List UInt8) :=
  [(IdField.parentid.header, cid.bytes), (IdField.currentid.header, newid.bytes)]

theorem nextIds_sound {cid newid : Id} (hcid : Clean cid.bytes) (hnewid : Clean newid.bytes) :
    SetSound (nextIds cid newid) where
  known p hp := by
    rcases List.mem_pair.mp hp with rfl | rfl
    · exact IdField.parentid.known
    · exact IdField.currentid.known
  clean p hp := by
    rcases List.mem_pair.mp hp with rfl | rfl
    · exact ⟨hcid, List.ne_nil_of_length_pos (by rw [cid.size]; decide)⟩
    · exact ⟨hnewid, List.ne_nil_of_length_pos (by rw [newid.size]; decide)⟩
  distinct := by
    show [IdField.parentid.header.map tolower, IdField.currentid.header.map tolower].Nodup
    decide

theorem noneSet : SetSound [] where
  known _ hp := absurd hp List.not_mem_nil
  clean _ hp := absurd hp List.not_mem_nil
  distinct := List.nodup_nil

theorem Wire.step_traced {proxy : Proxy} {w w' : Wire} {hop : Hop}
    (h : w.step core proxy (.traced hop) = some w') :
    ∃ r log ctx, handler core true hop.calls ⟨true, w.headers, none⟩ hop.log =
        (.declined, r, log) ∧ r.ctx = some ctx ∧
      w' = ⟨proxy.forward r.headers (nextIds ctx.cid (random32 hop.newid)), ctx :: w.passed⟩ := by
  unfold Wire.step at h
  rcases hhandler : handler core true hop.calls ⟨true, w.headers, none⟩ hop.log with
    ⟨ret, r, log⟩
  simp only [hhandler] at h
  cases ret with
  | internalServerError => cases h
  | declined =>
    obtain ⟨ctx, hctx, h⟩ := Option.bind_eq_some_iff.mp h
    refine ⟨r, log, ctx, rfl, hctx, ?_⟩
    unfold currentidVariable idVariable newidVariable at h
    rw [hctx] at h
    by_cases hpcalloc : hop.newidPcalloc = false
    · rw [hpcalloc] at h
      cases h
    · simp only [hpcalloc] at h
      exact (Option.some.inj h).symm

/-- What holds of a request whose headers were `headers` before the first server. -/
structure Wire.Sound (core : Core) (headers : List Header) (w : Wire) : Prop where
  sound : ∀ h ∈ w.headers, h.Sound
  sends : Sends w.headers
  debug : values debugName w.headers = values debugName headers
  start : w.passed = [] → ∀ f : IdField, values f.header w.headers = values f.header headers
  trace : ∀ ctx ∈ w.passed, values IdField.traceid.header w.headers = [ctx.traceid.bytes] ∧
    ctx.debug = asksDebug core headers
  next : ∀ ctx ∈ w.passed.head?, values IdField.parentid.header w.headers = [ctx.cid.bytes]
  chain : w.passed.IsChain fun ctx before => ctx.pid = before.cid
  first : ∀ ctx ∈ w.passed.getLast?, Begins headers ctx

theorem Wire.Sound.relay {proxy : Proxy} {headers : List Header} {w : Wire}
    (h : w.Sound core headers) :
    Wire.Sound core headers { w with headers := proxy.forward w.headers [] } := by
  have hdebug := proxy.kept w.headers [] h.sound noneSet debugName List.mem_cons_self
    fun _ hp => absurd hp List.not_mem_nil
  have hids (f : IdField) := proxy.kept w.headers [] h.sound noneSet f.header f.known
    fun _ hp => absurd hp List.not_mem_nil
  refine ⟨proxy.sound _ _ h.sound noneSet, ?_, hdebug.trans h.debug,
    fun hnil f => (hids f).trans (h.start hnil f), fun ctx hctx => ?_, fun ctx hctx => ?_,
    h.chain, h.first⟩
  · exact h.sends.imp (fun hnone f => (hids f).trans (hnone f)) fun hall f =>
      (hall f).imp fun v hv => ⟨(hids f).trans hv.1, hv.2⟩
  · exact ⟨(hids .traceid).trans (h.trace ctx hctx).1, (h.trace ctx hctx).2⟩
  · exact (hids .parentid).trans (h.next ctx hctx)

/-- The next server reads the trace id of this one, and the ids that the location sets. -/
theorem Taken.forward {headers headers' : List Header} {ctx : Ctx} (proxy : Proxy)
    (htaken : Taken core headers headers' ctx) {newid : Id} (hnewid : Clean newid.bytes) :
    (∀ h ∈ proxy.forward headers' (nextIds ctx.cid newid), h.Sound) ∧
      values debugName (proxy.forward headers' (nextIds ctx.cid newid)) = values debugName headers ∧
      values IdField.traceid.header (proxy.forward headers' (nextIds ctx.cid newid)) =
        [ctx.traceid.bytes] ∧
      values IdField.parentid.header (proxy.forward headers' (nextIds ctx.cid newid)) =
        [ctx.cid.bytes] ∧
      values IdField.currentid.header (proxy.forward headers' (nextIds ctx.cid newid)) =
        [newid.bytes] := by
  have hset := nextIds_sound (values_clean htaken.sound (htaken.values_id .currentid)) hnewid
  refine ⟨proxy.sound _ _ htaken.sound hset, ?_, ?_, ?_, ?_⟩
  · refine (proxy.kept _ _ htaken.sound hset _ List.mem_cons_self fun p hp => ?_).trans
      htaken.values_debug
    rcases List.mem_pair.mp hp with rfl | rfl
    · exact IdField.parentid.header_debug
    · exact IdField.currentid.header_debug
  · refine (proxy.kept _ _ htaken.sound hset _ IdField.traceid.known fun p hp => ?_).trans
      (htaken.values_id .traceid)
    rcases List.mem_pair.mp hp with rfl | rfl
    · exact mt (IdField.header_lower .parentid .traceid).mp (by decide)
    · exact mt (IdField.header_lower .currentid .traceid).mp (by decide)
  · exact proxy.set _ _ htaken.sound hset (IdField.parentid.header, ctx.cid.bytes)
      List.mem_cons_self
  · exact proxy.set _ _ htaken.sound hset (IdField.currentid.header, newid.bytes)
      (List.mem_cons_of_mem _ List.mem_cons_self)

theorem Id.eq_of_bytes {a b : Id} (h : a.bytes = b.bytes) : a = b := by
  cases a
  cases b
  cases h
  rfl

/-- The ids that the server before has put into the headers are the ones that are read. -/
theorem Wire.Sound.read {headers headers' : List Header} {w : Wire} {ctx before : Ctx}
    (h : w.Sound core headers) (htaken : Taken core w.headers headers' ctx)
    (hbefore : before ∈ w.passed.head?) :
    ctx.traceid.bytes = before.traceid.bytes ∧ ctx.pid = before.cid := by
  have htraceid := (h.trace before (List.mem_of_mem_head? hbefore)).1
  have hparentid := h.next before hbefore
  rcases htaken.begins with hsame | ⟨hnone, -⟩
  · exact ⟨List.singleton_inj.mp ((hsame .traceid).symm.trans htraceid),
      Id.eq_of_bytes (List.singleton_inj.mp ((hsame .parentid).symm.trans hparentid))⟩
  · rw [hnone .traceid] at htraceid
    cases htraceid

/-- A traced server has the trace id and the debug flag of the one before, and its cid as
the parent's. -/
theorem Wire.Sound.traced {proxy : Proxy} {headers headers' : List Header} {w : Wire} {ctx : Ctx}
    (hdebug : (values debugName headers).length ≤ 1) (hplain : ∀ h ∈ headers, 95 ∉ h.key)
    (h : w.Sound core headers) (htaken : Taken core w.headers headers' ctx) (newid : Id)
    (hnewid : Clean newid.bytes) :
    Wire.Sound core headers ⟨proxy.forward headers' (nextIds ctx.cid newid), ctx :: w.passed⟩ := by
  obtain ⟨hsound, hold, htrace, hparent, hcurrent⟩ := htaken.forward proxy hnewid
  have hasks : ctx.debug = asksDebug core headers := by
    have hone := h.debug ▸ hdebug
    rw [htaken.debug, Bool.eq_iff_iff,
      asksDebug_iff (fun x hx => (h.sound x hx).plain) hone, asksDebug_iff hplain hdebug, h.debug]
  refine ⟨hsound, .inr fun f => ?_, hold.trans h.debug,
    fun hnil => absurd hnil (List.cons_ne_nil _ _), fun ctx' hctx' => ?_, fun ctx' hctx' => ?_,
    List.isChain_cons.mpr ⟨fun before hbefore => (h.read htaken hbefore).2, h.chain⟩,
    fun ctx' hctx' => ?_⟩
  · cases f with
    | traceid => exact ⟨_, htrace, ctx.traceid.size⟩
    | currentid => exact ⟨_, hcurrent, newid.size⟩
    | parentid => exact ⟨_, hparent, ctx.cid.size⟩
  · rcases List.mem_cons.mp hctx' with rfl | hmem
    · exact ⟨htrace, hasks⟩
    · have hbefore := h.trace ctx' hmem
      refine ⟨?_, hbefore.2⟩
      -- all that passed have the id of the last one
      cases hpassed : w.passed with
      | nil =>
        rw [hpassed] at hmem
        cases hmem
      | cons last rest =>
        have hlast : last ∈ w.passed := hpassed ▸ List.mem_cons_self
        have heq := (h.trace last hlast).1.symm.trans hbefore.1
        have hhead : last ∈ w.passed.head? := by
          rw [hpassed]
          rfl
        rw [htrace, (h.read htaken hhead).1]
        exact heq
  · obtain rfl := Option.some.inj hctx'
    exact hparent
  · cases hpassed : w.passed with
    | nil =>
      rw [hpassed] at hctx'
      obtain rfl := Option.some.inj hctx'
      exact htaken.begins.imp (fun hsame f => (h.start hpassed f).symm.trans (hsame f))
        fun hnew => ⟨fun f => (h.start hpassed f).symm.trans (hnew.1 f), hnew.2⟩
    | cons last rest =>
      rw [hpassed] at hctx'
      exact h.first ctx' (by rw [hpassed]; exact hctx')

theorem Wire.Sound.step {proxy : Proxy} {headers : List Header} {w w' : Wire}
    (hdebug : (values debugName headers).length ≤ 1) (hplain : ∀ h ∈ headers, 95 ∉ h.key)
    (h : w.Sound core headers) (i : HopLabel) (hst : w.step core proxy i = some w') :
    w'.Sound core headers := by
  cases i with
  | relay =>
    cases hst
    exact h.relay
  | traced hop =>
    obtain ⟨r, log, ctx, hhandler, hctx, rfl⟩ := Wire.step_traced hst
    obtain ⟨ctx', headers', rfl, htaken⟩ := taken h.sound h.sends hhandler
    obtain rfl := Option.some.inj hctx
    exact h.traced hdebug hplain htaken _ (random32_clean hop.newid)

/-- **One trace over all servers.**  A request, whose headers nginx reads as they were sent,
comes with none of the ids, or with each once and 32 bytes, and with at most one debug
header.  However many servers it passes, and ordinary
proxies between them, they all have one trace id, the debug variable of each says whether the
request asked for it, the parent id of each is the current id of the one before, and the first
has the ids that came or new ones without a parent. -/
theorem reach_hops (core : Core) (proxy : Proxy) (headers : List Header)
    (hsound : ∀ h ∈ headers, h.Sound) (hsends : Sends headers)
    (hdebug : (values debugName headers).length ≤ 1) (w : Wire)
    (hw : (hops core proxy headers).Reach w) :
    (∀ ctx ∈ w.passed, ∀ ctx' ∈ w.passed,
        ctx.traceid.bytes = ctx'.traceid.bytes ∧ ctx.debug = ctx'.debug) ∧
      (∀ ctx ∈ w.passed, values IdField.traceid.header w.headers = [ctx.traceid.bytes] ∧
        ∀ r : Request, r.ctx = some ctx →
          debugVariable r = some (if asksDebug core headers then [49] else [48])) ∧
      (w.passed.IsChain fun ctx before => ctx.pid = before.cid) ∧
      ∀ ctx ∈ w.passed.getLast?, Begins headers ctx := by
  have h : w.Sound core headers := hw.invariant (P := Wire.Sound core headers)
    ⟨hsound, hsends, rfl, fun _ _ => rfl, fun _ hctx => absurd hctx List.not_mem_nil,
      fun _ hctx => (by cases hctx), List.isChain_nil, fun _ hctx => (by cases hctx)⟩
    fun _ i _ _ h hst => h.step hdebug (fun x hx => (hsound x hx).plain) i hst
  refine ⟨fun ctx hctx ctx' hctx' => ⟨?_, ?_⟩,
    fun ctx hctx => ⟨(h.trace ctx hctx).1, fun r hr => ?_⟩, h.chain, h.first⟩
  · exact List.singleton_inj.mp ((h.trace ctx hctx).1.symm.trans (h.trace ctx' hctx').1)
  · exact (h.trace ctx hctx).2.trans (h.trace ctx' hctx').2.symm
  · unfold debugVariable
    rw [hr, Option.map_some, (h.trace ctx hctx).2]

/-! ## A proxy -/

/-- The set headers come first, then the ones that they do not replace. -/
def plainForward (headers : List Header) (hs : List (List UInt8 × List UInt8)) : List Header :=
  (hs.map fun p => ⟨p.1, p.2, some (p.1.map tolower), 1⟩) ++
    headers.filter fun h => hs.all fun p => p.1.map tolower != h.key.map tolower

theorem values_append (name : List UInt8) (headers headers' : List Header) :
    values name (headers ++ headers') = values name headers ++ values name headers' := by
  unfold values
  rw [List.filter_append, List.map_append]

/-- Of the set headers, those of a name. -/
theorem values_set (name : List UInt8) (hs : List (List UInt8 × List UInt8)) :
    values name (hs.map fun p => ⟨p.1, p.2, some (p.1.map tolower), 1⟩) =
      (hs.filter fun p => p.1.map tolower == name.map tolower).map Prod.snd := by
  unfold values
  rw [List.filter_map, List.map_map]
  rfl

theorem values_unset {name : List UInt8} {headers : List Header}
    {hs : List (List UInt8 × List UInt8)} :
    values name (headers.filter fun h => hs.all fun p => p.1.map tolower != h.key.map tolower) =
      if ∀ p ∈ hs, p.1.map tolower ≠ name.map tolower then values name headers else [] := by
  unfold values
  rw [List.filter_filter]
  split
  · next hall =>
    congr 1
    refine List.filter_congr fun h _ => ?_
    rw [Bool.eq_iff_iff, Bool.and_eq_true, Header.named_iff, List.all_eq_true]
    refine and_iff_left_of_imp fun hnamed p hp => ?_
    rw [bne_iff_ne, hnamed.2]
    exact hall p hp
  · next hsome =>
    rw [List.map_eq_nil_iff, List.filter_eq_nil_iff]
    intro h _ hboth
    rw [Bool.and_eq_true, Header.named_iff, List.all_eq_true] at hboth
    refine hsome fun p hp => ?_
    rw [← hboth.1.2, ← bne_iff_ne]
    exact hboth.2 p hp

/-- Of different names one is a name's. -/
theorem filter_distinct {hs : List (List UInt8 × List UInt8)}
    (h : (hs.map fun p => p.1.map tolower).Nodup) {p : List UInt8 × List UInt8} (hp : p ∈ hs) :
    hs.filter (fun q => q.1.map tolower == p.1.map tolower) = [p] := by
  induction hs with
  | nil => cases hp
  | cons q hs ih =>
    rw [List.map_cons, List.nodup_cons, List.mem_map] at h
    rcases List.mem_cons.mp hp with rfl | hp
    · rw [List.filter_cons_of_pos (by simp), List.filter_eq_nil_iff.mpr]
      intro q hq hsame
      exact h.1 ⟨q, hq, beq_iff_eq.mp hsame⟩
    · rw [List.filter_cons_of_neg, ih h.2 hp]
      intro hsame
      exact h.1 ⟨p, hp, (beq_iff_eq.mp hsame).symm⟩

def plainProxy : Proxy where
  forward := plainForward
  sound headers hs hsound hset x hx := by
    rcases List.mem_append.mp hx with hx | hx
    · obtain ⟨p, hp, rfl⟩ := List.mem_map.mp hx
      have hplain : ∀ name ∈ debugName :: idNames, 95 ∉ name := by decide
      exact ⟨hplain _ (hset.known p hp), (hset.clean p hp).1, rfl⟩
    · exact hsound x (List.mem_filter.mp hx).1
  set headers hs _ hset p hp := by
    unfold plainForward
    rw [values_append, values_set, values_unset, if_neg fun hall => hall p hp rfl,
      filter_distinct hset.distinct hp]
    rfl
  kept headers hs _ _ name _ hall := by
    unfold plainForward
    rw [values_append, values_set, values_unset, if_pos hall, List.filter_eq_nil_iff.mpr]
    · rfl
    · intro p hp hsame
      exact hall p hp (beq_iff_eq.mp hsame)

/-- A server whose random numbers are all `n`. -/
def hopOf (n : BitVec 32) : Hop where
  calls := { fullCalls with traceid := fun _ => n, cid := fun _ => n }
  log := ⟨4, false⟩
  newidPcalloc := true
  newid := fun _ => n + 1

/-- A request that asks for debug passes three traced servers and a proxy. -/
theorem reach_hops_three : ∃ w : Wire,
    (hops firstCore plainProxy [debugHeader]).run ⟨[debugHeader], []⟩
      [.traced (hopOf 1), .traced (hopOf 3), .relay, .traced (hopOf 5)] = some w ∧
    w.passed.map (fun ctx => (ctx.cid.bytes, ctx.pid.bytes)) =
      [((random32 fun _ => 4).bytes, (random32 fun _ => 2).bytes),
        ((random32 fun _ => 2).bytes, (random32 fun _ => 1).bytes),
        ((random32 fun _ => 1).bytes, List.replicate 32 48)] ∧
    ∀ ctx ∈ w.passed, values IdField.traceid.header w.headers = [ctx.traceid.bytes] ∧
      ∀ r : Request, r.ctx = some ctx →
        debugVariable r = some (if asksDebug firstCore [debugHeader] then [49] else [48]) := by
  have hsound : ∀ h ∈ [debugHeader], h.Sound := by
    intro h hh
    obtain rfl := List.mem_singleton.mp hh
    refine ⟨by decide, clean_of_lt fun c hc => ?_, rfl⟩
    rw [List.mem_singleton.mp hc]
    decide
  have hsends : Sends [debugHeader] := .inl fun f => by cases f <;> rfl
  refine ⟨_, rfl, rfl, (reach_hops firstCore plainProxy [debugHeader] hsound hsends
    (by decide) _ ?_).2.1⟩
  exact Machine.reach_run _
    [.traced (hopOf 1), .traced (hopOf 3), .relay, .traced (hopOf 5)] rfl

end NgxToolkit.HttpTrace
