import Mathlib.Tactic.Common
import NgxToolkit.HttpTraceRuns

/-! The headers of the ids after `ngx_http_trace_handler`.

The ids are either all copied from the headers, or all new ones with a header added
for each.  So the headers carry the ids if the client sends none of them, or
all three with the size of an id.

* `fillIds_cases`: where the ids are from.
* `handler_carries`: which lists of headers carry the ids after the handler.
* `suits_iff`: the same for names without `_`. -/

namespace NgxToolkit.HttpTrace

open Lib

variable {core : Core}

/-! ## Names -/

/-- A header in the list has the name, in whatever case. -/
def Header.named (name : List UInt8) (h : Header) : Bool :=
  h.hash != 0 && h.key.map tolower == name.map tolower

/-- At most one header of each name. -/
def AtMostOne (headers : List Header) : Prop :=
  ∀ name, (headers.filter (Header.named name)).length ≤ 1

/-- There is one header for each id, its value is the id, and this is the value of the variable
and the text in the log. -/
structure Carries (r : Request) (ctx : Ctx) : Prop where
  kept : r.ctx = some ctx
  one (f : IdField) :
    (r.headers.filter (Header.named f.header)).map Header.value = [(f.id ctx).bytes]
  returned (f : IdField) : f.variable r = some (f.id ctx).bytes
  logged : logIds r = logText (IdField.traceid.id ctx).bytes (IdField.currentid.id ctx).bytes
    (IdField.parentid.id ctx).bytes

/-- None of the ids is sent, and one cannot be read; or all are sent with 32 bytes, and the
value that is read for each begins with these, with zeros behind it. -/
def Suits (core : Core) (headers : List Header) : Prop :=
  (∀ f : IdField, ∀ h ∈ headers, h.named f.header = false) ∧
      (∃ f : IdField, core.unknownHeader headers f.var httpLen = none) ∨
    ∀ f : IdField, ∃ h ∈ headers, h.named f.header = true ∧ h.value.length = 32 ∧
      ∃ v, core.unknownHeader headers f.var httpLen = some v ∧
        h.value <+: v ++ List.replicate 32 0

theorem Header.named_iff {name : List UInt8} {h : Header} :
    h.named name = true ↔ h.hash ≠ 0 ∧ h.key.map tolower = name.map tolower := by
  unfold Header.named
  rw [Bool.and_eq_true, bne_iff_ne, beq_iff_eq]

theorem eq_singleton {l : List Header} (hone : l.length ≤ 1) {h : Header} (hmem : h ∈ l) :
    l = [h] := by
  obtain ⟨h', rfl⟩ := List.length_eq_one_iff.mp
    (Nat.le_antisymm hone (List.length_pos_of_mem hmem))
  obtain rfl := List.mem_singleton.mp hmem
  rfl

theorem map_value_eq_iff {l : List Header} (hone : l.length ≤ 1) (v : List UInt8) :
    l.map Header.value = [v] ↔ ∃ h ∈ l, h.value = v := by
  rw [List.map_eq_singleton_iff]
  constructor
  · rintro ⟨h, rfl, hv⟩
    exact ⟨h, List.mem_singleton_self h, hv⟩
  · rintro ⟨h, hmem, hv⟩
    exact ⟨h, eq_singleton hone hmem, hv⟩

theorem memcpy_zero (v : List UInt8) :
    (Id.zero.memcpy v).bytes = (v ++ List.replicate 32 0).take 32 := by
  show v.take (min v.length 32) ++ (List.replicate 32 0).drop (min v.length 32) = _
  rw [List.take_append, List.drop_replicate, List.take_replicate]
  congr 1
  · rw [List.take_eq_take_iff]
    omega
  · congr 1
    omega

theorem eq_memcpy_zero_iff (x v : List UInt8) :
    x = (Id.zero.memcpy v).bytes ↔ x.length = 32 ∧ x <+: v ++ List.replicate 32 0 := by
  constructor
  · rintro rfl
    refine ⟨Id.size _, ?_⟩
    rw [memcpy_zero]
    exact List.take_prefix _ _
  · rintro ⟨hlen, hprefix⟩
    have htake := List.prefix_iff_eq_take.mp hprefix
    rw [hlen] at htake
    rw [memcpy_zero]
    exact htake

/-! ## Names without `_` -/

theorem tolower_ne_underscore {c : UInt8} (hc : c ≠ 95) : tolower c ≠ 95 := by
  have hall : ∀ n < 256, n.toUInt8 ≠ 95 → tolower n.toUInt8 ≠ 95 := by decide +kernel
  have hsame : c.toNat.toUInt8 = c := by simp
  have h := hall c.toNat c.toNat_lt
  rw [hsame] at h
  exact h hc

theorem varName_back {key : List UInt8} (h : 95 ∉ key) :
    (varName key).map (fun c => if c = 95 then 45 else c) = key.map tolower := by
  unfold varName
  rw [List.map_map]
  refine List.map_congr_left fun c hc => ?_
  have hne := tolower_ne_underscore fun he => h (he ▸ hc)
  show (if (if tolower c = 45 then 95 else tolower c) = 95 then 45 else _) = tolower c
  split <;> simp_all

/-- Without `_` the variable of an id is for its header. -/
theorem varName_iff {key : List UInt8} (h : 95 ∉ key) (f : IdField) :
    varName key = f.var.drop httpLen ↔ key.map tolower = f.header.map tolower := by
  have hvar : f.var.drop httpLen = varName f.header := by cases f <;> rfl
  have hheader : 95 ∉ f.header := by cases f <;> decide
  rw [hvar]
  constructor
  · intro heq
    rw [← varName_back h, heq, varName_back hheader]
  · intro heq
    have hmap := congrArg (List.map fun c => if c = 45 then 95 else c) heq
    rw [List.map_map, List.map_map] at hmap
    exact hmap

section
variable {headers : List Header} (hplain : ∀ h ∈ headers, 95 ∉ h.key)

include hplain

theorem read_some {f : IdField} {v : List UInt8}
    (hv : core.unknownHeader headers f.var httpLen = some v) :
    ∃ h ∈ headers, h.named f.header = true ∧ h.value = v := by
  obtain ⟨h, hmem, hlive, hname, hvalue⟩ := core.unknownHeader_some _ _ _ _ hv
  exact ⟨h, hmem, Header.named_iff.mpr ⟨hlive, (varName_iff (hplain h hmem) f).mp hname⟩, hvalue⟩

theorem read_none {f : IdField} (hnone : core.unknownHeader headers f.var httpLen = none) :
    ∀ h ∈ headers, h.named f.header = false := by
  intro h hmem
  rw [Bool.eq_false_iff, Ne, Header.named_iff]
  rintro ⟨hlive, hname⟩
  exact core.unknownHeader_none _ _ _ hnone h hmem hlive ((varName_iff (hplain h hmem) f).mpr hname)

/-- Names without `_`: either none of the ids is sent, or all are with 32 bytes. -/
theorem suits_iff (hone : AtMostOne headers) :
    Suits core headers ↔ (∀ f : IdField, ∀ h ∈ headers, h.named f.header = false) ∨
      ∀ f : IdField, ∃ h ∈ headers, h.named f.header = true ∧ h.value.length = 32 := by
  constructor
  · rintro (⟨hnot, -⟩ | hall)
    · exact .inl hnot
    · refine .inr fun f => ?_
      obtain ⟨h, hmem, hname, hlen, -⟩ := hall f
      exact ⟨h, hmem, hname, hlen⟩
  · rintro (hnot | hall)
    · refine .inl ⟨hnot, .traceid, ?_⟩
      by_contra hread
      obtain ⟨v, hv⟩ := Option.ne_none_iff_exists'.mp hread
      obtain ⟨h, hmem, hname, -⟩ := read_some hplain hv
      rw [hnot .traceid h hmem] at hname
      cases hname
    · refine .inr fun f => ?_
      obtain ⟨h, hmem, hname, hlen⟩ := hall f
      cases hv : core.unknownHeader headers f.var httpLen with
      | none =>
        rw [read_none hplain hv h hmem] at hname
        cases hname
      | some v =>
        obtain ⟨h', hmem', hname', rfl⟩ := read_some hplain hv
        -- the header that is read is the one that is sent
        have hfilter := eq_singleton (hone f.header) (List.mem_filter.mpr ⟨hmem, hname⟩)
        have hsame : h' ∈ headers.filter (Header.named f.header) :=
          List.mem_filter.mpr ⟨hmem', hname'⟩
        rw [hfilter, List.mem_singleton] at hsame
        subst hsame
        exact ⟨h', hmem, hname, hlen, _, rfl, List.prefix_append _ _⟩

end

/-! ## Where the ids are from -/

theorem readId_some {headers : List Header} {f : IdField} {ctx ctx' : Ctx}
    (h : readId core headers f ctx = some ctx') :
    ∃ v, core.unknownHeader headers f.var httpLen = some v ∧
      ctx' = f.set ctx ((f.id ctx).memcpy v) := by
  obtain ⟨v, hv, rfl⟩ := Option.map_eq_some_iff.mp h
  exact ⟨v, hv, rfl⟩

theorem readId_none {headers : List Header} {f : IdField} {ctx : Ctx}
    (h : readId core headers f ctx = none) :
    core.unknownHeader headers f.var httpLen = none :=
  Option.map_eq_none_iff.mp h

theorem readIds_cases (core : Core) (headers : List Header) (ctx : Ctx) :
    (∃ ctx', readIds core headers ctx = (true, ctx') ∧
      ∀ f : IdField, ∃ v, core.unknownHeader headers f.var httpLen = some v ∧
        f.id ctx' = (f.id ctx).memcpy v) ∨
    (∃ ctx', readIds core headers ctx = (false, ctx') ∧
      ∃ f : IdField, core.unknownHeader headers f.var httpLen = none) := by
  unfold readIds
  cases htraceid : readId core headers .traceid ctx with
  | none => exact .inr ⟨_, rfl, _, readId_none htraceid⟩
  | some ctx1 =>
    dsimp only
    cases hcurrentid : readId core headers .currentid ctx1 with
    | none => exact .inr ⟨_, rfl, _, readId_none hcurrentid⟩
    | some ctx2 =>
      dsimp only
      cases hparentid : readId core headers .parentid ctx2 with
      | none => exact .inr ⟨_, rfl, _, readId_none hparentid⟩
      | some ctx3 =>
        obtain ⟨v1, h1, rfl⟩ := readId_some htraceid
        obtain ⟨v2, h2, rfl⟩ := readId_some hcurrentid
        obtain ⟨v3, h3, rfl⟩ := readId_some hparentid
        refine .inl ⟨_, rfl, fun f => ?_⟩
        cases f with
        | traceid => exact ⟨v1, h1, rfl⟩
        | currentid => exact ⟨v2, h2, rfl⟩
        | parentid => exact ⟨v3, h3, rfl⟩

/-- The header that is added for an id. -/
def added (core : Core) (ctx : Ctx) (f : IdField) : Header :=
  ⟨f.header, (f.id ctx).bytes, some (core.hashStrlow f.header).1, (core.hashStrlow f.header).2⟩

theorem pushHeader_true {p : Push} {key : List UInt8} {id : Id} {headers headers' : List Header}
    (h : pushHeader core p key id headers = (true, headers')) :
    headers' = headers ++
      [⟨key, id.bytes, some (core.hashStrlow key).1, (core.hashStrlow key).2⟩] := by
  unfold pushHeader at h
  split at h
  · cases h
  split at h
  · cases h
  · cases h
    rfl

theorem firstRequest_true {calls : Calls} {ctx ctx' : Ctx} {headers headers' : List Header}
    (h : firstRequest core calls ctx headers = (true, ctx', headers')) :
    headers' = headers ++
      [added core ctx' .traceid, added core ctx' .currentid, added core ctx' .parentid] := by
  unfold firstRequest at h
  dsimp only at h
  split at h
  · cases h
  · next headers1 h1 =>
    split at h
    · cases h
    · next headers2 h2 =>
      rw [Prod.mk.injEq, Prod.mk.injEq] at h
      obtain ⟨hok, rfl, rfl⟩ := h
      refine (pushHeader_true (Prod.ext hok rfl)).trans ?_
      rw [pushHeader_true h2, pushHeader_true h1, List.append_assoc, List.append_assoc]
      rfl

/-- The ids that are left when the handler goes on: all are read and the headers stay,
or one is not and a header is added for each. -/
theorem fillIds_cases {calls : Calls} {ctx ctx' : Ctx} {headers headers' : List Header}
    (h : fillIds core calls ctx headers = (true, ctx', headers')) :
    (headers' = headers ∧ ∀ f : IdField, ∃ v,
        core.unknownHeader headers f.var httpLen = some v ∧ f.id ctx' = (f.id ctx).memcpy v) ∨
      (∃ f : IdField, core.unknownHeader headers f.var httpLen = none) ∧
        headers' = headers ++
          [added core ctx' .traceid, added core ctx' .currentid, added core ctx' .parentid] := by
  unfold fillIds at h
  rcases readIds_cases core headers ctx with ⟨ctx1, heq, hread⟩ | ⟨ctx1, heq, hnone⟩
  · rw [heq] at h
    cases h
    exact .inl ⟨rfl, hread⟩
  · rw [heq] at h
    exact .inr ⟨hnone, firstRequest_true h⟩

theorem IdField.header_hash (core : Core) (f : IdField) : (core.hashStrlow f.header).2 ≠ 0 := by
  rw [core.hashStrlow_eq]
  cases f <;> decide

theorem IdField.header_lower (f g : IdField) :
    f.header.map tolower = g.header.map tolower ↔ f = g := by
  cases f <;> cases g <;> decide

theorem added_named (core : Core) (ctx : Ctx) (f g : IdField) :
    (added core ctx f).named g.header = decide (f = g) := by
  rw [Bool.eq_iff_iff, decide_eq_true_iff, ← IdField.header_lower, Header.named_iff]
  exact and_iff_right (f.header_hash core)

theorem filter_added (core : Core) (ctx : Ctx) (headers : List Header) (f : IdField) :
    List.filter (Header.named f.header)
        (headers ++ [added core ctx .traceid, added core ctx .currentid, added core ctx .parentid]) =
      headers.filter (Header.named f.header) ++ [added core ctx f] := by
  rw [List.filter_append]
  congr 1
  simp only [List.filter_cons, List.filter_nil, added_named]
  cases f <;> rfl

theorem startDebug_id (core : Core) (headers : List Header) (log : Log) (f : IdField) :
    f.id (startDebug core headers log).1 = Id.zero := by
  unfold startDebug
  split <;> cases f <;> rfl

/-! ## The headers after the handler -/

/-- What the headers must be for the context that the handler makes. -/
theorem carries_iff {r : Request} {ctx : Ctx} (hctx : r.ctx = some ctx) :
    (∃ ctx, Carries r ctx) ↔ ∀ f : IdField,
      (r.headers.filter (Header.named f.header)).map Header.value = [(f.id ctx).bytes] := by
  constructor
  · rintro ⟨ctx', hcarries⟩
    obtain rfl : ctx' = ctx := Option.some.inj (hcarries.kept.symm.trans hctx)
    exact hcarries.one
  · intro hone
    refine ⟨ctx, hctx, hone, fun f => ?_, ?_⟩
    · cases f <;> exact congrArg (Option.map _) hctx
    · unfold logIds
      rw [hctx]
      rfl

theorem suits_of_read {headers : List Header}
    (hread : ∀ f : IdField, ∃ v, core.unknownHeader headers f.var httpLen = some v) :
    Suits core headers ↔ ∀ f : IdField, ∃ h ∈ headers, h.named f.header = true ∧
      h.value.length = 32 ∧ ∃ v, core.unknownHeader headers f.var httpLen = some v ∧
        h.value <+: v ++ List.replicate 32 0 := by
  refine or_iff_right ?_
  rintro ⟨-, f, hnone⟩
  obtain ⟨v, hv⟩ := hread f
  rw [hnone] at hv
  cases hv

theorem suits_of_unread {headers : List Header} {f : IdField}
    (hnone : core.unknownHeader headers f.var httpLen = none) :
    Suits core headers ↔ ∀ f : IdField, ∀ h ∈ headers, h.named f.header = false := by
  unfold Suits
  rw [and_iff_left ⟨f, hnone⟩]
  refine or_iff_left fun hall => ?_
  obtain ⟨h, -, -, -, v, hv, -⟩ := hall f
  rw [hnone] at hv
  cases hv

/-- **The headers of the ids.**  After the handler of a new main request there is exactly
one header for each id, with the id as its value, if and only if `Suits` holds of the
headers that came with the request. -/
theorem handler_carries (core : Core) {calls : Calls} {r r' : Request} {log log' : Log}
    (hmain : r.main = true) (hnew : r.ctx = none) (hone : AtMostOne r.headers)
    (h : handler core true calls r log = (.declined, r', log')) :
    (∃ ctx, Carries r' ctx) ↔ Suits core r.headers := by
  have hpcalloc : calls.pcalloc = true := by
    by_contra hno
    rw [Bool.not_eq_true] at hno
    unfold handler at h
    rw [hmain, hnew, hno] at h
    cases h
  rcases hstart : startDebug core r.headers { log with traced := true } with ⟨ctx0, log0⟩
  rcases hfill : fillIds core calls ctx0 r.headers with ⟨ok, ctx, headers⟩
  rw [handler_traced hmain hnew hpcalloc log hstart, hfill] at h
  have hzero : ∀ f : IdField, f.id ctx0 = Id.zero := fun f => by
    rw [← startDebug_id core r.headers { log with traced := true } f, hstart]
  cases ok with
  | false => cases h
  | true =>
    obtain rfl : { r with headers, ctx := some ctx } = r' := congrArg (fun x => x.2.1) h
    rw [carries_iff rfl]
    rcases fillIds_cases hfill with ⟨rfl, hread⟩ | ⟨⟨g, hg⟩, rfl⟩
    · -- every id is read: the headers are the ones that came
      rw [suits_of_read fun f => (hread f).imp fun v hv => hv.1]
      refine forall_congr' fun f => ?_
      obtain ⟨v, hv, hid⟩ := hread f
      rw [hid, hzero, map_value_eq_iff (hone f.header)]
      simp only [List.mem_filter, eq_memcpy_zero_iff, hv, Option.some.injEq, exists_eq_left',
        and_assoc]
    · -- one is not: a header that came with the name of an id would be the second one
      rw [suits_of_unread hg]
      refine forall_congr' fun f => ?_
      show (List.filter (Header.named f.header) (r.headers ++ _)).map Header.value = _ ↔ _
      rw [filter_added, List.map_append, List.map_singleton]
      show _ ++ [(f.id ctx).bytes] = [(f.id ctx).bytes] ↔ _
      rw [List.append_left_eq_self, List.map_eq_nil_iff, List.filter_eq_nil_iff]
      simp only [Bool.not_eq_true]

/-- A request with the header. -/
def requestOf (key value : List UInt8) : Request := ⟨true, [⟨key, value, none, 1⟩], none⟩

theorem atMostOne_singleton (h : Header) : AtMostOne [h] := fun name =>
  List.length_filter_le (Header.named name) [h]

/-- A request with another header only gets the three headers. -/
theorem handler_carries_new : ∃ r' log',
    handler firstCore true fullCalls (requestOf (bytes "Host") [97]) ⟨4, false⟩ =
      (.declined, r', log') ∧
    r'.headers.map Header.key =
      [bytes "Host", bytes "X-NTM-Traceid", bytes "X-NTM-Currentid", bytes "X-NTM-Parentid"] ∧
    ∃ ctx, Carries r' ctx := by
  have hsuits : Suits firstCore (requestOf (bytes "Host") [97]).headers := by
    refine .inl ⟨fun f h hmem => ?_, .traceid, rfl⟩
    obtain rfl := List.mem_singleton.mp hmem
    cases f <;> rfl
  have hone : AtMostOne (requestOf (bytes "Host") [97]).headers := atMostOne_singleton _
  exact ⟨_, _, rfl, rfl, (handler_carries firstCore rfl rfl hone
    (show handler firstCore true fullCalls _ ⟨4, false⟩ = _ from rfl)).mpr hsuits⟩

/-- Only `X-NTM-Traceid` is sent: then there are two headers of this name. -/
theorem traceid_twice : ∃ r' log',
    handler firstCore true fullCalls (requestOf (bytes "X-NTM-Traceid") (List.replicate 32 97))
      ⟨4, false⟩ = (.declined, r', log') ∧
    AtMostOne (requestOf (bytes "X-NTM-Traceid") (List.replicate 32 97)).headers ∧
    (r'.headers.filter (Header.named IdField.traceid.header)).length = 2 ∧
    ∀ ctx, ¬ Carries r' ctx := by
  refine ⟨_, _, rfl, atMostOne_singleton _, rfl, fun ctx hcarries => ?_⟩
  cases congrArg List.length (hcarries.one .traceid)

end NgxToolkit.HttpTrace
