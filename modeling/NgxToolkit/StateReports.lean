import Mathlib.Data.List.Range
import Mathlib.Data.List.Perm.Subperm
import Mathlib.Tactic.Common
import NgxToolkit.DynamicResolverCounts
import NgxToolkit.EventResolver
import NgxToolkit.EventTimerRuns
import NgxToolkit.Lib.Slice
import NgxToolkit.ToolkitPort

/-! What the status functions report (`ngx_event_timer_state`, `ngx_event_resolver_state`,
`ngx_dynamic_resolver_state`).

A report is a title and a line for each counter.  `readReport` takes the numbers out of the
text again; the difference of the counters of an allocator is what is in use.

* `statusReport_reads`: a report is complete, and its numbers are the counters.
* `reach_eventTimerState`, `reach_eventResolverState`, `reach_dynamicResolverState`: what the
  numbers say in every reachable state. -/

namespace NgxToolkit

open Lib ToolkitPton ToolkitPort

/-! ## Reports -/

/-- The body of the status functions, which write a title and the counters; `chain` and `buf` say
whether `ngx_alloc_chain_link` and `ngx_create_temp_buf` have memory. -/
def statusReport (title : String) (counters : List Counter) (chain buf : Bool) :
    Option StateBuf :=
  let len := (bytes title).length + (counters.map Counter.size).sum
  if chain = false then none
  else if buf = false then none
  else some ⟨len, snprintf len (bytes title ++ counters.flatMap Counter.text), []⟩

/-- `ngx_event_timer_state` -/
def eventTimerState {η δ : Type} (etcf : EventTimer.Conf η δ) : Bool → Bool → Option StateBuf :=
  statusReport "##########event timer state##########\n"
    [⟨"ngx_event_timer alloc: ", etcf.timerN⟩, ⟨"ngx_event_timer free: ", etcf.freeTimerN⟩]

/-- `ngx_event_resolver_state` -/
def eventResolverState {η δ : Type} (ercf : EventResolver.Conf η δ) :
    Bool → Bool → Option StateBuf :=
  statusReport "##########event resolver state##########\n"
    [⟨"ngx_event_resolver alloc: ", ercf.nalloc⟩, ⟨"ngx_event_resolver free: ", ercf.nfree⟩]

/-- `ngx_dynamic_resolver_state` -/
def dynamicResolverState {η δ : Type} (drcf : DynamicResolver.Conf η δ) :
    Bool → Bool → Option StateBuf :=
  statusReport "##########dynamic resolver state##########\n"
    [⟨"ngx_dynamic_resolver alloc ctx: ", drcf.nallocCtx⟩,
      ⟨"ngx_dynamic_resolver free ctx: ", drcf.nfreeCtx⟩,
      ⟨"ngx_dynamic_resolver alloc domain: ", drcf.nallocDomain⟩,
      ⟨"ngx_dynamic_resolver free domain: ", drcf.nfreeDomain⟩]

/-! ## Reading a report -/

/-- The number behind a label, up to the end of the line, and the lines after it. -/
def readCounter (label text : List UInt8) : Option (Nat × List UInt8) :=
  if label.isPrefixOf text then
    let line := cutAt 10 (text.drop label.length)
    line.2.bind fun rest => (decimal line.1).map fun n => (n, rest)
  else none

def readCounters : List String → List UInt8 → Option (List Nat)
  | [], text => if text = [] then some [] else none
  | label :: labels, text =>
    (readCounter (bytes label) text).bind fun r => (readCounters labels r.2).map (r.1 :: ·)

/-- The numbers of a report with the title and these labels. -/
def readReport (title : String) (labels : List String) (text : List UInt8) : Option (List Nat) :=
  if (bytes title).isPrefixOf text then readCounters labels (text.drop (bytes title).length)
  else none

/-- What a reader of two counters of 64 bits takes to be in use. -/
def inUse (alloc free : Nat) : Nat := (alloc + (2 ^ 64 - free)) % 2 ^ 64

theorem readCounter_text (c : Counter) (rest : List UInt8) :
    readCounter (bytes c.label) (c.text ++ rest) = some (c.value % 2 ^ 64, rest) := by
  have hline : c.text ++ rest = bytes c.label ++ (uiText c.value ++ 10 :: rest) := by
    unfold Counter.text
    rw [List.append_assoc, List.append_assoc]
    rfl
  have hend : (10 : UInt8) ∉ uiText c.value := fun hmem =>
    absurd (uiText_digits c.value 10 hmem).1 (by decide)
  unfold readCounter
  rw [hline, if_pos (List.isPrefixOf_iff_prefix.mpr (List.prefix_append _ _)), List.drop_left]
  dsimp only
  rw [cutAt_append_cons rest hend, Option.bind_some, decimal_uiText, Option.map_some]

theorem readCounters_text (counters : List Counter) :
    readCounters (counters.map Counter.label) (counters.flatMap Counter.text) =
      some (counters.map fun c => c.value % 2 ^ 64) := by
  induction counters with
  | nil => rfl
  | cons c counters ih =>
    rw [List.map_cons, List.flatMap_cons, readCounters, readCounter_text, Option.bind_some, ih]
    rfl

/-- A report is complete, and its numbers are the counters. -/
theorem statusReport_reads (title : String) (counters : List Counter) (chain buf : Bool)
    {b : StateBuf} (h : statusReport title counters chain buf = some b) :
    b.written ≤ b.size ∧ readReport title (counters.map Counter.label) b.head =
      some (counters.map fun c => c.value % 2 ^ 64) := by
  have hlen := counters_length counters
  unfold statusReport at h
  dsimp only at h
  split at h
  · cases h
  split at h
  · cases h
  · obtain rfl := Option.some.inj h
    have hfit : (bytes title ++ counters.flatMap Counter.text).length ≤
        (bytes title).length + (counters.map Counter.size).sum := by
      rw [List.length_append]
      omega
    have htext : snprintf ((bytes title).length + (counters.map Counter.size).sum)
        (bytes title ++ counters.flatMap Counter.text) =
          bytes title ++ counters.flatMap Counter.text := List.take_of_length_le hfit
    constructor
    · unfold StateBuf.written
      rw [htext]
      exact hfit
    · dsimp only
      rw [htext]
      unfold readReport
      rw [if_pos (List.isPrefixOf_iff_prefix.mpr (List.prefix_append _ _)), List.drop_left,
        readCounters_text]

/-- The same for the functions that list the nodes of a map as well. -/
theorem debugState_reads (title : String) (counters : List Counter) {n fuel : Nat}
    {map : NgxMap.Map Nat} {line : Nat → List UInt8} {detail : Bool} {b : StateBuf}
    (h : debugState title counters n map line fuel detail = some b) :
    readReport title (counters.map Counter.label) b.head =
      some (counters.map fun c => c.value % 2 ^ 64) := by
  have hlen := counters_length counters
  have hread (size : Nat) (hsize : (bytes title).length + (counters.map Counter.size).sum ≤ size) :
      readReport title (counters.map Counter.label)
          (snprintf size (bytes title ++ counters.flatMap Counter.text)) =
        some (counters.map fun c => c.value % 2 ^ 64) := by
    have htext : snprintf size (bytes title ++ counters.flatMap Counter.text) =
        bytes title ++ counters.flatMap Counter.text := by
      refine List.take_of_length_le ?_
      rw [List.length_append]
      omega
    rw [htext]
    unfold readReport
    rw [if_pos (List.isPrefixOf_iff_prefix.mpr (List.prefix_append _ _)), List.drop_left,
      readCounters_text]
  unfold debugState at h
  dsimp only at h
  cases detail with
  | true =>
    rw [if_pos rfl, if_pos rfl] at h
    obtain ⟨nodes, -, rfl⟩ := Option.map_eq_some_iff.mp h
    exact hread _ (Nat.le_add_right _ _)
  | false =>
    rw [if_neg (by decide), if_neg (by decide)] at h
    obtain rfl := Option.some.inj h
    exact hread _ (Nat.le_refl _)

theorem inUse_eq {alloc free used : Nat} (h : alloc = free + used) :
    inUse (alloc % 2 ^ 64) (free % 2 ^ 64) = used % 2 ^ 64 := by
  unfold inUse
  omega

/-! ## Reports of reachable states -/

/-- The slots that wait for their time. -/
def EventTimer.World.armed {η δ : Type} (w : EventTimer.World η δ) : List Nat :=
  (List.range w.etcf.timerN).filter fun i => (w.etcf.timerCtx i).timerSet

/-- Every slot is free, armed or running. -/
theorem EventTimer.Partition.count {η δ : Type} {n : Nat} {w : EventTimer.World η δ}
    {free : List Nat} (h : EventTimer.Partition n w free) (hn : w.etcf.timerN = n) :
    n = free.length + (w.armed.length + w.running.length) := by
  have harmed (i : Nat) : i ∈ w.armed ↔ i < n ∧ (w.etcf.timerCtx i).timerSet = true := by
    rw [World.armed, hn, List.mem_filter, List.mem_range]
  have hfree : ∀ i ∈ free, i ∉ w.armed ++ w.running := by
    intro i hi hmem
    rcases h.class_of i (h.lt i (.inl hi)) with ⟨-, hset, hrun⟩ | ⟨hno, -⟩ | ⟨hno, -⟩
    · rcases List.mem_append.mp hmem with hmem | hmem
      · have hset' := ((harmed i).mp hmem).2
        rw [hset] at hset'
        cases hset'
      · exact hrun hmem
    · exact hno hi
    · exact hno hi
  have hrun : ∀ i ∈ w.armed, i ∉ w.running := by
    intro i hi hmem
    obtain ⟨hlt, hset⟩ := (harmed i).mp hi
    rcases h.class_of i hlt with ⟨-, hset', -⟩ | ⟨-, -, hno⟩ | ⟨-, hset', -⟩
    · rw [hset] at hset'
      cases hset'
    · exact hno hmem
    · rw [hset] at hset'
      cases hset'
  have hnodup : (free ++ (w.armed ++ w.running)).Nodup := by
    refine List.nodup_append.mpr ⟨h.nodup, List.nodup_append.mpr ⟨?_, h.running_nodup, ?_⟩, ?_⟩
    · exact List.nodup_range.filter _
    · rintro i hi j hj rfl
      exact hrun i hi hj
    · rintro i hi j hj rfl
      exact hfree i hi hj
  have hperm : (free ++ (w.armed ++ w.running)).Perm (List.range n) := by
    refine (List.perm_ext_iff_of_nodup hnodup List.nodup_range).mpr fun i => ?_
    rw [List.mem_append, List.mem_append, List.mem_range, harmed]
    constructor
    · rintro (hi | ⟨hi, -⟩ | hi)
      · exact h.lt i (.inl hi)
      · exact hi
      · exact h.lt i (.inr hi)
    · intro hlt
      rcases h.class_of i hlt with ⟨hi, -⟩ | ⟨-, hset, -⟩ | ⟨-, -, hi⟩
      · exact .inl hi
      · exact .inr (.inl ⟨hlt, hset⟩)
      · exact .inr (.inr hi)
  have hlen := hperm.length_eq
  rw [List.length_append, List.length_append, List.length_range] at hlen
  exact hlen.symm

/-- **The report of the timers.**  In every reachable state the report is complete, its first
number is the number of slots, and what it says to be in use are the timers that are armed
and those whose handler runs. -/
theorem reach_eventTimerState {η δ : Type} (n : Nat) (mem : Nat → EventTimer.TimerCtx η δ)
    (w : EventTimer.World η δ) (hw : (EventTimer.machine n mem).Reach w) (chain buf : Bool)
    {b : StateBuf} (h : eventTimerState w.etcf chain buf = some b) :
    b.written ≤ b.size ∧ ∃ free, readReport "##########event timer state##########\n"
        ["ngx_event_timer alloc: ", "ngx_event_timer free: "] b.head = some [n % 2 ^ 64, free] ∧
      inUse (n % 2 ^ 64) free = (w.armed.length + w.running.length) % 2 ^ 64 := by
  obtain ⟨free, hinv⟩ := EventTimer.reach_inv hw
  obtain ⟨hfit, hread⟩ := statusReport_reads _ _ chain buf h
  refine ⟨hfit, w.etcf.freeTimerN % 2 ^ 64, ?_, inUse_eq ?_⟩
  · rw [← hinv.timerN]
    exact hread
  · rw [hinv.length]
    exact hinv.partition.count hinv.timerN

/-- Two timers of three slots, the first one fires. -/
theorem reach_eventTimerState_two : ∃ (w : EventTimer.World Nat Nat) (b : StateBuf),
    (EventTimer.machine 3 EventTimer.someMem).Reach w ∧ w.armed = [1] ∧ w.running = [0] ∧
    eventTimerState w.etcf true true = some b ∧
    ∃ free, readReport "##########event timer state##########\n"
        ["ngx_event_timer alloc: ", "ngx_event_timer free: "] b.head = some [3, free] ∧
      inUse 3 free = 2 := by
  have hw := (EventTimer.machine 3 EventTimer.someMem).reach_run
    [.add (some 10) 100, .add (some 20) 200, .expire 0] rfl
  obtain ⟨-, free, hread, huse⟩ := reach_eventTimerState 3 EventTimer.someMem _ hw true true rfl
  exact ⟨_, _, hw, rfl, rfl, rfl, free, hread, huse⟩

/-- **The report of the event resolver.**  In every reachable state of a run whose calls nginx
answers, what the report says to be in use are the queries without an answer and those whose
handler runs. -/
theorem reach_eventResolverState {η δ : Type} (resolver : Bool)
    (mem : Nat → EventResolver.Ctx η δ) (w : EventResolver.World η δ)
    (hw : (EventResolver.machine resolver mem).ReachIf EventResolver.Answered w)
    (chain buf : Bool) {b : StateBuf} (h : eventResolverState w.ercf chain buf = some b) :
    b.written ≤ b.size ∧ ∃ alloc free, readReport "##########event resolver state##########\n"
        ["ngx_event_resolver alloc: ", "ngx_event_resolver free: "] b.head = some [alloc, free] ∧
      inUse alloc free = (w.pending.length + w.handling.length) % 2 ^ 64 := by
  obtain ⟨free, hinv⟩ := EventResolver.reach_inv hw
  obtain ⟨hfit, hread⟩ := statusReport_reads _ _ chain buf h
  refine ⟨hfit, _, _, hread, inUse_eq ?_⟩
  show w.ercf.nalloc = w.ercf.nfree + _
  rw [hinv.lawful.count, Nat.add_assoc]

/-- Two queries, the first one is answered. -/
theorem reach_eventResolverState_two : ∃ (w : EventResolver.World Nat Nat) (b : StateBuf),
    w.pending.length = 1 ∧ w.handling.length = 1 ∧
    eventResolverState w.ercf true true = some b ∧
    ∃ alloc free, readReport "##########event resolver state##########\n"
        ["ngx_event_resolver alloc: ", "ngx_event_resolver free: "] b.head = some [alloc, free] ∧
      inUse alloc free = 2 := by
  have h1 : (EventResolver.machine true EventResolver.someMem).ReachIf EventResolver.Answered _ :=
    .step .start (i := .start 10 100 ⟨true, .ctx, true⟩) (Or.inr ⟨Or.inr rfl, rfl, rfl⟩) rfl
  have h2 : (EventResolver.machine true EventResolver.someMem).ReachIf EventResolver.Answered _ :=
    h1.step (i := .start 20 200 ⟨true, .ctx, true⟩) (Or.inr ⟨Or.inr rfl, rfl, rfl⟩) rfl
  have h3 : (EventResolver.machine true EventResolver.someMem).ReachIf EventResolver.Answered _ :=
    h2.step (i := .reply 0 0) trivial rfl
  obtain ⟨-, alloc, free, hread, huse⟩ := reach_eventResolverState true EventResolver.someMem _ h3
    true true rfl
  exact ⟨_, _, rfl, rfl, rfl, alloc, free, hread, huse⟩

/-- **The report of the dynamic resolver.**  In every reachable state in the event loop, what the
report says to be in use are the callers that wait and the names in the table. -/
theorem reach_dynamicResolverState {η δ : Type} {pton : List UInt8 → Nat}
    {refreshInterval domainBuckets : Nat} {hashed : Bool} (w : DynamicResolver.World η δ)
    (hw : (DynamicResolver.machine pton refreshInterval domainBuckets hashed).Reach w)
    (hstack : w.stack = []) (chain buf : Bool) {b : StateBuf}
    (h : dynamicResolverState w.conf chain buf = some b) :
    b.written ≤ b.size ∧ ∃ ws ds, DynamicResolver.Records w.conf ws ds ∧
      ∃ allocCtx freeCtx allocDomain freeDomain,
        readReport "##########dynamic resolver state##########\n"
          ["ngx_dynamic_resolver alloc ctx: ", "ngx_dynamic_resolver free ctx: ",
            "ngx_dynamic_resolver alloc domain: ", "ngx_dynamic_resolver free domain: "] b.head =
          some [allocCtx, freeCtx, allocDomain, freeDomain] ∧
        inUse allocCtx freeCtx =
          ((w.conf.entries ds).flatMap fun d => ws (some d)).length % 2 ^ 64 ∧
        inUse allocDomain freeDomain = (w.conf.entries ds).length % 2 ^ 64 := by
  obtain ⟨ws, ds, hl⟩ := hw.invariant DynamicResolver.accounted_start
    fun _ _ _ _ h hs => h.step hs
  obtain ⟨hfit, hread⟩ := statusReport_reads _ _ chain buf h
  have hrecords := hl.records
  rw [hstack] at hl
  exact ⟨hfit, ws, ds, hrecords, _, _, _, _, hread, inUse_eq hl.count_ctxs,
    inUse_eq hl.count_doms⟩

/-- Two callers wait for one name, and the handler of a third one, whose query has failed, starts
it as well. -/
theorem reach_dynamicResolverState_two : ∃ (w : DynamicResolver.World Unit Unit) (b : StateBuf),
    w.stack = [] ∧ dynamicResolverState w.conf true true = some b ∧ b.written ≤ b.size ∧
    w.conf.nallocCtx - w.conf.nfreeCtx = 3 ∧ w.conf.nallocDomain - w.conf.nfreeDomain = 2 ∧
    ∃ ws ds, DynamicResolver.Records w.conf ws ds ∧ ∃ allocCtx freeCtx allocDomain freeDomain,
      readReport "##########dynamic resolver state##########\n"
        ["ngx_dynamic_resolver alloc ctx: ", "ngx_dynamic_resolver free ctx: ",
          "ngx_dynamic_resolver alloc domain: ", "ngx_dynamic_resolver free domain: "] b.head =
        some [allocCtx, freeCtx, allocDomain, freeDomain] ∧
      inUse allocCtx freeCtx = ((w.conf.entries ds).flatMap fun d => ws (some d)).length % 2 ^ 64 ∧
      inUse allocDomain freeDomain = (w.conf.entries ds).length % 2 ^ 64 := by
  obtain ⟨w, hrun, hstack, hctx, hdomain⟩ : ∃ w : DynamicResolver.World Unit Unit,
      (DynamicResolver.machine (fun _ => 0) 60 2 true).run
        (DynamicResolver.machine (fun _ => 0) 60 2 true).start
        [.start (some [65]) () () true true 0, .start (some [97]) () () true true 0,
          .start (some [98]) () () true true 0, .reply ⟨1, [98], some 1⟩ [], .run 0,
          .start (some [97]) () () true true 0, .ret, .run 0] = some w ∧ w.stack = [] ∧
      w.conf.nallocCtx - w.conf.nfreeCtx = 3 ∧ w.conf.nallocDomain - w.conf.nfreeDomain = 2 :=
    ⟨_, rfl, rfl, by decide, by decide⟩
  have hw := (DynamicResolver.machine (fun _ => 0) 60 2 true).reach_run _ hrun
  have hreport := reach_dynamicResolverState w hw hstack true true rfl
  exact ⟨w, _, hstack, rfl, hreport.1, hctx, hdomain, hreport.2⟩

end NgxToolkit
