import Mathlib
import NgxToolkit.HttpDynamicRuns

/-! Which directives a conf gets.

A handler is called with the conf of its module in the array of the innermost block.  Each
block makes an array of its own, so that the calls for a conf are those for the directives of
one block, and not of the blocks in it or of those around it.

* `callsFor`: the calls that were made with a conf.
* `directivesFor`: the directives of a module in a block, without those of the blocks in it.
* `run_called`: for the confs of its array a block calls the handlers of these. -/

namespace NgxToolkit.HttpDynamic

open DynamicConf DynamicConf.Parse

variable {ρ : Type} {env : Env ρ} {cycle : Cycle}

/-- The arguments of the calls that were made with a conf. -/
def callsFor (o : Obj) (calls : List (Call (Option Obj) (Option (Load ρ)))) : List Args :=
  (calls.filter fun c => c.conf == some o).map Call.args

/-- Is it a directive of the module with the context index `m`? -/
def belongs (tables : List (Module (Option Obj) (Option (Load ρ)))) (p : Place) (m : Nat)
    (last : Bool) (args : Args) : Bool :=
  (entryOf tables p last args).any fun e => e.1.ctxIndex == m

/-- The directives of a module in a block. -/
def directivesFor (tables : List (Module (Option Obj) (Option (Load ρ)))) (p : Place) (m : Nat) :
    Items → List Args
  | .nil => []
  | .simple args next =>
    if belongs tables p m false args then args :: directivesFor tables p m next
    else directivesFor tables p m next
  | .block args _ next =>
    if belongs tables p m true args then args :: directivesFor tables p m next
    else directivesFor tables p m next

/-! ## Calls -/

section
variable {o : Obj} {calls calls' : List (Call (Option Obj) (Option (Load ρ)))}

theorem callsFor_append :
    callsFor o (calls ++ calls') = callsFor o calls ++ callsFor o calls' := by
  rw [callsFor, List.filter_append, List.map_append]
  rfl

theorem callsFor_cons (c : Call (Option Obj) (Option (Load ρ))) :
    callsFor o (c :: calls) = (if c.conf = some o then [c.args] else []) ++ callsFor o calls := by
  unfold callsFor
  rw [List.filter_cons]
  by_cases hc : c.conf = some o
  · rw [if_pos (beq_iff_eq.mpr hc), if_pos hc]
    rfl
  · rw [if_neg (fun h => hc (beq_iff_eq.mp h)), if_neg hc]
    rfl

theorem callsFor_nil (h : ∀ c ∈ calls, c.conf ≠ some o) : callsFor o calls = [] := by
  refine List.map_eq_nil_iff.mpr (List.filter_eq_nil_iff.mpr fun c hc => ?_)
  exact fun heq => h c hc (beq_iff_eq.mp heq)

end

/-- No call was made with a conf that is the `a`-th or a later one, and made before the
`b`-th. -/
def Quiet (a b : Nat) (calls : List (Call (Option Obj) (Option (Load ρ)))) : Prop :=
  ∀ c ∈ calls, ∀ o, c.conf = some o → ¬ (a ≤ o.serial ∧ o.serial < b)

theorem Quiet.callsFor {a b : Nat} {calls : List (Call (Option Obj) (Option (Load ρ)))}
    (h : Quiet a b calls) {o : Obj} (ha : a ≤ o.serial) (hb : o.serial < b) :
    callsFor o calls = [] :=
  callsFor_nil fun c hc heq => h c hc o heq ⟨ha, hb⟩

theorem Quiet.append {a b : Nat} {calls calls' : List (Call (Option Obj) (Option (Load ρ)))}
    (h : Quiet a b calls) (h' : Quiet a b calls') : Quiet a b (calls ++ calls') := by
  intro c hc
  rcases List.mem_append.mp hc with hc | hc
  · exact h c hc
  · exact h' c hc

/-! ## Arrays of confs -/

/-- The array has confs of their modules, made before the `n`-th. -/
def Old (n : Nat) (ctx : Nat → Option Obj) : Prop :=
  ∀ i o, ctx i = some o → o.module = i ∧ o.serial < n

theorem Old.mono {n n' : Nat} {ctx : Nat → Option Obj} (h : Old n ctx) (hn : n ≤ n') :
    Old n' ctx :=
  fun i o ho => ⟨(h i o ho).1, Nat.lt_of_lt_of_le (h i o ho).2 hn⟩

/-- Has an HTTP module of the context index the function? -/
def Cycle.Creates (cycle : Cycle) (create : Dctx → Bool) (m : Nat) : Prop :=
  ∃ cm ∈ cycle.modules, cm.ctxIndex = m ∧ cm.dctx.any create = true

/-- The confs of the array were made for their modules, between the `a`-th and the `b`-th. -/
structure Fresh (cycle : Cycle) (create : Dctx → Bool) (a b : Nat) (confs : Confs) : Prop where
  isSome : ∀ m, (confs m).isSome = true ↔ cycle.Creates create m
  made : ∀ m o, confs m = some o → o.module = m ∧ a ≤ o.serial ∧ o.serial < b

theorem Fresh.old {create : Dctx → Bool} {a b : Nat} {confs : Confs}
    (h : Fresh cycle create a b confs) : Old b confs :=
  fun i o ho => ⟨(h.made i o ho).1, (h.made i o ho).2.2⟩

theorem createConfs_length (create : Dctx → Bool) (modules : List CycleModule) (confs : Confs)
    (created : List Obj) :
    created.length ≤ (createConfs create modules confs created).2.length := by
  induction modules generalizing confs created with
  | nil => exact Nat.le_refl _
  | cons m modules ih =>
    unfold createConfs
    split
    · refine Nat.le_trans ?_ (ih _ _)
      rw [List.length_append]
      omega
    · exact ih confs created

/-- Nothing but what the array had and the new confs is in it. -/
theorem createConfs_new (create : Dctx → Bool) (modules : List CycleModule) (confs : Confs)
    (created : List Obj) (m : Nat) (o : Obj)
    (h : (createConfs create modules confs created).1 m = some o) :
    confs m = some o ∨ (∃ cm ∈ modules, cm.ctxIndex = m ∧ cm.dctx.any create = true) ∧
      o.module = m ∧ created.length ≤ o.serial ∧
      o.serial < (createConfs create modules confs created).2.length := by
  induction modules generalizing confs created with
  | nil => exact .inl h
  | cons cm modules ih =>
    unfold createConfs at h ⊢
    split at h
    · next hcreate =>
      rw [if_pos hcreate]
      dsimp only at h ⊢
      have hlen := createConfs_length create modules
        (Function.update confs cm.ctxIndex (some ⟨cm.ctxIndex, created.length⟩))
        (created ++ [(⟨cm.ctxIndex, created.length⟩ : Obj)])
      rw [List.length_append, List.length_singleton] at hlen
      obtain hold | ⟨⟨cm', hcm', hindex⟩, hmodule, hle, hlt⟩ := ih _ _ h
      · by_cases hm : m = cm.ctxIndex
        · rw [hm, Function.update_self] at hold
          cases hold
          exact .inr ⟨⟨cm, List.mem_cons_self, hm.symm, hcreate⟩, hm.symm, Nat.le_refl _, hlen⟩
        · rw [Function.update_of_ne hm] at hold
          exact .inl hold
      · rw [List.length_append, List.length_singleton] at hle
        exact .inr ⟨⟨cm', List.mem_cons_of_mem _ hcm', hindex⟩, hmodule, by omega, hlt⟩
    · next hcreate =>
      rw [if_neg hcreate]
      obtain hold | ⟨⟨cm', hcm', hindex⟩, hmade⟩ := ih _ _ h
      · exact .inl hold
      · exact .inr ⟨⟨cm', List.mem_cons_of_mem _ hcm', hindex⟩, hmade⟩

/-- The array of a block. -/
theorem create_fresh (cycle : Cycle) (create : Dctx → Bool) (l : Load ρ) :
    Fresh cycle create l.created.length (l.create cycle create).2.created.length
      (l.create cycle create).1 := by
  constructor
  · intro m
    rw [Option.isSome_iff_ne_none]
    constructor
    · intro hne
      obtain ⟨o, ho⟩ := Option.ne_none_iff_exists'.mp hne
      obtain h | ⟨hcreates, -⟩ := createConfs_new create _ _ _ m o ho
      · cases h
      · exact hcreates
    · exact fun hcreates => createConfs_ne_none _ _ _ _ _ (.inr hcreates)
  · intro m o ho
    obtain h | ⟨-, hmade⟩ := createConfs_new create _ _ _ m o ho
    · cases h
    · exact hmade

theorem create_length (cycle : Cycle) (create : Dctx → Bool) (l : Load ρ) :
    l.created.length ≤ (l.create cycle create).2.created.length :=
  createConfs_length create cycle.modules _ _

/-! ## Commands -/

section
variable {context : CmdConf} {cmd : Command (Option Obj) (Option (Load ρ))} {args : Args}
  {conf : Option Obj} {w : Option (Load ρ)} {l' : Load ρ}

theorem updateServer_created {f : SrvConf ρ → Option (SrvConf ρ)} {l l' : Load ρ}
    (h : l.updateServer f = some l') : l'.created = l.created := by
  obtain ⟨main, servers, s, s', -, -, -, rfl⟩ := updateServer_eq h
  rfl

/-- A simple directive creates no confs. -/
theorem Known.set_created (h : Known env cycle context cmd) (hblock : cmd.type.block = false)
    (hset : cmd.set w args conf = some l') : ∃ l, w = some l ∧ l'.created = l.created := by
  cases h with
  | http => cases hblock
  | hash cmd hcmd =>
    obtain ⟨l, hw, hcreated, -⟩ := hash_set hcmd hset
    exact ⟨l, hw, hcreated⟩
  | server => cases hblock
  | serverName =>
    obtain ⟨l, hw, hupdate⟩ := Option.bind_eq_some_iff.mp hset
    exact ⟨l, hw, updateServer_created hupdate⟩
  | location => cases hblock
  | other => exact ⟨l', by rwa [other_set] at hset, rfl⟩

/-- The command makes confs only with the array of its block. -/
structure Keeps (enter : Args → Confs → Load ρ → Option (Load ρ))
    (leave : Load ρ → Option (Load ρ)) : Prop where
  enter : ∀ args confs l l₀, enter args confs l = some l₀ → l₀.created = l.created
  leave : ∀ l l', leave l = some l' → l'.created = l.created

/-- A command of a block, with the confs that it makes. -/
def Makes (cycle : Cycle) (create : Dctx → Bool)
    (cmd : Command (Option Obj) (Option (Load ρ))) : Prop :=
  ∃ name type enter inside leave, cmd = blockCommand cycle name type create enter inside leave ∧
    Keeps enter leave

theorem http_makes (env : Env ρ) (cycle : Cycle) :
    Makes cycle (·.createMainConf) (httpCommand env cycle) := by
  refine ⟨_, _, _, _, _, rfl, ?_, ?_⟩
  · intro args confs l l₀ henter
    cases henter
    rfl
  · intro l l' hleave
    obtain ⟨main, -, hleave⟩ := Option.bind_eq_some_iff.mp hleave
    obtain ⟨main', -, hleave⟩ := Option.bind_eq_some_iff.mp hleave
    cases hleave
    rfl

theorem server_makes (cycle : Cycle) :
    Makes (ρ := ρ) cycle (·.createSrvConf) (serverCommand cycle) := by
  refine ⟨_, _, _, _, _, rfl, ?_, fun l l' hleave => updateServer_created hleave⟩
  intro args confs l l₀ henter
  obtain ⟨main, -, henter⟩ := Option.bind_eq_some_iff.mp henter
  cases henter
  rfl

theorem location_makes (env : Env ρ) (cycle : Cycle) :
    Makes cycle (·.createLocConf) (locationCommand env cycle) := by
  refine ⟨_, _, _, _, _, rfl, fun args confs l l₀ henter => updateServer_created henter, ?_⟩
  intro l l' hleave
  cases hleave
  rfl

/-- The commands of blocks. -/
theorem Known.makes (h : Known env cycle context cmd) (hblock : cmd.type.block = true) :
    ∃ create, Makes cycle create cmd := by
  obtain ⟨-, rfl⟩ | ⟨-, rfl⟩ | ⟨-, rfl⟩ := h.block hblock
  · exact ⟨_, http_makes env cycle⟩
  · exact ⟨_, server_makes cycle⟩
  · exact ⟨_, location_makes env cycle⟩

end

/-! ## A run -/

section
variable {p : Place} {ctx : Nat → Option Obj} {w : Option (Load ρ)} {args : Args}
  {body next items : Items} {l' : Load ρ} {n n' : Nat}
  {e : Module (Option Obj) (Option (Load ρ)) × Command (Option Obj) (Option (Load ρ))}

/-- What the calls for a sequence of directives are made with: a conf of the array around it
gets the directives of its module, and the other confs are new ones. -/
structure Called (env : Env ρ) (cycle : Cycle) (p : Place) (ctx : Nat → Option Obj) (n n' : Nat)
    (items : Items) (calls : List (Call (Option Obj) (Option (Load ρ)))) : Prop where
  from_ctx : ∀ c ∈ calls, ∀ o, c.conf = some o →
    ctx o.module = some o ∨ n ≤ o.serial ∧ o.serial < n'
  own : ∀ o, o.serial < n → ctx o.module = some o →
    callsFor o calls = directivesFor (cycle.tables env) p o.module items

/-- Confs that are neither of the array around nor new are not used. -/
theorem Called.quiet {calls : List (Call (Option Obj) (Option (Load ρ)))}
    (h : Called env cycle p ctx n n' items calls) {a b : Nat} (hctx : Old a ctx) (hb : b ≤ n) :
    Quiet a b calls := by
  rintro c hc o ho ⟨ha, hlt⟩
  obtain hold | hnew := h.from_ctx c hc o ho
  · exact absurd (hctx _ o hold).2 (Nat.not_lt_of_ge ha)
  · omega

theorem belongs_of_entry {last : Bool} (he : entryOf (cycle.tables env) p last args = some e)
    {o : Obj} (hctx : Old n ctx) (ho : ctx o.module = some o) :
    belongs (cycle.tables env) p o.module last args = true ↔ ctx e.1.ctxIndex = some o := by
  rw [belongs, he, Option.any_some, beq_iff_eq]
  constructor
  · intro h
    rw [h, ho]
  · exact fun h => ((hctx _ _ h).1).symm

theorem Called.nil : Called env cycle p ctx n n' .nil [] :=
  ⟨fun _ hc => absurd hc List.not_mem_nil, fun _ _ _ => rfl⟩

/-- A simple directive in front of a sequence. -/
theorem Called.simple (he : entryOf (cycle.tables env) p false args = some e) (hctx : Old n ctx)
    {calls : List (Call (Option Obj) (Option (Load ρ)))}
    (h : Called env cycle p ctx n n' next calls) :
    Called env cycle p ctx n n' (.simple args next) (⟨e, args, ctx e.1.ctxIndex⟩ :: calls) := by
  constructor
  · intro c hc o ho
    rcases List.mem_cons.mp hc with rfl | hc
    · exact .inl (by rw [(hctx _ o ho).1]; exact ho)
    · exact h.from_ctx c hc o ho
  · intro o hn ho
    rw [callsFor_cons, h.own o hn ho, directivesFor]
    by_cases hbelongs : ctx e.1.ctxIndex = some o
    · rw [if_pos hbelongs, if_pos ((belongs_of_entry he hctx ho).mpr hbelongs)]
      rfl
    · rw [if_neg hbelongs, if_neg fun hb => hbelongs ((belongs_of_entry he hctx ho).mp hb)]
      rfl

/-- A block in front of a sequence: the confs from the `n`-th to the `m`-th are its array and
those of the blocks in it. -/
theorem Called.block (he : entryOf (cycle.tables env) p true args = some e) (hctx : Old n ctx)
    {inner calls : List (Call (Option Obj) (Option (Load ρ)))} {m : Nat} (hnm : n ≤ m)
    (hmn : m ≤ n') (hinner : ∀ c ∈ inner, ∀ o, c.conf = some o → n ≤ o.serial ∧ o.serial < m)
    (h : Called env cycle p ctx m n' next calls) :
    Called env cycle p ctx n n' (.block args body next)
      (⟨e, args, ctx e.1.ctxIndex⟩ :: (inner ++ calls)) := by
  constructor
  · intro c hc o ho
    rcases List.mem_cons.mp hc with rfl | hc
    · exact .inl (by rw [(hctx _ o ho).1]; exact ho)
    rcases List.mem_append.mp hc with hc | hc
    · obtain ⟨hle, hlt⟩ := hinner c hc o ho
      exact .inr ⟨hle, by omega⟩
    · exact (h.from_ctx c hc o ho).imp id fun hnew => ⟨by omega, hnew.2⟩
  · intro o hn ho
    have hquiet : callsFor o inner = [] := by
      refine callsFor_nil fun c hc heq => ?_
      have hrange := hinner c hc o heq
      omega
    rw [callsFor_cons, callsFor_append, hquiet, h.own o (by omega) ho, directivesFor]
    by_cases hbelongs : ctx e.1.ctxIndex = some o
    · rw [if_pos hbelongs, if_pos ((belongs_of_entry he hctx ho).mpr hbelongs)]
      rfl
    · rw [if_neg hbelongs, if_neg fun hb => hbelongs ((belongs_of_entry he hctx ho).mp hb)]
      rfl

theorem run_simple_calls (he : entryOf (cycle.tables env) p false args = some e) :
    ((Items.simple args next).run (cycle.tables env) p ctx w).1 =
      ⟨e, args, ctx e.1.ctxIndex⟩ ::
        (next.run (cycle.tables env) p ctx (e.2.set w args (ctx e.1.ctxIndex))).1 := by
  rw [Items.run, he]

/-- The calls for the directives in a block. -/
def blockCalls (tables : List (Module (Option Obj) (Option (Load ρ)))) (p : Place)
    (cmd : Command (Option Obj) (Option (Load ρ))) (args : Args) (body : Items) (conf : Option Obj)
    (w : Option (Load ρ)) : List (Call (Option Obj) (Option (Load ρ))) :=
  let opened := cmd.enter w args conf
  (body.run tables (cmd.inside p args) opened.2 opened.1).1

theorem run_block_calls (he : entryOf (cycle.tables env) p true args = some e) :
    ((Items.block args body next).run (cycle.tables env) p ctx w).1 =
      ⟨e, args, ctx e.1.ctxIndex⟩ ::
        (blockCalls (cycle.tables env) p e.2 args body (ctx e.1.ctxIndex) w ++
          (next.run (cycle.tables env) p ctx
            (blockRun (cycle.tables env) p e.2 args body (ctx e.1.ctxIndex) w)).1) := by
  rw [Items.run, he]
  rfl

/-- What a run of directives makes and calls. -/
def RunCalled (env : Env ρ) (cycle : Cycle) (p : Place) (ctx : Nat → Option Obj)
    (w : Option (Load ρ)) (items : Items) (l' : Load ρ) : Prop :=
  ∃ l, w = some l ∧ l.created.length ≤ l'.created.length ∧ (Old l.created.length ctx →
    Called env cycle p ctx l.created.length l'.created.length items
      (items.run (cycle.tables env) p ctx w).1)

/-- What a block makes and calls: the confs of its array get the directives in it. -/
structure BlockCalled (env : Env ρ) (cycle : Cycle) (create : Dctx → Bool) (p : Place)
    (body : Items) (l l₁ : Load ρ) (calls : List (Call (Option Obj) (Option (Load ρ)))) :
    Prop where
  mono : l.created.length ≤ l₁.created.length
  fresh : Fresh cycle create l.created.length l₁.created.length (l.create cycle create).1
  called : ∀ m o, (l.create cycle create).1 m = some o →
    callsFor o calls = directivesFor (cycle.tables env) p m body
  range : ∀ c ∈ calls, ∀ o, c.conf = some o →
    l.created.length ≤ o.serial ∧ o.serial < l₁.created.length

theorem block_called {create : Dctx → Bool} {cmd : Command (Option Obj) (Option (Load ρ))}
    {conf : Option Obj} {l₁ : Load ρ} (hmakes : Makes cycle create cmd)
    (hbody : ∀ ctx w l', (body.run (cycle.tables env) (cmd.inside p args) ctx w).2 = some l' →
      RunCalled env cycle (cmd.inside p args) ctx w body l')
    (hrun : blockRun (cycle.tables env) p cmd args body conf w = some l₁) :
    ∃ l, w = some l ∧ BlockCalled env cycle create (cmd.inside p args) body l l₁
      (blockCalls (cycle.tables env) p cmd args body conf w) := by
  obtain ⟨name, type, enter, inside, leave, rfl, hkeeps⟩ := hmakes
  obtain ⟨l₂, hl₂, hleave⟩ := Option.bind_eq_some_iff.mp hrun
  obtain ⟨l₀, hl₀, hlen, hcalled⟩ := hbody _ _ l₂ hl₂
  cases w with
  | none => cases hl₀
  | some l =>
    have hfresh := create_fresh cycle create l
    have hcreated : l₀.created = (l.create cycle create).2.created :=
      hkeeps.enter args _ _ l₀ hl₀
    have hmono := create_length cycle create l
    rw [← hcreated] at hfresh hmono
    have hcalls := hcalled hfresh.old
    rw [← hkeeps.leave l₂ l₁ hleave] at hlen hcalls
    refine ⟨l, rfl, hmono.trans hlen, ⟨hfresh.isSome, ?_⟩, ?_, ?_⟩
    · intro m o ho
      obtain ⟨hmodule, hle, hlt⟩ := hfresh.made m o ho
      exact ⟨hmodule, hle, by omega⟩
    · intro m o ho
      obtain ⟨rfl, -, hlt⟩ := hfresh.made m o ho
      exact hcalls.own o hlt ho
    · intro c hc o ho
      obtain hctx | ⟨hle, hlt⟩ := hcalls.from_ctx c hc o ho
      · obtain ⟨-, hle, hlt⟩ := hfresh.made _ o hctx
        exact ⟨hle, by omega⟩
      · exact ⟨by omega, hlt⟩

/-- **The calls for a sequence of directives.** -/
theorem run_called (items : Items) (haccepted : items.Accepted (IsEntry (cycle.tables env)) p)
    (h : (items.run (cycle.tables env) p ctx w).2 = some l') :
    RunCalled env cycle p ctx w items l' := by
  induction items generalizing p ctx w l' with
  | nil => exact ⟨l', h, Nat.le_refl _, fun _ => .nil⟩
  | simple args next ih =>
    obtain ⟨⟨e, he⟩, hnext⟩ := haccepted
    rw [run_simple he] at h
    obtain ⟨l₁, hset, hlen, hcalled⟩ := ih hnext h
    obtain ⟨l, hw, hcreated⟩ := (known_of_entry he).set_created (entryOf_block he) hset
    rw [hcreated] at hlen hcalled
    refine ⟨l, hw, hlen, fun hctx => ?_⟩
    rw [run_simple_calls he]
    exact (hcalled hctx).simple he hctx
  | block args body next ihbody ih =>
    obtain ⟨⟨e, he, hbody⟩, hnext⟩ := haccepted
    rw [run_block he] at h
    obtain ⟨l₁, hrun, hlen, hcalled⟩ := ih hnext h
    obtain ⟨create, hmakes⟩ := (known_of_entry he).makes (entryOf_block he)
    obtain ⟨l, hw, hblock⟩ := block_called hmakes (fun ctx w l' hl' => ihbody hbody hl') hrun
    refine ⟨l, hw, hblock.mono.trans hlen, fun hctx => ?_⟩
    rw [run_block_calls he]
    exact .block he hctx hblock.mono hlen hblock.range (hcalled (hctx.mono hblock.mono))

end

end NgxToolkit.HttpDynamic
