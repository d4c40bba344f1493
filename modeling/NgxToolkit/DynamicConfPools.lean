import Mathlib.Data.List.Perm.Basic
import Mathlib.Tactic.Common
import NgxToolkit.DynamicConfRuns

/-! The memory pools of a load, with those of the `http` blocks that it parses.

`Blocks.loadConf` is `ngx_dynamic_conf_load_conf` with the parts of the parse
that create pools: `ngx_http_dynamic_block` (`ngx_http_dynamic.c`) calls
`ngx_http_dynamic_core_init_virtual_servers`, which hashes the server names
with a pool of its own.  What the outside answers there is part of the `Env`;
`loadConf_eq` says that the loads are those of `DynamicConf.loadConf`.

* `Pools.Leaves`: which of the pools created between two points are left.
* `loads_onlyActive`: what any sequence of loads leaves. -/

namespace NgxToolkit.DynamicConf

/-- A pool that was created and not destroyed. -/
def Pools.Alive (p : Pools) (pool : Nat) : Prop := pool < p.made ∧ pool ∉ p.destroyed

instance (p : Pools) (pool : Nat) : Decidable (p.Alive pool) :=
  inferInstanceAs (Decidable (_ ∧ _))

namespace Blocks

/-! ## The code -/

/-- The array of `ngx_hash_keys_arrays_t` that a key is added to. -/
inductive Keys where
  | keys
  | dnsWcHead
  | dnsWcTail
deriving DecidableEq

/-- What `ngx_hash_add_key` returns. -/
inductive AddKey where
  | ok (array : Keys)
  | busy
  | declined
  | error
deriving DecidableEq

/-- `ngx_http_dynamic_server_name_t`: a regex, or a name with what
`ngx_hash_add_key` returns for it. -/
inductive ServerName where
  | regex
  | name (rc : AddKey)
deriving DecidableEq

/-- The servers of an `http` block, and what the outside answers during one
`ngx_http_dynamic_core_init_virtual_servers`. -/
structure ServersEnv where
  servers : List (List ServerName)
  tempPool : Bool
  keysArray : Bool
  hashInit : Bool
  wcHeadInit : Bool
  wcTailInit : Bool
  regex : Bool

/-- What the outside answers during one `ngx_http_dynamic_block`: the allocation,
the `create_main_conf` and `init_main_conf` in the order of the modules, and
the parse of the block. -/
structure BlockEnv where
  mainConf : Bool
  createMainConf : List Bool
  parse : Bool
  initMainConf : List Bool
  servers : ServersEnv

/-- What a parse finds: the `http` blocks until it ends or meets another error,
and if it ends without one. -/
structure ParseEnv where
  blocks : List BlockEnv
  others : Bool

/-- A `LoadEnv` whose parse creates the pools that the code creates. -/
structure Env (α κ : Type) where
  pool : Bool
  conf : Bool
  moduleConf : Bool
  args : Bool
  tempPool : Bool
  createConf : Nat → Option α
  parse : κ → ParseEnv
  initConf : Nat → Bool

/-- The loops that add the names; `none` are the two `return NGX_ERROR`. -/
def addKeys : List ServerName → List Keys → Option (List Keys)
  | [], ha => some ha
  | .regex :: names, ha => addKeys names ha
  | .name rc :: names, ha =>
    match rc with
    | .error => none
    | .declined => none
    | .busy => addKeys names ha
    | .ok array => addKeys names (array :: ha)

/-- `ngx_http_dynamic_core_init_virtual_servers`: does it return `NGX_OK`, and
the pools after it. -/
def initVirtualServers (env : ServersEnv) (pools : Pools) : Bool × Pools :=
  if env.tempPool = false then (false, pools)
  else
    let tempPool := pools.made
    let pools := pools.create 1
    if env.keysArray = false then (false, pools.destroy tempPool)
    else
      match addKeys env.servers.flatten [] with
      | none => (false, pools)
      | some ha =>
        if .keys ∈ ha ∧ env.hashInit = false then (false, pools.destroy tempPool)
        else if .dnsWcHead ∈ ha ∧ env.wcHeadInit = false then (false, pools.destroy tempPool)
        else if .dnsWcTail ∈ ha ∧ env.wcTailInit = false then (false, pools.destroy tempPool)
        else
          let pools := pools.destroy tempPool
          if .regex ∉ env.servers.flatten then (true, pools)
          else (env.regex, pools)

/-- `ngx_http_dynamic_block`. -/
def httpDynamicBlock (env : BlockEnv) (pools : Pools) : Bool × Pools :=
  if env.mainConf = false then (false, pools)
  else if env.createMainConf.all id = false then (false, pools)
  else if env.parse = false then (false, pools)
  else if env.initMainConf.all id = false then (false, pools)
  else initVirtualServers env.servers pools

/-- The `http` blocks of `ngx_dynamic_conf_parse`; it ends at the first that fails. -/
def parseBlocks : List BlockEnv → Pools → Bool × Pools
  | [], pools => (true, pools)
  | env :: blocks, pools =>
    let (rc, pools) := httpDynamicBlock env pools
    if rc then parseBlocks blocks pools else (false, pools)

variable {α κ δ : Type}

/-- The answers that `DynamicConf.loadConf` reads, with the pools `left`. -/
def Env.toLoadEnv (env : Env α κ) (left : Nat) : LoadEnv α κ where
  pool := env.pool
  conf := env.conf
  moduleConf := env.moduleConf
  args := env.args
  tempPool := env.tempPool
  createConf := env.createConf
  parse := fun text => (parseBlocks (env.parse text).blocks ⟨0, []⟩).1 && (env.parse text).others
  initConf := env.initConf
  left

/-- `ngx_dynamic_conf_load_conf`. -/
def loadConf (cycle : Cycle) (env : Env α κ) (text : κ) (pools : Pools) (dccf : Conf α κ δ) :
    Bool × Pools × Conf α κ δ :=
  if env.pool = false then (false, pools, dccf)
  else
    let pool := pools.made
    let pools := pools.create 1
    if env.conf = false ∨ env.moduleConf = false ∨ env.args = false ∨ env.tempPool = false then
      (false, pools.destroy pool, dccf)
    else
      let tempPool := pools.made
      let pools := pools.create 1
      match createConfs env.createConf cycle.modules 0 (List.replicate cycle.coreMaxModule none) with
      | none => (false, (pools.destroy tempPool).destroy pool, dccf)
      | some moduleConf =>
        let (rc, pools) := parseBlocks (env.parse text).blocks pools
        let failed := (false, (pools.destroy tempPool).destroy pool, dccf)
        if rc = false ∨ (env.parse text).others = false then failed
        else if initConfs env.initConf cycle.modules 0 = false then failed
        else
          -- `temp_pool` is not destroyed here
          (true, switchConf ⟨moduleConf, pool, text⟩ pools dccf)

/-- The loads of the files `is`, one after the other. -/
def loads (cycle : Cycle) (is : List (Env α κ × κ)) (s : Pools × Conf α κ δ) :
    Pools × Conf α κ δ :=
  is.foldl (fun s i => (loadConf cycle i.1 i.2 s.1 s.2).2) s

/-- A worker before its first load. -/
def start : Pools × Conf α κ δ := (⟨0, []⟩, ⟨fun _ => none, Fin.last 1, true, none⟩)

/-! ## What is left of the pools created -/

end Blocks

/-- Of the pools created between `p` and `q` those of `left` are not destroyed;
the others were destroyed once, and no pool that `p` has. -/
structure Pools.Leaves (p q : Pools) (left : List Nat) : Prop where
  made : p.made ≤ q.made
  destroyed : ∃ l, q.destroyed = l ++ p.destroyed ∧
    (l ++ left).Perm (List.range' p.made (q.made - p.made))

namespace Pools.Leaves

variable {p q r : Pools} {left left' : List Nat} {n : Nat}

theorem refl (p : Pools) : p.Leaves p [] := by
  refine ⟨Nat.le_refl _, [], rfl, ?_⟩
  rw [Nat.sub_self]
  exact .refl _

theorem create (h : p.Leaves q left) : p.Leaves (q.create 1) (q.made :: left) := by
  obtain ⟨l, hl, hperm⟩ := h.destroyed
  have hmade := h.made
  refine ⟨Nat.le_trans h.made (Nat.le_add_right _ _), l, hl, ?_⟩
  show (l ++ q.made :: left).Perm (List.range' p.made (q.made + 1 - p.made))
  rw [show q.made + 1 - p.made = q.made - p.made + 1 by omega, List.range'_concat]
  rw [show p.made + 1 * (q.made - p.made) = q.made by omega]
  exact List.perm_middle.trans ((hperm.cons _).trans (List.perm_append_singleton _ _).symm)

theorem perm (h : p.Leaves q left) (hp : left.Perm left') : p.Leaves q left' := by
  obtain ⟨l, hl, hperm⟩ := h.destroyed
  exact ⟨h.made, l, hl, ((hp.append_left l).symm).trans hperm⟩

theorem destroy (h : p.Leaves q (n :: left)) : p.Leaves (q.destroy n) left := by
  obtain ⟨l, hl, hperm⟩ := h.destroyed
  refine ⟨h.made, n :: l, ?_, List.perm_middle.symm.trans hperm⟩
  show n :: q.destroyed = n :: l ++ p.destroyed
  rw [hl, List.cons_append]

theorem trans (h : p.Leaves q left) (h' : q.Leaves r left') : p.Leaves r (left' ++ left) := by
  obtain ⟨l, hl, hperm⟩ := h.destroyed
  obtain ⟨l', hl', hperm'⟩ := h'.destroyed
  have hmade := h.made
  have hmade' := h'.made
  refine ⟨Nat.le_trans hmade hmade', l' ++ l, ?_, ?_⟩
  · rw [hl', hl, List.append_assoc]
  · have hrange : List.range' p.made (r.made - p.made) =
        List.range' p.made (q.made - p.made) ++ List.range' q.made (r.made - q.made) := by
      rw [show r.made - p.made = q.made - p.made + (r.made - q.made) by omega]
      rw [← List.range'_append_1]
      rw [show p.made + (q.made - p.made) = q.made by omega]
    rw [hrange]
    refine List.Perm.trans ?_ ((hperm'.append hperm).trans List.perm_append_comm)
    rw [List.append_assoc, List.append_assoc]
    refine List.Perm.append_left _ ?_
    rw [← List.append_assoc, ← List.append_assoc]
    exact List.perm_append_comm.append_right _

theorem mem (h : p.Leaves q left) : ∃ l, q.destroyed = l ++ p.destroyed ∧
    (∀ x, x ∈ l ∨ x ∈ left ↔ p.made ≤ x ∧ x < q.made) ∧ ∀ x ∈ l, x ∉ left := by
  obtain ⟨l, hl, hperm⟩ := h.destroyed
  have hmade := h.made
  refine ⟨l, hl, fun x => ?_, fun x hx hx' => ?_⟩
  · rw [← List.mem_append, hperm.mem_iff, List.mem_range'_1]
    omega
  · have hnd : (l ++ left).Nodup := hperm.nodup_iff.mpr List.nodup_range'
    exact List.disjoint_of_nodup_append hnd hx hx'

/-- A pool that `p` has is as it was. -/
theorem alive_old (h : p.Leaves q left) (hn : n < p.made) : q.Alive n ↔ p.Alive n := by
  obtain ⟨l, hl, hmem, -⟩ := h.mem
  have hmade := h.made
  have hn' : n ∉ l := fun hm => by
    have := ((hmem n).mp (.inl hm)).1
    omega
  unfold Alive
  rw [hl, List.mem_append, not_or]
  constructor
  · rintro ⟨-, -, hd⟩
    exact ⟨hn, hd⟩
  · rintro ⟨-, hd⟩
    exact ⟨by omega, hn', hd⟩

/-- A pool that `p` does not have is alive if it is left. -/
theorem alive_new (h : p.Leaves q left) (hp : ∀ x ∈ p.destroyed, x < p.made) (hn : p.made ≤ n) :
    q.Alive n ↔ n ∈ left := by
  obtain ⟨l, hl, hmem, hdisj⟩ := h.mem
  have hd : n ∉ p.destroyed := fun hm => Nat.not_lt.mpr hn (hp n hm)
  unfold Alive
  rw [hl, List.mem_append, not_or, and_iff_left hd]
  constructor
  · rintro ⟨hlt, hnl⟩
    exact ((hmem n).mpr ⟨hn, hlt⟩).resolve_left hnl
  · intro hm
    exact ⟨((hmem n).mp (.inr hm)).2, fun hnl => hdisj n hnl hm⟩

theorem lt_made (h : p.Leaves q left) (hp : ∀ x ∈ p.destroyed, x < p.made) :
    ∀ x ∈ q.destroyed, x < q.made := by
  obtain ⟨l, hl, hmem, -⟩ := h.mem
  have hmade := h.made
  intro x hx
  rw [hl, List.mem_append] at hx
  rcases hx with hx | hx
  · exact ((hmem x).mp (.inl hx)).2
  · exact Nat.lt_of_lt_of_le (hp x hx) hmade

end Pools.Leaves

namespace Blocks

/-! ## The conditions on what the outside answers -/

/-- `ngx_hash_add_key` refuses the name. -/
def ServerName.Refused (name : ServerName) : Prop := name = .name .declined ∨ name = .name .error

instance (name : ServerName) : Decidable name.Refused := inferInstanceAs (Decidable (_ ∨ _))

/-- A name is refused when the pool for the hash is there. -/
structure ServersEnv.Refused (env : ServersEnv) : Prop where
  tempPool : env.tempPool = true
  keysArray : env.keysArray = true
  name : ∃ name ∈ env.servers.flatten, name.Refused

/-- Nothing fails with the server names. -/
structure ServersEnv.Accepts (env : ServersEnv) : Prop where
  tempPool : env.tempPool = true
  keysArray : env.keysArray = true
  name : ∀ name ∈ env.servers.flatten, ¬ name.Refused
  hashInit : .name (.ok .keys) ∈ env.servers.flatten → env.hashInit = true
  wcHeadInit : .name (.ok .dnsWcHead) ∈ env.servers.flatten → env.wcHeadInit = true
  wcTailInit : .name (.ok .dnsWcTail) ∈ env.servers.flatten → env.wcTailInit = true
  regex : .regex ∈ env.servers.flatten → env.regex = true

/-- A block gets to its server names. -/
structure BlockEnv.Parsed (env : BlockEnv) : Prop where
  mainConf : env.mainConf = true
  createMainConf : ∀ ok ∈ env.createMainConf, ok = true
  parse : env.parse = true
  initMainConf : ∀ ok ∈ env.initMainConf, ok = true

/-- A block that is accepted. -/
def BlockEnv.Accepts (env : BlockEnv) : Prop := env.Parsed ∧ env.servers.Accepts

/-- The first of the blocks that is not accepted has a name that is refused. -/
def Refused (blocks : List BlockEnv) : Prop :=
  ∃ before env after, blocks = before ++ env :: after ∧ (∀ b ∈ before, b.Accepts) ∧
    env.Parsed ∧ env.servers.Refused

theorem ServersEnv.Accepts.not_refused {env : ServersEnv} (h : env.Accepts) : ¬ env.Refused := by
  intro hr
  obtain ⟨name, hm, hn⟩ := hr.name
  exact h.name name hm hn

theorem not_refused_nil : ¬ Refused [] := by
  rintro ⟨before, env, after, h, -⟩
  cases before <;> cases h

theorem refused_cons {env : BlockEnv} {blocks : List BlockEnv} : Refused (env :: blocks) ↔
    env.Parsed ∧ env.servers.Refused ∨ env.Accepts ∧ Refused blocks := by
  constructor
  · rintro ⟨before, env', after, h, hbefore, henv⟩
    cases before with
    | nil =>
      rw [List.nil_append, List.cons.injEq] at h
      exact .inl (h.1 ▸ henv)
    | cons b before =>
      rw [List.cons_append, List.cons.injEq] at h
      obtain ⟨rfl, rfl⟩ := h
      exact .inr ⟨hbefore _ List.mem_cons_self, before, env', after, rfl,
        fun b hb => hbefore b (List.mem_cons_of_mem _ hb), henv⟩
  · rintro (h | ⟨h, before, env', after, rfl, hbefore, henv⟩)
    · exact ⟨[], env, blocks, rfl, fun _ h => (by cases h), h⟩
    · refine ⟨env :: before, env', after, rfl, fun b hb => ?_, henv⟩
      rcases List.mem_cons.mp hb with rfl | hb
      · exact h
      · exact hbefore b hb

theorem not_refused_of_accepts {blocks : List BlockEnv} (h : ∀ b ∈ blocks, b.Accepts) :
    ¬ Refused blocks := by
  rintro ⟨before, env, after, rfl, -, -, hr⟩
  exact (h env (List.mem_append_right _ List.mem_cons_self)).2.not_refused hr

/-! ## One `http` block -/

/-- What a function of the parse did: it returned `NGX_OK` if all is accepted, and it
left no pool unless a name was refused. -/
structure Did (pools : Pools) (r : Bool × Pools) (accepts refused : Prop) : Prop where
  rc : r.1 = true ↔ accepts
  left : ∃ left, pools.Leaves r.2 left ∧ (left = [] ↔ ¬ refused)

theorem Did.skip {pools : Pools} {accepts refused : Prop} (ha : ¬ accepts) (hr : ¬ refused) :
    Did pools (false, pools) accepts refused :=
  ⟨⟨fun h => (by cases h), fun h => absurd h ha⟩, [], .refl _, ⟨fun _ => hr, fun _ => rfl⟩⟩

theorem addKeys_none {names : List ServerName} {ha : List Keys} :
    addKeys names ha = none ↔ ∃ name ∈ names, name.Refused := by
  induction names generalizing ha with
  | nil => simp [addKeys]
  | cons name names ih =>
    cases name with
    | regex => simp [addKeys, ih, ServerName.Refused]
    | name rc => cases rc <;> simp [addKeys, ih, ServerName.Refused]

theorem addKeys_mem {names : List ServerName} {ha ha' : List Keys} (h : addKeys names ha = some ha')
    (k : Keys) : k ∈ ha' ↔ k ∈ ha ∨ .name (.ok k) ∈ names := by
  induction names generalizing ha with
  | nil =>
    cases h
    simp
  | cons name names ih =>
    cases name with
    | regex => simp [ih h]
    | name rc =>
      cases rc with
      | ok array =>
        rw [ih h]
        simp
        tauto
      | busy => simp [ih h]
      | declined => cases h
      | error => cases h

theorem initVirtualServers_did (env : ServersEnv) (pools : Pools) :
    Did pools (initVirtualServers env pools) env.Accepts env.Refused := by
  have hmade : pools.Leaves (pools.create 1) [pools.made] := (Pools.Leaves.refl pools).create
  have hfailed : ¬ env.Accepts → ¬ env.Refused →
      Did pools (false, (pools.create 1).destroy pools.made) env.Accepts env.Refused :=
    fun ha hr => ⟨⟨fun h => (by cases h), fun h => absurd h ha⟩, [], hmade.destroy,
      ⟨fun _ => hr, fun _ => rfl⟩⟩
  unfold initVirtualServers
  split
  · next h =>
    exact .skip (fun ha => Bool.false_ne_true (h.symm.trans ha.tempPool))
      fun hr => Bool.false_ne_true (h.symm.trans hr.tempPool)
  next htemp =>
  dsimp only
  split
  · next h =>
    exact hfailed (fun ha => Bool.false_ne_true (h.symm.trans ha.keysArray))
      fun hr => Bool.false_ne_true (h.symm.trans hr.keysArray)
  next harray =>
  rw [Bool.not_eq_false] at htemp harray
  split
  · -- `ha.temp_pool` is left
    next h =>
    have hr : env.Refused := ⟨htemp, harray, addKeys_none.mp h⟩
    exact ⟨⟨fun h => (by cases h), fun ha => absurd hr ha.not_refused⟩, [pools.made], hmade,
      ⟨fun h => (by cases h), fun h => absurd hr h⟩⟩
  next ha h =>
  have hname : ∀ name ∈ env.servers.flatten, ¬ name.Refused := fun name hm hn => by
    rw [addKeys_none.mpr ⟨name, hm, hn⟩] at h
    cases h
  have hr : ¬ env.Refused := fun hr => by
    obtain ⟨name, hm, hn⟩ := hr.name
    exact hname name hm hn
  have hmem := addKeys_mem h
  simp only [List.not_mem_nil, false_or] at hmem
  simp only [hmem]
  split
  · next h => exact hfailed (fun ha => Bool.false_ne_true (h.2.symm.trans (ha.hashInit h.1))) hr
  next hkeys =>
  split
  · next h => exact hfailed (fun ha => Bool.false_ne_true (h.2.symm.trans (ha.wcHeadInit h.1))) hr
  next hhead =>
  split
  · next h => exact hfailed (fun ha => Bool.false_ne_true (h.2.symm.trans (ha.wcTailInit h.1))) hr
  next htail =>
  simp only [not_and, Bool.not_eq_false] at hkeys hhead htail
  split
  · next h =>
    exact ⟨⟨fun _ => ⟨htemp, harray, hname, hkeys, hhead, htail, fun hm => absurd hm h⟩,
      fun _ => rfl⟩, [], hmade.destroy, ⟨fun _ => hr, fun _ => rfl⟩⟩
  · next h =>
    exact ⟨⟨fun hx => ⟨htemp, harray, hname, hkeys, hhead, htail, fun _ => hx⟩,
      fun ha => ha.regex (not_not.mp h)⟩, [], hmade.destroy, ⟨fun _ => hr, fun _ => rfl⟩⟩

theorem httpDynamicBlock_did (env : BlockEnv) (pools : Pools) :
    Did pools (httpDynamicBlock env pools) env.Accepts (env.Parsed ∧ env.servers.Refused) := by
  have hskip : ¬ env.Parsed →
      Did pools (false, pools) env.Accepts (env.Parsed ∧ env.servers.Refused) :=
    fun h => .skip (fun ha => h ha.1) fun hr => h hr.1
  unfold httpDynamicBlock
  split
  · next h => exact hskip fun hp => Bool.false_ne_true (h.symm.trans hp.mainConf)
  next hmain =>
  split
  · next h =>
    exact hskip fun hp =>
      Bool.false_ne_true (h.symm.trans (List.all_eq_true.mpr hp.createMainConf))
  next hcreate =>
  split
  · next h => exact hskip fun hp => Bool.false_ne_true (h.symm.trans hp.parse)
  next hparse =>
  split
  · next h =>
    exact hskip fun hp =>
      Bool.false_ne_true (h.symm.trans (List.all_eq_true.mpr hp.initMainConf))
  next hinit =>
  simp only [Bool.not_eq_false, List.all_eq_true, id_eq] at hmain hcreate hparse hinit
  have hp : env.Parsed := ⟨hmain, hcreate, hparse, hinit⟩
  obtain ⟨hrc, left, hleft, hnil⟩ := initVirtualServers_did env.servers pools
  refine ⟨hrc.trans (and_iff_right hp).symm, left, hleft, ?_⟩
  rw [and_iff_right hp]
  exact hnil

/-- The blocks are all accepted, or the parse ends at one. -/
theorem parseBlocks_did (blocks : List BlockEnv) (pools : Pools) :
    Did pools (parseBlocks blocks pools) (∀ b ∈ blocks, b.Accepts) (Refused blocks) := by
  induction blocks generalizing pools with
  | nil => exact ⟨⟨fun _ _ h => (by cases h), fun _ => rfl⟩, [], .refl _,
      ⟨fun _ => not_refused_nil, fun _ => rfl⟩⟩
  | cons env blocks ih =>
    obtain ⟨hrc, left, hleft, hnil⟩ := httpDynamicBlock_did env pools
    rw [refused_cons, List.forall_mem_cons]
    unfold parseBlocks
    dsimp only
    split
    · next h =>
      have ha : env.Accepts := hrc.mp h
      have hr : ¬ (env.Parsed ∧ env.servers.Refused) := fun hr => ha.2.not_refused hr.2
      obtain ⟨hrc', left', hleft', hnil'⟩ := ih (httpDynamicBlock env pools).2
      rw [hnil.mpr hr] at hleft
      refine ⟨hrc'.trans (and_iff_right ha).symm, left' ++ [], hleft.trans hleft', ?_⟩
      rw [List.append_nil, hnil', and_iff_right ha, or_iff_right hr]
    · next h =>
      have ha : ¬ env.Accepts := fun ha => h (hrc.mpr ha)
      refine ⟨⟨fun h => (by cases h), fun hall => absurd hall.1 ha⟩, left, hleft, ?_⟩
      rw [hnil, or_iff_left fun hr => ha hr.1]

/-! ## One load -/

section
variable {cycle : Cycle} {env : Env α κ} {text : κ} {pools : Pools} {dccf : Conf α κ δ}

/-- The load gets to the parse. -/
structure Env.Started (cycle : Cycle) (env : Env α κ) : Prop where
  pool : env.pool = true
  conf : env.conf = true
  moduleConf : env.moduleConf = true
  args : env.args = true
  tempPool : env.tempPool = true
  createConf : ∀ i m, cycle.modules[i]? = some m → m.creates = true →
    (env.createConf i).isSome = true

/-- Nothing fails in the load. -/
structure Env.Accepts (cycle : Cycle) (env : Env α κ) (text : κ) : Prop where
  started : env.Started cycle
  blocks : ∀ b ∈ (env.parse text).blocks, b.Accepts
  others : (env.parse text).others = true
  initConf : ∀ i m, cycle.modules[i]? = some m → m.inits = true → env.initConf i = true

/-- The load fails at a server name that is refused. -/
def Env.Refused (cycle : Cycle) (env : Env α κ) (text : κ) : Prop :=
  env.Started cycle ∧ Blocks.Refused (env.parse text).blocks

/-- The load is that of `DynamicConf.loadConf`, but for the pools. -/
theorem loadConf_eq (left : Nat) :
    (loadConf cycle env text pools dccf).1 =
        (DynamicConf.loadConf cycle (env.toLoadEnv left) text pools dccf).1 ∧
      (loadConf cycle env text pools dccf).2.2 =
        (DynamicConf.loadConf cycle (env.toLoadEnv left) text pools dccf).2.2 := by
  have hrc : ∀ pools : Pools, (parseBlocks (env.parse text).blocks pools).1 =
      (parseBlocks (env.parse text).blocks ⟨0, []⟩).1 := by
    intro pools
    rw [Bool.eq_iff_iff, (parseBlocks_did _ _).rc, (parseBlocks_did _ _).rc]
  have hconf : ∀ (conf : Ctx α κ) (pools pools' : Pools) (dccf : Conf α κ δ),
      (switchConf conf pools dccf).2 = (switchConf conf pools' dccf).2 := by
    intro conf pools pools' dccf
    unfold switchConf
    cases dccf.conf dccf.used <;> rfl
  unfold loadConf DynamicConf.loadConf Env.toLoadEnv
  dsimp only
  split
  · exact ⟨rfl, rfl⟩
  split
  · exact ⟨rfl, rfl⟩
  cases createConfs env.createConf cycle.modules 0 (List.replicate cycle.coreMaxModule none) with
  | none => exact ⟨rfl, rfl⟩
  | some moduleConf =>
    dsimp only
    rw [hrc ((pools.create 1).create 1)]
    simp only [Bool.and_eq_false_iff]
    split
    · exact ⟨rfl, rfl⟩
    split
    · exact ⟨rfl, rfl⟩
    · exact ⟨rfl, hconf _ _ _ _⟩

/-- A load fails, and leaves a pool if a name was refused; or nothing fails, and it
leaves `temp_pool` and the pool of the configuration. -/
theorem loadConf_spec (cycle : Cycle) (env : Env α κ) (text : κ) (pools : Pools)
    (dccf : Conf α κ δ) :
    (∃ q left, pools.Leaves q left ∧ (left = [] ↔ ¬ env.Refused cycle text) ∧
      ¬ env.Accepts cycle text ∧ loadConf cycle env text pools dccf = (false, q, dccf)) ∨
    ∃ q moduleConf, pools.Leaves q [pools.made + 1, pools.made] ∧ env.Accepts cycle text ∧
      loadConf cycle env text pools dccf =
        (true, switchConf ⟨moduleConf, pools.made, text⟩ q dccf) := by
  have hmade : pools.Leaves ((pools.create 1).create 1) [pools.made + 1, pools.made] :=
    (Pools.Leaves.refl pools).create.create
  have hstop : ∀ q, pools.Leaves q [] → ¬ env.Started cycle →
      ∃ q' left, pools.Leaves q' left ∧ (left = [] ↔ ¬ env.Refused cycle text) ∧
        ¬ env.Accepts cycle text ∧ (false, q, dccf) = (false, q', dccf) := fun q hq hs =>
    ⟨q, [], hq, ⟨fun _ hr => hs hr.1, fun _ => rfl⟩, fun ha => hs ha.started, rfl⟩
  unfold loadConf
  split
  · next h =>
    exact .inl (hstop _ (.refl _) fun hs => Bool.false_ne_true (h.symm.trans hs.pool))
  next hpool =>
  dsimp only
  split
  · next h =>
    refine .inl (hstop _ (Pools.Leaves.refl pools).create.destroy fun hs => ?_)
    simp [hs.conf, hs.moduleConf, hs.args, hs.tempPool] at h
  next halloc =>
  have hcreate := createConfs_isSome env.createConf cycle.modules 0
    (List.replicate cycle.coreMaxModule none)
  simp only [Nat.add_zero] at hcreate
  split
  · next h =>
    refine .inl (hstop _ hmade.destroy.destroy fun hs => ?_)
    have hsome := hcreate.mpr hs.createConf
    rw [h] at hsome
    cases hsome
  next moduleConf hc =>
  simp only [not_or, Bool.not_eq_false] at hpool halloc
  have hs : env.Started cycle := ⟨hpool, halloc.1, halloc.2.1, halloc.2.2.1, halloc.2.2.2,
    hcreate.mp (by rw [hc]; rfl)⟩
  obtain ⟨hrc, left, hleft, hnil⟩ :=
    parseBlocks_did (env.parse text).blocks ((pools.create 1).create 1)
  have hleaves := hmade.trans hleft
  have hr : left = [] ↔ ¬ env.Refused cycle text := by
    rw [hnil, Env.Refused, and_iff_right hs]
  -- the exits that destroy `temp_pool` and `pool`
  have hfailed := (hleaves.perm List.perm_append_comm).destroy.destroy
  split
  · next h =>
    refine .inl ⟨_, left, hfailed, hr, fun ha => ?_, rfl⟩
    rw [hrc.mpr ha.blocks, ha.others] at h
    simp at h
  next hparse =>
  simp only [not_or, Bool.not_eq_false] at hparse
  have hinit := initConfs_eq_true env.initConf cycle.modules 0
  simp only [Nat.add_zero] at hinit
  split
  · next h =>
    refine .inl ⟨_, left, hfailed, hr, fun ha => ?_, rfl⟩
    rw [hinit.mpr ha.initConf] at h
    cases h
  next hi =>
  rw [Bool.not_eq_false] at hi
  have ha : env.Accepts cycle text := ⟨hs, hrc.mp hparse.1, hparse.2, hinit.mp hi⟩
  rw [hnil.mpr (not_refused_of_accepts ha.blocks), List.nil_append] at hleaves
  exact .inr ⟨_, moduleConf, hleaves, ha, rfl⟩

end

/-! ## Sequences of loads -/

/-- The pool of the configuration in use. -/
def inUse (dccf : Conf α κ δ) : Option Nat := (dccf.conf dccf.used).map (·.pool)

/-- The pool of the configuration in use is alive, and no other. -/
def OnlyActive (s : Pools × Conf α κ δ) : Prop := ∀ n, s.1.Alive n ↔ inUse s.2 = some n

/-- Of the pools that the load creates, that of the new configuration is alive
after it if it returns `NGX_OK`, and none otherwise. -/
def OnlyOwn (cycle : Cycle) (env : Env α κ) (text : κ) (s : Pools × Conf α κ δ) : Prop :=
  let r := loadConf cycle env text s.1 s.2
  ∀ n, s.1.made ≤ n → (r.2.1.Alive n ↔ r.1 = true ∧ inUse r.2.2 = some n)

/-- The load fails, and not at a server name that is refused. -/
def Env.FailsClean (cycle : Cycle) (env : Env α κ) (text : κ) : Prop :=
  ¬ env.Accepts cycle text ∧ ¬ env.Refused cycle text

/-- What every load keeps: only created pools are destroyed, the slot that is not in
use is empty, and the pool of the configuration in use is alive. -/
structure Sound (s : Pools × Conf α κ δ) : Prop where
  destroyed : ∀ x ∈ s.1.destroyed, x < s.1.made
  slots : s.2.conf = Function.update (fun _ => none) s.2.used (s.2.conf s.2.used)
  active : ∀ n, inUse s.2 = some n → s.1.Alive n

theorem sound_start : Sound (start : Pools × Conf α κ δ) := by
  refine ⟨fun x h => (by cases h), ?_, fun n h => by cases h⟩
  funext i
  by_cases hi : i = 1 <;> simp [start]

section
variable {cycle : Cycle} {s : Pools × Conf α κ δ}

/-- After a switch the old configuration's pool is no longer alive, and the new
one's is in use. -/
theorem Sound.switchConf (hs : Sound s) {q : Pools} (moduleConf : List (Option α)) (text : κ)
    (hq : s.1.Leaves q [s.1.made + 1, s.1.made]) :
    let r := DynamicConf.switchConf ⟨moduleConf, s.1.made, text⟩ q s.2
    Sound r ∧ inUse r.2 = some s.1.made ∧ ∀ n, r.1.Alive n ↔
      n = s.1.made ∨ n = s.1.made + 1 ∨ s.1.Alive n ∧ inUse s.2 ≠ some n := by
  intro r
  obtain ⟨hslots, hpools⟩ := switchConf_spec ⟨moduleConf, s.1.made, text⟩ q hs.slots
  have hact : inUse r.2 = some s.1.made := by
    unfold inUse
    rw [hslots, Function.update_self]
    rfl
  have halive : ∀ n, r.1.Alive n ↔ q.Alive n ∧ inUse s.2 ≠ some n := by
    intro n
    have hr : r.1 = ⟨q.made, (inUse s.2).toList ++ q.destroyed⟩ := hpools
    unfold Pools.Alive
    rw [hr, List.mem_append, not_or, Option.mem_toList]
    tauto
  have hall : ∀ n, r.1.Alive n ↔
      n = s.1.made ∨ n = s.1.made + 1 ∨ s.1.Alive n ∧ inUse s.2 ≠ some n := by
    intro n
    rw [halive]
    rcases Nat.lt_or_ge n s.1.made with hn | hn
    · rw [hq.alive_old hn]
      constructor
      · exact fun h => .inr (.inr h)
      · rintro (h | h | h)
        · omega
        · omega
        · exact h
    · have hold : ¬ s.1.Alive n := fun h => Nat.not_lt.mpr hn h.1
      have hne : inUse s.2 ≠ some n := fun h => hold (hs.active n h)
      rw [hq.alive_new hs.destroyed hn]
      simp only [List.mem_cons, List.not_mem_nil, or_false]
      tauto
  refine ⟨⟨?_, ?_, fun n hn => ?_⟩, hact, hall⟩
  · intro x hx
    have hr : r.1 = ⟨q.made, (inUse s.2).toList ++ q.destroyed⟩ := hpools
    rw [hr, List.mem_append, Option.mem_toList] at hx
    rw [hr]
    rcases hx with hx | hx
    · exact Nat.lt_of_lt_of_le (hs.active x hx).1 hq.made
    · exact hq.lt_made hs.destroyed x hx
  · rw [hslots, Function.update_self]
  · rw [hact, Option.some.injEq] at hn
    exact (hall n).mpr (.inl hn.symm)

/-- The three ways a load goes. -/
theorem Sound.load (hs : Sound s) (cycle : Cycle) (env : Env α κ) (text : κ) :
    Sound (loadConf cycle env text s.1 s.2).2 ∧
      (OnlyActive (loadConf cycle env text s.1 s.2).2 ↔
        OnlyActive s ∧ env.FailsClean cycle text) ∧
      (OnlyOwn cycle env text s ↔ env.FailsClean cycle text) := by
  unfold OnlyOwn
  rcases loadConf_spec cycle env text s.1 s.2 with
    ⟨q, left, hq, hnil, ha, he⟩ | ⟨q, moduleConf, hq, ha, he⟩
  · rw [he]
    have hret : env.FailsClean cycle text ↔ left = [] := by
      rw [hnil]
      exact and_iff_right ha
    have hact : ∀ n, s.1.made ≤ n → inUse s.2 ≠ some n := fun n hn h =>
      Nat.not_lt.mpr hn (hs.active n h).1
    have hown : (∀ n, s.1.made ≤ n → (q.Alive n ↔ false = true ∧ inUse s.2 = some n)) ↔
        left = [] := by
      constructor
      · intro h
        refine List.eq_nil_iff_forall_not_mem.mpr fun n hn => ?_
        have hmade : s.1.made ≤ n := by
          obtain ⟨l, -, hmem, -⟩ := hq.mem
          exact ((hmem n).mp (.inr hn)).1
        exact Bool.false_ne_true ((h n hmade).mp ((hq.alive_new hs.destroyed hmade).mpr hn)).1
      · rintro rfl n hn
        rw [hq.alive_new hs.destroyed hn]
        simp
    refine ⟨⟨hq.lt_made hs.destroyed, hs.slots, fun n hn => ?_⟩, ?_, hown.trans hret.symm⟩
    · have halive := hs.active n hn
      exact (hq.alive_old halive.1).mpr halive
    · rw [hret, ← hown]
      constructor
      · intro h
        refine ⟨fun n => ?_, fun n hn => ?_⟩
        · rcases Nat.lt_or_ge n s.1.made with hn | hn
          · rw [← hq.alive_old hn]
            exact h n
          · exact iff_of_false (fun h' => Nat.not_lt.mpr hn h'.1) (hact n hn)
        · rw [h n]
          exact iff_of_false (hact n hn) fun h' => hact n hn h'.2
      · rintro ⟨h, h'⟩ n
        rcases Nat.lt_or_ge n s.1.made with hn | hn
        · rw [hq.alive_old hn]
          exact h n
        · rw [h' n hn]
          exact iff_of_false (fun h' => hact n hn h'.2) (hact n hn)
  · obtain ⟨hsound, hact, hall⟩ := hs.switchConf moduleConf text hq
    rw [he]
    -- `temp_pool` is alive and not in use
    have htemp := (hall (s.1.made + 1)).mpr (.inr (.inl rfl))
    have hne : some s.1.made ≠ some (s.1.made + 1) := fun h => by
      rw [Option.some.injEq] at h
      omega
    rw [← hact] at hne
    refine ⟨hsound, ?_, ?_⟩
    · exact iff_of_false (fun h => hne ((h _).mp htemp)) fun h => h.2.1 ha
    · exact iff_of_false (fun h => hne ((h _ (Nat.le_succ _)).mp htemp).2) fun h => h.1 ha

/-- What a sequence of loads keeps, and what it leaves. -/
theorem Sound.loads (hs : Sound s) (cycle : Cycle) (is : List (Env α κ × κ)) :
    Sound (loads cycle is s) ∧ (OnlyActive (loads cycle is s) ↔
      OnlyActive s ∧ ∀ i ∈ is, i.1.FailsClean cycle i.2) := by
  induction is generalizing s with
  | nil => exact ⟨hs, (and_iff_left fun _ h => (by cases h)).symm⟩
  | cons i is ih =>
    obtain ⟨hsound, hiff, -⟩ := hs.load cycle i.1 i.2
    obtain ⟨hsound', hiff'⟩ := ih hsound
    refine ⟨hsound', hiff'.trans ?_⟩
    rw [hiff, List.forall_mem_cons, and_assoc]

end

/-- **Pools that stay.**  After any sequence of loads the pool of the configuration in
use is the only one alive if and only if every load failed, and none at a server name
that `ngx_hash_add_key` refuses; and so for the pools of any next load. -/
theorem loads_onlyActive (cycle : Cycle) (is : List (Env α κ × κ)) :
    (OnlyActive (loads cycle is (start : Pools × Conf α κ δ)) ↔
      ∀ i ∈ is, i.1.FailsClean cycle i.2) ∧
    ∀ env text, OnlyOwn cycle env text (loads cycle is (start : Pools × Conf α κ δ)) ↔
      env.FailsClean cycle text := by
  have hstart : OnlyActive (start : Pools × Conf α κ δ) := fun n =>
    iff_of_false (fun h => Nat.not_lt_zero n h.1) fun h => by cases h
  obtain ⟨hs, hiff⟩ := sound_start.loads cycle is
  exact ⟨hiff.trans (and_iff_right hstart), fun env text => (hs.load cycle env text).2.2⟩

/-- A file with one `http` block, whose only server name gets `rc`. -/
def oneName (rc : AddKey) : Env Nat Nat :=
  ⟨true, true, true, true, true, fun i => some i,
    fun _ => ⟨[⟨true, [true], true, [true],
      ⟨[[.name rc]], true, true, true, true, true, true⟩⟩], true⟩, fun _ => true⟩

/-- A load that succeeds leaves `temp_pool`, the pool 1; one that fails at the name
leaves the pool for the hash, 2. -/
theorem temp_pool_left :
    let s : Pools × Conf Nat Nat Nat := start
    let ok := loadConf someCycle (oneName (.ok .keys)) 0 s.1 s.2
    let declined := loadConf someCycle (oneName .declined) 0 s.1 s.2
    (ok.1 = true ∧ inUse ok.2.2 = some 0 ∧ ok.2.1.Alive 1) ∧
    (declined.1 = false ∧ declined.2.1.Alive 2) ∧
    ¬ OnlyOwn someCycle (oneName (.ok .keys)) 0 s ∧ ¬ OnlyOwn someCycle (oneName .declined) 0 s ∧
    ¬ OnlyActive (loads someCycle [(oneName (.ok .keys), 0)] s) := by
  refine ⟨by decide, by decide, fun h => ?_, fun h => ?_, fun h => ?_⟩
  · exact absurd ((h 1 (by decide)).mp (by decide)) (by decide)
  · exact absurd ((h 2 (by decide)).mp (by decide)) (by decide)
  · exact absurd ((h 1).mp (by decide)) (by decide)

end Blocks

end NgxToolkit.DynamicConf
