import Mathlib
import NgxToolkit.DynamicConfToken

/-! The parser of a dynamic configuration (`ngx_dynamic_conf_parse` and
`ngx_dynamic_conf_handler`).

`parse` calls a reader of tokens until a block or the file ends, and `handler` for
each directive between.  The handler of a block calls `parse` again with a context of
its own, and gives the context of the block around it back when this returns.  What
else the handlers change is the state `ω`; a handler fails only if its `parse` does.

* `Outcome`: what one call of `parse` has done.
* `parse_outcome`: every call has an outcome, on every stream of tokens. -/

namespace NgxToolkit.DynamicConf.Parse

/-- What `cf->cmd_type` can be. -/
inductive CmdConf where
  | main
  | httpMain
  | httpSrv
  | httpLoc
  | other (n : Nat)
deriving DecidableEq

/-- The `type` of a module. -/
inductive ModuleType where
  | conf
  | core
  | http
  | other (n : Nat)
deriving DecidableEq

abbrev Args := List (List UInt8)

/-- `NGX_CONF_MAX_ARGS`. -/
def maxArgs : Nat := 8

/-- The bits of `cmd->type`.  `takes` are the numbers of arguments behind the name
that its bits of `arg_number` stand for. -/
structure CmdType where
  block : Bool
  any : Bool
  flag : Bool
  more1 : Bool
  more2 : Bool
  takes : List Nat
  contexts : List CmdConf

/-- Is the number of arguments right, the name among them? -/
def CmdType.takesArgs (t : CmdType) (nelts : Nat) : Bool :=
  if t.any then true
  else if t.flag then nelts == 2
  else if t.more1 then 2 ≤ nelts
  else if t.more2 then 3 ≤ nelts
  else if maxArgs < nelts then false
  else t.takes.contains (nelts - 1)

/-- `cf->module_type` and `cf->cmd_type`. -/
structure Place where
  moduleType : ModuleType
  cmdType : CmdConf
deriving DecidableEq

/-- `ngx_command_t`.  `set` is the handler of a simple directive.  That of a block
does `enter`, which gives `cf->ctx` for the block, calls `ngx_dynamic_conf_parse` at
the place `inside`, and does `leave`. -/
structure Command (γ ω : Type) where
  name : List UInt8
  type : CmdType
  set : ω → Args → γ → ω
  enter : ω → Args → γ → ω × (Nat → γ)
  inside : Place → Args → Place
  leave : ω → ω

/-- `ngx_module_t`; `dcommands` is `spare_hook1`, without entries if this is `NULL`. -/
structure Module (γ ω : Type) where
  type : ModuleType
  ctxIndex : Nat
  dcommands : List (Command γ ω)

/-- The commands in the order in which they are searched. -/
def entries {γ ω : Type} (modules : List (Module γ ω)) : List (Module γ ω × Command γ ω) :=
  modules.flatMap fun m => m.dcommands.map fun cmd => (m, cmd)

/-- A call of `cmd->set`. -/
structure Call (γ ω : Type) where
  entry : Module γ ω × Command γ ω
  args : Args
  conf : γ

/-- `ngx_conf_t`, the reader of its file, what the handlers change, and the calls so far. -/
structure Cf (σ γ ω : Type) where
  file : σ
  place : Place
  ctx : Nat → γ
  world : ω
  calls : List (Call γ ω)

/-- What `ngx_dynamic_conf_handler` logs when it calls no handler. -/
inductive HandlerError where
  | notTerminated
  | noOpening
  | invalidArgs
  | notAllowed
  | unknown

variable {σ γ ω : Type}

/-- The comparison of lengths, and `ngx_strcmp`. -/
def sameName (name cmdName : List UInt8) : Bool :=
  name.length == cmdName.length && name.takeWhile (· ≠ 0) == cmdName.takeWhile (· ≠ 0)

/-- The loops over the modules and their commands; `last` is `NGX_CONF_BLOCK_START`. -/
def search (place : Place) (args : Args) (last : Bool) :
    Bool → List (Module γ ω × Command γ ω) → Except HandlerError (Module γ ω × Command γ ω)
  | found, [] => .error (if found then .notAllowed else .unknown)
  | found, e :: es =>
    if sameName (args.headD []) e.2.name = false then search place args last found es
    else if e.1.type ≠ .conf ∧ e.1.type ≠ place.moduleType then search place args last true es
    else if place.cmdType ∉ e.2.type.contexts then search place args last true es
    else if e.2.type.block = false ∧ last = true then .error .notTerminated
    else if e.2.type.block = true ∧ last = false then .error .noOpening
    else if e.2.type.takesArgs args.length = false then .error .invalidArgs
    else .ok e

/-- `ngx_dynamic_conf_handler`; `inner` is `ngx_dynamic_conf_parse(cf, 0)`. -/
def handler (modules : List (Module γ ω)) (inner : Cf σ γ ω → Option (Bool × Cf σ γ ω))
    (cf : Cf σ γ ω) (args : Args) (last : Bool) : Option (Bool × Cf σ γ ω) :=
  match search cf.place args last false (entries modules) with
  | .error _ => some (false, cf)
  | .ok e =>
    let conf := cf.ctx e.1.ctxIndex
    let calls := cf.calls ++ [⟨e, args, conf⟩]
    if e.2.type.block then
      let (world, ctx) := e.2.enter cf.world args conf
      match inner { cf with place := e.2.inside cf.place args, ctx, world, calls } with
      | none => none
      | some (rc, cf') =>
        -- `*cf = pcf` gives the context back, on both ways
        let pcf := { cf' with place := cf.place, ctx := cf.ctx }
        if rc then some (true, { pcf with world := e.2.leave cf'.world }) else some (false, pcf)
    else some (true, { cf with world := e.2.set cf.world args conf, calls })

/-- `ngx_dynamic_conf_parse` with fuel; the result `true` is `NGX_OK`. -/
def parse (read : σ → Option (Token × σ)) (modules : List (Module γ ω)) :
    Nat → Bool → Cf σ γ ω → Option (Bool × Cf σ γ ω)
  | 0, _, _ => none
  | fuel + 1, init, cf =>
    match read cf.file with
    | none => none
    | some (t, file) =>
      let cf := { cf with file }
      let directive (args : Args) (last : Bool) :=
        match handler modules (parse read modules fuel false) cf args last with
        | some (true, cf) => parse read modules fuel init cf
        | rc => rc
      match t with
      | .error => some (false, cf)
      | .blockDone => some (!init, cf)
      | .fileDone => some (init, cf)
      | .ok args => directive args false
      | .blockStart args => directive args true

/-! ## Nested directives -/

/-- A sequence of directives. -/
inductive Items where
  | nil
  | simple (args : Args) (next : Items)
  | block (args : Args) (body next : Items)
deriving DecidableEq

/-- The tokens of the sequence. -/
def Items.tokens : Items → List Token
  | .nil => []
  | .simple args next => .ok args :: next.tokens
  | .block args body next => .blockStart args :: (body.tokens ++ .blockDone :: next.tokens)

/-- Is there for every directive an entry of which `ok` holds?  A block's entry says at
which place the directives in the block are. -/
def Items.Accepted (ok : Place → Bool → Args → Module γ ω × Command γ ω → Prop) :
    Place → Items → Prop
  | _, .nil => True
  | p, .simple args next => (∃ e, ok p false args e) ∧ next.Accepted ok p
  | p, .block args body next =>
    (∃ e, ok p true args e ∧ body.Accepted ok (e.2.inside p args)) ∧ next.Accepted ok p

/-- The token that ends what one call of `parse` reads. -/
def endToken (init : Bool) : Token := if init then .fileDone else .blockDone

/-- The arguments of a directive. -/
def directive : Token → Option Args
  | .ok args | .blockStart args => some args
  | _ => none

/-- Has the entry the name, and the right module type and context? -/
def suits (p : Place) (args : Args) (e : Module γ ω × Command γ ω) : Bool :=
  sameName (args.headD []) e.2.name && (e.1.type == .conf || e.1.type == p.moduleType) &&
    e.2.type.contexts.contains p.cmdType

/-- Has the directive the right ending and number of arguments for the entry? -/
def fits (last : Bool) (args : Args) (e : Module γ ω × Command γ ω) : Bool :=
  e.2.type.block == last && e.2.type.takesArgs args.length

/-- The entry of a directive: the first that suits it, if it fits. -/
def entryOf (modules : List (Module γ ω)) (p : Place) (last : Bool) (args : Args) :
    Option (Module γ ω × Command γ ω) :=
  ((entries modules).find? (suits p args)).filter (fits last args)

def IsEntry (modules : List (Module γ ω)) (p : Place) (last : Bool) (args : Args)
    (e : Module γ ω × Command γ ω) : Prop := entryOf modules p last args = some e

/-- The calls for the sequence and what they leave, if each handler is called once, in
the order of the file, with the conf of its module in the innermost block. -/
def Items.run (modules : List (Module γ ω)) :
    Items → Place → (Nat → γ) → ω → List (Call γ ω) × ω
  | .nil, _, _, w => ([], w)
  | .simple args next, p, ctx, w =>
    match entryOf modules p false args with
    | none => ([], w)
    | some e =>
      let conf := ctx e.1.ctxIndex
      let rest := next.run modules p ctx (e.2.set w args conf)
      (⟨e, args, conf⟩ :: rest.1, rest.2)
  | .block args body next, p, ctx, w =>
    match entryOf modules p true args with
    | none => ([], w)
    | some e =>
      let conf := ctx e.1.ctxIndex
      let opened := e.2.enter w args conf
      let inner := body.run modules (e.2.inside p args) opened.2 opened.1
      let rest := next.run modules p ctx (e.2.leave inner.2)
      (⟨e, args, conf⟩ :: (inner.1 ++ rest.1), rest.2)

theorem Items.tokens_simple (args : Args) (next : Items) (ts : List Token) :
    (Items.simple args next).tokens ++ ts = .ok args :: (next.tokens ++ ts) := rfl

theorem Items.tokens_block (args : Args) (body next : Items) (ts : List Token) :
    (Items.block args body next).tokens ++ ts =
      .blockStart args :: (body.tokens ++ endToken false :: (next.tokens ++ ts)) := by
  rw [Items.tokens, List.cons_append, List.append_assoc]
  rfl

/-- A sequence is read in one way only. -/
theorem Items.tokens_inj (init : Bool) {a b : Items} {x y : List Token}
    (h : a.tokens ++ endToken init :: x = b.tokens ++ endToken init :: y) : a = b ∧ x = y := by
  induction a generalizing b init x y with
  | nil =>
    cases b with
    | nil => exact ⟨rfl, (List.cons.inj h).2⟩
    | simple args next => cases init <;> cases (List.cons.inj h).1
    | block args body next => cases init <;> cases (List.cons.inj h).1
  | simple args next ih =>
    cases b with
    | nil => cases init <;> cases (List.cons.inj h).1
    | simple args' next' =>
      obtain ⟨hargs, hrest⟩ := List.cons.inj h
      obtain ⟨rfl, hxy⟩ := ih init hrest
      exact ⟨by rw [Token.ok.inj hargs], hxy⟩
    | block args' body' next' => cases (List.cons.inj h).1
  | block args body next ihbody ih =>
    cases b with
    | nil => cases init <;> cases (List.cons.inj h).1
    | simple args' next' => cases (List.cons.inj h).1
    | block args' body' next' =>
      rw [tokens_block, tokens_block] at h
      obtain ⟨hargs, hrest⟩ := List.cons.inj h
      obtain ⟨rfl, hnext⟩ := ihbody false hrest
      obtain ⟨rfl, hxy⟩ := ih init hnext
      exact ⟨by rw [Token.blockStart.inj hargs], hxy⟩

theorem filterMap_block (args : Args) (ts us : List Token) :
    (Token.blockStart args :: (ts ++ endToken false :: us)).filterMap directive =
      args :: (ts.filterMap directive ++ us.filterMap directive) := by
  rw [List.filterMap_cons, List.filterMap_append, List.filterMap_cons]
  rfl

/-- The calls are those for the directives, in their order. -/
theorem Items.run_args (modules : List (Module γ ω)) (items : Items) (p : Place)
    (haccepted : items.Accepted (IsEntry modules) p) (ctx : Nat → γ) (w : ω) :
    (items.run modules p ctx w).1.map Call.args = items.tokens.filterMap directive := by
  induction items generalizing p ctx w with
  | nil => rfl
  | simple args next ih =>
    obtain ⟨⟨e, he⟩, hnext⟩ := haccepted
    rw [Items.run, he]
    exact congrArg (args :: ·) (ih p hnext ctx _)
  | block args body next ihbody ih =>
    obtain ⟨⟨e, he, hbody⟩, hnext⟩ := haccepted
    rw [Items.run, he]
    show args :: List.map Call.args (_ ++ _) = _
    rw [List.map_append, ihbody _ hbody, ih p hnext]
    exact (filterMap_block args body.tokens next.tokens).symm

/-- A directive gets the first entry that suits it. -/
theorem search_eq_ok (place : Place) (args : Args) (last found : Bool)
    (es : List (Module γ ω × Command γ ω)) (e : Module γ ω × Command γ ω) :
    search place args last found es = .ok e ↔
      (es.find? (suits place args)).filter (fits last args) = some e := by
  induction es generalizing found with
  | nil =>
    constructor
    · intro h
      cases h
    · intro h
      cases h
  | cons e' es ih =>
    unfold search
    by_cases hname : sameName (args.headD []) e'.2.name = false
    · have hsuits : suits place args e' = false := by
        rw [suits, hname, Bool.false_and, Bool.false_and]
      rw [if_pos hname, List.find?_cons_of_neg (by simp [hsuits])]
      exact ih found
    rw [if_neg hname]
    rw [Bool.not_eq_false] at hname
    by_cases htype : e'.1.type ≠ .conf ∧ e'.1.type ≠ place.moduleType
    · have hsuits : suits place args e' = false := by simp [suits, htype]
      rw [if_pos htype, List.find?_cons_of_neg (by simp [hsuits])]
      exact ih true
    rw [if_neg htype]
    by_cases hcontext : place.cmdType ∉ e'.2.type.contexts
    · have hsuits : suits place args e' = false := by simp [suits, hcontext]
      rw [if_pos hcontext, List.find?_cons_of_neg (by simp [hsuits])]
      exact ih true
    rw [if_neg hcontext]
    have hsuits : suits place args e' = true := by
      simp only [suits, Bool.and_eq_true, Bool.or_eq_true, beq_iff_eq, List.contains_iff_mem]
      exact ⟨⟨hname, by tauto⟩, not_not.mp hcontext⟩
    rw [List.find?_cons_of_pos hsuits]
    unfold fits
    cases hblock : e'.2.type.block <;> cases last <;>
      cases hargs : e'.2.type.takesArgs args.length <;>
      simp [Option.filter, hblock, hargs]

theorem search_entry {modules : List (Module γ ω)} {place : Place} {args : Args} {last : Bool}
    {e : Module γ ω × Command γ ω} (he : entryOf modules place last args = some e) :
    search place args last false (entries modules) = .ok e :=
  (search_eq_ok place args last false (entries modules) e).mpr he

theorem entryOf_block {modules : List (Module γ ω)} {place : Place} {args : Args} {last : Bool}
    {e : Module γ ω × Command γ ω} (he : entryOf modules place last args = some e) :
    e.2.type.block = last := by
  have hfits := (Option.filter_eq_some_iff.mp he).2
  rw [fits, Bool.and_eq_true, beq_iff_eq] at hfits
  exact hfits.1

section
variable {modules : List (Module γ ω)} (inner : Cf σ γ ω → Option (Bool × Cf σ γ ω))
  (cf : Cf σ γ ω) {args : Args} {last : Bool} {e : Module γ ω × Command γ ω}

theorem handler_none (he : entryOf modules cf.place last args = none) :
    handler modules inner cf args last = some (false, cf) := by
  unfold handler
  cases hsearch : search cf.place args last false (entries modules) with
  | error err => rfl
  | ok e =>
    have hentry := (search_eq_ok _ _ _ _ _ _).mp hsearch
    rw [← entryOf, he] at hentry
    cases hentry

theorem handler_simple (he : entryOf modules cf.place false args = some e) :
    handler modules inner cf args false = some (true,
      { cf with
        world := e.2.set cf.world args (cf.ctx e.1.ctxIndex),
        calls := cf.calls ++ [⟨e, args, cf.ctx e.1.ctxIndex⟩] }) := by
  unfold handler
  rw [search_entry he]
  dsimp only
  rw [entryOf_block he]
  rfl

/-- `cf` as the call for a block gets it. -/
def Cf.opened (cf : Cf σ γ ω) (args : Args) (e : Module γ ω × Command γ ω) : Cf σ γ ω :=
  let opened := e.2.enter cf.world args (cf.ctx e.1.ctxIndex)
  { cf with
    place := e.2.inside cf.place args
    ctx := opened.2
    world := opened.1
    calls := cf.calls ++ [⟨e, args, cf.ctx e.1.ctxIndex⟩] }

variable {inner} in
theorem handler_block {rc : Bool} {cf' : Cf σ γ ω}
    (he : entryOf modules cf.place true args = some e)
    (hinner : inner (cf.opened args e) = some (rc, cf')) :
    handler modules inner cf args true = some (rc,
      { cf' with
        place := cf.place
        ctx := cf.ctx
        world := if rc then e.2.leave cf'.world else cf'.world }) := by
  unfold handler
  rw [search_entry he]
  dsimp only
  rw [entryOf_block he, if_pos rfl]
  unfold Cf.opened at hinner
  rw [hinner]
  cases rc with
  | true => rfl
  | false => rfl

end

/-- The token of a directive. -/
def directiveToken (last : Bool) (args : Args) : Token :=
  if last then .blockStart args else .ok args

section
variable {read : σ → Option (Token × σ)} {modules : List (Module γ ω)} {init last : Bool}
  {cf cf' : Cf σ γ ω} {file : σ} {args : Args} {fuel : Nat}

theorem parse_error (hread : read cf.file = some (directiveToken last args, file))
    (hhandler : handler modules (parse read modules fuel false) { cf with file } args last =
      some (false, cf')) : parse read modules (fuel + 1) init cf = some (false, cf') := by
  rw [parse, hread]
  cases last with
  | false =>
    dsimp only [directiveToken]
    rw [if_neg Bool.false_ne_true]
    dsimp only
    rw [hhandler]
  | true =>
    dsimp only [directiveToken]
    rw [if_pos rfl]
    dsimp only
    rw [hhandler]

theorem parse_next (hread : read cf.file = some (directiveToken last args, file))
    (hhandler : handler modules (parse read modules fuel false) { cf with file } args last =
      some (true, cf')) :
    parse read modules (fuel + 1) init cf = parse read modules fuel init cf' := by
  rw [parse, hread]
  cases last with
  | false =>
    dsimp only [directiveToken]
    rw [if_neg Bool.false_ne_true]
    dsimp only
    rw [hhandler]
  | true =>
    dsimp only [directiveToken]
    rw [if_pos rfl]
    dsimp only
    rw [hhandler]

end

/-! ## What one call does -/

/-- `read` delivers the tokens, to the last one. -/
inductive Delivers (read : σ → Option (Token × σ)) : σ → List Token → Prop where
  | last {s s' : σ} {t : Token} (h : read s = some (t, s')) (hlast : t.last = true) :
      Delivers read s [t]
  | next {s s' : σ} {t : Token} {ts : List Token} (h : read s = some (t, s'))
      (hlast : t.last = false) (hnext : Delivers read s' ts) : Delivers read s (t :: ts)

theorem Delivers.head {read : σ → Option (Token × σ)} {s : σ} {ts : List Token}
    (h : Delivers read s ts) : ∃ t s' ts', read s = some (t, s') ∧ ts = t :: ts' ∧
      (t.last = false → Delivers read s' ts') := by
  cases h with
  | @last _ s' t h hlast =>
    refine ⟨t, s', [], h, rfl, ?_⟩
    intro hnot
    rw [hlast] at hnot
    cases hnot
  | @next _ s' t ts h hlast hnext => exact ⟨t, s', ts, h, rfl, fun _ => hnext⟩

/-- Do the tokens begin an accepted sequence with its end? -/
def Begins (ok : Place → Bool → Args → Module γ ω × Command γ ω → Prop) (p : Place)
    (init : Bool) (pre : List Token) : Prop :=
  ∃ items : Items, items.Accepted ok p ∧ pre <+: items.tokens ++ [endToken init]

/-- What a call of `parse` has done: it returns `NGX_OK` behind an accepted sequence and
the token that ends it, all its handlers called, or `NGX_ERROR` because of the first token
that no accepted sequence has there, the handlers of the directives before it called. -/
inductive Outcome (read : σ → Option (Token × σ)) (modules : List (Module γ ω)) (init : Bool)
    (cf : Cf σ γ ω) (ts : List Token) : Bool → Cf σ γ ω → Prop where
  | ok (items : Items) (rest : List Token) (file : σ)
      (hts : ts = items.tokens ++ endToken init :: rest)
      (haccepted : items.Accepted (IsEntry modules) cf.place)
      (hrest : init = false → Delivers read file rest) :
      Outcome read modules init cf ts true
        { cf with
          file, world := (items.run modules cf.place cf.ctx cf.world).2,
          calls := cf.calls ++ (items.run modules cf.place cf.ctx cf.world).1 }
  | error (pre : List Token) (bad : Token) (rest : List Token) (cf' : Cf σ γ ω)
      (hts : ts = pre ++ bad :: rest)
      (hpre : Begins (IsEntry modules) cf.place init pre)
      (hbad : ∀ items : Items, items.Accepted (IsEntry modules) cf.place → ∀ x y,
        items.tokens ++ endToken init :: x ≠ pre ++ bad :: y)
      (hcalls : cf'.calls.map Call.args = cf.calls.map Call.args ++ pre.filterMap directive) :
      Outcome read modules init cf ts false cf'

section
variable {read : σ → Option (Token × σ)} {modules : List (Module γ ω)} {init : Bool}
  {cf cf' : Cf σ γ ω} {ts : List Token} {rc : Bool} {args : Args}
  {e : Module γ ω × Command γ ω} {file : σ}

/-- The first token ends the sequence. -/
theorem Outcome.done (hrest : init = false → Delivers read file ts) :
    Outcome read modules init cf (endToken init :: ts) true { cf with file } := by
  have h : Outcome read modules init cf (endToken init :: ts) true _ :=
    .ok .nil ts file rfl trivial hrest
  rwa [Items.run, List.append_nil] at h

/-- The first token begins no accepted sequence. -/
theorem Outcome.bad {bad : Token} (hend : bad ≠ endToken init)
    (hsimple : ∀ args, bad = .ok args → entryOf modules cf.place false args = none)
    (hblock : ∀ args, bad = .blockStart args → entryOf modules cf.place true args = none) :
    Outcome read modules init cf (bad :: ts) false { cf with file } := by
  refine .error [] bad ts _ rfl ⟨.nil, trivial, List.nil_prefix⟩ ?_ (List.append_nil _).symm
  intro items haccepted x y heq
  cases items with
  | nil => exact hend (List.cons.inj heq).1.symm
  | simple args next =>
    obtain ⟨⟨e, he⟩, -⟩ := haccepted
    rw [IsEntry, hsimple args (List.cons.inj heq).1.symm] at he
    cases he
  | block args body next =>
    obtain ⟨⟨e, he, -⟩, -⟩ := haccepted
    rw [IsEntry, hblock args (List.cons.inj heq).1.symm] at he
    cases he

/-- A simple directive, and what the call does behind it. -/
theorem Outcome.simple (he : entryOf modules cf.place false args = some e)
    (h : Outcome read modules init
      { cf with
        file, world := e.2.set cf.world args (cf.ctx e.1.ctxIndex),
        calls := cf.calls ++ [⟨e, args, cf.ctx e.1.ctxIndex⟩] } ts rc cf') :
    Outcome read modules init cf (.ok args :: ts) rc cf' := by
  cases h with
  | ok items rest file' hts haccepted hrest =>
    have hok : Outcome read modules init cf (.ok args :: ts) true _ :=
      .ok (.simple args items) rest file' (by rw [hts, Items.tokens_simple])
        ⟨⟨e, he⟩, haccepted⟩ hrest
    simp only [Items.run, he] at hok
    rw [List.append_assoc, List.singleton_append]
    exact hok
  | error pre bad rest _ hts hpre hbad hcalls =>
    obtain ⟨items, haccepted, hprefix⟩ := hpre
    refine .error (.ok args :: pre) bad rest _ (by rw [hts, List.cons_append])
      ⟨.simple args items, ⟨⟨e, he⟩, haccepted⟩, ?_⟩ ?_ ?_
    · rw [Items.tokens_simple]
      exact List.cons_prefix_cons.mpr ⟨rfl, hprefix⟩
    · intro items' haccepted' x y heq
      cases items' with
      | nil => cases init <;> cases (List.cons.inj heq).1
      | simple args' next => exact hbad next haccepted'.2 x y (List.cons.inj heq).2
      | block args' body next => cases (List.cons.inj heq).1
    · rw [hcalls, List.map_append, List.append_assoc]
      rfl

/-- The call for a block fails. -/
theorem Outcome.blockError (he : entryOf modules cf.place true args = some e)
    (h : Outcome read modules false (Cf.opened { cf with file } args e) ts false cf') :
    Outcome read modules init cf (.blockStart args :: ts) false
      { cf' with place := cf.place, ctx := cf.ctx } := by
  cases h with
  | error pre bad rest _ hts hpre hbad hcalls =>
    obtain ⟨body, haccepted, hprefix⟩ := hpre
    refine .error (.blockStart args :: pre) bad rest _ (by rw [hts, List.cons_append])
      ⟨.block args body .nil, ⟨⟨e, he, haccepted⟩, trivial⟩, ?_⟩ ?_ ?_
    · rw [Items.tokens_block, List.append_cons]
      exact List.cons_prefix_cons.mpr ⟨rfl, hprefix.trans (List.prefix_append _ _)⟩
    · intro items' haccepted' x y heq
      cases items' with
      | nil => cases init <;> cases (List.cons.inj heq).1
      | simple args' next => cases (List.cons.inj heq).1
      | block args' body' next =>
        rw [Items.tokens_block] at heq
        obtain ⟨hargs', hrest⟩ := List.cons.inj heq
        cases hargs'
        obtain ⟨⟨e', he', hbody⟩, -⟩ := haccepted'
        cases he.symm.trans he'
        exact hbad body' hbody _ y hrest
    · show cf'.calls.map Call.args = _
      rw [hcalls]
      show (cf.calls ++ _).map Call.args ++ _ = _
      rw [List.map_append, List.append_assoc]
      rfl

/-- A block, and what the call does behind it. -/
theorem Outcome.block {body : Items} {rest : List Token} {opened : Cf σ γ ω}
    (he : entryOf modules cf.place true args = some e) (hopened : cf.opened args e = opened)
    (hbody : body.Accepted (IsEntry modules) opened.place)
    (hts : ts = body.tokens ++ endToken false :: rest)
    (h : Outcome read modules init
      { cf with
        file
        world := e.2.leave (body.run modules opened.place opened.ctx opened.world).2
        calls := opened.calls ++ (body.run modules opened.place opened.ctx opened.world).1 }
      rest rc cf') :
    Outcome read modules init cf (.blockStart args :: ts) rc cf' := by
  subst hopened
  cases h with
  | ok items rest' file' hrest' haccepted hdelivers =>
    have hok : Outcome read modules init cf (.blockStart args :: ts) true _ :=
      .ok (.block args body items) rest' file' (by rw [hts, hrest', Items.tokens_block])
        ⟨⟨e, he, hbody⟩, haccepted⟩ hdelivers
    simp only [Items.run, he] at hok
    simp only [Cf.opened, List.append_assoc, List.singleton_append]
    exact hok
  | error pre bad rest' _ hrest' hpre hbad hcalls =>
    obtain ⟨items, haccepted, hprefix⟩ := hpre
    refine .error (.blockStart args :: (body.tokens ++ endToken false :: pre)) bad rest' _ ?_
      ⟨.block args body items, ⟨⟨e, he, hbody⟩, haccepted⟩, ?_⟩ ?_ ?_
    · rw [hts, hrest', List.cons_append, List.append_assoc, List.cons_append]
    · rw [Items.tokens_block]
      exact List.cons_prefix_cons.mpr ⟨rfl, (List.prefix_append_right_inj _).mpr
        (List.cons_prefix_cons.mpr ⟨rfl, hprefix⟩)⟩
    · intro items' haccepted' x y heq
      cases items' with
      | nil => cases init <;> cases (List.cons.inj heq).1
      | simple args' next => cases (List.cons.inj heq).1
      | block args' body' next =>
        rw [Items.tokens_block, List.cons_append, List.append_assoc, List.cons_append] at heq
        obtain ⟨-, hinner⟩ := List.cons.inj heq
        exact hbad next haccepted'.2 x y (Items.tokens_inj false hinner).2
    · have hargs := Items.run_args modules body _ hbody (cf.opened args e).ctx
        (cf.opened args e).world
      rw [hcalls, filterMap_block, List.map_append, hargs, List.append_assoc]
      show (cf.calls ++ _).map Call.args ++ _ = _
      rw [List.map_append, List.append_assoc]
      rfl

end

/-- **Every call has an outcome.** -/
theorem parse_outcome {read : σ → Option (Token × σ)} (modules : List (Module γ ω)) (fuel : Nat)
    (init : Bool) (cf : Cf σ γ ω) {ts : List Token} (h : Delivers read cf.file ts)
    (hfuel : ts.length ≤ fuel) :
    ∃ rc cf', parse read modules fuel init cf = some (rc, cf') ∧
      Outcome read modules init cf ts rc cf' := by
  induction fuel generalizing init cf ts with
  | zero =>
    obtain ⟨t, file, ts', -, rfl, -⟩ := h.head
    cases hfuel
  | succ fuel ih =>
    obtain ⟨t, file, ts', hread, rfl, hnext⟩ := h.head
    replace hfuel := Nat.le_of_succ_le_succ hfuel
    have hend (args : Args) (last : Bool) : directiveToken last args ≠ endToken init := by
      cases last <;> cases init <;> rintro ⟨⟩
    have hnone (args : Args) (last : Bool) (ht : t = directiveToken last args)
        (he : entryOf modules cf.place last args = none) :
        ∃ rc cf', parse read modules (fuel + 1) init cf = some (rc, cf') ∧
          Outcome read modules init cf (t :: ts') rc cf' := by
      rw [ht] at hread ⊢
      refine ⟨false, _, parse_error hread (handler_none _ { cf with file } he),
        .bad (hend args last) ?_ ?_⟩
      · cases last <;> rintro args' ⟨⟩
        exact he
      · cases last <;> rintro args' ⟨⟩
        exact he
    cases t with
    | error =>
      refine ⟨false, { cf with file }, ?_, .bad (by cases init <;> rintro ⟨⟩) nofun nofun⟩
      rw [parse, hread]
    | blockDone =>
      refine ⟨!init, { cf with file }, ?_, ?_⟩
      · rw [parse, hread]
      · cases init with
        | false => exact .done fun _ => hnext rfl
        | true => exact .bad nofun nofun nofun
    | fileDone =>
      refine ⟨init, { cf with file }, ?_, ?_⟩
      · rw [parse, hread]
      · cases init with
        | false => exact .bad nofun nofun nofun
        | true => exact .done nofun
    | ok args =>
      cases he : entryOf modules cf.place false args with
      | none => exact hnone args false rfl he
      | some e =>
        have hhandler := handler_simple (parse read modules fuel false) { cf with file } he
        obtain ⟨rc, cf', hparse, houtcome⟩ := ih init
          { cf with
            file
            world := e.2.set cf.world args (cf.ctx e.1.ctxIndex)
            calls := cf.calls ++ [⟨e, args, cf.ctx e.1.ctxIndex⟩] } (hnext rfl) hfuel
        refine ⟨rc, cf', ?_, .simple he houtcome⟩
        rw [parse_next hread hhandler]
        exact hparse
    | blockStart args =>
      cases he : entryOf modules cf.place true args with
      | none => exact hnone args true rfl he
      | some e =>
        have hread' : read cf.file = some (directiveToken true args, file) := hread
        obtain ⟨rc, cf₁, hinner, hbody⟩ := ih false
          (Cf.opened { cf with file } args e) (hnext rfl) hfuel
        have hhandler := handler_block { cf with file } he hinner
        cases rc with
        | false => exact ⟨false, _, parse_error hread' hhandler, .blockError he hbody⟩
        | true =>
          cases hbody with
          | ok body rest file' hts haccepted hrest =>
            have hlen : rest.length ≤ fuel := by
              rw [hts, List.length_append, List.length_cons] at hfuel
              omega
            let opened := cf.opened args e
            obtain ⟨rc, cf', hparse, houtcome⟩ := ih init
              { cf with
                file := file'
                world := e.2.leave (body.run modules opened.place opened.ctx opened.world).2
                calls := opened.calls ++
                  (body.run modules opened.place opened.ctx opened.world).1 } (hrest rfl) hlen
            refine ⟨rc, cf', ?_, .block he rfl haccepted hts houtcome⟩
            rw [parse_next hread' hhandler]
            exact hparse

end NgxToolkit.DynamicConf.Parse
