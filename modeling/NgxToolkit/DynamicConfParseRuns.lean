import Mathlib
import NgxToolkit.DynamicConfParse

/-! What `ngx_dynamic_conf_parse` does with a whole file.

The tokens that `ngx_dynamic_conf_read_token` delivers for a file end (`readToken_delivers`).
On every such stream the parser accepts the nested sequences of directives that each
have an entry, and no others.  The entry of a directive is the first of its name with
the right module type and context: an entry behind it is not tried, even if the
arguments are right only there.

* `parse_nested`: what is accepted, and which handlers are called.
* `parse_second_entry`: a directive that fits the second entry of its name only. -/

namespace NgxToolkit.DynamicConf.Parse

/-! ## The tokens of a file -/

theorem endOfFile_last (f : Flags) (args : Args) : (endOfFile f args).last = true := by
  unfold endOfFile
  split <;> rfl

/-- A token that is not the last takes bytes off the text. -/
theorem tokenFrom_length (f : Flags) (args : Args) (word text : List UInt8)
    (hlast : (tokenFrom f args word text).1.last = false) :
    (tokenFrom f args word text).2.length < text.length := by
  induction text generalizing f args word with
  | nil =>
    rw [tokenFrom, endOfFile_last] at hlast
    cases hlast
  | cons ch text ih =>
    rw [tokenFrom] at hlast ⊢
    rw [List.length_cons]
    cases hmove : scan f args ch with
    | go f =>
      rw [hmove] at hlast
      exact Nat.lt_succ_of_lt (ih _ _ _ hlast)
    | start f =>
      rw [hmove] at hlast
      exact Nat.lt_succ_of_lt (ih _ _ _ hlast)
    | startNext f =>
      rw [hmove] at hlast
      exact Nat.lt_succ_of_lt (ih _ _ _ hlast)
    | found f =>
      rw [hmove] at hlast
      dsimp only at hlast ⊢
      cases hend : wordEnd (args ++ [copyWord word.length (word ++ [ch])]) ch with
      | some t => exact Nat.lt_succ_self _
      | none =>
        rw [hend] at hlast
        exact Nat.lt_succ_of_lt (ih _ _ _ hlast)
    | ret t => exact Nat.lt_succ_self _

theorem delivers_of_at {content text : List UInt8} {b : ConfFile}
    (h : At content b b.pos [] text) :
    ∃ ts, Delivers (readToken content) b ts ∧ ts.length ≤ text.length + 1 := by
  induction hn : text.length using Nat.strong_induction_on generalizing b text with
  | _ n ih =>
  obtain ⟨b', ⟨-, hread⟩ | ⟨-, hread, hnext⟩⟩ := readToken_eq h
  · exact ⟨_, .last hread rfl, Nat.le_add_left 1 n⟩
  · cases hlast : (token text).1.last with
    | true => exact ⟨_, .last hread hlast, Nat.le_add_left 1 n⟩
    | false =>
      have hlt : (token text).2.length < n := hn ▸ tokenFrom_length _ _ _ _ hlast
      obtain ⟨ts, hts, hlen⟩ := ih _ hlt hnext rfl
      refine ⟨_, .next hread hlast hts, ?_⟩
      rw [List.length_cons]
      omega

/-- **The stream of tokens of a file ends**, and a token takes a byte at least. -/
theorem readToken_delivers (content : List UInt8) :
    ∃ ts, Delivers (readToken content) .opened ts ∧ ts.length ≤ content.length + 1 :=
  delivers_of_at (.opened content)

/-! ## A whole file -/

/-- A command without a state, whose conf objects are numbers. -/
def someCommand (name : List UInt8) (block : Bool) (takes : List Nat) : Command Nat Unit where
  name
  type := ⟨block, false, false, false, false, takes, [.main]⟩
  set := fun w _ _ => w
  enter := fun w _ conf => (w, fun i => conf + i + 1)
  inside := fun p _ => p
  leave := fun w => w

def someCf : Cf ConfFile Nat Unit :=
  { file := .opened, place := ⟨.core, .main⟩, ctx := fun i => i, world := (), calls := [] }

section
variable {σ γ ω : Type} {read : σ → Option (Token × σ)}

/-- There is one stream. -/
theorem Delivers.unique {s : σ} {ts ts' : List Token} (h : Delivers read s ts)
    (h' : Delivers read s ts') : ts = ts' := by
  induction h generalizing ts' with
  | last hread hlast =>
    cases h' with
    | last hread' _ =>
      cases hread.symm.trans hread'
      rfl
    | next hread' hlast' _ =>
      cases hread.symm.trans hread'
      rw [hlast] at hlast'
      cases hlast'
  | next hread hlast _ ih =>
    cases h' with
    | last hread' hlast' =>
      cases hread.symm.trans hread'
      rw [hlast] at hlast'
      cases hlast'
    | next hread' _ hnext' =>
      cases hread.symm.trans hread'
      rw [ih hnext']

/-- Behind a last token nothing is delivered. -/
theorem Delivers.last_eq_nil {s : σ} {ts pre rest : List Token} {t : Token}
    (h : Delivers read s ts) (hts : ts = pre ++ t :: rest) (ht : t.last = true) : rest = [] := by
  induction h generalizing pre with
  | @last _ _ t' =>
    obtain _ | ⟨t'', pre⟩ := pre
    · exact (List.cons.inj hts).2.symm
    · exact absurd (List.cons.inj hts).2.symm (List.append_ne_nil_of_right_ne_nil pre nofun)
  | next h hlast hnext ih =>
    obtain _ | ⟨t'', pre⟩ := pre
    · rw [(List.cons.inj hts).1, ht] at hlast
      cases hlast
    · exact ih (List.cons.inj hts).2

/-- **What the parser does with a file.**  It returns `NGX_OK` if and only if the tokens
are a nested sequence of directives that have an entry each.  Then all the handlers were
called, once each and in their order; else those of the directives in front of the first
token that no such sequence has there. -/
theorem parse_nested (modules : List (Module γ ω)) (cf : Cf σ γ ω) {ts : List Token} {fuel : Nat}
    (h : Delivers read cf.file ts) (hfuel : ts.length ≤ fuel) :
    ∃ rc cf', parse read modules fuel true cf = some (rc, cf') ∧
      (rc = true ↔ ∃ items : Items, ts = items.tokens ++ [.fileDone] ∧
        items.Accepted (IsEntry modules) cf.place) ∧
      (∀ items : Items, ts = items.tokens ++ [.fileDone] →
        items.Accepted (IsEntry modules) cf.place →
        cf'.calls = cf.calls ++ (items.run modules cf.place cf.ctx cf.world).1 ∧
        (items.run modules cf.place cf.ctx cf.world).1.map Call.args = ts.filterMap directive) ∧
      (rc = false → ∃ pre bad rest, ts = pre ++ bad :: rest ∧
        Begins (IsEntry modules) cf.place true pre ∧
        ¬ Begins (IsEntry modules) cf.place true (pre ++ [bad]) ∧
        cf'.calls.map Call.args = cf.calls.map Call.args ++ pre.filterMap directive) := by
  obtain ⟨rc, cf', hparse, houtcome⟩ := parse_outcome modules fuel true cf h hfuel
  refine ⟨rc, cf', hparse, ?_⟩
  cases houtcome with
  | ok items rest file hts haccepted hrest =>
    have hnil : rest = [] := h.last_eq_nil hts rfl
    subst hnil
    refine ⟨⟨fun _ => ⟨items, hts, haccepted⟩, fun _ => rfl⟩, ?_, nofun⟩
    intro items' hts' _
    obtain ⟨rfl, -⟩ := Items.tokens_inj true (hts.symm.trans hts')
    refine ⟨rfl, ?_⟩
    rw [Items.run_args modules items cf.place haccepted, hts, List.filterMap_append]
    exact (List.append_nil _).symm
  | error pre bad rest _ hts hpre hbad hcalls =>
    refine ⟨⟨nofun, ?_⟩, ?_, fun _ => ⟨pre, bad, rest, hts, hpre, ?_, hcalls⟩⟩
    · rintro ⟨items, hts', haccepted⟩
      exact absurd (hts'.symm.trans hts) (hbad items haccepted [] rest)
    · intro items hts' haccepted
      exact absurd (hts'.symm.trans hts) (hbad items haccepted [] rest)
    · rintro ⟨items, haccepted, y, hy⟩
      rw [List.append_assoc] at hy
      exact hbad items haccepted [] y hy.symm

end

/-- `a{b;}`, with the block `a`: the conf of `b` is the one that the block made. -/
theorem parse_nested_block : ∃ cf', parse (readToken [97, 123, 98, 59, 125])
    [⟨.core, 0, [someCommand [97] true [0], someCommand [98] false [0]]⟩] 4 true someCf =
      some (true, cf') ∧
    cf'.calls.map (fun c => (c.args, c.conf)) = [([[97]], 0), ([[98]], 1)] := by
  have h : Delivers (readToken [97, 123, 98, 59, 125]) someCf.file
      [.blockStart [[97]], .ok [[98]], .blockDone, .fileDone] :=
    .next rfl rfl (.next rfl rfl (.next rfl rfl (.last rfl rfl)))
  obtain ⟨rc, cf', hparse, hrc, hcalls, -⟩ := parse_nested
    [⟨.core, 0, [someCommand [97] true [0], someCommand [98] false [0]]⟩] someCf h (Nat.le_refl 4)
  have haccepted : (Items.block [[97]] (.simple [[98]] .nil) .nil).Accepted
      (IsEntry [⟨.core, 0, [someCommand [97] true [0], someCommand [98] false [0]]⟩])
      someCf.place := ⟨⟨_, rfl, ⟨_, rfl⟩, trivial⟩, trivial⟩
  have hok : rc = true := hrc.mpr ⟨_, rfl, haccepted⟩
  refine ⟨cf', by rw [hparse, hok], ?_⟩
  rw [(hcalls _ rfl haccepted).1]
  rfl

/-! ## Two entries of one name -/

/-- The entry may be in any table: with the right name, module type and context, and with
the right ending and number of arguments for the directive. -/
def InSomeTable {γ ω : Type} (modules : List (Module γ ω)) (p : Place) (last : Bool) (args : Args)
    (e : Module γ ω × Command γ ω) : Prop :=
  e ∈ entries modules ∧ suits p args e = true ∧ fits last args e = true

/-- `a` without arguments in one table, with one in the next. -/
def someModules : List (Module Nat Unit) :=
  [⟨.core, 0, [someCommand [97] false [0]]⟩, ⟨.core, 1, [someCommand [97] false [1]]⟩]

/-- **`a b;` is refused**, with an entry for it in the second table. -/
theorem parse_second_entry :
    Delivers (readToken [97, 32, 98, 59]) someCf.file [.ok [[97], [98]], .fileDone] ∧
    (∃ items : Items, [.ok [[97], [98]], .fileDone] = items.tokens ++ [.fileDone] ∧
      items.Accepted (InSomeTable someModules) someCf.place) ∧
    ∃ cf', parse (readToken [97, 32, 98, 59]) someModules 2 true someCf = some (false, cf') := by
  refine ⟨.next rfl rfl (.last rfl rfl), ⟨.simple [[97], [98]] .nil, rfl, ⟨?_, trivial⟩⟩, _, rfl⟩
  exact ⟨(⟨.core, 1, [someCommand [97] false [1]]⟩, someCommand [97] false [1]),
    List.mem_cons_of_mem _ (List.mem_singleton_self _), rfl, rfl⟩

end NgxToolkit.DynamicConf.Parse
