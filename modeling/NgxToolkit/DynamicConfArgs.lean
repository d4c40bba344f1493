import Mathlib
import NgxToolkit.DynamicConfParse
import NgxToolkit.DynamicConfUnescape

/-! The accesses of `ngx_dynamic_conf_handler` to the arguments of a directive.

`searchAt` are the loops of the handler where an access to a word of `cf->args`, or to
an entry of `arg_number`, can be outside.  With a word at least it is `search`.

* `searchAt_eq`: with a word every access is inside.
* `readToken_args`: every directive of a file has a word. -/

namespace NgxToolkit.DynamicConf

/-! ## The handler of a directive -/

namespace Parse

/-- `arg_number`: the bits `NGX_CONF_NOARGS` to `NGX_CONF_TAKE7`, each by the number of
arguments that it stands for. -/
def argNumber : List Nat := [0, 1, 2, 3, 4, 5, 6, 7]

/-- The check of the number of arguments; `none` if `arg_number[nelts - 1]` is outside of
the array.  `nelts - 1` is computed in 64 bits. -/
def CmdType.takesArgsAt (t : CmdType) (nelts : Nat) : Option Bool :=
  if t.any then some true
  else if t.flag then some (nelts == 2)
  else if t.more1 then some (2 ≤ nelts)
  else if t.more2 then some (3 ≤ nelts)
  else if maxArgs < nelts then some false
  else (argNumber[(nelts + (2 ^ 64 - 1)) % 2 ^ 64]?).map fun n => t.takes.contains n

/-- The loops of `ngx_dynamic_conf_handler`; `none` if they access a word or an entry of
`arg_number` that is not there. -/
def searchAt {γ ω : Type} (place : Place) (args : Args) (last : Bool) :
    Bool → List (Module γ ω × Command γ ω) →
      Option (Except HandlerError (Module γ ω × Command γ ω))
  | found, [] => args.head?.map fun _ => .error (if found then .notAllowed else .unknown)
  | found, e :: es =>
    match args.head? with
    | none => none
    | some name =>
      if sameName name e.2.name = false then searchAt place args last found es
      else if e.1.type ≠ .conf ∧ e.1.type ≠ place.moduleType then
        searchAt place args last true es
      else if place.cmdType ∉ e.2.type.contexts then searchAt place args last true es
      else if e.2.type.block = false ∧ last = true then some (.error .notTerminated)
      else if e.2.type.block = true ∧ last = false then some (.error .noOpening)
      else
        (e.2.type.takesArgsAt args.length).map fun ok =>
          if ok = false then .error .invalidArgs else .ok e

theorem CmdType.takesArgsAt_eq (t : CmdType) {nelts : Nat} (h : 0 < nelts) :
    t.takesArgsAt nelts = some (t.takesArgs nelts) := by
  unfold takesArgsAt takesArgs
  split
  · rfl
  split
  · rfl
  split
  · rfl
  split
  · rfl
  split
  · rfl
  · next hmax =>
    have hle : nelts ≤ 8 := Nat.not_lt.mp hmax
    have hwrap : (nelts + (2 ^ 64 - 1)) % 2 ^ 64 = nelts - 1 := by omega
    have hindex : ∀ i < 8, argNumber[i]? = some i := by decide
    rw [hwrap, hindex (nelts - 1) (by omega)]
    rfl

/-- With a word every access is inside. -/
theorem searchAt_eq {γ ω : Type} (place : Place) {args : Args} (hargs : args ≠ [])
    (last found : Bool) (es : List (Module γ ω × Command γ ω)) :
    searchAt place args last found es = some (search place args last found es) := by
  obtain ⟨name, rest, rfl⟩ := List.exists_cons_of_ne_nil hargs
  induction es generalizing found with
  | nil => rfl
  | cons e es ih =>
    have htakes := e.2.type.takesArgsAt_eq (Nat.succ_pos rest.length)
    show (if sameName name e.2.name = false then _ else _) =
      some (if sameName name e.2.name = false then _ else _)
    rw [ih, ih, apply_ite some, apply_ite some, apply_ite some, apply_ite some, apply_ite some,
      List.length_cons, htakes]
    rfl

end Parse

/-- **Arguments.**  Every call for a file that returns a directive has a word, and one
that returns the end of a block or of the file has none; so `ngx_dynamic_conf_handler`
accesses the first word and `arg_number` only inside. -/
theorem readToken_args (content : List UInt8) (readOk : Nat → Bool) (b : ConfFile)
    (hb : Between content b) : ∃ t words b',
      readWords content readOk b = some (t, words, b') ∧ t.Holds (words.map Word.bytes) ∧
      ∀ args, Parse.directive t = some args → ∀ (γ ω : Type) (place : Parse.Place)
        (modules : List (Parse.Module γ ω)) (last : Bool),
        Parse.searchAt place args last false (Parse.entries modules) =
          some (Parse.search place args last false (Parse.entries modules)) := by
  obtain ⟨t, words, b', hread, -, hholds⟩ := hb.readWords readOk
  refine ⟨t, words, b', hread, hholds, fun args hargs γ ω place modules last => ?_⟩
  have hne : args ≠ [] := by
    cases t with
    | ok args' | blockStart args' =>
      obtain ⟨rfl, hne⟩ := hholds
      cases hargs
      exact hne
    | blockDone | fileDone | error => cases hargs
  exact Parse.searchAt_eq place hne last false _

/-- The second call for `a;b{`. -/
theorem readToken_args_second : ∃ b t words b',
    readToken [97, 59, 98, 123] .opened = some (.ok [[97]], b) ∧
    readWords [97, 59, 98, 123] (fun _ => true) b = some (t, words, b') ∧
    t = .blockStart [[98]] ∧ t.Holds (words.map Word.bytes) := by
  have hread : readToken [97, 59, 98, 123] .opened = some (.ok [[97]], ⟨[97, 59, 98, 123], 2, 4⟩) :=
    rfl
  obtain ⟨t, words, b', hwords, hholds, -⟩ := readToken_args [97, 59, 98, 123] (fun _ => true) _
    (.next .opened hread rfl)
  refine ⟨_, t, words, b', hread, hwords, ?_, hholds⟩
  cases hwords
  rfl

end NgxToolkit.DynamicConf
