import Mathlib
import NgxToolkit.DynamicConfToken

/-! The calls of `ngx_dynamic_conf_read_token` for a file, one behind the other.

The automaton on the whole file in one buffer says what the calls should return.
A comment, or the blanks in front of a word, are kept in the buffer like a word, so
that the calls return it unless one of them is rejected as a parameter that is too
long.

* `readToken_results`: when the calls return what the automaton does.
* `readToken_comment`: a file with short words only for which they do not. -/

namespace NgxToolkit.DynamicConf

/-- What the successive calls of `read` return, until a last result. -/
def results {σ : Type} (read : σ → Option (Token × σ)) (s : σ) : Nat → Option Token
  | 0 => (read s).map Prod.fst
  | n + 1 =>
    match read s with
    | some (t, s') => if t.last = true then none else results read s' n
    | none => none

/-- `text` is in front of the automaton when it is called, if it starts with `content`. -/
inductive Called : List UInt8 → List UInt8 → Prop where
  | first (content : List UInt8) : Called content content
  | next {content text : List UInt8} (hlast : (token content).1.last = false)
      (h : Called (token content).2 text) : Called content text

/-- The bytes that a word takes in the file, with its quotes. -/
def wordSize (f : Flags) (word : List UInt8) : Nat :=
  if f.dQuoted ∨ f.sQuoted then word.length + 2 else word.length

/-- Does the call end a word that takes more than `limit` bytes? -/
def longWord (limit : Nat) (text : List UInt8) : Bool :=
  somewhere (fun f args word ch =>
    match scan f args ch with
    | .found _ => limit < wordSize f word
    | _ => false) .init [] [] text

/-- No parameter of the file takes more than `limit` bytes. -/
def ParamsFit (limit : Nat) (content : List UInt8) : Prop :=
  ∀ text, Called content text → longWord limit text = false

/-! ## Reading and the automaton -/

theorem results_zero {σ : Type} {read : σ → Option (Token × σ)} {s s' : σ} {t : Token}
    (h : read s = some (t, s')) : results read s 0 = some t := by
  rw [results, h]
  rfl

theorem results_succ {σ : Type} {read : σ → Option (Token × σ)} {s s' : σ} {t : Token} {n : Nat}
    (h : read s = some (t, s')) (hlast : t.last = false) :
    results read s (n + 1) = results read s' n := by
  rw [results, h]
  exact if_neg (by rw [hlast]; exact Bool.false_ne_true)

theorem results_last {σ : Type} {read : σ → Option (Token × σ)} {s s' : σ} {t : Token} {n : Nat}
    (h : read s = some (t, s')) (hlast : t.last = true) : results read s (n + 1) = none := by
  rw [results, h]
  exact if_pos hlast

theorem some_token (text : List UInt8) :
    (some ∘ token) text = some ((token text).1, (token text).2) := rfl

section
variable {content text : List UInt8} {b : ConfFile}

/-- If no call is too long, the buffer does not show. -/
theorem results_eq (h : At content b b.pos [] text)
    (hfit : ∀ text', Called text text' → tooLong text' = true → (token text').1 = .error)
    (n : Nat) :
    results (readToken content) b n = results (some ∘ token) text n := by
  induction n generalizing b text with
  | zero =>
    rw [results_zero (some_token text)]
    obtain ⟨b', ⟨hlong, hread⟩ | ⟨-, hread, -⟩⟩ := readToken_eq h
    · rw [results_zero hread, hfit text (.first text) hlong]
    · rw [results_zero hread]
  | succ n ih =>
    obtain ⟨b', ⟨hlong, hread⟩ | ⟨-, hread, hnext⟩⟩ := readToken_eq h
    · have herror := hfit text (.first text) hlong
      rw [results_last hread rfl,
        results_last (some_token text) (by rw [herror]; rfl)]
    · cases hlast : (token text).1.last with
      | true =>
        rw [results_last hread hlast,
          results_last (some_token text) hlast]
      | false =>
        rw [results_succ hread hlast,
          results_succ (some_token text) hlast]
        exact ih hnext fun text' hcalled => hfit text' (.next hlast hcalled)

/-- If the results are those of the automaton, a call that is too long is one that
the automaton rejects as well. -/
theorem tooLong_error {text' : List UInt8} (hcalled : Called text text') (b : ConfFile)
    (h : At content b b.pos [] text)
    (heq : results (readToken content) b = results (some ∘ token) text)
    (hlong : tooLong text' = true) : (token text').1 = .error := by
  induction hcalled generalizing b with
  | first text =>
    obtain ⟨b', ⟨-, hread⟩ | ⟨hshort, -⟩⟩ := readToken_eq h
    · have h0 := congrFun heq 0
      rw [results_zero hread, results_zero (some_token text)] at h0
      exact (Option.some.inj h0).symm
    · rw [hshort] at hlong
      cases hlong
  | @next text text' hlast hcalled ih =>
    obtain ⟨b', ⟨-, hread⟩ | ⟨-, hread, hnext⟩⟩ := readToken_eq h
    · have h0 := congrFun heq 0
      rw [results_zero hread, results_zero (some_token text)] at h0
      rw [← Option.some.inj h0] at hlast
      cases hlast
    · refine ih b' hnext ?_ hlong
      funext n
      have hn := congrFun heq (n + 1)
      rw [results_succ hread hlast,
        results_succ (some_token text) hlast] at hn
      exact hn

end

/-! ## A long comment -/

section
variable {f : Flags} {args : List (List UInt8)} {word text : List UInt8} {ch : UInt8}

theorem scan_comment (args : List (List UInt8)) (hf : f.sharpComment = true) (hch : ch ≠ 10) :
    scan f args ch = .go f := by
  unfold scan
  rw [if_neg hch]
  exact if_pos hf

theorem tokenFrom_comment (hf : f.sharpComment = true) (comment : List UInt8)
    (hcomment : ∀ ch ∈ comment, ch ≠ 10) :
    tokenFrom f args word (comment ++ text) = tokenFrom f args (word ++ comment) text := by
  induction comment generalizing word with
  | nil => rw [List.nil_append, List.append_nil]
  | cons ch comment ih =>
    have hscan := scan_comment args hf (hcomment ch List.mem_cons_self)
    rw [List.cons_append, tokenFrom, hscan, List.append_cons word ch comment]
    exact ih fun c hc => hcomment c (List.mem_cons_of_mem ch hc)

theorem somewhere_comment (p : Flags → List (List UInt8) → List UInt8 → UInt8 → Bool)
    (hf : f.sharpComment = true) (comment : List UInt8) (hcomment : ∀ ch ∈ comment, ch ≠ 10)
    (hp : ∀ before ch after, comment = before ++ ch :: after →
      p f args (word ++ before) ch = false) :
    somewhere p f args word (comment ++ text) = somewhere p f args (word ++ comment) text := by
  induction comment generalizing word with
  | nil => rw [List.nil_append, List.append_nil]
  | cons ch comment ih =>
    have hscan := scan_comment args hf (hcomment ch List.mem_cons_self)
    have hhere := hp [] ch comment rfl
    rw [List.append_nil] at hhere
    rw [List.cons_append, somewhere, hscan, hhere, Bool.false_or,
      List.append_cons word ch comment]
    apply ih fun c hc => hcomment c (List.mem_cons_of_mem ch hc)
    intro before c after heq
    rw [← List.append_cons]
    exact hp (ch :: before) c after (by rw [heq, List.cons_append])

end

/-- `a;` behind a comment that is as long as the buffer. -/
def longComment : List UInt8 := 35 :: (List.replicate 4095 120 ++ [10, 97, 59])

theorem replicate_ne_lf {n : Nat} (ch : UInt8) (hch : ch ∈ List.replicate n (120 : UInt8)) :
    ch ≠ 10 := by
  rw [List.eq_of_mem_replicate hch]
  decide

/-- The flags in a comment in front of all words. -/
def Flags.comment : Flags := { Flags.init with sharpComment := true }

theorem token_comment (comment text : List UInt8) (hcomment : ∀ ch ∈ comment, ch ≠ 10) :
    token (35 :: (comment ++ text)) = tokenFrom .comment [] ([35] ++ comment) text :=
  tokenFrom_comment (f := Flags.comment) rfl comment hcomment

theorem somewhere_comment_init (p : Flags → List (List UInt8) → List UInt8 → UInt8 → Bool)
    (comment text : List UInt8) (hcomment : ∀ ch ∈ comment, ch ≠ 10)
    (hsharp : p .init [] [] 35 = false)
    (hp : ∀ before ch after, comment = before ++ ch :: after →
      p .comment [] ([35] ++ before) ch = false) :
    somewhere p .init [] [] (35 :: (comment ++ text)) =
      somewhere p .comment [] ([35] ++ comment) text := by
  rw [somewhere, hsharp, Bool.false_or]
  exact somewhere_comment p (f := Flags.comment) rfl comment hcomment hp

theorem token_longComment : token longComment = (.ok [[97]], []) := by
  unfold longComment
  rw [token_comment _ _ replicate_ne_lf]
  rfl

theorem tooLong_longComment : tooLong longComment = true := by
  unfold longComment tooLong
  rw [somewhere_comment_init _ _ _ replicate_ne_lf rfl]
  · have hlen : ([35] ++ List.replicate 4095 (120 : UInt8)).length = confBuffer := by
      rw [List.length_append, List.length_replicate]
      rfl
    rw [somewhere, hlen, beq_self_eq_true, Bool.true_or]
  · intro before ch after heq
    have hlen := congrArg List.length heq
    rw [List.length_replicate, List.length_append, List.length_cons] at hlen
    apply beq_false_of_ne
    rw [List.length_append, List.length_singleton]
    unfold confBuffer
    omega

theorem longWord_longComment : longWord 4000 longComment = false := by
  unfold longComment longWord
  rw [somewhere_comment_init _ _ _ replicate_ne_lf rfl]
  · rfl
  · intro before ch after heq
    rw [scan_comment _ rfl (replicate_ne_lf ch (heq ▸ List.mem_append_cons_self))]

/-- **The refills do not show if and only if no accepted call is too long.** -/
theorem readToken_results (content : List UInt8) :
    results (readToken content) .opened = results (some ∘ token) content ↔
      ∀ text, Called content text → tooLong text = true → (token text).1 = .error := by
  constructor
  · intro heq text hcalled hlong
    exact tooLong_error hcalled .opened (.opened content) heq hlong
  · intro hfit
    funext n
    exact results_eq (.opened content) hfit n

/-- **The length of a comment shows.** -/
theorem readToken_comment : ParamsFit 4000 longComment ∧
    results (readToken longComment) .opened ≠
      results (some ∘ token) longComment := by
  constructor
  · rintro text (_ | ⟨-, hcalled⟩)
    · exact longWord_longComment
    · rw [token_longComment] at hcalled
      obtain _ | ⟨hlast, -⟩ := hcalled
      · rfl
      · cases hlast
  · intro heq
    have herror := tooLong_error (.first _) .opened (.opened longComment) heq tooLong_longComment
    rw [token_longComment] at herror
    cases herror

end NgxToolkit.DynamicConf
