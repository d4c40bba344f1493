import Mathlib
import NgxToolkit.DynamicConfTokenRuns
import NgxToolkit.DynamicConfWords

/-! The grammar of a directive in a dynamic configuration file.

`Line` says how a directive with its words can be written: what stands between the words, which
bytes a word without quotes has, what quotes and backslashes do, and how far the buffer of a
load reaches.  `Takes` says what one call of `ngx_dynamic_conf_read_token` takes from a text.

* `Takes.reads`: what follows the grammar is read.
* `Reads.takes`: what is read without an error follows the grammar. -/

namespace NgxToolkit.DynamicConf

/-! ## Words -/

inductive Quote where
  | single
  | double

def Quote.char : Quote → UInt8
  | .single => 39
  | .double => 34

/-- What ends a word: its quote, else a blank or the ending. -/
def stops : Option Quote → UInt8 → Bool
  | some q, ch => ch == q.char
  | none, ch => isSpace ch || ch == 59 || ch == 123

/-- What a backslash and the byte behind it stand for. -/
def standsFor (ch : UInt8) : List UInt8 :=
  match escaped ch with
  | some c => [c]
  | none => [92, ch]

/-- The bytes `w` of a word and how they stand in the file.  Braces behind a dollar sign are
bytes of the word; the flags say whether there is one, in front of the text and at its end. -/
inductive Inside (q : Option Quote) : Bool → List UInt8 → List UInt8 → Bool → Prop
  | nil (v : Bool) : Inside q v [] [] v
  | byte {v v' : Bool} {ch : UInt8} {w text : List UInt8} (hplain : ch ≠ 92 ∧ ch ≠ 36)
      (hstop : stops q ch = false) (hbrace : ch = 123 → v = false)
      (hrest : Inside q false w text v') : Inside q v (ch :: w) (ch :: text) v'
  | brace {v' : Bool} {w text : List UInt8} (hrest : Inside q true w text v') :
      Inside q true (123 :: w) (123 :: text) v'
  | dollar {v v' : Bool} {w text : List UInt8} (hrest : Inside q true w text v') :
      Inside q v (36 :: w) (36 :: text) v'
  | escape {v v' : Bool} (ch : UInt8) {w text : List UInt8} (hrest : Inside q false w text v') :
      Inside q v (standsFor ch ++ w) (92 :: ch :: text) v'

/-- A byte that begins a word without quotes. -/
def startsWord (ch : UInt8) : Bool :=
  !(isSpace ch || ch == 59 || ch == 123 || ch == 125 || ch == 35 || ch == 92 || ch == 34 ||
    ch == 39)

/-- A word without quotes.  Right behind a closing quote it begins with `)`. -/
inductive Bare : Bool → List UInt8 → List UInt8 → Bool → Prop
  | byte {closed v : Bool} {ch : UInt8} {w text : List UInt8} (hch : startsWord ch = true)
      (hclosed : closed = true → ch = 41) (hrest : Inside none false w text v) :
      Bare closed (ch :: w) (ch :: text) v
  | escape {v : Bool} (ch : UInt8) {w text : List UInt8} (hrest : Inside none false w text v) :
      Bare false (standsFor ch ++ w) (92 :: ch :: text) v

/-! ## Directives -/

/-- A place between words: is a closing quote right in front of it, and how many bytes in front
of it does the buffer keep? -/
structure Spot where
  closed : Bool
  taken : Nat

def Spot.start : Spot := ⟨false, 0⟩

/-- Blanks, and comments up to the end of their line. -/
inductive Gap : Spot → List UInt8 → Spot → Prop
  | nil (s : Spot) : Gap s [] s
  | blank {s s' : Spot} {ch : UInt8} {gap : List UInt8} (hs : s.taken < confBuffer)
      (hch : isSpace ch = true) (hgap : Gap ⟨false, s.taken + 1⟩ gap s') : Gap s (ch :: gap) s'
  | comment {n : Nat} {s' : Spot} {text gap : List UInt8} (hn : n < confBuffer)
      (htext : 10 ∉ text) (hsize : text.length + 1 < confBuffer)
      (hgap : Gap ⟨false, text.length + 2⟩ gap s') : Gap ⟨false, n⟩ (35 :: (text ++ 10 :: gap)) s'

/-- `;` or `{`. -/
def Ending.char : Ending → UInt8
  | .semicolon => 59
  | .block => 123

/-- The words of a directive with its ending. -/
inductive Line : Spot → List (List UInt8) → Ending → List UInt8 → Prop
  | close {s s' : Spot} {gap : List UInt8} (e : Ending) (hgap : Gap s gap s')
      (hs : s'.taken < confBuffer) : Line s [] e (gap ++ [e.char])
  | quoted {s : Spot} {n : Nat} {v : Bool} {gap w text line : List UInt8} {ws : List (List UInt8)}
      {e : Ending} (q : Quote) (hgap : Gap s gap ⟨false, n⟩) (hn : n < confBuffer)
      (hw : Inside (some q) false w text v) (hsize : text.length < confBuffer)
      (hline : Line ⟨true, text.length + 1⟩ ws e line) :
      Line s (w :: ws) e (gap ++ q.char :: (text ++ q.char :: line))
  | bare {s s' : Spot} {v : Bool} {gap w text line : List UInt8} {ws : List (List UInt8)}
      {e : Ending} {ch : UInt8} (hgap : Gap s gap s') (hs : s'.taken < confBuffer)
      (hw : Bare s'.closed w text v) (hsize : text.length < confBuffer) (hch : isSpace ch = true)
      (hline : Line ⟨false, text.length + 1⟩ ws e line) :
      Line s (w :: ws) e (gap ++ (text ++ ch :: line))
  | last {s s' : Spot} {v : Bool} {gap w text : List UInt8} (e : Ending) (hgap : Gap s gap s')
      (hs : s'.taken < confBuffer) (hw : Bare s'.closed w text v)
      (hsize : text.length < confBuffer) (hend : v = true → e = .semicolon) :
      Line s [w] e (gap ++ (text ++ [e.char]))

/-- What stands behind the last directive: the last comment needs no end. -/
inductive End (s : Spot) : List UInt8 → Prop
  | gap {n : Nat} {gap : List UInt8} (hgap : Gap s gap ⟨false, n⟩) : End s gap
  | comment {n : Nat} {gap text : List UInt8} (hgap : Gap s gap ⟨false, n⟩) (hn : n < confBuffer)
      (htext : 10 ∉ text) (hsize : text.length < confBuffer) : End s (gap ++ 35 :: text)

/-- A call takes this from the text, with the token and the rest, if the words `args` stand in
front of it. -/
inductive Takes (s : Spot) (args : List (List UInt8)) : List UInt8 → Token → List UInt8 → Prop
  | line {ws : List (List UInt8)} {e : Ending} {line rest : List UInt8} (hline : Line s ws e line)
      (hne : args ++ ws ≠ []) : Takes s args (line ++ rest) (e.token (args ++ ws)) rest
  | brace {n : Nat} {gap rest : List UInt8} (hargs : args = []) (hgap : Gap s gap ⟨false, n⟩)
      (hn : n < confBuffer) : Takes s args (gap ++ 125 :: rest) .blockDone rest
  | fileEnd {text : List UInt8} (hargs : args = []) (hend : End s text) :
      Takes s args text .fileDone []

/-! ## The automaton -/

/-- The flags in a word. -/
def Flags.inside : Option Quote → Bool → Flags
  | none, v => ⟨false, false, false, v, false, false, false⟩
  | some .single, v => ⟨false, false, false, v, false, true, false⟩
  | some .double, v => ⟨false, false, false, v, false, false, true⟩

/-- The flags behind a backslash. -/
def Flags.backslash (q : Option Quote) : Flags := { Flags.inside q false with quoted := true }

/-- The flags between words. -/
def Flags.between (closed : Bool) : Flags := if closed then .afterQuotes else .init

section
variable {args : List (List UInt8)} {ch : UInt8}

theorem isSpace_iff : isSpace ch = true ↔ ch = 32 ∨ ch = 9 ∨ ch = 13 ∨ ch = 10 := by
  unfold isSpace
  simp only [Bool.or_eq_true, beq_iff_eq, or_assoc]

/-- A newline changes nothing outside of comments. -/
theorem lf_flags {f : Flags} (hf : f.sharpComment = false) (ch : UInt8) :
    (if ch = 10 then { f with sharpComment := false } else f) = f := by
  split
  · rw [← hf]
  · rfl

theorem Flags.inside_sharpComment (q : Option Quote) (v : Bool) :
    (Flags.inside q v).sharpComment = false :=
  match q with
  | none => rfl
  | some .single => rfl
  | some .double => rfl

theorem Flags.inside_lastSpace (q : Option Quote) (v : Bool) : (Flags.inside q v).lastSpace = false :=
  match q with
  | none => rfl
  | some .single => rfl
  | some .double => rfl

theorem scan_inside (q : Option Quote) (v : Bool) (args : List (List UInt8)) (ch : UInt8) :
    scan (.inside q v) args ch =
      if ch = 123 ∧ v = true then .go (.inside q v)
      else if ch = 92 then .go (.backslash q)
      else if ch = 36 then .go (.inside q true)
      else if stops q ch = true then .found (.between q.isSome)
      else .go (.inside q false) := by
  unfold scan
  rw [lf_flags (Flags.inside_sharpComment q v)]
  match q with
  | none =>
    show scanWord _ _ = _
    simp [scanWord, Flags.inside, Flags.backslash, stops, Flags.between, Flags.init, or_assoc]
  | some .single =>
    show scanWord _ _ = _
    simp [scanWord, Flags.inside, Flags.backslash, stops, Flags.between, Flags.afterQuotes,
      Quote.char]
  | some .double =>
    show scanWord _ _ = _
    simp [scanWord, Flags.inside, Flags.backslash, stops, Flags.between, Flags.afterQuotes,
      Quote.char]

theorem scan_backslash_inside (q : Option Quote) (args : List (List UInt8)) (ch : UInt8) :
    scan (.backslash q) args ch = .go (.inside q false) := by
  unfold scan
  rw [lf_flags (f := Flags.backslash q) (Flags.inside_sharpComment q false)]
  match q with
  | none => rfl
  | some .single => rfl
  | some .double => rfl

theorem scan_between_blank (closed : Bool) (args : List (List UInt8)) (hch : isSpace ch = true) :
    scan (.between closed) args ch = .go .init := by
  rcases isSpace_iff.mp hch with rfl | rfl | rfl | rfl <;> cases closed <;> rfl

theorem scan_init (args : List (List UInt8)) (ch : UInt8) :
    scan .init args ch = scanSpace .init args ch := by
  unfold scan
  rw [lf_flags rfl]
  rfl

/-- The end of a word. -/
theorem scan_stops {q : Option Quote} {v : Bool} (args : List (List UInt8))
    (hstop : stops q ch = true) (hbrace : ch = 123 → v = false) :
    scan (.inside q v) args ch = .found (.between q.isSome) := by
  have hplain : ch ≠ 92 ∧ ch ≠ 36 := by
    constructor <;> rintro rfl <;> revert hstop <;>
      match q with
      | none => decide
      | some .single => decide
      | some .double => decide
  rw [scan_inside, if_neg, if_neg hplain.1, if_neg hplain.2, if_pos hstop]
  rintro ⟨hch, hv⟩
  rw [hbrace hch] at hv
  cases hv

theorem startsWord_iff : startsWord ch = true ↔ isSpace ch = false ∧ ch ≠ 59 ∧
    ch ≠ 123 ∧ ch ≠ 125 ∧ ch ≠ 35 ∧ ch ≠ 92 ∧ ch ≠ 34 ∧ ch ≠ 39 := by
  unfold startsWord
  simp [and_assoc]

theorem scan_starts {closed : Bool} (args : List (List UInt8)) (hch : startsWord ch = true)
    (hclosed : closed = true → ch = 41) :
    scan (.between closed) args ch = .start (.inside none false) := by
  cases closed with
  | true =>
    cases hclosed rfl
    rfl
  | false =>
    obtain ⟨hspace, h59, h123, h125, h35, h92, h34, h39⟩ := startsWord_iff.mp hch
    show scan .init args ch = _
    rw [scan_init]
    simp [scanSpace, hspace, h59, h123, h125, h35, h92, h34, h39, Flags.inside, Flags.init]

theorem scan_quote (q : Quote) (args : List (List UInt8)) :
    scan .init args q.char = .startNext (.inside (some q) false) := by
  cases q <;> rfl

theorem scan_ending (e : Ending) (closed : Bool) {args : List (List UInt8)} (hargs : args ≠ []) :
    scan (.between closed) args e.char = .ret (e.token args) := by
  cases closed with
  | true => cases e <;> rfl
  | false =>
    show scan .init args e.char = _
    rw [scan_init]
    cases e <;> simp [scanSpace, Ending.char, Ending.token, isSpace, hargs]

end

/-! ## The copy of a word -/

theorem copyWord_standsFor (n : Nat) (ch : UInt8) {src : List UInt8} (hsrc : src ≠ []) :
    copyWord (n + 2) (92 :: ch :: src) = standsFor ch ++ copyWord n src := by
  rw [copyWord_backslash]
  unfold standsFor
  cases hesc : escaped ch with
  | some c => rfl
  | none =>
    have hch : ch ≠ 92 := by
      rintro rfl
      cases hesc
    dsimp only
    rw [copyWord_plain hch hsrc]
    rfl

section
variable {q : Option Quote} {v v' closed : Bool} {w text : List UInt8}

theorem Inside.copyWord (h : Inside q v w text v') (ch : UInt8) :
    copyWord text.length (text ++ [ch]) = w := by
  induction h with
  | nil => rfl
  | @byte _ _ _ _ text hplain _ _ _ ih =>
    rw [List.length_cons, List.cons_append, copyWord_plain hplain.1 (List.concat_ne_nil ch text),
      ih]
  | @brace _ _ text _ ih =>
    rw [List.length_cons, List.cons_append, copyWord_plain (by decide) (List.concat_ne_nil ch text),
      ih]
  | @dollar _ _ _ text _ ih =>
    rw [List.length_cons, List.cons_append, copyWord_plain (by decide) (List.concat_ne_nil ch text),
      ih]
  | @escape _ _ c _ text _ ih =>
    show DynamicConf.copyWord (text.length + 2) (92 :: c :: (text ++ [ch])) = _
    rw [copyWord_standsFor _ _ (List.concat_ne_nil ch text), ih]

theorem Bare.copyWord (h : Bare closed w text v) (ch : UInt8) :
    copyWord text.length (text ++ [ch]) = w := by
  cases h with
  | @byte _ _ _ _ text hch _ hrest =>
    obtain ⟨-, -, -, -, -, h92, -⟩ := startsWord_iff.mp hch
    rw [List.length_cons, List.cons_append, copyWord_plain h92 (List.concat_ne_nil ch text),
      hrest.copyWord]
  | @escape _ c _ text hrest =>
    show DynamicConf.copyWord (text.length + 2) (92 :: c :: (text ++ [ch])) = _
    rw [copyWord_standsFor _ _ (List.concat_ne_nil ch text), hrest.copyWord]

end

/-! ## What follows the grammar is read -/

section
variable {f f' : Flags} {args ws : List (List UInt8)} {word w text line gap rest : List UInt8}
  {ch : UInt8} {t : Token} {s s' : Spot} {q : Option Quote} {v v' : Bool} {e : Ending}

theorem Reads.start (hword : word.length < confBuffer) (hscan : scan f args ch = .start f')
    (h : Reads f' args [ch] text t rest) : Reads f args word (ch :: text) t rest := by
  constructor
  · rw [somewhere, beq_false_of_ne hword.ne, hscan, Bool.false_or]
    exact h.short
  · rw [tokenFrom, hscan]
    exact h.result

/-- A character that ends a word and the directive. -/
theorem Reads.foundLast (hword : word.length < confBuffer) (hscan : scan f args ch = .found f')
    (hend : wordEnd (args ++ [copyWord word.length (word ++ [ch])]) ch = some t) :
    Reads f args word (ch :: text) t text := by
  constructor
  · rw [somewhere, beq_false_of_ne hword.ne, hscan, Bool.false_or]
    dsimp only
    rw [hend]
  · rw [tokenFrom, hscan]
    dsimp only
    rw [hend]

theorem Reads.comment (comment : List UInt8) (hcomment : 10 ∉ comment)
    (hword : word.length + comment.length ≤ confBuffer)
    (h : Reads .comment args (word ++ comment) text t rest) :
    Reads .comment args word (comment ++ text) t rest := by
  induction comment generalizing word with
  | nil => rwa [List.append_nil] at h
  | cons ch comment ih =>
    rw [List.length_cons] at hword
    rw [List.mem_cons, not_or] at hcomment
    apply Reads.go (by omega) (scan_comment args rfl fun h => hcomment.1 h.symm)
    apply ih hcomment.2
    · rw [List.length_append, List.length_singleton]
      omega
    · rwa [List.append_assoc]

theorem Gap.reads (h : Gap s gap s') (hword : word.length = s.taken)
    (hnext : ∀ word', word'.length = s'.taken →
      Reads (.between s'.closed) args word' text t rest) :
    Reads (.between s.closed) args word (gap ++ text) t rest := by
  induction h generalizing word with
  | nil => exact hnext word hword
  | blank hs hch _ ih =>
    apply Reads.go (hword ▸ hs) (scan_between_blank _ args hch)
    apply ih _ hnext
    rw [List.length_append, List.length_singleton, hword]
  | @comment n s' comment gap hn hcomment hsize _ ih =>
    rw [List.cons_append, List.append_assoc]
    apply Reads.start (hword ▸ hn) (show scan (.between false) args 35 = .start .comment from rfl)
    apply Reads.comment comment hcomment
    · rw [List.length_singleton]
      omega
    apply Reads.go _ (show scan .comment args 10 = .go .init from rfl)
    · apply ih _ hnext
      simp only [List.length_append, List.length_singleton]
      omega
    · rw [List.length_append, List.length_singleton]
      omega

/-- A character in front of a text that is read up to its end. -/
theorem Reads.cons {f₁ : Flags} {post : List UInt8} (hscan : scan f args ch = .go f₁)
    (hsize : word.length + (ch :: text).length ≤ confBuffer)
    (hread : ∀ word, word.length + text.length ≤ confBuffer →
      Reads f' args (word ++ text) post t rest → Reads f₁ args word (text ++ post) t rest)
    (hnext : Reads f' args (word ++ ch :: text) post t rest) :
    Reads f args word (ch :: (text ++ post)) t rest := by
  rw [List.length_cons] at hsize
  apply Reads.go (by omega) hscan
  apply hread
  · rw [List.length_append, List.length_singleton]
    omega
  · rwa [List.append_assoc]

theorem Inside.reads (h : Inside q v w text v') {post : List UInt8}
    (hsize : word.length + text.length ≤ confBuffer)
    (hnext : Reads (.inside q v') args (word ++ text) post t rest) :
    Reads (.inside q v) args word (text ++ post) t rest := by
  induction h generalizing word with
  | nil => rwa [List.append_nil] at hnext
  | byte hplain hstop hbrace _ ih =>
    refine Reads.cons ?_ hsize (fun _ => ih) hnext
    rw [scan_inside, if_neg, if_neg hplain.1, if_neg hplain.2,
      if_neg (by rw [hstop]; exact Bool.false_ne_true)]
    rintro ⟨hch, hv⟩
    rw [hbrace hch] at hv
    cases hv
  | brace _ ih =>
    refine Reads.cons ?_ hsize (fun _ => ih) hnext
    rw [scan_inside, if_pos ⟨rfl, rfl⟩]
  | dollar _ ih =>
    refine Reads.cons ?_ hsize (fun _ => ih) hnext
    rw [scan_inside, if_neg (fun h => absurd h.1 (by decide)), if_neg (by decide), if_pos rfl]
  | @escape v _ ch _ _ _ ih =>
    have hscan : scan (.inside q v) args 92 = .go (.backslash q) := by
      rw [scan_inside, if_neg (fun h => absurd h.1 (by decide)), if_pos rfl]
    exact Reads.cons hscan hsize
      (fun _ hsize' => Reads.cons (scan_backslash_inside q args ch) hsize' fun _ => ih) hnext

theorem Bare.reads {closed : Bool} (h : Bare closed w text v) {post : List UInt8}
    (hword : word.length < confBuffer) (hsize : text.length ≤ confBuffer)
    (hnext : Reads (.inside none v) args text post t rest) :
    Reads (.between closed) args word (text ++ post) t rest := by
  cases h with
  | byte hch hclosed hrest =>
    rw [List.length_cons, Nat.add_comm] at hsize
    exact Reads.start hword (scan_starts args hch hclosed) (hrest.reads hsize hnext)
  | escape ch hrest =>
    rw [List.length_cons, List.length_cons, Nat.add_assoc, Nat.add_comm] at hsize
    apply Reads.start hword (show scan .init args 92 = .start (.backslash none) from rfl)
    apply Reads.go _ (scan_backslash_inside none args ch)
    · exact hrest.reads hsize hnext
    · decide

theorem Ending.wordEnd (e : Ending) (args : List (List UInt8)) :
    DynamicConf.wordEnd args e.char = some (e.token args) := by
  cases e <;> rfl

theorem isSpace_wordEnd (hch : isSpace ch = true) (args : List (List UInt8)) :
    wordEnd args ch = none := by
  rcases isSpace_iff.mp hch with rfl | rfl | rfl | rfl <;> rfl

theorem stops_blank (hch : isSpace ch = true) : stops none ch = true ∧ ch ≠ 123 := by
  rcases isSpace_iff.mp hch with rfl | rfl | rfl | rfl <;> decide

theorem stops_ending (e : Ending) : stops none e.char = true := by cases e <;> rfl

/-- **A directive is read up to its ending.** -/
theorem Line.reads (h : Line s ws e line) (hword : word.length = s.taken)
    (hargs : args ++ ws ≠ []) (post : List UInt8) :
    Reads (.between s.closed) args word (line ++ post) (e.token (args ++ ws)) post := by
  induction h generalizing args word with
  | close e hgap hs =>
    rw [List.append_nil] at hargs ⊢
    rw [List.append_assoc]
    exact hgap.reads hword fun word' hword' => Reads.ret (hword' ▸ hs) (scan_ending e _ hargs)
  | @quoted s n v gap w text line ws e q hgap hn hw hsize _ ih =>
    rw [List.append_cons args] at hargs ⊢
    rw [List.append_assoc, List.cons_append, List.append_assoc, List.cons_append]
    refine hgap.reads hword fun word' hword' => ?_
    apply Reads.startNext (hword' ▸ hn) (scan_quote q args)
    apply hw.reads (by rw [List.length_nil, Nat.zero_add]; exact hsize.le)
    rw [List.nil_append]
    have hstop : stops (some q) q.char = true := beq_self_eq_true q.char
    apply Reads.found hsize (scan_stops args hstop fun h => by cases q <;> cases h)
    · intro args
      cases q <;> rfl
    · rw [hw.copyWord]
      exact ih (by rw [List.length_append, List.length_singleton]) hargs
  | @bare s s' v gap w text line ws e ch hgap hs hw hsize hch _ ih =>
    rw [List.append_cons args] at hargs ⊢
    rw [List.append_assoc, List.append_assoc, List.cons_append]
    refine hgap.reads hword fun word' hword' => hw.reads (hword' ▸ hs) hsize.le ?_
    apply Reads.found hsize (scan_stops args (stops_blank hch).1
      fun h => absurd h (stops_blank hch).2) (isSpace_wordEnd hch)
    rw [hw.copyWord]
    exact ih (by rw [List.length_append, List.length_singleton]) hargs
  | @last s s' v gap w text e hgap hs hw hsize hend =>
    rw [List.append_assoc, List.append_assoc]
    refine hgap.reads hword fun word' hword' => hw.reads (hword' ▸ hs) hsize.le ?_
    apply Reads.foundLast hsize (scan_stops args (stops_ending e) fun h => ?_)
    · rw [hw.copyWord, e.wordEnd]
    · cases v with
      | false => rfl
      | true =>
        rw [hend rfl] at h
        cases h

theorem End.reads (h : End s text) (hword : word.length = s.taken) :
    Reads (.between s.closed) [] word text .fileDone [] := by
  cases h with
  | gap hgap =>
    rw [← List.append_nil text]
    exact hgap.reads hword fun _ _ => ⟨rfl, rfl⟩
  | @comment n gap text hgap hn htext hsize =>
    refine hgap.reads hword fun word' hword' => ?_
    apply Reads.start (hword' ▸ hn) (show scan .init [] 35 = .start .comment from rfl)
    rw [← List.append_nil text]
    apply Reads.comment text htext
    · rw [List.length_singleton]
      omega
    · exact ⟨rfl, rfl⟩

/-- **What follows the grammar is read.** -/
theorem Takes.reads (h : Takes s args text t rest) (hword : word.length = s.taken) :
    Reads (.between s.closed) args word text t rest := by
  cases h with
  | line hline hne => exact hline.reads hword hne rest
  | brace hargs hgap hn =>
    subst hargs
    exact hgap.reads hword fun word' hword' =>
      Reads.ret (hword' ▸ hn) (show scan .init [] 125 = .ret .blockDone from rfl)
  | fileEnd hargs hend =>
    subst hargs
    exact hend.reads hword

end

/-! ## What is read follows the grammar -/

section
variable {f f' : Flags} {args : List (List UInt8)} {word text rest : List UInt8}
  {ch : UInt8} {t : Token} {q : Option Quote} {v closed : Bool}

theorem Reads.nil_inv (h : Reads f args word [] t rest) : t = endOfFile f args ∧ rest = [] := by
  obtain ⟨rfl, rfl⟩ := Prod.mk.inj h.result
  exact ⟨rfl, rfl⟩

theorem Reads.lt (h : Reads f args word (ch :: text) t rest) (hword : word.length ≤ confBuffer) :
    word.length < confBuffer := by
  have hshort := h.short
  rw [somewhere, Bool.or_eq_false_iff] at hshort
  exact Nat.lt_of_le_of_ne hword (beq_eq_false_iff_ne.mp hshort.1)

theorem Reads.go_inv (h : Reads f args word (ch :: text) t rest) (hscan : scan f args ch = .go f') :
    Reads f' args (word ++ [ch]) text t rest := by
  obtain ⟨hshort, hresult⟩ := h
  rw [somewhere, hscan, Bool.or_eq_false_iff] at hshort
  rw [tokenFrom, hscan] at hresult
  exact ⟨hshort.2, hresult⟩

theorem Reads.start_inv (h : Reads f args word (ch :: text) t rest)
    (hscan : scan f args ch = .start f') : Reads f' args [ch] text t rest := by
  obtain ⟨hshort, hresult⟩ := h
  rw [somewhere, hscan, Bool.or_eq_false_iff] at hshort
  rw [tokenFrom, hscan] at hresult
  exact ⟨hshort.2, hresult⟩

theorem Reads.startNext_inv (h : Reads f args word (ch :: text) t rest)
    (hscan : scan f args ch = .startNext f') : Reads f' args [] text t rest := by
  obtain ⟨hshort, hresult⟩ := h
  rw [somewhere, hscan, Bool.or_eq_false_iff] at hshort
  rw [tokenFrom, hscan] at hresult
  exact ⟨hshort.2, hresult⟩

theorem Reads.found_inv (h : Reads f args word (ch :: text) t rest)
    (hscan : scan f args ch = .found f')
    (hend : wordEnd (args ++ [copyWord word.length (word ++ [ch])]) ch = none) :
    Reads f' (args ++ [copyWord word.length (word ++ [ch])]) (word ++ [ch]) text t rest := by
  obtain ⟨hshort, hresult⟩ := h
  rw [somewhere, hscan, Bool.or_eq_false_iff] at hshort
  rw [tokenFrom, hscan] at hresult
  dsimp only at hshort hresult
  rw [hend] at hshort hresult
  exact ⟨hshort.2, hresult⟩

theorem Reads.foundLast_inv {t' : Token} (h : Reads f args word (ch :: text) t rest)
    (hscan : scan f args ch = .found f')
    (hend : wordEnd (args ++ [copyWord word.length (word ++ [ch])]) ch = some t') :
    t = t' ∧ rest = text := by
  have hresult := h.result
  rw [tokenFrom, hscan] at hresult
  dsimp only at hresult
  rw [hend] at hresult
  obtain ⟨rfl, rfl⟩ := Prod.mk.inj hresult
  exact ⟨rfl, rfl⟩

theorem Reads.ret_inv {t' : Token} (h : Reads f args word (ch :: text) t rest)
    (hscan : scan f args ch = .ret t') : t = t' ∧ rest = text := by
  have hresult := h.result
  rw [tokenFrom, hscan] at hresult
  obtain ⟨rfl, rfl⟩ := Prod.mk.inj hresult
  exact ⟨rfl, rfl⟩

/-- The word ends in the text. -/
inductive Ends (q : Option Quote) (v : Bool) (args : List (List UInt8)) (word : List UInt8) :
    List UInt8 → Token → List UInt8 → Prop
  | intro {w spelled tail rest : List UInt8} {v' : Bool} {ch : UInt8} {t : Token}
      (hw : Inside q v w spelled v') (hstop : stops q ch = true) (hbrace : ch = 123 → v' = false)
      (hsize : (word ++ spelled).length < confBuffer)
      (hread : Reads (.inside q v') args (word ++ spelled) (ch :: tail) t rest) :
      Ends q v args word (spelled ++ ch :: tail) t rest

theorem Ends.cons {v₁ : Bool} (pre : List UInt8)
    (hw : ∀ {w spelled v'}, Inside q v₁ w spelled v' → ∃ w', Inside q v w' (pre ++ spelled) v')
    (h : Ends q v₁ args (word ++ pre) text t rest) : Ends q v args word (pre ++ text) t rest := by
  cases h with
  | intro hin hstop hbrace hsize hread =>
    obtain ⟨w', hin'⟩ := hw hin
    rw [List.append_assoc] at hsize hread
    rw [← List.append_assoc]
    exact .intro hin' hstop hbrace hsize hread

/-- A word that is begun ends, or the call fails. -/
theorem Reads.ends (h : Reads (.inside q v) args word text t rest) (ht : t ≠ .error)
    (hword : word.length ≤ confBuffer) : Ends q v args word text t rest := by
  have herror (f : Flags) (hf : f.lastSpace = false) : endOfFile f args = .error :=
    if_pos (.inr hf)
  induction hn : text.length using Nat.strong_induction_on generalizing v word text with
  | _ n ih =>
  cases text with
  | nil =>
    obtain ⟨rfl, -⟩ := h.nil_inv
    exact absurd (herror _ (Flags.inside_lastSpace q v)) ht
  | cons ch text =>
    have hlt := h.lt hword
    have hword' : (word ++ [ch]).length ≤ confBuffer := by
      rw [List.length_append, List.length_singleton]
      exact hlt
    have hlen : text.length < n := hn ▸ Nat.lt_succ_self _
    have hscan := scan_inside q v args ch
    by_cases hbrace : ch = 123 ∧ v = true
    · obtain ⟨rfl, rfl⟩ := hbrace
      rw [if_pos ⟨rfl, rfl⟩] at hscan
      exact Ends.cons [123] (fun hin => ⟨_, .brace hin⟩)
        (ih _ hlen (h.go_inv hscan) hword' rfl)
    rw [if_neg hbrace] at hscan
    by_cases hbackslash : ch = 92
    · subst hbackslash
      rw [if_pos rfl] at hscan
      have hescape := h.go_inv hscan
      cases text with
      | nil =>
        obtain ⟨rfl, -⟩ := hescape.nil_inv
        exact absurd (herror (.backslash q) (Flags.inside_lastSpace q false)) ht
      | cons next text =>
        have hlt' := hescape.lt hword'
        have hinside := hescape.go_inv (scan_backslash_inside q args next)
        rw [List.append_assoc] at hinside
        refine Ends.cons [92, next] (fun hin => ⟨_, .escape next hin⟩)
          (ih _ ?_ hinside ?_ rfl)
        · exact Nat.lt_of_succ_lt hlen
        · rw [List.length_append] at hlt' ⊢
          exact hlt'
    rw [if_neg hbackslash] at hscan
    by_cases hdollar : ch = 36
    · subst hdollar
      rw [if_pos rfl] at hscan
      exact Ends.cons [36] (fun hin => ⟨_, .dollar hin⟩)
        (ih _ hlen (h.go_inv hscan) hword' rfl)
    rw [if_neg hdollar] at hscan
    have hv : ch = 123 → v = false := fun hch => by
      cases v with
      | false => rfl
      | true => exact absurd ⟨hch, rfl⟩ hbrace
    by_cases hstop : stops q ch = true
    · refine .intro (.nil v) hstop hv ?_ ?_
      · rwa [List.append_nil]
      · rwa [List.append_nil]
    · rw [if_neg hstop] at hscan
      rw [Bool.not_eq_true] at hstop
      exact Ends.cons [ch] (fun hin => ⟨_, .byte ⟨hbackslash, hdollar⟩ hstop hv hin⟩)
        (ih _ hlen (h.go_inv hscan) hword' rfl)

/-- What stands between words when the blanks and the comments are over. -/
inductive Front (closed : Bool) (args : List (List UInt8)) :
    List UInt8 → Token → List UInt8 → Prop
  | ending {rest : List UInt8} (e : Ending) (hargs : args ≠ []) :
      Front closed args (e.char :: rest) (e.token args) rest
  | brace {rest : List UInt8} (hargs : args = []) (hclosed : closed = false) :
      Front closed args (125 :: rest) .blockDone rest
  | quoted {w spelled tail rest : List UInt8} {v : Bool} {t : Token} (q : Quote)
      (hclosed : closed = false) (hw : Inside (some q) false w spelled v)
      (hsize : spelled.length < confBuffer)
      (hread : Reads (.between true) (args ++ [w]) (spelled ++ [q.char]) tail t rest) :
      Front closed args (q.char :: (spelled ++ q.char :: tail)) t rest
  | bare {w spelled tail rest : List UInt8} {v : Bool} {ch : UInt8} {t : Token}
      (hw : Bare closed w spelled v) (hsize : spelled.length < confBuffer)
      (hch : isSpace ch = true)
      (hread : Reads (.between false) (args ++ [w]) (spelled ++ [ch]) tail t rest) :
      Front closed args (spelled ++ ch :: tail) t rest
  | last {w spelled rest : List UInt8} {v : Bool} (e : Ending) (hw : Bare closed w spelled v)
      (hsize : spelled.length < confBuffer) (hend : v = true → e = .semicolon) :
      Front closed args (spelled ++ e.char :: rest) (e.token (args ++ [w])) rest

theorem stops_none (h : stops none ch = true) : isSpace ch = true ∨ ∃ e : Ending, ch = e.char := by
  unfold stops at h
  simp only [Bool.or_eq_true, beq_iff_eq] at h
  rcases h with (h | rfl) | rfl
  · exact .inl h
  · exact .inr ⟨.semicolon, rfl⟩
  · exact .inr ⟨.block, rfl⟩

/-- A word without quotes, from its first bytes on. -/
theorem Ends.front {pre : List UInt8} (h : Ends none false args pre text t rest)
    (hw : ∀ {w spelled v}, Inside none false w spelled v →
      ∃ w', Bare closed w' (pre ++ spelled) v) : Front closed args (pre ++ text) t rest := by
  obtain ⟨hin, hstop, hbrace, hsize, hread⟩ := h
  obtain ⟨w, hbare⟩ := hw hin
  have hscan := scan_stops args hstop hbrace
  rw [← List.append_assoc]
  obtain hch | ⟨e, rfl⟩ := stops_none hstop
  · refine .bare hbare hsize hch ?_
    have hnext := hread.found_inv hscan (isSpace_wordEnd hch _)
    rwa [hbare.copyWord] at hnext
  · have hlast := hread.foundLast_inv hscan (e.wordEnd _)
    rw [hbare.copyWord] at hlast
    obtain ⟨rfl, rfl⟩ := hlast
    refine .last e hbare hsize fun hv => ?_
    cases e with
    | semicolon => rfl
    | block =>
      rw [hbrace rfl] at hv
      cases hv

theorem Ends.quoted {q : Quote} (h : Ends (some q) false args [] text t rest)
    (hclosed : closed = false) : Front closed args (q.char :: text) t rest := by
  obtain ⟨hin, hstop, hbrace, hsize, hread⟩ := h
  have hscan := scan_stops args hstop hbrace
  obtain rfl := beq_iff_eq.mp hstop
  refine .quoted q hclosed hin hsize ?_
  have hnext := hread.found_inv hscan (by cases q <;> rfl)
  rwa [List.nil_append, hin.copyWord] at hnext

/-- Right behind a closing quote. -/
theorem scan_afterQuotes (args : List (List UInt8)) (hspace : isSpace ch = false)
    (h59 : ch ≠ 59) (h123 : ch ≠ 123) (h41 : ch ≠ 41) :
    scan .afterQuotes args ch = .ret .error := by
  unfold scan
  rw [lf_flags rfl]
  simp [Flags.afterQuotes, hspace, h59, h123, h41]

theorem Reads.frontEnding (h : Reads (.between closed) args word (ch :: text) t rest) (e : Ending)
    (hargs : args ≠ []) (hch : ch = e.char) : Front closed args (ch :: text) t rest := by
  subst hch
  obtain ⟨rfl, rfl⟩ := h.ret_inv (scan_ending e closed hargs)
  exact .ending e hargs

theorem Reads.frontWord (h : Reads (.between closed) args word (ch :: text) t rest)
    (ht : t ≠ .error) (hch : startsWord ch = true) (hclosed : closed = true → ch = 41) :
    Front closed args (ch :: text) t rest :=
  ((h.start_inv (scan_starts args hch hclosed)).ends ht (Nat.succ_le_succ (Nat.zero_le _))).front
    fun hin => ⟨_, .byte hch hclosed hin⟩

theorem Reads.frontClosed (h : Reads (.between true) args word (ch :: text) t rest)
    (ht : t ≠ .error) (hspace : isSpace ch = false) (hargs : args ≠ []) :
    Front true args (ch :: text) t rest := by
  by_cases h59 : ch = 59
  · exact h.frontEnding .semicolon hargs h59
  by_cases h123 : ch = 123
  · exact h.frontEnding .block hargs h123
  by_cases h41 : ch = 41
  · exact h.frontWord ht (by rw [h41]; rfl) fun _ => h41
  · exact absurd (h.ret_inv (scan_afterQuotes args hspace h59 h123 h41)).1 ht

/-- Behind a blank, the cases of the `switch`. -/
theorem Reads.frontOpen (h : Reads (.between false) args word (ch :: text) t rest)
    (ht : t ≠ .error) (hspace : isSpace ch = false) (h35 : ch ≠ 35) :
    Front false args (ch :: text) t rest := by
  have hscan := scan_init args ch
  unfold scanSpace at hscan
  rw [if_neg (by rw [hspace]; exact Bool.false_ne_true)] at hscan
  by_cases hend : ch = 59 ∨ ch = 123
  · rw [if_pos hend] at hscan
    by_cases hne : args = []
    · rw [if_pos hne] at hscan
      exact absurd (h.ret_inv hscan).1 ht
    · rcases hend with h59 | h123
      · exact h.frontEnding .semicolon hne h59
      · exact h.frontEnding .block hne h123
  rw [if_neg hend] at hscan
  by_cases h125 : ch = 125
  · rw [if_pos h125] at hscan
    by_cases hne : args = []
    · rw [if_pos hne] at hscan
      obtain ⟨rfl, rfl⟩ := h.ret_inv hscan
      rw [h125]
      exact .brace hne rfl
    · rw [if_neg hne] at hscan
      exact absurd (h.ret_inv hscan).1 ht
  by_cases h92 : ch = 92
  · subst h92
    have hescape := h.start_inv (show scan .init args 92 = .start (.backslash none) from rfl)
    cases text with
    | nil =>
      obtain ⟨rfl, -⟩ := hescape.nil_inv
      exact absurd (if_pos (.inr rfl)) ht
    | cons next text =>
      have hinside := hescape.go_inv (scan_backslash_inside none args next)
      exact (hinside.ends ht (Nat.le_of_ble_eq_true rfl)).front fun hin => ⟨_, .escape next hin⟩
  by_cases h34 : ch = 34
  · subst h34
    exact ((h.startNext_inv (scan_quote .double args)).ends ht (Nat.zero_le _)).quoted rfl
  by_cases h39 : ch = 39
  · subst h39
    exact ((h.startNext_inv (scan_quote .single args)).ends ht (Nat.zero_le _)).quoted rfl
  · rw [not_or] at hend
    exact h.frontWord ht
      (startsWord_iff.mpr ⟨hspace, hend.1, hend.2, h125, h35, h92, h34, h39⟩) nofun

theorem Reads.front (h : Reads (.between closed) args word (ch :: text) t rest) (ht : t ≠ .error)
    (hspace : isSpace ch = false) (hcomment : closed = false → ch ≠ 35)
    (hargs : closed = true → args ≠ []) : Front closed args (ch :: text) t rest := by
  cases closed with
  | true => exact h.frontClosed ht hspace (hargs rfl)
  | false => exact h.frontOpen ht hspace (hcomment rfl)

theorem Reads.comment_inv {comment : List UInt8} (hcomment : 10 ∉ comment)
    (h : Reads .comment args word (comment ++ text) t rest) (hword : word.length ≤ confBuffer) :
    word.length + comment.length ≤ confBuffer ∧
      Reads .comment args (word ++ comment) text t rest := by
  induction comment generalizing word with
  | nil =>
    rw [List.append_nil]
    exact ⟨hword, h⟩
  | cons ch comment ih =>
    rw [List.mem_cons, not_or] at hcomment
    have hlt := h.lt hword
    have hnext := h.go_inv (scan_comment args rfl fun h => hcomment.1 h.symm)
    obtain ⟨hsize, hread⟩ := ih hcomment.2 hnext (by
      rw [List.length_append, List.length_singleton]
      exact hlt)
    rw [List.append_assoc] at hread
    rw [List.length_append, List.length_singleton, Nat.add_assoc, Nat.add_comm 1] at hsize
    exact ⟨hsize, hread⟩

/-- The blanks and the comments in front, and what stands behind them. -/
inductive Passes (s : Spot) (args : List (List UInt8)) :
    List UInt8 → Token → List UInt8 → Prop
  | intro {s' : Spot} {gap text word rest : List UInt8} {t : Token} (hgap : Gap s gap s')
      (hword : word.length = s'.taken) (hs : s'.taken ≤ confBuffer)
      (hread : Reads (.between s'.closed) args word text t rest)
      (hfront : ∀ ch tail, text = ch :: tail →
        isSpace ch = false ∧ (s'.closed = false → ch = 35 → 10 ∉ tail)) :
      Passes s args (gap ++ text) t rest

theorem Passes.blank {s : Spot} (h : Passes ⟨false, s.taken + 1⟩ args text t rest)
    (hs : s.taken < confBuffer) (hch : isSpace ch = true) : Passes s args (ch :: text) t rest := by
  obtain ⟨hgap, hword, hs', hread, hfront⟩ := h
  rw [← List.cons_append]
  exact .intro (.blank hs hch hgap) hword hs' hread hfront

theorem Passes.comment {n : Nat} {comment : List UInt8}
    (h : Passes ⟨false, comment.length + 2⟩ args text t rest) (hn : n < confBuffer)
    (hcomment : 10 ∉ comment) (hsize : comment.length + 1 < confBuffer) :
    Passes ⟨false, n⟩ args (35 :: (comment ++ 10 :: text)) t rest := by
  obtain @⟨_, gap, text, _, _, _, hgap, hword, hs', hread, hfront⟩ := h
  have heq : 35 :: (comment ++ 10 :: (gap ++ text)) = 35 :: (comment ++ 10 :: gap) ++ text := by
    rw [List.cons_append, List.append_assoc, List.cons_append]
  rw [heq]
  exact .intro (.comment hn hcomment hsize hgap) hword hs' hread hfront

theorem Reads.passes (h : Reads (.between closed) args word text t rest)
    (hword : word.length ≤ confBuffer) : Passes ⟨closed, word.length⟩ args text t rest := by
  induction hn : text.length using Nat.strong_induction_on generalizing closed word text with
  | _ n ih =>
  cases text with
  | nil => exact .intro (.nil _) rfl hword h nofun
  | cons ch text =>
    have hlt := h.lt hword
    have hlen : text.length < n := hn ▸ Nat.lt_succ_self _
    by_cases hspace : isSpace ch = true
    · have hnext : Reads (.between false) args (word ++ [ch]) text t rest :=
        h.go_inv (scan_between_blank closed args hspace)
      have hpasses := ih _ hlen hnext (by
        rw [List.length_append, List.length_singleton]
        exact hlt) rfl
      rw [List.length_append, List.length_singleton] at hpasses
      exact hpasses.blank hlt hspace
    rw [Bool.not_eq_true] at hspace
    by_cases hcomment : closed = false ∧ ch = 35 ∧ 10 ∈ text
    · obtain ⟨rfl, rfl, hlf⟩ := hcomment
      obtain ⟨comment, text, rfl, hno⟩ := List.eq_append_cons_of_mem hlf
      have hin := h.start_inv (show scan (.between false) args 35 = .start .comment from rfl)
      obtain ⟨hsize, hbehind⟩ := hin.comment_inv hno (Nat.succ_le_succ (Nat.zero_le _))
      have hnext : Reads (.between false) args ([35] ++ comment ++ [10]) text t rest :=
        hbehind.go_inv (show scan .comment args 10 = .go .init from rfl)
      have hlt' := hbehind.lt (by rwa [List.length_append])
      rw [List.length_append, List.length_singleton, Nat.add_comm] at hlt'
      rw [List.length_append, List.length_cons] at hlen
      have heq : ([35] ++ comment ++ [10]).length = comment.length + 2 := by
        rw [List.length_append, List.length_append, List.length_singleton, List.length_singleton]
        omega
      have hpasses := ih _ (by omega) hnext (by omega) rfl
      rw [heq] at hpasses
      exact hpasses.comment hlt hno hlt'
    · refine .intro (.nil _) rfl hword h fun c tail heq => ?_
      cases heq
      exact ⟨hspace, fun hclosed h35 hlf => hcomment ⟨hclosed, h35, hlf⟩⟩

theorem Gap.of_closed {s s' : Spot} {gap : List UInt8} (h : Gap s gap s') (hs : s'.closed = true) :
    s.closed = true := by
  induction h with
  | nil => exact hs
  | blank _ _ _ ih => cases ih hs
  | comment _ _ _ _ ih => cases ih hs

/-- The end of the file is accepted in front of a directive only. -/
theorem endOfFile_inv (hlast : f.lastSpace = true) (ht : endOfFile f args ≠ .error) :
    args = [] ∧ endOfFile f args = .fileDone := by
  unfold endOfFile at ht ⊢
  split at ht
  · exact absurd rfl ht
  · next hno =>
    rw [not_or, not_not] at hno
    exact ⟨hno.1, if_neg fun h => h.elim (absurd hno.1) fun h => by rw [hlast] at h; cases h⟩

/-- The blanks and the comments up to the end of the file. -/
theorem Reads.fileEnd {s s' : Spot} {gap : List UInt8} (hgap : Gap s gap s')
    (h : Reads (.between s'.closed) args word text t rest) (ht : t ≠ .error)
    (hword : word.length = s'.taken) (hs : s'.taken ≤ confBuffer)
    (htext : text = [] ∨ s'.closed = false ∧ ∃ comment, text = 35 :: comment ∧ 10 ∉ comment) :
    Takes s args (gap ++ text) t rest := by
  obtain ⟨closed, n⟩ := s'
  rcases htext with rfl | ⟨rfl, comment, rfl, hno⟩
  · obtain ⟨rfl, rfl⟩ := h.nil_inv
    cases closed with
    | true => exact absurd (if_pos (.inr rfl)) ht
    | false =>
      obtain ⟨hnil, hdone⟩ := endOfFile_inv rfl ht
      rw [hdone, List.append_nil]
      exact .fileEnd hnil (.gap hgap)
  · have hin := h.start_inv (show scan (.between false) args 35 = .start .comment from rfl)
    rw [← List.append_nil comment] at hin
    obtain ⟨hsize, hend⟩ := hin.comment_inv hno (Nat.succ_le_succ (Nat.zero_le _))
    obtain ⟨rfl, rfl⟩ := hend.nil_inv
    obtain ⟨hnil, hdone⟩ := endOfFile_inv rfl ht
    rw [List.length_singleton, Nat.add_comm] at hsize
    have hlt := h.lt (hword.trans_le hs)
    rw [hword] at hlt
    rw [hdone]
    exact .fileEnd hnil (.comment hgap hlt hno hsize)

/-- A directive that goes on behind its next word. -/
def Goes (args : List (List UInt8)) (w : List UInt8) (s : Spot) (text : List UInt8) (t : Token)
    (rest : List UInt8) : Prop :=
  ∃ ws e line, text = line ++ rest ∧ t = Ending.token e (args ++ w :: ws) ∧ Line s ws e line

theorem Front.takes {s s' : Spot} {gap : List UInt8} (h : Front s'.closed args text t rest)
    (hgap : Gap s gap s') (hs : s'.taken < confBuffer)
    (hnext : ∀ {closed w word tail}, Reads (.between closed) (args ++ [w]) word tail t rest →
      word.length ≤ confBuffer → tail.length < text.length →
      Goes args w ⟨closed, word.length⟩ tail t rest) : Takes s args (gap ++ text) t rest := by
  obtain ⟨closed, n⟩ := s'
  have hlength (word : List UInt8) (ch : UInt8) : (word ++ [ch]).length = word.length + 1 := by
    rw [List.length_append, List.length_singleton]
  have hne {ws : List (List UInt8)} (w : List UInt8) : args ++ w :: ws ≠ [] :=
    List.append_ne_nil_of_right_ne_nil args nofun
  cases h with
  | ending e hargs =>
    have hline : Takes s args ((gap ++ [e.char]) ++ rest) (e.token (args ++ [])) rest :=
      .line (.close e hgap hs) (by rwa [List.append_nil])
    rwa [List.append_nil, List.append_assoc] at hline
  | brace hargs hclosed =>
    cases hclosed
    exact .brace hargs hgap hs
  | @quoted w spelled tail _ v _ q hclosed hw hsize hread =>
    cases hclosed
    obtain ⟨ws, e, line, rfl, rfl, hline⟩ := hnext hread (by rw [hlength]; exact hsize) (by
      simp only [List.length_cons, List.length_append]
      omega)
    rw [hlength] at hline
    have htakes : Takes s args ((gap ++ q.char :: (spelled ++ q.char :: line)) ++ rest) _ rest :=
      .line (.quoted q hgap hs hw hsize hline) (hne w)
    rwa [List.append_assoc, List.cons_append, List.append_assoc] at htakes
  | @bare w spelled tail _ v c _ hw hsize hch hread =>
    obtain ⟨ws, e, line, rfl, rfl, hline⟩ := hnext hread (by rw [hlength]; exact hsize) (by
      simp only [List.length_cons, List.length_append]
      omega)
    rw [hlength] at hline
    have htakes : Takes s args ((gap ++ (spelled ++ c :: line)) ++ rest) _ rest :=
      .line (.bare hgap hs hw hsize hch hline) (hne w)
    rwa [List.append_assoc, List.append_assoc] at htakes
  | @last w spelled _ v e hw hsize hend =>
    have htakes : Takes s args ((gap ++ (spelled ++ [e.char])) ++ rest) _ rest :=
      .line (.last e hgap hs hw hsize hend) (hne w)
    rwa [List.append_assoc, List.append_assoc] at htakes

/-- **What is read follows the grammar.** -/
theorem Reads.takes (h : Reads (.between closed) args word text t rest) (ht : t ≠ .error)
    (hword : word.length ≤ confBuffer) (hargs : closed = true → args ≠ []) :
    Takes ⟨closed, word.length⟩ args text t rest := by
  induction hn : text.length using Nat.strong_induction_on generalizing closed args word text with
  | _ n ih =>
  obtain @⟨s', gap, text, word', _, _, hgap, hword', hs, hread, hfront⟩ := h.passes hword
  cases text with
  | nil => exact hread.fileEnd hgap ht hword' hs (.inl rfl)
  | cons ch text =>
    obtain ⟨hspace, hcomment⟩ := hfront ch text rfl
    have hlt := hread.lt (hword'.trans_le hs)
    rw [hword'] at hlt
    by_cases h35 : s'.closed = false ∧ ch = 35
    · obtain ⟨hclosed, rfl⟩ := h35
      exact hread.fileEnd hgap ht hword' hs (.inr ⟨hclosed, text, rfl, hcomment hclosed rfl⟩)
    have hfront := hread.front ht hspace (fun hclosed h => h35 ⟨hclosed, h⟩)
      fun hclosed => hargs (hgap.of_closed hclosed)
    refine hfront.takes hgap hlt fun {closed w word tail} hread hsize hlen => ?_
    rw [List.length_append] at hn
    -- behind a word only the ending of the directive is accepted
    obtain ⟨hline, -⟩ | ⟨hnil, -⟩ | ⟨hnil, -⟩ :=
      ih _ (by omega) hread hsize (fun _ => List.concat_ne_nil w args) rfl
    · exact ⟨_, _, _, rfl, by rw [List.append_assoc]; rfl, hline⟩
    · exact absurd hnil (List.concat_ne_nil w args)
    · exact absurd hnil (List.concat_ne_nil w args)

/-- **One call of the reader**, for any text in front of it. -/
theorem reads_iff (ht : t ≠ .error) :
    Reads .init [] [] text t rest ↔ Takes .start [] text t rest :=
  ⟨fun h => (show Reads (.between false) [] [] text t rest from h).takes ht (Nat.zero_le _) nofun,
    fun h => h.reads rfl⟩

end

end NgxToolkit.DynamicConf
