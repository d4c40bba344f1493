import Mathlib
import NgxToolkit.DynamicConfToken

/-! A directive whose words are all written between double quotes.

`scan` finds the end of such a word and `copyWord` takes the backslashes out of it.
Both read a backslash as a sign in front of the next byte, so that every list of
words is read as it was written.

* `copyWord_escape`: the copy of a word is what was written.
* `readToken_render`: `ngx_dynamic_conf_read_token` returns what was rendered. -/

namespace NgxToolkit.DynamicConf

/-- A byte of a word, between double quotes. -/
def escapeByte (ch : UInt8) : List UInt8 := if ch = 34 ∨ ch = 92 then [92, ch] else [ch]

def escape (w : List UInt8) : List UInt8 := w.flatMap escapeByte

/-- A word between double quotes. -/
def quote (w : List UInt8) : List UInt8 := 34 :: (escape w ++ [34])

/-- What stands behind the words. -/
inductive Ending where
  | semicolon
  | block

/-- `;` or ` {`. -/
def Ending.text : Ending → List UInt8
  | .semicolon => [59]
  | .block => [32, 123]

def Ending.token : Ending → List (List UInt8) → Token
  | .semicolon, ws => .ok ws
  | .block, ws => .blockStart ws

/-- The words with one space between them, and the ending. -/
def render (ws : List (List UInt8)) (e : Ending) : List UInt8 :=
  [32].intercalate (ws.map quote) ++ e.text

theorem render_singleton (w : List UInt8) (e : Ending) : render [w] e = quote w ++ e.text := by
  rw [render, List.map_singleton, List.intercalate_singleton]

theorem render_cons (w w' : List UInt8) (ws : List (List UInt8)) (e : Ending) :
    render (w :: w' :: ws) e = quote w ++ 32 :: render (w' :: ws) e := by
  rw [render, List.map_cons, List.map_cons, List.intercalate_cons_cons, List.append_assoc,
    List.append_assoc]
  rfl

/-! ## The copy of a word -/

theorem escape_cons (ch : UInt8) (w : List UInt8) : escape (ch :: w) = escapeByte ch ++ escape w :=
  List.flatMap_cons

/-- **The copy of a word is what was written.** -/
theorem copyWord_escape (w : List UInt8) : copyWord (escape w).length (escape w ++ [34]) = w := by
  induction w with
  | nil => rfl
  | cons ch w ih =>
    rw [escape_cons]
    unfold escapeByte
    by_cases hch : ch = 34 ∨ ch = 92
    · rw [if_pos hch]
      show copyWord ((escape w).length + 2) (92 :: ch :: (escape w ++ [34])) = _
      have hesc : escaped ch = some ch := if_pos (hch.imp_right .inr)
      rw [copyWord_backslash, hesc]
      show ch :: copyWord (escape w).length _ = _
      rw [ih]
    · rw [if_neg hch]
      show copyWord ((escape w).length + 1) (ch :: (escape w ++ [34])) = _
      rw [copyWord_plain (fun h => hch (.inr h)) (List.concat_ne_nil 34 (escape w)), ih]

/-! ## Rules for the automaton -/

/-- The automaton returns `t` on the text, with `rest` behind it, and the buffer of a
load is long enough for it. -/
structure Reads (f : Flags) (args : List (List UInt8)) (word text : List UInt8) (t : Token)
    (rest : List UInt8) : Prop where
  short : somewhere (fun _ _ word _ => word.length == confBuffer) f args word text = false
  result : tokenFrom f args word text = (t, rest)

section
variable {f f' : Flags} {args : List (List UInt8)} {word text rest : List UInt8} {ch : UInt8}
  {t : Token}

theorem Reads.go (hword : word.length < confBuffer) (hscan : scan f args ch = .go f')
    (h : Reads f' args (word ++ [ch]) text t rest) : Reads f args word (ch :: text) t rest := by
  constructor
  · rw [somewhere, beq_false_of_ne hword.ne, hscan, Bool.false_or]
    exact h.short
  · rw [tokenFrom, hscan]
    exact h.result

theorem Reads.startNext (hword : word.length < confBuffer)
    (hscan : scan f args ch = .startNext f') (h : Reads f' args [] text t rest) :
    Reads f args word (ch :: text) t rest := by
  constructor
  · rw [somewhere, beq_false_of_ne hword.ne, hscan, Bool.false_or]
    exact h.short
  · rw [tokenFrom, hscan]
    exact h.result

theorem Reads.found (hword : word.length < confBuffer) (hscan : scan f args ch = .found f')
    (hend : ∀ args, wordEnd args ch = none)
    (h : Reads f' (args ++ [copyWord word.length (word ++ [ch])]) (word ++ [ch]) text t rest) :
    Reads f args word (ch :: text) t rest := by
  constructor
  · rw [somewhere, beq_false_of_ne hword.ne, hscan, Bool.false_or]
    dsimp only
    rw [hend]
    exact h.short
  · rw [tokenFrom, hscan]
    dsimp only
    rw [hend]
    exact h.result

theorem Reads.ret (hword : word.length < confBuffer) (hscan : scan f args ch = .ret t) :
    Reads f args word (ch :: text) t text := by
  constructor
  · rw [somewhere, beq_false_of_ne hword.ne, hscan, Bool.false_or]
  · rw [tokenFrom, hscan]

end

/-! ## A rendered directive -/

/-- The flags in a word with double quotes. -/
def Flags.inQuotes (isVariable : Bool) : Flags :=
  ⟨false, false, false, isVariable, false, false, true⟩

/-- The flags behind a backslash in such a word. -/
def Flags.behindBackslash : Flags := ⟨false, false, false, false, true, false, true⟩

/-- The flags behind a word with quotes. -/
def Flags.afterQuotes : Flags := ⟨true, false, false, false, false, false, false⟩

section
variable {args : List (List UInt8)} {word text rest : List UInt8} {ch : UInt8} {t : Token}

theorem scan_opening (args : List (List UInt8)) :
    scan .init args 34 = .startNext (.inQuotes false) := rfl

theorem scan_backslash (args : List (List UInt8)) (v : Bool) :
    scan (.inQuotes v) args 92 = .go .behindBackslash := rfl

theorem scan_behindBackslash (args : List (List UInt8)) (ch : UInt8) :
    scan .behindBackslash args ch = .go (.inQuotes false) := by
  unfold scan
  by_cases hlf : ch = 10
  · rw [if_pos hlf]
    rfl
  · rw [if_neg hlf]
    rfl

theorem scan_closing (args : List (List UInt8)) (v : Bool) :
    scan (.inQuotes v) args 34 = .found .afterQuotes := rfl

theorem scan_inQuotes (args : List (List UInt8)) (v : Bool) (h34 : ch ≠ 34) (h92 : ch ≠ 92) :
    ∃ v', scan (.inQuotes v) args ch = .go (.inQuotes v') := by
  have hword : scan (.inQuotes v) args ch = scanWord (.inQuotes v) ch := by
    unfold scan
    by_cases hlf : ch = 10
    · rw [if_pos hlf]
      rfl
    · rw [if_neg hlf]
      rfl
  rw [hword]
  unfold scanWord
  by_cases hvar : ch = 123 ∧ (Flags.inQuotes v).isVariable = true
  · rw [if_pos hvar]
    exact ⟨v, rfl⟩
  rw [if_neg hvar]
  dsimp only
  rw [if_neg h92]
  by_cases hdollar : ch = 36
  · rw [if_pos hdollar]
    exact ⟨true, rfl⟩
  · rw [if_neg hdollar]
    refine ⟨false, ?_⟩
    show (if ch = 34 then _ else _) = _
    rw [if_neg h34]
    rfl

/-- A word that is escaped is read up to the closing quote. -/
theorem Reads.escaped (w : List UInt8) (v : Bool)
    (hsize : word.length + (escape w).length < confBuffer)
    (h : ∀ v', Reads (.inQuotes v') args (word ++ escape w) text t rest) :
    Reads (.inQuotes v) args word (escape w ++ text) t rest := by
  induction w generalizing v word with
  | nil =>
    have hv := h v
    rwa [escape, List.flatMap_nil, List.append_nil] at hv
  | cons ch w ih =>
    rw [escape_cons, List.length_append] at hsize
    rw [escape_cons] at h
    rw [escape_cons]
    unfold escapeByte at hsize h ⊢
    by_cases hch : ch = 34 ∨ ch = 92
    · rw [if_pos hch] at hsize h ⊢
      rw [List.length_cons, List.length_singleton] at hsize
      apply Reads.go (by omega) (scan_backslash args v)
      apply Reads.go _ (scan_behindBackslash args ch)
      · apply ih
        · rw [List.length_append, List.length_append, List.length_singleton, List.length_singleton]
          omega
        · intro v'
          rw [List.append_assoc, List.append_assoc]
          exact h v'
      · rw [List.length_append, List.length_singleton]
        omega
    · rw [if_neg hch] at hsize h ⊢
      rw [List.length_singleton] at hsize
      obtain ⟨v', hscan⟩ := scan_inQuotes args v (fun h => hch (.inl h)) (fun h => hch (.inr h))
      apply Reads.go (by omega) hscan
      apply ih
      · rw [List.length_append, List.length_singleton]
        omega
      · intro v'
        rw [List.append_assoc]
        exact h v'

/-- A word between double quotes is read from its opening quote on. -/
theorem Reads.quoted (w : List UInt8) (hword : word.length < confBuffer)
    (hsize : (quote w).length ≤ 4000)
    (h : ∀ word', word'.length + 1 ≤ 4000 →
      Reads .afterQuotes (args ++ [w]) word' text t rest) :
    Reads .init args word (quote w ++ text) t rest := by
  unfold quote at hsize ⊢
  rw [List.length_cons, List.length_append, List.length_singleton] at hsize
  rw [List.cons_append, List.append_assoc]
  apply Reads.startNext hword (scan_opening args)
  apply Reads.escaped
  · rw [List.length_nil]
    unfold confBuffer
    omega
  intro v
  rw [List.nil_append]
  apply Reads.found _ (scan_closing args v) fun _ => rfl
  · rw [copyWord_escape]
    apply h
    rw [List.length_append, List.length_singleton]
    omega
  · unfold confBuffer
    omega

theorem scan_blank (args : List (List UInt8)) : scan .afterQuotes args 32 = .go .init := rfl

theorem scan_semicolon (args : List (List UInt8)) :
    scan .afterQuotes args 59 = .ret (.ok args) := rfl

theorem scan_block (hargs : args ≠ []) : scan .init args 123 = .ret (.blockStart args) := by
  show scanSpace .init args 123 = _
  unfold scanSpace
  rw [if_neg (by decide), if_pos (.inr rfl), if_neg hargs]
  rfl

theorem Reads.ending (e : Ending) (hword : word.length + 1 ≤ 4000) (hargs : args ≠ []) :
    Reads .afterQuotes args word (e.text ++ text) (e.token args) text := by
  have hshort : word.length < confBuffer := by
    unfold confBuffer
    omega
  cases e with
  | semicolon => exact Reads.ret hshort (scan_semicolon args)
  | block =>
    apply Reads.go hshort (scan_blank args)
    apply Reads.ret _ (scan_block hargs)
    rw [List.length_append, List.length_singleton]
    unfold confBuffer
    omega

/-- **The words of a directive.** -/
theorem Reads.words (ws : List (List UInt8)) (w : List UInt8) (e : Ending) (post : List UInt8)
    (hword : word.length < confBuffer) (hsize : ∀ w' ∈ w :: ws, (quote w').length ≤ 4000) :
    Reads .init args word (render (w :: ws) e ++ post) (e.token (args ++ w :: ws)) post := by
  induction ws generalizing w args word with
  | nil =>
    rw [render_singleton, List.append_assoc]
    apply Reads.quoted w hword (hsize w List.mem_cons_self)
    intro word' hword'
    exact Reads.ending e hword' (List.concat_ne_nil w args)
  | cons w' ws ih =>
    rw [render_cons, List.append_assoc, List.append_cons args]
    apply Reads.quoted w hword (hsize w List.mem_cons_self)
    intro word' hword'
    have hshort : word'.length + 1 < confBuffer := by
      unfold confBuffer
      omega
    apply Reads.go (Nat.lt_of_succ_lt hshort) (scan_blank (args ++ [w]))
    apply ih w' _ fun v hv => hsize v (List.mem_cons_of_mem w hv)
    rwa [List.length_append, List.length_singleton]

end

/-- **What is rendered is read.**  The buffer is in front of the text that follows. -/
theorem readToken_render {content post : List UInt8} {b : ConfFile} (ws : List (List UInt8))
    (e : Ending) (hne : ws ≠ []) (hsize : ∀ w ∈ ws, (quote w).length ≤ 4000)
    (h : At content b b.pos [] (render ws e ++ post)) :
    ∃ b', readToken content b = some (e.token ws, b') ∧ At content b' b'.pos [] post := by
  obtain ⟨w, ws, rfl⟩ := List.exists_cons_of_ne_nil hne
  have hreads : Reads .init [] [] (render (w :: ws) e ++ post) (e.token (w :: ws)) post :=
    Reads.words ws w e post (Nat.zero_lt_succ _) hsize
  obtain ⟨b', ⟨hlong, -⟩ | ⟨-, hread, hnext⟩⟩ := readToken_eq h
  · rw [tooLong, hreads.short] at hlong
    cases hlong
  · rw [token, hreads.result] at hread hnext
    exact ⟨b', hread, hnext⟩

/-- The words `"` and `{` of a block. -/
theorem readToken_render_block : ∃ b',
    readToken [34, 92, 34, 34, 32, 34, 123, 34, 32, 123, 125] .opened =
      some (.blockStart [[34], [123]], b') ∧
    At [34, 92, 34, 34, 32, 34, 123, 34, 32, 123, 125] b' b'.pos [] [125] :=
  readToken_render [[34], [123]] .block (by decide) (by decide) (.opened _)

end NgxToolkit.DynamicConf
