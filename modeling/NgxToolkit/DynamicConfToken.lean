import Mathlib

/-! The tokens of a dynamic configuration file (`ngx_dynamic_conf_read_token`).

`scan` is what the function does with one character, `readToken` the function
itself: it reads the file through the buffer of a load, which holds 4096 bytes.
`token` feeds the same characters to the same automaton from a buffer that holds
the whole file.  What is logged is left out.

* `readToken_eq`: the function does what `token` does, unless `tooLong` holds of
  the text that it reads. -/

namespace NgxToolkit.DynamicConf

/-- `NGX_CONF_BUFFER`. -/
def confBuffer : Nat := 4096

/-- Is it a blank, a tab, a CR or a LF? -/
def isSpace (ch : UInt8) : Bool := ch == 32 || ch == 9 || ch == 13 || ch == 10

/-- What `ngx_dynamic_conf_read_token` returns, with `cf->args` where there are
arguments. -/
inductive Token where
  | ok (args : List (List UInt8))
  | blockStart (args : List (List UInt8))
  | blockDone
  | fileDone
  | error
deriving DecidableEq

/-- Does nobody ask for another token? -/
def Token.last : Token → Bool
  | .fileDone | .error => true
  | _ => false

/-! ## The automaton -/

/-- The flags of the function; `isVariable` is its `variable`. -/
structure Flags where
  needSpace : Bool
  lastSpace : Bool
  sharpComment : Bool
  isVariable : Bool
  quoted : Bool
  sQuoted : Bool
  dQuoted : Bool
deriving DecidableEq

/-- The flags at the start. -/
def Flags.init : Flags := ⟨false, true, false, false, false, false, false⟩

/-- What is done with a character: go on, set `start` to it or behind it and go
on, end a word with it, or return. -/
inductive Move where
  | go (f : Flags)
  | start (f : Flags)
  | startNext (f : Flags)
  | found (f : Flags)
  | ret (t : Token)

/-- A character behind a space. -/
def scanSpace (f : Flags) (args : List (List UInt8)) (ch : UInt8) : Move :=
  if isSpace ch then .go f
  else if ch = 59 ∨ ch = 123 then
    if args = [] then .ret .error
    else if ch = 123 then .ret (.blockStart args) else .ret (.ok args)
  else if ch = 125 then if args = [] then .ret .blockDone else .ret .error
  else if ch = 35 then .start { f with sharpComment := true }
  else if ch = 92 then .start { f with quoted := true, lastSpace := false }
  else if ch = 34 then .startNext { f with dQuoted := true, lastSpace := false }
  else if ch = 39 then .startNext { f with sQuoted := true, lastSpace := false }
  else .start { f with lastSpace := false }

/-- A character of a word. -/
def scanWord (f : Flags) (ch : UInt8) : Move :=
  if ch = 123 ∧ f.isVariable = true then .go f
  else
    let f := { f with isVariable := false }
    if ch = 92 then .go { f with quoted := true }
    else if ch = 36 then .go { f with isVariable := true }
    else if f.dQuoted then
      if ch = 34 then .found { f with dQuoted := false, needSpace := true } else .go f
    else if f.sQuoted then
      if ch = 39 then .found { f with sQuoted := false, needSpace := true } else .go f
    else if isSpace ch ∨ ch = 59 ∨ ch = 123 then .found { f with lastSpace := true }
    else .go f

/-- The body of the loop for the character `ch`. -/
def scan (f : Flags) (args : List (List UInt8)) (ch : UInt8) : Move :=
  let f := if ch = 10 then { f with sharpComment := false } else f
  if f.sharpComment then .go f
  else if f.quoted then .go { f with quoted := false }
  else if f.needSpace then
    if isSpace ch then .go { f with lastSpace := true, needSpace := false }
    else if ch = 59 then .ret (.ok args)
    else if ch = 123 then .ret (.blockStart args)
    else if ch = 41 then scanSpace { f with lastSpace := true, needSpace := false } args ch
    else .ret .error
  else if f.lastSpace then scanSpace f args ch
  else scanWord f ch

/-- The loop that copies a word: `n` bytes of it are left, and `src` points to
the rest of the buffer. -/
def copyWord : Nat → List UInt8 → List UInt8
  | 0, _ => []
  | _ + 1, [] => []
  | _ + 1, [ch] => [ch]
  | n + 1, ch :: next :: src =>
    if ch = 92 then
      if next = 34 ∨ next = 39 ∨ next = 92 then next :: copyWord (n - 1) src
      else if next = 116 then 9 :: copyWord (n - 1) src
      else if next = 114 then 13 :: copyWord (n - 1) src
      else if next = 110 then 10 :: copyWord (n - 1) src
      else ch :: copyWord n (next :: src)
    else ch :: copyWord n (next :: src)
termination_by structural _ src => src

/-- The result at the end of the file. -/
def endOfFile (f : Flags) (args : List (List UInt8)) : Token :=
  if args ≠ [] ∨ f.lastSpace = false then .error else .fileDone

/-- What a character that ends a word returns at once. -/
def wordEnd (args : List (List UInt8)) (ch : UInt8) : Option Token :=
  if ch = 59 then some (.ok args) else if ch = 123 then some (.blockStart args) else none

/-! ## The whole file in one buffer -/

/-- The automaton on the text in front of it; `word` are the bytes from `start`
on that it has read.  The result comes with the text behind it. -/
def tokenFrom (f : Flags) (args : List (List UInt8)) (word : List UInt8) :
    List UInt8 → Token × List UInt8
  | [] => (endOfFile f args, [])
  | ch :: text =>
    match scan f args ch with
    | .go f => tokenFrom f args (word ++ [ch]) text
    | .start f => tokenFrom f args [ch] text
    | .startNext f => tokenFrom f args [] text
    | .found f =>
      let args := args ++ [copyWord word.length (word ++ [ch])]
      match wordEnd args ch with
      | some t => (t, text)
      | none => tokenFrom f args (word ++ [ch]) text
    | .ret t => (t, text)

def token (text : List UInt8) : Token × List UInt8 := tokenFrom .init [] [] text

/-- Does `p` hold of the flags, the arguments and the word in front of a character of
the call, and of this character? -/
def somewhere (p : Flags → List (List UInt8) → List UInt8 → UInt8 → Bool) (f : Flags)
    (args : List (List UInt8)) (word : List UInt8) : List UInt8 → Bool
  | [] => false
  | ch :: text =>
    p f args word ch ||
      match scan f args ch with
      | .go f => somewhere p f args (word ++ [ch]) text
      | .start f => somewhere p f args [ch] text
      | .startNext f => somewhere p f args [] text
      | .found f =>
        let args := args ++ [copyWord word.length (word ++ [ch])]
        match wordEnd args ch with
        | some _ => false
        | none => somewhere p f args (word ++ [ch]) text
      | .ret _ => false

/-- Is there a character in the call that is as far from `start` as the buffer is long?
`start` is where the call begins, a word begins, or the `#` of a comment stands. -/
def tooLong (text : List UInt8) : Bool :=
  somewhere (fun _ _ word _ => word.length == confBuffer) .init [] [] text

/-! ## The buffer of a load -/

/-- `cf->conf_file` and its buffer: the bytes from `b->start` to `b->last`, the
place of `b->pos` among them, and the offset of the file. -/
structure ConfFile where
  data : List UInt8
  pos : Nat
  offset : Nat

/-- A file that was opened. -/
def ConfFile.opened : ConfFile := ⟨[], 0, 0⟩

/-- The bytes from `start` on are moved to the front and the buffer is filled. -/
def refill (content : List UInt8) (b : ConfFile) (start : Nat) : ConfFile :=
  let len := b.pos - start
  let size := min (content.length - b.offset) (confBuffer - len)
  { data := (b.data.drop start).take len ++ (content.drop b.offset).take size
    pos := len
    offset := b.offset + size }

/-- The file and `start` with a character in the buffer, or what is returned if
there is none. -/
def fill (content : List UInt8) (b : ConfFile) (start : Nat) (f : Flags)
    (args : List (List UInt8)) : Except Token (ConfFile × Nat) :=
  if b.pos ≥ b.data.length then
    if b.offset ≥ content.length then .error (endOfFile f args)
    else if b.pos - start = confBuffer then .error .error
    else .ok (refill content b start, 0)
  else .ok (b, start)

/-- The loop of `ngx_dynamic_conf_read_token`, with fuel. -/
def readFrom (content : List UInt8) :
    Nat → ConfFile → Nat → Flags → List (List UInt8) → Option (Token × ConfFile)
  | 0, _, _, _, _ => none
  | fuel + 1, b, start, f, args =>
    match fill content b start f args with
    | .error t => some (t, b)
    | .ok (b, start) =>
      let ch := b.data.getD b.pos 0
      let b := { b with pos := b.pos + 1 }
      match scan f args ch with
      | .go f => readFrom content fuel b start f args
      | .start f => readFrom content fuel b (b.pos - 1) f args
      | .startNext f => readFrom content fuel b b.pos f args
      | .found f =>
        let args := args ++ [copyWord (b.pos - 1 - start) (b.data.drop start)]
        match wordEnd args ch with
        | some t => some (t, b)
        | none => readFrom content fuel b start f args
      | .ret t => some (t, b)

/-- `ngx_dynamic_conf_read_token`. -/
def readToken (content : List UInt8) (b : ConfFile) : Option (Token × ConfFile) :=
  readFrom content (content.length + 1) b b.pos .init []

/-! ## The copy of a word -/

/-- The byte that a known escape stands for. -/
def escaped (next : UInt8) : Option UInt8 :=
  if next = 34 ∨ next = 39 ∨ next = 92 then some next
  else if next = 116 then some 9
  else if next = 114 then some 13
  else if next = 110 then some 10
  else none

theorem copyWord_backslash (n : Nat) (next : UInt8) (src : List UInt8) :
    copyWord (n + 1) (92 :: next :: src) =
      match escaped next with
      | some ch => ch :: copyWord (n - 1) src
      | none => 92 :: copyWord n (next :: src) := by
  rw [copyWord, if_pos rfl]
  unfold escaped
  split
  · rfl
  split
  · rfl
  split
  · rfl
  split <;> rfl

theorem copyWord_plain {n : Nat} {ch : UInt8} {src : List UInt8} (hch : ch ≠ 92)
    (hsrc : src ≠ []) : copyWord (n + 1) (ch :: src) = ch :: copyWord n src := by
  obtain ⟨next, src, rfl⟩ := List.exists_cons_of_ne_nil hsrc
  rw [copyWord, if_neg hch]

theorem copyWord_take (n : Nat) (src : List UInt8) :
    copyWord n (src.take (n + 1)) = copyWord n src := by
  induction n using Nat.strong_induction_on generalizing src with
  | _ n ih =>
  cases n with
  | zero => rw [copyWord, copyWord]
  | succ n =>
    match src with
    | [] => rfl
    | [ch] => rfl
    | ch :: next :: src =>
      have hnext := ih n (by omega) (next :: src)
      have hsrc : copyWord (n - 1) (src.take n) = copyWord (n - 1) src := by
        cases n with
        | zero => rw [copyWord, copyWord]
        | succ n => exact ih n (by omega) src
      rw [List.take_succ_cons, List.take_succ_cons]
      rw [List.take_succ_cons] at hnext
      rw [copyWord, copyWord, hsrc, hnext]

/-! ## What the buffer holds -/

/-- The buffer holds the bytes `word` from `start` on, and behind them comes `text`. -/
structure At (content : List UInt8) (b : ConfFile) (start : Nat) (word text : List UInt8) :
    Prop where
  start_le : start ≤ b.pos
  pos_le : b.pos ≤ b.data.length
  data_le : b.data.length ≤ confBuffer
  data_le_offset : b.data.length ≤ b.offset
  offset_le : b.offset ≤ content.length
  word : word = (b.data.drop start).take (b.pos - start)
  text : text = b.data.drop b.pos ++ content.drop b.offset

theorem At.opened (content : List UInt8) : At content .opened ConfFile.opened.pos [] content :=
  ⟨Nat.le_refl _, Nat.le_refl _, Nat.zero_le _, Nat.le_refl _, Nat.zero_le _, rfl, rfl⟩

section
variable {content word text : List UInt8} {b : ConfFile} {start : Nat} {ch : UInt8} {f : Flags}
  {args : List (List UInt8)}

theorem At.word_length (h : At content b start word text) : word.length = b.pos - start := by
  have h1 := h.start_le
  have h2 := h.pos_le
  rw [h.word, List.length_take, List.length_drop]
  omega

theorem At.fill_nil (h : At content b start word []) :
    fill content b start f args = .error (endOfFile f args) := by
  obtain ⟨hdata, hfile⟩ := List.append_eq_nil_iff.mp h.text.symm
  unfold fill
  rw [if_pos (List.drop_eq_nil_iff.mp hdata), if_pos (List.drop_eq_nil_iff.mp hfile)]

theorem At.fill_full (h : At content b start word (ch :: text)) (hw : word.length = confBuffer) :
    fill content b start f args = .error .error := by
  have hlen := h.word_length
  have h1 := h.pos_le
  have h2 := h.data_le
  have hpos : b.pos ≥ b.data.length := by omega
  have hfile : ¬ b.offset ≥ content.length := fun hge => by
    have htext := h.text
    rw [List.drop_eq_nil_of_le hpos, List.drop_eq_nil_of_le hge] at htext
    cases htext
  unfold fill
  rw [if_pos hpos, if_neg hfile, if_pos (by omega)]

variable (f args) in
/-- If the buffer is at its end, a refill brings the next character. -/
theorem At.fill_next (h : At content b start word (ch :: text)) (hw : word.length ≠ confBuffer) :
    ∃ b' start', fill content b start f args = .ok (b', start') ∧
      At content b' start' word (ch :: text) ∧ b'.pos < b'.data.length := by
  have hlen := h.word_length
  have h1 := h.start_le
  have h2 := h.pos_le
  have h3 := h.data_le
  unfold fill
  by_cases hpos : b.pos ≥ b.data.length
  · have hfile : ¬ b.offset ≥ content.length := fun hge => by
      have htext := h.text
      rw [List.drop_eq_nil_of_le hpos, List.drop_eq_nil_of_le hge] at htext
      cases htext
    rw [if_pos hpos, if_neg hfile, if_neg (by omega)]
    refine ⟨_, _, rfl, ?_, ?_⟩
    · have hmoved : ((b.data.drop start).take (b.pos - start)).length = b.pos - start := by
        rw [← h.word]
        exact hlen
      have h4 := h.data_le_offset
      refine ⟨Nat.zero_le _, ?_, ?_, ?_, ?_, ?_, ?_⟩
      · simp only [refill, List.length_append, hmoved]
        omega
      · simp only [refill, List.length_append, hmoved, List.length_take, List.length_drop]
        omega
      · simp only [refill, List.length_append, hmoved, List.length_take, List.length_drop]
        omega
      · simp only [refill]
        omega
      · rw [h.word]
        simp only [refill, List.drop_zero, Nat.sub_zero]
        exact (List.take_left' hmoved).symm
      · simp only [refill]
        rw [List.drop_left' hmoved, ← List.drop_drop, List.take_append_drop, h.text,
          List.drop_eq_nil_of_le hpos, List.nil_append]
    · simp only [refill, List.length_append, List.length_take, List.length_drop]
      omega
  · rw [if_neg hpos]
    exact ⟨b, start, rfl, h, by omega⟩

/-- The next character is read. -/
theorem At.read (h : At content b start word (ch :: text)) (hpos : b.pos < b.data.length) :
    b.data.getD b.pos 0 = ch ∧ At content { b with pos := b.pos + 1 } start (word ++ [ch]) text ∧
      copyWord (b.pos - start) (b.data.drop start) = copyWord word.length (word ++ [ch]) := by
  have h1 := h.start_le
  have htext := h.text
  rw [List.drop_eq_getElem_cons hpos, List.cons_append, List.cons.injEq] at htext
  have hword : word ++ [ch] = (b.data.drop start).take (b.pos - start + 1) := by
    have hlt : b.pos - start < (b.data.drop start).length := by
      rw [List.length_drop]
      omega
    rw [List.take_succ_eq_append_getElem hlt, ← h.word, List.getElem_drop, htext.1]
    congr 3
    omega
  refine ⟨?_, ⟨Nat.le_succ_of_le h1, hpos, h.data_le, h.data_le_offset, h.offset_le, ?_,
    htext.2⟩, ?_⟩
  · rw [List.getD_eq_getElem _ _ hpos]
    exact htext.1.symm
  · rw [hword]
    show _ = (b.data.drop start).take (b.pos + 1 - start)
    rw [Nat.succ_sub h1]
  · rw [hword, h.word_length, copyWord_take]

/-- `start` is set to the place of the buffer, or to the character before it. -/
theorem At.restart (h : At content b start word text) : At content b b.pos [] text := by
  refine ⟨Nat.le_refl _, h.pos_le, h.data_le, h.data_le_offset, h.offset_le, ?_, h.text⟩
  rw [Nat.sub_self, List.take_zero]

theorem At.restartAt (h : At content b start (word ++ [ch]) text) :
    At content b (b.pos - 1) [ch] text := by
  have h1 := h.start_le
  have h2 := h.pos_le
  have hlen := h.word_length
  rw [List.length_append, List.length_singleton] at hlen
  refine ⟨Nat.sub_le _ _, h2, h.data_le, h.data_le_offset, h.offset_le, ?_, h.text⟩
  have hfrom : start + word.length = b.pos - 1 := by omega
  have hlong : b.pos - start - word.length = b.pos - (b.pos - 1) := by omega
  have hdrop : (word ++ [ch]).drop word.length = [ch] := List.drop_left
  rw [← hdrop, h.word, List.drop_take, List.drop_drop, hfrom, hlong]

/-- **The loop does what the automaton does, or the text is too long for the buffer.** -/
theorem readFrom_eq {fuel : Nat} (h : At content b start word text) (hfuel : text.length < fuel) :
    ∃ b', (somewhere (fun _ _ word _ => word.length == confBuffer) f args word text = true ∧
        readFrom content fuel b start f args = some (.error, b')) ∨
      (somewhere (fun _ _ word _ => word.length == confBuffer) f args word text = false ∧
        readFrom content fuel b start f args = some ((tokenFrom f args word text).1, b') ∧
        At content b' b'.pos [] (tokenFrom f args word text).2) := by
  induction text generalizing b start word f args fuel with
  | nil =>
    obtain _ | fuel := fuel
    · omega
    refine ⟨b, .inr ⟨rfl, ?_, h.restart⟩⟩
    rw [readFrom, h.fill_nil]
    rfl
  | cons ch text ih =>
    obtain _ | fuel := fuel
    · omega
    rw [List.length_cons] at hfuel
    rw [readFrom, somewhere, tokenFrom]
    by_cases hw : word.length = confBuffer
    · refine ⟨b, .inl ⟨?_, ?_⟩⟩
      · rw [hw, beq_self_eq_true, Bool.true_or]
      · rw [h.fill_full hw]
    obtain ⟨b₁, start₁, hfill, h₁, hpos⟩ := h.fill_next f args hw
    obtain ⟨hch, hread, hcopy⟩ := h₁.read hpos
    rw [hfill, beq_false_of_ne hw, Bool.false_or]
    dsimp only
    rw [hch]
    cases hmove : scan f args ch with
    | go f => exact ih hread (by omega)
    | start f => exact ih hread.restartAt (by omega)
    | startNext f => exact ih hread.restart (by omega)
    | found f =>
      dsimp only
      rw [Nat.add_sub_cancel, hcopy]
      cases wordEnd (args ++ [copyWord word.length (word ++ [ch])]) ch with
      | none => exact ih hread (by omega)
      | some t => exact ⟨_, .inr ⟨rfl, rfl, hread.restart⟩⟩
    | ret t => exact ⟨_, .inr ⟨rfl, rfl, hread.restart⟩⟩

end

/-- The function on the text in front of it. -/
theorem readToken_eq {content text : List UInt8} {b : ConfFile}
    (h : At content b b.pos [] text) : ∃ b',
    (tooLong text = true ∧ readToken content b = some (.error, b')) ∨
      (tooLong text = false ∧ readToken content b = some ((token text).1, b') ∧
        At content b' b'.pos [] (token text).2) := by
  have hlen : text.length ≤ content.length := by
    have h1 := h.data_le_offset
    have h2 := h.offset_le
    rw [h.text, List.length_append, List.length_drop, List.length_drop]
    omega
  exact readFrom_eq h (Nat.lt_succ_of_le hlen)

end NgxToolkit.DynamicConf
