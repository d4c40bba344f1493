import Mathlib
import NgxToolkit.DynamicConfToken

/-! The words of a call of `ngx_dynamic_conf_read_token`, and the loop that copies them
on the level of its pointers.

`readWords` is the call with the places of its words in the buffer, and with reads of
the file that may fail.  The automaton and the loop both take a backslash together with
the byte behind it: `backslash` says of a word whether its last byte is one that still
waits for this byte.

* `scan_fits`: what one character of the automaton keeps.
* `unescape_stops`: the loop on a word whose backslashes are all in front of a byte.
* `readWordsFrom_spec`: one call, with what `cf->args` holds when it returns.
* `readWords_exact`: every call for a file copies its words exactly. -/

namespace NgxToolkit.DynamicConf

/-! ## The functions of the source -/

/-- What the loop that copies a word has done: where `src` has stopped, the bytes behind
`dst`, `len`, and the places of the buffer that were read. -/
structure Copied where
  src : Nat
  dst : List UInt8
  len : Nat
  reads : List Nat
deriving DecidableEq

/-- A round of the loop in front of `c`. -/
def Copied.after (ch : UInt8) (reads : List Nat) (c : Copied) : Copied :=
  ⟨c.src, ch :: c.dst, c.len + 1, reads ++ c.reads⟩

/-- The loop that copies a word from `src` on; `last` is `b->pos - 1`.  Every round moves
`src`, so that fuel for the bytes that are left is enough. -/
def unescape (data : List UInt8) (last : Nat) : Nat → Nat → Copied
  | 0, src => ⟨src, [], 0, []⟩
  | fuel + 1, src =>
    if src < last then
      let ch := data.getD src 0
      if ch = 92 then
        let next := data.getD (src + 1) 0
        if next = 34 ∨ next = 39 ∨ next = 92 then
          -- `src++` and `*dst++ = *src++`
          (unescape data last fuel (src + 2)).after next [src, src + 1, src + 1]
        else if next = 116 then (unescape data last fuel (src + 2)).after 9 [src, src + 1]
        else if next = 114 then (unescape data last fuel (src + 2)).after 13 [src, src + 1]
        else if next = 110 then (unescape data last fuel (src + 2)).after 10 [src, src + 1]
        else (unescape data last fuel (src + 1)).after ch [src, src + 1, src]
      else (unescape data last fuel (src + 1)).after ch [src, src]
    else ⟨src, [], 0, []⟩

/-- A word that ends: the bytes of the buffer, `start` and `b->pos - 1`. -/
structure Word where
  data : List UInt8
  start : Nat
  last : Nat

def Word.bytes (w : Word) : List UInt8 := copyWord (w.last - w.start) (w.data.drop w.start)

def Word.copied (w : Word) : Copied := unescape w.data w.last (w.last - w.start) w.start

/-- What `ngx_pnalloc` is asked for. -/
def Word.alloc (w : Word) : Nat := w.last - w.start + 1

/-- The loop of `ngx_dynamic_conf_read_token` with the words of `cf->args`; `readOk` says
at which offsets `ngx_read_file` reads all that it is asked for. -/
def readWordsFrom (content : List UInt8) (readOk : Nat → Bool) :
    Nat → ConfFile → Nat → Flags → List Word → Option (Token × List Word × ConfFile)
  | 0, _, _, _, _ => none
  | fuel + 1, b, start, f, words =>
    match fill content b start f (words.map Word.bytes) with
    | .error t => some (t, words, b)
    | .ok (b', start) =>
      if b.data.length ≤ b.pos ∧ readOk b.offset = false then some (.error, words, b)
      else
        let ch := b'.data.getD b'.pos 0
        let b := { b' with pos := b'.pos + 1 }
        match scan f (words.map Word.bytes) ch with
        | .go f => readWordsFrom content readOk fuel b start f words
        | .start f => readWordsFrom content readOk fuel b (b.pos - 1) f words
        | .startNext f => readWordsFrom content readOk fuel b b.pos f words
        | .found f =>
          let words := words ++ [⟨b.data, start, b.pos - 1⟩]
          match wordEnd (words.map Word.bytes) ch with
          | some t => some (t, words, b)
          | none => readWordsFrom content readOk fuel b start f words
        | .ret t => some (t, words, b)

/-- A call of `ngx_dynamic_conf_read_token`. -/
def readWords (content : List UInt8) (readOk : Nat → Bool) (b : ConfFile) :
    Option (Token × List Word × ConfFile) :=
  readWordsFrom content readOk (content.length + 1) b b.pos .init []

/-- The buffer of a load between two calls. -/
inductive Between (content : List UInt8) : ConfFile → Prop where
  | opened : Between content .opened
  | next {b b' : ConfFile} {t : Token} (hb : Between content b)
      (h : readToken content b = some (t, b')) (hlast : t.last = false) : Between content b'

theorem map_bytes_concat (words : List Word) (w : Word) :
    (words ++ [w]).map Word.bytes = words.map Word.bytes ++ [w.bytes] :=
  List.map_append

/-- **The loop without the places of the words**, where no read fails. -/
theorem readWordsFrom_eq (content : List UInt8) (fuel : Nat) (b : ConfFile) (start : Nat)
    (f : Flags) (words : List Word) :
    (readWordsFrom content (fun _ => true) fuel b start f words).map (fun r => (r.1, r.2.2)) =
      readFrom content fuel b start f (words.map Word.bytes) := by
  induction fuel generalizing b start f words with
  | zero => rfl
  | succ fuel ih =>
    rw [readWordsFrom, readFrom]
    cases fill content b start f (words.map Word.bytes) with
    | error t => rfl
    | ok r =>
      obtain ⟨b', start⟩ := r
      dsimp only
      rw [if_neg (fun h => Bool.noConfusion h.2)]
      cases scan f (words.map Word.bytes) (b'.data.getD b'.pos 0) with
      | go f => exact ih _ _ _ _
      | start f => exact ih _ _ _ _
      | startNext f => exact ih _ _ _ _
      | found f =>
        dsimp only
        rw [map_bytes_concat]
        show _ = match wordEnd (words.map Word.bytes ++
            [Word.bytes ⟨b'.data, start, b'.pos + 1 - 1⟩]) (b'.data.getD b'.pos 0) with
          | some t => _
          | none => _
        cases wordEnd (words.map Word.bytes ++ [Word.bytes ⟨b'.data, start, b'.pos + 1 - 1⟩])
          (b'.data.getD b'.pos 0) with
        | some t => rfl
        | none =>
          dsimp only
          rw [ih, map_bytes_concat]
          rfl
      | ret t => rfl

theorem readWords_eq (content : List UInt8) (b : ConfFile) :
    (readWords content (fun _ => true) b).map (fun r => (r.1, r.2.2)) = readToken content b :=
  readWordsFrom_eq content _ b b.pos .init []

theorem Between.at_pos {content : List UInt8} {b : ConfFile} (h : Between content b) :
    ∃ text, At content b b.pos [] text := by
  induction h with
  | opened => exact ⟨content, .opened content⟩
  | @next b b' t hb hread hlast ih =>
    obtain ⟨text, hat⟩ := ih
    obtain ⟨b'', ⟨-, heq⟩ | ⟨-, heq, hnext⟩⟩ := readToken_eq hat
    · rw [hread] at heq
      cases heq
      cases hlast
    · rw [hread] at heq
      cases heq
      exact ⟨_, hnext⟩

/-! ## Backslashes -/

/-- Is the last byte a backslash that does not stand behind another such backslash? -/
def backslash (word : List UInt8) : Bool := word.foldl (fun quoted ch => !quoted && ch == 92) false

@[simp] theorem backslash_concat (word : List UInt8) (ch : UInt8) :
    backslash (word ++ [ch]) = (!backslash word && ch == 92) := by
  simp only [backslash, List.foldl_append, List.foldl_cons, List.foldl_nil]

theorem backslash_single (ch : UInt8) : backslash [ch] = (ch == 92) := rfl

theorem backslash_cons {ch : UInt8} (hch : ch ≠ 92) (word : List UInt8) :
    backslash (ch :: word) = backslash word := by
  unfold backslash
  rw [List.foldl_cons, beq_false_of_ne hch]
  rfl

theorem backslash_pair (next : UInt8) (word : List UInt8) :
    backslash (92 :: next :: word) = backslash word := rfl

/-- The flags in front of the next character: only in a word do they tell whether a
backslash waits for it, and a word has ended where a space is needed. -/
structure Fits (f : Flags) (args : List (List UInt8)) (word : List UInt8) : Prop where
  inside : f.lastSpace = false → f.needSpace = false → f.quoted = backslash word
  outside : f.lastSpace = true ∨ f.needSpace = true → f.quoted = false
  comment : f.sharpComment = true → f.lastSpace = true ∧ f.needSpace = false
  args : f.needSpace = true → args ≠ []

/-- What the call says about its arguments with the token that it returns. -/
def Token.Holds (args : List (List UInt8)) : Token → Prop
  | .ok args' | .blockStart args' => args' = args ∧ args ≠ []
  | .blockDone | .fileDone => args = []
  | .error => True

/-- What a move leaves behind the character `ch`. -/
def Move.Fits (args : List (List UInt8)) (word : List UInt8) (ch : UInt8) : Move → Prop
  | .go f => DynamicConf.Fits f args (word ++ [ch])
  | .start f => DynamicConf.Fits f args [ch]
  | .startNext f => DynamicConf.Fits f args []
  | .found f => backslash word = false ∧
      ∀ args', args' ≠ [] → DynamicConf.Fits f args' (word ++ [ch])
  | .ret t => t.Holds args

section
variable {f : Flags} {args : List (List UInt8)} {word : List UInt8} {ch : UInt8}

theorem fits_init : Fits .init [] [] :=
  ⟨fun h => Bool.noConfusion h, fun _ => rfl, fun h => Bool.noConfusion h,
    fun h => Bool.noConfusion h⟩

/-- Behind a space every byte is behind the words. -/
theorem Fits.of_space (hl : f.lastSpace = true) (hn : f.needSpace = false)
    (hq : f.quoted = false) (args : List (List UInt8)) (word : List UInt8) : Fits f args word :=
  ⟨fun h => absurd (hl.symm.trans h) (by decide), fun _ => hq, fun _ => ⟨hl, hn⟩,
    fun h => absurd (hn.symm.trans h) (by decide)⟩

/-- In a word that is not a comment. -/
theorem Fits.of_word (hl : f.lastSpace = false) (hn : f.needSpace = false)
    (hs : f.sharpComment = false) (hq : f.quoted = backslash word) (args : List (List UInt8)) :
    Fits f args word :=
  ⟨fun _ _ => hq, fun h => (by rcases h with h | h <;> simp_all),
    fun h => absurd (hs.symm.trans h) (by decide), fun h => absurd (hn.symm.trans h) (by decide)⟩

/-- Behind a closing quote. -/
theorem Fits.of_need (hn : f.needSpace = true) (hs : f.sharpComment = false)
    (hq : f.quoted = false) (hargs : args ≠ []) (word : List UInt8) : Fits f args word :=
  ⟨fun _ h => absurd (hn.symm.trans h) (by decide), fun _ => hq,
    fun h => absurd (hs.symm.trans h) (by decide), fun _ => hargs⟩

theorem scanSpace_fits (hl : f.lastSpace = true) (hn : f.needSpace = false)
    (hs : f.sharpComment = false) (hq : f.quoted = false) :
    (scanSpace f args ch).Fits args word ch := by
  obtain ⟨needSpace, lastSpace, sharpComment, isVariable, quoted, sQuoted, dQuoted⟩ := f
  dsimp only at hl hn hs hq
  subst hl hn hs hq
  unfold scanSpace
  split
  · exact .of_space rfl rfl rfl _ _
  split
  · split
    · trivial
    · next hargs => split <;> exact ⟨rfl, hargs⟩
  split
  · split
    · assumption
    · trivial
  split
  · exact .of_space rfl rfl rfl _ _
  split
  · next hch =>
    refine .of_word rfl rfl rfl ?_ _
    rw [hch]
    rfl
  split
  · exact .of_word rfl rfl rfl rfl _
  split
  · exact .of_word rfl rfl rfl rfl _
  · next hch _ _ =>
    refine .of_word rfl rfl rfl ?_ _
    rw [backslash_single, beq_false_of_ne hch]

theorem scanWord_fits (hl : f.lastSpace = false) (hn : f.needSpace = false)
    (hs : f.sharpComment = false) (hq : f.quoted = false) (hw : backslash word = false) :
    (scanWord f ch).Fits args word ch := by
  obtain ⟨needSpace, lastSpace, sharpComment, isVariable, quoted, sQuoted, dQuoted⟩ := f
  dsimp only at hl hn hs hq
  subst hl hn hs hq
  -- where `ch` is no backslash, none waits behind it
  have hplain : ch ≠ 92 → false = backslash (word ++ [ch]) := fun hch => by
    rw [backslash_concat, beq_false_of_ne hch, Bool.and_false]
  unfold scanWord
  split
  · next h => exact .of_word rfl rfl rfl (hplain (by rw [h.1]; decide)) _
  dsimp only
  split
  · next hch =>
    refine .of_word rfl rfl rfl ?_ _
    rw [backslash_concat, hw, hch]
    rfl
  next hch =>
  split
  · exact .of_word rfl rfl rfl (hplain hch) _
  split
  · split
    · exact ⟨hw, fun args' hargs => .of_need rfl rfl rfl hargs _⟩
    · exact .of_word rfl rfl rfl (hplain hch) _
  split
  · split
    · exact ⟨hw, fun args' hargs => .of_need rfl rfl rfl hargs _⟩
    · exact .of_word rfl rfl rfl (hplain hch) _
  split
  · exact ⟨hw, fun args' _ => .of_space rfl rfl rfl _ _⟩
  · exact .of_word rfl rfl rfl (hplain hch) _

/-- **One character.**  The flags keep to the backslashes of the word, a word ends only
where none of them waits, and a call returns with the arguments that its token says. -/
theorem scan_fits (ch : UInt8) (h : Fits f args word) : (scan f args ch).Fits args word ch := by
  have hnewline : Fits (if ch = 10 then { f with sharpComment := false } else f) args word := by
    split
    · exact ⟨h.inside, h.outside, fun hs => Bool.noConfusion hs, h.args⟩
    · exact h
  unfold scan
  dsimp only
  generalize (if ch = 10 then { f with sharpComment := false } else f) = g at hnewline ⊢
  clear h
  obtain ⟨needSpace, lastSpace, sharpComment, isVariable, quoted, sQuoted, dQuoted⟩ := g
  obtain ⟨hinside, houtside, hcomment, hargs⟩ := hnewline
  dsimp only at hinside houtside hcomment hargs
  cases sharpComment with
  | true =>
    obtain ⟨rfl, rfl⟩ := hcomment rfl
    exact .of_space rfl rfl (houtside (.inl rfl)) _ _
  | false =>
    cases needSpace with
    | true =>
      obtain rfl : quoted = false := houtside (.inr rfl)
      rw [if_neg Bool.false_ne_true, if_neg Bool.false_ne_true, if_pos rfl]
      split
      · exact .of_space rfl rfl rfl _ _
      split
      · exact ⟨rfl, hargs rfl⟩
      split
      · exact ⟨rfl, hargs rfl⟩
      split
      · exact scanSpace_fits rfl rfl rfl rfl
      · trivial
    | false =>
      cases lastSpace with
      | true =>
        obtain rfl : quoted = false := houtside (.inl rfl)
        exact scanSpace_fits rfl rfl rfl rfl
      | false =>
        have hquoted : quoted = backslash word := hinside rfl rfl
        cases quoted with
        | true =>
          -- the byte behind a backslash
          refine .of_word rfl rfl rfl ?_ _
          rw [backslash_concat, ← hquoted]
          rfl
        | false => exact scanWord_fits rfl rfl rfl rfl hquoted.symm

end

/-! ## The loop on a word -/

/-- The loop from `src` on has stopped at the end of the word, has read bytes of the word
only, and has written `len` bytes, as many as the word has at most. -/
structure Stops (data : List UInt8) (last src : Nat) (c : Copied) : Prop where
  stop : c.src = last
  reads : ∀ p ∈ c.reads, src ≤ p ∧ p < last
  len : c.dst.length = c.len
  fits : c.len ≤ last - src
  bytes : c.dst = copyWord (last - src) (data.drop src)

section
variable {data : List UInt8} {last src src' : Nat} {c : Copied}

/-- A round at a backslash takes both bytes of a known escape, or the backslash only. -/
theorem unescape_backslash (fuel : Nat) (hlt : src < last) (hch : data.getD src 0 = 92) :
    ∃ reads, (∀ p ∈ reads, p = src ∨ p = src + 1) ∧
      unescape data last (fuel + 1) src =
        match escaped (data.getD (src + 1) 0) with
        | some ch => (unescape data last fuel (src + 2)).after ch reads
        | none => (unescape data last fuel (src + 1)).after 92 reads := by
  rw [unescape, if_pos hlt, hch]
  dsimp only
  rw [if_pos rfl]
  unfold escaped
  split
  · exact ⟨[src, src + 1, src + 1], by simp, rfl⟩
  split
  · exact ⟨[src, src + 1], by simp, rfl⟩
  split
  · exact ⟨[src, src + 1], by simp, rfl⟩
  split
  · exact ⟨[src, src + 1], by simp, rfl⟩
  · exact ⟨[src, src + 1, src], by simp, rfl⟩

theorem unescape_plain (fuel : Nat) (hlt : src < last) (hch : data.getD src 0 ≠ 92) :
    unescape data last (fuel + 1) src =
      (unescape data last fuel (src + 1)).after (data.getD src 0) [src, src] := by
  rw [unescape, if_pos hlt]
  exact if_neg hch

theorem Stops.end (data : List UInt8) (last : Nat) : Stops data last last ⟨last, [], 0, []⟩ := by
  refine ⟨rfl, fun p hp => (by cases hp), rfl, Nat.zero_le _, ?_⟩
  rw [Nat.sub_self, copyWord]

theorem Stops.after (h : Stops data last src' c) (hlt : src < src') (hle : src' ≤ last)
    {ch : UInt8} {reads : List Nat} (hreads : ∀ p ∈ reads, src ≤ p ∧ p < last)
    (hcopy : copyWord (last - src) (data.drop src) =
      ch :: copyWord (last - src') (data.drop src')) :
    Stops data last src (c.after ch reads) := by
  refine ⟨h.stop, fun p hp => ?_, ?_, ?_, ?_⟩
  · rcases List.mem_append.mp hp with hp | hp
    · exact hreads p hp
    · have := h.reads p hp
      omega
  · show c.dst.length + 1 = c.len + 1
    rw [h.len]
  · show c.len + 1 ≤ last - src
    have := h.fits
    omega
  · show ch :: c.dst = _
    rw [h.bytes, hcopy]

/-- **The loop and the automaton agree.**  If no backslash waits at the end of the word,
the loop stops at its end. -/
theorem unescape_stops {fuel : Nat} (hlast : last < data.length) (hsrc : src ≤ last)
    (hfuel : last - src ≤ fuel) (hword : backslash ((data.drop src).take (last - src)) = false) :
    Stops data last src (unescape data last fuel src) := by
  induction fuel generalizing src with
  | zero =>
    obtain rfl : src = last := by omega
    exact .end data src
  | succ fuel ih =>
    by_cases hlt : src < last
    swap
    · rw [unescape, if_neg hlt]
      obtain rfl : src = last := by omega
      exact .end data src
    have hfirst : data.getD src 0 = data[src] := List.getD_eq_getElem _ _ (by omega)
    have hsecond : data.getD (src + 1) 0 = data[src + 1] := List.getD_eq_getElem _ _ (by omega)
    have hdrop : data.drop src = data[src] :: data.drop (src + 1) :=
      List.drop_eq_getElem_cons (by omega)
    have hdrop' : data.drop (src + 1) = data[src + 1] :: data.drop (src + 2) :=
      List.drop_eq_getElem_cons (by omega)
    have hlen : last - src = last - (src + 1) + 1 := by omega
    rw [hlen, hdrop, List.take_succ_cons] at hword
    by_cases hch : data.getD src 0 = 92
    · rw [← hfirst, hch] at hword hdrop
      -- the word goes on behind the backslash
      have hnext : src + 1 ≠ last := by
        rintro rfl
        rw [Nat.sub_self, List.take_zero] at hword
        cases hword
      have hlen' : last - (src + 1) = last - (src + 2) + 1 := by omega
      rw [hlen', hdrop', List.take_succ_cons, backslash_pair] at hword
      obtain ⟨reads, hreads, hround⟩ := unescape_backslash fuel hlt hch
      have hin : ∀ p ∈ reads, src ≤ p ∧ p < last := fun p hp => by
        have := hreads p hp
        omega
      have hcopy := copyWord_backslash (last - (src + 1)) data[src + 1] (data.drop (src + 2))
      rw [← hdrop', ← hdrop, ← hlen] at hcopy
      rw [hround, hsecond]
      cases hesc : escaped data[src + 1] with
      | some ch =>
        rw [hesc] at hcopy
        exact (ih (by omega) (by omega) hword).after (by omega) (by omega) hin hcopy
      | none =>
        -- an unknown sign is copied with its backslash, and is none itself
        rw [hesc] at hcopy
        have hplain : data[src + 1] ≠ 92 := fun h => by
          rw [h] at hesc
          cases hesc
        have hword' : backslash ((data.drop (src + 1)).take (last - (src + 1))) = false := by
          rw [hlen', hdrop', List.take_succ_cons, backslash_cons hplain]
          exact hword
        exact (ih (by omega) (by omega) hword').after (by omega) (by omega) hin hcopy
    · rw [unescape_plain fuel hlt hch, hfirst]
      rw [hfirst] at hch
      rw [backslash_cons hch] at hword
      refine (ih (by omega) (by omega) hword).after (by omega) (by omega) (by simp [hlt]) ?_
      rw [hlen, hdrop]
      exact copyWord_plain hch (by rw [hdrop']; exact List.cons_ne_nil _ _)

end

/-- The loop has copied the word as it should: it has stopped at the end of the word and
read nothing behind it, and its bytes fit into the allocation with the NUL. -/
structure Word.Exact (w : Word) : Prop where
  inside : w.start ≤ w.last ∧ w.last < w.data.length
  stops : Stops w.data w.last w.start w.copied
  alloc : w.copied.len + 1 ≤ w.alloc

/-! ## Calls -/

section
variable {content word text : List UInt8} {b : ConfFile} {start : Nat} {ch : UInt8} {f : Flags}
  {words : List Word}

/-- A word that ends with the next character. -/
theorem At.exact (h : At content b start word (ch :: text)) (hpos : b.pos < b.data.length)
    (hw : backslash word = false) : Word.Exact ⟨b.data, start, b.pos⟩ := by
  have hstops : Stops b.data b.pos start (unescape b.data b.pos (b.pos - start) start) := by
    refine unescape_stops hpos h.start_le (Nat.le_refl _) ?_
    rw [← h.word]
    exact hw
  exact ⟨⟨h.start_le, hpos⟩, hstops, Nat.succ_le_succ hstops.fits⟩

theorem endOfFile_holds (f : Flags) (args : List (List UInt8)) :
    (endOfFile f args).Holds args := by
  unfold endOfFile
  split
  · trivial
  · next h => exact not_not.mp (not_or.mp h).1

theorem wordEnd_holds {args : List (List UInt8)} (hargs : args ≠ []) {t : Token}
    (h : wordEnd args ch = some t) : t.Holds args := by
  unfold wordEnd at h
  split at h
  · cases h
    exact ⟨rfl, hargs⟩
  · split at h
    · cases h
      exact ⟨rfl, hargs⟩
    · cases h

/-- **One call.**  The loop ends, has copied its words as it should, and returns with the
arguments that its token says. -/
theorem readWordsFrom_spec (readOk : Nat → Bool) {fuel : Nat}
    (h : At content b start word text) (hfuel : text.length < fuel)
    (hf : Fits f (words.map Word.bytes) word) (hw : ∀ w ∈ words, w.Exact) :
    ∃ t words' b', readWordsFrom content readOk fuel b start f words = some (t, words', b') ∧
      (∀ w ∈ words', w.Exact) ∧ t.Holds (words'.map Word.bytes) := by
  induction text generalizing b start word f words fuel with
  | nil =>
    obtain _ | fuel := fuel
    · omega
    refine ⟨endOfFile f (words.map Word.bytes), words, b, ?_, hw, endOfFile_holds _ _⟩
    rw [readWordsFrom, h.fill_nil]
  | cons ch text ih =>
    obtain _ | fuel := fuel
    · omega
    rw [List.length_cons] at hfuel
    rw [readWordsFrom]
    by_cases hfull : word.length = confBuffer
    · refine ⟨.error, words, b, ?_, hw, trivial⟩
      rw [h.fill_full hfull]
    obtain ⟨b₁, start₁, hfill, h₁, hpos⟩ := h.fill_next f (words.map Word.bytes) hfull
    obtain ⟨hch, hread, -⟩ := h₁.read hpos
    rw [hfill]
    dsimp only
    by_cases hfail : b.data.length ≤ b.pos ∧ readOk b.offset = false
    · rw [if_pos hfail]
      exact ⟨.error, words, b, rfl, hw, trivial⟩
    rw [if_neg hfail, hch]
    have hmove := scan_fits ch hf
    cases hscan : scan f (words.map Word.bytes) ch with
    | go f' =>
      rw [hscan] at hmove
      exact ih hread (by omega) hmove hw
    | start f' =>
      rw [hscan] at hmove
      exact ih hread.restartAt (by omega) hmove hw
    | startNext f' =>
      rw [hscan] at hmove
      exact ih hread.restart (by omega) hmove hw
    | found f' =>
      rw [hscan] at hmove
      obtain ⟨hword, hfits⟩ := hmove
      dsimp only
      rw [Nat.add_sub_cancel]
      obtain ⟨w, hwe⟩ : ∃ w, w = (⟨b₁.data, start₁, b₁.pos⟩ : Word) := ⟨_, rfl⟩
      rw [← hwe]
      have hargs : (words ++ [w]).map Word.bytes ≠ [] := by
        rw [map_bytes_concat]
        exact List.concat_ne_nil _ _
      have hw' : ∀ w' ∈ words ++ [w], w'.Exact := by
        intro w' hmem
        rcases List.mem_append.mp hmem with hmem | hmem
        · exact hw w' hmem
        · rw [List.mem_singleton.mp hmem, hwe]
          exact h₁.exact hpos hword
      cases hend : wordEnd ((words ++ [w]).map Word.bytes) ch with
      | none => exact ih hread (by omega) (hfits _ hargs) hw'
      | some t => exact ⟨t, _, _, rfl, hw', wordEnd_holds hargs hend⟩
    | ret t =>
      rw [hscan] at hmove
      exact ⟨t, words, _, rfl, hw, hmove⟩

theorem Between.readWords (hb : Between content b) (readOk : Nat → Bool) :
    ∃ t words b', readWords content readOk b = some (t, words, b') ∧ (∀ w ∈ words, w.Exact) ∧
      t.Holds (words.map Word.bytes) := by
  obtain ⟨text, hat⟩ := hb.at_pos
  have hlen : text.length ≤ content.length := by
    have h1 := hat.data_le_offset
    have h2 := hat.offset_le
    rw [hat.text, List.length_append, List.length_drop, List.length_drop]
    omega
  exact readWordsFrom_spec readOk hat (Nat.lt_succ_of_le hlen) fits_init
    fun w hw => (by cases hw)

end

/-- **Copies.**  Every call for a file, whatever reads fail, copies each word that it
ends exactly. -/
theorem readWords_exact (content : List UInt8) (readOk : Nat → Bool) (b : ConfFile)
    (hb : Between content b) : ∃ t words b',
      readWords content readOk b = some (t, words, b') ∧ ∀ w ∈ words, w.Exact := by
  obtain ⟨t, words, b', hread, hexact, -⟩ := hb.readWords readOk
  exact ⟨t, words, b', hread, hexact⟩

/-- The word `\"a\\` with its two pairs, in front of a read that would fail. -/
theorem readWords_exact_pairs : ∃ t words b',
    readWords [92, 34, 97, 92, 92, 59] (fun offset => offset == 0) .opened =
      some (t, words, b') ∧ (words.map Word.bytes = [[34, 97, 92]]) ∧ ∀ w ∈ words, w.Exact := by
  obtain ⟨t, words, b', hread, hexact⟩ :=
    readWords_exact [92, 34, 97, 92, 92, 59] (fun offset => offset == 0) .opened .opened
  refine ⟨t, words, b', hread, ?_, hexact⟩
  cases hread
  decide

end NgxToolkit.DynamicConf
