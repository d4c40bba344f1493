import Mathlib
import NgxToolkit.Lib.Ascii
import NgxToolkit.Lib.Slice

/-! Text to socket address (`ngx_sock_pton` and its three parsers in
`ngx_toolkit_misc.c`).

`Core` holds what nginx core and the system headers provide: the parsers of a
bare address and of a number, and the size of `sun_path`.  `Reads` is the
grammar of the texts with the address each of them stands for.

* `sockPton_inet`, `sockPton_unix`, `sockPton_inet6`: each parser against its
  part of the grammar.
* `sockPton_meets`: the function follows the grammar on all texts but the
  `Portless` ones.
* `sockPton_fits`: the address fits a `struct sockaddr` but for `Overlong` texts. -/

namespace NgxToolkit.ToolkitPton

open Lib

def openBracket : UInt8 := '['.toUInt8
def closeBracket : UInt8 := ']'.toUInt8

/-- `"unix:"`. -/
def unixPrefix : List UInt8 := [117, 110, 105, 120, 58]

/-- nginx core and the system: `ngx_inet_addr` (`none` is `INADDR_NONE`),
`ngx_inet6_addr` (`none` is `NGX_ERROR`), `ngx_atoi` and `sizeof(sun_path)`.
A dotted quad has digits and dots, an IPv6 address no bracket; `ngx_atoi`
returns the number of a decimal text and is negative on any other text. -/
structure Core (α β : Type) where
  inetAddr : List UInt8 → Option α
  inet6Addr : List UInt8 → Option β
  atoi : List UInt8 → Int
  sunPathSize : Nat
  inetAddr_text : ∀ s, (inetAddr s).isSome → ∀ c ∈ s, 48 ≤ c ∧ c ≤ 57 ∨ c = 46
  inet6Addr_text : ∀ s, (inet6Addr s).isSome → closeBracket ∉ s
  atoi_decimal : ∀ s (n : Nat), n ≤ 65535 → (atoi s = n ↔ decimal s = some n)

/-- The address family. -/
inductive Family where
  | unspec
  | unix
  | inet6
  | inet
deriving DecidableEq, Repr

/-- A `struct sockaddr` of any of the three families. -/
structure Sockaddr (α β : Type) where
  family : Family
  sunPath : List UInt8
  sinAddr : Option α
  sin6Addr : Option β
  port : Nat
deriving DecidableEq

variable {α β : Type}

/-- `sizeof(struct sockaddr_un)`. -/
def Core.sizeofUn (core : Core α β) : Nat := core.sunPathSize + 2

/-- `sizeof(struct sockaddr_in6)`. -/
def sizeofIn6 : Nat := 28

/-- `sizeof(struct sockaddr_in)`. -/
def sizeofIn : Nat := 16

/-- `ngx_sock_pton_unix`; `ngx_cpystrn` copies up to the first NUL. -/
def sockPtonUnix (core : Core α β) (sa : Sockaddr α β) (text : List UInt8) :
    Nat × Sockaddr α β :=
  let path := text.drop 5
  let len := text.length - 5
  if len = 0 then (0, sa)
  else if len + 1 > core.sunPathSize then (0, sa)
  else
    (core.sizeofUn,
      { sa with family := .unix, sunPath := (path.take len).takeWhile (· ≠ 0) })

/-- The port at the end of a text, from position `p` on. -/
def setPort (core : Core α β) (sa : Sockaddr α β) (text : List UInt8) (p socklen : Nat) :
    Nat × Sockaddr α β :=
  let port := core.atoi (slice text p text.length)
  if port < 0 ∨ port > 65535 then (0, sa) else (socklen, { sa with port := port.toNat })

/-- `ngx_sock_pton_inet6`. -/
def sockPtonInet6 (core : Core α β) (sa : Sockaddr α β) (text : List UInt8) :
    Nat × Sockaddr α β :=
  let last := text.length
  match find text 0 last closeBracket with
  | none => (0, sa)
  | some p =>
    if p = last - 1 then (0, sa)
    else
      match core.inet6Addr (slice text 1 p) with
      | none => (0, sa)
      | some inaddr6 =>
        let sa := { sa with family := .inet6, sin6Addr := some inaddr6 }
        let p := p + 1
        if text[p]? = some colon then setPort core sa text (p + 1) sizeofIn6
        else (sizeofIn6, sa)

/-- `ngx_sock_pton_inet`. -/
def sockPtonInet (core : Core α β) (sa : Sockaddr α β) (text : List UInt8) :
    Nat × Sockaddr α β :=
  let last := text.length
  let p := find text 0 last colon
  let alen := p.getD last
  match core.inetAddr (slice text 0 alen) with
  | none => (0, sa)
  | some inaddr =>
    let sa := { sa with family := .inet, sinAddr := some inaddr }
    match p with
    | some p => setPort core sa text (p + 1) sizeofIn
    | none => (sizeofIn, sa)

/-- `ngx_sock_pton`. -/
def sockPton (core : Core α β) (sa : Sockaddr α β) (text : List UInt8) : Nat × Sockaddr α β :=
  if text.length ≥ 5 ∧ (text.take 5).map tolower = unixPrefix then sockPtonUnix core sa text
  else if text.head? = some openBracket then sockPtonInet6 core sa text
  else sockPtonInet core sa text

/-! ## The grammar -/

/-- The text stands for the address `sa'`; a port that is not given is that of `sa`. -/
inductive Reads (core : Core α β) (sa : Sockaddr α β) : List UInt8 → Sockaddr α β → Prop
  | unix {p path : List UInt8} : p.map tolower = unixPrefix → path ≠ [] →
      path.length ≤ core.sunPathSize - 1 →
      Reads core sa (p ++ path) { sa with family := .unix, sunPath := path }
  | inet6 {v6 : List UInt8} {a : β} : core.inet6Addr v6 = some a →
      Reads core sa (openBracket :: (v6 ++ [closeBracket]))
        { sa with family := .inet6, sin6Addr := some a }
  | inet6Port {v6 port : List UInt8} {a : β} {n : Nat} : core.inet6Addr v6 = some a →
      decimal port = some n → n ≤ 65535 →
      Reads core sa (openBracket :: (v6 ++ closeBracket :: colon :: port))
        { sa with family := .inet6, sin6Addr := some a, port := n }
  | inet {v4 : List UInt8} {a : α} : core.inetAddr v4 = some a →
      Reads core sa v4 { sa with family := .inet, sinAddr := some a }
  | inetPort {v4 port : List UInt8} {a : α} {n : Nat} : core.inetAddr v4 = some a →
      decimal port = some n → n ≤ 65535 →
      Reads core sa (v4 ++ colon :: port)
        { sa with family := .inet, sinAddr := some a, port := n }

/-- What a call returns is right: an address the text stands for, or a zero
length where it stands for none. -/
def Meets (core : Core α β) (sa : Sockaddr α β) (text : List UInt8) (r : Nat × Sockaddr α β) :
    Prop :=
  (r.1 ≠ 0 → Reads core sa text r.2) ∧ (r.1 = 0 → ∀ sa', ¬ Reads core sa text sa')

/-- The text has a bracketed address that no `:` follows. -/
def Portless (core : Core α β) (text : List UInt8) : Prop :=
  ∃ v6 rest, text = openBracket :: (v6 ++ closeBracket :: rest) ∧
    (core.inet6Addr v6).isSome ∧ rest.head? ≠ some colon

/-! ## Which texts the grammar can read how -/

section
variable {core : Core α β} {sa sa' : Sockaddr α β} {text : List UInt8}

/-- The bytes a text without a bracket and without `unix:` can start with. -/
def QuadStart (c : UInt8) : Prop := 48 ≤ c ∧ c ≤ 57 ∨ c = 46 ∨ c = colon

theorem QuadStart.ne_bracket {c : UInt8} (h : QuadStart c) : c ≠ openBracket := by
  rintro rfl
  revert h
  unfold QuadStart
  decide

theorem QuadStart.tolower_ne {c : UInt8} (h : QuadStart c) : tolower c ≠ 117 := by
  have hlow : tolower c = c := by
    rw [tolower, if_neg]
    rintro ⟨h1, h2⟩
    rcases h with ⟨h3, h4⟩ | rfl | rfl
    · rw [UInt8.le_iff_toNat_le] at h1 h4
      exact absurd (Nat.le_trans h1 h4) (by decide)
    · revert h1
      decide
    · revert h1
      decide
  rw [hlow]
  rintro rfl
  revert h
  unfold QuadStart
  decide

theorem inetAddr_colon {v4 : List UInt8} (h : (core.inetAddr v4).isSome) : colon ∉ v4 := by
  intro hc
  have := core.inetAddr_text v4 h colon hc
  revert this
  decide

theorem inetAddr_start {v4 rest : List UInt8} (h : (core.inetAddr v4).isSome)
    (hr : ∀ c, rest.head? = some c → c = colon) :
    ∀ c, (v4 ++ rest).head? = some c → QuadStart c := by
  intro c hc
  cases v4 with
  | nil => exact Or.inr (Or.inr (hr c hc))
  | cons b v4 =>
    rw [List.cons_append, List.head?_cons] at hc
    cases hc
    rcases core.inetAddr_text _ h c List.mem_cons_self with hd | hd
    · exact Or.inl hd
    · exact Or.inr (Or.inl hd)

theorem inetAddr_head {v4 : List UInt8} (h : (core.inetAddr v4).isSome) :
    ∀ c, v4.head? = some c → QuadStart c := by
  have hs : ∀ c, (v4 ++ []).head? = some c → QuadStart c := inetAddr_start h (by simp)
  rwa [List.append_nil] at hs

theorem unix_length {p : List UInt8} (h : p.map tolower = unixPrefix) : p.length = 5 := by
  have := congrArg List.length h
  rwa [List.length_map] at this

/-- A text starts with `unix:`. -/
theorem unix_iff : (text.length ≥ 5 ∧ (text.take 5).map tolower = unixPrefix) ↔
    ∃ p path, text = p ++ path ∧ p.map tolower = unixPrefix := by
  constructor
  · rintro ⟨-, h⟩
    exact ⟨text.take 5, text.drop 5, (List.take_append_drop 5 text).symm, h⟩
  · rintro ⟨p, path, rfl, h⟩
    have hlen := unix_length h
    refine ⟨by rw [List.length_append]; omega, ?_⟩
    rw [← hlen, List.take_left, h]

theorem unix_head (h : (text.take 5).map tolower = unixPrefix) :
    ∃ c, text.head? = some c ∧ tolower c = 117 := by
  cases text with
  | nil => simp [unixPrefix] at h
  | cons c rest =>
    refine ⟨c, rfl, ?_⟩
    rw [List.take_succ_cons, List.map_cons, unixPrefix, List.cons.injEq] at h
    exact h.1

theorem unix_not_bracket (h : (text.take 5).map tolower = unixPrefix) :
    text.head? ≠ some openBracket := by
  obtain ⟨c, hc, hl⟩ := unix_head h
  rw [hc]
  rintro heq
  cases heq
  revert hl
  decide

/-! ## What reads a text -/

/-- Only the first rule reads a text that starts with `unix:`. -/
theorem Reads.of_unix (hr : Reads core sa text sa') (hu : (text.take 5).map tolower = unixPrefix) :
    0 < text.length - 5 ∧ text.length - 5 ≤ core.sunPathSize - 1 := by
  obtain ⟨c, hc, hlow⟩ := unix_head hu
  cases hr with
  | unix hp hne hlen =>
    have hpl := unix_length hp
    have := List.length_pos_of_ne_nil hne
    rw [List.length_append]
    omega
  | inet6 => exact absurd rfl (unix_not_bracket hu)
  | inet6Port => exact absurd rfl (unix_not_bracket hu)
  | inet ha => exact absurd hlow (inetAddr_head (by rw [ha]; rfl) c hc).tolower_ne
  | inetPort ha _ _ =>
    have hq := inetAddr_start (by rw [ha]; rfl) (fun c hc => by cases hc; rfl) c hc
    exact absurd hlow hq.tolower_ne

/-- What reads a text with neither `unix:` nor a bracket in front. -/
theorem Reads.of_quad (hr : Reads core sa text sa') (hu : (text.take 5).map tolower ≠ unixPrefix)
    (hb : text.head? ≠ some openBracket) :
    (core.inetAddr text).isSome ∨ ∃ v4 port n, text = v4 ++ colon :: port ∧
      (core.inetAddr v4).isSome ∧ n ≤ 65535 ∧ decimal port = some n := by
  cases hr with
  | unix hp hne hlen => exact absurd (unix_iff.mpr ⟨_, _, rfl, hp⟩).2 hu
  | inet6 => exact absurd rfl hb
  | inet6Port => exact absurd rfl hb
  | inet ha => exact .inl (by rw [ha]; rfl)
  | @inetPort v4 port a n ha hd hn => exact .inr ⟨v4, port, n, rfl, by rw [ha]; rfl, hn, hd⟩

/-- What reads a bracketed text cuts it at the first closing bracket. -/
theorem Reads.of_bracket (hr : Reads core sa text sa') (hb : text.head? = some openBracket) :
    ∃ v6 rest, text = openBracket :: (v6 ++ closeBracket :: rest) ∧ (core.inet6Addr v6).isSome ∧
      (rest = [] ∨ ∃ port n, rest = colon :: port ∧ n ≤ 65535 ∧ decimal port = some n) := by
  cases hr with
  | unix hp hne hlen => exact absurd hb (unix_not_bracket (unix_iff.mpr ⟨_, _, rfl, hp⟩).2)
  | @inet6 v6 a ha => exact ⟨v6, [], rfl, by rw [ha]; rfl, .inl rfl⟩
  | @inet6Port v6 port a n ha hd hn =>
    exact ⟨v6, colon :: port, rfl, by rw [ha]; rfl, .inr ⟨port, n, rfl, hn, hd⟩⟩
  | inet ha => exact absurd rfl (inetAddr_head (by rw [ha]; rfl) _ hb).ne_bracket
  | inetPort ha _ _ =>
    have hq := inetAddr_start (by rw [ha]; rfl) (fun c hc => by cases hc; rfl) _ hb
    exact absurd rfl hq.ne_bracket

/-! ## The port -/

theorem setPort_eq (core : Core α β) (sa : Sockaddr α β) (socklen : Nat) {z : List UInt8}
    {p : Nat} (hz : slice text p text.length = z) :
    (∃ n, n ≤ 65535 ∧ decimal z = some n ∧
      setPort core sa text p socklen = (socklen, { sa with port := n })) ∨
    ((∀ n, n ≤ 65535 → decimal z ≠ some n) ∧ setPort core sa text p socklen = (0, sa)) := by
  unfold setPort
  dsimp only
  rw [hz]
  split
  · rename_i hbad
    refine Or.inr ⟨fun n hn hd => ?_, rfl⟩
    rw [(core.atoi_decimal z n hn).mpr hd] at hbad
    omega
  · rename_i hgood
    obtain ⟨n, hn⟩ : ∃ n : Nat, core.atoi z = n := ⟨(core.atoi z).toNat, by omega⟩
    have hle : n ≤ 65535 := by omega
    refine Or.inl ⟨n, hle, (core.atoi_decimal z n hle).mp hn, ?_⟩
    rw [hn]
    rfl

/-! ## The three parsers -/

theorem sockPtonUnix_meets (hu : (text.take 5).map tolower = unixPrefix) (h0 : 0 ∉ text) :
    Meets core sa text (sockPtonUnix core sa text) := by
  have hl : 5 ≤ text.length := by
    have := unix_length hu
    rw [List.length_take] at this
    omega
  unfold sockPtonUnix
  dsimp only
  split
  · exact ⟨fun h => absurd rfl h, fun _ sa' hr => by have := hr.of_unix hu; omega⟩
  · split
    · exact ⟨fun h => absurd rfl h, fun _ sa' hr => by have := hr.of_unix hu; omega⟩
    · refine ⟨fun _ => ?_, fun h => absurd h (by simp [Core.sizeofUn])⟩
      have hall : (text.drop 5).takeWhile (· ≠ 0) = text.drop 5 := by
        rw [List.takeWhile_eq_self_iff]
        intro c hc
        have : c ≠ 0 := fun h => h0 (h ▸ List.mem_of_mem_drop hc)
        simpa using this
      rw [← List.length_drop, List.take_length, hall]
      have : Reads core sa (text.take 5 ++ text.drop 5) _ := .unix hu
        (by rw [← List.length_pos_iff]; rw [List.length_drop]; omega)
        (by rw [List.length_drop]; omega)
      rwa [List.take_append_drop] at this

theorem sockPtonInet_meets (hu : (text.take 5).map tolower ≠ unixPrefix)
    (hb : text.head? ≠ some openBracket) :
    Meets core sa text (sockPtonInet core sa text) := by
  unfold sockPtonInet
  dsimp only
  cases hfind : find text 0 text.length colon with
  | none =>
    have hno : colon ∉ text := by
      have := find_eq_none.mp hfind
      rwa [slice_all] at this
    rw [Option.getD_none, slice_all]
    cases ha : core.inetAddr text with
    | none =>
      refine ⟨fun h => absurd rfl h, fun _ sa' hr => ?_⟩
      rcases hr.of_quad hu hb with h | ⟨v4, port, n, rfl, _⟩
      · rw [ha] at h
        cases h
      · exact hno (by simp)
    | some a => exact ⟨fun _ => Reads.inet ha, fun h => absurd h (Nat.succ_ne_zero 15)⟩
  | some p =>
    obtain ⟨y, z, hyz, hc, rfl⟩ := find_eq_some.mp hfind
    rw [slice_all] at hyz
    have hy : slice text 0 (0 + y.length) = y := slice_append (x := []) hyz rfl (by simp)
    have hz : slice text (0 + y.length + 1) text.length = z :=
      slice_tail (x := y ++ [colon]) (by rw [hyz]; simp) (by simp) rfl
    rw [Option.getD_some, hy]
    have hsplit : ∀ v4 port, text = v4 ++ colon :: port → (core.inetAddr v4).isSome →
        v4 = y ∧ port = z := by
      intro v4 port heq hv
      rw [hyz] at heq
      exact cut_unique heq.symm (inetAddr_colon hv) hc
    have hwhole : ¬ (core.inetAddr text).isSome := by
      intro h
      refine inetAddr_colon h ?_
      rw [hyz]
      simp
    cases ha : core.inetAddr y with
    | none =>
      refine ⟨fun h => absurd rfl h, fun _ sa' hr => ?_⟩
      rcases hr.of_quad hu hb with h | ⟨v4, port, n, heq, hv, _⟩
      · exact hwhole h
      · rw [(hsplit v4 port heq hv).1, ha] at hv
        cases hv
    | some a =>
      dsimp only
      rcases setPort_eq core { sa with family := .inet, sinAddr := some a } sizeofIn hz with
        ⟨n, hn, hd, hset⟩ | ⟨hno, hset⟩
      · rw [hset]
        refine ⟨fun _ => ?_, fun h => absurd h (Nat.succ_ne_zero 15)⟩
        have : Reads core sa _ _ := .inetPort ha hd hn
        rwa [← hyz] at this
      · rw [hset]
        refine ⟨fun h => absurd rfl h, fun _ sa' hr => ?_⟩
        rcases hr.of_quad hu hb with h | ⟨v4, port, n, heq, hv, hn, hd⟩
        · exact hwhole h
        · rw [(hsplit v4 port heq hv).2] at hd
          exact hno n hn hd

/-! ## Brackets -/

/-- A bracketed text has no closing bracket or is cut at the first one. -/
theorem bracket_cut (hb : text.head? = some openBracket) :
    closeBracket ∉ text ∨
      ∃ v6 rest, text = openBracket :: (v6 ++ closeBracket :: rest) ∧ closeBracket ∉ v6 := by
  cases text with
  | nil => cases hb
  | cons b text =>
    obtain rfl : b = openBracket := Option.some.inj hb
    by_cases hm : closeBracket ∈ text
    · obtain ⟨v6, rest, rfl, hv6⟩ := List.eq_append_cons_of_mem hm
      exact .inr ⟨v6, rest, rfl, hv6⟩
    · refine .inl fun h => hm ?_
      exact (List.mem_cons.mp h).resolve_left (by decide)

theorem sockPtonInet6_none (core : Core α β) (sa : Sockaddr α β) (h : closeBracket ∉ text) :
    sockPtonInet6 core sa text = (0, sa) := by
  have hfind : find text 0 text.length closeBracket = none := by
    rw [find_eq_none, slice_all]
    exact h
  unfold sockPtonInet6
  dsimp only
  rw [hfind]

/-- What `ngx_sock_pton_inet6` does behind the first closing bracket. -/
theorem sockPtonInet6_cut (core : Core α β) (sa : Sockaddr α β) {v6 rest : List UInt8}
    (h : closeBracket ∉ v6) :
    sockPtonInet6 core sa (openBracket :: (v6 ++ closeBracket :: rest)) =
      if rest = [] then (0, sa)
      else
        match core.inet6Addr v6 with
        | none => (0, sa)
        | some a =>
          if rest.head? = some colon then
            setPort core { sa with family := .inet6, sin6Addr := some a } rest 1 sizeofIn6
          else (sizeofIn6, { sa with family := .inet6, sin6Addr := some a }) := by
  obtain ⟨text, htext⟩ : ∃ text, text = openBracket :: (v6 ++ closeBracket :: rest) := ⟨_, rfl⟩
  have hcut : text = [] ++ ((openBracket :: v6) ++ closeBracket :: rest) := htext
  have hfind : find text 0 text.length closeBracket = some (v6.length + 1) := by
    rw [find_eq_some]
    refine ⟨openBracket :: v6, rest, by rw [slice_all]; exact htext, ?_, ?_⟩
    · exact fun hm => h ((List.mem_cons.mp hm).resolve_left (by decide))
    · rw [List.length_cons, Nat.zero_add]
  have hlen : text.length = v6.length + 2 + rest.length := by
    rw [htext]
    simp
    omega
  have hslice : slice text 1 (v6.length + 1) = v6 :=
    slice_append (x := [openBracket]) (z := closeBracket :: rest) htext rfl
      (by rw [List.length_singleton, Nat.add_comm])
  have hget : text[v6.length + 1 + 1]? = rest.head? := by
    rw [htext]
    simp [List.getElem?_append_right, List.head?_eq_getElem?]
  have hport : ∀ sa', setPort core sa' text (v6.length + 1 + 1 + 1) sizeofIn6 =
      setPort core sa' rest 1 sizeofIn6 := by
    have hdrop : text.drop (v6.length + 1 + 1 + 1) = rest.drop 1 := by
      rw [← List.drop_drop, htext]
      simp
    intro sa'
    unfold setPort
    rw [slice_length, slice_length, hdrop]
  rw [← htext]
  unfold sockPtonInet6
  dsimp only
  rw [hfind]
  dsimp only
  rw [hslice, hget]
  simp only [hport]
  by_cases hrest : rest = []
  · rw [if_pos hrest, if_pos]
    rw [hlen, hrest, List.length_nil]
    omega
  · have := List.length_pos_of_ne_nil hrest
    rw [if_neg hrest, if_neg (by omega)]

/-- The bracketed form is followed only where a `:` comes behind the bracket. -/
theorem sockPtonInet6_meets (hb : text.head? = some openBracket) :
    Meets core sa text (sockPtonInet6 core sa text) ↔ ¬ Portless core text := by
  rcases bracket_cut hb with hno | ⟨v6, rest, rfl, hv6⟩
  · rw [sockPtonInet6_none core sa hno]
    refine iff_of_true ⟨fun h => absurd rfl h, fun _ sa' hr => ?_⟩ ?_
    · obtain ⟨v6, rest, rfl, _⟩ := hr.of_bracket hb
      exact hno (by simp)
    · rintro ⟨v6, rest, rfl, _⟩
      exact hno (by simp)
  have hsplit : ∀ v z, openBracket :: (v6 ++ closeBracket :: rest) =
      openBracket :: (v ++ closeBracket :: z) → (core.inet6Addr v).isSome →
      v = v6 ∧ z = rest := by
    intro v z heq hv
    exact cut_unique (List.cons.inj heq).2.symm (core.inet6Addr_text v hv) hv6
  have hportless : Portless core (openBracket :: (v6 ++ closeBracket :: rest)) ↔
      (core.inet6Addr v6).isSome ∧ rest.head? ≠ some colon := by
    constructor
    · rintro ⟨v, z, heq, hv, hz⟩
      obtain ⟨rfl, rfl⟩ := hsplit v z heq hv
      exact ⟨hv, hz⟩
    · rintro ⟨hv, hrest⟩
      exact ⟨v6, rest, rfl, hv, hrest⟩
  rw [sockPtonInet6_cut core sa hv6, hportless]
  split
  · -- The bracket is the last byte: nothing is read.
    next hrest =>
    subst hrest
    constructor
    · rintro ⟨_, hno⟩ ⟨hv, _⟩
      obtain ⟨a, ha⟩ := Option.isSome_iff_exists.mp hv
      exact hno rfl _ (.inet6 ha)
    · intro h
      refine ⟨fun h => absurd rfl h, fun _ sa' hr => h ?_⟩
      obtain ⟨v, z, heq, hv, _⟩ := hr.of_bracket hb
      obtain ⟨rfl, rfl⟩ := hsplit v z heq hv
      exact ⟨hv, by simp⟩
  · next hrest =>
    cases ha : core.inet6Addr v6 with
    | none =>
      refine iff_of_true ⟨fun h => absurd rfl h, fun _ sa' hr => ?_⟩ (by simp)
      obtain ⟨v, z, heq, hv, _⟩ := hr.of_bracket hb
      rw [(hsplit v z heq hv).1, ha] at hv
      cases hv
    | some a =>
      dsimp only
      split
      · next hcolon =>
        refine iff_of_true ?_ (fun h => h.2 hcolon)
        obtain ⟨port, rfl⟩ : ∃ port, rest = colon :: port := by
          cases rest with
          | nil => cases hcolon
          | cons b port => exact ⟨port, by rw [Option.some.inj hcolon]⟩
        rcases setPort_eq core { sa with family := .inet6, sin6Addr := some a } sizeofIn6
          (slice_length (colon :: port) 1) with ⟨n, hn, hd, hset⟩ | ⟨hno, hset⟩
        · rw [hset]
          exact ⟨fun _ => .inet6Port ha hd hn, fun h => absurd h (Nat.succ_ne_zero 27)⟩
        · rw [hset]
          refine ⟨fun h => absurd rfl h, fun _ sa' hr => ?_⟩
          obtain ⟨v, z, heq, hv, hz⟩ := hr.of_bracket hb
          obtain ⟨rfl, rfl⟩ := hsplit v z heq hv
          rcases hz with h | ⟨port', n, h, hn, hd⟩
          · cases h
          · cases h
            exact hno n hn hd
      · -- Garbage behind the bracket: the address is taken all the same.
        next hcolon =>
        refine iff_of_false (fun h => ?_) (fun h => h ⟨rfl, hcolon⟩)
        obtain ⟨v, z, heq, hv, hz⟩ := (h.1 (Nat.succ_ne_zero 27)).of_bracket hb
        obtain ⟨rfl, rfl⟩ := hsplit v z heq hv
        rcases hz with rfl | ⟨port, n, rfl, _⟩
        · exact hrest rfl
        · exact hcolon rfl
end

/-- **The grammar.**  On a text without NUL the function returns what the
grammar says, but for a bracketed address that no `:` follows: alone it is
refused, and before other bytes it is taken. -/
theorem sockPton_meets (core : Core α β) (sa : Sockaddr α β) (text : List UInt8) (h0 : 0 ∉ text) :
    Meets core sa text (sockPton core sa text) ↔ ¬ Portless core text := by
  have hhead : text.head? ≠ some openBracket → ¬ Portless core text := by
    rintro hb ⟨v6, rest, rfl, _⟩
    exact hb rfl
  unfold sockPton
  by_cases hu : (text.take 5).map tolower = unixPrefix
  · have hl : text.length ≥ 5 := by
      have := unix_length hu
      rw [List.length_take] at this
      omega
    rw [if_pos ⟨hl, hu⟩]
    exact iff_of_true (sockPtonUnix_meets hu h0) (hhead (unix_not_bracket hu))
  · rw [if_neg (fun h => hu h.2)]
    by_cases hb : text.head? = some openBracket
    · rw [if_pos hb]
      exact sockPtonInet6_meets hb
    · rw [if_neg hb]
      exact iff_of_true (sockPtonInet_meets hu hb) (hhead hb)

/-- A core that knows the addresses `127.0.0.1` and `::1`. -/
def loopbackCore : Core (List UInt8) (List UInt8) where
  inetAddr s := if s = [49, 50, 55, 46, 48, 46, 48, 46, 49] then some [127, 0, 0, 1] else none
  inet6Addr s :=
    if s = [58, 58, 49] then some [0, 0, 0, 0, 0, 0, 0, 0, 0, 0, 0, 0, 0, 0, 0, 1] else none
  atoi s := (decimal s).elim (-1) (fun n => n)
  sunPathSize := 108
  inetAddr_text s h := by
    split at h
    · rename_i hs
      rw [hs]
      simp only [List.mem_cons, List.not_mem_nil, or_false, forall_eq_or_imp, forall_eq]
      decide
    · cases h
  inet6Addr_text s h := by
    split at h
    · rename_i hs
      rw [hs]
      decide
    · cases h
  atoi_decimal s n hn := by
    cases decimal s with
    | none => simp only [Option.elim_none, reduceCtorEq]
    | some m => simp only [Option.elim_some, Option.some.injEq]; omega

def noSockaddr : Sockaddr (List UInt8) (List UInt8) := ⟨.unspec, [], none, none, 0⟩

/-- `[::1]` is an address the function refuses, `[::1]x` is none and it is taken. -/
theorem loopback_refused :
    ¬ Meets loopbackCore noSockaddr [91, 58, 58, 49, 93]
        (sockPton loopbackCore noSockaddr [91, 58, 58, 49, 93]) ∧
      (sockPton loopbackCore noSockaddr [91, 58, 58, 49, 93, 120]).1 = sizeofIn6 := by
  refine ⟨fun h => ?_, by decide⟩
  have hr : Reads loopbackCore noSockaddr (openBracket :: ([58, 58, 49] ++ [closeBracket])) _ :=
    Reads.inet6 (a := [0, 0, 0, 0, 0, 0, 0, 0, 0, 0, 0, 0, 0, 0, 0, 1]) (by decide)
  exact h.2 (by decide) _ hr

/-- `[::1]:80`. -/
theorem sockPton_meets_loopback :
    Meets loopbackCore noSockaddr [91, 58, 58, 49, 93, 58, 56, 48]
        (sockPton loopbackCore noSockaddr [91, 58, 58, 49, 93, 58, 56, 48]) ↔
      ¬ Portless loopbackCore [91, 58, 58, 49, 93, 58, 56, 48] :=
  sockPton_meets _ _ _ (by decide)

/-! ## Sizes -/

/-- `sizeof(struct sockaddr)`. -/
def sizeofSockaddr : Nat := 16

section
variable {core : Core α β} {sa : Sockaddr α β} {text : List UInt8}

/-- The text is an address of a family whose `sockaddr` is longer: the path of a unix
socket, or a bracketed address that more bytes follow. -/
inductive Overlong (core : Core α β) : List UInt8 → Prop
  | unix {p path : List UInt8} (hp : p.map tolower = unixPrefix) (hne : path ≠ [])
    (hlen : path.length + 1 ≤ core.sunPathSize) (hsize : sizeofSockaddr < core.sizeofUn) :
    Overlong core (p ++ path)
  | inet6 {v6 rest : List UInt8} (hv : (core.inet6Addr v6).isSome) (hne : rest ≠ [])
    (hport : rest.head? = some colon → ∃ n, n ≤ 65535 ∧ decimal rest.tail = some n) :
    Overlong core (openBracket :: (v6 ++ closeBracket :: rest))

/-- Overlong texts that start with `unix:`. -/
theorem overlong_unix {p path : List UInt8} (hp : p.map tolower = unixPrefix) :
    Overlong core (p ++ path) ↔
      path ≠ [] ∧ path.length + 1 ≤ core.sunPathSize ∧ sizeofSockaddr < core.sizeofUn := by
  refine ⟨fun h => ?_, fun h => .unix hp h.1 h.2.1 h.2.2⟩
  have hbracket := unix_not_bracket (unix_iff.mpr ⟨p, path, rfl, hp⟩).2
  generalize htext : p ++ path = text at h hbracket
  cases h with
  | unix hp' hne hlen hsize =>
    obtain ⟨-, rfl⟩ := List.append_inj htext ((unix_length hp).trans (unix_length hp').symm)
    exact ⟨hne, hlen, hsize⟩
  | inet6 => exact absurd rfl hbracket

/-- Overlong texts that start with a bracket. -/
theorem overlong_bracket (hb : text.head? = some openBracket) :
    Overlong core text ↔ ∃ v6 rest, text = openBracket :: (v6 ++ closeBracket :: rest) ∧
      (core.inet6Addr v6).isSome ∧ rest ≠ [] ∧
        (rest.head? = some colon → ∃ n, n ≤ 65535 ∧ decimal rest.tail = some n) := by
  constructor
  · intro h
    cases h with
    | unix hp =>
      exact absurd hb (unix_not_bracket (unix_iff.mpr ⟨_, _, rfl, hp⟩).2)
    | inet6 hv hne hport => exact ⟨_, _, rfl, hv, hne, hport⟩
  · rintro ⟨v6, rest, rfl, hv, hne, hport⟩
    exact .inet6 hv hne hport

theorem setPort_fits (core : Core α β) (sa : Sockaddr α β) (text : List UInt8) (p : Nat) :
    (setPort core sa text p sizeofIn).1 ≤ sizeofSockaddr := by
  have hslice : slice text p text.length = text.drop p := slice_length text p
  rcases setPort_eq core sa sizeofIn hslice with ⟨n, -, -, hset⟩ | ⟨-, hset⟩ <;> rw [hset]
  · exact Nat.le_refl 16
  · exact Nat.zero_le _

theorem sockPtonInet_fits (core : Core α β) (sa : Sockaddr α β) (text : List UInt8) :
    (sockPtonInet core sa text).1 ≤ sizeofSockaddr := by
  unfold sockPtonInet
  dsimp only
  split
  · exact Nat.zero_le _
  · split
    · exact setPort_fits _ _ _ _
    · exact Nat.le_refl 16

theorem sockPtonUnix_fits {p path : List UInt8} (hp : p.map tolower = unixPrefix) :
    (sockPtonUnix core sa (p ++ path)).1 ≤ sizeofSockaddr ↔
      ¬ (path ≠ [] ∧ path.length + 1 ≤ core.sunPathSize ∧ sizeofSockaddr < core.sizeofUn) := by
  have hlen : (p ++ path).length - 5 = path.length := by
    rw [List.length_append, unix_length hp]
    omega
  unfold sockPtonUnix
  dsimp only
  rw [hlen]
  split
  · next h =>
    exact iff_of_true (Nat.zero_le _) fun hno => hno.1 (List.eq_nil_of_length_eq_zero h)
  · next h =>
    split
    · exact iff_of_true (Nat.zero_le _) fun hno => by omega
    · rw [← not_lt]
      refine not_congr ⟨fun hlt => ⟨?_, by omega, hlt⟩, fun h => h.2.2⟩
      rintro rfl
      exact h rfl

theorem sockPtonInet6_fits {v6 rest : List UInt8} (hv6 : closeBracket ∉ v6) :
    (sockPtonInet6 core sa (openBracket :: (v6 ++ closeBracket :: rest))).1 ≤ sizeofSockaddr ↔
      ¬ ((core.inet6Addr v6).isSome ∧ rest ≠ [] ∧
        (rest.head? = some colon → ∃ n, n ≤ 65535 ∧ decimal rest.tail = some n)) := by
  have hlong : ¬ sizeofIn6 ≤ sizeofSockaddr := by decide
  rw [sockPtonInet6_cut core sa hv6]
  split
  · next h => exact iff_of_true (Nat.zero_le _) fun hno => hno.2.1 h
  · next hrest =>
    cases ha : core.inet6Addr v6 with
    | none =>
      refine iff_of_true (Nat.zero_le _) fun hno => ?_
      cases hno.1
    | some a =>
      dsimp only
      split
      · next hcolon =>
        have hport : slice rest 1 rest.length = rest.tail :=
          (slice_length rest 1).trans List.drop_one
        rcases setPort_eq core { sa with family := .inet6, sin6Addr := some a } sizeofIn6 hport
          with ⟨n, hn, hd, hset⟩ | ⟨hno, hset⟩ <;> rw [hset]
        · refine iff_of_false hlong fun h => h ⟨rfl, hrest, fun _ => ⟨n, hn, hd⟩⟩
        · refine iff_of_true (Nat.zero_le _) fun h => ?_
          obtain ⟨n, hn, hd⟩ := h.2.2 hcolon
          exact hno n hn hd
      · next hcolon =>
        exact iff_of_false hlong fun h => h ⟨rfl, hrest, fun hc => absurd hc hcolon⟩

/-- **Texts.**  The address of a text fits a `struct sockaddr` unless the text is `Overlong`. -/
theorem sockPton_fits (core : Core α β) (sa : Sockaddr α β) (text : List UInt8) :
    (sockPton core sa text).1 ≤ sizeofSockaddr ↔ ¬ Overlong core text := by
  unfold sockPton
  by_cases hu : text.length ≥ 5 ∧ (text.take 5).map tolower = unixPrefix
  · rw [if_pos hu]
    obtain ⟨p, path, rfl, hp⟩ := unix_iff.mp hu
    rw [sockPtonUnix_fits hp, overlong_unix hp]
  rw [if_neg hu]
  by_cases hb : text.head? = some openBracket
  · rw [if_pos hb, overlong_bracket hb]
    rcases bracket_cut hb with hno | ⟨v6, rest, rfl, hv6⟩
    · rw [sockPtonInet6_none core sa hno]
      refine iff_of_true (Nat.zero_le _) ?_
      rintro ⟨v6, rest, rfl, -⟩
      exact hno (by simp)
    · rw [sockPtonInet6_fits hv6]
      refine not_congr ⟨fun h => ⟨v6, rest, rfl, h⟩, ?_⟩
      rintro ⟨v, z, heq, hv, h⟩
      obtain ⟨rfl, rfl⟩ := cut_unique (List.cons.inj heq).2 hv6 (core.inet6Addr_text v hv)
      exact ⟨hv, h⟩
  · rw [if_neg hb]
    refine iff_of_true (sockPtonInet_fits _ _ _) fun h => ?_
    cases h with
    | unix hp => exact hu (unix_iff.mpr ⟨_, _, rfl, hp⟩)
    | inet6 => exact hb rfl

end

end NgxToolkit.ToolkitPton
