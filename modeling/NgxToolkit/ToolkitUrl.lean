import NgxToolkit.Lib.Ascii
import NgxToolkit.Lib.Slice

/-! The URL parser (`ngx_parse_request_url` in `ngx_toolkit_misc.c`).

A pointer into the URL is a position; the fields of an `ngx_request_url_t` are
the bytes they point to, and the empty string is the zeroed `ngx_str_t`.

`Url` is a choice of components that `scheme://[user@]host[:port]/path[?args][#fragment]`
can carry, with the bytes each of them must not contain; `Url.render` writes it
down.

* `parsePath_sound`, `parseHost_cases`: the parser on a part of any text.
* `parse_render`: when the parser gives the components of a `Url` back. -/

namespace NgxToolkit.ToolkitUrl

open Lib

def slash : UInt8 := '/'.toUInt8
def atSign : UInt8 := '@'.toUInt8
def quest : UInt8 := '?'.toUInt8
def sharp : UInt8 := '#'.toUInt8

/-- `"://"`. -/
def schemeEnd : List UInt8 := [colon, slash, slash]

/-- `NGX_OK` and `NGX_ERROR`. -/
inductive Rc where
  | ok
  | error
deriving DecidableEq, Repr

/-- `ngx_request_url_t`. -/
@[ext]
structure RequestUrl where
  scheme : List UInt8
  user : List UInt8
  host : List UInt8
  port : List UInt8
  path : List UInt8
  args : List UInt8
  fragment : List UInt8
  hostWithPort : List UInt8
  uriWithArgs : List UInt8
deriving DecidableEq, Repr

/-- A zeroed `ngx_request_url_t`. -/
def zeroUrl : RequestUrl := ⟨[], [], [], [], [], [], [], [], []⟩

/-- `ngx_strnstr` for `"://"`: the first place of it before a NUL. -/
def strnstr : List UInt8 → Option Nat
  | [] => none
  | c :: s =>
    if c = 0 then none
    else if schemeEnd.isPrefixOf (c :: s) then some 0
    else (strnstr s).map (· + 1)

/-- `ngx_parse_request_url` from "path = ++host_last" on. -/
def parsePath (url : List UInt8) (path : Nat) (r : RequestUrl) : Rc × RequestUrl :=
  let last := url.length
  if path ≥ last then (.ok, r)
  else
    match find url path last quest with
    | none =>
      (.ok, { r with path := slice url path last, uriWithArgs := slice url path last })
    | some args =>
      let r := { r with path := slice url path args }
      let args := args + 1
      if args = last then (.error, r)
      else
        match find url args last sharp with
        | none =>
          (.ok, { r with args := slice url args last, uriWithArgs := slice url path last })
        | some fragment =>
          let r := { r with args := slice url args fragment }
          let fragment := fragment + 1
          if fragment = last then (.error, r)
          else
            (.ok, { r with
              fragment := slice url fragment last, uriWithArgs := slice url path last })

/-- `ngx_parse_request_url` from the search of the port on. -/
def parseHost (url : List UInt8) (host hostLast : Nat) (r : RequestUrl) : Rc × RequestUrl :=
  match find url host hostLast colon with
  | none =>
    parsePath url (hostLast + 1)
      { r with host := slice url host hostLast, hostWithPort := slice url host hostLast }
  | some port =>
    let r := { r with host := slice url host port }
    let port := port + 1
    if port = hostLast then (.error, r)
    else
      parsePath url (hostLast + 1)
        { r with port := slice url port hostLast, hostWithPort := slice url host hostLast }

/-- `ngx_parse_request_url`. -/
def parseRequestUrl (r : RequestUrl) (url : List UInt8) : Rc × RequestUrl :=
  if url.length = 0 then (.error, r)
  else
    let last := url.length
    match strnstr url with
    | none => (.error, r)
    | some user =>
      let r := { r with scheme := slice url 0 user }
      let user := user + 3
      if user ≥ last then (.error, r)
      else
        let hostLast := (find url user last slash).getD last
        match find url user hostLast atSign with
        | none => parseHost url user hostLast r
        | some host =>
          if user = host then (.error, r)
          else
            let r := { r with user := slice url user host }
            let host := host + 1
            if host = hostLast then (.error, r) else parseHost url host hostLast r

/-! ## The parser on the parts of a text -/

/-- What stands behind the first `?`. -/
def query (s : List UInt8) : Option (List UInt8) := (cutAt quest s).2

def pathText (s : List UInt8) : List UInt8 := (cutAt quest s).1

def argsText (s : List UInt8) : Option (List UInt8) := (query s).map fun q => (cutAt sharp q).1

/-- What stands behind the first `#` of the args. -/
def fragmentText (s : List UInt8) : Option (List UInt8) :=
  (query s).bind fun q => (cutAt sharp q).2

/-- Nothing stands behind the `?`, or behind the `#` of the args. -/
def UriFault (s : List UInt8) : Prop := query s = some [] ∨ fragmentText s = some []

/-- The components of the text behind the `/`, if there are any. -/
def writeUri (s : List UInt8) (r : RequestUrl) : RequestUrl :=
  if s = [] then r
  else { r with
    path := pathText s
    args := (argsText s).getD r.args
    fragment := (fragmentText s).getD r.fragment
    uriWithArgs := s }

section
variable {url s : List UInt8} {p : Nat} {r : RequestUrl}

theorem parsePath_fault (h : Segment url p s) (hl : url.length = p + s.length)
    (hf : UriFault s) : (parsePath url p r).1 = .error := by
  unfold UriFault fragmentText query at hf
  unfold parsePath
  dsimp only
  rcases h.find_cases quest hl with ⟨-, -, hcut⟩ | ⟨x, q, rfl, -, hfind, hcut⟩
  · rw [hcut] at hf
    rcases hf with hf | hf
    · cases hf
    · cases hf
  · rw [hcut] at hf
    rw [List.length_append, List.length_cons] at hl
    rw [if_neg (by omega), hfind]
    dsimp only
    rcases hf with hf | hf
    · rw [Option.some.injEq] at hf
      subst hf
      rw [List.length_nil] at hl
      rw [if_pos (by omega)]
    · have hq : Segment url (p + x.length + 1) q := h.behind rfl
      have hlq : url.length = p + x.length + 1 + q.length := by omega
      rcases hq.find_cases sharp hlq with ⟨-, -, hcutq⟩ | ⟨y, f, rfl, -, hfindq, hcutq⟩
      · rw [Option.bind_some, hcutq] at hf
        cases hf
      · rw [Option.bind_some, hcutq, Option.some.injEq] at hf
        subst hf
        rw [List.length_append, List.length_cons, List.length_nil] at hl
        rw [if_neg (by omega), hfindq]
        dsimp only
        rw [if_pos (by omega)]

theorem parsePath_sound (h : Segment url p s) (hl : url.length = p + s.length)
    (hf : ¬ UriFault s) : parsePath url p r = (.ok, writeUri s r) := by
  unfold UriFault fragmentText query at hf
  rw [not_or] at hf
  obtain ⟨hq0, hf0⟩ := hf
  unfold parsePath writeUri
  dsimp only
  rw [h.slice hl]
  by_cases hs : s = []
  · rw [if_pos hs, if_pos (by rw [hs] at hl; exact Nat.le_of_eq hl)]
  · have hpos := List.length_pos_of_ne_nil hs
    rw [if_neg hs, if_neg (by omega)]
    unfold pathText argsText fragmentText query
    rcases h.find_cases quest hl with ⟨-, hfind, hcut⟩ | ⟨x, q, rfl, -, hfind, hcut⟩
    · rw [hfind, hcut]
      rfl
    · rw [hcut] at hq0 hf0 ⊢
      have hqpos : 0 < q.length := List.length_pos_of_ne_nil fun he => hq0 (by rw [he])
      have hq : Segment url (p + x.length + 1) q := h.behind rfl
      rw [List.length_append, List.length_cons] at hl
      rw [hfind]
      dsimp only
      rw [if_neg (by omega), h.left.slice rfl, Option.map_some, Option.bind_some]
      have hlq : url.length = p + x.length + 1 + q.length := by omega
      rcases hq.find_cases sharp hlq with ⟨-, hfindq, hcutq⟩ | ⟨y, f, rfl, -, hfindq, hcutq⟩
      · rw [hfindq, hcutq]
        dsimp only
        rw [hq.slice (by omega)]
        rfl
      · rw [Option.bind_some, hcutq] at hf0
        have hfpos : 0 < f.length := List.length_pos_of_ne_nil fun he => hf0 (by rw [he])
        have hfr : Segment url (p + x.length + 1 + y.length + 1) f := hq.behind rfl
        rw [List.length_append, List.length_cons] at hl
        rw [hfindq, hcutq]
        dsimp only
        rw [if_neg (by omega), hq.left.slice rfl, hfr.slice (by omega)]
        rfl

/-- The search of the port, and then the rest. -/
theorem parseHost_cases {host hostLast : Nat} {hp : List UInt8} (h : Segment url host hp)
    (hl : hostLast = host + hp.length) (r : RequestUrl) :
    ((cutAt colon hp).2 ≠ some [] ∧ parseHost url host hostLast r =
        parsePath url (hostLast + 1) { r with
          host := (cutAt colon hp).1
          port := (cutAt colon hp).2.getD r.port
          hostWithPort := hp }) ∨
      ((cutAt colon hp).2 = some [] ∧ (parseHost url host hostLast r).1 = .error) := by
  unfold parseHost
  rw [h.slice hl]
  rcases h.find_cases colon hl with ⟨-, hfind, hcut⟩ | ⟨x, y, rfl, -, hfind, hcut⟩
  · rw [hfind, hcut]
    exact .inl ⟨fun he => (by cases he), rfl⟩
  · rw [hfind, hcut]
    rw [List.length_append, List.length_cons] at hl
    have hport : Segment url (host + x.length + 1) y := h.behind rfl
    dsimp only
    by_cases hy : y = []
    · subst hy
      rw [List.length_nil] at hl
      rw [if_pos (by omega)]
      exact .inr ⟨rfl, rfl⟩
    · have hpos := List.length_pos_of_ne_nil hy
      rw [if_neg (by omega), h.left.slice rfl, hport.slice (by omega)]
      exact .inl ⟨fun he => hy (Option.some.inj he), rfl⟩

end

/-! ## The components of a URL -/

/-- The components behind the `/` after the host. -/
structure Uri where
  path : List UInt8
  args : Option (List UInt8)
  fragment : Option (List UInt8)
  path_quest : quest ∉ path
  path_sharp : sharp ∉ path
  args_ne : args ≠ some []
  args_sharp : ∀ s ∈ args, sharp ∉ s
  fragment_ne : fragment ≠ some []

/-- The components of `scheme://[user@]host[:port]/path[?args][#fragment]`. -/
structure Url where
  scheme : List UInt8
  user : Option (List UInt8)
  host : List UInt8
  port : Option (List UInt8)
  uri : Option Uri
  scheme_ne : scheme ≠ []
  scheme_nul : 0 ∉ scheme
  scheme_colon : colon ∉ scheme
  scheme_slash : slash ∉ scheme
  user_ne : user ≠ some []
  user_slash : ∀ s ∈ user, slash ∉ s
  user_at : ∀ s ∈ user, atSign ∉ s
  host_ne : host ≠ []
  host_slash : slash ∉ host
  host_at : atSign ∉ host
  host_colon : colon ∉ host
  port_ne : port ≠ some []
  port_slash : ∀ s ∈ port, slash ∉ s
  port_at : ∀ s ∈ port, atSign ∉ s

/-- An optional component behind its delimiter. -/
def optPart (c : UInt8) (s : Option (List UInt8)) : List UInt8 := s.elim [] (c :: ·)

/-- `path[?args][#fragment]`. -/
def Uri.render (t : Uri) : List UInt8 := t.path ++ (optPart quest t.args ++ optPart sharp t.fragment)

/-- `host[:port]`. -/
def Url.hostPort (u : Url) : List UInt8 := u.host ++ optPart colon u.port

/-- `[user@]`. -/
def Url.userPart (u : Url) : List UInt8 := u.user.elim [] (· ++ [atSign])

/-- `/path[?args][#fragment]`, if there is a path. -/
def Url.uriPart (u : Url) : List UInt8 := u.uri.elim [] (slash :: ·.render)

/-- `scheme://[user@]host[:port]/path[?args][#fragment]`. -/
def Url.render (u : Url) : List UInt8 :=
  u.scheme ++ (schemeEnd ++ (u.userPart ++ (u.hostPort ++ u.uriPart)))

def Url.args (u : Url) : Option (List UInt8) := u.uri.bind (·.args)

def Url.fragment (u : Url) : Option (List UInt8) := u.uri.bind (·.fragment)

/-- The components, absent ones empty. -/
def Url.components (u : Url) : RequestUrl where
  scheme := u.scheme
  user := u.user.getD []
  host := u.host
  port := u.port.getD []
  path := u.uri.elim [] (·.path)
  args := u.args.getD []
  fragment := u.fragment.getD []
  hostWithPort := u.hostPort
  uriWithArgs := u.uri.elim [] (·.render)

/-! ## Searches in the rendered text -/

@[simp] theorem optPart_none (c : UInt8) : optPart c none = [] := rfl

@[simp] theorem optPart_some (c : UInt8) (s : List UInt8) : optPart c (some s) = c :: s := rfl

@[simp] theorem schemeEnd_length : schemeEnd.length = 3 := rfl

/-- The scheme ends at the first `"://"`. -/
theorem strnstr_append {s x : List UInt8} (h0 : 0 ∉ s) (hc : colon ∉ s) :
    strnstr (s ++ (schemeEnd ++ x)) = some s.length := by
  induction s with
  | nil =>
    have hne : colon ≠ 0 := by decide
    simp [strnstr, schemeEnd, hne]
  | cons b s ih =>
    rw [List.mem_cons, not_or] at h0 hc
    have hp : schemeEnd.isPrefixOf (b :: (s ++ (schemeEnd ++ x))) = false := by
      simp [schemeEnd, List.isPrefixOf, hc.1]
    rw [List.cons_append, strnstr, if_neg (Ne.symm h0.1), hp, ih h0.2 hc.2]
    rfl

theorem Url.hostPort_slash (u : Url) : slash ∉ u.hostPort := by
  have hp := u.port_slash
  unfold hostPort
  cases hport : u.port with
  | none => simpa using u.host_slash
  | some p =>
    rw [hport] at hp
    simp only [optPart_some, List.mem_append, List.mem_cons, not_or]
    exact ⟨u.host_slash, by decide, hp p rfl⟩

theorem Url.hostPort_at (u : Url) : atSign ∉ u.hostPort := by
  have hp := u.port_at
  unfold hostPort
  cases hport : u.port with
  | none => simpa using u.host_at
  | some p =>
    rw [hport] at hp
    simp only [optPart_some, List.mem_append, List.mem_cons, not_or]
    exact ⟨u.host_at, by decide, hp p rfl⟩

theorem Url.userPart_slash (u : Url) : slash ∉ u.userPart := by
  have hu := u.user_slash
  unfold userPart
  cases huser : u.user with
  | none => simp
  | some s =>
    rw [huser] at hu
    simp only [Option.elim_some, List.mem_append, List.mem_singleton, not_or]
    exact ⟨hu s rfl, by decide⟩

theorem Url.hostPort_pos (u : Url) : 0 < u.hostPort.length := by
  rw [hostPort, List.length_append]
  have := List.length_pos_of_ne_nil u.host_ne
  omega

/-- The position behind the `/` after the host, or one past the end. -/
def Url.pathPos (u : Url) : Nat :=
  u.scheme.length + 3 + u.userPart.length + u.hostPort.length + 1

/-- The state of the parser at `path = ++host_last`. -/
def Url.head (u : Url) : RequestUrl :=
  ⟨u.scheme, u.user.getD [], u.host, u.port.getD [], [], [], [], u.hostPort, []⟩

theorem Url.render_length (u : Url) :
    u.render.length =
      u.scheme.length + 3 + u.userPart.length + u.hostPort.length + u.uriPart.length := by
  simp only [render, List.length_append, schemeEnd, List.length_cons, List.length_nil]
  omega

/-- The first `/` behind the scheme ends the host, if there is a path. -/
theorem Url.find_hostLast (u : Url) :
    (find u.render (u.scheme.length + 3) u.render.length slash).getD u.render.length =
      u.scheme.length + 3 + u.userPart.length + u.hostPort.length := by
  have hs : slash ∉ u.userPart ++ u.hostPort := by
    rw [List.mem_append, not_or]
    exact ⟨u.userPart_slash, u.hostPort_slash⟩
  have hlen := u.render_length
  cases huri : u.uri with
  | none =>
    have hr : u.render = (u.scheme ++ schemeEnd) ++ ((u.userPart ++ u.hostPort) ++ []) := by
      simp [render, uriPart, huri]
    rw [find_miss hr (by simp) hs (by rw [hr]; simp; omega)]
    rw [Option.getD_none, hlen, uriPart, huri]
    rfl
  | some t =>
    have hr : u.render =
        (u.scheme ++ schemeEnd) ++ ((u.userPart ++ u.hostPort) ++ slash :: t.render) := by
      simp [render, uriPart, huri]
    rw [find_hit hr (by simp) hs (by rw [hr]; simp; omega)]
    simp only [Option.getD_some, List.length_append, schemeEnd_length]
    omega

theorem Url.cut_hostPort (u : Url) : cutAt colon u.hostPort = (u.host, u.port) := by
  unfold Url.hostPort
  cases u.port with
  | none =>
    rw [optPart_none, List.append_nil]
    exact cutAt_of_not_mem u.host_colon
  | some p => exact cutAt_append_cons p u.host_colon

theorem parseHost_render (u : Url) (us : List UInt8) :
    parseHost u.render (u.scheme.length + 3 + u.userPart.length)
      (u.scheme.length + 3 + u.userPart.length + u.hostPort.length)
      ⟨u.scheme, us, [], [], [], [], [], [], []⟩ =
    parsePath u.render u.pathPos
      ⟨u.scheme, us, u.host, u.port.getD [], [], [], [], u.hostPort, []⟩ := by
  have hseg : Segment u.render (u.scheme.length + 3 + u.userPart.length) u.hostPort := by
    refine ⟨u.scheme ++ schemeEnd ++ u.userPart, u.uriPart, ?_, ?_⟩
    · simp only [Url.render, List.append_assoc]
    · simp only [List.length_append, schemeEnd_length]
  rcases parseHost_cases hseg rfl ⟨u.scheme, us, [], [], [], [], [], [], []⟩ with
    ⟨-, hp⟩ | ⟨hport, -⟩
  · rw [hp, u.cut_hostPort]
    rfl
  · rw [u.cut_hostPort] at hport
    exact absurd hport u.port_ne

/-- Up to the path the components come out as they went in. -/
theorem parse_head (u : Url) :
    parseRequestUrl zeroUrl u.render = parsePath u.render u.pathPos u.head := by
  have hlen := u.render_length
  have hpos := u.hostPort_pos
  have hst : strnstr u.render = some u.scheme.length :=
    strnstr_append u.scheme_nul u.scheme_colon
  have hsc : slice u.render 0 u.scheme.length = u.scheme :=
    slice_append (x := []) (z := schemeEnd ++ (u.userPart ++ (u.hostPort ++ u.uriPart)))
      rfl rfl (by simp)
  unfold parseRequestUrl
  rw [if_neg (by omega), hst]
  dsimp only
  rw [if_neg (by omega), u.find_hostLast, hsc]
  cases huser : u.user with
  | none =>
    have hup : u.userPart = [] := by simp [Url.userPart, huser]
    have hr : u.render = (u.scheme ++ schemeEnd) ++ (u.hostPort ++ u.uriPart) := by
      simp [Url.render, hup]
    rw [find_miss hr (by simp) u.hostPort_at (by simp [hup])]
    have := parseHost_render u []
    rw [hup] at this ⊢
    simp only [List.length_nil, Nat.add_zero] at this ⊢
    simp only [zeroUrl]
    rw [this, Url.head, huser]
    rfl
  | some s =>
    have hup : u.userPart = s ++ [atSign] := by simp [Url.userPart, huser]
    have hs : 0 < s.length := by
      refine List.length_pos_of_ne_nil fun h => u.user_ne ?_
      rw [huser, h]
    have hr : u.render = (u.scheme ++ schemeEnd) ++ (s ++ atSign :: (u.hostPort ++ u.uriPart)) := by
      simp [Url.render, hup]
    have hat : atSign ∉ s := u.user_at s (by rw [huser]; rfl)
    rw [find_hit hr (by simp) hat (by simp [hup]; omega)]
    have hl : (u.scheme ++ schemeEnd).length + s.length = u.scheme.length + 3 + s.length := by
      simp
    have hus : slice u.render (u.scheme.length + 3) (u.scheme.length + 3 + s.length) = s :=
      slice_append hr (by simp) (by simp)
    have hul : u.userPart.length = s.length + 1 := by rw [hup, List.length_append]; rfl
    have := parseHost_render u s
    dsimp only
    rw [hl, if_neg (by omega), if_neg (by omega), hus]
    rw [Url.head, huser]
    simp only [zeroUrl, Option.getD_some]
    rw [← this]
    congr 1
    omega

/-! ## The path, the args and the fragment -/

/-- With args, or without a fragment, the parts are found as they went in. -/
theorem Uri.cut (t : Uri) (h : t.fragment = none ∨ t.args ≠ none) :
    ¬ UriFault t.render ∧ pathText t.render = t.path ∧ argsText t.render = t.args ∧
      fragmentText t.render = t.fragment := by
  unfold UriFault fragmentText argsText pathText query
  cases ha : t.args with
  | none =>
    have hf : t.fragment = none := h.resolve_right fun hne => hne ha
    have hren : t.render = t.path := by simp [Uri.render, ha, hf]
    rw [hren, cutAt_of_not_mem t.path_quest, hf]
    refine ⟨?_, rfl, rfl, rfl⟩
    rintro (he | he)
    · cases he
    · cases he
  | some a =>
    have hren : t.render = t.path ++ quest :: (a ++ optPart sharp t.fragment) := by
      simp [Uri.render, ha]
    have hane : a ≠ [] := fun he => t.args_ne (by rw [ha, he])
    have hcut : cutAt sharp (a ++ optPart sharp t.fragment) = (a, t.fragment) := by
      have hasharp : sharp ∉ a := t.args_sharp a (by rw [ha]; rfl)
      cases t.fragment with
      | none =>
        rw [optPart_none, List.append_nil]
        exact cutAt_of_not_mem hasharp
      | some f => exact cutAt_append_cons f hasharp
    rw [hren, cutAt_append_cons _ t.path_quest, Option.map_some, Option.bind_some, hcut]
    refine ⟨?_, rfl, rfl, rfl⟩
    rintro (he | he)
    · exact hane (List.append_eq_nil_iff.mp (Option.some.inj he)).1
    · exact t.fragment_ne he

/-- Without args the `#` is never looked for and stays in the path. -/
theorem Uri.sharp_mem (t : Uri) {f : List UInt8} (ha : t.args = none) (hf : t.fragment = some f) :
    sharp ∈ pathText t.render := by
  have hren : t.render = t.path ++ sharp :: f := by simp [Uri.render, ha, hf]
  have hne : ∀ b ∈ t.path, decide (b ≠ quest) = true := fun b hb =>
    decide_eq_true fun he => t.path_quest (he ▸ hb)
  unfold pathText cutAt
  rw [hren, List.takeWhile_append_of_pos hne, List.takeWhile_cons_of_pos (by decide)]
  exact List.mem_append_right _ List.mem_cons_self

/-- Over empty fields the parts of the text behind the host come out as they went in. -/
theorem Uri.write (t : Uri) (h : t.fragment = none ∨ t.args ≠ none) {r : RequestUrl}
    (hp : r.path = []) (ha : r.args = []) (hf : r.fragment = []) (hu : r.uriWithArgs = []) :
    writeUri t.render r = { r with
      path := t.path
      args := t.args.getD []
      fragment := t.fragment.getD []
      uriWithArgs := t.render } := by
  obtain ⟨-, hpath, hargs, hfragment⟩ := t.cut h
  unfold writeUri
  by_cases hnil : t.render = []
  · rw [if_pos hnil]
    rw [hnil] at hpath hargs hfragment
    rw [← hpath, ← hargs, ← hfragment, hnil]
    obtain ⟨sc, us, ho, po, pa, ar, fr, hh, ua⟩ := r
    dsimp only at hp ha hf hu
    rw [hp, ha, hf, hu]
    rfl
  · rw [if_neg hnil, hpath, hargs, hfragment, ha, hf]

/-- **Round trip.**  The parser gives the components back exactly when there is
no fragment or the URL has args. -/
theorem parse_render (u : Url) :
    parseRequestUrl zeroUrl u.render = (.ok, u.components) ↔
      u.fragment = none ∨ u.args ≠ none := by
  rw [parse_head]
  cases huri : u.uri with
  | none =>
    have hpos : u.pathPos ≥ u.render.length := by
      rw [u.render_length, Url.uriPart, huri, Url.pathPos]
      simp
    have hp : parsePath u.render u.pathPos u.head = (.ok, u.head) := by
      unfold parsePath
      rw [if_pos hpos]
    rw [hp]
    simp [Url.head, Url.components, Url.fragment, Url.args, huri]
  | some t =>
    have hseg : Segment u.render u.pathPos t.render := by
      refine ⟨u.scheme ++ schemeEnd ++ u.userPart ++ u.hostPort ++ [slash], [], ?_, ?_⟩
      · simp [Url.render, Url.uriPart, huri]
      · simp only [Url.pathPos, List.length_append, schemeEnd_length, List.length_cons,
          List.length_nil]
    have hl : u.render.length = u.pathPos + t.render.length := by
      rw [u.render_length, Url.pathPos, Url.uriPart, huri]
      simp only [Option.elim_some, List.length_cons]
      omega
    have hargs : u.args = t.args := by simp [Url.args, huri]
    have hfrag : u.fragment = t.fragment := by simp [Url.fragment, huri]
    rw [hargs, hfrag]
    by_cases h : t.fragment = none ∨ t.args ≠ none
    · refine iff_of_true ?_ h
      rw [parsePath_sound hseg hl (t.cut h).1, t.write h rfl rfl rfl rfl]
      simp [Url.head, Url.components, huri, hargs, hfrag]
    · refine iff_of_false (fun he => ?_) h
      rw [not_or, not_not] at h
      obtain ⟨f, hf⟩ := Option.ne_none_iff_exists'.mp h.1
      have hs := t.sharp_mem h.2 hf
      by_cases hfault : UriFault t.render
      · have herr := parsePath_fault hseg hl hfault (r := u.head)
        rw [he] at herr
        cases herr
      · rw [parsePath_sound hseg hl hfault, Prod.mk.injEq] at he
        have hne : t.render ≠ [] := by
          intro hnil
          rw [hnil] at hs
          cases hs
        have hpath := congrArg RequestUrl.path he.2
        rw [writeUri, if_neg hne, Url.components, huri] at hpath
        dsimp only at hpath
        rw [hpath] at hs
        exact t.path_sharp hs

/-- `http://h/p#f`. -/
def fragmentUrl : Url where
  scheme := [104, 116, 116, 112]
  user := none
  host := [104]
  port := none
  uri := some ⟨[112], none, some [102], by decide, by decide, by decide, by simp, by decide⟩
  scheme_ne := by decide
  scheme_nul := by decide
  scheme_colon := by decide
  scheme_slash := by decide
  user_ne := by decide
  user_slash := by simp
  user_at := by simp
  host_ne := by decide
  host_slash := by decide
  host_at := by decide
  host_colon := by decide
  port_ne := by decide
  port_slash := by simp
  port_at := by simp

/-- The path of `http://h/p#f` is read as `p#f`. -/
theorem fragment_stays_in_path :
    parseRequestUrl zeroUrl fragmentUrl.render ≠ (.ok, fragmentUrl.components) := by
  decide

end NgxToolkit.ToolkitUrl
