import NgxToolkit.ToolkitUrlCuts

/-! The URL parser on pointers: the fields of the `ngx_request_url_t` are
`ngx_str_t`, addresses with lengths, and the URL lies in memory at `data`.

* `parseStrs_bytes`: read back as bytes, the pointers are what the parser on
  bytes gives.
* `parseStrs_inside`: all pointers written point into the URL.
* `parseStrs_reassembles`: put together, the components of a URL that is accepted
  give the URL. -/

namespace NgxToolkit.ToolkitUrl

open Lib

/-- `ngx_str_t`. -/
structure Str where
  data : Nat
  len : Nat
deriving DecidableEq

/-- `ngx_request_url_t`. -/
structure UrlStrs where
  scheme : Str
  user : Str
  host : Str
  port : Str
  path : Str
  args : Str
  fragment : Str
  hostWithPort : Str
  uriWithArgs : Str
deriving DecidableEq

/-- After `ngx_memzero`. -/
def zeroStrs : UrlStrs :=
  ⟨⟨0, 0⟩, ⟨0, 0⟩, ⟨0, 0⟩, ⟨0, 0⟩, ⟨0, 0⟩, ⟨0, 0⟩, ⟨0, 0⟩, ⟨0, 0⟩, ⟨0, 0⟩⟩

/-- From the position `a` of the text at `data` up to `b`. -/
def str (data a b : Nat) : Str := ⟨data + a, b - a⟩

/-- `ngx_parse_request_url` from "path = ++host_last" on. -/
def parsePathStrs (data : Nat) (url : List UInt8) (path : Nat) (r : UrlStrs) : Rc × UrlStrs :=
  let last := url.length
  if path ≥ last then (.ok, r)
  else
    match find url path last quest with
    | none =>
      let r := { r with path := str data path last }
      (.ok, { r with uriWithArgs := r.path })
    | some args =>
      let r := { r with path := str data path args }
      let args := args + 1
      if args = last then (.error, r)
      else
        match find url args last sharp with
        | none =>
          (.ok, { r with args := str data args last, uriWithArgs := str data path last })
        | some fragment =>
          let r := { r with args := str data args fragment }
          let fragment := fragment + 1
          if fragment = last then (.error, r)
          else
            (.ok, { r with fragment := str data fragment last, uriWithArgs := str data path last })

/-- `ngx_parse_request_url` from the search of the port on. -/
def parseHostStrs (data : Nat) (url : List UInt8) (host hostLast : Nat) (r : UrlStrs) :
    Rc × UrlStrs :=
  match find url host hostLast colon with
  | none =>
    let r := { r with host := str data host hostLast }
    parsePathStrs data url (hostLast + 1) { r with hostWithPort := r.host }
  | some port =>
    let r := { r with host := str data host port }
    let port := port + 1
    if port = hostLast then (.error, r)
    else
      parsePathStrs data url (hostLast + 1)
        { r with port := str data port hostLast, hostWithPort := str data host hostLast }

/-- `ngx_parse_request_url` on a text at the address `data`. -/
def parseRequestUrlStrs (r : UrlStrs) (data : Nat) (url : List UInt8) : Rc × UrlStrs :=
  if url.length = 0 then (.error, r)
  else
    let last := url.length
    match strnstr url with
    | none => (.error, r)
    | some user =>
      let r := { r with scheme := str data 0 user }
      let user := user + 3
      if user ≥ last then (.error, r)
      else
        let hostLast := (find url user last slash).getD last
        match find url user hostLast atSign with
        | none => parseHostStrs data url user hostLast r
        | some host =>
          if user = host then (.error, r)
          else
            let r := { r with user := str data user host }
            let host := host + 1
            if host = hostLast then (.error, r) else parseHostStrs data url host hostLast r

/-! ## The bytes the pointers point to -/

/-- The bytes of a string in the text at `data`. -/
def Str.bytes (data : Nat) (url : List UInt8) (s : Str) : List UInt8 :=
  (url.drop (s.data - data)).take s.len

def UrlStrs.bytes (data : Nat) (url : List UInt8) (r : UrlStrs) : RequestUrl where
  scheme := r.scheme.bytes data url
  user := r.user.bytes data url
  host := r.host.bytes data url
  port := r.port.bytes data url
  path := r.path.bytes data url
  args := r.args.bytes data url
  fragment := r.fragment.bytes data url
  hostWithPort := r.hostWithPort.bytes data url
  uriWithArgs := r.uriWithArgs.bytes data url

theorem str_bytes (data : Nat) (url : List UInt8) (a b : Nat) :
    (str data a b).bytes data url = slice url a b := by
  unfold Str.bytes str slice
  rw [Nat.add_sub_cancel_left]

theorem zeroStrs_bytes (data : Nat) (url : List UInt8) : zeroStrs.bytes data url = zeroUrl := rfl

/-- The result on pointers, read as bytes. -/
def readBack (data : Nat) (url : List UInt8) (x : Rc × UrlStrs) : Rc × RequestUrl :=
  (x.1, x.2.bytes data url)

section
variable {data : Nat} {url : List UInt8}

theorem parsePathStrs_bytes (path : Nat) (r : UrlStrs) :
    readBack data url (parsePathStrs data url path r) =
      parsePath url path (r.bytes data url) := by
  unfold parsePathStrs parsePath
  dsimp only
  by_cases hpath : path ≥ url.length
  · rw [if_pos hpath, if_pos hpath]
    rfl
  · rw [if_neg hpath, if_neg hpath]
    cases find url path url.length quest with
    | none => simp only [readBack, UrlStrs.bytes, str_bytes]
    | some args =>
      dsimp only
      by_cases hargs : args + 1 = url.length
      · rw [if_pos hargs, if_pos hargs]
        simp only [readBack, UrlStrs.bytes, str_bytes]
      · rw [if_neg hargs, if_neg hargs]
        cases find url (args + 1) url.length sharp with
        | none => simp only [readBack, UrlStrs.bytes, str_bytes]
        | some fragment =>
          dsimp only
          by_cases hfragment : fragment + 1 = url.length
          · rw [if_pos hfragment, if_pos hfragment]
            simp only [readBack, UrlStrs.bytes, str_bytes]
          · rw [if_neg hfragment, if_neg hfragment]
            simp only [readBack, UrlStrs.bytes, str_bytes]

theorem parseHostStrs_bytes (host hostLast : Nat) (r : UrlStrs) :
    readBack data url (parseHostStrs data url host hostLast r) =
      parseHost url host hostLast (r.bytes data url) := by
  unfold parseHostStrs parseHost
  cases find url host hostLast colon with
  | none =>
    dsimp only
    rw [parsePathStrs_bytes]
    simp only [UrlStrs.bytes, str_bytes]
  | some port =>
    dsimp only
    by_cases hport : port + 1 = hostLast
    · rw [if_pos hport, if_pos hport]
      simp only [readBack, UrlStrs.bytes, str_bytes]
    · rw [if_neg hport, if_neg hport, parsePathStrs_bytes]
      simp only [UrlStrs.bytes, str_bytes]

/-- Read back as bytes, the pointers are what the parser on bytes gives. -/
theorem parseStrs_bytes (r : UrlStrs) :
    readBack data url (parseRequestUrlStrs r data url) =
      parseRequestUrl (r.bytes data url) url := by
  unfold parseRequestUrlStrs parseRequestUrl
  by_cases hlen : url.length = 0
  · rw [if_pos hlen, if_pos hlen]
    rfl
  · rw [if_neg hlen, if_neg hlen]
    cases strnstr url with
    | none => rfl
    | some user =>
      dsimp only
      by_cases huser : user + 3 ≥ url.length
      · rw [if_pos huser, if_pos huser]
        simp only [readBack, UrlStrs.bytes, str_bytes]
      · rw [if_neg huser, if_neg huser]
        cases find url (user + 3) ((find url (user + 3) url.length slash).getD url.length)
            atSign with
        | none =>
          dsimp only
          rw [parseHostStrs_bytes]
          simp only [UrlStrs.bytes, str_bytes]
        | some host =>
          dsimp only
          by_cases hhost : user + 3 = host
          · rw [if_pos hhost, if_pos hhost]
            simp only [readBack, UrlStrs.bytes, str_bytes]
          · rw [if_neg hhost, if_neg hhost]
            by_cases hno : host + 1 = (find url (user + 3) url.length slash).getD url.length
            · rw [if_pos hno, if_pos hno]
              simp only [readBack, UrlStrs.bytes, str_bytes]
            · rw [if_neg hno, if_neg hno, parseHostStrs_bytes]
              simp only [UrlStrs.bytes, str_bytes]

end

/-! ## Where the pointers point -/

/-- Every field is as `P` says. -/
structure UrlStrs.All (P : Str → Prop) (r : UrlStrs) : Prop where
  scheme : P r.scheme
  user : P r.user
  host : P r.host
  port : P r.port
  path : P r.path
  args : P r.args
  fragment : P r.fragment
  hostWithPort : P r.hostWithPort
  uriWithArgs : P r.uriWithArgs

/-- The string lies in the text at `data`. -/
def Str.Inside (data : Nat) (url : List UInt8) (s : Str) : Prop :=
  data ≤ s.data ∧ s.data + s.len ≤ data + url.length

theorem str_inside {data a b : Nat} {url : List UInt8} (hab : a ≤ b) (hb : b ≤ url.length) :
    (str data a b).Inside data url := by
  show data ≤ data + a ∧ data + a + (b - a) ≤ data + url.length
  omega

theorem strnstr_le {url : List UInt8} {i : Nat} (h : strnstr url = some i) :
    i + 3 ≤ url.length := by
  have hlen := congrArg List.length (strnstr_spec h)
  simp only [List.length_append, schemeEnd_length, List.length_take, List.length_drop] at hlen
  omega

section
variable {data : Nat} {url : List UInt8} {P : Str → Prop} {r : UrlStrs}

theorem parsePathStrs_all (hP : ∀ a b, a ≤ b → b ≤ url.length → P (str data a b)) {path : Nat}
    (h : r.All P) : (parsePathStrs data url path r).2.All P := by
  unfold parsePathStrs
  dsimp only
  by_cases hpath : path ≥ url.length
  · rw [if_pos hpath]
    exact h
  · rw [if_neg hpath]
    have hall : P (str data path url.length) := hP _ _ (by omega) (Nat.le_refl _)
    cases hargs : find url path url.length quest with
    | none => exact { h with path := hall, uriWithArgs := hall }
    | some args =>
      obtain ⟨hpa, hal⟩ := find_bounds hargs
      have hp : P (str data path args) := hP _ _ hpa (by omega)
      dsimp only
      by_cases hend : args + 1 = url.length
      · rw [if_pos hend]
        exact { h with path := hp }
      · rw [if_neg hend]
        cases hfragment : find url (args + 1) url.length sharp with
        | none =>
          have ha : P (str data (args + 1) url.length) := hP _ _ (by omega) (Nat.le_refl _)
          exact { h with path := hp, args := ha, uriWithArgs := hall }
        | some fragment =>
          obtain ⟨haf, hfl⟩ := find_bounds hfragment
          have ha : P (str data (args + 1) fragment) := hP _ _ haf (by omega)
          dsimp only
          by_cases hend' : fragment + 1 = url.length
          · rw [if_pos hend']
            exact { h with path := hp, args := ha }
          · rw [if_neg hend']
            have hf : P (str data (fragment + 1) url.length) := hP _ _ (by omega) (Nat.le_refl _)
            exact { h with path := hp, args := ha, fragment := hf, uriWithArgs := hall }

theorem parseHostStrs_all (hP : ∀ a b, a ≤ b → b ≤ url.length → P (str data a b))
    {host hostLast : Nat} (hle : host ≤ hostLast) (hlast : hostLast ≤ url.length) (h : r.All P) :
    (parseHostStrs data url host hostLast r).2.All P := by
  unfold parseHostStrs
  have hall : P (str data host hostLast) := hP _ _ hle hlast
  cases hport : find url host hostLast colon with
  | none => exact parsePathStrs_all hP { h with host := hall, hostWithPort := hall }
  | some port =>
    obtain ⟨hhp, hpl⟩ := find_bounds hport
    have hh : P (str data host port) := hP _ _ hhp (by omega)
    dsimp only
    by_cases hend : port + 1 = hostLast
    · rw [if_pos hend]
      exact { h with host := hh }
    · rw [if_neg hend]
      have hp : P (str data (port + 1) hostLast) := hP _ _ (by omega) hlast
      exact parsePathStrs_all hP { h with host := hh, port := hp, hostWithPort := hall }

/-- Every pointer that is written points into the URL. -/
theorem parseStrs_all (hP : ∀ a b, a ≤ b → b ≤ url.length → P (str data a b)) (h : r.All P) :
    (parseRequestUrlStrs r data url).2.All P := by
  unfold parseRequestUrlStrs
  by_cases hlen : url.length = 0
  · rw [if_pos hlen]
    exact h
  · rw [if_neg hlen]
    cases hi : strnstr url with
    | none => exact h
    | some user =>
      have hul := strnstr_le hi
      have hs : P (str data 0 user) := hP _ _ (Nat.zero_le _) (by omega)
      dsimp only
      by_cases huser : user + 3 ≥ url.length
      · rw [if_pos huser]
        exact { h with scheme := hs }
      · rw [if_neg huser]
        obtain ⟨hostLast, hhl⟩ : ∃ hostLast,
            (find url (user + 3) url.length slash).getD url.length = hostLast := ⟨_, rfl⟩
        have hbounds : user + 3 ≤ hostLast ∧ hostLast ≤ url.length := by
          rw [← hhl]
          cases hf : find url (user + 3) url.length slash with
          | none => exact ⟨hul, Nat.le_refl _⟩
          | some i =>
            have := find_bounds hf
            exact ⟨this.1, by rw [Option.getD_some]; omega⟩
        rw [hhl]
        cases hhost : find url (user + 3) hostLast atSign with
        | none => exact parseHostStrs_all hP hbounds.1 hbounds.2 { h with scheme := hs }
        | some host =>
          obtain ⟨huh, hhlt⟩ := find_bounds hhost
          have hu : P (str data (user + 3) host) := hP _ _ huh (by omega)
          dsimp only
          by_cases hempty : user + 3 = host
          · rw [if_pos hempty]
            exact { h with scheme := hs }
          · rw [if_neg hempty]
            by_cases hno : host + 1 = hostLast
            · rw [if_pos hno]
              exact { h with scheme := hs, user := hu }
            · rw [if_neg hno]
              exact parseHostStrs_all hP (by omega) hbounds.2 { h with scheme := hs, user := hu }

end

/-- **The components of a URL.**  Over a zeroed structure, every component of a
URL that is accepted is absent or lies in the URL, and put together they give the
URL. -/
theorem parseStrs_reassembles {data : Nat} {url : List UInt8} {r : UrlStrs}
    (h : parseRequestUrlStrs zeroStrs data url = (.ok, r)) :
    r.All (fun s => s = ⟨0, 0⟩ ∨ s.Inside data url) ∧ Reassembles url (r.bytes data url) := by
  have hall : (parseRequestUrlStrs zeroStrs data url).2.All
      (fun s => s = ⟨0, 0⟩ ∨ s.Inside data url) :=
    parseStrs_all (fun a b hab hb => .inr (str_inside hab hb))
      ⟨.inl rfl, .inl rfl, .inl rfl, .inl rfl, .inl rfl, .inl rfl, .inl rfl, .inl rfl, .inl rfl⟩
  have hbytes : (.ok, r.bytes data url) = parseRequestUrl zeroUrl url := by
    rw [← zeroStrs_bytes data url, ← parseStrs_bytes, h]
    rfl
  rw [h] at hall
  refine ⟨hall, ?_⟩
  have hok : (parseRequestUrl zeroUrl url).1 = .ok := by rw [← hbytes]
  obtain ⟨c, hc, hs, he⟩ := parse_ok hok
  rw [he, Prod.mk.injEq] at hbytes
  rw [hbytes.2]
  exact hs.reassembles hc

/-- `a://u@h:1/?#f` at the address 100. -/
theorem parseStrs_reassembles_some : ∃ r,
    parseRequestUrlStrs zeroStrs 100
      [97, 58, 47, 47, 117, 64, 104, 58, 49, 47, 63, 35, 102] = (.ok, r) ∧
    r.fragment = ⟨112, 1⟩ ∧
    Reassembles [97, 58, 47, 47, 117, 64, 104, 58, 49, 47, 63, 35, 102]
      (r.bytes 100 [97, 58, 47, 47, 117, 64, 104, 58, 49, 47, 63, 35, 102]) :=
  ⟨_, rfl, by decide, (parseStrs_reassembles rfl).2⟩

end NgxToolkit.ToolkitUrl
