import Mathlib.Tactic.Common
import NgxToolkit.DebugState
import NgxToolkit.ToolkitPton
import NgxToolkit.ToolkitUrlCuts

/-! The port of a request (`ngx_request_port` in `ngx_toolkit_misc.c`).

The port of a URL is read twice: `ngx_request_port` reads the component `port`, and
`ngx_sock_pton` the end of `host_with_port`.

* `requestPort_cases`: the port that is read, or the one of the scheme.
* `requestPort_agrees`: the two functions agree on every URL that is accepted.
* `requestPort_written`: a number that is written into a URL is the one that is read. -/

namespace NgxToolkit.ToolkitPort

open Lib ToolkitPton ToolkitUrl

variable {α β : Type} {core : Core α β}

/-- `ngx_sheme_port` -/
def schemePort : List (List UInt8 × Nat) :=
  [(bytes "http", 80), (bytes "https", 443), (bytes "rtmp", 1935)]

/-- The port of a scheme, 0 for an unknown one. -/
def defaultPort (scheme : List UInt8) : Nat :=
  ((schemePort.find? fun sp => sp.1 == scheme).map Prod.snd).getD 0

/-- `ngx_request_port` -/
def requestPort (core : Core α β) (scheme port : List UInt8) : Nat :=
  if port.length ≠ 0 then
    let p := core.atoi port
    if p < 1 ∨ p > 65535 then 0 else p.toNat
  else defaultPort scheme

/-! ## Numbers in decimal -/

theorem isDigit_byte {c : Char} (hc : c.isDigit = true) :
    48 ≤ c.toNat.toUInt8 ∧ c.toNat.toUInt8 ≤ 57 ∧ c.toNat.toUInt8.toNat = c.toNat := by
  have hb : 48 ≤ c.toNat ∧ c.toNat ≤ 57 := Char.isDigit_iff_toNat.mp hc
  have hn : c.toNat.toUInt8.toNat = c.toNat := Nat.mod_eq_of_lt (by omega)
  refine ⟨?_, ?_, hn⟩
  · rw [UInt8.le_iff_toNat_le, hn]
    exact hb.1
  · rw [UInt8.le_iff_toNat_le, hn]
    exact hb.2

theorem uiText_digits (n : Nat) : ∀ c ∈ uiText n, 48 ≤ c ∧ c ≤ 57 := by
  intro c hc
  obtain ⟨d, hd, rfl⟩ := List.mem_map.mp hc
  have hdigit := isDigit_byte (Nat.isDigit_of_mem_toDigits (by decide) (by decide) hd)
  exact ⟨hdigit.1, hdigit.2.1⟩

theorem uiText_ne_nil (n : Nat) : uiText n ≠ [] := by
  unfold uiText
  rw [Ne, List.map_eq_nil_iff]
  exact Nat.toDigits_ne_nil

/-- The text of a number is read as the number. -/
theorem decimal_uiText (n : Nat) : decimal (uiText n) = some (n % 2 ^ 64) := by
  unfold decimal
  rw [if_pos ⟨uiText_ne_nil n, uiText_digits n⟩, Option.some.injEq]
  have hback := Nat.ofDigitChars_ten_toDigits (n := n % 2 ^ 64)
  rw [Nat.ofDigitChars_eq_foldl] at hback
  refine Eq.trans ?_ hback
  unfold uiText
  rw [List.foldl_map]
  refine List.foldl_ext _ _ _ fun m c hc => ?_
  rw [(isDigit_byte (Nat.isDigit_of_mem_toDigits (by decide) (by decide) hc)).2.2]
  rfl

/-! ## The two readers -/

/-- The port is a number of the range, or 0. -/
theorem requestPort_cases {port : List UInt8} (core : Core α β) (scheme : List UInt8)
    (hport : port ≠ []) :
    (∃ n, 0 < n ∧ n ≤ 65535 ∧ decimal port = some n ∧ requestPort core scheme port = n) ∨
      (∀ n, 0 < n → n ≤ 65535 → decimal port ≠ some n) ∧ requestPort core scheme port = 0 := by
  unfold requestPort
  rw [if_pos (mt List.length_eq_zero_iff.mp hport)]
  dsimp only
  split
  · next hbad =>
    refine .inr ⟨fun n hpos hn hd => ?_, rfl⟩
    rw [(core.atoi_decimal port n hn).mpr hd] at hbad
    omega
  · next hgood =>
    obtain ⟨n, hn⟩ : ∃ n : Nat, core.atoi port = n := ⟨(core.atoi port).toNat, by omega⟩
    have hle : n ≤ 65535 := by omega
    refine .inl ⟨n, by omega, hle, (core.atoi_decimal port n hle).mp hn, ?_⟩
    rw [hn]
    rfl

/-- The port is `n` if it is the text of `n`. -/
theorem requestPort_eq_iff {port : List UInt8} (core : Core α β) (scheme : List UInt8)
    (hport : port ≠ []) {n : Nat} (hpos : 0 < n) :
    requestPort core scheme port = n ↔ n ≤ 65535 ∧ decimal port = some n := by
  rcases requestPort_cases core scheme hport with ⟨m, hm0, hm, hd, heq⟩ | ⟨hno, heq⟩
  · rw [heq, hd, Option.some.injEq]
    constructor
    · rintro rfl
      exact ⟨hm, rfl⟩
    · rintro ⟨-, rfl⟩
      rfl
  · rw [heq]
    refine iff_of_false hpos.ne fun h => hno n hpos h.1 h.2

section
variable {host : List UInt8} {a : α}

/-- A dotted quad is for `ngx_sock_pton_inet`, with a port behind it or not. -/
theorem sockPton_quad (ha : core.inetAddr host = some a) (sa : Sockaddr α β) (rest : List UInt8)
    (hrest : ∀ c, rest.head? = some c → c = colon) :
    sockPton core sa (host ++ rest) = sockPtonInet core sa (host ++ rest) := by
  have hstart := inetAddr_start (by rw [ha]; rfl : (core.inetAddr host).isSome) hrest
  unfold sockPton
  rw [if_neg, if_neg]
  · intro hb
    exact (hstart _ hb).ne_bracket rfl
  · rintro ⟨-, hunix⟩
    obtain ⟨c, hc, hlow⟩ := unix_head hunix
    exact (hstart c hc).tolower_ne hlow

theorem sockPton_host (ha : core.inetAddr host = some a) (sa : Sockaddr α β) :
    sockPton core sa host = (sizeofIn, { sa with family := .inet, sinAddr := some a }) := by
  have hno := inetAddr_colon (by rw [ha]; rfl : (core.inetAddr host).isSome)
  have hquad := sockPton_quad ha sa [] fun c hc => (by cases hc)
  rw [List.append_nil] at hquad
  rw [hquad]
  unfold sockPtonInet
  dsimp only
  have hfind : find host 0 host.length colon = none := by
    rw [find_eq_none, slice_all]
    exact hno
  rw [hfind, Option.getD_none, slice_all, ha]

/-- The port behind the `:` is written into the address. -/
theorem sockPton_host_port (ha : core.inetAddr host = some a) (sa : Sockaddr α β)
    (port : List UInt8) :
    (∃ n, n ≤ 65535 ∧ decimal port = some n ∧
      sockPton core sa (host ++ colon :: port) =
        (sizeofIn, { sa with family := .inet, sinAddr := some a, port := n })) ∨
    ((∀ n, n ≤ 65535 → decimal port ≠ some n) ∧
      (sockPton core sa (host ++ colon :: port)).1 = 0) := by
  have hno := inetAddr_colon (by rw [ha]; rfl : (core.inetAddr host).isSome)
  rw [sockPton_quad ha sa (colon :: port) fun c hc => (Option.some.inj hc).symm]
  have htext : host ++ colon :: port = [] ++ (host ++ colon :: port) := rfl
  unfold sockPtonInet
  dsimp only
  have hfind : find (host ++ colon :: port) 0
      (host ++ colon :: port).length colon = some (0 + host.length) := by
    refine find_hit htext rfl hno ?_
    rw [List.length_append, List.length_cons, List.length_nil]
    omega
  rw [hfind, Option.getD_some]
  have hhost : slice (host ++ colon :: port) 0 (0 + host.length) = host :=
    slice_append htext rfl (by simp)
  have hport : slice (host ++ colon :: port) (0 + host.length + 1)
      (host ++ colon :: port).length = port :=
    slice_tail (x := host ++ [colon]) (by simp) (by simp) rfl
  rw [hhost, ha]
  dsimp only
  rcases setPort_eq core { sa with family := .inet, sinAddr := some a } sizeofIn hport with
    ⟨n, hn, hd, hset⟩ | ⟨hbad, hset⟩
  · exact .inl ⟨n, hn, hd, hset⟩
  · refine .inr ⟨hbad, ?_⟩
    rw [hset]

end

/-! ## URLs -/

/-- The port of a URL is the text behind the `:` in `host_with_port`. -/
theorem parse_hostWithPort {url : List UInt8} {r : RequestUrl}
    (h : parseRequestUrl zeroUrl url = (.ok, r)) :
    r.hostWithPort = r.host ++ r.portPart := by
  obtain ⟨c, -, hsound, heq⟩ := parse_ok (congrArg Prod.fst h)
  obtain rfl := congrArg Prod.snd (heq.symm.trans h)
  obtain ⟨-, -, hhost, -, hboth⟩ := c.write_head zeroUrl
  show (c.write zeroUrl).hostWithPort = (c.write zeroUrl).host ++ _
  rw [hboth, hhost]
  exact hsound.portPart

/-- **One port.**  For every URL that is accepted and whose host `ngx_inet_addr` takes for an
address (a dotted quad, but not 255.255.255.255, which is `INADDR_NONE`), the two functions
find the same port behind the host: `ngx_request_port` gives `n > 0` if and only if
`ngx_sock_pton` writes `n` into the address.  Without a port `ngx_sock_pton` leaves the port
of the address as it was, and `ngx_request_port` gives the one of the scheme. -/
theorem requestPort_agrees (core : Core α β) (sa : Sockaddr α β) (url : List UInt8)
    {r : RequestUrl} (h : parseRequestUrl zeroUrl url = (.ok, r)) {a : α}
    (ha : core.inetAddr r.host = some a) :
    (r.port = [] → requestPort core r.scheme r.port = defaultPort r.scheme ∧
      sockPton core sa r.hostWithPort =
        (sizeofIn, { sa with family := .inet, sinAddr := some a })) ∧
    (r.port ≠ [] → ∀ n, 0 < n → (requestPort core r.scheme r.port = n ↔
      sockPton core sa r.hostWithPort =
        (sizeofIn, { sa with family := .inet, sinAddr := some a, port := n }))) := by
  rw [parse_hostWithPort h]
  unfold RequestUrl.portPart
  constructor
  · intro hport
    rw [if_pos hport, List.append_nil]
    refine ⟨?_, sockPton_host ha sa⟩
    unfold requestPort
    rw [hport]
    rfl
  · intro hport n hpos
    rw [if_neg hport, requestPort_eq_iff core r.scheme hport hpos]
    rcases sockPton_host_port ha sa r.port with ⟨m, hm, hd, hsock⟩ | ⟨hno, hsock⟩
    · show _ ↔ sockPton core sa (r.host ++ colon :: r.port) = _
      rw [hsock, hd, Option.some.injEq]
      constructor
      · rintro ⟨-, rfl⟩
        rfl
      · intro heq
        have hmn : m = n := congrArg (fun x => x.2.port) heq
        exact ⟨hmn ▸ hm, hmn⟩
    · refine iff_of_false (fun hd => hno n hd.1 hd.2) fun heq => ?_
      have hlen := congrArg Prod.fst heq
      exact Nat.succ_ne_zero 15 (hsock.symm.trans hlen).symm

/-- `http://127.0.0.1:81/`. -/
theorem requestPort_agrees_loopback :
    requestPort loopbackCore (bytes "http") (bytes "81") = 81 ↔
      sockPton loopbackCore noSockaddr (bytes "127.0.0.1:81") =
        (sizeofIn, { noSockaddr with
          family := .inet, sinAddr := some [127, 0, 0, 1], port := 81 }) :=
  (requestPort_agrees loopbackCore noSockaddr (bytes "http://127.0.0.1:81/")
    (r := { zeroUrl with
      scheme := bytes "http", host := bytes "127.0.0.1", port := bytes "81"
      hostWithPort := bytes "127.0.0.1:81" })
    (a := [127, 0, 0, 1]) (by decide) (by decide)).2 (by decide) 81 (by decide)

/-- The path is behind what the port is read from. -/
theorem parsePath_head (url : List UInt8) (path : Nat) (r : RequestUrl) :
    (parsePath url path r).2.scheme = r.scheme ∧ (parsePath url path r).2.host = r.host ∧
      (parsePath url path r).2.port = r.port := by
  unfold parsePath
  dsimp only
  split
  · exact ⟨rfl, rfl, rfl⟩
  split
  · exact ⟨rfl, rfl, rfl⟩
  split
  · exact ⟨rfl, rfl, rfl⟩
  split
  · exact ⟨rfl, rfl, rfl⟩
  · split <;> exact ⟨rfl, rfl, rfl⟩

/-- **The port comes back.**  A URL that is accepted has the port that was written into it, as
any number from 1 to 65535 in decimal, or the one of its scheme if none was. -/
theorem requestPort_written (core : Core α β) (u : Url) {r : RequestUrl}
    (h : parseRequestUrl zeroUrl u.render = (.ok, r)) :
    (u.port = none → requestPort core r.scheme r.port = defaultPort u.scheme) ∧
      ∀ n, 0 < n → n ≤ 65535 → u.port = some (uiText n) → requestPort core r.scheme r.port = n := by
  rw [parse_head] at h
  obtain ⟨hscheme, -, hport⟩ := parsePath_head u.render u.pathPos u.head
  rw [h] at hscheme hport
  have hscheme : r.scheme = u.scheme := hscheme
  have hport : r.port = u.port.getD [] := hport
  rw [hscheme, hport]
  constructor
  · intro hnone
    rw [hnone]
    rfl
  · intro n hpos hn hsome
    rw [hsome, Option.getD_some, requestPort_eq_iff core u.scheme (uiText_ne_nil n) hpos,
      decimal_uiText, Nat.mod_eq_of_lt (by omega)]
    exact ⟨hn, rfl⟩

/-- `https://u@i:8443`. -/
def portUrl : Url where
  scheme := bytes "https"
  user := some [117]
  host := [105]
  port := some (uiText 8443)
  uri := none
  scheme_ne := by decide
  scheme_nul := by decide
  scheme_colon := by decide
  scheme_slash := by decide
  user_ne := by simp
  user_slash := by
    intro s hs
    obtain rfl := Option.some.inj hs
    decide
  user_at := by
    intro s hs
    obtain rfl := Option.some.inj hs
    decide
  host_ne := by decide
  host_slash := by decide
  host_at := by decide
  host_colon := by decide
  port_ne h := uiText_ne_nil 8443 (Option.some.inj h)
  port_slash := by
    intro s hs
    obtain rfl := Option.some.inj hs
    decide
  port_at := by
    intro s hs
    obtain rfl := Option.some.inj hs
    decide

theorem requestPort_written_https : ∃ r, parseRequestUrl zeroUrl portUrl.render = (.ok, r) ∧
    requestPort loopbackCore r.scheme r.port = 8443 :=
  ⟨_, by decide, (requestPort_written loopbackCore portUrl (r := { zeroUrl with
    scheme := bytes "https", user := [117], host := [105], port := bytes "8443"
    hostWithPort := bytes "i:8443" }) (by decide)).2 8443 (by decide) (by decide) (by decide)⟩

end NgxToolkit.ToolkitPort
