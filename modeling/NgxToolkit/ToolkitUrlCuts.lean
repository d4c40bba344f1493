import NgxToolkit.ToolkitUrl

/-! What the URL parser makes of any text.

`Cuts` is a text cut at the delimiters in the order in which the parser looks for
them.  It says when the text is refused (`Cuts.Fault`) and what is written into
the `ngx_request_url_t` (`Cuts.write`); a component that is absent keeps what
stood there.

* `parse_cuts`: the parser follows the cuts on every text.
* `parse_accepts_iff`: the texts on which it accepts only what has all its
  components. -/

namespace NgxToolkit.ToolkitUrl

open Lib

/-! ## A text cut at its delimiters -/

/-- A text cut at its delimiters: `scheme://[user@]hostPort[/uri]`. -/
structure Cuts where
  scheme : List UInt8
  user : Option (List UInt8)
  hostPort : List UInt8
  uri : Option (List UInt8)

/-- The user and the rest of the text before the `/`. -/
def cutUser (s : List UInt8) : Option (List UInt8) × List UInt8 :=
  match cutAt atSign s with
  | (s, none) => (none, s)
  | (user, some s) => (some user, s)

def cuts (url : List UInt8) : Option Cuts :=
  (strnstr url).map fun i =>
    let s := url.drop (i + 3)
    let a := cutUser (cutAt slash s).1
    ⟨url.take i, a.1, a.2, (cutAt slash s).2⟩

def Cuts.host (c : Cuts) : List UInt8 := (cutAt colon c.hostPort).1

def Cuts.port (c : Cuts) : Option (List UInt8) := (cutAt colon c.hostPort).2

/-- What the parser looks for: an empty user or port, nothing behind the user or
behind the scheme, and the faults of the rest. -/
structure Cuts.Sound (c : Cuts) : Prop where
  user : c.user ≠ some []
  rest : c.hostPort = [] → c.user = none ∧ c.uri ≠ none
  port : c.port ≠ some []
  uri : ∀ s ∈ c.uri, ¬ UriFault s

/-- What the parser writes. -/
def Cuts.write (c : Cuts) (r : RequestUrl) : RequestUrl :=
  writeUri (c.uri.getD [])
    { r with
      scheme := c.scheme
      user := c.user.getD r.user
      host := c.host
      port := c.port.getD r.port
      hostWithPort := c.hostPort }

/-! ## The parser follows the cuts -/

theorem schemeEnd_eq_take {s : List UInt8} (h : schemeEnd.isPrefixOf s = true) :
    s = schemeEnd ++ s.drop 3 := by
  obtain ⟨t, rfl⟩ := List.isPrefixOf_iff_prefix.mp h
  rfl

theorem strnstr_spec {url : List UInt8} {i : Nat} (h : strnstr url = some i) :
    url = url.take i ++ (schemeEnd ++ url.drop (i + 3)) := by
  induction url generalizing i with
  | nil => cases h
  | cons b s ih =>
    rw [strnstr] at h
    split at h
    · cases h
    · split at h
      · next hp =>
        rw [Option.some.injEq] at h
        subst h
        exact schemeEnd_eq_take hp
      · obtain ⟨j, hj, rfl⟩ := Option.map_eq_some_iff.mp h
        rw [List.take_succ_cons, show j + 1 + 3 = (j + 3) + 1 from by omega, List.drop_succ_cons,
          List.cons_append, ← ih hj]

/-- The text behind the host at `hostLast`. -/
def Behind (url : List UInt8) (hostLast : Nat) : Option (List UInt8) → Prop
  | none => url.length = hostLast
  | some s => Segment url (hostLast + 1) s ∧ url.length = hostLast + 1 + s.length

/-- Where the cuts of a text stand in it. -/
structure Cuts.At (c : Cuts) (url : List UInt8) (user hostLast : Nat) : Prop where
  scheme : slice url 0 user = c.scheme
  slash : (find url (user + 3) url.length slash).getD url.length = hostLast
  behind : Behind url hostLast c.uri
  host : (c.user = none ∧ find url (user + 3) hostLast atSign = none ∧
      Segment url (user + 3) c.hostPort ∧ hostLast = user + 3 + c.hostPort.length) ∨
    ∃ s, c.user = some s ∧ find url (user + 3) hostLast atSign = some (user + 3 + s.length) ∧
      Segment url (user + 3) s ∧ Segment url (user + 3 + s.length + 1) c.hostPort ∧
      hostLast = user + 3 + s.length + 1 + c.hostPort.length

theorem cuts_at {url : List UInt8} {c : Cuts} (h : cuts url = some c) :
    ∃ user hostLast, strnstr url = some user ∧ c.At url user hostLast := by
  obtain ⟨i, hi, rfl⟩ := Option.map_eq_some_iff.mp h
  have hurl := strnstr_spec hi
  have hlen := congrArg List.length hurl
  simp only [List.length_append, schemeEnd_length, List.length_take, List.length_drop] at hlen
  have hti : (url.take i).length = i := by
    rw [List.length_take]
    omega
  obtain ⟨s, hs⟩ : ∃ s, s = url.drop (i + 3) := ⟨_, rfl⟩
  have hseg : Segment url (i + 3) s := by
    refine ⟨url.take i ++ schemeEnd, [], ?_, ?_⟩
    · rw [hs, List.append_nil, List.append_assoc]
      exact hurl
    · rw [List.length_append, hti, schemeEnd_length]
  have hl : url.length = i + 3 + s.length := by
    rw [hs, List.length_drop]
    omega
  -- the text up to the `/`, and what is behind it
  obtain ⟨a, hostLast, ha, hla, hslash, hcut, hbehind⟩ : ∃ a hostLast,
      Segment url (i + 3) a ∧ hostLast = i + 3 + a.length ∧
      (find url (i + 3) url.length slash).getD url.length = hostLast ∧
      (cutAt slash s).1 = a ∧ Behind url hostLast (cutAt slash s).2 := by
    rcases hseg.find_cases slash hl with ⟨-, hfind, hcut⟩ | ⟨a, u, rfl, -, hfind, hcut⟩
    · rw [hfind, hcut]
      exact ⟨s, url.length, hseg, hl, rfl, rfl, rfl⟩
    · rw [hfind, hcut]
      rw [List.length_append, List.length_cons] at hl
      exact ⟨a, i + 3 + a.length, hseg.left, rfl, rfl, rfl, hseg.behind rfl, by omega⟩
  refine ⟨i, hostLast, hi, ?_, hslash, ?_, ?_⟩
  · show slice url 0 i = url.take i
    rw [slice, List.drop_zero, Nat.sub_zero]
  · rw [← hs]
    exact hbehind
  · rw [← hs]
    dsimp only
    rw [hcut]
    unfold cutUser
    rcases ha.find_cases atSign hla with ⟨-, hfind, hat⟩ | ⟨x, y, rfl, -, hfind, hat⟩
    · rw [hat]
      exact .inl ⟨rfl, hfind, ha, hla⟩
    · rw [hat]
      rw [List.length_append, List.length_cons] at hla
      have hlast : hostLast = i + 3 + x.length + 1 + y.length := by omega
      exact .inr ⟨x, rfl, hfind, ha.left, ha.behind rfl, hlast⟩

section
variable {url : List UInt8} {hostLast : Nat} {uri : Option (List UInt8)} {r : RequestUrl}

theorem Behind.parsePath_cases (h : Behind url hostLast uri) (r : RequestUrl) :
    ((∀ s ∈ uri, ¬ UriFault s) ∧
        parsePath url (hostLast + 1) r = (.ok, writeUri (uri.getD []) r)) ∨
      (¬ (∀ s ∈ uri, ¬ UriFault s) ∧ (parsePath url (hostLast + 1) r).1 = .error) := by
  cases uri with
  | none =>
    have hl : url.length = hostLast := h
    refine .inl ⟨fun s hs => (by cases hs), ?_⟩
    unfold parsePath
    rw [if_pos (by omega)]
    rfl
  | some s =>
    obtain ⟨hseg, hl⟩ := h
    by_cases hf : UriFault s
    · refine .inr ⟨fun hno => hno s rfl hf, parsePath_fault hseg hl hf⟩
    · refine .inl ⟨fun s' hs' => ?_, parsePath_sound hseg hl hf⟩
      cases hs'
      exact hf

end

/-- From the host on it does not matter whether there is a user. -/
theorem Cuts.At.parseHost_cases {url : List UInt8} {c : Cuts} {user hostLast host : Nat}
    (hat : c.At url user hostLast) (hseg : Segment url host c.hostPort)
    (hl : hostLast = host + c.hostPort.length) (hu : c.user ≠ some [])
    (hrest : c.hostPort = [] → c.user = none ∧ c.uri ≠ none) (r : RequestUrl) :
    (c.Sound ∧ parseHost url host hostLast
        { r with scheme := c.scheme, user := c.user.getD r.user } = (.ok, c.write r)) ∨
      (¬ c.Sound ∧ (parseHost url host hostLast
        { r with scheme := c.scheme, user := c.user.getD r.user }).1 = .error) := by
  rcases ToolkitUrl.parseHost_cases hseg hl { r with
    scheme := c.scheme, user := c.user.getD r.user } with ⟨hport, hp⟩ | ⟨hport, hp⟩
  · rw [hp]
    rcases hat.behind.parsePath_cases { r with
      scheme := c.scheme
      user := c.user.getD r.user
      host := (cutAt colon c.hostPort).1
      port := (cutAt colon c.hostPort).2.getD r.port
      hostWithPort := c.hostPort } with ⟨huri, hpath⟩ | ⟨huri, hpath⟩
    · exact .inl ⟨⟨hu, hrest, hport, huri⟩, hpath⟩
    · exact .inr ⟨fun hs => huri hs.uri, hpath⟩
  · exact .inr ⟨fun hs => hs.port hport, hp⟩

/-- **The parser follows the cuts.**  Whatever stood in the `ngx_request_url_t`,
a text without fault is accepted and its components are written; any other text is
refused. -/
theorem parse_cuts {url : List UInt8} {c : Cuts} (h : cuts url = some c) (r : RequestUrl) :
    (c.Sound ∧ parseRequestUrl r url = (.ok, c.write r)) ∨
      (¬ c.Sound ∧ (parseRequestUrl r url).1 = .error) := by
  obtain ⟨i, hostLast, hi, hat⟩ := cuts_at h
  have hlast : c.uri = none → url.length = hostLast := by
    intro huri
    have hb := hat.behind
    rw [huri] at hb
    exact hb
  have hle : hostLast ≤ url.length := by
    have hb := hat.behind
    cases huri : c.uri with
    | none => exact Nat.le_of_eq (hlast huri).symm
    | some s =>
      rw [huri] at hb
      have := hb.2
      omega
  unfold parseRequestUrl
  rw [hi]
  dsimp only
  rw [hat.slash, hat.scheme]
  rcases hat.host with ⟨hu, hfind, hseg, hl⟩ | ⟨s, hu, hfind, hs, hseg, hl⟩
  · rw [if_neg (by omega), hfind]
    by_cases hend : i + 3 ≥ url.length
    · -- nothing behind the scheme
      rw [if_pos hend]
      refine .inr ⟨fun hsound => ?_, rfl⟩
      have hnil : c.hostPort = [] := List.eq_nil_of_length_eq_zero (by omega)
      refine (hsound.rest hnil).2 ?_
      have hb := hat.behind
      cases huri : c.uri with
      | none => rfl
      | some s =>
        rw [huri] at hb
        have := hb.2
        omega
    · rw [if_neg hend]
      have hcases := hat.parseHost_cases hseg hl (by rw [hu]; exact fun he => by cases he)
        (fun hnil => ⟨hu, fun huri => by
          have := hlast huri
          rw [hnil, List.length_nil] at hl
          omega⟩) r
      rw [hu] at hcases
      exact hcases
  · rw [if_neg (by omega), if_neg (by omega), hfind]
    dsimp only
    by_cases hnil : s = []
    · rw [if_pos (by rw [hnil]; rfl)]
      exact .inr ⟨fun hsound => hsound.user (by rw [hu, hnil]), rfl⟩
    · have hpos := List.length_pos_of_ne_nil hnil
      rw [if_neg (by omega), hs.slice rfl]
      by_cases hhost : c.hostPort = []
      · rw [hhost, List.length_nil] at hl
        rw [if_pos (by omega)]
        refine .inr ⟨fun hsound => ?_, rfl⟩
        have hno := (hsound.rest hhost).1
        rw [hu] at hno
        cases hno
      · have hpos' := List.length_pos_of_ne_nil hhost
        rw [if_neg (by omega)]
        have hcases := hat.parseHost_cases hseg hl
          (by rw [hu]; exact fun he => hnil (Option.some.inj he)) (fun he => absurd he hhost) r
        rw [hu] at hcases
        exact hcases

theorem parse_no_cuts {url : List UInt8} (h : cuts url = none) (r : RequestUrl) :
    (parseRequestUrl r url).1 = .error := by
  have hno : strnstr url = none := by
    unfold cuts at h
    rwa [Option.map_eq_none_iff] at h
  unfold parseRequestUrl
  split
  · rfl
  · rw [hno]

/-- A text that is accepted has cuts without fault. -/
theorem parse_ok {url : List UInt8} {r : RequestUrl} (h : (parseRequestUrl r url).1 = .ok) :
    ∃ c, cuts url = some c ∧ c.Sound ∧ parseRequestUrl r url = (.ok, c.write r) := by
  cases hc : cuts url with
  | none =>
    rw [parse_no_cuts hc r] at h
    cases h
  | some c =>
    rcases parse_cuts hc r with ⟨hs, he⟩ | ⟨-, he⟩
    · exact ⟨c, rfl, hs, he⟩
    · rw [he] at h
      cases h

/-! ## The components put together -/

/-- `[user@]`. -/
def RequestUrl.userPart (r : RequestUrl) : List UInt8 :=
  if r.user = [] then [] else r.user ++ [atSign]

/-- `[:port]`. -/
def RequestUrl.portPart (r : RequestUrl) : List UInt8 :=
  if r.port = [] then [] else colon :: r.port

/-- `[#fragment]`. -/
def RequestUrl.fragmentPart (r : RequestUrl) : List UInt8 :=
  if r.fragment = [] then [] else sharp :: r.fragment

/-- `[?args[#fragment]]`. -/
def RequestUrl.argsPart (r : RequestUrl) : List UInt8 :=
  if r.args = [] ∧ r.fragment = [] then [] else quest :: (r.args ++ r.fragmentPart)

/-- Put together, the components give the text. -/
structure Reassembles (url : List UInt8) (r : RequestUrl) : Prop where
  hostWithPort : r.hostWithPort = r.host ++ r.portPart
  uriWithArgs : r.uriWithArgs = r.path ++ r.argsPart
  whole : ∃ t, (t = [] ∨ t = [slash] ∨ t = slash :: r.uriWithArgs) ∧
    url = r.scheme ++ (schemeEnd ++ (r.userPart ++ (r.hostWithPort ++ t)))

theorem cuts_text {url : List UInt8} {c : Cuts} (h : cuts url = some c) :
    url = c.scheme ++ (schemeEnd ++
      (c.user.elim [] (· ++ [atSign]) ++ (c.hostPort ++ optPart slash c.uri))) := by
  obtain ⟨i, hi, rfl⟩ := Option.map_eq_some_iff.mp h
  dsimp only
  obtain ⟨s, hs⟩ : ∃ s, s = url.drop (i + 3) := ⟨_, rfl⟩
  have huser : (cutAt slash s).1 = (cutUser (cutAt slash s).1).1.elim [] (· ++ [atSign]) ++
      (cutUser (cutAt slash s).1).2 := by
    unfold cutUser
    rcases cutAt_cases atSign (cutAt slash s).1 with ⟨-, hat⟩ | ⟨x, y, hxy, -, hat⟩
    · rw [hat]
      rfl
    · rw [hat]
      rw [hxy]
      simp
  have hslash : s = (cutAt slash s).1 ++ optPart slash (cutAt slash s).2 := cutAt_append slash s
  have hurl := strnstr_spec hi
  rw [← hs] at hurl ⊢
  rw [← List.append_assoc _ _ (optPart slash _), ← huser, ← hslash]
  exact hurl

theorem reassembles_uri {s : List UInt8} {r : RequestUrl} (h : ¬ UriFault s)
    (ha : r.args = []) (hf : r.fragment = []) (hp : r.path = []) (hu : r.uriWithArgs = []) :
    (writeUri s r).uriWithArgs = s ∧
      (writeUri s r).uriWithArgs = (writeUri s r).path ++ (writeUri s r).argsPart := by
  unfold UriFault at h
  rw [not_or] at h
  obtain ⟨hq, hfr⟩ := h
  unfold writeUri
  by_cases hs : s = []
  · rw [if_pos hs]
    refine ⟨hu.trans hs.symm, ?_⟩
    unfold RequestUrl.argsPart
    rw [hu, hp, ha, hf]
    rfl
  · rw [if_neg hs]
    refine ⟨rfl, ?_⟩
    dsimp only
    unfold RequestUrl.argsPart RequestUrl.fragmentPart
    dsimp only
    unfold fragmentText argsText query pathText at *
    rcases cutAt_cases quest s with ⟨-, hcut⟩ | ⟨x, q, rfl, -, hcut⟩
    · rw [hcut]
      simp [ha, hf]
    · rw [hcut] at hq hfr ⊢
      rw [Option.bind_some] at hfr
      rw [Option.map_some, Option.bind_some]
      have hqne : q ≠ [] := fun he => hq (by rw [he])
      rcases cutAt_cases sharp q with ⟨-, hcutq⟩ | ⟨y, f, rfl, -, hcutq⟩
      · rw [hcutq]
        simp [hf, hqne]
      · rw [hcutq] at hfr ⊢
        have hfne : f ≠ [] := fun he => hfr (by rw [he])
        simp [hfne]

/-- The text behind the host leaves what is written before. -/
theorem Cuts.write_head (c : Cuts) (r : RequestUrl) :
    (c.write r).scheme = c.scheme ∧ (c.write r).user = c.user.getD r.user ∧
      (c.write r).host = c.host ∧ (c.write r).port = c.port.getD r.port ∧
      (c.write r).hostWithPort = c.hostPort := by
  unfold write writeUri
  split
  · exact ⟨rfl, rfl, rfl, rfl, rfl⟩
  · exact ⟨rfl, rfl, rfl, rfl, rfl⟩

theorem Cuts.Sound.userPart {c : Cuts} (h : c.Sound) :
    (c.write zeroUrl).userPart = c.user.elim [] (· ++ [atSign]) := by
  unfold RequestUrl.userPart
  rw [(c.write_head zeroUrl).2.1]
  have hu := h.user
  cases huser : c.user with
  | none => rfl
  | some u =>
    rw [huser] at hu
    have hne : u ≠ [] := fun he => hu (by rw [he])
    exact if_neg hne

theorem Cuts.Sound.portPart {c : Cuts} (h : c.Sound) :
    c.hostPort = c.host ++ (c.write zeroUrl).portPart := by
  unfold RequestUrl.portPart
  rw [(c.write_head zeroUrl).2.2.2.1]
  have hcut := cutAt_append colon c.hostPort
  have hport := h.port
  unfold Cuts.host
  unfold Cuts.port at hport ⊢
  cases hp : (cutAt colon c.hostPort).2 with
  | none =>
    rw [hp] at hcut
    exact hcut
  | some p =>
    rw [hp] at hcut hport
    have hne : p ≠ [] := fun he => hport (by rw [he])
    rw [Option.getD_some, if_neg hne]
    exact hcut

/-- What is written over a zeroed structure gives the text. -/
theorem Cuts.Sound.reassembles {url : List UInt8} {c : Cuts} (h : cuts url = some c)
    (hs : c.Sound) : Reassembles url (c.write zeroUrl) := by
  obtain ⟨hsc, -, hho, -, hhp⟩ := c.write_head zeroUrl
  have hfault : ¬ UriFault (c.uri.getD []) := by
    cases huri : c.uri with
    | none =>
      rintro (he | he)
      · cases he
      · cases he
    | some s => exact hs.uri s huri
  obtain ⟨huri, hparts⟩ : (c.write zeroUrl).uriWithArgs = c.uri.getD [] ∧
      (c.write zeroUrl).uriWithArgs = (c.write zeroUrl).path ++ (c.write zeroUrl).argsPart :=
    reassembles_uri hfault rfl rfl rfl rfl
  refine ⟨by rw [hhp, hho]; exact hs.portPart, hparts, optPart slash c.uri, ?_, ?_⟩
  · rw [huri]
    cases c.uri with
    | none => exact .inl rfl
    | some s => exact .inr (.inr rfl)
  · rw [hs.userPart, hsc, hhp]
    exact cuts_text h

/-! ## What is accepted -/

/-- The args of the documented format: up to the first `#`. -/
def docArgs (s : List UInt8) : Option (List UInt8) := (cutAt quest (cutAt sharp s).1).2

/-- The fragment of the documented format: behind the first `#`. -/
def docFragment (s : List UInt8) : Option (List UInt8) := (cutAt sharp s).2

/-- Scheme, host and every component whose delimiter is there are not empty. -/
structure Cuts.Formed (c : Cuts) : Prop where
  scheme : c.scheme ≠ []
  user : c.user ≠ some []
  host : c.host ≠ []
  port : c.port ≠ some []
  args : ∀ s ∈ c.uri, docArgs s ≠ some []
  fragment : ∀ s ∈ c.uri, docFragment s ≠ some []

/-- A `#` right behind the first `?`, or a `#` at the end without any `?`. -/
def UriHole (s : List UInt8) : Prop :=
  (∃ x y, s = x ++ quest :: sharp :: y ∧ quest ∉ x ∧ sharp ∉ x) ∨
    ∃ x, s = x ++ [sharp] ∧ quest ∉ x ∧ sharp ∉ x

/-- What the parser does not look for. -/
def Cuts.Hole (c : Cuts) : Prop := c.scheme = [] ∨ c.host = [] ∨ ∃ s ∈ c.uri, UriHole s

theorem uriHole_iff {s : List UInt8} (h : ¬ UriFault s) :
    docArgs s ≠ some [] ∧ docFragment s ≠ some [] ↔ ¬ UriHole s := by
  unfold UriFault fragmentText query at h
  rw [not_or] at h
  unfold docArgs docFragment UriHole
  rcases cutAt_cases sharp s with ⟨hs, hcut⟩ | ⟨x, y, rfl, hx, hcut⟩
  · -- no `#`, and so no hole
    rw [hcut]
    refine iff_of_true ⟨h.1, fun he => by cases he⟩ ?_
    rintro (⟨a, b, rfl, -⟩ | ⟨a, rfl, -⟩)
    · exact hs (by simp)
    · exact hs (by simp)
  · rw [hcut]
    -- the two kinds of hole have their `#` at the first place of it
    have hfirst : ∀ {a b}, x ++ sharp :: y = a ++ quest :: sharp :: b → sharp ∉ a →
        x = a ++ [quest] := by
      intro a b he ha
      have he' : x ++ sharp :: y = (a ++ [quest]) ++ sharp :: b := by
        rw [he, List.append_assoc]
        rfl
      refine (cut_unique he' hx ?_).1
      rw [List.mem_append, List.mem_singleton, not_or]
      exact ⟨ha, by decide⟩
    rcases cutAt_cases quest x with ⟨hq, hcutx⟩ | ⟨w, v, rfl, hw, hcutx⟩
    · rw [hcutx]
      constructor
      · rintro ⟨-, hy⟩ (⟨a, b, he, -, ha⟩ | ⟨a, he, -, ha⟩)
        · rw [hfirst he ha] at hq
          exact hq (by simp)
        · exact hy (congrArg some (cut_unique he hx ha).2)
      · intro hno
        refine ⟨fun he => (by cases he), fun he => hno (.inr ⟨x, ?_, hq, hx⟩)⟩
        rw [Option.some.inj he]
    · have hv : sharp ∉ v := fun hm => hx (List.mem_append_right _ (List.mem_cons_of_mem _ hm))
      have hcutq : cutAt quest (w ++ quest :: v ++ sharp :: y) = (w, some (v ++ sharp :: y)) := by
        rw [List.append_assoc, List.cons_append]
        exact cutAt_append_cons _ hw
      rw [hcutq] at h
      dsimp only at h
      rw [Option.bind_some, cutAt_append_cons y hv] at h
      rw [hcutx]
      constructor
      · rintro ⟨hvne, -⟩ (⟨a, b, he, haq, ha⟩ | ⟨a, he, -, ha⟩)
        · exact hvne (congrArg some (cut_unique (hfirst he ha) hw haq).2)
        · exact h.2 (congrArg some (cut_unique he hx ha).2)
      · intro hno
        refine ⟨fun he => hno (.inl ⟨w, y, ?_, hw, fun hm => hx ?_⟩), h.2⟩
        · rw [Option.some.inj he, List.append_assoc]
          rfl
        · exact List.mem_append_left _ hm

theorem Cuts.Sound.formed_iff {c : Cuts} (h : c.Sound) : c.Formed ↔ ¬ c.Hole := by
  constructor
  · rintro hf (hs | hh | ⟨s, hs, hole⟩)
    · exact hf.scheme hs
    · exact hf.host hh
    · exact (uriHole_iff (h.uri s hs)).mp ⟨hf.args s hs, hf.fragment s hs⟩ hole
  · intro hno
    have huri : ∀ s ∈ c.uri, docArgs s ≠ some [] ∧ docFragment s ≠ some [] := fun s hs =>
      (uriHole_iff (h.uri s hs)).mpr fun hole => hno (.inr (.inr ⟨s, hs, hole⟩))
    exact ⟨fun he => hno (.inl he), h.user, fun he => hno (.inr (.inl he)), h.port,
      fun s hs => (huri s hs).1, fun s hs => (huri s hs).2⟩

/-- **Acceptance.**  The parser accepts the text only if all its components are
there, if and only if the text has a fault that the parser looks for or none of
the holes that it does not look for. -/
theorem parse_accepts_iff (url : List UInt8) :
    (∀ r, (parseRequestUrl r url).1 = .ok → ∃ c, cuts url = some c ∧ c.Formed) ↔
      ∀ c, cuts url = some c → ¬ c.Sound ∨ ¬ c.Hole := by
  constructor
  · intro h c hc
    rcases parse_cuts hc zeroUrl with ⟨hs, he⟩ | ⟨hs, -⟩
    · obtain ⟨c', hc', hf⟩ := h zeroUrl (by rw [he])
      rw [hc, Option.some.injEq] at hc'
      rw [← hc'] at hf
      exact .inr (hs.formed_iff.mp hf)
    · exact .inl hs
  · intro h r hok
    obtain ⟨c, hc, hs, -⟩ := parse_ok hok
    exact ⟨c, hc, hs.formed_iff.mpr ((h c hc).resolve_left fun hno => hno hs)⟩

/-- `http:///p` is accepted and has no host. -/
theorem accepts_no_host : ¬ ∀ url r, (parseRequestUrl r url).1 = .ok →
    ∃ c, cuts url = some c ∧ c.Formed := by
  intro hall
  obtain ⟨c, hc, hf⟩ := hall [104, 116, 116, 112, 58, 47, 47, 47, 112] zeroUrl (by decide)
  cases hc
  exact absurd hf.host (by decide)

/-! ## What stood in the structure before -/

/-- All optional components are there. -/
def Cuts.Full (c : Cuts) : Prop :=
  c.user ≠ none ∧ c.port ≠ none ∧ ∃ s ∈ c.uri, fragmentText s ≠ none

theorem Cuts.Full.write_eq {c : Cuts} (h : c.Full) (r r' : RequestUrl) : c.write r = c.write r' := by
  obtain ⟨hu, hp, s, hs, hf⟩ := h
  obtain ⟨u, hu⟩ := Option.ne_none_iff_exists'.mp hu
  obtain ⟨p, hp⟩ := Option.ne_none_iff_exists'.mp hp
  obtain ⟨f, hf⟩ := Option.ne_none_iff_exists'.mp hf
  obtain ⟨q, hq, -⟩ := Option.bind_eq_some_iff.mp hf
  have huri : c.uri = some s := hs
  have hne : s ≠ [] := by
    rintro rfl
    cases hq
  have ha : argsText s = some (cutAt sharp q).1 := by
    unfold argsText
    rw [hq, Option.map_some]
  unfold write writeUri
  rw [huri, Option.getD_some, if_neg hne, if_neg hne, hu, hp, hf, ha]
  rfl

/-- A text that is written alike over a zeroed and over any other structure is full. -/
theorem Cuts.full_of_write_eq {c : Cuts} (h : ∀ r r', c.write r = c.write r') : c.Full := by
  have hkept := h zeroUrl ⟨[0], [0], [0], [0], [0], [0], [0], [0], [0]⟩
  have hne : ([] : List UInt8) ≠ [0] := by decide
  unfold write writeUri at hkept
  by_cases hs : c.uri.getD [] = []
  · rw [if_pos hs, if_pos hs, RequestUrl.mk.injEq] at hkept
    exact absurd hkept.2.2.2.2.1 hne
  · rw [if_neg hs, if_neg hs, RequestUrl.mk.injEq] at hkept
    obtain ⟨-, hu, -, hp, -, -, hf, -⟩ := hkept
    refine ⟨fun he => ?_, fun he => ?_, ?_⟩
    · rw [he] at hu
      exact hne hu
    · rw [he] at hp
      exact hne hp
    · cases huri : c.uri with
      | none => exact absurd (by rw [huri]; rfl) hs
      | some s =>
        refine ⟨s, rfl, fun he => ?_⟩
        rw [huri, Option.getD_some, he] at hf
        exact hne hf

/-- **Prior content.**  What an accepted text leaves does not depend on what stood
in the `ngx_request_url_t` if and only if the text has all optional components. -/
theorem parse_prior_iff {url : List UInt8} (hok : ∃ r, (parseRequestUrl r url).1 = .ok) :
    (∀ r r', parseRequestUrl r url = parseRequestUrl r' url) ↔
      ∃ c, cuts url = some c ∧ c.Full := by
  obtain ⟨r0, hok⟩ := hok
  obtain ⟨c, hc, hs, -⟩ := parse_ok hok
  have hwrite : ∀ r, parseRequestUrl r url = (.ok, c.write r) := fun r =>
    ((parse_cuts hc r).resolve_right fun hno => hno.1 hs).2
  simp only [hwrite, Prod.mk.injEq, true_and, hc, Option.some.injEq, exists_eq_left']
  exact ⟨Cuts.full_of_write_eq, fun h r r' => h.write_eq r r'⟩

/-- `a://u@h:1/p?q#f`, over a zeroed structure and over a port left there. -/
theorem parse_prior_full :
    parseRequestUrl zeroUrl
        [97, 58, 47, 47, 117, 64, 104, 58, 49, 47, 112, 63, 113, 35, 102] =
      parseRequestUrl { zeroUrl with port := [56, 48] }
        [97, 58, 47, 47, 117, 64, 104, 58, 49, 47, 112, 63, 113, 35, 102] :=
  (parse_prior_iff ⟨zeroUrl, by decide⟩).mpr
    ⟨_, rfl, by decide, by decide, _, rfl, by decide⟩ zeroUrl { zeroUrl with port := [56, 48] }

/-- `a://h` leaves the port of the URL before. -/
theorem prior_port_left : ¬ ∀ url r r', (parseRequestUrl r url).1 = .ok →
    (parseRequestUrl r' url).1 = .ok → (parseRequestUrl r url).2 = (parseRequestUrl r' url).2 := by
  intro hall
  have h := hall [97, 58, 47, 47, 104] zeroUrl { zeroUrl with port := [56, 48] } (by decide)
    (by decide)
  exact absurd h (by decide)

end NgxToolkit.ToolkitUrl
