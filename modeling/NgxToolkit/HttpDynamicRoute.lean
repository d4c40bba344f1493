import Mathlib
import NgxToolkit.HttpDynamicSites
import NgxToolkit.Lib.Related

/-! Which blocks of the file answer a request.

`serverFor` chooses among the `server` blocks of an `http` block by what nginx documents of
`server_name`, and `locationFor` among the locations of a server.  The program chooses among
what it made of the blocks; both choose by the same names, so that what the one finds was made
of what the other finds.

* `hashed`: what is documented of the hash of the server names.
* `followSrvConf_serves`: the server of a request is that of its block.
* `dconf_serves`: the confs that it gets are those of the `http` block and of its server.
* `locDconf_serves`: the location's conf is that of its block. -/

namespace NgxToolkit.HttpDynamic

open DynamicConf DynamicConf.Parse Lib

/-! ## The names of servers -/

/-- `s` of `*.s` and of `.s`. -/
def leading : Bytes → Option Bytes
  | 46 :: c :: s => some (c :: s)
  | 42 :: 46 :: c :: s => some (c :: s)
  | _ => none

/-- `s` of `s.*`. -/
def trailing (name : Bytes) : Option Bytes :=
  if leading name = none ∧ 2 < name.length ∧ [46, 42].isSuffixOf name then
    some name.dropLast.dropLast
  else none

/-- The host that a name stands for itself; `.s` stands for `s`, too. -/
def exactName (name : Bytes) : Option Bytes :=
  if name.head? = some 46 then some ((leading name).getD name)
  else if (leading name).isSome ∨ (trailing name).isSome then none
  else some name

section
variable {β γ : Type} {R : β → γ → Prop}

/-- The key with the longest part among those whose part covers the host. -/
def longestKey (part : Bytes → Option Bytes) (covers : Bytes → Bool) (keys : List (Bytes × β)) :
    Option (Bytes × β) :=
  (keys.filter fun k => (part k.1).any covers).argmax fun k => ((part k.1).getD []).length

/-- The order of the server names: the exact name, the longest name that starts with an
asterisk, the longest name that ends with one. -/
def hashed (keys : List (Bytes × β)) (host : Bytes) : Option β :=
  match keys.find? fun k => exactName k.1 == some host with
  | some k => some k.2
  | none =>
    match longestKey leading (fun s => (46 :: s).isSuffixOf host) keys with
    | some k => some k.2
    | none =>
      (longestKey trailing (fun s => (s ++ [46]).isPrefixOf host) keys).map Prod.snd

/-- No two names stand for the same hosts in the same way. -/
structure DistinctNames (names : List Bytes) : Prop where
  exact : (names.filterMap exactName).Nodup
  leading : (names.filterMap HttpDynamic.leading).Nodup
  trailing : (names.filterMap HttpDynamic.trailing).Nodup

/-- The keys have the same names, and related values. -/
def SameName (R : β → γ → Prop) (k : Bytes × β) (k' : Bytes × γ) : Prop :=
  k.1 = k'.1 ∧ R k.2 k'.2

theorem hashed_related {keys : List (Bytes × β)} {keys' : List (Bytes × γ)}
    (h : List.Forall₂ (SameName R) keys keys') (host : Bytes) :
    Option.Rel R (hashed keys host) (hashed keys' host) := by
  have hlongest (part : Bytes → Option Bytes) (covers : Bytes → Bool) :
      Option.Rel (SameName R) (longestKey part covers keys) (longestKey part covers keys') := by
    refine argmax_related (filter_related h ?_) ?_
    · rintro k k' ⟨hname, -⟩
      rw [hname]
    · rintro k k' ⟨hname, -⟩
      rw [hname]
  have hexact : Option.Rel (SameName R) (keys.find? fun k => exactName k.1 == some host)
      (keys'.find? fun k => exactName k.1 == some host) := by
    refine find?_related h ?_
    rintro k k' ⟨hname, -⟩
    rw [hname]
  have hleading := hlongest leading fun s => (46 :: s).isSuffixOf host
  have htrailing := hlongest trailing fun s => (s ++ [46]).isPrefixOf host
  unfold hashed
  generalize (keys.find? fun k => exactName k.1 == some host) = x at hexact ⊢
  generalize (keys'.find? fun k => exactName k.1 == some host) = x' at hexact ⊢
  generalize longestKey leading _ keys = y at hleading ⊢
  generalize longestKey leading _ keys' = y' at hleading ⊢
  generalize longestKey trailing _ keys = z at htrailing ⊢
  generalize longestKey trailing _ keys' = z' at htrailing ⊢
  cases hexact with
  | some hk => exact .some hk.2
  | none =>
  cases hleading with
  | some hk => exact .some hk.2
  | none =>
  cases htrailing with
  | some hk => exact .some hk.2
  | none => exact .none

theorem hashed_mem {keys : List (Bytes × β)} {host : Bytes} {b : β}
    (h : hashed keys host = some b) : ∃ name, (name, b) ∈ keys := by
  have hlongest {part : Bytes → Option Bytes} {covers : Bytes → Bool} {k : Bytes × β}
      (h : longestKey part covers keys = some k) : k ∈ keys :=
    (List.mem_filter.mp (List.argmax_mem h)).1
  unfold hashed at h
  split at h
  · next k hk =>
    cases h
    exact ⟨k.1, List.mem_of_find?_eq_some hk⟩
  split at h
  · next k hk =>
    cases h
    exact ⟨k.1, hlongest hk⟩
  · obtain ⟨k, hk, rfl⟩ := Option.map_eq_some_iff.mp h
    exact ⟨k.1, hlongest hk⟩

end

section
variable {ρ β γ : Type} {R : β → γ → Prop}

/-- The hash is as documented for lower-case names that do not conflict. -/
structure Env.Documented (env : Env ρ) : Prop where
  hashInit : ∀ maxSize bucketSize keys find, DistinctNames (keys.map Prod.fst) →
    (∀ k ∈ keys, k.1.map tolower = k.1) → env.hashInit maxSize bucketSize keys = some find →
    ∀ host, find host = hashed keys host

/-- The names without regex. -/
def plainNames (names : List (ServerName ρ × β)) : List (Bytes × β) :=
  names.filterMap fun (name, server) =>
    if name.regex.isSome then none else some (name.name, server)

def regexNames (names : List (ServerName ρ × β)) : List (ρ × β) :=
  names.filterMap fun (name, server) => name.regex.map fun re => (re, server)

theorem plainNames_related {names : List (ServerName ρ × β)} {names' : List (ServerName ρ × γ)}
    (h : List.Forall₂ (fun n n' => n.1 = n'.1 ∧ R n.2 n'.2) names names') :
    List.Forall₂ (SameName R) (plainNames names) (plainNames names') := by
  refine List.rel_filterMap (fun n n' hn => ?_) h
  obtain ⟨name, b⟩ := n
  obtain ⟨name', c⟩ := n'
  obtain ⟨rfl, hbc⟩ := hn
  dsimp only at hbc ⊢
  split
  · exact .none
  · exact .some ⟨rfl, hbc⟩

theorem regexNames_related {names : List (ServerName ρ × β)} {names' : List (ServerName ρ × γ)}
    (h : List.Forall₂ (fun n n' => n.1 = n'.1 ∧ R n.2 n'.2) names names') :
    List.Forall₂ (fun n n' => n.1 = n'.1 ∧ R n.2 n'.2) (regexNames names) (regexNames names') := by
  refine List.rel_filterMap (fun n n' hn => ?_) h
  obtain ⟨name, b⟩ := n
  obtain ⟨name', c⟩ := n'
  obtain ⟨rfl, hbc⟩ := hn
  dsimp only at hbc ⊢
  cases name.regex with
  | none => exact .none
  | some re => exact .some ⟨rfl, hbc⟩

end

/-! ## The server of a request -/

/-- What a match says to the search of the first one. -/
def Exec.search : Exec → Search
  | .matched => .here
  | .noMatch => .next
  | .failed => .refuse

section
variable {ρ : Type} {env : Env ρ} {cycle : Cycle}

/-- The names of the `server` blocks, each with its block. -/
def hostNames (env : Env ρ) (cycle : Cycle) (http : Items) : List (ServerName ρ × Items) :=
  (blocks http).flatMap fun d =>
    (namesIn env cycle ⟨.http, .httpSrv⟩ d.2).map fun name => (name, d.2)

/-- **The `server` block of a request**: that of the names' hash, else of the first regex that
matches, else the first one; none, if a regex fails. -/
def serverFor (env : Env ρ) (cycle : Cycle) (http : Items) (host : Bytes) : Option Items :=
  let names := hostNames env cycle http
  match hashed (plainNames names) host with
  | some body => some body
  | none =>
    let first := (blocks http).head?.map Prod.snd
    if host = [] then first
    else searchFirst (fun n => (env.exec n.1 host).search) Prod.snd first (regexNames names)

/-- The names in lower case, as `server_name` leaves them. -/
theorem serverName_lower {value : Bytes} {name : ServerName ρ}
    (h : serverName env value = some name) (hregex : name.regex = none) :
    name.name.map tolower = name.name := by
  unfold serverName at h
  dsimp only at h
  split at h
  · cases h
  split at h
  · split at h
    · cases h
    · obtain ⟨re, -, rfl⟩ := Option.map_eq_some_iff.mp h
      cases hregex
  · cases h
    rw [List.map_map]
    exact List.map_congr_left fun c _ => tolower_tolower c

theorem namesIn_lower (items : Items) (p : Place) :
    ∀ name ∈ namesIn env cycle p items, name.regex = none → name.name.map tolower = name.name := by
  induction items with
  | nil => exact fun name hname => absurd hname List.not_mem_nil
  | simple args next ih =>
    unfold namesIn
    split
    · intro name hname
      rcases List.mem_append.mp hname with hname | hname
      · obtain ⟨value, -, hvalue⟩ := List.mem_filterMap.mp hname
        exact serverName_lower hvalue
      · exact ih name hname
    · exact ih
  | block args body next _ ih => exact ih

/-- The servers with their names are those of the blocks. -/
theorem names_related {calls : List (Call (Option Obj) (Option (Load ρ)))} {a b : Nat}
    {ds : List (Args × Items)} {servers : List (SrvConf ρ)}
    (h : List.Forall₂ (fun d s => SrvConf.Serves env cycle calls a b d.2 s) ds servers) :
    List.Forall₂ (fun n n' => n.1 = n'.1 ∧ SrvConf.Serves env cycle calls a b n.2 n'.2)
      (ds.flatMap fun d => (namesIn env cycle ⟨.http, .httpSrv⟩ d.2).map fun name => (name, d.2))
      (servers.flatMap fun s => s.serverNames.map fun name => (name, s)) := by
  refine List.rel_flatMap h fun d s hs => ?_
  rw [hs.names]
  generalize namesIn env cycle ⟨.http, .httpSrv⟩ d.2 = names
  induction names with
  | nil => exact .nil
  | cons name names ih => exact .cons ⟨rfl, hs⟩ ih

/-- The loop over the regexes is a search of the first one that matches. -/
theorem findRegexServer_cases (host : Bytes) (default : SrvConf ρ)
    (names : List (ρ × SrvConf ρ)) :
    (∃ s, findVirtualServer.go env host names = (.ok, .to s) ∧
      searchFirst (fun n => (env.exec n.1 host).search) Prod.snd (some default) names = some s) ∨
    (findVirtualServer.go env host names = (.declined, .unassigned) ∧
      searchFirst (fun n => (env.exec n.1 host).search) Prod.snd (some default) names =
        some default) ∨
    (findVirtualServer.go env host names = (.error, .unassigned) ∧
      searchFirst (fun n => (env.exec n.1 host).search) Prod.snd (some default) names = none) := by
  induction names with
  | nil => exact .inr (.inl ⟨rfl, rfl⟩)
  | cons n names ih =>
    obtain ⟨re, s⟩ := n
    unfold findVirtualServer.go searchFirst
    dsimp only
    cases env.exec re host with
    | noMatch => exact ih
    | matched => exact .inl ⟨s, rfl, rfl⟩
    | failed => exact .inr (.inr ⟨rfl, rfl⟩)

/-- What is found in the hash of the server names. -/
theorem initVirtualServers_hash (hdoc : env.Documented) {main main' : MainConf ρ}
    (h : main.initVirtualServers env = some main')
    (hlower : ∀ s ∈ main.servers, ∀ name ∈ s.serverNames, name.regex = none →
      name.name.map tolower = name.name)
    (hdistinct : DistinctNames ((plainNames (main.servers.flatMap fun s =>
      s.serverNames.map fun name => (name, s))).map Prod.fst)) (host : Bytes) :
    main'.names host = hashed (plainNames (main.servers.flatMap fun s =>
      s.serverNames.map fun name => (name, s))) host := by
  obtain ⟨find, hfind, rfl⟩ := Option.map_eq_some_iff.mp h
  change (if (plainNames _).isEmpty = true then some fun _ => none
    else env.hashInit _ _ (plainNames _)) = some find at hfind
  show find host = _
  split at hfind
  · next hempty =>
    cases hfind
    rw [List.isEmpty_iff.mp hempty]
    rfl
  · refine hdoc.hashInit _ _ _ find hdistinct ?_ hfind host
    intro k hk
    obtain ⟨⟨name, s⟩, hmem, hkey⟩ := List.mem_filterMap.mp hk
    dsimp only at hkey
    split at hkey
    · cases hkey
    · next hregex =>
      cases hkey
      obtain ⟨server, hserver, hname⟩ := List.mem_flatMap.mp hmem
      obtain ⟨name', hname', heq⟩ := List.mem_map.mp hname
      cases heq
      exact hlower _ hserver _ hname' (Option.not_isSome_iff_eq_none.mp hregex)

/-- The default server is the first one, and the regexes are in the order of the servers. -/
theorem initVirtualServers_rest {main main' : MainConf ρ}
    (h : main.initVirtualServers env = some main') :
    main'.regex = regexNames (main.servers.flatMap fun s =>
      s.serverNames.map fun name => (name, s)) ∧
    ∀ s servers, main.servers = s :: servers → main'.defaultServer = .to s := by
  obtain ⟨find, -, rfl⟩ := Option.map_eq_some_iff.mp h
  refine ⟨rfl, fun s servers hs => ?_⟩
  dsimp only
  rw [hs]

section
variable {calls : List (Call (Option Obj) (Option (Load ρ)))} {a b : Nat} {http : Items}
  {main : MainConf ρ}

/-- The hash has the servers of the blocks that it names. -/
theorem MainConf.Serves.names (h : main.Serves env cycle calls a b http) (hdoc : env.Documented)
    (hdistinct : DistinctNames ((plainNames (hostNames env cycle http)).map Prod.fst))
    (host : Bytes) :
    Option.Rel (fun body s => SrvConf.Serves env cycle calls a b body s)
      (hashed (plainNames (hostNames env cycle http)) host) (main.names host) := by
  obtain ⟨main₀, hservers, hinit⟩ := h.init
  have hplain := plainNames_related (names_related h.servers)
  have hlower : ∀ s ∈ main.servers, ∀ name ∈ s.serverNames, name.regex = none →
      name.name.map tolower = name.name := by
    intro s hs name hname
    obtain ⟨d, -, hds⟩ := mem_related h.servers hs
    rw [hds.names] at hname
    exact namesIn_lower d.2 _ name hname
  unfold hostNames at hdistinct
  rw [map_related hplain fun _ _ hk => hk.1] at hdistinct
  have hhash := hashed_related hplain host
  rw [← hservers] at hlower hdistinct hhash
  rwa [← initVirtualServers_hash hdoc hinit hlower hdistinct host] at hhash

/-- The search through the regexes ends at the servers of the blocks. -/
theorem MainConf.Serves.search (h : main.Serves env cycle calls a b http) (host : Bytes)
    {body : Items} {s : SrvConf ρ} (hfirst : SrvConf.Serves env cycle calls a b body s) :
    Option.Rel (fun body s => SrvConf.Serves env cycle calls a b body s)
      (searchFirst (fun n => (env.exec n.1 host).search) Prod.snd (some body)
        (regexNames (hostNames env cycle http)))
      (searchFirst (fun n => (env.exec n.1 host).search) Prod.snd (some s) main.regex) := by
  obtain ⟨main₀, hservers, hinit⟩ := h.init
  rw [(initVirtualServers_rest hinit).1, hservers]
  exact search_related (regexNames_related (names_related h.servers)) (fun n n' hn => by rw [hn.1])
    (fun n n' hn => hn.2) (.some hfirst)

/-- The default server is that of the first block. -/
theorem MainConf.Serves.default (h : main.Serves env cycle calls a b http)
    (hblocks : blocks http ≠ []) :
    ∃ d s, (blocks http).head? = some d ∧ main.defaultServer = .to s ∧
      SrvConf.Serves env cycle calls a b d.2 s := by
  obtain ⟨main₀, hservers, hinit⟩ := h.init
  obtain ⟨d, ds, hds⟩ := List.exists_cons_of_ne_nil hblocks
  have hrel := h.servers
  rw [hds] at hrel
  obtain ⟨s, servers, hfirst, -, heq⟩ := List.forall₂_cons_left_iff.mp hrel
  refine ⟨d, s, by rw [hds, List.head?_cons], ?_, hfirst⟩
  exact (initVirtualServers_rest hinit).2 s servers (hservers.trans heq)

/-- **The server of a request** is that of its block. -/
theorem followSrvConf_serves (hdoc : env.Documented) {l : Load ρ}
    (hmain : l.mainConf = some main) (hserves : main.Serves env cycle calls a b http)
    (hdistinct : DistinctNames ((plainNames (hostNames env cycle http)).map Prod.fst))
    (hblocks : blocks http ≠ []) (host : Bytes) :
    ∃ s, followSrvConf env cycle (some l) host = .ok s ∧
      Option.Rel (fun body s => SrvConf.Serves env cycle calls a b body s)
        (serverFor env cycle http host) s := by
  have hown : main.mainConf cycle.core ≠ none := by
    rw [← Option.isSome_iff_ne_none, hserves.confs.fresh.isSome]
    exact ⟨_, cycle.core_mem, rfl, rfl⟩
  have hhash := hserves.names hdoc hdistinct host
  obtain ⟨d, default, hhead, hpointer, hfirst⟩ := hserves.default hblocks
  have hsearch := hserves.search host hfirst
  unfold followSrvConf followMainConf serverFor findVirtualServer
  dsimp only
  rw [hmain]
  dsimp only
  rw [if_neg hown, hhead, Option.map_some]
  generalize hx : main.names host = x at hhash ⊢
  generalize hy : hashed _ host = y at hhash ⊢
  cases hhash with
  | some hs => exact ⟨_, rfl, .some hs⟩
  | none =>
    dsimp only
    by_cases hempty : host = []
    · rw [if_pos hempty, if_pos hempty, hpointer]
      exact ⟨_, rfl, .some hfirst⟩
    rw [if_neg hempty, if_neg hempty]
    obtain ⟨s, hgo, hfound⟩ | ⟨hgo, hfound⟩ | ⟨hgo, hfound⟩ :=
      findRegexServer_cases host default main.regex
    · rw [hfound] at hsearch
      rw [hgo]
      exact ⟨_, rfl, hsearch⟩
    · rw [hfound] at hsearch
      rw [hgo, hpointer]
      exact ⟨_, rfl, hsearch⟩
    · rw [hfound] at hsearch
      rw [hgo]
      exact ⟨_, rfl, hsearch⟩

end

end

/-! ## The location of a request -/

section
variable {ρ α β : Type} {confs : List (LocConf ρ α)} {exec : ρ → Bytes → Exec} {uri : Bytes}

/-- The try of a regex location. -/
def LocConf.search (exec : ρ → Bytes → Exec) (uri : Bytes) (c : LocConf ρ α) : Search :=
  match c.regex with
  | none => .next
  | some re => (exec re uri).search

/-- **The location of a request**: that of `=`, else the longest one, unless it is not of `^~`
and a regex matches; none, if a regex fails. -/
def locationFor (exec : ρ → Bytes → Exec) (uri : Bytes) (confs : List (LocConf ρ α)) :
    Option (LocConf ρ α) :=
  match exactLocation uri confs with
  | some c => some c
  | none =>
    let longest := longestLocation uri confs
    if longest.any (·.noregex) then longest
    else searchFirst (LocConf.search exec uri) id longest confs

/-- The loop over the regex locations is a search, too. -/
theorem findRegex_cases (exec : ρ → Bytes → Exec) (uri : Bytes)
    (longest : Option (LocConf ρ α)) (confs : List (LocConf ρ α)) :
    (∃ c, findRegex exec uri ((confs.filter (·.regex.isSome)).map some ++ [none]) =
        .ok (some (.ok, some c)) ∧
      searchFirst (LocConf.search exec uri) id longest confs = some c) ∨
    (findRegex exec uri ((confs.filter (·.regex.isSome)).map some ++ [none]) = .ok none ∧
      searchFirst (LocConf.search exec uri) id longest confs = longest) ∨
    (findRegex exec uri ((confs.filter (·.regex.isSome)).map some ++ [none]) =
        .ok (some (.error, none)) ∧
      searchFirst (LocConf.search exec uri) id longest confs = none) := by
  induction confs with
  | nil => exact .inr (.inl ⟨rfl, rfl⟩)
  | cons c confs ih =>
    unfold searchFirst LocConf.search
    cases hregex : c.regex with
    | none =>
      rw [List.filter_cons_of_neg (by rw [hregex]; exact Bool.false_ne_true)]
      exact ih
    | some re =>
      rw [List.filter_cons_of_pos (by rw [hregex]; rfl), List.map_cons, List.cons_append, findRegex,
        hregex]
      dsimp only
      cases exec re uri with
      | noMatch => exact ih
      | matched => exact .inl ⟨c, rfl, rfl⟩
      | failed => exact .inr (.inr ⟨rfl, rfl⟩)

/-- The regex pass, with the `NULL` array if there are no regex locations. -/
theorem regexPass_cases (exec : ρ → Bytes → Exec) (uri : Bytes)
    (longest : Option (LocConf ρ α)) (confs : List (LocConf ρ α)) :
    ((initLocations (confs.map LocConf.entry)).2 = none ∧
      searchFirst (LocConf.search exec uri) id longest confs = longest) ∨
    ∃ locations, (initLocations (confs.map LocConf.entry)).2 = some locations ∧
      locations = (confs.filter (·.regex.isSome)).map some ++ [none] := by
  rw [regexLocations_eq]
  by_cases hnil : confs.filter (·.regex.isSome) = []
  · refine .inl ⟨if_pos hnil, searchFirst_next fun c hc => ?_⟩
    have hregex := List.filter_eq_nil_iff.mp hnil c hc
    rw [Option.not_isSome_iff_eq_none] at hregex
    unfold LocConf.search
    rw [hregex]
  · exact .inr ⟨_, if_neg hnil, rfl⟩

/-- The regex pass behind a static search that found no location of `=`. -/
theorem findLocation_pass {tree : LocationTree ρ α} {rc : Rc} {longest : Option (LocConf ρ α)}
    (hstatic : findStaticFrom uri (.declined, none) tree = .ok (rc, longest)) (hok : rc ≠ .ok)
    (herror : rc ≠ .error) (hnoregex : noregexOf rc longest = .ok (longest.any (·.noregex))) :
    ∃ rc' hdclcf, findLocation exec uri ⟨tree, (initLocations (confs.map LocConf.entry)).2⟩ =
        .ok (rc', hdclcf) ∧
      (if rc' = .error then none else hdclcf) =
        if longest.any (·.noregex) = true then longest
        else searchFirst (LocConf.search exec uri) id longest confs := by
  unfold findLocation
  rw [hstatic]
  dsimp only
  rw [if_neg hok, hnoregex]
  cases longest.any (·.noregex) with
  | true => exact ⟨rc, longest, rfl, if_neg herror⟩
  | false =>
  rw [if_neg Bool.false_ne_true]
  obtain ⟨hnone, hsearch⟩ | ⟨locations, hsome, rfl⟩ := regexPass_cases exec uri longest confs
  · rw [hnone, hsearch]
    exact ⟨rc, longest, rfl, if_neg herror⟩
  rw [hsome]
  dsimp only
  obtain ⟨c, hfind, hsearch⟩ | ⟨hfind, hsearch⟩ | ⟨hfind, hsearch⟩ :=
    findRegex_cases exec uri longest confs
  · rw [hfind, hsearch]
    exact ⟨.ok, some c, rfl, rfl⟩
  · rw [hfind, hsearch]
    exact ⟨rc, longest, rfl, if_neg herror⟩
  · rw [hfind, hsearch]
    exact ⟨.error, none, rfl, rfl⟩

/-- **The location that is found** is the one that is prescribed. -/
theorem findLocation_for (exec : ρ → Bytes → Exec) {tree : LocationTree ρ α}
    (htree : initStaticLocationTrees (initLocations (confs.map LocConf.entry)).1 = some tree)
    (hnul : ∀ c ∈ confs, 0 ∉ c.name) (hfit : LongNamesFit confs) (huri : 0 ∉ uri) :
    ∃ rc hdclcf, findLocation exec uri ⟨tree, (initLocations (confs.map LocConf.entry)).2⟩ =
        .ok (rc, hdclcf) ∧
      (if rc = .error then none else hdclcf) = locationFor exec uri confs := by
  obtain ⟨hordered, hjoined⟩ := staticTree_ordered hnul htree
  have hfree : tree.NulFree := fun lx hlx => (hjoined.of lx hlx).nul hnul
  have hfits := (fits_iff hordered hfree).mpr (hjoined.namesFit_iff.mpr hfit)
  obtain ⟨r, hr, hanswer⟩ := findStaticFrom_answer hordered hfits uri huri (.declined, none)
  obtain rfl := answer_prescribed hjoined hanswer
  unfold prescribedStatic at hr
  unfold locationFor
  cases hexact : exactLocation uri confs with
  | some c =>
    rw [hexact] at hr
    unfold findLocation
    rw [hr]
    exact ⟨.ok, some c, rfl, rfl⟩
  | none =>
    rw [hexact] at hr
    dsimp only at hr ⊢
    generalize longestLocation uri confs = longest at hr ⊢
    cases longest with
    | none => exact findLocation_pass hr nofun nofun rfl
    | some p => exact findLocation_pass hr nofun nofun rfl

/-- The locations are of one directive, and carry related things. -/
structure SameLocation (R : α → β → Prop) (c : LocConf ρ α) (d : LocConf ρ β) : Prop where
  name : c.name = d.name
  regex : c.regex = d.regex
  exactMatch : c.exactMatch = d.exactMatch
  noregex : c.noregex = d.noregex
  locConf : R c.locConf d.locConf

section
variable {R : α → β → Prop} {confs' : List (LocConf ρ β)}

theorem locationFor_related (exec : ρ → Bytes → Exec) (uri : Bytes)
    (h : List.Forall₂ (SameLocation R) confs confs') :
    Option.Rel (SameLocation R) (locationFor exec uri confs) (locationFor exec uri confs') := by
  have hexact : Option.Rel (SameLocation R) (exactLocation uri confs)
      (exactLocation uri confs') := by
    refine find?_related h fun c d hcd => ?_
    rw [hcd.name, hcd.regex, hcd.exactMatch]
  have hlongest : Option.Rel (SameLocation R) (longestLocation uri confs)
      (longestLocation uri confs') := by
    refine argmax_related (filter_related h fun c d hcd => ?_) fun c d hcd => by rw [hcd.name]
    rw [hcd.name, hcd.regex, hcd.exactMatch]
  have hsearch := search_related (S := SameLocation R) (t := LocConf.search exec uri)
    (u := LocConf.search exec uri) (f := id) (g := id) h
    (fun c d hcd => by unfold LocConf.search; rw [hcd.regex]) (fun _ _ hcd => hcd) hlongest
  unfold locationFor
  generalize exactLocation uri confs = x at hexact ⊢
  generalize exactLocation uri confs' = x' at hexact ⊢
  cases hexact with
  | some hcd => exact .some hcd
  | none =>
  have hany : (longestLocation uri confs).any (·.noregex) =
      (longestLocation uri confs').any (·.noregex) := by
    generalize longestLocation uri confs = y at hlongest ⊢
    generalize longestLocation uri confs' = y' at hlongest ⊢
    cases hlongest with
    | none => rfl
    | some hcd => exact hcd.noregex
  dsimp only
  rw [hany]
  split
  · exact hlongest
  · exact hsearch

theorem longNamesFit_related (h : List.Forall₂ (SameLocation R) confs confs')
    (hfit : LongNamesFit confs) : LongNamesFit confs' := by
  intro d hd hregex hlong
  obtain ⟨c, hc, hcd⟩ := mem_related h hd
  rw [← hcd.name] at hlong ⊢
  obtain ⟨p, hp, hpregex, hpexact, hpre⟩ := hfit c hc (hcd.regex.trans hregex) hlong
  obtain ⟨q, hq, hpq⟩ := mem_related h.flip hp
  rw [hpq.name] at hpre
  exact ⟨q, hq, hpq.regex ▸ hpregex, hpq.exactMatch ▸ hpexact, hpre⟩

end

/-- A location's array is not looked at. -/
theorem predealLocation_map (compile : Bytes → Bool → Option ρ) (args : List Bytes) (a : α)
    (b : β) : predealLocation compile args b =
      (predealLocation compile args a).map fun c => { c with locConf := b } := by
  have hregex (name : Bytes) (caseless : Bool) :
      (compile name caseless).map (fun re => (⟨name, some re, false, false, b⟩ : LocConf ρ β)) =
        ((compile name caseless).map fun re =>
          (⟨name, some re, false, false, a⟩ : LocConf ρ α)).map
            fun c => { c with locConf := b } := by
    cases compile name caseless <;> rfl
  unfold predealLocation
  dsimp only
  by_cases hlen : args.length = 3
  · rw [if_pos hlen, if_pos hlen]
    split_ifs
    · rfl
    · rfl
    · exact hregex _ _
    · exact hregex _ _
    · rfl
  · rw [if_neg hlen, if_neg hlen]
    generalize args.getD 1 [] = value
    split
    · rfl
    · rfl
    · exact hregex _ _
    · exact hregex _ _
    · rfl

end

/-! ## The confs of a request -/

section
variable {ρ : Type} {env : Env ρ} {cycle : Cycle}

theorem confsOf_related {calls : List (Call (Option Obj) (Option (Load ρ)))} {a b : Nat}
    {ds : List (Args × Items)} {made : List (Args × Confs)}
    (h : List.Forall₂ (LocMade env cycle calls a b) ds made) :
    List.Forall₂ (SameLocation (Delivered env cycle (·.createLocConf) ⟨.http, .httpLoc⟩ calls a b))
      (confsOf env.compile ds) (confsOf env.compile made) := by
  refine List.rel_filterMap (fun d m hm => ?_) h
  rw [← hm.args, predealLocation_map env.compile m.1 m.2 d.2]
  obtain ⟨c, hc⟩ := Option.isSome_iff_exists.mp hm.accepted
  rw [hc]
  refine .some ⟨rfl, rfl, rfl, rfl, ?_⟩
  rw [predealLocation_locConf hc]
  exact hm.confs

/-- What a block gives a module: a conf, if the module creates one, and the handlers were
called with it for the module's directives in the block. -/
structure Given (env : Env ρ) (cycle : Cycle) (create : Dctx → Bool) (p : Place)
    (calls : List (Call (Option Obj) (Option (Load ρ)))) (body : Items) (m : Nat)
    (conf : Option Obj) : Prop where
  isSome : conf.isSome = true ↔ cycle.Creates create m
  directives : ∀ o, conf = some o → o.module = m ∧
    callsFor o calls = directivesFor (cycle.tables env) p m body

theorem Delivered.given {create : Dctx → Bool} {p : Place} {a b : Nat} {body : Items}
    {confs : Confs} {calls : List (Call (Option Obj) (Option (Load ρ)))}
    (h : Delivered env cycle create p calls a b body confs) (m : Nat) :
    Given env cycle create p calls body m (confs m) :=
  ⟨h.fresh.isSome m, fun o ho => ⟨(h.fresh.made m o ho).1, h.called m o ho⟩⟩

/-- The modules of this file, and one with a directive `x`. -/
def routeCycle : Cycle where
  modules := [.httpDynamic 0, .httpDynamicCore 0, .other .http 1 (some ⟨true, true, true⟩)
    [([120], ⟨false, false, false, false, false, [0], [.httpMain, .httpSrv, .httpLoc]⟩)]]
  core := 0
  core_mem := List.mem_cons_of_mem _ List.mem_cons_self
  ctxIndex_ne := by
    refine List.pairwise_cons.mpr ⟨fun _ _ htype => (nomatch htype), List.pairwise_pair.mpr ?_⟩
    exact fun _ _ => Nat.zero_ne_one

/-- A name of the hash needs a bucket with its length, its value and the end of the bucket. -/
def routeEnv : Env Unit where
  compile := fun _ _ => some ()
  exec := fun _ _ => .noMatch
  hostname := []
  atoi := decimal
  cachelineSize := 64
  hashInit := fun maxSize bucketSize keys =>
    if maxSize = 0 ∨ ∃ k ∈ keys, bucketSize < (k.1.length + 9) / 8 * 8 + 16 then none
    else some (hashed keys)
  hash_mem := by
    intro maxSize bucketSize keys find hfind host server h
    split at hfind <;> cases hfind
    exact hashed_mem h

theorem routeEnv_documented : routeEnv.Documented := by
  constructor
  rintro maxSize bucketSize keys find - - hfind host
  change (if _ then none else some (hashed keys)) = some find at hfind
  split at hfind <;> cases hfind
  rfl

/-- The directives in the second server of `routeFile`. -/
def routeServer : Items :=
  .simple [[115, 101, 114, 118, 101, 114, 95, 110, 97, 109, 101], [97]] (.simple [[120]]
    (.block [[108, 111, 99, 97, 116, 105, 111, 110], [47, 112]] (.simple [[120]] .nil) .nil))

def routeHttp : Items :=
  .simple [[120]] (.block [[115, 101, 114, 118, 101, 114]] .nil
    (.block [[115, 101, 114, 118, 101, 114]] routeServer .nil))

/-- `http{x;server{}server{server_name a;x;location /p{x;}}}` -/
def routeFile : Bytes :=
  [104, 116, 116, 112, 123, 120, 59, 115, 101, 114, 118, 101, 114, 123, 125, 115, 101, 114, 118,
    101, 114, 123, 115, 101, 114, 118, 101, 114, 95, 110, 97, 109, 101, 32, 97, 59, 120, 59, 108,
    111, 99, 97, 116, 105, 111, 110, 32, 47, 112, 123, 120, 59, 125, 125, 125]

theorem routeFile_items : File (.block [[104, 116, 116, 112]] routeHttp .nil) routeFile :=
  (delivers_iff _ _).mp <| .next rfl rfl (.next rfl rfl (.next rfl rfl (.next rfl rfl
    (.next rfl rfl (.next rfl rfl (.next rfl rfl (.next rfl rfl (.next rfl rfl (.next rfl rfl
      (.next rfl rfl (.next rfl rfl (.last rfl rfl))))))))))))

theorem routeNames_distinct :
    DistinctNames ((plainNames (hostNames routeEnv routeCycle routeHttp)).map Prod.fst) := by
  constructor <;> decide

theorem routeFile_load : (load routeEnv routeCycle routeFile).isSome = true := by decide

section
variable {content : Bytes} {l : Load ρ} {items http : Items}

/-- The main conf of a module. -/
theorem mainDconf_given (h : load env cycle content = some l)
    (hitems : File items content)
    (hlast : lastBlock items = some http) (m : Nat) :
    ∃ conf, getModuleMainDconf (some l) m = .ok conf ∧
      Given env cycle (·.createMainConf) ⟨.http, .httpMain⟩ (loadCalls env cycle content) http m
        conf := by
  obtain ⟨main, hmain, hserves⟩ := load_serves h hitems hlast
  refine ⟨main.mainConf m, ?_, hserves.confs.given m⟩
  unfold getModuleMainDconf followMainConf
  dsimp only
  rw [hmain]
  rfl

/-- The server conf of a module. -/
theorem srvDconf_given (hdoc : env.Documented) (h : load env cycle content = some l)
    (hitems : File items content)
    (hlast : lastBlock items = some http) (hblocks : blocks http ≠ [])
    (hdistinct : DistinctNames ((plainNames (hostNames env cycle http)).map Prod.fst))
    (host : Bytes) (m : Nat) :
    ∃ conf, getModuleSrvDconf env cycle (some l) host m = .ok conf ∧
      match serverFor env cycle http host with
      | some srv => Given env cycle (·.createSrvConf) ⟨.http, .httpSrv⟩
          (loadCalls env cycle content) srv m conf
      | none => conf = none := by
  obtain ⟨main, hmain, hserves⟩ := load_serves h hitems hlast
  obtain ⟨s, hs, hrel⟩ := followSrvConf_serves hdoc hmain hserves hdistinct hblocks host
  refine ⟨s.bind (·.srvConf m), ?_, ?_⟩
  · unfold getModuleSrvDconf
    rw [hs]
    rfl
  · generalize serverFor env cycle http host = srv at hrel ⊢
    cases hrel with
    | none => rfl
    | some hserver => exact hserver.confs.given m

end

/-- **The confs of a request.**  The main conf of a module is that of the last `http` block of
the file, and its server conf is that of the `server` block which the host has there; the
handlers were called with them for the directives of these blocks, and for no others. -/
theorem dconf_serves (env : Env ρ) (cycle : Cycle) (hdoc : env.Documented) {content : Bytes}
    {l : Load ρ} (h : load env cycle content = some l) {items http : Items}
    (hitems : File items content)
    (hlast : lastBlock items = some http) (hblocks : blocks http ≠ [])
    (hdistinct : DistinctNames ((plainNames (hostNames env cycle http)).map Prod.fst))
    (host : Bytes) (m : Nat) :
    (∃ conf, getModuleMainDconf (some l) m = .ok conf ∧
      Given env cycle (·.createMainConf) ⟨.http, .httpMain⟩ (loadCalls env cycle content) http m
        conf) ∧
    ∃ conf, getModuleSrvDconf env cycle (some l) host m = .ok conf ∧
      match serverFor env cycle http host with
      | some srv => Given env cycle (·.createSrvConf) ⟨.http, .httpSrv⟩
          (loadCalls env cycle content) srv m conf
      | none => conf = none :=
  ⟨mainDconf_given h hitems hlast m, srvDconf_given hdoc h hitems hlast hblocks hdistinct host m⟩

/-- The host `a` gets the second server's conf, for which `x` was called once. -/
theorem dconf_serves_named : ∃ l conf, load routeEnv routeCycle routeFile = some l ∧
    getModuleSrvDconf routeEnv routeCycle (some l) [97] 1 = .ok conf ∧
    Given routeEnv routeCycle (·.createSrvConf) ⟨.http, .httpSrv⟩
      (loadCalls routeEnv routeCycle routeFile) routeServer 1 conf ∧
    directivesFor (routeCycle.tables routeEnv) ⟨.http, .httpSrv⟩ 1 routeServer = [[[120]]] := by
  obtain ⟨l, hl⟩ := Option.isSome_iff_exists.mp routeFile_load
  have hsrv : serverFor routeEnv routeCycle routeHttp [97] = some routeServer := by decide
  obtain ⟨-, conf, hget, hgiven⟩ := dconf_serves routeEnv routeCycle routeEnv_documented hl
    routeFile_items rfl (by decide) routeNames_distinct [97] 1
  rw [hsrv] at hgiven
  exact ⟨l, conf, hl, hget, hgiven, by decide⟩

/-- **The location's conf of a request** is that of the `location` block which the URI has
among those of the request's server; without such a location there is none. -/
theorem locDconf_serves (env : Env ρ) (cycle : Cycle) (hdoc : env.Documented) {content : Bytes}
    {l : Load ρ} (h : load env cycle content = some l) {items http srv : Items}
    (hitems : File items content)
    (hlast : lastBlock items = some http) (hblocks : blocks http ≠ [])
    (hdistinct : DistinctNames ((plainNames (hostNames env cycle http)).map Prod.fst))
    {host uri : Bytes} (hsrv : serverFor env cycle http host = some srv)
    (hnul : ∀ c ∈ confsOf env.compile (blocks srv), 0 ∉ c.name)
    (hfit : LongNamesFit (confsOf env.compile (blocks srv))) (huri : 0 ∉ uri) (m : Nat) :
    ∃ conf, getModuleLocDconf env cycle (some l) host uri m = .ok conf ∧
      match locationFor env.exec uri (confsOf env.compile (blocks srv)) with
      | some c => Given env cycle (·.createLocConf) ⟨.http, .httpLoc⟩
          (loadCalls env cycle content) c.locConf m conf
      | none => conf = none := by
  obtain ⟨main, hmain, hserves⟩ := load_serves h hitems hlast
  obtain ⟨s, hs, hrel⟩ := followSrvConf_serves hdoc hmain hserves hdistinct hblocks host
  rw [hsrv] at hrel
  obtain ⟨server, rfl, hserver⟩ : ∃ server, s = some server ∧ SrvConf.Serves env cycle
      (loadCalls env cycle content) 0 l.created.length srv server := by
    cases hrel with
    | some hserver => exact ⟨_, rfl, hserver⟩
  have hown : server.srvConf cycle.core ≠ none := by
    rw [← Option.isSome_iff_ne_none, hserver.confs.fresh.isSome]
    exact ⟨_, cycle.core_mem, rfl, rfl⟩
  obtain ⟨made, tree, hmade, htree, hlocations⟩ := hserver.locations
  have hconfs := confsOf_related hmade
  have hnul' : ∀ c ∈ confsOf env.compile made, 0 ∉ c.name := by
    intro c hc
    obtain ⟨d, hd, hdc⟩ := mem_related hconfs hc
    exact hdc.name ▸ hnul d hd
  obtain ⟨rc, hdclcf, hfind, hfound⟩ :=
    findLocation_for env.exec htree hnul' (longNamesFit_related hconfs hfit) huri
  have hfor := locationFor_related env.exec uri hconfs
  rw [← hfound] at hfor
  have hget : getModuleLocDconf env cycle (some l) host uri m =
      .ok ((if rc = .error then none else hdclcf).bind (·.locConf m)) := by
    unfold getModuleLocDconf
    rw [hs]
    dsimp only
    rw [if_neg hown, hlocations, hfind]
    cases rc <;> rfl
  refine ⟨_, hget, ?_⟩
  generalize locationFor env.exec uri (confsOf env.compile (blocks srv)) = x at hfor ⊢
  generalize (if rc = .error then none else hdclcf) = y at hfor ⊢
  cases hfor with
  | none => rfl
  | some hcd => exact hcd.locConf.given m

/-- The URI `/p` gets the conf of its location. -/
theorem locDconf_serves_named : ∃ l conf, load routeEnv routeCycle routeFile = some l ∧
    getModuleLocDconf routeEnv routeCycle (some l) [97] [47, 112] 1 = .ok conf ∧
    Given routeEnv routeCycle (·.createLocConf) ⟨.http, .httpLoc⟩
      (loadCalls routeEnv routeCycle routeFile) (.simple [[120]] .nil) 1 conf := by
  obtain ⟨l, hl⟩ := Option.isSome_iff_exists.mp routeFile_load
  have hsrv : serverFor routeEnv routeCycle routeHttp [97] = some routeServer := by decide
  have hshort : ∀ c ∈ confsOf routeEnv.compile (blocks routeServer), ¬ 255 < c.name.length := by
    decide
  have huri : 0 ∉ ([47, 112] : Bytes) := by decide
  obtain ⟨conf, hget, hgiven⟩ := locDconf_serves routeEnv routeCycle routeEnv_documented hl
    routeFile_items rfl (by decide) routeNames_distinct hsrv (by decide)
    (fun c hc _ hlong => absurd hlong (hshort c hc)) huri 1
  exact ⟨l, conf, hl, hget, hgiven⟩

end

end NgxToolkit.HttpDynamic
