import Mathlib

/-! The locations of a dynamic server (`ngx_http_dynamic.c`).

`addLocation` puts a `location` directive into the queue of its server.  At the end of
the server `initLocations` sorts the queue and takes the regex locations out of it, and
`initStaticLocationTrees` joins entries of one name, nests the entries whose names
extend another's and makes a tree of the rest.  `findLocation` looks a request's URI up.

`ρ` are compiled regexes, and `α` is what a location carries to its users.  A pointer
that is `NULL` is `none`; following it is a `Fault`. -/

namespace NgxToolkit.HttpDynamic

abbrev Bytes := List UInt8

/-- A pointer is followed that is `NULL` or was never assigned. -/
inductive Fault where
  | null
  | unassigned
deriving DecidableEq

variable {ρ α : Type}

/-- `ngx_http_dynamic_core_loc_conf_t` of a `location`. -/
structure LocConf (ρ α : Type) where
  name : Bytes
  regex : Option ρ
  exactMatch : Bool
  noregex : Bool
  locConf : α
deriving DecidableEq

/-- `ngx_http_dynamic_location_queue_t`, without `list`. -/
structure LocationQueue (ρ α : Type) where
  exact : Option (LocConf ρ α)
  inclusive : Option (LocConf ρ α)
  name : Bytes

/-- The bytes that `ngx_filename_cmp` compares are ordered with `/` first. -/
def slashFirst (c : UInt8) : Nat := if c = 47 then 0 else c.toNat

/-- `ngx_filename_cmp`.  Behind the last byte of a string there is a NUL. -/
def filenameCmp : Nat → Bytes → Bytes → Int
  | 0, _, _ => 0
  | n + 1, s1, s2 =>
    let c1 := s1.headD 0
    let c2 := s2.headD 0
    if c1 = c2 then if c1 = 0 then 0 else filenameCmp n s1.tail s2.tail
    else if c1 = 0 ∨ c2 = 0 then (c1.toNat : Int) - c2.toNat
    else (slashFirst c1 : Int) - slashFirst c2

/-! ## A directive -/

/-- `ngx_http_dynamic_core_predeal_location` on `cf->args`; `compile` is
`ngx_dynamic_regex_compile` with its flag for caseless patterns. -/
def predealLocation (compile : Bytes → Bool → Option ρ) (args : List Bytes) (locConf : α) :
    Option (LocConf ρ α) :=
  let plain (name : Bytes) : LocConf ρ α := ⟨name, none, false, false, locConf⟩
  let regex (name : Bytes) (caseless : Bool) : Option (LocConf ρ α) :=
    (compile name caseless).map fun re => { plain name with regex := some re }
  if args.length = 3 then
    let mod := args.getD 1 []
    let name := args.getD 2 []
    if mod = [61] then some { plain name with exactMatch := true }
    else if mod = [94, 126] then some { plain name with noregex := true }
    else if mod = [126] then regex name false
    else if mod = [126, 42] then regex name true
    else none
  else
    match args.getD 1 [] with
    | 61 :: name => some { plain name with exactMatch := true }
    | 94 :: 126 :: name => some { plain name with noregex := true }
    | 126 :: 42 :: name => regex name true
    | 126 :: name => regex name false
    | name => some (plain name)

/-- The entry of a location, as `ngx_http_dynamic_core_add_location` fills it. -/
def LocConf.entry (hdclcf : LocConf ρ α) : LocationQueue ρ α :=
  if hdclcf.exactMatch ∨ hdclcf.regex.isSome then ⟨some hdclcf, none, hdclcf.name⟩
  else ⟨none, some hdclcf, hdclcf.name⟩

/-- `ngx_http_dynamic_core_add_location` on the queue. -/
def addLocation (compile : Bytes → Bool → Option ρ) (args : List Bytes) (locConf : α)
    (locations : List (LocationQueue ρ α)) : Option (List (LocationQueue ρ α)) :=
  (predealLocation compile args locConf).map fun hdclcf => locations ++ [hdclcf.entry]

/-- The `location` directives of a server, each with its arguments, in their order. -/
def addLocations (compile : Bytes → Bool → Option ρ) (directives : List (List Bytes × α)) :
    Option (List (LocationQueue ρ α)) :=
  directives.foldlM (fun locations d => addLocation compile d.1 d.2 locations) []

/-! ## The end of a server -/

/-- The location of an entry that was not joined. -/
def LocationQueue.conf (lq : LocationQueue ρ α) : Option (LocConf ρ α) :=
  match lq.exact with
  | some c => some c
  | none => lq.inclusive

def LocationQueue.isRegex (lq : LocationQueue ρ α) : Bool := lq.conf.any (·.regex.isSome)

def LocationQueue.exactMatch (lq : LocationQueue ρ α) : Bool := lq.conf.any (·.exactMatch)

/-- `ngx_http_dynamic_core_cmp_locations`. -/
def cmpLocations (first second : LocationQueue ρ α) : Int :=
  if first.isRegex ∧ ¬ second.isRegex then 1
  else if ¬ first.isRegex ∧ second.isRegex then -1
  else if first.isRegex ∨ second.isRegex then 0
  else
    let rc := filenameCmp (min first.name.length second.name.length + 1) first.name second.name
    if rc = 0 ∧ ¬ first.exactMatch ∧ second.exactMatch then 1 else rc

/-- `ngx_queue_sort`: each entry goes behind the last of the entries in front of it that
it does not have to precede.  The sorted part is kept with its last entry first. -/
def queueSort (cmp : LocationQueue ρ α → LocationQueue ρ α → Int)
    (locations : List (LocationQueue ρ α)) : List (LocationQueue ρ α) :=
  (locations.foldl (fun sorted q => sorted.orderedInsert (fun q prev => cmp prev q ≤ 0) q)
    []).reverse

/-- `ngx_http_dynamic_core_init_locations`: the queue of the static locations, and
`regex_locations` with the `NULL` at its end. -/
def initLocations (locations : List (LocationQueue ρ α)) :
    List (LocationQueue ρ α) × Option (List (Option (LocConf ρ α))) :=
  let sorted := queueSort cmpLocations locations
  let regex := sorted.dropWhile fun lq => !lq.isRegex
  (sorted.takeWhile fun lq => !lq.isRegex,
    if regex = [] then none else some (regex.map (·.exact) ++ [none]))

/-- Have two entries the same name? -/
def sameLocation (lq lx : LocationQueue ρ α) : Bool :=
  lq.name.length == lx.name.length && filenameCmp lx.name.length lq.name lx.name == 0

/-- `ngx_http_dynamic_core_join_exact_locations` from the entry `lq` on. -/
def joinExactLocations (lq : LocationQueue ρ α) :
    List (LocationQueue ρ α) → Option (List (LocationQueue ρ α))
  | [] => some [lq]
  | lx :: locations =>
    if sameLocation lq lx then
      if lq.exact.isSome ∧ lx.exact.isSome ∨ lq.inclusive.isSome ∧ lx.inclusive.isSome then none
      else joinExactLocations { lq with inclusive := lx.inclusive } locations
    else (joinExactLocations lx locations).map (lq :: ·)

/-- A queue whose entries have queues of their own, their `list`. -/
inductive Locations (ρ α : Type) where
  | nil
  | cons (lq : LocationQueue ρ α) (list next : Locations ρ α)

def Locations.toList : Locations ρ α → List (LocationQueue ρ α × Locations ρ α)
  | .nil => []
  | .cons lq list next => (lq, list) :: next.toList

/-- Goes `lx` into the `list` of `lq`? -/
def nests (lq lx : LocationQueue ρ α) : Bool :=
  lq.name.length ≤ lx.name.length && filenameCmp lq.name.length lq.name lx.name == 0

/-- `ngx_http_dynamic_core_create_locations_list`, with fuel. -/
def createLocationsList : Nat → List (LocationQueue ρ α) → Locations ρ α
  | 0, _ => .nil
  | _ + 1, [] => .nil
  | fuel + 1, lq :: locations =>
    if lq.inclusive = none then .cons lq .nil (createLocationsList fuel locations)
    else
      .cons lq (createLocationsList fuel (locations.takeWhile (nests lq)))
        (createLocationsList fuel (locations.dropWhile (nests lq)))

/-- `ngx_http_dynamic_location_tree_node_t`, or `NULL`.  `name` is what was copied, not
cut to `len`. -/
inductive LocationTree (ρ α : Type) where
  | nil
  | node (left right tree : LocationTree ρ α) (exact inclusive : Option (LocConf ρ α))
      (len : UInt8) (name : Bytes)

/-- `ngx_http_dynamic_core_create_locations_tree`, with fuel.  The entry at half the
length is `ngx_queue_middle`. -/
def createLocationsTree :
    Nat → Nat → List (LocationQueue ρ α × Locations ρ α) → LocationTree ρ α
  | 0, _, _ => .nil
  | fuel + 1, start, locations =>
    match locations.drop (locations.length / 2) with
    | [] => .nil
    | (lq, list) :: tail =>
      let len := lq.name.length - start
      .node (createLocationsTree fuel start (locations.take (locations.length / 2)))
        (createLocationsTree fuel start tail) (createLocationsTree fuel (start + len) list.toList)
        lq.exact lq.inclusive (UInt8.ofNat len) (lq.name.drop start)

/-- `ngx_http_dynamic_core_init_static_location_trees`. -/
def initStaticLocationTrees :
    List (LocationQueue ρ α) → Option (LocationTree ρ α)
  | [] => some .nil
  | lq :: locations =>
    (joinExactLocations lq locations).map fun joined =>
      createLocationsTree (joined.length + 1) 0
        (createLocationsList joined.length joined).toList

/-! ## A request -/

/-- `NGX_OK`, `NGX_AGAIN`, `NGX_DECLINED` and `NGX_ERROR`. -/
inductive Rc where
  | ok
  | again
  | declined
  | error
deriving DecidableEq

/-- The loop of `ngx_http_dynamic_core_find_static_location`; `rv` comes with `*hdclcf`. -/
def findStaticFrom (uri : Bytes) (rv : Rc × Option (LocConf ρ α)) :
    LocationTree ρ α → Except Fault (Rc × Option (LocConf ρ α))
  | .nil => .ok rv
  | .node left right tree exact inclusive len name =>
    let n := min uri.length len.toNat
    let rc := filenameCmp n uri name
    if rc < 0 then findStaticFrom uri rv left
    else if rc > 0 then findStaticFrom uri rv right
    else if uri.length > len.toNat then
      match inclusive with
      | some c => findStaticFrom (uri.drop n) (.again, some c) tree
      | none => findStaticFrom uri rv right
    else if uri.length = len.toNat then
      match exact with
      | some c => .ok (.ok, some c)
      | none =>
        match inclusive with
        | some c => .ok (.again, some c)
        | none => .error .null
    else findStaticFrom uri rv left

/-- What `ngx_regex_exec` says. -/
inductive Exec where
  | matched
  | noMatch
  | failed
deriving DecidableEq

/-- The loop over `regex_locations`; `none` behind the last one. -/
def findRegex (exec : ρ → Bytes → Exec) (uri : Bytes) :
    List (Option (LocConf ρ α)) → Except Fault (Option (Rc × Option (LocConf ρ α)))
  | [] => .error .unassigned
  | none :: _ => .ok none
  | some c :: locations =>
    match c.regex with
    | none => .error .null
    | some re =>
      match exec re uri with
      | .matched => .ok (some (.ok, some c))
      | .noMatch => findRegex exec uri locations
      | .failed => .ok (some (.error, none))

/-- What `ngx_http_dynamic_core_find_location` reads of a server. -/
structure ServerLocations (ρ α : Type) where
  staticLocations : LocationTree ρ α
  regexLocations : Option (List (Option (LocConf ρ α)))

/-- The flag `noregex`, read from `*hdclcf` behind an inclusive match. -/
def noregexOf (rc : Rc) (hdclcf : Option (LocConf ρ α)) : Except Fault Bool :=
  if rc = .again then
    match hdclcf with
    | some c => .ok c.noregex
    | none => .error .null
  else .ok false

/-- `ngx_http_dynamic_core_find_location`, with `*hdclcf`. -/
def findLocation (exec : ρ → Bytes → Exec) (uri : Bytes) (phdclcf : ServerLocations ρ α) :
    Except Fault (Rc × Option (LocConf ρ α)) :=
  match findStaticFrom uri (.declined, none) phdclcf.staticLocations with
  | .error fault => .error fault
  | .ok (rc, hdclcf) =>
    if rc = .ok then .ok (rc, hdclcf)
    else
      match noregexOf rc hdclcf, phdclcf.regexLocations with
      | .error fault, _ => .error fault
      | .ok true, _ => .ok (rc, hdclcf)
      | .ok false, none => .ok (rc, hdclcf)
      | .ok false, some locations =>
        match findRegex exec uri locations with
        | .error fault => .error fault
        | .ok (some found) => .ok found
        | .ok none => .ok (rc, hdclcf)

end NgxToolkit.HttpDynamic
