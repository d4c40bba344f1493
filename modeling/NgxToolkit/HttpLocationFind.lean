import Mathlib
import NgxToolkit.HttpLocationTree

/-! Searching the location tree.

A URI goes past a node to the left or to the right, or it extends the node's name and goes
into the node's own tree.  What a search does not come to cannot be what it looks for: an
inclusive name that is a prefix of the URI would be a prefix of the node's name, too.

* `findStaticFrom_turn`: a step of the search.
* `LocationTree.WellFormed.find`: a well-formed tree is searched correctly.
* `findStatic_wellFormed`: the same for a whole search. -/

namespace NgxToolkit.HttpDynamic

open Lib

variable {ρ α : Type} {left right tree : LocationTree ρ α}
  {exact inclusive : Option (LocConf ρ α)} {len : UInt8} {name : Bytes}

/-! ## A step -/

/-- What the search does at a node, by how the URI lies to its name. -/
inductive Turn (uri : Bytes) (rv : Rc × Option (LocConf ρ α)) (left right tree : LocationTree ρ α)
    (exact inclusive : Option (LocConf ρ α)) (name : Bytes) :
    Except Fault (Rc × Option (LocConf ρ α)) → Prop
  | left (h : key uri < key name) :
      Turn uri rv left right tree exact inclusive name (findStaticFrom uri rv left)
  | right (h : key name < key uri) (hpre : ¬ name <+: uri) :
      Turn uri rv left right tree exact inclusive name (findStaticFrom uri rv right)
  | down (rest : Bytes) (h : uri = name ++ rest) (hrest : rest ≠ []) (c : LocConf ρ α)
      (hc : inclusive = some c) :
      Turn uri rv left right tree exact inclusive name (findStaticFrom rest (.again, some c) tree)
  | past (rest : Bytes) (h : uri = name ++ rest) (hrest : rest ≠ []) (hnone : inclusive = none) :
      Turn uri rv left right tree exact inclusive name (findStaticFrom uri rv right)
  | exact (h : uri = name) (c : LocConf ρ α) (hc : exact = some c) :
      Turn uri rv left right tree exact inclusive name (.ok (.ok, some c))
  | inclusive (h : uri = name) (hnone : exact = none) (c : LocConf ρ α) (hc : inclusive = some c) :
      Turn uri rv left right tree exact inclusive name (.ok (.again, some c))

/-- **A step of the search** at a node whose length is right. -/
theorem findStaticFrom_turn (left right tree : LocationTree ρ α)
    (hlen : len.toNat = name.length) (hconf : exact ≠ none ∨ inclusive ≠ none)
    (hname : 0 ∉ name) {uri : Bytes} (huri : 0 ∉ uri) (rv : Rc × Option (LocConf ρ α)) :
    Turn uri rv left right tree exact inclusive name
      (findStaticFrom uri rv (.node left right tree exact inclusive len name)) := by
  rw [findStaticFrom.eq_def]
  have hneg := filenameCmp_neg (min uri.length name.length) uri name
  have hzero := filenameCmp_zero (min uri.length name.length) uri name
  have hkeyuri := key_length huri
  have hkeyname := key_length hname
  dsimp only
  rw [hlen]
  by_cases hlt : filenameCmp (min uri.length name.length) uri name < 0
  · rw [if_pos hlt]
    exact .left (lt_of_take_lt (hneg.mp hlt))
  rw [if_neg hlt]
  by_cases hgt : filenameCmp (min uri.length name.length) uri name > 0
  · rw [if_pos hgt]
    have hbehind := (filenameCmp_pos _ _ _).mp hgt
    refine .right (lt_of_take_lt hbehind) ?_
    intro hpre
    have htake := List.prefix_iff_eq_take.mp ((key_prefix_iff hname huri).mpr hpre)
    rw [Nat.min_eq_right hpre.length_le, ← hkeyname, List.take_length, ← htake] at hbehind
    exact lt_irrefl _ hbehind
  rw [if_neg hgt]
  have heq := hzero.mp (by omega)
  by_cases hlong : uri.length > name.length
  · rw [if_pos hlong]
    rw [Nat.min_eq_right (by omega)] at heq ⊢
    rw [← hkeyname, List.take_length, hkeyname] at heq
    obtain ⟨rest, rfl⟩ : name <+: uri :=
      (key_prefix_iff hname huri).mp (heq ▸ List.take_prefix _ _)
    have hrest : rest ≠ [] := by
      rintro rfl
      rw [List.append_nil] at hlong
      omega
    rw [List.drop_left]
    cases hinclusive : inclusive with
    | none => exact .past rest rfl hrest rfl
    | some c => exact .down rest rfl hrest c rfl
  rw [if_neg hlong]
  by_cases hsame : uri.length = name.length
  · rw [if_pos hsame]
    have hhere : uri = name := by
      apply key_inj huri hname
      rw [hsame, Nat.min_self] at heq
      rwa [List.take_of_length_le (by omega), List.take_of_length_le (by omega)] at heq
    cases hexact : exact with
    | some c => exact .exact hhere c rfl
    | none =>
      obtain ⟨c, hc⟩ := Option.ne_none_iff_exists'.mp (hconf.resolve_left (not_not.mpr hexact))
      rw [hc]
      exact .inclusive hhere rfl c rfl
  · rw [if_neg hsame]
    rw [Nat.min_eq_left (by omega)] at heq
    rw [← hkeyuri, List.take_length] at heq
    refine .left (prefix_lt (heq ▸ List.take_prefix _ _) ?_)
    intro h
    exact hsame (congrArg List.length (key_inj huri hname h))

/-- At a node whose name has a NUL the search goes to a side, and to the left only for a URI
that is not behind the name. -/
theorem findStaticFrom_nul (left right tree : LocationTree ρ α)
    (exact inclusive : Option (LocConf ρ α)) (hlen : len.toNat = name.length) (hname : 0 ∈ name)
    {uri : Bytes} (huri : 0 ∉ uri) (rv : Rc × Option (LocConf ρ α)) :
    (key uri ≤ key name ∧ findStaticFrom uri rv (.node left right tree exact inclusive len name) =
      findStaticFrom uri rv left) ∨
    (key name ≤ key uri ∧ findStaticFrom uri rv (.node left right tree exact inclusive len name) =
      findStaticFrom uri rv right) := by
  rw [findStaticFrom.eq_def]
  have hneg := filenameCmp_neg (min uri.length name.length) uri name
  have hzero := filenameCmp_zero (min uri.length name.length) uri name
  have hkeyuri := key_length huri
  have hkeyname := key_length_lt hname
  dsimp only
  rw [hlen]
  by_cases hlt : filenameCmp (min uri.length name.length) uri name < 0
  · rw [if_pos hlt]
    exact .inl ⟨le_of_lt (lt_of_take_lt (hneg.mp hlt)), rfl⟩
  rw [if_neg hlt]
  by_cases hgt : filenameCmp (min uri.length name.length) uri name > 0
  · rw [if_pos hgt]
    exact .inr ⟨le_of_lt (lt_of_take_lt ((filenameCmp_pos _ _ _).mp hgt)), rfl⟩
  rw [if_neg hgt]
  have heq := hzero.mp (by omega)
  have hshort : uri.length < name.length := by
    have hcut := congrArg List.length heq
    rw [List.length_take, List.length_take] at hcut
    omega
  rw [if_neg (by omega), if_neg (by omega)]
  rw [Nat.min_eq_left (by omega), ← hkeyuri, List.take_length] at heq
  exact .inl ⟨prefix_le (heq ▸ List.take_prefix _ _), rfl⟩

/-! ## What is to be found -/

/-- What a search among `entries` has to find: the exact location with the URI's name, else
the inclusive one with the longest prefix, else nothing new. -/
inductive Answer (entries : List (LocationQueue ρ α)) (uri : Bytes)
    (rv : Rc × Option (LocConf ρ α)) : Rc × Option (LocConf ρ α) → Prop
  | exact {lq : LocationQueue ρ α} {c : LocConf ρ α} (hmem : lq ∈ entries) (hname : lq.name = uri)
      (hc : lq.exact = some c) : Answer entries uri rv (.ok, some c)
  | inclusive {lq : LocationQueue ρ α} {c : LocConf ρ α}
      (hnone : ∀ lx ∈ entries, lx.name = uri → lx.exact = none) (hmem : lq ∈ entries)
      (hpre : lq.name <+: uri) (hc : lq.inclusive = some c)
      (hlongest : ∀ lx ∈ entries, lx.inclusive ≠ none → lx.name <+: uri →
        lx.name.length ≤ lq.name.length) : Answer entries uri rv (.again, some c)
  | nothing (hnone : ∀ lx ∈ entries, lx.name = uri → lx.exact = none)
      (hinclusive : ∀ lx ∈ entries, lx.inclusive ≠ none → ¬ lx.name <+: uri) :
      Answer entries uri rv rv

/-- The entry is no answer for the URI. -/
def Beside (uri : Bytes) (lx : LocationQueue ρ α) : Prop :=
  (lx.name = uri → lx.exact = none) ∧ (lx.inclusive ≠ none → ¬ lx.name <+: uri)

/-- Entries that are no answer may be left out of the search. -/
theorem Answer.widen {entries entries' : List (LocationQueue ρ α)} {uri : Bytes}
    {rv r : Rc × Option (LocConf ρ α)} (h : Answer entries uri rv r) (hsub : entries ⊆ entries')
    (hbeside : ∀ lx ∈ entries', lx ∈ entries ∨ Beside uri lx) : Answer entries' uri rv r := by
  have hexact (hnone : ∀ lx ∈ entries, lx.name = uri → lx.exact = none) :
      ∀ lx ∈ entries', lx.name = uri → lx.exact = none := by
    intro lx hlx
    rcases hbeside lx hlx with hin | hout
    · exact hnone lx hin
    · exact hout.1
  cases h with
  | exact hmem hname hc => exact .exact (hsub hmem) hname hc
  | inclusive hnone hmem hpre hc hlongest =>
    refine .inclusive (hexact hnone) (hsub hmem) hpre hc ?_
    intro lx hlx hinclusive hpre'
    rcases hbeside lx hlx with hin | hout
    · exact hlongest lx hin hinclusive hpre'
    · exact absurd hpre' (hout.2 hinclusive)
  | nothing hnone hinclusive =>
    refine .nothing (hexact hnone) ?_
    intro lx hlx
    rcases hbeside lx hlx with hin | hout
    · exact hinclusive lx hin
    · exact hout.2

/-- The answer below a name, with the location of the name itself in `rv`. -/
theorem Answer.down {rest : Bytes} (hrest : rest ≠ []) {c : LocConf ρ α}
    {rv r : Rc × Option (LocConf ρ α)} (h : Answer tree.flat rest (.again, some c) r) :
    Answer (nodeEntries tree exact (some c) name) (name ++ rest) rv r := by
  have hexact (hnone : ∀ lx ∈ tree.flat, lx.name = rest → lx.exact = none) :
      ∀ lx ∈ nodeEntries tree exact (some c) name, lx.name = name ++ rest → lx.exact = none := by
    intro lx hlx hname
    rcases List.mem_cons.mp hlx with rfl | hlx
    · exact absurd (List.self_eq_append_right.mp hname) hrest
    · obtain ⟨ly, hly, rfl⟩ := List.mem_map.mp hlx
      exact hnone ly hly (List.append_cancel_left hname)
  cases h with
  | exact hmem hname hc =>
    refine .exact (List.mem_cons_of_mem _ (List.mem_map_of_mem hmem)) ?_ hc
    exact congrArg (name ++ ·) hname
  | @inclusive lq c' hnone hmem hpre hc hlongest =>
    refine .inclusive (hexact hnone) (List.mem_cons_of_mem _ (List.mem_map_of_mem hmem))
      ((List.prefix_append_right_inj name).mpr hpre) hc ?_
    intro lx hlx hinclusive hpre'
    rcases List.mem_cons.mp hlx with rfl | hlx
    · exact (List.prefix_append name lq.name).length_le
    · obtain ⟨ly, hly, rfl⟩ := List.mem_map.mp hlx
      have hle := hlongest ly hly hinclusive ((List.prefix_append_right_inj name).mp hpre')
      show (name ++ ly.name).length ≤ (name ++ lq.name).length
      rw [List.length_append, List.length_append]
      omega
  | nothing hnone hinclusive =>
    refine .inclusive (hexact hnone) List.mem_cons_self (List.prefix_append name rest) rfl ?_
    intro lx hlx hinclusive' hpre'
    rcases List.mem_cons.mp hlx with rfl | hlx
    · exact Nat.le_refl _
    · obtain ⟨ly, hly, rfl⟩ := List.mem_map.mp hlx
      exact absurd ((List.prefix_append_right_inj name).mp hpre') (hinclusive ly hly hinclusive')

/-- What does not extend to a URI is no answer for it. -/
theorem beside_of_not {lx : LocationQueue ρ α} {uri : Bytes} (h : ¬ lx.name <+: uri) :
    Beside uri lx := by
  refine ⟨?_, fun _ => h⟩
  rintro rfl
  exact absurd (List.prefix_refl _) h

section
variable {uri : Bytes} {rv r : Rc × Option (LocConf ρ α)}

theorem Answer.of_left (h : Answer left.flat uri rv r)
    (hnode : ∀ lx ∈ nodeEntries tree exact inclusive name, Beside uri lx)
    (hright : ∀ lx ∈ right.flat, Beside uri lx) :
    Answer (LocationTree.node left right tree exact inclusive len name).flat uri rv r := by
  refine h.widen left_subset ?_
  intro lx hlx
  rcases mem_node hlx with hlx | hlx | hlx
  · exact .inl hlx
  · exact .inr (hnode lx hlx)
  · exact .inr (hright lx hlx)

theorem Answer.of_node (hleft : ∀ lx ∈ left.flat, Beside uri lx)
    (h : Answer (nodeEntries tree exact inclusive name) uri rv r)
    (hright : ∀ lx ∈ right.flat, Beside uri lx) :
    Answer (LocationTree.node left right tree exact inclusive len name).flat uri rv r := by
  refine h.widen node_subset ?_
  intro lx hlx
  rcases mem_node hlx with hlx | hlx | hlx
  · exact .inr (hleft lx hlx)
  · exact .inl hlx
  · exact .inr (hright lx hlx)

theorem Answer.of_right (hleft : ∀ lx ∈ left.flat, Beside uri lx)
    (hnode : ∀ lx ∈ nodeEntries tree exact inclusive name, Beside uri lx)
    (h : Answer right.flat uri rv r) :
    Answer (LocationTree.node left right tree exact inclusive len name).flat uri rv r := by
  refine h.widen right_subset ?_
  intro lx hlx
  rcases mem_node hlx with hlx | hlx | hlx
  · exact .inr (hleft lx hlx)
  · exact .inr (hnode lx hlx)
  · exact .inl hlx

end

/-- A node of `=` only has no tree, and is an answer for its own name only. -/
theorem beside_exact {rest : Bytes} (hrest : rest ≠ []) :
    ∀ lx ∈ nodeEntries .nil exact none name, Beside (ρ := ρ) (α := α) (name ++ rest) lx := by
  intro lx hlx
  rw [List.mem_singleton.mp hlx]
  exact ⟨fun hsame => absurd (List.self_eq_append_right.mp hsame) hrest, fun h => absurd rfl h⟩

/-! ## Trees -/

/-- A tree that is well formed: the lengths are those of the names, every node has a location,
the names of a level are in their order and none of an inclusive node is a prefix of another
one, and below inclusive nodes the names go on. -/
inductive LocationTree.WellFormed : LocationTree ρ α → Prop
  | nil : WellFormed .nil
  | node {left right tree : LocationTree ρ α} {exact inclusive : Option (LocConf ρ α)}
      {len : UInt8} {name : Bytes} (hleft : left.WellFormed) (hright : right.WellFormed)
      (htree : tree.WellFormed) (hlen : len.toNat = name.length)
      (hconf : exact ≠ none ∨ inclusive ≠ none)
      (hbefore : ∀ lx ∈ left.level, nameCmp lx.name name < 0)
      (hbehind : ∀ lx ∈ right.level, nameCmp name lx.name < 0)
      (hlevel : (left.level ++ ⟨exact, inclusive, name⟩ :: right.level).Pairwise fun a b =>
        (a.inclusive ≠ none → ¬ a.name <+: b.name) ∧ (b.inclusive ≠ none → ¬ b.name <+: a.name))
      (hleaf : inclusive = none → tree = .nil) (hname : ∀ lq ∈ tree.level, lq.name ≠ []) :
      WellFormed (.node left right tree exact inclusive len name)

theorem LocationTree.WellFormed.leafed {t : LocationTree ρ α} (h : t.WellFormed) : t.Leafed := by
  induction h with
  | nil => trivial
  | node _ _ _ _ _ _ _ _ hleaf _ ihleft ihright _ => exact ⟨ihleft, ihright, hleaf⟩

section
variable {uri : Bytes} {rv r : Rc × Option (LocConf ρ α)} {lq x : LocationQueue ρ α}

/-- What is within an entry in front of a name is no answer for a URI that is not. -/
theorem Within.beside_before (h : Within lq x) (huri : 0 ∉ uri) (hlt : key lq.name < key name)
    (hpre : lq.inclusive ≠ none → ¬ lq.name <+: name) (hle : key name ≤ key uri) :
    Beside uri x := by
  have hnot (hq : lq.inclusive ≠ none) (hqu : lq.name <+: uri) : False := by
    have hqn : 0 ∉ lq.name := fun h0 => huri (hqu.subset h0)
    have hbetween := prefix_of_between (key_starts hqu) (le_of_lt hlt) hle
    exact hpre hq (starts_of_key hqn hbetween)
  constructor
  · rintro rfl
    obtain rfl | ⟨hq, hqx⟩ := h
    · exact absurd hlt (not_lt_of_ge hle)
    · exact (hnot hq hqx).elim
  · intro hx hxu
    obtain ⟨hq, hqu⟩ := h.extends hx hxu
    exact hnot hq hqu

/-- What is within an entry behind a name is no answer for a URI that is not behind it. -/
theorem Within.beside_behind (h : Within lq x) (hlt : key name < key lq.name)
    (hle : key uri ≤ key name) : Beside uri x := by
  refine beside_of_not fun hpre => ?_
  exact absurd (lt_of_le_of_lt hle hlt) (not_lt_of_ge (key_le_of_extends (h.starts.trans hpre)))

/-- Nor is it for a URI that extends the name. -/
theorem Within.beside_right (h : Within lq x) (hlt : key name < key lq.name)
    (hnot : ¬ name <+: lq.name) (hpre : name <+: uri) : Beside uri x := by
  refine beside_of_not fun hxu => ?_
  obtain hnq | hqn := List.prefix_or_prefix_of_prefix hpre (h.starts.trans hxu)
  · exact hnot hnq
  · exact absurd hlt (not_lt_of_ge (key_le_of_extends hqn))

end

/-- **A well-formed tree is searched correctly.** -/
theorem LocationTree.WellFormed.find {t : LocationTree ρ α} (h : t.WellFormed) (uri : Bytes)
    (huri : 0 ∉ uri) (rv : Rc × Option (LocConf ρ α)) :
    ∃ r, findStaticFrom uri rv t = .ok r ∧ Answer t.flat uri rv r := by
  induction h generalizing uri rv with
  | nil => exact ⟨rv, rfl, .nothing (fun lx hlx => absurd hlx List.not_mem_nil)
      fun lx hlx => absurd hlx List.not_mem_nil⟩
  | @node left right tree exact inclusive len name hleft hright htree hlen hconf hbefore hbehind
      hlevel hleaf hname ihleft ihright ihtree =>
    obtain ⟨-, hcons, hcross⟩ := List.pairwise_append.mp hlevel
    -- The left tree is searched only for a URI that is not behind the node.
    have hbesideleft (hle : key name ≤ key uri) : ∀ x ∈ left.flat, Beside uri x := by
      intro x hx
      obtain ⟨lq, hlq, hwithin⟩ := hleft.leafed.within_level hx
      exact hwithin.beside_before huri ((nameCmp_neg _ _).mp (hbefore lq hlq))
        (hcross lq hlq _ List.mem_cons_self).1 hle
    have hgoleft (hle : key uri ≤ key name) (hpre : ¬ name <+: uri) :
        ∃ r, findStaticFrom uri rv left = .ok r ∧
          Answer (LocationTree.node left right tree exact inclusive len name).flat uri rv r := by
      obtain ⟨r, hr, hanswer⟩ := ihleft uri huri rv
      refine ⟨r, hr, hanswer.of_left ?_ ?_⟩
      · exact fun lx hlx => beside_of_not fun hpre' => hpre ((name_extends hlx).trans hpre')
      · intro x hx
        obtain ⟨lq, hlq, hwithin⟩ := hright.leafed.within_level hx
        exact hwithin.beside_behind ((nameCmp_neg _ _).mp (hbehind lq hlq)) hle
    have hgoright (hle : key name ≤ key uri)
        (hnode : ∀ lx ∈ nodeEntries tree exact inclusive name, Beside uri lx) :
        ∃ r, findStaticFrom uri rv right = .ok r ∧
          Answer (LocationTree.node left right tree exact inclusive len name).flat uri rv r := by
      obtain ⟨r, hr, hanswer⟩ := ihright uri huri rv
      exact ⟨r, hr, hanswer.of_right (hbesideleft hle) hnode⟩
    by_cases hnamenul : 0 ∈ name
    · have hpre : ¬ name <+: uri := fun hpre => huri (hpre.subset hnamenul)
      obtain ⟨hle, hfind⟩ | ⟨hle, hfind⟩ :=
        findStaticFrom_nul left right tree exact inclusive hlen hnamenul huri rv
      · rw [hfind]
        exact hgoleft hle hpre
      · rw [hfind]
        refine hgoright hle fun lx hlx => ?_
        exact beside_of_not fun hpre' => hpre ((name_extends hlx).trans hpre')
    have hturn := findStaticFrom_turn left right tree hlen hconf hnamenul huri rv
    generalize findStaticFrom uri rv (.node left right tree exact inclusive len name) = found
      at hturn ⊢
    cases hturn with
    | left h =>
      exact hgoleft (le_of_lt h) fun hpre => absurd h (not_lt_of_ge (key_le_of_extends hpre))
    | right h hpre =>
      refine hgoright (le_of_lt h) fun lx hlx => ?_
      exact beside_of_not fun hpre' => hpre ((name_extends hlx).trans hpre')
    | down rest h hrest c hc =>
      subst h hc
      obtain ⟨r, hr, hanswer⟩ := ihtree rest (fun h0 => huri (List.mem_append_right _ h0))
        (.again, some c)
      refine ⟨r, hr, (hanswer.down hrest).of_node
        (hbesideleft (key_le_of_extends (List.prefix_append name rest))) ?_⟩
      intro x hx
      obtain ⟨lq, hlq, hwithin⟩ := hright.leafed.within_level hx
      exact hwithin.beside_right ((nameCmp_neg _ _).mp (hbehind lq hlq))
        (((List.pairwise_cons.mp hcons).1 lq hlq).1 nofun) (List.prefix_append name rest)
    | past rest h hrest hnone =>
      subst h hnone
      refine hgoright (key_le_of_extends (List.prefix_append name rest)) ?_
      rw [hleaf rfl]
      exact beside_exact hrest
    | exact h c hc => exact ⟨_, rfl, .exact (node_subset self_mem) h.symm hc⟩
    | inclusive h hnone c hc =>
      subst h
      refine ⟨_, rfl, .inclusive ?_ (node_subset self_mem) (List.prefix_refl _) hc
        fun lx _ _ hpre => hpre.length_le⟩
      intro lx hlx hsame
      rcases mem_node hlx with hlx | hlx | hlx
      · exact (hbesideleft (le_refl _) lx hlx).1 hsame
      · rcases List.mem_cons.mp hlx with rfl | hlx
        · exact hnone
        · obtain ⟨ly, hly, rfl⟩ := List.mem_map.mp hlx
          exact absurd (List.append_right_eq_self.mp hsame) (htree.leafed.name_ne_nil hname hly)
      · obtain ⟨lq, hlq, hwithin⟩ := hright.leafed.within_level hlx
        exact (hwithin.beside_behind ((nameCmp_neg _ _).mp (hbehind lq hlq)) (le_refl _)).1 hsame

/-! ## A whole search -/

/-- **A search in a well-formed tree** ends with the location of `=` that has the URI's name,
else with the other location whose name is the longest prefix of it, else with none. -/
theorem findStatic_wellFormed {t : LocationTree ρ α} (h : t.WellFormed) {uri : Bytes}
    (huri : 0 ∉ uri) :
    ∃ r, findStaticFrom uri (.declined, none) t = .ok r ∧ Answer t.flat uri (.declined, none) r :=
  h.find uri huri (.declined, none)

/-- `/a` and `= /a`, with `/a/b` below them. -/
def smallTree : LocationTree Unit Unit :=
  .node .nil .nil
    (.node .nil .nil .nil none (some ⟨[47, 97, 47, 98], none, false, false, ()⟩) 2 [47, 98])
    (some ⟨[47, 97], none, true, false, ()⟩) (some ⟨[47, 97], none, false, false, ()⟩) 2 [47, 97]

theorem smallTree_wellFormed : smallTree.WellFormed := by
  have hnone {P : LocationQueue Unit Unit → Prop} :
      ∀ lx ∈ (.nil : LocationTree Unit Unit).level, P lx := nofun
  refine .node .nil .nil ?_ rfl (.inl nofun) hnone hnone (List.pairwise_singleton _ _) nofun ?_
  · exact .node .nil .nil .nil rfl (.inr nofun) hnone hnone (List.pairwise_singleton _ _) nofun
      hnone
  · intro lq hlq
    rw [List.mem_singleton.mp hlq]
    exact nofun

/-- `/a/bc` gets `/a/b`. -/
theorem findStatic_wellFormed_small : ∃ r,
    findStaticFrom [47, 97, 47, 98, 99] (.declined, none) smallTree = .ok r ∧ r.1 = .again ∧
      Answer smallTree.flat [47, 97, 47, 98, 99] (.declined, none) r := by
  obtain ⟨r, hr, hanswer⟩ := @findStatic_wellFormed _ _ _ smallTree_wellFormed
    [47, 97, 47, 98, 99] (by decide)
  cases hr
  exact ⟨_, rfl, rfl, hanswer⟩

end NgxToolkit.HttpDynamic
