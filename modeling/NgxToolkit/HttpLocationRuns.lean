import Mathlib
import NgxToolkit.HttpLocationSearch

/-! Which location a request gets.

The locations of a server are joined, nested and made a tree, the tree is searched, and the
regex locations are tried.  What nginx prescribes is found when the names of the tree
fit, and for all URIs only then.

* `staticTree_ordered`: the tree of a server.
* `findLocation_prescribed`: when each request gets its location. -/

namespace NgxToolkit.HttpDynamic

open Lib

variable {ρ α : Type} {confs : List (LocConf ρ α)}

/-! ## The entries that are joined -/

/-- The entry has static locations of `confs` with its name. -/
def LocationQueue.Of (confs : List (LocConf ρ α)) (lq : LocationQueue ρ α) : Prop :=
  lq.Sound fun c => c ∈ confs ∧ c.name = lq.name

theorem LocationQueue.Of.nul {lq : LocationQueue ρ α} (h : lq.Of confs)
    (hnul : ∀ c ∈ confs, 0 ∉ c.name) : 0 ∉ lq.name := by
  rcases h.conf with hne | hne
  · obtain ⟨c, hc⟩ := Option.ne_none_iff_exists'.mp hne
    obtain ⟨⟨hmem, hname⟩, -⟩ := h.exact c hc
    exact hname ▸ hnul c hmem
  · obtain ⟨c, hc⟩ := Option.ne_none_iff_exists'.mp hne
    obtain ⟨⟨hmem, hname⟩, -⟩ := h.inclusive c hc
    exact hname ▸ hnul c hmem

theorem LocationQueue.Sound.key_le {P Q : LocConf ρ α → Prop} {a b : LocationQueue ρ α}
    (ha : a.Sound P) (hb : b.Sound Q) (h : rank a ≤ rank b) : key a.name ≤ key b.name := by
  have hrank {P : LocConf ρ α → Prop} {lq : LocationQueue ρ α} (hq : lq.Sound P) :
      ∃ last, rank lq = toLex (false, toLex (key lq.name, last)) := by
    by_cases hexact : lq.exact = none
    · exact ⟨true, hq.rank_inclusive hexact⟩
    · exact ⟨false, hq.rank_exact hexact⟩
  obtain ⟨i, hi⟩ := hrank ha
  obtain ⟨j, hj⟩ := hrank hb
  rw [hi, hj, Prod.Lex.toLex_le_toLex, Prod.Lex.toLex_le_toLex] at h
  simp only [lt_irrefl, true_and, false_or] at h
  exact h.elim le_of_lt fun h => le_of_eq h.1

theorem sameLocation_iff {lq lx : LocationQueue ρ α} (hq : 0 ∉ lq.name) (hx : 0 ∉ lx.name) :
    sameLocation lq lx = true ↔ lq.name = lx.name := by
  constructor
  · exact fun h => key_inj hq hx (sameLocation_key h)
  · intro h
    rw [sameLocation, Bool.and_eq_true, beq_iff_eq, beq_iff_eq, filenameCmp_zero, h]
    exact ⟨rfl, rfl⟩

/-- What joining leaves of the entries: the names increase, and no location is lost. -/
structure Joined (confs : List (LocConf ρ α)) (entries joined : List (LocationQueue ρ α)) :
    Prop where
  increasing : Increasing joined
  of : ∀ lx ∈ joined, lx.Of confs
  exact : ∀ l ∈ entries, ∀ c, l.exact = some c → ∃ lx ∈ joined, lx.exact = some c
  inclusive : ∀ l ∈ entries, ∀ c, l.inclusive = some c → ∃ lx ∈ joined, lx.inclusive = some c

theorem Joined.single {lq : LocationQueue ρ α} (hq : lq.Of confs) : Joined confs [lq] [lq] where
  increasing := List.pairwise_singleton _ _
  of := fun lx hlx => by
    rw [List.mem_singleton.mp hlx]
    exact hq
  exact := fun l hl c hc => ⟨l, hl, hc⟩
  inclusive := fun l hl c hc => ⟨l, hl, hc⟩

/-- The entry `lx` gave its location to `lq`. -/
theorem Joined.join {lq lx : LocationQueue ρ α} {locations joined : List (LocationQueue ρ α)}
    (h : Joined confs ({ lq with inclusive := lx.inclusive } :: locations) joined)
    (hnone : lq.inclusive = none) (hxnone : lx.exact = none) :
    Joined confs (lq :: lx :: locations) joined := by
  refine ⟨h.increasing, h.of, ?_, ?_⟩
  · intro l hl c hc
    rcases List.mem_cons.mp hl with rfl | hl
    · exact h.exact _ List.mem_cons_self c hc
    rcases List.mem_cons.mp hl with rfl | hl
    · rw [hxnone] at hc
      cases hc
    · exact h.exact l (List.mem_cons_of_mem _ hl) c hc
  · intro l hl c hc
    rcases List.mem_cons.mp hl with rfl | hl
    · rw [hnone] at hc
      cases hc
    rcases List.mem_cons.mp hl with rfl | hl
    · exact h.inclusive _ List.mem_cons_self c hc
    · exact h.inclusive l (List.mem_cons_of_mem _ hl) c hc

/-- The entry `lq` is left in front of the others. -/
theorem Joined.cons {lq first : LocationQueue ρ α} {locations rest : List (LocationQueue ρ α)}
    (h : Joined confs locations (first :: rest)) (hq : lq.Of confs)
    (hlt : key lq.name < key first.name) :
    Joined confs (lq :: locations) (lq :: first :: rest) := by
  refine ⟨List.pairwise_cons.mpr ⟨?_, h.increasing⟩, ?_, ?_, ?_⟩
  · intro l hl
    rcases List.mem_cons.mp hl with rfl | hl
    · exact hlt
    · exact hlt.trans ((List.pairwise_cons.mp h.increasing).1 l hl)
  · intro l hl
    rcases List.mem_cons.mp hl with rfl | hl
    · exact hq
    · exact h.of l hl
  · intro l hl c hc
    rcases List.mem_cons.mp hl with rfl | hl
    · exact ⟨l, List.mem_cons_self, hc⟩
    · obtain ⟨ly, hly, hc'⟩ := h.exact l hl c hc
      exact ⟨ly, List.mem_cons_of_mem _ hly, hc'⟩
  · intro l hl c hc
    rcases List.mem_cons.mp hl with rfl | hl
    · exact ⟨l, List.mem_cons_self, hc⟩
    · obtain ⟨ly, hly, hc'⟩ := h.inclusive l hl c hc
      exact ⟨ly, List.mem_cons_of_mem _ hly, hc'⟩

theorem joins_of (hnul : ∀ c ∈ confs, 0 ∉ c.name) :
    Joins (LocationQueue.Of confs) := by
  intro lq lx hq hx hsame hle hdup
  have hname := (sameLocation_iff (hq.nul hnul) (hx.nul hnul)).mp hsame
  have hx' : lx.Sound fun c => c ∈ confs ∧ c.name = lq.name := by
    rw [hname]
    exact hx
  exact joins_sound lq lx hq hx' hsame hle hdup

/-- **The queue that is joined.** -/
theorem joinExact_spec (hnul : ∀ c ∈ confs, 0 ∉ c.name) {lq : LocationQueue ρ α}
    {locations joined : List (LocationQueue ρ α)} (hq : lq.Of confs)
    (hlocations : ∀ lx ∈ locations, lx.Of confs)
    (hsorted : (lq :: locations).Pairwise fun a b => rank a ≤ rank b)
    (h : joinExactLocations lq locations = some joined) :
    (∃ first rest, joined = first :: rest ∧ first.name = lq.name) ∧
      Joined confs (lq :: locations) joined := by
  refine joinExact_rule (C := fun lq locations joined =>
    (∃ first rest, joined = first :: rest ∧ first.name = lq.name) ∧
      Joined confs (lq :: locations) joined) (joins_of hnul) ?_ ?_ ?_ hq hlocations hsorted h
  · intro lq hq
    exact ⟨⟨lq, [], rfl, rfl⟩, .single hq⟩
  · rintro lq lx locations joined hnone hxnone ⟨hhead, hjoined⟩
    exact ⟨hhead, hjoined.join hnone hxnone⟩
  · rintro lq lx locations joined hq hx hsame hlx ⟨⟨first, rest, rfl, hfirst⟩, hjoined⟩
    have hlt : key lq.name < key first.name := by
      rw [hfirst]
      refine lt_of_le_of_ne (hq.key_le hx hlx) fun heq => hsame ?_
      exact (sameLocation_iff (hq.nul hnul) (hx.nul hnul)).mpr
        (key_inj (hq.nul hnul) (hx.nul hnul) heq)
    exact ⟨⟨lq, first :: rest, rfl, rfl⟩, hjoined.cons hq hlt⟩

/-! ## The tree of a server -/

theorem mem_static_entry {c : LocConf ρ α} (hc : c ∈ confs) (hregex : c.regex = none) :
    c.entry ∈ (initLocations (confs.map LocConf.entry)).1 := by
  rw [(initLocations_spec (confs.map LocConf.entry)).1.mem_iff, filter_static]
  exact List.mem_map_of_mem (List.mem_filter.mpr ⟨hc, by rw [hregex]; rfl⟩)

/-- The entries of the static locations. -/
theorem static_of (confs : List (LocConf ρ α)) (lq : LocationQueue ρ α)
    (hlq : lq ∈ (initLocations (confs.map LocConf.entry)).1) : lq.Of confs := by
  obtain ⟨c, hc, hregex, rfl⟩ := mem_static hlq
  have hname : c.entry.name = c.name := by
    unfold LocConf.entry
    split <;> rfl
  exact LocConf.entry_sound ⟨hc, hname.symm⟩ hregex

/-- The tree of joined entries has them in their order. -/
theorem Joined.tree {entries joined : List (LocationQueue ρ α)} (h : Joined confs entries joined)
    (hnul : ∀ c ∈ confs, 0 ∉ c.name) :
    (createLocationsTree (joined.length + 1) 0
      (createLocationsList joined.length joined).toList).Ordered ∧
    (createLocationsTree (joined.length + 1) 0
      (createLocationsList joined.length joined).toList).flat = joined := by
  have hnames : ∀ lx ∈ joined, 0 ∉ lx.name := fun lx hlx => (h.of lx hlx).nul hnul
  have hentries := createLocationsList_entries joined.length joined (Nat.le_refl _)
  have hrow := (createLocationsList_nested joined.length joined (Nat.le_refl _)
    h.increasing hnames).row [] (hentries.symm ▸ h.increasing) (by
      rw [hentries]
      exact fun lx hlx => ⟨List.nil_prefix, hnames lx hlx, (h.of lx hlx).conf⟩)
  obtain ⟨hordered, -, hflat⟩ := createLocationsTree_ordered (joined.length + 1) [] _ hrow (by
    rw [← Locations.entries_eq, hentries]
    omega)
  have hcut : joined.map (·.cut 0) = joined := List.map_id joined
  rw [← Locations.entries_eq, hentries, List.length_nil, hcut] at hflat
  rw [List.length_nil] at hordered
  exact ⟨hordered, hflat⟩

/-- **The tree of a server** is ordered, and holds each static location once. -/
theorem staticTree_ordered (hnul : ∀ c ∈ confs, 0 ∉ c.name) {tree : LocationTree ρ α}
    (htree : initStaticLocationTrees (initLocations (confs.map LocConf.entry)).1 = some tree) :
    tree.Ordered ∧ Joined confs (initLocations (confs.map LocConf.entry)).1 tree.flat := by
  obtain ⟨-, hsorted, -⟩ := initLocations_spec (confs.map LocConf.entry)
  have hof := static_of confs
  generalize (initLocations (confs.map LocConf.entry)).1 = locations at hsorted hof htree ⊢
  cases locations with
  | nil =>
    cases htree
    exact ⟨.nil, .nil, fun lx hlx => absurd hlx List.not_mem_nil,
      fun l hl => absurd hl List.not_mem_nil, fun l hl => absurd hl List.not_mem_nil⟩
  | cons lq locations =>
    obtain ⟨joined, hjoined, rfl⟩ := Option.map_eq_some_iff.mp htree
    obtain ⟨-, hjoin⟩ := joinExact_spec hnul (hof lq List.mem_cons_self)
      (fun lx hlx => hof lx (List.mem_cons_of_mem lq hlx)) hsorted hjoined
    obtain ⟨hordered, hflat⟩ := hjoin.tree hnul
    rw [hflat]
    exact ⟨hordered, hjoin⟩

/-! ## What is prescribed -/

/-- The location of `=` with the URI's name. -/
def exactLocation (uri : Bytes) (confs : List (LocConf ρ α)) : Option (LocConf ρ α) :=
  confs.find? fun c => c.regex.isNone && c.exactMatch && c.name == uri

/-- The plain or `^~` location with the longest name that is a prefix of the URI. -/
def longestLocation (uri : Bytes) (confs : List (LocConf ρ α)) : Option (LocConf ρ α) :=
  (confs.filter fun c => c.regex.isNone && !c.exactMatch && c.name.isPrefixOf uri).argmax
    (·.name.length)

/-- The first regex location that matches; `accepts` is the regex library. -/
def regexLocation (accepts : ρ → Bytes → Bool) (uri : Bytes) (confs : List (LocConf ρ α)) :
    Option (LocConf ρ α) :=
  confs.find? fun c => c.regex.any fun re => accepts re uri

/-- What the rules of `location` say for a URI. -/
def prescribed (accepts : ρ → Bytes → Bool) (uri : Bytes) (confs : List (LocConf ρ α)) :
    Rc × Option (LocConf ρ α) :=
  match exactLocation uri confs with
  | some c => (.ok, some c)
  | none =>
    match longestLocation uri confs with
    | some p =>
      if p.noregex then (.again, some p)
      else match regexLocation accepts uri confs with
        | some c => (.ok, some c)
        | none => (.again, some p)
    | none =>
      match regexLocation accepts uri confs with
      | some c => (.ok, some c)
      | none => (.declined, none)

/-- What is prescribed without the regex locations. -/
def prescribedStatic (uri : Bytes) (confs : List (LocConf ρ α)) : Rc × Option (LocConf ρ α) :=
  match exactLocation uri confs with
  | some c => (.ok, some c)
  | none =>
    match longestLocation uri confs with
    | some p => (.again, some p)
    | none => (.declined, none)

theorem exactLocation_some {uri : Bytes} {c : LocConf ρ α} (h : exactLocation uri confs = some c) :
    c ∈ confs ∧ c.regex = none ∧ c.exactMatch = true ∧ c.name = uri := by
  have hfound := List.find?_some h
  rw [Bool.and_eq_true, Bool.and_eq_true, Option.isNone_iff_eq_none, beq_iff_eq] at hfound
  exact ⟨List.mem_of_find?_eq_some h, hfound.1.1, hfound.1.2, hfound.2⟩

theorem exactLocation_isSome {c : LocConf ρ α} (hc : c ∈ confs) (hregex : c.regex = none)
    (hexact : c.exactMatch = true) : exactLocation c.name confs ≠ none := by
  intro hnone
  have hnot := List.find?_eq_none.mp hnone c hc
  rw [hregex, hexact, beq_self_eq_true] at hnot
  exact hnot rfl

theorem mem_longest {uri : Bytes} {c : LocConf ρ α} :
    c ∈ confs.filter (fun c => c.regex.isNone && !c.exactMatch && c.name.isPrefixOf uri) ↔
      c ∈ confs ∧ c.regex = none ∧ c.exactMatch = false ∧ c.name <+: uri := by
  rw [List.mem_filter, Bool.and_eq_true, Bool.and_eq_true, Option.isNone_iff_eq_none,
    Bool.not_eq_true', List.isPrefixOf_iff_prefix, and_assoc]

theorem longestLocation_some {uri : Bytes} {c : LocConf ρ α}
    (h : longestLocation uri confs = some c) :
    (c ∈ confs ∧ c.regex = none ∧ c.exactMatch = false ∧ c.name <+: uri) ∧
    ∀ d ∈ confs, d.regex = none → d.exactMatch = false → d.name <+: uri →
      d.name.length ≤ c.name.length := by
  have hmem : c ∈ longestLocation uri confs := h
  refine ⟨mem_longest.mp (List.argmax_mem hmem), ?_⟩
  intro d hd hregex hexact hpre
  exact List.le_of_mem_argmax (f := (·.name.length))
    (mem_longest.mpr ⟨hd, hregex, hexact, hpre⟩) hmem

theorem longestLocation_none {uri : Bytes} (h : longestLocation uri confs = none)
    {c : LocConf ρ α} (hc : c ∈ confs) (hregex : c.regex = none) (hexact : c.exactMatch = false) :
    ¬ c.name <+: uri := by
  intro hpre
  have hnil := List.argmax_eq_none.mp h
  have hmem := mem_longest.mpr ⟨hc, hregex, hexact, hpre⟩
  rw [hnil] at hmem
  cases hmem

/-- Entries of one name are one entry. -/
theorem Increasing.eq_of_name {entries : List (LocationQueue ρ α)} (h : Increasing entries)
    {lx ly : LocationQueue ρ α} (hx : lx ∈ entries) (hy : ly ∈ entries)
    (hname : lx.name = ly.name) : lx = ly := by
  have hnodup : (entries.map fun lx => key lx.name).Nodup :=
    List.pairwise_map.mpr (h.imp fun hlt => ne_of_lt hlt)
  exact List.inj_on_of_nodup_map hnodup hx hy (congrArg key hname)

section
variable {entries flat : List (LocationQueue ρ α)}

/-- A location of the server is in the entry of its name. -/
theorem Joined.exact_of (h : Joined confs (initLocations (confs.map LocConf.entry)).1 flat)
    {c : LocConf ρ α} (hc : c ∈ confs) (hregex : c.regex = none) (hexact : c.exactMatch = true) :
    ∃ lx ∈ flat, lx.exact = some c ∧ lx.name = c.name := by
  have hentry : c.entry.exact = some c := by rw [LocConf.entry_exact hexact]
  obtain ⟨lx, hlx, hx⟩ := h.exact c.entry (mem_static_entry hc hregex) c hentry
  exact ⟨lx, hlx, hx, (((h.of lx hlx).exact c hx).1.2).symm⟩

theorem Joined.inclusive_of (h : Joined confs (initLocations (confs.map LocConf.entry)).1 flat)
    {c : LocConf ρ α} (hc : c ∈ confs) (hregex : c.regex = none) (hexact : c.exactMatch = false) :
    ∃ lx ∈ flat, lx.inclusive = some c ∧ lx.name = c.name := by
  have hentry : c.entry.inclusive = some c := by rw [LocConf.entry_inclusive hexact hregex]
  obtain ⟨lx, hlx, hx⟩ := h.inclusive c.entry (mem_static_entry hc hregex) c hentry
  exact ⟨lx, hlx, hx, (((h.of lx hlx).inclusive c hx).1.2).symm⟩

/-- **The answer of the tree is what is prescribed.** -/
theorem answer_prescribed (h : Joined confs (initLocations (confs.map LocConf.entry)).1 flat)
    {uri : Bytes} {r : Rc × Option (LocConf ρ α)}
    (hanswer : Answer flat uri (.declined, none) r) : r = prescribedStatic uri confs := by
  have hexactnone (hnone : ∀ lx ∈ flat, lx.name = uri → lx.exact = none) :
      exactLocation uri confs = none := by
    by_contra hne
    obtain ⟨c, hfound⟩ := Option.ne_none_iff_exists'.mp hne
    obtain ⟨hc, hregex, hexact, hname⟩ := exactLocation_some hfound
    obtain ⟨lx, hlx, hxc, hxname⟩ := h.exact_of hc hregex hexact
    rw [hnone lx hlx (hxname.trans hname)] at hxc
    cases hxc
  unfold prescribedStatic
  cases hanswer with
  | @exact lq c hmem hname hc =>
    obtain ⟨⟨hmemc, hcname⟩, hexact, hregex⟩ := (h.of lq hmem).exact c hc
    cases hfound : exactLocation uri confs with
    | none => exact absurd hfound (hname ▸ hcname ▸ exactLocation_isSome hmemc hregex hexact)
    | some c' =>
      obtain ⟨hc', hregex', hexact', hname'⟩ := exactLocation_some hfound
      obtain ⟨lx, hlx, hxc, hxname⟩ := h.exact_of hc' hregex' hexact'
      have heq := h.increasing.eq_of_name hmem hlx (hname.trans (hxname.trans hname').symm)
      rw [heq, hxc] at hc
      cases hc
      rfl
  | @inclusive lq c hnone hmem hpre hc hlongest =>
    obtain ⟨⟨hmemc, hcname⟩, hexact, hregex⟩ := (h.of lq hmem).inclusive c hc
    rw [hexactnone hnone]
    dsimp only
    cases hfound : longestLocation uri confs with
    | none => exact absurd (hcname ▸ hpre) (longestLocation_none hfound hmemc hregex hexact)
    | some c' =>
      obtain ⟨⟨hc', hregex', hexact', hpre'⟩, hmax⟩ := longestLocation_some hfound
      obtain ⟨lx, hlx, hxc, hxname⟩ := h.inclusive_of hc' hregex' hexact'
      have hle := hlongest lx hlx (hxc ▸ nofun) (hxname ▸ hpre')
      have hge := hmax c hmemc hregex hexact (hcname ▸ hpre)
      have hlen : lq.name.length = lx.name.length := by
        rw [hxname] at hle ⊢
        rw [hcname] at hge
        omega
      have heq := h.increasing.eq_of_name hmem hlx
        (List.prefix_of_prefix_length_le hpre (hxname ▸ hpre') (le_of_eq hlen) |>.eq_of_length hlen)
      rw [heq, hxc] at hc
      cases hc
      rfl
  | nothing hnone hinclusive =>
    rw [hexactnone hnone]
    dsimp only
    cases hfound : longestLocation uri confs with
    | none => rfl
    | some c =>
      obtain ⟨⟨hc, hregex, hexact, hpre⟩, -⟩ := longestLocation_some hfound
      obtain ⟨lx, hlx, hxc, hxname⟩ := h.inclusive_of hc hregex hexact
      exact absurd (hxname ▸ hpre) (hinclusive lx hlx (hxc ▸ nofun))

end

/-- A misrouted URI gets another location than is prescribed. -/
theorem Misrouted.ne_prescribed {uri : Bytes} {r : Rc × Option (LocConf ρ α)}
    (h : Misrouted confs uri r) : r ≠ prescribedStatic uri confs := by
  rintro rfl
  unfold prescribedStatic at h
  cases hfound : exactLocation uri confs with
  | some c =>
    obtain ⟨-, -, -, hname⟩ := exactLocation_some hfound
    rw [hfound] at h
    cases h with
    | exact _ _ _ _ _ h => exact h c rfl hname
    | inclusive c' h hpre =>
      cases h
      exact hpre (hname ▸ List.prefix_refl _)
  | none =>
    rw [hfound] at h
    cases h with
    | exact c hc hexact hregex hname _ =>
      exact exactLocation_isSome hc hregex hexact (hname ▸ hfound)
    | inclusive c h hpre =>
      dsimp only at h
      cases hlongest : longestLocation uri confs with
      | none =>
        rw [hlongest] at h
        cases h
      | some p =>
        rw [hlongest] at h
        cases h
        exact hpre (longestLocation_some hlongest).1.2.2.2

/-! ## A request -/

/-- The regex library as `ngx_regex_exec` answers for it, never failing. -/
def regexExec (accepts : ρ → Bytes → Bool) (re : ρ) (uri : Bytes) : Exec :=
  if accepts re uri then .matched else .noMatch

theorem findRegex_eq (accepts : ρ → Bytes → Bool) (uri : Bytes) (confs : List (LocConf ρ α)) :
    findRegex (regexExec accepts) uri ((confs.filter (·.regex.isSome)).map some ++ [none]) =
      .ok ((regexLocation accepts uri confs).map fun c => (.ok, some c)) := by
  unfold regexLocation
  induction confs with
  | nil => rfl
  | cons c confs ih =>
    cases hregex : c.regex with
    | none =>
      rw [List.filter_cons_of_neg (by rw [hregex]; exact Bool.false_ne_true),
        List.find?_cons_of_neg (by rw [hregex]; exact Bool.false_ne_true)]
      exact ih
    | some re =>
      rw [List.filter_cons_of_pos (by rw [hregex]; rfl), List.map_cons, List.cons_append, findRegex,
        hregex]
      dsimp only
      unfold regexExec
      cases haccepts : accepts re uri with
      | true =>
        rw [List.find?_cons_of_pos (by rw [hregex]; exact haccepts)]
        rfl
      | false =>
        rw [List.find?_cons_of_neg (by
          rw [hregex, Option.any_some, haccepts]
          exact Bool.false_ne_true)]
        exact ih

theorem regexLocation_none {accepts : ρ → Bytes → Bool} {uri : Bytes}
    (h : confs.filter (·.regex.isSome) = []) : regexLocation accepts uri confs = none := by
  refine List.find?_eq_none.mpr fun c hc => ?_
  have hregex := List.filter_eq_nil_iff.mp h c hc
  rw [Option.not_isSome_iff_eq_none] at hregex
  rw [hregex]
  exact Bool.false_ne_true

/-- The regex pass behind the static search. -/
theorem findLocation_eq {accepts : ρ → Bytes → Bool} {uri : Bytes} {tree : LocationTree ρ α}
    {r : Rc × Option (LocConf ρ α)}
    (hstatic : findStaticFrom uri (.declined, none) tree = .ok r)
    (hfound : r.1 = .again → r.2 ≠ none) :
    findLocation (regexExec accepts) uri ⟨tree, (initLocations (confs.map LocConf.entry)).2⟩ =
      .ok (if r.1 = .ok ∨ r.1 = .again ∧ r.2.any (·.noregex) then r
        else ((regexLocation accepts uri confs).map fun c => (.ok, some c)).getD r) := by
  obtain ⟨rc, hdclcf⟩ := r
  unfold findLocation
  rw [hstatic, regexLocations_eq]
  dsimp only
  by_cases hok : rc = .ok
  · rw [if_pos hok, if_pos (.inl hok)]
  rw [if_neg hok]
  have hnoregex : noregexOf rc hdclcf = .ok (decide (rc = .again ∧ hdclcf.any (·.noregex))) := by
    unfold noregexOf
    by_cases hagain : rc = .again
    · obtain ⟨c, rfl⟩ := Option.ne_none_iff_exists'.mp (hfound hagain)
      rw [if_pos hagain]
      simp [hagain]
    · rw [if_neg hagain]
      simp [hagain]
  rw [hnoregex]
  by_cases hskip : rc = .again ∧ hdclcf.any (·.noregex)
  · rw [decide_eq_true hskip]
    exact congrArg Except.ok (if_pos (.inr hskip)).symm
  have hgoal : ¬ (rc = .ok ∨ rc = .again ∧ hdclcf.any (·.noregex)) := fun h => h.elim hok hskip
  rw [decide_eq_false hskip, if_neg hgoal]
  by_cases hnil : confs.filter (·.regex.isSome) = []
  · rw [if_pos hnil, regexLocation_none hnil]
    rfl
  · rw [if_neg hnil]
    dsimp only
    rw [findRegex_eq]
    cases regexLocation accepts uri confs <;> rfl

theorem prescribed_eq (accepts : ρ → Bytes → Bool) (uri : Bytes) (confs : List (LocConf ρ α)) :
    prescribed accepts uri confs =
      if (prescribedStatic uri confs).1 = .ok ∨
        (prescribedStatic uri confs).1 = .again ∧ (prescribedStatic uri confs).2.any (·.noregex)
      then prescribedStatic uri confs
      else ((regexLocation accepts uri confs).map fun c => (.ok, some c)).getD
        (prescribedStatic uri confs) := by
  unfold prescribed prescribedStatic
  cases exactLocation uri confs with
  | some c => rfl
  | none =>
    cases longestLocation uri confs with
    | none => cases regexLocation accepts uri confs <;> rfl
    | some p =>
      dsimp only
      cases hp : p.noregex with
      | true => simp [hp]
      | false => cases regexLocation accepts uri confs <;> simp [hp]

/-- The locations of the directives. -/
def confsOf (compile : Bytes → Bool → Option ρ) (directives : List (List Bytes × α)) :
    List (LocConf ρ α) :=
  directives.filterMap fun d => predealLocation compile d.1 d.2

theorem addLocations_eq {compile : Bytes → Bool → Option ρ} {directives : List (List Bytes × α)}
    {locations : List (LocationQueue ρ α)} (h : addLocations compile directives = some locations) :
    locations = (confsOf compile directives).map LocConf.entry := by
  have hrun (start : List (LocationQueue ρ α))
      (h : directives.foldlM (fun ls d => addLocation compile d.1 d.2 ls) start = some locations) :
      locations = start ++ (confsOf compile directives).map LocConf.entry := by
    clear * - h
    induction directives generalizing start with
    | nil =>
      cases h
      exact (List.append_nil _).symm
    | cons d directives ih =>
      rw [List.foldlM_cons] at h
      obtain ⟨start', hadd, hrest⟩ := Option.bind_eq_some_iff.mp h
      obtain ⟨c, hc, rfl⟩ := Option.map_eq_some_iff.mp hadd
      have hcons : confsOf compile (d :: directives) = c :: confsOf compile directives :=
        List.filterMap_cons_some hc
      rw [ih _ hrest, hcons, List.append_assoc]
      rfl
  exact hrun [] h

/-- Every long name of a static location goes on from that of a plain or `^~` location
that is at most 255 bytes shorter. -/
def LongNamesFit (confs : List (LocConf ρ α)) : Prop :=
  ∀ c ∈ confs, c.regex = none → 255 < c.name.length → ∃ p ∈ confs, p.regex = none ∧
    p.exactMatch = false ∧ p.name <+: c.name ∧ p.name.length < c.name.length ∧
    c.name.length ≤ p.name.length + 255

theorem Joined.namesFit_iff {flat : List (LocationQueue ρ α)}
    (h : Joined confs (initLocations (confs.map LocConf.entry)).1 flat) :
    NamesFit flat ↔ LongNamesFit confs := by
  constructor
  · intro hfit c hc hregex hlong
    obtain ⟨lx, hlx, hname⟩ : ∃ lx ∈ flat, lx.name = c.name := by
      cases hexact : c.exactMatch with
      | true =>
        obtain ⟨lx, hlx, -, hname⟩ := h.exact_of hc hregex hexact
        exact ⟨lx, hlx, hname⟩
      | false =>
        obtain ⟨lx, hlx, -, hname⟩ := h.inclusive_of hc hregex hexact
        exact ⟨lx, hlx, hname⟩
    obtain ⟨lq, hlq, hinclusive, hshort⟩ := hfit lx hlx (hname ▸ hlong)
    obtain ⟨p, hp⟩ := Option.ne_none_iff_exists'.mp hinclusive
    obtain ⟨⟨hmem, hpname⟩, hexact, hpregex⟩ := (h.of lq hlq).inclusive p hp
    rw [← hpname, hname] at hshort
    exact ⟨p, hmem, hpregex, hexact, hshort⟩
  · intro hfit lx hlx hlong
    obtain ⟨c, hc, hregex, hname⟩ : ∃ c ∈ confs, c.regex = none ∧ c.name = lx.name := by
      rcases (h.of lx hlx).conf with hne | hne
      · obtain ⟨c, hc⟩ := Option.ne_none_iff_exists'.mp hne
        obtain ⟨⟨hmem, hname⟩, -, hregex⟩ := (h.of lx hlx).exact c hc
        exact ⟨c, hmem, hregex, hname⟩
      · obtain ⟨c, hc⟩ := Option.ne_none_iff_exists'.mp hne
        obtain ⟨⟨hmem, hname⟩, -, hregex⟩ := (h.of lx hlx).inclusive c hc
        exact ⟨c, hmem, hregex, hname⟩
    obtain ⟨p, hp, hpregex, hexact, hshort⟩ := hfit c hc hregex (hname ▸ hlong)
    obtain ⟨lq, hlq, hpc, hpname⟩ := h.inclusive_of hp hpregex hexact
    rw [← hpname, hname] at hshort
    exact ⟨lq, hlq, hpc ▸ nofun, hshort⟩

/-- **Which location a request gets**: the one that is prescribed, for all URIs and regex
locations, if and only if the long names fit. -/
theorem findLocation_prescribed (compile : Bytes → Bool → Option ρ)
    (directives : List (List Bytes × α)) {locations : List (LocationQueue ρ α)}
    {tree : LocationTree ρ α} (hadd : addLocations compile directives = some locations)
    (htree : initStaticLocationTrees (initLocations locations).1 = some tree)
    (hnul : ∀ c ∈ confsOf compile directives, 0 ∉ c.name) :
    (∀ (accepts : ρ → Bytes → Bool) (uri : Bytes), 0 ∉ uri →
      findLocation (regexExec accepts) uri ⟨tree, (initLocations locations).2⟩ =
        .ok (prescribed accepts uri (confsOf compile directives))) ↔
    LongNamesFit (confsOf compile directives) := by
  obtain rfl := addLocations_eq hadd
  obtain ⟨hordered, hjoined⟩ := staticTree_ordered hnul htree
  have hfree : tree.NulFree := fun lx hlx => (hjoined.of lx hlx).nul hnul
  rw [← hjoined.namesFit_iff, ← fits_iff hordered hfree]
  constructor
  · intro h
    by_contra hfits
    obtain ⟨-, -, u, hu, -, hmis⟩ := findStaticFrom_misrouted hordered hfree [] hjoined.of hfits
    obtain ⟨r, hr, hmisrouted⟩ := hmis (.declined, none) nofun
    obtain ⟨r', hr', hfound⟩ := findStaticFrom_sound (P := fun _ => True) u (.declined, none)
      ⟨nofun, nofun⟩ tree (staticTree_sound _ (fun _ _ => trivial) htree)
    rw [hr] at hr'
    cases hr'
    -- Without a regex location that matches, the static search decides.
    have hnone : regexLocation (fun _ _ => false) u (confsOf compile directives) = none := by
      refine List.find?_eq_none.mpr fun c _ => ?_
      cases c.regex <;> exact Bool.false_ne_true
    have heq := h (fun _ _ => false) u hu
    rw [findLocation_eq hr hfound.1, prescribed_eq, hnone] at heq
    simp only [Option.map_none, Option.getD_none, ite_self, Except.ok.injEq] at heq
    exact hmisrouted.ne_prescribed heq
  · intro hfits accepts uri huri
    obtain ⟨r, hr, hanswer⟩ := findStaticFrom_answer hordered hfits uri huri (.declined, none)
    obtain rfl := answer_prescribed hjoined hanswer
    rw [findLocation_eq hr, prescribed_eq]
    unfold prescribedStatic
    cases exactLocation uri (confsOf compile directives) with
    | some c => nofun
    | none => cases longestLocation uri (confsOf compile directives) <;> nofun

/-- `location /a`, `location = /a` and `location ^~ /a/b`. -/
def someLocations : List (List Bytes × Unit) :=
  [([[108], [47, 97]], ()), ([[108], [61], [47, 97]], ()),
    ([[108], [94, 126], [47, 97, 47, 98]], ())]

/-- Every URI gets its location. -/
theorem findLocation_prescribed_short : ∃ locations tree,
    addLocations (fun _ _ => some ()) someLocations = some locations ∧
    initStaticLocationTrees (initLocations locations).1 = some tree ∧
    ∀ (accepts : Unit → Bytes → Bool) (uri : Bytes), 0 ∉ uri →
      findLocation (regexExec accepts) uri ⟨tree, (initLocations locations).2⟩ =
        .ok (prescribed accepts uri (confsOf (fun _ _ => some ()) someLocations)) := by
  have hshort : ∀ c ∈ confsOf (fun _ _ => some ()) someLocations, c.name.length ≤ 255 := by decide
  refine ⟨_, _, rfl, rfl, (findLocation_prescribed (fun _ _ => some ()) someLocations rfl rfl
    (by decide)).mpr ?_⟩
  intro c hc _ hlong
  exact absurd (hshort c hc) (Nat.not_le_of_lt hlong)

/-- `/` and 255 times `a`. -/
def longName : Bytes := 47 :: List.replicate 255 97

/-- **`location = name` with 256 bytes** is not found for its own name. -/
theorem findLocation_long : ∃ locations tree,
    addLocations (fun _ _ => some ()) [([[108], [61], longName], ())] = some locations ∧
    initStaticLocationTrees (initLocations locations).1 = some tree ∧ 0 ∉ longName ∧
    findLocation (regexExec fun (_ : Unit) _ => false) longName
      ⟨tree, (initLocations locations).2⟩ = .ok (.declined, none) ∧
    prescribed (fun (_ : Unit) _ => false) longName
      (confsOf (fun _ _ => some ()) [([[108], [61], longName], ())]) =
      (.ok, some ⟨longName, none, true, false, ()⟩) := by
  refine ⟨_, _, rfl, rfl, by decide +kernel, ?_, ?_⟩
  · decide +kernel
  · decide +kernel

end NgxToolkit.HttpDynamic
