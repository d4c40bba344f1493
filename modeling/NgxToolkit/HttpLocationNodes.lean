import Mathlib
import NgxToolkit.HttpLocationOrder

/-! The pointers of the location tree.

An entry of the queue has one of its two pointers.  Joining gives both pointers to an
entry of `=` that has the inclusive entry of the same name right behind it; it would
take the only pointer from an inclusive entry in front of the one of `=`, but the order
of the queue puts these the other way.  So every node of the tree has a location, and
`findLocation` follows no `NULL`.

* `joinExact_rule`: the induction on the queue that is joined.
* `joinExact_sound`: the entries that are joined.
* `findLocation_sound`: a lookup. -/

namespace NgxToolkit.HttpDynamic

variable {ρ α : Type} {P : LocConf ρ α → Prop}

/-- An entry of static locations of which `P` holds. -/
structure LocationQueue.Sound (P : LocConf ρ α → Prop) (lq : LocationQueue ρ α) : Prop where
  exact : ∀ c, lq.exact = some c → P c ∧ c.exactMatch = true ∧ c.regex = none
  inclusive : ∀ c, lq.inclusive = some c → P c ∧ c.exactMatch = false ∧ c.regex = none
  conf : lq.exact ≠ none ∨ lq.inclusive ≠ none

/-! ## Joining -/

theorem LocConf.entry_exact {c : LocConf ρ α} (h : c.exactMatch = true) :
    c.entry = ⟨some c, none, c.name⟩ := if_pos (.inl h)

theorem LocConf.entry_inclusive {c : LocConf ρ α} (h : c.exactMatch = false)
    (hregex : c.regex = none) : c.entry = ⟨none, some c, c.name⟩ := by
  apply if_neg
  rw [h, hregex]
  simp

theorem LocConf.entry_sound {c : LocConf ρ α} (hP : P c) (hregex : c.regex = none) :
    c.entry.Sound P := by
  cases h : c.exactMatch with
  | true =>
    rw [entry_exact h]
    refine ⟨?_, nofun, .inl nofun⟩
    rintro _ ⟨⟩
    exact ⟨hP, h, hregex⟩
  | false =>
    rw [entry_inclusive h hregex]
    refine ⟨nofun, ?_, .inr nofun⟩
    rintro _ ⟨⟩
    exact ⟨hP, h, hregex⟩

/-- Entries of one name have one key. -/
theorem sameLocation_key {lq lx : LocationQueue ρ α} (h : sameLocation lq lx = true) :
    key lq.name = key lx.name := by
  rw [sameLocation, Bool.and_eq_true, beq_iff_eq, beq_iff_eq, filenameCmp_zero] at h
  obtain ⟨hlen, hkey⟩ := h
  have hq := key_length_le lq.name
  have hx := key_length_le lx.name
  rwa [List.take_of_length_le (by omega), List.take_of_length_le hx] at hkey

theorem LocationQueue.Sound.rank_exact {lq : LocationQueue ρ α} (h : lq.Sound P)
    (hexact : lq.exact ≠ none) : rank lq = toLex (false, toLex (key lq.name, false)) := by
  obtain ⟨c, hc⟩ := Option.ne_none_iff_exists'.mp hexact
  obtain ⟨-, hmatch, hregex⟩ := h.exact c hc
  have hconf : lq.conf = some c := by
    unfold LocationQueue.conf
    rw [hc]
  simp [rank, LocationQueue.isRegex, LocationQueue.exactMatch, hconf, hmatch, hregex]

theorem LocationQueue.Sound.rank_inclusive {lq : LocationQueue ρ α} (h : lq.Sound P)
    (hexact : lq.exact = none) : rank lq = toLex (false, toLex (key lq.name, true)) := by
  obtain ⟨c, hc⟩ := Option.ne_none_iff_exists'.mp (h.conf.resolve_left (not_not.mpr hexact))
  obtain ⟨-, hmatch, hregex⟩ := h.inclusive c hc
  have hconf : lq.conf = some c := by
    unfold LocationQueue.conf
    rw [hexact, hc]
  simp [rank, LocationQueue.isRegex, LocationQueue.exactMatch, hconf, hmatch, hregex]

/-- An inclusive entry is not in front of the one of `=` with the same name. -/
theorem inclusive_behind {lq lx : LocationQueue ρ α} (hq : lq.Sound P) (hx : lx.Sound P)
    (hsame : sameLocation lq lx = true) (hle : rank lq ≤ rank lx) (hexact : lx.exact ≠ none) :
    lq.exact ≠ none := by
  intro hnone
  rw [hq.rank_inclusive hnone, hx.rank_exact hexact, sameLocation_key hsame,
    Prod.Lex.toLex_le_toLex, Prod.Lex.toLex_le_toLex] at hle
  simp only [lt_irrefl, true_and, false_or] at hle
  exact absurd hle (by decide)

/-- What is joined: an entry of `=`, and the inclusive one behind it. -/
theorem joinable {lq lx : LocationQueue ρ α} (hq : lq.Sound P) (hx : lx.Sound P)
    (hsame : sameLocation lq lx = true) (hle : rank lq ≤ rank lx)
    (hdup : ¬ (lq.exact.isSome ∧ lx.exact.isSome ∨ lq.inclusive.isSome ∧ lx.inclusive.isSome)) :
    lq.exact ≠ none ∧ lq.inclusive = none ∧ lx.exact = none := by
  rw [Option.isSome_iff_ne_none, Option.isSome_iff_ne_none, Option.isSome_iff_ne_none,
    Option.isSome_iff_ne_none] at hdup
  have hxe : lx.exact = none := by
    by_contra hne
    exact hdup (.inl ⟨inclusive_behind hq hx hsame hle hne, hne⟩)
  have hxi := hx.conf.resolve_left (not_not.mpr hxe)
  have hqi : lq.inclusive = none := by
    by_contra hne
    exact hdup (.inr ⟨hne, hxi⟩)
  exact ⟨hq.conf.resolve_right (not_not.mpr hqi), hqi, hxe⟩

theorem LocationQueue.Sound.join {lq lx : LocationQueue ρ α} (hq : lq.Sound P) (hx : lx.Sound P)
    (hexact : lq.exact ≠ none) :
    LocationQueue.Sound P { lq with inclusive := lx.inclusive } ∧
      rank { lq with inclusive := lx.inclusive } = rank lq := by
  have hjoin : LocationQueue.Sound P { lq with inclusive := lx.inclusive } :=
    ⟨hq.exact, hx.inclusive, .inl hexact⟩
  exact ⟨hjoin, by rw [hjoin.rank_exact hexact, hq.rank_exact hexact]⟩

/-- Entries with `Q` that can be joined have one kind of location each, and what they are
joined to has `Q` and stays at its place. -/
def Joins (Q : LocationQueue ρ α → Prop) : Prop :=
  ∀ lq lx : LocationQueue ρ α, Q lq → Q lx → sameLocation lq lx = true → rank lq ≤ rank lx →
    ¬ (lq.exact.isSome ∧ lx.exact.isSome ∨ lq.inclusive.isSome ∧ lx.inclusive.isSome) →
    (lq.inclusive = none ∧ lx.exact = none) ∧ Q { lq with inclusive := lx.inclusive } ∧
      rank { lq with inclusive := lx.inclusive } = rank lq

theorem joins_sound : Joins fun lq : LocationQueue ρ α => lq.Sound P := by
  intro lq lx hq hx hsame hle hdup
  obtain ⟨hexact, hnone⟩ := joinable hq hx hsame hle hdup
  exact ⟨hnone, hq.join hx hexact⟩

/-- The entries stay in order. -/
theorem sorted_join {lq lx : LocationQueue ρ α} {locations : List (LocationQueue ρ α)}
    (hrank : rank { lq with inclusive := lx.inclusive } = rank lq)
    (hsorted : (lq :: lx :: locations).Pairwise fun a b => rank a ≤ rank b) :
    ({ lq with inclusive := lx.inclusive } :: locations).Pairwise fun a b => rank a ≤ rank b := by
  obtain ⟨hle, hsorted'⟩ := List.pairwise_cons.mp hsorted
  refine List.pairwise_cons.mpr ⟨fun l hl => ?_, (List.pairwise_cons.mp hsorted').2⟩
  rw [hrank]
  exact hle l (List.mem_cons_of_mem lx hl)

/-- **The rule for joining.**  An entry that is joined takes the one behind it; another
one is left in front of what is joined behind it. -/
theorem joinExact_rule {Q : LocationQueue ρ α → Prop}
    {C : LocationQueue ρ α → List (LocationQueue ρ α) → List (LocationQueue ρ α) → Prop}
    (hQ : Joins Q) (hnil : ∀ lq, Q lq → C lq [] [lq])
    (hjoin : ∀ lq lx locations joined, lq.inclusive = none → lx.exact = none →
      C { lq with inclusive := lx.inclusive } locations joined → C lq (lx :: locations) joined)
    (hcons : ∀ lq lx locations joined, Q lq → Q lx → sameLocation lq lx ≠ true →
      rank lq ≤ rank lx → C lx locations joined → C lq (lx :: locations) (lq :: joined))
    {lq : LocationQueue ρ α} {locations joined : List (LocationQueue ρ α)} (hq : Q lq)
    (hlocations : ∀ lx ∈ locations, Q lx)
    (hsorted : (lq :: locations).Pairwise fun a b => rank a ≤ rank b)
    (h : joinExactLocations lq locations = some joined) : C lq locations joined := by
  induction locations generalizing lq joined with
  | nil =>
    cases h
    exact hnil lq hq
  | cons lx locations ih =>
    have hx := hlocations lx List.mem_cons_self
    have hrest : ∀ l ∈ locations, Q l := fun l hl => hlocations l (List.mem_cons_of_mem lx hl)
    obtain ⟨hle, hsorted'⟩ := List.pairwise_cons.mp hsorted
    have hlx := hle lx List.mem_cons_self
    unfold joinExactLocations at h
    by_cases hsame : sameLocation lq lx = true
    · rw [if_pos hsame] at h
      split at h
      · cases h
      · next hdup =>
        obtain ⟨hnone, hjoined, hrank⟩ := hQ lq lx hq hx hsame hlx hdup
        exact hjoin lq lx locations joined hnone.1 hnone.2
          (ih hjoined hrest (sorted_join hrank hsorted) h)
    · rw [if_neg hsame] at h
      obtain ⟨joined', hjoined, rfl⟩ := Option.map_eq_some_iff.mp h
      exact hcons lq lx locations joined' hq hx hsame hlx (ih hx hrest hsorted' hjoined)

/-- **Every entry that is joined has a location.** -/
theorem joinExact_sound {lq : LocationQueue ρ α} {locations joined : List (LocationQueue ρ α)}
    (hq : lq.Sound P) (hlocations : ∀ lx ∈ locations, lx.Sound P)
    (hsorted : (lq :: locations).Pairwise fun a b => rank a ≤ rank b)
    (h : joinExactLocations lq locations = some joined) : ∀ lx ∈ joined, lx.Sound P := by
  refine joinExact_rule (C := fun _ _ joined => ∀ lx ∈ joined, lx.Sound P) joins_sound ?_ ?_ ?_ hq
    hlocations hsorted h
  · intro lq hq lx hlx
    rw [List.mem_singleton.mp hlx]
    exact hq
  · intro lq lx locations joined _ _ hjoined
    exact hjoined
  · intro lq lx locations joined hq _ _ _ hjoined l hl
    rcases List.mem_cons.mp hl with rfl | hl
    · exact hq
    · exact hjoined l hl

/-! ## The tree -/

/-- The entries of the queue and of the queues in it. -/
def Locations.entries : Locations ρ α → List (LocationQueue ρ α)
  | .nil => []
  | .cons lq list next => lq :: (list.entries ++ next.entries)

/-- Every node has a location, and `P` holds of all of them. -/
def LocationTree.Sound (P : LocConf ρ α → Prop) : LocationTree ρ α → Prop
  | .nil => True
  | .node left right tree exact inclusive _ _ =>
    left.Sound P ∧ right.Sound P ∧ tree.Sound P ∧ (∀ c, exact = some c → P c) ∧
      (∀ c, inclusive = some c → P c) ∧ (exact ≠ none ∨ inclusive ≠ none)

/-- The queues hold the entries in their order. -/
theorem createLocationsList_entries (fuel : Nat) (locations : List (LocationQueue ρ α))
    (hfuel : locations.length ≤ fuel) :
    (createLocationsList fuel locations).entries = locations := by
  induction fuel generalizing locations with
  | zero =>
    rw [List.eq_nil_of_length_eq_zero (Nat.le_zero.mp hfuel)]
    rfl
  | succ fuel ih =>
    cases locations with
    | nil => rfl
    | cons lq locations =>
      have hlen : locations.length ≤ fuel := Nat.le_of_succ_le_succ hfuel
      unfold createLocationsList
      by_cases hinclusive : lq.inclusive = none
      · rw [if_pos hinclusive, Locations.entries, ih locations hlen]
        rfl
      · have htake := (List.takeWhile_prefix (nests lq) (l := locations)).length_le
        have hdrop := (List.dropWhile_suffix (nests lq) (l := locations)).length_le
        rw [if_neg hinclusive, Locations.entries, ih _ (by omega), ih _ (by omega),
          List.takeWhile_append_dropWhile]

theorem Locations.mem_entries {locations : Locations ρ α} {q : LocationQueue ρ α × Locations ρ α}
    (hq : q ∈ locations.toList) : q.1 ∈ locations.entries ∧ q.2.entries ⊆ locations.entries := by
  induction locations with
  | nil => cases hq
  | cons lq list next _ ih =>
    rcases List.mem_cons.mp hq with rfl | hq
    · exact ⟨List.mem_cons_self, fun x hx =>
        List.mem_cons_of_mem _ (List.mem_append_left _ hx)⟩
    · obtain ⟨h1, h2⟩ := ih hq
      exact ⟨List.mem_cons_of_mem _ (List.mem_append_right _ h1), fun x hx =>
        List.mem_cons_of_mem _ (List.mem_append_right _ (h2 hx))⟩

theorem createLocationsTree_sound (fuel start : Nat)
    (locations : List (LocationQueue ρ α × Locations ρ α))
    (h : ∀ q ∈ locations, q.1.Sound P ∧ ∀ lq ∈ q.2.entries, lq.Sound P) :
    (createLocationsTree fuel start locations).Sound P := by
  induction fuel generalizing start locations with
  | zero => trivial
  | succ fuel ih =>
    unfold createLocationsTree
    cases hmiddle : locations.drop (locations.length / 2) with
    | nil => trivial
    | cons q tail =>
      obtain ⟨lq, list⟩ := q
      have hsub : ∀ q ∈ (lq, list) :: tail, q ∈ locations := fun q hq =>
        List.mem_of_mem_drop (hmiddle ▸ hq)
      obtain ⟨hlq, hlist⟩ := h (lq, list) (hsub _ List.mem_cons_self)
      refine ⟨ih _ _ fun q hq => h q (List.mem_of_mem_take hq),
        ih _ _ fun q hq => h q (hsub q (List.mem_cons_of_mem _ hq)), ih _ _ ?_,
        fun c hc => (hlq.exact c hc).1, fun c hc => (hlq.inclusive c hc).1, hlq.conf⟩
      intro q hq
      obtain ⟨h1, h2⟩ := Locations.mem_entries hq
      exact ⟨hlist q.1 h1, fun x hx => hlist x (h2 hx)⟩

/-! ## Looking up -/

/-- A location was found where the code says so, and `P` holds of it. -/
def Found (P : LocConf ρ α → Prop) (r : Rc × Option (LocConf ρ α)) : Prop :=
  (r.1 = .again → r.2 ≠ none) ∧ ∀ c, r.2 = some c → P c

/-- What holds of `rv` and of the locations in the tree holds of the result. -/
theorem findStaticFrom_rule {Q : Rc × Option (LocConf ρ α) → Prop}
    (hexact : ∀ c, P c → Q (.ok, some c)) (hinclusive : ∀ c, P c → Q (.again, some c))
    (uri : Bytes) (rv : Rc × Option (LocConf ρ α)) (hrv : Q rv)
    (tree : LocationTree ρ α) (h : tree.Sound P) :
    ∃ r, findStaticFrom uri rv tree = .ok r ∧ Q r := by
  induction tree generalizing uri rv with
  | nil => exact ⟨rv, rfl, hrv⟩
  | node left right tree exact inclusive len name ihleft ihright ihtree =>
    obtain ⟨hleft, hright, htree, hexact', hinclusive', hconf⟩ := h
    unfold findStaticFrom
    dsimp only
    split
    · exact ihleft uri rv hrv hleft
    split
    · exact ihright uri rv hrv hright
    split
    · cases inclusive with
      | none => exact ihright uri rv hrv hright
      | some c => exact ihtree _ _ (hinclusive c (hinclusive' c rfl)) htree
    split
    · cases exact with
      | some c => exact ⟨_, rfl, hexact c (hexact' c rfl)⟩
      | none =>
        obtain ⟨c, rfl⟩ := Option.ne_none_iff_exists'.mp (hconf.resolve_left (not_not.mpr rfl))
        exact ⟨_, rfl, hinclusive c (hinclusive' c rfl)⟩
    · exact ihleft uri rv hrv hleft

theorem found_of {c : LocConf ρ α} (h : P c) (rc : Rc) : Found P (rc, some c) := by
  refine ⟨nofun, ?_⟩
  rintro _ ⟨⟩
  exact h

theorem findStaticFrom_sound (uri : Bytes) (rv : Rc × Option (LocConf ρ α)) (hrv : Found P rv)
    (tree : LocationTree ρ α) (h : tree.Sound P) :
    ∃ r, findStaticFrom uri rv tree = .ok r ∧ Found P r :=
  findStaticFrom_rule (fun _ hc => found_of hc _) (fun _ hc => found_of hc _) uri rv hrv tree h

theorem findRegex_sound (exec : ρ → Bytes → Exec) (uri : Bytes) (confs : List (LocConf ρ α))
    (h : ∀ c ∈ confs, P c ∧ c.regex.isSome) :
    ∃ r, findRegex exec uri (confs.map some ++ [none]) = .ok r ∧ ∀ found ∈ r, Found P found := by
  induction confs with
  | nil => exact ⟨none, rfl, nofun⟩
  | cons c confs ih =>
    obtain ⟨hP, hregex⟩ := h c List.mem_cons_self
    obtain ⟨re, hre⟩ := Option.isSome_iff_exists.mp hregex
    rw [List.map_cons, List.cons_append, findRegex, hre]
    dsimp only
    cases exec re uri with
    | matched =>
      refine ⟨_, rfl, ?_⟩
      rintro _ ⟨⟩
      exact found_of hP .ok
    | noMatch => exact ih fun c' hc' => h c' (List.mem_cons_of_mem c hc')
    | failed =>
      refine ⟨_, rfl, ?_⟩
      rintro _ ⟨⟩
      exact ⟨nofun, nofun⟩

theorem entry_isRegex (c : LocConf ρ α) : c.entry.isRegex = c.regex.isSome := by
  unfold LocConf.entry
  split <;> rfl

theorem filter_regex (confs : List (LocConf ρ α)) :
    (confs.map LocConf.entry).filter (·.isRegex) =
      (confs.filter (·.regex.isSome)).map LocConf.entry := by
  rw [List.filter_map]
  congr 2
  funext c
  exact entry_isRegex c

theorem filter_static (confs : List (LocConf ρ α)) :
    (confs.map LocConf.entry).filter (fun lq => !lq.isRegex) =
      (confs.filter fun c => !c.regex.isSome).map LocConf.entry := by
  rw [List.filter_map]
  congr 2
  funext c
  rw [Function.comp_apply, entry_isRegex]

/-- The array of the regex locations, and its `NULL`. -/
theorem regexLocations_eq (confs : List (LocConf ρ α)) :
    (initLocations (confs.map LocConf.entry)).2 =
      if confs.filter (·.regex.isSome) = [] then none
      else some ((confs.filter (·.regex.isSome)).map some ++ [none]) := by
  obtain ⟨-, -, hregex⟩ := initLocations_spec (confs.map LocConf.entry)
  have hexact : ((confs.filter (·.regex.isSome)).map LocConf.entry).map (·.exact) =
      (confs.filter (·.regex.isSome)).map some := by
    rw [List.map_map]
    apply List.map_congr_left
    intro c hc
    rw [Function.comp_apply, LocConf.entry, if_pos (.inr (List.mem_filter.mp hc).2)]
  rw [hregex, filter_regex, hexact]
  simp only [List.map_eq_nil_iff]

theorem mem_static {confs : List (LocConf ρ α)} {lq : LocationQueue ρ α}
    (h : lq ∈ (initLocations (confs.map LocConf.entry)).1) :
    ∃ c ∈ confs, c.regex = none ∧ lq = c.entry := by
  obtain ⟨hperm, -, -⟩ := initLocations_spec (confs.map LocConf.entry)
  rw [hperm.mem_iff, filter_static] at h
  obtain ⟨c, hc, rfl⟩ := List.mem_map.mp h
  obtain ⟨hmem, hregex⟩ := List.mem_filter.mp hc
  exact ⟨c, hmem, by simpa using hregex, rfl⟩

theorem staticTree_sound (confs : List (LocConf ρ α)) (hconfs : ∀ c ∈ confs, P c)
    {tree : LocationTree ρ α}
    (htree : initStaticLocationTrees (initLocations (confs.map LocConf.entry)).1 = some tree) :
    tree.Sound P := by
  obtain ⟨-, hsorted, -⟩ := initLocations_spec (confs.map LocConf.entry)
  have hsound : ∀ lq ∈ (initLocations (confs.map LocConf.entry)).1, lq.Sound P := by
    intro lq hlq
    obtain ⟨c, hc, hregex, rfl⟩ := mem_static hlq
    exact LocConf.entry_sound (hconfs c hc) hregex
  generalize (initLocations (confs.map LocConf.entry)).1 = locations at hsorted hsound htree
  cases locations with
  | nil =>
    cases htree
    trivial
  | cons lq locations =>
    obtain ⟨joined, hjoined, rfl⟩ := Option.map_eq_some_iff.mp htree
    have hall := joinExact_sound (hsound lq List.mem_cons_self)
      (fun lx hlx => hsound lx (List.mem_cons_of_mem lq hlx)) hsorted hjoined
    apply createLocationsTree_sound
    intro q hq
    obtain ⟨h1, h2⟩ := Locations.mem_entries hq
    rw [createLocationsList_entries _ _ (Nat.le_refl _)] at h1 h2
    exact ⟨hall q.1 h1, fun lx hlx => hall lx (h2 hlx)⟩

/-- **A lookup follows no `NULL`**, and what it finds is a location of the server. -/
theorem findLocation_sound (exec : ρ → Bytes → Exec) (uri : Bytes) (confs : List (LocConf ρ α))
    (hconfs : ∀ c ∈ confs, P c) {tree : LocationTree ρ α}
    (htree : initStaticLocationTrees (initLocations (confs.map LocConf.entry)).1 = some tree) :
    ∃ r, findLocation exec uri ⟨tree, (initLocations (confs.map LocConf.entry)).2⟩ = .ok r ∧
      Found P r := by
  obtain ⟨⟨rc, hdclcf⟩, hstatic, hfound⟩ := findStaticFrom_sound uri (.declined, none)
    ⟨nofun, nofun⟩ tree (staticTree_sound confs hconfs htree)
  unfold findLocation
  rw [hstatic, regexLocations_eq]
  dsimp only
  by_cases hok : rc = .ok
  · rw [if_pos hok]
    exact ⟨_, rfl, hfound⟩
  rw [if_neg hok]
  have hnoregex : ∃ noregex, noregexOf rc hdclcf = .ok noregex := by
    unfold noregexOf
    by_cases hagain : rc = .again
    · obtain ⟨c, rfl⟩ := Option.ne_none_iff_exists'.mp (hfound.1 hagain)
      exact ⟨c.noregex, if_pos hagain⟩
    · exact ⟨false, if_neg hagain⟩
  obtain ⟨noregex, hnoregex⟩ := hnoregex
  rw [hnoregex]
  cases noregex with
  | true => exact ⟨_, rfl, hfound⟩
  | false =>
    by_cases hnil : confs.filter (·.regex.isSome) = []
    · rw [if_pos hnil]
      exact ⟨_, rfl, hfound⟩
    · rw [if_neg hnil]
      dsimp only
      obtain ⟨r, hr, hP⟩ := findRegex_sound (P := P) exec uri (confs.filter (·.regex.isSome))
        fun c hc => ⟨hconfs c (List.mem_filter.mp hc).1, (List.mem_filter.mp hc).2⟩
      rw [hr]
      cases r with
      | none => exact ⟨_, rfl, hfound⟩
      | some found => exact ⟨found, rfl, hP found rfl⟩

end NgxToolkit.HttpDynamic
