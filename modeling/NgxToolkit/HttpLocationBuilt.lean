import Mathlib
import NgxToolkit.HttpLocationRuns

/-! The location tree that is made of the directives of a server.

* `joinExact_none`: the queue cannot be joined exactly if two entries of one name have a
  location of the same kind.
* `LocationTree.Ordered.nested`: what the node's own tree takes from its level.
* `locations_built`: when the tree is made, and what is in it. -/

namespace NgxToolkit.HttpDynamic

open Lib

variable {ρ α : Type}

/-! ## Duplicates -/

/-- Two entries cannot share a node. -/
def Clash (a b : LocationQueue ρ α) : Prop :=
  a.name = b.name ∧ (a.exact ≠ none ∧ b.exact ≠ none ∨ a.inclusive ≠ none ∧ b.inclusive ≠ none)

theorem Clash.symm {a b : LocationQueue ρ α} (h : Clash a b) : Clash b a :=
  ⟨h.1.symm, h.2.imp And.symm And.symm⟩

/-- What clashes with two joined entries clashes with one of them. -/
theorem clash_join {lq lx y : LocationQueue ρ α} (hname : lq.name = lx.name)
    (hnone : lq.inclusive = none) (hxnone : lx.exact = none) :
    Clash { lq with inclusive := lx.inclusive } y ↔ Clash lq y ∨ Clash lx y := by
  unfold Clash
  rw [hnone, hxnone, hname]
  simp only [ne_eq, not_true_eq_false, false_and, or_false, false_or, ← and_or_left]

theorem pairwise_join {lq lx : LocationQueue ρ α} {locations : List (LocationQueue ρ α)}
    (hname : lq.name = lx.name) (hnone : lq.inclusive = none) (hxnone : lx.exact = none) :
    List.Pairwise (fun a b => ¬ Clash a b) ({ lq with inclusive := lx.inclusive } :: locations) ↔
      (lq :: lx :: locations).Pairwise fun a b => ¬ Clash a b := by
  have hjoin {y : LocationQueue ρ α} := clash_join (y := y) hname hnone hxnone
  rw [List.pairwise_cons, List.pairwise_cons, List.pairwise_cons]
  constructor
  · rintro ⟨hall, hrest⟩
    refine ⟨fun y hy => ?_, fun y hy hc => hall y hy (hjoin.mpr (.inr hc)), hrest⟩
    rcases List.mem_cons.mp hy with rfl | hy
    · rintro ⟨-, h | h⟩
      · exact h.2 hxnone
      · exact h.1 hnone
    · exact fun hc => hall y hy (hjoin.mpr (.inl hc))
  · rintro ⟨hq, hx, hrest⟩
    refine ⟨fun y hy hc => ?_, hrest⟩
    rcases hjoin.mp hc with hc | hc
    · exact hq y (List.mem_cons_of_mem _ hy) hc
    · exact hx y hy hc

/-- **Joining fails** exactly if two entries clash. -/
theorem joinExact_none {confs : List (LocConf ρ α)} (hnul : ∀ c ∈ confs, 0 ∉ c.name)
    {lq : LocationQueue ρ α} {locations : List (LocationQueue ρ α)} (hq : lq.Of confs)
    (hlocations : ∀ lx ∈ locations, lx.Of confs)
    (hsorted : (lq :: locations).Pairwise fun a b => rank a ≤ rank b) :
    joinExactLocations lq locations = none ↔
      ¬ (lq :: locations).Pairwise fun a b => ¬ Clash a b := by
  induction locations generalizing lq with
  | nil =>
    unfold joinExactLocations
    simp only [reduceCtorEq, List.pairwise_singleton, not_true_eq_false]
  | cons lx locations ih =>
    have hx := hlocations lx List.mem_cons_self
    have hrest : ∀ l ∈ locations, l.Of confs := fun l hl =>
      hlocations l (List.mem_cons_of_mem lx hl)
    obtain ⟨hle, hsorted'⟩ := List.pairwise_cons.mp hsorted
    have hlx := hle lx List.mem_cons_self
    have hqn := hq.nul hnul
    have hxn := hx.nul hnul
    unfold joinExactLocations
    by_cases hsame : sameLocation lq lx = true
    · have hname := (sameLocation_iff hqn hxn).mp hsame
      rw [if_pos hsame]
      split
      · next hdup =>
        rw [Option.isSome_iff_ne_none, Option.isSome_iff_ne_none, Option.isSome_iff_ne_none,
          Option.isSome_iff_ne_none] at hdup
        refine iff_of_true rfl fun hpair => ?_
        exact (List.pairwise_cons.mp hpair).1 lx List.mem_cons_self ⟨hname, hdup⟩
      · next hdup =>
        obtain ⟨⟨hnone, hxnone⟩, hjoin, hrank⟩ := joins_of hnul lq lx hq hx hsame hlx hdup
        rw [ih hjoin hrest (sorted_join hrank hsorted), pairwise_join hname hnone hxnone]
    · rw [if_neg hsame, Option.map_eq_none_iff, ih hx hrest hsorted', not_iff_not,
        List.pairwise_cons (l := lx :: locations)]
      refine (and_iff_right fun y hy hclash => hsame ?_).symm
      -- `lx` lies between two entries of one name
      have hy' : lx.name = lq.name := by
        have hback : key lx.name ≤ key lq.name := by
          rw [hclash.1]
          rcases List.mem_cons.mp hy with rfl | hy
          · exact le_refl _
          · exact hx.key_le (hrest y hy) ((List.pairwise_cons.mp hsorted').1 y hy)
        exact key_inj hxn hqn (le_antisymm hback (hq.key_le hx hlx))
      exact (sameLocation_iff hqn hxn).mpr hy'.symm

/-! ## The locations of the entries -/

/-- The locations that an entry points to. -/
def LocationQueue.confs (lq : LocationQueue ρ α) : List (LocConf ρ α) :=
  lq.exact.toList ++ lq.inclusive.toList

/-- Joining loses no location and doubles none. -/
theorem joinExact_confs {confs : List (LocConf ρ α)} {lq : LocationQueue ρ α}
    {locations joined : List (LocationQueue ρ α)} (hnul : ∀ c ∈ confs, 0 ∉ c.name)
    (hq : lq.Of confs) (hlocations : ∀ lx ∈ locations, lx.Of confs)
    (hsorted : (lq :: locations).Pairwise fun a b => rank a ≤ rank b)
    (h : joinExactLocations lq locations = some joined) :
    joined.flatMap (·.confs) = (lq :: locations).flatMap (·.confs) := by
  refine joinExact_rule (C := fun lq locations joined =>
    joined.flatMap (·.confs) = (lq :: locations).flatMap (·.confs)) (joins_of hnul)
    (fun _ _ => rfl) ?_ ?_ hq hlocations hsorted h
  · intro lq lx locations joined hnone hxnone hjoined
    rw [hjoined]
    simp only [List.flatMap_cons, LocationQueue.confs, hnone, hxnone, Option.toList_none,
      List.append_nil, List.nil_append, List.append_assoc]
  · intro lq lx locations joined _ _ _ _ hjoined
    rw [List.flatMap_cons, hjoined, List.flatMap_cons (x := lq)]

theorem entry_confs (c : LocConf ρ α) : c.entry.confs = [c] := by
  unfold LocConf.entry LocationQueue.confs
  split <;> rfl

/-- The static entries have the static locations. -/
theorem static_confs (confs : List (LocConf ρ α)) :
    ((initLocations (confs.map LocConf.entry)).1.flatMap (·.confs)).Perm
      (confs.filter fun c => c.regex.isNone) := by
  have hperm := (initLocations_spec (confs.map LocConf.entry)).1
  rw [filter_static] at hperm
  refine (hperm.flatMap_right _).trans (List.Perm.of_eq ?_)
  rw [List.flatMap_map]
  simp only [entry_confs, List.flatMap_singleton', Option.not_isSome]

/-! ## Levels -/

/-- The nodes that are reached over `left` and `right`, each with its own tree. -/
def LocationTree.nodes : LocationTree ρ α → List (LocationQueue ρ α × LocationTree ρ α)
  | .nil => []
  | .node left right tree exact inclusive _ name =>
    left.nodes ++ (⟨exact, inclusive, name⟩, tree) :: right.nodes

/-- Is the name longer than `name` and starts with it? -/
def LocationQueue.extends (name : Bytes) (lx : LocationQueue ρ α) : Bool :=
  name.isPrefixOf lx.name && name != lx.name

/-- **Nesting.**  The own tree of an inclusive node has exactly the entries of its level
whose names extend its name; another node has none. -/
inductive LocationTree.Nested : LocationTree ρ α → Prop
  | level {t : LocationTree ρ α} (hleaf : ∀ n ∈ t.nodes, n.1.inclusive = none → n.2 = .nil)
      (hin : ∀ n ∈ t.nodes, n.1.inclusive ≠ none →
        n.2.flat.map (·.under n.1.name) = t.flat.filter (·.extends n.1.name))
      (hbelow : ∀ n ∈ t.nodes, n.2.Nested) : t.Nested

theorem LocationTree.mem_level {t : LocationTree ρ α} {n : LocationQueue ρ α × LocationTree ρ α}
    (h : n ∈ t.nodes) : n.1 ∈ t.flat := by
  induction t with
  | nil => cases h
  | node left right tree exact inclusive len name ihleft ihright =>
    rcases List.mem_append.mp h with h | h
    · exact left_subset (ihleft h)
    rcases List.mem_cons.mp h with rfl | h
    · exact node_subset self_mem
    · exact right_subset (ihright h)

theorem LocationQueue.extends_iff {name : Bytes} {lx : LocationQueue ρ α} :
    lx.extends name = true ↔ name <+: lx.name ∧ name ≠ lx.name := by
  rw [LocationQueue.extends, Bool.and_eq_true, List.isPrefixOf_iff_prefix, bne_iff_ne]

/-- What stands in front of a name does not extend it. -/
theorem not_extends_of_lt {name : Bytes} {lx : LocationQueue ρ α}
    (h : key lx.name < key name) : lx.extends name = false := by
  rw [← Bool.not_eq_true, LocationQueue.extends_iff]
  exact fun hpre => absurd h (not_lt_of_ge (key_le_of_extends hpre.1))

theorem Apart.not_extends {x y : LocationQueue ρ α} (h : Apart x y) (hx : x.inclusive ≠ none) :
    y.extends x.name = false := by
  rw [← Bool.not_eq_true, LocationQueue.extends_iff]
  exact fun hpre => h.2 hx hpre.1

theorem filter_extends_nil {name : Bytes} {l : List (LocationQueue ρ α)}
    (h : ∀ lx ∈ l, lx.extends name = false) : l.filter (·.extends name) = [] :=
  List.filter_eq_nil_iff.mpr fun lx hlx => Bool.not_eq_true _ ▸ h lx hlx

/-- The entries below a node are those that extend its name. -/
theorem nodeEntries_extends {tree : LocationTree ρ α} {exact inclusive : Option (LocConf ρ α)}
    {name : Bytes} (htree : ∀ lx ∈ tree.flat, lx.name ≠ []) :
    (nodeEntries tree exact inclusive name).filter (·.extends name) =
      tree.flat.map (·.under name) := by
  have hself : LocationQueue.extends name (⟨exact, inclusive, name⟩ : LocationQueue ρ α) = false := by
    rw [← Bool.not_eq_true, LocationQueue.extends_iff]
    exact fun h => h.2 rfl
  unfold nodeEntries
  rw [List.filter_cons_of_neg (by rw [hself]; exact Bool.false_ne_true), List.filter_eq_self]
  intro lx hlx
  obtain ⟨ly, hly, rfl⟩ := List.mem_map.mp hlx
  refine LocationQueue.extends_iff.mpr ⟨List.prefix_append name ly.name, fun heq => ?_⟩
  exact htree ly hly (List.self_eq_append_right.mp heq)

/-- **Each level of an ordered tree is nested.** -/
theorem LocationTree.Ordered.nested {t : LocationTree ρ α} (h : t.Ordered) (hnul : t.NulFree) :
    t.Nested := by
  induction h with
  | nil =>
    refine .level (fun n hn => ?_) (fun n hn => ?_) fun n hn => ?_ <;> cases hn
  | @node left right tree exact inclusive len name hleft hright htree hlen hlevel hconf hleaf hname
      ihleft ihright ihtree =>
    obtain ⟨hleftnul, hrightnul, htreenul, hnamenul⟩ := hnul.parts
    obtain ⟨haparl, hcross, hapartr⟩ := (LocationTree.Ordered.node hleft hright htree hlen hlevel
      hconf hleaf hname).apart hnul
    cases ihleft hleftnul with
    | level hleafl hinl hbelowl =>
    cases ihright hrightnul with
    | level hleafr hinr hbelowr =>
    refine .level (fun n hn => ?_) (fun n hn => ?_) fun n hn => ?_
    · rcases List.mem_append.mp hn with hn | hn
      · exact hleafl n hn
      rcases List.mem_cons.mp hn with rfl | hn
      · exact hleaf
      · exact hleafr n hn
    · rw [LocationTree.flat_node, List.filter_append, List.filter_append]
      intro hinclusive
      rcases List.mem_append.mp hn with hn | hn
      · -- what extends a name on the left is on the left
        have hmem := LocationTree.mem_level hn
        rw [hinl n hn hinclusive,
          filter_extends_nil fun y hy => (haparl _ hmem y hy).not_extends hinclusive,
          filter_extends_nil fun y hy => (hcross _ hmem y hy).not_extends hinclusive,
          List.append_nil, List.append_nil]
      rcases List.mem_cons.mp hn with rfl | hn
      · rw [nodeEntries_extends fun lx hlx => htree.leafed.name_ne_nil hname hlx,
          filter_extends_nil fun x hx => not_extends_of_lt (haparl x hx _ self_mem).1,
          filter_extends_nil fun y hy => (hapartr _ self_mem y hy).not_extends hinclusive,
          List.append_nil, List.nil_append]
      · have hmem := LocationTree.mem_level hn
        rw [hinr n hn hinclusive,
          filter_extends_nil fun x hx => not_extends_of_lt (hcross x hx _ hmem).1,
          filter_extends_nil fun x hx => not_extends_of_lt (hapartr x hx _ hmem).1,
          List.nil_append, List.nil_append]
    · rcases List.mem_append.mp hn with hn | hn
      · exact hbelowl n hn
      rcases List.mem_cons.mp hn with rfl | hn
      · exact ihtree htreenul
      · exact hbelowr n hn

/-! ## The tree that is made -/

/-- Two static locations of one name are both of `=`, or none of them is. -/
def Duplicated (confs : List (LocConf ρ α)) : Prop :=
  ∃ c d, [c, d].Sublist confs ∧ c.regex = none ∧ d.regex = none ∧ c.name = d.name ∧
    c.exactMatch = d.exactMatch

/-- The tree of the locations `confs`: each static one is in one place, which is the entry of
its name. -/
structure Built (confs : List (LocConf ρ α)) (tree : LocationTree ρ α) : Prop where
  once : (tree.flat.flatMap (·.confs)).Perm (confs.filter fun c => c.regex.isNone)
  exact : ∀ lx ∈ tree.flat, ∀ c, lx.exact = some c → c.exactMatch = true ∧ c.name = lx.name
  inclusive : ∀ lx ∈ tree.flat, ∀ c, lx.inclusive = some c → c.exactMatch = false ∧ c.name = lx.name
  shared : (tree.flat.map (·.name)).Nodup
  sorted : tree.Sorted
  nested : tree.Nested

theorem clash_entry {c d : LocConf ρ α} (hc : c.regex = none) (hd : d.regex = none) :
    Clash c.entry d.entry ↔ c.name = d.name ∧ c.exactMatch = d.exactMatch := by
  have hentry {c : LocConf ρ α} (hc : c.regex = none) : c.entry.name = c.name ∧
      (c.entry.exact ≠ none ↔ c.exactMatch = true) ∧
      (c.entry.inclusive ≠ none ↔ c.exactMatch = false) := by
    cases h : c.exactMatch with
    | true => simp [LocConf.entry_exact h]
    | false => simp [LocConf.entry_inclusive h hc]
  obtain ⟨hname, hexact, hinclusive⟩ := hentry hc
  obtain ⟨hname', hexact', hinclusive'⟩ := hentry hd
  unfold Clash
  rw [hname, hname', hexact, hexact', hinclusive, hinclusive']
  cases c.exactMatch <;> cases d.exactMatch <;> simp

theorem duplicated_iff (confs : List (LocConf ρ α)) : Duplicated confs ↔
    ¬ (initLocations (confs.map LocConf.entry)).1.Pairwise fun a b => ¬ Clash a b := by
  have hperm := (initLocations_spec (confs.map LocConf.entry)).1
  rw [filter_static] at hperm
  rw [hperm.pairwise_iff fun h hc => h hc.symm, List.pairwise_map,
    List.pairwise_iff_forall_sublist]
  push Not
  constructor
  · rintro ⟨c, d, hsub, hc, hd, hsame⟩
    refine ⟨c, d, ?_, (clash_entry hc hd).mpr hsame⟩
    have hfilter := hsub.filter fun c => !c.regex.isSome
    rwa [List.filter_cons_of_pos (by rw [hc]; rfl), List.filter_cons_of_pos (by rw [hd]; rfl),
      List.filter_nil] at hfilter
  · rintro ⟨c, d, hsub, hclash⟩
    have hregex {c : LocConf ρ α} (h : c ∈ confs.filter fun c => !c.regex.isSome) :
        c.regex = none := by simpa using (List.mem_filter.mp h).2
    have hc := hregex (hsub.subset List.mem_cons_self)
    have hd := hregex (hsub.subset (List.mem_cons_of_mem _ List.mem_cons_self))
    exact ⟨c, d, hsub.trans List.filter_sublist, hc, hd, (clash_entry hc hd).mp hclash⟩

section
variable {confs : List (LocConf ρ α)}

theorem static_none (hnul : ∀ c ∈ confs, 0 ∉ c.name) :
    initStaticLocationTrees (initLocations (confs.map LocConf.entry)).1 = none ↔
      Duplicated confs := by
  rw [duplicated_iff]
  obtain ⟨-, hsorted, -⟩ := initLocations_spec (confs.map LocConf.entry)
  have hof := static_of confs
  generalize (initLocations (confs.map LocConf.entry)).1 = locations at hsorted hof ⊢
  cases locations with
  | nil => simp [initStaticLocationTrees]
  | cons lq locations =>
    unfold initStaticLocationTrees
    rw [Option.map_eq_none_iff]
    exact joinExact_none hnul (hof lq List.mem_cons_self)
      (fun lx hlx => hof lx (List.mem_cons_of_mem lq hlx)) hsorted

theorem static_flat (hnul : ∀ c ∈ confs, 0 ∉ c.name) {tree : LocationTree ρ α}
    (htree : initStaticLocationTrees (initLocations (confs.map LocConf.entry)).1 = some tree) :
    tree.flat.flatMap (·.confs) =
      (initLocations (confs.map LocConf.entry)).1.flatMap (·.confs) := by
  obtain ⟨-, hsorted, -⟩ := initLocations_spec (confs.map LocConf.entry)
  have hof := static_of confs
  generalize (initLocations (confs.map LocConf.entry)).1 = locations at hsorted hof htree ⊢
  cases locations with
  | nil =>
    cases htree
    rfl
  | cons lq locations =>
    obtain ⟨joined, hjoined, rfl⟩ := Option.map_eq_some_iff.mp htree
    have hq := hof lq List.mem_cons_self
    have hrest : ∀ lx ∈ locations, lx.Of confs := fun lx hlx =>
      hof lx (List.mem_cons_of_mem lq hlx)
    rw [((joinExact_spec hnul hq hrest hsorted hjoined).2.tree hnul).2]
    exact joinExact_confs hnul hq hrest hsorted hjoined

theorem static_built (hnul : ∀ c ∈ confs, 0 ∉ c.name) {tree : LocationTree ρ α}
    (htree : initStaticLocationTrees (initLocations (confs.map LocConf.entry)).1 = some tree) :
    Built confs tree := by
  obtain ⟨hordered, hjoined⟩ := staticTree_ordered hnul htree
  refine ⟨?_, fun lx hlx c hc => ?_, fun lx hlx c hc => ?_, ?_, hordered.sorted,
    hordered.nested fun lx hlx => (hjoined.of lx hlx).nul hnul⟩
  · rw [static_flat hnul htree]
    exact static_confs confs
  · obtain ⟨⟨-, hname⟩, hexact, -⟩ := (hjoined.of lx hlx).exact c hc
    exact ⟨hexact, hname⟩
  · obtain ⟨⟨-, hname⟩, hexact, -⟩ := (hjoined.of lx hlx).inclusive c hc
    exact ⟨hexact, hname⟩
  · refine List.pairwise_map.mpr (hjoined.increasing.imp fun {a b} hlt heq => ?_)
    exact absurd hlt (heq ▸ lt_irrefl _)

end

/-- **The end of a server.**  The static locations are refused exactly for a duplicate, and
otherwise they are in the tree.  The regex locations stand in the order of the file in front
of one `NULL`, if there are any. -/
theorem locations_built (compile : Bytes → Bool → Option ρ) (directives : List (List Bytes × α))
    {locations : List (LocationQueue ρ α)} (hadd : addLocations compile directives = some locations)
    (hnul : ∀ c ∈ confsOf compile directives, 0 ∉ c.name) :
    (initStaticLocationTrees (initLocations locations).1 = none ↔
      Duplicated (confsOf compile directives)) ∧
    ((initLocations locations).2 =
      if (confsOf compile directives).filter (·.regex.isSome) = [] then none
      else some (((confsOf compile directives).filter (·.regex.isSome)).map some ++ [none])) ∧
    ∀ tree, initStaticLocationTrees (initLocations locations).1 = some tree →
      Built (confsOf compile directives) tree := by
  obtain rfl := addLocations_eq hadd
  exact ⟨static_none hnul, regexLocations_eq _, fun tree htree => static_built hnul htree⟩

/-- The tree of `location /a`, `location = /a` and `location ^~ /a/b`. -/
theorem locations_built_some : ∃ locations tree,
    addLocations (fun _ _ => some ()) someLocations = some locations ∧
    initStaticLocationTrees (initLocations locations).1 = some tree ∧
    Built (confsOf (fun _ _ => some ()) someLocations) tree :=
  ⟨_, _, rfl, rfl,
    (locations_built (fun _ _ => some ()) someLocations rfl (by decide)).2.2 _ rfl⟩

/-- Without regex locations there is no array, not even one with the `NULL`. -/
theorem no_regexLocations : ¬ ∀ (directives : List (List Bytes × Unit))
    (locations : List (LocationQueue Unit Unit)) (tree : LocationTree Unit Unit),
    addLocations (fun _ _ => some ()) directives = some locations →
    (∀ c ∈ confsOf (fun _ _ => some ()) directives, 0 ∉ c.name) →
    initStaticLocationTrees (initLocations locations).1 = some tree →
    (initLocations locations).2 =
      some (((confsOf (fun _ _ => some ()) directives).filter (·.regex.isSome)).map some ++
        [none]) := by
  intro hall
  have h := hall someLocations _ _ rfl (by decide) rfl
  have hnone : (initLocations ((confsOf (fun _ _ => some ()) someLocations).map
      LocConf.entry)).2 = none := by
    rw [regexLocations_eq]
    rfl
  exact absurd (hnone.symm.trans h) nofun

end NgxToolkit.HttpDynamic
