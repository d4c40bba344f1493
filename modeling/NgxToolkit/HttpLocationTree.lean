import Mathlib
import NgxToolkit.HttpLocationNodes

/-! The shape of the location tree.

The nodes that are reached over `left` and `right` are a level of the tree, in the order
of their names.  A level is cut from a queue in which no inclusive name is a prefix of a
name behind it: what extends the name is in the node's own tree, with the name cut off.

* `Ordered.apart`: how the entries around a node lie to each other.
* `staticTree_ordered`: the tree that is made, and its entries in the order of the queue. -/

namespace NgxToolkit.HttpDynamic

open Lib

variable {ρ α : Type}

/-! ## Entries that are apart -/

/-- `b` stands behind `a`, and is not for the queue of `a`. -/
def Apart (a b : LocationQueue ρ α) : Prop :=
  key a.name < key b.name ∧ (a.inclusive ≠ none → ¬ a.name <+: b.name)

/-- `lx` is the entry `lq` or goes into its queue. -/
def Within (lq lx : LocationQueue ρ α) : Prop :=
  lx = lq ∨ lq.inclusive ≠ none ∧ lq.name <+: lx.name

theorem Within.starts {lq lx : LocationQueue ρ α} (h : Within lq lx) : lq.name <+: lx.name := by
  obtain rfl | ⟨-, hpre⟩ := h
  · exact List.prefix_refl _
  · exact hpre

/-- Where an inclusive entry extends to, the entry it is within does. -/
theorem Within.extends {lq lx : LocationQueue ρ α} (h : Within lq lx) (hx : lx.inclusive ≠ none)
    {s : Bytes} (hpre : lx.name <+: s) : lq.inclusive ≠ none ∧ lq.name <+: s := by
  obtain rfl | ⟨hlq, hpre'⟩ := h
  · exact ⟨hx, hpre⟩
  · exact ⟨hlq, hpre'.trans hpre⟩

/-- **Entries apart keep what is within them apart.** -/
theorem Apart.within {a b x y : LocationQueue ρ α} (h : Apart a b) (hx : Within a x)
    (hy : Within b y) (hxn : 0 ∉ x.name) (hyn : 0 ∉ y.name) : Apart x y := by
  have hby := hy.starts
  have hbn : 0 ∉ b.name := fun h0 => hyn (hby.subset h0)
  refine ⟨lt_of_lt_of_le ?_ (key_le_of_extends hby), ?_⟩
  · obtain rfl | ⟨hinclusive, z, hz⟩ := hx
    · exact h.1
    · have han : 0 ∉ a.name := fun h0 => hxn (hz ▸ List.mem_append_left z h0)
      rw [← hz, key_append (hz ▸ hxn)]
      exact append_lt h.1 (fun hpre => h.2 hinclusive ((key_prefix_iff han hbn).mp hpre)) (key z)
  · intro hinclusive hpre
    obtain ⟨ha, hay⟩ := hx.extends hinclusive hpre
    obtain hab | hba := List.prefix_or_prefix_of_prefix hay hby
    · exact h.2 ha hab
    · exact absurd h.1 (not_lt_of_ge (key_le_of_extends hba))

/-! ## The levels of a tree -/

/-- The entry below `name`. -/
def LocationQueue.under (name : Bytes) (lq : LocationQueue ρ α) : LocationQueue ρ α :=
  { lq with name := name ++ lq.name }

/-- The nodes that are reached over `left` and `right`. -/
def LocationTree.level : LocationTree ρ α → List (LocationQueue ρ α)
  | .nil => []
  | .node left right _ exact inclusive _ name =>
    left.level ++ ⟨exact, inclusive, name⟩ :: right.level

/-- All nodes, with the names of those above them in front of theirs. -/
def LocationTree.flat : LocationTree ρ α → List (LocationQueue ρ α)
  | .nil => []
  | .node left right tree exact inclusive _ name =>
    left.flat ++ (⟨exact, inclusive, name⟩ :: tree.flat.map (·.under name) ++ right.flat)

/-- What a search relies on. -/
inductive LocationTree.Ordered : LocationTree ρ α → Prop
  | nil : Ordered .nil
  | node {left right tree : LocationTree ρ α} {exact inclusive : Option (LocConf ρ α)}
      {len : UInt8} {name : Bytes} (hleft : left.Ordered) (hright : right.Ordered)
      (htree : tree.Ordered) (hlen : len = UInt8.ofNat name.length)
      (hlevel : (left.level ++ ⟨exact, inclusive, name⟩ :: right.level).Pairwise Apart)
      (hconf : exact ≠ none ∨ inclusive ≠ none) (hleaf : inclusive = none → tree = .nil)
      (hname : ∀ lq ∈ tree.level, lq.name ≠ []) :
      Ordered (.node left right tree exact inclusive len name)

/-- `ngx_filename_cmp` on two names and the NUL behind the shorter one. -/
def nameCmp (a b : Bytes) : Int := filenameCmp (min a.length b.length + 1) a b

theorem nameCmp_neg (a b : Bytes) : nameCmp a b < 0 ↔ key a < key b := by
  rw [nameCmp, filenameCmp_neg, take_lt_iff (key_short a b)]

/-- At each level the names on the left of a node are before its name, and those on the
right behind it. -/
def LocationTree.Sorted : LocationTree ρ α → Prop
  | .nil => True
  | .node left right tree _ _ _ name => left.Sorted ∧ right.Sorted ∧ tree.Sorted ∧
      (∀ lx ∈ left.level, nameCmp lx.name name < 0) ∧
      ∀ lx ∈ right.level, nameCmp name lx.name < 0

theorem LocationTree.Ordered.sorted {t : LocationTree ρ α} (h : t.Ordered) : t.Sorted := by
  induction h with
  | nil => trivial
  | node _ _ _ _ hlevel _ _ _ ihleft ihright ihtree =>
    obtain ⟨-, hcons, hcross⟩ := List.pairwise_append.mp hlevel
    refine ⟨ihleft, ihright, ihtree, fun lx hlx => ?_, fun lx hlx => ?_⟩
    · rw [nameCmp_neg]
      exact (hcross lx hlx _ List.mem_cons_self).1
    · rw [nameCmp_neg]
      exact ((List.pairwise_cons.mp hcons).1 lx hlx).1

/-- Only inclusive nodes have trees of their own. -/
def LocationTree.Leafed : LocationTree ρ α → Prop
  | .nil => True
  | .node left right tree _ inclusive _ _ =>
    left.Leafed ∧ right.Leafed ∧ (inclusive = none → tree = .nil)

theorem LocationTree.Ordered.leafed {t : LocationTree ρ α} (h : t.Ordered) : t.Leafed := by
  induction h with
  | nil => trivial
  | node _ _ _ _ _ _ hleaf _ ihleft ihright _ => exact ⟨ihleft, ihright, hleaf⟩

/-- An entry of the tree is within one of the level. -/
theorem LocationTree.Leafed.within_level {t : LocationTree ρ α} (h : t.Leafed)
    {lx : LocationQueue ρ α} (hx : lx ∈ t.flat) : ∃ lq ∈ t.level, Within lq lx := by
  induction t with
  | nil => cases hx
  | node left right tree exact inclusive len name ihleft ihright _ =>
    obtain ⟨hleft, hright, hleaf⟩ := h
    unfold LocationTree.level
    rcases List.mem_append.mp hx with hx | hx
    · obtain ⟨lq, hlq, hwithin⟩ := ihleft hleft hx
      exact ⟨lq, List.mem_append_left _ hlq, hwithin⟩
    rcases List.mem_append.mp hx with hx | hx
    · refine ⟨_, List.mem_append_right _ List.mem_cons_self, ?_⟩
      rcases List.mem_cons.mp hx with rfl | hx
      · exact .inl rfl
      · obtain ⟨ly, hy, rfl⟩ := List.mem_map.mp hx
        refine .inr ⟨?_, List.prefix_append name ly.name⟩
        rintro hnone
        rw [hleaf hnone] at hy
        cases hy
    · obtain ⟨lq, hlq, hwithin⟩ := ihright hright hx
      exact ⟨lq, List.mem_append_right _ (List.mem_cons_of_mem _ hlq), hwithin⟩

/-- The entries of a tree below a name have longer names. -/
theorem LocationTree.Leafed.name_ne_nil {t : LocationTree ρ α} (h : t.Leafed)
    (hname : ∀ lq ∈ t.level, lq.name ≠ []) {lx : LocationQueue ρ α} (hx : lx ∈ t.flat) :
    lx.name ≠ [] := by
  obtain ⟨lq, hlq, hwithin⟩ := h.within_level hx
  intro hnil
  exact hname lq hlq (List.prefix_nil.mp (hnil ▸ hwithin.starts))

section
variable {left right tree : LocationTree ρ α} {exact inclusive : Option (LocConf ρ α)}
  {len : UInt8} {name : Bytes}

/-- The entries of a node and of its own tree. -/
def nodeEntries (tree : LocationTree ρ α) (exact inclusive : Option (LocConf ρ α)) (name : Bytes) :
    List (LocationQueue ρ α) :=
  ⟨exact, inclusive, name⟩ :: tree.flat.map (·.under name)

theorem LocationTree.flat_node : (LocationTree.node left right tree exact inclusive len name).flat =
    left.flat ++ (nodeEntries tree exact inclusive name ++ right.flat) := rfl

theorem self_mem : (⟨exact, inclusive, name⟩ : LocationQueue ρ α) ∈
    nodeEntries tree exact inclusive name := List.mem_cons_self

theorem under_mem {lx : LocationQueue ρ α} (h : lx ∈ tree.flat) :
    lx.under name ∈ nodeEntries tree exact inclusive name :=
  List.mem_cons_of_mem _ (List.mem_map_of_mem h)

/-- The entries of a node, by where they are. -/
theorem mem_node {lx : LocationQueue ρ α}
    (h : lx ∈ (LocationTree.node left right tree exact inclusive len name).flat) :
    lx ∈ left.flat ∨ lx ∈ nodeEntries tree exact inclusive name ∨ lx ∈ right.flat := by
  rw [LocationTree.flat_node] at h
  exact (List.mem_append.mp h).imp_right List.mem_append.mp

theorem left_subset :
    left.flat ⊆ (LocationTree.node left right tree exact inclusive len name).flat :=
  List.subset_append_left _ _

theorem node_subset : nodeEntries tree exact inclusive name ⊆
    (LocationTree.node left right tree exact inclusive len name).flat :=
  List.subset_append_of_subset_right _ (List.subset_append_left _ _)

theorem right_subset :
    right.flat ⊆ (LocationTree.node left right tree exact inclusive len name).flat :=
  List.subset_append_of_subset_right _ (List.subset_append_right _ _)

theorem name_extends {lx : LocationQueue ρ α} (h : lx ∈ nodeEntries tree exact inclusive name) :
    name <+: lx.name := by
  rcases List.mem_cons.mp h with rfl | h
  · exact List.prefix_refl name
  · obtain ⟨ly, -, rfl⟩ := List.mem_map.mp h
    exact List.prefix_append name ly.name

/-- **What lies around a node**: the entries of its left, its own and its right tree. -/
theorem LocationTree.Ordered.apart
    (h : (LocationTree.node left right tree exact inclusive len name).Ordered)
    (hnul : ∀ lx ∈ (LocationTree.node left right tree exact inclusive len name).flat,
      0 ∉ lx.name) :
    (∀ x ∈ left.flat, ∀ y ∈ nodeEntries tree exact inclusive name, Apart x y) ∧
    (∀ x ∈ left.flat, ∀ y ∈ right.flat, Apart x y) ∧
    ∀ x ∈ nodeEntries tree exact inclusive name, ∀ y ∈ right.flat, Apart x y := by
  rw [LocationTree.flat_node] at hnul
  cases h with
  | node hleft hright htree hlen hlevel hconf hleaf hname =>
    obtain ⟨-, hcons, hcross⟩ := List.pairwise_append.mp hlevel
    have hnode := (List.pairwise_cons.mp hcons).1
    have hmid {y : LocationQueue ρ α} (hy : y ∈ nodeEntries tree exact inclusive name) :
        Within ⟨exact, inclusive, name⟩ y := by
      rcases List.mem_cons.mp hy with rfl | hy'
      · exact .inl rfl
      · refine .inr ⟨?_, name_extends hy⟩
        intro hnone
        rw [hleaf hnone] at hy'
        cases hy'
    refine ⟨?_, ?_, ?_⟩
    · intro x hx y hy
      obtain ⟨lq, hlq, hwithin⟩ := hleft.leafed.within_level hx
      exact (hcross lq hlq _ List.mem_cons_self).within hwithin (hmid hy)
        (hnul x (List.mem_append_left _ hx))
        (hnul y (List.mem_append_right _ (List.mem_append_left _ hy)))
    · intro x hx y hy
      obtain ⟨lq, hlq, hwithin⟩ := hleft.leafed.within_level hx
      obtain ⟨lr, hlr, hwithin'⟩ := hright.leafed.within_level hy
      exact (hcross lq hlq lr (List.mem_cons_of_mem _ hlr)).within hwithin hwithin'
        (hnul x (List.mem_append_left _ hx))
        (hnul y (List.mem_append_right _ (List.mem_append_right _ hy)))
    · intro x hx y hy
      obtain ⟨lr, hlr, hwithin'⟩ := hright.leafed.within_level hy
      exact (hnode lr hlr).within (hmid hx) hwithin'
        (hnul x (List.mem_append_right _ (List.mem_append_left _ hx)))
        (hnul y (List.mem_append_right _ (List.mem_append_right _ hy)))

end

/-! ## The queues -/

/-- What `createLocationsList` leaves: what extends an inclusive name is in the queue of
its entry. -/
inductive Locations.Nested : Locations ρ α → Prop
  | nil : Nested .nil
  | cons {lq : LocationQueue ρ α} {list next : Locations ρ α} (hlist : list.Nested)
      (hnext : next.Nested) (hleaf : lq.inclusive = none → list = .nil)
      (hin : ∀ lx ∈ list.entries, lq.name <+: lx.name)
      (hout : lq.inclusive ≠ none → ∀ lx ∈ next.entries, ¬ lq.name <+: lx.name) :
      Nested (.cons lq list next)

/-- The entries are in the order of their names. -/
def Increasing (locations : List (LocationQueue ρ α)) : Prop :=
  locations.Pairwise fun a b => key a.name < key b.name

theorem nests_iff {lq lx : LocationQueue ρ α} (hq : 0 ∉ lq.name) (hx : 0 ∉ lx.name) :
    nests lq lx = true ↔ lq.name <+: lx.name := by
  rw [nests, Bool.and_eq_true, decide_eq_true_eq, beq_iff_eq, filenameCmp_zero, key_take hq,
    key_take hx, List.take_length, List.prefix_iff_eq_take]
  constructor
  · rintro ⟨-, hkey⟩
    exact key_inj hq (fun h => hx (List.mem_of_mem_take h)) hkey
  · intro heq
    refine ⟨?_, congrArg key heq⟩
    have hlen := congrArg List.length heq
    rw [List.length_take] at hlen
    omega

/-- What extends a name stands right behind it. -/
theorem not_nests_behind {lq : LocationQueue ρ α} {locations : List (LocationQueue ρ α)}
    (hsorted : Increasing (lq :: locations)) (hnul : ∀ lx ∈ lq :: locations, 0 ∉ lx.name) :
    ∀ lx ∈ locations.dropWhile (nests lq), ¬ lq.name <+: lx.name := by
  have hq := hnul lq List.mem_cons_self
  have hsub := (List.dropWhile_suffix (nests lq) (l := locations)).subset
  obtain ⟨hlt, hrest⟩ := List.pairwise_cons.mp hsorted
  have hdrop : Increasing (locations.dropWhile (nests lq)) :=
    hrest.sublist (List.dropWhile_suffix _).sublist
  have hhead := List.head?_dropWhile_not (nests lq) locations
  cases hcut : locations.dropWhile (nests lq) with
  | nil => exact fun lx hlx => absurd hlx List.not_mem_nil
  | cons ly rest =>
    simp only [hcut, List.head?_cons] at hsub hdrop hhead
    have hyn := hnul ly (List.mem_cons_of_mem _ (hsub List.mem_cons_self))
    have hly : ¬ lq.name <+: ly.name := by
      rw [← nests_iff hq hyn, hhead]
      exact Bool.false_ne_true
    intro lx hlx hpre
    have hxn := hnul lx (List.mem_cons_of_mem _ (hsub hlx))
    rcases List.mem_cons.mp hlx with rfl | hlx
    · exact hly hpre
    · -- `ly` lies between the name and what extends it.
      have hbetween := prefix_of_between ((key_prefix_iff hq hxn).mpr hpre)
        (le_of_lt (hlt ly (hsub List.mem_cons_self)))
        (le_of_lt ((List.pairwise_cons.mp hdrop).1 lx hlx))
      exact hly ((key_prefix_iff hq hyn).mp hbetween)

theorem createLocationsList_nested (fuel : Nat) (locations : List (LocationQueue ρ α))
    (hfuel : locations.length ≤ fuel) (hsorted : Increasing locations)
    (hnul : ∀ lx ∈ locations, 0 ∉ lx.name) : (createLocationsList fuel locations).Nested := by
  induction fuel generalizing locations with
  | zero => exact .nil
  | succ fuel ih =>
    cases locations with
    | nil => exact .nil
    | cons lq locations =>
      have hlen : locations.length ≤ fuel := Nat.le_of_succ_le_succ hfuel
      have hrest := (List.pairwise_cons.mp hsorted).2
      have hnul' : ∀ lx ∈ locations, 0 ∉ lx.name := fun lx hlx =>
        hnul lx (List.mem_cons_of_mem _ hlx)
      unfold createLocationsList
      by_cases hinclusive : lq.inclusive = none
      · rw [if_pos hinclusive]
        exact .cons .nil (ih locations hlen hrest hnul') (fun _ => rfl)
          (fun lx hlx => absurd hlx List.not_mem_nil) (fun h => absurd hinclusive h)
      · have htake := List.takeWhile_prefix (nests lq) (l := locations)
        have hdrop := List.dropWhile_suffix (nests lq) (l := locations)
        have htakelen := htake.length_le
        have hdroplen := hdrop.length_le
        rw [if_neg hinclusive]
        refine .cons (ih _ (by omega) (hrest.sublist htake.sublist) fun lx hlx =>
            hnul' lx (htake.subset hlx))
          (ih _ (by omega) (hrest.sublist hdrop.sublist) fun lx hlx => hnul' lx (hdrop.subset hlx))
          (fun h => absurd h hinclusive) ?_ ?_
        · rw [createLocationsList_entries _ _ (by omega)]
          intro lx hlx
          exact (nests_iff (hnul lq List.mem_cons_self) (hnul' lx (htake.subset hlx))).mp
            (List.mem_takeWhile_imp hlx)
        · rw [createLocationsList_entries _ _ (by omega)]
          exact fun _ => not_nests_behind hsorted hnul

/-! ## The tree of a queue -/

/-- The entries of a queue, and those in the queues of its entries. -/
def allEntries (queue : List (LocationQueue ρ α × Locations ρ α)) : List (LocationQueue ρ α) :=
  queue.flatMap fun q => q.1 :: q.2.entries

theorem Locations.entries_eq (locations : Locations ρ α) :
    locations.entries = allEntries locations.toList := by
  induction locations with
  | nil => rfl
  | cons lq list next _ ih =>
    unfold Locations.entries Locations.toList allEntries
    rw [List.flatMap_cons, List.cons_append, ih]
    rfl

/-- A queue of which a level is made; `pre` is what the names above it come to. -/
structure Row (pre : Bytes) (queue : List (LocationQueue ρ α × Locations ρ α)) : Prop where
  nested : ∀ q ∈ queue, q.2.Nested
  leaf : ∀ q ∈ queue, q.1.inclusive = none → q.2 = .nil
  inside : ∀ q ∈ queue, ∀ lx ∈ q.2.entries, q.1.name <+: lx.name
  apart : queue.Pairwise fun p q => Apart p.1 q.1
  sorted : Increasing (allEntries queue)
  above : ∀ lx ∈ allEntries queue, pre <+: lx.name
  nul : ∀ lx ∈ allEntries queue, 0 ∉ lx.name
  conf : ∀ lx ∈ allEntries queue, lx.exact ≠ none ∨ lx.inclusive ≠ none

theorem Row.sublist {pre : Bytes} {queue queue' : List (LocationQueue ρ α × Locations ρ α)}
    (h : Row pre queue) (hsub : queue'.Sublist queue) : Row pre queue' := by
  have hentries : (allEntries queue').Sublist (allEntries queue) := hsub.flatMap _
  exact ⟨fun q hq => h.nested q (hsub.subset hq), fun q hq => h.leaf q (hsub.subset hq),
    fun q hq => h.inside q (hsub.subset hq), h.apart.sublist hsub, h.sorted.sublist hentries,
    fun lx hlx => h.above lx (hentries.subset hlx), fun lx hlx => h.nul lx (hentries.subset hlx),
    fun lx hlx => h.conf lx (hentries.subset hlx)⟩

theorem Locations.Nested.row (pre : Bytes) {locations : Locations ρ α} (h : locations.Nested)
    (hsorted : Increasing locations.entries)
    (hentries : ∀ lx ∈ locations.entries, pre <+: lx.name ∧ 0 ∉ lx.name ∧
      (lx.exact ≠ none ∨ lx.inclusive ≠ none)) : Row pre locations.toList := by
  have habove : ∀ lx ∈ allEntries locations.toList, pre <+: lx.name ∧ 0 ∉ lx.name ∧
      (lx.exact ≠ none ∨ lx.inclusive ≠ none) := locations.entries_eq ▸ hentries
  suffices hrow : (∀ q ∈ locations.toList, q.2.Nested ∧ (q.1.inclusive = none → q.2 = .nil) ∧
      ∀ lx ∈ q.2.entries, q.1.name <+: lx.name) ∧
      locations.toList.Pairwise fun p q => Apart p.1 q.1 from
    ⟨fun q hq => (hrow.1 q hq).1, fun q hq => (hrow.1 q hq).2.1, fun q hq => (hrow.1 q hq).2.2,
      hrow.2, locations.entries_eq ▸ hsorted, fun lx hlx => (habove lx hlx).1,
      fun lx hlx => (habove lx hlx).2.1, fun lx hlx => (habove lx hlx).2.2⟩
  clear hentries habove
  induction h with
  | nil => exact ⟨fun q hq => absurd hq List.not_mem_nil, .nil⟩
  | @cons lq list next hlist _ hleaf hin hout _ ih =>
    obtain ⟨hlt, hrest⟩ := List.pairwise_cons.mp hsorted
    obtain ⟨hall, hapart⟩ := ih (hrest.sublist (List.sublist_append_right _ _))
    constructor
    · intro q hq
      rcases List.mem_cons.mp hq with rfl | hq
      · exact ⟨hlist, hleaf, hin⟩
      · exact hall q hq
    · refine List.pairwise_cons.mpr ⟨?_, hapart⟩
      intro q hq
      have hmem := (Locations.mem_entries hq).1
      exact ⟨hlt q.1 (List.mem_append_right _ hmem), fun h => hout h q.1 hmem⟩

theorem allEntries_split (front tail : List (LocationQueue ρ α × Locations ρ α))
    (lq : LocationQueue ρ α) (list : Locations ρ α) :
    allEntries (front ++ (lq, list) :: tail) =
      allEntries front ++ (lq :: list.entries ++ allEntries tail) := by
  unfold allEntries
  rw [List.flatMap_append, List.flatMap_cons]

/-- A queue cut at an entry. -/
theorem Row.split {pre : Bytes} {front tail : List (LocationQueue ρ α × Locations ρ α)}
    {lq : LocationQueue ρ α} {list : Locations ρ α} (h : Row pre (front ++ (lq, list) :: tail)) :
    Row pre front ∧ Row pre tail ∧ Row lq.name list.toList := by
  have hmem : (lq, list) ∈ front ++ (lq, list) :: tail :=
    List.mem_append_right _ List.mem_cons_self
  have hsub : list.entries.Sublist (allEntries (front ++ (lq, list) :: tail)) := by
    rw [allEntries_split]
    exact ((List.sublist_cons_self _ _).trans (List.sublist_append_left _ _)).trans
      (List.sublist_append_right _ _)
  refine ⟨h.sublist (List.sublist_append_left _ _),
    h.sublist ((List.sublist_cons_self _ _).trans (List.sublist_append_right _ _)),
    (h.nested _ hmem).row lq.name (h.sorted.sublist hsub) ?_⟩
  intro lx hlx
  exact ⟨h.inside _ hmem lx hlx, h.nul lx (hsub.subset hlx), h.conf lx (hsub.subset hlx)⟩

theorem Row.inside_lt {pre : Bytes} {front tail : List (LocationQueue ρ α × Locations ρ α)}
    {lq lx : LocationQueue ρ α} {list : Locations ρ α}
    (h : Row pre (front ++ (lq, list) :: tail)) (hlx : lx ∈ list.entries) :
    key lq.name < key lx.name := by
  have hsorted := h.sorted
  rw [allEntries_split] at hsorted
  have hmid := (List.pairwise_append.mp (List.pairwise_append.mp hsorted).2.1).1
  exact (List.pairwise_cons.mp hmid).1 lx hlx

/-- The entry without the first bytes of its name. -/
def LocationQueue.cut (n : Nat) (lq : LocationQueue ρ α) : LocationQueue ρ α :=
  { lq with name := lq.name.drop n }

/-- Cutting off what two names share keeps them apart. -/
theorem Apart.cut {pre : Bytes} {a b : LocationQueue ρ α} (h : Apart a b) (ha : pre <+: a.name)
    (hb : pre <+: b.name) (han : 0 ∉ a.name) (hbn : 0 ∉ b.name) :
    Apart (a.cut pre.length) (b.cut pre.length) := by
  obtain ⟨x, hx⟩ := ha
  obtain ⟨y, hy⟩ := hb
  have hlt := h.1
  have hpre := h.2
  rw [← hx, ← hy, key_append (hx ▸ han), key_append (hy ▸ hbn)] at hlt
  rw [← hx, ← hy, List.prefix_append_right_inj] at hpre
  unfold Apart LocationQueue.cut
  dsimp only
  rw [← hx, ← hy, List.drop_left, List.drop_left]
  exact ⟨(append_lt_append_iff _).mp hlt, hpre⟩

theorem LocationQueue.cut_under {pre : Bytes} {lq lx : LocationQueue ρ α} (hq : pre <+: lq.name)
    (hx : lq.name <+: lx.name) :
    (lx.cut lq.name.length).under (lq.name.drop pre.length) = lx.cut pre.length := by
  obtain ⟨z, hz⟩ := hx
  unfold LocationQueue.under LocationQueue.cut
  dsimp only
  rw [← hz, List.drop_left, List.drop_append_of_le_length hq.length_le]

theorem createLocationsTree_nil (fuel start : Nat) :
    createLocationsTree fuel start (.nil : Locations ρ α).toList = .nil := by
  cases fuel with
  | zero => rfl
  | succ fuel =>
    unfold createLocationsTree Locations.toList
    rw [List.drop_nil]

/-- **The tree of a queue** is ordered and has the entries in their order. -/
theorem createLocationsTree_ordered (fuel : Nat) (pre : Bytes)
    (queue : List (LocationQueue ρ α × Locations ρ α)) (h : Row pre queue)
    (hfuel : (allEntries queue).length ≤ fuel) :
    (createLocationsTree fuel pre.length queue).Ordered ∧
    (createLocationsTree fuel pre.length queue).level = queue.map (·.1.cut pre.length) ∧
    (createLocationsTree fuel pre.length queue).flat =
      (allEntries queue).map (·.cut pre.length) := by
  induction fuel generalizing pre queue with
  | zero =>
    cases queue with
    | nil => exact ⟨.nil, rfl, rfl⟩
    | cons q queue =>
      unfold allEntries at hfuel
      rw [List.flatMap_cons, List.cons_append, List.length_cons] at hfuel
      omega
  | succ fuel ih =>
    unfold createLocationsTree
    cases hmiddle : queue.drop (queue.length / 2) with
    | nil =>
      have hlen := List.drop_eq_nil_iff.mp hmiddle
      have hnil : queue = [] := List.eq_nil_of_length_eq_zero (by omega)
      subst hnil
      exact ⟨.nil, rfl, rfl⟩
    | cons q tail =>
      obtain ⟨lq, list⟩ := q
      have hsplit : queue = queue.take (queue.length / 2) ++ (lq, list) :: tail := by
        rw [← hmiddle, List.take_append_drop]
      generalize queue.take (queue.length / 2) = front at hsplit ⊢
      subst hsplit
      obtain ⟨hfront, htail, hlist⟩ := h.split
      have hqueue : (lq, list) ∈ front ++ (lq, list) :: tail :=
        List.mem_append_right _ List.mem_cons_self
      have hmem : lq ∈ allEntries (front ++ (lq, list) :: tail) := by
        rw [allEntries_split]
        exact List.mem_append_right _ List.mem_cons_self
      have hpre := h.above lq hmem
      have hstart : pre.length + (lq.name.length - pre.length) = lq.name.length := by
        have := hpre.length_le
        omega
      rw [allEntries_split, List.length_append, List.length_append, List.length_cons] at hfuel
      obtain ⟨hleft, hleftlevel, hleftflat⟩ := ih pre front hfront (by omega)
      obtain ⟨hright, hrightlevel, hrightflat⟩ := ih pre tail htail (by omega)
      obtain ⟨htree, htreelevel, htreeflat⟩ := ih lq.name list.toList hlist
        (by rw [← Locations.entries_eq]; omega)
      dsimp only
      rw [hstart]
      have hlevel : (createLocationsTree fuel pre.length front).level ++
          ⟨lq.exact, lq.inclusive, lq.name.drop pre.length⟩ ::
            (createLocationsTree fuel pre.length tail).level =
          (front ++ (lq, list) :: tail).map (·.1.cut pre.length) := by
        rw [hleftlevel, hrightlevel, List.map_append, List.map_cons]
        rfl
      refine ⟨.node hleft hright htree ?_ ?_ (h.conf lq hmem) ?_ ?_, hlevel, ?_⟩
      · rw [List.length_drop]
      · rw [hlevel, List.pairwise_map]
        refine h.apart.imp_of_mem fun {p q} hp hq hpq => ?_
        have hp' : p.1 ∈ allEntries (front ++ (lq, list) :: tail) :=
          List.mem_flatMap.mpr ⟨p, hp, List.mem_cons_self⟩
        have hq' : q.1 ∈ allEntries (front ++ (lq, list) :: tail) :=
          List.mem_flatMap.mpr ⟨q, hq, List.mem_cons_self⟩
        exact hpq.cut (h.above _ hp') (h.above _ hq') (h.nul _ hp') (h.nul _ hq')
      · intro hnone
        rw [show list = .nil from h.leaf (lq, list) hqueue hnone]
        exact createLocationsTree_nil fuel _
      · rw [htreelevel]
        intro ly hly hnil
        obtain ⟨q, hq, rfl⟩ := List.mem_map.mp hly
        have hq' := (Locations.mem_entries hq).1
        have hlt := h.inside_lt hq'
        have hlen := List.drop_eq_nil_iff.mp hnil
        have heq := (h.inside _ hqueue q.1 hq').eq_of_length_le hlen
        exact absurd hlt (heq ▸ lt_irrefl _)
      · unfold LocationTree.flat
        rw [hleftflat, hrightflat, htreeflat, allEntries_split, List.map_append, List.map_append,
          List.map_cons, ← Locations.entries_eq, List.map_map]
        congr 3
        apply List.map_congr_left
        intro lx hlx
        exact LocationQueue.cut_under hpre (h.inside (lq, list) hqueue lx hlx)

end NgxToolkit.HttpDynamic
