import Mathlib
import NgxToolkit.HttpLocationFind

/-! Location trees and the lengths of the names.

`len` has one byte for the length of a name.

* `findStaticFrom_answer`: a tree with names that fit is searched correctly.
* `findStaticFrom_misrouted`: any other tree is not.
* `fits_iff`: which trees these are, by their entries. -/

namespace NgxToolkit.HttpDynamic

open Lib

variable {ρ α : Type} {left right tree : LocationTree ρ α}
  {exact inclusive : Option (LocConf ρ α)} {len : UInt8} {name : Bytes}

/-- The names are not longer than `len` can say. -/
def LocationTree.Fits : LocationTree ρ α → Prop
  | .nil => True
  | .node left right tree _ _ _ name => left.Fits ∧ right.Fits ∧ tree.Fits ∧ name.length ≤ 255

/-- The names of the tree are without NUL. -/
def LocationTree.NulFree (t : LocationTree ρ α) : Prop := ∀ lx ∈ t.flat, 0 ∉ lx.name

theorem LocationTree.NulFree.parts
    (h : (LocationTree.node left right tree exact inclusive len name).NulFree) :
    left.NulFree ∧ right.NulFree ∧ tree.NulFree ∧ 0 ∉ name := by
  refine ⟨fun lx hlx => h lx (left_subset hlx), fun lx hlx => h lx (right_subset hlx), ?_,
    h _ (node_subset self_mem)⟩
  intro lx hlx h0
  exact h _ (node_subset (under_mem hlx)) (List.mem_append_right name h0)

/-! ## Names that fit -/

/-- What an inclusive name extends to does not stand in front of it. -/
theorem Apart.not_prefix_right {x y : LocationQueue ρ α} (h : Apart x y) :
    ¬ y.name <+: x.name := fun hpre => absurd h.1 (not_lt_of_ge (key_le_of_extends hpre))

theorem toNat_len (hlen : len = UInt8.ofNat name.length) (hfits : name.length ≤ 255) :
    len.toNat = name.length := by
  rw [hlen, UInt8.toNat_ofNat', Nat.mod_eq_of_lt (by omega)]

/-- An ordered tree whose names fit is well formed. -/
theorem LocationTree.Ordered.wellFormed {t : LocationTree ρ α} (h : t.Ordered) (hfits : t.Fits) :
    t.WellFormed := by
  induction h with
  | nil => exact .nil
  | node hleft hright htree hlen hlevel hconf hleaf hname ihleft ihright ihtree =>
    obtain ⟨hleftfits, hrightfits, htreefits, hnamefits⟩ := hfits
    obtain ⟨-, -, -, hbefore, hbehind⟩ :=
      (LocationTree.Ordered.node hleft hright htree hlen hlevel hconf hleaf hname).sorted
    refine .node (ihleft hleftfits) (ihright hrightfits) (ihtree htreefits)
      (toNat_len hlen hnamefits) hconf hbefore hbehind ?_ hleaf hname
    exact hlevel.imp fun {a b} h => ⟨h.2, fun _ => h.not_prefix_right⟩

/-- **A tree whose names fit is searched correctly.** -/
theorem findStaticFrom_answer {t : LocationTree ρ α} (h : t.Ordered) (hfits : t.Fits)
    (uri : Bytes) (huri : 0 ∉ uri) (rv : Rc × Option (LocConf ρ α)) :
    ∃ r, findStaticFrom uri rv t = .ok r ∧ Answer t.flat uri rv r :=
  (h.wellFormed hfits).find uri huri rv

/-! ## Names that do not fit -/

/-- `r` is no result for the URI: the location of `=` with its name was missed, or the name
of what was found is no prefix of it. -/
inductive Misrouted (confs : List (LocConf ρ α)) (uri : Bytes) (r : Rc × Option (LocConf ρ α)) :
    Prop
  | exact (c : LocConf ρ α) (hc : c ∈ confs) (hexact : c.exactMatch = true)
      (hregex : c.regex = none) (hname : c.name = uri) (h : ∀ c', r.2 = some c' → c'.name ≠ uri)
  | inclusive (c : LocConf ρ α) (h : r.2 = some c) (hpre : ¬ c.name <+: uri)

/-- The locations in the tree are those of `confs`, with `pre` in front of the names. -/
def LocationTree.Labelled (confs : List (LocConf ρ α)) (pre : Bytes) (t : LocationTree ρ α) :
    Prop :=
  ∀ lx ∈ t.flat, lx.Sound fun c => c ∈ confs ∧ c.name = pre ++ lx.name

theorem LocationQueue.Sound.imp {P Q : LocConf ρ α → Prop} {lq : LocationQueue ρ α}
    (h : lq.Sound P) (himp : ∀ c, P c → Q c) : lq.Sound Q :=
  ⟨fun c hc => ⟨himp c (h.exact c hc).1, (h.exact c hc).2⟩,
    fun c hc => ⟨himp c (h.inclusive c hc).1, (h.inclusive c hc).2⟩, h.conf⟩

theorem LocationTree.sound_of_flat {P : LocConf ρ α → Prop} {t : LocationTree ρ α}
    (h : ∀ lx ∈ t.flat, lx.Sound P) : t.Sound P := by
  induction t with
  | nil => trivial
  | node left right tree exact inclusive len name ihleft ihright ihtree =>
    have hself := h _ (node_subset self_mem)
    refine ⟨ihleft fun lx hlx => h lx (left_subset hlx),
      ihright fun lx hlx => h lx (right_subset hlx), ihtree ?_,
      fun c hc => (hself.exact c hc).1, fun c hc => (hself.inclusive c hc).1, hself.conf⟩
    intro lx hlx
    have hunder := h _ (node_subset (under_mem hlx))
    exact ⟨hunder.exact, hunder.inclusive, hunder.conf⟩

theorem LocationTree.Labelled.parts {confs : List (LocConf ρ α)} {pre : Bytes}
    (h : (LocationTree.node left right tree exact inclusive len name).Labelled confs pre) :
    left.Labelled confs pre ∧ right.Labelled confs pre ∧ tree.Labelled confs (pre ++ name) ∧
      LocationQueue.Sound (fun c => c ∈ confs ∧ c.name = pre ++ name) ⟨exact, inclusive, name⟩ := by
  refine ⟨fun lx hlx => h lx (left_subset hlx), fun lx hlx => h lx (right_subset hlx), ?_,
    h _ (node_subset self_mem)⟩
  intro lx hlx
  have hunder := h _ (node_subset (under_mem hlx))
  rw [List.append_assoc]
  exact ⟨hunder.exact, hunder.inclusive, hunder.conf⟩

/-- Two long names that no node whose name fits can tell apart. -/
structure Near (u x : Bytes) : Prop where
  length : u.length = x.length
  long : 256 ≤ x.length
  take : u.take 255 = x.take 255

theorem Near.symm {u x : Bytes} (h : Near u x) : Near x u :=
  ⟨h.length.symm, h.length ▸ h.long, h.take.symm⟩

theorem Near.extends {u x : Bytes} (h : Near u x) (hfits : name.length ≤ 255) (hpre : name <+: u) :
    name <+: x := by
  have hcut : name <+: u.take 255 := List.prefix_take_iff.mpr ⟨hpre, hfits⟩
  rw [h.take] at hcut
  exact hcut.trans (List.take_prefix 255 x)

theorem Near.behind {u x : Bytes} (h : Near u x) (hfits : name.length ≤ 255) (hname : 0 ∉ name)
    (hu : 0 ∉ u) (hx : 0 ∉ x) (hle : key name ≤ key u) : key name ≤ key x := by
  have hcut := take_le_take 255 hle
  rw [List.take_of_length_le (by rw [key_length hname]; exact hfits), key_take hu, h.take,
    ← key_take hx] at hcut
  exact le_trans hcut (prefix_le (List.take_prefix 255 _))

theorem Near.under {u x : Bytes} (h : Near u x) (name : Bytes) : Near (name ++ u) (name ++ x) := by
  refine ⟨?_, ?_, ?_⟩
  · rw [List.length_append, List.length_append, h.length]
  · have hlong := h.long
    rw [List.length_append]
    omega
  · have htake : u.take (255 - name.length) = x.take (255 - name.length) := by
      have hcut := congrArg (List.take (255 - name.length)) h.take
      rwa [List.take_take, List.take_take, Nat.min_eq_left (by omega)] at hcut
    rw [List.take_append, List.take_append, htake]

section
variable {u x : Bytes} {rv : Rc × Option (LocConf ρ α)}
  {found : Except Fault (Rc × Option (LocConf ρ α))}

/-- Near a name in front of the node the search goes to the left. -/
theorem Turn.near_left (h : Turn u rv left right tree exact inclusive name found)
    (hnear : Near u x) (hfits : name.length ≤ 255) (hname : 0 ∉ name) (hu : 0 ∉ u) (hx : 0 ∉ x)
    (hlt : key x < key name) : found = findStaticFrom u rv left := by
  have hnot : ¬ key name ≤ key u := fun hle =>
    absurd hlt (not_lt_of_ge (hnear.behind hfits hname hu hx hle))
  have hpre {rest : Bytes} (h : u = name ++ rest) : key name ≤ key u :=
    key_le_of_extends ⟨rest, h.symm⟩
  cases h with
  | left h => rfl
  | right h hpre => exact absurd (le_of_lt h) hnot
  | down rest h hrest c hc => exact absurd (hpre h) hnot
  | past rest h hrest hnone => exact absurd (hpre h) hnot
  | exact h c hc => exact absurd (le_of_eq (congrArg key h).symm) hnot
  | inclusive h hnone c hc => exact absurd (le_of_eq (congrArg key h).symm) hnot

/-- Near a name behind the node it goes to the right. -/
theorem Turn.near_right (h : Turn u rv left right tree exact inclusive name found)
    (hnear : Near u x) (hfits : name.length ≤ 255) (hname : 0 ∉ name) (hu : 0 ∉ u) (hx : 0 ∉ x)
    (hlt : key name < key x) (hapart : inclusive ≠ none → ¬ name <+: x) :
    found = findStaticFrom u rv right := by
  have hlong := hnear.symm.long
  cases h with
  | left h =>
    exact absurd h (not_lt_of_ge (hnear.symm.behind hfits hname hx hu (le_of_lt hlt)))
  | right h hpre => rfl
  | down rest h hrest c hc =>
    have hpre : name <+: x := hnear.extends hfits ⟨rest, h.symm⟩
    exact absurd hpre (hapart (hc ▸ nofun))
  | past rest h hrest hnone => rfl
  | exact h c hc =>
    rw [h] at hlong
    omega
  | inclusive h hnone c hc =>
    rw [h] at hlong
    omega

/-- Near a name below the node it goes into the node's tree. -/
theorem Turn.near_down (h : Turn (name ++ u) rv left right tree exact inclusive name found)
    (hnear : Near u x) (hu : 0 ∉ name ++ u) (hinclusive : inclusive ≠ none) :
    ∃ c, inclusive = some c ∧ found = findStaticFrom u (.again, some c) tree := by
  have hne : u ≠ [] := by
    rintro rfl
    exact absurd hnear.symm.long (by decide)
  cases h with
  | left h => exact absurd h (not_lt_of_ge (key_le_of_extends (List.prefix_append name u)))
  | right h hpre => exact absurd (List.prefix_append name u) hpre
  | down rest h hrest c hc => exact ⟨c, hc, by rw [List.append_cancel_left h]⟩
  | past rest h hrest hnone => exact absurd hnone hinclusive
  | exact h c hc => exact absurd (List.append_right_eq_self.mp h) hne
  | inclusive h hnone c hc => exact absurd (List.append_right_eq_self.mp h) hne

end

/-- **A step of the search** at a node whose name does not fit: the first bytes are
compared, and the URI is taken to extend the name. -/
theorem findStaticFrom_long (left right tree : LocationTree ρ α)
    (exact inclusive : Option (LocConf ρ α)) (len : UInt8) (hname : 0 ∉ name) {u : Bytes}
    (hu : 0 ∉ u) (hnear : Near u name) (rv : Rc × Option (LocConf ρ α)) :
    ∃ n, findStaticFrom u rv (.node left right tree exact inclusive len name) =
      match inclusive with
      | some c => findStaticFrom (u.drop n) (.again, some c) tree
      | none => findStaticFrom u rv right := by
  have hlong := hnear.long
  have hlength := hnear.length
  have hlt : len.toNat ≤ 255 := Nat.le_of_lt_succ len.toNat_lt
  have hzero : filenameCmp (min u.length len.toNat) u name = 0 := by
    rw [filenameCmp_zero, Nat.min_eq_right (by omega), key_take hu, key_take hname]
    have hcut := congrArg (List.take len.toNat) hnear.take
    rw [List.take_take, List.take_take, Nat.min_eq_left hlt] at hcut
    rw [hcut]
  refine ⟨min u.length len.toNat, ?_⟩
  rw [findStaticFrom.eq_def]
  dsimp only
  rw [hzero, if_neg (by omega), if_neg (by omega), if_pos (by omega)]
  cases inclusive <;> rfl

theorem exists_byte_ne (a : UInt8) : ∃ d : UInt8, d ≠ 0 ∧ d ≠ a := by
  by_cases ha : a = 1
  · exact ⟨2, by decide, ha ▸ by decide⟩
  · exact ⟨1, by decide, fun h => ha h.symm⟩

/-- The name with another last byte. -/
theorem exists_near (hname : 0 ∉ name) (hlong : 256 ≤ name.length) :
    ∃ u, 0 ∉ u ∧ Near u name ∧ ¬ name <+: u := by
  have hne : name ≠ [] := by
    rintro rfl
    exact absurd hlong (by decide)
  obtain ⟨d, hd0, hd⟩ := exists_byte_ne (name.getLast hne)
  have hlast := List.dropLast_append_getLast hne
  have hlength : (name.dropLast ++ [d]).length = name.length := by
    rw [List.length_append, List.length_dropLast, List.length_singleton]
    omega
  refine ⟨name.dropLast ++ [d], ?_, ⟨hlength, hlong, ?_⟩, ?_⟩
  · intro h0
    rcases List.mem_append.mp h0 with h0 | h0
    · exact hname (List.mem_of_mem_dropLast h0)
    · exact hd0 (List.mem_singleton.mp h0).symm
  · have hcut : 255 ≤ name.dropLast.length := by
      rw [List.length_dropLast]
      omega
    conv_rhs => rw [← hlast]
    rw [List.take_append_of_le_length hcut, List.take_append_of_le_length hcut]
  · intro hpre
    have heq : name.dropLast ++ [name.getLast hne] = name.dropLast ++ [d] :=
      hlast.trans (hpre.eq_of_length hlength.symm)
    exact hd (List.singleton_inj.mp (List.append_cancel_left heq)).symm

/-- A node whose name does not fit misroutes a URI. -/
theorem long_misrouted {confs : List (LocConf ρ α)} {pre : Bytes} (hname : 0 ∉ name)
    (hlong : 256 ≤ name.length)
    (hright : ∀ lx ∈ right.flat, key name < key lx.name)
    (hlabel : (LocationTree.node left right tree exact inclusive len name).Labelled confs pre) :
    ∃ u, 0 ∉ u ∧ Near u name ∧ ∀ rv : Rc × Option (LocConf ρ α),
      (∀ c, rv.2 = some c → c.name ≠ pre ++ u) →
      ∃ r, findStaticFrom u rv (.node left right tree exact inclusive len name) = .ok r ∧
        Misrouted confs (pre ++ u) r := by
  obtain ⟨-, hlabelr, hlabelt, hself⟩ := hlabel.parts
  cases inclusive with
  | none =>
    obtain ⟨c, rfl⟩ := Option.ne_none_iff_exists'.mp (hself.conf.resolve_right (not_not.mpr rfl))
    obtain ⟨⟨hc, hcname⟩, hexact, hregex⟩ := hself.exact c rfl
    refine ⟨name, hname, ⟨rfl, hlong, rfl⟩, ?_⟩
    intro rv hrv
    obtain ⟨n, hstep⟩ := findStaticFrom_long left right tree (some c) none len hname hname
      ⟨rfl, hlong, rfl⟩ rv
    -- The names in the right tree are other names.
    have hother : right.Sound fun c => c.name ≠ pre ++ name := by
      refine LocationTree.sound_of_flat fun lx hlx => (hlabelr lx hlx).imp fun c hc heq => ?_
      rw [hc.2] at heq
      exact absurd (hright lx hlx) (List.append_cancel_left heq ▸ lt_irrefl _)
    have hsome (rc : Rc) (c : LocConf ρ α) (hc : c.name ≠ pre ++ name) :
        ∀ c', (rc, some c).2 = some c' → c'.name ≠ pre ++ name := by
      rintro _ ⟨⟩
      exact hc
    obtain ⟨r, hr, hmiss⟩ := findStaticFrom_rule
      (Q := fun r => ∀ c, r.2 = some c → c.name ≠ pre ++ name) (hsome .ok) (hsome .again) name rv
      hrv right hother
    exact ⟨r, hstep.trans hr, .exact c hc hexact hregex hcname hmiss⟩
  | some c =>
    obtain ⟨u, hu, hnear, hnot⟩ := exists_near hname hlong
    refine ⟨u, hu, hnear, ?_⟩
    intro rv _
    obtain ⟨n, hstep⟩ := findStaticFrom_long left right tree exact (some c) len hname hu hnear rv
    have hbelow : tree.Sound fun c => pre ++ name <+: c.name := by
      refine LocationTree.sound_of_flat fun lx hlx => (hlabelt lx hlx).imp fun c hc => ?_
      rw [hc.2]
      exact List.prefix_append _ _
    have hcname := (hself.inclusive c rfl).1.2
    obtain ⟨r, hr, c', hc', hpre⟩ := findStaticFrom_rule
      (Q := fun r => ∃ c, r.2 = some c ∧ pre ++ name <+: c.name) (fun c hc => ⟨c, rfl, hc⟩)
      (fun c hc => ⟨c, rfl, hc⟩) (u.drop n) (.again, some c)
      ⟨c, rfl, hcname ▸ List.prefix_refl _⟩ tree hbelow
    refine ⟨r, hstep.trans hr, .inclusive c' hc' ?_⟩
    intro huri
    exact hnot ((List.prefix_append_right_inj pre).mp (hpre.trans huri))

/-- **A tree with a name that does not fit misroutes a URI.** -/
theorem findStaticFrom_misrouted {t : LocationTree ρ α} (h : t.Ordered) (hnul : t.NulFree)
    {confs : List (LocConf ρ α)} (pre : Bytes) (hlabel : t.Labelled confs pre)
    (hfits : ¬ t.Fits) :
    ∃ lx ∈ t.flat, ∃ u, 0 ∉ u ∧ Near u lx.name ∧ ∀ rv : Rc × Option (LocConf ρ α),
      (∀ c, rv.2 = some c → c.name ≠ pre ++ u) →
      ∃ r, findStaticFrom u rv t = .ok r ∧ Misrouted confs (pre ++ u) r := by
  induction h generalizing pre with
  | nil => exact absurd trivial hfits
  | @node left right tree exact inclusive len name hleft hright htree hlen hlevel hconf hleaf hname
      ihleft ihright ihtree =>
    obtain ⟨hleftnul, hrightnul, htreenul, hnamenul⟩ := hnul.parts
    obtain ⟨hlabell, hlabelr, hlabelt, hsound⟩ := hlabel.parts
    obtain ⟨haparl, -, hapartr⟩ := (LocationTree.Ordered.node hleft hright htree hlen hlevel hconf
      hleaf hname).apart hnul
    by_cases hnamefits : name.length ≤ 255
    · have hturn {u : Bytes} (hu : 0 ∉ u) (rv : Rc × Option (LocConf ρ α)) :=
        findStaticFrom_turn left right tree (toNat_len hlen hnamefits) hconf hnamenul hu rv
      by_cases hleftfits : left.Fits
      · by_cases hrightfits : right.Fits
        · have htreefits : ¬ tree.Fits := fun h =>
            hfits ⟨hleftfits, hrightfits, h, hnamefits⟩
          obtain ⟨lx, hlx, u, hu, hnear, hmis⟩ := ihtree htreenul _ hlabelt htreefits
          have hu' : 0 ∉ name ++ u := fun h0 => (List.mem_append.mp h0).elim hnamenul hu
          have hinclusive : inclusive ≠ none := by
            intro hnone
            rw [hleaf hnone] at hlx
            cases hlx
          refine ⟨lx.under name, node_subset (under_mem hlx), name ++ u, hu', hnear.under name, ?_⟩
          intro rv _
          obtain ⟨c, hc, hdown⟩ := (hturn hu' rv).near_down hnear hu' hinclusive
          rw [hdown, ← List.append_assoc]
          apply hmis
          rintro _ ⟨⟩ heq
          rw [(hsound.inclusive c hc).1.2] at heq
          have hlong := hnear.symm.long
          rw [List.self_eq_append_right.mp heq] at hlong
          exact absurd hlong (by decide)
        · obtain ⟨lx, hlx, u, hu, hnear, hmis⟩ := ihright hrightnul _ hlabelr hrightfits
          refine ⟨lx, right_subset hlx, u, hu, hnear, ?_⟩
          intro rv hrv
          obtain ⟨hlt, hnot⟩ := hapartr _ self_mem lx hlx
          rw [(hturn hu rv).near_right hnear hnamefits hnamenul hu (hrightnul lx hlx) hlt hnot]
          exact hmis rv hrv
      · obtain ⟨lx, hlx, u, hu, hnear, hmis⟩ := ihleft hleftnul _ hlabell hleftfits
        refine ⟨lx, left_subset hlx, u, hu, hnear, ?_⟩
        intro rv hrv
        rw [(hturn hu rv).near_left hnear hnamefits hnamenul hu (hleftnul lx hlx)
          (haparl lx hlx _ self_mem).1]
        exact hmis rv hrv
    · obtain ⟨u, hu, hnear, hmis⟩ := long_misrouted hnamenul (Nat.lt_of_not_le hnamefits)
        (fun lx hlx => (hapartr _ self_mem lx hlx).1) hlabel
      exact ⟨_, node_subset self_mem, u, hu, hnear, hmis⟩

/-! ## Which names fit -/

/-- Every long name goes on from an inclusive one that is at most 255 bytes shorter. -/
def NamesFit (entries : List (LocationQueue ρ α)) : Prop :=
  ∀ lx ∈ entries, 255 < lx.name.length → ∃ lq ∈ entries, lq.inclusive ≠ none ∧
    lq.name <+: lx.name ∧ lq.name.length < lx.name.length ∧
    lx.name.length ≤ lq.name.length + 255

/-- Some of the entries, with those they go on from. -/
theorem NamesFit.restrict {entries part : List (LocationQueue ρ α)} (h : NamesFit entries)
    (hsub : part ⊆ entries) (hclosed : ∀ lx ∈ part, ∀ lq ∈ entries, lq.inclusive ≠ none →
      lq.name <+: lx.name → lq ∈ part) : NamesFit part := by
  intro lx hlx hlong
  obtain ⟨lq, hlq, hinclusive, hpre, hlen⟩ := h lx (hsub hlx) hlong
  exact ⟨lq, hclosed lx hlx lq hlq hinclusive hpre, hinclusive, hpre, hlen⟩

theorem under_length (name : Bytes) (lx : LocationQueue ρ α) :
    (lx.under name).name.length = name.length + lx.name.length := List.length_append

/-- The names of a tree that fits. -/
theorem LocationTree.Fits.namesFit {t : LocationTree ρ α} (hfits : t.Fits) (h : t.Ordered) :
    NamesFit t.flat := by
  induction h with
  | nil => exact fun lx hlx => absurd hlx List.not_mem_nil
  | @node left right tree exact inclusive len name hleft hright htree hlen hlevel hconf hleaf hname
      ihleft ihright ihtree =>
    obtain ⟨hleftfits, hrightfits, htreefits, hnamefits⟩ := hfits
    intro lx hlx hlong
    rcases mem_node hlx with hlx | hlx | hlx
    · obtain ⟨lq, hlq, h⟩ := ihleft hleftfits lx hlx hlong
      exact ⟨lq, left_subset hlq, h⟩
    · rcases List.mem_cons.mp hlx with rfl | hlx
      · exact absurd hlong (Nat.not_lt_of_ge hnamefits)
      obtain ⟨ly, hly, rfl⟩ := List.mem_map.mp hlx
      have hlength := under_length name ly
      by_cases hshort : ly.name.length ≤ 255
      · -- The node itself is what the name goes on from.
        have hpos := List.length_pos_iff.mpr (htree.leafed.name_ne_nil hname hly)
        refine ⟨_, node_subset self_mem, ?_, List.prefix_append name ly.name, ?_, ?_⟩
        · intro hnone
          rw [hleaf hnone] at hly
          cases hly
        · show name.length < _
          omega
        · show _ ≤ name.length + 255
          omega
      · obtain ⟨lq, hlq, hinclusive, hpre, hlt, hle⟩ :=
          ihtree htreefits ly hly (Nat.lt_of_not_le hshort)
        have hlength' := under_length name lq
        exact ⟨lq.under name, node_subset (under_mem hlq), hinclusive,
          (List.prefix_append_right_inj name).mpr hpre, by omega, by omega⟩
    · obtain ⟨lq, hlq, h⟩ := ihright hrightfits lx hlx hlong
      exact ⟨lq, right_subset hlq, h⟩

/-- A tree whose names fit. -/
theorem LocationTree.Ordered.fits {t : LocationTree ρ α} (h : t.Ordered) (hnul : t.NulFree)
    (hfit : NamesFit t.flat) : t.Fits := by
  induction h with
  | nil => trivial
  | @node left right tree exact inclusive len name hleft hright htree hlen hlevel hconf hleaf hname
      ihleft ihright ihtree =>
    obtain ⟨hleftnul, hrightnul, htreenul, hnamenul⟩ := hnul.parts
    obtain ⟨haparl, haparlr, hapartr⟩ := (LocationTree.Ordered.node hleft hright htree hlen hlevel
      hconf hleaf hname).apart hnul
    -- What a name of a part goes on from is in the part, too.
    refine ⟨ihleft hleftnul (hfit.restrict left_subset ?_),
      ihright hrightnul (hfit.restrict right_subset ?_), ihtree htreenul ?_, ?_⟩
    · intro lx hlx lq hlq _ hpre
      rcases mem_node hlq with hlq | hlq | hlq
      · exact hlq
      · exact absurd hpre (haparl lx hlx lq hlq).not_prefix_right
      · exact absurd hpre (haparlr lx hlx lq hlq).not_prefix_right
    · intro lx hlx lq hlq hinclusive hpre
      rcases mem_node hlq with hlq | hlq | hlq
      · exact absurd hpre ((haparlr lq hlq lx hlx).2 hinclusive)
      · exact absurd hpre ((hapartr lq hlq lx hlx).2 hinclusive)
      · exact hlq
    · intro ly hly hlong
      have hmem : ly.under name ∈
          (LocationTree.node left right tree exact inclusive len name).flat :=
        node_subset (under_mem hly)
      have hlength := under_length name ly
      obtain ⟨lq, hlq, hinclusive, hpre, hlt, hle⟩ := hfit (ly.under name) hmem (by omega)
      rcases mem_node hlq with hlq | hlq | hlq
      · exact absurd hpre ((haparl lq hlq _ (under_mem hly)).2 hinclusive)
      · rcases List.mem_cons.mp hlq with rfl | hlq
        · dsimp only at hle
          omega
        · obtain ⟨lz, hlz, rfl⟩ := List.mem_map.mp hlq
          have hlength' := under_length name lz
          exact ⟨lz, hlz, hinclusive, (List.prefix_append_right_inj name).mp hpre, by omega,
            by omega⟩
      · exact absurd hpre (hapartr _ (under_mem hly) lq hlq).not_prefix_right
    · by_contra hlong
      obtain ⟨lq, hlq, hinclusive, hpre, hlt, hle⟩ := hfit _ (node_subset self_mem)
        (Nat.lt_of_not_le hlong)
      rcases mem_node hlq with hlq | hlq | hlq
      · exact (haparl lq hlq _ self_mem).2 hinclusive hpre
      · exact absurd (name_extends hlq).length_le (Nat.not_le_of_lt hlt)
      · exact (hapartr _ self_mem lq hlq).not_prefix_right hpre

/-- **Which trees have names that fit.** -/
theorem fits_iff {t : LocationTree ρ α} (h : t.Ordered) (hnul : t.NulFree) :
    t.Fits ↔ NamesFit t.flat := ⟨fun hfits => hfits.namesFit h, h.fits hnul⟩

end NgxToolkit.HttpDynamic
