import Mathlib
import NgxToolkit.HttpLocation
import NgxToolkit.Lib.PrefixOrder

/-! The order of the locations.

`ngx_filename_cmp` compares the names by their `key`, lexicographically, and
`ngx_http_dynamic_core_cmp_locations` the entries of the queue by their `rank`: static
before regex, then the name, then `=` before the others.

* `filenameCmp_neg`, `filenameCmp_zero`: what the sign of the comparison says.
* `key_prefix_iff`: names without NUL are prefixes where their keys are.
* `initLocations_spec`: the sorted queue, and the regex locations. -/

namespace NgxToolkit.HttpDynamic

open Lib

/-- What `ngx_filename_cmp` compares: the bytes before the first NUL, with `/` first. -/
def key (s : Bytes) : List Nat := (s.takeWhile (· ≠ 0)).map slashFirst

/-! ## Comparing names -/

theorem slashFirst_inj {a b : UInt8} (ha : a ≠ 0) (hb : b ≠ 0) (h : slashFirst a = slashFirst b) :
    a = b := by
  have hne {c : UInt8} (hc : c ≠ 0) : c.toNat ≠ 0 := fun h => hc (UInt8.toNat_inj.mp h)
  unfold slashFirst at h
  by_cases ha' : a = 47 <;> by_cases hb' : b = 47
  · rw [ha', hb']
  · rw [if_pos ha', if_neg hb'] at h
    exact absurd h.symm (hne hb)
  · rw [if_neg ha', if_pos hb'] at h
    exact absurd h (hne ha)
  · rw [if_neg ha', if_neg hb'] at h
    exact UInt8.toNat_inj.mp h

theorem key_cons {c : UInt8} (hc : c ≠ 0) (s : Bytes) : key (c :: s) = slashFirst c :: key s := by
  unfold key
  rw [List.takeWhile_cons_of_pos (by simpa using hc), List.map_cons]

/-- A string with its first byte, and NUL behind its end. -/
theorem key_head (s : Bytes) : (s.headD 0 = 0 ∧ key s = []) ∨
    (s.headD 0 ≠ 0 ∧ key s = slashFirst (s.headD 0) :: key s.tail) := by
  cases s with
  | nil => exact .inl ⟨rfl, rfl⟩
  | cons c s =>
    by_cases hc : c = 0
    · rw [hc]
      exact .inl ⟨rfl, rfl⟩
    · exact .inr ⟨hc, key_cons hc s⟩

/-- **The sign of `ngx_filename_cmp`.** -/
theorem filenameCmp_sign (n : Nat) (s1 s2 : Bytes) :
    (filenameCmp n s1 s2 < 0 ↔ (key s1).take n < (key s2).take n) ∧
      (filenameCmp n s1 s2 = 0 ↔ (key s1).take n = (key s2).take n) := by
  induction n generalizing s1 s2 with
  | zero => simp [filenameCmp]
  | succ n ih =>
    unfold filenameCmp
    obtain ⟨h1, hk1⟩ | ⟨h1, hk1⟩ := key_head s1 <;> obtain ⟨h2, hk2⟩ | ⟨h2, hk2⟩ := key_head s2
    · rw [h1, h2, hk1, hk2]
      simp
    · have hpos : (s2.headD 0).toNat ≠ 0 := fun h => h2 (UInt8.toNat_inj.mp h)
      rw [h1, hk1, hk2, if_neg (fun h => h2 h.symm), if_pos (.inl rfl), List.take_succ_cons]
      constructor
      · simp only [UInt8.toNat_zero, List.take_nil, List.nil_lt_cons, iff_true]
        omega
      · simp only [UInt8.toNat_zero, List.take_nil, reduceCtorEq, iff_false]
        omega
    · have hpos : (s1.headD 0).toNat ≠ 0 := fun h => h1 (UInt8.toNat_inj.mp h)
      rw [h2, hk1, hk2, if_neg h1, if_pos (.inr rfl), List.take_succ_cons]
      constructor
      · simp only [UInt8.toNat_zero, List.take_nil, List.not_lt_nil, iff_false]
        omega
      · simp only [UInt8.toNat_zero, List.take_nil, reduceCtorEq, iff_false]
        omega
    · rw [hk1, hk2, List.take_succ_cons, List.take_succ_cons, List.cons_lt_cons_iff,
        List.cons.injEq]
      by_cases heq : s1.headD 0 = s2.headD 0
      · rw [if_pos heq, if_neg h1, heq]
        simp only [lt_irrefl, false_or, true_and]
        exact ih s1.tail s2.tail
      · have hne : slashFirst (s1.headD 0) ≠ slashFirst (s2.headD 0) :=
          fun h => heq (slashFirst_inj h1 h2 h)
        rw [if_neg heq, if_neg (by tauto)]
        constructor
        · simp only [hne, false_and, or_false]
          omega
        · simp only [hne, false_and, iff_false]
          omega

theorem filenameCmp_neg (n : Nat) (s1 s2 : Bytes) :
    filenameCmp n s1 s2 < 0 ↔ (key s1).take n < (key s2).take n := (filenameCmp_sign n s1 s2).1

theorem filenameCmp_zero (n : Nat) (s1 s2 : Bytes) :
    filenameCmp n s1 s2 = 0 ↔ (key s1).take n = (key s2).take n := (filenameCmp_sign n s1 s2).2

theorem filenameCmp_pos (n : Nat) (s1 s2 : Bytes) :
    0 < filenameCmp n s1 s2 ↔ (key s2).take n < (key s1).take n := by
  have hneg := filenameCmp_neg n s1 s2
  have hzero := filenameCmp_zero n s1 s2
  constructor
  · intro h
    refine lt_of_le_of_ne (not_lt.mp fun hlt => ?_) fun heq => ?_
    · have := hneg.mpr hlt
      omega
    · have := hzero.mpr heq.symm
      omega
  · intro h
    have hnot := hneg.not.mpr (not_lt_of_gt h)
    have hne := hzero.not.mpr (ne_of_gt h)
    omega

theorem key_length_le (s : Bytes) : (key s).length ≤ s.length := by
  unfold key
  rw [List.length_map]
  exact (List.takeWhile_prefix _).length_le

/-! ## Names without NUL -/

theorem key_eq_map {s : Bytes} (hs : 0 ∉ s) : key s = s.map slashFirst := by
  unfold key
  rw [List.takeWhile_eq_self_iff.mpr]
  intro c hc
  rw [decide_eq_true_eq]
  rintro rfl
  exact hs hc

theorem key_length {s : Bytes} (hs : 0 ∉ s) : (key s).length = s.length := by
  rw [key_eq_map hs, List.length_map]

/-- The key of a name with a NUL is shorter. -/
theorem key_length_lt {s : Bytes} (hs : 0 ∈ s) : (key s).length < s.length := by
  refine lt_of_le_of_ne (key_length_le s) fun heq => ?_
  unfold key at heq
  rw [List.length_map] at heq
  have hall := List.takeWhile_eq_self_iff.mp ((List.takeWhile_prefix _).eq_of_length heq) 0 hs
  simp at hall

theorem key_append {s t : Bytes} (h : 0 ∉ s ++ t) : key (s ++ t) = key s ++ key t := by
  rw [key_eq_map h, List.map_append, key_eq_map fun hs => h (List.mem_append_left t hs),
    key_eq_map fun ht => h (List.mem_append_right s ht)]

theorem key_take {s : Bytes} (hs : 0 ∉ s) (n : Nat) : (key s).take n = key (s.take n) := by
  rw [key_eq_map hs, key_eq_map fun h => hs (List.mem_of_mem_take h), List.map_take]

theorem key_inj {s t : Bytes} (hs : 0 ∉ s) (ht : 0 ∉ t) (h : key s = key t) : s = t := by
  rw [key_eq_map hs, key_eq_map ht] at h
  induction s generalizing t with
  | nil => exact (List.map_eq_nil_iff.mp h.symm).symm
  | cons a s ih =>
    obtain ⟨b, t, rfl, hab, hst⟩ := List.map_eq_cons_iff.mp h.symm
    have ha : a ≠ 0 := fun h => hs (h ▸ List.mem_cons_self)
    have hb : b ≠ 0 := fun h => ht (h ▸ List.mem_cons_self)
    rw [slashFirst_inj hb ha hab, ih (fun h => hs (List.mem_cons_of_mem a h))
      (fun h => ht (List.mem_cons_of_mem b h)) hst.symm]

theorem key_prefix_iff {s t : Bytes} (hs : 0 ∉ s) (ht : 0 ∉ t) : key s <+: key t ↔ s <+: t := by
  rw [List.prefix_iff_eq_take, List.prefix_iff_eq_take, key_length hs, key_take ht]
  constructor
  · exact key_inj hs fun h => ht (List.mem_of_mem_take h)
  · intro h
    exact congrArg key h

theorem key_starts {s t : Bytes} (h : s <+: t) : key s <+: key t := by
  obtain ⟨u, rfl⟩ := h
  unfold key
  rw [List.takeWhile_append]
  split
  · next hall =>
    rw [List.map_append, (List.takeWhile_prefix _).eq_of_length hall]
    exact List.prefix_append _ _
  · exact List.prefix_refl _

/-- A name is not behind the names it is a prefix of. -/
theorem key_le_of_extends {s t : Bytes} (h : s <+: t) : key s ≤ key t := prefix_le (key_starts h)

/-- A name without NUL is a prefix where its key is. -/
theorem starts_of_key {s t : Bytes} (hs : 0 ∉ s) (h : key s <+: key t) : s <+: t := by
  have ht : 0 ∉ t.takeWhile (· ≠ 0) := fun h0 => by simpa using List.mem_takeWhile_imp h0
  have hkey : key (t.takeWhile (· ≠ 0)) = key t := by
    unfold key
    rw [List.takeWhile_idem]
  exact ((key_prefix_iff hs ht).mp (hkey ▸ h)).trans (List.takeWhile_prefix _)

/-! ## Sorting the queue -/

variable {ρ α : Type}

/-- What `ngx_http_dynamic_core_cmp_locations` compares. -/
def rank (lq : LocationQueue ρ α) : Bool ×ₗ List Nat ×ₗ Bool :=
  if lq.isRegex then toLex (true, toLex ([], false))
  else toLex (false, toLex (key lq.name, !lq.exactMatch))

/-- One byte more than the shorter name has decides. -/
theorem key_short (a b : Bytes) : (key a).length < min a.length b.length + 1 ∨
    (key b).length < min a.length b.length + 1 := by
  have ha := key_length_le a
  have hb := key_length_le b
  omega

theorem cmpLocations_le_iff (a b : LocationQueue ρ α) :
    cmpLocations a b ≤ 0 ↔ rank a ≤ rank b := by
  have hlt := filenameCmp_neg (min a.name.length b.name.length + 1) a.name b.name
  have heq := filenameCmp_zero (min a.name.length b.name.length + 1) a.name b.name
  rw [take_lt_iff (key_short a.name b.name)] at hlt
  rw [take_eq_iff (key_short a.name b.name)] at heq
  unfold cmpLocations rank
  cases ha : a.isRegex <;> cases hb : b.isRegex
  · simp only [Bool.false_eq_true, not_false_eq_true, and_false, false_and, or_self,
      if_false]
    rw [Prod.Lex.toLex_le_toLex, Prod.Lex.toLex_le_toLex]
    simp only [lt_irrefl, false_or, true_and]
    rw [← hlt, ← heq]
    by_cases hzero : filenameCmp (min a.name.length b.name.length + 1) a.name b.name = 0
    · cases a.exactMatch <;> cases b.exactMatch <;> simp [hzero]
    · rw [if_neg fun h => hzero h.1]
      simp only [hzero, false_and, or_false]
      omega
  · simp [Prod.Lex.toLex_le_toLex]
  · simp [Prod.Lex.toLex_le_toLex]
  · simp

/-- The order in which the queue is sorted, read from its end. -/
def after (q prev : LocationQueue ρ α) : Prop := cmpLocations prev q ≤ 0

instance : DecidableRel (after (ρ := ρ) (α := α)) := fun q prev =>
  inferInstanceAs (Decidable (cmpLocations prev q ≤ 0))

theorem after_iff (q prev : LocationQueue ρ α) : after q prev ↔ rank prev ≤ rank q :=
  cmpLocations_le_iff prev q

instance : Std.Total (after (ρ := ρ) (α := α)) :=
  ⟨fun a b => by
    rw [after_iff, after_iff]
    exact le_total _ _⟩

instance : IsTrans (LocationQueue ρ α) after :=
  ⟨fun a b c hab hbc => by
    rw [after_iff] at hab hbc ⊢
    exact le_trans hbc hab⟩

theorem queueSort_eq (locations : List (LocationQueue ρ α)) :
    queueSort cmpLocations locations = (locations.reverse.insertionSort after).reverse := by
  unfold queueSort
  rw [List.foldl_eq_foldr_reverse]
  rfl

theorem queueSort_perm (locations : List (LocationQueue ρ α)) :
    (queueSort cmpLocations locations).Perm locations := by
  rw [queueSort_eq]
  exact (List.reverse_perm _).trans
    ((List.perm_insertionSort after _).trans (List.reverse_perm locations))

theorem queueSort_pairwise (locations : List (LocationQueue ρ α)) :
    (queueSort cmpLocations locations).Pairwise fun a b => rank a ≤ rank b := by
  rw [queueSort_eq, List.pairwise_reverse]
  exact (List.pairwise_insertionSort after _).imp fun {a b} h => (after_iff a b).mp h

/-- **The regex locations are not sorted.** -/
theorem queueSort_filter (locations : List (LocationQueue ρ α)) :
    (queueSort cmpLocations locations).filter (·.isRegex) = locations.filter (·.isRegex) := by
  have hregex : (locations.reverse.filter (·.isRegex)).Pairwise after := by
    apply List.pairwise_of_forall_mem_list
    intro a ha b hb
    rw [after_iff, rank, rank, if_pos (List.mem_filter.mp ha).2, if_pos (List.mem_filter.mp hb).2]
  have hsub := (List.sublist_insertionSort hregex List.filter_sublist).filter (·.isRegex)
  simp only [List.filter_filter, Bool.and_self] at hsub
  have hlen := ((List.perm_insertionSort after locations.reverse).filter (·.isRegex)).length_eq
  rw [queueSort_eq, List.filter_reverse, ← hsub.eq_of_length hlen.symm, ← List.filter_reverse,
    List.reverse_reverse]

/-- If what `p` holds of stands in front, the queue is cut where `p` ends. -/
theorem takeWhile_eq_filter {β : Type} {p : β → Bool} {l : List β}
    (h : l.Pairwise fun a b => p b = true → p a = true) :
    l.takeWhile p = l.filter p ∧ l.dropWhile p = l.filter fun a => !p a := by
  induction h with
  | nil => exact ⟨rfl, rfl⟩
  | @cons a l ha _ ih =>
    cases hp : p a with
    | true =>
      rw [List.takeWhile_cons_of_pos hp, List.dropWhile_cons_of_pos hp, List.filter_cons_of_pos hp,
        List.filter_cons_of_neg (by simp [hp]), ih.1, ih.2]
      exact ⟨rfl, rfl⟩
    | false =>
      have hnone : ∀ b ∈ l, p b = false := fun b hb =>
        Bool.eq_false_iff.mpr fun hpb => Bool.eq_false_iff.mp hp (ha b hb hpb)
      have hnil : l.filter p = [] := List.filter_eq_nil_iff.mpr fun b hb => by
        rw [hnone b hb]
        exact Bool.false_ne_true
      have hall : l.filter (fun a => !p a) = l := List.filter_eq_self.mpr fun b hb => by
        rw [hnone b hb]
        rfl
      rw [List.takeWhile_cons_of_neg (by simp [hp]), List.dropWhile_cons_of_neg (by simp [hp]),
        List.filter_cons_of_neg (by simp [hp]), List.filter_cons_of_pos (by simp [hp]), hnil, hall]
      exact ⟨rfl, rfl⟩

/-- **What `initLocations` leaves**: the static entries sorted, and the regex locations in
the order of the file. -/
theorem initLocations_spec (locations : List (LocationQueue ρ α)) :
    (initLocations locations).1.Perm (locations.filter fun lq => !lq.isRegex) ∧
    (initLocations locations).1.Pairwise (fun a b => rank a ≤ rank b) ∧
    (initLocations locations).2 = if locations.filter (·.isRegex) = [] then none
      else some ((locations.filter (·.isRegex)).map (·.exact) ++ [none]) := by
  have hsorted := queueSort_pairwise locations
  have hcut := takeWhile_eq_filter (p := fun lq : LocationQueue ρ α => !lq.isRegex)
    (hsorted.imp fun {a b} hab => by
      intro hb
      rw [Bool.not_eq_true'] at hb ⊢
      by_contra ha
      rw [Bool.not_eq_false] at ha
      rw [rank, rank, if_pos ha, if_neg (by simp [hb]), Prod.Lex.toLex_le_toLex] at hab
      simp only [Bool.lt_iff, reduceCtorEq, and_self, false_and, or_self] at hab)
  unfold initLocations
  simp only [Bool.not_not] at hcut
  dsimp only
  rw [hcut.1, hcut.2, queueSort_filter]
  refine ⟨(queueSort_perm locations).filter _, hsorted.sublist List.filter_sublist, rfl⟩

end NgxToolkit.HttpDynamic
