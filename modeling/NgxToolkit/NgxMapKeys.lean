import Mathlib.Data.UInt
import Mathlib.Order.Compare
import NgxToolkit.NgxMapLinks

/-! The key types of the map and the order of its walks.

The tree is ordered by the hash first.  The hash of a number is the number as an
unsigned one, the hash of a string that of nginx core.

* `Promised`: what the header says of the walks, for an order of the keys.
* `promised_iff`: it holds of the compare function if and only if no hashes of
  linked keys stand against it.
* `reachIf_promised`: for the three key types. -/

namespace NgxToolkit.NgxMap

open Lib
open Std (TransCmp OrientedCmp LawfulEqCmp)

/-! ## The key types -/

/-- `ngx_hash_key` and `ngx_memn2cmp` of nginx core; the latter returns the sign
of the order of the bytes, a string before those it begins. -/
structure Strings where
  hashKey : List UInt8 → Nat
  memn2cmp : List UInt8 → List UInt8 → Int
  memn2cmp_sign : ∀ a b, compare (memn2cmp a b) 0 = compare a b

/-- The returns of the compare functions. -/
def sign {α : Type} [LT α] [DecidableLT α] (a b : α) : Ordering :=
  if a < b then .lt else if a > b then .gt else .eq

/-- `ngx_map_hash_str`. -/
def mapHashStr (core : Strings) (key : List UInt8) : Nat := core.hashKey key

/-- `ngx_cmp_str`. -/
def cmpStr (core : Strings) (key1 key2 : List UInt8) : Ordering := sign (core.memn2cmp key1 key2) 0

/-- `ngx_map_hash_uint`. -/
def mapHashUint (key : BitVec 64) : Nat := key.toNat

/-- `ngx_cmp_uint`. -/
def cmpUint (key1 key2 : BitVec 64) : Ordering := sign key1.toNat key2.toNat

/-- `ngx_map_hash_int`. -/
def mapHashInt (key : BitVec 64) : Nat := key.toNat

/-- `ngx_cmp_int`. -/
def cmpInt (key1 key2 : BitVec 64) : Ordering := sign key1.toInt key2.toInt

inductive KeyType where
  | str
  | uint
  | int

/-- What an `intptr_t` of the type stands for; of a string its bytes. -/
def KeyType.Key : KeyType → Type
  | .str => List UInt8
  | .uint => BitVec 64
  | .int => BitVec 64

def KeyType.hash (core : Strings) : (t : KeyType) → t.Key → Nat
  | .str => mapHashStr core
  | .uint => mapHashUint
  | .int => mapHashInt

def KeyType.cmp (core : Strings) : (t : KeyType) → t.Key → t.Key → Ordering
  | .str => cmpStr core
  | .uint => cmpUint
  | .int => cmpInt

theorem sign_eq_compare {α : Type} [LinearOrder α] (a b : α) : sign a b = compare a b := by
  unfold sign
  rcases lt_trichotomy a b with h | h | h
  · rw [if_pos h, compare_lt_iff_lt.mpr h]
  · rw [if_neg (not_lt_of_ge h.ge), if_neg (not_lt_of_ge h.le), compare_eq_iff_eq.mpr h]
  · rw [if_neg (not_lt_of_gt h), if_pos h, compare_gt_iff_gt.mpr h]

theorem cmpStr_eq (core : Strings) : cmpStr core = compare := by
  funext a b
  exact (sign_eq_compare _ _).trans (core.memn2cmp_sign a b)

theorem cmpUint_eq : cmpUint = compareOn BitVec.toNat := by
  funext a b
  exact sign_eq_compare a.toNat b.toNat

theorem cmpInt_eq : cmpInt = compareOn BitVec.toInt := by
  funext a b
  exact sign_eq_compare a.toInt b.toInt

instance {core : Strings} {t : KeyType} : TransCmp (t.cmp core) := by
  cases t with
  | str =>
    show TransCmp (cmpStr core)
    rw [cmpStr_eq]
    infer_instance
  | uint =>
    show TransCmp cmpUint
    rw [cmpUint_eq]
    infer_instance
  | int =>
    show TransCmp cmpInt
    rw [cmpInt_eq]
    infer_instance

/-- Keys that compare equal have equal hashes. -/
theorem hash_of_cmp_eq {core : Strings} {t : KeyType} {a b : t.Key} (h : t.cmp core a b = .eq) :
    t.hash core a = t.hash core b := by
  cases t with
  | str =>
    have he : cmpStr core a b = .eq := h
    rw [cmpStr_eq] at he
    exact congrArg core.hashKey (LawfulEqCmp.eq_of_compare he)
  | uint =>
    have he : cmpUint a b = .eq := h
    rw [cmpUint_eq] at he
    exact Nat.compare_eq_eq.mp he
  | int =>
    have he : cmpInt a b = .eq := h
    rw [cmpInt_eq] at he
    have hab : BitVec.toInt a = BitVec.toInt b := compare_eq_iff_eq.mp he
    rw [BitVec.toInt_inj.mp hab]

/-! ## The promise of the header -/

/-- The node, if there is one in `l`, whose key is before those of the others. -/
def First {K : Type} (cmp : K → K → Ordering) (mem : Nat → MapNode K) (l : List Nat) :
    Option Nat → Prop
  | none => l = []
  | some n => n ∈ l ∧ ∀ m ∈ l, m ≠ n → cmp (mem n).rawKey (mem m).rawKey = .lt

/-- What the header says of `ngx_map_begin`, `ngx_map_rbegin`, `ngx_map_next` and
`ngx_map_prev`, for the order `cmp` of the keys. -/
structure Promised {K : Type} (cmp : K → K → Ordering) (map : Map K) (s : Links Nat)
    (fuel : Nat) : Prop where
  mininum : ∃ b, Links.mapBegin s fuel = some b ∧ First cmp map.mem map.linked b
  maximum : ∃ b, Links.mapRbegin s fuel = some b ∧
    First (fun k k' => cmp k' k) map.mem map.linked b
  bigger : ∀ n ∈ map.linked, ∃ b, Links.mapNext s fuel n = some b ∧
    First cmp map.mem
      (map.linked.filter fun m => cmp (map.mem n).rawKey (map.mem m).rawKey = .lt) b
  smaller : ∀ n ∈ map.linked, ∃ b, Links.mapPrev s fuel n = some b ∧
    First (fun k k' => cmp k' k) map.mem
      (map.linked.filter fun m => cmp (map.mem m).rawKey (map.mem n).rawKey = .lt) b

/-- No hashes of linked keys stand against the order of the keys. -/
def Agrees {K : Type} (hash : K → Nat) (cmp : K → K → Ordering) (map : Map K) : Prop :=
  ∀ a ∈ map.linked, ∀ b ∈ map.linked, cmp (map.mem a).rawKey (map.mem b).rawKey = .lt →
    hash (map.mem a).rawKey ≤ hash (map.mem b).rawKey

section
variable {K : Type} {hash : K → Nat} {cmp : K → K → Ordering} {map : Map K} {s : Links Nat}
  {fuel : Nat}

/-- The nodes of the map ascend in the order `cmp`. -/
def Ascends (cmp : K → K → Ordering) (map : Map K) : Prop :=
  map.linked.Pairwise fun a b => cmp (map.mem a).rawKey (map.mem b).rawKey = .lt

theorem first_head {mem : Nat → MapNode K} {l : List Nat}
    (h : l.Pairwise fun a b => cmp (mem a).rawKey (mem b).rawKey = .lt) :
    First cmp mem l l.head? := by
  cases l with
  | nil => rfl
  | cons n l =>
    refine ⟨List.mem_cons_self, fun m hm hne => ?_⟩
    exact (List.pairwise_cons.mp h).1 m ((List.mem_cons.mp hm).resolve_left hne)

theorem first_last {mem : Nat → MapNode K} {l : List Nat}
    (h : l.Pairwise fun a b => cmp (mem a).rawKey (mem b).rawKey = .lt) :
    First (fun k k' => cmp k' k) mem l l.getLast? := by
  have hrev := List.pairwise_reverse.mpr h
  have hfirst : First (fun k k' => cmp k' k) mem l.reverse l.reverse.head? := first_head hrev
  rw [List.head?_reverse] at hfirst
  cases hl : l.getLast? with
  | none => exact List.getLast?_eq_none_iff.mp hl
  | some n =>
    rw [hl] at hfirst
    exact ⟨List.mem_reverse.mp hfirst.1, fun m hm => hfirst.2 m (List.mem_reverse.mpr hm)⟩

/-- The bigger keys are those behind, and the smaller ones those before. -/
theorem Ascends.filter [OrientedCmp cmp] (h : Ascends cmp map) {xs ys : List Nat} {n : Nat}
    (hl : map.linked = xs ++ n :: ys) :
    (map.linked.filter fun m => cmp (map.mem n).rawKey (map.mem m).rawKey = .lt) = ys ∧
    (map.linked.filter fun m => cmp (map.mem m).rawKey (map.mem n).rawKey = .lt) = xs := by
  unfold Ascends at h
  rw [hl, List.pairwise_append, List.pairwise_cons] at h
  obtain ⟨-, ⟨hys, -⟩, hxs⟩ := h
  have hxs : ∀ m ∈ xs, cmp (map.mem m).rawKey (map.mem n).rawKey = .lt := fun m hm =>
    hxs m hm n List.mem_cons_self
  have hself : cmp (map.mem n).rawKey (map.mem n).rawKey ≠ .lt := by
    have heq : cmp (map.mem n).rawKey (map.mem n).rawKey = .eq := Std.ReflCmp.compare_self
    rw [heq]
    decide
  have hno : ∀ a b, cmp (map.mem a).rawKey (map.mem b).rawKey = .lt →
      cmp (map.mem b).rawKey (map.mem a).rawKey ≠ .lt := by
    intro a b hab hba
    rw [OrientedCmp.gt_of_lt hba] at hab
    cases hab
  rw [hl, List.filter_append, List.filter_append, List.filter_cons_of_neg (by simpa using hself),
    List.filter_cons_of_neg (by simpa using hself)]
  constructor
  · have h1 : xs.filter (fun m => cmp (map.mem n).rawKey (map.mem m).rawKey = .lt) = [] :=
      List.filter_eq_nil_iff.mpr fun m hm => by simpa using hno m n (hxs m hm)
    rw [h1, List.nil_append, List.filter_eq_self]
    exact fun m hm => decide_eq_true (hys m hm)
  · have h2 : ys.filter (fun m => cmp (map.mem m).rawKey (map.mem n).rawKey = .lt) = [] :=
      List.filter_eq_nil_iff.mpr fun m hm => by simpa using hno n m (hys m hm)
    rw [h2, List.append_nil, List.filter_eq_self]
    exact fun m hm => decide_eq_true (hxs m hm)

theorem Ascends.promised [OrientedCmp cmp] (h : Ascends cmp map) (hs : s.Spells map.root s.root)
    (hnd : map.linked.Nodup) (hf : map.linked.length ≤ fuel) : Promised cmp map s fuel := by
  refine ⟨⟨_, Links.mapBegin_eq hs hf, first_head h⟩, ⟨_, Links.mapRbegin_eq hs hf, first_last h⟩,
    fun n hn => ?_, fun n hn => ?_⟩
  · obtain ⟨xs, ys, hl⟩ := List.append_of_mem hn
    refine ⟨_, Links.mapNext_eq hs hnd hf xs n ys hl, ?_⟩
    rw [(h.filter hl).1]
    have hsub : ys.Sublist map.linked := by
      rw [hl]
      exact (List.sublist_cons_self n ys).trans (List.sublist_append_right _ _)
    exact first_head (h.sublist hsub)
  · obtain ⟨xs, ys, hl⟩ := List.append_of_mem hn
    refine ⟨_, Links.mapPrev_eq hs hnd hf xs n ys hl, ?_⟩
    rw [(h.filter hl).2]
    have hsub : xs.Sublist map.linked := by
      rw [hl]
      exact List.sublist_append_left _ _
    exact first_last (h.sublist hsub)

/-- Where each next node has a bigger key, the nodes ascend. -/
theorem Promised.ascends [TransCmp cmp] (h : Promised cmp map s fuel)
    (hs : s.Spells map.root s.root) (hnd : map.linked.Nodup) (hf : map.linked.length ≤ fuel) :
    Ascends cmp map := by
  suffices hsuf : ∀ ys xs, map.linked = xs ++ ys →
      ys.Pairwise fun a b => cmp (map.mem a).rawKey (map.mem b).rawKey = .lt from hsuf _ [] rfl
  intro ys
  induction ys with
  | nil => exact fun _ _ => List.Pairwise.nil
  | cons n ys ih =>
    intro xs hl
    have hys := ih (xs ++ [n]) (by rw [hl, List.append_assoc]; rfl)
    refine List.pairwise_cons.mpr ⟨?_, hys⟩
    have hn : n ∈ map.linked := by
      rw [hl]
      exact List.mem_append_right _ List.mem_cons_self
    obtain ⟨b, hb, hfirst⟩ := h.bigger n hn
    rw [Links.mapNext_eq hs hnd hf xs n ys hl, Option.some.injEq] at hb
    cases ys with
    | nil => exact fun _ hm => absurd hm List.not_mem_nil
    | cons c ys =>
      rw [← hb] at hfirst
      have hnc : cmp (map.mem n).rawKey (map.mem c).rawKey = .lt :=
        of_decide_eq_true (List.mem_filter.mp hfirst.1).2
      intro m hm
      rcases List.mem_cons.mp hm with rfl | hm
      · exact hnc
      · exact TransCmp.lt_trans hnc ((List.pairwise_cons.mp hys).1 m hm)

theorem Inv.ascends_iff [TransCmp cmp] (hm : Inv hash cmp map)
    (hhash : ∀ a b, cmp a b = .eq → hash a = hash b) :
    Ascends cmp map ↔ Agrees hash cmp map := by
  constructor
  · intro hasc a ha b hb hab
    -- `a` stands before `b` in the map, whose order has the hash first
    obtain ⟨xs, ys, hl⟩ := List.append_of_mem ha
    have hby := (hasc.filter hl).1
    have hmem : b ∈ ys := by
      rw [← hby]
      exact List.mem_filter.mpr ⟨hb, decide_eq_true hab⟩
    have hsorted := hm.sorted
    rw [hl, List.pairwise_append, List.pairwise_cons] at hsorted
    have hlt : keyCmp hash cmp (map.mem a).rawKey (map.mem b).rawKey = .lt :=
      hsorted.2.1.1 b hmem
    unfold keyCmp compareLex at hlt
    rw [Ordering.then_eq_lt] at hlt
    rcases hlt with hlt | ⟨heq, -⟩
    · exact Nat.le_of_lt (Nat.compare_eq_lt.mp hlt)
    · exact Nat.le_of_eq (Nat.compare_eq_eq.mp heq)
  · intro hag
    refine hm.sorted.imp_of_mem fun {a b} ha hb hab => ?_
    unfold keyCmp compareLex at hab
    rw [Ordering.then_eq_lt] at hab
    rcases hab with hlt | ⟨-, hlt⟩
    · have hlt := Nat.compare_eq_lt.mp hlt
      cases hc : cmp (map.mem a).rawKey (map.mem b).rawKey with
      | lt => rfl
      | eq => exact absurd (hhash _ _ hc) (Nat.ne_of_lt hlt)
      | gt => exact absurd (hag b hb a ha (OrientedCmp.lt_of_gt hc)) (by omega)
    · exact hlt

/-- The promise holds of the compare function if and only if no hashes of linked
keys stand against it. -/
theorem Inv.promised_iff [TransCmp cmp] (hm : Inv hash cmp map)
    (hhash : ∀ a b, cmp a b = .eq → hash a = hash b) (hs : s.Spells map.root s.root)
    (hf : map.linked.length ≤ fuel) : Promised cmp map s fuel ↔ Agrees hash cmp map := by
  rw [← hm.ascends_iff hhash]
  exact ⟨fun h => h.ascends hs hm.nodup hf, fun h => h.promised hs hm.nodup hf⟩

end

/-- When the hashes of the linked keys agree with their order: always for
unsigned numbers; for signed ones if no negative key stands beside another. -/
def KeyType.Fits (core : Strings) : (t : KeyType) → Map t.Key → Prop
  | .str, map => Agrees (mapHashStr core) (cmpStr core) map
  | .uint, _ => True
  | .int, map => ∀ a ∈ map.linked, ∀ b ∈ map.linked,
    BitVec.toInt (map.mem a).rawKey < 0 → BitVec.toInt (map.mem b).rawKey < 0

theorem cmpInt_lt {a b : BitVec 64} : cmpInt a b = .lt ↔ a.toInt < b.toInt := by
  rw [cmpInt_eq]
  exact compare_lt_iff_lt

/-- As an unsigned number a negative one is above the others. -/
theorem toNat_lt_of_neg {a b : BitVec 64} (ha : a.toInt < 0) (hb : ¬ b.toInt < 0) :
    b.toNat < a.toNat := by
  rw [BitVec.toInt_eq_toNat_cond] at ha hb
  have hlt := b.isLt
  split at ha
  · omega
  · split at hb
    · omega
    · omega

/-- Beside this the two orders are one. -/
theorem toNat_le_of_toInt_lt {a b : BitVec 64} (h : a.toInt < b.toInt)
    (hsame : a.toInt < 0 → b.toInt < 0) : a.toNat ≤ b.toNat := by
  rw [BitVec.toInt_eq_toNat_cond, BitVec.toInt_eq_toNat_cond] at h hsame
  have hlt := a.isLt
  have hlt' := b.isLt
  split at h
  · split at h
    · omega
    · omega
  · next ha =>
    rw [if_neg ha] at hsame
    have hneg := hsame (by omega)
    split at h
    · omega
    · omega

theorem agrees_iff_fits {core : Strings} {t : KeyType} (map : Map t.Key) :
    Agrees (t.hash core) (t.cmp core) map ↔ t.Fits core map := by
  cases t with
  | str => exact Iff.rfl
  | uint =>
    refine iff_of_true ?_ trivial
    intro a ha b hb hab
    have hlt : cmpUint (map.mem a).rawKey (map.mem b).rawKey = .lt := hab
    rw [cmpUint_eq] at hlt
    exact Nat.le_of_lt (compare_lt_iff_lt.mp hlt)
  | int =>
    constructor
    · intro h a ha b hb hneg
      by_contra hpos
      have hle : BitVec.toNat (map.mem a).rawKey ≤ BitVec.toNat (map.mem b).rawKey :=
        h a ha b hb (cmpInt_lt.mpr (by omega))
      have hlt := toNat_lt_of_neg hneg hpos
      omega
    · intro h a ha b hb hab
      exact toNat_le_of_toInt_lt (cmpInt_lt.mp hab) (h a ha b hb)

/-- **The key types.**  In every run that replaces no node by itself, the walks
keep the header's promise for the order of hash and key; and they keep it for the
compare function of the type if and only if the linked keys fit their hashes. -/
theorem reachIf_promised (core : Rbtree) (strings : Strings) (t : KeyType)
    (mem : Nat → MapNode t.Key) (map : Map t.Key)
    (hr : (calls core (t.hash strings) (t.cmp strings) mem).ReachIf
      (NotItself (t.hash strings)) map) (s : Links Nat) (hs : s.Spells map.root s.root)
    (fuel : Nat) (hf : map.linked.length ≤ fuel) :
    Promised (keyCmp (t.hash strings) (t.cmp strings)) map s fuel ∧
      (Promised (t.cmp strings) map s fuel ↔ t.Fits strings map) := by
  have hm := reachIf_inv hr
  have hasc : Ascends (keyCmp (t.hash strings) (t.cmp strings)) map := hm.sorted
  refine ⟨hasc.promised hs hm.nodup hf, ?_⟩
  rw [← agrees_iff_fits map]
  exact hm.promised_iff (fun _ _ h => hash_of_cmp_eq h) hs hf

/-- The strings of nginx core. -/
def someStrings : Strings where
  hashKey data := data.foldl (fun key c => (key * 31 + c.toNat) % 2 ^ 64) 0
  memn2cmp a b :=
    match compare a b with
    | .lt => -1
    | .eq => 0
    | .gt => 1
  memn2cmp_sign a b := by
    cases compare a b with
    | lt => rfl
    | eq => rfl
    | gt => rfl

/-- `k10` is before `k9`, its hash behind. -/
example : cmpStr someStrings [107, 49, 48] [107, 57] = .lt ∧
    mapHashStr someStrings [107, 57] < mapHashStr someStrings [107, 49, 48] := by decide

/-- Nodes 0 and 1 with the keys 1 and 2^64 - 1, which is -1 as a signed number. -/
def twoKeys : Nat → MapNode (BitVec 64) := fun n => ⟨0, if n = 0 then 1 else -1⟩

/-- The links of the node 0 and, on its right, the node 1. -/
def twoLinks : Links Nat where
  root := some 0
  left := fun _ => none
  right := fun n => if n = 0 then some 1 else none
  parent := fun _ => some 0

theorem twoLinks_spells : twoLinks.Spells (.node 0 .nil (.node 1 .nil .nil)) twoLinks.root := by
  refine ⟨rfl, rfl, ⟨rfl, rfl, rfl, ?_, ?_⟩, ?_, ?_⟩
  · exact fun _ h => by cases h
  · exact fun _ h => by cases h
  · exact fun _ h => by cases h
  · exact fun _ h => by cases h; rfl

theorem reachIf_promised_uint : ∃ map : Map (BitVec 64),
    (calls flatRbtree mapHashUint cmpUint twoKeys).run
      (calls flatRbtree mapHashUint cmpUint twoKeys).start
      [.insert 0 false, .insert 1 false] = some map ∧
    Promised cmpUint map twoLinks 2 := by
  have hmeets : (calls flatRbtree mapHashUint cmpUint twoKeys).Meets (NotItself mapHashUint)
      (calls flatRbtree mapHashUint cmpUint twoKeys).start [.insert 0 false, .insert 1 false] :=
    .cons (fun _ h => by cases h) rfl <| .cons (fun _ h => by cases h) rfl trivial
  have hr := Machine.ReachIf.of_meets .start hmeets rfl
  refine ⟨_, rfl, ?_⟩
  exact (reachIf_promised flatRbtree someStrings .uint twoKeys _ hr twoLinks twoLinks_spells
    2 (by decide)).2.mpr trivial

/-- Of the signed keys 1 and -1 the first is found at the begin of the map. -/
theorem promise_broken : ¬ ∀ (core : Rbtree) (strings : Strings) (t : KeyType)
    (mem : Nat → MapNode t.Key) (map : Map t.Key),
    (calls core (t.hash strings) (t.cmp strings) mem).Reach map → ∀ s : Links Nat,
      s.Spells map.root s.root → ∀ fuel, map.linked.length ≤ fuel →
        Promised (t.cmp strings) map s fuel := by
  intro hall
  have hr := (calls flatRbtree mapHashInt cmpInt twoKeys).reach_run
    [.insert 0 false, .insert 1 false] rfl
  have hp := hall flatRbtree someStrings .int twoKeys _ hr twoLinks twoLinks_spells
    2 (by decide)
  obtain ⟨b, hb, hfirst⟩ := hp.mininum
  cases hb
  exact absurd (hfirst.2 1 (by decide) (by decide)) (by decide)

end NgxToolkit.NgxMap
