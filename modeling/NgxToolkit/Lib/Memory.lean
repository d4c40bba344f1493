import Mathlib

/-! A byte memory with copies of byte strings, and numbers in little-endian order.

* `load_store`: what a load reads from the start of a copy on or later.
* `load_store_of_disjoint`: a load that a copy does not meet.
* `load_append`: loads side by side.
* `decode_encode`: a number is read back. -/

namespace Lib

/-- The bytes at each address. -/
abbrev Memory := Nat → UInt8

/-- The `n` bytes at `p`. -/
def load (m : Memory) (p n : Nat) : List UInt8 := (List.range n).map fun k => m (p + k)

/-- The bytes `bs` are copied to `p`. -/
def store (m : Memory) (p : Nat) (bs : List UInt8) : Memory :=
  fun a => if p ≤ a then (bs[a - p]?).getD (m a) else m a

/-- The `k` bytes of a number, the low one first. -/
def encode : Nat → Nat → List UInt8
  | 0, _ => []
  | k + 1, n => UInt8.ofNat n :: encode k (n / 256)

/-- The number that bytes stand for, the low one first. -/
def decode : List UInt8 → Nat
  | [] => 0
  | b :: bs => b.toNat + 256 * decode bs

section
variable {m : Memory} {p q k n : Nat} {bs : List UInt8}

@[simp]
theorem load_length (m : Memory) (p n : Nat) : (load m p n).length = n := by
  rw [load, List.length_map, List.length_range]

theorem load_getElem? (m : Memory) (p n k : Nat) :
    (load m p n)[k]? = if k < n then some (m (p + k)) else none := by
  rw [load, List.getElem?_map]
  split
  · next h => rw [List.getElem?_range h, Option.map_some]
  · next h => rw [List.getElem?_eq_none (by simp; omega), Option.map_none]

theorem load_append (m : Memory) (p n k : Nat) :
    load m p (n + k) = load m p n ++ load m (p + n) k := by
  apply List.ext_getElem?
  intro j
  rw [load_getElem?]
  by_cases hj : j < n
  · rw [List.getElem?_append_left (by simpa using hj), load_getElem?, if_pos hj,
      if_pos (by omega)]
  · rw [List.getElem?_append_right (by simpa using hj), load_length, load_getElem?]
    have he : p + n + (j - n) = p + j := by omega
    rw [he]
    split <;> split <;> first | rfl | omega

/-- Memories that agree on the bytes read. -/
theorem load_congr {m' : Memory} (h : ∀ j, j < n → m' (p + j) = m (p + j)) :
    load m' p n = load m p n :=
  List.map_congr_left fun j hj => h j (List.mem_range.mp hj)

theorem store_below {a : Nat} (h : a < p) : store m p bs a = m a := if_neg (by omega)

theorem store_behind {a : Nat} (h : p + bs.length ≤ a) : store m p bs a = m a := by
  unfold store
  split
  · rw [List.getElem?_eq_none (by omega), Option.getD_none]
  · rfl

theorem store_inside {j : Nat} (h : j < bs.length) : store m p bs (p + j) = bs[j] := by
  unfold store
  rw [if_pos (by omega), Nat.add_sub_cancel_left, List.getElem?_eq_getElem h, Option.getD_some]

/-- **Copies.**  A load behind the start of a copy reads what is left of the
bytes copied, and then the old memory. -/
theorem load_store (m : Memory) (p k n : Nat) (bs : List UInt8) :
    load (store m p bs) (p + k) n =
      (bs.drop k).take n ++ (load m (p + k) n).drop (bs.drop k).length := by
  apply List.ext_getElem?
  intro j
  rw [load_getElem?]
  by_cases hin : j < ((bs.drop k).take n).length
  · rw [List.getElem?_append_left hin]
    rw [List.length_take, List.length_drop] at hin
    rw [if_pos (by omega), List.getElem?_take_of_lt (by omega), List.getElem?_drop,
      List.getElem?_eq_getElem (by omega), Nat.add_assoc, store_inside (by omega)]
  · rw [List.getElem?_append_right (by omega), List.getElem?_drop, load_getElem?]
    rw [List.length_take, List.length_drop] at hin
    rw [List.length_take, List.length_drop]
    by_cases hj : j < n
    · have he : bs.length - k + (j - min n (bs.length - k)) = j := by omega
      rw [he, if_pos hj, if_pos hj, store_behind (by omega)]
    · rw [if_neg hj, if_neg (by omega)]

theorem load_store_self (m : Memory) (p : Nat) (bs : List UInt8) :
    load (store m p bs) p bs.length = bs := by
  have h := load_store m p 0 bs.length bs
  rw [Nat.add_zero, List.drop_zero, List.take_length,
    List.drop_eq_nil_of_le (Nat.le_of_eq (load_length m p _)), List.append_nil] at h
  exact h

theorem load_store_of_disjoint (m : Memory) (bs : List UInt8)
    (h : q + n ≤ p ∨ p + bs.length ≤ q) : load (store m p bs) q n = load m q n := by
  refine load_congr fun j hj => ?_
  rcases h with h | h
  · exact store_below (by omega)
  · exact store_behind (by omega)

/-! ## Numbers -/

@[simp]
theorem encode_length (k n : Nat) : (encode k n).length = k := by
  induction k generalizing n with
  | zero => rfl
  | succ k ih => rw [encode, List.length_cons, ih]

theorem decode_encode (h : n < 256 ^ k) : decode (encode k n) = n := by
  induction k generalizing n with
  | zero =>
    rw [Nat.pow_zero] at h
    show 0 = n
    omega
  | succ k ih =>
    have hq : n / 256 < 256 ^ k := by
      rw [Nat.div_lt_iff_lt_mul (by omega), ← Nat.pow_succ]
      exact h
    rw [encode, decode, ih hq, UInt8.toNat_ofNat']
    have hpow : 2 ^ 8 = 256 := rfl
    rw [hpow]
    omega

end

end Lib
