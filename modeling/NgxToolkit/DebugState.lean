import Mathlib.Algebra.Order.BigOperators.Group.List
import Mathlib.Data.Nat.Digits.Defs
import Mathlib.Tactic.Common
import NgxToolkit.NgxMapWalk

/-! The buffer of a status function (`ngx_timerd_state`, `ngx_poold_state`,
`ngx_rbuf_state`): a title, some counters, and one line for each node of a map.

* `debugState_spec`: with fuel for the nodes there are, the function ends and
  writes a line for each; it writes no more than the size of the buffer if this
  was computed from at least as many nodes. -/

namespace NgxToolkit

open Lib

/-- The bytes of a text without its terminating NUL. -/
def bytes (s : String) : List UInt8 := s.toUTF8.data.toList

def NGX_OFF_T_LEN : Nat := 20

/-- The text of `%ui`; the value is 64 bits wide. -/
def uiText (n : Nat) : List UInt8 := (Nat.toDigits 10 (n % 2 ^ 64)).map fun c => c.toNat.toUInt8

/-- What `ngx_snprintf` with room for `max` bytes writes of a text. -/
def snprintf (max : Nat) (text : List UInt8) : List UInt8 := text.take max

/-- The line of a counter. -/
structure Counter where
  label : String
  value : Nat

def Counter.text (c : Counter) : List UInt8 := bytes c.label ++ uiText c.value ++ bytes "\n"

/-- `sizeof("label: \n") - 1 + NGX_OFF_T_LEN`. -/
def Counter.size (c : Counter) : Nat := (bytes c.label).length + (bytes "\n").length + NGX_OFF_T_LEN

/-- The buffer: what `ngx_create_temp_buf` allocates and what the calls of
`ngx_snprintf` write to it. -/
structure StateBuf where
  size : Nat
  head : List UInt8
  lines : List (List UInt8)

/-- `b->last - b->start`. -/
def StateBuf.written (b : StateBuf) : Nat := b.head.length + (b.lines.map List.length).sum

/-- The text of `"    %s:%d\n"`. -/
def placeText (file : String) (line : Nat) : List UInt8 :=
  bytes "    " ++ bytes file ++ bytes ":" ++ uiText line ++ bytes "\n"

/-- `len1`. -/
def lineSize : Nat := 4 + 256 + 1 + NGX_OFF_T_LEN + 1

/-- The body of the status functions; the buffer has room for the lines of `n`
nodes, and `line` is the text of a node of `map`. -/
def debugState (title : String) (counters : List Counter) (n : Nat) (map : NgxMap.Map Nat)
    (line : Nat → List UInt8) (fuel : Nat) (detail : Bool) : Option StateBuf :=
  let len := (bytes title).length + (counters.map Counter.size).sum
  let len := if detail then len + lineSize * n else len
  let head := snprintf len (bytes title ++ counters.flatMap Counter.text)
  if detail then
    (NgxMap.walk map fuel (NgxMap.mapBegin map)).map fun nodes =>
      ⟨len, head, nodes.map fun node => snprintf lineSize (line node)⟩
  else some ⟨len, head, []⟩

theorem uiText_length (n : Nat) : (uiText n).length ≤ NGX_OFF_T_LEN := by
  unfold uiText
  rw [List.length_map]
  refine Nat.toDigits_length 10 _ _ (by decide) ?_
  have hlt : n % 2 ^ 64 < 2 ^ 64 := Nat.mod_lt _ (by decide)
  unfold NGX_OFF_T_LEN
  omega

theorem Counter.text_length (c : Counter) : c.text.length ≤ c.size := by
  have hn := uiText_length c.value
  unfold Counter.text Counter.size
  rw [List.length_append, List.length_append]
  omega

theorem counters_length (counters : List Counter) :
    (counters.flatMap Counter.text).length ≤ (counters.map Counter.size).sum := by
  rw [List.length_flatMap]
  exact List.sum_le_sum fun c _ => c.text_length

theorem lines_length (line : Nat → List UInt8) (nodes : List Nat) :
    ((nodes.map fun node => snprintf lineSize (line node)).map List.length).sum ≤
      lineSize * nodes.length := by
  have hle : ∀ x ∈ (nodes.map fun node => snprintf lineSize (line node)).map List.length,
      x ≤ lineSize := by
    rw [List.map_map]
    intro x hx
    obtain ⟨node, -, rfl⟩ := List.mem_map.mp hx
    exact List.length_take_le _ _
  have hsum := List.sum_le_card_nsmul _ _ hle
  rw [List.length_map, List.length_map, nsmul_eq_mul] at hsum
  rw [Nat.mul_comm]
  exact hsum

/-- **The status fits.**  With room for as many lines as there are nodes, the
walk ends, and no byte is written behind the buffer. -/
theorem debugState_spec (title : String) (counters : List Counter) {n fuel : Nat}
    {map : NgxMap.Map Nat} (line : Nat → List UInt8) (hmap : map.linked.Nodup)
    (hn : map.linked.length ≤ n) (hf : n ≤ fuel) (detail : Bool) :
    ∃ b, debugState title counters n map line fuel detail = some b ∧
      b.lines.length ≤ n ∧ b.written ≤ b.size ∧
      (detail = true → b.lines = map.linked.map fun node => snprintf lineSize (line node)) := by
  have hcounters := counters_length counters
  have hlines := lines_length line map.linked
  have hmul : lineSize * map.linked.length ≤ lineSize * n := Nat.mul_le_mul_left _ hn
  unfold debugState
  cases detail with
  | true =>
    rw [if_pos rfl, if_pos rfl, NgxMap.walk_begin hmap (hn.trans hf)]
    refine ⟨_, rfl, ?_, ?_, fun _ => rfl⟩
    · rw [List.length_map]
      exact hn
    · have hhead : (snprintf ((bytes title).length + (counters.map Counter.size).sum + lineSize * n)
          (bytes title ++ counters.flatMap Counter.text)).length ≤
            (bytes title).length + (counters.map Counter.size).sum := by
        refine (List.length_take_le' _ _).trans ?_
        rw [List.length_append]
        omega
      unfold StateBuf.written
      dsimp only
      omega
  | false =>
    rw [if_neg (by decide), if_neg (by decide)]
    refine ⟨_, rfl, Nat.zero_le _, ?_, fun h => (by cases h)⟩
    unfold StateBuf.written
    simp only [List.map_nil, List.sum_nil, Nat.add_zero]
    exact List.length_take_le _ _

end NgxToolkit
