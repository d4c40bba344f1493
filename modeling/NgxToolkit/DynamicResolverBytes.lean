import Mathlib
import NgxToolkit.DynamicResolverMachine
import NgxToolkit.Lib.Memory
import NgxToolkit.ToolkitPton

/-! The sizes of socket addresses in the dynamic resolver.

A `struct sockaddr` has 16 bytes.  The functions give `ngx_sock_pton` one on the
stack, and `ngx_dynamic_resolver_on_result` copies the addresses of a reply into
those of a record, here as bytes in memory.

* `run_image`: the copy in memory does to the entries of a record what the
  machine does.
* `copyAddr_inet6`: what the copy of an IPv6 address leaves.
* `addresses_fit`: which texts and which replies fit. -/

namespace NgxToolkit.DynamicResolver

open Lib

variable {η δ : Type}

/-- `sizeof(ngx_dynamic_resolver_addr_t)`. -/
def sizeofAddr : Nat := 24

/-- Where entry `i` begins in the memory from `addrs` on; behind the last entry comes `ctx`. -/
def offset (i : Nat) : Nat := sizeofAddr * i

/-- The copy of an address into entry `i` by `ngx_dynamic_resolver_on_result`: `sockaddr`,
and behind its 16 bytes `socklen`, `priority` and `weight`. -/
def copyAddr (m : Memory) (i : Nat) (a : Addr) : Memory :=
  let m := store m (offset i) a.sockaddr
  let m := store m (offset i + 16) (encode 4 a.sockaddr.length)
  let m := store m (offset i + 20) (encode 2 a.priority)
  store m (offset i + 22) (encode 2 a.weight)

/-- Entry `i`. -/
def slotAt (m : Memory) (i : Nat) : Slot :=
  ⟨load m (offset i) 16, decode (load m (offset i + 16) 4), decode (load m (offset i + 20) 2),
    decode (load m (offset i + 22) 2)⟩

/-- What a handler reads of entry `i`: `socklen` bytes from `sockaddr` on. -/
def readAddr (m : Memory) (i : Nat) : List UInt8 := load m (offset i) (slotAt m i).socklen

/-- The copy of an address into entry `i` stays in its field. -/
structure Fitted (m : Memory) (i : Nat) (a : Addr) : Prop where
  fits : a.sockaddr.length ≤ ToolkitPton.sizeofSockaddr
  entry : readAddr (copyAddr m i a) i = a.sockaddr
  others : ∀ j, j < maxAddrs → j ≠ i →
    load (copyAddr m i a) (offset j) sizeofAddr = load m (offset j) sizeofAddr
  /-- the pointer `ctx` -/
  ctx : load (copyAddr m i a) (offset maxAddrs) 8 = load m (offset maxAddrs) 8

section
variable {m : Memory} {i j q n : Nat} {a : Addr}

/-! ## One copy -/

theorem offset_succ (i : Nat) : offset (i + 1) = offset i + 24 := Nat.mul_succ _ _

theorem offset_le (h : i ≤ j) : offset i ≤ offset j := Nat.mul_le_mul_left _ h

/-- Outside of its three numbers the copy is that of the `sockaddr`. -/
theorem copyAddr_load (h : q + n ≤ offset i + 16 ∨ offset i + 24 ≤ q) :
    load (copyAddr m i a) q n = load (store m (offset i) a.sockaddr) q n := by
  unfold copyAddr
  dsimp only
  rw [load_store_of_disjoint _ _ (by rw [encode_length]; omega),
    load_store_of_disjoint _ _ (by rw [encode_length]; omega),
    load_store_of_disjoint _ _ (by rw [encode_length]; omega)]

/-- Outside of the bytes written nothing changes. -/
theorem copyAddr_frame (h : q + n ≤ offset i ∨ offset i + max 24 a.sockaddr.length ≤ q) :
    load (copyAddr m i a) q n = load m q n := by
  rw [copyAddr_load (by omega), load_store_of_disjoint _ _ (by omega)]

theorem copyAddr_sockaddr (m : Memory) (i : Nat) (a : Addr) :
    load (copyAddr m i a) (offset i) 16 = a.sockaddr.take 16 := by
  have hlen := a.socklen_eq
  have h := load_store m (offset i) 0 16 a.sockaddr
  rw [Nat.add_zero, List.drop_zero, List.drop_eq_nil_of_le (by rw [load_length]; omega),
    List.append_nil] at h
  rw [copyAddr_load (by omega)]
  exact h

/-- What a longer address leaves in the next entry. -/
theorem copyAddr_excess (m : Memory) (i n : Nat) (a : Addr) :
    load (copyAddr m i a) (offset (i + 1)) n =
      (a.sockaddr.drop 24).take n ++
        (load m (offset (i + 1)) n).drop (a.sockaddr.drop 24).length := by
  have hoff := offset_succ i
  rw [copyAddr_load (by omega), hoff, load_store]

theorem copyAddr_socklen (m : Memory) (i : Nat) (a : Addr) :
    load (copyAddr m i a) (offset i + 16) 4 = encode 4 a.sockaddr.length := by
  unfold copyAddr
  dsimp only
  rw [load_store_of_disjoint _ _ (by omega), load_store_of_disjoint _ _ (by omega)]
  exact load_store_self _ _ (encode 4 a.sockaddr.length)

theorem copyAddr_priority (m : Memory) (i : Nat) (a : Addr) :
    load (copyAddr m i a) (offset i + 20) 2 = encode 2 a.priority := by
  unfold copyAddr
  dsimp only
  rw [load_store_of_disjoint _ _ (by omega)]
  exact load_store_self _ _ (encode 2 a.priority)

theorem copyAddr_weight (m : Memory) (i : Nat) (a : Addr) :
    load (copyAddr m i a) (offset i + 22) 2 = encode 2 a.weight :=
  load_store_self _ _ (encode 2 a.weight)

theorem slotAt_socklen (m : Memory) (i : Nat) (a : Addr) :
    (slotAt (copyAddr m i a) i).socklen = a.sockaddr.length := by
  show decode (load (copyAddr m i a) (offset i + 16) 4) = _
  rw [copyAddr_socklen]
  refine decode_encode ?_
  have := a.socklen_eq
  omega

/-- Reading an entry that the copy does not touch. -/
theorem slotAt_frame
    (h : offset j + 24 ≤ offset i ∨ offset i + max 24 a.sockaddr.length ≤ offset j) :
    slotAt (copyAddr m i a) j = slotAt m j := by
  unfold slotAt
  rw [copyAddr_frame (by omega), copyAddr_frame (by omega), copyAddr_frame (by omega),
    copyAddr_frame (by omega)]

/-- **Copies.**  Entry by entry the copy is the `storeAddr` of the machine. -/
theorem slotAt_copyAddr (m : Memory) (i : Nat) (hp : a.priority < 256 ^ 2)
    (hw : a.weight < 256 ^ 2) : slotAt (copyAddr m i a) = storeAddr (slotAt m) i a := by
  have hlen := a.socklen_eq
  funext j
  unfold storeAddr
  by_cases hj : j = i
  · subst hj
    rw [Function.update_self]
    refine Slot.mk.injEq .. |>.mpr ⟨copyAddr_sockaddr m j a, slotAt_socklen m j a, ?_, ?_⟩
    · rw [copyAddr_priority]
      exact decode_encode hp
    · rw [copyAddr_weight]
      exact decode_encode hw
  · rw [Function.update_of_ne hj]
    by_cases hnext : j = i + 1
    · subst hnext
      rw [Function.update_self]
      have hoff := offset_succ i
      have haddr := copyAddr_excess m i 16 a
      rw [List.take_of_length_le (by rw [List.length_drop]; omega)] at haddr
      unfold slotAt
      rw [haddr, copyAddr_frame (by omega), copyAddr_frame (by omega), copyAddr_frame (by omega)]
    · rw [Function.update_of_ne hnext]
      refine slotAt_frame ?_
      have hbefore : j < i → offset (j + 1) ≤ offset i := offset_le
      have hbehind : i + 1 < j → offset (i + 1 + 1) ≤ offset j := offset_le
      rw [offset_succ] at hbefore
      rw [offset_succ, offset_succ] at hbehind
      omega

/-- **IPv6.**  The copy of a longer address leaves its last bytes in front of the next entry
(or in `ctx`), and a handler reads the numbers in the middle of it. -/
theorem copyAddr_inet6 (m : Memory) (i : Nat) (h : a.sockaddr.length = 28) :
    readAddr (copyAddr m i a) i = a.sockaddr.take 16 ++ (encode 4 28 ++
      (encode 2 a.priority ++ (encode 2 a.weight ++ a.sockaddr.drop 24))) ∧
    load (copyAddr m i a) (offset (i + 1)) 4 = a.sockaddr.drop 24 := by
  have hdrop : (a.sockaddr.drop 24).length = 4 := by rw [List.length_drop, h]
  have hnext : load (copyAddr m i a) (offset (i + 1)) 4 = a.sockaddr.drop 24 := by
    rw [copyAddr_excess, hdrop, List.take_of_length_le (Nat.le_of_eq hdrop),
      List.drop_eq_nil_of_le (Nat.le_of_eq (load_length ..)), List.append_nil]
  refine ⟨?_, hnext⟩
  unfold readAddr
  rw [slotAt_socklen, h]
  calc load (copyAddr m i a) (offset i) 28
      = load (copyAddr m i a) (offset i) 16 ++ (load (copyAddr m i a) (offset i + 16) 4 ++
          (load (copyAddr m i a) (offset i + 20) 2 ++
            (load (copyAddr m i a) (offset i + 22) 2 ++
              load (copyAddr m i a) (offset i + 24) 4))) := by
        rw [← load_append _ (offset i + 22) 2 4, ← load_append _ (offset i + 20) 2 6,
          ← load_append _ (offset i + 16) 4 8, ← load_append _ (offset i) 16 12]
    _ = _ := by
        rw [copyAddr_sockaddr, copyAddr_socklen, copyAddr_priority, copyAddr_weight,
          ← offset_succ, hnext, h]

/-- A copy stays in its field if and only if the address is as long as that. -/
theorem fitted_iff (m : Memory) (hi : i < maxAddrs) :
    Fitted m i a ↔ a.sockaddr.length = 16 := by
  constructor
  · intro h
    have hfits : a.sockaddr.length ≤ 16 := h.fits
    have := a.socklen_eq
    omega
  · intro h
    refine ⟨Nat.le_of_eq h, ?_, fun j _ hj => ?_, ?_⟩
    · unfold readAddr
      rw [slotAt_socklen, copyAddr_load (by omega)]
      exact load_store_self _ _ _
    · apply copyAddr_frame
      have hbefore : j < i → offset (j + 1) ≤ offset i := offset_le
      have hbehind : i < j → offset (i + 1) ≤ offset j := offset_le
      rw [offset_succ] at hbefore hbehind
      have hsize : sizeofAddr = 24 := rfl
      omega
    · apply copyAddr_frame
      have hbehind : offset (i + 1) ≤ offset maxAddrs := offset_le hi
      rw [offset_succ] at hbehind
      omega

end

/-! ## Replies -/

/-- The entries of a record in memory. -/
def Image (x : Domain) (m : Memory) : Prop := ∀ j, j < maxAddrs → x.addrs j = slotAt m j

/-- **Refinement.**  When the machine stores an address, the memory changes by the copy. -/
theorem run_image {w w' : World η δ} {q : Query} {rep : List Addr} {i rand : Nat}
    {st : List Frame} {a : Addr} {m : Memory} (hstack : w.stack = .store q rep i :: st)
    (hlt : i < (w.conf.dom q.dom).naddrs) (ha : rep[i]? = some a) (hp : a.priority < 256 ^ 2)
    (hw : a.weight < 256 ^ 2) (hm : Image (w.conf.dom q.dom) m) (h : w.run rand = some w') :
    Image (w'.conf.dom q.dom) (copyAddr m i a) := by
  have haddrs : (w'.conf.dom q.dom).addrs = storeAddr (w.conf.dom q.dom).addrs i a := by
    unfold World.run at h
    rw [hstack] at h
    dsimp only at h
    rw [if_pos hlt, ha] at h
    cases h
    show ((w.conf.setDom q.dom _).dom q.dom).addrs = _
    rw [Conf.setDom_self]
  intro j hj
  rw [haddrs, slotAt_copyAddr m i hp hw]
  unfold storeAddr
  by_cases hji : j = i
  · rw [hji, Function.update_self, Function.update_self]
  · rw [Function.update_of_ne hji, Function.update_of_ne hji]
    by_cases hnext : j = i + 1
    · rw [← hnext, Function.update_self, Function.update_self, hm j hj]
    · rw [Function.update_of_ne hnext, Function.update_of_ne hnext, hm j hj]

/-- **Sizes.**  The address of a text fits a `struct sockaddr` if and only if the text is not
`Overlong`, and the addresses of a reply that are stored fit if and only if each of them is
as long as that of IPv4. -/
theorem addresses_fit {α β : Type} (core : ToolkitPton.Core α β)
    (sa : ToolkitPton.Sockaddr α β) :
    (∀ text, (ToolkitPton.sockPton core sa text).1 ≤ ToolkitPton.sizeofSockaddr ↔
      ¬ ToolkitPton.Overlong core text) ∧
    ∀ (m : Memory) (rep : List Addr),
      (∀ i a, i < maxAddrs → rep[i]? = some a → Fitted m i a) ↔
        ∀ a ∈ rep.take maxAddrs, a.sockaddr.length = 16 := by
  refine ⟨ToolkitPton.sockPton_fits core sa, fun m rep => ⟨fun h a ha => ?_, fun h i a hi ha => ?_⟩⟩
  · obtain ⟨i, hlt, hget⟩ := List.mem_iff_getElem.mp ha
    rw [List.length_take] at hlt
    have hi : i < maxAddrs := by omega
    refine (fitted_iff m hi).mp (h i a hi ?_)
    rw [← hget, List.getElem_take]
    exact List.getElem?_eq_getElem _
  · refine (fitted_iff m hi).mpr (h a ?_)
    refine List.mem_of_getElem? (i := i) ?_
    rw [List.getElem?_take_of_lt hi, ha]

/-- The `sockaddr_in6` of `::1` with port 80. -/
def loopback6 : Addr :=
  ⟨[10, 0, 0, 80, 0, 0, 0, 0, 0, 0, 0, 0, 0, 0, 0, 0, 0, 0, 0, 0, 0, 0, 0, 1, 0, 0, 0, 0], 0, 1,
    .inr rfl⟩

/-- `unix:/x` has 110 bytes, and behind a reply with an IPv6 address its entry reads otherwise. -/
theorem inet6_overwritten :
    ¬ (∀ text, (ToolkitPton.sockPton ToolkitPton.loopbackCore ToolkitPton.noSockaddr text).1 ≤
      ToolkitPton.sizeofSockaddr) ∧
    ¬ ∀ (m : Memory) (rep : List Addr) (i : Nat) (a : Addr),
      i < maxAddrs → rep[i]? = some a → Fitted m i a := by
  constructor
  · intro h
    exact absurd (h [117, 110, 105, 120, 58, 47, 120]) (by decide)
  · intro h
    have hentry := (h (fun _ => 0) [loopback6] 0 loopback6 (by decide) rfl).entry
    rw [(copyAddr_inet6 _ 0 rfl).1] at hentry
    exact absurd hentry (by decide)

end NgxToolkit.DynamicResolver
