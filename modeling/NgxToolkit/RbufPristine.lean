import Mathlib
import NgxToolkit.RbufBuffersRuns

/-! What a get leaves of the holders before (`ngx_rbuf.c`).

A new chain is zero but for what `ngx_get_chainbuf_debug` writes.  A recycled one
keeps `cl->buf` and every field of `cb->buf` that is not written again, so it is like
a new one as long as each holder has `Restored` these before the put.

* `Heap.reset_eq_iff`: which buffers a get makes as new.
* `reachIf_pristine`: the runs in which every get hands out a chain like a new one. -/

namespace NgxToolkit.Rbuf

open Lib

/-- The buffer header of a new chain. -/
def emptyBuf (cl size : Nat) : Buf :=
  { zeroBuf with
    pos := some ⟨cl, 0⟩
    last := some ⟨cl, 0⟩
    start := some ⟨cl, 0⟩
    bufEnd := some ⟨cl, size⟩
    memory := true }

/-- A chain of `size` bytes as a new one is handed out. -/
structure Pristine (s : State) (b : Heap) (cl size : Nat) : Prop where
  next : s.next cl = none
  allocated : s.size cl = size
  ptr : b.ptr cl = .inside cl
  buf : b.buf cl = emptyBuf cl size

/-- The fields that a get does not write. -/
def Buf.rest (b : Buf) : Buf :=
  { b with pos := none, last := none, start := none, bufEnd := none, memory := false }

/-- `cl->buf` is the chain's own buffer, and zero where a get does not write. -/
structure Restored (b : Heap) (cl : Nat) : Prop where
  ptr : b.ptr cl = .inside cl
  buf : (b.buf cl).rest = zeroBuf

section
variable (core : NgxMap.Rbtree) (hash : Nat → Nat)

/-- Every get that has the pool or creates it returns, and a chain that it hands out is like
a new one. -/
def HandsPristine (w : Users) : Prop :=
  ∀ size p0 p1 p2 file line, w.world.state.pool = true ∨ p0 = true → ∃ r,
    getChainbufDebug core hash w.world.state w.heap size p0 p1 p2 file line = some r ∧
    ∀ cl, r.1 = some cl → Pristine r.2.1 r.2.2 cl size

end

/-- Only chains that are held are put. -/
def HeldPuts (w : Users) : Call → Prop
  | .put k => k ∈ w.world.held
  | .putList k _ => ∃ l, Linked w.world.state.next (some (w.world.chain k)) l ∧
      ∀ cl ∈ l, cl ∈ w.world.chains
  | _ => True

/-- Only chains that are held and restored are put. -/
def PutsRestored (w : Users) : Call → Prop
  | .put k => k ∈ w.world.held ∧ Restored w.heap (w.world.chain k)
  | .putList k _ => ∃ l, Linked w.world.state.next (some (w.world.chain k)) l ∧
      ∀ cl ∈ l, cl ∈ w.world.chains ∧ Restored w.heap cl
  | _ => True

theorem Heap.reset_eq_iff (b : Heap) (cl size : Nat) (file : String) (line : Nat) :
    (b.reset cl size file line).buf cl = emptyBuf cl size ↔ (b.buf cl).rest = zeroBuf := by
  unfold Heap.reset emptyBuf Buf.rest zeroBuf
  simp only [Function.update_self, Buf.mk.injEq, true_and]

theorem Heap.reset_of_ne (b : Heap) {c cl : Nat} (hne : c ≠ cl) (size : Nat) (file : String)
    (line : Nat) : (b.reset cl size file line).buf c = b.buf c :=
  Function.update_of_ne hne _ _

theorem Heap.alloc_restored (b : Heap) (cl : Nat) : Restored (b.alloc cl) cl :=
  ⟨Function.update_self _ _ _, by
    show (Function.update b.buf cl zeroBuf cl).rest = zeroBuf
    rw [Function.update_self]
    rfl⟩

/-! ## The invariant -/

/-- The chains on the free lists `ls` are restored. -/
structure Clean (hash : Nat → Nat) (w : Users) (ls : Nat → List Nat) : Prop where
  stocked : Stocked hash w.world ls
  restored : ∀ cn, ∀ cl ∈ ls cn, Restored w.heap cl

section
variable {core : NgxMap.Rbtree} {hash : Nat → Nat} {w w' : Users} {ls : Nat → List Nat}

/-- The chain of a get is restored where it comes from. -/
theorem Comes.restored {w : World} {b b' : Heap} {cl : Nat} {s : State} {ls' : Nat → List Nat}
    (h : Comes w ls b cl s b' ls') (hb : ∀ cn, ∀ cl ∈ ls cn, Restored b cl) : Restored b' cl := by
  cases h with
  | @recycled cn l hl hn =>
    refine hb cn cl ?_
    rw [hl]
    exact List.mem_cons_self
  | fresh hcl hn => exact b.alloc_restored cl

theorem Comes.buf_eq {w : World} {b b' : Heap} {cl : Nat} {s : State} {ls' : Nat → List Nat}
    (h : Comes w ls b cl s b' ls') {c : Nat} (hne : c ≠ cl) : b'.buf c = b.buf c := by
  cases h with
  | recycled hl hn => rfl
  | fresh hcl hn => exact Function.update_of_ne hne _ _

variable (core) in
theorem Clean.get (h : Clean hash w ls) (size : Nat) {p0 : Bool}
    (hp0 : w.world.state.pool = true ∨ p0 = true) (p1 p2 : Bool) (file : String) (line : Nat) :
    ∃ r ls', getChainbufDebug core hash w.world.state w.heap size p0 p1 p2 file line = some r ∧
      Clean hash ⟨w.world.got (r.1, r.2.1), r.2.2⟩ ls' ∧
      ∀ cl, r.1 = some cl → Pristine r.2.1 r.2.2 cl size := by
  rcases h.stocked.get core w.heap size hp0 p1 p2 file line with
    ⟨s, heq, -, -, h'⟩ | ⟨cl, s, b', ls', heq, hcomes, -, hnext, hsz, h'⟩
  · exact ⟨_, ls, heq, ⟨h', h.restored⟩, fun cl hcl => (by cases hcl)⟩
  · have hcl := hcomes.restored h.restored
    refine ⟨_, ls', heq, ⟨h', fun cn c hc => ?_⟩, fun c hc => ?_⟩
    · have hne : c ≠ cl := by
        rintro rfl
        exact (h'.off_got h.stocked.inv.held_lt).2 cn hc
      have hold := h.restored cn c (hcomes.sub hc)
      refine ⟨(hcomes.ptr_eq hne).trans hold.ptr, ?_⟩
      show ((b'.reset cl size file line).buf c).rest = zeroBuf
      rw [Heap.reset_of_ne b' hne, hcomes.buf_eq hne]
      exact hold.buf
    · cases hc
      exact ⟨hnext, hsz, hcl.ptr, (Heap.reset_eq_iff b' _ _ _ _).mpr hcl.buf⟩

/-- The holder of a chain writes it. -/
theorem Clean.write (h : Clean hash w ls) {k : Nat} (hk : k ∈ w.world.held) (ptr : BufPtr)
    (buf : Buf) : Clean hash { w with heap := { w.heap with
      ptr := Function.update w.heap.ptr (w.world.chain k) ptr
      buf := Function.update w.heap.buf (w.world.chain k) buf } } ls := by
  refine ⟨h.stocked, fun cn cl hcl => ?_⟩
  have hne : cl ≠ w.world.chain k := by
    rintro rfl
    exact (h.stocked.inv.pool.off _ (List.mem_map_of_mem hk)).2 cn hcl
  have hold := h.restored cn cl hcl
  refine ⟨(Function.update_of_ne hne _ _).trans hold.ptr, ?_⟩
  show (Function.update w.heap.buf _ buf cl).rest = zeroBuf
  rw [Function.update_of_ne hne]
  exact hold.buf

theorem Clean.step (h : Clean hash w ls) {i : Call} (hok : PutsRestored w i)
    (hst : w.step core hash i = some w') : ∃ ls', Clean hash w' ls' := by
  cases Users.steps_of_step core hash hst with
  | @get size p0 p1 p2 file line r hget =>
    obtain ⟨r', ls', hget', h', -⟩ := h.get core size (pool_of_getDebug hget) p1 p2 file line
    obtain rfl : r = r' := Option.some.inj (hget.symm.trans hget')
    exact ⟨ls', h'⟩
  | put =>
    obtain ⟨cn, h', -⟩ := h.stocked.put core hok.1
    refine ⟨_, h', fun i cl hcl => ?_⟩
    by_cases hi : i = cn
    · subst hi
      rw [Function.update_self] at hcl
      rcases List.mem_cons.mp hcl with rfl | hcl
      · exact hok.2
      · exact h.restored i cl hcl
    · rw [Function.update_of_ne hi] at hcl
      exact h.restored i cl hcl
  | putNull =>
    rw [putChainbuf_null]
    exact ⟨ls, h⟩
  | @putList k fuel r hr =>
    obtain ⟨l, hl, hheld⟩ := hok
    obtain ⟨s, hput, h', -⟩ := h.stocked.putList core (max fuel l.length) hl
      (fun cl hcl => (hheld cl hcl).1) (Nat.le_max_right _ _)
    rw [putChainbufs_mono hr (Nat.le_max_left _ _), Option.some.injEq] at hput
    rw [hput]
    refine ⟨_, h', fun i cl hcl => ?_⟩
    rcases mem_pushed hcl with hcl | hcl
    · exact (hheld cl hcl).2
    · exact h.restored i cl hcl
  | @link k next hk =>
    exact ⟨ls, ⟨h.stocked.inv.link hk next, h.stocked.sized⟩, h.restored⟩
  | write hk => exact ⟨ls, h.write hk _ _⟩

end

/-- **Recycled as new.**  In every run in which each chain is put by its holder, and
restored before that, every get hands out a chain like a new one, recycled or not. -/
theorem reachIf_pristine (core : NgxMap.Rbtree) (hash : Nat → Nat) (w : Users)
    (hr : (users core hash).ReachIf PutsRestored w) : HandsPristine core hash w := by
  obtain ⟨ls, h⟩ := hr.invariant (P := fun w => ∃ ls, Clean hash w ls)
    ⟨_, (holds_start core hash).stocked, fun _ _ hc => (by cases hc)⟩
    fun _ _ _ _ ⟨_, h⟩ hok hst => h.step hok hst
  intro size p0 p1 p2 file line hp0
  obtain ⟨r, ls', hget, -, hp⟩ := h.get core size hp0 p1 p2 file line
  exact ⟨r, hget, hp⟩

/-- A holder points `cl->buf` elsewhere, sets it back, clears the flags and puts the
chain. -/
theorem reachIf_pristine_recycled : ∃ w : Users,
    (users NgxMap.flatRbtree id).run (users NgxMap.flatRbtree id).start
      [.get 10 true true true "a.c" 1, .write 0 (.outside 7) { zeroBuf with lastBuf := true },
        .write 0 (.inside 0) { zeroBuf with pos := some ⟨0, 4⟩ }, .put 0] = some w ∧
      HandsPristine NgxMap.flatRbtree id w := by
  have hok : (users NgxMap.flatRbtree id).Meets PutsRestored (users NgxMap.flatRbtree id).start
      [.get 10 true true true "a.c" 1, .write 0 (.outside 7) { zeroBuf with lastBuf := true },
        .write 0 (.inside 0) { zeroBuf with pos := some ⟨0, 4⟩ }, .put 0] := by
    refine .cons trivial rfl (.cons trivial rfl (.cons trivial rfl (.cons ?_ rfl trivial)))
    exact ⟨List.mem_cons_self, rfl, rfl⟩
  exact ⟨_, rfl, reachIf_pristine _ _ _ (Machine.ReachIf.start.of_meets hok rfl)⟩

/-- A holder sets `last_buf` and puts the chain: the next one gets it set. -/
theorem last_buf_kept : ¬ ∀ (core : NgxMap.Rbtree) (hash : Nat → Nat) (w : Users),
    (users core hash).ReachIf HeldPuts w → HandsPristine core hash w := by
  intro hall
  have hok : (users NgxMap.flatRbtree id).Meets HeldPuts (users NgxMap.flatRbtree id).start
      [.get 10 true true true "a.c" 1, .write 0 (.inside 0) { zeroBuf with lastBuf := true },
        .put 0] :=
    .cons trivial rfl (.cons trivial rfl (.cons List.mem_cons_self rfl trivial))
  obtain ⟨r, hget, hp⟩ := hall _ _ _ (Machine.ReachIf.start.of_meets hok rfl) 10 true true true
    "b.c" 2 (.inr rfl)
  cases hget
  have hbuf := (hp 0 rfl).buf
  revert hbuf
  decide

end NgxToolkit.Rbuf
