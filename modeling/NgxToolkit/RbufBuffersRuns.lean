import Mathlib
import NgxToolkit.RbufBuffers

/-! Runs of the chain buffers.

`Stocked` adds to the invariant of the free lists that their chains have the size of
the node, and `Holds` that every chain points to its own buffer.  Gets, puts and puts
of lists keep them. -/

namespace NgxToolkit.Rbuf

open Lib

/-- The chains of the free lists `ls` have the sizes of their nodes. -/
def Sized (hash : Nat → Nat) (s : State) (ls : Nat → List Nat) : Prop :=
  ∀ cn, ∀ cl ∈ ls cn, NgxMap.find hash compare s.rbufMap (s.size cl) = some cn

/-- The free lists `ls` are in order, and each is of one size. -/
structure Stocked (hash : Nat → Nat) (w : World) (ls : Nat → List Nat) : Prop where
  inv : Inv hash w ls
  sized : Sized hash w.state ls

/-- Where the chain `cl` of a get comes from, with the heap in which it is made empty
and the free lists that are left. -/
inductive Comes (w : World) (ls : Nat → List Nat) (b : Heap) (cl : Nat) (s : State) :
    Heap → (Nat → List Nat) → Prop where
  | recycled {cn : Nat} {l : List Nat} (hl : ls cn = cl :: l)
      (hn : s.nallocChain = w.state.nallocChain) : Comes w ls b cl s b (Function.update ls cn l)
  | fresh (hcl : cl = w.state.nallocChain) (hn : s.nallocChain = w.state.nallocChain + 1) :
      Comes w ls b cl s (b.alloc cl) ls

structure Holds (hash : Nat → Nat) (w : Users) (ls : Nat → List Nat) : Prop where
  inv : Inv hash w.world ls
  sized : Sized hash w.world.state ls
  own : ∀ cl < w.world.state.nallocChain, w.heap.ptr cl = .inside cl

section
variable {core : NgxMap.Rbtree} {hash : Nat → Nat} {w w' : Users} {ls : Nat → List Nat}

/-- The size of a node is the one it is found under. -/
theorem SizeMap.inj {s : State} (hs : SizeMap hash s) {k k' cn : Nat}
    (h : NgxMap.find hash compare s.rbufMap k = some cn)
    (h' : NgxMap.find hash compare s.rbufMap k' = some cn) : k = k' := by
  have hk := ((NgxMap.find_eq_some hs.sorted).mp h).2
  have hk' := ((NgxMap.find_eq_some hs.sorted).mp h').2
  rw [NgxMap.keyCmp_eq] at hk hk'
  rw [hk, hk']

/-! ## Gets -/

theorem getNode_ne_none {s s' : State} {size : Nat} :
    getNode core hash s size true ≠ some (none, s') := by
  unfold getNode
  split
  · simp
  · rw [if_pos rfl]
    intro h
    obtain ⟨rbufMap, -, hr⟩ := Option.map_eq_some_iff.mp h
    cases hr

theorem getChain_ne_none {s s' : State} {cn size : Nat} :
    getChain s cn size true ≠ (none, s') := by
  unfold getChain
  split <;> simp

/-- A node that is new changes nothing for the chains that are free. -/
theorem Sized.kept {s s' : State} (h : Sized hash s ls) (hsize : s'.size = s.size)
    (hkeep : ∀ k cn, NgxMap.find hash compare s.rbufMap k = some cn →
      NgxMap.find hash compare s'.rbufMap k = some cn) : Sized hash s' ls := by
  intro cn cl hcl
  rw [hsize]
  exact hkeep _ _ (h cn cl hcl)

/-- A chain is taken off its free list, or allocated: the others keep their sizes. -/
theorem Took.sized {w : World} {size cn cl : Nat} {s : State} {ls' : Nat → List Nat}
    (ht : Took w ls size cn cl s ls') (hw : Inv hash w ls) (h : Sized hash w.state ls) :
    Sized hash s ls' := by
  obtain ⟨-, -, hmap, ⟨-, ⟨l, hl, rfl⟩, hsize, -⟩ | ⟨-, rfl, rfl, hsize, -⟩⟩ := ht
  · intro i c hc
    rw [hmap, hsize]
    exact h i c (mem_update_of_sub (fun b hb => by rw [hl]; exact List.mem_cons_of_mem _ hb) hc)
  · intro i c hc
    have hne : c ≠ w.state.nallocChain := Nat.ne_of_lt (hw.pool.lt i c hc)
    rw [hmap, hsize, Function.update_of_ne hne]
    exact h i c hc

/-- The chain that a get takes has the size that was asked for. -/
theorem Took.size {w : World} {size cn cl : Nat} {s : State} {ls' : Nat → List Nat}
    (ht : Took w ls size cn cl s ls') (hw : Inv hash w ls) (h : Sized hash w.state ls)
    (hcn : NgxMap.find hash compare w.state.rbufMap size = some cn) : s.size cl = size := by
  obtain ⟨-, -, -, ⟨-, ⟨l, hl, -⟩, hsize, -⟩ | ⟨-, -, -, hsize, -⟩⟩ := ht
  · have hcl : cl ∈ ls cn := by
      rw [hl]
      exact List.mem_cons_self
    rw [hsize]
    exact hw.sizes.inj (h cn cl hcl) hcn
  · rw [hsize, Function.update_self]

/-- The free lists that are left have chains of the old ones only. -/
theorem Comes.sub {w : World} {b b' : Heap} {cl : Nat} {s : State} {ls' : Nat → List Nat}
    (h : Comes w ls b cl s b' ls') {i c : Nat} (hc : c ∈ ls' i) : c ∈ ls i := by
  cases h with
  | recycled hl hn =>
    refine mem_update_of_sub (fun a ha => ?_) hc
    rw [hl]
    exact List.mem_cons_of_mem _ ha
  | fresh hcl hn => exact hc

/-- The chains that were handed out before are as they were. -/
theorem Comes.ptr_eq {w : World} {b b' : Heap} {cl : Nat} {s : State} {ls' : Nat → List Nat}
    (h : Comes w ls b cl s b' ls') {c : Nat} (hne : c ≠ cl) : b'.ptr c = b.ptr c := by
  cases h with
  | recycled hl hn => rfl
  | fresh hcl hn => exact Function.update_of_ne hne _ _

theorem Holds.stocked (h : Holds hash w ls) : Stocked hash w.world ls := ⟨h.inv, h.sized⟩

/-- A get that returns has found the pool, or created it. -/
theorem pool_of_getDebug {s : State} {b : Heap} {size : Nat} {p0 p1 p2 : Bool} {file : String}
    {line : Nat} {r : Option Nat × State × Heap}
    (hget : getChainbufDebug core hash s b size p0 p1 p2 file line = some r) :
    s.pool = true ∨ p0 = true := by
  have hmap := getChainbufDebug_map core hash s b size p0 p1 p2 file line
  rw [hget, Option.map_some] at hmap
  exact initialised_pool.mp (pool_of_get hmap.symm)

variable (core) in
/-- What a get does: it returns `NULL` and changes no chain, or hands out one that
nobody holds. -/
theorem Stocked.get {w : World} (h : Stocked hash w ls) (b : Heap) (size : Nat) {p0 : Bool}
    (hp0 : w.state.pool = true ∨ p0 = true) (p1 p2 : Bool) (file : String) (line : Nat) :
    (∃ s, getChainbufDebug core hash w.state b size p0 p1 p2 file line = some (none, s, b) ∧
      (p1 = true → p2 ≠ true) ∧ s.nallocChain = w.state.nallocChain ∧
      Stocked hash { w with state := s } ls) ∨
    ∃ cl s b' ls', getChainbufDebug core hash w.state b size p0 p1 p2 file line =
        some (some cl, s, b'.reset cl size file line) ∧
      Comes w ls b cl s b' ls' ∧ cl ∉ w.chains ∧ s.next cl = none ∧ s.size cl = size ∧
      Stocked hash (w.got (some cl, s)) ls' := by
  have hpool := initialised_pool.mpr hp0
  unfold getChainbufDebug
  dsimp only
  obtain ⟨r1, s1, hn, hw1, hsize, hchain, hkeep, hsome⟩ := h.inv.node core hpool size p1
  have hsized1 : Sized hash s1 ls := h.sized.kept hsize hkeep
  rw [if_pos hpool, hn]
  cases r1 with
  | none =>
    have hp1 : p1 ≠ true := by
      rintro rfl
      exact getNode_ne_none hn
    exact .inl ⟨s1, rfl, fun hp => absurd hp hp1, hchain, hw1, hsized1⟩
  | some cn =>
    obtain ⟨hpool, hcn⟩ := hsome cn rfl
    dsimp only
    rcases hw1.getChain core hpool hcn p2 with hc | ⟨cl, s2, s3, ls', hc, hrec, hinv, htook⟩
    · have hc' : getChain s1 cn size p2 = (none, s1) := hc
      have hp2 : p2 ≠ true := by
        rintro rfl
        exact getChain_ne_none hc'
      rw [hc']
      exact .inl ⟨s1, rfl, fun _ => hp2, hchain, hw1, hsized1⟩
    · have hc' : getChain s1 cn size p2 = (some cl, s2) := hc
      have hsz : s3.size cl = size := htook.size hw1 hsized1 hcn
      have hsized3 : Sized hash s3 ls' := htook.sized hw1 hsized1
      rw [hc']
      dsimp only
      rw [hrec]
      refine .inr ⟨cl, s3, _, ls', rfl, ?_, htook.1, htook.2.1, hsz, hinv, hsized3⟩
      obtain ⟨-, -, -, ⟨hf, ⟨l, hl, rfl⟩, -, hna⟩ | ⟨hf, hcl, rfl, -, hna⟩⟩ := htook
      · rw [if_neg (by rw [hf]; simp)]
        exact .recycled hl (hna.trans hchain)
      · rw [if_pos hf]
        exact .fresh (hcl.trans hchain) (hna.trans (congrArg (· + 1) hchain))

/-- A chain that is handed out is held from then on. -/
theorem Stocked.off_got {w : World} {s : State} {cl : Nat}
    (h : Stocked hash (w.got (some cl, s)) ls) (hlt : ∀ k ∈ w.held, k < w.gets.length) : cl < s.nallocChain ∧ ∀ i, cl ∉ ls i := by
  refine h.inv.pool.off cl ?_
  rw [World.got, chains_get hlt]
  exact List.mem_cons_self

variable (core) in
/-- What a get does to the chains and to the buffer of the one it hands out. -/
theorem Holds.get (h : Holds hash w ls) (size : Nat) {p0 : Bool}
    (hp0 : w.world.state.pool = true ∨ p0 = true) (p1 p2 : Bool) (file : String) (line : Nat) :
    ∃ r ls', getChainbufDebug core hash w.world.state w.heap size p0 p1 p2 file line = some r ∧
      Holds hash ⟨w.world.got (r.1, r.2.1), r.2.2⟩ ls' ∧
      (p1 = true → p2 = true → r.1 ≠ none) ∧
      ∀ cl, r.1 = some cl → cl ∉ w.world.chains ∧ Empty r.2.1 r.2.2 cl size := by
  rcases h.stocked.get core w.heap size hp0 p1 p2 file line with
    ⟨s, heq, hp, hna, h'⟩ | ⟨cl, s, b', ls', heq, hcomes, hcl, hnext, hsz, h'⟩
  · refine ⟨_, ls, heq, ⟨h'.inv, h'.sized, fun c hc => h.own c (hna ▸ hc)⟩,
      fun h1 h2 => absurd h2 (hp h1), fun cl hcl => (by cases hcl)⟩
  · have hown : b'.ptr cl = .inside cl := by
      cases hcomes with
      | recycled hl hn => exact h.own cl (hn ▸ (h'.off_got h.inv.held_lt).1)
      | fresh hc hn => exact Function.update_self _ _ _
    refine ⟨_, ls', heq, ⟨h'.inv, h'.sized, fun c hc => ?_⟩, fun _ _ => by simp, fun c hc => ?_⟩
    · show b'.ptr c = .inside c
      by_cases hne : c = cl
      · rw [hne, hown]
      · rw [hcomes.ptr_eq hne]
        refine h.own c ?_
        cases hcomes with
        | recycled hl hn => exact hn ▸ hc
        | fresh he hn =>
          have hlt : c < w.world.state.nallocChain + 1 := hn ▸ hc
          omega
    · cases hc
      refine ⟨hcl, hnext, hsz, hown, ?_, ?_, ?_, ?_, ?_⟩
      all_goals simp [Heap.reset]

/-! ## Puts -/

variable (core) in
/-- A chain that is held goes to the free list of its size. -/
theorem Stocked.put {w : World} (h : Stocked hash w ls) {k : Nat} (hk : k ∈ w.held) :
    ∃ cn, Stocked hash { w with
        state := putChainbuf core hash w.state (some (w.chain k)), held := w.held.erase k }
        (Function.update ls cn (w.chain k :: ls cn)) ∧
      NgxMap.find hash compare w.state.rbufMap (w.state.size (w.chain k)) = some cn ∧
      (putChainbuf core hash w.state (some (w.chain k))).nfreeChain = w.state.nfreeChain + 1 ∧
      (putChainbuf core hash w.state (some (w.chain k))).nallocChain = w.state.nallocChain ∧
      (putChainbuf core hash w.state (some (w.chain k))).next =
        Function.update w.state.next (w.chain k) (w.state.free cn) ∧
      (putChainbuf core hash w.state (some (w.chain k))).rbufMap = w.state.rbufMap ∧
      (putChainbuf core hash w.state (some (w.chain k))).size = w.state.size := by
  obtain ⟨cn, used, hcn, hput, hinv⟩ := h.inv.put core hk
  refine ⟨cn, ⟨hinv, ?_⟩, hcn, by rw [hput], by rw [hput], by rw [hput], by rw [hput], by rw [hput]⟩
  rw [hput]
  intro i cl hcl
  by_cases hi : i = cn
  · subst hi
    rw [Function.update_self] at hcl
    rcases List.mem_cons.mp hcl with rfl | hcl
    · exact hcn
    · exact h.sized i cl hcl
  · rw [Function.update_of_ne hi] at hcl
    exact h.sized i cl hcl

/-- The gets whose chains are on a list, without the first one. -/
theorem Inv.filter_held {w : World} (hw : Inv hash w ls) {k : Nat} (hk : k ∈ w.held)
    (l : List Nat) : (w.held.filter fun j => w.chain j ∉ w.chain k :: l) =
      (w.held.erase k).filter fun j => w.chain j ∉ l := by
  rw [hw.held_nodup.erase_eq_filter, List.filter_filter]
  refine List.filter_congr fun j hj => Bool.eq_iff_iff.mpr ?_
  simp only [decide_eq_true_eq, Bool.and_eq_true, bne_iff_ne, List.mem_cons, not_or]
  rw [and_comm]
  refine and_congr_right fun _ => not_congr ⟨fun he => ?_, fun he => by rw [he]⟩
  exact List.inj_on_of_nodup_map hw.pool.nodup hj hk he

theorem putChainbufs_mono {fuel fuel' : Nat} {s : State} {p : Option Nat} {r : List Nat × State}
    (h : putChainbufs core hash fuel s p = some r) (hle : fuel ≤ fuel') :
    putChainbufs core hash fuel' s p = some r := by
  induction fuel generalizing fuel' s p r with
  | zero =>
    cases p with
    | none =>
      rw [← h]
      cases fuel' <;> rfl
    | some l => cases h
  | succ fuel ih =>
    obtain ⟨fuel', rfl⟩ : ∃ n, fuel' = n + 1 := ⟨fuel' - 1, by omega⟩
    cases p with
    | none => exact h
    | some l =>
      rw [putChainbufs] at h ⊢
      obtain ⟨r1, hr, rfl⟩ := Option.map_eq_some_iff.mp h
      rw [ih hr (by omega)]
      rfl

/-- The first chain of a list goes in front of the list of its size, the others follow. -/
theorem pushed_cons {s s' : State} (hmap : s'.rbufMap = s.rbufMap) (hsize : s'.size = s.size)
    {cl cn : Nat} (hcn : NgxMap.find hash compare s.rbufMap (s.size cl) = some cn) (l : List Nat) :
    pushed hash s' l (Function.update ls cn (cl :: ls cn)) = pushed hash s (cl :: l) ls := by
  funext i
  unfold pushed
  rw [hmap, hsize]
  by_cases hi : i = cn
  · subst hi
    rw [List.filter_cons_of_pos (by simpa using hcn), List.reverse_cons, List.append_assoc,
      Function.update_self]
    rfl
  · have hne : ¬ NgxMap.find hash compare s.rbufMap (s.size cl) = some i := by
      rw [hcn]
      exact fun he => hi (Option.some.inj he).symm
    rw [List.filter_cons_of_neg (by simpa using hne), Function.update_of_ne hi]

theorem mem_pushed {s : State} {l : List Nat} {i cl : Nat} (h : cl ∈ pushed hash s l ls i) :
    cl ∈ l ∨ cl ∈ ls i := by
  rcases List.mem_append.mp h with h | h
  · exact .inl (List.mem_of_mem_filter (List.mem_reverse.mp h))
  · exact .inr h

variable (core) in
/-- **Lists.**  A list of chains that are held is put, chain by chain. -/
theorem Stocked.putList {w : World} {l : List Nat} {p : Option Nat} (fuel : Nat)
    (h : Stocked hash w ls) (hl : Linked w.state.next p l) (hheld : ∀ cl ∈ l, cl ∈ w.chains)
    (hf : l.length ≤ fuel) :
    ∃ s, putChainbufs core hash fuel w.state p = some (l, s) ∧
      Stocked hash (w.returned l s) (pushed hash w.state l ls) ∧
      s.nfreeChain = w.state.nfreeChain + l.length ∧ s.nallocChain = w.state.nallocChain ∧
      s.rbufMap = w.state.rbufMap ∧ s.size = w.state.size := by
  induction l generalizing w ls p fuel with
  | nil =>
    obtain rfl : p = none := hl
    have hall : (w.held.filter fun j => w.chain j ∉ ([] : List Nat)) = w.held :=
      List.filter_eq_self.mpr fun _ _ => by simp
    refine ⟨w.state, by cases fuel <;> rfl, ?_, rfl, rfl, rfl, rfl⟩
    unfold World.returned
    rw [hall]
    exact h
  | cons cl l ih =>
    have hnd := hl.nodup
    obtain ⟨rfl, hl⟩ := hl
    obtain ⟨k, hk, rfl⟩ := List.mem_map.mp (hheld cl List.mem_cons_self)
    have hcl : w.chain k ∉ l := (List.nodup_cons.mp hnd).1
    rw [List.length_cons] at hf
    obtain ⟨fuel, rfl⟩ : ∃ n, fuel = n + 1 := ⟨fuel - 1, by omega⟩
    obtain ⟨cn, h1, hcn, hn1, hna1, hnext, hmap1, hsize1⟩ := h.put core hk
    have hrest : ∀ c ∈ l, c ∈ (w.held.erase k).map w.chain := by
      intro c hc
      obtain ⟨j, hj, rfl⟩ := List.mem_map.mp (hheld c (List.mem_cons_of_mem _ hc))
      have hjk : j ≠ k := fun e => hcl (e ▸ hc)
      exact List.mem_map_of_mem ((List.mem_erase_of_ne hjk).mpr hj)
    obtain ⟨s, hput, h2, hn2, hna2, hmap2, hsize2⟩ := ih fuel h1 (by
      show Linked (putChainbuf core hash w.state (some (w.chain k))).next _ l
      rw [hnext]
      exact hl.update hcl) hrest (by omega)
    refine ⟨s, ?_, ?_, ?_, hna2.trans hna1, hmap2.trans hmap1, hsize2.trans hsize1⟩
    · rw [putChainbufs]
      dsimp only at hput ⊢
      rw [hput]
      rfl
    · unfold World.returned
      rw [h.inv.filter_held hk, ← pushed_cons hmap1 hsize1 hcn]
      exact h2
    · rw [hn2, List.length_cons]
      show (putChainbuf core hash w.state (some (w.chain k))).nfreeChain + _ = _
      rw [hn1]
      omega

/-! ## Runs -/

/-- The map of the used chains holds the chains that are held. -/
theorem Inv.used_perm {w : World} (hw : Inv hash w ls) : w.state.used.linked.Perm w.chains := by
  refine (List.perm_ext_iff_of_nodup hw.used.nodup hw.pool.nodup).mpr fun cl => ⟨fun hm => ?_, ?_⟩
  · by_contra hcl
    exact hw.not_used hcl hm
  · intro hm
    have hf := hw.usedFind cl
    rw [if_pos hm] at hf
    exact ((NgxMap.find_eq_some hw.used).mp hf).1

theorem Stocked.freeLists {w : World} (h : Stocked hash w ls) : FreeLists hash w ls where
  chains := h.inv.pool.chains
  nodes := h.inv.fresh
  sized cn cl hcl _ :=
    ⟨fun hs => h.inv.sizes.inj (h.sized cn cl hcl) hs, fun hs => hs ▸ h.sized cn cl hcl⟩
  free cn cl hcl hm := (h.inv.pool.off cl hm).2 cn hcl
  nfree := h.inv.nfree

/-- The links leave no choice of the free lists. -/
theorem FreeLists.unique {w : World} {ls' : Nat → List Nat} (h : FreeLists hash w ls)
    (h' : FreeLists hash w ls') : ls = ls' :=
  funext fun cn => (h.chains.linked cn).unique (h'.chains.linked cn)

/-- A chain that is put is on the list of the node that its size has. -/
theorem mem_pushed_self {w : World} (hw : Inv hash w ls) {l : List Nat} {cl : Nat} (hcl : cl ∈ l)
    (hheld : cl ∈ w.chains) :
    ∃ cn, NgxMap.find hash compare w.state.rbufMap (w.state.size cl) = some cn ∧
      cl ∈ pushed hash w.state l ls cn := by
  obtain ⟨cn, hcn⟩ := hw.sizes.sized cl (hw.pool.off cl hheld).1
  refine ⟨cn, hcn, List.mem_append_left _ (List.mem_reverse.mpr ?_)⟩
  exact List.mem_filter.mpr ⟨hcl, decide_eq_true hcn⟩

/-- The chains that are held after some of them were put. -/
theorem World.mem_returned {w : World} {l : List Nat} {s : State} {cl : Nat} :
    cl ∈ (w.returned l s).chains ↔ cl ∈ w.chains ∧ cl ∉ l := by
  show cl ∈ (w.held.filter fun j => w.chain j ∉ l).map w.chain ↔ _
  unfold World.chains
  simp only [List.mem_map, List.mem_filter, decide_eq_true_eq]
  constructor
  · rintro ⟨j, ⟨hj, hjl⟩, rfl⟩
    exact ⟨⟨j, hj, rfl⟩, hjl⟩
  · rintro ⟨⟨j, hj, rfl⟩, hjl⟩
    exact ⟨j, ⟨hj, hjl⟩, rfl⟩

theorem Holds.serves (core : NgxMap.Rbtree) (h : Holds hash w ls) : Serves core hash w := by
  have hcount := h.inv.count
  have hlen : w.world.chains.length = w.world.held.length := List.length_map _
  refine ⟨⟨ls, h.stocked.freeLists⟩, fun size p0 p1 p2 file line hp0 => ?_, h.inv.usedFind,
    h.inv.used_perm, ⟨by omega, by omega⟩, fun p l hl hheld ls' hls' fuel hf => ?_,
    fun fuel hf detail => ?_⟩
  · obtain ⟨r, ls', hget, -, hsome, hempty⟩ := h.get core size hp0 p1 p2 file line
    exact ⟨r, hget, hsome, hempty⟩
  · obtain rfl := h.stocked.freeLists.unique hls'
    obtain ⟨s, hput, h', hn, -, hmap, hsize⟩ := h.stocked.putList core fuel hl hheld hf
    refine ⟨s, hput, h'.freeLists, fun cl hcl => ?_, hsize, hn, fun cl => ?_⟩
    · rw [hmap, hsize]
      exact mem_pushed_self h.inv hcl (hheld cl hcl)
    · exact (h'.inv.usedFind cl).trans (if_congr World.mem_returned rfl rfl)
  · have hlinked : w.world.state.used.linked.length = w.world.held.length := by
      rw [h.inv.used_perm.length_eq, hlen]
    obtain ⟨b, hb, hlines, hfit, -⟩ := debugState_spec _ _ _ h.inv.used.nodup
      (n := w.world.state.nallocChain - w.world.state.nfreeChain) (by omega) hf detail
    exact ⟨b, hb, hlines, hfit⟩

theorem Holds.step (h : Holds hash w ls) {i : Call} (hok : HeldOnly w i)
    (hst : w.step core hash i = some w') : ∃ ls', Holds hash w' ls' := by
  cases Users.steps_of_step core hash hst with
  | @get size p0 p1 p2 file line r hget =>
    obtain ⟨r', ls', hget', h', -⟩ := h.get core size (pool_of_getDebug hget) p1 p2 file line
    obtain rfl : r = r' := Option.some.inj (hget.symm.trans hget')
    exact ⟨ls', h'⟩
  | put =>
    obtain ⟨cn, h', -, -, hna, -⟩ := h.stocked.put core hok
    exact ⟨_, h'.inv, h'.sized, fun cl hcl => h.own cl (hna ▸ hcl)⟩
  | putNull =>
    rw [putChainbuf_null]
    exact ⟨ls, h⟩
  | @putList k fuel r hr =>
    obtain ⟨l, hl, hheld⟩ := hok
    obtain ⟨s, hput, h', -, hna, -⟩ := h.stocked.putList core (max fuel l.length) hl hheld
      (Nat.le_max_right _ _)
    rw [putChainbufs_mono hr (Nat.le_max_left _ _), Option.some.injEq] at hput
    rw [hput]
    exact ⟨_, h'.inv, h'.sized, fun cl hcl => h.own cl (hna ▸ hcl)⟩
  | @link k next hk => exact ⟨ls, h.inv.link hk next, h.sized, h.own⟩
  | @write k ptr =>
    refine ⟨ls, h.inv, h.sized, fun cl hcl => ?_⟩
    show Function.update w.heap.ptr (w.world.chain k) ptr cl = _
    by_cases he : cl = w.world.chain k
    · rw [he, Function.update_self]
      exact hok
    · rw [Function.update_of_ne he]
      exact h.own cl hcl

end

theorem holds_start (core : NgxMap.Rbtree) (hash : Nat → Nat) :
    Holds hash (users core hash).start fun _ => [] :=
  ⟨inv_start core, fun _ _ h => (by cases h), fun _ h => (by cases h)⟩

/-- **Gets and puts.**  In every run in which only chains that are held are put, the
free lists are of one size each and count as `ngx_rbuf_nfree_chain` says, a get hands
out an empty buffer of its size that nobody holds, the map of the used chains and the
counters tell which chains are held, a put of a list ends with its chains on the free
lists of their sizes, and the status is no longer than its buffer. -/
theorem reachIf_serves (core : NgxMap.Rbtree) (hash : Nat → Nat) (w : Users)
    (hr : (users core hash).ReachIf HeldOnly w) : Serves core hash w := by
  obtain ⟨ls, h⟩ := hr.invariant (P := fun w => ∃ ls, Holds hash w ls)
    ⟨_, holds_start core hash⟩ fun _ _ _ _ ⟨_, h⟩ hok hst => h.step hok hst
  exact h.serves core

/-- Two chains are linked and put as a list; a get of their size takes one of them. -/
theorem reachIf_serves_list : ∃ w : Users,
    (users NgxMap.flatRbtree id).run (users NgxMap.flatRbtree id).start
      [.get 10 true true true "a.c" 1, .get 10 true true true "a.c" 2,
        .get 20 true true true "b.c" 3, .link 0 (some 1), .putList 0 2, .get 10 true true true "b.c" 4] = some w ∧
      w.world.chains = [1, 2] ∧ Serves NgxMap.flatRbtree id w := by
  have hok : (users NgxMap.flatRbtree id).Meets HeldOnly (users NgxMap.flatRbtree id).start
      [.get 10 true true true "a.c" 1, .get 10 true true true "a.c" 2,
        .get 20 true true true "b.c" 3, .link 0 (some 1), .putList 0 2, .get 10 true true true "b.c" 4] := by
    refine .cons trivial rfl (.cons trivial rfl (.cons trivial rfl (.cons trivial rfl ?_)))
    refine .cons ⟨[0, 1], ⟨rfl, rfl, rfl⟩, fun cl hcl => ?_⟩ rfl (.cons trivial rfl trivial)
    show cl ∈ [2, 1, 0]
    simp only [List.mem_cons, List.not_mem_nil, or_false] at hcl ⊢
    tauto
  exact ⟨_, rfl, rfl, reachIf_serves _ _ _ (Machine.ReachIf.start.of_meets hok rfl)⟩

end NgxToolkit.Rbuf
