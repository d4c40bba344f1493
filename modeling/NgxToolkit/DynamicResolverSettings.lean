import Mathlib.Tactic.Common
import NgxToolkit.DynamicResolverMoves

/-! The settings of the dynamic resolver never change (`World.step_settings`).
Without buckets or without a hash there is never a name in the table, and
nothing is asked for (`reach_hashFault`). -/

namespace NgxToolkit.DynamicResolver

open Lib

variable {η δ : Type}

/-- The buckets and whether there is a hash. -/
def Conf.settings (s : Conf η δ) : Nat × Bool := (s.domainBuckets, s.hashed)

theorem hashFault_congr {s s' : Conf η δ} (h : s'.settings = s.settings) :
    s'.hashFault = s.hashFault := by
  have hbuckets : s'.domainBuckets = s.domainBuckets := congrArg Prod.fst h
  have hhashed : s'.hashed = s.hashed := congrArg Prod.snd h
  unfold Conf.hashFault
  rw [hbuckets, hhashed]

theorem idx_congr {s s' : Conf η δ} (h : s'.settings = s.settings) (temp : List UInt8) :
    s'.idx temp = s.idx temp := by
  have hbuckets : s'.domainBuckets = s.domainBuckets := congrArg Prod.fst h
  unfold Conf.idx
  rw [hbuckets]

theorem getCtx_settings (s : Conf η δ) (pcalloc : Bool) :
    (getCtx s pcalloc).2.settings = s.settings := by
  unfold getCtx
  split
  · split <;> rfl
  · rfl

theorem getDomain_settings (s : Conf η δ) (pcalloc : Bool) :
    (getDomain s pcalloc).2.settings = s.settings := by
  unfold getDomain
  split
  · split <;> rfl
  · rfl

theorem addEntry_settings (s : Conf η δ) (temp : List UInt8) (pcalloc : Bool) :
    (addEntry s temp pcalloc).2.settings = s.settings := by
  have h := getDomain_settings s pcalloc
  unfold addEntry
  split
  · next hs =>
    rw [hs] at h
    exact h
  · next hs =>
    rw [hs] at h
    exact h

theorem unlink_settings (s : Conf η δ) (b : Nat) (pd : Option Nat) (d : Nat) :
    (s.unlink b pd d).settings = s.settings := by
  unfold Conf.unlink
  cases pd <;> rfl

theorem popCtx_settings {s s' : Conf η δ} {d c : Nat} (h : popCtx s d = some (c, s')) :
    s'.settings = s.settings := by
  unfold popCtx at h
  split at h
  · cases h
  · cases h
    rfl

section
variable {w w' : World η δ} {pton : List UInt8 → Nat}

theorem World.add_settings (w : World η δ) (pton : List UInt8 → Nat)
    (domain : Option (List UInt8)) (pcalloc : Bool) :
    (w.add pton domain pcalloc).conf.settings = w.conf.settings := by
  unfold World.add
  split
  · rfl
  · rfl
  · next text _ =>
    have h := addEntry_settings w.conf (strlow text) pcalloc
    split
    · rfl
    · split
      · rfl
      · dsimp only
        split
        · rfl
        · rfl
        · split
          · next hs =>
            rw [hs] at h
            exact h
          · next hs =>
            rw [hs] at h
            exact h

theorem World.del_settings (w : World η δ) (pton : List UInt8 → Nat)
    (domain : Option (List UInt8)) : (w.del pton domain).conf.settings = w.conf.settings := by
  unfold World.del
  split
  · rfl
  · rfl
  · split
    · rfl
    · split
      · rfl
      · dsimp only
        split
        · rfl
        · rfl
        · exact unlink_settings _ _ _ _

theorem World.startEntry_settings (w : World η δ) (d : Nat) (h : η) (data : δ) (pcalloc : Bool)
    (rand : Nat) : (w.startEntry d h data pcalloc rand).conf.settings = w.conf.settings := by
  have hs := getCtx_settings w.conf pcalloc
  unfold World.startEntry
  dsimp only
  split
  · split
    · next he =>
      rw [he] at hs
      exact hs
    · next he =>
      rw [he] at hs
      exact hs
  · rfl

theorem World.start_settings (w : World η δ) (pton : List UInt8 → Nat)
    (domain : Option (List UInt8)) (h : η) (data : δ) (pcallocDomain pcallocCtx : Bool)
    (rand : Nat) :
    (w.start pton domain h data pcallocDomain pcallocCtx rand).conf.settings =
      w.conf.settings := by
  unfold World.start
  dsimp only
  split
  · rfl
  · rfl
  · next text _ =>
    have hs := addEntry_settings w.conf (strlow text) pcallocDomain
    split
    · rfl
    · split
      · rfl
      · split
        · rfl
        · split
          · rfl
          · exact w.startEntry_settings _ _ _ _ _
          · split
            · next he =>
              rw [he] at hs
              exact hs
            · next he =>
              rw [he] at hs
              rw [World.startEntry_settings]
              exact hs

theorem World.invoke_settings (w : World η δ) (s : Conf η δ) (stack : List Frame) (ctx : Nat)
    (arg : Arg) (reply : Option Query) (hs : s.settings = w.conf.settings) :
    (w.invoke s stack ctx arg reply).conf.settings = w.conf.settings := by
  unfold World.invoke
  split
  · exact hs
  · rfl

theorem World.run_settings {rand : Nat} (h : w.run rand = some w') :
    w'.conf.settings = w.conf.settings := by
  unfold World.run at h
  split at h
  · split at h <;> cases h
    · rfl
    · next hp => exact w.invoke_settings _ _ _ _ _ (popCtx_settings hp)
  · dsimp only at h
    split at h
    · split at h <;> cases h <;> rfl
    · cases h
      rfl
  · split at h <;> cases h
    · rfl
    · next hp => exact w.invoke_settings _ _ _ _ _ (popCtx_settings hp)
  · split at h <;> cases h
    · rfl
    · next hp => exact w.invoke_settings _ _ _ _ _ (popCtx_settings hp)
  · cases h
    rfl
  · cases h
    rfl
  · split at h <;> cases h <;> rfl
  · cases h

theorem World.ret_settings (h : w.ret = some w') : w'.conf.settings = w.conf.settings := by
  unfold World.ret at h
  split at h
  · cases h
    rfl
  · cases h
    rfl
  · dsimp only at h
    split at h <;> cases h <;> rfl
  · cases h
    rfl
  · cases h

theorem World.reply_settings (w : World η δ) (q : Query) (rep : List Addr) :
    ((w.answer q rep).onResult q rep).conf.settings = w.conf.settings := by
  obtain ⟨live, he⟩ := w.answer_eq q rep
  rw [he]
  unfold World.onResult
  split <;> rfl

/-- A step changes no setting. -/
theorem World.step_settings {l : Label η δ} (h : w.step pton l = some w') :
    w'.conf.settings = w.conf.settings := by
  cases (World.steps_of_step h).2 with
  | add => exact World.add_settings _ _ _ _
  | del => exact World.del_settings _ _ _
  | start => exact World.start_settings _ _ _ _ _ _ _ _
  | host | hostFault | timer | timerFault | tick => rfl
  | reply => exact World.reply_settings _ _ _
  | run hrun => exact World.run_settings (w := { w with fresh := none }) hrun
  | ret hret => exact World.ret_settings (w := { w with fresh := none }) hret

/-- The settings of a worker are those it was started with. -/
theorem reach_settings {refreshInterval domainBuckets : Nat} {hashed : Bool}
    (hw : (machine pton refreshInterval domainBuckets hashed).Reach w) :
    w.conf.settings = (domainBuckets, hashed) :=
  Machine.Reach.invariant (P := fun w => w.conf.settings = (domainBuckets, hashed)) rfl
    (fun _ _ _ _ hs hst => (World.step_settings hst).trans hs) hw

/-! ## No table -/

/-- There is no name, nothing is asked for and nothing but a handler runs. -/
structure World.Idle (w : World η δ) : Prop where
  queries : w.queries = []
  stack : ∀ f ∈ w.stack, f = .direct
  live : ∀ temp, w.live temp = none

theorem World.Idle.direct (hw : w.Idle) (h : η) (data : δ) (arg : Arg) :
    (w.direct h data arg).Idle :=
  ⟨hw.queries, fun _ hf => (List.mem_cons.mp hf).elim (fun he => he) (hw.stack _), hw.live⟩

theorem World.Idle.of_fault (hw : w.Idle) (e : Option Fault) (started : List (Start η δ)) :
    World.Idle { w with fresh := none, started, fault := e } :=
  ⟨hw.queries, hw.stack, hw.live⟩

/-- Without a table nothing is asked for. -/
theorem World.step_idle (hw : w.Idle) (hhash : w.conf.hashFault ≠ none) {l : Label η δ}
    (h : w.step pton l = some w') : w'.Idle := by
  obtain ⟨e, he⟩ := Option.ne_none_iff_exists'.mp hhash
  have hnorun : ∀ {f st}, w.stack = f :: st → f = .direct := fun hst =>
    hw.stack _ (by rw [hst]; exact List.mem_cons_self)
  have hleft := hw.of_fault
  cases (World.steps_of_step h).2 with
  | add =>
    unfold World.add
    simp only [he]
    split
    · exact hleft _ _
    · exact hleft _ _
    · split <;> exact hleft _ _
  | del =>
    unfold World.del
    simp only [he]
    split
    · exact hleft _ _
    · exact hleft _ _
    · split <;> exact hleft _ _
  | start =>
    unfold World.start
    simp only [he]
    split
    · exact hleft _ _
    · exact hleft _ _
    · split
      · exact World.Idle.direct (w := { w with fresh := none }) (hleft _ _) _ _ _
      · split
        · exact World.Idle.direct (w := { w with fresh := none }) (hleft _ _) _ _ _
        · exact hleft _ _
  | host | hostFault | timer | timerFault => exact hleft _ _
  | reply hq =>
    rw [hw.queries] at hq
    cases hq
  | tick _ hbuckets hhashed =>
    -- there are buckets and a hash, so there is a table
    unfold Conf.hashFault at he
    rw [if_neg hbuckets, if_neg (by rw [hhashed]; exact Bool.noConfusion)] at he
    cases he
  | run hrun =>
    unfold World.run at hrun
    split at hrun <;> first | cases hnorun ‹_› | cases hrun
  | ret hret =>
    unfold World.ret at hret
    split at hret
    · next hst =>
      cases hret
      refine ⟨hw.queries, fun f hf => hw.stack f ?_, hw.live⟩
      rw [hst]
      exact List.mem_cons_of_mem _ hf
    · next hst => cases hnorun hst
    · next hst => cases hnorun hst
    · next hst => cases hnorun hst
    · cases hret

/-- A query is answered with a table only. -/
theorem reach_hashFault {refreshInterval domainBuckets : Nat} {hashed : Bool}
    (hw : (machine pton refreshInterval domainBuckets hashed).Reach w) :
    w.conf.hashFault = none ∨ w.Idle := by
  refine Machine.Reach.invariant (P := fun w => w.conf.hashFault = none ∨ w.Idle)
    (.inr ⟨rfl, fun f hf => (by cases hf), fun _ => rfl⟩) (fun w l w' _ hi hst => ?_) hw
  rw [hashFault_congr (World.step_settings hst)]
  by_cases hhash : w.conf.hashFault = none
  · exact .inl hhash
  · exact .inr (World.step_idle (hi.resolve_left hhash) hhash hst)

end

end NgxToolkit.DynamicResolver
