import Mathlib.Tactic.Common
import NgxToolkit.DynamicConf
import NgxToolkit.HttpTrace

/-! The key of a file (`ngx_md5_file` in `ngx_toolkit_misc.c`).

The file is read piece by piece, and a read may return less than it is asked for.  `Md5` holds
what nginx core provides: the digest of all pieces does not depend on where they are cut.

* `md5Loop_parts`: the pieces that are read are the file.
* `md5File_key`: the key is the text of the digest, however the file is read.
* `step_md5`: the check of the dynamic configuration takes this key. -/

namespace NgxToolkit.ToolkitMd5

open HttpTrace (hexDigit)

variable {γ : Type}

def FILEBUFSIZE : Nat := 8192

/-- `ngx_md5_init`, `ngx_md5_update` and `ngx_md5_final`. -/
structure Md5 (γ : Type) where
  init : γ
  update : γ → List UInt8 → γ
  final : γ → List UInt8
  digest : List UInt8 → List UInt8
  final_update : ∀ parts : List (List UInt8), final (parts.foldl update init) = digest parts.flatten
  digest_length : ∀ content, (digest content).length = 16

/-- `ngx_read_fd` at a position of the file: `none` is `NGX_FILE_ERROR`, and `some n` lets it
return `n + 1` bytes, if there are as many and the buffer has room. -/
def readFd (content : List UInt8) (pos : Nat) (answer : Option Nat) : Option (List UInt8) :=
  answer.map fun n => (content.drop pos).take (min FILEBUFSIZE (n + 1))

theorem readFd_cons {content : List UInt8} {pos : Nat} {answer : Option Nat} {c : UInt8}
    {buf : List UInt8} (h : readFd content pos answer = some (c :: buf)) :
    c :: buf ++ content.drop (pos + (buf.length + 1)) = content.drop pos := by
  obtain ⟨n, -, hn⟩ := Option.map_eq_some_iff.mp h
  have hlen := congrArg List.length hn
  rw [List.length_take, List.length_drop, List.length_cons] at hlen
  have hbuf : c :: buf = (content.drop pos).take (buf.length + 1) := by
    rw [← hn, List.take_eq_take_iff, List.length_drop]
    omega
  rw [hbuf, ← List.drop_drop, List.take_append_drop]

theorem readFd_nil {content : List UInt8} {pos : Nat} {answer : Option Nat}
    (h : readFd content pos answer = some []) : content.drop pos = [] := by
  obtain ⟨n, -, hn⟩ := Option.map_eq_some_iff.mp h
  rcases List.take_eq_nil_iff.mp hn with hzero | hnil
  · unfold FILEBUFSIZE at hzero
    omega
  · exact hnil

theorem readFd_lt {content : List UInt8} {pos : Nat} {answer : Option Nat} {c : UInt8}
    {buf : List UInt8} (h : readFd content pos answer = some (c :: buf)) :
    pos + (buf.length + 1) ≤ content.length := by
  have hlen := congrArg List.length (readFd_cons h)
  rw [List.length_append, List.length_cons, List.length_drop, List.length_drop] at hlen
  omega

/-- The loop of `ngx_md5_file`; `answer` is what the read at a position does. -/
def md5Loop (md5 : Md5 γ) (content : List UInt8) (answer : Nat → Option Nat) (pos : Nat) (ctx : γ) :
    Option γ :=
  match h : readFd content pos (answer pos) with
  | none => none
  | some [] => some ctx
  | some (c :: buf) =>
    md5Loop md5 content answer (pos + (buf.length + 1)) (md5.update ctx (c :: buf))
termination_by content.length - pos
decreasing_by
  have := readFd_lt h
  omega

/-- The text of `%02xi` for each byte. -/
def keyText (digest : List UInt8) : List UInt8 :=
  digest.flatMap fun b => [hexDigit (b.toNat / 16), hexDigit (b.toNat % 16)]

/-- `ngx_md5_file`; `none` is `NGX_ERROR`. -/
def md5File (md5 : Md5 γ) (content : List UInt8) (answer : Nat → Option Nat) :
    Option (List UInt8) :=
  (md5Loop md5 content answer 0 md5.init).map fun ctx => keyText (md5.final ctx)

/-! ## Pieces -/

section
variable {md5 : Md5 γ} {content : List UInt8} {answer : Nat → Option Nat}

/-- The pieces that are read are the rest of the file. -/
theorem md5Loop_parts {pos : Nat} {ctx ctx' : γ}
    (h : md5Loop md5 content answer pos ctx = some ctx') :
    ∃ parts : List (List UInt8), parts.flatten = content.drop pos ∧
      ctx' = parts.foldl md5.update ctx := by
  fun_induction md5Loop md5 content answer pos ctx with
  | case1 pos ctx hread => cases h
  | case2 pos ctx hread =>
    obtain rfl := Option.some.inj h
    exact ⟨[], (readFd_nil hread).symm, rfl⟩
  | case3 pos ctx c buf hread ih =>
    obtain ⟨parts, hparts, rfl⟩ := ih h
    refine ⟨(c :: buf) :: parts, ?_, rfl⟩
    rw [List.flatten_cons, hparts]
    exact readFd_cons hread

/-- The loop fails at a read that fails. -/
theorem md5Loop_none {pos : Nat} {ctx : γ} (hpos : pos ≤ content.length)
    (h : md5Loop md5 content answer pos ctx = none) :
    ∃ p, p ≤ content.length ∧ answer p = none := by
  fun_induction md5Loop md5 content answer pos ctx with
  | case1 pos ctx hread => exact ⟨pos, hpos, Option.map_eq_none_iff.mp hread⟩
  | case2 pos ctx hread => cases h
  | case3 pos ctx c buf hread ih => exact ih (readFd_lt hread) h

end

/-! ## The text -/

theorem hexDigit_inj {a b : Nat} (ha : a < 16) (hb : b < 16) (h : hexDigit a = hexDigit b) :
    a = b := by
  have hall : ∀ a < 16, ∀ b < 16, hexDigit a = hexDigit b → a = b := by decide
  exact hall a ha b hb h

theorem keyText_length (digest : List UInt8) : (keyText digest).length = 2 * digest.length := by
  induction digest with
  | nil => rfl
  | cons b digest ih =>
    unfold keyText at ih ⊢
    rw [List.flatMap_cons, List.length_append, ih, List.length_cons]
    simp only [List.length_cons, List.length_nil]
    omega

theorem keyText_inj {digest digest' : List UInt8} (h : keyText digest = keyText digest') :
    digest = digest' := by
  induction digest generalizing digest' with
  | nil =>
    cases digest' with
    | nil => rfl
    | cons b digest' => cases h
  | cons b digest ih =>
    cases digest' with
    | nil => cases h
    | cons b' digest' =>
      have hcons : hexDigit (b.toNat / 16) :: hexDigit (b.toNat % 16) :: keyText digest =
          hexDigit (b'.toNat / 16) :: hexDigit (b'.toNat % 16) :: keyText digest' := h
      obtain ⟨hhigh, hrest⟩ := List.cons.inj hcons
      obtain ⟨hlow, htail⟩ := List.cons.inj hrest
      have hb := b.toNat_lt
      have hb' := b'.toNat_lt
      have h1 := hexDigit_inj (by omega) (by omega) hhigh
      have h2 := hexDigit_inj (by omega) (by omega) hlow
      have hbyte : b = b' := UInt8.toNat_inj.mp (by omega)
      rw [hbyte, ih htail]

/-- **The key of a file.**  However its reads cut the file, the key is the text of the digest of
the whole file, 32 bytes; there is none only if a read fails; and two files have the same key
if and only if they have the same digest. -/
theorem md5File_key (md5 : Md5 γ) (content : List UInt8) (answer : Nat → Option Nat) :
    (md5File md5 content answer = none → ∃ pos, pos ≤ content.length ∧ answer pos = none) ∧
      ∀ key, md5File md5 content answer = some key →
        key = keyText (md5.digest content) ∧ key.length = 32 ∧
          ∀ content' answer' key', md5File md5 content' answer' = some key' →
            (key' = key ↔ md5.digest content' = md5.digest content) := by
  have htext {content answer key} (h : md5File md5 content answer = some key) :
      key = keyText (md5.digest content) := by
    obtain ⟨ctx, hctx, rfl⟩ := Option.map_eq_some_iff.mp h
    obtain ⟨parts, hparts, rfl⟩ := md5Loop_parts hctx
    rw [md5.final_update, hparts, List.drop_zero]
  refine ⟨fun h => ?_, fun key h => ⟨htext h, ?_, fun content' answer' key' h' => ?_⟩⟩
  · exact md5Loop_none (Nat.zero_le _) (Option.map_eq_none_iff.mp h)
  · rw [htext h, keyText_length, md5.digest_length]
  · rw [htext h, htext h']
    exact ⟨keyText_inj, congrArg keyText⟩

/-- The digests of the empty text and of `ab`. -/
def someDigest (content : List UInt8) : List UInt8 :=
  if content = [] then [212, 29, 140, 217, 143, 0, 178, 4, 233, 128, 9, 152, 236, 248, 66, 126]
  else if content = [97, 98] then
    [24, 126, 244, 67, 97, 34, 209, 204, 47, 64, 220, 43, 146, 240, 235, 160]
  else List.replicate 16 0

def someMd5 : Md5 (List UInt8) where
  init := []
  update ctx part := ctx ++ part
  final := someDigest
  digest := someDigest
  final_update parts := by
    have hfold (s : List UInt8) : parts.foldl (fun ctx part => ctx ++ part) s =
        s ++ parts.flatten := by
      induction parts generalizing s with
      | nil => simp
      | cons part parts ih => simp [ih]
    rw [hfold, List.nil_append]
  digest_length content := by
    unfold someDigest
    split
    · rfl
    · split <;> rfl

/-- The file `ab` in two reads, and in one: the key is the same. -/
theorem md5File_key_ab : readFd [97, 98] 0 (some 0) = some [97] ∧
    readFd [97, 98] 1 (some 0) = some [98] ∧ readFd [97, 98] 0 (some 1) = some [97, 98] ∧
    md5File someMd5 [97, 98] (fun _ => some 0) =
      some (bytes "187ef4436122d1cc2f40dc2b92f0eba0") ∧
    md5File someMd5 [97, 98] (fun _ => some 1) = md5File someMd5 [97, 98] (fun _ => some 0) := by
  have hkey (n : Nat) : md5File someMd5 [97, 98] (fun _ => some n) =
      some (bytes "187ef4436122d1cc2f40dc2b92f0eba0") := by
    have hfile := md5File_key someMd5 [97, 98] (fun _ => some n)
    cases h : md5File someMd5 [97, 98] (fun _ => some n) with
    | none =>
      obtain ⟨pos, -, hnone⟩ := hfile.1 h
      cases hnone
    | some key =>
      rw [(hfile.2 key h).1]
      rfl
  exact ⟨rfl, rfl, rfl, hkey 0, (hkey 1).trans (hkey 0).symm⟩

/-! ## The check of the dynamic configuration -/

/-- The step of the check that takes the key, with the key of `ngx_md5_file`. -/
theorem step_md5 {α : Type} (md5 : Md5 γ) (cycle : DynamicConf.Cycle)
    {w : DynamicConf.World α (List UInt8) (List UInt8)} (hpc : w.pc = .checkMd5)
    (answer : Nat → Option Nat) :
    w.step cycle (fun content => keyText (md5.digest content))
        (.md5 (md5File md5 w.file answer).isSome) =
      some { w with
        pc := (md5File md5 w.file answer).elim DynamicConf.Pc.idle
          DynamicConf.Pc.checkCompare } := by
  unfold DynamicConf.World.step
  dsimp only
  rw [hpc]
  dsimp only
  cases h : md5File md5 w.file answer with
  | none => rfl
  | some key =>
    obtain ⟨ctx, hctx, rfl⟩ := Option.map_eq_some_iff.mp h
    obtain ⟨parts, hparts, rfl⟩ := md5Loop_parts hctx
    rw [md5.final_update, hparts, List.drop_zero]
    rfl

end NgxToolkit.ToolkitMd5
