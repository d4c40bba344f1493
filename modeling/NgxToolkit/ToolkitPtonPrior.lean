import NgxToolkit.ToolkitPton

/-! What `ngx_sock_pton` leaves of the buffer it is given.

The three parsers write the family and the address or the path; the port is
written only where the text has one.  In `ngx_dynamic_resolver_start_resolver` the
buffer is a variable on the stack that nobody has written.

* `sockPtonUnix_prior`, `sockPtonInet_prior`, `sockPtonInet6_prior`: each parser.
* `sockPton_prior_iff`: what is read back depends on the text only, if and only if
  the text is a path or has a port. -/

namespace NgxToolkit.ToolkitPton

open Lib

variable {α β : Type}

/-- What the members of a family are read back as. -/
inductive ReadBack (α β : Type) where
  | unspec
  | unix (path : List UInt8)
  | inet6 (addr : Option β) (port : Nat)
  | inet (addr : Option α) (port : Nat)
deriving DecidableEq

def Sockaddr.readBack (sa : Sockaddr α β) : ReadBack α β :=
  match sa.family with
  | .unspec => .unspec
  | .unix => .unix sa.sunPath
  | .inet6 => .inet6 sa.sin6Addr sa.port
  | .inet => .inet sa.sinAddr sa.port

/-- The text is for `ngx_sock_pton_unix`. -/
def Unix (text : List UInt8) : Prop :=
  text.length ≥ 5 ∧ (text.take 5).map tolower = unixPrefix

/-- A `:` behind the bracket, or anywhere in a text without one. -/
def HasPort (text : List UInt8) : Prop :=
  if text.head? = some openBracket then
    ∃ p, find text 0 text.length closeBracket = some p ∧ text[p + 1]? = some colon
  else colon ∈ text

section
variable {core : Core α β} {text : List UInt8} {sa : Sockaddr α β}

/-- A port that is valid is written whatever stood there. -/
theorem setPort_prior {p socklen : Nat} (h : (setPort core sa text p socklen).1 ≠ 0) :
    ∃ n, ∀ sa', setPort core sa' text p socklen = (socklen, { sa' with port := n }) := by
  unfold setPort at h ⊢
  dsimp only at h ⊢
  by_cases hbad : core.atoi (slice text p text.length) < 0 ∨
      core.atoi (slice text p text.length) > 65535
  · rw [if_pos hbad] at h
    exact absurd rfl h
  · exact ⟨_, fun sa' => if_neg hbad⟩

theorem sockPtonUnix_prior (h : (sockPtonUnix core sa text).1 ≠ 0) :
    ∃ path, ∀ sa' : Sockaddr α β, (sockPtonUnix core sa' text).2.readBack = .unix path := by
  unfold sockPtonUnix at h ⊢
  dsimp only at h ⊢
  by_cases hlen : text.length - 5 = 0
  · rw [if_pos hlen] at h
    exact absurd rfl h
  · rw [if_neg hlen] at h
    by_cases hlong : text.length - 5 + 1 > core.sunPathSize
    · rw [if_pos hlong] at h
      exact absurd rfl h
    · refine ⟨((text.drop 5).take (text.length - 5)).takeWhile (· ≠ 0), fun sa' => ?_⟩
      rw [if_neg hlen, if_neg hlong]
      rfl

/-- The address of an IPv4 text; the port of the text, or else of the buffer. -/
theorem sockPtonInet_prior (h : (sockPtonInet core sa text).1 ≠ 0) :
    ∃ a, (colon ∈ text → ∃ n, ∀ sa' : Sockaddr α β,
        (sockPtonInet core sa' text).2.readBack = .inet (some a) n) ∧
      (colon ∉ text → ∀ sa' : Sockaddr α β,
        (sockPtonInet core sa' text).2.readBack = .inet (some a) sa'.port) := by
  unfold sockPtonInet at h ⊢
  dsimp only at h ⊢
  cases ha : core.inetAddr (slice text 0 ((find text 0 text.length colon).getD text.length)) with
  | none =>
    rw [ha] at h
    exact absurd rfl h
  | some a =>
    rw [ha] at h
    refine ⟨a, ?_⟩
    have hmem : find text 0 text.length colon = none ↔ colon ∉ text := by
      rw [find_eq_none, slice_all]
    cases hp : find text 0 text.length colon with
    | none =>
      refine ⟨fun hc => absurd hc (hmem.mp hp), fun _ sa' => ?_⟩
      rfl
    | some p =>
      rw [hp] at h
      obtain ⟨n, hn⟩ := setPort_prior h
      refine ⟨fun _ => ⟨n, fun sa' => ?_⟩, fun hc => ?_⟩
      · dsimp only
        rw [hn]
        rfl
      · rw [hmem.mpr hc] at hp
        cases hp

/-- The address of an IPv6 text; the port of the text, or else of the buffer. -/
theorem sockPtonInet6_prior (h : (sockPtonInet6 core sa text).1 ≠ 0) :
    ∃ p a, find text 0 text.length closeBracket = some p ∧
      (text[p + 1]? = some colon → ∃ n, ∀ sa' : Sockaddr α β,
        (sockPtonInet6 core sa' text).2.readBack = .inet6 (some a) n) ∧
      (text[p + 1]? ≠ some colon → ∀ sa' : Sockaddr α β,
        (sockPtonInet6 core sa' text).2.readBack = .inet6 (some a) sa'.port) := by
  unfold sockPtonInet6 at h ⊢
  dsimp only at h ⊢
  cases hp : find text 0 text.length closeBracket with
  | none =>
    rw [hp] at h
    exact absurd rfl h
  | some p =>
    rw [hp] at h
    dsimp only at h ⊢
    by_cases hend : p = text.length - 1
    · rw [if_pos hend] at h
      exact absurd rfl h
    · rw [if_neg hend] at h
      cases ha : core.inet6Addr (slice text 1 p) with
      | none =>
        rw [ha] at h
        exact absurd rfl h
      | some a =>
        rw [ha] at h
        dsimp only at h ⊢
        refine ⟨p, a, rfl, fun hc => ?_, fun hc sa' => ?_⟩
        · rw [if_pos hc] at h
          obtain ⟨n, hn⟩ := setPort_prior h
          refine ⟨n, fun sa' => ?_⟩
          rw [if_neg hend, if_pos hc, hn]
          rfl
        · rw [if_neg hend, if_neg hc]
          rfl

end

/-- **Prior content.**  Of a text that is accepted, what is read back does not
depend on what the buffer held if and only if the text is a path or has a port. -/
theorem sockPton_prior_iff (core : Core α β) (text : List UInt8)
    (h : ∃ sa, (sockPton core sa text).1 ≠ 0) :
    (∀ sa sa', (sockPton core sa text).2.readBack = (sockPton core sa' text).2.readBack) ↔
      Unix text ∨ HasPort text := by
  obtain ⟨sa, h⟩ := h
  -- a port that is not written is that of the buffer, and any two of them are there
  have hstale : ∀ f : Nat → ReadBack α β, f 0 ≠ f 1 →
      (∀ sa', (sockPton core sa' text).2.readBack = f sa'.port) →
      ¬ ∀ sa sa', (sockPton core sa text).2.readBack = (sockPton core sa' text).2.readBack := by
    intro f hf hport hall
    have h01 := hall { sa with port := 0 } { sa with port := 1 }
    rw [hport, hport] at h01
    exact hf h01
  unfold HasPort
  by_cases hu : text.length ≥ 5 ∧ (text.take 5).map tolower = unixPrefix
  · have heq : ∀ sa', sockPton core sa' text = sockPtonUnix core sa' text := fun _ => if_pos hu
    simp only [heq] at h ⊢
    obtain ⟨path, hpath⟩ := sockPtonUnix_prior h
    exact iff_of_true (fun sa sa' => by rw [hpath, hpath]) (.inl hu)
  · have hno : ¬ Unix text := hu
    rw [or_iff_right hno]
    by_cases hb : text.head? = some openBracket
    · have heq : ∀ sa', sockPton core sa' text = sockPtonInet6 core sa' text := fun _ => by
        unfold sockPton
        rw [if_neg hu, if_pos hb]
      rw [if_pos hb]
      simp only [heq] at h hstale ⊢
      obtain ⟨p, a, hp, hport, hnone⟩ := sockPtonInet6_prior h
      by_cases hc : text[p + 1]? = some colon
      · obtain ⟨n, hn⟩ := hport hc
        exact iff_of_true (fun sa sa' => by rw [hn, hn]) ⟨p, hp, hc⟩
      · refine iff_of_false (hstale (.inet6 (some a)) (fun he => by cases he) (hnone hc)) ?_
        rintro ⟨q, hq, hcq⟩
        rw [hp, Option.some.injEq] at hq
        rw [← hq] at hcq
        exact hc hcq
    · have heq : ∀ sa', sockPton core sa' text = sockPtonInet core sa' text := fun _ => by
        unfold sockPton
        rw [if_neg hu, if_neg hb]
      rw [if_neg hb]
      simp only [heq] at h hstale ⊢
      obtain ⟨a, hport, hnone⟩ := sockPtonInet_prior h
      by_cases hc : colon ∈ text
      · obtain ⟨n, hn⟩ := hport hc
        exact iff_of_true (fun sa sa' => by rw [hn, hn]) hc
      · exact iff_of_false (hstale (.inet (some a)) (fun he => by cases he) (hnone hc)) hc

/-- `[::1]:80`, over a port 0 and over a port 1. -/
theorem sockPton_prior_port :
    (sockPton loopbackCore noSockaddr [91, 58, 58, 49, 93, 58, 56, 48]).2.readBack =
      (sockPton loopbackCore { noSockaddr with port := 1 }
        [91, 58, 58, 49, 93, 58, 56, 48]).2.readBack :=
  (sockPton_prior_iff loopbackCore [91, 58, 58, 49, 93, 58, 56, 48]
    ⟨noSockaddr, by decide +kernel⟩).mpr (.inr ⟨4, by decide, by decide⟩) noSockaddr
    { noSockaddr with port := 1 }

/-- `127.0.0.1` has the port of the buffer. -/
theorem prior_port_read : ¬ ∀ (core : Core (List UInt8) (List UInt8)) (text : List UInt8)
    (sa sa' : Sockaddr (List UInt8) (List UInt8)), (sockPton core sa text).1 ≠ 0 →
      (sockPton core sa' text).1 ≠ 0 →
        (sockPton core sa text).2.readBack = (sockPton core sa' text).2.readBack := by
  intro hall
  have h := hall loopbackCore [49, 50, 55, 46, 48, 46, 48, 46, 49] noSockaddr
    { noSockaddr with port := 1 } (by decide) (by decide)
  exact absurd h (by decide)

end NgxToolkit.ToolkitPton
