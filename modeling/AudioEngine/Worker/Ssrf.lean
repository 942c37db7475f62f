import AudioEngine.Lib.PyIp

/-!
# AudioEngine.Worker.Ssrf

The guard on callback URLs (`worker/ssrf.py`).

URL parsing and name resolution are parameters: `urlparse(url).hostname` may raise `ValueError`, and
each call of `socket.getaddrinfo` has an answer of its own, which may be a `gaierror` or a
`UnicodeError`. The guard catches `gaierror` alone (`isAllowed_raises_iff`).
-/

namespace AudioEngine

open PyIp

inductive ResolveError where
  | gaierror
  | unicodeError
deriving DecidableEq, Repr

/-- What can leave `is_allowed`. -/
inductive GuardError where
  | valueError
  | unicodeError
deriving DecidableEq, Repr

/-- The libraries under the guard and the HTTP client. -/
structure Net where
  /-- `urlparse(url).hostname`; `none` is `ValueError` -/
  hostname : String → Option (Option String)
  /-- the addresses of the `k`-th call of `getaddrinfo` for a host -/
  getaddrinfo : Nat → String → Except ResolveError (List String)
  /-- the host that the HTTP client takes from a URL and resolves when it connects -/
  clientHost : String → Option String
  /-- the POST to a URL comes back with a response, or raises -/
  responds : String → Bool

/-- `_is_blocked_ip(ip)`. -/
def isBlockedIp (ip : String) : Bool :=
  match ipAddress ip with
  | none => true
  | some addr =>
    addr.isPrivate || addr.isLoopback || addr.isLinkLocal || addr.isReserved || addr.isMulticast ||
      addr.isUnspecified

/-- The string is an address of one of the kinds the guard is about. -/
def isInternalIp (ip : String) : Bool := (ipAddress ip).any Addr.isInternal

/-- The string is an address of none of these kinds. -/
def isExternalIp (ip : String) : Bool := (ipAddress ip).any fun addr => !addr.isInternal

/-- What `_is_blocked_ip` lets pass are the external addresses. -/
theorem isBlockedIp_eq_false {ip : String} : isBlockedIp ip = false ↔ isExternalIp ip = true := by
  unfold isBlockedIp isExternalIp
  cases ipAddress ip with
  | none => simp
  | some addr => simp [Addr.isInternal]

/-- No internal address is external. -/
theorem isInternalIp_of_isExternalIp {ip : String} (h : isExternalIp ip = true) :
    isInternalIp ip = false := by
  unfold isExternalIp at h
  unfold isInternalIp
  cases hip : ipAddress ip with
  | none => rfl
  | some addr => simpa [hip] using h

/-- `is_allowed(url, allowlist)`, which makes the `k`-th lookup. -/
def isAllowed (net : Net) (k : Nat) (url : String) (allowlist : List String) :
    Except GuardError Bool :=
  match net.hostname url with
  | none => .error .valueError
  | some none => .ok false
  | some (some host) =>
    if host = "" then .ok false
    else if allowlist ≠ [] ∧ host ∉ allowlist then .ok false
    else
      match net.getaddrinfo k host with
      | .error .gaierror => .ok false
      | .error .unicodeError => .error .unicodeError
      | .ok infos => .ok !(infos.any isBlockedIp)

/-- The guard goes on to the lookup of this host. -/
def Looks (net : Net) (url : String) (allowlist : List String) (host : String) : Prop :=
  net.hostname url = some (some host) ∧ host ≠ "" ∧ (allowlist = [] ∨ host ∈ allowlist)

section

variable {net : Net} {k : Nat} {url : String} {allowlist : List String}

theorem isAllowed_of_looks {host : String} (h : Looks net url allowlist host) :
    isAllowed net k url allowlist =
      match net.getaddrinfo k host with
      | .error .gaierror => .ok false
      | .error .unicodeError => .error .unicodeError
      | .ok infos => .ok !(infos.any isBlockedIp) := by
  obtain ⟨hhost, hne, hlist⟩ := h
  have hmember : ¬ (allowlist ≠ [] ∧ host ∉ allowlist) := by
    rintro ⟨h₁, h₂⟩
    exact hlist.elim h₁ h₂
  rw [isAllowed, hhost]
  simp only [if_neg hne, if_neg hmember]

/-- Without a lookup the guard refuses, unless the URL does not parse. -/
theorem isAllowed_of_not_looks (h : ∀ host, ¬ Looks net url allowlist host)
    (hparse : net.hostname url ≠ none) : isAllowed net k url allowlist = .ok false := by
  rw [isAllowed]
  cases hhost : net.hostname url with
  | none => exact absurd hhost hparse
  | some parsed =>
    cases parsed with
    | none => rfl
    | some host =>
      simp only
      split
      · rfl
      split
      · rfl
      · rename_i hne hmember
        refine absurd ⟨hhost, hne, ?_⟩ (h host)
        by_cases hnil : allowlist = []
        · exact .inl hnil
        · exact .inr (by_contra fun hout => hmember ⟨hnil, hout⟩)

/-- The guard lets a URL pass when it looks up a host that has external addresses only. -/
theorem isAllowed_true_iff :
    isAllowed net k url allowlist = .ok true ↔
      ∃ host infos, Looks net url allowlist host ∧ net.getaddrinfo k host = .ok infos ∧
        ∀ ip ∈ infos, isExternalIp ip = true := by
  have hnone : ∀ infos : List String,
      infos.any isBlockedIp = false ↔ ∀ ip ∈ infos, isExternalIp ip = true := by
    intro infos
    rw [List.any_eq_false]
    exact forall₂_congr fun ip _ => by rw [← isBlockedIp_eq_false, Bool.not_eq_true]
  constructor
  · intro h
    by_cases hlooks : ∃ host, Looks net url allowlist host
    · obtain ⟨host, hlooks⟩ := hlooks
      rw [isAllowed_of_looks hlooks] at h
      split at h
      · cases h
      · cases h
      · rename_i infos hinfos
        rw [Except.ok.injEq, Bool.not_eq_true'] at h
        exact ⟨host, infos, hlooks, hinfos, (hnone infos).mp h⟩
    · exfalso
      by_cases hparse : net.hostname url = none
      · simp [isAllowed, hparse] at h
      · rw [isAllowed_of_not_looks (fun host hl => hlooks ⟨host, hl⟩) hparse] at h
        cases h
  · rintro ⟨host, infos, hlooks, hinfos, hclean⟩
    rw [isAllowed_of_looks hlooks, hinfos]
    simp only [(hnone infos).mpr hclean, Bool.not_false]

/-- The guard raises when the URL does not parse, or on a `UnicodeError` of the lookup. -/
theorem isAllowed_raises_iff :
    (∃ e, isAllowed net k url allowlist = .error e) ↔
      net.hostname url = none ∨
        ∃ host, Looks net url allowlist host ∧ net.getaddrinfo k host = .error .unicodeError := by
  constructor
  · rintro ⟨e, h⟩
    by_cases hparse : net.hostname url = none
    · exact .inl hparse
    · by_cases hlooks : ∃ host, Looks net url allowlist host
      · obtain ⟨host, hlooks⟩ := hlooks
        refine .inr ⟨host, hlooks, ?_⟩
        rw [isAllowed_of_looks hlooks] at h
        split at h
        · cases h
        · rename_i hunicode
          exact hunicode
        · cases h
      · rw [isAllowed_of_not_looks (fun host hl => hlooks ⟨host, hl⟩) hparse] at h
        cases h
  · rintro (hparse | ⟨host, hlooks, hunicode⟩)
    · exact ⟨.valueError, by simp [isAllowed, hparse]⟩
    · exact ⟨.unicodeError, by rw [isAllowed_of_looks hlooks, hunicode]⟩

end

end AudioEngine
