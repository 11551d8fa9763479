import Huntsman.Canonical.Links

/-!
# When `normalise` is stable

The head of a canonical link is read back (`canonicalAuthority_stable`), so a link is stable when
its tail is (`canonicalUrl_stable_iff`).  With the rules of the other kinds this says of every kind
but the coordinates, and of every value, whether normalising its canonical form changes it
(`normalise_stable_iff`).
-/

set_option autoImplicit false

namespace Huntsman.Canonical

open List

variable {s raw d : Chars} {c : Char}

/-! ## Hosts and ports -/

/-- A port as it is written. -/
def portText : Option ℕ → Chars
  | none => []
  | some port => ':' :: decimal port

theorem isDomainChar_of_digit (h : isAsciiDigit c = true) : isDomainChar c = true := by
  rw [isDomainChar, isAsciiAlphanumeric, Char.isAlphanum, show c.isDigit = true from h, Bool.or_true,
    Bool.true_or, Bool.true_or]

theorem domainChar_ne {x : Char} (h : isDomainChar c = true) (hx : isDomainChar x = false) : c ≠ x := by
  rintro rfl
  exact absurd (hx.symm.trans h) (by decide)

theorem rsplitOnce_append {host after : Chars} (h : c ∉ after) :
    rsplitOnce c (host ++ c :: after) = some (host, after) := by
  have hrev : (host ++ c :: after).reverse = after.reverse ++ c :: host.reverse := by
    rw [reverse_append, reverse_cons, append_assoc, singleton_append]
  rw [rsplitOnce, hrev, Pieces.splitOnce_append fun hc ↦ h (mem_reverse.1 hc), Option.map_some,
    reverse_reverse, reverse_reverse]

theorem rsplitOnce_none (h : c ∉ s) : rsplitOnce c s = none := by
  rw [rsplitOnce, Pieces.splitOnce_none fun hc ↦ h (mem_reverse.1 hc), Option.map_none]

theorem hostAndPort_append {host : Chars} (h : ':' ∉ host) (port : Option ℕ) :
    hostAndPort (host ++ portText port) = some (host, port.map decimal) := by
  rcases port with _ | port
  · rw [portText, append_nil, hostAndPort, rsplitOnce_none h]
    rfl
  · have hdigits : ':' ∉ decimal port := fun hc ↦ absurd (decimal_digits port _ hc) (by decide)
    rw [portText, hostAndPort, rsplitOnce_append hdigits]
    simp only [if_neg h]
    rfl

theorem canonicalPort_some {scheme : Chars} {rawPort : Option Chars} {port : ℕ}
    (h : canonicalPort scheme rawPort = some (some port)) :
    port ≤ 65535 ∧ port ≠ defaultPort scheme := by
  rw [canonicalPort.eq_def] at h
  split at h
  · simp at h
  · simp at h
  · split at h
    · simp at h
    · obtain ⟨parsed, hparsed, hport⟩ := Option.map_eq_some_iff.1 h
      split at hport
      · rename_i hother
        cases hport
        refine ⟨?_, hother⟩
        rw [parseUnsigned_eq] at hparsed
        split at hparsed
        · simp at hparsed
        · split at hparsed
          · rename_i hle
            rwa [Option.some.inj hparsed] at hle
          · simp at hparsed
      · simp at hport

theorem canonicalPort_stable {scheme : Chars} {rawPort : Option Chars} {port : Option ℕ}
    (h : canonicalPort scheme rawPort = some port) :
    canonicalPort (lower scheme) (port.map decimal) = some port := by
  rcases port with _ | port
  · rfl
  · obtain ⟨hle, hother⟩ := canonicalPort_some h
    have hdefault : defaultPort (lower scheme) = defaultPort scheme := by
      rw [defaultPort, defaultPort, lower_lower]
    rw [Option.map_some, canonicalPort.eq_def]
    split
    · rename_i hnone
      simp at hnone
    · rename_i hnil
      exact absurd (Option.some.inj hnil) (decimal_ne_nil port)
    · rename_i value hvalue
      cases hvalue
      rw [if_neg (by rw [Bool.not_eq_false, all_eq_true]; exact decimal_digits port),
        parseUnsigned_decimal hle, Option.map_some, hdefault, if_pos hother]

/-! ## Taking a canonical link apart -/

theorem UrlParts.render_eq (parts : UrlParts) (host : Chars) (port : Option ℕ) :
    parts.render host port = lower parts.scheme ++ "://".toList ++ (host ++ portText port) ++
      renderTail parts.path parts.query := by
  rw [UrlParts.render.eq_def, renderTail, writtenPath, writtenQuery]
  rcases port with _ | port
  · simp only [portText, append_assoc]
  · simp only [portText, append_assoc]

/-- A text that is a scheme, an authority and a tail is taken apart there. -/
theorem urlParts_of_trim {text scheme authority tail : Chars}
    (hscheme : lower scheme = "http".toList ∨ lower scheme = "https".toList)
    (hauthority : ∀ c ∈ authority, c ≠ '/' ∧ c ≠ '?' ∧ c ≠ '#')
    (htail : ∀ c ∈ tail.head?, c = '/' ∨ c = '?') (hhash : '#' ∉ tail)
    (htext : trim text = scheme ++ "://".toList ++ authority ++ tail) :
    urlParts text = some ⟨scheme, authority, (splitTail tail).1, (splitTail tail).2⟩ := by
  have hcolon : ':' ∉ scheme := by
    intro hc
    have hlower : ':' ∈ lower scheme := mem_map.2 ⟨':', hc, rfl⟩
    rcases hscheme with hs | hs
    · rw [hs] at hlower
      simp at hlower
    · rw [hs] at hlower
      simp at hlower
  have hno : '#' ∉ authority ++ tail := by
    rw [mem_append, not_or]
    exact ⟨fun hc ↦ (hauthority _ hc).2.2 rfl, hhash⟩
  have hin : ∀ c ∈ authority, (!(c == '/' || c == '?')) = true := by
    intro c hc
    obtain ⟨hslash, hmark, -⟩ := hauthority c hc
    rw [beq_eq_false_iff_ne.2 hslash, beq_eq_false_iff_ne.2 hmark]
    rfl
  have hout : ∀ c ∈ tail.head?, (!(c == '/' || c == '?')) = false := by
    intro c hc
    rcases htail c hc with rfl | rfl <;> rfl
  have htake : tail.takeWhile (fun c ↦ !(c == '/' || c == '?')) = [] := by
    rcases tail with _ | ⟨c, tail⟩
    · rfl
    · rw [takeWhile_cons_of_neg]
      rw [hout c rfl]
      exact Bool.false_ne_true
  rw [urlParts, htext, append_assoc, splitScheme_append hcolon]
  simp only
  rw [if_neg (by rw [not_and_or, not_not, not_not]; exact hscheme), Pieces.splitOnce_none hno,
    Option.getD_none, takeWhile_append_of_pos hin, dropWhile_append_of_pos hin, htake,
    append_nil, Pieces.dropWhile_eq_self hout]
  rfl

theorem canonicalUrl_eq_some {lib : Library} {out : Chars} : canonicalUrl lib raw = some out ↔
    ∃ parts host port, urlParts raw = some parts ∧
      canonicalAuthority lib parts.scheme parts.authority = some (host, port) ∧
      out = parts.render host port := by
  rw [canonicalUrl]
  simp only [Option.bind_eq_bind, Option.bind_eq_some_iff, Prod.exists, Option.pure_def,
    Option.some.injEq]
  constructor
  · rintro ⟨parts, hparts, host, port, hauthority, rfl⟩
    exact ⟨parts, host, port, hparts, hauthority, rfl⟩
  · rintro ⟨parts, host, port, hparts, hauthority, rfl⟩
    exact ⟨parts, hparts, host, port, hauthority, rfl⟩

section Links

variable {lib : Library} (hlib : lib.Lawful)

include hlib

/-- A host that is accepted is accepted as it is written. -/
theorem canonicalHost_stable {rawHost host : Chars} (h : canonicalHost lib rawHost = some host) :
    canonicalHost lib host = some host ∧ host ≠ [] ∧ ∀ c ∈ host, isDomainChar c = true := by
  rw [canonicalHost] at h
  split at h
  · rename_i address haddress
    cases h
    have hchars : ∀ c ∈ showIpv4 address, isDomainChar c = true := by
      intro c hc
      rcases mem_showIpv4 hc with hdigit | rfl
      · exact isDomainChar_of_digit hdigit
      · decide
    have hdots : trimEndDots (showIpv4 address) = showIpv4 address := by
      refine Pieces.rdropWhile_eq_self fun c hc ↦ ?_
      have hlast : (showIpv4 address).getLast? = (decimal (address.toNat % 256)).getLast? := by
        have hne : ∀ (n : ℕ) (t : Chars), decimal n ++ t ≠ [] := fun n _ ↦
          append_ne_nil_of_left_ne_nil (decimal_ne_nil n) _
        rw [showIpv4, Pieces.getLast?_append_cons _ _ (hne _ _),
          Pieces.getLast?_append_cons _ _ (hne _ _), Pieces.getLast?_append_cons _ _ (decimal_ne_nil _)]
      rw [hlast] at hc
      rw [beq_eq_false_iff_ne]
      rintro rfl
      exact absurd (decimal_digits _ _ (mem_of_mem_getLast? hc)) (by decide)
    refine ⟨?_, ?_, hchars⟩
    · rw [canonicalHost, hdots, parseIpv4, hlib.parse_showIpv4]
    · rw [showIpv4]
      exact append_ne_nil_of_left_ne_nil (decimal_ne_nil _) _
  · obtain ⟨hne, hchars, hdots⟩ := canonicalDomain_chars h
    refine ⟨?_, hne, hchars⟩
    have htrim : trimEndDots host = host := Pieces.rdropWhile_eq_self hdots.2
    rw [canonicalHost, htrim]
    split
    · rename_i address haddress
      rw [parseIpv4] at haddress
      split at haddress
      · rename_i a ha
        cases haddress
        rw [← hlib.parse_v4 _ _ ha]
      · simp at haddress
    · exact canonicalDomain_stable h

theorem canonicalAuthority_stable {scheme authority host : Chars} {port : Option ℕ}
    (h : canonicalAuthority lib scheme authority = some (host, port)) :
    canonicalAuthority lib (lower scheme) (host ++ portText port) = some (host, port) ∧
      host ≠ [] ∧ ∀ c ∈ host, isDomainChar c = true := by
  rw [canonicalAuthority] at h
  split at h
  · simp at h
  · simp only [Option.bind_eq_bind, Option.bind_eq_some_iff, Prod.exists,
      Option.ite_none_left_eq_some, Option.pure_def, Option.some.injEq, Prod.mk.injEq] at h
    obtain ⟨rawHost, rawPort, -, -, host', hhost, port', hport, rfl, rfl⟩ := h
    obtain ⟨hstable, hne, hchars⟩ := canonicalHost_stable hlib hhost
    have hno : ∀ x, isDomainChar x = false → x ∉ host' := fun x hx hc ↦
      domainChar_ne (hchars x hc) hx rfl
    refine ⟨?_, hne, hchars⟩
    rw [canonicalAuthority, if_neg]
    · simp only [Option.bind_eq_bind, hostAndPort_append (hno ':' (by decide)), Option.bind_some,
        if_neg hne, hstable, canonicalPort_stable hport, Option.pure_def]
    · rintro (hnil | hat | hbracket)
      · exact hne (append_eq_nil_iff.1 hnil).1
      · rcases mem_append.1 hat with hat | hat
        · exact hno _ (by decide) hat
        · rcases port' with _ | port'
          · cases hat
          · rcases mem_cons.1 hat with hat | hat
            · simp at hat
            · exact absurd (decimal_digits _ _ hat) (by decide)
      · rw [head?_append_of_ne_nil _ hne] at hbracket
        exact hno _ (by decide) (mem_of_mem_head? hbracket)

/-! ## Canonical links -/

/-- The canonical form of a canonical link: its tail is written again. -/
theorem canonicalUrl_render {parts : UrlParts} {host : Chars} {port : Option ℕ}
    (hparts : urlParts raw = some parts)
    (hauthority : canonicalAuthority lib parts.scheme parts.authority = some (host, port)) :
    canonicalUrl lib (parts.render host port) =
      some (lower parts.scheme ++ "://".toList ++ (host ++ portText port) ++
        rewriteTail (renderTail parts.path parts.query)) := by
  obtain ⟨hscheme, hpath, hhash, hqueryHash⟩ := urlParts_valid hparts
  obtain ⟨hstable, hne, hchars⟩ := canonicalAuthority_stable hlib hauthority
  have hport : ∀ c ∈ portText port, isAsciiDigit c = true ∨ c = ':' := by
    rcases port with _ | port
    · exact nofun
    · exact forall_mem_cons.2 ⟨.inr rfl, fun c hc ↦ .inl (decimal_digits port c hc)⟩
  have hauthorityChars : ∀ c ∈ host ++ portText port, isDomainChar c = true ∨ c = ':' := by
    refine forall_mem_append.2 ⟨fun c hc ↦ .inl (hchars c hc), fun c hc ↦ ?_⟩
    rcases hport c hc with hdigit | hcolon
    · exact .inl (isDomainChar_of_digit hdigit)
    · exact .inr hcolon
  have hseparators : ∀ c ∈ host ++ portText port, c ≠ '/' ∧ c ≠ '?' ∧ c ≠ '#' := by
    intro c hc
    rcases hauthorityChars c hc with hc | rfl
    · exact ⟨domainChar_ne hc (by decide), domainChar_ne hc (by decide), domainChar_ne hc (by decide)⟩
    · decide
  have hwhite : ∀ c ∈ lower parts.scheme ++ "://".toList ++ (host ++ portText port),
      Text.isWhitespace c = false := by
    refine forall_mem_append.2 ⟨forall_mem_append.2 ⟨?_, by simp [Text.isWhitespace]⟩, ?_⟩
    · rcases hscheme with hs | hs
      · rw [hs]
        simp [Text.isWhitespace]
      · rw [hs]
        simp [Text.isWhitespace]
    · intro c hc
      rcases hauthorityChars c hc with hc | rfl
      · exact domainChar_not_whitespace hc
      · decide
  have htrim := Pieces.trim_append (p := Text.isWhitespace)
    (append_ne_nil_of_right_ne_nil _ (append_ne_nil_of_left_ne_nil hne _))
    (Pieces.Trimmed.of_all hwhite) (renderTail parts.path parts.query)
  have hkept := rdropWhile_prefix Text.isWhitespace (renderTail parts.path parts.query)
  have hnoHash : '#' ∉ renderTail parts.path parts.query := not_mem_renderTail hhash hqueryHash
  have hhead : ∀ c ∈ ((renderTail parts.path parts.query).rdropWhile Text.isWhitespace).head?,
      c = '/' ∨ c = '?' := by
    intro c hc
    obtain ⟨rest, hrest⟩ := head?_eq_some_iff.1 hc
    obtain ⟨more, hmore⟩ := hkept
    rw [hrest] at hmore
    exact head_renderTail hpath c (by rw [← hmore]; rfl)
  rw [← UrlParts.render_eq] at htrim
  have hagain := urlParts_of_trim (by rwa [lower_lower]) hseparators hhead
    (fun hc ↦ hnoHash (hkept.subset hc)) htrim
  refine (canonicalUrl_eq_some.2 ⟨_, host, port, hagain, hstable, rfl⟩).trans ?_
  rw [UrlParts.render_eq, lower_lower]
  rfl

/-- **A canonical link is its own canonical form when the link is settled.** -/
theorem canonicalUrl_stable_iff {parts : UrlParts} {host : Chars} {port : Option ℕ}
    (hparts : urlParts raw = some parts)
    (hauthority : canonicalAuthority lib parts.scheme parts.authority = some (host, port)) :
    canonicalUrl lib (parts.render host port) = some (parts.render host port) ↔ parts.Settled := by
  rw [canonicalUrl_render hlib hparts hauthority, UrlParts.render_eq, Option.some.injEq,
    append_cancel_left_eq, tail_stable_iff (urlParts_valid hparts).path]

end Links

/-! ## Every kind -/

/-- The values whose canonical form is stable: all but the domains with white space inside their
outer dots and the links that are not settled. -/
def Settled (lib : Library) (kind : EntityKind) (value : Chars) : Prop :=
  match kind with
  | .domain => Pieces.Trimmed Text.isWhitespace (trimDots (trim value))
  | .url => ∀ parts, urlParts value = some parts →
      (canonicalAuthority lib parts.scheme parts.authority).isSome → parts.Settled
  | _ => True

section Stable

variable {lib : Library} (hlib : lib.Lawful) (canonicalCoordinates : Chars → Option Chars)

include hlib

theorem normalise_url_stable_iff (v : Chars) :
    normalise lib canonicalCoordinates .url (normalise lib canonicalCoordinates .url v) =
      normalise lib canonicalCoordinates .url v ↔ Settled lib .url v := by
  change (canonicalUrl lib ((canonicalUrl lib v).getD (trim v))).getD
    (trim ((canonicalUrl lib v).getD (trim v))) = (canonicalUrl lib v).getD (trim v) ↔ _
  have hparts : urlParts (trim v) = urlParts v := by
    rw [urlParts, urlParts, trim_trim]
  have htrim : canonicalUrl lib (trim v) = canonicalUrl lib v := by
    rw [canonicalUrl, canonicalUrl, hparts]
  rcases hv : canonicalUrl lib v with _ | out
  · rw [Option.getD_none, htrim, hv, Option.getD_none, trim_trim]
    refine iff_of_true rfl fun parts hparts hauthority ↦ ?_
    obtain ⟨⟨host, port⟩, hsome⟩ := Option.isSome_iff_exists.1 hauthority
    have hout := canonicalUrl_eq_some.2 ⟨parts, host, port, hparts, hsome, rfl⟩
    exact absurd (hv.symm.trans hout) (by simp)
  · obtain ⟨parts, host, port, hparts, hauthority, rfl⟩ := canonicalUrl_eq_some.1 hv
    have hstable := canonicalUrl_stable_iff hlib hparts hauthority
    have hsettled : Settled lib .url v ↔ parts.Settled := by
      refine ⟨fun h ↦ h parts hparts (by rw [hauthority]; rfl), fun h parts' hparts' _ ↦ ?_⟩
      rwa [← Option.some.inj (hparts.symm.trans hparts')]
    rw [hsettled, ← hstable, Option.getD_some, canonicalUrl_render hlib hparts hauthority,
      Option.getD_some, Option.some.injEq]

theorem normalise_other_stable {kind : EntityKind} (hcoordinates : kind ≠ .coordinates)
    (hdomain : kind ≠ .domain) (hurl : kind ≠ .url) (v : Chars) :
    normalise lib canonicalCoordinates kind (normalise lib canonicalCoordinates kind v) =
      normalise lib canonicalCoordinates kind v := by
  have hlower : ∀ v, lower (trim (lower (trim v))) = lower (trim v) := fun v ↦ by
    rw [trim_lower, trim_trim, lower_lower]
  rcases kind
  case email =>
    exact getD_stable (f := canonicalEmail) (g := fun v ↦ lower (trim v))
      (fun d ↦ canonicalEmail_stable)
      (fun h ↦ (canonicalEmail_lower_trim v).trans h) (hlower v)
  case username =>
    exact getD_stable (f := canonicalHandle) (g := fun v ↦ lower (trim v))
      (fun d ↦ canonicalHandle_stable)
      (fun h ↦ (canonicalHandle_lower_trim v).trans h) (hlower v)
  case phone =>
    exact getD_stable (f := canonicalPhone lib) (g := trim) (fun d ↦ canonicalPhone_stable lib)
      (fun h ↦ (canonicalPhone_trim lib v).trans h) (trim_trim v)
  case ipAddress =>
    exact getD_stable (f := canonicalIpLiteral lib) (g := trim)
      (fun d ↦ canonicalIpLiteral_stable hlib)
      (fun h ↦ (canonicalIpLiteral_trim lib v).trans h) (trim_trim v)
  case netblock =>
    refine getD_stable (f := fun v ↦ (Netblock.parse lib v).map (Netblock.show lib))
      (g := canonicalWhitespace) (fun d h ↦ ?_) (fun h ↦ ?_) (canonicalWhitespace_stable v)
    · obtain ⟨block, hblock, rfl⟩ := Option.map_eq_some_iff.1 h
      rw [Netblock.parse_show hlib hblock, Option.map_some]
    · rw [Netblock.parse_canonicalWhitespace hlib (Option.map_eq_none_iff.1 h), Option.map_none]
  case cryptoAddress =>
    change (if solanaPrefix.isPrefixOf (trim _) then trim _ else canonicalWhitespace _) = _
    by_cases hsol : solanaPrefix.isPrefixOf (trim v)
    · have hkept : normalise lib canonicalCoordinates .cryptoAddress v = trim v := if_pos hsol
      rw [hkept, trim_trim, if_pos hsol]
    · have hkept : normalise lib canonicalCoordinates .cryptoAddress v = canonicalWhitespace v :=
        if_neg hsol
      rw [hkept, trim_canonicalWhitespace, canonicalWhitespace_stable, ite_self]
  case credential => exact trim_trim v
  case document => exact trim_trim v
  case domain => exact absurd rfl hdomain
  case url => exact absurd rfl hurl
  case coordinates => exact absurd rfl hcoordinates
  all_goals exact canonicalWhitespace_stable v

/-- **Exactly when canonical forms are stable.**  Normalising a canonical form again changes nothing
just when the value is settled, which every value of a kind other than a domain and a link is; and
an accepted link's canonical form is its own canonical form just when the link is settled. -/
theorem normalise_stable_iff :
    (∀ kind, kind ≠ .coordinates → ∀ v,
      normalise lib canonicalCoordinates kind (normalise lib canonicalCoordinates kind v) =
        normalise lib canonicalCoordinates kind v ↔ Settled lib kind v) ∧
    ∀ u out, canonicalUrl lib u = some out →
      (canonicalUrl lib out = some out ↔ Settled lib .url u) := by
  refine ⟨fun kind hkind v ↦ ?_, fun u out hout ↦ ?_⟩
  · by_cases hdomain : kind = .domain
    · have hnormal : ∀ v, normalise lib canonicalCoordinates .domain v = lower (trimDots (trim v)) :=
        getD_canonicalDomain
      rw [hdomain, hnormal, hnormal, lower_trimDots_trim_stable_iff]
      exact Iff.rfl
    · by_cases hurl : kind = .url
      · rw [hurl]
        exact normalise_url_stable_iff hlib canonicalCoordinates v
      · refine iff_of_true (normalise_other_stable hlib canonicalCoordinates hkind hdomain hurl v) ?_
        rcases kind <;> first | exact trivial | exact absurd rfl hdomain | exact absurd rfl hurl
  · obtain ⟨parts, host, port, hparts, hauthority, rfl⟩ := canonicalUrl_eq_some.1 hout
    rw [canonicalUrl_stable_iff hlib hparts hauthority]
    refine ⟨fun h parts' hparts' _ ↦ ?_, fun h ↦ h parts hparts (by rw [hauthority]; rfl)⟩
    rwa [← Option.some.inj (hparts.symm.trans hparts')]

end Stable

theorem normalise_stable_iff_plain :
    normalise .plain (fun _ ↦ none) .url
      (normalise .plain (fun _ ↦ none) .url "HTTP://Example.com:80/?b=2&a=1#top".toList) =
        normalise .plain (fun _ ↦ none) .url "HTTP://Example.com:80/?b=2&a=1#top".toList ↔
      Settled .plain .url "HTTP://Example.com:80/?b=2&a=1#top".toList :=
  (normalise_stable_iff Library.plain_lawful fun _ ↦ none).1 .url (by decide) _

/-- White space inside the outer dots of a domain is trimmed only the next time. -/
theorem domain_changes_twice :
    ¬ ∀ kind, kind ≠ .coordinates → ∀ v,
      normalise .plain (fun _ ↦ none) kind (normalise .plain (fun _ ↦ none) kind v) =
        normalise .plain (fun _ ↦ none) kind v := by
  intro h
  exact absurd (h .domain (by decide) ". example.com".toList) (by decide)

end Huntsman.Canonical
