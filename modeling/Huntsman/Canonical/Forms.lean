import Huntsman.Entity
import Huntsman.Lib.Pieces
import Mathlib.Data.Char
import Mathlib.Data.List.Lex
import Mathlib.Data.Prod.Lex

/-!
# Canonical forms

The one written form of each kind of value, which an entity's value is stored in and its uid is
derived from.  A `str` is the list of its characters here.

`Library` is what these rules take from Rust's standard library that depends on tables or on a
grammar of its own: whether a character is alphabetic, the reading of an IP address, and the writing
of an IPv6 one.

`canonicalUrl` is the source's, cut in two: `urlParts` takes a link apart, and `UrlParts.render`
puts the canonical parts together.
-/

set_option autoImplicit false

namespace Huntsman.Canonical

abbrev Chars := List Char

/-! ## Text -/

/-- `str::len`, in bytes. -/
def len (s : Chars) : ℕ := (s.map Char.utf8Size).sum

/-- `str::trim`. -/
def trim (s : Chars) : Chars := Pieces.trim Text.isWhitespace s

/-- `str::trim_matches('.')`. -/
def trimDots (s : Chars) : Chars := Pieces.trim (· == '.') s

/-- `str::trim_end_matches('.')`. -/
def trimEndDots (s : Chars) : Chars := s.rdropWhile (· == '.')

/-- `str::to_ascii_lowercase`. -/
def lower (s : Chars) : Chars := s.map Char.toLower

/-- `char::is_ascii_alphanumeric`. -/
def isAsciiAlphanumeric (c : Char) : Bool := c.isAlphanum

/-- `char::is_ascii_digit`. -/
def isAsciiDigit (c : Char) : Bool := c.isDigit

/-- `str::rsplit_once`. -/
def rsplitOnce (c : Char) (s : Chars) : Option (Chars × Chars) :=
  (Pieces.splitOnce c s.reverse).map fun r ↦ (r.2.reverse, r.1.reverse)

/-- `str::split_once` at `://`. -/
def splitScheme : Chars → Option (Chars × Chars)
  | [] => none
  | ':' :: '/' :: '/' :: rest => some ([], rest)
  | c :: s => (splitScheme s).map fun r ↦ (c :: r.1, r.2)

/-- `str::parse` for an unsigned number that is at most `max`. -/
def parseUnsigned (max : ℕ) (s : Chars) : Option ℕ :=
  let digits := match s with
    | '+' :: rest => rest
    | _ => s
  if digits = [] ∨ digits.all isAsciiDigit = false then none
  else
    let n := Nat.ofDigitChars 10 digits 0
    if n ≤ max then some n else none

/-- A number as it is written. -/
def decimal (n : ℕ) : Chars := Nat.toDigits 10 n

theorem decimal_injective : Function.Injective decimal := fun m n h ↦ by
  have hback : ∀ k, Nat.ofDigitChars 10 (decimal k) 0 = k := fun k ↦ Nat.ofDigitChars_ten_toDigits
  rw [← hback m, h, hback n]

def canonicalWhitespace (raw : Chars) : Chars :=
  [' '].intercalate ((Pieces.words Text.isWhitespace raw).map lower)

def canonicalName (raw : Chars) : Chars := canonicalWhitespace raw

/-! ## Handles -/

def canonicalHandle (raw : Chars) : Option Chars :=
  let raw := (trim raw).dropWhile (· == '@')
  if 40 < len raw then none
  else
    let trimmed := lower (raw.filter fun c ↦ !(c == '.' || c == '_' || c == '-'))
    if trimmed = [] ∨ trimmed.all isAsciiAlphanumeric = false then none else some trimmed

/-! ## Domains and addresses of mail -/

/-- Whether `label` is one valid DNS label. -/
def isDomainLabel (label : Chars) : Bool :=
  !label.isEmpty && decide (len label ≤ 63) && label.head? != some '-' &&
    label.getLast? != some '-' && label.all fun c ↦ isAsciiAlphanumeric c || c == '-'

/-- A top-level label of digits alone. -/
def numericTld (labels : List Chars) : Bool := labels.getLast?.any fun tld ↦ tld.all isAsciiDigit

def canonicalDomain (raw : Chars) : Option Chars :=
  let domain := lower (trimDots (trim raw))
  if domain = [] ∨ 253 < len domain then none
  else
    let labels := domain.splitOn '.'
    if labels.length < 2 ∨ labels.all isDomainLabel = false ∨ numericTld labels = true then none
    else if numericTld labels then none
    else some domain

inductive EmailLocalError where
  | length | dotEdge | consecutiveDots
deriving DecidableEq

/-- The shape defect of an email's local part. -/
def emailLocalError (localPart : Chars) : Option EmailLocalError :=
  if localPart = [] ∨ 64 < len localPart then some .length
  else if localPart.head? = some '.' ∨ localPart.getLast? = some '.' then some .dotEdge
  else if localPart.tails.any ['.', '.'].isPrefixOf then some .consecutiveDots
  else none

def canonicalEmail (raw : Chars) : Option Chars := do
  let (localPart, domain) ← Pieces.splitOnce '@' (lower (trim raw))
  if (emailLocalError localPart).isSome || !localPart.all fun c ↦
      isAsciiAlphanumeric c || c == '.' || c == '_' || c == '+' || c == '-' then none
  else
    let domain ← canonicalDomain domain
    return localPart ++ '@' :: domain

/-! ## Phone numbers -/

inductive PhoneE164Error where
  | missingPlus | nonDigit | countryCodeLeadingZero | length (n : ℕ)
deriving DecidableEq

def phoneE164Error (value : Chars) : Option PhoneE164Error :=
  match value with
  | '+' :: digits =>
    if digits.all isAsciiDigit = false then some .nonDigit
    else if digits.head? = some '0' then some .countryCodeLeadingZero
    else if ¬ (8 ≤ len digits ∧ len digits ≤ 15) then some (.length (len digits))
    else none
  | _ => some .missingPlus

/-- The one national number rule that every way of writing one shares. -/
def auNationalKey (national : Chars) : Option Chars :=
  let ok := (len national == 9 && national.head?.any fun c ↦ "234578".toList.contains c) ||
    (len national == 10 && ("1300".toList.isPrefixOf national ||
      "1800".toList.isPrefixOf national || "190".toList.isPrefixOf national)) ||
    (len national == 6 && "13".toList.isPrefixOf national)
  let candidate := "+61".toList ++ national
  if ok && (phoneE164Error candidate).isNone then some candidate else none

/-- The characters of a number that are dialled. -/
def dialled (raw : Chars) : Chars := raw.filter fun c ↦ isAsciiDigit c || c == '+'

def normaliseAuPhone (raw : Chars) : Option Chars :=
  let compact := dialled raw
  match ("+61".toList.isPrefixOf? compact).or ("0061".toList.isPrefixOf? compact) with
  | some rest =>
    match rest with
    | '0' :: after => if (auNationalKey after).isSome then auNationalKey after else auNationalKey rest
    | _ => auNationalKey rest
  | none =>
    if '+' ∈ compact then none
    else
      let bare := match "61".toList.isPrefixOf? compact with
        | some national => if len national = 9 then auNationalKey national else none
        | none => none
      match bare with
      | some key => some key
      | none =>
        match compact with
        | '0' :: national => if len national = 9 then auNationalKey national else auNationalKey compact
        | _ => auNationalKey compact

/-- The ASCII digit of an Arabic-Indic or Extended Arabic-Indic one. -/
def easternDigit (c : Char) : Option Char :=
  let n := c.toNat
  if 0x0660 ≤ n ∧ n ≤ 0x0669 then some (Char.ofNat (48 + (n - 0x0660)))
  else if 0x06f0 ≤ n ∧ n ≤ 0x06f9 then some (Char.ofNat (48 + (n - 0x06f0)))
  else none

/-- The marks that right-to-left text puts around a number. -/
def isDirectionMark (c : Char) : Bool :=
  let n := c.toNat
  n == 0x061c || n == 0x200e || n == 0x200f || (0x202a ≤ n && n ≤ 0x202e) ||
    (0x2066 ≤ n && n ≤ 0x2069)

/-- A text with ASCII digits and without direction marks; one that holds neither is unchanged. -/
def westernDigits (raw : Chars) : Chars :=
  (raw.filter fun c ↦ !isDirectionMark c).map fun c ↦ (easternDigit c).getD c

/-! ## What the standard library does -/

inductive IpAddr where
  | v4 (address : BitVec 32)
  | v6 (address : BitVec 128)
deriving DecidableEq

/-- The functions of the standard library that are not written out here. -/
structure Library where
  /-- `char::is_alphabetic`. -/
  isAlphabetic : Char → Bool
  /-- `str::parse::<IpAddr>`. -/
  parseIp : Chars → Option IpAddr
  /-- An IPv6 address as it is written. -/
  showIpv6 : BitVec 128 → Chars

/-- An IPv4 address as it is written. -/
def showIpv4 (a : BitVec 32) : Chars :=
  decimal (a.toNat / 256 ^ 3) ++ '.' :: (decimal (a.toNat / 256 ^ 2 % 256) ++
    '.' :: (decimal (a.toNat / 256 % 256) ++ '.' :: decimal (a.toNat % 256)))

/-- `IpAddr::to_canonical`: an IPv4 address in IPv6 form is that IPv4 address. -/
def IpAddr.toCanonical : IpAddr → IpAddr
  | .v4 a => .v4 a
  | .v6 a => if a.toNat / 2 ^ 32 = 0xffff then .v4 (a.setWidth 32) else .v6 a

/-- The bits of an address that a prefix of this length leaves. -/
def mask (width length : ℕ) : BitVec width :=
  if length = 0 then 0 else BitVec.allOnes width <<< (width - length)

/-- A block: its first address and its prefix length. -/
structure Netblock where
  address : IpAddr
  prefixLength : ℕ
deriving DecidableEq

/-- The first address of the block. -/
def Netblock.network (block : Netblock) : IpAddr :=
  match block.address with
  | .v4 a => .v4 (a &&& mask 32 block.prefixLength)
  | .v6 a => .v6 (a &&& mask 128 block.prefixLength)

/-- The longest prefix of an address of this family. -/
def IpAddr.width : IpAddr → ℕ
  | .v4 _ => 32
  | .v6 _ => 128

section Rules

variable (lib : Library)

def showIp : IpAddr → Chars
  | .v4 a => showIpv4 a
  | .v6 a => lib.showIpv6 a

/-- `str::parse::<Ipv4Addr>`. -/
def parseIpv4 (s : Chars) : Option (BitVec 32) :=
  match lib.parseIp s with
  | some (.v4 a) => some a
  | _ => none

/-! ## Phone numbers, continued -/

/-- Whether a letter, `#`, `;` or `,` stands between two digits, with whether a digit and such a
marker after it were seen. -/
def hasDigitsAfterAMarkerAux : Bool → Bool → Chars → Bool
  | _, _, [] => false
  | seenDigit, marker, c :: rest =>
    if isAsciiDigit c then marker || hasDigitsAfterAMarkerAux true marker rest
    else if seenDigit && (lib.isAlphabetic c || c == '#' || c == ';' || c == ',') then
      hasDigitsAfterAMarkerAux seenDigit true rest
    else hasDigitsAfterAMarkerAux seenDigit marker rest

def hasDigitsAfterAMarker (raw : Chars) : Bool := hasDigitsAfterAMarkerAux lib false false raw

/-- A number whose international prefix was written as a `+`. -/
def finishPhone (candidate : Chars) : Option Chars :=
  if "+61".toList.isPrefixOf candidate then normaliseAuPhone candidate
  else if (phoneE164Error candidate).isNone then some candidate
  else none

def canonicalPhone (raw : Chars) : Option Chars :=
  let number := (westernDigits raw).dropWhile fun c ↦ !(isAsciiDigit c || c == '+')
  if hasDigitsAfterAMarker lib number then none
  else
    let digits := dialled number
    if digits.head? = some '+' then finishPhone digits
    else
      match ("0011".toList.isPrefixOf? digits).or ("00".toList.isPrefixOf? digits) with
      | some international =>
        let candidate := '+' :: international
        if "+1".toList.isPrefixOf candidate && len candidate != 12 then none
        else finishPhone candidate
      | none => normaliseAuPhone number

/-! ## IP addresses -/

/-- The text without brackets around it. -/
def unbracketed (raw : Chars) : Chars :=
  match raw with
  | '[' :: inner => if inner.getLast? = some ']' then inner.dropLast else raw
  | _ => raw

/-- The address a text writes. -/
def parseIpLiteral (raw : Chars) : Option IpAddr :=
  (lib.parseIp (unbracketed (trim raw))).map IpAddr.toCanonical

/-- The one written form of an IP address. -/
def canonicalIpLiteral (raw : Chars) : Option Chars := (parseIpLiteral lib raw).map (showIp lib)

def Netblock.parse (raw : Chars) : Option Netblock := do
  let (address, prefixText) ← Pieces.splitOnce '/' (trim raw)
  let prefixLength ← parseUnsigned 255 (trim prefixText)
  let address ← lib.parseIp (trim address)
  if prefixLength ≤ address.width then
    let block : Netblock := ⟨address, prefixLength⟩
    return ⟨block.network, prefixLength⟩
  else none

/-- A block as it is written. -/
def Netblock.show (block : Netblock) : Chars :=
  showIp lib block.network ++ '/' :: decimal block.prefixLength

/-! ## Links -/

def trackingParams : List Chars :=
  ["gclid", "gclsrc", "dclid", "gbraid", "wbraid", "_ga", "_gl", "fbclid", "igshid", "igsh",
    "mibextid", "msclkid", "twclid", "ref_src", "ref_url", "yclid", "mc_cid", "mc_eid", "mkt_tok",
    "_hsenc", "_hsmi", "hsctatracking", "vero_id", "vero_conv", "oly_anon_id", "oly_enc_id",
    "wickedid", "spm", "scm", "s_kwcid", "_openstat", "icid"].map String.toList

/-- Whether a query's key only tracks who follows the link.  The first four bytes spell `utm_` when
the first four characters do. -/
def isTrackingParamKey (key : Chars) : Bool :=
  lower (key.take 4) == "utm_".toList || trackingParams.any fun known ↦ lower key == lower known

/-- A part of a query, in the order of its bytes: its key and its value. -/
abbrev Pair := Lex (Chars × Chars)

/-- The key and value of a part, or `none` for one that tracks. -/
def readPair (part : Chars) : Option Pair :=
  let (key, value) := (Pieces.splitOnce '=' part).getD (part, [])
  if isTrackingParamKey key then none else some (toLex (lower key, value))

/-- The pairs of a query that are kept, in the order they stand. -/
def queryPairs (raw : Chars) : List Pair :=
  ((raw.splitOn '&').filter fun part ↦ !part.isEmpty).filterMap readPair

def renderPair (pair : Pair) : Chars :=
  let (key, value) := ofLex pair
  if value = [] then key else key ++ '=' :: value

def canonicalQuery (raw : Chars) : Chars :=
  ['&'].intercalate (((queryPairs raw).mergeSort fun a b ↦ decide (a ≤ b)).map renderPair)

/-- The host and the port's text of an authority, unless more than one colon stands in it. -/
def hostAndPort (authority : Chars) : Option (Chars × Option Chars) :=
  match rsplitOnce ':' authority with
  | some (host, port) => if ':' ∈ host then none else some (host, some port)
  | none => some (authority, none)

def canonicalHost (rawHost : Chars) : Option Chars :=
  let rawHost := trimEndDots rawHost
  match parseIpv4 lib rawHost with
  | some address => some (showIpv4 address)
  | none => canonicalDomain rawHost

/-- The port of a scheme that need not be written. -/
def defaultPort (scheme : Chars) : ℕ :=
  if lower scheme = "http".toList then 80 else if lower scheme = "https".toList then 443 else 0

/-- The port that is written, `some none` where none is. -/
def canonicalPort (scheme : Chars) (rawPort : Option Chars) : Option (Option ℕ) :=
  match rawPort with
  | none | some [] => some none
  | some value =>
    if value.all isAsciiDigit = false then none
    else (parseUnsigned 65535 value).map fun parsed ↦
      if parsed ≠ defaultPort scheme then some parsed else none

def canonicalAuthority (scheme authority : Chars) : Option (Chars × Option ℕ) :=
  if authority = [] ∨ '@' ∈ authority ∨ authority.head? = some '[' then none
  else do
    let (rawHost, rawPort) ← hostAndPort authority
    if rawHost = [] then none
    else
      let host ← canonicalHost lib rawHost
      let port ← canonicalPort scheme rawPort
      return (host, port)

/-- The parts of a link, as they stand in it. -/
structure UrlParts where
  scheme : Chars
  authority : Chars
  path : Chars
  query : Chars
deriving DecidableEq

/-- A link taken apart, its fragment left out; `none` for one that is no link of the web. -/
def urlParts (raw : Chars) : Option UrlParts :=
  match splitScheme (trim raw) with
  | none => none
  | some (scheme, rest) =>
    if lower scheme ≠ "http".toList ∧ lower scheme ≠ "https".toList then none
    else
      let beforeFragment := ((Pieces.splitOnce '#' rest).getD (rest, [])).1
      let inAuthority := fun c : Char ↦ !(c == '/' || c == '?')
      let tail := beforeFragment.dropWhile inAuthority
      let (path, query) := (Pieces.splitOnce '?' tail).getD (tail, [])
      some ⟨scheme, beforeFragment.takeWhile inAuthority, path, query⟩

/-- The canonical parts put together. -/
def UrlParts.render (parts : UrlParts) (host : Chars) (port : Option ℕ) : Chars :=
  let path := if parts.path = "/".toList then [] else parts.path
  let query := canonicalQuery parts.query
  lower parts.scheme ++ "://".toList ++ host ++
    (match port with
      | none => []
      | some p => ':' :: decimal p) ++
    path ++ (if query = [] then [] else '?' :: query)

def canonicalUrl (raw : Chars) : Option Chars := do
  let parts ← urlParts raw
  let (host, port) ← canonicalAuthority lib parts.scheme parts.authority
  return parts.render host port

/-! ## Every kind -/

/-- The prefix of a Solana address. -/
def solanaPrefix : Chars := "sol:".toList

/-- `canonical_coordinates` reads and writes floating point, and is the parameter
`canonicalCoordinates`. -/
def normalise (canonicalCoordinates : Chars → Option Chars) (kind : EntityKind) (value : Chars) :
    Chars :=
  match kind with
  | .email => (canonicalEmail value).getD (lower (trim value))
  | .username => (canonicalHandle value).getD (lower (trim value))
  | .domain => (canonicalDomain value).getD (lower (trimDots (trim value)))
  | .url => (canonicalUrl lib value).getD (trim value)
  | .phone => (canonicalPhone lib value).getD (trim value)
  | .coordinates => (canonicalCoordinates value).getD (canonicalWhitespace value)
  | .person | .organisation | .address => canonicalName value
  | .ipAddress => (canonicalIpLiteral lib value).getD (trim value)
  | .credential | .document => trim value
  | .cryptoAddress =>
    if solanaPrefix.isPrefixOf (trim value) then trim value else canonicalWhitespace value
  | .deviceId | .ssid | .trackingId | .abnAcn | .apiKey | .macAddress | .asn | .other =>
    canonicalWhitespace value
  | .netblock => ((Netblock.parse lib value).map (Netblock.show lib)).getD (canonicalWhitespace value)

end Rules

end Huntsman.Canonical
