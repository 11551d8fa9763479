import Huntsman.Canonical.Forms
import Mathlib.Data.List.ReduceOption
import Std.Data.TreeSet

/-!
# What an entity and its records are shown as

A scan is shown as typed elements.  An entity has a type, which depends on what the scan was run
against (`entityType`), and the attributes of each of its evidence records describe further typed
elements, `descriptors`.

The functions of the standard library and of the other modules that a descriptor's text depends on
are in `Readers`.  Nothing is assumed of them.
-/

set_option autoImplicit false

namespace Huntsman.Elements

open Std Text

/-- What is read by functions that are not written out here. -/
structure Readers where
  lib : Canonical.Library
  /-- `str::parse::<f64>`. -/
  parseF64 : String → Option F64
  /-- A confidence in percent, rounded. -/
  percent : F64 → ℕ
  /-- `timefmt::parse_timestamp`. -/
  parseTimestamp : String → Option ℤ
  /-- `str::to_lowercase`. -/
  toLowercase : String → String
  canonicalCoordinates : Canonical.Chars → Option Canonical.Chars
  /-- `sf_country::of_element`. -/
  ofElement : String → String → List String

/-! ## Text -/

def eqIgnoreAsciiCase (s t : String) : Bool := toAsciiLowercase s == toAsciiLowercase t

/-- `str::to_ascii_uppercase`. -/
def toAsciiUppercase (s : String) : String := String.ofList (s.toList.map Char.toUpper)

/-- `str::trim_start_matches` for the letters of an AS number's prefix. -/
def trimAs (s : String) : String :=
  String.ofList (s.toList.dropWhile fun c ↦ c == 'A' || c == 'S' || c == 'a' || c == 's')

/-- What follows the last `c`. -/
def afterLast (c : Char) (s : String) : Option String :=
  (Canonical.rsplitOnce c s.toList).map fun parts ↦ String.ofList parts.2

/-- The items of a list attribute. -/
def items (value : String) : List String :=
  ((value.toList.splitOnP fun c ↦ c == ',' || c == ';' || c == '\n').map fun part ↦
    trim (String.ofList part)).filter (· ≠ "")

def isProperSubdomainOf (host domain : String) : Bool :=
  (stripSuffix host domain).any fun rest ↦ rest.toList.getLast? == some '.'

def isOrSubdomainOf (host domain : String) : Bool := host == domain || isProperSubdomainOf host domain

def multiLabelSuffixes : List String :=
  ["ac.in", "ac.jp", "ac.nz", "ac.uk", "ac.vn", "asn.au", "biz.vn", "co.id", "co.in", "co.jp",
    "co.nz", "co.uk", "co.za", "com.au", "com.br", "com.cn", "com.sg", "com.vn", "edu.au",
    "edu.sg", "edu.vn", "go.jp", "gov.au", "gov.br", "gov.in", "gov.sg", "gov.uk", "gov.vn",
    "govt.nz", "id.au", "me.uk", "name.vn", "ne.jp", "net.au", "net.br", "net.nz", "net.sg",
    "net.vn", "or.jp", "org.au", "org.br", "org.nz", "org.sg", "org.uk", "org.vn", "org.za",
    "sch.uk"]

def registrableDomain (host : String) : Option String :=
  let host := toAsciiLowercase (trimEndMatches '.' (trim host))
  let labels := (split "." host).filter (· ≠ "")
  if labels.length < 2 then none
  else
    let lastTwo := ".".intercalate (labels.drop (labels.length - 2))
    let take := if 3 ≤ labels.length ∧ lastTwo ∈ multiLabelSuffixes then 3 else 2
    some (".".intercalate (labels.drop (labels.length - take)))

/-- Where the range of characters up to the first of `stops` ends. -/
def upTo (stops : List Char) (s : List Char) : List Char := s.takeWhile (· ∉ stops)

/-- The host of a URL, an IPv6 address in its brackets. -/
def hostOf (url : String) : Option String :=
  match Canonical.splitScheme url.toList with
  | none => none
  | some (_, rest) =>
    let authority := upTo ['/', '?', '#'] rest
    if authority = [] then none
    else
      let authority := ((Canonical.rsplitOnce '@' authority).map Prod.snd).getD authority
      let host :=
        if authority.head? = some '[' then
          if ']' ∈ authority then some (upTo [']'] authority ++ [']']) else none
        else
          let name := upTo [':'] authority
          some (if name.getLast? = some '.' then name.dropLast else name)
      match host with
      | none => none
      | some host => if host = [] then none else some (toAsciiLowercase (String.ofList host))

/-- Whether IANA leaves `asn` for assignment to a network. -/
def isPublicAsn (asn : ℕ) : Bool :=
  !(asn == 0 || asn == 23456 || (64496 ≤ asn && asn ≤ 131071) || 4200000000 ≤ asn)

def canonicalAsn (raw : String) : Option String :=
  let upper := toAsciiUppercase (trim raw)
  let digits := (((stripPrefix upper "ASN").or (stripPrefix upper "AS")).getD upper).toList.dropWhile
    isWhitespace
  if digits = [] ∨ digits.all Char.isDigit = false then none
  else
    match Canonical.parseUnsigned (2 ^ 32 - 1) digits with
    | none => none
    | some number => if isPublicAsn number then some ("AS" ++ toString number) else none

/-! ## The target -/

/-- What a scan was run against. -/
structure Target where
  value : String
  /-- The type of the target's element. -/
  kind : String

namespace Target

variable (R : Readers) (target : Target)

def domain : Option String :=
  if target.kind = "INTERNET_NAME" ∨ target.kind = "DOMAIN_NAME" then some target.value else none

def isIp : Bool := target.kind == "IP_ADDRESS" || target.kind == "IPV6_ADDRESS"

def isNetblock : Bool := target.kind == "NETBLOCK_OWNER" || target.kind == "NETBLOCKV6_OWNER"

/-- Whether the target is the AS `asn`. -/
def isAs (asn : String) : Bool :=
  target.kind == "BGP_AS_OWNER" && trimAs (trim target.value) == trimAs (trim asn)

/-- Whether a domain is the target's. -/
def claims (domain : String) : Bool :=
  let value := trim target.value
  if target.kind ∈ ["HUMAN_NAME", "PHONE_NUMBER", "USERNAME", "BITCOIN_ADDRESS"] then true
  else if target.kind = "INTERNET_NAME" ∨ target.kind = "DOMAIN_NAME" then
    isOrSubdomainOf domain (R.toLowercase value)
  else if target.kind = "EMAILADDR" then
    (afterLast '@' value).any fun host ↦ isOrSubdomainOf domain (R.toLowercase host)
  else false

/-- Whether the target is of the entity's kind. -/
def wants : EntityKind → Bool
  | .domain => target.kind == "INTERNET_NAME" || target.kind == "DOMAIN_NAME"
  | .ipAddress => target.isIp
  | .email => target.kind == "EMAILADDR"
  | .phone => target.kind == "PHONE_NUMBER"
  | .username => target.kind == "USERNAME"
  | .person => target.kind == "HUMAN_NAME"
  | .asn => target.kind == "BGP_AS_OWNER"
  | .netblock => target.isNetblock
  | .macAddress => target.kind == "HSE_MAC_ADDRESS"
  | .ssid => target.kind == "HSE_WIFI_SSID"
  | .coordinates => target.kind == "PHYSICAL_COORDINATES"
  | .document => target.kind == "HSE_DOCUMENT"
  | _ => false

/-- Whether an entity is the target. -/
def names (entity : Entity) : Bool :=
  target.wants entity.kind &&
    (eqIgnoreAsciiCase entity.value (trim target.value) ||
      eqIgnoreAsciiCase entity.rawValue (trim target.value) ||
      (entity.kind == .asn && trimAs entity.value == trimAs (trim target.value)))

end Target

/-! ## Types -/

def baseType : EntityKind → String
  | .person => "HUMAN_NAME"
  | .organisation => "COMPANY_NAME"
  | .email => "EMAILADDR"
  | .phone => "PHONE_NUMBER"
  | .username => "USERNAME"
  | .domain => "DOMAIN_NAME"
  | .url => "LINKED_URL_EXTERNAL"
  | .ipAddress => "IP_ADDRESS"
  | .coordinates => "PHYSICAL_COORDINATES"
  | .address => "PHYSICAL_ADDRESS"
  | .credential => "PASSWORD_COMPROMISED"
  | .apiKey => "HSE_API_KEY"
  | .other => "HSE_OTHER"
  | .document => "HSE_DOCUMENT"
  | .cryptoAddress => "HSE_CRYPTO_ADDRESS"
  | .deviceId => "HSE_DEVICE_ID"
  | .ssid => "HSE_WIFI_SSID"
  | .trackingId => "WEB_ANALYTICS_ID"
  | .abnAcn => "HSE_COMPANY_REGISTRATION"
  | .macAddress => "HSE_MAC_ADDRESS"
  | .asn => "BGP_AS_MEMBER"
  | .netblock => "NETBLOCK_MEMBER"

def cryptoType (value : String) : String :=
  let hex := (stripPrefix value "0x").or (stripPrefix value "0X")
  if hex.any fun hex ↦ hex.toList.length == 40 && hex.toList.all fun c ↦
      c.isDigit || ('a' ≤ c && c ≤ 'f') || ('A' ≤ c && c ≤ 'F') then "ETHEREUM_ADDRESS"
  else if startsWith value "bc1" || startsWith value "1" || startsWith value "3" then
    "BITCOIN_ADDRESS"
  else "HSE_CRYPTO_ADDRESS"

/-- The type of a domain's element. -/
def domainType (entity : Entity) (target : Target) : String :=
  let unresolved := entity.hasTag "unresolved"
  match target.domain with
  | some domain =>
    if isOrSubdomainOf entity.value domain then
      if unresolved then "INTERNET_NAME_UNRESOLVED" else "INTERNET_NAME"
    else if entity.hasTag "lookalike" then "SIMILARDOMAIN"
    else if unresolved then "AFFILIATE_INTERNET_NAME_UNRESOLVED"
    else "AFFILIATE_INTERNET_NAME"
  | none =>
    if (target.isIp || target.isNetblock) && entity.hasTag "ptr" then "INTERNET_NAME"
    else if target.isIp then "CO_HOSTED_SITE"
    else if unresolved then "INTERNET_NAME_UNRESOLVED"
    else "INTERNET_NAME"

/-- The type of an entity's element. -/
def entityType (entity : Entity) (target : Target) : String :=
  match entity.kind with
  | .domain => domainType entity target
  | .email =>
    match target.domain, afterLast '@' entity.value with
    | some domain, some host =>
      if isOrSubdomainOf host domain then "EMAILADDR" else "AFFILIATE_EMAILADDR"
    | _, _ => "EMAILADDR"
  | .ipAddress => if contains entity.value ":" then "IPV6_ADDRESS" else baseType .ipAddress
  | .url =>
    if entity.hasTag "wikipedia-edit" then "WIKIPEDIA_PAGE_EDIT"
    else if entity.hasTag "app-store" then "APPSTORE_ENTRY"
    else
      match target.domain, hostOf entity.value with
      | some domain, some host =>
        if isOrSubdomainOf host domain then "LINKED_URL_INTERNAL" else "LINKED_URL_EXTERNAL"
      | _, _ => "LINKED_URL_EXTERNAL"
  | .cryptoAddress => cryptoType entity.value
  | .netblock =>
    match target.kind == "BGP_AS_OWNER", contains entity.value ":" with
    | true, false => "NETBLOCK_OWNER"
    | true, true => "NETBLOCKV6_OWNER"
    | false, false => "NETBLOCK_MEMBER"
    | false, true => "NETBLOCKV6_MEMBER"
  | kind => baseType kind

def maliciousType : EntityKind → Option String
  | .ipAddress => some "MALICIOUS_IPADDR"
  | .domain | .url => some "MALICIOUS_INTERNET_NAME"
  | .email => some "MALICIOUS_EMAILADDR"
  | .phone => some "MALICIOUS_PHONE_NUMBER"
  | .asn => some "MALICIOUS_ASN"
  | .netblock => some "MALICIOUS_NETBLOCK"
  | _ => none

def blacklistedType : EntityKind → Option String
  | .ipAddress => some "BLACKLISTED_IPADDR"
  | .domain => some "BLACKLISTED_INTERNET_NAME"
  | .netblock => some "BLACKLISTED_NETBLOCK"
  | _ => none

def compromisedType : EntityKind → Option String
  | .email => some "EMAILADDR_COMPROMISED"
  | .phone => some "PHONE_NUMBER_COMPROMISED"
  | .username => some "ACCOUNT_EXTERNAL_USER_SHARED_COMPROMISED"
  | _ => none

/-! ## What a record says -/

/-- A typed element that a record describes: its type and its text. -/
abbrev Descriptor := String × String

/-- An attribute that holds something. -/
def attr (evidence : Evidence) (key : String) : Option String :=
  (evidence.attributes[key]?).filter fun value ↦ trim value != ""

/-- The items of a list attribute, if it holds something. -/
def attrItems (evidence : Evidence) (key : String) : List String :=
  (attr evidence key).toList.flatMap items

/-- The attribute as an element of one type. -/
def whole (evidence : Evidence) (key kind : String) : List Descriptor :=
  ((attr evidence key).map fun value ↦ (kind, value)).toList

def f64Positive : F64 → Bool
  | .number (some (some q)) => 0 < q
  | _ => false

section Records

variable (R : Readers)

/-- True flags and finite positive counters. -/
def positive (value : String) : Bool :=
  let value := trim value
  eqIgnoreAsciiCase value "true" || eqIgnoreAsciiCase value "yes" ||
    (R.parseF64 value).any f64Positive

def saysMalicious (evidence : Evidence) : Bool :=
  let attr := fun key ↦ evidence.attributes[key]?
  (["malicious", "malicious_scans", "pulse_count", "total_reports"].any fun key ↦
      (attr key).any (positive R)) ||
    ((attr "risk").any fun risk ↦ toAsciiLowercase (trim risk) ∈ ["high", "critical"]) ||
    (["threats", "malware", "malware_families", "iocs", "blocklists"].any fun key ↦
      (attr key).any fun value ↦ items value ≠ [])

/-- The addresses a record publishes, by the source that does. -/
def genericContactEmails (evidence : Evidence) : List Descriptor :=
  let keys :=
    if evidence.provenance.source = "netlas" then ["abuse_email", "registrar_email"]
    else if evidence.provenance.source = "isc" then ["abuse_contact"]
    else []
  keys.filterMap fun key ↦
    ((attr evidence key).bind fun value ↦ Canonical.canonicalEmail value.toList).map fun email ↦
      ("EMAILADDR_GENERIC", String.ofList email)

/-- One scored vulnerability, written with a blank between its id and its score. -/
def cvssScore (entry : String) : Option (String × F64) :=
  match entry.toList.dropWhile (!isWhitespace ·) with
  | [] => none
  | _ :: score =>
    let id := String.ofList (entry.toList.takeWhile (!isWhitespace ·))
    match R.parseF64 (trim (String.ofList score)) with
    | none => none
    | some score =>
      if score.ge (F64.ofRat 0) && (F64.ofRat 10).ge score then some (toAsciiUppercase id, score)
      else none

/-- The highest score of each vulnerability. -/
def cvssScores (entities : List Entity) : TreeMap String F64 :=
  let entries := ((entities.flatMap (·.evidence)).flatMap fun evidence ↦
    attrItems evidence "cve_scores").filterMap (cvssScore R)
  entries.foldl (fun scores (id, score) ↦
    match scores[id]? with
    | none => scores.insert id score
    | some best => if best.lt score then scores.insert id score else scores) ∅

def vulnerabilityType : Option F64 → String
  | none => "VULNERABILITY_GENERAL"
  | some score =>
    if score.ge (F64.ofRat 9) then "VULNERABILITY_CVE_CRITICAL"
    else if score.ge (F64.ofRat 7) then "VULNERABILITY_CVE_HIGH"
    else if score.ge (F64.ofRat 4) then "VULNERABILITY_CVE_MEDIUM"
    else "VULNERABILITY_CVE_LOW"

def validHttpStatus (value : String) : Bool :=
  value.toList.length == 3 && value.toList.all Char.isDigit &&
    (Canonical.parseUnsigned (2 ^ 16 - 1) value.toList).any fun code ↦ 100 ≤ code && code ≤ 599

/-- The expiry of a certificate, as of `now`. -/
def expiryDescriptors (host : String) (evidence : Evidence) (now : ℕ) : List Descriptor :=
  match (attr evidence "not_after").bind R.parseTimestamp with
  | none => []
  | some expiry =>
    let now : ℤ := min now (2 ^ 63 - 1)
    if expiry < now then [("SSL_CERTIFICATE_EXPIRED", host)]
    else if expiry - now < 30 * 86400 then [("SSL_CERTIFICATE_EXPIRING", host)]
    else []

/-- What a record says about a host. -/
def hostDescriptors (entity : Entity) (evidence : Evidence) (scores : TreeMap String F64)
    (now : ℕ) : List Descriptor :=
  let host := entity.rawValue
  let source := evidence.provenance.source
  let isHost := entity.kind = .ipAddress ∨ entity.kind = .domain
  ((attrItems evidence "ports").filterMap fun port ↦
      (Canonical.parseUnsigned (2 ^ 16 - 1) port.toList).map fun port ↦
        ("TCP_PORT_OPEN", host ++ ":" ++ toString port)) ++
    ((attrItems evidence "vulns").map fun cve ↦
      (vulnerabilityType scores[toAsciiUppercase cve]?, cve)) ++
    (["software", "cpes"].flatMap fun key ↦
      (attrItems evidence key).map fun item ↦ ("SOFTWARE_USED", item)) ++
    ((attrItems evidence "technologies").map fun item ↦ ("WEBSERVER_TECHNOLOGY", item)) ++
    (if isHost ∧ source = "pulsedive" then
      whole evidence "http_server" "WEBSERVER_BANNER" ++
        (((attr evidence "http_status").filter validHttpStatus).map fun code ↦
          ("HTTP_CODE", code)).toList
    else []) ++
    (if isHost ∧ source = "mnemonic" then whole evidence "passive_dns" "RAW_DNS_RECORDS" else []) ++
    whole evidence "os" "OPERATING_SYSTEM" ++
    (if entity.kind ≠ .asn then
      ["asn", "origin_asns"].flatMap fun key ↦
        ((attrItems evidence key).filterMap canonicalAsn).map fun asn ↦ ("BGP_AS_MEMBER", asn)
    else []) ++
    (["prefix", "network", "range", "route"].flatMap fun key ↦
      ((attrItems evidence key).filter (contains · "/")).map fun block ↦
        (if contains block ":" then "NETBLOCKV6_MEMBER" else "NETBLOCK_MEMBER", block)) ++
    (match [attr evidence "city", attr evidence "region",
        (attr evidence "country_name").or (attr evidence "country")].reduceOption with
      | [] => []
      | place => [("GEOINFO", ", ".intercalate place)]) ++
    (if source ∈ ["pulsedive", "ipqs", "shodan", "abuseipdb"] then
      whole evidence "isp" "PROVIDER_HOSTING"
    else []) ++
    whole evidence "certificate" "SSL_CERTIFICATE_RAW" ++
    whole evidence "subject" "SSL_CERTIFICATE_ISSUED" ++
    whole evidence "issuer" "SSL_CERTIFICATE_ISSUER" ++
    expiryDescriptors R host evidence now

/-- Whether a text is an amount of bitcoin, of eight decimal places, that its satoshis can count. -/
def validBtcBalance (value : String) : Bool :=
  match Pieces.splitOnce '.' value.toList with
  | none => false
  | some (coins, fractional) =>
    coins ≠ [] && coins.all Char.isDigit && fractional.length == 8 && fractional.all Char.isDigit &&
      ((Canonical.parseUnsigned (2 ^ 64 - 1) coins).any fun coins ↦
        coins * 100000000 < 2 ^ 64 &&
          (Canonical.parseUnsigned (2 ^ 64 - 1) fractional).any fun fractional ↦
            fractional + coins * 100000000 < 2 ^ 64)

/-- Whether a credential attribute says one was exposed. -/
def exposed (value : String) : Bool :=
  toAsciiLowercase (trim value) ∉ ["false", "no", "0", "none", "null"]

/-- A list naming the entity: on it in any case, and malicious where the listing says so. -/
def listed (entity : Entity) (data : String) (malicious : Bool) : List Descriptor :=
  ((blacklistedType entity.kind).map fun kind ↦ (kind, data)).toList ++
    if malicious then ((maliciousType entity.kind).map fun kind ↦ (kind, data)).toList else []

/-- What a reputation source says about an entity. -/
def reputationDescriptors (entity : Entity) (evidence : Evidence) : List Descriptor :=
  let named := fun (list : String) ↦ list ++ " [" ++ entity.rawValue ++ "]"
  match attr evidence "dnsbl" with
  | some listing =>
    listed entity (named listing) ((attr evidence "dnsbl_class").all (· == "abuse"))
  | none =>
    match attr evidence "dns_filter" with
    | some reason =>
      listed entity (named reason) ((attr evidence "dns_filter_threat").any (positive R))
    | none =>
      match attr evidence "threat_feed" with
      | some feed =>
        if (attr evidence "threat_feed_stale").any (positive R) then []
        else listed entity (named feed) ((attr evidence "threat_feed_threat").any (positive R))
      | none =>
        if saysMalicious R evidence then
          ((maliciousType entity.kind).map fun kind ↦
            (kind, named evidence.provenance.source)).toList
        else []

/-- What a record says about an account, a number or an address. -/
def identityDescriptors (entity : Entity) (evidence : Evidence) : List Descriptor :=
  let host := entity.rawValue
  let source := evidence.provenance.source
  let isNetwork := entity.kind = .ipAddress ∨ entity.kind = .asn ∨ entity.kind = .netblock
  whole evidence "registrar" "DOMAIN_REGISTRAR" ++ genericContactEmails evidence ++
    whole evidence "whois" (if isNetwork then "NETBLOCK_WHOIS" else "DOMAIN_WHOIS") ++
    (if (entity.kind = .domain ∨ isNetwork) ∧ source = "rdap" then
      (attrItems evidence "ns").map fun server ↦ ("PROVIDER_DNS", server)
    else []) ++
    whole evidence "carrier" "PROVIDER_TELCO" ++ whole evidence "line_type" "PHONE_NUMBER_TYPE" ++
    (if (attr evidence "disposable").any (positive R) then [("EMAILADDR_DISPOSABLE", host)] else []) ++
    (if (attr evidence "tor").any (positive R) then [("TOR_EXIT_NODE", host)] else []) ++
    (["profile_url", "blog_url"].filterMap fun key ↦ (attr evidence key).map fun url ↦
      ("ACCOUNT_EXTERNAL_OWNED", source ++ " (Category: social)\n" ++ url)) ++
    (if (entity.kind = .email ∨ entity.kind = .person) ∧ source = "openpgp_keys" then
      ((attr evidence "fingerprint").map fun fingerprint ↦
        ("PGP_KEY", match attr evidence "key_url" with
          | some url => fingerprint ++ "\n" ++ url
          | none => fingerprint)).toList
    else []) ++
    (if entity.kind = .cryptoAddress ∧ source = "blockchain" then
      (((attr evidence "balance_btc").filter validBtcBalance).map fun balance ↦
        ("BITCOIN_BALANCE", balance ++ " BTC")).toList
    else []) ++
    (if entity.kind = .organisation ∧ source = "gravatar" then
      whole evidence "job_title" "JOB_TITLE"
    else []) ++
    (match compromisedType entity.kind with
      | none => []
      | some kind =>
        (TreeSet.ofList (["breach", "breach_name", "breaches", "database_name", "dbname"].flatMap
          (attrItems evidence))).toList.map fun breach ↦ (kind, host ++ " [" ++ breach ++ "]")) ++
    (if (attr evidence "password_exposed").any (positive R) ∨ (attr evidence "password").any exposed
    then [("PASSWORD_COMPROMISED", host ++ " [" ++ source ++ "]")]
    else []) ++
    (if ["password_hash", "hashed_password"].any fun key ↦ (attr evidence key).any exposed then
      [("HASH_COMPROMISED", host ++ (((attr evidence "hash_type").map fun kind ↦
        " (" ++ kind ++ ")").getD "") ++ " [" ++ source ++ "]")]
    else []) ++
    reputationDescriptors R entity evidence

/-- The typed elements that a record's attributes describe. -/
def descriptors (entity : Entity) (evidence : Evidence) (scores : TreeMap String F64) (now : ℕ) :
    List Descriptor :=
  hostDescriptors R entity evidence scores now ++ identityDescriptors R entity evidence

end Records

end Huntsman.Elements
