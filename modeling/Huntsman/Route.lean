import Huntsman.Entity

/-!
# Routing a selector to a lookup

A `ScanKind` is one lookup front-end and `command` its stable word, which is what the crawl keys
targets by.

Which kind a raw seed is inferred as and how each route canonicalises a selector are pure functions
of the text that the crawl only calls: `Selectors` carries them, together with the two tests that
tell a role mailbox from a person's.  Everything about a crawl is proved for every such table, the
repository's own among them.
-/

set_option autoImplicit false

namespace Huntsman

inductive ScanKind where
  | people | email | exposure | username | phone | domain | ip | netblock | asn | network
  | cryptoAddress | place
deriving DecidableEq

/-- The kind's stable command word. -/
def ScanKind.command : ScanKind → String
  | .people => "people"
  | .email => "email"
  | .exposure => "exposure"
  | .username => "username"
  | .phone => "phone"
  | .domain => "domain"
  | .ip => "ip"
  | .netblock => "netblock"
  | .asn => "asn"
  | .network => "network"
  | .cryptoAddress => "crypto"
  | .place => "geocode"

/-- Command words tell kinds apart. -/
theorem ScanKind.command_injective : Function.Injective ScanKind.command := by
  intro a b h
  cases a <;> cases b <;> first | rfl | exact absurd h (by decide)

/-- The pure text functions the crawl routes by. -/
structure Selectors where
  /-- The lookup front-end a raw selector is inferred as. -/
  inferKind : String → ScanKind
  /-- The validated selector for a route, or `none` when the route refuses it. -/
  canonicalSelector : ScanKind → String → Option String
  /-- Whether an address is a role mailbox or a provider's own. -/
  isInfrastructureEmail : String → Bool
  /-- Whether an address is a no-reply address. -/
  isNoreplyEmailDomain : String → Bool
  /-- Whether a text parses as JSON. -/
  parsesAsJson : String → Bool

end Huntsman
