import Huntsman.Canonical.Numbers
import Huntsman.Lib.Refusal

/-!
# Address blocks

A block is an address and how many of its leading bits are fixed; the others are its host bits.  The
source works with masks and sums of machine words, which stop the program where they overflow, so
every function here answers in `Except Overflow`.

None of them ever does: a prefix length is at most the width, so that the mask is shifted by less
than the width but for length 0, which has a branch of its own (`Cidr.mask_eq`); and a block ends
before the addresses do (`Cidr.start_add_le`).  What the mask computes is the division by `2 ^ n`
that blocks are about (`toNat_and_mask`), and `Netblock.parse_spec` puts this together for the
blocks that are parsed.
-/

set_option autoImplicit false

namespace Huntsman

open Canonical (Chars Library parseUnsigned decimal showIp trim)

/-- What stops the program at an operation on machine words. -/
inductive Overflow where
  | subtraction
  | shift
  | addition
deriving DecidableEq

/-! ## Machine words -/

section Words

variable {w : ℕ}

/-- `a - b` of unsigned numbers. -/
def checkedSub (a b : ℕ) : Except Overflow ℕ := if b ≤ a then .ok (a - b) else .error .subtraction

/-- `x << n`. -/
def checkedShl (x : BitVec w) (n : ℕ) : Except Overflow (BitVec w) :=
  if n < w then .ok (x <<< n) else .error .shift

/-- `a + b` of words. -/
def checkedAdd (a b : BitVec w) : Except Overflow (BitVec w) :=
  if a.toNat + b.toNat < 2 ^ w then .ok (a + b) else .error .addition

theorem checkedSub_ok {a b : ℕ} (h : b ≤ a) : checkedSub a b = .ok (a - b) := if_pos h

theorem checkedShl_ok {n : ℕ} (x : BitVec w) (h : n < w) : checkedShl x n = .ok (x <<< n) :=
  if_pos h

theorem checkedAdd_ok {a b : BitVec w} (h : a.toNat + b.toNat < 2 ^ w) :
    checkedAdd a b = .ok (a + b) := if_pos h

/-- **Masking clears the last bits**: what is left is the quotient by a power of two, put back. -/
theorem toNat_and_mask (a : BitVec w) {length : ℕ} (h : length ≤ w) :
    (a &&& Canonical.mask w length).toNat = a.toNat / 2 ^ (w - length) * 2 ^ (w - length) := by
  rw [Canonical.mask]
  split
  · rename_i hzero
    subst hzero
    rw [Nat.sub_zero, Nat.div_eq_of_lt a.isLt, Nat.zero_mul]
    exact congrArg BitVec.toNat (BitVec.and_zero (x := a))
  · rw [← BitVec.shiftLeft_ushiftRight, BitVec.toNat_shiftLeft, BitVec.toNat_ushiftRight,
      Nat.shiftLeft_eq, Nat.shiftRight_eq_div_pow]
    exact Nat.mod_eq_of_lt ((Nat.div_mul_le_self _ _).trans_lt a.isLt)

end Words

/-! ## The source -/

/-- A block of addresses of `w` bits as it is written: the address keeps its host bits. -/
structure Cidr (w : ℕ) where
  addr : BitVec w
  prefixLen : ℕ
  prefixLen_le : prefixLen ≤ w
deriving DecidableEq

abbrev Ipv4Cidr := Cidr 32

abbrev Ipv6Cidr := Cidr 128

namespace Cidr

variable {w : ℕ} (block : Cidr w)

/-- The bits of an address that the block fixes. -/
def mask : Except Overflow (BitVec w) :=
  if block.prefixLen = 0 then .ok 0
  else do checkedShl (BitVec.allOnes w) (← checkedSub w block.prefixLen)

def contains (ip : BitVec w) : Except Overflow Bool := do
  let mask ← block.mask
  return (ip &&& mask) == (block.addr &&& mask)

/-- The block's first address: the address with its host bits cleared. -/
def network : Except Overflow (BitVec w) := do return block.addr &&& (← block.mask)

/-- The bits of an address that the block leaves free. -/
def hostBits : Except Overflow ℕ := checkedSub w block.prefixLen

/-- The block's first `count` addresses. -/
def first (count : ℕ) : Except Overflow (List (BitVec w)) := do
  let first ← block.network
  (List.range count).mapM fun offset ↦ checkedAdd first (BitVec.ofNat w offset)

/-- The block of an address and a prefix length, with the host bits cleared. -/
def parsed (addr : BitVec w) (prefixLen : ℕ) : Except Overflow (Option (Cidr w)) :=
  if h : prefixLen ≤ w then do
    let network ← (⟨addr, prefixLen, h⟩ : Cidr w).network
    return some ⟨network, prefixLen, h⟩
  else return none

end Cidr

/-- A block of either family. -/
inductive Netblock where
  | v4 (block : Ipv4Cidr)
  | v6 (block : Ipv6Cidr)
deriving DecidableEq

namespace Netblock

/-- `ADDRESS/PREFIX`, with the host bits cleared.  A bare address is not a block. -/
def parse (lib : Library) (raw : Chars) : Except Overflow (Option Netblock) :=
  match Pieces.splitOnce '/' (trim raw) with
  | none => return none
  | some (addr, prefixText) =>
    match parseUnsigned 255 (trim prefixText) with
    | none => return none
    | some prefixLen =>
      match lib.parseIp (trim addr) with
      | none => return none
      | some (.v4 addr) => do return (← Cidr.parsed addr prefixLen).map .v4
      | some (.v6 addr) => do return (← Cidr.parsed addr prefixLen).map .v6

def network : Netblock → Except Overflow Canonical.IpAddr
  | .v4 block => do return .v4 (← block.network)
  | .v6 block => do return .v6 (← block.network)

def prefixLen : Netblock → ℕ
  | .v4 block => block.prefixLen
  | .v6 block => block.prefixLen

def hostBits : Netblock → Except Overflow ℕ
  | .v4 block => block.hostBits
  | .v6 block => block.hostBits

def contains : Netblock → Canonical.IpAddr → Except Overflow Bool
  | .v4 block, .v4 ip => block.contains ip
  | .v6 block, .v6 ip => block.contains ip
  | _, _ => return false

/-- Every address in the block, first to last, when it has at most `maxHostBits` host bits. -/
def addresses (block : Netblock) (maxHostBits : ℕ) :
    Except Overflow (Option (List Canonical.IpAddr)) := do
  let bits ← block.hostBits
  if bits > maxHostBits ∨ bits ≥ 32 then return none
  else
    let count ← checkedShl (1 : BitVec 32) bits
    match block with
    | .v4 block => return some ((← block.first count.toNat).map .v4)
    | .v6 block => return some ((← block.first count.toNat).map .v6)

/-- The block as it is written. -/
def display (lib : Library) (block : Netblock) : Except Overflow Chars := do
  return showIp lib (← block.network) ++ '/' :: decimal block.prefixLen

end Netblock

/-! ## What they compute -/

namespace Cidr

variable {w : ℕ} (block : Cidr w)

/-- How many host bits there are. -/
def free : ℕ := w - block.prefixLen

/-- The number of the block's first address. -/
def start : ℕ := block.addr.toNat / 2 ^ block.free * 2 ^ block.free

/-- **The mask never overflows**: a shift by the full width is the branch of its own. -/
theorem mask_eq : block.mask = .ok (Canonical.mask w block.prefixLen) := by
  rw [mask, Canonical.mask]
  split
  · rfl
  · rename_i hne
    rw [checkedSub_ok block.prefixLen_le]
    have hle := block.prefixLen_le
    exact checkedShl_ok _ (by omega)

theorem network_eq :
    block.network = .ok (block.addr &&& Canonical.mask w block.prefixLen) := by
  rw [network, mask_eq]
  rfl

theorem toNat_network : (block.addr &&& Canonical.mask w block.prefixLen).toNat = block.start :=
  toNat_and_mask block.addr block.prefixLen_le

theorem hostBits_eq : block.hostBits = .ok block.free := checkedSub_ok block.prefixLen_le

/-- A block ends before the addresses do. -/
theorem start_add_le : block.start + 2 ^ block.free ≤ 2 ^ w := by
  have hsplit : 2 ^ w = 2 ^ block.prefixLen * 2 ^ block.free := by
    rw [← Nat.pow_add, free, Nat.add_sub_cancel' block.prefixLen_le]
  have hlt : block.addr.toNat / 2 ^ block.free < 2 ^ block.prefixLen := by
    rw [Nat.div_lt_iff_lt_mul (Nat.two_pow_pos _), ← hsplit]
    exact block.addr.isLt
  calc block.start + 2 ^ block.free = (block.addr.toNat / 2 ^ block.free + 1) * 2 ^ block.free := by
        rw [start, Nat.add_mul, Nat.one_mul]
    _ ≤ 2 ^ block.prefixLen * 2 ^ block.free := Nat.mul_le_mul_right _ hlt
    _ = 2 ^ w := hsplit.symm

/-- **An address is in the block when its number is in the block's interval.** -/
theorem contains_eq (ip : BitVec w) : block.contains ip =
    .ok (decide (block.start ≤ ip.toNat ∧ ip.toNat ≤ block.start + 2 ^ block.free - 1)) := by
  have hpos : 0 < 2 ^ block.free := Nat.two_pow_pos _
  have hmasked : (ip &&& Canonical.mask w block.prefixLen) =
      (block.addr &&& Canonical.mask w block.prefixLen) ↔
        ip.toNat / 2 ^ block.free = block.addr.toNat / 2 ^ block.free := by
    rw [← BitVec.toNat_inj, toNat_network, toNat_and_mask ip block.prefixLen_le]
    exact Nat.mul_left_inj hpos.ne'
  rw [contains, mask_eq]
  refine congrArg Except.ok ?_
  rw [Bool.eq_iff_iff, beq_iff_eq, decide_eq_true_iff, hmasked, start, Nat.div_eq_iff hpos]

/-- The words that follow the first address of a block are its addresses. -/
theorem first_eq {count : ℕ} (h : count ≤ 2 ^ block.free) :
    block.first count =
      .ok ((List.range count).map fun offset ↦ BitVec.ofNat w (block.start + offset)) := by
  have hend := block.start_add_le
  rw [first, network_eq]
  refine Except.mapM_ok fun offset hoffset ↦ ?_
  have hlt := List.mem_range.1 hoffset
  have hsmall : (BitVec.ofNat w offset).toNat = offset := by
    rw [BitVec.toNat_ofNat, Nat.mod_eq_of_lt (by omega)]
  rw [checkedAdd_ok (by rw [toNat_network, hsmall]; omega)]
  refine congrArg Except.ok (BitVec.eq_of_toNat_eq ?_)
  rw [BitVec.toNat_add, toNat_network, hsmall, BitVec.toNat_ofNat]

/-- A small block's addresses are in it, in order, and there are no others. -/
theorem mem_first {all : List (BitVec w)} (h : block.first (2 ^ block.free) = .ok all) :
    all.Pairwise (fun a b ↦ a.toNat < b.toNat) ∧ ∀ ip, ip ∈ all ↔ block.contains ip = .ok true := by
  have hend := block.start_add_le
  rw [first_eq block le_rfl] at h
  cases h
  have hnumber : ∀ offset, offset < 2 ^ block.free →
      (BitVec.ofNat w (block.start + offset)).toNat = block.start + offset := fun offset hlt ↦ by
    rw [BitVec.toNat_ofNat, Nat.mod_eq_of_lt (by omega)]
  constructor
  · rw [List.pairwise_map]
    refine List.pairwise_lt_range.imp_of_mem fun {a b} ha hb hlt ↦ ?_
    rw [hnumber a (List.mem_range.1 ha), hnumber b (List.mem_range.1 hb)]
    omega
  · intro ip
    rw [contains_eq, Except.ok.injEq, decide_eq_true_iff, List.mem_map]
    constructor
    · rintro ⟨offset, hoffset, rfl⟩
      have hlt := List.mem_range.1 hoffset
      rw [hnumber offset hlt]
      omega
    · rintro ⟨hlow, hhigh⟩
      have hpos : 0 < 2 ^ block.free := Nat.two_pow_pos _
      refine ⟨ip.toNat - block.start, List.mem_range.2 (by omega), ?_⟩
      rw [Nat.add_sub_cancel' hlow, BitVec.ofNat_toNat, BitVec.setWidth_eq]

theorem parsed_eq (addr : BitVec w) (prefixLen : ℕ) : parsed addr prefixLen =
    .ok (if h : prefixLen ≤ w then some ⟨addr &&& Canonical.mask w prefixLen, prefixLen, h⟩
      else none) := by
  rw [parsed]
  split
  · rw [network_eq]
    rfl
  · rfl

end Cidr

/-- The number of an address, of either family. -/
def Canonical.IpAddr.toNat : Canonical.IpAddr → ℕ
  | .v4 address => address.toNat
  | .v6 address => address.toNat

namespace Netblock

/-- The block as an address of either family and a prefix length. -/
def toCanonical : Netblock → Canonical.Netblock
  | .v4 block => ⟨.v4 block.addr, block.prefixLen⟩
  | .v6 block => ⟨.v6 block.addr, block.prefixLen⟩

theorem toCanonical_injective : Function.Injective toCanonical := by
  rintro (⟨addr, n, hn⟩ | ⟨addr, n, hn⟩) (⟨addr', n', hn'⟩ | ⟨addr', n', hn'⟩) h
  all_goals
    simp only [toCanonical, Canonical.Netblock.mk.injEq, Canonical.IpAddr.v4.injEq,
      Canonical.IpAddr.v6.injEq, reduceCtorEq, false_and] at h
    try
      obtain ⟨rfl, rfl⟩ := h
      rfl

/-- **Reading a block stops at no overflow**, and reads what the canonical form of a block reads. -/
theorem parse_eq (lib : Library) (raw : Chars) : ∃ parsed, parse lib raw = .ok parsed ∧
    parsed.map toCanonical = Canonical.Netblock.parse lib raw := by
  rw [parse, Canonical.Netblock.parse]
  rcases Pieces.splitOnce '/' (trim raw) with _ | ⟨addr, prefixText⟩
  · exact ⟨none, rfl, rfl⟩
  · simp only [Option.bind_eq_bind, Option.bind_some]
    rcases parseUnsigned 255 (trim prefixText) with _ | prefixLen
    · exact ⟨none, rfl, rfl⟩
    · simp only [Option.bind_some]
      rcases lib.parseIp (trim addr) with _ | addr | addr
      · exact ⟨none, rfl, rfl⟩
      all_goals
        simp only [Cidr.parsed_eq, Option.bind_some, Canonical.IpAddr.width]
        refine ⟨_, rfl, ?_⟩
        split
        · rename_i hle
          exact (if_pos hle).symm
        · rename_i hle
          exact (if_neg hle).symm

theorem display_eq (lib : Library) (block : Netblock) :
    block.display lib = .ok (block.toCanonical.show lib) := by
  rcases block with block | block
  all_goals
    rw [display, network, Cidr.network_eq]
    rfl

theorem contains_eq (block : Netblock) {network : Canonical.IpAddr} {hostBits : ℕ}
    (hnetwork : block.network = .ok network) (hbits : block.hostBits = .ok hostBits)
    (ip : Canonical.IpAddr) :
    block.contains ip = .ok (decide (ip.width = network.width ∧ network.toNat ≤ ip.toNat ∧
      ip.toNat ≤ network.toNat + 2 ^ hostBits - 1)) := by
  rcases block with block | block
  all_goals
    rw [Netblock.network, Cidr.network_eq] at hnetwork
    rw [Netblock.hostBits, Cidr.hostBits_eq] at hbits
    cases hnetwork
    cases hbits
    rcases ip with ip | ip
  · rw [contains, Cidr.contains_eq]
    simp only [Canonical.IpAddr.width, true_and, Canonical.IpAddr.toNat, Cidr.toNat_network]
  · rfl
  · rfl
  · rw [contains, Cidr.contains_eq]
    simp only [Canonical.IpAddr.width, true_and, Canonical.IpAddr.toNat, Cidr.toNat_network]

/-- What lists a block of addresses of one family lists it as addresses of either. -/
theorem mem_map_first {w : ℕ} {block : Cidr w} {all : List (BitVec w)}
    (h : block.first (2 ^ block.free) = .ok all) (wrap : BitVec w → Canonical.IpAddr)
    (hnumber : ∀ a, (wrap a).toNat = a.toNat) :
    (all.map wrap).Pairwise (fun a b ↦ a.toNat < b.toNat) ∧
      ∀ a, wrap a ∈ all.map wrap ↔ block.contains a = .ok true := by
  obtain ⟨hordered, hmem⟩ := block.mem_first h
  constructor
  · rw [List.pairwise_map]
    simpa only [hnumber] using hordered
  · intro a
    rw [← hmem]
    refine List.mem_map_of_injective fun a b hab ↦ BitVec.toNat_inj.1 ?_
    rw [← hnumber, hab, hnumber]

/-- A block that is small enough is listed, and no other. -/
theorem addresses_spec (block : Netblock) {hostBits : ℕ} (hbits : block.hostBits = .ok hostBits)
    (maxHostBits : ℕ) :
    ∃ listed, block.addresses maxHostBits = .ok listed ∧
      (listed.isSome = true ↔ hostBits ≤ maxHostBits ∧ hostBits < 32) ∧
      ∀ all, listed = some all → all.Pairwise (fun a b ↦ a.toNat < b.toNat) ∧
        ∀ ip, ip ∈ all ↔ block.contains ip = .ok true := by
  by_cases hsmall : hostBits ≤ maxHostBits ∧ hostBits < 32
  · have hcount : ((1 : BitVec 32) <<< hostBits).toNat = 2 ^ hostBits := by
      rw [BitVec.toNat_shiftLeft, Nat.shiftLeft_eq]
      exact (congrArg (· % 2 ^ 32) (Nat.one_mul _)).trans
        (Nat.mod_eq_of_lt (Nat.pow_lt_pow_right one_lt_two hsmall.2))
    have hopen : ∀ next : BitVec 32 → Except Overflow (Option (List Canonical.IpAddr)),
        (if hostBits > maxHostBits ∨ hostBits ≥ 32 then pure none
          else checkedShl (1 : BitVec 32) hostBits >>= next) = next (1 <<< hostBits) := by
      intro next
      rw [if_neg (by omega), checkedShl_ok _ hsmall.2]
      rfl
    rcases block with block | block
    all_goals
      have hfree : block.free = hostBits := Except.ok.inj (block.hostBits_eq.symm.trans hbits)
      subst hfree
      obtain ⟨listed, hfirst⟩ : ∃ listed, block.first (2 ^ block.free) = .ok listed :=
        ⟨_, block.first_eq le_rfl⟩
      have hcounted := hfirst
      rw [← hcount] at hcounted
      rw [addresses, hbits]
      refine ⟨_, (hopen _).trans (congrArg (· >>= _) hcounted), iff_of_true rfl hsmall,
        fun all hall ↦ ?_⟩
      cases hall
    · obtain ⟨hordered, hmem⟩ := mem_map_first hfirst Canonical.IpAddr.v4 fun _ ↦ rfl
      refine ⟨hordered, fun ip ↦ ?_⟩
      rcases ip with ip | ip
      · exact hmem ip
      · exact iff_of_false (by simp) fun h ↦ Bool.false_ne_true (Except.ok.inj h)
    · obtain ⟨hordered, hmem⟩ := mem_map_first hfirst Canonical.IpAddr.v6 fun _ ↦ rfl
      refine ⟨hordered, fun ip ↦ ?_⟩
      rcases ip with ip | ip
      · exact iff_of_false (by simp) fun h ↦ Bool.false_ne_true (Except.ok.inj h)
      · exact hmem ip
  · refine ⟨none, ?_, iff_of_false Bool.false_ne_true hsmall, fun all hall ↦ by cases hall⟩
    rw [addresses, hbits]
    exact if_pos (by omega)

/-- **Blocks mean their intervals.**  Reading a block stops at no overflow, and neither does
anything the block is asked: it holds the addresses of its family from its first one on, as many as
its host bits make, lists them in order when there are few enough, and is read back from its written
form. -/
theorem parse_spec {lib : Library} (hlib : lib.Lawful) (raw : Chars) :
    ∃ parsed, parse lib raw = .ok parsed ∧ ∀ block ∈ parsed,
      ∃ network hostBits, block.network = .ok network ∧ block.hostBits = .ok hostBits ∧
        (∀ ip, block.contains ip = .ok (decide (ip.width = network.width ∧
          network.toNat ≤ ip.toNat ∧ ip.toNat ≤ network.toNat + 2 ^ hostBits - 1))) ∧
        (∀ maxHostBits, ∃ listed, block.addresses maxHostBits = .ok listed ∧
          (listed.isSome = true ↔ hostBits ≤ maxHostBits ∧ hostBits < 32) ∧
          ∀ all, listed = some all → all.Pairwise (fun a b ↦ a.toNat < b.toNat) ∧
            ∀ ip, ip ∈ all ↔ block.contains ip = .ok true) ∧
        ∃ text, block.display lib = .ok text ∧ parse lib text = .ok (some block) := by
  obtain ⟨parsed, hparsed, hcanonical⟩ := parse_eq lib raw
  refine ⟨parsed, hparsed, fun block hblock ↦ ?_⟩
  obtain rfl : parsed = some block := hblock
  have hnetwork : ∃ network, block.network = .ok network := by
    rcases block with block | block
    all_goals
      rw [network, Cidr.network_eq]
      exact ⟨_, rfl⟩
  have hbits : ∃ hostBits, block.hostBits = .ok hostBits := by
    rcases block with block | block
    all_goals
      exact ⟨_, block.hostBits_eq⟩
  obtain ⟨network, hnetwork⟩ := hnetwork
  obtain ⟨hostBits, hbits⟩ := hbits
  refine ⟨network, hostBits, hnetwork, hbits, block.contains_eq hnetwork hbits,
    block.addresses_spec hbits, _, block.display_eq lib, ?_⟩
  -- the written form is the canonical one, which the canonical form's parser reads back
  obtain ⟨again, hagain, hsame⟩ := parse_eq lib (block.toCanonical.show lib)
  rw [Canonical.Netblock.parse_show hlib hcanonical.symm] at hsame
  obtain ⟨block', rfl, hblock'⟩ := Option.map_eq_some_iff.1 hsame
  rw [hagain, toCanonical_injective hblock']

theorem parse_spec_plain :
    ∃ parsed, parse Library.plain "192.0.2.77/24".toList = .ok parsed ∧ ∀ block ∈ parsed,
      ∃ network hostBits, block.network = .ok network ∧ block.hostBits = .ok hostBits ∧
        (∀ ip, block.contains ip = .ok (decide (ip.width = network.width ∧
          network.toNat ≤ ip.toNat ∧ ip.toNat ≤ network.toNat + 2 ^ hostBits - 1))) ∧
        (∀ maxHostBits, ∃ listed, block.addresses maxHostBits = .ok listed ∧
          (listed.isSome = true ↔ hostBits ≤ maxHostBits ∧ hostBits < 32) ∧
          ∀ all, listed = some all → all.Pairwise (fun a b ↦ a.toNat < b.toNat) ∧
            ∀ ip, ip ∈ all ↔ block.contains ip = .ok true) ∧
        ∃ text, block.display Library.plain = .ok text ∧
          parse Library.plain text = .ok (some block) :=
  parse_spec Canonical.Library.plain_lawful "192.0.2.77/24".toList

end Netblock

end Huntsman
