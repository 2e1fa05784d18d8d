import Mathlib

/-!
# Network — Addresses — the address classes of `ipaddress`

An address, the networks it may lie in, and the properties the two filters read.  An IPv4-mapped
IPv6 address has the properties of the address it maps.
-/

namespace Otari.Network

/-- The addresses of `w` bits that share the first `length` bits of `base`. -/
structure IPNetwork (w : ℕ) where
  base : BitVec w
  length : ℕ

/-- `address in network`. -/
def IPNetwork.contains {w : ℕ} (network : IPNetwork w) (address : BitVec w) : Bool :=
  address.toNat >>> (w - network.length) == network.base.toNat >>> (w - network.length)

def anyContains {w : ℕ} (networks : List (IPNetwork w)) (address : BitVec w) : Bool :=
  networks.any (·.contains address)

abbrev IPv4Address := BitVec 32

def ipv4 (a b c d : UInt8) : IPv4Address :=
  a.toBitVec ++ b.toBitVec ++ c.toBitVec ++ d.toBitVec

namespace IPv4Address
variable (address : IPv4Address)

def linkLocalNetwork : IPNetwork 32 := ⟨ipv4 169 254 0 0, 16⟩
def loopbackNetwork : IPNetwork 32 := ⟨ipv4 127 0 0 0, 8⟩
def multicastNetwork : IPNetwork 32 := ⟨ipv4 224 0 0 0, 4⟩
/-- The address space carriers share among their customers. -/
def publicNetwork : IPNetwork 32 := ⟨ipv4 100 64 0 0, 10⟩
def reservedNetwork : IPNetwork 32 := ⟨ipv4 240 0 0 0, 4⟩

def privateNetworks : List (IPNetwork 32) :=
  [⟨ipv4 0 0 0 0, 8⟩, ⟨ipv4 10 0 0 0, 8⟩, ⟨ipv4 127 0 0 0, 8⟩, ⟨ipv4 169 254 0 0, 16⟩,
    ⟨ipv4 172 16 0 0, 12⟩, ⟨ipv4 192 0 0 0, 24⟩, ⟨ipv4 192 0 0 170, 31⟩, ⟨ipv4 192 0 2 0, 24⟩,
    ⟨ipv4 192 168 0 0, 16⟩, ⟨ipv4 198 18 0 0, 15⟩, ⟨ipv4 198 51 100 0, 24⟩,
    ⟨ipv4 203 0 113 0, 24⟩, ⟨ipv4 240 0 0 0, 4⟩, ⟨ipv4 255 255 255 255, 32⟩]

def privateNetworksExceptions : List (IPNetwork 32) :=
  [⟨ipv4 192 0 0 9, 32⟩, ⟨ipv4 192 0 0 10, 32⟩]

def isUnspecified : Bool := address == ipv4 0 0 0 0
def isLoopback : Bool := loopbackNetwork.contains address
def isLinkLocal : Bool := linkLocalNetwork.contains address
def isMulticast : Bool := multicastNetwork.contains address
def isReserved : Bool := reservedNetwork.contains address

def isPrivate : Bool :=
  anyContains privateNetworks address && !anyContains privateNetworksExceptions address

def isGlobal : Bool := !publicNetwork.contains address && !isPrivate address

end IPv4Address

structure IPv6Address where
  ip : BitVec 128
  scopeId : Option String := none
deriving DecidableEq

def ipv6 (a b c d e f g h : UInt16) : BitVec 128 :=
  a.toBitVec ++ b.toBitVec ++ c.toBitVec ++ d.toBitVec ++ e.toBitVec ++ f.toBitVec ++
    g.toBitVec ++ h.toBitVec

namespace IPv6Address
variable (address : IPv6Address)

def linkLocalNetwork : IPNetwork 128 := ⟨ipv6 0xfe80 0 0 0 0 0 0 0, 10⟩
def multicastNetwork : IPNetwork 128 := ⟨ipv6 0xff00 0 0 0 0 0 0 0, 8⟩

def privateNetworks : List (IPNetwork 128) :=
  [⟨ipv6 0 0 0 0 0 0 0 1, 128⟩, ⟨ipv6 0 0 0 0 0 0 0 0, 128⟩, ⟨ipv6 0 0 0 0 0 0xffff 0 0, 96⟩,
    ⟨ipv6 0x64 0xff9b 1 0 0 0 0 0, 48⟩, ⟨ipv6 0x100 0 0 0 0 0 0 0, 64⟩,
    ⟨ipv6 0x2001 0 0 0 0 0 0 0, 23⟩, ⟨ipv6 0x2001 0xdb8 0 0 0 0 0 0, 32⟩,
    ⟨ipv6 0x2002 0 0 0 0 0 0 0, 16⟩, ⟨ipv6 0x3fff 0 0 0 0 0 0 0, 20⟩,
    ⟨ipv6 0xfc00 0 0 0 0 0 0 0, 7⟩, ⟨ipv6 0xfe80 0 0 0 0 0 0 0, 10⟩]

def privateNetworksExceptions : List (IPNetwork 128) :=
  [⟨ipv6 0x2001 1 0 0 0 0 0 1, 128⟩, ⟨ipv6 0x2001 1 0 0 0 0 0 2, 128⟩,
    ⟨ipv6 0x2001 3 0 0 0 0 0 0, 32⟩, ⟨ipv6 0x2001 4 0x112 0 0 0 0 0, 48⟩,
    ⟨ipv6 0x2001 0x20 0 0 0 0 0 0, 28⟩, ⟨ipv6 0x2001 0x30 0 0 0 0 0 0, 28⟩]

def reservedNetworks : List (IPNetwork 128) :=
  [⟨ipv6 0 0 0 0 0 0 0 0, 8⟩, ⟨ipv6 0x100 0 0 0 0 0 0 0, 8⟩, ⟨ipv6 0x200 0 0 0 0 0 0 0, 7⟩,
    ⟨ipv6 0x400 0 0 0 0 0 0 0, 6⟩, ⟨ipv6 0x800 0 0 0 0 0 0 0, 5⟩,
    ⟨ipv6 0x1000 0 0 0 0 0 0 0, 4⟩, ⟨ipv6 0x4000 0 0 0 0 0 0 0, 3⟩,
    ⟨ipv6 0x6000 0 0 0 0 0 0 0, 3⟩, ⟨ipv6 0x8000 0 0 0 0 0 0 0, 3⟩,
    ⟨ipv6 0xa000 0 0 0 0 0 0 0, 3⟩, ⟨ipv6 0xc000 0 0 0 0 0 0 0, 3⟩,
    ⟨ipv6 0xe000 0 0 0 0 0 0 0, 4⟩, ⟨ipv6 0xf000 0 0 0 0 0 0 0, 5⟩,
    ⟨ipv6 0xf800 0 0 0 0 0 0 0, 6⟩, ⟨ipv6 0xfe00 0 0 0 0 0 0 0, 9⟩]

/-- `ipv4_mapped`: the low bits of an address whose others are those of `::ffff:0:0/96`. -/
def ipv4Mapped : Option IPv4Address :=
  if address.ip.toNat >>> 32 = 0xFFFF then some (address.ip.setWidth 32) else none

def isUnspecified : Bool :=
  match address.ipv4Mapped with
  | some mapped => mapped.isUnspecified
  | none => address.ip == 0

def isLoopback : Bool :=
  match address.ipv4Mapped with
  | some mapped => mapped.isLoopback
  | none => address.ip == 1

def isLinkLocal : Bool :=
  match address.ipv4Mapped with
  | some mapped => mapped.isLinkLocal
  | none => linkLocalNetwork.contains address.ip

def isMulticast : Bool :=
  match address.ipv4Mapped with
  | some mapped => mapped.isMulticast
  | none => multicastNetwork.contains address.ip

def isReserved : Bool :=
  match address.ipv4Mapped with
  | some mapped => mapped.isReserved
  | none => anyContains reservedNetworks address.ip

def isPrivate : Bool :=
  match address.ipv4Mapped with
  | some mapped => mapped.isPrivate
  | none => anyContains privateNetworks address.ip && !anyContains privateNetworksExceptions address.ip

def isGlobal : Bool :=
  match address.ipv4Mapped with
  | some mapped => mapped.isGlobal
  | none => !address.isPrivate

end IPv6Address

inductive IPAddress where
  | v4 (address : IPv4Address)
  | v6 (address : IPv6Address)
deriving DecidableEq

namespace IPAddress

def isUnspecified : IPAddress → Bool
  | v4 address => address.isUnspecified
  | v6 address => address.isUnspecified

def isLoopback : IPAddress → Bool
  | v4 address => address.isLoopback
  | v6 address => address.isLoopback

def isLinkLocal : IPAddress → Bool
  | v4 address => address.isLinkLocal
  | v6 address => address.isLinkLocal

def isMulticast : IPAddress → Bool
  | v4 address => address.isMulticast
  | v6 address => address.isMulticast

def isReserved : IPAddress → Bool
  | v4 address => address.isReserved
  | v6 address => address.isReserved

def isPrivate : IPAddress → Bool
  | v4 address => address.isPrivate
  | v6 address => address.isPrivate

def isGlobal : IPAddress → Bool
  | v4 address => address.isGlobal
  | v6 address => address.isGlobal

end IPAddress

end Otari.Network
