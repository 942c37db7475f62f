import AudioEngine.Lib.PyStr

/-!
# AudioEngine.Lib.PyIp

Python's `ipaddress.ip_address` on strings, and the six properties of an address that tell whether
it is internal (`is_private` and the rest), with the tables of the registries as the interpreter
has them from 3.13 on.

An IPv6 address in `::ffff:0:0/96` has the properties of the IPv4 address it maps; a scope id is
allowed and has no influence.
-/

namespace PyIp

open PyStr

inductive Addr where
  | v4 (ip : Nat)
  | v6 (ip : Nat)
deriving DecidableEq, Repr

/-! ## Parsing -/

/-- `_parse_octet`. -/
def parseOctet (s : List Char) : Option Nat :=
  if s.isEmpty || !s.all Char.isDigit then none
  else if 3 < s.length then none
  -- leading zeros are not permitted
  else if s ≠ ['0'] ∧ s.head? = some '0' then none
  else
    let value := s.foldl (fun v c => 10 * v + (c.toNat - '0'.toNat)) 0
    if 255 < value then none else some value

/-- `IPv4Address(s)`. -/
def parseV4 (s : List Char) : Option Nat :=
  if '/' ∈ s then none
  else
    let octets := split '.' s
    if octets.length ≠ 4 then none
    else (octets.mapM parseOctet).map fun os => os.foldl (fun v o => 256 * v + o) 0

def hexDigit (c : Char) : Option Nat :=
  if c.isDigit then some (c.toNat - '0'.toNat)
  else if 'a' ≤ c ∧ c ≤ 'f' then some (c.toNat - 'a'.toNat + 10)
  else if 'A' ≤ c ∧ c ≤ 'F' then some (c.toNat - 'A'.toNat + 10)
  else none

/-- `_parse_hextet`. -/
def parseHextet (s : List Char) : Option Nat :=
  if s.isEmpty || decide (4 < s.length) then none
  else (s.mapM hexDigit).map fun ds => ds.foldl (fun v d => 16 * v + d) 0

/-- The parts with an IPv4 suffix written as two hextets. -/
def convertSuffix (parts : List (List Char)) : Option (List (List Char)) :=
  match parts.getLast? with
  | some last =>
    if '.' ∈ last then
      (parseV4 last).map fun ip =>
        parts.dropLast ++ [Nat.toDigits 16 (ip / 0x10000), Nat.toDigits 16 (ip % 0x10000)]
    else some parts
  | none => some parts

/-- The empty parts between the first and the last: the places of `::`. -/
def skips (parts : List (List Char)) : List Nat :=
  (List.range parts.length).filter fun i =>
    decide (0 < i) && decide (i + 1 < parts.length) && decide (parts[i]? = some [])

def hextetsOf (parts : List (List Char)) : Option (List Nat) := parts.mapM parseHextet

/-- `_ip_int_from_string` of IPv6, as the eight hextets. -/
def parseHextets (s : List Char) : Option (List Nat) :=
  let parts := split ':' s
  if s.isEmpty || decide (parts.length < 3) then none
  else
    match convertSuffix parts with
    | none => none
    | some parts =>
      if 9 < parts.length then none
      else
        let leading := decide (parts.head? = some [])
        let trailing := decide (parts.getLast? = some [])
        match skips parts with
        | [] =>
          if parts.length ≠ 8 ∨ leading ∨ trailing then none else hextetsOf parts
        | [skip] =>
          let hi := if leading then skip - 1 else skip
          let lo := if trailing then parts.length - skip - 2 else parts.length - skip - 1
          if leading ∧ hi ≠ 0 then none
          else if trailing ∧ lo ≠ 0 then none
          else if 7 < hi + lo then none
          else
            match hextetsOf (parts.take hi), hextetsOf (parts.drop (parts.length - lo)) with
            | some high, some low => some (high ++ List.replicate (8 - (hi + lo)) 0 ++ low)
            | _, _ => none
        | _ => none

def ofHextets (hextets : List Nat) : Nat := hextets.foldl (fun v h => 0x10000 * v + h) 0

/-- `_split_scope_id`: the address before the scope id. -/
def dropScope (s : List Char) : Option (List Char) :=
  match s.dropWhile (· ≠ '%') with
  | [] => some s
  | _ :: scope => if scope.isEmpty || scope.contains '%' then none else some (s.takeWhile (· ≠ '%'))

/-- `IPv6Address(s)`. -/
def parseV6 (s : List Char) : Option Nat :=
  if '/' ∈ s then none else ((dropScope s).bind parseHextets).map ofHextets

/-- `ip_address(s)`; `none` is `ValueError`. -/
def ipAddress (s : String) : Option Addr :=
  match parseV4 s.toList with
  | some ip => some (.v4 ip)
  | none => (parseV6 s.toList).map .v6

/-! ## Networks -/

/-- A network of `bits`-bit addresses. -/
structure Network where
  bits : Nat
  address : Nat
  length : Nat
deriving DecidableEq, Repr

/-- `address in network`. -/
def Network.contains (n : Network) (ip : Nat) : Bool :=
  ip >>> (n.bits - n.length) == n.address >>> (n.bits - n.length)

def net4 (a b c d length : Nat) : Network :=
  ⟨32, ((a * 256 + b) * 256 + c) * 256 + d, length⟩

/-- The network with these first hextets. -/
def net6 (hextets : List Nat) (length : Nat) : Network :=
  ⟨128, ofHextets (hextets ++ List.replicate (8 - hextets.length) 0), length⟩

def privateNetworks4 : List Network :=
  [net4 0 0 0 0 8, net4 10 0 0 0 8, net4 127 0 0 0 8, net4 169 254 0 0 16, net4 172 16 0 0 12,
   net4 192 0 0 0 24, net4 192 0 0 170 31, net4 192 0 2 0 24, net4 192 168 0 0 16,
   net4 198 18 0 0 15, net4 198 51 100 0 24, net4 203 0 113 0 24, net4 240 0 0 0 4,
   net4 255 255 255 255 32]

def privateExceptions4 : List Network := [net4 192 0 0 9 32, net4 192 0 0 10 32]

def privateNetworks6 : List Network :=
  [net6 [0, 0, 0, 0, 0, 0, 0, 1] 128, net6 [] 128, net6 [0, 0, 0, 0, 0, 0xffff] 96,
   net6 [0x64, 0xff9b, 1] 48, net6 [0x100] 64, net6 [0x2001] 23, net6 [0x2001, 0xdb8] 32,
   net6 [0x2002] 16, net6 [0x3fff] 20, net6 [0xfc00] 7, net6 [0xfe80] 10]

def privateExceptions6 : List Network :=
  [net6 [0x2001, 1, 0, 0, 0, 0, 0, 1] 128, net6 [0x2001, 1, 0, 0, 0, 0, 0, 2] 128,
   net6 [0x2001, 3] 32, net6 [0x2001, 4, 0x112] 48, net6 [0x2001, 0x20] 28, net6 [0x2001, 0x30] 28]

def reservedNetworks6 : List Network :=
  [net6 [] 8, net6 [0x100] 8, net6 [0x200] 7, net6 [0x400] 6, net6 [0x800] 5, net6 [0x1000] 4,
   net6 [0x4000] 3, net6 [0x6000] 3, net6 [0x8000] 3, net6 [0xA000] 3, net6 [0xC000] 3,
   net6 [0xE000] 4, net6 [0xF000] 5, net6 [0xF800] 6, net6 [0xFE00] 9]

/-! ## Properties -/

def anyContains (ns : List Network) (ip : Nat) : Bool := ns.any (Network.contains · ip)

/-- `address.ipv4_mapped`. -/
def ipv4Mapped (ip : Nat) : Option Nat :=
  if ip >>> 32 = 0xffff then some (ip &&& 0xffffffff) else none

/-- A property by version; a mapped IPv4 address decides for the IPv6 address. -/
def Addr.test (four six : Nat → Bool) : Addr → Bool
  | .v4 ip => four ip
  | .v6 ip =>
    match ipv4Mapped ip with
    | some mapped => four mapped
    | none => six ip

def Addr.isPrivate : Addr → Bool :=
  Addr.test (fun ip => anyContains privateNetworks4 ip && !anyContains privateExceptions4 ip)
    (fun ip => anyContains privateNetworks6 ip && !anyContains privateExceptions6 ip)

def Addr.isLoopback : Addr → Bool :=
  Addr.test (net4 127 0 0 0 8).contains (· == 1)

def Addr.isLinkLocal : Addr → Bool :=
  Addr.test (net4 169 254 0 0 16).contains (net6 [0xfe80] 10).contains

def Addr.isReserved : Addr → Bool :=
  Addr.test (net4 240 0 0 0 4).contains (anyContains reservedNetworks6)

def Addr.isMulticast : Addr → Bool :=
  Addr.test (net4 224 0 0 0 4).contains (net6 [0xff00] 8).contains

def Addr.isUnspecified : Addr → Bool := Addr.test (· == 0) (· == 0)

/-- Of one of the six kinds. -/
def Addr.isInternal (a : Addr) : Bool :=
  a.isPrivate || a.isLoopback || a.isLinkLocal || a.isReserved || a.isMulticast || a.isUnspecified

example : (ipAddress "169.254.169.254").map Addr.isLinkLocal = some true ∧
    (ipAddress "93.184.216.34").map Addr.isInternal = some false ∧
    (ipAddress "::ffff:10.1.2.3").map Addr.isPrivate = some true ∧
    (ipAddress "2606:4700::6810:84e5").map Addr.isInternal = some false ∧
    (ipAddress "fe80::1%eth0").map Addr.isLinkLocal = some true ∧
    ipAddress "010.0.0.1" = none := by decide +kernel

end PyIp
