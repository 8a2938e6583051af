/-
Network addresses.

An address of an internet network is a host and, behind the last colon, the
number of a service.  An IPv6 host stands in brackets there: eight groups, where
one run of zero groups may be left out, and behind a percent sign the number of a
zone.  Any other host is numeric or a name.  The numeric hosts are an IPv6 address
without brackets, and an IPv4 address in the traditional notation of one to four
numbers, the last of which fills the bytes that are left; what a name stands for is
up to the network.
-/
import DualStack.Fault

namespace DualStack.Address

/-- The two families of numeric addresses. -/
inductive Family where
  | v4
  | v6
deriving DecidableEq

/-- Cut a text at each occurrence of a character. -/
def splitAt (mark : Char) : List Char → List (List Char)
  | [] => [[]]
  | c :: cs =>
    if c = mark then [] :: splitAt mark cs
    else
      match splitAt mark cs with
      | [] => [[c]]
      | part :: parts => (c :: part) :: parts

/-- Cut a text at the last occurrence of a character. -/
def cutLast? (mark : Char) (cs : List Char) : Option (List Char × List Char) :=
  let tail := cs.reverse.takeWhile (· ≠ mark)
  match cs.reverse.dropWhile (· ≠ mark) with
  | [] => none
  | _ :: front => some (front.reverse, tail.reverse)

/-- Whether a text is a decimal number without sign and at most `limit`. -/
def isNumberUpTo (limit : Nat) (cs : List Char) : Bool :=
  !cs.isEmpty && cs.all Decimal.isDigit && Decimal.natOf cs ≤ limit

/-- Whether a text is the number of a service. -/
def isService (cs : List Char) : Bool :=
  isNumberUpTo 65535 cs

/-- Whether a text is the number of a service, perhaps with a plus sign in front. -/
def isSignedService : List Char → Bool
  | '+' :: cs => isService cs
  | cs => isService cs

/-- Whether a text is one byte of an IPv4 address: decimal, without leading zeros. -/
def isOctet (cs : List Char) : Bool :=
  cs.length ≤ 3 && isNumberUpTo 255 cs && (cs.length == 1 || cs.head? ≠ some '0')

/-- Whether a text is an IPv4 address. -/
def isV4 (cs : List Char) : Bool :=
  let parts := splitAt '.' cs
  parts.length == 4 && parts.all isOctet

/-- The value of a digit in bases up to sixteen. -/
def digit? (c : Char) : Option Nat :=
  if '0' ≤ c ∧ c ≤ '9' then some (c.toNat - '0'.toNat)
  else if 'a' ≤ c ∧ c ≤ 'f' then some (c.toNat - 'a'.toNat + 10)
  else if 'A' ≤ c ∧ c ≤ 'F' then some (c.toNat - 'A'.toNat + 10)
  else none

/-- The number a run of digits spells in a base, if each is a digit of that base. -/
def valueIn? (base : Nat) (cs : List Char) : Option Nat :=
  cs.foldlM (fun n c => (digit? c).bind fun d => if d < base then some (base * n + d) else none) 0

/-- The value of a number of the traditional notation: hexadecimal behind `0x`, octal behind
any other zero, else decimal. -/
def part? : List Char → Option Nat
  | [] => none
  | '0' :: cs =>
    match cs with
    | 'x' :: digits | 'X' :: digits => if digits.isEmpty then none else valueIn? 16 digits
    | digits => valueIn? 8 digits
  | digits => valueIn? 10 digits

/-- Whether a text is an IPv4 address in the traditional notation: all numbers but the last
are bytes, and the last fits in the bytes that are left. -/
def isTraditionalV4 (cs : List Char) : Bool :=
  let parts := (splitAt '.' cs).map part?
  parts.length ≤ 4 && parts.dropLast.all (·.any (· < 256)) &&
    parts.getLast?.any (·.any (· < Nat.pow 256 (5 - parts.length)))

/-- Whether a text is a group of an IPv6 address: one to four hexadecimal digits. -/
def isGroup (cs : List Char) : Bool :=
  !cs.isEmpty && cs.length ≤ 4 && cs.all fun c => (digit? c).isSome

/-- How many groups a colon-separated run stands for, if it is well formed; the last part
may be an IPv4 address, which counts for two. -/
def groups? (cs : List Char) : Option Nat :=
  if cs.isEmpty then some 0
  else
    let parts := splitAt ':' cs
    match parts.getLast? with
    | none => none
    | some last =>
      if parts.dropLast.all isGroup then
        if isGroup last then some parts.length
        else if isV4 last then some (parts.length + 1)
        else none
      else none

/-- The texts before and after the first double colon. -/
def cutDoubleColon? : List Char → Option (List Char × List Char)
  | ':' :: ':' :: cs => some ([], cs)
  | c :: cs => (cutDoubleColon? cs).map fun (front, back) => (c :: front, back)
  | [] => none

/-- Whether a text is an IPv6 address. -/
def isV6 (cs : List Char) : Bool :=
  match cutDoubleColon? cs with
  | none => groups? cs = some 8
  | some (front, back) =>
    match groups? front, groups? back with
    | some m, some n => m + n ≤ 7 && (front.isEmpty || !front.contains '.')
    | _, _ => false

/-- The largest number of a zone. -/
def maxZone : Nat := UInt32.size - 1

/-- Whether a text is an IPv6 address, perhaps with the number of a zone. -/
def isZonedV6 (cs : List Char) : Bool :=
  isV6 (cs.takeWhile (· ≠ '%')) &&
    match cs.dropWhile (· ≠ '%') with
    | [] => true
    | _ :: zone => isNumberUpTo maxZone zone

/-- Whether a host is an IPv6 address in brackets. -/
def isBracketed : List Char → Bool
  | '[' :: cs => cs.getLast? = some ']' && isZonedV6 cs.dropLast
  | _ => false

/-- The family of a host, if it is numeric. -/
def family? (host : List Char) : Option Family :=
  if isTraditionalV4 host then some .v4
  else if isZonedV6 host then some .v6
  else none

/-- A host as an address gives it. -/
inductive Host where
  | numeric (family : Family)
  /-- A name, to be looked up. -/
  | name (text : String)

/-- The host of a text without brackets. -/
def Host.ofText (text : List Char) : Except Fault Host :=
  if text.contains '\x00' then .error .nullInName
  else
    match family? text with
    | some family => .ok (.numeric family)
    | none => .ok (.name (String.ofList text))

/-- The host an address leads to. -/
def host (address : List Char) : Except Fault Host :=
  match cutLast? ':' address with
  | none => .error .malformedAddress
  | some (text, service) =>
    if isService service && isBracketed text then .ok (.numeric .v6)
    else if isSignedService service then Host.ofText text
    else .error .malformedService

end DualStack.Address
