import Mathlib.Algebra.Group.Nat.Defs
import Mathlib.Data.List.Basic

/-! # The socket address syntax of the standard library

`str::parse::<SocketAddr>` as the standard library documents it: an IPv4 address or a
bracketed IPv6 address with an optional scope, then a port, and nothing after it. A reader
that fails gives back no input, so a failed alternative leaves the text where it was. -/
namespace SocketAddrParser

abbrev Reader (α : Type) := List Char → Option (α × List Char)

inductive SocketAddr where
  | v4 (octets : List ℕ) (port : ℕ)
  | v6 (groups : List ℕ) (scope port : ℕ)
  deriving DecidableEq, Repr

def SocketAddr.port : SocketAddr → ℕ
  | .v4 _ port | .v6 _ _ port => port

def readGivenChar (target : Char) : Reader Unit
  | c :: rest => if c = target then some ((), rest) else none
  | [] => none

def readSeparator {α : Type} (sep : Char) (index : ℕ) (inner : Reader α) : Reader α := fun s =>
  if index = 0 then inner s else (readGivenChar sep s).bind fun r => inner r.2

def toDigit (radix : ℕ) (c : Char) : Option ℕ :=
  let n := c.toNat
  let d := if 48 ≤ n ∧ n ≤ 57 then some (n - 48)
    else if 97 ≤ n ∧ n ≤ 122 then some (n - 87)
    else if 65 ≤ n ∧ n ≤ 90 then some (n - 55)
    else none
  d.filter (· < radix)

def takeDigits (radix : ℕ) : List Char → List ℕ × List Char
  | [] => ([], [])
  | c :: rest =>
    match toDigit radix c with
    | some d => (d :: (takeDigits radix rest).1, (takeDigits radix rest).2)
    | none => ([], c :: rest)

def digitsValue (radix : ℕ) (ds : List ℕ) : ℕ := ds.foldl (fun n d => n * radix + d) 0

/-- A number below `bound`: at least one digit, at most `maxDigits` when that is given, and no
superfluous leading zero unless it is allowed. -/
def readNumber (radix : ℕ) (maxDigits : Option ℕ) (allowZeroPrefix : Bool) (bound : ℕ) :
    Reader ℕ := fun s =>
  match takeDigits radix s with
  | (ds, rest) =>
    if ds = [] then none
    else if maxDigits.any (· < ds.length) then none
    else if !allowZeroPrefix && ds.head? == some 0 && 1 < ds.length then none
    else if digitsValue radix ds < bound then some (digitsValue radix ds, rest)
    else none

def readOctets : ℕ → ℕ → Reader (List ℕ)
  | 0, _, s => some ([], s)
  | n + 1, i, s =>
    (readSeparator '.' i (readNumber 10 (some 3) false 256) s).bind fun r =>
      (readOctets n (i + 1) r.2).map fun q => (r.1 :: q.1, q.2)

def readIpv4Addr : Reader (List ℕ) := readOctets 4 0

/-- Groups as long as they come, at most `n`; an embedded IPv4 address takes the place of the
last two. The flag says that one was read. -/
def readGroups : ℕ → ℕ → List Char → (List ℕ × Bool) × List Char
  | 0, _, s => (([], false), s)
  | n + 1, i, s =>
    match (if n = 0 then none else readSeparator ':' i readIpv4Addr s) with
    | some ([a, b, c, d], rest) => (([a * 256 + b, c * 256 + d], true), rest)
    | _ =>
      match readSeparator ':' i (readNumber 16 (some 4) true 65536) s with
      | some (g, rest) =>
        match readGroups n (i + 1) rest with
        | ((gs, v4), rest) => ((g :: gs, v4), rest)
      | none => (([], false), s)

def readIpv6Addr : Reader (List ℕ) := fun s =>
  match readGroups 8 0 s with
  | ((head, headIpv4), rest) =>
    if head.length = 8 then some (head, rest)
    else if headIpv4 then none
    else
      (readGivenChar ':' rest).bind fun r => (readGivenChar ':' r.2).bind fun r =>
        -- the `::` stands for at least one group of zeroes
        match readGroups (8 - (head.length + 1)) 0 r.2 with
        | ((tail, _), rest) =>
          some (head ++ List.replicate (8 - head.length - tail.length) 0 ++ tail, rest)

def readPort : Reader ℕ := fun s =>
  (readGivenChar ':' s).bind fun r => readNumber 10 none true 65536 r.2

def readScopeId : Reader ℕ := fun s =>
  (readGivenChar '%' s).bind fun r => readNumber 10 none true (2 ^ 32) r.2

def readSocketAddrV4 : Reader SocketAddr := fun s =>
  (readIpv4Addr s).bind fun ip => (readPort ip.2).map fun port => (.v4 ip.1 port.1, port.2)

def readSocketAddrV6 : Reader SocketAddr := fun s =>
  (readGivenChar '[' s).bind fun r => (readIpv6Addr r.2).bind fun ip =>
    let scope := (readScopeId ip.2).getD (0, ip.2)
    (readGivenChar ']' scope.2).bind fun r => (readPort r.2).map fun port =>
      (.v6 ip.1 scope.1 port.1, port.2)

def readSocketAddr : Reader SocketAddr := fun s =>
  (readSocketAddrV4 s).or (readSocketAddrV6 s)

/-- `AddrParseError` of a socket address, as it is displayed. -/
def addrParseError : String := "invalid socket address syntax"

def parseSocketAddr (s : String) : Except String SocketAddr :=
  match readSocketAddr s.toList with
  | some (addr, []) => .ok addr
  | _ => .error addrParseError

example : parseSocketAddr "127.0.0.1:3000" = .ok (.v4 [127, 0, 0, 1] 3000) := by decide
example : parseSocketAddr "[::1%7]:80" = .ok (.v6 [0, 0, 0, 0, 0, 0, 0, 1] 7 80) := by decide
example : parseSocketAddr "127.0.0.01:80" = .error addrParseError := by decide

end SocketAddrParser
