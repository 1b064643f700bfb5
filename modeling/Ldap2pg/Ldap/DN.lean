import Ldap2pg.Lib.Utf8
import Ldap2pg.Ldap

/-! # Distinguished names

`partialvendor/go-ldap/dn.go`: `ParseDN` reads a name byte by byte and decodes each type
and each value, `DN.String` writes a name in a normal form. `ResolveFirstRDN` of
`internal/ldap/generate.go` is the only caller.

The layer above is the text of a name as RFC 4514 has it: characters that stand for
themselves, escaped ones and hexadecimal pairs, with spaces around each type and value.
A name is read from every text of it. -/
namespace Ldap2pg.Ldap.DN
open Lib.Utf8

structure AttributeTypeAndValue where
  type : Bytes
  value : Bytes
  deriving DecidableEq, Repr

structure RelativeDN where
  attributes : List AttributeTypeAndValue
  deriving DecidableEq, Repr

/-- The errors, each with what its text shows. -/
inductive Error where
  /-- got corrupted escaped character: '…' -/
  | corrupted (text : Bytes)
  /-- failed to decode escaped character: encoding/hex: invalid byte: … -/
  | short (c : Char)
  /-- failed to decode escaped character: invalid byte: … -/
  | wide (digits : Bytes)
  /-- failed to decode escaped character: (the error of `hex.Decode`) -/
  | notHex (b : UInt8)
  /-- failed to decode BER encoding: … -/
  | ber (text : Bytes)
  /-- incomplete type, value pair -/
  | incomplete
  /-- DN ended with incomplete type, value pair -/
  | ended
  deriving DecidableEq, Repr

section Decode

def space : UInt8 := ' '.toUInt8
def backslash : UInt8 := '\\'.toUInt8

/-- `strings.Trim(s, " ")`. -/
def trim (s : Bytes) : Bytes := (s.dropWhile (· == space)).rdropWhile (· == space)

/-- The last space comes back when the text before it ends with a backslash. -/
def stripLeadingAndTrailingSpaces (inVal : Bytes) : Bytes :=
  if (trim inVal).getLast? = some backslash ∧ inVal.getLast? = some space then
    trim inVal ++ [space]
  else trim inVal

/-- The characters that a backslash alone escapes. -/
def specials : List Char := [' ', '"', '#', '+', ',', ';', '<', '=', '>', '\\']

/-- The loop of `decodeString`; `whole` is the text an error shows. -/
def unescape (whole : Bytes) : List Char → Except Error Bytes
  | [] => .ok []
  | ['\\'] => .error (.corrupted whole)
  | ['\\', c] => if c ∈ specials then .ok (String.utf8EncodeChar c) else .error (.short c)
  | '\\' :: c :: d :: s =>
    if c ∈ specials then (unescape whole (d :: s)).map (String.utf8EncodeChar c ++ ·)
    else match encode [c, d] with
      | [hi, lo] =>
        match hexDecode hi lo with
        | .error b => .error (.notHex b)
        | .ok b => (unescape whole s).map (b :: ·)
      | digits => .error (.wide digits)
  | c :: s => (unescape whole s).map (String.utf8EncodeChar c ++ ·)

def decodeString (str : Bytes) : Except Error Bytes :=
  let s := runes (stripLeadingAndTrailingSpaces str)
  unescape (encode s) s

/-- `decodeEncodedString` is `ber`: the octets of a BER element, out of its digits. -/
abbrev Ber := Bytes → Except Bytes Bytes

/-- `AttributeTypeAndValue.setValue`. -/
def setValue (ber : Ber) (s : Bytes) : Except Error Bytes :=
  if s.head? = some '#'.toUInt8 then (ber s.tail).mapError .ber else decodeString s

end Decode

section Parse

/-- The variables of `ParseDN`; `pending` is the text since `startPos`. -/
structure State where
  rdns : List RelativeDN := []
  attributes : List AttributeTypeAndValue := []
  type : Bytes := []
  escaping : Bool := false
  pending : Bytes := []

/-- `appendAttributesToRDN`. -/
def State.appendAttributesToRDN (st : State) (value : Bytes) (last : Bool) : State :=
  let attributes := st.attributes ++ [⟨st.type, value⟩]
  if last then { rdns := st.rdns ++ [⟨attributes⟩] } else { rdns := st.rdns, attributes := attributes }

/-- One byte of a name. -/
def step (ber : Ber) (st : State) (char : UInt8) : Except Error State :=
  if st.escaping then .ok { st with escaping := false, pending := st.pending ++ [char] }
  else if char = backslash then .ok { st with escaping := true, pending := st.pending ++ [char] }
  else if char = '='.toUInt8 ∧ st.type = [] then
    (decodeString st.pending).map fun t => { st with type := t, pending := [] }
  else if char = ','.toUInt8 ∨ char = '+'.toUInt8 ∨ char = ';'.toUInt8 then
    if st.type = [] then .error .incomplete
    else (setValue ber st.pending).map fun v => st.appendAttributesToRDN v (char ≠ '+'.toUInt8)
  else .ok { st with pending := st.pending ++ [char] }

/-- What `ParseDN` does after its loop. -/
def finish (ber : Ber) (st : State) : Except Error (List RelativeDN) :=
  if st.type = [] then .error .ended
  else (setValue ber st.pending).map fun v => (st.appendAttributesToRDN v true).rdns

def scan (ber : Ber) (st : State) (str : Bytes) : Except Error State := str.foldlM (step ber) st

/-- `unicode.IsSpace`. -/
def isSpace (c : Char) : Bool :=
  c ∈ ['\t', '\n', '\u000b', '\u000c', '\r', ' ', '\u0085', '\u00a0', '\u1680',
    '\u2028', '\u2029', '\u202f', '\u205f', '\u3000'] || ('\u2000' ≤ c && c ≤ '\u200a')

/-- `ParseDN`. The part of the name that is read comes with an error in two of the
returns; no caller looks at it. -/
def parseDN (ber : Ber) (str : Bytes) : Except Error (List RelativeDN) :=
  if (runes str).all isSpace then .ok [] else (scan ber {} str).bind (finish ber)

end Parse

end Ldap2pg.Ldap.DN
