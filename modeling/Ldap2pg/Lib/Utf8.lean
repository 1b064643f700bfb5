import Mathlib

/-! # Texts as bytes

A string of Go is a list of bytes that most functions read as UTF-8. A byte that starts
no character is read as U+FFFD, one byte wide, so reading a text and writing it again can
change it; what `encode` writes is read back as it was. Hexadecimal digits are here too,
as both the names and the filters of LDAP escape bytes by them. -/
namespace Ldap2pg.Lib.Utf8

abbrev Bytes := List UInt8

/-- A list of characters as UTF-8. -/
def encode (cs : List Char) : Bytes := cs.flatMap String.utf8EncodeChar

/-- `utf8.RuneError`. -/
def runeError : Char := '\ufffd'

/-- `utf8.DecodeRune`: the first character and its width in bytes, zero at the end. -/
def decodeRune : Bytes → Char × Nat
  | [] => (runeError, 0)
  | b :: s =>
    match (b :: s).toByteArray.utf8DecodeChar? 0 with
    | some c => (c, c.utf8Size)
    | none => (runeError, 1)

/-- The characters of a text whose first `skip` bytes are read already. -/
def runesFrom : Nat → Bytes → List Char
  | _, [] => []
  | skip + 1, _ :: s => runesFrom skip s
  | 0, b :: s => (decodeRune (b :: s)).1 :: runesFrom ((decodeRune (b :: s)).2 - 1) s

/-- `[]rune(s)`. -/
def runes (s : Bytes) : List Char := runesFrom 0 s

section Encode

@[simp] theorem encode_nil : encode [] = [] := rfl

@[simp] theorem encode_cons (c : Char) (cs : List Char) :
    encode (c :: cs) = String.utf8EncodeChar c ++ encode cs := by
  simp [encode]

@[simp] theorem encode_append (cs ds : List Char) : encode (cs ++ ds) = encode cs ++ encode ds := by
  simp [encode]

theorem toNat_toUInt8 {c : Char} (hc : c.toNat < 128) : c.toUInt8.toNat = c.toNat := by
  have hval : c.toNat = c.val.toNat := rfl
  exact Nat.mod_eq_of_lt (by omega)

/-- An ASCII character is the one byte of its code. -/
theorem encode_ascii {c : Char} (hc : c.toNat < 128) : String.utf8EncodeChar c = [c.toUInt8] := by
  have hval : c.val.toNat ≤ 127 := by
    have : c.val.toNat = c.toNat := rfl
    omega
  simp only [String.utf8EncodeChar, hval, if_true]
  rfl

/-- No byte of another character is an ASCII one. -/
theorem encode_wide {c : Char} (hc : ¬ c.toNat < 128) :
    ∀ b ∈ String.utf8EncodeChar c, 128 ≤ b.toNat := by
  have hval : ¬ c.val.toNat ≤ 127 := by
    have : c.val.toNat = c.toNat := rfl
    omega
  simp only [String.utf8EncodeChar, hval, if_false]
  split
  · simp; omega
  split
  · simp; omega
  · simp; omega

theorem encode_ne_nil {cs : List Char} (hcs : cs ≠ []) : encode cs ≠ [] := by
  cases cs with
  | nil => exact absurd rfl hcs
  | cons c cs => simp [String.utf8EncodeChar_ne_nil]

/-- An ASCII byte of a text is one of its characters. -/
theorem mem_encode {cs : List Char} {d : Char} (hd : d.toNat < 128)
    (hmem : d.toUInt8 ∈ encode cs) : d ∈ cs := by
  obtain ⟨c, hc, hb⟩ := List.mem_flatMap.mp hmem
  have hsmall := toNat_toUInt8 hd
  by_cases hwide : c.toNat < 128
  · rw [encode_ascii hwide, List.mem_singleton] at hb
    have hsame : d.toNat = c.toNat := by
      have := congrArg UInt8.toNat hb
      rwa [hsmall, toNat_toUInt8 hwide] at this
    rwa [← Char.toNat_inj.mp hsame] at hc
  · have := encode_wide hwide _ hb
    omega

/-- The first byte of a character, ASCII only if the character is. -/
theorem encode_first (c : Char) : ∃ b s, String.utf8EncodeChar c = b :: s ∧
    ∀ d : Char, d.toNat < 128 → b = d.toUInt8 → c = d := by
  obtain ⟨b, s, hbs⟩ := List.exists_cons_of_ne_nil (@String.utf8EncodeChar_ne_nil c)
  refine ⟨b, s, hbs, fun d hd hb => ?_⟩
  have hmem : d.toUInt8 ∈ encode [c] := by simp [hbs, hb]
  exact (List.mem_singleton.mp (mem_encode hd hmem)).symm

/-- The same of the last byte. -/
theorem encode_last (c : Char) : ∃ s b, String.utf8EncodeChar c = s ++ [b] ∧
    ∀ d : Char, d.toNat < 128 → b = d.toUInt8 → c = d := by
  obtain ⟨s, b, hsb⟩ := List.eq_nil_or_concat' (String.utf8EncodeChar c) |>.resolve_left
    String.utf8EncodeChar_ne_nil
  refine ⟨s, b, hsb, fun d hd hb => ?_⟩
  have hmem : d.toUInt8 ∈ encode [c] := by simp [hsb, hb]
  exact (List.mem_singleton.mp (mem_encode hd hmem)).symm

end Encode

section Decode

/-- A character that was written is read, whatever follows. -/
theorem decodeRune_encode (c : Char) (s : Bytes) :
    decodeRune (String.utf8EncodeChar c ++ s) = (c, c.utf8Size) := by
  have hread : (String.utf8EncodeChar c ++ s).toByteArray.utf8DecodeChar? 0 = some c := by
    rw [List.toByteArray_append]
    exact ByteArray.utf8DecodeChar?_utf8EncodeChar_append
  cases htext : String.utf8EncodeChar c ++ s with
  | nil => exact absurd (List.append_eq_nil_iff.mp htext).1 String.utf8EncodeChar_ne_nil
  | cons b t => rw [decodeRune, ← htext, hread]

theorem decodeRune_width_pos {s : Bytes} (hs : s ≠ []) : 0 < (decodeRune s).2 := by
  cases s with
  | nil => exact absurd rfl hs
  | cons b s =>
    rw [decodeRune]
    split
    · exact Char.utf8Size_pos _
    · exact Nat.one_pos

theorem runesFrom_eq (skip : Nat) (s : Bytes) : runesFrom skip s = runes (s.drop skip) := by
  induction s generalizing skip with
  | nil => simp [runesFrom, runes]
  | cons b s ih =>
    cases skip with
    | zero => rfl
    | succ skip => rw [runesFrom, ih, List.drop_succ_cons]

theorem runes_eq {s : Bytes} (hs : s ≠ []) :
    runes s = (decodeRune s).1 :: runes (s.drop (decodeRune s).2) := by
  have hwidth := decodeRune_width_pos hs
  cases s with
  | nil => exact absurd rfl hs
  | cons b s =>
    obtain ⟨width, hw⟩ := Nat.exists_eq_succ_of_ne_zero (Nat.pos_iff_ne_zero.mp hwidth)
    rw [runes, runesFrom, runesFrom_eq, hw, Nat.succ_eq_add_one, List.drop_succ_cons,
      Nat.add_sub_cancel]

theorem runes_ne_nil {s : Bytes} (hs : s ≠ []) : runes s ≠ [] := by
  rw [runes_eq hs]
  exact List.cons_ne_nil _ _

theorem runes_encode_append (cs : List Char) (s : Bytes) :
    runes (encode cs ++ s) = cs ++ runes s := by
  induction cs with
  | nil => rfl
  | cons c cs ih =>
    have hne : encode (c :: cs) ++ s ≠ [] := by simp [String.utf8EncodeChar_ne_nil]
    have hdrop : (String.utf8EncodeChar c ++ (encode cs ++ s)).drop c.utf8Size =
        encode cs ++ s := by
      rw [← String.length_utf8EncodeChar, List.drop_left]
    rw [runes_eq hne, encode_cons, List.append_assoc, decodeRune_encode, hdrop, ih]
    rfl

/-- What was written is read as it was. -/
@[simp] theorem runes_encode (cs : List Char) : runes (encode cs) = cs := by
  simpa [runes, runesFrom] using runes_encode_append cs []

end Decode

section Hex

/-- The value of a hexadecimal digit, of either case. -/
def hexValue (b : UInt8) : Option Nat :=
  if '0'.toUInt8 ≤ b ∧ b ≤ '9'.toUInt8 then some (b.toNat - '0'.toNat)
  else if 'a'.toUInt8 ≤ b ∧ b ≤ 'f'.toUInt8 then some (b.toNat - 'a'.toNat + 10)
  else if 'A'.toUInt8 ≤ b ∧ b ≤ 'F'.toUInt8 then some (b.toNat - 'A'.toNat + 10)
  else none

/-- `hex.Decode` on two digits: the byte, or the first of the two that is no digit. -/
def hexDecode (hi lo : UInt8) : Except UInt8 UInt8 :=
  match hexValue hi, hexValue lo with
  | none, _ => .error hi
  | _, none => .error lo
  | some x, some y => .ok (UInt8.ofNat (16 * x + y))

/-- The digit of a value below sixteen, in lower case. -/
def hexDigit (n : Nat) : UInt8 :=
  if n < 10 then UInt8.ofNat ('0'.toNat + n) else UInt8.ofNat ('a'.toNat + (n - 10))

def hexEncode (b : UInt8) : Bytes := [hexDigit (b.toNat / 16), hexDigit (b.toNat % 16)]

theorem hexValue_hexDigit : ∀ n < 16, hexValue (hexDigit n) = some n := by
  decide

end Hex

end Ldap2pg.Lib.Utf8
