import Ldap2pg.Ldap.DN

/-! # Texts of a distinguished name

The text of a name in the grammar of RFC 4514, with the spaces around types and values
that the parser takes, and what it stands for. A piece of a type or of a value stands for
one character or one byte. Values in BER, after a number sign, are left out; so are spaces
after an escaped backslash, where the parser takes one for an escaped space. -/
namespace Ldap2pg.Ldap.DN
open Lib.Utf8

variable (whole : Bytes) {c : Char}

section Pieces

/-- A hexadecimal digit. -/
structure Digit where
  char : Char
  value : Nat
  ascii : char.toNat < 128
  valued : hexValue char.toUInt8 = some value

inductive Piece where
  | plain (c : Char) (h : c ≠ '\\')
  | special (c : Char) (h : c ∈ specials)
  | hex (hi lo : Digit)

def Piece.chars : Piece → List Char
  | .plain c _ => [c]
  | .special c _ => ['\\', c]
  | .hex hi lo => ['\\', hi.char, lo.char]

/-- What a piece stands for. -/
def Piece.value : Piece → Bytes
  | .plain c _ => String.utf8EncodeChar c
  | .special c _ => String.utf8EncodeChar c
  | .hex hi lo => [UInt8.ofNat (16 * hi.value + lo.value)]

def charsOf (ps : List Piece) : List Char := ps.flatMap Piece.chars

def valueOf (ps : List Piece) : Bytes := ps.flatMap Piece.value

theorem specials_ascii (hc : c ∈ specials) : c.toNat < 128 ∧ hexValue c.toUInt8 = none := by
  have hall : specials.all (fun c => c.toNat < 128 && hexValue c.toUInt8 == none) = true := by decide
  simpa using List.all_eq_true.mp hall c hc

theorem Digit.byte_ne (d : Digit) {b : UInt8} (hb : hexValue b = none) :
    d.char.toUInt8 ≠ b := by
  rintro rfl
  rw [d.valued] at hb
  cases hb

theorem Digit.not_special (d : Digit) : d.char ∉ specials := fun hmem =>
  d.byte_ne (specials_ascii hmem).2 rfl

theorem unescape_plain (hc : c ≠ '\\') (s : List Char) :
    unescape whole (c :: s) = (unescape whole s).map (String.utf8EncodeChar c ++ ·) := by
  rw [unescape.eq_def]
  split <;> simp_all

theorem unescape_special (hc : c ∈ specials) (s : List Char) :
    unescape whole ('\\' :: c :: s) = (unescape whole s).map (String.utf8EncodeChar c ++ ·) := by
  cases s with
  | nil => simp [unescape, hc, Except.map]
  | cons d s => simp [unescape, hc]

theorem unescape_hex (hi lo : Digit) (s : List Char) :
    unescape whole ('\\' :: hi.char :: lo.char :: s) =
      (unescape whole s).map (UInt8.ofNat (16 * hi.value + lo.value) :: ·) := by
  have htwo : encode [hi.char, lo.char] = [hi.char.toUInt8, lo.char.toUInt8] := by
    simp [encode_ascii hi.ascii, encode_ascii lo.ascii]
  rw [unescape, if_neg hi.not_special, htwo]
  simp [hexDecode, hi.valued, lo.valued]

/-- Every piece is decoded to what it stands for. -/
theorem unescape_piece (p : Piece) (s : List Char) :
    unescape whole (p.chars ++ s) = (unescape whole s).map (p.value ++ ·) := by
  cases p with
  | plain c hc => exact unescape_plain whole hc s
  | special c hc => exact unescape_special whole hc s
  | hex hi lo => exact unescape_hex whole hi lo s

theorem unescape_pieces (ps : List Piece) : unescape whole (charsOf ps) = .ok (valueOf ps) := by
  induction ps with
  | nil => rfl
  | cons p ps ih =>
    have hsplit : charsOf (p :: ps) = p.chars ++ charsOf ps := rfl
    rw [hsplit, unescape_piece, ih]
    rfl

theorem Piece.value_ne_nil (p : Piece) : p.value ≠ [] := by
  cases p with
  | plain c hc => exact String.utf8EncodeChar_ne_nil
  | special c hc => exact String.utf8EncodeChar_ne_nil
  | hex hi lo => exact List.cons_ne_nil _ _

end Pieces

section Spaces

theorem encode_backslash : String.utf8EncodeChar '\\' = [backslash] := rfl

theorem encode_space : String.utf8EncodeChar ' ' = [space] := rfl

theorem backslash_ne_space : backslash ≠ space := by decide

@[simp] theorem encode_replicate_space (n : Nat) :
    encode (List.replicate n ' ') = List.replicate n space := by
  induction n with
  | zero => rfl
  | succ n ih => rw [List.replicate_succ, encode_cons, ih]; rfl

theorem rdropWhile_replicate (s : Bytes) (n : Nat) :
    (s ++ List.replicate n space).rdropWhile (· == space) = s.rdropWhile (· == space) := by
  induction n with
  | zero => simp
  | succ n ih =>
    rw [List.replicate_succ', ← List.append_assoc, List.rdropWhile_concat_pos _ _ _ (by rfl), ih]

/-- The spaces around a text that does not start with one. -/
theorem trim_padded (n m : Nat) {s : Bytes} (hs : s.head? ≠ some space) :
    trim (List.replicate n space ++ (s ++ List.replicate m space)) = s.rdropWhile (· == space) := by
  have hpad : ∀ b ∈ List.replicate n space, (b == space) = true := fun b hb => by
    simp [(List.mem_replicate.mp hb).2]
  rw [trim, List.dropWhile_append_of_pos hpad]
  cases s with
  | nil =>
    have hall : ∀ b ∈ List.replicate m space, (b == space) = true := fun b hb => by
      simp [(List.mem_replicate.mp hb).2]
    simp [List.dropWhile_eq_nil_iff.mpr hall]
  | cons b s =>
    have hb : ¬ (b == space) = true := fun hb => hs (by simpa using hb)
    rw [List.cons_append, List.dropWhile_cons_of_neg (p := (· == space)) hb, ← List.cons_append,
      rdropWhile_replicate]

theorem getLast_padded (s t : Bytes) (b : UInt8) (m : Nat) :
    (t ++ (s ++ [b] ++ List.replicate m space)).getLast? = some (if m = 0 then b else space) := by
  cases m with
  | zero => simp [← List.append_assoc]
  | succ m => simp [List.replicate_succ', ← List.append_assoc]

/-- A text whose last byte is no space: a backslash there takes one of the spaces back. -/
theorem strip_padded (n m : Nat) {s : Bytes} {b : UInt8} (hs : (s ++ [b]).head? ≠ some space)
    (hb : b ≠ space) :
    stripLeadingAndTrailingSpaces (List.replicate n space ++ (s ++ [b] ++ List.replicate m space)) =
      if b = backslash ∧ m ≠ 0 then s ++ [b] ++ [space] else s ++ [b] := by
  have htrim := trim_padded n m hs
  rw [List.rdropWhile_concat_neg _ _ _ (by simpa using hb)] at htrim
  rw [stripLeadingAndTrailingSpaces, htrim, getLast_padded, List.getLast?_concat]
  by_cases hm : m = 0
  · simp [hm, hb]
  · simp [hm]

/-- A text that ends with an escaped space keeps it. -/
theorem strip_escaped (n m : Nat) {s : Bytes} (hs : (s ++ [backslash]).head? ≠ some space) :
    stripLeadingAndTrailingSpaces
        (List.replicate n space ++ (s ++ [backslash] ++ [space] ++ List.replicate m space)) =
      s ++ [backslash] ++ [space] := by
  have hshift : s ++ [backslash] ++ [space] ++ List.replicate m space =
      s ++ [backslash] ++ List.replicate (m + 1) space := by
    simp [List.replicate_succ]
  rw [hshift, strip_padded n (m + 1) hs backslash_ne_space, if_pos ⟨rfl, Nat.succ_ne_zero m⟩]

end Spaces

section Texts

/-- The characters that end a type, and those that end a value. -/
def typeStops : List Char := ['=', ',', '+', ';']
def valueStops : List Char := [',', '+', ';']

/-- The last piece is an escaped backslash. -/
def endsEscaped (ps : List Piece) : Bool :=
  match ps.getLast? with
  | some (.special c _) => c == '\\'
  | _ => false

/-- A type or a value with spaces around it. -/
structure Text (stops : List Char) where
  before : Nat
  pieces : List Piece
  after : Nat
  free : ∀ c h, Piece.plain c h ∈ pieces → c ∉ stops
  first : ∀ h, pieces.head? ≠ some (.plain ' ' h)
  last : ∀ h, pieces.getLast? ≠ some (.plain ' ' h)
  tight : endsEscaped pieces = true → after = 0

variable {stops : List Char}

def Text.chars (t : Text stops) : List Char :=
  List.replicate t.before ' ' ++ (charsOf t.pieces ++ List.replicate t.after ' ')

/-- A text does not start with a space of its own. -/
theorem Text.head_ne_space (t : Text stops) :
    (encode (charsOf t.pieces)).head? ≠ some space := by
  have hfirst := t.first
  cases hps : t.pieces with
  | nil => simp [charsOf]
  | cons p ps =>
    cases p with
    | plain c hc =>
      obtain ⟨b, s, hbs, honly⟩ := encode_first c
      have hb : b ≠ space := fun hb => by
        have hc' : c = ' ' := honly ' ' (by decide) hb
        subst hc'
        exact hfirst hc (by simp [hps])
      simp [charsOf, Piece.chars, hbs, hb]
    | special c hc => simp [charsOf, Piece.chars, encode_backslash, backslash_ne_space]
    | hex hi lo => simp [charsOf, Piece.chars, encode_backslash, backslash_ne_space]

/-- How the last piece of a text ends: with a byte that is a backslash only if it is an
escaped one, or with an escaped space. -/
theorem Piece.last_byte (p : Piece) (hp : ∀ h, p ≠ .plain ' ' h) :
    (∃ s b, encode p.chars = s ++ [b] ∧ b ≠ space ∧ (b = backslash ↔ endsEscaped [p] = true)) ∨
      encode p.chars = [backslash] ++ [space] ∧ endsEscaped [p] = false := by
  cases p with
  | plain c hc =>
    obtain ⟨s, b, hsb, honly⟩ := encode_last c
    refine .inl ⟨s, b, by simp [Piece.chars, hsb], fun hb => ?_, ?_⟩
    · have hc' : c = ' ' := honly ' ' (by decide) hb
      subst hc'
      exact hp hc rfl
    · have hb : b ≠ backslash := fun hb => hc (honly '\\' (by decide) hb)
      simp [endsEscaped, hb]
  | special c hc =>
    have hascii := (specials_ascii hc).1
    have hone (d : Char) (hd : d.toNat < 128) : c.toUInt8 = d.toUInt8 → c = d := fun hb => by
      have := congrArg UInt8.toNat hb
      rw [toNat_toUInt8 hascii, toNat_toUInt8 hd] at this
      exact Char.toNat_inj.mp this
    by_cases hspace : c = ' '
    · subst hspace
      exact .inr ⟨rfl, rfl⟩
    · refine .inl ⟨[backslash], c.toUInt8, ?_, fun hb => hspace (hone ' ' (by decide) hb), ?_⟩
      · simp [Piece.chars, encode_backslash, encode_ascii hascii]
      · constructor
        · intro hb
          simp [endsEscaped, hone '\\' (by decide) hb]
        · intro hc'
          have : c = '\\' := by simpa [endsEscaped] using hc'
          rw [this]
          rfl
  | hex hi lo =>
    refine .inl ⟨[backslash, hi.char.toUInt8], lo.char.toUInt8, ?_, lo.byte_ne (by decide), ?_⟩
    · simp [Piece.chars, encode_backslash, encode_ascii hi.ascii, encode_ascii lo.ascii]
    · simp [endsEscaped, lo.byte_ne (b := backslash) (by decide)]

theorem encode_chars (t : Text stops) : encode t.chars = List.replicate t.before space ++
    (encode (charsOf t.pieces) ++ List.replicate t.after space) := by
  simp [Text.chars]

/-- The parser takes the spaces around a text away, and no other. -/
theorem strip_text (t : Text stops) :
    stripLeadingAndTrailingSpaces (encode t.chars) = encode (charsOf t.pieces) := by
  have hhead := t.head_ne_space
  rw [encode_chars]
  rcases List.eq_nil_or_concat' t.pieces with hnil | ⟨init, p, hps⟩
  · have htrim : trim (List.replicate t.before space ++
        (encode (charsOf t.pieces) ++ List.replicate t.after space)) = [] := by
      rw [trim_padded _ _ hhead, hnil]
      rfl
    rw [stripLeadingAndTrailingSpaces, htrim, hnil]
    simp [charsOf]
  · have hlast : endsEscaped t.pieces = endsEscaped [p] := by simp [endsEscaped, hps]
    have hp : ∀ h, p ≠ .plain ' ' h := fun h hp => t.last h (by simp [hps, hp])
    have hbody : encode (charsOf t.pieces) = encode (charsOf init) ++ encode p.chars := by
      simp [hps, charsOf]
    rcases p.last_byte hp with ⟨s, b, hsb, hspace, hends⟩ | ⟨hsb, hends⟩
    · rw [hsb, ← List.append_assoc] at hbody
      rw [hbody] at hhead ⊢
      rw [strip_padded _ _ hhead hspace, if_neg fun h => h.2 (t.tight (hlast ▸ hends.mp h.1))]
    · rw [hsb, ← List.append_assoc] at hbody
      have hshort : (encode (charsOf init) ++ [backslash]).head? ≠ some space := by
        rw [hbody, List.head?_append] at hhead
        cases hinit : (encode (charsOf init) ++ [backslash]).head? with
        | none => exact nofun
        | some b => simpa [hinit] using hhead
      rw [hbody, strip_escaped _ _ hshort]

def Text.value (t : Text stops) : Bytes := valueOf t.pieces

theorem decodeString_text (t : Text stops) : decodeString (encode t.chars) = .ok t.value := by
  rw [decodeString, strip_text, runes_encode]
  exact unescape_pieces _ _

/-- One of the spaces after an escaped backslash stays. -/
example : decodeString (encode "a\\\\  ".toList) = .ok (encode "a\\ ".toList) := by decide +kernel

theorem Text.value_ne_nil {t : Text stops} (ht : t.pieces ≠ []) : t.value ≠ [] := by
  obtain ⟨p, ps, hps⟩ := List.exists_cons_of_ne_nil ht
  simp [Text.value, valueOf, hps, p.value_ne_nil]

end Texts

section Scan

variable {ber : Ber}

/-- The characters that stop the loop at its state. -/
def State.stops (st : State) : List Char := if st.type = [] then typeStops else valueStops

/-- Bytes that the loop only passes. -/
def Quiet (st : State) (b : UInt8) : Prop := b ≠ backslash ∧ ∀ c ∈ st.stops, b ≠ c.toUInt8

theorem step_quiet {st : State} (hst : st.escaping = false) {b : UInt8} (hb : Quiet st b) :
    step ber st b = .ok { st with pending := st.pending ++ [b] } := by
  obtain ⟨hslash, hstops⟩ := hb
  have heq : ¬ (b = '='.toUInt8 ∧ st.type = []) := fun h =>
    hstops '=' (by simp [State.stops, h.2, typeStops]) h.1
  have hends (c : Char) (hc : c ∈ valueStops) : b ≠ c.toUInt8 := by
    refine hstops c ?_
    rw [State.stops]
    split
    · exact List.mem_cons_of_mem _ hc
    · exact hc
  have hsep : ¬ (b = ','.toUInt8 ∨ b = '+'.toUInt8 ∨ b = ';'.toUInt8) := by
    simp [hends ',' (by simp [valueStops]), hends '+' (by simp [valueStops]),
      hends ';' (by simp [valueStops])]
  rw [step, if_neg (by simp [hst]), if_neg hslash, if_neg heq, if_neg hsep]

@[simp] theorem scan_cons (st : State) (b : UInt8) (s : Bytes) :
    scan ber st (b :: s) = (step ber st b).bind fun st => scan ber st s := List.foldlM_cons

/-- Text is pending after `s` when the loop has only passed it. -/
def Passes (ber : Ber) (st : State) (s : Bytes) : Prop :=
  ∀ rest, scan ber st (s ++ rest) = scan ber { st with pending := st.pending ++ s } rest

theorem passes_nil (st : State) : Passes ber st [] := fun rest => by simp

theorem Passes.append {st : State} {s t : Bytes} (hs : Passes ber st s)
    (ht : Passes ber { st with pending := st.pending ++ s } t) : Passes ber st (s ++ t) := by
  intro rest
  rw [List.append_assoc, hs, ht, List.append_assoc]

theorem passes_quiet {s : Bytes} {st : State} (hst : st.escaping = false)
    (hs : ∀ b ∈ s, Quiet st b) : Passes ber st s := by
  induction s generalizing st with
  | nil => exact passes_nil st
  | cons b s ih =>
    have hone : Passes ber st [b] := fun rest => by
      rw [List.singleton_append, scan_cons, step_quiet hst (hs b List.mem_cons_self)]
      rfl
    refine hone.append (ih hst fun c hc => hs c (List.mem_cons_of_mem _ hc))

/-- A backslash and the byte after it. -/
theorem passes_escape {st : State} (hst : st.escaping = false) (b : UInt8) :
    Passes ber st [backslash, b] := by
  intro rest
  have hslash : step ber st backslash =
      .ok { st with escaping := true, pending := st.pending ++ [backslash] } := by
    rw [step, if_neg (by simp [hst]), if_pos rfl]
  have hnext : step ber { st with escaping := true, pending := st.pending ++ [backslash] } b =
      .ok { st with pending := st.pending ++ [backslash, b] } := by
    rw [step, if_pos rfl]
    simp [hst]
  simp only [List.cons_append, List.nil_append, scan_cons, hslash, Except.bind, hnext]

theorem stops_ascii {st : State} (hc : c ∈ st.stops) :
    c.toNat < 128 ∧ hexValue c.toUInt8 = none := by
  have hall : typeStops.all (fun c => c.toNat < 128 && hexValue c.toUInt8 == none) = true := by decide
  have hmem : c ∈ typeStops := by
    rw [State.stops] at hc
    split at hc
    · exact hc
    · exact List.mem_cons_of_mem _ hc
  simpa using List.all_eq_true.mp hall c hmem

theorem quiet_char {st : State} (hslash : c ≠ '\\') (hstops : c ∉ st.stops) :
    ∀ b ∈ String.utf8EncodeChar c, Quiet st b := by
  intro b hb
  have honly (d : Char) (hd : d.toNat < 128) (hbd : b = d.toUInt8) : c = d := by
    have hmem : d.toUInt8 ∈ encode [c] := by simpa [hbd] using hb
    exact (List.mem_singleton.mp (mem_encode hd hmem)).symm
  refine ⟨fun h => hslash (honly '\\' (by decide) h), fun d hd h => hstops ?_⟩
  rw [honly d (stops_ascii hd).1 h]
  exact hd

theorem quiet_digit {st : State} (d : Digit) : Quiet st d.char.toUInt8 :=
  ⟨d.byte_ne (by decide), fun _ hc => d.byte_ne (stops_ascii hc).2⟩

/-- The loop passes every piece of a text. -/
theorem passes_piece {st : State} (hst : st.escaping = false) (p : Piece)
    (hp : ∀ c h, p = .plain c h → c ∉ st.stops) : Passes ber st (encode p.chars) := by
  cases p with
  | plain c hc =>
    have hone : encode (Piece.plain c hc).chars = String.utf8EncodeChar c := by simp [Piece.chars]
    rw [hone]
    exact passes_quiet hst (quiet_char hc (hp c hc rfl))
  | special c hc =>
    have htwo : encode (Piece.special c hc).chars = [backslash, c.toUInt8] := by
      simp [Piece.chars, encode_backslash, encode_ascii (specials_ascii hc).1]
    rw [htwo]
    exact passes_escape hst _
  | hex hi lo =>
    have hthree : encode (Piece.hex hi lo).chars =
        [backslash, hi.char.toUInt8] ++ [lo.char.toUInt8] := by
      simp [Piece.chars, encode_backslash, encode_ascii hi.ascii, encode_ascii lo.ascii]
    rw [hthree]
    refine (passes_escape hst _).append (passes_quiet hst fun b hb => ?_)
    rw [List.mem_singleton.mp hb]
    exact quiet_digit lo

theorem passes_pieces (ps : List Piece) {st : State} (hst : st.escaping = false)
    (hps : ∀ c h, Piece.plain c h ∈ ps → c ∉ st.stops) :
    Passes ber st (encode (charsOf ps)) := by
  induction ps generalizing st with
  | nil => exact passes_nil st
  | cons p ps ih =>
    have hsplit : encode (charsOf (p :: ps)) = encode p.chars ++ encode (charsOf ps) := by
      simp [charsOf]
    rw [hsplit]
    refine (passes_piece hst p fun c h hp => hps c h (hp ▸ List.mem_cons_self)).append ?_
    exact ih hst fun c h hmem => hps c h (List.mem_cons_of_mem _ hmem)

theorem passes_spaces (n : Nat) {st : State} (hst : st.escaping = false) :
    Passes ber st (List.replicate n space) := by
  have hfree : ' ' ∉ st.stops := by
    rw [State.stops]
    split
    · simp [typeStops]
    · simp [valueStops]
  refine passes_quiet hst fun b hb => ?_
  rw [(List.mem_replicate.mp hb).2]
  exact quiet_char (by decide) hfree space (by simp [encode_space])

theorem passes_text {st : State} (hst : st.escaping = false) {stops : List Char} (t : Text stops)
    (hstops : st.stops = stops) : Passes ber st (encode t.chars) := by
  rw [encode_chars]
  refine (passes_spaces _ hst).append (Passes.append (passes_pieces _ hst ?_) (passes_spaces _ hst))
  intro c h hmem
  have hfree := t.free c h hmem
  rwa [← hstops] at hfree

end Scan

section Names

/-- An attribute as it is written. A value that starts with a number sign is BER. -/
structure Written where
  type : Text typeStops
  value : Text valueStops
  named : type.pieces ≠ []
  notBer : value.chars.head? ≠ some '#'

def Written.chars (a : Written) : List Char := a.type.chars ++ '=' :: a.value.chars

def Written.pair (a : Written) : AttributeTypeAndValue := ⟨a.type.value, a.value.value⟩

/-- Attributes joined by plus signs. -/
structure WrittenRDN where
  init : List Written
  last : Written

def WrittenRDN.chars (r : WrittenRDN) : List Char :=
  r.init.flatMap (fun a => a.chars ++ ['+']) ++ r.last.chars

def WrittenRDN.rdn (r : WrittenRDN) : RelativeDN :=
  ⟨r.init.map Written.pair ++ [r.last.pair]⟩

/-- RDNs joined by commas, or by semicolons where the flag says so. -/
structure WrittenDN where
  init : List (WrittenRDN × Bool)
  last : WrittenRDN

def WrittenDN.chars (n : WrittenDN) : List Char :=
  n.init.flatMap (fun r => r.1.chars ++ [if r.2 then ';' else ',']) ++ n.last.chars

def WrittenDN.rdns (n : WrittenDN) : List RelativeDN :=
  n.init.map (fun r => r.1.rdn) ++ [n.last.rdn]

variable {ber : Ber}

theorem setValue_written (a : Written) :
    setValue ber (encode a.value.chars) = .ok a.value.value := by
  have hhead : (encode a.value.chars).head? ≠ some '#'.toUInt8 := by
    have hnot := a.notBer
    cases hcs : a.value.chars with
    | nil => simp
    | cons c cs =>
      obtain ⟨b, s, hbs, honly⟩ := encode_first c
      rw [hcs] at hnot
      intro hb
      rw [encode_cons, hbs] at hb
      exact hnot (by rw [honly '#' (by decide) (Option.some.inj hb)]; rfl)
  rw [setValue, if_neg hhead, decodeString_text]

/-- Between two attributes. -/
def between (rdns : List RelativeDN) (attributes : List AttributeTypeAndValue) : State :=
  { rdns := rdns, attributes := attributes }

/-- After the text of an attribute its type is read and its value pending. -/
theorem scan_written (rdns : List RelativeDN) (attributes : List AttributeTypeAndValue)
    (a : Written) (rest : Bytes) :
    scan ber (between rdns attributes) (encode a.chars ++ rest) =
      scan ber { between rdns attributes with
        type := a.type.value, pending := encode a.value.chars } rest := by
  have hequal : step ber { between rdns attributes with pending := encode a.type.chars }
      '='.toUInt8 = .ok { between rdns attributes with type := a.type.value } := by
    rw [step, if_neg (by simp [between]), if_neg (by decide), if_pos ⟨rfl, rfl⟩, decodeString_text]
    rfl
  have hchars : encode a.chars ++ rest = encode a.type.chars ++
      ('='.toUInt8 :: (encode a.value.chars ++ rest)) := by
    simp [Written.chars, encode_ascii (c := '=') (by decide)]
  have hfresh : (between rdns attributes).pending ++ encode a.type.chars = encode a.type.chars := rfl
  have htyped : ({ between rdns attributes with type := a.type.value } : State).stops = valueStops := by
    rw [State.stops, if_neg (Text.value_ne_nil a.named)]
  rw [hchars, passes_text rfl a.type rfl, hfresh, scan_cons, hequal, Except.bind,
    passes_text rfl a.value htyped]
  rfl

/-- An attribute and the character that ends it. -/
theorem scan_ended (rdns : List RelativeDN) (attributes : List AttributeTypeAndValue) (a : Written)
    (hc : c ∈ valueStops) (rest : Bytes) :
    scan ber (between rdns attributes) (encode (a.chars ++ [c]) ++ rest) =
      scan ber (if c ≠ '+' then between (rdns ++ [⟨attributes ++ [a.pair]⟩]) []
        else between rdns (attributes ++ [a.pair])) rest := by
  have hends : step ber { between rdns attributes with
        type := a.type.value, pending := encode a.value.chars } c.toUInt8 =
      .ok (if c ≠ '+' then between (rdns ++ [⟨attributes ++ [a.pair]⟩]) []
        else between rdns (attributes ++ [a.pair])) := by
    have htype := Text.value_ne_nil a.named
    simp only [valueStops, List.mem_cons, List.not_mem_nil, or_false] at hc
    rcases hc with rfl | rfl | rfl <;>
      simp +decide [step, between, htype, setValue_written, Except.map, Written.pair,
        State.appendAttributesToRDN]
  have hone : String.utf8EncodeChar c = [c.toUInt8] := by
    refine encode_ascii ?_
    simp only [valueStops, List.mem_cons, List.not_mem_nil, or_false] at hc
    rcases hc with rfl | rfl | rfl <;> decide
  rw [encode_append, List.append_assoc, scan_written]
  simp only [encode_cons, encode_nil, hone, List.append_nil, List.singleton_append, scan_cons, hends,
    Except.bind]

/-- All the attributes of an RDN but the last. -/
theorem scan_attributes (rdns : List RelativeDN) (as : List Written)
    (attributes : List AttributeTypeAndValue) (rest : Bytes) :
    scan ber (between rdns attributes) (encode (as.flatMap fun a => a.chars ++ ['+']) ++ rest) =
      scan ber (between rdns (attributes ++ as.map Written.pair)) rest := by
  induction as generalizing attributes with
  | nil => simp
  | cons a as ih =>
    rw [List.flatMap_cons, encode_append, List.append_assoc, scan_ended _ _ _ (by simp [valueStops]),
      if_neg (by simp), ih]
    simp

/-- All the RDNs of a name but the last. -/
theorem scan_rdns (rs : List (WrittenRDN × Bool)) (rdns : List RelativeDN) (rest : Bytes) :
    scan ber (between rdns [])
        (encode (rs.flatMap fun r => r.1.chars ++ [if r.2 then ';' else ',']) ++ rest) =
      scan ber (between (rdns ++ rs.map fun r => r.1.rdn) []) rest := by
  induction rs generalizing rdns with
  | nil => simp
  | cons r rs ih =>
    obtain ⟨r, semicolon⟩ := r
    have hstop : (if semicolon then ';' else ',') ∈ valueStops := by
      cases semicolon <;> simp [valueStops]
    have hlast : (if semicolon then ';' else ',') ≠ '+' := by
      cases semicolon <;> simp
    rw [List.flatMap_cons, encode_append, List.append_assoc, WrittenRDN.chars, List.append_assoc,
      encode_append, List.append_assoc, scan_attributes, scan_ended _ _ _ hstop, if_pos hlast, ih]
    simp [WrittenRDN.rdn]

/-- A name is read from every text of it: the values of its attributes are those its
pieces stand for, in their order, whatever characters they hold, however these are
escaped, with spaces around them or not. -/
theorem parse_written (ber : Ber) (n : WrittenDN) :
    parseDN ber (encode n.chars) = .ok n.rdns := by
  have hmem : '=' ∈ n.chars := by
    simp [WrittenDN.chars, WrittenRDN.chars, Written.chars]
  have hblank : (runes (encode n.chars)).all isSpace = false := by
    rw [runes_encode]
    exact List.all_eq_false.mpr ⟨'=', hmem, by decide⟩
  have hscan : scan ber {} (encode n.chars) = .ok
      { between (n.init.map fun r => r.1.rdn) (n.last.init.map Written.pair) with
        type := n.last.last.type.value, pending := encode n.last.last.value.chars } := by
    have hchars : encode n.chars =
        encode (n.init.flatMap fun r => r.1.chars ++ [if r.2 then ';' else ',']) ++
          (encode (n.last.init.flatMap fun a => a.chars ++ ['+']) ++
            (encode n.last.last.chars ++ [])) := by
      simp [WrittenDN.chars, WrittenRDN.chars]
    change scan ber (between [] []) _ = _
    rw [hchars, scan_rdns, scan_attributes, scan_written]
    rfl
  have htype := Text.value_ne_nil n.last.last.named
  rw [parseDN, hblank, if_neg Bool.false_ne_true, hscan, Except.bind, finish, if_neg htype,
    setValue_written]
  simp [Except.map, State.appendAttributesToRDN, between, WrittenDN.rdns, WrittenRDN.rdn, Written.pair]

end Names

end Ldap2pg.Ldap.DN
