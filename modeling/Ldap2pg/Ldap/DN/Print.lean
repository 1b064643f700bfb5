import Ldap2pg.Ldap.DN.Resolve

/-! # `DN.String`

The normal form of a name: attribute types folded, attributes sorted by their text, every
byte that is not printable ASCII escaped. It is one of the texts of the name. -/
namespace Ldap2pg.Ldap.DN
open Lib.Utf8

section Model

/-- The escape of one byte in `encodeString`. -/
def encodeByte (isValue first last : Bool) (char : UInt8) : Bytes :=
  if first ∧ (char = space ∨ char = '#'.toUInt8) then [backslash, char]
  else if last ∧ char = space then [backslash, char]
  else if char ∈ ['"'.toUInt8, '+'.toUInt8, ','.toUInt8, ';'.toUInt8, '<'.toUInt8, '>'.toUInt8,
      backslash] then [backslash, char]
  else if isValue = false ∧ char = '='.toUInt8 then [backslash, char]
  else if char < ' '.toUInt8 ∨ '~'.toUInt8 < char then backslash :: hexEncode char
  else [char]

/-- The loop of `encodeString`; `first` tells that `i` is zero. -/
def encodeFrom (isValue : Bool) : Bool → Bytes → Bytes
  | _, [] => []
  | first, char :: rest =>
    encodeByte isValue first rest.isEmpty char ++ encodeFrom isValue false rest

def encodeString (value : Bytes) (isValue : Bool) : Bytes := encodeFrom isValue true value

/-- `foldString`; `foldRune` folds the characters that are not ASCII. -/
def foldString (foldRune : Char → Char) (s : Bytes) : Bytes :=
  encode ((runes s).map fun c => if c.toNat < 128 then c.toLower else foldRune c)

variable (foldRune : Char → Char)

def AttributeTypeAndValue.string (a : AttributeTypeAndValue) : Bytes :=
  encodeString (foldString foldRune a.type) false ++ '='.toUInt8 :: encodeString a.value true

def RelativeDN.string (r : RelativeDN) : Bytes :=
  [('+').toUInt8].intercalate ((r.attributes.map (·.string foldRune)).mergeSort (· ≤ ·))

/-- `DN.String`. -/
def string (rdns : List RelativeDN) : Bytes :=
  [','.toUInt8].intercalate (rdns.map (·.string foldRune))

/-- A name as its normal form has it. -/
def AttributeTypeAndValue.folded (a : AttributeTypeAndValue) : AttributeTypeAndValue :=
  ⟨foldString foldRune a.type, a.value⟩

/-- The text of an attribute whose type is folded. -/
def AttributeTypeAndValue.text (a : AttributeTypeAndValue) : Bytes :=
  encodeString a.type false ++ '='.toUInt8 :: encodeString a.value true

def RelativeDN.normal (r : RelativeDN) : RelativeDN :=
  ⟨(r.attributes.map (·.folded foldRune)).mergeSort fun a b => a.text ≤ b.text⟩

end Model

section Encode

def stopsOf (isValue : Bool) : List Char := if isValue then valueStops else typeStops

/-- What `encodeString` writes for a byte is a piece that stands for it. -/
structure Writes (isValue first last : Bool) (b : UInt8) (p : Piece) : Prop where
  chars : encode p.chars = encodeByte isValue first last b
  value : p.value = [b]
  free : ∀ c h, p = .plain c h → c ∉ stopsOf isValue
  space : first = true ∨ last = true → ∀ h, p ≠ .plain ' ' h
  number : first = true → ∀ h, p ≠ .plain '#' h

theorem writes_special {isValue first last : Bool} {c : Char} (hc : c ∈ specials)
    (henc : encodeByte isValue first last c.toUInt8 = [backslash, c.toUInt8]) :
    Writes isValue first last c.toUInt8 (.special c hc) := by
  have hone := encode_ascii (specials_ascii hc).1
  refine ⟨?_, hone, nofun, fun _ => nofun, fun _ => nofun⟩
  rw [henc]
  simp [Piece.chars, encode_backslash, hone]

/-- The digit of a value below sixteen. -/
theorem exists_digit {n : Nat} (hn : n < 16) :
    ∃ d : Digit, d.char.toUInt8 = hexDigit n ∧ d.value = n := by
  have hall : ∀ n < 16, (Char.ofUInt8 (hexDigit n)).toNat < 128 ∧
      (Char.ofUInt8 (hexDigit n)).toUInt8 = hexDigit n := by decide
  obtain ⟨hascii, hbyte⟩ := hall n hn
  exact ⟨⟨_, n, hascii, by rw [hbyte, hexValue_hexDigit n hn]⟩, hbyte, rfl⟩

theorem exists_hex (b : UInt8) :
    ∃ hi lo, encode (Piece.hex hi lo).chars = backslash :: hexEncode b ∧
      (Piece.hex hi lo).value = [b] := by
  have hlt := b.toNat_lt
  obtain ⟨hi, hhi, hhiv⟩ := exists_digit (n := b.toNat / 16) (by omega)
  obtain ⟨lo, hlo, hlov⟩ := exists_digit (n := b.toNat % 16) (by omega)
  refine ⟨hi, lo, ?_, ?_⟩
  · simp [Piece.chars, encode_backslash, encode_ascii hi.ascii, encode_ascii lo.ascii, hhi, hlo,
      hexEncode]
  · simp [Piece.value, hhiv, hlov, Nat.div_add_mod]

/-- An ASCII byte is that of a character. -/
theorem exists_char {b : UInt8} (hb : b.toNat < 128) : ∃ c : Char, c.toNat < 128 ∧ b = c.toUInt8 := by
  have hnat : (Char.ofUInt8 b).toNat = b.toNat := rfl
  refine ⟨Char.ofUInt8 b, by omega, UInt8.toNat_inj.mp ?_⟩
  rw [toNat_toUInt8 (by omega), hnat]

theorem exists_writes (isValue first last : Bool) (b : UInt8) :
    ∃ p, Writes isValue first last b p := by
  -- one case for each branch of the loop, in its order
  by_cases hfirst : first ∧ (b = space ∨ b = '#'.toUInt8)
  · rcases hfirst with ⟨h, rfl | rfl⟩
    · exact ⟨_, writes_special (c := ' ') (by simp [specials]) (if_pos ⟨h, .inl rfl⟩)⟩
    · exact ⟨_, writes_special (c := '#') (by simp [specials]) (if_pos ⟨h, .inr rfl⟩)⟩
  by_cases hlast : last ∧ b = space
  · obtain ⟨h, rfl⟩ := hlast
    exact ⟨_, writes_special (c := ' ') (by simp [specials])
      ((if_neg hfirst).trans (if_pos ⟨h, rfl⟩))⟩
  by_cases hspecial : b ∈ ['"', '+', ',', ';', '<', '>', '\\'].map Char.toUInt8
  · obtain ⟨c, hc, rfl⟩ := List.mem_map.mp hspecial
    have hsub : ['"', '+', ',', ';', '<', '>', '\\'] ⊆ specials := by simp [specials]
    exact ⟨_, writes_special (hsub hc)
      ((if_neg hfirst).trans ((if_neg hlast).trans (if_pos hspecial)))⟩
  have hkept : encodeByte isValue first last b =
      if isValue = false ∧ b = '='.toUInt8 then [backslash, b]
      else if b < ' '.toUInt8 ∨ '~'.toUInt8 < b then backslash :: hexEncode b else [b] := by
    rw [encodeByte, if_neg hfirst, if_neg hlast]
    exact if_neg hspecial
  by_cases hequal : isValue = false ∧ b = '='.toUInt8
  · obtain ⟨h, rfl⟩ := hequal
    exact ⟨_, writes_special (c := '=') (by simp [specials]) (by rw [hkept, if_pos ⟨h, rfl⟩])⟩
  by_cases hrange : b < ' '.toUInt8 ∨ '~'.toUInt8 < b
  · obtain ⟨hi, lo, hchars, hvalue⟩ := exists_hex b
    refine ⟨_, ⟨?_, hvalue, nofun, fun _ => nofun, fun _ => nofun⟩⟩
    rw [hchars, hkept, if_neg hequal, if_pos hrange]
  rw [if_neg hequal, if_neg hrange] at hkept
  have hb : b.toNat < 128 := by
    have hle : b ≤ '~'.toUInt8 := UInt8.not_lt.mp fun h => hrange (.inr h)
    have : b.toNat ≤ '~'.toUInt8.toNat := hle
    have : '~'.toUInt8.toNat = 126 := rfl
    omega
  obtain ⟨c, hc, rfl⟩ := exists_char hb
  have hplain (d : Char) (hd : d ∈ ['"', '+', ',', ';', '<', '>', '\\']) : c ≠ d := fun h =>
    hspecial (List.mem_map.mpr ⟨d, hd, by rw [h]⟩)
  refine ⟨.plain c (hplain '\\' (by simp)), ⟨?_, encode_ascii hc, ?_, ?_, ?_⟩⟩
  · simp [Piece.chars, encode_ascii hc, hkept]
  · rintro d h hd hmem
    obtain rfl : c = d := by injection hd
    have hvalue : c ∉ valueStops := fun h => by
      simp only [valueStops, List.mem_cons, List.not_mem_nil, or_false] at h
      exact h.elim (hplain ',' (by simp)) (Or.rec (hplain '+' (by simp)) (hplain ';' (by simp)))
    cases isValue with
    | true => exact hvalue hmem
    | false =>
      rcases List.mem_cons.mp hmem with rfl | hmem
      · exact hequal ⟨rfl, rfl⟩
      · exact hvalue hmem
  · rintro h hspace hd
    obtain rfl : c = ' ' := by injection hd
    rcases h with h | h
    · exact hfirst ⟨h, .inl rfl⟩
    · exact hlast ⟨h, rfl⟩
  · rintro h hnumber hd
    obtain rfl : c = '#' := by injection hd
    exact hfirst ⟨h, .inr rfl⟩

/-- `encodeString` writes pieces that stand for its bytes. -/
theorem exists_pieces (isValue : Bool) (v : Bytes) (first : Bool) :
    ∃ ps, encode (charsOf ps) = encodeFrom isValue first v ∧ valueOf ps = v ∧
      (∀ c h, Piece.plain c h ∈ ps → c ∉ stopsOf isValue) ∧
      (first = true → ∀ c h, c = ' ' ∨ c = '#' → ps.head? ≠ some (.plain c h)) ∧
      ∀ h, ps.getLast? ≠ some (.plain ' ' h) := by
  induction v generalizing first with
  | nil => exact ⟨[], rfl, rfl, nofun, nofun, nofun⟩
  | cons b v ih =>
    obtain ⟨p, hp⟩ := exists_writes isValue first v.isEmpty b
    obtain ⟨ps, hchars, hvalue, hfree, -, hlast⟩ := ih false
    refine ⟨p :: ps, ?_, ?_, ?_, ?_, ?_⟩
    · rw [encodeFrom, ← hp.chars, ← hchars]
      simp [charsOf]
    · rw [valueOf, List.flatMap_cons, hp.value]
      exact congrArg (b :: ·) hvalue
    · intro c h hmem
      rcases List.mem_cons.mp hmem with heq | hmem
      · exact hp.free c h heq.symm
      · exact hfree c h hmem
    · rintro hfirst c h hc hhead
      have heq : p = .plain c h := Option.some.inj hhead
      rcases hc with rfl | rfl
      · exact hp.space (.inl hfirst) h heq
      · exact hp.number hfirst h heq
    · intro h hhead
      cases ps with
      | nil =>
        have hend : v.isEmpty = true := by simp [← hvalue, valueOf]
        exact hp.space (.inr hend) h (Option.some.inj hhead)
      | cons q ps => exact hlast h (by simpa using hhead)

/-- A text of `v` that `encodeString` writes. -/
theorem exists_text (stops : List Char) {isValue : Bool} (hstops : stopsOf isValue = stops)
    (v : Bytes) : ∃ t : Text stops, encode t.chars = encodeString v isValue ∧ t.value = v ∧
      t.chars.head? ≠ some '#' := by
  subst hstops
  obtain ⟨ps, hchars, hvalue, hfree, hfirst, hlast⟩ := exists_pieces isValue v true
  refine ⟨⟨0, ps, 0, hfree, fun h => hfirst rfl ' ' h (.inl rfl), hlast, fun _ => rfl⟩, ?_, ?_, ?_⟩
  · rw [encodeString, ← hchars]
    simp [Text.chars]
  · exact hvalue
  · cases ps with
    | nil => simp [Text.chars, charsOf]
    | cons p ps =>
      cases p with
      | plain c hc =>
        have hne : c ≠ '#' := fun h => hfirst rfl c hc (.inr h) rfl
        simpa [Text.chars, charsOf, Piece.chars] using hne
      | special c hc => simp [Text.chars, charsOf, Piece.chars]
      | hex hi lo => simp [Text.chars, charsOf, Piece.chars]

end Encode

section Names

theorem exists_written {a : AttributeTypeAndValue} (ha : a.type ≠ []) :
    ∃ w : Written, w.pair = a ∧ encode w.chars = a.text := by
  obtain ⟨type, htype, htvalue, -⟩ := exists_text typeStops (rfl : stopsOf false = typeStops) a.type
  obtain ⟨value, hvalue, hvvalue, hnumber⟩ := exists_text valueStops (rfl : stopsOf true = valueStops) a.value
  have hnamed : type.pieces ≠ [] := fun h => ha (by rw [← htvalue, Text.value, h]; rfl)
  refine ⟨⟨type, value, hnamed, hnumber⟩, ?_, ?_⟩
  · simp [Written.pair, htvalue, hvvalue]
  · simp [Written.chars, AttributeTypeAndValue.text, htype, hvalue,
      encode_ascii (c := '=') (by decide)]

theorem intercalate_concat (sep : UInt8) (ls : List Bytes) (l : Bytes) :
    [sep].intercalate (ls ++ [l]) = ls.flatMap (· ++ [sep]) ++ l := by
  induction ls with
  | nil => simp
  | cons x ls ih =>
    rw [List.cons_append, List.intercalate_cons_of_ne_nil (by simp), ih, List.flatMap_cons,
      ← List.append_assoc]

/-- Lists whose members are written one by one. -/
theorem exists_map {α β : Type} {f : α → β} {g : α → Bytes} {h : β → Bytes} {l : List β}
    (hl : ∀ b ∈ l, ∃ a, f a = b ∧ g a = h b) : ∃ l' : List α, l'.map f = l ∧ l'.map g = l.map h := by
  induction l with
  | nil => exact ⟨[], rfl, rfl⟩
  | cons b l ih =>
    obtain ⟨a, rfl, hg⟩ := hl b List.mem_cons_self
    obtain ⟨l', rfl, hgs⟩ := ih fun c hc => hl c (List.mem_cons_of_mem _ hc)
    exact ⟨a :: l', rfl, by simp [hg, hgs]⟩

def RelativeDN.text (r : RelativeDN) : Bytes := ['+'.toUInt8].intercalate (r.attributes.map (·.text))

theorem exists_writtenRDN {r : RelativeDN} (hne : r.attributes ≠ [])
    (htypes : ∀ a ∈ r.attributes, a.type ≠ []) :
    ∃ w : WrittenRDN, w.rdn = r ∧ encode w.chars = r.text := by
  obtain ⟨init, a, has⟩ := (List.eq_nil_or_concat' r.attributes).resolve_left hne
  have hwritten (b : AttributeTypeAndValue) (hb : b ∈ init ++ [a]) :=
    exists_written (htypes b (has ▸ hb))
  obtain ⟨ws, hpairs, hchars⟩ := exists_map fun b hb => hwritten b (List.mem_append_left _ hb)
  obtain ⟨w, hpair, hlast⟩ := hwritten a (by simp)
  refine ⟨⟨ws, w⟩, ?_, ?_⟩
  · rw [WrittenRDN.rdn, hpairs, hpair, ← has]
  · have hinit : encode (ws.flatMap fun b => b.chars ++ ['+']) =
        (ws.map fun b => encode b.chars).flatMap (· ++ ['+'.toUInt8]) := by
      simp [encode, List.flatMap_assoc, List.flatMap_map,
        encode_ascii (c := '+') (by decide)]
    rw [WrittenRDN.chars, encode_append, hlast, hinit, hchars, RelativeDN.text, has, List.map_append,
      List.map_singleton, intercalate_concat]

theorem exists_writtenDN {rdns : List RelativeDN} (hne : rdns ≠ []) (hwell : WellFormed rdns) :
    ∃ w : WrittenDN, w.rdns = rdns ∧
      encode w.chars = [','.toUInt8].intercalate (rdns.map (·.text)) := by
  obtain ⟨init, r, hrs⟩ := (List.eq_nil_or_concat' rdns).resolve_left hne
  have hwritten (b : RelativeDN) (hb : b ∈ init ++ [r]) :=
    exists_writtenRDN (hwell b (hrs ▸ hb)).1 (hwell b (hrs ▸ hb)).2
  obtain ⟨ws, hrdns, hchars⟩ := exists_map fun b hb => hwritten b (List.mem_append_left _ hb)
  obtain ⟨w, hrdn, hlast⟩ := hwritten r (by simp)
  refine ⟨⟨ws.map (·, false), w⟩, ?_, ?_⟩
  · rw [WrittenDN.rdns, List.map_map, hrdn, hrs, ← hrdns]
    rfl
  · have hinit : encode ((ws.map (·, false)).flatMap fun b =>
          b.1.chars ++ [if b.2 then ';' else ',']) =
        (ws.map fun b => encode b.chars).flatMap (· ++ [','.toUInt8]) := by
      simp [encode, List.flatMap_assoc, List.flatMap_map,
        encode_ascii (c := ',') (by decide)]
    rw [WrittenDN.chars, encode_append, hlast, hinit, hchars, hrs, List.map_append,
      List.map_singleton, intercalate_concat]

variable {foldRune : Char → Char}

theorem foldString_ne_nil {s : Bytes} (hs : s ≠ []) : foldString foldRune s ≠ [] := by
  refine encode_ne_nil fun h => runes_ne_nil hs ?_
  exact List.map_eq_nil_iff.mp h

theorem RelativeDN.text_normal (r : RelativeDN) : (r.normal foldRune).text = r.string foldRune := by
  rw [RelativeDN.text, RelativeDN.normal, RelativeDN.string,
    List.map_mergeSort (s := fun s t => decide (s ≤ t)) fun _ _ _ _ => rfl, List.map_map]
  rfl

theorem WellFormed.normal {rdns : List RelativeDN} (h : WellFormed rdns) :
    WellFormed (rdns.map (·.normal foldRune)) := by
  intro r hr
  obtain ⟨r, hmem, rfl⟩ := List.mem_map.mp hr
  obtain ⟨hne, htypes⟩ := h r hmem
  constructor
  · intro hnil
    have hlen := congrArg List.length hnil
    rw [RelativeDN.normal, List.length_mergeSort, List.length_map] at hlen
    exact hne (List.length_eq_zero_iff.mp hlen)
  · intro a ha
    obtain ⟨b, hb, rfl⟩ := List.mem_map.mp (List.mem_mergeSort.mp ha)
    exact foldString_ne_nil (htypes b hb)

/-- The normal form of a name is read back as the name: each value as it was, byte for
byte, each type folded, the attributes of an RDN in the order of their texts. -/
theorem parse_string (ber : Ber) (foldRune : Char → Char) {rdns : List RelativeDN}
    (hwell : WellFormed rdns) :
    parseDN ber (string foldRune rdns) = .ok (rdns.map (·.normal foldRune)) := by
  by_cases hne : rdns = []
  · subst hne
    rfl
  · have hnormal : rdns.map (·.normal foldRune) ≠ [] := fun h => hne (List.map_eq_nil_iff.mp h)
    obtain ⟨w, hrdns, hchars⟩ := exists_writtenDN hnormal hwell.normal
    have htext : string foldRune rdns = encode w.chars := by
      rw [hchars, string, List.map_map]
      simp only [Function.comp_def, RelativeDN.text_normal]
    rw [htext, parse_written, hrdns]

/-- `CN=alice, dba+Uid=7,OU=people`, its comma part of the value. -/
def aliceName : List RelativeDN :=
  [⟨[⟨utf8 "CN", utf8 "alice, dba"⟩, ⟨utf8 "Uid", utf8 "7"⟩]⟩, ⟨[⟨utf8 "OU", utf8 "people"⟩]⟩]

theorem aliceName_read : WellFormed aliceName ∧
    parseDN .error (string id aliceName) = .ok (aliceName.map (·.normal id)) := by
  have hwell : WellFormed aliceName := by
    intro r hr
    simp only [aliceName, List.mem_cons, List.not_mem_nil, or_false] at hr
    rcases hr with rfl | rfl
    · exact ⟨List.cons_ne_nil _ _, by decide⟩
    · exact ⟨List.cons_ne_nil _ _, by decide⟩
  exact ⟨hwell, parse_string .error id hwell⟩

end Names

end Ldap2pg.Ldap.DN
