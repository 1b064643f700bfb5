import Mathlib

/-! # Quoted tokens of SQL

The scanner of PostgreSQL at a quoted identifier or a string literal, with
`standard_conforming_strings` on: a doubled quote stands for a quote, nothing else is
an escape. A delimited identifier is not empty and is cut at a length in bytes. (A
literal also goes on after a line end and another quote, which needs text after the
closing quote.) -/
namespace Ldap2pg.Lib.Quoted

inductive Token where
  | ident (name : List Char)
  | string (text : List Char)
  deriving DecidableEq

/-- Reads up to the closing quote: the text and what is left. -/
def quoted (q : Char) : List Char → Option (List Char × List Char)
  | [] => none
  | [c] => if c = q then some ([], []) else none
  | c :: d :: s =>
    if c ≠ q then (quoted q (d :: s)).map fun r => (c :: r.1, r.2)
    else if d = q then (quoted q s).map fun r => (q :: r.1, r.2)
    else some ([], d :: s)

/-- The longest beginning of a name that fits in `limit` bytes. -/
def clip : Nat → List Char → List Char
  | _, [] => []
  | limit, c :: s => if c.utf8Size ≤ limit then c :: clip (limit - c.utf8Size) s else []

def bytes (s : List Char) : Nat := (s.map Char.utf8Size).sum

/-- One quoted token at the start of a text, for names of at most `limit` bytes. -/
def scan (limit : Nat) : List Char → Option (Token × List Char)
  | '"' :: s =>
    match quoted '"' s with
    | none | some ([], _) => none
    | some (name, rest) => some (.ident (clip limit name), rest)
  | '\'' :: s => (quoted '\'' s).map fun r => (.string r.1, r.2)
  | _ => none

/-- Doubles the quotes of a text. -/
def double (q : Char) (s : List Char) : List Char := s.flatMap fun c => if c = q then [q, q] else [c]

variable {q : Char}

/-- A quote in the token costs two characters. -/
theorem length_quoted (s : List Char) : ∀ r, quoted q s = some r →
    r.1.length + r.1.count q + 1 + r.2.length = s.length := by
  fun_induction quoted q s with
  | case1 => intro r h; cases h
  | case2 => intro r h; cases h; rfl
  | case3 c hc => intro r h; cases h
  | case4 c d s hc ih =>
    intro r h
    obtain ⟨r', hr', rfl⟩ := Option.map_eq_some_iff.mp h
    have hlen := ih r' hr'
    simp only [List.length_cons, List.count_cons_of_ne hc] at hlen ⊢
    omega
  | case5 c s hc ih =>
    intro r h
    obtain ⟨r', hr', rfl⟩ := Option.map_eq_some_iff.mp h
    have hlen := ih r' hr'
    simp only [List.length_cons, List.count_cons_self] at hlen ⊢
    omega
  | case6 c d s hc hd =>
    intro r h
    cases h
    simp only [List.length_cons, List.length_nil, List.count_nil]
    omega

theorem quoted_append_quote {s : List Char} (h : q ∉ s) : quoted q (s ++ [q]) = some (s, []) := by
  induction s with
  | nil => simp [quoted]
  | cons c s ih =>
    have hc : c ≠ q := fun he => h (he ▸ List.mem_cons_self)
    have hs := ih fun hb => h (List.mem_cons_of_mem c hb)
    cases hrest : s ++ [q] with
    | nil => simp at hrest
    | cons d t => rw [List.cons_append, hrest, quoted, if_pos hc, ← hrest, hs]; rfl

/-- **A text with its quotes doubled reads back as the text.** -/
theorem quoted_double (q : Char) (s : List Char) : quoted q (double q s ++ [q]) = some (s, []) := by
  induction s with
  | nil => simp [double, quoted]
  | cons c s ih =>
    have hcons : double q (c :: s) ++ [q] =
        (if c = q then [q, q] else [c]) ++ (double q s ++ [q]) := by
      simp [double]
    rw [hcons]
    by_cases hc : c = q
    · rw [if_pos hc, List.cons_append, List.singleton_append, quoted, if_neg (by simp), if_pos rfl,
        ih, hc]
      rfl
    · rw [if_neg hc, List.singleton_append]
      cases hrest : double q s ++ [q] with
      | nil => simp at hrest
      | cons d t => rw [quoted, if_pos hc, ← hrest, ih]; rfl

theorem prefix_clip : ∀ (limit : Nat) (s : List Char), clip limit s <+: s
  | _, [] => List.nil_prefix
  | limit, c :: s => by
    rw [clip]
    split
    · exact List.cons_prefix_cons.mpr ⟨rfl, prefix_clip _ s⟩
    · exact List.nil_prefix

theorem clip_eq_iff : ∀ (limit : Nat) (s : List Char), clip limit s = s ↔ bytes s ≤ limit
  | limit, [] => by simp [clip, bytes]
  | limit, c :: s => by
    have ih := clip_eq_iff (limit - c.utf8Size) s
    have hbytes : bytes (c :: s) = c.utf8Size + bytes s := by simp [bytes]
    rw [clip, hbytes]
    split
    · next hfits =>
      rw [List.cons.injEq, ih, eq_self, true_and, Nat.le_sub_iff_add_le hfits, Nat.add_comm]
    · refine ⟨fun h => (by cases h), fun h => ?_⟩
      omega

/-- **A name between double quotes is read as itself exactly when it is not empty, has
no double quote and is not too long.** -/
theorem scan_ident_iff (limit : Nat) (s : List Char) :
    scan limit ('"' :: s ++ ['"']) = some (.ident s, []) ↔
      s ≠ [] ∧ '"' ∉ s ∧ bytes s ≤ limit := by
  rw [List.cons_append, scan]
  constructor
  · intro h
    split at h
    · cases h
    · cases h
    · next name rest hne hread =>
      obtain ⟨htoken, rfl⟩ := Prod.mk.inj (Option.some.inj h)
      have hclip : clip limit name = s := Token.ident.inj htoken
      have hlen := length_quoted _ _ hread
      have hle : s.length ≤ name.length := hclip ▸ (prefix_clip limit name).length_le
      simp only [List.length_append, List.length_singleton, List.length_nil] at hlen
      have hname : s = name :=
        (hclip ▸ prefix_clip limit name : s <+: name).eq_of_length (by omega)
      subst hname
      refine ⟨hne, ?_, (clip_eq_iff limit s).mp hclip⟩
      exact List.count_eq_zero.mp (by omega)
  · intro ⟨hne, hquote, hbytes⟩
    rw [quoted_append_quote hquote]
    cases s with
    | nil => exact absurd rfl hne
    | cons c s => simp only [(clip_eq_iff limit (c :: s)).mpr hbytes]

theorem scan_string (limit : Nat) (s : List Char) :
    scan limit ('\'' :: double '\'' s ++ ['\'']) = some (.string s, []) := by
  rw [List.cons_append, scan, quoted_double]
  rfl

end Ldap2pg.Lib.Quoted
