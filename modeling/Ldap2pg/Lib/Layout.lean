import Ldap2pg.Lib.Text
import Mathlib.Data.List.TakeWhile

/-! # Indentation and surrounding blanks

`strings.TrimSpace` removes white space around a text. Of a function that removes the
indentation that lines share, `Dedents` says what a program relies on: it commutes with
a rewriting that leaves white space alone. A function of this kind empties the lines of
blanks and removes the longest indentation of the others. -/
namespace Ldap2pg.Lib.Layout

variable (s : List Char)

def isBlank (c : Char) : Bool := c = ' ' || c = '\t'

/-- Unicode white space. -/
def isSpace (c : Char) : Bool :=
  c ∈ ['\t', '\n', '\x0b', '\x0c', '\r', ' ', '\u0085', '\u00a0', '\u1680',
    '\u2028', '\u2029', '\u202f', '\u205f', '\u3000'] || ('\u2000' ≤ c && c ≤ '\u200a')

def trimSpace (s : List Char) : List Char :=
  ((s.dropWhile isSpace).reverse.dropWhile isSpace).reverse

/-- The indentation shared so far, through the next lines. -/
def shared : List Char → List (List Char) → List Char
  | margin, [] => margin
  | margin, indent :: indents =>
    if margin.isPrefixOf indent then shared margin indents
    else if indent.isPrefixOf margin then shared indent indents
    else []

def margin : List (List Char) → List Char
  | [] => []
  | indent :: indents => shared indent indents

def emptied (line : List Char) : List Char := if line.all isBlank then [] else line

def unindent (margin line : List Char) : List Char :=
  if margin.isPrefixOf line then line.drop margin.length else line

def dedent (s : List Char) : List Char :=
  let lines := (s.splitOn '\n').map emptied
  let indents := (lines.filter (· ≠ [])).map (·.takeWhile isBlank)
  ['\n'].intercalate (lines.map (unindent (margin indents)))

/-- A margin is made of blanks. -/
theorem blank_shared {indents : List (List Char)} : ∀ {margin : List Char},
    (∀ c ∈ margin, isBlank c = true) →
    (∀ indent ∈ indents, ∀ c ∈ indent, isBlank c = true) →
    ∀ c ∈ shared margin indents, isBlank c = true := by
  induction indents with
  | nil => intro margin hm _; exact hm
  | cons indent indents ih =>
    intro margin hm hall
    have hrest : ∀ i ∈ indents, ∀ c ∈ i, isBlank c = true :=
      fun i hi => hall i (List.mem_cons_of_mem _ hi)
    rw [shared]
    split
    · exact ih hm hrest
    · split
      · exact ih (hall indent List.mem_cons_self) hrest
      · intro c hc; cases hc

theorem blank_margin {indents : List (List Char)}
    (hall : ∀ indent ∈ indents, ∀ c ∈ indent, isBlank c = true) :
    ∀ c ∈ margin indents, isBlank c = true := by
  cases indents with
  | nil => intro c hc; cases hc
  | cons indent indents =>
    exact blank_shared (hall indent List.mem_cons_self)
      fun i hi => hall i (List.mem_cons_of_mem _ hi)

/-- The margin of a text is made of blanks. -/
theorem blank_indents : ∀ c ∈ margin
    ((((s.splitOn '\n').map emptied).filter (· ≠ [])).map (·.takeWhile isBlank)),
    isBlank c = true := by
  refine blank_margin fun indent hi c hc => ?_
  obtain ⟨line, _, rfl⟩ := List.mem_map.mp hi
  exact List.mem_takeWhile_imp hc

/-! ## Readings of a text -/

/-- A reading of texts that is cut at white space; `z` is read for a space. -/
structure Spaced {β : Type} (z : Char → List β) (Q : List Char → List β) : Prop where
  nil : Q [] = []
  space : ∀ s c t, isSpace c = true → Q (s ++ c :: t) = Q s ++ (z c ++ Q t)

namespace Spaced
variable {β : Type} {z : Char → List β} {Q : List Char → List β} (hQ : Spaced z Q)
include hQ

theorem append {u : List Char} (hu : ∀ c ∈ u, isSpace c = true) (s : List Char) :
    Q (u ++ s) = u.flatMap z ++ Q s := by
  induction u with
  | nil => rfl
  | cons c u ih =>
    have h := hQ.space [] c (u ++ s) (hu c List.mem_cons_self)
    rw [hQ.nil, List.nil_append, List.nil_append] at h
    rw [List.cons_append, h, ih fun d hd => hu d (List.mem_cons_of_mem _ hd), List.flatMap_cons,
      List.append_assoc]

theorem intercalate : ∀ lines : List (List Char),
    Q (['\n'].intercalate lines) = (z '\n').intercalate (lines.map Q)
  | [] => hQ.nil
  | [line] => by simp
  | line :: line' :: lines => by
    rw [List.intercalate_cons_cons, List.append_assoc, List.singleton_append,
      hQ.space _ _ _ (by decide), intercalate (line' :: lines)]
    simp [List.intercalate_cons_cons]

theorem reverse : Spaced (fun c => (z c).reverse) fun s => (Q s.reverse).reverse where
  nil := by simp [hQ.nil]
  space := fun s c t hc => by simp [hQ.space _ c _ hc]

end Spaced

/-! ## Rewriting and layout -/

/-- A rewriting of texts that leaves white space alone, and puts none at the edges of
what it writes. -/
structure Solid (R : List Char → List Char) : Prop extends Spaced (fun c => [c]) R where
  head : ∀ c s, isSpace c = false → ∃ d t, R (c :: s) = d :: t ∧ isSpace d = false
  last : ∀ s c, isSpace c = false → ∃ t d, R (s ++ [c]) = t ++ [d] ∧ isSpace d = false
  line : ∀ s, '\n' ∉ s → '\n' ∉ R s

theorem isSpace_of_isBlank {c : Char} (h : isBlank c = true) : isSpace c = true := by
  rcases Bool.or_eq_true_iff.mp h with h | h <;> rw [of_decide_eq_true h] <;> decide

namespace Solid
variable {R : List Char → List Char} (hR : Solid R)
include hR

theorem cons {c : Char} (hc : isSpace c = true) (s : List Char) : R (c :: s) = c :: R s := by
  have h := hR.space [] c s hc
  rwa [hR.nil] at h

/-- Leading white space, of any kind, is the same. -/
theorem leading {p : Char → Bool} (hp : ∀ c, p c = true → isSpace c = true) (s : List Char) :
    (R s).takeWhile p = s.takeWhile p ∧ (R s).dropWhile p = R (s.dropWhile p) := by
  induction s with
  | nil => simp [hR.nil]
  | cons c s ih =>
    cases hc : p c with
    | true => simp [hR.cons (hp c hc), hc, ih.1, ih.2]
    | false =>
      have hfirst : ∃ d t, R (c :: s) = d :: t ∧ p d = false := by
        cases hspace : isSpace c with
        | true => exact ⟨c, R s, hR.cons hspace s, hc⟩
        | false =>
          obtain ⟨d, t, heq, hd⟩ := hR.head c s hspace
          refine ⟨d, t, heq, Bool.eq_false_iff.mpr fun h => ?_⟩
          rw [hp d h] at hd
          cases hd
      obtain ⟨d, t, heq, hd⟩ := hfirst
      simp [heq, hc, hd]

theorem eq_nil_iff : R s = [] ↔ s = [] := by
  refine ⟨fun h => ?_, fun h => h ▸ hR.nil⟩
  cases s with
  | nil => rfl
  | cons c s =>
    cases hc : isSpace c with
    | true => rw [hR.cons hc] at h; cases h
    | false =>
      obtain ⟨d, t, heq, _⟩ := hR.head c s hc
      rw [heq] at h
      cases h

theorem reverse : Solid fun s => (R s.reverse).reverse where
  toSpaced := hR.toSpaced.reverse
  head := fun c s hc => by
    obtain ⟨t, d, heq, hd⟩ := hR.last s.reverse c hc
    exact ⟨d, t.reverse, by simp [heq], hd⟩
  last := fun s c hc => by
    obtain ⟨d, t, heq, hd⟩ := hR.head c s.reverse hc
    exact ⟨t.reverse, d, by simp [heq], hd⟩
  line := fun s hs => by
    rw [List.mem_reverse]
    exact hR.line _ (by rwa [List.mem_reverse])

theorem trimSpace : trimSpace (R s) = R (Layout.trimSpace s) := by
  have hlead := (hR.leading (p := isSpace) (fun _ h => h) s).2
  have htrail := (hR.reverse.leading (p := isSpace) (fun _ h => h)
    (s.dropWhile isSpace).reverse).2
  simp only [List.reverse_reverse] at htrail
  rw [Layout.trimSpace, hlead, htrail, List.reverse_reverse, Layout.trimSpace]

theorem emptied (line : List Char) : emptied (R line) = R (Layout.emptied line) := by
  have hall : (R line).all isBlank = line.all isBlank := by
    rw [Bool.eq_iff_iff, List.all_eq_true, List.all_eq_true, ← List.dropWhile_eq_nil_iff,
      ← List.dropWhile_eq_nil_iff, (hR.leading (fun _ => isSpace_of_isBlank) line).2,
      hR.eq_nil_iff]
  rw [Layout.emptied, hall, Layout.emptied]
  split
  · exact hR.nil.symm
  · rfl

theorem unindent {margin : List Char} (hm : ∀ c ∈ margin, isBlank c = true) (line : List Char) :
    unindent margin (R line) = R (Layout.unindent margin line) := by
  have hblank : ∀ s : List Char, margin <+: s ↔ margin <+: s.takeWhile isBlank := fun s => by
    refine ⟨fun ⟨rest, hrest⟩ => ?_, fun h => h.trans (List.takeWhile_prefix _)⟩
    rw [← hrest, List.takeWhile_append_of_pos hm]
    exact List.prefix_append _ _
  have hsame : margin.isPrefixOf (R line) = margin.isPrefixOf line := by
    rw [Bool.eq_iff_iff, List.isPrefixOf_iff_prefix, List.isPrefixOf_iff_prefix, hblank,
      hblank line, (hR.leading (fun _ => isSpace_of_isBlank) line).1]
  rw [Layout.unindent, hsame, Layout.unindent]
  split
  · next hp =>
    obtain ⟨rest, rfl⟩ := List.isPrefixOf_iff_prefix.mp hp
    rw [hR.append (fun c hc => isSpace_of_isBlank (hm c hc)), List.flatMap_singleton',
      List.drop_left, List.drop_left]
  · rfl

theorem splitOn : (R s).splitOn '\n' = (s.splitOn '\n').map R := by
  have hjoin : ['\n'].intercalate (s.splitOn '\n') = s := List.intercalate_splitOn '\n'
  conv_lhs => rw [← hjoin, hR.intercalate]
  refine List.splitOn_intercalate _ ?_ ?_
  · intro line hline
    obtain ⟨line, hmem, rfl⟩ := List.mem_map.mp hline
    exact hR.line line (Text.not_mem_of_mem_splitOn hmem)
  · simp

/-- **Rewriting and removing the common indentation commute.** -/
theorem dedent : dedent (R s) = R (Layout.dedent s) := by
  have hlines : ((R s).splitOn '\n').map Layout.emptied =
      ((s.splitOn '\n').map Layout.emptied).map R := by
    rw [hR.splitOn, List.map_map, List.map_map]
    exact List.map_congr_left fun line _ => hR.emptied line
  have hindents : (((((s.splitOn '\n').map Layout.emptied).map R).filter (· ≠ [])).map
      (·.takeWhile isBlank)) =
      (((s.splitOn '\n').map Layout.emptied).filter (· ≠ [])).map (·.takeWhile isBlank) := by
    rw [List.filter_map, List.map_map]
    have hfilter : ((fun line : List Char => decide (line ≠ [])) ∘ R) =
        fun line => decide (line ≠ []) := by
      funext line
      simp [hR.eq_nil_iff]
    rw [hfilter]
    exact List.map_congr_left fun line _ => (hR.leading (fun _ => isSpace_of_isBlank) line).1
  rw [Layout.dedent, Layout.dedent]
  rw [hlines, hindents, hR.intercalate]
  simp only [List.map_map]
  exact congrArg _ (List.map_congr_left fun line _ =>
    hR.unindent (blank_indents s) (Layout.emptied line))

end Solid

/-- A reading of texts for which white space only separates. -/
def Blind {β : Type} (Q : List Char → List β) : Prop := Spaced (fun _ => []) Q

namespace Blind
variable {β : Type} {Q : List Char → List β} (hQ : Blind Q)
include hQ

theorem append {u : List Char} (hu : ∀ c ∈ u, isSpace c = true) (s : List Char) :
    Q (u ++ s) = Q s := by
  have hnil : u.flatMap (fun _ => ([] : List β)) = [] := by simp
  rw [Spaced.append hQ hu, hnil, List.nil_append]

theorem dropWhile : Q (s.dropWhile isSpace) = Q s := by
  conv_rhs => rw [← List.takeWhile_append_dropWhile (p := isSpace) (l := s)]
  rw [hQ.append fun c hc => List.mem_takeWhile_imp hc]

theorem trimSpace : Q (trimSpace s) = Q s := by
  have htrail := (show Blind _ from Spaced.reverse hQ).dropWhile (s.dropWhile isSpace).reverse
  simp only [List.reverse_reverse] at htrail
  rw [Layout.trimSpace, ← List.reverse_inj, htrail, List.reverse_inj, hQ.dropWhile]

theorem of_blank {line : List Char} (h : line.all isBlank = true) : Q line = [] := by
  have hspace : ∀ c ∈ line, isSpace c = true :=
    fun c hc => isSpace_of_isBlank (List.all_eq_true.mp h c hc)
  have happend := hQ.append hspace []
  rwa [List.append_nil, hQ.nil] at happend

theorem emptied (line : List Char) : Q (emptied line) = Q line := by
  unfold Layout.emptied
  split
  · next h => rw [hQ.nil, hQ.of_blank h]
  · rfl

theorem unindent {margin : List Char} (hm : ∀ c ∈ margin, isBlank c = true) (line : List Char) :
    Q (unindent margin line) = Q line := by
  unfold Layout.unindent
  split
  · next hp =>
    obtain ⟨rest, rfl⟩ := List.isPrefixOf_iff_prefix.mp hp
    rw [List.drop_left, hQ.append fun c hc => isSpace_of_isBlank (hm c hc)]
  · rfl

theorem dedent : Q (dedent s) = Q s := by
  have hjoin : ['\n'].intercalate (s.splitOn '\n') = s := List.intercalate_splitOn '\n'
  conv_rhs => rw [← hjoin, Spaced.intercalate hQ]
  rw [Layout.dedent, Spaced.intercalate hQ, List.map_map, List.map_map]
  refine congrArg _ (List.map_congr_left fun line _ => ?_)
  exact (hQ.unindent (blank_indents s) _).trans (hQ.emptied line)

end Blind

theorem blind_dark : Blind fun s => s.filter fun c => !isSpace c where
  nil := rfl
  space s c t hc := by simp [hc]

/-- A reading that keeps what is not white space keeps its characters. -/
theorem mem_of_blind {f : List Char → List Char}
    (h : ∀ {Q : List Char → List Char}, Blind Q → ∀ s, Q (f s) = Q s) {c : Char}
    (hc : isSpace c = false) (s : List Char) : c ∈ f s ↔ c ∈ s := by
  have hdark : ∀ s : List Char, c ∈ s ↔ c ∈ s.filter fun c => !isSpace c := by simp [hc]
  rw [hdark, hdark s]
  exact iff_of_eq (congrArg (c ∈ ·) (h blind_dark s))

theorem length_trimSpace_le : (trimSpace s).length ≤ s.length := by
  rw [trimSpace, List.length_reverse]
  refine (List.length_dropWhile_le _ _).trans ?_
  rw [List.length_reverse]
  exact List.length_dropWhile_le _ _

/-- A text without white space around it starts with another character. -/
theorem head_of_trimSpace {s : List Char} (h : trimSpace s = s) :
    ∀ c ∈ s.head?, isSpace c = false := by
  intro c hc
  obtain ⟨rest, rfl⟩ := List.head?_eq_some_iff.mp hc
  refine Bool.eq_false_iff.mpr fun hspace => ?_
  have hshort : trimSpace (c :: rest) = trimSpace rest := by
    rw [trimSpace, List.dropWhile_cons_of_pos hspace]
    rfl
  have hle := length_trimSpace_le rest
  rw [← hshort, h, List.length_cons] at hle
  omega

/-! ## Functions that remove indentation -/

structure Dedents (f : List Char → List Char) : Prop where
  /-- only white space goes -/
  blind : ∀ {β : Type} {Q : List Char → List β}, Blind Q → ∀ s, Q (f s) = Q s
  /-- what the words are does not matter -/
  solid : ∀ {R : List Char → List Char}, Solid R → ∀ s, f (R s) = R (f s)
  /-- a line that starts with another character has no indentation -/
  flush : ∀ s, (∀ c ∈ s.head?, isSpace c = false) → '\n' ∉ s → f s = s

theorem dedent_flush {s : List Char} (hstart : ∀ c ∈ s.head?, isSpace c = false)
    (hline : '\n' ∉ s) : dedent s = s := by
  have hsplit : s.splitOn '\n' = [s] := by
    obtain ⟨part, parts, hparts⟩ := List.exists_cons_of_ne_nil (List.splitOn_ne_nil '\n' s)
    have hs := Text.eq_of_splitOn hparts
    cases parts with
    | nil => rw [hparts, hs, List.flatMap_nil, List.append_nil]
    | cons => exact absurd (hs ▸ by simp) hline
  cases s with
  | nil => rfl
  | cons c s =>
    have hc : isBlank c = false :=
      Bool.eq_false_iff.mpr fun h => Bool.eq_false_iff.mp (hstart c rfl) (isSpace_of_isBlank h)
    simp [dedent, hsplit, emptied, hc, margin, shared, unindent]

theorem dedents : Dedents dedent where
  blind h := h.dedent
  solid h := h.dedent
  flush _ := dedent_flush

end Ldap2pg.Lib.Layout
