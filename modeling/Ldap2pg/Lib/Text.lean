import Mathlib.Data.List.Basic

/-! # Texts as lists of characters

`ReplaceAll` and `Replace` of Go's `strings` package for a text that is not
empty, the words in angle brackets of a text, and texts that are cut or joined at a
character. -/
namespace Ldap2pg.Lib.Text

/-- Goes through the text; `skip` characters belong to the match before. -/
def replaceFrom (old new : List Char) : Nat → List Char → List Char
  | _, [] => []
  | skip + 1, _ :: s => replaceFrom old new skip s
  | 0, c :: s =>
    if old.isPrefixOf (c :: s) then new ++ replaceFrom old new (old.length - 1) s
    else c :: replaceFrom old new 0 s

def replaceAll (s : List Char) (old new : String) : List Char :=
  replaceFrom old.toList new.toList 0 s

def replaceFirst (s old new : List Char) : List Char :=
  match s with
  | [] => []
  | c :: s =>
    if old.isPrefixOf (c :: s) then new ++ (c :: s).drop old.length
    else c :: replaceFirst s old new

def isLetter (c : Char) : Bool := 'a' ≤ c && c ≤ 'z'

/-- A match of `<[a-z]+>` at the start. -/
def bracketed : List Char → Option (List Char)
  | '<' :: s =>
    match s.takeWhile isLetter, s.dropWhile isLetter with
    | [], _ => none
    | word, '>' :: _ => some ('<' :: word ++ ['>'])
    | _, _ => none
  | _ => none

/-- The matches of `<[a-z]+>`, none of which can hold another. -/
def findBracketed (s : List Char) : List (List Char) := s.tails.filterMap bracketed

/-! ## Texts that are cut at a character -/

theorem not_mem_of_mem_splitOn {c : Char} {s part : List Char} (h : part ∈ s.splitOn c) :
    c ∉ part := by
  induction s generalizing part with
  | nil =>
    obtain rfl := List.mem_singleton.mp h
    exact List.not_mem_nil
  | cons x s ih =>
    obtain ⟨first, rest, hrest⟩ := List.exists_cons_of_ne_nil (List.splitOn_ne_nil c s)
    rw [List.splitOn_cons_eq_if_modifyHead] at h
    split at h
    case isTrue =>
      rcases List.mem_cons.mp h with rfl | h
      · exact List.not_mem_nil
      · exact ih h
    case isFalse hx =>
      rw [hrest, List.modifyHead_cons] at h
      rcases List.mem_cons.mp h with rfl | h
      · rw [List.mem_cons, not_or]
        exact ⟨fun he => hx (beq_iff_eq.mpr he.symm), ih (hrest ▸ List.mem_cons_self)⟩
      · exact ih (hrest ▸ List.mem_cons_of_mem _ h)

/-- The text is its first part, then each other one after the character. -/
theorem eq_of_splitOn {c : Char} {s part : List Char} {parts : List (List Char)}
    (h : s.splitOn c = part :: parts) : s = part ++ parts.flatMap (c :: ·) := by
  have hjoin : [c].intercalate (s.splitOn c) = s := List.intercalate_splitOn c
  rw [← hjoin, h]
  clear h hjoin
  induction parts generalizing part with
  | nil => simp
  | cons q parts ih => rw [List.intercalate_cons_of_ne_nil (List.cons_ne_nil q parts), ih]; simp

/-! ## Texts that are joined -/

theorem intercalate_append {α : Type} (sep : List α) {l l' : List (List α)} (hl : l ≠ [])
    (hl' : l' ≠ []) :
    sep.intercalate (l ++ l') = sep.intercalate l ++ sep ++ sep.intercalate l' := by
  induction l with
  | nil => exact absurd rfl hl
  | cons a l ih =>
    rw [List.cons_append, List.intercalate_cons_of_ne_nil (by simp [hl'])]
    by_cases hnil : l = []
    · subst hnil
      simp
    · rw [ih hnil, List.intercalate_cons_of_ne_nil hnil]
      simp

theorem intercalate_flatMap {α β : Type} (sep : List α) (f : β → List (List α))
    (hf : ∀ b, f b ≠ []) (l : List β) :
    sep.intercalate (l.map fun b => sep.intercalate (f b)) = sep.intercalate (l.flatMap f) := by
  induction l with
  | nil => rfl
  | cons b l ih =>
    cases l with
    | nil => simp
    | cons c l =>
      have hne : (c :: l).flatMap f ≠ [] := by simp [hf c]
      rw [List.map_cons, List.intercalate_cons_of_ne_nil (by simp), ih]
      exact (intercalate_append sep (hf b) hne).symm

end Ldap2pg.Lib.Text
