import Ldap2pg.Lib.Text
import Mathlib.Data.List.TakeWhile

/-! # The pieces of a template

A template is read as characters and words in angle brackets. `ReplaceAll` on one word
and `Replace` on each word that was found, in turn, both replace pieces: **no
occurrence is missed and none is taken for another**, whatever the order and the
repetitions of the words. -/
namespace Ldap2pg.Lib.Template
open Text

variable {c : Char} {m s u old : List Char}

/-! ## 1. Words in angle brackets -/

/-- A word of letters in angle brackets. -/
def Bracket (m : List Char) : Prop :=
  ∃ w, w ≠ [] ∧ (∀ c ∈ w, isLetter c = true) ∧ m = '<' :: (w ++ ['>'])

/-- A run of letters up to something else is all the letters. -/
theorem takeWhile_letters {w : List Char} (hw : ∀ c ∈ w, isLetter c = true)
    (hc : isLetter c = false) (s : List Char) :
    (w ++ c :: s).takeWhile isLetter = w ∧ (w ++ c :: s).dropWhile isLetter = c :: s := by
  rw [List.takeWhile_append_of_pos hw, List.dropWhile_append_of_pos hw]
  simp [hc]

theorem bracketed_eq_some : bracketed s = some m ↔ Bracket m ∧ m <+: s := by
  constructor
  · intro h
    unfold bracketed at h
    split at h
    case h_2 => cases h
    case h_1 s =>
      split at h
      case h_1 => cases h
      case h_3 => cases h
      case h_2 rest hrest hne =>
        obtain rfl := Option.some.inj h
        have hs := List.takeWhile_append_dropWhile (p := isLetter) (l := s)
        rw [hrest] at hs
        refine ⟨⟨_, hne, fun c hc => List.mem_takeWhile_imp hc, by simp⟩, rest, ?_⟩
        simp [hs]
  · intro ⟨⟨w, hne, hw, hm⟩, rest, hs⟩
    subst hm hs
    obtain ⟨htake, hdrop⟩ := takeWhile_letters hw (by decide : isLetter '>' = false) rest
    obtain ⟨c, w, rfl⟩ := List.exists_cons_of_ne_nil hne
    simp only [bracketed, List.cons_append, List.append_assoc, List.nil_append] at htake hdrop ⊢
    rw [htake, hdrop]
    rfl

theorem bracketed_eq_none (h : s.head? ≠ some '<') : bracketed s = none := by
  unfold bracketed
  split
  · exact absurd rfl h
  · rfl

namespace Bracket
variable {m m' : List Char}

theorem ne_nil (h : Bracket m) : m ≠ [] := by
  obtain ⟨w, _, _, rfl⟩ := h
  exact List.cons_ne_nil _ _

theorem bracketed_append (h : Bracket m) (s : List Char) : bracketed (m ++ s) = some m :=
  bracketed_eq_some.mpr ⟨h, List.prefix_append m s⟩

/-- After its first character, a word has no other opening bracket. -/
theorem exists_tail (h : Bracket m) : ∃ u, m = '<' :: u ∧ '<' ∉ u := by
  obtain ⟨w, _, hw, rfl⟩ := h
  refine ⟨w ++ ['>'], rfl, ?_⟩
  intro hmem
  rcases List.mem_append.mp hmem with hmem | hmem
  · have hletter := hw '<' hmem
    revert hletter
    decide
  · revert hmem
    decide

theorem not_mem (h : Bracket m) (hc : isLetter c = false) (hopen : c ≠ '<') (hclose : c ≠ '>') :
    c ∉ m := by
  obtain ⟨w, _, hw, rfl⟩ := h
  intro hmem
  rcases List.mem_cons.mp hmem with rfl | hmem
  · exact hopen rfl
  · rcases List.mem_append.mp hmem with hmem | hmem
    · rw [hw c hmem] at hc
      cases hc
    · exact hclose (List.mem_singleton.mp hmem)

theorem no_percent (h : Bracket m) : '%' ∉ m := h.not_mem rfl (by simp) (by simp)

/-- A word stops before a character that it cannot have. -/
theorem prefix_of_prefix (h : Bracket m) (hc : c ∉ m) (hp : m <+: u ++ c :: s) : m <+: u := by
  rcases List.prefix_or_prefix_of_prefix hp (List.prefix_append _ _) with hm | ⟨rest, rfl⟩
  · exact hm
  · cases rest with
    | nil => simp
    | cons d rest =>
      have hd := (List.cons_prefix_cons.mp ((List.prefix_append_right_inj _).mp hp)).1
      exact absurd (by simp [hd]) hc

/-- One text starts with one word at most. -/
theorem eq_of_prefix (h : Bracket m) (h' : Bracket m') (hp : m <+: s) (hp' : m' <+: s) : m = m' :=
  Option.some.inj ((bracketed_eq_some.mpr ⟨h, hp⟩).symm.trans (bracketed_eq_some.mpr ⟨h', hp'⟩))

end Bracket

theorem bracket_of_letters {w : List Char} (hne : w ≠ []) (hw : w.all isLetter = true) :
    Bracket ('<' :: (w ++ ['>'])) :=
  ⟨w, hne, fun c hc => List.all_eq_true.mp hw c hc, rfl⟩

theorem any_isPrefixOf (hm : Bracket m) (s : List Char) :
    s.tails.any m.isPrefixOf = true ↔ m ∈ findBracketed s := by
  rw [List.any_eq_true, findBracketed, List.mem_filterMap]
  refine exists_congr fun t => and_congr_right fun _ => ?_
  rw [List.isPrefixOf_iff_prefix, bracketed_eq_some]
  exact ⟨fun h => ⟨hm, h⟩, fun h => h.2⟩

/-! ## 2. Pieces -/

/-- A character, or a word with its brackets. -/
inductive Piece where
  | char (c : Char)
  | word (m : List Char)
  deriving DecidableEq

def Piece.text : Piece → List Char
  | .char c => [c]
  | .word m => m

def text (ps : List Piece) : List Char := ps.flatMap Piece.text

/-- Goes through the text; `skip` characters belong to the word before. -/
def scan : Nat → List Char → List Piece
  | _, [] => []
  | skip + 1, _ :: s => scan skip s
  | 0, c :: s =>
    match bracketed (c :: s) with
    | some m => .word m :: scan (m.length - 1) s
    | none => .char c :: scan 0 s

def pieces (s : List Char) : List Piece := scan 0 s

def words (ps : List Piece) : List (List Char) :=
  ps.filterMap fun
    | .char _ => none
    | .word m => some m

/-- The text with another one for each word, all at once. -/
def substitute (f : List Char → List Char) (s : List Char) : List Char :=
  (pieces s).flatMap fun
    | .char c => [c]
    | .word m => f m

theorem scan_eq_pieces_drop (n : Nat) (s : List Char) : scan n s = pieces (s.drop n) := by
  fun_induction scan n s with
  | case1 => simp [pieces, scan]
  | case2 n c s ih => rw [ih, List.drop_succ_cons]
  | case3 c s m h => rw [List.drop_zero, pieces, scan, h]
  | case4 c s h => rw [List.drop_zero, pieces, scan, h]

theorem pieces_char (h : bracketed (c :: s) = none) : pieces (c :: s) = .char c :: pieces s := by
  rw [pieces, scan, h]
  rfl

theorem pieces_word (h : Bracket m) (s : List Char) : pieces (m ++ s) = .word m :: pieces s := by
  have hm := h.bracketed_append s
  obtain ⟨c, m, rfl⟩ := List.exists_cons_of_ne_nil h.ne_nil
  rw [List.cons_append] at hm ⊢
  rw [pieces, scan, hm]
  simp only [scan_eq_pieces_drop, List.length_cons, Nat.add_sub_cancel]
  rw [List.drop_left]

/-- Induction along the pieces of a text. -/
theorem piecewise {motive : List Char → Prop} (nil : motive [])
    (word : ∀ m s, Bracket m → motive s → motive (m ++ s))
    (char : ∀ c s, bracketed (c :: s) = none → motive s → motive (c :: s)) (s : List Char) :
    motive s := by
  match s with
  | [] => exact nil
  | c :: s =>
    cases h : bracketed (c :: s) with
    | none => exact char c s h (piecewise nil word char s)
    | some m =>
      obtain ⟨hm, rest, hrest⟩ := bracketed_eq_some.mp h
      have hlt : rest.length < s.length + 1 := by
        have hlen := congrArg List.length hrest
        have hpos := List.length_pos_iff.mpr hm.ne_nil
        simp only [List.length_append, List.length_cons] at hlen
        omega
      rw [← hrest]
      exact word m rest hm (piecewise nil word char rest)
termination_by s.length

theorem text_pieces (s : List Char) : text (pieces s) = s := by
  induction s using piecewise with
  | nil => rfl
  | word m s hm ih => rw [pieces_word hm, text, List.flatMap_cons, ← text, ih, Piece.text]
  | char c s h ih => rw [pieces_char h, text, List.flatMap_cons, ← text, ih, Piece.text]; rfl

/-- A text without opening bracket is read character by character. -/
theorem pieces_append (h : '<' ∉ u) (s : List Char) :
    pieces (u ++ s) = u.map .char ++ pieces s := by
  induction u with
  | nil => rfl
  | cons c u ih =>
    obtain ⟨hc, hu⟩ := List.ne_and_not_mem_of_not_mem_cons h
    have hnone : bracketed (c :: (u ++ s)) = none :=
      bracketed_eq_none (by simpa using Ne.symm hc)
    rw [List.cons_append, pieces_char hnone, ih hu]
    rfl

theorem substitute_text (f : List Char → List Char) (h : '<' ∉ u) (s : List Char) :
    substitute f (u ++ s) = u ++ substitute f s := by
  rw [substitute, pieces_append h, List.flatMap_append, List.flatMap_map, List.flatMap_singleton']
  rfl

theorem substitute_word (f : List Char → List Char) (h : Bracket m) (s : List Char) :
    substitute f (m ++ s) = f m ++ substitute f s := by
  rw [substitute, pieces_word h, List.flatMap_cons]
  rfl

theorem findBracketed_cons (c : Char) (s : List Char) :
    findBracketed (c :: s) = (bracketed (c :: s)).toList ++ findBracketed s := by
  have htails : (c :: s).tails = (c :: s) :: s.tails := by simp [List.tails]
  rw [findBracketed, htails, List.filterMap_cons]
  cases bracketed (c :: s) <;> rfl

theorem findBracketed_append (h : '<' ∉ u) (s : List Char) :
    findBracketed (u ++ s) = findBracketed s := by
  induction u with
  | nil => rfl
  | cons c u ih =>
    obtain ⟨hc, hu⟩ := List.ne_and_not_mem_of_not_mem_cons h
    have hnone : bracketed (c :: (u ++ s)) = none :=
      bracketed_eq_none (by simpa using Ne.symm hc)
    rw [List.cons_append, findBracketed_cons, hnone, ih hu]
    rfl

theorem findBracketed_eq (s : List Char) : findBracketed s = words (pieces s) := by
  induction s using piecewise with
  | nil => rfl
  | word m s hm ih =>
    obtain ⟨u, rfl, hu⟩ := hm.exists_tail
    have hsome := hm.bracketed_append s
    rw [pieces_word hm, List.cons_append] at *
    rw [findBracketed_cons, hsome, findBracketed_append hu, ih]
    rfl
  | char c s h ih => rw [pieces_char h, findBracketed_cons, h, ih]; rfl

/-! ## 3. Replacements -/

theorem replaceFrom_skip (old new : List Char) (n : Nat) (s : List Char) :
    replaceFrom old new n s = replaceFrom old new 0 (s.drop n) := by
  fun_induction replaceFrom old new n s with
  | case1 => simp [replaceFrom]
  | case2 n c s ih => rw [ih, List.drop_succ_cons]
  | case3 c s h ih => rw [List.drop_zero, replaceFrom, if_pos h]
  | case4 c s h ih => rw [List.drop_zero, replaceFrom, if_neg h]

theorem replaceFrom_match (hne : old ≠ []) (new s : List Char) :
    replaceFrom old new 0 (old ++ s) = new ++ replaceFrom old new 0 s := by
  obtain ⟨c, old, rfl⟩ := List.exists_cons_of_ne_nil hne
  have hp : (c :: old).isPrefixOf (c :: (old ++ s)) = true :=
    List.isPrefixOf_iff_prefix.mpr (List.prefix_append (c :: old) s)
  rw [List.cons_append, replaceFrom, if_pos hp, replaceFrom_skip, List.length_cons,
    Nat.add_sub_cancel, List.drop_left]

theorem replaceFrom_char (h : ¬ old <+: c :: s) (new : List Char) :
    replaceFrom old new 0 (c :: s) = c :: replaceFrom old new 0 s := by
  rw [replaceFrom, if_neg (fun hp => h (List.isPrefixOf_iff_prefix.mp hp))]

theorem Bracket.not_prefix (hm : Bracket m) (hc : c ≠ '<') (s : List Char) : ¬ m <+: c :: s := by
  obtain ⟨u, rfl, _⟩ := hm.exists_tail
  intro hp
  exact hc (List.cons_prefix_cons.mp hp).1.symm

theorem replaceFrom_append (hold : Bracket old) (new : List Char) (hu : '<' ∉ u) (s : List Char) :
    replaceFrom old new 0 (u ++ s) = u ++ replaceFrom old new 0 s := by
  induction u with
  | nil => rfl
  | cons c u ih =>
    obtain ⟨hc, hu⟩ := List.ne_and_not_mem_of_not_mem_cons hu
    rw [List.cons_append, replaceFrom_char (hold.not_prefix (Ne.symm hc) _), ih hu]
    rfl

/-- **Replacing all the occurrences of one word** replaces pieces. -/
theorem replaceFrom_eq (hold : Bracket old) (new s : List Char) :
    replaceFrom old new 0 s =
      (pieces s).flatMap fun p => if p = .word old then new else p.text := by
  induction s using piecewise with
  | nil => rfl
  | word m s hm ih =>
    rw [pieces_word hm, List.flatMap_cons, ← ih]
    by_cases heq : m = old
    · subst heq
      rw [if_pos rfl, replaceFrom_match hm.ne_nil]
    · rw [if_neg (fun h => heq (Piece.word.inj h))]
      obtain ⟨u, hu, hopen⟩ := hm.exists_tail
      have hnot : ¬ old <+: '<' :: (u ++ s) := fun hp =>
        heq (hm.eq_of_prefix hold (s := '<' :: (u ++ s)) ⟨s, by rw [hu]; rfl⟩ hp)
      rw [Piece.text, hu, List.cons_append, replaceFrom_char hnot,
        replaceFrom_append hold new hopen]
      rfl
  | char c s h ih =>
    have hnot : ¬ old <+: c :: s := fun hp => by
      rw [bracketed_eq_some.mpr ⟨hold, hp⟩] at h
      cases h
    rw [pieces_char h, List.flatMap_cons, ← ih, replaceFrom_char hnot]
    rfl

theorem replaceFirst_cases (s old new : List Char) :
    replaceFirst s old new = s ∨
      ∃ before after, s = before ++ old ++ after ∧
        replaceFirst s old new = before ++ new ++ after := by
  induction s with
  | nil => exact .inl rfl
  | cons c s ih =>
    rw [replaceFirst]
    split
    case isTrue h =>
      obtain ⟨after, hafter⟩ := List.isPrefixOf_iff_prefix.mp h
      refine .inr ⟨[], after, hafter.symm, ?_⟩
      rw [← hafter, List.drop_left]
      rfl
    case isFalse =>
      rcases ih with ih | ⟨before, after, hs, ih⟩
      · exact .inl (by rw [ih])
      · exact .inr ⟨c :: before, after, by rw [hs]; rfl, by rw [ih]; rfl⟩

/-- A replacement that starts with neither a letter nor a bracket makes no word. -/
theorem bracketed_replaceFirst (h : bracketed (c :: s) = none) :
    bracketed (c :: replaceFirst s m "%s".toList) = none := by
  rcases replaceFirst_cases s m "%s".toList with heq | ⟨before, after, hs, heq⟩
  · rw [heq, h]
  · rw [Option.eq_none_iff_forall_ne_some] at h ⊢
    intro w hw
    obtain ⟨hbracket, hp⟩ := bracketed_eq_some.mp hw
    refine h w (bracketed_eq_some.mpr ⟨hbracket, ?_⟩)
    rw [heq, List.append_assoc, ← List.cons_append] at hp
    have hbefore : w <+: c :: before := hbracket.prefix_of_prefix hbracket.no_percent hp
    rw [hs, List.append_assoc, ← List.cons_append]
    exact hbefore.trans (List.prefix_append _ _)

theorem foldl_replaceFirst_char {ms : List (List Char)} (hms : ∀ m ∈ ms, Bracket m) :
    ∀ {s : List Char}, bracketed (c :: s) = none →
      ms.foldl (replaceFirst · · "%s".toList) (c :: s) =
        c :: ms.foldl (replaceFirst · · "%s".toList) s := by
  induction ms with
  | nil => intro s _; rfl
  | cons m ms ih =>
    intro s h
    have hnot : m.isPrefixOf (c :: s) = false := by
      rw [Bool.eq_false_iff]
      intro hp
      rw [bracketed_eq_some.mpr ⟨hms m List.mem_cons_self, List.isPrefixOf_iff_prefix.mp hp⟩] at h
      cases h
    rw [List.foldl_cons, List.foldl_cons, replaceFirst, hnot]
    exact ih (fun m' hm' => hms m' (List.mem_cons_of_mem _ hm')) (bracketed_replaceFirst h)

theorem mem_words {ps : List Piece} : m ∈ words ps ↔ .word m ∈ ps := by
  refine List.mem_filterMap.trans ⟨fun ⟨p, hp, hm⟩ => ?_, fun h => ⟨_, h, rfl⟩⟩
  cases p with
  | char c => cases hm
  | word m' =>
    obtain rfl := Option.some.inj hm
    exact hp

theorem bracket_of_mem_words (h : m ∈ words (pieces s)) : Bracket m := by
  induction s using piecewise with
  | nil => cases h
  | word m' s hm' ih =>
    rw [pieces_word hm'] at h
    rcases List.mem_cons.mp h with rfl | h
    · exact hm'
    · exact ih h
  | char c s hc ih =>
    rw [pieces_char hc] at h
    exact ih h

/-- **Replacing each word that was found, in turn, at its first occurrence** replaces
all the words. -/
theorem foldl_replaceFirst_eq (s : List Char) :
    (findBracketed s).foldl (replaceFirst · · "%s".toList) s =
      substitute (fun _ => "%s".toList) s := by
  rw [findBracketed_eq]
  induction s using piecewise with
  | nil => rfl
  | word m s hm ih =>
    have hwords : ∀ m ∈ words (pieces s), Bracket m := fun m h => bracket_of_mem_words h
    have hfirst : replaceFirst (m ++ s) m "%s".toList = '%' :: 's' :: s := by
      obtain ⟨c, m, rfl⟩ := List.exists_cons_of_ne_nil hm.ne_nil
      have hp : (c :: m).isPrefixOf (c :: (m ++ s)) = true :=
        List.isPrefixOf_iff_prefix.mpr (List.prefix_append (c :: m) s)
      rw [List.cons_append, replaceFirst, if_pos hp, ← List.cons_append, List.drop_left]
      rfl
    rw [substitute, pieces_word hm]
    show (words (pieces s)).foldl _ (replaceFirst (m ++ s) m "%s".toList) =
      "%s".toList ++ substitute (fun _ => "%s".toList) s
    rw [hfirst, foldl_replaceFirst_char hwords (bracketed_eq_none (by simp)),
      foldl_replaceFirst_char hwords (bracketed_eq_none (by simp)), ih]
    rfl
  | char c s h ih =>
    have hwords : ∀ m ∈ words (pieces s), Bracket m := fun m h => bracket_of_mem_words h
    rw [substitute, pieces_char h]
    show (words (pieces s)).foldl _ (c :: s) = c :: substitute (fun _ => "%s".toList) s
    rw [foldl_replaceFirst_char hwords h, ih]

end Ldap2pg.Lib.Template
