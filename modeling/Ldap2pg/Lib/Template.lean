import Ldap2pg.Lib.Layout
import Ldap2pg.Lib.Pieces
import Ldap2pg.Lib.Sprintf
import Mathlib.Data.List.Infix

/-! # From templates to formats

Some words of a template stand for a text, which is put in as it is; each other one
becomes a verb `%s`, and percent signs are doubled. Done one word after the other this
can make new words, unless the texts fit. **Texts that fit give the format of the
template**, which white space around it and common indentation do not change. -/
namespace Ldap2pg.Lib.Template
open Text

variable {raw : List Char → Option (List Char)} {ps : List Piece} (s : List Char) {c : Char}
  {f : Piece → List Char}

/-! ## 1. Texts put in a template -/

/-- Pieces that their text is read back to. -/
def Scanned : List Piece → Prop
  | [] => True
  | .char c :: ps => bracketed (c :: text ps) = none ∧ Scanned ps
  | .word m :: ps => Bracket m ∧ Scanned ps

theorem Scanned.pieces_text : ∀ {ps : List Piece}, Scanned ps → pieces (text ps) = ps
  | [], _ => rfl
  | .char c :: ps, ⟨hc, h⟩ => by
    show pieces (c :: text ps) = _
    rw [pieces_char hc, h.pieces_text]
  | .word m :: ps, ⟨hm, h⟩ => by
    show pieces (m ++ text ps) = _
    rw [pieces_word hm, h.pieces_text]

theorem scanned_pieces : Scanned (pieces s) := by
  induction s using piecewise with
  | nil => trivial
  | word m s hm ih => rw [pieces_word hm]; exact ⟨hm, ih⟩
  | char c s h ih =>
    rw [pieces_char h]
    exact ⟨by rw [text_pieces]; exact h, ih⟩

/-- Percent signs are doubled, and words that stand for a text replaced by it. -/
def put (raw : List Char → Option (List Char)) : Piece → List Piece
  | .char c => if c = '%' then [.char '%', .char '%'] else [.char c]
  | .word m => (raw m).elim [.word m] (·.map .char)

/-- A text that can be put for the word `m` of a template: it has no percent sign nor
bracket, and cannot be the end of a word that starts before. -/
structure Fits (s m r : List Char) : Prop where
  percent : '%' ∉ r
  opening : '<' ∉ r
  closing : '>' ∉ r
  apart : (∃ c ∈ r, isLetter c = false) ∨
    ∀ letters, (∀ c ∈ letters, isLetter c = true) → ¬ '<' :: (letters ++ m) <:+: s

/-- The word follows an opening bracket and letters somewhere. -/
def follows (m s : List Char) : Bool :=
  s.tails.any fun t => t.head? == some '<' && m.isPrefixOf (t.tail.dropWhile isLetter)

theorem apart_of_not_follows {s m : List Char} (hm : Bracket m) (h : follows m s = false)
    (letters : List Char) (hletters : ∀ c ∈ letters, isLetter c = true) :
    ¬ '<' :: (letters ++ m) <:+: s := by
  intro ⟨before, after, hs⟩
  have htail : '<' :: (letters ++ m) ++ after ∈ s.tails :=
    (List.mem_tails _ _).mpr ⟨before, by rw [← hs, List.append_assoc]⟩
  obtain ⟨u, rfl, _⟩ := hm.exists_tail
  have hrest := (takeWhile_letters hletters (c := '<') rfl (u ++ after)).2
  have hno := List.any_eq_false.mp h _ htail
  simp [hrest] at hno

/-- A text with another character than a letter fits anywhere. -/
theorem fits_of_all {s m r : List Char} (hplain : r.all (· ∉ ['%', '<', '>']) = true)
    (hother : r.any (!isLetter ·) = true) : Fits s m r := by
  have hnot : ∀ c ∈ ['%', '<', '>'], c ∉ r := fun c hc hr =>
    of_decide_eq_true (List.all_eq_true.mp hplain c hr) hc
  obtain ⟨c, hc, hletter⟩ := List.any_eq_true.mp hother
  exact ⟨hnot _ (by simp), hnot _ (by simp), hnot _ (by simp),
    .inl ⟨c, hc, Bool.not_eq_true' _ ▸ hletter⟩⟩

theorem text_map_char (r : List Char) : text (r.map .char) = r := by
  induction r with
  | nil => rfl
  | cons c r ih => rw [List.map_cons, text, List.flatMap_cons, ← text, ih]; rfl

theorem text_append (ps qs : List Piece) : text (ps ++ qs) = text ps ++ text qs :=
  List.flatMap_append

/-- Letters up to a closing bracket do not run into a text that has another character
and no such bracket. -/
theorem append_ne_letters {r t w after : List Char} (hclose : '>' ∉ r)
    (hletter : ∃ c ∈ r, isLetter c = false) (hw : ∀ c ∈ w, isLetter c = true) :
    r ++ t ≠ w ++ '>' :: after := by
  obtain ⟨c, hc, hletter⟩ := hletter
  have hout : c ∉ w := fun hin => by
    rw [hw c hin] at hletter
    cases hletter
  intro h
  rcases List.append_eq_append_iff.mp h with ⟨mid, hr, _⟩ | ⟨mid, hr, hmid⟩
  · exact hout (hr ▸ List.mem_append_left _ hc)
  · cases mid with
    | nil => exact hout (by rwa [hr, List.append_nil] at hc)
    | cons d mid =>
      obtain ⟨rfl, -⟩ := List.cons.inj hmid
      exact hclose (hr ▸ by simp)

/-- A word that starts with an opening bracket of the template was a word of it. -/
theorem word_of_put :
    ∀ {w after : List Char}, Scanned ps → (∀ c ∈ w, isLetter c = true) →
    (∀ m r letters, raw m = some r → (∀ c ∈ letters, isLetter c = true) →
      letters ++ m <+: text ps → .word m ∈ ps → '>' ∉ r ∧ ∃ c ∈ r, isLetter c = false) →
    text (ps.flatMap (put raw)) = w ++ '>' :: after → ∃ rest, text ps = w ++ '>' :: rest := by
  induction ps with
  | nil => intro w after _ _ _ h; cases w <;> cases h
  | cons p ps ih =>
    intro w after hs hw hraw h
    rw [List.flatMap_cons, text_append] at h
    cases p with
    | char c =>
      have hput : c ≠ '%' := by
        intro hc
        subst hc
        exact append_ne_letters (r := ['%', '%']) (by decide) ⟨'%', by decide⟩ hw h
      rw [put, if_neg hput] at h
      cases w with
      | nil =>
        obtain ⟨rfl, -⟩ := List.cons.inj h
        exact ⟨text ps, rfl⟩
      | cons d w =>
        obtain ⟨rfl, htail⟩ := List.cons.inj h
        obtain ⟨rest, hrest⟩ := ih (w := w) hs.2 (fun c hc => hw c (List.mem_cons_of_mem _ hc)) (by
          intro m r letters hm hl hp hmem
          refine hraw m r (c :: letters) hm ?_ ?_ (List.mem_cons_of_mem _ hmem)
          · intro d hd
            rcases List.mem_cons.mp hd with rfl | hd
            · exact hw d List.mem_cons_self
            · exact hl d hd
          · exact List.cons_prefix_cons.mpr ⟨rfl, hp⟩) htail
        exact ⟨rest, by show c :: text ps = _; rw [hrest]; rfl⟩
    | word m =>
      exfalso
      cases hm : raw m with
      | none =>
        rw [put, hm] at h
        obtain ⟨u, rfl, -⟩ := hs.1.exists_tail
        exact append_ne_letters (r := ['<']) (by decide) ⟨'<', by decide⟩ hw h
      | some r =>
        obtain ⟨hclose, hletter⟩ := hraw m r [] hm (by simp)
          (List.prefix_append m (text ps)) List.mem_cons_self
        rw [put, hm, Option.elim_some, text_map_char] at h
        exact append_ne_letters hclose hletter hw h

theorem scanned_chars {r : List Char} (hr : '<' ∉ r) (h : Scanned ps) :
    Scanned (r.map .char ++ ps) := by
  induction r with
  | nil => exact h
  | cons c r ih =>
    obtain ⟨hc, hr⟩ := List.ne_and_not_mem_of_not_mem_cons hr
    exact ⟨bracketed_eq_none (by simpa using Ne.symm hc), ih hr⟩

/-- **Texts that fit make no word**: what is put in is read back as it was put. -/
theorem scanned_put {s : List Char} (hs : text ps <:+ s) (h : Scanned ps)
    (hraw : ∀ m r, .word m ∈ ps → raw m = some r → Fits s m r) :
    Scanned (ps.flatMap (put raw)) := by
  induction ps with
  | nil => trivial
  | cons p ps ih =>
    have htail : Scanned (ps.flatMap (put raw)) := by
      refine ih (List.IsSuffix.trans ⟨p.text, rfl⟩ hs) ?_
        fun m r hm => hraw m r (List.mem_cons_of_mem _ hm)
      cases p with
      | char c => exact h.2
      | word m => exact h.2
    rw [List.flatMap_cons]
    cases p with
    | word m =>
      cases hm : raw m with
      | none => rw [put, hm]; exact ⟨h.1, htail⟩
      | some r =>
        rw [put, hm]
        exact scanned_chars (hraw m r List.mem_cons_self hm).opening htail
    | char c =>
      by_cases hpercent : c = '%'
      · rw [put, if_pos hpercent]
        exact scanned_chars (r := ['%', '%']) (by decide) htail
      · rw [put, if_neg hpercent]
        refine ⟨?_, htail⟩
        by_cases hc : c = '<'
        · subst hc
          rw [Option.eq_none_iff_forall_ne_some]
          intro m hm
          obtain ⟨⟨w, hne, hw, rfl⟩, after, hafter⟩ := bracketed_eq_some.mp hm
          have hput : text (ps.flatMap (put raw)) = w ++ '>' :: after := by
            simpa using (List.cons.inj hafter).2.symm
          obtain ⟨rest, hrest⟩ := word_of_put h.2 hw (fun m r letters hm hl hp hmem => by
            have hfits := hraw m r (List.mem_cons_of_mem _ hmem) hm
            refine ⟨hfits.closing, hfits.apart.resolve_right fun hno => hno letters hl ?_⟩
            exact (List.cons_prefix_cons.mpr ⟨rfl, hp⟩).isInfix.trans hs.isInfix) hput
          have hword : bracketed ('<' :: text ps) = some ('<' :: (w ++ ['>'])) :=
            bracketed_eq_some.mpr ⟨⟨w, hne, hw, rfl⟩, rest, by rw [hrest]; simp⟩
          rw [h.1] at hword
          cases hword
        · exact bracketed_eq_none (by simpa using hc)

theorem words_append (ps qs : List Piece) : words (ps ++ qs) = words ps ++ words qs :=
  List.filterMap_append

theorem words_chars (r : List Char) : words (r.map .char) = [] := by
  induction r with
  | nil => rfl
  | cons c r ih => exact ih

/-- The words that stand for no text are left. -/
theorem words_put (raw : List Char → Option (List Char)) (ps : List Piece) :
    words (ps.flatMap (put raw)) = (words ps).filter fun m => (raw m).isNone := by
  induction ps with
  | nil => rfl
  | cons p ps ih =>
    rw [List.flatMap_cons, words_append, ih]
    cases p with
    | char c =>
      rw [put]
      split <;> rfl
    | word m =>
      show _ = (m :: words ps).filter _
      rw [List.filter_cons, put]
      cases raw m with
      | none => rfl
      | some r => rw [Option.elim_some, words_chars]; rfl

theorem replaceFrom_percent {u : List Char} (hu : '%' ∉ u) (new s : List Char) :
    replaceFrom ['%'] new 0 (u ++ s) = u ++ replaceFrom ['%'] new 0 s := by
  induction u with
  | nil => rfl
  | cons c u ih =>
    obtain ⟨hc, hu⟩ := List.ne_and_not_mem_of_not_mem_cons hu
    have hnot : ¬ ['%'] <+: c :: (u ++ s) := fun hp => hc (List.cons_prefix_cons.mp hp).1
    rw [List.cons_append, replaceFrom_char hnot, ih hu]
    rfl

/-- Doubling the percent signs is putting no text in. -/
theorem replace_percent :
    replaceAll s "%" "%%" = text ((pieces s).flatMap (put fun _ => none)) := by
  show replaceFrom ['%'] ['%', '%'] 0 s = _
  induction s using piecewise with
  | nil => rfl
  | word m s hm ih =>
    rw [pieces_word hm, List.flatMap_cons, text_append, ← ih, replaceFrom_percent hm.no_percent]
    simp [put, text, Piece.text]
  | char c s h ih =>
    rw [pieces_char h, List.flatMap_cons, text_append, ← ih, put]
    split
    · next hc =>
      subst hc
      exact replaceFrom_match (List.cons_ne_nil '%' []) ['%', '%'] s
    · next hc =>
      exact replaceFrom_percent (u := [c]) (by simpa using Ne.symm hc) ['%', '%'] s

/-- Replacing one more word. -/
theorem replace_put {old : String} (hold : Bracket old.toList) (h : Scanned (ps.flatMap (put raw)))
    (new : String) :
    replaceAll (text (ps.flatMap (put raw))) old new =
      text (ps.flatMap (put fun m =>
        (raw m).or (if m = old.toList then some new.toList else none))) := by
  rw [replaceAll, replaceFrom_eq hold, h.pieces_text, List.flatMap_assoc, text, List.flatMap_assoc]
  congr 1
  funext p
  cases p with
  | char c =>
    rw [put, put]
    split <;> simp [Piece.text]
  | word m =>
    rw [put, put]
    cases raw m with
    | none =>
      by_cases hm : m = old.toList
      · have := text_map_char new.toList
        rw [text] at this
        simp [hm, this]
      · simp [hm, Piece.text]
    | some r =>
      have hr : (r.map Piece.char).flatMap (fun p => if p = .word old.toList then new.toList
          else p.text) = (r.map Piece.char).flatMap Piece.text := by
        simp [List.flatMap_map]
      exact hr

/-! ## 2. Formats -/

/-- A format: percent signs doubled, a text for some words, a verb for the others. -/
def format (raw : List Char → Option (List Char)) : Piece → List Char
  | .char c => if c = '%' then "%%".toList else [c]
  | .word m => (raw m).getD "%s".toList

/-- What the format gives with `value` of the other words as operands. -/
def formatted (raw : List Char → Option (List Char)) (value : List Char → List Char) :
    Piece → List Char
  | .char c => [c]
  | .word m => (raw m).getD (value m)

theorem substitute_put (h : Scanned (ps.flatMap (put raw))) :
    substitute (fun _ => "%s".toList) (text (ps.flatMap (put raw))) = ps.flatMap (format raw) := by
  rw [substitute, h.pieces_text, List.flatMap_assoc]
  congr 1
  funext p
  cases p with
  | char c =>
    rw [put, format]
    split <;> rfl
  | word m =>
    rw [put, format]
    cases raw m with
    | none => rfl
    | some r => simp [List.flatMap_map]

theorem expand_format (hraw : ∀ m r, .word m ∈ ps → raw m = some r → '%' ∉ r)
    (value : List Char → List Char) :
    Sprintf.expand (ps.flatMap (format raw))
        (((words ps).filter fun m => (raw m).isNone).map value) =
      some (ps.flatMap (formatted raw value)) := by
  induction ps with
  | nil => rfl
  | cons p ps ih =>
    have ih := ih fun m r hm => hraw m r (List.mem_cons_of_mem _ hm)
    rw [List.flatMap_cons, List.flatMap_cons]
    cases p with
    | char c =>
      rw [format, formatted]
      split
      · next hc =>
        subst hc
        exact congrArg (Option.map ('%' :: ·)) ih
      · next hc => exact (Sprintf.expand_char hc _ _).trans (congrArg (Option.map (c :: ·)) ih)
    | word m =>
      show Sprintf.expand _ (((m :: words ps).filter _).map value) = _
      rw [List.filter_cons, format, formatted]
      cases hm : raw m with
      | none => exact congrArg (Option.map (value m ++ ·)) ih
      | some r =>
        have hr : '%' ∉ r := hraw m r List.mem_cons_self hm
        exact (Sprintf.expand_append hr _ _).trans (congrArg (Option.map (r ++ ·)) ih)

theorem verbs_format (hraw : ∀ m r, .word m ∈ ps → raw m = some r → '%' ∉ r) :
    Sprintf.verbs (ps.flatMap (format raw)) =
      ((words ps).filter fun m => (raw m).isNone).length := by
  induction ps with
  | nil => rfl
  | cons p ps ih =>
    have ih := ih fun m r hm => hraw m r (List.mem_cons_of_mem _ hm)
    rw [List.flatMap_cons]
    cases p with
    | char c =>
      rw [format]
      split
      · exact ih
      · next hc => exact (Sprintf.verbs_char hc _).trans ih
    | word m =>
      show _ = ((m :: words ps).filter _).length
      rw [List.filter_cons, format]
      cases hm : raw m with
      | none => exact congrArg (· + 1) ih
      | some r => exact (Sprintf.verbs_append (hraw m r List.mem_cons_self hm) _).trans ih

/-! ## 3. Layout -/

open Layout

theorem not_isLetter_of_isSpace (h : isSpace c = true) : isLetter c = false := by
  rcases Bool.or_eq_true_iff.mp h with h | h
  · have hall : ['\t', '\n', '\x0b', '\x0c', '\r', ' ', '\u0085', '\u00a0', '\u1680',
        '\u2028', '\u2029', '\u202f', '\u205f', '\u3000'].all (!isLetter ·) = true := by decide
    have hc := List.all_eq_true.mp hall c (of_decide_eq_true h)
    simpa using hc
  · have hc : '\u2000' ≤ c := of_decide_eq_true (Bool.and_eq_true_iff.mp h).1
    have hz : ¬ c ≤ 'z' := fun hz => absurd (Char.le_trans hc hz) (by decide)
    rw [isLetter, decide_eq_false hz, Bool.and_false]

theorem Bracket.no_space {m : List Char} (hm : Bracket m) (hc : isSpace c = true) : c ∉ m := by
  refine hm.not_mem (not_isLetter_of_isSpace hc) ?_ ?_ <;>
  · intro h
    subst h
    revert hc
    decide

/-- White space is never part of a word. -/
theorem pieces_space (hc : isSpace c = true) (t : List Char) :
    pieces (s ++ c :: t) = pieces s ++ .char c :: pieces t := by
  induction s using piecewise with
  | nil =>
    refine pieces_char (bracketed_eq_none ?_)
    intro h
    obtain rfl := Option.some.inj h
    revert hc
    decide
  | word m s hm ih => rw [List.append_assoc, pieces_word hm, ih, pieces_word hm]; rfl
  | char d s h ih =>
    have hnone : bracketed (d :: (s ++ c :: t)) = none := by
      rw [Option.eq_none_iff_forall_ne_some] at h ⊢
      intro m hm
      obtain ⟨hbracket, hp⟩ := bracketed_eq_some.mp hm
      rw [← List.cons_append] at hp
      exact h m (bracketed_eq_some.mpr
        ⟨hbracket, hbracket.prefix_of_prefix (hbracket.no_space hc) hp⟩)
    rw [List.cons_append, pieces_char hnone, ih, pieces_char h]
    rfl

theorem blind_words : Blind fun s => words (pieces s) where
  nil := rfl
  space := fun s c t hc => by
    show words (pieces (s ++ c :: t)) = _
    rw [pieces_space s hc, words_append]
    rfl

/-- A text of one line, with no white space at its edges. -/
structure Compact (r : List Char) : Prop where
  line : '\n' ∉ r
  head : ∃ d t, r = d :: t ∧ isSpace d = false
  last : ∃ t d, r = t ++ [d] ∧ isSpace d = false

theorem compact_of_edges {d : Char} {r : List Char} (hline : '\n' ∉ c :: (r ++ [d]))
    (hc : isSpace c = false) (hd : isSpace d = false) : Compact (c :: (r ++ [d])) :=
  ⟨hline, ⟨c, r ++ [d], rfl, hc⟩, ⟨c :: r, d, rfl, hd⟩⟩

theorem compact_singleton (hc : isSpace c = false) : Compact [c] := by
  refine ⟨fun h => ?_, ⟨c, [], rfl, hc⟩, ⟨[], c, rfl, hc⟩⟩
  rw [← List.mem_singleton.mp h] at hc
  revert hc
  decide

/-- A text that starts with no space starts with a piece that has none there. -/
theorem exists_first_piece (hchar : Compact (f (.char c)))
    (hword : ∀ m, Bracket m → Compact (f (.word m))) :
    ∃ p ps, pieces (c :: s) = p :: ps ∧ Compact (f p) := by
  cases h : bracketed (c :: s) with
  | none => exact ⟨_, _, pieces_char h, hchar⟩
  | some m =>
    obtain ⟨hm, rest, hrest⟩ := bracketed_eq_some.mp h
    rw [← hrest]
    exact ⟨_, _, pieces_word hm rest, hword m hm⟩

theorem exists_last_piece (hchar : Compact (f (.char c)))
    (hword : ∀ m, Bracket m → Compact (f (.word m))) :
    ∃ ps p, pieces (s ++ [c]) = ps ++ [p] ∧ Compact (f p) := by
  have htext := text_pieces (s ++ [c])
  rcases List.eq_nil_or_concat (pieces (s ++ [c])) with hnil | ⟨ps, p, hps⟩
  · rw [hnil] at htext
    cases s <;> cases htext
  · rw [List.concat_eq_append] at hps
    refine ⟨ps, p, hps, ?_⟩
    cases p with
    | char d =>
      rw [hps, text_append] at htext
      have hdc : d = c := (List.append_singleton_inj.mp htext).2
      exact hdc ▸ hchar
    | word m =>
      refine hword m (bracket_of_mem_words (s := s ++ [c]) ?_)
      exact mem_words.mpr (hps ▸ List.mem_append_right _ List.mem_cons_self)

theorem solid_pieces (hspace : ∀ c, isSpace c = true → f (.char c) = [c])
    (hchar : ∀ c, isSpace c = false → Compact (f (.char c)))
    (hword : ∀ m, Bracket m → Compact (f (.word m))) : Solid fun s => (pieces s).flatMap f where
  nil := rfl
  space := fun s c t hc => by
    show (pieces (s ++ c :: t)).flatMap f = _
    rw [pieces_space s hc, List.flatMap_append, List.flatMap_cons, hspace c hc]
  head := fun c s hc => by
    obtain ⟨p, ps, hps, hp⟩ := exists_first_piece s (hchar c hc) hword
    obtain ⟨d, t, hd, hspace⟩ := hp.head
    exact ⟨d, t ++ ps.flatMap f, by rw [hps, List.flatMap_cons, hd]; rfl, hspace⟩
  last := fun s c hc => by
    obtain ⟨ps, p, hps, hp⟩ := exists_last_piece s (hchar c hc) hword
    obtain ⟨t, d, hd, hspace⟩ := hp.last
    refine ⟨ps.flatMap f ++ t, d, ?_, hspace⟩
    rw [hps, List.flatMap_append, List.flatMap_singleton, hd, List.append_assoc]
  line := fun s hs => by
    induction s using piecewise with
    | nil => exact List.not_mem_nil
    | word m s hm ih =>
      rw [pieces_word hm, List.flatMap_cons, List.mem_append, not_or]
      exact ⟨(hword m hm).line, ih fun h => hs (List.mem_append_right _ h)⟩
    | char c s h ih =>
      obtain ⟨hc, hs⟩ := List.ne_and_not_mem_of_not_mem_cons hs
      rw [pieces_char h, List.flatMap_cons, List.mem_append, not_or]
      refine ⟨?_, ih hs⟩
      cases hspacec : isSpace c with
      | true => rw [hspace c hspacec]; simpa using hc
      | false => exact (hchar c hspacec).line

theorem solid_format (hraw : ∀ m r, raw m = some r → Compact r) :
    Solid fun s => (pieces s).flatMap (format raw) := by
  refine solid_pieces ?_ ?_ ?_
  · intro c hc
    rw [format, if_neg]
    intro h
    subst h
    revert hc
    decide
  · intro c hc
    rw [format]
    split
    · exact compact_of_edges (c := '%') (d := '%') (r := []) (by simp) rfl rfl
    · exact compact_singleton hc
  · intro m _
    rw [format]
    cases hm : raw m with
    | none => exact compact_of_edges (c := '%') (d := 's') (r := []) (by simp) rfl rfl
    | some r => exact hraw m r hm

theorem flatMap_congr_words {raw' : List Char → Option (List Char)}
    (h : ∀ m ∈ words ps, raw m = raw' m) : ps.flatMap (format raw) = ps.flatMap (format raw') := by
  refine List.flatMap_congr fun p hp => ?_
  cases p with
  | char c => rfl
  | word m => rw [format, format, h m (mem_words.mpr hp)]

/-- **The layout of a format is the format of the layout.** -/
theorem layout_format {dedent : List Char → List Char} (hdedent : Dedents dedent) {s : List Char}
    (hraw : ∀ m r, m ∈ words (pieces s) → raw m = some r → Compact r) :
    trimSpace (dedent ((pieces s).flatMap (format raw))) =
      (pieces (trimSpace (dedent s))).flatMap (format raw) := by
  -- other words than those of the text do not matter
  let used : List Char → Option (List Char) :=
    fun m => if m ∈ words (pieces s) then raw m else none
  have hsolid : Solid fun s => (pieces s).flatMap (format used) := solid_format fun m r hm => by
    obtain ⟨hmem, hm⟩ := Option.ite_none_right_eq_some.mp hm
    exact hraw m r hmem hm
  have hused : ∀ m ∈ words (pieces s), raw m = used m := fun m hm => (if_pos hm).symm
  have hlayout : words (pieces (trimSpace (dedent s))) = words (pieces s) :=
    (blind_words.trimSpace _).trans (hdedent.blind blind_words s)
  rw [flatMap_congr_words hused, hdedent.solid hsolid, hsolid.trimSpace]
  exact (flatMap_congr_words (hlayout ▸ hused)).symm

end Ldap2pg.Lib.Template
