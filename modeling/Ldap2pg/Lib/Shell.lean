import Mathlib.Data.List.Basic
import Mathlib.Data.List.Count

/-! # How a POSIX shell reads a command line

The lexer goes through the characters of a line in one of a few modes: outside of quotes,
in quotes, after a backslash, in a comment. It cuts the line in words and operators.
A word that holds a `*`, `?` or `[` outside of quotes stands for the files that match
it, if there are any. Expansions (`$` and backquotes) are not read. -/
namespace Ldap2pg.Lib.Shell

variable {c : Char}

inductive Mode where
  | bare | escape | single | double | doubleEscape | comment
  deriving DecidableEq

/-- The word being read, if one has begun, and whether it is a pattern. -/
abbrev Word := Option (List Char × Bool)

inductive Token where
  | word (text : List Char) (pattern : Bool)
  | operator (c : Char)
  deriving DecidableEq

def isBlank (c : Char) : Bool := c == ' ' || c == '\t'

def isOperator (c : Char) : Bool := [';', '&', '|', '<', '>', '(', ')', '\n'].contains c

def isGlob (c : Char) : Bool := ['*', '?', '['].contains c

def isExpansion (c : Char) : Bool := c == '$' || c == '`'

/-- An empty pair of quotes begins a word too. -/
def begun (w : Word) : Word := some (w.getD ([], false))

def push (w : Word) (c : Char) (pattern : Bool) : Word :=
  let w := w.getD ([], false)
  some (w.1 ++ [c], w.2 || pattern)

def flush : Word → List Token
  | none => []
  | some (text, pattern) => [.word text pattern]

/-- One character: the tokens that end there, the next mode and word. -/
def step (m : Mode) (w : Word) (c : Char) : Option (List Token × Mode × Word) :=
  match m with
  | .bare =>
    if c = '\'' then some ([], .single, begun w)
    else if c = '"' then some ([], .double, begun w)
    else if c = '\\' then some ([], .escape, w)
    else if isExpansion c then none
    else if isBlank c then some (flush w, .bare, none)
    else if isOperator c then some (flush w ++ [.operator c], .bare, none)
    else if c = '#' ∧ w = none then some ([], .comment, none)
    else some ([], .bare, push w c (isGlob c))
  | .escape => if c = '\n' then some ([], .bare, w) else some ([], .bare, push w c false)
  | .single => if c = '\'' then some ([], .bare, w) else some ([], .single, push w c false)
  | .double =>
    if c = '"' then some ([], .bare, w)
    else if c = '\\' then some ([], .doubleEscape, w)
    else if isExpansion c then none
    else some ([], .double, push w c false)
  | .doubleEscape =>
    if c = '\n' then some ([], .double, w)
    else if isExpansion c ∨ c = '"' ∨ c = '\\' then some ([], .double, push w c false)
    else some ([], .double, push (push w '\\' false) c false)
  | .comment =>
    if c = '\n' then some ([.operator c], .bare, none) else some ([], .comment, none)

/-- The end of the line. The shell asks for more inside quotes and after a backslash. -/
def finish : Mode → Word → Option (List Token)
  | .bare, w => some (flush w)
  | .comment, _ => some []
  | _, _ => none

def lex : Mode → Word → List Char → Option (List Token)
  | m, w, [] => finish m w
  | m, w, c :: s =>
    match step m w c with
    | none => none
    | some (out, m', w') => (lex m' w' s).map (out ++ ·)

/-- What a token gives to a command: an operator ends the command or opens a file. -/
def expand (files : List Char → List (List Char)) : Token → Option (List (List Char))
  | .operator _ => none
  | .word text false => some [text]
  | .word text true => some (if files text = [] then [text] else files text)

/-- The words of a line that is one simple command. -/
def words (files : List Char → List (List Char)) (line : List Char) :
    Option (List (List Char)) := do
  let tokens ← lex .bare none line
  return (← tokens.mapM (expand files)).flatten

def text (w : Word) : List Char := (w.getD ([], false)).1

/-! ## Texts that are read as they are -/

variable {w : Word} {s : List Char}

/-- The word, with some characters added to it. -/
def extend (w : Word) (p : List Char) : Word :=
  let w := w.getD ([], false)
  some (w.1 ++ p, w.2)

@[simp] theorem text_extend (w : Word) (p : List Char) : text (extend w p) = text w ++ p := rfl

theorem extend_extend (w : Word) (p q : List Char) :
    extend (extend w p) q = extend w (p ++ q) := by
  simp [extend]

theorem push_extend (w : Word) (p : List Char) (c : Char) :
    push (extend w p) c false = extend w (p ++ [c]) := by
  simp [push, extend]

theorem lex_cons {m m' : Mode} {w' : Word} (h : step m w c = some ([], m', w')) :
    lex m w (c :: s) = lex m' w' s := by
  rw [lex, h]
  simp

/-- Inside single quotes. -/
theorem lex_single {p : List Char} (hp : '\'' ∉ p) (q : List Char) :
    lex .single (extend w q) (p ++ '\'' :: s) = lex .bare (extend w (q ++ p)) s := by
  induction p generalizing q with
  | nil =>
    rw [List.append_nil, List.nil_append]
    exact lex_cons rfl
  | cons c p ih =>
    obtain ⟨hc, hp⟩ := not_or.mp (mt List.mem_cons.mpr hp)
    have hstep : step .single (extend w q) c = some ([], .single, extend w (q ++ [c])) := by
      rw [step, if_neg (Ne.symm hc), push_extend]
    rw [List.cons_append, lex_cons hstep, ih hp, List.append_assoc, List.singleton_append]

theorem lex_quoted {p : List Char} (hp : '\'' ∉ p) :
    lex .bare w ('\'' :: (p ++ '\'' :: s)) = lex .bare (extend w p) s := by
  have hbegun : begun w = extend w [] := by simp [begun, extend]
  have hstep : step .bare w '\'' = some ([], .single, extend w []) := by rw [← hbegun]; rfl
  rw [lex_cons hstep, lex_single hp, List.nil_append]

/-- A single quote between double quotes. -/
theorem lex_quote : lex .bare w ('"' :: '\'' :: '"' :: s) = lex .bare (extend w ['\'']) s := by
  have hbegun : begun w = extend w [] := by simp [begun, extend]
  have hopen : step .bare w '"' = some ([], .double, extend w []) := by rw [← hbegun]; rfl
  have hquote : step .double (extend w []) '\'' = some ([], .double, extend w ['\'']) := by
    rw [← List.nil_append ['\''], ← push_extend]
    rfl
  rw [lex_cons hopen, lex_cons hquote]
  exact lex_cons rfl

/-- A character that stands for itself outside of quotes, at the start of a word or not. -/
def Literal (start : Bool) (c : Char) : Prop :=
  c ≠ '\'' ∧ c ≠ '"' ∧ c ≠ '\\' ∧ isExpansion c = false ∧ isBlank c = false ∧
    isOperator c = false ∧ isGlob c = false ∧ (start = true → c ≠ '#')

theorem step_literal (h : Literal w.isNone c) :
    step .bare w c = some ([], .bare, extend w [c]) := by
  obtain ⟨hsingle, hdouble, hescape, hexpansion, hblank, hoperator, hglob, hcomment⟩ := h
  have hnocomment : ¬ (c = '#' ∧ w = none) := fun ⟨hc, hw⟩ => hcomment (by rw [hw]; rfl) hc
  rw [step, if_neg hsingle, if_neg hdouble, if_neg hescape, if_neg (by simp [hexpansion]),
    if_neg (by simp [hblank]), if_neg (by simp [hoperator]), if_neg hnocomment, hglob]
  simp [push, extend]

/-- Characters that all stand for themselves. -/
theorem lex_literal {p : List Char} (hp : ∀ c ∈ p, Literal false c)
    (hstart : ∀ c ∈ p.head?, Literal w.isNone c) (hne : p ≠ []) :
    lex .bare w (p ++ s) = lex .bare (extend w p) s := by
  cases p with
  | nil => exact absurd rfl hne
  | cons c p =>
    rw [List.cons_append, lex_cons (step_literal (hstart c rfl))]
    have hrest := (List.forall_mem_cons.mp hp).2
    suffices h : ∀ q, lex .bare (extend w q) (p ++ s) = lex .bare (extend w (q ++ p)) s from h [c]
    clear hp hstart hne
    induction p with
    | nil => simp
    | cons d p ih =>
      intro q
      obtain ⟨hd, hrest⟩ := List.forall_mem_cons.mp hrest
      have hd : Literal (extend w q).isNone d := hd
      rw [List.cons_append, lex_cons (step_literal hd), extend_extend, ih hrest, List.append_assoc,
        List.singleton_append]

/-! ## Characters that are lost -/

def Token.text : Token → List Char
  | .word text _ => text
  | .operator _ => []

variable {tokens : List Token}

def texts (tokens : List Token) : List Char := tokens.flatMap Token.text

/-- How often a character is in the word being read. A backslash in double quotes waits for
the next character. -/
def held (k : Char) (m : Mode) (w : Word) : Nat :=
  (text w).count k + if m = .doubleEscape ∧ '\\' = k then 1 else 0

@[simp] theorem texts_nil : texts [] = [] := rfl

@[simp] theorem texts_operator (c : Char) : texts [.operator c] = [] := rfl

@[simp] theorem texts_append (l l' : List Token) : texts (l ++ l') = texts l ++ texts l' :=
  List.flatMap_append

@[simp] theorem text_none : text none = [] := rfl

@[simp] theorem texts_flush (w : Word) : texts (flush w) = text w := by
  cases w with
  | none => rfl
  | some w => exact List.append_nil _

@[simp] theorem text_push (w : Word) (c : Char) (pattern : Bool) :
    text (push w c pattern) = text w ++ [c] := rfl

@[simp] theorem text_begun (w : Word) : text (begun w) = text w := rfl

/-- **No character is read twice.** -/
theorem step_count {m m' : Mode} {w' : Word} {out : List Token}
    (h : step m w c = some (out, m', w')) (k : Char) :
    (texts out).count k + held k m' w' ≤ held k m w + [c].count k := by
  cases m with
  | bare =>
    simp only [step] at h
    split_ifs at h <;> cases h <;> simp [held]
  | escape =>
    simp only [step] at h
    split_ifs at h <;> cases h <;> simp [held]
  | single =>
    simp only [step] at h
    split_ifs at h <;> cases h <;> simp [held]
  | double =>
    simp only [step] at h
    split_ifs at h with hend hescape hexpansion <;> cases h
    · simp [held]
    · simp [held, hescape, List.count_singleton]
    · simp [held]
  | doubleEscape =>
    simp only [step] at h
    split_ifs at h with hline hspecial <;> cases h
    · simp [held]
      omega
    · simp [held]
    · simp [held, List.count_cons]
      omega
  | comment =>
    simp only [step] at h
    split_ifs at h <;> cases h <;> simp [held]

theorem lex_count {m : Mode} (h : lex m w s = some tokens) (k : Char) :
    (texts tokens).count k ≤ held k m w + s.count k := by
  induction s generalizing m w tokens with
  | nil =>
    rw [lex] at h
    cases m <;> cases h <;> simp [held]
  | cons c s ih =>
    rw [lex] at h
    cases hstep : step m w c with
    | none => rw [hstep] at h; cases h
    | some r =>
      obtain ⟨out, m', w'⟩ := r
      rw [hstep] at h
      obtain ⟨rest, hrest, rfl⟩ := Option.map_eq_some_iff.mp h
      have hone := step_count hstep k
      have hmore := ih hrest
      rw [texts_append, List.count_append, ← List.singleton_append, List.count_append]
      omega

/-- A character that is in no word, outside of quotes. -/
def Lost (start : Bool) (c : Char) : Prop :=
  c ∈ ['\\', ' ', '\t', ';', '&', '|', '<', '>', '(', ')', '\n'] ∨ start = true ∧ c = '#'

theorem step_lost (hc : Lost w.isNone c) : ∃ out m' w',
    step .bare w c = some (out, m', w') ∧ texts out ++ text w' = text w ∧ m' ≠ .doubleEscape := by
  rcases hc with hc | ⟨hstart, rfl⟩
  · simp only [List.mem_cons, List.not_mem_nil, or_false] at hc
    rcases hc with rfl | rfl | rfl | rfl | rfl | rfl | rfl | rfl | rfl | rfl | rfl
    · exact ⟨_, _, _, rfl, rfl, Mode.noConfusion⟩
    all_goals exact ⟨_, _, _, rfl, by simp, Mode.noConfusion⟩
  · obtain rfl := Option.isNone_iff_eq_none.mp hstart
    exact ⟨_, _, _, rfl, rfl, Mode.noConfusion⟩

theorem lex_lost (hc : Lost w.isNone c) (h : lex .bare w (c :: s) = some tokens) :
    (texts tokens).count c < (text w).count c + (c :: s).count c := by
  obtain ⟨out, m', w', hstep, htexts, hmode⟩ := step_lost hc
  rw [lex, hstep] at h
  obtain ⟨rest, hrest, rfl⟩ := Option.map_eq_some_iff.mp h
  have hmore := lex_count hrest c
  have hheld : held c m' w' = (text w').count c := by simp [held, hmode]
  have hsum : (texts out).count c + (text w').count c = (text w).count c := by
    rw [← List.count_append, htexts]
  rw [texts_append, List.count_append, List.count_cons_self]
  omega

/-! ## Patterns -/

/-- The word being read is a pattern. -/
def IsPattern (m : Mode) (w : Word) : Prop := m ≠ .comment ∧ ∃ text, w = some (text, true)

theorem isPattern_push (w : Word) (c : Char) : IsPattern .bare (push w c true) :=
  ⟨Mode.noConfusion, (w.getD ([], false)).1 ++ [c], by simp [push]⟩

theorem step_pattern {m m' : Mode} {w' : Word} {out : List Token} (hw : IsPattern m w)
    (h : step m w c = some (out, m', w')) : IsPattern m' w' ∨ ∃ text, .word text true ∈ out := by
  obtain ⟨hm, text, rfl⟩ := hw
  cases m with
  | comment => exact absurd rfl hm
  | bare =>
    have hnocomment : ¬ (c = '#' ∧ some (text, true) = (none : Word)) := fun h => nomatch h.2
    simp only [step, if_neg hnocomment] at h
    split_ifs at h <;> cases h <;> simp [IsPattern, begun, push, flush]
  | escape =>
    simp only [step] at h
    split_ifs at h <;> cases h <;> simp [IsPattern, push]
  | single =>
    simp only [step] at h
    split_ifs at h <;> cases h <;> simp [IsPattern, push]
  | double =>
    simp only [step] at h
    split_ifs at h <;> cases h <;> simp [IsPattern, push]
  | doubleEscape =>
    simp only [step] at h
    split_ifs at h <;> cases h <;> simp [IsPattern, push]

theorem lex_pattern {m : Mode} (hw : IsPattern m w) (h : lex m w s = some tokens) :
    ∃ text, .word text true ∈ tokens := by
  induction s generalizing m w tokens with
  | nil =>
    obtain ⟨hm, text, rfl⟩ := hw
    rw [lex] at h
    cases m with
    | comment => exact absurd rfl hm
    | bare => cases h; exact ⟨text, List.mem_cons_self⟩
    | _ => cases h
  | cons c s ih =>
    rw [lex] at h
    cases hstep : step m w c with
    | none => rw [hstep] at h; cases h
    | some r =>
      obtain ⟨out, m', w'⟩ := r
      rw [hstep] at h
      obtain ⟨rest, hrest, rfl⟩ := Option.map_eq_some_iff.mp h
      rcases step_pattern hw hstep with hw' | ⟨text, htext⟩
      · obtain ⟨text, htext⟩ := ih hw' hrest
        exact ⟨text, List.mem_append_right _ htext⟩
      · exact ⟨text, List.mem_append_left _ htext⟩

/-! ## The words of a line -/

theorem mapM_expand_cons {files : List Char → List (List Char)} {t : Token}
    {l : List (List (List Char))} (h : (t :: tokens).mapM (expand files) = some l) :
    ∃ first rest, expand files t = some first ∧ tokens.mapM (expand files) = some rest ∧
      l = first :: rest := by
  rw [List.mapM_cons] at h
  obtain ⟨first, hfirst, h⟩ := Option.bind_eq_some_iff.mp h
  obtain ⟨rest, hrest, h⟩ := Option.bind_eq_some_iff.mp h
  exact ⟨first, rest, hfirst, hrest, (Option.some.inj h).symm⟩

/-- A pattern is seen in a directory where it matches two files, or none. -/
theorem plain_of_expand {l l' : List (List (List Char))}
    (h : tokens.mapM (expand fun _ => []) = some l)
    (h' : tokens.mapM (expand fun _ => [[], []]) = some l') :
    l.flatten.length ≤ l'.flatten.length ∧
      (l'.flatten.length ≤ l.flatten.length → tokens = l.flatten.map (.word · false)) := by
  induction tokens generalizing l l' with
  | nil =>
    cases h
    exact ⟨Nat.zero_le _, fun _ => rfl⟩
  | cons t tokens ih =>
    obtain ⟨first, rest, hfirst, hrest, rfl⟩ := mapM_expand_cons h
    obtain ⟨first', rest', hfirst', hrest', rfl⟩ := mapM_expand_cons h'
    obtain ⟨hle, hplain⟩ := ih hrest hrest'
    cases t with
    | operator c => cases hfirst
    | word text pattern =>
      cases pattern with
      | false =>
        cases hfirst
        cases hfirst'
        refine ⟨by simpa using hle, fun hge => ?_⟩
        rw [hplain (by simpa using hge)]
        rfl
      | true =>
        cases hfirst
        cases hfirst'
        simp only [if_true, List.flatten_cons, List.length_append, List.length_cons, List.length_nil,
          reduceCtorEq, if_false]
        exact ⟨by omega, fun hge => by omega⟩

/-- **A line gives some words in every directory** exactly when these are its tokens, none of
them a pattern. -/
theorem words_iff {line : List Char} {args : List (List Char)} :
    (∀ files, words files line = some args) ↔
      lex .bare none line = some (args.map (.word · false)) := by
  constructor
  · intro h
    obtain ⟨tokens, htokens, hnone⟩ := Option.bind_eq_some_iff.mp (h fun _ => [])
    obtain ⟨tokens', htokens', htwo⟩ := Option.bind_eq_some_iff.mp (h fun _ => [[], []])
    obtain rfl := Option.some.inj (htokens.symm.trans htokens')
    obtain ⟨l, hl, hflat⟩ := Option.bind_eq_some_iff.mp hnone
    obtain ⟨l', hl', hflat'⟩ := Option.bind_eq_some_iff.mp htwo
    have hargs : l.flatten = args := Option.some.inj hflat
    have hargs' : l'.flatten = args := Option.some.inj hflat'
    have hlen : l'.flatten.length ≤ l.flatten.length :=
      Nat.le_of_eq (congrArg List.length (hargs'.trans hargs.symm))
    rw [htokens, ← hargs, ← (plain_of_expand hl hl').2 hlen]
  · intro h files
    have hexpand : (args.map (Token.word · false)).mapM (expand files) = some (args.map ([·])) := by
      rw [List.mapM_map]
      exact List.mapM_pure
    rw [words, h]
    show ((args.map (Token.word · false)).mapM (expand files)).bind _ = _
    rw [hexpand]
    exact congrArg some (List.flatMap_singleton' args)

end Ldap2pg.Lib.Shell
