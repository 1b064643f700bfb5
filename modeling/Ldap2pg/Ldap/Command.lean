import Ldap2pg.Lib.Shell
import Ldap2pg.Lib.Text

/-! # Logged commands

Searches are logged as `ldapsearch` commands to be pasted in a shell. Each argument is
cut at its single quotes; a part is quoted if it has a special character. The list of
special characters has not all those of a shell: `;` or a backslash is left
outside of quotes. -/
namespace Ldap2pg.Ldap.Command
open Lib

variable {p : List Char}

def specialChars : List Char := [' ', '"', '*', '!', '(', ')', '[', ']', '{', '}', '`']

/-- `NeedsQuote`. The special characters are ASCII, so the first byte of a character tells. -/
def needsQuote (s : List Char) : Bool := s.isEmpty || s.any specialChars.contains

/-- What `ShellQuote` writes for a part between single quotes. -/
def quotePart (part : List Char) : List Char :=
  if part = [] then []
  else if needsQuote part then '\'' :: (part ++ ['\''])
  else part

/-- `ShellQuote`. -/
def shellQuote (arg : List Char) : List Char :=
  if arg = [] then ['\'', '\'']
  else (arg.splitOn '\'').zipIdx.flatMap fun part =>
    (if 0 < part.2 then ['"', '\'', '"'] else []) ++ quotePart part.1

structure Client where
  uri : String := ""
  bindDN : String := ""
  saslMech : String := ""
  saslAuthCID : String := ""
  timeout : Int := 0
  password : String := ""

section Code
variable (seconds : Int → String) (c : Client) (name : String) (args : List String)

/-- The arguments of `Command`. `seconds` is `Sprintf("%.0f", timeout.Seconds())`. -/
def Client.words : List String :=
  [name] ++ (if c.uri ≠ "" then ["-H", c.uri] else []) ++
    (if c.timeout ≠ 0 ∧ name = "ldapsearch" then ["-l", seconds c.timeout] else []) ++
    (if c.bindDN ≠ "" then ["-D", c.bindDN] else []) ++
    (if c.saslMech = "" then ["-x"] else ["-Y", c.saslMech]) ++
    (if c.saslAuthCID ≠ "" then ["-U", c.saslAuthCID] else []) ++
    (if c.password ≠ "" then ["-w", "$LDAPPASSWORD"] else []) ++ args

/-- `strings.Join(cmd, " ")`, for arguments that are quoted. -/
def join (cmd : List (List Char)) : List Char := [' '].intercalate (cmd.map shellQuote)

/-- `Client.Command`. -/
def Client.command : String :=
  String.ofList (join ((c.words seconds name args).map String.toList))

end Code

/-- The characters that a shell takes apart and that `specialChars` does not list. -/
def unlisted : List Char := ['\\', '\t', ';', '&', '|', '<', '>', '\n', '?']

/-- A part that is left as it is has no such character and, where it begins the argument, no
`#` at its start. -/
def PartRead (start : Bool) (part : List Char) : Prop :=
  needsQuote part = false → (∀ c ∈ part, c ∉ unlisted) ∧ (start = true → part.head? ≠ some '#')

instance (start : Bool) (part : List Char) : Decidable (PartRead start part) :=
  inferInstanceAs (Decidable (needsQuote part = false →
    (∀ c ∈ part, c ∉ unlisted) ∧ (start = true → part.head? ≠ some '#')))

/-- The parts after the first one follow a quote. -/
def partsRead : List (List Char) → Prop
  | [] => True
  | part :: parts => PartRead true part ∧ ∀ part ∈ parts, PartRead false part

instance : (parts : List (List Char)) → Decidable (partsRead parts)
  | [] => .isTrue trivial
  | part :: parts =>
    inferInstanceAs (Decidable (PartRead true part ∧ ∀ part ∈ parts, PartRead false part))

/-- The argument comes through the shell. -/
def Read (arg : List Char) : Prop := partsRead (arg.splitOn '\'')

instance (arg : List Char) : Decidable (Read arg) :=
  inferInstanceAs (Decidable (partsRead (arg.splitOn '\'')))

section Parts
variable {w : Shell.Word} {s : List Char}

/-- Something is lost, or made a pattern, in what is read of a text after `w`. -/
def Damaged (w : Shell.Word) (source : List Char) (tokens : List Shell.Token) : Prop :=
  (∃ text, .word text true ∈ tokens) ∨ ∃ k, k ∉ [' ', '\'', '"'] ∧
    (Shell.texts tokens).count k < (Shell.text w).count k + source.count k

theorem Damaged.of_extend {source : List Char} {tokens : List Shell.Token}
    (h : Damaged (Shell.extend w p) source tokens) : Damaged w (p ++ source) tokens := by
  refine h.imp_right fun ⟨k, hk, hcount⟩ => ⟨k, hk, ?_⟩
  rw [Shell.text_extend, List.count_append] at hcount
  rw [List.count_append]
  omega

theorem literal_of_listed {start : Bool} {c : Char} (hspecial : c ∉ specialChars) (hquote : c ≠ '\'')
    (hdollar : c ≠ '$') (hlisted : c ∉ unlisted) (hcomment : start = true → c ≠ '#') :
    Shell.Literal start c := by
  simp only [specialChars, List.mem_cons, List.not_mem_nil, or_false, not_or] at hspecial
  simp only [unlisted, List.mem_cons, List.not_mem_nil, or_false, not_or] at hlisted
  refine ⟨hquote, ?_, ?_, ?_, ?_, ?_, ?_, hcomment⟩
  all_goals simp [Shell.isExpansion, Shell.isBlank, Shell.isOperator, Shell.isGlob, hspecial, hdollar,
    hlisted]

theorem lost_of_unlisted {start : Bool} {c : Char} (h : c ∈ unlisted) (hglob : c ≠ '?') :
    Shell.Lost start c := by
  simp only [unlisted, List.mem_cons, List.not_mem_nil, or_false, hglob] at h
  refine .inl ?_
  rcases h with rfl | rfl | rfl | rfl | rfl | rfl | rfl | rfl <;> decide

/-- Characters that are not quoted come through, or are damaged. -/
theorem lex_bare (hspecial : ∀ c ∈ p, c ∉ specialChars) (hquote : '\'' ∉ p) (hdollar : '$' ∉ p) :
    ((∀ c ∈ p, c ∉ unlisted) ∧ (w.isNone = true → p.head? ≠ some '#')) ∨
      ∀ tokens, Shell.lex .bare w (p ++ s) = some tokens → Damaged w (p ++ s) tokens := by
  induction p generalizing w with
  | nil => exact .inl ⟨nofun, fun _ => nofun⟩
  | cons c p ih =>
    obtain ⟨hc, hspecial⟩ := List.forall_mem_cons.mp hspecial
    obtain ⟨hcquote, hquote⟩ := not_or.mp (mt List.mem_cons.mpr hquote)
    obtain ⟨hcdollar, hdollar⟩ := not_or.mp (mt List.mem_cons.mpr hdollar)
    have hdamaged : Shell.Lost w.isNone c → ∀ tokens,
        Shell.lex .bare w (c :: p ++ s) = some tokens → Damaged w (c :: p ++ s) tokens := by
      intro hlost tokens h
      refine .inr ⟨c, ?_, Shell.lex_lost hlost h⟩
      simp only [specialChars, List.mem_cons, not_or] at hc
      simp [hc, Ne.symm hcquote]
    by_cases hunlisted : c ∈ unlisted
    · right
      by_cases hglob : c = '?'
      · subst hglob
        intro tokens h
        have hstep : Shell.step .bare w '?' = some ([], .bare, Shell.push w '?' true) := rfl
        rw [List.cons_append, Shell.lex_cons hstep] at h
        exact .inl (Shell.lex_pattern (Shell.isPattern_push w '?') h)
      · exact hdamaged (lost_of_unlisted hunlisted hglob)
    by_cases hcomment : w.isNone = true ∧ c = '#'
    · exact .inr (hdamaged (.inr hcomment))
    have hstart : w.isNone = true → c ≠ '#' := fun hw he => hcomment ⟨hw, he⟩
    rcases ih (w := Shell.extend w [c]) hspecial hquote hdollar with ⟨hgood, -⟩ | hbad
    · left
      exact ⟨List.forall_mem_cons.mpr ⟨hunlisted, hgood⟩, fun hw he => hstart hw (Option.some.inj he)⟩
    · right
      intro tokens h
      have hliteral := literal_of_listed hc (Ne.symm hcquote) (Ne.symm hcdollar) hunlisted hstart
      rw [List.cons_append, Shell.lex_cons (Shell.step_literal hliteral)] at h
      exact (hbad tokens h).of_extend

theorem needsQuote_eq_false (h : needsQuote p = false) : p ≠ [] ∧ ∀ c ∈ p, c ∉ specialChars := by
  simpa [needsQuote] using h

/-- `source` is read as `p` after `w`, whatever follows, if `good`; else it is damaged. -/
def Reading (good : Prop) (w : Shell.Word) (p source : List Char) : Prop :=
  good ∧ (∀ s, Shell.lex .bare w (source ++ s) = Shell.lex .bare (Shell.extend w p) s) ∨
    ¬ good ∧ ∀ s tokens, Shell.lex .bare w (source ++ s) = some tokens →
      Damaged w (source ++ s) tokens

/-- Quotes apart, the same characters. -/
def SameCount (p source : List Char) : Prop := ∀ k ∉ [' ', '\'', '"'], source.count k = p.count k

theorem Reading.append {good good' : Prop} {p' source source' : List Char}
    (h : Reading good w p source) (h' : Reading good' (Shell.extend w p) p' source')
    (hcount : SameCount p source) : Reading (good ∧ good') w (p ++ p') (source ++ source') := by
  rcases h with ⟨hgood, hlex⟩ | ⟨hbad, hdamaged⟩
  · rcases h' with ⟨hgood', hlex'⟩ | ⟨hbad', hdamaged'⟩
    · refine .inl ⟨⟨hgood, hgood'⟩, fun s => ?_⟩
      rw [List.append_assoc, hlex, hlex', Shell.extend_extend]
    · refine .inr ⟨fun h => hbad' h.2, fun s tokens h => ?_⟩
      rw [List.append_assoc] at h ⊢
      rw [hlex] at h
      refine (hdamaged' s tokens h).imp_right fun ⟨k, hk, hlt⟩ => ⟨k, hk, ?_⟩
      rw [Shell.text_extend, List.count_append, ← hcount k hk] at hlt
      rw [List.count_append]
      omega
  · refine .inr ⟨fun h => hbad h.1, fun s tokens h => ?_⟩
    rw [List.append_assoc] at h ⊢
    exact hdamaged _ tokens h

theorem Reading.congr {good good' : Prop} {source : List Char} (h : Reading good w p source)
    (hgood : good ↔ good') : Reading good' w p source := by
  unfold Reading at h ⊢
  rwa [hgood] at h

/-- **A part comes through, or is damaged.** -/
theorem reading_part (hquote : '\'' ∉ p) (hdollar : '$' ∉ p) (hne : p ≠ []) :
    Reading (PartRead w.isNone p) w p (quotePart p) := by
  rw [quotePart, if_neg hne]
  by_cases hneeds : needsQuote p = true
  · rw [if_pos hneeds]
    refine .inl ⟨fun h => absurd hneeds (by simp [h]), fun s => ?_⟩
    rw [List.cons_append, List.append_assoc]
    exact Shell.lex_quoted hquote
  · rw [if_neg hneeds]
    have hbare : needsQuote p = false := by simpa using hneeds
    obtain ⟨-, hspecial⟩ := needsQuote_eq_false hbare
    by_cases hread : PartRead w.isNone p
    · obtain ⟨hlisted, hstart⟩ := hread hbare
      have hliteral : ∀ {start : Bool}, ∀ c ∈ p, (start = true → c ≠ '#') → Shell.Literal start c :=
        fun c hc hcomment => literal_of_listed (hspecial c hc) (fun he => hquote (he ▸ hc))
          (fun he => hdollar (he ▸ hc)) (hlisted c hc) hcomment
      refine .inl ⟨hread, fun s => Shell.lex_literal (fun c hc => hliteral c hc nofun) ?_ hne⟩
      intro c hc
      exact hliteral c (List.mem_of_mem_head? hc) fun hw he => hstart hw (he ▸ hc)
    · refine .inr ⟨hread, fun s => ?_⟩
      exact (lex_bare hspecial hquote hdollar).resolve_left fun h => hread fun _ => h

theorem sameCount_part (p : List Char) : SameCount p (quotePart p) := by
  intro k hk
  simp only [List.mem_cons, List.not_mem_nil, or_false, not_or] at hk
  unfold quotePart
  split
  case isTrue h => rw [h]
  case isFalse h =>
    split
    · simp [List.count_append, Ne.symm hk.2.1]
    · rfl

/-- A word that has begun is the same after an empty part. -/
theorem reading_nil {good : Prop} (hgood : good) (hw : w.isNone = false) : Reading good w [] [] := by
  obtain ⟨⟨text, pattern⟩, rfl⟩ := Option.isSome_iff_exists.mp (by simpa using hw : w.isSome)
  refine .inl ⟨hgood, fun s => ?_⟩
  simp [Shell.extend]

theorem reading_quote : Reading True w ['\''] ['"', '\'', '"'] := .inl ⟨trivial, fun _ => Shell.lex_quote⟩

/-- What is written after the first part. -/
def quoteRest (parts : List (List Char)) : List Char :=
  parts.flatMap fun part => ['"', '\'', '"'] ++ quotePart part

/-- The characters after the first part. -/
def afterFirst (parts : List (List Char)) : List Char := parts.flatMap fun part => '\'' :: part

theorem reading_rest {parts : List (List Char)} (hquote : ∀ part ∈ parts, '\'' ∉ part)
    (hdollar : ∀ part ∈ parts, '$' ∉ part) (hw : parts = [] → w.isNone = false) :
    Reading (∀ part ∈ parts, PartRead false part) w (afterFirst parts) (quoteRest parts) := by
  induction parts generalizing w with
  | nil => exact reading_nil nofun (hw rfl)
  | cons part parts ih =>
    obtain ⟨hq, hquote⟩ := List.forall_mem_cons.mp hquote
    obtain ⟨hd, hdollar⟩ := List.forall_mem_cons.mp hdollar
    have hpart : Reading (PartRead false part) (Shell.extend w ['\'']) part (quotePart part) := by
      by_cases hnil : part = []
      · subst hnil
        exact reading_nil nofun rfl
      · have hread := reading_part (w := Shell.extend w ['\'']) hq hd hnil
        exact hread
    have hquoted : SameCount ['\''] ['"', '\'', '"'] := by
      intro k hk
      simp only [List.mem_cons, List.not_mem_nil, or_false, not_or] at hk
      simp [Ne.symm hk.2.1, Ne.symm hk.2.2]
    have hfirst := reading_quote.append hpart hquoted
    have hcount : SameCount (['\''] ++ part) (['"', '\'', '"'] ++ quotePart part) := by
      intro k hk
      rw [List.count_append, List.count_append, hquoted k hk, sameCount_part part k hk]
    refine (hfirst.append (ih hquote hdollar fun _ => rfl) hcount).congr ?_
    rw [true_and, List.forall_mem_cons]

end Parts

section Arguments

theorem shellQuote_eq {arg : List Char} {parts : List (List Char)} (hne : arg ≠ [])
    (h : arg.splitOn '\'' = p :: parts) : shellQuote arg = quotePart p ++ quoteRest parts := by
  have hrest : ∀ n, 0 < n → ((parts.zipIdx n).flatMap fun part =>
      (if 0 < part.2 then ['"', '\'', '"'] else []) ++ quotePart part.1) = quoteRest parts := by
    clear h
    induction parts with
    | nil => intro n _; rfl
    | cons q parts ih =>
      intro n hn
      rw [List.zipIdx_cons, List.flatMap_cons, if_pos hn, ih (n + 1) n.succ_pos]
      rfl
  rw [shellQuote, if_neg hne, h, List.zipIdx_cons, List.flatMap_cons, hrest 1 Nat.one_pos]
  rfl

/-- **An argument comes through, or is damaged.** -/
theorem reading_arg {arg : List Char} (hdollar : '$' ∉ arg) :
    Reading (Read arg) none arg (shellQuote arg) := by
  by_cases hnil : arg = []
  · subst hnil
    exact .inl ⟨⟨nofun, nofun⟩, fun s => Shell.lex_quoted List.not_mem_nil⟩
  obtain ⟨p, parts, hparts⟩ := List.exists_cons_of_ne_nil (List.splitOn_ne_nil '\'' arg)
  have harg : arg = p ++ afterFirst parts := Text.eq_of_splitOn hparts
  obtain ⟨hp, hquote⟩ := List.forall_mem_cons.mp fun part (h : part ∈ p :: parts) =>
    Text.not_mem_of_mem_splitOn (c := '\'') (hparts ▸ h)
  have hdollar' : '$' ∉ p ∧ ∀ part ∈ parts, '$' ∉ part := by
    rw [harg] at hdollar
    simpa [afterFirst] using hdollar
  have hread : Read arg ↔ PartRead true p ∧ ∀ part ∈ parts, PartRead false part := by
    rw [Read, hparts]
    rfl
  rw [shellQuote_eq hnil hparts]
  by_cases hfirst : p = []
  · subst hfirst
    have hmore : parts = [] → (none : Shell.Word).isNone = false := by
      intro hnone
      subst hnone
      exact absurd harg hnil
    rw [harg, List.nil_append] at hread ⊢
    refine (reading_rest hquote hdollar'.2 hmore).congr ?_
    rw [hread]
    exact ⟨fun h => ⟨nofun, h⟩, fun h => h.2⟩
  · have hrest := reading_rest (w := Shell.extend none p) hquote hdollar'.2 fun _ => rfl
    have hall := (reading_part (w := none) hp hdollar'.1 hfirst).append hrest (sameCount_part p)
    rw [← harg] at hall
    exact hall.congr hread.symm

theorem sameCount_arg {arg : List Char} : SameCount arg (shellQuote arg) := by
  intro k hk
  have hk' := hk
  simp only [List.mem_cons, List.not_mem_nil, or_false, not_or] at hk'
  by_cases hnil : arg = []
  · subst hnil
    simp [shellQuote, Ne.symm hk'.2.1]
  · obtain ⟨p, parts, hparts⟩ := List.exists_cons_of_ne_nil (List.splitOn_ne_nil '\'' arg)
    have hrest : ∀ parts, (quoteRest parts).count k = (afterFirst parts).count k := by
      intro parts
      induction parts with
      | nil => rfl
      | cons part parts ih =>
        simp only [quoteRest, afterFirst, List.flatMap_cons, List.count_append] at ih ⊢
        rw [ih, sameCount_part part k hk]
        simp [Ne.symm hk'.2.1, Ne.symm hk'.2.2]
    have harg : arg = p ++ afterFirst parts := Text.eq_of_splitOn hparts
    rw [shellQuote_eq hnil hparts, List.count_append, sameCount_part p k hk, hrest,
      ← List.count_append, ← harg]

/-- The line after its first argument. -/
def following (cmd : List (List Char)) : List Char := if cmd = [] then [] else ' ' :: join cmd

theorem join_cons (arg : List Char) (cmd : List (List Char)) :
    join (arg :: cmd) = shellQuote arg ++ following cmd := by
  cases cmd with
  | nil => simp [join, following]
  | cons b cmd =>
    rw [join, List.map_cons, List.intercalate_cons_of_ne_nil (by simp), following,
      if_neg (List.cons_ne_nil b cmd), List.append_assoc]
    rfl

theorem lex_following (arg : List Char) (cmd : List (List Char)) :
    Shell.lex .bare (Shell.extend none arg) (following cmd) =
      (Shell.lex .bare none (join cmd)).map (.word arg false :: ·) := by
  cases cmd with
  | nil => rfl
  | cons b cmd =>
    rw [following, if_neg (List.cons_ne_nil b cmd), Shell.lex]
    rfl

theorem count_join {k : Char} (hk : k ∉ [' ', '\'', '"']) (cmd : List (List Char)) :
    (join cmd).count k = cmd.flatten.count k := by
  induction cmd with
  | nil => rfl
  | cons arg cmd ih =>
    have hfollowing : (following cmd).count k = cmd.flatten.count k := by
      unfold following
      split
      case isTrue h => rw [h]; rfl
      case isFalse =>
        simp only [List.mem_cons, not_or] at hk
        rw [List.count_cons_of_ne (Ne.symm hk.1), ih]
    rw [join_cons, List.count_append, sameCount_arg k hk, hfollowing, List.flatten_cons,
      List.count_append]

/-- **The arguments of a line come through together, or not.** -/
theorem lex_join_iff {cmd : List (List Char)} (hdollar : ∀ arg ∈ cmd, '$' ∉ arg) :
    Shell.lex .bare none (join cmd) = some (cmd.map (.word · false)) ↔ ∀ arg ∈ cmd, Read arg := by
  induction cmd with
  | nil => exact ⟨fun _ => nofun, fun _ => rfl⟩
  | cons arg cmd ih =>
    obtain ⟨hd, hdollar⟩ := List.forall_mem_cons.mp hdollar
    rw [List.forall_mem_cons, ← ih hdollar, join_cons, List.map_cons]
    rcases reading_arg hd with ⟨hread, hlex⟩ | ⟨hread, hdamaged⟩
    · rw [hlex, lex_following, Option.map_eq_some_iff]
      constructor
      · intro ⟨tokens, htokens, he⟩
        rw [htokens, (List.cons.inj he).2]
        exact ⟨hread, rfl⟩
      · intro ⟨_, h⟩
        exact ⟨_, h, rfl⟩
    · refine ⟨fun h => ?_, fun h => absurd h.1 hread⟩
      have htexts : Shell.texts ((arg :: cmd).map (.word · false)) = (arg :: cmd).flatten := by
        rw [Shell.texts, List.flatMap_map]
        exact List.flatMap_id
      rcases hdamaged _ _ h with ⟨text, htext⟩ | ⟨k, hk, hlt⟩
      · simp at htext
      · rw [← List.map_cons (f := (Shell.Token.word · false)), htexts, ← join_cons, count_join hk] at hlt
        exact absurd hlt (by simp [Shell.text])

end Arguments

/-- **What is read of a logged command**, in any directory, where no `$` is in its arguments:
an argument is one word and itself exactly when its parts that are not quoted have no character
that `specialChars` forgot, and a command gives its arguments back exactly when they all are so. -/
theorem pasted_iff (arg : String) (hdollar : '$' ∉ arg.toList) :
    ((∀ files, Shell.words files (shellQuote arg.toList) = some [arg.toList]) ↔ Read arg.toList) ∧
      ∀ (seconds : Int → String) (c : Client) (name : String) (args : List String),
        (∀ word ∈ c.words seconds name args, '$' ∉ word.toList) →
        ((∀ files, Shell.words files (c.command seconds name args).toList =
            some ((c.words seconds name args).map String.toList)) ↔
          ∀ word ∈ c.words seconds name args, Read word.toList) := by
  constructor
  · have hone := lex_join_iff (List.forall_mem_singleton.mpr hdollar)
    rw [join_cons, following, if_pos rfl, List.append_nil] at hone
    rw [Shell.words_iff]
    simpa using hone
  · intro seconds c name args hwords
    rw [Shell.words_iff, Client.command, String.toList_ofList, lex_join_iff (by simpa using hwords)]
    simp

/-- A filter with quotes and blanks comes through. -/
theorem filter_comes_through : '$' ∉ "(cn=d'un (b))".toList ∧ ∀ files,
    Shell.words files (shellQuote "(cn=d'un (b))".toList) = some ["(cn=d'un (b))".toList] := by
  have hdollar : '$' ∉ "(cn=d'un (b))".toList := by decide
  exact ⟨hdollar, (pasted_iff "(cn=d'un (b))" hdollar).1.mpr (by decide)⟩

/-- A semicolon is not quoted: what follows it is another command. -/
theorem semicolon_splits : '$' ∉ "a;b".toList ∧ shellQuote "a;b".toList = "a;b".toList ∧
    Shell.lex .bare none (shellQuote "a;b".toList) =
      some [.word ['a'] false, .operator ';', .word ['b'] false] ∧
    ∀ files, Shell.words files (shellQuote "a;b".toList) ≠ some ["a;b".toList] := by
  refine ⟨by decide, by decide, by decide, fun files h => ?_⟩
  cases h

end Ldap2pg.Ldap.Command
