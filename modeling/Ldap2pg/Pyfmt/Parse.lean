import Ldap2pg.Lib.Loops
import Ldap2pg.Lib.Text
import Ldap2pg.Pyfmt

/-! # `Format.Parse`: the scanner of formats

The scanner moves a position through the text, one section a turn. Every character
it looks for is ASCII, so that positions count characters here. A slice or an index
out of range is an error of the model.

`lex` reads the same text one character after the other; the scanner agrees with it
up to the way literals are cut in sections. -/
namespace Ldap2pg.Pyfmt.Parse
open Lib Lib.Text

variable {s : List Char}

/-! ## 1. The code -/

/-- The run-time panics of a scanner. -/
inductive OutOfRange where
  | slice
  | index
  deriving DecidableEq, Repr

/-- `s[i:j]`. -/
def slice (s : List Char) (i j : Int) : Except OutOfRange (List Char) :=
  if 0 ≤ i ∧ i ≤ j ∧ j ≤ s.length then .ok ((s.take j.toNat).drop i.toNat) else .error .slice

/-- `s[i]`. -/
def index (s : List Char) (i : Nat) : Except OutOfRange Char :=
  match s[i]? with
  | some c => .ok c
  | none => .error .index

/-- `strings.LastIndex(s, c)`: -1 when `c` is not there. -/
def lastIndex (s : List Char) (c : Char) : Int :=
  match s.reverse.idxOf? c with
  | none => -1
  | some k => s.length - 1 - k

/-- The name, the conversion and the spec of a field. -/
def fieldParts (s : String) : String × String × String :=
  let (before, after, found) := cut '!' s
  if found then
    -- {0!r} or {0!r:>30}
    let (conversion, spec, _) := cut ':' after
    (before, conversion, spec)
  else
    -- {0} or {0:>30}
    let (name, spec, _) := cut ':' before
    (name, "", spec)

def parseField (s : String) : Except OutOfRange Field := do
  let (name, conversion, spec) := fieldParts s
  if "()".toList.isSuffixOf name.toList then
    let lastPoint := lastIndex name.toList '.'
    let method ← slice name.toList (lastPoint + 1) name.toList.length
    let fieldName ← slice name.toList 0 lastPoint
    return { fieldName := .ofList fieldName, formatSpec := spec, conversion := conversion,
             method := .ofList method }
  else
    return { fieldName := name, formatSpec := spec, conversion := conversion }

/-- The variables of the loop: the position, whether it is in a field, what was
read so far. -/
structure Scan where
  i : Nat := 0
  inField : Bool := false
  sections : List Section := []
  err : Option String := none

/-- A turn that starts in a field. -/
def fieldTurn (s : List Char) (st : Scan) : Except OutOfRange Scan := do
  match (← slice s st.i s.length).idxOf? '}' with
  | none => return { st with i := s.length, err := some "end of string before end of field" }
  | some loc =>
    let i := st.i + loc
    let field ← parseField (.ofList (← slice s st.i i))
    return { st with i := i + 1, inField := false, sections := st.sections ++ [.field field] }

/-- Where the literal of a turn ends, and whether a field follows. -/
def literalEnd (s : List Char) (st : Scan) : Except OutOfRange (Nat × Bool) := do
  match (← slice s st.i s.length).idxOf? '{' with
  | none => return (s.length, false)
  | some loc =>
    let i := st.i + loc
    let next ← if i < s.length - 1 then index s (i + 1) else pure '\x00'
    -- {{ is an escape: the first one ends the literal, the second one is skipped
    if i < s.length ∧ next = '{' then return (i + 1, false) else return (i, true)

/-- A turn that starts in a literal. -/
def literalTurn (s : List Char) (st : Scan) : Except OutOfRange Scan := do
  let (i, inField) ← literalEnd s st
  let sections ←
    if st.i < i then do
      let literal ← slice s st.i i
      pure (st.sections ++ [.literal (.ofList (replaceAll literal "\x7d\x7d" "\x7d"))])
    else pure st.sections
  return { st with i := i + 1, inField := inField, sections := sections }

def turn (s : List Char) (st : Scan) : Except OutOfRange Scan :=
  if st.inField then fieldTurn s st else literalTurn s st

/-- `for i := 0; i < end;`, for a number of turns. -/
def loop (s : List Char) : Nat → Scan → Except OutOfRange Scan
  | 0, st => .ok st
  | fuel + 1, st => if st.i < s.length then do loop s fuel (← turn s st) else .ok st

/-- The error returned after the loop. -/
def Scan.error (st : Scan) : Option String :=
  if st.inField then some "unexpected end of format" else st.err

/-- `Parse`: the format and the error. Each turn moves the position, so that there
are at most as many as characters. -/
def parse (s : String) : Except OutOfRange (Format × Option String) := do
  let st ← loop s.toList s.toList.length {}
  return ({ input := s, sections := st.sections }, st.error)

/-! ## 2. One character after the other -/

/-- A character of a literal, or the text between the braces of a field. -/
inductive Token where
  | char (c : Char)
  | field (body : List Char)
  deriving DecidableEq

/-- What a format is made of, however its literals are cut. -/
inductive Item where
  | char (c : Char)
  | field (f : Field)
  deriving DecidableEq

/-- Reads a text, from a literal or from a field of which some was read. The flag
tells whether the last field is closed. -/
def lex : Option (List Char) → List Char → List Token × Bool
  | none, [] => ([], true)
  | none, '{' :: '{' :: s => (.char '{' :: (lex none s).1, (lex none s).2)
  | none, '{' :: s => lex (some []) s
  | none, '}' :: '}' :: s => (.char '}' :: (lex none s).1, (lex none s).2)
  | none, c :: s => (.char c :: (lex none s).1, (lex none s).2)
  | some _, [] => ([], false)
  | some body, '}' :: s => (.field body :: (lex none s).1, (lex none s).2)
  | some body, c :: s => lex (some (body ++ [c])) s

def Token.item : Token → Except OutOfRange Item
  | .char c => .ok (.char c)
  | .field body => (parseField (.ofList body)).map .field

def items : Section → List Item
  | .literal s => s.toList.map .char
  | .field f => [.field f]

/-! ## 3. What a literal reads as -/

/-- `strings.ReplaceAll(s, "}}", "}")`. -/
def unbrace (s : List Char) : List Char := replaceAll s "\x7d\x7d" "\x7d"

@[simp] theorem unbrace_nil : unbrace [] = [] := rfl

theorem unbrace_pair (s : List Char) : unbrace ('}' :: '}' :: s) = '}' :: unbrace s := by
  simp [unbrace, replaceAll, replaceFrom]

theorem unbrace_char {c : Char} {s : List Char} (h : ¬ (c = '}' ∧ s.head? = some '}')) :
    unbrace (c :: s) = c :: unbrace s := by
  have hnot : ¬ ['}', '}'].isPrefixOf (c :: s) = true := by
    intro hp
    refine h ?_
    cases s with
    | nil => simp at hp
    | cons d s =>
      simp only [List.isPrefixOf, Bool.and_true, Bool.and_eq_true, beq_iff_eq] at hp
      exact ⟨hp.1.symm, congrArg some hp.2.symm⟩
  show replaceFrom ['}', '}'] ['}'] 0 (c :: s) = c :: replaceFrom ['}', '}'] ['}'] 0 s
  rw [replaceFrom, if_neg hnot]

theorem lex_char {c : Char} {s : List Char} (hopen : c ≠ '{')
    (h : ¬ (c = '}' ∧ s.head? = some '}')) :
    lex none (c :: s) = (.char c :: (lex none s).1, (lex none s).2) := by
  rw [lex.eq_def]
  split
  all_goals simp_all

theorem lex_open {s : List Char} (h : s.head? ≠ some '{') :
    lex none ('{' :: s) = lex (some []) s := by
  rcases s with _ | ⟨c, s⟩
  · rfl
  · rw [lex]
    intro s' hs
    simp_all

theorem lex_body {body : List Char} (h : '}' ∉ body) :
    ∀ (acc s : List Char), lex (some acc) (body ++ s) = lex (some (acc ++ body)) s := by
  induction body with
  | nil => simp
  | cons c body ih =>
    intro acc s
    have hc : c ≠ '}' := fun he => h (he ▸ List.mem_cons_self)
    have hbody : '}' ∉ body := fun hb => h (List.mem_cons_of_mem c hb)
    have hstep : lex (some acc) (c :: (body ++ s)) = lex (some (acc ++ [c])) (body ++ s) := by
      rw [lex]
      exact hc
    rw [List.cons_append, hstep, ih hbody, List.append_assoc, List.singleton_append]

/-- A literal up to the next opening brace, or to the end. -/
theorem lex_literal (rest : List Char) (hrest : rest.head? ≠ some '}') :
    ∀ lit : List Char, '{' ∉ lit → lex none (lit ++ rest) =
      ((unbrace lit).map .char ++ (lex none rest).1, (lex none rest).2)
  | [], _ => rfl
  | [c], h => by
    have hopen : c ≠ '{' := fun he => h (he ▸ List.mem_singleton_self _)
    rw [List.singleton_append, lex_char hopen fun hp => hrest hp.2, unbrace_char (by simp)]
    rfl
  | c :: d :: lit, h => by
    by_cases hp : c = '}' ∧ d = '}'
    · obtain ⟨rfl, rfl⟩ := hp
      have hlit : '{' ∉ lit := fun hb =>
        h (List.mem_cons_of_mem _ (List.mem_cons_of_mem _ hb))
      rw [unbrace_pair, List.cons_append, List.cons_append, lex, lex_literal rest hrest lit hlit]
      rfl
    · have hopen : c ≠ '{' := fun he => h (he ▸ List.mem_cons_self)
      have hlit : '{' ∉ d :: lit := fun hb => h (List.mem_cons_of_mem c hb)
      have hchar : ¬ (c = '}' ∧ (d :: lit ++ rest).head? = some '}') := by simpa using hp
      rw [unbrace_char (by simpa using hp), List.cons_append, lex_char hopen hchar,
        lex_literal rest hrest (d :: lit) hlit]
      rfl

theorem unbrace_append (rest : List Char) (hrest : rest.head? ≠ some '}') :
    ∀ lit : List Char, unbrace (lit ++ rest) = unbrace lit ++ unbrace rest
  | [] => rfl
  | [c] => by
    rw [List.singleton_append, unbrace_char fun hp => hrest hp.2, unbrace_char (by simp)]
    rfl
  | c :: d :: lit => by
    by_cases hp : c = '}' ∧ d = '}'
    · obtain ⟨rfl, rfl⟩ := hp
      rw [List.cons_append, List.cons_append, unbrace_pair, unbrace_pair,
        unbrace_append rest hrest lit]
      rfl
    · rw [List.cons_append, unbrace_char (by simpa using hp), unbrace_char (by simpa using hp),
        unbrace_append rest hrest (d :: lit)]
      rfl

/-! ## 4. A turn of the scanner -/

section Turn
variable {s : List Char} {st : Scan}

theorem slice_rest {i : Nat} (h : i ≤ s.length) : slice s i s.length = .ok (s.drop i) := by
  rw [slice, if_pos ⟨by omega, by omega, by omega⟩]
  simp

theorem slice_body {i : Nat} {body t : List Char} (h : i ≤ s.length) (hs : s.drop i = body ++ t) :
    slice s i ((i + body.length : Nat) : Int) = .ok body := by
  have hlen := congrArg List.length hs
  rw [List.length_drop, List.length_append] at hlen
  rw [slice, if_pos ⟨by omega, by omega, by omega⟩, Int.toNat_natCast, Int.toNat_natCast,
    List.drop_take, Nat.add_sub_cancel_left, hs, List.take_left]

theorem idxOf?_append_cons {c : Char} {body : List Char} (h : c ∉ body) (t : List Char) :
    (body ++ c :: t).idxOf? c = some body.length := by
  induction body with
  | nil => simp [List.idxOf?_cons]
  | cons d body ih =>
    have hd : ¬ d = c := fun he => h (he ▸ List.mem_cons_self)
    rw [List.cons_append, List.idxOf?_cons, ih fun hb => h (List.mem_cons_of_mem d hb)]
    simp [hd]

theorem fieldTurn_unclosed (hi : st.i ≤ s.length) (h : '}' ∉ s.drop st.i) :
    fieldTurn s st =
      .ok { st with i := s.length, err := some "end of string before end of field" } := by
  unfold fieldTurn
  rw [slice_rest hi, ok_bind, List.idxOf?_eq_none_iff.mpr h]
  rfl

theorem fieldTurn_closed (hi : st.i ≤ s.length) {body t : List Char} (h : '}' ∉ body)
    (hs : s.drop st.i = body ++ '}' :: t) :
    fieldTurn s st = (parseField (.ofList body)).map fun field =>
      { st with i := st.i + body.length + 1, inField := false,
                sections := st.sections ++ [.field field] } := by
  unfold fieldTurn
  rw [slice_rest hi, ok_bind, hs, idxOf?_append_cons h]
  simp only [slice_body hi hs, ok_bind]
  cases parseField (.ofList body) with
  | error e => rfl
  | ok field => rfl

theorem literalEnd_none (hi : st.i ≤ s.length) (h : '{' ∉ s.drop st.i) :
    literalEnd s st = .ok (s.length, false) := by
  unfold literalEnd
  rw [slice_rest hi, ok_bind, List.idxOf?_eq_none_iff.mpr h]
  rfl

/-- The next character, if there is one, is read inside the text. -/
theorem literalEnd_open (hi : st.i ≤ s.length) {lit t : List Char} (h : '{' ∉ lit)
    (hs : s.drop st.i = lit ++ '{' :: t) :
    literalEnd s st = .ok (if t.head? = some '{' then (st.i + lit.length + 1, false)
      else (st.i + lit.length, true)) := by
  have hlen := congrArg List.length hs
  rw [List.length_drop, List.length_append, List.length_cons] at hlen
  have hget : s[st.i + lit.length + 1]? = t.head? := by
    have hd : (s.drop st.i)[lit.length + 1]? = t.head? := by
      rw [hs, List.getElem?_append_right (Nat.le_succ _)]
      simp [List.head?_eq_getElem?]
    rwa [List.getElem?_drop, ← Nat.add_assoc] at hd
  unfold literalEnd
  rw [slice_rest hi, ok_bind, hs, idxOf?_append_cons h]
  simp only
  cases t with
  | nil =>
    rw [List.length_nil] at hlen
    rw [if_neg (by omega : ¬ st.i + lit.length < s.length - 1)]
    simp [pure_bind]
    rfl
  | cons c t =>
    rw [List.length_cons] at hlen
    rw [if_pos (by omega : st.i + lit.length < s.length - 1), index, hget]
    simp only [List.head?_cons, ok_bind, Option.some.injEq]
    have hin : st.i + lit.length < s.length := by omega
    by_cases hc : c = '{' <;> simp [hc, hin] <;> rfl

/-- A literal is cut from the text when it is not empty. -/
theorem literalTurn_eq {i : Nat} {inField : Bool} {lit t : List Char} (hi : st.i ≤ s.length)
    (hend : literalEnd s st = .ok (i, inField)) (hi' : i = st.i + lit.length)
    (hs : s.drop st.i = lit ++ t) :
    literalTurn s st = .ok { st with
      i := i + 1, inField := inField,
      sections := st.sections ++ if lit = [] then [] else [.literal (.ofList (unbrace lit))] } := by
  subst hi'
  unfold literalTurn
  rw [hend, ok_bind]
  simp only
  by_cases hlit : lit = []
  · subst hlit
    simp
    rfl
  · have hlt : st.i < st.i + lit.length := Nat.lt_add_of_pos_right (List.length_pos_iff.mpr hlit)
    rw [if_pos hlt, slice_body hi hs, ok_bind, if_neg hlit]
    rfl

end Turn

/-! ## 5. The scanner reads what `lex` reads -/

def Scan.mode (st : Scan) : Option (List Char) := if st.inField then some [] else none

/-- What a turn does with the text that is left. -/
inductive Turned (s : List Char) (st : Scan) : Except OutOfRange Scan → Prop where
  /-- the text ends in a field -/
  | unclosed {st' : Scan} (hlex : lex st.mode (s.drop st.i) = ([], false))
      (hend : s.length ≤ st'.i) (hin : st'.inField = true)
      (hsections : st'.sections = st.sections) : Turned s st (.ok st')
  /-- the field at hand cannot be parsed -/
  | failed {body : List Char} {tokens : List Token} {closed : Bool} {e : OutOfRange}
      (hlex : lex st.mode (s.drop st.i) = (.field body :: tokens, closed))
      (hfield : parseField (.ofList body) = .error e) : Turned s st (.error e)
  /-- some tokens are read -/
  | read {st' : Scan} (tokens : List Token) (out : List Item)
      (hlex : lex st.mode (s.drop st.i) = (tokens ++ (lex st'.mode (s.drop st'.i)).1,
        (lex st'.mode (s.drop st'.i)).2))
      (hitems : tokens.mapM Token.item = .ok out)
      (hsections : st'.sections.flatMap items = st.sections.flatMap items ++ out)
      (hmoves : st.i < st'.i) (herr : st'.err = st.err) : Turned s st (.ok st')

theorem mapM_char (text : List Char) :
    (text.map Token.char).mapM Token.item = .ok (text.map Item.char) := by
  induction text with
  | nil => rfl
  | cons c text ih => rw [List.map_cons, List.mapM_cons, ih]; rfl

theorem fieldTurn_turned {st : Scan} (hi : st.i < s.length) (hin : st.inField = true) :
    Turned s st (fieldTurn s st) := by
  have hmode : st.mode = some [] := by simp [Scan.mode, hin]
  by_cases hclose : '}' ∈ s.drop st.i
  · obtain ⟨body, t, hs, hbody⟩ := List.eq_append_cons_of_mem hclose
    have hlex : lex st.mode (s.drop st.i) = (.field body :: (lex none t).1, (lex none t).2) := by
      rw [hmode, hs, lex_body hbody, List.nil_append, lex]
    rw [fieldTurn_closed hi.le hbody hs]
    cases hf : parseField (.ofList body) with
    | error e => exact .failed hlex hf
    | ok field =>
      have hdrop : s.drop (st.i + body.length + 1) = t := by
        rw [Nat.add_assoc, ← List.drop_drop, hs, List.drop_append]
        simp
      refine .read [.field body] [.field field] ?_ ?_ ?_ ?_ rfl
      · simp only [hdrop]
        exact hlex
      · rw [List.mapM_cons, Token.item, hf]
        rfl
      · simp [items]
      · show st.i < st.i + body.length + 1
        omega
  · rw [fieldTurn_unclosed hi.le hclose]
    have hlex : lex st.mode (s.drop st.i) = ([], false) := by
      have hb := lex_body hclose [] []
      rw [List.append_nil, List.nil_append] at hb
      rw [hmode, hb, lex]
    exact .unclosed hlex (Nat.le_refl _) hin rfl

/-- A literal is what `lex` reads of it, in one section or none. -/
theorem items_literal (lit : List Char) :
    (if lit = [] then [] else [Section.literal (.ofList (unbrace lit))]).flatMap items =
      (unbrace lit).map Item.char := by
  by_cases h : lit = []
  · simp [h]
  · simp [h, items]

/-- A literal turn, from what `lex` reads of the literal. -/
theorem literalTurn_read {st : Scan} (hi : st.i < s.length) {i : Nat} {inField : Bool}
    {lit t : List Char} (hend : literalEnd s st = .ok (i, inField)) (hi' : i = st.i + lit.length)
    (hs : s.drop st.i = lit ++ t)
    (hlex : lex st.mode (lit ++ t) = ((unbrace lit).map Token.char ++ (lex (if inField then some []
    else none) (t.drop 1)).1, (lex (if inField then some [] else none) (t.drop 1)).2)) :
    Turned s st (literalTurn s st) := by
  have hdrop : s.drop (i + 1) = t.drop 1 := by
    rw [hi', Nat.add_assoc, ← List.drop_drop, hs, List.drop_append]
    simp
  rw [literalTurn_eq hi.le hend hi' hs]
  refine .read _ _ ?_ (mapM_char (unbrace lit)) ?_ ?_ rfl
  · simp only [hdrop, Scan.mode]
    rw [hs]
    exact hlex
  · rw [List.flatMap_append, items_literal]
  · show st.i < i + 1
    omega

theorem literalTurn_turned {st : Scan} (hi : st.i < s.length) (hin : st.inField = false) :
    Turned s st (literalTurn s st) := by
  have hmode : st.mode = none := by simp [Scan.mode, hin]
  by_cases hopen : '{' ∈ s.drop st.i
  · obtain ⟨lit, t, hs, hlit⟩ := List.eq_append_cons_of_mem hopen
    have hend := literalEnd_open hi.le hlit hs
    by_cases hesc : t.head? = some '{'
    · -- the first brace belongs to the literal, the second one is passed over
      obtain ⟨t', rfl⟩ : ∃ t', t = '{' :: t' := by
        cases t with
        | nil => cases hesc
        | cons c t' => exact ⟨t', by rw [Option.some.inj hesc]⟩
      rw [if_pos hesc] at hend
      have hs' : s.drop st.i = (lit ++ ['{']) ++ '{' :: t' := by simpa using hs
      refine literalTurn_read hi hend (by simp; omega) hs' ?_
      rw [hmode, List.append_assoc, List.singleton_append, lex_literal _ (by simp) lit hlit, lex,
        unbrace_append _ (by simp), unbrace_char (by simp)]
      simp
    · rw [if_neg hesc] at hend
      refine literalTurn_read hi hend rfl hs ?_
      rw [hmode, lex_literal _ (by simp) lit hlit, lex_open hesc]
      rfl
  · have hend := literalEnd_none hi.le hopen
    refine literalTurn_read (t := []) hi hend (by rw [List.length_drop]; omega)
      (List.append_nil _).symm ?_
    rw [hmode, lex_literal _ (by simp) _ hopen]
    rfl

theorem turn_turned {st : Scan} (hi : st.i < s.length) : Turned s st (turn s st) := by
  unfold turn
  split
  · next hin => exact fieldTurn_turned hi hin
  · next hin => exact literalTurn_turned hi (by simpa using hin)

/-- What is read of a format: its items, or the panic, and whether it is closed. -/
def reading (mode : Option (List Char)) (s : List Char) :
    Except OutOfRange (List Item × Option String) :=
  ((lex mode s).1.mapM Token.item).map fun out =>
    (out, if (lex mode s).2 then none else some "unexpected end of format")

theorem loop_stop {st : Scan} (h : s.length ≤ st.i) (fuel : Nat) : loop s fuel st = .ok st := by
  cases fuel with
  | zero => rfl
  | succ fuel => rw [loop, if_neg (by omega)]

/-- What a run of the scanner leaves, beside what was read before. -/
def Scan.result (st : Scan) : List Item × Option String := (st.sections.flatMap items, st.error)

/-- Adds what was read before. -/
def after (st : Scan) (r : List Item × Option String) : List Item × Option String :=
  (st.sections.flatMap items ++ r.1, r.2)

theorem reading_append {mode mode' : Option (List Char)} {s' : List Char} {tokens : List Token}
    {out : List Item} (hlex : lex mode s = (tokens ++ (lex mode' s').1, (lex mode' s').2))
    (hitems : tokens.mapM Token.item = .ok out) :
    reading mode s = (reading mode' s').map fun r => (out ++ r.1, r.2) := by
  unfold reading
  rw [hlex, List.mapM_append, hitems, ok_bind]
  cases (lex mode' s').1.mapM Token.item with
  | error e => rfl
  | ok out' => rfl

/-- **The loop reads the text that is left**, given a turn for each character of it. -/
theorem loop_reading (s : List Char) : ∀ (fuel : Nat) (st : Scan), s.length ≤ fuel + st.i →
    st.err = none →
    (loop s fuel st).map Scan.result = (reading st.mode (s.drop st.i)).map (after st) := by
  have hdone : ∀ (fuel : Nat) (st : Scan), s.length ≤ st.i → st.err = none →
      (loop s fuel st).map Scan.result = (reading st.mode (s.drop st.i)).map (after st) := by
    intro fuel st hi herr
    rw [loop_stop hi, List.drop_eq_nil_of_le hi]
    cases hin : st.inField <;>
      simp [reading, Scan.mode, Scan.result, Scan.error, after, hin, lex, Except.map, herr, pure,
        Except.pure]
  intro fuel
  induction fuel with
  | zero => intro st hi herr; exact hdone 0 st (by omega) herr
  | succ fuel ih =>
    intro st hi herr
    by_cases hlt : st.i < s.length
    · rw [loop, if_pos hlt]
      have hturn := turn_turned hlt
      revert hturn
      generalize turn s st = outcome
      intro hturn
      cases hturn with
      | @unclosed st' hlex hend hin hsections =>
        rw [ok_bind, loop_stop hend, reading, hlex]
        simp [Scan.result, Scan.error, after, Except.map, hin, hsections, pure, Except.pure]
      | failed hlex hfield =>
        rw [reading, hlex, List.mapM_cons, Token.item, hfield]
        rfl
      | @read st' tokens out hlex hitems hsections hmoves herr' =>
        rw [ok_bind, ih st' (by omega) (herr'.trans herr), reading_append hlex hitems]
        cases reading st'.mode (s.drop st'.i) with
        | error e => rfl
        | ok r => simp [after, Except.map, hsections]
    · exact hdone _ st (by omega) herr

/-- **`Parse` reads what `lex` reads.** -/
theorem parse_reading (s : String) :
    (parse s).map (fun r => (r.1.sections.flatMap items, r.2)) = reading none s.toList := by
  have hloop := loop_reading s.toList s.toList.length {} (by simp) rfl
  unfold parse
  have hrest : (reading none s.toList).map (after {}) = reading none s.toList := by
    cases reading none s.toList with
    | error e => rfl
    | ok r => rfl
  rw [show (Scan.mode {}) = none from rfl, List.drop_zero, hrest] at hloop
  rw [← hloop]
  cases loop s.toList s.toList.length {} with
  | error e => rfl
  | ok st => rfl

theorem parse_input {s : String} {f : Format} {err : Option String} (h : parse s = .ok (f, err)) :
    f.input = s := by
  obtain ⟨st, _, hf⟩ := bind_eq_ok.mp h
  cases hf
  rfl

/-! ## 6. When parsing panics -/

/-- The texts between the braces of the fields, in order. -/
def fieldBodies (s : String) : List (List Char) :=
  (lex none s.toList).1.filterMap fun
    | .char _ => none
    | .field body => some body

theorem lastIndex_of_not_mem {c : Char} (h : c ∉ s) : lastIndex s c = -1 := by
  have hnone : s.reverse.idxOf? c = none := by simpa using h
  rw [lastIndex, hnone]

/-- The last dot of a name is in it. -/
theorem lastIndex_of_mem {c : Char} (h : c ∈ s) : 0 ≤ lastIndex s c ∧ lastIndex s c < s.length := by
  obtain ⟨before, t, hs, hbefore⟩ := List.eq_append_cons_of_mem (List.mem_reverse.mpr h)
  have hlen := congrArg List.length hs
  rw [List.length_reverse, List.length_append, List.length_cons] at hlen
  rw [lastIndex, hs, idxOf?_append_cons hbefore]
  simp only
  omega

theorem slice_ok {i j : Int} (h : 0 ≤ i ∧ i ≤ j ∧ j ≤ s.length) :
    ∃ t, slice s i j = .ok t := ⟨_, by rw [slice, if_pos h]⟩

/-- A field has a method without anything to apply it to. -/
def Headless (body : List Char) : Prop :=
  "()".toList <:+ (fieldParts (.ofList body)).1.toList ∧
    '.' ∉ (fieldParts (.ofList body)).1.toList

theorem parseField_ok_iff (body : List Char) :
    (∃ f, parseField (.ofList body) = .ok f) ↔ ¬ Headless body := by
  unfold parseField Headless
  obtain ⟨name, conversion, spec⟩ := fieldParts (.ofList body)
  simp only
  rw [← List.isSuffixOf_iff_suffix]
  split
  · next hsuffix =>
    by_cases hdot : '.' ∈ name.toList
    · obtain ⟨hpos, hlt⟩ := lastIndex_of_mem hdot
      obtain ⟨method, hmethod⟩ := slice_ok (s := name.toList) (i := lastIndex name.toList '.' + 1)
        (j := name.toList.length) ⟨by omega, by omega, by omega⟩
      obtain ⟨fieldName, hname⟩ := slice_ok (s := name.toList) (i := 0)
        (j := lastIndex name.toList '.') ⟨by omega, by omega, by omega⟩
      rw [hmethod, hname]
      simp only [ok_bind]
      exact ⟨fun _ h => h.2 hdot, fun _ => ⟨_, rfl⟩⟩
    · rw [lastIndex_of_not_mem hdot]
      have hpanic : slice name.toList 0 (-1) = .error .slice := by
        rw [slice, if_neg (by omega)]
      obtain ⟨method, hmethod⟩ := slice_ok (s := name.toList) (i := -1 + 1)
        (j := name.toList.length) ⟨by omega, by omega, by omega⟩
      rw [hmethod, hpanic]
      exact ⟨fun ⟨f, hf⟩ => (by cases hf), fun h => absurd ⟨hsuffix, hdot⟩ h⟩
  · next hsuffix => exact ⟨fun _ h => hsuffix h.1, fun _ => ⟨_, rfl⟩⟩

theorem item_ok_iff (token : Token) :
    (∃ i, token.item = .ok i) ↔ ∀ body, token = .field body → ¬ Headless body := by
  cases token with
  | char c => exact ⟨fun _ body h => (by cases h), fun _ => ⟨_, rfl⟩⟩
  | field body =>
    rw [Token.item]
    cases hf : parseField (.ofList body) with
    | ok f =>
      have hnot := (parseField_ok_iff body).mp ⟨f, hf⟩
      exact ⟨fun _ b h => (by cases h; exact hnot), fun _ => ⟨_, rfl⟩⟩
    | error e =>
      refine ⟨fun ⟨i, hi⟩ => (by cases hi), fun h => ?_⟩
      obtain ⟨f, hf'⟩ := (parseField_ok_iff body).mpr (h body rfl)
      rw [hf] at hf'
      cases hf'

/-- **Parsing panics on a method without an expression, and only there**, whatever
the text: a field whose name ends with `()` and has no dot. -/
theorem parse_returns_iff (s : String) :
    (∃ f err, parse s = .ok (f, err)) ↔ ∀ body ∈ fieldBodies s, ¬ Headless body := by
  have hreads : (∃ f err, parse s = .ok (f, err)) ↔
      ∃ out, (lex none s.toList).1.mapM Token.item = .ok out := by
    have hread := parse_reading s
    unfold reading at hread
    cases hp : parse s with
    | error e =>
      rw [hp] at hread
      cases hm : (lex none s.toList).1.mapM Token.item with
      | error e' => simp
      | ok out => rw [hm] at hread; cases hread
    | ok r =>
      rw [hp] at hread
      cases hm : (lex none s.toList).1.mapM Token.item with
      | error e' => rw [hm] at hread; cases hread
      | ok out => exact ⟨fun _ => ⟨out, rfl⟩, fun _ => ⟨r.1, r.2, rfl⟩⟩
  rw [hreads]
  constructor
  · intro ⟨out, hout⟩ body hbody
    obtain ⟨token, htoken, heq⟩ := List.mem_filterMap.mp hbody
    obtain ⟨i, _, hi⟩ := exists_of_forall₂ (mapM_ok_iff.mp hout) htoken
    cases token with
    | char c => cases heq
    | field b =>
      cases heq
      exact (item_ok_iff (.field body)).mp ⟨i, hi⟩ body rfl
  · intro hall
    refine exists_mapM_ok fun token htoken => (item_ok_iff token).mpr fun body heq => ?_
    subst heq
    exact hall body (List.mem_filterMap.mpr ⟨_, htoken, rfl⟩)

/-- `{user()}` cuts the name before position -1. -/
theorem parse_user_panics : parse "\x7buser()\x7d" = .error .slice := by decide +kernel

end Ldap2pg.Pyfmt.Parse
