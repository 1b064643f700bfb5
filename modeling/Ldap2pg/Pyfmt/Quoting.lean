import Ldap2pg.Lib.Quoted
import Ldap2pg.Pyfmt.Roundtrip

/-! # Methods that quote values for SQL

Hooks quote values with `identifier()` and `string()`. The texts they render are read
by the scanner of PostgreSQL. -/
namespace Ldap2pg.Pyfmt.Quoting
open Lib Lib.Quoted Pyfmt.Parse Pyfmt.Roundtrip

variable (u : Strings) (values : Values) (name : FieldName)

/-- NAMEDATALEN - 1, in bytes. -/
def maxIdentifier : Nat := 63

/-- The format that applies a method to a field. -/
def methodFormat (name : FieldName) (method : String) : String :=
  "\x7b" ++ name.text ++ "." ++ method ++ "\x7d"

/-- A method as it is written: its name and two parentheses. -/
structure Method where
  text : String
  plain : ∀ c ∈ text.toList, c ∉ ['{', '}', '!', ':', '.']
  call : "()".toList <:+ text.toList

variable (method : Method)

def identifier : Method := ⟨"identifier()", by simp, by decide +kernel⟩

def string : Method := ⟨"string()", by simp, by decide +kernel⟩

/-- The last dot of a name is the one before its last part. -/
theorem lastIndex_append {before after : List Char} {c : Char} (h : c ∉ after) :
    lastIndex (before ++ c :: after) c = before.length := by
  have hrev : (before ++ c :: after).reverse = after.reverse ++ c :: before.reverse := by simp
  rw [lastIndex, hrev, idxOf?_append_cons (by simpa using h)]
  simp only [List.length_append, List.length_cons, List.length_reverse]
  omega

theorem parseField_method :
    parseField (name.text ++ "." ++ method.text) =
      .ok { fieldName := name.text, method := method.text } := by
  have hlist : (name.text ++ "." ++ method.text).toList =
      name.text.toList ++ '.' :: method.text.toList := by simp [String.toList_append]
  have hnot : ∀ c ∈ ['{', '}', '!', ':'], c ≠ '.' →
      c ∉ (name.text ++ "." ++ method.text).toList := by
    intro c hc hdot hmem
    rw [hlist, List.mem_append, List.mem_cons] at hmem
    rcases hmem with hmem | rfl | hmem
    · exact name.plain c hmem hc
    · exact hdot rfl
    · exact method.plain c hmem (by simp_all)
  have hparts : fieldParts (name.text ++ "." ++ method.text) =
      (name.text ++ "." ++ method.text, "", "") := by
    simp [fieldParts, cut_of_not_mem (hnot '!' (by simp) (by decide)),
      cut_of_not_mem (hnot ':' (by simp) (by decide))]
  have hsuffix : "()".toList.isSuffixOf (name.text ++ "." ++ method.text).toList = true := by
    rw [List.isSuffixOf_iff_suffix, hlist]
    exact method.call.trans ((List.suffix_cons _ _).trans (List.suffix_append _ _))
  have hdot : '.' ∉ method.text.toList := fun hmem => method.plain _ hmem (by simp)
  have hmethod : slice (name.text.toList ++ '.' :: method.text.toList)
      (name.text.toList.length + 1) (name.text.toList ++ '.' :: method.text.toList).length =
      .ok method.text.toList := by
    have hrest := slice_rest (s := name.text.toList ++ '.' :: method.text.toList)
      (i := name.text.toList.length + 1) (by simp)
    have hdrop : (name.text.toList ++ '.' :: method.text.toList).drop
        (name.text.toList.length + 1) = method.text.toList := by
      rw [← List.drop_drop, List.drop_left]
      rfl
    rwa [hdrop] at hrest
  have hname : slice (name.text.toList ++ '.' :: method.text.toList) 0
      name.text.toList.length = .ok name.text.toList := by
    have hbody := slice_body (s := name.text.toList ++ '.' :: method.text.toList) (i := 0)
      (Nat.zero_le _) (List.drop_zero)
    simpa using hbody
  rw [parseField, hparts]
  simp only
  rw [if_pos hsuffix, hlist, lastIndex_append hdot, hmethod, hname]
  simp [ok_bind]

/-- A method field is parsed as the field and the method. -/
theorem parse_method :
    ∃ f, parse (methodFormat name method.text) = .ok (f, none) ∧
      f.sections.flatMap items = [.field { fieldName := name.text, method := method.text }] := by
  have htext : (methodFormat name method.text).toList =
      '{' :: ((name.text ++ "." ++ method.text).toList ++ ['}']) := by
    simp [methodFormat, String.toList_append]
  have hbody : '}' ∉ (name.text ++ "." ++ method.text).toList := by
    simp only [String.toList_append, List.mem_append, not_or]
    refine ⟨⟨fun h => name.plain _ h (by simp), by decide +kernel⟩, fun h => method.plain _ h (by simp)⟩
  have hopen : ((name.text ++ "." ++ method.text).toList ++ ['}']).head? ≠ some '{' := by
    intro h
    have hmem : '{' ∈ (name.text ++ "." ++ method.text).toList ++ ['}'] := List.mem_of_mem_head? h
    simp only [String.toList_append, List.mem_append] at hmem
    rcases hmem with ((h | h) | h) | h
    · exact name.plain _ h (by simp)
    · exact absurd h (by decide +kernel)
    · exact method.plain _ h (by simp)
    · exact absurd h (by decide +kernel)
  have hlex : lex none (methodFormat name method.text).toList =
      ([.field (name.text ++ "." ++ method.text).toList], true) := by
    rw [htext, lex_open hopen, lex_body hbody, List.nil_append, lex]
    rfl
  refine parse_of_lex hlex ?_
  rw [List.mapM_cons, Token.item, String.ofList_toList, parseField_method]
  rfl

theorem render_method :
    ∃ f, parse (methodFormat name method.text) = .ok (f, none) ∧
      f.format u (some values) =
        .ok (Field.render u { fieldName := name.text, method := method.text } values) := by
  obtain ⟨f, hparse, hitems⟩ := parse_method name method
  refine ⟨f, hparse, congrArg Except.ok (String.toList_inj.mp ?_)⟩
  rw [render_items, hitems]
  exact List.append_nil _

theorem render_identifier (name v : String) (h : values[name]? = some v) :
    (Field.render u { fieldName := name, method := "identifier()" } values).toList =
      '"' :: v.toList ++ ['"'] := by
  simp [Field.render, h, String.toList_append]

theorem render_string (name v : String) (h : values[name]? = some v) :
    (Field.render u { fieldName := name, method := "string()" } values).toList =
      '\'' :: double '\'' v.toList ++ ['\''] := by
  simp [Field.render, h, String.toList_append, double]

/-- The text renders as one token that denotes `v`, with nothing left over. -/
def ReadsAs (u : Strings) (format : String) (values : Values) (token : Quoted.Token) : Prop :=
  ∃ f text, parse format = .ok (f, none) ∧ f.format u (some values) = .ok text ∧
    scan maxIdentifier text.toList = some (token, [])

theorem readsAs_method (token : Quoted.Token) :
    ReadsAs u (methodFormat name method.text) values token ↔
      scan maxIdentifier
        (Field.render u { fieldName := name.text, method := method.text } values).toList =
        some (token, []) := by
  obtain ⟨f, hparse, hrender⟩ := render_method u values name method
  constructor
  · intro ⟨f', text, hparse', hrender', hscan⟩
    rw [hparse] at hparse'
    cases hparse'
    rw [hrender] at hrender'
    cases hrender'
    exact hscan
  · intro hscan
    exact ⟨f, _, hparse, hrender, hscan⟩

/-- **`identifier()` is read back exactly when the value needs no escape**: it reads as one
token denoting the value if and only if the value is not empty, has no double quote and
fits in an identifier. **`string()` is always read back.** -/
theorem quoting_exact_iff (u : Strings) (x : FieldName) (values : Values) (v : String)
    (h : values[x.text]? = some v) :
    (ReadsAs u (methodFormat x "identifier()") values (.ident v.toList) ↔
      v ≠ "" ∧ '"' ∉ v.toList ∧ bytes v.toList ≤ maxIdentifier) ∧
    ReadsAs u (methodFormat x "string()") values (.string v.toList) := by
  constructor
  · rw [ne_eq, ← String.toList_eq_nil_iff, ← scan_ident_iff]
    refine (readsAs_method u values x identifier _).trans ?_
    exact iff_of_eq (congrArg (fun text => scan maxIdentifier text = _)
      (render_identifier u values x.text v h))
  · refine (readsAs_method u values x string _).mpr ?_
    exact (congrArg _ (render_string u values x.text v h)).trans (scan_string _ _)

/-- The value of `{x}`. -/
def single (v : String) : Values := (∅ : Values).insert "x" v

def x : FieldName := ⟨"x", by simp, by decide +kernel⟩

theorem alice_quoted :
    ReadsAs caseless (methodFormat x "identifier()") (single "alice") (.ident "alice".toList) ∧
      ReadsAs caseless (methodFormat x "string()") (single "alice")
        (.string "alice".toList) := by
  have hvalue : (single "alice")[x.text]? = some "alice" := by decide +kernel
  obtain ⟨hidentifier, hstring⟩ := quoting_exact_iff caseless x (single "alice") "alice" hvalue
  exact ⟨hidentifier.mpr (by decide +kernel), hstring⟩

/-- The quote in the value ends the identifier: the rest is SQL of its own. -/
theorem quote_injected :
    let v := "a\"; DROP ROLE b; --"
    let f : Format := ⟨"\x7bx.identifier()\x7d",
      [.field { fieldName := "x", method := "identifier()" }]⟩
    parse (methodFormat x "identifier()") = .ok (f, none) ∧
      f.format caseless (some (single v)) = .ok "\"a\"; DROP ROLE b; --\"" ∧
      scan maxIdentifier "\"a\"; DROP ROLE b; --\"".toList =
        some (.ident ['a'], "; DROP ROLE b; --\"".toList) := by
  refine ⟨by decide +kernel, by decide +kernel, by decide +kernel⟩

end Ldap2pg.Pyfmt.Quoting
