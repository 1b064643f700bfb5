import Ldap2pg.Pyfmt.Parse

/-! # Reading back a written format, and rendering without a field

Literals are written with their braces doubled, fields between braces. Parsing gives
the fields back and rendering the literals, however literals and fields follow each
other. A format without a field is rendered from its input when there is no value,
and from its sections otherwise. -/
namespace Ldap2pg.Pyfmt.Roundtrip
open Lib Pyfmt.Parse

variable (u : Strings) (values : Values)

/-! ## 1. A format by its items -/

def Item.text (u : Strings) (values : Values) : Item → List Char
  | .char c => [c]
  | .field f => (f.render u values).toList

def Item.field? : Item → Option Field
  | .char _ => none
  | .field f => some f

theorem flatMap_char_text (text : List Char) :
    (text.map Item.char).flatMap (Item.text u values) = text := by
  rw [List.flatMap_map]
  exact List.flatMap_pure_eq_map _ _ |>.trans (List.map_id _)

theorem items_text (sec : Section) :
    (items sec).flatMap (Item.text u values) = (sec.render u values).toList := by
  cases sec with
  | literal s => exact flatMap_char_text u values s.toList
  | field f => simp [items, Item.text, Section.render]

/-- A format renders as its items do, one after the other. -/
theorem render_items (f : Format) :
    (f.render u values).toList = (f.sections.flatMap items).flatMap (Item.text u values) := by
  have hfold : ∀ (sections : List Section) (b : String),
      (sections.foldl (fun b item => b ++ item.render u values) b).toList =
        b.toList ++ (sections.flatMap items).flatMap (Item.text u values) := by
    intro sections
    induction sections with
    | nil => simp
    | cons sec sections ih =>
      intro b
      rw [List.foldl_cons, ih, String.toList_append, List.flatMap_cons, List.flatMap_append,
        items_text, List.append_assoc]
  simpa [Format.render] using hfold f.sections ""

theorem fields_items (f : Format) :
    f.fields = (f.sections.flatMap items).filterMap Item.field? := by
  have hitems : ∀ sec : Section,
      (items sec).filterMap Item.field? = sec.field?.toList := by
    intro sec
    cases sec with
    | literal s => simp [items, Section.field?, Item.field?, List.filterMap_map, Function.comp_def]
    | field f => rfl
  rw [Format.fields]
  induction f.sections with
  | nil => rfl
  | cons sec sections ih =>
    rw [List.flatMap_cons, List.filterMap_append, hitems, ← ih]
    cases hf : sec.field? <;> simp [hf]

/-- What `Parse` returns, from what `lex` reads. -/
theorem parse_of_lex {s : String} {tokens : List Token} {out : List Item}
    (hlex : lex none s.toList = (tokens, true)) (hitems : tokens.mapM Token.item = .ok out) :
    ∃ f, parse s = .ok (f, none) ∧ f.sections.flatMap items = out := by
  have hread := parse_reading s
  rw [reading, hlex, hitems] at hread
  cases hp : parse s with
  | error e => rw [hp] at hread; cases hread
  | ok r =>
    rw [hp] at hread
    obtain ⟨hout, herr⟩ := Prod.mk.inj (Except.ok.inj hread)
    exact ⟨r.1, congrArg Except.ok (Prod.ext rfl herr), hout⟩

/-- What `lex` reads, from what `Parse` returns. -/
theorem lex_of_parse {s : String} {f : Format} (h : parse s = .ok (f, none)) :
    (lex none s.toList).2 = true ∧
      (lex none s.toList).1.mapM Token.item = .ok (f.sections.flatMap items) := by
  have hread := parse_reading s
  rw [reading, h] at hread
  cases hm : (lex none s.toList).1.mapM Token.item with
  | error e => rw [hm] at hread; cases hread
  | ok out =>
    rw [hm] at hread
    obtain ⟨hout, herr⟩ := Prod.mk.inj (Except.ok.inj hread)
    have hclosed : (lex none s.toList).2 = true := by
      by_contra hopen
      rw [if_neg hopen] at herr
      cases herr
    exact ⟨hclosed, congrArg Except.ok hout.symm⟩

/-! ## 2. Writing a format -/

/-- A field name that is written as it is. -/
structure FieldName where
  text : String
  plain : ∀ c ∈ text.toList, c ∉ ['{', '}', '!', ':']
  noMethod : ¬ "()".toList <:+ text.toList

inductive Segment where
  | literal (text : String)
  | field (name : FieldName)

/-- A literal's braces are doubled. -/
def escape (c : Char) : List Char := if c = '{' ∨ c = '}' then [c, c] else [c]

def Segment.write : Segment → List Char
  | .literal text => text.toList.flatMap escape
  | .field name => '{' :: name.text.toList ++ ['}']

def write (segments : List Segment) : String := .ofList (segments.flatMap Segment.write)

def Segment.fieldName? : Segment → Option String
  | .literal _ => none
  | .field name => some name.text

/-- The text a segment stands for. -/
def Segment.text (values : Values) : Segment → List Char
  | .literal text => text.toList
  | .field name => (values[name.text]?.getD "").toList

def Segment.tokens : Segment → List Token
  | .literal text => text.toList.map .char
  | .field name => [.field name.text.toList]

def Segment.items : Segment → List Item
  | .literal text => text.toList.map .char
  | .field name => [.field { fieldName := name.text }]

variable (segment : Segment)

/-- A written character is read back, whatever follows. -/
theorem lex_escape (c : Char) (rest : List Char) :
    lex none (escape c ++ rest) = (.char c :: (lex none rest).1, (lex none rest).2) := by
  by_cases hopen : c = '{'
  · subst hopen; rfl
  · by_cases hclose : c = '}'
    · subst hclose; rfl
    · rw [escape, if_neg (by simp [hopen, hclose]), List.singleton_append]
      exact lex_char hopen fun hp => hclose hp.1

/-- A written segment is read back, whatever follows. -/
theorem lex_segment (rest : List Char) :
    lex none (segment.write ++ rest) = (segment.tokens ++ (lex none rest).1, (lex none rest).2) := by
  cases segment with
  | literal text =>
    simp only [Segment.write, Segment.tokens]
    induction text.toList with
    | nil => rfl
    | cons c cs ih => rw [List.flatMap_cons, List.append_assoc, lex_escape, ih]; rfl
  | field name =>
    have hbody : '}' ∉ name.text.toList := fun hb => name.plain _ hb (by simp)
    have hhead : (name.text.toList ++ ['}'] ++ rest).head? ≠ some '{' := by
      cases htext : name.text.toList with
      | nil => simp
      | cons c cs =>
        intro hc
        refine name.plain c (by simp [htext]) ?_
        rw [Option.some.inj hc]
        simp
    rw [Segment.write, Segment.tokens, List.cons_append, List.cons_append, lex_open hhead,
      List.append_assoc, lex_body hbody, List.nil_append, List.singleton_append, lex]
    rfl

theorem lex_write : ∀ segments : List Segment,
    lex none (segments.flatMap Segment.write) = (segments.flatMap Segment.tokens, true)
  | [] => rfl
  | segment :: segments => by
    rw [List.flatMap_cons, lex_segment, lex_write segments]
    rfl

theorem parseField_plain (name : FieldName) :
    parseField (.ofList name.text.toList) = .ok { fieldName := name.text } := by
  have hbang : '!' ∉ name.text.toList := fun hb => name.plain _ hb (by simp)
  have hcolon : ':' ∉ name.text.toList := fun hb => name.plain _ hb (by simp)
  have hmethod : ¬ "()".toList.isSuffixOf name.text.toList = true :=
    fun h => name.noMethod (List.isSuffixOf_iff_suffix.mp h)
  have hparts : fieldParts name.text = (name.text, "", "") := by
    simp [fieldParts, cut_of_not_mem hbang, cut_of_not_mem hcolon]
  rw [String.ofList_toList, parseField, hparts]
  simp only
  rw [if_neg hmethod]
  rfl

theorem mapM_segment : segment.tokens.mapM Token.item = .ok segment.items := by
  cases segment with
  | literal text => exact mapM_char text.toList
  | field name =>
    rw [Segment.tokens, List.mapM_cons, Token.item, parseField_plain]
    rfl

theorem mapM_segments : ∀ segments : List Segment,
    (segments.flatMap Segment.tokens).mapM Token.item = .ok (segments.flatMap Segment.items)
  | [] => rfl
  | segment :: segments => by
    rw [List.flatMap_cons, List.mapM_append, mapM_segment, ok_bind, mapM_segments segments]
    rfl

theorem segment_fields : segment.items.filterMap Item.field? =
    segment.fieldName?.toList.map fun name => { fieldName := name } := by
  cases segment with
  | literal text =>
    simp [Segment.items, Segment.fieldName?, Item.field?, List.filterMap_map, Function.comp_def]
  | field name => rfl

theorem segment_text : segment.items.flatMap (Item.text u values) = segment.text values := by
  cases segment with
  | literal text => exact flatMap_char_text u values text.toList
  | field name => simp [Segment.items, Segment.text, Item.text, Field.render]

/-- **Parsing undoes writing.** The fields are the written names in order, and a
rendering puts the values between the literals. -/
theorem parse_write (u : Strings) (segments : List Segment) :
    ∃ f, parse (write segments) = .ok (f, none) ∧
      f.fields = (segments.filterMap Segment.fieldName?).map (fun name => { fieldName := name }) ∧
      ∀ values : Values, f.format u (some values) =
        .ok (.ofList (segments.flatMap (Segment.text values))) := by
  have hlex : lex none (write segments).toList = (segments.flatMap Segment.tokens, true) := by
    rw [write, String.toList_ofList, lex_write]
  obtain ⟨f, hparse, hitems⟩ := parse_of_lex hlex (mapM_segments segments)
  refine ⟨f, hparse, ?_, fun values => ?_⟩
  · rw [fields_items, hitems]
    clear hlex hparse hitems
    induction segments with
    | nil => rfl
    | cons segment segments ih =>
      rw [List.flatMap_cons, List.filterMap_append, ih, segment_fields]
      cases hf : segment.fieldName? <;> simp [hf]
  · rw [format_some]
    refine congrArg Except.ok (String.toList_inj.mp ?_)
    rw [render_items, hitems, String.toList_ofList, List.flatMap_assoc]
    exact List.flatMap_congr fun segment _ => segment_text u values segment

/-! ## 3. Formats without a field -/

theorem length_lex (mode : Option (List Char)) (s : List Char) :
    (lex mode s).1.length ≤ s.length := by
  fun_induction lex mode s <;> simp_all <;> omega

theorem mapM_static {tokens : List Token} {out : List Item}
    (hitems : tokens.mapM Token.item = .ok out) (hstatic : out.filterMap Item.field? = []) :
    ∃ text : List Char, tokens = text.map Token.char ∧ out = text.map Item.char := by
  have hall := mapM_ok_iff.mp hitems
  clear hitems
  induction hall with
  | nil => exact ⟨[], rfl, rfl⟩
  | @cons token item tokens out hitem _ ih =>
    cases token with
    | char c =>
      cases hitem
      obtain ⟨text, rfl, rfl⟩ := ih hstatic
      exact ⟨c :: text, rfl, rfl⟩
    | field body =>
      rw [Token.item] at hitem
      cases hf : parseField (.ofList body) with
      | error e => rw [hf] at hitem; cases hitem
      | ok f => rw [hf] at hitem; cases hitem; cases hstatic

theorem length_unbrace : ∀ s : List Char, (unbrace s).length ≤ s.length
  | [] => Nat.le_refl _
  | [c] => by rw [unbrace_char (by simp)]; rfl
  | c :: d :: s => by
    by_cases hp : c = '}' ∧ d = '}'
    · obtain ⟨rfl, rfl⟩ := hp
      rw [unbrace_pair]
      exact Nat.le_succ_of_le (Nat.succ_le_succ (length_unbrace s))
    · rw [unbrace_char (by simpa using hp)]
      exact Nat.succ_le_succ (length_unbrace (d :: s))

/-- A literal is read as it is written when no closing brace is doubled. -/
theorem unbrace_eq_iff : ∀ s : List Char, unbrace s = s ↔ ¬ ['}', '}'] <:+: s
  | [] => by simp
  | [c] => by
    rw [unbrace_char (by simp)]
    exact ⟨fun _ h => (by simpa using h.length_le), fun _ => rfl⟩
  | c :: d :: s => by
    by_cases hp : c = '}' ∧ d = '}'
    · obtain ⟨rfl, rfl⟩ := hp
      rw [unbrace_pair]
      refine ⟨fun h => ?_, fun h => absurd ⟨[], s, rfl⟩ h⟩
      have hlen := congrArg List.length h
      have hle := length_unbrace s
      simp only [List.length_cons] at hlen
      omega
    · have hprefix : ¬ ['}', '}'] <+: c :: d :: s := by
        intro h
        obtain ⟨hc, h⟩ := List.cons_prefix_cons.mp h
        exact hp ⟨hc.symm, (List.cons_prefix_cons.mp h).1.symm⟩
      have hinfix : ['}', '}'] <:+: c :: d :: s ↔ ['}', '}'] <:+: d :: s := by
        rw [List.infix_cons_iff]
        exact or_iff_right hprefix
      rw [unbrace_char (by simpa using hp), List.cons.injEq, unbrace_eq_iff (d :: s), hinfix]
      exact ⟨fun h => h.2, fun h => ⟨rfl, h⟩⟩

/-- From inside a field, a closed text gives a field. -/
theorem lex_field_ne : ∀ (t body text : List Char),
    lex (some body) t ≠ (text.map Token.char, true)
  | [], body, text => by simp [lex]
  | c :: t, body, text => by
    by_cases hc : c = '}'
    · subst hc
      rw [lex]
      intro h
      cases text with
      | nil => cases h
      | cons d text => cases h
    · rw [lex]
      · exact lex_field_ne t (body ++ [c]) text
      · exact hc

/-- The text of a format without a field is the input when nothing is escaped. -/
theorem text_eq_iff {s text : List Char} (hlex : lex none s = (text.map Token.char, true)) :
    text = s ↔ '{' ∉ s ∧ ¬ ['}', '}'] <:+: s := by
  by_cases hopen : '{' ∈ s
  · refine ⟨fun heq => ?_, fun h => absurd hopen h.1⟩
    obtain ⟨lit, t, rfl, hlit⟩ := List.eq_append_cons_of_mem hopen
    rw [lex_literal _ (by simp) lit hlit] at hlex
    obtain ⟨htokens, hclosed⟩ := Prod.mk.inj hlex
    by_cases hesc : t.head? = some '{'
    · -- an escape is one character shorter
      exfalso
      cases t with
      | nil => cases hesc
      | cons c t =>
        cases hesc
        rw [lex] at htokens
        have hlen := congrArg List.length htokens
        have hle := length_lex none t
        have hle' := length_unbrace lit
        have heq' := congrArg List.length heq
        simp only [List.length_append, List.length_map, List.length_cons] at hlen heq'
        omega
    · rw [lex_open hesc] at htokens hclosed
      obtain ⟨_, rest, _, _, hrest⟩ := List.append_eq_map_iff.mp htokens
      exact absurd (Prod.ext hrest.symm hclosed) (lex_field_ne t [] rest)
  · have hlit := lex_literal [] (by simp) s hopen
    rw [List.append_nil, hlex] at hlit
    have htext : text = unbrace s := by
      have hmap := (Prod.mk.inj hlit).1
      rw [lex, List.append_nil] at hmap
      exact List.map_injective_iff.mpr (fun _ _ h => Token.char.inj h) hmap
    rw [htext, unbrace_eq_iff]
    exact ⟨fun h => ⟨hopen, h⟩, fun h => h.2⟩

/-- **The static shortcut agrees with rendering exactly where nothing is escaped**: on
an accepted text without a field, rendering without values, the input and rendering
with values agree if and only if the text has neither `{` nor a doubled `}`. -/
theorem static_shortcut_iff (u : Strings) (s : String) (f : Format)
    (h : parse s = .ok (f, none)) (hstatic : f.isStatic = true) :
    (∀ values : Values, f.format u none = .ok f.string ∧
        f.format u (some values) = .ok f.string) ↔
      '{' ∉ s.toList ∧ ¬ ['}', '}'] <:+: s.toList := by
  obtain ⟨hclosed, hitems⟩ := lex_of_parse h
  have hfields : (f.sections.flatMap items).filterMap Item.field? = [] := by
    rw [← fields_items]
    exact isStatic_iff.mp hstatic
  obtain ⟨text, htokens, hout⟩ := mapM_static hitems hfields
  have hrender : ∀ values, (f.render u values).toList = text := by
    intro values
    rw [render_items, hout, flatMap_char_text]
  rw [← text_eq_iff (Prod.ext htokens hclosed), format_none_static hstatic, Format.string,
    parse_input h]
  constructor
  · intro hall
    have hval := Except.ok.inj (hall ∅).2
    rw [← hrender ∅, hval]
  · intro heq values
    refine ⟨rfl, congrArg Except.ok (String.toList_inj.mp ?_)⟩
    rw [hrender values, heq]

/-- Case mappings that leave every text as it is. -/
def caseless : Strings where
  toLower := id
  toUpper := id
  equalFold := fun a b => a == b
  toLower_letters := id_letters

/-- A single closing brace is no escape. -/
theorem set_comment_agrees :
    let f : Format := ⟨"set\x7d", [.literal "set\x7d"]⟩
    parse "set\x7d" = .ok (f, none) ∧ f.format caseless none = .ok "set\x7d" ∧
      f.format caseless (some ∅) = .ok "set\x7d" := by
  intro f
  have hparse : parse "set\x7d" = .ok (f, none) := by decide +kernel
  have hplain : '{' ∉ "set\x7d".toList ∧ ¬ ['}', '}'] <:+: "set\x7d".toList := by decide +kernel
  have hagree := (static_shortcut_iff caseless "set\x7d" f hparse rfl).mpr hplain ∅
  exact ⟨hparse, hagree⟩

/-- An escaped brace: the input without values, one brace with values. -/
theorem escaped_comment_differs :
    let f : Format := ⟨"\x7b\x7bset\x7d\x7d", [.literal "\x7b", .literal "set\x7d"]⟩
    parse "\x7b\x7bset\x7d\x7d" = .ok (f, none) ∧ f.isStatic = true ∧
      f.format caseless none = .ok "\x7b\x7bset\x7d\x7d" ∧
      f.format caseless (some ∅) = .ok "\x7bset\x7d" := by
  decide +kernel

end Ldap2pg.Pyfmt.Roundtrip
