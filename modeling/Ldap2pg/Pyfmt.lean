import Ldap2pg.Lib.GoMap

/-! # `internal/pyfmt`: formats with fields to fill from LDAP

A format is its input text and its sections, literals and fields in order. The
source keeps the fields a second time as pointers into the sections; here they
are read off the sections, so that rewriting a field rewrites both. -/
namespace Ldap2pg.Pyfmt
open Lib

/-- What the code takes from Go's `strings` package that depends on the
Unicode tables. -/
structure Strings where
  toLower : String → String
  toUpper : String → String
  equalFold : String → String → Bool
  /-- lower-case letters are left as they are -/
  toLower_letters : ∀ s : String, (∀ c ∈ s.toList, 'a' ≤ c ∧ c ≤ 'z') → toLower s = s

/-- So does a `toLower` that changes nothing. -/
theorem id_letters (s : String) (_ : ∀ c ∈ s.toList, 'a' ≤ c ∧ c ≤ 'z') : id s = s := rfl

/-- `strings.Cut(s, sep)` for a one-character separator: before, after, found. -/
def cut (sep : Char) (s : String) : String × String × Bool :=
  if sep ∈ s.toList then
    (String.ofList (s.toList.takeWhile (· ≠ sep)),
      String.ofList ((s.toList.dropWhile (· ≠ sep)).drop 1), true)
  else (s, "", false)

/-- The part of an expression before the first dot. -/
def root (expr : String) : String := (cut '.' expr).1

structure Field where
  fieldName : String
  formatSpec : String := ""
  conversion : String := ""
  method : String := ""
  deriving DecidableEq, Repr

inductive Section where
  | literal (s : String)
  | field (f : Field)
  deriving DecidableEq, Repr

structure Format where
  input : String
  sections : List Section
  deriving DecidableEq, Repr

def Section.field? : Section → Option Field
  | .literal _ => none
  | .field f => some f

def Format.fields (f : Format) : List Field := f.sections.filterMap Section.field?

def Format.isStatic (f : Format) : Bool := f.fields.isEmpty

/-- `Format.String`: the raw input. -/
def Format.string (f : Format) : String := f.input

def Section.mapField (g : Field → Field) : Section → Section
  | .literal s => .literal s
  | .field f => .field (g f)

/-- Rewrites every field, as the code does through the field pointers. -/
def Format.mapFields (g : Field → Field) (f : Format) : Format :=
  { f with sections := f.sections.map (Section.mapField g) }

/-- The values of a rendering: a Go map from expression to text. -/
abbrev Values := Dict String

/-- The panics of the modelled code. -/
inductive Panic where
  /-- "rendering dynamic format without values" -/
  | dynamicWithoutValues
  /-- "%s not in inspected databases" -/
  | notInspected (database : String)
  /-- `databases[0]` on an empty list -/
  | noDatabase
  /-- `MatchString` on a malformed pattern -/
  | badPattern
  /-- a recursion that does not end -/
  | stackOverflow
  deriving DecidableEq, Repr

/-- The text of one field: the value, passed through the field's method. -/
def Field.render (u : Strings) (f : Field) (values : Values) : String :=
  let v := values[f.fieldName]?.getD ""
  if f.method = "" then v
  else if f.method = "lower()" then u.toLower v
  else if f.method = "upper()" then u.toUpper v
  else if f.method = "identifier()" then "\"" ++ v ++ "\""
  else if f.method = "string()" then
    "'" ++ String.ofList (v.toList.flatMap fun c => if c = '\'' then ['\'', '\''] else [c]) ++ "'"
  else "!INVALID_METHOD"

def Section.render (u : Strings) (values : Values) : Section → String
  | .literal s => s
  | .field f => f.render u values

def Format.render (u : Strings) (f : Format) (values : Values) : String :=
  f.sections.foldl (fun b item => b ++ item.render u values) ""

/-- `Format.Format`: a nil map renders static formats only. -/
def Format.format (u : Strings) (f : Format) : Option Values → Except Panic String
  | none => if f.isStatic then .ok f.string else .error .dynamicWithoutValues
  | some values => .ok (f.render u values)

/-- The distinct field names of the formats, in the order the set gives them. -/
def listExpressions (o : Order) (fmts : List Format) : List String :=
  o.range ((fmts.flatMap Format.fields).map Field.fieldName).dedup

/-- The distinct roots of the expressions, in the order the set gives them. -/
def listVariables (o : Order) (expressions : List String) : List String :=
  o.range (expressions.map root).dedup

@[simp] theorem format_some (u : Strings) (f : Format) (v : Values) :
    f.format u (some v) = .ok (f.render u v) := rfl

theorem format_none_static {u : Strings} {f : Format} (h : f.isStatic = true) :
    f.format u none = .ok f.string := by simp [Format.format, h]

theorem format_none_dynamic {u : Strings} {f : Format} (h : f.isStatic = false) :
    f.format u none = .error .dynamicWithoutValues := by simp [Format.format, h]

theorem format_ok {u : Strings} {f : Format} {values : Option Values}
    (h : values.isSome = true ∨ f.isStatic = true) : ∃ s, f.format u values = .ok s := by
  cases values with
  | some v => exact ⟨_, rfl⟩
  | none => exact ⟨_, format_none_static (h.resolve_left (by simp))⟩

theorem isStatic_iff {f : Format} : f.isStatic = true ↔ f.fields = [] := by
  simp [Format.isStatic, List.isEmpty_iff]

@[simp] theorem mapFields_fields (g : Field → Field) (f : Format) :
    (f.mapFields g).fields = f.fields.map g := by
  have hs : ∀ s : Section, (s.mapField g).field? = s.field?.map g := by
    intro s; cases s <;> rfl
  simp only [Format.fields, Format.mapFields, List.filterMap_map, List.map_filterMap]
  exact congrArg (List.filterMap · f.sections) (funext hs)

@[simp] theorem mapFields_isStatic (g : Field → Field) (f : Format) :
    (f.mapFields g).isStatic = f.isStatic := by
  simp [Format.isStatic]

theorem mem_listExpressions {o : Order} {fmts : List Format} {e : String} :
    e ∈ listExpressions o fmts ↔ ∃ f ∈ fmts, ∃ x ∈ f.fields, x.fieldName = e := by
  simp only [listExpressions, Order.mem_range, List.mem_dedup, List.mem_map, List.mem_flatMap]
  constructor
  · rintro ⟨x, ⟨f, hf, hx⟩, rfl⟩; exact ⟨f, hf, x, hx, rfl⟩
  · rintro ⟨f, hf, x, hx, rfl⟩; exact ⟨x, ⟨f, hf, hx⟩, rfl⟩

/-- Without a field there is no expression. -/
theorem listExpressions_static {o : Order} {fmts : List Format}
    (h : ∀ f ∈ fmts, f.isStatic = true) : listExpressions o fmts = [] := by
  apply List.eq_nil_iff_forall_not_mem.mpr
  intro e he
  obtain ⟨f, hf, x, hx, _⟩ := mem_listExpressions.mp he
  rw [isStatic_iff.mp (h f hf)] at hx
  cases hx

theorem mem_listVariables {o : Order} {expressions : List String} {attr : String} :
    attr ∈ listVariables o expressions ↔ ∃ e ∈ expressions, root e = attr := by
  simp [listVariables]

/-! ## Cutting a text -/

theorem cut_of_not_mem {sep : Char} {s : String} (h : sep ∉ s.toList) :
    cut sep s = (s, "", false) := by
  rw [cut, if_neg h]

theorem cut_append_dot {attr : String} (h : '.' ∉ attr.toList) (rest : String) :
    cut '.' (attr ++ "." ++ rest) = (attr, rest, true) := by
  have hlist : (attr ++ "." ++ rest).toList = attr.toList ++ '.' :: rest.toList := by
    simp [String.toList_append]
  have hne : ∀ c ∈ attr.toList, decide (c ≠ '.') = true := fun c hc => by
    simpa using fun he : c = '.' => h (he ▸ hc)
  rw [cut, hlist, if_pos (by simp), List.takeWhile_append_of_pos hne,
    List.dropWhile_append_of_pos hne]
  simp

theorem root_append_dot {attr : String} (h : '.' ∉ attr.toList) (rest : String) :
    root (attr ++ "." ++ rest) = attr := congrArg Prod.fst (cut_append_dot h rest)

/-- An expression is an attribute, or an attribute and the rest. -/
theorem cut_cases (e : String) : ('.' ∉ e.toList ∧ cut '.' e = (e, "", false)) ∨
    ∃ attr rest, '.' ∉ attr.toList ∧ e = attr ++ "." ++ rest ∧ cut '.' e = (attr, rest, true) := by
  by_cases h : '.' ∈ e.toList
  · obtain ⟨before, after, heq, hbefore⟩ := List.eq_append_cons_of_mem h
    have he : e = String.ofList before ++ "." ++ String.ofList after := by
      rw [String.ext_iff, heq]
      simp [String.toList_append]
    have hdot : '.' ∉ (String.ofList before).toList := by rwa [String.toList_ofList]
    exact .inr ⟨_, _, hdot, he, he ▸ cut_append_dot hdot _⟩
  · exact .inl ⟨h, cut_of_not_mem h⟩

theorem dot_not_mem_root (s : String) : '.' ∉ (root s).toList := by
  rcases cut_cases s with ⟨h, hcut⟩ | ⟨attr, rest, h, _, hcut⟩ <;> rwa [root, hcut]

end Ldap2pg.Pyfmt
