import Ldap2pg.Ldap

/-! # The values an entry gives to formats

`GenerateValues` chooses a value for each attribute that the formats refer to, and
reads every expression off the choice. With a sub-search, the choices in the
sub-entries are numbered, and the numbers combined with the values of the entry. -/
namespace Ldap2pg.Ldap
open Lib Pyfmt Ldap2pg.Lists

/-- The distinct expressions of the formats. -/
def expressionsOf (fmts : List Format) : List String :=
  ((fmts.flatMap Format.fields).map Field.fieldName).dedup

/-- The distinct attributes of the expressions. -/
def attributesOf (expressions : List String) : List String := (expressions.map root).dedup

section Orders
variable {o : Order} {fmts : List Format} {expressions expressions' : List String}

theorem listExpressions_perm : (listExpressions o fmts).Perm (expressionsOf fmts) := o.range_perm _

theorem listVariables_perm (h : expressions.Perm expressions') :
    (listVariables o expressions).Perm (attributesOf expressions') :=
  (o.range_perm _).trans (h.map root).dedup

theorem mem_attributesOf {attr : String} :
    attr ∈ attributesOf expressions ↔ ∃ e ∈ expressions, root e = attr := by
  simp [attributesOf]

end Orders

/-! ## Maps of expressions -/

/-- The map of the expressions that have a value. -/
def valuesOf (value : String → Option String) (expressions : List String) : Values :=
  expressions.foldl (fun m e => match value e with
    | none => m
    | some v => m.insert e v) ∅

section ValuesOf
variable {value value' : String → Option String} {expressions expressions' : List String}

theorem get_valuesOf {e : String} :
    (valuesOf value expressions)[e]? = if e ∈ expressions then value e else none := by
  have hfold : ∀ (l : List String) (m : Values), (l.foldl (fun m e => match value e with
      | none => m
      | some v => m.insert e v) m)[e]? = if e ∈ l then (value e).or m[e]? else m[e]? := by
    intro l
    induction l with
    | nil => simp
    | cons a l ih =>
      intro m
      rw [List.foldl_cons, ih]
      by_cases ha : e = a
      · subst ha
        cases value e <;> simp
      · cases value a <;> simp [ha, Ne.symm ha]
  rw [valuesOf, hfold]
  simp

/-- Nothing depends on the order of the expressions. -/
theorem valuesOf_congr (h : expressions.Perm expressions')
    (hvalue : ∀ e ∈ expressions', value e = value' e) :
    valuesOf value expressions = valuesOf value' expressions' := by
  refine Dict.ext_get fun e => ?_
  simp only [get_valuesOf, h.mem_iff]
  split
  case isTrue he => exact hvalue e he
  case isFalse => rfl

end ValuesOf

section Resolve
variable {env : Env} {subsearchAttribute : String} {attrValues : Values} {subExprMap : Dict Values}

/-- The value of one expression, none if its RDN cannot be read. -/
def expressionValue (env : Env) (subsearchAttribute : String) (attrValues : Values)
    (subExprMap : Dict Values) (expr : String) : Option String :=
  match cut '.' expr with
  | (attr, field, hasField) =>
    let value := attrValues[attr]?.getD ""
    if hasField = false then some value
    else if attr = subsearchAttribute then some ((subExprMap[value]?.getD ∅)[field]?.getD "")
    else resolveFirstRDN env value field

theorem resolveExpressions_eq (expressions : List String) :
    resolveExpressions env subsearchAttribute expressions attrValues subExprMap =
      valuesOf (expressionValue env subsearchAttribute attrValues subExprMap) expressions := by
  refine congrArg (expressions.foldl · ∅) (funext fun m => funext fun e => ?_)
  unfold expressionValue
  rcases cut '.' e with ⟨attr, field, hasField⟩
  simp only
  split
  · rfl
  · split <;> rfl

end Resolve

/-- With an attribute at least, combinations are the choices of a value for each. -/
theorem generateCombinations_eq {env : Env} {entry : Entry} {subsearchAttribute : String}
    {attributes subKeys : List String} (h : attributes ≠ []) :
    generateCombinations env entry subsearchAttribute attributes subKeys =
      choices (attributeValues env entry subsearchAttribute subKeys) ∅ attributes := by
  rw [generateCombinations, product_eq (by simpa using h), map_tuples]

/-! ## Without a sub-search -/

/-- Every choice of a value for each attribute, with the expressions read off it. -/
def expectedValues (env : Env) (entry : Entry) (fmts : List Format) : List Values :=
  (choices (attributeValues env entry "" []) ∅ (attributesOf (expressionsOf fmts))).map fun values =>
    resolveExpressions env "" (expressionsOf fmts) values ∅

theorem expressionsOf_ne_nil {fmts : List Format} :
    expressionsOf fmts ≠ [] ↔ ∃ f ∈ fmts, f.isStatic = false := by
  simp [expressionsOf, Format.isStatic, List.dedup_eq_nil]

theorem attributesOf_ne_nil {expressions : List String} (h : expressions ≠ []) :
    attributesOf expressions ≠ [] := by
  simpa [attributesOf, List.dedup_eq_nil] using h

theorem nodup_expressionsOf (fmts : List Format) : (expressionsOf fmts).Nodup :=
  List.nodup_dedup _

theorem nodup_attributesOf (expressions : List String) : (attributesOf expressions).Nodup :=
  List.nodup_dedup _

theorem generateValues_perm {env : Env} {r : Result} (hsub : r.subsearchAttribute = "") (o : Order)
    {entry : Entry} {fmts : List Format} (h : ∃ f ∈ fmts, f.isStatic = false) :
    (r.generateValues env o entry fmts).Perm (expectedValues env entry fmts) := by
  have hexpressions : (listExpressions (o.sub 0) fmts).Perm (expressionsOf fmts) :=
    listExpressions_perm
  have hattributes : (listVariables (o.sub 1) (listExpressions (o.sub 0) fmts)).Perm
    (attributesOf (expressionsOf fmts)) := listVariables_perm hexpressions
  have hne : listVariables (o.sub 1) (listExpressions (o.sub 0) fmts) ≠ [] := fun hnil =>
    attributesOf_ne_nil (expressionsOf_ne_nil.mpr h) (List.nil_perm.mp (hnil ▸ hattributes))
  have hgenerate : r.generateValues env o entry fmts =
      (choices (attributeValues env entry "" []) ∅
        (listVariables (o.sub 1) (listExpressions (o.sub 0) fmts))).map fun values =>
          resolveExpressions env "" (expressionsOf fmts) values ∅ := by
    have hkeys : (o.sub 3).range (∅ : Dict Values).keys = [] := Order.range_nil _
    simp only [Result.generateValues, hsub, ne_eq, not_true_eq_false, if_false, hkeys,
      generateCombinations_eq hne, resolveExpressions_eq, valuesOf_congr hexpressions fun _ _ => rfl]
  rw [hgenerate]
  exact (choices_perm (hattributes.nodup_iff.mpr (nodup_attributesOf _)) hattributes ∅).map _

end Ldap2pg.Ldap
