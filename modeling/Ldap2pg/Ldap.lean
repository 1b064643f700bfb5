import Ldap2pg.Lists

/-! # `internal/ldap`: searches and the values an entry gives to formats

Parsing a distinguished name is left to `Env.parseDN`, which stands for the
vendored `ParseDN` and keeps of each RDN the type and the value of its first
attribute: the code reads nothing else of it. -/
namespace Ldap2pg.Ldap
open Lib Pyfmt Ldap2pg.Lists

/-- What the code takes from outside: Unicode-dependent string functions, the
DN parser and the configured list of known RDNs. -/
structure Env extends Strings where
  parseDN : String → Option (List (String × String))
  knownRDNs : List String

inductive Scope where
  | base | one | sub
  deriving DecidableEq, Repr

structure Subsearch where
  filter : String
  scope : Scope
  attributes : List String
  deriving DecidableEq

structure Search where
  base : String := ""
  scope : Scope := .base
  filter : String := ""
  attributes : List String := []
  subsearches : Dict Subsearch := ∅

/-- `Search.SubsearchAttribute`: the first key of the map, in the order it
comes, or the empty string. -/
def Search.subsearchAttribute (o : Order) (s : Search) : String :=
  (o.range s.subsearches.keys).headD ""

structure Entry where
  dn : String
  attributes : List (String × List String)
  deriving DecidableEq, Repr

/-- `Entry.GetEqualFoldAttributeValues`: the values of the first attribute of
that name up to letter case. -/
def Entry.values (env : Env) (e : Entry) (name : String) : List String :=
  ((e.attributes.find? fun a => env.equalFold name a.1).map Prod.snd).getD []

/-- One search sent to the directory. -/
structure Request where
  base : String
  scope : Scope
  filter : String
  attributes : List String
  deriving DecidableEq, Repr

/-- The answers of the directory: each search of a run, known by its site, is
answered or fails on its own. -/
abbrev Directory := List Nat → Request → Except String (List Entry)

/-- The answers to the searches below site `i`. -/
def Directory.sub (d : Directory) (i : Nat) : Directory := fun site => d (i :: site)

/-- A consistent set of an entry and its sub-search entries. -/
structure Result where
  entry : Option Entry := none
  subsearchAttribute : String := ""
  subsearchEntries : List Entry := []
  deriving DecidableEq, Repr

def resolveFirstRDN (env : Env) (rawDN relativeField : String) : Option String :=
  (env.parseDN rawDN).bind fun rdns =>
    (rdns.find? fun rdn => env.equalFold relativeField rdn.1).map Prod.snd

/-- The values one attribute takes in `GenerateCombinations`. An RDN that
cannot be read counts for the empty string. -/
def attributeValues (env : Env) (entry : Entry) (subsearchAttribute : String)
    (subKeys : List String) (attr : String) : List String :=
  if env.toLower attr = "dn" then [entry.dn]
  else if env.toLower attr ∈ env.knownRDNs then [(resolveFirstRDN env entry.dn attr).getD ""]
  else if env.equalFold subsearchAttribute attr then subKeys
  else entry.values env attr

/-- The product of the values of the attributes, each combination indexed by
attribute. -/
def generateCombinations (env : Env) (entry : Entry) (subsearchAttribute : String)
    (attributes subKeys : List String) : List Values :=
  (product (attributes.map (attributeValues env entry subsearchAttribute subKeys))).map
    fun item => (attributes.zip item).foldl (fun m kv => m.insert kv.1 kv.2) ∅

/-- An expression whose RDN cannot be read is left out of the map. -/
def resolveExpressions (env : Env) (subsearchAttribute : String) (expressions : List String)
    (attrValues : Values) (subExprMap : Dict Values) : Values :=
  expressions.foldl (fun exprMap expr =>
    match cut '.' expr with
    | (attr, field, hasField) =>
      let value := attrValues[attr]?.getD ""
      if hasField = false then exprMap.insert expr value
      else if attr = subsearchAttribute then
        exprMap.insert expr ((subExprMap[value]?.getD ∅)[field]?.getD "")
      else match resolveFirstRDN env value field with
        | none => exprMap
        | some value0 => exprMap.insert expr value0) ∅

def subKey (i j : Nat) : String := "subentry" ++ toString i ++ "-comb" ++ toString j

/-- The expressions in the scope of the sub-entry: `member.sAMAccountName` becomes
`sAMAccountName`. -/
def subExpressions (subsearchAttribute : String) (expressions : List String) : List String :=
  let pre := (subsearchAttribute ++ ".").toList
  expressions.filterMap fun e =>
    if pre.isPrefixOf e.toList then some (String.ofList (e.toList.drop pre.length)) else none

theorem mem_subExpressions_iff {subsearchAttribute rest : String} {expressions : List String} :
    rest ∈ subExpressions subsearchAttribute expressions ↔
      subsearchAttribute ++ "." ++ rest ∈ expressions := by
  simp only [subExpressions, List.mem_filterMap, Option.ite_none_right_eq_some, Option.some.injEq]
  constructor
  · rintro ⟨e, he, hpre, rfl⟩
    obtain ⟨t, ht⟩ := List.isPrefixOf_iff_prefix.mp hpre
    have heq : subsearchAttribute ++ "." ++
        String.ofList (e.toList.drop (subsearchAttribute ++ ".").toList.length) = e := by
      rw [← ht, List.drop_left, String.ext_iff, String.toList_append, String.toList_ofList, ht]
    rwa [heq]
  · intro h
    refine ⟨_, h, List.isPrefixOf_iff_prefix.mpr ⟨rest.toList, (String.toList_append ..).symm⟩, ?_⟩
    rw [String.toList_append (s := subsearchAttribute ++ "."), List.drop_left, String.ofList_toList]

/-- Resolved expressions of every combination of every sub-entry, by key. -/
def Result.generateSubsearchValues (env : Env) (o : Order) (r : Result)
    (parentExpressions : List String) : Dict Values :=
  let expressions := subExpressions r.subsearchAttribute parentExpressions
  let subAttributes := listVariables o expressions
  r.subsearchEntries.zipIdx.foldl (fun m se =>
    (generateCombinations env se.1 "" subAttributes []).zipIdx.foldl (fun m vj =>
      m.insert (subKey se.2 vj.2) (resolveExpressions env "" expressions vj.1 ∅)) m) ∅

/-- `Result.GenerateValues`. The entry is dereferenced: callers test it. -/
def Result.generateValues (env : Env) (o : Order) (r : Result) (entry : Entry)
    (fmts : List Format) : List Values :=
  let expressions := listExpressions (o.sub 0) fmts
  let attributes := listVariables (o.sub 1) expressions
  let subMap := if r.subsearchAttribute ≠ "" then
      r.generateSubsearchValues env (o.sub 2) expressions else ∅
  let subKeys := (o.sub 3).range subMap.keys
  (generateCombinations env entry r.subsearchAttribute attributes subKeys).map fun values =>
    resolveExpressions env r.subsearchAttribute expressions values subMap

/-- Formats without a field have no attribute to combine, and the product of
no list is empty: an entry gives them no value at all. -/
theorem generateValues_static {env : Env} {o : Order} {r : Result} {entry : Entry}
    {fmts : List Format} (h : ∀ f ∈ fmts, f.isStatic = true) :
    r.generateValues env o entry fmts = [] := by
  simp [Result.generateValues, listExpressions_static h, listVariables, generateCombinations]

/-! ## Formats and an entry, for examples -/
namespace Sample

def literal (s : String) : Format := ⟨s, [.literal s]⟩

def memberField : Format := ⟨"\x7bmember\x7d", [.field { fieldName := "member" }]⟩

def env : Env where
  toLower := id
  toUpper := id
  equalFold := fun a b => a == b
  toLower_letters := id_letters
  parseDN := fun _ => none
  knownRDNs := []

/-- A group of two members. -/
def group : Entry := ⟨"cn=group", [("member", ["alice", "bob"])]⟩

end Sample

end Ldap2pg.Ldap
