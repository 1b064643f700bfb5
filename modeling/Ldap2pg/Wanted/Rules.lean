import Ldap2pg.Privileges.Types
import Ldap2pg.Roles.Types

/-! # `internal/wanted`: the rules of a configuration and what they generate

A rule keeps its settings as a reference to a map, which every role it generates
carries. What a goroutine sends is an event list. `Sent.parents` is the slice of
parents a rule builds once for an LDAP result, by appends to an empty slice;
every `Sent.role` up to the next one carries a slice of that array, taken as it
is without an entry and through `append(parents[0:0], parents...)` with one. -/
namespace Ldap2pg.Wanted
open Lib Pyfmt Ldap Privileges Roles

/-- Where a rule keeps its `Config` map. -/
abbrev ConfigRef := Nat

structure RoleRule where
  name : Format
  options : Options := {}
  comment : Format
  parents : List Format := []
  config : Option ConfigRef := none
  beforeCreate : Format
  afterCreate : Format
  deriving DecidableEq

def RoleRule.formats (r : RoleRule) : List Format :=
  [r.name, r.comment, r.beforeCreate, r.afterCreate] ++ r.parents

def RoleRule.isStatic (r : RoleRule) : Bool := r.formats.all Format.isStatic

/-- The part of a generated role that is plain values. -/
structure Head where
  name : String
  comment : String := ""
  options : Options := {}
  beforeCreate : String := ""
  afterCreate : String := ""
  deriving DecidableEq, Repr

/-- What `RoleRule.Generate` does in turn. -/
inductive Sent where
  | parents (l : List Membership)
  | role (copied : Bool) (head : Head) (config : Option ConfigRef)
  deriving DecidableEq

/-- The memberships that one parent of a rule stands for. -/
def generateParent (env : Env) (o : Order) (results : Result) (m : Format) :
    Except Panic (List Membership) :=
  match results.entry with
  | none => do return [{ name := ← m.format env.toStrings none }]
  | some entry =>
    if m.isStatic then do return [{ name := ← m.format env.toStrings none }]
    else (results.generateValues env o entry [m]).mapM fun values => do
      return { name := ← m.format env.toStrings (some values) }

/-- The loop of `RoleRule.Generate` over the parents of the rule. -/
def RoleRule.generateParents (env : Env) (o : Order) (r : RoleRule) (results : Result) :
    Except Panic (List Membership) := do
  let parents ← r.parents.zipIdx.mapM fun mi => generateParent env (o.sub mi.2) results mi.1
  return parents.flatten

/-- The roles `RoleRule.Generate` sends: without an entry one role with the raw
texts of the formats, with an entry one for each combination of values. -/
def RoleRule.generateHeads (env : Env) (o : Order) (r : RoleRule) (results : Result) : List Head :=
  match results.entry with
  | none => [{ name := r.name.string, comment := r.comment.string, options := r.options,
               beforeCreate := r.beforeCreate.string, afterCreate := r.afterCreate.string }]
  | some entry =>
    (results.generateValues env o entry [r.name, r.comment, r.beforeCreate, r.afterCreate]).map
      fun values =>
        { name := r.name.render env.toStrings values
          comment := r.comment.render env.toStrings values
          options := r.options
          beforeCreate := r.beforeCreate.render env.toStrings values
          afterCreate := r.afterCreate.render env.toStrings values }

/-- `RoleRule.Generate`. -/
def RoleRule.generate (env : Env) (o : Order) (r : RoleRule) (results : Result) :
    Except Panic (List Sent) := do
  let parents ← r.generateParents env (o.sub 0) results
  return .parents parents ::
    (r.generateHeads env (o.sub 1) results).map fun head =>
      .role results.entry.isSome head r.config

structure Step where
  description : String := ""
  ldapSearch : Search := {}
  roleRules : List RoleRule := []
  grantRules : List GrantRule := []

abbrev Rules := List Step

def Step.hasLDAPSearch (s : Step) : Bool := s.ldapSearch.attributes.length > 0

/-- The request of the main search. -/
def Step.request (s : Step) : Request :=
  ⟨s.ldapSearch.base, s.ldapSearch.scope, s.ldapSearch.filter, s.ldapSearch.attributes⟩

/-- The request of a sub-search on `base`. A missing key reads as a zero value. -/
def Step.subRequest (s : Step) (subsearchAttr base : String) : Request :=
  let sub := s.ldapSearch.subsearches[subsearchAttr]?.getD ⟨"", .base, []⟩
  ⟨base, sub.scope, sub.filter, sub.attributes⟩

/-- `Step.search`: each entry or error, once for each sub-search base. -/
def Step.search (env : Env) (o : Order) (ldapc : Directory) (s : Step) :
    List (Except String Result) :=
  if s.hasLDAPSearch = false then [.ok {}]
  else match ldapc [0] s.request with
    | .error err => [.error err]
    | .ok entries =>
      let subsearchAttr := s.ldapSearch.subsearchAttribute (o.sub 0)
      entries.zipIdx.flatMap fun ei =>
        if subsearchAttr = "" then [.ok { entry := some ei.1 }]
        else (ei.1.values env subsearchAttr).zipIdx.map fun bj =>
          match ldapc [1, ei.2, bj.2] (s.subRequest subsearchAttr bj.1) with
          | .error err => .error err
          | .ok subEntries => .ok
            { entry := some ei.1, subsearchAttribute := subsearchAttr, subsearchEntries := subEntries }

def Step.generateRoles (env : Env) (o : Order) (s : Step) (results : Result) :
    Except Panic (List Sent) := do
  let sent ← (numbered (fun r => !r.isStatic) 0 s.roleRules).mapM fun ir =>
    ir.2.generate env (o.sub ir.1) results
  return sent.flatten

def Step.generateGrants (env : Env) (reg : Registry) (o : Order) (s : Step) (results : Result) :
    Except Panic (List Grant) := do
  let sent ← (numbered (fun r => !r.isStatic) 0 s.grantRules).mapM fun ir =>
    ir.2.generate env reg (o.sub ir.1) results
  return sent.flatten

def Rules.hasLDAPSearches (m : Rules) : Bool := m.any Step.hasLDAPSearch

/-- `Step.SplitStaticItems`. -/
def Step.splitStaticItems (s : Step) : List Step :=
  let staticRoles := s.roleRules.filter RoleRule.isStatic
  let dynamicRoles := s.roleRules.filter fun r => !r.isStatic
  let staticGrants := s.grantRules.filter GrantRule.isStatic
  let dynamicGrants := s.grantRules.filter fun r => !r.isStatic
  if (staticRoles.length = 0 && staticGrants.length = 0) ||
      (dynamicRoles.length = 0 && dynamicGrants.length = 0) then [s]
  else
    [{ description := s.description, ldapSearch := s.ldapSearch,
       roleRules := dynamicRoles, grantRules := dynamicGrants },
     { description := "", roleRules := staticRoles, grantRules := staticGrants }]

/-- The dynamic rules of a step, under its search. -/
def Step.dynamicPart (s : Step) : Step :=
  { s with roleRules := s.roleRules.filter fun r => !r.isStatic
           grantRules := s.grantRules.filter fun r => !r.isStatic }

/-- The static rules of a step, without a search. -/
def Step.staticPart (s : Step) : Step where
  roleRules := s.roleRules.filter RoleRule.isStatic
  grantRules := s.grantRules.filter GrantRule.isStatic

/-- A step is left as it is, or cut in two. -/
theorem Step.splitStaticItems_cases (s : Step) :
    s.splitStaticItems = [s] ∧ (s.staticPart.roleRules = [] ∧ s.staticPart.grantRules = [] ∨
      s.dynamicPart.roleRules = [] ∧ s.dynamicPart.grantRules = []) ∨
      s.splitStaticItems = [s.dynamicPart, s.staticPart] := by
  unfold Step.splitStaticItems
  simp only
  split
  case isTrue h =>
    simp only [Bool.or_eq_true, Bool.and_eq_true, decide_eq_true_eq, List.length_eq_zero_iff] at h
    exact .inl ⟨rfl, h⟩
  case isFalse => exact .inr rfl

def Rules.splitStaticRules (m : Rules) : Rules := m.flatMap Step.splitStaticItems

/-- `Rules.DropGrants`. -/
def Rules.dropGrants (m : Rules) : Rules :=
  (m.map fun s => { s with grantRules := [] }).filter fun s => 0 < s.roleRules.length

end Ldap2pg.Wanted
