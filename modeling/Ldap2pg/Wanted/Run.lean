import Ldap2pg.Wanted.Rules
import Ldap2pg.Roles.Map
import Ldap2pg.Lib.Slice

/-! # `Rules.Run`

The loops of `Run` over steps, search results, roles and grants consume what the
generators send, in order: `Rules.events` is that order, and `State.step` is the
body of the loops. Go references are explicit. The parents of a role are a slice
on a heap of arrays, its settings the address of a map, and `Role.Merge` writes
to both. -/
namespace Ldap2pg.Wanted
open Lib Pyfmt Ldap2pg.Lists Ldap Privileges Roles

/-- What the loops of `Run` meet. -/
inductive Event where
  | searchError (err : String)
  | sent (s : Sent)
  | grant (g : Grant)

/-- The body of the loop over search results: an error, or the roles and then the
grants that the rules of the step generate. -/
def Step.resultEvents (env : Env) (reg : Registry) (o : Order) (s : Step) :
    Except String Result × Nat → Except Panic (List Event)
  | (.error err, _) => .ok [.searchError err]
  | (.ok results, j) => do
    let roles ← s.generateRoles env ((o.sub 1).sub j) results
    let grants ← s.generateGrants env reg ((o.sub 2).sub j) results
    return roles.map .sent ++ grants.map .grant

def Step.events (env : Env) (reg : Registry) (o : Order) (ldapc : Directory) (s : Step) :
    Except Panic (List Event) := do
  let events ← (s.search env (o.sub 0) ldapc).zipIdx.mapM (s.resultEvents env reg o)
  return events.flatten

def Rules.events (env : Env) (reg : Registry) (o : Order) (ldapc : Directory) (m : Rules) :
    Except Panic (List Event) := do
  let events ← (numbered Step.hasLDAPSearch 0 m).mapM fun is =>
    is.2.events env reg (o.sub is.1) (ldapc.sub is.1)
  return events.flatten

/-- The backing arrays of the parents and the settings maps. -/
structure Mem where
  arrays : Heap Membership
  configs : ConfigRef → Config

/-- A role of the map, with its references. -/
structure RoleRef where
  head : Head
  parents : Slice
  config : Option ConfigRef
  deriving DecidableEq

/-- The role as its readers see it. -/
def RoleRef.deref (mem : Mem) (r : RoleRef) : Role where
  name := r.head.name
  comment := r.head.comment
  parents := mem.arrays.read r.parents
  options := r.head.options
  config := r.config.map mem.configs
  beforeCreate := r.head.beforeCreate
  afterCreate := r.head.afterCreate

/-- The loop of `Role.Merge` over the parents of `o`. -/
def mergeParents (g : Growth) (arrays : Heap Membership) (r o : Slice) :
    Heap Membership × Slice :=
  (List.range o.len).foldl (fun hr i =>
    if memberOf (hr.1.read hr.2) ((hr.1.read o)[i]?.getD default).name then hr
    else hr.1.append g hr.2 [(hr.1.read o)[i]?.getD default]) (arrays, r)

/-- The end of `Role.Merge`: a nil map is replaced, another one is written to. -/
def mergeConfig (configs : ConfigRef → Config) (r o : Option ConfigRef) :
    (ConfigRef → Config) × Option ConfigRef :=
  match r, o with
  | none, _ => (configs, o)
  | some a, none => (configs, some a)
  | some a, some b => (Function.update configs a ((configs a).copy (configs b)), some a)

/-- `Role.Merge`. -/
def RoleRef.merge (g : Growth) (mem : Mem) (r o : RoleRef) : Mem × RoleRef :=
  ({ arrays := (mergeParents g mem.arrays r.parents o.parents).1
     configs := (mergeConfig mem.configs r.config o.config).1 },
   { r with parents := (mergeParents g mem.arrays r.parents o.parents).2
            config := (mergeConfig mem.configs r.config o.config).2 })

structure State where
  mem : Mem
  /-- the `parents` of the rule being generated -/
  parents : Slice := .empty
  roles : Dict RoleRef := ∅
  grants : Dict (List Grant) := ∅
  errList : List String := []

/-- What `Run` is given besides the rules. -/
structure Setting where
  growth : Growth
  glob : Glob
  blacklist : List String

/-- `MatchString` panics on the name of a role, or on a grantee. It does not look at the
state: the loops panic if one of the events does, and `firstMatch` stands for its answer
below. -/
def Event.panics (ctx : Setting) : Event → Bool
  | .sent (.role _ head _) =>
    head.name ≠ "" && !(matchString ctx.glob ctx.blacklist head.name).isOk
  | .grant g => !(matchString ctx.glob ctx.blacklist g.grantee).isOk
  | _ => false

namespace State
variable (ctx : Setting)

/-- The body of the loop over generated roles. -/
def addRole (st : State) (role : RoleRef) : State :=
  if role.head.name = "" then st
  else if firstMatch ctx.glob ctx.blacklist role.head.name ≠ "" then st
  else match st.roles[role.head.name]? with
    | some current =>
      { st with
        mem := (current.merge ctx.growth st.mem role).1
        roles := st.roles.insert current.head.name (current.merge ctx.growth st.mem role).2 }
    | none => { st with roles := st.roles.insert role.head.name role }

/-- The body of the loop over generated grants. -/
def addGrant (st : State) (grant : Grant) : State :=
  if firstMatch ctx.glob ctx.blacklist grant.grantee ≠ "" then st
  else if grant.grantee ∉ st.roles then
    { st with errList := st.errList ++ ["grant on unknown role"] }
  else { st with
    grants := st.grants.insert grant.acl (st.grants[grant.acl]?.getD [] ++ [grant]) }

/-- A generator builds its parents, or sends a role. -/
def receive (st : State) : Sent → State
  | .parents l => { st with
      mem := { st.mem with arrays := (st.mem.arrays.pushAll ctx.growth .empty l).1 }
      parents := (st.mem.arrays.pushAll ctx.growth .empty l).2 }
  | .role false head config => st.addRole ctx { head, parents := st.parents, config }
  | .role true head config =>
    let copy := st.mem.arrays.append ctx.growth (st.parents.upTo 0) (st.mem.arrays.read st.parents)
    { st with mem := { st.mem with arrays := copy.1 } }.addRole ctx
      { head, parents := copy.2, config }

def step (st : State) : Event → State
  | .searchError err => { st with errList := st.errList ++ [err] }
  | .sent s => st.receive ctx s
  | .grant g => st.addGrant ctx g

/-- The state after some events, from the maps of the rules. -/
def after (configs : ConfigRef → Config) (events : List Event) : State :=
  events.foldl (step ctx) { mem := { arrays := [], configs } }

/-- The `roles` map as its readers see it. -/
def roleMap (st : State) : RoleMap := st.roles.map fun _ r => r.deref st.mem

end State

/-- What `Run` returns; `err` is the nil error or the joined ones. -/
structure Outcome where
  roles : RoleMap := ∅
  grants : Dict (List Grant) := ∅
  err : Option String := none

/-- `errors.Join`. -/
def joinErrors (errList : List String) : Option String :=
  if 0 < errList.length then some ("\n".intercalate errList) else none

/-- `Rules.Run`. `connect` is the error of the connection to the directory. -/
def Rules.run (env : Env) (reg : Registry) (ctx : Setting) (o : Order) (connect : Option String)
    (ldapc : Directory) (configs : ConfigRef → Config) (m : Rules) : Except Panic Outcome :=
  match if m.hasLDAPSearches then connect else none with
  | some err => .ok { err := some err }
  | none => do
    let events ← m.events env reg (o.sub 0) ldapc
    if events.any (Event.panics ctx) then .error .badPattern else
    let st := State.after ctx configs events
    match Map.check (o.sub 1) st.roleMap with
    | none => .error .stackOverflow
    | some checkErr =>
      return { roles := st.roleMap, grants := st.grants,
               err := joinErrors (st.errList ++ checkErr.toList) }

/-! ## Small rules and settings, for examples -/
namespace Sample
open Ldap.Sample

def roleRule (name : Format) (parents : List String) : RoleRule where
  name := name
  comment := literal ""
  parents := parents.map literal
  beforeCreate := literal ""
  afterCreate := literal ""

def noPrivileges : Registry := ⟨∅, ∅, ∅⟩

def noBlacklist : Setting where
  growth := .doubling
  glob := { isMatch := fun _ _ => false, empty_only := fun _ h => by cases h }
  blacklist := []

end Sample

end Ldap2pg.Wanted
