import Ldap2pg.Lib.Text
import Ldap2pg.Privileges.Profile

/-! # Registration of ACLs

The queries of an ACL are templates. `ACL.Register` tries them on a grant whose
fields are all set, and `RegisterPrivileges` registers the ACLs of the
configuration before its profiles. -/
namespace Ldap2pg.Privileges
open Lib

/-- The query of a `postgres.SyncQuery`, with its identifiers. -/
structure Query where
  query : String := ""
  queryArgs : List String := []
  deriving DecidableEq

/-- `IsZero`. -/
def Query.isZero (q : Query) : Bool := q.query == ""

/-- The identifier that stands for a placeholder, none for an unknown one. -/
def Grant.argument (g : Grant) (m : String) : Option String :=
  if m = "<database>" then some g.database
  else if m = "<grantee>" then some g.grantee
  else if m = "<object>" then some g.object
  else if m = "<owner>" then some g.owner
  else if m = "<schema>" then some g.schema
  else none

/-- Keywords are put in the text as they are. -/
def Grant.keywords (g : Grant) (s : List Char) : List Char :=
  let s := Text.replaceAll s "%" "%%"
  let s := Text.replaceAll s "<privilege>" g.type
  let s := Text.replaceAll s "<acl>" g.acl
  if s.tails.any "<owner>".toList.isPrefixOf then Text.replaceAll s "<object>" g.object else s

/-- `FormatQuery`: the zero query if a placeholder is unknown. -/
def Grant.formatQuery (g : Grant) (s : String) : Query :=
  let s := g.keywords s.toList
  let placeholders := Text.findBracketed s
  match placeholders.mapM fun m => g.argument (String.ofList m) with
  | none => {}
  | some args =>
    { query := String.ofList (placeholders.foldl (Text.replaceFirst · · "%s".toList) s)
      queryArgs := args }

example : Grant.formatQuery { acl := "SCHEMA", type := "USAGE", schema := "nsp", grantee := "alice" }
    "GRANT <privilege> ON <acl> <schema> TO <grantee>;" =
      ⟨"GRANT USAGE ON SCHEMA %s TO %s;", ["nsp", "alice"]⟩ := by decide +kernel

/-- The grant that templates are tried on. -/
def tryout (name : String) : Grant where
  acl := name
  type := "PRIV"
  grantee := "_grantee_"
  owner := "_owner_"
  database := "_database_"
  schema := "_schema_"
  object := "_object_"

/-- `ACL.Register`. The scan function of the ACL is `ACL.scan`. -/
def ACL.register (reg : Registry) (a : ACL) : Except String Registry :=
  if a.name ≠ "GLOBAL DEFAULT" ∧ a.name ≠ "SCHEMA DEFAULT" ∧ a.scope ≠ "instance" ∧
      a.scope ≠ "database" then .error ("unknown scope \"" ++ a.scope ++ "\"")
  else if ((tryout a.name).formatQuery a.grant).isZero then .error "grant query is invalid"
  else if ((tryout a.name).formatQuery a.revoke).isZero then .error "revoke query is invalid"
  else .ok { reg with acls := reg.acls.insert a.name a }

/-- `Config.RegisterPrivileges`: the ACLs, then the profiles. -/
def Registry.registerPrivileges (o : Order) (reg : Registry) (acls : Dict ACL)
    (profiles : Dict (List Privilege)) : Except String Registry := do
  let reg ← ((o.sub 0).range acls.keys).foldlM (fun reg name =>
    (({ acls[name]?.getD default with name } : ACL).register reg).mapError
      fun err => "ACL: " ++ name ++ ": " ++ err) reg
  reg.registerProfiles (o.sub 1) profiles

section Register
variable {reg reg' : Registry} {a : ACL}

theorem ACL.register_frame (h : a.register reg = .ok reg') :
    reg'.managedACLs = reg.managedACLs ∧ reg'.profiles = reg.profiles := by
  unfold ACL.register at h
  split at h
  · cases h
  · split at h
    · cases h
    · split at h
      · cases h
      · cases h
        exact ⟨rfl, rfl⟩

end Register

end Ldap2pg.Privileges
