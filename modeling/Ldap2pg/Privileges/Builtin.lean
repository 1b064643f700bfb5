import Ldap2pg.Privileges.Sync

/-! # The built-in ACLs

The ACLs that `init` registers, with their templates. All that matters of an ACL
to the grants of rules and to inspection is its `Kind`: the placeholders of its
template, its scope and its scan function. -/
namespace Ldap2pg.Privileges
open Lib Pyfmt Postgres

/-- The template that ACLs on schemas share. -/
def onSchema (name : String) : ACL where
  name := name
  scope := "database"
  grant := "GRANT <privilege> ON <acl> <schema> TO <grantee>;"
  revoke := "REVOKE <privilege> ON <acl> <schema> FROM <grantee>;"

def builtinACLs : List ACL :=
  [{ name := "DATABASE", scope := "instance",
     grant := "GRANT <privilege> ON <acl> <database> TO <grantee>;",
     revoke := "REVOKE <privilege> ON <acl> <database> FROM <grantee>;" },
   { name := "LANGUAGE", scope := "instance",
     grant := "GRANT <privilege> ON <acl> <object> TO <grantee>;",
     revoke := "REVOKE <privilege> ON <acl> <object> FROM <grantee>;" },
   onSchema "SCHEMA",
   onSchema "ALL FUNCTIONS IN SCHEMA",
   onSchema "ALL ROUTINES IN SCHEMA",
   onSchema "ALL SEQUENCES IN SCHEMA",
   onSchema "ALL TABLES IN SCHEMA",
   { name := "GLOBAL DEFAULT", scope := "database",
     grant := "ALTER DEFAULT PRIVILEGES FOR ROLE <owner> GRANT <privilege> ON <object> TO <grantee>;",
     revoke :=
      "ALTER DEFAULT PRIVILEGES FOR ROLE <owner> REVOKE <privilege> ON <object> FROM <grantee>;" },
   { name := "SCHEMA DEFAULT", scope := "schema",
     grant := "ALTER DEFAULT PRIVILEGES FOR ROLE <owner> IN SCHEMA <schema> " ++
      "GRANT <privilege> ON <object> TO <grantee>;",
     revoke := "ALTER DEFAULT PRIVILEGES FOR ROLE <owner> IN SCHEMA <schema> " ++
      "REVOKE <privilege> ON <object> FROM <grantee>;" }]

/-- The `acls` registry after `init`. -/
def builtinRegistry : Dict ACL := builtinACLs.foldl (fun m a => m.insert a.name a) ∅

inductive Kind where
  | database | language | schema | globalDefault | schemaDefault
  deriving DecidableEq, Repr

/-- The placeholders that the code asks an ACL for. -/
structure Placeholders where
  owner : Bool := false
  schema : Bool := false
  object : Bool := false
  database : Bool := false
  deriving DecidableEq

def ACL.placeholders (a : ACL) : Placeholders :=
  ⟨a.uses "owner", a.uses "schema", a.uses "object", a.uses "database"⟩

def Kind.placeholders : Kind → Placeholders
  | .database => { database := true }
  | .language => { object := true }
  | .schema => { schema := true }
  | .globalDefault => { owner := true, object := true }
  | .schemaDefault => { owner := true, schema := true, object := true }

def Kind.instanceWide : Kind → Bool
  | .database | .language => true
  | _ => false

def Kind.scan : Kind → Row → Except String Grant
  | .database | .language => rowToInstanceGrant
  | .schema => rowToDatabaseGrant
  | .globalDefault => rowToGlobalDefaultGrant
  | .schemaDefault => rowToSchemaDefaultGrant

/-- What the code reads of an ACL is that of its kind. -/
structure ACL.IsA (a : ACL) (k : Kind) : Prop where
  named : a.name ≠ ""
  uses : a.placeholders = k.placeholders
  scope : (a.scope = "instance") ↔ k.instanceWide = true
  scan : a.scan = k.scan

def ACL.kind (a : ACL) : Kind :=
  if a.name = "DATABASE" then .database
  else if a.name = "LANGUAGE" then .language
  else if a.name = "GLOBAL DEFAULT" then .globalDefault
  else if a.name = "SCHEMA DEFAULT" then .schemaDefault
  else .schema

theorem onSchema_isA {name : String} (hne : name ≠ "") (hglobal : name ≠ "GLOBAL DEFAULT")
    (hschema : name ≠ "SCHEMA DEFAULT") : (onSchema name).IsA .schema := by
  refine ⟨hne, ?_, iff_of_false (by decide : "database" ≠ "instance") (by decide), ?_⟩
  · -- the placeholders do not depend on the name
    show (onSchema "SCHEMA").placeholders = Kind.placeholders .schema
    decide +kernel
  · rw [ACL.scan, onSchema, if_neg hglobal, if_neg hschema]
    rfl

/-- Every built-in ACL is of the kind its name says. -/
theorem isA_kind : ∀ a ∈ builtinACLs, a.IsA a.kind := by
  simp only [builtinACLs, List.forall_mem_cons, List.not_mem_nil, IsEmpty.forall_iff, implies_true,
    and_true]
  refine ⟨⟨by decide, by decide +kernel, by decide, rfl⟩, ⟨by decide, by decide +kernel, by decide, rfl⟩,
    onSchema_isA (by decide) (by decide) (by decide), onSchema_isA (by decide) (by decide) (by decide),
    onSchema_isA (by decide) (by decide) (by decide), onSchema_isA (by decide) (by decide) (by decide),
    onSchema_isA (by decide) (by decide) (by decide),
    ⟨by decide, by decide +kernel, by decide, rfl⟩, ⟨by decide, by decide +kernel, by decide, rfl⟩⟩

/-- No ACL of the instance that `init` registers has an owner. -/
theorem builtin_instance {reg : Registry} (hreg : reg.acls = builtinRegistry) (acl : String)
    (hscope : (reg.acl acl).scope = "instance") : (reg.acl acl).uses "owner" = false := by
  unfold Registry.acl at hscope ⊢
  rw [hreg] at hscope ⊢
  cases hget : builtinRegistry[acl]? with
  | none =>
    rw [hget] at hscope
    exact absurd hscope (by decide)
  | some a =>
    rw [hget] at hscope
    have hin : a ∈ builtinACLs := by
      have hfill : (Dict.fill ACL.name id ∅ builtinACLs)[acl]? = some a := hget
      rcases Dict.get_fill_cases hfill with ⟨b, hb, _, rfl⟩ | h
      · exact hb
      · simp at h
    have ha := isA_kind a hin
    have howner : a.uses "owner" = a.kind.placeholders.owner := congrArg Placeholders.owner ha.uses
    have hwide : a.kind.instanceWide = true := ha.scope.mp hscope
    show a.uses "owner" = false
    rw [howner]
    revert hwide
    cases a.kind <;> decide

/-! ## A registry of one privilege and a database, for examples -/
namespace Sample
open Ldap.Sample

def registry (type on : String) : Registry where
  acls := builtinRegistry
  profiles := (∅ : Dict (List Privilege)).insert "profile" [{ type, on }]
  managedACLs := (∅ : Dict (List String)).insert on [type]

/-- The privilege to `alice`, in all databases. -/
def rule (schema : String) : GrantRule where
  owner := literal "__auto__"
  privilege := literal "profile"
  database := literal "__all__"
  schema := literal schema
  role := literal "alice"

/-- What the rule generates for an ACL on schemas. -/
def wanted (type on schema : String) : Grant where
  grantee := "alice"
  acl := on
  type := type
  database := "__all__"
  schema := schema

def app : Database where
  name := "app"
  owner := "postgres"
  schemas := ((∅ : Dict Schema).insert "public" { name := "public" }).insert "empty" { name := "empty" }

def onlyApp : DBMap := .single app

end Sample

end Ldap2pg.Privileges
