import Ldap2pg.Lib.Sql
import Ldap2pg.Privileges.Sync

/-! # The catalogue of a database

The rows of the system tables that inspection queries read, with what Postgres
ensures of them. Oid zero is nobody's: as a grantee it stands for `PUBLIC`, as the
namespace of default privileges for the whole database. -/
namespace Ldap2pg.Privileges
open Lib.Sql

/-- A row of `aclexplode`. -/
structure AclItem where
  grantor : Nat
  grantee : Nat
  privilege : String
  named : privilege ≠ ""
  deriving DecidableEq

/-- No rows for a null. -/
def aclexplode (acl : Option (List AclItem)) : List AclItem := acl.getD []

/-! ## Roles -/

structure PgRole where
  oid : Nat
  rolname : String
  deriving DecidableEq

/-- `pg_roles`. The name `public` is reserved. -/
structure PgRoles where
  rows : List PgRole
  oids : (rows.map PgRole.oid).Nodup
  names : (rows.map PgRole.rolname).Nodup
  reserved : ∀ role ∈ rows, role.oid ≠ 0 ∧ role.rolname ≠ "public"

section Roles
variable {roles : PgRoles}

/-- A grantee, `PUBLIC` or one of the roles. -/
def PgRoles.Known (roles : PgRoles) (oid : Nat) : Prop :=
  oid = 0 ∨ ∃ role ∈ roles.rows, role.oid = oid

def PgRoles.Grantee (roles : PgRoles) : Type := { oid : Nat // roles.Known oid }

/-- `COALESCE(rolname, 'public')`, once joined. -/
def PgRoles.nameOf (roles : PgRoles) (oid : Nat) : String :=
  ((roles.rows.find? fun role => some oid == some role.oid).map PgRole.rolname).getD "public"

theorem PgRoles.eq_of_oid {a b : PgRole} (ha : a ∈ roles.rows) (hb : b ∈ roles.rows)
    (h : a.oid = b.oid) : a = b := List.inj_on_of_nodup_map roles.oids ha hb h

theorem PgRoles.nameOf_eq (oid : Nat) : roles.nameOf oid =
    ((roles.rows.find? fun role => role.oid == oid).map PgRole.rolname).getD "public" := by
  have hon : (fun role : PgRole => some oid == some role.oid) = fun role => role.oid == oid := by
    funext role
    simp [Bool.beq_eq_decide_eq, eq_comm]
  rw [nameOf, hon]

theorem PgRoles.nameOf_role {role : PgRole} (h : role ∈ roles.rows) :
    roles.nameOf role.oid = role.rolname := by
  rw [nameOf_eq, (find_key_eq_some roles.oids).mpr ⟨h, rfl⟩]
  rfl

theorem PgRoles.nameOf_zero : roles.nameOf 0 = "public" := by
  have hnone : (roles.rows.find? fun r => some 0 == some r.oid) = none := by
    refine List.find?_eq_none.mpr fun r hr => ?_
    simp [Ne.symm (roles.reserved r hr).1]
  rw [nameOf, hnone]
  rfl

/-- Names tell grantees apart. -/
theorem PgRoles.nameOf_inj {a b : Nat} (ha : roles.Known a) (hb : roles.Known b)
    (h : roles.nameOf a = roles.nameOf b) : a = b := by
  rcases ha with rfl | ⟨r, hr, rfl⟩ <;> rcases hb with rfl | ⟨s, hs, rfl⟩
  · rfl
  · rw [nameOf_zero, nameOf_role hs] at h
    exact absurd h.symm (roles.reserved s hs).2
  · rw [nameOf_zero, nameOf_role hr] at h
    exact absurd h (roles.reserved r hr).2
  · rw [nameOf_role hr, nameOf_role hs] at h
    rw [List.inj_on_of_nodup_map roles.names hr hs h]

end Roles

/-! ## Schemas and what they hold -/

structure Namespace where
  oid : Nat
  nspname : String
  deriving DecidableEq

/-- `pg_namespace`. -/
structure Namespaces where
  rows : List Namespace
  oids : (rows.map Namespace.oid).Nodup
  names : (rows.map Namespace.nspname).Nodup
  nonzero : ∀ nsp ∈ rows, nsp.oid ≠ 0

theorem Namespaces.nodup (nsps : Namespaces) : nsps.rows.Nodup := nsps.oids.of_map

inductive RelKind where
  | table | index | sequence | toast | view | matview | composite | foreignTable | partitioned
  | partitionedIndex
  deriving DecidableEq

/-- A row of `pg_class`. -/
structure Relation where
  relnamespace : Nat
  relname : String
  relkind : RelKind
  relacl : Option (List AclItem)
  deriving DecidableEq

inductive ProKind where
  | function | procedure | aggregate | window
  deriving DecidableEq

/-- A row of `pg_proc`, with the name of its return type in `pg_type`. Several rows may
have the same name, for other arguments. -/
structure Proc where
  pronamespace : Nat
  proname : String
  prokind : ProKind
  rettype : String
  proowner : Nat
  proacl : Option (List AclItem)
  deriving DecidableEq

theorem execute_named : "EXECUTE" ≠ "" := by decide

/-- `acldefault('f', owner)`. -/
def acldefault (owner : Nat) : List AclItem :=
  [⟨owner, 0, "EXECUTE", execute_named⟩, ⟨owner, owner, "EXECUTE", execute_named⟩]

/-- `aclexplode(COALESCE(proacl, acldefault('f', proowner)))`. -/
def Proc.acl (pro : Proc) : List AclItem :=
  aclexplode (some (pro.proacl.getD (acldefault pro.proowner)))

structure Catalogue where
  roles : PgRoles
  namespaces : Namespaces
  relations : List Relation
  procs : List Proc
  relnames : (relations.map fun rel => (rel.relnamespace, rel.relname)).Nodup
  relgrantees : ∀ rel ∈ relations, ∀ item ∈ aclexplode rel.relacl, roles.Known item.grantee
  prograntees : ∀ pro ∈ procs, ∀ item ∈ pro.acl, roles.Known item.grantee

theorem relgrantees_nil (roles : PgRoles) : ∀ rel ∈ ([] : List Relation),
    ∀ item ∈ aclexplode rel.relacl, roles.Known item.grantee := nofun

theorem prograntees_nil (roles : PgRoles) : ∀ pro ∈ ([] : List Proc),
    ∀ item ∈ pro.acl, roles.Known item.grantee := nofun

end Ldap2pg.Privileges
