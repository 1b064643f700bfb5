import Ldap2pg.Privileges.Partial
import Ldap2pg.Privileges.Converge

/-! # Default privileges

`pg_default_acl` has an entry for each owner, schema and class of objects whose
defaults are not those that Postgres hard-wires. The queries of `GLOBAL DEFAULT`
and `SCHEMA DEFAULT` turn its rows into `ALTER DEFAULT PRIVILEGES` terms. -/
namespace Ldap2pg.Privileges.Defaults
open Lib Lib.Sql Postgres Partial Converge

/-- `defaclobjtype`: relations, sequences, functions, types and schemas. -/
inductive ObjType where
  | r | S | f | T | n
  deriving DecidableEq

structure DefaultAcl where
  defaclrole : Nat
  defaclnamespace : Nat
  defaclobjtype : ObjType
  defaclacl : List AclItem
  deriving DecidableEq

def DefaultAcl.key (row : DefaultAcl) : Nat × Nat × ObjType :=
  (row.defaclrole, row.defaclnamespace, row.defaclobjtype)

/-- `pg_default_acl`. -/
structure DefaultAcls (roles : PgRoles) where
  rows : List DefaultAcl
  keys : (rows.map DefaultAcl.key).Nodup
  owners : ∀ row ∈ rows, ∃ role ∈ roles.rows, role.oid = row.defaclrole
  grantees : ∀ row ∈ rows, ∀ item ∈ row.defaclacl, roles.Known item.grantee

/-! ## The queries -/

/-- A row of the `grants` tables. The object is null for a class without name. -/
structure DefaultGrant where
  nsp : Nat
  owner : Nat
  object : Option String
  grantee : Nat
  priv : String

/-- `hardwired`. -/
def hardwired : List (String × String) :=
  [("ROUTINES", "EXECUTE"), ("SEQUENCES", "USAGE"), ("SEQUENCES", "UPDATE"), ("SEQUENCES", "SELECT"),
   ("TABLES", "SELECT"), ("TABLES", "INSERT"), ("TABLES", "UPDATE"), ("TABLES", "DELETE"),
   ("TABLES", "TRUNCATE"), ("TABLES", "REFERENCES"), ("TABLES", "TRIGGER")]

section Queries
variable {roles : PgRoles}

/-- The roles without an entry for the whole database: `WHERE defaclnamespace IS NULL`. -/
def unset (roles : PgRoles) (acls : DefaultAcls roles) : List PgRole :=
  ((leftJoin (fun role row => row.defaclrole == role.oid && row.defaclnamespace == 0) roles.rows
    acls.rows).filter fun row => row.2.isNone).map Prod.fst

/-- The entries that `aclexplode` makes rows of. -/
def exploded (object : ObjType → Option String) (rows : List DefaultAcl) : List DefaultGrant :=
  rows.flatMap fun row => row.defaclacl.map fun grt =>
    ⟨row.defaclnamespace, row.defaclrole, object row.defaclobjtype, grt.grantee, grt.privilege⟩

def globalObject : ObjType → Option String
  | .f => some "FUNCTIONS"
  | .S => some "SEQUENCES"
  | .r => some "TABLES"
  | _ => none

/-- `grants` of `global-default.sql`. -/
def globalGrants (acls : DefaultAcls roles) : List DefaultGrant :=
  ((unset roles acls).flatMap fun role => hardwired.map fun hard =>
    ⟨0, role.oid, some hard.1, role.oid, hard.2⟩) ++
  ((unset roles acls).map fun role => ⟨0, role.oid, some "FUNCTIONS", 0, "EXECUTE"⟩) ++
  exploded globalObject (acls.rows.filter fun row => row.defaclnamespace == 0)

/-- The joins on roles that both queries make. -/
def withRoles (roles : PgRoles) (grants : List DefaultGrant) :
    List ((DefaultGrant × Option PgRole) × Option PgRole) :=
  leftJoin (fun row grantee => grantee.oid == row.1.grantee)
    (leftJoin (fun g owner => owner.oid == g.owner) grants roles.rows) roles.rows

/-- `COALESCE(rolname, 'public')`. -/
def coalesce (role : Option PgRole) : String := (role.map PgRole.rolname).getD "public"

/-- `priv || ' ON ' || object = ANY ($1)`, null if the object is. -/
def managed (types : List String) (g : DefaultGrant) : Option String :=
  g.object.filter fun object => types.contains (g.priv ++ " ON " ++ object)

/-- `global-default.sql`. -/
def inspectGlobalDefault (acls : DefaultAcls roles) (types : List String) : List Row :=
  (withRoles roles (globalGrants acls)).filterMap fun row =>
    if row.1.1.nsp = 0 then (managed types row.1.1).map fun object =>
      .globalDefault (coalesce row.1.2) row.1.1.priv object (coalesce row.2)
    else none

def schemaObject : ObjType → Option String
  | .r => some "TABLES"
  | .S => some "SEQUENCES"
  | .f => some "ROUTINES"
  | _ => none

/-- `schema-default.sql`. -/
def inspectSchemaDefault (nsps : Namespaces) (acls : DefaultAcls roles) (types : List String) :
    List Row :=
  (leftJoin (fun row nsp => nsp.oid == row.1.1.nsp) (withRoles roles (exploded schemaObject acls.rows))
    nsps.rows).filterMap fun row =>
      row.2.bind fun nsp => (managed types row.1.1.1).map fun object =>
        .schemaDefault (coalesce row.1.1.2) nsp.nspname row.1.1.1.priv object (coalesce row.1.2)

end Queries

/-! ## Their rows -/

section Rows
variable {roles : PgRoles} {acls : DefaultAcls roles} {types : List String}

theorem withRoles_eq (grants : List DefaultGrant) : withRoles roles grants = grants.map fun g =>
    ((g, roles.rows.find? fun role => role.oid == g.owner),
      roles.rows.find? fun role => role.oid == g.grantee) := by
  have hone : ∀ {α : Type} (oid : α → Nat) (a : α),
      joinOne (fun a (role : PgRole) => role.oid == oid a) roles.rows a =
        [(a, roles.rows.find? fun role => role.oid == oid a)] := by
    intro α oid a
    refine joinOne_unique roles.oids.of_map fun b hb c hc hmatch hmatch' => ?_
    exact roles.eq_of_oid hb hc ((eq_of_beq hmatch).trans (eq_of_beq hmatch').symm)
  rw [withRoles, leftJoin, leftJoin, List.flatMap_congr fun g _ => hone DefaultGrant.owner g,
    List.flatMap_congr fun row _ => hone (fun row => row.1.grantee) row, ← List.map_eq_flatMap,
    ← List.map_eq_flatMap, List.map_map]
  rfl

theorem coalesce_find (oid : Nat) :
    coalesce (roles.rows.find? fun role => role.oid == oid) = roles.nameOf oid :=
  (PgRoles.nameOf_eq oid).symm

theorem managed_eq_some {g : DefaultGrant} {object : String} : managed types g = some object ↔
    g.object = some object ∧ g.priv ++ " ON " ++ object ∈ types := by
  simp [managed, Option.filter_eq_some_iff]

theorem mem_unset {role : PgRole} : role ∈ unset roles acls ↔ role ∈ roles.rows ∧
    ∀ row ∈ acls.rows, row.defaclrole = role.oid → row.defaclnamespace ≠ 0 := by
  simp only [unset, List.mem_map, List.mem_filter, leftJoin, List.mem_flatMap, mem_joinOne]
  constructor
  · rintro ⟨row, ⟨⟨role, hrole, rfl, hjoin⟩, hnull⟩, rfl⟩
    rcases hjoin with ⟨_, _, _, hsome⟩ | ⟨_, hnone⟩
    · simp [hsome] at hnull
    · exact ⟨hrole, fun acl hacl howner hnsp => by simpa [howner, hnsp] using hnone acl hacl⟩
  · rintro ⟨hrole, hnone⟩
    refine ⟨(role, none), ⟨⟨role, hrole, rfl, .inr ⟨rfl, fun acl hacl => ?_⟩⟩, rfl⟩, rfl⟩
    simpa using hnone acl hacl

theorem mem_exploded {object : ObjType → Option String} {rows : List DefaultAcl} {g : DefaultGrant} :
    g ∈ exploded object rows ↔ ∃ row ∈ rows, ∃ item ∈ row.defaclacl,
      g = ⟨row.defaclnamespace, row.defaclrole, object row.defaclobjtype, item.grantee,
        item.privilege⟩ := by
  simp only [exploded, List.mem_flatMap, List.mem_map, eq_comm]

theorem mem_inspectGlobalDefault {row : Row} : row ∈ inspectGlobalDefault acls types ↔
    ∃ g ∈ globalGrants acls, g.nsp = 0 ∧ ∃ object,
      (g.object = some object ∧ g.priv ++ " ON " ++ object ∈ types) ∧
        row = .globalDefault (roles.nameOf g.owner) g.priv object (roles.nameOf g.grantee) := by
  rw [inspectGlobalDefault, withRoles_eq, List.filterMap_map, List.mem_filterMap]
  refine exists_congr fun g => and_congr_right fun _ => ?_
  simp only [Function.comp, coalesce_find, Option.ite_none_right_eq_some, Option.map_eq_some_iff,
    managed_eq_some]
  exact and_congr_right fun _ => exists_congr fun _ => and_congr_right fun _ => eq_comm

theorem mem_inspectSchemaDefault {nsps : Namespaces} {row : Row} :
    row ∈ inspectSchemaDefault nsps acls types ↔
    ∃ g ∈ exploded schemaObject acls.rows, ∃ nsp ∈ nsps.rows, nsp.oid = g.nsp ∧ ∃ object,
      (g.object = some object ∧ g.priv ++ " ON " ++ object ∈ types) ∧
        row = .schemaDefault (roles.nameOf g.owner) nsp.nspname g.priv object
          (roles.nameOf g.grantee) := by
  simp only [inspectSchemaDefault, withRoles_eq, List.mem_filterMap, leftJoin, List.mem_flatMap,
    List.mem_map, mem_joinOne, Option.bind_eq_some_iff, Option.map_eq_some_iff, managed_eq_some]
  constructor
  · rintro ⟨joined, ⟨_, ⟨g, hg, rfl⟩, hrow, hjoin⟩, nsp, hnsp, object, hobject, rfl⟩
    rcases hjoin with ⟨nsp', hin, hon, hsome⟩ | ⟨hnull, _⟩
    · cases hnsp.symm.trans hsome
      rw [hrow] at hobject ⊢
      exact ⟨g, hg, nsp, hin, eq_of_beq hon, object, hobject, by rw [coalesce_find, coalesce_find]⟩
    · cases hnull.symm.trans hnsp
  · rintro ⟨g, hg, nsp, hin, hoid, object, hobject, rfl⟩
    refine ⟨((_, _), some nsp), ⟨_, ⟨g, hg, rfl⟩, rfl, .inl ⟨nsp, hin, beq_iff_eq.mpr hoid, rfl⟩⟩,
      nsp, rfl, object, hobject, ?_⟩
    rw [coalesce_find, coalesce_find]

end Rows

/-! ## The effective defaults -/

/-- The privileges of a class of objects, for the major version of the server. -/
def classPrivileges (version : Nat) : ObjType → List String
  | .r => ["SELECT", "INSERT", "UPDATE", "DELETE", "TRUNCATE", "REFERENCES", "TRIGGER"] ++
      if 17 ≤ version then ["MAINTAIN"] else []
  | .S => ["USAGE", "UPDATE", "SELECT"]
  | .f => ["EXECUTE"]
  | .T => ["USAGE"]
  | .n => ["USAGE", "CREATE"]

def worldPrivileges : ObjType → List String
  | .f => ["EXECUTE"]
  | .T => ["USAGE"]
  | _ => []

/-- ACL items of one grantee. -/
def itemsFor (grantor grantee : Nat) (privileges : List String) : List AclItem :=
  privileges.filterMap fun p => if h : p = "" then none else some ⟨grantor, grantee, p, h⟩

/-- What Postgres hard-wires: everything for the owner, and some for the world. -/
def hardwiredAcl (version owner : Nat) (t : ObjType) : List AclItem :=
  itemsFor owner 0 (worldPrivileges t) ++ itemsFor owner owner (classPrivileges version t)

section Effective
variable {roles : PgRoles}

def DefaultAcls.stored (acls : DefaultAcls roles) (owner nsp : Nat) (t : ObjType) :
    Option (List AclItem) :=
  (acls.rows.find? fun row => row.key == (owner, nsp, t)).map DefaultAcl.defaclacl

/-- The global defaults of the objects that a role creates. -/
def DefaultAcls.effective (acls : DefaultAcls roles) (version owner : Nat) (t : ObjType) :
    List AclItem :=
  (acls.stored owner 0 t).getD (hardwiredAcl version owner t)

variable {acls : DefaultAcls roles} {owner nsp : Nat} {t : ObjType} {p : String} {o : Nat}

theorem stored_eq_some {acl : List AclItem} :
    acls.stored owner nsp t = some acl ↔ ⟨owner, nsp, t, acl⟩ ∈ acls.rows := by
  rw [DefaultAcls.stored, Option.map_eq_some_iff]
  simp only [find_key_eq_some acls.keys]
  constructor
  · rintro ⟨⟨_, _, _, _⟩, ⟨hrow, hkey⟩, rfl⟩
    cases hkey
    exact hrow
  · exact fun h => ⟨_, ⟨h, rfl⟩, rfl⟩

theorem known_of_stored {acl : List AclItem} (h : acls.stored owner nsp t = some acl)
    (hholds : Holds acl p o) : roles.Known o := by
  obtain ⟨item, hitem, _, rfl⟩ := holds_iff.mp hholds
  exact acls.grantees _ (stored_eq_some.mp h) item hitem

theorem classPrivileges_named {version : Nat} (h : p ∈ classPrivileges version t) : p ≠ "" := by
  rintro rfl
  cases t <;> simp [classPrivileges] at h

theorem mem_itemsFor {grantor grantee : Nat} {privileges : List String} {item : AclItem} :
    item ∈ itemsFor grantor grantee privileges ↔
      item.grantor = grantor ∧ item.grantee = grantee ∧ item.privilege ∈ privileges := by
  obtain ⟨_, _, q, hq⟩ := item
  simp only [itemsFor, List.mem_filterMap, Option.dite_none_left_eq_some, Option.some.injEq,
    AclItem.mk.injEq]
  constructor
  · rintro ⟨p, hp, _, rfl, rfl, rfl⟩
    exact ⟨rfl, rfl, hp⟩
  · rintro ⟨rfl, rfl, hp⟩
    exact ⟨q, hp, hq, rfl, rfl, rfl⟩

/-- The world has nothing on relations and sequences by default. -/
theorem holds_hardwired {version : Nat} (ht : worldPrivileges t = []) :
    Holds (hardwiredAcl version owner t) p o ↔ o = owner ∧ p ∈ classPrivileges version t := by
  rw [hardwiredAcl, ht, holds_iff]
  show (∃ item ∈ itemsFor owner owner _, _) ↔ _
  constructor
  · rintro ⟨item, hitem, rfl, rfl⟩
    exact (mem_itemsFor.mp hitem).2
  · rintro ⟨rfl, hp⟩
    exact ⟨⟨o, o, p, classPrivileges_named hp⟩, mem_itemsFor.mpr ⟨rfl, rfl, hp⟩, rfl, rfl⟩

end Effective

/-! ## Tables and sequences -/

section Classes
variable {k : RelClass} {p : String}

def className : RelClass → String
  | .tables => "TABLES"
  | .sequences => "SEQUENCES"

def objtype : RelClass → ObjType
  | .tables => .r
  | .sequences => .S

/-- A managed privilege on a class, as the filter of the query writes it. -/
def pair (p : String × RelClass) : String := p.1 ++ " ON " ++ className p.2

theorem pair_inj {p q : String × RelClass} (h : pair p = pair q) : p = q := by
  obtain ⟨p, k⟩ := p
  obtain ⟨q, l⟩ := q
  -- the classes differ in their third letter from the end
  have hclass : k = l := by
    have hend := congrArg (fun s : String => s.toList.reverse.take 3) h
    cases k <;> cases l <;> simp [pair, className] at hend ⊢
  subst hclass
  have htext : p ++ " ON " = q ++ " ON " := (String.append_left_inj _).mp h
  rw [(String.append_left_inj _).mp htext]

theorem pair_mem_iff {pairs : List (String × RelClass)} :
    p ++ " ON " ++ className k ∈ pairs.map pair ↔ (p, k) ∈ pairs := by
  refine ⟨fun h => ?_, fun h => List.mem_map.mpr ⟨_, h, rfl⟩⟩
  obtain ⟨q, hq, heq⟩ := List.mem_map.mp h
  rw [← pair_inj (p := q) (q := (p, k)) heq]
  exact hq

theorem globalObject_eq {t : ObjType} (k : RelClass) :
    globalObject t = some (className k) ↔ t = objtype k := by
  cases k <;> cases t <;> simp [globalObject, className, objtype]

/-- The query knows the privileges of the class but `MAINTAIN`. -/
theorem mem_hardwired (version : Nat) : (className k, p) ∈ hardwired ↔
    p ∈ classPrivileges version (objtype k) ∧ p ≠ "MAINTAIN" := by
  have hadded : ∀ q ∈ if 17 ≤ version then ["MAINTAIN"] else [], q = "MAINTAIN" := by
    split <;> simp
  cases k with
  | sequences =>
    simp only [hardwired, className, objtype, classPrivileges, List.mem_cons, Prod.mk.injEq]
    refine ⟨?_, fun h => by simpa using h.1⟩
    intro h
    have h : p = "USAGE" ∨ p = "UPDATE" ∨ p = "SELECT" := by simpa using h
    rcases h with rfl | rfl | rfl <;> simp
  | tables =>
    have hbase : (className .tables, p) ∈ hardwired ↔ p ∈ ["SELECT", "INSERT", "UPDATE", "DELETE",
        "TRUNCATE", "REFERENCES", "TRIGGER"] := by
      simp [hardwired, className]
    rw [hbase, objtype, classPrivileges, List.mem_append]
    refine ⟨fun h => ⟨.inl h, ?_⟩, fun h => h.1.resolve_right fun hp => h.2 (hadded p hp)⟩
    rintro rfl
    revert h
    decide

end Classes

section Exact
variable {roles : PgRoles} {acls : DefaultAcls roles}

/-- The rows of the query on a class: what is hard-wired, for an owner without any entry,
and the items of the entry for the class. -/
theorem mem_globalGrants {g : DefaultGrant} (k : RelClass) (hobject : g.object = some (className k)) :
    g ∈ globalGrants acls ↔ g.nsp = 0 ∧
      ((∃ role ∈ unset roles acls, role.oid = g.owner ∧ g.grantee = g.owner ∧
        (className k, g.priv) ∈ hardwired) ∨
      ∃ acl, acls.stored g.owner 0 (objtype k) = some acl ∧ Holds acl g.priv g.grantee) := by
  obtain ⟨nsp, owner, object, grantee, priv⟩ := g
  cases hobject
  have hfunctions : className k ≠ "FUNCTIONS" := by cases k <;> decide
  simp only [globalGrants, List.mem_append, List.mem_flatMap, List.mem_map, mem_exploded,
    List.mem_filter, DefaultGrant.mk.injEq, Option.some.injEq]
  constructor
  · rintro ((⟨role, hrole, ⟨_, _⟩, hhard, rfl, rfl, rfl, rfl, rfl⟩ | ⟨_, _, _, _, hname, _⟩) |
      ⟨⟨_, _, t, acl⟩, ⟨hrow, hnsp⟩, item, hitem, rfl, rfl, hname, rfl, rfl⟩)
    · exact ⟨rfl, .inl ⟨role, hrole, rfl, rfl, hhard⟩⟩
    · exact absurd hname.symm hfunctions
    · cases (globalObject_eq k).mp hname.symm
      cases eq_of_beq hnsp
      exact ⟨rfl, .inr ⟨acl, stored_eq_some.mpr hrow, holds_iff.mpr ⟨item, hitem, rfl, rfl⟩⟩⟩
  · rintro ⟨rfl, ⟨role, hrole, rfl, rfl, hhard⟩ | ⟨acl, hstored, hholds⟩⟩
    · exact .inl (.inl ⟨role, hrole, _, hhard, rfl, rfl, rfl, rfl, rfl⟩)
    · obtain ⟨item, hitem, rfl, rfl⟩ := holds_iff.mp hholds
      exact .inr ⟨_, ⟨stored_eq_some.mp hstored, rfl⟩, item, hitem, rfl, rfl,
        ((globalObject_eq k).mpr rfl).symm, rfl, rfl⟩

/-- The rows of the query on a class, by oid. -/
theorem mem_inspect_class {pairs : List (String × RelClass)} {owner : PgRole}
    (howner : owner ∈ roles.rows) (k : RelClass) {p : String} {o : Nat} (ho : roles.Known o) :
    .globalDefault owner.rolname p (className k) (roles.nameOf o) ∈
        inspectGlobalDefault acls (pairs.map pair) ↔
      (p, k) ∈ pairs ∧ ((owner ∈ unset roles acls ∧ o = owner.oid ∧ (className k, p) ∈ hardwired) ∨
        ∃ acl, acls.stored owner.oid 0 (objtype k) = some acl ∧ Holds acl p o) := by
  rw [mem_inspectGlobalDefault]
  constructor
  · rintro ⟨g, hg, _, object, ⟨hobject, htypes⟩, hrow⟩
    obtain ⟨hname, hpriv, rfl, hgrantee⟩ := Row.globalDefault.inj hrow
    rw [← PgRoles.nameOf_role howner] at hname
    have hcases := ((mem_globalGrants k hobject).mp hg).2
    have hknown : roles.Known g.owner ∧ roles.Known g.grantee := by
      rcases hcases with ⟨role, hrole, hoid, hself, _⟩ | ⟨acl, hstored, hholds⟩
      · have hin : roles.Known g.owner := .inr ⟨role, (mem_unset.mp hrole).1, hoid⟩
        exact ⟨hin, hself ▸ hin⟩
      · exact ⟨.inr (acls.owners _ (stored_eq_some.mp hstored)), known_of_stored hstored hholds⟩
    rw [← PgRoles.nameOf_inj (.inr ⟨owner, howner, rfl⟩) hknown.1 hname,
      ← PgRoles.nameOf_inj ho hknown.2 hgrantee, ← hpriv] at hcases
    refine ⟨pair_mem_iff.mp (hpriv ▸ htypes), hcases.imp_left ?_⟩
    rintro ⟨role, hrole, hoid, hself, hhard⟩
    exact ⟨roles.eq_of_oid (mem_unset.mp hrole).1 howner hoid ▸ hrole, hself, hhard⟩
  · intro ⟨hpair, hcases⟩
    refine ⟨⟨0, owner.oid, some (className k), o, p⟩, (mem_globalGrants k rfl).mpr ⟨rfl, ?_⟩, rfl,
      className k, ⟨rfl, pair_mem_iff.mpr hpair⟩, by rw [PgRoles.nameOf_role howner]⟩
    exact hcases.imp_left fun ⟨hunset, hself, hhard⟩ => ⟨owner, hunset, rfl, hself, hhard⟩

/-- **Global defaults are inspected exactly** if and only if the query does not miss what
Postgres hard-wires for the owner: an owner with an entry for the class, or with no entry
at all but for `MAINTAIN`. -/
theorem global_default_exact_iff (version : Nat) (pairs : List (String × RelClass)) {owner : PgRole}
    (howner : owner ∈ roles.rows) (k : RelClass) (p : String) {o : Nat} (ho : roles.Known o) :
    ((.globalDefault owner.rolname p (className k) (roles.nameOf o) ∈
        inspectGlobalDefault acls (pairs.map pair) ↔
      (p, k) ∈ pairs ∧ Holds (acls.effective version owner.oid (objtype k)) p o)) ↔
    ((p, k) ∈ pairs → o = owner.oid → p ∈ classPrivileges version (objtype k) →
      acls.stored owner.oid 0 (objtype k) = none →
        p ≠ "MAINTAIN" ∧
          ∀ row ∈ acls.rows, row.defaclrole = owner.oid → row.defaclnamespace ≠ 0) := by
  rw [mem_inspect_class howner k ho, DefaultAcls.effective]
  cases hstored : acls.stored owner.oid 0 (objtype k) with
  | some acl =>
    -- the owner has an entry, and what is hard-wired does not count
    have hset : owner ∉ unset roles acls := fun h =>
      (mem_unset.mp h).2 _ (stored_eq_some.mp hstored) rfl rfl
    simp [hset]
  | none =>
    have hworld : worldPrivileges (objtype k) = [] := by cases k <;> rfl
    rw [Option.getD_none, holds_hardwired hworld, mem_unset, and_iff_right howner,
      mem_hardwired version]
    simp only [reduceCtorEq, false_and, exists_false, or_false, forall_const]
    constructor
    · intro h hpair hself hp
      obtain ⟨_, hnone, _, _, hne⟩ := h.mpr ⟨hpair, hself, hp⟩
      exact ⟨hne, hnone⟩
    · intro h
      refine ⟨fun ⟨hpair, _, hself, hp, _⟩ => ⟨hpair, hself, hp⟩, fun ⟨hpair, hself, hp⟩ => ?_⟩
      obtain ⟨hne, hnone⟩ := h hpair hself hp
      exact ⟨hpair, hnone, hself, hp, hne⟩

/-! An owner who granted SELECT on their future sequences to alice. -/

def onSequences : DefaultAcls sampleRoles where
  rows := [⟨10, 0, .S, itemsFor 10 10 ["USAGE", "UPDATE", "SELECT"] ++ itemsFor 10 11 ["SELECT"]⟩]
  keys := by decide
  owners := by decide
  grantees := by
    intro row hrow item hitem
    cases List.mem_singleton.mp hrow
    rcases List.mem_append.mp hitem with hitem | hitem <;>
      obtain ⟨_, hgrantee, _⟩ := mem_itemsFor.mp hitem
    · exact .inr ⟨⟨10, "owner"⟩, by decide, hgrantee.symm⟩
    · exact hgrantee ▸ alice.2

theorem alice_selects_sequences :
    .globalDefault "owner" "SELECT" "SEQUENCES" "alice" ∈
        inspectGlobalDefault onSequences ([("SELECT", .sequences)].map pair) ↔
      ("SELECT", .sequences) ∈ [("SELECT", RelClass.sequences)] ∧
        Holds (onSequences.effective 17 10 .S) "SELECT" 11 := by
  have howner : ⟨10, "owner"⟩ ∈ sampleRoles.rows := by decide
  have halice : sampleRoles.nameOf 11 = "alice" := by decide +kernel
  exact halice ▸ (global_default_exact_iff 17 [("SELECT", .sequences)] howner .sequences "SELECT"
    alice.2).mpr fun _ hself => absurd hself (by decide)

/-- The entry for sequences hides what the owner has on tables. -/
theorem owner_selects_tables_unseen :
    .globalDefault "owner" "SELECT" "TABLES" "owner" ∉
        inspectGlobalDefault onSequences ([("SELECT", .tables)].map pair) ∧
      Holds (onSequences.effective 16 10 .r) "SELECT" 10 := by
  decide +kernel

end Exact

end Ldap2pg.Privileges.Defaults
