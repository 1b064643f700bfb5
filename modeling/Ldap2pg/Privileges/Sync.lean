import Ldap2pg.Privileges.Expand

/-! # `Inspect` and `Sync`: from rows of the server to `GRANT` and `REVOKE`

A `Row` is what an inspection query returns, with the columns that one of the
four scan functions reads. What `Inspect` reports is decided row by row:
`report`. -/
namespace Ldap2pg.Privileges
open Lib Pyfmt Postgres

inductive Row where
  | globalDefault (owner type object grantee : String)
  | schemaDefault (owner schema type object grantee : String)
  | ofInstance (type object grantee : String)
  | ofDatabase (type object grantee : String) (isPartial : Bool)
  deriving DecidableEq, Repr

def rowToGlobalDefaultGrant : Row → Except String Grant
  | .globalDefault owner type object grantee => .ok { owner, type, object, grantee }
  | _ => .error "bad row"

def rowToSchemaDefaultGrant : Row → Except String Grant
  | .schemaDefault owner schema type object grantee =>
    .ok { owner, schema, type, object, grantee }
  | _ => .error "bad row"

def rowToInstanceGrant : Row → Except String Grant
  | .ofInstance type object grantee => .ok { type, object, grantee }
  | _ => .error "bad row"

def rowToDatabaseGrant : Row → Except String Grant
  | .ofDatabase type object grantee isPartial => .ok { type, object, grantee, isPartial }
  | _ => .error "bad row"

/-- The scan function that `ACL.Register` chooses, by name and then by scope. -/
def ACL.scan (a : ACL) : Row → Except String Grant :=
  if a.name = "GLOBAL DEFAULT" then rowToGlobalDefaultGrant
  else if a.name = "SCHEMA DEFAULT" then rowToSchemaDefaultGrant
  else if a.scope = "instance" then rowToInstanceGrant
  else if a.scope = "database" then rowToDatabaseGrant
  else fun _ => .error "unknown scope"

/-- The end of `ACL.RowTo`: databases and schemas are in fields of their own, as
in the grants of rules. -/
def ACL.place (a : ACL) (g : Grant) : Grant :=
  if a.uses "object" then g
  else if a.uses "database" then { g with database := g.object, object := "" }
  else if g.schema = "" && a.uses "schema" then { g with schema := g.object, object := "" }
  else g

def ACL.rowTo (a : ACL) (r : Row) : Except String Grant := do
  let g ← a.scan r
  return a.place (if g.acl = "" then { g with acl := a.name } else g)

/-- A grant without a database is in the current one, unless it is on the instance. -/
def ACL.assign (a : ACL) (dbname : String) (g : Grant) : Grant :=
  if g.database = "" ∧ a.scope ≠ "instance" then { g with database := dbname } else g

/-- The filters of `iterGrants`: managed databases, then managed schemas. -/
def iterGrant (a : ACL) (dbs : DBMap) (database : Database) (g : Grant) : Option Grant :=
  if g.database ≠ "" ∧ g.database ∉ dbs.map then none
  else if g.schema ≠ "" ∧ g.schema ∉ database.schemas then none
  else some (a.assign database.name g)

/-- Every grant but the mark of an empty schema, despite the name. -/
def Grant.isWildcard (g : Grant) : Bool := g.type != ""

/-- The filters of `Inspect`. -/
def keepGrant (roles : List String) (g : Grant) : Bool :=
  !(g.isWildcard && !roles.contains g.grantee) && !(g.owner != "" && !roles.contains g.owner)

/-- `Inspect`, on the rows of the query of the ACL. -/
def inspect (reg : Registry) (dbs : DBMap) (database : Database) (acl : String)
    (roles : List String) (rows : Except String (List Row)) : Except String (List Grant) := do
  let grants ← (← rows).mapM (reg.acl acl).rowTo
  return (grants.filterMap (iterGrant (reg.acl acl) dbs database)).filter (keepGrant roles)

inductive Stmt where
  | revoke (g : Grant)
  | grant (g : Grant)
  deriving DecidableEq, Repr

/-- `diff`: revoke what is not wanted, then grant what is missing. -/
def diff (current wanted : List Grant) : List (SyncQuery Stmt) :=
  (current.filter fun g => !(wanted.contains { g with isPartial := false } || g.type == "")).map
      (fun g => { description := "Revoke privileges.", database := g.database, stmt := .revoke g }) ++
  (wanted.filter fun g => !current.contains g &&
      !current.contains { g with grantee := "public", type := "" }).map
      (fun g => { description := "Grant privileges.", database := g.database, stmt := .grant g })

/-- The read of `postgres.Databases`: the zero value for an unknown name. -/
def databaseOf (dbs : DBMap) (dbname : String) : Database := dbs.map[dbname]?.getD ⟨"", "", ∅⟩

/-- `Sync`, up to `postgres.Apply`. -/
def sync (reg : Registry) (dbs : DBMap) (o : Order) (dbname : String)
    (current wanted : List Grant) : Except Panic (List (SyncQuery Stmt)) := do
  let wanted ← expand reg dbs o wanted (databaseOf dbs dbname)
  return diff current wanted

/-- Where `Inspect` looks for grants. -/
structure InScope (roles : List String) (dbs : DBMap) (database : Database) (g : Grant) : Prop where
  owner : g.owner = "" ∨ g.owner ∈ roles
  schema : g.schema = "" ∨ g.schema ∈ database.schemas
  database : g.database = "" ∨ g.database ∈ dbs.map

section Spec
variable {reg : Registry} {dbs : DBMap} {database : Database} {acl : String} {roles : List String}

/-- What `Inspect` makes of one row it can scan. -/
def report (reg : Registry) (dbs : DBMap) (database : Database) (acl : String)
    (roles : List String) (g : Grant) : Option Grant :=
  (iterGrant (reg.acl acl) dbs database g).filter (keepGrant roles)

theorem keepGrant_iff {g : Grant} : keepGrant roles g = true ↔
    (g.type ≠ "" → g.grantee ∈ roles) ∧ (g.owner = "" ∨ g.owner ∈ roles) := by
  simp [keepGrant, Grant.isWildcard, imp_iff_not_or]

theorem mem_inspect {rows : Except String (List Row)} {out : List Grant}
    (h : inspect reg dbs database acl roles rows = .ok out) {g : Grant} :
    g ∈ out ↔ ∃ l, rows = .ok l ∧ ∃ row ∈ l, ∃ scanned, (reg.acl acl).rowTo row = .ok scanned ∧
      report reg dbs database acl roles scanned = some g := by
  obtain ⟨l, hrows, h⟩ := bind_eq_ok.mp h
  obtain ⟨scannedAll, hscan, h⟩ := bind_eq_ok.mp h
  cases h
  simp only [List.mem_filter, List.mem_filterMap, report, Option.filter_eq_some_iff]
  constructor
  · intro ⟨⟨scanned, hmem, hiter⟩, hkeep⟩
    obtain ⟨row, hrow, hto⟩ := mem_of_mapM_ok hscan hmem
    exact ⟨l, hrows, row, hrow, scanned, hto, hiter, hkeep⟩
  · intro ⟨l', hrows', row, hrow, scanned, hto, hiter, hkeep⟩
    cases hrows.symm.trans hrows'
    obtain ⟨scanned', hmem, hto'⟩ := mem_mapM_ok hscan hrow
    cases hto.symm.trans hto'
    exact ⟨⟨scanned, hmem, hiter⟩, hkeep⟩

@[simp] theorem assign_schema (a : ACL) (dbname : String) (g : Grant) :
    (a.assign dbname g).schema = g.schema := by
  unfold ACL.assign
  split <;> rfl

theorem assign_managed {a : ACL} (hdb : database.name ∈ dbs.map) (g : Grant) :
    ((a.assign database.name g).database = "" ∨ (a.assign database.name g).database ∈ dbs.map) ↔
      (g.database = "" ∨ g.database ∈ dbs.map) := by
  unfold ACL.assign
  split
  case isTrue h => exact iff_of_true (.inr hdb) (.inl h.1)
  case isFalse => rfl

theorem iterGrant_eq_some {a : ACL} {g out : Grant} (hdb : database.name ∈ dbs.map) :
    iterGrant a dbs database g = some out ↔ out = a.assign database.name g ∧
      (out.schema = "" ∨ out.schema ∈ database.schemas) ∧
      (out.database = "" ∨ out.database ∈ dbs.map) := by
  have hnot : ∀ p q : Prop, ¬ (¬ p ∧ ¬ q) ↔ p ∨ q := fun p q => by rw [not_and_or, not_not, not_not]
  unfold iterGrant
  split
  case isTrue h =>
    refine iff_of_false (by simp) fun ⟨hout, _, hdatabase⟩ => ?_
    rw [hout, assign_managed hdb] at hdatabase
    exact hdatabase.elim h.1 h.2
  case isFalse hd =>
    split
    case isTrue h =>
      refine iff_of_false (by simp) fun ⟨hout, hschema, _⟩ => ?_
      rw [hout, assign_schema] at hschema
      exact hschema.elim h.1 h.2
    case isFalse hs =>
      rw [Option.some_inj]
      refine ⟨fun hout => ⟨hout.symm, ?_, ?_⟩, fun h => h.1.symm⟩
      · rw [← hout, assign_schema]
        exact (hnot _ _).mp hs
      · rw [← hout, assign_managed hdb]
        exact (hnot _ _).mp hd

theorem inspect_inScope {rows : Except String (List Row)} {out : List Grant}
    (hdb : database.name ∈ dbs.map) (h : inspect reg dbs database acl roles rows = .ok out) :
    ∀ g ∈ out, InScope roles dbs database g ∧ (g.type ≠ "" → g.grantee ∈ roles) := by
  intro g hg
  obtain ⟨_, _, _, _, scanned, _, hreport⟩ := (mem_inspect h).mp hg
  obtain ⟨hiter, hkeep⟩ := Option.filter_eq_some_iff.mp hreport
  obtain ⟨hgrantee, howner⟩ := keepGrant_iff.mp hkeep
  obtain ⟨_, hschema, hdatabase⟩ := (iterGrant_eq_some hdb).mp hiter
  exact ⟨⟨howner, hschema, hdatabase⟩, hgrantee⟩

theorem sync_eq_ok {o : Order} {dbname : String} {current wanted : List Grant}
    {queries : List (SyncQuery Stmt)}
    (h : sync reg dbs o dbname current wanted = .ok queries) :
    ∃ expanded, expand reg dbs o wanted (databaseOf dbs dbname) = .ok expanded ∧
      queries = diff current expanded := by
  obtain ⟨expanded, hexpand, h⟩ := bind_eq_ok.mp h
  cases h
  exact ⟨expanded, hexpand, rfl⟩

theorem revoke_mem_diff {current wanted : List Grant} {g : Grant} :
    .revoke g ∈ (diff current wanted).map SyncQuery.stmt ↔
      g ∈ current ∧ { g with isPartial := false } ∉ wanted ∧ g.type ≠ "" := by
  simp [diff]

theorem grant_mem_diff {current wanted : List Grant} {g : Grant} :
    .grant g ∈ (diff current wanted).map SyncQuery.stmt ↔
      g ∈ wanted ∧ g ∉ current ∧ { g with grantee := "public", type := "" } ∉ current := by
  simp [diff]

end Spec

end Ldap2pg.Privileges
