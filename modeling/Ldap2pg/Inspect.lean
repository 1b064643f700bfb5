import Ldap2pg.Privileges.Scope
import Ldap2pg.Roles.Map

/-! # `internal/inspect`: what the server is asked before anything is changed

`Server` holds the answers of one server to the queries of a run, rows or an
error. Inspection drops what is blacklisted or not managed on the way in:
`stage1_spec` says what is left, and `Surveyed` what holds of the databases in
every later stage. -/
namespace Ldap2pg.Inspect
open Lib Pyfmt Ldap2pg.Lists Postgres Roles Privileges

variable {dbname : String} {dbs dbs' : DBMap}

/-- The row of `session.sql`. -/
structure Session where
  serverVersionNum : Nat
  database : String
  user : String
  super : Bool

/-- A row of `roles.sql`. Postgres has no role without a name. -/
structure RoleRow where
  role : Role
  named : role.name ≠ ""

structure Server where
  session : Except String Session
  rolesBlacklistQuery : Except String (List String)
  databasesQuery : Except String (List String)
  databases : Except String (List DBMap.Row)
  roleColumns : Except String (List String)
  roles : Except String (List RoleRow)
  /-- nil when the configuration has no such query -/
  managedRolesQuery : Option (Except String (List String))
  schemasQuery : String → Except String (List String)
  /-- name and owner of the schemas of a database -/
  schemas : String → Except String (List (String × String))
  /-- the roles that can create objects in each schema of a database -/
  creators : String → Except String (List (String × List String))
  /-- the grants of a database under an ACL -/
  grants : String → String → Except String (List Row)
  /-- the errors that `Apply` collects on roles -/
  rolesErrors : List String := []
  /-- the error of `Apply` in a database, on an ACL -/
  grantsError : String → String → Option String := fun _ _ => none

structure Instance where
  defaultDatabase : String
  fallbackOwner : String
  me : String
  super : Bool
  rolesBlacklist : List String := []

def inspectSession (server : Server) (fallbackOwner : String) : Except String Instance := do
  let session ← server.session
  if !session.super && session.serverVersionNum < 160000 then
    .error "unprivileged user on pre-16 Postgres"
  else
    .ok { defaultDatabase := session.database
          fallbackOwner := if fallbackOwner = "" then session.user else fallbackOwner
          me := session.user
          super := session.super }

/-- `Stage0`. The session user is always on the blacklist. -/
def stage0 (glob : Glob) (server : Server) (fallbackOwner : String) : Except String Instance := do
  let inst ← (inspectSession server fallbackOwner).mapError ("session: " ++ ·)
  let rows ← server.rolesBlacklistQuery.mapError ("roles_blacklist_query: " ++ ·)
  let blacklist := if rows.contains inst.me then rows else rows ++ [inst.me]
  (check glob blacklist).mapError ("roles_blacklist_query: " ++ ·)
  return { inst with rolesBlacklist := blacklist }

/-- `InspectManagedDatabases`. -/
def inspectManagedDatabases (server : Server) (defaultDatabase : String) : Except String DBMap := do
  let managed ← server.databasesQuery
  let rows ← server.databases
  let databases := DBMap.ofRows (rows.filter fun row => managed.contains row.name)
  if defaultDatabase ∈ databases.map then .ok databases
  else .error "connected to an unmanaged database"

/-- The `column` tag of an option. -/
def column : Column → String
  | .rolsuper => "rolsuper"
  | .rolcreatedb => "rolcreatedb"
  | .rolcreaterole => "rolcreaterole"
  | .rolinherit => "rolinherit"
  | .rolcanlogin => "rolcanlogin"
  | .rolreplication => "rolreplication"
  | .rolbypassrls => "rolbypassrls"
  | .rolconnlimit => "rolconnlimit"

def privilegedColumns : List String := ["rolsuper", "rolreplication", "rolbypassrls"]

/-- `ProcessColumns`: the options the server has and the user may see. -/
def processColumns (columns : List String) (super : Bool) : Columns := fun c =>
  columns.contains (column c) && !(!super && privilegedColumns.contains (column c))

/-- Why a run ends before its end. -/
inductive Stop where
  | panic (p : Panic)
  | error (err : String)

/-- The names that `MatchString` finds no pattern for, or its panic. -/
def unlisted {α : Type} (glob : Glob) (inst : Instance) (name : α → String) :
    List α → Except Stop (List α)
  | [] => .ok []
  | a :: rest => do
    let found ← (matchString glob inst.rolesBlacklist (name a)).mapError .panic
    let kept ← unlisted glob inst name rest
    return if found = "" then a :: kept else kept

theorem unlisted_eq {α : Type} {glob : Glob} {inst : Instance} {name : α → String}
    {l kept : List α} (h : unlisted glob inst name l = .ok kept) :
    kept = l.filter fun a => firstMatch glob inst.rolesBlacklist (name a) = "" := by
  induction l generalizing kept with
  | nil => cases h; rfl
  | cons a rest ih =>
    obtain ⟨found, hfound, h⟩ := bind_eq_ok.mp h
    obtain ⟨kept', hkept, h⟩ := bind_eq_ok.mp h
    cases h
    rw [ih hkept, matchString_eq_ok (mapError_eq_ok.mp hfound), List.filter_cons]
    split <;> simp_all

/-- What `InspectStage1` sets. -/
structure Stage1 where
  databases : DBMap
  columns : Columns
  allRoles : RoleMap
  managedRoles : RoleMap

/-- `ManagedRoles`: all of them without a query. -/
def inspectManagedRoles (glob : Glob) (inst : Instance) (server : Server) (all : RoleMap) :
    Except Stop RoleMap :=
  match server.managedRolesQuery with
  | none => .ok all
  | some query => do
    let names ← query.mapError fun err => .error ("roles: managed_roles_query: " ++ err)
    let names ← unlisted glob inst id names
    return Dict.fill id (fun name => all[name]?.getD default) ∅ names

/-- `InspectStage1`, with `InspectRoles`. -/
def stage1 (glob : Glob) (inst : Instance) (server : Server) : Except Stop Stage1 := do
  let databases ← (inspectManagedDatabases server inst.defaultDatabase).mapError fun err =>
    .error ("databases: " ++ err)
  let columns ← server.roleColumns.mapError fun err => .error ("roles: columns: " ++ err)
  let rows ← server.roles.mapError fun err => .error ("roles: all: " ++ err)
  let roles ← unlisted glob inst Role.name (rows.map RoleRow.role)
  let all := RoleMap.ofRoles roles
  let managed ← inspectManagedRoles glob inst server all
  return { databases, columns := processColumns columns inst.super, allRoles := all,
           managedRoles := managed }

/-- The schemas of a database once `InspectSchemas` read them. -/
def withSchemas (managed : List String) (rows : List (String × String)) (d : Database) : Database :=
  let rows := rows.filter fun row => managed.contains row.1
  { d with schemas := Dict.fill Prod.fst (fun row => ⟨row.1, row.2, []⟩) d.schemas rows }

/-- `InspectStage2`. -/
def stage2 (server : Server) (dbname : String) (dbs : DBMap) : Except String DBMap := do
  let managed ← (server.schemasQuery dbname).mapError ("schemas: " ++ ·)
  let rows ← (server.schemas dbname).mapError ("schemas: " ++ ·)
  return dbs.update dbname (withSchemas managed rows) fun _ => rfl

/-- The body of the loop of `InspectCreators`. -/
def addCreators (roles : List String) (d : Database) (row : String × List String) : Database :=
  match d.schemas[row.1]? with
  | none => d
  | some s =>
    let creators := s.creators ++ row.2.filter roles.contains
    { d with schemas := d.schemas.insert row.1 { s with creators := creators } }

theorem addCreators_name (roles : List String) (rows : List (String × List String)) :
    ∀ d, (rows.foldl (addCreators roles) d).name = d.name := by
  induction rows with
  | nil => intro d; rfl
  | cons row rows ih =>
    intro d
    rw [List.foldl_cons, ih, addCreators]
    split <;> rfl

/-- `InspectStage3`. -/
def stage3 (server : Server) (dbname : String) (roles : List String) (dbs : DBMap) :
    Except String DBMap := do
  let rows ← (server.creators dbname).mapError ("creators: " ++ ·)
  return dbs.update dbname (fun d => rows.foldl (addCreators roles) d) (addCreators_name roles rows)

/-! ## What is left after stage 1 -/

section Spec
variable {glob : Glob} {inst : Instance} {server : Server} {roles : List String}

/-- `managed_roles_query` returns the name. Without a query every role is managed. -/
def Server.Manages (server : Server) (name : String) : Prop :=
  ∀ query, server.managedRolesQuery = some query → ∃ names, query = .ok names ∧ name ∈ names

/-- The server has a role of that name. -/
def Server.HasRole (server : Server) (name : String) : Prop :=
  ∃ rows, server.roles = .ok rows ∧ ∃ row ∈ rows, row.role.name = name

/-- `databases_query` returns the name. -/
def Server.ManagesDatabase (server : Server) (dbname : String) : Prop :=
  ∃ names, server.databasesQuery = .ok names ∧ dbname ∈ names

/-- `schemas_query` returns the name, in the database. -/
def Server.ManagesSchema (server : Server) (dbname schema : String) : Prop :=
  ∃ names, server.schemasQuery dbname = .ok names ∧ schema ∈ names

theorem inspectManagedDatabases_ok {defaultDatabase : String}
    (h : inspectManagedDatabases server defaultDatabase = .ok dbs) :
    defaultDatabase ∈ dbs.map ∧ (∀ k ∈ dbs.map, server.ManagesDatabase k) ∧
      ∀ (k : String) (d : Database), dbs.map[k]? = some d → d.schemas = ∅ := by
  obtain ⟨managed, hmanaged, h⟩ := bind_eq_ok.mp h
  obtain ⟨rows, _, h⟩ := bind_eq_ok.mp h
  simp only at h
  split at h
  case isFalse => cases h
  case isTrue hdefault =>
    cases h
    refine ⟨hdefault, fun k hk => ⟨managed, hmanaged, ?_⟩, fun k d hd => ?_⟩
    · rcases Dict.mem_fill.mp hk with hk | ⟨row, hrow, rfl⟩
      · simp at hk
      · simpa using (List.mem_filter.mp hrow).2
    · rcases Dict.get_fill_cases hd with ⟨row, _, _, rfl⟩ | hd
      · rfl
      · simp at hd

theorem mem_inspectManagedRoles {all managed : RoleMap}
    (h : inspectManagedRoles glob inst server all = .ok managed) {name : String} (hall : name ∈ all)
    (hname : firstMatch glob inst.rolesBlacklist name = "") :
    name ∈ managed ↔ server.Manages name := by
  unfold inspectManagedRoles at h
  unfold Server.Manages
  split at h
  case h_1 hquery =>
    cases h
    simp [hquery, hall]
  case h_2 query hquery =>
    obtain ⟨names, hnames, h⟩ := bind_eq_ok.mp h
    rw [mapError_eq_ok] at hnames
    obtain ⟨kept, hkept, h⟩ := bind_eq_ok.mp h
    cases h
    simp [unlisted_eq hkept, Dict.mem_fill, hquery, hnames, hname]

/-- What stage 1 leaves of the databases and roles of the server. -/
structure Stage1.Spec (glob : Glob) (inst : Instance) (server : Server) (s : Stage1) : Prop where
  default : inst.defaultDatabase ∈ s.databases.map
  databases : ∀ k ∈ s.databases.map, server.ManagesDatabase k
  noSchema : ∀ (k : String) (d : Database), s.databases.map[k]? = some d → d.schemas = ∅
  key : KeyIsName s.allRoles
  mem_all : ∀ name, name ∈ s.allRoles ↔ server.HasRole name ∧
    ∀ pattern ∈ inst.rolesBlacklist, glob.isMatch pattern name = false
  managed : ∀ name ∈ s.allRoles, name ∈ s.managedRoles ↔ server.Manages name

theorem stage1_spec {s : Stage1} (h : stage1 glob inst server = .ok s) :
    s.Spec glob inst server := by
  obtain ⟨dbs, hdbs, h⟩ := bind_eq_ok.mp h
  obtain ⟨columns, _, h⟩ := bind_eq_ok.mp h
  obtain ⟨rows, hrows, h⟩ := bind_eq_ok.mp h
  obtain ⟨roles, hroles, h⟩ := bind_eq_ok.mp h
  obtain ⟨managed, hmanaged, h⟩ := bind_eq_ok.mp h
  cases h
  rw [mapError_eq_ok] at hdbs hrows
  cases unlisted_eq hroles
  obtain ⟨hdefault, hdatabases, hschemas⟩ := inspectManagedDatabases_ok hdbs
  have hall : ∀ name, name ∈ RoleMap.ofRoles ((rows.map RoleRow.role).filter fun r =>
      firstMatch glob inst.rolesBlacklist r.name = "") ↔
      ∃ row ∈ rows, row.role.name = name ∧ firstMatch glob inst.rolesBlacklist name = "" := by
    intro name
    rw [RoleMap.ofRoles, Dict.mem_fill]
    simp only [Std.ExtTreeMap.not_mem_empty, false_or, List.mem_filter, List.mem_map,
      decide_eq_true_eq]
    constructor
    · intro ⟨r, ⟨⟨row, hrow, hr⟩, hmatch⟩, hname⟩
      exact ⟨row, hrow, by rw [hr, hname], hname ▸ hmatch⟩
    · intro ⟨row, hrow, hname, hmatch⟩
      exact ⟨row.role, ⟨⟨row, hrow, rfl⟩, by rw [hname]; exact hmatch⟩, hname⟩
  refine ⟨hdefault, hdatabases, hschemas, RoleMap.keyIsName_ofRoles _, fun name => ?_,
    fun name hname => ?_⟩
  · rw [hall name]
    constructor
    · intro ⟨row, hrow, hname, hmatch⟩
      have hne : name ≠ "" := hname ▸ row.named
      exact ⟨⟨rows, hrows, row, hrow, hname⟩, (firstMatch_eq_empty hne).mp hmatch⟩
    · intro ⟨⟨rows', hrows', row, hrow, hname⟩, hmatch⟩
      cases hrows.symm.trans hrows'
      have hne : name ≠ "" := hname ▸ row.named
      exact ⟨row, hrow, hname, (firstMatch_eq_empty hne).mpr hmatch⟩
  · obtain ⟨_, _, _, hmatch⟩ := (hall name).mp hname
    exact mem_inspectManagedRoles hmanaged hname hmatch

/-! ## What holds of the databases from then on -/

/-- Databases and schemas are managed ones, and so are the roles that create in
them. -/
structure Surveyed (server : Server) (roles : List String) (dbs : DBMap) : Prop where
  databases : ∀ k ∈ dbs.map, server.ManagesDatabase k
  schemas : ∀ (k : String) (d : Database), dbs.map[k]? = some d →
    ∀ s ∈ d.schemas, server.ManagesSchema k s
  creators : ∀ (k : String) (d : Database), dbs.map[k]? = some d → Scope.ManagedCreators roles d

theorem Stage1.Spec.surveyed {s : Stage1} (h : s.Spec glob inst server) (roles : List String) :
    Surveyed server roles s.databases where
  databases := h.databases
  schemas := by
    intro k d hd name hname
    rw [h.noSchema k d hd] at hname
    simp at hname
  creators := by
    intro k d hd name schema hschema
    rw [h.noSchema k d hd] at hschema
    simp at hschema

theorem Surveyed.update (h : Surveyed server roles dbs) {f : Database → Database}
    {hf : ∀ d, (f d).name = d.name}
    (hschemas : ∀ d, ∀ name ∈ (f d).schemas, name ∈ d.schemas ∨ server.ManagesSchema dbname name)
    (hcreators : ∀ d, Scope.ManagedCreators roles d → Scope.ManagedCreators roles (f d)) :
    Surveyed server roles (dbs.update dbname f hf) := by
  refine ⟨fun k hk => h.databases k ((DBMap.update_mem dbs dbname f hf k).mp hk),
    fun k d hd name hname => ?_, fun k d hd => ?_⟩
  · rw [DBMap.update_get] at hd
    split at hd
    case isFalse => exact h.schemas k d hd name hname
    case isTrue he =>
      obtain ⟨old, hold, rfl⟩ := Option.map_eq_some_iff.mp hd
      rcases hschemas old name hname with hname | hnew
      · exact h.schemas k old hold name hname
      · exact he ▸ hnew
  · rw [DBMap.update_get] at hd
    split at hd
    case isFalse => exact h.creators k d hd
    case isTrue =>
      obtain ⟨old, hold, rfl⟩ := Option.map_eq_some_iff.mp hd
      exact hcreators old (h.creators k old hold)

theorem Surveyed.setOwner (h : Surveyed server roles dbs) (dbname owner : String) :
    Surveyed server roles (dbs.setOwner dbname owner) :=
  h.update (fun _ _ hname => .inl hname) fun _ hd => hd

theorem Surveyed.stage2 (h : Surveyed server roles dbs) (hok : stage2 server dbname dbs = .ok dbs') :
    Surveyed server roles dbs' := by
  obtain ⟨managed, hmanaged, hok⟩ := bind_eq_ok.mp hok
  obtain ⟨rows, _, hok⟩ := bind_eq_ok.mp hok
  cases hok
  rw [mapError_eq_ok] at hmanaged
  refine h.update (fun d name hname => ?_) fun d hd name s hs => ?_
  · rcases Dict.mem_fill.mp hname with hname | ⟨row, hrow, rfl⟩
    · exact .inl hname
    · exact .inr ⟨managed, hmanaged, by simpa using (List.mem_filter.mp hrow).2⟩
  · rcases Dict.get_fill_cases hs with ⟨row, _, _, rfl⟩ | hs
    · exact fun c hc => absurd hc List.not_mem_nil
    · exact hd name s hs

theorem addCreators_spec (roles : List String) (rows : List (String × List String)) (d : Database) :
    (∀ name, name ∈ (rows.foldl (addCreators roles) d).schemas ↔ name ∈ d.schemas) ∧
      (Scope.ManagedCreators roles d →
        Scope.ManagedCreators roles (rows.foldl (addCreators roles) d)) := by
  induction rows generalizing d with
  | nil => exact ⟨fun _ => Iff.rfl, id⟩
  | cons row rows ih =>
    obtain ⟨hmem, hcreators⟩ := ih (addCreators roles d row)
    rw [List.foldl_cons]
    cases hs : d.schemas[row.1]? with
    | none =>
      rw [addCreators, hs] at hmem hcreators ⊢
      exact ⟨hmem, hcreators⟩
    | some s =>
      rw [addCreators, hs] at hmem hcreators ⊢
      refine ⟨fun name => (hmem name).trans ?_, fun hd => hcreators fun name s' hs' c hc => ?_⟩
      · rw [Std.ExtTreeMap.mem_insert, compare_eq_iff_eq]
        exact or_iff_right_of_imp fun he => Dict.mem_iff.mpr ⟨s, he ▸ hs⟩
      · rcases Dict.get_insert_cases hs' with ⟨rfl, rfl⟩ | ⟨_, hs'⟩
        · rcases List.mem_append.mp hc with hc | hc
          · exact hd row.1 s hs c hc
          · simpa using (List.mem_filter.mp hc).2
        · exact hd name s' hs' c hc

theorem Surveyed.stage3 (h : Surveyed server roles dbs)
    (hok : stage3 server dbname roles dbs = .ok dbs') : Surveyed server roles dbs' := by
  obtain ⟨rows, _, hok⟩ := bind_eq_ok.mp hok
  cases hok
  exact h.update (fun d name hname => .inl (((addCreators_spec roles rows d).1 name).mp hname))
    fun d => (addCreators_spec roles rows d).2

theorem stage2_mem (hok : stage2 server dbname dbs = .ok dbs') (k : String) :
    k ∈ dbs'.map ↔ k ∈ dbs.map := by
  obtain ⟨managed, _, hok⟩ := bind_eq_ok.mp hok
  obtain ⟨rows, _, hok⟩ := bind_eq_ok.mp hok
  cases hok
  exact DBMap.update_mem dbs dbname _ _ k

theorem stage3_mem (hok : stage3 server dbname roles dbs = .ok dbs') (k : String) :
    k ∈ dbs'.map ↔ k ∈ dbs.map := by
  obtain ⟨rows, _, hok⟩ := bind_eq_ok.mp hok
  cases hok
  exact DBMap.update_mem dbs dbname _ _ k

theorem stage2_frame (hok : stage2 server dbname dbs = .ok dbs') {k : String} (hne : k ≠ dbname) :
    dbs'.map[k]? = dbs.map[k]? := by
  obtain ⟨managed, _, hok⟩ := bind_eq_ok.mp hok
  obtain ⟨rows, _, hok⟩ := bind_eq_ok.mp hok
  cases hok
  exact (DBMap.update_get dbs dbname _ _ k).trans (if_neg hne.symm)

/-- Stage 3 adds creators to the schemas of one database. -/
theorem stage3_frame (hok : stage3 server dbname roles dbs = .ok dbs') :
    (∀ k, k ≠ dbname → dbs'.map[k]? = dbs.map[k]?) ∧
      ∀ name, name ∈ (databaseOf dbs' dbname).schemas ↔ name ∈ (databaseOf dbs dbname).schemas := by
  obtain ⟨rows, _, hok⟩ := bind_eq_ok.mp hok
  cases hok
  refine ⟨fun k hne => ?_, fun name => ?_⟩
  · rw [DBMap.update_get, if_neg hne.symm]
  · rw [databaseOf, databaseOf, DBMap.update_get, if_pos rfl]
    cases dbs.map[dbname]? with
    | none => exact Iff.rfl
    | some d => exact (addCreators_spec roles rows d).1 name

end Spec

end Ldap2pg.Inspect
