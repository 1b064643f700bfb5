import Ldap2pg.Roles.Map

/-! # The queries that synchronise roles

`Stmt` is one constructor for each query template of `role.go`; `Stmt.query` and
`Stmt.args` give back the text and the arguments the source puts in the
`SyncQuery`. `Role.Alter`, `Role.Create`, `Role.Drop` and `Diff` follow the
source, loop by loop. `Role.Drop` rewrites the owners of the managed databases
while it generates queries, so the database map goes through `Diff` as state. -/
namespace Ldap2pg.Roles
open Lib Postgres

variable {o : Order} {cols : Columns} {p fallbackOwner name : String} {dbs : DBMap}

/-- An argument of a query. -/
inductive Arg where
  | ident (name : String)
  | str (s : String)
  | list (l : List Arg)

inductive Stmt where
  | hook (sql : String)
  | create (role : String) (options : List Clause) (parents : List String)
  | alterOptions (role : String) (changes : List Clause)
  | grantParents (parents : List String) (role : String)
  | revokeParent (parent role grantor : String)
  | comment (role text : String)
  | resetConfig (role key : String)
  | setConfig (role key value : String)
  | initConfig (role key value : String)
  | terminate (role : String)
  | alterDatabase (database owner : String)
  | reassignOwned (role owner : String)
  | noLogin (role : String)
  | drop (role : String)
  deriving DecidableEq

def Stmt.query : Stmt → String
  | .hook sql => sql
  | .create _ options [] => "CREATE ROLE %s WITH " ++ clausesText options ++ ";"
  | .create _ options _ =>
    "\n\t\t\tCREATE ROLE %s\n\t\t\tWITH " ++ clausesText options ++ "\n\t\t\tIN ROLE %s;"
  | .alterOptions _ changes => "ALTER ROLE %s WITH " ++ clausesText changes ++ ";"
  | .grantParents .. => "GRANT %s TO %s;"
  | .revokeParent .. => "REVOKE %s FROM %s GRANTED BY %s;"
  | .comment .. => "COMMENT ON ROLE %s IS %s;"
  | .resetConfig .. => "ALTER ROLE %s RESET %s;"
  | .setConfig .. => "ALTER ROLE %s SET %s TO %s;"
  | .initConfig .. => "ALTER ROLE %s SET %s TO %s"
  | .terminate _ =>
    "\n\t\t\tSELECT pg_terminate_backend(pid)\n\t\t\tFROM pg_catalog.pg_stat_activity" ++
      "\n\t\t\tWHERE usename = %s;"
  | .alterDatabase .. => "ALTER DATABASE %s OWNER TO %s;"
  | .reassignOwned .. => "\n\t\t\tREASSIGN OWNED BY %s TO %s;\n\t\t\tDROP OWNED BY %s;"
  | .noLogin _ => "ALTER ROLE %s NOLOGIN;"
  | .drop _ => "DROP ROLE %s;"

def Stmt.args : Stmt → List Arg
  | .hook _ => []
  | .create role _ [] => [.ident role]
  | .create role _ parents => [.ident role, .list (parents.map .ident)]
  | .alterOptions role _ => [.ident role]
  | .grantParents parents role => [.list (parents.map .ident), .ident role]
  | .revokeParent parent role grantor => [.ident parent, .ident role, .ident grantor]
  | .comment role text => [.ident role, .str text]
  | .resetConfig role key => [.ident role, .ident key]
  | .setConfig role key value | .initConfig role key value =>
    [.ident role, .ident key, .str value]
  | .terminate role => [.str role]
  | .alterDatabase database owner => [.ident database, .ident owner]
  | .reassignOwned role owner => [.ident role, .ident owner, .ident role]
  | .noLogin role => [.ident role]
  | .drop role => [.ident role]

abbrev Query := SyncQuery Stmt

variable {q : Query} {out : List Query × DBMap}

/-- The part of `Role.Alter` on settings: keys of the instance first, then the
wanted keys it does not have. -/
def Role.alterConfig (o : Order) (r wanted : Role) : List Query :=
  match wanted.config with
  | none => []
  | some wantedConfig =>
    let config := r.config.getD ∅
    ((o.sub 0).range config.keys).filterMap (fun k =>
      match wantedConfig[k]? with
      | none => some { description := "Reset role config.", stmt := .resetConfig r.name k }
      | some wantedValue =>
        if some wantedValue = config[k]? then none
        else some { description := "Update role config.", stmt := .setConfig r.name k wantedValue })
    ++ ((o.sub 1).range (wantedConfig.keys.filter fun k => k ∉ config)).map (fun k =>
      { description := "Set role config.",
        stmt := .setConfig r.name k (wantedConfig[k]?.getD "") })

/-- `Role.Alter`: queries from the current role to the wanted one. -/
def Role.alter (cols : Columns) (o : Order) (r wanted : Role) : List Query :=
  let optionsChanges := r.options.diff cols wanted.options
  let missing := r.missingParents wanted.parents
  let spurious := wanted.missingParents r.parents
  (if clausesText optionsChanges ≠ "" then
    [{ description := "Alter options.", stmt := .alterOptions r.name optionsChanges }] else [])
  ++ (if missing.length > 0 then
    [{ description := "Grant missing parents.",
       stmt := .grantParents (missing.map Membership.name) r.name }] else [])
  ++ spurious.map (fun m =>
    { description := "Revoke spurious parent.", stmt := .revokeParent m.name r.name m.grantor })
  ++ (if wanted.comment ≠ r.comment then
    [{ description := "Set role comment.", stmt := .comment r.name wanted.comment }] else [])
  ++ r.alterConfig o wanted

/-- `Role.Create`. -/
def Role.create (cols : Columns) (o : Order) (r : Role) : List Query :=
  (if r.beforeCreate ≠ "" then
    [{ description := "Run before create hook.", stmt := .hook r.beforeCreate }] else [])
  ++ [{ description := "Create role.",
        stmt := .create r.name (r.options.clauses cols) (r.parents.map Membership.name) },
      { description := "Set role comment.", stmt := .comment r.name r.comment }]
  ++ (match r.config with
    | none => []
    | some config => (o.range config.keys).map fun k =>
      { description := "Set role config.", stmt := .initConfig r.name k (config[k]?.getD "") })
  ++ (if r.afterCreate ≠ "" then
    [{ description := "Run after create hook.", stmt := .hook r.afterCreate }] else [])

/-- The queries of `Role.Drop` in one database, and the map with the owner the
code records there. -/
def Role.dropIn (r : Role) (fallbackOwner : String) (dbs : DBMap) (dbname : String) :
    List Query × DBMap :=
  match dbs.map[dbname]? with
  | none => ([], dbs)
  | some database =>
    if database.owner = r.name then
      ([{ description := "Reassign database.", stmt := .alterDatabase database.name fallbackOwner },
        { description := "Reassign objects and purge ACL.", database := database.name,
          stmt := .reassignOwned r.name fallbackOwner }],
        dbs.setOwner dbname fallbackOwner)
    else
      ([{ description := "Reassign objects and purge ACL.", database := database.name,
          stmt := .reassignOwned r.name database.owner }], dbs)

/-- `Role.Drop`. -/
def Role.drop (o : Order) (r : Role) (fallbackOwner : String) (dbs : DBMap) :
    List Query × DBMap :=
  let inDatabases := emit (r.dropIn fallbackOwner) dbs (o.range dbs.names)
  ((if r.options.canLogin then
      [{ description := "Terminate running sessions.", database := "<first>",
         stmt := .terminate r.name }] else [])
    ++ inDatabases.1
    ++ [{ description := "Drop LOGIN.", stmt := .noLogin r.name },
        { description := "Drop role.", stmt := .drop r.name }],
    inDatabases.2)

/-- The roles to drop, in the order the managed map is ranged over: managed,
not wanted, not `public`, and still there. -/
def dropped (o : Order) (all managed wanted : RoleMap) : List Role :=
  (o.range managed.keys).filterMap fun name =>
    if name ∈ wanted then none else if name = "public" then none else all[name]?

/-- Creates or alters one wanted role. -/
def upsert (cols : Columns) (o : Order) (all wanted : RoleMap) (name : String) : List Query :=
  match all[name]? with
  | some other => other.alter cols o (wanted[name]?.getD default)
  | none => (wanted[name]?.getD default).create cols o

/-- Creates or alters the wanted roles, parents first. -/
def upserts (cols : Columns) (o : Order) (all wanted : RoleMap) (names : List String) :
    List Query :=
  names.zipIdx.flatMap fun ni => upsert cols (o.sub ni.2) all wanted ni.1

/-- Drops a list of roles one after the other. -/
def drops (o : Order) (roles : List Role) (fallbackOwner : String) (dbs : DBMap) :
    List Query × DBMap :=
  emit (fun dbs ri => ri.1.drop (o.sub ri.2) fallbackOwner dbs) dbs roles.zipIdx

/-- `role.Diff`; `none` when `Flatten` does not come back. -/
def diff (cols : Columns) (o : Order) (all managed wanted : RoleMap) (fallbackOwner : String)
    (dbs : DBMap) : Option (List Query × DBMap) := do
  let names ← Map.flatten (o.sub 0) wanted
  let out := drops (o.sub 2) (dropped (o.sub 3) all managed wanted) fallbackOwner dbs
  return (upserts cols (o.sub 1) all wanted names ++ out.1, out.2)

/-- The queries of `role.Diff` once grouped by database, in the order they are
executed; `none` when `Diff` or the grouping does not return. -/
def stage (cols : Columns) (o : Order) (all managed wanted : RoleMap) (fallbackOwner : String)
    (dbs : DBMap) (defaultDatabase : String) : Option (List Query) := do
  let out ← diff cols o all managed wanted fallbackOwner dbs
  (groupByDatabase dbs.map defaultDatabase out.1).toOption

theorem stage_eq_some {all managed wanted : RoleMap} {defaultDatabase : String}
    {queries : List Query}
    (h : stage cols o all managed wanted fallbackOwner dbs defaultDatabase = some queries) :
    ∃ out, diff cols o all managed wanted fallbackOwner dbs = some out ∧
      groupByDatabase dbs.map defaultDatabase out.1 = .ok queries := by
  obtain ⟨out, hdiff, hgroup⟩ := Option.bind_eq_some_iff.mp h
  refine ⟨out, hdiff, ?_⟩
  cases hg : groupByDatabase dbs.map defaultDatabase out.1 with
  | error e => rw [hg] at hgroup; cases hgroup
  | ok qs => rw [hg] at hgroup; cases hgroup; rfl

/-- The role `name` is dropped. -/
structure Dropped (all managed wanted : RoleMap) (name : String) : Prop where
  managed : name ∈ managed
  unwanted : name ∉ wanted
  notPublic : name ≠ "public"
  present : name ∈ all

theorem mem_dropped {all managed wanted : RoleMap} {r : Role} :
    r ∈ dropped o all managed wanted ↔
      ∃ name, Dropped all managed wanted name ∧ all[name]? = some r := by
  unfold dropped
  constructor
  · intro h
    obtain ⟨name, hname, h⟩ := List.mem_filterMap.mp h
    have hm : name ∈ managed := Std.ExtTreeMap.mem_keys.mp (Order.mem_range.mp hname)
    split at h
    · cases h
    · split at h
      · cases h
      · exact ⟨name, ⟨hm, ‹_›, ‹_›, Dict.mem_iff.mpr ⟨r, h⟩⟩, h⟩
  · intro ⟨name, hd, hr⟩
    refine List.mem_filterMap.mpr ⟨name, ?_, ?_⟩
    · exact Order.mem_range.mpr (Std.ExtTreeMap.mem_keys.mpr hd.managed)
    · rw [if_neg hd.unwanted, if_neg hd.notPublic, hr]

theorem mem_dropped_names {all managed wanted : RoleMap} (hk : KeyIsName all) :
    name ∈ (dropped o all managed wanted).map Role.name ↔ Dropped all managed wanted name := by
  constructor
  · intro h
    obtain ⟨r, hr, rfl⟩ := List.mem_map.mp h
    obtain ⟨name, hd, ha⟩ := mem_dropped.mp hr
    exact hk name r ha ▸ hd
  · intro hd
    obtain ⟨r, hr⟩ := Dict.mem_iff.mp hd.present
    exact List.mem_map.mpr ⟨r, mem_dropped.mpr ⟨name, hd, hr⟩, hk name r hr⟩

theorem nodup_dropped_names (o : Order) {all : RoleMap} (managed wanted : RoleMap) (hk : KeyIsName all) :
    ((dropped o all managed wanted).map Role.name).Nodup := by
  have hsub : ((dropped o all managed wanted).map Role.name).Sublist (o.range managed.keys) := by
    unfold dropped
    generalize o.range managed.keys = l
    induction l with
    | nil => exact .slnil
    | cons name l ih =>
      rw [List.filterMap_cons]
      split
      · exact ih.cons name
      · rename_i r hr
        have he : r.name = name := by
          split at hr
          · cases hr
          · split at hr
            · cases hr
            · exact hk name r hr
        rw [List.map_cons, he]
        exact ih.cons_cons name
  exact hsub.nodup (Order.range_nodup Std.ExtTreeMap.nodup_keys)

theorem zipIdx_map_name (roles : List Role) :
    (roles.zipIdx.map fun ri => ri.1.name) = roles.map Role.name := by
  calc (roles.zipIdx.map fun ri => ri.1.name)
      = (roles.zipIdx.map Prod.fst).map Role.name := by rw [List.map_map]; rfl
    _ = roles.map Role.name := by rw [List.zipIdx_map_fst]

theorem diff_eq_some {all managed wanted : RoleMap}
    (h : diff cols o all managed wanted fallbackOwner dbs = some out) :
    ∃ names, Map.flatten (o.sub 0) wanted = some names ∧
      out.1 = upserts cols (o.sub 1) all wanted names ++
        (drops (o.sub 2) (dropped (o.sub 3) all managed wanted) fallbackOwner dbs).1 := by
  obtain ⟨names, hnames, hout⟩ := Option.bind_eq_some_iff.mp h
  cases hout
  exact ⟨names, hnames, rfl⟩

theorem diff_databases {all managed wanted : RoleMap}
    (h : diff cols o all managed wanted fallbackOwner dbs = some out) :
    out.2 = (drops (o.sub 2) (dropped (o.sub 3) all managed wanted) fallbackOwner dbs).2 := by
  obtain ⟨names, _, hout⟩ := Option.bind_eq_some_iff.mp h
  cases hout
  rfl

/-- `Diff` returns if the wanted memberships have no cycle. -/
theorem diff_total (cols : Columns) (o : Order) (all managed : RoleMap) {wanted : RoleMap}
    (fallbackOwner : String) (dbs : DBMap) (hw : KeyIsName wanted) (ha : Map.Acyclic wanted) :
    ∃ out, diff cols o all managed wanted fallbackOwner dbs = some out := by
  obtain ⟨names, hnames, _⟩ := flatten_spec hw ha (o.sub 0)
  exact ⟨_, by rw [diff, hnames]; rfl⟩

/-! ## What the queries can be -/

/-- The statements that create or alter the role `name`. -/
inductive UpsertStmt (name : String) : Stmt → Prop
  | hook (sql : String) : UpsertStmt name (.hook sql)
  | create (options : List Clause) (parents : List String) :
      UpsertStmt name (.create name options parents)
  | alterOptions (changes : List Clause) : UpsertStmt name (.alterOptions name changes)
  | grantParents (parents : List String) : UpsertStmt name (.grantParents parents name)
  | revokeParent (parent grantor : String) : UpsertStmt name (.revokeParent parent name grantor)
  | comment (text : String) : UpsertStmt name (.comment name text)
  | resetConfig (key : String) : UpsertStmt name (.resetConfig name key)
  | setConfig (key value : String) : UpsertStmt name (.setConfig name key value)
  | initConfig (key value : String) : UpsertStmt name (.initConfig name key value)

theorem mem_alterConfig {r wanted : Role} (h : q ∈ r.alterConfig o wanted) :
    q.database = "" ∧ UpsertStmt r.name q.stmt := by
  unfold Role.alterConfig at h
  split at h
  · cases h
  · rcases List.mem_append.mp h with h | h
    · obtain ⟨k, _, hk⟩ := List.mem_filterMap.mp h
      split at hk
      · cases hk; exact ⟨rfl, .resetConfig k⟩
      · split at hk
        · cases hk
        · cases hk; exact ⟨rfl, .setConfig k _⟩
    · obtain ⟨k, _, rfl⟩ := List.mem_map.mp h
      exact ⟨rfl, .setConfig k _⟩

theorem mem_alter {r wanted : Role} (h : q ∈ r.alter cols o wanted) :
    q.database = "" ∧ UpsertStmt r.name q.stmt := by
  unfold Role.alter at h
  simp only [List.mem_append] at h
  rcases h with (((h | h) | h) | h) | h
  · split at h
    · exact List.mem_singleton.mp h ▸ ⟨rfl, .alterOptions _⟩
    · cases h
  · split at h
    · exact List.mem_singleton.mp h ▸ ⟨rfl, .grantParents _⟩
    · cases h
  · obtain ⟨m, _, rfl⟩ := List.mem_map.mp h
    exact ⟨rfl, .revokeParent _ _⟩
  · split at h
    · exact List.mem_singleton.mp h ▸ ⟨rfl, .comment _⟩
    · cases h
  · exact mem_alterConfig h

theorem mem_create {r : Role} (h : q ∈ r.create cols o) :
    q.database = "" ∧ UpsertStmt r.name q.stmt := by
  unfold Role.create at h
  simp only [List.mem_append] at h
  rcases h with ((h | h) | h) | h
  · split at h
    · exact List.mem_singleton.mp h ▸ ⟨rfl, .hook _⟩
    · cases h
  · rcases List.mem_cons.mp h with rfl | h
    · exact ⟨rfl, .create _ _⟩
    · exact List.mem_singleton.mp h ▸ ⟨rfl, .comment _⟩
  · split at h
    · cases h
    · obtain ⟨k, _, rfl⟩ := List.mem_map.mp h
      exact ⟨rfl, .initConfig k _⟩
  · split at h
    · exact List.mem_singleton.mp h ▸ ⟨rfl, .hook _⟩
    · cases h

/-- A query that creates or alters runs in the default database, on the current
role or the wanted one under a flattened name. -/
theorem mem_upserts {all wanted : RoleMap} {names : List String}
    (h : q ∈ upserts cols o all wanted names) :
    q.database = "" ∧ ∃ name ∈ names, ∃ r,
      (all[name]? = some r ∨ all[name]? = none ∧ r = wanted[name]?.getD default) ∧
        UpsertStmt r.name q.stmt := by
  obtain ⟨ni, hni, h⟩ := List.mem_flatMap.mp h
  have hmem : ni.1 ∈ names := List.fst_mem_of_mem_zipIdx hni
  unfold upsert at h
  cases ha : all[ni.1]? with
  | some other =>
    simp only [ha] at h
    obtain ⟨hd, hs⟩ := mem_alter h
    exact ⟨hd, ni.1, hmem, other, .inl ha, hs⟩
  | none =>
    simp only [ha] at h
    obtain ⟨hd, hs⟩ := mem_create h
    exact ⟨hd, ni.1, hmem, _, .inr ⟨ha, rfl⟩, hs⟩

/-- The shapes of the queries that drop `r`, in the given databases. -/
inductive DropQuery (r : Role) (fallbackOwner : String) (databases : List String) : Query → Prop
  | terminate : r.options.canLogin = true → DropQuery r fallbackOwner databases
      { description := "Terminate running sessions.", database := "<first>",
        stmt := .terminate r.name }
  | alterDatabase {d : String} : d ∈ databases → DropQuery r fallbackOwner databases
      { description := "Reassign database.", stmt := .alterDatabase d fallbackOwner }
  | reassign {d : String} (owner : String) : d ∈ databases → DropQuery r fallbackOwner databases
      { description := "Reassign objects and purge ACL.", database := d,
        stmt := .reassignOwned r.name owner }
  | noLogin : DropQuery r fallbackOwner databases
      { description := "Drop LOGIN.", stmt := .noLogin r.name }
  | drop : DropQuery r fallbackOwner databases
      { description := "Drop role.", stmt := .drop r.name }

section Drops
variable {fallbackOwner : String} {dbs : DBMap} {databases : List String} {q : Query}

theorem dropIn_names (r : Role) (dbname k : String) :
    k ∈ (r.dropIn fallbackOwner dbs dbname).2.map ↔ k ∈ dbs.map := by
  unfold Role.dropIn
  split
  · exact Iff.rfl
  · split
    · exact DBMap.setOwner_mem dbs dbname fallbackOwner k
    · exact Iff.rfl

theorem mem_dropIn {r : Role} {dbname : String} (hd : dbname ∈ databases)
    (h : q ∈ (r.dropIn fallbackOwner dbs dbname).1) : DropQuery r fallbackOwner databases q := by
  unfold Role.dropIn at h
  split at h
  case h_1 => cases h
  case h_2 database hk =>
    have hname : database.name = dbname := dbs.key dbname database hk
    split at h
    · rw [hname] at h
      rcases List.mem_cons.mp h with rfl | h
      · exact .alterDatabase hd
      · exact List.mem_singleton.mp h ▸ .reassign _ hd
    · rw [hname] at h
      exact List.mem_singleton.mp h ▸ .reassign _ hd

/-- `Role.Drop` as a loop: what its queries are, and that it keeps the databases. -/
theorem drop_spec (o : Order) (r : Role) (hdbs : ∀ k, k ∈ dbs.map → k ∈ databases) :
    (∀ q ∈ (r.drop o fallbackOwner dbs).1, DropQuery r fallbackOwner databases q) ∧
      ∀ k, k ∈ (r.drop o fallbackOwner dbs).2.map ↔ k ∈ dbs.map := by
  have hturn : ∀ m : DBMap, ∀ dbname ∈ o.range dbs.names, (∀ k, k ∈ m.map ↔ k ∈ dbs.map) →
      (∀ q ∈ (r.dropIn fallbackOwner m dbname).1, DropQuery r fallbackOwner databases q) ∧
        ∀ k, k ∈ (r.dropIn fallbackOwner m dbname).2.map ↔ k ∈ dbs.map := by
    intro m dbname hmem hm
    have hd : dbname ∈ databases := hdbs dbname (DBMap.mem_names.mp (Order.mem_range.mp hmem))
    exact ⟨fun q hq => mem_dropIn hd hq, fun k => (dropIn_names r dbname k).trans (hm k)⟩
  obtain ⟨hq, hk⟩ := emit_inv _ (fun m : DBMap => ∀ k, k ∈ m.map ↔ k ∈ dbs.map) _ hturn
    (fun k => Iff.rfl)
  refine ⟨fun q hmem => ?_, hk⟩
  rcases List.mem_append.mp hmem with hmem | hmem
  · rcases List.mem_append.mp hmem with hmem | hmem
    · split at hmem
      · exact List.mem_singleton.mp hmem ▸ .terminate ‹_›
      · cases hmem
    · exact hq q hmem
  · rcases List.mem_cons.mp hmem with rfl | hmem
    · exact .noLogin
    · exact List.mem_singleton.mp hmem ▸ .drop

theorem mem_drops {roles : List Role} (h : q ∈ (drops o roles fallbackOwner dbs).1) :
    ∃ r ∈ roles, DropQuery r fallbackOwner dbs.names q := by
  refine (emit_inv _ (fun m => ∀ k, k ∈ m.map ↔ k ∈ dbs.map)
    (fun q => ∃ r ∈ roles, DropQuery r fallbackOwner dbs.names q) ?_ (fun k => Iff.rfl)).1 q h
  intro m ri hmem hm
  have hr : ri.1 ∈ roles := List.fst_mem_of_mem_zipIdx hmem
  obtain ⟨hq, hk⟩ := drop_spec (o.sub ri.2) ri.1 fun k hk => DBMap.mem_names.mpr ((hm k).mp hk)
  exact ⟨fun q hmem => ⟨ri.1, hr, hq q hmem⟩, fun k => (hk k).trans (hm k)⟩

/-- Dropping roles changes nothing of the databases but owners. -/
theorem drops_databases (o : Order) (roles : List Role) {I : DBMap → Prop}
    (hset : ∀ m dbname owner, I m → I (m.setOwner dbname owner)) (hdbs : I dbs) :
    I (drops o roles fallbackOwner dbs).2 := by
  refine (emit_inv _ I (fun _ => True) (fun m ri _ hm => ⟨fun _ _ => trivial, ?_⟩) hdbs).2
  refine (emit_inv _ I (fun _ => True) (fun m dbname _ hm => ⟨fun _ _ => trivial, ?_⟩) hm).2
  unfold Role.dropIn
  split
  · exact hm
  · split
    · exact hset m dbname fallbackOwner hm
    · exact hm

end Drops

/-! ## The roles that a stage touches -/

/-- The role that the statement creates, changes, drops or takes objects from. -/
def Stmt.subject : Stmt → Option String
  | .hook _ | .alterDatabase .. => none
  | .create role .. | .alterOptions role _ | .grantParents _ role | .revokeParent _ role _
  | .comment role _ | .resetConfig role _ | .setConfig role .. | .initConfig role ..
  | .terminate role | .reassignOwned role _ | .noLogin role | .drop role => some role

theorem UpsertStmt.subject {role : String} {s : Stmt} (h : UpsertStmt name s)
    (hs : s.subject = some role) : role = name := by
  cases h <;> cases hs <;> rfl

theorem DropQuery.subject {r : Role} {role : String} {databases : List String}
    (h : DropQuery r fallbackOwner databases q) (hs : q.stmt.subject = some role) :
    role = r.name := by
  cases h <;> cases hs <;> rfl

/-- The parents that the statement grants or revokes. -/
def Stmt.parents : Stmt → List String
  | .create _ _ parents | .grantParents parents _ => parents
  | .revokeParent parent _ _ => [parent]
  | _ => []

def Role.parentNames (r : Role) : List String := r.parents.map Membership.name

/-- The parents of a role of the map, none if it is not there. -/
def RoleMap.parentNames (m : RoleMap) (name : String) : List String :=
  (m[name]?.elim [] Role.parentNames)

/-- Some query names `p` as a parent. -/
def NamesParent (queries : List Query) (p : String) : Prop := ∃ q ∈ queries, p ∈ q.stmt.parents

theorem namesParent_append {l l' : List Query} :
    NamesParent (l ++ l') p ↔ NamesParent l p ∨ NamesParent l' p := by
  simp only [NamesParent, List.mem_append, or_and_right, exists_or]

theorem namesParent_alterConfig {r wanted : Role} : ¬ NamesParent (r.alterConfig o wanted) p := by
  intro ⟨q, hq, hp⟩
  unfold Role.alterConfig at hq
  split at hq
  · cases hq
  · rcases List.mem_append.mp hq with hq | hq
    · obtain ⟨k, _, hk⟩ := List.mem_filterMap.mp hq
      split at hk
      · cases hk; cases hp
      · split at hk
        · cases hk
        · cases hk; cases hp
    · obtain ⟨k, _, rfl⟩ := List.mem_map.mp hq
      cases hp

theorem namesParent_if {b : Prop} [Decidable b] :
    NamesParent (if b then [q] else []) p ↔ b ∧ p ∈ q.stmt.parents := by
  split <;> simp [NamesParent, *]

theorem mem_missingParents_names {r : Role} {parents : List Membership} :
    p ∈ (r.missingParents parents).map Membership.name ↔
      p ∈ parents.map Membership.name ∧ p ∉ r.parentNames := by
  simp only [List.mem_map, mem_missingParents, Role.parentNames]
  grind

/-- `Alter` grants the parents that are only wanted, and revokes those that are
only there. -/
theorem namesParent_alter {r wanted : Role} :
    NamesParent (r.alter cols o wanted) p ↔ ¬ (p ∈ wanted.parentNames ↔ p ∈ r.parentNames) := by
  have hgrant : (0 < (r.missingParents wanted.parents).length ∧
      p ∈ (r.missingParents wanted.parents).map Membership.name) ↔
        p ∈ wanted.parentNames ∧ p ∉ r.parentNames := by
    rw [mem_missingParents_names, and_iff_right_of_imp]
    · rfl
    · intro hp
      obtain ⟨m, hm, _⟩ := List.mem_map.mp (mem_missingParents_names.mpr hp)
      exact List.length_pos_of_mem hm
  have hrevoke : NamesParent ((wanted.missingParents r.parents).map fun m =>
      { description := "Revoke spurious parent.", stmt := .revokeParent m.name r.name m.grantor }) p ↔
        p ∈ r.parentNames ∧ p ∉ wanted.parentNames := by
    refine Iff.trans ?_ mem_missingParents_names
    simp [NamesParent, Stmt.parents, eq_comm]
  simp only [Role.alter, namesParent_append, namesParent_if, hrevoke, namesParent_alterConfig,
    Stmt.parents, List.not_mem_nil, and_false, false_or, or_false, gt_iff_lt, hgrant]
  tauto

theorem namesParent_create {r : Role} : NamesParent (r.create cols o) p ↔ p ∈ r.parentNames := by
  have hconfig : ¬ NamesParent (match r.config with
      | none => []
      | some config => (o.range config.keys).map fun k =>
        { description := "Set role config.", stmt := .initConfig r.name k (config[k]?.getD "") })
      p := by
    intro ⟨q, hq, hp⟩
    split at hq
    · cases hq
    · obtain ⟨k, _, rfl⟩ := List.mem_map.mp hq
      cases hp
  simp only [Role.create, namesParent_append, namesParent_if, hconfig, Stmt.parents,
    List.not_mem_nil, and_false, false_or, or_false]
  simp [NamesParent, Stmt.parents, Role.parentNames]

/-- The queries that create or alter name the parents that the two maps do not
both have. -/
theorem namesParent_upserts {all wanted : RoleMap} {names : List String} :
    NamesParent (upserts cols o all wanted names) p ↔ ∃ name ∈ names,
      ¬ (p ∈ (wanted[name]?.getD default).parentNames ↔ p ∈ all.parentNames name) := by
  have hone : ∀ o name, NamesParent (upsert cols o all wanted name) p ↔
      ¬ (p ∈ (wanted[name]?.getD default).parentNames ↔ p ∈ all.parentNames name) := by
    intro o name
    unfold upsert RoleMap.parentNames
    cases all[name]? with
    | some r => exact namesParent_alter
    | none => simp [namesParent_create]
  constructor
  · intro ⟨q, hq, hp⟩
    obtain ⟨ni, hni, hq⟩ := List.mem_flatMap.mp hq
    exact ⟨ni.1, List.fst_mem_of_mem_zipIdx hni, (hone _ _).mp ⟨q, hq, hp⟩⟩
  · intro ⟨name, hname, hp⟩
    obtain ⟨i, hi⟩ := exists_mem_zipIdx hname
    obtain ⟨q, hq, hp⟩ := (hone (o.sub i) name).mpr hp
    exact ⟨q, List.mem_flatMap.mpr ⟨(name, i), hi, hq⟩, hp⟩

theorem namesParent_diff {all managed wanted : RoleMap}
    (h : diff cols o all managed wanted fallbackOwner dbs = some out) (hw : KeyIsName wanted)
    (ha : Map.Acyclic wanted) :
    NamesParent out.1 p ↔ ∃ name role, wanted[name]? = some role ∧
      ¬ (p ∈ role.parentNames ↔ p ∈ all.parentNames name) := by
  obtain ⟨names, hnames, hout⟩ := diff_eq_some h
  obtain ⟨names', hnames', _, hmem⟩ := flatten_spec hw ha (o.sub 0)
  cases hnames.symm.trans hnames'
  have hdrops : ¬ NamesParent
      (drops (o.sub 2) (dropped (o.sub 3) all managed wanted) fallbackOwner dbs).1 p := by
    intro ⟨q, hq, hp⟩
    obtain ⟨r, _, hdrop⟩ := mem_drops hq
    cases hdrop <;> cases hp
  rw [hout, namesParent_append, or_iff_left hdrops, namesParent_upserts]
  constructor
  · intro ⟨name, hname, hp⟩
    obtain ⟨role, hrole⟩ := Dict.mem_iff.mp ((hmem name).mp hname)
    rw [hrole] at hp
    exact ⟨name, role, hrole, hp⟩
  · intro ⟨name, role, hrole, hp⟩
    refine ⟨name, (hmem name).mpr (Dict.mem_iff.mpr ⟨role, hrole⟩), ?_⟩
    rw [hrole]
    exact hp

section Stage
variable {cols : Columns} {o : Order} {all managed wanted : RoleMap} {fallbackOwner : String}
  {dbs : DBMap} {defaultDatabase : String} {queries : List Query}

/-- A statement of the stage creates or alters a wanted role, or drops one. -/
theorem mem_stage
    (h : stage cols o all managed wanted fallbackOwner dbs defaultDatabase = some queries)
    (hk : KeyIsName all) (hw : KeyIsName wanted) (ha : Map.Acyclic wanted) (hq : q ∈ queries) :
    (∃ name ∈ wanted, UpsertStmt name q.stmt) ∨
      ∃ r, Dropped all managed wanted r.name ∧ ∃ q₀, q₀.stmt = q.stmt ∧
        DropQuery r fallbackOwner dbs.names q₀ := by
  obtain ⟨out, hdiff, hgroup⟩ := stage_eq_some h
  obtain ⟨names, hnames, hout⟩ := diff_eq_some hdiff
  obtain ⟨hq, _⟩ := (mem_groupByDatabase hgroup).mp hq
  obtain ⟨q₀, hq₀, rfl⟩ := List.mem_map.mp hq
  rw [hout] at hq₀
  rcases List.mem_append.mp hq₀ with hq₀ | hq₀
  · left
    obtain ⟨_, name, hname, r, hr, hs⟩ := mem_upserts hq₀
    obtain ⟨names', hnames', _, hmem⟩ := flatten_spec hw ha (o.sub 0)
    cases hnames.symm.trans hnames'
    have hin : name ∈ wanted := (hmem name).mp hname
    refine ⟨name, hin, ?_⟩
    rcases hr with hr | ⟨_, rfl⟩
    · exact hk name r hr ▸ hs
    · obtain ⟨w, hget⟩ := Dict.mem_iff.mp hin
      rw [hget, Option.getD_some, hw name w hget] at hs
      exact hs
  · right
    obtain ⟨r, hr, hdrop⟩ := mem_drops hq₀
    exact ⟨r, (mem_dropped_names hk).mp (List.mem_map_of_mem hr), q₀, rfl, hdrop⟩

theorem subject_mem_stage
    (h : stage cols o all managed wanted fallbackOwner dbs defaultDatabase = some queries)
    (hk : KeyIsName all) (hw : KeyIsName wanted) (ha : Map.Acyclic wanted) (hq : q ∈ queries)
    (hs : q.stmt.subject = some name) : name ∈ wanted ∨ Dropped all managed wanted name := by
  rcases mem_stage h hk hw ha hq with ⟨name', hin, hups⟩ | ⟨r, hr, q₀, hq₀, hdrop⟩
  · exact .inl (hups.subject hs ▸ hin)
  · rw [← hq₀] at hs
    exact .inr (hdrop.subject hs ▸ hr)

theorem drop_mem_of_dropped
    (h : stage cols o all managed wanted fallbackOwner dbs defaultDatabase = some queries)
    (hk : KeyIsName all) (hd : defaultDatabase ∈ dbs.map)
    (hdropped : Dropped all managed wanted name) : .drop name ∈ queries.map SyncQuery.stmt := by
  obtain ⟨out, hdiff, hgroup⟩ := stage_eq_some h
  obtain ⟨names, _, hout⟩ := diff_eq_some hdiff
  obtain ⟨r, hr, rfl⟩ := List.mem_map.mp ((mem_dropped_names (o := o.sub 3) hk).mpr hdropped)
  obtain ⟨i, hri⟩ := exists_mem_zipIdx hr
  obtain ⟨dbs', hturn⟩ := emit_turn
    (fun dbs (ri : Role × Nat) => ri.1.drop ((o.sub 2).sub ri.2) fallbackOwner dbs) hri dbs
  have hlast : { description := "Drop role.", stmt := .drop r.name } ∈ out.1 := by
    rw [hout]
    exact List.mem_append_right _ (hturn _ (List.mem_append_right _ (by simp)))
  refine List.mem_map.mpr ⟨_, (mem_groupByDatabase hgroup).mpr
    ⟨List.mem_map_of_mem hlast, ?_⟩, rfl⟩
  simpa [SyncQuery.resolved] using hd

/-- A role is dropped by the stage exactly when it is `Dropped`. -/
theorem drop_mem_stage
    (h : stage cols o all managed wanted fallbackOwner dbs defaultDatabase = some queries)
    (hk : KeyIsName all) (hw : KeyIsName wanted) (ha : Map.Acyclic wanted)
    (hd : defaultDatabase ∈ dbs.map) :
    .drop name ∈ queries.map SyncQuery.stmt ↔ Dropped all managed wanted name := by
  constructor
  · intro hmem
    obtain ⟨q, hq, hs⟩ := List.mem_map.mp hmem
    rcases mem_stage h hk hw ha hq with ⟨name', hin, hups⟩ | ⟨r, hr, q₀, hq₀, hdrop⟩
    · rw [hs] at hups
      cases hups
    · rw [← hq₀] at hs
      cases hdrop <;> cases hs
      exact hr
  · exact drop_mem_of_dropped h hk hd

end Stage

end Ldap2pg.Roles
