import Ldap2pg.Cmd.Once
import Ldap2pg.Cmd.Safety
import Ldap2pg.Postgres.Connection
import Ldap2pg.Roles.Pipeline

/-! # The connections of a run

Opening a connection is what costs most in a run, and there is only one at a time. The
role stage is grouped by database for that reason, with the default one last, and the
loop over databases starts with the default one to use the connection again. Grants are
not grouped: the statements on an ACL of the instance go where their own databases say. -/
namespace Ldap2pg.Cmd.Connections
open Lib Lib.Groups Postgres Postgres.Apply
open Postgres.Connection
open Roles.Hooks (Statement statement)

variable {database : Database}

/-- Every connection and every statement succeeds. -/
def willing : Network where
  connect _ _ := .ok Roles.Hooks.Sample.conn
  exec _ _ := none

/-- A connection to the database, opened in the beginning. -/
def connectedTo (d : String) : Global := ⟨some (d, Roles.Hooks.Sample.conn), [.opened d]⟩

def twoDatabases : DBMap :=
  .ofRows [⟨"app", "postgres"⟩, ⟨"postgres", "postgres"⟩]

/-! ## The role stage -/

section Roles
open Roles Roles.Pipeline

variable {cols : Columns} {o : Order} {all managed wanted : RoleMap} {fallbackOwner : String}
  {dbs : DBMap} {defaultDatabase : String} {queries : List Roles.Query}

theorem drop_mem_drops {r : Role} {roles : List Role} (hr : r ∈ roles) (o : Order)
    (fallbackOwner : String) (dbs : DBMap) :
    { description := "Drop role.", stmt := .drop r.name } ∈ (drops o roles fallbackOwner dbs).1 := by
  obtain ⟨i, hi⟩ := exists_mem_zipIdx hr
  refine mem_emit hi fun dbs => ?_
  exact List.mem_append_right _ (List.mem_cons_of_mem _ (List.mem_singleton.mpr rfl))

/-- A stage that has a query has one for the default database. -/
theorem default_of_stage
    (h : stage cols o all managed wanted fallbackOwner dbs defaultDatabase = some queries)
    (hd : defaultDatabase ∈ dbs.map) (hne : queries ≠ []) :
    ∃ q ∈ queries, q.database = defaultDatabase := by
  obtain ⟨out, hdiff, hgroup⟩ := stage_eq_some h
  obtain ⟨names, _, hout⟩ := diff_eq_some hdiff
  -- a query without a database goes to the default one
  have hdefault : ∀ q ∈ out.1, q.database = "" → ∃ q ∈ queries, q.database = defaultDatabase := by
    intro q hq hempty
    refine ⟨q.resolved defaultDatabase ((syncOrder dbs.map defaultDatabase false).headD ""),
      (mem_groupByDatabase hgroup).mpr ⟨List.mem_map_of_mem hq, ?_⟩, ?_⟩
    · simpa [SyncQuery.resolved, hempty] using hd
    · simp [SyncQuery.resolved, hempty]
  obtain ⟨q, rest, rfl⟩ := List.exists_cons_of_ne_nil hne
  obtain ⟨q₀, hq₀, _⟩ := List.mem_map.mp ((mem_groupByDatabase hgroup).mp List.mem_cons_self).1
  have hq₀' := hq₀
  rw [hout] at hq₀'
  rcases List.mem_append.mp hq₀' with hup | hdrop
  · exact hdefault q₀ hq₀ (mem_upserts hup).1
  · obtain ⟨r, hr, _⟩ := mem_drops hdrop
    refine hdefault { description := "Drop role.", stmt := .drop r.name } ?_ rfl
    rw [hout]
    exact List.mem_append_right _ (drop_mem_drops hr _ _ _)

/-- The default database is last. -/
theorem last_of_stage
    (h : stage cols o all managed wanted fallbackOwner dbs defaultDatabase = some queries)
    (hd : defaultDatabase ∈ dbs.map) :
    (queries.map SyncQuery.database).getLast?.or (some defaultDatabase) = some defaultDatabase := by
  obtain ⟨out, _, hgroup⟩ := stage_eq_some h
  cases hlast : (queries.map SyncQuery.database).getLast? with
  | none => rfl
  | some d =>
    have hne : queries ≠ [] := by
      rintro rfl
      cases hlast
    obtain ⟨q, hq, hqd⟩ := default_of_stage h hd hne
    obtain ⟨hresolved, _⟩ := (mem_groupByDatabase hgroup).mp hq
    rw [groupByDatabase_eq hgroup, syncOrder_last hd, grouped, List.flatMap_append, List.map_append,
      List.getLast?_append_of_ne_nil] at hlast
    · obtain ⟨q', hq', rfl⟩ := List.mem_map.mp (List.mem_of_getLast? hlast)
      rw [List.flatMap_singleton] at hq'
      exact congrArg some (of_decide_eq_true (List.mem_filter.mp hq').2)
    · rw [List.flatMap_singleton]
      exact List.ne_nil_of_mem (List.mem_map_of_mem
        (List.mem_filter.mpr ⟨hresolved, decide_eq_true hqd⟩))

/-- The other databases with something to do, in order. -/
def others (dbs : DBMap) (defaultDatabase : String) (queries : List Roles.Query) : List String :=
  occurring SyncQuery.database (dbs.names.filter (· ≠ defaultDatabase)) queries

theorem switches_stage
    (h : stage cols o all managed wanted fallbackOwner dbs defaultDatabase = some queries)
    (hd : defaultDatabase ∈ dbs.map) :
    switches (some defaultDatabase) (queries.map SyncQuery.database) =
      if others dbs defaultDatabase queries = [] then []
      else others dbs defaultDatabase queries ++ [defaultDatabase] := by
  obtain ⟨out, _, hgroup⟩ := stage_eq_some h
  have hgrouped := groupByDatabase_eq hgroup
  have hnodup : (occurring SyncQuery.database (syncOrder dbs.map defaultDatabase false) queries).Nodup :=
    (nodup_syncOrder dbs.map defaultDatabase false).filter _
  have hoccurring : occurring SyncQuery.database (syncOrder dbs.map defaultDatabase false)
      (resolvedIn dbs.map defaultDatabase out.1) =
      occurring SyncQuery.database (syncOrder dbs.map defaultDatabase false) queries := by
    refine List.filter_congr fun d hin => ?_
    rw [Bool.eq_iff_iff, List.any_eq_true, List.any_eq_true]
    constructor
    · intro ⟨q, hq, hqd⟩
      have hmanaged : q.database ∈ dbs.map := of_decide_eq_true hqd ▸ mem_syncOrder.mp hin
      exact ⟨q, (mem_groupByDatabase hgroup).mpr ⟨hq, hmanaged⟩, hqd⟩
    · intro ⟨q, hq, hqd⟩
      exact ⟨q, ((mem_groupByDatabase hgroup).mp hq).1, hqd⟩
  have hswitches : switches (some defaultDatabase) (queries.map SyncQuery.database) =
      switches (some defaultDatabase)
        (occurring SyncQuery.database (syncOrder dbs.map defaultDatabase false) queries) := by
    rw [← hoccurring]
    conv_lhs => rw [hgrouped]
    exact switches_grouped (nodup_syncOrder dbs.map defaultDatabase false) _
  rw [hswitches]
  by_cases hne : queries = []
  · subst hne
    simp [occurring, others, switches]
  · have hlast : occurring SyncQuery.database (syncOrder dbs.map defaultDatabase false) queries =
        others dbs defaultDatabase queries ++ [defaultDatabase] := by
      obtain ⟨q, hq, hqd⟩ := default_of_stage h hd hne
      have hany : (queries.any fun q => q.database = defaultDatabase) = true :=
        List.any_eq_true.mpr ⟨q, hq, decide_eq_true hqd⟩
      rw [syncOrder_last hd, occurring, List.filter_append, others, occurring]
      simp [hany, DBMap.names]
    rw [hlast] at hnodup ⊢
    rw [switches_nodup hnodup]
    cases hothers : others dbs defaultDatabase queries with
    | nil => simp
    | cons d rest =>
      have hdefault : d ≠ defaultDatabase := by
        have hin : d ∈ others dbs defaultDatabase queries := hothers ▸ List.mem_cons_self
        simpa using (List.mem_filter.mp (mem_occurring.mp hin).1).2
      simp [hdefault.symm]

/-- **The connections of the role stage.** From a connection to the default database, a stage that
goes through all its queries opens one connection to each other database that has some, and a last
one to the default database if there was any other. It ends where it started, so that the loop over
databases, which starts with the default one, opens none. -/
theorem role_stage_connections
    (h : stage cols o all managed wanted fallbackOwner dbs defaultDatabase = some queries)
    (hd : defaultDatabase ∈ dbs.map) (hnamed : "" ∉ dbs.map) {net : Network} {conf : String}
    {g : Global} (hg : g.database = some defaultDatabase) {really : Bool}
    (hreached : ∀ message,
      (apply net conf g (queries.map statement) really).2.err ≠ some (.connection message))
    (hcount : (apply net conf g (queries.map statement) really).2.count = queries.length) :
    opens (apply net conf g (queries.map statement) really).1.log = opens g.log ++
      (if others dbs defaultDatabase queries = [] then []
        else others dbs defaultDatabase queries ++ [defaultDatabase]) ∧
    (apply net conf g (queries.map statement) really).1.database = some defaultDatabase ∧
    ∀ sql, opens ((Op.query defaultDatabase sql).run net conf
      (apply net conf g (queries.map statement) really).1).log =
        opens (apply net conf g (queries.map statement) really).1.log := by
  have hmanaged : ∀ q ∈ queries, q.database ∈ dbs.map := by
    obtain ⟨out, _, hgroup⟩ := stage_eq_some h
    exact fun q hq => ((mem_groupByDatabase hgroup).mp hq).2
  have hrequests : requests conf (queries.map statement) = queries.map SyncQuery.database := by
    rw [requests, List.map_map]
    refine List.map_congr_left fun q hq => ?_
    have hq' : q.database ≠ "" := ne_of_mem_of_not_mem (hmanaged q hq) hnamed
    exact if_neg hq'
  obtain ⟨hopens, hlast⟩ := (applied net conf really (queries.map statement) g {}).complete hreached
    (by rw [List.length_map]; exact hcount.trans (Nat.zero_add _).symm)
  rw [hrequests, hg] at hopens hlast
  rw [switches_stage h hd] at hopens
  rw [last_of_stage h hd] at hlast
  change (apply net conf g (queries.map statement) really).1.database = _ at hlast
  refine ⟨hopens, hlast, fun sql => ?_⟩
  have hdefault : requested conf defaultDatabase = defaultDatabase :=
    if_neg (ne_of_mem_of_not_mem hd hnamed)
  obtain ⟨conn, hget⟩ := getConn_same net hlast hdefault
  rw [Op.run, hget]
  exact opens_ran sql

/-- `bob` is dropped, in two databases. -/
theorem bob_connections : ∃ queries,
    stage (fun _ => true) Order.sorted (RoleMap.ofRoles [{ name := "bob" }])
      (RoleMap.ofRoles [{ name := "bob" }]) ∅ "postgres" twoDatabases "postgres" = some queries ∧
    opens (apply willing "postgres" (connectedTo "postgres") (queries.map statement) false).1.log =
      ["postgres", "app", "postgres"] := by
  obtain ⟨queries, hqueries, hothers, herr, hcount⟩ : ∃ queries,
      stage (fun _ => true) Order.sorted (RoleMap.ofRoles [{ name := "bob" }])
        (RoleMap.ofRoles [{ name := "bob" }]) ∅ "postgres" twoDatabases "postgres" = some queries ∧
      others twoDatabases "postgres" queries = ["app"] ∧
      (apply willing "postgres" (connectedTo "postgres") (queries.map statement) false).2.err = none ∧
      (apply willing "postgres" (connectedTo "postgres") (queries.map statement) false).2.count =
        queries.length := ⟨_, rfl, by decide, rfl, rfl⟩
  have h := (role_stage_connections hqueries (by decide) (by decide) rfl
    (fun _ he => by rw [herr] at he; cases he) hcount).1
  rw [hothers] at h
  exact ⟨queries, hqueries, h⟩

end Roles

/-! ## `Sync` -/

section Sync
open Privileges

variable {reg : Registry} {dbs : DBMap} {o : Order} {dbname acl : String} {roles : List String}
  {current wanted : List Grant} {queries : List (SyncQuery Privileges.Stmt)}

/-- The query as `Apply` gets it, whatever its text. -/
def formatted (text : Privileges.Stmt → Statement) (q : SyncQuery Privileges.Stmt) :
    SyncQuery Statement :=
  { description := q.description, database := q.database, stmt := text q.stmt }

/-- The rows of the ACL do not name databases. -/
def Local (a : ACL) : Prop :=
  a.scope ≠ "instance" ∧ (a.uses "object" = true ∨ a.uses "database" = false)

theorem scan_database {a : ACL} {row : Row} {g : Grant} (h : a.scan row = .ok g) :
    g.database = "" := by
  unfold ACL.scan rowToGlobalDefaultGrant rowToSchemaDefaultGrant rowToInstanceGrant
    rowToDatabaseGrant at h
  split at h
  · cases row <;> cases h; rfl
  · split at h
    · cases row <;> cases h; rfl
    · split at h
      · cases row <;> cases h; rfl
      · split at h
        · cases row <;> cases h; rfl
        · cases h

theorem rowTo_database {a : ACL} (ha : Local a) {row : Row} {g : Grant} (h : a.rowTo row = .ok g) :
    g.database = "" := by
  obtain ⟨g₀, hscan, h⟩ := bind_eq_ok.mp h
  have hdb : (if g₀.acl = "" then { g₀ with acl := a.name } else g₀).database = "" := by
    have hempty := scan_database hscan
    split <;> exact hempty
  cases h
  generalize (if g₀.acl = "" then { g₀ with acl := a.name } else g₀) = g₁ at hdb
  unfold ACL.place
  split
  · exact hdb
  case isFalse hobject =>
    rw [if_neg (by simp [ha.2.resolve_left hobject])]
    split
    · exact hdb
    · exact hdb

/-- What `Inspect` reports is in the database that is synchronised. -/
theorem current_database (ha : Local (reg.acl acl)) {rows : Except String (List Row)}
    (h : inspect reg dbs database acl roles rows = .ok current) :
    ∀ g ∈ current, g.database = database.name := by
  intro g hg
  obtain ⟨_, _, row, _, scanned, hrow, hreport⟩ := (mem_inspect h).mp hg
  have hempty := rowTo_database ha hrow
  obtain ⟨hiter, _⟩ := Option.filter_eq_some_iff.mp hreport
  unfold iterGrant at hiter
  rw [if_neg fun hn => hn.1 hempty] at hiter
  split at hiter
  · cases hiter
  · cases hiter
    rw [ACL.assign, if_pos ⟨hempty, ha.1⟩]

theorem sync_database (ha : Local (reg.acl acl)) (hin : dbname ∈ dbs.map)
    {rows : Except String (List Row)}
    (hcurrent : inspect reg dbs (databaseOf dbs dbname) acl roles rows = .ok current)
    (hacl : ∀ g ∈ wanted, g.acl = acl)
    (hsync : sync reg dbs o dbname current wanted = .ok queries) :
    ∀ q ∈ queries, q.database = dbname := by
  obtain ⟨expanded, hexpand, h⟩ := bind_eq_ok.mp hsync
  cases h
  have hname := Once.databaseOf_name hin
  intro q hq
  rcases List.mem_append.mp hq with hq | hq
  · obtain ⟨g, hg, rfl⟩ := List.mem_map.mp hq
    exact (current_database ha hcurrent g (List.mem_filter.mp hg).1).trans hname
  · obtain ⟨e, he, rfl⟩ := List.mem_map.mp hq
    obtain ⟨g, hg, hx⟩ := (mem_expand hexpand).mp (List.mem_filter.mp he).1
    refine (hx.database_eq ?_).trans hname
    rw [Registry.instanceWide, hacl g hg]
    simpa using ha.1

/-- **`Sync` stays in its database**, unless the ACL is one of the instance or names databases: all
queries are for this database and, from the connection that inspected, no other one is opened. -/
theorem sync_stays_connected (ha : Local (reg.acl acl)) (hin : dbname ∈ dbs.map) (hnamed : dbname ≠ "")
    {rows : Except String (List Row)}
    (hcurrent : inspect reg dbs (databaseOf dbs dbname) acl roles rows = .ok current)
    (hacl : ∀ g ∈ wanted, g.acl = acl)
    (hsync : sync reg dbs o dbname current wanted = .ok queries)
    (text : Privileges.Stmt → Statement) {net : Network} {conf : String} {g : Global}
    (hg : g.database = some dbname) (really : Bool) :
    (∀ q ∈ queries, q.database = dbname) ∧
      opens (apply net conf g (queries.map (formatted text)) really).1.log = opens g.log := by
  have hqueries := sync_database ha hin hcurrent hacl hsync
  refine ⟨hqueries, ?_⟩
  have hrequests : ∀ d ∈ requests conf (queries.map (formatted text)), d = dbname := by
    intro d hd
    obtain ⟨q', hq', rfl⟩ := List.mem_map.mp hd
    obtain ⟨q, hq, rfl⟩ := List.mem_map.mp hq'
    have hdb : (formatted text q).database = dbname := hqueries q hq
    rw [hdb]
    exact if_neg hnamed
  obtain ⟨l, hl, hinit⟩ := (applied net conf really (queries.map (formatted text)) g {}).connections
  rw [hg, switches_same hrequests, List.prefix_nil] at hinit
  rw [hinit, List.append_nil] at hl
  exact hl

/-- The tables of a schema, in one database. -/
theorem tables_stay_connected : ∃ current queries,
    inspect (Sample.registry "SELECT" Converge.tables.name) Sample.onlyApp
      (databaseOf Sample.onlyApp "app") Converge.tables.name ["alice", "bob"]
      (.ok Converge.someTables.rows) = .ok current ∧
    sync (Sample.registry "SELECT" Converge.tables.name) Sample.onlyApp Order.sorted "app" current
      [Sample.wanted "SELECT" Converge.tables.name "__all__"] = .ok queries ∧
    (∀ q ∈ queries, q.database = "app") ∧
    opens (apply willing "app" (connectedTo "app") (queries.map (formatted fun _ => ⟨"", []⟩))
      true).1.log = ["app"] := by
  obtain ⟨current, queries, hcurrent, hsync⟩ : ∃ current queries,
      inspect (Sample.registry "SELECT" Converge.tables.name) Sample.onlyApp
        (databaseOf Sample.onlyApp "app") Converge.tables.name ["alice", "bob"]
        (.ok Converge.someTables.rows) = .ok current ∧
      sync (Sample.registry "SELECT" Converge.tables.name) Sample.onlyApp Order.sorted "app" current
        [Sample.wanted "SELECT" Converge.tables.name "__all__"] = .ok queries := ⟨_, _, rfl, rfl⟩
  have hlocal : Local ((Sample.registry "SELECT" Converge.tables.name).acl Converge.tables.name) :=
    ⟨by decide, .inr (by decide)⟩
  exact ⟨current, queries, hcurrent, hsync, sync_stays_connected hlocal (by decide) (by decide) hcurrent
    (fun g hg => by rw [List.mem_singleton.mp hg]; rfl) hsync _ rfl true⟩

/-- The grant is on all databases, under an ACL of the instance. -/
structure Everywhere (reg : Registry) (g : Grant) : Prop where
  database : g.database = "__all__"
  instanceWide : reg.instanceWide g = true
  schema : g.schema ≠ "__all__"
  owner : g.owner ≠ "__auto__"

/-- None of the grants it stands for is there, nor is it marked as irrelevant. -/
def Missing (dbs : DBMap) (current : List Grant) (g : Grant) : Prop :=
  ∀ d ∈ dbs.map, { g with database := d } ∉ current ∧
    { g with database := d, grantee := "public", type := "" } ∉ current

theorem Everywhere.expands {g e : Grant} (h : Everywhere reg g) :
    Expands reg dbs database g e ↔ ∃ d ∈ dbs.map, e = { g with database := d } := by
  constructor
  · intro he
    have hin := he.inDatabase
    have hschema := he.inSchema
    have howner := he.byOwner
    rw [if_pos h.database] at hin
    rw [if_neg h.schema] at hschema
    rw [if_neg h.owner] at howner
    refine ⟨e.database, hin.1, ?_⟩
    conv_lhs => rw [he.same, hschema, howner]
  · rintro ⟨d, hd, rfl⟩
    refine ⟨rfl, ?_, ?_, ?_⟩
    · rw [if_pos h.database]
      exact ⟨hd, .inr h.instanceWide⟩
    · rw [if_neg h.schema]
    · rw [if_neg h.owner]

/-- What `diff` grants. -/
def lacks (current : List Grant) (e : Grant) : Bool :=
  !current.contains e && !current.contains { e with grantee := "public", type := "" }

/-- The revokes come first. -/
theorem requests_diff (conf : String) (text : Privileges.Stmt → Statement) (current wanted : List Grant) :
    ∃ revoked, requests conf ((diff current wanted).map (formatted text)) = revoked ++
      (wanted.filter (lacks current)).map fun e => requested conf e.database := by
  rw [requests, diff, List.map_append, List.map_append, List.map_map, List.map_map, List.map_map,
    List.map_map]
  exact ⟨_, rfl⟩

/-- The expansions of a missing grant have each database once, and all are granted. -/
theorem databases_everywhere {g : Grant} {part : List Grant} (h : Everywhere reg g)
    (hmissing : Missing dbs current g) (hnodup : part.Nodup)
    (hpart : ∀ e, e ∈ part ↔ Expands reg dbs database g e) :
    part.filter (lacks current) = part ∧ (part.map Grant.database).Perm dbs.names := by
  have hmem : ∀ e ∈ part, ∃ d ∈ dbs.map, e = { g with database := d } :=
    fun e he => h.expands.mp ((hpart e).mp he)
  constructor
  · refine List.filter_eq_self.mpr fun e he => ?_
    obtain ⟨d, hd, rfl⟩ := hmem e he
    simpa [lacks] using hmissing d hd
  · have hinj : ∀ e ∈ part, ∀ e' ∈ part, e.database = e'.database → e = e' := by
      intro e he e' he' hdb
      obtain ⟨d, _, rfl⟩ := hmem e he
      obtain ⟨d', _, rfl⟩ := hmem e' he'
      rw [show d = d' from hdb]
    refine (List.perm_ext_iff_of_nodup (hnodup.map_on hinj) dbs.nodup_names).mpr fun d => ?_
    rw [DBMap.mem_names, List.mem_map]
    refine ⟨fun ⟨e, he, hd⟩ => ?_, fun hd => ⟨{ g with database := d }, ?_, rfl⟩⟩
    · obtain ⟨d', hd', rfl⟩ := hmem e he
      exact hd ▸ hd'
    · exact (hpart _).mpr (h.expands.mpr ⟨d, hd, rfl⟩)

/-- **Grants on all databases take a connection for each statement.** When `n` of the wanted grants
are on all of `m` databases and missing, a `Sync` that goes through all its queries opens at least
`n * (m - 1)` connections, where one for each database would do. -/
theorem instance_grants_switch (missing : Grant → Bool) (hnamed : "" ∉ dbs.map)
    (hmissing : ∀ g ∈ wanted, missing g = true → Everywhere reg g ∧ Missing dbs current g)
    (hsync : sync reg dbs o dbname current wanted = .ok queries) (text : Privileges.Stmt → Statement)
    {net : Network} {conf : String} {g : Global} {really : Bool}
    (hreached : ∀ message,
      (apply net conf g (queries.map (formatted text)) really).2.err ≠ some (.connection message))
    (hcount : (apply net conf g (queries.map (formatted text)) really).2.count = queries.length) :
    (opens g.log).length + wanted.countP missing * (dbs.names.length - 1) ≤
      (opens (apply net conf g (queries.map (formatted text)) really).1.log).length := by
  obtain ⟨expanded, hexpand, rfl⟩ := sync_eq_ok hsync
  obtain ⟨parts, hparts, rfl⟩ := expand_parts hexpand
  obtain ⟨revoked, hrequests⟩ := requests_diff conf text current parts.flatten
  -- the grants of each part follow one another
  rw [List.filter_flatten, List.map_flatten] at hrequests
  have hblocks : List.Forall₂ (fun g block => missing g = true →
      block.Nodup ∧ block.length = dbs.names.length) wanted
      ((parts.map (List.filter (lacks current))).map
        (List.map fun e => requested conf e.database)) := by
    rw [List.forall₂_map_right_iff, List.forall₂_map_right_iff]
    refine ((List.forall₂_and_left _ _).mpr ⟨hmissing, hparts⟩).imp ?_
    rintro g part ⟨hg, hnodup, hpart⟩ hg'
    obtain ⟨heverywhere, hnone⟩ := hg hg'
    obtain ⟨hfilter, hperm⟩ := databases_everywhere heverywhere hnone hnodup hpart
    have hplain : (part.map fun e => requested conf e.database) = part.map Grant.database := by
      refine List.map_congr_left fun e he => if_neg (ne_of_mem_of_not_mem ?_ hnamed)
      exact DBMap.mem_names.mp (hperm.mem_iff.mp (List.mem_map_of_mem he))
    rw [hfilter, hplain]
    exact ⟨hperm.nodup_iff.mpr dbs.nodup_names, hperm.length_eq⟩
  obtain ⟨hopens, _⟩ := (applied net conf really _ g {}).complete hreached
    (by rw [List.length_map]; exact hcount.trans (Nat.zero_add _).symm)
  change opens (apply net conf g _ really).1.log = _ at hopens
  rw [hopens, hrequests, List.length_append, switches_append, List.length_append]
  have hswitches := mul_le_switches hblocks (revoked.getLast?.or g.database)
  omega

/-- Two roles may connect to two databases, and a third one no longer. -/
theorem connect_switches : ∃ queries,
    sync (Sample.registry "CONNECT" "DATABASE") twoDatabases Order.sorted "postgres"
      [{ Sample.wanted "CONNECT" "DATABASE" "" with grantee := "eve", database := "app" }]
      [Sample.wanted "CONNECT" "DATABASE" "",
        { Sample.wanted "CONNECT" "DATABASE" "" with grantee := "bob" }] = .ok queries ∧
    1 + 2 * 1 ≤ (opens (apply willing "postgres" (connectedTo "postgres")
      (queries.map (formatted fun _ => ⟨"", []⟩)) false).1.log).length := by
  obtain ⟨queries, hsync, herr, hcount⟩ : ∃ queries,
      sync (Sample.registry "CONNECT" "DATABASE") twoDatabases Order.sorted "postgres"
        [{ Sample.wanted "CONNECT" "DATABASE" "" with grantee := "eve", database := "app" }]
        [Sample.wanted "CONNECT" "DATABASE" "",
          { Sample.wanted "CONNECT" "DATABASE" "" with grantee := "bob" }] = .ok queries ∧
      (apply willing "postgres" (connectedTo "postgres")
        (queries.map (formatted fun _ => ⟨"", []⟩)) false).2.err = none ∧
      (apply willing "postgres" (connectedTo "postgres")
        (queries.map (formatted fun _ => ⟨"", []⟩)) false).2.count = queries.length :=
    ⟨_, rfl, rfl, rfl⟩
  refine ⟨queries, hsync, instance_grants_switch (fun _ => true) (by decide)
    (fun g hg _ => ?_) hsync _ (fun _ he => by rw [herr] at he; cases he) hcount⟩
  rcases List.mem_cons.mp hg with rfl | hg
  · refine ⟨⟨rfl, rfl, by decide, by decide⟩, fun d _ => ?_⟩
    simp [Sample.wanted]
  · rw [List.mem_singleton.mp hg]
    refine ⟨⟨rfl, rfl, by decide, by decide⟩, fun d _ => ?_⟩
    simp [Sample.wanted]

end Sync

end Ldap2pg.Cmd.Connections
