import Ldap2pg.Privileges.Builtin

/-! # Grants outside of what `Inspect` looks at

`Expand` replaces `__all__` and `__auto__` by what is managed, and keeps any
other name as it is. A name that is not managed passes into a `GRANT` that the
next inspection does not see. -/
namespace Ldap2pg.Privileges.Scope
open Lib Pyfmt Postgres

variable {reg : Registry} {dbs : DBMap} {o : Order} {database : Database} {roles : List String}

/-- The grant of a rule with an owner of its own gives at least one grant in the
database. -/
def Lands (reg : Registry) (database : Database) (g : Grant) : Prop :=
  (g.database = "__all__" ∨ reg.instanceWide g = true ∨ g.database = database.name) ∧
    (g.schema = "__all__" → database.schemas ≠ ∅)

/-- The names that the grant of a rule spells out are managed, unless it gives no
grant in the database. Creators are looked up, and are managed. -/
def Confined (reg : Registry) (roles : List String) (dbs : DBMap) (database : Database)
    (g : Grant) : Prop :=
  g.owner ≠ "__auto__" → Lands reg database g →
    (g.owner = "" ∨ g.owner ∈ roles) ∧
    (g.schema = "" ∨ g.schema = "__all__" ∨ g.schema ∈ database.schemas) ∧
    (g.database = "" ∨ g.database = "__all__" ∨ g.database ∈ dbs.map)

/-- `InspectCreators` keeps managed roles only. -/
def ManagedCreators (roles : List String) (database : Database) : Prop :=
  ∀ (name : String) (s : Schema), database.schemas[name]? = some s → ∀ c ∈ s.creators, c ∈ roles

theorem creators_managed (h : ManagedCreators roles database) {schema c : String}
    (hc : c ∈ creators database schema) : c ∈ roles := by
  have hone : ∀ name : String, c ∈ (database.schemas[name]?.map Schema.creators).getD [] → c ∈ roles := by
    intro name hmem
    cases hs : database.schemas[name]? with
    | none => rw [hs] at hmem; cases hmem
    | some s => rw [hs] at hmem; exact h name s hs c hmem
  unfold creators at hc
  split at hc
  · obtain ⟨name, _, hname⟩ := List.mem_flatMap.mp hc
    exact hone name hname
  · exact hone schema hc

/-- Only a schema of the database has creators. -/
theorem schema_of_creator {schema c : String} (hc : c ∈ creators database schema) :
    schema = "" ∨ schema ∈ database.schemas := by
  unfold creators at hc
  split at hc
  case isTrue he => exact .inl he
  case isFalse =>
    right
    cases hs : database.schemas[schema]? with
    | none => rw [hs] at hc; cases hc
    | some s => exact Dict.mem_iff.mpr ⟨s, hs⟩

theorem lands_of_expands {g e : Grant} (hx : Expands reg dbs database g e) :
    Lands reg database g := by
  refine ⟨?_, fun hall hempty => ?_⟩
  · by_cases hall : g.database = "__all__"
    · exact .inl hall
    · have hdb := hx.inDatabase
      rw [if_neg hall] at hdb
      exact .inr hdb.1
  · have hschema := hx.inSchema
    rw [if_pos hall, hempty] at hschema
    exact Std.ExtTreeMap.not_mem_empty hschema

/-- What a confined grant stands for is in scope. -/
theorem Confined.inScope (hdb : database.name ∈ dbs.map) (hcreators : ManagedCreators roles database)
    {g e : Grant} (hg : Confined reg roles dbs database g) (hx : Expands reg dbs database g e) :
    InScope roles dbs database e := by
  have howner := hx.byOwner
  by_cases hauto : g.owner = "__auto__"
  · rw [if_pos hauto] at howner
    exact ⟨.inr (creators_managed hcreators howner.2), schema_of_creator howner.2,
      .inr (howner.1 ▸ hdb)⟩
  · rw [if_neg hauto] at howner
    obtain ⟨hgo, hgs, hgd⟩ := hg hauto (lands_of_expands hx)
    refine ⟨howner ▸ hgo, ?_, ?_⟩
    · have hschema := hx.inSchema
      split at hschema
      case isTrue => exact .inr hschema
      case isFalse hall =>
        rw [hschema]
        exact hgs.imp_right fun h => h.resolve_left hall
    · have hdatabase := hx.inDatabase
      split at hdatabase
      case isTrue => exact .inr hdatabase.1
      case isFalse hall =>
        rw [hdatabase.2]
        exact hgd.imp_right fun h => h.resolve_left hall

/-- A grant that lands stands for one with its own names. -/
theorem expands_of_lands (hdb : database.name ∈ dbs.map) {g : Grant} (hauto : g.owner ≠ "__auto__")
    (hl : Lands reg database g) :
    ∃ e, Expands reg dbs database g e ∧ e.owner = g.owner ∧
      (g.schema ≠ "__all__" → e.schema = g.schema) ∧
      (g.database ≠ "__all__" → e.database = g.database) := by
  obtain ⟨schema, hschema⟩ : ∃ schema : String,
      if g.schema = "__all__" then schema ∈ database.schemas else schema = g.schema := by
    by_cases hall : g.schema = "__all__"
    · obtain ⟨name, hname⟩ : ∃ name, name ∈ database.schemas := by
        by_contra hnone
        exact hl.2 hall (Std.ExtTreeMap.eq_empty_iff_forall_not_mem.mpr (not_exists.mp hnone))
      exact ⟨name, by rw [if_pos hall]; exact hname⟩
    · exact ⟨g.schema, by rw [if_neg hall]⟩
  by_cases hall : g.database = "__all__"
  · refine ⟨{ g with schema := schema, database := database.name },
      ⟨rfl, ?_, hschema, by rw [if_neg hauto]⟩, rfl, fun hs => ?_, fun hd => absurd hall hd⟩
    · rw [if_pos hall]
      exact ⟨hdb, .inl rfl⟩
    · rw [if_neg hs] at hschema
      exact hschema
  · refine ⟨{ g with schema := schema },
      ⟨rfl, ?_, hschema, by rw [if_neg hauto]⟩, rfl, fun hs => ?_, fun _ => rfl⟩
    · rw [if_neg hall]
      exact ⟨hl.1.resolve_left hall, rfl⟩
    · rw [if_neg hs] at hschema
      exact hschema

theorem confined_of_inScope (hdb : database.name ∈ dbs.map) {g : Grant}
    (h : ∀ e, Expands reg dbs database g e → InScope roles dbs database e) :
    Confined reg roles dbs database g := by
  intro hauto hl
  obtain ⟨e, hx, ho, hs, hd⟩ := expands_of_lands hdb hauto hl
  obtain ⟨howner, hschema, hdatabase⟩ := h e hx
  refine ⟨ho ▸ howner, ?_, ?_⟩
  · by_cases hall : g.schema = "__all__"
    · exact .inr (.inl hall)
    · rw [← hs hall]
      exact hschema.imp_right .inr
  · by_cases hall : g.database = "__all__"
    · exact .inr (.inl hall)
    · rw [← hd hall]
      exact hdatabase.imp_right .inr

/-- Whatever the current grants are, a grant out of scope is not among them, nor
is its schema marked there: `Sync` emits it. -/
theorem grant_of_out_of_scope {current wanted : List Grant}
    (hcurrent : ∀ c ∈ current, InScope roles dbs database c) {e : Grant} (he : e ∈ wanted)
    (hout : ¬ InScope roles dbs database e) :
    .grant e ∈ (diff current wanted).map SyncQuery.stmt := by
  refine grant_mem_diff.mpr ⟨he, fun hc => hout (hcurrent e hc), fun hc => hout ?_⟩
  have hmark := hcurrent _ hc
  exact ⟨hmark.owner, hmark.schema, hmark.database⟩

/-- **When granting stays in scope.** For the current grants that `Inspect` reports
in a database, every `GRANT` that `Sync` emits there is on something `Inspect`
looks at, if and only if the names that the wanted grants spell out are managed. -/
theorem grants_in_scope_iff {dbname acl : String} {rows : Except String (List Row)}
    {current wanted : List Grant} {queries : List (SyncQuery Stmt)}
    (hdb : dbs.map[dbname]? = some database) (hcreators : ManagedCreators roles database)
    (hinspect : inspect reg dbs database acl roles rows = .ok current)
    (hsync : sync reg dbs o dbname current wanted = .ok queries) :
    (∀ q ∈ queries, ∀ g, q.stmt = .grant g → InScope roles dbs database g) ↔
      ∀ g ∈ wanted, Confined reg roles dbs database g := by
  have hname : database.name ∈ dbs.map :=
    Dict.mem_iff.mpr ⟨database, by rw [dbs.key dbname database hdb, hdb]⟩
  obtain ⟨expanded, hexpand, hdiff⟩ := bind_eq_ok.mp hsync
  cases hdiff
  rw [databaseOf, hdb] at hexpand
  constructor
  · intro hall g hg
    refine confined_of_inScope hname fun e hx => ?_
    by_contra hout
    have hcurrent := fun c hc => (inspect_inScope hname hinspect c hc).1
    obtain ⟨q, hq, hstmt⟩ := List.mem_map.mp
      (grant_of_out_of_scope hcurrent ((mem_expand hexpand).mpr ⟨g, hg, hx⟩) hout)
    exact hout (hall q hq e hstmt)
  · intro hall q hq e hstmt
    have hmem : .grant e ∈ (diff current expanded).map SyncQuery.stmt :=
      hstmt ▸ List.mem_map_of_mem hq
    obtain ⟨g, hg, hx⟩ := (mem_expand hexpand).mp (grant_mem_diff.mp hmem).1
    exact (hall g hg).inScope hname hcreators hx

/-! A rule that spells out a schema which is not managed. -/
open Ldap.Sample Sample

/-- The rule on schema `private` makes `Sync` grant on it, out of scope. -/
theorem unmanaged_schema_granted :
    ∃ wanted current queries,
      (rule "private").generate env (registry "USAGE" "SCHEMA") Order.sorted {} = .ok wanted ∧
      inspect (registry "USAGE" "SCHEMA") onlyApp app "SCHEMA" ["alice"] (.ok []) = .ok current ∧
      sync (registry "USAGE" "SCHEMA") onlyApp Order.sorted "app" current wanted = .ok queries ∧
      ∃ q ∈ queries, ∃ g, q.stmt = .grant g ∧ ¬ InScope ["alice"] onlyApp app g := by
  refine ⟨[wanted "USAGE" "SCHEMA" "private"], [], _, by rfl, rfl, rfl, _,
    List.mem_singleton.mpr rfl, _, rfl, ?_⟩
  intro hin
  exact absurd hin.schema (by decide)

/-- On all schemas the same rule is confined, and so is what is granted. -/
theorem managed_schemas_granted :
    ∃ queries, sync (registry "USAGE" "SCHEMA") onlyApp Order.sorted "app" []
        [wanted "USAGE" "SCHEMA" "__all__"] = .ok queries ∧ queries ≠ [] ∧
      ∀ q ∈ queries, ∀ g, q.stmt = .grant g → InScope ["alice"] onlyApp app g := by
  obtain ⟨queries, hsync, hne⟩ : ∃ queries,
      sync (registry "USAGE" "SCHEMA") onlyApp Order.sorted "app" []
        [wanted "USAGE" "SCHEMA" "__all__"] = .ok queries ∧ queries ≠ [] := ⟨_, rfl, by decide⟩
  have hinspect : inspect (registry "USAGE" "SCHEMA") onlyApp app "SCHEMA" ["alice"] (.ok []) =
      .ok [] := rfl
  refine ⟨queries, hsync, hne, (grants_in_scope_iff rfl ?_ hinspect hsync).mpr ?_⟩
  · intro name s hs c hc
    rcases Dict.get_insert_cases hs with ⟨_, rfl⟩ | ⟨_, hs⟩
    · cases hc
    · rcases Dict.get_insert_cases hs with ⟨_, rfl⟩ | ⟨_, hs⟩
      · cases hc
      · simp at hs
  · intro g hg _ _
    rw [List.mem_singleton.mp hg]
    exact ⟨.inl rfl, .inr (.inl rfl), .inr (.inl rfl)⟩

end Ldap2pg.Privileges.Scope
