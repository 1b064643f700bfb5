import Ldap2pg.Privileges.Partial
import Ldap2pg.Privileges.Converge

/-! # Schemas without objects

`GRANT ... ON ALL ... IN SCHEMA` does nothing on a schema without objects, and would
be emitted on every run. The queries mark such schemas with a row of no privilege,
which `diff` finds for whatever is wanted there. -/
namespace Ldap2pg.Privileges.Empty
open Lib Lib.Sql Postgres Partial Converge

/-- The ACLs of `ALL ... IN SCHEMA`. -/
inductive Class where
  | rels (k : RelClass)
  | pros (k : ProClass)

namespace Class

def acl : Class → String
  | .rels .tables => "ALL TABLES IN SCHEMA"
  | .rels .sequences => "ALL SEQUENCES IN SCHEMA"
  | .pros .functions => "ALL FUNCTIONS IN SCHEMA"
  | .pros .routines => "ALL ROUTINES IN SCHEMA"

def inspect : Class → Catalogue → List String → List Row
  | .rels k => k.inspect
  | .pros k => k.inspect

/-- The schema has no object of the class. -/
def Vacant (c : Catalogue) (nsp : Namespace) : Class → Prop
  | .rels k => relsIn c k.members nsp = []
  | .pros k => prosIn c k.member nsp = []

/-- The schemas that the query leaves out. -/
def pattern : Class → String
  | .rels _ => relPattern
  | .pros _ => proPattern

/-- What inspection reports of the mark. -/
def mark (k : Class) (dbname : String) (nsp : Namespace) : Grant where
  grantee := "public"
  acl := k.acl
  database := dbname
  schema := nsp.nspname

variable {k : Class} {c : Catalogue} {types : List String} {nsp : Namespace}

theorem isA (k : Class) : (onSchema k.acl).IsA .schema := by
  rcases k with ⟨_ | _⟩ | ⟨_ | _⟩ <;> exact onSchema_isA (by decide) (by decide) (by decide)

theorem fits (k : Class) : ∀ r ∈ k.inspect c types, Kind.schema.fits r = true := by
  intro r hr
  have hselect : ∃ nsps grants, k.inspect c types = selectGrants c.roles types nsps grants := by
    cases k with
    | rels k => exact ⟨_, _, congrFun (congrFun k.inspect_eq c) types⟩
    | pros k => exact ⟨_, _, k.inspect_eq⟩
  obtain ⟨_, _, hselect⟩ := hselect
  obtain ⟨_, _, _, _, rfl⟩ := select_ofDatabase (hselect ▸ hr)
  rfl

theorem rel_mark_iff {k : RelClass} (hnsp : nsp ∈ c.namespaces.rows)
    (hvacant : relsIn c k.selected nsp = []) :
    emptyRow nsp ∈ k.inspect c types ↔ keepNamespace relPattern nsp = true := by
  have hnamed : ∀ g ∈ relGrants k.selected c, g.privilege ≠ "" := fun _ => named_of_mem_aggregate
  rw [k.inspect_eq, inspectRels, mark_mem_select hnamed]
  refine ⟨?_, fun hkeep => ?_⟩
  · rintro ⟨⟨n, _⟩, hn, hname, _⟩
    obtain ⟨hin, hkeep, _⟩ := mem_namespaceRels.mp hn
    exact eq_of_nspname hin hnsp hname ▸ hkeep
  · refine ⟨_, mem_namespaceRels.mpr ⟨hnsp, hkeep, rfl⟩, rfl, ?_, ?_⟩
    · rw [hvacant]
      rfl
    · rintro ⟨oid, privilege, grantee, objects⟩ hg ⟨hon, _⟩
      cases hon
      obtain ⟨rel, hrel, _⟩ := (mem_relGrants.mp hg).1
      rw [hvacant] at hrel
      cases hrel

theorem named_proc {select : Proc → Bool} : ∀ g ∈ procGrants select c, g.privilege ≠ "" :=
  fun _ => named_of_mem_aggregate

theorem routine_mark_iff (hnsp : nsp ∈ c.namespaces.rows)
    (hvacant : prosIn c ProClass.routines.select nsp = []) :
    emptyRow nsp ∈ ProClass.routines.inspect c types ↔ keepNamespace proPattern nsp = true := by
  rw [ProClass.inspect_eq, mark_mem_select named_proc]
  refine ⟨fun ⟨⟨n, _⟩, hn, hname, _⟩ => ?_, fun hkeep => ?_⟩
  · obtain ⟨hin, ⟨hkeep, _⟩, _⟩ := mem_namespaces.mp hn
    exact eq_of_nspname hin hnsp hname ▸ hkeep
  · refine ⟨_, mem_namespaces.mpr ⟨hnsp, ⟨hkeep, nofun⟩, rfl⟩, rfl, ?_, ?_⟩
    · rw [hvacant]
      rfl
    · rintro ⟨oid, privilege, grantee, objects⟩ hg ⟨hon, _⟩
      cases hon
      obtain ⟨pro, hpro, _⟩ := (mem_procGrants.mp hg).1
      rw [hvacant] at hpro
      cases hpro

/-- A schema is in the table of functions only with one of them. -/
theorem function_not_mark : emptyRow nsp ∉ ProClass.functions.inspect c types := by
  rw [ProClass.inspect_eq, mark_mem_select named_proc]
  rintro ⟨⟨n, names⟩, hn, _, hempty, _⟩
  obtain ⟨_, ⟨_, hsome⟩, rfl⟩ := mem_namespaces.mp hn
  rw [arrayAggDistinct, arrayAgg_eq_nil, List.dedup_eq_nil, List.map_eq_nil_iff] at hempty
  exact hsome rfl hempty

/-- **The mark of a vacant schema**: every query but that of functions has it. -/
theorem mark_mem_iff (hnsp : nsp ∈ c.namespaces.rows) (htoast : nsp.nspname ≠ "pg_toast")
    (hvacant : k.Vacant c nsp) : emptyRow nsp ∈ k.inspect c types ↔
      k ≠ .pros .functions ∧ like k.pattern.toList nsp.nspname.toList = false := by
  rw [← keep_iff htoast]
  cases k with
  | rels k =>
    rw [and_iff_right (by simp)]
    refine rel_mark_iff hnsp (List.eq_nil_iff_forall_not_mem.mpr fun rel hrel => ?_)
    obtain ⟨⟨hin, hkind⟩, hon⟩ := mem_relsIn.mp hrel
    have hmember : rel ∈ relsIn c k.members nsp :=
      mem_relsIn.mpr ⟨⟨hin, k.member_of_selected hkind⟩, hon⟩
    rw [show relsIn c k.members nsp = [] from hvacant] at hmember
    cases hmember
  | pros k =>
    cases k with
    | functions => exact iff_of_false function_not_mark (by simp)
    | routines =>
      rw [and_iff_right (by simp)]
      exact routine_mark_iff hnsp hvacant

end Class

/-- **Nothing is granted again on a vacant schema**, whatever the grantee and the type, if
and only if the ACL is not that of functions and the query does not leave the schema
out. -/
theorem vacant_quiet_iff (k : Class) {reg : Registry} {dbs : DBMap} {database : Database}
    {c : Catalogue} {nsp : Namespace} (hreg : reg.acl k.acl = onSchema k.acl)
    (hdb : database.name ∈ dbs.map) (hnsp : nsp ∈ c.namespaces.rows)
    (htoast : nsp.nspname ≠ "pg_toast") (hmanaged : nsp.nspname ∈ database.schemas)
    (hvacant : k.Vacant c nsp) (types : List String) :
    (emptyRow nsp ∈ k.inspect c types ∧
      ∀ roles, ∃ current,
        inspect reg dbs database k.acl roles (.ok (k.inspect c types)) = .ok current ∧
        k.mark database.name nsp ∈ current ∧
        ∀ (o : Order) (wanted expanded : List Grant), (∀ g ∈ wanted, Generated reg g) →
          expand reg dbs o wanted database = .ok expanded →
            ∀ e ∈ expanded, e.acl = k.acl → e.schema = nsp.nspname →
              .grant e ∉ (diff current expanded).map SyncQuery.stmt) ↔
    k ≠ .pros .functions ∧ like k.pattern.toList nsp.nspname.toList = false := by
  have hmarks : emptyRow nsp ∈ k.inspect c types ↔ _ := k.mark_mem_iff hnsp htoast hvacant
  rw [← hmarks]
  refine and_iff_left_of_imp fun hmark roles => ?_
  have hfits : ∀ r ∈ k.inspect c types, Kind.schema.fits r = true := k.fits
  obtain ⟨current, hcurrent, hreports⟩ := inspect_rows k.isA hreg hdb roles hfits
  have hin : k.mark database.name nsp ∈ current :=
    (hreports _).mpr ⟨_, hmark, rfl, ⟨.inl rfl, .inr hmanaged, .inr hdb⟩, fun h => absurd rfl h⟩
  refine ⟨current, hcurrent, hin, fun o wanted expanded hwanted hexpand e he hacl hschema hgrant => ?_⟩
  obtain ⟨g, hg, hexpands⟩ := (mem_expand hexpand).mp he
  obtain ⟨_, _, _, _, _, _, priv, _, hrule⟩ := generated_grant (hwanted g hg)
  obtain ⟨hon, _, hfields⟩ := grant_fields hrule
  have hacl' : g.acl = k.acl := by rw [← hacl, hexpands.same]
  rw [← hon, hacl', hreg] at hfields
  have hshaped := shaped_of_expands k.isA hreg hacl' hfields hexpands
  refine (grant_mem_diff.mp hgrant).2.2 ?_
  -- the wanted grant, but for its grantee and type, is the mark
  have hmarked : { e with grantee := "public", type := "" } = k.mark database.name nsp := by
    have howner : e.owner = "" := hshaped.owner rfl
    have hobject : e.object = "" := hshaped.object rfl
    have hdatabase : e.database = database.name := hshaped.database
    rw [howner, hobject, hdatabase, hshaped.whole, hacl, hschema]
    rfl
  exact hmarked ▸ hin

/-! A schema without objects, managed in the database of the examples. -/

def empty : Namespace := ⟨2201, "empty"⟩

def vacant : Catalogue where
  roles := sampleRoles
  namespaces := ⟨[empty], by decide, by decide, by decide⟩
  relations := []
  procs := []
  relnames := List.nodup_nil
  relgrantees := relgrantees_nil _
  prograntees := prograntees_nil _

/-- The functions of the schema, to `alice`. -/
def toAlice : Grant where
  grantee := "alice"
  acl := "ALL FUNCTIONS IN SCHEMA"
  type := "EXECUTE"
  database := "app"
  schema := "empty"

theorem vacant_tables_marked :
    emptyRow empty ∈ inspectAllTables vacant ["SELECT"] ∧
      ∀ roles, ∃ current,
        inspect (Sample.registry "SELECT" "ALL TABLES IN SCHEMA") Sample.onlyApp Sample.app
          "ALL TABLES IN SCHEMA" roles (.ok (inspectAllTables vacant ["SELECT"])) = .ok current ∧
        (Class.rels .tables).mark "app" empty ∈ current := by
  have hreg : (Sample.registry "SELECT" "ALL TABLES IN SCHEMA").acl (Class.rels .tables).acl =
      onSchema (Class.rels .tables).acl := by decide +kernel
  have hdb : Sample.app.name ∈ Sample.onlyApp.map := by decide +kernel
  have hnsp : empty ∈ vacant.namespaces.rows := List.mem_singleton_self _
  have hmanaged : empty.nspname ∈ Sample.app.schemas := by decide +kernel
  obtain ⟨hmark, hquiet⟩ := (vacant_quiet_iff (.rels .tables) hreg hdb hnsp (by decide) hmanaged rfl
    ["SELECT"]).mpr ⟨by simp, by decide +kernel⟩
  refine ⟨hmark, fun roles => ?_⟩
  obtain ⟨current, hcurrent, hin, _⟩ := hquiet roles
  exact ⟨current, hcurrent, hin⟩

/-- Functions are granted on every run. -/
theorem vacant_functions_granted :
    inspectAllFunctions vacant ["EXECUTE"] = [] ∧
      ((sync (Sample.registry "EXECUTE" "ALL FUNCTIONS IN SCHEMA") Sample.onlyApp Order.sorted "app" []
        [Sample.wanted "EXECUTE" "ALL FUNCTIONS IN SCHEMA" "empty"]).toOption.map
          (List.map SyncQuery.stmt)) = some [.grant toAlice] := by
  decide +kernel

end Ldap2pg.Privileges.Empty
