import Ldap2pg.Privileges.Acl
import Ldap2pg.Privileges.Converge

/-! # Wanted grants that inspection can report

Which fields a grant has is decided once by `GrantRule.Generate`, from the placeholders and
the scope of the ACL, and again by `ACL.Register` and `ACL.RowTo`, from the name of the
ACL, its scope and its placeholders. Where the two differ, no row gives the grant back. -/
namespace Ldap2pg.Privileges
open Lib Pyfmt Ldap Postgres Privileges.Converge

/-- Some row of the ACL is reported as the grant, in the database. -/
def Recognised (a : ACL) (dbs : DBMap) (database : Database) (e : Grant) : Prop :=
  ∃ row grant, a.rowTo row = .ok grant ∧ iterGrant a dbs database grant = some e

/-- Rows have an owner for default privileges only. They have one name of an object, next
to which only default privileges in schemas have a schema. -/
structure Recognisable (a : ACL) (dbs : DBMap) (database : Database) (e : Grant) : Prop where
  owner : a.name = "GLOBAL DEFAULT" ∨ a.name = "SCHEMA DEFAULT" ∨ e.owner = ""
  schema : e.schema = "" ∨ e.schema ∈ database.schemas ∧
    (a.name = "SCHEMA DEFAULT" ∨ a.uses "object" = false ∧ a.uses "database" = false)
  database : a.scope = "instance" →
    e.database = "" ∨ e.database ∈ dbs.map ∧ a.uses "object" = false

/-- A grant of a rule on the ACL, expanded in the database. -/
structure WantedOn (a : ACL) (dbname : String) (e : Grant) : Prop extends Fields a e where
  acl : e.acl = a.name
  inDatabase : a.scope ≠ "instance" → e.database = dbname

section Rows
variable {a : ACL} {dbs : DBMap} {database : Database} {e : Grant}

theorem scan_fields {row : Row} {g : Grant} (h : a.scan row = .ok g) :
    g.acl = "" ∧ g.database = "" ∧ (a.name ≠ "SCHEMA DEFAULT" → g.schema = "") ∧
      (a.name = "GLOBAL DEFAULT" ∨ a.name = "SCHEMA DEFAULT" ∨ g.owner = "") := by
  unfold ACL.scan at h
  split at h
  case isTrue hname =>
    cases row <;> cases h
    exact ⟨rfl, rfl, fun _ => rfl, .inl hname⟩
  · split at h
    case isTrue hname =>
      cases row <;> cases h
      exact ⟨rfl, rfl, fun hne => absurd hname hne, .inr (.inl hname)⟩
    · split at h
      · cases row <;> cases h
        exact ⟨rfl, rfl, fun _ => rfl, .inr (.inr rfl)⟩
      · split at h
        · cases row <;> cases h
          exact ⟨rfl, rfl, fun _ => rfl, .inr (.inr rfl)⟩
        · cases h

/-- The end of `RowTo` sets a database or a schema in turn. -/
theorem place_fields (g : Grant) : (a.place g).owner = g.owner ∧
    ((a.place g).database = g.database ∨ a.uses "object" = false) ∧
    ((a.place g).schema = g.schema ∨ a.uses "object" = false ∧ a.uses "database" = false) := by
  unfold ACL.place
  split
  · exact ⟨rfl, .inl rfl, .inl rfl⟩
  case isFalse hobject =>
    split
    · exact ⟨rfl, .inr (by simpa using hobject), .inl rfl⟩
    case isFalse hdatabase =>
      split
      · exact ⟨rfl, .inl rfl, .inr ⟨by simpa using hobject, by simpa using hdatabase⟩⟩
      · exact ⟨rfl, .inl rfl, .inl rfl⟩

theorem assign_owner (dbname : String) (g : Grant) : (a.assign dbname g).owner = g.owner := by
  unfold ACL.assign
  split <;> rfl

/-- What a row is reported as. -/
theorem Recognised.recognisable (hdb : database.name ∈ dbs.map) (h : Recognised a dbs database e) :
    Recognisable a dbs database e := by
  obtain ⟨row, grant, hrow, hiter⟩ := h
  obtain ⟨rfl, hschemas, hdatabases⟩ := (iterGrant_eq_some hdb).mp hiter
  obtain ⟨g, hscan, hrow⟩ := bind_eq_ok.mp hrow
  obtain ⟨hacl, hnone, hschema, howner⟩ := scan_fields hscan
  rw [if_pos hacl] at hrow
  cases hrow
  obtain ⟨hplacedOwner, hplacedDatabase, hplacedSchema⟩ :=
    place_fields (a := a) { g with acl := a.name }
  refine ⟨?_, ?_, fun hinstance => ?_⟩
  · rw [assign_owner, hplacedOwner]
    exact howner
  · rw [assign_schema] at hschemas ⊢
    by_cases hempty : (a.place { g with acl := a.name }).schema = ""
    · exact .inl hempty
    · refine .inr ⟨hschemas.resolve_left hempty, or_iff_not_imp_left.mpr fun hname => ?_⟩
      exact hplacedSchema.resolve_left fun hsame => hempty (hsame.trans (hschema hname))
  · have hassign : a.assign database.name (a.place { g with acl := a.name }) =
        a.place { g with acl := a.name } := if_neg fun hscope => hscope.2 hinstance
    rw [hassign] at hdatabases ⊢
    by_cases hempty : (a.place { g with acl := a.name }).database = ""
    · exact .inl hempty
    · exact .inr ⟨hdatabases.resolve_left hempty,
        hplacedDatabase.resolve_left fun hsame => hempty (hsame.trans hnone)⟩

/-- The scan functions leave the fields of the grant open, but for the schema and the owner. -/
theorem exists_scan (hscope : a.name = "GLOBAL DEFAULT" ∨ a.name = "SCHEMA DEFAULT" ∨
      a.scope = "instance" ∨ a.scope = "database")
    (howner : a.name = "GLOBAL DEFAULT" ∨ a.name = "SCHEMA DEFAULT" ∨ e.owner = "")
    {schema : String} (hschema : a.name = "SCHEMA DEFAULT" ∨ schema = "") (object : String) :
    ∃ row, a.scan row =
      .ok { owner := e.owner, grantee := e.grantee, type := e.type, schema, object } := by
  unfold ACL.scan
  by_cases hglobal : a.name = "GLOBAL DEFAULT"
  · have hne : a.name ≠ "SCHEMA DEFAULT" := by rw [hglobal]; decide
    rw [if_pos hglobal, hschema.resolve_left hne]
    exact ⟨.globalDefault e.owner e.type object e.grantee, rfl⟩
  · rw [if_neg hglobal]
    by_cases hname : a.name = "SCHEMA DEFAULT"
    · rw [if_pos hname]
      exact ⟨.schemaDefault e.owner schema e.type object e.grantee, rfl⟩
    · rw [if_neg hname, hschema.resolve_left hname, (howner.resolve_left hglobal).resolve_left hname]
      by_cases hinstance : a.scope = "instance"
      · rw [if_pos hinstance]
        exact ⟨.ofInstance e.type object e.grantee, rfl⟩
      · rw [if_neg hinstance,
          if_pos (((hscope.resolve_left hglobal).resolve_left hname).resolve_left hinstance)]
        exact ⟨.ofDatabase e.type object e.grantee false, rfl⟩

theorem rowTo_of_scan {row : Row} {g : Grant} (h : a.scan row = .ok g) (hacl : g.acl = "") :
    a.rowTo row = .ok (a.place { g with acl := a.name }) := by
  rw [ACL.rowTo, h]
  show Except.ok (a.place (if g.acl = "" then { g with acl := a.name } else g)) = _
  rw [if_pos hacl]

/-- Outside of the instance a row may leave the database open. -/
theorem assign_wanted (hw : WantedOn a database.name e) {grant : Grant}
    (h : grant.database = e.database ∨ grant.database = "" ∧ a.scope ≠ "instance") :
    a.assign database.name grant = { grant with database := e.database } := by
  unfold ACL.assign
  split
  case isTrue hopen => rw [hw.inDatabase hopen.2]
  case isFalse hset => rw [← h.resolve_right hset]

/-- The row of a wanted grant: its object is where `RowTo` takes the database or the schema
from, if anywhere. -/
theorem Recognisable.recognised (hscope : a.name = "GLOBAL DEFAULT" ∨ a.name = "SCHEMA DEFAULT" ∨
      a.scope = "instance" ∨ a.scope = "database") (hdb : database.name ∈ dbs.map)
    (hw : WantedOn a database.name e) (h : Recognisable a dbs database e) :
    Recognised a dbs database e := by
  have hreported : ∀ grant : Grant, a.assign database.name grant = e →
      iterGrant a dbs database grant = some e := by
    intro grant hgrant
    refine (iterGrant_eq_some hdb).mpr ⟨hgrant.symm, h.schema.imp_right And.left, ?_⟩
    by_cases hinstance : a.scope = "instance"
    · exact (h.database hinstance).imp_right And.left
    · exact .inr (hw.inDatabase hinstance ▸ hdb)
  have hself : ({ owner := e.owner, grantee := e.grantee, acl := a.name, type := e.type
                  database := e.database, schema := e.schema, object := e.object } : Grant) = e := by
    rw [← hw.acl]
    exact congrArg (fun p => ({ e with isPartial := p } : Grant)) hw.whole.symm
  -- next to an object or a database, the schema is a column of default privileges only
  have hcolumn : a.uses "object" = true ∨ a.uses "database" = true →
      a.name = "SCHEMA DEFAULT" ∨ e.schema = "" := by
    intro hused
    rcases h.schema with hempty | ⟨_, hname | ⟨hobject, hdatabase⟩⟩
    · exact .inr hempty
    · exact .inl hname
    · rw [hobject, hdatabase] at hused
      simp at hused
  by_cases hobject : a.uses "object" = true
  · obtain ⟨row, hrow⟩ := exists_scan hscope h.owner (hcolumn (.inl hobject)) e.object
    refine ⟨row, _, rowTo_of_scan hrow rfl, hreported _ ?_⟩
    rw [ACL.place, if_pos hobject, assign_wanted hw, hself]
    by_cases hinstance : a.scope = "instance"
    · refine .inl ((h.database hinstance).resolve_right fun hin => ?_).symm
      rw [hobject] at hin
      cases hin.2
    · exact .inr ⟨rfl, hinstance⟩
  · rw [hw.object (by simpa using hobject)] at hself
    by_cases hdatabase : a.uses "database" = true
    · obtain ⟨row, hrow⟩ := exists_scan hscope h.owner (hcolumn (.inr hdatabase)) e.database
      refine ⟨row, _, rowTo_of_scan hrow rfl, hreported _ ?_⟩
      rw [ACL.place, if_neg hobject, if_pos hdatabase, assign_wanted hw, hself]
      exact .inl rfl
    · have hopen : "" = e.database ∨ "" = "" ∧ a.scope ≠ "instance" := by
        by_cases hinstance : a.scope = "instance"
        · exact .inl (hw.database hinstance (by simpa using hdatabase)).symm
        · exact .inr ⟨rfl, hinstance⟩
      by_cases hname : a.name = "SCHEMA DEFAULT"
      · obtain ⟨row, hrow⟩ := exists_scan (e := e) hscope h.owner (.inl hname) ""
        refine ⟨row, _, rowTo_of_scan hrow rfl, hreported _ ?_⟩
        rw [ACL.place, if_neg hobject, if_neg hdatabase]
        split
        case isTrue hplaced =>
          have hempty : e.schema = "" := of_decide_eq_true (Bool.and_eq_true_iff.mp hplaced).1
          rw [hempty] at hself
          rw [assign_wanted hw hopen, hself]
        case isFalse => rw [assign_wanted hw hopen, hself]
      · obtain ⟨row, hrow⟩ := exists_scan (e := e) hscope h.owner (.inr rfl) e.schema
        refine ⟨row, _, rowTo_of_scan hrow rfl, hreported _ ?_⟩
        rw [ACL.place, if_neg hobject, if_neg hdatabase]
        split
        case isTrue => rw [assign_wanted hw hopen, hself]
        case isFalse hplaced =>
          have hempty : e.schema = "" := hw.schema (by simpa using hplaced)
          rw [hempty] at hself ⊢
          rw [assign_wanted hw hopen, hself]

end Rows

section Wanted
variable {reg : Registry} {a : ACL} {dbs : DBMap} {database : Database}

theorem wantedOn_of_expands (hreg : reg.acl a.name = a) {g e : Grant} (hgen : Generated reg g)
    (hx : Expands reg dbs database g e) (hacl : e.acl = a.name) : WantedOn a database.name e := by
  obtain ⟨env, rule, values, name, profile, _, priv, _, hgrant⟩ := generated_grant hgen
  obtain ⟨hon, _, hfields⟩ := grant_fields hgrant
  have hname : g.acl = a.name := by rw [← hacl, hx.same]
  rw [← hon, hname, hreg] at hfields
  exact { fields_of_expands hfields hx with
    acl := hacl
    inDatabase := database_of_expands hreg hname hx }

theorem ACL.register_scope {reg' : Registry} (h : a.register reg = .ok reg') :
    a.name = "GLOBAL DEFAULT" ∨ a.name = "SCHEMA DEFAULT" ∨ a.scope = "instance" ∨
      a.scope = "database" := by
  unfold ACL.register at h
  split at h
  · cases h
  case isFalse hknown =>
    by_contra hnone
    simp only [not_or] at hnone
    exact hknown hnone

/-- **A wanted grant is recognised if and only if a row has room for it.** A grant on an
accepted ACL, generated by a rule and expanded in a managed database, is never partial, and
is what some row of the ACL is reported as exactly if its owner, its schema and its database
are where rows of the ACL have them. -/
theorem recognised_iff {reg₀ reg₁ : Registry} (haccepted : a.register reg₀ = .ok reg₁)
    (hreg : reg.acl a.name = a) (hdb : database.name ∈ dbs.map) {wanted : List Grant}
    (hgen : ∀ g ∈ wanted, Generated reg g) {o : Order} {expanded : List Grant}
    (hexpand : expand reg dbs o wanted database = .ok expanded) {e : Grant} (he : e ∈ expanded)
    (hacl : e.acl = a.name) :
    e.isPartial = false ∧ (Recognised a dbs database e ↔ Recognisable a dbs database e) := by
  obtain ⟨g, hg, hx⟩ := (mem_expand hexpand).mp he
  have hw := wantedOn_of_expands hreg (hgen g hg) hx hacl
  exact ⟨hw.whole, fun h => h.recognisable hdb,
    fun h => h.recognised (ACL.register_scope haccepted) hdb hw⟩

end Wanted

section Fixed
open Sample

/-- `USAGE` on a schema of the database is recognised. -/
theorem usage_on_public :
    let e : Grant := { wanted "USAGE" "SCHEMA" "public" with database := "app" }
    Recognised (onSchema "SCHEMA") onlyApp app e := by
  intro e
  obtain ⟨reg₁, haccepted⟩ : ∃ reg₁, (onSchema "SCHEMA").register (registry "USAGE" "SCHEMA") =
      .ok reg₁ := ⟨_, rfl⟩
  obtain ⟨expanded, hexpand, he⟩ : ∃ expanded, expand (registry "USAGE" "SCHEMA") onlyApp
      Order.sorted [wanted "USAGE" "SCHEMA" "public"] app = .ok expanded ∧ e ∈ expanded :=
    ⟨_, rfl, by decide⟩
  have hgen : ∀ g ∈ [wanted "USAGE" "SCHEMA" "public"], Generated (registry "USAGE" "SCHEMA") g := by
    intro g hg
    rw [List.mem_singleton.mp hg]
    exact ⟨Ldap.Sample.env, Order.sorted, rule "public", {}, _, by rfl, List.mem_singleton.mpr rfl⟩
  refine (recognised_iff haccepted rfl (by decide) hgen hexpand he rfl).2.mpr ⟨?_, ?_, ?_⟩
  · exact .inr (.inr rfl)
  · exact .inr ⟨by decide, .inr ⟨by decide +kernel, by decide +kernel⟩⟩
  · intro hscope
    exact absurd hscope (by decide)

/-- Types by schema and name, in the templates of the documentation but for the schema, that
is a placeholder. -/
def onType : ACL where
  name := "TYPE"
  scope := "database"
  grant := "GRANT <privilege> ON <acl> <schema>.<object> TO <grantee>;"
  revoke := "REVOKE <privilege> ON <acl> <schema>.<object> FROM <grantee>;"

def typeRegistry : Registry where
  acls := builtinRegistry.insert "TYPE" onType
  profiles := (∅ : Dict (List Privilege)).insert "profile"
    [{ type := "USAGE", on := "TYPE", object := "mood" }]
  managedACLs := (∅ : Dict (List String)).insert "TYPE" ["USAGE"]

/-- The rule wants `USAGE` on the type `public.mood`, and no row is read as the schema and the
object. -/
theorem type_by_schema :
    let e : Grant := { wanted "USAGE" "TYPE" "public" with database := "app", object := "mood" }
    (∃ reg₁, onType.register typeRegistry = .ok reg₁) ∧ typeRegistry.acl "TYPE" = onType ∧
      (∃ grants expanded, (rule "public").generate Ldap.Sample.env typeRegistry Order.sorted {} =
          .ok grants ∧
        expand typeRegistry onlyApp Order.sorted grants app = .ok expanded ∧ e ∈ expanded) ∧
      ¬ Recognised onType onlyApp app e := by
  intro e
  refine ⟨⟨_, rfl⟩, rfl, ⟨_, _, rfl, rfl, by decide⟩, fun h => ?_⟩
  have hobject : onType.uses "object" = true := by decide +kernel
  rcases (h.recognisable (by decide)).schema with hempty | ⟨_, hname | hnot⟩
  · exact absurd hempty (by decide)
  · exact absurd hname (by decide)
  · rw [hobject] at hnot
    cases hnot.1

end Fixed

end Ldap2pg.Privileges
