import Ldap2pg.Privileges.Builtin

/-! # The grants of one ACL on a server

A `Store` is what the inspection query of a built-in ACL returns, and how `GRANT`
and `REVOKE` change it. A grant is there once, whole or partial. A schema without
objects has a mark and nothing else, and granting on it does nothing. -/
namespace Ldap2pg.Privileges
open Lib Pyfmt Postgres

variable {r : Row}

namespace Row

/-- The row of the whole grant. -/
def full : Row → Row
  | .ofDatabase type object grantee _ => .ofDatabase type object grantee false
  | r => r

def type : Row → String
  | .globalDefault _ type _ _ | .schemaDefault _ _ type _ _ | .ofInstance type _ _
  | .ofDatabase type _ _ _ => type

/-- ANY to `public`: the schema has no object. -/
def mark (schema : String) : Row := .ofDatabase "" schema "public" false

/-- The schema of a row of an ACL on schemas. -/
def onSchema : Row → Option String
  | .ofDatabase _ schema _ _ => some schema
  | _ => none

@[simp] theorem full_full (r : Row) : r.full.full = r.full := by cases r <;> rfl

@[simp] theorem full_type (r : Row) : r.full.type = r.type := by cases r <;> rfl

@[simp] theorem mark_full (schema : String) : (mark schema).full = mark schema := rfl

@[simp] theorem mark_type (schema : String) : (mark schema).type = "" := rfl

end Row

namespace Kind

/-- The rows that the query of the ACL returns. -/
def fits : Kind → Row → Bool
  | .database, .ofInstance .. | .language, .ofInstance .. | .schema, .ofDatabase ..
  | .globalDefault, .globalDefault .. | .schemaDefault, .schemaDefault .. => true
  | _, _ => false

/-- The grant that a row stands for in a database. -/
def grantOf (k : Kind) (acl dbname : String) (r : Row) : Grant :=
  match k, r with
  | .database, .ofInstance type name grantee => { acl, type, database := name, grantee }
  | .language, .ofInstance type object grantee => { acl, type, object, grantee }
  | .schema, .ofDatabase type name grantee isPartial =>
    { acl, type, schema := name, grantee, isPartial, database := dbname }
  | .globalDefault, .globalDefault owner type object grantee =>
    { acl, owner, type, object, grantee, database := dbname }
  | .schemaDefault, .schemaDefault owner name type object grantee =>
    { acl, owner, schema := name, type, object, grantee, database := dbname }
  | _, _ => {}

/-- The row of a grant: what the placeholders of the template name. -/
def rowOf (k : Kind) (g : Grant) : Row :=
  match k with
  | .database => .ofInstance g.type g.database g.grantee
  | .language => .ofInstance g.type g.object g.grantee
  | .schema => .ofDatabase g.type g.schema g.grantee g.isPartial
  | .globalDefault => .globalDefault g.owner g.type g.object g.grantee
  | .schemaDefault => .schemaDefault g.owner g.schema g.type g.object g.grantee

variable {k : Kind} {acl dbname : String}

theorem fits_rowOf (k : Kind) (g : Grant) : k.fits (k.rowOf g) = true := by cases k <;> rfl

theorem fits_full (h : k.fits r = true) : k.fits r.full = true := by
  cases k <;> cases r <;> exact h

@[simp] theorem rowOf_type (k : Kind) (g : Grant) : (k.rowOf g).type = g.type := by cases k <;> rfl

theorem rowOf_full (k : Kind) (g : Grant) :
    (k.rowOf g).full = k.rowOf { g with isPartial := false } := by cases k <;> rfl

theorem rowOf_grantOf (h : k.fits r = true) : k.rowOf (k.grantOf acl dbname r) = r := by
  cases k <;> cases r <;> first | rfl | cases h

theorem grantOf_full (r : Row) :
    k.grantOf acl dbname r.full = { k.grantOf acl dbname r with isPartial := false } := by
  cases k <;> cases r <;> rfl

theorem grantOf_type (h : k.fits r = true) : (k.grantOf acl dbname r).type = r.type := by
  cases k <;> cases r <;> first | rfl | cases h

/-- The fields of a grant are those that the ACL has. -/
structure Shaped (k : Kind) (acl dbname : String) (g : Grant) : Prop where
  acl : g.acl = acl
  owner : k.placeholders.owner = false → g.owner = ""
  schema : k.placeholders.schema = false → g.schema = ""
  object : k.placeholders.object = false → g.object = ""
  database : if k.instanceWide = true then k.placeholders.database = false → g.database = ""
    else g.database = dbname
  whole : g.isPartial = false

theorem grantOf_rowOf {g : Grant} (h : k.Shaped acl dbname g) :
    k.grantOf acl dbname (k.rowOf g) = g := by
  obtain ⟨hacl, howner, hschema, hobject, hdatabase, hwhole⟩ := h
  obtain ⟨owner, grantee, gacl, type, database, schema, object, isPartial⟩ := g
  simp only at hacl howner hschema hobject hdatabase hwhole
  subst hacl hwhole
  cases k <;>
    simp_all [grantOf, rowOf, placeholders, instanceWide]

end Kind

/-- A grant that `Inspect` reports once it is there. -/
structure Seen (roles : List String) (dbs : DBMap) (database : Database) (g : Grant) : Prop where
  scope : InScope roles dbs database g
  grantee : g.type ≠ "" → g.grantee ∈ roles

section Inspect
variable {reg : Registry} {dbs : DBMap} {database : Database} {acl : String} {roles : List String}
  {k : Kind} {a : ACL}

/-- Before inspection tells the database, a row is read as the grant of no
database in particular. -/
theorem rowTo_eq (ha : a.IsA k) (h : k.fits r = true) :
    a.rowTo r = .ok (k.grantOf a.name "" r) := by
  have hobject : a.uses "object" = k.placeholders.object := congrArg Placeholders.object ha.uses
  have hdatabase : a.uses "database" = k.placeholders.database :=
    congrArg Placeholders.database ha.uses
  have hschema : a.uses "schema" = k.placeholders.schema := congrArg Placeholders.schema ha.uses
  rw [ACL.rowTo, ha.scan]
  cases k <;> cases r <;> first
    | simp only [bind, Except.bind, pure, Except.pure, Kind.scan, rowToInstanceGrant,
        rowToDatabaseGrant, rowToGlobalDefaultGrant, rowToSchemaDefaultGrant, ACL.place, hobject,
        hdatabase, hschema]
      rfl
    | cases h

theorem assign_grantOf (ha : a.IsA k) (dbname : String) (h : k.fits r = true) :
    a.assign dbname (k.grantOf a.name "" r) = k.grantOf a.name dbname r := by
  have hscope := ha.scope
  unfold ACL.assign
  cases k <;> cases r <;> simp_all [Kind.grantOf, Kind.instanceWide, Kind.fits]

/-- **What is reported of a row.** -/
theorem report_grantOf (ha : a.IsA k) (hreg : reg.acl acl = a) (hdb : database.name ∈ dbs.map)
    (h : k.fits r = true) {g : Grant} :
    report reg dbs database acl roles (k.grantOf a.name "" r) = some g ↔
      g = k.grantOf a.name database.name r ∧ Seen roles dbs database g := by
  rw [report, hreg, Option.filter_eq_some_iff, keepGrant_iff, iterGrant_eq_some hdb,
    assign_grantOf ha _ h]
  constructor
  · rintro ⟨⟨hg, hschema, hdatabase⟩, hgrantee, howner⟩
    exact ⟨hg, ⟨howner, hschema, hdatabase⟩, hgrantee⟩
  · rintro ⟨hg, hscope, hgrantee⟩
    exact ⟨⟨hg, hscope.schema, hscope.database⟩, hgrantee, hscope.owner⟩

/-- Inspection passes on the rows of the query of the ACL, and reports the grants that it
sees. -/
theorem inspect_rows (ha : a.IsA k) (hreg : reg.acl a.name = a) (hdb : database.name ∈ dbs.map)
    (roles : List String) {rows : List Row} (hfits : ∀ r ∈ rows, k.fits r = true) :
    ∃ current, inspect reg dbs database a.name roles (.ok rows) = .ok current ∧
      ∀ g, g ∈ current ↔ ∃ r ∈ rows, g = k.grantOf a.name database.name r ∧
        Seen roles dbs database g := by
  obtain ⟨scanned, hscanned⟩ := exists_mapM_ok fun r hr => ⟨_, rowTo_eq ha (hfits r hr)⟩
  obtain ⟨current, hcurrent⟩ :
      ∃ current, inspect reg dbs database a.name roles (.ok rows) = .ok current :=
    ⟨_, by rw [inspect, hreg]; simp only [bind, Except.bind, hscanned]; rfl⟩
  refine ⟨current, hcurrent, fun g => ?_⟩
  rw [mem_inspect hcurrent]
  constructor
  · intro ⟨l, hl, r, hr, g₀, hto, hreport⟩
    cases hl
    rw [hreg, rowTo_eq ha (hfits r hr)] at hto
    cases hto
    exact ⟨r, hr, (report_grantOf ha hreg hdb (hfits r hr)).mp hreport⟩
  · intro ⟨r, hr, hg⟩
    refine ⟨rows, rfl, r, hr, _, ?_, (report_grantOf ha hreg hdb (hfits r hr)).mpr hg⟩
    rw [hreg]
    exact rowTo_eq ha (hfits r hr)

end Inspect

/-- The rows of the ACL, as its inspection query returns them. -/
structure Store (k : Kind) where
  rows : List Row
  fits : ∀ r ∈ rows, k.fits r = true
  keyed : (rows.map Row.full).Nodup
  typed : ∀ r ∈ rows, r.type = "" → ∃ schema, r = .mark schema
  marked : ∀ schema, .mark schema ∈ rows → ∀ r ∈ rows, r.onSchema = some schema → r = .mark schema

namespace Store
variable {k : Kind}

theorem eq_of_full (s : Store k) {r' : Row} (hr : r ∈ s.rows) (hr' : r' ∈ s.rows)
    (h : r.full = r'.full) : r = r' := List.inj_on_of_nodup_map s.keyed hr hr' h

/-- The rows without those of one grant. -/
def without (s : Store k) (row : Row) : List Row := s.rows.filter fun r => r.full ≠ row.full

theorem mem_without {s : Store k} {row : Row} :
    r ∈ s.without row ↔ r ∈ s.rows ∧ r.full ≠ row.full := by simp [without]

/-- `REVOKE`: the grant goes, whole or partial. -/
def revoke (s : Store k) (g : Grant) : Store k where
  rows := s.without (k.rowOf g)
  fits := fun r hr => s.fits r (mem_without.mp hr).1
  keyed := s.keyed.sublist (List.filter_sublist.map _)
  typed := fun r hr => s.typed r (mem_without.mp hr).1
  marked := fun schema hm r hr => s.marked schema (mem_without.mp hm).1 r (mem_without.mp hr).1

/-- `GRANT` on a schema without a mark: the grant is whole. -/
def add (s : Store k) (g : Grant) (htype : g.type ≠ "")
    (hmark : ∀ schema, (k.rowOf g).onSchema = some schema → .mark schema ∉ s.rows) : Store k where
  rows := s.without (k.rowOf g) ++ [(k.rowOf g).full]
  fits := by
    intro r hr
    rcases List.mem_append.mp hr with hr | hr
    · exact s.fits r (mem_without.mp hr).1
    · rw [List.mem_singleton.mp hr]
      exact Kind.fits_full (Kind.fits_rowOf k g)
  keyed := by
    rw [List.map_append, List.map_singleton, Row.full_full]
    refine (s.keyed.sublist (List.filter_sublist.map _)).append (List.nodup_singleton _) ?_
    intro x hx hx'
    obtain ⟨r, hr, rfl⟩ := List.mem_map.mp hx
    exact (mem_without.mp hr).2 (List.mem_singleton.mp hx')
  typed := by
    intro r hr he
    rcases List.mem_append.mp hr with hr | hr
    · exact s.typed r (mem_without.mp hr).1 he
    · rw [List.mem_singleton.mp hr, Row.full_type, Kind.rowOf_type] at he
      exact absurd he htype
  marked := by
    intro schema hm r hr hon
    have hold : .mark schema ∈ s.rows := by
      rcases List.mem_append.mp hm with hm | hm
      · exact (mem_without.mp hm).1
      · have he := congrArg Row.type (List.mem_singleton.mp hm)
        rw [Row.mark_type, Row.full_type, Kind.rowOf_type] at he
        exact absurd he.symm htype
    rcases List.mem_append.mp hr with hr | hr
    · exact s.marked schema hold r (mem_without.mp hr).1 hon
    · rw [List.mem_singleton.mp hr] at hon
      exact absurd hold (hmark schema (by rw [← hon]; cases k <;> rfl))

/-- The grant is on a schema with a mark. -/
def onMark (s : Store k) (g : Grant) : Bool :=
  match (k.rowOf g).onSchema with
  | none => false
  | some schema => .mark schema ∈ s.rows

theorem onMark_eq_false {s : Store k} {g : Grant} : s.onMark g = false ↔
    ∀ schema, (k.rowOf g).onSchema = some schema → .mark schema ∉ s.rows := by
  unfold onMark
  cases (k.rowOf g).onSchema <;> simp

/-- `GRANT`. Without a privilege type there is nothing to grant. -/
def grant (s : Store k) (g : Grant) : Store k :=
  if h : g.type ≠ "" ∧ s.onMark g = false then s.add g h.1 (onMark_eq_false.mp h.2) else s

def exec (s : Store k) : Stmt → Store k
  | .revoke g => s.revoke g
  | .grant g => s.grant g

def execAll (s : Store k) (queries : List (SyncQuery Stmt)) : Store k :=
  queries.foldl (fun s q => s.exec q.stmt) s

end Store

end Ldap2pg.Privileges
