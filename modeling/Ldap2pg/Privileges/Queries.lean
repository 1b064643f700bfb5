import Ldap2pg.Privileges.PgCatalog

/-! # The inspection queries of `ALL ... IN SCHEMA`

Each query compares, for every schema, the names of the objects it selects with
the names of those on which a grantee holds a privilege. The four differ by the
objects, by the pattern of the schemas they leave out, and by the aggregate. The
final `SELECT` is the same: `selectGrants`. -/
namespace Ldap2pg.Privileges
open Lib.Sql

/-- A row of the `grants` table: the objects of a schema on which a grantee holds a
privilege. -/
structure Granted where
  nsp : Nat
  privilege : String
  grantee : Nat
  objects : List String
  deriving DecidableEq

/-- `GROUP BY 1, 2, 3` of the rows of `aclexplode`. -/
def aggregate (agg : List String → List String) (rows : List (Nat × String × AclItem)) :
    List Granted :=
  (groupBy (fun row => (row.1, row.2.2.privilege, row.2.2.grantee)) rows).map fun group =>
    ⟨group.1.1, group.1.2.1, group.1.2.2, agg (group.2.map fun row => row.2.1)⟩

/-- The rows of `aclexplode` for the objects. -/
def grantRows {Obj : Type} (nsp : Obj → Nat) (name : Obj → String) (acl : Obj → List AclItem)
    (objects : List Obj) : List (Nat × String × AclItem) :=
  objects.flatMap fun obj => (acl obj).map fun grt => (nsp obj, name obj, grt)

/-- The final `SELECT` of the queries. -/
def selectGrants (roles : PgRoles) (types : List String) (nsps : List (Namespace × List String))
    (grants : List Granted) : List Row :=
  let rows := leftJoin (fun nsp g => g.nsp == nsp.1.oid && types.contains g.privilege) nsps grants
  let rows := leftJoin (fun row grantee => row.2.map Granted.grantee == some grantee.oid) rows
    roles.rows
  (rows.filter fun row => !(row.1.1.2 != [] && row.1.2.isNone)).map fun row =>
    .ofDatabase ((row.1.2.map Granted.privilege).getD "") row.1.1.1.nspname
      ((row.2.map PgRole.rolname).getD "public")
      (row.1.1.2 != (row.1.2.map Granted.objects).getD [])

/-- `nspname NOT LIKE pattern AND nspname <> 'pg_toast'`. -/
def keepNamespace (pattern : String) (nsp : Namespace) : Bool :=
  !like pattern.toList nsp.nspname.toList && nsp.nspname != "pg_toast"

/-- The schemas with the names of their objects: `GROUP BY 1, 2` of a join, the rows of
which are kept or not. -/
def namespaceObjects {Obj : Type} (agg : List String → List String) (name : Obj → String)
    (on : Namespace → Obj → Bool) (keep : Namespace × Option Obj → Bool) (nsps : Namespaces)
    (objects : List Obj) : List (Namespace × List String) :=
  (groupBy Prod.fst ((leftJoin on nsps.rows objects).filter keep)).map fun group =>
    (group.1, agg (group.2.filterMap fun row => row.2.map name))

/-! ## Tables and sequences -/

/-- `namespace_rels`. -/
def namespaceRels (pattern : String) (kinds : List RelKind) (c : Catalogue) :
    List (Namespace × List String) :=
  namespaceObjects arrayAgg Relation.relname
    (fun nsp rel => rel.relnamespace == nsp.oid && kinds.contains rel.relkind)
    (fun row => keepNamespace pattern row.1) c.namespaces c.relations

def relGrants (kinds : List RelKind) (c : Catalogue) : List Granted :=
  aggregate arrayAgg (grantRows Relation.relnamespace Relation.relname
    (fun rel => aclexplode rel.relacl) (c.relations.filter fun rel => kinds.contains rel.relkind))

/-- The pattern of both queries has two backslashes, and strings of SQL no escapes. -/
def relPattern : String := "pg\\\\_%temp\\\\_%"

def inspectRels (kinds : List RelKind) (c : Catalogue) (types : List String) : List Row :=
  selectGrants c.roles types (namespaceRels relPattern kinds c) (relGrants kinds c)

/-- `all-tables.sql`. -/
def inspectAllTables : Catalogue → List String → List Row :=
  inspectRels [.table, .view, .foreignTable, .matview]

/-- `all-sequences.sql`. -/
def inspectAllSequences : Catalogue → List String → List Row := inspectRels [.sequence]

/-! ## Functions and routines -/

def procGrants (select : Proc → Bool) (c : Catalogue) : List Granted :=
  aggregate arrayAggDistinct
    (grantRows Proc.pronamespace Proc.proname Proc.acl (c.procs.filter select))

/-- `namespaces`, with the rows of the join that are kept. -/
def namespaceProcs (keep : Namespace × Option Proc → Bool) (c : Catalogue) :
    List (Namespace × List String) :=
  namespaceObjects arrayAggDistinct Proc.proname (fun nsp pro => pro.pronamespace == nsp.oid) keep
    c.namespaces c.procs

def proPattern : String := "pg\\_%temp\\_%"

/-- `rettype.typname <> 'void'`, to skip procedures. -/
def notVoid (pro : Proc) : Bool := pro.rettype != "void"

/-- `all-functions.sql`. `voidret.oid IS NOT NULL` also drops the row of a schema without
function. -/
def inspectAllFunctions (c : Catalogue) (types : List String) : List Row :=
  selectGrants c.roles types
    (namespaceProcs (fun row => keepNamespace proPattern row.1 && row.2.any notVoid) c)
    (procGrants notVoid c)

/-- `all-routines.sql`. -/
def inspectAllRoutines (c : Catalogue) (types : List String) : List Row :=
  selectGrants c.roles types (namespaceProcs (fun row => keepNamespace proPattern row.1) c)
    (procGrants (fun _ => true) c)

/-! ## The tables of objects -/

/-- The items that give a privilege to a grantee. -/
def matchingItems (acl : List AclItem) (privilege : String) (grantee : Nat) : List AclItem :=
  acl.filter fun item => item.privilege == privilege && item.grantee == grantee

def Holds (acl : List AclItem) (privilege : String) (grantee : Nat) : Prop :=
  matchingItems acl privilege grantee ≠ []

theorem holds_iff {acl : List AclItem} {privilege : String} {grantee : Nat} :
    Holds acl privilege grantee ↔
      ∃ item ∈ acl, item.privilege = privilege ∧ item.grantee = grantee := by
  rw [Holds, matchingItems, Ne, List.filter_eq_nil_iff]
  simp

section Tables

theorem mem_aggregate {agg : List String → List String} {rows : List (Nat × String × AclItem)}
    {g : Granted} : g ∈ aggregate agg rows ↔
      (∃ row ∈ rows, (row.1, row.2.2.privilege, row.2.2.grantee) = (g.nsp, g.privilege, g.grantee)) ∧
      g.objects = agg ((rows.filter fun row => (row.1, row.2.2.privilege, row.2.2.grantee) =
        (g.nsp, g.privilege, g.grantee)).map fun row => row.2.1) := by
  constructor
  · intro h
    obtain ⟨⟨k, group⟩, hgroup, rfl⟩ := List.mem_map.mp h
    obtain ⟨hrow, rfl⟩ := mem_groupBy.mp hgroup
    exact ⟨hrow, rfl⟩
  · rintro ⟨hrow, hobjects⟩
    refine List.mem_map.mpr ⟨((g.nsp, g.privilege, g.grantee), _), mem_groupBy.mpr ⟨hrow, rfl⟩, ?_⟩
    rw [← hobjects]

theorem aggregate_keys (agg : List String → List String) (rows : List (Nat × String × AclItem)) :
    ((aggregate agg rows).map fun g => (g.nsp, g.privilege, g.grantee)).Nodup := by
  rw [aggregate, List.map_map]
  exact groupBy_keys_nodup _ rows

section Rows
variable {Obj : Type} {agg : List String → List String} {nspOf : Obj → Nat} {name : Obj → String}
  {acl : Obj → List AclItem} {objects : List Obj} {g : Granted}

theorem mem_grantRows {row : Nat × String × AclItem} : row ∈ grantRows nspOf name acl objects ↔
    ∃ obj ∈ objects, ∃ item ∈ acl obj, row = (nspOf obj, name obj, item) := by
  simp only [grantRows, List.mem_flatMap, List.mem_map, eq_comm]

/-- The grants of a schema name each object once for each item. -/
theorem mem_aggregate_grantRows : g ∈ aggregate agg (grantRows nspOf name acl objects) ↔
    (∃ obj ∈ objects, nspOf obj = g.nsp ∧ Holds (acl obj) g.privilege g.grantee) ∧
      g.objects = agg ((objects.filter fun obj => nspOf obj == g.nsp).flatMap fun obj =>
        List.replicate (matchingItems (acl obj) g.privilege g.grantee).length (name obj)) := by
  rw [mem_aggregate]
  refine and_congr ⟨?_, ?_⟩ ?_
  · rintro ⟨row, hrow, hkey⟩
    obtain ⟨obj, hobj, item, hitem, rfl⟩ := mem_grantRows.mp hrow
    simp only [Prod.mk.injEq] at hkey
    exact ⟨obj, hobj, hkey.1, holds_iff.mpr ⟨item, hitem, hkey.2⟩⟩
  · rintro ⟨obj, hobj, hnsp, hholds⟩
    obtain ⟨item, hitem, hpriv, hgrantee⟩ := holds_iff.mp hholds
    exact ⟨_, mem_grantRows.mpr ⟨obj, hobj, item, hitem, rfl⟩, by rw [hnsp, hpriv, hgrantee]⟩
  · have hnames : ((grantRows nspOf name acl objects).filter fun row =>
          (row.1, row.2.2.privilege, row.2.2.grantee) = (g.nsp, g.privilege, g.grantee)).map
            (fun row => row.2.1) =
        objects.flatMap fun obj => if nspOf obj = g.nsp then
          List.replicate (matchingItems (acl obj) g.privilege g.grantee).length (name obj) else [] := by
      rw [grantRows, List.filter_flatMap, List.map_flatMap]
      refine List.flatMap_congr fun obj _ => ?_
      rw [List.filter_map, List.map_map]
      by_cases hnsp : nspOf obj = g.nsp
      · have hitems : (acl obj).filter ((fun row => decide ((row.1, row.2.2.privilege,
            row.2.2.grantee) = (g.nsp, g.privilege, g.grantee))) ∘ fun grt => (nspOf obj, name obj, grt)) =
              matchingItems (acl obj) g.privilege g.grantee := by
          refine List.filter_congr fun item _ => ?_
          simp [hnsp, Bool.beq_eq_decide_eq]
        rw [if_pos hnsp, hitems]
        exact List.map_const'
      · rw [if_neg hnsp, List.map_eq_nil_iff, List.filter_eq_nil_iff]
        exact fun item _ h => hnsp (by simpa using congrArg Prod.fst (of_decide_eq_true h))
    rw [hnames, ← flatMap_filter_eq (q := fun obj => nspOf obj == g.nsp)]
    · refine Iff.of_eq (congrArg _ (congrArg agg (List.flatMap_congr fun obj hobj => ?_)))
      rw [if_pos (by simpa using (List.mem_filter.mp hobj).2)]
    · exact fun obj _ h => if_neg (by simpa using h)

theorem known_of_mem_aggregate {roles : PgRoles}
    (h : ∀ obj ∈ objects, ∀ item ∈ acl obj, roles.Known item.grantee)
    (hg : g ∈ aggregate agg (grantRows nspOf name acl objects)) : roles.Known g.grantee := by
  obtain ⟨obj, hobj, _, hholds⟩ := (mem_aggregate_grantRows.mp hg).1
  obtain ⟨item, hitem, _, hgrantee⟩ := holds_iff.mp hholds
  exact hgrantee ▸ h obj hobj item hitem

theorem named_of_mem_aggregate (hg : g ∈ aggregate agg (grantRows nspOf name acl objects)) :
    g.privilege ≠ "" := by
  obtain ⟨obj, _, _, hholds⟩ := (mem_aggregate_grantRows.mp hg).1
  obtain ⟨item, _, hpriv, _⟩ := holds_iff.mp hholds
  exact hpriv ▸ item.named

end Rows

variable {Obj : Type} {agg : List String → List String} {name : Obj → String}
  {on : Namespace → Obj → Bool} {keep : Namespace × Option Obj → Bool} {nsps : Namespaces}
  {objects : List Obj}

theorem mem_namespaceObjects {nsp : Namespace} {names : List String} :
    (nsp, names) ∈ namespaceObjects agg name on keep nsps objects ↔ nsp ∈ nsps.rows ∧
      (joinOne on objects nsp).filter keep ≠ [] ∧
      names = agg (((joinOne on objects nsp).filter keep).filterMap fun row => row.2.map name) := by
  constructor
  · intro h
    obtain ⟨⟨nsp', group⟩, hgroup, heq⟩ := List.mem_map.mp h
    obtain ⟨hnsp, rfl, hne⟩ := (mem_groupBy_leftJoin nsps.nodup).mp hgroup
    cases heq
    exact ⟨hnsp, hne, rfl⟩
  · rintro ⟨hnsp, hne, rfl⟩
    exact List.mem_map.mpr ⟨(nsp, _), (mem_groupBy_leftJoin nsps.nodup).mpr ⟨hnsp, rfl, hne⟩, rfl⟩

theorem namespaceObjects_names :
    ((namespaceObjects agg name on keep nsps objects).map fun n => n.1.nspname).Nodup := by
  have hkeys : ((namespaceObjects agg name on keep nsps objects).map Prod.fst).Nodup := by
    rw [namespaceObjects, List.map_map]
    exact groupBy_keys_nodup _ _
  have hin : ∀ nsp ∈ (namespaceObjects agg name on keep nsps objects).map Prod.fst,
      nsp ∈ nsps.rows := by
    intro nsp h
    obtain ⟨n, hn, rfl⟩ := List.mem_map.mp h
    exact (mem_namespaceObjects.mp hn).1
  have hmap := hkeys.map_on fun a ha b hb h =>
    List.inj_on_of_nodup_map nsps.names (hin a ha) (hin b hb) h
  rwa [List.map_map] at hmap

end Tables

/-! ## The final `SELECT` -/

section Select
variable {roles : PgRoles} {types : List String} {nsps : List (Namespace × List String)}
  {grants : List Granted}

/-- The row of a privilege that is held on some of the objects. -/
def grantRow (roles : PgRoles) (nsp : Namespace) (objects : List String) (g : Granted) : Row :=
  .ofDatabase g.privilege nsp.nspname (roles.nameOf g.grantee) (objects != g.objects)

/-- The mark of a schema without object. -/
def emptyRow (nsp : Namespace) : Row := .ofDatabase "" nsp.nspname "public" false

/-- The rows of one schema. -/
def rowsOf (roles : PgRoles) (types : List String) (grants : List Granted)
    (nsp : Namespace × List String) : List Row :=
  match grants.filter fun g => g.nsp == nsp.1.oid && types.contains g.privilege with
  | [] => if nsp.2 = [] then [emptyRow nsp.1] else []
  | held => held.map (grantRow roles nsp.1 nsp.2)

/-- **Each grantee and privilege of a schema has its row**, as the join on roles finds at
most one. -/
theorem selectGrants_eq : selectGrants roles types nsps grants =
    nsps.flatMap (rowsOf roles types grants) := by
  have hroles : ∀ row : (Namespace × List String) × Option Granted,
      joinOne (fun row (grantee : PgRole) => row.2.map Granted.grantee == some grantee.oid)
        roles.rows row =
      [(row, roles.rows.find? fun grantee => row.2.map Granted.grantee == some grantee.oid)] := by
    intro row
    refine joinOne_unique roles.oids.of_map fun a ha b hb hmatch hmatch' => ?_
    refine roles.eq_of_oid ha hb (Option.some.inj ?_)
    rw [← eq_of_beq hmatch, ← eq_of_beq hmatch']
  simp only [selectGrants, leftJoin]
  rw [List.flatMap_assoc, List.filter_flatMap, List.map_flatMap]
  refine List.flatMap_congr fun nsp _ => ?_
  rw [List.flatMap_congr fun row _ => hroles row, ← List.map_eq_flatMap]
  unfold joinOne rowsOf
  cases grants.filter fun g => g.nsp == nsp.1.oid && types.contains g.privilege with
  | nil =>
    -- nobody has the oid of a missing grantee
    have hnobody : roles.rows.find? (fun _ => false) = none := List.find?_eq_none.mpr (by simp)
    by_cases hempty : nsp.2 = [] <;> simp [hempty, emptyRow, hnobody]
  | cons g held =>
    show ((((g :: held).map _).map _).filter _).map _ = (g :: held).map _
    rw [List.filter_eq_self.mpr (by simp), List.map_map, List.map_map]
    rfl

/-! ## Which rows there are -/

variable {nsp : Namespace} {objects : List String}

/-- The rows about a privilege of a grantee on a schema. -/
def isAbout (privilege schema grantee : String) : Row → Bool
  | .ofDatabase p s g _ => p == privilege && s == schema && g == grantee
  | _ => false

/-- The rows of a schema on which something is held. -/
theorem rowsOf_held {n : Namespace × List String} {g : Granted} (hg : g ∈ grants)
    (hnsp : g.nsp = n.1.oid) (htype : g.privilege ∈ types) :
    rowsOf roles types grants n = (grants.filter fun g => g.nsp == n.1.oid &&
      types.contains g.privilege).map (grantRow roles n.1 n.2) := by
  unfold rowsOf
  split
  · next hnil =>
    have hin : g ∈ grants.filter fun g => g.nsp == n.1.oid && types.contains g.privilege :=
      List.mem_filter.mpr ⟨hg, by simp [hnsp, htype]⟩
    exact absurd (hnil ▸ hin) List.not_mem_nil
  · rfl

theorem mem_rowsOf {n : Namespace × List String} {row : Row} :
    row ∈ rowsOf roles types grants n ↔
      (∃ g ∈ grants, (g.nsp = n.1.oid ∧ g.privilege ∈ types) ∧ row = grantRow roles n.1 n.2 g) ∨
      ((∀ g ∈ grants, ¬ (g.nsp = n.1.oid ∧ g.privilege ∈ types)) ∧ n.2 = [] ∧ row = emptyRow n.1) := by
  by_cases hheld : ∃ g ∈ grants, g.nsp = n.1.oid ∧ g.privilege ∈ types
  · obtain ⟨g, hg, hnsp, htype⟩ := hheld
    rw [rowsOf_held hg hnsp htype, or_iff_left fun h => h.1 g hg ⟨hnsp, htype⟩]
    simp only [List.mem_map, List.mem_filter, Bool.and_eq_true, beq_iff_eq, List.contains_iff_mem]
    exact ⟨fun ⟨g, ⟨hg, h⟩, hrow⟩ => ⟨g, hg, h, hrow.symm⟩,
      fun ⟨g, hg, h, hrow⟩ => ⟨g, ⟨hg, h⟩, hrow.symm⟩⟩
  · have hnone : ∀ g ∈ grants, ¬ (g.nsp = n.1.oid ∧ g.privilege ∈ types) :=
      fun g hg h => hheld ⟨g, hg, h⟩
    have hnil : (grants.filter fun g => g.nsp == n.1.oid && types.contains g.privilege) = [] :=
      List.filter_eq_nil_iff.mpr fun g hg => by simpa using hnone g hg
    rw [rowsOf, hnil, or_iff_right fun ⟨g, hg, h, _⟩ => hnone g hg h, and_iff_right hnone]
    by_cases hempty : n.2 = [] <;> simp [hempty]

/-- A row about a privilege comes from a grant of it. -/
theorem exists_of_about {p schema grantee : String} {row : Row} (hp : p ≠ "")
    (hrow : row ∈ nsps.flatMap (rowsOf roles types grants))
    (habout : isAbout p schema grantee row = true) :
    ∃ n ∈ nsps, n.1.nspname = schema ∧ ∃ g ∈ grants, g.nsp = n.1.oid ∧ g.privilege = p ∧
      roles.nameOf g.grantee = grantee := by
  obtain ⟨n, hn, hrow⟩ := List.mem_flatMap.mp hrow
  rcases mem_rowsOf.mp hrow with ⟨g, hg, hon, rfl⟩ | ⟨_, _, rfl⟩ <;>
    simp only [isAbout, grantRow, emptyRow, Bool.and_eq_true, beq_iff_eq] at habout
  · exact ⟨n, hn, habout.1.2, g, hg, hon.1, habout.1.1, habout.2⟩
  · exact absurd habout.1.1.symm hp

theorem select_single (hnsps : (nsps.map fun n => n.1.nspname).Nodup)
    (hkeys : (grants.map fun g => (g.nsp, g.privilege, g.grantee)).Nodup)
    (hknown : ∀ g ∈ grants, roles.Known g.grantee) (hnsp : (nsp, objects) ∈ nsps)
    {g : Granted} (hg : g ∈ grants) (hgnsp : g.nsp = nsp.oid) (htype : g.privilege ∈ types) :
    (selectGrants roles types nsps grants).filter
        (isAbout g.privilege nsp.nspname (roles.nameOf g.grantee)) =
      [grantRow roles nsp objects g] := by
  rw [selectGrants_eq, List.filter_flatMap,
    flatMap_eq_of_unique (List.Nodup.of_map _ hnsps) hnsp fun n hn hne => ?_]
  · rw [rowsOf_held hg hgnsp htype, List.filter_map, filter_eq_singleton (a := g)]
    · rfl
    · exact (List.Nodup.of_map _ hkeys).filter _
    · exact List.mem_filter.mpr ⟨hg, by simp [hgnsp, htype]⟩
    · intro b hb
      obtain ⟨hb, hon⟩ := List.mem_filter.mp hb
      simp only [Bool.and_eq_true, beq_iff_eq] at hon
      refine ⟨fun h => ?_, fun h => by simp [h, isAbout, grantRow]⟩
      simp only [Function.comp, isAbout, grantRow, Bool.and_eq_true, beq_iff_eq] at h
      have hgrantee := PgRoles.nameOf_inj (hknown b hb) (hknown g hg) h.2
      exact List.inj_on_of_nodup_map hkeys hb hg
        (by rw [hon.1, hgnsp, h.1.1, hgrantee])
  · refine List.filter_eq_nil_iff.mpr fun row hrow habout => hne ?_
    refine List.inj_on_of_nodup_map hnsps hn hnsp ?_
    rcases mem_rowsOf.mp hrow with ⟨b, _, _, rfl⟩ | ⟨_, _, rfl⟩ <;>
      simp only [isAbout, grantRow, emptyRow, Bool.and_eq_true, beq_iff_eq] at habout <;>
      exact habout.1.2

theorem mem_select {row : Row} : row ∈ selectGrants roles types nsps grants ↔
    ∃ n ∈ nsps, (∃ g ∈ grants, (g.nsp = n.1.oid ∧ g.privilege ∈ types) ∧
        row = grantRow roles n.1 n.2 g) ∨
      ((∀ g ∈ grants, ¬ (g.nsp = n.1.oid ∧ g.privilege ∈ types)) ∧ n.2 = [] ∧ row = emptyRow n.1) := by
  rw [selectGrants_eq, List.mem_flatMap]
  exact exists_congr fun n => and_congr_right fun _ => mem_rowsOf

/-- The mark of a schema is there when it has no object and nothing is held on it. -/
theorem mark_mem_select (hnamed : ∀ g ∈ grants, g.privilege ≠ "") :
    emptyRow nsp ∈ selectGrants roles types nsps grants ↔ ∃ n ∈ nsps, n.1.nspname = nsp.nspname ∧
      n.2 = [] ∧ ∀ g ∈ grants, ¬ (g.nsp = n.1.oid ∧ g.privilege ∈ types) := by
  rw [mem_select]
  refine exists_congr fun n => and_congr_right fun _ => ⟨?_, ?_⟩
  · rintro (⟨g, hg, _, hrow⟩ | ⟨hnone, hempty, hrow⟩)
    · simp only [emptyRow, grantRow, Row.ofDatabase.injEq] at hrow
      exact absurd hrow.1.symm (hnamed g hg)
    · simp only [emptyRow, Row.ofDatabase.injEq] at hrow
      exact ⟨hrow.2.1.symm, hempty, hnone⟩
  · rintro ⟨hname, hempty, hnone⟩
    exact .inr ⟨hnone, hempty, by rw [emptyRow, emptyRow, hname]⟩

theorem select_ofDatabase {row : Row} (h : row ∈ selectGrants roles types nsps grants) :
    ∃ type schema grantee isPartial, row = .ofDatabase type schema grantee isPartial := by
  obtain ⟨n, _, ⟨g, _, _, rfl⟩ | ⟨_, _, rfl⟩⟩ := mem_select.mp h <;> exact ⟨_, _, _, _, rfl⟩

end Select

end Ldap2pg.Privileges
