import Ldap2pg.Privileges.Queries

/-! # Partial grants

A grant on all objects of a schema is partial when some of them lack it. The
queries decide it by comparing names: for tables and sequences, with one name for
each ACL item, whoever granted it; for functions, with the names once each,
whatever the arguments. -/
namespace Ldap2pg.Privileges.Partial
open Lib.Sql

variable {c : Catalogue} {types : List String} {nsp : Namespace} {p : String} {o : Nat}

theorem keep_iff (htoast : nsp.nspname ≠ "pg_toast") {pattern : String} :
    keepNamespace pattern nsp = true ↔ like pattern.toList nsp.nspname.toList = false := by
  simp [keepNamespace, htoast]

theorem ne_empty_of_holds {acl : List AclItem} (h : Holds acl p o) : p ≠ "" := by
  obtain ⟨item, _, rfl, _⟩ := holds_iff.mp h
  exact item.named

/-- Two namespaces of one name are the same. -/
theorem eq_of_nspname {n : Namespace} (hn : n ∈ c.namespaces.rows) (hnsp : nsp ∈ c.namespaces.rows)
    (h : n.nspname = nsp.nspname) : n = nsp :=
  List.inj_on_of_nodup_map c.namespaces.names hn hnsp h

/-! A schema and three roles for the examples. -/

def sampleRoles : PgRoles where
  rows := [⟨10, "owner"⟩, ⟨11, "alice"⟩, ⟨12, "bob"⟩]
  oids := by decide
  names := by decide
  reserved := by decide

def alice : sampleRoles.Grantee := ⟨11, .inr ⟨⟨11, "alice"⟩, by decide, rfl⟩⟩

def bob : sampleRoles.Grantee := ⟨12, .inr ⟨⟨12, "bob"⟩, by decide, rfl⟩⟩

theorem bob_name : sampleRoles.nameOf 12 = "bob" := by decide +kernel

def app : Namespace := ⟨2200, "app"⟩

def sampleNamespaces : Namespaces where
  rows := [app]
  oids := by decide
  names := by decide
  nonzero := by decide

/-- The flag of the only row about a privilege. -/
theorem only_row_iff {rows : List Row} {schema grantee : String} {flag : Bool} {P : Prop}
    (h : rows = [.ofDatabase p schema grantee flag]) :
    (∃ isPartial, rows = [.ofDatabase p schema grantee isPartial] ∧ (isPartial = false ↔ P)) ↔
      (flag = false ↔ P) := by
  rw [h]
  simp

instance (acl : List AclItem) (p : String) (o : Nat) : Decidable (Holds acl p o) :=
  inferInstanceAs (Decidable (_ ≠ _))

/-! ## Tables and sequences -/

section Relations
variable {kinds : List RelKind}

/-- The relations of some kinds in a schema. -/
def relsIn (c : Catalogue) (kinds : List RelKind) (nsp : Namespace) : List Relation :=
  c.relations.filter fun rel => rel.relnamespace == nsp.oid && kinds.contains rel.relkind

/-- A grantee holds a privilege on a relation. -/
def RelHolds (p : String) (o : Nat) (rel : Relation) : Prop := Holds (aclexplode rel.relacl) p o

instance (p : String) (o : Nat) : DecidablePred (RelHolds p o) :=
  fun _ => inferInstanceAs (Decidable (Holds _ _ _))

theorem relHolds_iff {rel : Relation} :
    RelHolds p o rel ↔ 0 < (matchingItems (aclexplode rel.relacl) p o).length :=
  List.length_pos_iff.symm

theorem mem_relsIn {rel : Relation} : rel ∈ relsIn c kinds nsp ↔
    (rel ∈ c.relations ∧ rel.relkind ∈ kinds) ∧ rel.relnamespace = nsp.oid := by
  simp only [relsIn, List.mem_filter, Bool.and_eq_true, beq_iff_eq, List.contains_iff_mem, and_assoc,
    and_comm]

theorem mem_namespaceRels {pattern : String} {names : List String} :
    (nsp, names) ∈ namespaceRels pattern kinds c ↔ nsp ∈ c.namespaces.rows ∧
      keepNamespace pattern nsp = true ∧
      names = arrayAgg ((relsIn c kinds nsp).map Relation.relname) := by
  rw [namespaceRels, mem_namespaceObjects, filter_joinOne (keepNamespace pattern)]
  by_cases hkeep : keepNamespace pattern nsp = true
  · rw [if_pos hkeep, joinOne_values]
    simp only [hkeep, true_and, ne_eq, joinOne_ne_nil, not_false_eq_true]
    rfl
  · simp [hkeep]

theorem relnames_nodup : ((relsIn c kinds nsp).map Relation.relname).Nodup := by
  refine (List.Nodup.of_map _ c.relnames).filter _ |>.map_on fun a ha b hb h => ?_
  obtain ⟨⟨ha, _⟩, hnsp⟩ := mem_relsIn.mp ha
  obtain ⟨⟨hb, _⟩, hnsp'⟩ := mem_relsIn.mp hb
  exact List.inj_on_of_nodup_map c.relnames ha hb (by rw [hnsp, hnsp', h])

theorem relGrants_known : ∀ g ∈ relGrants kinds c, c.roles.Known g.grantee := fun _ hg =>
  known_of_mem_aggregate (fun rel hrel => c.relgrantees rel (List.mem_of_mem_filter hrel)) hg

theorem mem_relGrants {objects : List String} : ⟨nsp.oid, p, o, objects⟩ ∈ relGrants kinds c ↔
    (∃ rel ∈ relsIn c kinds nsp, RelHolds p o rel) ∧
      objects = arrayAgg ((relsIn c kinds nsp).flatMap fun rel => List.replicate
        (matchingItems (aclexplode rel.relacl) p o).length rel.relname) := by
  rw [relGrants, mem_aggregate_grantRows]
  refine and_congr ⟨?_, ?_⟩ ?_
  · rintro ⟨rel, hrel, hnsp, h⟩
    obtain ⟨hrel, hkind⟩ := List.mem_filter.mp hrel
    exact ⟨rel, mem_relsIn.mpr ⟨⟨hrel, List.contains_iff_mem.mp hkind⟩, hnsp⟩, h⟩
  · rintro ⟨rel, hrel, h⟩
    obtain ⟨⟨hrel, hkind⟩, hnsp⟩ := mem_relsIn.mp hrel
    exact ⟨rel, List.mem_filter.mpr ⟨hrel, List.contains_iff_mem.mpr hkind⟩, hnsp, h⟩
  · rw [List.filter_filter]
    rfl

/-- **The row of a privilege on tables or sequences**: it is not partial when each relation
that the query selects has it from exactly one item. -/
theorem rel_row (hnsp : nsp ∈ c.namespaces.rows) (hkeep : keepNamespace relPattern nsp = true)
    (hp : p ∈ types) (hheld : ∃ rel ∈ relsIn c kinds nsp, RelHolds p o rel) :
    ∃ isPartial, (inspectRels kinds c types).filter (isAbout p nsp.nspname (c.roles.nameOf o)) =
        [.ofDatabase p nsp.nspname (c.roles.nameOf o) isPartial] ∧
      (isPartial = false ↔
        ∀ rel ∈ relsIn c kinds nsp, (matchingItems (aclexplode rel.relacl) p o).length = 1) := by
  have hn : (nsp, arrayAgg ((relsIn c kinds nsp).map Relation.relname)) ∈
      namespaceRels relPattern kinds c := mem_namespaceRels.mpr ⟨hnsp, hkeep, rfl⟩
  have hsingle := select_single namespaceObjects_names (aggregate_keys _ _) relGrants_known
    hn (mem_relGrants.mpr ⟨hheld, rfl⟩) rfl hp
  refine ⟨_, hsingle, ?_⟩
  rw [bne_eq_false_iff_eq, arrayAgg_eq_iff, perm_replicate_iff relnames_nodup]

/-- A schema that the query leaves out has no row. -/
theorem rel_none (hnsp : nsp ∈ c.namespaces.rows) (hkeep : keepNamespace relPattern nsp = false)
    (hp : p ≠ "") (grantee : String) :
    (inspectRels kinds c types).filter (isAbout p nsp.nspname grantee) = [] := by
  refine List.filter_eq_nil_iff.mpr fun row hrow habout => ?_
  rw [inspectRels, selectGrants_eq] at hrow
  obtain ⟨⟨n, names⟩, hn, hname, _⟩ := exists_of_about hp hrow habout
  obtain ⟨hn, hkeep', _⟩ := mem_namespaceRels.mp hn
  rw [eq_of_nspname hn hnsp hname, hkeep] at hkeep'
  cases hkeep'

inductive RelClass where
  | tables | sequences

/-- The kinds that `GRANT ... ON ALL ... IN SCHEMA` is about. -/
def RelClass.members : RelClass → List RelKind
  | .tables => [.table, .view, .foreignTable, .matview, .partitioned]
  | .sequences => [.sequence]

/-- The kinds that the query selects. -/
def RelClass.selected : RelClass → List RelKind
  | .tables => [.table, .view, .foreignTable, .matview]
  | .sequences => [.sequence]

def RelClass.inspect : RelClass → Catalogue → List String → List Row
  | .tables => inspectAllTables
  | .sequences => inspectAllSequences

theorem RelClass.inspect_eq (k : RelClass) : k.inspect = inspectRels k.selected := by
  cases k <;> rfl

theorem RelClass.member_of_selected {k : RelClass} {kind : RelKind} (h : kind ∈ k.selected) :
    kind ∈ k.members := by
  cases k <;> revert kind <;> decide

/-- **Partial detection on tables and sequences is exact**, for a privilege held on some
relation of a schema, if and only if the query does not leave the schema out and,
when every relation it selects has the privilege, one of them has it from several
items exactly when one that it does not select lacks it. -/
theorem rel_partial_exact_iff (k : RelClass) (hnsp : nsp ∈ c.namespaces.rows)
    (htoast : nsp.nspname ≠ "pg_toast") (hp : p ∈ types)
    (hheld : ∃ rel ∈ relsIn c k.selected nsp, RelHolds p o rel) :
    (∃ isPartial, (k.inspect c types).filter (isAbout p nsp.nspname (c.roles.nameOf o)) =
        [.ofDatabase p nsp.nspname (c.roles.nameOf o) isPartial] ∧
      (isPartial = false ↔ ∀ rel ∈ relsIn c k.members nsp, RelHolds p o rel)) ↔
    like relPattern.toList nsp.nspname.toList = false ∧
      ((∃ rel ∈ relsIn c k.selected nsp, ¬ RelHolds p o rel) ∨
        ((∃ rel ∈ relsIn c k.selected nsp, 2 ≤ (matchingItems (aclexplode rel.relacl) p o).length) ↔
          ∃ rel ∈ relsIn c k.members nsp, rel.relkind ∉ k.selected ∧ ¬ RelHolds p o rel)) := by
  rw [k.inspect_eq, ← keep_iff htoast]
  cases hkeep : keepNamespace relPattern nsp with
  | false =>
    obtain ⟨rel, _, hholds⟩ := hheld
    rw [rel_none hnsp hkeep (ne_empty_of_holds hholds)]
    exact iff_of_false (fun ⟨_, h, _⟩ => absurd h (by simp)) (by simp)
  | true =>
    obtain ⟨isPartial, hrow, hone⟩ := rel_row hnsp hkeep hp hheld
    have hone_iff : (∀ rel ∈ relsIn c k.selected nsp,
          (matchingItems (aclexplode rel.relacl) p o).length = 1) ↔
        ¬ (∃ rel ∈ relsIn c k.selected nsp, ¬ RelHolds p o rel) ∧
        ¬ ∃ rel ∈ relsIn c k.selected nsp, 2 ≤ (matchingItems (aclexplode rel.relacl) p o).length := by
      simp only [not_exists, not_and, not_not, relHolds_iff]
      refine ⟨fun h => ⟨fun rel hrel => ?_, fun rel hrel => ?_⟩, fun ⟨h, h'⟩ rel hrel => ?_⟩
      · rw [h rel hrel]; exact Nat.one_pos
      · rw [h rel hrel]; decide
      · have hpos := h rel hrel
        have hfew := h' rel hrel
        omega
    have hall_iff : (∀ rel ∈ relsIn c k.members nsp, RelHolds p o rel) ↔
        ¬ (∃ rel ∈ relsIn c k.selected nsp, ¬ RelHolds p o rel) ∧
        ¬ ∃ rel ∈ relsIn c k.members nsp, rel.relkind ∉ k.selected ∧ ¬ RelHolds p o rel := by
      simp only [not_exists, not_and, not_not]
      refine ⟨fun h => ⟨fun rel hrel => h rel ?_, fun rel hrel _ => h rel hrel⟩,
        fun ⟨h, h'⟩ rel hrel => ?_⟩
      · obtain ⟨⟨hin, hkind⟩, hnsp⟩ := mem_relsIn.mp hrel
        exact mem_relsIn.mpr ⟨⟨hin, k.member_of_selected hkind⟩, hnsp⟩
      · obtain ⟨⟨hin, _⟩, hnsp⟩ := mem_relsIn.mp hrel
        by_cases hkind : rel.relkind ∈ k.selected
        · exact h rel (mem_relsIn.mpr ⟨⟨hin, hkind⟩, hnsp⟩)
        · exact h' rel hrel hkind
    rw [only_row_iff hrow, hone, hone_iff, hall_iff, and_iff_right rfl]
    by_cases hmissing : ∃ rel ∈ relsIn c k.selected nsp, ¬ RelHolds p o rel
    · exact iff_of_true (by simp [hmissing]) (.inl hmissing)
    · rw [or_iff_right hmissing, and_iff_right hmissing, and_iff_right hmissing, not_iff_not]

/-- A table on which `bob` has `SELECT` from some grantors. -/
def tableGrantedBy (grantors : List Nat) : Catalogue where
  roles := sampleRoles
  namespaces := sampleNamespaces
  relations := [⟨app.oid, "orders", .table,
    some (grantors.map fun grantor => ⟨grantor, 12, "SELECT", by decide⟩)⟩]
  procs := []
  relnames := List.nodup_singleton _
  relgrantees := by simp [aclexplode, PgRoles.Known, sampleRoles]
  prograntees := prograntees_nil _

theorem granted_once_whole : ∃ isPartial,
    (inspectAllTables (tableGrantedBy [10]) ["SELECT"]).filter (isAbout "SELECT" "app" "bob") =
        [.ofDatabase "SELECT" "app" "bob" isPartial] ∧
      (isPartial = false ↔
        ∀ rel ∈ relsIn (tableGrantedBy [10]) RelClass.tables.members app, RelHolds "SELECT" 12 rel) := by
  have hnsp : app ∈ (tableGrantedBy [10]).namespaces.rows := List.mem_singleton_self _
  have hp : "SELECT" ∈ ["SELECT"] := List.mem_singleton_self _
  have hheld : ∃ rel ∈ relsIn (tableGrantedBy [10]) RelClass.tables.selected app,
      RelHolds "SELECT" 12 rel := by decide +kernel
  exact bob_name ▸ (rel_partial_exact_iff .tables hnsp (by decide) hp hheld).mpr (by decide +kernel)

/-- The privilege from two grantors counts twice. -/
theorem granted_twice_partial :
    inspectAllTables (tableGrantedBy [10, 11]) ["SELECT"] = [.ofDatabase "SELECT" "app" "bob" true] ∧
      ∀ rel ∈ relsIn (tableGrantedBy [10, 11]) RelClass.tables.members app,
        RelHolds "SELECT" 12 rel := by
  decide +kernel

end Relations

/-! ## Functions and routines -/

section Procs

inductive ProClass where
  | functions | routines
  deriving DecidableEq

/-- What `GRANT ... ON ALL ... IN SCHEMA` is about: procedures are not functions. -/
def ProClass.member : ProClass → Proc → Bool
  | .functions, pro => pro.prokind != .procedure
  | .routines, _ => true

/-- What the query selects. -/
def ProClass.select : ProClass → Proc → Bool
  | .functions => notVoid
  | .routines => fun _ => true

def ProClass.inspect : ProClass → Catalogue → List String → List Row
  | .functions => inspectAllFunctions
  | .routines => inspectAllRoutines

def ProClass.namespaces (c : Catalogue) : ProClass → List (Namespace × List String)
  | .functions => namespaceProcs (fun row => keepNamespace proPattern row.1 && row.2.any notVoid) c
  | .routines => namespaceProcs (fun row => keepNamespace proPattern row.1) c

theorem ProClass.inspect_eq (k : ProClass) : k.inspect c types =
    selectGrants c.roles types (k.namespaces c) (procGrants k.select c) := by
  cases k <;> rfl

def prosIn (c : Catalogue) (select : Proc → Bool) (nsp : Namespace) : List Proc :=
  c.procs.filter fun pro => pro.pronamespace == nsp.oid && select pro

/-- A grantee holds a privilege on a function. -/
def ProHolds (p : String) (o : Nat) (pro : Proc) : Prop := Holds pro.acl p o

instance (p : String) (o : Nat) : DecidablePred (ProHolds p o) :=
  fun _ => inferInstanceAs (Decidable (Holds _ _ _))

variable {k : ProClass} {select : Proc → Bool}

theorem mem_prosIn {pro : Proc} : pro ∈ prosIn c select nsp ↔
    (pro ∈ c.procs ∧ select pro = true) ∧ pro.pronamespace = nsp.oid := by
  simp only [prosIn, List.mem_filter, Bool.and_eq_true, beq_iff_eq, and_assoc]
  exact and_congr_right fun _ => and_comm

theorem mem_namespaces {names : List String} :
    (nsp, names) ∈ k.namespaces c ↔ nsp ∈ c.namespaces.rows ∧
      (keepNamespace proPattern nsp = true ∧ (k = .functions → prosIn c k.select nsp ≠ [])) ∧
      names = arrayAggDistinct ((prosIn c k.select nsp).map Proc.proname) := by
  cases k with
  | functions =>
    rw [ProClass.namespaces, namespaceProcs, mem_namespaceObjects,
      filter_joinOne_any (keepNamespace proPattern)]
    by_cases hkeep : keepNamespace proPattern nsp = true
    · rw [if_pos hkeep, List.filterMap_map, Ne, List.map_eq_nil_iff]
      simp only [hkeep, true_and, true_implies]
      refine and_congr_right fun _ => and_congr_right fun _ => ?_
      exact Iff.of_eq (congrArg _ (congrArg _ (congrFun List.filterMap_eq_map' _)))
    · simp [hkeep]
  | routines =>
    rw [ProClass.namespaces, namespaceProcs, mem_namespaceObjects,
      filter_joinOne (keepNamespace proPattern)]
    by_cases hkeep : keepNamespace proPattern nsp = true
    · rw [if_pos hkeep, joinOne_values]
      simp [hkeep, joinOne_ne_nil, prosIn, ProClass.select]
    · simp [hkeep]

theorem namespaces_names : ((k.namespaces c).map fun n => n.1.nspname).Nodup := by
  cases k <;> exact namespaceObjects_names

theorem procGrants_known : ∀ g ∈ procGrants select c, c.roles.Known g.grantee := fun _ hg =>
  known_of_mem_aggregate (fun pro hpro => c.prograntees pro (List.mem_of_mem_filter hpro)) hg

theorem mem_procGrants {objects : List String} : ⟨nsp.oid, p, o, objects⟩ ∈ procGrants select c ↔
    (∃ pro ∈ prosIn c select nsp, ProHolds p o pro) ∧
      objects = arrayAggDistinct ((prosIn c select nsp).flatMap fun pro => List.replicate
        (matchingItems pro.acl p o).length pro.proname) := by
  rw [procGrants, mem_aggregate_grantRows]
  refine and_congr ⟨?_, ?_⟩ ?_
  · rintro ⟨pro, hpro, hnsp, h⟩
    exact ⟨pro, mem_prosIn.mpr ⟨List.mem_filter.mp hpro, hnsp⟩, h⟩
  · rintro ⟨pro, hpro, h⟩
    obtain ⟨hpro, hnsp⟩ := mem_prosIn.mp hpro
    exact ⟨pro, List.mem_filter.mpr hpro, hnsp, h⟩
  · rw [List.filter_filter]
    rfl

/-- **The row of a privilege on functions or routines**: it is not partial when each name
has a function on which the privilege is held. -/
theorem pro_row (hnsp : nsp ∈ c.namespaces.rows) (hkeep : keepNamespace proPattern nsp = true)
    (hp : p ∈ types) (hheld : ∃ pro ∈ prosIn c k.select nsp, ProHolds p o pro) :
    ∃ isPartial, (k.inspect c types).filter (isAbout p nsp.nspname (c.roles.nameOf o)) =
        [.ofDatabase p nsp.nspname (c.roles.nameOf o) isPartial] ∧
      (isPartial = false ↔ ∀ pro ∈ prosIn c k.select nsp,
        ∃ other ∈ prosIn c k.select nsp, other.proname = pro.proname ∧ ProHolds p o other) := by
  have hn : (nsp, arrayAggDistinct ((prosIn c k.select nsp).map Proc.proname)) ∈ k.namespaces c := by
    refine mem_namespaces.mpr ⟨hnsp, ⟨hkeep, fun _ => ?_⟩, rfl⟩
    obtain ⟨pro, hpro, _⟩ := hheld
    exact List.ne_nil_of_mem hpro
  have hsingle := select_single namespaces_names (aggregate_keys _ _) procGrants_known hn
    (mem_procGrants.mpr ⟨hheld, rfl⟩) rfl hp
  rw [k.inspect_eq]
  refine ⟨_, hsingle, ?_⟩
  rw [bne_eq_false_iff_eq, arrayAggDistinct_eq_iff]
  simp only [List.mem_map, List.mem_flatMap, List.mem_replicate]
  refine ⟨fun h pro hpro => ?_, fun h name => ⟨?_, ?_⟩⟩
  · obtain ⟨other, hother, hlen, hname⟩ := (h pro.proname).mp ⟨pro, hpro, rfl⟩
    exact ⟨other, hother, hname.symm, fun hnil => hlen (by rw [hnil]; rfl)⟩
  · rintro ⟨pro, hpro, rfl⟩
    obtain ⟨other, hother, hname, hholds⟩ := h pro hpro
    exact ⟨other, hother, fun hlen => hholds (List.eq_nil_of_length_eq_zero hlen), hname.symm⟩
  · rintro ⟨pro, hpro, _, rfl⟩
    exact ⟨pro, hpro, rfl⟩

/-- A schema that the query leaves out, or where it finds nothing held, has no row. -/
theorem pro_none (hnsp : nsp ∈ c.namespaces.rows) (hknown : c.roles.Known o) (hp : p ≠ "")
    (hnone : keepNamespace proPattern nsp = true →
      ¬ ∃ pro ∈ prosIn c k.select nsp, ProHolds p o pro) :
    (k.inspect c types).filter (isAbout p nsp.nspname (c.roles.nameOf o)) = [] := by
  refine List.filter_eq_nil_iff.mpr fun row hrow habout => ?_
  rw [k.inspect_eq, selectGrants_eq] at hrow
  obtain ⟨⟨n, names⟩, hn, hname, ⟨oid, privilege, grantee, objects⟩, hg, hgnsp, hpriv, hgrantee⟩ :=
    exists_of_about hp hrow habout
  obtain ⟨hn, ⟨hkeep, _⟩, _⟩ := mem_namespaces.mp hn
  cases eq_of_nspname hn hnsp hname
  cases PgRoles.nameOf_inj (procGrants_known _ hg) hknown hgrantee
  cases hgnsp
  cases hpriv
  exact hnone hkeep (mem_procGrants.mp hg).1

section Condition
variable (c : Catalogue) (k : ProClass) (nsp : Namespace) (p : String) (o : Nat)

/-- The query finds the privilege under no object of this name. -/
abbrev NameLacks (pro : Proc) : Prop :=
  ∀ other ∈ prosIn c k.select nsp, other.proname = pro.proname → ¬ ProHolds p o other

/-- An object of the class lacks the privilege, as all that the query reads under its name. -/
abbrev Noticed : Prop :=
  ∃ pro ∈ prosIn c k.member nsp, k.select pro = true ∧ NameLacks c k nsp p o pro

/-- An object of the class lacks the privilege, and another of the same name has it. -/
abbrev OverloadLacks : Prop :=
  ∃ pro ∈ prosIn c k.member nsp, k.select pro = true ∧ ¬ ProHolds p o pro ∧
    ∃ other ∈ prosIn c k.select nsp, other.proname = pro.proname ∧ ProHolds p o other

/-- A function that returns nothing lacks the privilege: it is skipped as a procedure is. -/
abbrev VoidLacks : Prop :=
  k = .functions ∧ ∃ pro ∈ prosIn c k.member nsp, pro.rettype = "void" ∧ ¬ ProHolds p o pro

/-- A procedure that returns a record, for it has arguments to write to, lacks the
privilege: it is counted as a function is. -/
abbrev ProcedureLacks : Prop :=
  k = .functions ∧ ∃ pro ∈ prosIn c k.select nsp, pro.prokind = .procedure ∧
    NameLacks c k nsp p o pro

end Condition

theorem ProClass.not_select_iff {pro : Proc} :
    ¬ k.select pro = true ↔ k = .functions ∧ pro.rettype = "void" := by
  cases k <;> simp [ProClass.select, notVoid]

theorem ProClass.not_member_iff {pro : Proc} :
    ¬ k.member pro = true ↔ k = .functions ∧ pro.prokind = .procedure := by
  cases k <;> simp [ProClass.member]

/-- The query says that a grant is partial for a name that it saw on a function, or on a
procedure only. -/
theorem lacking_iff : (¬ ∀ pro ∈ prosIn c k.select nsp,
      ∃ other ∈ prosIn c k.select nsp, other.proname = pro.proname ∧ ProHolds p o other) ↔
    Noticed c k nsp p o ∨ ProcedureLacks c k nsp p o := by
  simp only [not_forall, not_exists, not_and]
  constructor
  · rintro ⟨pro, hpro, hlacks⟩
    obtain ⟨⟨hin, hselect⟩, hnsp⟩ := mem_prosIn.mp hpro
    by_cases hmember : k.member pro = true
    · exact .inl ⟨pro, mem_prosIn.mpr ⟨⟨hin, hmember⟩, hnsp⟩, hselect, hlacks⟩
    · obtain ⟨hk, hkind⟩ := ProClass.not_member_iff.mp hmember
      exact .inr ⟨hk, pro, hpro, hkind, hlacks⟩
  · rintro (⟨pro, hpro, hselect, hlacks⟩ | ⟨_, pro, hpro, _, hlacks⟩)
    · obtain ⟨⟨hin, _⟩, hnsp⟩ := mem_prosIn.mp hpro
      exact ⟨pro, mem_prosIn.mpr ⟨⟨hin, hselect⟩, hnsp⟩, hlacks⟩
    · exact ⟨pro, hpro, hlacks⟩

/-- An object of the class that lacks the privilege is noticed, hidden by another of its
name, or skipped. -/
theorem missing_iff : (¬ ∀ pro ∈ prosIn c k.member nsp, ProHolds p o pro) ↔
    Noticed c k nsp p o ∨ OverloadLacks c k nsp p o ∨ VoidLacks c k nsp p o := by
  simp only [not_forall]
  constructor
  · rintro ⟨pro, hpro, hlacks⟩
    by_cases hselect : k.select pro = true
    · by_cases hother : ∃ other ∈ prosIn c k.select nsp,
          other.proname = pro.proname ∧ ProHolds p o other
      · exact .inr (.inl ⟨pro, hpro, hselect, hlacks, hother⟩)
      · refine .inl ⟨pro, hpro, hselect, fun other hin hname hholds => ?_⟩
        exact hother ⟨other, hin, hname, hholds⟩
    · obtain ⟨hk, hvoid⟩ := ProClass.not_select_iff.mp hselect
      exact .inr (.inr ⟨hk, pro, hpro, hvoid, hlacks⟩)
  · rintro (⟨pro, hpro, hselect, hlacks⟩ | ⟨pro, hpro, _, hlacks, _⟩ | ⟨_, pro, hpro, _, hlacks⟩)
    · obtain ⟨⟨hin, _⟩, hnsp⟩ := mem_prosIn.mp hpro
      exact ⟨pro, hpro, hlacks pro (mem_prosIn.mpr ⟨⟨hin, hselect⟩, hnsp⟩) rfl⟩
    · exact ⟨pro, hpro, hlacks⟩
    · exact ⟨pro, hpro, hlacks⟩

/-- **Partial detection on functions and routines is exact**, for a privilege held on some
object of a schema, if and only if the query does not leave the schema out, selects an
object on which the privilege is held and, unless it notices an object without it, counts
a procedure without it exactly when it misses an overload or a function that returns
nothing without it. -/
theorem pro_partial_exact_iff (k : ProClass) (hnsp : nsp ∈ c.namespaces.rows)
    (htoast : nsp.nspname ≠ "pg_toast") (hp : p ∈ types)
    (hheld : ∃ pro ∈ prosIn c k.member nsp, ProHolds p o pro) :
    (∃ isPartial, (k.inspect c types).filter (isAbout p nsp.nspname (c.roles.nameOf o)) =
        [.ofDatabase p nsp.nspname (c.roles.nameOf o) isPartial] ∧
      (isPartial = false ↔ ∀ pro ∈ prosIn c k.member nsp, ProHolds p o pro)) ↔
    like proPattern.toList nsp.nspname.toList = false ∧
      (∃ pro ∈ prosIn c k.select nsp, ProHolds p o pro) ∧
      (Noticed c k nsp p o ∨
        (ProcedureLacks c k nsp p o ↔ OverloadLacks c k nsp p o ∨ VoidLacks c k nsp p o)) := by
  rw [← keep_iff htoast]
  by_cases hfound : keepNamespace proPattern nsp = true ∧
      ∃ pro ∈ prosIn c k.select nsp, ProHolds p o pro
  · obtain ⟨hkeep, hselected⟩ := hfound
    obtain ⟨isPartial, hrow, hnames⟩ := pro_row hnsp hkeep hp hselected
    rw [only_row_iff hrow, hnames, and_iff_right hkeep, and_iff_right hselected]
    refine (not_iff_not.symm.trans (iff_congr lacking_iff missing_iff)).trans ?_
    by_cases hnoticed : Noticed c k nsp p o
    · exact iff_of_true (iff_of_true (.inl hnoticed) (.inl hnoticed)) (.inl hnoticed)
    · rw [or_iff_right hnoticed, or_iff_right hnoticed, or_iff_right hnoticed]
  · obtain ⟨pro, hpro, hholds⟩ := hheld
    have hknown : c.roles.Known o := by
      obtain ⟨item, hitem, _, rfl⟩ := holds_iff.mp hholds
      exact c.prograntees pro (mem_prosIn.mp hpro).1.1 item hitem
    rw [pro_none hnsp hknown (ne_empty_of_holds hholds) fun hkeep h => hfound ⟨hkeep, h⟩]
    refine iff_of_false (fun ⟨_, h, _⟩ => absurd h (by simp)) fun ⟨hkeep, h, _⟩ => hfound ⟨hkeep, h⟩

/-- Functions of one name, each granted to one role. -/
def overloadsGrantedTo (grantees : List sampleRoles.Grantee) : Catalogue where
  roles := sampleRoles
  namespaces := sampleNamespaces
  relations := []
  procs := grantees.map fun grantee =>
    ⟨app.oid, "total", .function, "integer", 10, some [⟨10, grantee.1, "EXECUTE", execute_named⟩]⟩
  relnames := by decide
  relgrantees := relgrantees_nil _
  prograntees := by
    intro pro hpro item hitem
    obtain ⟨grantee, _, rfl⟩ := List.mem_map.mp hpro
    cases List.mem_singleton.mp hitem
    exact grantee.2

theorem function_granted_whole : ∃ isPartial,
    (inspectAllFunctions (overloadsGrantedTo [bob, bob]) ["EXECUTE"]).filter
          (isAbout "EXECUTE" "app" "bob") = [.ofDatabase "EXECUTE" "app" "bob" isPartial] ∧
      (isPartial = false ↔ ∀ pro ∈ prosIn (overloadsGrantedTo [bob, bob]) ProClass.functions.member app,
        ProHolds "EXECUTE" 12 pro) := by
  have hnsp : app ∈ (overloadsGrantedTo [bob, bob]).namespaces.rows := List.mem_singleton_self _
  have hp : "EXECUTE" ∈ ["EXECUTE"] := List.mem_singleton_self _
  have hheld : ∃ pro ∈ prosIn (overloadsGrantedTo [bob, bob]) ProClass.functions.member app,
      ProHolds "EXECUTE" 12 pro := by decide +kernel
  exact bob_name ▸ (pro_partial_exact_iff .functions hnsp (by decide) hp hheld).mpr (by decide +kernel)

/-- One of two functions of a name is granted, and the grant is said whole. -/
theorem overload_granted_whole :
    inspectAllFunctions (overloadsGrantedTo [bob, alice]) ["EXECUTE"] =
        [.ofDatabase "EXECUTE" "app" "bob" false, .ofDatabase "EXECUTE" "app" "alice" false] ∧
      ¬ ∀ pro ∈ prosIn (overloadsGrantedTo [bob, alice]) ProClass.functions.member app,
        ProHolds "EXECUTE" 12 pro := by
  decide +kernel

end Procs

end Ldap2pg.Privileges.Partial
