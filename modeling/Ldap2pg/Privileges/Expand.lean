import Ldap2pg.Privileges.Types
import Ldap2pg.Postgres

/-! # `Expand`: the grants of rules on databases, schemas and owners

`Expands` says what one grant of a rule stands for in a database, whatever the
order of the maps, and `mem_expand` that `expand` yields exactly that. -/
namespace Ldap2pg.Privileges
open Lib Pyfmt Postgres

variable {schemas : List String}

/-- The ACL is synchronised once for the whole instance. -/
def Registry.instanceWide (reg : Registry) (g : Grant) : Bool := (reg.acl g.acl).scope == "instance"

/-- `Grant.ExpandDatabase`. -/
def Grant.expandDatabase (reg : Registry) (dbs : DBMap) (o : Order) (database : String) (g : Grant) :
    Except Panic (List Grant) :=
  if g.database = "__all__" then
    let out := ((o.range dbs.names).filter fun name => name == database || reg.instanceWide g).map
      fun name => { g with database := name }
    if out.length = 0 then .error (.notInspected database) else .ok out
  else if reg.instanceWide g || g.database == database then .ok [g]
  else .ok []

/-- `Grant.ExpandSchemas`. -/
def Grant.expandSchemas (schemas : List String) (g : Grant) : List Grant :=
  if g.schema ≠ "__all__" then [g] else schemas.map fun name => { g with schema := name }

/-- The creators in one schema, in all of them for the empty name. A missing
schema has none. -/
def creators (database : Database) (schema : String) : List String :=
  if schema = "" then database.schemas.keys.flatMap fun name =>
    (database.schemas[name]?.map Schema.creators).getD []
  else (database.schemas[schema]?.map Schema.creators).getD []

/-- `Grant.ExpandOwners`. The set of creators is sorted. -/
def Grant.expandOwners (database : Database) (g : Grant) : List Grant :=
  if g.owner ≠ "__auto__" then [g]
  else if database.name ≠ g.database then []
  else ((creators database g.schema).dedup.mergeSort fun a b => decide (a ≤ b)).map
    fun role => { g with owner := role }

variable {out wanted : List Grant}

/-- `Expand`. -/
def expand (reg : Registry) (dbs : DBMap) (o : Order) (wanted : List Grant) (database : Database) :
    Except Panic (List Grant) := do
  let out ← wanted.zipIdx.mapM fun gi =>
    gi.1.expandDatabase reg dbs ((o.sub 0).sub gi.2) database.name
  let schemas := (o.sub 1).range database.schemas.keys
  return (out.flatten.flatMap (Grant.expandSchemas schemas)).flatMap (Grant.expandOwners database)

/-- The grant `e` is one of those that `g` stands for in `database`. -/
structure Expands (reg : Registry) (dbs : DBMap) (database : Database) (g e : Grant) : Prop where
  same : e = { g with owner := e.owner, database := e.database, schema := e.schema }
  inDatabase : if g.database = "__all__"
    then e.database ∈ dbs.map ∧ (e.database = database.name ∨ reg.instanceWide g = true)
    else (reg.instanceWide g = true ∨ g.database = database.name) ∧ e.database = g.database
  inSchema : if g.schema = "__all__" then e.schema ∈ database.schemas else e.schema = g.schema
  byOwner : if g.owner = "__auto__"
    then database.name = e.database ∧ e.owner ∈ creators database e.schema
    else e.owner = g.owner

section Spec
variable {reg : Registry} {dbs : DBMap} {o : Order} {database : Database}

theorem mem_expandDatabase {dbname : String} {g e : Grant}
    (h : g.expandDatabase reg dbs o dbname = .ok out) :
    e ∈ out ↔ e = { g with database := e.database } ∧
      if g.database = "__all__"
      then e.database ∈ dbs.map ∧ (e.database = dbname ∨ reg.instanceWide g = true)
      else (reg.instanceWide g = true ∨ g.database = dbname) ∧ e.database = g.database := by
  unfold Grant.expandDatabase at h
  split at h
  case isTrue hall =>
    rw [if_pos hall]
    simp only at h
    split at h
    · cases h
    · cases h
      simp only [List.mem_map, List.mem_filter, Order.mem_range, DBMap.mem_names, Bool.or_eq_true,
        beq_iff_eq]
      constructor
      · rintro ⟨name, hname, rfl⟩
        exact ⟨rfl, hname⟩
      · rintro ⟨he, hname⟩
        exact ⟨e.database, hname, he.symm⟩
  case isFalse hall =>
    rw [if_neg hall]
    split at h
    case isTrue hin =>
      cases h
      rw [Bool.or_eq_true, beq_iff_eq] at hin
      rw [List.mem_singleton]
      constructor
      · rintro rfl
        exact ⟨rfl, hin, rfl⟩
      · rintro ⟨he, _, hdb⟩
        rw [he, hdb]
    case isFalse hout =>
      cases h
      rw [Bool.or_eq_true, beq_iff_eq] at hout
      exact iff_of_false List.not_mem_nil fun h => hout h.2.1

theorem mem_expandSchemas {g e : Grant} :
    e ∈ g.expandSchemas schemas ↔ e = { g with schema := e.schema } ∧
      if g.schema = "__all__" then e.schema ∈ schemas else e.schema = g.schema := by
  unfold Grant.expandSchemas
  by_cases hall : g.schema = "__all__"
  · rw [if_neg (not_not.mpr hall), if_pos hall, List.mem_map]
    constructor
    · rintro ⟨name, hname, rfl⟩
      exact ⟨rfl, hname⟩
    · intro ⟨he, hname⟩
      exact ⟨e.schema, hname, he.symm⟩
  · rw [if_pos hall, if_neg hall, List.mem_singleton]
    constructor
    · rintro rfl
      exact ⟨rfl, rfl⟩
    · intro ⟨he, hs⟩
      rw [he, hs]

theorem mem_expandOwners {g e : Grant} :
    e ∈ g.expandOwners database ↔ e = { g with owner := e.owner } ∧
      if g.owner = "__auto__"
      then database.name = g.database ∧ e.owner ∈ creators database g.schema
      else e.owner = g.owner := by
  unfold Grant.expandOwners
  by_cases hauto : g.owner = "__auto__"
  · rw [if_neg (not_not.mpr hauto), if_pos hauto]
    by_cases hdb : database.name = g.database
    · rw [if_neg (not_not.mpr hdb)]
      simp only [List.mem_map, List.mem_mergeSort, List.mem_dedup, hdb, true_and]
      constructor
      · rintro ⟨role, hrole, rfl⟩
        exact ⟨rfl, hrole⟩
      · intro ⟨he, hrole⟩
        exact ⟨e.owner, hrole, he.symm⟩
    · rw [if_pos hdb]
      exact iff_of_false List.not_mem_nil fun h => hdb h.2.1
  · rw [if_pos hauto, if_neg hauto, List.mem_singleton]
    constructor
    · rintro rfl
      exact ⟨rfl, rfl⟩
    · intro ⟨he, ho⟩
      rw [he, ho]

/-- The three passes one after the other, on one grant. -/
theorem expands_iff (hs : ∀ name, name ∈ schemas ↔ name ∈ database.schemas) {g e : Grant}
    (h : g.expandDatabase reg dbs o database.name = .ok out) :
    (∃ g₁ ∈ out, ∃ g₂ ∈ g₁.expandSchemas schemas, e ∈ g₂.expandOwners database) ↔
      Expands reg dbs database g e := by
  simp only [mem_expandDatabase h, mem_expandSchemas, mem_expandOwners, hs]
  constructor
  · intro ⟨g₁, ⟨he₁, hdb⟩, g₂, ⟨he₂, hschema⟩, he, howner⟩
    have hschema₁ : g₁.schema = g.schema := by rw [he₁]
    have hschema₂ : e.schema = g₂.schema := by rw [he]
    have hdb₁ : g₂.database = g₁.database := by rw [he₂]
    have hdb₂ : e.database = g₂.database := by rw [he]
    have howner₂ : g₂.owner = g.owner := by rw [he₂, he₁]
    refine ⟨?_, ?_, ?_, ?_⟩
    · rw [hdb₂, hdb₁, hschema₂]
      conv_lhs => rw [he, he₂, he₁]
    · rw [hdb₂, hdb₁]
      exact hdb
    · rw [hschema₂, ← hschema₁]
      exact hschema
    · rw [hdb₂, hschema₂, ← howner₂]
      exact howner
  · intro hx
    exact ⟨{ g with database := e.database }, ⟨rfl, hx.inDatabase⟩,
      { g with database := e.database, schema := e.schema }, ⟨rfl, hx.inSchema⟩, hx.same, hx.byOwner⟩

theorem mem_expand (h : expand reg dbs o wanted database = .ok out) {e : Grant} :
    e ∈ out ↔ ∃ g ∈ wanted, Expands reg dbs database g e := by
  obtain ⟨l, hl, h⟩ := bind_eq_ok.mp h
  cases h
  have hs : ∀ name, name ∈ (o.sub 1).range database.schemas.keys ↔ name ∈ database.schemas := by
    simp
  simp only [List.mem_flatMap, List.mem_flatten]
  constructor
  · intro ⟨g₂, ⟨g₁, ⟨out, hout, hg₁⟩, hg₂⟩, he⟩
    obtain ⟨gi, hgi, hok⟩ := mem_of_mapM_ok hl hout
    exact ⟨gi.1, List.fst_mem_of_mem_zipIdx hgi, (expands_iff hs hok).mp ⟨g₁, hg₁, g₂, hg₂, he⟩⟩
  · intro ⟨g, hg, hx⟩
    obtain ⟨i, hi⟩ := exists_mem_zipIdx hg
    obtain ⟨out, hout, hok⟩ := mem_mapM_ok hl hi
    obtain ⟨g₁, hg₁, g₂, hg₂, he⟩ := (expands_iff hs hok).mpr hx
    exact ⟨g₂, ⟨g₁, ⟨out, hout, hg₁⟩, hg₂⟩, he⟩

/-- Unless its ACL is one of the instance, a grant stands for grants on the
database being synchronised. -/
theorem Expands.database_eq {g e : Grant} (hx : Expands reg dbs database g e)
    (hw : reg.instanceWide g = false) : e.database = database.name := by
  have hdb := hx.inDatabase
  rw [hw] at hdb
  split at hdb
  · exact hdb.2.resolve_right Bool.false_ne_true
  · exact hdb.2.trans (hdb.1.resolve_left Bool.false_ne_true)

theorem nodup_expandDatabase {dbname : String} {g : Grant}
    (h : g.expandDatabase reg dbs o dbname = .ok out) : out.Nodup := by
  unfold Grant.expandDatabase at h
  split at h
  · simp only at h
    split at h
    · cases h
    · cases h
      refine List.Nodup.map (fun name name' he => congrArg Grant.database he) ?_
      exact (Order.range_nodup dbs.nodup_names).filter _
  · split at h
    · cases h; exact List.nodup_singleton g
    · cases h; exact List.nodup_nil

theorem nodup_expandSchemas (hs : schemas.Nodup) (g : Grant) : (g.expandSchemas schemas).Nodup := by
  unfold Grant.expandSchemas
  split
  · exact List.nodup_singleton g
  · exact hs.map fun name name' he => congrArg Grant.schema he

theorem nodup_expandOwners (g : Grant) : (g.expandOwners database).Nodup := by
  unfold Grant.expandOwners
  split
  · exact List.nodup_singleton g
  · split
    · exact List.nodup_nil
    · refine List.Nodup.map (fun role role' he => congrArg Grant.owner he) ?_
      exact (List.mergeSort_perm _ _).nodup_iff.mpr (List.nodup_dedup _)

/-- A grant stands for each of its expansions once. -/
theorem nodup_passes {g : Grant} {dbname : String}
    (hout : g.expandDatabase reg dbs o dbname = .ok out) (hs : schemas.Nodup) :
    ((out.flatMap (Grant.expandSchemas schemas)).flatMap (Grant.expandOwners database)).Nodup := by
  -- the fields not yet expanded are those of `g`, so the next passes tell grants apart
  have hpass : ∀ g₁ ∈ out, g₁ = { g with database := g₁.database } := fun g₁ hg₁ =>
    ((mem_expandDatabase hout).mp hg₁).1
  refine nodup_flatMap_of_inj (nodup_flatMap_of_inj (nodup_expandDatabase hout)
    (fun g₁ _ => nodup_expandSchemas hs g₁) ?_) (fun g₂ _ => nodup_expandOwners g₂) ?_
  · intro g₁ hg₁ g₁' hg₁' c hc hc'
    have hdb : g₁.database = g₁'.database := by
      rw [← show c.database = g₁.database by rw [(mem_expandSchemas.mp hc).1],
        ← show c.database = g₁'.database by rw [(mem_expandSchemas.mp hc').1]]
    rw [hpass g₁ hg₁, hpass g₁' hg₁', hdb]
  · intro g₂ hg₂ g₂' hg₂' c hc hc'
    obtain ⟨g₁, hg₁, hg₂⟩ := List.mem_flatMap.mp hg₂
    obtain ⟨g₁', hg₁', hg₂'⟩ := List.mem_flatMap.mp hg₂'
    have hsame : ∀ g₁ ∈ out, ∀ g₂ ∈ g₁.expandSchemas schemas, c ∈ g₂.expandOwners database →
        g₂ = { g with database := c.database, schema := c.schema } := by
      intro g₁ hg₁ g₂ hg₂ hc
      rw [show c.database = g₂.database by rw [(mem_expandOwners.mp hc).1],
        show c.schema = g₂.schema by rw [(mem_expandOwners.mp hc).1],
        show g₂.database = g₁.database by rw [(mem_expandSchemas.mp hg₂).1]]
      conv_lhs => rw [(mem_expandSchemas.mp hg₂).1, hpass g₁ hg₁]
    rw [hsame g₁ hg₁ g₂ hg₂ hc, hsame g₁' hg₁' g₂' hg₂' hc']

/-- The expansions of each grant of a list, in turn. -/
def Parts (reg : Registry) (dbs : DBMap) (database : Database) :
    List Grant → List (List Grant) → Prop :=
  List.Forall₂ fun g part => part.Nodup ∧ ∀ e, e ∈ part ↔ Expands reg dbs database g e

/-- `Expand` goes through the grants one after the other. -/
theorem expand_parts (h : expand reg dbs o wanted database = .ok out) :
    ∃ parts, Parts reg dbs database wanted parts ∧ out = parts.flatten := by
  obtain ⟨l, hl, hout⟩ := bind_eq_ok.mp h
  cases hout
  clear h
  have hn : ((o.sub 1).range database.schemas.keys).Nodup :=
    Order.range_nodup Std.ExtTreeMap.nodup_keys
  have hs : ∀ name, name ∈ (o.sub 1).range database.schemas.keys ↔ name ∈ database.schemas := by
    simp
  generalize (o.sub 1).range database.schemas.keys = schemas at hn hs
  refine ⟨l.map fun out => (out.flatMap (Grant.expandSchemas schemas)).flatMap
    (Grant.expandOwners database), ?_, ?_⟩
  · rw [Parts, ← List.zipIdx_map_fst 0 wanted, List.forall₂_map_left_iff, List.forall₂_map_right_iff]
    refine (mapM_ok_iff.mp hl).imp fun gi out hout => ⟨nodup_passes hout hn, fun e => ?_⟩
    rw [← expands_iff hs hout]
    simp only [List.mem_flatMap]
    exact ⟨fun ⟨g₂, ⟨g₁, hg₁, hg₂⟩, he⟩ => ⟨g₁, hg₁, g₂, hg₂, he⟩,
      fun ⟨g₁, hg₁, g₂, hg₂, he⟩ => ⟨g₂, ⟨g₁, hg₁, hg₂⟩, he⟩⟩
  · clear hl
    induction l with
    | nil => rfl
    | cons out l ih =>
      rw [List.flatten_cons, List.flatMap_append, List.flatMap_append, ih, List.map_cons,
        List.flatten_cons]

theorem Parts.get {parts : List (List Grant)} {i : Nat} {g : Grant}
    (h : Parts reg dbs database wanted parts) (hg : wanted[i]? = some g) :
    (parts[i]?.getD []).Nodup ∧
      ∀ e, e ∈ parts[i]?.getD [] ↔ Expands reg dbs database g e := by
  unfold Parts at h
  induction h generalizing i with
  | nil => cases hg
  | cons hpart _ ih =>
    cases i with
    | zero => cases hg; exact hpart
    | succ i => exact ih hg

/-- There is no panic in a managed database. -/
theorem expand_ok (reg : Registry) (o : Order) (wanted : List Grant)
    (hdb : database.name ∈ dbs.map) : ∃ out, expand reg dbs o wanted database = .ok out := by
  have hgrant : ∀ gi ∈ wanted.zipIdx,
      ∃ out, gi.1.expandDatabase reg dbs ((o.sub 0).sub gi.2) database.name = .ok out := by
    intro gi _
    unfold Grant.expandDatabase
    split
    · have hmem : database.name ∈ (((o.sub 0).sub gi.2).range dbs.names).filter
          fun name => name == database.name || reg.instanceWide gi.1 := by
        simp [DBMap.mem_names, hdb]
      simp only [List.length_map]
      rw [if_neg (Nat.ne_of_gt (List.length_pos_of_mem hmem))]
      exact ⟨_, rfl⟩
    · split <;> exact ⟨_, rfl⟩
  obtain ⟨out, hout⟩ := exists_mapM_ok hgrant
  exact ⟨_, by rw [expand, hout]; rfl⟩

end Spec

end Ldap2pg.Privileges
