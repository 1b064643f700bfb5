import Ldap2pg.Lib.Groups
import Ldap2pg.Lib.Loops
import Ldap2pg.Pyfmt

/-! # `internal/postgres`: managed databases and the queries of a stage -/
namespace Ldap2pg.Postgres
open Lib Lib.Groups Pyfmt

structure Schema where
  name : String
  owner : String := ""
  creators : List String := []
  deriving DecidableEq

structure Database where
  name : String
  owner : String
  schemas : Dict Schema := ∅

variable {databases : Dict Database}

/-- `postgres.Databases`: inspection files each database under its name. -/
structure DBMap where
  map : Dict Database
  key : ∀ (k : String) (d : Database), map[k]? = some d → d.name = k

variable (m : DBMap)

namespace DBMap

def names (m : DBMap) : List String := m.map.keys

/-- The map with one database changed. -/
def updated (m : Dict Database) (dbname : String) (f : Database → Database) : Dict Database :=
  match m[dbname]? with
  | none => m
  | some d => m.insert dbname (f d)

theorem updated_get (m : Dict Database) (dbname : String) (f : Database → Database) (k : String) :
    (updated m dbname f)[k]? = if dbname = k then m[k]?.map f else m[k]? := by
  unfold updated
  by_cases he : dbname = k
  · subst he
    cases hd : m[dbname]? with
    | none => simp [hd]
    | some d => simp
  · cases hd : m[dbname]? with
    | none => simp [he]
    | some d => simp [he]

theorem updated_mem (m : Dict Database) (dbname : String) (f : Database → Database) (k : String) :
    k ∈ updated m dbname f ↔ k ∈ m := by
  rw [Dict.mem_iff, Dict.mem_iff, updated_get]
  split <;> simp

/-- `postgres.Databases[dbname] = database`, for a database read from there and
changed, its name apart. -/
def update (m : DBMap) (dbname : String) (f : Database → Database)
    (hf : ∀ d, (f d).name = d.name) : DBMap where
  map := updated m.map dbname f
  key := by
    intro k d h
    rw [updated_get] at h
    split at h
    · obtain ⟨d', hd, rfl⟩ := Option.map_eq_some_iff.mp h
      exact (hf d').trans (m.key k d' hd)
    · exact m.key k d h

theorem update_get (dbname : String) (f : Database → Database) (hf : ∀ d, (f d).name = d.name)
    (k : String) :
    (m.update dbname f hf).map[k]? = if dbname = k then m.map[k]?.map f else m.map[k]? :=
  updated_get m.map dbname f k

/-- Changing a database keeps the set of databases. -/
theorem update_mem (dbname : String) (f : Database → Database) (hf : ∀ d, (f d).name = d.name)
    (k : String) : k ∈ (m.update dbname f hf).map ↔ k ∈ m.map := updated_mem m.map dbname f k

/-- `database.Owner = owner; postgres.Databases[dbname] = database`. -/
def setOwner (m : DBMap) (dbname owner : String) : DBMap :=
  m.update dbname (fun d => { d with owner := owner }) fun _ => rfl

theorem setOwner_get (dbname owner k : String) :
    (m.setOwner dbname owner).map[k]? =
      if dbname = k then m.map[k]?.map fun d => { d with owner := owner } else m.map[k]? :=
  update_get m dbname _ _ k

theorem setOwner_mem (dbname owner k : String) :
    k ∈ (m.setOwner dbname owner).map ↔ k ∈ m.map := update_mem m dbname _ _ k

/-- A row of `databases.sql`. -/
structure Row where
  name : String
  owner : String

/-- `RowToDatabase`: no schema yet. -/
def Row.toDatabase (row : Row) : Database := ⟨row.name, row.owner, ∅⟩

def ofRows (rows : List Row) : DBMap where
  map := Dict.fill Row.name Row.toDatabase ∅ rows
  key := by
    intro k d hd
    rcases Dict.get_fill_cases hd with ⟨row, _, hk, rfl⟩ | hd
    · exact hk
    · simp at hd

/-- One managed database. -/
def single (d : Database) : DBMap where
  map := (∅ : Dict Database).insert d.name d
  key := by
    intro k d' hd
    rcases Dict.get_insert_cases hd with ⟨rfl, rfl⟩ | ⟨_, hd⟩
    · rfl
    · simp at hd

theorem mem_names {m : DBMap} {k : String} : k ∈ m.names ↔ k ∈ m.map :=
  Std.ExtTreeMap.mem_keys

theorem nodup_names : m.names.Nodup := Std.ExtTreeMap.nodup_keys

end DBMap

/-- `SyncOrder`: sorted names, with the default database first or last. -/
def syncOrder (databases : Dict Database) (defaultName : String) (defaultFirst : Bool) :
    List String :=
  let others := databases.keys.filter (· ≠ defaultName)
  let own := if defaultName ∈ databases then [defaultName] else []
  if defaultFirst then own ++ others else others ++ own

theorem mem_syncOrder {m : Dict Database} {d : String} {b : Bool} {k : String} :
    k ∈ syncOrder m d b ↔ k ∈ m := by
  have hown : k ∈ (if d ∈ m then [d] else []) ↔ k = d ∧ d ∈ m := by split <;> simp_all
  have hboth : (k ∈ m ∧ k ≠ d) ∨ (k = d ∧ d ∈ m) ↔ k ∈ m := by
    by_cases he : k = d
    · subst he; simp
    · simp [he]
  cases b
  · simpa [syncOrder, hown, Std.ExtTreeMap.mem_keys] using hboth
  · simpa [syncOrder, hown, Std.ExtTreeMap.mem_keys, or_comm] using hboth

theorem nodup_syncOrder (m : Dict Database) (d : String) (b : Bool) :
    (syncOrder m d b).Nodup := by
  have ho : (m.keys.filter (· ≠ d)).Nodup := Std.ExtTreeMap.nodup_keys.filter _
  have hd : d ∉ m.keys.filter (· ≠ d) := by simp
  by_cases hm : d ∈ m
  · cases b
    · simp only [syncOrder, hm, if_true]
      exact List.nodup_append.mpr ⟨ho, by simp, by
        intro x hx y hy he
        rw [List.mem_singleton.mp hy] at he
        exact hd (he ▸ hx)⟩
    · simp only [syncOrder, hm, if_true]
      exact List.nodup_cons.mpr ⟨hd, ho⟩
  · cases b <;> simpa [syncOrder, hm] using ho

theorem syncOrder_last {m : Dict Database} {d : String} (h : d ∈ m) :
    syncOrder m d false = m.keys.filter (· ≠ d) ++ [d] := by
  simp [syncOrder, h]

/-- A query of a stage: the statement, and the database to run it in (empty for
the default one, `<first>` for the first one synchronised). -/
structure SyncQuery (σ : Type) where
  description : String
  database : String := ""
  stmt : σ

/-- `databases[0]` where the query asks for the first database. -/
def SyncQuery.resolve {σ : Type} (defaultDatabase : String) (databases : List String)
    (q : SyncQuery σ) : Except Panic (SyncQuery σ) :=
  if q.database = "" then .ok { q with database := defaultDatabase }
  else if q.database = "<first>" then
    match databases with
    | [] => .error .noDatabase
    | first :: _ => .ok { q with database := first }
  else .ok q

/-- `GroupByDatabase`: resolves the databases, then sends the queries of each
database in turn, the default one last. -/
def groupByDatabase {σ : Type} (databases : Dict Database) (defaultDatabase : String)
    (queries : List (SyncQuery σ)) : Except Panic (List (SyncQuery σ)) := do
  let databases := syncOrder databases defaultDatabase false
  let queries ← queries.mapM (SyncQuery.resolve defaultDatabase databases)
  return databases.flatMap fun name => queries.filter fun q => q.database = name

section Grouping
variable {σ : Type} {m : Dict Database} {defaultDatabase : String}

/-- The query with the database it will run in. -/
def SyncQuery.resolved (defaultDatabase first : String) (q : SyncQuery σ) : SyncQuery σ :=
  { q with database :=
      if q.database = "" then defaultDatabase
      else if q.database = "<first>" then first else q.database }

theorem resolve_ok {databases : List String} {q q' : SyncQuery σ}
    (h : q.resolve defaultDatabase databases = .ok q') :
    q' = q.resolved defaultDatabase (databases.headD "") := by
  unfold SyncQuery.resolve at h
  unfold SyncQuery.resolved
  split at h
  case isTrue he => cases h; simp [he]
  case isFalse he =>
    split at h
    case isFalse hf => cases h; simp [he, hf]
    case isTrue hf =>
      cases databases with
      | nil => cases h
      | cons first rest => cases h; simp [hf]

theorem resolve_cons (first : String) (rest : List String) (q : SyncQuery σ) :
    q.resolve defaultDatabase (first :: rest) = .ok (q.resolved defaultDatabase first) := by
  unfold SyncQuery.resolve SyncQuery.resolved
  split
  · rfl
  · split <;> simp [*]

/-- The queries of a stage, each with the database it will run in. -/
def resolvedIn (databases : Dict Database) (defaultDatabase : String)
    (queries : List (SyncQuery σ)) : List (SyncQuery σ) :=
  queries.map fun q =>
    q.resolved defaultDatabase ((syncOrder databases defaultDatabase false).headD "")

/-- A query for a managed database is run there: the marks for other databases are not
names of managed ones, or `<first>` is the first one. -/
def Reached (m : Dict Database) (first : String) : Prop :=
  ∀ d ∈ m, d ≠ "" ∧ (d = "<first>" → first = d)

theorem Reached.resolved {first : String} (h : Reached m first) {q : SyncQuery σ}
    (hq : q.database ∈ m) : q.resolved defaultDatabase first = q := by
  obtain ⟨hne, hfirst⟩ := h _ hq
  have hdatabase : (q.resolved defaultDatabase first).database = q.database := by
    simp only [SyncQuery.resolved, if_neg hne]
    split
    · exact hfirst ‹_›
    · rfl
  cases q
  exact congrArg (SyncQuery.mk _ · _) hdatabase

theorem mapM_resolve_ok {databases : List String} {queries out : List (SyncQuery σ)}
    (h : queries.mapM (SyncQuery.resolve defaultDatabase databases) = .ok out) :
    out = queries.map fun q => q.resolved defaultDatabase (databases.headD "") := by
  have hall := mapM_ok_iff.mp h
  clear h
  induction hall with
  | nil => rfl
  | cons hq _ ih => rw [List.map_cons, ← ih, resolve_ok hq]

theorem groupByDatabase_eq {queries out : List (SyncQuery σ)}
    (h : groupByDatabase databases defaultDatabase queries = .ok out) :
    out = grouped SyncQuery.database (syncOrder databases defaultDatabase false)
      (resolvedIn databases defaultDatabase queries) := by
  unfold groupByDatabase at h
  cases hq : queries.mapM (SyncQuery.resolve defaultDatabase
      (syncOrder databases defaultDatabase false)) with
  | error e => simp only [hq] at h; cases h
  | ok qs =>
    simp only [hq] at h
    cases h
    rw [mapM_resolve_ok hq]
    rfl

/-- With the default database managed, there is a first database. -/
theorem groupByDatabase_total (hd : defaultDatabase ∈ databases) (queries : List (SyncQuery σ)) :
    ∃ out, groupByDatabase databases defaultDatabase queries = .ok out := by
  have hm : defaultDatabase ∈ syncOrder databases defaultDatabase false := mem_syncOrder.mpr hd
  unfold groupByDatabase
  cases hs : syncOrder databases defaultDatabase false with
  | nil => rw [hs] at hm; cases hm
  | cons first rest =>
    have hresolve : ∀ q ∈ queries, ∃ q', q.resolve defaultDatabase (first :: rest) = .ok q' :=
      fun q _ => ⟨_, resolve_cons first rest q⟩
    obtain ⟨out, ho⟩ := exists_mapM_ok hresolve
    exact ⟨_, by simp only [ho]; rfl⟩

theorem mem_groupByDatabase {queries out : List (SyncQuery σ)} {q : SyncQuery σ}
    (h : groupByDatabase m defaultDatabase queries = .ok out) :
    q ∈ out ↔ q ∈ resolvedIn m defaultDatabase queries ∧ q.database ∈ m := by
  rw [groupByDatabase_eq h, mem_grouped, mem_syncOrder]

/-- Within one database, grouping keeps every query, in order. -/
theorem groupByDatabase_filter {queries out : List (SyncQuery σ)}
    (h : groupByDatabase m defaultDatabase queries = .ok out) (name : String) :
    out.filter (fun q => q.database = name) =
      if name ∈ m
      then (resolvedIn m defaultDatabase queries).filter (fun q => q.database = name) else [] := by
  rw [groupByDatabase_eq h, filter_grouped (nodup_syncOrder m defaultDatabase false)]
  simp only [mem_syncOrder]

/-- A query for the default, the first or a managed database runs in a managed one. -/
theorem resolvedIn_managed (hd : defaultDatabase ∈ databases) {queries : List (SyncQuery σ)}
    (hq : ∀ q ∈ queries, q.database = "" ∨ q.database = "<first>" ∨ q.database ∈ databases) :
    ∀ q ∈ resolvedIn databases defaultDatabase queries, q.database ∈ databases := by
  have hfirst : (syncOrder databases defaultDatabase false).headD "" ∈ databases := by
    have hm : defaultDatabase ∈ syncOrder databases defaultDatabase false :=
      mem_syncOrder.mpr hd
    cases hs : syncOrder databases defaultDatabase false with
    | nil => rw [hs] at hm; cases hm
    | cons first rest =>
      have hin : first ∈ syncOrder databases defaultDatabase false := by simp [hs]
      exact mem_syncOrder.mp hin
  intro q hmem
  obtain ⟨q₀, hq₀, rfl⟩ := List.mem_map.mp hmem
  simp only [SyncQuery.resolved]
  split
  · exact hd
  · next hne =>
    split
    · exact hfirst
    · next hnf => exact ((hq q₀ hq₀).resolve_left hne).resolve_left hnf

/-- The default database comes last in the order, and so do its queries. -/
theorem grouped_default_last (hd : defaultDatabase ∈ databases) (queries : List (SyncQuery σ)) :
    (grouped SyncQuery.database (syncOrder databases defaultDatabase false) queries).Pairwise
      fun q q' => q.database = defaultDatabase → q'.database = defaultDatabase := by
  rw [syncOrder_last hd, grouped_append, List.pairwise_append]
  have hother : ∀ q ∈ grouped SyncQuery.database (databases.keys.filter (· ≠ defaultDatabase))
      queries, q.database ≠ defaultDatabase := by
    intro q hq
    simpa using (List.mem_filter.mp (mem_grouped.mp hq).2).2
  have hown : ∀ q ∈ grouped SyncQuery.database [defaultDatabase] queries,
      q.database = defaultDatabase := fun q hq => List.mem_singleton.mp (mem_grouped.mp hq).2
  refine ⟨?_, ?_, fun q _ q' hq' _ => hown q' hq'⟩
  · exact List.pairwise_of_forall_mem_list fun q hq _ _ he => absurd he (hother q hq)
  · exact List.pairwise_of_forall_mem_list fun _ _ q' hq' _ => hown q' hq'

/-- **Grouping loses nothing and keeps order.** -/
theorem groupByDatabase_groups (databases : Dict Database) (defaultDatabase : String)
    (hd : defaultDatabase ∈ databases) (queries : List (SyncQuery σ))
    (hq : ∀ q ∈ queries, q.database = "" ∨ q.database = "<first>" ∨ q.database ∈ databases) :
    ∃ out, groupByDatabase databases defaultDatabase queries = .ok out ∧
      out.Perm (resolvedIn databases defaultDatabase queries) ∧
      (∀ name, out.filter (fun q => q.database = name) =
        (resolvedIn databases defaultDatabase queries).filter fun q => q.database = name) ∧
      Contiguous SyncQuery.database out ∧
      out.Pairwise fun q q' => q.database = defaultDatabase → q'.database = defaultDatabase := by
  obtain ⟨out, hout⟩ := groupByDatabase_total hd queries
  have hn := nodup_syncOrder databases defaultDatabase false
  have hall : ∀ q ∈ resolvedIn databases defaultDatabase queries,
      q.database ∈ syncOrder databases defaultDatabase false :=
    fun q hmem => mem_syncOrder.mpr (resolvedIn_managed hd hq q hmem)
  have heq := groupByDatabase_eq hout
  subst heq
  refine ⟨_, hout, grouped_perm hn hall, fun name => ?_, contiguous_grouped hn _,
    grouped_default_last hd _⟩
  rw [filter_grouped hn]
  split
  · rfl
  · next hnot =>
    refine (List.filter_eq_nil_iff.mpr fun q hmem he => hnot ?_).symm
    exact of_decide_eq_true he ▸ hall q hmem

end Grouping

/-- Two databases; the queries name the default, the first and a managed one. -/
theorem groupByDatabase_groups_two :
    let databases : Dict Database := ((∅ : Dict Database).insert "app" ⟨"app", "o", ∅⟩).insert
      "postgres" ⟨"postgres", "o", ∅⟩
    let queries : List (SyncQuery Unit) :=
      [⟨"a", "", ()⟩, ⟨"b", "<first>", ()⟩, ⟨"c", "postgres", ()⟩, ⟨"d", "app", ()⟩]
    ∃ out, groupByDatabase databases "postgres" queries = .ok out ∧
      out.Perm (resolvedIn databases "postgres" queries) := by
  intro databases queries
  have hd : "postgres" ∈ databases := by simp [databases]
  have hq : ∀ q ∈ queries,
      q.database = "" ∨ q.database = "<first>" ∨ q.database ∈ databases := by
    simp [queries, databases]
  obtain ⟨out, hout, hperm, _⟩ := groupByDatabase_groups databases "postgres" hd queries hq
  exact ⟨out, hout, hperm⟩

end Ldap2pg.Postgres
