import Ldap2pg.Roles.Diff

/-! # What happens to the objects of the roles that are dropped

`Ownership` says who owns each object of each database. `REASSIGN OWNED BY r TO
x; DROP OWNED BY r` runs in one database: it hands the objects of `r` to `x`,
then deletes what `r` still owns. Every other statement of the stage leaves
objects alone. Seen from one object, the whole stage is the list of these
reassignments in its own database, whatever the order in which databases and
roles are ranged over. -/
namespace Ldap2pg.Roles.DropSafety
open Lib Postgres

variable (d : String)

/-- The owner of each object of each database, `none` once it is deleted. -/
abbrev Ownership (Obj : Type) := String → Obj → Option String

/-- One object under `REASSIGN OWNED BY role TO owner; DROP OWNED BY role`. -/
def move (current : Option String) (role owner : String) : Option String :=
  let reassigned := if current = some role then some owner else current
  if reassigned = some role then none else reassigned

variable {Obj : Type}

def exec (s : Ownership Obj) (q : Query) : Ownership Obj :=
  match q.stmt with
  | .reassignOwned role owner => fun d x =>
    if d = q.database then move (s d x) role owner else s d x
  | _ => s

def execAll (s : Ownership Obj) (queries : List Query) : Ownership Obj := queries.foldl exec s

/-- The reassignment a query makes in database `d`, if any. -/
def reassignment (d : String) (q : Query) : Option (String × String) :=
  match q.stmt with
  | .reassignOwned role owner => if d = q.database then some (role, owner) else none
  | _ => none

def moves (d : String) (queries : List Query) : List (String × String) :=
  queries.filterMap (reassignment d)

@[simp] theorem moves_nil : moves d [] = [] := rfl

theorem moves_cons (q : Query) (queries : List Query) :
    moves d (q :: queries) = (reassignment d q).toList ++ moves d queries := by
  unfold moves
  cases hq : reassignment d q with
  | none => rw [List.filterMap_cons_none hq]; rfl
  | some m => rw [List.filterMap_cons_some hq]; rfl

theorem execAll_eq_moves (x : Obj) (queries : List Query) :
    ∀ s : Ownership Obj,
      execAll s queries d x = (moves d queries).foldl (fun c m => move c m.1 m.2) (s d x) := by
  induction queries with
  | nil => intro s; rfl
  | cons q queries ih =>
    intro s
    have hstep : exec s q d x =
        ((reassignment d q).toList).foldl (fun c m => move c m.1 m.2) (s d x) := by
      unfold exec reassignment
      cases q.stmt with
      | reassignOwned role owner => by_cases hd : d = q.database <;> simp [hd]
      | _ => rfl
    rw [moves_cons, List.foldl_append, ← hstep]
    exact ih (exec s q)

theorem moves_append (l₁ l₂ : List Query) :
    moves d (l₁ ++ l₂) = moves d l₁ ++ moves d l₂ := List.filterMap_append

theorem moves_eq_nil {d : String} {l : List Query}
    (h : ∀ q ∈ l, ∀ role owner, q.stmt ≠ .reassignOwned role owner) : moves d l = [] := by
  apply List.filterMap_eq_nil_iff.mpr
  intro q hq
  unfold reassignment
  split
  case h_1 role owner he => exact absurd he (h q hq role owner)
  case h_2 => rfl

theorem moves_filter (l : List Query) : moves d (l.filter fun q => q.database = d) = moves d l := by
  induction l with
  | nil => rfl
  | cons q l ih =>
    by_cases hq : q.database = d
    · rw [List.filter_cons_of_pos (by simpa using hq), moves_cons, moves_cons, ih]
    · have hnone : reassignment d q = none := by
        unfold reassignment
        split
        · rw [if_neg (Ne.symm hq)]
        · rfl
      rw [List.filter_cons_of_neg (by simpa using hq), moves_cons, ih, hnone]
      rfl

theorem moves_resolved (defaultDatabase first : String) {l : List Query}
    (h : ∀ q ∈ l, ∀ role owner, q.stmt = .reassignOwned role owner → q.resolved defaultDatabase
    first = q) : moves d (l.map (SyncQuery.resolved defaultDatabase first)) = moves d l := by
  induction l with
  | nil => rfl
  | cons q l ih =>
    have hq : reassignment d (q.resolved defaultDatabase first) = reassignment d q := by
      cases hs : q.stmt with
      | reassignOwned role owner =>
        rw [h q List.mem_cons_self role owner hs]
      | _ => simp [reassignment, SyncQuery.resolved, hs]
    rw [List.map_cons, moves_cons, moves_cons, hq, ih fun q' hq' => h q' (List.mem_cons_of_mem q hq')]

/-! ## The reassignments of the dropped roles -/

/-- The owner of a database once `role` is dropped. -/
def ownerAfter (fallbackOwner role owner : String) : String :=
  if owner = role then fallbackOwner else owner

/-- In a database of a given owner, who takes the objects of each dropped role. -/
def takers (fallbackOwner : String) : String → List String → List (String × String)
  | _, [] => []
  | owner, role :: roles =>
    (role, ownerAfter fallbackOwner role owner) ::
      takers fallbackOwner (ownerAfter fallbackOwner role owner) roles

/-- The recorded owner of a database. -/
def owner? (dbs : DBMap) (d : String) : Option String := dbs.map[d]?.map Database.owner

section Drops
variable (fallbackOwner : String) (dbs : DBMap) (r : Role)

theorem owner_dropIn (dbname d : String) :
    owner? (r.dropIn fallbackOwner dbs dbname).2 d =
      if d = dbname then (owner? dbs d).map (ownerAfter fallbackOwner r.name) else owner? dbs d := by
  unfold owner? Role.dropIn
  split
  case h_1 hn =>
    split
    case isTrue he => rw [he, hn]; rfl
    case isFalse => rfl
  case h_2 database hk =>
    by_cases he : d = dbname
    · subst he
      by_cases ho : database.owner = r.name
      · simp [ho, hk, ownerAfter, DBMap.setOwner_get]
      · simp [ho, hk, ownerAfter]
    · by_cases ho : database.owner = r.name
      · simp [ho, he, Ne.symm he, DBMap.setOwner_get]
      · simp [ho, he]

theorem moves_dropIn (dbname d : String) :
    moves d (r.dropIn fallbackOwner dbs dbname).1 =
      if d = dbname
      then ((owner? dbs d).map fun own => (r.name, ownerAfter fallbackOwner r.name own)).toList
      else [] := by
  unfold owner? Role.dropIn
  split
  case h_1 hn =>
    split
    case isTrue he => rw [he, hn]; rfl
    case isFalse => rfl
  case h_2 database hk =>
    have hname : database.name = dbname := dbs.key dbname database hk
    by_cases he : d = dbname
    · subst he
      by_cases ho : database.owner = r.name
      · simp [ho, hk, hname, ownerAfter, moves_cons, reassignment]
      · simp [ho, hk, hname, ownerAfter, moves_cons, reassignment]
    · by_cases ho : database.owner = r.name
      · simp [ho, he, hname, moves_cons, reassignment]
      · simp [ho, he, hname, moves_cons, reassignment]

theorem emit_dropIn {names : List String} (hn : names.Nodup) (d : String) :
    ∀ dbs : DBMap,
      moves d (emit (r.dropIn fallbackOwner) dbs names).1 =
        (if d ∈ names
        then ((owner? dbs d).map fun own => (r.name, ownerAfter fallbackOwner r.name own)).toList
        else []) ∧
      owner? (emit (r.dropIn fallbackOwner) dbs names).2 d =
        if d ∈ names then (owner? dbs d).map (ownerAfter fallbackOwner r.name) else owner? dbs d := by
  induction names with
  | nil => intro dbs; exact ⟨rfl, rfl⟩
  | cons dbname names ih =>
    intro dbs
    obtain ⟨hnot, hn⟩ := List.nodup_cons.mp hn
    obtain ⟨hmoves, howner⟩ := ih hn (r.dropIn fallbackOwner dbs dbname).2
    simp only [emit, moves_append, hmoves, howner, moves_dropIn, owner_dropIn]
    -- each database is visited once, so its turn is now or later but not both
    by_cases he : d = dbname
    · subst he; simp [hnot]
    · simp [he]

/-- Dropping a role moves its objects of `d` to the owner of `d`, or to the
fallback owner when the role itself is that owner. -/
theorem moves_drop (o : Order) (d : String) :
    moves d (r.drop o fallbackOwner dbs).1 =
        ((owner? dbs d).map fun own => (r.name, ownerAfter fallbackOwner r.name own)).toList ∧
      owner? (r.drop o fallbackOwner dbs).2 d =
        (owner? dbs d).map (ownerAfter fallbackOwner r.name) := by
  have hn : (o.range dbs.names).Nodup := Order.range_nodup dbs.nodup_names
  obtain ⟨hmoves, howner⟩ := emit_dropIn fallbackOwner r hn d dbs
  have hin : d ∉ o.range dbs.names → owner? dbs d = none := by
    intro hd
    rw [Order.mem_range, DBMap.mem_names, Dict.not_mem_iff] at hd
    rw [owner?, hd]
    rfl
  constructor
  · simp only [Role.drop, moves_append, hmoves]
    have hlogin : moves d (if r.options.canLogin = true then
        [{ description := "Terminate running sessions.", database := "<first>",
           stmt := Stmt.terminate r.name }] else ([] : List Query)) = [] := by
      split <;> simp [moves_cons, reassignment]
    rw [hlogin]
    by_cases hd : d ∈ o.range dbs.names
    · simp [hd, moves_cons, reassignment]
    · simp [hin hd, moves_cons, reassignment]
  · simp only [Role.drop, howner]
    by_cases hd : d ∈ o.range dbs.names
    · simp [hd]
    · simp [hin hd]

theorem moves_drops (o : Order) (d : String) (roles : List (Role × Nat)) :
    ∀ dbs : DBMap,
      moves d (emit (fun dbs ri => ri.1.drop (o.sub ri.2) fallbackOwner dbs) dbs roles).1 =
        match owner? dbs d with
        | none => []
        | some own => takers fallbackOwner own (roles.map fun ri => ri.1.name) := by
  induction roles with
  | nil => intro dbs; cases owner? dbs d <;> rfl
  | cons ri roles ih =>
    intro dbs
    obtain ⟨hmoves, howner⟩ := moves_drop fallbackOwner dbs ri.1 (o.sub ri.2) d
    simp only [emit, moves_append, hmoves, ih, howner]
    cases owner? dbs d <;> rfl

end Drops

/-! ## The whole stage -/

/-- The object of owner `owner`, in a database of owner `dbOwner`, is lost when
the roles are dropped in this order: the fallback owner is dropped too, not
before the owner of the object nor before the owner of the database. -/
def Lost (fallbackOwner dbOwner owner : String) (names : List String) : Prop :=
  ∃ before after, names = before ++ fallbackOwner :: after ∧
    dbOwner ∈ before ++ [fallbackOwner] ∧ owner ∈ before ++ [fallbackOwner]

/-- Who owns the object after the drop of `role`, if it is still there. -/
def holderAfter (fallbackOwner role dbOwner owner : String) : String :=
  if owner = role then ownerAfter fallbackOwner role dbOwner else owner

theorem lost_cons {fallbackOwner dbOwner owner role : String} {names : List String} :
    Lost fallbackOwner dbOwner owner (role :: names) ↔
      (role = fallbackOwner ∧ dbOwner = role ∧ owner = role) ∨
        Lost fallbackOwner (ownerAfter fallbackOwner role dbOwner)
          (holderAfter fallbackOwner role dbOwner owner) names := by
  constructor
  · intro ⟨before, after, hsplit, hdb, hown⟩
    cases before with
    | nil =>
      obtain ⟨rfl, _⟩ := List.cons_eq_cons.mp hsplit
      exact .inl ⟨rfl, List.mem_singleton.mp hdb, List.mem_singleton.mp hown⟩
    | cons first before =>
      obtain ⟨rfl, hrest⟩ := List.cons_eq_cons.mp hsplit
      have hdb' : ownerAfter fallbackOwner role dbOwner ∈ before ++ [fallbackOwner] := by
        unfold ownerAfter
        split
        · simp
        · exact (List.mem_cons.mp hdb).resolve_left ‹_›
      refine .inr ⟨before, after, hrest, hdb', ?_⟩
      unfold holderAfter
      split
      · exact hdb'
      · exact (List.mem_cons.mp hown).resolve_left ‹_›
  · rintro (⟨rfl, rfl, rfl⟩ | ⟨before, after, rfl, hdb, hown⟩)
    · exact ⟨[], names, rfl, by simp, by simp⟩
    · refine ⟨role :: before, after, rfl, ?_, ?_⟩
      · by_cases hr : dbOwner = role
        · exact List.mem_cons.mpr (.inl hr)
        · rw [ownerAfter, if_neg hr] at hdb
          exact List.mem_cons_of_mem role hdb
      · by_cases hr : owner = role
        · exact List.mem_cons.mpr (.inl hr)
        · rw [holderAfter, if_neg hr] at hown
          exact List.mem_cons_of_mem role hown

/-- One drop deletes the object exactly when it belongs, like its database, to
the dropped role and this role is the fallback owner. -/
theorem move_taker (fallbackOwner role dbOwner owner : String) :
    move (some owner) role (ownerAfter fallbackOwner role dbOwner) =
      if role = fallbackOwner ∧ dbOwner = role ∧ owner = role then none
      else some (holderAfter fallbackOwner role dbOwner owner) := by
  unfold move holderAfter ownerAfter
  by_cases hown : owner = role
  · by_cases hdb : dbOwner = role
    · by_cases hf : fallbackOwner = role
      · simp [hown, hdb, hf]
      · simp [hown, hdb, hf, Ne.symm hf]
    · simp [hown, hdb]
  · simp [hown]

theorem foldl_move_none (l : List (String × String)) :
    l.foldl (fun c m => move c m.1 m.2) none = none := by
  induction l with
  | nil => rfl
  | cons m l ih => exact ih

/-- Along the takers of one database, an object is deleted exactly when it is
`Lost`. -/
theorem takers_none_iff (fallbackOwner : String) (names : List String) :
    ∀ dbOwner owner : String,
      (takers fallbackOwner dbOwner names).foldl (fun c m => move c m.1 m.2) (some owner) = none ↔
        Lost fallbackOwner dbOwner owner names := by
  induction names with
  | nil =>
    intro dbOwner owner
    constructor
    · intro h; cases h
    · intro ⟨before, after, h, _⟩
      exact absurd h.symm (by simp)
  | cons role names ih =>
    intro dbOwner owner
    rw [lost_cons, ← ih, takers, List.foldl_cons, move_taker]
    by_cases hlost : role = fallbackOwner ∧ dbOwner = role ∧ owner = role
    · rw [if_pos hlost, foldl_move_none]
      exact ⟨fun _ => .inl hlost, fun _ => rfl⟩
    · rw [if_neg hlost]
      exact ⟨.inr, fun h => h.resolve_left hlost⟩

/-- Grouping by database keeps the reassignments of every managed database. -/
theorem moves_stage {cols : Columns} {o : Order} {all managed wanted : RoleMap}
    {fallbackOwner : String} {dbs : DBMap} {defaultDatabase : String} {queries : List Query}
    (h : stage cols o all managed wanted fallbackOwner dbs defaultDatabase = some queries)
    (hreach : Reached dbs.map ((syncOrder dbs.map defaultDatabase false).headD "")) (d : String) :
    moves d queries =
      match owner? dbs d with
      | none => []
      | some own =>
        takers fallbackOwner own ((dropped (o.sub 3) all managed wanted).map Role.name) := by
  obtain ⟨out, hdiff, hgroup⟩ := stage_eq_some h
  obtain ⟨names, _, hout⟩ := diff_eq_some hdiff
  have hups : ∀ q ∈ upserts cols (o.sub 1) all wanted names, ∀ role owner,
      q.stmt ≠ .reassignOwned role owner := by
    intro q hq role owner he
    obtain ⟨_, _, _, _, _, hs⟩ := mem_upserts hq
    rw [he] at hs
    cases hs
  have hreal : ∀ q ∈ out.1, ∀ role owner, q.stmt = .reassignOwned role owner →
      q.resolved defaultDatabase ((syncOrder dbs.map defaultDatabase false).headD "") = q := by
    intro q hq role owner he
    rw [hout] at hq
    rcases List.mem_append.mp hq with hq | hq
    · exact absurd he (hups q hq role owner)
    · obtain ⟨r, _, hr⟩ := mem_drops hq
      cases hr with
      | reassign own hd => exact hreach.resolved (DBMap.mem_names.mp hd)
      | _ => cases he
  rw [← moves_filter, groupByDatabase_filter hgroup]
  by_cases hd : d ∈ dbs.map
  · rw [if_pos hd, moves_filter, resolvedIn, moves_resolved d _ _ hreal, hout, moves_append,
      moves_eq_nil hups, List.nil_append, drops, moves_drops, zipIdx_map_name]
  · have hnone : owner? dbs d = none := by rw [owner?, Dict.not_mem_iff.mp hd]; rfl
    rw [if_neg hd, hnone]
    rfl

/-- **When dropping roles destroys objects.** If queries reach the databases they are
for, no object is ever deleted in the stage exactly when none is `Lost` to the roles
dropped in this run. -/
theorem no_object_deleted_iff {cols : Columns} {o : Order} {all managed wanted : RoleMap}
    {fallbackOwner : String} {dbs : DBMap} {defaultDatabase : String} {queries : List Query}
    (h : stage cols o all managed wanted fallbackOwner dbs defaultDatabase = some queries)
    (hreach : Reached dbs.map ((syncOrder dbs.map defaultDatabase false).headD ""))
    (owns : String → Obj → String) :
    (∀ executed rest, queries = executed ++ rest → ∀ d x,
        execAll (fun d x => some (owns d x)) executed d x ≠ none) ↔
      ∀ d database, dbs.map[d]? = some database → ∀ x,
        ¬ Lost fallbackOwner database.owner (owns d x)
          ((dropped (o.sub 3) all managed wanted).map Role.name) := by
  have hrun : ∀ d x, execAll (fun d x => some (owns d x)) queries d x = none ↔
      ∃ database, dbs.map[d]? = some database ∧ Lost fallbackOwner database.owner (owns d x)
        ((dropped (o.sub 3) all managed wanted).map Role.name) := by
    intro d x
    rw [execAll_eq_moves, moves_stage h hreach, owner?]
    cases hd : dbs.map[d]? with
    | none => simp
    | some database => simpa using takers_none_iff fallbackOwner _ database.owner (owns d x)
  constructor
  · intro hsafe d database hd x hlost
    exact hsafe queries [] (List.append_nil _).symm d x ((hrun d x).mpr ⟨database, hd, hlost⟩)
  · intro hsafe executed rest hsplit d x hnone
    -- what is deleted stays deleted, so the end of the stage shows it
    have hend : execAll (fun d x => some (owns d x)) queries d x = none := by
      rw [hsplit, execAll_eq_moves, moves_append, List.foldl_append,
        ← execAll_eq_moves d x executed (fun d x => some (owns d x)), hnone, foldl_move_none]
    obtain ⟨database, hd, hlost⟩ := (hrun d x).mp hend
    exact hsafe d database hd x hlost

/-! A managed role `bob` owns the only database and, nobody wanting it any more,
is dropped. -/

def bobOnly : RoleMap := (∅ : RoleMap).insert "bob" { name := "bob" }

def appOfBob : DBMap := .single { name := "app", owner := "bob" }

theorem reached_appOfBob : Reached appOfBob.map "app" := by
  intro d hd
  obtain ⟨database, hdatabase⟩ := Dict.mem_iff.mp hd
  rcases Dict.get_insert_cases hdatabase with ⟨rfl, _⟩ | ⟨_, hnone⟩
  · decide
  · simp at hnone

/-- With another fallback owner the objects of `bob` survive. -/
theorem bob_dropped_objects_kept :
    ∃ queries, stage (fun _ => true) Order.sorted bobOnly bobOnly ∅ "postgres" appOfBob "app" =
        some queries ∧
      ∀ executed rest, queries = executed ++ rest → ∀ d (x : Unit),
        execAll (fun _ _ => some "bob") executed d x ≠ none := by
  obtain ⟨queries, hq⟩ : ∃ queries, stage (fun _ => true) Order.sorted bobOnly bobOnly ∅
      "postgres" appOfBob "app" = some queries := ⟨_, rfl⟩
  refine ⟨queries, hq, (no_object_deleted_iff hq reached_appOfBob fun _ _ => "bob").mpr ?_⟩
  intro d database _ x ⟨before, after, hsplit, _⟩
  have hnames : (dropped (Order.sorted.sub 3) bobOnly bobOnly ∅).map Role.name = ["bob"] := by decide
  have hin : "postgres" ∈ ["bob"] := by
    rw [← hnames, hsplit]
    exact List.mem_append_right before List.mem_cons_self
  exact absurd hin (by decide)

/-- With `bob` as fallback owner they are handed to `bob`, then deleted. -/
theorem fallback_owner_dropped_deletes :
    ∃ queries, stage (fun _ => true) Order.sorted bobOnly bobOnly ∅ "bob" appOfBob "app" =
        some queries ∧
      execAll (fun _ (_ : Unit) => some "bob") queries "app" () = none := by
  refine ⟨_, rfl, ?_⟩
  decide

end Ldap2pg.Roles.DropSafety
