import Ldap2pg.Lib.Commands
import Ldap2pg.Roles.DropSafety

/-! # Who owns what after the drops

Databases have owners too, and `REASSIGN OWNED` hands them over whatever the
database it runs in: a database may go through several owners before the
`ALTER DATABASE` of its former owner, which waits in the group of the default
database. `Catalog` adds the owners of databases and the roles already dropped
to the owners of objects. -/
namespace Ldap2pg.Roles.Ownership
open Lib Lib.Commands Postgres Roles.DropSafety

variable {names : List String}

structure Catalog (Obj : Type) where
  databases : String → String
  objects : DropSafety.Ownership Obj
  gone : List String

variable {Obj : Type}

variable {c : Catalog Obj}

def exec (c : Catalog Obj) (q : Query) : Catalog Obj where
  databases :=
    match q.stmt with
    | .alterDatabase d owner => Function.update c.databases d owner
    | .reassignOwned role owner => fun d =>
      if c.databases d = role then owner else c.databases d
    | _ => c.databases
  objects := DropSafety.exec c.objects q
  gone :=
    match q.stmt with
    | .drop role => c.gone ++ [role]
    | _ => c.gone

def execAll (c : Catalog Obj) (queries : List Query) : Catalog Obj := queries.foldl exec c

def newOwner : Stmt → Option String
  | .alterDatabase _ owner | .reassignOwned _ owner => some owner
  | _ => none

/-- A role to drop owns nothing any more, and a new owner is not dropped. -/
structure Fine (dbs : DBMap) (c : Catalog Obj) (q : Query) : Prop where
  drop : ∀ name, q.stmt = .drop name →
    ∀ d ∈ dbs.map, c.databases d ≠ name ∧ ∀ x, c.objects d x ≠ some name
  owner : ∀ name, newOwner q.stmt = some name → name ∉ c.gone

theorem execAll_objects (c : Catalog Obj) (queries : List Query) :
    (execAll c queries).objects = DropSafety.execAll c.objects queries := by
  induction queries generalizing c with
  | nil => rfl
  | cons q queries ih => exact ih (exec c q)

/-- The statement hands nothing over and drops no role. -/
structure Inert (s : Stmt) : Prop where
  owner : newOwner s = none
  drop : ∀ name, s ≠ .drop name

theorem exec_inert (dbs : DBMap) {q : Query} (h : Inert q.stmt) (c : Catalog Obj) :
    Fine dbs c q ∧ exec c q = c := by
  refine ⟨⟨fun name he => absurd he (h.drop name), fun name he => ?_⟩, ?_⟩
  · rw [h.owner] at he
    cases he
  · unfold exec DropSafety.exec
    cases hs : q.stmt with
    | alterDatabase d owner => exact absurd (hs ▸ h.owner) nofun
    | reassignOwned role owner => exact absurd (hs ▸ h.owner) nofun
    | drop role => exact absurd hs (h.drop role)
    | _ => rfl

theorem inert_upsert {name : String} {s : Stmt} (h : UpsertStmt name s) : Inert s := by
  refine ⟨?_, ?_⟩ <;> cases h <;> first | rfl | exact nofun

/-! ## The owner that objects end with -/

/-- The owner of a database, or of its objects, once the roles are dropped. -/
def heir (fallbackOwner : String) (names : List String) (dbOwner : String) : String :=
  if dbOwner ∈ names then fallbackOwner else dbOwner

theorem heir_not_mem {fallbackOwner : String} (hf : fallbackOwner ∉ names) (dbOwner : String) :
    heir fallbackOwner names dbOwner ∉ names := by
  unfold heir
  split
  · exact hf
  · assumption

theorem foldl_takers {fallbackOwner : String} (hf : fallbackOwner ∉ names) :
    ∀ dbOwner owner : String,
      (takers fallbackOwner dbOwner names).foldl (fun c m => move c m.1 m.2) (some owner) =
        some (if owner ∈ names then heir fallbackOwner names dbOwner else owner) := by
  induction names with
  | nil => intro dbOwner owner; rfl
  | cons role names ih =>
    intro dbOwner owner
    rw [List.mem_cons, not_or] at hf
    obtain ⟨hrole, hf⟩ := hf
    rw [takers, List.foldl_cons, move_taker, if_neg fun h => hrole h.1.symm, ih hf]
    unfold heir holderAfter ownerAfter
    by_cases howner : owner = role
    · by_cases hdb : dbOwner = role
      · simp [howner, hdb, hf]
      · by_cases hin : dbOwner ∈ names <;> simp [howner, hdb, hin]
    · by_cases hdb : dbOwner = role
      · simp [howner, hdb, hf]
      · simp [howner, hdb]

/-! ## The databases that are handed over -/

/-- The new owners that `ALTER DATABASE` gives to `d`. -/
def alters (d : String) (queries : List Query) : List String :=
  queries.filterMap fun q =>
    match q.stmt with
    | .alterDatabase d' owner => if d = d' then some owner else none
    | _ => none

theorem alters_append (d : String) (l l' : List Query) :
    alters d (l ++ l') = alters d l ++ alters d l' := List.filterMap_append

section Alters
variable (fallbackOwner : String) (r : Role)

theorem alters_dropIn (dbs : DBMap) (dbname d : String) :
    alters d (r.dropIn fallbackOwner dbs dbname).1 =
      if d = dbname ∧ owner? dbs d = some r.name then [fallbackOwner] else [] := by
  unfold owner? Role.dropIn
  split
  case h_1 hn =>
    rw [if_neg]
    · rfl
    · rintro ⟨rfl, h⟩
      rw [hn] at h
      cases h
  case h_2 database hk =>
    have hname : database.name = dbname := dbs.key dbname database hk
    by_cases he : d = dbname
    · subst he
      by_cases ho : database.owner = r.name <;> simp [ho, hk, hname, alters]
    · by_cases ho : database.owner = r.name <;> simp [ho, he, hname, alters]

theorem alters_emit (hn : names.Nodup) (d : String) : ∀ dbs : DBMap,
    alters d (emit (r.dropIn fallbackOwner) dbs names).1 =
      if d ∈ names ∧ owner? dbs d = some r.name then [fallbackOwner] else [] := by
  induction names with
  | nil => intro dbs; simp [emit, alters]
  | cons dbname names ih =>
    intro dbs
    obtain ⟨hnot, hn⟩ := List.nodup_cons.mp hn
    simp only [emit, alters_append, ih hn, alters_dropIn, owner_dropIn]
    by_cases he : d = dbname
    · subst he; simp [hnot]
    · simp [he]

theorem alters_drop (o : Order) (dbs : DBMap) (d : String) :
    alters d (r.drop o fallbackOwner dbs).1 =
      if owner? dbs d = some r.name then [fallbackOwner] else [] := by
  have hn : (o.range dbs.names).Nodup := Order.range_nodup dbs.nodup_names
  have hin : owner? dbs d = some r.name → d ∈ o.range dbs.names := by
    intro howner
    obtain ⟨database, hd, _⟩ := Option.map_eq_some_iff.mp howner
    exact Order.mem_range.mpr (DBMap.mem_names.mpr (Dict.mem_iff.mpr ⟨database, hd⟩))
  have hlogin : alters d (if r.options.canLogin = true then
      [{ description := "Terminate running sessions.", database := "<first>",
         stmt := Stmt.terminate r.name }] else ([] : List Query)) = [] := by
    split <;> simp [alters]
  simp only [Role.drop, alters_append, alters_emit fallbackOwner r hn, hlogin]
  by_cases howner : owner? dbs d = some r.name
  · simp [howner, hin howner, alters]
  · simp [howner, alters]

/-- Dropping roles hands over the databases they own, once, to the fallback owner. -/
theorem alters_drops (o : Order) (d : String) (roles : List (Role × Nat))
    (hf : fallbackOwner ∉ roles.map fun ri => ri.1.name) : ∀ dbs : DBMap,
    alters d (emit (fun dbs ri => ri.1.drop (o.sub ri.2) fallbackOwner dbs) dbs roles).1 =
      match owner? dbs d with
      | none => []
      | some own => if own ∈ roles.map fun ri => ri.1.name then [fallbackOwner] else [] := by
  induction roles with
  | nil => intro dbs; cases owner? dbs d <;> simp [emit, alters]
  | cons ri roles ih =>
    intro dbs
    rw [List.map_cons, List.mem_cons, not_or] at hf
    simp only [emit, alters_append, alters_drop, ih hf.2, (moves_drop _ dbs ri.1 _ d).2]
    cases owner? dbs d with
    | none => rfl
    | some own =>
      simp only [Option.map_some, ownerAfter]
      by_cases hown : own = ri.1.name
      · simp [hown, hf.2]
      · simp only [hown, if_false, Option.some.injEq, List.nil_append, List.map_cons, List.mem_cons,
          false_or]

end Alters

/-! ## Running the drops -/

/-- The queries that run in the default database. -/
def inDefault (defaultDatabase first : String) (l : List Query) : List Query :=
  (l.map (SyncQuery.resolved defaultDatabase first)).filter fun q => q.database = defaultDatabase

theorem inDefault_append (defaultDatabase first : String) (l l' : List Query) :
    inDefault defaultDatabase first (l ++ l') =
      inDefault defaultDatabase first l ++ inDefault defaultDatabase first l' := by
  simp [inDefault]

/-- While the group of the default database runs, after the drop of some roles:
they own nothing and nobody is to hand them anything. -/
structure Halfway (dbs : DBMap) (names : List String) (defaultDatabase : String)
    (processed : List String) (recorded : DBMap) (c : Catalog Obj) : Prop where
  mem : ∀ k, k ∈ recorded.map ↔ k ∈ dbs.map
  gone : ∀ n ∈ c.gone, n ∈ processed
  owner : ∀ d own, owner? recorded d = some own → own ∉ processed
  objects : ∀ x, ∀ n ∈ processed, c.objects defaultDatabase x ≠ some n
  /-- the other groups are over -/
  others : ∀ d ∈ dbs.map, d ≠ defaultDatabase → ∀ x, ∀ n ∈ names, c.objects d x ≠ some n

/-- In the drop of `role`, which owns nothing from its reassignment on. -/
structure Turn (dbs : DBMap) (names : List String) (defaultDatabase : String)
    (processed : List String) (role : String) (visited : List String) (recorded : DBMap)
    (c : Catalog Obj) : Prop extends Halfway dbs names defaultDatabase processed recorded c where
  cleared : defaultDatabase ∈ visited →
    (∀ d, c.databases d ≠ role) ∧ ∀ x, c.objects defaultDatabase x ≠ some role

/-- Queries that all run fine, on catalogues of objects of a given type. -/
abbrev Holds (Obj : Type) (dbs : DBMap) (I : Catalog Obj → Prop) (l : List Query)
    (J : Catalog Obj → Prop) : Prop :=
  Triple exec (Fine dbs) I l J

section Block
variable {dbs recorded : DBMap} {names processed visited : List String}
  {defaultDatabase first fallbackOwner role owner dbname : String} {c : Catalog Obj}

theorem move_ne {current : Option String} {role owner n : String} (h : current ≠ some n)
    (hn : owner ≠ n) : move current role owner ≠ some n := by
  unfold move
  grind

theorem move_cleared {current : Option String} {role owner : String} :
    move current role owner ≠ some role := by
  unfold move
  grind

theorem alter_triple (hf : fallbackOwner ∉ names) (hsub : ∀ n ∈ processed, n ∈ names)
    (hrole : role ∈ names) (description d : String) :
    Holds Obj dbs (Turn dbs names defaultDatabase processed role visited recorded)
      [{ description, database := defaultDatabase, stmt := .alterDatabase d fallbackOwner }]
      (Turn dbs names defaultDatabase processed role visited recorded) := by
  refine .single fun c hc => ⟨⟨nofun, fun name he hgone => ?_⟩, ?_⟩
  · cases he
    exact hf (hsub _ (hc.gone _ hgone))
  · refine ⟨⟨hc.mem, hc.gone, hc.owner, hc.objects, hc.others⟩, fun hvisited => ⟨fun d' => ?_, ?_⟩⟩
    · show Function.update c.databases d fallbackOwner d' ≠ role
      by_cases hd : d' = d
      · subst hd
        rw [Function.update_self]
        exact fun he => hf (he ▸ hrole)
      · rw [Function.update_of_ne hd]
        exact (hc.cleared hvisited).1 d'
    · exact (hc.cleared hvisited).2

theorem reassign_triple (howner : owner ∉ processed) (hne : owner ≠ role) (description : String) :
    Holds Obj dbs (Turn dbs names defaultDatabase processed role visited recorded)
      [{ description, database := defaultDatabase, stmt := .reassignOwned role owner }]
      (Turn dbs names defaultDatabase processed role (visited ++ [defaultDatabase]) recorded) := by
  refine .single fun c hc => ⟨⟨nofun, fun name he hgone => ?_⟩, ?_⟩
  · cases he
    exact howner (hc.gone _ hgone)
  · refine ⟨⟨hc.mem, hc.gone, hc.owner, fun x n hn => ?_, fun d hd hne' x n hn => ?_⟩,
      fun _ => ⟨fun d => ?_, fun x => ?_⟩⟩
    · show (if defaultDatabase = defaultDatabase then _ else _) ≠ some n
      rw [if_pos rfl]
      exact move_ne (hc.objects x n hn) fun he => howner (he ▸ hn)
    · show (if d = defaultDatabase then _ else _) ≠ some n
      rw [if_neg hne']
      exact hc.others d hd hne' x n hn
    · show (if c.databases d = role then owner else c.databases d) ≠ role
      split
      · exact hne
      · assumption
    · show (if defaultDatabase = defaultDatabase then _ else _) ≠ some role
      rw [if_pos rfl]
      exact move_cleared

/-- The databases that do not run the group count for nothing. -/
theorem Turn.visit (h : Turn dbs names defaultDatabase processed role visited recorded c)
    (hne : dbname ≠ defaultDatabase) :
    Turn dbs names defaultDatabase processed role (visited ++ [dbname]) recorded c := by
  refine ⟨h.toHalfway, fun hvisited => h.cleared ?_⟩
  rcases List.mem_append.mp hvisited with hvisited | hvisited
  · exact hvisited
  · exact absurd (List.mem_singleton.mp hvisited).symm hne

/-- What `Drop` records: the owner is the fallback owner, or the one it was. -/
theorem Turn.record {r : Role} (hf : fallbackOwner ∉ names) (hsub : ∀ n ∈ processed, n ∈ names)
    (h : Turn dbs names defaultDatabase processed role visited recorded c) :
    Turn dbs names defaultDatabase processed role visited
      (r.dropIn fallbackOwner recorded dbname).2 c := by
  refine ⟨⟨fun k => (dropIn_names r dbname k).trans (h.mem k), h.gone, fun d own hown => ?_,
    h.objects, h.others⟩, h.cleared⟩
  rw [owner_dropIn] at hown
  split at hown
  · obtain ⟨own', hown', rfl⟩ := Option.map_eq_some_iff.mp hown
    unfold ownerAfter
    split
    · exact fun hin => hf (hsub _ hin)
    · exact h.owner d own' hown'
  · exact h.owner d own hown

theorem inDefault_reassign {description : String} {stmt : Stmt} (hreach : Reached dbs.map first)
    (hin : dbname ∈ dbs.map) :
    inDefault defaultDatabase first [{ description, database := dbname, stmt }] =
      if dbname = defaultDatabase
      then [{ description, database := defaultDatabase, stmt }] else [] := by
  rw [inDefault, List.map_singleton, hreach.resolved hin]
  by_cases he : dbname = defaultDatabase <;> simp [he]

theorem inDefault_own {description : String} {stmt : Stmt} :
    inDefault defaultDatabase first [{ description, stmt }] =
      [{ description, database := defaultDatabase, stmt }] := by
  simp [inDefault, SyncQuery.resolved]

section Reach
variable (hreach : Reached dbs.map first)
include hreach

theorem purge_triple (hin : dbname ∈ dbs.map) (howner : owner ∉ processed) (hne : owner ≠ role)
    (description : String) :
    Holds Obj dbs (Turn dbs names defaultDatabase processed role visited recorded)
      (inDefault defaultDatabase first
        [{ description, database := dbname, stmt := .reassignOwned role owner }])
      (Turn dbs names defaultDatabase processed role (visited ++ [dbname]) recorded) := by
  rw [inDefault_reassign hreach hin]
  split
  case isTrue he =>
    rw [he]
    exact reassign_triple howner hne description
  case isFalse he => exact .nil fun c hc => hc.visit he

/-- One database in the drop of a role. -/
theorem dropIn_triple {r : Role} (hf : fallbackOwner ∉ names) (hsub : ∀ n ∈ processed, n ∈ names)
    (hr : r.name ∈ names) (hin : dbname ∈ dbs.map) :
    Holds Obj dbs (Turn dbs names defaultDatabase processed r.name visited recorded)
      (inDefault defaultDatabase first (r.dropIn fallbackOwner recorded dbname).1)
      (Turn dbs names defaultDatabase processed r.name (visited ++ [dbname])
        (r.dropIn fallbackOwner recorded dbname).2) := by
  have hfallback : fallbackOwner ∉ processed ∧ fallbackOwner ≠ r.name :=
    ⟨fun h => hf (hsub _ h), fun he => hf (he ▸ hr)⟩
  refine Triple.weaken ?_ (fun _ hc => hc) fun c hc => Turn.record hf hsub hc
  intro c hc
  obtain ⟨database, hk⟩ := Dict.mem_iff.mp ((hc.mem dbname).mpr hin)
  have hname : database.name = dbname := recorded.key dbname database hk
  have hown : database.owner ∉ processed := hc.owner dbname database.owner (by rw [owner?, hk]; rfl)
  refine (?_ : Holds Obj dbs _ _ _) c hc
  rw [Role.dropIn, hk]
  simp only
  split
  · rw [hname, ← List.singleton_append, inDefault_append, inDefault_own]
    exact .append (alter_triple hf hsub hr _ dbname) (purge_triple hreach hin hfallback.1 hfallback.2 _)
  · rename_i hne
    rw [hname]
    exact purge_triple hreach hin hown hne _

omit hreach in
theorem inert_triple {I : Catalog Obj → Prop} {l : List Query} (h : ∀ q ∈ l, Inert q.stmt) :
    Holds Obj dbs I (inDefault defaultDatabase first l) I := by
  refine .all fun q hq c hc => ?_
  obtain ⟨q₀, hq₀, rfl⟩ := List.mem_map.mp (List.mem_filter.mp hq).1
  obtain ⟨hfine, hsame⟩ := exec_inert dbs (q := q₀.resolved defaultDatabase first) (h q₀ hq₀) c
  exact ⟨hfine, hsame.symm ▸ hc⟩

omit hreach in
/-- Once it has visited the default database, the role owns nothing and can be dropped. -/
theorem dropLast_triple {r : Role} (o : Order) (hf : fallbackOwner ∉ names)
    (hsub : ∀ n ∈ processed, n ∈ names) (hr : r.name ∈ names)
    (howner : ∀ d own, owner? recorded d = some own → own ∉ processed)
    (hvisited : defaultDatabase ∈ visited) :
    Holds Obj dbs
      (Turn dbs names defaultDatabase processed r.name visited (r.drop o fallbackOwner recorded).2)
      (inDefault defaultDatabase first [{ description := "Drop role.", stmt := .drop r.name }])
      (Halfway dbs names defaultDatabase (processed ++ [r.name])
        (r.drop o fallbackOwner recorded).2) := by
  rw [inDefault_own]
  refine .single fun c hc => ?_
  obtain ⟨hdatabases, hobjects⟩ := hc.cleared hvisited
  refine ⟨⟨fun name he d hd => ?_, nofun⟩, hc.mem, fun n hn => ?_, fun d own hown => ?_,
    fun x n hn => ?_, hc.others⟩
  · cases he
    refine ⟨hdatabases d, fun x => ?_⟩
    by_cases hdefault : d = defaultDatabase
    · exact hdefault ▸ hobjects x
    · exact hc.others d hd hdefault x r.name hr
  · rcases List.mem_append.mp hn with hn | hn
    · exact List.mem_append_left _ (hc.gone n hn)
    · exact List.mem_append_right _ hn
  · rw [(moves_drop fallbackOwner recorded r o d).2] at hown
    obtain ⟨own', hown', rfl⟩ := Option.map_eq_some_iff.mp hown
    unfold ownerAfter
    rw [List.mem_append, List.mem_singleton, not_or]
    split
    · exact ⟨fun h => hf (hsub _ h), fun he => hf (he ▸ hr)⟩
    · exact ⟨howner d own' hown', ‹_›⟩
  · rcases List.mem_append.mp hn with hn | hn
    · exact hc.objects x n hn
    · rw [List.mem_singleton.mp hn]
      exact hobjects x

/-- The group of the default database drops a role. -/
theorem drop_triple {r : Role} (o : Order) (hf : fallbackOwner ∉ names)
    (hsub : ∀ n ∈ processed, n ∈ names) (hr : r.name ∈ names) (hin : defaultDatabase ∈ dbs.map) :
    Holds Obj dbs (Halfway dbs names defaultDatabase processed recorded)
      (inDefault defaultDatabase first (r.drop o fallbackOwner recorded).1)
      (Halfway dbs names defaultDatabase (processed ++ [r.name])
        (r.drop o fallbackOwner recorded).2) := by
  intro c hc
  have hrange : ∀ d, d ∈ o.range recorded.names ↔ d ∈ dbs.map := fun d =>
    Order.mem_range.trans (DBMap.mem_names.trans (hc.mem d))
  have hloop : Holds Obj dbs (Turn dbs names defaultDatabase processed r.name [] recorded)
      (inDefault defaultDatabase first
        (emit (r.dropIn fallbackOwner) recorded (o.range recorded.names)).1)
      (Turn dbs names defaultDatabase processed r.name (o.range recorded.names)
        (r.drop o fallbackOwner recorded).2) := by
    refine Triple.emit (I := fun visited v => Turn dbs names defaultDatabase processed r.name visited v)
      rfl (inDefault_append defaultDatabase first) (fun before dbname later v hsplit => ?_) recorded
    refine dropIn_triple hreach hf hsub hr ((hrange dbname).mp ?_)
    rw [hsplit]
    exact List.mem_append_right before List.mem_cons_self
  have hlogin : ∀ q ∈ (if r.options.canLogin then
      [{ description := "Terminate running sessions.", database := "<first>",
         stmt := .terminate r.name }] else ([] : List Query)), Inert q.stmt := by
    intro q hq
    split at hq
    · cases List.mem_singleton.mp hq
      exact ⟨rfl, nofun⟩
    · cases hq
  have hnologin : ∀ q ∈ ([{ description := "Drop LOGIN.", stmt := .noLogin r.name }] : List Query),
      Inert q.stmt := by
    intro q hq
    cases List.mem_singleton.mp hq
    exact ⟨rfl, nofun⟩
  refine (?_ : Holds Obj dbs _ _ _) c hc
  rw [Role.drop, ← List.singleton_append (l := [_]), inDefault_append, inDefault_append,
    inDefault_append]
  refine .append (.append (inert_triple hlogin) ?_) (.append (inert_triple hnologin)
    (dropLast_triple o hf hsub hr hc.owner ((hrange defaultDatabase).mpr hin)))
  exact hloop.weaken (fun c hc => ⟨hc, fun hin => absurd hin List.not_mem_nil⟩) fun c hc => hc

/-- It drops them all. -/
theorem drops_triple (o : Order) {roles : List Role} (hnames : names = roles.map Role.name)
    (hf : fallbackOwner ∉ names) (hin : defaultDatabase ∈ dbs.map) :
    Holds Obj dbs (Halfway dbs names defaultDatabase [] dbs)
      (inDefault defaultDatabase first (drops o roles fallbackOwner dbs).1)
      fun _ => True := by
  have hall : ∀ ri ∈ roles.zipIdx, ri.1.name ∈ names := by
    intro ri hri
    rw [hnames]
    exact List.mem_map_of_mem (List.fst_mem_of_mem_zipIdx hri)
  refine Triple.weaken (Triple.emit (I := fun (before : List (Role × Nat)) v =>
    Halfway dbs names defaultDatabase (before.map fun ri => ri.1.name) v) rfl
    (inDefault_append defaultDatabase first) (fun before ri later v hsplit => ?_) dbs)
    (fun _ hc => hc) fun _ _ => trivial
  have hmem : ∀ ri' ∈ before ++ [ri], ri'.1.name ∈ names := by
    intro ri' hri'
    refine hall ri' ?_
    rw [hsplit, ← List.singleton_append, ← List.append_assoc]
    exact List.mem_append_left later hri'
  have hsub : ∀ n ∈ before.map fun ri => ri.1.name, n ∈ names := by
    intro n hn
    obtain ⟨ri', hri', rfl⟩ := List.mem_map.mp hn
    exact hmem ri' (List.mem_append_left _ hri')
  rw [List.map_append]
  exact drop_triple hreach (o.sub ri.2) hf hsub (hmem ri (by simp)) hin

end Reach

end Block

/-! ## The whole stage -/

section Stage
variable {cols : Columns} {o : Order} {all managed wanted : RoleMap} {fallbackOwner : String}
  {dbs : DBMap} {defaultDatabase : String} {queries : List Query}

/-- The names of the roles that are dropped, in order. -/
def droppedNames (o : Order) (all managed wanted : RoleMap) : List String :=
  (dropped (o.sub 3) all managed wanted).map Role.name

theorem mem_alters {d owner : String} {l : List Query} :
    owner ∈ alters d l ↔ ∃ q ∈ l, q.stmt = .alterDatabase d owner := by
  rw [alters, List.mem_filterMap]
  refine exists_congr fun q => and_congr_right fun _ => ?_
  split
  case h_1 d' owner' hs =>
    rw [hs, Stmt.alterDatabase.injEq]
    by_cases hd : d = d'
    · simp [hd]
    · simp [hd, Ne.symm hd]
  case h_2 hs => exact ⟨nofun, fun he => absurd he (hs d owner)⟩

/-- What `Diff` sends, before it is grouped. -/
theorem mem_diff_queries {out : List Query × DBMap}
    (h : diff cols o all managed wanted fallbackOwner dbs = some out) {q : Query} (hq : q ∈ out.1) :
    (q.database = "" ∧ ∃ name, UpsertStmt name q.stmt) ∨
      q ∈ (drops (o.sub 2) (dropped (o.sub 3) all managed wanted) fallbackOwner dbs).1 := by
  obtain ⟨names, _, hout⟩ := diff_eq_some h
  rw [hout] at hq
  refine (List.mem_append.mp hq).imp_left fun hq => ?_
  obtain ⟨hdb, _, _, r, _, hs⟩ := mem_upserts hq
  exact ⟨hdb, r.name, hs⟩

/-- The stage is the groups of the other databases, then that of the default one.
The former end sessions and move objects. -/
theorem stage_split
    (h : stage cols o all managed wanted fallbackOwner dbs defaultDatabase = some queries)
    (hd : defaultDatabase ∈ dbs.map) :
    ∃ names others, queries = others ++
      (inDefault defaultDatabase ((syncOrder dbs.map defaultDatabase false).headD "")
        (upserts cols (o.sub 1) all wanted names) ++
        inDefault defaultDatabase ((syncOrder dbs.map defaultDatabase false).headD "")
          (drops (o.sub 2) (dropped (o.sub 3) all managed wanted) fallbackOwner dbs).1) ∧
      ∀ q ∈ others, q.database ≠ defaultDatabase ∧
        ∃ role, q.stmt = .terminate role ∨ ∃ owner, q.stmt = .reassignOwned role owner := by
  obtain ⟨out, hdiff, hgroup⟩ := stage_eq_some h
  obtain ⟨names, _, hout⟩ := diff_eq_some hdiff
  refine ⟨names, (dbs.names.filter (· ≠ defaultDatabase)).flatMap fun name =>
    (resolvedIn dbs.map defaultDatabase out.1).filter fun q => q.database = name,
    ?_, fun q hq => ?_⟩
  · rw [← inDefault_append, ← hout, groupByDatabase_eq hgroup]
    show _ = _ ++ (resolvedIn dbs.map defaultDatabase out.1).filter fun q => q.database = defaultDatabase
    rw [syncOrder_last hd, Groups.grouped, List.flatMap_append, List.flatMap_singleton]
    rfl
  · obtain ⟨name, hname, hq⟩ := List.mem_flatMap.mp hq
    obtain ⟨hq, hdb⟩ := List.mem_filter.mp hq
    have hne : q.database ≠ defaultDatabase := by
      rw [of_decide_eq_true hdb]
      simpa using (List.mem_filter.mp hname).2
    refine ⟨hne, ?_⟩
    obtain ⟨q₀, hq₀, rfl⟩ := List.mem_map.mp hq
    -- a query that names no database runs in the default one
    have hnamed : q₀.database ≠ "" := fun he => hne (by simp [SyncQuery.resolved, he])
    rcases mem_diff_queries hdiff hq₀ with ⟨he, _⟩ | hq₀
    · exact absurd he hnamed
    · obtain ⟨r, _, hdrop⟩ := mem_drops hq₀
      cases hdrop with
      | terminate _ => exact ⟨r.name, .inl rfl⟩
      | reassign owner _ => exact ⟨r.name, .inr ⟨owner, rfl⟩⟩
      | alterDatabase _ => exact absurd rfl hnamed
      | noLogin => exact absurd rfl hnamed
      | drop => exact absurd rfl hnamed

/-- The databases of the dropped roles go to the fallback owner. -/
theorem mem_alters_stage (hf : fallbackOwner ∉ droppedNames o all managed wanted)
    {d owner : String} :
    owner ∈ alters d
        (drops (o.sub 2) (dropped (o.sub 3) all managed wanted) fallbackOwner dbs).1 ↔
      owner = fallbackOwner ∧
        ∃ own, owner? dbs d = some own ∧ own ∈ droppedNames o all managed wanted := by
  have hnames := zipIdx_map_name (dropped (o.sub 3) all managed wanted)
  rw [drops, alters_drops _ _ _ _ (by rw [hnames]; exact hf), hnames, ← droppedNames]
  cases owner? dbs d with
  | none => simp
  | some own => by_cases hown : own ∈ droppedNames o all managed wanted <;> simp [hown]

/-- The stage takes from dropped roles, and gives databases to the fallback owner
exactly when their owner is dropped. -/
theorem stage_moves
    (h : stage cols o all managed wanted fallbackOwner dbs defaultDatabase = some queries)
    (hf : fallbackOwner ∉ droppedNames o all managed wanted) (hd : defaultDatabase ∈ dbs.map) :
    (∀ q ∈ queries, ∀ role owner, q.stmt = .reassignOwned role owner →
      role ∈ droppedNames o all managed wanted) ∧
    ∀ d owner, (∃ q ∈ queries, q.stmt = .alterDatabase d owner) ↔ owner = fallbackOwner ∧
      ∃ own, owner? dbs d = some own ∧ own ∈ droppedNames o all managed wanted := by
  obtain ⟨out, hdiff, hgroup⟩ := stage_eq_some h
  have hsent : ∀ q ∈ queries, ∃ q₀ ∈ out.1, q.stmt = q₀.stmt := by
    intro q hq
    obtain ⟨q₀, hq₀, rfl⟩ := List.mem_map.mp ((mem_groupByDatabase hgroup).mp hq).1
    exact ⟨q₀, hq₀, rfl⟩
  refine ⟨fun q hq role owner hs => ?_, fun d owner => ⟨?_, ?_⟩⟩
  · obtain ⟨q₀, hq₀, he⟩ := hsent q hq
    rw [he] at hs
    rcases mem_diff_queries hdiff hq₀ with ⟨_, name, hups⟩ | hq₀
    · rw [hs] at hups
      cases hups
    · obtain ⟨r, hr, hdrop⟩ := mem_drops hq₀
      cases hdrop <;> cases hs
      exact List.mem_map_of_mem hr
  · rintro ⟨q, hq, hs⟩
    obtain ⟨q₀, hq₀, he⟩ := hsent q hq
    rw [he] at hs
    rcases mem_diff_queries hdiff hq₀ with ⟨_, name, hups⟩ | hq₀
    · rw [hs] at hups
      cases hups
    · exact (mem_alters_stage hf).mp (mem_alters.mpr ⟨q₀, hq₀, hs⟩)
  · intro howner
    obtain ⟨q₀, hq₀, hs⟩ := mem_alters.mp ((mem_alters_stage hf).mpr howner)
    have hdefault : q₀.database = "" := by
      obtain ⟨r, _, hdrop⟩ := mem_drops hq₀
      cases hdrop <;> cases hs
      rfl
    have hout : q₀ ∈ out.1 := by
      obtain ⟨names, _, hout⟩ := diff_eq_some hdiff
      rw [hout]
      exact List.mem_append_right _ hq₀
    refine ⟨_, (mem_groupByDatabase hgroup).mpr ⟨List.mem_map_of_mem hout, ?_⟩, hs⟩
    simpa [SyncQuery.resolved, hdefault] using hd

/-- Nothing is dropped yet, and the databases belong to those inspection found. -/
structure Fresh (dbs : DBMap) (c : Catalog Obj) : Prop where
  gone : c.gone = []
  databases : ∀ (d : String) (database : Database), dbs.map[d]? = some database →
    c.databases d = database.owner

theorem final_objects
    (h : stage cols o all managed wanted fallbackOwner dbs defaultDatabase = some queries)
    (hreach : Reached dbs.map ((syncOrder dbs.map defaultDatabase false).headD ""))
    (hf : fallbackOwner ∉ droppedNames o all managed wanted) (c : Catalog Obj) {d : String}
    {database : Database} (hdb : dbs.map[d]? = some database) (x : Obj) :
    (execAll c queries).objects d x = (c.objects d x).map fun owner =>
      if owner ∈ droppedNames o all managed wanted
      then heir fallbackOwner (droppedNames o all managed wanted) database.owner else owner := by
  have howner : owner? dbs d = some database.owner := by rw [owner?, hdb]; rfl
  rw [execAll_objects, execAll_eq_moves, moves_stage h hreach, howner]
  cases c.objects d x with
  | none => exact foldl_move_none _
  | some owner => exact foldl_takers hf database.owner owner

/-- A database stays with its owner if nothing is taken from this owner and nobody
else is given the database. -/
theorem databases_keep {l : List Query} {d own : String}
    (hreassign : ∀ q ∈ l, ∀ role owner, q.stmt = .reassignOwned role owner → own ≠ role)
    (halter : ∀ q ∈ l, ∀ owner, q.stmt = .alterDatabase d owner → owner = own)
    (hc : c.databases d = own) : (execAll c l).databases d = own := by
  have hkeep : ∀ q ∈ l, ∀ c : Catalog Obj, c.databases d = own → (exec c q).databases d = own := by
    intro q hq c hc
    unfold exec
    cases hs : q.stmt with
    | alterDatabase d' owner =>
      by_cases hd : d = d'
      · subst hd
        show Function.update c.databases d owner d = own
        rw [Function.update_self]
        exact halter q hq owner hs
      · show Function.update c.databases d' owner d = own
        rw [Function.update_of_ne hd]
        exact hc
    | reassignOwned role owner =>
      show (if c.databases d = role then owner else c.databases d) = own
      rw [hc, if_neg (hreassign q hq role owner hs)]
    | _ => exact hc
  have hall : Triple exec (fun _ _ => True) (fun c : Catalog Obj => c.databases d = own) l _ :=
    .all fun q hq c hc => ⟨trivial, hkeep q hq c hc⟩
  exact (hall c hc).2

theorem final_databases
    (h : stage cols o all managed wanted fallbackOwner dbs defaultDatabase = some queries)
    (hf : fallbackOwner ∉ droppedNames o all managed wanted) (hd : defaultDatabase ∈ dbs.map)
    (hc : Fresh dbs c) {d : String} {database : Database} (hdb : dbs.map[d]? = some database) :
    (execAll c queries).databases d =
      heir fallbackOwner (droppedNames o all managed wanted) database.owner := by
  obtain ⟨hreassign, halter⟩ := stage_moves h hf hd
  have howner : owner? dbs d = some database.owner := by rw [owner?, hdb]; rfl
  unfold heir
  split
  case isTrue hown =>
    -- from its `ALTER DATABASE` on, the database is out of the reach of the drops
    obtain ⟨q, hq, hs⟩ := (halter d fallbackOwner).mpr ⟨rfl, _, howner, hown⟩
    obtain ⟨before, later, rfl⟩ := List.append_of_mem hq
    have hlater : ∀ q' ∈ later, q' ∈ before ++ q :: later := fun q' hq' =>
      List.mem_append_right before (List.mem_cons_of_mem q hq')
    rw [execAll, List.foldl_append, List.foldl_cons]
    refine databases_keep (fun q' hq' role owner hs' he => ?_) (fun q' hq' owner hs' => ?_) ?_
    · exact hf (he ▸ hreassign q' (hlater q' hq') role owner hs')
    · exact ((halter d owner).mp ⟨q', hlater q' hq', hs'⟩).1
    · simp [exec, hs]
  case isFalse hown =>
    refine databases_keep (fun q hq role owner hs he => ?_) (fun q hq owner hs => ?_)
      (hc.databases d database hdb)
    · exact hown (he ▸ hreassign q hq role owner hs)
    · obtain ⟨_, own, hown', hin⟩ := (halter d owner).mp ⟨q, hq, hs⟩
      cases howner.symm.trans hown'
      exact absurd hin hown

/-- Every statement of the stage runs fine. -/
theorem stage_runs
    (h : stage cols o all managed wanted fallbackOwner dbs defaultDatabase = some queries)
    (hreach : Reached dbs.map ((syncOrder dbs.map defaultDatabase false).headD ""))
    (hf : fallbackOwner ∉ droppedNames o all managed wanted) (hd : defaultDatabase ∈ dbs.map)
    (hc : c.gone = []) : Runs exec (Fine dbs) c queries := by
  obtain ⟨names, others, hqueries, hothers⟩ := stage_split h hd
  generalize hfirst : (syncOrder dbs.map defaultDatabase false).headD "" = first at hqueries
  have hgroup : Holds Obj dbs (fun c => c.gone = []) others fun c => c.gone = [] := by
    refine .all fun q hq c hc => ?_
    obtain ⟨_, role, hs | ⟨owner, hs⟩⟩ := hothers q hq
    · obtain ⟨hfine, hsame⟩ := exec_inert dbs (hs ▸ ⟨rfl, nofun⟩ : Inert q.stmt) c
      exact ⟨hfine, hsame.symm ▸ hc⟩
    · refine ⟨⟨fun name he => absurd (hs.symm.trans he) nofun, fun name _ => ?_⟩, ?_⟩
      · rw [hc]
        exact List.not_mem_nil
      · simp only [exec, hs]
        exact hc
  have hups : ∀ q ∈ upserts cols (o.sub 1) all wanted names, Inert q.stmt := by
    intro q hq
    obtain ⟨_, _, _, r, _, hs⟩ := mem_upserts hq
    exact inert_upsert hs
  -- the moves in the other databases are over before the default one gets its turn
  have hmoves : ∀ d, d ≠ defaultDatabase → moves d others = moves d queries := by
    intro d hne
    have hnone : ∀ l, moves d (inDefault defaultDatabase first l) = [] := by
      intro l
      rw [← moves_filter, inDefault, List.filter_filter, List.filter_eq_nil_iff.mpr]
      · rfl
      · intro q _ hq
        obtain ⟨h₁, h₂⟩ := Bool.and_eq_true_iff.mp hq
        exact hne ((of_decide_eq_true h₁).symm.trans (of_decide_eq_true h₂))
    rw [hqueries, moves_append, moves_append, hnone, hnone, List.append_nil, List.append_nil]
  have hhalf : Halfway dbs (droppedNames o all managed wanted) defaultDatabase [] dbs
      (execAll c others) := by
    refine ⟨fun _ => Iff.rfl, fun n hn => ?_, fun _ _ _ => List.not_mem_nil, fun _ _ => nofun,
      fun d hdb hne x n hn => ?_⟩
    · exact absurd hn ((hgroup c hc).2 ▸ List.not_mem_nil)
    · obtain ⟨database, hdatabase⟩ := Dict.mem_iff.mp hdb
      have hend : (execAll c others).objects d x = (execAll c queries).objects d x := by
        rw [execAll_objects, execAll_objects, execAll_eq_moves, execAll_eq_moves, hmoves d hne]
      rw [hend, final_objects h hreach hf c hdatabase]
      intro he
      obtain ⟨owner, _, rfl⟩ := Option.map_eq_some_iff.mp he
      split at hn
      · exact heir_not_mem hf _ hn
      · exact absurd hn ‹_›
  rw [hqueries]
  refine runs_append.mpr ⟨(hgroup c hc).1, ?_⟩
  exact ((inert_triple hups).append (drops_triple (hfirst ▸ hreach) _ rfl hf hd) _ hhalf).1

/-- Ownership after the drops is exact: when a role is dropped it owns no managed
database and no object of one; no new owner is a role already dropped; the databases
of dropped roles end with the fallback owner, the others with their owner; and the
objects of dropped roles end with the owner of their database. -/
structure Exact (all managed wanted : RoleMap) (fallbackOwner : String) (dbs : DBMap)
    (queries : List Query) (c : Catalog Obj) : Prop where
  fine : ∀ before q later, queries = before ++ q :: later → Fine dbs (execAll c before) q
  given : ∀ (d : String) (database : Database), dbs.map[d]? = some database →
    Dropped all managed wanted database.owner → (execAll c queries).databases d = fallbackOwner
  kept : ∀ (d : String) (database : Database), dbs.map[d]? = some database →
    ¬ Dropped all managed wanted database.owner →
      (execAll c queries).databases d = database.owner
  objects : ∀ d ∈ dbs.map, ∀ x owner, c.objects d x = some owner →
    (Dropped all managed wanted owner →
      (execAll c queries).objects d x = some ((execAll c queries).databases d)) ∧
    (¬ Dropped all managed wanted owner → (execAll c queries).objects d x = some owner)

theorem exact_of_reached
    (h : stage cols o all managed wanted fallbackOwner dbs defaultDatabase = some queries)
    (hreach : Reached dbs.map ((syncOrder dbs.map defaultDatabase false).headD ""))
    (hk : KeyIsName all) (hd : defaultDatabase ∈ dbs.map)
    (hf : ¬ Dropped all managed wanted fallbackOwner) (hc : Fresh dbs c) :
    Exact all managed wanted fallbackOwner dbs queries c := by
  have hmem : ∀ name, name ∈ droppedNames o all managed wanted ↔ Dropped all managed wanted name :=
    fun name => mem_dropped_names hk
  have hf' : fallbackOwner ∉ droppedNames o all managed wanted := fun hin => hf ((hmem _).mp hin)
  refine ⟨runs_iff.mp (stage_runs h hreach hf' hd hc.gone), fun d database hdb hdropped => ?_,
    fun d database hdb hkept => ?_, fun d hin x owner hx => ?_⟩
  · rw [final_databases h hf' hd hc hdb, heir, if_pos ((hmem _).mpr hdropped)]
  · rw [final_databases h hf' hd hc hdb, heir, if_neg fun hin => hkept ((hmem _).mp hin)]
  · obtain ⟨database, hdb⟩ := Dict.mem_iff.mp hin
    refine ⟨fun hdropped => ?_, fun hkept => ?_⟩
    · rw [final_objects h hreach hf' c hdb, hx, Option.map_some, if_pos ((hmem _).mpr hdropped),
        final_databases h hf' hd hc hdb]
    · rw [final_objects h hreach hf' c hdb, hx, Option.map_some,
        if_neg fun hin => hkept ((hmem _).mp hin)]

/-- Without drops nothing is handed over. -/
theorem exact_of_none
    (h : stage cols o all managed wanted fallbackOwner dbs defaultDatabase = some queries)
    (hk : KeyIsName all) (hnone : ∀ name, ¬ Dropped all managed wanted name) (hc : Fresh dbs c) :
    Exact all managed wanted fallbackOwner dbs queries c := by
  have hnames : ∀ name, name ∉ droppedNames o all managed wanted := fun name hin =>
    hnone name ((mem_dropped_names hk).mp hin)
  obtain ⟨out, hdiff, hgroup⟩ := stage_eq_some h
  have hinert : ∀ q ∈ queries, Inert q.stmt := by
    intro q hq
    obtain ⟨q₀, hq₀, rfl⟩ := List.mem_map.mp ((mem_groupByDatabase hgroup).mp hq).1
    rcases mem_diff_queries hdiff hq₀ with ⟨_, name, hups⟩ | hq₀
    · exact inert_upsert hups
    · obtain ⟨r, hr, _⟩ := mem_drops hq₀
      exact absurd (List.mem_map_of_mem hr) (hnames r.name)
  have hstay : Triple exec (Fine dbs) (fun c' : Catalog Obj => c' = c) queries fun c' => c' = c := by
    refine .all fun q hq c' hc' => ?_
    obtain ⟨hfine, hsame⟩ := exec_inert dbs (hinert q hq) c'
    exact ⟨hfine, hsame.trans hc'⟩
  obtain ⟨hruns, hend⟩ := hstay c rfl
  have hend : execAll c queries = c := hend
  refine ⟨runs_iff.mp hruns, fun d database hdb hdropped => absurd hdropped (hnone _),
    fun d database hdb _ => ?_, fun d _ x owner hx => ⟨fun hdropped => absurd hdropped (hnone _),
      fun _ => ?_⟩⟩
  · rw [hend]
    exact hc.databases d database hdb
  · rw [hend]
    exact hx

/-- The objects of a database called `<first>` are not handed over if another one comes
first. -/
theorem moves_first_eq_nil
    (h : stage cols o all managed wanted fallbackOwner dbs defaultDatabase = some queries)
    (hnamed : "" ∉ dbs.map)
    (hfirst : (syncOrder dbs.map defaultDatabase false).head? ≠ some "<first>") :
    moves "<first>" queries = [] := by
  obtain ⟨out, hdiff, hgroup⟩ := stage_eq_some h
  rw [← moves_filter]
  refine moves_eq_nil fun q hq role owner hs => ?_
  obtain ⟨hq, hdb⟩ := List.mem_filter.mp hq
  obtain ⟨q₀, hq₀, rfl⟩ := List.mem_map.mp ((mem_groupByDatabase hgroup).mp hq).1
  rcases mem_diff_queries hdiff hq₀ with ⟨_, name, hups⟩ | hq₀
  · have hs : q₀.stmt = .reassignOwned role owner := hs
    rw [hs] at hups
    cases hups
  · obtain ⟨r, _, hdrop⟩ := mem_drops hq₀
    cases hdrop with
    | @reassign dbname own hin =>
      have hne : dbname ≠ "" := fun he => hnamed (he ▸ DBMap.mem_names.mp hin)
      have hdb : (if dbname = "" then defaultDatabase else if dbname = "<first>"
          then (syncOrder dbs.map defaultDatabase false).headD "" else dbname) = "<first>" :=
        of_decide_eq_true hdb
      rw [if_neg hne] at hdb
      split at hdb
      · cases horder : syncOrder dbs.map defaultDatabase false with
        | nil => rw [horder] at hdb; exact absurd hdb (by decide)
        | cons first rest => rw [horder] at hdb hfirst; exact hfirst (congrArg some hdb)
      · exact absurd hdb ‹_›
    | _ => cases hs

/-- **When ownership after drops is exact.** With a fallback owner that stays, whatever
the order of the maps and whoever owns objects: exactly when no role is dropped, or no
managed database but the first one is called `<first>`. -/
theorem ownership_exact_iff [Nonempty Obj]
    (h : stage cols o all managed wanted fallbackOwner dbs defaultDatabase = some queries)
    (hk : KeyIsName all) (hd : defaultDatabase ∈ dbs.map) (hnamed : "" ∉ dbs.map)
    (hf : ¬ Dropped all managed wanted fallbackOwner) :
    (∀ c : Catalog Obj, Fresh dbs c → Exact all managed wanted fallbackOwner dbs queries c) ↔
      (∀ name, ¬ Dropped all managed wanted name) ∨
        ("<first>" ∈ dbs.map →
          (syncOrder dbs.map defaultDatabase false).head? = some "<first>") := by
  constructor
  · intro hexact
    refine or_iff_not_imp_left.mpr fun hsome hin => ?_
    obtain ⟨name, hdropped⟩ := not_forall_not.mp hsome
    by_contra hfirst
    obtain ⟨q, hq, hs⟩ := List.mem_map.mp (drop_mem_of_dropped h hk hd hdropped)
    obtain ⟨before, later, hsplit⟩ := List.append_of_mem hq
    -- the role owns everything, and still owns the objects of that database
    obtain ⟨x⟩ := ‹Nonempty Obj›
    let c : Catalog Obj := ⟨fun d => (owner? dbs d).getD "", fun _ _ => some name, []⟩
    have hfresh : Fresh dbs c := by
      refine ⟨rfl, fun d database hdb => ?_⟩
      show (owner? dbs d).getD "" = _
      rw [owner?, hdb]
      rfl
    have hmoves := moves_first_eq_nil h hnamed hfirst
    rw [hsplit, moves_append] at hmoves
    refine (((hexact c hfresh).fine before q later hsplit).drop name hs "<first>" hin).2 x ?_
    rw [execAll_objects, execAll_eq_moves, (List.append_eq_nil_iff.mp hmoves).1]
    rfl
  · rintro (hnone | hfirst) c hc
    · exact exact_of_none h hk hnone hc
    · refine exact_of_reached h (fun d hin => ⟨fun he => hnamed (he ▸ hin), ?_⟩) hk hd hf hc
      rintro rfl
      obtain ⟨rest, hrest⟩ := List.head?_eq_some_iff.mp (hfirst hin)
      rw [hrest]
      rfl

end Stage

/-- `bob` owns everything. -/
def ownedByBob : Catalog Unit := ⟨fun _ => "bob", fun _ _ => some "bob", []⟩

theorem keyIsName_bobOnly : KeyIsName bobOnly := by
  intro k r hr
  rcases Dict.get_insert_cases hr with ⟨rfl, rfl⟩ | ⟨_, hr⟩
  · rfl
  · simp at hr

theorem app_handed_over : ∃ queries,
    stage (fun _ => true) Order.sorted bobOnly bobOnly ∅ "postgres" appOfBob "app" = some queries ∧
      (execAll ownedByBob queries).databases "app" = "postgres" ∧
      (execAll ownedByBob queries).objects "app" () = some "postgres" := by
  obtain ⟨queries, hq⟩ : ∃ queries, stage (fun _ => true) Order.sorted bobOnly bobOnly ∅
      "postgres" appOfBob "app" = some queries := ⟨_, rfl⟩
  have hbob : Dropped bobOnly bobOnly ∅ "bob" := ⟨by decide, by decide, by decide, by decide⟩
  have hfresh : Fresh appOfBob ownedByBob := by
    refine ⟨rfl, fun d database hd => ?_⟩
    rcases Dict.get_insert_cases hd with ⟨_, rfl⟩ | ⟨_, hd⟩
    · rfl
    · simp at hd
  have hexact := (ownership_exact_iff hq keyIsName_bobOnly (by decide) (by decide)
    (fun h => absurd h.managed (by decide))).mpr (.inr fun hin => absurd hin (by decide))
    ownedByBob hfresh
  have hgiven := hexact.given "app" { name := "app", owner := "bob" }
    (by simp [appOfBob, DBMap.single]) hbob
  exact ⟨queries, hq, hgiven, hgiven ▸ (hexact.objects "app" (by decide) () "bob" rfl).1 hbob⟩

/-- `bob` owns two databases. The run is connected to the one called `<first>`, and `app`
comes first. -/
def firstOfBob : DBMap := .ofRows [⟨"app", "bob"⟩, ⟨"<first>", "bob"⟩]

/-- When `bob` is dropped, it still owns what is in `<first>`. -/
theorem objects_left_in_first : ∃ queries,
    stage (fun _ => true) Order.sorted bobOnly bobOnly ∅ "postgres" firstOfBob "<first>" =
        some queries ∧
      ∃ before q later, queries = before ++ q :: later ∧ q.stmt = .drop "bob" ∧
        (execAll ownedByBob before).objects "<first>" () = some "bob" := by
  obtain ⟨queries, hq⟩ : ∃ queries, stage (fun _ => true) Order.sorted bobOnly bobOnly ∅
      "postgres" firstOfBob "<first>" = some queries := ⟨_, rfl⟩
  obtain ⟨q, hin, hs⟩ := List.mem_map.mp (drop_mem_of_dropped hq keyIsName_bobOnly (by decide)
    (⟨by decide, by decide, by decide, by decide⟩ : Dropped bobOnly bobOnly ∅ "bob"))
  obtain ⟨before, later, hsplit⟩ := List.append_of_mem hin
  have hmoves := moves_first_eq_nil hq (by decide) (by decide)
  rw [hsplit, moves_append] at hmoves
  refine ⟨queries, hq, before, q, later, hsplit, hs, ?_⟩
  rw [execAll_objects, execAll_eq_moves, (List.append_eq_nil_iff.mp hmoves).1]
  rfl

end Ldap2pg.Roles.Ownership
