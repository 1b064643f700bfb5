import Ldap2pg.Lib.Channel
import Ldap2pg.Postgres.Apply
import Ldap2pg.Roles.Converge

/-! # The goroutines of the role stage

`Diff` and `GroupByDatabase` send from goroutines of their own, and `Apply` receives
in the main one. The first two meet in `postgres.Databases`: `Role.Drop` rewrites
owners there while `Diff` runs, and `SyncOrder` reads the names when
`GroupByDatabase` starts. Go has no meaning for a map that is read while it is assigned
to, and may abort: a race is a state where both come next. In every interleaving of a
stage without a race `Apply` gets the queries of `stage`, and it gets none of them before
`Diff` is through with the databases. -/
namespace Ldap2pg.Roles.Pipeline
open Lib Lib.Pipeline Pyfmt Postgres Postgres.Apply
open Roles.Hooks

/-! ## `Apply`, one query at a time -/

/-- The body of the loop of `Apply`: where it goes on, or how it returns. -/
def turn (server : Server) (really : Bool) (st : Progress) (query : SyncQuery Statement) :
    Progress ⊕ Outcome :=
  match server.getConn st.count query.database with
  | .error err => .inr ⟨st.count + 1, st.executed, some (.connection ("PostgreSQL error: " ++ err))⟩
  | .ok pgConn =>
    if really = false then .inl { st with count := st.count + 1 }
    else
      let st' : Progress := { st with
        count := st.count + 1
        executed := st.executed ++ [(st.count, rewritten pgConn query)] }
      match server.exec st.count (rewritten pgConn query) with
      | none => .inl st'
      | some err =>
        if (st.errs ++ err.unwrapped).length < maxErrors then
          .inl { st' with errs := st.errs ++ err.unwrapped }
        else .inr { st' with errs := st.errs ++ err.unwrapped : Progress }.finish

theorem loop_turn (server : Server) (really : Bool) (st : Progress) (q : SyncQuery Statement)
    (diff : List (SyncQuery Statement)) :
    Apply.loop server really st (q :: diff) =
      (turn server really st q).elim (fun st' => Apply.loop server really st' diff) id := by
  rw [Apply.loop, turn]
  cases server.getConn st.count q.database with
  | error err => rfl
  | ok conn =>
    cases really with
    | false => rfl
    | true =>
      simp only [Bool.true_eq_false, if_false]
      cases server.exec st.count (rewritten conn q) with
      | none => rfl
      | some err =>
        simp only
        split <;> rfl

/-! ## The goroutines -/

/-- What is left for `Diff` to do. -/
inductive Task where
  | send (q : Query)
  /-- `role.Drop`, and the number of the role among those dropped -/
  | drop (r : Role) (i : Nat)

inductive Routine where
  | diff (tasks : List Task)
  /-- in the loop of `role.Drop` over the databases -/
  | dropping (r : Role) (names : List String) (out : List Query) (tasks : List Task)
  /-- `GroupByDatabase`, before it calls `SyncOrder` -/
  | start
  | collecting (databases : List String) (queries : List Query)
  | sending (queries : List Query)
  | crashed (p : Panic)
  | applying (st : Progress)
  | applied (out : Outcome)

inductive Return where
  | sent
  | panic (p : Panic)
  | applied (out : Outcome)

/-- What the goroutines of a stage know. -/
structure Setting where
  o : Order
  fallbackOwner : String
  defaultDatabase : String
  server : Server
  really : Bool

/-- What `role.Drop` sends first. -/
def terminations (r : Role) : List Query :=
  if r.options.canLogin then
    [{ description := "Terminate running sessions.", database := "<first>",
       stmt := .terminate r.name }] else []

/-- What `role.Drop` sends last. -/
def removals (r : Role) : List Query :=
  [{ description := "Drop LOGIN.", stmt := .noLogin r.name },
   { description := "Drop role.", stmt := .drop r.name }]

/-- `GroupByDatabase` receives a query, or sends what it has. -/
def collect (p : Setting) (databases : List String) (queries : List Query) :
    Option Query → Routine
  | none => .sending (databases.flatMap fun name => queries.filter fun q => q.database = name)
  | some q => match q.resolve p.defaultDatabase databases with
    | .ok q => .collecting databases (queries ++ [q])
    | .error e => .crashed e

/-- `Apply` receives a query, or returns. -/
def execute (p : Setting) (st : Progress) : Option Query → Routine
  | none => .applied st.finish
  | some q => (turn p.server p.really st (statement q)).elim .applying .applied

/-- What the goroutine does next. A loop of `Diff` or `SyncOrder` at the databases is one access:
this is what the code does where there is no race. -/
def act (p : Setting) : Routine → Act DBMap Query Return Routine
  | .diff [] => .ret .sent
  | .diff (.send q :: tasks) => .send q (.diff tasks)
  | .diff (.drop r i :: tasks) => .access id fun dbs =>
      .dropping r ((p.o.sub i).range dbs.names) (terminations r) tasks
  | .dropping r [] out tasks => .access id fun _ => .diff ((out ++ removals r).map .send ++ tasks)
  | .dropping r (dbname :: names) out tasks =>
      .access (fun dbs => (r.dropIn p.fallbackOwner dbs dbname).2) fun dbs =>
        .dropping r names (out ++ (r.dropIn p.fallbackOwner dbs dbname).1) tasks
  | .start => .access id fun dbs => .collecting (syncOrder dbs.map p.defaultDatabase false) []
  | .collecting databases queries => .recv (collect p databases queries)
  | .sending [] => .ret .sent
  | .sending (q :: queries) => .send q (.sending queries)
  | .crashed e => .ret (.panic e)
  | .applying st => .recv (execute p st)
  | .applied out => .ret (.applied out)

/-- The loops of `Diff`: the wanted roles, then those to drop. -/
def tasks (cols : Columns) (o : Order) (all managed wanted : RoleMap) (names : List String) :
    List Task :=
  (upserts cols (o.sub 1) all wanted names).map .send ++
    (dropped (o.sub 3) all managed wanted).zipIdx.map fun ri => .drop ri.1 ri.2

/-- The goroutines as the stage starts them. -/
def launch (tasks : List Task) : List Routine := [.diff tasks, .start, .applying {}]

/-! ## Each goroutine by itself -/

/-- Of the databases, the second goroutine sees no more than which there are. -/
def present (dbs : DBMap) : String → Prop := fun k => k ∈ dbs.map

theorem syncOrder_congr {dbs dbs' : DBMap} (h : present dbs = present dbs') (d : String) (b : Bool) :
    syncOrder dbs.map d b = syncOrder dbs'.map d b := by
  have hmem : ∀ k, k ∈ dbs.map ↔ k ∈ dbs'.map := fun k => iff_of_eq (congrFun h k)
  unfold syncOrder
  rw [Dict.keys_congr hmem, if_congr (hmem d) rfl rfl]

theorem present_dropIn (r : Role) (fallbackOwner : String) (dbs : DBMap) (dbname : String) :
    present (r.dropIn fallbackOwner dbs dbname).2 = present dbs :=
  funext fun k => propext (dropIn_names r dbname k)

section Alone
variable {p : Setting} {dbs final : DBMap} {c : String → Prop}

theorem produces_sends {ts : List Task} {out : List Query} {n : Nat}
    (h : Produces (act p) present c (.diff ts) dbs final out n) (queries : List Query) :
    Produces (act p) present c (.diff (queries.map .send ++ ts)) dbs final (queries ++ out)
      (n + queries.length) := by
  induction queries with
  | nil => exact h
  | cons q queries ih => exact .send rfl ih

theorem produces_dropping {r : Role} {ts : List Task} (names : List String) :
    ∀ {dbs : DBMap} (out : List Query) {rest : List Query} {n : Nat}, present dbs = c →
      Produces (act p) present c (.diff ts) (emit (r.dropIn p.fallbackOwner) dbs names).2 final rest n →
      ∃ n', Produces (act p) present c (.dropping r names out ts) dbs final
        (out ++ (emit (r.dropIn p.fallbackOwner) dbs names).1 ++ removals r ++ rest) n' := by
  induction names with
  | nil =>
    intro dbs out rest n hdbs h
    have hsends := produces_sends h (out ++ removals r)
    exact ⟨_, .access rfl hdbs (by simpa [emit] using hsends)⟩
  | cons dbname names ih =>
    intro dbs out rest n hdbs h
    have hnext : present (r.dropIn p.fallbackOwner dbs dbname).2 = c :=
      (present_dropIn r p.fallbackOwner dbs dbname).trans hdbs
    obtain ⟨n', hrest⟩ := ih (out ++ (r.dropIn p.fallbackOwner dbs dbname).1) hnext h
    exact ⟨_, .access rfl hnext (by simpa [emit] using hrest)⟩

theorem drop_keeps (o : Order) (r : Role) (fallbackOwner : String) (dbs : DBMap) :
    present (r.drop o fallbackOwner dbs).2 = present dbs :=
  funext fun k => propext ((drop_spec o r fun _ h => DBMap.mem_names.mpr h).2 k)

theorem produces_drops (roles : List (Role × Nat)) : ∀ {dbs : DBMap}, present dbs = c →
    ∃ n, Produces (act p) present c (.diff (roles.map fun ri => .drop ri.1 ri.2)) dbs
      (emit (fun dbs ri => ri.1.drop (p.o.sub ri.2) p.fallbackOwner dbs) dbs roles).2
      (emit (fun dbs ri => ri.1.drop (p.o.sub ri.2) p.fallbackOwner dbs) dbs roles).1 n := by
  induction roles with
  | nil => intro dbs _; exact ⟨0, .ret rfl⟩
  | cons ri roles ih =>
    intro dbs hdbs
    obtain ⟨n, hrest⟩ := ih ((drop_keeps (p.o.sub ri.2) ri.1 p.fallbackOwner dbs).trans hdbs)
    obtain ⟨n', hdrop⟩ := produces_dropping (r := ri.1) ((p.o.sub ri.2).range dbs.names)
      (terminations ri.1) hdbs hrest
    exact ⟨_, .access rfl hdbs hdrop⟩

/-- `Diff` sends its queries and leaves the databases as `Drop` does. -/
theorem produces_diff (cols : Columns) {o : Order} (all managed wanted : RoleMap)
    (names : List String) (dbs : DBMap) (hp : p.o = o.sub 2) : ∃ n, Produces (act p) present (present dbs)
      (.diff (tasks cols o all managed wanted names)) dbs
      (drops (o.sub 2) (dropped (o.sub 3) all managed wanted) p.fallbackOwner dbs).2
      (upserts cols (o.sub 1) all wanted names ++
        (drops (o.sub 2) (dropped (o.sub 3) all managed wanted) p.fallbackOwner dbs).1) n := by
  obtain ⟨n, hdrops⟩ := produces_drops (p := p) (dropped (o.sub 3) all managed wanted).zipIdx
    (rfl : present dbs = present dbs)
  rw [hp] at hdrops
  exact ⟨_, produces_sends hdrops _⟩

theorem consumes_sending (queries input : List Query) :
    Consumes (act p) present c (.sending queries) input queries .sent queries.length := by
  induction queries with
  | nil => exact .ret rfl
  | cons q queries ih => exact .send rfl ih

theorem consumes_collecting {databases : List String} (input : List Query) :
    ∀ (queries : List Query) {resolved : List Query},
      input.mapM (SyncQuery.resolve p.defaultDatabase databases) = .ok resolved →
      ∃ n, Consumes (act p) present c (.collecting databases queries) input
        (databases.flatMap fun name => (queries ++ resolved).filter fun q => q.database = name)
        .sent n := by
  induction input with
  | nil =>
    intro queries resolved h
    cases h
    rw [List.reverse_nil, List.append_nil]
    exact ⟨_, .closed rfl (consumes_sending _ [])⟩
  | cons q input ih =>
    intro queries resolved h
    rw [List.mapM_cons] at h
    obtain ⟨q', hq', h⟩ := bind_eq_ok.mp h
    obtain ⟨rest, hrest, h⟩ := bind_eq_ok.mp h
    cases h
    obtain ⟨n, hreads⟩ := ih (queries ++ [q']) hrest
    rw [List.append_assoc, List.singleton_append] at hreads
    refine ⟨n + 1, .recv rfl ?_⟩
    simpa only [collect, hq'] using hreads

/-- `GroupByDatabase` sends what the model of it returns. -/
theorem consumes_group {input out : List Query}
    (h : groupByDatabase dbs.map p.defaultDatabase input = .ok out) :
    ∃ n, Consumes (act p) present (present dbs) .start input out .sent n := by
  obtain ⟨resolved, hresolved, h⟩ := bind_eq_ok.mp h
  cases h
  obtain ⟨n, hreads⟩ := consumes_collecting (p := p) (c := present dbs) input [] hresolved
  refine ⟨n + 1, .access rfl (fun _ => rfl) (fun dbs' hdbs' => ?_) hreads⟩
  rw [syncOrder_congr hdbs']

theorem consumes_apply (input : List Query) : ∀ st : Progress,
    ∃ n, Consumes (act p) present c (.applying st) input []
      (.applied (Apply.loop p.server p.really st (input.map statement))) n := by
  induction input with
  | nil => intro st; exact ⟨1, .closed rfl (.ret rfl)⟩
  | cons q input ih =>
    intro st
    rw [List.map_cons, loop_turn]
    cases hturn : turn p.server p.really st (statement q) with
    | inl st' =>
      obtain ⟨n, hreads⟩ := ih st'
      exact ⟨n + 1, .recv rfl (by simpa only [execute, hturn, Sum.elim_inl] using hreads)⟩
    | inr out =>
      refine ⟨1, .recv rfl ?_⟩
      simp only [execute, hturn, Sum.elim_inr, id]
      exact .ret rfl

end Alone

/-! ## No query before the last one is generated -/

/-- The goroutine is the first one. -/
def Routine.first : Routine → Prop
  | .diff _ | .dropping .. => True
  | _ => False

/-- While `GroupByDatabase` collects, `Apply` waits; when it sends, `Diff` has returned. -/
inductive Phase : List Routine → Prop
  | starting {x : Routine} (hx : x.first) : Phase [x, .start, .applying {}]
  | collecting {x : Routine} {first : String} {rest : List String} {queries : List Query}
      (hx : x.first) : Phase [x, .collecting (first :: rest) queries, .applying {}]
  | sending {queries : List Query} {z : Routine} : Phase [.diff [], .sending queries, z]

/-- `Apply` has received something: a query, or the end of the channel. -/
def Begun (l : List Routine) : Prop := ∃ x y z, l = [x, y, z] ∧ z ≠ .applying {}

section Barrier
variable {p : Setting} {x x' : Routine}

theorem first_access {f : DBMap → DBMap} {k : DBMap → Routine} (hx : x.first)
    (h : act p x = .access f k) (dbs : DBMap) : (k dbs).first := by
  cases x with
  | diff ts =>
    cases ts with
    | nil => cases h
    | cons t ts => cases t <;> cases h; trivial
  | dropping r names out ts => cases names <;> cases h <;> trivial
  | _ => exact absurd hx id

theorem first_send {q : Query} (hx : x.first) (h : act p x = .send q x') : x'.first := by
  cases x with
  | diff ts =>
    cases ts with
    | nil => cases h
    | cons t ts => cases t <;> cases h; trivial
  | dropping r names out ts => cases names <;> cases h
  | _ => exact absurd hx id

theorem first_ret {r : Return} (hx : x.first) (h : act p x = .ret r) : x = .diff [] := by
  cases x with
  | diff ts =>
    cases ts with
    | nil => rfl
    | cons t ts => cases t <;> cases h
  | dropping r names out ts => cases names <;> cases h
  | _ => exact absurd hx id

theorem Phase.step {dbs dbs' : DBMap} {l l' : List Routine} (h : Phase l)
    (hd : p.defaultDatabase ∈ dbs.map) (hstep : Step (act p) dbs l dbs' l') : Phase l' := by
  cases h with
  | starting hx =>
    cases hstep with
    | access hk => exact .starting (first_access hx hk dbs)
    | pass _ hy => cases hy
    | closed _ hy => cases hy
    | later hstep =>
      cases hstep with
      | access hk =>
        cases hk
        obtain ⟨first, rest, horder⟩ := List.exists_cons_of_ne_nil
          (List.ne_nil_of_mem (mem_syncOrder.mpr hd : _ ∈ syncOrder dbs.map p.defaultDatabase false))
        simp only [horder]
        exact .collecting hx
      | pass hy => cases hy
      | closed hy => cases hy
      | later hstep =>
        cases hstep with
        | access hk => cases hk
        | later hstep => cases hstep
  | collecting hx =>
    cases hstep with
    | access hk => exact .collecting (first_access hx hk dbs)
    | pass hk hy =>
      cases hy
      simp only [collect, resolve_cons]
      exact .collecting (first_send hx hk)
    | closed hk hy =>
      cases hy
      rw [first_ret hx hk]
      exact .sending
    | later hstep =>
      cases hstep with
      | access hk => cases hk
      | pass hy => cases hy
      | closed hy => cases hy
      | later hstep =>
        cases hstep with
        | access hk => cases hk
        | later hstep => cases hstep
  | @sending queries z =>
    cases hstep with
    | access hk => cases hk
    | pass hk => cases hk
    | closed _ hy => cases queries <;> cases hy
    | later hstep =>
      cases hstep with
      | access hk => cases queries <;> cases hk
      | pass hy => cases queries <;> cases hy; exact .sending
      | closed => exact .sending
      | later hstep =>
        cases hstep with
        | access => exact .sending
        | later hstep => cases hstep

end Barrier

/-! ## Every interleaving of the stage -/

theorem stage_settled {cols : Columns} {o : Order} {all managed wanted : RoleMap}
    {fallbackOwner defaultDatabase : String} {dbs : DBMap} (server : Server) (really : Bool)
    {names : List String} {queries : List Query}
    (hnames : Map.flatten (o.sub 0) wanted = some names)
    (hstage : stage cols o all managed wanted fallbackOwner dbs defaultDatabase = some queries) :
    ∃ n, Settled (act ⟨o.sub 2, fallbackOwner, defaultDatabase, server, really⟩) present (present dbs)
      (drops (o.sub 2) (dropped (o.sub 3) all managed wanted) fallbackOwner dbs).2
      (.applied (apply server (queries.map statement) really)) dbs
      (launch (tasks cols o all managed wanted names)) n := by
  obtain ⟨out, hdiff, hgroup⟩ := stage_eq_some hstage
  obtain ⟨names', hnames', hout⟩ := diff_eq_some hdiff
  cases hnames.symm.trans hnames'
  obtain ⟨n₁, hproduces⟩ := produces_diff
    (p := ⟨o.sub 2, fallbackOwner, defaultDatabase, server, really⟩) cols all managed wanted names
    dbs rfl
  rw [hout] at hgroup
  obtain ⟨n₂, hgrouped⟩ := consumes_group
    (p := ⟨o.sub 2, fallbackOwner, defaultDatabase, server, really⟩) hgroup
  obtain ⟨n₃, happlied⟩ := consumes_apply (c := present dbs)
    (p := ⟨o.sub 2, fallbackOwner, defaultDatabase, server, really⟩) queries {}
  exact ⟨_, rfl, _, _, _, _, _, rfl, hproduces, .cons hgrouped (.last happlied), rfl⟩

theorem begun_final {p : Setting} {c : String → Prop} {final dbs dbs' : DBMap} {r : Return}
    {l l' : List Routine} {k n : Nat} (hsettled : Settled (act p) present c final r dbs l n)
    (hphase : Phase l) (hc : c p.defaultDatabase) (hrun : Run (act p) k dbs l dbs' l')
    (hbegun : Begun l') : dbs' = final := by
  have hinv : (∃ n, Settled (act p) present c final r dbs' l' n) ∧ Phase l' :=
    hrun.invariant (I := fun dbs l => (∃ n, Settled (act p) present c final r dbs l n) ∧ Phase l)
      (fun ⟨⟨n, hsettled⟩, hphase⟩ hstep =>
        have ⟨n', _, hnext⟩ := hsettled.step hstep
        have hd : present _ p.defaultDatabase := hsettled.seen ▸ hc
        ⟨⟨n', hnext⟩, hphase.step hd hstep⟩) ⟨⟨n, hsettled⟩, hphase⟩
  obtain ⟨⟨n', _, x, rest, out, n₁, n₂, hl, hproduces, _⟩, hphase'⟩ := hinv
  obtain ⟨x', y, z, rfl, hz⟩ := hbegun
  cases hphase' with
  | starting => exact absurd rfl hz
  | collecting => exact absurd rfl hz
  | sending =>
    cases hl
    cases hproduces with
    | ret => rfl
    | access hk => cases hk
    | send hk => cases hk

/-! ## Two goroutines at the databases -/

/-- The next thing the goroutine does is `postgres.Databases[dbname] = database`. -/
def Routine.Assigns (dbs : DBMap) : Routine → Prop
  | .dropping r (dbname :: _) _ _ => DropSafety.owner? dbs dbname = some r.name
  | _ => False

/-- `SyncOrder` is about to read the map that `Drop` is about to assign to. -/
def Race (dbs : DBMap) (l : List Routine) : Prop :=
  ∃ x z, l = [x, .start, z] ∧ x.Assigns dbs

section Races
variable {p : Setting} {dbs : DBMap}

/-- A database the role does not own is passed over. -/
theorem dropIn_other {r : Role} {dbname : String}
    (h : DropSafety.owner? dbs dbname ≠ some r.name) (fallbackOwner : String) :
    (r.dropIn fallbackOwner dbs dbname).2 = dbs := by
  unfold Role.dropIn
  cases hdb : dbs.map[dbname]? with
  | none => rfl
  | some database =>
    refine congrArg Prod.snd (if_neg fun howner => h ?_)
    rw [DropSafety.owner?, hdb, Option.map_some, howner]

theorem race_reached {r : Role} (ts : List Task) {z : Routine} {d : String}
    (howner : DropSafety.owner? dbs d = some r.name) (names : List String) :
    ∀ out : List Query, d ∈ names →
      ∃ k l', Run (act p) k dbs [.dropping r names out ts, .start, z] dbs l' ∧ Race dbs l' := by
  induction names with
  | nil => intro out hd; cases hd
  | cons dbname names ih =>
    intro out hd
    by_cases hhere : DropSafety.owner? dbs dbname = some r.name
    · exact ⟨0, _, .refl, _, _, rfl, hhere⟩
    · have hlater : d ∈ names := by
        rcases List.mem_cons.mp hd with rfl | hd
        · exact absurd howner hhere
        · exact hd
      obtain ⟨k, l', hrun, hrace⟩ := ih (out ++ (r.dropIn p.fallbackOwner dbs dbname).1) hlater
      exact ⟨k + 1, l', .step (.access_to rfl (dropIn_other hhere p.fallbackOwner) rfl) hrun, hrace⟩

/-- `GroupByDatabase` has the names of the databases. -/
def Routine.grouping : Routine → Prop
  | .collecting .. | .sending _ | .crashed _ => True
  | _ => False

theorem grouping_access {y : Routine} {f : DBMap → DBMap} {k : DBMap → Routine} (hy : y.grouping) :
    act p y ≠ .access f k := by
  intro h
  cases y with
  | collecting => cases h
  | sending queries => cases queries <;> cases h
  | crashed => cases h
  | _ => exact hy

theorem grouping_send {y y' : Routine} {q : Query} (hy : y.grouping) (h : act p y = .send q y') :
    y'.grouping := by
  cases y with
  | collecting => cases h
  | sending queries => cases queries <;> cases h; trivial
  | crashed => cases h
  | _ => exact absurd hy id

theorem grouping_recv {y : Routine} {k : Option Query → Routine} (hy : y.grouping)
    (h : act p y = .recv k) (q : Option Query) : (k q).grouping := by
  cases y with
  | collecting databases queries =>
    cases h
    cases q with
    | none => trivial
    | some q =>
      unfold collect
      cases hq : q.resolve p.defaultDatabase databases <;> simp only [hq] <;> trivial
  | sending queries => cases queries <;> cases h
  | crashed => cases h
  | _ => exact absurd hy id

/-- How far `Diff` can be while `GroupByDatabase` has not started: it waits with its first query,
or it is in its first task and that task drops a role. -/
inductive Ahead (ts : List Task) (dbs : DBMap) : DBMap → List Routine → Prop
  | started {s : DBMap} {x y z : Routine} (hy : y.grouping) : Ahead ts dbs s [x, y, z]
  | fresh : Ahead ts dbs dbs [.diff ts, .start, .applying {}]
  | waiting {s : DBMap} {q : Query} {rest : List Task} :
      Ahead ts dbs s [.diff (.send q :: rest), .start, .applying {}]
  | dropping {s : DBMap} {r : Role} {i : Nat} {names : List String} {out : List Query}
      {rest : List Task} (hts : ts = .drop r i :: rest)
      (howner : ∀ d, DropSafety.owner? s d = some r.name → DropSafety.owner? dbs d = some r.name) :
      Ahead ts dbs s [.dropping r names out rest, .start, .applying {}]

/-- Before `GroupByDatabase` starts, the other steps are those of `Diff` alone. -/
theorem step_start {x : Routine} {s s' : DBMap} {l' : List Routine}
    (h : Step (act p) s [x, .start, .applying {}] s' l') :
    (∃ f k, act p x = .access f k ∧ s' = f s ∧ l' = [k s, .start, .applying {}]) ∨
      ∃ y, y.grouping ∧ l' = [x, y, .applying {}] := by
  cases h with
  | access hk => exact .inl ⟨_, _, hk, rfl, rfl⟩
  | pass _ hy => cases hy
  | closed _ hy => cases hy
  | later h =>
    cases h with
    | access hk => cases hk; exact .inr ⟨.collecting _ _, trivial, rfl⟩
    | pass hy => cases hy
    | closed hy => cases hy
    | later h =>
      cases h with
      | access hk => cases hk
      | later h => cases h

theorem owner_dropIn_self {r : Role} {fallbackOwner dbname d : String}
    (h : DropSafety.owner? (r.dropIn fallbackOwner dbs dbname).2 d = some r.name) :
    DropSafety.owner? dbs d = some r.name := by
  rw [DropSafety.owner_dropIn] at h
  split at h
  · obtain ⟨own, hown, hafter⟩ := Option.map_eq_some_iff.mp h
    by_cases he : own = r.name
    · rw [hown, he]
    · rw [DropSafety.ownerAfter, if_neg he] at hafter
      exact absurd hafter he
  · exact h

theorem Ahead.step {ts : List Task} {s s' : DBMap} {l l' : List Routine} (h : Ahead ts dbs s l)
    (hstep : Step (act p) s l s' l') : Ahead ts dbs s' l' := by
  cases h with
  | started hy =>
    cases hstep with
    | access => exact .started hy
    | pass _ hk => exact .started (grouping_recv hy hk _)
    | closed _ hk => exact .started (grouping_recv hy hk _)
    | later hstep =>
      cases hstep with
      | access hk => exact absurd hk (grouping_access hy)
      | pass hk => exact .started (grouping_send hy hk)
      | closed => exact .started hy
      | later hstep =>
        cases hstep with
        | access => exact .started hy
        | later hstep => cases hstep
  | fresh =>
    obtain ⟨f, k, hk, rfl, rfl⟩ | ⟨y, hy, rfl⟩ := step_start hstep
    · cases ts with
      | nil => cases hk
      | cons t ts => cases t <;> cases hk; exact .dropping rfl fun _ => id
    · exact .started hy
  | waiting =>
    obtain ⟨f, k, hk, rfl, rfl⟩ | ⟨y, hy, rfl⟩ := step_start hstep
    · cases hk
    · exact .started hy
  | @dropping _ r i names out rest hts howner =>
    obtain ⟨f, k, hk, rfl, rfl⟩ | ⟨y, hy, rfl⟩ := step_start hstep
    · cases names with
      | nil => cases hk; cases out <;> exact .waiting
      | cons => cases hk; exact .dropping hts fun d hd => howner d (owner_dropIn_self hd)
    · exact .started hy

end Races

/-- In a race, `Diff` is in its first task, and the role it drops owned a database. -/
theorem owner_of_race {cols : Columns} {o : Order} {all managed wanted : RoleMap}
    {names : List String} {p : Setting} {dbs dbs' : DBMap} {k : Nat} {l' : List Routine}
    (hrun : Run (act p) k dbs (launch (tasks cols o all managed wanted names)) dbs' l')
    (hrace : Race dbs' l') :
    upserts cols (o.sub 1) all wanted names = [] ∧
      ∃ r rest, dropped (o.sub 3) all managed wanted = r :: rest ∧
        ∃ (d : String) (database : Database),
          dbs.map[d]? = some database ∧ database.owner = r.name := by
  obtain ⟨x, z, rfl, hassigns⟩ := hrace
  have hahead : Ahead (tasks cols o all managed wanted names) dbs dbs' [x, .start, z] :=
    hrun.invariant (fun h hstep => h.step hstep) .fresh
  cases hahead with
  | started hy => exact absurd hy id
  | fresh => exact absurd hassigns id
  | waiting => exact absurd hassigns id
  | @dropping _ r i names' _ rest hts howner =>
    cases names' with
    | nil => exact absurd hassigns id
    | cons d names' =>
      obtain ⟨database, hdatabase, hown⟩ := Option.map_eq_some_iff.mp (howner d hassigns)
      unfold tasks at hts
      cases hupserts : upserts cols (o.sub 1) all wanted names with
      | cons q queries => rw [hupserts] at hts; cases hts
      | nil =>
        rw [hupserts] at hts
        cases hdropped : dropped (o.sub 3) all managed wanted with
        | nil => rw [hdropped] at hts; cases hts
        | cons r' roles =>
          rw [hdropped] at hts
          cases hts
          exact ⟨rfl, _, _, rfl, d, database, hdatabase, hown⟩

/-- `SyncOrder` and `Drop` can come to the databases at the same time, without synchronisation,
exactly when there is no wanted role to create or alter and the first role to drop owns a database:
otherwise a query of `Diff` waits for `GroupByDatabase` before the first assignment. -/
theorem role_stage_race_iff (cols : Columns) (o : Order) (all managed wanted : RoleMap)
    (names : List String) (p : Setting) (dbs : DBMap) :
    (∃ k dbs' l', Run (act p) k dbs (launch (tasks cols o all managed wanted names)) dbs' l' ∧
        Race dbs' l') ↔
      upserts cols (o.sub 1) all wanted names = [] ∧
        ∃ r rest, dropped (o.sub 3) all managed wanted = r :: rest ∧
          ∃ (d : String) (database : Database),
            dbs.map[d]? = some database ∧ database.owner = r.name := by
  constructor
  · exact fun ⟨_, _, _, hrun, hrace⟩ => owner_of_race hrun hrace
  · rintro ⟨hupserts, r, rest, hdropped, d, database, hdatabase, howner⟩
    have hown : DropSafety.owner? dbs d = some r.name := by
      rw [DropSafety.owner?, hdatabase, Option.map_some, howner]
    have hmem : d ∈ (p.o.sub 0).range dbs.names :=
      Order.mem_range.mpr (DBMap.mem_names.mpr (Dict.mem_iff.mpr ⟨database, hdatabase⟩))
    obtain ⟨k, l', hrun, hrace⟩ := race_reached (p := p) (z := .applying {})
      ((rest.zipIdx 1).map fun ri => .drop ri.1 ri.2) hown _ (terminations r) hmem
    refine ⟨k + 1, dbs, l', .step ?_ hrun, hrace⟩
    rw [launch, tasks, hupserts, hdropped]
    exact .access_to rfl rfl rfl

/-! ## Without a race -/

/-- A role is created or altered before the first drop, or the first role to drop owns no
database. -/
def Apart (cols : Columns) (o : Order) (all managed wanted : RoleMap) (names : List String)
    (dbs : DBMap) : Prop :=
  upserts cols (o.sub 1) all wanted names = [] →
    ∀ r rest, dropped (o.sub 3) all managed wanted = r :: rest →
      ∀ (d : String) (database : Database), dbs.map[d]? = some database → database.owner ≠ r.name

/-- Where `Drop` and `SyncOrder` cannot come to the databases at the same time, no run has a race.
Whatever the scheduling, the goroutines of the role stage then come to an end, and `Apply` has run
the queries of `stage`. By the time it gets the first one, `Diff` no longer touches the databases:
what is left of them is what its drops leave. -/
theorem role_stage_interleaved (cols : Columns) (o : Order) (all managed : RoleMap)
    {wanted : RoleMap} (fallbackOwner : String) (dbs : DBMap) {defaultDatabase : String}
    (server : Server) (really : Bool) (hkey : KeyIsName wanted) (hacyclic : Map.Acyclic wanted)
    (hd : defaultDatabase ∈ dbs.map)
    (hapart : ∀ names, Map.flatten (o.sub 0) wanted = some names →
      Apart cols o all managed wanted names dbs) :
    ∃ names queries n, Map.flatten (o.sub 0) wanted = some names ∧
      stage cols o all managed wanted fallbackOwner dbs defaultDatabase = some queries ∧
      ∀ {k dbs' l'}, Run (act ⟨o.sub 2, fallbackOwner, defaultDatabase, server, really⟩) k dbs
          (launch (tasks cols o all managed wanted names)) dbs' l' →
        ¬ Race dbs' l' ∧ k ≤ n ∧
        ((∀ dbs'' l'', ¬ Step (act ⟨o.sub 2, fallbackOwner, defaultDatabase, server, really⟩)
            dbs' l' dbs'' l'') →
          Finished (act ⟨o.sub 2, fallbackOwner, defaultDatabase, server, really⟩) l'
            (.applied (apply server (queries.map statement) really))) ∧
        (∀ r, Finished (act ⟨o.sub 2, fallbackOwner, defaultDatabase, server, really⟩) l' r →
          r = .applied (apply server (queries.map statement) really)) ∧
        (Begun l' → some dbs' =
          (diff cols o all managed wanted fallbackOwner dbs).map Prod.snd) := by
  obtain ⟨names, hnames, _⟩ := flatten_spec hkey hacyclic (o.sub 0)
  obtain ⟨queries, _, hstage, _⟩ :=
    Converge.stage_exec cols all managed hkey hacyclic o fallbackOwner dbs hd
  obtain ⟨n, hsettled⟩ := stage_settled server really hnames hstage
  refine ⟨names, queries, n, hnames, hstage, fun hrun => ⟨fun hrace => ?_, ?_⟩⟩
  · obtain ⟨hupserts, r, rest, hdropped, d, database, hdatabase, howner⟩ := owner_of_race hrun hrace
    exact hapart names hnames hupserts r rest hdropped d database hdatabase howner
  · obtain ⟨hbound, hend, hresult⟩ := hsettled.interleaved hrun
    refine ⟨hbound, hend, hresult, fun hbegun => ?_⟩
    rw [begun_final hsettled (.starting trivial) hd hrun hbegun, diff, hnames]
    rfl

/-- A stage on a server that takes all connections and statements. -/
def willing : Setting :=
  ⟨Order.sorted.sub 2, "postgres", "postgres", ⟨fun _ _ => .ok Hooks.Sample.conn, fun _ _ => none⟩, true⟩

/-- A database of a role to drop. -/
def databaseOfOld : DBMap := .single { name := "postgres", owner := "old" }

/-- `staff` is created, `alice` is altered and `old` is dropped with its database reassigned. -/
theorem alice_stage_interleaved :
    ∃ names queries n,
      stage (fun _ => true) Order.sorted Converge.aliceInspected Converge.aliceInspected
        Converge.aliceWanted "postgres" databaseOfOld "postgres" = some queries ∧
      queries.map SyncQuery.description = ["Create role.", "Set role comment.",
        "Grant missing parents.", "Revoke spurious parent.", "Reassign database.",
        "Reassign objects and purge ACL.", "Drop LOGIN.", "Drop role."] ∧
      ∀ {k dbs' l'}, Run (act willing) k databaseOfOld
        (launch (tasks (fun _ => true) Order.sorted Converge.aliceInspected Converge.aliceInspected
          Converge.aliceWanted names)) dbs' l' → ¬ Race dbs' l' ∧ k ≤ n ∧
        ∀ r, Finished (act willing) l' r →
          r = .applied (apply willing.server (queries.map statement) true) := by
  have hkey : KeyIsName Converge.aliceWanted := RoleMap.keyIsName_ofRoles _
  have hapart : ∀ names, Map.flatten (Order.sorted.sub 0) Converge.aliceWanted = some names →
      Apart (fun _ => true) Order.sorted Converge.aliceInspected Converge.aliceInspected
        Converge.aliceWanted names databaseOfOld := by
    intro names hnames hnone
    cases (rfl : Map.flatten (Order.sorted.sub 0) Converge.aliceWanted = some _).symm.trans hnames
    cases hnone
  obtain ⟨names, queries, n, _, hstage, hruns⟩ :=
    role_stage_interleaved (fun _ => true) Order.sorted Converge.aliceInspected
      Converge.aliceInspected "postgres" databaseOfOld willing.server true hkey
      ((check_eq_none_iff hkey Order.sorted).mp (by decide))
      (by decide : "postgres" ∈ databaseOfOld.map) hapart
  refine ⟨names, queries, n, hstage, ?_, fun hrun => ?_⟩
  · cases (rfl : stage _ Order.sorted _ _ _ "postgres" databaseOfOld "postgres" = some _).symm.trans hstage
    rfl
  · obtain ⟨hrace, hbound, _, hresult, _⟩ := hruns hrun
    exact ⟨hrace, hbound, hresult⟩

end Ldap2pg.Roles.Pipeline
