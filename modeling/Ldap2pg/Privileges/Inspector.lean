import Ldap2pg.Lib.Channel
import Ldap2pg.Privileges.Sync

/-! # The goroutine of `Inspect`

`iterGrants` sends the grants from a goroutine, and its error goes another way: it
stands in `i.err`, which `Next`, `Grant` and `Err` read without synchronisation. So
the error of a row can be seen before the grant that came before it is used. The
interleavings are followed here to the exact set of what `Inspect` can do. -/
namespace Ldap2pg.Privileges.Inspector
open Lib Lib.Pipeline Postgres

/-- A call of `Inspect`, and what the server answers. -/
structure Job where
  reg : Registry
  dbs : DBMap
  database : Database
  acl : String
  roles : List String
  /-- the error of `GetConn` -/
  conn : Option String := none
  /-- the error of `Query` -/
  query : Option String := none
  rows : List Row
  /-- what `rows.Err` returns after the last row -/
  last : Option String := none

inductive Routine where
  -- the goroutine of `iterGrants`
  | connecting
  | querying
  | scanning (rows : List Row)
  | returned
  -- the loop of `Inspect`
  | next (out : List Grant)
  /-- in `Next`, with the grant received -/
  | checking (grant : Grant) (out : List Grant)
  /-- `Next` has returned true, and `Grant` is called -/
  | granting (grant : Grant) (out : List Grant)
  | ended (out : List Grant)
  | panicked
  | done (out : List Grant) (err : Option String)

inductive Return where
  | closed
  | panic
  | returned (out : List Grant) (err : Option String)

/-- `i.err = err`, and the goroutine returns. -/
def fail (err : String) : Act (Option String) Grant Return Routine :=
  .access (fun _ => some err) fun _ => .returned

def skip (x : Routine) : Act (Option String) Grant Return Routine := .access id fun _ => x

def keep (j : Job) (grants : List Grant) : List Grant := grants.filter (keepGrant j.roles)

def receive (out : List Grant) : Option Grant → Routine
  | none => .ended out
  | some grant => .checking grant out

/-- What a goroutine does next; the memory is `i.err`. -/
def act (j : Job) : Routine → Act (Option String) Grant Return Routine
  | .connecting => match j.conn with
    | some err => fail err
    | none => skip .querying
  | .querying => match j.query with
    | some err => fail ("bad query: " ++ err)
    | none => skip (.scanning j.rows)
  | .scanning [] => match j.last with
    | some err => fail (j.acl ++ ": " ++ err)
    | none => .ret .closed
  | .scanning (row :: rows) => match (j.reg.acl j.acl).rowTo row with
    | .error err => fail ("bad row: " ++ err)
    | .ok g => match iterGrant (j.reg.acl j.acl) j.dbs j.database g with
      | none => skip (.scanning rows)
      | some g => .send g (.scanning rows)
  | .returned => .ret .closed
  | .next out => .recv (receive out)
  | .checking g out => .access id fun err => if err.isSome then .ended out else .granting g out
  | .granting g out => .access id fun err =>
      if err.isSome then .panicked else .next (out ++ keep j [g])
  | .ended out => .access id fun err => .done out err
  | .panicked => .ret .panic
  | .done out err => .ret (.returned out err)

def launch : List Routine := [.connecting, .next []]

/-! ## The goroutine by itself -/

/-- The grants that the rows give, up to the first row that cannot be scanned. -/
def Job.scanned (j : Job) : List Row → List Grant × Option String
  | [] => ([], j.last.map fun err => j.acl ++ ": " ++ err)
  | row :: rows => match (j.reg.acl j.acl).rowTo row with
    | .error err => ([], some ("bad row: " ++ err))
    | .ok g => match iterGrant (j.reg.acl j.acl) j.dbs j.database g with
      | none => j.scanned rows
      | some g => (g :: (j.scanned rows).1, (j.scanned rows).2)

/-- What the goroutine sends, and the error it leaves. -/
def Job.produced (j : Job) : List Grant × Option String :=
  match j.conn with
  | some err => ([], some err)
  | none => match j.query with
    | some err => ([], some ("bad query: " ++ err))
    | none => j.scanned j.rows

def Job.sent (j : Job) : List Grant := j.produced.1

def Job.failure (j : Job) : Option String := j.produced.2

/-- The goroutine sends these grants and leaves this error, in so many actions. -/
inductive Yields (j : Job) : Routine → List Grant → Option String → Nat → Prop
  | ret {x : Routine} (h : act j x = .ret .closed) : Yields j x [] none 0
  | fail {x : Routine} {err : String} (h : act j x = fail err) : Yields j x [] (some err) 1
  | skip {x x' : Routine} {out : List Grant} {err : Option String} {n : Nat}
      (h : act j x = skip x') (rest : Yields j x' out err n) : Yields j x out err (n + 1)
  | send {x x' : Routine} {g : Grant} {out : List Grant} {err : Option String} {n : Nat}
      (h : act j x = .send g x') (rest : Yields j x' out err n) : Yields j x (g :: out) err (n + 1)

theorem yields_scanning (j : Job) (rows : List Row) :
    ∃ n, Yields j (.scanning rows) (j.scanned rows).1 (j.scanned rows).2 n := by
  induction rows with
  | nil =>
    unfold Job.scanned
    cases hlast : j.last with
    | none => exact ⟨_, .ret (by simp only [act, hlast])⟩
    | some err => exact ⟨_, .fail (by simp only [act, hlast])⟩
  | cons row rows ih =>
    obtain ⟨n, hrest⟩ := ih
    unfold Job.scanned
    cases hrow : (j.reg.acl j.acl).rowTo row with
    | error err => exact ⟨_, .fail (by simp only [act, hrow])⟩
    | ok g =>
      cases hiter : iterGrant (j.reg.acl j.acl) j.dbs j.database g with
      | none =>
        have hskip : act j (.scanning (row :: rows)) = skip (.scanning rows) := by
          simp only [act, hrow, hiter]
        exact ⟨_, .skip hskip (by simpa only [hiter] using hrest)⟩
      | some g' =>
        have hsend : act j (.scanning (row :: rows)) = .send g' (.scanning rows) := by
          simp only [act, hrow, hiter]
        exact ⟨_, by simpa only [hiter] using .send hsend hrest⟩

theorem yields_connecting (j : Job) : ∃ n, Yields j .connecting j.sent j.failure n := by
  unfold Job.sent Job.failure Job.produced
  cases hconn : j.conn with
  | some err => exact ⟨_, .fail (by simp only [act, hconn])⟩
  | none =>
    have hconnected : act j .connecting = skip .querying := by simp only [act, hconn]
    cases hquery : j.query with
    | some err => exact ⟨_, .skip hconnected (.fail (by simp only [act, hquery]))⟩
    | none =>
      have hqueried : act j .querying = skip (.scanning j.rows) := by simp only [act, hquery]
      obtain ⟨n, hrows⟩ := yields_scanning j j.rows
      exact ⟨_, .skip hconnected (.skip hqueried hrows)⟩

/-- The goroutine with what is left to send, before and after its error. -/
inductive Running (j : Job) : Option String → Routine → List Grant → Nat → Prop
  | fine {x : Routine} {rest : List Grant} {n : Nat} (h : Yields j x rest j.failure n) :
      Running j none x rest n
  | failed {err : String} (h : j.failure = some err) : Running j (some err) .returned [] 0

section Running
variable {j : Job} {s : Option String} {x : Routine} {rest : List Grant} {n : Nat}

theorem Running.access {f : Option String → Option String} {k : Option String → Routine}
    (h : Running j s x rest n) (hx : act j x = .access f k) :
    ∃ n', n' < n ∧ Running j (f s) (k s) rest n' := by
  cases h with
  | failed => cases hx
  | fine h =>
    generalize herr : j.failure = err at h
    cases h with
    | ret hk => cases hx.symm.trans hk
    | fail hk => cases hx.symm.trans hk; exact ⟨0, Nat.one_pos, .failed herr⟩
    | skip hk hrest =>
      cases hx.symm.trans hk
      exact ⟨_, Nat.lt_succ_self _, .fine (herr ▸ hrest)⟩
    | send hk => cases hx.symm.trans hk

theorem Running.send {g : Grant} {x' : Routine} (h : Running j s x rest n)
    (hx : act j x = .send g x') : ∃ rest' n', rest = g :: rest' ∧ n' < n ∧ Running j s x' rest' n' := by
  cases h with
  | failed => cases hx
  | fine h =>
    generalize herr : j.failure = err at h
    cases h with
    | ret hk => cases hx.symm.trans hk
    | fail hk => cases hx.symm.trans hk
    | skip hk => cases hx.symm.trans hk
    | send hk hrest =>
      cases hx.symm.trans hk
      exact ⟨_, _, rfl, Nat.lt_succ_self _, .fine (herr ▸ hrest)⟩

theorem Running.ret {r : Return} (h : Running j s x rest n) (hx : act j x = .ret r) :
    r = .closed ∧ rest = [] ∧ s = j.failure := by
  cases h with
  | failed h => cases hx; exact ⟨rfl, rfl, h.symm⟩
  | fine h =>
    generalize herr : j.failure = err at h
    cases h with
    | ret hk => cases hx.symm.trans hk; exact ⟨rfl, rfl, rfl⟩
    | fail hk => cases hx.symm.trans hk
    | skip hk => cases hx.symm.trans hk
    | send hk => cases hx.symm.trans hk

/-- Once the error is there, the goroutine is over. -/
theorem Running.stopped (h : Running j s x rest n) (hs : s.isSome = true) :
    act j x = .ret .closed ∧ rest = [] ∧ ∃ err, j.failure = some err ∧ s = some err := by
  cases h with
  | fine => cases hs
  | failed h => exact ⟨rfl, rfl, _, h, rfl⟩

theorem Running.progress (h : Running j s x rest n) :
    (∃ r, act j x = .ret r) ∨ (∃ f k, act j x = .access f k) ∨ ∃ g x', act j x = .send g x' := by
  cases h with
  | failed => exact .inl ⟨_, rfl⟩
  | fine h =>
    generalize j.failure = err at h
    cases h with
    | ret hk => exact .inl ⟨_, hk⟩
    | fail hk => exact .inr (.inl ⟨_, _, hk⟩)
    | skip hk => exact .inr (.inl ⟨_, _, hk⟩)
    | send hk => exact .inr (.inr ⟨_, _, hk⟩)

end Running

/-! ## Both goroutines -/

/-- What `Inspect` can do. Without an error there is one result. With one, the last grant sent
before it may be left out, and `Grant` may find the error that `Next` did not see yet. -/
inductive Outcome (j : Job) : Return → Prop
  | all : Outcome j (.returned (keep j j.sent) j.failure)
  | short {init : List Grant} {g : Grant} {err : String} (hsent : j.sent = init ++ [g])
      (herr : j.failure = some err) : Outcome j (.returned (keep j init) j.failure)
  | panic {init : List Grant} {g : Grant} {err : String} (hsent : j.sent = init ++ [g])
      (herr : j.failure = some err) : Outcome j .panic

/-- The invariant, and a bound on the steps that are left. -/
inductive State (j : Job) : Option String → List Routine → Nat → Prop
  | next {s : Option String} {x : Routine} {seen rest : List Grant} {n : Nat}
      (hx : Running j s x rest n) (hsent : j.sent = seen ++ rest) :
      State j s [x, .next (keep j seen)] (3 * n + 3)
  | checking {s : Option String} {x : Routine} {seen rest : List Grant} {g : Grant} {n : Nat}
      (hx : Running j s x rest n) (hsent : j.sent = seen ++ g :: rest) :
      State j s [x, .checking g (keep j seen)] (3 * n + 5)
  | granting {s : Option String} {x : Routine} {seen rest : List Grant} {g : Grant} {n : Nat}
      (hx : Running j s x rest n) (hsent : j.sent = seen ++ g :: rest) :
      State j s [x, .granting g (keep j seen)] (3 * n + 4)
  | ended {s : Option String} {x : Routine} {out : List Grant} (hx : act j x = .ret .closed)
      (hout : Outcome j (.returned out s)) : State j s [x, .ended out] 1
  | done {s : Option String} {x y : Routine} {r : Return} (hx : act j x = .ret .closed)
      (hy : act j y = .ret r) (hout : Outcome j r) : State j s [x, y] 0

section Both
variable {j : Job} {s s' : Option String} {l l' : List Routine} {n : Nat}

theorem keep_append (j : Job) (l l' : List Grant) : keep j (l ++ l') = keep j l ++ keep j l' :=
  List.filter_append l l'

theorem State.step (h : State j s l n) (hstep : Step (act j) s l s' l') :
    ∃ n', n' < n ∧ State j s' l' n' := by
  cases h with
  | next hx hsent =>
    cases hstep with
    | access hk =>
      obtain ⟨n', hn', hrest⟩ := hx.access hk
      exact ⟨_, by omega, .next hrest hsent⟩
    | pass hk hy =>
      cases hy
      obtain ⟨rest', n', rfl, hn', hrest⟩ := hx.send hk
      exact ⟨_, by omega, .checking hrest hsent⟩
    | closed hk hy =>
      cases hy
      obtain ⟨rfl, rfl, rfl⟩ := hx.ret hk
      rw [List.append_nil] at hsent
      exact ⟨1, by omega, .ended hk (hsent ▸ .all)⟩
    | later hstep =>
      cases hstep with
      | access hk => cases hk
      | later hstep => cases hstep
  | checking hx hsent =>
    cases hstep with
    | access hk =>
      obtain ⟨n', hn', hrest⟩ := hx.access hk
      exact ⟨_, by omega, .checking hrest hsent⟩
    | pass _ hy => cases hy
    | closed _ hy => cases hy
    | later hstep =>
      cases hstep with
      | access hk =>
        cases hk
        by_cases hs : s.isSome = true
        · obtain ⟨hret, rfl, err, herr, rfl⟩ := hx.stopped hs
          exact ⟨1, by omega, .ended hret (herr ▸ .short hsent herr)⟩
        · simp only [id, if_neg hs]
          exact ⟨_, by omega, .granting hx hsent⟩
      | later hstep => cases hstep
  | granting hx hsent =>
    cases hstep with
    | access hk =>
      obtain ⟨n', hn', hrest⟩ := hx.access hk
      exact ⟨_, by omega, .granting hrest hsent⟩
    | pass _ hy => cases hy
    | closed _ hy => cases hy
    | later hstep =>
      cases hstep with
      | access hk =>
        cases hk
        by_cases hs : s.isSome = true
        · obtain ⟨hret, rfl, err, herr, rfl⟩ := hx.stopped hs
          exact ⟨0, by omega, .done hret rfl (.panic hsent herr)⟩
        · simp only [id, if_neg hs, ← keep_append]
          exact ⟨_, by omega, .next hx (by rw [hsent, List.append_assoc, List.singleton_append])⟩
      | later hstep => cases hstep
  | ended hx hout =>
    cases hstep with
    | access hk => cases hk.symm.trans hx
    | pass _ hy => cases hy
    | closed _ hy => cases hy
    | later hstep =>
      cases hstep with
      | access hk => cases hk; exact ⟨0, Nat.one_pos, .done hx rfl hout⟩
      | later hstep => cases hstep
  | done hx hy hout =>
    cases hstep with
    | access hk => cases hk.symm.trans hx
    | pass _ hk => cases hk.symm.trans hy
    | closed _ hk => cases hk.symm.trans hy
    | later hstep =>
      cases hstep with
      | access hk => cases hk.symm.trans hy
      | later hstep => cases hstep

theorem State.progress (h : State j s l n) :
    (∃ r, Finished (act j) l r) ∨ ∃ s' l', Step (act j) s l s' l' := by
  cases h with
  | next hx =>
    rcases hx.progress with ⟨r, hk⟩ | ⟨f, k, hk⟩ | ⟨g, x', hk⟩
    · exact .inr ⟨_, _, .closed hk rfl⟩
    · exact .inr ⟨_, _, .access hk⟩
    · exact .inr ⟨_, _, .pass hk rfl⟩
  | checking => exact .inr ⟨_, _, .later (.access rfl)⟩
  | granting => exact .inr ⟨_, _, .later (.access rfl)⟩
  | ended => exact .inr ⟨_, _, .later (.access rfl)⟩
  | done _ hy => exact .inl ⟨_, _, rfl, hy⟩

theorem State.outcome {r : Return} (h : State j s l n) (hl : Finished (act j) l r) :
    Outcome j r := by
  obtain ⟨y, hlast, hret⟩ := hl
  cases h with
  | done _ hy hout => cases hlast; cases hret.symm.trans hy; exact hout
  | next => cases hlast; cases hret
  | checking => cases hlast; cases hret
  | granting => cases hlast; cases hret
  | ended => cases hlast; cases hret

end Both

/-! ## Each outcome is reached -/

section Reached
variable {j : Job} {x : Routine} {rest : List Grant} {err : Option String} {n : Nat}

/-- With nothing left to send, the goroutine can go to its end while `Inspect` stands still. -/
theorem Yields.finish (h : Yields j x rest err n) (hrest : rest = []) (y : Routine) :
    ∃ k x', Run (act j) k none [x, y] err [x', y] ∧ act j x' = .ret .closed := by
  induction h with
  | @ret x hk => exact ⟨0, x, .refl, hk⟩
  | fail hk => exact ⟨1, .returned, .step (.access_to hk rfl rfl) .refl, rfl⟩
  | skip hk _ ih =>
    obtain ⟨k, x', hrun, hret⟩ := ih hrest
    exact ⟨k + 1, x', .step (.access_to hk rfl rfl) hrun, hret⟩
  | send => cases hrest

theorem Yields.pass {g : Grant} {input : List Grant} (h : Yields j x input err n)
    (hinput : input = g :: rest) (out : List Grant) :
    ∃ k x' n', Run (act j) k none [x, .next out] none [x', .checking g out] ∧
      Yields j x' rest err n' := by
  induction h with
  | ret => cases hinput
  | fail => cases hinput
  | skip hk _ ih =>
    obtain ⟨k, x', n', hrun, hyields⟩ := ih hinput
    exact ⟨k + 1, x', n', .step (.access_to hk rfl rfl) hrun, hyields⟩
  | send hk hyields =>
    cases hinput
    exact ⟨1, _, _, .step (.pass hk rfl) .refl, hyields⟩

/-- `Inspect` can take the grants one by one, while there is no error yet. -/
theorem Yields.take (seen : List Grant) : ∀ {x : Routine} {n : Nat} (out : List Grant),
    Yields j x (seen ++ rest) err n →
      ∃ k x' n', Run (act j) k none [x, .next out] none [x', .next (out ++ keep j seen)] ∧
        Yields j x' rest err n' := by
  induction seen with
  | nil =>
    intro x n out h
    exact ⟨0, x, n, by rw [keep, List.filter_nil, List.append_nil]; exact .refl, h⟩
  | cons g seen ih =>
    intro x n out h
    obtain ⟨k₁, x₁, n₁, hpass, h₁⟩ := h.pass rfl out
    obtain ⟨k₂, x₂, n₂, hrest, h₂⟩ := ih (out ++ keep j [g]) h₁
    have htake : Run (act j) 2 none [x₁, .checking g out] none [x₁, .next (out ++ keep j [g])] :=
      .step (.later (.access_to rfl rfl rfl)) (.step (.later (.access_to rfl rfl rfl)) .refl)
    rw [List.append_assoc, ← keep_append, List.singleton_append] at hrest
    exact ⟨_, x₂, n₂, (hpass.trans htake).trans hrest, h₂⟩

/-- The loop ends, and `Err` is read. -/
theorem ended_run {x : Routine} {out : List Grant} {s : Option String} :
    Run (act j) 1 s [x, .ended out] s [x, .done out s] :=
  .step (.later (.access_to rfl rfl rfl)) .refl

theorem Outcome.reached {r : Return} (h : Outcome j r) :
    ∃ k s l, Run (act j) k none launch s l ∧ Finished (act j) l r := by
  obtain ⟨n, hyields⟩ := yields_connecting j
  cases h with
  | all =>
    rw [← List.append_nil j.sent] at hyields
    obtain ⟨k₁, x₁, n₁, htake, h₁⟩ := Yields.take j.sent [] hyields
    obtain ⟨k₂, x₂, hfinish, hret⟩ := h₁.finish rfl (.next ([] ++ keep j j.sent))
    refine ⟨_, _, _, (htake.trans hfinish).trans (.step (.closed hret rfl) ended_run), _, rfl, rfl⟩
  | @short init g _ hsent herr =>
    rw [hsent] at hyields
    obtain ⟨k₁, x₁, n₁, htake, h₁⟩ := Yields.take init [] hyields
    obtain ⟨k₂, x₂, n₂, hpass, h₂⟩ := h₁.pass rfl ([] ++ keep j init)
    obtain ⟨k₃, x₃, hfinish, hret⟩ := h₂.finish rfl (.checking g ([] ++ keep j init))
    have hnext : Step (act j) j.failure [x₃, .checking g ([] ++ keep j init)] j.failure
        [x₃, .ended (keep j init)] := by
      refine .later (.access_to rfl rfl ?_)
      rw [herr]
      rfl
    exact ⟨_, _, _, ((htake.trans hpass).trans hfinish).trans (.step hnext ended_run), _, rfl, rfl⟩
  | @panic init g _ hsent herr =>
    rw [hsent] at hyields
    obtain ⟨k₁, x₁, n₁, htake, h₁⟩ := Yields.take init [] hyields
    obtain ⟨k₂, x₂, n₂, hpass, h₂⟩ := h₁.pass rfl ([] ++ keep j init)
    obtain ⟨k₃, x₃, hfinish, hret⟩ := h₂.finish rfl (.granting g ([] ++ keep j init))
    have hcheck : Run (act j) 1 none [x₂, .checking g ([] ++ keep j init)] none
        [x₂, .granting g ([] ++ keep j init)] := .step (.later (.access_to rfl rfl rfl)) .refl
    have hgrant : Run (act j) 1 j.failure [x₃, .granting g ([] ++ keep j init)] j.failure
        [x₃, .panicked] := by
      refine .step (.later (.access_to rfl rfl ?_)) .refl
      rw [herr]
      rfl
    exact ⟨_, _, _, (((htake.trans hpass).trans hcheck).trans hfinish).trans hgrant, _, rfl, rfl⟩

end Reached

/-! ## What `Inspect` returns -/

/-- Without an error, all rows are scanned and all of them count. -/
theorem inspect_scanned (j : Job) (rows : List Row) (h : (j.scanned rows).2 = none) :
    inspect j.reg j.dbs j.database j.acl j.roles (.ok rows) = .ok (keep j (j.scanned rows).1) := by
  have hscan : ∃ grants, rows.mapM (j.reg.acl j.acl).rowTo = .ok grants ∧
      grants.filterMap (iterGrant (j.reg.acl j.acl) j.dbs j.database) = (j.scanned rows).1 := by
    induction rows with
    | nil => exact ⟨[], rfl, rfl⟩
    | cons row rows ih =>
      unfold Job.scanned at h ⊢
      cases hrow : (j.reg.acl j.acl).rowTo row with
      | error err => rw [hrow] at h; cases h
      | ok g =>
        cases hiter : iterGrant (j.reg.acl j.acl) j.dbs j.database g with
        | none =>
          obtain ⟨grants, hgrants, hsent⟩ := ih (by simpa only [hrow, hiter] using h)
          exact ⟨g :: grants, by rw [List.mapM_cons, hrow, hgrants]; rfl, by simp [hiter, hsent]⟩
        | some g' =>
          obtain ⟨grants, hgrants, hsent⟩ := ih (by simpa only [hrow, hiter] using h)
          exact ⟨g :: grants, by rw [List.mapM_cons, hrow, hgrants]; rfl, by simp [hiter, hsent]⟩
  obtain ⟨grants, hgrants, hsent⟩ := hscan
  rw [inspect, ok_bind, hgrants, ok_bind, hsent]
  rfl

theorem inspect_sent (j : Job) (h : j.failure = none) :
    inspect j.reg j.dbs j.database j.acl j.roles (.ok j.rows) = .ok (keep j j.sent) := by
  have hproduced : j.produced = j.scanned j.rows := by
    unfold Job.failure Job.produced at h
    unfold Job.produced
    cases hconn : j.conn with
    | some err => rw [hconn] at h; cases h
    | none =>
      cases hquery : j.query with
      | some err => rw [hconn, hquery] at h; cases h
      | none => rfl
  rw [Job.failure, hproduced] at h
  rw [inspect_scanned j j.rows h, Job.sent, hproduced]

theorem Outcome.complete {j : Job} {r : Return} {out : List Grant} (h : Outcome j r)
    (hr : r = .returned out none) : j.failure = none ∧ keep j j.sent = out := by
  cases h with
  | all => injection hr with hout herr; exact ⟨herr, hout⟩
  | short _ herr => injection hr with _ hnone; cases herr.symm.trans hnone
  | panic => cases hr

/-- Every interleaving of `iterGrants` and `Inspect` comes to an end, and the ends are exactly those
of `Outcome`. A result without an error is what the inspection of all the rows gives: nothing
is missing from it. -/
theorem inspect_outcomes (j : Job) :
    (∃ n, ∀ {k s l}, Run (act j) k none launch s l →
      k ≤ n ∧ ((∀ s' l', ¬ Step (act j) s l s' l') → ∃ r, Finished (act j) l r)) ∧
    (∀ r, (∃ k s l, Run (act j) k none launch s l ∧ Finished (act j) l r) ↔ Outcome j r) ∧
    ∀ out, Outcome j (.returned out none) →
      inspect j.reg j.dbs j.database j.acl j.roles (.ok j.rows) = .ok out := by
  obtain ⟨n, hyields⟩ := yields_connecting j
  have hstart : State j none launch (3 * n + 3) :=
    @State.next j none .connecting [] j.sent n (.fine hyields) rfl
  refine ⟨⟨3 * n + 3, fun hrun => ?_⟩, fun r => ⟨?_, Outcome.reached⟩, fun out hout => ?_⟩
  · obtain ⟨n', hn', hstate⟩ := hrun.decreases (fun h hstep => h.step hstep) hstart
    exact ⟨by omega, fun hstuck => hstate.progress.resolve_right
      fun ⟨s', l', hstep⟩ => hstuck s' l' hstep⟩
  · rintro ⟨k, s, l, hrun, hfinished⟩
    obtain ⟨_, _, hstate⟩ := hrun.decreases (fun h hstep => h.step hstep) hstart
    exact hstate.outcome hfinished
  · obtain ⟨hnone, rfl⟩ := hout.complete rfl
    exact inspect_sent j hnone

end Ldap2pg.Privileges.Inspector
