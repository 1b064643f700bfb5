import Ldap2pg.Roles.Hooks

/-! # `Apply`

The queries of a stage run one after the other. A database that cannot be reached ends the
loop at once. An error of a query is kept, and the loop goes on up to a number of errors. -/
namespace Ldap2pg.Postgres.Apply
open Lib Postgres Roles Roles.Hooks

/-! ## `errorlist.List` -/

/-- An error, as `errors.As` walks through it. -/
inductive Failure where
  | plain (message : String)
  | wrapped (message : String) (err : Failure)
  | joined (errs : List Failure)

/-- `errors.AsType[joinUnwrapper]`. -/
def Failure.asJoined : Failure → Option (List Failure)
  | .plain _ => none
  | .wrapped _ err => err.asJoined
  | .joined errs => some errs

/-- The errors that `List.Append` adds: those of a joined error, otherwise the error. -/
def Failure.unwrapped (err : Failure) : List Failure := err.asJoined.getD [err]

def maxErrors : Nat := 8

/-! ## The loop -/

/-- How connections behave: `getConn` and `exec` are told how many queries came before. -/
structure Server where
  getConn : Nat → String → Except String Conn
  exec : Nat → String → Option Failure

inductive Error where
  | connection (message : String)
  | synchronisation (errs : List Failure)

structure Outcome where
  count : Nat
  /-- what was executed, under the number of the query -/
  executed : List (Nat × String)
  err : Option Error

structure Progress where
  count : Nat := 0
  executed : List (Nat × String) := []
  errs : List Failure := []

/-- The end of `Apply`. -/
def Progress.finish (st : Progress) : Outcome where
  count := st.count
  executed := st.executed
  err := if 0 < st.errs.length then some (.synchronisation st.errs) else none

def loop (server : Server) (really : Bool) (st : Progress) : List (SyncQuery Statement) → Outcome
  | [] => st.finish
  | query :: diff =>
    match server.getConn st.count query.database with
    | .error err => ⟨st.count + 1, st.executed, some (.connection ("PostgreSQL error: " ++ err))⟩
    | .ok pgConn =>
      let sql := rewritten pgConn query
      if really = false then loop server really { st with count := st.count + 1 } diff
      else
        let st' : Progress := { st with
          count := st.count + 1
          executed := st.executed ++ [(st.count, sql)] }
        match server.exec st.count sql with
        | none => loop server really st' diff
        | some err =>
          -- `Append` tells whether the list can hold more errors
          if (st.errs ++ err.unwrapped).length < maxErrors then
            loop server really { st' with errs := st.errs ++ err.unwrapped } diff
          else { st' with errs := st.errs ++ err.unwrapped : Progress }.finish

/-- `Apply`. -/
def apply (server : Server) (diff : List (SyncQuery Statement)) (really : Bool) : Outcome :=
  loop server really {} diff

/-! ## When formatting fails -/

mutual

/-- The strings of an argument, at any depth. -/
def strings : Arg → List String
  | .ident _ => []
  | .str s => [s]
  | .list l => stringsOf l

def stringsOf : List Arg → List String
  | [] => []
  | item :: l => strings item ++ stringsOf l

end

mutual

theorem formatArg_eq_none (conn : Conn) : ∀ arg : Arg,
    formatArg conn arg = none ↔ ∃ s ∈ strings arg, conn.escapeString s = none
  | .ident name => by simp [formatArg, strings]
  | .str s => by simp [formatArg, strings]
  | .list l => by
    rw [formatArg, strings]
    exact joinArgs_eq_none conn "" l

theorem joinArgs_eq_none (conn : Conn) (b : String) : ∀ l : List Arg,
    joinArgs conn b l = none ↔ ∃ s ∈ stringsOf l, conn.escapeString s = none
  | [] => by simp [joinArgs, stringsOf]
  | item :: l => by
    have hitem := formatArg_eq_none conn item
    rw [joinArgs, stringsOf]
    cases h : formatArg conn item with
    | none =>
      obtain ⟨s, hs, hrefused⟩ := hitem.mp h
      exact iff_of_true rfl ⟨s, List.mem_append_left _ hs, hrefused⟩
    | some text =>
      have haccepted : ¬ ∃ s ∈ strings item, conn.escapeString s = none := by
        rw [← hitem, h]
        exact Option.some_ne_none text
      simp only [Option.bind_eq_bind, Option.bind_some, joinArgs_eq_none conn _ l, List.mem_append,
        or_and_right, exists_or, haccepted, false_or]

end

/-- `RewriteQuery` fails exactly when the session refuses a string of the arguments, at any
depth. -/
theorem rewriteQuery_eq_none (conn : Conn) (sql : String) (args : List Arg) :
    rewriteQuery conn sql args = none ↔ ∃ s ∈ stringsOf args, conn.escapeString s = none := by
  have hargs : args.mapM (formatArg conn) = none ↔ ∃ s ∈ stringsOf args, conn.escapeString s = none := by
    induction args with
    | nil => simp [stringsOf]
    | cons arg args ih =>
      rw [List.mapM_cons, stringsOf]
      simp only [List.mem_append, or_and_right, exists_or, ← ih, ← formatArg_eq_none]
      cases formatArg conn arg with
      | none => simp
      | some text => cases args.mapM (formatArg conn) <;> simp
  rw [← hargs, rewriteQuery]
  cases args.mapM (formatArg conn) <;> simp

/-! ## What is executed, and what is reported -/

/-- What a query adds to the errors of the loop. -/
def Server.errors (server : Server) (qi : SyncQuery Statement × Nat) : List Failure :=
  match server.getConn qi.2 qi.1.database with
  | .error _ => []
  | .ok conn => ((server.exec qi.2 (rewritten conn qi.1)).map Failure.unwrapped).getD []

/-- The query cannot be sent, or its execution reports an error. -/
def Server.Fails (server : Server) (i : Nat) (q : SyncQuery Statement) : Prop :=
  (∃ err, server.getConn i q.database = .error err) ∨ server.errors (q, i) ≠ []

/-- The loop comes to the `j`-th query: every database before it is reached, and the list
of errors is not full. -/
def Reached (server : Server) (i : Nat) (errs : List Failure) (diff : List (SyncQuery Statement))
    (j : Nat) : Prop :=
  (∀ qi ∈ (diff.take j).zipIdx i, ∃ conn, server.getConn qi.2 qi.1.database = .ok conn) ∧
    (errs ++ ((diff.take j).zipIdx i).flatMap server.errors).length < maxErrors

section Loop
variable {server : Server} {i j : Nat} {errs : List Failure} {q : SyncQuery Statement}
  {diff : List (SyncQuery Statement)}

theorem reached_zero : Reached server i errs diff 0 ↔ errs.length < maxErrors := by
  simp [Reached]

theorem reached_succ : Reached server i errs (q :: diff) (j + 1) ↔
    (∃ conn, server.getConn i q.database = .ok conn) ∧
      Reached server (i + 1) (errs ++ server.errors (q, i)) diff j := by
  simp [Reached, List.zipIdx_cons, and_assoc]

theorem Reached.room (h : Reached server i errs diff j) : errs.length < maxErrors :=
  Nat.lt_of_le_of_lt (by simp) h.2

/-- The loop after one more query, executed on `conn`. -/
def Progress.next (server : Server) (st : Progress) (conn : Conn) (q : SyncQuery Statement) : Progress where
  count := st.count + 1
  executed := st.executed ++ [(st.count, rewritten conn q)]
  errs := st.errs ++ server.errors (q, st.count)

/-- The body of the loop, when the database is reached. -/
theorem loop_cons {st : Progress} {conn : Conn} (hroom : st.errs.length < maxErrors)
    (hconn : server.getConn st.count q.database = .ok conn) :
    loop server true st (q :: diff) =
      if (st.next server conn q).errs.length < maxErrors then loop server true (st.next server conn q) diff
      else (st.next server conn q).finish := by
  rw [loop, hconn]
  cases hexec : server.exec st.count (rewritten conn q) with
  | none => simp [Progress.next, Server.errors, hconn, hexec, hroom]
  | some err => simp [Progress.next, Server.errors, hconn, hexec]

theorem mem_executed {st : Progress} (hroom : st.errs.length < maxErrors) {n : Nat} {sql : String} :
    (n, sql) ∈ (loop server true st diff).executed ↔ (n, sql) ∈ st.executed ∨
      ∃ j q conn, n = st.count + j ∧ diff[j]? = some q ∧ server.getConn n q.database = .ok conn ∧
        sql = rewritten conn q ∧ Reached server st.count st.errs diff j := by
  induction diff generalizing st with
  | nil => simp [loop, Progress.finish]
  | cons q diff ih =>
    -- the query itself, or a later one
    have hsplit : (∃ j q' conn, n = st.count + j ∧ (q :: diff)[j]? = some q' ∧
          server.getConn n q'.database = .ok conn ∧ sql = rewritten conn q' ∧
          Reached server st.count st.errs (q :: diff) j) ↔
        (∃ conn, n = st.count ∧ server.getConn st.count q.database = .ok conn ∧ sql = rewritten conn q) ∨
        (∃ conn, server.getConn st.count q.database = .ok conn) ∧
          ∃ j q' conn, n = st.count + 1 + j ∧ diff[j]? = some q' ∧
            server.getConn n q'.database = .ok conn ∧ sql = rewritten conn q' ∧
            Reached server (st.count + 1) (st.errs ++ server.errors (q, st.count)) diff j := by
      constructor
      · intro ⟨j, q', conn, hn, hq', hconn, hsql, hreached⟩
        cases j with
        | zero =>
          cases hq'
          subst hn
          exact .inl ⟨conn, rfl, hconn, hsql⟩
        | succ j =>
          obtain ⟨hfirst, hreached⟩ := reached_succ.mp hreached
          exact .inr ⟨hfirst, j, q', conn, by omega, hq', hconn, hsql, hreached⟩
      · intro h
        rcases h with ⟨conn, rfl, hconn, hsql⟩ | ⟨hfirst, j, q', conn, hn, hq', hconn, hsql, hreached⟩
        · exact ⟨0, q, conn, rfl, rfl, hconn, hsql, reached_zero.mpr hroom⟩
        · exact ⟨j + 1, q', conn, by omega, hq', hconn, hsql, reached_succ.mpr ⟨hfirst, hreached⟩⟩
    rw [hsplit]
    cases hconn : server.getConn st.count q.database with
    | error err => simp [loop, hconn]
    | ok conn =>
      rw [loop_cons hroom hconn]
      split
      case isTrue h =>
        rw [ih h]
        simp [Progress.next, or_assoc]
      case isFalse h =>
        have hfull : ∀ j, ¬ Reached server (st.count + 1) (st.errs ++ server.errors (q, st.count)) diff j :=
          fun j hreached => h hreached.room
        simp [Progress.finish, Progress.next, hfull]

/-- An error is reported exactly when some query fails, be it one that the loop does not
come to. -/
theorem err_iff {st : Progress} (hroom : st.errs.length < maxErrors) :
    (loop server true st diff).err ≠ none ↔
      st.errs ≠ [] ∨ ∃ j q, diff[j]? = some q ∧ server.Fails (st.count + j) q := by
  induction diff generalizing st with
  | nil => cases h : st.errs <;> simp [loop, Progress.finish, h]
  | cons q diff ih =>
    have hsplit : (∃ j q', (q :: diff)[j]? = some q' ∧ server.Fails (st.count + j) q') ↔
        server.Fails st.count q ∨ ∃ j q', diff[j]? = some q' ∧ server.Fails (st.count + 1 + j) q' := by
      constructor
      · intro ⟨j, q', hq', hfails⟩
        cases j with
        | zero =>
          cases hq'
          exact .inl hfails
        | succ j => exact .inr ⟨j, q', hq', by rwa [Nat.add_right_comm]⟩
      · intro h
        rcases h with hfails | ⟨j, q', hq', hfails⟩
        · exact ⟨0, q, rfl, hfails⟩
        · exact ⟨j + 1, q', hq', by rwa [Nat.add_right_comm] at hfails⟩
    rw [hsplit]
    cases hconn : server.getConn st.count q.database with
    | error err => simp [loop, hconn, Server.Fails]
    | ok conn =>
      rw [loop_cons hroom hconn]
      have hfails : server.Fails st.count q ↔ server.errors (q, st.count) ≠ [] := by
        simp [Server.Fails, hconn]
      split
      case isTrue h =>
        rw [ih h, hfails]
        simp only [Progress.next, ne_eq, List.append_eq_nil_iff]
        tauto
      case isFalse h =>
        have hne : (st.next server conn q).errs ≠ [] := by
          intro hnil
          rw [hnil] at h
          exact h (by decide)
        have herr : (st.next server conn q).finish.err ≠ none := by
          simp [Progress.finish, List.length_pos_iff.mpr hne]
        have hsome : st.errs ≠ [] ∨ server.errors (q, st.count) ≠ [] := by
          simpa [Progress.next, imp_iff_not_or] using hne
        exact iff_of_true herr (hsome.imp_right fun h => .inl (hfails.mpr h))

/-- Something fails before a query that the loop does not come to. -/
theorem fails_of_not_reached (h : ¬ Reached server 0 [] diff j) :
    ∃ j q, diff[j]? = some q ∧ server.Fails j q := by
  have hget : ∀ qi ∈ (diff.take j).zipIdx, diff[qi.2]? = some qi.1 := by
    intro qi hqi
    have hmem := List.mem_zipIdx_iff_getElem?.mp hqi
    rw [List.getElem?_take] at hmem
    split at hmem
    · exact hmem
    · cases hmem
  by_contra hnone
  refine h ⟨fun qi hqi => ?_, ?_⟩
  · cases hconn : server.getConn qi.2 qi.1.database with
    | ok conn => exact ⟨conn, rfl⟩
    | error err => exact absurd ⟨qi.2, qi.1, hget qi hqi, .inl ⟨err, hconn⟩⟩ hnone
  · have hnil : ((diff.take j).zipIdx).flatMap server.errors = [] := by
      refine List.flatMap_eq_nil_iff.mpr fun qi hqi => ?_
      by_contra hne
      exact hnone ⟨qi.2, qi.1, hget qi hqi, .inr hne⟩
    rw [hnil]
    decide

end Loop

/-- **A query that cannot be formatted is executed as the empty statement**, and nothing is
reported unless some query fails; only a query that the loop does not come to is left out. -/
theorem unformatted_reported_iff {server : Server} {diff : List (SyncQuery Statement)} {i : Nat}
    {q : SyncQuery Statement} {conn : Conn} (hq : diff[i]? = some q)
    (hconn : server.getConn i q.database = .ok conn)
    (hfail : rewriteQuery conn q.stmt.query q.stmt.queryArgs = none) :
    (((∀ sql, (i, sql) ∈ (apply server diff true).executed → sql = "") ∧
        (apply server diff true).err ≠ none) ↔ ∃ j q', diff[j]? = some q' ∧ server.Fails j q') ∧
      (((∀ sql, (i, sql) ∉ (apply server diff true).executed) ∧ (apply server diff true).err ≠ none) ↔
        ¬ Reached server 0 [] diff i) := by
  have hroom : ({} : Progress).errs.length < maxErrors := by decide
  have hempty : rewritten conn q = "" := by rw [rewritten, hfail, Option.getD_none]
  have hexecuted : ∀ sql, (i, sql) ∈ (apply server diff true).executed ↔
      sql = "" ∧ Reached server 0 [] diff i := by
    intro sql
    rw [apply, mem_executed hroom, or_iff_right List.not_mem_nil]
    constructor
    · rintro ⟨j, q', conn', hi, hq', hconn', hsql, hreached⟩
      obtain rfl : i = j := hi.trans (Nat.zero_add j)
      cases hq.symm.trans hq'
      cases hconn.symm.trans hconn'
      exact ⟨hsql.trans hempty, hreached⟩
    · rintro ⟨hsql, hreached⟩
      exact ⟨i, q, conn, (Nat.zero_add i).symm, hq, hconn, hsql.trans hempty.symm, hreached⟩
  have herr : (apply server diff true).err ≠ none ↔ ∃ j q', diff[j]? = some q' ∧ server.Fails j q' := by
    have h := @err_iff server diff {} hroom
    unfold apply
    simpa only [ne_eq, not_true_eq_false, false_or, Nat.zero_add] using h
  refine ⟨?_, ?_⟩
  · rw [herr]
    exact and_iff_right fun sql hsql => ((hexecuted sql).mp hsql).1
  · rw [herr]
    constructor
    · rintro ⟨hnone, _⟩ hreached
      exact hnone "" ((hexecuted "").mpr ⟨rfl, hreached⟩)
    · intro hreached
      exact ⟨fun sql hsql => hreached ((hexecuted sql).mp hsql).2, fails_of_not_reached hreached⟩

/-! ## A session that refuses strings -/
namespace Sample

/-- Every string is refused, and every statement succeeds. -/
def refusing : Server where
  getConn := fun _ _ => .ok { Hooks.Sample.conn with escapeString := fun _ => none }
  exec := fun _ _ => none

def comment : SyncQuery Statement where
  description := "Set role comment."
  stmt := ⟨"COMMENT ON ROLE %s IS %s;", [.ident "alice", .str "Managed by ldap2pg"]⟩

end Sample

open Sample

/-- The comment is lost, and the run succeeds. -/
theorem comment_lost : (apply refusing [comment] true).executed = [(0, "")] ∧
    (apply refusing [comment] true).err = none := ⟨rfl, rfl⟩

theorem comment_reported_iff :
    ((∀ sql, (0, sql) ∈ (apply refusing [comment] true).executed → sql = "") ∧
      (apply refusing [comment] true).err ≠ none) ↔
        ∃ j q', [comment][j]? = some q' ∧ refusing.Fails j q' :=
  have hfail := (rewriteQuery_eq_none { Hooks.Sample.conn with escapeString := fun _ => none }
    comment.stmt.query comment.stmt.queryArgs).mpr ⟨"Managed by ldap2pg", List.mem_cons_self, rfl⟩
  (@unformatted_reported_iff refusing [comment] 0 comment _ rfl rfl hfail).1

end Ldap2pg.Postgres.Apply
