import Ldap2pg.Postgres.Apply

/-! # The global connection

`GetConn` keeps one connection for the whole program. It is closed when another
database is asked for, and opened again. `Apply` asks for the database of each query.
What the server and the network answer may depend on all that happened before; the
log is there to say what did. -/
namespace Ldap2pg.Postgres.Connection
open Lib.Groups Roles.Hooks Postgres Postgres.Apply

inductive Event where
  | opened (database : String)
  | refused (database : String)
  | closed (database : String)
  | executed (database sql : String)

structure Network where
  /-- `pgx.ConnectConfig` -/
  connect : List Event → String → Except String Conn
  exec : List Event → String → Option Failure

/-- `globalConn`, with the database of its configuration. -/
structure Global where
  globalConn : Option (String × Conn) := none
  log : List Event := []

/-- The database of the open connection. -/
def Global.database (g : Global) : Option String := g.globalConn.map Prod.fst

def closeConn (g : Global) : Global :=
  match g.globalConn with
  | none => g
  | some c => ⟨none, g.log ++ [.closed c.1]⟩

/-- The database to connect to: that of `globalConf` by default. -/
def requested (conf database : String) : String := if database = "" then conf else database

/-- The end of `GetConn`: a connection is opened if there is none. -/
def openConn (net : Network) (g : Global) (database : String) : Global × Except String Conn :=
  match g.globalConn with
  | some c => (g, .ok c.2)
  | none => match net.connect g.log database with
    | .error err => (⟨none, g.log ++ [.refused database]⟩, .error err)
    | .ok conn => (⟨some (database, conn), g.log ++ [.opened database]⟩, .ok conn)

/-- `GetConn`, with `conf` for `globalConf.Database`. -/
def getConn (net : Network) (conf : String) (g : Global) (database : String) :
    Global × Except String Conn :=
  openConn net
    (match g.globalConn with
      | none => g
      | some c => if requested conf database ≠ c.1 then closeConn g else g)
    (requested conf database)

/-- A statement goes through the open connection. -/
def Global.ran (g : Global) (sql : String) : Global :=
  { g with log := g.log ++ [.executed (g.database.getD "") sql] }

/-- The loop of `Apply`, on the global connection. -/
def loop (net : Network) (conf : String) (really : Bool) (g : Global) (st : Progress) :
    List (SyncQuery Statement) → Global × Outcome
  | [] => (g, st.finish)
  | query :: diff =>
    match getConn net conf g query.database with
    | (g, .error err) =>
      (g, ⟨st.count + 1, st.executed, some (.connection ("PostgreSQL error: " ++ err))⟩)
    | (g, .ok pgConn) =>
      let sql := rewritten pgConn query
      if really = false then loop net conf really g { st with count := st.count + 1 } diff
      else
        let st' : Progress := { st with
          count := st.count + 1
          executed := st.executed ++ [(st.count, sql)] }
        match net.exec g.log sql with
        | none => loop net conf really (g.ran sql) st' diff
        | some err =>
          if (st.errs ++ err.unwrapped).length < maxErrors then
            loop net conf really (g.ran sql) { st' with errs := st.errs ++ err.unwrapped } diff
          else (g.ran sql, { st' with errs := st.errs ++ err.unwrapped : Progress }.finish)

def apply (net : Network) (conf : String) (g : Global) (diff : List (SyncQuery Statement))
    (really : Bool) : Global × Outcome := loop net conf really g {} diff

/-! ## What `GetConn` does -/

section GetConn
variable {net : Network} {conf database : String} {g : Global}

/-- The open connection is closed first. -/
def closing (g : Global) : List Event := (g.database.map Event.closed).toList

inductive Gets (net : Network) (g : Global) (d : String) : Global × Except String Conn → Prop
  | reused {conn : Conn} (h : g.globalConn = some (d, conn)) : Gets net g d (g, .ok conn)
  | opened {conn : Conn} (h : g.database ≠ some d)
      (hconnect : net.connect (g.log ++ closing g) d = .ok conn) :
      Gets net g d (⟨some (d, conn), g.log ++ closing g ++ [.opened d]⟩, .ok conn)
  | refused {err : String} (h : g.database ≠ some d)
      (hconnect : net.connect (g.log ++ closing g) d = .error err) :
      Gets net g d (⟨none, g.log ++ closing g ++ [.refused d]⟩, .error err)

theorem openConn_gets {g' : Global} {d : String} (hd : g.database ≠ some d)
    (hnone : g'.globalConn = none) (hlog : g'.log = g.log ++ closing g) :
    Gets net g d (openConn net g' d) := by
  rw [openConn, hnone]
  simp only
  cases hconnect : net.connect g'.log d with
  | error err => rw [hlog] at hconnect ⊢; exact .refused hd hconnect
  | ok conn => rw [hlog] at hconnect ⊢; exact .opened hd hconnect

theorem getConn_gets (net : Network) (conf : String) (g : Global) (database : String) :
    Gets net g (requested conf database) (getConn net conf g database) := by
  unfold getConn
  cases hconn : g.globalConn with
  | none =>
    refine openConn_gets (by simp [Global.database, hconn]) hconn ?_
    simp [closing, Global.database, hconn]
  | some c =>
    by_cases hd : requested conf database = c.1
    · simp only [hd, ne_eq, not_true_eq_false, if_false]
      rw [openConn, hconn]
      exact .reused hconn
    · simp only [ne_eq, hd, not_false_eq_true, if_true]
      refine openConn_gets (by simpa [Global.database, hconn] using Ne.symm hd) ?_ ?_
      · rw [closeConn, hconn]
      · simp [closeConn, hconn, closing, Global.database]

end GetConn

/-! ## One connection at a time -/

/-- Connections open and close one at a time, and statements go through the open one; `d` is the
database of the one that is open in the end. -/
inductive Traced : List Event → Option String → Prop
  | nil : Traced [] none
  | opened {log : List Event} (d : String) (h : Traced log none) :
      Traced (log ++ [.opened d]) (some d)
  | refused {log : List Event} (d : String) (h : Traced log none) : Traced (log ++ [.refused d]) none
  | closed {log : List Event} {d : String} (h : Traced log (some d)) :
      Traced (log ++ [.closed d]) none
  | executed {log : List Event} {d : String} (sql : String) (h : Traced log (some d)) :
      Traced (log ++ [.executed d sql]) (some d)

/-- The databases that a connection was opened to. -/
def opens (log : List Event) : List String :=
  log.filterMap fun e => match e with
    | .opened d => some d
    | _ => none

/-- What was executed, and where. -/
def statements (log : List Event) : List (String × String) :=
  log.filterMap fun e => match e with
    | .executed d sql => some (d, sql)
    | _ => none

/-- The log is the story of the connection. -/
def Global.Traced (g : Global) : Prop := Connection.Traced g.log g.database

/-- The open connection is one that the network gave. -/
def Global.Backed (net : Network) (g : Global) : Prop :=
  ∀ d conn, g.globalConn = some (d, conn) → ∃ log, net.connect log d = .ok conn

section Facts
variable {net : Network} {conf : String} {g g' : Global} {d : String}

@[simp] theorem opens_append (a b : List Event) : opens (a ++ b) = opens a ++ opens b :=
  List.filterMap_append

@[simp] theorem statements_append (a b : List Event) :
    statements (a ++ b) = statements a ++ statements b := List.filterMap_append

@[simp] theorem opens_closing (g : Global) : opens (closing g) = [] := by
  unfold closing
  cases g.database <;> rfl

@[simp] theorem statements_closing (g : Global) : statements (closing g) = [] := by
  unfold closing
  cases g.database <;> rfl

theorem Global.Traced.closing (h : g.Traced) : Connection.Traced (g.log ++ closing g) none := by
  unfold Global.Traced at h
  unfold Connection.closing
  cases hd : g.database with
  | none => rw [hd] at h; simpa using h
  | some d => rw [hd] at h; exact .closed h

theorem Global.Traced.ran (h : g.Traced) (hd : g.database = some d) (sql : String) :
    (g.ran sql).Traced := by
  unfold Global.Traced at h
  rw [hd] at h
  have hlog : (g.ran sql).log = g.log ++ [.executed d sql] := by rw [Global.ran, hd]; rfl
  rw [Global.Traced, hlog, show (g.ran sql).database = some d from hd]
  exact .executed sql h

/-- What a successful `GetConn` leaves behind. -/
structure Got (net : Network) (g : Global) (d : String) (conn : Conn) (g' : Global) : Prop where
  traced : g.Traced → g'.Traced
  backed : g.Backed net → g'.Backed net
  conn : g'.globalConn = some (d, conn)
  opens : opens g'.log = opens g.log ++ switches g.database [d]
  statements : statements g'.log = statements g.log

theorem Got.database {conn : Conn} (h : Got net g d conn g') : g'.database = some d := by
  rw [Global.database, h.conn]
  rfl

/-- A failed `GetConn` leaves no connection. -/
structure Failed (g : Global) (g' : Global) : Prop where
  traced : g.Traced → g'.Traced
  conn : g'.globalConn = none
  opens : opens g'.log = opens g.log
  statements : statements g'.log = statements g.log

theorem Failed.backed (h : Failed g g') : g'.Backed net := by
  intro d conn hconn
  rw [h.conn] at hconn
  cases hconn

theorem Gets.got {conn : Conn} (h : Gets net g d (g', .ok conn)) : Got net g d conn g' := by
  cases h with
  | reused h =>
    have hd : g.database = some d := by simp [Global.database, h]
    exact ⟨id, id, h, by simp [switches, hd], rfl⟩
  | opened h hconnect =>
    refine ⟨fun ht => .opened d ht.closing, fun _ d' conn' h' => ?_, rfl, ?_, ?_⟩
    · cases h'
      exact ⟨_, hconnect⟩
    · rw [opens_append, opens_append, opens_closing, List.append_nil, switches, if_neg h]
      rfl
    · rw [statements_append, statements_append, statements_closing, List.append_nil]
      exact List.append_nil _

theorem Gets.failed {err : String} (h : Gets net g d (g', .error err)) : Failed g g' := by
  cases h with
  | refused h =>
    refine ⟨fun ht => .refused d ht.closing, rfl, ?_, ?_⟩
    · rw [opens_append, opens_append, opens_closing, List.append_nil]
      exact List.append_nil _
    · rw [statements_append, statements_append, statements_closing, List.append_nil]
      exact List.append_nil _

theorem Global.Traced.closeConn (h : g.Traced) :
    (closeConn g).Traced ∧ (closeConn g).database = none := by
  have hclosed := h.closing
  unfold Connection.closing at hclosed
  unfold Connection.closeConn Global.database at *
  cases hconn : g.globalConn with
  | none => exact ⟨h, by simp [hconn]⟩
  | some c =>
    simp only [hconn, Option.map_some, Option.toList_some] at hclosed
    exact ⟨hclosed, rfl⟩

end Facts

/-! ## `Apply` -/

section Loop
variable {net : Network} {conf : String} {g g₁ : Global} {st : Progress} {conn : Conn}
  {q : SyncQuery Statement} {diff : List (SyncQuery Statement)}

/-- The databases that the queries ask for. -/
def requests (conf : String) (diff : List (SyncQuery Statement)) : List String :=
  diff.map fun q => requested conf q.database

/-- What is asked for: a database, and the text for a connection to it. -/
structure Asked where
  database : String
  text : Conn → String

def asked (conf : String) (diff : List (SyncQuery Statement)) : List Asked :=
  diff.map fun q => ⟨requested conf q.database, fun conn => rewritten conn q⟩

/-- The statement, with its database, is the one that was asked for; its text is that for a
connection that was opened to this database. -/
def Serves (net : Network) (executed : String × String) (a : Asked) : Prop :=
  executed.1 = a.database ∧
    ∃ log conn, net.connect log a.database = .ok conn ∧ executed.2 = a.text conn

theorem Got.serves (h : Got net g (requested conf q.database) conn g₁) (hg : g.Backed net) :
    Serves net (requested conf q.database, rewritten conn q)
      ⟨requested conf q.database, fun conn => rewritten conn q⟩ := by
  obtain ⟨log, hconnect⟩ := h.backed hg _ _ h.conn
  exact ⟨rfl, log, conn, hconnect, rfl⟩

/-- The loop after a query was executed. -/
def Progress.ran (net : Network) (g : Global) (st : Progress) (sql : String) : Progress where
  count := st.count + 1
  executed := st.executed ++ [(st.count, sql)]
  errs := st.errs ++ ((net.exec g.log sql).map Failure.unwrapped).getD []

theorem loop_real (h : getConn net conf g q.database = (g₁, .ok conn)) :
    loop net conf true g st (q :: diff) =
      if net.exec g₁.log (rewritten conn q) = none ∨
          (Progress.ran net g₁ st (rewritten conn q)).errs.length < maxErrors
      then loop net conf true (g₁.ran (rewritten conn q)) (Progress.ran net g₁ st (rewritten conn q)) diff
      else (g₁.ran (rewritten conn q), (Progress.ran net g₁ st (rewritten conn q)).finish) := by
  rw [loop, h]
  cases hexec : net.exec g₁.log (rewritten conn q) with
  | none => simp [Progress.ran, hexec]
  | some err => simp [Progress.ran, hexec]

/-- What the loop did with its queries. -/
structure Applied (net : Network) (conf : String) (really : Bool)
    (diff : List (SyncQuery Statement)) (g : Global) (st : Progress) (g' : Global) (out : Outcome) :
    Prop where
  traced : g.Traced → g'.Traced
  backed : g.Backed net → g'.Backed net
  /-- a connection is opened when the database changes, and only then -/
  connections : ∃ l, opens g'.log = opens g.log ++ l ∧
    l <+: switches g.database (requests conf diff)
  /-- each statement is executed in the database of its query, in order -/
  places : ∃ new, statements g'.log = statements g.log ++ new ∧
    (really = false → new = []) ∧
    (g.Backed net → ∃ l, l <+: asked conf diff ∧ List.Forall₂ (Serves net) new l) ∧
    out.executed = st.executed ++ (new.zipIdx st.count).map fun x => (x.2, x.1.2)
  /-- a loop that comes to its last query ends in its database -/
  complete : (∀ message, out.err ≠ some (.connection message)) →
    out.count = st.count + diff.length →
    opens g'.log = opens g.log ++ switches g.database (requests conf diff) ∧
      g'.database = (requests conf diff).getLast?.or g.database

theorem switches_requests (g : Global) (q : SyncQuery Statement) (diff : List (SyncQuery Statement)) :
    switches g.database (requests conf (q :: diff)) =
      switches g.database [requested conf q.database] ++
        switches (some (requested conf q.database)) (requests conf diff) :=
  switches_append g.database [requested conf q.database] (requests conf diff)

theorem getLast_requests (cur : Option String) (q : SyncQuery Statement)
    (diff : List (SyncQuery Statement)) :
    (requests conf (q :: diff)).getLast?.or cur =
      (requests conf diff).getLast?.or (some (requested conf q.database)) := by
  cases diff with
  | nil => rfl
  | cons q' diff => simp [requests, List.getLast?_cons]

theorem Applied.done (conf : String) (really : Bool) (g : Global) (st : Progress) :
    Applied net conf really [] g st g st.finish :=
  ⟨id, id, ⟨[], by simp, List.nil_prefix⟩, ⟨[], by simp [Progress.finish]⟩, fun _ _ => by
    simp [requests, switches]⟩

theorem Applied.unreachable {g' : Global} (h : Failed g g') (message : String) (really : Bool) :
    Applied net conf really (q :: diff) g st g'
      ⟨st.count + 1, st.executed, some (.connection message)⟩ :=
  ⟨h.traced, fun _ => h.backed, ⟨[], by simp [h.opens], List.nil_prefix⟩,
    ⟨[], by simp [h.statements]⟩, fun hnone => absurd rfl (hnone message)⟩

theorem Applied.dry {g' : Global} {out : Outcome}
    (h : Got net g (requested conf q.database) conn g₁)
    (hrest : Applied net conf false diff g₁ { st with count := st.count + 1 } g' out) :
    Applied net conf false (q :: diff) g st g' out := by
  obtain ⟨l, hl, hinit⟩ := hrest.connections
  obtain ⟨new, hnew, hnone, _, hout⟩ := hrest.places
  obtain rfl := hnone rfl
  refine ⟨fun ht => hrest.traced (h.traced ht), fun hg => hrest.backed (h.backed hg),
    ⟨switches g.database [requested conf q.database] ++ l, ?_, ?_⟩,
    ⟨[], ?_, fun _ => rfl, fun _ => ⟨[], List.nil_prefix, .nil⟩, ?_⟩, fun herr hcount => ?_⟩
  · rw [hl, h.opens, List.append_assoc]
  · rw [switches_requests, List.prefix_append_right_inj, ← h.database]
    exact hinit
  · rw [hnew, h.statements]
  · simpa using hout
  · obtain ⟨hopens, hdatabase⟩ := hrest.complete herr (by
      show out.count = st.count + 1 + diff.length
      rw [hcount, List.length_cons]
      omega)
    rw [hopens, h.opens, switches_requests, getLast_requests, ← h.database, List.append_assoc]
    exact ⟨rfl, hdatabase⟩

theorem statements_ran (sql : String) :
    statements (g.ran sql).log = statements g.log ++ [(g.database.getD "", sql)] :=
  statements_append _ _

theorem opens_ran (sql : String) : opens (g.ran sql).log = opens g.log := by
  rw [Global.ran, opens_append]
  exact List.append_nil _

theorem Applied.full (h : Got net g (requested conf q.database) conn g₁) :
    Applied net conf true (q :: diff) g st (g₁.ran (rewritten conn q))
      (Progress.ran net g₁ st (rewritten conn q)).finish := by
  refine ⟨fun ht => (h.traced ht).ran h.database _, h.backed,
    ⟨switches g.database [requested conf q.database], ?_, ?_⟩,
    ⟨[(requested conf q.database, rewritten conn q)], ?_, nofun, fun hg => ?_, rfl⟩,
    fun _ hcount => ?_⟩
  · rw [opens_ran, h.opens]
  · rw [switches_requests]
    exact List.prefix_append _ _
  · rw [statements_ran, h.statements, h.database]
    rfl
  · exact ⟨_, List.prefix_append [_] _, .cons (h.serves hg) .nil⟩
  · -- the query was the last one
    obtain rfl : diff = [] := by
      apply List.eq_nil_of_length_eq_zero
      simp only [Progress.finish, Progress.ran, List.length_cons] at hcount
      omega
    refine ⟨?_, h.database⟩
    rw [opens_ran, h.opens]
    rfl

theorem Applied.real {g' : Global} {out : Outcome}
    (h : Got net g (requested conf q.database) conn g₁)
    (hrest : Applied net conf true diff (g₁.ran (rewritten conn q))
      (Progress.ran net g₁ st (rewritten conn q)) g' out) :
    Applied net conf true (q :: diff) g st g' out := by
  have hdatabase : (g₁.ran (rewritten conn q)).database = some (requested conf q.database) :=
    h.database
  obtain ⟨l, hl, hinit⟩ := hrest.connections
  obtain ⟨new, hnew, _, hplaces, hout⟩ := hrest.places
  refine ⟨fun ht => hrest.traced ((h.traced ht).ran h.database _),
    fun hg => hrest.backed (h.backed hg),
    ⟨switches g.database [requested conf q.database] ++ l, ?_, ?_⟩,
    ⟨(requested conf q.database, rewritten conn q) :: new, ?_, nofun, fun hg => ?_, ?_⟩,
    fun herr hcount => ?_⟩
  · rw [hl, opens_ran, h.opens, List.append_assoc]
  · rw [switches_requests, List.prefix_append_right_inj, ← hdatabase]
    exact hinit
  · rw [hnew, statements_ran, h.statements, h.database, List.append_assoc]
    rfl
  · obtain ⟨done, hdone, hserved⟩ := hplaces (h.backed hg)
    exact ⟨_, (List.prefix_cons_inj _).mpr hdone, .cons (h.serves hg) hserved⟩
  · rw [hout, Progress.ran, List.append_assoc]
    rfl
  · obtain ⟨hopens, hlast⟩ := hrest.complete herr (by
      show out.count = st.count + 1 + diff.length
      rw [hcount, List.length_cons]
      omega)
    rw [hopens, opens_ran, h.opens, switches_requests, getLast_requests, ← hdatabase,
      List.append_assoc]
    exact ⟨rfl, hlast⟩

theorem applied (net : Network) (conf : String) (really : Bool) (diff : List (SyncQuery Statement)) :
    ∀ (g : Global) (st : Progress),
      Applied net conf really diff g st (loop net conf really g st diff).1
        (loop net conf really g st diff).2 := by
  induction diff with
  | nil => exact fun g st => .done conf really g st
  | cons q diff ih =>
    intro g st
    have hgets := getConn_gets net conf g q.database
    generalize hget : getConn net conf g q.database = got at hgets
    obtain ⟨g₁, result⟩ := got
    cases result with
    | error err =>
      rw [loop, hget]
      exact .unreachable hgets.failed _ really
    | ok conn =>
      cases really with
      | false =>
        rw [loop, hget]
        exact .dry hgets.got (ih g₁ _)
      | true =>
        rw [loop_real hget]
        split
        · exact .real hgets.got (ih _ _)
        · exact .full hgets.got

end Loop

/-! ## The whole program -/

/-- What the stages do with the connection: inspection runs a query in a database, and `Apply` its
own. -/
inductive Op where
  | query (database sql : String)
  | apply (diff : List (SyncQuery Statement)) (really : Bool)

section Program
variable {net : Network} {conf : String} {g : Global}

def Op.run (net : Network) (conf : String) (g : Global) : Op → Global
  | .query database sql => match getConn net conf g database with
    | (g', .error _) => g'
    | (g', .ok _) => g'.ran sql
  | .apply diff really => (Connection.apply net conf g diff really).1

theorem backed_none : Global.Backed net {} := by
  intro d conn h
  cases h

/-- What the stage asks for, in order. -/
def Op.asked (conf : String) : Op → List Asked
  | .query database sql => [⟨requested conf database, fun _ => sql⟩]
  | .apply diff _ => Connection.asked conf diff

/-- What was opened and executed since `g`, for what was asked. -/
structure Follows (net : Network) (g g' : Global) (as : List Asked) : Prop where
  traced : g.Traced → g'.Traced
  backed : g.Backed net → g'.Backed net
  connections : ∃ l, opens g'.log = opens g.log ++ l ∧ l.Sublist (as.map Asked.database)
  places : ∃ new, statements g'.log = statements g.log ++ new ∧
    (g.Backed net → ∃ l, l.Sublist as ∧ List.Forall₂ (Serves net) new l)

theorem Follows.refl (g : Global) : Follows net g g [] :=
  ⟨id, id, ⟨[], by simp⟩, ⟨[], by simp⟩⟩

theorem Follows.trans {g₁ g₂ : Global} {as as' : List Asked} (h : Follows net g g₁ as)
    (h' : Follows net g₁ g₂ as') : Follows net g g₂ (as ++ as') := by
  obtain ⟨l, hl, hsub⟩ := h.connections
  obtain ⟨l', hl', hsub'⟩ := h'.connections
  obtain ⟨new, hnew, hplaces⟩ := h.places
  obtain ⟨new', hnew', hplaces'⟩ := h'.places
  refine ⟨fun ht => h'.traced (h.traced ht), fun hg => h'.backed (h.backed hg), ⟨l ++ l', ?_, ?_⟩,
    ⟨new ++ new', ?_, fun hg => ?_⟩⟩
  · rw [hl', hl, List.append_assoc]
  · rw [List.map_append]
    exact hsub.append hsub'
  · rw [hnew', hnew, List.append_assoc]
  · obtain ⟨done, hdone, hserved⟩ := hplaces hg
    obtain ⟨done', hdone', hserved'⟩ := hplaces' (h.backed hg)
    exact ⟨_, hdone.append hdone', List.rel_append hserved hserved'⟩

theorem follows_query (database sql : String) :
    Follows net g ((Op.query database sql).run net conf g)
      [⟨requested conf database, fun _ => sql⟩] := by
  have hgets := getConn_gets net conf g database
  generalize hget : getConn net conf g database = got at hgets
  obtain ⟨g₁, result⟩ := got
  cases result with
  | error err =>
    have h := hgets.failed
    rw [Op.run, hget]
    exact ⟨h.traced, fun _ => h.backed, ⟨[], by simp [h.opens]⟩,
      ⟨[], by simp [h.statements], fun _ => ⟨[], List.nil_sublist _, .nil⟩⟩⟩
  | ok conn =>
    have h := hgets.got
    rw [Op.run, hget]
    refine ⟨fun ht => (h.traced ht).ran h.database sql, h.backed,
      ⟨_, ?_, switches_sublist g.database _⟩,
      ⟨[(requested conf database, sql)], ?_, fun hg => ⟨_, .refl _, .cons ?_ .nil⟩⟩⟩
    · rw [opens_ran, h.opens]
      rfl
    · rw [statements_ran, h.statements, h.database]
      rfl
    · obtain ⟨log, hconnect⟩ := h.backed hg _ _ h.conn
      exact ⟨rfl, log, conn, hconnect, rfl⟩

theorem map_database_asked (diff : List (SyncQuery Statement)) :
    (asked conf diff).map Asked.database = requests conf diff := List.map_map

theorem follows_op (op : Op) : Follows net g (op.run net conf g) (op.asked conf) := by
  cases op with
  | query database sql => exact follows_query database sql
  | apply diff really =>
    have h := applied net conf really diff g {}
    obtain ⟨l, hl, hinit⟩ := h.connections
    obtain ⟨new, hnew, _, hplaces, _⟩ := h.places
    refine ⟨h.traced, h.backed, ⟨l, hl, ?_⟩, ⟨new, hnew, fun hg => ?_⟩⟩
    · rw [Op.asked, map_database_asked]
      exact hinit.sublist.trans (switches_sublist _ _)
    · obtain ⟨done, hdone, hserved⟩ := hplaces hg
      exact ⟨done, hdone.sublist, hserved⟩

theorem follows_run (net : Network) (conf : String) (ops : List Op) (g : Global) :
    Follows net g (ops.foldl (Op.run net conf) g) (ops.flatMap (Op.asked conf)) := by
  induction ops generalizing g with
  | nil => exact .refl g
  | cons op ops ih =>
    rw [List.foldl_cons, List.flatMap_cons]
    exact (follows_op op).trans (ih _)

/-- **One connection at a time, each statement in its own database.** Whatever is asked for and
whatever the server and the network answer, the log of the program is well formed: a connection is
opened when none is open, and to a database that was asked for. The statements are among those that
were asked for, in their order, each in its own database and with its text for a connection to it.
Once `CloseConn` ran, no connection is left. -/
theorem connections_of_run (net : Network) (conf : String) (ops : List Op) :
    Traced (ops.foldl (Op.run net conf) {}).log (ops.foldl (Op.run net conf) {}).database ∧
    Traced (closeConn (ops.foldl (Op.run net conf) {})).log none ∧
    (opens (ops.foldl (Op.run net conf) {}).log).Sublist
      ((ops.flatMap (Op.asked conf)).map Asked.database) ∧
    ∃ done, done.Sublist (ops.flatMap (Op.asked conf)) ∧
      List.Forall₂ (Serves net) (statements (ops.foldl (Op.run net conf) {}).log) done := by
  have h := follows_run net conf ops {}
  have htraced := h.traced Traced.nil
  have hclosed := htraced.closeConn
  obtain ⟨l, hl, hsub⟩ := h.connections
  obtain ⟨new, hnew, hplaces⟩ := h.places
  refine ⟨htraced, hclosed.2 ▸ hclosed.1, ?_, ?_⟩
  · rw [hl]
    exact hsub
  · rw [hnew]
    exact hplaces backed_none

end Program

/-! ## A connection that is lost

`GetConn` compares databases only: a connection that the server closed is handed out again. -/

/-- From here on, what goes through the connection fails until another one is opened. -/
def Lost (net : Network) (g : Global) : Prop :=
  ∀ later, opens later = [] → ∀ sql, ∃ err, net.exec (g.log ++ later) sql = some err ∧
    err.unwrapped ≠ []

section Lost
variable {net : Network} {conf d : String} {g : Global}

theorem Lost.ran (h : Lost net g) (sql : String) : Lost net (g.ran sql) := by
  intro later hlater sql'
  have hopens : opens (.executed (g.database.getD "") sql :: later) = [] := hlater
  obtain ⟨err, herr, hne⟩ := h _ hopens sql'
  refine ⟨err, ?_, hne⟩
  rw [← herr, Global.ran, List.append_assoc]
  rfl

theorem getConn_same (net : Network) (hg : g.database = some d) {database : String}
    (hd : requested conf database = d) : ∃ conn, getConn net conf g database = (g, .ok conn) := by
  have hgets := getConn_gets net conf g database
  rw [hd] at hgets
  generalize hget : getConn net conf g database = got at hgets ⊢
  cases hgets with
  | reused _ => exact ⟨_, rfl⟩
  | opened h _ => exact absurd hg h
  | refused h _ => exact absurd hg h

theorem lost_loop (diff : List (SyncQuery Statement)) : ∀ {g : Global} {st : Progress},
    Lost net g → g.database = some d → (∀ q ∈ diff, requested conf q.database = d) →
    st.errs.length < maxErrors →
    opens (loop net conf true g st diff).1.log = opens g.log ∧
      (loop net conf true g st diff).1.database = some d ∧
      (loop net conf true g st diff).2.count ≤ st.count + (maxErrors - st.errs.length) ∧
      ((loop net conf true g st diff).2.err = none → st.errs = [] ∧ diff = []) := by
  induction diff with
  | nil =>
    intro g st _ hg _ _
    refine ⟨rfl, hg, Nat.le_add_right _ _, fun herr => ⟨?_, rfl⟩⟩
    by_contra hne
    simp [loop, Progress.finish, List.length_pos_iff.mpr hne] at herr
  | cons q diff ih =>
    intro g st hlost hg hd hroom
    obtain ⟨conn, hget⟩ := getConn_same net hg (hd q List.mem_cons_self)
    obtain ⟨err, hexec, hne⟩ := hlost [] rfl (rewritten conn q)
    rw [List.append_nil] at hexec
    have hgrows : (Progress.ran net g st (rewritten conn q)).errs.length =
        st.errs.length + err.unwrapped.length := by
      simp [Progress.ran, hexec]
    have hpos : 0 < err.unwrapped.length := List.length_pos_iff.mpr hne
    have hfail : (Progress.ran net g st (rewritten conn q)).errs ≠ [] := by
      intro hnil
      rw [hnil, List.length_nil] at hgrows
      omega
    rw [loop_real hget]
    split
    case isTrue h =>
      have hroom' := h.resolve_left (by simp [hexec])
      obtain ⟨hopens, hdatabase, hcount, herr⟩ := ih (hlost.ran (rewritten conn q)) hg
        (fun q' hq' => hd q' (List.mem_cons_of_mem q hq')) hroom'
      refine ⟨hopens.trans (opens_ran _), hdatabase, hcount.trans ?_,
        fun hnone => absurd (herr hnone).1 hfail⟩
      show st.count + 1 + (maxErrors - _) ≤ st.count + (maxErrors - st.errs.length)
      omega
    case isFalse =>
      refine ⟨opens_ran _, hg, ?_, fun hnone => ?_⟩
      · show st.count + 1 ≤ st.count + (maxErrors - st.errs.length)
        omega
      · simp [Progress.finish, List.length_pos_iff.mpr hfail] at hnone

/-- **A lost connection is kept.** While the queries stay in its database, `Apply` does not open
another connection, gives up after at most eight queries, and reports an error unless there was
nothing to do. -/
theorem lost_connection_kept (hlost : Lost net g) (hg : g.database = some d)
    {diff : List (SyncQuery Statement)} (hd : ∀ q ∈ diff, requested conf q.database = d) :
    opens (apply net conf g diff true).1.log = opens g.log ∧
      (apply net conf g diff true).1.database = some d ∧
      (apply net conf g diff true).2.count ≤ 8 ∧
      ((apply net conf g diff true).2.err = none → diff = []) := by
  obtain ⟨hopens, hdatabase, hcount, herr⟩ := @lost_loop net conf d diff g {} hlost hg hd (by decide)
  exact ⟨hopens, hdatabase, hcount, fun h => (herr h).2⟩

/-- The server went away. -/
def gone : Network where
  connect _ _ := .ok Roles.Hooks.Sample.conn
  exec _ _ := some (.plain "conn closed")

def connected : Global := ⟨some ("app", Roles.Hooks.Sample.conn), [.opened "app"]⟩

theorem gone_gives_up :
    opens (apply gone "app" connected (List.replicate 20 Apply.Sample.comment) true).1.log = ["app"] ∧
      (apply gone "app" connected (List.replicate 20 Apply.Sample.comment) true).2.count ≤ 8 := by
  have hlost : Lost gone connected := fun _ _ _ => ⟨_, rfl, List.cons_ne_nil _ _⟩
  have h := @lost_connection_kept gone "app" "app" connected hlost rfl
    (List.replicate 20 Apply.Sample.comment) fun q hq => by
      rw [List.eq_of_mem_replicate hq]
      rfl
  exact ⟨h.1, h.2.2.1⟩

end Lost

/-! ## The loop is that of `Apply` -/

section Refines
variable {server server' : Server} {really : Bool}

/-- The loop does not ask about queries that came before. -/
theorem loop_congr {diff : List (SyncQuery Statement)} {n : Nat}
    (h : ∀ i, n ≤ i → server.getConn i = server'.getConn i ∧ server.exec i = server'.exec i) :
    ∀ {st : Progress}, n ≤ st.count →
      Apply.loop server really st diff = Apply.loop server' really st diff := by
  induction diff with
  | nil => intro st _; rfl
  | cons q diff ih =>
    intro st hn
    obtain ⟨hget, hexec⟩ := h st.count hn
    have hnext : n ≤ st.count + 1 := Nat.le_succ_of_le hn
    rw [Apply.loop, Apply.loop, hget, hexec]
    cases server'.getConn st.count q.database with
    | error err => rfl
    | ok conn =>
      simp only
      split
      · exact ih hnext
      · split
        · exact ih hnext
        · split
          · exact ih hnext
          · rfl

/-- A server that answers one query in its own way. -/
def answering (server : Server) (n : Nat) (result : Except String Conn) (failure : Option Failure) :
    Server where
  getConn i d := if i = n then result else server.getConn i d
  exec i sql := if i = n then failure else server.exec i sql

theorem answering_later (server : Server) (n : Nat) (result : Except String Conn)
    (failure : Option Failure) (i : Nat) (hi : n + 1 ≤ i) :
    server.getConn i = (answering server n result failure).getConn i ∧
      server.exec i = (answering server n result failure).exec i := by
  have hne : i ≠ n := by omega
  exact ⟨funext fun _ => (if_neg hne).symm, funext fun _ => (if_neg hne).symm⟩

/-- `Apply` on the global connection is `Apply` for some answers of the server. -/
theorem loop_refines (net : Network) (conf : String) (really : Bool)
    (diff : List (SyncQuery Statement)) : ∀ (g : Global) (st : Progress), ∃ server,
      (loop net conf really g st diff).2 = Apply.loop server really st diff := by
  induction diff with
  | nil => exact fun g st => ⟨⟨fun _ _ => .error "", fun _ _ => none⟩, rfl⟩
  | cons q diff ih =>
    intro g st
    cases hget : getConn net conf g q.database with
    | mk g₁ result =>
      cases result with
      | error err =>
        refine ⟨⟨fun _ _ => .error err, fun _ _ => none⟩, ?_⟩
        rw [loop, hget, Apply.loop]
      | ok conn =>
        -- the first answer, in front of those of the rest
        have hstep : ∀ (g' : Global) (st' : Progress) (failure : Option Failure),
            st.count + 1 ≤ st'.count → ∃ server : Server,
              server.getConn st.count q.database = .ok conn ∧
              (∀ sql, server.exec st.count sql = failure) ∧
              (loop net conf really g' st' diff).2 = Apply.loop server really st' diff := by
          intro g' st' failure hcount
          obtain ⟨server, hserver⟩ := ih g' st'
          refine ⟨answering server st.count (.ok conn) failure, if_pos rfl, fun _ => if_pos rfl, ?_⟩
          rw [hserver]
          exact loop_congr (answering_later server st.count (.ok conn) failure) hcount
        rw [loop, hget]
        cases really with
        | false =>
          obtain ⟨server, hconn, _, hrest⟩ := hstep g₁ { st with count := st.count + 1 } none le_rfl
          refine ⟨server, ?_⟩
          rw [Apply.loop, hconn]
          exact hrest
        | true =>
          simp only [Bool.true_eq_false, if_false]
          cases hexec : net.exec g₁.log (rewritten conn q) with
          | none =>
            obtain ⟨server, hconn, hnone, hrest⟩ := hstep (g₁.ran (rewritten conn q))
              { st with count := st.count + 1
                        executed := st.executed ++ [(st.count, rewritten conn q)] } none le_rfl
            refine ⟨server, ?_⟩
            rw [Apply.loop, hconn]
            simp only [Bool.true_eq_false, if_false, hnone]
            exact hrest
          | some err =>
            obtain ⟨server, hconn, hsome, hrest⟩ := hstep (g₁.ran (rewritten conn q))
              { count := st.count + 1
                executed := st.executed ++ [(st.count, rewritten conn q)]
                errs := st.errs ++ err.unwrapped } (some err) le_rfl
            refine ⟨server, ?_⟩
            rw [Apply.loop, hconn]
            simp only [Bool.true_eq_false, if_false, hsome]
            split
            · exact hrest
            · rfl

end Refines

end Ldap2pg.Postgres.Connection
