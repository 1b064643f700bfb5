import Ldap2pg.Wanted.History
import Ldap2pg.Wanted.Panics

/-! # No error of `Rules.Run` is lost

The loops keep going after an error, so that one run reports all of them. Each
error stays on the list to the end, and a nil error says that the wanted roles
and grants are well formed. -/
namespace Ldap2pg.Wanted
open Lib Ldap Privileges Roles

variable {events : List Event} {connect : Option String}

variable {env : Env} {reg : Registry} {ctx : Setting} {o : Order} {ldapc : Directory}
  {configs : ConfigRef → Config}

/-- The search of the step fails, or one of the sub-searches sent for its entries. -/
inductive Step.SearchFails (env : Env) (o : Order) (ldapc : Directory) (s : Step) : Prop where
  | main (err : String) (hs : s.hasLDAPSearch = true) (hmain : ldapc [0] s.request = .error err)
  | sub (entries : List Entry) (ei : Entry × Nat) (bj : String × Nat) (err : String)
      (hs : s.hasLDAPSearch = true) (hmain : ldapc [0] s.request = .ok entries)
      (hattr : s.ldapSearch.subsearchAttribute (o.sub 0) ≠ "") (hei : ei ∈ entries.zipIdx)
      (hbj : bj ∈ (ei.1.values env (s.ldapSearch.subsearchAttribute (o.sub 0))).zipIdx)
      (hsub : ldapc [1, ei.2, bj.2]
        (s.subRequest (s.ldapSearch.subsearchAttribute (o.sub 0)) bj.1) = .error err)

theorem Step.SearchFails.mem_search {s : Step} (h : s.SearchFails env o ldapc) :
    ∃ err, .error err ∈ s.search env o ldapc := by
  unfold Step.search
  cases h with
  | main err hs hmain =>
    rw [if_neg (by simp [hs]), hmain]
    exact ⟨err, List.mem_singleton.mpr rfl⟩
  | sub entries ei bj err hs hmain hattr hei hbj hsub =>
    rw [if_neg (by simp [hs]), hmain]
    refine ⟨err, List.mem_flatMap.mpr ⟨ei, hei, ?_⟩⟩
    rw [if_neg hattr]
    exact List.mem_map.mpr ⟨bj, hbj, by rw [hsub]⟩

/-- Some search or sub-search that `Run` sends fails. -/
def Rules.SearchFails (env : Env) (o : Order) (ldapc : Directory) (m : Rules) : Prop :=
  ∃ is ∈ numbered Step.hasLDAPSearch 0 m,
    is.2.SearchFails env ((o.sub is.1).sub 0) (ldapc.sub is.1)

theorem Step.searchError_mem_events {s : Step} {err : String}
    (h : s.events env reg o ldapc = .ok events)
    (hsearch : .error err ∈ s.search env (o.sub 0) ldapc) : .searchError err ∈ events := by
  obtain ⟨l, hl, h⟩ := bind_eq_ok.mp h
  cases h
  obtain ⟨j, hj⟩ := exists_mem_zipIdx hsearch
  obtain ⟨es, hes, heq⟩ := mem_mapM_ok hl hj
  cases heq
  exact List.mem_flatten.mpr ⟨_, hes, List.mem_singleton.mpr rfl⟩

theorem Rules.SearchFails.mem_events {m : Rules} (h : m.SearchFails env o ldapc)
    (hevents : m.events env reg o ldapc = .ok events) : ∃ err, .searchError err ∈ events := by
  obtain ⟨is, his, hfails⟩ := h
  obtain ⟨err, herr⟩ := hfails.mem_search
  obtain ⟨l, hl, hevents⟩ := bind_eq_ok.mp hevents
  cases hevents
  obtain ⟨es, hes, heq⟩ := mem_mapM_ok hl his
  exact ⟨err, List.mem_flatten.mpr ⟨es, hes, Step.searchError_mem_events heq herr⟩⟩

/-- A grant to a role that is not blacklisted and that no role sent before it
defines. -/
def UnknownGrantee (ctx : Setting) (events : List Event) : Prop :=
  ∃ before g later, events = before ++ .grant g :: later ∧
    (∀ pattern ∈ ctx.blacklist, ctx.glob.isMatch pattern g.grantee = false) ∧
    ∀ d ∈ definitions before, d.head.name ≠ g.grantee

namespace State

theorem step_errList (ctx : Setting) (st : State) (e : Event) :
    ∃ l, (st.step ctx e).errList = st.errList ++ l := by
  cases e with
  | searchError err => exact ⟨[err], rfl⟩
  | sent s => exact ⟨[], by rw [step, (receive_frame ctx st s).2, List.append_nil]⟩
  | grant g =>
    rw [step, addGrant]
    split
    · exact ⟨[], (List.append_nil _).symm⟩
    · split
      · exact ⟨_, rfl⟩
      · exact ⟨[], (List.append_nil _).symm⟩

/-- An error stays on the list. -/
theorem errList_of_step {before later : List Event} {e : Event}
    (hsplit : events = before ++ e :: later)
    (h : ((after ctx configs before).step ctx e).errList ≠ []) :
    (after ctx configs events).errList ≠ [] := by
  rw [hsplit]
  clear hsplit
  induction later using List.reverseRecOn with
  | nil => rw [after_snoc]; exact h
  | append_singleton later e' ih =>
    rw [← List.cons_append, ← List.append_assoc, after_snoc]
    obtain ⟨l, hl⟩ := step_errList ctx (after ctx configs (before ++ e :: later)) e'
    rw [hl]
    exact fun hnil => ih (List.append_eq_nil_iff.mp hnil).1

theorem errList_of_searchError {err : String} (h : .searchError err ∈ events) :
    (after ctx configs events).errList ≠ [] := by
  obtain ⟨before, later, hsplit⟩ := List.append_of_mem h
  exact errList_of_step hsplit (by simp [step])

theorem errList_of_unknownGrantee (h : UnknownGrantee ctx events) :
    (after ctx configs events).errList ≠ [] := by
  obtain ⟨before, g, later, hsplit, hblack, hunknown⟩ := h
  refine errList_of_step hsplit ?_
  have hmatch : Lists.firstMatch ctx.glob ctx.blacklist g.grantee = "" := by
    unfold Lists.firstMatch
    rw [List.find?_eq_none.mpr fun pattern hp => by simp [hblack pattern hp]]
    rfl
  have hroles : g.grantee ∉ (after ctx configs before).roles := by
    intro hin
    obtain ⟨r, hr⟩ := Dict.mem_iff.mp hin
    obtain ⟨d, hd, _⟩ := (known_after ctx configs before).first _ r hr
    exact hunknown d (List.mem_of_find?_eq_some hd) (by simpa using List.find?_some hd)
  rw [step, addGrant, if_neg (not_not.mpr hmatch), if_pos hroles]
  simp

/-- Each grant is under its own ACL, and goes to a role of the map. -/
def Filed (st : State) : Prop :=
  ∀ (acl : String) (l : List Grant), st.grants[acl]? = some l →
    ∀ g ∈ l, g.acl = acl ∧ g.grantee ∈ st.roles

theorem Filed.step {st : State} (h : st.Filed) (e : Event) : (st.step ctx e).Filed := by
  cases e with
  | searchError err => exact h
  | sent s =>
    intro acl l hl g hg
    rw [State.step, (receive_frame ctx st s).1] at hl
    obtain ⟨hacl, hin⟩ := h acl l hl g hg
    exact ⟨hacl, receive_roles_mono ctx st s hin⟩
  | grant g₀ =>
    rw [State.step, addGrant]
    split
    · exact h
    · split
      · exact h
      case isFalse hin =>
        intro acl l hl g hg
        simp only at hl ⊢
        rcases Dict.get_insert_cases hl with ⟨rfl, rfl⟩ | ⟨_, hl⟩
        · rcases List.mem_append.mp hg with hg | hg
          · cases hcur : st.grants[g₀.acl]? with
            | none => rw [hcur] at hg; cases hg
            | some l₀ => rw [hcur] at hg; exact h _ l₀ hcur g hg
          · rw [List.mem_singleton.mp hg]
            exact ⟨rfl, not_not.mp hin⟩
        · exact h acl l hl g hg

theorem filed_after (ctx : Setting) (configs : ConfigRef → Config) (events : List Event) :
    (after ctx configs events).Filed := by
  induction events using List.reverseRecOn with
  | nil => intro acl l hl; simp [after] at hl
  | append_singleton events e ih => rw [after_snoc]; exact ih.step e

end State

theorem keyIsName_after (ctx : Setting) (configs : ConfigRef → Config) (events : List Event) :
    KeyIsName (State.after ctx configs events).roleMap := by
  intro n r hr
  rw [State.roleMap_get] at hr
  obtain ⟨ref, href, rfl⟩ := Option.map_eq_some_iff.mp hr
  exact (known_after ctx configs events).key href

theorem joinErrors_eq_none {l : List String} : joinErrors l = none ↔ l = [] := by
  cases l <;> simp [joinErrors]

/-- What goes wrong in a run that must not synchronise. -/
inductive Rules.Fails (env : Env) (reg : Registry) (ctx : Setting) (o : Order) (ldapc : Directory)
    (configs : ConfigRef → Config) (m : Rules) : Prop where
  | search (h : m.SearchFails env (o.sub 0) ldapc)
  | grant (events : List Event) (hevents : m.events env reg (o.sub 0) ldapc = .ok events)
      (h : UnknownGrantee ctx events)
  | cycle (events : List Event) (hevents : m.events env reg (o.sub 0) ldapc = .ok events)
      (h : ¬ Map.Acyclic (State.after ctx configs events).roleMap)

/-- **A run that goes wrong returns an error**, if it returns. -/
theorem Rules.Fails.err_ne_none {m : Rules} (h : m.Fails env reg ctx o ldapc configs)
    {out : Outcome} (hrun : m.run env reg ctx o connect ldapc configs = .ok out) :
    out.err ≠ none := by
  cases hconn : if m.hasLDAPSearches then connect else none with
  | some err =>
    unfold Rules.run at hrun
    rw [hconn] at hrun
    cases hrun
    simp
  | none =>
    obtain ⟨events, checkErr, hevents, _, hcheck, rfl⟩ := run_eq_ok hrun hconn
    intro hnone
    obtain ⟨herrs, hcheckErr⟩ := List.append_eq_nil_iff.mp (joinErrors_eq_none.mp hnone)
    cases h with
    | search h =>
      obtain ⟨err, herr⟩ := h.mem_events hevents
      exact State.errList_of_searchError herr herrs
    | grant events' hevents' h =>
      cases hevents.symm.trans hevents'
      exact State.errList_of_unknownGrantee h herrs
    | cycle events' hevents' h =>
      cases hevents.symm.trans hevents'
      rw [Option.toList_eq_nil_iff.mp hcheckErr] at hcheck
      exact h ((check_eq_none_iff (keyIsName_after ctx configs events) _).mp hcheck)

/-- What a nil error says of the wanted roles and grants. -/
structure Outcome.WellFormed (ctx : Setting) (out : Outcome) : Prop where
  name : ∀ (n : String) (r : Role), out.roles[n]? = some r → n ≠ "" ∧ r.name = n ∧
    ∀ pattern ∈ ctx.blacklist, ctx.glob.isMatch pattern n = false
  filed : ∀ (acl : String) (l : List Grant), out.grants[acl]? = some l →
    ∀ g ∈ l, g.acl = acl ∧ g.grantee ∈ out.roles
  acyclic : Map.Acyclic out.roles

theorem Outcome.wellFormed_of_run {m : Rules} {out : Outcome}
    (hrun : m.run env reg ctx o connect ldapc configs = .ok out) (hnil : out.err = none) :
    out.WellFormed ctx := by
  cases hconn : if m.hasLDAPSearches then connect else none with
  | some err =>
    unfold Rules.run at hrun
    rw [hconn] at hrun
    cases hrun
    cases hnil
  | none =>
    obtain ⟨events, checkErr, hevents, _, hcheck, rfl⟩ := run_eq_ok hrun hconn
    obtain ⟨_, hcheckErr⟩ := List.append_eq_nil_iff.mp (joinErrors_eq_none.mp hnil)
    have hkey := keyIsName_after ctx configs events
    refine ⟨fun n r hr => ?_, fun acl l hl g hg => ?_, ?_⟩
    · have hname := hkey n r hr
      rw [State.roleMap_get] at hr
      obtain ⟨ref, href, _⟩ := Option.map_eq_some_iff.mp hr
      obtain ⟨hne, hmatch⟩ := (known_after ctx configs events).kept n ref href
      exact ⟨hne, hname, (Lists.firstMatch_eq_empty hne).mp hmatch⟩
    · obtain ⟨hacl, hin⟩ := State.filed_after ctx configs events acl l hl g hg
      refine ⟨hacl, ?_⟩
      obtain ⟨ref, href⟩ := Dict.mem_iff.mp hin
      exact Dict.mem_iff.mpr ⟨ref.deref _, by rw [State.roleMap_get, href]; rfl⟩
    · rw [Option.toList_eq_nil_iff.mp hcheckErr] at hcheck
      exact (check_eq_none_iff hkey _).mp hcheck

/-- Once connected, `Run` returns if no generator panics and no pattern is malformed. -/
theorem Rules.run_of_events (configs : ConfigRef → Config) {m : Rules}
    (hconnect : (if m.hasLDAPSearches then connect else none) = none)
    (hevents : m.events env reg (o.sub 0) ldapc = .ok events)
    (hgood : events.any (Event.panics ctx) = false) : ∃ checkErr : Option String,
      m.run env reg ctx o connect ldapc configs = .ok
        { roles := (State.after ctx configs events).roleMap
          grants := (State.after ctx configs events).grants
          err := joinErrors ((State.after ctx configs events).errList ++ checkErr.toList) } := by
  unfold Rules.run
  rw [hconnect, hevents]
  simp only [bind, Except.bind, hgood, Bool.false_eq_true, if_false]
  rcases check_spec (keyIsName_after ctx configs events) (o.sub 1) with ⟨h, _⟩ | ⟨err, h, _⟩
  · exact ⟨none, by rw [h]; rfl⟩
  · exact ⟨some err, by rw [h]; rfl⟩

/-- A pattern of the blacklist is malformed on a name that the loops look up. -/
def BadPattern (ctx : Setting) (events : List Event) : Prop :=
  ∃ e ∈ events, ∃ pattern ∈ ctx.blacklist,
    (∃ copied head config, e = .sent (.role copied head config) ∧ head.name ≠ "" ∧
      ctx.glob.isBad pattern head.name = true) ∨
    ∃ g, e = .grant g ∧ ctx.glob.isBad pattern g.grantee = true

theorem exists_bad_of_not_ok {glob : Lists.Glob} {blacklist : List String} {name : String}
    (h : (!(Lists.matchString glob blacklist name).isOk) = true) :
    ∃ pattern ∈ blacklist, glob.isBad pattern name = true := by
  cases hm : Lists.matchString glob blacklist name with
  | ok found => rw [hm] at h; cases h
  | error p => exact (Lists.matchString_error hm).2

theorem badPattern_of_panics (h : events.any (Event.panics ctx) = true) :
    BadPattern ctx events := by
  obtain ⟨e, he, hpanics⟩ := List.any_eq_true.mp h
  cases e with
  | searchError err => cases hpanics
  | grant g =>
    obtain ⟨pattern, hin, hbad⟩ := exists_bad_of_not_ok hpanics
    exact ⟨_, he, pattern, hin, .inr ⟨g, rfl, hbad⟩⟩
  | sent s =>
    cases s with
    | parents l => cases hpanics
    | role copied head config =>
      obtain ⟨hne, hpanics⟩ := Bool.and_eq_true_iff.mp hpanics
      obtain ⟨pattern, hin, hbad⟩ := exists_bad_of_not_ok hpanics
      exact ⟨_, he, pattern, hin, .inl ⟨copied, head, config, rfl, of_decide_eq_true hne, hbad⟩⟩

/-- `Run` returns if every step with a dynamic rule searches the directory, or panics on
a malformed pattern. -/
theorem Rules.run_covered (env : Env) (reg : Registry) (ctx : Setting) (o : Order)
    (connect : Option String) (ldapc : Directory) (configs : ConfigRef → Config) {m : Rules}
    (hc : ∀ s ∈ m, s.Covered) : (∃ out, m.run env reg ctx o connect ldapc configs = .ok out) ∨
      m.run env reg ctx o connect ldapc configs = .error .badPattern ∧
        ∃ events, m.events env reg (o.sub 0) ldapc = .ok events ∧ BadPattern ctx events := by
  cases hconnect : if m.hasLDAPSearches then connect else none with
  | some err => exact .inl ⟨_, by rw [Rules.run, hconnect]⟩
  | none =>
    obtain ⟨events, hevents⟩ := Rules.events_ok env reg (o.sub 0) ldapc hc
    cases hgood : events.any (Event.panics ctx) with
    | true =>
      refine .inr ⟨?_, events, hevents, badPattern_of_panics hgood⟩
      unfold Rules.run
      rw [hconnect, hevents]
      exact if_pos hgood
    | false =>
      obtain ⟨checkErr, hrun⟩ := Rules.run_of_events configs hconnect hevents hgood
      exact .inl ⟨_, hrun⟩

end Ldap2pg.Wanted
