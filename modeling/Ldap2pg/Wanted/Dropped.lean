import Ldap2pg.Wanted.Split

/-! # `Rules.DropGrants`

Without privileges, grants are taken off the rules, and with them the steps that only
grant. A step that is kept searches the directory as before, with the attributes and the
sub-searches that its grants asked for. -/
namespace Ldap2pg.Wanted
open Lib Ldap Privileges Roles

/-- The step without its grants. -/
def Step.withoutGrants (s : Step) : Step := { s with grantRules := [] }

def Event.isGrant : Event → Bool
  | .grant _ => true
  | _ => false

variable {events : List Event}

/-! ## The run that is left -/

/-- The sites of the searches of the steps that are kept, from site `i` on. -/
def Rules.keptSites (i : Nat) : Rules → List Nat
  | [] => []
  | s :: m =>
    if s.hasLDAPSearch then
      if 0 < s.roleRules.length then i :: Rules.keptSites (i + 1) m else Rules.keptSites (i + 1) m
    else Rules.keptSites i m

/-- The searches that are kept get the same answers, and their maps are read in the same
order. -/
def SameSearches (m : Rules) (o o' : Order) (ldapc ldapc' : Directory) : Prop :=
  ∀ j i : Nat, (m.keptSites 0)[j]? = some i → o'.sub j = o.sub i ∧ ldapc'.sub j = ldapc.sub i

/-- Whatever the searches of a run, there is a run without the other ones. -/
theorem exists_sameSearches (m : Rules) (o : Order) (ldapc : Directory) :
    ∃ (o' : Order) (ldapc' : Directory), SameSearches m (o.sub 0) (o'.sub 0) ldapc ldapc' := by
  let site : Nat → Nat := fun j => ((m.keptSites 0)[j]?).getD 0
  refine ⟨⟨fun path => o.pick (path.modify 1 site), fun path => o.perm (path.modify 1 site)⟩,
    fun path => ldapc (path.modify 0 site), ?_⟩
  intro j i hj
  have hsite : site j = i := by simp [site, hj]
  subst hsite
  exact ⟨rfl, rfl⟩

section Steps
variable {env : Env} {reg reg' : Registry} {o : Order} {ldapc : Directory} {s : Step}

theorem resultEvents_withoutGrants {x : Except String Result × Nat}
    (h : s.resultEvents env reg o x = .ok events) :
    s.withoutGrants.resultEvents env reg' o x = .ok (events.filter fun e => !e.isGrant) := by
  obtain ⟨result, j⟩ := x
  cases result with
  | error err =>
    cases h
    rfl
  | ok results =>
    obtain ⟨roles, hroles, h⟩ := bind_eq_ok.mp h
    obtain ⟨grants, _, h⟩ := bind_eq_ok.mp h
    cases h
    have hgenerate : s.withoutGrants.generateRoles env ((o.sub 1).sub j) results = .ok roles := hroles
    have hfilter : (roles.map Event.sent ++ grants.map Event.grant).filter (fun e => !e.isGrant) =
        roles.map Event.sent := by
      rw [List.filter_append, List.filter_eq_self.mpr, List.filter_eq_nil_iff.mpr, List.append_nil]
      · intro e he
        obtain ⟨g, _, rfl⟩ := List.mem_map.mp he
        simp [Event.isGrant]
      · intro e he
        obtain ⟨sent, _, rfl⟩ := List.mem_map.mp he
        rfl
    rw [Step.resultEvents, hgenerate, hfilter]
    exact congrArg Except.ok (List.append_nil _)

/-- A step gives the same roles and the same errors without its grants. -/
theorem events_withoutGrants (h : s.events env reg o ldapc = .ok events) :
    s.withoutGrants.events env reg' o ldapc = .ok (events.filter fun e => !e.isGrant) := by
  obtain ⟨chunks, hchunks, h⟩ := bind_eq_ok.mp h
  cases h
  refine bind_eq_ok.mpr ⟨chunks.map (List.filter fun e => !e.isGrant), ?_, ?_⟩
  · rw [mapM_ok_iff] at hchunks ⊢
    refine List.forall₂_map_right_iff.mpr (hchunks.imp fun x events h => ?_)
    exact resultEvents_withoutGrants h
  · rw [List.filter_flatten]
    rfl

/-- A step without role rules gives grants and errors only. -/
theorem not_sent_of_no_roles (hs : s.roleRules = []) (h : s.events env reg o ldapc = .ok events)
    {sent : Sent} : .sent sent ∉ events := by
  intro hin
  obtain ⟨chunks, hchunks, h⟩ := bind_eq_ok.mp h
  cases h
  obtain ⟨chunk, hchunk, hin⟩ := List.mem_flatten.mp hin
  obtain ⟨⟨result, j⟩, _, hresult⟩ := mem_of_mapM_ok hchunks hchunk
  cases result with
  | error err =>
    cases hresult
    simp at hin
  | ok results =>
    obtain ⟨roles, hroles, hresult⟩ := bind_eq_ok.mp hresult
    obtain ⟨grants, _, hresult⟩ := bind_eq_ok.mp hresult
    cases hresult
    rw [Step.generateRoles, hs] at hroles
    cases hroles
    simp at hin

end Steps

/-! ## Whole rule sets -/

section Rules
variable {env : Env} {reg reg' : Registry} {o o' : Order} {ldapc ldapc' : Directory}

theorem dropGrants_cons_kept {s : Step} (h : s.roleRules ≠ []) (m : Rules) :
    Rules.dropGrants (s :: m) = s.withoutGrants :: Rules.dropGrants m := by
  unfold Rules.dropGrants
  rw [List.map_cons, List.filter_cons_of_pos]
  · rfl
  · simpa using List.length_pos_iff.mpr h

theorem dropGrants_cons_dropped {s : Step} (h : s.roleRules = []) (m : Rules) :
    Rules.dropGrants (s :: m) = Rules.dropGrants m := by
  unfold Rules.dropGrants
  rw [List.map_cons, List.filter_cons_of_neg]
  simp [h]

/-- What is left of the events of the steps from site `i` on, for steps that are now from
site `j` on. -/
theorem chunks_dropGrants {m : Rules} {i j : Nat} {chunks : List (List Event)}
    (hsame : ∀ k i', (m.keptSites i)[k]? = some i' →
      o'.sub (j + k) = o.sub i' ∧ ldapc'.sub (j + k) = ldapc.sub i')
    (h : Split.chunksFrom env reg o ldapc i m = .ok chunks)
    (herr : ∀ chunk ∈ chunks, ∀ err, .searchError err ∉ chunk) :
    ∃ chunks', Split.chunksFrom env reg' o' ldapc' j m.dropGrants = .ok chunks' ∧
      chunks'.flatten = chunks.flatten.filter fun e => !e.isGrant := by
  induction m generalizing i j chunks with
  | nil =>
    cases h
    exact ⟨[], rfl, rfl⟩
  | cons s m ih =>
    rw [Split.chunksFrom, numbered, mapM_ok_iff] at h
    cases h with
    | @cons _ events _ chunks hevents hrest =>
    have hrest := mapM_ok_iff.mpr hrest
    have herr' : ∀ chunk ∈ chunks, ∀ err, .searchError err ∉ chunk := fun chunk hchunk =>
      herr chunk (List.mem_cons_of_mem events hchunk)
    rw [List.flatten_cons, List.filter_append]
    by_cases hroles : s.roleRules = []
    · -- only grants are lost with the step
      have hnone : events.filter (fun e => !e.isGrant) = [] := by
        refine List.filter_eq_nil_iff.mpr fun e he => ?_
        cases e with
        | searchError err => exact absurd he (herr events List.mem_cons_self err)
        | sent sent => exact absurd he (not_sent_of_no_roles hroles hevents)
        | grant g => exact Bool.false_ne_true
      have hsites : Rules.keptSites i (s :: m) =
          Rules.keptSites (if s.hasLDAPSearch then i + 1 else i) m := by
        rw [Rules.keptSites, hroles]
        split <;> rfl
      rw [dropGrants_cons_dropped hroles, hnone, List.nil_append]
      exact ih (hsites ▸ hsame) hrest herr'
    · rw [dropGrants_cons_kept hroles]
      have hlength : 0 < s.roleRules.length := List.length_pos_iff.mpr hroles
      cases hsearch : s.hasLDAPSearch with
      | true =>
        rw [Rules.keptSites, if_pos hsearch, if_pos hlength] at hsame
        obtain ⟨ho, hldapc⟩ : o'.sub j = o.sub i ∧ ldapc'.sub j = ldapc.sub i := hsame 0 i rfl
        rw [hsearch] at hrest
        obtain ⟨chunks', hchunks', hflatten⟩ := @ih (i + 1) (j + 1) chunks (fun k i' hk => by
          rw [Nat.add_right_comm, Nat.add_assoc]; exact hsame (k + 1) i' hk) hrest herr'
        refine ⟨events.filter (fun e => !e.isGrant) :: chunks', Split.chunksFrom_cons ?_ ?_, ?_⟩
        · rw [ho, hldapc]
          exact events_withoutGrants hevents
        · rw [show s.withoutGrants.hasLDAPSearch = true from hsearch]
          exact hchunks'
        · rw [List.flatten_cons, hflatten]
      | false =>
        rw [Rules.keptSites, hsearch] at hsame
        rw [hsearch] at hrest
        obtain ⟨chunks', hchunks', hflatten⟩ := ih hsame hrest herr'
        refine ⟨events.filter (fun e => !e.isGrant) :: chunks', Split.chunksFrom_cons ?_ ?_, ?_⟩
        · rw [Split.events_of_no_search (s := s.withoutGrants) hsearch _ (o.sub i) _ (ldapc.sub i)]
          exact events_withoutGrants hevents
        · rw [show s.withoutGrants.hasLDAPSearch = false from hsearch]
          exact hchunks'
        · rw [List.flatten_cons, hflatten]

theorem hasLDAPSearches_of_dropGrants {m : Rules} (h : m.dropGrants.hasLDAPSearches = true) :
    m.hasLDAPSearches = true := by
  obtain ⟨s', hs', hsearch⟩ := List.any_eq_true.mp h
  obtain ⟨s, hs, rfl⟩ := List.mem_map.mp (List.mem_of_mem_filter hs')
  exact List.any_eq_true.mpr ⟨s, hs, hsearch⟩

end Rules

/-! ## The state after it -/

namespace State

/-- The state, but for grants and errors. -/
def rolesOnly (st : State) : State := { st with grants := ∅, errList := [] }

theorem rolesOnly_addRole (ctx : Setting) (st : State) (role : RoleRef) :
    st.rolesOnly.addRole ctx role = (st.addRole ctx role).rolesOnly := by
  unfold addRole
  show (if role.head.name = "" then st.rolesOnly else _) = _
  split
  · rfl
  · split
    · rfl
    · simp only [rolesOnly]
      cases st.roles[role.head.name]? <;> rfl

theorem rolesOnly_receive (ctx : Setting) (st : State) (s : Sent) :
    st.rolesOnly.receive ctx s = (st.receive ctx s).rolesOnly := by
  cases s with
  | parents l => rfl
  | role copied head config =>
    cases copied with
    | false => exact rolesOnly_addRole ctx st _
    | true => exact rolesOnly_addRole ctx { st with mem := { st.mem with arrays := _ } } _

/-- Without errors, the grants leave no trace in the rest of the state. -/
theorem after_withoutGrants (ctx : Setting) (configs : ConfigRef → Config)
    (h : ∀ err, .searchError err ∉ events) :
    after ctx configs (events.filter fun e => !e.isGrant) = (after ctx configs events).rolesOnly := by
  induction events using List.reverseRecOn with
  | nil => rfl
  | append_singleton events e ih =>
    have ih := ih fun err herr => h err (List.mem_append_left _ herr)
    rw [List.filter_append, after_snoc]
    cases e with
    | searchError err => exact absurd (List.mem_append_right events List.mem_cons_self) (h err)
    | sent s =>
      rw [List.filter_cons_of_pos rfl, List.filter_nil, after_snoc, ih]
      exact rolesOnly_receive ctx _ s
    | grant g =>
      obtain ⟨hmem, hparents, hroles⟩ := addGrant_frame ctx (after ctx configs events) g
      rw [List.filter_cons_of_neg Bool.false_ne_true, List.filter_nil, List.append_nil, ih, step,
        rolesOnly, rolesOnly, hmem, hparents, hroles]

end State

/-- **Skipping privileges keeps the roles**: if `Run` succeeds, it succeeds without the
grants, with the same roles and no grant. -/
theorem dropGrants_keeps_roles {env : Env} {reg reg' : Registry} {ctx : Setting} {o o' : Order}
    {connect : Option String} {ldapc ldapc' : Directory} {configs : ConfigRef → Config} {m : Rules}
    {out : Outcome} (hrun : m.run env reg ctx o connect ldapc configs = .ok out)
    (hnil : out.err = none) (hsame : SameSearches m (o.sub 0) (o'.sub 0) ldapc ldapc') :
    m.dropGrants.run env reg' ctx o' connect ldapc' configs =
      .ok { roles := out.roles, grants := ∅, err := none } := by
  have hconn : (if m.hasLDAPSearches then connect else none) = none := by
    cases hconn : if m.hasLDAPSearches then connect else none with
    | none => rfl
    | some err =>
      rw [Rules.run, hconn] at hrun
      cases hrun
      cases hnil
  have hconn' : (if m.dropGrants.hasLDAPSearches then connect else none) = none := by
    cases hsearches : m.dropGrants.hasLDAPSearches with
    | false => rfl
    | true => rwa [hasLDAPSearches_of_dropGrants hsearches] at hconn
  obtain ⟨events, checkErr, hevents, hgood, hcheck, rfl⟩ := run_eq_ok hrun hconn
  obtain ⟨herrs, hcheckErr⟩ := List.append_eq_nil_iff.mp (joinErrors_eq_none.mp hnil)
  rw [Option.toList_eq_nil_iff.mp hcheckErr] at hcheck
  have herr : ∀ err, .searchError err ∉ events := fun err herr =>
    State.errList_of_searchError herr herrs
  obtain ⟨chunks, hchunks, hflatten⟩ := bind_eq_ok.mp hevents
  cases hflatten
  obtain ⟨chunks', hchunks', hflatten⟩ := chunks_dropGrants
    (fun k i' hk => by rw [Nat.zero_add]; exact hsame k i' hk) hchunks
    fun chunk hchunk err hin => herr err (List.mem_flatten.mpr ⟨chunk, hchunk, hin⟩)
  have hevents' : m.dropGrants.events env reg' (o'.sub 0) ldapc' = .ok chunks'.flatten :=
    (Split.events_of_chunks hchunks').1
  have hstate := State.after_withoutGrants ctx configs herr
  rw [← hflatten] at hstate
  have hmap : (State.after ctx configs chunks'.flatten).roleMap =
      (State.after ctx configs chunks.flatten).roleMap := by
    rw [hstate]
    rfl
  have hkey := keyIsName_after ctx configs chunks.flatten
  have hcheck' : Map.check (o'.sub 1) (State.after ctx configs chunks.flatten).roleMap = some none :=
    (check_eq_none_iff hkey _).mpr ((check_eq_none_iff hkey _).mp hcheck)
  have hgood' : chunks'.flatten.any (Event.panics ctx) = false := by
    rw [hflatten, List.any_filter]
    refine List.any_eq_false.mpr fun e he hboth => ?_
    exact List.any_eq_false.mp hgood e he (Bool.and_eq_true_iff.mp hboth).2
  rw [Rules.run, hconn', hevents', ok_bind, if_neg (Bool.eq_false_iff.mp hgood')]
  simp only [hmap, hcheck']
  rw [hstate]
  rfl

section Sample
open Ldap.Sample Sample

/-- Members of groups as roles, and a step that only grants to them. -/
def grantingRules : Rules :=
  [{ ldapSearch := { attributes := ["member"] }, roleRules := [roleRule memberField []] },
   { ldapSearch := { attributes := ["member"] }
     grantRules := [⟨literal "", literal "reading", literal "", literal "", memberField⟩] },
   { roleRules := [roleRule (literal "reader") []] }]

/-- One profile, of one privilege. -/
def readingOnly : Registry where
  acls := ∅
  managedACLs := ∅
  profiles := (∅ : Dict (List Privilege)).insert "reading" [⟨"CONNECT", "DATABASE", ""⟩]

theorem granting_rules_keep_roles : ∃ out : Outcome,
    grantingRules.run Ldap.Sample.env readingOnly noBlacklist Order.sorted none
      (fun _ _ => .ok [group]) (fun _ => ∅) = .ok out ∧
    out.grants.keys = ["DATABASE"] ∧ out.roles.keys = ["alice", "bob", "reader"] ∧
    grantingRules.dropGrants.run Ldap.Sample.env noPrivileges noBlacklist Order.sorted none
      (fun _ _ => .ok [group]) (fun _ => ∅) = .ok { roles := out.roles } := by
  have hsummary : ((grantingRules.run Ldap.Sample.env readingOnly noBlacklist Order.sorted none
      (fun _ _ => .ok [group]) (fun _ => ∅)).toOption.map fun out =>
        (out.err, out.grants.keys, out.roles.keys)) =
      some (none, ["DATABASE"], ["alice", "bob", "reader"]) := by decide +kernel
  cases hrun : grantingRules.run Ldap.Sample.env readingOnly noBlacklist Order.sorted none
      (fun _ _ => .ok [group]) (fun _ => ∅) with
  | error panic =>
    rw [hrun] at hsummary
    cases hsummary
  | ok out =>
    rw [hrun] at hsummary
    have hout := Option.some.inj hsummary
    refine ⟨out, rfl, congrArg (fun x => x.2.1) hout, congrArg (fun x => x.2.2) hout, ?_⟩
    exact dropGrants_keeps_roles hrun (congrArg Prod.fst hout) fun _ _ _ => ⟨rfl, rfl⟩

end Sample

end Ldap2pg.Wanted
