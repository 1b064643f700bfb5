import Ldap2pg.Wanted.Run

/-! # Runs of `Rules.Run`, and what they define

The lemmas of the loop bodies, one for each of their branches, and the record of
what was defined so far. `Known` is what any run keeps true of the role map
whatever its references point to. -/
namespace Ldap2pg.Wanted
open Lib Roles

namespace State
variable {ctx : Setting} {st : State} {role : RoleRef}

/-- The name passes the two tests at the top of the loop. -/
def Kept (ctx : Setting) (name : String) : Prop :=
  name ≠ "" ∧ Lists.firstMatch ctx.glob ctx.blacklist name = ""

theorem addRole_skip (h : ¬ Kept ctx role.head.name) : st.addRole ctx role = st := by
  unfold addRole
  split
  · rfl
  · rw [if_pos fun he => h ⟨‹_›, he⟩]

theorem addRole_new (h : Kept ctx role.head.name) (hnew : st.roles[role.head.name]? = none) :
    st.addRole ctx role = { st with roles := st.roles.insert role.head.name role } := by
  unfold addRole
  rw [if_neg h.1, if_neg (not_not.mpr h.2), hnew]

theorem addRole_merge {current : RoleRef} (h : Kept ctx role.head.name)
    (hcur : st.roles[role.head.name]? = some current) :
    st.addRole ctx role =
      { st with
        mem := (current.merge ctx.growth st.mem role).1
        roles := st.roles.insert current.head.name (current.merge ctx.growth st.mem role).2 } := by
  unfold addRole
  rw [if_neg h.1, if_neg (not_not.mpr h.2), hcur]

/-- The copy is the slice itself, on its own array. -/
theorem receive_role (hv : st.mem.arrays.Valid st.parents) (copied : Bool) (head : Head)
    (config : Option ConfigRef) :
    st.receive ctx (.role copied head config) =
      st.addRole ctx { head, parents := st.parents, config } := by
  cases copied with
  | false => rfl
  | true => simp only [receive, Heap.append_upTo_zero hv]

/-- What receiving a role does, up to the slices of parents. -/
inductive Received (ctx : Setting) (st : State) (head : Head) (config : Option ConfigRef)
    (st' : State) : Prop where
  | skipped (hk : ¬ Kept ctx head.name) (hroles : st'.roles = st.roles)
      (hconfigs : st'.mem.configs = st.mem.configs)
  | added (hk : Kept ctx head.name) (hnew : st.roles[head.name]? = none) (parents : Slice)
      (hroles : st'.roles = st.roles.insert head.name { head, parents, config })
      (hconfigs : st'.mem.configs = st.mem.configs)
  | merged (hk : Kept ctx head.name) (current : RoleRef)
      (hcur : st.roles[head.name]? = some current) (parents : Slice)
      (hroles : st'.roles = st.roles.insert current.head.name
        ⟨current.head, parents, (mergeConfig st.mem.configs current.config config).2⟩)
      (hconfigs : st'.mem.configs = (mergeConfig st.mem.configs current.config config).1)

theorem received_addRole (ctx : Setting) (st : State) (role : RoleRef) :
    Received ctx st role.head role.config (st.addRole ctx role) := by
  by_cases hk : Kept ctx role.head.name
  · cases hcur : st.roles[role.head.name]? with
    | none => rw [addRole_new hk hcur]; exact .added hk hcur role.parents rfl rfl
    | some current => rw [addRole_merge hk hcur]; exact .merged hk current hcur _ rfl rfl
  · rw [addRole_skip hk]
    exact .skipped hk rfl rfl

theorem received_receive (ctx : Setting) (st : State) (copied : Bool) (head : Head)
    (config : Option ConfigRef) :
    Received ctx st head config (st.receive ctx (.role copied head config)) := by
  cases copied with
  | false => exact received_addRole ctx st ⟨head, _, config⟩
  | true =>
    -- the copy of the parents moves arrays, which the three cases leave open
    cases received_addRole ctx { st with mem := { st.mem with arrays := _ } }
        ⟨head, _, config⟩ with
    | skipped hk hroles hconfigs => exact .skipped hk hroles hconfigs
    | added hk hnew parents hroles hconfigs => exact .added hk hnew parents hroles hconfigs
    | merged hk current hcur parents hroles hconfigs =>
      exact .merged hk current hcur parents hroles hconfigs

/-- Grants leave the roles alone. -/
theorem addGrant_frame (ctx : Setting) (st : State) (g : Privileges.Grant) :
    (st.addGrant ctx g).mem = st.mem ∧ (st.addGrant ctx g).parents = st.parents ∧
      (st.addGrant ctx g).roles = st.roles := by
  unfold addGrant
  split
  · exact ⟨rfl, rfl, rfl⟩
  · split
    · exact ⟨rfl, rfl, rfl⟩
    · exact ⟨rfl, rfl, rfl⟩

/-- Roles leave the grants and the errors alone. -/
theorem addRole_frame (ctx : Setting) (st : State) (role : RoleRef) :
    (st.addRole ctx role).grants = st.grants ∧ (st.addRole ctx role).errList = st.errList := by
  unfold addRole
  split
  · exact ⟨rfl, rfl⟩
  · split
    · exact ⟨rfl, rfl⟩
    · split <;> exact ⟨rfl, rfl⟩

theorem receive_frame (ctx : Setting) (st : State) (s : Sent) :
    (st.receive ctx s).grants = st.grants ∧ (st.receive ctx s).errList = st.errList := by
  cases s with
  | parents l => exact ⟨rfl, rfl⟩
  | role copied head config =>
    cases copied with
    | false => exact addRole_frame ctx st _
    | true => exact addRole_frame ctx { st with mem := { st.mem with arrays := _ } } _

theorem receive_roles_mono (ctx : Setting) (st : State) (s : Sent) {n : String}
    (h : n ∈ st.roles) : n ∈ (st.receive ctx s).roles := by
  cases s with
  | parents l => exact h
  | role copied head config =>
    cases received_receive ctx st copied head config with
    | skipped hk hroles hconfigs => rw [hroles]; exact h
    | added hk hnew parents hroles hconfigs =>
      rw [hroles]; exact Std.ExtTreeMap.mem_insert.mpr (.inr h)
    | merged hk current hcur parents hroles hconfigs =>
      rw [hroles]; exact Std.ExtTreeMap.mem_insert.mpr (.inr h)

theorem roleMap_get (st : State) (n : String) :
    st.roleMap[n]? = st.roles[n]?.map fun r => r.deref st.mem := by
  simp [roleMap, Std.ExtTreeMap.getElem?_map]

end State

/-- A role as a rule defines it: its parents are those the rule computed. -/
structure Definition where
  head : Head
  parents : List Membership
  config : Option ConfigRef

/-- The parents of the rule at hand and the definitions sent so far. -/
def record (h : List Membership × List Definition) : Event → List Membership × List Definition
  | .sent (.parents l) => (l, h.2)
  | .sent (.role _ head config) => (h.1, h.2 ++ [⟨head, h.1, config⟩])
  | _ => h

def history (events : List Event) : List Membership × List Definition :=
  events.foldl record ([], [])

/-- The roles defined by some events, in order. -/
def definitions (events : List Event) : List Definition := (history events).2

theorem history_snoc (events : List Event) (e : Event) :
    history (events ++ [e]) = record (history events) e := by
  simp [history]

theorem history_role (events : List Event) (copied : Bool) (head : Head)
    (config : Option ConfigRef) :
    history (events ++ [.sent (.role copied head config)]) =
      ((history events).1, definitions events ++ [⟨head, (history events).1, config⟩]) := by
  rw [history_snoc]
  rfl

theorem mem_definitions_role {events : List Event} {copied : Bool} {head : Head}
    {config : Option ConfigRef} {d : Definition} :
    d ∈ definitions (events ++ [.sent (.role copied head config)]) ↔
      d ∈ definitions events ∨ d = ⟨head, (history events).1, config⟩ := by
  rw [definitions, history_role, List.mem_append, List.mem_singleton]

/-- An event that is not a role defines nothing. -/
theorem definitions_frame {events : List Event} {e : Event}
    (h : ∀ copied head config, e ≠ .sent (.role copied head config)) :
    definitions (events ++ [e]) = definitions events := by
  rw [definitions, history_snoc]
  cases e with
  | searchError err => rfl
  | grant g => rfl
  | sent s =>
    cases s with
    | parents l => rfl
    | role copied head config => exact absurd rfl (h copied head config)

theorem after_snoc (ctx : Setting) (configs : ConfigRef → Config) (events : List Event) (e : Event) :
    State.after ctx configs (events ++ [e]) = (State.after ctx configs events).step ctx e := by
  simp [State.after]

/-- What any run keeps true of the role map: it has the names that were defined
and are kept, each with the plain values of its first definition. -/
structure Known (ctx : Setting) (events : List Event) (st : State) : Prop where
  kept : ∀ (n : String) (r : RoleRef), st.roles[n]? = some r → State.Kept ctx n
  first : ∀ (n : String) (r : RoleRef), st.roles[n]? = some r →
    ∃ d, (definitions events).find? (fun d => d.head.name == n) = some d ∧ r.head = d.head
  defined : ∀ d ∈ definitions events, State.Kept ctx d.head.name → d.head.name ∈ st.roles

namespace Known
variable {ctx : Setting} {events : List Event} {st : State}

theorem key (h : Known ctx events st) {n : String} {r : RoleRef} (hr : st.roles[n]? = some r) :
    r.head.name = n := by
  obtain ⟨d, hd, hhead⟩ := h.first n r hr
  rw [hhead]
  simpa using List.find?_some hd

theorem undefined (h : Known ctx events st) {n : String} (hk : State.Kept ctx n)
    (hnew : st.roles[n]? = none) : ∀ d ∈ definitions events, d.head.name ≠ n := by
  intro d hd he
  have hin := h.defined d hd (he ▸ hk)
  rw [he, Dict.mem_iff] at hin
  obtain ⟨r, hr⟩ := hin
  rw [hnew] at hr
  cases hr

theorem frame (h : Known ctx events st) {st' : State} {e : Event}
    (hdefs : definitions (events ++ [e]) = definitions events) (hroles : st'.roles = st.roles) :
    Known ctx (events ++ [e]) st' := by
  refine ⟨?_, ?_, ?_⟩
  · rw [hroles]; exact h.kept
  · rw [hroles, hdefs]; exact h.first
  · rw [hroles, hdefs]; exact h.defined

/-- A role whose name is in the map keeps its first definition. -/
theorem first_append (h : Known ctx events st) {n : String} {r : RoleRef}
    (hr : st.roles[n]? = some r) (copied : Bool) (head : Head) (config : Option ConfigRef) :
    ∃ d, (definitions (events ++ [.sent (.role copied head config)])).find?
      (fun d => d.head.name == n) = some d ∧ r.head = d.head := by
  obtain ⟨d, hd, hhead⟩ := h.first n r hr
  exact ⟨d, by rw [definitions, history_role, List.find?_append, hd]; rfl, hhead⟩

/-- The map gets a role with the plain values of the first definition. -/
theorem insert (h : Known ctx events st) {st' : State} (copied : Bool) {head : Head}
    {config : Option ConfigRef} (hk : State.Kept ctx head.name) {role : RoleRef}
    (hroles : st'.roles = st.roles.insert head.name role)
    (hfirst : ∃ d, (definitions (events ++ [.sent (.role copied head config)])).find?
      (fun d => d.head.name == head.name) = some d ∧ role.head = d.head) :
    Known ctx (events ++ [.sent (.role copied head config)]) st' := by
  refine ⟨?_, ?_, ?_⟩
  · intro n r hr
    rw [hroles] at hr
    rcases Dict.get_insert_cases hr with ⟨rfl, rfl⟩ | ⟨_, hr⟩
    · exact hk
    · exact h.kept n r hr
  · intro n r hr
    rw [hroles] at hr
    rcases Dict.get_insert_cases hr with ⟨rfl, rfl⟩ | ⟨_, hr⟩
    · exact hfirst
    · exact h.first_append hr copied head config
  · intro d hd hkept
    rw [hroles, Std.ExtTreeMap.mem_insert]
    rcases mem_definitions_role.mp hd with hd | rfl
    · exact .inr (h.defined d hd hkept)
    · exact .inl (by simp)

theorem role (h : Known ctx events st) (copied : Bool) (head : Head) (config : Option ConfigRef) :
    Known ctx (events ++ [.sent (.role copied head config)])
      (st.receive ctx (.role copied head config)) := by
  cases State.received_receive ctx st copied head config with
  | skipped hk hroles _ =>
    refine ⟨by rw [hroles]; exact h.kept, ?_, ?_⟩
    · rw [hroles]
      exact fun n r hr => h.first_append hr copied head config
    · rw [hroles]
      intro d hd hkept
      rcases mem_definitions_role.mp hd with hd | rfl
      · exact h.defined d hd hkept
      · exact absurd hkept hk
  | added hk hnew parents hroles _ =>
    refine h.insert copied hk hroles ⟨⟨head, (history events).1, config⟩, ?_, rfl⟩
    have hnone : (definitions events).find? (fun d => d.head.name == head.name) = none := by
      simpa using h.undefined hk hnew
    rw [definitions, history_role, List.find?_append, hnone]
    simp
  | merged hk current hcur parents hroles _ =>
    rw [h.key hcur] at hroles
    exact h.insert copied hk hroles (h.first_append hcur copied head config)

theorem step (h : Known ctx events st) (e : Event) :
    Known ctx (events ++ [e]) (st.step ctx e) := by
  cases e with
  | searchError err => exact h.frame (definitions_frame (by simp)) rfl
  | grant g => exact h.frame (definitions_frame (by simp)) (State.addGrant_frame ctx st g).2.2
  | sent s =>
    cases s with
    | parents l => exact h.frame (definitions_frame (by simp)) rfl
    | role copied head config => exact h.role copied head config

end Known

theorem known_after (ctx : Setting) (configs : ConfigRef → Config) (events : List Event) :
    Known ctx events (State.after ctx configs events) := by
  induction events using List.reverseRecOn with
  | nil =>
    refine ⟨fun n r hr => ?_, fun n r hr => ?_, fun d hd => nomatch hd⟩
    · simp [State.after] at hr
    · simp [State.after] at hr
  | append_singleton events e ih =>
    rw [after_snoc]
    exact ih.step e

/-- Once connected, what `Run` returns is read off the state after all events. -/
theorem run_eq_ok {env : Ldap.Env} {reg : Privileges.Registry} {ctx : Setting} {o : Order}
    {connect : Option String} {ldapc : Ldap.Directory} {configs : ConfigRef → Config} {m : Rules}
    {out : Outcome} (h : m.run env reg ctx o connect ldapc configs = .ok out)
    (hconn : (if m.hasLDAPSearches then connect else none) = none) :
    ∃ events checkErr, m.events env reg (o.sub 0) ldapc = .ok events ∧
      events.any (Event.panics ctx) = false ∧
      Map.check (o.sub 1) (State.after ctx configs events).roleMap = some checkErr ∧
      out = { roles := (State.after ctx configs events).roleMap
              grants := (State.after ctx configs events).grants
              err := joinErrors ((State.after ctx configs events).errList ++ checkErr.toList) } := by
  unfold Rules.run at h
  rw [hconn] at h
  obtain ⟨events, he, h⟩ := bind_eq_ok.mp h
  simp only at h
  split at h
  · cases h
  · rename_i hgood
    split at h
    · cases h
    · cases h
      exact ⟨events, _, he, Bool.eq_false_iff.mpr hgood, ‹_›, rfl⟩

end Ldap2pg.Wanted
