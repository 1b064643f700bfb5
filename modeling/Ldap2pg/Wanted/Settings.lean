import Ldap2pg.Wanted.History

/-! # The settings of the wanted roles

All roles that a rule generates carry the settings map of the rule, and
`Role.Merge` copies into the map it finds. A merge therefore shows in every role
on that map, and in the roles the rule generates later. -/
namespace Ldap2pg.Wanted.Settings
open Lib Roles

variable {ctx : Setting} {configs : ConfigRef → Config}

/-- The settings declared so far, with one more definition. -/
def declare (configs : ConfigRef → Config) (sofar : Option Config) (d : Definition) :
    Option Config :=
  match d.config with
  | none => sofar
  | some b => some ((sofar.getD ∅).copy (configs b))

/-- What definitions declare together: nil when all are, otherwise their merge in
order, where `configs` has the maps as the rules declare them. -/
def declared (configs : ConfigRef → Config) (defs : List Definition) : Option Config :=
  defs.foldl (declare configs) none

/-- The definitions of one name. -/
def definitionsOf (events : List Event) (n : String) : List Definition :=
  (definitions events).filter fun d => d.head.name == n

/-- The plain values of a role are those of a definition. -/
def SameHead (r : Role) (head : Head) : Prop :=
  r.options = head.options ∧ r.comment = head.comment ∧ r.beforeCreate = head.beforeCreate ∧
    r.afterCreate = head.afterCreate

/-- Every role of the map has the plain values of its first definition and the
settings that its definitions declare. -/
def Exact (configs : ConfigRef → Config) (events : List Event) (st : State) : Prop :=
  ∀ (n : String) (r : Role), st.roleMap[n]? = some r →
    (∃ first rest, definitionsOf events n = first :: rest ∧ SameHead r first.head) ∧
      r.config = declared configs (definitionsOf events n)

/-- The event spoils no settings. A map that a role takes over is still as its
rule declares it. A map that is merged into another one has the effect of what
its rule declares, and none at all if another role is on the map written to. -/
def Harmless (ctx : Setting) (configs : ConfigRef → Config) (st : State) : Event → Prop
  | .sent (.role _ head config) => State.Kept ctx head.name → ∀ b, config = some b →
    match st.roles[head.name]?.bind RoleRef.config with
    | none => st.mem.configs b = configs b
    | some a =>
      (st.mem.configs a).copy (st.mem.configs b) = (st.mem.configs a).copy (configs b) ∧
        ∀ (n : String) (other : RoleRef), st.roles[n]? = some other → n ≠ head.name →
          other.config = some a → (st.mem.configs a).copy (st.mem.configs b) = st.mem.configs a
  | _ => True

/-- The part of `Exact` about settings, on references. -/
def ConfigExact (configs : ConfigRef → Config) (events : List Event) (st : State) : Prop :=
  ∀ (n : String) (r : RoleRef), st.roles[n]? = some r →
    r.config.map st.mem.configs = declared configs (definitionsOf events n)

section Step
variable {events : List Event} {st : State}

theorem first_definition (hkn : Known ctx events st) {n : String} {r : RoleRef}
    (hr : st.roles[n]? = some r) :
    ∃ first rest, definitionsOf events n = first :: rest ∧ r.head = first.head := by
  obtain ⟨d, hd, hhead⟩ := hkn.first n r hr
  have hfirst : (definitionsOf events n).head? = some d := by
    rw [definitionsOf, List.head?_filter, hd]
  obtain ⟨rest, hrest⟩ := List.head?_eq_some_iff.mp hfirst
  exact ⟨d, rest, hrest, hhead⟩

/-- The plain values never go wrong. -/
theorem exact_iff_config (hkn : Known ctx events st) :
    Exact configs events st ↔ ConfigExact configs events st := by
  constructor
  · intro h n r hr
    exact (h n (r.deref st.mem) (by rw [State.roleMap_get, hr]; rfl)).2
  · intro h n r hr
    rw [State.roleMap_get] at hr
    obtain ⟨ref, href, rfl⟩ := Option.map_eq_some_iff.mp hr
    obtain ⟨first, rest, hdefs, hhead⟩ := first_definition hkn href
    refine ⟨⟨first, rest, hdefs, ?_⟩, h n ref href⟩
    rw [← hhead]
    exact ⟨rfl, rfl, rfl, rfl⟩

theorem definitionsOf_other {copied : Bool} {head : Head} {config : Option ConfigRef} {n : String}
    (hne : n ≠ head.name) :
    definitionsOf (events ++ [.sent (.role copied head config)]) n = definitionsOf events n := by
  rw [definitionsOf, definitions, history_role, List.filter_append]
  simp [definitionsOf, Ne.symm hne]

theorem declared_self (copied : Bool) (head : Head) (config : Option ConfigRef) :
    declared configs (definitionsOf (events ++ [.sent (.role copied head config)]) head.name) =
      declare configs (declared configs (definitionsOf events head.name))
        ⟨head, (history events).1, config⟩ := by
  rw [definitionsOf, definitions, history_role, List.filter_append, declared, List.foldl_append]
  simp [declared, definitionsOf]

/-- A step that leaves roles and settings alone. -/
theorem configExact_frame {st' : State} {e : Event}
    (hdefs : definitions (events ++ [e]) = definitions events) (hroles : st'.roles = st.roles)
    (hconfigs : st'.mem.configs = st.mem.configs) (hx : ConfigExact configs events st) :
    ConfigExact configs (events ++ [e]) st' := by
  intro n r hr
  rw [hroles] at hr
  rw [hconfigs, definitionsOf, hdefs]
  exact hx n r hr

/-- After an insertion there is the inserted role to look at, and whether the maps
of the others are as they were. -/
theorem configExact_insert (hx : ConfigExact configs events st) {st' : State} (copied : Bool)
    {head : Head} {config : Option ConfigRef} {role : RoleRef}
    (hroles : st'.roles = st.roles.insert head.name role) :
    ConfigExact configs (events ++ [.sent (.role copied head config)]) st' ↔
      role.config.map st'.mem.configs =
          declare configs (declared configs (definitionsOf events head.name))
            ⟨head, (history events).1, config⟩ ∧
        ∀ (n : String) (other : RoleRef), st.roles[n]? = some other → n ≠ head.name →
          other.config.map st'.mem.configs = other.config.map st.mem.configs := by
  constructor
  · intro h
    refine ⟨?_, fun n other hother hne => ?_⟩
    · rw [← declared_self copied]
      exact h head.name role (by rw [hroles, Dict.get_insert, if_pos rfl])
    · rw [hx n other hother, ← definitionsOf_other hne]
      exact h n other (by rw [hroles, Dict.get_insert, if_neg (Ne.symm hne), hother])
  · intro ⟨hself, hothers⟩ n r hr
    rw [hroles] at hr
    rcases Dict.get_insert_cases hr with ⟨rfl, rfl⟩ | ⟨hne, hr⟩
    · rw [declared_self]
      exact hself
    · rw [hothers n r hr hne, definitionsOf_other hne]
      exact hx n r hr

theorem definitionsOf_new (hkn : Known ctx events st) {n : String} (hk : State.Kept ctx n)
    (hnew : st.roles[n]? = none) : definitionsOf events n = [] := by
  rw [definitionsOf, List.filter_eq_nil_iff]
  intro d hd
  simpa using hkn.undefined hk hnew d hd

/-- What a merge leaves in the map of the role and in those of the others. -/
theorem configExact_merge_iff (current : RoleRef) (head : Head) (config : Option ConfigRef) :
    ((mergeConfig st.mem.configs current.config config).2.map
          (mergeConfig st.mem.configs current.config config).1 =
        declare configs (current.config.map st.mem.configs) ⟨head, (history events).1, config⟩ ∧
      ∀ (n : String) (other : RoleRef), st.roles[n]? = some other → n ≠ head.name →
        other.config.map (mergeConfig st.mem.configs current.config config).1 =
          other.config.map st.mem.configs) ↔
      ∀ b, config = some b → match current.config with
        | none => st.mem.configs b = configs b
        | some a =>
          (st.mem.configs a).copy (st.mem.configs b) = (st.mem.configs a).copy (configs b) ∧
            ∀ (n : String) (other : RoleRef), st.roles[n]? = some other → n ≠ head.name →
              other.config = some a →
                (st.mem.configs a).copy (st.mem.configs b) = st.mem.configs a := by
  cases config with
  | none => cases current.config <;> simp [mergeConfig, declare]
  | some b =>
    cases current.config with
    | none => simp [mergeConfig, declare, Dict.empty_copy]
    | some a =>
      simp only [mergeConfig, declare, Option.map_some, Function.update_self, Option.getD_some,
        Option.some.injEq, forall_eq']
      refine and_congr_right fun _ => forall_congr' fun n => forall_congr' fun other =>
        forall_congr' fun _ => forall_congr' fun _ => ?_
      cases hc : other.config with
      | none => simp
      | some c =>
        by_cases hca : c = a
        · simp [hca]
        · simp [hca]

theorem step_iff (hkn : Known ctx events st) (hx : ConfigExact configs events st) (e : Event) :
    ConfigExact configs (events ++ [e]) (st.step ctx e) ↔ Harmless ctx configs st e := by
  cases e with
  | searchError err =>
    exact iff_of_true (configExact_frame (definitions_frame (by simp)) rfl rfl hx) trivial
  | grant g =>
    obtain ⟨hmem, _, hroles⟩ := State.addGrant_frame ctx st g
    exact iff_of_true
      (configExact_frame (definitions_frame (by simp)) hroles (congrArg Mem.configs hmem) hx) trivial
  | sent s =>
    cases s with
    | parents l =>
      exact iff_of_true (configExact_frame (definitions_frame (by simp)) rfl rfl hx) trivial
    | role copied head config =>
      cases State.received_receive ctx st copied head config with
      | skipped hk hroles hconfigs =>
        refine iff_of_true (fun n r hr => ?_) fun h => absurd h hk
        replace hr : st.roles[n]? = some r := hroles ▸ hr
        have hne : n ≠ head.name := fun he => hk (he ▸ hkn.kept n r hr)
        rw [definitionsOf_other hne, ← hx n r hr]
        exact congrArg r.config.map hconfigs
      | added hk hnew parents hroles hconfigs =>
        rw [State.step, configExact_insert hx copied hroles, hconfigs, definitionsOf_new hkn hk hnew]
        simp only [Harmless, hk, forall_const, hnew, Option.bind_none, implies_true, and_true]
        cases config with
        | none => simp [declared, declare]
        | some b => simp [declared, declare, Dict.empty_copy]
      | merged hk current hcur parents hroles hconfigs =>
        rw [hkn.key hcur] at hroles
        rw [State.step, configExact_insert hx copied hroles, hconfigs, ← hx head.name current hcur]
        simp only [Harmless, hk, forall_const, hcur, Option.bind_some]
        exact configExact_merge_iff current head config

end Step

theorem exact_iff_harmless (ctx : Setting) (configs : ConfigRef → Config) (events : List Event) :
    (∀ before later, events = before ++ later →
        Exact configs before (State.after ctx configs before)) ↔
      ∀ before e later, events = before ++ e :: later →
        Harmless ctx configs (State.after ctx configs before) e := by
  refine forall_states_iff (T := fun _ => True) ⟨fun n r hr => ?_, trivial⟩
    (fun before e hx _ => ⟨?_, fun _ => trivial⟩) events
  · simp [State.roleMap_get, State.after] at hr
  · have hkn := known_after ctx configs before
    rw [exact_iff_config (known_after ctx configs (before ++ [e])), after_snoc]
    exact step_iff hkn ((exact_iff_config hkn).mp hx) e

/-- **When settings leak between roles.** In every state that `Run` goes through,
each role has the plain values of its first definition and exactly the settings
its definitions declare, if and only if no step of the run spoils settings. The
map that is returned is that of the last state. -/
theorem settings_exact_iff {env : Ldap.Env} {reg : Privileges.Registry} {ctx : Setting} {o : Order}
    {connect : Option String} {ldapc : Ldap.Directory} {configs : ConfigRef → Config} {m : Rules}
    {out : Outcome} (h : m.run env reg ctx o connect ldapc configs = .ok out)
    (hconn : (if m.hasLDAPSearches then connect else none) = none) :
    ∃ events, m.events env reg (o.sub 0) ldapc = .ok events ∧
      out.roles = (State.after ctx configs events).roleMap ∧
      ((∀ before later, events = before ++ later →
          Exact configs before (State.after ctx configs before)) ↔
        ∀ before e later, events = before ++ e :: later →
          Harmless ctx configs (State.after ctx configs before) e) := by
  obtain ⟨events, checkErr, hevents, _, _, rfl⟩ := run_eq_ok h hconn
  exact ⟨events, hevents, rfl, exact_iff_harmless ctx configs events⟩

/-! The members of a group share settings, then one of them has one more. -/
open Ldap.Sample Sample

def sharedConfigs : ConfigRef → Config
  | 0 => (∅ : Config).insert "work_mem" "4MB"
  | 1 => (∅ : Config).insert "search_path" "alice"
  | _ => ∅

def sharedRules : Rules :=
  [{ ldapSearch := { attributes := ["member"] }
     roleRules := [{ roleRule memberField [] with config := some 0 }] },
   { roleRules := [{ roleRule (literal "alice") [] with config := some 1 }] }]

/-- `bob` ends up with the `search_path` of `alice`, which no rule that defines
`bob` declares. -/
theorem alice_setting_leaks_to_bob :
    ∃ events, sharedRules.events env noPrivileges (Order.sorted.sub 0)
        (fun _ _ => .ok [group]) = .ok events ∧
      ∃ out, sharedRules.run env noPrivileges noBlacklist Order.sorted none
          (fun _ _ => .ok [group]) sharedConfigs = .ok out ∧
        (∃ r config, out.roles["bob"]? = some r ∧ r.config = some config ∧
          config["search_path"]? = some "alice") ∧
        ∀ d ∈ definitions events, d.head.name = "bob" →
          ∀ b, d.config = some b → (sharedConfigs b)["search_path"]? = none := by
  refine ⟨_, rfl, _, rfl, ⟨_, _, rfl, rfl, by decide⟩, ?_⟩
  decide

/-- So one of the steps of that run is not harmless. -/
theorem shared_step_not_harmless :
    ∃ events, sharedRules.events env noPrivileges (Order.sorted.sub 0)
        (fun _ _ => .ok [group]) = .ok events ∧
      ¬ ∀ before e later, events = before ++ e :: later →
        Harmless noBlacklist sharedConfigs (State.after noBlacklist sharedConfigs before) e := by
  obtain ⟨out, hrun⟩ : ∃ out, sharedRules.run env noPrivileges noBlacklist Order.sorted none
      (fun _ _ => .ok [group]) sharedConfigs = .ok out := ⟨_, rfl⟩
  obtain ⟨events, hevents, _, hiff⟩ := settings_exact_iff hrun rfl
  refine ⟨events, hevents, fun hh => ?_⟩
  have hexact := hiff.mpr hh events [] (List.append_nil events).symm
  cases hevents
  have hbob := congrArg (fun c : Option Config => (c.getD ∅)["search_path"]?) (hexact "bob" _ rfl).2
  revert hbob
  decide

end Ldap2pg.Wanted.Settings
