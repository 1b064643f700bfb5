import Ldap2pg.Config.Root

/-! # Where normalisation panics

Type assertions are safe on what an earlier normaliser stored, and fail on what the document
holds: the filter of a search or of a sub-search, and the rows of a query. Maps are ranged over
in any order, so that a normaliser is safe if it returns for every order. -/
namespace Ldap2pg.Config
open Lib Normalize Privileges

variable {u : Pyfmt.Strings} {sprint : Yaml → String} {o : Order} {yaml : Yaml} {m : Dict Yaml}

variable {rule : Dict Value} {k : String}

section Returns
variable {α β σ : Type}

theorem not_returns_bind {x : Except Fault α} {f : α → Except Fault β} (h : ¬ Returns x) :
    ¬ Returns (x >>= f) := by
  intro hbind
  refine h fun fault hx => hbind fault ?_
  rw [hx]
  rfl

theorem not_returns_wrap {x : Except Fault α} (name : String) (h : ¬ Returns x) :
    ¬ Returns (x.mapError (Fault.wrap name)) := by
  intro hwrap
  refine h fun fault hx => ?_
  subst hx
  obtain ⟨err, herr⟩ := hwrap (fault.wrap name) rfl
  cases fault with
  | error err => exact ⟨err, rfl⟩
  | assertion got want => cases herr
  | stackOverflow => cases herr

theorem returns_foldlM {f : σ → α → Except Fault σ} {l : List α} (h : ∀ s, ∀ a ∈ l, Returns (f s a))
    (s : σ) : Returns (l.foldlM f s) := by
  induction l generalizing s with
  | nil => exact .ok s
  | cons a l ih =>
    rw [List.foldlM_cons]
    exact (h s a List.mem_cons_self).bind fun s' _ => ih (fun s a ha => h s a (List.mem_cons_of_mem _ ha)) s'

/-- A loop stops where its body does, if it comes there. -/
theorem not_returns_mapM {f : α → Except Fault β} {before later : List α} {a : α}
    (hbefore : ∀ b ∈ before, ∃ c, f b = .ok c) (ha : ¬ Returns (f a)) :
    ¬ Returns ((before ++ a :: later).mapM f) := by
  induction before with
  | nil =>
    rw [List.nil_append, List.mapM_cons]
    exact not_returns_bind ha
  | cons b before ih =>
    obtain ⟨c, hc⟩ := hbefore b List.mem_cons_self
    rw [List.cons_append, List.mapM_cons, hc, ok_bind]
    exact not_returns_bind (ih fun b hb => hbefore b (List.mem_cons_of_mem _ hb))

end Returns

/-! ## Orders -/

/-- The order that draws from `f i` below site `i`. -/
def ordersBelow (f : Nat → Order) : Order where
  pick
    | [], l => l
    | i :: site, l => (f i).pick site l
  perm
    | [], l => .refl l
    | i :: site, l => (f i).perm site l

theorem ordersBelow_sub (f : Nat → Order) (i : Nat) : (ordersBelow f).sub i = f i := rfl

/-- The order in which `key` comes first. -/
def keyFirst (key : String) : Order where
  pick _ l := if key ∈ l then key :: l.erase key else l
  perm _ l := by
    split
    case isTrue h => exact (List.perm_cons_erase h).symm
    case isFalse => exact .refl l

theorem keyFirst_range {key : String} {l : List String} (h : key ∈ l) :
    (keyFirst key).range l = key :: l.erase key := if_pos h

/-! ## Searches -/

/-- The filter is neither a string nor null. -/
def BadFilter (search : Yaml) : Prop :=
  ∃ m filter, search.asMap = some m ∧ m["filter"]? = some filter ∧ filter ≠ .null ∧
    filter.asString = none

/-- The keys are known, and a sub-search has a bad filter. -/
structure BadSubsearch (m : Dict Yaml) : Prop where
  known : ∀ k ∈ m, k ∈ ["base", "filter", "scope", "subsearches", "joins", "on_unexpected_dn"]
  single : ¬ ("joins" ∈ m ∧ "subsearches" ∈ m)
  bad : ∃ (subsearches : Dict Yaml) (attr : String) (subsearch : Yaml),
    (m["joins"]?.or m["subsearches"]?).bind Yaml.asMap = some subsearches ∧
      subsearches[attr]? = some subsearch ∧ BadFilter subsearch

inductive BadSearch (search : Yaml) : Prop where
  | filter (h : BadFilter search)
  | subsearch (m : Dict Yaml) (hm : search.asMap = some m) (h : BadSubsearch m)

section Search
variable {search : Dict Yaml}

/-- The map of a search with its defaults, its filter as it is given. -/
def withDefaults (m : Dict Yaml) : Dict Yaml :=
  Dict.copy (((∅ : Dict Yaml).insert "filter" (.str "(objectClass=*)")).insert "scope" (.str "sub"))
    (match m["filter"]? with
      | some .null => m.erase "filter"
      | _ => m)

theorem normalizeCommonLdapSearch_eq (hm : yaml.asMap = some m) : normalizeCommonLdapSearch yaml =
    match (withDefaults m)["filter"]?.getD .null with
    | .str filter => .ok ((withDefaults m).insert "filter" (.str (cleanFilter filter)))
    | filter => .error (.assertion filter.typeName "string") := by
  rw [normalizeCommonLdapSearch, hm]
  rfl

theorem withDefaults_filter (m : Dict Yaml) : (withDefaults m)["filter"]? =
    some (match m["filter"]? with
      | none | some .null => .str "(objectClass=*)"
      | some filter => filter) := by
  have hdefault : (((∅ : Dict Yaml).insert "filter" (.str "(objectClass=*)")).insert "scope"
      (.str "sub"))["filter"]? = some (.str "(objectClass=*)") := rfl
  unfold withDefaults
  rw [Dict.get_copy, hdefault]
  cases h : m["filter"]? with
  | none => rw [h, Option.none_or]
  | some filter =>
    cases filter with
    | null => rw [Dict.get_erase, if_pos rfl, Option.none_or]
    | _ => rw [h, Option.some_or]

theorem withDefaults_get (hf : k ≠ "filter") (hs : k ≠ "scope") : (withDefaults m)[k]? = m[k]? := by
  unfold withDefaults
  rw [Dict.get_copy, Dict.get_insert, if_neg (Ne.symm hs), Dict.get_insert, if_neg (Ne.symm hf),
    Dict.get_empty, Option.or_none]
  split
  · rw [Dict.get_erase, if_neg (Ne.symm hf)]
  · rfl

/-- The first part of a search panics exactly on a bad filter. -/
theorem normalizeCommonLdapSearch_cases (yaml : Yaml) :
    (BadFilter yaml ∧ ¬ Returns (normalizeCommonLdapSearch yaml)) ∨
      (¬ BadFilter yaml ∧ Returns (normalizeCommonLdapSearch yaml)) := by
  cases hm : yaml.asMap with
  | none =>
    refine .inr ⟨fun ⟨m, _, hm', _⟩ => ?_, ?_⟩
    · rw [hm] at hm'
      cases hm'
    · rw [normalizeCommonLdapSearch, hm]
      exact .error _
  | some m =>
    rw [normalizeCommonLdapSearch_eq hm, withDefaults_filter, Option.getD_some]
    have hgood : (∀ filter, m["filter"]? = some filter → filter = .null ∨ filter.asString ≠ none) →
        ¬ BadFilter yaml := by
      intro hall ⟨m', filter, hm', hfilter, hnull, hstring⟩
      cases hm.symm.trans hm'
      exact (hall filter hfilter).elim hnull fun h => h hstring
    cases h : m["filter"]? with
    | none =>
      rw [h] at hgood
      exact .inr ⟨hgood nofun, .ok _⟩
    | some filter =>
      rw [h] at hgood
      have hbad : filter ≠ .null → filter.asString = none → BadFilter yaml := fun hnull hstring =>
        ⟨m, filter, hm, h, hnull, hstring⟩
      cases filter with
      | null => exact .inr ⟨hgood fun filter hf => .inl (Option.some.inj hf).symm, .ok _⟩
      | str s =>
        refine .inr ⟨hgood fun filter hf => .inr ?_, .ok _⟩
        cases hf
        exact nofun
      | _ =>
        refine .inl ⟨hbad nofun rfl, fun hreturns => ?_⟩
        obtain ⟨err, herr⟩ := hreturns _ rfl
        cases herr

theorem normalizeCommonLdapSearch_ok (h : normalizeCommonLdapSearch yaml = .ok search) :
    ∃ m, yaml.asMap = some m ∧ (∀ k : String, k ≠ "filter" → k ≠ "scope" → search[k]? = m[k]?) ∧
      ∃ filter, search["filter"]? = some (.str filter) := by
  cases hm : yaml.asMap with
  | none =>
    rw [normalizeCommonLdapSearch, hm] at h
    cases h
  | some m =>
    rw [normalizeCommonLdapSearch_eq hm] at h
    split at h
    · cases h
      refine ⟨m, rfl, fun k hf hs => ?_, _, by rw [Dict.get_insert, if_pos rfl]⟩
      rw [Dict.get_insert, if_neg (Ne.symm hf), withDefaults_get hf hs]
    · cases h

/-- A sub-search that is normalised is a good one. -/
theorem normalizeSubsearch_good {subsearches out : Dict Yaml} {ai : String × Nat}
    (hgood : ∀ (a : String) (v : Yaml), subsearches[a]? = some v → ¬ BadFilter v)
    (h : normalizeSubsearch o subsearches ai = .ok out) {a : String} {v : Yaml} (hv : out[a]? = some v) :
    ¬ BadFilter v := by
  obtain ⟨subsearch, hsub, h⟩ := bind_eq_ok.mp h
  obtain ⟨_, _, h⟩ := bind_eq_ok.mp h
  cases h
  rcases Dict.get_insert_cases hv with ⟨_, rfl⟩ | ⟨_, hv⟩
  · intro ⟨m, filter, hm, hfilter, _, hstring⟩
    obtain ⟨_, _, _, s, hs⟩ := normalizeCommonLdapSearch_ok hsub
    cases (Yaml.asMap_ofMap subsearch).symm.trans hm
    cases hs.symm.trans hfilter
    cases hstring
  · exact hgood a v hv

theorem normalizeSubsearches_returns {subsearches : Dict Yaml} (attrs : List (String × Nat))
    (hgood : ∀ (a : String) (v : Yaml), subsearches[a]? = some v → ¬ BadFilter v) :
    Returns (attrs.foldlM (normalizeSubsearch o) subsearches) := by
  induction attrs generalizing subsearches with
  | nil => exact .ok _
  | cons ai attrs ih =>
    rw [List.foldlM_cons]
    refine .bind ?_ fun out hout => ih fun a v hv => normalizeSubsearch_good hgood hout hv
    have hcommon : ¬ BadFilter (subsearches[ai.1]?.getD .null) := by
      cases hv : subsearches[ai.1]? with
      | none => exact fun ⟨m, _, hm, _⟩ => by cases hm
      | some v => exact hgood ai.1 v hv
    refine .bind ?_ fun subsearch _ => .bind spuriousKeys_returns fun _ _ => .ok _
    rcases normalizeCommonLdapSearch_cases (subsearches[ai.1]?.getD .null) with ⟨hbad, _⟩ | ⟨_, h⟩
    · exact absurd hbad hcommon
    · exact h

/-- The keys of a search, once it has its defaults and `joins` its other name. -/
theorem known_of_renamed {renamed : Dict Yaml} (hcommon : normalizeCommonLdapSearch yaml = .ok search)
    (hm : yaml.asMap = some m) (hrenamed : aliasKey search "subsearches" "joins" = .ok renamed) :
    (∀ k ∈ renamed, k ∈ ["base", "filter", "scope", "subsearches", "on_unexpected_dn"]) ↔
      ∀ k ∈ m, k ∈ ["base", "filter", "scope", "subsearches", "joins", "on_unexpected_dn"] := by
  have hkeys : ∀ k, k ∈ renamed ↔ (k ≠ "joins" ∧ (k ∈ m ∨ k ∈ ["filter", "scope"])) ∨
      (k = "subsearches" ∧ "joins" ∈ m) := by
    intro k
    rw [mem_aliasKey hrenamed (by decide), mem_normalizeCommonLdapSearch hm hcommon,
      mem_normalizeCommonLdapSearch hm hcommon]
    simp
  simp only [hkeys, List.mem_cons, List.not_mem_nil, or_false]
  constructor
  · intro h k hk
    by_cases hjoins : k = "joins"
    · simp [hjoins]
    · have := h k (.inl ⟨hjoins, .inl hk⟩)
      tauto
  · intro h k hk
    rcases hk with ⟨hne, hk | hk⟩ | ⟨rfl, _⟩
    · have := h k hk
      tauto
    · tauto
    · simp

/-- The sub-searches are those of the document, under either key. -/
theorem subsearches_of_renamed {renamed : Dict Yaml}
    (hcommon : normalizeCommonLdapSearch yaml = .ok search) (hm : yaml.asMap = some m)
    (hrenamed : aliasKey search "subsearches" "joins" = .ok renamed) :
    renamed["subsearches"]? = m["joins"]?.or m["subsearches"]? := by
  obtain ⟨m', hm', hget, _⟩ := normalizeCommonLdapSearch_ok hcommon
  cases hm.symm.trans hm'
  rw [aliasKey_get hrenamed (by simp), if_pos rfl, hget _ (by simp) (by simp),
    hget _ (by simp) (by simp)]

theorem normalizeLdapSearch_returns (h : ¬ BadSearch yaml) (o : Order) :
    Returns (normalizeLdapSearch o yaml) := by
  have hcommon : Returns (normalizeCommonLdapSearch yaml) := by
    rcases normalizeCommonLdapSearch_cases yaml with ⟨hbad, _⟩ | ⟨_, hreturns⟩
    · exact absurd (.filter hbad) h
    · exact hreturns
  refine hcommon.bind fun search hsearch => .bind aliasKey_returns fun renamed hrenamed =>
    .bind spuriousKeys_returns fun _ hknown => ?_
  obtain ⟨m, hm, _⟩ := normalizeCommonLdapSearch_ok hsearch
  split
  · exact .ok _
  case h_2 subsearches hsub =>
    refine .bind (normalizeSubsearches_returns _ fun a v hv hbad => h (.subsearch m hm ⟨?_, ?_, ?_⟩))
      fun out _ => .ok _
    · exact (known_of_renamed hsearch hm hrenamed).mp fun k hk => spuriousKeys_ok_iff.mp hknown k hk
    · intro ⟨hjoins, hsubsearches⟩
      refine aliasKey_ok_iff.mp ⟨renamed, hrenamed⟩ ⟨?_, ?_⟩
      · exact (mem_normalizeCommonLdapSearch hm hsearch).mpr (.inl hjoins)
      · exact (mem_normalizeCommonLdapSearch hm hsearch).mpr (.inl hsubsearches)
    · rw [subsearches_of_renamed hsearch hm hrenamed] at hsub
      exact ⟨subsearches, a, v, hsub, hv, hbad⟩

theorem not_returns_of_badSearch (h : BadSearch yaml) : ∃ o, ¬ Returns (normalizeLdapSearch o yaml) := by
  rcases normalizeCommonLdapSearch_cases yaml with ⟨_, hpanics⟩ | ⟨hgood, hreturns⟩
  · exact ⟨.sorted, not_returns_bind hpanics⟩
  cases h with
  | filter h => exact absurd h hgood
  | subsearch m hm h =>
    obtain ⟨subsearches, attr, subsearch, hsub, hattr, hbad⟩ := h.bad
    refine ⟨ordersBelow fun i => if i = 1 then keyFirst attr else .sorted, ?_⟩
    obtain ⟨search, hsearch⟩ : ∃ search, normalizeCommonLdapSearch yaml = .ok search := by
      rw [normalizeCommonLdapSearch_eq hm] at hreturns ⊢
      split
      · exact ⟨_, rfl⟩
      case h_2 hnot =>
        split at hreturns
        case h_1 s hs => exact absurd hs (hnot s)
        case h_2 =>
          obtain ⟨err, herr⟩ := hreturns _ rfl
          cases herr
    obtain ⟨renamed, hrenamed⟩ : ∃ renamed, aliasKey search "subsearches" "joins" = .ok renamed := by
      refine aliasKey_ok_iff.mpr fun ⟨hjoins, hsubsearches⟩ => h.single ⟨?_, ?_⟩
      · simpa using (mem_normalizeCommonLdapSearch hm hsearch).mp hjoins
      · simpa using (mem_normalizeCommonLdapSearch hm hsearch).mp hsubsearches
    have hknown : ∀ o, spuriousKeys o renamed
        ["base", "filter", "scope", "subsearches", "on_unexpected_dn"] = .ok () := fun _ =>
      spuriousKeys_ok_iff.mpr ((known_of_renamed hsearch hm hrenamed).mpr h.known)
    have hrenamedSub : renamed["subsearches"]?.bind Yaml.asMap = some subsearches := by
      rw [subsearches_of_renamed hsearch hm hrenamed]
      exact hsub
    have hkeys : attr ∈ subsearches.keys := Dict.mem_keys_iff.mpr ⟨subsearch, hattr⟩
    have hpanics : ¬ Returns (normalizeCommonLdapSearch (subsearches[attr]?.getD .null)) := by
      rw [hattr]
      exact (normalizeCommonLdapSearch_cases subsearch).elim And.right fun hgood => absurd hbad hgood.1
    rw [normalizeLdapSearch, hsearch, ok_bind]
    simp only [hrenamed, ok_bind, hknown, hrenamedSub, ordersBelow_sub, if_true, keyFirst_range hkeys,
      List.zipIdx_cons, List.foldlM_cons]
    exact not_returns_bind (not_returns_bind (not_returns_bind hpanics))

end Search

/-! ## Role rules and grant rules -/

section Rules

theorem stringList_returns (value : Value) : Returns (stringList sprint value) := by
  unfold stringList
  split
  · exact .ok _
  · exact .ok _
  · exact .ok _
  · split
    · exact .ok _
    · exact .error _
  · exact .error _

theorem normalizeMembership_returns : Returns (normalizeMembership o yaml) := by
  have hchecks : ∀ value : Dict Yaml, Returns (if "name" ∈ value then do
      spuriousKeys o value ["name", "inherit", "set", "admin"]
      return value
    else .error (.error "missing name")) := by
    intro value
    split
    · exact spuriousKeys_returns.bind fun _ _ => .ok _
    · exact .error _
  unfold normalizeMembership
  dsimp only
  split
  · exact (Returns.ok _).bind fun value _ => hchecks value
  · split
    · exact (Returns.ok _).bind fun value _ => hchecks value
    · exact (Returns.error _).bind fun value _ => hchecks value

theorem normalizeMemberships_returns (raw : Value) : Returns (normalizeMemberships o raw) :=
  .mapM fun _ _ => normalizeMembership_returns.wrap _

theorem normalizeRoleOptions_returns : Returns (normalizeRoleOptions o yaml) := by
  unfold normalizeRoleOptions
  split
  · exact .ok _
  · exact spuriousKeys_returns.bind fun _ _ => .ok _
  · split
    · exact spuriousKeys_returns.bind fun _ _ => .ok _
    · exact .error _

theorem normalizeRoleMap_returns (m : Dict Yaml) : Returns (normalizeRoleMap sprint o m) := by
  refine aliasKey_returns.bind fun _ _ => aliasKey_returns.bind fun _ _ => ?_
  unfold completed
  dsimp only
  split
  · exact .error _
  · exact (stringList_returns _).bind fun _ _ => (normalizeMemberships_returns _).bind fun _ _ =>
      (normalizeRoleOptions_returns.wrap _).bind fun _ _ => .ok _

theorem normalizeRoleRule_returns : Returns (normalizeRoleRule sprint o yaml) := by
  have hchecks : ∀ {x : Except Fault (Dict Value)}, Returns x → Returns (do
      let rule ← x
      spuriousKeys (o.sub 1) (rule.map fun _ v => v.yaml) ruleKeys
      return rule) :=
    fun h => h.bind fun _ _ => spuriousKeys_returns.bind fun _ _ => .ok _
  unfold normalizeRoleRule
  dsimp only
  split
  · exact hchecks (.ok _)
  · split
    · exact hchecks (normalizeRoleMap_returns _)
    · exact hchecks (.error _)

theorem normalizeRoleMap_names {m : Dict Yaml} (h : normalizeRoleMap sprint o m = .ok rule) :
    ∃ names, rule["names"]? = some (.strings names) := by
  obtain ⟨_, _, h⟩ := bind_eq_ok.mp h
  obtain ⟨_, _, h⟩ := bind_eq_ok.mp h
  unfold completed at h
  dsimp only at h
  split at h
  · cases h
  · obtain ⟨names, _, h⟩ := bind_eq_ok.mp h
    obtain ⟨_, _, h⟩ := bind_eq_ok.mp h
    obtain ⟨_, _, h⟩ := bind_eq_ok.mp h
    cases h
    refine ⟨names, ?_⟩
    simp only [Dict.get_insert, String.reduceEq, if_false, if_true]

/-- The names of a normalised rule are a list of strings. -/
theorem normalizeRoleRule_names (h : normalizeRoleRule sprint o yaml = .ok rule) :
    ∃ names, rule["names"]? = some (.strings names) := by
  unfold normalizeRoleRule at h
  dsimp only at h
  split at h
  · obtain ⟨rule', hrule, h⟩ := bind_eq_ok.mp h
    obtain ⟨_, _, h⟩ := bind_eq_ok.mp h
    cases hrule
    cases h
    exact ⟨_, by rw [Dict.get_insert, if_pos rfl]⟩
  · split at h
    · obtain ⟨rule', hrule, h⟩ := bind_eq_ok.mp h
      obtain ⟨_, _, h⟩ := bind_eq_ok.mp h
      cases h
      exact normalizeRoleMap_names hrule
    · cases h

theorem wantRole_returns (ri : Yaml × Nat) : Returns (wantRole sprint o ri) := by
  refine (normalizeRoleRule_returns.wrap _).bind fun rule hrule => .bind ?_ fun _ _ => .ok _
  obtain ⟨names, hnames⟩ := normalizeRoleRule_names (mapError_eq_ok.mp hrule)
  rw [duplicateRoleRules, hnames]
  exact .ok _

/-- After the loop over keys, each of them holds a list of strings. -/
theorem listKeys_strings {keys : List String} {out : Dict Value}
    (h : keys.foldlM (listKey sprint) rule = .ok out)
    (hk : k ∈ keys ∨ ∃ l, rule[k]? = some (.strings l)) : ∃ l, out[k]? = some (.strings l) := by
  induction keys generalizing rule with
  | nil =>
    cases h
    exact hk.resolve_left List.not_mem_nil
  | cons key keys ih =>
    obtain ⟨next, hnext, h⟩ := bind_eq_ok.mp h
    obtain ⟨l, _, hnext⟩ := bind_eq_ok.mp hnext
    cases hnext
    refine ih h ?_
    by_cases heq : key = k
    · exact .inr ⟨l, by rw [Dict.get_insert, if_pos heq]⟩
    · rcases hk with hk | ⟨l', hl'⟩
      · exact .inl ((List.mem_cons.mp hk).resolve_left (Ne.symm heq))
      · exact .inr ⟨l', by rw [Dict.get_insert, if_neg heq, hl']⟩

theorem normalizeGrantRule_returns : Returns (normalizeGrantRule sprint o yaml) := by
  unfold normalizeGrantRule
  split
  · exact .error _
  · refine (returns_foldlM (fun _ _ _ => aliasKey_returns) _).bind fun _ _ => .bind ?_ fun _ _ =>
      spuriousKeys_returns.bind fun _ _ => .ok _
    exact returns_foldlM (fun _ _ _ => ((stringList_returns _).wrap _).bind fun _ _ => .ok _) _

theorem normalizeGrantRule_strings (h : normalizeGrantRule sprint o yaml = .ok rule)
    (hk : k ∈ ["owners", "privileges", "databases", "schemas", "roles"]) :
    ∃ l, rule[k]? = some (.strings l) := by
  unfold normalizeGrantRule at h
  split at h
  · cases h
  · obtain ⟨_, _, h⟩ := bind_eq_ok.mp h
    obtain ⟨out, hout, h⟩ := bind_eq_ok.mp h
    obtain ⟨_, _, h⟩ := bind_eq_ok.mp h
    cases h
    exact listKeys_strings hout (.inl hk)

theorem wantGrant_returns (ri : Yaml × Nat) : Returns (wantGrant sprint o ri) := by
  refine (normalizeGrantRule_returns.wrap _).bind fun rule hrule => .bind ?_ fun _ _ => .ok _
  refine .bind (.mapM fun k hk => ?_) fun _ _ => .ok _
  have hkey : k ∈ ["owners", "privileges", "databases", "schemas", "roles"] := by
    simp only [List.mem_cons, List.not_mem_nil, or_false] at hk ⊢
    tauto
  obtain ⟨l, hl⟩ := normalizeGrantRule_strings (mapError_eq_ok.mp hrule) hkey
  rw [hl]
  exact .ok _

end Rules

/-! ## Want rules -/

/-- A rule whose keys do not conflict, with a bad search. -/
structure BadWantRule (m : Dict Yaml) : Prop where
  ldap : ¬ ("ldap" ∈ m ∧ "ldapsearch" ∈ m)
  role : ¬ ("role" ∈ m ∧ "roles" ∈ m)
  grant : ¬ ("grant" ∈ m ∧ "grants" ∈ m)
  search : BadSearch ((m["ldap"]?.or m["ldapsearch"]?).getD (.map []))

def BadRule (rule : Yaml) : Prop := ∃ m, rule.asMap = some m ∧ BadWantRule m

/-- The normaliser returns a value, for some order. -/
def RuleAccepted (sprint : Yaml → String) (rule : Yaml) : Prop :=
  ∃ o out, normalizeWantRule sprint o rule = .ok out

section WantRules
variable {m₁ m₂ m₃ : Dict Yaml}

/-- Renaming the search leaves the roles. -/
theorem roles_of_renamed (h₁ : aliasKey m "ldapsearch" "ldap" = .ok m₁) :
    ("role" ∈ m₁ ∧ "roles" ∈ m₁) ↔ "role" ∈ m ∧ "roles" ∈ m := by
  simp [mem_aliasKey h₁]

/-- Renaming the search and the roles leaves the grants. -/
theorem grants_of_renamed (h₁ : aliasKey m "ldapsearch" "ldap" = .ok m₁)
    (h₂ : aliasKey m₁ "roles" "role" = .ok m₂) :
    ("grant" ∈ m₂ ∧ "grants" ∈ m₂) ↔ "grant" ∈ m ∧ "grants" ∈ m := by
  simp [mem_aliasKey h₂, mem_aliasKey h₁]

/-- What the search of a rule is, once the keys of the rule are renamed. -/
theorem search_of_renamed (h₁ : aliasKey m "ldapsearch" "ldap" = .ok m₁)
    (h₂ : aliasKey m₁ "roles" "role" = .ok m₂) (h₃ : aliasKey m₂ "grants" "grant" = .ok m₃) :
    (Dict.copy defaultWantRule m₃)["ldapsearch"]?.getD .null =
      (m["ldap"]?.or m["ldapsearch"]?).getD (.map []) := by
  have hdefault : defaultWantRule["ldapsearch"]? = some (.map []) := rfl
  have hget : m₃["ldapsearch"]? = m["ldap"]?.or m["ldapsearch"]? := by
    simp [aliasKey_get h₃, aliasKey_get h₂, aliasKey_get h₁]
  rw [Dict.get_copy, hdefault, hget]
  cases m["ldap"]?.or m["ldapsearch"]? <;> rfl

theorem normalizeWantRule_returns (h : ¬ BadRule yaml) (o : Order) :
    Returns (normalizeWantRule sprint o yaml) := by
  unfold normalizeWantRule
  split
  · exact .error _
  case h_2 m hm =>
    refine aliasKey_returns.bind fun m₁ h₁ => aliasKey_returns.bind fun m₂ h₂ =>
      aliasKey_returns.bind fun m₃ h₃ => ?_
    dsimp only
    rw [search_of_renamed h₁ h₂ h₃]
    have hgood : ¬ BadSearch ((m["ldap"]?.or m["ldapsearch"]?).getD (.map [])) := by
      refine fun hbad => h ⟨m, hm, aliasKey_ok_iff.mp ⟨m₁, h₁⟩, ?_, ?_, hbad⟩
      · exact fun hrole => aliasKey_ok_iff.mp ⟨m₂, h₂⟩ ((roles_of_renamed h₁).mpr hrole)
      · exact fun hgrant => aliasKey_ok_iff.mp ⟨m₃, h₃⟩ ((grants_of_renamed h₁ h₂).mpr hgrant)
    exact ((normalizeLdapSearch_returns hgood _).wrap _).bind fun _ _ =>
      (Returns.mapM fun ri _ => wantRole_returns ri).bind fun _ _ =>
        (Returns.mapM fun ri _ => wantGrant_returns ri).bind fun _ _ =>
          spuriousKeys_returns.bind fun _ _ => .ok _

theorem not_returns_of_badRule (h : BadRule yaml) : ∃ o, ¬ Returns (normalizeWantRule sprint o yaml) := by
  obtain ⟨m, hm, hbad⟩ := h
  obtain ⟨m₁, h₁⟩ := aliasKey_ok_iff.mpr hbad.ldap
  obtain ⟨m₂, h₂⟩ := aliasKey_ok_iff.mpr (mt (roles_of_renamed h₁).mp hbad.role)
  obtain ⟨m₃, h₃⟩ := aliasKey_ok_iff.mpr (mt (grants_of_renamed h₁ h₂).mp hbad.grant)
  obtain ⟨os, hos⟩ := not_returns_of_badSearch hbad.search
  refine ⟨ordersBelow fun _ => os, ?_⟩
  rw [normalizeWantRule, hm]
  simp only [h₁, ok_bind, h₂, h₃, search_of_renamed h₁ h₂ h₃, ordersBelow_sub]
  exact not_returns_bind (not_returns_wrap _ hos)

/-- A loop returns if its body does wherever it comes. -/
theorem returns_mapM_reached {α β : Type} {f : α → Except Fault β} {l : List α}
    (h : ∀ before a later, l = before ++ a :: later → (∀ b ∈ before, ∃ c, f b = .ok c) → Returns (f a)) :
    Returns (l.mapM f) := by
  induction l with
  | nil => exact .ok []
  | cons a l ih =>
    rw [List.mapM_cons]
    refine (h [] a l rfl nofun).bind fun c hc => (ih fun before a' later hl hbefore => ?_).bind fun _ _ => .ok _
    refine h (a :: before) a' later (by rw [hl, List.cons_append]) fun b hb => ?_
    rcases List.mem_cons.mp hb with rfl | hb
    · exact ⟨c, hc⟩
    · exact hbefore b hb

/-- A bad rule that the loop over rules comes to. -/
def BadRules (sprint : Yaml → String) (rules : List Yaml) : Prop :=
  ∃ before rule later, rules = before ++ rule :: later ∧ (∀ r ∈ before, RuleAccepted sprint r) ∧
    BadRule rule

theorem normalizeRules_returns (h : ∀ rules, yaml.asList = some rules → ¬ BadRules sprint rules)
    (o : Order) : Returns (normalizeRules sprint o yaml) := by
  unfold normalizeRules
  split
  · exact .error _
  case h_2 rules hrules =>
    refine returns_mapM_reached fun before ri later hsplit hbefore => (normalizeWantRule_returns ?_ _).wrap _
    intro hbad
    have hlist := congrArg (List.map Prod.fst) hsplit
    rw [List.zipIdx_map_fst, List.map_append, List.map_cons] at hlist
    refine h rules hrules ⟨before.map Prod.fst, ri.1, later.map Prod.fst, hlist, fun r hr => ?_, hbad⟩
    obtain ⟨rj, hrj, rfl⟩ := List.mem_map.mp hr
    obtain ⟨out, hout⟩ := hbefore rj hrj
    exact ⟨_, out, mapError_eq_ok.mp hout⟩

theorem not_returns_of_badRules {rules : List Yaml} (hrules : yaml.asList = some rules)
    (h : BadRules sprint rules) : ∃ o, ¬ Returns (normalizeRules sprint o yaml) := by
  obtain ⟨before, rule, later, rfl, hbefore, hbad⟩ := h
  obtain ⟨obad, hobad⟩ := @not_returns_of_badRule sprint rule hbad
  -- each rule before draws the order that accepts it
  let order : Nat → Order := fun j =>
    if hj : j < before.length then (hbefore before[j] (List.getElem_mem hj)).choose else obad
  refine ⟨ordersBelow order, ?_⟩
  rw [normalizeRules, hrules]
  dsimp only
  rw [List.zipIdx_append, List.zipIdx_cons]
  refine not_returns_mapM (fun ri hri => ?_) (not_returns_wrap _ ?_)
  · obtain ⟨hj, hr⟩ := List.mem_zipIdx' hri
    have horder : order ri.2 = (hbefore before[ri.2] (List.getElem_mem hj)).choose := dif_pos hj
    obtain ⟨out, hout⟩ := (hbefore before[ri.2] (List.getElem_mem hj)).choose_spec
    refine ⟨out, mapError_eq_ok.mpr ?_⟩
    rw [ordersBelow_sub, horder, hr]
    exact hout
  · have horder : order (0 + before.length) = obad := by
      rw [Nat.zero_add]
      exact dif_neg (Nat.lt_irrefl _)
    rw [ordersBelow_sub, horder]
    exact hobad

end WantRules

/-! ## The document -/

/-- The sections before the rules are accepted, and the loop over rules comes to a bad one. -/
structure BadRoot (u : Pyfmt.Strings) (sprint : Yaml → String) (config : Dict Yaml) : Prop where
  postgres : ∀ value, config["postgres"]? = some value → value.asMap ≠ none
  acls : ∀ value, config["acls"]? = some value → ∃ o out, normalizeACLs o value = .ok out
  privileges : ∀ value, config["privileges"]? = some value → ∃ o out, normalizeProfiles u o value = .ok out
  single : ¬ ("sync_map" ∈ config ∧ "rules" ∈ config)
  rules : ∃ rules, config["sync_map"]?.or config["rules"]? = some (.list rules) ∧ BadRules sprint rules

def BadDocument (u : Pyfmt.Strings) (sprint : Yaml → String) (yaml : Yaml) : Prop :=
  ∃ config, yaml.asMap = some config ∧ BadRoot u sprint config

section Root
variable {config config' : Dict Yaml} {name : String} {normalise : Yaml → Except Fault Yaml}

theorem section_returns (h : ∀ value, config[name]? = some value → Returns (normalise value)) :
    Returns (section? config name normalise) := by
  unfold section?
  split
  · exact .ok _
  case h_2 value hvalue => exact ((h value hvalue).wrap _).bind fun _ _ => .ok _

theorem section_get (h : section? config name normalise = .ok config') (hk : k ≠ name) :
    config'[k]? = config[k]? := by
  unfold section? at h
  split at h
  · cases h
    rfl
  · obtain ⟨value, _, h⟩ := bind_eq_ok.mp h
    cases h
    rw [Dict.get_insert, if_neg (Ne.symm hk)]

/-- The sections leave the rules alone. -/
theorem sections_get {f₁ f₂ f₃ : Yaml → Except Fault Yaml} {c₁ c₂ c₃ : Dict Yaml}
    (h₁ : section? config "postgres" f₁ = .ok c₁) (h₂ : section? c₁ "acls" f₂ = .ok c₂)
    (h₃ : section? c₂ "privileges" f₃ = .ok c₃) :
    c₃["sync_map"]? = config["sync_map"]? ∧ c₃["rules"]? = config["rules"]? := by
  simp [section_get h₃, section_get h₂, section_get h₁]

/-- The sections before the profiles leave them alone. -/
theorem privileges_get {f₁ f₂ : Yaml → Except Fault Yaml} {c₁ c₂ : Dict Yaml}
    (h₁ : section? config "postgres" f₁ = .ok c₁) (h₂ : section? c₁ "acls" f₂ = .ok c₂) :
    c₁["acls"]? = config["acls"]? ∧ c₂["privileges"]? = config["privileges"]? := by
  simp [section_get h₂, section_get h₁]

theorem section_ok_iff : (∃ config', section? config name normalise = .ok config') ↔
    ∀ value, config[name]? = some value → ∃ out, normalise value = .ok out := by
  unfold section?
  cases config[name]? with
  | none => simp
  | some value =>
    simp only [Option.some.injEq, forall_eq']
    cases normalise value with
    | ok out => exact iff_of_true ⟨_, rfl⟩ ⟨out, rfl⟩
    | error fault => exact iff_of_false nofun nofun

/-- A section that some order accepts. -/
theorem exists_section {f : Order → Yaml → Except Fault Yaml}
    (h : ∀ value, config[name]? = some value → ∃ o out, f o value = .ok out) :
    ∃ o config', section? config name (f o) = .ok config' := by
  cases hvalue : config[name]? with
  | none =>
    refine ⟨.sorted, section_ok_iff.mpr fun value hvalue' => ?_⟩
    cases hvalue.symm.trans hvalue'
  | some value =>
    obtain ⟨o, hout⟩ := h value hvalue
    refine ⟨o, section_ok_iff.mpr fun value' hvalue' => ?_⟩
    cases hvalue.symm.trans hvalue'
    exact hout

theorem normalizePostgres_returns (value : Yaml) : Returns (normalizePostgres value) := by
  unfold normalizePostgres
  split
  · exact .error _
  · exact .ok _

theorem asMap_of_postgres {value out : Yaml} (h : (do
    normalizePostgres value
    return value : Except Fault Yaml) = .ok out) : value.asMap ≠ none := by
  intro hmap
  rw [normalizePostgres, hmap] at h
  cases h

theorem postgres_of_asMap {value : Yaml} (h : value.asMap ≠ none) : ∃ out, (do
    normalizePostgres value
    return value : Except Fault Yaml) = .ok out := by
  obtain ⟨m, hm⟩ := Option.ne_none_iff_exists'.mp h
  exact ⟨value, by rw [normalizePostgres, hm]; rfl⟩

theorem normalizeProfiles_returns {value : Yaml}
    (h : ∀ m, value.asMap = some m → Digraph.Acyclic (Inclusion.includes m)) :
    Returns (normalizeProfiles u o value) := by
  cases hm : value.asMap with
  | none =>
    rw [normalizeProfiles, hm]
    exact .error _
  | some m => exact Inclusion.returns_of_acyclic hm fun _ => h m hm

theorem normalizeACLs_returns (value : Yaml) : Returns (normalizeACLs o value) := by
  unfold normalizeACLs
  split
  · exact .error _
  · refine .bind (.mapM fun ki _ => ?_) fun _ _ => .ok _
    unfold normalizeACL
    split
    · exact .error _
    · exact spuriousKeys_returns.wrap _

end Root

/-- No chain of inclusions of the privileges comes back. -/
def AcyclicProfiles (yaml : Yaml) : Prop :=
  ∀ (config : Dict Yaml) (value : Yaml) (m : Dict Yaml), yaml.asMap = some config →
    config["privileges"]? = some value → value.asMap = some m → Digraph.Acyclic (Inclusion.includes m)

section Document

theorem normalizeConfigRoot_returns (hacyclic : AcyclicProfiles yaml) (h : ¬ BadDocument u sprint yaml)
    (o : Order) : Returns (normalizeConfigRoot u sprint o yaml) := by
  unfold normalizeConfigRoot
  split
  · exact .error _
  case h_2 config hconfig =>
    refine (section_returns fun value _ => (normalizePostgres_returns value).bind fun _ _ => .ok _).bind
      fun c₁ h₁ => (section_returns fun value _ => normalizeACLs_returns value).bind fun c₂ h₂ => .bind ?_
        fun c₃ h₃ => aliasKey_returns.bind fun c₄ h₄ => ?_
    · refine section_returns fun value hvalue => .bind ?_ fun _ _ => .ok _
      rw [(privileges_get h₁ h₂).2] at hvalue
      exact normalizeProfiles_returns fun m hm => hacyclic config value m hconfig hvalue hm
    · obtain ⟨hmap, hlist⟩ := sections_get h₁ h₂ h₃
      obtain ⟨hacls, hprofiles⟩ := privileges_get h₁ h₂
      split
      · exact .error _
      case h_2 value hvalue =>
        rw [aliasKey_get h₄ (by simp), if_pos rfl, hmap, hlist] at hvalue
        refine ((normalizeRules_returns (fun rules hrules hbad => h ⟨config, hconfig, ?_⟩) _).wrap _).bind
          fun _ _ => .ok _
        have hrule : value = .list rules := by
          cases value with
          | list items => exact congrArg Yaml.list (Option.some.inj hrules)
          | _ => cases hrules
        refine ⟨fun v hv => ?_, fun v hv => ?_, fun v hv => ?_, ?_, rules, hrule ▸ hvalue, hbad⟩
        · obtain ⟨out, hout⟩ := section_ok_iff.mp ⟨c₁, h₁⟩ v hv
          exact asMap_of_postgres hout
        · exact ⟨_, section_ok_iff.mp ⟨c₂, h₂⟩ v (hacls.trans hv)⟩
        · obtain ⟨out, hout⟩ := section_ok_iff.mp ⟨c₃, h₃⟩ v (hprofiles.trans hv)
          obtain ⟨profiles, hnormal, _⟩ := bind_eq_ok.mp hout
          exact ⟨_, profiles, hnormal⟩
        · have hsingle := aliasKey_ok_iff.mp ⟨c₄, h₄⟩
          rwa [Dict.mem_iff, Dict.mem_iff, hmap, hlist, ← Dict.mem_iff, ← Dict.mem_iff] at hsingle

theorem not_returns_of_badDocument (h : BadDocument u sprint yaml) :
    ∃ o, ¬ Returns (normalizeConfigRoot u sprint o yaml) := by
  obtain ⟨config, hconfig, hbad⟩ := h
  obtain ⟨rules, hrules, hbadRules⟩ := hbad.rules
  obtain ⟨orules, horules⟩ := @not_returns_of_badRules sprint (.list rules) rules rfl hbadRules
  -- each section draws the order that accepts it
  obtain ⟨c₁, h₁⟩ := section_ok_iff.mpr fun value hvalue => postgres_of_asMap (hbad.postgres value hvalue)
  obtain ⟨oacls, c₂, h₂⟩ := @exists_section c₁ "acls" normalizeACLs fun value hvalue =>
    hbad.acls value (by rwa [section_get h₁ (by simp)] at hvalue)
  obtain ⟨oprofiles, c₃, h₃⟩ := @exists_section c₂ "privileges" (fun o value => do
      let profiles ← normalizeProfiles u o value
      return .ofMap (profiles.map fun _ items => .list items)) fun value hvalue => by
    rw [(privileges_get h₁ h₂).2] at hvalue
    obtain ⟨o, out, hout⟩ := hbad.privileges value hvalue
    exact ⟨o, _, by rw [hout]; rfl⟩
  obtain ⟨hmap, hlist⟩ := sections_get h₁ h₂ h₃
  obtain ⟨c₄, h₄⟩ : ∃ c₄, aliasKey c₃ "rules" "sync_map" = .ok c₄ := by
    refine aliasKey_ok_iff.mpr ?_
    rw [Dict.mem_iff, Dict.mem_iff, hmap, hlist, ← Dict.mem_iff, ← Dict.mem_iff]
    exact hbad.single
  have hvalue : c₄["rules"]? = some (.list rules) := by
    rw [aliasKey_get h₄ (by simp), if_pos rfl, hmap, hlist]
    exact hrules
  refine ⟨ordersBelow fun i => if i = 0 then oacls else if i = 1 then oprofiles else orules, ?_⟩
  rw [normalizeConfigRoot, hconfig]
  simp only [h₁, ok_bind, ordersBelow_sub, if_true, Nat.reduceEqDiff, if_false, h₂, h₃, h₄, hvalue]
  exact not_returns_bind (not_returns_wrap _ horules)

end Document

/-! ## Queries -/

/-- Neither a failed assertion nor a call of `panic`. -/
def QueryReturns {α : Type} (x : Except QueryFault α) : Prop :=
  ∀ fault, x = .error fault → ∃ err, fault = .error err

/-- A conversion of rows that takes strings, and panics on anything else. -/
structure StringsOnly {T : Type} (yamlTo : Yaml → Except QueryFault T) : Prop where
  string : ∀ s, ∃ row, yamlTo (.str s) = .ok row
  other : ∀ raw : Yaml, raw.asString = none → ∃ fault, yamlTo raw = .error fault ∧
    ∀ err, fault ≠ .error err

theorem yamlToString_strings : StringsOnly yamlToString :=
  ⟨fun s => ⟨s, rfl⟩, fun raw h => ⟨.assertion raw.typeName "string", by rw [yamlToString, h], nofun⟩⟩

theorem yamlToSchema_strings : StringsOnly yamlToSchema :=
  ⟨fun s => ⟨⟨s, "", []⟩, rfl⟩,
    fun raw h => ⟨.panic "Unsupported schema value.", by rw [yamlToSchema, h], nofun⟩⟩

theorem queryReturns_bind {α β : Type} {x : Except QueryFault α} (f : α → β) :
    QueryReturns (x >>= fun a => .ok (f a)) ↔ QueryReturns x := by
  cases x with
  | ok a => exact iff_of_true nofun nofun
  | error fault =>
    exact ⟨fun h _ hx => by cases hx; exact h fault rfl, fun h _ hx => by cases hx; exact h fault rfl⟩

theorem rows_return_iff {T : Type} {yamlTo : Yaml → Except QueryFault T} (h : StringsOnly yamlTo)
    (items : List Yaml) :
    QueryReturns (items.mapM fun raw => (yamlTo raw).mapError (QueryFault.wrap "bad value")) ↔
      ∀ item ∈ items, item.asString ≠ none := by
  induction items with
  | nil => exact iff_of_true nofun nofun
  | cons item items ih =>
    rw [List.mapM_cons, List.forall_mem_cons, ← ih]
    cases hitem : item.asString with
    | none =>
      obtain ⟨fault, hfault, hpanic⟩ := h.other item hitem
      refine iff_of_false (fun hreturns => ?_) fun hand => hand.1 rfl
      obtain ⟨err, herr⟩ := hreturns (fault.wrap "bad value") (by rw [hfault]; rfl)
      cases fault with
      | error err => exact hpanic err rfl
      | _ => cases herr
    | some s =>
      have hstr : item = .str s := by
        cases item with
        | str s' => exact congrArg Yaml.str (Option.some.inj hitem)
        | _ => cases hitem
      subst hstr
      obtain ⟨row, hrow⟩ := h.string s
      rw [hrow]
      exact (queryReturns_bind _).trans (and_iff_right (Option.some_ne_none s)).symm

/-- `Instantiate` returns exactly on a value that is not a list, or a list of strings. -/
theorem instantiate_returns_iff {T : Type} {yamlTo : Yaml → Except QueryFault T}
    (h : StringsOnly yamlTo) (value : Yaml) :
    QueryReturns (instantiate yamlTo value) ↔
      ∀ items, value = .list items → ∀ item ∈ items, item.asString ≠ none := by
  cases value with
  | str s => exact iff_of_true nofun nofun
  | list items =>
    rw [instantiate]
    simp only [Yaml.list.injEq, forall_eq']
    exact (queryReturns_bind _).trans (rows_return_iff h items)
  | _ => exact iff_of_true (fun fault hx => by cases hx; exact ⟨_, rfl⟩) nofun

/-- **Normalisation panics exactly on a filter that is neither a string nor null**, in the
search or a sub-search of a rule that it comes to, and queries on rows that are not strings. -/
theorem normalisation_returns_iff (u : Pyfmt.Strings) (sprint : Yaml → String) {yaml : Yaml}
    (hacyclic : AcyclicProfiles yaml) :
    ((∀ o, Returns (normalizeConfigRoot u sprint o yaml)) ↔ ¬ BadDocument u sprint yaml) ∧
      (∀ value, QueryReturns (instantiate yamlToString value) ↔
        ∀ items, value = .list items → ∀ item ∈ items, item.asString ≠ none) ∧
      ∀ value, QueryReturns (instantiate yamlToSchema value) ↔
        ∀ items, value = .list items → ∀ item ∈ items, item.asString ≠ none := by
  refine ⟨⟨fun h hbad => ?_, normalizeConfigRoot_returns hacyclic⟩,
    instantiate_returns_iff yamlToString_strings, instantiate_returns_iff yamlToSchema_strings⟩
  obtain ⟨o, ho⟩ := not_returns_of_badDocument hbad
  exact ho (h o)

/-- A rule with this filter. -/
def filterRule (filter : Yaml) : Yaml :=
  .map [("rules", .list [.map [("ldapsearch", .map [("filter", filter)])]])]

/-- A filter that is a number, and a number among the databases. -/
theorem number_panics : (∀ u sprint o, normalizeConfigRoot u sprint o (filterRule (.int 1)) =
      .error (.assertion "int" "string")) ∧
    instantiate yamlToString (.list [.int 1]) = .error (.assertion "int" "string") :=
  ⟨fun _ _ _ => rfl, rfl⟩

theorem string_returns : (filterRule (.str "(cn=*)")).asMap ≠ none ∧
    ∀ o, Returns (normalizeConfigRoot Inclusion.sampleStrings Yaml.typeName o
      (filterRule (.str "(cn=*)"))) := by
  have hacyclic : AcyclicProfiles (filterRule (.str "(cn=*)")) := by
    intro config value m hconfig hvalue _
    cases hconfig
    cases hvalue
  refine ⟨nofun, (normalisation_returns_iff _ _ hacyclic).1.mpr ?_⟩
  intro ⟨config, hconfig, hbad⟩
  cases hconfig
  obtain ⟨rules, hrules, before, rule, later, hsplit, _, m, hm, hrule⟩ := hbad.rules
  cases hrules
  obtain ⟨rfl, rfl, rfl⟩ : before = [] ∧ rule = .map [("ldapsearch", .map [("filter", .str "(cn=*)")])] ∧
      later = [] := by
    cases before with
    | nil => exact ⟨rfl, (List.head_eq_of_cons_eq hsplit).symm, (List.tail_eq_of_cons_eq hsplit).symm⟩
    | cons r before => simp at hsplit
  cases hm
  cases hrule.search with
  | filter h =>
    obtain ⟨m, filter, hm, hfilter, _, hstring⟩ := h
    cases hm
    cases hfilter
    cases hstring
  | subsearch m hm h =>
    obtain ⟨subsearches, attr, subsearch, hsub, _⟩ := h.bad
    cases hm
    cases hsub

end Ldap2pg.Config
