import Ldap2pg.Wanted.Caseless
import Ldap2pg.Wanted.Parents
import Ldap2pg.Wanted.Split

/-! # Two executions of `Rules.Run`

Sets and maps are ranged over in an order that is drawn anew in each execution. What each
rule generates from each result of the directory is the same up to order, and the rules
and the results come in turn. The first definition of a role fixes its plain values: they
are those of one of the combinations with this name, in the first rule and result that
give it. -/
namespace Ldap2pg.Wanted.Orders
open Lib Pyfmt Ldap Ldap.Correlated Privileges
open Roles Wanted.Attributes Wanted.Count Wanted.Independent
open Wanted.Caseless Wanted.Split

variable {o₁ : Order} {events : List Event} {n : String}

/-! ## 1. One rule, one result -/

section Rules
variable {env : Env} {results : Result} {entry : Entry}

theorem generateValues_alike (hfold : Folds env) {fmts : List Format}
    (hrefers : results.subsearchAttribute ≠ "" →
      Referring env results.subsearchAttribute (expressionsOf fmts)) (o o' : Order) :
    (results.generateValues env o entry fmts).Perm (results.generateValues env o' entry fmts) := by
  by_cases hfield : ∃ f ∈ fmts, f.isStatic = false
  · exact generateValues_orders hfold hrefers hfield o o'
  · have hstatic : ∀ f ∈ fmts, f.isStatic = true := fun f hf => by
      by_contra hne
      exact hfield ⟨f, hf, by simpa using hne⟩
    rw [generateValues_static hstatic, generateValues_static hstatic]

theorem parent_alike (hfold : Folds env) (hentry : results.entry = some entry) {m : Format}
    (hrefers : results.subsearchAttribute ≠ "" →
      Referring env results.subsearchAttribute (expressionsOf [m])) (o o' : Order) :
    ∃ l l', generateParent env o results m = .ok l ∧ generateParent env o' results m = .ok l' ∧
      l.Perm l' := by
  cases hstatic : m.isStatic with
  | true => exact ⟨_, _, generateParent_static hstatic, generateParent_static hstatic, .refl _⟩
  | false => exact ⟨_, _, generateParent_dynamic hentry hstatic, generateParent_dynamic hentry hstatic,
      (generateValues_alike hfold hrefers o o').map _⟩

/-- **A rule generates the same roles** from an entry, in any order of the maps. -/
theorem role_alike (hfold : Folds env) (hentry : results.entry = some entry) {r : RoleRule}
    (hhead : results.subsearchAttribute ≠ "" →
      Referring env results.subsearchAttribute (expressionsOf (headFormats r)))
    (hparents : ∀ m ∈ r.parents, results.subsearchAttribute ≠ "" →
      Referring env results.subsearchAttribute (expressionsOf [m])) :
    SameRole env results results r r := by
  refine ⟨fun o o' => ?_, fun o o' => ?_, rfl⟩
  · unfold RoleRule.generateHeads
    rw [hentry]
    exact (generateValues_alike hfold hhead o o').map _
  · exact parents_perm <| List.forall₂_same.mpr fun mi hmi =>
      parent_alike hfold hentry (hparents mi.1 (List.fst_mem_of_mem_zipIdx hmi)) _ _

/-- **A rule generates the same grants** from an entry, in any order of the maps. -/
theorem grants_alike (hfold : Folds env) (hentry : results.entry = some entry) {g : GrantRule}
    (hrefers : results.subsearchAttribute ≠ "" →
      Referring env results.subsearchAttribute (expressionsOf g.formats)) :
    SameGrants env results results g g := by
  intro reg o o'
  refine ⟨_, _, generate_eq_grantsFor hentry reg g o, generate_eq_grantsFor hentry reg g o', ?_⟩
  exact ((generateValues_alike hfold hrefers o o').map _).flatten

end Rules

/-! ## 2. Two outlines -/

/-- The plain values of the roles that a rule generates from a result, one for each
combination. -/
def heads (env : Env) (source : RoleRule × Result) : List Head :=
  source.1.generateHeads env Order.sorted source.2

/-- What two executions receive from the same rules and results, in turn. -/
inductive Alike (env : Env) :
    List (RoleRule × Result) → List Generated → List Generated → Prop
  | nil : Alike env [] [] []
  | error (err : String) : Alike env [] [.error err] [.error err]
  | roles (source : RoleRule × Result) {l l' : List Head} {parents parents' : List Membership} :
      l.Perm (heads env source) → l'.Perm (heads env source) → parents.Perm parents' →
      Alike env [source] (l.map fun head => .role ⟨head, parents, source.1.config⟩)
        (l'.map fun head => .role ⟨head, parents', source.1.config⟩)
  | grants {l l' : List Grant} : l.Perm l' → Alike env [] (l.map .grant) (l'.map .grant)
  | append {sources sources' : List (RoleRule × Result)} {a b a' b' : List Generated} :
      Alike env sources a a' → Alike env sources' b b' →
      Alike env (sources ++ sources') (a ++ b) (a' ++ b')

/-- The rule gives the name to a role of the result. -/
def gives (env : Env) (n : String) (source : RoleRule × Result) : Bool :=
  (heads env source).any fun head => head.name == n

section Alike
variable {env : Env} {ctx : Setting} {sources : List (RoleRule × Result)} {a a' : List Generated}

theorem Alike.symm (h : Alike env sources a a') : Alike env sources a' a := by
  induction h with
  | nil => exact .nil
  | error err => exact .error err
  | roles source hl hl' hparents => exact .roles source hl' hl hparents.symm
  | grants hl => exact .grants hl.symm
  | append _ _ ih ih' => exact .append ih ih'

theorem Alike.exists_role (h : Alike env sources a a') {d : Definition} (hd : .role d ∈ a) :
    ∃ d', .role d' ∈ a' ∧ d'.head = d.head ∧ d'.parents.Perm d.parents := by
  induction h with
  | nil => cases hd
  | error err => cases List.mem_singleton.mp hd
  | roles source hl hl' hparents =>
    obtain ⟨head, hhead, heq⟩ := List.mem_map.mp hd
    cases heq
    exact ⟨_, List.mem_map_of_mem (hl'.mem_iff.mpr (hl.mem_iff.mp hhead)), rfl, hparents.symm⟩
  | grants hl =>
    obtain ⟨g, _, heq⟩ := List.mem_map.mp hd
    cases heq
  | append _ _ ih ih' =>
    rcases List.mem_append.mp hd with hd | hd
    · obtain ⟨d', hd', hsame⟩ := ih hd
      exact ⟨d', List.mem_append_left _ hd', hsame⟩
    · obtain ⟨d', hd', hsame⟩ := ih' hd
      exact ⟨d', List.mem_append_right _ hd', hsame⟩

theorem Alike.defined (h : Alike env sources a a') (hn : Defined ctx a n) : Defined ctx a' n := by
  obtain ⟨hkept, d, hd, hname⟩ := hn
  obtain ⟨d', hd', hhead, _⟩ := h.exists_role hd
  exact ⟨hkept, d', hd', by rw [hhead, hname]⟩

theorem meets_append {P : List Generated → Generated → Prop} (a b : List Generated) :
    Meets P (a ++ b) ↔ Meets P a ∨ Meets (fun before => P (a ++ before)) b := by
  induction b using List.reverseRecOn with
  | nil => simp [meets_nil]
  | append_singleton b x ih => rw [← List.append_assoc, meets_snoc, meets_snoc, ih, or_assoc]

theorem defined_append {p l : List Generated} :
    Defined ctx (p ++ l) n ↔ Defined ctx p n ∨ Defined ctx l n := by
  simp only [Defined, List.mem_append, or_and_right, exists_or, and_or_left]

theorem mem_of_meets {g : Grant} {p : List Generated}
    (h : Meets (fun before => Accepted ctx g (p ++ before)) a) : .grant g ∈ a := by
  obtain ⟨before, x, later, rfl, rfl, _⟩ := h
  simp

/-- A grant is accepted after the roles of the one execution as after those of the other. -/
theorem Alike.meets (h : Alike env sources a a') {g : Grant} {p p' : List Generated}
    (hp : Defined ctx p g.grantee → Defined ctx p' g.grantee)
    (hmeets : Meets (fun before => Accepted ctx g (p ++ before)) a) :
    Meets (fun before => Accepted ctx g (p' ++ before)) a' := by
  induction h generalizing p p' with
  | nil => exact absurd hmeets meets_nil
  | error err => cases List.mem_singleton.mp (mem_of_meets hmeets)
  | roles source hl hl' hparents =>
    obtain ⟨head, _, heq⟩ := List.mem_map.mp (mem_of_meets hmeets)
    cases heq
  | @grants l l' hl =>
    obtain ⟨g', hg', heq⟩ := List.mem_map.mp (mem_of_meets hmeets)
    cases heq
    obtain ⟨l₁, l₂, rfl⟩ := List.append_of_mem (hl.mem_iff.mp hg')
    obtain ⟨before, x, later, hout, _, hlisted, hdefined⟩ := hmeets
    refine ⟨l₁.map .grant, .grant g, l₂.map .grant, by simp, rfl, hlisted, ?_⟩
    refine defined_append.mpr (.inl (hp ((defined_append.mp hdefined).resolve_right ?_)))
    -- there is no role among the grants sent before it
    intro ⟨_, d, hd, _⟩
    have hmem : .role d ∈ l.map Generated.grant := hout ▸ List.mem_append_left _ hd
    obtain ⟨g', _, heq⟩ := List.mem_map.mp hmem
    cases heq
  | @append _ _ a b a' b' ha _ ih ih' =>
    rcases (meets_append a b).mp hmeets with hmeets | hmeets
    · exact (meets_append a' b').mpr (.inl (ih hp hmeets))
    · simp only [← List.append_assoc] at hmeets
      have hroles : Defined ctx (p ++ a) g.grantee → Defined ctx (p' ++ a') g.grantee := fun hn =>
        defined_append.mpr ((defined_append.mp hn).imp hp ha.defined)
      have hrest := ih' hroles hmeets
      simp only [List.append_assoc] at hrest
      exact (meets_append a' b').mpr (.inr hrest)

/-- What `MatchString` panics on. -/
def Generated.panics (ctx : Setting) : Generated → Bool
  | .error _ => false
  | .role d => Event.panics ctx (.sent (.role false d.head d.config))
  | .grant g => Event.panics ctx (.grant g)

theorem panics_outlineFrom (events : List Event) : ∀ p,
    (outlineFrom p events).any (Generated.panics ctx) = events.any (Event.panics ctx) := by
  induction events with
  | nil => exact fun _ => rfl
  | cons e events ih =>
    intro p
    cases e with
    | searchError err => exact ih p
    | grant g => exact congrArg (Event.panics ctx (.grant g) || ·) (ih p)
    | sent s =>
      cases s with
      | parents l => exact ih l
      | role copied head config =>
        exact congrArg (Event.panics ctx (.sent (.role copied head config)) || ·) (ih p)

theorem Alike.panics (h : Alike env sources a a') :
    a.any (Generated.panics ctx) = a'.any (Generated.panics ctx) := by
  induction h with
  | nil => rfl
  | error err => rfl
  | roles source hl hl' _ =>
    rw [List.any_map, List.any_map]
    exact (hl.trans hl'.symm).any_eq
  | grants hl =>
    rw [List.any_map, List.any_map]
    exact hl.any_eq
  | append _ _ ih ih' => rw [List.any_append, List.any_append, ih, ih']

theorem panics_alike {events' : List Event}
    (h : Alike env sources (outline events) (outline events')) :
    events.any (Event.panics ctx) = events'.any (Event.panics ctx) := by
  rw [← panics_outlineFrom events [], ← panics_outlineFrom events' []]
  exact h.panics

/-- The first definition of a name comes from the first source that gives it. -/
theorem Alike.first (h : Alike env sources a a') (n : String) :
    Option.Rel (fun d source => d.head ∈ heads env source)
      ((a.filterMap Generated.role?).find? fun d => d.head.name == n) (sources.find? (gives env n)) := by
  induction h with
  | nil => exact .none
  | error err => exact .none
  | @roles source l l' parents parents' hl hl' hparents =>
    have hroles : (l.map fun head => Generated.role ⟨head, parents, source.1.config⟩).filterMap
        Generated.role? = l.map fun head => ⟨head, parents, source.1.config⟩ := by
      rw [List.filterMap_map, ← List.filterMap_eq_map]
      rfl
    rw [hroles]
    cases hgives : gives env n source with
    | false =>
      have hnone : ∀ head ∈ l, head.name ≠ n := fun head hhead hname => by
        have hyes : gives env n source = true :=
          List.any_eq_true.mpr ⟨head, hl.mem_iff.mp hhead, by simpa using hname⟩
        rw [hgives] at hyes
        cases hyes
      rw [List.find?_singleton, hgives, List.find?_eq_none.mpr (by simpa using hnone)]
      exact .none
    | true =>
      obtain ⟨head, hhead, hname⟩ := List.any_eq_true.mp hgives
      cases hfind : (l.map fun head => (⟨head, parents, source.1.config⟩ : Definition)).find?
          fun d => d.head.name == n with
      | none =>
        refine absurd hname (List.find?_eq_none.mp hfind ⟨head, parents, source.1.config⟩ ?_)
        exact List.mem_map_of_mem (hl.mem_iff.mpr hhead)
      | some d =>
        obtain ⟨head', hhead', rfl⟩ := List.mem_map.mp (List.mem_of_find?_eq_some hfind)
        rw [List.find?_singleton, hgives]
        exact .some (hl.mem_iff.mp hhead')
  | @grants l l' hl =>
    have hroles : (l.map Generated.grant).filterMap Generated.role? = [] := by
      simp [List.filterMap_map, Function.comp_def, Generated.role?]
    rw [hroles]
    exact .none
  | append _ _ ih ih' =>
    rw [List.filterMap_append, List.find?_append, List.find?_append]
    generalize List.find? _ (List.filterMap _ _) = x at ih ⊢
    generalize List.find? _ _ = y at ih ⊢
    cases ih with
    | none => exact ih'
    | some h => exact .some h

end Alike

/-! ## 3. The events of two executions -/

/-- The sub-searches of the step start from one attribute, to which its formats refer
properly. -/
structure Regular (env : Env) (s : Step) : Prop where
  order : ∀ o, s.ldapSearch.subsearchAttribute o = fkey s
  refers : fkey s ≠ "" → ∀ fmts ∈ formatGroups s, Referring env (fkey s) (expressionsOf fmts)

def resultSources (s : Step) : Except String Result → List (RoleRule × Result)
  | .error _ => []
  | .ok results => s.roleRules.map fun r => (r, results)

/-- The role rules of a step with each result of its searches, in turn. -/
def stepSources (env : Env) (ldapc : Directory) (s : Step) : List (RoleRule × Result) :=
  (s.search env Order.sorted ldapc).flatMap (resultSources s)

/-- The role rules and the results that they are applied to in a run, in turn. -/
def sources (env : Env) (ldapc : Directory) (m : Rules) : List (RoleRule × Result) :=
  (numbered Step.hasLDAPSearch 0 m).flatMap fun is => stepSources env (ldapc.sub is.1) is.2

section Events
variable {env : Env} {reg : Registry} {o : Order} {ldapc : Directory} {s : Step} {results : Result}

theorem search_sorted (h : Regular env s) (o : Order) :
    s.search env o ldapc = s.search env Order.sorted ldapc := by
  simp only [Step.search, h.order]

/-- A result has no entry at all, or one that was searched with the sub-search attribute. -/
theorem result_cases (h : Regular env s) (hresults : .ok results ∈ s.search env o ldapc) :
    results = {} ∨ ∃ entry, results.entry = some entry ∧ results.subsearchAttribute = fkey s := by
  unfold Step.search at hresults
  split at hresults
  · exact .inl (Except.ok.inj (List.mem_singleton.mp hresults))
  · split at hresults
    · cases List.mem_singleton.mp hresults
    · simp only [h.order] at hresults
      obtain ⟨ei, _, hresults⟩ := List.mem_flatMap.mp hresults
      split at hresults
      case isTrue hnone =>
        cases List.mem_singleton.mp hresults
        exact .inr ⟨ei.1, rfl, hnone.symm⟩
      case isFalse =>
        obtain ⟨bj, _, heq⟩ := List.mem_map.mp hresults
        split at heq
        · cases heq
        · cases heq
          exact .inr ⟨ei.1, rfl, rfl⟩

/-- The loops of two executions, turn by turn. -/
theorem mapM_alike {α β : Type} {f f' : α → Except Panic β} {g : β → List Generated}
    {source : α → List (RoleRule × Result)} {l : List α} {out : List β} (h : l.mapM f = .ok out)
    (hbody : ∀ a ∈ l, ∀ b, f a = .ok b → ∃ b', f' a = .ok b' ∧ Alike env (source a) (g b) (g b')) :
    ∃ out', l.mapM f' = .ok out' ∧ Alike env (l.flatMap source) (out.flatMap g) (out'.flatMap g) := by
  refine exists_mapM_rel (P := fun a b b' => Alike env (source a) (g b) (g b'))
    (R := fun l out out' => Alike env (l.flatMap source) (out.flatMap g) (out'.flatMap g))
    .nil (fun hfirst hrest => ?_) h hbody
  exact .append hfirst hrest

theorem outline_generate {r : RoleRule} {sent : List Sent} (h : r.generate env o results = .ok sent) :
    ∃ parents, r.generateParents env (o.sub 0) results = .ok parents ∧
      outline (sent.map .sent) = (r.generateHeads env (o.sub 1) results).map fun head =>
        .role ⟨head, parents, r.config⟩ := by
  obtain ⟨parents, hparents, h⟩ := bind_eq_ok.mp h
  cases h
  refine ⟨parents, hparents, ?_⟩
  show outlineFrom parents (((r.generateHeads env (o.sub 1) results).map _).map _) = _
  induction r.generateHeads env (o.sub 1) results with
  | nil => rfl
  | cons head l ih => exact congrArg (Generated.role ⟨head, parents, r.config⟩ :: ·) ih

/-- What a rule generates from a result in two executions. -/
theorem rule_alike (hfold : Folds env) (h : Regular env s)
    (hresults : .ok results ∈ s.search env o ldapc) {r : RoleRule} (hr : r ∈ s.roleRules)
    {sent : List Sent} (hsent : r.generate env o₁ results = .ok sent) (o₂ : Order) :
    ∃ sent', r.generate env o₂ results = .ok sent' ∧
      Alike env [(r, results)] (outline (sent.map .sent)) (outline (sent'.map .sent)) := by
  obtain ⟨parents, hparents, hout⟩ := outline_generate hsent
  obtain ⟨parents', hparents', hperm, hheads⟩ : ∃ parents',
      r.generateParents env (o₂.sub 0) results = .ok parents' ∧ parents.Perm parents' ∧
        ∀ o, (r.generateHeads env o results).Perm (heads env (r, results)) := by
    rcases result_cases h hresults with rfl | ⟨entry, hentry, hkey⟩
    · exact ⟨parents, hparents, .refl _, fun _ => .refl _⟩
    · have hhead : results.subsearchAttribute ≠ "" →
          Referring env results.subsearchAttribute (expressionsOf (headFormats r)) := by
        rw [hkey]
        exact fun hsub => h.refers hsub _
          (List.mem_append_left _ (List.mem_flatMap.mpr ⟨r, hr, List.mem_cons_self⟩))
      have hrefers : ∀ m ∈ r.parents, results.subsearchAttribute ≠ "" →
          Referring env results.subsearchAttribute (expressionsOf [m]) := by
        intro m hm
        rw [hkey]
        exact fun hsub => h.refers hsub _ (List.mem_append_left _ (List.mem_flatMap.mpr
          ⟨r, hr, List.mem_cons_of_mem _ (List.mem_map.mpr ⟨m, hm, rfl⟩)⟩))
      have hsame := role_alike hfold hentry hhead hrefers
      obtain ⟨l, l', hl, hl', hperm⟩ := hsame.parents (o₁.sub 0) (o₂.sub 0)
      cases hparents.symm.trans hl
      exact ⟨l', hl', hperm, fun o => hsame.heads o Order.sorted⟩
  have hsent' : r.generate env o₂ results = .ok (.parents parents' ::
      (r.generateHeads env (o₂.sub 1) results).map fun head =>
        .role results.entry.isSome head r.config) := by
    rw [RoleRule.generate, hparents']
    rfl
  obtain ⟨parents₂, hparents₂, hout'⟩ := outline_generate hsent'
  cases hparents'.symm.trans hparents₂
  refine ⟨_, hsent', ?_⟩
  rw [hout, hout']
  exact .roles (r, results) (hheads _) (hheads _) hperm

theorem grantRule_alike (hfold : Folds env) (h : Regular env s)
    (hresults : .ok results ∈ s.search env o ldapc) {g : GrantRule} (hg : g ∈ s.grantRules)
    {l : List Grant} (hl : g.generate env reg o₁ results = .ok l) (o₂ : Order) :
    ∃ l', g.generate env reg o₂ results = .ok l' ∧
      Alike env [] (l.map .grant) (l'.map .grant) := by
  rcases result_cases h hresults with rfl | ⟨entry, hentry, hkey⟩
  · exact ⟨l, hl, .grants (.refl _)⟩
  · have hrefers : results.subsearchAttribute ≠ "" →
        Referring env results.subsearchAttribute (expressionsOf g.formats) := by
      rw [hkey]
      exact fun hsub => h.refers hsub _ (List.mem_append_right _ (List.mem_map_of_mem hg))
    obtain ⟨l₁, l₂, hl₁, hl₂, hperm⟩ := grants_alike hfold hentry hrefers reg o₁ o₂
    cases hl.symm.trans hl₁
    exact ⟨l₂, hl₂, .grants hperm⟩

/-- What the rules of a step generate from a result. -/
theorem resultEvents_alike (hfold : Folds env) (h : Regular env s) {x : Except String Result}
    {j : Nat} (hx : x ∈ s.search env o ldapc)
    (hevents : s.resultEvents env reg o₁ (x, j) = .ok events) (o₂ : Order) :
    ∃ events', s.resultEvents env reg o₂ (x, j) = .ok events' ∧
      Alike env (resultSources s x) (outline events) (outline events') := by
  cases x with
  | error err =>
    cases hevents
    exact ⟨_, rfl, .error err⟩
  | ok results =>
    obtain ⟨_, roles, grants, hroles, hgrants, hout⟩ := outline_resultEvents hevents
    have hrole : ∀ ir ∈ numbered (fun r => !r.isStatic) 0 s.roleRules, ∀ sent,
        ir.2.generate env (((o₁.sub 1).sub j).sub ir.1) results = .ok sent →
        ∃ sent', ir.2.generate env (((o₂.sub 1).sub j).sub ir.1) results = .ok sent' ∧
          Alike env [(ir.2, results)] (outline (sent.map .sent)) (outline (sent'.map .sent)) :=
      fun ir hir sent hsent => rule_alike hfold h hx (mem_of_mem_numbered hir) hsent _
    have hgrant : ∀ ir ∈ numbered (fun r => !r.isStatic) 0 s.grantRules, ∀ l,
        ir.2.generate env reg (((o₁.sub 2).sub j).sub ir.1) results = .ok l →
        ∃ l', ir.2.generate env reg (((o₂.sub 2).sub j).sub ir.1) results = .ok l' ∧
          Alike env [] (l.map .grant) (l'.map .grant) :=
      fun ir hir l hl => grantRule_alike hfold h hx (mem_of_mem_numbered hir) hl _
    obtain ⟨roles', hroles', hrolesAlike⟩ := mapM_alike hroles hrole
    obtain ⟨grants', hgrants', hgrantsAlike⟩ := mapM_alike hgrants hgrant
    have hevents' : s.resultEvents env reg o₂ (.ok results, j) =
        .ok (roles'.flatten.map .sent ++ grants'.flatten.map .grant) := by
      rw [Step.resultEvents, Step.generateRoles, Step.generateGrants, hroles', hgrants']
      rfl
    obtain ⟨_, roles₂, grants₂, hroles₂, hgrants₂, hout'⟩ := outline_resultEvents hevents'
    cases hroles'.symm.trans hroles₂
    cases hgrants'.symm.trans hgrants₂
    refine ⟨_, hevents', ?_⟩
    rw [hout, hout']
    have hsources : (numbered (fun r => !r.isStatic) 0 s.roleRules).flatMap
        (fun ir => [(ir.2, results)]) = resultSources s (.ok results) := by
      rw [resultSources, ← List.map_eq_flatMap]
      nth_rewrite 2 [← numbered_map_snd (fun r => !r.isStatic) s.roleRules 0]
      rw [List.map_map]
      rfl
    have hnone : (numbered (fun r => !r.isStatic) 0 s.grantRules).flatMap
        (fun _ => ([] : List (RoleRule × Result))) = [] := by simp
    rw [hsources] at hrolesAlike
    rw [hnone] at hgrantsAlike
    exact List.append_nil (resultSources s (.ok results)) ▸ hrolesAlike.append hgrantsAlike

theorem step_alike (hfold : Folds env) (h : Regular env s)
    (hevents : s.events env reg o₁ ldapc = .ok events) (o₂ : Order) :
    ∃ events', s.events env reg o₂ ldapc = .ok events' ∧
      Alike env (stepSources env ldapc s) (outline events) (outline events') := by
  obtain ⟨_, chunks, hchunks, hout⟩ := outline_events hevents
  rw [search_sorted h] at hchunks
  have hbody : ∀ xj ∈ (s.search env Order.sorted ldapc).zipIdx, ∀ l,
      s.resultEvents env reg o₁ xj = .ok l → ∃ l', s.resultEvents env reg o₂ xj = .ok l' ∧
        Alike env (resultSources s xj.1) (outline l) (outline l') :=
    fun xj hxj l hl => resultEvents_alike hfold h (List.fst_mem_of_mem_zipIdx hxj) hl o₂
  obtain ⟨chunks', hchunks', halike⟩ := mapM_alike hchunks hbody
  rw [← search_sorted h (o₂.sub 0)] at hchunks'
  have hevents' : s.events env reg o₂ ldapc = .ok chunks'.flatten :=
    bind_eq_ok.mpr ⟨chunks', hchunks', rfl⟩
  obtain ⟨_, chunks₂, hchunks₂, hout'⟩ := outline_events hevents'
  cases hchunks'.symm.trans hchunks₂
  refine ⟨_, hevents', ?_⟩
  rw [hout, hout', stepSources, ← flatMap_zipIdx_fst]
  exact halike

/-- **Two executions receive alike**, and one returns if the other does. -/
theorem events_alike (hfold : Folds env) {m : Rules} (h : ∀ s ∈ m, Regular env s)
    (hevents : m.events env reg o₁ ldapc = .ok events) (o₂ : Order) :
    ∃ events', m.events env reg o₂ ldapc = .ok events' ∧
      Alike env (sources env ldapc m) (outline events) (outline events') := by
  obtain ⟨chunks, hchunks, hflat⟩ := bind_eq_ok.mp hevents
  cases hflat
  have hbody : ∀ is ∈ numbered Step.hasLDAPSearch 0 m, ∀ l,
      is.2.events env reg (o₁.sub is.1) (ldapc.sub is.1) = .ok l →
      ∃ l', is.2.events env reg (o₂.sub is.1) (ldapc.sub is.1) = .ok l' ∧
        Alike env (stepSources env (ldapc.sub is.1) is.2) (outline l) (outline l') :=
    fun is his l hl => step_alike hfold (h is.2 (mem_of_mem_numbered his)) hl _
  obtain ⟨chunks', hchunks', halike⟩ := mapM_alike hchunks hbody
  obtain ⟨_, hout⟩ := events_of_chunks hchunks
  obtain ⟨hevents', hout'⟩ := events_of_chunks hchunks'
  refine ⟨_, hevents', ?_⟩
  rw [hout, hout']
  exact halike

end Events

/-! ## 4. What two executions return -/

/-- The combinations with this name give the same comment and hooks, in the first rule and
result that give the name. -/
def Settled (env : Env) (ldapc : Directory) (m : Rules) (n : String) : Prop :=
  ∀ source, (sources env ldapc m).find? (gives env n) = some source →
    ∀ head ∈ heads env source, ∀ head' ∈ heads env source, head.name = n → head'.name = n →
      head'.comment = head.comment ∧ head'.beforeCreate = head.beforeCreate ∧
        head'.afterCreate = head.afterCreate

/-- The same role names, with the same options, and the same grants. Comments and hooks are
the same where all combinations agree. -/
structure SameWanted (env : Env) (ldapc : Directory) (m : Rules) (out out' : Outcome) : Prop where
  roles : ∀ n, n ∈ out.roles ↔ n ∈ out'.roles
  options : ∀ (n : String) (r r' : Role), out.roles[n]? = some r → out'.roles[n]? = some r' →
    r'.options = r.options
  texts : ∀ (n : String) (r r' : Role), out.roles[n]? = some r → out'.roles[n]? = some r' →
    Settled env ldapc m n → r'.comment = r.comment ∧ r'.beforeCreate = r.beforeCreate ∧
      r'.afterCreate = r.afterCreate
  grants : ∀ g, Filed out.grants g ↔ Filed out'.grants g

def SameParents (out out' : Outcome) : Prop :=
  ∀ (n : String) (r r' : Role), out.roles[n]? = some r → out'.roles[n]? = some r' →
    ∀ x, x ∈ names r.parents ↔ x ∈ names r'.parents

theorem SameWanted.refl (env : Env) (ldapc : Directory) (m : Rules) (out : Outcome) :
    SameWanted env ldapc m out out := by
  refine ⟨fun _ => .rfl, fun n r r' hr hr' => ?_, fun n r r' hr hr' _ => ?_, fun _ => .rfl⟩
  · cases hr.symm.trans hr'
    rfl
  · cases hr.symm.trans hr'
    exact ⟨rfl, rfl, rfl⟩

theorem SameParents.refl (out : Outcome) : SameParents out out := by
  intro n r r' hr hr' x
  cases hr.symm.trans hr'
  rfl

/-- No merge of the execution writes over the parents of another role. -/
def Undisturbed (env : Env) (reg : Registry) (ctx : Setting) (ldapc : Directory)
    (configs : ConfigRef → Config) (m : Rules) (o : Order) : Prop :=
  ∀ events, m.events env reg (o.sub 0) ldapc = .ok events →
    ∀ before e later, events = before ++ e :: later →
      Parents.Harmless (State.after ctx configs before) e

section Run
variable {env : Env} {reg : Registry} {ctx : Setting} {o o' : Order} {connect : Option String}
  {ldapc : Directory} {configs : ConfigRef → Config} {m : Rules} {events events' : List Event}

theorem options_of_mem_heads {source : RoleRule × Result} {head : Head} (h : head ∈ heads env source) :
    head.options = source.1.options := by
  unfold heads RoleRule.generateHeads at h
  split at h
  · rw [List.mem_singleton.mp h]
  · obtain ⟨values, _, rfl⟩ := List.mem_map.mp h
    rfl

/-- A role of the map has the plain values of one of the combinations of the first source of
its name. -/
theorem head_of_role {out : List Generated} {sources : List (RoleRule × Result)}
    (h : Alike env sources (outline events) out) {r : Role}
    (hr : (State.after ctx configs events).roleMap[n]? = some r) :
    ∃ source, sources.find? (gives env n) = some source ∧ ∃ head ∈ heads env source, head.name = n ∧
      r.options = head.options ∧ r.comment = head.comment ∧ r.beforeCreate = head.beforeCreate ∧
        r.afterCreate = head.afterCreate := by
  rw [State.roleMap_get] at hr
  obtain ⟨ref, href, rfl⟩ := Option.map_eq_some_iff.mp hr
  obtain ⟨d, hd, hhead⟩ := (known_after ctx configs events).first n ref href
  have hfirst := h.first n
  rw [← definitions_eq, hd] at hfirst
  cases hsource : sources.find? (gives env n) with
  | none => rw [hsource] at hfirst; cases hfirst
  | some source =>
    rw [hsource] at hfirst
    cases hfirst with
    | some hmem =>
      refine ⟨source, rfl, d.head, hmem, by simpa using List.find?_some hd, ?_⟩
      rw [← hhead]
      exact ⟨rfl, rfl, rfl, rfl⟩

theorem mem_roleMap : n ∈ (State.after ctx configs events).roleMap ↔
    Defined ctx (outline events) n := by
  have hroles : n ∈ (State.after ctx configs events).roles ↔ Defined ctx (outline events) n := mem_roles_iff
  rw [← hroles, Dict.mem_iff, Dict.mem_iff]
  simp [State.roleMap_get]

theorem same_after (h : Alike env (sources env ldapc m) (outline events) (outline events'))
    (err err' : Option String) : SameWanted env ldapc m
      { roles := (State.after ctx configs events).roleMap
        grants := (State.after ctx configs events).grants, err := err }
      { roles := (State.after ctx configs events').roleMap
        grants := (State.after ctx configs events').grants, err := err' } := by
  refine ⟨fun n => ?_, fun n r r' hr hr' => ?_, fun n r r' hr hr' hsettled => ?_, fun g => ?_⟩
  · show n ∈ (State.after ctx configs events).roleMap ↔ n ∈ (State.after ctx configs events').roleMap
    rw [mem_roleMap, mem_roleMap]
    exact ⟨h.defined, h.symm.defined⟩
  · obtain ⟨source, hsource, head, hhead, _, hoptions, _⟩ := head_of_role h hr
    obtain ⟨source', hsource', head', hhead', _, hoptions', _⟩ := head_of_role h.symm hr'
    cases hsource.symm.trans hsource'
    rw [hoptions, hoptions', options_of_mem_heads hhead, options_of_mem_heads hhead']
  · obtain ⟨source, hsource, head, hhead, hname, _, hcomment, hbefore, hafter⟩ := head_of_role h hr
    obtain ⟨source', hsource', head', hhead', hname', _, hcomment', hbefore', hafter'⟩ :=
      head_of_role h.symm hr'
    cases hsource.symm.trans hsource'
    rw [hcomment, hcomment', hbefore, hbefore', hafter, hafter']
    exact hsettled source hsource head hhead head' hhead' hname hname'
  · show Filed (State.after ctx configs events).grants g ↔ Filed (State.after ctx configs events').grants g
    rw [(after_outline ctx configs events).1, (after_outline ctx configs events').1]
    have hnone : Defined ctx [] g.grantee → Defined ctx [] g.grantee := id
    exact ⟨h.meets hnone, h.symm.meets hnone⟩

theorem Alike.parents {sources : List (RoleRule × Result)}
    (h : Alike env sources (outline events) (outline events')) {x : String}
    (hx : ∃ d ∈ definitions events, d.head.name = n ∧ x ∈ names d.parents) :
    ∃ d ∈ definitions events', d.head.name = n ∧ x ∈ names d.parents := by
  obtain ⟨d, hd, hname, hx⟩ := hx
  obtain ⟨d', hd', hhead, hparents⟩ := h.exists_role (mem_definitions.mp hd)
  exact ⟨d', mem_definitions.mpr hd', by rw [hhead, hname], (hparents.map _).mem_iff.mpr hx⟩

/-- Parents that no merge writes over are those of the definitions. -/
theorem Undisturbed.exact (h : Undisturbed env reg ctx ldapc configs m o)
    (hevents : m.events env reg (o.sub 0) ldapc = .ok events) :
    Parents.Exact events (State.after ctx configs events) :=
  (Parents.exact_iff_harmless ctx configs events).mpr (h events hevents) events []
    (List.append_nil events).symm

theorem regular_of_load {items : List Item} {o₀ : Order} (hload : load o₀ items = .ok m)
    (hrefers : ∀ s ∈ m, fkey s ≠ "" →
      ∀ fmts ∈ formatGroups s, Referring env (fkey s) (expressionsOf fmts)) :
    ∀ s ∈ m, Regular env s := by
  obtain ⟨loaded, hloaded, hsplit⟩ := bind_eq_ok.mp hload
  cases hsplit
  intro s hs
  refine ⟨fun o => ?_, hrefers s hs⟩
  obtain ⟨t, ht, hst⟩ := List.mem_flatMap.mp hs
  obtain ⟨ii, _, hitem⟩ := mem_of_mapM_ok hloaded ht
  have horder := (loadSpec_of_load hitem).order o
  rcases t.splitStaticItems_cases with ⟨hwhole, _⟩ | hcut
  · rw [hwhole] at hst
    rw [List.mem_singleton.mp hst]
    exact horder
  · rw [hcut] at hst
    rcases List.mem_pair.mp hst with rfl | rfl
    · exact horder
    · show (o.range (∅ : Dict Subsearch).keys).headD "" = fkey t.staticPart
      rw [show (∅ : Dict Subsearch).keys = [] from rfl, Order.range_nil]
      rfl

/-- **Iteration orders decide which combination comes first, and nothing else.** Of a loaded
configuration whose formats refer to the sub-search attribute, where there is one, by its name and
a dot, and this is an attribute of the entry, two executions that
range over maps and sets in other orders both return if one does. They return the same
role names with the same options, and the same grants; the same comment and hooks for the
roles on which all combinations agree; and the same parents, as long as no merge writes
over the parents of another role. -/
theorem orders_alike (hfold : Folds env) {items : List Item} {o₀ : Order} (hload : load o₀ items = .ok m)
    (hrefers : ∀ s ∈ m, fkey s ≠ "" →
      ∀ fmts ∈ formatGroups s, Referring env (fkey s) (expressionsOf fmts))
    {out : Outcome} (hrun : m.run env reg ctx o connect ldapc configs = .ok out) (o' : Order) :
    ∃ out', m.run env reg ctx o' connect ldapc configs = .ok out' ∧
      SameWanted env ldapc m out out' ∧
      (Undisturbed env reg ctx ldapc configs m o → Undisturbed env reg ctx ldapc configs m o' →
        SameParents out out') := by
  cases hconnect : if m.hasLDAPSearches then connect else none with
  | some err =>
    unfold Rules.run at hrun ⊢
    rw [hconnect] at hrun ⊢
    cases hrun
    exact ⟨_, rfl, .refl env ldapc m _, fun _ _ => .refl _⟩
  | none =>
    obtain ⟨events, checkErr, hevents, hgood, _, rfl⟩ := run_eq_ok hrun hconnect
    obtain ⟨events', hevents', halike⟩ :=
      events_alike hfold (regular_of_load hload hrefers) hevents (o'.sub 0)
    obtain ⟨checkErr', hrun'⟩ := Rules.run_of_events configs hconnect hevents'
      ((panics_alike halike).symm.trans hgood)
    refine ⟨_, hrun', same_after halike _ _, fun hpar hpar' n r r' hr hr' x => ?_⟩
    rw [hpar.exact hevents n r hr x, hpar'.exact hevents' n r' hr' x]
    exact ⟨halike.parents, halike.symm.parents⟩

end Run

/-! ## 5. People with two addresses -/

section Sample
open Ldap.Sample Sample

/-- Every map and set backwards. -/
def backwards : Order := ⟨fun _ l => l.reverse, fun _ l => l.reverse_perm⟩

def membersItem : Item where
  roleRules := [{ roleRule memberField ["people"] with comment := literal "a member" }]

/-- A role for each member, whatever the order. -/
theorem members_in_any_order : ∃ rules out out', load Order.sorted [membersItem] = .ok rules ∧
    rules.run env noPrivileges noBlacklist Order.sorted none (fun _ _ => .ok [group]) (fun _ => ∅) =
      .ok out ∧
    rules.run env noPrivileges noBlacklist backwards none (fun _ _ => .ok [group]) (fun _ => ∅) =
      .ok out' ∧
    "bob" ∈ out'.roles ∧ SameWanted env (fun _ _ => .ok [group]) rules out out' := by
  obtain ⟨rules, hload⟩ : ∃ rules, load Order.sorted [membersItem] = .ok rules := ⟨_, rfl⟩
  obtain ⟨out, hrun, hbob⟩ : ∃ out, rules.run env noPrivileges noBlacklist Order.sorted none
      (fun _ _ => .ok [group]) (fun _ => ∅) = .ok out ∧ "bob" ∈ out.roles := by
    cases hload
    exact ⟨_, rfl, by decide⟩
  have hfold : Folds env := ⟨fun s => beq_self_eq_true s, fun s h => (eq_of_beq h).symm⟩
  have hnone : ∀ s ∈ rules, fkey s = "" := by
    cases hload
    decide +kernel
  obtain ⟨out', hrun', hsame, _⟩ := orders_alike hfold hload (fun s hs hsub => absurd (hnone s hs) hsub)
    hrun backwards
  exact ⟨rules, out, out', hload, hrun, hrun', (hsame.roles "bob").mp hbob, hsame⟩

def loginField : Format := ⟨"\x7bmember.login\x7d", [.field { fieldName := "member.login" }]⟩

/-- A role for each login, with an address for comment. -/
def addressItem : Item where
  roleRules := [{ roleRule loginField [] with comment := mailField }]

/-- The only member of the team has two addresses. -/
def addresses : Directory := fun site _ =>
  if site = [0, 0] then .ok [⟨"cn=team", [("member", ["cn=alice"])]⟩]
  else .ok [⟨"cn=alice", [("login", ["alice"]), ("mail", ["alice@acme", "alice@home"])]⟩]

/-- The comment of the role depends on the order of the keys of the sub-search values. -/
theorem comment_flips : ∃ rules out out' r r', load Order.sorted [addressItem] = .ok rules ∧
    rules.run env noPrivileges noBlacklist Order.sorted none addresses (fun _ => ∅) = .ok out ∧
    rules.run env noPrivileges noBlacklist backwards none addresses (fun _ => ∅) = .ok out' ∧
    out.roles["alice"]? = some r ∧ out'.roles["alice"]? = some r' ∧ r.comment ≠ r'.comment := by
  obtain ⟨rules, hload⟩ : ∃ rules, load Order.sorted [addressItem] = .ok rules := ⟨_, rfl⟩
  obtain ⟨out, hrun, hr⟩ : ∃ out, rules.run env noPrivileges noBlacklist Order.sorted none addresses
      (fun _ => ∅) = .ok out ∧ out.roles["alice"]?.map (·.comment) = some "alice@acme" := by
    cases hload
    exact ⟨_, rfl, by decide +kernel⟩
  obtain ⟨out', hrun', hr'⟩ : ∃ out, rules.run env noPrivileges noBlacklist backwards none addresses
      (fun _ => ∅) = .ok out ∧ out.roles["alice"]?.map (·.comment) = some "alice@home" := by
    cases hload
    exact ⟨_, rfl, by decide +kernel⟩
  obtain ⟨r, hr, hcomment⟩ := Option.map_eq_some_iff.mp hr
  obtain ⟨r', hr', hcomment'⟩ := Option.map_eq_some_iff.mp hr'
  refine ⟨rules, out, out', r, r', hload, hrun, hrun', hr, hr', ?_⟩
  rw [hcomment, hcomment']
  decide

end Sample

end Ldap2pg.Wanted.Orders
