import Ldap2pg.Ldap.Correlated
import Ldap2pg.Wanted.Count
import Ldap2pg.Wanted.Split

/-! # Expressions that cannot be resolved

An expression on a DN that cannot be parsed, or that has no RDN of the requested type,
is logged and counts for the empty text. The combination it belongs to goes on. It leaves
no trace in what `Run` returns if it makes a role whose name has nothing else. -/
namespace Ldap2pg.Wanted.Unresolved
open Lib Pyfmt Ldap Ldap.Correlated Privileges Roles
open Ldap2pg.Lists Wanted.Count Wanted.Split

variable {values : Values} {e : String}

/-! ## 1. What cannot be resolved -/

/-- In the entry that `values` were chosen from: an RDN of the DN of the entry, or an
RDN of the chosen value. -/
def UnresolvedIn (env : Env) (entry : Entry) (values : Values) (expr : String) : Prop :=
  match cut '.' expr with
  | (attr, field, true) => resolveFirstRDN env (values[attr]?.getD "") field = none
  | (attr, _, false) => env.toLower attr ≠ "dn" ∧ env.toLower attr ∈ env.knownRDNs ∧
      resolveFirstRDN env entry.dn attr = none

/-- The combinations of the sub-entries. -/
def subCombinations (env : Env) (o : Order) (r : Result) (expressions : List String)
    (subEntry : Entry) : List Values :=
  generateCombinations env subEntry ""
    (listVariables o (subExpressions r.subsearchAttribute expressions)) []

/-- In the entry, or after the dot in the sub-entry that was chosen. -/
def UnresolvedBy (env : Env) (o : Order) (r : Result) (entry : Entry) (expressions : List String)
    (values : Values) (expr : String) : Prop :=
  if refersTo r.subsearchAttribute expr = true then
    ∃ se ∈ r.subsearchEntries.zipIdx,
      ∃ vj ∈ (subCombinations env o r expressions se.1).zipIdx,
        values[r.subsearchAttribute]? = some (subKey se.2 vj.2) ∧
          UnresolvedIn env se.1 vj.1 (cut '.' expr).2.1
  else UnresolvedIn env entry values expr

section Values
variable {env : Env} {o : Order} {r : Result} {entry : Entry}

/-- The choices in the sub-entries, by their keys. -/
def subMap (env : Env) (o : Order) (r : Result) (fmts : List Format) : Dict Values :=
  if r.subsearchAttribute ≠ "" then
    r.generateSubsearchValues env (o.sub 2) (listExpressions (o.sub 0) fmts)
  else ∅

/-- The choices that `GenerateValues` goes through. -/
def combinations (env : Env) (o : Order) (r : Result) (entry : Entry) (fmts : List Format) :
    List Values :=
  generateCombinations env entry r.subsearchAttribute
    (listVariables (o.sub 1) (listExpressions (o.sub 0) fmts))
    ((o.sub 3).range (subMap env o r fmts).keys)

/-- The expressions, read off a choice. -/
def resolved (env : Env) (o : Order) (r : Result) (fmts : List Format) (values : Values) : Values :=
  resolveExpressions env r.subsearchAttribute (listExpressions (o.sub 0) fmts) values
    (subMap env o r fmts)

/-- Some expression of the formats cannot be resolved in a choice. -/
def Unresolvable (env : Env) (o : Order) (r : Result) (entry : Entry) (fmts : List Format)
    (values : Values) : Prop :=
  ∃ e ∈ listExpressions (o.sub 0) fmts,
    UnresolvedBy env (o.sub 2) r entry (listExpressions (o.sub 0) fmts) values e

/-- An expression that is not resolved has no value, or the empty one. -/
theorem expressionValue_unresolved {sub : String} {attributes subKeys : List String}
    {subMap : Dict Values}
    (hvalues : values ∈ generateCombinations env entry sub attributes subKeys)
    (hroot : root e ∈ attributes) (hsub : refersTo sub e = false)
    (h : UnresolvedIn env entry values e) :
    (expressionValue env sub values subMap e).getD "" = "" := by
  rw [generateCombinations_eq (List.ne_nil_of_mem hroot)] at hvalues
  rw [root] at hroot
  unfold UnresolvedIn at h
  unfold refersTo root at hsub
  unfold expressionValue
  rcases hcut : cut '.' e with ⟨attr, field, hasField⟩
  rw [hcut] at h hsub hroot
  cases hasField with
  | true =>
    have hne : ¬ attr = sub := by simpa using hsub
    simp only at h
    simp [hne, h]
  | false =>
    simp only at h
    obtain ⟨hdn, hknown, hnone⟩ := h
    obtain ⟨v, hv, hget⟩ := (get_of_mem_choices hvalues attr).1 hroot
    have hempty : v = "" := by simpa [attributeValues, hdn, hknown, hnone] using hv
    simp [hget, hempty]

/-- The sub-entries are read without a sub-search. -/
theorem subExpression_unresolved {attributes : List String}
    (hvalues : values ∈ generateCombinations env entry "" attributes [])
    (hroot : root e ∈ attributes) (h : UnresolvedIn env entry values e) :
    (expressionValue env "" values ∅ e).getD "" = "" := by
  cases hsub : refersTo "" e with
  | false => exact expressionValue_unresolved hvalues hroot hsub h
  | true =>
    obtain ⟨rest, hdot, rfl⟩ := exists_rest hsub
    rw [expressionValue, cut_append_dot hdot]
    simp

/-- **What cannot be resolved counts for the empty text.** -/
theorem resolved_unresolved {fmts : List Format}
    (hvalues : values ∈ combinations env o r entry fmts) (he : e ∈ listExpressions (o.sub 0) fmts)
    (h : UnresolvedBy env (o.sub 2) r entry (listExpressions (o.sub 0) fmts) values e) :
    ((resolved env o r fmts values)[e]?).getD "" = "" := by
  rw [resolved, resolveExpressions_eq, get_valuesOf, if_pos he]
  unfold UnresolvedBy at h
  cases hrefers : refersTo r.subsearchAttribute e with
  | false =>
    rw [hrefers] at h
    exact expressionValue_unresolved hvalues (mem_listVariables.mpr ⟨e, he, rfl⟩) hrefers
      (by simpa using h)
  | true =>
    rw [if_pos hrefers] at h
    obtain ⟨se, hse, vj, hvj, hkey, hin⟩ := h
    obtain ⟨rest, hdot, rfl⟩ := exists_rest hrefers
    rw [cut_append_dot hdot] at hin
    rw [expressionValue, cut_append_dot hdot]
    by_cases hnone : r.subsearchAttribute = ""
    · simp [subMap, hnone]
    · have hrow : (subKey se.2 vj.2, vj.1) ∈ subRows env (o.sub 2) r
          (listExpressions (o.sub 0) fmts) :=
        List.mem_flatMap.mpr ⟨se, hse, List.mem_map_of_mem hvj⟩
      have hget : (r.generateSubsearchValues env (o.sub 2)
          (listExpressions (o.sub 0) fmts))[subKey se.2 vj.2]? = some (resolveExpressions env ""
            (subExpressions r.subsearchAttribute (listExpressions (o.sub 0) fmts)) vj.1 ∅) := by
        rw [generateSubsearchValues_eq]
        exact Dict.get_fill_of_mem subRows_keys hrow
      have hrest : rest ∈ subExpressions r.subsearchAttribute (listExpressions (o.sub 0) fmts) :=
        mem_subExpressions_iff.mpr he
      have hempty := subExpression_unresolved (List.fst_mem_of_mem_zipIdx hvj)
        (mem_listVariables.mpr ⟨rest, hrest, rfl⟩) hin
      simp [subMap, hnone, hkey, hget, resolveExpressions_eq, get_valuesOf, hrest, hempty]

end Values

/-! ## 2. Names that vanish -/

section Vanishes
variable {env : Env} {o : Order} {results : Result} {entry : Entry} {fmts : List Format}
  {values : Values} {f : Format}

/-- The format is made of fields that the choice does not resolve, quoted by no method. -/
def Vanishes (env : Env) (o : Order) (results : Result) (entry : Entry) (fmts : List Format)
    (values : Values) (f : Format) : Prop :=
  ∀ s ∈ f.sections, ∃ x : Field, s = .field x ∧ (x.method = "" ∨ x.method = "lower()") ∧
    UnresolvedBy env (o.sub 2) results entry (listExpressions (o.sub 0) fmts) values x.fieldName

theorem render_eq_empty {u : Strings} {values : Values}
    (h : ∀ s ∈ f.sections, s.render u values = "") : f.render u values = "" := by
  obtain ⟨input, sections⟩ := f
  have h : ∀ s ∈ sections, s.render u values = "" := h
  show sections.foldl _ "" = ""
  induction sections with
  | nil => rfl
  | cons s sections ih =>
    rw [List.foldl_cons, h s List.mem_cons_self]
    exact ih (fun s' hs' => h s' (List.mem_cons_of_mem s hs')) fun s' hs' =>
      h s' (List.mem_cons_of_mem s hs')

theorem Vanishes.render (h : Vanishes env o results entry fmts values f) (hf : f ∈ fmts)
    (hvalues : values ∈ combinations env o results entry fmts) :
    f.render env.toStrings (resolved env o results fmts values) = "" := by
  refine render_eq_empty fun s hs => ?_
  obtain ⟨x, rfl, hmethod, hun⟩ := h s hs
  have hx : x ∈ f.fields := List.mem_filterMap.mpr ⟨_, hs, rfl⟩
  have hempty := resolved_unresolved hvalues (mem_listExpressions.mpr ⟨f, hf, x, hx, rfl⟩) hun
  rw [Section.render, Field.render, hempty]
  rcases hmethod with hmethod | hmethod
  · simp [hmethod]
  · simp [hmethod, env.toLower_letters ""]

/-- Formats with one expression only: a name of bare fields vanishes with it. -/
theorem vanishes_of_single (honly : ∀ f' ∈ fmts, ∀ x ∈ f'.fields, x.fieldName = e) (hf : f ∈ fmts)
    (hbare : ∀ s ∈ f.sections, ∃ x : Field, s = .field x ∧ (x.method = "" ∨ x.method = "lower()"))
    (h : Unresolvable env o results entry fmts values) :
    Vanishes env o results entry fmts values f := by
  intro s hs
  obtain ⟨x, rfl, hmethod⟩ := hbare s hs
  obtain ⟨e', he', hun⟩ := h
  obtain ⟨f', hf', x', hx', rfl⟩ := mem_listExpressions.mp he'
  rw [honly f' hf' x' hx'] at hun
  exact ⟨x, rfl, hmethod, honly f hf x (List.mem_filterMap.mpr ⟨_, hs, rfl⟩) ▸ hun⟩

end Vanishes

/-! ## 3. Where the wanted state comes from -/

/-- What the formats may be filled with: nothing without an entry, otherwise the values of
a choice in which every expression is resolved. -/
def Sound (env : Env) (results : Result) (fmts : List Format) : Option Values → Prop
  | none => results.entry = none
  | some filled => ∃ entry, results.entry = some entry ∧
      ∃ o, ∃ values ∈ combinations env o results entry fmts,
        ¬ Unresolvable env o results entry fmts values ∧ filled = resolved env o results fmts values

/-- The text of a format, the raw one without values. -/
def text (env : Env) (f : Format) : Option Values → String
  | none => f.string
  | some values => f.render env.toStrings values

/-- A search of the step returns the result. -/
def Found (env : Env) (ldapc : Directory) (m : Rules) (s : Step) (results : Result) : Prop :=
  s ∈ m ∧ ∃ i o, .ok results ∈ s.search env o (ldapc.sub i)

/-- A rule gives the name to a role, every expression of the role being resolved. -/
def NamesRole (env : Env) (ldapc : Directory) (m : Rules) (name : String) : Prop :=
  ∃ s results, Found env ldapc m s results ∧ ∃ r ∈ s.roleRules, ∃ values,
    Sound env results (headFormats r) values ∧ name = text env r.name values

/-- A rule gives the name to a parent, every expression of the parent being resolved. -/
def NamesParent (env : Env) (ldapc : Directory) (m : Rules) (name : String) : Prop :=
  ∃ s results, Found env ldapc m s results ∧ ∃ r ∈ s.roleRules, ∃ f ∈ r.parents,
    f.isStatic = true ∧ name = f.string ∨
      ∃ values, Sound env results [f] values ∧ name = text env f values

/-- A rule makes the grant, every expression of the rule being resolved. -/
def Makes (env : Env) (reg : Registry) (ldapc : Directory) (m : Rules) (g : Grant) : Prop :=
  ∃ s results, Found env ldapc m s results ∧ ∃ r ∈ s.grantRules, ∃ values,
    Sound env results r.formats values ∧ ∃ l, r.grants env reg values = .ok l ∧ g ∈ l

/-- What the rules of a step do with a result: a role with something that cannot be
resolved has a name that vanishes, and parents and grants have nothing of the kind. -/
structure Discards (env : Env) (s : Step) (results : Result) : Prop where
  roles : ∀ r ∈ s.roleRules, ∀ entry, results.entry = some entry → ∀ o,
    ∀ values ∈ combinations env o results entry (headFormats r),
      Unresolvable env o results entry (headFormats r) values →
        Vanishes env o results entry (headFormats r) values r.name
  parents : ∀ r ∈ s.roleRules, ∀ f ∈ r.parents, ∀ entry, results.entry = some entry → ∀ o,
    ∀ values ∈ combinations env o results entry [f], ¬ Unresolvable env o results entry [f] values
  grants : ∀ r ∈ s.grantRules, ∀ entry, results.entry = some entry → ∀ o,
    ∀ values ∈ combinations env o results entry r.formats,
      ¬ Unresolvable env o results entry r.formats values

section Rule
variable {env : Env} {reg : Registry} {o : Order} {results : Result} {s : Step}

theorem head_name {r : RoleRule} {head : Head} (h : Discards env s results) (hr : r ∈ s.roleRules)
    (hhead : head ∈ r.generateHeads env o results) (hname : head.name ≠ "") :
    ∃ values, Sound env results (headFormats r) values ∧ head.name = text env r.name values := by
  unfold RoleRule.generateHeads at hhead
  cases hentry : results.entry with
  | none =>
    rw [hentry] at hhead
    exact ⟨none, hentry, by rw [List.mem_singleton.mp hhead]; rfl⟩
  | some entry =>
    rw [hentry] at hhead
    obtain ⟨filled, hfilled, rfl⟩ := List.mem_map.mp hhead
    obtain ⟨values, hvalues, rfl⟩ := List.mem_map.mp hfilled
    have hvalues : values ∈ combinations env o results entry (headFormats r) := hvalues
    refine ⟨some (resolved env o results (headFormats r) values),
      ⟨entry, hentry, o, values, hvalues, fun hun => hname ?_, rfl⟩, rfl⟩
    exact (h.roles r hr entry hentry o values hvalues hun).render List.mem_cons_self hvalues

theorem parent_name {r : RoleRule} {parents : List Membership} (h : Discards env s results)
    (hr : r ∈ s.roleRules) (hparents : r.generateParents env o results = .ok parents)
    {p : Membership} (hp : p ∈ parents) : ∃ f ∈ r.parents, f.isStatic = true ∧ p.name = f.string ∨
      ∃ values, Sound env results [f] values ∧ p.name = text env f values := by
  obtain ⟨lists, hlists, hparents⟩ := bind_eq_ok.mp hparents
  cases hparents
  obtain ⟨l, hl, hp⟩ := List.mem_flatten.mp hp
  obtain ⟨mi, hmi, hparent⟩ := mem_of_mapM_ok hlists hl
  have hf := List.fst_mem_of_mem_zipIdx hmi
  refine ⟨mi.1, hf, ?_⟩
  cases hstatic : mi.1.isStatic with
  | true =>
    rw [generateParent_static hstatic] at hparent
    cases hparent
    exact .inl ⟨rfl, by rw [List.mem_singleton.mp hp]⟩
  | false =>
    cases hentry : results.entry with
    | none =>
      unfold generateParent at hparent
      rw [hentry, format_none_dynamic hstatic] at hparent
      cases hparent
    | some entry =>
      rw [generateParent_dynamic hentry hstatic] at hparent
      cases hparent
      obtain ⟨filled, hfilled, rfl⟩ := List.mem_map.mp hp
      obtain ⟨values, hvalues, rfl⟩ := List.mem_map.mp hfilled
      exact .inr ⟨some _, ⟨entry, hentry, _, values, hvalues,
        h.parents r hr mi.1 hf entry hentry _ values hvalues, rfl⟩, rfl⟩

theorem grant_values {r : GrantRule} {l : List Grant} (h : Discards env s results)
    (hr : r ∈ s.grantRules) (hl : r.generate env reg o results = .ok l) {g : Grant} (hg : g ∈ l) :
    ∃ values, Sound env results r.formats values ∧
      ∃ l, r.grants env reg values = .ok l ∧ g ∈ l := by
  obtain ⟨lists, hlists, hl⟩ := bind_eq_ok.mp hl
  cases hl
  obtain ⟨l, hl, hg⟩ := List.mem_flatten.mp hg
  obtain ⟨values, hvalues, hgrants⟩ := mem_of_mapM_ok hlists hl
  refine ⟨values, ?_, l, hgrants, hg⟩
  unfold GrantRule.vchan at hvalues
  cases hentry : results.entry with
  | none =>
    rw [hentry] at hvalues
    cases List.mem_singleton.mp hvalues
    exact hentry
  | some entry =>
    rw [hentry] at hvalues
    obtain ⟨filled, hfilled, rfl⟩ := List.mem_map.mp hvalues
    obtain ⟨chosen, hchosen, rfl⟩ := List.mem_map.mp hfilled
    exact ⟨entry, hentry, o, chosen, hchosen, h.grants r hr entry hentry o chosen hchosen, rfl⟩

end Rule

section Run
variable {env : Env} {reg : Registry} {ctx : Setting} {o : Order} {ldapc : Directory} {m : Rules}
  {events : List Event}

/-- The rule and the result that an element of the outline comes from. -/
theorem found_of_outline (hevents : m.events env reg o ldapc = .ok events) {x : Generated}
    (hx : x ∈ outline events) : (∃ err, x = .error err) ∨ ∃ s results, Found env ldapc m s results ∧
      ((∃ r ∈ s.roleRules, ∃ (o : Order) (parents : List Membership),
          r.generateParents env (o.sub 0) results = .ok parents ∧
          ∃ head ∈ r.generateHeads env (o.sub 1) results, x = .role ⟨head, parents, r.config⟩) ∨
        ∃ r ∈ s.grantRules, ∃ o l, r.generate env reg o results = .ok l ∧
          ∃ g ∈ l, x = .grant g) := by
  obtain ⟨chunks, hchunks, h⟩ := bind_eq_ok.mp hevents
  cases h
  have hself : ∀ l ∈ chunks, SelfContained l := by
    intro l hl
    obtain ⟨is, _, hstep⟩ := mem_of_mapM_ok hchunks hl
    exact (outline_events hstep).1
  rw [(selfContained_flatten hself).2] at hx
  obtain ⟨chunk, hchunk, hx⟩ := List.mem_flatMap.mp hx
  obtain ⟨is, his, hstep⟩ := mem_of_mapM_ok hchunks hchunk
  obtain ⟨_, parts, hparts, hout⟩ := outline_events hstep
  rw [hout] at hx
  obtain ⟨part, hpart, hx⟩ := List.mem_flatMap.mp hx
  obtain ⟨⟨result, j⟩, hxj, hresult⟩ := mem_of_mapM_ok hparts hpart
  cases result with
  | error err =>
    cases hresult
    exact .inl ⟨err, List.mem_singleton.mp hx⟩
  | ok results =>
    refine .inr ⟨is.2, results, ⟨mem_of_mem_numbered his, is.1, _, List.fst_mem_of_mem_zipIdx hxj⟩, ?_⟩
    obtain ⟨_, roles, grants, hroles, hgrants, hout⟩ := outline_resultEvents hresult
    rw [hout] at hx
    rcases List.mem_append.mp hx with hx | hx
    · obtain ⟨sent, hsent, hx⟩ := List.mem_flatMap.mp hx
      obtain ⟨ir, hir, hgen⟩ := mem_of_mapM_ok hroles hsent
      obtain ⟨parents, hparents, hgen⟩ := bind_eq_ok.mp hgen
      cases hgen
      refine .inl ⟨ir.2, mem_of_mem_numbered hir, _, parents, hparents, ?_⟩
      have houtline : ∀ (heads : List Head) (copied : Bool), outlineFrom parents
          ((heads.map fun head => Sent.role copied head ir.2.config).map .sent) =
            heads.map fun head => .role ⟨head, parents, ir.2.config⟩ := by
        intro heads copied
        induction heads with
        | nil => rfl
        | cons head heads ih => exact congrArg (Generated.role ⟨head, parents, ir.2.config⟩ :: ·) ih
      have hx : x ∈ outlineFrom parents (((ir.2.generateHeads env _ results).map fun head =>
        Sent.role results.entry.isSome head ir.2.config).map .sent) := hx
      rw [houtline] at hx
      obtain ⟨head, hhead, rfl⟩ := List.mem_map.mp hx
      exact ⟨head, hhead, rfl⟩
    · obtain ⟨l, hl, hx⟩ := List.mem_flatMap.mp hx
      obtain ⟨ir, hir, hgen⟩ := mem_of_mapM_ok hgrants hl
      obtain ⟨g, hg, rfl⟩ := List.mem_map.mp hx
      exact .inr ⟨ir.2, mem_of_mem_numbered hir, _, l, hgen, g, hg, rfl⟩

variable (hskip : ∀ s results, Found env ldapc m s results → Discards env s results)
  (hevents : m.events env reg o ldapc = .ok events)
include hskip hevents

theorem role_of_outline {d : Definition} (hd : .role d ∈ outline events) :
    (d.head.name ≠ "" → NamesRole env ldapc m d.head.name) ∧
      ∀ p ∈ d.parents, NamesParent env ldapc m p.name := by
  rcases found_of_outline hevents hd with ⟨err, he⟩ | ⟨s, results, hfound, hfrom⟩
  · cases he
  · have hdiscards := hskip s results hfound
    rcases hfrom with ⟨r, hr, o', parents, hparents, head, hhead, he⟩ | ⟨_, _, _, _, _, _, _, he⟩
    · cases he
      refine ⟨fun hname => ⟨s, results, hfound, r, hr, head_name hdiscards hr hhead hname⟩,
        fun p hp => ⟨s, results, hfound, r, hr, parent_name hdiscards hr hparents hp⟩⟩
    · cases he

theorem grant_of_outline {g : Grant} (hg : .grant g ∈ outline events) : Makes env reg ldapc m g := by
  rcases found_of_outline hevents hg with ⟨err, he⟩ | ⟨s, results, hfound, hfrom⟩
  · cases he
  · rcases hfrom with ⟨_, _, _, _, _, _, _, he⟩ | ⟨r, hr, o', l, hl, g', hg', he⟩
    · cases he
    · cases he
      exact ⟨s, results, hfound, r, hr, grant_values (hskip s results hfound) hr hl hg'⟩

end Run

section Sample
open Sample

def memberCn : Field := { fieldName := "member.cn" }

/-- Roles are named after the RDN of the members. -/
def memberRule : RoleRule := roleRule ⟨"\x7bmember.cn\x7d", [.field memberCn]⟩ []

/-- The same with a prefix. -/
def prefixedRule : RoleRule :=
  roleRule ⟨"u_\x7bmember.cn\x7d", [.literal "u_", .field memberCn]⟩ []

/-- The DN of `alice` is the only one. -/
def aliceEnv : Env :=
  { Ldap.Sample.env with
    parseDN := fun dn => if dn = "cn=alice" then some [("cn", "alice")] else none }

def brokenGroup : Entry := ⟨"cn=group", [("member", ["cn=alice", "bob"])]⟩

def broken : Result := { entry := some brokenGroup }

def bob : Values := (∅ : Values).insert "member" "bob"

/-- `bob` has no RDN. -/
theorem bob_unresolvable {rule : RoleRule}
    (h : "member.cn" ∈ listExpressions (Order.sorted.sub 0) (headFormats rule)) :
    Unresolvable aliceEnv Order.sorted broken brokenGroup (headFormats rule) bob := by
  refine ⟨"member.cn", h, ?_⟩
  have hcut : cut '.' "member.cn" = ("member", "cn", true) := by decide +kernel
  rw [UnresolvedBy, if_neg (by decide +kernel), UnresolvedIn, hcut]
  rfl

def memberRules : Rules :=
  [{ ldapSearch := { attributes := ["member"] }, roleRules := [memberRule] }]

theorem member_discards (s : Step) (results : Result) (hs : s ∈ memberRules) :
    Discards aliceEnv s results := by
  cases List.mem_singleton.mp hs
  refine ⟨fun r hr entry _ o values _ hun => ?_, fun r hr f hf => ?_, nofun⟩
  · cases List.mem_singleton.mp hr
    refine vanishes_of_single (e := "member.cn") ?_ List.mem_cons_self ?_ hun
    · decide
    · exact fun s hs => ⟨memberCn, List.mem_singleton.mp hs, .inl rfl⟩
  · cases List.mem_singleton.mp hr
    cases hf

def prefixedItem : Item where
  roleRules := [prefixedRule]

end Sample

end Ldap2pg.Wanted.Unresolved
