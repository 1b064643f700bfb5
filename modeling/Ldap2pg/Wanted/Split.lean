import Ldap2pg.Wanted.Load

/-! # `SplitStaticRules`

A rule without fields takes no value from an entry, and the product of no list
is empty: in a step that searches, static rules generate nothing. Split from the
others they generate once. `outline` is what the loops of `Run` receive, whatever
the arrays of parents are; the outline of the split steps is that of the steps
as they were, with what the static rules generate after each step cut in two. -/
namespace Ldap2pg.Wanted.Split
open Lib Pyfmt Ldap Privileges Roles

variable {events : List Event} {results : Result} {s : Step} {chunks : List (List Event)}

/-- What the loops of `Run` receive. -/
inductive Generated where
  | error (err : String)
  | role (d : Definition)
  | grant (g : Grant)

/-- The events, with each role under the parents of its rule. -/
def outlineFrom : List Membership → List Event → List Generated
  | _, [] => []
  | _, .sent (.parents l) :: events => outlineFrom l events
  | p, .sent (.role _ head config) :: events => .role ⟨head, p, config⟩ :: outlineFrom p events
  | p, .searchError err :: events => .error err :: outlineFrom p events
  | p, .grant g :: events => .grant g :: outlineFrom p events

def outline (events : List Event) : List Generated := outlineFrom [] events

theorem outlineFrom_append (p : List Membership) (l l' : List Event) :
    ∃ p', outlineFrom p (l ++ l') = outlineFrom p l ++ outlineFrom p' l' := by
  induction l generalizing p with
  | nil => exact ⟨p, rfl⟩
  | cons e l ih =>
    cases e with
    | searchError err =>
      obtain ⟨p', h⟩ := ih p
      exact ⟨p', congrArg (Generated.error err :: ·) h⟩
    | grant g =>
      obtain ⟨p', h⟩ := ih p
      exact ⟨p', congrArg (Generated.grant g :: ·) h⟩
    | sent s =>
      cases s with
      | parents q => exact ih q
      | role copied head config =>
        obtain ⟨p', h⟩ := ih p
        exact ⟨p', congrArg (Generated.role ⟨head, p, config⟩ :: ·) h⟩

/-- The events say which parents their roles have. -/
def SelfContained (l : List Event) : Prop := ∀ p, outlineFrom p l = outline l

theorem selfContained_append {l l' : List Event} (h : SelfContained l) (h' : SelfContained l') :
    SelfContained (l ++ l') ∧ outline (l ++ l') = outline l ++ outline l' := by
  have hboth : ∀ p, outlineFrom p (l ++ l') = outline l ++ outline l' := by
    intro p
    obtain ⟨p', hp⟩ := outlineFrom_append p l l'
    rw [hp, h p, h' p']
  exact ⟨fun p => (hboth p).trans (hboth []).symm, hboth []⟩

theorem selfContained_flatten (h : ∀ l ∈ chunks, SelfContained l) :
    SelfContained chunks.flatten ∧ outline chunks.flatten = chunks.flatMap outline := by
  induction chunks with
  | nil => exact ⟨fun p => rfl, rfl⟩
  | cons l chunks ih =>
    obtain ⟨hself, hout⟩ := ih fun l' hl' => h l' (List.mem_cons_of_mem l hl')
    obtain ⟨happ, houts⟩ := selfContained_append (h l List.mem_cons_self) hself
    rw [List.flatten_cons, List.flatMap_cons]
    exact ⟨happ, houts.trans (by rw [hout])⟩

theorem outlineFrom_grants (p : List Membership) (l : List Grant) :
    outlineFrom p (l.map .grant) = l.map .grant := by
  induction l with
  | nil => rfl
  | cons g l ih => exact congrArg (Generated.grant g :: ·) ih

/-! ## Rules and steps -/

section Generate
variable {env : Env} {reg : Registry} {o : Order} {ldapc : Directory}

theorem selfContained_generate {r : RoleRule} {sent : List Sent}
    (h : r.generate env o results = .ok sent) : SelfContained (sent.map .sent) := by
  obtain ⟨parents, _, h⟩ := bind_eq_ok.mp h
  cases h
  exact fun p => rfl

/-- A static rule generates no role from an entry. -/
theorem outline_static {r : RoleRule} {sent : List Sent} (h : r.generate env o results = .ok sent)
    (hs : r.isStatic = true) (hentry : results.entry.isSome = true) :
    outline (sent.map .sent) = [] := by
  obtain ⟨entry, hentry⟩ := Option.isSome_iff_exists.mp hentry
  obtain ⟨parents, _, h⟩ := bind_eq_ok.mp h
  cases h
  have hheads : r.generateHeads env (o.sub 1) results = [] := by
    rw [RoleRule.generateHeads, hentry]
    simp only
    rw [generateValues_static fun f hf => RoleRule.static_formats hs f (List.mem_append_left _ hf)]
    rfl
  rw [hheads]
  rfl

theorem grants_static {r : GrantRule} {grants : List Grant}
    (h : r.generate env reg o results = .ok grants) (hs : r.isStatic = true)
    (hentry : results.entry.isSome = true) : grants = [] := by
  obtain ⟨entry, hentry⟩ := Option.isSome_iff_exists.mp hentry
  have hvchan : r.vchan env o results = [] := by
    rw [GrantRule.vchan, hentry]
    simp only
    rw [generateValues_static (GrantRule.static_formats hs)]
    rfl
  rw [GrantRule.generate, hvchan] at h
  cases h
  rfl

/-- Leaving out elements that give nothing. -/
theorem mapM_filter {α β γ ε : Type} {f : α → Except ε β} {p : α → Bool} {g : β → List γ}
    {l : List α} {out : List β} (h : l.mapM f = .ok out)
    (hnil : ∀ a ∈ l, p a = false → ∀ b, f a = .ok b → g b = []) :
    ∃ out', (l.filter p).mapM f = .ok out' ∧ out'.flatMap g = out.flatMap g := by
  have hall := mapM_ok_iff.mp h
  clear h
  induction hall with
  | nil => exact ⟨[], rfl, rfl⟩
  | @cons a b l out hab hlo ih =>
    obtain ⟨out', hout', hg⟩ := ih fun a' ha' => hnil a' (List.mem_cons_of_mem a ha')
    by_cases hp : p a = true
    · refine ⟨b :: out', ?_, ?_⟩
      · rw [List.filter_cons_of_pos hp]
        exact mapM_ok_iff.mpr (.cons hab (mapM_ok_iff.mp hout'))
      · rw [List.flatMap_cons, List.flatMap_cons, hg]
    · refine ⟨out', by rw [List.filter_cons_of_neg hp]; exact hout', ?_⟩
      rw [List.flatMap_cons, hnil a List.mem_cons_self (by simpa using hp) b hab, hg]
      rfl

/-- What one result of a search gives, rule by rule. -/
theorem outline_resultEvents {j : Nat} (h : s.resultEvents env reg o (.ok results, j) = .ok events) :
    SelfContained events ∧ ∃ roles grants,
      (numbered (fun r => !r.isStatic) 0 s.roleRules).mapM (fun ir =>
        ir.2.generate env (((o.sub 1).sub j).sub ir.1) results) = .ok roles ∧
      (numbered (fun r => !r.isStatic) 0 s.grantRules).mapM (fun ir =>
        ir.2.generate env reg (((o.sub 2).sub j).sub ir.1) results) = .ok grants ∧
      outline events = (roles.flatMap fun sent => outline (sent.map .sent)) ++
        (grants.flatMap fun l => l.map .grant) := by
  obtain ⟨_, hsent, h⟩ := bind_eq_ok.mp h
  obtain ⟨_, hsent', h⟩ := bind_eq_ok.mp h
  cases h
  obtain ⟨roles, hroles, hsent⟩ := bind_eq_ok.mp hsent
  obtain ⟨grants, hgrants, hsent'⟩ := bind_eq_ok.mp hsent'
  cases hsent
  cases hsent'
  have hself : ∀ l ∈ roles.map (List.map Event.sent), SelfContained l := by
    intro l hl
    obtain ⟨sent, hsent, rfl⟩ := List.mem_map.mp hl
    obtain ⟨ir, _, hgen⟩ := mem_of_mapM_ok hroles hsent
    exact selfContained_generate hgen
  obtain ⟨hflat, hout⟩ := selfContained_flatten hself
  have hgrantsSelf : SelfContained (grants.flatten.map Event.grant) := fun p =>
    (outlineFrom_grants p _).trans (outlineFrom_grants [] _).symm
  obtain ⟨happ, houts⟩ := selfContained_append hflat hgrantsSelf
  rw [← List.map_flatten] at happ houts
  refine ⟨happ, roles, grants, hroles, hgrants, houts.trans ?_⟩
  rw [List.map_flatten, hout, List.flatMap_map]
  congr 1
  rw [outline, outlineFrom_grants, List.map_flatten, List.flatMap_def]

/-- Leaving out the static rules changes nothing of what an entry gives. -/
theorem outline_dynamicPart {j : Nat} (h : s.resultEvents env reg o (.ok results, j) = .ok events)
    (hentry : results.entry.isSome = true) :
    ∃ events', s.dynamicPart.resultEvents env reg o (.ok results, j) = .ok events' ∧
      outline events' = outline events := by
  obtain ⟨_, roles, grants, hroles, hgrants, hout⟩ := outline_resultEvents h
  obtain ⟨roles', hroles', hr⟩ := mapM_filter (p := fun x => !x.2.isStatic)
    (g := fun sent => outline (sent.map .sent)) hroles fun ir _ hs sent hsent =>
      outline_static hsent (by simpa using hs) hentry
  obtain ⟨grants', hgrants', hg⟩ := mapM_filter (p := fun x => !x.2.isStatic)
    (g := fun l => l.map Generated.grant) hgrants fun ir _ hs l hl => by
      rw [grants_static hl (by simpa using hs) hentry]; rfl
  rw [← numbered_filter (fun r : RoleRule => !r.isStatic)] at hroles'
  rw [← numbered_filter (fun r : GrantRule => !r.isStatic)] at hgrants'
  have hevents : s.dynamicPart.resultEvents env reg o (.ok results, j) =
      .ok (roles'.flatten.map .sent ++ grants'.flatten.map .grant) := by
    rw [Step.resultEvents, Step.generateRoles, Step.generateGrants]
    simp only [Step.dynamicPart, hroles', hgrants']
    rfl
  obtain ⟨_, roles₂, grants₂, hroles₂, hgrants₂, hout₂⟩ := outline_resultEvents hevents
  cases hroles'.symm.trans hroles₂
  cases hgrants'.symm.trans hgrants₂
  exact ⟨_, hevents, by rw [hout₂, hout, hr, hg]⟩

theorem outline_events (h : s.events env reg o ldapc = .ok events) :
    SelfContained events ∧ ∃ chunks,
      (s.search env (o.sub 0) ldapc).zipIdx.mapM (s.resultEvents env reg o) = .ok chunks ∧
        outline events = chunks.flatMap outline := by
  obtain ⟨chunks, hchunks, h⟩ := bind_eq_ok.mp h
  cases h
  have hself : ∀ l ∈ chunks, SelfContained l := by
    intro l hl
    obtain ⟨⟨r, j⟩, _, hr⟩ := mem_of_mapM_ok hchunks hl
    cases r with
    | error err => cases hr; exact fun p => rfl
    | ok results => exact (outline_resultEvents hr).1
  obtain ⟨hflat, hout⟩ := selfContained_flatten hself
  exact ⟨hflat, chunks, hchunks, hout⟩

/-- The same loop with another body. -/
theorem mapM_replace {α β γ ε : Type} {f f' : α → Except ε β} {g : β → List γ} {l : List α}
    {out : List β} (h : l.mapM f = .ok out)
    (hbody : ∀ a ∈ l, ∀ b, f a = .ok b → ∃ b', f' a = .ok b' ∧ g b' = g b) :
    ∃ out', l.mapM f' = .ok out' ∧ out'.flatMap g = out.flatMap g := by
  refine exists_mapM_rel (P := fun _ b b' => g b' = g b)
    (R := fun _ out out' => out'.flatMap g = out.flatMap g) rfl (fun hfirst hrest => ?_) h hbody
  rw [List.flatMap_cons, List.flatMap_cons, hfirst, hrest]

/-- The dynamic part of a step that searches generates what the step does. -/
theorem outline_step (h : s.events env reg o ldapc = .ok events) (hs : s.hasLDAPSearch = true) :
    ∃ events', s.dynamicPart.events env reg o ldapc = .ok events' ∧
      outline events' = outline events := by
  obtain ⟨_, chunks, hchunks, hout⟩ := outline_events h
  have hbody : ∀ rj ∈ (s.search env (o.sub 0) ldapc).zipIdx, ∀ l,
      s.resultEvents env reg o rj = .ok l →
        ∃ l', s.dynamicPart.resultEvents env reg o rj = .ok l' ∧ outline l' = outline l := by
    rintro ⟨r, j⟩ hrj l hl
    cases r with
    | error err => exact ⟨l, hl, rfl⟩
    | ok results =>
      have hentry := Step.entry_of_search (List.fst_mem_of_mem_zipIdx hrj) hs
      exact outline_dynamicPart hl hentry
  obtain ⟨chunks', hchunks', hg⟩ := mapM_replace hchunks hbody
  have hevents : s.dynamicPart.events env reg o ldapc = .ok chunks'.flatten := by
    rw [Step.events]
    show ((s.search env (o.sub 0) ldapc).zipIdx.mapM _ >>= _) = _
    rw [hchunks']
    rfl
  obtain ⟨_, chunks₂, hchunks₂, hout₂⟩ := outline_events hevents
  cases hchunks'.symm.trans hchunks₂
  exact ⟨_, hevents, by rw [hout₂, hg, hout]⟩

theorem generate_without_entry (env : Env) (o o' : Order) (r : RoleRule) :
    r.generate env o {} = r.generate env o' {} := rfl

theorem generateGrants_without_entry (env : Env) (reg : Registry) (o o' : Order) (r : GrantRule) :
    r.generate env reg o {} = r.generate env reg o' {} := rfl

/-- A step without a search draws no order and asks nothing. -/
theorem events_of_no_search (hs : s.hasLDAPSearch = false) (o o' : Order) (ldapc ldapc' : Directory) :
    s.events env reg o ldapc = s.events env reg o' ldapc' := by
  have hsearch : ∀ o ldapc, s.search env o ldapc = [.ok {}] := fun _ _ => if_pos hs
  have hroles : ∀ o o', s.generateRoles env o {} = s.generateRoles env o' {} := by
    intro o o'
    unfold Step.generateRoles
    rw [funext fun ir : Nat × RoleRule => generate_without_entry env (o.sub ir.1) (o'.sub ir.1) ir.2]
  have hgrants : ∀ o o', s.generateGrants env reg o {} = s.generateGrants env reg o' {} := by
    intro o o'
    unfold Step.generateGrants
    rw [funext fun ir : Nat × GrantRule =>
      generateGrants_without_entry env reg (o.sub ir.1) (o'.sub ir.1) ir.2]
  simp only [Step.events, hsearch, List.zipIdx_cons, List.zipIdx_nil, List.mapM_cons, List.mapM_nil,
    Step.resultEvents, hroles _ ((o'.sub 1).sub 0), hgrants _ ((o'.sub 2).sub 0)]

/-- Static rules draw no order and ask nothing. -/
theorem staticPart_events (s : Step) (o o' : Order) (ldapc ldapc' : Directory) :
    s.staticPart.events env reg o ldapc = s.staticPart.events env reg o' ldapc' :=
  events_of_no_search rfl o o' ldapc ldapc'

end Generate

/-! ## Whole rule sets -/

/-- What a step generates, and what splitting adds after it. -/
structure Part where
  own : List Generated
  added : List Generated

/-- A step that is left as it is gets nothing; one that is cut in two, what its
static rules generate as a step of their own. -/
structure Part.Of (env : Env) (reg : Registry) (o : Order) (ldapc : Directory) (is : Nat × Step)
    (p : Part) : Prop where
  own : ∃ events, is.2.events env reg (o.sub is.1) (ldapc.sub is.1) = .ok events ∧
    outline events = p.own
  kept : is.2.splitStaticItems = [is.2] → p.added = []
  cut : is.2.splitStaticItems ≠ [is.2] → ∃ events,
    is.2.staticPart.events env reg Order.sorted (fun _ _ => .ok []) = .ok events ∧
      outline events = p.added

variable {env : Env} {reg : Registry} {o : Order} {ldapc : Directory}

/-- The events of the steps from site `i` on. -/
def chunksFrom (env : Env) (reg : Registry) (o : Order) (ldapc : Directory) (i : Nat) (m : Rules) :
    Except Panic (List (List Event)) :=
  (numbered Step.hasLDAPSearch i m).mapM fun is =>
    is.2.events env reg (o.sub is.1) (ldapc.sub is.1)

theorem chunksFrom_cons {i : Nat} {m : Rules}
    (h : s.events env reg (o.sub i) (ldapc.sub i) = .ok events)
    (hm : chunksFrom env reg o ldapc (if s.hasLDAPSearch then i + 1 else i) m = .ok chunks) :
    chunksFrom env reg o ldapc i (s :: m) = .ok (events :: chunks) :=
  mapM_ok_iff.mpr (.cons h (mapM_ok_iff.mp hm))

/-- A step cut in two holds a dynamic rule. -/
theorem dynamic_of_cut (h : s.splitStaticItems = [s.dynamicPart, s.staticPart]) :
    (∃ r ∈ s.roleRules, r.isStatic = false) ∨ ∃ r ∈ s.grantRules, r.isStatic = false := by
  by_contra hnone
  obtain ⟨hroles, hgrants⟩ := not_or.mp hnone
  have hr : s.dynamicPart.roleRules = [] := List.filter_eq_nil_iff.mpr fun r hr hs =>
    hroles ⟨r, hr, by simpa using hs⟩
  have hg : s.dynamicPart.grantRules = [] := List.filter_eq_nil_iff.mpr fun r hr hs =>
    hgrants ⟨r, hr, by simpa using hs⟩
  have hone : s.splitStaticItems = [s] := by
    unfold Step.splitStaticItems
    simp only [Step.dynamicPart] at hr hg
    simp [hr, hg]
  rw [hone] at h
  exact absurd (congrArg List.length h) (by simp)

theorem split_parts (env : Env) (reg : Registry) (o : Order) (ldapc : Directory) {m : Rules}
    (hc : ∀ s ∈ m, s.Covered) :
    ∀ i, ∃ chunks chunks' parts, chunksFrom env reg o ldapc i m = .ok chunks ∧
      chunksFrom env reg o ldapc i m.splitStaticRules = .ok chunks' ∧
      List.Forall₂ (Part.Of env reg o ldapc) (numbered Step.hasLDAPSearch i m) parts ∧
      chunks.flatMap outline = parts.flatMap Part.own ∧
      chunks'.flatMap outline = parts.flatMap fun p => p.own ++ p.added := by
  induction m with
  | nil => intro i; exact ⟨[], [], [], rfl, rfl, .nil, rfl, rfl⟩
  | cons s m ih =>
    intro i
    have hs := hc s List.mem_cons_self
    obtain ⟨chunks, chunks', parts, hchunks, hchunks', hparts, hown, hadded⟩ :=
      ih (fun s' hs' => hc s' (List.mem_cons_of_mem s hs')) (if s.hasLDAPSearch then i + 1 else i)
    obtain ⟨events, hevents⟩ := Step.events_ok env reg (o.sub i) (ldapc.sub i) hs
    rcases s.splitStaticItems_cases with ⟨hsplit, _⟩ | hsplit
    · refine ⟨events :: chunks, events :: chunks', ⟨outline events, []⟩ :: parts,
        chunksFrom_cons hevents hchunks, ?_, .cons ?_ hparts, ?_, ?_⟩
      · rw [Rules.splitStaticRules, List.flatMap_cons, hsplit]
        exact chunksFrom_cons hevents hchunks'
      · exact ⟨⟨events, hevents, rfl⟩, fun _ => rfl, fun hne => absurd hsplit hne⟩
      · rw [List.flatMap_cons, List.flatMap_cons, hown]
      · rw [List.flatMap_cons, List.flatMap_cons, hadded, List.append_nil]
    · have hsearch : s.hasLDAPSearch = true := hs (dynamic_of_cut hsplit)
      obtain ⟨dynamic, hdynamic, hout⟩ := outline_step hevents hsearch
      obtain ⟨static, hstatic⟩ := Step.events_ok env reg Order.sorted (fun _ _ => .ok [])
        s.staticPart_covered
      refine ⟨events :: chunks, dynamic :: static :: chunks', ⟨outline events, outline static⟩ :: parts,
        chunksFrom_cons hevents hchunks, ?_, .cons ?_ hparts, ?_, ?_⟩
      · rw [Rules.splitStaticRules, List.flatMap_cons, hsplit]
        refine chunksFrom_cons hdynamic (chunksFrom_cons ?_ hchunks')
        exact (staticPart_events s _ _ _ _).trans hstatic
      · refine ⟨⟨events, hevents, rfl⟩, fun hkept => ?_, fun _ => ⟨static, hstatic, rfl⟩⟩
        exact absurd (congrArg List.length (hsplit.symm.trans hkept)) (by simp)
      · rw [List.flatMap_cons, List.flatMap_cons, hown]
      · rw [List.flatMap_cons, List.flatMap_cons, List.flatMap_cons, hadded, hout, List.append_assoc]

theorem events_of_chunks {m : Rules} (h : chunksFrom env reg o ldapc 0 m = .ok chunks) :
    m.events env reg o ldapc = .ok chunks.flatten ∧
      outline chunks.flatten = chunks.flatMap outline := by
  have hself : ∀ l ∈ chunks, SelfContained l := by
    intro l hl
    obtain ⟨is, _, his⟩ := mem_of_mapM_ok h hl
    exact (outline_events his).1
  exact ⟨bind_eq_ok.mpr ⟨chunks, h, rfl⟩, (selfContained_flatten hself).2⟩

theorem searchError_of_outline {err : String} :
    ∀ {p}, .error err ∈ outlineFrom p events → .searchError err ∈ events := by
  induction events with
  | nil => intro p h; cases h
  | cons e events ih =>
    intro p h
    cases e with
    | searchError err' =>
      rcases List.mem_cons.mp h with he | h
      · cases he
        exact List.mem_cons_self
      · exact List.mem_cons_of_mem _ (ih h)
    | grant g =>
      exact List.mem_cons_of_mem _ (ih ((List.mem_cons.mp h).resolve_left nofun))
    | sent s =>
      cases s with
      | parents q => exact List.mem_cons_of_mem _ (ih h)
      | role copied head config =>
        exact List.mem_cons_of_mem _ (ih ((List.mem_cons.mp h).resolve_left nofun))

/-- Static rules do not search. -/
theorem no_error_added {is : Nat × Step} {p : Part} (h : Part.Of env reg o ldapc is p)
    (err : String) : .error err ∉ p.added := by
  by_cases hkept : is.2.splitStaticItems = [is.2]
  · rw [h.kept hkept]
    exact List.not_mem_nil
  · obtain ⟨events, hevents, hadded⟩ := h.cut hkept
    rw [← hadded]
    intro hin
    obtain ⟨chunks, hchunks, hflat⟩ := bind_eq_ok.mp hevents
    cases hflat
    obtain ⟨l, hl, herr⟩ := List.mem_flatten.mp (searchError_of_outline hin)
    obtain ⟨⟨r, j⟩, hrj, hres⟩ := mem_of_mapM_ok hchunks hl
    have hr : r = .ok {} := List.mem_singleton.mp (List.fst_mem_of_mem_zipIdx hrj)
    subst hr
    obtain ⟨roles, _, hres⟩ := bind_eq_ok.mp hres
    obtain ⟨grants, _, hres⟩ := bind_eq_ok.mp hres
    cases hres
    simp at herr

/-! ## What `Run` makes of an outline -/

section Outcome
variable {ctx : Setting} {configs : ConfigRef → Config} {events : List Event}

def Generated.role? : Generated → Option Definition
  | .role d => some d
  | _ => none

theorem outline_snoc (events : List Event) (e : Event) :
    outline (events ++ [e]) = outline events ++ outlineFrom (history events).1 [e] := by
  have hfrom : ∀ (l : List Event) (p : List Membership) (ds : List Definition),
      outlineFrom p (l ++ [e]) = outlineFrom p l ++ outlineFrom (l.foldl record (p, ds)).1 [e] := by
    intro l
    induction l with
    | nil => intro p ds; rfl
    | cons e' l ih =>
      intro p ds
      cases e' with
      | searchError err => exact congrArg (Generated.error err :: ·) (ih p ds)
      | grant g => exact congrArg (Generated.grant g :: ·) (ih p ds)
      | sent s =>
        cases s with
        | parents q => exact ih q ds
        | role copied head config => exact congrArg (Generated.role ⟨head, p, config⟩ :: ·) (ih p _)
  exact hfrom events [] []

theorem definitions_eq (events : List Event) :
    definitions events = (outline events).filterMap Generated.role? := by
  induction events using List.reverseRecOn with
  | nil => rfl
  | append_singleton events e ih =>
    rw [outline_snoc, List.filterMap_append, ← ih, definitions, history_snoc]
    cases e with
    | searchError err => exact (List.append_nil _).symm
    | grant g => exact (List.append_nil _).symm
    | sent s =>
      cases s with
      | parents q => exact (List.append_nil _).symm
      | role copied head config => rfl

/-- The role is kept and was defined. -/
def Defined (ctx : Setting) (out : List Generated) (n : String) : Prop :=
  State.Kept ctx n ∧ ∃ d, .role d ∈ out ∧ d.head.name = n

theorem mem_definitions {d : Definition} : d ∈ definitions events ↔ .role d ∈ outline events := by
  rw [definitions_eq, List.mem_filterMap]
  constructor
  · intro ⟨x, hx, hd⟩
    cases x with
    | role d' => cases hd; exact hx
    | error err => cases hd
    | grant g => cases hd
  · intro h
    exact ⟨.role d, h, rfl⟩

/-- The names of the role map are those of the roles that are kept. -/
theorem mem_roles_iff {n : String} :
    n ∈ (State.after ctx configs events).roles ↔ Defined ctx (outline events) n := by
  have hknown := known_after ctx configs events
  constructor
  · intro h
    obtain ⟨r, hr⟩ := Dict.mem_iff.mp h
    obtain ⟨d, hd, _⟩ := hknown.first n r hr
    exact ⟨hknown.kept n r hr, d, mem_definitions.mp (List.mem_of_find?_eq_some hd),
      by simpa using List.find?_some hd⟩
  · intro ⟨hkept, d, hd, hname⟩
    exact hname ▸ hknown.defined d (mem_definitions.mpr hd) (hname ▸ hkept)

/-- Some element stands in the list after elements with which it is in relation `P`. -/
def Meets (P : List Generated → Generated → Prop) (out : List Generated) : Prop :=
  ∃ before x later, out = before ++ x :: later ∧ P before x

theorem meets_nil {P : List Generated → Generated → Prop} : ¬ Meets P [] :=
  fun ⟨_, _, _, h, _⟩ => absurd h (by simp)

theorem meets_snoc {P : List Generated → Generated → Prop} {out : List Generated} {x : Generated} :
    Meets P (out ++ [x]) ↔ Meets P out ∨ P out x := by
  constructor
  · intro ⟨before, y, later, hout, hy⟩
    rcases List.eq_nil_or_concat later with rfl | ⟨later, z, rfl⟩
    · obtain ⟨rfl, hx⟩ := List.append_inj' hout rfl
      exact .inr ((List.cons.inj hx).1 ▸ hy)
    · rw [List.concat_eq_append, ← List.cons_append, ← List.append_assoc] at hout
      exact .inl ⟨before, y, later, (List.append_inj' hout rfl).1, hy⟩
  · rintro (⟨before, y, later, rfl, hy⟩ | hx)
    · exact ⟨before, y, later ++ [x], by simp, hy⟩
    · exact ⟨out, x, [], rfl, hx⟩

/-- The grant `g` is sent after its grantee, and the blacklist does not leave it out. -/
def Accepted (ctx : Setting) (g : Grant) (before : List Generated) (x : Generated) : Prop :=
  x = .grant g ∧ Lists.firstMatch ctx.glob ctx.blacklist g.grantee = "" ∧
    Defined ctx before g.grantee

/-- `Run` stumbles on it: a failed search, or a grant sent before its grantee. -/
def Refused (ctx : Setting) (before : List Generated) : Generated → Prop
  | .error _ => True
  | .role _ => False
  | .grant g => Lists.firstMatch ctx.glob ctx.blacklist g.grantee = "" ∧
      ¬ Defined ctx before g.grantee

def Filed (grants : Dict (List Grant)) (g : Grant) : Prop :=
  ∃ l, grants[g.acl]? = some l ∧ g ∈ l

theorem filed_insert {grants : Dict (List Grant)} {g g' : Grant} :
    Filed (grants.insert g'.acl (grants[g'.acl]?.getD [] ++ [g'])) g ↔
      Filed grants g ∨ g' = g := by
  unfold Filed
  by_cases hacl : g'.acl = g.acl
  · rw [hacl, Std.ExtTreeMap.getElem?_insert_self]
    cases h : grants[g.acl]? with
    | none => simp [eq_comm]
    | some l => simp [eq_comm]
  · have hne : g' ≠ g := fun he => hacl (he ▸ rfl)
    simp [Std.ExtTreeMap.getElem?_insert, hacl, hne]

/-- One grant is filed or refused, depending on what was sent before it. -/
theorem addGrant_outline (ctx : Setting) (configs : ConfigRef → Config) (events : List Event)
    (g : Grant) :
    (∀ g', Filed ((State.after ctx configs events).addGrant ctx g).grants g' ↔
      Filed (State.after ctx configs events).grants g' ∨
        Accepted ctx g' (outline events) (.grant g)) ∧
    (((State.after ctx configs events).addGrant ctx g).errList ≠ [] ↔
      (State.after ctx configs events).errList ≠ [] ∨ Refused ctx (outline events) (.grant g)) := by
  unfold State.addGrant
  split
  · rename_i hlisted
    refine ⟨fun g' => ⟨.inl, fun h => h.resolve_right ?_⟩, .inl, fun h => h.resolve_right ?_⟩
    · rintro ⟨he, hun, _⟩
      cases he
      exact hlisted hun
    · exact fun h => hlisted h.1
  · rename_i hun
    split
    · rename_i hmissing
      rw [mem_roles_iff] at hmissing
      refine ⟨fun g' => ⟨.inl, fun h => h.resolve_right ?_⟩, fun _ => .inr ?_, fun _ => by simp⟩
      · rintro ⟨he, _, hdef⟩
        cases he
        exact hmissing hdef
      · exact ⟨not_not.mp hun, hmissing⟩
    · rename_i hmem
      rw [mem_roles_iff, not_not] at hmem
      refine ⟨fun g' => ?_, .inl, fun h => h.resolve_right fun h => h.2 hmem⟩
      rw [filed_insert]
      refine or_congr_right ⟨?_, fun h => Generated.grant.inj h.1⟩
      rintro rfl
      exact ⟨rfl, not_not.mp hun, hmem⟩

/-- `Run` files the grants that are accepted, and gives an error when some element
is refused. -/
theorem after_outline (ctx : Setting) (configs : ConfigRef → Config) (events : List Event) :
    (∀ g, Filed (State.after ctx configs events).grants g ↔
      Meets (Accepted ctx g) (outline events)) ∧
    ((State.after ctx configs events).errList ≠ [] ↔ Meets (Refused ctx) (outline events)) := by
  induction events using List.reverseRecOn with
  | nil =>
    refine ⟨fun g => ⟨?_, fun h => absurd h meets_nil⟩,
      fun h => absurd rfl h, fun h => absurd h meets_nil⟩
    rintro ⟨l, hl, _⟩
    simp [State.after] at hl
  | append_singleton events e ih =>
    obtain ⟨hfiled, herr⟩ := ih
    rw [after_snoc, outline_snoc]
    cases e with
    | searchError err =>
      refine ⟨fun g => ?_, ?_⟩
      · exact (hfiled g).trans (meets_snoc.trans (or_iff_left fun h => Generated.noConfusion h.1)).symm
      · exact iff_of_true (by simp [State.step]) (meets_snoc.mpr (.inr trivial))
    | sent s =>
      rw [State.step, (State.receive_frame ctx _ s).1, (State.receive_frame ctx _ s).2]
      cases s with
      | parents l =>
        simp only [outlineFrom, List.append_nil]
        exact ⟨hfiled, herr⟩
      | role copied head config =>
        refine ⟨fun g => ?_, ?_⟩
        · exact (hfiled g).trans (meets_snoc.trans (or_iff_left fun h => Generated.noConfusion h.1)).symm
        · exact herr.trans (meets_snoc.trans (or_iff_left id)).symm
    | grant g =>
      obtain ⟨hfiled', herr'⟩ := addGrant_outline ctx configs events g
      refine ⟨fun g' => ?_, ?_⟩
      · exact (hfiled' g').trans ((or_congr_left (hfiled g')).trans meets_snoc.symm)
      · exact herr'.trans ((or_congr_left herr).trans meets_snoc.symm)

/-! ## The two outlines -/

/-- The outline of the split steps, where what the steps generated before is marked. -/
def marked (parts : List Part) : List (Bool × Generated) :=
  parts.flatMap fun p => p.own.map (true, ·) ++ p.added.map (false, ·)

variable {parts : List Part} {P : List Generated → Generated → Prop}

theorem marked_all (parts : List Part) :
    (marked parts).map Prod.snd = parts.flatMap fun p => p.own ++ p.added := by
  simp [marked, List.map_flatMap, Function.comp_def]

theorem marked_own (parts : List Part) :
    ((marked parts).filter Prod.fst).map Prod.snd = parts.flatMap Part.own := by
  simp [marked, List.filter_flatMap, List.map_flatMap, List.filter_map, Function.comp_def]

theorem mem_added_of_marked {x : Generated} (h : (false, x) ∈ marked parts) :
    ∃ p ∈ parts, x ∈ p.added := by
  simpa [marked] using h

/-- What the steps generated is still generated, after at least as much. -/
theorem meets_own (hmono : ∀ a a' x, a ⊆ a' → P a x → P a' x)
    (h : Meets P (parts.flatMap Part.own)) :
    Meets P (parts.flatMap fun p => p.own ++ p.added) := by
  have hsub := (List.filter_sublist (p := Prod.fst) (l := marked parts)).map Prod.snd
  obtain ⟨before, x, later, hown, hx⟩ := h
  rw [marked_own, marked_all, hown] at hsub
  obtain ⟨before', rest, hall, hbefore, hrest⟩ := List.append_sublist_iff.mp hsub
  obtain ⟨front, back, rfl, hmem, -⟩ := List.cons_sublist_iff.mp hrest
  obtain ⟨front, back', rfl⟩ := List.append_of_mem hmem
  refine ⟨before' ++ front, x, back' ++ back, by simp [hall], hmono before _ x ?_ hx⟩
  exact fun y hy => List.mem_append_left _ (hbefore.subset hy)

/-- What the split steps generate comes from static rules cut out, or was generated
after at most as much. -/
theorem meets_split (hanti : ∀ a a' x, a ⊆ a' → P a' x → P a x)
    (h : Meets P (parts.flatMap fun p => p.own ++ p.added)) :
    Meets P (parts.flatMap Part.own) ∨
      Meets (fun before x => P before x ∧ ∃ p ∈ parts, x ∈ p.added)
        (parts.flatMap fun p => p.own ++ p.added) := by
  obtain ⟨before, x, later, hall, hx⟩ := h
  have hmarks := (marked_all parts).trans hall
  obtain ⟨front, rest, hmarked, rfl, hrest⟩ := List.map_eq_append_iff.mp hmarks
  obtain ⟨⟨own, y⟩, back, rfl, rfl, rfl⟩ := List.map_eq_cons_iff.mp hrest
  cases own with
  | true =>
    refine .inl ⟨(front.filter Prod.fst).map Prod.snd, y, (back.filter Prod.fst).map Prod.snd,
      ?_, hanti _ _ y ?_ hx⟩
    · rw [← marked_own, hmarked]
      simp
    · exact ((List.filter_sublist (p := Prod.fst) (l := front)).map Prod.snd).subset
  | false =>
    refine .inr ⟨front.map Prod.snd, y, back.map Prod.snd, hall, hx, mem_added_of_marked ?_⟩
    rw [hmarked]
    simp

theorem mem_parts_iff {x : Generated} :
    (x ∈ parts.flatMap fun p => p.own ++ p.added) ↔
      x ∈ parts.flatMap Part.own ∨ ∃ p ∈ parts, x ∈ p.added := by
  simp only [List.mem_flatMap, List.mem_append]
  grind

theorem defined_mono {a a' : List Generated} {n : String} (h : a ⊆ a') (hdef : Defined ctx a n) :
    Defined ctx a' n :=
  ⟨hdef.1, hdef.2.imp fun _ hd => ⟨h hd.1, hd.2⟩⟩

theorem refused_anti (a a' : List Generated) (x : Generated) (h : a ⊆ a')
    (hx : Refused ctx a' x) : Refused ctx a x := by
  cases x with
  | error err => trivial
  | role d => exact hx
  | grant g => exact ⟨hx.1, fun hdef => hx.2 (defined_mono h hdef)⟩

/-- Roles that no static rule cut out names have the same definitions, in order. -/
theorem filter_definitions {n : String}
    (h : ∀ p ∈ parts, ∀ d, .role d ∈ p.added → d.head.name ≠ n) :
    ((parts.flatMap fun p => p.own ++ p.added).filterMap Generated.role?).filter
        (fun d => d.head.name == n) =
      ((parts.flatMap Part.own).filterMap Generated.role?).filter (fun d => d.head.name == n) := by
  induction parts with
  | nil => rfl
  | cons p parts ih =>
    have hadded : (p.added.filterMap Generated.role?).filter (fun d => d.head.name == n) = [] := by
      refine List.filter_eq_nil_iff.mpr fun d hd => ?_
      obtain ⟨x, hx, hrole⟩ := List.mem_filterMap.mp hd
      cases x with
      | role d' =>
        cases hrole
        simpa using h p List.mem_cons_self d hx
      | error err => cases hrole
      | grant g => cases hrole
    simp only [List.flatMap_cons, List.filterMap_append, List.filter_append, hadded,
      List.append_nil, ih fun p' hp' => h p' (List.mem_cons_of_mem p hp')]

end Outcome

section Sample
open Ldap.Sample Sample

/-- A role for each member of a group, and one for administrators. -/
def mixed : Rules :=
  [{ ldapSearch := { attributes := ["member"] }
     roleRules := [roleRule memberField [], roleRule (literal "admin") []] }]

/-- The error and the role names of a run that returns. -/
def summary (m : Rules) : Option (Option String × List String) :=
  (m.run Ldap.Sample.env noPrivileges noBlacklist Order.sorted none (fun _ _ => .ok [group])
    fun _ => ∅).toOption.map fun out => (out.err, out.roles.keys)

end Sample

end Ldap2pg.Wanted.Split
