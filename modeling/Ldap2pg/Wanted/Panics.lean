import Ldap2pg.Wanted.Run

/-! # When `Rules.Run` panics

A format with fields cannot be rendered without values, and only LDAP entries
give values. `Step.Covered` is what keeps a step from that. -/
namespace Ldap2pg.Wanted
open Lib Pyfmt Ldap Privileges Roles

variable {results : Result}

variable {env : Env} {reg : Registry} {o : Order} {ldapc : Directory}

/-- If the step holds a dynamic rule, it searches the directory. -/
def Step.Covered (s : Step) : Prop :=
  (∃ r ∈ s.roleRules, r.isStatic = false) ∨ (∃ r ∈ s.grantRules, r.isStatic = false) →
    s.hasLDAPSearch = true

theorem RoleRule.static_formats {r : RoleRule} (h : r.isStatic = true) :
    ∀ f ∈ r.formats, f.isStatic = true := List.all_eq_true.mp h

theorem generateParent_ok (env : Env) (o : Order) {m : Format}
    (h : results.entry.isSome = true ∨ m.isStatic = true) :
    ∃ l, generateParent env o results m = .ok l := by
  unfold generateParent
  cases hentry : results.entry with
  | none =>
    rw [hentry] at h
    have hs : m.isStatic = true := h.resolve_left (by simp)
    exact ⟨_, by rw [format_none_static hs]; rfl⟩
  | some entry =>
    simp only
    split
    case isTrue hs => exact ⟨_, by rw [format_none_static hs]; rfl⟩
    case isFalse => exact exists_mapM_ok fun values _ => ⟨_, rfl⟩

theorem RoleRule.generate_ok (env : Env) (o : Order) {r : RoleRule}
    (h : results.entry.isSome = true ∨ r.isStatic = true) :
    ∃ sent, r.generate env o results = .ok sent := by
  have hparents : ∀ mi ∈ r.parents.zipIdx,
      ∃ l, generateParent env ((o.sub 0).sub mi.2) results mi.1 = .ok l := by
    intro mi hmi
    refine generateParent_ok env _ (h.imp_right fun hs => static_formats hs mi.1 ?_)
    exact List.mem_append_right _ (List.fst_mem_of_mem_zipIdx hmi)
  obtain ⟨parents, hp⟩ := exists_mapM_ok hparents
  unfold RoleRule.generate generateParents
  rw [hp]
  exact ⟨_, rfl⟩

/-- Only a step that does not search has a result without an entry. -/
theorem Step.entry_of_search {s : Step} (h : .ok results ∈ s.search env o ldapc)
    (hs : s.hasLDAPSearch = true) : results.entry.isSome = true := by
  unfold Step.search at h
  rw [if_neg (by simp [hs])] at h
  split at h
  · simp at h
  · obtain ⟨ei, _, hei⟩ := List.mem_flatMap.mp h
    split at hei
    · simp only [List.mem_singleton, Except.ok.injEq] at hei
      rw [hei]
      rfl
    · obtain ⟨bj, _, hbj⟩ := List.mem_map.mp hei
      split at hbj
      · cases hbj
      · cases hbj; rfl

theorem Step.Covered.entry_or_static {s : Step} (hc : s.Covered)
    (h : .ok results ∈ s.search env o ldapc) :
    results.entry.isSome = true ∨
      (∀ r ∈ s.roleRules, r.isStatic = true) ∧ ∀ r ∈ s.grantRules, r.isStatic = true := by
  by_cases hs : s.hasLDAPSearch = true
  · exact .inl (entry_of_search h hs)
  · right
    refine ⟨fun r hr => ?_, fun r hr => ?_⟩
    · by_contra hd
      exact hs (hc (.inl ⟨r, hr, by simpa using hd⟩))
    · by_contra hd
      exact hs (hc (.inr ⟨r, hr, by simpa using hd⟩))

theorem Step.events_ok (env : Env) (reg : Registry) (o : Order) (ldapc : Directory) {s : Step}
    (hc : s.Covered) : ∃ events, s.events env reg o ldapc = .ok events := by
  have hresults : ∀ rj ∈ (s.search env (o.sub 0) ldapc).zipIdx,
      ∃ l, s.resultEvents env reg o rj = .ok l := by
    rintro ⟨r, j⟩ hrj
    cases r with
    | error err => exact ⟨_, rfl⟩
    | ok results =>
      have hcov := hc.entry_or_static (List.fst_mem_of_mem_zipIdx hrj)
      obtain ⟨roles, hroles⟩ : ∃ l, s.generateRoles env ((o.sub 1).sub j) results = .ok l := by
        obtain ⟨l, hl⟩ := exists_mapM_ok fun ir hir =>
          RoleRule.generate_ok env (((o.sub 1).sub j).sub ir.1)
            (hcov.imp_right fun hs => hs.1 ir.2 (mem_of_mem_numbered hir))
        exact ⟨l.flatten, by rw [Step.generateRoles, hl]; rfl⟩
      obtain ⟨grants, hgrants⟩ : ∃ l, s.generateGrants env reg ((o.sub 2).sub j) results = .ok l := by
        obtain ⟨l, hl⟩ := exists_mapM_ok fun ir hir =>
          GrantRule.generate_ok reg (((o.sub 2).sub j).sub ir.1)
            (hcov.imp_right fun hs => hs.2 ir.2 (mem_of_mem_numbered hir))
        exact ⟨l.flatten, by rw [Step.generateGrants, hl]; rfl⟩
      exact ⟨_, by rw [Step.resultEvents, hroles, hgrants]; rfl⟩
  obtain ⟨events, hevents⟩ := exists_mapM_ok hresults
  exact ⟨events.flatten, by rw [Step.events, hevents]; rfl⟩

theorem Rules.events_ok (env : Env) (reg : Registry) (o : Order) (ldapc : Directory) {m : Rules}
    (hc : ∀ s ∈ m, s.Covered) : ∃ events, m.events env reg o ldapc = .ok events := by
  obtain ⟨events, hevents⟩ := exists_mapM_ok fun is his =>
    Step.events_ok env reg (o.sub is.1) (ldapc.sub is.1) (hc is.2 (mem_of_mem_numbered his))
  exact ⟨events.flatten, by rw [Rules.events, hevents]; rfl⟩

end Ldap2pg.Wanted
