import Ldap2pg.Roles.Types
import Ldap2pg.Lib.Digraph

/-! # `role.Map`: membership loops and the order of creation

`Role.Check` walks up the parents of a role with the list of its descendants
(the genealogy) and fails on a name met twice. `Map.Flatten` lists the roles of
a map, parents first. Both recursions are given as much fuel as there are roles:
`none` is a recursion that does not come back. The two specifications are the
last results: `Map.Check` fails exactly on a cycle, and `Map.Flatten` of an
accepted map is a topological enumeration of its keys. -/
namespace Ldap2pg.Roles
open Lib Lib.Digraph Relation

/-- The parents of a role that are in the map. -/
def parentsIn (m : RoleMap) (r : Role) : List Role :=
  r.parents.filterMap fun ms => m[ms.name]?

/-- A loop that stops at the first error; the outer `none` is running out of
fuel. -/
def firstError {α : Type} (f : α → Option (Option String)) : List α → Option (Option String)
  | [] => some none
  | a :: l => match f a with
    | none => none
    | some (some err) => some (some err)
    | some none => firstError f l

/-- `Role.Check`. -/
def Role.check (m : RoleMap) : Nat → Role → List String → Option (Option String)
  | 0, _, _ => none
  | fuel + 1, r, genealogy =>
    if r.name ∈ genealogy then
      some (some ("membership loop: " ++ genealogy.headD "" ++ " is member of " ++ r.name))
    else
      firstError (fun p => (Role.check m fuel p (r.name :: genealogy)).map
        (Option.map (r.name ++ ": " ++ ·))) (parentsIn m r)

/-- `Map.Check`, in the order the map is ranged over. -/
def Map.check (o : Order) (m : RoleMap) : Option (Option String) :=
  firstError (fun k => match m[k]? with
    | none => some none
    | some r => r.check m (m.size + 1) []) (o.range m.keys)

/-- `Map.flattenRole`: the names added, and the names seen so far. -/
def Map.flattenRole (m : RoleMap) : Nat → Role → List String → Option (List String × List String)
  | 0, _, _ => none
  | fuel + 1, r, seen =>
    if r.name ∈ seen then some ([], seen)
    else do
      let (names, seen) ← (parentsIn m r).foldlM (fun acc parent => do
        let (names, seen) ← Map.flattenRole m fuel parent acc.2
        return (acc.1 ++ names, seen)) (([] : List String), seen)
      return (names ++ [r.name], seen ++ [r.name])

/-- `Map.Flatten`. -/
def Map.flatten (o : Order) (m : RoleMap) : Option (List String) := do
  let (names, _) ← ((o.range m.keys).filterMap fun k => m[k]?).foldlM (fun acc role => do
    let (names, seen) ← Map.flattenRole m (m.size + 1) role acc.2
    return (acc.1 ++ names, seen)) (([] : List String), ([] : List String))
  return names

/-- The names of the parents of a key that are keys themselves. -/
def parentKeys (m : RoleMap) (k : String) : List String :=
  match m[k]? with
  | none => []
  | some r => (parentsIn m r).map Role.name

/-- The membership graph restricted to the map has no cycle. -/
def Map.Acyclic (m : RoleMap) : Prop := Digraph.Acyclic (parentKeys m)

section Spec
variable {m : RoleMap}

theorem KeyIsName.empty : KeyIsName ∅ := fun k r h => by simp at h

theorem KeyIsName.insert (hk : KeyIsName m) {k : String} {r : Role} (hr : r.name = k) :
    KeyIsName (m.insert k r) := by
  intro a b h
  rcases Dict.get_insert_cases h with ⟨rfl, rfl⟩ | ⟨_, h⟩
  · exact hr
  · exact hk a b h

theorem mem_parentsIn {r p : Role} :
    p ∈ parentsIn m r ↔ ∃ ms ∈ r.parents, m[ms.name]? = some p := List.mem_filterMap

theorem parentKeys_of_get {k : String} {r : Role} (h : m[k]? = some r) :
    parentKeys m k = (parentsIn m r).map Role.name := by simp [parentKeys, h]

/-- Up to repetition, the parents in the map are the parent names that are keys. -/
theorem mem_parentKeys (hk : KeyIsName m) {k p : String} :
    p ∈ parentKeys m k ↔
      ∃ r, m[k]? = some r ∧ p ∈ r.parents.map Membership.name ∧ p ∈ m := by
  constructor
  · intro h
    cases hr : m[k]? with
    | none => simp [parentKeys, hr] at h
    | some r =>
      rw [parentKeys_of_get hr] at h
      obtain ⟨q, hq, rfl⟩ := List.mem_map.mp h
      obtain ⟨ms, hms, hg⟩ := mem_parentsIn.mp hq
      rw [hk _ _ hg]
      exact ⟨r, rfl, List.mem_map_of_mem hms, Dict.mem_iff.mpr ⟨q, hg⟩⟩
  · rintro ⟨r, hr, hp, hm⟩
    obtain ⟨ms, hms, rfl⟩ := List.mem_map.mp hp
    obtain ⟨q, hq⟩ := Dict.mem_iff.mp hm
    rw [parentKeys_of_get hr]
    exact List.mem_map.mpr ⟨q, mem_parentsIn.mpr ⟨ms, hms, hq⟩, hk _ _ hq⟩

theorem firstError_eq_none {α : Type} {f : α → Option (Option String)} {l : List α} :
    firstError f l = some none ↔ ∀ a ∈ l, f a = some none := by
  induction l with
  | nil => simp [firstError]
  | cons a l ih =>
    simp only [firstError, List.mem_cons, forall_eq_or_imp]
    cases h : f a with
    | none => simp
    | some e =>
      cases e with
      | none => simpa using ih
      | some err => simp

/-- An error of the loop is the error of some element. -/
theorem firstError_eq_some {α : Type} {f : α → Option (Option String)} {l : List α} {err : String}
    (h : firstError f l = some (some err)) : ∃ a ∈ l, ∃ e, f a = some (some e) := by
  induction l with
  | nil => simp [firstError] at h
  | cons a l ih =>
    cases hf : f a with
    | none => simp [firstError, hf] at h
    | some e => cases e with
      | some e => exact ⟨a, by simp, e, hf⟩
      | none =>
        obtain ⟨b, hb, he⟩ := ih (by simpa [firstError, hf] using h)
        exact ⟨b, by simp [hb], he⟩

/-- With an answer for every element the loop has an answer. -/
theorem firstError_total {α : Type} {f : α → Option (Option String)} {l : List α}
    (h : ∀ a ∈ l, f a ≠ none) : firstError f l ≠ none := by
  induction l with
  | nil => simp [firstError]
  | cons a l ih =>
    cases hf : f a with
    | none => exact absurd hf (h a (by simp))
    | some e => cases e with
      | some err => simp [firstError, hf]
      | none => simpa [firstError, hf] using ih (fun b hb => h b (by simp [hb]))

/-- A walk that ends without error met no name of the genealogy, and no cycle. -/
theorem check_none (hk : KeyIsName m) : ∀ (fuel : Nat) (r : Role) (genealogy : List String),
    m[r.name]? = some r → r.check m fuel genealogy = some none →
    ∀ y, ReflTransGen (Edge (parentKeys m)) r.name y →
      y ∉ genealogy ∧ ¬ TransGen (Edge (parentKeys m)) y y := by
  intro fuel
  induction fuel with
  | zero => intro r genealogy _ h; simp [Role.check] at h
  | succ fuel ih =>
    intro r genealogy hr h
    simp only [Role.check] at h
    split at h
    · cases h
    · rename_i hnot
      have hp := firstError_eq_none.mp h
      -- what the walk says of everything above a parent
      have above : ∀ q, Edge (parentKeys m) r.name q → ∀ y,
          ReflTransGen (Edge (parentKeys m)) q y →
          y ∉ r.name :: genealogy ∧ ¬ TransGen (Edge (parentKeys m)) y y := by
        intro q hq
        rw [Edge, parentKeys_of_get hr] at hq
        obtain ⟨p, hpm, rfl⟩ := List.mem_map.mp hq
        obtain ⟨ms, _, hg⟩ := mem_parentsIn.mp hpm
        have hpn := hk _ _ hg
        refine ih p _ (hpn ▸ hg) ?_
        have hpc := hp p hpm
        cases hc : p.check m fuel (r.name :: genealogy) with
        | none => simp [hc] at hpc
        | some e => cases e with
          | none => rfl
          | some err => simp [hc] at hpc
      intro y hy
      rcases ReflTransGen.cases_head hy with rfl | ⟨q, hq, hqy⟩
      · refine ⟨hnot, fun hc => ?_⟩
        obtain ⟨q, hq, hqr⟩ := TransGen.head'_iff.mp hc
        exact (above q hq _ hqr).1 (by simp)
      · exact ⟨fun hm => (above q hq y hqy).1 (by simp [hm]), (above q hq y hqy).2⟩

/-- An error is a cycle: some name of the genealogy is met again above itself. -/
theorem check_some (hk : KeyIsName m) : ∀ (fuel : Nat) (r : Role) (genealogy : List String)
    (err : String), m[r.name]? = some r →
    (∀ y ∈ genealogy, TransGen (Edge (parentKeys m)) y r.name) →
    r.check m fuel genealogy = some (some err) →
    ∃ y, TransGen (Edge (parentKeys m)) y y := by
  intro fuel
  induction fuel with
  | zero => intro r genealogy err _ _ h; simp [Role.check] at h
  | succ fuel ih =>
    intro r genealogy err hr hg h
    simp only [Role.check] at h
    split at h
    · rename_i hmem
      exact ⟨r.name, hg _ hmem⟩
    · obtain ⟨p, hp, e, hf⟩ := firstError_eq_some h
      obtain ⟨e', hc⟩ : ∃ e', p.check m fuel (r.name :: genealogy) = some (some e') := by
        cases hc : p.check m fuel (r.name :: genealogy) with
        | none => simp [hc] at hf
        | some e' => cases e' with
          | none => simp [hc] at hf
          | some e' => exact ⟨e', rfl⟩
      obtain ⟨ms, _, hgp⟩ := mem_parentsIn.mp hp
      have hpn := hk _ _ hgp
      have hedge : Edge (parentKeys m) r.name p.name := by
        rw [Edge, parentKeys_of_get hr]; exact List.mem_map_of_mem hp
      refine ih p _ e' (hpn ▸ hgp) ?_ hc
      intro y hy
      rcases List.mem_cons.mp hy with rfl | hy
      · exact TransGen.single hedge
      · exact (hg y hy).tail hedge

/-- The genealogy lists distinct keys, so the walk never runs out of fuel. -/
theorem check_total (hk : KeyIsName m) : ∀ (fuel : Nat) (r : Role) (genealogy : List String),
    m[r.name]? = some r → genealogy.Nodup → (∀ y ∈ genealogy, y ∈ m.keys) →
    m.keys.length < fuel + genealogy.length → r.check m fuel genealogy ≠ none := by
  intro fuel
  induction fuel with
  | zero =>
    intro r genealogy _ hnd hsub hlen
    have := (List.subperm_of_subset hnd hsub).length_le
    omega
  | succ fuel ih =>
    intro r genealogy hr hnd hsub hlen
    simp only [Role.check]
    split
    · simp
    · rename_i hnot
      have hall : ∀ p ∈ parentsIn m r, (Role.check m fuel p (r.name :: genealogy)).map
          (Option.map (r.name ++ ": " ++ ·)) ≠ none := by
        intro p hp
        obtain ⟨ms, _, hg⟩ := mem_parentsIn.mp hp
        have hpn := hk _ _ hg
        have := ih p (r.name :: genealogy) (hpn ▸ hg) (List.nodup_cons.mpr ⟨hnot, hnd⟩) (by
          intro y hy
          rcases List.mem_cons.mp hy with rfl | hy
          · exact Dict.mem_keys_iff.mpr ⟨r, hr⟩
          · exact hsub y hy) (by rw [List.length_cons]; omega)
        simpa using this
      exact firstError_total hall

/-- **`Map.Check` is exact.** For a map whose keys are the names of its roles
it always returns, and fails if and only if the membership graph restricted to
the map has a cycle, whatever the order. -/
theorem check_spec (hk : KeyIsName m) (o : Order) :
    (Map.check o m = some none ∧ Map.Acyclic m) ∨
      ∃ err, Map.check o m = some (some err) ∧ ¬ Map.Acyclic m := by
  have htotal : ∀ k ∈ o.range m.keys, (match m[k]? with
      | none => some none
      | some r => r.check m (m.size + 1) []) ≠ none := by
    intro k _
    cases hr : m[k]? with
    | none => simp
    | some r =>
      refine check_total hk _ r [] ?_ List.nodup_nil (by simp) ?_
      · rw [hk _ _ hr]; exact hr
      · simp [Std.ExtTreeMap.length_keys]
  cases h : Map.check o m with
  | none => exact absurd h (firstError_total htotal)
  | some e => cases e with
    | none =>
      refine Or.inl ⟨rfl, ?_⟩
      intro a hc
      obtain ⟨q, hq, _⟩ := TransGen.head'_iff.mp hc
      obtain ⟨r, hr, _⟩ := (mem_parentKeys hk).mp hq
      have hn := hk _ _ hr
      have hone := firstError_eq_none.mp h a
        (Order.mem_range.mpr (Dict.mem_keys_iff.mpr ⟨r, hr⟩))
      simp only [hr] at hone
      exact (check_none hk _ r [] (hn ▸ hr) hone a (hn ▸ ReflTransGen.refl)).2 hc
    | some err =>
      refine Or.inr ⟨err, rfl, ?_⟩
      intro hac
      obtain ⟨k, _, e, hf⟩ := firstError_eq_some h
      cases hr : m[k]? with
      | none => simp [hr] at hf
      | some r =>
        have hn := hk _ _ hr
        simp only [hr] at hf
        obtain ⟨y, hy⟩ := check_some hk _ r [] e (hn ▸ hr) (by simp) hf
        exact hac y hy

theorem check_eq_none_iff (hk : KeyIsName m) (o : Order) :
    Map.check o m = some none ↔ Map.Acyclic m := by
  rcases check_spec hk o with ⟨h, ha⟩ | ⟨err, h, ha⟩
  · exact ⟨fun _ => ha, fun _ => h⟩
  · exact ⟨fun h' => by rw [h] at h'; simp at h', fun h' => absurd h' ha⟩

/-- A parent of a role of the map, itself in the map. -/
def IsParent (m : RoleMap) (k p : String) : Prop :=
  ∃ r, m[k]? = some r ∧ p ∈ r.parents.map Membership.name ∧ p ∈ m

theorem edge_eq_isParent (hk : KeyIsName m) : Edge (parentKeys m) = IsParent m :=
  funext fun _ => funext fun _ => propext (mem_parentKeys hk)

/-- **Membership loops are detected.** `Map.Check` returns, and it returns an error if
and only if some role of the map is above itself. -/
theorem membership_loop_iff (hk : KeyIsName m) (o : Order) :
    ∃ result, Map.check o m = some result ∧
      (result ≠ none ↔ ∃ k, TransGen (IsParent m) k k) := by
  rw [← edge_eq_isParent hk]
  rcases check_spec hk o with ⟨h, ha⟩ | ⟨err, h, ha⟩
  · exact ⟨none, h, iff_of_false (by simp) fun ⟨k, hc⟩ => ha k hc⟩
  · refine ⟨some err, h, iff_of_true (by simp) ?_⟩
    by_contra hno
    exact ha fun k hc => hno ⟨k, hc⟩

/-- Two roles that are members of each other, a third one below, and a parent that is
not in the map. -/
def loop : RoleMap :=
  (((∅ : RoleMap).insert "a" { name := "a", parents := [{ name := "b" }, { name := "b" }] }).insert
    "b" { name := "b", parents := [{ name := "missing" }, { name := "a" }] }).insert
    "c" { name := "c", parents := [{ name := "b" }] }

theorem loop_detected : ∃ err, Map.check Order.sorted loop = some (some err) := by
  have hkey : KeyIsName loop := by
    unfold loop
    refine KeyIsName.insert (KeyIsName.insert (KeyIsName.insert KeyIsName.empty ?_) ?_) ?_ <;> rfl
  obtain ⟨result, hresult, hiff⟩ := membership_loop_iff hkey Order.sorted
  have hab : IsParent loop "a" "b" := ⟨_, rfl, by decide, by decide⟩
  have hba : IsParent loop "b" "a" := ⟨_, rfl, by decide, by decide⟩
  obtain ⟨err, rfl⟩ := Option.ne_none_iff_exists'.mp (hiff.mpr ⟨"a", .head hab (.single hba)⟩)
  exact ⟨err, hresult⟩

/-! ## Flatten -/

/-- `flattenRole` is the depth-first visit of the membership graph: the names it
returns are those it adds to the seen ones. -/
theorem flattenRole_follows (hk : KeyIsName m) (fuel : Nat) : ∀ (r : Role) (seen : List String),
    m[r.name]? = some r →
    Follows (fun _ => True) id seen (visit (parentKeys m) fuel r.name seen)
      (Map.flattenRole m fuel r seen) := by
  induction fuel with
  | zero => intro r seen _; exact .stuck
  | succ fuel ih =>
    intro r seen hr
    rw [visit, Map.flattenRole]
    split
    · have hskip : Follows (fun _ => True) id seen (some seen) (some ([], seen)) :=
        Follows.skip trivial
      exact hskip
    · have hparent : ∀ p ∈ parentsIn m r, m[p.name]? = some p := by
        intro p hp
        obtain ⟨ms, _, hg⟩ := mem_parentsIn.mp hp
        exact (hk _ _ hg) ▸ hg
      have hloop : Follows (fun _ => True) id seen _ _ := Follows.foldlM
        (fun out y => visit (parentKeys m) fuel y out) (Map.flattenRole m fuel) Role.name
        (fun p hp seen _ => ih p seen (hparent p hp)) seen trivial
      rw [parentKeys_of_get hr]
      exact hloop.snoc r.name (· ++ [r.name]) fun _ _ => ⟨trivial, rfl⟩

/-- `Flatten` is the visit of the keys. -/
theorem flatten_eq_visitAll (hk : KeyIsName m) (o : Order) :
    Map.flatten o m = visitAll (parentKeys m) (m.size + 1) (o.range m.keys) [] := by
  have hrole : ∀ r ∈ (o.range m.keys).filterMap fun k => m[k]?, m[r.name]? = some r := by
    intro r hr
    obtain ⟨k, _, hget⟩ := List.mem_filterMap.mp hr
    exact (hk _ _ hget) ▸ hget
  have hnames : ((o.range m.keys).filterMap fun k => m[k]?).map Role.name = o.range m.keys := by
    rw [List.map_filterMap, List.filterMap_congr, List.filterMap_some]
    intro k hkey
    obtain ⟨r, hget⟩ := Dict.mem_keys_iff.mp (Order.mem_range.mp hkey)
    rw [hget, Option.map_some, hk _ _ hget]
  have h : Follows (fun _ => True) id [] _ _ := Follows.foldlM
    (fun out y => visit (parentKeys m) (m.size + 1) y out) (Map.flattenRole m (m.size + 1))
    Role.name (fun r hr seen _ => flattenRole_follows hk _ r seen (hrole r hr)) [] trivial
  rw [hnames] at h
  refine Eq.trans ?_ h.map_fst
  rw [Option.map_eq_bind]
  rfl

/-- **`Map.Flatten` is a topological enumeration.** On an acyclic map it ends
and lists every key once, after its parents that are in the map. -/
theorem flatten_spec (hk : KeyIsName m) (ha : Map.Acyclic m) (o : Order) :
    ∃ names, Map.flatten o m = some names ∧ Topological (parentKeys m) names ∧
      ∀ k, k ∈ names ↔ k ∈ m := by
  have hclosed : ∀ a ∈ m.keys, ∀ b ∈ parentKeys m a, b ∈ m.keys := by
    intro a _ b hb
    obtain ⟨_, _, _, hm⟩ := (mem_parentKeys hk).mp hb
    exact Std.ExtTreeMap.mem_keys.mpr hm
  have hkeys : ∀ x ∈ o.range m.keys, x ∈ m.keys := fun x hx => Order.mem_range.mp hx
  have hfuel : m.keys.length ≤ m.size + 1 := by simp [Std.ExtTreeMap.length_keys]
  obtain ⟨out, hv, he⟩ := visitAll_spec ha hclosed hkeys hfuel
  refine ⟨out, (flatten_eq_visitAll hk o).trans hv, he.topological, ?_⟩
  intro k
  constructor
  · intro hk'
    rcases he.reached k hk' with h | ⟨x, hx, hr⟩
    · cases h
    · have hx : x ∈ m.keys := Order.mem_range.mp hx
      have hkey : k ∈ m.keys := by
        clear hk'
        induction hr with
        | refl => exact hx
        | tail _ hb ih => exact hclosed _ ih _ hb
      exact Std.ExtTreeMap.mem_keys.mp hkey
  · intro hm
    exact he.covers k (Order.mem_range.mpr (Std.ExtTreeMap.mem_keys.mpr hm))

/-- **Roles are listed after their parents.** Whatever the two orders, the enumeration
of a map that `Map.Check` accepts has each key once, and each parent of the map before
its children. -/
theorem flatten_parents_first (hk : KeyIsName m) {o : Order} (hcheck : Map.check o m = some none)
    (o' : Order) :
    ∃ names, Map.flatten o' m = some names ∧ names.Nodup ∧ (∀ k, k ∈ names ↔ k ∈ m) ∧
      ∀ k p, IsParent m k p → ∃ before after, names = before ++ k :: after ∧ p ∈ before := by
  obtain ⟨names, hnames, htop, hmem⟩ := flatten_spec hk ((check_eq_none_iff hk o).mp hcheck) o'
  refine ⟨names, hnames, htop.nodup, hmem, fun k p hp => ?_⟩
  have hin : k ∈ names := (hmem k).mpr (Dict.mem_iff.mpr ⟨hp.choose, hp.choose_spec.1⟩)
  obtain ⟨before, after, rfl⟩ := List.append_of_mem hin
  exact ⟨before, after, rfl, htop.closed before k after rfl p ((mem_parentKeys hk).mpr hp)⟩

end Spec

/-- `c` is below `a` and `b`, which is below `a`. -/
def diamond : RoleMap :=
  (((∅ : RoleMap).insert "c" { name := "c", parents := [{ name := "b" }, { name := "a" }] }).insert
    "b" { name := "b", parents := [{ name := "a" }] }).insert "a" { name := "a" }

theorem diamond_flattened :
    ∃ names, Map.flatten Order.sorted diamond = some names ∧ names.Nodup ∧
      ∃ before after, names = before ++ "c" :: after ∧ "b" ∈ before := by
  have hkey : KeyIsName diamond := by
    unfold diamond
    refine KeyIsName.insert (KeyIsName.insert (KeyIsName.insert KeyIsName.empty ?_) ?_) ?_ <;> rfl
  have hcheck : Map.check Order.sorted diamond = some none := by decide +kernel
  obtain ⟨names, hnames, hnodup, _, hparents⟩ := flatten_parents_first hkey hcheck Order.sorted
  exact ⟨names, hnames, hnodup, hparents "c" "b" ⟨_, rfl, by decide, by decide⟩⟩

end Ldap2pg.Roles
