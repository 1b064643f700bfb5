import Ldap2pg.Wanted.Merge
import Ldap2pg.Wanted.History

/-! # The parents of the wanted roles

All roles that a rule generates from one LDAP entry have their parents on one
backing array. A merge appends to it in place as long as there is room, over the
cells that the roles merged before it may use. -/
namespace Ldap2pg.Wanted.Parents
open Lib Roles

variable {current : RoleRef} {config : Option ConfigRef} {head : Head} {copied : Bool} {n : String}
  {other : RoleRef}

variable {ctx : Setting}

/-- What the slices of a state satisfy while nothing was overwritten. Every array
has a base: the roles on it have at least that many parents, with distinct names
from there on, and the generator itself sees the cells before. -/
structure Tidy (events : List Event) (st : State) (base : Nat → Nat) : Prop where
  genValid : st.mem.arrays.Valid st.parents
  genRead : st.mem.arrays.read st.parents = (history events).1
  genBase : st.parents.cap ≠ 0 → base st.parents.array = st.parents.len
  valid : ∀ (n : String) (r : RoleRef), st.roles[n]? = some r → st.mem.arrays.Valid r.parents
  fresh : ∀ (n : String) (r : RoleRef), st.roles[n]? = some r → r.parents.cap ≠ 0 →
    base r.parents.array ≤ r.parents.len ∧
      Fresh (base r.parents.array) (names (st.mem.arrays.read r.parents))

/-- Every role of the map has the parents of its definitions and no other. -/
def Exact (events : List Event) (st : State) : Prop :=
  ∀ (n : String) (r : Role), st.roleMap[n]? = some r →
    ∀ x, x ∈ names r.parents ↔ ∃ d ∈ definitions events, d.head.name = n ∧ x ∈ names d.parents

/-- The parents a merge into `current` appends in place. -/
def inPlace (st : State) (current : RoleRef) : List Membership :=
  (missing (names (st.mem.arrays.read current.parents)) (st.mem.arrays.read st.parents)).take
    (current.parents.cap - current.parents.len)

/-- The event writes over no parent of another role: if it merges into a role,
then for every other role on the same array, the names appended over the cells
it uses are those that it holds there, up to order. -/
def Harmless (st : State) : Event → Prop
  | .sent (.role _ head _) => ∀ current : RoleRef, st.roles[head.name]? = some current →
    ∀ (n : String) (other : RoleRef), st.roles[n]? = some other → n ≠ head.name →
      other.parents.array = current.parents.array →
      ∀ x, x ∈ written (names (st.mem.arrays.read other.parents)) current.parents.len
          (names (inPlace st current)) ↔
        x ∈ held (names (st.mem.arrays.read other.parents)) current.parents.len
          (names (inPlace st current))
  | _ => True

section Step
variable {events : List Event} {st : State} {base : Nat → Nat}

theorem Tidy.behind (ht : Tidy events st base) {r : RoleRef} (hr : st.roles[n]? = some r) :
    Behind st.parents r.parents := by
  intro ha
  by_cases hc : r.parents.cap = 0
  · exact .inl hc
  · right
    by_cases hg : st.parents.cap = 0
    · have := ht.genValid.1; omega
    · rw [← ht.genBase hg, ha]
      exact (ht.fresh n r hr hc).1

theorem exact_iff_refs {events : List Event} {st : State} : Exact events st ↔
    ∀ (n : String) (r : RoleRef), st.roles[n]? = some r →
      ∀ x, x ∈ names (st.mem.arrays.read r.parents) ↔
        ∃ d ∈ definitions events, d.head.name = n ∧ x ∈ names d.parents := by
  constructor
  · intro h n r hr x
    exact h n (r.deref st.mem) (by rw [State.roleMap_get, hr]; rfl) x
  · intro h n r hr x
    rw [State.roleMap_get] at hr
    obtain ⟨ref, href, rfl⟩ := Option.map_eq_some_iff.mp hr
    exact h n ref href x

theorem definitions_other {x : String} (hne : head.name ≠ n) :
    (∃ d ∈ definitions (events ++ [.sent (.role copied head config)]),
        d.head.name = n ∧ x ∈ names d.parents) ↔
      ∃ d ∈ definitions events, d.head.name = n ∧ x ∈ names d.parents := by
  simp only [mem_definitions_role, or_and_right, exists_or, exists_eq_left]
  exact ⟨fun h => h.resolve_right fun h => hne h.1, .inl⟩

theorem definitions_self {x : String} :
    (∃ d ∈ definitions (events ++ [.sent (.role copied head config)]),
        d.head.name = head.name ∧ x ∈ names d.parents) ↔
      (∃ d ∈ definitions events, d.head.name = head.name ∧ x ∈ names d.parents) ∨
        x ∈ names (history events).1 := by
  simp only [mem_definitions_role, or_and_right, exists_or, exists_eq_left, true_and]

/-- What a step must be shown to do: it keeps the parents exact if and only if it
is harmless, and then keeps the slices tidy. -/
def StepOk (ctx : Setting) (events : List Event) (st : State) (e : Event) : Prop :=
  (Exact (events ++ [e]) (st.step ctx e) ↔ Harmless st e) ∧
    (Harmless st e → ∃ base, Tidy (events ++ [e]) (st.step ctx e) base)

/-- A step that touches neither roles nor slices, and defines no role. -/
theorem stepOk_frame (ht : Tidy events st base) (hx : Exact events st) {e : Event}
    (hh : Harmless st e) (hmem : (st.step ctx e).mem = st.mem)
    (hparents : (st.step ctx e).parents = st.parents) (hroles : (st.step ctx e).roles = st.roles)
    (hhist : history (events ++ [e]) = history events) : StepOk ctx events st e := by
  have hdefs : definitions (events ++ [e]) = definitions events := by
    rw [definitions, hhist]
    rfl
  refine ⟨⟨fun _ => hh, fun _ => ?_⟩, fun _ => ⟨base, ?_⟩⟩
  · rw [exact_iff_refs] at hx ⊢
    rw [hmem, hroles, hdefs]
    exact hx
  · refine ⟨?_, ?_, ?_, ?_, ?_⟩
    · rw [hmem, hparents]; exact ht.genValid
    · rw [hmem, hparents, hhist]; exact ht.genRead
    · rw [hparents]; exact ht.genBase
    · rw [hroles, hmem]; exact ht.valid
    · rw [hroles, hmem]; exact ht.fresh

/-- Building the parents of a rule takes a new array. -/
theorem stepOk_parents (ht : Tidy events st base) (hx : Exact events st) (l : List Membership) :
    StepOk ctx events st (.sent (.parents l)) := by
  have hempty : st.mem.arrays.Valid .empty := Heap.valid_empty _
  have hread : ∀ s, st.mem.arrays.Valid s →
      (st.mem.arrays.pushAll ctx.growth .empty l).1.read s = st.mem.arrays.read s := by
    intro s hs
    rw [Heap.read_pushAll_other l hempty hs]
    split
    · rw [show Slice.empty.cap - Slice.empty.len = 0 from rfl, List.take_zero, overlay_nil]
    · rfl
  have hhist : history (events ++ [.sent (.parents l)]) = (l, (history events).2) := by
    rw [history_snoc]
    rfl
  have hdefs : definitions (events ++ [.sent (.parents l)]) = definitions events :=
    definitions_frame (by simp)
  refine ⟨⟨fun _ => trivial, fun _ => ?_⟩, fun _ => ?_⟩
  · rw [exact_iff_refs] at hx ⊢
    intro n r hr x
    rw [hdefs, ← hx n r hr x]
    exact iff_of_eq (congrArg (x ∈ names ·) (hread r.parents (ht.valid n r hr)))
  · have hfresh : ∀ (n : String) (r : RoleRef), st.roles[n]? = some r → r.parents.cap ≠ 0 →
        base r.parents.array ≤ r.parents.len ∧ Fresh (base r.parents.array)
          (names ((st.mem.arrays.pushAll ctx.growth .empty l).1.read r.parents)) := by
      intro n r hr hc
      rw [hread r.parents (ht.valid n r hr)]
      exact ht.fresh n r hr hc
    have hkeep : ∀ base', ((st.mem.arrays.pushAll ctx.growth .empty l).2.cap ≠ 0 →
          base' (st.mem.arrays.pushAll ctx.growth .empty l).2.array =
            (st.mem.arrays.pushAll ctx.growth .empty l).2.len) →
        (∀ (n : String) (r : RoleRef), st.roles[n]? = some r → r.parents.cap ≠ 0 →
          base' r.parents.array = base r.parents.array) →
        Tidy (events ++ [.sent (.parents l)]) (st.step ctx (.sent (.parents l))) base' := by
      intro base' hgen hsame
      refine ⟨Heap.valid_pushAll l hempty, ?_, hgen,
        fun n r hr => (ht.valid n r hr).pushAll l, fun n r hr hc => ?_⟩
      · rw [hhist]
        exact Heap.read_pushAll l hempty
      · rw [hsame n r hr hc]
        exact hfresh n r hr hc
    rcases Heap.pushAll_array (g := ctx.growth) l st.mem.arrays .empty with ⟨_, hcap⟩ | hnew
    · exact ⟨base, hkeep base (fun hc => absurd hcap hc) fun _ _ _ _ => rfl⟩
    · refine ⟨Function.update base _ _, hkeep _ (fun _ => Function.update_self ..) ?_⟩
      intro n r hr hc
      have := (ht.valid n r hr).array_lt hc
      exact Function.update_of_ne (by omega) ..

/-- A role without a name, or with a blacklisted one. -/
theorem stepOk_skip (hkn : Known ctx events st) (ht : Tidy events st base) (hx : Exact events st)
    (hk : ¬ State.Kept ctx head.name) :
    StepOk ctx events st (.sent (.role copied head config)) := by
  have hstep : st.step ctx (.sent (.role copied head config)) = st := by
    rw [State.step, State.receive_role ht.genValid]
    exact State.addRole_skip hk
  have hother : ∀ (n : String) (r : RoleRef), st.roles[n]? = some r → head.name ≠ n :=
    fun n r hr he => hk (he ▸ hkn.kept n r hr)
  have hh : Harmless st (.sent (.role copied head config)) :=
    fun current hcur => absurd rfl (hother head.name current hcur)
  unfold StepOk
  rw [hstep]
  refine ⟨⟨fun _ => hh, fun _ => ?_⟩, fun _ => ⟨base, ht.genValid, ?_, ht.genBase,
    ht.valid, ht.fresh⟩⟩
  · rw [exact_iff_refs] at hx ⊢
    intro n r hr x
    rw [hx n r hr x, definitions_other (hother n r hr)]
  · rw [history_role]
    exact ht.genRead

/-- A role of a new name. -/
theorem stepOk_new (hkn : Known ctx events st) (ht : Tidy events st base) (hx : Exact events st)
    (hk : State.Kept ctx head.name) (hnew : st.roles[head.name]? = none) :
    StepOk ctx events st (.sent (.role copied head config)) := by
  have hstep : st.step ctx (.sent (.role copied head config)) =
      { st with roles := st.roles.insert head.name { head, parents := st.parents, config } } := by
    rw [State.step, State.receive_role ht.genValid]
    exact State.addRole_new hk hnew
  have hh : Harmless st (.sent (.role copied head config)) := by
    intro current hcur
    rw [hnew] at hcur
    cases hcur
  unfold StepOk
  rw [hstep]
  refine ⟨⟨fun _ => hh, fun _ => ?_⟩, fun _ => ⟨base, ht.genValid, ?_, ht.genBase, ?_, ?_⟩⟩
  · rw [exact_iff_refs] at hx ⊢
    intro n r hr x
    rcases Dict.get_insert_cases hr with ⟨rfl, rfl⟩ | ⟨hne, hr⟩
    · rw [ht.genRead, definitions_self]
      refine ⟨.inr, fun h => h.resolve_left ?_⟩
      intro ⟨d, hd, hn, _⟩
      exact hkn.undefined hk hnew d hd hn
    · rw [hx n r hr x, definitions_other (Ne.symm hne)]
  · rw [history_role]
    exact ht.genRead
  · intro n r hr
    rcases Dict.get_insert_cases hr with ⟨rfl, rfl⟩ | ⟨_, hr⟩
    · exact ht.genValid
    · exact ht.valid n r hr
  · intro n r hr hc
    rcases Dict.get_insert_cases hr with ⟨rfl, rfl⟩ | ⟨_, hr⟩
    · refine ⟨Nat.le_of_eq (ht.genBase hc), ?_⟩
      rw [ht.genBase hc, ← ht.genValid.length_read, ← List.length_map (f := Membership.name)]
      exact Fresh.length _
    · exact ht.fresh n r hr hc

/-- The arrays after a merge into `current`, and its new slice. -/
def merged (ctx : Setting) (st : State) (current : RoleRef) : Heap Membership × Slice :=
  st.mem.arrays.pushAll ctx.growth current.parents
    (missing (names (st.mem.arrays.read current.parents)) (st.mem.arrays.read st.parents))

theorem merge_eq_merged (ht : Tidy events st base) (hcur : st.roles[n]? = some current) :
    mergeParents ctx.growth st.mem.arrays current.parents st.parents = merged ctx st current :=
  mergeParents_eq (ht.valid n current hcur) ht.genValid (ht.behind hcur)

theorem names_merged (ctx : Setting) (ht : Tidy events st base) (hcur : st.roles[n]? = some current)
    (x : String) :
    x ∈ names ((merged ctx st current).1.read (merged ctx st current).2) ↔
      x ∈ names (st.mem.arrays.read current.parents) ∨ x ∈ names (history events).1 := by
  rw [merged, Heap.read_pushAll _ (ht.valid n current hcur), names_append, List.mem_append,
    mem_names_missing, ht.genRead]
  by_cases hx : x ∈ names (st.mem.arrays.read current.parents) <;> simp [hx]

/-- Another role sees the names that were appended in place on its array. -/
theorem names_merged_other (ctx : Setting) (ht : Tidy events st base) {m : String}
    (hcur : st.roles[n]? = some current) (hother : st.roles[m]? = some other) :
    names ((merged ctx st current).1.read other.parents) =
      if other.parents.array = current.parents.array
      then overlay (names (st.mem.arrays.read other.parents)) current.parents.len
        (names (inPlace st current))
      else names (st.mem.arrays.read other.parents) := by
  rw [merged, Heap.read_pushAll_other _ (ht.valid n current hcur) (ht.valid m other hother)]
  split
  · exact map_overlay Membership.name _ _ _
  · rfl

theorem merged_gen (ctx : Setting) (ht : Tidy events st base) (hcur : st.roles[n]? = some current) :
    (merged ctx st current).1.read st.parents = st.mem.arrays.read st.parents := by
  rw [merged, Heap.read_pushAll_other _ (ht.valid n current hcur) ht.genValid]
  split
  case isFalse => rfl
  case isTrue ha =>
    rcases ht.behind hcur ha with hc | hle
    · rw [hc, Nat.zero_sub, List.take_zero, overlay_nil]
    · exact overlay_of_length_le _ (by rw [ht.genValid.length_read]; exact hle)

/-- The cells of another role that a merge may write to are fresh, or there are
none. -/
theorem fresh_at (ht : Tidy events st base) {m : String} (hcur : st.roles[n]? = some current)
    (hother : st.roles[m]? = some other) (ha : other.parents.array = current.parents.array) :
    names (inPlace st current) = [] ∨ names (st.mem.arrays.read other.parents) = [] ∨
      (base other.parents.array ≤ current.parents.len ∧
        Fresh (base other.parents.array) (names (st.mem.arrays.read other.parents))) := by
  by_cases hc : current.parents.cap = 0
  · left
    rw [inPlace, hc, Nat.zero_sub, List.take_zero]
    rfl
  · by_cases ho : other.parents.cap = 0
    · right; left
      have hlen : other.parents.len = 0 := by have := (ht.valid m other hother).1; omega
      have hnil := (ht.valid m other hother).length_read
      rw [hlen] at hnil
      rw [List.eq_nil_of_length_eq_zero hnil]
      rfl
    · right; right
      exact ⟨ha ▸ (ht.fresh n current hcur hc).1, (ht.fresh m other hother ho).2⟩

theorem other_exact_iff (ctx : Setting) (ht : Tidy events st base) {m : String}
    (hcur : st.roles[n]? = some current) (hother : st.roles[m]? = some other) :
    (∀ x, x ∈ names ((merged ctx st current).1.read other.parents) ↔
        x ∈ names (st.mem.arrays.read other.parents)) ↔
      (other.parents.array = current.parents.array →
        ∀ x, x ∈ written (names (st.mem.arrays.read other.parents)) current.parents.len
            (names (inPlace st current)) ↔
          x ∈ held (names (st.mem.arrays.read other.parents)) current.parents.len
            (names (inPlace st current))) := by
  rw [names_merged_other ctx ht hcur hother]
  by_cases ha : other.parents.array = current.parents.array
  · simp only [ha, if_true, forall_const]
    rcases fresh_at ht hcur hother ha with hnil | hnil | ⟨hle, hf⟩
    · rw [hnil, overlay_nil]
      simp [written, held]
    · rw [hnil, overlay_of_length_le _ (Nat.zero_le _)]
      simp [written, held]
    · exact mem_overlay_iff (hf.mono hle)
  · simp [ha]

theorem other_fresh (ctx : Setting) (ht : Tidy events st base) {m : String}
    (hcur : st.roles[n]? = some current) (hother : st.roles[m]? = some other)
    (hc : other.parents.cap ≠ 0)
    (hharmless : other.parents.array = current.parents.array → ∀ x, x ∈ written (names
    (st.mem.arrays.read other.parents)) current.parents.len (names (inPlace st current)) ↔ x ∈ held
    (names (st.mem.arrays.read other.parents)) current.parents.len (names (inPlace st current))) :
    Fresh (base other.parents.array) (names ((merged ctx st current).1.read other.parents)) := by
  have hf := (ht.fresh m other hother hc).2
  rw [names_merged_other ctx ht hcur hother]
  split
  case isFalse => exact hf
  case isTrue ha =>
    rcases fresh_at ht hcur hother ha with hnil | hnil | ⟨hle, _⟩
    · rw [hnil, overlay_nil]
      exact hf
    · rw [hnil] at hf ⊢
      rw [overlay_of_length_le _ (Nat.zero_le _)]
      exact hf
    · exact hf.overlay hle fun x hx => (hharmless ha x).mpr hx

/-- The role merged into: its array may be a new one, on which it is alone. -/
theorem merged_base (ht : Tidy events st base) (hcur : st.roles[n]? = some current) :
    ∃ base' : Nat → Nat,
      (∀ s : Slice, st.mem.arrays.Valid s → s.cap ≠ 0 → base' s.array = base s.array) ∧
      ((merged ctx st current).2.cap ≠ 0 →
        base' (merged ctx st current).2.array ≤ (merged ctx st current).2.len ∧
        Fresh (base' (merged ctx st current).2.array)
          (names ((merged ctx st current).1.read (merged ctx st current).2))) := by
  have hvalid := ht.valid n current hcur
  have hread : (merged ctx st current).1.read (merged ctx st current).2 =
      st.mem.arrays.read current.parents ++
        missing (names (st.mem.arrays.read current.parents)) (st.mem.arrays.read st.parents) :=
    Heap.read_pushAll _ hvalid
  have hlen : current.parents.len ≤ (merged ctx st current).2.len := by
    have hv : (merged ctx st current).1.Valid (merged ctx st current).2 :=
      Heap.valid_pushAll _ hvalid
    rw [← hv.length_read, hread, List.length_append, hvalid.length_read]
    exact Nat.le_add_right _ _
  obtain ⟨b, hble, hf, hb⟩ : ∃ b, b ≤ current.parents.len ∧
      Fresh b (names (st.mem.arrays.read current.parents)) ∧
      (current.parents.cap ≠ 0 → b = base current.parents.array) := by
    by_cases hc : current.parents.cap = 0
    · have hnil : st.mem.arrays.read current.parents = [] := by
        apply List.eq_nil_of_length_eq_zero
        rw [hvalid.length_read]
        have := hvalid.1
        omega
      refine ⟨0, Nat.zero_le _, ?_, fun h => absurd hc h⟩
      rw [hnil]
      exact Fresh.length []
    · obtain ⟨hle, hf⟩ := ht.fresh n current hcur hc
      exact ⟨_, hle, hf, fun _ => rfl⟩
  have hfresh : Fresh b (names ((merged ctx st current).1.read (merged ctx st current).2)) := by
    rw [hread, names_append]
    refine hf.append ?_ (nodup_names_missing _ _) fun x hx hx' => ?_
    · rw [names, List.length_map, hvalid.length_read]
      exact hble
    · exact ((mem_names_missing _ _).mp hx').2 hx
  rcases Heap.pushAll_array (g := ctx.growth) (missing (names (st.mem.arrays.read current.parents))
      (st.mem.arrays.read st.parents)) st.mem.arrays current.parents with ⟨ha, hcap⟩ | hnew
  · refine ⟨base, fun _ _ _ => rfl, fun hc => ?_⟩
    have hbase : base (merged ctx st current).2.array = b := by
      rw [merged, ha]
      exact (hb fun h => hc (hcap.trans h)).symm
    rw [hbase]
    exact ⟨Nat.le_trans hble hlen, hfresh⟩
  · refine ⟨Function.update base (merged ctx st current).2.array b, fun s hs hc => ?_, fun _ => ?_⟩
    · have := hs.array_lt hc
      exact Function.update_of_ne (by unfold merged; omega) ..
    · rw [Function.update_self]
      exact ⟨Nat.le_trans hble hlen, hfresh⟩

/-- A role that is there is merged, and the other ones stay. -/
theorem step_merge (hkn : Known ctx events st) (ht : Tidy events st base) (copied : Bool)
    (config : Option ConfigRef) (hk : State.Kept ctx head.name)
    (hcur : st.roles[head.name]? = some current) :
    ∃ mem role, mem.arrays = (merged ctx st current).1 ∧ role.parents = (merged ctx st current).2 ∧
      st.step ctx (.sent (.role copied head config)) =
        { st with mem := mem, roles := st.roles.insert head.name role } := by
  have hname : current.head.name = head.name := hkn.key hcur
  have hpush : mergeParents ctx.growth st.mem.arrays current.parents st.parents =
      merged ctx st current := merge_eq_merged ht hcur
  refine ⟨(current.merge ctx.growth st.mem { head, parents := st.parents, config }).1,
    (current.merge ctx.growth st.mem { head, parents := st.parents, config }).2,
    by rw [← hpush]; rfl, by rw [← hpush]; rfl, ?_⟩
  rw [State.step, State.receive_role ht.genValid, ← hname]
  exact State.addRole_merge hk hcur

theorem stepOk_merge (hkn : Known ctx events st) (ht : Tidy events st base) (hx : Exact events st)
    (hk : State.Kept ctx head.name) (hcur : st.roles[head.name]? = some current) :
    StepOk ctx events st (.sent (.role copied head config)) := by
  obtain ⟨mem, role, hmem, hrole, hstep⟩ := step_merge hkn ht copied config hk hcur
  have harrays : (st.step ctx (.sent (.role copied head config))).mem.arrays =
      (merged ctx st current).1 := by rw [hstep, ← hmem]
  have hgen : (st.step ctx (.sent (.role copied head config))).parents = st.parents := by rw [hstep]
  have hget : ∀ n : String, (st.step ctx (.sent (.role copied head config))).roles[n]? =
      if head.name = n then some role else st.roles[n]? := by
    intro n
    rw [hstep]
    exact Dict.get_insert _ _ _ _
  -- the roles after the step: the merged one, and the others
  have hcases : ∀ (n : String) (r : RoleRef),
      (st.step ctx (.sent (.role copied head config))).roles[n]? = some r →
      (n = head.name ∧ r.parents = (merged ctx st current).2) ∨
        (n ≠ head.name ∧ st.roles[n]? = some r) := by
    intro n r hr
    rw [hget] at hr
    split at hr
    case isTrue he =>
      cases hr
      exact .inl ⟨he.symm, hrole⟩
    case isFalse he => exact .inr ⟨Ne.symm he, hr⟩
  have hothers : ∀ (n : String) (r : RoleRef), n ≠ head.name → st.roles[n]? = some r →
      (st.step ctx (.sent (.role copied head config))).roles[n]? = some r := by
    intro n r hne hr
    rw [hget, if_neg (Ne.symm hne), hr]
  rw [exact_iff_refs] at hx
  refine ⟨⟨fun hx' => ?_, fun hh => ?_⟩, fun hh => ?_⟩
  · rw [exact_iff_refs] at hx'
    intro current' hcur' n other hother hne ha
    obtain rfl : current = current' := Option.some.inj (hcur.symm.trans hcur')
    refine (other_exact_iff ctx ht hcur hother).mp (fun x => ?_) ha
    rw [← harrays, hx' n other (hothers n other hne hother) x, definitions_other (Ne.symm hne),
      hx n other hother x]
  · rw [exact_iff_refs]
    intro n r hr x
    rw [harrays]
    rcases hcases n r hr with ⟨rfl, hp⟩ | ⟨hne, hr⟩
    · rw [hp, names_merged ctx ht hcur, definitions_self, hx _ current hcur x]
    · rw [(other_exact_iff ctx ht hcur hr).mpr (hh current hcur n r hr hne) x,
        definitions_other (Ne.symm hne), hx n r hr x]
  · obtain ⟨base', hsame, hself⟩ := merged_base ht hcur
    have hkeep : ∀ s : Slice, st.mem.arrays.Valid s → (merged ctx st current).1.Valid s :=
      fun s hs => hs.pushAll _
    refine ⟨base', ?_, ?_, ?_, ?_, ?_⟩
    · rw [harrays, hgen]
      exact hkeep _ ht.genValid
    · rw [harrays, hgen, merged_gen ctx ht hcur, history_role]
      exact ht.genRead
    · rw [hgen]
      exact fun hc => (hsame _ ht.genValid hc).trans (ht.genBase hc)
    · intro n r hr
      rw [harrays]
      rcases hcases n r hr with ⟨rfl, hp⟩ | ⟨_, hr⟩
      · rw [hp]
        exact Heap.valid_pushAll _ (ht.valid _ current hcur)
      · exact hkeep _ (ht.valid n r hr)
    · intro n r hr hc
      rw [harrays]
      rcases hcases n r hr with ⟨rfl, hp⟩ | ⟨hne, hr⟩
      · rw [hp] at hc ⊢
        exact hself hc
      · rw [hsame _ (ht.valid n r hr) hc]
        exact ⟨(ht.fresh n r hr hc).1, other_fresh ctx ht hcur hr hc (hh current hcur n r hr hne)⟩

theorem stepOk (hkn : Known ctx events st) (ht : Tidy events st base) (hx : Exact events st)
    (e : Event) :
    StepOk ctx events st e := by
  cases e with
  | searchError err =>
    exact stepOk_frame ht hx trivial rfl rfl rfl (by rw [history_snoc]; rfl)
  | grant g =>
    obtain ⟨hmem, hparents, hroles⟩ := State.addGrant_frame ctx st g
    exact stepOk_frame ht hx trivial hmem hparents hroles (by rw [history_snoc]; rfl)
  | sent s =>
    cases s with
    | parents l => exact stepOk_parents ht hx l
    | role copied head config =>
      by_cases hk : State.Kept ctx head.name
      · cases hcur : st.roles[head.name]? with
        | none => exact stepOk_new hkn ht hx hk hcur
        | some current => exact stepOk_merge hkn ht hx hk hcur
      · exact stepOk_skip hkn ht hx hk

end Step

theorem tidy_init (ctx : Setting) (configs : ConfigRef → Config) :
    Tidy [] (State.after ctx configs []) fun _ => 0 := by
  refine ⟨Heap.valid_empty _, rfl, fun h => absurd rfl h, ?_, ?_⟩
  · intro n r hr; simp [State.after] at hr
  · intro n r hr; simp [State.after] at hr

theorem exact_iff_harmless (ctx : Setting) (configs : ConfigRef → Config) (events : List Event) :
    (∀ before later, events = before ++ later → Exact before (State.after ctx configs before)) ↔
      ∀ before e later, events = before ++ e :: later →
        Harmless (State.after ctx configs before) e := by
  refine forall_states_iff (T := fun before => ∃ base, Tidy before (State.after ctx configs before) base)
    ⟨fun n r hr => ?_, _, tidy_init ctx configs⟩ (fun before e hx ht => ?_) events
  · simp [State.roleMap_get, State.after] at hr
  · obtain ⟨base, ht⟩ := ht
    rw [after_snoc]
    exact stepOk (known_after ctx configs before) ht hx e

/-- **When parents leak between roles.** In every state that `Run` goes through,
each role has exactly the parents of its own definitions, if and only if no step
of the run writes over the parents of another role. The map that is returned is
that of the last state. -/
theorem parents_exact_iff {env : Ldap.Env} {reg : Privileges.Registry} {ctx : Setting} {o : Order}
    {connect : Option String} {ldapc : Ldap.Directory} {configs : ConfigRef → Config} {m : Rules}
    {out : Outcome} (h : m.run env reg ctx o connect ldapc configs = .ok out)
    (hconn : (if m.hasLDAPSearches then connect else none) = none) :
    ∃ events, m.events env reg (o.sub 0) ldapc = .ok events ∧
      out.roles = (State.after ctx configs events).roleMap ∧
      ((∀ before later, events = before ++ later →
          Exact before (State.after ctx configs before)) ↔
        ∀ before e later, events = before ++ e :: later →
          Harmless (State.after ctx configs before) e) := by
  obtain ⟨events, checkErr, hevents, _, _, rfl⟩ := run_eq_ok h hconn
  exact ⟨events, hevents, rfl, exact_iff_harmless ctx configs events⟩

/-! A group of two members in three parents, then one more parent for each. -/
open Ldap.Sample Sample

def groupStep : Step where
  ldapSearch := { attributes := ["member"] }
  roleRules := [roleRule memberField ["a", "b", "c"]]

def leakyRules : Rules :=
  [groupStep, { roleRules := [roleRule (literal "alice") ["x"], roleRule (literal "bob") ["y"]] }]

/-- `alice` ends up in `y`, of which only `bob` is to be a member. -/
theorem bob_parent_leaks_to_alice :
    ∃ events, leakyRules.events env noPrivileges (Order.sorted.sub 0)
        (fun _ _ => .ok [group]) = .ok events ∧
      ∃ out, leakyRules.run env noPrivileges noBlacklist Order.sorted none
          (fun _ _ => .ok [group]) (fun _ => ∅) = .ok out ∧
        (∃ r, out.roles["alice"]? = some r ∧ "y" ∈ names r.parents) ∧
        ∀ d ∈ definitions events, d.head.name = "alice" → "y" ∉ names d.parents := by
  refine ⟨_, rfl, _, rfl, ⟨_, rfl, ?_⟩, ?_⟩
  · decide
  · decide

/-- So one of the steps of that run is not harmless. -/
theorem leaky_step_not_harmless :
    ∃ events, leakyRules.events env noPrivileges (Order.sorted.sub 0)
        (fun _ _ => .ok [group]) = .ok events ∧
      ¬ ∀ before e later, events = before ++ e :: later →
        Harmless (State.after noBlacklist (fun _ => ∅) before) e := by
  obtain ⟨out, hrun⟩ : ∃ out, leakyRules.run env noPrivileges noBlacklist Order.sorted none
      (fun _ _ => .ok [group]) (fun _ => ∅) = .ok out := ⟨_, rfl⟩
  obtain ⟨events, hevents, _, hiff⟩ := parents_exact_iff hrun rfl
  refine ⟨events, hevents, fun hh => ?_⟩
  have hexact := hiff.mpr hh events [] (List.append_nil events).symm
  cases hevents
  obtain ⟨d, hd, hname, hy⟩ := (hexact "alice" _ rfl "y").mp (by decide)
  revert d
  decide

end Ldap2pg.Wanted.Parents
