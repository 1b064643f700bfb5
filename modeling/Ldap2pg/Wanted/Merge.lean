import Ldap2pg.Wanted.Run

/-! # `Role.Merge` on slices

The loop over the parents of the merged role reads its slice cell by cell while
it appends to another one. As long as the appends stay behind the cells it
reads, it appends the missing parents, each once. -/
namespace Ldap2pg.Wanted
open Lib Roles

variable (l : List Membership)

/-- The names of a list of memberships. -/
def names (l : List Membership) : List String := l.map Membership.name

@[simp] theorem names_append (l₁ l₂ : List Membership) : names (l₁ ++ l₂) = names l₁ ++ names l₂ :=
  List.map_append

/-- The memberships of a list whose name was not seen, each name once. -/
def missing : List String → List Membership → List Membership
  | _, [] => []
  | seen, m :: l => if m.name ∈ seen then missing seen l else m :: missing (seen ++ [m.name]) l

theorem mem_names_missing {x : String} :
    ∀ seen, x ∈ names (missing seen l) ↔ x ∈ names l ∧ x ∉ seen := by
  induction l with
  | nil => intro seen; simp [missing, names]
  | cons m l ih =>
    intro seen
    unfold missing
    split
    case isTrue hm =>
      rw [ih]
      simp only [names, List.map_cons, List.mem_cons]
      constructor
      · rintro ⟨hx, hs⟩; exact ⟨.inr hx, hs⟩
      · rintro ⟨hx, hs⟩; exact ⟨hx.resolve_left fun he => hs (he ▸ hm), hs⟩
    case isFalse hm =>
      have hcons : x ∈ names (m :: missing (seen ++ [m.name]) l) ↔
          x = m.name ∨ x ∈ names (missing (seen ++ [m.name]) l) := by simp [names]
      have hsnoc : x ∉ seen ++ [m.name] ↔ x ∉ seen ∧ x ≠ m.name := by simp
      rw [hcons, ih, hsnoc]
      simp only [names, List.map_cons, List.mem_cons]
      constructor
      · rintro (rfl | ⟨hx, hs, _⟩)
        · exact ⟨.inl rfl, hm⟩
        · exact ⟨.inr hx, hs⟩
      · rintro ⟨hx, hs⟩
        by_cases he : x = m.name
        · exact .inl he
        · exact .inr ⟨hx.resolve_left he, hs, he⟩

theorem nodup_names_missing : ∀ seen, (names (missing seen l)).Nodup := by
  induction l with
  | nil => intro seen; exact List.nodup_nil
  | cons m l ih =>
    intro seen
    unfold missing
    split
    · exact ih seen
    · refine List.nodup_cons.mpr ⟨fun h => ?_, ih _⟩
      obtain ⟨_, hnot⟩ := (mem_names_missing l _).mp h
      exact hnot (by simp)

/-- Appends to `r` do not reach the cells of `o`. -/
def Behind (o r : Slice) : Prop := o.array = r.array → r.cap = 0 ∨ o.len ≤ r.len

section Loop
variable {g : Growth} {h : Heap Membership} {r o : Slice}

theorem Behind.read_append (hb : Behind o r) (ho : h.Valid o) (v : Membership) :
    (h.append g r [v]).1.read o = h.read o := by
  rw [Heap.read_append_other [v] ho]
  split
  case isFalse => rfl
  case isTrue hin =>
    obtain ⟨ha, hc⟩ := hin
    apply overlay_of_length_le
    rw [ho.length_read]
    rcases hb ha with hz | hle
    · rw [hz, List.length_singleton] at hc; omega
    · exact hle

theorem Behind.append (hb : Behind o r) (ho : h.Valid o) (v : Membership) :
    Behind o (h.append g r [v]).2 := by
  by_cases hle : r.len + [v].length ≤ r.cap
  · rw [Heap.append_inPlace hle]
    intro ha
    rcases hb ha with hz | hl
    · exact .inl hz
    · exact .inr (Nat.le_trans hl (Nat.le_add_right _ _))
  · rw [Heap.append_grow hle]
    intro ha
    right
    -- a slice on the new array has no cell: its array would exist already
    by_contra hlt
    have hcap : o.cap ≠ 0 := by have := ho.1; simp only at hlt; omega
    have hlen : 0 < (h.cells o.array).length := by rw [ho.2.resolve_left hcap]; omega
    have := Heap.lt_of_cells hlen
    simp only at ha
    omega

/-- One turn of the loop, on a membership already read. -/
def mergeStep (g : Growth) (hr : Heap Membership × Slice) (m : Membership) :
    Heap Membership × Slice :=
  if memberOf (hr.1.read hr.2) m.name then hr else hr.1.append g hr.2 [m]

theorem mergeStep_spec (hr : h.Valid r) (ho : h.Valid o) (hb : Behind o r) (m : Membership) :
    (mergeStep g (h, r) m).1.Valid (mergeStep g (h, r) m).2 ∧
      (mergeStep g (h, r) m).1.Valid o ∧ Behind o (mergeStep g (h, r) m).2 ∧
      (mergeStep g (h, r) m).1.read o = h.read o := by
  unfold mergeStep
  split
  · exact ⟨hr, ho, hb, rfl⟩
  · exact ⟨Heap.valid_append [m] hr, ho.append [m], hb.append ho m, hb.read_append ho m⟩

/-- Reading the cells while appending is reading them beforehand. -/
theorem mergeLoop_eq (is : List Nat) :
    ∀ (h : Heap Membership) (r : Slice), h.Valid r → h.Valid o → Behind o r →
      is.foldl (fun hr i => mergeStep g hr ((hr.1.read o)[i]?.getD default)) (h, r) =
        (is.map fun i => (h.read o)[i]?.getD default).foldl (mergeStep g) (h, r) := by
  induction is with
  | nil => intro h r _ _ _; rfl
  | cons i is ih =>
    intro h r hr ho hb
    obtain ⟨hr', ho', hb', hread⟩ := mergeStep_spec (g := g) hr ho hb ((h.read o)[i]?.getD default)
    rw [List.foldl_cons, List.map_cons, List.foldl_cons]
    have hrest := ih _ _ hr' ho' hb'
    rw [hread] at hrest
    exact hrest

theorem foldl_mergeStep :
    ∀ (h : Heap Membership) (r : Slice), h.Valid r →
      l.foldl (mergeStep g) (h, r) = h.pushAll g r (missing (names (h.read r)) l) := by
  induction l with
  | nil => intro h r _; rfl
  | cons m l ih =>
    intro h r hr
    rw [List.foldl_cons, mergeStep, missing]
    by_cases hm : m.name ∈ names (h.read r)
    · rw [if_pos (memberOf_iff.mpr hm), if_pos hm, ih h r hr]
    · rw [if_neg (mt memberOf_iff.mp hm), if_neg hm, Heap.pushAll_cons,
        ih _ _ (Heap.valid_append [m] hr), Heap.read_append [m] hr, names_append]
      rfl

/-- **`Role.Merge` appends the missing parents.** -/
theorem mergeParents_eq (hr : h.Valid r) (ho : h.Valid o) (hb : Behind o r) :
    mergeParents g h r o = h.pushAll g r (missing (names (h.read r)) (h.read o)) := by
  have hcells : ((List.range o.len).map fun i => (h.read o)[i]?.getD default) = h.read o := by
    apply List.ext_getElem?
    intro i
    have hlen := ho.length_read
    by_cases hi : i < o.len
    · have hi' : i < (h.read o).length := by omega
      simp [hi, List.getElem?_eq_getElem hi']
    · rw [List.getElem?_eq_none (by simp; omega), List.getElem?_eq_none (by omega)]
  have hloop := mergeLoop_eq (g := g) (List.range o.len) h r hr ho hb
  rw [hcells, foldl_mergeStep _ h r hr] at hloop
  exact hloop

end Loop

end Ldap2pg.Wanted
