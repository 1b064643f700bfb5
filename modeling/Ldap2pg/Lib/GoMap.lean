import Mathlib

/-! # Go maps and the order in which they are ranged over

A Go map is a finite partial function; `range` over it, `maps.Keys` and the
slices of a set come in an order the language leaves open, drawn anew at every
loop. `Dict` is the map itself, with extensional equality. `Order` is one
resolution of all these draws: a permutation for every loop, where a loop is
known by its site. A statement about every order is a statement about every
`Order`. -/
namespace Ldap2pg.Lib

variable {α : Type} {k : String}

/-- A Go map with string keys. -/
abbrev Dict (β : Type) := Std.ExtTreeMap String β

namespace Dict
variable {β : Type}

@[simp, grind =] theorem get_insert (m : Dict β) (k a : String) (v : β) :
    (m.insert k v)[a]? = if k = a then some v else m[a]? := by
  simp [Std.ExtTreeMap.getElem?_insert]

theorem get_insert_cases {m : Dict β} {a : String} {v w : β} (h : (m.insert k v)[a]? = some w) :
    (a = k ∧ w = v) ∨ (a ≠ k ∧ m[a]? = some w) := by
  rw [get_insert] at h
  split at h
  case isTrue he => exact .inl ⟨he.symm, (Option.some.inj h).symm⟩
  case isFalse he => exact .inr ⟨Ne.symm he, h⟩

@[simp, grind =] theorem get_erase (m : Dict β) (k a : String) :
    (m.erase k)[a]? = if k = a then none else m[a]? := by
  simp [Std.ExtTreeMap.getElem?_erase]

@[simp] theorem get_empty (a : String) : (∅ : Dict β)[a]? = none := by simp

theorem mem_iff {m : Dict β} : k ∈ m ↔ ∃ v, m[k]? = some v := by
  rw [Std.ExtTreeMap.mem_iff_isSome_getElem?, Option.isSome_iff_exists]

theorem mem_keys_iff {m : Dict β} : k ∈ m.keys ↔ ∃ v, m[k]? = some v := by
  rw [Std.ExtTreeMap.mem_keys, mem_iff]

theorem not_mem_iff {m : Dict β} : k ∉ m ↔ m[k]? = none := by
  rw [Std.ExtTreeMap.mem_iff_isSome_getElem?]; simp

theorem ext_get {m m' : Dict β} (h : ∀ k : String, m[k]? = m'[k]?) : m = m' :=
  Std.ExtTreeMap.ext_getElem? h

/-- Keys are listed in order, so maps with the same keys list them alike. -/
theorem keys_congr {γ : Type} {m : Dict β} {m' : Dict γ} (h : ∀ k : String, k ∈ m ↔ k ∈ m') :
    m.keys = m'.keys := by
  have hperm : m.keys.Perm m'.keys :=
    (List.perm_ext_iff_of_nodup Std.ExtTreeMap.nodup_keys Std.ExtTreeMap.nodup_keys).mpr
      fun k => by simp [h k]
  refine hperm.eq_of_pairwise (fun _ _ _ _ => le_antisymm) ?_ ?_
  · exact Std.ExtTreeMap.ordered_keys.imp fun h => le_of_lt (compare_lt_iff_lt.mp h)
  · exact Std.ExtTreeMap.ordered_keys.imp fun h => le_of_lt (compare_lt_iff_lt.mp h)

theorem insert_comm {m : Dict β} {k' : String} (h : k ≠ k') (v v' : β) :
    (m.insert k v).insert k' v' = (m.insert k' v').insert k v := by
  refine ext_get fun a => ?_
  simp only [get_insert]
  by_cases hk : k = a
  · have hk' : k' ≠ a := fun hk' => h (hk.trans hk'.symm)
    simp [hk, hk']
  · simp [hk]

/-- `maps.Copy(dst, src)`: keys of `src` override. -/
def copy (dst src : Dict β) : Dict β := dst ∪ src

@[simp] theorem get_copy (dst src : Dict β) (k : String) :
    (dst.copy src)[k]? = src[k]?.or dst[k]? := by
  simp [copy, Std.ExtTreeMap.getElem?_union]

theorem mem_copy {dst src : Dict β} : k ∈ dst.copy src ↔ k ∈ dst ∨ k ∈ src := by
  simp [copy, Std.ExtTreeMap.mem_union_iff]

theorem empty_copy (m : Dict β) : (∅ : Dict β).copy m = m := ext_get fun k => by simp

/-- The read of a map of lists: nil for an unknown key. -/
def listAt {α : Type} (m : Dict (List α)) (k : String) : List α := m[k]?.getD []

@[simp] theorem listAt_empty (k : String) : listAt (∅ : Dict (List α)) k = [] := by
  simp [listAt]

@[simp] theorem listAt_insert (m : Dict (List α)) (k a : String) (l : List α) :
    listAt (m.insert k l) a = if k = a then l else listAt m a := by
  unfold listAt
  rw [get_insert]
  split <;> rfl

theorem mem_of_mem_listAt {m : Dict (List α)} {a : α} (h : a ∈ listAt m k) : k ∈ m := by
  unfold listAt at h
  cases hk : m[k]? with
  | none => rw [hk] at h; cases h
  | some l => exact mem_iff.mpr ⟨l, hk⟩

/-- A loop that files rows in a map. -/
def fill {α : Type} (key : α → String) (val : α → β) (m : Dict β) (rows : List α) : Dict β :=
  rows.foldl (fun m a => m.insert (key a) (val a)) m

section Fill
variable {α : Type} {key : α → String} {val : α → β} {rows : List α} {k : String}

theorem get_fill_cases {m : Dict β} {v : β} (h : (fill key val m rows)[k]? = some v) :
    (∃ a ∈ rows, key a = k ∧ val a = v) ∨ m[k]? = some v := by
  induction rows generalizing m with
  | nil => exact .inr h
  | cons a rows ih =>
    rcases ih h with ⟨b, hb, hk⟩ | h
    · exact .inl ⟨b, List.mem_cons_of_mem a hb, hk⟩
    · rcases get_insert_cases h with ⟨hk, hv⟩ | ⟨_, h⟩
      · exact .inl ⟨a, List.mem_cons_self, hk.symm, hv.symm⟩
      · exact .inr h

theorem mem_fill {m : Dict β} : k ∈ fill key val m rows ↔ k ∈ m ∨ ∃ a ∈ rows, key a = k := by
  induction rows generalizing m with
  | nil => simp [fill]
  | cons a rows ih =>
    show k ∈ fill key val (m.insert (key a) (val a)) rows ↔ _
    rw [ih, Std.ExtTreeMap.mem_insert]
    simp only [compare_eq_iff_eq, List.mem_cons, exists_eq_or_imp]
    tauto

/-- Rows with different keys are all found. -/
theorem get_fill_of_mem (h : (rows.map key).Nodup) {a : α} (ha : a ∈ rows) :
    (fill key val ∅ rows)[key a]? = some (val a) := by
  have hmem : key a ∈ fill key val ∅ rows := mem_fill.mpr (.inr ⟨a, ha, rfl⟩)
  obtain ⟨v, hv⟩ := mem_iff.mp hmem
  rcases get_fill_cases hv with ⟨b, hb, hkey, rfl⟩ | hnone
  · rw [hv, List.inj_on_of_nodup_map h hb ha hkey]
  · simp at hnone

theorem keys_fill_perm (h : (rows.map key).Nodup) :
    (fill key val ∅ rows).keys.Perm (rows.map key) := by
  refine (List.perm_ext_iff_of_nodup Std.ExtTreeMap.nodup_keys h).mpr fun k => ?_
  rw [Std.ExtTreeMap.mem_keys, mem_fill]
  simp

/-- When rows are the keys themselves, each key has its value. -/
theorem get_fill_id {m : Dict β} {val : String → β} {keys : List String} {k : String} :
    (fill id val m keys)[k]? = if k ∈ keys then some (val k) else m[k]? := by
  induction keys generalizing m with
  | nil => simp [fill]
  | cons a keys ih =>
    show (fill id val (m.insert a (val a)) keys)[k]? = _
    rw [ih, get_insert]
    by_cases hk : k ∈ keys
    · simp [hk]
    · by_cases ha : a = k
      · simp [ha]
      · simp [hk, ha, Ne.symm ha]

end Fill

end Dict

/-- One resolution of the iteration orders of a run. -/
structure Order where
  pick : List Nat → List String → List String
  perm : ∀ site l, (pick site l).Perm l

namespace Order

/-- The orders of the loops below site `i`. -/
def sub (o : Order) (i : Nat) : Order :=
  ⟨fun site => o.pick (i :: site), fun site => o.perm (i :: site)⟩

/-- The order of the loop at this site. -/
def range (o : Order) (l : List String) : List String := o.pick [] l

theorem range_perm (o : Order) (l : List String) : (o.range l).Perm l := o.perm [] l

@[simp] theorem mem_range {o : Order} {l : List String} {a : String} :
    a ∈ o.range l ↔ a ∈ l := (o.range_perm l).mem_iff

theorem range_nodup {o : Order} {l : List String} (h : l.Nodup) : (o.range l).Nodup :=
  (o.range_perm l).nodup_iff.mpr h

@[simp] theorem range_nil (o : Order) : o.range [] = [] := (o.range_perm []).eq_nil

@[simp] theorem range_singleton (o : Order) (a : String) : o.range [a] = [a] :=
  List.perm_singleton.mp (o.range_perm [a])

/-- Every loop in the order of the list it is given. -/
def sorted : Order := ⟨fun _ l => l, fun _ l => List.Perm.refl l⟩

end Order

/-- Numbers the elements of a list, those that fail `p` sharing the number of
the next one that passes: loops that draw no order get no site of their own. -/
def numbered {α : Type} (p : α → Bool) : Nat → List α → List (Nat × α)
  | _, [] => []
  | i, a :: l => (i, a) :: numbered p (if p a then i + 1 else i) l

theorem numbered_map_snd (p : α → Bool) (l : List α) : ∀ i, (numbered p i l).map Prod.snd = l := by
  induction l with
  | nil => intro i; rfl
  | cons a l ih => intro i; simp [numbered, ih]

theorem mem_of_mem_numbered {p : α → Bool} {l : List α} {ia : Nat × α} (h : ia ∈ numbered p 0 l) :
    ia.2 ∈ l := by
  rw [← numbered_map_snd p l 0]
  exact List.mem_map_of_mem h

/-- Removing the elements that fail `p` leaves the numbers of the others. -/
theorem numbered_filter (p : α → Bool) (l : List α) :
    ∀ i, numbered p i (l.filter p) = (numbered p i l).filter fun x => p x.2 := by
  induction l with
  | nil => intro i; rfl
  | cons a l ih =>
    intro i
    by_cases ha : p a = true
    · simp [numbered, ha, ih]
    · simp [numbered, ha, ih]

end Ldap2pg.Lib
