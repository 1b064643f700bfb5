import Mathlib

/-! # Go slices over a heap of backing arrays

A slice is a backing array, a length and a capacity; every slice here starts
at the first cell of its array. `append` writes in place while the capacity
allows and otherwise copies into a new array whose size the growth policy
chooses. Two slices on one array see each other's in-place writes: the lemmas
below say exactly which cells of a slice an `append` on another one changes. -/
namespace Ldap2pg.Lib

/-- How much room a reallocation makes: at least what is needed. -/
structure Growth where
  grow : Nat → Nat → Nat
  le_grow : ∀ cap need, need ≤ grow cap need

/-- Capacities 0, 1, 2, 4, 8: what the runtime does on small slices. -/
def Growth.doubling : Growth :=
  ⟨fun cap need => max need (2 * cap), fun _ _ => Nat.le_max_left _ _⟩

structure Slice where
  array : Nat
  len : Nat
  cap : Nat
  deriving DecidableEq, Repr

/-- The empty slice literal: no backing array is needed. -/
def Slice.empty : Slice := ⟨0, 0, 0⟩

/-- `s[0:n]`. -/
def Slice.upTo (s : Slice) (n : Nat) : Slice := { s with len := n }

variable {s : Slice}

/-- Backing arrays by address. -/
abbrev Heap (α : Type) := List (List α)

/-- `l` with the cells from `i` on replaced by `vs`, as far as `l` goes. -/
def overlay {α : Type} (l : List α) (i : Nat) (vs : List α) : List α :=
  l.take i ++ vs.take (l.length - i) ++ l.drop (i + vs.length)

section Overlay
variable {α : Type}

@[simp] theorem overlay_nil (l : List α) (i : Nat) : overlay l i [] = l := by
  simp [overlay]

theorem overlay_of_length_le {l : List α} {i : Nat} (vs : List α) (h : l.length ≤ i) :
    overlay l i vs = l := by
  have hz : l.length - i = 0 := by omega
  simp [overlay, hz, List.take_of_length_le h, List.drop_eq_nil_of_le (by omega : l.length ≤ i + vs.length)]

@[simp] theorem overlay_length (l : List α) (i : Nat) (vs : List α) :
    (overlay l i vs).length = l.length := by
  simp only [overlay, List.length_append, List.length_take, List.length_drop]; omega

theorem overlay_get (l : List α) (i : Nat) (vs : List α) (j : Nat) :
    (overlay l i vs)[j]? =
      if j < l.length then (if i ≤ j ∧ j < i + vs.length then vs[j - i]? else l[j]?) else none := by
  by_cases hj : j < l.length
  · simp only [overlay, hj, if_true, List.append_assoc]
    by_cases h1 : j < i
    · rw [List.getElem?_append_left (by simp; omega), List.getElem?_take_of_lt h1,
        if_neg (by omega)]
    · rw [List.getElem?_append_right (by simp; omega)]
      by_cases h2 : j < i + vs.length
      · rw [List.getElem?_append_left (by simp; omega), if_pos ⟨by omega, h2⟩,
          List.getElem?_take_of_lt (by simp; omega)]
        congr 1; simp; omega
      · rw [List.getElem?_append_right (by simp; omega), if_neg (by omega), List.getElem?_drop]
        congr 1; simp; omega
  · rw [if_neg hj, List.getElem?_eq_none]; simp; omega

/-- Two overlays side by side are one. -/
theorem overlay_overlay (l : List α) (i : Nat) (v : α) (vs : List α) :
    overlay (overlay l i [v]) (i + 1) vs = overlay l i (v :: vs) := by
  apply List.ext_getElem?
  intro j
  simp only [overlay_get, overlay_length, List.length_cons, List.length_nil]
  by_cases hj : j < l.length
  · simp only [hj, if_true]
    by_cases h1 : i + 1 ≤ j ∧ j < i + 1 + vs.length
    · rw [if_pos h1, if_pos (by omega), show j - i = (j - (i + 1)) + 1 by omega,
        List.getElem?_cons_succ]
    · rw [if_neg h1]
      by_cases h2 : j = i
      · subst h2; simp
      · rw [if_neg (by omega), if_neg (by omega)]
  · simp [hj]

theorem take_overlay (l : List α) (i n : Nat) (vs : List α) :
    (overlay l i vs).take n = overlay (l.take n) i vs := by
  apply List.ext_getElem?
  intro j
  by_cases hn : j < n
  · simp only [List.getElem?_take_of_lt hn, overlay_get, List.length_take]
    by_cases hj : j < l.length
    · simp [hj, hn]
    · simp [hj]
  · rw [List.getElem?_eq_none (by simp; omega), overlay_get, if_neg (by simp; omega)]

theorem map_overlay {β : Type} (f : α → β) (l : List α) (i : Nat) (vs : List α) :
    (overlay l i vs).map f = overlay (l.map f) i (vs.map f) := by
  simp [overlay, List.map_take, List.map_drop]

/-- From `b` on the elements are distinct, and distinct from those before. -/
def Fresh (b : Nat) (l : List α) : Prop := (l.drop b).Nodup ∧ (l.take b).Disjoint (l.drop b)

theorem Fresh.length (l : List α) : Fresh l.length l := by
  simp [Fresh]

theorem Fresh.mono {b c : Nat} {l : List α} (h : Fresh b l) (hbc : b ≤ c) : Fresh c l := by
  obtain ⟨hn, hd⟩ := h
  obtain ⟨k, rfl⟩ := Nat.exists_eq_add_of_le hbc
  rw [Fresh, List.take_add, ← List.drop_drop]
  refine ⟨hn.sublist (List.drop_sublist k _), List.disjoint_append_left.mpr ⟨?_, ?_⟩⟩
  · exact fun x hx hx' => hd hx (List.mem_of_mem_drop hx')
  · exact List.disjoint_take_drop hn (Nat.le_refl k)

theorem Fresh.append {b : Nat} {l vs : List α} (h : Fresh b l) (hb : b ≤ l.length)
    (hvs : vs.Nodup) (hd : l.Disjoint vs) : Fresh b (l ++ vs) := by
  obtain ⟨hn, hdis⟩ := h
  rw [Fresh, List.drop_append_of_le_length hb, List.take_append_of_le_length hb]
  refine ⟨List.nodup_append.mpr ⟨hn, hvs, ?_⟩, List.disjoint_append_right.mpr ⟨hdis, ?_⟩⟩
  · intro x hx y hy he
    exact hd (List.mem_of_mem_drop hx) (he ▸ hy)
  · exact fun x hx hx' => hd (List.mem_of_mem_take hx) hx'

section Window
variable {l vs : List α} {c : Nat}

/-- The cells of `l` that an overlay at `c` writes to. -/
def held (l : List α) (c : Nat) (vs : List α) : List α := (l.drop c).take vs.length

/-- The values of an overlay at `c` that fall inside `l`. -/
def written (l : List α) (c : Nat) (vs : List α) : List α := vs.take (l.length - c)

theorem overlay_eq (l : List α) (c : Nat) (vs : List α) :
    overlay l c vs = l.take c ++ (written l c vs ++ (l.drop c).drop vs.length) := by
  rw [overlay, List.append_assoc, List.drop_drop]
  rfl

theorem eq_held (l : List α) (c : Nat) (vs : List α) :
    l = l.take c ++ (held l c vs ++ (l.drop c).drop vs.length) := by
  rw [held, List.take_append_drop, List.take_append_drop]

/-- When the cells written to are fresh, writing all that they hold is writing
just that, up to order. -/
theorem written_perm_held (hf : Fresh c l)
    (h : ∀ x ∈ held l c vs, x ∈ written l c vs) : (held l c vs).Perm (written l c vs) := by
  have hnodup : (held l c vs).Nodup := hf.1.sublist (List.take_sublist _ _)
  refine (List.subperm_of_subset hnodup h).perm_of_length_le ?_
  simp only [held, written, List.length_take, List.length_drop]
  omega

/-- An overlay on fresh cells keeps the set of elements exactly when it writes
the elements these cells hold, up to order. -/
theorem mem_overlay_iff (hf : Fresh c l) :
    (∀ x, x ∈ overlay l c vs ↔ x ∈ l) ↔ ∀ x, x ∈ written l c vs ↔ x ∈ held l c vs := by
  have hl : ∀ x, x ∈ l ↔ x ∈ l.take c ∨ x ∈ held l c vs ∨ x ∈ (l.drop c).drop vs.length := by
    intro x
    conv_lhs => rw [eq_held l c vs]
    simp only [List.mem_append]
  have ho : ∀ x, x ∈ overlay l c vs ↔
      x ∈ l.take c ∨ x ∈ written l c vs ∨ x ∈ (l.drop c).drop vs.length := by
    intro x
    rw [overlay_eq]
    simp only [List.mem_append]
  constructor
  · intro h
    have hsub : ∀ x ∈ held l c vs, x ∈ written l c vs := by
      intro x hx
      have hnot : x ∉ l.take c := fun hx' => hf.2 hx' (List.mem_of_mem_take hx)
      have hnot' : x ∉ (l.drop c).drop vs.length :=
        fun hx' => List.disjoint_take_drop hf.1 (Nat.le_refl vs.length) hx hx'
      have hin := (h x).mpr ((hl x).mpr (.inr (.inl hx)))
      exact (((ho x).mp hin).resolve_left hnot).resolve_right hnot'
    exact fun x => (written_perm_held hf hsub).symm.mem_iff
  · intro h x
    rw [hl, ho, h x]

/-- Such an overlay keeps the freshness of what comes before. -/
theorem Fresh.overlay {b : Nat} (hf : Fresh b l) (hbc : b ≤ c)
    (h : ∀ x ∈ held l c vs, x ∈ written l c vs) : Fresh b (overlay l c vs) := by
  by_cases hc : c ≤ l.length
  · have hperm := written_perm_held (hf.mono hbc) h
    have hle : b ≤ (l.take c).length := by rw [List.length_take, Nat.min_eq_left hc]; exact hbc
    have htake : (Lib.overlay l c vs).take b = l.take b := by
      rw [overlay_eq, List.take_append_of_le_length hle, List.take_take, Nat.min_eq_left hbc]
    have hdrop : ((Lib.overlay l c vs).drop b).Perm (l.drop b) := by
      have hl : l.drop b =
          (l.take c).drop b ++ (held l c vs ++ (l.drop c).drop vs.length) := by
        conv_lhs => rw [eq_held l c vs]
        rw [List.drop_append_of_le_length hle]
      rw [overlay_eq, List.drop_append_of_le_length hle, hl]
      exact (hperm.symm.append_right _).append_left _
    obtain ⟨hn, hd⟩ := hf
    refine ⟨hdrop.nodup_iff.mpr hn, ?_⟩
    rw [htake]
    exact fun x hx hx' => hd hx (hdrop.mem_iff.mp hx')
  · rw [overlay_of_length_le vs (by omega)]
    exact hf

end Window

end Overlay

namespace Heap
variable {α : Type}

/-- The cells of an array. -/
def cells (h : Heap α) (a : Nat) : List α := h.getD a []

/-- What a slice shows. -/
def read (h : Heap α) (s : Slice) : List α := (h.cells s.array).take s.len

/-- The length is within the capacity, which is the size of the array. -/
def Valid (h : Heap α) (s : Slice) : Prop :=
  s.len ≤ s.cap ∧ (s.cap = 0 ∨ (h.cells s.array).length = s.cap)

/-- `append(s, vs...)`. -/
def append [Inhabited α] (g : Growth) (h : Heap α) (s : Slice) (vs : List α) :
    Heap α × Slice :=
  if s.len + vs.length ≤ s.cap then
    (h.set s.array (overlay (h.cells s.array) s.len vs), s.upTo (s.len + vs.length))
  else
    (h ++ [h.read s ++ vs ++
      List.replicate (g.grow s.cap (s.len + vs.length) - (s.len + vs.length)) default],
      ⟨h.length, s.len + vs.length, g.grow s.cap (s.len + vs.length)⟩)

/-- A loop of `s = append(s, v)`. -/
def pushAll [Inhabited α] (g : Growth) (h : Heap α) (s : Slice) (vs : List α) :
    Heap α × Slice :=
  vs.foldl (fun hs v => hs.1.append g hs.2 [v]) (h, s)

theorem cells_set (h : Heap α) (a b : Nat) (l : List α) :
    cells (h.set a l) b = if a = b ∧ a < h.length then l else cells h b := by
  unfold cells
  rw [List.getD_eq_getElem?_getD, List.getElem?_set, List.getD_eq_getElem?_getD]
  by_cases hab : a = b
  · subst hab
    by_cases hl : a < h.length
    · simp [hl]
    · simp [hl]
  · simp [hab]

theorem cells_snoc (h : Heap α) (l : List α) (b : Nat) :
    cells (h ++ [l]) b = if b = h.length then l else cells h b := by
  unfold cells
  rw [List.getD_eq_getElem?_getD, List.getD_eq_getElem?_getD]
  rcases lt_trichotomy b h.length with hb | hb | hb
  · rw [List.getElem?_append_left hb, if_neg (by omega)]
  · subst hb; simp
  · rw [List.getElem?_eq_none (by simp; omega), List.getElem?_eq_none (by omega), if_neg (by omega)]

theorem lt_of_cells {h : Heap α} {a : Nat} (hc : 0 < (h.cells a).length) : a < h.length := by
  by_contra hn
  simp [cells, List.getD_eq_getElem?_getD, List.getElem?_eq_none (by omega : h.length ≤ a)] at hc

theorem valid_empty (h : Heap α) : h.Valid Slice.empty := ⟨Nat.le_refl _, Or.inl rfl⟩

@[simp] theorem read_empty (h : Heap α) : h.read Slice.empty = [] := by
  simp [read, Slice.empty]

theorem Valid.length_read {h : Heap α} (hv : h.Valid s) : (h.read s).length = s.len := by
  obtain ⟨hl, hc | hc⟩ := hv
  · simp [read, show s.len = 0 by omega]
  · simp [read, hc, hl]

theorem Valid.array_lt {h : Heap α} (hs : h.Valid s) (hc : s.cap ≠ 0) : s.array < h.length := by
  apply lt_of_cells
  rw [hs.2.resolve_left hc]
  omega

variable [Inhabited α] {g : Growth}

theorem append_inPlace {h : Heap α} {vs : List α} (hle : s.len + vs.length ≤ s.cap) :
    h.append g s vs =
      (h.set s.array (overlay (h.cells s.array) s.len vs), s.upTo (s.len + vs.length)) :=
  if_pos hle

theorem append_grow {h : Heap α} {vs : List α} (hle : ¬ s.len + vs.length ≤ s.cap) :
    h.append g s vs = (h ++ [h.read s ++ vs ++
      List.replicate (g.grow s.cap (s.len + vs.length) - (s.len + vs.length)) default],
      ⟨h.length, s.len + vs.length, g.grow s.cap (s.len + vs.length)⟩) :=
  if_neg hle

/-- The slice an append returns shows the old cells, then the new ones. -/
theorem read_append {h : Heap α} (vs : List α) (hv : h.Valid s) :
    (h.append g s vs).1.read (h.append g s vs).2 = h.read s ++ vs := by
  have hlen := hv.length_read
  obtain ⟨hl, hc⟩ := hv
  by_cases hle : s.len + vs.length ≤ s.cap
  · rw [append_inPlace hle]
    by_cases hz : s.cap = 0
    · -- nothing to write into, hence nothing to write
      have hvs : vs = [] := List.length_eq_zero_iff.mp (by omega)
      simp [read, Slice.upTo, hvs, show s.len = 0 by omega]
    · have hc := hc.resolve_left hz
      have ha : s.array < h.length := lt_of_cells (by omega)
      simp only [read, Slice.upTo, cells_set, ha, and_self, if_true, take_overlay]
      have htake : vs.take (s.len + vs.length - s.len) = vs := List.take_of_length_le (by omega)
      rw [overlay, List.take_take, List.length_take, Nat.min_eq_left (by omega),
        Nat.min_eq_left (by omega), htake, List.drop_eq_nil_of_le (by simp), List.append_nil]
  · rw [append_grow hle]
    simp only [read, cells_snoc, if_true]
    rw [read] at hlen
    rw [List.take_append_of_le_length (by simp [hlen]), List.take_of_length_le (by simp [hlen])]

theorem valid_append {h : Heap α} (vs : List α) (hv : h.Valid s) :
    (h.append g s vs).1.Valid (h.append g s vs).2 := by
  have hlen := hv.length_read
  obtain ⟨hl, hc⟩ := hv
  by_cases hle : s.len + vs.length ≤ s.cap
  · rw [append_inPlace hle]
    refine ⟨hle, hc.imp_right fun hc => ?_⟩
    simp only [cells_set, Slice.upTo]
    split
    · simpa using hc
    · exact hc
  · rw [append_grow hle]
    refine ⟨g.le_grow _ _, Or.inr ?_⟩
    have := g.le_grow s.cap (s.len + vs.length)
    simp [cells_snoc, hlen]; omega

/-- An append keeps every other slice well formed. -/
theorem Valid.append {h : Heap α} {t : Slice} (vs : List α) (ht : h.Valid t) :
    (h.append g s vs).1.Valid t := by
  obtain ⟨hl, hc⟩ := ht
  refine ⟨hl, ?_⟩
  by_cases hz : t.cap = 0
  · exact Or.inl hz
  · have hc := hc.resolve_left hz
    have ha : t.array < h.length := lt_of_cells (by omega)
    refine Or.inr ?_
    by_cases hle : s.len + vs.length ≤ s.cap
    · rw [append_inPlace hle]
      simp only [cells_set]
      split
      · rename_i he; rw [overlay_length, he.1, hc]
      · exact hc
    · rw [append_grow hle, cells_snoc, if_neg (by omega)]
      exact hc

/-- What an append on `s` does to another slice `t`: nothing, unless it is in
place on the array of `t`. -/
theorem read_append_other {h : Heap α} {t : Slice} (vs : List α) (ht : h.Valid t) :
    (h.append g s vs).1.read t =
      if t.array = s.array ∧ s.len + vs.length ≤ s.cap then overlay (h.read t) s.len vs
      else h.read t := by
  by_cases hz : t.len = 0
  · simp [read, hz, overlay_of_length_le]
  · obtain ⟨hl, hc⟩ := ht
    have hc := hc.resolve_left (by omega)
    have ha : t.array < h.length := lt_of_cells (by omega)
    by_cases hle : s.len + vs.length ≤ s.cap
    · rw [append_inPlace hle]
      by_cases he : t.array = s.array
      · rw [if_pos ⟨he, hle⟩]
        simp only [read, cells_set, ← he, ha, and_self, if_true, take_overlay]
      · rw [if_neg (fun hh => he hh.1), read, cells_set, if_neg (fun hh => he hh.1.symm), read]
    · rw [if_neg (fun hh => hle hh.2), append_grow hle, read, cells_snoc, if_neg (by omega), read]

/-- The copy `append(s[0:0], s...)` writes the cells of `s` over themselves:
same heap, same slice, same backing array. -/
theorem append_upTo_zero {h : Heap α} (hs : h.Valid s) :
    h.append g (s.upTo 0) (h.read s) = (h, s) := by
  have hlen := hs.length_read
  have hle : (s.upTo 0).len + (h.read s).length ≤ (s.upTo 0).cap := by
    have := hs.1
    simp [Slice.upTo, hlen, this]
  have hself : overlay (h.cells s.array) 0 (h.read s) = h.cells s.array := by
    apply List.ext_getElem?
    intro j
    rw [overlay_get]
    split
    · split
      · rw [Nat.sub_zero, read, List.getElem?_take_of_lt (by omega)]
      · rfl
    · rw [List.getElem?_eq_none (by omega)]
  have hset : h.set s.array (h.cells s.array) = h := by
    apply List.ext_getElem?
    intro j
    rw [List.getElem?_set]
    split
    · rename_i hj
      subst hj
      split
      · rename_i hj; simp [cells, List.getD_eq_getElem?_getD, hj]
      · rw [List.getElem?_eq_none (by omega)]
    · rfl
  rw [append_inPlace hle]
  simp only [Slice.upTo, hself, hset, hlen, Nat.zero_add]

theorem pushAll_nil (h : Heap α) (s : Slice) : h.pushAll g s [] = (h, s) := rfl

theorem pushAll_cons (h : Heap α) (s : Slice) (v : α) (vs : List α) :
    h.pushAll g s (v :: vs) = (h.append g s [v]).1.pushAll g (h.append g s [v]).2 vs := rfl

theorem valid_pushAll (vs : List α) : ∀ {h : Heap α} {s : Slice}, h.Valid s →
    (h.pushAll g s vs).1.Valid (h.pushAll g s vs).2 := by
  induction vs with
  | nil => intro h s hs; exact hs
  | cons v vs ih => intro h s hs; rw [pushAll_cons]; exact ih (valid_append [v] hs)

theorem Valid.pushAll (vs : List α) : ∀ {h : Heap α} {s t : Slice}, h.Valid t →
    (h.pushAll g s vs).1.Valid t := by
  induction vs with
  | nil => intro h s t ht; exact ht
  | cons v vs ih => intro h s t ht; rw [pushAll_cons]; exact ih (ht.append [v])

theorem read_pushAll (vs : List α) : ∀ {h : Heap α} {s : Slice}, h.Valid s →
    (h.pushAll g s vs).1.read (h.pushAll g s vs).2 = h.read s ++ vs := by
  induction vs with
  | nil => intro h s _; simp [pushAll_nil]
  | cons v vs ih =>
    intro h s hs
    rw [pushAll_cons, ih (valid_append [v] hs), read_append [v] hs]
    simp

/-- A loop of appends on `s` shows through another slice of its array as the
values that still fit in place, and through no other slice. -/
theorem read_pushAll_other (vs : List α) : ∀ {h : Heap α} {s t : Slice}, h.Valid s → h.Valid t →
    (h.pushAll g s vs).1.read t =
      if t.array = s.array then overlay (h.read t) s.len (vs.take (s.cap - s.len))
      else h.read t := by
  induction vs with
  | nil => intro h s t _ _; simp [pushAll_nil]
  | cons v vs ih =>
    intro h s t hs ht
    rw [pushAll_cons, ih (valid_append [v] hs) (ht.append [v]), read_append_other [v] ht]
    by_cases hle : s.len + [v].length ≤ s.cap
    · simp only [append_inPlace hle, Slice.upTo]
      simp only [List.length_singleton] at hle ⊢
      by_cases he : t.array = s.array
      · rw [if_pos he, if_pos ⟨he, hle⟩, if_pos he, overlay_overlay,
          show s.cap - s.len = (s.cap - (s.len + 1)) + 1 by omega, List.take_succ_cons]
      · rw [if_neg he, if_neg (fun hh => he hh.1), if_neg he]
    · -- a new array: the other slices do not see the rest of the loop
      have hz : s.cap - s.len = 0 := by simp only [List.length_singleton] at hle; omega
      have hold : (if t.array = s.array ∧ s.len + [v].length ≤ s.cap then
          overlay (h.read t) s.len [v] else h.read t) = h.read t := if_neg fun hh => hle hh.2
      rw [hold, hz, List.take_zero, overlay_nil, ite_self]
      by_cases ht0 : t.len = 0
      · simp [read, ht0, overlay_of_length_le]
      · have hc := ht.2.resolve_left (by have := ht.1; omega)
        have ha : t.array < h.length := lt_of_cells (by have := ht.1; omega)
        rw [append_grow hle, if_neg (by simp; omega)]

theorem length_le_append (h : Heap α) (s : Slice) (vs : List α) :
    h.length ≤ (h.append g s vs).1.length := by
  by_cases hle : s.len + vs.length ≤ s.cap
  · rw [append_inPlace hle, List.length_set]
  · rw [append_grow hle, List.length_append]
    exact Nat.le_add_right _ _

/-- A loop of appends ends on the array it started from, or on a new one. -/
theorem pushAll_array (vs : List α) : ∀ (h : Heap α) (s : Slice),
    ((h.pushAll g s vs).2.array = s.array ∧ (h.pushAll g s vs).2.cap = s.cap) ∨
      h.length ≤ (h.pushAll g s vs).2.array := by
  induction vs with
  | nil => intro h s; exact .inl ⟨rfl, rfl⟩
  | cons v vs ih =>
    intro h s
    rw [pushAll_cons]
    by_cases hle : s.len + [v].length ≤ s.cap
    · rcases ih (h.append g s [v]).1 (h.append g s [v]).2 with hsame | hnew
      · left
        rw [append_inPlace hle] at hsame ⊢
        exact hsame
      · right
        exact Nat.le_trans (length_le_append h s [v]) hnew
    · right
      rcases ih (h.append g s [v]).1 (h.append g s [v]).2 with ⟨ha, _⟩ | hnew
      · rw [ha, append_grow hle]
      · exact Nat.le_trans (length_le_append h s [v]) hnew

end Heap
end Ldap2pg.Lib
