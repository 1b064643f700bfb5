import Mathlib.Data.List.Sort
import Mathlib.Data.List.Dedup
import Mathlib.Data.String.Basic

/-! # Queries over lists of rows

What the inspection queries use of SQL: `LIKE`, left outer joins, grouping, and
`array_agg`. Two sorted arrays are equal when they hold the same values as many
times, and as sets once they are distinct. -/
namespace Ldap2pg.Lib.Sql

/-- `LIKE`: `%` is any text, `_` any character, and a backslash takes the next one as it
is. -/
def like : List Char → List Char → Bool
  | [], s => s.isEmpty
  | '%' :: p, s => s.tails.any fun t => like p t
  | '\\' :: c :: p, s => s.head? == some c && like p s.tail
  | '_' :: p, s => !s.isEmpty && like p s.tail
  | c :: p, s => s.head? == some c && like p s.tail

/-! ## Lists without repetition -/

section Unique
variable {α β : Type}

theorem filter_eq_singleton {l : List α} {p : α → Bool} {a : α} (hl : l.Nodup) (ha : a ∈ l)
    (hp : ∀ b ∈ l, p b = true ↔ b = a) : l.filter p = [a] := by
  refine List.perm_singleton.mp ((List.perm_ext_iff_of_nodup (hl.filter p)
    (List.nodup_singleton a)).mpr fun b => ?_)
  rw [List.mem_filter, List.mem_singleton]
  exact ⟨fun h => (hp b h.1).mp h.2, fun h => ⟨h ▸ ha, (hp b (h ▸ ha)).mpr h⟩⟩

theorem flatMap_eq_of_unique {l : List α} {f : α → List β} {a : α} (hl : l.Nodup) (ha : a ∈ l)
    (hf : ∀ b ∈ l, b ≠ a → f b = []) : l.flatMap f = f a := by
  obtain ⟨l₁, l₂, rfl⟩ := List.append_of_mem ha
  obtain ⟨_, hcons, hdisjoint⟩ := List.nodup_append.mp hl
  have hleft : l₁.flatMap f = [] := List.flatMap_eq_nil_iff.mpr fun b hb =>
    hf b (List.mem_append_left _ hb) (hdisjoint b hb a List.mem_cons_self)
  have hright : l₂.flatMap f = [] := List.flatMap_eq_nil_iff.mpr fun b hb =>
    hf b (List.mem_append_right _ (List.mem_cons_of_mem a hb)) fun h =>
      (List.nodup_cons.mp hcons).1 (h ▸ hb)
  rw [List.flatMap_append, List.flatMap_cons, hleft, hright, List.nil_append, List.append_nil]

theorem flatMap_filter_eq {l : List α} {f : α → List β} {q : α → Bool}
    (h : ∀ a ∈ l, q a = false → f a = []) : (l.filter q).flatMap f = l.flatMap f := by
  induction l with
  | nil => rfl
  | cons a l ih =>
    have hrest := ih fun b hb => h b (List.mem_cons_of_mem a hb)
    cases hq : q a with
    | true => rw [List.filter_cons_of_pos hq, List.flatMap_cons, List.flatMap_cons, hrest]
    | false =>
      rw [List.filter_cons_of_neg (by simp [hq]), List.flatMap_cons, h a List.mem_cons_self hq, hrest,
        List.nil_append]

/-- The row of a key. -/
theorem find_key_eq_some {κ : Type} [BEq κ] [LawfulBEq κ] {key : α → κ} {l : List α}
    (hl : (l.map key).Nodup) {k : κ} {a : α} :
    (l.find? fun b => key b == k) = some a ↔ a ∈ l ∧ key a = k := by
  constructor
  · intro h
    exact ⟨List.mem_of_find?_eq_some h, by simpa using List.find?_some h⟩
  · intro ⟨ha, hk⟩
    cases hfind : l.find? fun b => key b == k with
    | none => exact absurd hk (by simpa using List.find?_eq_none.mp hfind a ha)
    | some b =>
      have hb : key b = k := by simpa using List.find?_some hfind
      rw [List.inj_on_of_nodup_map hl (List.mem_of_find?_eq_some hfind) ha (hb.trans hk.symm)]

/-- A list that repeats each name some number of times has each once. -/
theorem perm_replicate_iff {name : α → String} {times : α → Nat} {l : List α}
    (hl : (l.map name).Nodup) :
    (l.map name).Perm (l.flatMap fun a => List.replicate (times a) (name a)) ↔
      ∀ a ∈ l, times a = 1 := by
  have hcount : ∀ (l : List α), (l.map name).Nodup → ∀ a ∈ l,
      (l.flatMap fun a => List.replicate (times a) (name a)).count (name a) = times a := by
    intro l
    induction l with
    | nil => nofun
    | cons b l ih =>
      intro hl a ha
      obtain ⟨hnot, hl⟩ := List.nodup_cons.mp hl
      rw [List.flatMap_cons, List.count_append, List.count_replicate]
      rcases List.mem_cons.mp ha with rfl | ha
      · have hnone : name a ∉ l.flatMap fun a => List.replicate (times a) (name a) := by
          intro h
          obtain ⟨c, hc, hin⟩ := List.mem_flatMap.mp h
          exact hnot ((List.mem_replicate.mp hin).2 ▸ List.mem_map_of_mem hc)
        rw [List.count_eq_zero_of_not_mem hnone]
        simp
      · have hne : name b ≠ name a := fun h => hnot (h ▸ List.mem_map_of_mem ha)
        rw [ih hl a ha]
        simp [hne]
  refine ⟨fun h a ha => ?_, fun h => ?_⟩
  · rw [← hcount l hl a ha, ← h.count_eq]
    exact List.count_eq_one_of_mem hl (List.mem_map_of_mem ha)
  · have hone : (l.flatMap fun a => List.replicate (times a) (name a)) = l.map name := by
      rw [List.map_eq_flatMap]
      exact List.flatMap_congr fun a ha => by rw [h a ha]; rfl
    rw [hone]

end Unique

/-! ## Joins -/

section Join
variable {α β γ : Type} {on : α → β → Bool} {r : List β} {a : α}

/-- The rows that a left outer join makes of one row. -/
def joinOne (on : α → β → Bool) (r : List β) (a : α) : List (α × Option β) :=
  match r.filter (on a) with
  | [] => [(a, none)]
  | matching => matching.map fun b => (a, some b)

/-- `LEFT OUTER JOIN`: a row without a match is kept once. -/
def leftJoin (on : α → β → Bool) (l : List α) (r : List β) : List (α × Option β) :=
  l.flatMap (joinOne on r)

theorem joinOne_of_match {b : β} (hb : b ∈ r) (h : on a b = true) :
    joinOne on r a = (r.filter (on a)).map fun b => (a, some b) := by
  unfold joinOne
  split
  · next hnil => exact absurd (hnil ▸ List.mem_filter.mpr ⟨hb, h⟩) List.not_mem_nil
  · rfl

theorem joinOne_of_none (h : ∀ b ∈ r, on a b = false) : joinOne on r a = [(a, none)] := by
  have hnil : r.filter (on a) = [] :=
    List.filter_eq_nil_iff.mpr fun b hb => Bool.not_eq_true _ ▸ h b hb
  rw [joinOne, hnil]

theorem match_or_none (on : α → β → Bool) (r : List β) (a : α) :
    (∃ b ∈ r, on a b = true) ∨ ∀ b ∈ r, on a b = false := by
  by_cases h : ∃ b ∈ r, on a b = true
  · exact .inl h
  · exact .inr fun b hb => Bool.eq_false_iff.mpr fun hon => h ⟨b, hb, hon⟩

theorem mem_joinOne {row : α × Option β} : row ∈ joinOne on r a ↔ row.1 = a ∧
    ((∃ b ∈ r, on a b = true ∧ row.2 = some b) ∨ (row.2 = none ∧ ∀ b ∈ r, on a b = false)) := by
  obtain ⟨a', b?⟩ := row
  rcases match_or_none on r a with ⟨b, hb, hon⟩ | hnone
  · rw [joinOne_of_match hb hon, or_iff_left]
    · simp only [List.mem_map, List.mem_filter, Prod.mk.injEq, and_assoc]
      exact ⟨fun ⟨c, hc, hm, ha, h⟩ => ⟨ha.symm, c, hc, hm, h.symm⟩,
        fun ⟨ha, c, hc, hm, h⟩ => ⟨c, hc, hm, ha.symm, h.symm⟩⟩
    · exact fun h => absurd (h.2 b hb) (by simp [hon])
  · rw [joinOne_of_none hnone, or_iff_right]
    · simp only [List.mem_singleton, Prod.mk.injEq]
      exact and_congr_right fun _ => ⟨fun h => ⟨h, hnone⟩, fun h => h.1⟩
    · rintro ⟨b, hb, hon, _⟩
      simp [hnone b hb] at hon

theorem filter_joinOne (keep : α → Bool) :
    (joinOne on r a).filter (fun row => keep row.1) = if keep a then joinOne on r a else [] := by
  split
  case isTrue h => exact List.filter_eq_self.mpr fun row hrow => by rw [(mem_joinOne.mp hrow).1, h]
  case isFalse h =>
    refine List.filter_eq_nil_iff.mpr fun row hrow => ?_
    rw [(mem_joinOne.mp hrow).1]
    exact h

/-- Rows with a match only. -/
theorem filter_joinOne_any (keep : α → Bool) (q : β → Bool) :
    (joinOne on r a).filter (fun row => keep row.1 && row.2.any q) =
      if keep a then (r.filter fun b => on a b && q b).map fun b => (a, some b) else [] := by
  have hmatch : (joinOne on r a).filter (fun row => row.2.any q) =
      (r.filter fun b => on a b && q b).map fun b => (a, some b) := by
    rcases match_or_none on r a with ⟨b, hb, hon⟩ | hnone
    · rw [joinOne_of_match hb hon, List.filter_map, List.filter_filter]
      refine congrArg _ (List.filter_congr fun b _ => ?_)
      simp [Bool.and_comm]
    · have hnil : (r.filter fun b => on a b && q b) = [] :=
        List.filter_eq_nil_iff.mpr fun b hb => by simp [hnone b hb]
      rw [joinOne_of_none hnone, hnil]
      rfl
  rw [← List.filter_filter, hmatch, List.filter_map]
  split
  case isTrue h =>
    exact congrArg _ (List.filter_eq_self.mpr fun b _ => h)
  case isFalse h =>
    exact List.map_eq_nil_iff.mpr (List.filter_eq_nil_iff.mpr fun b _ => h)

theorem joinOne_ne_nil : joinOne on r a ≠ [] := by
  rcases match_or_none on r a with ⟨b, hb, hon⟩ | hnone
  · exact List.ne_nil_of_mem (a := (a, some b)) (mem_joinOne.mpr ⟨rfl, .inl ⟨b, hb, hon, rfl⟩⟩)
  · rw [joinOne_of_none hnone]
    exact List.cons_ne_nil _ _

/-- The join on a key picks at most one row. -/
theorem joinOne_unique (hr : r.Nodup)
    (h : ∀ b ∈ r, ∀ c ∈ r, on a b = true → on a c = true → b = c) :
    joinOne on r a = [(a, r.find? (on a))] := by
  rcases match_or_none on r a with ⟨b, hb, hon⟩ | hnone
  · have hfilter : r.filter (on a) = [b] := filter_eq_singleton hr hb fun c hc =>
      ⟨fun hm => h c hc b hb hm hon, fun hc => hc ▸ hon⟩
    rw [joinOne, hfilter, ← List.head?_filter, hfilter]
    rfl
  · rw [joinOne_of_none hnone, List.find?_eq_none.mpr fun b hb => by simp [hnone b hb]]

/-- The values of the matching rows; `array_remove` drops the null of the others. -/
theorem joinOne_values (f : β → γ) :
    (joinOne on r a).filterMap (fun row => row.2.map f) = (r.filter (on a)).map f := by
  rcases match_or_none on r a with ⟨b, hb, hon⟩ | hnone
  · rw [joinOne_of_match hb hon, List.filterMap_map]
    exact congrFun List.filterMap_eq_map' _
  · rw [joinOne_of_none hnone, List.filter_eq_nil_iff.mpr fun b hb => by simp [hnone b hb]]
    rfl

end Join

/-! ## Groups -/

section Group
variable {α β κ : Type}

/-- `GROUP BY`: each key once, with its rows. -/
def groupBy [DecidableEq κ] (key : α → κ) (rows : List α) : List (κ × List α) :=
  (rows.map key).dedup.map fun k => (k, rows.filter fun row => key row = k)

theorem mem_groupBy [DecidableEq κ] {key : α → κ} {rows : List α} {k : κ} {group : List α} :
    (k, group) ∈ groupBy key rows ↔
      (∃ row ∈ rows, key row = k) ∧ group = rows.filter fun row => key row = k := by
  simp only [groupBy, List.mem_map, List.mem_dedup, Prod.mk.injEq]
  refine ⟨?_, fun ⟨h, hgroup⟩ => ⟨k, h, rfl, hgroup.symm⟩⟩
  rintro ⟨k', h, rfl, hgroup⟩
  exact ⟨h, hgroup.symm⟩

theorem groupBy_keys_nodup [DecidableEq κ] (key : α → κ) (rows : List α) :
    ((groupBy key rows).map Prod.fst).Nodup := by
  rw [groupBy, List.map_map]
  exact (List.map_id _).symm ▸ List.nodup_dedup _

/-- The rows of a join, grouped by the left row. -/
theorem mem_groupBy_leftJoin [DecidableEq α] {on : α → β → Bool} {l : List α} {r : List β}
    {keep : α × Option β → Bool} {a : α} {group : List (α × Option β)} (hl : l.Nodup) :
    (a, group) ∈ groupBy Prod.fst ((leftJoin on l r).filter keep) ↔
      a ∈ l ∧ group = (joinOne on r a).filter keep ∧ group ≠ [] := by
  have hgroup : a ∈ l → ((leftJoin on l r).filter keep).filter (fun row => row.1 = a) =
      (joinOne on r a).filter keep := by
    intro ha
    rw [List.filter_comm, leftJoin, List.filter_flatMap]
    refine congrArg _ ((flatMap_eq_of_unique hl ha fun b _ hb => ?_).trans ?_)
    · refine List.filter_eq_nil_iff.mpr fun row hrow => ?_
      simpa [(mem_joinOne.mp hrow).1] using hb
    · exact List.filter_eq_self.mpr fun row hrow => by simp [(mem_joinOne.mp hrow).1]
  rw [mem_groupBy]
  constructor
  · rintro ⟨⟨row, hrow, rfl⟩, rfl⟩
    obtain ⟨b, hb, hjoin⟩ := List.mem_flatMap.mp (List.mem_filter.mp hrow).1
    have hin : row.1 ∈ l := (mem_joinOne.mp hjoin).1 ▸ hb
    exact ⟨hin, hgroup hin, List.ne_nil_of_mem (List.mem_filter.mpr ⟨hrow, by simp⟩)⟩
  · rintro ⟨ha, rfl, hne⟩
    obtain ⟨row, hrow⟩ := List.exists_mem_of_ne_nil _ hne
    rw [← hgroup ha] at hrow ⊢
    obtain ⟨hin, hkey⟩ := List.mem_filter.mp hrow
    exact ⟨⟨row, hin, by simpa using hkey⟩, rfl⟩

end Group

/-! ## Arrays -/

section Aggregate
variable {l l' : List String}

/-- `array_agg(x ORDER BY x)`. -/
def arrayAgg (l : List String) : List String := l.insertionSort (· ≤ ·)

/-- `array_agg(DISTINCT x ORDER BY x)`. -/
def arrayAggDistinct (l : List String) : List String := arrayAgg l.dedup

theorem arrayAgg_eq_iff : arrayAgg l = arrayAgg l' ↔ l.Perm l' := by
  refine ⟨fun h => ?_, fun h => ?_⟩
  · have hsorted : (l.insertionSort (· ≤ ·)).Perm l' := by
      rw [show l.insertionSort (· ≤ ·) = l'.insertionSort (· ≤ ·) from h]
      exact List.perm_insertionSort _ l'
    exact (List.perm_insertionSort _ l).symm.trans hsorted
  · exact List.Perm.eq_of_pairwise' (List.pairwise_insertionSort _ l)
      (List.pairwise_insertionSort _ l') (((List.perm_insertionSort _ l).trans h).trans
        (List.perm_insertionSort _ l').symm)

theorem arrayAggDistinct_eq_iff :
    arrayAggDistinct l = arrayAggDistinct l' ↔ ∀ x, x ∈ l ↔ x ∈ l' := by
  rw [arrayAggDistinct, arrayAggDistinct, arrayAgg_eq_iff,
    List.perm_ext_iff_of_nodup (List.nodup_dedup l) (List.nodup_dedup l')]
  simp only [List.mem_dedup]

@[simp] theorem arrayAgg_eq_nil : arrayAgg l = [] ↔ l = [] := by
  rw [show ([] : List String) = arrayAgg [] from rfl, arrayAgg_eq_iff]
  exact List.perm_nil

end Aggregate

end Ldap2pg.Lib.Sql
