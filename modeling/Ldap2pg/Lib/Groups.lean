import Mathlib.Data.List.Basic
import Mathlib.Data.List.Nodup
import Mathlib.Data.List.Perm.Basic

/-! # Grouping a list by a key

Two nested loops, over the keys and over the list, that send the elements of each
key in turn. When the keys are distinct and cover the list, nothing is lost,
nothing is sent twice, and each key keeps the order of its elements. -/
namespace Ldap2pg.Lib.Groups

variable {α κ : Type} [DecidableEq κ]

/-- The elements of `l`, the keys of `names` one after the other. -/
def grouped (key : α → κ) (names : List κ) (l : List α) : List α :=
  names.flatMap fun name => l.filter fun a => key a = name

/-- Between two elements of one key there is no element of another. -/
def Contiguous (key : α → κ) (l : List α) : Prop :=
  ∀ before a between b later, l = before ++ a :: between ++ b :: later → key a = key b →
    ∀ c ∈ between, key c = key a

variable {key : α → κ} {names : List κ} {l : List α}

theorem mem_grouped {a : α} : a ∈ grouped key names l ↔ a ∈ l ∧ key a ∈ names := by
  simp [grouped, and_comm]

theorem grouped_cons (name : κ) (names : List κ) (l : List α) :
    grouped key (name :: names) l = l.filter (fun a => key a = name) ++ grouped key names l := by
  rw [grouped, List.flatMap_cons, grouped]

theorem grouped_append (names names' : List κ) (l : List α) :
    grouped key (names ++ names') l = grouped key names l ++ grouped key names' l :=
  List.flatMap_append

/-- Dropping elements of other keys changes nothing. -/
theorem grouped_filter {p : α → Bool}
    (hall : ∀ n ∈ names, ∀ a ∈ l, key a = n → p a = true) :
    grouped key names (l.filter p) = grouped key names l := by
  unfold grouped
  refine List.flatMap_congr fun n hn => ?_
  rw [List.filter_filter]
  refine List.filter_congr fun a ha => ?_
  by_cases he : key a = n
  · simp [he, hall n hn a ha he]
  · simp [he]

/-- **Nothing is lost or sent twice.** -/
theorem grouped_perm (hn : names.Nodup) (hall : ∀ a ∈ l, key a ∈ names) :
    (grouped key names l).Perm l := by
  induction names generalizing l with
  | nil =>
    have hl : l = [] := List.eq_nil_iff_forall_not_mem.mpr fun a ha => absurd (hall a ha) (by simp)
    rw [hl]
    exact List.Perm.refl _
  | cons name names ih =>
    obtain ⟨hnot, hn⟩ := List.nodup_cons.mp hn
    have hrest : ∀ a ∈ l.filter (fun a => !decide (key a = name)), key a ∈ names := by
      intro a ha
      obtain ⟨ha, hne⟩ := List.mem_filter.mp ha
      exact (List.mem_cons.mp (hall a ha)).resolve_left (by simpa using hne)
    have hskip : grouped key names (l.filter fun a => !decide (key a = name)) =
        grouped key names l := by
      refine grouped_filter fun n hn a _ he => ?_
      simpa [he] using fun heq : n = name => hnot (heq ▸ hn)
    rw [grouped_cons, ← hskip]
    exact ((ih hn hrest).append_left _).trans (List.filter_append_perm _ l)

/-- **Each key keeps the order of its elements.** -/
theorem filter_grouped (hn : names.Nodup) (name : κ) (l : List α) :
    (grouped key names l).filter (fun a => key a = name) =
      if name ∈ names then l.filter (fun a => key a = name) else [] := by
  induction names with
  | nil => rfl
  | cons n names ih =>
    obtain ⟨hnot, hn⟩ := List.nodup_cons.mp hn
    rw [grouped_cons, List.filter_append, ih hn, List.filter_filter]
    by_cases he : name = n
    · subst he
      simp [hnot]
    · have hnone : ∀ a ∈ l, ¬ (decide (key a = name) && decide (key a = n)) = true := by
        intro a _ ha
        obtain ⟨h₁, h₂⟩ := Bool.and_eq_true_iff.mp ha
        exact he ((of_decide_eq_true h₁).symm.trans (of_decide_eq_true h₂))
      rw [List.filter_eq_nil_iff.mpr hnone]
      simp [he]

/-- The keys come in the order of `names`. -/
theorem pairwise_grouped (key : α → κ) (names : List κ) (l : List α) :
    names.Nodup → (grouped key names l).Pairwise fun a b =>
      names.idxOf (key a) ≤ names.idxOf (key b) := by
  induction names with
  | nil => intro _; exact List.Pairwise.nil
  | cons n names ih =>
    intro hn
    obtain ⟨hnot, hn⟩ := List.nodup_cons.mp hn
    have hfirst : ∀ a ∈ l.filter (fun a => key a = n), (n :: names).idxOf (key a) = 0 := by
      intro a ha
      have he : key a = n := by simpa using (List.mem_filter.mp ha).2
      rw [he, List.idxOf_cons_self]
    have hlater : ∀ a ∈ grouped key names l,
        (n :: names).idxOf (key a) = names.idxOf (key a) + 1 := by
      intro a ha
      refine List.idxOf_cons_ne _ fun he => hnot ?_
      exact he ▸ (mem_grouped.mp ha).2
    rw [grouped_cons, List.pairwise_append]
    refine ⟨?_, ?_, ?_⟩
    · refine List.pairwise_of_forall_mem_list fun a ha b _ => ?_
      exact hfirst a ha ▸ Nat.zero_le _
    · refine (ih hn).imp_of_mem fun {a b} ha hb hle => ?_
      rw [hlater a ha, hlater b hb]
      exact Nat.succ_le_succ hle
    · intro a ha b _
      exact hfirst a ha ▸ Nat.zero_le _

/-- **The elements of a key stay together.** -/
theorem contiguous_grouped (hn : names.Nodup) (l : List α) :
    Contiguous key (grouped key names l) := by
  intro before a between b later heq hab c hc
  have hsorted := pairwise_grouped key names l hn
  have hmem : ∀ x, x = a ∨ x = c → key x ∈ names := by
    intro x hx
    have hin : x ∈ grouped key names l := by
      rw [heq]
      rcases hx with rfl | rfl <;> simp [hc]
    exact (mem_grouped.mp hin).2
  rw [heq, List.append_assoc, List.pairwise_append] at hsorted
  obtain ⟨hac, hrest⟩ := List.pairwise_cons.mp hsorted.2.1
  have hcb := (List.pairwise_append.mp hrest).2.2 c hc b List.mem_cons_self
  have hle := hac c (List.mem_append_left _ hc)
  rw [← hab] at hcb
  exact (List.idxOf_inj (hmem c (.inr rfl))).mp (Nat.le_antisymm hcb hle)

/-! ## Changes of key -/

/-- The keys that are switched to along a list of keys, when `cur` is the one in use. -/
def switches : Option κ → List κ → List κ
  | _, [] => []
  | cur, k :: l => if cur = some k then switches cur l else k :: switches (some k) l

theorem switches_same {k : κ} {l : List κ} (h : ∀ x ∈ l, x = k) : switches (some k) l = [] := by
  induction l with
  | nil => rfl
  | cons x l ih =>
    rw [switches, if_pos (congrArg some (h x List.mem_cons_self).symm)]
    exact ih fun y hy => h y (List.mem_cons_of_mem x hy)

theorem switches_sublist (cur : Option κ) (l : List κ) : (switches cur l).Sublist l := by
  induction l generalizing cur with
  | nil => exact .refl _
  | cons k l ih =>
    rw [switches]
    split
    · exact (ih cur).cons k
    · exact (ih (some k)).cons_cons k

/-- The last key of a list is the one in use after it. -/
theorem switches_append (cur : Option κ) (l l' : List κ) :
    switches cur (l ++ l') = switches cur l ++ switches (l.getLast?.or cur) l' := by
  induction l generalizing cur with
  | nil => simp [switches]
  | cons k l ih =>
    have hlast : (k :: l).getLast?.or cur = l.getLast?.or (some k) := by
      cases l <;> simp [List.getLast?_cons]
    rw [List.cons_append, switches, switches, hlast]
    split
    case isTrue he => rw [ih, he]
    case isFalse => rw [ih, List.cons_append]

theorem switches_fresh {k : κ} {l : List κ} (hn : l.Nodup) (hk : k ∉ l) :
    switches (some k) l = l := by
  induction l generalizing k with
  | nil => rfl
  | cons x l ih =>
    obtain ⟨hx, hn⟩ := List.nodup_cons.mp hn
    have hne : some k ≠ some x := fun he => hk ((Option.some.inj he).symm ▸ List.mem_cons_self)
    rw [switches, if_neg hne, ih hn hx]

theorem switches_nodup {cur : Option κ} {l : List κ} (hn : l.Nodup) :
    switches cur l = if cur = l.head? then l.tail else l := by
  cases l with
  | nil => exact (ite_self _).symm
  | cons k l =>
    obtain ⟨hk, hn⟩ := List.nodup_cons.mp hn
    rw [switches, List.head?_cons, List.tail_cons]
    split
    case isTrue he => rw [he, switches_fresh hn hk]
    case isFalse => rw [switches_fresh hn hk]

/-- Distinct keys need as many switches as there are, but for the one in use. -/
theorem length_le_switches {l : List κ} (hn : l.Nodup) (cur : Option κ) :
    l.length ≤ (switches cur l).length + 1 := by
  rw [switches_nodup hn]
  split
  · rw [List.length_tail]
    omega
  · exact Nat.le_succ _

/-- Blocks of distinct keys among others, one after the other, are not any cheaper for it. -/
theorem mul_le_switches {p : α → Bool} {l : List α} {blocks : List (List κ)} {m : Nat}
    (h : List.Forall₂ (fun a block => p a = true → block.Nodup ∧ block.length = m) l blocks) :
    ∀ cur : Option κ, l.countP p * (m - 1) ≤ (switches cur blocks.flatten).length := by
  induction h with
  | nil => intro cur; rw [List.countP_nil, Nat.zero_mul]; exact Nat.zero_le _
  | @cons a block l blocks hblock _ ih =>
    intro cur
    have hrest := ih (block.getLast?.or cur)
    rw [List.flatten_cons, switches_append, List.length_append]
    cases hp : p a with
    | false =>
      rw [List.countP_cons_of_neg (by simp [hp])]
      omega
    | true =>
      obtain ⟨hnodup, hlength⟩ := hblock hp
      have hfirst := length_le_switches hnodup cur
      rw [List.countP_cons_of_pos hp, Nat.succ_mul]
      omega

/-- The keys with elements, in the order of `names`. -/
def occurring (key : α → κ) (names : List κ) (l : List α) : List κ :=
  names.filter fun n => l.any fun a => key a = n

theorem mem_occurring {n : κ} : n ∈ occurring key names l ↔ n ∈ names ∧ ∃ a ∈ l, key a = n := by
  simp [occurring]

/-- Along a grouped list each key is switched to once. -/
theorem switches_grouped (hn : names.Nodup) (cur : Option κ) :
    switches cur ((grouped key names l).map key) = switches cur (occurring key names l) := by
  induction names generalizing cur with
  | nil => rfl
  | cons n names ih =>
    have hnames : names.Nodup := (List.nodup_cons.mp hn).2
    have hblock : ∀ k ∈ (l.filter fun a => key a = n).map key, k = n := by
      intro k hk
      obtain ⟨a, ha, rfl⟩ := List.mem_map.mp hk
      exact of_decide_eq_true (List.mem_filter.mp ha).2
    rw [grouped_cons, List.map_append, occurring, List.filter_cons]
    by_cases hany : (l.any fun a => key a = n) = true
    · rw [if_pos hany]
      obtain ⟨a, ha, hkey⟩ := List.any_eq_true.mp hany
      obtain ⟨k, block, hk⟩ : ∃ k block, (l.filter fun a => key a = n).map key = k :: block :=
        List.exists_cons_of_ne_nil fun hnil =>
          List.not_mem_nil (hnil ▸ List.mem_map_of_mem (List.mem_filter.mpr ⟨ha, hkey⟩))
      rw [hk] at hblock ⊢
      obtain rfl := hblock k List.mem_cons_self
      have hsame : switches (some k) block = [] :=
        switches_same fun x hx => hblock x (List.mem_cons_of_mem k hx)
      have hlast : block.getLast?.or (some k) = some k := by
        cases hb : block.getLast? with
        | none => rfl
        | some x => rw [hblock x (List.mem_cons_of_mem k (List.mem_of_getLast? hb))]; rfl
      have hrest : switches (some k) (block ++ (grouped key names l).map key) =
          switches (some k) (occurring key names l) := by
        rw [switches_append, hsame, hlast, List.nil_append, ih hnames]
      rw [List.cons_append, switches, switches]
      split
      case isTrue he => rw [he, hrest]; rfl
      case isFalse => rw [hrest]; rfl
    · rw [if_neg hany]
      have hnil : (l.filter fun a => key a = n) = [] := by
        refine List.filter_eq_nil_iff.mpr fun a ha hk => hany ?_
        exact List.any_eq_true.mpr ⟨a, ha, hk⟩
      rw [hnil]
      exact ih hnames cur

end Ldap2pg.Lib.Groups
