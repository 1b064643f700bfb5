import Mathlib

/-! # Rules for loops

`emit` is the shape of a Go loop that appends to a slice, or sends on a channel,
while it changes a variable the next turns read. `forall_states_iff` is for a
property that a run keeps only as long as its turns meet a condition. The lemmas
on `List.mapM` are for loops that a panic may abort. -/
namespace Ldap2pg.Lib

variable {σ α β : Type}

variable {l : List α} {out : List β} {a : α}

/-- Runs `step` on each element in turn, collecting what it sends. -/
def emit (step : σ → α → List β × σ) : σ → List α → List β × σ
  | s, [] => ([], s)
  | s, a :: l => ((step s a).1 ++ (emit step (step s a).2 l).1, (emit step (step s a).2 l).2)

/-- What a turn sends whatever the state is sent by the loop. -/
theorem mem_emit {step : σ → α → List β × σ} {b : β} (ha : a ∈ l) (hb : ∀ s, b ∈ (step s a).1) :
    ∀ {s : σ}, b ∈ (emit step s l).1 := by
  induction l with
  | nil => cases ha
  | cons x l ih =>
    intro s
    rcases List.mem_cons.mp ha with rfl | ha
    · exact List.mem_append_left _ (hb s)
    · exact List.mem_append_right _ (ih ha)

/-- The rule of such loops: what a turn keeps true of the state and of what it
sends is true of the whole loop. -/
theorem emit_inv (step : σ → α → List β × σ) (I : σ → Prop) (P : β → Prop)
    (hstep : ∀ s, ∀ a ∈ l, I s → (∀ b ∈ (step s a).1, P b) ∧ I (step s a).2) :
    ∀ {s : σ}, I s → (∀ b ∈ (emit step s l).1, P b) ∧ I (emit step s l).2 := by
  induction l with
  | nil => intro s hs; exact ⟨fun b hb => absurd hb List.not_mem_nil, hs⟩
  | cons a l ih =>
    intro s hs
    obtain ⟨hout, hnext⟩ := hstep s a List.mem_cons_self hs
    obtain ⟨houts, hlast⟩ := ih (fun s b hb => hstep s b (List.mem_cons_of_mem a hb)) hnext
    refine ⟨fun b hb => ?_, hlast⟩
    rcases List.mem_append.mp hb with hb | hb
    · exact hout b hb
    · exact houts b hb

/-- What a turn sends is sent by the whole loop. -/
theorem emit_turn (step : σ → α → List β × σ) (ha : a ∈ l) :
    ∀ s, ∃ s', ∀ b ∈ (step s' a).1, b ∈ (emit step s l).1 := by
  induction l with
  | nil => cases ha
  | cons a' l ih =>
    intro s
    rcases List.mem_cons.mp ha with rfl | ha
    · exact ⟨s, fun b hb => List.mem_append_left _ hb⟩
    · obtain ⟨s', hs'⟩ := ih ha (step s a').2
      exact ⟨s', fun b hb => List.mem_append_right _ (hs' b hb)⟩

/-- **A run keeps a property exactly when its turns meet a condition.** `P` is the
property and `T` what else holds along the way, of the elements taken so far. A
turn from there keeps `P` if and only if it meets `Q`, and then also keeps `T`. -/
theorem forall_states_iff {P T : List α → Prop} {Q : List α → α → Prop} (hinit : P [] ∧ T [])
    (hstep : ∀ before a, P before → T before →
      (P (before ++ [a]) ↔ Q before a) ∧ (Q before a → T (before ++ [a]))) (l : List α) :
    (∀ before later, l = before ++ later → P before) ↔
      ∀ before a later, l = before ++ a :: later → Q before a := by
  have hrun : (∀ before a later, l = before ++ a :: later → P before → T before → Q before a) →
      ∀ before later, l = before ++ later → P before ∧ T before := by
    intro hq before
    induction before using List.reverseRecOn with
    | nil => intro later _; exact hinit
    | append_singleton before a ih =>
      intro later hsplit
      rw [List.append_assoc, List.singleton_append] at hsplit
      obtain ⟨hp, ht⟩ := ih (a :: later) hsplit
      have hqa := hq before a later hsplit hp ht
      exact ⟨(hstep before a hp ht).1.mpr hqa, (hstep before a hp ht).2 hqa⟩
  constructor
  · intro hall
    have hq : ∀ before a later, l = before ++ a :: later → P before → T before → Q before a := by
      intro before a later hsplit hp ht
      exact (hstep before a hp ht).1.mp (hall (before ++ [a]) later (by simp [hsplit]))
    intro before a later hsplit
    obtain ⟨hp, ht⟩ := hrun hq before (a :: later) hsplit
    exact hq before a later hsplit hp ht
  · intro hq before later hsplit
    exact (hrun (fun before a later hsplit _ _ => hq before a later hsplit) before later hsplit).1

/-- Each element of a list comes with its index. -/
theorem exists_mem_zipIdx (h : a ∈ l) : ∃ i, (a, i) ∈ l.zipIdx := by
  obtain ⟨i, hi⟩ := List.mem_iff_getElem?.mp h
  exact ⟨i, List.mem_zipIdx_iff_getElem?.mpr hi⟩

theorem flatMap_zipIdx_fst (l : List α) (f : α → List β) :
    (l.zipIdx.flatMap fun ai => f ai.1) = l.flatMap f := by
  rw [← List.flatMap_map Prod.fst, List.zipIdx_map_fst]

theorem nodup_zipIdx_snd (l : List α) : (l.zipIdx.map Prod.snd).Nodup := by
  rw [List.zipIdx_map_snd]
  exact List.nodup_range'

/-- What comes from one element only, and once. -/
theorem nodup_flatMap_of_inj {f : α → List β} (hl : l.Nodup) (hf : ∀ a ∈ l, (f a).Nodup)
    (hinj : ∀ a ∈ l, ∀ b ∈ l, ∀ c, c ∈ f a → c ∈ f b → a = b) : (l.flatMap f).Nodup := by
  refine List.nodup_flatMap.mpr ⟨hf, hl.pairwise_of_forall_ne fun a ha b hb hne => ?_⟩
  exact fun c hca hcb => hne (hinj a ha b hb c hca hcb)

theorem exists_of_forall₂ {R : α → β → Prop} {l' : List β} (h : List.Forall₂ R l l') (ha : a ∈ l) :
    ∃ b ∈ l', R a b := by
  induction h with
  | nil => cases ha
  | cons hr _ ih =>
    rcases List.mem_cons.mp ha with rfl | ha
    · exact ⟨_, List.mem_cons_self, hr⟩
    · obtain ⟨b, hmem, hb⟩ := ih ha
      exact ⟨b, List.mem_cons_of_mem _ hmem, hb⟩

theorem mapError_eq_ok {ε ε' : Type} {x : Except ε α} {wrap : ε → ε'} :
    x.mapError wrap = .ok a ↔ x = .ok a := by
  cases x <;> simp [Except.mapError]

theorem map_eq_ok {ε : Type} {x : Except ε α} {f : α → β} {b : β} :
    x.map f = .ok b ↔ ∃ a, x = .ok a ∧ f a = b := by
  cases x <;> simp [Except.map]

/-- A loop that may stop ends when no turn stops. -/
theorem mapM_some_iff [Inhabited β] {f : α → Option β} :
    l.mapM f = some out ↔
      (∀ a ∈ l, (f a).isSome = true) ∧ out = l.map fun a => (f a).getD default := by
  induction l generalizing out with
  | nil =>
    refine ⟨fun h => ⟨fun a ha => (List.not_mem_nil ha).elim, (Option.some.inj h).symm⟩, ?_⟩
    intro ⟨_, hout⟩
    rw [hout]
    rfl
  | cons a l ih =>
    rw [List.mapM_cons]
    cases hf : f a with
    | none => simp [hf]
    | some b =>
      simp only [Option.bind_eq_bind, Option.bind_some, Option.bind_eq_some_iff, Option.pure_def,
        Option.some.injEq, List.forall_mem_cons, hf, Option.isSome_some, true_and, List.map_cons,
        Option.getD_some]
      constructor
      · intro ⟨rest, hrest, hout⟩
        obtain ⟨hall, rfl⟩ := ih.mp hrest
        exact ⟨hall, hout.symm⟩
      · intro ⟨hall, hout⟩
        exact ⟨_, ih.mpr ⟨hall, rfl⟩, hout.symm⟩

section Abort
variable {ε : Type} {f : α → Except ε β}

theorem ok_bind (a : α) : ((Except.ok a : Except ε α) >>= f) = f a := rfl

theorem bind_eq_ok {x : Except ε α} {b : β} : (x >>= f) = .ok b ↔ ∃ a, x = .ok a ∧ f a = .ok b := by
  cases x with
  | error e =>
    refine ⟨fun h => ?_, fun ⟨a, h, _⟩ => ?_⟩
    · cases h
    · cases h
  | ok a =>
    refine ⟨fun h => ⟨a, rfl, h⟩, fun ⟨a', h, hb⟩ => ?_⟩
    cases h
    exact hb

theorem mapM_ok_iff : l.mapM f = .ok out ↔ List.Forall₂ (fun a b => f a = .ok b) l out := by
  induction l generalizing out with
  | nil =>
    rw [List.forall₂_nil_left_iff]
    exact ⟨fun h => (Except.ok.inj h).symm, fun h => h ▸ rfl⟩
  | cons a l ih =>
    rw [List.mapM_cons]
    constructor
    · intro h
      cases ha : f a with
      | error e => rw [ha] at h; cases h
      | ok b =>
        cases hl : l.mapM f with
        | error e => rw [ha, hl] at h; cases h
        | ok bs =>
          rw [ha, hl] at h
          cases h
          exact .cons ha (ih.mp hl)
    · intro h
      cases h with
      | cons ha hl => rw [ha, ih.mpr hl]; rfl

theorem exists_mapM_ok (h : ∀ a ∈ l, ∃ b, f a = .ok b) : ∃ out, l.mapM f = .ok out := by
  induction l with
  | nil => exact ⟨[], rfl⟩
  | cons a l ih =>
    obtain ⟨b, hb⟩ := h a List.mem_cons_self
    obtain ⟨out, hout⟩ := ih fun a ha => h a (List.mem_cons_of_mem _ ha)
    exact ⟨b :: out, by rw [List.mapM_cons, hb, hout]; rfl⟩

theorem mem_mapM_ok (h : l.mapM f = .ok out) (ha : a ∈ l) : ∃ b ∈ out, f a = .ok b :=
  exists_of_forall₂ (mapM_ok_iff.mp h) ha

theorem mem_of_mapM_ok (h : l.mapM f = .ok out) {b : β} (hb : b ∈ out) : ∃ a ∈ l, f a = .ok b :=
  exists_of_forall₂ (mapM_ok_iff.mp h).flip hb

/-- A loop that gathers lists gathers what each turn stands for. -/
theorem exists_mapM_perm {f : α → Except ε (List β)} {g : α → List β}
    (h : ∀ a ∈ l, ∃ out, f a = .ok out ∧ out.Perm (g a)) :
    ∃ outs, l.mapM f = .ok outs ∧ outs.flatten.Perm (l.flatMap g) := by
  induction l with
  | nil => exact ⟨[], rfl, .refl _⟩
  | cons a l ih =>
    obtain ⟨out, hout, hperm⟩ := h a List.mem_cons_self
    obtain ⟨outs, houts, hperms⟩ := ih fun b hb => h b (List.mem_cons_of_mem a hb)
    refine ⟨out :: outs, by rw [List.mapM_cons, hout, houts]; rfl, ?_⟩
    rw [List.flatten_cons, List.flatMap_cons]
    exact hperm.append hperms

/-- Two loops over one list: `R` relates the results of the turns done so far, and `P` those
of one turn. -/
theorem exists_mapM_rel {f f' : α → Except ε β} {P : α → β → β → Prop}
    {R : List α → List β → List β → Prop} (hnil : R [] [] [])
    (hcons : ∀ {a b b' l out out'}, P a b b' → R l out out' → R (a :: l) (b :: out) (b' :: out'))
    (h : l.mapM f = .ok out) (hbody : ∀ a ∈ l, ∀ b, f a = .ok b → ∃ b', f' a = .ok b' ∧ P a b b') :
    ∃ out', l.mapM f' = .ok out' ∧ R l out out' := by
  have hall := mapM_ok_iff.mp h
  clear h
  induction hall with
  | nil => exact ⟨[], rfl, hnil⟩
  | @cons a b l out hab _ ih =>
    obtain ⟨out', hout', hrest⟩ := ih fun a' ha' => hbody a' (List.mem_cons_of_mem a ha')
    obtain ⟨b', hb', hfirst⟩ := hbody a List.mem_cons_self b hab
    exact ⟨b' :: out', mapM_ok_iff.mpr (.cons hb' (mapM_ok_iff.mp hout')), hcons hfirst hrest⟩

/-- Two loops that send the same at each turn, up to order. -/
theorem exists_mapM_forall₂ {γ : Type} {f : α → Except ε (List β)} {g : γ → Except ε (List β)}
    {l' : List γ}
    (h : List.Forall₂ (fun a c => ∃ out out', f a = .ok out ∧ g c = .ok out' ∧ out.Perm out') l l') :
    ∃ outs outs', l.mapM f = .ok outs ∧ l'.mapM g = .ok outs' ∧
      outs.flatten.Perm outs'.flatten := by
  induction h with
  | nil => exact ⟨[], [], rfl, rfl, .refl _⟩
  | cons h _ ih =>
    obtain ⟨out, out', hout, hout', hperm⟩ := h
    obtain ⟨outs, outs', houts, houts', hperms⟩ := ih
    refine ⟨out :: outs, out' :: outs', by rw [List.mapM_cons, hout, houts]; rfl,
      by rw [List.mapM_cons, hout', houts']; rfl, ?_⟩
    rw [List.flatten_cons, List.flatten_cons]
    exact hperm.append hperms

end Abort

end Ldap2pg.Lib
