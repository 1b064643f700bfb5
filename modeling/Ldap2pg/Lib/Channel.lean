import Mathlib

/-! # Goroutines along channels

A pipeline is a list of goroutines that share a memory. Each one has an unbuffered
channel to the next. A goroutine is a control state, and `act` tells what it does
next: a send and the receipt of its value are one step, and a goroutine that has
returned has closed its channel. `Step` interleaves the goroutines.

The first goroutine may write, and the others read no more of the memory than a
view that these writes keep. Then the interleaving does not matter: each run ends
after a bounded number of steps, with what the goroutines give one after the other. -/
namespace Ldap2pg.Lib

variable {m : Nat}

/-- What a goroutine does next. A received `none` is a closed channel. -/
inductive Act (σ α ρ S : Type) where
  | ret (r : ρ)
  | access (write : σ → σ) (next : σ → S)
  | recv (next : Option α → S)
  | send (a : α) (next : S)

namespace Pipeline
variable {σ α ρ S τ : Type} (act : S → Act σ α ρ S)

inductive Step : σ → List S → σ → List S → Prop
  | access {s : σ} {x : S} {f : σ → σ} {k : σ → S} {l : List S} (h : act x = .access f k) :
      Step s (x :: l) (f s) (k s :: l)
  | pass {s : σ} {x y x' : S} {a : α} {k : Option α → S} {l : List S} (hx : act x = .send a x')
      (hy : act y = .recv k) : Step s (x :: y :: l) s (x' :: k (some a) :: l)
  | closed {s : σ} {x y : S} {r : ρ} {k : Option α → S} {l : List S} (hx : act x = .ret r)
      (hy : act y = .recv k) : Step s (x :: y :: l) s (x :: k none :: l)
  | later {s s' : σ} {x : S} {l l' : List S} (h : Step s l s' l') : Step s (x :: l) s' (x :: l')

variable {act} in
theorem Step.access_to {s s' : σ} {x x' : S} {f : σ → σ} {k : σ → S} {l : List S}
    (h : act x = .access f k) (hs : f s = s') (hx : k s = x') : Step act s (x :: l) s' (x' :: l) :=
  hs ▸ hx ▸ .access h

/-- A run of so many steps. -/
inductive Run : Nat → σ → List S → σ → List S → Prop
  | refl {s : σ} {l : List S} : Run 0 s l s l
  | step {n : Nat} {s s₁ s₂ : σ} {l l₁ l₂ : List S} (h : Step act s l s₁ l₁)
      (rest : Run n s₁ l₁ s₂ l₂) : Run (n + 1) s l s₂ l₂

theorem Run.trans {act : S → Act σ α ρ S} {n : Nat} {s s₁ s₂ : σ} {l l₁ l₂ : List S}
    (h : Run act n s l s₁ l₁) (h' : Run act m s₁ l₁ s₂ l₂) : Run act (m + n) s l s₂ l₂ := by
  induction h with
  | refl => exact h'
  | step hfirst _ ih => exact .step hfirst (ih h')

/-- The last goroutine has returned. -/
def Finished (l : List S) (r : ρ) : Prop := ∃ x, l.getLast? = some x ∧ act x = .ret r

/-- The rule of invariants, along a run. -/
theorem Run.invariant {act : S → Act σ α ρ S} {I : σ → List S → Prop}
    (hstep : ∀ {s s' l l'}, I s l → Step act s l s' l' → I s' l') {n : Nat} {s s' : σ}
    {l l' : List S} (h : Run act n s l s' l') : I s l → I s' l' := by
  induction h with
  | refl => exact id
  | step hfirst _ ih => exact fun hi => ih (hstep hi hfirst)

/-- An invariant with a measure that every step takes down. -/
theorem Run.decreases {act : S → Act σ α ρ S} {I : σ → List S → Nat → Prop}
    (hstep : ∀ {s s' l l' n}, I s l n → Step act s l s' l' → ∃ n', n' < n ∧ I s' l' n') {k : Nat}
    {s s' : σ} {l l' : List S} (h : Run act k s l s' l') :
    ∀ {n : Nat}, I s l n → ∃ n', k + n' ≤ n ∧ I s' l' n' := by
  induction h with
  | refl => exact fun hi => ⟨_, (Nat.zero_add _).le, hi⟩
  | step hfirst _ ih =>
    intro n hi
    obtain ⟨n₁, hn₁, h₁⟩ := hstep hi hfirst
    obtain ⟨n', hn', h'⟩ := ih h₁
    exact ⟨n', by omega, h'⟩

/-! ## One goroutine after the other -/

variable (view : σ → τ) (c : τ)

/-- A goroutine that reads the view `c` gets all of `input`, then the channel closed:
what it sends and returns, in so many actions. It may return before it has read all. -/
inductive Consumes : S → List α → List α → ρ → Nat → Prop
  | ret {x : S} {input : List α} {r : ρ} (h : act x = .ret r) : Consumes x input [] r 0
  | access {x x' : S} {f : σ → σ} {k : σ → S} {input out : List α} {r : ρ} {n : Nat}
      (h : act x = .access f k) (hwrite : ∀ s, f s = s) (hview : ∀ s, view s = c → k s = x')
      (rest : Consumes x' input out r n) : Consumes x input out r (n + 1)
  | recv {x : S} {k : Option α → S} {a : α} {input out : List α} {r : ρ} {n : Nat}
      (h : act x = .recv k) (rest : Consumes (k (some a)) input out r n) :
      Consumes x (a :: input) out r (n + 1)
  | closed {x : S} {k : Option α → S} {out : List α} {r : ρ} {n : Nat}
      (h : act x = .recv k) (rest : Consumes (k none) [] out r n) : Consumes x [] out r (n + 1)
  | send {x x' : S} {a : α} {input out : List α} {r : ρ} {n : Nat} (h : act x = .send a x')
      (rest : Consumes x' input out r n) : Consumes x input (a :: out) r (n + 1)

/-- The goroutines after the first one, each on what the one before it sends. -/
inductive Chain : List S → List α → ρ → Nat → Prop
  | last {x : S} {input : List α} {r : ρ} {n : Nat} (h : Consumes act view c x input [] r n) :
      Chain [x] input r n
  | cons {x : S} {l : List S} {input out : List α} {r r' : ρ} {n m : Nat}
      (h : Consumes act view c x input out r' n) (rest : Chain l out r m) :
      Chain (x :: l) input r (n + m)

/-- The first goroutine changes the memory and keeps the view. -/
inductive Produces : S → σ → σ → List α → Nat → Prop
  | ret {x : S} {s : σ} {r : ρ} (h : act x = .ret r) : Produces x s s [] 0
  | access {x : S} {f : σ → σ} {k : σ → S} {s s' : σ} {out : List α} {n : Nat}
      (h : act x = .access f k) (hview : view (f s) = c) (rest : Produces (k s) (f s) s' out n) :
      Produces x s s' out (n + 1)
  | send {x x' : S} {a : α} {s s' : σ} {out : List α} {n : Nat} (h : act x = .send a x')
      (rest : Produces x' s s' out n) : Produces x s s' (a :: out) (n + 1)

variable {act view c}

section Consumes
variable {x : S} {input out : List α} {r : ρ} {n : Nat}

theorem Consumes.of_ret {r' : ρ} (h : Consumes act view c x input out r n) (hx : act x = .ret r') :
    out = [] ∧ r' = r ∧ n = 0 := by
  cases h with
  | ret hk => cases hx.symm.trans hk; exact ⟨rfl, rfl, rfl⟩
  | _ hk => cases hx.symm.trans hk

theorem Consumes.of_access {f : σ → σ} {k : σ → S} {s : σ} (h : Consumes act view c x input out r n)
    (hx : act x = .access f k) (hs : view s = c) :
    f s = s ∧ ∃ n', n = n' + 1 ∧ Consumes act view c (k s) input out r n' := by
  cases h with
  | access hk hwrite hview rest =>
    cases hx.symm.trans hk
    exact ⟨hwrite s, _, rfl, hview s hs ▸ rest⟩
  | _ hk => cases hx.symm.trans hk

theorem Consumes.of_recv {k : Option α → S} (h : Consumes act view c x input out r n)
    (hx : act x = .recv k) :
    ∃ n', n = n' + 1 ∧ Consumes act view c (k input.head?) input.tail out r n' := by
  cases h with
  | recv hk rest => cases hx.symm.trans hk; exact ⟨_, rfl, rest⟩
  | closed hk rest => cases hx.symm.trans hk; exact ⟨_, rfl, rest⟩
  | _ hk => cases hx.symm.trans hk

theorem Consumes.of_send {x' : S} {a : α} (h : Consumes act view c x input out r n)
    (hx : act x = .send a x') :
    ∃ out' n', out = a :: out' ∧ n = n' + 1 ∧ Consumes act view c x' input out' r n' := by
  cases h with
  | send hk rest => cases hx.symm.trans hk; exact ⟨_, _, rfl, rfl, rest⟩
  | _ hk => cases hx.symm.trans hk

end Consumes

/-- The first reader gets the next value, or the channel closed. -/
theorem Chain.recv {y : S} {l : List S} {input : List α} {r : ρ} {k : Option α → S}
    (h : Chain act view c (y :: l) input r m) (hy : act y = .recv k) :
    ∃ m', m' < m ∧ Chain act view c (k input.head? :: l) input.tail r m' := by
  cases h with
  | last h =>
    obtain ⟨n, rfl, hnext⟩ := h.of_recv hy
    exact ⟨n, Nat.lt_succ_self n, .last hnext⟩
  | cons h rest =>
    obtain ⟨n, rfl, hnext⟩ := h.of_recv hy
    exact ⟨_, by omega, .cons hnext rest⟩

/-- A step among the readers leaves them with less to do, towards the same end. -/
theorem Chain.step {l : List S} {input : List α} {r : ρ} (h : Chain act view c l input r m) :
    ∀ {s s' : σ} {l' : List S}, view s = c →
      Step act s l s' l' → s' = s ∧ ∃ m', m' < m ∧ Chain act view c l' input r m' := by
  induction h with
  | last h =>
    intro s s' l' hs hstep
    cases hstep with
    | later hstep => cases hstep
    | access hx =>
      obtain ⟨hwrite, n, rfl, hnext⟩ := h.of_access hx hs
      exact ⟨hwrite, n, Nat.lt_succ_self n, .last hnext⟩
  | cons h rest ih =>
    intro s s' l' hs hstep
    cases hstep with
    | later hstep =>
      obtain ⟨he, m', hm', hchain⟩ := ih hs hstep
      exact ⟨he, _, by omega, .cons h hchain⟩
    | access hx =>
      obtain ⟨hwrite, n, rfl, hnext⟩ := h.of_access hx hs
      exact ⟨hwrite, _, by omega, .cons hnext rest⟩
    | pass hx hy =>
      obtain ⟨out, n, rfl, rfl, hnext⟩ := h.of_send hx
      obtain ⟨m', hm', hchain⟩ := rest.recv hy
      exact ⟨rfl, _, by omega, .cons hnext hchain⟩
    | closed hx hy =>
      obtain ⟨rfl, _⟩ := h.of_ret hx
      obtain ⟨m', hm', hchain⟩ := rest.recv hy
      exact ⟨rfl, _, by omega, .cons h hchain⟩

/-- Readers that have not come to their end can step, unless the first one waits. -/
theorem Chain.progress {l : List S} {input : List α} {r : ρ} (h : Chain act view c l input r m)
    (s : σ) :
    Finished act l r ∨ (∃ y l' k, l = y :: l' ∧ act y = .recv k) ∨ ∃ s' l', Step act s l s' l' := by
  induction h with
  | @last x _ _ _ h =>
    cases h with
    | ret hk => exact .inl ⟨x, rfl, hk⟩
    | access hk => exact .inr (.inr ⟨_, _, .access hk⟩)
    | recv hk => exact .inr (.inl ⟨_, _, _, rfl, hk⟩)
    | closed hk => exact .inr (.inl ⟨_, _, _, rfl, hk⟩)
  | @cons x l _ _ _ _ _ _ h rest ih =>
    rcases ih with ⟨z, hz, hret⟩ | ⟨y, l', k, rfl, hy⟩ | ⟨s', l', hstep⟩
    · refine .inl ⟨z, ?_, hret⟩
      rw [List.getLast?_cons, hz, Option.getD_some]
    · cases h with
      | ret hk => exact .inr (.inr ⟨_, _, .closed hk hy⟩)
      | access hk => exact .inr (.inr ⟨_, _, .access hk⟩)
      | recv hk => exact .inr (.inl ⟨_, _, _, rfl, hk⟩)
      | closed hk => exact .inr (.inl ⟨_, _, _, rfl, hk⟩)
      | send hk => exact .inr (.inr ⟨_, _, .pass hk hy⟩)
    · exact .inr (.inr ⟨_, _, .later hstep⟩)

theorem Chain.finished {l : List S} {input : List α} {r r' : ρ} (h : Chain act view c l input r m)
    (hl : Finished act l r') : r' = r := by
  obtain ⟨x, hx, hret⟩ := hl
  induction h with
  | last h =>
    cases hx
    exact (h.of_ret hret).2.1
  | cons h rest ih =>
    cases rest with
    | last => exact ih (by rwa [List.getLast?_cons_cons] at hx)
    | cons => exact ih (by rwa [List.getLast?_cons_cons] at hx)

/-! ## Every interleaving -/

variable (act view c) in
/-- The pipeline is `n` actions away from its end: the first goroutine leaves the
memory `final`, and the last one returns `r`. -/
structure Settled (final : σ) (r : ρ) (s : σ) (l : List S) (n : Nat) : Prop where
  seen : view s = c
  split : ∃ x rest out n₁ n₂, l = x :: rest ∧ Produces act view c x s final out n₁ ∧
    Chain act view c rest out r n₂ ∧ n = n₁ + n₂

variable {final s s' : σ} {r : ρ} {l l' : List S} {n : Nat}

theorem Settled.step (h : Settled act view c final r s l n) (hstep : Step act s l s' l') :
    ∃ n', n' < n ∧ Settled act view c final r s' l' n' := by
  obtain ⟨hs, x, rest, out, n₁, n₂, rfl, hproduces, hchain, rfl⟩ := h
  cases hstep with
  | later hstep =>
    obtain ⟨rfl, m', hm', hchain'⟩ := hchain.step hs hstep
    exact ⟨n₁ + m', by omega, hs, x, _, out, n₁, m', rfl, hproduces, hchain', rfl⟩
  | access hx =>
    cases hproduces with
    | @access _ _ _ _ _ _ n₁ hk hview hrest =>
      cases hx.symm.trans hk
      exact ⟨n₁ + n₂, by omega, hview, _, _, out, n₁, n₂, rfl, hrest, hchain, rfl⟩
    | ret hk => cases hx.symm.trans hk
    | send hk => cases hx.symm.trans hk
  | pass hx hy =>
    cases hproduces with
    | @send _ _ _ _ _ out n₁ hk hrest =>
      cases hx.symm.trans hk
      obtain ⟨m', hm', hchain'⟩ := hchain.recv hy
      exact ⟨n₁ + m', by omega, hs, _, _, out, n₁, m', rfl, hrest, hchain', rfl⟩
    | ret hk => cases hx.symm.trans hk
    | access hk => cases hx.symm.trans hk
  | closed hx hy =>
    cases hproduces with
    | ret hk =>
      obtain ⟨m', hm', hchain'⟩ := hchain.recv hy
      exact ⟨0 + m', by omega, hs, x, _, [], 0, m', rfl, .ret hk, hchain', rfl⟩
    | access hk => cases hx.symm.trans hk
    | send hk => cases hx.symm.trans hk

/-- The pipeline does not get stuck before its end. -/
theorem Settled.progress (h : Settled act view c final r s l n) :
    Finished act l r ∨ ∃ s' l', Step act s l s' l' := by
  obtain ⟨_, x, rest, out, n₁, n₂, rfl, hproduces, hchain, _⟩ := h
  rcases hchain.progress s with ⟨z, hz, hret⟩ | ⟨y, l', k, rfl, hy⟩ | ⟨s', l', hstep⟩
  · refine .inl ⟨z, ?_, hret⟩
    rw [List.getLast?_cons, hz, Option.getD_some]
  · cases hproduces with
    | ret hk => exact .inr ⟨_, _, .closed hk hy⟩
    | access hk => exact .inr ⟨_, _, .access hk⟩
    | send hk => exact .inr ⟨_, _, .pass hk hy⟩
  · exact .inr ⟨_, _, .later hstep⟩

theorem Settled.finished {r' : ρ} (h : Settled act view c final r s l n)
    (hl : Finished act l r') : r' = r := by
  obtain ⟨_, x, rest, out, n₁, n₂, rfl, _, hchain, _⟩ := h
  obtain ⟨z, hz, hret⟩ := hl
  refine hchain.finished ⟨z, ?_, hret⟩
  cases hchain with
  | last => rwa [List.getLast?_cons_cons] at hz
  | cons => rwa [List.getLast?_cons_cons] at hz

/-- **Interleavings do not matter.** Every run of a settled pipeline is of bounded
length; when no step is left the last goroutine has returned, and what it returned
is what the goroutines give one after the other. -/
theorem Settled.interleaved (h : Settled act view c final r s l n) {k : Nat}
    (hrun : Run act k s l s' l') : k ≤ n ∧
      ((∀ s'' l'', ¬ Step act s' l' s'' l'') → Finished act l' r) ∧
      ∀ r', Finished act l' r' → r' = r := by
  obtain ⟨n', hn', h'⟩ := hrun.decreases (fun h hstep => h.step hstep) h
  refine ⟨by omega, fun hstuck => ?_, fun r' => h'.finished⟩
  exact h'.progress.resolve_right fun ⟨s'', l'', hstep⟩ => hstuck s'' l'' hstep

end Pipeline

end Ldap2pg.Lib
