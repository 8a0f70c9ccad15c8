import Mathlib.Data.List.Infix

/-!
# Behaviours of deterministic automata

An automaton goes from state to state, makes events on the way and may stop with an outcome. What
can be seen of it from outside is its behaviour: whether it stops, with which events and which
outcome, and, also when it runs forever, the events that it makes sooner or later.

Two automata have the same behaviour when the steps of one are followed by the other, each by one
or more steps of its own with the same events. Both are deterministic, so following in one
direction is enough.
-/

namespace StackBackend

/-- A deterministic automaton: a step makes events, and leads to a state or stops with an outcome. -/
structure Automaton (ε σ ω : Type) where
  step : σ → List ε × (σ ⊕ ω)

namespace Automaton

variable {ε σ τ υ ω : Type}

/-- The events of at most `n` steps, and the state after them or the outcome. -/
def run (S : Automaton ε σ ω) : Nat → σ → List ε × (σ ⊕ ω)
  | 0, s => ([], .inl s)
  | n + 1, s =>
      match S.step s with
      | (tr, .inl t) => (tr ++ (S.run n t).1, (S.run n t).2)
      | (tr, .inr o) => (tr, .inr o)

/-- From `s` the automaton stops with the events `tr` and the outcome `o`. -/
def Halts (S : Automaton ε σ ω) (s : σ) (tr : List ε) (o : ω) : Prop :=
  ∃ n, S.run n s = (tr, .inr o)

/-- From `s` the automaton makes the events `tr` before any others. -/
def Emits (S : Automaton ε σ ω) (s : σ) (tr : List ε) : Prop :=
  ∃ n, tr <+: (S.run n s).1

/-- The two automata stop with the same events and outcomes, and make the same events on the
way, those of runs that never stop included. -/
structure SameBehaviour (S : Automaton ε σ ω) (s : σ) (T : Automaton ε τ ω) (t : τ) : Prop where
  halts : ∀ tr o, S.Halts s tr o ↔ T.Halts t tr o
  emits : ∀ tr, S.Emits s tr ↔ T.Emits t tr

theorem SameBehaviour.symm {S : Automaton ε σ ω} {s : σ} {T : Automaton ε τ ω} {t : τ}
    (h : SameBehaviour S s T t) :
  SameBehaviour T t S s
  := ⟨fun tr o => (h.halts tr o).symm, fun tr => (h.emits tr).symm⟩

theorem SameBehaviour.trans {S : Automaton ε σ ω} {s : σ} {T : Automaton ε τ ω} {t : τ}
    {U : Automaton ε υ ω} {u : υ} (h : SameBehaviour S s T t) (h' : SameBehaviour T t U u) :
  SameBehaviour S s U u
  := ⟨fun tr o => (h.halts tr o).trans (h'.halts tr o), fun tr => (h.emits tr).trans (h'.emits tr)⟩

/-! ### Runs of several steps -/

/-- From `s` the automaton gets to `t` in `n` steps with the events `tr`. -/
def Reaches (S : Automaton ε σ ω) (n : Nat) (s : σ) (tr : List ε) (t : σ) : Prop :=
  S.run n s = (tr, .inl t)

variable {S : Automaton ε σ ω}

theorem Reaches.refl (s : σ) :
  S.Reaches 0 s [] s
  := rfl

theorem Reaches.of_step {s t : σ} {tr : List ε} (h : S.step s = (tr, .inl t)) :
  S.Reaches 1 s tr t
  := by
  simp [Reaches, run, h]

theorem Halts.of_step {s : σ} {tr : List ε} {o : ω} (h : S.step s = (tr, .inr o)) :
  S.Halts s tr o
  := by
  use 1
  simp [run, h]

/-- From `s` the automaton gets in `least` steps or more where `r` says, to a state or an outcome, with
the events of `r`. -/
def Arrives (S : Automaton ε σ ω) (least : Nat) (s : σ) : List ε × (σ ⊕ ω) → Prop
  | (tr, .inl t) => ∃ n, least ≤ n ∧ S.Reaches n s tr t
  | (tr, .inr o) => S.Halts s tr o

theorem Arrives.of_step {s : σ} {r : List ε × (σ ⊕ ω)} (h : S.step s = r) :
  S.Arrives 1 s r
  := by
  rcases r with ⟨tr, t | o⟩
  · use 1, Nat.le_refl 1, Reaches.of_step h
  · apply Halts.of_step h

/-- Fewer steps may be asked for. -/
theorem Arrives.mono {least least' : Nat} {s : σ} {r : List ε × (σ ⊕ ω)}
    (h : S.Arrives least s r) (le : least' ≤ least) :
  S.Arrives least' s r
  := by
  rcases r with ⟨tr, t | o⟩
  · obtain ⟨n, hn, reached⟩ := h
    use n, Nat.le_trans le hn, reached
  · apply h

/-- A run goes on from the state that its first steps get to. -/
theorem run_of_reaches {n m : Nat} {s t : σ} {tr : List ε} (h : S.Reaches n s tr t) :
  S.run (n + m) s = (tr ++ (S.run m t).1, (S.run m t).2)
  := by
  induction n generalizing s tr with
  | zero =>
      obtain ⟨rfl, rfl⟩ : [] = tr ∧ s = t := by simpa [Reaches, run] using h
      simp
  | succ n ih =>
      rw [Reaches, run] at h
      rw [Nat.succ_add, run]
      rcases hs : S.step s with ⟨tr₁, u | o⟩
      · rw [hs] at h
        simp only [Prod.mk.injEq] at h
        obtain ⟨rfl, hu⟩ := h
        have first : S.Reaches n u (S.run n u).1 t := Prod.ext rfl hu
        simp [ih first]
      · simp [hs] at h

/-- Runs one after the other. -/
theorem Reaches.trans {n m : Nat} {s t u : σ} {tr tr' : List ε} (h : S.Reaches n s tr t)
    (h' : S.Reaches m t tr' u) :
  S.Reaches (n + m) s (tr ++ tr') u
  := by
  rw [Reaches, run_of_reaches h, h']

/-- A run to a state that comes to an end. -/
theorem Reaches.halts {n : Nat} {s t : σ} {tr tr' : List ε} {o : ω} (h : S.Reaches n s tr t)
    (h' : S.Halts t tr' o) :
  S.Halts s (tr ++ tr') o
  := by
  obtain ⟨m, hm⟩ := h'
  use n + m
  rw [run_of_reaches h, hm]

/-- A run that has stopped does not change. -/
theorem run_of_halted {n m : Nat} {s : σ} {tr : List ε} {o : ω} (h : S.run n s = (tr, .inr o))
    (hm : n ≤ m) :
  S.run m s = (tr, .inr o)
  := by
  induction n generalizing s tr m with
  | zero => simp [run] at h
  | succ n ih =>
      obtain ⟨m, rfl⟩ : ∃ k, m = k + 1 := ⟨m - 1, by omega⟩
      rw [run] at h ⊢
      rcases hs : S.step s with ⟨tr₁, t | o₁⟩
      · rw [hs] at h
        simp only [Prod.mk.injEq] at h ⊢
        obtain ⟨rfl, ht⟩ := h
        have first : S.run n t = ((S.run n t).1, .inr o) := Prod.ext rfl ht
        simp [ih first (Nat.le_of_succ_le_succ hm)]
      · simpa [hs] using h

/-- What every step keeps, and every outcome then has, is had by the outcome of a run. -/
theorem Halts.of_invariant {I : σ → Prop} {P : ω → Prop}
    (step : ∀ s, I s → match (S.step s).2 with
      | .inl t => I t
      | .inr o => P o)
    {s : σ} {tr : List ε} {o : ω} (start : I s) (halts : S.Halts s tr o) :
  P o
  := by
  obtain ⟨n, ran⟩ := halts
  induction n generalizing s tr with
  | zero => simp [run] at ran
  | succ n ih =>
      have stepped := step s start
      rw [run] at ran
      rcases h : S.step s with ⟨tr₁, t | o₁⟩
      · rw [h] at stepped
        simp only [h, Prod.mk.injEq] at ran
        apply ih stepped (Prod.ext rfl ran.2)
      · rw [h] at stepped
        obtain ⟨-, rfl⟩ : tr₁ = tr ∧ o₁ = o := by simpa [h] using ran
        apply stepped

/-- What every step keeps, and the events of every step then have, is had by the events of a run. -/
theorem Emits.of_invariant {I : σ → Prop} {P : ε → Prop}
    (step : ∀ s, I s → (∀ e ∈ (S.step s).1, P e) ∧ ∀ t, (S.step s).2 = .inl t → I t)
    {s : σ} {tr : List ε} (start : I s) (emits : S.Emits s tr) :
  ∀ e ∈ tr, P e
  := by
  obtain ⟨n, begins⟩ := emits
  suffices ∀ e ∈ (S.run n s).1, P e from fun e mem => this e (begins.subset mem)
  clear begins
  induction n generalizing s with
  | zero => simp [run]
  | succ n ih =>
      obtain ⟨made, kept⟩ := step s start
      rw [run]
      rcases h : S.step s with ⟨tr₁, t | o⟩
      · rw [h] at made kept
        intro e mem
        obtain mem | mem := List.mem_append.1 mem
        · apply made e mem
        · apply ih (kept t rfl) e mem
      · rwa [h] at made

/-- An automaton comes to one end, with one trace. -/
theorem Halts.unique {s : σ} {tr tr' : List ε} {o o' : ω} (h : S.Halts s tr o)
    (h' : S.Halts s tr' o') :
  tr = tr' ∧ o = o'
  := by
  obtain ⟨n, hn⟩ := h
  obtain ⟨m, hm⟩ := h'
  have hn' := run_of_halted hn (Nat.le_max_left n m)
  have hm' := run_of_halted hm (Nat.le_max_right n m)
  rw [hn'] at hm'
  simpa using hm'

/-- The events of a longer run begin with those of a shorter one. -/
theorem run_prefix {n m : Nat} (h : n ≤ m) (s : σ) :
  (S.run n s).1 <+: (S.run m s).1
  := by
  obtain ⟨k, rfl⟩ := Nat.exists_eq_add_of_le h
  rcases hn : S.run n s with ⟨tr, t | o⟩
  · rw [run_of_reaches hn]
    apply List.prefix_append
  · rw [run_of_halted hn h]

/-- A run makes the events of the step from the state that it gets to. -/
theorem Reaches.emits {n : Nat} {s t : σ} {tr : List ε} (reached : S.Reaches n s tr t) :
  S.Emits s (tr ++ (S.step t).1)
  := by
  use n + 1
  rw [run_of_reaches reached, run]
  rcases S.step t with ⟨tr', u | o⟩
  · simp [run]
  · apply List.prefix_refl

/-- An automaton whose steps are those of another, but that may stop in the middle of a step, makes no
other events. -/
theorem Emits.of_cut {ω' : Type} {T : Automaton ε τ ω'} {f : σ → τ}
    (step : ∀ s, match S.step s with
      | (tr, .inl t) => T.step (f s) = (tr, .inl (f t))
      | (tr, .inr _) => tr <+: (T.step (f s)).1)
    {s : σ} {tr : List ε} (emits : S.Emits s tr) :
  T.Emits (f s) tr
  := by
  obtain ⟨n, begins⟩ := emits
  use n
  apply begins.trans
  clear begins
  induction n generalizing s with
  | zero => apply List.nil_prefix
  | succ n ih =>
      have stepped := step s
      rw [run, run]
      rcases h : S.step s with ⟨tr₁, t | o⟩
      · rw [h] at stepped
        simp only [stepped]
        apply (List.prefix_append_right_inj tr₁).2 ih
      · rw [h] at stepped
        rcases h' : T.step (f s) with ⟨tr₂, t | o'⟩
        · rw [h'] at stepped
          apply stepped.trans (List.prefix_append _ _)
        · rwa [h'] at stepped

end Automaton

/-! ### Following -/

/-- The automaton `T` follows `S` along `R`: from related states each step of `S` is matched by one
or more steps of `T` with the same events, to related states or to the same outcome. -/
structure Follows {ε σ τ ω : Type} (S : Automaton ε σ ω) (T : Automaton ε τ ω) (R : σ → τ → Prop) :
    Prop where
  goes : ∀ s t, R s t → ∀ tr s', S.step s = (tr, .inl s') →
    ∃ n t', 0 < n ∧ T.Reaches n t tr t' ∧ R s' t'
  stops : ∀ s t, R s t → ∀ tr o, S.step s = (tr, .inr o) → T.Halts t tr o

namespace Follows

open Automaton

variable {ε σ τ ω : Type} {S : Automaton ε σ ω} {T : Automaton ε τ ω} {R : σ → τ → Prop}

/-- Runs of `S` are matched by runs of `T` that are at least as long. -/
theorem reaches (h : Follows S T R) {n : Nat} {s s' : σ} {t : τ} {tr : List ε} (hR : R s t)
    (hs : S.Reaches n s tr s') :
  ∃ m t', n ≤ m ∧ T.Reaches m t tr t' ∧ R s' t'
  := by
  induction n generalizing s t tr with
  | zero =>
      obtain ⟨rfl, rfl⟩ : [] = tr ∧ s = s' := by simpa [Reaches, run] using hs
      use 0, t, Nat.le_refl 0, .refl t
  | succ n ih =>
      rw [Reaches, run] at hs
      rcases h₁ : S.step s with ⟨tr₁, s₁ | o⟩
      · rw [h₁] at hs
        simp only [Prod.mk.injEq] at hs
        obtain ⟨rfl, hs₁⟩ := hs
        obtain ⟨m₁, t₁, hm₁, ht₁, hR₁⟩ := h.goes s t hR tr₁ s₁ h₁
        have first : S.Reaches n s₁ (S.run n s₁).1 s' := Prod.ext rfl hs₁
        obtain ⟨m₂, t₂, hm₂, ht₂, hR₂⟩ := ih hR₁ first
        use m₁ + m₂, t₂, by omega, ht₁.trans ht₂
      · simp [h₁] at hs

/-- What the first automaton comes to, the second one comes to. -/
theorem halts (h : Follows S T R) {s : σ} {t : τ} {tr : List ε} {o : ω} (hR : R s t)
    (hs : S.Halts s tr o) :
  T.Halts t tr o
  := by
  obtain ⟨n, hn⟩ := hs
  induction n generalizing s t tr with
  | zero => simp [run] at hn
  | succ n ih =>
      rw [run] at hn
      rcases h₁ : S.step s with ⟨tr₁, s₁ | o₁⟩
      · rw [h₁] at hn
        simp only [Prod.mk.injEq] at hn
        obtain ⟨rfl, hs₁⟩ := hn
        obtain ⟨m₁, t₁, -, ht₁, hR₁⟩ := h.goes s t hR tr₁ s₁ h₁
        apply ht₁.halts
        apply ih hR₁ (Prod.ext rfl hs₁)
      · obtain ⟨rfl, rfl⟩ : tr₁ = tr ∧ o₁ = o := by simpa [h₁] using hn
        apply h.stops s t hR tr₁ o₁ h₁

/-- An automaton that follows another has the same behaviour. In the direction against the steps, the
run of `S` of the same length either stops, and then `T` stops alike, or is matched by a run of
`T` that is at least as long. -/
theorem sameBehaviour (h : Follows S T R) {s : σ} {t : τ} (hR : R s t) :
  SameBehaviour S s T t
  := by
  constructor
  · intro tr o
    constructor
    · apply h.halts hR
    · rintro ⟨n, hn⟩
      rcases hs : S.run n s with ⟨tr', s' | o'⟩
      · obtain ⟨m, t', hm, ht, -⟩ := h.reaches hR hs
        rw [Reaches, run_of_halted hn hm] at ht
        simp at ht
      · have hT := h.halts hR ⟨n, hs⟩
        obtain ⟨rfl, rfl⟩ := hT.unique ⟨n, hn⟩
        use n, hs
  · intro tr
    constructor
    · rintro ⟨n, hn⟩
      rcases hs : S.run n s with ⟨tr', s' | o'⟩
      · obtain ⟨m, t', -, ht, -⟩ := h.reaches hR hs
        use m
        rw [ht]
        simpa [hs] using hn
      · obtain ⟨m, hm⟩ := h.halts hR ⟨n, hs⟩
        use m
        rw [hm]
        simpa [hs] using hn
    · rintro ⟨n, hn⟩
      use n
      rcases hs : S.run n s with ⟨tr', s' | o'⟩
      · obtain ⟨m, t', hm, ht, -⟩ := h.reaches hR hs
        have longer := run_prefix (S := T) hm t
        rw [ht] at longer
        apply hn.trans longer
      · obtain ⟨m, hm⟩ := h.halts hR ⟨n, hs⟩
        have longer := run_prefix (S := T) (Nat.le_max_left n m) t
        rw [run_of_halted hm (Nat.le_max_right n m)] at longer
        apply hn.trans longer

end Follows

end StackBackend
