import StackBackend.Proofs.Execution.Control

/-!
# Keeping pace

An automaton that follows another takes some steps for each step of the other. Where their number is
known from its state it keeps pace: there is a clock that says how far it has got when the other has
taken so many steps, and then the two have made the same events and stand in related states, or have
stopped alike.
-/

namespace StackBackend

variable {ε σ τ ω : Type}

/-- Two runs match: they have made the same events, and are in related states or have the same outcome. -/
structure Matched (R : σ → τ → Prop) (r : List ε × (σ ⊕ ω)) (r' : List ε × (τ ⊕ ω)) : Prop where
  events : r.1 = r'.1
  place : Sum.LiftRel R Eq r.2 r'.2

/-- The automaton `T` keeps pace with `S` along `R`: from related states as many steps of `T` as `pace`
says match one step of `S`. -/
structure Paced (S : Automaton ε σ ω) (T : Automaton ε τ ω) (R : σ → τ → Prop) (pace : τ → Nat) :
    Prop where
  pos : ∀ t, 0 < pace t
  step : ∀ s t, R s t → Matched R (S.step s) (T.run (pace t) t)

namespace Automaton

variable {S : Automaton ε σ ω}

theorem run_one (S : Automaton ε σ ω) (s : σ) :
  S.run 1 s = S.step s
  := by
  rcases h : S.step s with ⟨tr, t | o⟩ <;> simp [run, h]

/-- A run of one more step. -/
theorem run_succ_of_reaches {n : Nat} {s t : σ} {tr : List ε} (h : S.Reaches n s tr t) :
  S.run (n + 1) s = (tr ++ (S.step t).1, (S.step t).2)
  := by
  rw [run_of_reaches h, run_one]

/-- The steps that the automaton has taken from `s` after `n` times the pace of its state; when it has
stopped, time goes on. -/
def clock (S : Automaton ε σ ω) (pace : σ → Nat) (s : σ) : Nat → Nat
  | 0 => 0
  | n + 1 => S.clock pace s n + match (S.run (S.clock pace s n) s).2 with
    | .inl t => pace t
    | .inr _ => 1

/-- The clock goes on by the pace of the state that is reached. -/
theorem clock_succ_of_reaches {pace : σ → Nat} {n : Nat} {s t : σ} {tr : List ε}
    (h : S.Reaches (S.clock pace s n) s tr t) :
  S.clock pace s (n + 1) = S.clock pace s n + pace t
  := by
  rw [clock, h]

/-- From one time to the next the clock goes on by the pace of the state, or by one. -/
theorem clock_succ (S : Automaton ε σ ω) (pace : σ → Nat) (s : σ) (n : Nat) :
  S.clock pace s (n + 1) = S.clock pace s n + 1
    ∨ ∃ t, (S.run (S.clock pace s n) s).2 = .inl t ∧ S.clock pace s (n + 1) = S.clock pace s n + pace t
  := by
  rcases now : S.run (S.clock pace s n) s with ⟨tr, t | o⟩
  · right
    use t, rfl, clock_succ_of_reaches now
  · left
    rw [clock, now]

/-- The clock does not go back. -/
theorem clock_le_succ (S : Automaton ε σ ω) (pace : σ → Nat) (s : σ) (n : Nat) :
  S.clock pace s n ≤ S.clock pace s (n + 1)
  := by
  rw [clock]
  apply Nat.le_add_right

end Automaton

namespace Paced

open Automaton

variable {S : Automaton ε σ ω} {T : Automaton ε τ ω} {R : σ → τ → Prop} {pace : τ → Nat}

/-- At every step of `S` the run of `T` matches at the clock. -/
theorem matched (h : Paced S T R pace) {s : σ} {t : τ} (hR : R s t) (n : Nat) :
  Matched R (S.run n s) (T.run (T.clock pace t n) t)
  := by
  induction n with
  | zero =>
      use rfl
      left
      apply hR
  | succ n ih =>
      obtain ⟨events, place⟩ := ih
      rcases hs : S.run n s with ⟨tr, s' | o⟩
      · rcases ht : T.run (T.clock pace t n) t with ⟨tr', t' | o'⟩
        · rw [hs, ht] at events place
          obtain rfl : tr = tr' := events
          have next := h.step s' t' (Sum.liftRel_inl_inl.1 place)
          rw [run_succ_of_reaches hs, clock_succ_of_reaches ht, run_of_reaches ht]
          use congrArg (tr ++ ·) next.events, next.place
        · rw [hs, ht] at place
          cases place
      · rcases ht : T.run (T.clock pace t n) t with ⟨tr', t' | o'⟩
        · rw [hs, ht] at place
          cases place
        · rw [run_of_halted hs (Nat.le_add_right n 1), run_of_halted ht (T.clock_le_succ pace t n)]
          rw [hs, ht] at events place
          use events, place

/-- What keeps pace follows. -/
theorem follows (h : Paced S T R pace) :
  Follows S T R
  := by
  constructor
  · intro s t hR tr s' hs
    obtain ⟨events, place⟩ := h.step s t hR
    rcases ht : T.run (pace t) t with ⟨tr', t' | o⟩
    · rw [hs, ht] at events place
      obtain rfl : tr = tr' := events
      use pace t, t', h.pos t, ht, Sum.liftRel_inl_inl.1 place
    · rw [hs, ht] at place
      cases place
  · intro s t hR tr o hs
    obtain ⟨events, place⟩ := h.step s t hR
    rcases ht : T.run (pace t) t with ⟨tr', t' | o'⟩
    · rw [hs, ht] at place
      cases place
    · rw [hs, ht] at events place
      obtain rfl : tr = tr' := events
      obtain rfl : o = o' := Sum.liftRel_inr_inr.1 place
      use pace t, ht

end Paced

/-! ### Parts of code as computations of so many steps -/

namespace Control

variable {D : Domain} {C : Control D σ} {n n' p q : Nat} {d : σ}

/-- From the index `p` with the data `d` exactly `n` steps do what the computation `c` does, and get to
where `c` says; when `c` ends there may be fewer. -/
def Takes (C : Control D σ) (n p : Nat) (d : σ) (c : Eff D (Stop D σ)) : Prop :=
  ∀ h, C.automaton.run n ⟨p, d, h⟩ = settle (c h)

theorem Takes.perform :
  C.Takes 1 p d (C.perform p d)
  := by
  intro h
  apply Automaton.run_one

/-- A part that computes `x` is joined with the parts from the places it gets to. -/
theorem Takes.bind {α : Type} {x : Eff D α} {place : α → Nat × σ} {k : α → Eff D (Stop D σ)}
    (first : C.Takes n p d (x >>= fun a => pure (.inl (place a))))
    (second : ∀ a, C.Takes n' (place a).1 (place a).2 (k a)) :
  C.Takes (n + n') p d (x >>= k)
  := by
  intro h
  have first := first h
  rw [Eff.bind_apply] at first ⊢
  rcases hx : x h with ⟨tr, e | ⟨a, h'⟩⟩
  · rw [hx] at first
    apply Automaton.run_of_halted first (Nat.le_add_right n n')
  · rw [hx] at first
    have reached : C.automaton.Reaches n ⟨p, d, h⟩ (tr ++ []) ⟨(place a).1, (place a).2, h'⟩ := first
    rw [Automaton.run_of_reaches reached, second a h', List.append_nil]
    rcases hk : k a h' with ⟨tr', e | ⟨⟨r, d'⟩ | o, h''⟩⟩ <;> simp only [hk, settle]

/-- A part that only gets to a place is joined with the part from there on. -/
theorem Takes.after {d' : σ} {c : Eff D (Stop D σ)} (second : C.Takes n' q d' c)
    (first : C.Takes n p d (pure (.inl (q, d')))) :
  C.Takes (n + n') p d c
  := by
  have start : C.Takes n p d ((pure () : Eff D Unit) >>= fun _ => pure (.inl (q, d'))) := by
    rwa [pure_bind]
  have both := start.bind fun _ => second
  rwa [pure_bind] at both

/-- Code that does in related states what the instructions of other code do, at a pace, keeps pace. -/
theorem paced_of_takes {C : Control D σ} {C' : Control D τ} {R : State D σ → State D τ → Prop}
    {pace : State D τ → Nat} (pos : ∀ y, 0 < pace y)
    (step : ∀ x y, R x y → x.heap = y.heap ∧ ∃ c, C'.Takes (pace y) y.index y.data c
      ∧ Eff.Rel (Meets R) (C.perform x.index x.data) c) :
  Paced C.automaton C'.automaton R pace
  := by
  use pos
  intro x y hR
  obtain ⟨heap, c, takes, related⟩ := step x y hR
  have takes : C'.automaton.run (pace y) y = settle (c y.heap) := takes y.heap
  change Matched R (settle (C.perform x.index x.data x.heap)) _
  rw [takes, heap]
  rcases related y.heap with ⟨tr, e, h, h'⟩ | ⟨tr, a, b, h', ha, hb, meets⟩
  · rw [h, h']
    use rfl
    right
    rfl
  · rw [ha, hb]
    rcases a with ⟨i, d⟩ | o
    · rcases b with ⟨j, e⟩ | o'
      · use rfl
        left
        apply meets h'
      · apply meets.elim
    · rcases b with ⟨j, e⟩ | o'
      · apply meets.elim
      · use rfl
        right
        apply meets

end Control

end StackBackend
