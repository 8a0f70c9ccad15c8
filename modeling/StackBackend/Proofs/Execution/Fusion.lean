import StackBackend.Proofs.Assembly.Fusion
import StackBackend.Proofs.Execution.Machine
import StackBackend.Proofs.Execution.Pace
import StackBackend.Proofs.Execution.World

/-!
# Fusing increments keeps the behaviour

The machine on the lines before fusing keeps pace with the machine on the fused lines: it takes six steps
for one at a fused increment and one step elsewhere. After each step of the fused lines the two have the
same stack and heap, and agree on all slots but the temporaries, which no other line reads.
-/

namespace StackBackend

variable {D : Domain}

/-- Two activations have the same stack and agree on the slots in `K`. -/
structure Activation.Agree {V : Type} (K : Nat → Prop) (a b : Activation V) : Prop where
  stack : a.stack = b.stack
  slots : ∀ slot, K slot → a.slots slot = b.slots slot

/-- Control goes to the same place with data that agree. -/
def Next.Agree {V : Type} (K : Nat → Prop) : Next (Activation V) V → Next (Activation V) V → Prop
  | .on a, .on b => a.Agree K b
  | .jump l a, .jump l' b => l = l' ∧ a.Agree K b
  | .ret v, .ret v' => v = v'
  | _, _ => False

/-- What is done with the top of the stack, with its result changed. -/
theorem Inst.map_popOne {α β : Type} (f : α → β) (stack : List D.Value)
    (k : D.Value → List D.Value → Eff D α) :
  f <$> popOne stack k = popOne stack fun v rest => f <$> k v rest
  := by
  cases stack with
  | nil => rfl
  | cons v rest => rfl

theorem Inst.map_popTwo {α β : Type} (f : α → β) (stack : List D.Value)
    (k : D.Value → D.Value → List D.Value → Eff D α) :
  f <$> popTwo stack k = popTwo stack fun v w rest => f <$> k v w rest
  := by
  match stack with
  | [] => rfl
  | [_] => rfl
  | _ :: _ :: _ => rfl

/-- An instruction that touches no slot does not depend on the slots. -/
theorem Inst.exec_slots {i : Inst} (h : i.slot? = none) (stack : List D.Value)
    (slots slots' : Nat → D.Value) :
  i.exec ⟨stack, slots⟩ = (Next.map fun a => ⟨a.stack, slots⟩) <$> i.exec ⟨stack, slots'⟩
  := by
  cases i with
  | load | store | inc => simp [slot?] at h
  | minusOne | const | bytePush | shortPush | goto => simp [exec, Next.map]
  | loadConst => simp [exec, Next.map]
  | add | sub | mul | div | xor => simp [exec, execArith, map_popTwo, Next.map]
  | neg | pop => simp [exec, map_popOne, Next.map]
  | jumpIf => simp [exec, map_popOne, Next.map_branch]
  | jumpIfCompare => simp [exec, map_popTwo, Next.map_branch]
  | ret kind =>
      cases kind with
      | none => simp [exec, Next.map]
      | some kind => simp [exec, map_popOne, Next.map]
  | invoke | new | newArray | newRefArray | arrayLoad | arrayStore | arrayLength | getField
  | putField =>
      simp only [exec, action?, execAction]
      split
      · simp [Next.map]
      · rfl

section Agree

variable {K : Nat → Prop} {a b : Activation D.Value}

/-- Activations that agree still do after a slot is written in both. -/
theorem Activation.Agree.update (h : a.Agree K b) (slot : Nat) (v : D.Value)
    (stack : List D.Value) :
  Activation.Agree K ⟨stack, Function.update a.slots slot v⟩ ⟨stack, Function.update b.slots slot v⟩
  := by
  use rfl
  intro other kept
  by_cases same : other = slot
  · subst same
    simp
  · simp [Function.update_of_ne same, h.slots other kept]

/-- An instruction that reads only slots on which two activations agree does the same on both. -/
theorem Inst.exec_agree {i : Inst} (h : a.Agree K b)
    (reads : ∀ slot, (Line.inst i).reads slot = true → K slot) :
  Eff.Rel (Next.Agree K) (i.exec a) (i.exec b)
  := by
  obtain ⟨stack, slots⟩ := a
  obtain ⟨_, slots'⟩ := b
  obtain rfl : stack = _ := h.stack
  have moved (hn : i.slot? = none) :
      Eff.Rel (Next.Agree K) (i.exec ⟨stack, slots⟩) (i.exec ⟨stack, slots'⟩) := by
    have left := exec_slots hn stack slots slots'
    have right := exec_slots hn stack slots' slots'
    have related : Eff.Rel (Next.Agree K)
        ((Next.map fun a => ⟨a.stack, slots⟩) <$> i.exec ⟨stack, slots'⟩)
        ((Next.map fun a => ⟨a.stack, slots'⟩) <$> i.exec ⟨stack, slots'⟩) := by
      apply (Eff.Rel.refl _).map
      rintro next _ rfl
      cases next with
      | on a => use rfl, h.slots
      | jump label a => use rfl, rfl, h.slots
      | ret v => rfl
    rwa [← left, ← right] at related
  cases i with
  | load kind slot =>
      have same : slots slot = slots' slot := h.slots slot (reads slot (by simp [Line.reads]))
      simp only [exec, same]
      apply (Eff.Rel.refl _).bind
      intro _ _ _
      apply Eff.Rel.pure
      use rfl, h.slots
  | store kind slot =>
      cases stack with
      | nil => apply Eff.Rel.fail
      | cons v rest => exact (Eff.Rel.refl _).bind fun _ _ _ => .pure (h.update slot v rest)
  | inc slot amount =>
      have same : slots slot = slots' slot := h.slots slot (reads slot (by simp [Line.reads]))
      simp only [exec, same]
      apply (Eff.Rel.refl _).bind
      rintro v _ rfl
      exact .pure (h.update slot v stack)
  | _ => apply moved rfl

end Agree

/-! ### The lines of an increment -/

section Lines

variable {α : Type} {all : List Line} {p : Nat} {a : Activation D.Value} {line : Line}

/-- A line that computes a value and goes on. -/
theorem takes_on (h : all[p]? = some line) {x : Eff D α} {data : α → Activation D.Value}
    (hx : line.exec a = x >>= fun v => pure (.on (data v))) :
  (machine D all).Takes 1 p a (x >>= fun v => pure (.inl (p + 1, data v)))
  := by
  rw [← perform_on h hx]
  apply Control.Takes.perform

/-- A line that goes on without computing anything. -/
theorem takes_move (h : all[p]? = some line) {b : Activation D.Value} (hx : line.exec a = pure (.on b)) :
  (machine D all).Takes 1 p a (pure (.inl (p + 1, b)))
  := by
  have takes : (machine D all).Takes 1 p a ((pure () : Eff D Unit) >>= fun _ => pure (.inl (p + 1, b))) :=
    takes_on h (by rw [hx, pure_bind])
  rwa [pure_bind] at takes

/-- The six lines of an increment add one to the slot `n` and leave the sum in the slot `t` as well. -/
theorem takes_increment (lawful : D.Lawful) {rest : List Line} {n t : Nat}
    (h : all.drop p = incrementWindow n t ++ rest) (a : Activation D.Value) :
  (machine D all).Takes 6 p a (do
    let v ← Eff.ofExcept (D.arith .add (a.slots n) (D.int 1))
    pure (.inl (p + 6, ⟨a.stack, Function.update (Function.update a.slots t v) n v⟩)))
  := by
  have held : Holds all p (incrementWindow n t) := ⟨rest, h.symm⟩
  have load := takes_on (a := a) held.head rfl
  have one : (machine D all).Takes 1 (p + 1) ⟨a.slots n :: a.stack, a.slots⟩ _ :=
    takes_move held.tail.head rfl
  have sum : (machine D all).Takes 1 (p + 1 + 1) ⟨D.int 1 :: a.slots n :: a.stack, a.slots⟩ _ :=
    takes_on held.tail.tail.head rfl
  have store := fun v : D.Value =>
    takes_on (a := ⟨v :: a.stack, a.slots⟩) held.tail.tail.tail.head rfl
  have load' := fun v : D.Value => takes_on (a := ⟨a.stack, Function.update a.slots t v⟩)
    held.tail.tail.tail.tail.head rfl
  have store' := fun v : D.Value => takes_on
    (a := ⟨Function.update a.slots t v t :: a.stack, Function.update a.slots t v⟩)
    held.tail.tail.tail.tail.tail.head rfl
  have whole := load.bind fun _ => (sum.after one).bind fun v => (store v).bind fun _ =>
    (load' v).bind fun _ => store' v
  rw [← bind_assoc, ← Eff.ofExcept_bind, lawful.check_add] at whole
  cases hs : D.arith .add (a.slots n) (D.int 1) with
  | error e =>
      rw [hs] at whole
      apply whole
  | ok v =>
      have asInt : D.check .int v = .ok () := lawful.check_sum _ _ _ hs
      simp only [hs, Eff.ofExcept_ok, pure_bind, Function.update_self, asInt] at whole ⊢
      apply whole

end Lines

/-! ### Machines side by side -/

/-- The machine on the fused lines and the machine on the lines before: at places that belong together,
with the same stack and heap, and slots that differ at most in temporaries. -/
structure FusedState (all : List Line) (x y : State D (Activation D.Value)) : Prop where
  heap : x.heap = y.heap
  data : x.data.Agree (fun slot => ¬ IsTemporary all slot) y.data
  place : FusedPlace all x.index y.index

/-- Places that belong together meet after lines that do the same. -/
theorem FusedPlace.meets {all : List Line} {p' p : Nat} (h : FusedPlace all (p' + 1) (p + 1))
    {next next' : Next (Activation D.Value) D.Value}
    (agree : next.Agree (fun slot => ¬ IsTemporary all slot) next') :
  Control.Meets (FusedState all) ((machine D (fuseIncrements all).1).follow (p' + 1) next)
    ((machine D all).follow (p + 1) next')
  := by
  cases next with
  | on a =>
      cases next' with
      | on b =>
          intro heap
          use rfl, agree
      | jump label b => apply agree.elim
      | ret v => apply agree.elim
  | jump label a =>
      cases next' with
      | on b => apply agree.elim
      | ret v => apply agree.elim
      | jump label' b =>
          obtain ⟨rfl, agree⟩ := agree
          have target := FusedPlace.target all label
          simp only [Control.follow, machine]
          cases hp : Line.target? all label with
          | none =>
              rw [hp] at target
              cases ht : Line.target? (fuseIncrements all).1 label with
              | none => rfl
              | some q =>
                  rw [ht] at target
                  cases target
          | some q =>
              rw [hp] at target
              cases ht : Line.target? (fuseIncrements all).1 label with
              | none =>
                  rw [ht] at target
                  cases target
              | some q' =>
                  rw [ht] at target
                  cases target with
                  | some place =>
                      intro heap
                      use rfl, agree
  | ret v =>
      cases next' with
      | on b => apply agree.elim
      | jump label b => apply agree.elim
      | ret v' => apply congrArg Ending.returned agree

/-- How many steps the machine on the lines before fusing takes for one on the fused lines. -/
def fusedPace (all : List Line) (y : State D (Activation D.Value)) : Nat :=
  if (fusibleAt? all (all.drop y.index)).isSome then 6 else 1

/-- The machine on the lines before fusing keeps pace with the machine on the fused lines. -/
theorem fuseIncrements_paced (lawful : D.Lawful) (all : List Line) :
  Paced (machine D (fuseIncrements all).1).automaton (machine D all).automaton (FusedState all)
    (fusedPace all)
  := by
  apply Control.paced_of_takes
  · intro y
    unfold fusedPace
    split <;> decide
  rintro ⟨p', a, heap⟩ ⟨p, b, _⟩ ⟨rfl, agree, place⟩
  use rfl
  have agree : a.Agree (fun slot => ¬ IsTemporary all slot) b := agree
  have place : FusedPlace all p' p := place
  rcases found : fusibleAt? all (all.drop p) with _ | n
  · have pace : fusedPace all (State.mk (D := D) p b heap) = 1 := by simp [fusedPace, found]
    rw [pace]
    refine ⟨_, Control.Takes.perform, ?_⟩
    rcases hl : all[p]? with _ | line
    · have done : (fuseIncrements all).1.drop p' = [] := by
        rw [place.rest, List.drop_eq_nil_iff.2 (List.getElem?_eq_none_iff.1 hl), fuseIn_nil]
      have hl' : (fuseIncrements all).1[p']? = none :=
        List.getElem?_eq_none_iff.2 (List.drop_eq_nil_iff.1 done)
      simp only [Control.perform, machine, hl, hl']
      exact .pure rfl
    · obtain ⟨hl', next⟩ := place.kept hl found
      rw [perform_line hl, perform_line hl']
      have same : Eff.Rel (Next.Agree fun slot => ¬ IsTemporary all slot) (line.exec a)
          (line.exec b) := by
        cases line with
        | label name => exact .pure agree
        | inst i =>
            apply Inst.exec_agree agree
            intro slot reads
            apply not_isTemporary_of_reads place.outside hl reads
      apply same.map
      intro x y related
      apply next.meets related
  · have pace : fusedPace all (State.mk (D := D) p b heap) = 6 := by simp [fusedPace, found]
    rw [pace]
    obtain ⟨hl', next⟩ := place.fused found
    obtain ⟨t, rest, window, once⟩ := fusibleAt?_eq_some found
    have load : all[p]? = some (.inst (.load .int n)) := by
      rw [← Nat.add_zero p, ← List.getElem?_drop, window]
      rfl
    have kept : ¬ IsTemporary all n :=
      not_isTemporary_of_reads place.outside load (by simp [Line.reads])
    refine ⟨_, takes_increment lawful window b, ?_⟩
    have inc := perform_on (D := D) (a := a) hl' rfl
    rw [inc, agree.slots n kept]
    apply (Eff.Rel.refl _).bind
    rintro v _ rfl
    apply Eff.Rel.pure
    intro heap
    refine ⟨rfl, ⟨agree.stack, ?_⟩, next⟩
    intro slot notTemporary
    by_cases isN : slot = n
    · simp [isN]
    · have notT : slot ≠ t := by
        rintro rfl
        rcases once with same | once
        · apply isN same
        · apply notTemporary
          use p, n, rest, window, found, once
      simp [isN, notT, agree.slots slot notTemporary]

/-- Both machines start before the first line. -/
theorem FusedState.start (all : List Line) (a : Activation D.Value) (heap : D.Heap) :
  FusedState all ⟨0, a, heap⟩ ⟨0, a, heap⟩
  := ⟨rfl, ⟨rfl, fun _ _ => rfl⟩, .zero all⟩

/-- Fusing increments keeps the behaviour of lines. -/
theorem fuseIncrements_sameBehaviour (lawful : D.Lawful) (all : List Line)
    (a : Activation D.Value) (heap : D.Heap) :
  Automaton.SameBehaviour (machine D (fuseIncrements all).1).automaton ⟨0, a, heap⟩
    (machine D all).automaton ⟨0, a, heap⟩
  := (fuseIncrements_paced lawful all).follows.sameBehaviour (.start all a heap)

/-- In every world, from every stack, content of the slots and heap, the fused lines behave as the lines
before fusing do. At all times of the one run there is a time of the other at which both have made the same
requests, and have the same stack and heap and agree on all slots but the temporaries of fused increments,
or have ended alike. From one such time to the next the lines before fusing take one step, or the six steps
of an increment that is fused. -/
theorem fuseIncrements_agrees (W : World) (all : List Line) (a : Activation (Datum W.Ref)) (heap : W.Heap) :
  Automaton.SameBehaviour (machine W.domain (fuseIncrements all).1).automaton ⟨0, a, heap⟩
      (machine W.domain all).automaton ⟨0, a, heap⟩
    ∧ ∃ clock : Nat → Nat, clock 0 = 0 ∧ ∀ n,
      Matched (FusedState all) ((machine W.domain (fuseIncrements all).1).automaton.run n ⟨0, a, heap⟩)
          ((machine W.domain all).automaton.run (clock n) ⟨0, a, heap⟩)
        ∧ (clock (n + 1) = clock n + 1 ∨ clock (n + 1) = clock n + 6
          ∧ ∃ y, ((machine W.domain all).automaton.run (clock n) ⟨0, a, heap⟩).2 = .inl y
            ∧ (fusibleAt? all (all.drop y.index)).isSome = true)
  := by
  have paced := fuseIncrements_paced W.domain_lawful all
  refine ⟨fuseIncrements_sameBehaviour W.domain_lawful all a heap,
    (machine W.domain all).automaton.clock (fusedPace all) ⟨0, a, heap⟩, rfl, ?_⟩
  intro n
  use paced.matched (.start all a heap) n
  obtain one | ⟨y, now, next⟩ := Automaton.clock_succ (machine W.domain all).automaton (fusedPace all)
    ⟨0, a, heap⟩ n
  · left
    apply one
  · by_cases fusible : (fusibleAt? all (all.drop y.index)).isSome = true
    · rw [fusedPace, if_pos fusible] at next
      right
      use next, y, now, fusible
    · rw [fusedPace, if_neg fusible] at next
      left
      apply next

end StackBackend
