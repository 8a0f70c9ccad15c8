import Mathlib.Data.List.Nodup
import StackBackend.Proofs.Lowering.Instr
import StackBackend.Proofs.Lowering.Labels

/-!
# The code of a body

The lines of a body are laid out instruction by instruction, the labels of an instruction before its
code. The machine that gets to the labels of an instruction does what the program does from that
instruction on.
-/

namespace StackBackend

variable {u : ClassUnit} {m : Method} {all ls : List Line} {p q : Nat} {s t : LabelSupply} {r : Unit}

/-! ### Labels of a method -/

namespace Method

theorem mem_labelsAt {label : String} {index : Nat} :
  label ∈ m.labelsAt index ↔ (label, index) ∈ m.labels
  := by
  simp [labelsAt]

/-- A label stands at the index that jumps to it go to. -/
theorem mem_labelsAt_of_labelIndex? {label : String} {index : Nat}
    (h : m.labelIndex? label = some index) :
  label ∈ m.labelsAt index
  := by
  obtain ⟨⟨name, i⟩, found, rfl⟩ := Option.map_eq_some_iff.1 h
  obtain rfl : name = label := by simpa using List.find?_some found
  apply mem_labelsAt.2 (List.mem_of_find?_eq_some found)

theorem labelsAt_nodup (nodup : (m.labels.map Prod.fst).Nodup) (index : Nat) :
  (m.labelsAt index).Nodup
  := nodup.sublist (List.filter_sublist.map Prod.fst)

/-- Among labels that differ each stands at one index. -/
theorem labelsAt_unique (nodup : (m.labels.map Prod.fst).Nodup) {label : String} {i j : Nat}
    (hi : label ∈ m.labelsAt i) (hj : label ∈ m.labelsAt j) :
  i = j
  := by
  have same := List.inj_on_of_nodup_map nodup (mem_labelsAt.1 hi) (mem_labelsAt.1 hj) rfl
  apply congrArg Prod.snd same

end Method

theorem Emit.labels_writes {names : List String} (w : (Emit.labels names).Writes s ls r t) :
  ls = names.map Line.label ∧ t = s
  := by
  induction names generalizing ls with
  | nil =>
      obtain ⟨rfl, -, rfl⟩ := w.of_pure
      use rfl
  | cons name names ih =>
      obtain ⟨l₁, _, t₁, l₂, w₁, w₂, rfl⟩ := w.of_bind
      obtain ⟨rfl, rfl⟩ := w₁.of_label
      obtain ⟨rfl, rfl⟩ := ih w₂
      use rfl

/-- The labels of the code of a body are the labels of the method from `index` on and fresh ones, and
they all differ. -/
theorem labelNames_lowerFrom {body : List Instr} {index : Nat}
    (w : (u.lowerFrom m index body).Writes s ls r t) (nodup : (m.labels.map Prod.fst).Nodup)
    (reserved : ∀ l ∈ m.labels.map Prod.fst, l ∈ s.reserved) :
  (Line.labelNames ls).Nodup
    ∧ ∀ l ∈ Line.labelNames ls, l ∉ s.reserved ∨ ∃ j, index ≤ j ∧ l ∈ m.labelsAt j
  := by
  have own {l : String} {j : Nat} (h : l ∈ m.labelsAt j) : l ∈ s.reserved :=
    reserved l (List.mem_map_of_mem (f := Prod.fst) (Method.mem_labelsAt.1 h))
  induction body generalizing index s ls with
  | nil =>
      obtain ⟨rfl, rfl⟩ := Emit.labels_writes w
      rw [Line.labelNames_map]
      use Method.labelsAt_nodup nodup index
      intro l hl
      right
      use index, Nat.le_refl index, hl
  | cons i body ih =>
      obtain ⟨l₁, _, t₁, l₂, w₁, w₂, rfl⟩ := w.of_bind
      obtain ⟨rfl, rfl⟩ := Emit.labels_writes w₁
      obtain ⟨l₃, _, t₃, l₄, w₃, w₄, rfl⟩ := w₂.of_bind
      have fresh := Site.lower_fresh w₃
      obtain ⟨nodup₄, from₄⟩ := ih w₄ (fun l hl => fresh.grows l (reserved l hl))
        (fun h => fresh.grows _ (own h))
      simp only [Line.labelNames_append, Line.labelNames_map]
      constructor
      · rw [List.nodup_append, List.nodup_append]
        refine ⟨Method.labelsAt_nodup nodup index, ⟨fresh.nodup, nodup₄, ?_⟩, ?_⟩
        · rintro l first _ second rfl
          rcases from₄ l second with unused | ⟨j, -, hj⟩
          · apply unused (fresh.used l first)
          · apply fresh.new l first (own hj)
        · rintro l mine _ later rfl
          rcases List.mem_append.1 later with first | second
          · apply fresh.new l first (own mine)
          · rcases from₄ l second with unused | ⟨j, after, hj⟩
            · apply unused (fresh.grows l (own mine))
            · have same := Method.labelsAt_unique nodup mine hj
              omega
      · intro l hl
        rcases List.mem_append.1 hl with mine | later
        · right
          use index, Nat.le_refl index, mine
        · rcases List.mem_append.1 later with first | second
          · left
            apply fresh.new l first
          · rcases from₄ l second with unused | ⟨j, after, hj⟩
            · left
              intro used
              apply unused (fresh.grows l used)
            · right
              use j
              constructor
              · omega
              · apply hj

/-! ### The layout of the code -/

/-- The code of a body from the instruction at `index` on stands in the lines `all`: the labels of the
instruction `j` at `start j`, its code after them, and the labels of the next one after that. The
last labels end at `stop`. -/
structure Layout (u : ClassUnit) (m : Method) (all : List Line) (index stop : Nat)
    (start : Nat → Nat) : Prop where
  labels : ∀ j, index ≤ j → j ≤ m.body.length →
    Holds all (start j) ((m.labelsAt j).map Line.label)
  code : ∀ j i, index ≤ j → m.body[j]? = some i → ∃ s ls t,
    (Site.lower ⟨u, m, i⟩).Writes s ls () t
      ∧ Holds all (start j + (m.labelsAt j).length) ls
      ∧ start (j + 1) = start j + (m.labelsAt j).length + ls.length
  stop : start m.body.length + (m.labelsAt m.body.length).length = stop

theorem Layout.of_writes {body : List Instr} {index : Nat} (hb : m.body.drop index = body)
    (hi : index ≤ m.body.length) (w : (u.lowerFrom m index body).Writes s ls r t)
    (h : Holds all p ls) :
  ∃ start : Nat → Nat, start index = p ∧ Layout u m all index (p + ls.length) start
  := by
  induction body generalizing index s ls p with
  | nil =>
      obtain ⟨rfl, rfl⟩ := Emit.labels_writes w
      have last : index = m.body.length := by
        have short := List.drop_eq_nil_iff.1 hb
        omega
      refine ⟨fun _ => p, rfl, ?_, ?_, ?_⟩
      · intro j hj hj'
        obtain rfl : j = index := by omega
        apply h
      · intro j i hj hji
        obtain ⟨lt, -⟩ := List.getElem?_eq_some_iff.1 hji
        omega
      · rw [List.length_map, last]
  | cons i body ih =>
      obtain ⟨l₁, _, t₁, l₂, w₁, w₂, rfl⟩ := w.of_bind
      obtain ⟨rfl, rfl⟩ := Emit.labels_writes w₁
      obtain ⟨l₃, _, t₃, l₄, w₃, w₄, rfl⟩ := w₂.of_bind
      obtain ⟨h₁, h₂⟩ := h.append
      obtain ⟨h₃, h₄⟩ := h₂.append
      have here : m.body[index]? = some i := by
        have first : (m.body.drop index)[0]? = some i := by rw [hb]; rfl
        simpa using first
      have lt : index < m.body.length := (List.getElem?_eq_some_iff.1 here).1
      have rest : m.body.drop (index + 1) = body := by
        rw [← List.drop_drop, hb]
        rfl
      rw [List.length_map] at h₃ h₄
      obtain ⟨start, begins, layout⟩ := ih rest lt w₄ h₄
      have others {j : Nat} (hj : index + 1 ≤ j) : (if j = index then p else start j) = start j :=
        if_neg (by omega)
      refine ⟨fun j => if j = index then p else start j, if_pos rfl, ?_, ?_, ?_⟩
      · intro j hj hj'
        rcases Nat.eq_or_lt_of_le hj with rfl | after
        · simpa using h₁
        · simp only [others after]
          apply layout.labels j after hj'
      · intro j i' hj hji
        rcases Nat.eq_or_lt_of_le hj with rfl | after
        · obtain rfl : i = i' := by simpa [here] using hji
          refine ⟨t₁, l₃, t₃, w₃, by simpa using h₃, ?_⟩
          simpa using begins
        · simp only [others after, others (Nat.le_succ_of_le after)]
          apply layout.code j i' after hji
      · simp only [others lt, layout.stop]
        simp
        omega

/-! ### Runs of the code -/

section Runs

variable {D : Domain} {start : Nat → Nat} {stop : Nat}

/-- The machine goes over labels. -/
theorem does_labels {names : List String} (h : Holds all p (names.map Line.label))
    (hq : q = p + names.length) (a : Activation D.Value) :
  (machine D all).Does 0 p a (pure (.inl (q, a)))
  := by
  induction names generalizing p with
  | nil =>
      obtain rfl : q = p := hq
      apply Control.Does.stay
  | cons name names ih =>
      have first : (machine D all).Does 1 p a (pure (.inl (p + 1, a))) := does_move h.head rfl
      have others := ih h.tail (by simp at hq; omega)
      apply (others.after first).mono (by omega)

/-- The end of the labels of the instruction at `j`. -/
def codeStart (m : Method) (start : Nat → Nat) (j : Nat) : Nat := start j + (m.labelsAt j).length

/-- The machine is among the labels of the instruction of the program or right after them, with an
empty stack and the slots and the heap of the program, at a place that control may come to. -/
structure AtInstr (m : Method) (all : List Line) (start : Nat → Nat) (x : State D (Nat → D.Value))
    (y : State D (Activation D.Value)) : Prop where
  heap : x.heap = y.heap
  data : y.data = ⟨[], x.data⟩
  le : x.index ≤ m.body.length
  index : ∃ k, k ≤ (m.labelsAt x.index).length ∧ y.index = start x.index + k
  live : Line.ended false (all.take (codeStart m start x.index)) = false

/-- Where control may come to the place before the labels of an instruction, it may come to its
code. -/
theorem Layout.ended_codeStart (layout : Layout u m all 0 stop start) {j : Nat}
    (hj : j ≤ m.body.length) :
  Line.ended false (all.take (codeStart m start j))
    = (Line.ended false (all.take (start j)) && (m.labelsAt j).isEmpty)
  := by
  have taken := (layout.labels j (Nat.zero_le j) hj).take
  rw [List.length_map] at taken
  rw [codeStart, taken, Line.ended_append, Line.ended_labels]

/-- A jump to a label of the method gets to its instruction. -/
theorem Layout.target (layout : Layout u m all 0 stop start)
    (nodup : (Line.labelNames all).Nodup) {label : String} {j : Nat}
    (hl : m.labelIndex? label = some j) (hj : j ≤ m.body.length) :
  ∃ k, k ≤ (m.labelsAt j).length ∧ Line.target? all label = some (start j + k)
    ∧ Line.ended false (all.take (codeStart m start j)) = false
  := by
  have mem := Method.mem_labelsAt_of_labelIndex? hl
  obtain ⟨k, hk⟩ := List.mem_iff_getElem?.1 mem
  obtain ⟨lt, -⟩ := List.getElem?_eq_some_iff.1 hk
  use k, Nat.le_of_lt lt
  constructor
  · apply Line.target?_of_nodup nodup
    obtain ⟨rest, hr⟩ := layout.labels j (Nat.zero_le j) hj
    rw [← List.getElem?_drop, ← hr, List.getElem?_append_left (by simpa using lt),
      List.getElem?_map, hk]
    rfl
  · have some : (m.labelsAt j).isEmpty = false := by
      rw [List.isEmpty_eq_false_iff_exists_mem]
      use label, mem
    rw [layout.ended_codeStart hj, some, Bool.and_false]

/-- After an instruction that does not leave, control may come to the next one. -/
theorem Layout.live_succ (layout : Layout u m all 0 stop start) {j : Nat} {i : Instr}
    (hi : m.body[j]? = some i) (goes : i.leaves = false)
    (live : Line.ended false (all.take (codeStart m start j)) = false) :
  Line.ended false (all.take (codeStart m start (j + 1))) = false
  := by
  obtain ⟨lt, -⟩ := List.getElem?_eq_some_iff.1 hi
  obtain ⟨s, ls, t, w, h, next⟩ := layout.code j i (Nat.zero_le j) hi
  have out := @Site.lower_ended ⟨u, m, i⟩ _ _ _ _ goes w
  have before : Line.ended false (all.take (start (j + 1))) = false := by
    rw [next, h.take, Line.ended_append]
    rw [codeStart] at live
    rw [live, out]
  rw [layout.ended_codeStart lt, before, Bool.false_and]

/-- The machine on the code of a body follows the program, where the lines after the body end it as the
program ends. -/
theorem Layout.follows (layout : Layout u m all 0 stop start) (lawful : D.Lawful)
    (nodup : (Line.labelNames all).Nodup)
    (zeros : ∀ i ∈ m.body, ∀ e ∈ i.comparands, e.ZeroIn D)
    (sums : ∀ i ∈ m.body, ∀ e ∈ i.addends, D.check (.ofTy e.ty) = D.check .int)
    (jumps : ∀ i ∈ m.body, ∀ label, i.jumpLabel? = some label →
      ∃ j, m.labelIndex? label = some j ∧ j ≤ m.body.length)
    (ending : Line.ended false (all.take stop) = false → ∀ a : Activation D.Value,
      (machine D all).perform stop a = pure (.inr (program u m.slotOf D m).atEnd)) :
  Follows (program u m.slotOf D m).automaton (machine D all).automaton (AtInstr m all start)
  := by
  apply Control.follows_of_does
  rintro ⟨j, cells, heap⟩ ⟨y, _, _⟩ ⟨rfl, rfl, le, ⟨k, hk, rfl⟩, live⟩
  have le : j ≤ m.body.length := le
  have hk : k ≤ (m.labelsAt j).length := hk
  use rfl
  have passed : (machine D all).Does 0 (start j + k) ⟨[], cells⟩
      (pure (.inl (codeStart m start j, ⟨[], cells⟩))) := by
    have labels := (layout.labels j (Nat.zero_le j) le).drop (by simpa using hk)
    rw [← List.map_drop] at labels
    apply does_labels labels
    simp only [codeStart, List.length_drop]
    omega
  rcases hi : m.body[j]? with _ | i
  · obtain rfl : j = m.body.length := by
      have short := List.getElem?_eq_none_iff.1 hi
      omega
    refine ⟨_, (Control.Does.perform.after passed).mono (by omega), ?_⟩
    have last : codeStart m start m.body.length = stop := layout.stop
    rw [last] at live
    rw [last, ending live]
    simp only [Control.perform, program, hi]
    exact .pure rfl
  · obtain ⟨s, ls, t, w, h, next⟩ := layout.code j i (Nat.zero_le j) hi
    have mem := List.mem_of_getElem? hi
    have targets : ∀ label, i.jumpLabel? = some label →
        ∃ there, Line.target? all label = some there := by
      intro label hl
      obtain ⟨j', found, hj'⟩ := jumps i mem label hl
      obtain ⟨k', -, target, -⟩ := layout.target nodup found hj'
      exact ⟨_, target⟩
    have does := does_instr lawful nodup w h rfl (zeros i mem) (sums i mem) targets cells
    refine ⟨_, (does.after passed).mono (by omega), ?_⟩
    simp only [Control.perform, program, hi, Option.map_some, bind_pure_comp]
    have same : Eff.Rel (fun a b => a = b ∧ (i.exec u m.slotOf cells).Gives a)
        (i.exec u m.slotOf cells) (i.exec u m.slotOf cells) := .of_gives fun a given => ⟨rfl, given⟩
    apply same.map
    rintro next _ ⟨rfl, given⟩
    have goes := Instr.exec_gives u m.slotOf given
    cases next with
    | on cells' =>
        intro heap'
        refine ⟨rfl, rfl, (List.getElem?_eq_some_iff.1 hi).1, ⟨0, Nat.zero_le _, next.symm⟩, ?_⟩
        apply layout.live_succ hi goes live
    | jump label cells' =>
        obtain ⟨j', found, hj'⟩ := jumps i mem label goes
        obtain ⟨k', hk', target, live'⟩ := layout.target nodup found hj'
        simp only [Control.follow, Next.map, found, machine, target]
        intro heap'
        constructor
        · rfl
        · rfl
        · apply hj'
        · use k'
        · apply live'
    | ret v => rfl

end Runs

end StackBackend
