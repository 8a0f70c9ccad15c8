import StackBackend.Proofs.Lowering.StackSafety

/-!
# Lowering with another table

Lowering looks up the slots of variables and nothing else in the table of a method. With a table that has
more variables it writes the same lines up to their slots and comes to the same end, unless it stops at
a variable that only the larger table has. The stack is counted in the same way along lines that
differ in their slots alone, and increments that are fused leave nothing to fail. So the two tables make
no other difference to whether a method has code.
-/

namespace StackBackend

/-! ### Lines up to slots -/

/-- The instruction with its slot left out. -/
def Inst.unslotted : Inst → Inst
  | .load kind _ => .load kind 0
  | .store kind _ => .store kind 0
  | .inc _ amount => .inc 0 amount
  | i => i

/-- The line with its slot left out. -/
def Line.unslotted : Line → Line
  | .label name => .label name
  | .inst i => .inst i.unslotted

/-- The lines differ in slots at most. -/
def Alike (ls ls' : List Line) : Prop := ls.map Line.unslotted = ls'.map Line.unslotted

theorem Alike.refl (ls : List Line) :
  Alike ls ls
  := rfl

theorem Alike.symm {ls ls' : List Line} (alike : Alike ls ls') :
  Alike ls' ls
  := Eq.symm alike

/-- Alike lines in a row. -/
theorem Alike.append {ls ls' ms ms' : List Line} (first : Alike ls ls') (second : Alike ms ms') :
  Alike (ls ++ ms) (ls' ++ ms')
  := by
  rw [Alike, List.map_append, List.map_append, first, second]

/-- The stack is counted without looking at slots. -/
theorem Inst.unslotted_counts (i : Inst) :
  i.unslotted.effect = i.effect ∧ i.unslotted.isTerminator = i.isTerminator
    ∧ i.unslotted.jumpLabel? = i.jumpLabel?
  := by
  cases i <;> exact ⟨rfl, rfl, rfl⟩

namespace Frame

variable {f f' g : Frame} {ls ls' : List Line}

/-- An instruction can be counted if the height stays within the bounds. -/
theorem step_inst_eq_ok_iff {i : Inst} :
  f.step (.inst i) = .ok g ↔ (0 ≤ (f.height : Int) + i.effect ∧ (f.height : Int) + i.effect < 0x80000000)
    ∧ g = f.passInst i ((f.height : Int) + i.effect).toNat
  := by
  simp only [step]
  grind

/-- A line is counted in the same way whatever its slot. -/
theorem SameCore.step_alike (same : SameCore f g) {l l' : Line} (alike : l.unslotted = l'.unslotted)
    (stepped : f.step l = .ok f') :
  ∃ g', g.step l' = .ok g' ∧ SameCore f' g'
  := by
  obtain ⟨g', stepped', same'⟩ := same.step stepped
  cases l with
  | label name =>
      cases l' with
      | inst i => simp [Line.unslotted] at alike
      | label name' =>
          obtain rfl : name = name' := by simpa [Line.unslotted] using alike
          use g', stepped'
  | inst i =>
      cases l' with
      | label name => simp [Line.unslotted] at alike
      | inst i' =>
          have alike : i.unslotted = i'.unslotted := by simpa [Line.unslotted] using alike
          obtain ⟨effect, terminates, jumps⟩ := i.unslotted_counts
          obtain ⟨effect', terminates', jumps'⟩ := i'.unslotted_counts
          rw [alike] at effect terminates jumps
          have effect := effect.symm.trans effect'
          have terminates := terminates.symm.trans terminates'
          have jumps := jumps.symm.trans jumps'
          obtain ⟨bounds, rfl⟩ := step_inst_eq_ok_iff.1 stepped'
          refine ⟨_, step_inst_eq_ok_iff.2 ⟨effect ▸ bounds, rfl⟩, same'.trans ?_⟩
          constructor <;> simp [passInst, effect, terminates, jumps]

/-- Alike lines are counted alike; by induction on the lines. -/
theorem SameCore.replay_alike (same : SameCore f g) (alike : Alike ls ls') (counted : f.replay ls = .ok f') :
  ∃ g', g.replay ls' = .ok g' ∧ SameCore f' g'
  := by
  induction ls generalizing f g ls' with
  | nil =>
      obtain rfl : ls' = [] := by simpa [Alike, eq_comm] using alike
      obtain rfl : f = f' := Except.ok.inj counted
      use g, rfl
  | cons l ls ih =>
      obtain ⟨l', ls', rfl, first, rest⟩ : ∃ l' ms, ls' = l' :: ms ∧ l.unslotted = l'.unslotted ∧ Alike ls ms := by
        cases ls' with
        | nil => simp [Alike] at alike
        | cons l' ms =>
            obtain ⟨first, rest⟩ := List.cons.inj alike
            use l', ms, rfl, first, rest
      obtain ⟨f₁, stepped, counted⟩ := replay_cons_eq_ok.1 counted
      obtain ⟨g₁, stepped', same⟩ := same.step_alike first stepped
      obtain ⟨g', counted', same'⟩ := ih same rest counted
      use g'
      constructor
      · apply replay_cons_eq_ok.2
        use g₁, stepped'
      · apply same'

/-- Of two lists of alike lines both can be counted or none. -/
theorem SameCore.replay_cases (same : SameCore f g) (alike : Alike ls ls') :
  (∃ f' g', f.replay ls = .ok f' ∧ g.replay ls' = .ok g' ∧ SameCore f' g')
    ∨ ∃ e e', f.replay ls = .error e ∧ g.replay ls' = .error e'
  := by
  cases counted : f.replay ls with
  | ok f' =>
      obtain ⟨g', counted', same'⟩ := same.replay_alike alike counted
      left
      use f', g', rfl, counted'
  | error e =>
      cases counted' : g.replay ls' with
      | error e' =>
          right
          use e, e'
      | ok g' =>
          obtain ⟨f', counted'', -⟩ := same.symm.replay_alike alike.symm counted'
          simp [counted] at counted''

/-- Lines that can be counted can be counted with their increments fused: an increment takes nothing from the
stack and leaves nothing on it. -/
theorem SameCore.replay_fuseIn (all : List Line) (same : SameCore f g) (counted : f.replay ls = .ok f') :
  ∃ g', g.replay (fuseIn all ls).1 = .ok g'
  := by
  fun_induction StackBackend.fuseIn all ls generalizing f g with
  | case1 =>
      use g
      rfl
  | case2 line rest n found fused count rest_fused ih =>
      rw [rest_fused] at ih
      obtain ⟨t, window, -⟩ := fusibleAt?_cons_eq_some found
      rw [window] at counted
      obtain ⟨f₁, through, counted⟩ := replay_append_eq_ok.1 counted
      obtain ⟨f₂, stepped, -⟩ := replay_cons_eq_ok.1 through
      obtain ⟨bounds, -⟩ := step_inst_eq_ok_iff.1 stepped
      have stepped' : g.step (.inst (.inc n 1)) = .ok (g.passInst (.inc n 1) g.height) := by
        rw [step_inst_eq_ok_iff, ← same.height]
        simp only [Inst.effect] at bounds ⊢
        constructor
        · omega
        · simp
      have unchanged : SameCore g (g.passInst (.inc n 1) g.height) := by
        constructor <;> simp [passInst, Inst.isTerminator, Inst.jumpLabel?]
      obtain ⟨g', counted'⟩ :=
        ih ((sameCore_incrementWindow through).symm.trans (same.trans unchanged)) counted
      use g'
      apply replay_cons_eq_ok.2 ⟨_, stepped', counted'⟩
  | case3 line rest none fused count rest_fused ih =>
      rw [rest_fused] at ih
      obtain ⟨f₁, stepped, counted⟩ := replay_cons_eq_ok.1 counted
      obtain ⟨g₁, stepped', same₁⟩ := same.step stepped
      obtain ⟨g', counted'⟩ := ih same₁ counted
      use g'
      apply replay_cons_eq_ok.2
      use g₁, stepped', counted'

end Frame

/-! ### Emissions with the same end -/

namespace Emit

variable {α β : Type} {lost : LoweringError → Prop}

/-- Two emissions have written alike lines and come to the same end; or the first one is stopped by an error
that counts as lost, and the second one has gone on. -/
inductive SameEnd (lost : LoweringError → Prop) :
    List Line × Except LoweringError (α × LabelSupply) → List Line × Except LoweringError (α × LabelSupply) → Prop
  | ok {ls ls' : List Line} {a : α} {t : LabelSupply} (alike : Alike ls ls') :
      SameEnd lost (ls, .ok (a, t)) (ls', .ok (a, t))
  | error {ls ls' : List Line} {e : LoweringError} (alike : Alike ls ls') :
      SameEnd lost (ls, .error e) (ls', .error e)
  | lost {ls ls' : List Line} {e : LoweringError} (alike : Alike ls ls') (is_lost : lost e) (rest : List Line)
      (outcome : Except LoweringError (α × LabelSupply)) :
      SameEnd lost (ls, .error e) (ls' ++ rest, outcome)

/-- From every supply the two emissions come to the same end. -/
def Tracks (lost : LoweringError → Prop) (p q : Emit α) : Prop := ∀ s, SameEnd lost (p s) (q s)

theorem Tracks.refl (p : Emit α) :
  Tracks lost p p
  := by
  intro s
  rcases p s with ⟨ls, e | ⟨a, t⟩⟩
  · apply SameEnd.error (.refl ls)
  · apply SameEnd.ok (.refl ls)

/-- Emissions in a row come to the same end, unless what is lost stops the first one. -/
theorem Tracks.bind {p q : Emit α} {f g : α → Emit β} (first : Tracks lost p q)
    (rest : ∀ a, Tracks lost (f a) (g a)) :
  Tracks lost (p >>= f) (q >>= g)
  := by
  intro s
  rw [bind_apply, bind_apply]
  generalize p s = x, q s = y, first s = ends
  cases ends with
  | @ok ls ls' a t alike =>
      simp only
      generalize f a t = x', g a t = y', rest a t = ends
      cases ends with
      | ok alike' => apply SameEnd.ok (alike.append alike')
      | error alike' => apply SameEnd.error (alike.append alike')
      | lost alike' is_lost more outcome =>
          rw [← List.append_assoc]
          apply SameEnd.lost (alike.append alike') is_lost more outcome
  | error alike => apply SameEnd.error alike
  | lost alike is_lost more outcome =>
      obtain e | ⟨b, t⟩ := outcome
      · apply SameEnd.lost alike is_lost more (.error e)
      · simp only [List.append_assoc]
        apply SameEnd.lost alike is_lost _ _

end Emit

/-! ### Scripts in another class -/

namespace ClassUnit

variable (u : ClassUnit) (methods : List Method)

/-- The descriptors of a class do not depend on its methods. -/
theorem descriptor_with (ty : Ty) :
  { u with methods }.descriptor ty = u.descriptor ty
  := by
  induction ty with
  | array elem ih => apply congrArg ("[" ++ ·) ih
  | _ => rfl

/-- The descriptors of types in a row. -/
theorem descriptors_with (tys : List Ty) :
  { u with methods }.descriptors tys = u.descriptors tys
  := by
  rw [descriptors, descriptors, List.map_congr_left]
  intro ty _
  apply descriptor_with

theorem classPath_with (ty : Ty) :
  { u with methods }.classPath ty = u.classPath ty
  := by
  cases ty with
  | array elem => apply descriptor_with u methods (.array elem)
  | _ => rfl

/-- Nor do the names of the methods that are called. -/
theorem callTarget_with (kind : CallKind) (owner : Operand) (method : String) (args : List Operand) (result : Ty) :
  callTarget { u with methods } ((callOwner? { u with methods } kind owner method).getD "") method args result
    = callTarget u ((callOwner? u kind owner method).getD "") method args result
  := by
  have owner_eq : callOwner? { u with methods } kind owner method = callOwner? u kind owner method := by
    unfold callOwner?
    split
    · rfl
    · rfl
    · rw [classPath_with]
      rfl
  rw [owner_eq, callTarget, callTarget, descriptors_with, descriptor_with]

end ClassUnit

/-- The code of an expression does not depend on the methods of its class. -/
theorem Script.expr_with (u : ClassUnit) (methods : List Method) (n : Nat) (i : Instr) :
  expr { u with methods } n i = expr u n i
  := by
  cases i with
  | call kind owner method args result => rw [expr, call, u.callTarget_with, expr, call]
  | new ty args =>
      rw [expr, expr]
      unfold new
      split
      · simp only [newArray, u.classPath_with]
      · rfl
      · rw [u.classPath_with]
      · rfl
  | getField object field ty => rw [expr, u.classPath_with, u.descriptor_with, expr]
  | single | binary | unary | arrayLength | assign | ret | putField | goto | branch => rfl

/-- The code of an instruction does not depend on the methods of its class. -/
theorem Instr.script_with (u : ClassUnit) (methods : List Method) (n : Nat) (i : Instr) :
  i.script { u with methods } n = i.script u n
  := by
  have expr (i : Instr) : Script.expr { u with methods } n i = Script.expr u n i := Script.expr_with u methods n i
  cases i with
  | assign dest ty rhs =>
      have value : Script.value { u with methods } n rhs = Script.value u n rhs := by
        rw [Script.value, expr, Script.value]
      rw [script, Script.assign, script, Script.assign]
      split
      · rfl
      · cases dest <;> simp only [Script.store, value]
  | putField object field ty value => rw [script, u.classPath_with, u.descriptor_with, script]
  | ret | goto | branch => rfl
  | single | binary | unary | call | new | getField | arrayLength =>
      rw [script, Script.discard, expr, script, Script.discard]

/-! ### Sites with another table -/

/-- An error at a variable that the method does not have and the table does. -/
def Method.Lost (m : Method) (vars : VarTable) (e : LoweringError) : Prop :=
  ∃ x instr, x ∉ m.vars ∧ x ∈ vars ∧ e = .missingVariable x m.name instr

namespace Site

/-- The site in a class with other methods and a method with another table. -/
def moved (site : Site) (methods : List Method) (vars : VarTable) : Site :=
  ⟨{ site.unit with methods }, { site.method with vars }, site.instr⟩

variable {site : Site} (methods : List Method) {vars : VarTable} (wider : ∀ x ∈ site.method.vars, x ∈ vars)

include wider

/-- A variable has a slot in both tables, in neither of them, or in the second one alone. -/
theorem find_moved (x : String) :
  (∃ slot slot', site.find x = .ok slot ∧ (site.moved methods vars).find x = .ok slot')
    ∨ (∃ e, site.find x = .error e ∧ (site.moved methods vars).find x = .error e)
    ∨ ∃ e, site.find x = .error e ∧ site.method.Lost vars e
  := by
  simp only [find, moved, Method.slotOf]
  cases here : site.method.vars[x]? with
  | some v =>
      have mem : x ∈ vars := wider x (by simp [Std.ExtTreeMap.mem_iff_isSome_getElem?, here])
      rw [Std.ExtTreeMap.mem_iff_isSome_getElem?, Option.isSome_iff_exists] at mem
      obtain ⟨v', there⟩ := mem
      rw [there]
      left
      use v.slot, v'.slot
      constructor <;> rfl
  | none =>
      right
      cases there : vars[x]? with
      | none =>
          left
          exact ⟨_, rfl, rfl⟩
      | some v' =>
          right
          refine ⟨_, rfl, x, _, ?_, ?_, rfl⟩
          · simp [Std.ExtTreeMap.mem_iff_isSome_getElem?, here]
          · simp [Std.ExtTreeMap.mem_iff_isSome_getElem?, there]

/-- A step that looks up a slot writes alike lines with any two slots. -/
theorem find_tracks (x : String) (i : Nat → Inst) (alike : ∀ slot slot', (i slot).unslotted = (i slot').unslotted)
    {step : CodeStep} (looks : ∀ site, step.line site = (site.find x).map fun slot => .inst (i slot)) :
  Emit.Tracks (site.method.Lost vars) (site.emit step) ((site.moved methods vars).emit step)
  := by
  intro s
  rw [emit, looks, emit, looks]
  obtain ⟨slot, slot', here, there⟩ | ⟨e, here, there⟩ | ⟨e, here, lost⟩ := find_moved methods wider x
  · rw [here, there]
    apply Emit.SameEnd.ok
    rw [Alike, List.map_singleton, List.map_singleton, Line.unslotted, Line.unslotted, alike slot slot']
  · rw [here, there]
    apply Emit.SameEnd.error (.refl [])
  · rw [here]
    apply Emit.SameEnd.lost (.refl []) lost

/-- A step is written alike with a wider table: only slots are looked up in it. -/
theorem emit_tracks (step : CodeStep) :
  Emit.Tracks (site.method.Lost vars) (site.emit step) ((site.moved methods vars).emit step)
  := by
  cases step with
  | load kind x => apply find_tracks methods wider x (.load kind) <;> intros <;> rfl
  | store kind x => apply find_tracks methods wider x (.store kind) <;> intros <;> rfl
  | inc x v => apply find_tracks methods wider x (.inc · v) <;> intros <;> rfl
  | inst | push | number | label | stop => apply Emit.Tracks.refl

/-- By induction on the steps. -/
theorem emitAll_tracks (steps : List CodeStep) :
  Emit.Tracks (site.method.Lost vars) (site.emitAll steps) ((site.moved methods vars).emitAll steps)
  := by
  induction steps with
  | nil => apply Emit.Tracks.refl
  | cons step steps ih =>
      rw [emitAll_cons, emitAll_cons]
      apply (emit_tracks methods wider step).bind
      intro _
      apply ih

/-- An instruction is lowered alike with a wider table. -/
theorem lower_tracks :
  Emit.Tracks (site.method.Lost vars) site.lower (site.moved methods vars).lower
  := by
  intro s
  have same : (site.moved methods vars).instr.script (site.moved methods vars).unit = site.instr.script site.unit := by
    funext n
    apply Instr.script_with
  rw [lower_eq, lower_eq, same]
  apply emitAll_tracks methods wider

end Site

/-! ### Methods with another table -/

namespace ClassUnit

variable {u : ClassUnit} {m : Method} (methods : List Method) {vars : VarTable} (wider : ∀ x ∈ m.vars, x ∈ vars)

include wider in
/-- The body of a method is lowered alike with a wider table. -/
theorem lowerFrom_tracks (index : Nat) (body : List Instr) :
  Emit.Tracks (m.Lost vars) (u.lowerFrom m index body)
    ({ u with methods }.lowerFrom { m with vars } index body)
  := by
  induction body generalizing index with
  | nil => apply Emit.Tracks.refl
  | cons i body ih =>
      apply (Emit.Tracks.refl _).bind
      intro _
      apply Emit.Tracks.bind (@Site.lower_tracks ⟨u, m, i⟩ methods vars wider)
      intro _
      apply ih (index + 1)

end ClassUnit

/-- What comes of lines that are written for a method: they have to be counted, written to the end and
closed. -/
def Method.verdict {α : Type} (m : Method) (lines : List Line) (outcome : Except LoweringError α) :
    Except CodeFault Unit := do
  let f ← ((Frame.start m.entrySlots).replay lines).mapError .frame
  let _ ← outcome.mapError .lowering
  let _ ← (f.replay (m.closing f)).mapError .frame
  return ()

/-- Whether a method has code is the verdict on its lines. -/
theorem ClassUnit.methodCode_map (u : ClassUnit) (m : Method) :
  (u.methodCode m).map (fun _ => ()) = m.verdict (u.lowerBody m (.ofLabels (m.labels.map Prod.fst))).1
    (u.lowerBody m (.ofLabels (m.labels.map Prod.fst))).2
  := by
  rw [methodCode, Method.verdict]
  rcases u.lowerBody m (.ofLabels (m.labels.map Prod.fst)) with ⟨lines, outcome⟩
  simp only [Listing.pushAll_eq, Listing.start]
  cases counted : (Frame.start m.entrySlots).replay lines with
  | error f => rfl
  | ok f =>
      obtain e | ⟨_, left⟩ := outcome
      · rfl
      · simp only [Except.map, mapError_ok, bind, Except.bind, Listing.close_eq, Listing.pushAll_eq]
        cases closed : f.replay (m.closing f) with
        | error f' => rfl
        | ok f' =>
            have whole : (Frame.start m.entrySlots).replay (lines ++ m.closing f) = .ok f' :=
              (Frame.replay_append_of_ok counted).trans closed
            obtain ⟨g, fused⟩ := (Frame.SameCore.refl _).replay_fuseIn (lines ++ m.closing f) whole
            simp only [mapError_ok, Listing.fuse, fuseIncrements, Listing.recount, List.nil_append, fused]
            rfl

/-- Both have code, or both fail for the same reason: the same instruction has no lowering, or the
operand stack outgrows its count. -/
inductive SameOutcome {α β : Type} : Except CodeFault α → Except CodeFault β → Prop
  | code (a : α) (b : β) : SameOutcome (.ok a) (.ok b)
  | lowering (e : LoweringError) : SameOutcome (.error (.lowering e)) (.error (.lowering e))
  | overflow (i j : Inst) : SameOutcome (.error (.frame (.overflow i))) (.error (.frame (.overflow j)))

/-- Emissions with the same end lead to the same verdict, up to what is lost. -/
theorem Method.verdict_sameEnd {α : Type} {lost : LoweringError → Prop} (m : Method)
    {x y : List Line × Except LoweringError (α × LabelSupply)} (ends : Emit.SameEnd lost x y) :
  m.verdict x.1 x.2 = .ok () ∧ m.verdict y.1 y.2 = .ok ()
    ∨ (∃ e, m.verdict x.1 x.2 = .error (.lowering e) ∧ (m.verdict y.1 y.2 = .error (.lowering e) ∨ lost e))
    ∨ ∃ f g, m.verdict x.1 x.2 = .error (.frame f) ∧ m.verdict y.1 y.2 = .error (.frame g)
  := by
  have uncounted {γ : Type} {ls : List Line} {f : FrameFault} (outcome : Except LoweringError γ)
      (failed : (Frame.start m.entrySlots).replay ls = .error f) :
      m.verdict ls outcome = .error (.frame f) := by
    rw [verdict, failed]
    rfl
  have stopped {γ : Type} {ls : List Line} {f : Frame} {e : LoweringError}
      (counted : (Frame.start m.entrySlots).replay ls = .ok f) :
      m.verdict ls (.error e : Except LoweringError γ) = .error (.lowering e) := by
    rw [verdict, counted]
    rfl
  have closed {γ : Type} {ls : List Line} {f : Frame} (a : γ)
      (counted : (Frame.start m.entrySlots).replay ls = .ok f) :
      m.verdict ls (.ok a : Except LoweringError γ) = ((f.replay (m.closing f)).mapError .frame).map fun _ => () := by
    rw [verdict, counted]
    simp only [mapError_ok, bind, Except.bind]
    cases f.replay (m.closing f) <;> rfl
  cases ends with
  | ok alike =>
      obtain ⟨f, g, counted, counted', same⟩ | ⟨f, g, failed, failed'⟩ :=
        (Frame.SameCore.refl (.start m.entrySlots)).replay_cases alike
      · have closing : m.closing g = m.closing f := by rw [closing, closing, same.terminated]
        rw [closed _ counted, closed _ counted', closing]
        obtain ⟨f', g', closed, closed', -⟩ | ⟨f', g', failed, failed'⟩ := same.replay_cases (.refl (m.closing f))
        · exact .inl ⟨by rw [closed]; rfl, by rw [closed']; rfl⟩
        · exact .inr (.inr ⟨f', g', by rw [failed]; rfl, by rw [failed']; rfl⟩)
      · right
        right
        use f, g, uncounted _ failed, uncounted _ failed'
  | error alike =>
      obtain ⟨f, g, counted, counted', -⟩ | ⟨f, g, failed, failed'⟩ :=
        (Frame.SameCore.refl (.start m.entrySlots)).replay_cases alike
      · exact .inr (.inl ⟨_, stopped counted, .inl (stopped counted')⟩)
      · right
        right
        use f, g, uncounted _ failed, uncounted _ failed'
  | lost alike is_lost rest outcome =>
      obtain ⟨f, g, counted, -⟩ | ⟨f, g, failed, failed'⟩ :=
        (Frame.SameCore.refl (.start m.entrySlots)).replay_cases alike
      · exact .inr (.inl ⟨_, stopped counted, .inr is_lost⟩)
      · right
        right
        use f, g, uncounted _ failed
        apply uncounted
        rw [Frame.replay_append, failed']
        rfl

/-- A wider table makes no difference to whether a method has code, unless it is for a variable that is
not in the first one. -/
theorem ClassUnit.methodCode_sameOutcome {u : ClassUnit} {m : Method} (jumps : m.JumpsInside)
    (methods : List Method) {vars : VarTable} (wider : ∀ x ∈ m.vars, x ∈ vars) :
  SameOutcome (u.methodCode m) ({ u with methods }.methodCode { m with vars })
    ∨ ∃ e, u.methodCode m = .error (.lowering e) ∧ m.Lost vars e
  := by
  have verdict := u.methodCode_map m
  have verdict' := { u with methods }.methodCode_map { m with vars }
  obtain ⟨ok, ok'⟩ | ⟨e, error, error' | lost⟩ | ⟨f, g, failed, failed'⟩ := m.verdict_sameEnd
    (u.lowerFrom_tracks methods wider 0 m.body (.ofLabels (m.labels.map Prod.fst)))
  · obtain ⟨code, made, -⟩ := eq_ok_of_map (verdict.trans ok)
    obtain ⟨code', made', -⟩ := eq_ok_of_map (verdict'.trans ok')
    rw [made, made']
    left
    apply SameOutcome.code code code'
  · rw [eq_error_of_map (verdict.trans error), eq_error_of_map (verdict'.trans error')]
    left
    apply SameOutcome.lowering e
  · right
    use e, eq_error_of_map (verdict.trans error)
  · have failed := eq_error_of_map (verdict.trans failed)
    have failed' := eq_error_of_map (verdict'.trans failed')
    cases f with
    | underflow i => apply (methodCode_ne_underflow jumps i failed).elim
    | overflow i =>
        cases g with
        | underflow j => apply (methodCode_ne_underflow (m := { m with vars }) jumps j failed').elim
        | overflow j =>
            rw [failed, failed']
            left
            apply SameOutcome.overflow i j

end StackBackend
