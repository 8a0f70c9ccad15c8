import StackBackend.Proofs.Source.Rereading

/-!
# Which declarations are accepted

A declared method is well-formed when its labels are distinct, no assignment goes to a literal and
each jump goes to a label of the method, wherever that stands. A class is accepted exactly when all
its methods are well-formed. Otherwise the first method that is not is at fault: by the first item
that repeats a label or assigns to a literal, and where there is none by the first jump to a label
that the method does not have.
-/

namespace StackBackend

/-! ### Well-formed methods -/

/-- The label that an item of a body is. -/
def BodyItem.label? : BodyItem → Option String
  | label x => some x
  | instr _ => none

/-- The operand that an item of a body assigns to. -/
def BodyItem.target? : BodyItem → Option Operand
  | label _ => none
  | instr i => i.target?

/-- The label that an item of a body jumps to. -/
def BodyItem.jump? : BodyItem → Option String
  | label _ => none
  | instr i => i.jumpLabel?

/-- The labels among items. -/
def itemLabels (items : List (Located BodyItem)) : List String :=
  items.filterMap (·.value.label?)

/-- How many of the items are instructions. -/
def instrCount (items : List (Located BodyItem)) : Nat :=
  items.countP (·.value.label?.isNone)

/-- The labels among the items are distinct, and none of them assigns to a literal. -/
structure SoundItems (items : List (Located BodyItem)) : Prop where
  distinct : (itemLabels items).Nodup
  assignable : ∀ item ∈ items, ∀ dest ∈ item.value.target?, dest.isLiteral = false

/-- All jumps among the items go to a label that is among `labels`. -/
def JumpsInto (labels : List String) (items : List (Located BodyItem)) : Prop :=
  ∀ item ∈ items, ∀ label ∈ item.value.jump?, label ∈ labels

/-- The body is sound, and each jump goes to a label of the body, before or after it. -/
structure MethodDecl.IsWellFormed (d : MethodDecl) : Prop where
  sound : SoundItems d.body
  jumps : JumpsInto (itemLabels d.body) d.body

/-! ### Faults -/

/-- What is wrong with an item by itself, where the labels `earlier` stand before it. -/
inductive ItemFault (earlier : List String) : Located BodyItem → SourceError → Prop
  | repeated {x : String} {span : Span} (again : x ∈ earlier) :
      ItemFault earlier ⟨.label x, span⟩ ⟨.repeatedLabel x, span⟩
  | literal {item : Located BodyItem} {dest : Operand} (assigns : dest ∈ item.value.target?)
      (fixed : dest.isLiteral = true) :
      ItemFault earlier item ⟨.literalTarget dest.text, item.span⟩

/-- The error that a method is refused with: that of the first item that is at fault by itself, or where there is none
that of the first jump to a label that the method does not have. -/
inductive MethodDecl.IsRefused (d : MethodDecl) : SourceError → Prop
  | item {before after : List (Located BodyItem)} {item : Located BodyItem} {e : SourceError}
      (body : d.body = before ++ item :: after)
      (sound : SoundItems before)
      (fault : ItemFault (itemLabels before) item e) :
      IsRefused d e
  | jump {before after : List (Located BodyItem)} {item : Located BodyItem} {label : String}
      (sound : SoundItems d.body)
      (body : d.body = before ++ item :: after)
      (earlier : JumpsInto (itemLabels d.body) before)
      (jumps : label ∈ item.value.jump?)
      (missing : label ∉ itemLabels d.body) :
      IsRefused d ⟨.undefinedLabel label d.name, item.span⟩

/-! ### Typing the receiver -/

/-- The second operand is the first, where the variable `this` has the class `owner` as its type. -/
inductive Operand.Retyped (owner : String) : Operand → Operand → Prop
  | receiver (ty : Ty) : Retyped owner (.var "this" ty) (.var "this" (.object owner))
  | other {e : Operand} (apart : ∀ ty, e ≠ .var "this" ty) : Retyped owner e e

/-- The second condition is the first with its operands retyped. -/
inductive Condition.Retyped (owner : String) : Condition → Condition → Prop
  | compare {op : BinaryOp} {lhs lhs' rhs rhs' : Operand} (left : lhs.Retyped owner lhs')
      (right : rhs.Retyped owner rhs') :
      Retyped owner (.compare op lhs rhs) (.compare op lhs' rhs')
  | not {e e' : Operand} (operand : e.Retyped owner e') : Retyped owner (.not e) (.not e')
  | test {e e' : Operand} (operand : e.Retyped owner e') : Retyped owner (.test e) (.test e')

/-- The second instruction is the first with its operands retyped. -/
inductive Instr.Retyped (owner : String) : Instr → Instr → Prop
  | assign {dest dest' : Operand} {ty : Ty} {rhs rhs' : Instr} (target : dest.Retyped owner dest')
      (source : Retyped owner rhs rhs') :
      Retyped owner (.assign dest ty rhs) (.assign dest' ty rhs')
  | single {e e' : Operand} (operand : e.Retyped owner e') : Retyped owner (.single e) (.single e')
  | binary {op : BinaryOp} {lhs lhs' rhs rhs' : Operand} {ty : Ty} (left : lhs.Retyped owner lhs')
      (right : rhs.Retyped owner rhs') :
      Retyped owner (.binary op lhs rhs ty) (.binary op lhs' rhs' ty)
  | unary {op : UnaryOp} {e e' : Operand} {ty : Ty} (operand : e.Retyped owner e') :
      Retyped owner (.unary op e ty) (.unary op e' ty)
  | ret {ty : Ty} {value value' : Option Operand} (operand : Option.Rel (Operand.Retyped owner) value value') :
      Retyped owner (.ret ty value) (.ret ty value')
  | call {kind : CallKind} {receiver receiver' : Operand} {method : String} {args args' : List Operand} {result : Ty}
      (object : receiver.Retyped owner receiver') (each : List.Forall₂ (Operand.Retyped owner) args args') :
      Retyped owner (.call kind receiver method args result) (.call kind receiver' method args' result)
  | new {ty : Ty} {args args' : List Operand} (each : List.Forall₂ (Operand.Retyped owner) args args') :
      Retyped owner (.new ty args) (.new ty args')
  | getField {object object' : Operand} {field : String} {fieldTy : Ty} (operand : object.Retyped owner object') :
      Retyped owner (.getField object field fieldTy) (.getField object' field fieldTy)
  | putField {object object' value value' : Operand} {field : String} {fieldTy : Ty}
      (operand : object.Retyped owner object') (stored : value.Retyped owner value') :
      Retyped owner (.putField object field fieldTy value) (.putField object' field fieldTy value')
  | goto {label : String} : Retyped owner (.goto label) (.goto label)
  | branch {cond cond' : Condition} {label : String} (condition : cond.Retyped owner cond') :
      Retyped owner (.branch cond label) (.branch cond' label)
  | arrayLength {e e' : Operand} (operand : e.Retyped owner e') : Retyped owner (.arrayLength e) (.arrayLength e')

/-- An operand with the receiver typed by the class is retyped. -/
theorem retyped_typeReceiver (owner : String) (e : Operand) :
  e.Retyped owner (typeReceiver owner e)
  := by
  cases e with
  | literal value ty =>
      apply Operand.Retyped.other
      simp
  | item name index ty =>
      apply Operand.Retyped.other
      simp
  | var name ty =>
      rw [typeReceiver]
      split
      · next named =>
          subst named
          apply Operand.Retyped.receiver
      · next other =>
          apply Operand.Retyped.other
          simp [other]

/-- Operands with the receiver typed by the class are retyped one by one. -/
theorem retyped_map_typeReceiver (owner : String) (args : List Operand) :
  List.Forall₂ (Operand.Retyped owner) args (args.map (typeReceiver owner))
  := by
  rw [List.forall₂_map_right_iff, List.forall₂_same]
  intro e _
  apply retyped_typeReceiver

/-- A condition with the receiver typed by the class is retyped. -/
theorem Condition.retyped_map (owner : String) (cond : Condition) :
  cond.Retyped owner (cond.map (typeReceiver owner))
  := by
  cases cond with
  | compare op lhs rhs =>
      apply Retyped.compare
      · apply retyped_typeReceiver
      · apply retyped_typeReceiver
  | not e =>
      apply Retyped.not
      apply retyped_typeReceiver
  | test e =>
      apply Retyped.test
      apply retyped_typeReceiver

/-- An instruction with the receiver typed by the class is retyped. -/
theorem Instr.retyped_map (owner : String) (i : Instr) :
  i.Retyped owner (i.map (typeReceiver owner))
  := by
  induction i with
  | assign dest ty rhs source =>
      apply Retyped.assign
      · apply retyped_typeReceiver
      · apply source
  | ret ty value =>
      apply Retyped.ret
      cases value with
      | none => apply Option.Rel.none
      | some e =>
          apply Option.Rel.some
          apply retyped_typeReceiver
  | branch cond label =>
      apply Retyped.branch
      apply Condition.retyped_map
  | goto label => apply Retyped.goto
  | _ =>
      constructor
      all_goals first | apply retyped_typeReceiver | apply retyped_map_typeReceiver

/-! ### The two passes over the items of a body -/

section Items

variable {items before after : List (Located BodyItem)} {item : Located BodyItem}
  {seen earlier labels : List String} {method : String} {e : SourceError}

/-- The labels of a body, without their places. -/
theorem placedLabels_fst (index : Nat) (items : List (Located BodyItem)) :
  (placedLabels index items).map Prod.fst = itemLabels items
  := by
  fun_induction placedLabels index items with
  | case1 => rfl
  | case2 index x span items ih => apply congrArg (x :: ·) ih
  | case3 index i span items ih => apply ih

/-- The labels of the second part of a body are placed after the instructions of the first. -/
theorem placedLabels_append (index : Nat) (before after : List (Located BodyItem)) :
  placedLabels index (before ++ after)
    = placedLabels index before ++ placedLabels (index + (itemInstrs before).length) after
  := by
  fun_induction placedLabels index before with
  | case1 => rfl
  | case2 index x span before ih => apply congrArg ((x, index) :: ·) ih
  | case3 index i span before ih =>
      rw [List.cons_append, placedLabels, ih]
      simp [itemInstrs, Nat.add_assoc, Nat.add_comm 1]

/-- There are as many instructions as items that are instructions. -/
theorem length_itemInstrs (items : List (Located BodyItem)) :
  (itemInstrs items).length = instrCount items
  := by
  induction items with
  | nil => rfl
  | cons item items ih =>
      obtain ⟨value, span⟩ := item
      cases value with
      | label x =>
          rw [instrCount, List.countP_cons_of_neg (by simp [BodyItem.label?])]
          apply ih
      | instr i =>
          rw [instrCount, List.countP_cons_of_pos (by simp [BodyItem.label?])]
          apply congrArg (· + 1) ih

/-- A label is placed at its turn among the labels, before the instructions that follow it. -/
theorem placedLabels_getElem? {x : String} {span : Span} (index : Nat)
    (split : items = before ++ ⟨.label x, span⟩ :: after) :
  (placedLabels index items)[(itemLabels before).length]? = some (x, index + instrCount before)
  := by
  rw [split, placedLabels_append, ← placedLabels_fst index before, List.length_map,
    List.getElem?_append_right (le_refl _), length_itemInstrs]
  simp [placedLabels]

/-- An instruction stands at its turn among the instructions. -/
theorem itemInstrs_getElem? {i : Instr} {span : Span} (split : items = before ++ ⟨.instr i, span⟩ :: after) :
  (itemInstrs items)[instrCount before]? = some i
  := by
  rw [split, itemInstrs, List.filterMap_append, ← itemInstrs, ← length_itemInstrs,
    List.getElem?_append_right (le_refl _), Nat.sub_self]
  rfl

/-- The first pass finds no fault in sound items whose labels are new. -/
theorem itemFault?_eq_none_iff :
  itemFault? seen items = none ↔ SoundItems items ∧ ∀ x ∈ itemLabels items, x ∉ seen
  := by
  constructor
  · intro sound
    have apart := @labels_nodup_of_itemFault? _ _ 0 sound
    rw [placedLabels_fst] at apart
    refine ⟨⟨apart.1, ?_⟩, apart.2⟩
    intro item mem dest target
    cases value : item.value with
    | label x => simp [value, BodyItem.target?] at target
    | instr i =>
        rw [value] at target
        apply isLiteral_of_itemFault? sound _ target
        apply mem_itemInstrs.2
        use item, mem, value
  · rintro ⟨⟨distinct, assignable⟩, fresh⟩
    rw [← placedLabels_fst 0] at distinct fresh
    apply BodyItem.itemFault?_eq_none 0 distinct fresh
    intro i mem dest target
    obtain ⟨item, listed, value⟩ := mem_itemInstrs.1 mem
    apply assignable item listed
    rwa [value]

/-- A fault stays one if more labels have been seen. -/
theorem ItemFault.mono (fault : ItemFault earlier item e) (incl : ∀ x ∈ earlier, x ∈ seen) :
  ItemFault seen item e
  := by
  cases fault with
  | repeated again => apply ItemFault.repeated (incl _ again)
  | literal assigns fixed => apply ItemFault.literal assigns fixed

/-- A faulty item is found before all that comes after it. -/
theorem ItemFault.itemFault?_cons (fault : ItemFault seen item e) :
  itemFault? seen (item :: after) = some e
  := by
  cases fault with
  | repeated again => rw [itemFault?, if_pos again]
  | @literal item dest assigns fixed =>
      obtain ⟨value, span⟩ := item
      obtain ⟨ty, rhs, rfl⟩ : ∃ ty rhs, value = .instr (.assign dest ty rhs) := by
        cases value with
        | label x => simp [BodyItem.target?] at assigns
        | instr i =>
            cases i with
            | assign dest' ty rhs =>
                obtain rfl : dest' = dest := by simpa [BodyItem.target?, Instr.target?] using assigns
                use ty, rhs
            | _ => simp [BodyItem.target?, Instr.target?] at assigns
      cases dest with
      | literal value ty' => rfl
      | var | item => cases fixed

/-- The first pass stops at an item that is at fault after sound items. -/
theorem itemFault?_append (sound : itemFault? seen before = none)
    (fault : ItemFault (itemLabels before ++ seen) item e) :
  itemFault? seen (before ++ item :: after) = some e
  := by
  fun_induction itemFault? seen before with
  | case1 => apply fault.itemFault?_cons
  | case2 | case4 => simp at sound
  | case3 seen x span before new ih =>
      rw [List.cons_append, itemFault?, if_neg new]
      apply ih sound
      apply fault.mono
      intro y mem
      simpa [itemLabels, BodyItem.label?, or_left_comm] using mem
  | case5 seen i span before other ih =>
      rw [List.cons_append, itemFault?]
      · apply ih sound fault
      · apply other

/-- What the first pass finds is wrong with an item after sound items. -/
theorem exists_of_itemFault? (found : itemFault? seen items = some e) :
  ∃ before item after, items = before ++ item :: after ∧ itemFault? seen before = none
    ∧ ItemFault (itemLabels before ++ seen) item e
  := by
  fun_induction itemFault? seen items with
  | case1 => cases found
  | case2 seen x span items again =>
      cases found
      exact ⟨[], _, items, rfl, rfl, .repeated again⟩
  | case3 seen x span items new ih =>
      obtain ⟨before, item, after, rfl, sound, fault⟩ := ih found
      refine ⟨⟨.label x, span⟩ :: before, item, after, rfl, ?_, ?_⟩
      · rw [itemFault?, if_neg new, sound]
      · apply fault.mono
        intro y mem
        simpa [itemLabels, BodyItem.label?, or_left_comm] using mem
  | case4 seen value ty ty' rhs span items =>
      cases found
      exact ⟨[], _, items, rfl, rfl, .literal rfl rfl⟩
  | case5 seen i span items other ih =>
      obtain ⟨before, item, after, rfl, sound, fault⟩ := ih found
      refine ⟨⟨.instr i, span⟩ :: before, item, after, rfl, ?_, fault⟩
      rw [itemFault?]
      · apply sound
      · apply other

/-- The first pass finds the first fault, after sound items. -/
theorem itemFault?_nil_eq_some_iff :
  itemFault? [] items = some e ↔ ∃ before item after, items = before ++ item :: after ∧ SoundItems before
    ∧ ItemFault (itemLabels before) item e
  := by
  constructor
  · intro found
    obtain ⟨before, item, after, split, sound, fault⟩ := exists_of_itemFault? found
    rw [List.append_nil] at fault
    use before, item, after, split
    constructor
    · apply (itemFault?_eq_none_iff.1 sound).1
    · apply fault
  · rintro ⟨before, item, after, rfl, sound, fault⟩
    apply itemFault?_append (itemFault?_eq_none_iff.2 ⟨sound, fun x _ => List.not_mem_nil⟩)
    rwa [List.append_nil]

/-- The second pass looks for a jump to a label that is not there. -/
theorem jumpFault?_eq (method : String) (labels : List String) (items : List (Located BodyItem)) :
  jumpFault? method labels items = items.findSome? fun item =>
    (item.value.jump?.filter (· ∉ labels)).map fun label => ⟨.undefinedLabel label method, item.span⟩
  := by
  rw [jumpFault?]
  congr 1
  funext item
  cases item.value with
  | label x => rfl
  | instr i => rfl

theorem jumpFault?_eq_none_iff :
  jumpFault? method labels items = none ↔ JumpsInto labels items
  := by
  simp [jumpFault?_eq, JumpsInto]

/-- The second pass finds the first such jump. -/
theorem jumpFault?_eq_some_iff :
  jumpFault? method labels items = some e ↔ ∃ before item after, items = before ++ item :: after
    ∧ JumpsInto labels before ∧ ∃ label ∈ item.value.jump?, label ∉ labels
      ∧ e = ⟨.undefinedLabel label method, item.span⟩
  := by
  have fault (item : Located BodyItem) :
      ((item.value.jump?.filter (· ∉ labels)).map fun label =>
          (⟨.undefinedLabel label method, item.span⟩ : SourceError)) = some e
        ↔ ∃ label ∈ item.value.jump?, label ∉ labels ∧ e = ⟨.undefinedLabel label method, item.span⟩ := by
    simp [Option.filter_eq_some_iff, and_assoc, @eq_comm _ e]
  simp only [jumpFault?_eq, List.findSome?_eq_some_iff, fault, ← List.findSome?_eq_none_iff]
  simp only [← jumpFault?_eq, jumpFault?_eq_none_iff]
  constructor
  · rintro ⟨before, item, after, split, found, earlier⟩
    use before, item, after, split, earlier
  · rintro ⟨before, item, after, split, earlier, found⟩
    use before, item, after, split, found

end Items

/-! ### Methods -/

namespace MethodDecl

variable {owner : String} {d : MethodDecl} {e : SourceError}

/-- What the two passes over the body find. -/
def fault? (d : MethodDecl) : Option SourceError :=
  (itemFault? [] d.body).or (jumpFault? d.name (itemLabels d.body) d.body)

/-- A method is checked to its fault, or accepted if it has none. -/
theorem check_fault? (owner : String) (d : MethodDecl) :
  (∃ e, d.fault? = some e ∧ d.check owner = .error e) ∨ d.fault? = none ∧ ∃ m, d.check owner = .ok m
  := by
  rw [check, placedLabels_fst, fault?]
  simp only [Option.orElse_eq_orElse, Option.orElse_eq_or]
  split
  · next e found =>
      left
      use e
  · next none => exact .inr ⟨none, _, rfl⟩

/-- A method without faults is well formed. -/
theorem fault?_eq_none_iff :
  d.fault? = none ↔ d.IsWellFormed
  := by
  rw [fault?, Option.or_eq_none_iff, itemFault?_eq_none_iff, jumpFault?_eq_none_iff]
  constructor
  · rintro ⟨⟨sound, -⟩, jumps⟩
    use sound, jumps
  · rintro ⟨sound, jumps⟩
    constructor
    · use sound
      intro x _
      apply List.not_mem_nil
    · apply jumps

/-- The fault of a method is the one it is refused for. -/
theorem fault?_eq_some_iff :
  d.fault? = some e ↔ d.IsRefused e
  := by
  rw [fault?, Option.or_eq_some_iff, itemFault?_nil_eq_some_iff, jumpFault?_eq_some_iff, itemFault?_eq_none_iff]
  constructor
  · rintro (⟨before, item, after, body, sound, fault⟩
      | ⟨⟨sound, -⟩, before, item, after, body, earlier, label, jumps, missing, rfl⟩)
    · apply MethodDecl.IsRefused.item body sound fault
    · apply MethodDecl.IsRefused.jump sound body earlier jumps missing
  · rintro (⟨body, sound, fault⟩ | ⟨sound, body, earlier, jumps, missing⟩)
    · exact .inl ⟨_, _, _, body, sound, fault⟩
    · exact .inr ⟨⟨sound, fun x _ => List.not_mem_nil⟩, _, _, _, body, earlier, _, jumps, missing, rfl⟩

/-- The well-formed methods are accepted. -/
theorem exists_check_eq_ok_iff :
  (∃ m, d.check owner = .ok m) ↔ d.IsWellFormed
  := by
  rw [← fault?_eq_none_iff]
  obtain ⟨e, found, refused⟩ | ⟨none, m, accepted⟩ := d.check_fault? owner
  · simp [found, refused]
  · simp [none, accepted]

/-- The others are refused, for their first fault. -/
theorem check_eq_error_iff :
  d.check owner = .error e ↔ d.IsRefused e
  := by
  rw [← fault?_eq_some_iff]
  obtain ⟨e', found, refused⟩ | ⟨none, m, accepted⟩ := d.check_fault? owner
  · simp [found, refused]
  · simp [none, accepted]

/-- What is refused is not well formed. -/
theorem IsRefused.not_isWellFormed (refused : d.IsRefused e) :
  ¬ d.IsWellFormed
  := by
  rw [← fault?_eq_none_iff, fault?_eq_some_iff.2 refused]
  simp

end MethodDecl

/-! ### Classes -/

/-- Where one element of a list fails, the first that does gives the error. -/
theorem mapM_eq_error_iff {ε α β : Type} {f : α → Except ε β} {as : List α} {e : ε} :
  as.mapM f = .error e ↔ ∃ before a after, as = before ++ a :: after
    ∧ (∀ a' ∈ before, ∃ b, f a' = .ok b) ∧ f a = .error e
  := by
  constructor
  · intro failed
    induction as with
    | nil => cases failed
    | cons a as ih =>
        rw [List.mapM_cons] at failed
        obtain first | ⟨b, first, rest⟩ := eq_error_of_bind failed
        · use [], a, as, rfl
          constructor
          · simp
          · apply first
        · obtain later | ⟨bs, -, impossible⟩ := eq_error_of_bind rest
          · obtain ⟨before, a', after, rfl, succeed, fails⟩ := ih later
            exact ⟨a :: before, a', after, rfl, List.forall_mem_cons.2 ⟨⟨b, first⟩, succeed⟩, fails⟩
          · cases impossible
  · rintro ⟨before, a, after, rfl, succeed, fails⟩
    induction before with
    | nil =>
        rw [List.nil_append, List.mapM_cons, fails]
        rfl
    | cons a' before ih =>
        obtain ⟨⟨b, first⟩, succeed⟩ := List.forall_mem_cons.1 succeed
        rw [List.cons_append, List.mapM_cons, first, ih succeed]
        rfl

/-- A list of checks succeeds if each of them does. -/
theorem exists_mapM_eq_ok_iff {ε α β : Type} {f : α → Except ε β} {as : List α} :
  (∃ bs, as.mapM f = .ok bs) ↔ ∀ a ∈ as, ∃ b, f a = .ok b
  := by
  constructor
  · rintro ⟨bs, made⟩ a mem
    obtain ⟨k, lt, rfl⟩ := List.mem_iff_getElem.1 mem
    have each := mapM_eq_ok_iff.1 made
    exact ⟨_, each.get lt (each.length_eq ▸ lt)⟩
  · intro succeed
    cases outcome : as.mapM f with
    | ok bs => exact ⟨bs, rfl⟩
    | error e =>
        obtain ⟨before, a, after, rfl, -, fails⟩ := mapM_eq_error_iff.1 outcome
        obtain ⟨b, made⟩ := succeed a (by simp)
        rw [made] at fails
        cases fails

/-- A class is accepted if its methods are well formed. -/
theorem UnitDecl.exists_check_eq_ok_iff {d : UnitDecl} :
  (∃ u, d.check = .ok u) ↔ ∀ decl ∈ d.methods, decl.IsWellFormed
  := by
  have methods : (∃ u, d.check = .ok u) ↔ ∃ ms, d.methods.mapM (MethodDecl.check d.name) = .ok ms := by
    constructor
    · rintro ⟨u, checked⟩
      obtain ⟨ms, each, -⟩ := eq_ok_of_bind checked
      use ms
    · rintro ⟨ms, each⟩
      rw [check, each]
      exact ⟨_, rfl⟩
  simp only [methods, exists_mapM_eq_ok_iff, MethodDecl.exists_check_eq_ok_iff]

/-- A class is refused for the fault of its first method that is not well formed. -/
theorem UnitDecl.check_eq_error_iff {d : UnitDecl} {e : SourceError} :
  d.check = .error e ↔ ∃ before decl after, d.methods = before ++ decl :: after
    ∧ (∀ earlier ∈ before, earlier.IsWellFormed) ∧ decl.IsRefused e
  := by
  have methods : d.check = .error e ↔ d.methods.mapM (MethodDecl.check d.name) = .error e := by
    constructor
    · intro refused
      obtain failed | ⟨ms, -, impossible⟩ := eq_error_of_bind refused
      · apply failed
      · cases impossible
    · intro failed
      rw [check, failed]
      rfl
  simp only [methods, mapM_eq_error_iff, MethodDecl.exists_check_eq_ok_iff, MethodDecl.check_eq_error_iff]

/-- A class is accepted exactly when all its methods are well-formed, and else refused for the first fault of the
first method that is not. An accepted method has as many instructions as its items are, each at its turn and with the
receiver typed by the class, and the labels of its items, each with the number of instructions before it. -/
theorem UnitDecl.check_accepts_wellFormed (d : UnitDecl) :
  ((∃ u, d.check = .ok u) ↔ ∀ decl ∈ d.methods, decl.IsWellFormed)
    ∧ (∀ e, d.check = .error e ↔ ∃ before decl after, d.methods = before ++ decl :: after
        ∧ (∀ earlier ∈ before, earlier.IsWellFormed) ∧ ¬ decl.IsWellFormed ∧ decl.IsRefused e)
    ∧ ∀ u, d.check = .ok u → List.Forall₂ (fun decl m =>
        m.body.length = instrCount decl.body
          ∧ (∀ before i span after, decl.body = before ++ ⟨.instr i, span⟩ :: after →
              ∃ i', m.body[instrCount before]? = some i' ∧ i.Retyped d.name i')
          ∧ m.labels.map Prod.fst = itemLabels decl.body
          ∧ ∀ before x span after, decl.body = before ++ ⟨.label x, span⟩ :: after →
              m.labels[(itemLabels before).length]? = some (x, instrCount before))
        d.methods u.methods
  := by
  use exists_check_eq_ok_iff
  constructor
  · intro e
    rw [check_eq_error_iff]
    constructor
    · rintro ⟨before, decl, after, split, sound, refused⟩
      use before, decl, after, split, sound, refused.not_isWellFormed, refused
    · rintro ⟨before, decl, after, split, sound, -, refused⟩
      use before, decl, after, split, sound, refused
  · intro u checked
    obtain ⟨methods, each, made⟩ := eq_ok_of_bind checked
    cases made
    apply (mapM_eq_ok_iff.1 each).imp
    intro decl m accepted
    obtain ⟨-, rfl⟩ := decl.eq_of_check accepted
    split_ands
    · rw [List.length_map, length_itemInstrs]
    · intro before i span after split
      use i.map (typeReceiver d.name)
      constructor
      · rw [List.getElem?_map, itemInstrs_getElem? split]
        rfl
      · apply Instr.retyped_map
    · apply placedLabels_fst 0 decl.body
    · intro before x span after split
      simpa using placedLabels_getElem? 0 split

/-- A class with a method in which the receiver is written with a type of its own. -/
def mistypedText : String :=
  "A \x7b .method f().V \x7b x.i32 :=.i32 this.i32; \x7d \x7d"

/-- The instructions of an accepted method need not be those of its items. -/
theorem mistyped_retyped :
  ∃ d u, readUnit mistypedText = .ok d ∧ d.check = .ok u
    ∧ u.methods.map Method.body ≠ d.methods.map fun decl => itemInstrs decl.body
  := by
  have checked : ((readUnit mistypedText).toOption.any fun d => d.check.toOption.any fun u =>
      decide (u.methods.map Method.body ≠ d.methods.map fun decl => itemInstrs decl.body)) = true := by
    decide +kernel
  rw [Option.any_eq_true] at checked
  obtain ⟨d, read, checked⟩ := checked
  rw [Option.any_eq_true] at checked
  obtain ⟨u, accepted, differ⟩ := checked
  use d, u, eq_ok_of_toOption read, eq_ok_of_toOption accepted, of_decide_eq_true differ

end StackBackend
