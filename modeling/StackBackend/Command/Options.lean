import StackBackend.Text

/-!
# Command line options

A command line names a source file, and perhaps a register budget, an output file and flags. An
option is written by a letter, with other letters before it and its value behind it, or by a
word with its value after an equals sign; a value may also be the next argument. After `--`
every argument is a source. The value of the budget may begin with a hyphen.

An argument that cannot be understood is refused where it stands. Only at the end are missing
values, a missing source, bad values and repeated options looked for, in that order, the last
two option by option in the order of their first use.
-/

namespace StackBackend

/-- What a command line asks for. A negative budget asks for no allocation. -/
structure Options where
  budget : Int
  output : Option String
  verbose : Bool
  debug : Bool
  source : String
deriving DecidableEq, Repr, Inhabited

/-- Why a command line is refused. -/
inductive UsageError where
  | help
  | unknownArgument
  | unneededValue
  | emptyValue
  | missingSource
  | invalidValue
  | repeatedUse
deriving DecidableEq, Repr, Inhabited

namespace Options

/-- An option. -/
inductive Key where
  | budget | output | verbose | debug | help
deriving DecidableEq, Repr, Inhabited

namespace Key

/-- The option of a letter. -/
def ofLetter? : Char → Option Key
  | 'r' => some budget
  | 'o' => some output
  | 'v' => some verbose
  | 'h' => some help
  | _ => none

/-- The option of a word. -/
def ofWord? (word : String) : Option Key :=
  if word = "register-allocation" then some budget
  else if word = "output" then some output
  else if word = "verbose" then some verbose
  else if word = "debug" then some debug
  else if word = "help" then some help
  else none

/-- Whether an option has a value. -/
def takesValue : Key → Bool
  | budget | output => true
  | _ => false

end Key

/-- The uses of an option, with the values given. -/
structure Use where
  key : Key
  count : Nat
  values : List String
deriving DecidableEq, Repr, Inhabited

/-- What has been understood of a command line: the options in the order of their first use,
the source, the option whose value is to come, and whether only sources may follow. -/
structure Progress where
  uses : List Use
  source : Option String
  pending : Option Key
  sourcesOnly : Bool
deriving DecidableEq, Repr, Inhabited

namespace Progress

/-- Nothing understood yet. -/
def start : Progress := ⟨[], none, none, false⟩

/-- Notes a use of an option. -/
def use (p : Progress) (key : Key) : Progress :=
  if p.uses.any (·.key = key) then
    { p with uses := p.uses.map fun u => if u.key = key then { u with count := u.count + 1 } else u }
  else { p with uses := p.uses ++ [⟨key, 1, []⟩] }

/-- Notes a value of an option; none is to come any more. -/
def value (p : Progress) (key : Key) (v : String) : Progress :=
  { p with
    uses := p.uses.map fun u => if u.key = key then { u with values := u.values ++ [v] } else u
    pending := none }

/-- Notes a source; there is only one. -/
def takeSource (p : Progress) (arg : String) : Except UsageError Progress :=
  if p.source.isSome then .error .unknownArgument
  else .ok { p with source := some arg, pending := none }

/-- Understands an option written by a word, with the value attached to it. -/
def takeWord (p : Progress) (word : String) (attached : Option String) :
    Except UsageError Progress :=
  match Key.ofWord? word with
  | none => .error .unknownArgument
  | some key =>
      match attached, key.takesValue with
      | some v, true => .ok ((p.use key).value key v)
      | none, true => .ok { p.use key with pending := some key }
      | some _, false => .error .unneededValue
      | none, false =>
          if key = .help then .error .help else .ok { p.use key with pending := none }

/-- Understands options written by letters; what follows an option with a value is its value,
perhaps after an equals sign. -/
def takeLetters (p : Progress) : List Char → Except UsageError Progress
  | [] => .ok p
  | c :: cs =>
      match Key.ofLetter? c with
      | none => .error .unknownArgument
      | some .help => .error .help
      | some key =>
          if key.takesValue then
            match cs with
            | [] => .ok { p.use key with pending := some key }
            | '=' :: v => .ok ((p.use key).value key (String.ofList v))
            | v => .ok ((p.use key).value key (String.ofList v))
          else takeLetters { p.use key with pending := none } cs

/-- Understands an argument that is not the value of the budget. -/
def takeArgument (p : Progress) (arg : String) : Except UsageError Progress :=
  match arg.toList with
  | ['-', '-'] => .ok { p with sourcesOnly := true }
  | '-' :: '-' :: cs =>
      let word := cs.takeWhile (· ≠ '=')
      let attached := (cs.drop word.length).tail?.map String.ofList
      p.takeWord (String.ofList word) attached
  | '-' :: c :: cs => p.takeLetters (c :: cs)
  | _ =>
      match p.pending with
      | some key => .ok (p.value key arg)
      | none => p.takeSource arg

/-- Understands the next argument. -/
def take (p : Progress) (arg : String) : Except UsageError Progress :=
  if p.sourcesOnly then p.takeSource arg
  else if p.pending = some .budget then .ok (p.value .budget arg)
  else p.takeArgument arg

/-- The values given for an option. -/
def valuesOf (p : Progress) (key : Key) : List String :=
  (p.uses.filter (·.key = key)).flatMap Use.values

/-- Whether an option is used. -/
def isUsed (p : Progress) (key : Key) : Bool := p.uses.any (·.key = key)

end Progress

/-- What is wrong with the uses of an option. -/
def Use.fault? (u : Use) : Option UsageError :=
  if u.key.takesValue && u.values.isEmpty then some .emptyValue
  else if u.key = .budget && u.values.any fun v => (Text.integer? 32 v).isNone then
    some .invalidValue
  else if 1 < u.count then some .repeatedUse
  else none

/-- The options of a command line that has been understood. -/
def ofProgress (p : Progress) : Except UsageError Options :=
  if p.pending.any fun key => (p.valuesOf key).isEmpty then .error .emptyValue
  else
    match p.source with
    | none => .error .missingSource
    | some source =>
        match p.uses.findSome? Use.fault? with
        | some e => .error e
        | none => .ok {
            budget := ((p.valuesOf .budget).head?.bind (Text.integer? 32)).getD (-1)
            output := (p.valuesOf .output).head?
            verbose := p.isUsed .verbose
            debug := p.isUsed .debug
            source := source
          }

/-- The options of a command line. -/
def ofArgs (args : List String) : Except UsageError Options := do
  ofProgress (← args.foldlM Progress.take .start)

end Options

end StackBackend
