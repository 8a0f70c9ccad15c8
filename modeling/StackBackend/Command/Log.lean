import StackBackend.Command.Run

/-!
# The log of a command

The messages that are logged along the way. Each stage gives its result as a value, and the
events of a stage are read off that result. A command has the events of its stages in the order in
which they come about; without the debug flag it shows only the ones that matter more.
-/

namespace StackBackend

/-- How much an event matters. -/
inductive Level where
  | debug | info | warn
deriving DecidableEq, Repr, Inhabited

/-- The name of a level. -/
def Level.text : Level → String
  | debug => "DEBUG"
  | info => "INFO"
  | warn => "WARN"

/-- Something worth a message. -/
inductive Event where
  | parsed (method : String) (instrs vars : Nat)
  | undefinedLabel (label method : String)
  | converged (method : String) (passes : Nat)
  | interference (method graph : String)
  | spilled (name : String) (k slot : Nat)
  | entered (name method : String)
  | reported (r : Report)
  | allocating (unit : String) (k : Int)
  | generating (unit : String)
  | fused (count : Nat) (method : String)
deriving DecidableEq, Repr, Inhabited

namespace Event

/-- The level of an event. -/
def level : Event → Level
  | undefinedLabel .. => .warn
  | allocating .. | generating .. => .info
  | reported r => if r.isOverflow then .warn else .debug
  | parsed .. | converged .. | interference .. | spilled .. | entered .. | fused .. => .debug

/-- The message of an event. -/
def text : Event → String
  | parsed method instrs vars =>
      "parsed `" ++ method ++ "`: " ++ toString instrs ++ " instruction(s), " ++ toString vars
        ++ " variable(s)"
  | undefinedLabel label method => "label `" ++ label ++ "` is not defined in `" ++ method ++ "`"
  | converged method passes =>
      "liveness of `" ++ method ++ "` converged after " ++ toString passes ++ " pass(es)"
  | interference method graph => "interference graph of `" ++ method ++ "`:\n" ++ graph
  | spilled name k slot =>
      "`" ++ name ++ "` spills past the budget of " ++ toString k ++ " into slot "
        ++ toString slot
  | entered name method => "registering `" ++ name ++ "` as a local of `" ++ method ++ "`"
  | reported r => r.text
  | allocating unit k =>
      "allocating registers for `" ++ unit ++ "` (k = " ++ toString k ++ ")"
  | generating unit => "generating jasmin for `" ++ unit ++ "`"
  | fused count method => "fused " ++ toString count ++ " increment(s) in `" ++ method ++ "`"

/-- The line of an event in a log. -/
def line (e : Event) : String := e.level.text ++ " " ++ e.text

end Event

/-- The values before the first failure. -/
def succeeded {ε α : Type} : List (Except ε α) → List α
  | .ok a :: rest => a :: succeeded rest
  | _ => []

/-- The events of parsing a text: one for each method accepted before the first error. -/
def parseEvents (text : String) : List Event :=
  match readUnit text with
  | .error _ => []
  | .ok d =>
      (succeeded (d.methods.map (MethodDecl.check d.name))).map fun m =>
        .parsed m.name m.body.length m.vars.size

namespace Method

/-- The events of following the jumps of a method. -/
def flowEvents (m : Method) : List Event :=
  m.undefinedLabels.map fun label => .undefinedLabel label m.name

/-- The events of finding the live variables of a method. -/
def livenessEvents (m : Method) (live : Liveness) : List Event :=
  m.flowEvents ++ [.converged m.name live.passes]

end Method

/-- The events of coloring with a budget of `k` slots. -/
def Coloring.events (c : Coloring) (k : Nat) : List Event :=
  c.spilled.map fun x => .spilled x k (c.slots[x]?.getD 0)

/-- The events of allocating a method. -/
def MethodAllocation.events (a : MethodAllocation) : List Event :=
  a.method.livenessEvents a.live
    ++ .interference a.method.name a.graph.text :: a.coloring.events a.report.requested
    ++ a.entered.map (.entered · a.method.name)
    ++ [.reported a.report]

/-- The events of allocating a class. -/
def ClassAllocation.events (a : ClassAllocation) : List Event :=
  if a.budget < 0 then []
  else
    .allocating a.unit.name a.budget
      :: (a.methods.filterMap Prod.snd).flatMap MethodAllocation.events

namespace ClassUnit

/-- The events of the code of a method. -/
def methodCodeEvents (m : Method) (c : MethodCode) : List Event :=
  if c.fused = 0 then [] else [.fused c.fused m.name]

/-- The events of assembling a class: those of the methods before the first fault. -/
def codeEvents (u : ClassUnit) : List Event :=
  .generating u.name
    :: (u.codedMethods.zip (succeeded (u.codedMethods.map u.methodCode))).flatMap
      fun e => methodCodeEvents e.1 e.2

end ClassUnit

namespace Options

/-- The events of running a command on the text of its source. -/
def events (o : Options) (text : String) : List Event :=
  parseEvents text ++
    match parse text with
    | .error _ => []
    | .ok u =>
        let allocation := u.allocation o.budget
        allocation.events ++ allocation.result.codeEvents

/-- Whether a command shows events of the level. -/
def shows (o : Options) : Level → Bool
  | .debug => o.debug
  | .info | .warn => true

/-- The lines that a command logs. -/
def logLines (o : Options) (text : String) : List String :=
  ((o.events text).filter fun e => o.shows e.level).map Event.line

end Options

end StackBackend
