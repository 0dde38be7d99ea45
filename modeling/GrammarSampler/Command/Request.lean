import GrammarSampler.Sampler

/-!
# Command lines

What the words of a command line ask for. An option may be given once, in any order, with its value
in the same word or in the next; after two dashes every word names a file. The words `example` and
`help` are commands, which end the options.
-/

namespace GrammarSampler.Command

inductive Key where
  | start
  | count
  | maxDepth
  | strategy
  | seed
  | nodeLimit
  deriving DecidableEq, Repr

inductive Flag where
  | strict
  | costs
  | verbose
  deriving DecidableEq, Repr

inductive Format where
  | listing
  | json
  deriving DecidableEq, Repr, Inhabited

structure Options where
  start : Option String := none
  count : Option Nat := none
  maxDepth : Option Nat := none
  strategy : Option Strategy := none
  seed : Option Nat := none
  nodeLimit : Option Nat := none
  flags : List Flag := []
  file : Option String := none
  deriving DecidableEq, Repr, Inhabited

inductive Request where
  | sample (options : Options)
  | example (format : Format)
  | help
  deriving DecidableEq, Repr

/-! ## Values -/

/-- The number of at most 64 bits that decimal digits spell, after a plus or without it. -/
def number? (s : String) : Option Nat :=
  let digits := match s.toList with
    | '+' :: digits => digits
    | digits => digits
  let value := Nat.ofDigitChars 10 digits 0
  if !digits.isEmpty && digits.all Char.isDigit && value < 1 <<< 64 then some value else none

def Format.ofName? (name : String) : Option Format :=
  if name = "text" then some .listing else if name = "json" then some .json else none

/-- A value for a slot that has none. -/
def once {α : Type} (slot value : Option α) : Option (Option α) :=
  match slot with
  | some _ => none
  | none => value.map some

namespace Options

def set? (o : Options) (key : Key) (value : String) : Option Options :=
  match key with
  | .start => (once o.start (some value)).map fun start => { o with start }
  | .count => (once o.count (number? value)).map fun count => { o with count }
  | .maxDepth => (once o.maxDepth (number? value)).map fun maxDepth => { o with maxDepth }
  | .strategy => (once o.strategy (Strategy.ofName? value)).map fun strategy => { o with strategy }
  | .seed => (once o.seed (number? value)).map fun seed => { o with seed }
  | .nodeLimit => (once o.nodeLimit (number? value)).map fun nodeLimit => { o with nodeLimit }

def addFlag? (o : Options) (flag : Flag) : Option Options :=
  if flag ∈ o.flags then none else some { o with flags := flag :: o.flags }

/-- Adds the file, of which there is one and whose path is not empty. -/
def setFile? (o : Options) (path : String) : Option Options :=
  if path.isEmpty then none else (once o.file (some path)).map fun file => { o with file }

end Options

/-! ## Words -/

/-- Whether a word starts an option, or ends the options. -/
def isOption (word : String) : Bool :=
  match word.toList with
  | '-' :: _ :: _ => true
  | _ => false

def Key.ofName? (name : List Char) : Option Key :=
  let name := String.ofList name
  if name = "start" then some .start
  else if name = "count" then some .count
  else if name = "max-depth" then some .maxDepth
  else if name = "strategy" then some .strategy
  else if name = "seed" then some .seed
  else if name = "node-limit" then some .nodeLimit
  else none

def Flag.ofName? (name : List Char) : Option Flag :=
  let name := String.ofList name
  if name = "strict" then some .strict
  else if name = "costs" then some .costs
  else if name = "verbose" then some .verbose
  else none

def Key.ofLetter? (c : Char) : Option Key :=
  if c = 's' then some .start
  else if c = 'n' then some .count
  else if c = 'd' then some .maxDepth
  else none

def Flag.ofLetter? (c : Char) : Option Flag := if c = 'v' then some .verbose else none

/-- What a word of options says: flags, and then perhaps an option with its value or without. -/
structure Clause where
  flags : List Flag
  setting : Option (Key × Option String)
  deriving DecidableEq, Repr

/-- The name before the first equals sign, and the value after it if there is one. -/
def splitValue (word : List Char) : List Char × Option String :=
  match word.dropWhile (· != '=') with
  | [] => (word, none)
  | _ :: value => (word.takeWhile (· != '='), some (String.ofList value))

def longClause? (word : List Char) : Option Clause :=
  let (name, value) := splitValue word
  match Key.ofName? name, Flag.ofName? name, value with
  | some key, _, value => some ⟨[], some (key, value)⟩
  | none, some flag, none => some ⟨[flag], none⟩
  | none, _, _ => none

/-- The clause of letters after one dash. What follows the letter of an option is its value. -/
def shortClause? : List Char → Option Clause
  | [] => some ⟨[], none⟩
  | c :: rest =>
    match Key.ofLetter? c, Flag.ofLetter? c with
    | some key, _ =>
      match rest with
      | [] => some ⟨[], some (key, none)⟩
      | '=' :: value => some ⟨[], some (key, some (String.ofList value))⟩
      | value => some ⟨[], some (key, some (String.ofList value))⟩
    | none, some flag =>
      (shortClause? rest).map fun clause => { clause with flags := flag :: clause.flags }
    | none, none => none

def clause? (word : String) : Option Clause :=
  match word.toList with
  | '-' :: '-' :: name => longClause? name
  | '-' :: letters => shortClause? letters
  | _ => none

/-! ## Lines -/

def readFiles? (o : Options) : List String → Option Options
  | [] => some o
  | path :: more => (o.setFile? path).bind fun o => readFiles? o more

def readFormat? (given : Option Format) : List String → Option Format
  | [] => some (given.getD .listing)
  | word :: more =>
    if word = "--" then if more.isEmpty then some (given.getD .listing) else none
    else match splitValue word.toList with
      | (name, some value) =>
        if name = "--format".toList then
          (once given (Format.ofName? value)).bind fun given => readFormat? given more
        else none
      | (name, none) =>
        if name = "--format".toList then
          match more with
          | value :: more =>
            (once given (Format.ofName? value)).bind fun given => readFormat? given more
          | [] => none
        else none

def readTopic? : List String → Option Request
  | [] => some .help
  | [topic] => if topic = "example" ∨ topic = "help" then some .help else none
  | _ => none

def read? (o : Options) : List String → Option Request
  | [] => some (.sample o)
  | word :: more =>
    if word = "--" then (readFiles? o more).map .sample
    else if word = "example" then (readFormat? none more).map .example
    else if word = "help" then readTopic? more
    else if isOption word then
      (clause? word).bind fun clause =>
        (clause.flags.foldlM Options.addFlag? o).bind fun o =>
          match clause.setting with
          | none => read? o more
          | some (key, some value) => (o.set? key value).bind fun o => read? o more
          | some (key, none) =>
            match more with
            | [] => none
            | value :: more =>
              if isOption value then none else (o.set? key value).bind fun o => read? o more
    else (o.setFile? word).bind fun o => read? o more

/-- What a command line asks for; none if it is not understood. -/
def Request.ofArguments? (arguments : List String) : Option Request := read? {} arguments

end GrammarSampler.Command
