import GrammarSampler.Text

/-!
# Faults

Why a grammar cannot be read, or a text cannot be derived from it.
-/

namespace GrammarSampler

inductive FileFault where
  | missing
  | isDirectory
  /-- The path goes on below something that is not a directory. -/
  | notDirectory
  | nameTooLong
  /-- The path holds the character zero, which ends a path where files are opened. -/
  | zeroInPath
  | notUtf8
  deriving DecidableEq, Repr

inductive Fault where
  | file (cause : FileFault)
  /-- A text grammar breaks off or does not have the form of rules; lines count from 1. -/
  | parse (line : Nat) (message : String)
  /-- The text is not JSON, or not JSON of the form asked for. -/
  | json
  | invalidGrammar (text : String)
  /-- A symbol in angle brackets has no entry, and the settings ask that it has one. -/
  | undefinedSymbol (symbol : String)
  /-- The symbol has an entry without rules. -/
  | emptyRuleSet (symbol : String)
  /-- Past the depth budget, no rule of the symbol leads to an end. -/
  | unproductive (symbol : String)
  /-- The tree has more than `limit` nodes. -/
  | nodeLimit (limit : Nat)
  deriving DecidableEq, Repr

/-! ## Messages -/

def FileFault.message : FileFault → String
  | .missing => "No such file or directory (os error 2)"
  | .isDirectory => "Is a directory (os error 21)"
  | .notDirectory => "Not a directory (os error 20)"
  | .nameTooLong => "File name too long (os error 36)"
  | .zeroInPath => "file name contained an unexpected NUL byte"
  | .notUtf8 => "stream did not contain valid UTF-8"

def Fault.message : Fault → String
  | .file cause => "IO error: " ++ cause.message
  | .parse line message => "Parse error on line " ++ toString line ++ ": " ++ message
  | .json => "Malformed grammar"
  | .invalidGrammar text => "Invalid grammar: " ++ text
  | .undefinedSymbol symbol => "Unknown non-terminal: " ++ symbol
  | .emptyRuleSet symbol => "Empty rule set: " ++ symbol
  | .unproductive symbol => "Unproductive symbol past depth budget: " ++ symbol
  | .nodeLimit limit => "Derivation exceeded node limit of " ++ toString limit

/-- The fault as a term: its kind, and in brackets what it is about. -/
def Fault.literal : Fault → String
  | .file cause => "Io(" ++ Text.literal cause.message ++ ")"
  | .parse line message =>
    "Parse \x7b line: " ++ toString line ++ ", message: " ++ Text.literal message ++ " \x7d"
  | .json => "Json"
  | .invalidGrammar text => "InvalidGrammar(" ++ Text.literal text ++ ")"
  | .undefinedSymbol symbol => "UnknownNonTerminal(" ++ Text.literal symbol ++ ")"
  | .emptyRuleSet symbol => "EmptyRuleSet(" ++ Text.literal symbol ++ ")"
  | .unproductive symbol => "Unproductive(" ++ Text.literal symbol ++ ")"
  | .nodeLimit limit => "NodeLimitExceeded(" ++ toString limit ++ ")"

/-- The fault of a rule key that is not in angle brackets. -/
def Fault.unbracketedKey (symbol : String) : Fault :=
  .invalidGrammar ("rule key `" ++ symbol ++ "` is not a <non-terminal>")

end GrammarSampler
