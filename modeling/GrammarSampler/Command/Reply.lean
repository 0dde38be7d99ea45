import GrammarSampler.Command.Request
import GrammarSampler.File

/-!
# Replies

What is printed on a command line, and with which code the program ends.
-/

namespace GrammarSampler.Command

structure Reply where
  /-- What is printed, without the message of the fault. -/
  output : String := ""
  /-- Why the program stops before its end. -/
  fault : Option Fault := none
  deriving DecidableEq, Repr

/-- Zero if all went well, and one after a fault. -/
def Reply.code (r : Reply) : Nat := if r.fault.isSome then 1 else 0

def Options.config (o : Options) : Config where
  startSymbol := o.start.getD Config.usual.startSymbol
  maxDepth := o.maxDepth.getD Config.usual.maxDepth
  strategy := o.strategy.getD Config.usual.strategy
  nodeLimit := o.nodeLimit
  strict := o.flags.contains .strict

def Options.grammar (o : Options) (read : String → Except FileFault ByteArray) :
    Except Fault Grammar :=
  match o.file with
  | some path => Grammar.ofFile path (read path)
  | none => .ok .arithmetic

/-- Prints `count` texts, each on a line, from one source; the first fault ends the printing. -/
def printTexts (s : Sampler) : Nat → Source → Option Reply
  | 0, _ => some {}
  | count + 1, source =>
    match s.sampleStart source with
    | none => none
    | some (.error fault, _) => some { fault }
    | some (.ok text, after) =>
      (printTexts s count after).map fun reply =>
        { reply with output := text ++ "\n" ++ reply.output }

def showExample : Format → String
  | .listing => Grammar.arithmetic.listing
  | .json => Grammar.arithmetic.jsonText ++ "\n"

def usage : String :=
  "usage: [FILE] [-s START] [-n COUNT] [-d DEPTH] [--strategy queue|recursive]\n" ++
  "         [--seed SEED] [--node-limit LIMIT] [--strict] [--costs] [-v]\n" ++
  "       example [--format text|json]\n" ++
  "       help [example]\n"

/--
The reply to a request, where `read` reads a path and `chance` serves if no seed is given; none if
a derivation never ends.
-/
def Request.reply (read : String → Except FileFault ByteArray) (chance : Source) :
    Request → Option Reply
  | .example format => some { output := showExample format }
  | .help => some { output := usage }
  | .sample o =>
    match (o.grammar read).bind fun g => Sampler.ofGrammar g o.config with
    | .error fault => some { fault }
    | .ok s =>
      if o.flags.contains .costs then some { output := s.costs.toJson.pretty ++ "\n" }
      else
        let source := match o.seed with
          | some seed => Source.ofSeed seed.toUInt64
          | none => chance
        printTexts s (o.count.getD 1) source

end GrammarSampler.Command
