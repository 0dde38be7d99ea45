import GrammarSampler.Derivation
import GrammarSampler.Engine.Lemmas
import GrammarSampler.File
import GrammarSampler.Grammar.Lemmas
import GrammarSampler.Main
import GrammarSampler.Proofs.Command.Runs
import GrammarSampler.Proofs.Config.Json
import GrammarSampler.Proofs.Engine.Agreement
import GrammarSampler.Proofs.Engine.Arenas
import GrammarSampler.Proofs.Engine.Budget
import GrammarSampler.Proofs.Engine.Choice
import GrammarSampler.Proofs.Engine.Invariance
import GrammarSampler.Proofs.Engine.Language
import GrammarSampler.Proofs.Engine.Numbering
import GrammarSampler.Proofs.Engine.Outcome
import GrammarSampler.Proofs.Engine.UnderLimit
import GrammarSampler.Proofs.Grammar.Json
import GrammarSampler.Proofs.Grammar.Log
import GrammarSampler.Proofs.Listing.Format
import GrammarSampler.Proofs.Listing.Relaid
import GrammarSampler.Proofs.Listing.RoundTrip
import GrammarSampler.Proofs.Listing.Unclosed
import GrammarSampler.Proofs.Sampler.Accepted
import GrammarSampler.Sampler
