import Castellano.Json.Decoding
import Castellano.Main
import Castellano.Proofs.Agreement.Compatible
import Castellano.Proofs.Agreement.ReadingOrder
import Castellano.Proofs.Analysis.Tokens
import Castellano.Proofs.Analysis.Validity
import Castellano.Proofs.Automaton.Completions
import Castellano.Proofs.Automaton.Continuations
import Castellano.Proofs.Automaton.Statistics
import Castellano.Proofs.Automaton.Typing
import Castellano.Proofs.CommandLine.ExitCode
import Castellano.Proofs.Composition.Provenance
import Castellano.Proofs.Composition.Refusals
import Castellano.Proofs.Composition.Sentences
import Castellano.Proofs.Parse.Ambiguity
import Castellano.Proofs.Parse.Blame
import Castellano.Proofs.Vocabulary.Loading
import Castellano.Proofs.Vocabulary.Precedence
import Castellano.Proofs.Analysis.Spelling
import Castellano.Proofs.Vocabulary.Concatenation
import Castellano.Proofs.Vocabulary.Writing
import Castellano.Proofs.Grammar.Rendering
import Castellano.Proofs.Analysis.Renaming
import Castellano.Proofs.Composition.Hints
import Castellano.Proofs.Stage.Scattered
import Castellano.Proofs.Automaton.Rooted
