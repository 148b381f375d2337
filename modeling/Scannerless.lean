import Scannerless.Reading.Interpreter
import Scannerless.Reading.Filter
import Scannerless.Forest.PackingText
import Scannerless.Forest.Count
import Scannerless.Forest.Sharing
import Scannerless.Grammar.Example
import Scannerless.Parsing
import Scannerless.Text.Numeral
import Scannerless.Proofs.BuildOrder
import Scannerless.Proofs.Agenda
import Scannerless.Proofs.ChartClosure
import Scannerless.Proofs.MadeNodes
import Scannerless.Proofs.Policies
import Scannerless.Proofs.EndOfInput
import Scannerless.Proofs.DistinctTrees
import Scannerless.Proofs.GuardedPacking
import Scannerless.Proofs.Lookahead
import Scannerless.Proofs.WellFormed
import Scannerless.Proofs.SeparatedLists
import Scannerless.Proofs.HiddenWiring
import Scannerless.Proofs.FirstDefect
import Scannerless.Proofs.ListLabels
import Scannerless.Proofs.SealedFragments
import Scannerless.Proofs.Readings
import Scannerless.Proofs.SameReadings
import Scannerless.Proofs.HandlerCalls
import Scannerless.Proofs.HandlerArguments
import Scannerless.Proofs.OpenAmbiguities
import Scannerless.Proofs.Disambiguation
import Scannerless.Proofs.CompleteHandlers
import Scannerless.Proofs.NestedPacking
import Scannerless.Proofs.SlotWalks
import Scannerless.Proofs.CharacterClasses
import Scannerless.Proofs.SlotAutomaton
import Scannerless.Proofs.ListParts
import Scannerless.Proofs.Merging
import Scannerless.Proofs.ImplicitNodes
import Scannerless.Proofs.SententialForms
import Scannerless.Proofs.ImpliedLists
import Scannerless.Proofs.ForestGraphs
