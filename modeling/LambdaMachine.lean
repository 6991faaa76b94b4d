import LambdaMachine.Arena.Basic
import LambdaMachine.Arena.Grafting
import LambdaMachine.Arena.Lemmas
import LambdaMachine.Arena.Redex
import LambdaMachine.Arena.Substitution
import LambdaMachine.Arena.Traversal
import LambdaMachine.Arena.Tree
import LambdaMachine.Arena.Layout
import LambdaMachine.Atom
import LambdaMachine.CommandLine
import LambdaMachine.Host.Basic
import LambdaMachine.Host.Console
import LambdaMachine.Host.Script
import LambdaMachine.Machine.Basic
import LambdaMachine.Machine.Evaluation
import LambdaMachine.Machine.Failure
import LambdaMachine.Machine.Fuel
import LambdaMachine.Machine.Run
import LambdaMachine.Machine.Step
import LambdaMachine.Main
import LambdaMachine.Numeral.Church
import LambdaMachine.Numeral.Counting
import LambdaMachine.Numeral.Value
import LambdaMachine.Source.Excerpt
import LambdaMachine.Source.Grammar
import LambdaMachine.Source.Listing
import LambdaMachine.Source.Parser
import LambdaMachine.Source.Position
import LambdaMachine.Source.SyntaxError
import LambdaMachine.Source.Token
import LambdaMachine.Term.Basic
import LambdaMachine.Term.Evaluation
import LambdaMachine.Term.Substitution
import LambdaMachine.Utf8.Assembler
import LambdaMachine.Utf8.Block
import LambdaMachine.Utf8.ShortForm
import LambdaMachine.Utf8.Splitter
import LambdaMachine.Proofs.Exchange
import LambdaMachine.Proofs.Finishing
import LambdaMachine.Proofs.Trees
import LambdaMachine.Proofs.Contraction
import LambdaMachine.Proofs.Building
import LambdaMachine.Proofs.Stages
import LambdaMachine.Proofs.Divergence
import LambdaMachine.Proofs.Layers
import LambdaMachine.Proofs.Counting
import LambdaMachine.Proofs.Parsing
import LambdaMachine.Proofs.Calls
import LambdaMachine.Proofs.Listing
import LambdaMachine.Proofs.Positions
import LambdaMachine.Proofs.Reductions
import LambdaMachine.Proofs.Stepping
import LambdaMachine.Proofs.Links
import LambdaMachine.Proofs.Driving
import LambdaMachine.Proofs.Sessions
import LambdaMachine.Proofs.Reachable
import LambdaMachine.Proofs.Running
import LambdaMachine.Proofs.Hosts
import LambdaMachine.Proofs.ShortForms
import LambdaMachine.Proofs.Assembling
import LambdaMachine.Proofs.Rereading
import LambdaMachine.Proofs.Contracting
import LambdaMachine.Proofs.Budgets
import LambdaMachine.Proofs.Faultless
import LambdaMachine.Proofs.Relaying
import LambdaMachine.Proofs.Echoing
import LambdaMachine.Proofs.Inputs
import LambdaMachine.Proofs.Recording
import LambdaMachine.Proofs.Alike
import LambdaMachine.Proofs.Showing
import LambdaMachine.Proofs.Twins
import LambdaMachine.Proofs.Resuming
import LambdaMachine.Proofs.Edits
import LambdaMachine.Proofs.Forests
import LambdaMachine.Proofs.Remnants
import LambdaMachine.Proofs.Integrity
import LambdaMachine.Proofs.Accounting
import LambdaMachine.Proofs.Splitting
import LambdaMachine.Proofs.Failing
import LambdaMachine.Proofs.Unshifted
import LambdaMachine.Proofs.Occurrences
import LambdaMachine.Proofs.Places
import LambdaMachine.Proofs.Beginnings
import LambdaMachine.Proofs.Rejecting
import LambdaMachine.Proofs.Unfolding
import LambdaMachine.Proofs.Arithmetic
import LambdaMachine.Proofs.RoundTrips
import LambdaMachine.Proofs.Costs
import LambdaMachine.Proofs.Agreement
import LambdaMachine.Proofs.Blocks
import LambdaMachine.Proofs.Excerpts
import LambdaMachine.Proofs.Highlighting
