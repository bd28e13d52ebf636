import DavisPutnam.Word
import DavisPutnam.Numeral
import DavisPutnam.Fault
import DavisPutnam.Literal
import DavisPutnam.Formula
import DavisPutnam.Formula.Text
import DavisPutnam.Model
import DavisPutnam.Assignment
import DavisPutnam.Semantics
import DavisPutnam.Simplify.Residual
import DavisPutnam.Simplify.Polarity
import DavisPutnam.Log
import DavisPutnam.Search.Journal
import DavisPutnam.Search.Node
import DavisPutnam.Search.Run
import DavisPutnam.Search.Recursive
import DavisPutnam.Enumeration
import DavisPutnam.Problem
import DavisPutnam.Session
import DavisPutnam.Dimacs.Error
import DavisPutnam.Dimacs.Token
import DavisPutnam.Dimacs.Reader
import DavisPutnam.Cli.Report
import DavisPutnam.Shell.Logger
import DavisPutnam.Shell.Request
import DavisPutnam.Main
import DavisPutnam.Proofs.Propagation
import DavisPutnam.Proofs.PureLiterals
import DavisPutnam.Proofs.Expansion
import DavisPutnam.Proofs.Reachability
import DavisPutnam.Proofs.Exploration
import DavisPutnam.Proofs.Refinement
import DavisPutnam.Proofs.Correctness
import DavisPutnam.Proofs.Safety
import DavisPutnam.Proofs.Bindings
import DavisPutnam.Proofs.Dimacs.Format
import DavisPutnam.Proofs.Dimacs.Acceptance
import DavisPutnam.Proofs.Dimacs.Text
import DavisPutnam.Proofs.Dimacs.RoundTrip
import DavisPutnam.Proofs.Dimacs.Remainder
import DavisPutnam.Proofs.Construction
import DavisPutnam.Proofs.Lineage
import DavisPutnam.Proofs.Journal
import DavisPutnam.Proofs.Accounting
import DavisPutnam.Proofs.Certificate
import DavisPutnam.Proofs.Cli.Output
import DavisPutnam.Proofs.Cli.Verdict
import DavisPutnam.Proofs.Frontier
import DavisPutnam.Proofs.Bounds
import DavisPutnam.Proofs.Refutation
import DavisPutnam.Proofs.FalseAtoms
import DavisPutnam.Proofs.Simulation
import DavisPutnam.Proofs.Presentation
import DavisPutnam.Proofs.Padding
import DavisPutnam.Proofs.Enumeration
import DavisPutnam.Proofs.Outcome
import DavisPutnam.Proofs.Clearing
import DavisPutnam.Proofs.Elimination
import DavisPutnam.Proofs.ExclusivePairs
import DavisPutnam.Proofs.UniqueReading
import DavisPutnam.Proofs.SignedForms
