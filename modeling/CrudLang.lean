import CrudLang.Main
import CrudLang.Syntax.Outline
import CrudLang.Proofs.Grammar.Derivation
import CrudLang.Proofs.Grammar.Printing
import CrudLang.Proofs.Isolation.Content
import CrudLang.Proofs.Token.MaximalMunch
import CrudLang.Proofs.Scope.Visiting
import CrudLang.Proofs.Analysis.Layout
import CrudLang.Proofs.Analysis.Stages
import CrudLang.Proofs.Comparison.Resynchronization
import CrudLang.Proofs.Scope.Consistency
import CrudLang.Proofs.Scope.Environments
import CrudLang.Proofs.Analysis.Gating
import CrudLang.Proofs.Analysis.Labels
import CrudLang.Proofs.Detection.Earliest
import CrudLang.Proofs.Recovery.Once
import CrudLang.Proofs.Scope.Nesting
import CrudLang.Proofs.Token.Locality
import CrudLang.Proofs.Grammar.Blocks
import CrudLang.Proofs.Recovery.Alternatives
import CrudLang.Proofs.Recovery.Reporting
import CrudLang.Proofs.Grammar.Errors
import CrudLang.Proofs.Recovery.Sequence
import CrudLang.Proofs.Recovery.SourceOrder
import CrudLang.Proofs.Messages.Diagnostics
import CrudLang.Proofs.Recovery.Covered
import CrudLang.Proofs.Grammar.Spans
import CrudLang.Proofs.Scope.Accounting
import CrudLang.Proofs.Comparison.Operators
import CrudLang.Proofs.Grammar.Separators
import CrudLang.Proofs.Source.LineNumbers
import CrudLang.Proofs.Token.SourceForm
import CrudLang.Proofs.Recovery.Progress
import CrudLang.Proofs.CommandLine.Outcome
