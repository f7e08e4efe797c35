import PlsqlLint.Check.Script
import PlsqlLint.Main
import PlsqlLint.Proofs.Adequacy
import PlsqlLint.Proofs.Lossless
import PlsqlLint.Proofs.Precedence
import PlsqlLint.Proofs.Completeness
import PlsqlLint.Proofs.Subtree
import PlsqlLint.Proofs.Lexing
import PlsqlLint.Proofs.Depth
import PlsqlLint.Proofs.Equality
import PlsqlLint.Proofs.Spelling
import PlsqlLint.Proofs.Walk
import PlsqlLint.Proofs.Isolation
import PlsqlLint.Proofs.Comparison
import PlsqlLint.Proofs.Reuse
import PlsqlLint.Proofs.Workers
import PlsqlLint.Proofs.Furthest
import PlsqlLint.Proofs.Locality
import PlsqlLint.Proofs.Attempt
import PlsqlLint.Proofs.Nesting
import PlsqlLint.Proofs.Layout
import PlsqlLint.Proofs.Spans
import PlsqlLint.Proofs.Structure
import PlsqlLint.Proofs.Template
import PlsqlLint.Proofs.Branch
import PlsqlLint.Proofs.Shortening
import PlsqlLint.Proofs.Refusal
import PlsqlLint.Proofs.Label
import PlsqlLint.Proofs.StringLiteral
import PlsqlLint.Proofs.ForUpdate
import PlsqlLint.Proofs.Choice
import PlsqlLint.Proofs.NumberLiteral
import PlsqlLint.Proofs.SourceOrder
import PlsqlLint.Proofs.ErrorPlace
import PlsqlLint.Proofs.Preorder
import PlsqlLint.Proofs.InBounds
import PlsqlLint.Proofs.Bookkeeping
import PlsqlLint.Proofs.FileList
import PlsqlLint.Proofs.Progress
import PlsqlLint.Proofs.OrderBy
