import RecordFilter.Main
import RecordFilter.Proofs.Nest
import RecordFilter.Proofs.Numbering
import RecordFilter.Proofs.Keywords
import RecordFilter.Proofs.Spelling
import RecordFilter.Proofs.Operands
import RecordFilter.Proofs.Build
import RecordFilter.Proofs.Reading
import RecordFilter.Proofs.Resolution
import RecordFilter.Proofs.Grammar
import RecordFilter.Proofs.Printing
import RecordFilter.Proofs.Tokens
import RecordFilter.Proofs.References
import RecordFilter.Proofs.Restriction
import RecordFilter.Proofs.Paging
import RecordFilter.Proofs.Passes
import RecordFilter.Proofs.Store
import RecordFilter.Proofs.Progress
import RecordFilter.Proofs.Meaning
import RecordFilter.Proofs.Composition
import RecordFilter.Proofs.Expansion
import RecordFilter.Proofs.Construction
import RecordFilter.Proofs.Atomicity
import RecordFilter.Proofs.Edits
import RecordFilter.Proofs.Places
import RecordFilter.Proofs.Balance
import RecordFilter.Proofs.Cutting
import RecordFilter.Proofs.Evaluation
import RecordFilter.Proofs.Rendering
import RecordFilter.Proofs.Placeholders
import RecordFilter.Proofs.WrittenForm
import RecordFilter.Proofs.Drawing
import RecordFilter.Proofs.EditDistance
import RecordFilter.Proofs.Hint
import RecordFilter.Proofs.Consistency
import RecordFilter.Proofs.JsonForm
import RecordFilter.Proofs.Colors
import RecordFilter.Proofs.NumericOrder
import RecordFilter.Proofs.Faults
import RecordFilter.Proofs.Quotes
import RecordFilter.Proofs.Branches
import RecordFilter.Proofs.Spans
