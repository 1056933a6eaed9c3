import DeskCalculator.Completion
import DeskCalculator.Main
import DeskCalculator.Proofs.Compilation
import DeskCalculator.Proofs.Supported
import DeskCalculator.Proofs.Context
import DeskCalculator.Proofs.Run
import DeskCalculator.Proofs.Building
import DeskCalculator.Proofs.Coherence
import DeskCalculator.Proofs.ValueStack
import DeskCalculator.Proofs.Formula
import DeskCalculator.Proofs.Binding
import DeskCalculator.Proofs.Infix
import DeskCalculator.Proofs.Parentheses
import DeskCalculator.Proofs.Shape
import DeskCalculator.Proofs.Bits
import DeskCalculator.Proofs.Nearest
import DeskCalculator.Proofs.Literal
import DeskCalculator.Proofs.Wording
import DeskCalculator.Proofs.Deriving
import DeskCalculator.Proofs.Printing
import DeskCalculator.Proofs.Rereading
import DeskCalculator.Proofs.Refusal
import DeskCalculator.Proofs.Growth
import DeskCalculator.Proofs.Finite
import DeskCalculator.Proofs.SignedZero
import DeskCalculator.Proofs.Faithful
import DeskCalculator.Proofs.Configuration
import DeskCalculator.Proofs.Alike
import DeskCalculator.Proofs.Afresh
import DeskCalculator.Proofs.Pushing
import DeskCalculator.Proofs.Separators
import DeskCalculator.Proofs.Taping
import DeskCalculator.Proofs.Retyping
import DeskCalculator.Proofs.Depth
import DeskCalculator.Proofs.Library
import DeskCalculator.Proofs.Normalized
import DeskCalculator.Proofs.Defects
import DeskCalculator.Proofs.Replay
import DeskCalculator.Proofs.Undoing
import DeskCalculator.Proofs.Dropping
import DeskCalculator.Proofs.Replacement
import DeskCalculator.Proofs.Rounding
import DeskCalculator.Proofs.Denotation
import DeskCalculator.Proofs.Closing
import DeskCalculator.Proofs.Rebasing
import DeskCalculator.Proofs.SettingKeys
import DeskCalculator.Proofs.Rendering
import DeskCalculator.Proofs.Reprinting
import DeskCalculator.Proofs.Listing
import DeskCalculator.Proofs.LastWord
import DeskCalculator.Proofs.Wrapping
import DeskCalculator.Proofs.Powers
import DeskCalculator.Proofs.Patterns
import DeskCalculator.Proofs.Grouping
import DeskCalculator.Proofs.Ordering
import DeskCalculator.Proofs.Significance
import DeskCalculator.Proofs.Finishing
