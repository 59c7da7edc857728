import Reckoner.Main
import Reckoner.Proofs.Chain
import Reckoner.Proofs.Exchange
import Reckoner.Proofs.Inorder
import Reckoner.Proofs.Legible
import Reckoner.Proofs.Munching
import Reckoner.Proofs.Rereading
import Reckoner.Proofs.Spacing
import Reckoner.Proofs.Stages
import Reckoner.Proofs.Parentheses
import Reckoner.Proofs.Limits
import Reckoner.Proofs.Answers
import Reckoner.Proofs.Continuation
import Reckoner.Proofs.Signs
import Reckoner.Proofs.Insertion
import Reckoner.Proofs.Machine
import Reckoner.Proofs.Unambiguous
import Reckoner.Proofs.Alike
import Reckoner.Proofs.Worksheets
import Reckoner.Proofs.Factorial
import Reckoner.Proofs.Closing
import Reckoner.Proofs.Cursor
import Reckoner.Proofs.Counts
