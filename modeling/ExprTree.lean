import ExprTree.Edit.Shift
import ExprTree.Parse
import ExprTree.Version
import ExprTree.Proofs.Text.Pieces
import ExprTree.Proofs.Language
import ExprTree.Proofs.RoundTrip
import ExprTree.Proofs.BinarySplit
import ExprTree.Proofs.Meaning
import ExprTree.Proofs.Navigation
import ExprTree.Proofs.Rearranging
import ExprTree.Proofs.Root
import ExprTree.Proofs.NormalForm
import ExprTree.Proofs.Rejection
import ExprTree.Proofs.Safety
import ExprTree.Proofs.Nesting
import ExprTree.Proofs.Records
import ExprTree.Proofs.Copying
import ExprTree.Proofs.Shifting
import ExprTree.Proofs.Attaching
import ExprTree.Proofs.Exchanging
import ExprTree.Proofs.Splicing
import ExprTree.Proofs.Handles
import ExprTree.Proofs.Tokens
import ExprTree.Proofs.Outline
import ExprTree.Proofs.Splitting
import ExprTree.Proofs.Pairing
