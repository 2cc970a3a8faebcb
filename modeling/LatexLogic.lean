import LatexLogic.Main
import LatexLogic.Proofs.Binding.Discipline
import LatexLogic.Proofs.Binding.FirstFree
import LatexLogic.Proofs.Binding.FreeOrder
import LatexLogic.Proofs.Binding.Postorder
import LatexLogic.Proofs.Binding.Restoring
import LatexLogic.Proofs.Command.Given
import LatexLogic.Proofs.Command.SyntaxFiles
import LatexLogic.Proofs.Cursor.Discipline
import LatexLogic.Proofs.Precedence.Connective
import LatexLogic.Proofs.Precedence.Function
import LatexLogic.Proofs.Precedence.Usable
import LatexLogic.Proofs.Reading.Variable
import LatexLogic.Proofs.Recovery.Eigenvariable
import LatexLogic.Proofs.Recovery.Interruption
import LatexLogic.Proofs.Recovery.Labelled
import LatexLogic.Proofs.Rendering.ArgumentCount
import LatexLogic.Proofs.Rendering.Enclosed
import LatexLogic.Proofs.Rendering.Parentheses
import LatexLogic.Proofs.Rendering.RoundTrip
import LatexLogic.Proofs.Session.Dialogue
import LatexLogic.Proofs.Table.Extend
import LatexLogic.Proofs.Table.Live
import LatexLogic.Proofs.Table.PlainForm
import LatexLogic.Proofs.Token.Spacing
