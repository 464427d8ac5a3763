import Redline.Main
import Redline.Session.Echo
import Redline.Proofs.Command.Printed
import Redline.Proofs.Command.Refusal
import Redline.Proofs.Diff.Context
import Redline.Proofs.Diff.Marks
import Redline.Proofs.Diff.Markup
import Redline.Proofs.Diff.Normal
import Redline.Proofs.Diff.Outline
import Redline.Proofs.Diff.Ranking
import Redline.Proofs.Diff.Reversal
import Redline.Proofs.Diff.Sides
import Redline.Proofs.Diff.Unchanged
import Redline.Proofs.Layer.Visiting
import Redline.Proofs.Session.Calls
import Redline.Proofs.Session.Continuation
import Redline.Proofs.Shell.Survival
import Redline.Proofs.Term.Breaking
import Redline.Proofs.Term.Pieces
import Redline.Proofs.Term.Progress
import Redline.Proofs.Term.Shortest
import Redline.Proofs.Term.Suggesting
import Redline.Proofs.Term.Surrounding
