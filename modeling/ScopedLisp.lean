import ScopedLisp.Main
import ScopedLisp.Proofs.Environment.Operations
import ScopedLisp.Proofs.Evaluation.Application
import ScopedLisp.Proofs.Evaluation.Parameters
import ScopedLisp.Proofs.Irrelevance.Evaluation
import ScopedLisp.Proofs.Numeral.Display
import ScopedLisp.Proofs.Printing.Normalization
import ScopedLisp.Proofs.Printing.Unambiguity
import ScopedLisp.Proofs.Procedure.Regrouping
import ScopedLisp.Proofs.Reader.Numbers
import ScopedLisp.Proofs.Reader.Places
import ScopedLisp.Proofs.Reader.Resumption
import ScopedLisp.Proofs.Reader.Termination
import ScopedLisp.Proofs.Renaming.Calls
import ScopedLisp.Proofs.Scoping.Safety
import ScopedLisp.Proofs.Session.Depth
import ScopedLisp.Proofs.Session.EntryPoints
import ScopedLisp.Proofs.Session.Independence
import ScopedLisp.Proofs.Session.Provenance
import ScopedLisp.Proofs.Session.Quoting
import ScopedLisp.Proofs.Shell.Dialogue
import ScopedLisp.Proofs.SpecialForm.Checks
import ScopedLisp.Proofs.StoreFree.Agreement
import ScopedLisp.Proofs.Substitution.Beta
import ScopedLisp.Store.Inspection
