import RowAwk.Main
import RowAwk.Proofs.Nesting
import RowAwk.Proofs.Modifiers
import RowAwk.Proofs.RowHead
import RowAwk.Proofs.GroupRuns
import RowAwk.Proofs.GroupOrder
import RowAwk.Proofs.Renderings
import RowAwk.Proofs.ShellWords
import RowAwk.Proofs.Splitting
import RowAwk.Proofs.Outputs
import RowAwk.Proofs.Choices
import RowAwk.Proofs.TimeFormats
import RowAwk.Proofs.Preambles
import RowAwk.Proofs.Arguments
import RowAwk.Proofs.Directives
import RowAwk.Proofs.Contexts
import RowAwk.Proofs.Substitution
import RowAwk.Proofs.Injectivity
