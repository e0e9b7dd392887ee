import HgToGit.FileTree
import HgToGit.Invocation.Step
import HgToGit.Main
import HgToGit.Proofs.Access
import HgToGit.Proofs.Aliases
import HgToGit.Proofs.AlignedColumns
import HgToGit.Proofs.ArgumentPlaces
import HgToGit.Proofs.BookmarkTable
import HgToGit.Proofs.ByteOrder
import HgToGit.Proofs.FirstFault
import HgToGit.Proofs.FirstPlace
import HgToGit.Proofs.GroupOrder
import HgToGit.Proofs.History
import HgToGit.Proofs.LineByLine
import HgToGit.Proofs.NeutralSettings
import HgToGit.Proofs.OptionPlaces
import HgToGit.Proofs.Overrides
import HgToGit.Proofs.QuotedContent
import HgToGit.Proofs.RebaseTable
import HgToGit.Proofs.RegistryEdits
import HgToGit.Proofs.Rendering
import HgToGit.Proofs.ResolvedLine
import HgToGit.Proofs.RevisionLines
import HgToGit.Proofs.Steering
import HgToGit.Proofs.StepsApart
import HgToGit.Proofs.StreamParts
import HgToGit.Proofs.Substitution
import HgToGit.Proofs.Wording
