import MonoTap.Main
import MonoTap.Service.Routes
import MonoTap.Proofs.Denotation
import MonoTap.Proofs.Literals
import MonoTap.Proofs.Comments
import MonoTap.Proofs.Spelling
import MonoTap.Proofs.TreeRuns
import MonoTap.Proofs.MovedTexts
import MonoTap.Proofs.Inversion
import MonoTap.Proofs.VisitOrder
import MonoTap.Proofs.WalkInvariants
import MonoTap.Proofs.RespelledBodies
import MonoTap.Proofs.SimpleNames
import MonoTap.Proofs.CallbackNames
import MonoTap.Proofs.LiteralTypes
import MonoTap.Proofs.Repairs
import MonoTap.Proofs.Relocation
import MonoTap.Proofs.RelocatedCalls
import MonoTap.Proofs.RelocatedNames
import MonoTap.Proofs.RelocatedTypes
import MonoTap.Proofs.InsertedComments
import MonoTap.Proofs.HarmlessComments
import MonoTap.Proofs.EditSequences
import MonoTap.Proofs.FreshNames
import MonoTap.Proofs.RenderedLines
import MonoTap.Proofs.Requests
import MonoTap.Proofs.Cuts
import MonoTap.Proofs.DeclaredImports
import MonoTap.Proofs.TextSeams
import MonoTap.Proofs.ImportPlaces
import MonoTap.Proofs.SortedImports
import MonoTap.Proofs.SkippedTokens
import MonoTap.Proofs.MarkedTexts
import MonoTap.Proofs.InsertedImports
import MonoTap.Proofs.SourceNames
import MonoTap.Proofs.MeanScores
import MonoTap.Proofs.Patches
import MonoTap.Proofs.LaneChoice
import MonoTap.Proofs.ListedFiles
import MonoTap.Proofs.Marks
import MonoTap.Proofs.DeclaredUnits
import MonoTap.Proofs.Headers
import MonoTap.Proofs.StableLines
import MonoTap.Proofs.Slices
import MonoTap.Proofs.Environments
import MonoTap.Proofs.WrappedReceivers
import MonoTap.Proofs.KeptDeclarations
import MonoTap.Proofs.EnsuredImports
