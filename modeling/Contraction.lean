import Contraction.Main
import Contraction.Proofs.Branch.Reading
import Contraction.Proofs.Branch.Rounds
import Contraction.Proofs.Dimensions.Placement
import Contraction.Proofs.Dimensions.SummedRuns
import Contraction.Proofs.Expression.NormalForm
import Contraction.Proofs.Expression.Refusal
import Contraction.Proofs.Measurement.EarlierMeasures
import Contraction.Proofs.Measurement.LargerSizes
import Contraction.Proofs.Measurement.Strides
import Contraction.Proofs.Measurement.ZeroSizes
import Contraction.Proofs.Plan.EditedMeasures
import Contraction.Proofs.Plan.Exchanges
import Contraction.Proofs.Plan.Overrides
import Contraction.Proofs.Plan.Patches
import Contraction.Proofs.Plan.Permutations
import Contraction.Proofs.Plan.SpannedText
import Contraction.Proofs.Store.HandedOut
import Contraction.Proofs.Workspace.GivenSizes
import Contraction.Proofs.Workspace.ListedSizes
import Contraction.Proofs.Workspace.ReadSizes
import Contraction.Proofs.Workspace.SizesAndEdits
import Contraction.Proofs.Workspace.WrittenForm
