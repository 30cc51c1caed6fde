import ThreeAddress.Func.OfEdges
import ThreeAddress.Func.Patch
import ThreeAddress.Main
import ThreeAddress.Proofs.DepthFirst
import ThreeAddress.Proofs.Convergence
import ThreeAddress.Proofs.Budgets
import ThreeAddress.Proofs.SsaOnPaths
import ThreeAddress.Proofs.NeededPhis
import ThreeAddress.Proofs.UndefinedUses
import ThreeAddress.Proofs.ConstantSoundness
import ThreeAddress.Proofs.Preheaders
import ThreeAddress.Proofs.SettledRounds
import ThreeAddress.Proofs.CriticalEdges
import ThreeAddress.Proofs.PipelineText
import ThreeAddress.Proofs.Layout
import ThreeAddress.Proofs.TwosComplement
import ThreeAddress.Proofs.VersionCounters
