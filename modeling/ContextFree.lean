import ContextFree.CommandLine.Directory
import ContextFree.Main
import ContextFree.Proofs.Alike
import ContextFree.Proofs.Arguments
import ContextFree.Proofs.NameCheck
import ContextFree.Proofs.Outcome
import ContextFree.Proofs.PairShape
import ContextFree.Proofs.Report
import ContextFree.Proofs.SampleDepth
import ContextFree.Proofs.Snapshots
import ContextFree.Proofs.Written
import ContextFree.NormalForm.Absorption
import ContextFree.Proofs.Absorption
import ContextFree.Proofs.Exhaustion
import ContextFree.Proofs.Remainder
import ContextFree.Proofs.NameAccount
import ContextFree.Proofs.Idempotence
import ContextFree.Proofs.ShortCut
import ContextFree.Proofs.FileFault
import ContextFree.Proofs.Layout
import ContextFree.Proofs.Coherence
import ContextFree.Proofs.LineOrder
import ContextFree.Proofs.DrawFailure
import ContextFree.Proofs.Nullable
import ContextFree.Proofs.Shortening
