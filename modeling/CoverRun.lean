import CoverRun.Main
import CoverRun.Proofs.CommandLine.Cleaning
import CoverRun.Proofs.Coverage.Counters
import CoverRun.Proofs.Coverage.History
import CoverRun.Proofs.Coverage.RoundTrip
import CoverRun.Proofs.Coverage.TablePayload
import CoverRun.Proofs.Coverage.Wire
import CoverRun.Proofs.Instrumentation.Echo
import CoverRun.Proofs.Instrumentation.Serving
import CoverRun.Proofs.Pipeline.History
import CoverRun.Proofs.Plan.Checks
import CoverRun.Proofs.Plan.Duplicates
import CoverRun.Proofs.Plan.Environment
import CoverRun.Proofs.Plan.Extensions
import CoverRun.Proofs.Screen
import CoverRun.Proofs.Selection.Faults
import CoverRun.Proofs.Selection.SkipEntry
import CoverRun.Proofs.Setup
import CoverRun.Proofs.Shadow.Content
import CoverRun.Proofs.Shadow.Reselection
import CoverRun.Proofs.Stage.Relay
