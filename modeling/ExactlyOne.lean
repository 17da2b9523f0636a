import ExactlyOne.Json.Printer
import ExactlyOne.Json.Reader
import ExactlyOne.Property.Document
import ExactlyOne.Log
import ExactlyOne.CommandLine.Run
import ExactlyOne.Main
import ExactlyOne.Disk
import ExactlyOne.Glob.Search
import ExactlyOne.Json.Pointer
import ExactlyOne.Filter.Run
import ExactlyOne.Report
import ExactlyOne.Catalog.Reader
import ExactlyOne.Text.Quoted
import ExactlyOne.Proofs.Cover
import ExactlyOne.Proofs.Stage
import ExactlyOne.Proofs.Unfolding
import ExactlyOne.Proofs.Verdict
import ExactlyOne.Proofs.Recording
import ExactlyOne.Proofs.DepthFirst
import ExactlyOne.Proofs.Route
import ExactlyOne.Proofs.BranchPath
import ExactlyOne.Proofs.Traversal
import ExactlyOne.Proofs.Settlement
import ExactlyOne.Proofs.Visit
import ExactlyOne.Proofs.Coverage
import ExactlyOne.Proofs.Grounding
import ExactlyOne.Proofs.Place
import ExactlyOne.Proofs.Ample
import ExactlyOne.Proofs.Splitting
import ExactlyOne.Proofs.Consistency
import ExactlyOne.Proofs.DocumentOrder
import ExactlyOne.Proofs.Registration
import ExactlyOne.Proofs.KeyOrder
import ExactlyOne.Proofs.CleanRun
import ExactlyOne.Proofs.HigherLimits
import ExactlyOne.Proofs.Holding
import ExactlyOne.Proofs.Counting
import ExactlyOne.Proofs.OtherKeys
import ExactlyOne.Proofs.SameNames
import ExactlyOne.Proofs.TypeName
import ExactlyOne.Proofs.Lowering
import ExactlyOne.Proofs.RoundTrip
import ExactlyOne.Proofs.Resettling
import ExactlyOne.Proofs.ShownFindings
import ExactlyOne.Proofs.FirstValue
import ExactlyOne.Proofs.WrittenCatalog
