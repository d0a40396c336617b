import WritePlan.Config.Toml
import WritePlan.Error.Public
import WritePlan.Graph.Sort
import WritePlan.Inspect
import WritePlan.Json.Printer
import WritePlan.Json.Reader
import WritePlan.Model.Build
import WritePlan.Value.Json
import WritePlan.Proofs.Countdown
import WritePlan.Proofs.Acyclic
import WritePlan.Proofs.Frontier
import WritePlan.Proofs.LevelOrder
import WritePlan.Proofs.EdgeBreaking
import WritePlan.Proofs.Hierarchy
import WritePlan.Proofs.OrderingRules
import WritePlan.Proofs.Arrangement
import WritePlan.Proofs.MistakenOrder
import WritePlan.Proofs.BatchOrder
import WritePlan.Proofs.Sorting
import WritePlan.Proofs.Delivery
import WritePlan.Proofs.Members
import WritePlan.Proofs.SharedColumns
import WritePlan.Proofs.RowPartition
import WritePlan.Proofs.Replacement
import WritePlan.Proofs.Cycles
import WritePlan.Proofs.Closure
import WritePlan.Proofs.SortAgreement
import WritePlan.Proofs.Extension
import WritePlan.Proofs.ExtendedPlanner
import WritePlan.Proofs.Faults
import WritePlan.Proofs.LaterSets
import WritePlan.Proofs.RowContents
import WritePlan.Proofs.RowIdentity
import WritePlan.Proofs.DeletedRows
import WritePlan.Proofs.Placeholders
import WritePlan.Proofs.ListingOrder
import WritePlan.Proofs.Recoding
import WritePlan.Proofs.StrictBuild
import WritePlan.Proofs.ParameterNames
import WritePlan.Proofs.Accounting
import WritePlan.Proofs.SilentUpdates
import WritePlan.Proofs.Chunks
import WritePlan.Proofs.RowConflicts
import WritePlan.Proofs.ColumnParts
import WritePlan.Proofs.ColumnGroups
import WritePlan.Proofs.StandardOrder
import WritePlan.Proofs.InheritedMembers
import WritePlan.Proofs.OwnMembers
import WritePlan.Proofs.OwnReads
import WritePlan.Proofs.KeyColumns
import WritePlan.Proofs.CycleWalk
import WritePlan.Proofs.Offers
import WritePlan.Proofs.ValueForms
import WritePlan.Proofs.Additions
import WritePlan.Proofs.Forest
