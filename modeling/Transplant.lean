import Transplant.Main
import Transplant.Proofs.Donor.Cut
import Transplant.Proofs.Java.Boundaries
import Transplant.Proofs.Donor.Blocks
import Transplant.Proofs.Analysis.Uses
import Transplant.Proofs.Text.Bytes
import Transplant.Proofs.Edit.Alone
import Transplant.Proofs.Edit.Follow
import Transplant.Proofs.Body.Sight
import Transplant.Proofs.Donor.Fresh
import Transplant.Proofs.Donor.Named
import Transplant.Proofs.Donor.Capture
import Transplant.Proofs.Body.Stored
import Transplant.Proofs.Item.Placement
import Transplant.Proofs.Body.Entries
import Transplant.Proofs.Body.Scoping
import Transplant.Proofs.Item.Bodies
import Transplant.Proofs.Item.Resolution
import Transplant.Proofs.Analysis.Exact
import Transplant.Proofs.Java.Spacing
import Transplant.Proofs.Java.Print
import Transplant.Proofs.Java.Running
import Transplant.Proofs.Java.Inverse
import Transplant.Proofs.Java.RoundTrip
import Transplant.Proofs.Edit.Permuted
import Transplant.Proofs.Java.Respaced
import Transplant.Proofs.Block
import Transplant.Proofs.Java.Unplaced
import Transplant.Proofs.Java.Total
import Transplant.Proofs.Body.Moved
import Transplant.Proofs.Item.Moved
import Transplant.Proofs.Analysis.Unplaced
import Transplant.Proofs.Text.Indent
import Transplant.Proofs.CommandLine.Outcome
import Transplant.Proofs.Body.ReadBack
import Transplant.Proofs.Analysis.Receivers
import Transplant.Proofs.Body.Introduced
import Transplant.Proofs.Analysis.Recursion
import Transplant.Proofs.Analysis.Supers
import Transplant.Proofs.Donor.Overloads
import Transplant.Proofs.Donor.Renamed
import Transplant.Proofs.Donor.Numbered
import Transplant.Proofs.Java.Shown
import Transplant.Proofs.Java.Within
import Transplant.Proofs.Item.Declared
import Transplant.Proofs.Java.Tiled
import Transplant.Proofs.Text.Columns
import Transplant.Proofs.Edit.Recorded
import Transplant.Proofs.Edit.Normal
import Transplant.Proofs.Edit.Defects
import Transplant.Proofs.Edit.Routed
import Transplant.Proofs.Donor.Covered
import Transplant.Proofs.Donor.Evaluated
import Transplant.Proofs.Donor.Substituted
import Transplant.Proofs.Analysis.Accessed
import Transplant.Proofs.Analysis.Statics
import Transplant.Proofs.Java.Containment
import Transplant.Proofs.Java.StmtContainment
import Transplant.Proofs.Java.Literals
import Transplant.Proofs.Text.Joined
