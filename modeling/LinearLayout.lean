import LinearLayout.Hierarchy.Basic
import LinearLayout.Layout.Pins
import LinearLayout.Layout.Pool
import LinearLayout.Layout.Sizes
import LinearLayout.Proofs.Solver.Optimal
import LinearLayout.Settings.Reader
import LinearLayout.Solver.Call
import LinearLayout.Proofs.Tableau.Split
import LinearLayout.Proofs.Solver.Groups
import LinearLayout.Proofs.OrderedMap.Related
import LinearLayout.Proofs.Row.Related
import LinearLayout.Proofs.Tableau.Lockstep
import LinearLayout.Proofs.Solver.Mirror
import LinearLayout.Proofs.Tableau.Reports
import LinearLayout.Proofs.Tableau.Listed
import LinearLayout.Proofs.Solver.Listed
import LinearLayout.Proofs.Solver.Emptied
import LinearLayout.Layout.Session
import LinearLayout.Proofs.Layout.Effects
import LinearLayout.Proofs.Layout.Requests
import LinearLayout.Proofs.Layout.Splits
import LinearLayout.Proofs.Layout.Joins
import LinearLayout.Proofs.Layout.Sessions
import LinearLayout.Proofs.Layout.Solvers
import LinearLayout.Proofs.Layout.Accounts
import LinearLayout.Proofs.Layout.Rejected
import LinearLayout.Proofs.Hierarchy.Reachable
import LinearLayout.Proofs.Layout.Partition
import LinearLayout.Proofs.Layout.Union
import LinearLayout.Proofs.Layout.Purposes
import LinearLayout.Proofs.Layout.JoinedPins
import LinearLayout.Proofs.Layout.Intact
import LinearLayout.Proofs.Layout.LastingPins
import LinearLayout.Proofs.Necessity.Unique
import LinearLayout.Proofs.Layout.Tracking
import LinearLayout.Proofs.Layout.Marks
import LinearLayout.Proofs.Layout.Questions
import LinearLayout.Proofs.Layout.Measured
import LinearLayout.Proofs.Layout.Backed
import LinearLayout.Proofs.Layout.LastingSizes
import LinearLayout.Proofs.Hierarchy.Forest
import LinearLayout.Proofs.Solver.Preferred
import LinearLayout.Proofs.Layout.Released
import LinearLayout.Proofs.Layout.Edited
import LinearLayout.Proofs.Hierarchy.Preorder
import LinearLayout.Proofs.Doubles
import LinearLayout.Proofs.OrderedMap.Unchanged
import LinearLayout.Proofs.Tableau.Detached
import LinearLayout.Proofs.Solver.RoundTrip
import LinearLayout.Proofs.Tableau.Origins
import LinearLayout.Proofs.Solver.Origins
