import OptimalPlans.Assignment.Matching
import OptimalPlans.Assignment.Pricing
import OptimalPlans.Assignment.Solution
import OptimalPlans.CommandLine.Invocation
import OptimalPlans.CommandLine.Run
import OptimalPlans.Dispatch.Document
import OptimalPlans.Dispatch.Kind
import OptimalPlans.Dispatch.Operation
import OptimalPlans.Fault
import OptimalPlans.Journal
import OptimalPlans.Json.Printer
import OptimalPlans.Json.Reader
import OptimalPlans.Main
import OptimalPlans.Number.Basic
import OptimalPlans.Number.Double
import OptimalPlans.Number.Numeral
import OptimalPlans.Number.Power
import OptimalPlans.Number.Shortest
import OptimalPlans.Number.Text
import OptimalPlans.Plane.Constraint
import OptimalPlans.Plane.Hull
import OptimalPlans.Plane.Sample
import OptimalPlans.Plane.Scalar
import OptimalPlans.Plane.Solution
import OptimalPlans.Plane.Vertex
import OptimalPlans.Precedence.Activity
import OptimalPlans.Precedence.Analysis
import OptimalPlans.Precedence.Layer
import OptimalPlans.Precedence.Network
import OptimalPlans.Precedence.Search
import OptimalPlans.ProblemFile
import OptimalPlans.Scalar
import OptimalPlans.Text.Blank
import OptimalPlans.Text.Digit
import OptimalPlans.Text.Printable
import OptimalPlans.Text.Quoted
import OptimalPlans.Transport.Balance
import OptimalPlans.Transport.Basic
import OptimalPlans.Transport.Basis
import OptimalPlans.Transport.LeastCost
import OptimalPlans.Transport.Loop
import OptimalPlans.Transport.NorthWest
import OptimalPlans.Transport.Penalty
import OptimalPlans.Transport.Plan
import OptimalPlans.Transport.Potential
import OptimalPlans.Transport.Refinement
import OptimalPlans.Transport.Solution
import OptimalPlans.Transport.Trail
import OptimalPlans.Transport.Validation
import OptimalPlans.Value.Arithmetic
import OptimalPlans.Value.Basic
import OptimalPlans.Proofs.Exactness
import OptimalPlans.Proofs.Transport.LineGraph
import OptimalPlans.Proofs.Transport.TrailAdequacy
import OptimalPlans.Proofs.Transport.Shipment
import OptimalPlans.Proofs.Transport.TableTotal
import OptimalPlans.Proofs.Transport.SpanningBasis
import OptimalPlans.Proofs.Transport.LoopBalance
import OptimalPlans.Proofs.Transport.PivotInvariant
import OptimalPlans.Proofs.Embedding
import OptimalPlans.Proofs.Transport.PlanEmbedding
import OptimalPlans.Proofs.Transport.PivotRun
import OptimalPlans.Proofs.Transport.PotentialAdequacy
import OptimalPlans.Proofs.Transport.ReducedCosts
import OptimalPlans.Proofs.Transport.RuleEmbedding
import OptimalPlans.Proofs.Number.Negation
import OptimalPlans.Proofs.Transport.Serving
import OptimalPlans.Proofs.Transport.ServingRules
import OptimalPlans.Proofs.Transport.RefinementStep
import OptimalPlans.Proofs.Transport.InitialPlans
import OptimalPlans.Proofs.Transport.Acceptance
import OptimalPlans.Proofs.Faults
import OptimalPlans.Proofs.Transport.RefinementFaults
import OptimalPlans.Proofs.Transport.ConnectedPlans
import OptimalPlans.Proofs.Transport.BasicStart
import OptimalPlans.Proofs.Transport.Admission
import OptimalPlans.Proofs.Number.Zero
import OptimalPlans.Proofs.Transport.RuleFaults
import OptimalPlans.Proofs.Transport.RefinementCourse
import OptimalPlans.Proofs.Transport.Descent
import OptimalPlans.Proofs.Transport.PlanDuality
import OptimalPlans.Proofs.Transport.OptimalityCertificate
import OptimalPlans.Proofs.Transport.Restart
import OptimalPlans.Proofs.Assignment.PriceMove
import OptimalPlans.Proofs.Assignment.Augmentation
import OptimalPlans.Proofs.Assignment.CheapestAssignment
import OptimalPlans.Proofs.Assignment.PriceBalance
import OptimalPlans.Proofs.Assignment.InsertionEnd
import OptimalPlans.Proofs.Assignment.RowOffset
import OptimalPlans.Proofs.Plane.HalfPlane
import OptimalPlans.Proofs.Plane.Region
import OptimalPlans.Proofs.Plane.Tolerance
import OptimalPlans.Proofs.Plane.VertexEnumeration
import OptimalPlans.Proofs.Precedence.NetworkViews
import OptimalPlans.Proofs.Precedence.SearchInvariant
import OptimalPlans.Proofs.Precedence.TopologicalOrder
import OptimalPlans.Proofs.Plane.RealPrograms
import OptimalPlans.Proofs.Dispatch.Readings
import OptimalPlans.Proofs.Dispatch.EscapingFaults
import OptimalPlans.Proofs.Precedence.RecursiveSearch
import OptimalPlans.Proofs.Precedence.LayerDepth
import OptimalPlans.Proofs.Precedence.Redeclaration
import OptimalPlans.Proofs.Precedence.ConverseViews
import OptimalPlans.Proofs.Precedence.GridDrawing
import OptimalPlans.Proofs.Transport.UniquePlan
import OptimalPlans.Proofs.Transport.AlternativeOptima
import OptimalPlans.Proofs.Transport.DummyLine
import OptimalPlans.Proofs.Transport.Balancing
import OptimalPlans.Proofs.Plane.Turning
import OptimalPlans.Proofs.Plane.MonotoneChain
import OptimalPlans.Proofs.Plane.ConvexHull
import OptimalPlans.Proofs.Plane.HullCorners
import OptimalPlans.Proofs.Plane.DrawnRegion
import OptimalPlans.Proofs.Plane.Rescaling
import OptimalPlans.Proofs.Plane.ToleratedSolution
import OptimalPlans.Proofs.Transport.IdleLines
import OptimalPlans.Proofs.Transport.RuleComparison
import OptimalPlans.Proofs.Transport.UnbalancedRefinement
import OptimalPlans.Proofs.CommandLine.ExitCode
import OptimalPlans.Proofs.Transport.ForestWalk
import OptimalPlans.Proofs.Transport.LoopShape
import OptimalPlans.Proofs.Transport.PotentialReach
import OptimalPlans.Proofs.Transport.LoopCost
import OptimalPlans.Proofs.Transport.LineClasses
import OptimalPlans.Proofs.Transport.CheapestCompletion
import OptimalPlans.Proofs.Transport.CornerOverlap
import OptimalPlans.Proofs.Transport.SortedGreedy
import OptimalPlans.Proofs.Transport.CanonicalPlan
import OptimalPlans.Proofs.Precedence.Declaration
