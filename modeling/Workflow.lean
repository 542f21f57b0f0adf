import Workflow.Definition.Document
import Workflow.Main
import Workflow.Proofs.Explanation
import Workflow.Proofs.Formula
import Workflow.Proofs.Index
import Workflow.Proofs.Projection
import Workflow.Proofs.Resolution
import Workflow.Proofs.Run
import Workflow.Proofs.Agreement
import Workflow.Proofs.Limit
import Workflow.Proofs.Artifact
import Workflow.Proofs.Locality
import Workflow.Proofs.ProjectionSetting
import Workflow.Proofs.Checking
import Workflow.Proofs.Shape
import Workflow.Proofs.Reading
import Workflow.Proofs.Loading
import Workflow.Proofs.Halting
import Workflow.Proofs.Monotone
import Workflow.Proofs.Unvisited
import Workflow.Proofs.Faults
import Workflow.Proofs.Form
import Workflow.Proofs.NormalForm
import Workflow.Proofs.Sufficiency
import Workflow.Proofs.Arguments
import Workflow.Proofs.Session
import Workflow.Proofs.Compiling
import Workflow.Proofs.TraceShape
import Workflow.Proofs.Preview
import Workflow.Proofs.TextLimits
import Workflow.Proofs.Payload
import Workflow.Proofs.Document
import Workflow.Proofs.Comparing
import Workflow.Proofs.Blanks
import Workflow.Proofs.MemberOrder
import Workflow.Proofs.ContextReading
import Workflow.Proofs.ContextWriting
import Workflow.Proofs.Hashing
import Workflow.Proofs.ContextHistory
import Workflow.Proofs.ReasonLine
