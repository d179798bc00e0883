import FlannelScript.Inspect
import FlannelScript.Main
import FlannelScript.Tree.Encode
import FlannelScript.Proofs.Redex
import FlannelScript.Proofs.Evaluation
import FlannelScript.Proofs.Levels
import FlannelScript.Proofs.Schedule
import FlannelScript.Proofs.Grouping
import FlannelScript.Proofs.TreeValue
import FlannelScript.Proofs.Parts
import FlannelScript.Proofs.Balance
import FlannelScript.Proofs.Backtrace
import FlannelScript.Proofs.Fuel
import FlannelScript.Proofs.ReturnFlow
import FlannelScript.Proofs.Course
import FlannelScript.Proofs.Cutoff
import FlannelScript.Proofs.Termination
import FlannelScript.Proofs.Growth
import FlannelScript.Proofs.WellFormed
import FlannelScript.Proofs.Moments
import FlannelScript.Proofs.DeadCode
import FlannelScript.Proofs.Changes
import FlannelScript.Proofs.Identity
import FlannelScript.Proofs.Forms
import FlannelScript.Proofs.JsonText
import FlannelScript.Proofs.RoundTrip
import FlannelScript.Proofs.Presentation
import FlannelScript.Proofs.Chains
import FlannelScript.Proofs.Conduct
import FlannelScript.Proofs.Dialogue
import FlannelScript.Proofs.Scoping
import FlannelScript.Proofs.Composition
import FlannelScript.Proofs.Assignments
import FlannelScript.Proofs.Scenes
import FlannelScript.Proofs.Unfolding
import FlannelScript.Proofs.Encapsulation
import FlannelScript.Proofs.Alike
import FlannelScript.Proofs.Arithmetic
import FlannelScript.Proofs.Exchange
import FlannelScript.Proofs.Unrolling
import FlannelScript.Proofs.Dispatch
import FlannelScript.Proofs.OperatorTyping
import FlannelScript.Proofs.Defaults
import FlannelScript.Proofs.Numerals
import FlannelScript.Proofs.Literals
import FlannelScript.Proofs.Sharing
import FlannelScript.Proofs.Atomicity
import FlannelScript.Proofs.SelfTypes
import FlannelScript.Proofs.Flags
import FlannelScript.Proofs.Comparisons
import FlannelScript.Proofs.Negation
import FlannelScript.Proofs.Lines
import FlannelScript.Proofs.Positions
