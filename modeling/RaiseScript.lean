import RaiseScript.Files.Tree
import RaiseScript.Main
import RaiseScript.Proofs.Complaints
import RaiseScript.Proofs.Context
import RaiseScript.Proofs.Fixpoint
import RaiseScript.Proofs.Issued
import RaiseScript.Proofs.Layout
import RaiseScript.Proofs.Literals
import RaiseScript.Proofs.Loops
import RaiseScript.Proofs.Nesting
import RaiseScript.Proofs.PassedOn
import RaiseScript.Proofs.Redundant
import RaiseScript.Proofs.Refused
import RaiseScript.Proofs.Renamed
import RaiseScript.Proofs.SameData
import RaiseScript.Proofs.Steady
import RaiseScript.Proofs.StrayJumps
import RaiseScript.Proofs.Suspended
import RaiseScript.Proofs.Tallied
