import ObjectMachine.Host.FileTree
import ObjectMachine.Main
import ObjectMachine.Proofs.Unwinding
import ObjectMachine.Proofs.Courses
import ObjectMachine.Proofs.Nesting
import ObjectMachine.Proofs.Linkage
import ObjectMachine.Proofs.Finalizing
import ObjectMachine.Proofs.Containment
import ObjectMachine.Proofs.Confinement
import ObjectMachine.Proofs.Conduct
import ObjectMachine.Proofs.Custody
import ObjectMachine.Proofs.Crashes
import ObjectMachine.Proofs.Constructors
import ObjectMachine.Proofs.Returns
import ObjectMachine.Proofs.Sweeps
import ObjectMachine.Proofs.Scopes
import ObjectMachine.Proofs.BlockCalls
import ObjectMachine.Proofs.Doubles
import ObjectMachine.Proofs.Items
import ObjectMachine.Proofs.Stored
import ObjectMachine.Proofs.Coherence
import ObjectMachine.Proofs.Resolution
import ObjectMachine.Proofs.SavedRuns
import ObjectMachine.Proofs.MethodCounts
import ObjectMachine.Proofs.Shipping
import ObjectMachine.Proofs.Comparing
import ObjectMachine.Proofs.Bootstrapping
import ObjectMachine.Proofs.ScriptCalls
import ObjectMachine.Proofs.Grants
import ObjectMachine.Proofs.Redefinition
import ObjectMachine.Proofs.Duplication
import ObjectMachine.Proofs.Accessors
import ObjectMachine.Proofs.Characters
import ObjectMachine.Proofs.Floats
import ObjectMachine.Proofs.Operands
import ObjectMachine.Proofs.Pieces
import ObjectMachine.Proofs.Tables
import ObjectMachine.Proofs.Meanings
import ObjectMachine.Proofs.References
import ObjectMachine.Proofs.Ancestry
import ObjectMachine.Proofs.Climbing
import ObjectMachine.Proofs.Literals
import ObjectMachine.Proofs.Cycles
import ObjectMachine.Proofs.Registry
import ObjectMachine.Proofs.Reports
import ObjectMachine.Proofs.Interning
import ObjectMachine.Proofs.Sections
import ObjectMachine.Proofs.Descent
import ObjectMachine.Proofs.Apart
import ObjectMachine.Proofs.Enclosure
import ObjectMachine.Proofs.Grounding
