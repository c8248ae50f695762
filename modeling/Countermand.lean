import Countermand.Template.Expansion
import Countermand.Pattern.Reading
import Countermand.Pattern.Matching
import Countermand.FileSystem.Tree
import Countermand.Toml.Reading
import Countermand.Text.Words
import Countermand.Registry.Directory
import Countermand.Registry.Resolution
import Countermand.Shell
import Countermand.Shell.History
import Countermand.Dialogue
import Countermand.Text.Quoted
import Countermand.Undoing
import Countermand.CommandLine
import Countermand.Main
import Countermand.Proofs.Expression.Completeness
import Countermand.Proofs.Template.Nesting
import Countermand.Proofs.Pattern.RoundTrip
import Countermand.Proofs.Template.Broadcast
import Countermand.Proofs.Template.Cutting
import Countermand.Proofs.Template.Rows
import Countermand.Proofs.Pattern.Capturing
import Countermand.Proofs.Session
import Countermand.Proofs.Text.Words
import Countermand.Proofs.Undoing.Capture
import Countermand.Proofs.Expression.Scanning
import Countermand.Proofs.Undoing.Choosing
import Countermand.Proofs.Undoing.Malformed
import Countermand.Proofs.Pattern.Rendering
import Countermand.Proofs.Template.Dependence
import Countermand.Proofs.Expression.Kinds
import Countermand.Proofs.Template.Faults
import Countermand.Proofs.Pattern.Shape
import Countermand.Proofs.Pattern.Binding
import Countermand.Proofs.Pattern.Phrases
import Countermand.Proofs.Pattern.Reordering
import Countermand.Proofs.Pattern.Respelling
import Countermand.Proofs.Pattern.Naming
import Countermand.Proofs.Pattern.Allocation
import Countermand.Proofs.Pattern.Delimiting
import Countermand.Proofs.Template.Pairing
import Countermand.Proofs.Template.Balancing
import Countermand.Proofs.Template.Slicing
import Countermand.Proofs.Template.Depth
import Countermand.Proofs.Expression.Chaining
import Countermand.Proofs.Pattern.Regrouping
import Countermand.Proofs.Expression.Calls
import Countermand.Proofs.Expression.Miscalls
import Countermand.Proofs.Expression.Sentences
import Countermand.Proofs.Expression.Obstacles
import Countermand.Proofs.Expression.Alternatives
import Countermand.Proofs.Path
import Countermand.Proofs.Shell.History
import Countermand.Proofs.FileSystem.Writing
import Countermand.Proofs.Registry.Loading
import Countermand.Proofs.Pattern.Guarantees
