import Steenrod.Session.FiniteModules
import Steenrod.Session.FreeModules
import Steenrod.Session.Lifts
import Steenrod.Session.Modules
import Steenrod.Linear.Document
import Steenrod.Linear.Segmented
import Steenrod.Paged
import Steenrod.Proofs.Linear.Coordinates
import Steenrod.Proofs.Linear.Combination
import Steenrod.Proofs.Linear.Echelon
import Steenrod.Proofs.Linear.Complement
import Steenrod.Proofs.Linear.Reduction
import Steenrod.Proofs.Milnor.Structure
import Steenrod.Proofs.Module.Representation
import Steenrod.Proofs.Module.View
import Steenrod.Proofs.Map.View
import Steenrod.Proofs.Linear.Hitting
import Steenrod.Proofs.Resolution.Hit
import Steenrod.Proofs.Resolution.Invariant
import Steenrod.Proofs.Resolution.Run
import Steenrod.Proofs.Module.Generators
import Steenrod.Proofs.Resolution.Exactness
import Steenrod.Proofs.Resolution.Minimality
import Steenrod.Proofs.Module.Finite
import Steenrod.Proofs.Resolution.Lift
import Steenrod.Proofs.Resolution.Lifting
import Steenrod.Proofs.Resolution.ChainMap
import Steenrod.Proofs.Module.Sphere
import Steenrod.Proofs.Prime.Coefficients
import Steenrod.Proofs.Milnor.Associativity
import Steenrod.Proofs.Prime.Adem
import Steenrod.Proofs.Milnor.Adem
import Steenrod.Proofs.Milnor.Relations
import Steenrod.Proofs.Milnor.Decomposition
import Steenrod.Proofs.Linear.Blocks
import Steenrod.Proofs.Milnor.Admissible
import Steenrod.Proofs.Milnor.Presented
import Steenrod.Proofs.Module.Accepted
import Steenrod.Proofs.Module.Closed
import Steenrod.Proofs.Module.Declared
import Steenrod.Proofs.Module.DirectSum
import Steenrod.Proofs.Resolution.Built
import Steenrod.Proofs.Resolution.Comparison
import Steenrod.Proofs.Resolution.Composition
import Steenrod.Proofs.Resolution.DirectSum
import Steenrod.Proofs.Resolution.Extending
import Steenrod.Proofs.Resolution.Identity
import Steenrod.Proofs.Resolution.Progress
import Steenrod.Proofs.Resolution.Requests
import Steenrod.Proofs.Milnor.Twisted
import Steenrod.Proofs.Milnor.Coproduct
import Steenrod.Proofs.Milnor.Bialgebra
import Steenrod.Proofs.Milnor.Multiplicative
import Steenrod.Proofs.Map.Values
import Steenrod.Proofs.Module.RoundTrip
import Steenrod.Proofs.Milnor.Extension
import Steenrod.Proofs.Module.Suspension
import Steenrod.Proofs.Resolution.Schedule
import Steenrod.Proofs.Module.DerivedNames
import Steenrod.Proofs.Module.TensorAction
import Steenrod.Proofs.Module.TensorModule
import Steenrod.Proofs.Resolution.Suspension
import Steenrod.Proofs.Session.Alike
import Steenrod.Proofs.Session.Cap
import Steenrod.Proofs.Session.Capped
import Steenrod.Proofs.Milnor.Decomposed
import Steenrod.Proofs.Milnor.Pairs
import Steenrod.Proofs.Milnor.WordDegree
import Steenrod.Proofs.Resolution.Solved
import Steenrod.Proofs.Module.Named
import Steenrod.Proofs.Linear.Elimination
import Steenrod.Proofs.Linear.ReducedForm
import Steenrod.Proofs.Text.Factors
import Steenrod.Proofs.Milnor.Spelled
import Steenrod.Proofs.Milnor.Search
import Steenrod.Proofs.Milnor.Found
import Steenrod.Proofs.Linear.Gathered
import Steenrod.Proofs.Linear.Preimages
import Steenrod.Proofs.Module.FreeTables
import Steenrod.Proofs.Module.Numbering
import Steenrod.Proofs.Map.Linear
import Steenrod.Proofs.Milnor.Extent
import Steenrod.Proofs.Resolution.Vanishing
import Steenrod.Proofs.Module.Finishing
import Steenrod.Proofs.Module.Satisfied
import Steenrod.Proofs.Module.Permuted
import Steenrod.Proofs.Module.Answering
import Steenrod.Proofs.Module.Mirrored
import Steenrod.Proofs.Module.Wholes
import Steenrod.Proofs.Session.Held
import Steenrod.Proofs.Session.Assembled
import Steenrod.Proofs.Session.Truncating
import Steenrod.Proofs.Text.Grammar
import Steenrod.Proofs.Prime.Recognition
import Steenrod.Proofs.Prime.Words
import Steenrod.Proofs.Milnor.Inadmissible
import Steenrod.Proofs.Linear.Edits
import Steenrod.Proofs.Module.Measured
import Steenrod.Proofs.Module.Rows
import Steenrod.Proofs.Module.Summands
import Steenrod.Proofs.Module.Layout
import Steenrod.Proofs.Prime.Powers
import Steenrod.Proofs.Paged.Slots
import Steenrod.Proofs.Module.Equality
