import AmbLisp.Text.Blank
import AmbLisp.Text.Literal
import AmbLisp.Text.Utf8
import AmbLisp.Text.LineEnd
import AmbLisp.Integer
import AmbLisp.Value.Equality
import AmbLisp.Value.Printer
import AmbLisp.Value.Inspect
import AmbLisp.Reader
import AmbLisp.Disk.Folder
import AmbLisp.Store
import AmbLisp.Eval
import AmbLisp.Dialogue
import AmbLisp.CommandLine.Shell
import AmbLisp.Main
import AmbLisp.Proofs.Search.DecisionTree
import AmbLisp.Proofs.Search.DepthFirst
import AmbLisp.Proofs.Search.Enumeration
import AmbLisp.Proofs.Eval.Contract
import AmbLisp.Proofs.Trail.Stack
import AmbLisp.Proofs.Eval.Choosing
import AmbLisp.Proofs.Search.Reaches
import AmbLisp.Proofs.Session.Choices
import AmbLisp.Proofs.Token.Lexing
import AmbLisp.Proofs.Token.Printed
import AmbLisp.Proofs.Reader.Forms
import AmbLisp.Proofs.Reader.RoundTrip
import AmbLisp.Proofs.Value.Induction
import AmbLisp.Proofs.Value.Rename
import AmbLisp.Proofs.Primitive.Results
import AmbLisp.Proofs.Store.Sound
import AmbLisp.Proofs.Store.Rename
import AmbLisp.Proofs.Reference.Evaluator
import AmbLisp.Proofs.Reference.Mirror
import AmbLisp.Proofs.Reference.Simulation
import AmbLisp.Proofs.Eval.Frame
import AmbLisp.Proofs.Trail.Candidates
import AmbLisp.Proofs.Eval.Sound
import AmbLisp.Proofs.Session.Sound
import AmbLisp.Proofs.Eval.WithoutEval
import AmbLisp.Proofs.Session.Solving
import AmbLisp.Proofs.Store.Shift
import AmbLisp.Proofs.Session.Adequacy
import AmbLisp.Proofs.Session.AtHand
import AmbLisp.Proofs.Eval.InStep
import AmbLisp.Proofs.Store.Chain
import AmbLisp.Proofs.Eval.Nesting
import AmbLisp.Proofs.Trail.Budget
import AmbLisp.Proofs.Search.Ending
import AmbLisp.Proofs.Search.Descent
import AmbLisp.Proofs.Eval.Rule
import AmbLisp.Proofs.Session.Ending
import AmbLisp.Proofs.Integer
import AmbLisp.Proofs.Token.Stream
import AmbLisp.Proofs.Reader.Grammar
import AmbLisp.Proofs.Reader.Derivation
import AmbLisp.Proofs.Reader.Recognition
import AmbLisp.Proofs.Reader.Numeral
import AmbLisp.Proofs.Value.Atoms
import AmbLisp.Proofs.Eval.Atoms
import AmbLisp.Proofs.Session.Atoms
import AmbLisp.Proofs.Session.Readable
import AmbLisp.Proofs.Session.Delivery
import AmbLisp.Proofs.Dialogue.Answer
import AmbLisp.Proofs.Dialogue.Transcript
import AmbLisp.Proofs.Dialogue.Execute
import AmbLisp.Proofs.Dialogue.Survival
import AmbLisp.Proofs.Token.Tiling
import AmbLisp.Proofs.Token.Continued
import AmbLisp.Proofs.Reader.Composition
import AmbLisp.Proofs.Loader.Splicing
import AmbLisp.Proofs.Eval.Malformed
import AmbLisp.Proofs.Value.Equality
import AmbLisp.Proofs.Prelude.Functions
import AmbLisp.Proofs.Store.Extends
import AmbLisp.Proofs.Prelude.Standard
import AmbLisp.Proofs.Eval.Calm
import AmbLisp.Proofs.Prelude.Predicates
import AmbLisp.Proofs.Eval.Walking
import AmbLisp.Proofs.Search.Closing
import AmbLisp.Proofs.Session.Enumerating
import AmbLisp.Proofs.Prelude.Generators
import AmbLisp.Proofs.Store.Alike
import AmbLisp.Proofs.Trail.Rename
import AmbLisp.Proofs.Eval.Growing
import AmbLisp.Proofs.Eval.Alike
import AmbLisp.Proofs.Search.Abreast
import AmbLisp.Proofs.Session.Responses
import AmbLisp.Proofs.Prelude.Conservative
import AmbLisp.Proofs.Primitive.Division
import AmbLisp.Proofs.Store.Family
import AmbLisp.Proofs.Value.SameTree
import AmbLisp.Proofs.Session.InTurn
import AmbLisp.Proofs.Dialogue.Printing
import AmbLisp.Proofs.CommandLine.Loading
import AmbLisp.Proofs.CommandLine.Expression
