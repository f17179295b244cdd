import LayeredConfig.Text.Encoding
import LayeredConfig.FileSystem.Edit
import LayeredConfig.CommandLine.Run
import LayeredConfig.Main
import LayeredConfig.Proofs.Apply.Failures
import LayeredConfig.Proofs.Apply.History
import LayeredConfig.Proofs.Model.Precedence
import LayeredConfig.Proofs.Template.References
import LayeredConfig.Proofs.Apply.Verdict
import LayeredConfig.Proofs.Template.Substitution
import LayeredConfig.Proofs.Apply.FixedPoint
import LayeredConfig.Proofs.Diff.NormalForm
import LayeredConfig.Proofs.Apply.Drift
import LayeredConfig.Proofs.Apply.Refusal
import LayeredConfig.Proofs.Apply.Rehearsal
import LayeredConfig.Proofs.Json.RoundTrip
import LayeredConfig.Proofs.Model.Independence
import LayeredConfig.Proofs.CommandLine.Ending
import LayeredConfig.Proofs.Yaml.Scalars
import LayeredConfig.Proofs.Yaml.Literal
import LayeredConfig.Proofs.Yaml.Lexing
import LayeredConfig.Proofs.Yaml.Styles
import LayeredConfig.Proofs.Yaml.ScalarTokens
import LayeredConfig.Proofs.Yaml.TreeTokens
import LayeredConfig.Proofs.Yaml.Document
import LayeredConfig.Proofs.Yaml.RoundTrip
import LayeredConfig.Proofs.Tree.Layers
import LayeredConfig.Proofs.Tree.FlatKeys
import LayeredConfig.Proofs.Text.Occurrences
import LayeredConfig.Proofs.Model.PropertyFiles
import LayeredConfig.Proofs.Model.Selection
import LayeredConfig.Proofs.Model.Variants
import LayeredConfig.Proofs.Template.Reach
import LayeredConfig.Proofs.Template.Budget
import LayeredConfig.Proofs.Template.Seams
import LayeredConfig.Proofs.Tree.Groups
import LayeredConfig.Proofs.Collect
import LayeredConfig.Proofs.Json.Ordered
import LayeredConfig.Proofs.Model.JsonTrees
import LayeredConfig.Proofs.Model.YamlTrees
import LayeredConfig.Proofs.Model.Images
import LayeredConfig.Proofs.Model.Expansion
import LayeredConfig.Proofs.Model.Leaves
import LayeredConfig.Proofs.Model.Discovery
import LayeredConfig.Proofs.Template.Written
import LayeredConfig.Proofs.Layout
import LayeredConfig.Proofs.Apply.AcceptSet
