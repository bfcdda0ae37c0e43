import Dockerlint.Args
import Dockerlint.Config.Fields
import Dockerlint.Config.Policy
import Dockerlint.Config.Settings
import Dockerlint.Document.Basic
import Dockerlint.Document.Json
import Dockerlint.Document.Query
import Dockerlint.Error
import Dockerlint.Instruction
import Dockerlint.Json.Basic
import Dockerlint.Json.Reader
import Dockerlint.Keyword
import Dockerlint.Line.Logical
import Dockerlint.Line.Segment
import Dockerlint.Lint.Address
import Dockerlint.Lint.General
import Dockerlint.Lint.Json
import Dockerlint.Lint.LastStage
import Dockerlint.Lint.Policy
import Dockerlint.Lint.Report
import Dockerlint.Lint.Rule
import Dockerlint.Lint.Settings
import Dockerlint.Mismatch
import Dockerlint.Operand.Assignments
import Dockerlint.Operand.Basic
import Dockerlint.Operand.Command
import Dockerlint.Operand.Flags
import Dockerlint.Operand.Healthcheck
import Dockerlint.Operand.Image
import Dockerlint.Operand.Maintainers
import Dockerlint.Operand.Pair
import Dockerlint.Operand.Ports
import Dockerlint.Operand.Transfer
import Dockerlint.Proofs.Line
import Dockerlint.Proofs.Text
import Dockerlint.Reader
import Dockerlint.Reader.Session
import Dockerlint.Stage
import Dockerlint.Text.Basic
import Dockerlint.Text.Blank
import Dockerlint.Text.Lines
import Dockerlint.Text.Path
import Dockerlint.Text.Quoted
import Dockerlint.Text.Table
import Dockerlint.Text.Word
import Dockerlint.Yaml.Block
import Dockerlint.Yaml.Document
import Dockerlint.Yaml.Node
import Dockerlint.Yaml.Page
import Dockerlint.Yaml.Scalar
import Dockerlint.Yaml.Scan
import Dockerlint.Yaml.Tag
import Dockerlint.Yaml.Token
import Dockerlint.Yaml.Value
import Dockerlint.Proofs.Operand.Array
import Dockerlint.Proofs.Operand.Assignments
import Dockerlint.Proofs.Operand.Image
import Dockerlint.Proofs.Document.Blocks
import Dockerlint.Proofs.Document.Scopes
import Dockerlint.Proofs.Lint.Exclusion
import Dockerlint.Proofs.Lint.Findings
import Dockerlint.Proofs.Line.Runs
import Dockerlint.Proofs.Line.Settled
import Dockerlint.Proofs.Document.Append
import Dockerlint.Proofs.Document.Display
import Dockerlint.Proofs.Reader.Session
import Dockerlint.Proofs.Lint.Registries
import Dockerlint.Proofs.Operand.WellFormed
import Dockerlint.Proofs.Reader.Trailing
import Dockerlint.Proofs.Operand.Blanks
import Dockerlint.Proofs.Document.Lines
import Dockerlint.Proofs.Document.Physical
import Dockerlint.Proofs.Token
import Dockerlint.Proofs.Operand.Paths
import Dockerlint.Proofs.Operand.Located
import Dockerlint.Proofs.Operand.Trigger
import Dockerlint.Proofs.Document.Tagging
import Dockerlint.Proofs.Operand.StageName
import Dockerlint.Proofs.Operand.Styles
import Dockerlint.Proofs.Lint.Quoting
import Dockerlint.Proofs.Lint.Maintainers
import Dockerlint.Proofs.Lint.FinalNewline
import Dockerlint.Proofs.Lint.InstructionOrder
import Dockerlint.Proofs.Lint.Placement
import Dockerlint.Proofs.Lint.Operators
import Dockerlint.Proofs.Operand.Ports
import Dockerlint.Proofs.Operand.Pair
import Dockerlint.Proofs.Operand.Workdir
import Dockerlint.Proofs.Operand.Flags
import Dockerlint.Proofs.Operand.Maintainers
import Dockerlint.Proofs.Lint.MaintainerForms
import Dockerlint.Text.Bytes
import Dockerlint.Reader.Scanner
import Dockerlint.Reader.Grammar
import Dockerlint.Proofs.Lint.ExclusionSpelling
import Dockerlint.Proofs.Line.Closing
import Dockerlint.Proofs.Reader.Scanner
import Dockerlint.Proofs.Reader.Grammar
import Dockerlint.Proofs.Reader.Safety
