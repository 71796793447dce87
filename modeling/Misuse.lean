import Misuse.Automaton
import Misuse.Call
import Misuse.Constraint.Basic
import Misuse.Constraint.Predicate
import Misuse.Decimal
import Misuse.Distinct
import Misuse.Evaluation
import Misuse.Fact
import Misuse.FactStore
import Misuse.Folder
import Misuse.Hierarchy
import Misuse.Integer
import Misuse.Json.Basic
import Misuse.Json.Printer
import Misuse.Json.Reader
import Misuse.Json.Shape
import Misuse.Judgement
import Misuse.Keying
import Misuse.Matching
import Misuse.Method
import Misuse.Partition
import Misuse.Positions
import Misuse.Proofs.Acceptance
import Misuse.Proofs.Accounts
import Misuse.Proofs.Alternatives
import Misuse.Proofs.Ancestry
import Misuse.Proofs.Answers
import Misuse.Proofs.Apart
import Misuse.Proofs.Arrangements
import Misuse.Proofs.Arrival
import Misuse.Proofs.Asking
import Misuse.Proofs.Bans
import Misuse.Proofs.Blocks
import Misuse.Proofs.Bypass
import Misuse.Proofs.Chains
import Misuse.Proofs.Chronicle
import Misuse.Proofs.Collisions
import Misuse.Proofs.Columns
import Misuse.Proofs.Combinations
import Misuse.Proofs.Completion
import Misuse.Proofs.Course
import Misuse.Proofs.Cuts
import Misuse.Proofs.Deciding
import Misuse.Proofs.Declarations
import Misuse.Proofs.Deferral
import Misuse.Proofs.Definiteness
import Misuse.Proofs.Deliveries
import Misuse.Proofs.Disjunctions
import Misuse.Proofs.Documents
import Misuse.Proofs.Drafting
import Misuse.Proofs.Edits
import Misuse.Proofs.Endings
import Misuse.Proofs.Enrichment
import Misuse.Proofs.Exactness
import Misuse.Proofs.Exchange
import Misuse.Proofs.Expectation
import Misuse.Proofs.Export
import Misuse.Proofs.Failures
import Misuse.Proofs.Fates
import Misuse.Proofs.Finality
import Misuse.Proofs.Indexing
import Misuse.Proofs.Integrity
import Misuse.Proofs.Interchange
import Misuse.Proofs.Isolation
import Misuse.Proofs.Keys
import Misuse.Proofs.Lateness
import Misuse.Proofs.Ledger
import Misuse.Proofs.Limits
import Misuse.Proofs.Listening
import Misuse.Proofs.Lookups
import Misuse.Proofs.Misplacement
import Misuse.Proofs.Nesting
import Misuse.Proofs.Order
import Misuse.Proofs.Outset
import Misuse.Proofs.Overlaps
import Misuse.Proofs.Parts
import Misuse.Proofs.Phases
import Misuse.Proofs.Placements
import Misuse.Proofs.Places
import Misuse.Proofs.Portions
import Misuse.Proofs.Prohibition
import Misuse.Proofs.Publication
import Misuse.Proofs.Queries
import Misuse.Proofs.Reach
import Misuse.Proofs.Reachability
import Misuse.Proofs.Reads
import Misuse.Proofs.Records
import Misuse.Proofs.Refusal
import Misuse.Proofs.Rejections
import Misuse.Proofs.Reloading
import Misuse.Proofs.Repetition
import Misuse.Proofs.Replay
import Misuse.Proofs.Rereading
import Misuse.Proofs.Retraction
import Misuse.Proofs.Runs
import Misuse.Proofs.Scopes
import Misuse.Proofs.Seclusion
import Misuse.Proofs.Setup
import Misuse.Proofs.Shapes
import Misuse.Proofs.Shuffling
import Misuse.Proofs.Sites
import Misuse.Proofs.Spelling
import Misuse.Proofs.Standing
import Misuse.Proofs.Suggestions
import Misuse.Proofs.Tallies
import Misuse.Proofs.Tokens
import Misuse.Proofs.Trace
import Misuse.Proofs.Turns
import Misuse.Proofs.Verdicts
import Misuse.Proofs.Visibility
import Misuse.Proofs.Walks
import Misuse.Proofs.Withdrawal
import Misuse.Proofs.Yaml.Digits
import Misuse.Proofs.Yaml.Lexing
import Misuse.Proofs.Yaml.Lines
import Misuse.Proofs.Yaml.Parsing
import Misuse.Proofs.Yaml.Passage
import Misuse.Proofs.Yaml.Quotes
import Misuse.Proofs.Yaml.Scalars
import Misuse.Proofs.Yaml.Signs
import Misuse.Proofs.Yaml.Trees
import Misuse.Proofs.Yaml.Words
import Misuse.Query
import Misuse.Registry
import Misuse.Report
import Misuse.Report.Document
import Misuse.Report.Indexed
import Misuse.Rule.Basic
import Misuse.Rule.Defect
import Misuse.Rule.Document
import Misuse.Rule.Draft
import Misuse.Rule.Draft.Indexed
import Misuse.Rule.WellFormed
import Misuse.Rulebook
import Misuse.Rulebook.Indexed
import Misuse.Session.Basic
import Misuse.Session.Indexed
import Misuse.Session.Pass
import Misuse.Settings.Basic
import Misuse.Settings.Document
import Misuse.Settings.Fault
import Misuse.Settings.Preset
import Misuse.Sorted
import Misuse.Text.Basic
import Misuse.Text.EditDistance
import Misuse.Text.Pieces
import Misuse.Tracked
import Misuse.Truth
import Misuse.Typestate
import Misuse.Value
import Misuse.Violation
import Misuse.Yaml.Anchor
import Misuse.Yaml.Basic
import Misuse.Yaml.Cursor
import Misuse.Yaml.Lexer
import Misuse.Yaml.Number
import Misuse.Yaml.Printer
import Misuse.Yaml.Reader
import Misuse.Yaml.ScalarLexer
import Misuse.Yaml.Shape
import Misuse.Yaml.Style
import Misuse.Yaml.TagLexer
