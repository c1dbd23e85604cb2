import Recognizer.Automaton.Acceptance
import Recognizer.Automaton.Determinization
import Recognizer.Automaton.Random
import Recognizer.Automaton.Rendering
import Recognizer.Automaton.Undo
import Recognizer.CommandLine.Directory
import Recognizer.Graph.Indexed
import Recognizer.Graph.Traversal
import Recognizer.Main
import Recognizer.PhaseLog
import Recognizer.Proofs.Ascending
import Recognizer.Proofs.Automaton.ActiveSets
import Recognizer.Proofs.Automaton.Additions
import Recognizer.Proofs.Automaton.Building
import Recognizer.Proofs.Automaton.Declarations
import Recognizer.Proofs.Automaton.Faults
import Recognizer.Proofs.Automaton.Flat
import Recognizer.Proofs.Automaton.Outcome
import Recognizer.Proofs.Automaton.Recording
import Recognizer.Proofs.Automaton.Renaming
import Recognizer.Proofs.Automaton.Rollback
import Recognizer.Proofs.Automaton.Runs
import Recognizer.Proofs.Automaton.Shape
import Recognizer.Proofs.Automaton.TransitionCount
import Recognizer.Proofs.Automaton.Verdict
import Recognizer.Proofs.Automaton.Visits
import Recognizer.Proofs.Dataset.Quoting
import Recognizer.Proofs.Dataset.Rows
import Recognizer.Proofs.Dataset.Testing
import Recognizer.Proofs.Dataset.Training
import Recognizer.Proofs.Definition.Entry
import Recognizer.Proofs.Definition.Written
import Recognizer.Proofs.Determinization.Collisions
import Recognizer.Proofs.Determinization.Construction
import Recognizer.Proofs.Determinization.Discovery
import Recognizer.Proofs.Determinization.Exploration
import Recognizer.Proofs.Determinization.Language
import Recognizer.Proofs.Determinization.Numbering
import Recognizer.Proofs.Determinization.PrefixFree
import Recognizer.Proofs.Determinization.Reachability
import Recognizer.Proofs.Determinization.Repetition
import Recognizer.Proofs.Determinization.Subsets
import Recognizer.Proofs.Graph.Acyclic
import Recognizer.Proofs.Graph.Closed
import Recognizer.Proofs.Graph.Counting
import Recognizer.Proofs.Graph.DepthFirst
import Recognizer.Proofs.Graph.Exact
import Recognizer.Proofs.Graph.Extraction
import Recognizer.Proofs.Graph.Grouping
import Recognizer.Proofs.Graph.Indexed
import Recognizer.Proofs.Graph.Language
import Recognizer.Proofs.Graph.Links
import Recognizer.Proofs.Graph.PathCount
import Recognizer.Proofs.Graph.Paths
import Recognizer.Proofs.Graph.Potency
import Recognizer.Proofs.Graph.Preorder
import Recognizer.Proofs.Graph.Ranking
import Recognizer.Proofs.Graph.SimplePaths
import Recognizer.Proofs.Graph.Traversal
import Recognizer.Proofs.Json.Token
import Recognizer.Proofs.Json.Value
import Recognizer.Proofs.Labels
import Recognizer.Proofs.Learning.Generalization
import Recognizer.Proofs.Learning.Independence
import Recognizer.Proofs.Learning.Repetition
import Recognizer.Proofs.Learning.Safety
import Recognizer.Proofs.Learning.Screening
import Recognizer.Proofs.Learning.Skeleton
import Recognizer.Proofs.Learning.Tally
import Recognizer.Proofs.Learning.Training
import Recognizer.Proofs.Learning.TrainingSet
import Recognizer.Proofs.Produced
import Recognizer.Proofs.Session
import Recognizer.Proofs.Snapshot.Canonical
import Recognizer.Proofs.Snapshot.Document
import Recognizer.Proofs.Snapshot.Restoring
import Recognizer.Proofs.Storage
import Recognizer.Proofs.Text.Advancing
import Recognizer.Proofs.Text.Blank
import Recognizer.Proofs.Text.Collecting
import Recognizer.Proofs.Text.Labels
import Recognizer.Proofs.Text.Lines
import Recognizer.Proofs.Text.Readings
import Recognizer.Proofs.Text.Utf8
import Recognizer.Proofs.Trie
import Recognizer.Proofs.Trie.Contents
import Recognizer.Proofs.Trie.Linked
import Recognizer.Proofs.Trie.Tree
