import TierQuery.Main
import TierQuery.Session
import TierQuery.Proofs.Levels
import TierQuery.Proofs.Analysis
import TierQuery.Proofs.Parameters
import TierQuery.Proofs.MatchSection
import TierQuery.Proofs.Canonical
import TierQuery.Proofs.Lowering
import TierQuery.Proofs.Clauses
import TierQuery.Proofs.Criteria
import TierQuery.Proofs.Graph
import TierQuery.Proofs.Meaning
import TierQuery.Proofs.ContainedLabels
import TierQuery.Proofs.Scoping
import TierQuery.Proofs.Writing
import TierQuery.Proofs.Likeness
import TierQuery.Proofs.Literals
import TierQuery.Proofs.Scope
import TierQuery.Proofs.Keys
import TierQuery.Proofs.Operations
import TierQuery.Proofs.Spelling
import TierQuery.Proofs.Numbering
import TierQuery.Proofs.Order
import TierQuery.Proofs.Tree
import TierQuery.Proofs.RoundTrip
import TierQuery.Proofs.Projection
import TierQuery.Proofs.SortFields
import TierQuery.Proofs.CommonDiscourse
import TierQuery.Proofs.Success
import TierQuery.Proofs.Renaming
import TierQuery.Proofs.Reordering
import TierQuery.Proofs.DottedPaths
import TierQuery.Proofs.Descriptions
import TierQuery.Proofs.Steps
import TierQuery.Proofs.CanonicalForms
import TierQuery.Proofs.Respelling
import TierQuery.Proofs.Qualifiers
import TierQuery.Proofs.Identifiers
import TierQuery.Proofs.NamePlaces
import TierQuery.Proofs.Fragments
import TierQuery.Proofs.ParentWalk
import TierQuery.Proofs.Endings
import TierQuery.Proofs.Sources
import TierQuery.Proofs.Records
import TierQuery.Proofs.Members
import TierQuery.Proofs.Variables
import TierQuery.Proofs.Checking
import TierQuery.Proofs.Hierarchies
import TierQuery.Proofs.Speakers
