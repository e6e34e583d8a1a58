import EventSchema.Graph.Query
import EventSchema.Main
import EventSchema.Repository
import EventSchema.Proofs.Entries
import EventSchema.Proofs.Outcome
import EventSchema.Proofs.Lineage.Ancestry
import EventSchema.Proofs.Lineage.Walk
import EventSchema.Proofs.Lineage.Descend
import EventSchema.Proofs.Lineage.Inheritance
import EventSchema.Proofs.Cache
import EventSchema.Proofs.Compilation
import EventSchema.Proofs.Draft.Attributes
import EventSchema.Proofs.Draft.Categories
import EventSchema.Proofs.Draft.Closure
import EventSchema.Proofs.Draft.Datetime
import EventSchema.Proofs.Draft.Dictionary
import EventSchema.Proofs.Draft.Links
import EventSchema.Proofs.Draft.Observables
import EventSchema.Proofs.Draft.Parted
import EventSchema.Proofs.Graph.Closure
import EventSchema.Proofs.Graph.Outside
import EventSchema.Proofs.Contribution.Dictionary
import EventSchema.Proofs.Contribution.Requirement
import EventSchema.Proofs.Include.Content
import EventSchema.Proofs.Include.Directives
import EventSchema.Proofs.Include.Expansion
import EventSchema.Proofs.Include.Cycles
import EventSchema.Proofs.Lineage.Stepwise
import EventSchema.Proofs.Conservative
import EventSchema.Proofs.Documents
import EventSchema.Proofs.Merging
import EventSchema.Proofs.ObjectTypes
import EventSchema.Proofs.Uids
import EventSchema.Proofs.Contribution.Patched
import EventSchema.Proofs.Draft.Captions
import EventSchema.Proofs.Graph.Touched
import EventSchema.Proofs.Repository
import EventSchema.Proofs.Untouched
import EventSchema.Proofs.Attribute
import EventSchema.Proofs.Graph.Carried
import EventSchema.Proofs.Ensures
import EventSchema.Proofs.Lineage.Shape
import EventSchema.Proofs.Draft.Declared
import EventSchema.Proofs.Draft.Formed
import EventSchema.Proofs.Draft.Identified
import EventSchema.Proofs.Draft.Complete
import EventSchema.Proofs.Graph.WellFormed
import EventSchema.Proofs.Graph.Observables
import EventSchema.Proofs.Graph.Finished
import EventSchema.Proofs.Graph.Requirements
import EventSchema.Proofs.Graph.Timestamps
import EventSchema.Proofs.Graph.TypeUids
import EventSchema.Proofs.Graph.Categories
import EventSchema.Proofs.Graph.Dictionary
import EventSchema.Proofs.Graph.Numbers
import EventSchema.Proofs.Records
import EventSchema.Proofs.Session
import EventSchema.Proofs.Homes
import EventSchema.Proofs.ProfileTags
import EventSchema.Proofs.Course
import EventSchema.Proofs.Draft.Consolidated
import EventSchema.Proofs.Summary
import EventSchema.Proofs.Range.Identifiers
import EventSchema.Proofs.Dictionary
import EventSchema.Proofs.Lineage.Cycles
import EventSchema.Proofs.Lineage.History
import EventSchema.Proofs.Contribution.Patching
import EventSchema.Proofs.Order.Build
import EventSchema.Proofs.Duplicates
import EventSchema.Proofs.Include.Tolerance
import EventSchema.Proofs.Lineage.Captions
import EventSchema.Proofs.Collisions
