import TrackedGraph.Fault
import TrackedGraph.MixedContent
import TrackedGraph.Notice
import TrackedGraph.Schema.Conform
import TrackedGraph.Schema.Resolve
import TrackedGraph.Text.Json
import TrackedGraph.Text.Reading
import TrackedGraph.Forest.Containment
import TrackedGraph.Subscriptions
import TrackedGraph.Journal.Views
import TrackedGraph.Audience
import TrackedGraph.Document.Edit
import TrackedGraph.Document.Mutation
import TrackedGraph.Recording
import TrackedGraph.Scenario.Run
import TrackedGraph.Proofs.Forest.Lookup
import TrackedGraph.Proofs.Forest.Write
import TrackedGraph.Proofs.Forest.Tree
import TrackedGraph.Proofs.Schema.Coherent
import TrackedGraph.Proofs.Forest.Claims
import TrackedGraph.Proofs.Forest.Fit
import TrackedGraph.Proofs.Forest.Admit
import TrackedGraph.Proofs.Forest.Sound
import TrackedGraph.Proofs.Document.Ends
import TrackedGraph.Proofs.Notice
import TrackedGraph.Proofs.Document.Step
import TrackedGraph.Proofs.Forest.Rewrites
import TrackedGraph.Proofs.Document.Single
import TrackedGraph.Proofs.Forest.Whereabouts
import TrackedGraph.Proofs.Document.Moving
import TrackedGraph.Proofs.Document.Intake
import TrackedGraph.Proofs.Forest.Agreement
import TrackedGraph.Proofs.Document.Reachable
import TrackedGraph.Proofs.Forest.Climbing
import TrackedGraph.Proofs.Forest.Shaped
import TrackedGraph.Proofs.Document.Shaping
import TrackedGraph.Proofs.Document.Conforming
import TrackedGraph.Proofs.Document.Acyclic
import TrackedGraph.Proofs.Document.Restoring
import TrackedGraph.Proofs.Document.Mirroring
import TrackedGraph.Proofs.Audience
import TrackedGraph.Proofs.Document.Composing
import TrackedGraph.Proofs.Document.Respecting
import TrackedGraph.Proofs.Forest.Contents
import TrackedGraph.Proofs.Tracking
import TrackedGraph.Proofs.Recording.Following
import TrackedGraph.Proofs.Recording.Session
import TrackedGraph.Proofs.Journal
import TrackedGraph.Proofs.Value
import TrackedGraph.Proofs.Recording.Remembering
import TrackedGraph.Proofs.Forest.Assigning
import TrackedGraph.Proofs.Document.Reverting
import TrackedGraph.Proofs.Recording.Undoing
import TrackedGraph.Proofs.Document.Unrefused
import TrackedGraph.Proofs.Recording.Noting
import TrackedGraph.Proofs.Recording.Attesting
import TrackedGraph.Proofs.Recording.Verifying
import TrackedGraph.Proofs.Journal.Views
import TrackedGraph.Proofs.Recording.Watching
import TrackedGraph.Proofs.Recording.Summarizing
import TrackedGraph.Proofs.Recording.Answering
import TrackedGraph.Proofs.Recording.Calling
import TrackedGraph.Proofs.Recording.Dating
import TrackedGraph.Proofs.Journal.Reliable
import TrackedGraph.Proofs.Recording.Using
import TrackedGraph.Proofs.Recording.Redoing
import TrackedGraph.Proofs.Recording.Steady
import TrackedGraph.Proofs.Document.Failing
import TrackedGraph.Proofs.Recording.Rejecting
import TrackedGraph.Proofs.Recording.Solitary
import TrackedGraph.Proofs.Recording.Rejoining
import TrackedGraph.Proofs.Recording.Resuming
import TrackedGraph.Proofs.Document.Seating
import TrackedGraph.Proofs.Recording.Sharing
import TrackedGraph.Proofs.Forest.Aligned
import TrackedGraph.Proofs.Forest.Faults
import TrackedGraph.Proofs.Document.Alike
import TrackedGraph.Proofs.Recording.Refusing
import TrackedGraph.Proofs.Document.Overhearing
import TrackedGraph.Proofs.Recording.Accompanying
import TrackedGraph.Proofs.Document.Consenting
import TrackedGraph.Proofs.Recording.Rewinding
import TrackedGraph.Proofs.Journal.Reducing
import TrackedGraph.Proofs.Document.Walking
import TrackedGraph.Proofs.Forest.Without
import TrackedGraph.Proofs.Document.Settling
import TrackedGraph.Proofs.Document.Inserting
import TrackedGraph.Proofs.Forest.Restock
import TrackedGraph.Proofs.Document.Restocking
import TrackedGraph.Proofs.Subscriptions
import TrackedGraph.Proofs.Announcing
import TrackedGraph.Proofs.Document.Interleaving
import TrackedGraph.Proofs.Recording.Expanding
import TrackedGraph.Proofs.Schema.Cataloguing
import TrackedGraph.Proofs.Recording.Chronicling
import TrackedGraph.Proofs.Document.Depth
