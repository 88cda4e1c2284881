import Unwinding.Config
import Unwinding.Context.Basic
import Unwinding.Context.Raise
import Unwinding.Context.Region
import Unwinding.Depths
import Unwinding.Error
import Unwinding.Event
import Unwinding.Frame
import Unwinding.Kind
import Unwinding.Kind.Archive
import Unwinding.Kind.Registry
import Unwinding.Kind.Table
import Unwinding.Machine.Basic
import Unwinding.Machine.Handle
import Unwinding.Machine.Progress
import Unwinding.Machine.Run
import Unwinding.Machine.Step
import Unwinding.Machine.Weight
import Unwinding.Notice
import Unwinding.Program
import Unwinding.Proofs.Abandonment
import Unwinding.Proofs.Agreement
import Unwinding.Proofs.Alongside
import Unwinding.Proofs.Ancestry
import Unwinding.Proofs.Arrivals
import Unwinding.Proofs.Belonging
import Unwinding.Proofs.Beneath
import Unwinding.Proofs.Books
import Unwinding.Proofs.CallExits
import Unwinding.Proofs.Capacity
import Unwinding.Proofs.Closing
import Unwinding.Proofs.Composure
import Unwinding.Proofs.Conservation
import Unwinding.Proofs.Courses
import Unwinding.Proofs.Cuts
import Unwinding.Proofs.Declarations
import Unwinding.Proofs.Deeds
import Unwinding.Proofs.Destructors
import Unwinding.Proofs.Detachment
import Unwinding.Proofs.Drafts
import Unwinding.Proofs.Dues
import Unwinding.Proofs.Effects
import Unwinding.Proofs.Ends
import Unwinding.Proofs.Escapes
import Unwinding.Proofs.Exits
import Unwinding.Proofs.Extent
import Unwinding.Proofs.Flight
import Unwinding.Proofs.Flow
import Unwinding.Proofs.Footing
import Unwinding.Proofs.GuardBodies
import Unwinding.Proofs.Handling
import Unwinding.Proofs.Heights
import Unwinding.Proofs.Imprints
import Unwinding.Proofs.Interludes
import Unwinding.Proofs.Keeping
import Unwinding.Proofs.Kinship
import Unwinding.Proofs.Layout
import Unwinding.Proofs.Leaving
import Unwinding.Proofs.Lineage
import Unwinding.Proofs.Lives
import Unwinding.Proofs.Marks
import Unwinding.Proofs.Nesting
import Unwinding.Proofs.Newest
import Unwinding.Proofs.Nodes
import Unwinding.Proofs.Operations
import Unwinding.Proofs.Ownership
import Unwinding.Proofs.Panics
import Unwinding.Proofs.Plain
import Unwinding.Proofs.PlainLaws
import Unwinding.Proofs.Readings
import Unwinding.Proofs.Recovery
import Unwinding.Proofs.Registration
import Unwinding.Proofs.Restoration
import Unwinding.Proofs.Room
import Unwinding.Proofs.Scopes
import Unwinding.Proofs.Sizes
import Unwinding.Proofs.Sound
import Unwinding.Proofs.Stages
import Unwinding.Proofs.Statements
import Unwinding.Proofs.Termination
import Unwinding.Proofs.Tickets
import Unwinding.Proofs.Travels
import Unwinding.Proofs.Waiting
import Unwinding.Proofs.WellFormed
import Unwinding.Proofs.Writes
import Unwinding.Record
import Unwinding.Region
import Unwinding.Site
import Unwinding.Stack
import Unwinding.Stack.Rack
import Unwinding.Text.Boundary
import Unwinding.Text.Bounded
import Unwinding.Text.Printable
import Unwinding.Text.Quoted
