import Goalbase.Binary64
import Goalbase.Checksum
import Goalbase.Config
import Goalbase.Constraint
import Goalbase.Counters
import Goalbase.Decimal.Shortest
import Goalbase.Engine
import Goalbase.Goal
import Goalbase.Identifier
import Goalbase.Json
import Goalbase.Json.Document
import Goalbase.Json.Text
import Goalbase.Json.Token
import Goalbase.Kind
import Goalbase.Log
import Goalbase.Number
import Goalbase.Order
import Goalbase.Proofs.Chains
import Goalbase.Proofs.Literals
import Goalbase.Proofs.Updates
import Goalbase.Query
import Goalbase.Record
import Goalbase.Registry
import Goalbase.Registry.Constructors
import Goalbase.Relations
import Goalbase.State
import Goalbase.State.Projection
import Goalbase.State.Unify
import Goalbase.Store
import Goalbase.Store.Disk
import Goalbase.Store.Local
import Goalbase.Store.Memory
import Goalbase.Stream
import Goalbase.Table
import Goalbase.Term
import Goalbase.Text.Quoted
import Goalbase.Text.Unprintable
import Goalbase.Trace
import Goalbase.Tree
import Goalbase.Tree.Conversion
import Goalbase.Tree.Format
import Goalbase.Utf8
import Goalbase.Proofs.Unifying
import Goalbase.Proofs.Solutions
import Goalbase.Proofs.Draining
import Goalbase.Proofs.FairSearch
import Goalbase.Proofs.Branches
import Goalbase.Proofs.Enforcement
import Goalbase.Proofs.Depth
import Goalbase.Proofs.Least
import Goalbase.Proofs.Conjunction
import Goalbase.Proofs.Pulling
import Goalbase.Proofs.Turns
import Goalbase.Proofs.Serving
import Goalbase.Proofs.Enumerating
import Goalbase.Proofs.Returning
import Goalbase.Proofs.Starvation
import Goalbase.Proofs.Blocking
import Goalbase.Proofs.Lexing
import Goalbase.Proofs.Scanning
import Goalbase.Proofs.Joining
import Goalbase.Proofs.Spacing
import Goalbase.Proofs.Grammar
import Goalbase.Proofs.Parsing
import Goalbase.Proofs.Storing
import Goalbase.Proofs.Converting
import Goalbase.Proofs.Copies
import Goalbase.Proofs.Mirroring
import Goalbase.Proofs.Reloading
import Goalbase.Proofs.Reaching
import Goalbase.Proofs.Carrying
import Goalbase.Proofs.Kinds
import Goalbase.Proofs.Observing
import Goalbase.Proofs.Nesting
import Goalbase.Proofs.Waiting
import Goalbase.Proofs.Waking
import Goalbase.Proofs.Timing
import Goalbase.Proofs.Spelling
import Goalbase.Proofs.Growing
import Goalbase.Proofs.Comparing
import Goalbase.Proofs.ByteOrder
import Goalbase.Proofs.Framing
import Goalbase.Proofs.Disks
import Goalbase.Proofs.Contents
import Goalbase.Proofs.Stores
import Goalbase.Proofs.Archiving
import Goalbase.Proofs.Bursts
import Goalbase.Proofs.Damage
import Goalbase.Proofs.Rounds
import Goalbase.Proofs.Running
import Goalbase.Proofs.Accounting
import Goalbase.Proofs.Collecting
import Goalbase.Proofs.Selecting
import Goalbase.Proofs.Rounding
import Goalbase.Proofs.Ordering
import Goalbase.Proofs.Deciding
import Goalbase.Proofs.Calling
import Goalbase.Proofs.Rotation
import Goalbase.Proofs.Members
import Goalbase.Proofs.Varying
import Goalbase.Proofs.Roles
import Goalbase.Proofs.Tolerance
import Goalbase.Proofs.Combining
import Goalbase.Proofs.Admitting
import Goalbase.Proofs.Touching
import Goalbase.Proofs.Confining
import Goalbase.Proofs.Stopping
import Goalbase.Proofs.Rendering
import Goalbase.Proofs.Logging
import Goalbase.Proofs.Judging
import Goalbase.Proofs.Equating
import Goalbase.Proofs.Respecting
