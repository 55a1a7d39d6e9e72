import BuckosDistro.Lib.Machine
import BuckosDistro.Lib.Lists
import BuckosDistro.Lib.Components
import BuckosDistro.Lib.Chunks
import BuckosDistro.Lib.Raise
import BuckosDistro.Lib.Parens
import BuckosDistro.Lib.Reader
import BuckosDistro.Lib.Varint
import BuckosDistro.Lib.PyInt
import BuckosDistro.Lib.Rfc6901
import BuckosDistro.Lib.Placement
import BuckosDistro.Lib.FileTree
import BuckosDistro.Lib.Links
import BuckosDistro.Lib.Paths
import BuckosDistro.Lib.Reloaded
import BuckosDistro.Lib.Ordered
import BuckosDistro.Lib.Rounds
import BuckosDistro.Depgraph.Plain
import BuckosDistro.Depgraph.OnePackage
import BuckosDistro.Depgraph.OneOf
import BuckosDistro.Depgraph.Leaf
import BuckosDistro.Depgraph.Conditional
import BuckosDistro.Depgraph.Confluence
import BuckosDistro.Depgraph.Plan
import BuckosDistro.Depgraph.Roots
import BuckosDistro.Depgraph.Ticks
import BuckosDistro.Depgraph.LeastClosed
import BuckosDistro.Depgraph.Cycles
import BuckosDistro.Depgraph.Bounds
import BuckosDistro.Depgraph.WithRange
import BuckosDistro.Depgraph.Spelled
import BuckosDistro.Depgraph.Scan
import BuckosDistro.Depgraph.Printed
import BuckosDistro.Depgraph.Regrouped
import BuckosDistro.Solve.Merge
import BuckosDistro.Solve.Ranges
import BuckosDistro.Solve.NewestWins
import BuckosDistro.Solve.Superseded
import BuckosDistro.Solve.Emitted
import BuckosDistro.Solve.Fallback
import BuckosDistro.Solve.Producers
import BuckosDistro.Solve.Variants
import BuckosDistro.Solve.Lockfile
import BuckosDistro.Solve.Routed
import BuckosDistro.Solve.SourceImages
import BuckosDistro.Solve.PackageSet
import BuckosDistro.Solve.Stated
import BuckosDistro.Solve.Frame
import BuckosDistro.Solve.Alike
import BuckosDistro.Policy.SourcePolicy
import BuckosDistro.Policy.Recorded
import BuckosDistro.Policy.Validated
import BuckosDistro.Upstream.Overlay
import BuckosDistro.Generate.Collect
import BuckosDistro.Generate.SourceShards
import BuckosDistro.Family.Recipes
import BuckosDistro.Family.Staged
import BuckosDistro.Family.Probe
import BuckosDistro.Family.Provenance
import BuckosDistro.Family.Targets
import BuckosDistro.Family.Schedule
import BuckosDistro.Family.Downloads
import BuckosDistro.Family.Rules
import BuckosDistro.Family.Graph
import BuckosDistro.Family.Release
import BuckosDistro.Relock.Refresh
import BuckosDistro.Relock.Requested
import BuckosDistro.Relock.Converge
import BuckosDistro.Relock.FixedPoint
import BuckosDistro.Relock.Resolved
import BuckosDistro.Verity.Binding
import BuckosDistro.Verity.HashTree
import BuckosDistro.Verity.Layout
import BuckosDistro.Oci.Archive
import BuckosDistro.Oci.Checks
import BuckosDistro.Oci.Pinned
import BuckosDistro.Oci.Acquire
import BuckosDistro.Oci.Contract
import BuckosDistro.Oci.Names
import BuckosDistro.Oci.Gathered
import BuckosDistro.Oci.Agree
import BuckosDistro.Oci.Accepted
import BuckosDistro.Reapi.Proto
import BuckosDistro.Reapi.Capabilities
import BuckosDistro.Reapi.Messages
import BuckosDistro.Reapi.RoundTrip
import BuckosDistro.Lockfile.JsonPointer
import BuckosDistro.Lockfile.Convert
import BuckosDistro.Debian.Control
import BuckosDistro.Debian.Status
import BuckosDistro.Debian.SourceFiles
import BuckosDistro.Uki.Sections
import BuckosDistro.Squashfs.Pseudo
import BuckosDistro.Payload.Nest
import BuckosDistro.Payload.Overlay
import BuckosDistro.Payload.Bundle
import BuckosDistro.Payload.Relocate
