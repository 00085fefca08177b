import Ancestry.Describe
import Ancestry.History.Encode
import Ancestry.Store.Current
import Ancestry.Proofs.Bytes.Window
import Ancestry.Proofs.Outcome
import Ancestry.Proofs.ObjectId.Order
import Ancestry.Proofs.ObjectId.Search
import Ancestry.Proofs.ObjectId.Text
import Ancestry.Proofs.ObjectId.Packed
import Ancestry.Proofs.ObjectId.Halves
import Ancestry.Proofs.ObjectId.Full
import Ancestry.Proofs.Settings
import Ancestry.Proofs.Text.Quoted
import Ancestry.Proofs.Chunk.Directory
import Ancestry.Proofs.Chunk.Draft
import Ancestry.Proofs.Layout
import Ancestry.Proofs.Format
import Ancestry.Proofs.Graph.Tables
import Ancestry.Proofs.Graph.Stored
import Ancestry.Proofs.Graph.Commits
import Ancestry.Proofs.Graph.Lookup
import Ancestry.Proofs.Graph.Verify
import Ancestry.Proofs.Graph.Parents
import Ancestry.Proofs.Graph.Places
import Ancestry.Proofs.Graph.Astray
import Ancestry.Proofs.Graph.Buckets
import Ancestry.Proofs.Chunk.Assembly
import Ancestry.Proofs.History.Placement
import Ancestry.Proofs.History.Tables
import Ancestry.Proofs.History.Encode
import Ancestry.Proofs.History.RoundTrip
import Ancestry.Proofs.Graph.Parse
import Ancestry.Proofs.Graph.Reads
import Ancestry.Proofs.Graph.Seal
import Ancestry.Proofs.Graph.Faults
import Ancestry.Proofs.Graph.Find
import Ancestry.Proofs.History.Readable
import Ancestry.Proofs.History.Rebuild
import Ancestry.Proofs.Graph.Walks
import Ancestry.Proofs.Graph.Answers
import Ancestry.Proofs.Store.Opened
import Ancestry.Proofs.Store.Current
import Ancestry.Proofs.Store.Refresh
import Ancestry.Proofs.Store.Runs
import Ancestry.Proofs.Graph.Corrupt
import Ancestry.Proofs.History.Permuted
import Ancestry.Proofs.Store.Corrupt
import Ancestry.Proofs.History.Faults
import Ancestry.Proofs.History.Refusals
import Ancestry.Proofs.History.Generations
import Ancestry.Proofs.History.EdgeList
import Ancestry.Proofs.Record.Codec
import Ancestry.Proofs.Chunk.Tiling
import Ancestry.Proofs.Store.Probe
import Ancestry.Proofs.Store.Opening
import Ancestry.Proofs.Chunk.Pushes
import Ancestry.Proofs.Bytes.Nested
