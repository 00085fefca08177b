import Ancestry.Graph

/-!
# Descriptions for diagnostics

A description names the type of a value and its fields on one line, for use in logs and debuggers.
-/

namespace Ancestry

def ObjectId.describe (id : ObjectId) : String :=
  s!"ObjectId({id})"

def Tag.describe (t : Tag) : String :=
  s!"ChunkId({t})"

def Kind.describe : Kind → String
  | .fanout => "OidFanout"
  | .ids => "OidLookup"
  | .commits => "CommitData"
  | .edges => "ExtraEdgeList"
  | .bloom t => s!"Unsupported({t.describe})"

/-- The bytes of the signature are shown in decimal. -/
def Header.describe (h : Header) : String :=
  let signature := ", ".intercalate (h.signature.toBytes.map fun b => toString b.toNat)
  s!"GraphHeader \x7b signature: [{signature}], version: {h.version.toNat}, " ++
    s!"oid_version: {h.hashVersion.toNat}, chunk_count: {h.chunkCount.toNat}, " ++
    s!"base_graph_count: {h.baseCount.toNat} \x7d"

/-- The tables are left out, which the two dots at the end stand for. -/
def Graph.describe (g : Graph) : String :=
  s!"CommitGraph \x7b header: {g.header.describe}, num_commits: {g.tables.size}, " ++
    s!"num_extra_edges: {g.tables.edges.size}, checksum: {g.checksum.describe}, .. \x7d"

end Ancestry
