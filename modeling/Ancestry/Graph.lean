import Ancestry.Graph.Verify

/-!
# Graphs

A graph is a file that has been read and checked. The file ends in a trailer, the digest of all that
stands before it, and the trailer is compared before any chunk is trusted.
-/

namespace Ancestry

structure Graph where
  file : Bytes
  header : Header
  layout : Layout
  checksum : ObjectId
  tables : Tables

namespace Graph

def minSize : Nat := Header.byteCount + ObjectId.byteCount

def parse (file : Bytes) : Except GraphError Graph :=
  if file.length < minSize then .error (.tooShort file.length)
  else do
    let header ← Header.parse file
    let trailer := file.length - ObjectId.byteCount
    if trailer < header.tableEnd then .error (.noRoom trailer header.tableEnd)
    else
      let stored := ObjectId.ofBytes (file.drop trailer)
      let computed := ObjectId.ofContents (file.take trailer)
      if computed ≠ stored then .error (.checksum stored computed)
      else
        let chunks ← Directory.read file header trailer
        let draft ← Draft.ofChunks chunks
        let layout ← draft.finish file
        .ok { file, header, layout, checksum := stored, tables := .ofLayout file layout }

end Graph

end Ancestry
