import Ancestry.GraphError

/-!
# Reads that stay inside a region

Any list of bytes is a region. A read names an offset and a length, and succeeds when all of it
lies inside; a region inside a region is again a list of bytes, with offsets of its own.
-/

namespace Ancestry.Bytes

def slice (region : Bytes) (offset length : Nat) : Except GraphError Bytes :=
  if offset + length ≤ region.length then .ok ((region.drop offset).take length)
  else .error (.outOfBounds offset length region.length)

/-- The region of a span. A span that ends before it starts is empty. -/
def sub (region : Bytes) (span : Span) : Except GraphError Bytes :=
  region.slice span.start (span.stop - span.start)

def number (region : Bytes) (length offset : Nat) : Except GraphError Nat :=
  (region.slice offset length).map toNat

def objectId (region : Bytes) (offset : Nat) : Except GraphError ObjectId :=
  (region.slice offset ObjectId.byteCount).map ObjectId.ofBytes

theorem length_of_slice {region bs : Bytes} {offset length : Nat}
    (h : region.slice offset length = .ok bs) : bs.length = length := by
  unfold slice at h
  split at h
  · next hle =>
    obtain rfl := Except.ok.inj h
    rw [List.length_take, List.length_drop]
    omega
  · simp at h

end Ancestry.Bytes
