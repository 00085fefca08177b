import Ancestry.Proofs.Graph.Answers
import Ancestry.Proofs.Graph.Stored

/-!
# Looking up where the fan-out leads

Reading a file does not compare the fan-out with the ids, so the part of the table that is searched
may be any part of it, and the ids asked for may stand elsewhere. The search may then miss them, but
it answers nothing that is not so: the id it ends at is compared with the digits before it counts as
a match, and so is the one behind it.
-/

namespace Ancestry

namespace Tables

variable {t : Tables} {p : ObjectId} {n i : Nat}

/-- All that a lookup can answer, whichever part of the table it searched: nothing, or what stands
at a match and right behind it. -/
theorem lookup_cases {m : Match} (h : t.lookup p n = m) :
    m = .none ∨ ∃ i, t.Begins p n i ∧
      (m = .several ∧ n < ObjectId.digitCount ∧ t.Begins p n (i + 1) ∨ m = .only i) := by
  let k := min n ObjectId.digitCount
  let key := p.truncate k
  have hbegins {i : Nat} : t.Begins key k i ↔ t.Begins p n i := begins_truncate.trans begins_min
  have settled {i : Nat} (hi : t.Begins key k i)
      (hm : (if k < ObjectId.digitCount ∧ t.matchesAt key k (i + 1) then .several
        else .only i) = m) :
      ∃ i, t.Begins p n i ∧
        (m = .several ∧ n < ObjectId.digitCount ∧ t.Begins p n (i + 1) ∨ m = .only i) := by
    refine ⟨i, hbegins.mp hi, ?_⟩
    split at hm
    · next hnext =>
      have hlt : n < ObjectId.digitCount := by omega
      exact .inl ⟨hm.symm, hlt, hbegins.mp (matchesAt_iff.mp hnext.2)⟩
    · exact .inr hm.symm
  simp only [lookup] at h
  split at h
  · next hsearch =>
    obtain ⟨_, _, hkey⟩ := ObjectId.Table.search_hit hsearch
    exact .inr (settled ⟨key, hkey, rfl⟩ h)
  · split at h
    · next hmatch => exact .inr (settled (matchesAt_iff.mp hmatch) h)
    · exact .inl h.symm

theorem begins_of_lookup_only (h : t.lookup p n = .only i) : t.Begins p n i := by
  rcases lookup_cases h with hnone | ⟨j, hj, ⟨hseveral, _⟩ | honly⟩
  · cases hnone
  · cases hseveral
  · cases honly
    exact hj

theorem adjacent_of_lookup_several (h : t.lookup p n = .several) :
    n < ObjectId.digitCount ∧ ∃ i, t.Begins p n i ∧ t.Begins p n (i + 1) := by
  rcases lookup_cases h with hnone | ⟨i, hi, ⟨_, hlt, hnext⟩ | honly⟩
  · cases hnone
  · exact ⟨hlt, i, hi, hnext⟩
  · cases honly

theorem lookup_of_forall_not_begins (h : ∀ i, ¬ t.Begins p n i) : t.lookup p n = .none := by
  rcases lookup_cases rfl with hnone | ⟨i, hi, _⟩
  · exact hnone
  · exact absurd hi (h i)

theorem Begins.exists_idAt (h : t.Begins p n i) : i < t.size ∧
    ∃ id, t.idAt i = .ok id ∧ id.digits.take n = p.digits.take n ∧
      (ObjectId.digitCount ≤ n → id = p) := by
  obtain ⟨id, hid, htake⟩ := h
  refine ⟨(Array.getElem?_eq_some_iff.mp hid).1, id, idAt_of_getElem? hid, htake, fun hn => ?_⟩
  exact ObjectId.eq_of_sharesDigits hn (ObjectId.take_digits_eq_iff.mp htake)

end Tables

namespace Graph

/-- Whatever the fan-out of a file says, a lookup reads the table where it has ids and answers
nothing false about them. -/
theorem lookup_sound {file : Bytes} {g : Graph} (hfile : file.length < Format.sizeLimit)
    (h : Graph.parse file = .ok g) (p : ObjectId) (n : Nat) :
    g.readLookup p n = g.tables.lookup p n ∧
      (∀ i, g.tables.lookup p n = .only i → i < g.tables.size ∧
        ∃ id, g.tables.idAt i = .ok id ∧ id.digits.take n = p.digits.take n ∧
          (40 ≤ n → id = p)) ∧
      (g.tables.lookup p n = .several →
        n < 40 ∧ ∃ i, g.tables.Begins p n i ∧ g.tables.Begins p n (i + 1)) ∧
      ((∀ i, ¬ g.tables.Begins p n i) → g.tables.lookup p n = .none) ∧
      ∀ q : ObjectId, q.digits.take n = p.digits.take n →
        g.tables.lookup q n = g.tables.lookup p n := by
  obtain ⟨hwell, hgraph⟩ := Format.wellFormed_of_parse hfile h
  refine ⟨?_, ?_, ?_, ?_, ?_⟩
  · rw [← hgraph]
    exact readLookup_eq hfile hwell p n
  · intro i honly
    exact (Tables.begins_of_lookup_only honly).exists_idAt
  · exact Tables.adjacent_of_lookup_several
  · exact Tables.lookup_of_forall_not_begins
  · intro q hq
    exact Tables.lookup_congr (ObjectId.take_digits_eq_iff.mp hq)

end Graph

namespace Tables

/-- Two commits whose ids begin with one and the same byte. The fan-out counts the first of them in
the bucket before theirs. -/
def astray : Tables where
  fanout := Vector.ofFn fun b => min (b.val + 1) 2
  ids := #[.ofNat 0x0100000000000000000000000000000000000000,
    .ofNat 0x0100000000000000000000000000000000000005]
  records := #[⟨.zero, Record.noParent, Record.noParent, 0, 0⟩,
    ⟨.zero, Record.noParent, Record.noParent, 0, 0⟩]
  edges := #[]
  size_records := rfl

theorem countThrough_astray (b : Fin 256) : astray.countThrough b = min (b.val + 1) 2 :=
  Vector.getElem_ofFn b.isLt

theorem sound_astray : astray.Sound where
  fanout_rises a b hab := by
    have hle : a.val ≤ b.val := hab
    rw [countThrough_astray, countThrough_astray]
    omega
  fanout_last := countThrough_astray 255
  ids_ascending := by
    change List.Pairwise _ _
    decide
  size_pos := by decide
  size_lt := by decide
  records_fit r hr := by
    simp only [astray, List.mem_toArray, List.mem_cons, List.not_mem_nil, or_false] at hr
    rcases hr with rfl | rfl <;> constructor <;> decide
  edges_lt e he := by
    simp only [astray, List.mem_toArray, List.not_mem_nil] at he
  edges_size_lt := by decide

end Tables

namespace Graph

def astrayGraph : Graph := Format.graph Tables.astray.file Tables.astray.layout

/-- Two ids begin with the byte asked for. The search is led past the first and answers the second:
there is such an id at this position, though not only there. -/
theorem lookup_astrayGraph : Tables.astray.file.length < Format.sizeLimit ∧
    Graph.parse Tables.astray.file = .ok astrayGraph ∧ ¬ astrayGraph.tables.InBuckets ∧
    ∃ p : ObjectId, astrayGraph.tables.lookup p 2 = .only 1 ∧ astrayGraph.tables.Begins p 2 0 ∧
      ∃ id, astrayGraph.tables.idAt 1 = .ok id ∧ id.digits.take 2 = p.digits.take 2 := by
  have sound := Tables.sound_astray
  have hfile := sound.length_file_lt
  have hparse : Graph.parse Tables.astray.file = .ok astrayGraph := sound.parse_file
  have htables : astrayGraph.tables = Tables.astray := sound.ofLayout_file
  have hlookup : astrayGraph.tables.lookup (.ofNat (16 ^ 38)) 2 = .only 1 := by
    rw [htables]
    decide +kernel
  obtain ⟨_, honly, _⟩ := lookup_sound hfile hparse (.ofNat (16 ^ 38)) 2
  obtain ⟨_, id, hid, htake, _⟩ := honly 1 hlookup
  refine ⟨hfile, hparse, fun buckets => ?_, _, hlookup, ?_, id, hid, htake⟩
  · rw [htables] at buckets
    have hstart : Tables.astray.countBefore 1 ≤ 0 := (buckets 0 _ rfl).1
    have hbefore : Tables.astray.countBefore 1 = 1 := Tables.countThrough_astray 0
    omega
  · rw [htables]
    exact ⟨_, rfl, rfl⟩

end Graph

end Ancestry
