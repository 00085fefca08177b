import Ancestry.Graph.Lookup
import Ancestry.Proofs.History.Encode

/-!
# Looking up is scanning

The ids that begin with given digits stand side by side, the first of them where the least such id
would stand. If every id lies in the bucket of its first byte, they all lie in the part of the table
that is searched. So the answer of a lookup is the answer of a scan of all ids.
-/

namespace Ancestry

/-- `m` is what a scan for the positions with the property `P` finds. -/
def Match.Answers (P : Nat → Prop) : Match → Prop
  | .only i => P i ∧ ∀ j, P j → j = i
  | .none => ∀ j, ¬ P j
  | .several => ∃ i j, i ≠ j ∧ P i ∧ P j

namespace Match.Answers

variable {P : Nat → Prop} {m : Match} (h : m.Answers P)
include h

theorem eq_only_iff {i : Nat} : m = .only i ↔ P i ∧ ∀ j, P j → j = i := by
  constructor
  · rintro rfl
    exact h
  · intro h'
    rcases h' with ⟨hi, hall⟩
    cases m with
    | only k => rw [hall k h.1]
    | none => exact absurd hi (h i)
    | several =>
      obtain ⟨j, k, hne, hj, hk⟩ := h
      exact absurd ((hall j hj).trans (hall k hk).symm) hne

theorem eq_none_iff : m = .none ↔ ∀ j, ¬ P j := by
  constructor
  · rintro rfl
    exact h
  · intro hall
    cases m with
    | only k => exact absurd h.1 (hall k)
    | none => rfl
    | several =>
      obtain ⟨j, _, _, hj, _⟩ := h
      exact absurd hj (hall j)

theorem eq_several_iff : m = .several ↔ ∃ i j, i ≠ j ∧ P i ∧ P j := by
  constructor
  · rintro rfl
    exact h
  · intro h'
    rcases h' with ⟨i, j, hne, hi, hj⟩
    cases m with
    | only k => exact absurd ((h.2 i hi).trans (h.2 j hj).symm) hne
    | none => exact absurd hi (h i)
    | several => rfl

end Match.Answers

namespace Tables

def Begins (t : Tables) (p : ObjectId) (n i : Nat) : Prop :=
  ∃ id, t.ids[i]? = some id ∧ id.digits.take n = p.digits.take n

variable {t : Tables} {p q key : ObjectId} {n i j : Nat}

theorem begins_iff : t.Begins p n i ↔ ∃ id, t.ids[i]? = some id ∧ id.sharesDigits p n := by
  simp only [Begins, ObjectId.take_digits_eq_iff]

theorem matchesAt_iff : t.matchesAt p n i ↔ t.Begins p n i := by
  rw [begins_iff, matchesAt, Option.any_eq_true]

theorem begins_truncate : t.Begins (p.truncate n) n i ↔ t.Begins p n i := by
  have hkey := ObjectId.sharesDigits_truncate p n
  rw [begins_iff, begins_iff]
  constructor
  · intro h
    rcases h with ⟨id, hid, hshare⟩
    exact ⟨id, hid, ObjectId.sharesDigits_trans hshare hkey⟩
  · intro h
    rcases h with ⟨id, hid, hshare⟩
    exact ⟨id, hid, ObjectId.sharesDigits_trans hshare (ObjectId.sharesDigits_symm hkey)⟩

theorem begins_min : t.Begins p (min n ObjectId.digitCount) i ↔ t.Begins p n i := by
  simp only [begins_iff, ObjectId.sharesDigits_min]

theorem eq_of_begins (hids : t.ids.Ascending) (hn : ObjectId.digitCount ≤ n)
    (hi : t.Begins p n i) (hj : t.Begins p n j) : i = j := by
  obtain ⟨a, ha, hpa⟩ := begins_iff.mp hi
  obtain ⟨b, hb, hpb⟩ := begins_iff.mp hj
  rw [ObjectId.eq_of_sharesDigits hn hpa] at ha
  rw [ObjectId.eq_of_sharesDigits hn hpb] at hb
  exact hids.eq_of_getElem? ha hb

theorem lookup_congr (h : q.sharesDigits p n) : t.lookup q n = t.lookup p n := by
  rw [← ObjectId.sharesDigits_min] at h
  unfold lookup
  simp only [ObjectId.truncate_congr h]

theorem countBefore_le_countBefore (sound : t.Sound) {a b : Fin 256} (hab : a ≤ b) :
    t.countBefore a ≤ t.countBefore b := by
  have hle : a.val ≤ b.val := hab
  unfold countBefore
  by_cases ha : a.val = 0
  · rw [if_pos ha]
    exact Nat.zero_le _
  · rw [if_neg ha, if_neg (by omega)]
    apply sound.fanout_rises
    change a.val - 1 ≤ b.val - 1
    omega

/-- No id that begins with the digits of the key lies outside the part that is searched. -/
theorem mem_candidates (sound : t.Sound) (buckets : t.InBuckets) (h : t.Begins key n i) :
    (t.candidates key.firstByte n).1 ≤ i ∧ i < (t.candidates key.firstByte n).2 := by
  obtain ⟨id, hid, hshare⟩ := begins_iff.mp h
  obtain ⟨hlo, hhi⟩ := buckets i id hid
  match n with
  | 0 =>
    have hsize : i < t.size := (Array.getElem?_eq_some_iff.mp hid).1
    refine ⟨Nat.zero_le _, ?_⟩
    change i < t.countThrough 255
    rwa [sound.fanout_last]
  | 1 =>
    have hfirst := ObjectId.sharesDigits_one.mp hshare
    constructor
    · refine Nat.le_trans (countBefore_le_countBefore sound ?_) hlo
      change key.firstByte.val / 16 * 16 ≤ id.firstByte.val
      omega
    · refine Nat.lt_of_lt_of_le hhi (sound.fanout_rises _ _ ?_)
      change id.firstByte.val ≤ key.firstByte.val / 16 * 16 + 15
      omega
  | n + 2 =>
    have hfirst := ObjectId.sharesDigits_two.mp (ObjectId.sharesDigits_of_le (by omega) hshare)
    rw [hfirst] at hlo hhi
    exact ⟨hlo, hhi⟩

section Search

variable (ids : t.ids.Ascending)
include ids

theorem begins_of_between {a : ObjectId} (ha : t.ids[i]? = some a) (hkey : key ≤ a) (hij : i ≤ j)
    (hj : t.Begins key n j) : t.Begins key n i := by
  obtain ⟨b, hb, hshare⟩ := begins_iff.mp hj
  have hab := ids.le hij ha hb
  refine begins_iff.mpr ⟨a, ha, ObjectId.sharesDigits_symm ?_⟩
  exact ObjectId.sharesDigits_of_between (ObjectId.sharesDigits_symm hshare) hkey hab

variable (least : ∀ id : ObjectId, id.sharesDigits key n → key ≤ id)
include least

/-- From the first match on it is enough to look at its neighbour. -/
theorem answers_of_first {position : Nat} (hfirst : t.Begins key n position)
    (hall : ∀ j, t.Begins key n j → position ≤ j) :
    (if n < ObjectId.digitCount ∧ t.matchesAt key n (position + 1) then Match.several
      else .only position).Answers (t.Begins key n) := by
  split
  · next h => exact ⟨position, position + 1, by omega, hfirst, matchesAt_iff.mp h.2⟩
  · next h =>
    refine ⟨hfirst, fun j hj => ?_⟩
    rcases Nat.lt_or_ge n ObjectId.digitCount with hn | hn
    · rcases Nat.lt_or_eq_of_le (hall j hj) with hlt | heq
      · obtain ⟨b, hb, hshare⟩ := begins_iff.mp hj
        have hsize := (Array.getElem?_eq_some_iff.mp hb).1
        obtain ⟨a, ha, hpa⟩ := begins_iff.mp hfirst
        have hnext : t.ids[position + 1]? = some t.ids[position + 1] :=
          Array.getElem?_eq_getElem (by omega)
        have hle : key ≤ t.ids[position + 1] :=
          ObjectId.le_trans (least a hpa) (ids.le (Nat.le_succ _) ha hnext)
        have hmatch := begins_of_between ids hnext hle hlt hj
        exact absurd ⟨hn, matchesAt_iff.mpr hmatch⟩ h
      · exact heq.symm
    · exact eq_of_begins ids hn hj hfirst

theorem answers_search {lo hi : Nat} (window : ∀ j, t.Begins key n j → lo ≤ j ∧ j < hi) :
    (match t.ids.search lo hi key with
      | .hit position =>
        if n < ObjectId.digitCount ∧ t.matchesAt key n (position + 1) then Match.several
        else .only position
      | .gap position =>
        if t.matchesAt key n position then
          if n < ObjectId.digitCount ∧ t.matchesAt key n (position + 1) then .several
          else .only position
        else .none).Answers (t.Begins key n) := by
  cases hsearch : t.ids.search lo hi key with
  | hit position =>
    obtain ⟨_, _, hkey⟩ := ObjectId.Table.search_hit hsearch
    refine answers_of_first ids least (begins_iff.mpr ⟨key, hkey, by simp⟩) fun j hj => ?_
    obtain ⟨b, hb, hshare⟩ := begins_iff.mp hj
    rcases Nat.lt_or_ge j position with hlt | hge
    · exact absurd (ids.lt hlt hb hkey) (ObjectId.not_lt.mpr (least b hshare))
    · exact hge
  | gap position =>
    have hgap := ObjectId.Table.search_gap hsearch
    -- All matches stand after the gap, so the first of them can only stand right behind it.
    have hall : ∀ j, t.Begins key n j → position ≤ j := by
      intro j hj
      obtain ⟨b, hb, hshare⟩ := begins_iff.mp hj
      have hwindow := window j hj
      have hsize := (Array.getElem?_eq_some_iff.mp hb).1
      rcases hgap.below with heq | ⟨a, ha, hless⟩
      · omega
      · have := ids.lt_of_lt ha hb (Nat.lt_of_lt_of_le hless (least b hshare))
        omega
    by_cases hmatch : t.matchesAt key n position
    · simp only [hmatch, if_true]
      exact answers_of_first ids least (matchesAt_iff.mp hmatch) hall
    · simp only [hmatch]
      intro j hj
      obtain ⟨b, hb, hshare⟩ := begins_iff.mp hj
      have hwindow := window j hj
      have hsize := (Array.getElem?_eq_some_iff.mp hb).1
      have hne : position ≠ j := fun heq => hmatch (matchesAt_iff.mpr (heq ▸ hj))
      have hle := hall j hj
      rcases hgap.above with heq | ⟨a, ha, hless⟩
      · omega
      · have hkey : key ≤ a := (ObjectId.lt_iff_le_and_ne.mp hless).1
        exact hmatch (matchesAt_iff.mpr (begins_of_between ids ha hkey hle hj))

end Search

/-- A lookup answers what a scan of all ids would. -/
theorem answers_lookup (sound : t.Sound) (buckets : t.InBuckets) :
    (t.lookup p n).Answers (t.Begins p n) := by
  have hbegins {j : Nat} : t.Begins (p.truncate (min n ObjectId.digitCount))
      (min n ObjectId.digitCount) j ↔ t.Begins p n j := begins_truncate.trans begins_min
  have hsame : t.Begins p n = t.Begins (p.truncate (min n ObjectId.digitCount))
      (min n ObjectId.digitCount) := funext fun j => propext hbegins.symm
  rw [hsame]
  apply answers_search sound.ids_ascending
  · intro id hid
    exact ObjectId.truncate_le (ObjectId.sharesDigits_symm
      (ObjectId.sharesDigits_trans hid (ObjectId.sharesDigits_truncate p _)))
  · exact fun j hj => mem_candidates sound buckets hj

theorem find_of_getElem? (sound : t.Sound) (buckets : t.InBuckets) (hn : ObjectId.digitCount ≤ n)
    (hid : t.ids[i]? = some p) : t.find p n = t.commitAt i := by
  have hbegins : t.Begins p n i := ⟨p, hid, rfl⟩
  have hlookup : t.lookup p n = .only i := (answers_lookup sound buckets).eq_only_iff.mpr
    ⟨hbegins, fun j hj => eq_of_begins sound.ids_ascending hn hj hbegins⟩
  rw [find, hlookup]

end Tables

/-- In a file whose ids stand in their buckets, looking up the first `n` digits of an id finds what
a scan of all ids finds, and takes no notice of later digits. -/
theorem Graph.lookup_iff_begins {file : Bytes} {g : Graph} (hfile : file.length < Format.sizeLimit)
    (h : Graph.parse file = .ok g) (buckets : g.tables.InBuckets) (p : ObjectId) (n : Nat) :
    (∀ i, g.tables.lookup p n = .only i ↔
        g.tables.Begins p n i ∧ ∀ j, g.tables.Begins p n j → j = i) ∧
      (g.tables.lookup p n = .none ↔ ∀ i, ¬ g.tables.Begins p n i) ∧
      (g.tables.lookup p n = .several ↔
        ∃ i j, i ≠ j ∧ g.tables.Begins p n i ∧ g.tables.Begins p n j) ∧
      (40 ≤ n → g.tables.lookup p n ≠ .several) ∧
      ∀ q : ObjectId, q.digits.take n = p.digits.take n →
        g.tables.lookup q n = g.tables.lookup p n := by
  have sound := sound_of_parse hfile h
  have hanswers := Tables.answers_lookup (p := p) (n := n) sound buckets
  refine ⟨fun i => hanswers.eq_only_iff, hanswers.eq_none_iff, hanswers.eq_several_iff, ?_, ?_⟩
  · intro hn hseveral
    obtain ⟨i, j, hne, hi, hj⟩ := hanswers.eq_several_iff.mp hseveral
    exact hne (Tables.eq_of_begins sound.ids_ascending hn hi hj)
  · intro q hq
    exact Tables.lookup_congr (ObjectId.take_digits_eq_iff.mp hq)

/-- Two ids of the sample differ in their last digit only. -/
theorem Graph.lookup_sampleGraph : History.sampleFile.length < Format.sizeLimit ∧
    Graph.parse History.sampleFile = .ok History.sampleGraph ∧
    History.sampleGraph.tables.InBuckets ∧
    History.sampleGraph.tables.lookup (.ofNat 0x0700000000000000000000000000000000000005) 39 =
      .several ∧
    History.sampleGraph.tables.lookup (.ofNat 0x0700000000000000000000000000000000000009) 40 =
      .only 2 := by
  have hlookup := lookup_iff_begins History.length_sampleFile History.parse_sampleFile
    History.prepared_sample.inBuckets_tables
  have htables := History.tables_sampleGraph
  refine ⟨History.length_sampleFile, History.parse_sampleFile,
    History.prepared_sample.inBuckets_tables, ?_, ?_⟩
  · apply (hlookup (.ofNat 0x0700000000000000000000000000000000000005) 39).2.2.1.mpr
    rw [htables]
    exact ⟨1, 2, by decide, ⟨_, rfl, by decide⟩, ⟨_, rfl, by decide⟩⟩
  · apply ((hlookup (.ofNat 0x0700000000000000000000000000000000000009) 40).1 2).mpr
    rw [htables]
    refine ⟨⟨_, rfl, rfl⟩, ?_⟩
    rintro j ⟨id, hid, htake⟩
    have hj : j < 3 := (Array.getElem?_eq_some_iff.mp hid).1
    match j with
    | 0 | 1 =>
      obtain rfl := Option.some.inj hid
      exact absurd htake (by decide)
    | 2 => rfl

end Ancestry
