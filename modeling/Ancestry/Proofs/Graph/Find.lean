import Ancestry.Proofs.Graph.Faults
import Ancestry.Proofs.Graph.Lookup
import Ancestry.Proofs.ObjectId.Text

/-!
# Finding commits by text

An abbreviated id is read, padded, looked up by its bucket and searched for by halving. All this
comes down to writing out every id and taking those that begin with the text in lower case.
-/

namespace Ancestry

namespace Tables

def StartsWith (t : Tables) (text : String) (i : Nat) : Prop :=
  ∃ id, t.ids[i]? = some id ∧ text.toList <+: id.toHex.toList

instance (t : Tables) (text : String) (i : Nat) : Decidable (t.StartsWith text i) :=
  decidable_of_iff (t.ids[i]?.any fun id => text.toList.isPrefixOf id.toHex.toList)
    (by simp only [StartsWith, Option.any_eq_true, List.isPrefixOf_iff_prefix])

/-- What a text finds: it is refused, or one id begins with it, or none does, or several do. -/
inductive Finds (t : Tables) (text : String) : Except GraphError Commit → Prop
  | refused {e : IdError} : Abbreviation.Refused text e → Finds t text (.error (.badId e))
  | only {i : Nat} : Abbreviation.Readable text → t.StartsWith text.toLower i →
      (∀ j, t.StartsWith text.toLower j → j = i) → Finds t text (t.commitAt i)
  | none : Abbreviation.Readable text → (∀ i, ¬ t.StartsWith text.toLower i) →
      Finds t text (.error (.noMatch text.toLower))
  | several {i j : Nat} : Abbreviation.Readable text → i ≠ j → t.StartsWith text.toLower i →
      t.StartsWith text.toLower j → Finds t text (.error (.ambiguous text.toLower))

variable {t : Tables} {text : String} {r : Except GraphError Commit}

section Spelled

variable {a : Abbreviation} (h : a.Spells text)
include h

theorem startsWith_iff_begins {i : Nat} :
    t.StartsWith text.toLower i ↔ t.Begins a.id a.length i := by
  have hprefix (id : ObjectId) : text.toLower.toList <+: id.toHex.toList ↔
      id.digits.take a.length = a.id.digits.take a.length := by
    rw [List.prefix_iff_eq_take, Abbreviation.length_toLower, ← h.length,
      ← ObjectId.take_toHex_eq_iff, h.take_toHex]
    exact eq_comm
  simp only [StartsWith, Begins, hprefix]

theorem answers_startsWith (sound : t.Sound) (buckets : t.InBuckets) :
    (t.lookup a.id a.length).Answers (t.StartsWith text.toLower) := by
  have hsame : t.StartsWith text.toLower = t.Begins a.id a.length :=
    funext fun i => propext (startsWith_iff_begins h)
  rw [hsame]
  exact answers_lookup sound buckets

theorem find_eq_noMatch (hnone : t.lookup a.id a.length = .none) :
    t.find a.id a.length = .error (.noMatch text.toLower) := by
  rw [find, hnone, ← h.abbreviate_eq]

theorem find_eq_ambiguous (hseveral : t.lookup a.id a.length = .several) :
    t.find a.id a.length = .error (.ambiguous text.toLower) := by
  rw [find, hseveral, ← h.abbreviate_eq]

end Spelled

theorem findHex_of_refused {e : IdError} (h : Abbreviation.Refused text e) :
    t.findHex text = .error (.badId e) := by
  rw [findHex, Abbreviation.ofText_eq_error_iff.mpr h]

theorem findHex_of_readable (h : Abbreviation.Readable text) :
    ∃ a : Abbreviation, a.Spells text ∧ t.findHex text = t.find a.id a.length := by
  obtain ⟨a, ha, hspells⟩ := Abbreviation.exists_ofText_of_readable h
  refine ⟨a, hspells, ?_⟩
  rw [findHex, ha]

section Sound

variable (sound : t.Sound)
include sound

theorem eq_of_startsWith {i j : Nat} (hread : Abbreviation.Readable text)
    (hlength : ObjectId.digitCount ≤ text.length) (hi : t.StartsWith text.toLower i)
    (hj : t.StartsWith text.toLower j) : i = j := by
  obtain ⟨a, _, hspells⟩ := Abbreviation.exists_ofText_of_readable hread
  rw [startsWith_iff_begins hspells] at hi hj
  exact eq_of_begins sound.ids_ascending (hspells.length ▸ hlength) hi hj

variable (buckets : t.InBuckets)
include buckets

theorem finds_findHex (text : String) : t.Finds text (t.findHex text) := by
  cases htext : Abbreviation.ofText text with
  | error e =>
    have hrefused := Abbreviation.ofText_eq_error_iff.mp htext
    rw [findHex_of_refused hrefused]
    exact .refused hrefused
  | ok a =>
    obtain ⟨hread, hspells⟩ := Abbreviation.ofText_eq_ok_iff.mp htext
    have hfind : t.findHex text = t.find a.id a.length := by rw [findHex, htext]
    have hanswers := answers_startsWith hspells sound buckets
    rw [hfind]
    cases hlookup : t.lookup a.id a.length with
    | only i =>
      obtain ⟨hi, hall⟩ := hanswers.eq_only_iff.mp hlookup
      rw [find, hlookup]
      exact .only hread hi hall
    | none =>
      rw [find_eq_noMatch hspells hlookup]
      exact .none hread (hanswers.eq_none_iff.mp hlookup)
    | several =>
      obtain ⟨i, j, hne, hi, hj⟩ := hanswers.eq_several_iff.mp hlookup
      rw [find_eq_ambiguous hspells hlookup]
      exact .several hread hne hi hj

theorem findHex_of_finds (h : t.Finds text r) : t.findHex text = r := by
  cases h with
  | refused hrefused => exact findHex_of_refused hrefused
  | only hread hi hall =>
    obtain ⟨a, hspells, hfind⟩ := findHex_of_readable (t := t) hread
    have hlookup := (answers_startsWith hspells sound buckets).eq_only_iff.mpr ⟨hi, hall⟩
    rw [hfind, find, hlookup]
  | none hread hnone =>
    obtain ⟨a, hspells, hfind⟩ := findHex_of_readable (t := t) hread
    have hlookup := (answers_startsWith hspells sound buckets).eq_none_iff.mpr hnone
    rw [hfind, find_eq_noMatch hspells hlookup]
  | several hread hne hi hj =>
    obtain ⟨a, hspells, hfind⟩ := findHex_of_readable (t := t) hread
    have hlookup := (answers_startsWith hspells sound buckets).eq_several_iff.mpr
      ⟨_, _, hne, hi, hj⟩
    rw [hfind, find_eq_ambiguous hspells hlookup]

theorem length_lt_of_ambiguous {shown : String} (h : t.findHex text = .error (.ambiguous shown)) :
    text.length < ObjectId.digitCount := by
  have hfinds := finds_findHex sound buckets text
  generalize hr : t.findHex text = r at hfinds
  cases hfinds with
  | refused hrefused => cases hr.symm.trans h
  | none hread hnone => cases hr.symm.trans h
  | only hread hi hall => cases commitAt_eq_error_iff.mp (hr.symm.trans h)
  | several hread hne hi hj =>
    exact Nat.not_le.mp fun hlength => hne (eq_of_startsWith sound hread hlength hi hj)

end Sound

end Tables

/-- In a file whose ids stand in their buckets, a text finds the commit whose id, written out, is
the only one to begin with it. -/
theorem Graph.findHex_eq_iff_finds {file : Bytes} {g : Graph}
    (hfile : file.length < Format.sizeLimit) (h : Graph.parse file = .ok g)
    (buckets : g.tables.InBuckets) (text : String) :
    (∀ r, g.tables.findHex text = r ↔ g.tables.Finds text r) ∧
      ∀ shown, g.tables.findHex text = .error (.ambiguous shown) → text.length < 40 := by
  have sound := sound_of_parse hfile h
  refine ⟨fun r => ⟨?_, Tables.findHex_of_finds sound buckets⟩, fun shown hambiguous => ?_⟩
  · rintro rfl
    exact Tables.finds_findHex sound buckets text
  · exact Tables.length_lt_of_ambiguous sound buckets hambiguous

/-- Of the ids of the sample one begins with two zeros and two begin with `07`. No id has a letter
among its first digits. -/
theorem Graph.findHex_sampleGraph : History.sampleFile.length < Format.sizeLimit ∧
    Graph.parse History.sampleFile = .ok History.sampleGraph ∧
    History.sampleGraph.tables.InBuckets ∧
    (∃ c, History.sampleGraph.tables.findHex "00" = .ok c ∧ c.position = 0) ∧
    History.sampleGraph.tables.findHex "07" = .error (.ambiguous "07") ∧
    History.sampleGraph.tables.findHex "0A0" = .error (.noMatch "0a0") := by
  have buckets := History.prepared_sample.inBuckets_tables
  have hfinds (text : String) := (findHex_eq_iff_finds History.length_sampleFile
    History.parse_sampleFile buckets text).1
  refine ⟨History.length_sampleFile, History.parse_sampleFile, buckets, ?_⟩
  rw [History.tables_sampleGraph] at hfinds ⊢
  have hlower : "00".toLower = "00" ∧ "07".toLower = "07" ∧ "0A0".toLower = "0a0" := by
    simp only [← String.toList_inj, Abbreviation.toList_toLower]
    decide
  have hsize {text : String} {i : Nat} (h : History.sampleTables.StartsWith text i) : i < 3 := by
    obtain ⟨id, hid, _⟩ := h
    exact (Array.getElem?_eq_some_iff.mp hid).1
  have hfirst : ∀ i < 3, History.sampleTables.StartsWith "00" i ↔ i = 0 := by decide
  have hothers : History.sampleTables.StartsWith "07" 1 ∧
      History.sampleTables.StartsWith "07" 2 := by decide
  have hnone : ∀ i < 3, ¬ History.sampleTables.StartsWith "0a0" i := by decide
  refine ⟨?_, ?_, ?_⟩
  · have hread : Abbreviation.Readable "00" := by decide
    have honly : History.sampleTables.Finds "00" (History.sampleTables.commitAt 0) := by
      apply Tables.Finds.only hread
      · rw [hlower.1]
        exact (hfirst 0 (by decide)).mpr rfl
      · intro j hj
        rw [hlower.1] at hj
        exact (hfirst j (hsize hj)).mp hj
    exact ⟨_, (hfinds _ _).mpr honly, rfl⟩
  · have hread : Abbreviation.Readable "07" := by decide
    have hseveral := Tables.Finds.several hread (by decide) (hlower.2.1.symm ▸ hothers.1)
      (hlower.2.1.symm ▸ hothers.2)
    rw [hlower.2.1] at hseveral
    exact (hfinds _ _).mpr hseveral
  · have hread : Abbreviation.Readable "0A0" := by decide
    have hnothing := Tables.Finds.none (t := History.sampleTables) hread fun i hi => by
      rw [hlower.2.2] at hi
      exact hnone i (hsize hi) hi
    rw [hlower.2.2] at hnothing
    exact (hfinds _ _).mpr hnothing

end Ancestry
