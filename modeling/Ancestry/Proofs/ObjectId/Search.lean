import Ancestry.ObjectId.Table
import Ancestry.Proofs.ObjectId.Order

/-!
# Where a search ends

Of a table in any order a search says little, but what it says is true: a hit is the key, and a gap
lies between an id below the key and one above it, unless it is at an end of the part searched. In
an ascending table no other id then needs to be looked at.
-/

namespace Ancestry.ObjectId.Table

variable {table : Table} {key : ObjectId} {lo hi position : Nat}

def Ascending (table : Table) : Prop := table.toList.Pairwise (· < ·)

/-- The gap before `position` is where the key would stand, as far as the part from `lo` up to `hi`
can tell. -/
structure IsGap (table : Table) (key : ObjectId) (lo hi position : Nat) : Prop where
  lo_le : lo ≤ position
  le_hi : position ≤ hi
  below : position = lo ∨ ∃ id, table[position - 1]? = some id ∧ id < key
  above : position = hi ∨ ∃ id, table[position]? = some id ∧ key < id

theorem bisect_hit {h : hi ≤ table.size} (hit : table.bisect key lo hi h = .hit position) :
    lo ≤ position ∧ position < hi ∧ table[position]? = some key := by
  fun_induction bisect table key lo hi h with
  | case1 lo hi h hlt mid hmid id hless ih =>
    have hdef : mid = lo + (hi - lo) / 2 := rfl
    obtain ⟨hlo, hhi, hkey⟩ := ih hit
    exact ⟨by omega, hhi, hkey⟩
  | case2 lo hi h hlt mid hmid id hnot hless ih =>
    have hdef : mid = lo + (hi - lo) / 2 := rfl
    obtain ⟨hlo, hhi, hkey⟩ := ih hit
    exact ⟨hlo, by omega, hkey⟩
  | case3 lo hi h hlt mid hmid id hnot hnot' =>
    have hdef : mid = lo + (hi - lo) / 2 := rfl
    obtain rfl := Found.hit.inj hit
    refine ⟨by omega, hmid, ?_⟩
    rw [Array.getElem?_eq_getElem (by omega)]
    exact congrArg some (eq_of_not_lt hnot hnot')
  | case4 => cases hit

theorem bisect_gap {h : hi ≤ table.size} (hle : lo ≤ hi)
    (gap : table.bisect key lo hi h = .gap position) : IsGap table key lo hi position := by
  fun_induction bisect table key lo hi h with
  | case1 lo hi h hlt mid hmid id hless ih =>
    have hdef : mid = lo + (hi - lo) / 2 := rfl
    have hgap := ih (by omega) gap
    refine ⟨Nat.le_trans (by omega) hgap.lo_le, hgap.le_hi, ?_, hgap.above⟩
    rcases hgap.below with heq | hbelow
    · refine Or.inr ⟨id, ?_, hless⟩
      rw [heq, Nat.add_sub_cancel, Array.getElem?_eq_getElem (by omega)]
    · exact Or.inr hbelow
  | case2 lo hi h hlt mid hmid id hnot hless ih =>
    have hdef : mid = lo + (hi - lo) / 2 := rfl
    have hgap := ih (by omega) gap
    refine ⟨hgap.lo_le, Nat.le_trans hgap.le_hi (by omega), hgap.below, ?_⟩
    rcases hgap.above with heq | habove
    · refine Or.inr ⟨id, ?_, hless⟩
      rw [heq, Array.getElem?_eq_getElem (by omega)]
    · exact Or.inr habove
  | case3 => cases gap
  | case4 lo hi h hnot =>
    obtain rfl := Found.gap.inj gap
    exact ⟨Nat.le_refl _, hle, Or.inl rfl, Or.inl (by omega)⟩

theorem search_hit (hit : table.search lo hi key = .hit position) :
    lo ≤ position ∧ position < hi ∧ table[position]? = some key := by
  obtain ⟨hlo, hhi, hkey⟩ := bisect_hit hit
  exact ⟨by omega, by omega, hkey⟩

theorem search_gap (gap : table.search lo hi key = .gap position) :
    IsGap table key (min lo (min hi table.size)) (min hi table.size) position :=
  bisect_gap (by omega) gap

namespace Ascending

variable (sorted : table.Ascending) {i j : Nat} {a b : ObjectId}
include sorted

theorem lt (hij : i < j) (ha : table[i]? = some a) (hb : table[j]? = some b) : a < b := by
  obtain ⟨hi, rfl⟩ := Array.getElem?_eq_some_iff.mp ha
  obtain ⟨hj, rfl⟩ := Array.getElem?_eq_some_iff.mp hb
  exact List.pairwise_iff_getElem.mp sorted i j hi hj hij

theorem le (hij : i ≤ j) (ha : table[i]? = some a) (hb : table[j]? = some b) : a ≤ b := by
  rcases Nat.lt_or_eq_of_le hij with hlt | rfl
  · exact (lt_iff_le_and_ne.mp (sorted.lt hlt ha hb)).1
  · cases ha.symm.trans hb
    exact Nat.le_refl _

theorem lt_of_lt (ha : table[i]? = some a) (hb : table[j]? = some b) (hab : a < b) : i < j := by
  rcases Nat.lt_or_ge i j with hlt | hge
  · exact hlt
  · exact absurd hab (not_lt.mpr (sorted.le hge hb ha))

theorem eq_of_getElem? (ha : table[i]? = some a) (hb : table[j]? = some a) : i = j := by
  rcases Nat.lt_trichotomy i j with hlt | heq | hlt
  · exact absurd (sorted.lt hlt ha hb) (lt_irrefl a)
  · exact heq
  · exact absurd (sorted.lt hlt hb ha) (lt_irrefl a)

theorem search_all (ha : table[i]? = some a) : table.search 0 table.size a = .hit i := by
  obtain ⟨hi, _⟩ := Array.getElem?_eq_some_iff.mp ha
  cases hsearch : table.search 0 table.size a with
  | hit position => rw [sorted.eq_of_getElem? (search_hit hsearch).2.2 ha]
  | gap position =>
    have hgap := search_gap hsearch
    have hbelow : position ≤ i := by
      rcases hgap.below with heq | ⟨id, hid, hlt⟩
      · omega
      · have := sorted.lt_of_lt hid ha hlt
        omega
    have habove : i < position := by
      rcases hgap.above with heq | ⟨id, hid, hlt⟩
      · omega
      · exact sorted.lt_of_lt ha hid hlt
    omega

end Ascending

end Ancestry.ObjectId.Table
