import Ancestry.Proofs.History.Encode

/-!
# Histories in another order

The file of a history does not tell in which order its revisions were given, and neither does the
error where there is no file. Equal ids could keep their order through the sorting, but then no
revision is looked at for more than its id.
-/

namespace Ancestry

namespace Revision

variable {rs ss : List Revision}

/-- Revisions with one id may change places, but the ids come in one order only. -/
theorem map_id_sort_eq_of_perm (h : rs.Perm ss) :
    (sort rs).map Revision.id = (sort ss).map Revision.id := by
  have hsorted := (sort_perm rs).trans (h.trans (sort_perm ss).symm)
  refine List.Perm.eq_of_pairwise ?_ (pairwise_sort rs) (pairwise_sort ss) (hsorted.map Revision.id)
  intro a b _ _ hab hba
  exact ObjectId.ext_iff_number.mpr (Nat.le_antisymm hab hba)

theorem sort_eq_sort_of_perm (h : rs.Perm ss)
    (hnone : firstRepeat ((sort ss).map Revision.id) = none) : sort rs = sort ss := by
  have hrise := (firstRepeat_eq_none_iff (pairwise_sort ss)).mp hnone
  exact sort_eq_of_perm (h.trans (sort_perm ss).symm) (List.pairwise_map.mp hrise)

end Revision

namespace History

variable {h k : History}

/-- The order in which the revisions are given makes no difference. -/
theorem encode_eq_of_perm (hperm : h.revisions.Perm k.revisions)
    (hattached : h.attachments = k.attachments) : h.encode = k.encode := by
  have hempty : h.revisions.isEmpty = k.revisions.isEmpty := hperm.isEmpty_eq
  have hlength : h.revisions.length = k.revisions.length := hperm.length_eq
  have hids := Revision.map_id_sort_eq_of_perm hperm
  unfold encode
  dsimp only
  rw [hempty, hlength, hids, hattached]
  cases hrepeat : Revision.firstRepeat ((Revision.sort k.revisions).map Revision.id) with
  | some id => rfl
  | none => rw [Revision.sort_eq_sort_of_perm hperm hrepeat]

def twin (tree : ObjectId) (parents : List ObjectId) : Revision :=
  ⟨.ofNat 5, tree, parents, 1, 10⟩

/-- The sample may be given backwards, and so may two revisions with one id. -/
theorem encode_reversed :
    encode ⟨sample.revisions.reverse, sample.attachments⟩ = .ok sampleFile ∧
    encode ⟨[twin .zero [], twin (.ofNat 1) [.ofNat 6]], []⟩ =
      encode ⟨[twin (.ofNat 1) [.ofNat 6], twin .zero []], []⟩ := by
  constructor
  · have hsample : sample.encode = .ok sampleFile :=
      encode_eq_ok_iff.mpr ⟨_, _, prepared_sample, rfl⟩
    rw [← hsample]
    exact encode_eq_of_perm (List.reverse_perm _) rfl
  · exact encode_eq_of_perm (List.Perm.swap _ _ _) rfl

end History

end Ancestry
