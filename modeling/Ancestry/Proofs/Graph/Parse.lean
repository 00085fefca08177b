import Ancestry.Proofs.History.Encode

/-!
# What reading accepts

A file is read exactly when it is well formed, and the graph that is read has the only layout that
the file can have.
-/

namespace Ancestry.Graph

/-- Reading accepts the format and nothing else, and reports what the file holds. -/
theorem exists_parse_iff_wellFormed {file : Bytes} (hfile : file.length < Format.sizeLimit) :
    ((∃ g, Graph.parse file = .ok g) ↔ ∃ layout, Format.WellFormed file layout) ∧
      ∀ g, Graph.parse file = .ok g →
        (∀ layout, Format.WellFormed file layout ↔ layout = g.layout) ∧
          g.tables.size = g.layout.commitCount ∧ g.tables.edges.size = g.layout.edgeCount ∧
          g.checksum.toBytes = file.drop (file.length - 20) ∧ g.file = file := by
  constructor
  · constructor
    · intro h
      rcases h with ⟨g, hg⟩
      exact ⟨g.layout, (Format.wellFormed_of_parse hfile hg).1⟩
    · intro h
      rcases h with ⟨layout, hlayout⟩
      exact ⟨_, Format.parse_of_wellFormed hfile hlayout⟩
  · intro g hg
    obtain ⟨hwell, hgraph⟩ := Format.wellFormed_of_parse hfile hg
    have hlength : (file.drop (file.length - 20)).length = 20 := by
      have := hwell.size
      rw [List.length_drop]
      omega
    refine ⟨?_, ?_, ?_, ?_, ?_⟩
    · intro layout
      constructor
      · intro hlayout
        cases hg.symm.trans (Format.parse_of_wellFormed hfile hlayout)
        rfl
      · rintro rfl
        exact hwell
    · rw [← hgraph]
      exact Tables.size_ofLayout file g.layout
    · rw [← hgraph]
      exact Tables.edges_size_ofLayout file g.layout
    · rw [← hgraph]
      exact ObjectId.toBytes_ofBytes hlength
    · rw [← hgraph]
      rfl

theorem wellFormed_sampleFile : History.sampleFile.length < Format.sizeLimit ∧
    (∃ layout, Format.WellFormed History.sampleFile layout) ∧
      History.sampleGraph.tables.size = 3 ∧ History.sampleGraph.tables.edges.size = 2 := by
  obtain ⟨haccepts, hreports⟩ := exists_parse_iff_wellFormed History.length_sampleFile
  obtain ⟨_, hsize, hedges, _⟩ := hreports _ History.parse_sampleFile
  refine ⟨History.length_sampleFile, haccepts.mp ⟨_, History.parse_sampleFile⟩, ?_, hedges⟩
  exact hsize.trans (History.length_sortedIds History.sample)

end Ancestry.Graph
