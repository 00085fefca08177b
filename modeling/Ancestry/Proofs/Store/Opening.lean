import Ancestry.Proofs.Store.Opened

/-!
# Two ways to the bytes of a file

A file is mapped by the system or read piece by piece until its end, and an empty file is never
mapped. Nothing but the log can tell the two ways apart. So which files are opened, and what is
reported of the others, does not depend on the way.
-/

namespace Ancestry

open Outcome

/-- How a system gives the bytes of a file: what it maps, and how many bytes more than one a single
read gives where that many are left. -/
structure Loader where
  view : Bytes → Except DiskError Bytes
  more : Bytes → Nat

namespace Loader

/-- A file that is not empty is mapped as it is. What becomes of an empty one is left open. -/
def Faithful (l : Loader) : Prop := ∀ bytes, bytes ≠ [] → l.view bytes = .ok bytes

def readAll (l : Loader) (before rest : Bytes) : Bytes :=
  if rest = [] then before
  else
    let n := l.more rest + 1
    readAll l (before ++ rest.take n) (rest.drop n)
termination_by rest.length
decreasing_by
  rw [List.length_drop]
  have := List.length_pos_iff.mpr (by assumption : ¬ rest = [])
  omega

def load (l : Loader) (map : Bool) (bytes : Bytes) : Except DiskError Contents :=
  if map then
    if bytes.isEmpty then .ok ⟨[], false⟩ else (l.view bytes).map (⟨·, true⟩)
  else .ok ⟨l.readAll [] bytes, false⟩

def openWith (l : Loader) (disk : Disk) (settings : Settings) : Logged (Except StoreError Opened) :=
  let path := settings.path
  match disk.node path with
  | .error cause => ⟨.error (.disk cause), []⟩
  | .ok .directory => ⟨.error (.notRegular path), []⟩
  | .ok (.file bytes) =>
    if settings.limit < bytes.length then
      ⟨.error (.tooLarge path bytes.length settings.limit), []⟩
    else
      match l.load settings.mapped bytes with
      | .error cause => ⟨.error (.disk cause), []⟩
      | .ok contents =>
        let event := Event.opened path bytes.length contents.mapped
        match Graph.parse contents.bytes with
        | .error cause => ⟨.error (.graph cause), [event, .discarded path cause]⟩
        | .ok graph =>
          ⟨.ok ⟨path, graph⟩,
            [event, .validated path graph.tables.size graph.tables.edges.size]⟩

variable {l : Loader}

/-- Whatever the pieces are, they make up the file. -/
theorem readAll_eq_append (before rest : Bytes) : l.readAll before rest = before ++ rest := by
  fun_induction readAll l before rest with
  | case1 before => rw [List.append_nil]
  | case2 before rest hne n ih => rw [ih, List.append_assoc, List.take_append_drop]

variable (faithful : l.Faithful)
include faithful

theorem load_eq_ofFile (map : Bool) (bytes : Bytes) :
    l.load map bytes = .ok (.ofFile map bytes) := by
  cases map with
  | false =>
    rw [load, if_neg Bool.false_ne_true, readAll_eq_append]
    rfl
  | true =>
    cases bytes with
    | nil => rfl
    | cons b bytes =>
      rw [load, if_pos rfl, faithful _ (List.cons_ne_nil b bytes)]
      rfl

theorem openWith_eq (disk : Disk) (settings : Settings) :
    l.openWith disk settings = Opened.openWith disk settings := by
  unfold openWith Opened.openWith
  dsimp only
  cases disk.node settings.path with
  | error cause => rfl
  | ok node =>
    cases node with
    | directory => rfl
    | file bytes =>
      have hload := load_eq_ofFile faithful settings.mapped bytes
      dsimp only
      generalize l.load settings.mapped bytes = loaded at hload
      subst hload
      rfl

end Loader

namespace Opened

variable {l : Loader} {disk : Disk} {settings : Settings} {o : Opened} {e : StoreError}

/-- What is reported of a path that cannot be opened, the first that applies. -/
inductive Refusal (disk : Disk) (settings : Settings) : StoreError → Prop
  | disk (cause : DiskError) (nowhere : disk.node settings.path = .error cause) :
      Refusal disk settings (.disk cause)
  | notRegular (directory : disk.node settings.path = .ok .directory) :
      Refusal disk settings (.notRegular settings.path)
  | tooLarge (bytes : Bytes) (file : disk.node settings.path = .ok (.file bytes))
      (large : settings.limit < bytes.length) :
      Refusal disk settings (.tooLarge settings.path bytes.length settings.limit)
  | graph (bytes : Bytes) (cause : GraphError) (file : disk.node settings.path = .ok (.file bytes))
      (length_le : bytes.length ≤ settings.limit) (fails : Graph.parse bytes = .error cause) :
      Refusal disk settings (.graph cause)

theorem openWith_eq_error_iff : (openWith disk settings).value = .error e ↔
    Refusal disk settings e := by
  rw [value_openWith]
  constructor
  · intro he
    split at he
    · next cause hnode =>
      obtain rfl := Except.error.inj he
      exact .disk cause hnode
    · next hnode =>
      obtain rfl := Except.error.inj he
      exact .notRegular hnode
    · next bytes hnode =>
      split at he
      · next hlarge =>
        obtain rfl := Except.error.inj he
        exact .tooLarge bytes hnode hlarge
      · next hlimit =>
        split at he
        · next cause hparse =>
          obtain rfl := Except.error.inj he
          exact .graph bytes cause hnode (Nat.not_lt.mp hlimit) hparse
        · cases he
  · intro refusal
    cases refusal with
    | disk cause nowhere => rw [nowhere]
    | notRegular directory => rw [directory]
    | tooLarge bytes file large =>
      rw [file]
      exact if_pos large
    | graph bytes cause file length_le fails =>
      rw [file]
      apply (if_neg (Nat.not_lt.mpr length_le)).trans
      rw [fails]

theorem exists_openWith_iff : (∃ o, (openWith disk settings).value = .ok o) ↔
    ∃ bytes, disk.node settings.path = .ok (.file bytes) ∧ bytes.length ≤ settings.limit ∧
      ∃ g, Graph.parse bytes = .ok g := by
  simp only [openWith_eq_ok_iff]
  constructor
  · rintro ⟨_, bytes, graph, hnode, hlimit, hparse, _⟩
    exact ⟨bytes, hnode, hlimit, graph, hparse⟩
  · rintro ⟨bytes, hnode, hlimit, graph, hparse⟩
    exact ⟨_, bytes, graph, hnode, hlimit, hparse, rfl⟩

theorem node_of_openWith (h : (openWith disk settings).value = .ok o) :
    disk.node settings.path = .ok (.file o.graph.file) := by
  obtain ⟨bytes, graph, hnode, _, hparse, rfl⟩ := openWith_eq_ok_iff.mp h
  rwa [Graph.file_of_parse hparse]

theorem value_openWith_mapped (mapped : Bool) :
    (openWith disk { settings with mapped }).value = (openWith disk settings).value := by
  rw [value_openWith, value_openWith]

/-- However a system loads files, those are opened that are no longer than allowed and can be read,
with all their bytes. Of others the first fault is reported, and mapping makes no difference. -/
theorem openWith_exact (faithful : l.Faithful) (disk : Disk) (settings : Settings) :
    l.openWith disk settings = openWith disk settings ∧
    ((∃ o, (l.openWith disk settings).value = .ok o) ↔
      ∃ bytes, disk.node settings.path = .ok (.file bytes) ∧ bytes.length ≤ settings.limit ∧
        ∃ g, Graph.parse bytes = .ok g) ∧
    (∀ o, (l.openWith disk settings).value = .ok o → o.path = settings.path ∧
      disk.node settings.path = .ok (.file o.graph.file) ∧
        Graph.parse o.graph.file = .ok o.graph) ∧
    (∀ e, (l.openWith disk settings).value = .error e ↔ Refusal disk settings e) ∧
    ∀ mapped, (l.openWith disk { settings with mapped }).value =
      (l.openWith disk settings).value := by
  simp only [Loader.openWith_eq faithful]
  refine ⟨trivial, exists_openWith_iff, fun o h => ?_, fun e => openWith_eq_error_iff,
    value_openWith_mapped⟩
  have admitted := admitted_of_openWith h
  exact ⟨admitted.path_eq, node_of_openWith h, admitted.parses⟩

end Opened

def Loader.sparing : Loader where
  view bytes := if bytes.isEmpty then .error .invalid else .ok bytes
  more _ := 0

theorem Loader.faithful_sparing : sparing.Faithful := by
  intro bytes hne
  exact if_neg (mt List.isEmpty_iff.mp hne)

namespace Opened

/-- The sample under a limit of just its length and of one less, and an empty file in both ways. -/
theorem openWith_sparing : Loader.sparing.Faithful ∧
    (Loader.sparing.openWith (.single History.sampleFile)
        ⟨"g", true, History.sampleFile.length⟩).value = .ok ⟨"g", History.sampleGraph⟩ ∧
    (∀ limit < History.sampleFile.length,
      (Loader.sparing.openWith (.single History.sampleFile) ⟨"g", false, limit⟩).value =
        .error (.tooLarge "g" History.sampleFile.length limit)) ∧
    ∀ mapped limit, (Loader.sparing.openWith (.single []) ⟨"g", mapped, limit⟩).value =
      .error (.graph (.tooShort 0)) := by
  have hsample := Disk.node_single History.sampleFile
  refine ⟨Loader.faithful_sparing, ?_, fun limit hlimit => ?_, fun mapped limit => ?_⟩
  · obtain ⟨heq, _⟩ := openWith_exact Loader.faithful_sparing (.single History.sampleFile)
      ⟨"g", true, History.sampleFile.length⟩
    rw [heq]
    exact openWith_eq_ok_iff.mpr
      ⟨_, _, hsample, Nat.le_refl _, History.parse_sampleFile, rfl⟩
  · obtain ⟨_, _, _, herror, _⟩ := openWith_exact Loader.faithful_sparing
      (.single History.sampleFile) ⟨"g", false, limit⟩
    exact (herror _).mpr (.tooLarge _ hsample hlimit)
  · obtain ⟨_, _, _, herror, _⟩ := openWith_exact Loader.faithful_sparing (.single [])
      ⟨"g", mapped, limit⟩
    exact (herror _).mpr (.graph [] _ (Disk.node_single []) (Nat.zero_le _) rfl)

end Opened

end Ancestry
